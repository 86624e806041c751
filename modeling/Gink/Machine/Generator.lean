/-
  Gink.Machine.Generator — code that yields items one by one, keeps a state and may stop.

  A run of a generator to its end gives the items it yielded, the state it left and what it
  returned or stopped with; what was yielded and written before it stopped stays.  `Holds`
  says of a generator what it yields, which states it keeps to and how it may stop; its
  rules follow the ways generators are put together.  Nothing here depends on what the
  states, the items and the ways of stopping are.
-/
import Mathlib

namespace Gink

namespace Machine

/-- What running a generator to its end gives. -/
structure Generated (ε σ ω α : Type) where
  yielded : List ω
  state : σ
  result : Except ε α

/-- A generator over a state. -/
def Generator (ε σ ω α : Type) := σ → Generated ε σ ω α

namespace Generator

variable {ε σ τ ω α β : Type}

/-! ## §1. Putting generators together. -/

protected def pure (a : α) : Generator ε σ ω α := fun s => ⟨[], s, .ok a⟩

protected def bind (g : Generator ε σ ω α) (f : α → Generator ε σ ω β) : Generator ε σ ω β :=
  fun s =>
    let first := g s
    match first.result with
    | .error e => ⟨first.yielded, first.state, .error e⟩
    | .ok a =>
        let rest := f a first.state
        ⟨first.yielded ++ rest.yielded, rest.state, rest.result⟩

instance : Monad (Generator ε σ ω) where
  pure := Generator.pure
  bind := Generator.bind

/-- `yield item`. -/
def yielding (item : ω) : Generator ε σ ω Unit := fun s => ⟨[item], s, .ok ()⟩

/-- Stop. -/
def stop (e : ε) : Generator ε σ ω α := fun s => ⟨[], s, .error e⟩

/-- Read the state. -/
def read : Generator ε σ ω σ := fun s => ⟨[], s, .ok s⟩

/-- Replace the state. -/
def write (s : σ) : Generator ε σ ω Unit := fun _ => ⟨[], s, .ok ()⟩

/-- A computation without items and state. -/
def of (x : Except ε α) : Generator ε σ ω α := fun s => ⟨[], s, x⟩

/-- Run a generator for each item of a list, in order. -/
def forEach (f : α → Generator ε σ ω Unit) : List α → Generator ε σ ω Unit
  | [] => pure ()
  | a :: rest => do
      f a
      forEach f rest

/-! ## §2. Runs. -/

theorem pure_apply (a : α) (s : σ) : (pure a : Generator ε σ ω α) s = ⟨[], s, .ok a⟩ := rfl

theorem bind_apply (g : Generator ε σ ω α) (f : α → Generator ε σ ω β) (s : σ) :
    (g >>= f) s = match (g s).result with
      | .error e => ⟨(g s).yielded, (g s).state, .error e⟩
      | .ok a => ⟨(g s).yielded ++ (f a (g s).state).yielded, (f a (g s).state).state,
          (f a (g s).state).result⟩ := rfl

theorem of_ok_bind (a : α) (f : α → Generator ε σ ω β) (s : σ) :
    ((of (.ok a) : Generator ε σ ω α) >>= f) s = f a s := rfl

theorem of_error_bind (e : ε) (f : α → Generator ε σ ω β) (s : σ) :
    ((of (.error e) : Generator ε σ ω α) >>= f) s = ⟨[], s, .error e⟩ := rfl

theorem read_bind (f : σ → Generator ε σ ω β) (s : σ) :
    ((read : Generator ε σ ω σ) >>= f) s = f s s := rfl

theorem write_bind (t : σ) (f : Unit → Generator ε σ ω β) (s : σ) :
    ((write t : Generator ε σ ω Unit) >>= f) s = f () t := rfl

theorem pure_bind (a : α) (f : α → Generator ε σ ω β) :
    ((pure a : Generator ε σ ω α) >>= f) = f a := rfl

theorem bind_assoc {γ : Type} (g : Generator ε σ ω α) (f : α → Generator ε σ ω β)
    (h : β → Generator ε σ ω γ) : (g >>= f) >>= h = g >>= fun a => f a >>= h := by
  funext s
  rw [bind_apply, bind_apply, bind_apply]
  cases hg : (g s).result with
  | error e => rfl
  | ok a =>
      show _ = (⟨(g s).yielded ++ ((f a >>= h) (g s).state).yielded, _, _⟩ : Generated ε σ ω γ)
      rw [bind_apply]
      cases hf : (f a (g s).state).result with
      | error e => rfl
      | ok b => simp only [List.append_assoc]

/-! ## §3. What a generator keeps to. -/

/-- Started in a state with `P` it yields items with `Q` only, leaves a state with `P`, and
stops with nothing but what `E` allows. -/
def Holds (P : σ → Prop) (Q : ω → Prop) (E : ε → Prop) (g : Generator ε σ ω α) : Prop :=
  ∀ s, P s → (∀ w ∈ (g s).yielded, Q w) ∧ P (g s).state ∧ ∀ e, (g s).result = .error e → E e

section
variable {P : σ → Prop} {Q : ω → Prop} {E : ε → Prop}

theorem Holds.pure (a : α) : Holds P Q E (pure a : Generator ε σ ω α) := by
  intro s hs
  refine ⟨?_, hs, ?_⟩
  · intro w hw
    exact absurd hw List.not_mem_nil
  · intro e he
    cases he

/-- **One after the other**: the second may use what the first returned, and the state it
returned it in. -/
theorem Holds.bind_of {g : Generator ε σ ω α} {f : α → Generator ε σ ω β} (hg : Holds P Q E g)
    (hf : ∀ s, P s → ∀ a, (g s).result = .ok a → P (g s).state →
      (∀ w ∈ (f a (g s).state).yielded, Q w) ∧ P (f a (g s).state).state ∧
        ∀ e, (f a (g s).state).result = .error e → E e) :
    Holds P Q E (g >>= f) := by
  intro s hs
  obtain ⟨hitems, hstate, hstop⟩ := hg s hs
  rw [bind_apply]
  cases hr : (g s).result with
  | error e =>
      refine ⟨hitems, hstate, ?_⟩
      intro e' he'
      injection (show (Except.error e : Except ε β) = .error e' from he') with h
      exact hstop e' (h ▸ hr)
  | ok a =>
      obtain ⟨hitems', hstate', hstop'⟩ := hf s hs a hr hstate
      refine ⟨?_, hstate', hstop'⟩
      intro w hw
      rcases List.mem_append.mp hw with h | h
      · exact hitems w h
      · exact hitems' w h

theorem Holds.bind {g : Generator ε σ ω α} {f : α → Generator ε σ ω β} (hg : Holds P Q E g)
    (hf : ∀ a, Holds P Q E (f a)) : Holds P Q E (g >>= f) :=
  hg.bind_of fun _ _ a _ hstate => hf a _ hstate

theorem Holds.of {x : Except ε α} (h : ∀ e, x = .error e → E e) :
    Holds P Q E (of x : Generator ε σ ω α) := by
  intro s hs
  exact ⟨fun w hw => absurd hw List.not_mem_nil, hs, h⟩

/-- After a computation its result may be used. -/
theorem Holds.of_bind {x : Except ε α} {f : α → Generator ε σ ω β} (h : ∀ e, x = .error e → E e)
    (hf : ∀ a, x = .ok a → Holds P Q E (f a)) : Holds P Q E (Generator.of x >>= f) :=
  (Holds.of h).bind_of fun _ _ a ha hstate => hf a ha _ hstate

theorem Holds.stop {e : ε} (h : E e) : Holds P Q E (stop e : Generator ε σ ω α) := by
  intro s hs
  refine ⟨fun w hw => absurd hw List.not_mem_nil, hs, ?_⟩
  intro e' he'
  cases he'
  exact h

theorem Holds.yielding {item : ω} (h : Q item) :
    Holds P Q E (yielding item : Generator ε σ ω Unit) := by
  intro s hs
  refine ⟨?_, hs, ?_⟩
  · intro w hw
    rw [List.mem_singleton.mp hw]
    exact h
  · intro e he
    cases he

/-- What is read has `P`. -/
theorem Holds.read_bind {f : σ → Generator ε σ ω β}
    (hf : ∀ s, P s → (∀ w ∈ (f s s).yielded, Q w) ∧ P (f s s).state ∧
      ∀ e, (f s s).result = .error e → E e) :
    Holds P Q E (read >>= f) := hf

theorem Holds.write {t : σ} (h : P t) : Holds P Q E (write t : Generator ε σ ω Unit) := by
  intro s _
  refine ⟨fun w hw => absurd hw List.not_mem_nil, h, ?_⟩
  intro e he
  cases he

theorem Holds.forEach {f : α → Generator ε σ ω Unit} {l : List α}
    (h : ∀ a ∈ l, Holds P Q E (f a)) : Holds P Q E (forEach f l) := by
  induction l with
  | nil => exact Holds.pure ()
  | cons a rest ih =>
      apply Holds.bind (h a List.mem_cons_self)
      intro _
      exact ih fun b hb => h b (List.mem_cons_of_mem a hb)

/-- In one state, kept to more than is asked for. -/
theorem Holds.within {P' : σ → Prop} {g : Generator ε σ ω α} {s : σ} (h : Holds P' Q E g)
    (hs : P' s) (hout : ∀ t, P' t → P t) :
    (∀ w ∈ (g s).yielded, Q w) ∧ P (g s).state ∧ ∀ e, (g s).result = .error e → E e := by
  obtain ⟨hitems, hstate, hstop⟩ := h s hs
  exact ⟨hitems, hout _ hstate, hstop⟩

/-! ## §4. What a generator returns. -/

/-- Whatever state it is started in, what it returns has `R`. -/
def Returns (R : α → Prop) (g : Generator ε σ ω α) : Prop :=
  ∀ s a, (g s).result = .ok a → R a

theorem Returns.pure {R : α → Prop} {a : α} (h : R a) :
    Returns R (pure a : Generator ε σ ω α) := by
  intro s b hb
  injection (show (Except.ok a : Except ε α) = .ok b from hb) with hb
  exact hb ▸ h

theorem Returns.of {R : α → Prop} {x : Except ε α} (h : ∀ a, x = .ok a → R a) :
    Returns R (of x : Generator ε σ ω α) := fun _ a ha => h a ha

theorem Returns.bind {R : α → Prop} {T : β → Prop} {g : Generator ε σ ω α}
    {f : α → Generator ε σ ω β} (hg : Returns R g) (hf : ∀ a, R a → Returns T (f a)) :
    Returns T (g >>= f) := by
  intro s b hb
  rw [bind_apply] at hb
  cases hr : (g s).result with
  | error e =>
      rw [hr] at hb
      cases hb
  | ok a =>
      rw [hr] at hb
      exact hf a (hg s a hr) _ b hb

theorem Returns.trivial (g : Generator ε σ ω α) : Returns (fun _ => True) g :=
  fun _ _ _ => True.intro

/-- The second may use what the first one's results all have. -/
theorem Holds.bind_returns {R : α → Prop} {g : Generator ε σ ω α} {f : α → Generator ε σ ω β}
    (hg : Holds P Q E g) (hr : Returns R g) (hf : ∀ a, R a → Holds P Q E (f a)) :
    Holds P Q E (g >>= f) :=
  hg.bind_of fun s _ a ha hstate => hf a (hr s a ha) _ hstate

end

end Generator

end Machine

end Gink
