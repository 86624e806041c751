/-
  Gink.Proto.Outcome — what code keeps and what it may raise.

  `Keeps` says what is left behind, `Meets` also says which exceptions may come out.
  The rules follow the shape of the code.
-/
import Gink.Proto.Action

namespace Gink

namespace Action

variable {σ τ α β : Type}

/-- The exception that comes out, if one does. -/
def raised : EStateM.Result Error σ α → Option Error
  | .ok _ _ => none
  | .error e _ => some e

theorem raised_eq_some {r : EStateM.Result Error σ α} {e : Error} :
    raised r = some e ↔ ∃ s, r = .error e s := by
  cases r with
  | ok a s => simp [raised]
  | error e' s => simp [raised]

/-- A run that left `P` behind, and raised nothing but `E`. -/
def Fine (P : σ → Prop) (E : Error → Prop) : EStateM.Result Error σ α → Prop
  | .ok _ s => P s
  | .error e s => P s ∧ E e

/-- From every state with `P` the code runs fine. -/
def Meets (P : σ → Prop) (E : Error → Prop) (x : Action σ α) : Prop := ∀ s, P s → Fine P E (x s)

variable {P : σ → Prop} {E : Error → Prop}

theorem Fine.endState {r : EStateM.Result Error σ α} (h : Fine P E r) : P (endState r) := by
  cases r with
  | ok a s => exact h
  | error e s => exact h.1

theorem Fine.error {r : EStateM.Result Error σ α} (h : Fine P E r) {e : Error} {s : σ}
    (hr : r = .error e s) : E e := by
  subst hr
  exact h.2

/-- A sequence runs fine if its first part does and the rest does from where it ends. -/
theorem Fine.bind {x : Action σ α} {f : α → Action σ β} {s : σ} (hx : Fine P E (x s))
    (hf : ∀ a s', x s = .ok a s' → P s' → Fine P E (f a s')) : Fine P E ((x >>= f) s) := by
  rw [bind_eq]
  cases hr : x s with
  | ok a s' =>
      rw [hr] at hx
      exact hf a s' hr hx
  | error e s' =>
      rw [hr] at hx
      exact hx

/-- What is caught is not raised. -/
theorem Fine.recover {x : Action σ α} {handler : Error → Action σ α} {s : σ} {F : Error → Prop}
    (hx : Fine P F (x s)) (hh : ∀ e s', x s = .error e s' → P s' → F e → Fine P E (handler e s')) :
    Fine P E (Action.recover x handler s) := by
  cases hr : x s with
  | ok a s' =>
      rw [recover_ok hr]
      rw [hr] at hx
      exact hx
  | error e s' =>
      rw [recover_error hr]
      rw [hr] at hx
      exact hh e s' hr hx.1 hx.2

/-- Of the exceptions one may say less. -/
theorem Meets.weaken {F : Error → Prop} {x : Action σ α} (hx : Meets P E x) (h : ∀ e, E e → F e) :
    Meets P F x := by
  intro s hs
  have hfine := hx s hs
  cases hr : x s with
  | ok a s' =>
      rw [hr] at hfine
      exact hfine
  | error e s' =>
      rw [hr] at hfine
      exact ⟨hfine.1, h e hfine.2⟩

theorem Meets.pure (a : α) : Meets P E (pure a : Action σ α) := fun _ h => h

theorem Meets.of {x : Except Error α} (hx : ∀ e, x = .error e → E e) :
    Meets P E (Action.of x : Action σ α) := by
  intro s h
  cases x with
  | ok a => exact h
  | error e => exact ⟨h, hx e rfl⟩

theorem Meets.error {e : Error} (he : E e) : Meets P E (Action.of (.error e) : Action σ α) :=
  fun _ h => ⟨h, he⟩

theorem Meets.modify {f : σ → σ} (hf : ∀ s, P s → P (f s)) :
    Meets P E (modify f : Action σ PUnit) := hf

theorem Meets.bind {x : Action σ α} {f : α → Action σ β} (hx : Meets P E x)
    (hf : ∀ a, Meets P E (f a)) : Meets P E (x >>= f) :=
  fun s h => (hx s h).bind fun a s' _ h' => hf a s' h'

theorem Meets.of_bind {x : Except Error α} {f : α → Action σ β} (hx : ∀ e, x = .error e → E e)
    (hf : ∀ a, x = .ok a → Meets P E (f a)) : Meets P E (Action.of x >>= f) := by
  intro s h
  cases x with
  | ok a => exact hf a rfl s h
  | error e => exact ⟨h, hx e rfl⟩

theorem Meets.get_bind {f : σ → Action σ β} (hf : ∀ s, P s → Fine P E (f s s)) :
    Meets P E (get >>= f) := hf

theorem Meets.recover {x : Action σ α} {handler : Error → Action σ α} {F : Error → Prop}
    (hx : Meets P F x) (hh : ∀ e, F e → Meets P E (handler e)) : Meets P E (Action.recover x handler) :=
  fun s h => (hx s h).recover fun e s' _ h' he => hh e he s' h'

/-- Code over a part of the state. -/
theorem Fine.within {get : σ → τ} {set : σ → τ → σ} {x : Action τ α} {s : σ} {Q : τ → Prop}
    (hx : Fine Q E (x (get s))) (hset : ∀ t, Q t → P (set s t)) :
    Fine P E (Action.within get set x s) := by
  unfold Action.within
  cases hr : x (get s) with
  | ok a t =>
      rw [hr] at hx
      exact hset t hx
  | error e t =>
      rw [hr] at hx
      exact ⟨hset t hx.1, hx.2⟩

end Action

end Gink
