/-
  Gink.Proto.Action — code that keeps what it wrote when it raises.

  Python has no transactions of its own: an exception leaves every assignment made
  before it in place.  `Action σ α` is such a piece of code over a state `σ`
  (core's `EStateM`); the lemmas take a run apart into the runs of its parts.
-/
import Gink.Proto.Errors

namespace Gink

/-- Code over a state `σ` that may raise and does not roll back. -/
abbrev Action (σ α : Type) := EStateM Error σ α

namespace Action

variable {σ τ α β : Type}

/-- A pure computation that may raise. -/
def of (x : Except Error α) : Action σ α := fun s =>
  match x with
  | .ok a => .ok a s
  | .error e => .error e s

/-- Code over a part of the state. -/
def within (get : σ → τ) (set : σ → τ → σ) (x : Action τ α) : Action σ α := fun s =>
  match x (get s) with
  | .ok a t => .ok a (set s t)
  | .error e t => .error e (set s t)

/-- `try: ... except Exception as e: ...`: what was done before the exception stays. -/
def recover (x : Action σ α) (handler : Error → Action σ α) : Action σ α := fun s =>
  match x s with
  | .ok a s => .ok a s
  | .error e s => handler e s

/-- The state a run ends in, whether it returns or raises. -/
def endState : EStateM.Result Error σ α → σ
  | .ok _ s => s
  | .error _ s => s

/-! ## Taking runs apart. -/

theorem bind_eq (x : Action σ α) (f : α → Action σ β) (s : σ) :
    (x >>= f) s = match x s with
      | .ok a s' => f a s'
      | .error e s' => EStateM.Result.error e s' := by
  show EStateM.bind x f s = _
  unfold EStateM.bind
  cases x s <;> rfl

theorem bind_eq_ok {x : Action σ α} {f : α → Action σ β} {s s' : σ} {b : β} :
    (x >>= f) s = .ok b s' ↔ ∃ a s₁, x s = .ok a s₁ ∧ f a s₁ = .ok b s' := by
  rw [bind_eq]
  cases x s with
  | ok a s₁ => simp
  | error e s₁ => simp

theorem bind_eq_error {x : Action σ α} {f : α → Action σ β} {s s' : σ} {e : Error} :
    (x >>= f) s = .error e s'
      ↔ x s = .error e s' ∨ ∃ a s₁, x s = .ok a s₁ ∧ f a s₁ = .error e s' := by
  rw [bind_eq]
  cases x s with
  | ok a s₁ => simp
  | error e s₁ => simp

theorem bind_of_ok {x : Action σ α} {f : α → Action σ β} {s s' : σ} {a : α}
    (h : x s = .ok a s') : (x >>= f) s = f a s' := by
  rw [bind_eq, h]

theorem bind_of_error {x : Action σ α} {f : α → Action σ β} {s s' : σ} {e : Error}
    (h : x s = .error e s') : (x >>= f) s = .error e s' := by
  rw [bind_eq, h]

theorem pure_apply (a : α) (s : σ) : (pure a : Action σ α) s = .ok a s := rfl

theorem modify_apply (f : σ → σ) (s : σ) : (modify f : Action σ PUnit) s = .ok ⟨⟩ (f s) := rfl

theorem get_apply (s : σ) : (get : Action σ σ) s = .ok s s := rfl

theorem get_bind (f : σ → Action σ α) (s : σ) : ((get : Action σ σ) >>= f) s = f s s := rfl

theorem set_bind (t : σ) (f : PUnit → Action σ α) (s : σ) :
    ((set t : Action σ PUnit) >>= f) s = f ⟨⟩ t := rfl

theorem modify_bind (g : σ → σ) (f : PUnit → Action σ α) (s : σ) :
    ((modify g : Action σ PUnit) >>= f) s = f ⟨⟩ (g s) := rfl

theorem of_ok_bind (a : α) (f : α → Action σ β) (s : σ) :
    ((of (.ok a) : Action σ α) >>= f) s = f a s := rfl

theorem of_error_bind (e : Error) (f : α → Action σ β) (s : σ) :
    ((of (.error e) : Action σ α) >>= f) s = .error e s := rfl

theorem of_eq_ok {x : Except Error α} {s s' : σ} {a : α} :
    (of x : Action σ α) s = .ok a s' ↔ x = .ok a ∧ s' = s := by
  cases x with
  | ok b => simp [of, eq_comm]
  | error e => simp [of]

theorem of_eq_error {x : Except Error α} {s s' : σ} {e : Error} :
    (of x : Action σ α) s = .error e s' ↔ x = .error e ∧ s' = s := by
  cases x with
  | ok b => simp [of]
  | error e => simp [of, eq_comm]

theorem recover_ok {x : Action σ α} {handler : Error → Action σ α} {s s' : σ} {a : α}
    (h : x s = .ok a s') : recover x handler s = .ok a s' := by
  unfold recover
  rw [h]

theorem recover_error {x : Action σ α} {handler : Error → Action σ α} {s s' : σ} {e : Error}
    (h : x s = .error e s') : recover x handler s = handler e s' := by
  unfold recover
  rw [h]

theorem within_eq_ok {get : σ → τ} {set : σ → τ → σ} {x : Action τ α} {s s' : σ} {a : α} :
    within get set x s = .ok a s' ↔ ∃ t, x (get s) = .ok a t ∧ s' = set s t := by
  unfold within
  cases x (get s) with
  | ok b t => simp [eq_comm]
  | error e t => simp

theorem within_eq_error {get : σ → τ} {set : σ → τ → σ} {x : Action τ α} {s s' : σ} {e : Error} :
    within get set x s = .error e s' ↔ ∃ t, x (get s) = .error e t ∧ s' = set s t := by
  unfold within
  cases x (get s) with
  | ok b t => simp
  | error e t => simp [eq_comm]

theorem endState_within {get : σ → τ} {set : σ → τ → σ} {x : Action τ α} {s : σ} :
    endState (within get set x s) = set s (endState (x (get s))) := by
  unfold within
  cases x (get s) <;> rfl

/-! ## What a run keeps, also one that raises. -/

/-- Whether it returns or raises, `x` leaves a state with `P` where it found one. -/
def Keeps (P : σ → Prop) (x : Action σ α) : Prop := ∀ s, P s → P (endState (x s))

theorem endState_recover {P : σ → Prop} {x : Action σ α} {handler : Error → Action σ α} {s : σ}
    (hx : P (endState (x s))) (hh : ∀ e, Keeps P (handler e)) :
    P (endState (recover x handler s)) := by
  cases hr : x s with
  | ok a s₁ =>
      rw [recover_ok hr]
      rw [hr] at hx
      exact hx
  | error e s₁ =>
      rw [recover_error hr]
      rw [hr] at hx
      exact hh e s₁ hx

section
variable {P : σ → Prop}

theorem Keeps.pure (a : α) : Keeps P (pure a : Action σ α) := fun _ h => h

theorem Keeps.of (x : Except Error α) : Keeps P (of x : Action σ α) := by
  intro s h
  cases x <;> exact h

theorem Keeps.modify {f : σ → σ} (hf : ∀ s, P s → P (f s)) :
    Keeps P (modify f : Action σ PUnit) := hf

theorem Keeps.bind {x : Action σ α} {f : α → Action σ β} (hx : Keeps P x)
    (hf : ∀ a, Keeps P (f a)) : Keeps P (x >>= f) := by
  intro s h
  have hs := hx s h
  rw [bind_eq]
  cases hr : x s with
  | ok a s₁ =>
      rw [hr] at hs
      exact hf a s₁ hs
  | error e s₁ =>
      rw [hr] at hs
      exact hs

/-- After a pure computation its result may be used. -/
theorem Keeps.of_bind {x : Except Error α} {f : α → Action σ β}
    (hf : ∀ a, x = .ok a → Keeps P (f a)) : Keeps P (Action.of x >>= f) := by
  intro s h
  cases x with
  | ok a => exact hf a rfl s h
  | error e => exact h

/-- An exception that is handled is no exception to the rule. -/
theorem Keeps.recover {x : Action σ α} {handler : Error → Action σ α} (hx : Keeps P x)
    (hh : ∀ e, Keeps P (handler e)) : Keeps P (recover x handler) :=
  fun s h => endState_recover (hx s h) hh

/-- A run that returns has kept it. -/
theorem Keeps.ok {x : Action σ α} (hx : Keeps P x) {a : α} {s s' : σ} (h : x s = .ok a s')
    (hs : P s) : P s' := by
  have hend := hx s hs
  rw [h] at hend
  exact hend

/-- What is read has the property. -/
theorem Keeps.get_bind {f : σ → Action σ β} (hf : ∀ s, P s → P (endState (f s s))) :
    Keeps P (get >>= f) := hf

end

/-! ## What a run returns. -/

/-- Whatever `x` returns has `R`. -/
def Returns (R : α → Prop) (x : Action σ α) : Prop := ∀ s a s', x s = .ok a s' → R a

section
variable {R : β → Prop}

theorem Returns.pure {b : β} (h : R b) : Returns R (pure b : Action σ β) := by
  intro s a s' hr
  rw [pure_apply, EStateM.Result.ok.injEq] at hr
  rw [← hr.1]
  exact h

theorem Returns.error (e : Error) : Returns R (of (.error e) : Action σ β) := by
  intro s a s' hr
  simp [of] at hr

theorem Returns.bind {x : Action σ α} {f : α → Action σ β} (hf : ∀ a, Returns R (f a)) :
    Returns R (x >>= f) := by
  intro s b s' hr
  rw [bind_eq_ok] at hr
  obtain ⟨a, s₁, -, hr⟩ := hr
  exact hf a s₁ b s' hr

end

/-- Of a run that raises early, only what the first part kept is left; of one that goes
on, what the rest makes of it. -/
theorem endState_bind {P Q : σ → Prop} {x : Action σ α} {f : α → Action σ β} {s : σ}
    (hx : P (endState (x s))) (hPQ : ∀ s, P s → Q s)
    (hf : ∀ a s', x s = .ok a s' → P s' → Q (endState (f a s'))) : Q (endState ((x >>= f) s)) := by
  rw [bind_eq]
  cases hr : x s with
  | ok a s' =>
      rw [hr] at hx
      exact hf a s' hr hx
  | error e s' =>
      rw [hr] at hx
      exact hPQ s' hx

end Action

end Gink
