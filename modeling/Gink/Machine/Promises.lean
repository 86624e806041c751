/-
  Gink.Machine.Promises — promises that are only ever fulfilled, and the queue of jobs.

  A reaction to a promise becomes a job when the promise is fulfilled, or at once when it is
  already.  A promise that is resolved with another one takes two jobs: one that asks for the
  other's fulfilment, and one that passes it on.  Jobs run one at a time in the order they
  were queued; a promise is fulfilled once, and what tries it again has no effect.
-/
import Mathlib

namespace Gink

namespace Machine

/-- What is queued to run: the code's own callback, or a step of one promise's following
another. -/
inductive Job (P C : Type) where
  | call (callback : C)
  /-- `then` of the second promise is called, so that the first one follows it -/
  | follow (promise other : P)
  /-- the promise is fulfilled, as the one it follows was -/
  | settle (promise : P)
  deriving DecidableEq

structure Promises (P C : Type) where
  fulfilled : P → Bool
  reactions : P → List (Job P C)
  jobs : List (Job P C)

namespace Promises

variable {P C : Type} [DecidableEq P]

/-- `promise.then(...)`, with the job it makes. -/
def react (s : Promises P C) (promise : P) (job : Job P C) : Promises P C :=
  if s.fulfilled promise then { s with jobs := s.jobs ++ [job] }
  else { s with
    reactions := Function.update s.reactions promise (s.reactions promise ++ [job]) }

/-- The resolving function is called, with a value that is no promise. -/
def fulfil (s : Promises P C) (promise : P) : Promises P C :=
  if s.fulfilled promise then s
  else {
    fulfilled := Function.update s.fulfilled promise true
    reactions := Function.update s.reactions promise []
    jobs := s.jobs ++ s.reactions promise }

/-- The resolving function is called with another promise. -/
def resolveWith (s : Promises P C) (promise other : P) : Promises P C :=
  { s with jobs := s.jobs ++ [.follow promise other] }

/-- The first job is run, with what the callbacks do. -/
def runJob (call : C → Promises P C → Promises P C) (s : Promises P C) : Promises P C :=
  match s.jobs with
  | [] => s
  | job :: rest =>
      let s : Promises P C := { s with jobs := rest }
      match job with
      | .call callback => call callback s
      | .follow promise other => s.react other (.settle promise)
      | .settle promise => s.fulfil promise

variable {s : Promises P C} {p q : P} {job : Job P C}

/-! ## What stands where afterwards. -/

@[simp] theorem fulfilled_react : (s.react p job).fulfilled = s.fulfilled := by
  unfold react
  split_ifs <;> rfl

theorem jobs_react : (s.react p job).jobs = if s.fulfilled p then s.jobs ++ [job] else s.jobs := by
  unfold react
  split_ifs <;> rfl

theorem reactions_react : (s.react p job).reactions q =
    if s.fulfilled p = false ∧ q = p then s.reactions q ++ [job] else s.reactions q := by
  unfold react
  by_cases hp : s.fulfilled p = true
  · rw [if_pos hp, if_neg (by simp [hp])]
  · have hp' : s.fulfilled p = false := by simpa using hp
    rw [if_neg hp]
    show Function.update s.reactions p (s.reactions p ++ [job]) q = _
    rw [Function.update_apply]
    by_cases hq : q = p
    · rw [if_pos hq, if_pos ⟨hp', hq⟩, hq]
    · rw [if_neg hq, if_neg fun h => hq h.2]

/-- **A fulfilled promise** is left as it is. -/
theorem fulfil_of_fulfilled (h : s.fulfilled p = true) : s.fulfil p = s := if_pos h

theorem fulfilled_fulfil : (s.fulfil p).fulfilled q = (decide (q = p) || s.fulfilled q) := by
  unfold fulfil
  by_cases hp : s.fulfilled p = true
  · rw [if_pos hp]
    by_cases hq : q = p
    · simp [hq, hp]
    · simp [hq]
  · rw [if_neg hp]
    show Function.update s.fulfilled p true q = _
    rw [Function.update_apply]
    by_cases hq : q = p
    · simp [hq]
    · simp [hq]

theorem jobs_fulfil (h : s.fulfilled p = false) : (s.fulfil p).jobs = s.jobs ++ s.reactions p := by
  unfold fulfil
  rw [h]
  rfl

theorem reactions_fulfil (h : s.fulfilled p = false) :
    (s.fulfil p).reactions q = if q = p then [] else s.reactions q := by
  unfold fulfil
  rw [h]
  show Function.update s.reactions p [] q = _
  rw [Function.update_apply]

end Promises

end Machine

end Gink
