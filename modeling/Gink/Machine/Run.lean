/-
  Gink.Machine.Run — runs of a machine that takes one event after another.

  A step function takes each event from the state it finds to the state it leaves.  A law
  about runs whose steps all meet a condition follows from what one such step preserves.
  Nothing here depends on what the states and the events are.
-/
import Mathlib

namespace Gink

namespace Machine

variable {σ ε : Type}

/-- The state after a list of events. -/
def run (step : σ → ε → σ) : σ → List ε → σ
  | s, [] => s
  | s, e :: rest => run step (step s e) rest

/-- Every step of the run is taken with `p`. -/
def AllSteps (step : σ → ε → σ) (p : σ → ε → Prop) : σ → List ε → Prop
  | _, [] => True
  | s, e :: rest => p s e ∧ AllSteps step p (step s e) rest

variable {step : σ → ε → σ} {p q : σ → ε → Prop}

theorem run_append (s : σ) (l m : List ε) : run step s (l ++ m) = run step (run step s l) m := by
  induction l generalizing s with
  | nil => rfl
  | cons e rest ih => exact ih (step s e)

theorem allSteps_append (s : σ) (l m : List ε) :
    AllSteps step p s (l ++ m) ↔ AllSteps step p s l ∧ AllSteps step p (run step s l) m := by
  induction l generalizing s with
  | nil => simp [AllSteps, run]
  | cons e rest ih =>
      show p s e ∧ AllSteps step p (step s e) (rest ++ m) ↔
        (p s e ∧ AllSteps step p (step s e) rest) ∧ AllSteps step p (run step (step s e) rest) m
      rw [ih (step s e), and_assoc]

theorem allSteps_and (s : σ) (l : List ε) : AllSteps step (fun s e => p s e ∧ q s e) s l ↔
    AllSteps step p s l ∧ AllSteps step q s l := by
  induction l generalizing s with
  | nil => exact ⟨fun _ => ⟨trivial, trivial⟩, fun _ => trivial⟩
  | cons e rest ih =>
      show (p s e ∧ q s e) ∧ AllSteps step (fun s e => p s e ∧ q s e) (step s e) rest ↔
        (p s e ∧ AllSteps step p (step s e) rest) ∧ q s e ∧ AllSteps step q (step s e) rest
      rw [ih (step s e)]
      tauto

/-- **What every allowed step preserves** holds after every allowed run. -/
theorem run_invariant {I : σ → Prop} (hstep : ∀ s e, I s → p s e → I (step s e)) (l : List ε) :
    ∀ s, I s → AllSteps step p s l → I (run step s l) := by
  induction l with
  | nil => exact fun s hs _ => hs
  | cons e rest ih => exact fun s hs hl => ih (step s e) (hstep s e hs hl.1) hl.2

/-- And whatever it makes true of a step is true of every step of such a run. -/
theorem allSteps_of_invariant {I : σ → Prop} (hstep : ∀ s e, I s → p s e → I (step s e))
    (hq : ∀ s e, I s → p s e → q s e) (l : List ε) :
    ∀ s, I s → AllSteps step p s l → AllSteps step q s l := by
  induction l with
  | nil => exact fun _ _ _ => trivial
  | cons e rest ih =>
      exact fun s hs hl => ⟨hq s e hs hl.1, ih (step s e) (hstep s e hs hl.1) hl.2⟩

/-- **A run whose steps all raise a measure** is no longer than the measure has become. -/
theorem length_le_of_rises {I : σ → Prop} {m : σ → ℕ}
    (hstep : ∀ s e, I s → p s e → I (step s e)) (hrises : ∀ s e, I s → p s e → m s < m (step s e))
    (l : List ε) : ∀ s, I s → AllSteps step p s l → l.length + m s ≤ m (run step s l) := by
  induction l with
  | nil => exact fun s _ _ => (Nat.zero_add _).le
  | cons e rest ih =>
      intro s hs hl
      have hrest := ih (step s e) (hstep s e hs hl.1) hl.2
      have hfirst := hrises s e hs hl.1
      rw [List.length_cons]
      show rest.length + 1 + m s ≤ m (run step (step s e) rest)
      omega

/-- **What is said of a run together with its past**: it is enough to extend the past by one
allowed step. -/
theorem run_history {I : List ε → σ → Prop} {s₀ : σ} (h0 : I [] s₀)
    (hstep : ∀ l e, I l (run step s₀ l) → p (run step s₀ l) e →
      I (l ++ [e]) (step (run step s₀ l) e)) (l : List ε) :
    AllSteps step p s₀ l → I l (run step s₀ l) := by
  induction l using List.reverseRecOn with
  | nil => exact fun _ => h0
  | append_singleton l e ih =>
      intro hl
      rw [allSteps_append] at hl
      rw [run_append]
      exact hstep l e (ih hl.1) hl.2.1

end Machine

end Gink
