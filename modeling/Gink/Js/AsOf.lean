/-
  Gink.Js.AsOf — histories in the order of their timestamps, and what came before a time.

  While nothing is purged a change only adds records, and these bear its own address.  In a
  history in the order of the timestamps, what came before a time is the beginning, and
  everything after that leaves the records of before as they are.
-/
import Gink.Js.IndexedDb
import Gink.Js.MemoryStore
import Gink.Table.Agreement

namespace Gink

namespace Js

/-! ## §1. Histories. -/

/-- The bundles come in the order of their timestamps. -/
def Increasing (history : List OpenBundle) : Prop :=
  history.Pairwise fun a b => a.info.timestamp < b.info.timestamp

instance : DecidablePred Increasing := fun history =>
  inferInstanceAs (Decidable (history.Pairwise fun a b => a.info.timestamp < b.info.timestamp))

/-- The bundles stamped before a time. -/
def before (t : Int) (history : List OpenBundle) : List OpenBundle :=
  history.filter fun b => decide ((b.info.timestamp.val : Int) < t)

/-- The change purges nothing. -/
def Retains : ChangeBuilder → Prop
  | .entry b => b.purge = false
  | .movement b => b.purge = false
  | .clearance b => b.purge = false
  | .container _ | .unset => True

instance : DecidablePred Retains := fun change =>
  match change with
  | .entry b => inferInstanceAs (Decidable (b.purge = false))
  | .movement b => inferInstanceAs (Decidable (b.purge = false))
  | .clearance b => inferInstanceAs (Decidable (b.purge = false))
  | .container _ | .unset => isTrue trivial

/-- So does none of the history. -/
def Unpurged (history : List OpenBundle) : Prop := ∀ b ∈ history, ∀ change ∈ b.changes, Retains change

instance : DecidablePred Unpurged := fun history =>
  inferInstanceAs (Decidable (∀ b ∈ history, ∀ change ∈ b.changes, Retains change))

theorem mem_before {t : Int} {history : List OpenBundle} {b : OpenBundle} :
    b ∈ before t history ↔ b ∈ history ∧ (b.info.timestamp.val : Int) < t := by
  unfold before
  rw [List.mem_filter, decide_eq_true_eq]

/-- **What came before a time** is the beginning of the history. -/
theorem Increasing.split {history : List OpenBundle} (h : Increasing history) (t : Int) :
    ∃ after, history = before t history ++ after ∧
      ∀ b ∈ after, t ≤ (b.info.timestamp.val : Int) := by
  induction history with
  | nil => exact ⟨[], rfl, fun b hb => absurd hb List.not_mem_nil⟩
  | cons b rest ih =>
      obtain ⟨hb, hrest⟩ := List.pairwise_cons.mp h
      by_cases hearly : (b.info.timestamp.val : Int) < t
      · obtain ⟨after, heq, hlate⟩ := ih hrest
        refine ⟨after, ?_, hlate⟩
        have hfilter : before t (b :: rest) = b :: before t rest := by
          unfold before
          rw [List.filter_cons_of_pos (by simpa using hearly)]
        rw [hfilter, List.cons_append, ← heq]
      · -- nothing that follows is earlier
        have hlate : ∀ x ∈ b :: rest, t ≤ (x.info.timestamp.val : Int) := by
          intro x hx
          rcases List.mem_cons.mp hx with rfl | hx
          · omega
          · have hlt : b.info.timestamp.val < x.info.timestamp.val := hb x hx
            omega
        have hnone : before t (b :: rest) = [] := by
          rw [List.eq_nil_iff_forall_not_mem]
          intro x hx
          obtain ⟨hmem, hlt⟩ := mem_before.mp hx
          have := hlate x hmem
          omega
        exact ⟨b :: rest, by rw [hnone, List.nil_append], hlate⟩

/-! ## §2. Runs of a store. -/

section
variable {σ : Type} {apply : OpenBundle → σ → Except JsError σ}

/-- Bundles applied one after the other. -/
def applyEach (apply : OpenBundle → σ → Except JsError σ) : List OpenBundle → σ → Except JsError σ
  | [], c => .ok c
  | b :: rest, c => do
      let c ← apply b c
      applyEach apply rest c

theorem applyEach_append {l m : List OpenBundle} :
    ∀ {c : σ}, applyEach apply (l ++ m) c = applyEach apply l c >>= applyEach apply m := by
  induction l with
  | nil => exact rfl
  | cons b rest ih =>
      intro c
      show (apply b c >>= fun c => applyEach apply (rest ++ m) c) = _
      show _ = (apply b c >>= fun c => applyEach apply rest c) >>= applyEach apply m
      cases apply b c with
      | error e => rfl
      | ok c1 => exact ih

/-- What every bundle keeps holds after all of them. -/
theorem applyEach_keeps {I : σ → Prop} {bundles : List OpenBundle} :
    ∀ {c c' : σ}, (∀ b ∈ bundles, ∀ c c', I c → apply b c = .ok c' → I c') → I c →
      applyEach apply bundles c = .ok c' → I c' := by
  induction bundles with
  | nil =>
      intro c c' _ hc h
      injection h with h
      exact h ▸ hc
  | cons b rest ih =>
      intro c c' hkeeps hc h
      obtain ⟨c1, hone, hrest⟩ := bind_eq_ok.mp h
      exact ih (fun b hb => hkeeps b (List.mem_cons_of_mem _ hb))
        (hkeeps b List.mem_cons_self c c1 hc hone) hrest

end

end Js

end Gink
