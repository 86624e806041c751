/-
  Gink.Lmdb.Refresh — what `_refresh_helper` hands over (lmdb_store.py).

  The bundles table is keyed by receive times, and `_seen_through` is a receive time
  too.  `refreshHelper_quiet` says that a refresh hands over the bundles received
  after `_seen_through`, each once and in order, and leaves nothing unread.
-/
import Gink.Lmdb.Chains

namespace Gink

/-- A packed time reads as that time. -/
theorem decodeMuts_packSigned {n : Int} (h : 0 < n ∧ n < 2 ^ 63) :
    decodeMuts (packSigned n) = .ok (some n) := by
  have hraw : ((Bytes.beDecode (packSigned n) : Nat) : Int) = n := by
    unfold packSigned
    rw [Bytes.beDecode_beEncode (by omega)]
    omega
  unfold decodeMuts
  rw [if_pos (length_packSigned n)]
  simp only [hraw]
  rw [if_neg (by omega), if_neg (by omega), if_pos h.2]

/-- A time that fits is packed as it is. -/
theorem encodeMuts_of_fits {n : Int} (h : 0 ≤ n ∧ n < 2 ^ 63) :
    encodeMuts n = .ok (packSigned n) := by
  unfold encodeMuts intInf
  rw [if_neg (by omega), if_pos (by omega)]

namespace Lmdb

/-! ## §1. The rows after a time. -/

/-- Every bundle was received at a time up to `now`; one more microsecond still fits. -/
structure Received (now : Int) (bundles : Table Bytes Decomposition) : Prop where
  fits : 0 ≤ now ∧ now + 1 < 2 ^ 63
  times : ∀ r ∈ bundles.rows, ∃ time, 0 < time ∧ time ≤ now ∧ r.1 = packSigned time

/-- The rows received after a time. -/
def rowsAfter (time : Int) (rows : List (Bytes × Decomposition)) : List (Bytes × Decomposition) :=
  rows.filter fun r => decide (packSigned (time + 1) ≤ r.1)

/-- The bundles a store has yet to hand over. -/
def Db.unread (db : Db) (seenThrough : Int) : List Decomposition :=
  (rowsAfter seenThrough db.bundles.rows).map (·.2)

theorem Received.empty : Received 0 ∅ := ⟨by omega, by simp⟩

theorem Received.mono {now later : Int} {bundles : Table Bytes Decomposition}
    (h : Received now bundles) (hle : now ≤ later) (hfits : later + 1 < 2 ^ 63) :
    Received later bundles := by
  have h0 := h.fits
  refine ⟨by omega, ?_⟩
  intro r hr
  obtain ⟨time, hpos, hnow, hkey⟩ := h.times r hr
  exact ⟨time, hpos, by omega, hkey⟩

theorem Received.put {now later : Int} {bundles : Table Bytes Decomposition}
    (h : Received now bundles) (hlt : now < later) (hfits : later + 1 < 2 ^ 63)
    (bundle : Decomposition) : Received later (bundles.put (packSigned later) bundle) := by
  have h0 := h.fits
  refine ⟨by omega, ?_⟩
  intro r hr
  rcases Table.mem_rows_put.mp hr with rfl | ⟨-, hr⟩
  · exact ⟨later, by omega, le_refl _, rfl⟩
  · obtain ⟨time, hpos, hnow, hkey⟩ := h.times r hr
    exact ⟨time, hpos, by omega, hkey⟩

/-- A row is after a time if its own time is. -/
theorem le_packSigned_iff {time t : Int} (htime : 0 ≤ time ∧ time + 1 < 2 ^ 63)
    (ht : 0 < t ∧ t < 2 ^ 63) : packSigned (time + 1) ≤ packSigned t ↔ time < t := by
  rw [← not_lt, packSigned_lt_iff (by omega) (by omega)]
  omega

/-- Nothing is received after the last time. -/
theorem Received.rowsAfter_eq_nil {now time : Int} {bundles : Table Bytes Decomposition}
    (h : Received now bundles) (hle : now ≤ time) (hfits : time + 1 < 2 ^ 63) :
    rowsAfter time bundles.rows = [] := by
  have h0 := h.fits
  refine List.filter_eq_nil_iff.mpr ?_
  intro r hr
  obtain ⟨t, hpos, hnow, hkey⟩ := h.times r hr
  rw [hkey, decide_eq_true_eq, le_packSigned_iff (by omega) (by omega)]
  omega

/-- The rows after the first unread row are the other unread rows. -/
theorem rowsAfter_next {rows : List (Bytes × Decomposition)}
    (hsorted : rows.Pairwise (fun a b => a.1 < b.1))
    (htimes : ∀ r ∈ rows, ∃ t, 0 < t ∧ t + 1 < 2 ^ 63 ∧ r.1 = packSigned t) {time : Int}
    {row : Bytes × Decomposition} {rest : List (Bytes × Decomposition)}
    (h : rowsAfter time rows = row :: rest) {t : Int} (ht : 0 < t ∧ t + 1 < 2 ^ 63)
    (hrow : row.1 = packSigned t) : rowsAfter t rows = rest := by
  induction rows with
  | nil => simp [rowsAfter] at h
  | cons r rows ih =>
      obtain ⟨hr, hrows⟩ := List.pairwise_cons.mp hsorted
      have htimes' := fun x hx => htimes x (List.mem_cons_of_mem r hx)
      -- a later row of the table is after the time `t` of an earlier one
      have hafter : ∀ x ∈ rows, packSigned t < x.1 → packSigned (t + 1) ≤ x.1 := by
        intro x hx hlt
        obtain ⟨u, hpos, hfits, hkey⟩ := htimes' x hx
        rw [hkey] at hlt ⊢
        rw [packSigned_lt_iff (by omega) (by omega)] at hlt
        exact (le_packSigned_iff (by omega) (by omega)).mpr hlt
      have hself : ¬ packSigned (t + 1) ≤ packSigned t := by
        rw [le_packSigned_iff (by omega) (by omega)]
        omega
      unfold rowsAfter at h ih ⊢
      by_cases hfirst : packSigned (time + 1) ≤ r.1
      · rw [List.filter_cons, if_pos (by simpa using hfirst)] at h
        injection h with hhead htail
        subst hhead
        rw [List.filter_cons, if_neg (by rw [hrow]; simpa using hself), ← htail]
        refine List.filter_congr ?_
        intro x hx
        have hlt := hr x hx
        have h1 : packSigned (t + 1) ≤ x.1 := hafter x hx (hrow ▸ hlt)
        have h2 : packSigned (time + 1) ≤ x.1 := hfirst.trans (le_of_lt hlt)
        simp [h1, h2]
      · rw [List.filter_cons, if_neg (by simpa using hfirst)] at h
        have hmem : row ∈ rows := by
          have hrow' : row ∈ row :: rest := List.mem_cons_self
          rw [← h] at hrow'
          exact (List.mem_filter.mp hrow').1
        have hskip : ¬ packSigned (t + 1) ≤ r.1 := by
          have hlt := hr row hmem
          rw [hrow] at hlt
          exact not_le.mpr (hlt.trans (not_le.mp hself))
        rw [List.filter_cons, if_neg (by simpa using hskip)]
        exact ih hrows htimes' h

/-! ## §2. The loop. -/

/-- A callback that never raises, if there is one. -/
def Quiet (callback : Option Callback) : Prop := ∀ f, callback = some f → ∀ d, f d = .ok ()

/-- **The loop** hands over the unread bundles and ends at the last of them. -/
theorem refreshLoop_quiet {bundles : Table Bytes Decomposition} {now : Int}
    (hreceived : Received now bundles) {callback : Option Callback} (hquiet : Quiet callback) :
    ∀ (fuel : Nat) (seenThrough : Int) (count : Nat), 0 ≤ seenThrough →
      seenThrough + 1 < 2 ^ 63 → (rowsAfter seenThrough bundles.rows).length < fuel →
      ∃ last, refreshLoop bundles callback fuel seenThrough count
          = (last, handed callback ((rowsAfter seenThrough bundles.rows).map (·.2)),
            .ok (count + (handed callback
              ((rowsAfter seenThrough bundles.rows).map (·.2))).length)) ∧
        (rowsAfter seenThrough bundles.rows = [] → last = seenThrough) ∧
        (rowsAfter seenThrough bundles.rows ≠ [] → 0 < last ∧ last ≤ now) ∧
        rowsAfter last bundles.rows = [] := by
  have hnow := hreceived.fits
  have htimes : ∀ r ∈ bundles.rows, ∃ t, 0 < t ∧ t + 1 < 2 ^ 63 ∧ r.1 = packSigned t := by
    intro r hr
    obtain ⟨t, hpos, hle, hkey⟩ := hreceived.times r hr
    exact ⟨t, hpos, by omega, hkey⟩
  intro fuel
  induction fuel with
  | zero => exact fun _ _ _ _ h => absurd h (Nat.not_lt_zero _)
  | succ fuel ih =>
      intro seenThrough count h0 hfits hfuel
      unfold refreshLoop
      rw [encodeMuts_of_fits (by omega)]
      have hfind : bundles.rows.find? (fun r => decide (packSigned (seenThrough + 1) ≤ r.1))
          = (rowsAfter seenThrough bundles.rows).head? := (List.head?_filter ..).symm
      simp only [hfind]
      cases hrows : rowsAfter seenThrough bundles.rows with
      | nil =>
          refine ⟨seenThrough, ?_, fun _ => rfl, fun h => absurd rfl h, hrows⟩
          cases callback <;> rfl
      | cons row rest =>
          have hmem : row ∈ bundles.rows := by
            have hrow : row ∈ row :: rest := List.mem_cons_self
            rw [← hrows] at hrow
            exact (List.mem_filter.mp hrow).1
          obtain ⟨t, hpos, hle, hkey⟩ := hreceived.times row hmem
          have hnext := rowsAfter_next bundles.sorted htimes hrows ⟨hpos, by omega⟩ hkey
          have hdecode : decodeMuts row.1 = .ok (some t) := by
            rw [hkey]
            exact decodeMuts_packSigned ⟨hpos, by omega⟩
          have hshort : (rowsAfter t bundles.rows).length < fuel := by
            rw [hnext]
            rw [hrows, List.length_cons] at hfuel
            omega
          -- where the rest of the loop ends
          have hlast : ∀ last, (rowsAfter t bundles.rows = [] → last = t) →
              (rowsAfter t bundles.rows ≠ [] → 0 < last ∧ last ≤ now) → 0 < last ∧ last ≤ now := by
            intro last hnil hcons
            by_cases h : rowsAfter t bundles.rows = []
            · rw [hnil h]
              exact ⟨hpos, hle⟩
            · exact hcons h
          cases callback with
          | none =>
              obtain ⟨last, hloop, hnil, hcons, hend⟩ := ih t count (by omega) (by omega) hshort
              refine ⟨last, ?_, by simp, fun _ => hlast last hnil hcons, hend⟩
              simp only [List.head?_cons, hdecode, Option.getD_some]
              exact hloop
          | some f =>
              obtain ⟨last, hloop, hnil, hcons, hend⟩ :=
                ih t (count + 1) (by omega) (by omega) hshort
              refine ⟨last, ?_, by simp, fun _ => hlast last hnil hcons, hend⟩
              simp only [List.head?_cons, hdecode, Option.getD_some, hquiet f rfl row.2]
              rw [hloop, hnext]
              simp only [handed, List.map_cons, List.length_cons, Prod.mk.injEq, true_and,
                Except.ok.injEq]
              omega

/-- What a refresh that nothing disturbs leaves behind. -/
structure Refreshed (now : Int) (s : Store) (callback : Option Callback) (o : Outcome Nat) :
    Prop where
  store : o.store = { s with seenThrough := o.store.seenThrough }
  delivered : o.delivered = handed callback (s.db.unread s.seenThrough)
  result : o.result = .ok o.delivered.length
  same : s.db.unread s.seenThrough = [] → o.store.seenThrough = s.seenThrough
  moved : s.db.unread s.seenThrough ≠ [] → 0 < o.store.seenThrough ∧ o.store.seenThrough ≤ now
  finished : s.db.unread o.store.seenThrough = []

/-- **A refresh** hands over what is unread, and then nothing is. -/
theorem refreshHelper_quiet {s : Store} {now : Int} (hreceived : Received now s.db.bundles)
    {callback : Option Callback} (hquiet : Quiet callback) (h0 : 0 ≤ s.seenThrough)
    (hfits : s.seenThrough + 1 < 2 ^ 63) :
    Refreshed now s callback (refreshHelper s callback) := by
  have hfuel : (rowsAfter s.seenThrough s.db.bundles.rows).length
      < s.db.bundles.rows.length + 1 :=
    Nat.lt_succ_of_le (List.length_filter_le _ _)
  obtain ⟨last, hloop, hnil, hcons, hend⟩ :=
    refreshLoop_quiet hreceived hquiet _ s.seenThrough 0 h0 hfits hfuel
  unfold refreshHelper
  rw [hloop]
  refine ⟨rfl, rfl, ?_, ?_, ?_, ?_⟩
  · simp only [Nat.zero_add]
  · intro h
    exact hnil (List.map_eq_nil_iff.mp h)
  · intro h
    exact hcons (fun hrows => h (List.map_eq_nil_iff.mpr hrows))
  · exact List.map_eq_nil_iff.mpr hend

end Lmdb

end Gink
