/-
  Gink.Lmdb.Delivery — each bundle reaches the callback of each other process once.

  The bundles table is a journal in the order of receive times, and the processes are its
  readers: `_seen_through` is their cursor.  A call of `maybe_reuse_chain` without a callback
  moves the cursor past bundles that are then never handed over.

  Main results:
    * `applyBundle_told` — what a call of `apply_bundle` hands over and where it leaves the cursor;
    * `step_attended` — what each attentive event preserves;
    * `heard_once` — what the callbacks were handed, after every attentive run.
-/
import Gink.Lmdb.Rollback
import Gink.Lmdb.System

namespace Gink

namespace Lmdb

open Machine (Follows others)

variable {lib : Externals} {s : System} {pid : U64}

/-! ## §1. One call. -/

/-- What a call of `apply_bundle` tells its callback of the bundles of others, and what it
does to the bundles table and to the cursor. -/
inductive Told (now : Int) (s : Store) (bundle : Decomposition) (callback : Option Callback)
    (time : Int) (o : Outcome Bool) : Prop
  /-- the bundle cannot be opened -/
  | nothing (store : o.store = s) (handed : refreshedIn callback o = [])
  /-- nothing is written -/
  | kept (bundles : o.store.db.bundles = s.db.bundles)
      (retain : o.store.db.retainBundles = s.db.retainBundles)
      (handed : refreshedIn callback o = handed callback (s.db.unread s.seenThrough))
      (cursor : 0 ≤ o.store.seenThrough ∧ o.store.seenThrough ≤ time)
      (finished : s.db.unread o.store.seenThrough = [])
  /-- the bundle is written -/
  | wrote (bundles : o.store.db.bundles = s.db.bundles.put (packSigned time) bundle)
      (retain : o.store.db.retainBundles = s.db.retainBundles)
      (handed : refreshedIn callback o = handed callback (s.db.unread s.seenThrough))
      (cursor : o.store.seenThrough = time)

/-- **A call of `apply_bundle`** hands over what is unread, and writes when nothing is. -/
theorem applyBundle_told {now : Int} {s : Store} (hreceived : Received now s.db.bundles)
    (hretain : s.db.retainBundles = true) {callback : Option Callback} (hquiet : Quiet callback)
    (hcursor : 0 ≤ s.seenThrough ∧ s.seenThrough ≤ now) (bundle : Decomposition)
    (claimChain : Bool) {clock : Clock} (hlater : now < clock.receiveTime)
    (hfits : clock.receiveTime + 1 < 2 ^ 63) :
    Told now s bundle callback clock.receiveTime
      (applyBundle lib s bundle callback claimChain clock) := by
  have hnow := hreceived.fits
  have hrefreshed := refreshHelper_quiet hreceived hquiet hcursor.1 (by omega)
  -- where the refresh leaves the cursor
  have hmoved : 0 ≤ (refreshHelper s callback).store.seenThrough ∧
      (refreshHelper s callback).store.seenThrough ≤ now := by
    by_cases hnil : s.db.unread s.seenThrough = []
    · rw [hrefreshed.same hnil]
      exact hcursor
    · have := hrefreshed.moved hnil
      omega
  unfold applyBundle
  cases bundle.getBuilder lib with
  | error e =>
      refine .nothing rfl ?_
      cases callback <;> rfl
  | ok builder =>
      simp only
      generalize BundleInfo.ofBuilder builder (lib.digest bundle.bundleBytes) = info
      rw [hrefreshed.result]
      simp only
      have hdb : (refreshHelper s callback).store.db = s.db := by rw [hrefreshed.store]
      have hdelivered := hrefreshed.delivered
      -- a call that does not add anything has handed over what the refresh did
      have hkept : ∀ (o : Outcome Bool), o.store.db = s.db →
          o.delivered = (refreshHelper s callback).delivered → (o.result ≠ .ok true) →
          (0 ≤ o.store.seenThrough ∧ o.store.seenThrough ≤ clock.receiveTime) →
          s.db.unread o.store.seenThrough = [] →
          Told now s bundle callback clock.receiveTime o := by
        intro o hodb hodelivered hresult hc hfinished
        refine .kept (by rw [hodb]) (by rw [hodb]) ?_ hc hfinished
        unfold refreshedIn
        split
        · exact absurd (by assumption) hresult
        · rw [hodelivered, hdelivered]
      cases isNeeded info ((refreshHelper s callback).store.db.chains.get? info.chain.toBytes) with
      | error e =>
          exact hkept _ hdb rfl (by simp) (by simp only; omega) hrefreshed.finished
      | ok needed =>
          cases needed with
          | false =>
              exact hkept _ hdb rfl (by simp) (by simp only; omega) hrefreshed.finished
          | true =>
              simp only
              generalize hold : (refreshHelper s callback).store.db.chains.get? info.chain.toBytes
                = old
              obtain ⟨hc, hfinished, hcommitted⟩ := @writeBundle_unread lib now
                (refreshHelper s callback).store (by rw [hdb]; exact hreceived) hmoved
                (by rw [hdb]; exact hrefreshed.finished) bundle builder info old claimChain clock
                hlater hfits _ rfl
              rw [hdb] at hfinished
              cases hw : (writeBundle lib (refreshHelper s callback).store bundle builder info old
                  claimChain clock).db with
              | error e => exact hkept _ hdb rfl (by simp) hc hfinished
              | ok db =>
                  obtain ⟨hwritten, hseen⟩ := writeBundle_ok hw
                  have hretain' : (refreshHelper s callback).store.db.retainBundles = true := by
                    rw [hdb]
                    exact hretain
                  rw [if_pos hretain'] at hseen
                  obtain ⟨location, hlocation, hbundles, -⟩ := hwritten.stored hretain'
                  have hkey : location = packSigned clock.receiveTime := by
                    rw [encodeMuts_of_fits (by omega)] at hlocation
                    exact (Except.ok.inj hlocation).symm
                  rw [hkey, hdb] at hbundles
                  have hflag : db.retainBundles = s.db.retainBundles := by
                    rw [hwritten.retainBundles, hdb]
                  cases callback with
                  | none => exact .wrote hbundles hflag hdelivered hseen
                  | some f =>
                      simp only [hquiet f rfl bundle]
                      refine .wrote hbundles hflag ?_ hseen
                      unfold refreshedIn
                      rw [← hdelivered]
                      exact List.dropLast_concat

/-! ## §2. The invariant. -/

/-- The table holds what the processes wrote, and every process has handed over what others
wrote up to its cursor. -/
structure Attended (s : System) : Prop where
  retain : s.db.retainBundles = true
  rows : s.db.bundles.rows = s.written.map (·.2)
  received : Received s.now s.db.bundles
  writer : ∀ w ∈ s.written, s.status w.1 ≠ .unused
  cursor : ∀ pid p, s.status pid = .running p → 0 ≤ p.seenThrough ∧ p.seenThrough ≤ s.now
  follows : ∀ pid p, s.status pid = .running p → ∃ n,
    rowsAfter p.seenThrough s.db.bundles.rows = s.db.bundles.rows.drop n ∧
    Follows pid (items s.written) 0 n p.heard

theorem attended_onNewFile (retainEntries : Bool) : Attended (System.onNewFile retainEntries) where
  retain := rfl
  rows := rfl
  received := Received.empty
  writer w h := absurd h (by simp [System.onNewFile])
  cursor pid p h := absurd h (by simp [System.onNewFile])
  follows pid p h := absurd h (by simp [System.onNewFile])

/-- The unread bundles of a process are those behind its cursor. -/
theorem unread_eq {p : Process} {n : Nat} (hrows : s.db.bundles.rows = s.written.map (·.2))
    (hn : rowsAfter p.seenThrough s.db.bundles.rows = s.db.bundles.rows.drop n) :
    s.db.unread p.seenThrough = ((items s.written).drop n).map (·.2) := by
  unfold Db.unread items
  rw [hn, hrows, ← List.map_drop, ← List.map_drop, List.map_map, List.map_map]
  rfl

/-- With nothing unread the cursor is at the end. -/
theorem finished_rows {time : Int} (h : s.db.unread time = []) :
    rowsAfter time s.db.bundles.rows = s.db.bundles.rows.drop s.db.bundles.rows.length := by
  rw [List.drop_length]
  exact List.map_eq_nil_iff.mp h

theorem newRows_self (bundles : Table Bytes Decomposition) : newRows bundles bundles = [] := by
  refine List.filter_eq_nil_iff.mpr ?_
  intro r hr
  rw [Table.get?_eq_some_iff.mpr hr]
  simp

theorem length_items (hrows : s.db.bundles.rows = s.written.map (·.2)) :
    (items s.written).length = s.db.bundles.rows.length := by
  rw [hrows]
  simp [items]

/-- Who runs after a step of a process, and with what. -/
theorem put_running {p' q : Process} {t : Store} {now : Int} {other : U64}
    (hq : (s.put pid t p' now).status other = .running q) :
    (other = pid ∧ q = { p' with
      seenContainers := t.seenContainers, seenThrough := t.seenThrough }) ∨
      (other ≠ pid ∧ s.status other = .running q) := by
  change Function.update s.status pid _ other = .running q at hq
  by_cases hpid : other = pid
  · subst hpid
    rw [Function.update_self] at hq
    injection hq with hq
    exact Or.inl ⟨rfl, hq.symm⟩
  · rw [Function.update_of_ne hpid] at hq
    exact Or.inr ⟨hpid, hq⟩

theorem put_used {p' : Process} {t : Store} {now : Int} {other : U64}
    (h : s.status other ≠ .unused) : (s.put pid t p' now).status other ≠ .unused := by
  show Function.update s.status pid _ other ≠ .unused
  by_cases hpid : other = pid
  · rw [hpid, Function.update_self]
    simp
  · rw [Function.update_of_ne hpid]
    exact h

/-- **A step of one process that writes no bundle.** -/
theorem kept_attended (h : Attended s) {p' : Process} {t : Store} {now : Int}
    (hbundles : t.db.bundles = s.db.bundles) (hretain : t.db.retainBundles = s.db.retainBundles)
    (hnow : s.now ≤ now) (hfits : now + 1 < 2 ^ 63)
    (hcursor : 0 ≤ t.seenThrough ∧ t.seenThrough ≤ now)
    (hfollows : ∃ n, rowsAfter t.seenThrough s.db.bundles.rows = s.db.bundles.rows.drop n ∧
      Follows pid (items s.written) 0 n p'.heard) : Attended (s.put pid t p' now) := by
  have hwritten : (s.put pid t p' now).written = s.written := by
    show s.written ++ (newRows s.db.bundles t.db.bundles).map _ = s.written
    rw [hbundles, newRows_self]
    exact List.append_nil _
  have hsame : (s.put pid t p' now).db.bundles = s.db.bundles := hbundles
  refine ⟨hretain.trans h.retain, ?_, ?_, ?_, ?_, ?_⟩
  · rw [hsame, hwritten]
    exact h.rows
  · rw [hsame]
    exact h.received.mono hnow hfits
  · rw [hwritten]
    exact fun w hw => put_used (h.writer w hw)
  · intro other q hq
    rcases put_running hq with ⟨rfl, rfl⟩ | ⟨hpid, hq⟩
    · exact hcursor
    · have := h.cursor other q hq
      exact ⟨this.1, this.2.trans hnow⟩
  · rw [hsame, hwritten]
    intro other q hq
    rcases put_running hq with ⟨rfl, rfl⟩ | ⟨hpid, hq⟩
    · exact hfollows
    · exact h.follows other q hq

/-- **A step of one process that writes a bundle**, with nothing unread before. -/
theorem wrote_attended (h : Attended s) {p : Process} (hp : s.status pid = .running p)
    {p' : Process} {t : Store} {now : Int} {bundle : Decomposition}
    (hbundles : t.db.bundles = s.db.bundles.put (packSigned now) bundle)
    (hretain : t.db.retainBundles = s.db.retainBundles) (hnow : s.now < now)
    (hfits : now + 1 < 2 ^ 63) (hcursor : t.seenThrough = now)
    (hfollows : Follows pid (items s.written) 0 (items s.written).length p'.heard) :
    Attended (s.put pid t p' now) := by
  have h0 := h.received.fits
  have hnew : s.db.bundles.get? (packSigned now) = none := by
    rw [Table.get?_eq_none_iff]
    intro r hr hkey
    obtain ⟨time, hpos, hle, hrow⟩ := h.received.times r hr
    rw [hkey] at hrow
    have hlt := (packSigned_lt_iff (n := time) (m := now) (by omega) (by omega)).mpr (by omega)
    rw [hrow] at hlt
    exact absurd hlt (lt_irrefl _)
  have hlast : ∀ r ∈ s.db.bundles.rows, r.1 < packSigned now := by
    intro r hr
    obtain ⟨time, hpos, hle, hrow⟩ := h.received.times r hr
    rw [hrow, packSigned_lt_iff (by omega) (by omega)]
    omega
  have hrows : t.db.bundles.rows = s.db.bundles.rows ++ [(packSigned now, bundle)] := by
    rw [hbundles]
    exact Table.rows_put_of_last _ bundle hlast
  have hwritten : (s.put pid t p' now).written
      = s.written ++ [(pid, packSigned now, bundle)] := by
    show s.written ++ (newRows s.db.bundles t.db.bundles).map _ = _
    unfold newRows
    have hold : s.db.bundles.rows.filter (fun r => (s.db.bundles.get? r.1).isNone) = [] :=
      newRows_self s.db.bundles
    rw [hrows, List.filter_append, hold]
    simp [hnew]
  have hitems : items (s.put pid t p' now).written = items s.written ++ [(pid, bundle)] := by
    rw [hwritten]
    simp [items]
  have hreceived : Received now t.db.bundles := by
    rw [hbundles]
    exact h.received.put hnow hfits bundle
  have hlength := length_items h.rows
  refine ⟨hretain.trans h.retain, ?_, hreceived, ?_, ?_, ?_⟩
  · rw [hwritten, List.map_append, ← h.rows]
    exact hrows
  · rw [hwritten]
    intro w hw
    rcases List.mem_append.mp hw with hw | hw
    · exact put_used (h.writer w hw)
    · rw [List.mem_singleton.mp hw]
      apply put_used
      rw [hp]
      simp
  · intro other q hq
    rcases put_running hq with ⟨rfl, rfl⟩ | ⟨hpid, hq⟩
    · show 0 ≤ t.seenThrough ∧ t.seenThrough ≤ now
      omega
    · have := h.cursor other q hq
      show 0 ≤ q.seenThrough ∧ q.seenThrough ≤ now
      omega
  · intro other q hq
    rw [hitems]
    show ∃ n, rowsAfter q.seenThrough t.db.bundles.rows = t.db.bundles.rows.drop n ∧ _
    rcases put_running hq with ⟨rfl, rfl⟩ | ⟨hpid, hq⟩
    · refine ⟨(items s.written ++ [(other, bundle)]).length, ?_, ?_⟩
      · show rowsAfter t.seenThrough t.db.bundles.rows = _
        rw [hcursor, hreceived.rowsAfter_eq_nil (le_refl _) hfits, hrows, List.drop_eq_nil_of_le]
        rw [List.length_append, List.length_append, hlength]
        exact le_refl _
      · refine hfollows.append_own rfl ?_
        simp
    · -- the new row is after everybody else's cursor
      obtain ⟨n, hn, hf⟩ := h.follows other q hq
      have hq' := h.cursor other q hq
      refine ⟨n, ?_, hf.append_others ?_⟩
      · have hafter : packSigned (q.seenThrough + 1) ≤ packSigned now :=
          (le_packSigned_iff (by omega) (by omega)).mpr (by omega)
        have hle : n ≤ s.db.bundles.rows.length := hlength ▸ hf.cursor_le
        rw [hrows, List.drop_append_of_le_length hle, ← hn]
        unfold rowsAfter
        rw [List.filter_append]
        simp [hafter]
      · intro i hi
        rw [List.mem_singleton.mp hi]
        exact fun hw => hpid hw.symm

/-! ## §3. The steps. -/

/-- What is unread is passed over only when there is nothing unread, or with a callback. -/
def Unmissed (s : System) (pid : U64) (callback : Option Callback) : Prop :=
  callback = none → ∀ p, s.status pid = .running p → s.db.unread p.seenThrough = []

/-- **When no bundle is missed**: the callbacks do not raise, bundles are not passed over
without a callback, and receive times increase. -/
def Attentive (s : System) : Event → Prop
  | .apply pid _ callback _ receiveTime _ => Quiet callback ∧ Unmissed s pid callback ∧
      s.now < receiveTime ∧ receiveTime + 1 < 2 ^ 63
  | .refresh pid callback | .reuse pid _ callback _ => Quiet callback ∧ Unmissed s pid callback
  | _ => True

theorem Attended.handed (h : Attended s) {p : Process} (hp : s.status pid = .running p)
    {callback : Option Callback} (hunmissed : Unmissed s pid callback) :
    Follows pid (items s.written) 0 (items s.written).length
      (p.heard ++ handed callback (s.db.unread p.seenThrough)) := by
  obtain ⟨n, hn, hfollows⟩ := h.follows pid p hp
  have hhanded : Gink.handed callback (s.db.unread p.seenThrough)
      = ((items s.written).drop n).map (·.2) := by
    rw [← unread_eq h.rows hn]
    cases callback with
    | none => exact (hunmissed rfl p hp).symm
    | some f => rfl
  rw [hhanded]
  exact hfollows.deliver

/-- A refresh inside a call: all is handed over, and the cursor is at the end. -/
theorem refreshed_attended (h : Attended s) {p p' : Process} (hp : s.status pid = .running p)
    {callback : Option Callback} (hquiet : Quiet callback) (hunmissed : Unmissed s pid callback)
    {t : Store} (hbundles : t.db.bundles = s.db.bundles)
    (hretain : t.db.retainBundles = s.db.retainBundles)
    (hseen : t.seenThrough = (refreshHelper (s.store p) callback).store.seenThrough)
    (hheard : p'.heard = p.heard ++ (refreshHelper (s.store p) callback).delivered) :
    Attended (s.put pid t p' s.now) := by
  have hcursor := h.cursor pid p hp
  have hfits := h.received.fits
  have hrefreshed : Refreshed s.now (s.store p) callback (refreshHelper (s.store p) callback) :=
    refreshHelper_quiet h.received hquiet hcursor.1 (by show p.seenThrough + 1 < _; omega)
  refine kept_attended h hbundles hretain (le_refl _) hfits.2 ?_ ?_
  · rw [hseen]
    by_cases hnil : s.db.unread p.seenThrough = []
    · rw [hrefreshed.same hnil]
      exact hcursor
    · have := hrefreshed.moved hnil
      omega
  · refine ⟨(items s.written).length, ?_, ?_⟩
    · rw [hseen, length_items h.rows]
      exact finished_rows hrefreshed.finished
    · rw [hheard, hrefreshed.delivered]
      exact h.handed hp hunmissed

/-- Where nothing concerns the bundles. -/
theorem same_attended (h : Attended s) {p p' : Process} (hp : s.status pid = .running p)
    {t : Store} (hbundles : t.db.bundles = s.db.bundles)
    (hretain : t.db.retainBundles = s.db.retainBundles) (hseen : t.seenThrough = p.seenThrough)
    (hheard : p'.heard = p.heard) {now : Int} (hnow : s.now ≤ now) (hfits : now + 1 < 2 ^ 63) :
    Attended (s.put pid t p' now) := by
  have hcursor := h.cursor pid p hp
  refine kept_attended h hbundles hretain hnow hfits (by rw [hseen]; omega) ?_
  rw [hseen, hheard]
  exact h.follows pid p hp

theorem reuseFrom_bundles (db : Db) (pid : U64) (gone : U64 → Bool) (identity : String)
    (claimTime : U64) (claims : List ClaimBuilder) :
    (db.reuseFrom pid gone identity claimTime claims).1.bundles = db.bundles ∧
      (db.reuseFrom pid gone identity claimTime claims).1.retainBundles = db.retainBundles := by
  induction claims with
  | nil => exact ⟨rfl, rfl⟩
  | cons old rest ih =>
      unfold Db.reuseFrom
      simp only
      cases db.getIdentity ⟨old.medallion, old.chainStart⟩ with
      | error e => exact ⟨rfl, rfl⟩
      | ok chainIdentity =>
          simp only
          split_ifs
          · cases hadd : db.addClaim pid claimTime ⟨old.medallion, old.chainStart⟩ with
            | error e => exact ⟨rfl, rfl⟩
            | ok db' =>
                unfold Db.addClaim at hadd
                obtain ⟨key, -, hadd⟩ := bind_eq_ok.mp hadd
                rw [← pure_eq_ok.mp hadd]
                exact ⟨rfl, rfl⟩
          · exact ih

/-- What `maybe_reuse_chain` does about bundles is its refresh. -/
theorem maybeReuseChain_refreshes (t : Store) (pid : U64) (gone : U64 → Bool) (identity : String)
    (callback : Option Callback) (claimTime : U64) :
    let o := maybeReuseChain t pid gone identity callback claimTime
    o.delivered = (refreshHelper t callback).delivered ∧
      o.store.seenThrough = (refreshHelper t callback).store.seenThrough ∧
      o.store.db.bundles = t.db.bundles ∧ o.store.db.retainBundles = t.db.retainBundles := by
  simp only
  unfold maybeReuseChain
  simp only
  cases (refreshHelper t callback).result with
  | error e => exact ⟨rfl, rfl, rfl, rfl⟩
  | ok n =>
      obtain ⟨hbundles, hretain⟩ := reuseFrom_bundles t.db pid gone identity claimTime
        t.db.getClaims
      exact ⟨rfl, rfl, hbundles, hretain⟩

theorem saveSymmetricKey_bundles (t : Store) (key : Bytes) :
    (saveSymmetricKey lib t key).store.db.bundles = t.db.bundles ∧
      (saveSymmetricKey lib t key).store.db.retainBundles = t.db.retainBundles ∧
      (saveSymmetricKey lib t key).store.seenThrough = t.seenThrough := by
  unfold saveSymmetricKey
  split_ifs
  · exact ⟨rfl, rfl, rfl⟩
  · simp only
    cases encodeMuts (lib.shorterHash key).val <;> exact ⟨rfl, rfl, rfl⟩

/-- A step that only says where a process stands. -/
theorem status_attended (h : Attended s) {status : U64 → Status}
    (hused : ∀ pid, s.status pid ≠ .unused → status pid ≠ .unused)
    (hrunning : ∀ pid p, status pid = .running p → s.status pid = .running p ∨
      s.status pid = .unused ∧ p.seenThrough = 0 ∧ p.heard = []) :
    Attended { s with status } := by
  have hfits := h.received.fits
  refine ⟨h.retain, h.rows, h.received, fun w hw => hused _ (h.writer w hw), ?_, ?_⟩
  · intro pid p hp
    rcases hrunning pid p hp with hp | ⟨-, hseen, -⟩
    · exact h.cursor pid p hp
    · show 0 ≤ p.seenThrough ∧ p.seenThrough ≤ s.now
      omega
  · intro pid p hp
    rcases hrunning pid p hp with hp | ⟨hunused, hseen, hheard⟩
    · exact h.follows pid p hp
    · -- every row was received after the time 0
      refine ⟨0, ?_, ?_⟩
      · show rowsAfter p.seenThrough s.db.bundles.rows = s.db.bundles.rows.drop 0
        rw [hseen]
        refine List.filter_eq_self.mpr ?_
        intro r hr
        obtain ⟨time, hpos, hle, hrow⟩ := h.received.times r hr
        rw [hrow, decide_eq_true_eq, le_packSigned_iff (by omega) (by omega)]
        exact hpos
      · rw [hheard]
        apply Machine.follows_join_start
        intro i hi hw
        obtain ⟨w, hw', rfl⟩ := List.mem_map.mp hi
        apply h.writer w hw'
        rw [show w.1 = pid from hw]
        exact hunused

/-- **What each attentive event preserves.** -/
theorem step_attended (lib : Externals) (s : System) (e : Event) (h : Attended s)
    (hattentive : Attentive s e) : Attended (s.step lib e) := by
  have hfits := h.received.fits
  have hstep := s.step_stepped lib e
  generalize s.step lib e = s' at hstep ⊢
  cases hstep with
  | nothing => exact h
  | @start pid applyChanges hunused =>
      refine status_attended h ?_ ?_
      · intro other hother
        by_cases hpid : other = pid
        · rw [hpid] at hother
          exact absurd hunused hother
        · rw [Function.update_of_ne hpid]
          exact hother
      · intro other p hp
        by_cases hpid : other = pid
        · subst hpid
          rw [Function.update_self] at hp
          injection hp with hp
          rw [← hp]
          exact Or.inr ⟨hunused, rfl, rfl⟩
        · rw [Function.update_of_ne hpid] at hp
          exact Or.inl hp
  | @apply pid p bundle callback claimChain receiveTime claimTime hrunning hlink =>
      obtain ⟨hquiet, hunmissed, hlater, hfits'⟩ := hattentive
      have hcursor := h.cursor pid p hrunning
      have hhanded := h.handed hrunning hunmissed
      have htold := @applyBundle_told lib s.now (s.store p) h.received h.retain callback hquiet
        hcursor bundle claimChain ⟨receiveTime, claimTime, pid⟩ hlater hfits'
      unfold System.applied
      simp only
      generalize applyBundle lib (s.store p) bundle callback claimChain
        ⟨receiveTime, claimTime, pid⟩ = o at htold ⊢
      cases htold with
      | nothing hstore hnone =>
          rw [hstore, hnone]
          exact same_attended h hrunning rfl rfl rfl (List.append_nil _) hlater.le hfits'
      | kept hbundles hretain htold hc hfinished =>
          rw [htold]
          refine kept_attended h hbundles hretain hlater.le hfits' hc ?_
          refine ⟨(items s.written).length, ?_, hhanded⟩
          rw [length_items h.rows]
          exact finished_rows hfinished
      | wrote hbundles hretain htold hc =>
          rw [htold]
          exact wrote_attended h hrunning hbundles hretain hlater hfits' hc hhanded
  | @refresh pid p callback hrunning =>
      obtain ⟨hquiet, hunmissed⟩ := hattentive
      exact refreshed_attended h hrunning hquiet hunmissed rfl rfl rfl rfl
  | @reuse pid p identity callback claimTime hrunning hlink =>
      obtain ⟨hquiet, hunmissed⟩ := hattentive
      obtain ⟨hdelivered, hseen, hbundles, hretain⟩ :=
        maybeReuseChain_refreshes (s.store p) pid s.gone identity callback claimTime
      refine refreshed_attended h hrunning hquiet hunmissed hbundles hretain hseen ?_
      show p.heard ++ _ = _
      rw [hdelivered]
  | @adopt pid p chain hrunning hoffered =>
      have hheard : ({ p with offered := none, link := some chain } : Process).heard = p.heard := rfl
      exact same_attended (t := s.store p) h hrunning rfl rfl rfl hheard (le_refl _) hfits.2
  | @saveSymmetricKey pid p key hrunning =>
      obtain ⟨hbundles, hretain, hseen⟩ := @saveSymmetricKey_bundles lib (s.store p) key
      exact same_attended h hrunning hbundles hretain hseen rfl (le_refl _) hfits.2
  | @exit pid p hrunning =>
      refine status_attended h ?_ ?_
      · intro other hother
        by_cases hpid : other = pid
        · rw [hpid, Function.update_self]
          simp
        · rw [Function.update_of_ne hpid]
          exact hother
      · intro other q hq
        by_cases hpid : other = pid
        · rw [hpid, Function.update_self] at hq
          exact absurd hq (by simp)
        · rw [Function.update_of_ne hpid] at hq
          exact Or.inl hq

/-! ## §4. What the callbacks were handed. -/

/-- **Each bundle is handed over once.**  A process has handed its callbacks the bundles that
others wrote up to its cursor, each once and in order; and one more refresh with a callback
hands over the rest. -/
structure HeardOnce (lib : Externals) (s : System) : Prop where
  heard : ∀ pid p, s.status pid = .running p → ∃ cursor,
    Follows pid (items s.written) 0 cursor p.heard
  refreshed : ∀ pid p f, s.status pid = .running p → Quiet (some f) → ∃ p',
    (s.step lib (.refresh pid (some f))).status pid = .running p' ∧
    p'.heard = others pid (items s.written)

theorem Attended.heardOnce (h : Attended s) : HeardOnce lib s where
  heard pid p hp := by
    obtain ⟨n, -, hfollows⟩ := h.follows pid p hp
    exact ⟨n, hfollows⟩
  refreshed := by
    intro pid p f hp hquiet
    have hunmissed : Unmissed s pid (some f) := fun hnone => absurd hnone (by simp)
    have hstep : s.step lib (.refresh pid (some f)) = s.refreshed pid p (some f) := by
      simp only [System.step, hp]
    have hcursor := h.cursor pid p hp
    have hfits := h.received.fits
    have hdelivered := (refreshHelper_quiet (s := s.store p) h.received hquiet hcursor.1
      (by show p.seenThrough + 1 < _; omega)).delivered
    rw [hstep]
    refine ⟨_, Function.update_self .., ?_⟩
    show p.heard ++ (refreshHelper (s.store p) (some f)).delivered = _
    rw [hdelivered]
    exact (h.handed hp hunmissed).received_all rfl

/-- **In every attentive run** on a file that keeps the bundles, each bundle is handed over
exactly once. -/
theorem heard_once (lib : Externals) (retainEntries : Bool) (events : List Event)
    (h : Machine.AllSteps (System.step lib) Attentive (System.onNewFile retainEntries) events) :
    HeardOnce lib (Machine.run (System.step lib) (System.onNewFile retainEntries) events) :=
  (Machine.run_invariant (step_attended lib) events _ (attended_onNewFile retainEntries)
    h).heardOnce

end Lmdb

end Gink
