/-
  Gink.Js.Unacked — what a JavaScript connection keeps of the bundles it has sent until they
  are acked (AbstractConnection.ts).

  The times of the last bundles sent stand in a map of maps, and a counter beside it says how
  many there are.  A bundle counts as sent when `send` has returned; what notifies listeners
  comes last in each method and is left out.

  Main result:
    * `unacked_bookkeeping` — the counter is the number of chains recorded, and it is zero
      exactly when each bundle that is the last one sent of its chain was acked after that.
-/
import Gink.Js.Connection
import Gink.Machine.Run
import Gink.Table.Nested

namespace Gink

namespace Js

/-! ## §1. The connection. -/

/-- What an `AbstractConnection` knows of its peer, and waits for. -/
structure AbstractConnection where
  peerHasMap : Option HasMap := none
  unacked : Table U64 (Table U64 U64) := ∅
  unackedChains : Int := 0

namespace AbstractConnection

/-- `hasSentUnackedData`. -/
def hasSentUnackedData (c : AbstractConnection) : Bool := decide (c.unackedChains > 0)

/-- `onAck(bundleInfo)`. -/
def onAck (c : AbstractConnection) (bundleInfo : BundleInfo) : AbstractConnection :=
  match c.unacked.get? bundleInfo.medallion with
  | none => c  -- an ack for a medallion we don't have
  | some innerMap =>
      match innerMap.get? bundleInfo.chainStart with
      | none => c  -- an ack for a chain we didn't send
      | some lastSentForThisChain =>
          if lastSentForThisChain = 0 then c
          else if bundleInfo.timestamp = lastSentForThisChain then
            { c with
              unacked := c.unacked.put bundleInfo.medallion (innerMap.erase bundleInfo.chainStart)
              unackedChains :=
                if c.unackedChains > 0 then c.unackedChains - 1 else c.unackedChains }
          else c

/-- The rest of `sendIfNeeded(bundle)`, once the bundle was sent. -/
def noteSent (c : AbstractConnection) (info : BundleInfo) : AbstractConnection :=
  let innerMap := (c.unacked.get? info.medallion).getD ∅
  { c with
    unackedChains :=
      if (innerMap.get? info.chainStart).isNone then c.unackedChains + 1 else c.unackedChains
    unacked := c.unacked.put info.medallion (innerMap.put info.chainStart info.timestamp) }

/-- `sendIfNeeded(bundle)`, and whether it sent the bundle; `returns` says that `send` does
not throw. -/
def sendIfNeeded (c : AbstractConnection) (info : BundleInfo) (returns : Bool) :
    AbstractConnection × Bool :=
  match c.peerHasMap with
  | none => (c, false)
  | some hasMap =>
      match hasMap.markIfValid info with
      | .error _ => (c, false)
      | .ok (false, _) => (c, false)
      | .ok (true, hasMap) =>
          let c : AbstractConnection := { c with peerHasMap := some hasMap }
          if returns then (c.noteSent info, true) else (c, false)

/-- `setPeerHasMap(hasMap)`: a second greeting throws. -/
def setPeerHasMap (c : AbstractConnection) (hasMap : Option HasMap) : AbstractConnection :=
  if c.peerHasMap.isSome ∧ hasMap.isSome then c else { c with peerHasMap := hasMap }

/-- `onReceivedBundle(bundleInfo)`; the ack it sends is none of those waited for. -/
def onReceivedBundle (c : AbstractConnection) (info : BundleInfo) : AbstractConnection :=
  { c with peerHasMap := c.peerHasMap.map fun hasMap => hasMap.markAsHaving info }

inductive Call where
  | sendIfNeeded (info : BundleInfo) (returns : Bool)
  | onAck (bundleInfo : BundleInfo)
  /-- `resetAbstractConnection()` -/
  | reset
  | setPeerHasMap (hasMap : Option HasMap)
  | onReceivedBundle (info : BundleInfo)

def step (c : AbstractConnection) : Call → AbstractConnection
  | .sendIfNeeded info returns => (c.sendIfNeeded info returns).1
  | .onAck bundleInfo => c.onAck bundleInfo
  | .reset => {}
  | .setPeerHasMap hasMap => c.setPeerHasMap hasMap
  | .onReceivedBundle info => c.onReceivedBundle info

/-! ## §2. What is to be waited for. -/

/-- What an onlooker notes of the calls. -/
inductive Noted where
  | sent (info : BundleInfo)
  | acked (info : BundleInfo)
  | reset

/-- What is noted of one call. -/
def noted (c : AbstractConnection) : Call → List Noted
  | .sendIfNeeded info returns => if (c.sendIfNeeded info returns).2 then [.sent info] else []
  | .onAck bundleInfo => [.acked bundleInfo]
  | .reset => [.reset]
  | _ => []

/-- What is noted of a run. -/
def log (c : AbstractConnection) : List Call → List Noted
  | [] => []
  | call :: rest => noted c call ++ log (step c call) rest

/-- After the bundle was sent there was no reset, and no bundle of its chain was sent. -/
def IsLast (info : BundleInfo) (after : List Noted) : Prop :=
  ∀ note ∈ after, note ≠ .reset ∧ ∀ other, note = .sent other → other.chain ≠ info.chain

/-- After the bundle was sent an ack of it came. -/
def Acknowledged (info : BundleInfo) (after : List Noted) : Prop :=
  ∃ ack, Noted.acked ack ∈ after ∧ ack.chain = info.chain ∧ ack.timestamp = info.timestamp

/-- The last bundle sent of the chain is from the time, and was not acked. -/
def Waits (notes : List Noted) (chain : Chain) (time : U64) : Prop :=
  ∃ before info after, notes = before ++ .sent info :: after ∧ info.chain = chain ∧
    info.timestamp = time ∧ IsLast info after ∧ ¬ Acknowledged info after

variable {notes : List Noted} {chain : Chain} {time : U64} {info : BundleInfo}

/-- A note more is the last one, or comes after. -/
theorem append_eq_iff {note last : Noted} {before after : List Noted} :
    notes ++ [last] = before ++ note :: after ↔
      notes = before ∧ last = note ∧ after = [] ∨
        ∃ after', after = after' ++ [last] ∧ notes = before ++ note :: after' := by
  rcases List.eq_nil_or_concat' after with rfl | ⟨after', x, rfl⟩
  · constructor
    · intro h
      obtain ⟨hnotes, hlast⟩ := List.append_inj' h rfl
      exact Or.inl ⟨hnotes, (List.cons.inj hlast).1, rfl⟩
    · intro h
      rcases h with ⟨rfl, rfl, -⟩ | ⟨after', hnil, -⟩
      · rfl
      · simp at hnil
  · constructor
    · intro h
      have hsplit : notes ++ [last] = (before ++ note :: after') ++ [x] := by simpa using h
      obtain ⟨hnotes, hlast⟩ := List.append_inj' hsplit rfl
      obtain rfl := (List.cons.inj hlast).1
      exact Or.inr ⟨after', rfl, hnotes⟩
    · intro h
      rcases h with ⟨-, -, hnil⟩ | ⟨after'', heq, rfl⟩
      · simp at hnil
      · obtain ⟨rfl, hx⟩ := List.append_inj' heq rfl
        obtain rfl := (List.cons.inj hx).1
        simp

theorem isLast_append {after : List Noted} {note : Noted} :
    IsLast info (after ++ [note]) ↔ IsLast info after ∧ note ≠ .reset ∧
      ∀ other, note = .sent other → other.chain ≠ info.chain := by
  unfold IsLast
  rw [List.forall_mem_append]
  simp

theorem acknowledged_append {after : List Noted} {note : Noted} :
    Acknowledged info (after ++ [note]) ↔ Acknowledged info after ∨
      ∃ ack, note = .acked ack ∧ ack.chain = info.chain ∧ ack.timestamp = info.timestamp := by
  unfold Acknowledged
  simp only [List.mem_append, List.mem_singleton, or_and_right, exists_or, eq_comm]

/-- A bundle that is sent is waited for, instead of the one before. -/
theorem waits_sent : Waits (notes ++ [.sent info]) chain time ↔
    if chain = info.chain then time = info.timestamp else Waits notes chain time := by
  constructor
  · intro h
    obtain ⟨before, info', after, hsplit, rfl, rfl, hlast, hnot⟩ := h
    rcases append_eq_iff.mp hsplit with ⟨-, heq, -⟩ | ⟨after', rfl, hnotes⟩
    · obtain rfl := Noted.sent.inj heq
      rw [if_pos rfl]
    · obtain ⟨hlast, -, hother⟩ := isLast_append.mp hlast
      rw [if_neg (Ne.symm (hother info rfl))]
      exact ⟨before, info', after', hnotes, rfl, rfl, hlast,
        fun hack => hnot (acknowledged_append.mpr (Or.inl hack))⟩
  · intro h
    by_cases hchain : chain = info.chain
    · rw [if_pos hchain] at h
      refine ⟨notes, info, [], rfl, hchain.symm, h.symm, fun _ hmem => ?_, fun hack => ?_⟩
      · exact absurd hmem List.not_mem_nil
      · obtain ⟨ack, hmem, -⟩ := hack
        exact absurd hmem List.not_mem_nil
    · rw [if_neg hchain] at h
      obtain ⟨before, info', after, rfl, rfl, rfl, hlast, hnot⟩ := h
      refine ⟨before, info', after ++ [.sent info], by simp, rfl, rfl, ?_, ?_⟩
      · refine isLast_append.mpr ⟨hlast, Noted.noConfusion, fun other hother => ?_⟩
        rw [← Noted.sent.inj hother]
        exact Ne.symm hchain
      · intro hack
        rcases acknowledged_append.mp hack with hack | ⟨ack, hnote, -⟩
        · exact hnot hack
        · cases hnote

/-- An ack takes off what it names. -/
theorem waits_acked : Waits (notes ++ [.acked info]) chain time ↔
    Waits notes chain time ∧ ¬ (info.chain = chain ∧ info.timestamp = time) := by
  constructor
  · intro h
    obtain ⟨before, info', after, hsplit, rfl, rfl, hlast, hnot⟩ := h
    rcases append_eq_iff.mp hsplit with ⟨-, heq, -⟩ | ⟨after', rfl, hnotes⟩
    · cases heq
    · rw [acknowledged_append, not_or] at hnot
      exact ⟨⟨before, info', after', hnotes, rfl, rfl, (isLast_append.mp hlast).1, hnot.1⟩,
        fun hboth => hnot.2 ⟨info, rfl, hboth⟩⟩
  · intro h
    obtain ⟨⟨before, info', after, rfl, rfl, rfl, hlast, hnot⟩, hother⟩ := h
    refine ⟨before, info', after ++ [.acked info], by simp, rfl, rfl, ?_, ?_⟩
    · exact isLast_append.mpr ⟨hlast, Noted.noConfusion, fun _ h => Noted.noConfusion h⟩
    · intro hack
      rcases acknowledged_append.mp hack with hack | ⟨ack, hnote, hsame⟩
      · exact hnot hack
      · obtain rfl := Noted.acked.inj hnote
        exact hother hsame

/-- After a reset nothing is waited for. -/
theorem not_waits_reset : ¬ Waits (notes ++ [.reset]) chain time := by
  intro h
  obtain ⟨before, info', after, hsplit, -, -, hlast, -⟩ := h
  rcases append_eq_iff.mp hsplit with ⟨-, heq, -⟩ | ⟨after', rfl, -⟩
  · cases heq
  · exact (isLast_append.mp hlast).2.1 rfl

/-! ## §3. What one call does. -/

variable {c : AbstractConnection}

/-- The counter and the map agree with each other and with what was noted. -/
structure Agrees (notes : List Noted) (c : AbstractConnection) : Prop where
  counted : c.unackedChains = c.unacked.count
  dated : ∀ medallion chainStart, c.unacked.under medallion chainStart ≠ some 0
  waits : ∀ (chain : Chain) time,
    c.unacked.under chain.medallion chain.chainStart = some time ↔ Waits notes chain time

theorem Agrees.start : Agrees [] {} where
  counted := rfl
  dated _ _ := nofun
  waits chain time := by
    constructor
    · exact nofun
    · intro h
      obtain ⟨before, info, after, hsplit, -⟩ := h
      exact absurd hsplit (by simp)

/-- What changes the peer's map alone. -/
theorem Agrees.of_same (h : Agrees notes c) {c' : AbstractConnection}
    (hunacked : c'.unacked = c.unacked) (hcount : c'.unackedChains = c.unackedChains) :
    Agrees notes c' where
  counted := by rw [hunacked, hcount, h.counted]
  dated := by
    rw [hunacked]
    exact h.dated
  waits := by
    rw [hunacked]
    exact h.waits

/-- **A bundle sent.** -/
theorem Agrees.noteSent (h : Agrees notes c) (info : BundleInfo) (hdated : info.timestamp ≠ 0) :
    Agrees (notes ++ [.sent info]) (c.noteSent info) := by
  have hput : (c.noteSent info).unacked =
      c.unacked.putUnder info.medallion info.chainStart info.timestamp := rfl
  refine ⟨?_, ?_, ?_⟩
  · show (if (c.unacked.under info.medallion info.chainStart).isNone then _ else _) = _
    rw [hput]
    cases hunder : c.unacked.under info.medallion info.chainStart with
    | none =>
        rw [Table.count_putUnder_of_none hunder, h.counted]
        exact (Int.natCast_add _ _).symm
    | some old => rw [if_neg Bool.noConfusion, Table.count_putUnder_of_some hunder, h.counted]
  · intro medallion chainStart
    rw [hput, Table.under_putUnder]
    split_ifs
    · exact fun heq => hdated (Option.some.inj heq)
    · exact h.dated medallion chainStart
  · intro chain time
    have hchain : chain.medallion = info.medallion ∧ chain.chainStart = info.chainStart ↔
        chain = info.chain := by
      cases chain
      simp [BundleInfo.chain]
    rw [hput, Table.under_putUnder, waits_sent]
    by_cases hsame : chain = info.chain
    · rw [if_pos (hchain.mpr hsame), if_pos hsame, Option.some.injEq]
      exact eq_comm
    · rw [if_neg (fun hboth => hsame (hchain.mp hboth)), if_neg hsame, h.waits]

/-- **An ack**, of whatever it is. -/
theorem Agrees.onAck (h : Agrees notes c) (info : BundleInfo) :
    Agrees (notes ++ [.acked info]) (c.onAck info) := by
  have hunder : c.unacked.under info.medallion info.chainStart =
      (c.unacked.get? info.medallion).bind fun innerMap => innerMap.get? info.chainStart := by
    unfold Table.under Table.inner
    cases c.unacked.get? info.medallion <;> rfl
  -- an ack of anything else leaves all as it is
  have hstays : c.unacked.under info.medallion info.chainStart ≠ some info.timestamp →
      Agrees (notes ++ [.acked info]) c := by
    intro hother
    refine ⟨h.counted, h.dated, fun chain time => ?_⟩
    rw [waits_acked, ← h.waits]
    refine (and_iff_left_of_imp fun htime hboth => hother ?_).symm
    obtain ⟨rfl, rfl⟩ := hboth
    exact htime
  unfold AbstractConnection.onAck
  cases hinner : c.unacked.get? info.medallion with
  | none =>
      refine hstays ?_
      rw [hunder, hinner]
      exact nofun
  | some innerMap =>
      rw [hinner, Option.bind_some] at hunder
      dsimp only
      cases hlast : innerMap.get? info.chainStart with
      | none =>
          refine hstays ?_
          rw [hunder, hlast]
          exact nofun
      | some last =>
          rw [hlast] at hunder
          have hne : last ≠ 0 := fun hzero => h.dated _ _ (hzero ▸ hunder)
          dsimp only
          rw [if_neg hne]
          by_cases hacked : info.timestamp = last
          · rw [if_pos hacked]
            have hcount := Table.count_eraseUnder hunder
            have herased : c.unacked.put info.medallion (innerMap.erase info.chainStart) =
                c.unacked.eraseUnder info.medallion info.chainStart := by
              unfold Table.eraseUnder Table.inner
              rw [hinner]
              rfl
            rw [herased]
            refine ⟨?_, ?_, ?_⟩
            · show (if c.unackedChains > 0 then c.unackedChains - 1 else c.unackedChains) = _
              show _ = ((c.unacked.eraseUnder info.medallion info.chainStart).count : Int)
              rw [h.counted, hcount, if_pos (by omega)]
              omega
            · intro medallion chainStart
              show (c.unacked.eraseUnder _ _).under medallion chainStart ≠ some 0
              rw [Table.under_eraseUnder]
              split_ifs
              · exact nofun
              · exact h.dated medallion chainStart
            · intro chain time
              show (c.unacked.eraseUnder _ _).under _ _ = some time ↔ _
              rw [Table.under_eraseUnder, waits_acked, ← h.waits]
              by_cases hsame : chain.medallion = info.medallion ∧ chain.chainStart = info.chainStart
              · rw [if_pos hsame, hsame.1, hsame.2, hunder]
                have hchain : info.chain = chain := by
                  cases chain
                  simpa [BundleInfo.chain] using ⟨hsame.1.symm, hsame.2.symm⟩
                simp [hchain, hacked]
              · rw [if_neg hsame]
                refine (and_iff_left_of_imp fun _ hboth => hsame ?_).symm
                rw [← hboth.1]
                exact ⟨rfl, rfl⟩
          · rw [if_neg hacked]
            refine hstays ?_
            rw [hunder]
            exact fun heq => hacked (Option.some.inj heq).symm

/-- What is sent is later than what the peer's map holds, so not at time zero. -/
theorem sendIfNeeded_cases (c : AbstractConnection) (info : BundleInfo) (returns : Bool) :
    (∃ hasMap, (c.sendIfNeeded info returns) =
        ({ c with peerHasMap := some hasMap : AbstractConnection }.noteSent info, true) ∧
      info.timestamp ≠ 0) ∨
    (c.sendIfNeeded info returns).2 = false ∧
      (c.sendIfNeeded info returns).1.unacked = c.unacked ∧
        (c.sendIfNeeded info returns).1.unackedChains = c.unackedChains := by
  unfold AbstractConnection.sendIfNeeded
  split
  · exact Or.inr ⟨rfl, rfl, rfl⟩
  · rename_i hasMap _
    split
    · exact Or.inr ⟨rfl, rfl, rfl⟩
    · exact Or.inr ⟨rfl, rfl, rfl⟩
    · rename_i hasMap' hmark
      have hne : info.timestamp ≠ 0 := by
        unfold HasMap.markIfValid at hmark
        by_cases hlt : hasMap.seenThrough info.chain < info.timestamp
        · exact Fin.pos_iff_ne_zero.mp (lt_of_le_of_lt (Fin.zero_le _) hlt)
        · rw [if_neg hlt] at hmark
          exact absurd hmark (by simp)
      cases returns with
      | true => exact Or.inl ⟨hasMap', rfl, hne⟩
      | false => exact Or.inr ⟨rfl, rfl, rfl⟩

/-- **One call.** -/
theorem Agrees.next (h : Agrees notes c) (call : Call) :
    Agrees (notes ++ noted c call) (step c call) := by
  cases call with
  | sendIfNeeded info returns =>
      show Agrees (notes ++ if (c.sendIfNeeded info returns).2 then [.sent info] else [])
        (c.sendIfNeeded info returns).1
      rcases sendIfNeeded_cases c info returns with ⟨hasMap, hsent, hdated⟩ | ⟨hnot, hsame⟩
      · rw [hsent]
        have hmarked : Agrees notes { c with peerHasMap := some hasMap } := h.of_same rfl rfl
        exact hmarked.noteSent info hdated
      · rw [hnot, if_neg Bool.noConfusion, List.append_nil]
        exact h.of_same hsame.1 hsame.2
  | onAck info => exact h.onAck info
  | reset =>
      have hnone : ∀ medallion chainStart, ({} : AbstractConnection).unacked.under medallion
          chainStart = none := fun _ _ => rfl
      refine ⟨rfl, ?_, ?_⟩
      · intro medallion chainStart
        show ({} : AbstractConnection).unacked.under medallion chainStart ≠ some 0
        rw [hnone]
        exact nofun
      · intro chain time
        show ({} : AbstractConnection).unacked.under _ _ = some time ↔ _
        rw [hnone]
        exact iff_of_false nofun not_waits_reset
  | setPeerHasMap hasMap =>
      show Agrees (notes ++ []) (c.setPeerHasMap hasMap)
      rw [List.append_nil]
      unfold AbstractConnection.setPeerHasMap
      split_ifs
      · exact h
      · exact h.of_same rfl rfl
  | onReceivedBundle info =>
      show Agrees (notes ++ []) (c.onReceivedBundle info)
      rw [List.append_nil]
      exact h.of_same rfl rfl

/-! ## §4. Runs. -/

theorem Agrees.after (calls : List Call) : ∀ {notes : List Noted} {c : AbstractConnection},
    Agrees notes c → Agrees (notes ++ log c calls) (Machine.run step c calls) := by
  induction calls with
  | nil =>
      intro notes c h
      show Agrees (notes ++ []) c
      rwa [List.append_nil]
  | cons call rest ih =>
      intro notes c h
      have hrest := ih (h.next call)
      rwa [List.append_assoc] at hrest

/-- **The counter and the map stay in step** with each other and with what was sent and acked. -/
theorem unacked_bookkeeping (calls : List Call) :
    (Machine.run step {} calls).unackedChains = (Machine.run step {} calls).unacked.count ∧
    0 ≤ (Machine.run step {} calls).unackedChains ∧
    ((Machine.run step {} calls).hasSentUnackedData = false ↔
      ∀ before info after, log {} calls = before ++ .sent info :: after → IsLast info after →
        Acknowledged info after) := by
  have h : Agrees (log {} calls) (Machine.run step {} calls) := Agrees.after calls Agrees.start
  refine ⟨h.counted, ?_, ?_⟩
  · rw [h.counted]
    exact Int.natCast_nonneg _
  · have hzero : (Machine.run step {} calls).hasSentUnackedData = false ↔
        (Machine.run step {} calls).unacked.count = 0 := by
      unfold hasSentUnackedData
      rw [h.counted, decide_eq_false_iff_not]
      omega
    rw [hzero, Table.count_eq_zero_iff]
    constructor
    · intro hnone before info after hsplit hlast
      by_contra hnot
      have hwaits := (h.waits info.chain info.timestamp).mpr
        ⟨before, info, after, hsplit, rfl, rfl, hlast, hnot⟩
      rw [hnone] at hwaits
      cases hwaits
    · intro hall medallion chainStart
      cases hunder : (Machine.run step {} calls).unacked.under medallion chainStart with
      | none => rfl
      | some time =>
          obtain ⟨before, info, after, hsplit, -, -, hlast, hnot⟩ :=
            (h.waits ⟨medallion, chainStart⟩ time).mp hunder
          exact absurd (hall before info after hsplit hlast) hnot

end AbstractConnection

end Js

end Gink
