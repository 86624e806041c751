/-
  Gink.Js.Backlog — what a JavaScript `Database` sends to a peer that has greeted.

  The bundles a peer lacks reach it in two ways over one connection: a cursor runs over what
  the store holds, and what is added from then on is broadcast.  The map of what the peer has
  admits the bundles of a chain in order only.  It is set when the greeting comes in, before
  the cursor is open, so a bundle that is broadcast while the cursor has earlier ones of its
  chain to bring does not fit, and `sendIfNeeded` throws.

  Main results:
    * `backlog_served` — nothing throws, each chain is sent in order and once, and in the end
      the peer was sent all it lacked, where no bundle is broadcast ahead of the cursor.
    * `backlog_overtaken` — a bundle that is broadcast between the greeting and the cursor.
-/
import Gink.Js.Connection

namespace Gink

namespace Js

/-! ## §1. Chains. -/

/-- The info is of a chain whose bundles have these times, and names the bundle before. -/
structure Genuine (times : Chain → U64 → Prop) (info : BundleInfo) : Prop where
  mem : times info.chain info.timestamp
  lt : info.previous < info.timestamp
  none_between : ∀ time, times info.chain time → time < info.timestamp → time ≤ info.previous
  start : info.previous = 0 → info.timestamp = info.chainStart

/-- What a greeting says of each chain is the time of one of its bundles. -/
def Honest (times : Chain → U64 → Prop) (m : HasMap) : Prop :=
  ∀ chain, m.seenThrough chain = 0 ∨ times chain (m.seenThrough chain)

/-- Of two bundles of one chain, the one is the earlier. -/
def Earlier (a b : BundleView) : Prop :=
  a.info.chain = b.info.chain → a.info.timestamp < b.info.timestamp

/-- The stored bundles are whole chains. -/
structure Whole (times : Chain → U64 → Prop) (stored : BundleView → Prop) : Prop where
  genuine : ∀ b, stored b → Genuine times b.info
  prior : ∀ b, stored b → b.info.previous = 0 ∨
    ∃ p, stored p ∧ p.info.chain = b.info.chain ∧ p.info.timestamp = b.info.previous
  unique : ∀ b b', stored b → stored b' → b.info.chain = b'.info.chain →
    b.info.timestamp = b'.info.timestamp → b = b'

theorem Honest.markAsHaving {times : Chain → U64 → Prop} {m : HasMap} (h : Honest times m)
    {info : BundleInfo} (hmem : times info.chain info.timestamp) :
    Honest times (m.markAsHaving info) := by
  intro chain
  rw [HasMap.seenThrough_markAsHaving]
  by_cases hc : chain = info.chain
  · subst hc
    rw [if_pos rfl]
    rcases max_choice (m.seenThrough info.chain) info.timestamp with hmax | hmax
    · rw [hmax]
      exact h info.chain
    · rw [hmax]
      exact Or.inr hmem
  · rw [if_neg hc]
    exact h chain

theorem seenThrough_le_markAsHaving (m : HasMap) (info : BundleInfo) (chain : Chain) :
    m.seenThrough chain ≤ (m.markAsHaving info).seenThrough chain := by
  rw [HasMap.seenThrough_markAsHaving]
  by_cases hc : chain = info.chain
  · rw [if_pos hc]
    exact le_max_left _ _
  · rw [if_neg hc]

/-! ## §2. What one connection is owed. -/

/-- The bundles among the messages. -/
def bundlesOf (sent : List Message) : List BundleView :=
  sent.filterMap fun
    | .bundle bundle => some bundle
    | _ => none

/-- The rows the cursor still brings. -/
def Scan.brings (stored : BundleView → Prop) : Scan → BundleView → Prop
  | .idle, _ => False
  | .asked, b => stored b
  | .going rest, b => b ∈ rest

/-- The peer has the bundle: it said so, it was sent it, or it sent one as late of the chain. -/
def Connection.Reached (c : Connection) (b : BundleView) : Prop :=
  c.greeting.has b.info = true ∨ b ∈ bundlesOf c.sent ∨
    ∃ info ∈ c.received, info.chain = b.info.chain ∧ b.info.timestamp ≤ info.timestamp

/-- Where the peer's chain ended when a bundle was sent that names this time. -/
def Connection.Ends (c : Connection) (chain : Chain) (time : U64) : Prop :=
  c.greeting.seenThrough chain = time ∨
    (∃ s ∈ bundlesOf c.sent, s.info.chain = chain ∧ s.info.timestamp = time) ∨
    ∃ info ∈ c.received, info.chain = chain ∧ info.timestamp = time

/-- A connection whose peer has greeted, while the bundles `pending` wait to be broadcast. -/
structure Served (times : Chain → U64 → Prop) (stored : BundleView → Prop)
    (pending : List BundleView) (c : Connection) (m : HasMap) : Prop where
  map_eq : c.peerHasMap = some m
  honest : Honest times m
  rows : ∀ rest, c.scan = .going rest → rest.Pairwise Earlier ∧ ∀ b ∈ rest, stored b
  /-- what the peer lacks is still to be brought, or to be broadcast after that -/
  lacking : ∀ b, stored b → m.seenThrough b.info.chain < b.info.timestamp →
    c.scan.brings stored b ∨ b ∈ pending ∧ ∀ r, c.scan.brings stored r → Earlier r b
  ends : ∀ chain, c.Ends chain (m.seenThrough chain)
  reached : ∀ b, stored b → b.info.timestamp ≤ m.seenThrough b.info.chain → c.Reached b
  sent : ∀ s ∈ bundlesOf c.sent, stored s ∧ s.info.timestamp ≤ m.seenThrough s.info.chain
  ordered : (bundlesOf c.sent).Pairwise Earlier
  gapless : ∀ s ∈ bundlesOf c.sent, s.info.previous = 0 ∨ c.Ends s.info.chain s.info.previous

section Served

variable {times : Chain → U64 → Prop} {stored : BundleView → Prop} {pending : List BundleView}
  {c : Connection} {m : HasMap} {b : BundleView}

theorem bundlesOf_append (l l' : List Message) :
    bundlesOf (l ++ l') = bundlesOf l ++ bundlesOf l' := List.filterMap_append

/-- The peer's map ends right before a bundle of which it has the one before. -/
theorem Served.seenThrough_eq (h : Served times stored pending c m) (hwhole : Whole times stored)
    (hb : stored b) (hlacks : m.seenThrough b.info.chain < b.info.timestamp)
    (hprior : ∀ p, stored p → p.info.chain = b.info.chain → p.info.timestamp = b.info.previous →
      p.info.timestamp ≤ m.seenThrough p.info.chain) :
    m.seenThrough b.info.chain = b.info.previous := by
  apply le_antisymm
  · rcases h.honest b.info.chain with hzero | hmem
    · rw [hzero]
      exact Fin.zero_le _
    · exact (hwhole.genuine b hb).none_between _ hmem hlacks
  · rcases hwhole.prior b hb with hzero | ⟨p, hp, hchain, htime⟩
    · rw [hzero]
      exact Fin.zero_le _
    · have := hprior p hp hchain htime
      rw [htime, hchain] at this
      exact this

theorem Connection.Reached.mono {c' : Connection} (h : c.Reached b)
    (hgreeting : c'.greeting = c.greeting) (hsent : bundlesOf c.sent ⊆ bundlesOf c'.sent)
    (hreceived : c.received ⊆ c'.received) : c'.Reached b := by
  rcases h with hg | hs | ⟨info, hi, hrest⟩
  · exact Or.inl (by rw [hgreeting]; exact hg)
  · exact Or.inr (Or.inl (hsent hs))
  · exact Or.inr (Or.inr ⟨info, hreceived hi, hrest⟩)

theorem Connection.Ends.mono {c' : Connection} {chain : Chain} {time : U64} (h : c.Ends chain time)
    (hgreeting : c'.greeting = c.greeting) (hsent : bundlesOf c.sent ⊆ bundlesOf c'.sent)
    (hreceived : c.received ⊆ c'.received) : c'.Ends chain time := by
  rcases h with hg | ⟨s, hs, hrest⟩ | ⟨info, hi, hrest⟩
  · exact Or.inl (by rw [hgreeting]; exact hg)
  · exact Or.inr (Or.inl ⟨s, hsent hs, hrest⟩)
  · exact Or.inr (Or.inr ⟨info, hreceived hi, hrest⟩)

/-- **A bundle is sent if the peer needs it**: it does not throw as long as the peer has the
bundle before. -/
theorem Served.sendIfNeeded (h : Served times stored pending c m) (hwhole : Whole times stored)
    (hb : stored b)
    (hprior : ∀ p, stored p → p.info.chain = b.info.chain → p.info.timestamp = b.info.previous →
      p.info.timestamp ≤ m.seenThrough p.info.chain) :
    ∃ c', c.sendIfNeeded b = .ok c' ∧ c'.scan = c.scan ∧
      Served times stored pending c' (m.markAsHaving b.info) := by
  unfold Connection.sendIfNeeded
  rw [h.map_eq]
  by_cases hlacks : m.seenThrough b.info.chain < b.info.timestamp
  · have heq := h.seenThrough_eq hwhole hb hlacks hprior
    have hg := hwhole.genuine b hb
    have hmark : m.markIfValid b.info = .ok (true, m.markAsHaving b.info) := by
      unfold HasMap.markIfValid
      rw [if_pos hlacks, if_neg, if_neg (by rw [heq]; simp)]
      exact fun hboth => hboth.1 (hg.start hboth.2)
    simp only [hmark]
    have hbundles : bundlesOf (Connection.sendBundle
        { c with peerHasMap := some (m.markAsHaving b.info) } b).sent =
          bundlesOf c.sent ++ [b] := bundlesOf_append _ _
    set c' := Connection.sendBundle { c with peerHasMap := some (m.markAsHaving b.info) } b with hc'
    have hsub : bundlesOf c.sent ⊆ bundlesOf c'.sent := by
      rw [hbundles]
      exact List.subset_append_left _ _
    have hle := fun chain => seenThrough_le_markAsHaving m b.info chain
    have hseen : (m.markAsHaving b.info).seenThrough b.info.chain = b.info.timestamp := by
      rw [HasMap.seenThrough_markAsHaving, if_pos rfl, max_eq_right hlacks.le]
    refine ⟨c', rfl, rfl, rfl, h.honest.markAsHaving hg.mem, h.rows, ?_, ?_, ?_, ?_, ?_, ?_⟩
    · intro x hx hxlacks
      exact h.lacking x hx ((hle _).trans_lt hxlacks)
    · intro chain
      by_cases hc : chain = b.info.chain
      · refine Or.inr (Or.inl ⟨b, by rw [hbundles]; simp, hc.symm, ?_⟩)
        rw [hc, hseen]
      · rw [HasMap.seenThrough_markAsHaving, if_neg hc]
        exact (h.ends chain).mono rfl hsub (List.Subset.refl _)
    · intro x hx hxle
      by_cases hold : x.info.timestamp ≤ m.seenThrough x.info.chain
      · exact (h.reached x hx hold).mono rfl hsub (List.Subset.refl _)
      · -- no bundle of the chain lies between the map's end and this one
        have hchain : x.info.chain = b.info.chain := by
          by_contra hne
          rw [HasMap.seenThrough_markAsHaving, if_neg hne] at hxle
          exact hold hxle
        have htime : x.info.timestamp = b.info.timestamp := by
          rw [hchain] at hxle hold
          rw [hseen] at hxle
          apply le_antisymm hxle
          by_contra hlt
          have := hg.none_between x.info.timestamp
            (by rw [← hchain]; exact (hwhole.genuine x hx).mem) (not_le.mp hlt)
          rw [heq] at hold
          exact hold this
        rw [hwhole.unique x b hx hb hchain htime]
        exact Or.inr (Or.inl (by rw [hbundles]; simp))
    · intro s hs
      rw [hbundles] at hs
      rcases List.mem_append.mp hs with hold | hnew
      · exact ⟨(h.sent s hold).1, (h.sent s hold).2.trans (hle _)⟩
      · obtain rfl := List.mem_singleton.mp hnew
        exact ⟨hb, hseen.ge⟩
    · rw [hbundles, List.pairwise_append]
      refine ⟨h.ordered, List.pairwise_singleton _ _, ?_⟩
      intro s hs x hx hchain
      obtain rfl := List.mem_singleton.mp hx
      have := (h.sent s hs).2
      rw [hchain] at this
      exact this.trans_lt hlacks
    · intro s hs
      rw [hbundles] at hs
      rcases List.mem_append.mp hs with hold | hnew
      · exact (h.gapless s hold).imp id fun he => he.mono rfl hsub (List.Subset.refl _)
      · obtain rfl := List.mem_singleton.mp hnew
        rw [← heq]
        exact Or.inr ((h.ends _).mono rfl hsub (List.Subset.refl _))
  · have hmark : m.markIfValid b.info = .ok (false, m) := by
      unfold HasMap.markIfValid
      rw [if_neg hlacks]
    have hsame : m.markAsHaving b.info = m := by
      unfold HasMap.markAsHaving
      rw [if_neg hlacks]
    simp only [hmark, hsame]
    exact ⟨_, rfl, rfl, rfl, h.honest, h.rows, h.lacking, h.ends, h.reached, h.sent, h.ordered,
      h.gapless⟩

/-- A bundle that the peer has by now need not be broadcast any more. -/
theorem Served.broadcasted {rest : List BundleView} (h : Served times stored (b :: rest) c m)
    (hhas : b.info.timestamp ≤ m.seenThrough b.info.chain) : Served times stored rest c m := by
  refine ⟨h.map_eq, h.honest, h.rows, ?_, h.ends, h.reached, h.sent, h.ordered, h.gapless⟩
  intro x hx hlacks
  rcases h.lacking x hx hlacks with hrow | ⟨hmem, hafter⟩
  · exact Or.inl hrow
  · rcases List.mem_cons.mp hmem with rfl | hrest
    · exact absurd hlacks (not_lt.mpr hhas)
    · exact Or.inr ⟨hrest, hafter⟩

/-- The cursor goes past a row that the peer has by now. -/
theorem Served.passed {rest : List BundleView} (h : Served times stored pending c m)
    (hscan : c.scan = .going (b :: rest))
    (hhas : b.info.timestamp ≤ m.seenThrough b.info.chain) :
    Served times stored pending { c with scan := .going rest } m := by
  obtain ⟨hordered, hstored⟩ := h.rows _ hscan
  refine ⟨h.map_eq, h.honest, ?_, ?_, h.ends, h.reached, h.sent, h.ordered, h.gapless⟩
  · intro rest' hrest
    obtain rfl : rest = rest' := Scan.going.inj hrest
    exact ⟨(List.pairwise_cons.mp hordered).2, fun x hx => hstored x (List.mem_cons_of_mem _ hx)⟩
  · intro x hx hlacks
    have hsub : ∀ r ∈ rest, c.scan.brings stored r := by
      intro r hr
      rw [hscan]
      exact List.mem_cons_of_mem _ hr
    rcases h.lacking x hx hlacks with hrow | ⟨hmem, hafter⟩
    · rw [hscan] at hrow
      rcases List.mem_cons.mp hrow with rfl | hrest
      · exact absurd hlacks (not_lt.mpr hhas)
      · exact Or.inl hrest
    · exact Or.inr ⟨hmem, fun r hr => hafter r (hsub r hr)⟩

/-- The peer has sent a bundle itself. -/
theorem Served.onReceivedBundle (h : Served times stored pending c m) {info : BundleInfo}
    (hmem : times info.chain info.timestamp) :
    Served times stored pending (c.onReceivedBundle info) (m.markAsHaving info) := by
  have hbundles : bundlesOf (c.onReceivedBundle info).sent = bundlesOf c.sent := by
    show bundlesOf (c.sent ++ [Message.ack info.chain info.timestamp]) = bundlesOf c.sent
    rw [bundlesOf_append]
    exact List.append_nil _
  have hsub : bundlesOf c.sent ⊆ bundlesOf (c.onReceivedBundle info).sent := by
    rw [hbundles]
    exact List.Subset.refl _
  have hreceived : c.received ⊆ (c.onReceivedBundle info).received :=
    List.subset_append_left _ _
  have hle := fun chain => seenThrough_le_markAsHaving m info chain
  refine ⟨?_, h.honest.markAsHaving hmem, h.rows, ?_, ?_, ?_, ?_, ?_, ?_⟩
  · show c.peerHasMap.map (fun hasMap => hasMap.markAsHaving info) = some (m.markAsHaving info)
    rw [h.map_eq]
    rfl
  · intro x hx hlacks
    exact h.lacking x hx ((hle _).trans_lt hlacks)
  · intro chain
    rw [HasMap.seenThrough_markAsHaving]
    by_cases hc : chain = info.chain
    · rw [if_pos hc]
      rcases max_choice (m.seenThrough chain) info.timestamp with hmax | hmax
      · rw [hmax]
        exact (h.ends chain).mono rfl hsub hreceived
      · rw [hmax]
        exact Or.inr (Or.inr ⟨info, List.mem_append_right _ (List.mem_singleton_self _), hc.symm, rfl⟩)
    · rw [if_neg hc]
      exact (h.ends chain).mono rfl hsub hreceived
  · intro x hx hxle
    by_cases hold : x.info.timestamp ≤ m.seenThrough x.info.chain
    · exact (h.reached x hx hold).mono rfl hsub hreceived
    · rw [HasMap.seenThrough_markAsHaving] at hxle
      by_cases hc : x.info.chain = info.chain
      · rw [if_pos hc, le_max_iff] at hxle
        exact Or.inr (Or.inr ⟨info, List.mem_append_right _ (List.mem_singleton_self _), hc.symm,
          hxle.resolve_left hold⟩)
      · rw [if_neg hc] at hxle
        exact absurd hxle hold
  · intro s hs
    rw [hbundles] at hs
    exact ⟨(h.sent s hs).1, (h.sent s hs).2.trans (hle _)⟩
  · rw [hbundles]
    exact h.ordered
  · intro s hs
    rw [hbundles] at hs
    exact (h.gapless s hs).imp id fun he => he.mono rfl hsub hreceived

/-- The store has a bundle more, later than all of its chain, that waits to be broadcast. -/
theorem Served.more (h : Served times stored pending c m)
    (hnew : ∀ x, stored x → Earlier x b) :
    Served times (fun x => stored x ∨ x = b) (pending ++ [b]) c m := by
  have hbrings : ∀ x, c.scan.brings stored x → c.scan.brings (fun x => stored x ∨ x = b) x := by
    intro x hx
    cases hs : c.scan with
    | idle => rw [hs] at hx; exact hx
    | asked => rw [hs] at hx; exact Or.inl hx
    | going rest => rw [hs] at hx; exact hx
  refine ⟨h.map_eq, h.honest, ?_, ?_, h.ends, ?_, ?_, h.ordered, h.gapless⟩
  · intro rest hrest
    exact ⟨(h.rows rest hrest).1, fun x hx => Or.inl ((h.rows rest hrest).2 x hx)⟩
  · intro x hx hlacks
    cases hs : c.scan with
    | asked => exact Or.inl hx
    | idle =>
        rcases hx with hx | rfl
        · rcases h.lacking x hx hlacks with hrow | ⟨hmem, -⟩
          · rw [hs] at hrow
            exact absurd hrow id
          · exact Or.inr ⟨List.mem_append_left _ hmem, fun r hr => absurd hr id⟩
        · exact Or.inr ⟨by simp, fun r hr => absurd hr id⟩
    | going rest =>
        rcases hx with hx | rfl
        · rcases h.lacking x hx hlacks with hrow | ⟨hmem, hafter⟩
          · rw [hs] at hrow
            exact Or.inl hrow
          · rw [hs] at hafter
            exact Or.inr ⟨List.mem_append_left _ hmem, hafter⟩
        · exact Or.inr ⟨by simp, fun r hr => hnew r ((h.rows rest hs).2 r hr)⟩
  · intro x hx hxle
    rcases hx with hx | rfl
    · exact h.reached x hx hxle
    · -- the peer has a bundle that is new here: it did not get that from here
      rcases h.ends x.info.chain with hg | ⟨s, hs, hchain, htime⟩ | ⟨info, hi, hchain, htime⟩
      · refine Or.inl ?_
        unfold HasMap.has
        rw [decide_eq_true_eq, hg]
        exact hxle
      · have hlt := hnew s (h.sent s hs).1 hchain
        rw [htime] at hlt
        exact absurd hxle (not_le.mpr hlt)
      · exact Or.inr (Or.inr ⟨info, hi, hchain, by rw [htime]; exact hxle⟩)
  · intro s hs
    exact ⟨Or.inl (h.sent s hs).1, (h.sent s hs).2⟩

/-- The cursor is opened on all that is stored. -/
theorem Served.opened (h : Served times stored pending c m) {rows : List BundleView}
    (hrows : ∀ x, x ∈ rows ↔ stored x) (hordered : rows.Pairwise Earlier) :
    Served times stored pending { c with scan := .going rows } m := by
  refine ⟨h.map_eq, h.honest, ?_, ?_, h.ends, h.reached, h.sent, h.ordered, h.gapless⟩
  · intro rest hrest
    obtain rfl : rows = rest := Scan.going.inj hrest
    exact ⟨hordered, fun x hx => (hrows x).mp hx⟩
  · intro x hx _
    exact Or.inl ((hrows x).mpr hx)

/-- The cursor has come to its end, and the peer is told so. -/
theorem Served.finished (h : Served times stored pending c m) (hscan : c.scan = .going []) :
    Served times stored pending
      (({ c with scan := .idle } : Connection).send (.signal .initialBundlesSent)) m := by
  have hbundles : bundlesOf (({ c with scan := .idle } : Connection).send
      (.signal .initialBundlesSent)).sent = bundlesOf c.sent := by
    show bundlesOf (c.sent ++ [Message.signal .initialBundlesSent]) = bundlesOf c.sent
    rw [bundlesOf_append]
    exact List.append_nil _
  have hsub : bundlesOf c.sent ⊆ bundlesOf (({ c with scan := .idle } : Connection).send
      (.signal .initialBundlesSent)).sent := by
    rw [hbundles]
    exact List.Subset.refl _
  refine ⟨h.map_eq, h.honest, fun rest hrest => absurd hrest (by simp [Connection.send]), ?_,
    fun chain => (h.ends chain).mono rfl hsub (List.Subset.refl _),
    fun x hx hxle => (h.reached x hx hxle).mono rfl hsub (List.Subset.refl _), ?_, ?_, ?_⟩
  · intro x hx hlacks
    rcases h.lacking x hx hlacks with hrow | ⟨hmem, -⟩
    · rw [hscan] at hrow
      exact absurd hrow (List.not_mem_nil)
    · exact Or.inr ⟨hmem, fun r hr => absurd hr id⟩
  · intro s hs
    rw [hbundles] at hs
    exact h.sent s hs
  · rw [hbundles]
    exact h.ordered
  · intro s hs
    rw [hbundles] at hs
    exact (h.gapless s hs).imp id fun he => he.mono rfl hsub (List.Subset.refl _)

/-- A connection: its peer has not greeted yet, or is served. -/
def Connection.Ok (times : Chain → U64 → Prop) (stored : BundleView → Prop)
    (pending : List BundleView) (c : Connection) : Prop :=
  (c.peerHasMap = none ∧ c.scan = .idle ∧ bundlesOf c.sent = []) ∨
    ∃ m, Served times stored pending c m

/-- **A greeting comes in**: from now on the peer is owed everything it does not have. -/
theorem Connection.Ok.onGreeting (h : c.Ok times stored pending) {entries : List (Chain × U64)}
    (hhonest : Honest times (.ofGreeting entries)) :
    (c.onGreeting entries).Ok times stored pending := by
  unfold Connection.onGreeting
  rcases h with ⟨hnone, -, hsent⟩ | ⟨m, hm⟩
  · rw [hnone]
    refine Or.inr ⟨.ofGreeting entries, rfl, hhonest, fun rest hrest => absurd hrest (by simp),
      fun x hx _ => Or.inl hx, fun chain => Or.inl rfl, ?_, ?_, ?_, ?_⟩
    · intro x _ hle
      exact Or.inl (decide_eq_true hle)
    · intro s hs
      rw [hsent] at hs
      exact absurd hs (List.not_mem_nil)
    · show (bundlesOf c.sent).Pairwise Earlier
      rw [hsent]
      exact List.Pairwise.nil
    · intro s hs
      rw [hsent] at hs
      exact absurd hs (List.not_mem_nil)
  · rw [hm.map_eq]
    exact Or.inr ⟨m, hm⟩

theorem Connection.Ok.onReceivedBundle {rest : List BundleView}
    (h : c.Ok times stored (b :: rest)) (hmem : times b.info.chain b.info.timestamp) :
    (c.onReceivedBundle b.info).Ok times stored rest := by
  rcases h with ⟨hnone, hscan, hsent⟩ | ⟨m, hm⟩
  · refine Or.inl ⟨?_, hscan, ?_⟩
    · show c.peerHasMap.map (fun hasMap => hasMap.markAsHaving b.info) = none
      rw [hnone]
      rfl
    · show bundlesOf (c.sent ++ [Message.ack b.info.chain b.info.timestamp]) = []
      rw [bundlesOf_append, hsent]
      rfl
  · refine Or.inr ⟨_, (hm.onReceivedBundle hmem).broadcasted ?_⟩
    have := m.has_markAsHaving b.info
    unfold HasMap.has at this
    exact of_decide_eq_true this

theorem Connection.Ok.more (h : c.Ok times stored pending) (hnew : ∀ x, stored x → Earlier x b) :
    c.Ok times (fun x => stored x ∨ x = b) (pending ++ [b]) :=
  h.imp id fun ⟨m, hm⟩ => ⟨m, hm.more hnew⟩

theorem Connection.Ok.onAck (h : c.Ok times stored pending) (chain : Chain) (time : U64) :
    (c.onAck chain time).Ok times stored pending := by
  unfold Connection.onAck
  split
  · exact h
  · split_ifs
    · exact h.imp id fun ⟨m, hm⟩ => ⟨m, hm.map_eq, hm.honest, hm.rows, hm.lacking, hm.ends,
        hm.reached, hm.sent, hm.ordered, hm.gapless⟩
    · exact h

end Served

/-! ## §3. The store. -/

namespace Store

variable {lib : Sodium} {store : Store lib} {bundle : BundleView}

theorem checkChain_eq_true {old : Option BundleInfo} (h : checkChain old bundle = .ok true) :
    (old = none ∧ bundle.info.previous = 0) ∨
      ∃ info, old = some info ∧ info.timestamp < bundle.info.timestamp ∧
        info.timestamp = bundle.info.previous := by
  unfold checkChain at h
  cases old with
  | none =>
      by_cases hp : bundle.info.previous = 0
      · exact Or.inl ⟨rfl, hp⟩
      · simp [hp] at h
  | some info =>
      dsimp only at h
      by_cases hle : bundle.info.timestamp ≤ info.timestamp
      · simp [hle] at h
      · rw [if_neg hle] at h
        by_cases hp : bundle.info.previous = 0 ∨ info.timestamp ≠ bundle.info.previous
        · simp [hp] at h
        · rw [not_or, not_not] at hp
          exact Or.inr ⟨info, rfl, not_le.mp hle, hp.2⟩

theorem chainKey_chainInfos {store' : Store lib} {key : Bytes}
    (h : store.chainKey bundle = .ok (store', key)) : store'.chainInfos = store.chainInfos := by
  unfold chainKey at h
  split_ifs at h
  · simp only [Except.ok.injEq, Prod.mk.injEq] at h
    rw [← h.1]
  · split at h
    · simp at h
    · simp only [Except.ok.injEq, Prod.mk.injEq] at h
      rw [← h.1]

/-- What a bundle that is added does to the ends of the chains. -/
theorem addBundle_added (h : (store.addBundle bundle).2 = .ok true) :
    checkChain (store.chainInfos.get? bundle.info.chain) bundle = .ok true ∧
      (store.addBundle bundle).1.chainInfos =
        store.chainInfos.put bundle.info.chain bundle.info := by
  unfold addBundle at h ⊢
  split at h
  · simp at h
  · simp at h
  · rename_i hcheck
    refine ⟨hcheck, ?_⟩
    split at h
    · simp at h
    · rename_i store' key hkey
      have hsame := chainKey_chainInfos hkey
      by_cases hv : lib.verify bundle.bytes key = true
      · simp only [hv, if_true, hsame]
      · simp [hv] at h

/-- A bundle that is not added leaves them. -/
theorem addBundle_refused (h : (store.addBundle bundle).2 ≠ .ok true) :
    (store.addBundle bundle).1.chainInfos = store.chainInfos := by
  unfold addBundle at h ⊢
  split
  · rfl
  · rfl
  · rename_i hcheck
    split
    · rfl
    · rename_i store' key hkey
      have hsame := chainKey_chainInfos hkey
      by_cases hv : lib.verify bundle.bytes key = true
      · simp [hcheck, hkey, hv] at h
      · simp only [hv, Bool.false_eq_true, if_false, hsame]

end Store

namespace Peered

variable {lib : Sodium} {db : Peered lib} {times : Chain → U64 → Prop}

/-! ## §4. When nothing is overtaken. -/

/-- The store holds the bundle. -/
def Stored (db : Peered lib) (b : BundleView) : Prop := b ∈ db.trxns.rows.map (·.2)

/-- The bundles that were added and wait to be broadcast. -/
def pending (db : Peered lib) : List BundleView := db.added.map (·.bundle)

/-- The steps that keep each chain in order: chains do not fork and greetings speak of them,
what the store has put in is answered as added, and no bundle is broadcast to a peer to which
a cursor has yet to bring an earlier one of its chain that the peer lacks. -/
def Paced (times : Chain → U64 → Prop) (db : Peered lib) : Event → Prop
  | .message _ (.greeting entries) => Honest times (.ofGreeting entries)
  | .settled outcome => outcome ≠ .throws ∧ ∀ arrival ∈ db.writes.head?,
      (db.store.addBundle arrival.bundle).2 = .ok true → Genuine times arrival.bundle.info
  | .goOn => ∀ arrival ∈ db.added.head?, ∀ x ∈ db.connections,
      arrival.fromConnectionId ≠ some x.1 → ∀ m, x.2.peerHasMap = some m →
        ∀ r, x.2.scan.brings db.Stored r → r.info.chain = arrival.bundle.info.chain →
          r.info.timestamp < arrival.bundle.info.timestamp →
            r.info.timestamp ≤ m.seenThrough r.info.chain
  | _ => True

/-! ## §5. The invariant. -/

structure Inv (times : Chain → U64 → Prop) (db : Peered lib) : Prop where
  keyed : ∀ r ∈ db.trxns.rows, r.1 = trxnKey r.2.info
  whole : Whole times db.Stored
  /-- the chains end where the store says -/
  upTo : ∀ b, db.Stored b → ∃ info, db.store.chainInfos.get? b.info.chain = some info ∧
    b.info.timestamp ≤ info.timestamp
  last : ∀ chain info, db.store.chainInfos.get? chain = some info →
    ∃ b, db.Stored b ∧ b.info.chain = chain ∧ b.info.timestamp = info.timestamp
  added : ∀ b ∈ db.pending, db.Stored b
  ordered : db.pending.Pairwise Earlier
  connections : ∀ x ∈ db.connections, x.2.Ok times db.Stored db.pending
  quiet : db.threw = false

/-- What matters of the store has not changed, and neither have the connections. -/
theorem Inv.others (h : Inv times db) {db' : Peered lib} (htrxns : db'.trxns = db.trxns)
    (hinfos : db'.store.chainInfos = db.store.chainInfos) (hadded : db'.added = db.added)
    (hconnections : ∀ x ∈ db'.connections, x.2.Ok times db.Stored db.pending)
    (hthrew : db'.threw = false) : Inv times db' := by
  have hstored : db'.Stored = db.Stored := by
    unfold Stored
    rw [htrxns]
  have hpending : db'.pending = db.pending := by
    unfold pending
    rw [hadded]
  refine ⟨?_, ?_, ?_, ?_, ?_, ?_, ?_, hthrew⟩
  · rw [htrxns]; exact h.keyed
  · rw [hstored]; exact h.whole
  · rw [hstored, hinfos]; exact h.upTo
  · rw [hstored, hinfos]; exact h.last
  · rw [hstored, hpending]; exact h.added
  · rw [hpending]; exact h.ordered
  · rw [hstored, hpending]; exact hconnections

/-- What changes one connection. -/
theorem Inv.update (h : Inv times db) (id : Nat) {f : Connection → Connection}
    (hf : ∀ c, c.Ok times db.Stored db.pending → (f c).Ok times db.Stored db.pending) :
    Inv times (db.update id f) := by
  refine h.others rfl rfl rfl ?_ h.quiet
  intro x hx
  obtain ⟨y, hy, rfl⟩ := List.mem_map.mp hx
  by_cases hid : y.1 = id
  · rw [if_pos hid]
    exact hf y.2 (h.connections y hy)
  · rw [if_neg hid]
    exact h.connections y hy

/-! ## §6. The steps. -/

theorem mem_stored_put {b x : BundleView} (hnew : db.trxns.get? (trxnKey b.info) = none) :
    x ∈ (db.trxns.put (trxnKey b.info) b).rows.map (·.2) ↔ db.Stored x ∨ x = b := by
  unfold Stored
  constructor
  · intro hx
    obtain ⟨r, hr, rfl⟩ := List.mem_map.mp hx
    rcases Table.mem_rows_put.mp hr with rfl | ⟨-, hold⟩
    · exact Or.inr rfl
    · exact Or.inl (List.mem_map.mpr ⟨r, hold, rfl⟩)
  · rintro (hx | rfl)
    · obtain ⟨r, hr, rfl⟩ := List.mem_map.mp hx
      refine List.mem_map.mpr ⟨r, Table.mem_rows_put.mpr (Or.inr ⟨?_, hr⟩), rfl⟩
      intro hkey
      have := Table.get?_eq_none_iff.mp hnew r hr
      exact this hkey
    · exact List.mem_map.mpr ⟨_, Table.mem_rows_put.mpr (Or.inl rfl), rfl⟩

theorem trxnKey_inj {i j : BundleInfo} (h : trxnKey i = trxnKey j) :
    i.timestamp = j.timestamp ∧ i.chain = j.chain := by
  unfold trxnKey at h
  simp only [EmbeddingLike.apply_eq_iff_eq, Prod.mk.injEq] at h
  exact ⟨h.1, by unfold BundleInfo.chain; rw [h.2.1, h.2.2.1]⟩

theorem trxnKey_le {i j : BundleInfo} (h : trxnKey i ≤ trxnKey j) : i.timestamp ≤ j.timestamp := by
  unfold trxnKey at h
  rcases Prod.Lex.le_iff.mp h with hlt | ⟨heq, -⟩
  · exact le_of_lt hlt
  · exact le_of_eq heq

/-- **A bundle is added**: it is later than all the store has of its chain. -/
theorem Inv.add (h : Inv times db) {arrival : Arrival} {rest : List Arrival}
    (hadded : (db.store.addBundle arrival.bundle).2 = .ok true)
    (hgenuine : Genuine times arrival.bundle.info) :
    Inv times { db with
      writes := rest
      store := (db.store.addBundle arrival.bundle).1
      trxns := db.trxns.put (trxnKey arrival.bundle.info) arrival.bundle
      added := db.added ++ [arrival] } := by
  obtain ⟨hcheck, hinfos⟩ := Store.addBundle_added hadded
  set b := arrival.bundle with hb
  have hnew : ∀ x, db.Stored x → Earlier x b := by
    intro x hx hchain
    obtain ⟨info, hinfo, hle⟩ := h.upTo x hx
    rw [hchain] at hinfo
    rcases Store.checkChain_eq_true hcheck with ⟨hnone, -⟩ | ⟨old, hold, hlt, -⟩
    · rw [hnone] at hinfo
      exact absurd hinfo (by simp)
    · obtain rfl : info = old := Option.some.inj (hinfo.symm.trans hold)
      exact hle.trans_lt hlt
  have hfresh : db.trxns.get? (trxnKey b.info) = none := by
    rw [Table.get?_eq_none_iff]
    intro r hr hkey
    obtain ⟨htime, hchain⟩ := trxnKey_inj ((h.keyed r hr).symm.trans hkey)
    have hlt := hnew r.2 (List.mem_map.mpr ⟨r, hr, rfl⟩) hchain
    exact absurd htime (ne_of_lt hlt)
  set db' : Peered lib := { db with
    writes := rest
    store := (db.store.addBundle b).1
    trxns := db.trxns.put (trxnKey b.info) b
    added := db.added ++ [arrival] } with hdb'
  have hstored : db'.Stored = fun x => db.Stored x ∨ x = b := by
    funext x
    exact propext (mem_stored_put hfresh)
  have hpending : db'.pending = db.pending ++ [b] := List.map_append
  have hget : db'.store.chainInfos = db.store.chainInfos.put b.info.chain b.info := hinfos
  refine ⟨?_, ?_, ?_, ?_, ?_, ?_, ?_, h.quiet⟩
  · intro r hr
    rcases Table.mem_rows_put.mp hr with rfl | ⟨-, hold⟩
    · rfl
    · exact h.keyed r hold
  · rw [hstored]
    refine ⟨?_, ?_, ?_⟩
    · rintro x (hx | rfl)
      · exact h.whole.genuine x hx
      · exact hgenuine
    · rintro x (hx | rfl)
      · refine (h.whole.prior x hx).imp id ?_
        exact fun ⟨p, hp, hrest⟩ => ⟨p, Or.inl hp, hrest⟩
      · rcases Store.checkChain_eq_true hcheck with ⟨-, hzero⟩ | ⟨old, hold, -, htime⟩
        · exact Or.inl hzero
        · obtain ⟨p, hp, hchain, hptime⟩ := h.last _ old hold
          exact Or.inr ⟨p, Or.inl hp, hchain, hptime.trans htime⟩
    · rintro x y (hx | rfl) (hy | rfl) hchain htime
      · exact h.whole.unique x y hx hy hchain htime
      · exact absurd htime (ne_of_lt (hnew x hx hchain))
      · exact absurd htime.symm (ne_of_lt (hnew y hy hchain.symm))
      · rfl
  · rw [hstored]
    rintro x (hx | rfl)
    · rw [hget]
      by_cases hchain : x.info.chain = b.info.chain
      · rw [hchain, Table.get?_put_self]
        exact ⟨b.info, rfl, le_of_lt (hnew x hx hchain)⟩
      · rw [Table.get?_put_of_ne _ _ hchain]
        exact h.upTo x hx
    · rw [hget, Table.get?_put_self]
      exact ⟨_, rfl, le_refl _⟩
  · rw [hstored]
    intro chain info hinfo
    rw [hget] at hinfo
    by_cases hchain : chain = b.info.chain
    · rw [hchain, Table.get?_put_self] at hinfo
      obtain rfl : b.info = info := Option.some.inj hinfo
      exact ⟨b, Or.inr rfl, hchain.symm, rfl⟩
    · rw [Table.get?_put_of_ne _ _ hchain] at hinfo
      obtain ⟨x, hx, hrest⟩ := h.last chain info hinfo
      exact ⟨x, Or.inl hx, hrest⟩
  · rw [hstored, hpending]
    intro x hx
    rcases List.mem_append.mp hx with hold | hlast
    · exact Or.inl (h.added x hold)
    · exact Or.inr (List.mem_singleton.mp hlast)
  · rw [hpending, List.pairwise_append]
    refine ⟨h.ordered, List.pairwise_singleton _ _, ?_⟩
    intro x hx y hy
    rw [List.mem_singleton.mp hy]
    exact hnew x (h.added x hx)
  · rw [hstored, hpending]
    exact fun x hx => (h.connections x hx).more hnew

theorem Inv.settle (h : Inv times db) {outcome : Database.Outcome} (hout : outcome ≠ .throws)
    (hgenuine : ∀ arrival ∈ db.writes.head?,
      (db.store.addBundle arrival.bundle).2 = .ok true → Genuine times arrival.bundle.info) :
    Inv times (db.settle outcome) := by
  unfold Peered.settle
  split
  · exact h
  · rename_i arrival rest hwrites
    by_cases hfails : outcome = .fails
    · rw [if_pos hfails]
      exact h.others rfl rfl rfl h.connections h.quiet
    · rw [if_neg hfails]
      have hcompletes : outcome = .completes := by
        cases outcome with
        | completes => rfl
        | fails => exact absurd rfl hfails
        | throws => exact absurd rfl hout
      by_cases hadded : (db.store.addBundle arrival.bundle).2 = .ok true
      · simp only [hadded, hcompletes, if_true]
        exact h.add hadded (hgenuine arrival (by rw [hwrites]; rfl) hadded)
      · have hrefused : Inv times { db with
            writes := rest
            store := (db.store.addBundle arrival.bundle).1 } :=
          h.others rfl (Store.addBundle_refused hadded) rfl h.connections h.quiet
        dsimp only
        split
        · contradiction
        · exact hrefused

/-- **A bundle is broadcast** to connections to which no cursor has yet to bring an earlier
one. -/
theorem broadcast_ok {stored : BundleView → Prop} {b : BundleView} {rest : List BundleView}
    (hwhole : Whole times stored) (hb : stored b) (hordered : (b :: rest).Pairwise Earlier)
    (fromConnectionId : Option Nat) {l : List (Nat × Connection)}
    (hfrom : ∀ x ∈ l, fromConnectionId = some x.1 → x.2.Ok times stored rest)
    (hothers : ∀ x ∈ l, fromConnectionId ≠ some x.1 → x.2.Ok times stored (b :: rest) ∧
      ∀ m, x.2.peerHasMap = some m → ∀ r, x.2.scan.brings stored r →
        r.info.chain = b.info.chain → r.info.timestamp < b.info.timestamp →
          r.info.timestamp ≤ m.seenThrough r.info.chain) :
    (broadcast b fromConnectionId l).2 = false ∧
      ∀ x ∈ (broadcast b fromConnectionId l).1, x.2.Ok times stored rest := by
  induction l with
  | nil => exact ⟨rfl, fun x hx => absurd hx (List.not_mem_nil)⟩
  | cons x l ih =>
      obtain ⟨id, peer⟩ := x
      obtain ⟨hquiet, hok⟩ := ih (fun x hx => hfrom x (List.mem_cons_of_mem _ hx))
        (fun x hx => hothers x (List.mem_cons_of_mem _ hx))
      unfold broadcast
      by_cases hid : fromConnectionId = some id
      · rw [if_pos hid]
        refine ⟨hquiet, ?_⟩
        intro x hx
        rcases List.mem_cons.mp hx with rfl | hrest
        · exact hfrom _ List.mem_cons_self hid
        · exact hok x hrest
      · rw [if_neg hid]
        obtain ⟨hpeer, hpace⟩ := hothers _ List.mem_cons_self hid
        -- the peer has not greeted and is sent nothing, or it is sent the bundle
        obtain ⟨peer', hsend, hpeer'⟩ : ∃ peer', peer.sendIfNeeded b = .ok peer' ∧
            peer'.Ok times stored rest := by
          rcases hpeer with ⟨hnone, hrest⟩ | ⟨m, hm⟩
          · refine ⟨peer, ?_, Or.inl ⟨hnone, hrest⟩⟩
            unfold Connection.sendIfNeeded
            rw [hnone]
          · have hprior : ∀ p, stored p → p.info.chain = b.info.chain →
                p.info.timestamp = b.info.previous →
                  p.info.timestamp ≤ m.seenThrough p.info.chain := by
              intro p hp hchain htime
              have hlt : p.info.timestamp < b.info.timestamp := by
                rw [htime]
                exact (hwhole.genuine b hb).lt
              by_contra hlacks
              rcases hm.lacking p hp (not_le.mp hlacks) with hrow | ⟨hmem, -⟩
              · exact hlacks (hpace m hm.map_eq p hrow hchain hlt)
              · rcases List.mem_cons.mp hmem with rfl | hlater
                · exact absurd hlt (lt_irrefl _)
                · have := (List.pairwise_cons.mp hordered).1 p hlater hchain.symm
                  exact absurd hlt (not_lt.mpr (le_of_lt this))
            obtain ⟨peer', hsend, -, hserved⟩ := hm.sendIfNeeded hwhole hb hprior
            refine ⟨peer', hsend, Or.inr ⟨_, hserved.broadcasted ?_⟩⟩
            exact of_decide_eq_true (m.has_markAsHaving b.info)
        rw [hsend]
        refine ⟨hquiet, ?_⟩
        intro x hx
        rcases List.mem_cons.mp hx with rfl | hrest
        · exact hpeer'
        · exact hok x hrest

theorem acknowledge_fields (db : Peered lib) (arrival : Arrival) :
    (db.acknowledge arrival).trxns = db.trxns ∧ (db.acknowledge arrival).store = db.store ∧
      (db.acknowledge arrival).added = db.added ∧
        (db.acknowledge arrival).threw = db.threw := by
  unfold acknowledge
  split <;> exact ⟨rfl, rfl, rfl, rfl⟩

/-- Which connections there are after the one a bundle came from was told. -/
theorem mem_acknowledge {arrival : Arrival} {x : Nat × Connection}
    (hx : x ∈ (db.acknowledge arrival).connections) :
    (arrival.fromConnectionId ≠ some x.1 ∧ x ∈ db.connections) ∨
      arrival.fromConnectionId = some x.1 ∧
        ∃ c, (x.1, c) ∈ db.connections ∧ x.2 = c.onReceivedBundle arrival.bundle.info := by
  unfold acknowledge at hx
  cases hid : arrival.fromConnectionId with
  | none =>
      rw [hid] at hx
      exact Or.inl ⟨by simp, hx⟩
  | some id =>
      rw [hid] at hx
      obtain ⟨y, hy, rfl⟩ := List.mem_map.mp hx
      by_cases hyid : y.1 = id
      · rw [if_pos hyid]
        exact Or.inr ⟨by rw [hyid], y.2, hy, rfl⟩
      · rw [if_neg hyid]
        exact Or.inl ⟨fun he => hyid (Option.some.inj he).symm, hy⟩

/-- **A bundle that was added goes out**. -/
theorem Inv.goOn (h : Inv times db) (hpace : db.Paced times .goOn) : Inv times db.goOn := by
  unfold Peered.goOn
  split
  · exact h
  · rename_i arrival rest hadded
    have hpending : db.pending = arrival.bundle :: rest.map (·.bundle) := by
      unfold pending
      rw [hadded]
      rfl
    have hb : db.Stored arrival.bundle := h.added _ (by rw [hpending]; exact List.mem_cons_self)
    have hordered := h.ordered
    have hconnections := h.connections
    rw [hpending] at hordered hconnections
    have hmem := (h.whole.genuine _ hb).mem
    have hpace := hpace arrival (by rw [hadded]; rfl)
    set db₁ : Peered lib :=
      { db with added := rest, iHave := db.iHave.markAsHaving arrival.bundle.info } with hdb₁
    obtain ⟨htrxns, hstore, hrest, hthrew⟩ := acknowledge_fields db₁ arrival
    obtain ⟨hquiet, hok⟩ := @broadcast_ok times db.Stored arrival.bundle (rest.map (·.bundle))
      h.whole hb hordered arrival.fromConnectionId (db₁.acknowledge arrival).connections
      (by
        intro x hx he
        rcases mem_acknowledge hx with ⟨hne, -⟩ | ⟨-, c, hc, hxc⟩
        · exact absurd he hne
        · rw [hxc]
          exact (hconnections _ hc).onReceivedBundle hmem)
      (by
        intro x hx he
        rcases mem_acknowledge hx with ⟨-, hx'⟩ | ⟨hfrom, -⟩
        · exact ⟨hconnections x hx', hpace x hx' he⟩
        · exact absurd hfrom he)
    have hstored : ((db₁.acknowledge arrival).publish arrival).Stored = db.Stored := by
      show (db₁.acknowledge arrival).Stored = db.Stored
      unfold Stored
      rw [htrxns]
    have hpending' : ((db₁.acknowledge arrival).publish arrival).pending = rest.map (·.bundle) := by
      show (db₁.acknowledge arrival).pending = rest.map (·.bundle)
      unfold pending
      rw [hrest]
    have hinfos : ((db₁.acknowledge arrival).publish arrival).store = db.store := hstore
    refine ⟨?_, ?_, ?_, ?_, ?_, ?_, ?_, ?_⟩
    · show ∀ r ∈ (db₁.acknowledge arrival).trxns.rows, r.1 = trxnKey r.2.info
      rw [htrxns]
      exact h.keyed
    · rw [hstored]
      exact h.whole
    · rw [hstored, hinfos]
      exact h.upTo
    · rw [hstored, hinfos]
      exact h.last
    · rw [hstored, hpending']
      exact fun b hb => h.added b (by rw [hpending]; exact List.mem_cons_of_mem _ hb)
    · rw [hpending']
      exact (List.pairwise_cons.mp hordered).2
    · rw [hstored, hpending']
      exact hok
    · show ((db₁.acknowledge arrival).threw || _) = false
      rw [hthrew, hquiet, Bool.or_false]
      exact h.quiet

/-- The rows of the store, chain by chain in order. -/
theorem Inv.rows (h : Inv times db) : (db.trxns.rows.map (·.2)).Pairwise Earlier := by
  rw [List.pairwise_map]
  refine List.Pairwise.imp_of_mem ?_ db.trxns.sorted
  intro r r' hr hr' hlt hchain
  rw [h.keyed r hr, h.keyed r' hr'] at hlt
  refine lt_of_le_of_ne (trxnKey_le (le_of_lt hlt)) ?_
  intro htime
  have := h.whole.unique r.2 r'.2 (List.mem_map.mpr ⟨r, hr, rfl⟩)
    (List.mem_map.mpr ⟨r', hr', rfl⟩) hchain htime
  rw [this] at hlt
  exact absurd hlt (lt_irrefl _)

theorem Inv.openCursor (h : Inv times db) (id : Nat) : Inv times (db.openCursor id) := by
  refine h.update id ?_
  intro c hc
  cases hs : c.scan with
  | idle => exact hc
  | going rest => exact hc
  | asked =>
      rcases hc with ⟨-, hidle, -⟩ | ⟨m, hm⟩
      · rw [hidle] at hs
        exact absurd hs (by simp)
      · exact Or.inr ⟨m, hm.opened (fun x => Iff.rfl) h.rows⟩

/-- **The cursor brings a row**: the peer has the bundle before it by now. -/
theorem nextRow_ok {stored : BundleView → Prop} {pending : List BundleView} {c : Connection}
    (hwhole : Whole times stored) (h : c.Ok times stored pending) :
    (nextRow c).2 = false ∧ (nextRow c).1.Ok times stored pending := by
  unfold nextRow
  split
  · rename_i hs
    rcases h with ⟨-, hidle, -⟩ | ⟨m, hm⟩
    · rw [hidle] at hs
      exact absurd hs (by simp)
    · exact ⟨rfl, Or.inr ⟨m, hm.finished hs⟩⟩
  · rename_i b rest hs
    rcases h with ⟨-, hidle, -⟩ | ⟨m, hm⟩
    · rw [hidle] at hs
      exact absurd hs (by simp)
    · obtain ⟨hordered, hrows⟩ := hm.rows _ hs
      have hb : stored b := hrows b List.mem_cons_self
      have hprior : ∀ p, stored p → p.info.chain = b.info.chain →
          p.info.timestamp = b.info.previous → p.info.timestamp ≤ m.seenThrough p.info.chain := by
        intro p hp hchain htime
        have hlt : p.info.timestamp < b.info.timestamp := by
          rw [htime]
          exact (hwhole.genuine b hb).lt
        -- it was brought before, and what is not brought at all is later than this row
        by_contra hlacks
        rcases hm.lacking p hp (not_le.mp hlacks) with hrow | ⟨-, hafter⟩
        · rw [hs] at hrow
          rcases List.mem_cons.mp hrow with rfl | hlater
          · exact absurd hlt (lt_irrefl _)
          · have := (List.pairwise_cons.mp hordered).1 p hlater hchain.symm
            exact absurd hlt (not_lt.mpr (le_of_lt this))
        · have := hafter b (by rw [hs]; exact List.mem_cons_self) hchain.symm
          exact absurd hlt (not_lt.mpr (le_of_lt this))
      obtain ⟨c', hsend, hscan, hserved⟩ := hm.sendIfNeeded hwhole hb hprior
      rw [hsend]
      refine ⟨rfl, Or.inr ⟨_, hserved.passed (hscan.trans hs) ?_⟩⟩
      exact of_decide_eq_true (m.has_markAsHaving b.info)
  · exact ⟨rfl, h⟩

theorem Inv.continueCursor (h : Inv times db) (id : Nat) : Inv times (db.continueCursor id) := by
  have hquiet : (db.connections.any fun x => decide (x.1 = id) && (nextRow x.2).2) = false := by
    rw [List.any_eq_false]
    intro x hx
    rw [(nextRow_ok h.whole (h.connections x hx)).1]
    simp
  have hupdate := @Inv.update _ _ _ h id (fun c => (nextRow c).1)
    (fun c hc => (nextRow_ok h.whole hc).2)
  unfold Peered.continueCursor
  refine hupdate.others rfl rfl rfl hupdate.connections ?_
  show (db.threw || _) = false
  rw [hquiet, Bool.or_false]
  exact h.quiet

theorem Inv.connect (h : Inv times db) (id : Nat) : Inv times (db.connect id) := by
  unfold Peered.connect
  split_ifs
  · exact h
  · refine h.others rfl rfl rfl ?_ h.quiet
    intro x hx
    rcases List.mem_append.mp hx with hold | hnew
    · exact h.connections x hold
    · obtain rfl := List.mem_singleton.mp hnew
      exact Or.inl ⟨rfl, rfl, rfl⟩

/-- **One step**. -/
theorem Inv.step (h : Inv times db) (event : Event) (hp : db.Paced times event) :
    Inv times (db.step event) := by
  cases event with
  | connect id => exact h.connect id
  | message id message =>
      show Inv times (if id ∈ db.connections.map (·.1) then db.receiveMessage id message else db)
      split_ifs
      · cases message with
        | bundle bundle => exact h.others rfl rfl rfl h.connections h.quiet
        | greeting entries => exact h.update id fun c hc => hc.onGreeting hp
        | ack chain timestamp => exact h.update id fun c hc => hc.onAck chain timestamp
        | signal signal => exact h
      · exact h
  | commit bundle => exact h.others rfl rfl rfl h.connections h.quiet
  | settled outcome => exact h.settle hp.1 hp.2
  | goOn => exact h.goOn hp
  | openCursor id => exact h.openCursor id
  | continueCursor id => exact h.continueCursor id

/-! ## §7. Runs. -/

/-- A database on a store that holds whole chains, before it has any connection. -/
structure Opened (times : Chain → U64 → Prop) (db : Peered lib) : Prop where
  keyed : ∀ r ∈ db.trxns.rows, r.1 = trxnKey r.2.info
  whole : Whole times db.Stored
  upTo : ∀ b, db.Stored b → ∃ info, db.store.chainInfos.get? b.info.chain = some info ∧
    b.info.timestamp ≤ info.timestamp
  last : ∀ chain info, db.store.chainInfos.get? chain = some info →
    ∃ b, db.Stored b ∧ b.info.chain = chain ∧ b.info.timestamp = info.timestamp
  connections : db.connections = []
  added : db.added = []
  quiet : db.threw = false

theorem Opened.inv (h : Opened times db) : Inv times db := by
  refine ⟨h.keyed, h.whole, h.upTo, h.last, ?_, ?_, ?_, h.quiet⟩
  · intro b hb
    rw [pending, h.added] at hb
    exact absurd hb (List.not_mem_nil)
  · rw [pending, h.added]
    exact List.Pairwise.nil
  · rw [h.connections]
    exact fun x hx => absurd hx (List.not_mem_nil)

/-- What each connection was sent is in order, each bundle once and none before the one it
names is with the peer. -/
def InOrder (db : Peered lib) : Prop :=
  ∀ x ∈ db.connections, (bundlesOf x.2.sent).Nodup ∧ (bundlesOf x.2.sent).Pairwise Earlier ∧
    ∀ s ∈ bundlesOf x.2.sent, s.info.previous = 0 ∨ x.2.Ends s.info.chain s.info.previous

/-- Nothing is under way. -/
def Settled (db : Peered lib) : Prop :=
  db.writes = [] ∧ db.added = [] ∧ ∀ x ∈ db.connections, x.2.scan = .idle

/-- Every peer that has greeted has each stored bundle: it said so, it was sent it, or it sent
one as late itself. -/
def AllServed (db : Peered lib) : Prop :=
  ∀ x ∈ db.connections, x.2.peerHasMap.isSome → ∀ b, db.Stored b → x.2.Reached b

theorem Inv.inOrder (h : Inv times db) : db.InOrder := by
  intro x hx
  rcases h.connections x hx with ⟨-, -, hsent⟩ | ⟨m, hm⟩
  · rw [hsent]
    exact ⟨List.nodup_nil, List.Pairwise.nil, fun s hs => absurd hs (List.not_mem_nil)⟩
  · refine ⟨?_, hm.ordered, hm.gapless⟩
    refine hm.ordered.imp ?_
    intro a b hearlier heq
    rw [heq] at hearlier
    exact absurd (hearlier rfl) (lt_irrefl _)

theorem Inv.allServed (h : Inv times db) (hsettled : db.Settled) : db.AllServed := by
  obtain ⟨-, hadded, hscan⟩ := hsettled
  intro x hx hgreeted b hb
  rcases h.connections x hx with ⟨hnone, -, -⟩ | ⟨m, hm⟩
  · rw [hnone] at hgreeted
    exact absurd hgreeted (by simp)
  · refine hm.reached b hb ?_
    by_contra hlacks
    rcases hm.lacking b hb (not_le.mp hlacks) with hrow | ⟨hmem, -⟩
    · rw [hscan x hx] at hrow
      exact hrow
    · rw [pending, hadded] at hmem
      exact absurd hmem (List.not_mem_nil)

/-- **Peers are served** along every run in which no bundle is broadcast to a peer ahead of an
earlier one of its chain that a cursor has yet to bring. -/
theorem backlog_served (hopened : Opened times db) (events : List Event)
    (h : Machine.AllSteps step (Paced times) db events) :
    (Machine.run step db events).threw = false ∧ InOrder (Machine.run step db events) ∧
      (Settled (Machine.run step db events) → AllServed (Machine.run step db events)) := by
  have hinv := Machine.run_invariant (fun db event (hi : Inv times db) hp => hi.step event hp)
    events db hopened.inv h
  exact ⟨hinv.quiet, hinv.inOrder, hinv.allServed⟩

/-! ## §8. Two runs. -/

/-- The times of the chain of the two bundles. -/
def timesOfTwo (chain : Chain) (time : U64) : Prop := chain = ⟨7, 1⟩ ∧ (time = 1 ∨ time = 2)

theorem genuine_of_two : Genuine timesOfTwo firstOfTwo.info ∧ Genuine timesOfTwo secondOfTwo.info := by
  refine ⟨⟨⟨rfl, Or.inl rfl⟩, by decide, ?_, fun _ => rfl⟩,
    ⟨⟨rfl, Or.inr rfl⟩, by decide, ?_, by decide⟩⟩
  · rintro time ⟨-, rfl | rfl⟩ hlt
    · exact absurd hlt (by decide)
    · exact absurd hlt (by decide)
  · rintro time ⟨-, rfl | rfl⟩ hlt
    · decide
    · exact absurd hlt (by decide)

/-- The first is stored, a peer greets, and the second comes when the cursor is through. -/
def inTurn : List Event :=
  [.commit firstOfTwo, .settled .completes, .goOn, .connect 1, .message 1 (.greeting []),
    .openCursor 1, .continueCursor 1, .continueCursor 1, .commit secondOfTwo, .settled .completes,
    .goOn]

theorem backlog_served_inTurn :
    AllServed (Machine.run step ({} : Peered Sodium.unsigned) inTurn) := by
  have hempty : ∀ b, ¬ ({} : Peered Sodium.unsigned).Stored b := fun b hb =>
    absurd hb (List.not_mem_nil)
  have hopened : Opened timesOfTwo ({} : Peered Sodium.unsigned) :=
    ⟨fun r hr => absurd hr (List.not_mem_nil),
      ⟨fun b hb => absurd hb (hempty b), fun b hb => absurd hb (hempty b),
        fun b _ hb => absurd hb (hempty b)⟩,
      fun b hb => absurd hb (hempty b), fun chain info hinfo => absurd hinfo (by simp),
      rfl, rfl, rfl⟩
  refine (backlog_served hopened inTurn ?_).2.2 ⟨rfl, rfl, ?_⟩
  refine ⟨trivial, ⟨by decide, ?_⟩, ?_, trivial, ?_, trivial, trivial, trivial, trivial,
    ⟨by decide, ?_⟩, ?_, trivial⟩
  · intro arrival harrival _
    obtain rfl := Option.some.inj harrival
    exact genuine_of_two.1
  · intro arrival _ x hx
    exact absurd hx (List.not_mem_nil)
  · intro chain
    exact Or.inl rfl
  · intro arrival harrival _
    obtain rfl := Option.some.inj harrival
    exact genuine_of_two.2
  · intro arrival _ x hx _ m _ r hr
    obtain rfl := List.mem_singleton.mp hx
    exact absurd hr id
  · intro x hx
    obtain rfl := List.mem_singleton.mp hx
    rfl

/-- The peer greets while the second bundle is on its way, which is broadcast before the
cursor is open. -/
def overtaken : List Event :=
  [.commit firstOfTwo, .settled .completes, .goOn, .connect 1, .commit secondOfTwo,
    .settled .completes, .message 1 (.greeting []), .goOn]

/-- **Overtaken**: `sendIfNeeded` throws. -/
theorem backlog_overtaken :
    (Machine.run step ({} : Peered Sodium.unsigned) overtaken).threw = true := by
  decide

end Peered

end Js

end Gink
