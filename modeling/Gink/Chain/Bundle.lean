/-
  Gink.Chain.Bundle — how the bundles of one chain are linked.

  A bundle names its predecessor twice: `previous` is the predecessor's timestamp
  and `prior_hash` its hash.  The first bundle of a chain names nobody and carries
  the timestamp that names the chain.
-/
import Gink.Chain.Linked
import Gink.Proto.BundleInfo

namespace Gink

/-- `decomposition` is the first bundle of `chain`. -/
def StartsChain (lib : Externals) (chain : Chain) (d : Decomposition) : Prop :=
  ∃ b, d.getBuilder lib = .ok b ∧ (⟨b.medallion, b.chainStart⟩ : Chain) = chain ∧
    b.timestamp = b.chainStart ∧ b.previous = 0

/-- `e` is a later bundle of the same chain and names `d` as the bundle before it. -/
def LinksTo (lib : Externals) (chain : Chain) (d e : Decomposition) : Prop :=
  ∃ b b', d.getBuilder lib = .ok b ∧ e.getBuilder lib = .ok b' ∧
    (⟨b'.medallion, b'.chainStart⟩ : Chain) = chain ∧
    b'.previous = b.timestamp ∧ b'.priorHash = lib.digest d.bundleBytes ∧
    b.timestamp < b'.timestamp

/-- Whether a bundle belongs to `chain`. -/
def inChain (lib : Externals) (chain : Chain) (d : Decomposition) : Bool :=
  (d.getInfo lib).toOption.any (fun info => decide (info.chain = chain))

/-- The bundles of `chain` form one linked list and `last` is the info of its end. -/
structure ChainLinked (lib : Externals) (chain : Chain) (l : List Decomposition)
    (last : Option BundleInfo) : Prop where
  linked : Linked (StartsChain lib chain) (LinksTo lib chain) l
  last_eq : l.getLast?.map (Decomposition.getInfo lib) = last.map .ok

namespace ChainLinked

variable {lib : Externals} {chain : Chain} {l : List Decomposition} {last : Option BundleInfo}

theorem nil : ChainLinked lib chain [] none := ⟨Linked.nil, rfl⟩

/-- Timestamps strictly increase along the list. -/
theorem timestamps (h : ChainLinked lib chain l last) :
    l.Pairwise fun d e => ∃ b b', d.getBuilder lib = .ok b ∧ e.getBuilder lib = .ok b' ∧
      b.timestamp < b'.timestamp := by
  have : IsTrans Decomposition fun d e => ∃ b b', d.getBuilder lib = .ok b ∧
      e.getBuilder lib = .ok b' ∧ b.timestamp < b'.timestamp := by
    refine ⟨?_⟩
    rintro d e f ⟨b, b', hd, he, hlt⟩ ⟨c, c', he', hf, hlt'⟩
    rw [he] at he'
    injection he' with he'
    subst he'
    exact ⟨b, c', hd, hf, hlt.trans hlt'⟩
  refine h.linked.pairwise ?_
  rintro d e ⟨b, b', hd, he, -, -, -, hlt⟩
  exact ⟨b, b', hd, he, hlt⟩

/-- The last item carries the info `last`. -/
theorem getInfo_last (h : ChainLinked lib chain l last) {d : Decomposition}
    (hd : l.getLast? = some d) : ∃ info, last = some info ∧ d.getInfo lib = .ok info := by
  have hl := h.last_eq
  rw [hd] at hl
  cases last with
  | none => simp at hl
  | some info => exact ⟨info, rfl, by simpa using hl⟩

/-- No bundle of the list is newer than its last one. -/
theorem timestamp_le (h : ChainLinked lib chain l last) {d : Decomposition} (hd : d ∈ l) :
    ∃ info latest, d.getInfo lib = .ok info ∧ last = some latest ∧
      info.timestamp ≤ latest.timestamp := by
  have hpair := h.timestamps
  cases hl : l.getLast? with
  | none =>
      rw [List.getLast?_eq_none_iff.mp hl] at hd
      exact absurd hd (by simp)
  | some e =>
      obtain ⟨latest, hlast, he⟩ := h.getInfo_last hl
      obtain ⟨l', rfl⟩ := List.getLast?_eq_some_iff.mp hl
      rcases List.mem_append.mp hd with hd | hd
      · obtain ⟨b, b', hb, hb', hlt⟩ := (List.pairwise_append.mp hpair).2.2 d hd e (by simp)
        refine ⟨.ofBuilder b (lib.digest d.bundleBytes), latest, ?_, hlast, ?_⟩
        · simp [Decomposition.getInfo, hb, Except.map]
        · simp only [Decomposition.getInfo, hb', Except.map, Except.ok.injEq] at he
          rw [← he]
          exact hlt.le
      · obtain rfl := List.mem_singleton.mp hd
        exact ⟨latest, latest, he, hlast, le_refl _⟩

/-- No bundle of the list is older than the chain. -/
theorem start_le (h : ChainLinked lib chain l last) {info : BundleInfo} (hlast : last = some info) :
    chain.chainStart ≤ info.timestamp := by
  have hl := h.last_eq
  rw [hlast] at hl
  cases l with
  | nil => simp at hl
  | cons d rest =>
      obtain ⟨b, hb, hc, ht, -⟩ := h.linked.head d rfl
      obtain ⟨i, latest, hi, hlatest, hle⟩ := h.timestamp_le List.mem_cons_self
      rw [hlast] at hlatest
      injection hlatest with hlatest
      simp only [Decomposition.getInfo, hb, Except.map, Except.ok.injEq] at hi
      rw [hlatest, ← hc]
      show b.chainStart ≤ latest.timestamp
      rw [← ht]
      rw [← hi] at hle
      exact hle

/-- **One more bundle**: a needed bundle whose `prior_hash` was checked against the
chain's last info extends the list. -/
theorem extend (h : ChainLinked lib chain l last) {d : Decomposition} {b : BundleBuilder}
    (hb : d.getBuilder lib = .ok b)
    (hchain : (BundleInfo.ofBuilder b (lib.digest d.bundleBytes)).chain = chain)
    (hneeded : isNeeded (.ofBuilder b (lib.digest d.bundleBytes)) last = .ok true)
    (hhash : b.chainStart ≠ b.timestamp → ∃ old, last = some old ∧ b.priorHash = old.hash) :
    ChainLinked lib chain (l ++ [d]) (some (.ofBuilder b (lib.digest d.bundleBytes))) := by
  obtain ⟨hlt, hprev, hstart⟩ := isNeeded_eq_true hneeded
  refine ⟨h.linked.concat ?_ ?_, ?_⟩
  · intro hnil
    have hnone : last = none := by
      have := h.last_eq
      rw [hnil] at this
      cases last with
      | none => rfl
      | some _ => simp at this
    subst hnone
    have hzero : b.previous = 0 := hprev
    refine ⟨b, hb, hchain, ?_, hzero⟩
    rcases hstart with ht | hp
    · exact ht
    · exact absurd hzero hp
  · intro e he
    obtain ⟨old, rfl, hinfo⟩ := h.getInfo_last he
    cases hbe : e.getBuilder lib with
    | error err => simp [Decomposition.getInfo, hbe, Except.map] at hinfo
    | ok be =>
        simp only [Decomposition.getInfo, hbe, Except.map, Except.ok.injEq] at hinfo
        have hold : chain.chainStart ≤ old.timestamp := h.start_le rfl
        have hlt' : old.timestamp < b.timestamp := hlt
        have hne : b.chainStart ≠ b.timestamp := by
          intro heq
          have : chain.chainStart = b.timestamp := by rw [← hchain]; exact heq
          rw [this] at hold
          exact absurd hlt' (not_lt.mpr hold)
        obtain ⟨old', hsome, hprior⟩ := hhash hne
        obtain rfl : old = old' := by simpa using hsome
        subst hinfo
        exact ⟨be, b, hbe, hb, hchain, hprev, hprior, hlt'⟩
  · simp [Decomposition.getInfo, hb, Except.map]

end ChainLinked

end Gink
