/-
  Gink.Sync.Unforked — stores that hold chains which do not fork.

  As long as no two bundles span one time of a chain, the timestamp a store has reached in each
  chain says what it holds: all of the chain up to there.  A bundle that names a time the store has
  reached is never refused for its place in the chain.

  Main results:
    * `ChainStore.placed` — what a held bundle names is held before it.
    * `ChainStore.held_of_le` — a store has all bundles up to where it is.
    * `ChainStore.isNeeded_ok` — a bundle that comes in order is not refused.
-/
import Gink.Sync.Relays

namespace Gink

open Machine

variable {lib : Externals} {D : Set Decomposition} {d : Decomposition} {info : BundleInfo}

/-! ## §1. Bundles and the times they span. -/

/-- No two of the bundles span one time of a chain. -/
def Unforked (lib : Externals) (D : Set Decomposition) : Prop :=
  ∀ d ∈ D, ∀ e ∈ D, ∀ i j, d.getInfo lib = .ok i → e.getInfo lib = .ok j → i.chain = j.chain →
    ∀ t : ℕ, i.previous.val < t → t ≤ i.timestamp.val → j.previous.val < t → t ≤ j.timestamp.val →
      d = e

/-- The times are those of some of the bundles. -/
def Dated (lib : Externals) (D : Set Decomposition) (marks : Chain → ℕ) : Prop :=
  ∀ chain, marks chain = 0 ∨ ∃ d ∈ D, ∃ info, d.getInfo lib = .ok info ∧ info.chain = chain ∧
    info.previous < info.timestamp ∧ info.timestamp.val = marks chain

/-- It is the first of its chain or names another one as the one before it. -/
structure BundleInfo.Placed (info : BundleInfo) : Prop where
  later : info.previous < info.timestamp
  starts : info.timestamp = info.chainStart ∨ info.previous ≠ 0

theorem Dated.mono {E : Set Decomposition} {marks : Chain → ℕ} (h : Dated lib D marks)
    (hsub : D ⊆ E) : Dated lib E marks := by
  intro chain
  rcases h chain with h0 | ⟨d, hd, hrest⟩
  · exact Or.inl h0
  · exact Or.inr ⟨d, hsub hd, hrest⟩

theorem Dated.taking {marks : Chain → ℕ} (h : Dated lib D marks) (hd : d ∈ D)
    (hi : d.getInfo lib = .ok info) (hlater : info.previous < info.timestamp) :
    Dated lib D (taking marks info.item) := by
  intro chain
  unfold Machine.taking
  by_cases hc : chain = info.item.list
  · subst hc
    rw [Function.update_self]
    rcases le_total (marks info.item.list) info.item.time with hle | hle
    · rw [max_eq_right hle]
      exact Or.inr ⟨d, hd, info, hi, rfl, hlater, rfl⟩
    · rw [max_eq_left hle]
      exact h info.item.list
  · rw [Function.update_of_ne hc]
    exact h chain

/-- **Nothing between**: a time that the bundle would reach past is the one it names, or one
before that. -/
theorem Unforked.le_previous (hD : Unforked lib D) {marks : Chain → ℕ} (h : Dated lib D marks)
    (hd : d ∈ D) (hi : d.getInfo lib = .ok info) (hlt : marks info.chain < info.timestamp.val) :
    marks info.chain ≤ info.previous.val := by
  rcases h info.chain with h0 | ⟨e, he, j, hj, hchain, hlater, hmark⟩
  · omega
  by_contra hbetween
  -- else the two bundles both span that time
  have hsame : e = d := by
    refine hD e he d hd j info hj hi hchain (marks info.chain) ?_ hmark.ge ?_ hlt.le
    · rw [← hmark]
      exact hlater
    · omega
  subst hsame
  rw [hi, Except.ok.injEq] at hj
  subst hj
  omega

/-! ## §2. What a store has of a chain. -/

namespace ChainStore

variable {σ κ : Type} {ops : BundleStore σ κ} (cs : ChainStore lib ops) {s : σ}

/-- How far along each chain the store is. -/
def marks (s : σ) (chain : Chain) : ℕ := (seenThrough (cs.last s chain)).val

/-- What is held as a set. -/
def holds (s : σ) : Set Decomposition := {d | d ∈ cs.held s}

/-- **Its place in the list**: what is held starts its chain, or the bundle that it names comes
before it in the list. -/
theorem placed (h : cs.Valid s) {before after : List Decomposition}
    (hheld : cs.held s = before ++ d :: after) (hi : d.getInfo lib = .ok info) :
    info.Placed ∧ (info.previous = 0 ∨ ∃ e ∈ before, ∃ j, e.getInfo lib = .ok j ∧
      j.chain = info.chain ∧ j.timestamp = info.previous) := by
  have hmem : d ∈ cs.held s := by
    rw [hheld]
    exact List.mem_append_right _ List.mem_cons_self
  have hin : inChain lib info.chain d = true := by
    unfold inChain
    rw [hi]
    simp [Except.toOption]
  have hlist : (cs.held s).filter (inChain lib info.chain)
      = before.filter (inChain lib info.chain) ++ d :: after.filter (inChain lib info.chain) := by
    rw [hheld, List.filter_append, List.filter_cons, if_pos hin]
  have hlinked := (cs.linked s h info.chain).linked
  rw [hlist] at hlinked
  have hinfo : ∀ b, d.getBuilder lib = .ok b →
      info = BundleInfo.ofBuilder b (lib.digest d.bundleBytes) := by
    intro b hb
    unfold Decomposition.getInfo at hi
    rw [hb] at hi
    exact (Except.ok.inj hi).symm
  cases hlast : (before.filter (inChain lib info.chain)).getLast? with
  | none =>
      rw [List.getLast?_eq_none_iff.mp hlast] at hlinked
      obtain ⟨b, hb, -, hstart, hprevious⟩ := hlinked.head d rfl
      have hzero : info.previous = 0 := by
        rw [hinfo b hb]
        exact hprevious
      refine ⟨⟨?_, Or.inl ?_⟩, Or.inl hzero⟩
      · rw [hzero]
        exact cs.positive s h d hmem info hi
      · rw [hinfo b hb]
        exact hstart
  | some e =>
      obtain ⟨b, b', hb, hb', -, hprevious, -, hlt⟩ :=
        (List.isChain_append.mp hlinked.links).2.2 e hlast d rfl
      obtain ⟨hbefore, hin'⟩ := List.mem_filter.mp (List.mem_of_getLast? hlast)
      have hj : e.getInfo lib = .ok (.ofBuilder b (lib.digest e.bundleBytes)) := by
        unfold Decomposition.getInfo
        rw [hb]
        rfl
      have hchain : (BundleInfo.ofBuilder b (lib.digest e.bundleBytes)).chain = info.chain := by
        unfold inChain at hin'
        rw [hj] at hin'
        simpa [Except.toOption] using hin'
      have hpos := cs.positive s h e (by rw [hheld]; exact List.mem_append_left _ hbefore) _ hj
      have hsame : info.previous = b.timestamp := by
        rw [hinfo b' hb']
        exact hprevious
      refine ⟨⟨?_, Or.inr ?_⟩, Or.inr ⟨e, hbefore, _, hj, hchain, hsame.symm⟩⟩
      · rw [hsame, hinfo b' hb']
        exact hlt
      · rw [hsame]
        intro hzero
        rw [show (BundleInfo.ofBuilder b (lib.digest e.bundleBytes)).timestamp = 0 from hzero] at hpos
        exact absurd hpos (lt_irrefl 0)

/-- What is held is placed. -/
theorem placed_of_held (h : cs.Valid s) (hd : d ∈ cs.held s) (hi : d.getInfo lib = .ok info) :
    info.Placed := by
  obtain ⟨before, after, hheld⟩ := List.append_of_mem hd
  exact (cs.placed h hheld hi).1

theorem le_marks (h : cs.Valid s) (hd : d ∈ cs.held s) (hi : d.getInfo lib = .ok info) :
    info.timestamp.val ≤ cs.marks s info.chain := by
  obtain ⟨latest, hlast, hle⟩ := cs.timestamp_le h hd hi
  unfold marks
  rw [hlast]
  exact hle

/-- A store is as far along as some of its bundles. -/
theorem dated (h : cs.Valid s) : Dated lib (cs.holds s) (cs.marks s) := by
  intro chain
  unfold marks
  cases hlast : cs.last s chain with
  | none => exact Or.inl rfl
  | some info =>
      obtain ⟨hchain, d, hd, hi⟩ := cs.exists_last h hlast
      exact Or.inr ⟨d, hd, info, hi, hchain, (cs.placed_of_held h hd hi).later, rfl⟩

/-- Holding more, it is no less far. -/
theorem marks_mono {s' : σ} (h : cs.Valid s) (h' : cs.Valid s') (hsub : cs.holds s ⊆ cs.holds s') :
    cs.marks s ≤ cs.marks s' := by
  intro chain
  rcases cs.dated h chain with h0 | ⟨d, hd, info, hi, rfl, -, hmark⟩
  · rw [h0]
    exact Nat.zero_le _
  · rw [← hmark]
    exact cs.le_marks h' (hsub hd) hi

/-- In a linked list each time is spanned by one of the bundles. -/
theorem exists_spanning {chain : Chain} {t : ℕ} {l : List Decomposition}
    (hlinks : l.IsChain (LinksTo lib chain))
    (hfirst : ∀ d ∈ l.head?, ∃ b, d.getBuilder lib = .ok b ∧ b.previous.val < t)
    (hlast : ∃ d ∈ l.getLast?, ∃ b, d.getBuilder lib = .ok b ∧ t ≤ b.timestamp.val) :
    ∃ d ∈ l, ∃ b, d.getBuilder lib = .ok b ∧ b.previous.val < t ∧ t ≤ b.timestamp.val := by
  induction l with
  | nil =>
      obtain ⟨d, hd, -⟩ := hlast
      exact absurd hd (by simp)
  | cons d rest ih =>
      obtain ⟨b, hb, hprevious⟩ := hfirst d rfl
      by_cases hle : t ≤ b.timestamp.val
      · exact ⟨d, List.mem_cons_self, b, hb, hprevious, hle⟩
      -- the time is past this bundle, which the next one names
      cases rest with
      | nil =>
          obtain ⟨e, he, b', hb', hle'⟩ := hlast
          obtain rfl : d = e := by simpa using he
          rw [hb, Except.ok.injEq] at hb'
          exact absurd (hb' ▸ hle') hle
      | cons e rest =>
          rw [List.isChain_cons_cons] at hlinks
          obtain ⟨b₁, b₂, hb₁, hb₂, -, hnames, -, -⟩ := hlinks.1
          rw [hb, Except.ok.injEq] at hb₁
          obtain ⟨x, hx, hspans⟩ := ih hlinks.2
            (by
              intro x hx
              obtain rfl : e = x := by simpa using hx
              refine ⟨b₂, hb₂, ?_⟩
              rw [hnames, ← hb₁]
              omega)
            (by simpa using hlast)
          exact ⟨x, List.mem_cons_of_mem _ hx, hspans⟩

/-- **A store has all of a chain up to where it is.** -/
theorem exists_held (h : cs.Valid s) {chain : Chain} {t : ℕ} (h0 : 0 < t)
    (ht : t ≤ cs.marks s chain) :
    ∃ d ∈ cs.held s, ∃ info, d.getInfo lib = .ok info ∧ info.chain = chain ∧
      info.previous.val < t ∧ t ≤ info.timestamp.val := by
  have hlinked := cs.linked s h chain
  have hinfo : ∀ (d : Decomposition) (b : BundleBuilder), d.getBuilder lib = .ok b →
      d.getInfo lib = .ok (.ofBuilder b (lib.digest d.bundleBytes)) := by
    intro d b hb
    unfold Decomposition.getInfo
    rw [hb]
    rfl
  have hlast : ∃ d ∈ ((cs.held s).filter (inChain lib chain)).getLast?,
      ∃ b, d.getBuilder lib = .ok b ∧ t ≤ b.timestamp.val := by
    unfold marks at ht
    cases hend : cs.last s chain with
    | none =>
        rw [hend] at ht
        exact absurd h0 (not_lt.mpr ht)
    | some info =>
        rw [hend] at ht
        have hl := hlinked.last_eq
        rw [hend] at hl
        cases hd : ((cs.held s).filter (inChain lib chain)).getLast? with
        | none =>
            rw [hd] at hl
            exact absurd hl (by simp)
        | some d =>
            rw [hd] at hl
            have hi : d.getInfo lib = .ok info := by simpa using hl
            refine ⟨d, rfl, ?_⟩
            cases hb : d.getBuilder lib with
            | error e =>
                unfold Decomposition.getInfo at hi
                rw [hb] at hi
                exact absurd hi (by simp [Except.map])
            | ok b =>
                rw [hinfo d b hb, Except.ok.injEq] at hi
                refine ⟨b, rfl, ?_⟩
                rw [← hi] at ht
                exact ht
  obtain ⟨d, hd, b, hb, hprevious, hle⟩ := exists_spanning hlinked.linked.links
    (by
      intro d hd
      obtain ⟨b, hb, -, -, hprevious⟩ := hlinked.linked.head d hd
      refine ⟨b, hb, ?_⟩
      rw [hprevious]
      exact h0)
    hlast
  obtain ⟨hheld, hin⟩ := List.mem_filter.mp hd
  refine ⟨d, hheld, _, hinfo d b hb, ?_, hprevious, hle⟩
  unfold inChain at hin
  rw [hinfo d b hb] at hin
  simpa [Except.toOption] using hin

/-- **Of unforked chains** a store has all bundles up to where it is. -/
theorem held_of_le (hD : Unforked lib D) (h : cs.Valid s) (hsub : cs.holds s ⊆ D) (hd : d ∈ D)
    (hi : d.getInfo lib = .ok info) (hlater : info.previous < info.timestamp)
    (hle : info.timestamp.val ≤ cs.marks s info.chain) : d ∈ cs.held s := by
  obtain ⟨e, he, j, hj, hchain, hprevious, hreach⟩ := cs.exists_held h
    (lt_of_le_of_lt (Nat.zero_le _) hlater) hle
  rw [hD d hd e (hsub he) info j hi hj hchain.symm info.timestamp.val hlater le_rfl hprevious hreach]
  exact he

/-- **A bundle that comes in order is not refused**: the store knows it, or it is the next one. -/
theorem isNeeded_ok (hD : Unforked lib D) (h : cs.Valid s) (hsub : cs.holds s ⊆ D) (hd : d ∈ D)
    (hi : d.getInfo lib = .ok info) (hplaced : info.Placed)
    (hreach : info.previous.val ≤ cs.marks s info.chain) :
    ∃ needed, isNeeded info (cs.last s info.chain) = .ok needed := by
  have hchain : ¬ (cs.last s info.chain).any (fun old => old.chain ≠ info.chain) = true := by
    cases hlast : cs.last s info.chain with
    | none => simp
    | some old =>
        have := (cs.exists_last h hlast).1
        simp [this]
  unfold isNeeded
  rw [if_neg hchain]
  by_cases hseen : seenThrough (cs.last s info.chain) ≥ info.timestamp
  · exact ⟨false, if_pos hseen⟩
  have hle := hD.le_previous ((cs.dated h).mono hsub) hd hi
    (show (seenThrough (cs.last s info.chain)).val < info.timestamp.val from not_le.mp hseen)
  have hsame : info.previous = seenThrough (cs.last s info.chain) :=
    Fin.ext (le_antisymm hreach hle)
  refine ⟨true, ?_⟩
  rw [if_neg hseen, if_neg, if_neg (fun hgap => hgap.2 hsame)]
  intro hlost
  rcases hplaced.starts with hstart | hprevious
  · exact hlost.1 hstart
  · exact hprevious hlost.2

end ChainStore

end Gink
