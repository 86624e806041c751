/-
  Gink.Js.Bundlers — what becomes of the changes that bundlers take (BoundBundler.ts,
  Database.ts).

  A commit hands the list of changes to `completeBundle`, which reads it when it gets the
  lock; the bundler counts as sealed only when the commit goes on, after the store has
  answered.  In between it takes changes that no bundle gets, and a second commit, which
  stores all changes once more.

  Main results:
    * `no_change_lost` — where neither happens, every change is in one bundle at most,
      and in one bundle once a commit has resolved.
    * `changes_dropped_and_doubled` — a change and a commit while the first commit is under way.
-/
import Gink.Js.Addresses

namespace Gink

namespace Js

namespace Database

variable {lib : Sodium}

/-! ## §1. Bundles by their bundlers. -/

/-- What a step puts into the store, with whose bundle it is. -/
def takes (db : Database lib) : Event lib → List Write
  | .settled outcome =>
      match db.writes with
      | [] => []
      | write :: _ =>
          if outcome ≠ .fails ∧ (db.store.addBundle write.bundle).2 = .ok true then [write] else []
  | _ => []

/-- A database and all that went into its store. -/
structure Watched (lib : Sodium) where
  db : Database lib
  taken : List Write := []

namespace Watched

def step (w : Watched lib) (event : Event lib) : Watched lib where
  db := w.db.step event
  taken := w.taken ++ w.db.takes event

/-- The change that the bundler gave the offset is in the bundle. -/
def Contains (write : Write) (index offset : Nat) (change : ChangeBuilder) : Prop :=
  write.bundler = index ∧ 0 < offset ∧ write.bundle.builder.changes[offset - 1]? = some change

/-- Some bundle in the store has the change. -/
def IsStored (w : Watched lib) (index offset : Nat) (change : ChangeBuilder) : Prop :=
  ∃ write ∈ w.taken, Contains write index offset change

/-- **Changes are neither doubled nor lost**: each that was accepted is in one stored bundle at
most; once a commit has resolved, each that its bundler accepted is stored; and no bundler
has accepted a change that the bundle on its way to the store, or into the chain, lacks. -/
structure StoredOnce (w : Watched lib) : Prop where
  atMostOnce : ∀ index offset change, (index, offset, change) ∈ w.db.addressed →
    ∀ (i j : Nat) (write write' : Write), w.taken[i]? = some write → w.taken[j]? = some write' →
      Contains write index offset change → Contains write' index offset change → i = j
  resolved : ∀ answer ∈ w.db.resolved, ∀ offset change,
    (answer.1, offset, change) ∈ w.db.addressed → w.IsStored answer.1 offset change
  handed : ∀ write ∈ w.db.writes, ∀ offset change,
    (write.bundler, offset, change) ∈ w.db.addressed →
      Contains write write.bundler offset change
  answered : ∀ answer ∈ w.db.answers, answer.result ≠ none → ∀ offset change,
    (answer.bundler, offset, change) ∈ w.db.addressed → w.IsStored answer.bundler offset change

/-! ## §2. When it is kept. -/

/-- The waiter is a commit of the bundler. -/
def commits (index : Nat) : Waiter → Bool
  | .completeBundle bundler _ => bundler = index
  | .startBundle _ _ => false

/-- How many commits of the bundler are on their way to the store or have got there. -/
def commitsOf (w : Watched lib) (index : Nat) : Nat :=
  w.db.waiting.countP (commits index) + w.db.writes.countP (fun write => write.bundler = index) +
    w.taken.countP (fun write => write.bundler = index)

/-- The steps that keep it: no change is added to a bundle that was handed in; no bundler is
committed that has a commit under way or a bundle in the store; and the store does not hold
the chain up to that time already. -/
def Exclusive (w : Watched lib) : Event lib → Prop
  | .addChange index _ => ∀ bundler, w.db.bundlers[index]? = some bundler →
      bundler.bundleInfo = none → ¬ w.db.HandedIn index
  | .commit index _ => ∀ bundler, w.db.bundlers[index]? = some bundler →
      bundler.bundleInfo = none → w.commitsOf index = 0
  | .settled _ => ∀ write ∈ w.db.writes.head?, ∀ old,
      w.db.store.chainInfos.get? write.bundle.info.chain = some old →
        old.timestamp < write.bundle.info.timestamp
  | _ => True

/-! ## §3. The invariant. -/

/-- A bundler and a bundle in the store that holds its changes. -/
def HasAll (w : Watched lib) (index : Nat) (bundler : BoundBundler) : Prop :=
  w.db.bundlers[index]? = some bundler ∧
    ∃ write ∈ w.taken, write.bundler = index ∧ write.bundle.builder.changes = bundler.changes

structure Inv (w : Watched lib) : Prop where
  writes : ∀ write ∈ w.db.writes, ∃ bundler, w.db.bundlers[write.bundler]? = some bundler ∧
    write.bundle.builder.changes = bundler.changes
  answers : ∀ answer ∈ w.db.answers, ∀ result, answer.result = some result →
    result ≠ none ∧ ∃ bundler, w.HasAll answer.bundler bundler
  resolved : ∀ answer ∈ w.db.resolved, ∃ bundler, w.HasAll answer.1 bundler ∧
    bundler.bundleInfo ≠ none
  addressed : ∀ entry ∈ w.db.addressed, ∃ bundler, w.db.bundlers[entry.1]? = some bundler ∧
    0 < entry.2.1 ∧ bundler.changes[entry.2.1 - 1]? = some entry.2.2
  once : ∀ index, w.commitsOf index ≤ 1

variable {w : Watched lib}

/-- What is counted once at most stands in one place. -/
theorem eq_of_countP_le_one {p : Write → Bool} : ∀ {l : List Write} {i j : Nat} {a b : Write},
    l.countP p ≤ 1 → l[i]? = some a → l[j]? = some b → p a = true → p b = true → i = j
  | [], _, _, _, _, _, hi, _, _, _ => by simp at hi
  | x :: l, i, j, a, b, hcount, hi, hj, ha, hb => by
      -- the tail has none when the head is one
      have hnone : ∀ {k : Nat} {y : Write}, p x = true → l[k]? = some y → p y ≠ true := by
        intro k y hx hk hy
        rw [List.countP_cons_of_pos hx] at hcount
        have hpos := List.countP_pos_iff.mpr ⟨y, List.mem_of_getElem? hk, hy⟩
        omega
      cases i with
      | zero =>
          obtain rfl : x = a := Option.some.inj hi
          cases j with
          | zero => rfl
          | succ j => exact absurd hb (hnone ha hj)
      | succ i =>
          cases j with
          | zero =>
              obtain rfl : x = b := Option.some.inj hj
              exact absurd ha (hnone hb hi)
          | succ j =>
              have hle : l.countP p ≤ 1 := le_trans (List.Sublist.countP_le (List.sublist_cons_self x l)) hcount
              exact congrArg Nat.succ (eq_of_countP_le_one hle hi hj ha hb)

theorem Inv.storedOnce (h : Inv w) : StoredOnce w := by
  have hstored : ∀ {index bundler}, w.HasAll index bundler → ∀ offset change,
      (index, offset, change) ∈ w.db.addressed → w.IsStored index offset change := by
    intro index bundler hall offset change hentry
    obtain ⟨write, hwrite, howner, hchanges⟩ := hall.2
    obtain ⟨other, hother, hpos, hchange⟩ := h.addressed _ hentry
    obtain rfl : bundler = other := Option.some.inj (hall.1.symm.trans hother)
    exact ⟨write, hwrite, howner, hpos, hchanges ▸ hchange⟩
  refine ⟨?_, ?_, ?_, ?_⟩
  · intro index offset change _ i j write write' hi hj hwrite hwrite'
    have honce := h.once index
    unfold commitsOf at honce
    exact eq_of_countP_le_one (le_trans (Nat.le_add_left _ _) honce) hi hj
      (decide_eq_true hwrite.1) (decide_eq_true hwrite'.1)
  · intro answer hanswer
    obtain ⟨bundler, hall, -⟩ := h.resolved answer hanswer
    exact hstored hall
  · intro write hwrite offset change hentry
    obtain ⟨bundler, hbundler, hchanges⟩ := h.writes write hwrite
    obtain ⟨other, hother, hpos, hchange⟩ := h.addressed _ hentry
    obtain rfl : bundler = other := Option.some.inj (hbundler.symm.trans hother)
    exact ⟨rfl, hpos, hchanges ▸ hchange⟩
  · intro answer hanswer hresult
    obtain ⟨result, hr⟩ := Option.ne_none_iff_exists'.mp hresult
    obtain ⟨-, bundler, hall⟩ := h.answers answer hanswer result hr
    exact hstored hall

theorem Inv.opened (store : Store lib) (identity : Option String) (lastTime : U64) :
    Inv ⟨Database.opened store identity lastTime, []⟩ where
  writes write hw := absurd hw List.not_mem_nil
  answers answer ha := absurd ha List.not_mem_nil
  resolved answer ha := absurd ha List.not_mem_nil
  addressed entry he := absurd he List.not_mem_nil
  once index := by simp [commitsOf, Database.opened]

/-! ## §4. The steps. -/

/-- **Bundlers that stay as they are**, or come to be, or are sealed: what has been handed in
and answered is the same. -/
theorem Inv.bundlers (h : Inv w) {db : Database lib}
    (hbundlers : ∀ (i : Nat) (b : BoundBundler), w.db.bundlers[i]? = some b →
      ∃ b' : BoundBundler, db.bundlers[i]? = some b' ∧
        b'.changes = b.changes ∧ (b.bundleInfo ≠ none → b'.bundleInfo ≠ none))
    (hwaiting : ∀ i, db.waiting.countP (commits i) ≤ w.db.waiting.countP (commits i))
    (hwrites : db.writes = w.db.writes) (hanswers : ∀ answer ∈ db.answers,
      answer ∈ w.db.answers ∨ answer.result = none)
    (hresolved : db.resolved = w.db.resolved) (haddressed : db.addressed = w.db.addressed) :
    Inv ⟨db, w.taken⟩ := by
  refine ⟨?_, ?_, ?_, ?_, ?_⟩
  · intro write hw
    rw [hwrites] at hw
    obtain ⟨bundler, hbundler, hchanges⟩ := h.writes write hw
    obtain ⟨b', hb', hsame, -⟩ := hbundlers _ _ hbundler
    exact ⟨b', hb', hchanges.trans hsame.symm⟩
  · intro answer ha result hresult
    rcases hanswers answer ha with hold | hnone
    · obtain ⟨hne, bundler, hbundler, write, hwrite, howner, hchanges⟩ :=
        h.answers answer hold result hresult
      obtain ⟨b', hb', hsame, -⟩ := hbundlers _ _ hbundler
      exact ⟨hne, b', hb', write, hwrite, howner, hchanges.trans hsame.symm⟩
    · rw [hnone] at hresult
      cases hresult
  · intro answer ha
    rw [hresolved] at ha
    obtain ⟨bundler, ⟨hbundler, write, hwrite, howner, hchanges⟩, hsealed⟩ := h.resolved answer ha
    obtain ⟨b', hb', hsame, hseals⟩ := hbundlers _ _ hbundler
    exact ⟨b', ⟨hb', write, hwrite, howner, hchanges.trans hsame.symm⟩, hseals hsealed⟩
  · intro entry he
    rw [haddressed] at he
    obtain ⟨bundler, hbundler, hpos, hchange⟩ := h.addressed entry he
    obtain ⟨b', hb', hsame, -⟩ := hbundlers _ _ hbundler
    exact ⟨b', hb', hpos, hsame ▸ hchange⟩
  · intro index
    have honce := h.once index
    have hle := hwaiting index
    unfold commitsOf at honce ⊢
    show db.waiting.countP _ + db.writes.countP _ + w.taken.countP _ ≤ 1
    rw [hwrites]
    omega

/-- **What else the database does** between the calls. -/
theorem Inv.others (h : Inv w) {db : Database lib} (hbundlers : db.bundlers = w.db.bundlers)
    (hwaiting : ∀ i, db.waiting.countP (commits i) ≤ w.db.waiting.countP (commits i))
    (hwrites : db.writes = w.db.writes) (hanswers : ∀ answer ∈ db.answers,
      answer ∈ w.db.answers ∨ answer.result = none)
    (hresolved : db.resolved = w.db.resolved) (haddressed : db.addressed = w.db.addressed) :
    Inv ⟨db, w.taken⟩ :=
  h.bundlers (fun _ b hb => ⟨b, hbundlers ▸ hb, rfl, id⟩) hwaiting hwrites hanswers hresolved
    haddressed

/-- `new BoundBundler(this.medallion, …)`. -/
theorem Inv.bundler (h : Inv w) {db : Database lib} {made : BoundBundler}
    (hbundlers : db.bundlers = w.db.bundlers ++ [made])
    (hwaiting : db.waiting = w.db.waiting) (hwrites : db.writes = w.db.writes)
    (hanswers : db.answers = w.db.answers) (hresolved : db.resolved = w.db.resolved)
    (haddressed : db.addressed = w.db.addressed) : Inv ⟨db, w.taken⟩ := by
  refine h.bundlers ?_ (fun i => by rw [hwaiting]) hwrites ?_ hresolved haddressed
  · intro i b hb
    refine ⟨b, ?_, rfl, id⟩
    rw [hbundlers]
    exact getElem?_append_of_some hb
  · intro answer ha
    rw [hanswers] at ha
    exact Or.inl ha

theorem Inv.startBundle (h : Inv w) (identity : Option String) (comment : String) :
    Inv ⟨w.db.startBundle identity comment, w.taken⟩ := by
  unfold Database.startBundle
  split
  · exact h.bundler rfl rfl rfl rfl rfl rfl
  · refine h.others rfl ?_ rfl (fun _ => Or.inl) rfl rfl
    intro i
    simp [commits]

theorem Inv.acquire (h : Inv w) (chain : Option Chain) (created : KeyPair lib) :
    Inv ⟨w.db.acquire chain created, w.taken⟩ := by
  unfold Database.acquire
  split
  · split
    · split
      · exact h.bundler rfl rfl rfl rfl rfl rfl
      · exact h.others rfl (fun _ => le_refl _) rfl (fun _ => Or.inl) rfl rfl
    · exact h.others rfl (fun _ => le_refl _) rfl (fun _ => Or.inl) rfl rfl
  · exact h

theorem Inv.save (h : Inv w) (medallion : U64) : Inv ⟨w.db.save medallion, w.taken⟩ := by
  unfold Database.save
  split
  · exact h.bundler rfl rfl rfl rfl rfl rfl
  · exact h

/-- The builder has the changes of that moment. -/
theorem bundleBuilder_changes (db : Database lib) (bundler : BoundBundler) (comment : String)
    (medallion timestamp : U64) (keyPair : KeyPair lib) :
    (db.bundleBuilder bundler comment medallion timestamp keyPair).changes = bundler.changes := by
  unfold bundleBuilder
  cases db.lastLink <;> rfl

/-- **A commit gets the lock** and is at the store from then on, or has failed. -/
theorem Inv.completeBundle (h : Inv w) {index : Nat} {comment : String}
    {rest : List Waiter} (hwaiting : w.db.waiting = .completeBundle index comment :: rest)
    (now : U64) :
    Inv ⟨{ w.db with waiting := rest }.completeBundle index comment now, w.taken⟩ := by
  have hcount : ∀ i, w.db.waiting.countP (commits i) =
      rest.countP (commits i) + if index = i then 1 else 0 := by
    intro i
    rw [hwaiting, List.countP_cons]
    simp [commits]
  unfold Database.completeBundle
  split
  · rename_i bundler medallion keyPair hbundler hmedallion hkey
    refine ⟨?_, h.answers, h.resolved, h.addressed, ?_⟩
    · intro write hw
      rcases List.mem_append.mp hw with hold | hnew
      · exact h.writes write hold
      · obtain rfl := List.mem_singleton.mp hnew
        refine ⟨bundler, hbundler, ?_⟩
        exact bundleBuilder_changes _ bundler _ _ _ keyPair
    · intro i
      have honce := h.once i
      unfold commitsOf at honce ⊢
      rw [hcount] at honce
      show rest.countP _ + (w.db.writes ++ [_]).countP _ + w.taken.countP _ ≤ 1
      rw [List.countP_append, List.countP_singleton]
      simp only [decide_eq_true_eq]
      omega
  · refine h.others rfl ?_ rfl ?_ rfl rfl
    · intro i
      rw [hcount]
      exact Nat.le_add_right _ _
    · intro answer ha
      rcases List.mem_append.mp ha with hold | hnew
      · exact Or.inl hold
      · obtain rfl := List.mem_singleton.mp hnew
        exact Or.inr rfl

theorem Inv.grant (h : Inv w) (osIdentity : String) (now : U64) :
    Inv ⟨w.db.grant osIdentity now, w.taken⟩ := by
  unfold Database.grant
  split
  · rename_i identity comment rest hholder hwaiting
    refine h.others rfl ?_ rfl (fun _ => Or.inl) rfl rfl
    intro i
    rw [hwaiting]
    exact List.Sublist.countP_le (List.sublist_cons_self _ _)
  · rename_i index comment rest hholder hwaiting
    exact h.completeBundle hwaiting now
  · exact h

/-- **A change more**: no bundle is to hold the changes of this bundler yet. -/
theorem Inv.addChange (h : Inv w) (index : Nat) (change : ChangeBuilder)
    (hopen : ∀ bundler, w.db.bundlers[index]? = some bundler → bundler.bundleInfo = none →
      ¬ w.db.HandedIn index) : Inv ⟨w.db.addChange index change, w.taken⟩ := by
  unfold Database.addChange
  cases hbundler : w.db.bundlers[index]? with
  | none => exact h
  | some bundler =>
      cases hsealed : bundler.bundleInfo with
      | some info =>
          simp only [BoundBundler.addChange, BoundBundler.requireNotSealed, hsealed, bind,
            Except.bind]
          exact h
      | none =>
          have hadds : bundler.addChange change = .ok
              ({ bundler with changes := bundler.changes ++ [change] },
                (bundler.changes ++ [change]).length) := by
            simp [BoundBundler.addChange, BoundBundler.requireNotSealed, hsealed, bind, Except.bind,
              pure, Except.pure]
          simp only [hadds]
          have hfree := hopen bundler hbundler hsealed
          set made : BoundBundler := { bundler with changes := bundler.changes ++ [change] }
            with hmade
          have hset : ∀ {j : Nat} {c : BoundBundler}, w.db.bundlers[j]? = some c →
              (w.db.bundlers.set index made)[j]? = some (if index = j then made else c) :=
            fun hj => getElem?_set_of_some hbundler hj
          refine ⟨?_, ?_, ?_, ?_, h.once⟩
          · intro write hw
            obtain ⟨other, hother, hchanges⟩ := h.writes write hw
            have hne : index ≠ write.bundler := fun he => hfree (Or.inl ⟨write, hw, he.symm⟩)
            exact ⟨other, (hset hother).trans (by rw [if_neg hne]), hchanges⟩
          · intro answer ha result hresult
            obtain ⟨hnone, other, hother, hwrite⟩ := h.answers answer ha result hresult
            have hne : index ≠ answer.bundler := fun he =>
              hfree (Or.inr ⟨answer, ha, he.symm, by rw [hresult]; exact Option.some_ne_none _⟩)
            exact ⟨hnone, other, (hset hother).trans (by rw [if_neg hne]), hwrite⟩
          · intro answer ha
            obtain ⟨other, ⟨hother, hwrite⟩, hother'⟩ := h.resolved answer ha
            have hne : index ≠ answer.1 := by
              intro he
              rw [← he, hbundler, Option.some.injEq] at hother
              rw [← hother] at hother'
              exact hother' hsealed
            exact ⟨other, ⟨(hset hother).trans (by rw [if_neg hne]), hwrite⟩, hother'⟩
          · intro entry he
            rcases List.mem_append.mp he with hold | hnew
            · obtain ⟨other, hother, hpos, hchange⟩ := h.addressed entry hold
              refine ⟨_, hset hother, hpos, ?_⟩
              by_cases hi : index = entry.1
              · rw [if_pos hi]
                rw [← hi, hbundler, Option.some.injEq] at hother
                have hlt := (List.getElem?_eq_some_iff.mp hchange).1
                rw [← hother] at hlt hchange
                exact (List.getElem?_append_left hlt).trans hchange
              · rw [if_neg hi]
                exact hchange
            · obtain rfl := List.mem_singleton.mp hnew
              refine ⟨made, ?_, by simp, by simp [hmade]⟩
              show (w.db.bundlers.set index made)[index]? = some made
              rw [hset hbundler, if_pos rfl]

/-- **A commit**: the only one of its bundler. -/
theorem Inv.commit (h : Inv w) (index : Nat) (comment : String)
    (hfirst : ∀ bundler, w.db.bundlers[index]? = some bundler → bundler.bundleInfo = none →
      w.commitsOf index = 0) : Inv ⟨w.db.commit index comment, w.taken⟩ := by
  unfold Database.commit
  cases hbundler : w.db.bundlers[index]? with
  | none => exact h
  | some bundler =>
      cases hsealed : bundler.bundleInfo with
      | some info =>
          simp only [BoundBundler.requireNotSealed, hsealed]
          exact h
      | none =>
          simp only [BoundBundler.requireNotSealed, hsealed]
          have hzero := hfirst bundler hbundler hsealed
          refine ⟨h.writes, h.answers, h.resolved, h.addressed, ?_⟩
          intro i
          have honce := h.once i
          unfold commitsOf at hzero honce ⊢
          show (w.db.waiting ++ [_]).countP _ + w.db.writes.countP _ + w.taken.countP _ ≤ 1
          rw [List.countP_append, List.countP_singleton]
          by_cases hi : index = i
          · rw [← hi, if_pos (by simp [commits])]
            omega
          · rw [if_neg (by simp [commits, hi])]
            omega

/-- **The store takes a bundle.** -/
theorem Inv.take (h : Inv w) {write : Write} {rest : List Write}
    (hwrites : w.db.writes = write :: rest) (store : Store lib) (outcome : Outcome) :
    Inv ⟨Database.received { w.db with writes := rest, store := store } write outcome (.ok true),
      w.taken ++ [write]⟩ := by
  have hmem : write ∈ w.db.writes := by rw [hwrites]; exact List.mem_cons_self
  have hmore : ∀ {index bundler}, w.HasAll index bundler →
      HasAll ⟨Database.received { w.db with writes := rest, store := store } write outcome
        (.ok true), w.taken ++ [write]⟩ index bundler := by
    intro index bundler hall
    obtain ⟨hbundler, other, hother, howner, hchanges⟩ := hall
    exact ⟨hbundler, other, List.mem_append_left _ hother, howner, hchanges⟩
  refine ⟨?_, ?_, ?_, h.addressed, ?_⟩
  · intro other hother
    exact h.writes other (by rw [hwrites]; exact List.mem_cons_of_mem _ hother)
  · intro answer ha result hresult
    rcases List.mem_append.mp ha with hold | hnew
    · obtain ⟨hne, bundler, hall⟩ := h.answers answer hold result hresult
      exact ⟨hne, bundler, hmore hall⟩
    · obtain rfl := List.mem_singleton.mp hnew
      obtain ⟨bundler, hbundler, hchanges⟩ := h.writes write hmem
      refine ⟨?_, bundler, hbundler, write, by simp, rfl, hchanges⟩
      intro hnone
      rw [hnone] at hresult
      by_cases hc : outcome = .completes
      · simp [hc] at hresult
      · simp [hc] at hresult
  · intro answer ha
    obtain ⟨bundler, hall, hsealed⟩ := h.resolved answer ha
    exact ⟨bundler, hmore hall, hsealed⟩
  · intro i
    have honce := h.once i
    unfold commitsOf at honce ⊢
    rw [hwrites, List.countP_cons] at honce
    show w.db.waiting.countP _ + rest.countP _ + (w.taken ++ [write]).countP _ ≤ 1
    rw [List.countP_append, List.countP_singleton]
    omega

/-- A write that the store does not take. -/
theorem Inv.reject (h : Inv w) {write : Write} {rest : List Write}
    (hwrites : w.db.writes = write :: rest) (store : Store lib) :
    Inv ⟨Database.answered { w.db with writes := rest, store := store } write.bundler none,
      w.taken⟩ := by
  refine ⟨?_, ?_, h.resolved, h.addressed, ?_⟩
  · intro other hother
    exact h.writes other (by rw [hwrites]; exact List.mem_cons_of_mem _ hother)
  · intro answer ha result hresult
    rcases List.mem_append.mp ha with hold | hnew
    · exact h.answers answer hold result hresult
    · obtain rfl := List.mem_singleton.mp hnew
      cases hresult
  · intro i
    have honce := h.once i
    unfold commitsOf at honce ⊢
    rw [hwrites, List.countP_cons] at honce
    show w.db.waiting.countP _ + rest.countP _ + w.taken.countP _ ≤ 1
    omega

/-- **The store gets to a bundle**, newer than the chain there. -/
theorem Inv.settle (h : Inv w) (outcome : Outcome)
    (hnew : ∀ write ∈ w.db.writes.head?, ∀ old,
      w.db.store.chainInfos.get? write.bundle.info.chain = some old →
        old.timestamp < write.bundle.info.timestamp) :
    Inv (w.step (.settled outcome)) := by
  show Inv ⟨w.db.settle outcome, w.taken ++ w.db.takes (.settled outcome)⟩
  cases hwrites : w.db.writes with
  | nil =>
      unfold Database.settle takes
      simp only [hwrites, List.append_nil]
      exact h
  | cons write rest =>
      unfold Database.settle takes
      simp only [hwrites]
      by_cases hfails : outcome = .fails
      · rw [if_pos hfails, if_neg (fun hboth => hboth.1 hfails), List.append_nil]
        exact h.reject hwrites w.db.store
      · rw [if_neg hfails]
        have hadd := Store.addBundle_ne_false (hnew write (by rw [hwrites]; rfl))
        cases hr : (w.db.store.addBundle write.bundle).2 with
        | error e =>
            rw [if_neg (fun hboth => by cases hboth.2), List.append_nil]
            exact h.reject hwrites _
        | ok added =>
            cases added with
            | false => exact absurd hr hadd
            | true =>
                rw [if_pos ⟨hfails, rfl⟩]
                exact h.take hwrites _ outcome

/-- **A commit goes on.** -/
theorem Inv.resume (h : Inv w) (k : Nat) : Inv ⟨w.db.resume k, w.taken⟩ := by
  unfold Database.resume
  split
  · exact h
  · rename_i answer hanswer
    have hsub : ∀ a ∈ w.db.answers.eraseIdx k, a ∈ w.db.answers :=
      fun a ha => List.mem_of_mem_eraseIdx ha
    split
    · exact h.others rfl (fun _ => le_refl _) rfl (fun a ha => Or.inl (hsub a ha)) rfl rfl
    · rename_i result hresult
      obtain ⟨hne, bundler, hbundler, hwrite⟩ :=
        h.answers answer (List.mem_of_getElem? hanswer) result hresult
      -- bundlers that are sealed keep their changes
      have hsealed : Inv ⟨{ w.db with
          answers := w.db.answers.eraseIdx k
          bundlers := w.db.bundlers.modify answer.bundler (·.sealWith result) }, w.taken⟩ := by
        refine h.bundlers ?_ (fun _ => le_refl _) rfl (fun a ha => Or.inl (hsub a ha)) rfl rfl
        intro i b hb
        refine ⟨_, getElem?_modify_of_some hb, ?_, ?_⟩
        · split_ifs <;> rfl
        · intro hb'
          split_ifs
          · exact hne
          · exact hb'
      refine ⟨hsealed.writes, hsealed.answers, ?_, hsealed.addressed, hsealed.once⟩
      intro a ha
      rcases List.mem_append.mp ha with hold | hnew
      · exact hsealed.resolved a hold
      · obtain rfl := List.mem_singleton.mp hnew
        refine ⟨bundler.sealWith result, ⟨?_, hwrite⟩, hne⟩
        show (w.db.bundlers.modify answer.bundler (·.sealWith result))[answer.bundler]? = _
        rw [getElem?_modify_of_some hbundler, if_pos rfl]

/-! ## §5. Runs. -/

/-- **One step**. -/
theorem Inv.step (h : Inv w) (event : Event lib) (he : w.Exclusive event) :
    Inv (w.step event) := by
  have hnothing : ∀ {db : Database lib}, Inv ⟨db, w.taken⟩ → Inv ⟨db, w.taken ++ []⟩ := by
    intro db hdb
    rwa [List.append_nil]
  cases event with
  | startBundle identity comment => exact hnothing (h.startBundle identity comment)
  | granted osIdentity now => exact hnothing (h.grant osIdentity now)
  | acquired chain created => exact hnothing (h.acquire chain created)
  | saved medallion => exact hnothing (h.save medallion)
  | obtainFails =>
      exact hnothing (h.others rfl (fun _ => le_refl _) rfl (fun _ => Or.inl) rfl rfl)
  | addChange index change => exact hnothing (h.addChange index change he)
  | commit index comment => exact hnothing (h.commit index comment he)
  | settled outcome => exact h.settle outcome he
  | resumed k => exact hnothing (h.resume k)
  | tick now => exact hnothing (h.others rfl (fun _ => le_refl _) rfl (fun _ => Or.inl) rfl rfl)

/-- What is watched is what the database has stored. -/
theorem bundles_taken (h : w.taken.map Write.bundle = w.db.stored) (event : Event lib) :
    (w.step event).taken.map Write.bundle = (w.step event).db.stored := by
  have hothers : ∀ db : Database lib, db.stored = w.db.stored →
      (w.taken ++ []).map Write.bundle = db.stored := by
    intro db hdb
    rw [List.append_nil, h, hdb]
  cases event with
  | startBundle identity comment =>
      refine hothers (w.db.startBundle identity comment) ?_
      unfold Database.startBundle
      split <;> rfl
  | granted osIdentity now =>
      refine hothers (w.db.grant osIdentity now) ?_
      unfold Database.grant Database.completeBundle
      split
      · rfl
      · split <;> rfl
      · rfl
  | acquired chain created =>
      refine hothers (w.db.acquire chain created) ?_
      unfold Database.acquire
      split
      · split
        · split <;> rfl
        · rfl
      · rfl
  | saved medallion =>
      refine hothers (w.db.save medallion) ?_
      unfold Database.save
      split <;> rfl
  | obtainFails => exact hothers { w.db with holder := none } rfl
  | addChange index change =>
      refine hothers (w.db.addChange index change) ?_
      unfold Database.addChange
      split
      · rfl
      · split <;> rfl
  | commit index comment =>
      refine hothers (w.db.commit index comment) ?_
      unfold Database.commit
      split
      · rfl
      · split <;> rfl
  | settled outcome =>
      show (w.taken ++ w.db.takes (.settled outcome)).map Write.bundle = (w.db.settle outcome).stored
      rw [List.map_append, h]
      unfold takes Database.settle
      cases w.db.writes with
      | nil => exact List.append_nil _
      | cons write rest =>
          simp only
          by_cases hfails : outcome = .fails
          · rw [if_pos hfails, if_neg (fun hboth => hboth.1 hfails)]
            exact List.append_nil _
          · rw [if_neg hfails]
            cases hr : (w.db.store.addBundle write.bundle).2 with
            | error e =>
                rw [if_neg (fun hboth => nomatch hboth.2)]
                exact List.append_nil _
            | ok added =>
                cases added with
                | false =>
                    rw [if_neg (fun hboth => nomatch hboth.2)]
                    exact List.append_nil _
                | true =>
                    rw [if_pos ⟨hfails, rfl⟩]
                    rfl
  | resumed k =>
      refine hothers (w.db.resume k) ?_
      unfold Database.resume
      split
      · rfl
      · split <;> rfl
  | tick now => exact hothers { w.db with lastTime := generateTimestamp w.db.lastTime now } rfl

/-- **Watching** changes nothing: the database is the one of the run, and what is watched is
what it has stored. -/
theorem run_watched (events : List (Event lib)) : ∀ {w : Watched lib},
    w.taken.map Write.bundle = w.db.stored →
      (Machine.run step w events).db = Machine.run Database.step w.db events ∧
        (Machine.run step w events).taken.map Write.bundle
          = (Machine.run step w events).db.stored := by
  induction events with
  | nil => exact fun h => ⟨rfl, h⟩
  | cons event rest ih => exact fun h => ih (bundles_taken h event)

/-- **Changes are stored once** along every run in which no bundler is given changes or
committed again while a commit of it may still come to its end, and the store holds no bundle
before. -/
theorem no_change_lost (store : Store lib) (identity : Option String) (lastTime : U64)
    (events : List (Event lib))
    (h : Machine.AllSteps step Exclusive ⟨opened store identity lastTime, []⟩ events) :
    StoredOnce (Machine.run step ⟨opened store identity lastTime, []⟩ events) := by
  have hinv := Machine.run_invariant (fun w event (hi : Inv w) he => hi.step event he) events
    _ (Inv.opened store identity lastTime) h
  exact hinv.storedOnce

/-- A change, its commit, and a change that comes too late and is refused. -/
def oneCommit : List (Event Sodium.unsigned) :=
  [.startBundle none "", .granted "me" 0, .acquired none .unsigned, .saved 7,
    .addChange 0 .unset, .commit 0 "", .granted "me" 1000, .settled .completes, .resumed 0,
    .addChange 0 .unset]

theorem no_change_lost_oneCommit :
    Machine.AllSteps step Exclusive ⟨onEmpty, []⟩ oneCommit ∧
      StoredOnce (Machine.run step ⟨onEmpty, []⟩ oneCommit) := by
  have h : Machine.AllSteps step Exclusive ⟨onEmpty, []⟩ oneCommit := by
    refine ⟨trivial, trivial, trivial, trivial, ?_, ?_, trivial, ?_, trivial, ?_, trivial⟩
    · intro bundler _ _ hhanded
      rcases hhanded with ⟨write, hw, -⟩ | ⟨answer, ha, -⟩
      · exact absurd hw List.not_mem_nil
      · exact absurd ha List.not_mem_nil
    · intro bundler _ _
      rfl
    · intro write _ old hold
      have hold : (∅ : Table Chain BundleInfo).get? write.bundle.info.chain = some old := hold
      exact absurd hold (by simp)
    · intro bundler hbundler hopen
      obtain rfl := Option.some.inj hbundler
      cases hopen
  exact ⟨h, no_change_lost {} none 0 oneCommit h⟩

/-- The calls of one commit up to the store, and what comes while it is there. -/
def meanwhile (events : List (Event Sodium.unsigned)) : List (Event Sodium.unsigned) :=
  [.startBundle none "", .granted "me" 0, .acquired none .unsigned, .saved 7,
    .addChange 0 .unset, .commit 0 "", .granted "me" 1000] ++ events

/-- **Dropped and doubled**: a change that is added while the store has the bundle is accepted
and never stored, though the commit resolves; and a second commit stores the changes again. -/
theorem changes_dropped_and_doubled :
    ¬ StoredOnce (Machine.run step ⟨onEmpty, []⟩
      (meanwhile [.addChange 0 .unset, .settled .completes, .resumed 0])) ∧
    ¬ StoredOnce (Machine.run step ⟨onEmpty, []⟩
      (meanwhile [.commit 0 "", .settled .completes, .granted "me" 2000, .settled .completes])) := by
  constructor
  · intro h
    obtain ⟨write, hwrite, -, -, hchange⟩ :=
      h.resolved _ List.mem_cons_self 2 .unset (List.mem_cons_of_mem _ List.mem_cons_self)
    obtain rfl := List.mem_singleton.mp hwrite
    cases hchange
  · intro h
    have hsame := h.atMostOnce 0 1 .unset List.mem_cons_self 0 1 _ _ rfl rfl ⟨rfl, by decide, rfl⟩
      ⟨rfl, by decide, rfl⟩
    cases hsame

end Watched

end Database

end Js

end Gink
