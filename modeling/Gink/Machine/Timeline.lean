/-
  Gink.Machine.Timeline — cells that are written and cleared at addresses.

  Containers have cells, a cell for each key.  At an address a cell is written or a container is
  cleared, and a clearance empties what was written at an earlier time; addresses of one time do
  not clear each other.  Replaying events in the order of their addresses gives the cells at the
  end, and leaving out the later ones gives the cells at any time before.

  Main results:
    * `replay_eq_some_iff` — what a cell holds: the last write, if no clearance is of a later time.
    * `timeline_perm` — the order in which the events arrive is of no matter.
    * `asOf_eq_some_iff` — what it holds as of a time.
-/
import Mathlib

namespace Gink

namespace Timeline

variable {A T C K V : Type}

/-! ## §1. Events. -/

/-- Something that happens at an address. -/
inductive Happening (A C K V : Type) where
  | write (a : A) (c : C) (k : K) (v : V)
  | clear (a : A) (c : C)

/-- Where it happens. -/
def Happening.address : Happening A C K V → A
  | .write a _ _ _ => a
  | .clear a _ => a

/-- What cells hold, and where that was written. -/
abbrev Cells (A C K V : Type) := C → K → Option (A × V)

/-- Nothing happens twice at an address. -/
def OncePerAddress (events : List (Happening A C K V)) : Prop :=
  ∀ e ∈ events, ∀ e' ∈ events, e.address = e'.address → e = e'

theorem OncePerAddress.sublist {events events' : List (Happening A C K V)}
    (h : OncePerAddress events) (hsub : ∀ e ∈ events', e ∈ events) : OncePerAddress events' :=
  fun e he e' he' => h e (hsub e he) e' (hsub e' he')

section
variable [LinearOrder T] [DecidableEq C] [DecidableEq K]

/-- What an event does to the cells; `time` is the time of an address. -/
def Happening.apply (time : A → T) (cells : Cells A C K V) : Happening A C K V → Cells A C K V
  | .write a c k v => fun c' k' => if c' = c ∧ k' = k then some (a, v) else cells c' k'
  | .clear a c => fun c' k' =>
      (cells c' k').filter fun cell => !decide (c' = c ∧ time cell.1 < time a)

/-- The cells after these events, one after the other. -/
def replay (time : A → T) (events : List (Happening A C K V)) : Cells A C K V :=
  events.foldl (Happening.apply time) fun _ _ => none

theorem replay_append_singleton {time : A → T} {events : List (Happening A C K V)}
    (e : Happening A C K V) :
    replay time (events ++ [e]) = Happening.apply time (replay time events) e := by
  unfold replay
  rw [List.foldl_append]
  rfl

end

section
variable [LinearOrder A]

/-- Events in the order of their addresses. -/
def inOrder (events : List (Happening A C K V)) : List (Happening A C K V) :=
  events.insertionSort fun e e' => e.address ≤ e'.address

theorem mem_inOrder {events : List (Happening A C K V)} {e : Happening A C K V} :
    e ∈ inOrder events ↔ e ∈ events :=
  (List.perm_insertionSort _ _).mem_iff

theorem inOrder_sorted (events : List (Happening A C K V)) :
    (inOrder events).Pairwise (fun e e' => e.address ≤ e'.address) :=
  haveI : IsTrans (Happening A C K V) fun e e' => e.address ≤ e'.address := ⟨fun _ _ _ => le_trans⟩
  haveI : Std.Total (fun e e' : Happening A C K V => e.address ≤ e'.address) :=
    ⟨fun _ _ => le_total _ _⟩
  List.pairwise_insertionSort _ _

end

/-- The events of before `t`. -/
def before [LinearOrder T] (time : A → T) (t : T) (events : List (Happening A C K V)) :
    List (Happening A C K V) :=
  events.filter fun e => decide (time e.address < t)

theorem mem_before [LinearOrder T] {time : A → T} {events : List (Happening A C K V)} {t : T}
    {e : Happening A C K V} : e ∈ before time t events ↔ e ∈ events ∧ time e.address < t := by
  unfold before
  rw [List.mem_filter, decide_eq_true_eq]

/-- **The cells as of `t`**, whatever the order in which the events arrived. -/
def asOf [LinearOrder A] [LinearOrder T] [DecidableEq C] [DecidableEq K] (time : A → T)
    (events : List (Happening A C K V)) (t : T) : Cells A C K V :=
  replay time (inOrder (before time t events))

/-! ## §2. What a cell holds. -/

variable {time : A → T} {events : List (Happening A C K V)} {c : C} {k : K} {a : A} {v : V}

/-- The last write to the cell, and no clearance of a later time. -/
structure Holds [LinearOrder A] [LinearOrder T] (time : A → T) (events : List (Happening A C K V))
    (c : C) (k : K) (a : A) (v : V) : Prop where
  written : Happening.write a c k v ∈ events
  last : ∀ a' v', Happening.write a' c k v' ∈ events → a' ≤ a
  kept : ∀ z, Happening.clear z c ∈ events → ¬ time a < time z

theorem Holds.congr [LinearOrder A] [LinearOrder T] {events' : List (Happening A C K V)}
    (h : ∀ e, e ∈ events ↔ e ∈ events') :
    Holds time events c k a v ↔ Holds time events' c k a v :=
  ⟨fun hold => ⟨(h _).mp hold.written, fun a' v' hw => hold.last a' v' ((h _).mpr hw),
      fun z hz => hold.kept z ((h _).mpr hz)⟩,
    fun hold => ⟨(h _).mpr hold.written, fun a' v' hw => hold.last a' v' ((h _).mp hw),
      fun z hz => hold.kept z ((h _).mp hz)⟩⟩

variable [LinearOrder A] [LinearOrder T] [DecidableEq C] [DecidableEq K]

/-- **What a cell holds** after events in the order of their addresses. -/
theorem replay_eq_some_iff (hmono : Monotone time) :
    ∀ {events : List (Happening A C K V)}, OncePerAddress events →
      events.Pairwise (fun e e' => e.address ≤ e'.address) →
      (replay time events c k = some (a, v) ↔ Holds time events c k a v) := by
  intro events
  induction events using List.reverseRecOn with
  | nil =>
      intro _ _
      constructor
      · intro h
        cases h
      · intro h
        exact absurd h.written List.not_mem_nil
  | append_singleton events e ih =>
      intro hone hsorted
      have hone' : OncePerAddress events :=
        hone.sublist fun x hx => List.mem_append_left _ hx
      obtain ⟨hsorted', -, hle⟩ := List.pairwise_append.mp hsorted
      have hle : ∀ x ∈ events, x.address ≤ e.address :=
        fun x hx => hle x hx e (List.mem_singleton_self e)
      have ih := ih hone' hsorted'
      rw [replay_append_singleton]
      cases e with
      | write b d l w =>
          show (if c = d ∧ k = l then some (b, w) else replay time events c k) = some (a, v) ↔ _
          by_cases hcell : c = d ∧ k = l
          · -- the write is the last one of this cell, and no clearance is later
            obtain ⟨rfl, rfl⟩ := hcell
            rw [if_pos ⟨rfl, rfl⟩]
            constructor
            · intro h
              cases h
              refine ⟨by simp, ?_, ?_⟩
              · intro a' v' hw
                rcases List.mem_append.mp hw with hw | hw
                · exact hle _ hw
                · cases List.mem_singleton.mp hw
                  exact le_refl _
              · intro z hz hlt
                rcases List.mem_append.mp hz with hz | hz
                · exact absurd (hmono (hle _ hz)) (not_le.mpr hlt)
                · cases List.mem_singleton.mp hz
            · intro h
              have hab : b ≤ a := h.last b w (by simp)
              rcases List.mem_append.mp h.written with hw | hw
              · have hba : a ≤ b := hle _ hw
                have heq := hone _ h.written (Happening.write b c k w) (by simp)
                  (le_antisymm hba hab)
                cases heq
                rfl
              · cases List.mem_singleton.mp hw
                rfl
          · rw [if_neg hcell, ih]
            have hother : ∀ a' v', Happening.write a' c k v' ∈ events ++ [.write b d l w] ↔
                Happening.write a' c k v' ∈ events := by
              intro a' v'
              rw [List.mem_append, List.mem_singleton]
              refine ⟨fun h => h.resolve_right ?_, Or.inl⟩
              intro heq
              cases heq
              exact hcell ⟨rfl, rfl⟩
            constructor
            · intro h
              refine ⟨(hother _ _).mpr h.written,
                fun a' v' hw => h.last a' v' ((hother _ _).mp hw), ?_⟩
              intro z hz
              rcases List.mem_append.mp hz with hz | hz
              · exact h.kept z hz
              · cases List.mem_singleton.mp hz
            · intro h
              exact ⟨(hother _ _).mp h.written, fun a' v' hw => h.last a' v' ((hother _ _).mpr hw),
                fun z hz => h.kept z (List.mem_append_left _ hz)⟩
      | clear z d =>
          show ((replay time events c k).filter
            fun cell => !decide (c = d ∧ time cell.1 < time z)) = some (a, v) ↔ _
          rw [Option.filter_eq_some_iff, ih]
          simp only [Bool.not_eq_true', decide_eq_false_iff_not]
          constructor
          · rintro ⟨h, hnot⟩
            refine ⟨List.mem_append_left _ h.written, ?_, ?_⟩
            · intro a' v' hw
              rcases List.mem_append.mp hw with hw | hw
              · exact h.last a' v' hw
              · cases List.mem_singleton.mp hw
            · intro y hy hlt
              rcases List.mem_append.mp hy with hy | hy
              · exact h.kept y hy hlt
              · cases List.mem_singleton.mp hy
                exact hnot ⟨rfl, hlt⟩
          · intro h
            have hw : Happening.write a c k v ∈ events := by
              rcases List.mem_append.mp h.written with hw | hw
              · exact hw
              · cases List.mem_singleton.mp hw
            refine ⟨⟨hw, fun a' v' hw' => h.last a' v' (List.mem_append_left _ hw'),
              fun y hy => h.kept y (List.mem_append_left _ hy)⟩, ?_⟩
            rintro ⟨rfl, hlt⟩
            exact h.kept z (by simp) hlt

/-! ## §3. As of a time. -/

/-- **A cell as of `t`** holds what was last written to it before, if nothing before `t` is of a
later time and clears it. -/
theorem asOf_eq_some_iff (hmono : Monotone time) (hone : OncePerAddress events) (t : T) :
    asOf time events t c k = some (a, v) ↔ Holds time (before time t events) c k a v := by
  unfold asOf
  rw [replay_eq_some_iff hmono _ (inOrder_sorted _)]
  · exact Holds.congr fun e => mem_inOrder
  · exact hone.sublist fun e he => (mem_before.mp (mem_inOrder.mp he)).1

/-- **The order of arrival** is of no matter. -/
theorem timeline_perm {events' : List (Happening A C K V)} (hmono : Monotone time)
    (hone : OncePerAddress events) (hperm : events.Perm events') (t : T) :
    asOf time events t = asOf time events' t := by
  have hone' : OncePerAddress events' := hone.sublist fun e he => hperm.mem_iff.mpr he
  funext c k
  apply Option.ext
  rintro ⟨a, v⟩
  rw [asOf_eq_some_iff hmono hone, asOf_eq_some_iff hmono hone']
  exact Holds.congr fun e => by rw [mem_before, mem_before, hperm.mem_iff]

end Timeline

end Gink
