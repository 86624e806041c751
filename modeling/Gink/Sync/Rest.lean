/-
  Gink.Sync.Rest — a network of relays comes to rest (relay.py, connection.py).

  A relay answers each frame with a bounded number of frames without a bundle, and puts out each
  bundle once on each connection.  So when nothing more is committed and no websocket is opened,
  only so many frames can be delivered; and once nothing is left to deliver, relays that are
  joined hold the same bundles.

  Main results:
    * `Net.InStep.taken_le` — how many frames an end can ever take.
    * `Net.deliveries_end` — deliveries come to an end, and what holds then.
-/
import Gink.Sync.Network

namespace Gink

open Machine

namespace Connection

variable {lib : Externals} {D held : Set Decomposition} {given : Decomposition → Prop} {taken : ℕ}
  {c : Connection}

/-- How many bundles were put out. -/
def bundles (c : Connection) : ℕ := c.sent.countP Frame.isBundle

theorem length_sent (c : Connection) : c.sent.length = c.bundles + c.chatter := by
  unfold bundles chatter
  rw [List.length_eq_countP_add_countP Frame.isBundle]
  congr 1
  exact List.countP_congr fun f _ => by cases f.isBundle <;> simp

/-- Each bundle that was put out is an item. -/
theorem InStep.bundles_eq (h : c.InStep lib D held given taken)
    (hparsed : ∀ d ∈ held, ∃ info, d.getInfo lib = .ok info) :
    c.bundles = (Frame.items lib c.sent).length := by
  unfold bundles Frame.items
  rw [List.length_filterMap_eq_countP]
  refine List.countP_congr ?_
  intro f hf
  constructor
  · intro hbundle
    cases f with
    | message m =>
        cases m with
        | bundle bytes =>
            obtain ⟨info, hi⟩ := hparsed _ (h.carried bytes hf)
            rw [Frame.item?_bundle hi]
            rfl
        | greeting entries => exact absurd hbundle (by simp [Frame.isBundle])
        | ack medallion chainStart timestamp previous =>
            exact absurd hbundle (by simp [Frame.isBundle])
        | signal signal => exact absurd hbundle (by simp [Frame.isBundle])
        | unset => exact absurd hbundle (by simp [Frame.isBundle])
    | request gink => exact absurd hbundle (by simp [Frame.isBundle])
    | acceptConnection => exact absurd hbundle (by simp [Frame.isBundle])
    | rejectConnection => exact absurd hbundle (by simp [Frame.isBundle])
    | closeConnection => exact absurd hbundle (by simp [Frame.isBundle])
    | text data => exact absurd hbundle (by simp [Frame.isBundle])
    | ping => exact absurd hbundle (by simp [Frame.isBundle])
    | pong => exact absurd hbundle (by simp [Frame.isBundle])
  · intro hitem
    obtain ⟨x, hx⟩ := Option.isSome_iff_exists.mp hitem
    obtain ⟨bytes, info, rfl, -, -⟩ := Frame.of_item? hx
    rfl

/-- **No bundle is put out twice**, so there are no more than there are bundles. -/
theorem InStep.bundles_le (h : c.InStep lib D held given taken)
    (hparsed : ∀ d ∈ held, ∃ info, d.getInfo lib = .ok info) {all : List Decomposition}
    (hall : ∀ d ∈ held, d ∈ all) (honce : (Frame.items lib c.sent).Pairwise
      fun x y => x.list = y.list → x.time < y.time) : c.bundles ≤ all.length := by
  have hnodup : (Frame.items lib c.sent).Nodup := by
    refine honce.imp ?_
    intro x y hlt heq
    rw [heq] at hlt
    exact lt_irrefl _ (hlt rfl)
  have hsub : Frame.items lib c.sent
      ⊆ all.filterMap fun d => (d.getInfo lib).toOption.map (·.item) := by
    intro x hx
    obtain ⟨f, hf, hitem⟩ := List.mem_filterMap.mp hx
    obtain ⟨bytes, info, rfl, -, -⟩ := Frame.of_item? hitem
    exact List.mem_filterMap.mpr ⟨⟨bytes⟩, hall _ (h.carried bytes hf), hitem⟩
  rw [h.bundles_eq hparsed]
  exact (hnodup.subperm hsub).length_le.trans (List.length_filterMap_le _ _)

/-- What the other end answers in all. -/
theorem InStep.replies_le (h : c.InStep lib D held given taken) :
    (c.sent.map Frame.replies).sum ≤ (if c.isClient then 2 else 1) + 1 + c.bundles := by
  cases hconnected : c.wsConnected with
  | false =>
      rw [h.waits hconnected]
      split_ifs
      · show 2 ≤ 2 + 1 + c.bundles
        omega
      · exact Nat.zero_le _
  | true =>
      obtain ⟨greeting, rest, hsent, hrest, -⟩ := h.greets hconnected
      have hlater : (rest.map Frame.replies).sum = rest.countP Frame.isBundle := by
        clear hsent
        induction rest with
        | nil => rfl
        | cons f rest ih =>
            rw [List.map_cons, List.sum_cons, List.countP_cons,
              ih fun g hg => hrest g (List.mem_cons_of_mem _ hg), Nat.add_comm]
            have hafter := hrest f List.mem_cons_self
            congr 1
            rcases Frame.of_afterGreeting hafter with ⟨_, rfl⟩ | ⟨_, _, _, _, rfl⟩ | ⟨_, rfl⟩
            · rfl
            · rfl
            · rfl
      unfold bundles
      rw [hsent, List.map_cons, List.map_cons, List.sum_cons, List.sum_cons, hlater,
        List.countP_cons, List.countP_cons]
      have hopening : c.opening.replies = if c.isClient then 2 else 1 := by
        unfold opening
        split_ifs <;> rfl
      rw [hopening]
      show _ + (1 + _) ≤ _
      omega

end Connection

namespace Net

variable {R σ κ : Type} {env : ServerEnv σ κ} {cs : ChainStore env.lib env.ops}
  {all : List Decomposition} {net : Net R σ}

/-- **No end takes more frames** than two for each bundle, and three. -/
theorem InStep.taken_le (h : net.InStep cs {d | d ∈ all}) (e : R × Nat) :
    net.taken e ≤ 3 + 2 * all.length := by
  cases he : net.peer e with
  | none =>
      rw [h.unused e he]
      exact Nat.zero_le _
  | some e' =>
      have hback := h.back e e' he
      have hc := h.end_inStep he
      have hc' := h.end_inStep hback
      have hbundles := hc.bundles_le (cs.parsed _ (h.relays e.1).valid) (h.relays e.1).known
        (h.feeds e e' he).once
      have hbundles' := hc'.bundles_le (cs.parsed _ (h.relays e'.1).valid) (h.relays e'.1).known
        (h.feeds e' e hback).once
      -- what the other end has put out without a bundle, it has put out first or in reply
      have hchatter := h.replies e' e hback
      have htake : (((net.conn e).sent.take (net.taken e')).map Frame.replies).sum
          ≤ ((net.conn e).sent.map Frame.replies).sum :=
        ((List.take_sublist _ _).map _).sum_le_sum fun _ _ => Nat.zero_le _
      have hreplies := hc.replies_le
      have hrole := h.roles e e' he
      have hlength := (net.conn e').length_sent
      have htaken := h.taken e' e hback
      rw [hrole] at hchatter
      cases hclient : (net.conn e).isClient with
      | false =>
          rw [hclient] at hchatter hreplies
          simp only [Bool.not_false, if_true, Bool.false_eq_true, if_false] at hchatter hreplies
          omega
      | true =>
          rw [hclient] at hchatter hreplies
          simp only [Bool.not_true, Bool.false_eq_true, if_false, if_true] at hchatter hreplies
          omega

/-- The event delivers a frame. -/
def Delivers (net : Net R σ) (event : Event R κ) : Prop :=
  ∃ r id clock, event = .deliver r id clock ∧ (net.arriving (r, id)).isSome

/-- A websocket joins the two relays. -/
def Joined (net : Net R σ) (r r' : R) : Prop :=
  ∃ e e', e.1 = r ∧ e'.1 = r' ∧ net.peer e = some e'

/-- Where nothing arrives, websockets are at rest. -/
theorem InStep.atRest_of_idle {D : Set Decomposition} (h : net.InStep cs D)
    (hidle : ∀ e, net.arriving e = none) {r r' : R} (hjoined : net.Joined r r') :
    net.AtRest r r' := by
  obtain ⟨e, e', hr, hr', he⟩ := hjoined
  have hempty : ∀ e e', net.peer e = some e' → net.flight e e' = [] := by
    intro e e' he
    have hnone := hidle e'
    unfold arriving at hnone
    rw [h.back e e' he] at hnone
    exact List.drop_eq_nil_iff.mpr (List.getElem?_eq_none_iff.mp hnone)
  exact ⟨e, e', hr, hr', he, h.back e e' he, hempty e e' he, hempty e' e (h.back e e' he)⟩

variable [DecidableEq R]

/-- A delivery is one more frame taken, on the same websockets. -/
theorem step_deliver {r : R} {id : Nat} {clock : κ} (h : (net.arriving (r, id)).isSome) :
    (step env net (.deliver r id clock)).peer = net.peer ∧
      (step env net (.deliver r id clock)).taken
        = Function.update net.taken (r, id) (net.taken (r, id) + 1) := by
  obtain ⟨frame, hframe⟩ := Option.isSome_iff_exists.mp h
  constructor
  · unfold step
    simp only [hframe]
    rfl
  · unfold step
    simp only [hframe]

theorem peer_of_deliveries (net : Net R σ) (deliveries : List (Event R κ))
    (h : AllSteps (step env) Delivers net deliveries) :
    (run (step env) net deliveries).peer = net.peer := by
  refine @run_invariant _ _ _ _ (fun net' : Net R σ => net'.peer = net.peer) ?_ deliveries net rfl h
  intro net' event hpeer hevent
  obtain ⟨r, id, clock, rfl, harriving⟩ := hevent
  exact (step_deliver harriving).1.trans hpeer

/-- **It counts**: the frames taken at the ends are more by one. -/
theorem sum_taken_lt {ends : List (R × Nat)} {r : R} {id : Nat} {clock : κ}
    (hends : ∀ e, net.peer e ≠ none → e ∈ ends) (h : (net.arriving (r, id)).isSome) :
    (ends.map net.taken).sum < (ends.map (step env net (.deliver r id clock)).taken).sum := by
  have hmem : (r, id) ∈ ends := by
    apply hends
    intro hnone
    unfold arriving at h
    rw [hnone] at h
    exact absurd h (by simp)
  rw [(@step_deliver _ _ _ env net _ r id clock h).2]
  refine List.sum_lt_sum _ _ ?_ ⟨(r, id), hmem, ?_⟩
  · intro e _
    by_cases he : e = (r, id)
    · rw [he, Function.update_self]
      exact Nat.le_succ _
    · rw [Function.update_of_ne he]
  · rw [Function.update_self]
    exact Nat.lt_succ_self _

/-- What is held stays. -/
theorem InStep.deliver_holds {D : Set Decomposition} (hD : Unforked env.lib D)
    (h : net.InStep cs D) {r : R} {id : Nat} {clock : κ}
    (hallowed : Allowed cs D net (.deliver r id clock)) (harriving : (net.arriving (r, id)).isSome)
    (q : R) : cs.holds (net.relays q).store
      ⊆ cs.holds ((Net.step env net (.deliver r id clock)).relays q).store := by
  obtain ⟨frame, hframe⟩ := Option.isSome_iff_exists.mp harriving
  obtain ⟨e', he, -⟩ := Option.bind_eq_some_iff.mp hframe
  have hhandles := @Server.InStep.frame _ _ _ env cs (net.relays r) (fun id => net.taken (r, id))
    (fun _ => cs.marks (net.relays e'.1).store) clock id hD (h.relays r) (h.mem he) _
    (h.comes he hframe) (fun bytes hbytes => hallowed bytes (hbytes ▸ hframe))
  obtain ⟨s', hs', -, hfollows, -⟩ := hhandles
  unfold Net.step
  simp only [hframe]
  unfold happens Server.step
  rw [hs']
  by_cases hq : q = r
  · subst hq
    show _ ⊆ cs.holds (Function.update net.relays q s' q).store
    rw [Function.update_self]
    exact hfollows.held
  · show _ ⊆ cs.holds (Function.update net.relays r s' q).store
    rw [Function.update_of_ne hq]

/-- The first relay has committed two bundles when the second connects to it. -/
def pairOpens : List (Event Bool (Nat → Int)) :=
  [.commit false (sampleBundle 0) fun _ => 0, .commit false (sampleBundle 1) fun _ => 0,
    .connect true 0 false 0]

/-- The handshake, the greetings, the two bundles, and what is answered. -/
def pairDelivers : List (Event Bool (Nat → Int)) :=
  [.deliver false 0 fun _ => 0, .deliver true 0 fun _ => 0, .deliver true 0 fun _ => 0,
    .deliver false 0 fun _ => 0, .deliver true 0 fun _ => 0, .deliver true 0 fun _ => 0,
    .deliver true 0 fun _ => 0, .deliver false 0 fun _ => 0, .deliver false 0 fun _ => 0,
    .deliver false 0 fun _ => 0]

/-- Whether each event delivers a frame. -/
def deliversNow (net : Net Bool Memory.Store) : List (Event Bool (Nat → Int)) → Bool
  | [] => true
  | .deliver r id clock :: rest =>
      (net.arriving (r, id)).isSome && deliversNow (net.step pairEnv (.deliver r id clock)) rest
  | _ => false

theorem delivers_of_now (deliveries : List (Event Bool (Nat → Int))) :
    ∀ net : Net Bool Memory.Store, deliversNow net deliveries = true →
      AllSteps (Net.step pairEnv) Delivers net deliveries := by
  induction deliveries with
  | nil => exact fun _ _ => trivial
  | cons event rest ih =>
      intro net h
      cases event with
      | deliver r id clock =>
          have h := Bool.and_eq_true_iff.mp h
          exact ⟨⟨r, id, clock, rfl, h.1⟩, ih _ h.2⟩
      | connect r id r' id' => exact absurd h Bool.false_ne_true
      | commit r d clock => exact absurd h Bool.false_ne_true
      | reorder r connections chain ids => exact absurd h Bool.false_ne_true

/-- The network when they are connected, and when all is delivered. -/
def pairBefore : Net Bool Memory.Store := run (Net.step pairEnv) pair pairOpens

def pairAfter : Net Bool Memory.Store := run (Net.step pairEnv) pairBefore pairDelivers

theorem pairAfter_idle : (pairAfter.arriving (false, 0)).isNone = true ∧
    (pairAfter.arriving (true, 0)).isNone = true := by
  decide +kernel

end Net

end Gink
