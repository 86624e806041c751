/-
  Gink.Js.Acks — acknowledgements between two JavaScript databases.

  Each side keeps the time of the last bundle it has sent of each chain until an ack of that
  bundle comes.  A bundle is acked when its receiver's store has added it, and only then: one
  that the receiver has already, from another peer or because the two crossed, leaves the
  sender waiting.

  Main results:
    * `acks_drain` — nobody waits once nothing is on its way, where each bundle that is the
      last sent of its chain is new to its receiver.
    * `acks_crossed` — a bundle that both sides get from elsewhere and send each other.
-/
import Gink.Js.Connection

namespace Gink

namespace Js

/-! ## §1. What a connection waits for. -/

namespace Connection

/-- The counter is the number of chains that wait. -/
def Counted (c : Connection) : Prop := c.unackedChains = c.unacked.rows.length

/-- The connection later: more messages were sent, and what waits newly was sent with them. -/
structure Extends (c c' : Connection) (more : List Message) : Prop where
  sent : c'.sent = c.sent ++ more
  counted : c.Counted → c'.Counted
  unacked : ∀ chain time, c'.unacked.get? chain = some time →
    c.unacked.get? chain = some time ∨
      time ≠ 0 ∧ ∃ b, Message.bundle b ∈ more ∧ b.info.chain = chain ∧ b.info.timestamp = time

variable {c c' c'' : Connection}

theorem Extends.refl (c : Connection) : c.Extends c [] :=
  ⟨(List.append_nil _).symm, id, fun _ _ h => Or.inl h⟩

theorem Extends.trans {l l' : List Message} (h : c.Extends c' l) (h' : c'.Extends c'' l') :
    c.Extends c'' (l ++ l') := by
  refine ⟨?_, fun hc => h'.counted (h.counted hc), ?_⟩
  · rw [h'.sent, h.sent, List.append_assoc]
  · intro chain time htime
    rcases h'.unacked chain time htime with hold | ⟨hne, b, hb, hrest⟩
    · rcases h.unacked chain time hold with hold | ⟨hne, b, hb, hrest⟩
      · exact Or.inl hold
      · exact Or.inr ⟨hne, b, List.mem_append_left _ hb, hrest⟩
    · exact Or.inr ⟨hne, b, List.mem_append_right _ hb, hrest⟩

/-- What sends a message and leaves what waits as it is. -/
theorem extends_of_sent {more : List Message} (hsent : c'.sent = c.sent ++ more)
    (hunacked : c'.unacked = c.unacked) (hcount : c'.unackedChains = c.unackedChains) :
    c.Extends c' more := by
  refine ⟨hsent, ?_, ?_⟩
  · unfold Counted
    rw [hunacked, hcount]
    exact id
  · rw [hunacked]
    exact fun _ _ h => Or.inl h

theorem extends_sendBundle (c : Connection) (b : BundleView) (hne : b.info.timestamp ≠ 0) :
    c.Extends (c.sendBundle b) [.bundle b] := by
  refine ⟨rfl, ?_, ?_⟩
  · intro hc
    unfold Counted sendBundle at *
    cases hg : c.unacked.get? b.info.chain with
    | none =>
        show (if ((c.send (.bundle b)).unacked.get? b.info.chain).isNone then _ else _) = _
        rw [if_pos (by show (c.unacked.get? b.info.chain).isNone = true; rw [hg]; rfl)]
        show c.unackedChains + 1 = (c.unacked.put b.info.chain b.info.timestamp).rows.length
        rw [Table.length_rows_put_of_none _ hg, hc]
    | some old =>
        show (if ((c.send (.bundle b)).unacked.get? b.info.chain).isNone then _ else _) = _
        rw [if_neg (by show ¬ (c.unacked.get? b.info.chain).isNone = true; rw [hg]; simp)]
        show c.unackedChains = (c.unacked.put b.info.chain b.info.timestamp).rows.length
        rw [Table.length_rows_put_of_some _ hg, hc]
  · intro chain time htime
    have htime : (c.unacked.put b.info.chain b.info.timestamp).get? chain = some time := htime
    by_cases hchain : chain = b.info.chain
    · subst hchain
      rw [Table.get?_put_self, Option.some.injEq] at htime
      subst htime
      exact Or.inr ⟨hne, b, List.mem_singleton_self _, rfl, rfl⟩
    · rw [Table.get?_put_of_ne _ _ hchain] at htime
      exact Or.inl htime

theorem extends_sendIfNeeded {b : BundleView} (h : c.sendIfNeeded b = .ok c') :
    ∃ more, c.Extends c' more := by
  unfold sendIfNeeded at h
  split at h
  · obtain rfl := Except.ok.inj h
    exact ⟨[], .refl c⟩
  · rename_i m hm
    split at h
    · exact absurd h (by simp)
    · obtain rfl := Except.ok.inj h
      exact ⟨[], extends_of_sent (List.append_nil _).symm rfl rfl⟩
    · rename_i m' hmark
      obtain rfl := Except.ok.inj h
      -- what is sent is later than what the map holds, and so not at time zero
      have hne : b.info.timestamp ≠ 0 := by
        unfold HasMap.markIfValid at hmark
        by_cases hlt : m.seenThrough b.info.chain < b.info.timestamp
        · exact Fin.pos_iff_ne_zero.mp (lt_of_le_of_lt (Fin.zero_le _) hlt)
        · rw [if_neg hlt] at hmark
          exact absurd hmark (by simp)
      have hsame : c.Extends { c with peerHasMap := some m' } [] :=
        extends_of_sent (List.append_nil _).symm rfl rfl
      exact ⟨_, hsame.trans (extends_sendBundle _ b hne)⟩

theorem extends_onReceivedBundle (c : Connection) (info : BundleInfo) :
    c.Extends (c.onReceivedBundle info) [.ack info.chain info.timestamp] :=
  extends_of_sent rfl rfl rfl

theorem extends_onGreeting (c : Connection) (entries : List (Chain × U64)) :
    c.Extends (c.onGreeting entries) [] := by
  unfold onGreeting
  split
  · exact .refl c
  · exact extends_of_sent (List.append_nil _).symm rfl rfl

/-- **An ack** takes off what it names, if that is the last bundle sent. -/
theorem onAck_unacked (c : Connection) (chain : Chain) (time : U64) {chain' : Chain} {time' : U64}
    (h : (c.onAck chain time).unacked.get? chain' = some time') :
    c.unacked.get? chain' = some time' ∧ (time' ≠ 0 → ¬ (chain' = chain ∧ time' = time)) := by
  unfold onAck at h
  split at h
  · rename_i hnone
    refine ⟨h, ?_⟩
    rintro - ⟨rfl, -⟩
    rw [hnone] at h
    exact absurd h (by simp)
  · rename_i last hlast
    by_cases hacked : last ≠ 0 ∧ time = last
    · rw [if_pos hacked] at h
      have h : (c.unacked.erase chain).get? chain' = some time' := h
      rw [Table.get?_erase] at h
      by_cases hchain : chain' = chain
      · rw [if_pos hchain] at h
        exact absurd h (by simp)
      · rw [if_neg hchain] at h
        exact ⟨h, fun _ hboth => hchain hboth.1⟩
    · rw [if_neg hacked] at h
      refine ⟨h, ?_⟩
      rintro hne ⟨rfl, rfl⟩
      rw [hlast, Option.some.injEq] at h
      exact hacked ⟨by rw [h]; exact hne, h.symm⟩

theorem onAck_counted (h : c.Counted) (chain : Chain) (time : U64) :
    (c.onAck chain time).Counted := by
  unfold onAck
  split
  · exact h
  · rename_i last hlast
    by_cases hacked : last ≠ 0 ∧ time = last
    · rw [if_pos hacked]
      show c.unackedChains - 1 = (c.unacked.erase chain).rows.length
      rw [show c.unackedChains = c.unacked.rows.length from h, Table.length_rows_erase hlast]
      omega
    · rw [if_neg hacked]
      exact h

theorem onAck_sent (c : Connection) (chain : Chain) (time : U64) :
    (c.onAck chain time).sent = c.sent := by
  unfold onAck
  split
  · rfl
  · split_ifs <;> rfl

end Connection

namespace Peered

variable {lib : Sodium} {db : Peered lib} {id : Nat}

/-! ## §2. One connection of a database. -/

/-- `this.connections.get(id)`. -/
def connection (db : Peered lib) (id : Nat) : Option Connection :=
  (db.connections.find? fun x => decide (x.1 = id)).map (·.2)

/-- Connections that keep their ids and become others. -/
theorem find?_forall₂ {R : Connection → Connection → Prop} {l l' : List (Nat × Connection)}
    (h : List.Forall₂ (fun x y => x.1 = y.1 ∧ R x.2 y.2) l l') {c : Connection}
    (hc : (l.find? fun x => decide (x.1 = id)).map (·.2) = some c) :
    ∃ c', (l'.find? fun x => decide (x.1 = id)).map (·.2) = some c' ∧ R c c' := by
  induction h with
  | nil => exact absurd hc (by simp)
  | @cons x y l l' hxy _ ih =>
      rw [List.find?_cons] at hc ⊢
      by_cases hx : x.1 = id
      · have hy : y.1 = id := hxy.1 ▸ hx
        simp only [hx, decide_true, Option.map_some, Option.some.injEq] at hc
        simp only [hy, decide_true, Option.map_some]
        exact ⟨y.2, rfl, hc ▸ hxy.2⟩
      · have hy : y.1 ≠ id := fun he => hx (hxy.1.trans he)
        simp only [hx, decide_false] at hc
        simp only [hy, decide_false]
        exact ih hc

theorem connection_update (db : Peered lib) (id : Nat) (f : Connection → Connection) (id' : Nat) :
    (db.update id f).connection id' =
      if id' = id then (db.connection id').map f else db.connection id' := by
  unfold connection Peered.update
  rw [List.find?_map]
  have hsame : (fun x : Nat × Connection => decide (x.1 = id')) ∘
      (fun x => if x.1 = id then (x.1, f x.2) else x) = fun x => decide (x.1 = id') := by
    funext x
    by_cases hx : x.1 = id
    · simp [hx]
    · simp [hx]
  rw [hsame]
  cases hfound : db.connections.find? fun x => decide (x.1 = id') with
  | none => simp
  | some x =>
      have hid : x.1 = id' := by simpa using List.find?_some hfound
      by_cases heq : id' = id
      · simp [hid, heq]
      · have hx : x.1 ≠ id := fun he => heq (hid.symm.trans he)
        simp [heq, hx]

/-- The connection with an id is there still, and has grown. -/
def Grows (db db' : Peered lib) (id : Nat) : Prop :=
  ∀ c, db.connection id = some c → ∃ c' more, db'.connection id = some c' ∧ c.Extends c' more

theorem Grows.of_eq {db' : Peered lib} (h : db'.connections = db.connections) :
    Grows db db' id := by
  intro c hc
  refine ⟨c, [], ?_, .refl c⟩
  unfold connection
  rw [h]
  exact hc

theorem Grows.update {id' : Nat} {f : Connection → Connection}
    (hf : ∀ c : Connection, ∃ more, c.Extends (f c) more) : Grows db (db.update id' f) id := by
  intro c hc
  rw [connection_update]
  by_cases hid : id = id'
  · rw [if_pos hid, hc]
    obtain ⟨more, hmore⟩ := hf c
    exact ⟨f c, more, rfl, hmore⟩
  · rw [if_neg hid, hc]
    exact ⟨c, [], rfl, .refl c⟩

theorem broadcast_extends (bundle : BundleView) (fromConnectionId : Option Nat)
    (l : List (Nat × Connection)) :
    List.Forall₂ (fun x y => x.1 = y.1 ∧ ∃ more, x.2.Extends y.2 more) l
      (broadcast bundle fromConnectionId l).1 := by
  have hsame : ∀ l : List (Nat × Connection),
      List.Forall₂ (fun x y => x.1 = y.1 ∧ ∃ more, x.2.Extends y.2 more) l l := fun l =>
    List.forall₂_same.mpr fun x _ => ⟨rfl, [], .refl x.2⟩
  induction l with
  | nil => exact .nil
  | cons x l ih =>
      obtain ⟨id, peer⟩ := x
      unfold broadcast
      split_ifs
      · exact .cons ⟨rfl, [], .refl peer⟩ ih
      · split
        · exact hsame _
        · rename_i peer' hsend
          exact .cons ⟨rfl, Connection.extends_sendIfNeeded hsend⟩ ih

theorem Grows.publish (arrival : Arrival) : Grows db (db.publish arrival) id := by
  intro c hc
  obtain ⟨c', hc', more, hmore⟩ := @find?_forall₂ id (fun c c' => ∃ more, c.Extends c' more) _ _
    (broadcast_extends arrival.bundle arrival.fromConnectionId db.connections) c hc
  exact ⟨c', more, hc', hmore⟩

theorem nextRow_extends (c : Connection) : ∃ more, c.Extends (nextRow c).1 more := by
  unfold nextRow
  split
  · exact ⟨[.signal .initialBundlesSent], Connection.extends_of_sent rfl rfl rfl⟩
  · split
    · exact ⟨[], Connection.extends_of_sent (List.append_nil _).symm rfl rfl⟩
    · rename_i c' hsend
      obtain ⟨more, hmore⟩ := Connection.extends_sendIfNeeded hsend
      exact ⟨more, hmore.sent, hmore.counted, hmore.unacked⟩
  · exact ⟨[], .refl c⟩

/-- What a bundle that was added brings to the connection it came from: an ack. -/
theorem goOn_acks {arrival : Arrival} {rest : List Arrival} (hadded : db.added = arrival :: rest)
    {c : Connection} (hc : db.connection id = some c) :
    ∃ c' more, db.goOn.connection id = some c' ∧ c.Extends c' more ∧
      (arrival.fromConnectionId = some id →
        Message.ack arrival.bundle.info.chain arrival.bundle.info.timestamp ∈ more) := by
  unfold Peered.goOn
  rw [hadded]
  set db₁ : Peered lib :=
    { db with added := rest, iHave := db.iHave.markAsHaving arrival.bundle.info } with hdb₁
  have hc₁ : db₁.connection id = some c := hc
  obtain ⟨c₁, more₁, hcon, hext, hack⟩ : ∃ c₁ more, (db₁.acknowledge arrival).connection id = some c₁ ∧
      c.Extends c₁ more ∧ (arrival.fromConnectionId = some id →
        Message.ack arrival.bundle.info.chain arrival.bundle.info.timestamp ∈ more) := by
    unfold acknowledge
    cases hfrom : arrival.fromConnectionId with
    | none => exact ⟨c, [], hc₁, .refl c, fun he => absurd he (by simp)⟩
    | some from' =>
        dsimp only
        rw [connection_update, hc₁]
        by_cases hid : id = from'
        · rw [if_pos hid]
          exact ⟨_, _, rfl, Connection.extends_onReceivedBundle c _,
            fun _ => List.mem_singleton_self _⟩
        · rw [if_neg hid]
          exact ⟨c, [], rfl, .refl c, fun he => absurd (Option.some.inj he).symm hid⟩
  obtain ⟨c₂, more₂, hcon₂, hext₂⟩ := Grows.publish arrival c₁ hcon
  exact ⟨c₂, more₁ ++ more₂, hcon₂, hext.trans hext₂,
    fun he => List.mem_append_left _ (hack he)⟩

/-! ## §3. The bundles on their way into the store. -/

/-- What was handed to the store, or added, and not gone on with. -/
def arrivals (db : Peered lib) : List Arrival := db.writes ++ db.added

/-- The store is done with the first bundle it was handed. -/
theorem settle_rest {head : Arrival} {rest : List Arrival} (hwrites : db.writes = head :: rest)
    (outcome : Database.Outcome) :
    (db.settle outcome).writes = rest ∧ (∀ arrival ∈ db.added, arrival ∈ (db.settle outcome).added) ∧
      (outcome = .completes → (db.store.addBundle head.bundle).2 = .ok true →
        head ∈ (db.settle outcome).added) := by
  unfold Peered.settle
  rw [hwrites]
  dsimp only
  by_cases hfails : outcome = .fails
  · rw [if_pos hfails]
    refine ⟨rfl, fun _ h => h, fun hc => absurd (hfails.symm.trans hc) (by simp)⟩
  · rw [if_neg hfails]
    split
    · by_cases hcompletes : outcome = .completes
      · rw [if_pos hcompletes]
        exact ⟨rfl, fun _ h => List.mem_append_left _ h, fun _ _ => by simp⟩
      · rw [if_neg hcompletes]
        exact ⟨rfl, fun _ h => h, fun hc => absurd hc hcompletes⟩
    · rename_i hnot
      exact ⟨rfl, fun _ h => h, fun _ ha => absurd ha hnot⟩

theorem settle_arrivals (db : Peered lib) (outcome : Database.Outcome) {arrival : Arrival}
    (h : arrival ∈ db.arrivals) :
    arrival ∈ (db.settle outcome).arrivals ∨
      db.writes.head? = some arrival ∧
        ¬ (outcome = .completes ∧ (db.store.addBundle arrival.bundle).2 = .ok true) := by
  cases hw : db.writes with
  | nil =>
      have hsame : db.settle outcome = db := by
        unfold Peered.settle
        rw [hw]
      rw [hsame]
      exact Or.inl h
  | cons head rest =>
      obtain ⟨hrest, hadded, hhead⟩ := settle_rest hw outcome
      unfold arrivals at h ⊢
      rw [hw, List.cons_append, List.mem_cons] at h
      rw [hrest]
      rcases h with rfl | h
      · by_cases hcompletes : outcome = .completes ∧
            (db.store.addBundle arrival.bundle).2 = .ok true
        · exact Or.inl (List.mem_append_right _ (hhead hcompletes.1 hcompletes.2))
        · exact Or.inr ⟨rfl, hcompletes⟩
      · refine Or.inl ?_
        rcases List.mem_append.mp h with hw | ha
        · exact List.mem_append_left _ hw
        · exact List.mem_append_right _ (hadded arrival ha)

theorem settle_connections (db : Peered lib) (outcome : Database.Outcome) :
    (db.settle outcome).connections = db.connections := by
  unfold Peered.settle
  split
  · rfl
  · by_cases hfails : outcome = .fails
    · rw [if_pos hfails]
    · rw [if_neg hfails]
      dsimp only
      split
      · by_cases hcompletes : outcome = .completes
        · rw [if_pos hcompletes]
        · rw [if_neg hcompletes]
      · rfl

theorem acknowledge_writes (db : Peered lib) (arrival : Arrival) :
    (db.acknowledge arrival).arrivals = db.arrivals := by
  unfold acknowledge
  split <;> rfl

/-- **One step of a database**: its connection to the peer has grown, and what came from the
peer is still on its way, or is acked, or was not added. -/
theorem step_peer (event : Event) {c : Connection} (hc : db.connection id = some c)
    (hevent : ∀ message, event ≠ .message id message) :
    ∃ c' more, (db.step event).connection id = some c' ∧ c.Extends c' more ∧
      ∀ arrival ∈ db.arrivals, arrival.fromConnectionId = some id →
        arrival ∈ (db.step event).arrivals ∨
        Message.ack arrival.bundle.info.chain arrival.bundle.info.timestamp ∈ more ∨
        ∃ outcome, event = .settled outcome ∧ db.writes.head? = some arrival ∧
          ¬ (outcome = .completes ∧ (db.store.addBundle arrival.bundle).2 = .ok true) := by
  -- all events but two leave the arrivals, or add one
  have hgrows : Grows db (db.step event) id → (∀ arrival ∈ db.arrivals,
      arrival ∈ (db.step event).arrivals) → ∃ c' more, (db.step event).connection id = some c' ∧
      c.Extends c' more ∧ ∀ arrival ∈ db.arrivals, arrival.fromConnectionId = some id →
        arrival ∈ (db.step event).arrivals ∨
        Message.ack arrival.bundle.info.chain arrival.bundle.info.timestamp ∈ more ∨
        ∃ outcome, event = .settled outcome ∧ db.writes.head? = some arrival ∧
          ¬ (outcome = .completes ∧ (db.store.addBundle arrival.bundle).2 = .ok true) := by
    intro hg ha
    obtain ⟨c', more, hc', hext⟩ := hg c hc
    exact ⟨c', more, hc', hext, fun arrival harrival _ => Or.inl (ha arrival harrival)⟩
  cases event with
  | connect id' =>
      refine hgrows ?_ ?_
      · show Grows db (db.connect id') id
        unfold Peered.connect
        split_ifs
        · exact .of_eq rfl
        · intro c hc
          refine ⟨c, [], ?_, .refl c⟩
          unfold connection at hc ⊢
          obtain ⟨x, hx, rfl⟩ := Option.map_eq_some_iff.mp hc
          simp only [List.find?_append, hx, Option.some_or, Option.map_some]
      · show ∀ arrival ∈ db.arrivals, arrival ∈ (db.connect id').arrivals
        unfold Peered.connect
        split_ifs <;> exact fun _ h => h
  | message id' message =>
      have hid : id ≠ id' := fun he => hevent message (by rw [he])
      have hother : ∀ f, Grows db (db.update id' f) id := by
        intro f c hc
        rw [connection_update, if_neg hid]
        exact ⟨c, [], hc, .refl c⟩
      refine hgrows ?_ ?_
      · show Grows db (if id' ∈ db.connections.map (·.1) then _ else db) id
        split_ifs
        · cases message with
          | bundle bundle => exact .of_eq rfl
          | greeting entries => exact hother _
          | ack chain timestamp => exact hother _
          | signal signal => exact .of_eq rfl
        · exact .of_eq rfl
      · show ∀ arrival ∈ db.arrivals,
          arrival ∈ Peered.arrivals (if id' ∈ db.connections.map (·.1) then _ else db)
        split_ifs
        · cases message with
          | bundle bundle =>
              intro arrival harrival
              show arrival ∈ (db.writes ++ [_]) ++ db.added
              rcases List.mem_append.mp harrival with hw | ha
              · exact List.mem_append_left _ (List.mem_append_left _ hw)
              · exact List.mem_append_right _ ha
          | greeting entries => exact fun _ h => h
          | ack chain timestamp => exact fun _ h => h
          | signal signal => exact fun _ h => h
        · exact fun _ h => h
  | commit bundle =>
      refine hgrows (.of_eq rfl) ?_
      intro arrival harrival
      show arrival ∈ (db.writes ++ [_]) ++ db.added
      rcases List.mem_append.mp harrival with hw | ha
      · exact List.mem_append_left _ (List.mem_append_left _ hw)
      · exact List.mem_append_right _ ha
  | settled outcome =>
      refine ⟨c, [], ?_, .refl c, ?_⟩
      · show (db.settle outcome).connection id = some c
        unfold connection
        rw [settle_connections]
        exact hc
      · intro arrival harrival _
        exact (settle_arrivals db outcome harrival).imp (fun h => h) fun h => Or.inr ⟨outcome, rfl, h⟩
  | goOn =>
      cases hadded : db.added with
      | nil =>
          have hsame : db.step .goOn = db := by
            show db.goOn = db
            unfold Peered.goOn
            rw [hadded]
          refine hgrows ?_ ?_
          · rw [hsame]
            exact .of_eq rfl
          · rw [hsame]
            exact fun _ h => h
      | cons head rest =>
          obtain ⟨c', more, hc', hext, hack⟩ := goOn_acks hadded hc
          refine ⟨c', more, hc', hext, ?_⟩
          intro arrival harrival hfrom
          unfold arrivals at harrival
          rw [hadded] at harrival
          have hrest : (db.step .goOn).arrivals = db.writes ++ rest := by
            show db.goOn.arrivals = db.writes ++ rest
            unfold Peered.goOn
            rw [hadded]
            show (Peered.acknowledge _ head).arrivals = db.writes ++ rest
            rw [acknowledge_writes]
            rfl
          rw [hrest]
          rcases List.mem_append.mp harrival with hw | ha
          · exact Or.inl (List.mem_append_left _ hw)
          · rcases List.mem_cons.mp ha with rfl | ha
            · exact Or.inr (Or.inl (hack hfrom))
            · exact Or.inl (List.mem_append_right _ ha)
  | openCursor id' =>
      refine hgrows (.update ?_) fun _ h => h
      intro c
      split
      · exact ⟨[], Connection.extends_of_sent (List.append_nil _).symm rfl rfl⟩
      · exact ⟨[], .refl c⟩
  | continueCursor id' => exact hgrows (.update nextRow_extends) fun _ h => h

end Peered

/-! ## §4. Two databases. -/

/-- Two databases with a connection to each other; `delivered` counts the messages of each
side that have come to the other. -/
structure Pair (lib : Sodium) where
  nodes : Bool → Peered lib
  /-- the id that each side has for the connection -/
  ids : Bool → Nat
  delivered : Bool → Nat := fun _ => 0

namespace Pair

variable {lib : Sodium} {p : Pair lib}

/-- The connection of one side. -/
def connection (p : Pair lib) (side : Bool) : Option Connection :=
  (p.nodes side).connection (p.ids side)

/-- The messages of one side that are on their way, in order. -/
def inFlight (p : Pair lib) (side : Bool) : List Message :=
  match p.connection side with
  | none => []
  | some c => c.sent.drop (p.delivered side)

/-- What can happen next. -/
inductive Event where
  /-- the next message of a side comes to the other -/
  | deliver (side : Bool)
  /-- anything else that happens to one of the databases -/
  | node (side : Bool) (event : Peered.Event)

/-- The event brings a message over the connection between the two. -/
def overLink (p : Pair lib) (side : Bool) : Peered.Event → Bool
  | .message id _ => decide (id = p.ids side)
  | _ => false

/-- The next message of a side comes to the other. -/
def deliver (p : Pair lib) (side : Bool) : Pair lib :=
  match p.inFlight side with
  | [] => p
  | message :: _ =>
      { p with
        nodes := Function.update p.nodes (!side)
          ((p.nodes !side).step (.message (p.ids !side) message))
        delivered := Function.update p.delivered side (p.delivered side + 1) }

/-- One of the databases does anything else. -/
def act (p : Pair lib) (side : Bool) (event : Peered.Event) : Pair lib :=
  if p.overLink side event then p
  else { p with nodes := Function.update p.nodes side ((p.nodes side).step event) }

def step (p : Pair lib) : Event → Pair lib
  | .deliver side => p.deliver side
  | .node side event => p.act side event

/-- No message is on its way and each that was delivered has been handled. -/
def Quiet (p : Pair lib) : Prop :=
  ∀ side, p.inFlight side = [] ∧
    ∀ arrival ∈ (p.nodes side).arrivals, arrival.fromConnectionId ≠ some (p.ids side)

/-- A bundle of the other side that the store gets to is added, unless the other side has sent
a later one of its chain by now. -/
def Welcome (p : Pair lib) : Event → Prop
  | .node side (.settled outcome) => ∀ arrival ∈ (p.nodes side).writes.head?,
      arrival.fromConnectionId = some (p.ids side) →
        (outcome = .completes ∧ ((p.nodes side).store.addBundle arrival.bundle).2 = .ok true) ∨
          ∀ c, p.connection (!side) = some c →
            c.unacked.get? arrival.bundle.info.chain ≠ some arrival.bundle.info.timestamp
  | _ => True

/-! ## §5. The invariant. -/

/-- Why a side still waits: the bundle is on its way, or in the other's hands, or the ack is
on its way back. -/
def Outstanding (p : Pair lib) (side : Bool) (chain : Chain) (time : U64) : Prop :=
  (∃ b, Message.bundle b ∈ p.inFlight side ∧ b.info.chain = chain ∧ b.info.timestamp = time) ∨
  (∃ arrival ∈ (p.nodes !side).arrivals, arrival.fromConnectionId = some (p.ids !side) ∧
    arrival.bundle.info.chain = chain ∧ arrival.bundle.info.timestamp = time) ∨
  Message.ack chain time ∈ p.inFlight (!side)

structure Inv (p : Pair lib) : Prop where
  connected : ∀ side, ∃ c, p.connection side = some c ∧ c.Counted ∧
    p.delivered side ≤ c.sent.length
  waits : ∀ side c, p.connection side = some c → ∀ chain time,
    c.unacked.get? chain = some time → time ≠ 0 ∧ p.Outstanding side chain time

theorem inFlight_eq {side : Bool} {c : Connection} (hc : p.connection side = some c) :
    p.inFlight side = c.sent.drop (p.delivered side) := by
  unfold inFlight
  rw [hc]

/-- **One side does something** other than read what came from the other. -/
theorem Inv.node (h : Inv p) (side : Bool) (event : Peered.Event)
    (hw : p.Welcome (.node side event)) : Inv (p.act side event) := by
  unfold act
  by_cases hlink : p.overLink side event = true
  · rw [if_pos hlink]
    exact h
  · rw [if_neg hlink]
    have hevent : ∀ message, event ≠ .message (p.ids side) message := by
      rintro message rfl
      exact hlink (decide_eq_true rfl)
    obtain ⟨c, hc, hcounted, hle⟩ := h.connected side
    obtain ⟨c', more, hc', hext, harrivals⟩ := Peered.step_peer event hc hevent
    set p' : Pair lib :=
      { p with nodes := Function.update p.nodes side ((p.nodes side).step event) } with hp'
    have hself : p'.nodes side = (p.nodes side).step event := Function.update_self ..
    have hother : p'.nodes (!side) = p.nodes (!side) :=
      Function.update_of_ne (by cases side <;> decide) ..
    have hcon : p'.connection side = some c' := by
      unfold connection
      rw [hself]
      exact hc'
    have hcon' : p'.connection (!side) = p.connection (!side) := by
      unfold connection
      rw [hother]
    have hflight : p'.inFlight side = p.inFlight side ++ more := by
      rw [inFlight_eq hcon, inFlight_eq hc, hext.sent]
      exact List.drop_append_of_le_length hle
    have hflight' : p'.inFlight (!side) = p.inFlight (!side) := by
      unfold inFlight
      rw [hcon']
    have hsides : ∀ other : Bool, other = side ∨ other = !side := by
      intro other
      cases other <;> cases side <;> simp
    refine ⟨?_, ?_⟩
    · intro other
      rcases hsides other with rfl | rfl
      · refine ⟨c', hcon, hext.counted hcounted, ?_⟩
        show p.delivered other ≤ c'.sent.length
        rw [hext.sent, List.length_append]
        omega
      · obtain ⟨d, hd, hrest⟩ := h.connected (!side)
        exact ⟨d, by rw [hcon', hd], hrest⟩
    · intro other d hd chain time htime
      rcases hsides other with rfl | rfl
      · -- what waits was sent before, or just now
        obtain rfl : c' = d := Option.some.inj (hcon.symm.trans hd)
        rcases hext.unacked chain time htime with hold | ⟨hne, b, hb, hrest⟩
        · obtain ⟨hne, hout⟩ := h.waits other c hc chain time hold
          refine ⟨hne, ?_⟩
          unfold Outstanding at hout ⊢
          rw [hflight, hflight', hother]
          refine hout.imp ?_ id
          exact fun ⟨b, hb, hrest⟩ => ⟨b, List.mem_append_left _ hb, hrest⟩
        · refine ⟨hne, Or.inl ⟨b, ?_, hrest⟩⟩
          rw [hflight]
          exact List.mem_append_right _ hb
      · -- what the other side waits for is still here, or acked
        rw [hcon'] at hd
        obtain ⟨hne, hout⟩ := h.waits (!side) d hd chain time htime
        refine ⟨hne, ?_⟩
        unfold Outstanding at hout ⊢
        rw [Bool.not_not] at hout ⊢
        rw [hflight', hflight, hself]
        rcases hout with hb | ⟨arrival, ha, hfrom, hchain, htime'⟩ | hack
        · exact Or.inl hb
        · rcases harrivals arrival ha hfrom with hstill | hacked | ⟨outcome, rfl, hhead, hnot⟩
          · exact Or.inr (Or.inl ⟨arrival, hstill, hfrom, hchain, htime'⟩)
          · refine Or.inr (Or.inr (List.mem_append_right _ ?_))
            rw [← hchain, ← htime']
            exact hacked
          · -- it was not added: then it is not what the other side waits for
            rcases hw arrival hhead hfrom with hadded | hlater
            · exact absurd hadded hnot
            · have := hlater d hd
              rw [hchain, htime'] at this
              exact absurd htime this
        · exact Or.inr (Or.inr (List.mem_append_left _ hack))

/-- **A message comes to the other side**: a bundle is in its hands then, and an ack takes off
what waited for it. -/
theorem Inv.deliver (h : Inv p) (side : Bool) : Inv (p.deliver side) := by
  unfold Pair.deliver
  split
  · exact h
  · rename_i message rest hflight
    obtain ⟨c, hc, hcounted, hle⟩ := h.connected side
    obtain ⟨d, hd, hdcounted, hdle⟩ := h.connected (!side)
    have hdrop : c.sent.drop (p.delivered side) = message :: rest := by
      rw [← inFlight_eq hc]
      exact hflight
    have hlt : p.delivered side < c.sent.length := by
      by_contra hge
      rw [List.drop_eq_nil_of_le (not_lt.mp hge)] at hdrop
      exact absurd hdrop (by simp)
    set p' : Pair lib := { p with
      nodes := Function.update p.nodes (!side)
        ((p.nodes !side).step (.message (p.ids !side) message))
      delivered := Function.update p.delivered side (p.delivered side + 1) } with hp'
    have hne : (!side) ≠ side := by cases side <;> decide
    have hsame : p'.nodes side = p.nodes side := Function.update_of_ne hne.symm ..
    have hnew : p'.nodes (!side) = (p.nodes !side).step (.message (p.ids !side) message) :=
      Function.update_self ..
    have hcon : p'.connection side = some c := by
      unfold connection
      rw [hsame]
      exact hc
    have hflight' : p'.inFlight side = rest := by
      rw [inFlight_eq hcon]
      show c.sent.drop (Function.update p.delivered side (p.delivered side + 1) side) = rest
      rw [Function.update_self, ← List.tail_drop, hdrop]
      rfl
    have hdelivered : p'.delivered (!side) = p.delivered (!side) :=
      Function.update_of_ne hne ..
    have hsides : ∀ other : Bool, other = side ∨ other = !side := by
      intro other
      cases other <;> cases side <;> simp
    -- the connection is there, so the message is read
    have hmem : p.ids (!side) ∈ (p.nodes !side).connections.map (·.1) := by
      unfold connection Peered.connection at hd
      obtain ⟨x, hx, -⟩ := Option.map_eq_some_iff.mp hd
      have hid : x.1 = p.ids (!side) := by simpa using List.find?_some hx
      exact List.mem_map.mpr ⟨x, List.mem_of_find?_eq_some hx, hid⟩
    have hread : p'.nodes (!side) = (p.nodes !side).receiveMessage (p.ids !side) message := by
      rw [hnew]
      exact if_pos hmem
    -- what the other side has after it, and which of its bundles still wait
    obtain ⟨d', hd', hsent, hdcounted', hunacked⟩ : ∃ d', p'.connection (!side) = some d' ∧
        d'.sent = d.sent ∧ d'.Counted ∧ ∀ chain time, d'.unacked.get? chain = some time →
          d.unacked.get? chain = some time ∧
            (time ≠ 0 → message ≠ .ack chain time) := by
      unfold connection
      rw [hread]
      cases message with
      | bundle bundle => exact ⟨d, hd, rfl, hdcounted, fun _ _ ht => ⟨ht, by simp⟩⟩
      | signal signal => exact ⟨d, hd, rfl, hdcounted, fun _ _ ht => ⟨ht, by simp⟩⟩
      | greeting entries =>
          have hext := Connection.extends_onGreeting d entries
          refine ⟨d.onGreeting entries, ?_, by rw [hext.sent, List.append_nil],
            hext.counted hdcounted, ?_⟩
          · show Peered.connection (Peered.update _ _ _) (p.ids !side) = _
            rw [Peered.connection_update, if_pos rfl, show Peered.connection _ _ = some d from hd]
            rfl
          · intro chain time ht
            rcases hext.unacked chain time ht with hold | ⟨-, b, hb, -⟩
            · exact ⟨hold, by simp⟩
            · exact absurd hb (List.not_mem_nil)
      | ack chain' time' =>
          refine ⟨d.onAck chain' time', ?_, Connection.onAck_sent d chain' time',
            Connection.onAck_counted hdcounted chain' time', ?_⟩
          · show Peered.connection (Peered.update _ _ _) (p.ids !side) = _
            rw [Peered.connection_update, if_pos rfl, show Peered.connection _ _ = some d from hd]
            rfl
          · intro chain time ht
            obtain ⟨hold, hnot⟩ := Connection.onAck_unacked d chain' time' ht
            refine ⟨hold, fun hne he => hnot hne ?_⟩
            injection he with h1 h2
            exact ⟨h1.symm, h2.symm⟩
    have hdflight : p'.inFlight (!side) = p.inFlight (!side) := by
      rw [inFlight_eq hd', inFlight_eq hd, hsent, hdelivered]
    have harrivals : ∀ arrival ∈ (p.nodes !side).arrivals, arrival ∈ (p'.nodes !side).arrivals := by
      rw [hread]
      cases message with
      | bundle bundle =>
          intro arrival ha
          show arrival ∈ ((p.nodes !side).writes ++ [_]) ++ (p.nodes !side).added
          rcases List.mem_append.mp ha with hw | ha
          · exact List.mem_append_left _ (List.mem_append_left _ hw)
          · exact List.mem_append_right _ ha
      | greeting entries => exact fun _ ha => ha
      | ack chain time => exact fun _ ha => ha
      | signal signal => exact fun _ ha => ha
    refine ⟨?_, ?_⟩
    · intro other
      rcases hsides other with rfl | rfl
      · refine ⟨c, hcon, hcounted, ?_⟩
        show Function.update p.delivered other (p.delivered other + 1) other ≤ c.sent.length
        rw [Function.update_self]
        exact hlt
      · exact ⟨d', hd', hdcounted', by rw [hdelivered, hsent]; exact hdle⟩
    · intro other e he chain time htime
      rcases hsides other with rfl | rfl
      · obtain rfl : c = e := Option.some.inj (hcon.symm.trans he)
        obtain ⟨hne, hout⟩ := h.waits other c hc chain time htime
        refine ⟨hne, ?_⟩
        unfold Outstanding at hout ⊢
        rw [hflight', hdflight]
        rw [hflight] at hout
        rcases hout with ⟨b, hb, hrest⟩ | ⟨arrival, ha, hrest⟩ | hack
        · rcases List.mem_cons.mp hb with heq | hb
          · -- the bundle itself has come
            refine Or.inr (Or.inl ⟨⟨b, some (p.ids !other)⟩, ?_, rfl, hrest⟩)
            rw [hread, ← heq]
            exact List.mem_append_left _ (List.mem_append_right _ (List.mem_singleton_self _))
          · exact Or.inl ⟨b, hb, hrest⟩
        · exact Or.inr (Or.inl ⟨arrival, harrivals arrival ha, hrest⟩)
        · exact Or.inr (Or.inr hack)
      · obtain rfl : d' = e := Option.some.inj (hd'.symm.trans he)
        obtain ⟨hold, hnot⟩ := hunacked chain time htime
        obtain ⟨hne, hout⟩ := h.waits (!side) d hd chain time hold
        refine ⟨hne, ?_⟩
        unfold Outstanding at hout ⊢
        rw [Bool.not_not] at hout ⊢
        rw [hflight', hdflight, hsame]
        rw [hflight] at hout
        rcases hout with hb | harrival | hack
        · exact Or.inl hb
        · exact Or.inr (Or.inl harrival)
        · rcases List.mem_cons.mp hack with heq | hack
          · exact absurd heq.symm (hnot hne)
          · exact Or.inr (Or.inr hack)

/-! ## §6. Runs. -/

/-- Both sides have just made the connection. -/
def Connected (p : Pair lib) : Prop :=
  ∀ side, p.delivered side = 0 ∧ ∃ c, p.connection side = some c ∧ c.unacked = ∅ ∧
    c.unackedChains = 0

theorem Connected.inv (h : Connected p) : Inv p := by
  refine ⟨?_, ?_⟩
  · intro side
    obtain ⟨hzero, c, hc, hunacked, hcount⟩ := h side
    refine ⟨c, hc, ?_, by rw [hzero]; exact Nat.zero_le _⟩
    unfold Connection.Counted
    rw [hunacked, hcount]
    rfl
  · intro side c hc chain time htime
    obtain ⟨-, d, hd, hunacked, -⟩ := h side
    obtain rfl : c = d := Option.some.inj (hc.symm.trans hd)
    rw [hunacked] at htime
    exact absurd htime (by simp)

/-- **Acks drain** along every run in which each bundle that is still the last one sent of its
chain is added when its receiver's store gets to it. -/
theorem acks_drain (hconnected : Connected p) (events : List Event)
    (h : Machine.AllSteps step Welcome p events)
    (hquiet : Quiet (Machine.run step p events)) (side : Bool) :
    ∃ c, (Machine.run step p events).connection side = some c ∧ c.unackedChains = 0 := by
  have hinv : Inv (Machine.run step p events) := by
    refine Machine.run_invariant (fun p event hi hw => ?_) events p hconnected.inv h
    cases event with
    | deliver side => exact hi.deliver side
    | node side event => exact hi.node side event hw
  obtain ⟨c, hc, hcounted, -⟩ := hinv.connected side
  refine ⟨c, hc, ?_⟩
  -- nothing is outstanding, so nothing waits
  have hnone : c.unacked.rows = [] := by
    refine List.eq_nil_iff_forall_not_mem.mpr ?_
    intro r hr
    have hget : c.unacked.get? r.1 = some r.2 := Table.get?_eq_some_iff.mpr hr
    obtain ⟨-, hout⟩ := hinv.waits side c hc r.1 r.2 hget
    rcases hout with ⟨b, hb, -⟩ | ⟨arrival, ha, hfrom, -⟩ | hack
    · rw [(hquiet side).1] at hb
      exact absurd hb (List.not_mem_nil)
    · exact (hquiet (!side)).2 arrival ha hfrom
    · rw [(hquiet (!side)).1] at hack
      exact absurd hack (List.not_mem_nil)
  rw [show c.unackedChains = c.unacked.rows.length from hcounted, hnone]
  rfl

/-! ## §7. Two runs. -/

/-- Two new databases that have connected. -/
def unsigned : Pair Sodium.unsigned where
  nodes _ := ({} : Peered Sodium.unsigned).connect 1
  ids _ := 1

theorem unsigned_connected : Connected unsigned := fun _ => ⟨rfl, _, rfl, rfl, rfl⟩

/-- Both greet, and a bundle of the one comes to the other. -/
def oneWay : List Event :=
  [.deliver true, .deliver false, .node true (.commit firstOfTwo),
    .node true (.settled .completes), .node true .goOn, .deliver true,
    .node false (.settled .completes), .node false .goOn, .deliver false]

/-- Nothing is on its way when the counts say so. -/
theorem quiet_of_lengths (h : ∀ side, (p.inFlight side).length = 0 ∧
    (p.nodes side).arrivals.length = 0) : Quiet p := by
  intro side
  refine ⟨List.length_eq_zero_iff.mp (h side).1, ?_⟩
  rw [List.length_eq_zero_iff.mp (h side).2]
  exact fun arrival ha => absurd ha (List.not_mem_nil)

theorem acks_drain_oneWay : ∃ c,
    (Machine.run step unsigned oneWay).connection true = some c ∧ c.unackedChains = 0 := by
  refine acks_drain unsigned_connected oneWay ?_ (quiet_of_lengths (by decide)) true
  refine ⟨trivial, trivial, trivial, ?_, trivial, trivial, ?_, trivial, trivial, trivial⟩
  · intro arrival harrival hfrom
    obtain rfl := Option.some.inj harrival
    exact absurd hfrom (by decide)
  · intro arrival harrival _
    obtain rfl := Option.some.inj harrival
    exact Or.inl ⟨rfl, by decide⟩

/-- Both greet, get the bundle from a third peer, and send it each other. -/
def crossed : List Event :=
  [.deliver true, .deliver false, .node true (.connect 2), .node false (.connect 2),
    .node true (.message 2 (.bundle firstOfTwo)), .node true (.settled .completes),
    .node true .goOn, .node false (.message 2 (.bundle firstOfTwo)),
    .node false (.settled .completes), .node false .goOn, .deliver true, .deliver false,
    .node true (.settled .completes), .node false (.settled .completes)]

/-- **Crossed**: nothing is on its way, and both sides wait for an ack. -/
theorem acks_crossed : Quiet (Machine.run step unsigned crossed) ∧ ∀ side,
    ((Machine.run step unsigned crossed).connection side).map (·.unackedChains) = some 1 :=
  ⟨quiet_of_lengths (by decide), by decide⟩

end Pair

end Js

end Gink
