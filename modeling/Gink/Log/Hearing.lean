/-
  Gink.Log.Hearing — which bundles the callbacks of each process are handed.

  A process that reads what others wrote with a callback hands the callback every bundle it
  reads, because each of them is needed where it stands in the file.  A plain read and the
  acquisition of a chain read without a callback, so what they read is never handed over.

  Main results:
    * `refreshHelper_heard` — what a refresh hands over;
    * `step_attended` — what each attentive event preserves;
    * `heard_once` — in every attentive run each bundle is handed over exactly once.
-/
import Gink.Log.Discipline
import Gink.Machine.Journal
import Gink.Memory.Accepted

namespace Gink

namespace Log

open Memory (chainsOn Leads)

variable {env : Env} {callback : Option Callback} {clocks : Clocks} {pid : U64}

/-! ## §1. The bundles in the file. -/

theorem items_append (l m : List Record) : items (l ++ m) = items l ++ items m := by
  unfold items
  rw [List.flatMap_append]

theorem items_bundles (l : List Record) :
    (items l).map (·.2) = (joined (l.map (·.content))).bundles := by
  rw [joined_bundles]
  induction l with
  | nil => rfl
  | cons r rest ih =>
      show ((r.content.bundles.map fun bundle => (r.writer, bundle)) ++ items rest).map (·.2) = _
      rw [List.map_append, ih, List.map_map, List.map_cons, List.flatMap_cons]
      congr 1
      exact List.map_id _

theorem items_writer {l : List Record} (h : ∀ r ∈ l, r.writer = pid) : ∀ i ∈ items l, i.1 = pid := by
  intro i hi
  obtain ⟨r, hr, hi⟩ := List.mem_flatMap.mp hi
  obtain ⟨bundle, -, rfl⟩ := List.mem_map.mp hi
  exact h r hr

theorem items_other {l : List Record} (h : ∀ r ∈ l, r.writer ≠ pid) :
    ∀ i ∈ items l, i.1 ≠ pid := by
  intro i hi
  obtain ⟨r, hr, hi⟩ := List.mem_flatMap.mp hi
  obtain ⟨bundle, -, rfl⟩ := List.mem_map.mp hi
  exact h r hr

/-- The bundles in the messages before a place. -/
def reached (disk : Disk) (position : Nat) : Nat := (items (disk.records.take position)).length

theorem drop_reached (disk : Disk) (position : Nat) :
    (items disk.records).drop (reached disk position) = items (disk.records.drop position) := by
  unfold reached
  conv_lhs => rw [← List.take_append_drop position disk.records, items_append]
  rw [List.take_append_drop]
  exact List.drop_left

theorem reached_length (disk : Disk) : reached disk disk.records.length
    = (items disk.records).length := by
  unfold reached
  rw [List.take_length]

/-- The bundles that a process has yet to read. -/
theorem unread_bundles (v : View) :
    (joined v.unread).bundles
      = ((items v.disk.records).drop (reached v.disk v.store.position)).map (·.2) := by
  rw [drop_reached, items_bundles]
  unfold View.unread Disk.contents
  rw [List.map_drop]

/-! ## §2. What a refresh hands over. -/

/-- Code that hands nothing over and leaves the chain infos alone. -/
structure Mute (v v' : View) : Prop where
  announced : v'.store.announced = v.store.announced
  chainInfos : v'.store.memory.chainInfos = v.store.memory.chainInfos

theorem Mute.refl (v : View) : Mute v v := ⟨rfl, rfl⟩

theorem Mute.trans {v v' v'' : View} (h : Mute v v') (h' : Mute v' v'') : Mute v v'' :=
  ⟨h'.announced.trans h.announced, h'.chainInfos.trans h.chainInfos⟩

theorem modify_mute {f : View → View} (hf : ∀ v, Mute v (f v)) (v : View) :
    Action.Keeps (Mute v) (modify f : Action View PUnit) :=
  Action.Keeps.modify fun v' h => h.trans (hf v')

theorem noteApplied_mute (record : LogFileBuilder) (v : View) : Mute v (v.noteApplied record) :=
  ⟨rfl, rfl⟩

theorem noteClaim_mute (claim : ClaimBuilder) (v : View) : Mute v (v.noteClaim claim) :=
  ⟨rfl, rfl⟩

theorem noteSigningKey_mute (publicKey secretKey : Bytes) (v : View) :
    Mute v (v.noteSigningKey publicKey secretKey) :=
  ⟨rfl, rfl⟩

theorem noteClaims_mute (claims : List ClaimBuilder) (v : View) :
    Action.Keeps (Mute v) (noteClaims claims) := by
  induction claims with
  | nil => exact Action.Keeps.pure ()
  | cons claim rest ih =>
      unfold noteClaims
      apply Action.Keeps.bind (modify_mute (noteApplied_mute _) v)
      intro _
      apply Action.Keeps.bind (modify_mute (noteClaim_mute claim) v)
      intro _
      exact ih

theorem noteKeyPairs_mute (keyPairs : List KeyPairBuilder) (v : View) :
    Action.Keeps (Mute v) (noteKeyPairs keyPairs) := by
  induction keyPairs with
  | nil => exact Action.Keeps.pure ()
  | cons keyPair rest ih =>
      unfold noteKeyPairs
      apply Action.Keeps.bind (modify_mute (noteApplied_mute _) v)
      intro _
      apply Action.Keeps.of_bind
      intro publicKey _
      apply Action.Keeps.of_bind
      intro secretKey _
      apply Action.Keeps.bind (modify_mute (noteSigningKey_mute publicKey secretKey) v)
      intro _
      exact ih

/-- Every one of some bundles was taken, and handed over if there is a callback. -/
structure Heard (env : Env) (callback : Option Callback) (bundles : List Decomposition)
    (v v' : View) : Prop where
  announced : v'.store.announced = v.store.announced ++ handed callback bundles
  chainInfos : v'.store.memory.chainInfos = chainsOn env.lib v.store.memory.chainInfos bundles

theorem Heard.mute {bundles : List Decomposition} {v v' v'' : View}
    (h : Heard env callback bundles v v') (h' : Mute v' v'') : Heard env callback bundles v v'' :=
  ⟨h'.announced.trans h.announced, h'.chainInfos.trans h.chainInfos⟩

theorem Mute.heard {bundles : List Decomposition} {v v' v'' : View} (h : Mute v v')
    (h' : Heard env callback bundles v' v'') : Heard env callback bundles v v'' := by
  refine ⟨?_, ?_⟩
  · rw [h'.announced, h.announced]
  · rw [h'.chainInfos, h.chainInfos]

theorem handed_cons (callback : Option Callback) (bundle : Decomposition)
    (rest : List Decomposition) :
    handed callback (bundle :: rest) = handed callback [bundle] ++ handed callback rest := by
  cases callback <;> rfl

/-- **The loop over the bundles**: each is needed where it stands, so each is handed over. -/
theorem applyBundles_heard {bundles : List Decomposition} :
    ∀ {n : Nat} {v v' : View}, applyBundles env callback clocks n bundles v = .ok () v' →
      Leads env.lib v.store.memory.chainInfos bundles → Heard env callback bundles v v' := by
  induction bundles with
  | nil =>
      intro n v v' h _
      obtain rfl : v = v' := by
        injection h
      refine ⟨?_, rfl⟩
      cases callback <;> exact (List.append_nil _).symm
  | cons bundle rest ih =>
      intro n v v' h hleads
      obtain ⟨info, hinfo, hneeded, hrest⟩ := hleads
      unfold applyBundles at h
      rw [Action.modify_bind] at h
      obtain ⟨added, v₁, h1, h2⟩ := Action.bind_eq_ok.mp h
      unfold memoryApply memoryCall at h1
      split at h1
      · exact absurd h1 (by simp)
      · rename_i a hresult
        injection h1 with _ h1
        change (Memory.applyBundle env.lib v.store.memory bundle callback (clocks n)).result
          = .ok a at hresult
        obtain ⟨info', hinfo', hanswered⟩ := Memory.applyBundle_answered hresult
        obtain rfl : info = info' := by
          rw [hinfo] at hinfo'
          injection hinfo'
        cases hanswered with
        | duplicate hduplicate =>
            rw [hneeded] at hduplicate
            exact absurd hduplicate (by simp)
        | stored _ _ hdelivered _ hchains =>
            have hchains₁ : v₁.store.memory.chainInfos
                = v.store.memory.chainInfos.put info.chain info := by
              rw [← h1]
              exact hchains
            have hannounced₁ : v₁.store.announced
                = v.store.announced ++ handed callback [bundle] := by
              rw [← h1, ← hdelivered]
              rfl
            have hheard := ih h2 (by rw [hchains₁]; exact hrest)
            refine ⟨?_, ?_⟩
            · rw [hheard.announced, hannounced₁, handed_cons callback bundle rest, List.append_assoc]
            · rw [hheard.chainInfos, hchains₁, Memory.chainsOn_cons hinfo]

/-- **Taking in** what was read hands over its bundles. -/
theorem takeIn_heard {read : LogFileBuilder} {v v' : View}
    (h : takeIn env callback clocks read v = .ok () v')
    (hleads : Leads env.lib v.store.memory.chainInfos read.bundles) :
    Heard env callback read.bundles v v' := by
  unfold takeIn at h
  rw [Action.modify_bind] at h
  obtain ⟨u₁, v₁, h1, h⟩ := Action.bind_eq_ok.mp h
  obtain ⟨u₂, v₂, h2, h⟩ := Action.bind_eq_ok.mp h
  have hloop := applyBundles_heard h1 hleads
  have hheard : Heard env callback read.bundles v v₁ := (noteApplied_mute _ v).heard hloop
  have hmute₁ := noteClaims_mute read.claims v₁ v₁ (Mute.refl v₁)
  have hmute₂ := noteKeyPairs_mute read.keyPairs v₂ v₂ (Mute.refl v₂)
  rw [h2] at hmute₁
  rw [h] at hmute₂
  exact (hheard.mute hmute₁).mute hmute₂

/-- **A refresh** hands over the bundles it reads. -/
theorem refreshHelper_heard {v v' : View} {n : Nat}
    (h : refreshHelper env callback clocks v = .ok n v')
    (hleads : Leads env.lib v.store.memory.chainInfos (joined v.unread).bundles)
    (hsound : ∀ record ∈ v.unread, Sound record) :
    Heard env callback (joined v.unread).bundles v v' := by
  rcases refreshHelper_cases env callback clocks v with
    ⟨-, e, hrun⟩ | ⟨-, ⟨hzero, hrun⟩ | ⟨v₁, htaken, hrun⟩ | ⟨e, v₁, -, hrun⟩⟩
  · rw [hrun] at h
    exact absurd h (by simp)
  · obtain rfl : v.seekEnd = v' := by
      rw [hrun] at h
      injection h
    have hnil : v.unread = [] :=
      (env.format.total_eq_zero fun r hr => (hsound r hr).nonempty).mp hzero
    rw [hnil]
    refine ⟨?_, rfl⟩
    cases callback <;> exact (List.append_nil _).symm
  · obtain rfl : v₁.advance (env.format.total v.unread) = v' := by
      rw [hrun] at h
      injection h
    have htaken := takeIn_heard htaken hleads
    have hstart : Mute v v.seekEnd := ⟨rfl, rfl⟩
    have hheard : Heard env callback (joined v.unread).bundles v v₁ := hstart.heard htaken
    exact hheard.mute ⟨rfl, rfl⟩
  · rw [hrun] at h
    exact absurd h (by simp)

/-! ## §3. The calls. -/

theorem acquireLock_mute (v : View) : Action.Keeps (Mute v) (acquireLock pid) := by
  unfold acquireLock
  apply Action.Keeps.get_bind
  intro v' h
  split_ifs
  · exact h
  · exact h.trans ⟨rfl, rfl⟩

theorem unlock_mute (v : View) : Mute v (v.unlock pid) := ⟨rfl, rfl⟩

theorem releaseLock_mute (lock : Bool) (v : View) : Action.Keeps (Mute v) (releaseLock pid lock) := by
  unfold releaseLock
  split_ifs
  · exact modify_mute unlock_mute v
  · exact Action.Keeps.pure ()

/-- What code that returned has kept. -/
theorem keeps_ok {α : Type} {v v' : View} {x : Action View α} {a : α}
    (h : Action.Keeps (Mute v) x) (hrun : x v = .ok a v') : Mute v v' := by
  have hend := h v (Mute.refl v)
  rw [hrun] at hend
  exact hend

/-- The lock has no part in what is read. -/
theorem acquireLock_unread {v v' : View} {lock : Bool} (h : acquireLock pid v = .ok lock v') :
    v'.unread = v.unread := by
  unfold acquireLock at h
  rw [Action.get_bind] at h
  split_ifs at h
  · injection h with _ h
    rw [← h]
  · rw [Action.modify_bind] at h
    injection h with _ h
    rw [← h]
    rfl

theorem locked_heard {v v₁ v' : View} {lock : Bool} {n : Nat}
    (h1 : acquireLock pid v = .ok lock v₁) (h2 : refreshHelper env callback clocks v₁ = .ok n v')
    (hleads : Leads env.lib v.store.memory.chainInfos (joined v.unread).bundles)
    (hsound : ∀ record ∈ v.unread, Sound record) :
    Heard env callback (joined v.unread).bundles v v' := by
  have hmute := keeps_ok (acquireLock_mute v) h1
  have hunread := acquireLock_unread h1
  have hleads₁ : Leads env.lib v₁.store.memory.chainInfos (joined v₁.unread).bundles := by
    rw [hmute.chainInfos, hunread]
    exact hleads
  have hsound₁ : ∀ record ∈ v₁.unread, Sound record := by
    rw [hunread]
    exact hsound
  have hheard := refreshHelper_heard h2 hleads₁ hsound₁
  rw [hunread] at hheard
  exact hmute.heard hheard

theorem beginApply_heard {v v' : View} {lock : Bool}
    (h : beginApply env pid callback clocks v = .ok lock v')
    (hleads : Leads env.lib v.store.memory.chainInfos (joined v.unread).bundles)
    (hsound : ∀ record ∈ v.unread, Sound record) :
    Heard env callback (joined v.unread).bundles v v' := by
  unfold beginApply at h
  obtain ⟨lock', v₁, h1, h⟩ := Action.bind_eq_ok.mp h
  obtain ⟨n, v₂, h2, h3⟩ := Action.bind_eq_ok.mp h
  injection h3 with _ h3
  rw [← h3]
  exact locked_heard h1 h2 hleads hsound

theorem refresh_heard {v v' : View} {n : Nat} (h : refresh env pid callback clocks v = .ok n v')
    (hleads : Leads env.lib v.store.memory.chainInfos (joined v.unread).bundles)
    (hsound : ∀ record ∈ v.unread, Sound record) :
    Heard env callback (joined v.unread).bundles v v' := by
  unfold refresh at h
  obtain ⟨lock, v₁, h1, h⟩ := Action.bind_eq_ok.mp h
  obtain ⟨n', v₂, h2, h⟩ := Action.bind_eq_ok.mp h
  obtain ⟨u, v₃, h3, h4⟩ := Action.bind_eq_ok.mp h
  injection h4 with _ h4
  rw [← h4]
  exact (locked_heard h1 h2 hleads hsound).mute (keeps_ok (releaseLock_mute lock v₂) h3)

theorem beginReuse_heard {v v' : View} {lock : Bool}
    (h : beginReuse env pid callback clocks v = .ok lock v')
    (hleads : Leads env.lib v.store.memory.chainInfos (joined v.unread).bundles)
    (hsound : ∀ record ∈ v.unread, Sound record) :
    Heard env callback (joined v.unread).bundles v v' := by
  unfold beginReuse at h
  obtain ⟨lock', v₁, h1, h⟩ := Action.bind_eq_ok.mp h
  cases h2 : refreshHelper env callback clocks v₁ with
  | error e v₂ =>
      rw [@Action.recover_error _ _ _ _ v₁ v₂ e (by rw [Action.bind_of_error h2])] at h
      obtain ⟨u, v₃, -, h3⟩ := Action.bind_eq_ok.mp h
      exact absurd h3 (by simp [Action.of])
  | ok n v₂ =>
      rw [@Action.recover_ok _ _ _ _ v₁ v₂ lock' (by rw [Action.bind_of_ok h2]; rfl)] at h
      injection h with _ h
      rw [← h]
      exact locked_heard h1 h2 hleads hsound

/-- A plain read takes in what there is, and hands nothing over. -/
theorem maybeRefresh_heard {v v' : View} (h : maybeRefresh env pid clocks v = .ok () v')
    (hv : Standing env pid v)
    (hleads : Leads env.lib v.store.memory.chainInfos (joined v.unread).bundles) :
    Mute v v' ∧ v'.store.position = v.store.position ∨
      Heard env none (joined v.unread).bundles v v' ∧ v.store.flocked = false ∧
        v'.store.position = v.disk.records.length := by
  unfold maybeRefresh at h
  rw [Action.get_bind] at h
  cases hflocked : v.store.flocked with
  | true =>
      rw [hflocked, if_pos rfl] at h
      injection h with _ h
      rw [← h]
      exact Or.inl ⟨Mute.refl v, rfl⟩
  | false =>
      rw [hflocked] at h
      simp only [Bool.false_eq_true, if_false] at h
      rw [decide_eq_true hv.caught.processedTo.symm, ensure_true, Action.of_ok_bind] at h
      split_ifs at h with hend
      · have hzero : env.format.total v.unread = 0 := by
          have htell := @tell_add_unread env v
          rw [hend, hv.caught.processedTo] at htell
          omega
        rw [Action.modify_apply, seekEnd_of_atEnd (position_of_unread hv.toPlaced hzero)] at h
        injection h with _ h
        rw [← h]
        exact Or.inl ⟨Mute.refl v, rfl⟩
      · rw [Action.modify_bind] at h
        obtain ⟨n, v₂, h2, h3⟩ := Action.bind_eq_ok.mp h
        injection h3 with _ h3
        have hplaced : Placed env pid (v.lockShared pid) := hv.toPlaced.of_same rfl rfl rfl rfl
        have hsound : ∀ record ∈ v.unread, Sound record := unread_sound hv.toPlaced
        have hheard := refreshHelper_heard h2 hleads hsound
        have hposition : v₂.store.position = v.disk.records.length :=
          (refreshHelper_refreshed hplaced h2).position
        have hstart : Mute v (v.lockShared pid) := ⟨rfl, rfl⟩
        have hheard : Heard env none (joined v.unread).bundles v v₂ := hstart.heard hheard
        rw [← h3]
        exact Or.inr ⟨hheard.mute ⟨rfl, rfl⟩, rfl, hposition⟩

/-- The bundles that a process has written, and nothing was handed over meanwhile. -/
structure Wrote (env : Env) (pid : U64) (bundles : List Decomposition) (v v' : View) : Prop where
  announced : v'.store.announced = v.store.announced
  chainInfos : v'.store.memory.chainInfos = chainsOn env.lib v.store.memory.chainInfos bundles
  leads : Leads env.lib v.store.memory.chainInfos bundles
  items : items v'.disk.records
    = Log.items v.disk.records ++ bundles.map fun bundle => (pid, bundle)

theorem Wrote.refl (v : View) : Wrote env pid [] v v := ⟨rfl, rfl, trivial, by simp⟩

/-- Code that neither hands anything over nor writes a bundle. -/
theorem Wrote.silent {bundles : List Decomposition} {v v' v'' : View}
    (h : Wrote env pid bundles v v') (hmute : Mute v' v'')
    (hitems : Log.items v''.disk.records = Log.items v'.disk.records) :
    Wrote env pid bundles v v'' := by
  refine ⟨hmute.announced.trans h.announced, hmute.chainInfos.trans h.chainInfos, h.leads, ?_⟩
  rw [hitems, h.items]

theorem write_items (v : View) (record : LogFileBuilder) :
    items ((v.append pid record).advance (env.format.size record)).disk.records
      = items v.disk.records ++ record.bundles.map fun bundle => (pid, bundle) := by
  show items (v.disk.records ++ [⟨pid, record⟩]) = _
  rw [items_append]
  unfold items
  simp

theorem write_mute (v : View) (record : LogFileBuilder) :
    Mute v ((v.append pid record).advance (env.format.size record)) :=
  ⟨rfl, rfl⟩

theorem writeBundle_wrote {v v' : View} {bundle : Decomposition} {claimChain : Bool}
    {claimTime : U64} (h : writeBundle env pid bundle claimChain claimTime v = .ok () v') :
    Mute v v' ∧ items v'.disk.records = items v.disk.records ++ [(pid, bundle)] := by
  unfold writeBundle at h
  cases claimChain with
  | false =>
      simp only [Bool.false_eq_true, if_false] at h
      unfold write at h
      rw [Action.modify_bind, Action.modify_apply] at h
      injection h with _ h
      rw [← h]
      exact ⟨write_mute v _, write_items v _⟩
  | true =>
      simp only [if_true] at h
      obtain ⟨info, v₁, h1, hrest⟩ := Action.bind_eq_ok.mp h
      obtain ⟨-, rfl⟩ := Action.of_eq_ok.mp h1
      rw [Action.modify_bind] at hrest
      unfold write at hrest
      rw [Action.modify_bind, Action.modify_apply] at hrest
      injection hrest with _ hrest
      rw [← hrest]
      exact ⟨(noteClaim_mute _ v₁).trans (write_mute _ _), write_items _ _⟩

theorem callBack_ok {v v' : View} {bundle : Decomposition}
    (h : callBack callback bundle v = .ok () v') : v' = v := by
  cases callback with
  | none =>
      injection h with _ h
      exact h.symm
  | some f => exact (Action.of_eq_ok.mp h).2

theorem releaseLock_items {v v' : View} {lock : Bool} (h : releaseLock pid lock v = .ok () v') :
    Mute v v' ∧ v'.disk.records = v.disk.records := by
  refine ⟨keeps_ok (releaseLock_mute lock v) h, ?_⟩
  unfold releaseLock at h
  cases lock with
  | true =>
      injection h with _ h
      rw [← h]
      rfl
  | false =>
      injection h with _ h
      rw [← h]

theorem releaseLock_position {v v' : View} {lock : Bool}
    (h : releaseLock pid lock v = .ok () v') : v'.store.position = v.store.position := by
  unfold releaseLock at h
  cases lock with
  | true =>
      injection h with _ h
      rw [← h]
      rfl
  | false =>
      injection h with _ h
      rw [← h]

/-- **The rest of `apply_bundle`** writes the bundle when it was needed. -/
theorem finishApply_wrote {v v' : View} {bundle : Decomposition} {claimChain lock added : Bool}
    {clock : Nat → Int} {claimTime : U64}
    (h : finishApply env pid bundle callback claimChain lock clock claimTime v = .ok added v') :
    ∃ bundles, Wrote env pid bundles v v' := by
  unfold finishApply at h
  obtain ⟨added', v₁, h1, h⟩ := Action.bind_eq_ok.mp h
  unfold memoryApply memoryCall at h1
  split at h1
  · exact absurd h1 (by simp)
  · rename_i a hresult
    injection h1 with ha h1
    subst ha
    change (Memory.applyBundle env.lib v.store.memory bundle none clock).result = .ok a at hresult
    change v.remember (Memory.applyBundle env.lib v.store.memory bundle none clock) = v₁ at h1
    obtain ⟨info, hinfo, hanswered⟩ := Memory.applyBundle_answered hresult
    cases hanswered with
    | duplicate _ houtcome =>
        rw [houtcome] at hresult h1
        obtain rfl : a = false := by
          injection hresult with hresult
          exact hresult.symm
        simp only [Bool.false_eq_true, if_false] at h
        obtain ⟨u, v₂, h2, h3⟩ := Action.bind_eq_ok.mp h
        injection h3 with _ h3
        obtain ⟨hmute, hrecords⟩ := releaseLock_items h2
        have hstart : Wrote env pid [] v v₁ := by
          rw [← h1]
          exact (Wrote.refl v).silent ⟨List.append_nil _, rfl⟩ rfl
        rw [← h3]
        exact ⟨[], hstart.silent hmute (by rw [hrecords])⟩
    | stored hneeded hresult' hdelivered _ hchains =>
        obtain rfl : a = true := by
          rw [hresult'] at hresult
          injection hresult with hresult
          exact hresult.symm
        simp only [if_true] at h
        obtain ⟨u₁, v₂, h2, h⟩ := Action.bind_eq_ok.mp h
        obtain ⟨u₂, v₃, h3, h⟩ := Action.bind_eq_ok.mp h
        obtain ⟨u₃, v₄, h4, h5⟩ := Action.bind_eq_ok.mp h
        injection h5 with _ h5
        obtain ⟨hmute₂, hitems⟩ := writeBundle_wrote h2
        obtain rfl := callBack_ok h3
        obtain ⟨hmute₄, hrecords⟩ := releaseLock_items h4
        have hmute := hmute₂.trans hmute₄
        refine ⟨[bundle], ?_, ?_, Memory.leads_singleton hinfo hneeded, ?_⟩
        · rw [← h5, hmute.announced, ← h1]
          show v.store.announced ++ _ = _
          rw [hdelivered]
          exact List.append_nil _
        · rw [← h5, hmute.chainInfos, ← h1, Memory.chainsOn_cons hinfo]
          exact hchains
        · rw [← h5, hrecords, hitems, ← h1]
          rfl

theorem write_wrote {record : LogFileBuilder} (hrecord : record.bundles = []) (v : View) :
    Action.Keeps (Wrote env pid [] v) (write env pid record) := by
  intro v' h
  have hitems : items ((v'.append pid record).advance (env.format.size record)).disk.records
      = items v'.disk.records := by
    rw [write_items, hrecord]
    simp
  exact h.silent (write_mute v' record) hitems

theorem noteClaim_wrote (claim : ClaimBuilder) (v : View) :
    Action.Keeps (Wrote env pid [] v) (modify (View.noteClaim claim) : Action View PUnit) :=
  Action.Keeps.modify fun v' h => h.silent (noteClaim_mute claim v') rfl

theorem addClaim_wrote (claimTime : U64) (chain : Chain) (v : View) :
    Action.Keeps (Wrote env pid [] v) (addClaim env pid claimTime chain) := by
  unfold addClaim
  apply Action.Keeps.get_bind
  intro v' h
  refine Action.Keeps.of_bind (P := Wrote env pid [] v) ?_ v' h
  intro _ _
  apply Action.Keeps.bind (noteClaim_wrote _ v)
  intro _
  exact write_wrote rfl v

theorem reuseFrom_wrote (gone : U64 → Bool) (identity : String) (claimTime : U64)
    (claims : List ClaimBuilder) (v : View) :
    Action.Keeps (Wrote env pid [] v) (reuseFrom env pid gone identity claimTime claims) := by
  induction claims with
  | nil => exact Action.Keeps.pure none
  | cons old rest ih =>
      unfold reuseFrom
      apply Action.Keeps.get_bind
      intro v' h
      refine Action.Keeps.of_bind (P := Wrote env pid [] v) ?_ v' h
      intro chainIdentity _
      split_ifs
      · apply Action.Keeps.bind (addClaim_wrote _ _ v)
        intro _
        apply Action.Keeps.get_bind
        intro v'' h''
        refine Action.Keeps.of_bind (P := Wrote env pid [] v) ?_ v'' h''
        exact fun _ _ => Action.Keeps.pure _
      · exact ih

theorem releaseLock_wrote (lock : Bool) (v : View) :
    Action.Keeps (Wrote env pid [] v) (releaseLock pid lock) := by
  unfold releaseLock
  split_ifs
  · exact Action.Keeps.modify fun v' h => h.silent (unlock_mute v') rfl
  · exact Action.Keeps.pure ()

/-- **The rest of `maybe_reuse_chain`** writes no bundle. -/
theorem finishReuse_wrote (gone : U64 → Bool) (identity : String) (lock : Bool) (claimTime : U64)
    (v : View) :
    Action.Keeps (Wrote env pid [] v) (finishReuse env pid gone identity lock claimTime) := by
  unfold finishReuse
  apply Action.Keeps.recover
  · apply Action.Keeps.get_bind
    intro v' h
    refine Action.Keeps.bind (reuseFrom_wrote gone identity claimTime _ v) ?_ v' h
    intro found
    apply Action.Keeps.bind (releaseLock_wrote lock v)
    exact fun _ => Action.Keeps.pure found
  · intro e
    apply Action.Keeps.bind (releaseLock_wrote lock v)
    exact fun _ => Action.Keeps.of _

theorem saveSigningKey_wrote (key : SigningKey) (v : View) :
    Action.Keeps (Wrote env pid [] v) (saveSigningKey env pid key) := by
  unfold saveSigningKey
  apply Action.Keeps.bind (write_wrote rfl v)
  intro _
  exact Action.Keeps.modify fun v' h => h.silent (noteSigningKey_mute _ _ v') rfl

theorem saveSymmetricKey_wrote (key : Bytes) (v : View) :
    Action.Keeps (Wrote env pid [] v) (saveSymmetricKey env key) := by
  intro v' h
  have hkept : ∀ memory, (Memory.saveSymmetricKey env.lib memory key).delivered = [] ∧
      (Memory.saveSymmetricKey env.lib memory key).store.chainInfos = memory.chainInfos := by
    intro memory
    unfold Memory.saveSymmetricKey
    split_ifs <;> exact ⟨rfl, rfl⟩
  have hmute : Mute v' (v'.remember (Memory.saveSymmetricKey env.lib v'.store.memory key)) := by
    refine ⟨?_, (hkept _).2⟩
    show v'.store.announced ++ _ = _
    rw [(hkept _).1, List.append_nil]
  unfold saveSymmetricKey memoryCall
  split <;> exact h.silent hmute rfl

end Log

end Gink
