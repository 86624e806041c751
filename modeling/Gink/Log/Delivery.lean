/-
  Gink.Log.Delivery — each bundle reaches the callback of each other process once.

  The file is a journal and the processes are its readers.  An event is attentive when it
  keeps the law of the shared log and does not read bundles without a callback to hand them
  to; a plain read does, and so does the acquisition of a chain.

  Main results:
    * `step_attended` — what each attentive event preserves;
    * `heard_once` — what the callbacks were handed, after every attentive run.
-/
import Gink.Log.Hearing

namespace Gink

namespace Log

open Memory (chainsOn Leads)
open Machine (Follows others)

variable {env : Env} {s : System} {pid : U64}

/-! ## §1. The invariant. -/

/-- Every process has taken in the bundles before its cursor, and has handed over those that
others wrote since it opened the file. -/
structure Attended (env : Env) (s : System) : Prop where
  lawful : Lawful env s
  leads : Leads env.lib ∅ (joined s.disk.contents).bundles
  chains : ∀ pid p, s.status pid = .running p → p.store.memory.chainInfos
    = chainsOn env.lib ∅ (joined (s.disk.contents.take p.store.position)).bundles
  follows : ∀ pid p, s.status pid = .running p →
    Follows pid (items s.disk.records) p.opened (reached s.disk p.store.position)
      p.store.announced

theorem attended_empty (env : Env) : Attended env {} where
  lawful := lawful_empty env
  leads := trivial
  chains pid p h := absurd h (by simp)
  follows pid p h := absurd h (by simp)

/-- Reading on from its cursor, a process finds that each bundle is needed. -/
theorem Attended.leads_unread (h : Attended env s) {p : Process} (hp : s.status pid = .running p) :
    Leads env.lib p.store.memory.chainInfos (joined (s.view p).unread).bundles := by
  have hleads := h.leads
  rw [← List.take_append_drop p.store.position s.disk.contents, joined_append,
    LogFileBuilder.bundles_join, Memory.leads_append, ← h.chains pid p hp] at hleads
  exact hleads.2

theorem Attended.sound_unread (h : Attended env s) {p : Process}
    (hp : s.status pid = .running p) : ∀ record ∈ (s.view p).unread, Sound record :=
  unread_sound (h.lawful.standing pid p hp).toPlaced

/-- What others have taken in does not change when a process appends messages. -/
theorem others_attended (h : Attended env s) {disk : Disk} {more : List Record}
    (hmore : disk.records = s.disk.records ++ more) (hwriter : ∀ r ∈ more, r.writer = pid)
    {other : U64} {q : Process} (hother : other ≠ pid) (hq : s.status other = .running q) :
    q.store.memory.chainInfos
        = chainsOn env.lib ∅ (joined (disk.contents.take q.store.position)).bundles ∧
      Follows other (items disk.records) q.opened (reached disk q.store.position)
        q.store.announced := by
  have hposition : q.store.position ≤ s.disk.records.length :=
    (h.lawful.standing other q hq).caught.position
  have htake : disk.records.take q.store.position = s.disk.records.take q.store.position := by
    rw [hmore, List.take_append_of_le_length hposition]
  have hreached : reached disk q.store.position = reached s.disk q.store.position := by
    unfold reached
    rw [htake]
  have hcontents : disk.contents.take q.store.position
      = s.disk.contents.take q.store.position := by
    unfold Disk.contents
    rw [← List.map_take, ← List.map_take, htake]
  refine ⟨?_, ?_⟩
  · rw [hcontents]
    exact h.chains other q hq
  · rw [hreached, hmore, items_append]
    refine (h.follows other q hq).append_others ?_
    intro i hi hw
    exact hother (hw.symm.trans (items_writer hwriter i hi))

/-- **A step of one process** that ends where the invariant wants it. -/
theorem put_attended (h : Attended env s) {p' : Process} {v' : View} {more : List Record}
    (hlawful : Lawful env (s.put pid v' p')) (hmore : v'.disk.records = s.disk.records ++ more)
    (hwriter : ∀ r ∈ more, r.writer = pid)
    (hleads : Leads env.lib ∅ (joined v'.disk.contents).bundles)
    (hchains : v'.store.memory.chainInfos
      = chainsOn env.lib ∅ (joined (v'.disk.contents.take v'.store.position)).bundles)
    (hfollows : Follows pid (items v'.disk.records) p'.opened (reached v'.disk v'.store.position)
      v'.store.announced) : Attended env (s.put pid v' p') := by
  have hstatus : ∀ other q, (s.put pid v' p').status other = .running q →
      (other = pid ∧ q = { p' with store := v'.store }) ∨
        (other ≠ pid ∧ s.status other = .running q) := by
    intro other q hq
    change Function.update s.status pid _ other = .running q at hq
    by_cases hpid : other = pid
    · subst hpid
      rw [Function.update_self] at hq
      injection hq with hq
      exact Or.inl ⟨rfl, hq.symm⟩
    · rw [Function.update_of_ne hpid] at hq
      exact Or.inr ⟨hpid, hq⟩
  refine ⟨hlawful, hleads, ?_, ?_⟩
  · intro other q hq
    rcases hstatus other q hq with ⟨rfl, rfl⟩ | ⟨hpid, hq⟩
    · exact hchains
    · exact (others_attended h hmore hwriter hpid hq).1
  · intro other q hq
    rcases hstatus other q hq with ⟨rfl, rfl⟩ | ⟨hpid, hq⟩
    · exact hfollows
    · exact (others_attended h hmore hwriter hpid hq).2

/-! ## §2. The steps. -/

/-- **A process reads everything**, with a callback for the bundles there are. -/
theorem heard_attended (h : Attended env s) {p p' : Process} (hp : s.status pid = .running p)
    {v' : View} {callback : Option Callback}
    (hheard : Heard env callback (joined (s.view p).unread).bundles (s.view p) v')
    (hall : callback = none → (joined (s.view p).unread).bundles = [])
    (hrecords : v'.disk.records = s.disk.records)
    (hend : v'.store.position = v'.disk.records.length)
    (hlawful : Lawful env (s.put pid v' p')) (hopened : p'.opened = p.opened) :
    Attended env (s.put pid v' p') := by
  have hcontents : v'.disk.contents = s.disk.contents := by
    unfold Disk.contents
    rw [hrecords]
  have hhanded : handed callback (joined (s.view p).unread).bundles
      = ((items s.disk.records).drop (reached s.disk p.store.position)).map (·.2) := by
    have hunread : (joined (s.view p).unread).bundles
        = ((items s.disk.records).drop (reached s.disk p.store.position)).map (·.2) :=
      unread_bundles (s.view p)
    rw [← hunread]
    cases callback with
    | none => exact (hall rfl).symm
    | some f => rfl
  refine @put_attended env s pid h p' v' [] hlawful (by simp [hrecords]) (by simp) ?_ ?_ ?_
  · rw [hcontents]
    exact h.leads
  · rw [hend, take_contents, hcontents, hheard.chainInfos]
    show chainsOn env.lib p.store.memory.chainInfos _ = _
    rw [h.chains pid p hp, ← Memory.chainsOn_append, ← LogFileBuilder.bundles_join, ← joined_append]
    unfold View.unread
    rw [show (s.view p).disk.contents = s.disk.contents from rfl,
      show (s.view p).store.position = p.store.position from rfl, List.take_append_drop]
  · rw [hend, reached_length, hrecords, hopened, hheard.announced, hhanded]
    exact (h.follows pid p hp).deliver

/-- **A process writes** after it has read everything. -/
theorem wrote_attended (h : Attended env s) {p p' : Process} (hp : s.status pid = .running p)
    (hbefore : p.store.position = s.disk.records.length) {v' : View}
    {bundles : List Decomposition} (hwrote : Wrote env pid bundles (s.view p) v')
    (hm : Moved pid (s.view p) v') (hend : v'.store.position = v'.disk.records.length)
    (hlawful : Lawful env (s.put pid v' p')) (hopened : p'.opened = p.opened) :
    Attended env (s.put pid v' p') := by
  obtain ⟨more, hmore, hwriter⟩ := hm.records
  change v'.disk.records = s.disk.records ++ more at hmore
  have hitems : items v'.disk.records
      = items s.disk.records ++ bundles.map fun bundle => (pid, bundle) := hwrote.items
  have hall : (joined v'.disk.contents).bundles = (joined s.disk.contents).bundles ++ bundles := by
    unfold Disk.contents
    rw [← items_bundles, hitems, List.map_append, items_bundles, List.map_map]
    congr 1
    exact List.map_id _
  have hchains : p.store.memory.chainInfos
      = chainsOn env.lib ∅ (joined s.disk.contents).bundles := by
    rw [h.chains pid p hp, hbefore, take_contents]
  refine put_attended h hlawful hmore hwriter ?_ ?_ ?_
  · rw [hall, Memory.leads_append, ← hchains]
    exact ⟨h.leads, hwrote.leads⟩
  · rw [hend, take_contents, hall, Memory.chainsOn_append, ← hchains]
    exact hwrote.chainInfos
  · rw [hend, reached_length, hitems, hopened]
    have hfollows := h.follows pid p hp
    rw [hbefore, reached_length] at hfollows
    rw [show v'.store.announced = p.store.announced from hwrote.announced]
    refine hfollows.append_own rfl ?_
    intro i hi
    obtain ⟨bundle, -, rfl⟩ := List.mem_map.mp hi
    rfl

/-- **A process does something else.** -/
theorem mute_attended (h : Attended env s) {p p' : Process} (hp : s.status pid = .running p)
    {v' : View} (hmute : Mute (s.view p) v') (hrecords : v'.disk.records = s.disk.records)
    (hposition : v'.store.position = p.store.position) (hlawful : Lawful env (s.put pid v' p'))
    (hopened : p'.opened = p.opened) : Attended env (s.put pid v' p') := by
  have hcontents : v'.disk.contents = s.disk.contents := by
    unfold Disk.contents
    rw [hrecords]
  have hreached : reached v'.disk p.store.position = reached s.disk p.store.position := by
    unfold reached
    rw [hrecords]
  refine @put_attended env s pid h p' v' [] hlawful (by simp [hrecords]) (by simp) ?_ ?_ ?_
  · rw [hcontents]
    exact h.leads
  · rw [hcontents, hposition]
    exact hmute.chainInfos.trans (h.chains pid p hp)
  · rw [hposition, hreached, hrecords, hopened]
    rw [show v'.store.announced = p.store.announced from hmute.announced]
    exact h.follows pid p hp

/-- A process that is gone leaves the file as it is. -/
theorem gone_attended (h : Attended env s) {disk : Disk} (hrecords : disk.records = s.disk.records)
    (hlawful : Lawful env ⟨disk, Function.update s.status pid .exited⟩) :
    Attended env ⟨disk, Function.update s.status pid .exited⟩ := by
  have hcontents : disk.contents = s.disk.contents := by
    unfold Disk.contents
    rw [hrecords]
  have hmore : disk.records = s.disk.records ++ [] := by simp [hrecords]
  have hstatus : ∀ other q, Function.update s.status pid .exited other = .running q →
      other ≠ pid ∧ s.status other = .running q := by
    intro other q hq
    by_cases hpid : other = pid
    · rw [hpid, Function.update_self] at hq
      exact absurd hq (by simp)
    · rw [Function.update_of_ne hpid] at hq
      exact ⟨hpid, hq⟩
  refine ⟨hlawful, ?_, ?_, ?_⟩
  · show Leads env.lib ∅ (joined disk.contents).bundles
    rw [hcontents]
    exact h.leads
  · intro other q hq
    obtain ⟨hpid, hq⟩ := hstatus other q hq
    exact (others_attended h hmore (by simp) hpid hq).1
  · intro other q hq
    obtain ⟨hpid, hq⟩ := hstatus other q hq
    exact (others_attended h hmore (by simp) hpid hq).2

/-- What has been taken in once the file is open. -/
theorem openFile_heard {disk : Disk} {exclusive : Bool} {clocks : Clocks} {v' : View}
    (h : openFile env pid exclusive clocks ⟨disk, {}⟩ = .ok () v')
    (hv : Standing env pid (View.setExclusive exclusive ⟨disk, {}⟩))
    (hleads : Leads env.lib ∅ (joined disk.contents).bundles) :
    items v'.disk.records = items disk.records ∧ v'.store.announced = [] ∧
      v'.store.memory.chainInfos = chainsOn env.lib ∅ (joined disk.contents).bundles ∧
      v'.store.position = v'.disk.records.length := by
  rw [openFile_eq] at h
  have hlocked := lockExclusive_standing hv
  split_ifs at h with hzero
  · -- the file is new, and gets its header
    have hnil : disk.contents = [] :=
      (env.format.total_eq_zero fun r hr => (hv.sound r hr).nonempty).mp hzero
    obtain ⟨u, v₁, h1, h2⟩ := Action.bind_eq_ok.mp h
    obtain ⟨hmute, hrecords⟩ := releaseLock_items h2
    have hposition := releaseLock_position h2
    injection h1 with _ h1
    rw [hrecords, hmute.announced, hmute.chainInfos, hposition, ← h1]
    refine ⟨?_, rfl, ?_, ?_⟩
    · rw [write_items]
      exact List.append_nil _
    · rw [hnil]
      rfl
    · simp [View.append, View.advance]
  · obtain ⟨n, v₁, h1, h2⟩ := Action.bind_eq_ok.mp h
    obtain ⟨hmute, hrecords⟩ := releaseLock_items h2
    have hposition := releaseLock_position h2
    have hrefreshed := refreshHelper_refreshed hlocked.toPlaced h1
    have hunread : ((View.setExclusive exclusive ⟨disk, {}⟩).lockExclusive pid).unread
        = disk.contents := rfl
    have hheard := refreshHelper_heard h1 (by rw [hunread]; exact hleads)
      (unread_sound hlocked.toPlaced)
    rw [hrecords, hmute.announced, hmute.chainInfos, hposition, hheard.announced,
      hheard.chainInfos, hrefreshed.position, hrefreshed.disk, hunread]
    exact ⟨rfl, rfl, rfl, rfl⟩

theorem start_attended (h : Attended env s) (hunused : s.status pid = .unused)
    (hmay : s.disk.mayLock pid = true) (exclusive : Bool) (clocks : Clocks) :
    Attended env (s.opened env pid exclusive clocks) := by
  have hlawful := start_lawful h.lawful hunused hmay exclusive clocks
  have hfresh := h.lawful.fresh hunused exclusive
  unfold System.opened at hlawful ⊢
  have hview : s.view {} = ⟨s.disk, {}⟩ := rfl
  rw [hview] at hlawful ⊢
  rcases @openFile_cases env clocks pid _ _ hfresh hmay with
    ⟨v', hrun, hcalled, hflocked⟩ | ⟨e, v', hrun, hdisk⟩
  · rw [hrun] at hlawful ⊢
    obtain ⟨hitems, hannounced, hchains, hend⟩ := openFile_heard hrun hfresh h.leads
    obtain ⟨more, hmore, hwriter⟩ := hcalled.moved.records
    have hbundles : (joined v'.disk.contents).bundles = (joined s.disk.contents).bundles := by
      unfold Disk.contents
      rw [← items_bundles, hitems, items_bundles]
    refine put_attended h hlawful hmore hwriter ?_ ?_ ?_
    · rw [hbundles]
      exact h.leads
    · rw [hend, take_contents, hbundles, hchains]
    · rw [hend, reached_length, hannounced]
      apply Machine.follows_join
      rw [hitems]
      refine items_other ?_
      intro r hr hpid
      apply h.lawful.writer r hr
      rw [hpid, hunused]
  · rw [hrun] at hlawful ⊢
    refine gone_attended h ?_ hlawful
    show v'.disk.records = s.disk.records
    rw [hdisk]

/-- **When no bundle is missed**: bundles are not read without a callback. -/
def Unmissed (s : System) : Event → Prop
  | .beginApply pid _ callback _ _ | .refresh pid callback _ | .beginReuse pid _ callback _ =>
      callback = none → ∀ p, s.idle pid = some p → s.mayLock pid p = true →
        (joined (s.view p).unread).bundles = []
  | .read pid _ =>
      ∀ p, s.idle pid = some p → p.store.flocked = false → (joined (s.view p).unread).bundles = []
  | _ => True

/-- The law of the shared log is kept, and no bundle is missed. -/
def Attentive (env : Env) (s : System) (e : Event) : Prop := Orderly env s e ∧ Unmissed s e

/-- **What each attentive event preserves.** -/
theorem step_attended (env : Env) (s : System) (e : Event) (h : Attended env s)
    (hattentive : Attentive env s e) : Attended env (s.step env e) := by
  obtain ⟨horderly, hunmissed⟩ := hattentive
  have hlawful := step_lawful env s e h.lawful horderly
  have hstep := s.step_stepped env e
  generalize s.step env e = s' at hstep hlawful ⊢
  cases hstep with
  | nothing => exact h
  | start exclusive clocks hunused hmay => exact start_attended h hunused hmay exclusive clocks
  | @beginApply pid p bundle callback claimChain clocks hidle hmay hlink =>
      have hp := (idle_eq_some.mp hidle).1
      obtain ⟨v', hrun, hcalled, hflocked, hend, hrecords⟩ :=
        beginApply_standing (h.lawful.standing pid p hp) (mayLock_cases hmay)
          (horderly p hidle hmay)
      rw [perform_ok hrun] at hlawful ⊢
      have hheard := beginApply_heard hrun (h.leads_unread hp) (h.sound_unread hp)
      exact heard_attended h hp hheard (fun hnone => hunmissed hnone p hidle hmay) hrecords hend
        hlawful rfl
  | @finishApply pid p bundle callback claimChain lock clock claimTime hrunning hcall =>
      have hbefore : p.store.position = s.disk.records.length :=
        h.lawful.atEnd hrunning hcall
      obtain ⟨added, v', hrun, hfinished⟩ :=
        finishApply_standing (h.lawful.standing pid p hrunning) hbefore
          (horderly p bundle callback claimChain lock hrunning hcall) claimChain lock claimTime
      unfold System.applied at hlawful ⊢
      rw [perform_ok hrun] at hlawful ⊢
      obtain ⟨bundles, hwrote⟩ := finishApply_wrote hrun
      exact wrote_attended h hrunning hbefore hwrote hfinished.moved hfinished.atEnd hlawful rfl
  | @refresh pid p callback clocks hidle hmay =>
      have hp := (idle_eq_some.mp hidle).1
      obtain ⟨n, v', hrun, hcalled, hflocked, hend, hrecords⟩ :=
        refresh_standing (h.lawful.standing pid p hp) (mayLock_cases hmay)
          (horderly p hidle hmay)
      rw [perform_ok hrun] at hlawful ⊢
      have hheard := refresh_heard hrun (h.leads_unread hp) (h.sound_unread hp)
      exact heard_attended h hp hheard (fun hnone => hunmissed hnone p hidle hmay) hrecords hend
        hlawful rfl
  | @read pid p clocks hidle hmay =>
      have hp := (idle_eq_some.mp hidle).1
      obtain ⟨v', hrun, hcalled, hflocked, hrecords⟩ :=
        maybeRefresh_standing (h.lawful.standing pid p hp) (horderly p hidle)
      rw [perform_ok hrun] at hlawful ⊢
      rcases maybeRefresh_heard hrun (h.lawful.standing pid p hp) (h.leads_unread hp) with
        ⟨hmute, hposition⟩ | ⟨hheard, hfree, hposition⟩
      · exact mute_attended h hp hmute hrecords hposition hlawful rfl
      · have hend : v'.store.position = v'.disk.records.length := by
          rw [hposition, hrecords]
        exact heard_attended h hp hheard (fun _ => hunmissed p hidle hfree) hrecords hend hlawful rfl
  | @beginReuse pid p identity callback clocks hidle hmay hlink =>
      have hp := (idle_eq_some.mp hidle).1
      obtain ⟨v', hrun, hcalled, hflocked, hend, hrecords⟩ :=
        beginReuse_standing (h.lawful.standing pid p hp) (mayLock_cases hmay)
          (horderly p hidle hmay)
      rw [perform_ok hrun] at hlawful ⊢
      have hheard := beginReuse_heard hrun (h.leads_unread hp) (h.sound_unread hp)
      exact heard_attended h hp hheard (fun hnone => hunmissed hnone p hidle hmay) hrecords hend
        hlawful rfl
  | @finishReuse pid p identity lock claimTime hrunning hcall =>
      have hbefore : p.store.position = s.disk.records.length :=
        h.lawful.atEnd hrunning hcall
      have hfinished := finishReuse_standing (h.lawful.standing pid p hrunning) hbefore s.gone
        identity lock claimTime
      have hwrote := @finishReuse_wrote env pid s.gone identity lock claimTime (s.view p)
        (s.view p) (Wrote.refl _)
      unfold System.perform at hlawful ⊢
      cases hrun : finishReuse env pid s.gone identity lock claimTime (s.view p) with
      | ok found v' =>
          rw [hrun] at hfinished hwrote hlawful
          exact wrote_attended h hrunning hbefore hwrote hfinished.moved hfinished.atEnd hlawful rfl
      | error e v' =>
          rw [hrun] at hfinished hwrote hlawful
          exact wrote_attended h hrunning hbefore hwrote hfinished.moved hfinished.atEnd hlawful rfl
  | @adopt pid p chain hidle hoffered =>
      have hp := (idle_eq_some.mp hidle).1
      exact mute_attended h hp (Mute.refl _) rfl rfl hlawful rfl
  | @saveSigningKey pid p key hidle =>
      have hp := (idle_eq_some.mp hidle).1
      obtain ⟨hbefore, -⟩ := horderly p hidle
      obtain ⟨v', hrun, hacting⟩ :=
        saveSigningKey_standing (h.lawful.standing pid p hp) hbefore key
      have hwrote := @saveSigningKey_wrote env pid key (s.view p) (s.view p) (Wrote.refl _)
      rw [perform_ok hrun] at hlawful ⊢
      rw [hrun] at hwrote
      exact wrote_attended h hp hbefore hwrote hacting.moved hacting.atEnd hlawful rfl
  | @saveSymmetricKey pid p key hidle =>
      have hp := (idle_eq_some.mp hidle).1
      have hinner := @saveSymmetricKey_inner env key (s.view p) (s.view p) (Inner.refl _)
      have hwrote := @saveSymmetricKey_wrote env pid key (s.view p) (s.view p) (Wrote.refl _)
      unfold System.perform at hlawful ⊢
      cases hrun : saveSymmetricKey env key (s.view p) with
      | ok found v' =>
          rw [hrun] at hinner hwrote hlawful
          have hdisk : v'.disk = s.disk := hinner.disk
          exact mute_attended h hp ⟨hwrote.announced, hwrote.chainInfos⟩ (by rw [hdisk])
            hinner.position hlawful rfl
      | error e v' =>
          rw [hrun] at hinner hwrote hlawful
          have hdisk : v'.disk = s.disk := hinner.disk
          exact mute_attended h hp ⟨hwrote.announced, hwrote.chainInfos⟩ (by rw [hdisk])
            hinner.position hlawful rfl
  | exit hrunning => exact gone_attended h rfl hlawful

/-! ## §3. What the callbacks were handed. -/

/-- **Each bundle is handed over once.**  A process has handed its callbacks the bundles that
others wrote since it opened the file and up to its cursor, each once and in order; and one
more refresh with a callback hands over the rest. -/
structure HeardOnce (env : Env) (s : System) : Prop where
  heard : ∀ pid p, s.status pid = .running p → ∃ cursor,
    Follows pid (items s.disk.records) p.opened cursor p.store.announced
  refreshed : ∀ pid p f clocks, s.idle pid = some p → s.mayLock pid p = true →
    Readable env s p (some f) clocks → ∃ p',
      (s.step env (.refresh pid (some f) clocks)).status pid = .running p' ∧
      p'.store.announced = others pid ((items s.disk.records).drop p.opened)

theorem Attended.heardOnce (h : Attended env s) : HeardOnce env s where
  heard pid p hp := ⟨_, h.follows pid p hp⟩
  refreshed := by
    intro pid p f clocks hidle hmay hreadable
    have hp := (idle_eq_some.mp hidle).1
    obtain ⟨n, v', hrun, hcalled, -, hend, hrecords⟩ :=
      refresh_standing (h.lawful.standing pid p hp) (mayLock_cases hmay) hreadable
    have hstep : s.step env (.refresh pid (some f) clocks) = s.put pid v' p := by
      simp only [System.step, hidle]
      rw [if_pos hmay, perform_ok hrun]
    have horderly : Orderly env s (.refresh pid (some f) clocks) := by
      intro q hq _
      obtain rfl : p = q := Option.some.inj (hidle.symm.trans hq)
      exact hreadable
    have hattended := step_attended env s (.refresh pid (some f) clocks) h
      ⟨horderly, fun hnone => absurd hnone (by simp)⟩
    rw [hstep] at hattended ⊢
    have hp' : (s.put pid v' p).status pid = .running { p with store := v'.store } :=
      Function.update_self ..
    refine ⟨_, hp', ?_⟩
    have hfollows := hattended.follows pid _ hp'
    have hall := hfollows.received_all (by
      show reached v'.disk v'.store.position = (items v'.disk.records).length
      rw [hend, reached_length])
    rw [hall]
    show others pid ((items v'.disk.records).drop p.opened) = _
    rw [hrecords]
    rfl

/-- **In every attentive run** each bundle is handed over exactly once. -/
theorem heard_once (env : Env) (events : List Event)
    (h : Machine.AllSteps (System.step env) (Attentive env) {} events) :
    HeardOnce env (Machine.run (System.step env) {} events) :=
  (Machine.run_invariant (step_attended env) events {} (attended_empty env) h).heardOnce

end Log

end Gink
