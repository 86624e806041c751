/-
  Gink.Log.Discipline — the law of the shared log, for every interleaving.

  Between two events every process stands where `Gink.Log.Calls` puts it, and the lock is
  held by the processes that have a call under way, or have opened the file for themselves.
  `save_signing_key` does not take the lock and does not read what others wrote first, so
  it keeps the law only for a process that has read everything; a call that raises while it
  holds the lock, or between reading and counting what it read, breaks it as well.

  Main results:
    * `step_lawful` — what each orderly event preserves;
    * `log_discipline` — the law in every state that an orderly run reaches;
    * `log_discipline_broken` — a run in which a signing key is saved too early.
-/
import Gink.Log.Calls
import Gink.Proto.Sample

namespace Gink

namespace Log

/-! ## §1. The invariant. -/

/-- Whether a call under way took the lock. -/
def Pending.lock : Pending → Bool
  | .apply _ _ _ lock => lock
  | .reuse _ lock => lock

/-- What a process has of the lock: it holds it for a call that is under way, and has read
everything then, or for as long as it runs. -/
structure Paused (p : Process) (disk : Disk) : Prop where
  flocked : p.store.flocked = (p.pending.isSome || p.store.exclusive)
  atEnd : p.pending.isSome = true → p.store.position = disk.records.length
  lock : ∀ call, p.pending = some call → call.lock = !p.store.exclusive

/-- Every process keeps the law, and only a process that runs has the lock. -/
structure Lawful (env : Env) (s : System) : Prop where
  sound : ∀ record ∈ s.disk.contents, Sound record
  shared : s.disk.shared = []
  writer : ∀ r ∈ s.disk.records, s.status r.writer ≠ .unused
  holder : ∀ pid, s.disk.exclusive = some pid → ∃ p, s.status pid = .running p
  standing : ∀ pid p, s.status pid = .running p → Standing env pid (s.view p)
  paused : ∀ pid p, s.status pid = .running p → Paused p s.disk

theorem lawful_empty (env : Env) : Lawful env {} where
  sound record h := absurd h (by simp [Disk.contents])
  shared := rfl
  writer r h := absurd h (by simp)
  holder pid h := absurd h (by simp)
  standing pid p h := absurd h (by simp)
  paused pid p h := absurd h (by simp)

variable {env : Env} {s : System} {pid : U64}

/-- Nobody else has a call under way. -/
def Alone (s : System) (pid : U64) : Prop :=
  ∀ other q, other ≠ pid → s.status other = .running q → q.pending = none

/-- A process that has the lock is alone in this. -/
theorem Lawful.alone (h : Lawful env s) {p : Process} (hp : s.status pid = .running p)
    (hflocked : p.store.flocked = true) : Alone s pid := by
  intro other q hother hq
  have hmine := (h.standing pid p hp).held.mp hflocked
  have hpaused := h.paused other q hq
  cases hpending : q.pending with
  | none => rfl
  | some call =>
      have hflocked' : q.store.flocked = true := by
        rw [hpaused.flocked, hpending]
        rfl
      have hhis := (h.standing other q hq).held.mp hflocked'
      rw [show (s.view q).disk = (s.view p).disk from rfl, hmine] at hhis
      exact absurd (Option.some.inj hhis).symm hother

/-- Where the file grows by messages of one process, **the others** stand where they stood. -/
theorem standing_of_moved {v v' w : View} {other : U64} (hw : Standing env other w)
    (hdisk : w.disk = v.disk) (hm : Moved pid v v') (hsound : ∀ record ∈ v'.disk.contents, Sound record)
    (hshared : v'.disk.shared = []) (hother : other ≠ pid) :
    Standing env other ⟨v'.disk, w.store⟩ := by
  obtain ⟨more, hmore, hwriter⟩ := hm.records
  have hposition := hw.caught.position
  have htake : v'.disk.contents.take w.store.position = w.disk.contents.take w.store.position := by
    unfold Disk.contents
    rw [hmore, ← hdisk, List.map_append, List.take_append_of_le_length (by simpa using hposition)]
  refine ⟨⟨hsound, ⟨?_, ?_, ?_⟩, ?_⟩, hshared, ?_⟩
  · show w.store.position ≤ v'.disk.records.length
    rw [hmore, ← hdisk, List.length_append]
    omega
  · show w.store.processedTo = env.format.total (v'.disk.contents.take w.store.position)
    rw [htake]
    exact hw.caught.processedTo
  · show w.store.applied = joined (v'.disk.contents.take w.store.position)
    rw [htake]
    exact hw.caught.applied
  · intro n r hr hpid
    have hr : (w.disk.records ++ more)[n]? = some r := by
      rw [hdisk, ← hmore]
      exact hr
    by_cases hn : n < w.disk.records.length
    · rw [List.getElem?_append_left hn] at hr
      exact hw.own n r hr hpid
    · rw [List.getElem?_append_right (by omega)] at hr
      exact absurd (hpid.symm.trans (hwriter r (List.mem_of_getElem? hr))) hother
  · show w.store.flocked = true ↔ v'.disk.exclusive = some other
    rw [hm.holder other hother, ← hdisk]
    exact hw.held

/-- **A step of one process**: it ends where the law wants it, and the file does not grow
while somebody else has a call under way. -/
theorem put_lawful (h : Lawful env s) {p p' : Process} {v' : View} (hv : Standing env pid v')
    (hm : Moved pid (s.view p) v') (hpaused : Paused { p' with store := v'.store } v'.disk)
    (hgrown : v'.disk.records = s.disk.records ∨ Alone s pid) : Lawful env (s.put pid v' p') := by
  obtain ⟨more, hmore, hwriter⟩ := hm.records
  refine ⟨hv.sound, hv.shared, ?_, ?_, ?_, ?_⟩
  · intro r hr
    show Function.update s.status pid _ r.writer ≠ .unused
    by_cases hpid : r.writer = pid
    · rw [hpid, Function.update_self]
      simp
    · rw [Function.update_of_ne hpid]
      change r ∈ v'.disk.records at hr
      rw [hmore] at hr
      rcases List.mem_append.mp hr with hr | hr
      · exact h.writer r hr
      · exact absurd (hwriter r hr) hpid
  · intro other hother
    show ∃ q, Function.update s.status pid _ other = .running q
    by_cases hpid : other = pid
    · rw [hpid, Function.update_self]
      exact ⟨_, rfl⟩
    · rw [Function.update_of_ne hpid]
      exact h.holder other ((hm.holder other hpid).mp hother)
  · intro other q hq
    change Function.update s.status pid _ other = .running q at hq
    by_cases hpid : other = pid
    · subst hpid
      rw [Function.update_self] at hq
      injection hq with hq
      rw [← hq]
      exact hv
    · rw [Function.update_of_ne hpid] at hq
      have hdisk : (s.view q).disk = (s.view p).disk := rfl
      exact standing_of_moved (h.standing other q hq) hdisk hm hv.sound hv.shared hpid
  · intro other q hq
    change Function.update s.status pid _ other = .running q at hq
    by_cases hpid : other = pid
    · subst hpid
      rw [Function.update_self] at hq
      injection hq with hq
      rw [← hq]
      exact hpaused
    · rw [Function.update_of_ne hpid] at hq
      have hother := h.paused other q hq
      refine ⟨hother.flocked, ?_, hother.lock⟩
      intro hpending
      rcases hgrown with hsame | halone
      · show q.store.position = v'.disk.records.length
        rw [hsame]
        exact hother.atEnd hpending
      · rw [halone other q hpid hq] at hpending
        exact absurd hpending (by simp)

/-! ## §2. The steps. -/

/-- What the process reads applies without an exception. -/
def Readable (env : Env) (s : System) (p : Process) (callback : Option Callback)
    (clocks : Clocks) : Prop :=
  Applies env callback clocks 0 (joined (s.view p).unread).bundles p.store.memory

/-- **When an event keeps the law**: a process that may go on reads nothing that raises, the
bundle it applies does not raise while it has the lock, and a signing key is saved by a
process that has read everything while nobody else has a call under way. -/
def Orderly (env : Env) (s : System) : Event → Prop
  | .beginApply pid _ callback _ clocks | .refresh pid callback clocks
  | .beginReuse pid _ callback clocks =>
      ∀ p, s.idle pid = some p → s.mayLock pid p = true → Readable env s p callback clocks
  | .read pid clocks =>
      ∀ p, s.idle pid = some p → p.store.flocked = false → Readable env s p none clocks
  | .finishApply pid clock _ =>
      ∀ p bundle callback claimChain lock, s.status pid = .running p →
        p.pending = some (.apply bundle callback claimChain lock) →
        Lands env p.store.memory bundle callback clock
  | .saveSigningKey pid _ =>
      ∀ p, s.idle pid = some p → p.store.position = s.disk.records.length ∧ Alone s pid
  | _ => True

theorem idle_eq_some {p : Process} :
    s.idle pid = some p ↔ s.status pid = .running p ∧ p.pending = none := by
  unfold System.idle
  cases s.status pid with
  | unused => simp
  | running q =>
      by_cases hq : q.pending = none
      · simp only [hq, Option.isNone_none, if_true, Option.some.injEq, Status.running.injEq]
        constructor
        · intro h
          rw [← h]
          exact ⟨rfl, hq⟩
        · exact fun h => h.1
      · have hnone : q.pending.isNone = false := by
          cases hpending : q.pending with
          | none => exact absurd hpending hq
          | some call => rfl
        simp only [hnone, Bool.false_eq_true, if_false, reduceCtorEq, Status.running.injEq, false_iff]
        intro h
        rw [h.1] at hq
        exact hq h.2
  | exited => simp

theorem mayLock_cases {p : Process} (h : s.mayLock pid p = true) :
    p.store.flocked = true ∨ s.disk.mayLock pid = true := by
  unfold System.mayLock at h
  exact (Bool.or_eq_true _ _).mp h

/-- In the middle of a call a process has read everything. -/
theorem Lawful.atEnd (h : Lawful env s) {p : Process} (hp : s.status pid = .running p)
    {call : Pending} (hcall : p.pending = some call) :
    p.store.position = s.disk.records.length := by
  apply (h.paused pid p hp).atEnd
  rw [hcall]
  rfl

theorem perform_ok {α : Type} {p : Process} {x : Action View α} {next : α → Process} {a : α}
    {v : View} (h : x (s.view p) = .ok a v) : s.perform pid p x next = s.put pid v (next a) := by
  unfold System.perform
  rw [h]

/-- What of the lock an idle process has. -/
theorem Lawful.idle_flocked (h : Lawful env s) {p : Process} (hp : s.status pid = .running p)
    (hpending : p.pending = none) : p.store.flocked = p.store.exclusive := by
  rw [(h.paused pid p hp).flocked, hpending]
  rfl

/-- **A call begins**: it has the lock, and has read everything. -/
theorem begin_lawful (h : Lawful env s) {p : Process} (hp : s.idle pid = some p) {v' : View}
    {call : Pending} (hcalled : Called env pid (s.view p) v') (hflocked : v'.store.flocked = true)
    (hend : v'.store.position = v'.disk.records.length)
    (hrecords : v'.disk.records = s.disk.records) (hlock : call.lock = !p.store.flocked) :
    Lawful env (s.put pid v' { p with pending := some call }) := by
  obtain ⟨hrunning, hpending⟩ := idle_eq_some.mp hp
  have hexclusive : v'.store.exclusive = p.store.exclusive := hcalled.moved.exclusive
  refine put_lawful h hcalled.standing hcalled.moved ⟨hflocked, fun _ => hend, ?_⟩ (Or.inl hrecords)
  intro call' hcall'
  obtain rfl : call = call' := Option.some.inj hcall'
  show call.lock = !v'.store.exclusive
  rw [hlock, h.idle_flocked hrunning hpending, hexclusive]

/-- **A call is over**: the lock is as it was before the call. -/
theorem finish_lawful (h : Lawful env s) {p p' : Process} (hp : s.status pid = .running p)
    {call : Pending} (hcall : p.pending = some call) {v' : View}
    (hfinished : Finished env pid call.lock (s.view p) v') (hp' : p'.pending = none) :
    Lawful env (s.put pid v' p') := by
  have hpaused := h.paused pid p hp
  have hflocked : p.store.flocked = true := by
    rw [hpaused.flocked, hcall]
    rfl
  have hexclusive : v'.store.exclusive = p.store.exclusive := hfinished.moved.exclusive
  refine put_lawful h hfinished.standing hfinished.moved ⟨?_, ?_, ?_⟩ (Or.inr (h.alone hp hflocked))
  · show v'.store.flocked = (p'.pending.isSome || v'.store.exclusive)
    rw [hfinished.flocked, hp', hexclusive, hpaused.lock call hcall]
    show (p.store.flocked && _) = _
    rw [hflocked]
    simp
  · show p'.pending.isSome = true → _
    rw [hp']
    exact fun h => absurd h (by simp)
  · show ∀ call, p'.pending = some call → _
    rw [hp']
    exact fun _ h => absurd h (by simp)

/-- **A call that is one event** leaves the lock as it was. -/
theorem idle_lawful (h : Lawful env s) {p p' : Process} (hp : s.idle pid = some p) {v' : View}
    (hcalled : Called env pid (s.view p) v') (hflocked : v'.store.flocked = p.store.flocked)
    (hp' : p'.pending = none) (hgrown : v'.disk.records = s.disk.records ∨ Alone s pid) :
    Lawful env (s.put pid v' p') := by
  obtain ⟨hrunning, hpending⟩ := idle_eq_some.mp hp
  have hexclusive : v'.store.exclusive = p.store.exclusive := hcalled.moved.exclusive
  refine put_lawful h hcalled.standing hcalled.moved ⟨?_, ?_, ?_⟩ hgrown
  · show v'.store.flocked = (p'.pending.isSome || v'.store.exclusive)
    rw [hflocked, hp', hexclusive]
    exact h.idle_flocked hrunning hpending
  · show p'.pending.isSome = true → _
    rw [hp']
    exact fun h => absurd h (by simp)
  · show ∀ call, p'.pending = some call → _
    rw [hp']
    exact fun _ h => absurd h (by simp)

/-- **A process is gone**, and with it its hold on the file. -/
theorem gone_lawful (h : Lawful env s) {p : Process} {v' : View} (hm : Moved pid (s.view p) v')
    (hrecords : v'.disk.records = s.disk.records) (hshared : v'.disk.shared = [])
    (hfree : v'.disk.exclusive ≠ some pid) :
    Lawful env ⟨v'.disk, Function.update s.status pid .exited⟩ := by
  have hcontents : v'.disk.contents = s.disk.contents := by
    unfold Disk.contents
    rw [hrecords]
  have hsound : ∀ record ∈ v'.disk.contents, Sound record := by
    rw [hcontents]
    exact h.sound
  have hstatus : ∀ other q, Function.update s.status pid .exited other = .running q →
      other ≠ pid ∧ s.status other = .running q := by
    intro other q hq
    by_cases hpid : other = pid
    · rw [hpid, Function.update_self] at hq
      exact absurd hq (by simp)
    · rw [Function.update_of_ne hpid] at hq
      exact ⟨hpid, hq⟩
  refine ⟨hsound, hshared, ?_, ?_, ?_, ?_⟩
  · intro r hr
    show Function.update s.status pid .exited r.writer ≠ .unused
    by_cases hpid : r.writer = pid
    · rw [hpid, Function.update_self]
      simp
    · rw [Function.update_of_ne hpid]
      change r ∈ v'.disk.records at hr
      rw [hrecords] at hr
      exact h.writer r hr
  · intro other hother
    change v'.disk.exclusive = some other at hother
    have hpid : other ≠ pid := by
      intro heq
      rw [heq] at hother
      exact hfree hother
    obtain ⟨q, hq⟩ := h.holder other ((hm.holder other hpid).mp hother)
    refine ⟨q, ?_⟩
    show Function.update s.status pid .exited other = .running q
    rw [Function.update_of_ne hpid]
    exact hq
  · intro other q hq
    obtain ⟨hpid, hq⟩ := hstatus other q hq
    have hdisk : (s.view q).disk = (s.view p).disk := rfl
    exact standing_of_moved (h.standing other q hq) hdisk hm hsound hshared hpid
  · intro other q hq
    obtain ⟨-, hq⟩ := hstatus other q hq
    have hother := h.paused other q hq
    refine ⟨hother.flocked, ?_, hother.lock⟩
    show _ → q.store.position = v'.disk.records.length
    rw [hrecords]
    exact hother.atEnd

theorem unlock_free (v : View) : (v.unlock pid).disk.exclusive ≠ some pid := by
  show (if v.disk.exclusive = some pid then none else v.disk.exclusive) ≠ some pid
  split_ifs with h
  · simp
  · exact h

theorem exit_lawful (h : Lawful env s) (p : Process) : Lawful env (s.left pid p) := by
  refine gone_lawful h (p := p) (unlock_moved _) rfl ?_ (unlock_free _)
  show s.disk.shared.filter _ = []
  rw [h.shared]
  rfl

/-- When the lock is free nobody has a call under way. -/
theorem Lawful.alone_of_mayLock (h : Lawful env s) (hmay : s.disk.mayLock pid = true) :
    Alone s pid := by
  intro other q hother hq
  cases hpending : q.pending with
  | none => rfl
  | some call =>
      have hflocked : q.store.flocked = true := by
        rw [(h.paused other q hq).flocked, hpending]
        rfl
      have hhis : s.disk.exclusive = some other := (h.standing other q hq).held.mp hflocked
      rcases (mayLock_iff h.shared).mp hmay with hnone | hmine
      · rw [hnone] at hhis
        exact absurd hhis (by simp)
      · rw [hmine] at hhis
        exact absurd (Option.some.inj hhis).symm hother

/-- A process that is not there yet can open the file. -/
theorem Lawful.fresh (h : Lawful env s) (hunused : s.status pid = .unused) (exclusive : Bool) :
    Standing env pid (View.setExclusive exclusive ⟨s.disk, {}⟩) := by
  refine fresh_standing h.sound h.shared ?_ ?_ exclusive
  · intro r hr hpid
    apply h.writer r hr
    rw [hpid, hunused]
  · intro hheld
    obtain ⟨p, hp⟩ := h.holder pid hheld
    rw [hunused] at hp
    exact absurd hp (by simp)

theorem start_lawful (h : Lawful env s) (hunused : s.status pid = .unused)
    (hmay : s.disk.mayLock pid = true) (exclusive : Bool) (clocks : Clocks) :
    Lawful env (s.opened env pid exclusive clocks) := by
  have hfresh := h.fresh hunused exclusive
  unfold System.opened
  rcases @openFile_cases env clocks pid _ _ hfresh hmay with
    ⟨v', hrun, hcalled, hflocked⟩ | ⟨e, v', hrun, hdisk⟩
  · have hview : s.view {} = ⟨s.disk, {}⟩ := rfl
    rw [hview, hrun]
    refine put_lawful h (p := { store := { exclusive } }) hcalled.standing hcalled.moved
      ⟨?_, fun hnone => absurd hnone (by simp), fun _ hnone => absurd hnone (by simp)⟩
      (Or.inr (h.alone_of_mayLock hmay))
    show v'.store.flocked = (false || v'.store.exclusive)
    rw [hflocked, hcalled.moved.exclusive]
    rfl
  · -- nothing was opened, and the lock that was taken goes with the process
    have hview : s.view {} = ⟨s.disk, {}⟩ := rfl
    rw [hview, hrun]
    have hlocked : (v'.unlock pid).disk
        = (((View.setExclusive exclusive ⟨s.disk, {}⟩).lockExclusive pid).unlock pid).disk := by
      unfold View.unlock
      rw [hdisk]
      rfl
    show Lawful env ⟨(v'.unlock pid).disk, _⟩
    rw [hlocked]
    refine gone_lawful h (p := { store := { exclusive } })
      ((lockExclusive_moved hfresh.shared hmay).trans (unlock_moved _)) rfl ?_ (unlock_free _)
    show s.disk.shared.filter _ = []
    rw [h.shared]
    rfl

/-- **What each orderly event preserves.** -/
theorem step_lawful (env : Env) (s : System) (e : Event) (h : Lawful env s)
    (horderly : Orderly env s e) : Lawful env (s.step env e) := by
  have hstep := s.step_stepped env e
  generalize s.step env e = s' at hstep ⊢
  cases hstep with
  | nothing => exact h
  | start exclusive clocks hunused hmay => exact start_lawful h hunused hmay exclusive clocks
  | @beginApply pid p bundle callback claimChain clocks hidle hmay hlink =>
      have hp := (idle_eq_some.mp hidle).1
      obtain ⟨v', hrun, hcalled, hflocked, hend, hrecords⟩ :=
        beginApply_standing (h.standing pid p hp) (mayLock_cases hmay) (horderly p hidle hmay)
      rw [perform_ok hrun]
      exact begin_lawful h hidle hcalled hflocked hend hrecords rfl
  | @finishApply pid p bundle callback claimChain lock clock claimTime hrunning hcall =>
      have hend := h.atEnd hrunning hcall
      obtain ⟨added, v', hrun, hfinished⟩ :=
        finishApply_standing (h.standing pid p hrunning) hend
          (horderly p bundle callback claimChain lock hrunning hcall) claimChain lock claimTime
      unfold System.applied
      rw [perform_ok hrun]
      exact finish_lawful h hrunning hcall hfinished rfl
  | @refresh pid p callback clocks hidle hmay =>
      obtain ⟨hp, hpending⟩ := idle_eq_some.mp hidle
      obtain ⟨n, v', hrun, hcalled, hflocked, -, hrecords⟩ :=
        refresh_standing (h.standing pid p hp) (mayLock_cases hmay) (horderly p hidle hmay)
      rw [perform_ok hrun]
      exact idle_lawful h hidle hcalled hflocked hpending (Or.inl hrecords)
  | @read pid p clocks hidle hmay =>
      obtain ⟨hp, hpending⟩ := idle_eq_some.mp hidle
      obtain ⟨v', hrun, hcalled, hflocked, hrecords⟩ :=
        maybeRefresh_standing (h.standing pid p hp) (horderly p hidle)
      rw [perform_ok hrun]
      exact idle_lawful h hidle hcalled hflocked hpending (Or.inl hrecords)
  | @beginReuse pid p identity callback clocks hidle hmay hlink =>
      have hp := (idle_eq_some.mp hidle).1
      obtain ⟨v', hrun, hcalled, hflocked, hend, hrecords⟩ :=
        beginReuse_standing (h.standing pid p hp) (mayLock_cases hmay) (horderly p hidle hmay)
      rw [perform_ok hrun]
      exact begin_lawful h hidle hcalled hflocked hend hrecords rfl
  | @finishReuse pid p identity lock claimTime hrunning hcall =>
      have hend := h.atEnd hrunning hcall
      have hfinished := finishReuse_standing (h.standing pid p hrunning) hend s.gone identity lock
        claimTime
      -- the lock is released whether it found a chain, found none or raised
      unfold System.perform
      cases hrun : finishReuse env pid s.gone identity lock claimTime (s.view p) with
      | ok found v' =>
          rw [hrun] at hfinished
          exact finish_lawful h hrunning hcall hfinished rfl
      | error e v' =>
          rw [hrun] at hfinished
          exact finish_lawful h hrunning hcall hfinished rfl
  | @adopt pid p chain hidle hoffered =>
      obtain ⟨hp, hpending⟩ := idle_eq_some.mp hidle
      exact idle_lawful h hidle ⟨h.standing pid p hp, Moved.refl pid _⟩ rfl hpending (Or.inl rfl)
  | @saveSigningKey pid p key hidle =>
      obtain ⟨hp, hpending⟩ := idle_eq_some.mp hidle
      obtain ⟨hend, halone⟩ := horderly p hidle
      obtain ⟨v', hrun, hacting⟩ := saveSigningKey_standing (h.standing pid p hp) hend key
      rw [perform_ok hrun]
      exact idle_lawful h hidle ⟨hacting.standing, hacting.moved⟩ hacting.flocked hpending
        (Or.inr halone)
  | @saveSymmetricKey pid p key hidle =>
      -- nothing is written, also when the key is refused
      obtain ⟨hp, hpending⟩ := idle_eq_some.mp hidle
      have hinner := @saveSymmetricKey_inner env key (s.view p) (s.view p) (Inner.refl _)
      have happlied := @saveSymmetricKey_applied env key (s.view p)
      unfold System.perform
      cases hrun : saveSymmetricKey env key (s.view p) with
      | ok found v' =>
          rw [hrun] at hinner happlied
          change Inner (s.view p) v' at hinner
          exact idle_lawful h hidle ⟨hinner.standing happlied (h.standing pid p hp), hinner.moved⟩
            hinner.flocked hpending (Or.inl (by rw [hinner.disk]; rfl))
      | error e v' =>
          rw [hrun] at hinner happlied
          change Inner (s.view p) v' at hinner
          exact idle_lawful h hidle ⟨hinner.standing happlied (h.standing pid p hp), hinner.moved⟩
            hinner.flocked rfl (Or.inl (by rw [hinner.disk]; rfl))
  | exit hrunning => exact exit_lawful h _

/-! ## §3. The law. -/

/-- **The discipline of the shared log.**  The cursor of a process stands between two
messages; the process has applied the messages before it, each once and nothing else, among
them all that it wrote; a refresh leaves it with everything applied; and the lock is free
when no call is under way and nobody has opened the file for himself. -/
structure Disciplined (env : Env) (s : System) : Prop where
  cursor : ∀ pid p, s.status pid = .running p → ∃ n ≤ s.disk.records.length,
    p.store.processedTo = env.format.total (s.disk.contents.take n) ∧
    p.store.applied = joined (s.disk.contents.take n) ∧
    ∀ m r, s.disk.records[m]? = some r → r.writer = pid → m < n
  refreshed : ∀ pid p callback clocks, s.idle pid = some p → s.mayLock pid p = true →
    Readable env s p callback clocks → ∃ p',
      (s.step env (.refresh pid callback clocks)).status pid = .running p' ∧
      p'.store.applied = joined s.disk.contents
  free : (∀ pid p, s.status pid = .running p → p.pending = none ∧ p.store.exclusive = false) →
    ∀ pid, s.disk.mayLock pid = true

theorem Lawful.disciplined (h : Lawful env s) : Disciplined env s where
  cursor pid p hp :=
    ⟨p.store.position, (h.standing pid p hp).caught.position,
      (h.standing pid p hp).caught.processedTo, (h.standing pid p hp).caught.applied,
      (h.standing pid p hp).own⟩
  refreshed := by
    intro pid p callback clocks hidle hmay hreadable
    have hp := (idle_eq_some.mp hidle).1
    obtain ⟨n, v', hrun, hcalled, -, hend, hrecords⟩ :=
      refresh_standing (h.standing pid p hp) (mayLock_cases hmay) hreadable
    have hstep : s.step env (.refresh pid callback clocks) = s.put pid v' p := by
      simp only [System.step, hidle]
      rw [if_pos hmay, perform_ok hrun]
    rw [hstep]
    refine ⟨{ p with store := v'.store }, Function.update_self .., ?_⟩
    have hcontents : v'.disk.contents = s.disk.contents := by
      unfold Disk.contents
      rw [hrecords]
      rfl
    show v'.store.applied = joined s.disk.contents
    rw [hcalled.standing.caught.applied, hend, take_contents, hcontents]
  free := by
    intro hidle pid
    rw [mayLock_iff h.shared]
    cases hholder : s.disk.exclusive with
    | none => exact Or.inl rfl
    | some holder =>
        obtain ⟨p, hp⟩ := h.holder holder hholder
        obtain ⟨hpending, hexclusive⟩ := hidle holder p hp
        -- whoever had it would have a call under way, or the file for himself
        have hflocked := (h.paused holder p hp).flocked
        have hheld : p.store.flocked = true := (h.standing holder p hp).held.mpr hholder
        rw [hpending, hexclusive, hheld] at hflocked
        exact absurd hflocked (by simp)

/-- **In every orderly run** of any processes on one file the law holds throughout. -/
theorem log_discipline (env : Env) (events : List Event)
    (h : Machine.AllSteps (System.step env) (Orderly env) {} events) :
    Disciplined env (Machine.run (System.step env) {} events) :=
  (Machine.run_invariant (step_lawful env) events {} (lawful_empty env) h).disciplined

/-! ## §4. A run that breaks the law. -/

/-- Processes whose libraries parse no bundle. -/
def sampleEnv : Env := ⟨sampleExternals [], sampleFormat⟩

/-- A signing key all of whose bytes are `n`. -/
def signingKeyOf (n : Byte) : SigningKey where
  verifyKey := List.replicate 32 n
  seed := List.replicate 32 n
  length_verifyKey := List.length_replicate
  length_seed := List.length_replicate

/-- Two processes open the file, and each saves a signing key before it has read the other's. -/
def hastyEvents : List Event :=
  [.start 1 false fun _ _ => 0, .start 2 false fun _ _ => 0,
    .saveSigningKey 1 (signingKeyOf 1), .saveSigningKey 2 (signingKeyOf 2)]

/-- Then the second process has counted the bytes of its own key for those of the first one's,
which it has not read; its next call raises. -/
theorem log_discipline_broken :
    ¬Disciplined sampleEnv (Machine.run (System.step sampleEnv) {} hastyEvents) := by
  intro h
  obtain ⟨n, hn, hprocessedTo, -, hown⟩ := h.cursor 2 _ rfl
  have hlt : 2 < n := hown 2 _ rfl rfl
  have hle : n ≤ 3 := hn
  obtain rfl : n = 3 := by omega
  exact absurd hprocessedTo (by decide)

/-- One process that reads everything before it saves a key. -/
def patientEvents : List Event :=
  [.start 1 false fun _ _ => 0, .saveSigningKey 1 (signingKeyOf 1),
    .refresh 1 none fun _ _ => 0]

theorem log_discipline_sample :
    Machine.AllSteps (System.step sampleEnv) (Orderly sampleEnv) {} patientEvents ∧
      Disciplined sampleEnv (Machine.run (System.step sampleEnv) {} patientEvents) := by
  have h : Machine.AllSteps (System.step sampleEnv) (Orderly sampleEnv) {} patientEvents := by
    refine ⟨trivial, ?_, ?_, trivial⟩
    · intro p hp
      have hp' := (idle_eq_some.mp hp).1
      refine ⟨?_, ?_⟩
      · injection hp' with hp'
        rw [← hp']
        rfl
      · intro other q hother hq
        change Function.update _ _ _ other = _ at hq
        rw [Function.update_of_ne hother] at hq
        exact absurd hq (by simp)
    · intro p hp _
      have hp' := (idle_eq_some.mp hp).1
      injection hp' with hp'
      rw [← hp']
      trivial
  exact ⟨h, log_discipline sampleEnv patientEvents h⟩

end Log

end Gink
