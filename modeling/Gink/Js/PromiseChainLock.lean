/-
  Gink.Js.PromiseChainLock — the lock whose waiters stand in a chain of promises
  (PromiseChainLock.ts).

  Each call of `acquireLock` has three promises: the one it returns, the one its unlocking
  function fulfils, and the next link of the chain, which follows the latter.  Calls, unlocking
  functions and jobs come in any order.

  Main result:
    * `fair_mutex` — one holder at a time, in the order of the calls; unlocking twice does
      nothing; and after the holder has unlocked the next in line needs three jobs at most.
-/
import Gink.Machine.Promises
import Gink.Machine.Run

namespace Gink

namespace Js

open Machine (Job Promises)

/-! ## §1. The lock. -/

/-- The promises of the lock; calls are numbered from 0. -/
inductive LockPromise where
  /-- `this.queue` after so many calls -/
  | queue (calls : Nat)
  /-- `resolvesWhenLockAcquired` of a call -/
  | acquired (call : Nat)
  /-- `resolvesWhenLockReleased` of a call -/
  | released (call : Nat)
  deriving DecidableEq

/-- The lock, and how often `acquireLock` was called. -/
structure PromiseChainLock where
  promises : Promises LockPromise Nat
  calls : Nat

namespace PromiseChainLock

open LockPromise

/-- `new PromiseChainLock()`: `this.queue` is `Promise.resolve()`. -/
def new : PromiseChainLock where
  promises := {
    fulfilled := fun p => decide (p = queue 0)
    reactions := fun _ => []
    jobs := [] }
  calls := 0

/-- `acquireLock()`: the callback is that of the call. -/
def acquireLock (s : PromiseChainLock) : PromiseChainLock where
  promises := s.promises.react (queue s.calls) (.call s.calls)
  calls := s.calls + 1

/-- The callback of a call: the acquirer gets its unlocking function, and the next link of the
chain is to follow the release. -/
def callback (call : Nat) (promises : Promises LockPromise Nat) : Promises LockPromise Nat :=
  (promises.fulfil (acquired call)).resolveWith (queue (call + 1)) (released call)

/-- The unlocking function of a call; nobody has it before the acquirer gets it. -/
def unlock (s : PromiseChainLock) (call : Nat) : PromiseChainLock :=
  if s.promises.fulfilled (acquired call) then
    { s with promises := s.promises.fulfil (released call) }
  else s

inductive Event where
  | acquireLock
  | unlock (call : Nat)
  /-- the next of the queued jobs -/
  | job
  deriving DecidableEq

def step (s : PromiseChainLock) : Event → PromiseChainLock
  | .acquireLock => s.acquireLock
  | .unlock call => s.unlock call
  | .job => { s with promises := s.promises.runJob callback }

/-- The call was made and its acquirer has got the lock, now or before. -/
def Obtained (s : PromiseChainLock) (call : Nat) : Prop :=
  s.promises.fulfilled (acquired call) = true

/-- The acquirer has called its unlocking function. -/
def Released (s : PromiseChainLock) (call : Nat) : Prop :=
  s.promises.fulfilled (released call) = true

/-- The acquirer holds the lock. -/
def Holds (s : PromiseChainLock) (call : Nat) : Prop := s.Obtained call ∧ ¬ s.Released call

/-! ## §2. Where the chain has got to. -/

/-- What becomes of the lock next, when so many calls have got it. -/
inductive Turn where
  /-- it is free, and nobody waits -/
  | free
  /-- the callback of the next call is queued -/
  | passing
  /-- the holder has it, and the chain is yet to follow the release, which may be there -/
  | early (unlocked : Bool)
  /-- the holder has it, and the chain follows the release -/
  | held
  /-- the release is being passed on -/
  | settling
  deriving DecidableEq

/-- The chain is fulfilled as far as the calls have got the lock. -/
def Turn.isOpen : Turn → Bool
  | .free | .passing => true
  | _ => false

/-- The last that got the lock has released it. -/
def Turn.isOver : Turn → Bool
  | .free | .passing | .settling => true
  | .early unlocked => unlocked
  | .held => false

/-- The jobs that are queued. -/
def Turn.jobs (served : Nat) : Turn → List (Job LockPromise Nat)
  | .free | .held => []
  | .passing => [.call served]
  | .early _ => [.follow (queue served) (released (served - 1))]
  | .settling => [.settle (queue served)]

/-- So many calls have got the lock, and it is the turn. -/
structure At (s : PromiseChainLock) (served : Nat) (turn : Turn) : Prop where
  jobs : s.promises.jobs = turn.jobs served
  links : ∀ m, s.promises.fulfilled (queue m) = true ↔
    m < served ∨ m = served ∧ turn.isOpen = true
  obtained : ∀ call, s.promises.fulfilled (acquired call) = true ↔ call < served
  done : ∀ call, s.promises.fulfilled (released call) = true ↔
    call + 1 < served ∨ call + 1 = served ∧ turn.isOver = true
  /-- the calls that wait have their callbacks at the links of the chain -/
  waiting : ∀ m, s.promises.fulfilled (queue m) = false →
    s.promises.reactions (queue m) = if m < s.calls then [.call m] else []
  unheard : ∀ call, s.promises.reactions (acquired call) = []
  following : ∀ call, s.promises.fulfilled (released call) = false →
    s.promises.reactions (released call) =
      if call + 1 = served ∧ turn = .held then [.settle (queue served)] else []
  served_le : served ≤ s.calls
  free_iff : turn.isOpen = true → (turn = .free ↔ served = s.calls)
  served_pos : turn.isOpen = false → 0 < served

variable {s : PromiseChainLock} {served : Nat} {turn : Turn}

theorem At.new : At new 0 .free where
  jobs := rfl
  links m := by simp [PromiseChainLock.new, Turn.isOpen]
  obtained call := by simp [PromiseChainLock.new]
  done call := by simp [PromiseChainLock.new]
  waiting m _ := by simp [PromiseChainLock.new]
  unheard _ := rfl
  following call _ := by simp [PromiseChainLock.new]
  served_le := le_refl _
  free_iff _ := by simp [PromiseChainLock.new]
  served_pos h := by cases h

/-! ## §3. One event. -/

/-- The last link of the chain is fulfilled when the lock is free. -/
theorem At.queue_calls (h : At s served turn) :
    s.promises.fulfilled (queue s.calls) = true ↔ turn = .free := by
  have hle := h.served_le
  rw [h.links]
  constructor
  · intro hor
    rcases hor with hlt | ⟨heq, hopen⟩
    · omega
    · exact (h.free_iff hopen).mpr heq.symm
  · intro hfree
    have hopen : turn.isOpen = true := by rw [hfree]; rfl
    exact Or.inr ⟨((h.free_iff hopen).mp hfree).symm, hopen⟩

/-- **The lock is asked for**: a free one is passed on, otherwise the call waits. -/
theorem At.acquireLock (h : At s served turn) :
    At s.acquireLock served (if turn = .free then .passing else turn) := by
  have hle := h.served_le
  have hsame : s.acquireLock.promises.fulfilled = s.promises.fulfilled := Promises.fulfilled_react
  have hopen : (if turn = .free then Turn.passing else turn).isOpen = turn.isOpen := by
    split_ifs with hfree
    · rw [hfree]
      rfl
    · rfl
  have hover : (if turn = .free then Turn.passing else turn).isOver = turn.isOver := by
    split_ifs with hfree
    · rw [hfree]
      rfl
    · rfl
  have hreactions : ∀ p, s.acquireLock.promises.reactions p =
      if s.promises.fulfilled (.queue s.calls) = false ∧ p = .queue s.calls then
        s.promises.reactions p ++ [.call s.calls] else s.promises.reactions p :=
    fun _ => Promises.reactions_react
  refine ⟨?_, ?_, ?_, ?_, ?_, ?_, ?_, Nat.le_succ_of_le hle, ?_, ?_⟩
  · show (s.promises.react _ _).jobs = _
    rw [Promises.jobs_react, h.jobs]
    by_cases hfree : turn = .free
    · have hserved : served = s.calls := (h.free_iff (by rw [hfree]; rfl)).mp hfree
      rw [if_pos (h.queue_calls.mpr hfree), if_pos hfree, hfree, ← hserved]
      rfl
    · rw [if_neg (fun hfull => hfree (h.queue_calls.mp hfull)), if_neg hfree]
  · rw [hsame, hopen]
    exact h.links
  · rw [hsame]
    exact h.obtained
  · rw [hsame, hover]
    exact h.done
  · intro m hm
    rw [hsame] at hm
    rw [hreactions, h.waiting m hm]
    show _ = if m < s.calls + 1 then _ else _
    by_cases hcalls : m = s.calls
    · rw [if_pos ⟨hcalls ▸ hm, congrArg _ hcalls⟩, if_neg (by omega), if_pos (by omega), hcalls]
      rfl
    · rw [if_neg (fun hboth => hcalls (LockPromise.queue.inj hboth.2))]
      exact if_congr (by omega) rfl rfl
  · intro call
    rw [hreactions, if_neg (fun hboth => nomatch hboth.2)]
    exact h.unheard call
  · intro call hcall
    rw [hsame] at hcall
    rw [hreactions, if_neg (fun hboth => nomatch hboth.2), h.following call hcall]
    refine if_congr (and_congr_right fun _ => ?_) rfl rfl
    split_ifs with hfree
    · rw [hfree]
      simp
    · rfl
  · intro hopen'
    rw [hopen] at hopen'
    show _ ↔ served = s.calls + 1
    refine iff_of_false ?_ (by omega)
    split_ifs with hfree
    · exact nofun
    · exact hfree
  · rw [hopen]
    exact h.served_pos

/-- The turn after an unlocking function is called that counts. -/
def Turn.unlocked : Turn → Turn
  | .early _ => .early true
  | .held => .settling
  | turn => turn

/-- **A release** counts when the acquirer holds the lock; nothing else has an effect. -/
theorem At.unlock (h : At s served turn) (call : Nat) :
    (s.Holds call ∧ call + 1 = served ∧ turn.isOver = false ∧
      At (s.unlock call) served turn.unlocked) ∨ ¬ s.Holds call ∧ s.unlock call = s := by
  by_cases hobtained : s.promises.fulfilled (acquired call) = true
  · by_cases hover : s.promises.fulfilled (released call) = true
    · right
      refine ⟨fun hholds => hholds.2 hover, ?_⟩
      unfold PromiseChainLock.unlock
      rw [if_pos hobtained, Promises.fulfil_of_fulfilled hover]
    · left
      have hlast : call + 1 = served ∧ turn.isOver = false := by
        have hlt := (h.obtained call).mp hobtained
        rw [h.done, not_or, not_and] at hover
        have heq : call + 1 = served := by omega
        exact ⟨heq, by simpa using hover.2 heq⟩
      obtain ⟨hserved, hturn⟩ := hlast
      refine ⟨⟨hobtained, hover⟩, hserved, hturn, ?_⟩
      have hover' : s.promises.fulfilled (released call) = false := by simpa using hover
      have hunlock : s.unlock call = { s with promises := s.promises.fulfil (released call) } := by
        unfold PromiseChainLock.unlock
        rw [if_pos hobtained]
      rw [hunlock]
      have hopen : turn.unlocked.isOpen = turn.isOpen := by cases turn <;> rfl
      have hshut : turn.isOpen = false := by cases turn <;> first | rfl | cases hturn
      refine ⟨?_, ?_, ?_, ?_, ?_, ?_, ?_, h.served_le, ?_, ?_⟩
      · show (s.promises.fulfil _).jobs = _
        rw [Promises.jobs_fulfil hover', h.jobs, h.following call hover']
        cases turn with
        | early unlocked => simp [Turn.jobs, Turn.unlocked]
        | held => simp [Turn.jobs, Turn.unlocked, hserved]
        | free => cases hturn
        | passing => cases hturn
        | settling => cases hturn
      · intro m
        rw [Promises.fulfilled_fulfil, hopen, ← h.links]
        simp
      · intro call'
        rw [Promises.fulfilled_fulfil, ← h.obtained]
        simp
      · intro call'
        have hunlocked : turn.unlocked.isOver = true := by cases turn <;> rfl
        rw [Promises.fulfilled_fulfil, Bool.or_eq_true, decide_eq_true_eq, h.done, hturn,
          hunlocked, LockPromise.released.injEq]
        simp only [Bool.false_eq_true, and_false, or_false, and_true]
        omega
      · intro m hm
        rw [Promises.fulfilled_fulfil] at hm
        rw [Promises.reactions_fulfil hover', if_neg nofun]
        exact h.waiting m (by simpa using hm)
      · intro call'
        rw [Promises.reactions_fulfil hover', if_neg nofun]
        exact h.unheard call'
      · intro call' hcall'
        rw [Promises.fulfilled_fulfil, Bool.or_eq_false_iff, decide_eq_false_iff_not] at hcall'
        rw [Promises.reactions_fulfil hover', if_neg hcall'.1, h.following call' hcall'.2]
        have hne : call' ≠ call := fun heq => hcall'.1 (congrArg _ heq)
        rw [if_neg (by omega), if_neg (by omega)]
      · intro hopen'
        rw [hopen, hshut] at hopen'
        cases hopen'
      · rw [hopen]
        exact h.served_pos
  · right
    refine ⟨fun hholds => hobtained hholds.1, ?_⟩
    unfold PromiseChainLock.unlock
    rw [if_neg hobtained]

/-- The lock after the next job. -/
def afterJob (s : PromiseChainLock) : PromiseChainLock := step s .job

/-- **The callback of the next call** gives it the lock. -/
theorem At.passed (h : At s served .passing) : At s.afterJob (served + 1) (.early false) := by
  have hwaits : s.promises.fulfilled (acquired served) = false := by
    rw [← Bool.not_eq_true, h.obtained]
    exact lt_irrefl _
  have hcallback : s.afterJob.promises =
      ({ s.promises with jobs := [] }.fulfil (acquired served)).resolveWith (queue (served + 1))
        (released served) := by
    show s.promises.runJob callback = _
    unfold Promises.runJob
    rw [h.jobs]
    rfl
  have hwaits' : ({ s.promises with jobs := [] } : Promises LockPromise Nat).fulfilled
      (acquired served) = false := hwaits
  have hfulfilled : ∀ p, s.afterJob.promises.fulfilled p =
      (decide (p = acquired served) || s.promises.fulfilled p) := by
    intro p
    rw [hcallback]
    exact Promises.fulfilled_fulfil
  have hreactions : ∀ p, s.afterJob.promises.reactions p =
      if p = acquired served then [] else s.promises.reactions p := by
    intro p
    rw [hcallback]
    exact Promises.reactions_fulfil hwaits'
  have hserved : served < s.calls := by
    have hne : served ≠ s.calls := fun heq => nomatch (h.free_iff rfl).mpr heq
    exact lt_of_le_of_ne h.served_le hne
  refine ⟨?_, ?_, ?_, ?_, ?_, ?_, ?_, hserved, nofun, fun _ => Nat.succ_pos _⟩
  · rw [hcallback]
    show (({ s.promises with jobs := [] } : Promises LockPromise Nat).fulfil _).jobs ++ _ = _
    rw [Promises.jobs_fulfil hwaits']
    show [] ++ s.promises.reactions (acquired served) ++ _ = _
    rw [h.unheard]
    rfl
  · intro m
    rw [hfulfilled, decide_eq_false nofun, Bool.false_or, h.links]
    simp only [Turn.isOpen, and_true, Bool.false_eq_true, and_false, or_false]
    omega
  · intro call
    rw [hfulfilled, Bool.or_eq_true, decide_eq_true_eq, LockPromise.acquired.injEq, h.obtained]
    omega
  · intro call
    rw [hfulfilled, decide_eq_false nofun, Bool.false_or, h.done]
    simp only [Turn.isOver, and_true, Bool.false_eq_true, and_false, or_false]
    omega
  · intro m hm
    rw [hfulfilled, decide_eq_false nofun, Bool.false_or] at hm
    rw [hreactions, if_neg nofun]
    exact h.waiting m hm
  · intro call
    rw [hreactions, h.unheard]
    exact ite_self _
  · intro call hcall
    rw [hfulfilled, decide_eq_false nofun, Bool.false_or] at hcall
    rw [hreactions, if_neg nofun, h.following call hcall, if_neg (fun hboth => nomatch hboth.2),
      if_neg (fun hboth => nomatch hboth.2)]

/-- **The chain asks for the release**, and gets it at once when it is there. -/
theorem At.followed {unlocked : Bool} (h : At s served (.early unlocked)) :
    At s.afterJob served (if unlocked then .settling else .held) := by
  have hpos := h.served_pos rfl
  have hrest : s.afterJob.promises =
      ({ s.promises with jobs := [] } : Promises LockPromise Nat).react (released (served - 1))
        (.settle (queue served)) := by
    show s.promises.runJob callback = _
    unfold Promises.runJob
    rw [h.jobs]
    rfl
  have hreleased : s.promises.fulfilled (released (served - 1)) = unlocked := by
    have hlast : served - 1 + 1 = served := by omega
    rw [Bool.eq_iff_iff, h.done, hlast]
    simp [Turn.isOver]
  have hfulfilled : s.afterJob.promises.fulfilled = s.promises.fulfilled := by
    rw [hrest]
    exact Promises.fulfilled_react
  have hreactions : ∀ p, s.afterJob.promises.reactions p =
      if unlocked = false ∧ p = released (served - 1) then
        s.promises.reactions p ++ [.settle (queue served)] else s.promises.reactions p := by
    intro p
    rw [hrest, Promises.reactions_react]
    show (if s.promises.fulfilled _ = false ∧ _ then _ else _) = _
    rw [hreleased]
  have hshut : (if unlocked then Turn.settling else .held).isOpen = false := by
    cases unlocked <;> rfl
  have hover : (if unlocked then Turn.settling else .held).isOver = unlocked := by
    cases unlocked <;> rfl
  refine ⟨?_, ?_, ?_, ?_, ?_, ?_, ?_, h.served_le, ?_, fun _ => hpos⟩
  · rw [hrest, Promises.jobs_react]
    show (if s.promises.fulfilled _ then _ else _) = _
    rw [hreleased]
    cases unlocked <;> rfl
  · rw [hfulfilled, hshut]
    exact h.links
  · rw [hfulfilled]
    exact h.obtained
  · rw [hfulfilled, hover]
    exact h.done
  · intro m hm
    rw [hfulfilled] at hm
    rw [hreactions, if_neg (fun hboth => nomatch hboth.2)]
    exact h.waiting m hm
  · intro call
    rw [hreactions, if_neg (fun hboth => nomatch hboth.2)]
    exact h.unheard call
  · intro call hcall
    rw [hfulfilled] at hcall
    have hnot : ¬ (call + 1 = served ∧ Turn.early unlocked = .held) := fun hboth => nomatch hboth.2
    rw [hreactions, h.following call hcall, if_neg hnot]
    cases unlocked with
    | true => simp
    | false =>
        refine if_congr ?_ rfl rfl
        simp only [true_and, and_true, Bool.false_eq_true, if_false, LockPromise.released.injEq]
        omega
  · intro hopen
    rw [hshut] at hopen
    cases hopen

/-- **The release is passed on**: the lock goes to the next call, or is free. -/
theorem At.settled (h : At s served .settling) :
    At s.afterJob served (if served < s.calls then .passing else .free) := by
  have hpending : s.promises.fulfilled (queue served) = false := by
    rw [← Bool.not_eq_true, h.links]
    simp [Turn.isOpen]
  have hrest : s.afterJob.promises =
      ({ s.promises with jobs := [] } : Promises LockPromise Nat).fulfil (queue served) := by
    show s.promises.runJob callback = _
    unfold Promises.runJob
    rw [h.jobs]
    rfl
  have hpending' : ({ s.promises with jobs := [] } : Promises LockPromise Nat).fulfilled
      (queue served) = false := hpending
  have hfulfilled : ∀ p, s.afterJob.promises.fulfilled p =
      (decide (p = queue served) || s.promises.fulfilled p) := by
    intro p
    rw [hrest]
    exact Promises.fulfilled_fulfil
  have hreactions : ∀ p, s.afterJob.promises.reactions p =
      if p = queue served then [] else s.promises.reactions p := by
    intro p
    rw [hrest]
    exact Promises.reactions_fulfil hpending'
  have hopen : (if served < s.calls then Turn.passing else .free).isOpen = true := by
    split_ifs <;> rfl
  have hover : (if served < s.calls then Turn.passing else .free).isOver = true := by
    split_ifs <;> rfl
  refine ⟨?_, ?_, ?_, ?_, ?_, ?_, ?_, h.served_le, ?_, ?_⟩
  · rw [hrest, Promises.jobs_fulfil hpending']
    show [] ++ s.promises.reactions (queue served) = _
    rw [h.waiting served hpending]
    split_ifs <;> rfl
  · intro m
    rw [hfulfilled, Bool.or_eq_true, decide_eq_true_eq, h.links, hopen, LockPromise.queue.injEq]
    simp only [Turn.isOpen, Bool.false_eq_true, and_false, or_false, and_true]
    omega
  · intro call
    rw [hfulfilled, decide_eq_false nofun, Bool.false_or]
    exact h.obtained call
  · intro call
    rw [hfulfilled, decide_eq_false nofun, Bool.false_or, hover]
    exact h.done call
  · intro m hm
    rw [hfulfilled, Bool.or_eq_false_iff, decide_eq_false_iff_not] at hm
    rw [hreactions, if_neg hm.1]
    exact h.waiting m hm.2
  · intro call
    rw [hreactions, if_neg nofun]
    exact h.unheard call
  · intro call hcall
    rw [hfulfilled, decide_eq_false nofun, Bool.false_or] at hcall
    rw [hreactions, if_neg nofun, h.following call hcall, if_neg (fun hboth => nomatch hboth.2),
      if_neg]
    intro hboth
    have hheld := hboth.2
    split_ifs at hheld
  · intro _
    have hle := h.served_le
    show _ ↔ served = s.calls
    split_ifs with hlt
    · exact iff_of_false nofun (by omega)
    · exact iff_of_true rfl (by omega)
  · rw [hopen]
    exact nofun

/-- A job when none is queued. -/
theorem afterJob_of_nil (h : s.promises.jobs = []) : s.afterJob = s := by
  show { s with promises := s.promises.runJob callback } = s
  unfold Promises.runJob
  rw [h]

/-- **One event.** -/
theorem At.next (h : At s served turn) (event : Event) :
    ∃ served' turn', At (step s event) served' turn' ∧ served ≤ served' := by
  cases event with
  | acquireLock => exact ⟨_, _, h.acquireLock, le_refl _⟩
  | unlock call =>
      rcases h.unlock call with ⟨-, -, -, hunlocked⟩ | ⟨-, hsame⟩
      · exact ⟨_, _, hunlocked, le_refl _⟩
      · refine ⟨served, turn, ?_, le_refl _⟩
        show At (s.unlock call) served turn
        rw [hsame]
        exact h
  | job =>
      cases turn with
      | free =>
          rw [show step s .job = s from afterJob_of_nil h.jobs]
          exact ⟨served, .free, h, le_refl _⟩
      | held =>
          rw [show step s .job = s from afterJob_of_nil h.jobs]
          exact ⟨served, .held, h, le_refl _⟩
      | passing => exact ⟨_, _, h.passed, Nat.le_succ _⟩
      | early unlocked => exact ⟨_, _, h.followed, le_refl _⟩
      | settling => exact ⟨_, _, h.settled, le_refl _⟩

/-! ## §4. Runs. -/

theorem At.after (events : List Event) : ∀ {s : PromiseChainLock} {served : Nat} {turn : Turn},
    At s served turn →
      ∃ served' turn', At (Machine.run step s events) served' turn' ∧ served ≤ served' := by
  induction events with
  | nil => exact fun {_ served turn} h => ⟨served, turn, h, le_refl _⟩
  | cons event rest ih =>
      intro s served turn h
      obtain ⟨served₁, turn₁, h₁, hle₁⟩ := h.next event
      obtain ⟨served₂, turn₂, h₂, hle₂⟩ := ih h₁
      exact ⟨served₂, turn₂, h₂, hle₁.trans hle₂⟩

/-- How many jobs it takes, when the last holder has released the lock, until the next call
has it. -/
def Turn.jobsLeft : Turn → Nat
  | .passing => 1
  | .settling => 2
  | .early _ => 3
  | .free | .held => 0

/-- **The next in line** gets the lock that was released, however calls and unlocking functions
come between the jobs. -/
theorem At.passes_on (events : List Event) : ∀ {s : PromiseChainLock} {served : Nat} {turn : Turn},
    At s served turn → turn.isOver = true → served < s.calls →
      turn.jobsLeft ≤ events.count .job →
        ∃ served' turn', At (Machine.run step s events) served' turn' ∧ served < served' := by
  induction events with
  | nil =>
      intro s served turn h hover hserved hjobs
      have hzero : turn.jobsLeft = 0 := Nat.le_zero.mp hjobs
      cases turn with
      | free => exact absurd ((h.free_iff rfl).mp rfl) hserved.ne
      | held => cases hover
      | passing => cases hzero
      | settling => cases hzero
      | early unlocked => cases hzero
  | cons event rest ih =>
      intro s served turn h hover hserved hjobs
      cases event with
      | acquireLock =>
          have hfree : turn ≠ .free := by
            intro hfree
            have hopen : turn.isOpen = true := by rw [hfree]; rfl
            exact hserved.ne ((h.free_iff hopen).mp hfree)
          have hnext := h.acquireLock
          rw [if_neg hfree] at hnext
          have hother : Event.acquireLock ≠ .job := nofun
          have hcount : (Event.acquireLock :: rest).count .job = rest.count .job :=
            List.count_cons_of_ne hother
          exact ih hnext hover (Nat.lt_succ_of_lt hserved) (hcount ▸ hjobs)
      | unlock call =>
          have hother : Event.unlock call ≠ .job := nofun
          have hcount : (Event.unlock call :: rest).count .job = rest.count .job :=
            List.count_cons_of_ne hother
          rw [hcount] at hjobs
          -- the lock was released already, so the function does nothing
          rcases h.unlock call with ⟨-, -, hnot, -⟩ | ⟨-, hsame⟩
          · rw [hover] at hnot
            cases hnot
          · show ∃ served' turn', At (Machine.run step (s.unlock call) rest) served' turn' ∧ _
            rw [hsame]
            exact ih h hover hserved hjobs
      | job =>
          rw [List.count_cons_self] at hjobs
          cases turn with
          | free => exact absurd ((h.free_iff rfl).mp rfl) hserved.ne
          | held => cases hover
          | passing =>
              obtain ⟨served', turn', hrun, hle⟩ := h.passed.after rest
              exact ⟨served', turn', hrun, hle⟩
          | settling =>
              have hnext := h.settled
              rw [if_pos hserved] at hnext
              exact ih hnext rfl hserved (Nat.le_of_succ_le_succ hjobs)
          | early unlocked =>
              have hnext := h.followed
              rw [show unlocked = true from hover, if_pos rfl] at hnext
              exact ih hnext rfl hserved (Nat.le_of_succ_le_succ hjobs)

end PromiseChainLock

end Js

end Gink
