/-
  Gink.Log.Code — what the methods of a `LogBackedStore` do to the file and to its cursor.

  Taking in what was read stays inside the object.  `refreshHelper_cases` says what a
  refresh comes to.
-/
import Gink.Log.System

namespace Gink

namespace Log

variable {env : Env} {callback : Option Callback} {clocks : Clocks} {pid : U64}

/-! ## §1. Code that stays inside the object. -/

/-- The file, the place in it and the lock are what they were. -/
structure Inner (v v' : View) : Prop where
  disk : v'.disk = v.disk
  position : v'.store.position = v.store.position
  processedTo : v'.store.processedTo = v.store.processedTo
  flocked : v'.store.flocked = v.store.flocked
  exclusive : v'.store.exclusive = v.store.exclusive

theorem Inner.refl (v : View) : Inner v v := ⟨rfl, rfl, rfl, rfl, rfl⟩

theorem Inner.trans {v v' v'' : View} (h : Inner v v') (h' : Inner v' v'') : Inner v v'' :=
  ⟨h'.disk.trans h.disk, h'.position.trans h.position, h'.processedTo.trans h.processedTo,
    h'.flocked.trans h.flocked, h'.exclusive.trans h.exclusive⟩

theorem memoryCall_inner {α : Type} (method : Memory.Store → Memory.Outcome α) (v : View) :
    Action.Keeps (Inner v) (memoryCall method) := by
  intro v' h
  unfold memoryCall
  cases (method v'.store.memory).result with
  | error e => exact h.trans ⟨rfl, rfl, rfl, rfl, rfl⟩
  | ok a => exact h.trans ⟨rfl, rfl, rfl, rfl, rfl⟩

theorem noteApplied_inner (record : LogFileBuilder) (v : View) : Inner v (v.noteApplied record) :=
  ⟨rfl, rfl, rfl, rfl, rfl⟩

theorem noteClaim_inner (claim : ClaimBuilder) (v : View) : Inner v (v.noteClaim claim) :=
  ⟨rfl, rfl, rfl, rfl, rfl⟩

theorem noteSigningKey_inner (publicKey secretKey : Bytes) (v : View) :
    Inner v (v.noteSigningKey publicKey secretKey) :=
  ⟨rfl, rfl, rfl, rfl, rfl⟩

theorem modify_inner {f : View → View} (hf : ∀ v, Inner v (f v)) (v : View) :
    Action.Keeps (Inner v) (modify f : Action View PUnit) :=
  Action.Keeps.modify fun v' h => h.trans (hf v')

theorem applyBundles_inner (bundles : List Decomposition) (v : View) :
    ∀ n, Action.Keeps (Inner v) (applyBundles env callback clocks n bundles) := by
  induction bundles with
  | nil => exact fun n => Action.Keeps.pure ()
  | cons bundle rest ih =>
      intro n
      unfold applyBundles
      apply Action.Keeps.bind (modify_inner (noteApplied_inner _) v)
      intro _
      apply Action.Keeps.bind (memoryCall_inner _ v)
      intro _
      exact ih (n + 1)

theorem noteClaims_inner (claims : List ClaimBuilder) (v : View) :
    Action.Keeps (Inner v) (noteClaims claims) := by
  induction claims with
  | nil => exact Action.Keeps.pure ()
  | cons claim rest ih =>
      unfold noteClaims
      apply Action.Keeps.bind (modify_inner (noteApplied_inner _) v)
      intro _
      apply Action.Keeps.bind (modify_inner (noteClaim_inner claim) v)
      intro _
      exact ih

theorem noteKeyPairs_inner (keyPairs : List KeyPairBuilder) (v : View) :
    Action.Keeps (Inner v) (noteKeyPairs keyPairs) := by
  induction keyPairs with
  | nil => exact Action.Keeps.pure ()
  | cons keyPair rest ih =>
      unfold noteKeyPairs
      apply Action.Keeps.bind (modify_inner (noteApplied_inner _) v)
      intro _
      apply Action.Keeps.of_bind
      intro publicKey _
      apply Action.Keeps.of_bind
      intro secretKey _
      apply Action.Keeps.bind (modify_inner (noteSigningKey_inner publicKey secretKey) v)
      intro _
      exact ih

/-- **Taking in** what was read stays inside, also when it raises. -/
theorem takeIn_inner (read : LogFileBuilder) (v : View) :
    Action.Keeps (Inner v) (takeIn env callback clocks read) := by
  unfold takeIn
  apply Action.Keeps.bind (modify_inner (noteApplied_inner _) v)
  intro _
  apply Action.Keeps.bind (applyBundles_inner _ v 0)
  intro _
  apply Action.Keeps.bind (noteClaims_inner _ v)
  intro _
  exact noteKeyPairs_inner _ v

/-! ## §2. What has been applied. -/

theorem applyBundles_applied {bundles : List Decomposition} :
    ∀ {n : Nat} {v v' : View}, applyBundles env callback clocks n bundles v = .ok () v' →
      v'.store.applied = v.store.applied.join { bundles } := by
  induction bundles with
  | nil =>
      intro n v v' h
      obtain rfl : v = v' := by
        injection h
      exact (LogFileBuilder.join_empty _).symm
  | cons bundle rest ih =>
      intro n v v' h
      unfold applyBundles at h
      rw [Action.modify_bind] at h
      obtain ⟨added, v₁, h1, h2⟩ := Action.bind_eq_ok.mp h
      have hrest := ih h2
      have hv₁ : v₁.store.applied = v.store.applied.join { bundles := [bundle] } := by
        unfold memoryApply memoryCall at h1
        split at h1
        · exact absurd h1 (by simp)
        · injection h1 with _ h1
          rw [← h1]
          rfl
      rw [hrest, hv₁, LogFileBuilder.join_assoc]
      rfl

theorem noteClaims_applied {claims : List ClaimBuilder} :
    ∀ {v v' : View}, noteClaims claims v = .ok () v' →
      v'.store.applied = v.store.applied.join { claims } := by
  induction claims with
  | nil =>
      intro v v' h
      obtain rfl : v = v' := by
        injection h
      exact (LogFileBuilder.join_empty _).symm
  | cons claim rest ih =>
      intro v v' h
      unfold noteClaims at h
      rw [Action.modify_bind, Action.modify_bind] at h
      rw [ih h]
      show (v.store.applied.join { claims := [claim] }).join { claims := rest } = _
      rw [LogFileBuilder.join_assoc]
      rfl

theorem noteKeyPairs_applied {keyPairs : List KeyPairBuilder} :
    ∀ {v v' : View}, noteKeyPairs keyPairs v = .ok () v' →
      v'.store.applied = v.store.applied.join { keyPairs } := by
  induction keyPairs with
  | nil =>
      intro v v' h
      obtain rfl : v = v' := by
        injection h
      exact (LogFileBuilder.join_empty _).symm
  | cons keyPair rest ih =>
      intro v v' h
      unfold noteKeyPairs at h
      rw [Action.modify_bind] at h
      obtain ⟨publicKey, v₁, h1, h⟩ := Action.bind_eq_ok.mp h
      obtain ⟨secretKey, v₂, h2, h⟩ := Action.bind_eq_ok.mp h
      obtain ⟨-, rfl⟩ := Action.of_eq_ok.mp h1
      obtain ⟨-, rfl⟩ := Action.of_eq_ok.mp h2
      rw [Action.modify_bind] at h
      rw [ih h]
      show (v.store.applied.join { keyPairs := [keyPair] }).join { keyPairs := rest } = _
      rw [LogFileBuilder.join_assoc]
      rfl

/-- **Taking in** what was read applies all of it. -/
theorem takeIn_applied {read : LogFileBuilder} {v v' : View}
    (h : takeIn env callback clocks read v = .ok () v') :
    v'.store.applied = v.store.applied.join read := by
  unfold takeIn at h
  rw [Action.modify_bind] at h
  obtain ⟨u₁, v₁, h1, h⟩ := Action.bind_eq_ok.mp h
  obtain ⟨u₂, v₂, h2, h⟩ := Action.bind_eq_ok.mp h
  rw [noteKeyPairs_applied h, noteClaims_applied h2, applyBundles_applied h1]
  show (((v.store.applied.join _).join _).join _).join _ = _
  rw [LogFileBuilder.join_assoc, LogFileBuilder.join_assoc, LogFileBuilder.join_assoc]
  congr 1
  simp [LogFileBuilder.join]

/-! ## §3. A refresh. -/

/-- The offset of the end of the file. -/
theorem tell_add_unread (v : View) :
    v.tell env + env.format.total v.unread = env.format.total v.disk.contents := by
  unfold View.tell View.unread
  rw [← LogFormat.total_append, List.take_append_drop]

/-- **What a refresh comes to**: it raises at once, finds nothing, takes in what it read,
or raises on the way. -/
theorem refreshHelper_cases (env : Env) (callback : Option Callback) (clocks : Clocks) (v : View) :
    (v.tell env ≠ v.store.processedTo ∧
      ∃ e, refreshHelper env callback clocks v = .error e v) ∨
    (v.tell env = v.store.processedTo ∧
      (env.format.total v.unread = 0 ∧ refreshHelper env callback clocks v = .ok 0 v.seekEnd ∨
      (∃ v₁, takeIn env callback clocks (joined v.unread) v.seekEnd = .ok () v₁ ∧
        refreshHelper env callback clocks v = .ok (joined v.unread).bundles.length
          (v₁.advance (env.format.total v.unread))) ∨
      ∃ e v₁, takeIn env callback clocks (joined v.unread) v.seekEnd = .error e v₁ ∧
        refreshHelper env callback clocks v = .error e v₁)) := by
  unfold refreshHelper
  rw [Action.get_bind]
  by_cases htell : v.tell env = v.store.processedTo
  · refine Or.inr ⟨htell, ?_⟩
    rw [decide_eq_true htell, ensure_true, Action.of_ok_bind, Action.modify_bind]
    by_cases hzero : env.format.total v.unread = 0
    · rw [if_pos hzero]
      exact Or.inl ⟨hzero, rfl⟩
    · rw [if_neg hzero, Action.bind_eq]
      cases htaken : takeIn env callback clocks (joined v.unread) v.seekEnd with
      | error e v₁ => exact Or.inr (Or.inr ⟨e, v₁, rfl, rfl⟩)
      | ok u v₁ =>
          refine Or.inr (Or.inl ⟨v₁, rfl, ?_⟩)
          have hinner : Inner v.seekEnd v₁ := by
            have h := @takeIn_inner env callback clocks (joined v.unread) v.seekEnd v.seekEnd
              (Inner.refl _)
            rw [htaken] at h
            exact h
          -- the handle is at the end of the file, and so is `_processed_to`
          have hend : (v₁.advance (env.format.total v.unread)).tell env
              = (v₁.advance (env.format.total v.unread)).store.processedTo := by
            show env.format.total (v₁.disk.contents.take v₁.store.position)
              = v₁.store.processedTo + env.format.total v.unread
            rw [hinner.disk, hinner.position, hinner.processedTo]
            show env.format.total (v.disk.contents.take v.disk.records.length)
              = v.store.processedTo + env.format.total v.unread
            rw [List.take_of_length_le (by simp [Disk.contents]), ← tell_add_unread, htell]
          show (modify (View.advance (env.format.total v.unread)) >>= _ : Action View Nat) v₁ = _
          rw [Action.modify_bind, Action.get_bind, decide_eq_true hend, ensure_true,
            Action.of_ok_bind]
          rfl
  · rw [decide_eq_false htell, ensure_false, Action.of_error_bind]
    exact Or.inl ⟨htell, _, rfl⟩

end Log

end Gink
