import Generalplate.Arch.Mbox

/-! # Posts that must succeed

`sys_mbox_post` has no way to fail, but it makes ten attempts and then gives up. Its
message is in the queue exactly when one of the attempts finds room. -/
namespace Generalplate.Arch
open Lib.EventRun Ucos

variable {τ : Type*} [DecidableEq τ]

/-- The task calls a function of the mailbox. -/
def MboxAct.Calls (task : τ) : MboxAct τ → Prop
  | .post t _ => t = task
  | .trypost t _ => t = task
  | .fetch t .. => t = task
  | .tryfetch t .. => t = task
  | _ => False

/-- The task that does a step. -/
def MboxAct.task : MboxAct τ → Option τ
  | .post t _ => some t
  | .attempt t => some t
  | .delay t => some t
  | .trypost t _ => some t
  | .fetch t .. => some t
  | .tryfetch t .. => some t
  | .pend t => some t
  | .expire t => some t
  | .resume t _ => some t
  | .pool _ => none

/-- The messages a task has got into the queue. -/
def Mbox.postedBy (s : Mbox τ) (task : τ) : List Nat :=
  (s.queue.took.filter (·.1 = task)).map Prod.snd

/-- Some attempt of the task finds room: a task that waits, or an entry of the queue
and of the pool. -/
def HadRoom (prio : τ → Nat) (task : τ) (acts : List (MboxAct τ)) (s : Mbox τ) : Prop :=
  ∃ pre post s1, acts = pre ++ .attempt task :: post ∧ run (mboxStep prio) pre s = some s1 ∧
    s1.queue.Room

/-- A call of `sys_mbox_post` that has made `n` attempts, or has made ten and given up. -/
def MboxPc.Made (msg n : Nat) : MboxPc → Prop
  | .posting m i => m = msg ∧ i = n ∧ n < 10
  | .delaying m i => m = msg ∧ i = n ∧ n ≤ 10
  | .idle => n = 10
  | _ => False

section Steps
variable {prio : τ → Nat} {s0 s s' : Mbox τ} {task : τ} {a : MboxAct τ} {acts : List (MboxAct τ)}
  {msg n : Nat}

theorem hadRoom_snoc (h : run (mboxStep prio) acts s0 = some s) :
    HadRoom prio task (acts ++ [a]) s0 ↔
      HadRoom prio task acts s0 ∨ (a = .attempt task ∧ s.queue.Room) := by
  constructor
  · rintro ⟨pre, post, s1, hacts, hrun, hroom⟩
    induction post using List.reverseRecOn with
    | nil =>
      obtain ⟨rfl, ha⟩ := List.append_inj' hacts rfl
      rw [h] at hrun
      cases hrun
      exact Or.inr ⟨List.singleton_inj.mp ha, hroom⟩
    | append_singleton post b _ =>
      rw [← List.cons_append, ← List.append_assoc] at hacts
      obtain ⟨hacts, -⟩ := List.append_inj' hacts rfl
      exact Or.inl ⟨pre, post, s1, hacts, hrun, hroom⟩
  · rintro (⟨pre, post, s1, rfl, hrun, hroom⟩ | ⟨rfl, hroom⟩)
    · exact ⟨pre, post ++ [a], s1, by simp, hrun, hroom⟩
    · exact ⟨acts, [], s, rfl, h, hroom⟩

/-- A post by another task. -/
theorem Mbox.osPost_postedBy {t : τ} (ht : t ≠ task) (temp : Nat) :
    (s.osPost t temp).2.postedBy task = s.postedBy task := by
  rcases s.osPost_took t temp with ⟨-, -, htook⟩ | ⟨-, -, hsame⟩
  · simp [postedBy, htook, ht]
  · rw [hsame]

/-- What another task does leaves a task that does not wait where it is. -/
theorem mboxStep_other (ha : a.task ≠ some task) (hw : ¬ (s.pc task).Waits)
    (hs : mboxStep prio a s = some s') :
    s'.pc task = s.pc task ∧ s'.postedBy task = s.postedBy task := by
  have hne : ∀ {t}, a.task = some t → task ≠ t := by
    intro t ht hc
    exact ha (by rw [ht, hc])
  cases mboxStep_next hs with
  | post | again | dropped | fetch | tryfetch | expire | resume =>
    exact ⟨Mbox.goto_other _ _ (hne rfl), rfl⟩
  | @enqueued t msg | @refused t msg =>
    obtain ⟨-, hkeep, -⟩ := s.osPost_frame t (encode msg)
    have ht : task ≠ t := hne rfl
    exact ⟨(Mbox.goto_other _ _ ht).trans (hkeep _ hw), s.osPost_postedBy ht.symm (encode msg)⟩
  | @trypost t msg =>
    obtain ⟨-, hkeep, -⟩ := s.osPost_frame t (encode msg)
    exact ⟨hkeep _ hw, s.osPost_postedBy (hne rfl).symm (encode msg)⟩
  | @taken t | @waits t =>
    refine ⟨Mbox.goto_other _ _ (hne rfl), ?_⟩
    rw [Mbox.postedBy, Mbox.postedBy, Mbox.goto, osQPend_took]
  | pool => exact ⟨rfl, rfl⟩

theorem MboxPc.Made.quiet {pc : MboxPc} (h : pc.Made msg n) : ¬ pc.Waits := by
  cases pc with
  | idle | posting | delaying | fetching | got => exact id
  | pending => exact fun _ => h

/-- The other steps of a task that posts, or has returned. -/
theorem Made.disabled (h : (s.pc task).Made msg n) (hcall : ¬ a.Calls task)
    (hatt : a ≠ .attempt task) (hdel : a ≠ .delay task) (hs : mboxStep prio a s = some s') :
    a.task ≠ some task := by
  intro ht
  cases mboxStep_next hs with
  | post | trypost | fetch | tryfetch => exact hcall (Option.some.inj ht)
  | enqueued | refused => exact hatt (by rw [Option.some.inj ht])
  | again | dropped => exact hdel (by rw [Option.some.inj ht])
  | taken hpc | waits hpc | expire hpc | resume hpc =>
    cases ht
    rw [hpc] at h
    exact h
  | pool => cases ht

/-- One step of a call: an attempt that finds room ends it, one that does not is
counted, and everything else leaves the count. -/
theorem mboxStep_made (h : (s.pc task).Made msg n) (hcall : ¬ a.Calls task)
    (hs : mboxStep prio a s = some s') :
    (a = .attempt task ∧ s.queue.Room ∧ s'.pc task = .idle ∧
      s'.postedBy task = s.postedBy task ++ [encode msg]) ∨
    (a = .attempt task ∧ ¬ s.queue.Room ∧ (s'.pc task).Made msg (n + 1) ∧
      s'.postedBy task = s.postedBy task) ∨
    (a ≠ .attempt task ∧ (s'.pc task).Made msg n ∧ s'.postedBy task = s.postedBy task) := by
  by_cases hatt : a = .attempt task
  · subst hatt
    cases mboxStep_next hs with
    | @enqueued _ m i hpc herr =>
      rw [hpc] at h
      obtain ⟨rfl, -, -⟩ := h
      rcases s.osPost_took task (encode m) with ⟨hroom, -, htook⟩ | ⟨-, hne, -⟩
      · refine Or.inl ⟨rfl, hroom, Function.update_self _ _ _, ?_⟩
        simp [Mbox.postedBy, Mbox.event, Mbox.goto, htook]
      · exact absurd herr hne
    | @refused _ m i hpc herr =>
      rw [hpc] at h
      obtain ⟨rfl, rfl, hlt⟩ := h
      rcases s.osPost_took task (encode m) with ⟨-, hok, -⟩ | ⟨hroom, -, hsame⟩
      · exact absurd hok herr
      · rw [hsame]
        refine Or.inr (Or.inl ⟨rfl, hroom, ?_, rfl⟩)
        rw [Mbox.goto_self]
        exact ⟨rfl, rfl, hlt⟩
  · refine Or.inr (Or.inr ⟨hatt, ?_⟩)
    by_cases hdel : a = .delay task
    · subst hdel
      cases mboxStep_next hs with
      | again hpc hlt =>
        rw [hpc] at h
        obtain ⟨rfl, rfl, -⟩ := h
        refine ⟨?_, rfl⟩
        rw [Mbox.goto_self]
        exact ⟨rfl, rfl, hlt⟩
      | dropped hpc hge =>
        rw [hpc] at h
        obtain ⟨-, rfl, hle⟩ := h
        refine ⟨?_, rfl⟩
        simp only [Mbox.event, Mbox.goto, Function.update_self, MboxPc.Made]
        omega
    · obtain ⟨hkeep, hpost⟩ := mboxStep_other (Made.disabled h hcall hatt hdel hs) h.quiet hs
      exact ⟨hkeep ▸ h, hpost⟩

/-- The call while it runs and after it: no attempt has found room and nothing is
posted, or one has and the message is. -/
theorem run_made (hpc : s0.pc task = .posting msg 0) (hcall : ∀ a ∈ acts, ¬ a.Calls task)
    (hrun : run (mboxStep prio) acts s0 = some s) :
    (¬ HadRoom prio task acts s0 ∧ (s.pc task).Made msg (acts.count (.attempt task)) ∧
      s.postedBy task = s0.postedBy task) ∨
    (HadRoom prio task acts s0 ∧ s.pc task = .idle ∧
      s.postedBy task = s0.postedBy task ++ [encode msg]) := by
  induction acts using List.reverseRecOn generalizing s with
  | nil =>
    cases hrun
    refine Or.inl ⟨?_, ?_, rfl⟩
    · rintro ⟨pre, post, _, hacts, -⟩
      simp at hacts
    · rw [hpc]
      exact ⟨rfl, rfl, Nat.succ_pos _⟩
  | append_singleton acts a ih =>
    obtain ⟨s1, h1, hs⟩ := run_snoc_some hrun
    have hnone : ¬ a.Calls task := hcall a (by simp)
    rw [hadRoom_snoc h1]
    rcases ih (fun b hb => hcall b (by simp [hb])) h1 with ⟨hno, hmade, hpost⟩ |
      ⟨hyes, hidle, hpost⟩
    · rcases mboxStep_made hmade hnone hs with ⟨rfl, hroom, hidle, hadd⟩ |
        ⟨rfl, hroom, hmade', hsame⟩ | ⟨hne, hmade', hsame⟩
      · exact Or.inr ⟨Or.inr ⟨rfl, hroom⟩, hidle, by rw [hadd, hpost]⟩
      · refine Or.inl ⟨?_, by simpa using hmade', hsame.trans hpost⟩
        rintro (hc | ⟨-, hc⟩)
        · exact hno hc
        · exact hroom hc
      · refine Or.inl ⟨?_, ?_, hsame.trans hpost⟩
        · rintro (hc | ⟨hc, -⟩)
          · exact hno hc
          · exact hne hc
        · simpa [List.count_singleton, hne] using hmade'
    · -- a task that has returned is one that can only be left alone
      have hmade : (s1.pc task).Made msg 10 := by
        rw [hidle]
        rfl
      have hatt : a ≠ .attempt task := by
        rintro rfl
        simp [mboxStep, hidle] at hs
      have hdel : a ≠ .delay task := by
        rintro rfl
        simp [mboxStep, hidle] at hs
      obtain ⟨hkeep, hsame⟩ :=
        mboxStep_other (Made.disabled hmade hnone hatt hdel hs) hmade.quiet hs
      exact Or.inr ⟨Or.inl hyes, hkeep.trans hidle, hsame.trans hpost⟩

end Steps

/-- **Guaranteed post.** Whatever the others do in between, a call of `sys_mbox_post`
that has returned has got its message into the queue once if one of its attempts
found room. Otherwise it has made ten attempts and its message is nowhere. -/
theorem post_enqueued_iff (prio : τ → Nat) {s0 s : Mbox τ} {task : τ} {msg : Nat}
    {acts : List (MboxAct τ)} (hpc : s0.pc task = .posting msg 0)
    (hcall : ∀ a ∈ acts, ¬ a.Calls task) (hrun : run (mboxStep prio) acts s0 = some s)
    (hret : s.pc task = .idle) :
    (s.postedBy task = s0.postedBy task ++ [encode msg] ↔ HadRoom prio task acts s0) ∧
    (¬ HadRoom prio task acts s0 →
      acts.count (.attempt task) = 10 ∧ s.postedBy task = s0.postedBy task) := by
  rcases run_made hpc hcall hrun with ⟨hno, hmade, hpost⟩ | ⟨hyes, -, hpost⟩
  · rw [hret] at hmade
    refine ⟨⟨?_, fun h => absurd h hno⟩, fun _ => ⟨hmade, hpost⟩⟩
    intro h
    rw [hpost] at h
    simp at h
  · exact ⟨⟨fun _ => hyes, fun _ => hpost⟩, fun h => absurd hyes h⟩

/-- The steps of ten attempts, with nothing in between. -/
def tenAttempts (task : τ) : List (MboxAct τ) :=
  (List.replicate 10 [.attempt task, .delay task]).flatten

/-- A queue of one message is full; nobody fetches while another is posted, and it
is lost. -/
theorem post_drops : ∃ s0 s : Mbox Nat,
    run (mboxStep id) [.trypost 1 8, .post 0 9] (.init Nat 1 100) = some s0 ∧
    run (mboxStep id) (tenAttempts 0) s0 = some s ∧ s0.pc 0 = .posting 9 0 ∧ s.pc 0 = .idle ∧
    s.queue.entries = [8] ∧ s.postedBy 0 ≠ s0.postedBy 0 ++ [encode 9] :=
  ⟨_, _, rfl, rfl, rfl, rfl, rfl, by decide⟩

/-- The second attempt, behind a fetch of what made the first one fail. -/
def secondAttempt : List (MboxAct Nat) :=
  [.attempt 0, .delay 0, .fetch 1 true 0 0, .pend 1, .attempt 0]

/-- The same post, while the queue gets room. -/
theorem post_enqueued_room : ∃ s0 s : Mbox Nat,
    run (mboxStep id) [.trypost 1 8, .post 0 9] (.init Nat 1 100) = some s0 ∧
    run (mboxStep id) secondAttempt s0 = some s ∧
    s0.queue.entries = [8] ∧ s.queue.entries = [9] ∧
    (s.postedBy 0 = s0.postedBy 0 ++ [encode 9] ↔ HadRoom id 0 secondAttempt s0) := by
  refine ⟨_, _, rfl, rfl, rfl, rfl, (post_enqueued_iff id rfl ?_ rfl rfl).1⟩
  simp [secondAttempt, MboxAct.Calls]

end Generalplate.Arch
