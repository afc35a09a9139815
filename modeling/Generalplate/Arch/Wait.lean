import Generalplate.Arch.Sem

/-! # How long a task waits

`sys_arch_mbox_fetch` and `sys_arch_sem_wait` convert their time limit to ticks
before they wait, and what they waited to milliseconds after it. Both products are
taken in 32 bits, and a wait in which the tick counter wraps is taken for one tick
less than it was. -/
namespace Generalplate.Arch
open Lib.EventRun Ucos

variable {τ : Type*}

/-! ## A call, from its first step to the one that returns -/

/-- The task is in a call with this time limit and this first reading of the clock. -/
def MboxPc.InCall (ticks timeout : UInt32) : MboxPc → Prop
  | .fetching _ k t => k = ticks ∧ t = timeout
  | .pending _ k t => k = ticks ∧ t = timeout
  | .got _ t _ => t = timeout
  | _ => False

def SemPc.InCall (ticks timeout : UInt32) : SemPc → Prop
  | .waiting k t => k = ticks ∧ t = timeout
  | .pending k t => k = ticks ∧ t = timeout
  | .got t => t = timeout
  | .idle => False

/-- The ticks that the task gives, or has given, to the operating system. -/
def MboxPc.budget : MboxPc → Option UInt32
  | .fetching _ ticks _ => some ticks
  | .pending _ ticks _ => some ticks
  | _ => none

def SemPc.budget : SemPc → Option UInt32
  | .waiting ticks _ => some ticks
  | .pending ticks _ => some ticks
  | _ => none

/-- The step ends the task's call. -/
def MboxAct.Ends (task : τ) : MboxAct τ → Prop
  | .expire t => t = task
  | .resume t _ => t = task
  | _ => False

def SemAct.Ends (task : τ) : SemAct τ → Prop
  | .expire t => t = task
  | .resume t _ => t = task
  | _ => False

theorem MboxPc.InCall.budget {pc : MboxPc} {ticks timeout k : UInt32} (h : pc.InCall ticks timeout)
    (hk : pc.budget = some k) : k = ticks := by
  cases pc with
  | fetching want k' t | pending want k' t =>
    cases hk
    exact h.1
  | idle | posting | delaying | got => cases hk

theorem SemPc.InCall.budget {pc : SemPc} {ticks timeout k : UInt32} (h : pc.InCall ticks timeout)
    (hk : pc.budget = some k) : k = ticks := by
  cases pc with
  | waiting k' t | pending k' t =>
    cases hk
    exact h.1
  | idle | got => cases hk

variable [DecidableEq τ] {prio : τ → Nat} {task : τ} {ticks timeout : UInt32}

section Mbox
variable {s s' : Mbox τ}

theorem Mbox.InCall.goto {t : τ} {pc : MboxPc} (h : (s.pc task).InCall ticks timeout)
    (hself : t = task → pc.InCall ticks timeout) :
    ((s.goto t pc).pc task).InCall ticks timeout :=
  place_update h hself

theorem Mbox.InCall.osPost (h : (s.pc task).InCall ticks timeout) (t : τ) (temp : Nat) :
    ((s.osPost t temp).2.pc task).InCall ticks timeout := by
  rw [Mbox.osPost]
  split
  · exact h
  · rename_i waiter _
    rw [Mbox.ready]
    split
    · rename_i want k tm hpc
      refine Mbox.InCall.goto h ?_
      intro hw
      rw [hw] at hpc
      change (s.pc task) = .pending want k tm at hpc
      rw [hpc] at h
      exact h.2
    · exact h

/-- The others do not disturb a call. -/
theorem Mbox.InCall.step {a : MboxAct τ} (h : (s.pc task).InCall ticks timeout)
    (ha : ¬ a.Ends task) (hs : mboxStep prio a s = some s') :
    (s'.pc task).InCall ticks timeout := by
  -- a task in a call does not begin another one
  have hbusy : ∀ {t : τ} {pc pc' : MboxPc}, s.pc t = pc → ¬ pc.InCall ticks timeout →
      t = task → pc'.InCall ticks timeout := by
    intro t pc pc' hpc hout ht
    rw [← hpc, ht] at hout
    exact absurd h hout
  cases mboxStep_next hs with
  | post hpc | fetch hpc | tryfetch hpc | again hpc | dropped hpc =>
    exact Mbox.InCall.goto h (hbusy hpc id)
  | enqueued hpc | refused hpc =>
    exact Mbox.InCall.goto (Mbox.InCall.osPost h _ _) (hbusy hpc id)
  | trypost => exact Mbox.InCall.osPost h _ _
  | @taken t _ k tm _ _ hpc =>
    refine Mbox.InCall.goto h ?_
    intro ht
    rw [← ht, hpc] at h
    exact h.2
  | @waits t _ k tm hpc =>
    refine Mbox.InCall.goto h ?_
    intro ht
    rw [← ht, hpc] at h
    exact h
  | expire | resume => exact Mbox.InCall.goto h fun ht => absurd ht ha
  | pool => exact h

theorem Mbox.InCall.run {acts : List (MboxAct τ)} (h : (s.pc task).InCall ticks timeout)
    (hacts : ∀ a ∈ acts, ¬ a.Ends task) (hrun : run (mboxStep prio) acts s = some s') :
    (s'.pc task).InCall ticks timeout :=
  run_inv_events (P := fun s => (s.pc task).InCall ticks timeout)
    (fun _ _ _ hs ha hstep => Mbox.InCall.step hs ha hstep) h hacts hrun

/-- From the call of `sys_arch_mbox_fetch` on, the task carries the ticks and the
reading it began with. -/
theorem Mbox.InCall.fetch {want : Bool} {now : UInt32} {acts : List (MboxAct τ)}
    (hacts : ∀ a ∈ acts, ¬ a.Ends task)
    (hrun : Lib.EventRun.run (mboxStep prio) (.fetch task want timeout now :: acts) s = some s') :
    (s'.pc task).InCall (ucosTimeout timeout) now := by
  obtain ⟨s1, h1, h2⟩ := run_cons_some hrun
  refine Mbox.InCall.run ?_ hacts h2
  cases mboxStep_next h1 with
  | fetch hpc =>
    rw [Mbox.goto_self]
    exact ⟨rfl, rfl⟩

/-- What a fetch that gets a message returns. -/
theorem Mbox.fetch_returns {want : Bool} {t0 t1 : UInt32} {before acts : List (MboxAct τ)}
    (hacts : ∀ a ∈ acts, ¬ a.Ends task)
    (hrun : run (mboxStep prio)
      (before ++ (.fetch task want timeout t0 :: acts ++ [.resume task t1])) s = some s') :
    ∃ f, s'.log.getLast? = some (.fetched f) ∧ f.task = task ∧ f.temp ≠ none ∧
      f.res = fetchElapsed t0 t1 := by
  obtain ⟨s0, -, h0⟩ := run_append_some hrun
  obtain ⟨s1, h1, h3⟩ := run_snoc_some h0
  have hin := Mbox.InCall.fetch hacts h1
  cases mboxStep_next h3 with
  | @resume _ want' tm _ temp hpc =>
    rw [hpc] at hin
    refine ⟨_, List.getLast?_concat, rfl, nofun, ?_⟩
    rw [show tm = t0 from hin]

end Mbox

section Sem
variable {s s' : Sem τ}

theorem Sem.InCall.goto {t : τ} {pc : SemPc} (h : (s.pc task).InCall ticks timeout)
    (hself : t = task → pc.InCall ticks timeout) :
    ((s.goto t pc).pc task).InCall ticks timeout :=
  place_update h hself

theorem Sem.InCall.signal (h : (s.pc task).InCall ticks timeout) :
    (s.signal.pc task).InCall ticks timeout := by
  rw [Sem.signal]
  split
  · exact h
  · rename_i waiter _
    rw [Sem.ready]
    split
    · rename_i k tm hpc
      refine Sem.InCall.goto h ?_
      intro hw
      rw [hw] at hpc
      change (s.pc task) = .pending k tm at hpc
      rw [hpc] at h
      exact h.2
    · exact h

theorem Sem.InCall.step {a : SemAct τ} (h : (s.pc task).InCall ticks timeout)
    (ha : ¬ a.Ends task) (hs : semStep prio a s = some s') :
    (s'.pc task).InCall ticks timeout := by
  cases semStep_next hs with
  | @wait t tm now hpc =>
    refine Sem.InCall.goto h ?_
    intro ht
    rw [← ht, hpc] at h
    exact h.elim
  | @taken t k tm hpc =>
    refine Sem.InCall.goto h ?_
    intro ht
    rw [← ht, hpc] at h
    exact h.2
  | @waits t k tm hpc =>
    refine Sem.InCall.goto h ?_
    intro ht
    rw [← ht, hpc] at h
    exact h
  | expire | resume => exact Sem.InCall.goto h fun ht => absurd ht ha
  | signal => exact Sem.InCall.signal h

theorem Sem.InCall.run {acts : List (SemAct τ)} (h : (s.pc task).InCall ticks timeout)
    (hacts : ∀ a ∈ acts, ¬ a.Ends task) (hrun : run (semStep prio) acts s = some s') :
    (s'.pc task).InCall ticks timeout :=
  run_inv_events (P := fun s => (s.pc task).InCall ticks timeout)
    (fun _ _ _ hs ha hstep => Sem.InCall.step hs ha hstep) h hacts hrun

/-- From the call of `sys_arch_sem_wait` on. -/
theorem Sem.InCall.wait {now : UInt32} {acts : List (SemAct τ)}
    (hacts : ∀ a ∈ acts, ¬ a.Ends task)
    (hrun : Lib.EventRun.run (semStep prio) (.wait task timeout now :: acts) s = some s') :
    (s'.pc task).InCall (ucosTimeout timeout) now := by
  obtain ⟨s1, h1, h2⟩ := run_cons_some hrun
  refine Sem.InCall.run ?_ hacts h2
  cases semStep_next h1 with
  | wait hpc =>
    rw [Sem.goto_self]
    exact ⟨rfl, rfl⟩

/-- What a wait that gets the semaphore returns. -/
theorem Sem.wait_returns {t0 t1 : UInt32} {before acts : List (SemAct τ)}
    (hacts : ∀ a ∈ acts, ¬ a.Ends task)
    (hrun : run (semStep prio)
      (before ++ (.wait task timeout t0 :: acts ++ [.resume task t1])) s = some s') :
    s'.log.getLast? = some ⟨task, true, fetchElapsed t0 t1⟩ := by
  obtain ⟨s0, -, h0⟩ := run_append_some hrun
  obtain ⟨s1, h1, h3⟩ := run_snoc_some h0
  have hin := Sem.InCall.wait hacts h1
  cases semStep_next h3 with
  | @resume _ tm _ hpc =>
    rw [hpc] at hin
    rw [show tm = t0 from hin]
    exact List.getLast?_concat

end Sem

/-! ## What it returns, and what it gives to the kernel -/

/-- The milliseconds from `t0` to `t1` of the tick counter, and one more, when they fit. -/
def ExactWait (t0 t1 res : UInt32) : Prop :=
  5 * (t1 - t0).toNat + 1 < 2 ^ 32 → res.toNat = 5 * (t1 - t0).toNat + 1

/-- The counter did not wrap, and the product does not. -/
def Measurable (t0 t1 : UInt32) : Prop := t0 ≤ t1 ∧ (t1 - t0).toNat * 1000 < 2 ^ 32

theorem exactWait_iff (t0 t1 : UInt32) : ExactWait t0 t1 (fetchElapsed t0 t1) ↔
    (5 * (t1 - t0).toNat + 1 < 2 ^ 32 → Measurable t0 t1) := by
  have hd := UInt32.toNat_sub t1 t0
  have h0 := t0.toNat_lt
  have h1 := t1.toNat_lt
  have hscale : ∀ d : UInt32, (d * 1000 / osCfgTickRateHz + 1).toNat =
      d.toNat * 1000 % 2 ^ 32 / 200 + 1 := by
    intro d
    have hlt := (d * 1000).toNat_lt
    simp only [osCfgTickRateHz, UInt32.toNat_add, UInt32.toNat_div, UInt32.toNat_mul,
      UInt32.reduceToNat] at hlt ⊢
    omega
  rw [ExactWait, Measurable, UInt32.le_iff_toNat_le]
  unfold fetchElapsed
  by_cases hle : t1 ≥ t0
  · rw [if_pos hle, hscale]
    rw [ge_iff_le, UInt32.le_iff_toNat_le] at hle
    omega
  · have hwrap : (0xffffffff - t0 + t1 : UInt32).toNat + 1 = (t1 - t0).toNat := by
      rw [ge_iff_le, UInt32.le_iff_toNat_le] at hle
      simp only [UInt32.toNat_add, UInt32.toNat_sub, UInt32.reduceToNat]
      omega
    rw [if_neg hle, hscale]
    rw [ge_iff_le, UInt32.le_iff_toNat_le] at hle
    omega

/-- The time limit in ticks, and at least one. -/
def ExactBudget (timeout ticks : UInt32) : Prop :=
  ticks.toNat = max 1 (timeout.toNat * 200 / 1000)

theorem ucosTimeout_eq {timeout : UInt32} (h : timeout ≠ 0) :
    (ucosTimeout timeout).toNat = max 1 (timeout.toNat * 200 % 2 ^ 32 / 1000) := by
  have hticks : (timeout * osCfgTickRateHz / 1000).toNat =
      timeout.toNat * 200 % 2 ^ 32 / 1000 := by
    simp only [osCfgTickRateHz, UInt32.toNat_div, UInt32.toNat_mul, UInt32.reduceToNat]
  unfold ucosTimeout
  rw [if_pos h]
  simp only [UInt32.lt_iff_toNat_lt, hticks, UInt32.reduceToNat]
  split
  · simp only [UInt32.reduceToNat]
    omega
  · rw [hticks]
    omega

theorem exactBudget_iff {timeout : UInt32} (h : timeout ≠ 0) :
    ExactBudget timeout (ucosTimeout timeout) ↔ timeout.toNat * 200 < 2 ^ 32 := by
  have hwraps := Nat.div_add_mod (timeout.toNat * 200) (2 ^ 32)
  rw [ExactBudget, ucosTimeout_eq h]
  rcases Nat.eq_zero_or_pos (timeout.toNat * 200 / 2 ^ 32) with hnone | hsome <;> omega

/-- A task that finds its own message. -/
theorem Mbox.run_own (prio : τ → Nat) (task : τ) (timeout t0 t1 : UInt32) :
    (run (mboxStep prio)
      ([.trypost task 1] ++ (.fetch task true timeout t0 :: [.pend task] ++ [.resume task t1]))
      (.init τ 1 1)).map Mbox.log =
    some [.tryposted task 1 .ok,
      .fetched ⟨task, true, some 1, fetchElapsed t0 t1, some (decode 1)⟩] := by
  simp [run, mboxStep, Mbox.init, Mbox.osPost, osQPost, osMsgQPut, osQPend, Mbox.startFetch,
    Mbox.goto, Mbox.event, encode, null]

/-- A fetch that has just begun. -/
theorem Mbox.run_fetch (prio : τ → Nat) (task : τ) (timeout now : UInt32) :
    run (mboxStep prio) [.fetch task true timeout now] (.init τ 1 1) =
    some ((Mbox.init τ 1 1).goto task (.fetching true (ucosTimeout timeout) now)) := by
  simp [run, mboxStep, Mbox.init, Mbox.startFetch]

/-- Every fetch of the task that begins at `t0` and gets its message at `t1` returns
such a time, whatever the tasks do before it and meanwhile. -/
def FetchResults (prio : τ → Nat) (task : τ) (t0 t1 : UInt32) (P : UInt32 → Prop) : Prop :=
  ∀ (size nbrFree : Nat) (before acts : List (MboxAct τ)) (want : Bool) (timeout : UInt32)
    (s : Mbox τ), (∀ a ∈ acts, ¬ a.Ends task) →
    run (mboxStep prio) (before ++ (.fetch task want timeout t0 :: acts ++ [.resume task t1]))
      (.init τ size nbrFree) = some s →
    ∃ f, s.log.getLast? = some (.fetched f) ∧ f.task = task ∧ f.temp ≠ none ∧ P f.res

/-- Every wait of the task that begins at `t0` and gets the semaphore at `t1` does. -/
def WaitResults (prio : τ → Nat) (task : τ) (t0 t1 : UInt32) (P : UInt32 → Prop) : Prop :=
  ∀ (count : UInt8) (before acts : List (SemAct τ)) (timeout : UInt32) (s : Sem τ),
    (∀ a ∈ acts, ¬ a.Ends task) →
    run (semStep prio) (before ++ (.wait task timeout t0 :: acts ++ [.resume task t1]))
      (.init τ count) = some s →
    ∃ w, s.log.getLast? = some w ∧ w.task = task ∧ w.got = true ∧ P w.res

/-- Every fetch of the task with the time limit `timeout` gives the kernel such ticks. -/
def FetchTicks (prio : τ → Nat) (task : τ) (timeout : UInt32) (P : UInt32 → Prop) : Prop :=
  ∀ (size nbrFree : Nat) (before acts : List (MboxAct τ)) (want : Bool) (now ticks : UInt32)
    (s : Mbox τ), (∀ a ∈ acts, ¬ a.Ends task) →
    run (mboxStep prio) (before ++ .fetch task want timeout now :: acts)
      (.init τ size nbrFree) = some s →
    (s.pc task).budget = some ticks → P ticks

def WaitTicks (prio : τ → Nat) (task : τ) (timeout : UInt32) (P : UInt32 → Prop) : Prop :=
  ∀ (count : UInt8) (before acts : List (SemAct τ)) (now ticks : UInt32) (s : Sem τ),
    (∀ a ∈ acts, ¬ a.Ends task) →
    run (semStep prio) (before ++ .wait task timeout now :: acts) (.init τ count) = some s →
    (s.pc task).budget = some ticks → P ticks

theorem fetchResults_iff (prio : τ → Nat) (task : τ) (t0 t1 : UInt32) (P : UInt32 → Prop) :
    FetchResults prio task t0 t1 P ↔ P (fetchElapsed t0 t1) := by
  constructor
  · intro h
    obtain ⟨s, hrun, hlog⟩ := Option.map_eq_some_iff.mp (Mbox.run_own prio task 0 t0 t1)
    obtain ⟨f, hlast, -, -, hres⟩ := h 1 1 [.trypost task 1] [.pend task] true 0 s
      (by simp [MboxAct.Ends]) hrun
    rw [hlog] at hlast
    cases hlast
    exact hres
  · intro h size nbrFree before acts want timeout s hacts hrun
    obtain ⟨f, hlast, htask, htemp, hres⟩ := Mbox.fetch_returns hacts hrun
    rw [← hres] at h
    exact ⟨f, hlast, htask, htemp, h⟩

theorem WaitResults.of {prio : τ → Nat} {task : τ} {t0 t1 : UInt32} {P : UInt32 → Prop}
    (h : P (fetchElapsed t0 t1)) : WaitResults prio task t0 t1 P := by
  intro count before acts timeout s hacts hrun
  exact ⟨_, Sem.wait_returns hacts hrun, rfl, rfl, h⟩

theorem fetchTicks_iff (prio : τ → Nat) (task : τ) (timeout : UInt32) (P : UInt32 → Prop) :
    FetchTicks prio task timeout P ↔ P (ucosTimeout timeout) := by
  constructor
  · intro h
    refine h 1 1 [] [] true 0 _ _ (by simp) (Mbox.run_fetch prio task timeout 0) ?_
    rw [Mbox.goto_self]
    rfl
  · intro h size nbrFree before acts want now ticks s hacts hrun hticks
    obtain ⟨s0, -, h0⟩ := run_append_some hrun
    rwa [(Mbox.InCall.fetch hacts h0).budget hticks]

theorem WaitTicks.of {prio : τ → Nat} {task : τ} {timeout : UInt32} {P : UInt32 → Prop}
    (h : P (ucosTimeout timeout)) : WaitTicks prio task timeout P := by
  intro count before acts now ticks s hacts hrun hticks
  obtain ⟨s0, -, h0⟩ := run_append_some hrun
  rwa [(Sem.InCall.wait hacts h0).budget hticks]

/-- **Elapsed time.** A fetch and a wait that succeed return the milliseconds between
the two readings exactly when the counter does not wrap between them and their ticks,
times 1000, fit in 32 bits. -/
theorem wait_exact_iff (prio : τ → Nat) (task : τ) (t0 t1 : UInt32) :
    FetchResults prio task t0 t1 (ExactWait t0 t1) ∧
      WaitResults prio task t0 t1 (ExactWait t0 t1) ↔
      (5 * (t1 - t0).toNat + 1 < 2 ^ 32 → Measurable t0 t1) := by
  rw [← exactWait_iff, fetchResults_iff]
  constructor
  · intro h
    exact h.1
  · intro h
    exact ⟨h, .of h⟩

/-- One tick over the wrap is returned as no tick at all, in place of 6 ms. -/
theorem fetch_over_wrap :
    (run (mboxStep fun _ : Unit => 0)
      [.trypost () 1, .fetch () true 0 0xffffffff, .pend (), .resume () 0]
      (.init Unit 1 1)).map Mbox.log =
    some [.tryposted () 1 .ok, .fetched ⟨(), true, some 1, 1, some 1⟩] ∧
    ¬ ExactWait 0xffffffff 0 1 := by
  refine ⟨rfl, ?_⟩
  unfold ExactWait
  decide

/-- **Time limit.** The ticks a fetch and a wait give to the kernel are those of the
time limit exactly when the limit times 200 fits in 32 bits; they are never 0, and among
those limits a longer one gives no fewer. -/
theorem budget_exact_iff (prio : τ → Nat) (task : τ) {timeout : UInt32} (h : timeout ≠ 0) :
    (FetchTicks prio task timeout (ExactBudget timeout) ∧
      WaitTicks prio task timeout (ExactBudget timeout) ↔ timeout.toNat * 200 < 2 ^ 32) ∧
    (FetchTicks prio task timeout (· ≠ 0) ∧ WaitTicks prio task timeout (· ≠ 0)) ∧
    ∀ longer : UInt32, timeout ≤ longer → longer.toNat * 200 < 2 ^ 32 →
      FetchTicks prio task timeout (fun k => FetchTicks prio task longer (k ≤ ·)) ∧
      WaitTicks prio task timeout (fun k => WaitTicks prio task longer (k ≤ ·)) := by
  refine ⟨?_, ?_, ?_⟩
  · rw [← exactBudget_iff h, fetchTicks_iff]
    constructor
    · intro hboth
      exact hboth.1
    · intro hexact
      exact ⟨hexact, .of hexact⟩
  · have hne : ucosTimeout timeout ≠ 0 := by
      rw [← UInt32.toNat_inj.ne, ucosTimeout_eq h, UInt32.toNat_zero]
      omega
    exact ⟨(fetchTicks_iff ..).mpr hne, .of hne⟩
  · intro longer hle hfit
    have hle' : ucosTimeout timeout ≤ ucosTimeout longer := by
      have hlonger : longer ≠ 0 := by
        rintro rfl
        exact h (UInt32.le_zero_iff.mp hle)
      rw [UInt32.le_iff_toNat_le] at hle ⊢
      have hshort := (exactBudget_iff h).mpr (by omega)
      have hlong := (exactBudget_iff hlonger).mpr hfit
      unfold ExactBudget at hshort hlong
      omega
    exact ⟨(fetchTicks_iff ..).mpr ((fetchTicks_iff ..).mpr hle'), .of (.of hle')⟩

theorem budget_exact_iff_second :
    (FetchTicks (fun _ : Unit => 0) () 1000 (ExactBudget 1000) ∧
      WaitTicks (fun _ : Unit => 0) () 1000 (ExactBudget 1000)) ∧
    FetchTicks (fun _ : Unit => 0) () 1000
      (fun k => FetchTicks (fun _ : Unit => 0) () 2000 (k ≤ ·)) := by
  have hsecond := budget_exact_iff (fun _ : Unit => 0) () (show (1000 : UInt32) ≠ 0 by decide)
  exact ⟨hsecond.1.mpr (by decide), (hsecond.2.2 2000 (by decide) (by decide)).1⟩

/-- A limit of six hours is taken for a limit of one tick. -/
theorem fetch_limit_wraps :
    (run (mboxStep fun _ : Unit => 0) [.fetch () true 21474837 0] (.init Unit 1 1)).map
      (fun s => (s.pc ()).budget) = some (some 1) ∧
    ¬ ExactBudget 21474837 1 := by
  refine ⟨rfl, ?_⟩
  unfold ExactBudget
  decide

end Generalplate.Arch
