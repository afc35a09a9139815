import Generalplate.Ucos.KernelRun

/-! # Delays, timeouts and suspensions

What the other tasks, the interrupts and the ticks do in between does not change when a task goes
on: a delay ends with its last tick, a timeout too, and a suspension after as many resumes as it
takes. -/
namespace Generalplate.Ucos
open Lib.EventRun

section Ticks
variable {τ κ : Type*} [DecidableEq τ] [DecidableEq κ] {e : KernelEvent τ κ}
  {es : List (KernelEvent τ κ)} {s s' s1 : Kernel τ κ} {v v' : View τ κ} {p : τ}

/-- The ticks of a run. -/
def ticksOf (es : List (KernelEvent τ κ)) : Nat := (es.map KernelEvent.ticks).sum

omit [DecidableEq τ] [DecidableEq κ] in
@[simp] theorem ticksOf_cons : ticksOf (e :: es) = e.ticks + ticksOf es := List.sum_cons

omit [DecidableEq τ] [DecidableEq κ] in
theorem KernelEvent.ticks_cases (e : KernelEvent τ κ) : e.ticks = 0 ∨ e = .tick ∧ e.ticks = 1 := by
  cases e <;> simp [KernelEvent.ticks]

/-- The task waits for a tick, which is `left` ticks away. -/
structure Kernel.DueIn (s : Kernel τ κ) (v : View τ κ) (p : τ) (pends : Bool) (left : Nat) :
    Prop where
  inv : s.Inv v
  ahead : s.Ahead v
  task : p ∈ s.taskDbgList
  due : ∃ tick, v.due p = some tick ∧ (tick - s.wheel.tickCtr).toNat = left
  pends : (s.tcb p).taskState.pends = pends

/-- A counter comes one closer to a tick that it has not reached, over its overflow too. -/
theorem ticks_left {tick ctr : UInt32} (h : tick ≠ ctr) :
    (tick - (ctr + 1)).toNat + 1 = (tick - ctr).toNat := by
  have hne : tick.toNat ≠ ctr.toNat := fun heq => h (UInt32.toNat_inj.mp heq)
  have htick := tick.toNat_lt
  have hctr := ctr.toNat_lt
  rw [UInt32.toNat_sub, UInt32.toNat_sub, UInt32.toNat_add]
  simp only [UInt32.reduceToNat]
  omega

omit [DecidableEq τ] [DecidableEq κ] in
theorem Kernel.DueIn.left_pos {b : Bool} {left : Nat} (h : s.DueIn v p b left) : 0 < left := by
  obtain ⟨tick, hdue, rfl⟩ := h.due
  have hne : tick ≠ s.wheel.tickCtr := fun heq => h.ahead p (heq ▸ hdue)
  rw [← ticks_left hne]
  exact Nat.succ_pos _

omit [DecidableEq τ] [DecidableEq κ] in
theorem Kernel.DueIn.timed {b : Bool} {left : Nat} (h : s.DueIn v p b left) :
    (s.tcb p).taskState.timed = true := by
  obtain ⟨tick, hdue, -⟩ := h.due
  rw [← (h.inv.mid h.task).2, hdue]
  rfl

omit [DecidableEq τ] [DecidableEq κ] in
/-- **A task that waits for a tick**: it waits on, its last tick comes, its wait is ended, or its
delay is. -/
theorem Kernel.DueIn.step {b : Bool} {left : Nat} (h : s.DueIn v p b left)
    (hstep : s.Step e v s' v') (hp : p ∈ s'.taskDbgList) :
    (∃ left', s'.DueIn v' p b left' ∧ left' + e.ticks = left) ∨
      (e = .tick ∧ left = 1 ∧ s'.tcb p = (s.tcb p).expire) ∨
      (b = true ∧ ∃ status, e.Ends s p status ∧ s'.tcb p = (s.tcb p).pendEnd status) ∨
      (b = false ∧ e = .timeDlyResume p) := by
  obtain ⟨tick, hdue, hleft⟩ := h.due
  have hne : tick ≠ s.wheel.tickCtr := fun heq => h.ahead p (heq ▸ hdue)
  have htimed := h.timed
  have hwaits : v'.due p = some tick → (s'.tcb p).taskState.pends = (s.tcb p).taskState.pends →
      ∃ left', s'.DueIn v' p b left' ∧ left' + e.ticks = left := by
    intro hdue' hpends
    refine ⟨_, ⟨hstep.inv, hstep.ahead, hp, ⟨tick, hdue', rfl⟩, hpends.trans h.pends⟩, ?_⟩
    rw [hstep.tickCtr, ← hleft]
    obtain hticks | ⟨-, hticks⟩ := e.ticks_cases
    · rw [hticks, Nat.add_zero]
      exact congrArg (fun ctr => (tick - ctr).toNat) (UInt32.add_zero _)
    · rw [hticks]
      exact ticks_left hne
  have hmove := hstep.moves p h.task hp
  rw [hdue] at hmove
  generalize htcb : s'.tcb p = tcb at hmove
  generalize hdue' : v'.due p = due at hmove
  cases hmove with
  | stays => exact Or.inl (hwaits hdue' (by rw [htcb]))
  | slice | signal | prio => exact Or.inl (hwaits hdue' (by rw [htcb]))
  | delays _ _ _ _ _ _ hrdy =>
    rw [hrdy] at htimed
    cases htimed
  | pends _ _ _ _ hrdy =>
    rw [hrdy] at htimed
    cases htimed
  | wakes status hpends hends =>
    exact Or.inr (Or.inr (Or.inl ⟨h.pends ▸ hpends, status, hends, rfl⟩))
  | expires he hnext =>
    refine Or.inr (Or.inl ⟨he, ?_, rfl⟩)
    rw [← hleft, Option.some.inj hnext, UInt32.add_comm, UInt32.add_sub_cancel]
    rfl
  | undelays he hpends => exact Or.inr (Or.inr (Or.inr ⟨h.pends ▸ hpends, he⟩))
  | suspends => exact Or.inl (hwaits hdue' (by rw [htcb]; simp [Tcb.suspend]))
  | resumes =>
    refine Or.inl (hwaits hdue' ?_)
    rw [htcb]
    simp only [Tcb.resume]
    split <;> simp

omit [DecidableEq τ] [DecidableEq κ] in
/-- A task that is not ready is deleted by its name only. -/
theorem Kernel.Step.keeps (hstep : s.Step e v s' v') (hp : p ∈ s.taskDbgList)
    (hrdy : (s.tcb p).taskState ≠ .rdy) (he : e ≠ .taskDel (some p)) : p ∈ s'.taskDbgList := by
  by_contra hnot
  obtain ⟨q, rfl, htarget⟩ := hstep.deleted p hp hnot
  cases q with
  | none => exact hrdy (htarget.self rfl)
  | some q => exact he (by rw [Option.some.inj htarget.eq])

/-! ## Delays -/

omit [DecidableEq τ] [DecidableEq κ] in
theorem Kernel.DueIn.not_rdy {b : Bool} {left : Nat} (h : s.DueIn v p b left) :
    (s.tcb p).taskState ≠ .rdy := by
  intro hrdy
  have htimed := h.timed
  rw [hrdy] at htimed
  cases htimed

/-- **A delay goes on** until its last tick. -/
theorem Kernel.DueIn.delays {left : Nat} (h : s.DueIn v p false left)
    (hes : Throughout kernelStep KernelEvent.Legal es s)
    (hno : ∀ e ∈ es, e ≠ .timeDlyResume p ∧ e ≠ .taskDel (some p)) (hlt : ticksOf es < left)
    (hrun : run kernelStep es s = some s') :
    ∃ v' left', s'.DueIn v' p false left' ∧ left' + ticksOf es = left := by
  induction es generalizing s v left with
  | nil =>
    cases hrun
    exact ⟨v, left, h, Nat.add_zero _⟩
  | cons e es ih =>
    obtain ⟨s1, h1, h2⟩ := run_cons_some hrun
    obtain ⟨⟨hresume, hdel⟩, hno⟩ := List.forall_mem_cons.mp hno
    obtain ⟨v1, hstep⟩ := h.inv.step h.ahead hes.1 h1
    rw [ticksOf_cons] at hlt ⊢
    obtain ⟨left1, hdue1, hleft1⟩ | ⟨rfl, hlast, -⟩ | ⟨hpends, -⟩ | ⟨-, he⟩ :=
      h.step hstep (hstep.keeps h.task h.not_rdy hdel)
    · obtain ⟨v', left', hdue', hleft'⟩ := ih hdue1 (hes.2 s1 h1) hno (by omega) h2
      exact ⟨v', left', hdue', by omega⟩
    · rw [KernelEvent.ticks] at hlt
      omega
    · cases hpends
    · exact absurd he hresume

/-- **The last tick** of a delay or of a timeout. -/
theorem Kernel.DueIn.last {b : Bool} (h : s.DueIn v p b 1) :
    ∃ s', kernelStep .tick s = some s' ∧ p ∈ s'.taskDbgList ∧ s'.tcb p = (s.tcb p).expire := by
  obtain ⟨s', h1, -⟩ := Kernel.Good.step (e := .tick) ⟨v, h.inv, h.ahead⟩ trivial
  obtain ⟨v', hstep⟩ := Kernel.Inv.step (e := .tick) h.inv h.ahead trivial h1
  have hp := hstep.keeps h.task h.not_rdy nofun
  refine ⟨s', h1, hp, ?_⟩
  obtain ⟨left', hdue', hleft'⟩ | ⟨-, -, hexpire⟩ | ⟨-, _, hends, -⟩ | ⟨-, he⟩ := h.step hstep hp
  · have hpos := hdue'.left_pos
    rw [KernelEvent.ticks] at hleft'
    omega
  · exact hexpire
  · exact hends.elim
  · cases he

omit [DecidableEq τ] [DecidableEq κ] in
theorem Kernel.DueIn.delayed {left : Nat} (h : s.DueIn v p false left) :
    (s.tcb p).taskState = .dly ∨ (s.tcb p).taskState = .dlySuspended := by
  have htimed := h.timed
  have hpends := h.pends
  cases hstate : (s.tcb p).taskState <;> simp_all [TaskState.timed, TaskState.pends]

/-- **A delay** that begins in any state of any run ends with its last tick, and not before:
whatever the others do, unless a call resumes or deletes the task. -/
theorem osTimeDly_ends {dly tick prev : UInt32} {opt : TimeOpt} (h : s.Reached)
    (hlegal : (KernelEvent.timeDly dly opt).Legal s) (hcur : s.tcbCur = some p)
    (htick : tickMatch s.wheel.tickCtr (s.wheel.tickCtrPrev p) dly opt = some (tick, prev))
    (hcall : osTimeDly dly opt s = some (.err .none, s1))
    (hes : Throughout kernelStep KernelEvent.Legal es s1)
    (hno : ∀ e ∈ es, e ≠ .timeDlyResume p ∧ e ≠ .taskDel (some p))
    (hrun : run kernelStep es s1 = some s') :
    (ticksOf es < (tick - s.wheel.tickCtr).toNat →
      (s'.tcb p).taskState = .dly ∨ (s'.tcb p).taskState = .dlySuspended) ∧
    (ticksOf es + 1 = (tick - s.wheel.tickCtr).toNat →
      ∃ s2, kernelStep .tick s' = some s2 ∧ p ∈ s2.taskDbgList ∧ (s2.tcb p).taskState =
        if (s'.tcb p).taskState = .dlySuspended then .suspended else .rdy) := by
  obtain ⟨v, hinv, hahead⟩ := h.good
  have hint : ¬ s.intNestingCtr > 0 := by
    intro hint
    rw [osTimeDly, if_pos hint] at hcall
    cases hcall
  have hlock : ¬ s.schedLockNestingCtr > 0 := by
    intro hlock
    rw [osTimeDly, if_neg hint, if_pos hlock] at hcall
    cases hcall
  have hzero : ¬ (opt ≠ .isMatch ∧ dly = 0) := by
    intro hzero
    rw [osTimeDly, if_neg hint, if_neg hlock, if_pos hzero] at hcall
    cases hcall
  obtain ⟨hp, hrdy, hidle⟩ := (hlegal (not_pos hint)).1.running hcur
  obtain ⟨s2, v2, hcall', hstep, hstate, hdue⟩ :=
    osTimeDly_spec hinv hahead hint hlock hzero hcur hp hrdy hidle htick
  rw [hcall] at hcall'
  cases hcall'
  have hp1 : p ∈ s1.taskDbgList := by
    by_contra hnot
    obtain ⟨q, he, -⟩ := hstep.deleted p hp hnot
    cases he
  have h1 : s1.DueIn v2 p false (tick - s.wheel.tickCtr).toNat := by
    refine ⟨hstep.inv, hstep.ahead, hp1, ⟨tick, hdue, ?_⟩, by rw [hstate]; rfl⟩
    rw [hstep.tickCtr]
    exact congrArg (fun ctr => (tick - ctr).toNat) (UInt32.add_zero _)
  constructor
  · intro hlt
    obtain ⟨v', left', hdue', -⟩ := h1.delays hes hno hlt hrun
    exact hdue'.delayed
  · intro hlast
    obtain ⟨v', left', hdue', hleft'⟩ := h1.delays hes hno (by omega) hrun
    obtain rfl : left' = 1 := by omega
    obtain ⟨s2, h2, hp2, hexpire⟩ := hdue'.last
    refine ⟨s2, h2, hp2, ?_⟩
    rw [hexpire, Tcb.expire, hdue'.pends, if_neg Bool.false_ne_true]
    obtain hstate' | hstate' := hdue'.delayed <;> rw [hstate'] <;> rfl

theorem osTimeDly_ends_two :
    ∃ s2, kernelStep .tick (kernelAfter (twoTasks.take 11)) = some s2 ∧ 2 ∈ s2.taskDbgList ∧
      (s2.tcb 2).taskState = .rdy :=
  (@osTimeDly_ends _ _ _ _ ((twoTasks.drop 6).take 5) (kernelAfter (twoTasks.take 5))
    (kernelAfter (twoTasks.take 11)) (kernelAfter (twoTasks.take 6)) 2 2 2 0x80000000 .dly
    ⟨fun _ => 0, 0, twoTasksInit, twoTasks.take 5, rfl, by decide, rfl⟩ (by decide) rfl rfl rfl
    (by decide) (by simp [twoTasks]) rfl).2 rfl

/-! ## Timeouts -/

omit [DecidableEq τ] [DecidableEq κ] in
theorem Tcb.pendEnd_pends (t : Tcb κ) (status : PendStatus) :
    (t.pendEnd status).taskState.pends = false := by
  simp only [Tcb.pendEnd]
  split <;> rfl

/-- **A timeout runs on** while the task waits. -/
theorem Kernel.DueIn.waits {left : Nat} (h : s.DueIn v p true left)
    (hes : Throughout kernelStep
      (fun e s => e.Legal s ∧ (s.tcb p).taskState.pends = true) es s)
    (hno : ∀ e ∈ es, e ≠ .taskDel (some p)) (hpends : (s'.tcb p).taskState.pends = true)
    (hrun : run kernelStep es s = some s') :
    ∃ v' left', s'.DueIn v' p true left' ∧ left' + ticksOf es = left := by
  induction es generalizing s v left with
  | nil =>
    cases hrun
    exact ⟨v, left, h, Nat.add_zero _⟩
  | cons e es ih =>
    obtain ⟨s1, h1, h2⟩ := run_cons_some hrun
    obtain ⟨hdel, hno⟩ := List.forall_mem_cons.mp hno
    obtain ⟨v1, hstep⟩ := h.inv.step h.ahead hes.1.1 h1
    have hnow : (s1.tcb p).taskState.pends = true := (hes.2 s1 h1).start hpends h2
    rw [ticksOf_cons]
    obtain ⟨left1, hdue1, hleft1⟩ | ⟨-, -, hexpire⟩ | ⟨-, status, -, hend⟩ | ⟨hfalse, -⟩ :=
      h.step hstep (hstep.keeps h.task h.not_rdy hdel)
    · obtain ⟨v', left', hdue', hleft'⟩ := ih hdue1 (hes.2 s1 h1) hno h2
      exact ⟨v', left', hdue', by omega⟩
    · rw [hexpire, Tcb.expire, if_pos h.pends, Tcb.pendEnd_pends] at hnow
      cases hnow
    · rw [hend, Tcb.pendEnd_pends] at hnow
      cases hnow
    · cases hfalse

/-- The calls that may wait for a semaphore or a signal. -/
def KernelEvent.Pends (timeout : UInt32) : KernelEvent τ κ → Prop
  | .semPend _ t blocking | .taskSemPend t blocking => t = timeout ∧ blocking = true
  | _ => False

/-- The running task waits when the call says so. -/
theorem KernelEvent.Pends.waits {timeout : UInt32} (he : e.Pends timeout) (h : s.Inv v)
    (hahead : s.Ahead v) (hlegal : e.Legal s) (hcall : e.call s = some (.waits, s1)) :
    ∃ q on obj, s.Waits e v q on obj timeout s1 := by
  cases e with
  | semPend k t blocking =>
    obtain ⟨rfl, -⟩ := he
    rw [KernelEvent.call] at hcall
    obtain ⟨-, err, -, hcall'⟩ | ⟨-, hcall'⟩ | ⟨-, q, s2, hcall', hwaits⟩ :=
      osSemPendCall_spec h hahead hlegal
    all_goals
      rw [hcall] at hcall'
      cases hcall'
    exact ⟨q, _, _, hwaits⟩
  | taskSemPend t blocking =>
    obtain ⟨rfl, -⟩ := he
    rw [KernelEvent.call] at hcall
    obtain ⟨err, hcall'⟩ | ⟨q, -, hcall'⟩ | ⟨q, s2, hcall', hwaits⟩ :=
      osTaskSemPend_spec h hahead hlegal
    all_goals
      rw [hcall] at hcall'
      cases hcall'
    exact ⟨q, _, _, hwaits⟩
  | _ => exact he.elim

theorem Kernel.Waits.dueIn {on : PendOn} {obj : Option κ} {timeout : UInt32}
    (h : s.Waits e v p on obj timeout s') (hpos : timeout > 0) :
    s'.DueIn (v.block (s.wheel.timeoutAt timeout) obj (fun q => (s.tcb q).prio) p) p true
      timeout.toNat := by
  have hp : p ∈ s'.taskDbgList := by
    rw [h.sets.globals]
    exact h.live
  refine ⟨h.step.inv, h.step.ahead, hp, ⟨s.wheel.tickCtr + timeout, ?_, ?_⟩, ?_⟩
  · rw [View.block_due, Function.update_self]
    exact if_pos hpos
  · rw [h.sets.tickCtr, UInt32.add_comm, UInt32.add_sub_cancel]
  · rw [h.sets.self, Tcb.pend]
    dsimp only
    rw [if_pos hpos]
    rfl

/-- **A timeout** of a task that waits for a semaphore or a signal, from any state of any run: while
it waits there have been fewer ticks, and with the last one it waits no more. -/
theorem pend_timesOut {timeout : UInt32} (h : s.Reached) (he : e.Pends timeout)
    (hpos : timeout > 0) (hlegal : e.Legal s) (hcur : s.tcbCur = some p)
    (hcall : e.call s = some (.waits, s1))
    (hes : Throughout kernelStep
      (fun e s => e.Legal s ∧ (s.tcb p).taskState.pends = true) es s1)
    (hno : ∀ e ∈ es, e ≠ .taskDel (some p)) (hrun : run kernelStep es s1 = some s')
    (hpends : (s'.tcb p).taskState.pends = true) :
    ticksOf es < timeout.toNat ∧
    (ticksOf es + 1 = timeout.toNat → ∃ s2, kernelStep .tick s' = some s2 ∧
      p ∈ s2.taskDbgList ∧ s2.tcb p = (s'.tcb p).pendEnd .timeout) := by
  obtain ⟨v, hinv, hahead⟩ := h.good
  obtain ⟨q, on, obj, hwaits⟩ := he.waits hinv hahead hlegal hcall
  obtain rfl : p = q := Option.some.inj (hcur.symm.trans hwaits.cur)
  obtain ⟨v', left', hdue', hleft'⟩ := (hwaits.dueIn hpos).waits hes hno hpends hrun
  have hleft := hdue'.left_pos
  refine ⟨by omega, fun hlast => ?_⟩
  obtain rfl : left' = 1 := by omega
  obtain ⟨s2, h2, hp2, hexpire⟩ := hdue'.last
  exact ⟨s2, h2, hp2, by rw [hexpire, Tcb.expire, if_pos hdue'.pends]⟩

theorem pend_timesOut_two :
    ∃ s2, kernelStep .tick (kernelAfter pendRun) = some s2 ∧ 1 ∈ s2.taskDbgList ∧
      s2.tcb 1 = ((kernelAfter pendRun).tcb 1).pendEnd .timeout :=
  (@pend_timesOut _ _ _ _ (.semPend () 2 true) [.sched, .tick] (kernelAfter (pendRun.take 2))
    (kernelAfter pendRun) (kernelAfter (pendRun.take 3)) 1 2
    ⟨fun _ => 0, 0, twoTasksInit, pendRun.take 2, rfl, by decide, rfl⟩ ⟨rfl, rfl⟩ (by decide)
    (by decide) rfl rfl (by decide) (by simp) rfl (by decide)).2 rfl

/-! ## Suspensions -/

def KernelEvent.suspendsTask (p : τ) : KernelEvent τ κ → Bool
  | .taskSuspend q => q = some p
  | _ => false

def KernelEvent.resumesTask (p : τ) : KernelEvent τ κ → Bool
  | .taskResume q => q = p
  | _ => false

omit [DecidableEq κ] in
/-- **A suspended task**: its counter changes with the calls that suspend and resume it. -/
theorem Kernel.Step.suspended (hstep : s.Step e v s' v') (hp : p ∈ s.taskDbgList)
    (hp' : p ∈ s'.taskDbgList) (hsus : (s.tcb p).taskState.bitSuspended = true) :
    ((s'.tcb p).taskState.bitSuspended = true ∧
      ((s'.tcb p).suspendCtr = (s.tcb p).suspendCtr ∨
        e.suspendsTask p = true ∧ (s'.tcb p).suspendCtr = (s.tcb p).suspendCtr + 1)) ∨
      (e.resumesTask p = true ∧ s'.tcb p = (s.tcb p).resume) := by
  have hrdy := TaskState.ne_rdy_of_bitSuspended hsus
  have hmove := hstep.moves p hp hp'
  generalize s'.tcb p = tcb at hmove ⊢
  generalize v'.due p = due at hmove
  cases hmove with
  | stays | slice | signal | prio => exact Or.inl ⟨hsus, Or.inl rfl⟩
  | delays _ _ _ _ _ _ h => exact absurd h hrdy
  | pends _ _ _ _ h => exact absurd h hrdy
  | wakes =>
    refine Or.inl ⟨?_, Or.inl rfl⟩
    rw [Tcb.pendEnd, if_pos hsus]
    rfl
  | expires | undelays =>
    by_cases hpends : (s.tcb p).taskState.pends = true
    · rw [Tcb.expire, if_pos hpends]
      refine Or.inl ⟨?_, Or.inl rfl⟩
      rw [Tcb.pendEnd, if_pos hsus]
      rfl
    · rw [Tcb.expire, if_neg hpends, hsus]
      exact Or.inl ⟨rfl, Or.inl rfl⟩
  | suspends q he htarget =>
    have hq : q = some p := by
      cases q with
      | none => exact absurd (htarget.self rfl) hrdy
      | some q => exact htarget.eq
    refine Or.inl ⟨?_, Or.inr ⟨?_, ?_⟩⟩
    · cases hstate : (s.tcb p).taskState <;>
        simp_all [Tcb.suspend, TaskState.suspend, TaskState.bitSuspended]
    · rw [he, hq]
      exact decide_eq_true rfl
    · rw [Tcb.suspend]
      exact if_pos hsus
  | resumes he =>
    rw [he]
    exact Or.inr ⟨decide_eq_true rfl, rfl⟩

/-- **Suspensions nest.** From any state of any run, a task that is suspended stays so while there
are fewer calls that resume it than its counter says, as long as the counter does not overflow. -/
theorem osTaskSuspend_nests (h : s.Reached) (hp : p ∈ s.taskDbgList)
    (hsus : (s.tcb p).taskState.bitSuspended = true)
    (hes : Throughout kernelStep KernelEvent.Legal es s) (hno : ∀ e ∈ es, e ≠ .taskDel (some p))
    (hlt : es.countP (·.resumesTask p) < (s.tcb p).suspendCtr.toNat)
    (hle : (s.tcb p).suspendCtr.toNat + es.countP (·.suspendsTask p) < 256)
    (hrun : run kernelStep es s = some s') :
    p ∈ s'.taskDbgList ∧ (s'.tcb p).taskState.bitSuspended = true ∧
      (s.tcb p).suspendCtr.toNat ≤
        (s'.tcb p).suspendCtr.toNat + es.countP (·.resumesTask p) ∧
      (s'.tcb p).suspendCtr.toNat ≤
        (s.tcb p).suspendCtr.toNat + es.countP (·.suspendsTask p) := by
  obtain ⟨v, hinv, hahead⟩ := h.good
  clear h
  induction es generalizing s v with
  | nil =>
    cases hrun
    exact ⟨hp, hsus, Nat.le_refl _, Nat.le_refl _⟩
  | cons e es ih =>
    obtain ⟨s1, h1, h2⟩ := run_cons_some hrun
    obtain ⟨hdel, hno⟩ := List.forall_mem_cons.mp hno
    obtain ⟨v1, hstep⟩ := hinv.step hahead hes.1 h1
    have hp1 := hstep.keeps hp (TaskState.ne_rdy_of_bitSuspended hsus) hdel
    rw [List.countP_cons] at hlt hle
    rw [List.countP_cons, List.countP_cons]
    obtain ⟨hsus1, hctr | ⟨he, hctr⟩⟩ | ⟨he, hresume⟩ := hstep.suspended hp hp1 hsus
    · rw [← hctr] at hlt hle ⊢
      obtain ⟨hp', hsus', hmin, hmax⟩ :=
        ih hp1 hsus1 (hes.2 s1 h1) hno (by omega) (by omega) h2 v1 hstep.inv hstep.ahead
      exact ⟨hp', hsus', by omega, by omega⟩
    · rw [he, if_pos rfl] at hle ⊢
      have hnat : (s1.tcb p).suspendCtr.toNat = (s.tcb p).suspendCtr.toNat + 1 := by
        rw [hctr, UInt8.toNat_add]
        simp only [UInt8.reduceToNat]
        omega
      obtain ⟨hp', hsus', hmin, hmax⟩ :=
        ih hp1 hsus1 (hes.2 s1 h1) hno (by omega) (by omega) h2 v1 hstep.inv hstep.ahead
      exact ⟨hp', hsus', by omega, by omega⟩
    · rw [he, if_pos rfl] at hlt ⊢
      have hbound := (s.tcb p).suspendCtr.toNat_lt
      have hnat : ((s.tcb p).suspendCtr - 1).toNat = (s.tcb p).suspendCtr.toNat - 1 := by
        rw [UInt8.toNat_sub]
        simp only [UInt8.reduceToNat]
        omega
      have hzero : (s.tcb p).suspendCtr - 1 ≠ 0 := by
        intro hzero
        rw [hzero] at hnat
        simp only [UInt8.reduceToNat] at hnat
        omega
      rw [Tcb.resume, if_neg hzero] at hresume
      have hctr : (s1.tcb p).suspendCtr.toNat = (s.tcb p).suspendCtr.toNat - 1 := by
        rw [hresume, hnat]
      obtain ⟨hp', hsus', hmin, hmax⟩ :=
        ih hp1 (by rw [hresume]; exact hsus) (hes.2 s1 h1) hno (by omega) (by omega) h2 v1
          hstep.inv hstep.ahead
      exact ⟨hp', hsus', by omega, by omega⟩

theorem osTaskSuspend_nests_twice :
    ((kernelAfter suspendRun).tcb 2).taskState.bitSuspended = true :=
  (@osTaskSuspend_nests _ _ _ _ [.taskResume 2] (kernelAfter (suspendRun.take 5))
    (kernelAfter suspendRun) 2
    ⟨fun _ => 0, 0, twoTasksInit, suspendRun.take 5, rfl, by decide, rfl⟩ (by decide) (by decide)
    (by decide) (by simp) (by decide) (by decide) rfl).2.1

end Ticks

end Generalplate.Ucos
