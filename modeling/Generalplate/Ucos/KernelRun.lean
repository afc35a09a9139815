import Generalplate.Ucos.Sched

/-! # Runs of the kernel

Tasks, interrupts and ticks call the kernel in any order. Every run from `OSInit` on follows no
null pointer, the scheduler picks a task of the highest priority, a delay and a timeout end with
their last tick, and a task that is suspended stays so for as many resumes as it takes. -/
namespace Generalplate.Ucos
open Lib.EventRun

section Runs
variable {τ κ : Type*} [DecidableEq τ] [DecidableEq κ]

def kernelStep (e : KernelEvent τ κ) (s : Kernel τ κ) : Option (Kernel τ κ) :=
  (e.call s).map Prod.snd

/-- What `OSInit` sets, and the TCBs before they are created. -/
def Kernel.boot (sem : κ → UInt32) (idle : τ) : Kernel τ κ where
  sem := sem
  taskDbgList := []
  tcbCur := none
  prioCur := 0
  schedLockNestingCtr := 0
  intNestingCtr := 0
  running := false
  roundRobinEn := false
  roundRobinDflt := osCfgTickRateHz / 10
  idleTask := idle
  ready := .init
  wheel := .init
  pends := .init
  tcb _ := ⟨.rdy, 0, 0, .nothing, .ok, none, 0, 0, 0⟩

/-- `OSInit` up to `OS_IdleTaskInit`, with the semaphores of the application created; the tasks
behind it are created like those of the application. -/
def osInit (sem : κ → UInt32) (idle : τ) : Option (Answer × Kernel τ κ) :=
  osTaskCreate idle (osCfgPrioMax - 1) 0 (.boot sem idle)

/-- The kernel is consistent, and no task waits for a tick that has been. -/
def Kernel.Good (s : Kernel τ κ) : Prop := ∃ v, s.Inv v ∧ s.Ahead v

/-- The states of the runs. -/
def Kernel.Reached (s : Kernel τ κ) : Prop :=
  ∃ sem idle s0 es, osInit sem idle = some (.err .none, s0) ∧
    Throughout kernelStep KernelEvent.Legal es s0 ∧ run kernelStep es s0 = some s

variable {e : KernelEvent τ κ} {es : List (KernelEvent τ κ)} {s s' s1 : Kernel τ κ}
  {v v' : View τ κ} {p : τ} {k : κ}

instance (s : Kernel τ κ) : Decidable s.Calls :=
  decidable_of_iff (∃ p ∈ s.tcbCur, p ∈ s.taskDbgList ∧ (s.tcb p).taskState = .rdy ∧
    p ≠ s.idleTask) Iff.rfl

instance (s : Kernel τ κ) : (p : Option τ) → Decidable (s.Names p)
  | some p => inferInstanceAs (Decidable (p ∈ s.taskDbgList))
  | none => inferInstanceAs (Decidable s.Calls)

instance : (e : KernelEvent τ κ) → (s : Kernel τ κ) → Decidable (e.Legal s)
  | .timeDly dly opt, s => inferInstanceAs (Decidable (s.intNestingCtr = 0 → s.Calls ∧
      (opt = .isMatch → ∀ p ∈ s.tcbCur,
        tickMatch s.wheel.tickCtr (s.wheel.tickCtrPrev p) dly opt ≠ none)))
  | .timeDlyResume p, s | .taskResume p, s | .taskSemPendAbort p, s =>
    inferInstanceAs (Decidable (p ∈ s.taskDbgList))
  | .taskSemPendAbortEnd p, s =>
    inferInstanceAs (Decidable (p ∈ s.taskDbgList ∧ (s.tcb p).pendOn ≠ .sem))
  | .taskCreate p _ _, s =>
    inferInstanceAs (Decidable (p ∉ s.taskDbgList ∧ s.taskDbgList.length + 1 < UInt16.size))
  | .taskDel p, s | .taskSuspend p, s | .taskChangePrio p _, s =>
    inferInstanceAs (Decidable (s.intNestingCtr = 0 → s.Names p))
  | .semPend _ _ _, s | .taskSemPend _ _, s =>
    inferInstanceAs (Decidable (s.intNestingCtr = 0 → s.Calls))
  | .taskSemPost p, s => inferInstanceAs (Decidable (∃ q ∈ p.or s.tcbCur, q ∈ s.taskDbgList))
  | .start, _ | .intEnter, _ | .intExit, _ | .sched, _ | .schedLock, _ | .schedUnlock, _
  | .roundRobinCfg _ _, _ | .roundRobinYield, _ | .roundRobin, _ | .tick, _
  | .semPost _ _, _ | .semPendAbort _ _ _, _ | .semSet _ _, _ => inferInstanceAs (Decidable True)

omit [DecidableEq κ] in
theorem osInit_good (sem : κ → UInt32) (idle : τ) :
    ∃ s, osInit sem idle = some (.err .none, s) ∧ s.Good := by
  have hat : ∀ q : τ, (⟨fun _ => [], fun _ => none, fun _ => []⟩ : View τ κ).At q none none none :=
    fun q => ⟨by simp, rfl, by simp⟩
  have hmid : (Kernel.boot sem idle).Mid ⟨fun _ => [], fun _ => none, fun _ => []⟩ idle none none
      none := by
    refine ⟨⟨.init, rfl, ⟨_, .init⟩, .init, fun _ => .nil, fun _ _ => rfl, .nil⟩, fun q _ => ?_,
      fun tasks hnodup hsub => ?_, fun hne => absurd rfl hne, hat idle⟩
    · exact ⟨fun hq => absurd hq List.not_mem_nil, fun _ => ⟨rfl, hat q⟩⟩
    · have hone := (List.subperm_of_subset hnodup hsub).length_le
      exact hone.trans_lt (by decide : 1 < UInt16.size)
  obtain ⟨s, hcreate, hinv, -⟩ := @osTaskCreate_spec _ _ _ _ _ _ (osCfgPrioMax - 1) 0 hmid
    (by decide : ¬ (0 : UInt8) > 0) (by decide) (fun h => h.2 rfl) List.not_mem_nil rfl
  exact ⟨s, hcreate, _, hinv, fun _ => (Option.some_ne_none _).symm⟩

theorem Kernel.Inv.step (h : s.Inv v) (hahead : s.Ahead v) (hlegal : e.Legal s)
    (hstep : kernelStep e s = some s') : ∃ v', s.Step e v s' v' := by
  obtain ⟨a, s1, v1, hcall, hs⟩ := KernelEvent.goes h hahead hlegal
  rw [kernelStep, hcall] at hstep
  cases hstep
  exact ⟨v1, hs⟩

/-- **A legal event goes on**, and the kernel stays consistent. -/
theorem Kernel.Good.step (h : s.Good) (hlegal : e.Legal s) :
    ∃ s', kernelStep e s = some s' ∧ s'.Good := by
  obtain ⟨v, hinv, hahead⟩ := h
  obtain ⟨a, s', v', hcall, hs⟩ := KernelEvent.goes hinv hahead hlegal
  exact ⟨s', by rw [kernelStep, hcall]; rfl, v', hs.inv, hs.ahead⟩

theorem Kernel.Reached.good (h : s.Reached) : s.Good := by
  obtain ⟨sem, idle, s0, es, hinit, hlegal, hrun⟩ := h
  obtain ⟨s1, hinit', hgood⟩ := osInit_good sem idle
  rw [hinit] at hinit'
  cases hinit'
  obtain ⟨s', hrun', hgood'⟩ := run_safe (fun e s hs he => hs.step he) hgood hlegal
  rw [hrun] at hrun'
  cases hrun'
  exact hgood'

/-- **No run of the kernel follows a null pointer**, and the lists say in every state what the
states of the tasks say. -/
theorem kernel_runs {sem : κ → UInt32} {idle : τ} {a : Answer}
    (hinit : osInit sem idle = some (a, s))
    (hlegal : Throughout kernelStep KernelEvent.Legal es s) :
    ∃ s', run kernelStep es s = some s' ∧ s'.Good := by
  obtain ⟨s1, hinit', hgood⟩ := osInit_good sem idle
  rw [hinit] at hinit'
  cases hinit'
  exact run_safe (fun e s hs he => hs.step he) hgood hlegal

/-- What `OSTaskSemPendAbort` does when its task has come to wait for a semaphore in between. -/
theorem Kernel.Good.stale (h : s.Good) (hp : p ∈ s.taskDbgList) (hon : (s.tcb p).pendOn = .sem)
    (hstep : kernelStep (.taskSemPendAbortEnd p) s = some s') : ¬ s'.Good := by
  obtain ⟨v, hinv, -⟩ := h
  have hok := hinv.ok hp
  obtain ⟨⟨a, s1⟩, hcall, rfl⟩ := Option.map_eq_some_iff.mp hstep
  obtain ⟨htasks, hon', hobj'⟩ :=
    osTaskSemPendAbortEnd_stale (hok.pendOn.mp (by rw [hon]; decide)) hcall
  rintro ⟨v', hinv', -⟩
  have hobj := (hinv'.ok (p := p) (by rwa [htasks])).pendObj
  rw [hon', hobj', hok.pendObj, hon] at hobj
  exact absurd (hobj.mp rfl) (by decide)

/-- Two tasks: the first pends on a semaphore, the second delays, and an interrupt posts. -/
def twoTasks : List (KernelEvent (Fin 3) Unit) :=
  [.taskCreate 1 5 0, .taskCreate 2 10 0, .start, .semPend () 0 true, .sched, .timeDly 2 .dly,
    .sched, .intEnter, .tick, .semPost () false, .intExit, .tick]

/-- A task pends with a timeout. -/
def pendRun : List (KernelEvent (Fin 3) Unit) :=
  [.taskCreate 1 5 0, .start, .semPend () 2 true, .sched, .tick]

/-- A task is suspended twice. -/
def suspendRun : List (KernelEvent (Fin 3) Unit) :=
  [.taskCreate 1 5 0, .taskCreate 2 10 0, .start, .taskSuspend (some 2), .taskSuspend (some 2),
    .taskResume 2]

/-- Two tasks of one priority pend. -/
def fairRun : List (KernelEvent (Fin 3) Unit) :=
  [.taskCreate 1 5 0, .taskCreate 2 5 0, .start, .semPend () 0 true, .sched, .semPend () 0 true,
    .sched]

/-- The kernel that they run on. -/
def twoTasksInit : Kernel (Fin 3) Unit := ((osInit (fun _ => 0) 0).get (by decide)).2

theorem kernel_runs_two : ∃ s', run kernelStep twoTasks twoTasksInit = some s' ∧ s'.Good :=
  @kernel_runs _ _ _ _ _ _ (fun _ => 0) 0 (.err .none) rfl (by decide)

def kernelAfter (es : List (KernelEvent (Fin 3) Unit)) : Kernel (Fin 3) Unit :=
  (run kernelStep es twoTasksInit).getD twoTasksInit

/-! ## Scheduling -/

/-- The running task is the first of the highest priority that is ready. -/
structure Kernel.RunsHighest (s : Kernel τ κ) (p : τ) : Prop where
  cur : s.tcbCur = some p
  task : p ∈ s.taskDbgList
  rdy : (s.tcb p).taskState = .rdy
  first : (s.ready.rdyList (s.tcb p).prio).headPtr = some p
  highest : ∀ q ∈ s.taskDbgList, (s.tcb q).taskState = .rdy → (s.tcb p).prio ≤ (s.tcb q).prio

omit [DecidableEq κ] in
theorem Kernel.Inv.ctxSw_highest (h : s.Inv v) :
    ∃ s' p, s.ctxSw = some s' ∧ s'.RunsHighest p := by
  obtain ⟨prio, p, hhigh, hhead, hleast⟩ := h.highRdy
  obtain ⟨hp, hrdy, rfl⟩ := h.mem_rdy.mp (List.mem_of_mem_head? hhead)
  have hfirst : (s.ready.rdyList (s.tcb p).prio).headPtr = some p := by
    rw [(h.ready.ends _).head, hhead]
  rw [Kernel.ctxSw, hhigh, Option.map_some]
  dsimp only
  by_cases hcur : s.tcbCur = some p
  · rw [if_pos hcur]
    exact ⟨s, p, rfl, hcur, hp, hrdy, hfirst, hleast⟩
  · rw [if_neg hcur]
    exact ⟨_, p, rfl, rfl, hp, hrdy, hfirst, hleast⟩

/-- **The scheduler**, at the end of a call and of the last interrupt, in any state of any run. -/
theorem kernel_highest (h : s.Reached) (hlock : s.schedLockNestingCtr = 0)
    (he : e = .sched ∧ s.intNestingCtr = 0 ∨
      e = .intExit ∧ s.running = true ∧ s.intNestingCtr = 1) :
    ∃ s' p, kernelStep e s = some s' ∧ s'.RunsHighest p := by
  obtain ⟨v, hinv, hahead⟩ := h.good
  have hzero : ¬ (0 : UInt8) > 0 := by decide
  rcases he with ⟨rfl, hint⟩ | ⟨rfl, hrun, hint⟩
  · obtain ⟨s', p, hsw, hhigh⟩ := hinv.ctxSw_highest
    refine ⟨s', p, ?_, hhigh⟩
    rw [kernelStep, KernelEvent.call, osSched, hint, hlock, if_neg hzero, if_neg hzero, hsw]
    rfl
  · have hleft : s.Step .intExit v { s with intNestingCtr := s.intNestingCtr - 1 } v :=
      .of_globals hinv hahead rfl hinv.sem (fun _ _ => rfl) rfl rfl
    obtain ⟨s', p, hsw, hhigh⟩ := hleft.inv.ctxSw_highest
    refine ⟨s', p, ?_, hhigh⟩
    rw [kernelStep, KernelEvent.call, osIntExit, if_neg (by simp [hrun, hint])]
    dsimp only
    rw [if_neg (by simp [hint, hlock]), hsw]
    rfl

theorem kernel_highest_two :
    ∃ s' p, kernelStep .intExit (kernelAfter (twoTasks.take 10)) = some s' ∧
      s'.RunsHighest p :=
  kernel_highest ⟨fun _ => 0, 0, twoTasksInit, twoTasks.take 10, rfl, by decide, rfl⟩ (by decide)
    (Or.inr ⟨rfl, by decide, by decide⟩)

end Runs

end Generalplate.Ucos
