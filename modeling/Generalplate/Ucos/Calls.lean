import Generalplate.Lib.EventRun
import Generalplate.Ucos.Kernel

/-! # The calls of the kernel

Every call of a task or an interrupt keeps the invariant and follows no null pointer, and
what it can do to a task is one of a few things. -/
namespace Generalplate.Ucos
open scoped List

/-- The calls, the interrupts and the ticks. -/
inductive KernelEvent (τ κ : Type*) where
  | start
  | intEnter
  | intExit
  | sched
  | schedLock
  | schedUnlock
  | roundRobinCfg (en : Bool) (dflt : UInt32)
  | roundRobinYield
  | roundRobin
  | tick
  | timeDly (dly : UInt32) (opt : TimeOpt)
  | timeDlyResume (p : τ)
  | taskCreate (p : τ) (prio : Nat) (timeQuanta : UInt32)
  | taskDel (p : Option τ)
  | taskSuspend (p : Option τ)
  | taskResume (p : τ)
  | taskChangePrio (p : Option τ) (prio : Nat)
  | semPend (k : κ) (timeout : UInt32) (blocking : Bool)
  | semPost (k : κ) (all : Bool)
  | semPendAbort (k : κ) (all noSched : Bool)
  | semSet (k : κ) (cnt : UInt32)
  | taskSemPend (timeout : UInt32) (blocking : Bool)
  | taskSemPost (p : Option τ)
  | taskSemPendAbort (p : τ)
  | taskSemPendAbortEnd (p : τ)

section Events
variable {τ κ : Type*} [DecidableEq τ] [DecidableEq κ]

def KernelEvent.call : KernelEvent τ κ → Kernel τ κ → Option (Answer × Kernel τ κ)
  | .start, s => osStart s
  | .intEnter, s => some (.err .none, osIntEnter s)
  | .intExit, s => (osIntExit s).map fun s => (.err .none, s)
  | .sched, s => (osSched s).map fun s => (.err .none, s)
  | .schedLock, s => some (osSchedLock s)
  | .schedUnlock, s => some (osSchedUnlock s)
  | .roundRobinCfg en dflt, s => some (.err .none, osSchedRoundRobinCfg en dflt s)
  | .roundRobinYield, s => osSchedRoundRobinYield s
  | .roundRobin, s => (osSchedRoundRobin s).map fun s => (.err .none, s)
  | .tick, s => (osTickListUpdate s).map fun s => (.err .none, s)
  | .timeDly dly opt, s => osTimeDly dly opt s
  | .timeDlyResume p, s => osTimeDlyResume p s
  | .taskCreate p prio timeQuanta, s => osTaskCreate p prio timeQuanta s
  | .taskDel p, s => osTaskDel p s
  | .taskSuspend p, s => osTaskSuspend p s
  | .taskResume p, s => osTaskResume p s
  | .taskChangePrio p prio, s => osTaskChangePrio p prio s
  | .semPend k timeout blocking, s => osSemPendCall k timeout blocking s
  | .semPost k all, s => osSemPostCall k all s
  | .semPendAbort k all noSched, s => osSemPendAbort k all noSched s
  | .semSet k cnt, s => osSemSet k cnt s
  | .taskSemPend timeout blocking, s => osTaskSemPend timeout blocking s
  | .taskSemPost p, s => osTaskSemPost p s
  | .taskSemPendAbort p, s => some (osTaskSemPendAbort p s, s)
  | .taskSemPendAbortEnd p, s => osTaskSemPendAbortEnd p s

/-- The running task is one that may wait: it is ready, and not the idle task. -/
def Kernel.Calls (s : Kernel τ κ) : Prop :=
  ∃ p, s.tcbCur = some p ∧ p ∈ s.taskDbgList ∧ (s.tcb p).taskState = .rdy ∧ p ≠ s.idleTask

omit [DecidableEq τ] [DecidableEq κ] in
theorem Kernel.Calls.running {s : Kernel τ κ} {p : τ} (h : s.Calls) (hcur : s.tcbCur = some p) :
    p ∈ s.taskDbgList ∧ (s.tcb p).taskState = .rdy ∧ p ≠ s.idleTask := by
  obtain ⟨q, hq, hrun⟩ := h
  rw [hcur] at hq
  cases hq
  exact hrun

/-- A task, or the running one for a null pointer. -/
def Kernel.Names (s : Kernel τ κ) : Option τ → Prop
  | some p => p ∈ s.taskDbgList
  | none => s.Calls

/-- What the callers keep to: what runs is ready, a TCB belongs to a task when it is named and to
none when it is created, no more than 65535 tasks are, and a task is not delayed until a tick that
has passed. Between the critical sections of `OSTaskSemPendAbort` its task does not come to wait
for a semaphore. -/
def KernelEvent.Legal : KernelEvent τ κ → Kernel τ κ → Prop
  | .timeDly dly opt, s => s.intNestingCtr = 0 → s.Calls ∧ (opt = .isMatch → ∀ p ∈ s.tcbCur,
      tickMatch s.wheel.tickCtr (s.wheel.tickCtrPrev p) dly opt ≠ none)
  | .timeDlyResume p, s | .taskResume p, s | .taskSemPendAbort p, s => p ∈ s.taskDbgList
  | .taskSemPendAbortEnd p, s => p ∈ s.taskDbgList ∧ (s.tcb p).pendOn ≠ .sem
  | .taskCreate p _ _, s => p ∉ s.taskDbgList ∧ s.taskDbgList.length + 1 < UInt16.size
  | .taskDel p, s | .taskSuspend p, s | .taskChangePrio p _, s => s.intNestingCtr = 0 → s.Names p
  | .semPend _ _ _, s | .taskSemPend _ _, s => s.intNestingCtr = 0 → s.Calls
  | .taskSemPost p, s => ∃ q ∈ p.or s.tcbCur, q ∈ s.taskDbgList
  | _, _ => True

end Events

/-! ## What happens to a task -/

def TaskState.suspend : TaskState → TaskState
  | .rdy => .suspended
  | .dly => .dlySuspended
  | .pend => .pendSuspended
  | .pendTimeout => .pendTimeoutSuspended
  | state => state

def TaskState.resume : TaskState → TaskState
  | .suspended => .rdy
  | .dlySuspended => .dly
  | .pendSuspended => .pend
  | .pendTimeoutSuspended => .pendTimeout
  | state => state

section Moves
variable {τ κ : Type*}

def Tcb.suspend (t : Tcb κ) : Tcb κ :=
  { t with
    taskState := t.taskState.suspend
    suspendCtr := if t.taskState.bitSuspended then t.suspendCtr + 1 else 1 }

def Tcb.resume (t : Tcb κ) : Tcb κ :=
  { t with
    taskState := if t.suspendCtr - 1 = 0 then t.taskState.resume else t.taskState
    suspendCtr := t.suspendCtr - 1 }

/-- The delay or the timeout of the task ends. -/
def Tcb.expire (t : Tcb κ) : Tcb κ :=
  if t.taskState.pends then t.pendEnd .timeout
  else { t with taskState := if t.taskState.bitSuspended then .suspended else .rdy }

/-- The task that a call is about, which is ready when it is the running one. -/
structure Kernel.Target (s : Kernel τ κ) (q : Option τ) (p : τ) : Prop where
  eq : q.or s.tcbCur = some p
  self : q = none → (s.tcb p).taskState = .rdy

/-- The waits that an event ends, and how. -/
def KernelEvent.Ends : KernelEvent τ κ → Kernel τ κ → τ → PendStatus → Prop
  | .semPost k _, s, p, status => (s.tcb p).pendObj = some k ∧ status = .ok
  | .semPendAbort k _ _, s, p, status => (s.tcb p).pendObj = some k ∧ status = .abort
  | .taskSemPost q, s, p, status =>
    q.or s.tcbCur = some p ∧ (s.tcb p).pendObj = none ∧ status = .ok
  | .taskSemPendAbortEnd q, s, p, status => q = p ∧ (s.tcb p).pendObj = none ∧ status = .abort
  | _, _, _, _ => False

/-- What an event can make of a task and of the tick it waits for. -/
inductive TaskMove (e : KernelEvent τ κ) (s : Kernel τ κ) (p : τ) (due : Option UInt32) :
    Tcb κ → Option UInt32 → Prop
  | stays : TaskMove e s p due (s.tcb p) due
  | slice (c : UInt32) : TaskMove e s p due { s.tcb p with timeQuantaCtr := c } due
  | signal (c : UInt32) : TaskMove e s p due { s.tcb p with semCtr := c } due
  | prio (q : Option τ) (prio : Nat) : e = .taskChangePrio q prio → q.or s.tcbCur = some p →
      TaskMove e s p due { s.tcb p with prio := prio } due
  | delays (dly : UInt32) (opt : TimeOpt) (tick prev : UInt32) : e = .timeDly dly opt →
      s.tcbCur = some p → (s.tcb p).taskState = .rdy →
      tickMatch s.wheel.tickCtr (s.wheel.tickCtrPrev p) dly opt = some (tick, prev) →
      TaskMove e s p due { s.tcb p with taskState := .dly } (some tick)
  | pends (on : PendOn) (obj : Option κ) (timeout : UInt32) : s.tcbCur = some p →
      (s.tcb p).taskState = .rdy →
      TaskMove e s p due ((s.tcb p).pend on obj timeout) (s.wheel.timeoutAt timeout)
  | wakes (status : PendStatus) : (s.tcb p).taskState.pends = true → e.Ends s p status →
      TaskMove e s p due ((s.tcb p).pendEnd status) none
  | expires : e = .tick → due = some (s.wheel.tickCtr + 1) →
      TaskMove e s p due (s.tcb p).expire none
  | undelays : e = .timeDlyResume p → (s.tcb p).taskState.pends = false → due.isSome →
      TaskMove e s p due (s.tcb p).expire none
  | suspends (q : Option τ) : e = .taskSuspend q → s.Target q p →
      TaskMove e s p due (s.tcb p).suspend due
  | resumes : e = .taskResume p → (s.tcb p).taskState.bitSuspended = true →
      TaskMove e s p due (s.tcb p).resume due

/-- The tasks that wait for a tick wait for one to come. -/
def Kernel.Ahead (s : Kernel τ κ) (v : View τ κ) : Prop := ∀ p, v.due p ≠ some s.wheel.tickCtr

/-- The ticks that an event brings. -/
def KernelEvent.ticks : KernelEvent τ κ → Nat
  | .tick => 1
  | _ => 0

/-- The semaphore whose counter an event writes. -/
def KernelEvent.Counts : KernelEvent τ κ → κ → Prop
  | .semPend k _ _, j | .semPost k _, j | .semSet k _, j => k = j
  | _, _ => False

/-- The task that an event may put into a pend list. -/
def KernelEvent.Comes : KernelEvent τ κ → Kernel τ κ → τ → Prop
  | .semPend _ _ _, s, p => s.tcbCur = some p ∧ (s.tcb p).taskState = .rdy
  | .taskChangePrio q _, s, p => s.Target q p
  | _, _, _ => False

/-- What an event makes of a pend list: tasks go, and one may come, behind those of its
priority. -/
def KernelEvent.Queues (e : KernelEvent τ κ) (s s' : Kernel τ κ) (tasks tasks' : List τ) : Prop :=
  ∃ left, left <+ tasks ∧ (tasks' = left ∨ ∃ p ∉ left, e.Comes s p ∧
    tasks' = left.orderedInsert (fun a b => (s'.tcb a).prio < (s'.tcb b).prio) p)

/-- What an event does. -/
structure Kernel.Step (e : KernelEvent τ κ) (s : Kernel τ κ) (v : View τ κ) (s' : Kernel τ κ)
    (v' : View τ κ) : Prop where
  inv : s'.Inv v'
  ahead : s'.Ahead v'
  tickCtr : s'.wheel.tickCtr = s.wheel.tickCtr + .ofNat e.ticks
  sem : ∀ k, ¬ e.Counts k → s'.sem k = s.sem k
  waits : ∀ k, e.Queues s s' (v.waits k) (v'.waits k)
  deleted : ∀ p ∈ s.taskDbgList, p ∉ s'.taskDbgList →
    ∃ q : Option τ, e = .taskDel q ∧ s.Target q p
  moves : ∀ p ∈ s.taskDbgList, p ∈ s'.taskDbgList →
    TaskMove e s p (v.due p) (s'.tcb p) (v'.due p)

variable {e : KernelEvent τ κ} {s s' : Kernel τ κ} {v v' : View τ κ} {p : τ}

/-- An event that is no tick. -/
theorem add_ticks {ctr : UInt32} (h : e.ticks = 0) : ctr = ctr + .ofNat e.ticks := by
  rw [h]
  exact (UInt32.add_zero ctr).symm

theorem KernelEvent.Queues.of_sublist {tasks tasks' : List τ} (h : tasks' <+ tasks) :
    e.Queues s s' tasks tasks' := ⟨tasks', h, Or.inl rfl⟩

theorem KernelEvent.Queues.refl {tasks : List τ} : e.Queues s s' tasks tasks :=
  .of_sublist (List.Sublist.refl _)

/-- The task comes in behind those of its priority. -/
theorem KernelEvent.Queues.insert [DecidableEq κ] {prio : τ → Nat} {k : κ}
    (hcomes : e.Comes s p) (hsub : ∀ j, v'.waits j <+ v.waits j) (hout : ∀ j, p ∉ v'.waits j)
    (hprio : (fun q => (s'.tcb q).prio) = prio) (j : κ) :
    e.Queues s s' (v.waits j) ((v'.pendInsert prio k p).waits j) := by
  subst hprio
  refine ⟨v'.waits j, hsub j, ?_⟩
  by_cases hj : j = k
  · subst hj
    exact Or.inr ⟨p, hout j, hcomes, Function.update_self ..⟩
  · exact Or.inl (Function.update_of_ne hj ..)

/-- Only variables of the kernel change. -/
theorem Kernel.Step.of_globals (h : s.Inv v) (hahead : s.Ahead v) (hticks : e.ticks = 0)
    {g : Globals τ κ}
    (hsem : ∀ k, g.sem k ≠ 0 → v.waits k = [])
    (hcount : ∀ k, ¬ e.Counts k → g.sem k = s.sem k) (htasks : g.taskDbgList = s.taskDbgList)
    (hidle : g.idleTask = s.idleTask) : s.Step e v { s with toGlobals := g } v := by
  refine ⟨⟨⟨h.ready, h.tbl, h.wheel, h.pends, h.order, hsem, ?_⟩, ⟨?_, ?_⟩, fun p => ?_,
    htasks ▸ h.few⟩, hahead,
    add_ticks hticks, hcount, fun _ => .refl, fun p hp hnot => absurd (by rwa [htasks]) hnot,
    fun p _ _ => .stays⟩
  · show g.taskDbgList.Nodup
    rw [htasks]
    exact h.tasks
  · show g.idleTask ∈ g.taskDbgList
    rw [hidle, htasks]
    exact h.live
  · show (s.tcb g.idleTask).taskState = _
    rw [hidle]
    exact h.rdy
  · refine (h.stands p).congr rfl ?_ id
    show p ∈ g.taskDbgList ↔ _
    rw [htasks]

theorem Kernel.Step.refl (h : s.Inv v) (hahead : s.Ahead v) (hticks : e.ticks = 0) :
    s.Step e v s v :=
  ⟨h, hahead, add_ticks hticks, fun _ _ => rfl, fun _ => .refl,
    fun _ hp hnot => absurd hp hnot, fun _ _ _ => .stays⟩

/-- Only one task moves. -/
theorem Kernel.Step.of_sets [DecidableEq τ] {c : Tcb κ} {t : Option UInt32}
    (hahead : s.Ahead v) (hticks : e.ticks = 0) (hinv : s'.Inv v') (hsets : s.Sets s' p c)
    (hdue : v'.due = Function.update v.due p t)
    (hwaits : ∀ k, e.Queues s s' (v.waits k) (v'.waits k)) (hnot : t ≠ some s.wheel.tickCtr)
    (hmove : TaskMove e s p (v.due p) c t) : s.Step e v s' v' := by
  refine ⟨hinv, fun q => ?_, hsets.tickCtr.trans (add_ticks hticks),
    fun k _ => by rw [hsets.globals], hwaits,
    fun q hq hnot => absurd (by rwa [hsets.globals]) hnot, fun q _ _ => ?_⟩
  · rw [hdue, hsets.tickCtr]
    by_cases hq : q = p
    · rwa [hq, Function.update_self]
    · rw [Function.update_of_ne hq]
      exact hahead q
  · by_cases hq : q = p
    · subst hq
      rwa [hsets.self, hdue, Function.update_self]
    · rw [hsets.tcb, hdue, Function.update_of_ne hq, Function.update_of_ne hq]
      exact .stays

end Moves

/-! ## Time -/

section Time
variable {τ κ : Type*} [DecidableEq τ] [DecidableEq κ] {e : KernelEvent τ κ}
  {s s' : Kernel τ κ} {v v' : View τ κ} {p : τ}

/-- The event follows no null pointer, and does one of these things. -/
def Kernel.Goes (e : KernelEvent τ κ) (s : Kernel τ κ) (v : View τ κ) : Prop :=
  ∃ a s' v', e.call s = some (a, s') ∧ s.Step e v s' v'

theorem Kernel.Goes.refl (h : s.Inv v) (hahead : s.Ahead v) {a : Answer}
    (hcall : e.call s = some (a, s)) (hticks : e.ticks = 0 := by rfl) : s.Goes e v :=
  ⟨a, s, v, hcall, .refl h hahead hticks⟩

omit [DecidableEq τ] [DecidableEq κ] in
/-- **A call that is refused** changes nothing, else it is the rest of it that counts. -/
theorem Kernel.Inv.orRefused (h : s.Inv v) (hahead : s.Ahead v) (hticks : e.ticks = 0) {c : Prop}
    [Decidable c] {refused : Answer} {call : Option (Answer × Kernel τ κ)}
    (hcall : ¬ c → ∃ a s' v', call = some (a, s') ∧ s.Step e v s' v') :
    ∃ a s' v', (if c then some (refused, s) else call) = some (a, s') ∧ s.Step e v s' v' := by
  by_cases hc : c
  · rw [if_pos hc]
    exact ⟨refused, s, v, rfl, .refl h hahead hticks⟩
  · rw [if_neg hc]
    exact hcall hc

theorem not_pos {c : UInt8} (h : ¬ c > 0) : c = 0 := by
  rw [gt_iff_lt, UInt8.lt_iff_toNat_lt] at h
  exact UInt8.toNat_inj.mp (by simpa using h)

omit [DecidableEq τ] [DecidableEq κ] in
theorem Kernel.Inv.pendObj_none (h : s.Inv v) (hp : p ∈ s.taskDbgList)
    (hpends : (s.tcb p).taskState.pends = false) : (s.tcb p).pendObj = none := by
  have hnot : ¬ (s.tcb p).pendOn ≠ .nothing := by
    rw [(h.ok hp).pendOn, hpends]
    exact Bool.false_ne_true
  rw [← Option.not_isSome_iff_eq_none, (h.ok hp).pendObj, not_ne_iff.mp hnot]
  decide

omit [DecidableEq τ] [DecidableEq κ] in
theorem Kernel.Inv.due_none (h : s.Inv v) (hp : p ∈ s.taskDbgList)
    (htimed : (s.tcb p).taskState.timed = false) : v.due p = none := by
  rw [← Option.not_isSome_iff_eq_none, (h.mid hp).2, htimed]
  exact Bool.false_ne_true

omit [DecidableEq τ] [DecidableEq κ] in
/-- Where a task stands that is ready, -/
theorem Kernel.Inv.mid_rdy (h : s.Inv v) (hp : p ∈ s.taskDbgList)
    (hrdy : (s.tcb p).taskState = .rdy) : s.Mid v p (some (s.tcb p).prio) none none := by
  have hmid := (h.mid hp).1
  rwa [h.pendObj_none hp (by rw [hrdy]; rfl), h.due_none hp (by rw [hrdy]; rfl), Tcb.rdyAt,
    if_pos hrdy] at hmid

omit [DecidableEq τ] [DecidableEq κ] in
/-- and one that is not, and waits for no object. -/
theorem Kernel.Inv.mid_idle (h : s.Inv v) (hp : p ∈ s.taskDbgList)
    (hrdy : (s.tcb p).taskState ≠ .rdy) (hpends : (s.tcb p).taskState.pends = false) :
    s.Mid v p none (v.due p) none := by
  have hmid := (h.mid hp).1
  rwa [h.pendObj_none hp hpends, Tcb.rdyAt, if_neg hrdy] at hmid

omit [DecidableEq τ] [DecidableEq κ] in
theorem Kernel.Inv.not_idle (h : s.Inv v) (hrdy : (s.tcb p).taskState ≠ .rdy) :
    s.idleTask ≠ p := by
  rintro rfl
  exact hrdy h.rdy

omit [DecidableEq κ] in
/-- The other fields of a task that waits for no object still say the same. -/
theorem Tcb.Ok.setState {t : Tcb κ} (h : t.Ok) {state : TaskState} (hstate : state ≠ .del)
    (hpends : state.pends = t.taskState.pends) : Tcb.Ok { t with taskState := state } :=
  ⟨h.prio, hstate, by rw [hpends]; exact h.pendOn, h.pendObj⟩

theorem tickMatch_none {ctr prev time : UInt32} {opt : TimeOpt}
    (h : tickMatch ctr prev time opt = none) : opt = .isMatch ∨ time = 0 := by
  cases opt with
  | isMatch => exact Or.inl rfl
  | dly | timeout | periodic =>
    refine Or.inr (by_contra fun hne => ?_)
    have hpos : time > 0 := UInt32.pos_iff_ne_zero.mpr hne
    simp [tickMatch, hpos] at h

omit [DecidableEq κ] in
/-- **The running task is delayed.** -/
theorem osTimeDly_spec {dly tick prev : UInt32} {opt : TimeOpt} (h : s.Inv v) (hahead : s.Ahead v)
    (hint : ¬ s.intNestingCtr > 0) (hlock : ¬ s.schedLockNestingCtr > 0)
    (hzero : ¬ (opt ≠ .isMatch ∧ dly = 0)) (hcur : s.tcbCur = some p) (hp : p ∈ s.taskDbgList)
    (hrdy : (s.tcb p).taskState = .rdy) (hidle : p ≠ s.idleTask)
    (htick : tickMatch s.wheel.tickCtr (s.wheel.tickCtrPrev p) dly opt = some (tick, prev)) :
    ∃ s' v', osTimeDly dly opt s = some (.err .none, s') ∧ s.Step (.timeDly dly opt) v s' v' ∧
      (s'.tcb p).taskState = .dly ∧ v'.due p = some tick := by
  have hset : s.Sets (s.setState p .dly) p _ := .setState
  obtain ⟨s1, hinsert, hsets1, hmid1⟩ := ((h.mid_rdy hp hrdy).setState .dly).tickListInsert dly opt
  have hwheel : (s.setState p .dly).wheel = s.wheel := rfl
  rw [hwheel, htick] at hinsert hmid1
  rw [if_neg (Option.some_ne_none _)] at hinsert
  obtain ⟨s2, hremove, hsets2, hmid2⟩ := hmid1.rdyListRemove
    (by rw [hsets1.self, hset.self]) (h.ok hp).prio
  rw [hset.self] at hsets1
  rw [hsets1.self] at hsets2
  have hsets := (hset.trans hsets1).trans hsets2
  refine ⟨s2, _, ?_, .of_sets hahead rfl (hmid2.inv hsets hp
    ((h.ok hp).setState (by decide) (by rw [hrdy]; rfl)) rfl
    (h.pendObj_none hp (by rw [hrdy]; rfl)).symm rfl fun hq => absurd hq.symm hidle) hsets rfl
    (fun _ => .refl) ?_ (.delays dly opt tick prev rfl hcur hrdy htick), by rw [hsets.self],
    Function.update_self ..⟩
  · rw [osTimeDly, if_neg hint, if_neg hlock, if_neg hzero, hcur, Option.bind_some, hinsert,
      Option.bind_some]
    dsimp only
    rw [if_pos rfl, hremove]
    rfl
  · rw [ne_eq, Option.map_some, Option.some.injEq]
    exact tickMatch_ne htick

theorem osTimeDly_goes (h : s.Inv v) (hahead : s.Ahead v) {dly : UInt32} {opt : TimeOpt}
    (hlegal : (KernelEvent.timeDly dly opt).Legal s) : s.Goes (.timeDly dly opt) v := by
  by_cases hint : s.intNestingCtr > 0
  · exact .refl h hahead (if_pos hint)
  by_cases hlock : s.schedLockNestingCtr > 0
  · exact .refl h hahead (by rw [KernelEvent.call, osTimeDly, if_neg hint, if_pos hlock])
  by_cases hzero : opt ≠ .isMatch ∧ dly = 0
  · exact .refl h hahead (by rw [KernelEvent.call, osTimeDly, if_neg hint, if_neg hlock,
      if_pos hzero])
  obtain ⟨⟨p, hcur, hp, hrdy, hidle⟩, hmatch⟩ := hlegal (not_pos hint)
  obtain ⟨⟨tick, prev⟩, htick⟩ : ∃ t, tickMatch s.wheel.tickCtr (s.wheel.tickCtrPrev p) dly opt =
      some t := by
    refine Option.ne_none_iff_exists'.mp fun hnone => ?_
    rcases tickMatch_none hnone with rfl | hdly
    · exact hmatch rfl p hcur hnone
    · by_cases hopt : opt = .isMatch
      · exact hmatch hopt p hcur hnone
      · exact hzero ⟨hopt, hdly⟩
  obtain ⟨s', v', hcall, hstep, -⟩ :=
    osTimeDly_spec h hahead hint hlock hzero hcur hp hrdy hidle htick
  exact ⟨_, s', v', hcall, hstep⟩

/-- **A delay or a timeout ends**: the task is taken off the wheel. -/
theorem osTickExpire_spec (h : s.Inv v) (hp : p ∈ s.taskDbgList)
    (htimed : (s.tcb p).taskState.timed = true) :
    ∃ s' v', osTickExpire p s = some s' ∧ s.Sets s' p (s.tcb p).expire ∧
      osTickListRemove p s.wheel = some s'.wheel ∧ s'.Inv v' ∧
      v'.due = Function.update v.due p none ∧ ∀ k, v'.waits k <+ v.waits k := by
  have hok := h.ok hp
  unfold osTickExpire Tcb.expire
  cases hstate : (s.tcb p).taskState with
  | rdy | pend | suspended | pendSuspended | del =>
    rw [hstate] at htimed
    cases htimed
  | dly =>
    have hpends : (s.tcb p).taskState.pends = false := by rw [hstate]; rfl
    have hidle := h.not_idle (p := p) (by rw [hstate]; decide)
    have hset : s.Sets (s.setState p .rdy) p _ := .setState
    obtain ⟨s1, hrdy, hsets1, hwheel, hmid1⟩ := osTaskRdy_spec
      ((h.mid_idle hp (by rw [hstate]; decide) hpends).setState .rdy)
      (by rw [hset.self]; rfl) (by rw [hset.self]; exact hok.prio)
    rw [hset.self] at hsets1 hmid1
    exact ⟨s1, _, hrdy, hset.trans hsets1, hwheel, hmid1.inv (hset.trans hsets1) hp
      (hok.setState (by decide) (by rw [hpends]; rfl)) rfl (h.pendObj_none hp hpends).symm rfl
      fun hq => absurd hq hidle, rfl, fun _ => List.Sublist.refl _⟩
  | dlySuspended =>
    have hpends : (s.tcb p).taskState.pends = false := by rw [hstate]; rfl
    have hidle := h.not_idle (p := p) (by rw [hstate]; decide)
    have hset : s.Sets (s.setState p .suspended) p _ := .setState
    obtain ⟨s1, hremove, hsets1, hwheel, hmid1⟩ := ((h.mid_idle hp
      (by rw [hstate]; decide) hpends).setState .suspended).tickListRemove
    rw [hset.self] at hsets1
    exact ⟨s1, _, hremove, hset.trans hsets1, hwheel, hmid1.inv (hset.trans hsets1) hp
      (hok.setState (by decide) (by rw [hpends]; rfl)) rfl (h.pendObj_none hp hpends).symm rfl
      fun hq => absurd hq hidle, rfl, fun _ => List.Sublist.refl _⟩
  | pendTimeout | pendTimeoutSuspended =>
    obtain ⟨s1, hend, hsets, hwheel, hinv⟩ := osPendEnd_spec h hp (by rw [hstate]; rfl) .timeout
      (Or.inl rfl)
    exact ⟨s1, _, hend, hsets, hwheel, hinv, View.wake_due,
      fun _ => by rw [View.wake_waits]; exact List.erase_sublist⟩

theorem osTimeDlyResume_goes (h : s.Inv v) (hahead : s.Ahead v) (hp : p ∈ s.taskDbgList) :
    s.Goes (.timeDlyResume p) v := by
  by_cases hint : s.intNestingCtr > 0
  · exact .refl h hahead (if_pos hint)
  by_cases hcur : s.tcbCur = some p
  · exact .refl h hahead (by rw [KernelEvent.call, osTimeDlyResume, if_neg hint, if_pos hcur])
  have hexpire : ∀ a, (s.tcb p).taskState.pends = false → (s.tcb p).taskState.timed = true →
      osTimeDlyResume p s = (osTickExpire p s).map (fun s' => (a, s')) →
      s.Goes (.timeDlyResume p) v := by
    intro a hpends htimed hcall
    obtain ⟨s1, v1, hend, hsets, -, hinv, hdue, hwaits⟩ := osTickExpire_spec h hp htimed
    rw [hend] at hcall
    exact ⟨a, s1, v1, hcall, .of_sets hahead rfl hinv hsets hdue
      (fun k => .of_sublist (hwaits k)) (Option.some_ne_none _).symm
      (.undelays rfl hpends (by rw [(h.mid hp).2, htimed]))⟩
  cases hstate : (s.tcb p).taskState with
  | dly =>
    refine hexpire (.err .none) (by rw [hstate]; rfl) (by rw [hstate]; rfl) ?_
    rw [osTimeDlyResume, if_neg hint, if_neg hcur, osTickExpire, hstate]
    dsimp only
    rw [osTaskRdy, Kernel.tickListRemove, Option.bind_map, Option.bind_map]
    simp [Kernel.setState, Kernel.setTcb, TaskState.bitSuspended, Function.comp_def]
  | dlySuspended =>
    refine hexpire (.err .taskSuspended) (by rw [hstate]; rfl) (by rw [hstate]; rfl) ?_
    rw [osTimeDlyResume, if_neg hint, if_neg hcur, osTickExpire, hstate]
  | rdy | pend | pendTimeout | suspended | pendSuspended | pendTimeoutSuspended | del =>
    exact .refl h hahead (by rw [KernelEvent.call, osTimeDlyResume, if_neg hint, if_neg hcur,
      hstate])

omit [DecidableEq τ] [DecidableEq κ] in
theorem Kernel.Inv.live_of_due (h : s.Inv v) (hdue : (v.due p).isSome) :
    p ∈ s.taskDbgList ∧ (s.tcb p).taskState.timed = true := by
  have hp : p ∈ s.taskDbgList := by
    by_contra hp
    rw [((h.stands p).dead hp).2.due] at hdue
    cases hdue
  exact ⟨hp, (h.mid hp).2.symm.trans hdue⟩

omit [DecidableEq κ] in
/-- What the loop notes down of a task that it looks at. -/
theorem Kernel.Inv.setRemain (h : s.Inv v) (p : τ) (remain : UInt32) :
    ({ s with wheel := s.wheel.setRemain p remain } : Kernel τ κ).Inv v := by
  obtain ⟨spokes, hwheel⟩ := h.wheel
  exact ⟨⟨h.ready, h.tbl, ⟨spokes, hwheel.congr rfl rfl rfl (fun _ _ => rfl) rfl⟩, h.pends,
    h.order, h.sem, h.tasks⟩, ⟨h.live, h.rdy⟩, fun q => (h.stands q).congr rfl Iff.rfl id, h.few⟩

/-- What a tick does: the tasks that wait for it wait no more, the others go on as they are. -/
structure Kernel.Ticked (s : Kernel τ κ) (v : View τ κ) (s' : Kernel τ κ) (v' : View τ κ) :
    Prop where
  inv : s'.Inv v'
  globals : s'.toGlobals = s.toGlobals
  tickCtr : s'.wheel.tickCtr = s.wheel.tickCtr
  waits : ∀ k, v'.waits k <+ v.waits k
  due : ∀ q, v.due q = some s.wheel.tickCtr → s'.tcb q = (s.tcb q).expire ∧ v'.due q = none
  later : ∀ q, v.due q ≠ some s.wheel.tickCtr → s'.tcb q = s.tcb q ∧ v'.due q = v.due q

theorem tickUpdateLoop_timed {fuel : Nat} (htimed : (s.tcb p).taskState.timed = true) :
    tickUpdateLoop (fuel + 1) (some p) s =
      let s1 : Kernel τ κ := { s with
        wheel := s.wheel.setRemain p (s.wheel.tickCtrMatch p - s.wheel.tickCtr) }
      if s.wheel.tickCtr = s.wheel.tickCtrMatch p then
        (osTickExpire p s1).bind (tickUpdateLoop fuel (s.wheel.links.next p))
      else some s1 := by
  rw [tickUpdateLoop, if_pos htimed]
  rfl

omit [DecidableEq κ] in
/-- One task that is due, and then the others. -/
theorem Kernel.Ticked.cons {s2 : Kernel τ κ} {v2 : View τ κ}
    (hp : v.due p = some s.wheel.tickCtr) (hsets : s.Sets s2 p (s.tcb p).expire)
    (hdue : v2.due = Function.update v.due p none) (hwaits : ∀ k, v2.waits k <+ v.waits k)
    (h : s2.Ticked v2 s' v') :
    s.Ticked v s' v' := by
  have hctr2 : s2.wheel.tickCtr = s.wheel.tickCtr := hsets.tickCtr
  have hother : ∀ q, q ≠ p → s2.tcb q = s.tcb q ∧ v2.due q = v.due q := by
    intro q hq
    rw [hsets.tcb, hdue, Function.update_of_ne hq, Function.update_of_ne hq]
    exact ⟨rfl, rfl⟩
  refine ⟨h.inv, h.globals.trans hsets.globals, h.tickCtr.trans hctr2,
    fun k => (h.waits k).trans (hwaits k), fun q hq => ?_, fun q hq => ?_⟩
  · by_cases hqp : q = p
    · subst hqp
      have hnone : v2.due q = none := by rw [hdue, Function.update_self]
      obtain ⟨htcb', hdue'⟩ := h.later q (by rw [hnone]; exact (Option.some_ne_none _).symm)
      rw [htcb', hdue', hsets.self]
      exact ⟨rfl, hnone⟩
    · obtain ⟨htcb2, hdue2⟩ := hother q hqp
      rw [← htcb2]
      exact h.due q (by rw [hdue2, hctr2]; exact hq)
  · have hqp : q ≠ p := fun hqp => hq (hqp ▸ hp)
    obtain ⟨htcb2, hdue2⟩ := hother q hqp
    rw [← htcb2, ← hdue2]
    exact h.later q (by rw [hdue2, hctr2]; exact hq)

/-- The loop takes the tasks that are due off the front of the spoke. -/
theorem tickUpdateLoop_spec {fuel : Nat} (h : s.Inv v)
    (hfuel : (s.wheel.spoke (s.wheel.tickCtr.toNat % osCfgTickWheelSize)).nbrEntries.toNat <
      fuel) :
    ∃ s' v', tickUpdateLoop fuel
        (s.wheel.spoke (s.wheel.tickCtr.toNat % osCfgTickWheelSize)).firstPtr s = some s' ∧
      s.Ticked v s' v' := by
  induction fuel generalizing s v with
  | zero => exact absurd hfuel (Nat.not_lt_zero _)
  | succ fuel ih =>
    obtain ⟨spokes, hwheel⟩ := h.wheel
    have hfirst := hwheel.first (s.wheel.tickCtr.toNat % osCfgTickWheelSize)
    have hnbr := hwheel.nbr (s.wheel.tickCtr.toNat % osCfgTickWheelSize)
    have hmem := hwheel.mem (s.wheel.tickCtr.toNat % osCfgTickWheelSize)
    obtain ⟨front, back, hsplit, hfront, hback⟩ := hwheel.due_front
    cases hspoke : spokes (s.wheel.tickCtr.toNat % osCfgTickWheelSize) with
    | nil =>
      rw [hspoke] at hfirst
      rw [hfirst]
      refine ⟨s, v, rfl, h, rfl, rfl, fun _ => List.Sublist.refl _, fun q hq => ?_,
        fun _ _ => ⟨rfl, rfl⟩⟩
      have hq := (hmem q).mpr ⟨_, hq, rfl⟩
      rw [hspoke] at hq
      cases hq
    | cons p rest =>
      rw [hspoke, List.head?_cons] at hfirst
      rw [hspoke, List.length_cons] at hnbr
      obtain ⟨tick, htick, hk⟩ := (hmem p).mp (by rw [hspoke]; exact List.mem_cons_self ..)
      obtain ⟨hp, htimed⟩ := h.live_of_due (p := p) (by rw [htick]; rfl)
      obtain ⟨rfl, hptr⟩ := hwheel.tick p tick htick
      have h1 := h.setRemain p (s.wheel.tickCtrMatch p - s.wheel.tickCtr)
      rw [hfirst, tickUpdateLoop_timed htimed]
      dsimp only
      by_cases hnow : s.wheel.tickCtr = s.wheel.tickCtrMatch p
      · rw [hk] at hptr
        rw [← hnow] at htick
        obtain ⟨s2, v2, hexpire, hsets, hremove, h2, hdue, hwaits⟩ := osTickExpire_spec h1 hp htimed
        obtain ⟨hnext, hleft⟩ := osTickListRemove_first (w := s.wheel.setRemain p _) hptr hfirst
          hremove
        have hctr : s2.wheel.tickCtr = s.wheel.tickCtr := hsets.tickCtr
        have hleft' : (s2.wheel.spoke (s.wheel.tickCtr.toNat % osCfgTickWheelSize)).nbrEntries =
            (s.wheel.spoke (s.wheel.tickCtr.toNat % osCfgTickWheelSize)).nbrEntries - 1 := hleft
        obtain ⟨s', v', hloop, hticked⟩ := ih h2 (by
          rw [hctr, hleft', nbr_sub_one hnbr]
          omega)
        rw [hctr, hnext] at hloop
        rw [if_pos hnow, hexpire, Option.bind_some]
        exact ⟨s', v', hloop, .cons htick ⟨hsets.globals, hsets.tickCtr, hsets.tcb⟩ hdue hwaits
          hticked⟩
      · rw [if_neg hnow]
        -- the first task is not due, so no task is
        have hnone : front = [] := by
          cases front with
          | nil => rfl
          | cons q front =>
            obtain ⟨rfl, -⟩ := List.cons.inj (hspoke.symm.trans hsplit)
            have hdue := (hfront p).mp (List.mem_cons_self ..)
            rw [htick, Option.some.injEq] at hdue
            exact absurd hdue.symm hnow
        refine ⟨_, v, rfl, h1, rfl, rfl, fun _ => List.Sublist.refl _, fun q hq => ?_,
          fun _ _ => ⟨rfl, rfl⟩⟩
        have hq' := (hfront q).mpr hq
        rw [hnone] at hq'
        cases hq'

theorem osTickListUpdate_goes (h : s.Inv v) (hahead : s.Ahead v) : s.Goes .tick v := by
  obtain ⟨spokes, hwheel⟩ := h.wheel
  have hwheel' := hwheel.tickCtr fun p tick htick heq => hahead p (heq ▸ htick)
  have h1 : ({ s with wheel := { s.wheel with tickCtr := s.wheel.tickCtr + 1 } } :
      Kernel τ κ).Inv v :=
    ⟨⟨h.ready, h.tbl, ⟨spokes, hwheel'⟩, h.pends, h.order, h.sem, h.tasks⟩,
      ⟨h.live, h.rdy⟩,
      fun q => (h.stands q).congr rfl Iff.rfl id, h.few⟩
  obtain ⟨s', v', hloop, hticked⟩ := tickUpdateLoop_spec h1 (Nat.lt_succ_self _)
  refine ⟨.err .none, s', v', ?_, hticked.inv, fun q hq => ?_, hticked.tickCtr,
    fun k _ => by rw [hticked.globals], fun k => .of_sublist (hticked.waits k),
    fun q hq hnot => absurd (by rwa [hticked.globals]) hnot, fun q hq _ => ?_⟩
  · rw [KernelEvent.call, osTickListUpdate]
    dsimp only
    rw [hloop]
    rfl
  · rw [hticked.tickCtr] at hq
    by_cases hdue : v.due q = some (s.wheel.tickCtr + 1)
    · rw [(hticked.due q hdue).2] at hq
      cases hq
    · rw [(hticked.later q hdue).2] at hq
      exact hdue hq
  · by_cases hdue : v.due q = some (s.wheel.tickCtr + 1)
    · obtain ⟨htcb, hnone⟩ := hticked.due q hdue
      rw [htcb, hnone]
      exact .expires rfl hdue
    · obtain ⟨htcb, hsame⟩ := hticked.later q hdue
      rw [htcb, hsame]
      exact .stays

end Time

end Generalplate.Ucos
