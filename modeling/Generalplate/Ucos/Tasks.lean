import Generalplate.Ucos.PendList
import Generalplate.Ucos.RdyList
import Generalplate.Ucos.Tick

/-! # The tasks of uC/OS-III

The kernel: what its calls do to the state of a task and to the lists that the task is in. A
call is its critical section, and `OSTaskSemPendAbort`, which has two, is two; the `OSSched` at
the end is an event of its own, as interrupts come in between. None stands for a null pointer
that is followed. -/
namespace Generalplate.Ucos

/-- `OS_TASK_STATE_RDY` and the others. -/
inductive TaskState where
  | rdy
  | dly
  | pend
  | pendTimeout
  | suspended
  | dlySuspended
  | pendSuspended
  | pendTimeoutSuspended
  | del
deriving DecidableEq, Repr

/-- `OS_TASK_STATE_BIT_SUSPENDED` -/
def TaskState.bitSuspended : TaskState → Bool
  | .rdy | .dly | .pend | .pendTimeout => false
  | .suspended | .dlySuspended | .pendSuspended | .pendTimeoutSuspended | .del => true

/-- `OS_TASK_PEND_ON_NOTHING`, `_SEM` and `_TASK_SEM`. -/
inductive PendOn where
  | nothing
  | sem
  | taskSem
deriving DecidableEq, Repr

/-- `OS_STATUS_PEND_OK`, `_ABORT` and `_TIMEOUT`. -/
inductive PendStatus where
  | ok
  | abort
  | timeout
deriving DecidableEq, Repr

/-- The `OS_ERR` codes of the calls. -/
inductive KernelErr where
  | none
  | lockNestingOvf
  | osNotRunning
  | osRunning
  | pendAbortIsr
  | pendAbortNone
  | pendAbortSelf
  | pendIsr
  | pendWouldBlock
  | prioInvalid
  | roundRobin1
  | roundRobinDisabled
  | schedLocked
  | schedLockIsr
  | schedNotLocked
  | schedUnlockIsr
  | semOvf
  | setIsr
  | stateInvalid
  | taskChangePrioIsr
  | taskCreateIsr
  | taskDelIdle
  | taskDelIsr
  | taskNotDly
  | taskNotSuspended
  | taskResumeIsr
  | taskResumeSelf
  | taskSuspended
  | taskSuspendIdle
  | taskSuspendIsr
  | taskWaiting
  | timeDlyIsr
  | timeDlyResumeIsr
  | timeZeroDly
  | yieldIsr
deriving DecidableEq, Repr

/-- `OS_CFG_TICK_RATE_HZ` -/
def osCfgTickRateHz : UInt32 := 200

/-- What a call comes back with; a task that waits is answered by its `PendStatus`. -/
inductive Answer where
  | err (e : KernelErr)
  | waits
deriving DecidableEq, Repr

/-- `OS_TCB`; `pendObj` is the object of its only pend data, if it has one. -/
structure Tcb (κ : Type*) where
  taskState : TaskState
  prio : Nat
  suspendCtr : UInt8
  pendOn : PendOn
  pendStatus : PendStatus
  pendObj : Option κ
  semCtr : UInt32
  timeQuanta : UInt32
  timeQuantaCtr : UInt32

/-- The variables of the kernel beside its lists; the tasks are those of the debug list. -/
structure Globals (τ κ : Type*) where
  sem : κ → UInt32
  taskDbgList : List τ
  tcbCur : Option τ
  prioCur : Nat
  schedLockNestingCtr : UInt8
  intNestingCtr : UInt8
  running : Bool
  roundRobinEn : Bool
  roundRobinDflt : UInt32
  idleTask : τ

structure Kernel (τ κ : Type*) extends Globals τ κ where
  ready : Ready τ
  wheel : Wheel τ
  pends : Pends τ κ
  tcb : τ → Tcb κ

section Lists
variable {τ κ : Type*} [DecidableEq τ] [DecidableEq κ]

def Kernel.setTcb (p : τ) (t : Tcb κ) (s : Kernel τ κ) : Kernel τ κ :=
  { s with tcb := Function.update s.tcb p t }

def Kernel.setState (p : τ) (state : TaskState) (s : Kernel τ κ) : Kernel τ κ :=
  s.setTcb p { s.tcb p with taskState := state }

/-! The lists of the kernel. -/

def Kernel.rdyListInsert (p : τ) (s : Kernel τ κ) : Option (Kernel τ κ) :=
  (osRdyListInsert s.prioCur (s.tcb p).prio p s.ready).map fun ready => { s with ready := ready }

def Kernel.rdyListRemove (p : τ) (s : Kernel τ κ) : Option (Kernel τ κ) :=
  (osRdyListRemove (s.tcb p).prio p s.ready).map fun ready => { s with ready := ready }

/-- `OS_PrioInsert`, then the task at an end of its list. -/
def Kernel.rdyListInsertAt (head : Bool) (p : τ) (s : Kernel τ κ) : Option (Kernel τ κ) :=
  (osPrioInsert (s.tcb p).prio s.ready.prioTbl).bind fun prioTbl =>
    let ready := { s.ready with prioTbl := prioTbl }
    (if head then osRdyListInsertHead (s.tcb p).prio p ready
      else osRdyListInsertTail (s.tcb p).prio p ready).map fun ready => { s with ready := ready }

def Kernel.tickListInsert (p : τ) (time : UInt32) (opt : TimeOpt) (s : Kernel τ κ) :
    Option (TickErr × Kernel τ κ) :=
  (osTickListInsert p time opt s.wheel).map fun (err, wheel) => (err, { s with wheel := wheel })

def Kernel.tickListRemove (p : τ) (s : Kernel τ κ) : Option (Kernel τ κ) :=
  (osTickListRemove p s.wheel).map fun wheel => { s with wheel := wheel }

def Kernel.pendListInsertPrio (k : κ) (p : τ) (s : Kernel τ κ) : Option (Kernel τ κ) :=
  (osPendListInsertPrio (fun q => (s.tcb q).prio) k p s.pends).map fun pends =>
    { s with pends := pends }

def Kernel.pendListRemove1 (k : κ) (p : τ) (s : Kernel τ κ) : Option (Kernel τ κ) :=
  (osPendListRemove1 k p s.pends).map fun pends => { s with pends := pends }

/-- `OS_PendListRemove` -/
def osPendListRemove (p : τ) (s : Kernel τ κ) : Option (Kernel τ κ) :=
  match (s.tcb p).pendObj with
  | none => some s
  | some k => (s.pendListRemove1 k p).map fun s => s.setTcb p { s.tcb p with pendObj := none }

/-- `OS_PendListChangePrio` -/
def osPendListChangePrio (p : τ) (prio : Nat) (s : Kernel τ κ) : Option (Kernel τ κ) :=
  let s := s.setTcb p { s.tcb p with prio := prio }
  match (s.tcb p).pendObj with
  | none => some s
  | some k =>
    if (s.pends.pendList k).nbrEntries > 1 then
      (s.pendListRemove1 k p).bind fun s => s.pendListInsertPrio k p
    else some s

/-! The states of a task. -/

/-- `OS_TaskRdy` -/
def osTaskRdy (p : τ) (s : Kernel τ κ) : Option (Kernel τ κ) :=
  (s.tickListRemove p).bind fun s =>
    if (s.tcb p).taskState.bitSuspended then some s else s.rdyListInsert p

/-- `OS_TaskBlock` -/
def osTaskBlock (p : τ) (timeout : UInt32) (s : Kernel τ κ) : Option (Kernel τ κ) :=
  if timeout > 0 then
    (s.tickListInsert p timeout .timeout).bind fun (err, s) =>
      (s.setState p (if err = .none then .pendTimeout else .pend)).rdyListRemove p
  else (s.setState p .pend).rdyListRemove p

/-- `OS_Pend` of the running task. -/
def osPend (p : τ) (obj : Option κ) (pendingOn : PendOn) (timeout : UInt32) (s : Kernel τ κ) :
    Option (Kernel τ κ) :=
  let s := s.setTcb p { s.tcb p with pendOn := pendingOn, pendStatus := .ok }
  (osTaskBlock p timeout s).bind fun s =>
    let s := s.setTcb p { s.tcb p with pendObj := obj }
    match obj with
    | some k => s.pendListInsertPrio k p
    | none => some s

/-- `OS_Post`, `OS_PendAbort` and the end of a timeout: the task waits no more. They differ in
the status, and in when they look into the pend lists. -/
def osPendEnd (status : PendStatus) (listed : Bool) (p : τ) (s : Kernel τ κ) :
    Option (Kernel τ κ) :=
  let pendListRemove s := if listed then osPendListRemove p s else some s
  let finish (state : TaskState) (s : Kernel τ κ) := s.setTcb p
    { s.tcb p with taskState := state, pendStatus := status, pendOn := .nothing }
  match (s.tcb p).taskState with
  | .rdy | .dly | .suspended | .dlySuspended | .del => some s
  | .pend | .pendTimeout =>
    (pendListRemove s).bind fun s => (osTaskRdy p s).map (finish .rdy)
  | .pendSuspended | .pendTimeoutSuspended =>
    (pendListRemove s).bind fun s => (s.tickListRemove p).map (finish .suspended)

def osPost (obj : Option κ) (p : τ) (s : Kernel τ κ) : Option (Kernel τ κ) :=
  osPendEnd .ok obj.isSome p s

def osPendAbort (obj : Option κ) (p : τ) (s : Kernel τ κ) : Option (Kernel τ κ) :=
  osPendEnd .abort obj.isSome p s

end Lists

section Calls
variable {τ κ : Type*} [DecidableEq τ] [DecidableEq κ]

/-! Time. -/

def osTimeDly (dly : UInt32) (opt : TimeOpt) (s : Kernel τ κ) : Option (Answer × Kernel τ κ) :=
  if s.intNestingCtr > 0 then some (.err .timeDlyIsr, s)
  else if s.schedLockNestingCtr > 0 then some (.err .schedLocked, s)
  else if opt ≠ .isMatch ∧ dly = 0 then some (.err .timeZeroDly, s)
  else
    s.tcbCur.bind fun p =>
      ((s.setState p .dly).tickListInsert p dly opt).bind fun (err, s) =>
        if err = .none then (s.rdyListRemove p).map fun s => (.err .none, s)
        else some (.err .timeZeroDly, s)

def osTimeDlyResume (p : τ) (s : Kernel τ κ) : Option (Answer × Kernel τ κ) :=
  if s.intNestingCtr > 0 then some (.err .timeDlyResumeIsr, s)
  else if s.tcbCur = some p then some (.err .taskNotDly, s)
  else
    match (s.tcb p).taskState with
    | .dly =>
      (((s.setState p .rdy).tickListRemove p).bind fun s => s.rdyListInsert p).map
        fun s => (.err .none, s)
    | .dlySuspended =>
      ((s.setState p .suspended).tickListRemove p).map fun s => (.err .taskSuspended, s)
    | .del => some (.err .stateInvalid, s)
    | _ => some (.err .taskNotDly, s)

/-- A task of the spoke that is due. -/
def osTickExpire (p : τ) (s : Kernel τ κ) : Option (Kernel τ κ) :=
  match (s.tcb p).taskState with
  | .dly => osTaskRdy p (s.setState p .rdy)
  | .dlySuspended => (s.setState p .suspended).tickListRemove p
  | _ => osPendEnd .timeout true p s

/-- The states that wait for a tick. -/
def TaskState.timed : TaskState → Bool
  | .dly | .pendTimeout | .dlySuspended | .pendTimeoutSuspended => true
  | .rdy | .pend | .suspended | .pendSuspended | .del => false

/-- The loop of `OS_TickListUpdate`, none when it does not end. -/
def tickUpdateLoop : Nat → Option τ → Kernel τ κ → Option (Kernel τ κ)
  | 0, _, _ => none
  | _ + 1, none, s => some s
  | fuel + 1, some p, s =>
    let next := s.wheel.links.next p
    if (s.tcb p).taskState.timed then
      let s := { s with
        wheel := s.wheel.setRemain p (s.wheel.tickCtrMatch p - s.wheel.tickCtr) }
      if s.wheel.tickCtr = s.wheel.tickCtrMatch p then
        (osTickExpire p s).bind (tickUpdateLoop fuel next)
      else some s
    else tickUpdateLoop fuel next s

/-- `OS_TickListUpdate` -/
def osTickListUpdate (s : Kernel τ κ) : Option (Kernel τ κ) :=
  let s := { s with wheel := { s.wheel with tickCtr := s.wheel.tickCtr + 1 } }
  let spoke := s.wheel.spoke (s.wheel.tickCtr.toNat % osCfgTickWheelSize)
  tickUpdateLoop (spoke.nbrEntries.toNat + 1) spoke.firstPtr s

/-! Suspending. -/

/-- `OSTaskSuspend` and `OS_TaskSuspend`; a null pointer is the task itself. -/
def osTaskSuspend (p : Option τ) (s : Kernel τ κ) : Option (Answer × Kernel τ κ) :=
  if s.intNestingCtr > 0 then some (.err .taskSuspendIsr, s)
  else if p = some s.idleTask then some (.err .taskSuspendIdle, s)
  else
    (p.or s.tcbCur).bind fun p =>
      let suspend (state : TaskState) := s.setTcb p
        { s.tcb p with taskState := state, suspendCtr := 1 }
      if s.tcbCur = some p ∧ s.schedLockNestingCtr > 0 then some (.err .schedLocked, s)
      else
        match (s.tcb p).taskState with
        | .rdy => ((suspend .suspended).rdyListRemove p).map fun s => (.err .none, s)
        | .dly => some (.err .none, suspend .dlySuspended)
        | .pend => some (.err .none, suspend .pendSuspended)
        | .pendTimeout => some (.err .none, suspend .pendTimeoutSuspended)
        | .suspended | .dlySuspended | .pendSuspended | .pendTimeoutSuspended =>
          some (.err .none, s.setTcb p { s.tcb p with suspendCtr := (s.tcb p).suspendCtr + 1 })
        | .del => some (.err .stateInvalid, s)

/-- `OSTaskResume` and `OS_TaskResume` -/
def osTaskResume (p : τ) (s : Kernel τ κ) : Option (Answer × Kernel τ κ) :=
  if s.intNestingCtr > 0 then some (.err .taskResumeIsr, s)
  else if s.tcbCur = some p then some (.err .taskResumeSelf, s)
  else
    let ctr := (s.tcb p).suspendCtr - 1
    let resume (state : TaskState) := s.setTcb p { s.tcb p with
      suspendCtr := ctr, taskState := if ctr = 0 then state else (s.tcb p).taskState }
    match (s.tcb p).taskState with
    | .rdy | .dly | .pend | .pendTimeout => some (.err .taskNotSuspended, s)
    | .suspended =>
      (if ctr = 0 then osTaskRdy p (resume .rdy) else some (resume .rdy)).map
        fun s => (.err .none, s)
    | .dlySuspended => some (.err .none, resume .dly)
    | .pendSuspended => some (.err .none, resume .pend)
    | .pendTimeoutSuspended => some (.err .none, resume .pendTimeout)
    | .del => some (.err .stateInvalid, s)

/-! Semaphores. -/

def osSemPendCall (k : κ) (timeout : UInt32) (blocking : Bool) (s : Kernel τ κ) :
    Option (Answer × Kernel τ κ) :=
  if s.intNestingCtr > 0 then some (.err .pendIsr, s)
  else if s.sem k > 0 then
    some (.err .none, { s with sem := Function.update s.sem k (s.sem k - 1) })
  else if !blocking then some (.err .pendWouldBlock, s)
  else if s.schedLockNestingCtr > 0 then some (.err .schedLocked, s)
  else
    s.tcbCur.bind fun p =>
      (osPend p (some k) .sem timeout s).map fun s => (.waits, s)

/-- The loop of `OS_SemPost` over the tasks that wait. -/
def semPostLoop (k : κ) : Nat → Option τ → Kernel τ κ → Option (Kernel τ κ)
  | 0, _, s => some s
  | _ + 1, none, _ => none
  | cnt + 1, some p, s =>
    let next := s.pends.links.next p
    (osPost (some k) p s).bind (semPostLoop k cnt next)

/-- `OSSemPost` and `OS_SemPost` -/
def osSemPostCall (k : κ) (all : Bool) (s : Kernel τ κ) : Option (Answer × Kernel τ κ) :=
  let l := s.pends.pendList k
  if l.nbrEntries = 0 then
    if s.sem k = 0xffffffff then some (.err .semOvf, s)
    else some (.err .none, { s with sem := Function.update s.sem k (s.sem k + 1) })
  else
    (semPostLoop k (if all then l.nbrEntries.toNat else 1) l.headPtr s).map fun s => (.err .none, s)

/-- The loop of `OSSemPendAbort`, none when it does not end. -/
def semPendAbortLoop (k : κ) (all : Bool) : Nat → Kernel τ κ → Option (Kernel τ κ)
  | 0, _ => none
  | fuel + 1, s =>
    let l := s.pends.pendList k
    if l.nbrEntries = 0 then some s
    else
      l.headPtr.bind fun p =>
        (osPendAbort (some k) p s).bind fun s =>
          if all then semPendAbortLoop k all fuel s else some s

/-- `OSSemPendAbort`; it goes on only for `OS_OPT_PEND_ABORT_ALL` by itself. -/
def osSemPendAbort (k : κ) (all noSched : Bool) (s : Kernel τ κ) : Option (Answer × Kernel τ κ) :=
  let l := s.pends.pendList k
  if s.intNestingCtr > 0 then some (.err .pendAbortIsr, s)
  else if l.nbrEntries = 0 then some (.err .pendAbortNone, s)
  else
    (semPendAbortLoop k (all && !noSched) (l.nbrEntries.toNat + 1) s).map fun s => (.err .none, s)

def osSemSet (k : κ) (cnt : UInt32) (s : Kernel τ κ) : Option (Answer × Kernel τ κ) :=
  if s.intNestingCtr > 0 then some (.err .setIsr, s)
  else if s.sem k > 0 then some (.err .none, { s with sem := Function.update s.sem k cnt })
  else if (s.pends.pendList k).nbrEntries = 0 then
    some (.err .none, { s with sem := Function.update s.sem k cnt })
  else some (.err .taskWaiting, s)

/-! The semaphore of a task. -/

def osTaskSemPend (timeout : UInt32) (blocking : Bool) (s : Kernel τ κ) :
    Option (Answer × Kernel τ κ) :=
  if s.intNestingCtr > 0 then some (.err .pendIsr, s)
  else
    s.tcbCur.bind fun p =>
      if (s.tcb p).semCtr > 0 then
        some (.err .none, s.setTcb p { s.tcb p with semCtr := (s.tcb p).semCtr - 1 })
      else if !blocking then some (.err .pendWouldBlock, s)
      else if s.schedLockNestingCtr > 0 then some (.err .schedLocked, s)
      else (osPend p none .taskSem timeout s).map fun s => (.waits, s)

/-- `OSTaskSemPost` and `OS_TaskSemPost`; a null pointer is the task itself. -/
def osTaskSemPost (p : Option τ) (s : Kernel τ κ) : Option (Answer × Kernel τ κ) :=
  (p.or s.tcbCur).bind fun p =>
    let count :=
      if (s.tcb p).semCtr = 0xffffffff then some (.err .semOvf, s)
      else some (.err .none, s.setTcb p { s.tcb p with semCtr := (s.tcb p).semCtr + 1 })
    match (s.tcb p).taskState with
    | .rdy | .dly | .suspended | .dlySuspended => count
    | .pend | .pendTimeout | .pendSuspended | .pendTimeoutSuspended =>
      if (s.tcb p).pendOn = .taskSem then (osPost none p s).map fun s => (.err .none, s)
      else count
    | .del => some (.err .stateInvalid, s)

/-- The first critical section of `OSTaskSemPendAbort`, which looks at the task. -/
def osTaskSemPendAbort (p : τ) (s : Kernel τ κ) : Answer :=
  if s.intNestingCtr > 0 then .err .pendAbortIsr
  else if s.tcbCur = some p then .err .pendAbortSelf
  else if (s.tcb p).pendOn ≠ .taskSem then .err .pendAbortNone
  else .err .none

/-- The second one, which does not look again. -/
def osTaskSemPendAbortEnd (p : τ) (s : Kernel τ κ) : Option (Answer × Kernel τ κ) :=
  (osPendAbort none p s).map fun s => (.err .none, s)

/-! The tasks. -/

/-- `OS_TaskInitTCB`, the task in no list. -/
def osTaskInitTcb (p : τ) (s : Kernel τ κ) : Kernel τ κ :=
  { s with
    ready := { s.ready with links := (s.ready.links.setNext p none).setPrev p none }
    wheel := { s.wheel with
      links := (s.wheel.links.setNext p none).setPrev p none
      tickSpokePtr := Function.update s.wheel.tickSpokePtr p none
      tickCtrMatch := Function.update s.wheel.tickCtrMatch p 0
      tickRemain := Function.update s.wheel.tickRemain p 0
      tickCtrPrev := Function.update s.wheel.tickCtrPrev p 0x80000000 }
    tcb := Function.update s.tcb p { s.tcb p with
      taskState := .rdy, prio := osCfgPrioMax, suspendCtr := 0, pendOn := .nothing,
      pendStatus := .ok, semCtr := 0, timeQuanta := 0, timeQuantaCtr := 0 } }

/-- The time slice of a task. -/
def Kernel.quanta (timeQuanta : UInt32) (s : Kernel τ κ) : UInt32 :=
  if timeQuanta = 0 then s.roundRobinDflt else timeQuanta

def osTaskCreate (p : τ) (prio : Nat) (timeQuanta : UInt32) (s : Kernel τ κ) :
    Option (Answer × Kernel τ κ) :=
  if s.intNestingCtr > 0 then some (.err .taskCreateIsr, s)
  else if prio ≥ osCfgPrioMax then some (.err .prioInvalid, s)
  else if prio = osCfgPrioMax - 1 ∧ p ≠ s.idleTask then some (.err .prioInvalid, s)
  else
    let s := osTaskInitTcb p s
    let s := s.setTcb p { s.tcb p with
      prio := prio, timeQuanta := timeQuanta, timeQuantaCtr := s.quanta timeQuanta }
    (s.rdyListInsertAt false p).map fun s =>
      (.err .none, { s with taskDbgList := p :: s.taskDbgList })

def osTaskDel (p : Option τ) (s : Kernel τ κ) : Option (Answer × Kernel τ κ) :=
  if s.intNestingCtr > 0 then some (.err .taskDelIsr, s)
  else if p = some s.idleTask then some (.err .taskDelIdle, s)
  else
    (p.or s.tcbCur).bind fun p =>
      let finish (s : Kernel τ κ) : Answer × Kernel τ κ :=
        (.err .none,
          (osTaskInitTcb p { s with taskDbgList := s.taskDbgList.erase p }).setState p .del)
      match (s.tcb p).taskState with
      | .rdy => (s.rdyListRemove p).map finish
      | .suspended => some (finish s)
      | .dly | .dlySuspended => (s.tickListRemove p).map finish
      | .pend | .pendSuspended | .pendTimeout | .pendTimeoutSuspended =>
        (s.tickListRemove p).bind fun s =>
          match (s.tcb p).pendOn with
          | .nothing | .taskSem => some (finish s)
          | .sem => (osPendListRemove p s).map finish
      | .del => some (.err .stateInvalid, s)

def osTaskChangePrio (p : Option τ) (prio : Nat) (s : Kernel τ κ) :
    Option (Answer × Kernel τ κ) :=
  if s.intNestingCtr > 0 then some (.err .taskChangePrioIsr, s)
  else if prio ≥ osCfgPrioMax - 1 then some (.err .prioInvalid, s)
  else
    let self := p.isNone
    (p.or s.tcbCur).bind fun p =>
      let setPrio (s : Kernel τ κ) := s.setTcb p { s.tcb p with prio := prio }
      match (s.tcb p).taskState with
      | .rdy =>
        ((s.rdyListRemove p).bind fun s => (setPrio s).rdyListInsertAt self p).map
          fun s => (.err .none, s)
      | .dly | .suspended | .dlySuspended => some (.err .none, setPrio s)
      | .pend | .pendTimeout | .pendSuspended | .pendTimeoutSuspended =>
        match (s.tcb p).pendOn with
        | .taskSem => some (.err .none, setPrio s)
        | .sem => (osPendListChangePrio p prio s).map fun s => (.err .none, s)
        | .nothing => some (.err .none, s)
      | .del => some (.err .stateInvalid, s)

/-! The scheduler. -/

/-- The highest priority that is ready, and the first task of its list. -/
def Kernel.highRdy (s : Kernel τ κ) : Option (Nat × τ) :=
  (osPrioGetHighest s.ready.prioTbl).bind fun prio =>
    (s.ready.rdyList prio).headPtr.map fun p => (prio, p)

/-- The end of `OSSched` and of `OSIntExit`: another task goes on. -/
def Kernel.ctxSw (s : Kernel τ κ) : Option (Kernel τ κ) :=
  s.highRdy.map fun (prio, p) =>
    if s.tcbCur = some p then s else { s with tcbCur := some p, prioCur := prio }

def osSched (s : Kernel τ κ) : Option (Kernel τ κ) :=
  if s.intNestingCtr > 0 then some s
  else if s.schedLockNestingCtr > 0 then some s
  else s.ctxSw

def osStart (s : Kernel τ κ) : Option (Answer × Kernel τ κ) :=
  if s.running then some (.err .osRunning, s)
  else s.highRdy.map fun (prio, p) =>
    (.err .none, { s with tcbCur := some p, prioCur := prio, running := true })

def osIntEnter (s : Kernel τ κ) : Kernel τ κ :=
  if !s.running ∨ s.intNestingCtr ≥ 250 then s
  else { s with intNestingCtr := s.intNestingCtr + 1 }

def osIntExit (s : Kernel τ κ) : Option (Kernel τ κ) :=
  if !s.running ∨ s.intNestingCtr = 0 then some s
  else
    let s := { s with intNestingCtr := s.intNestingCtr - 1 }
    if s.intNestingCtr > 0 ∨ s.schedLockNestingCtr > 0 then some s else s.ctxSw

def osSchedLock (s : Kernel τ κ) : Answer × Kernel τ κ :=
  if s.intNestingCtr > 0 then (.err .schedLockIsr, s)
  else if !s.running then (.err .osNotRunning, s)
  else if s.schedLockNestingCtr ≥ 250 then (.err .lockNestingOvf, s)
  else (.err .none, { s with schedLockNestingCtr := s.schedLockNestingCtr + 1 })

def osSchedUnlock (s : Kernel τ κ) : Answer × Kernel τ κ :=
  if s.intNestingCtr > 0 then (.err .schedUnlockIsr, s)
  else if !s.running then (.err .osNotRunning, s)
  else if s.schedLockNestingCtr = 0 then (.err .schedNotLocked, s)
  else
    let s := { s with schedLockNestingCtr := s.schedLockNestingCtr - 1 }
    (.err (if s.schedLockNestingCtr > 0 then .schedLocked else .none), s)

/-- The running list is turned, and its new first task gets a time slice. -/
def Kernel.turn (s : Kernel τ κ) : Option (Kernel τ κ) :=
  (osRdyListMoveHeadToTail s.prioCur s.ready).bind fun ready =>
    let s := { s with ready := ready }
    (s.ready.rdyList s.prioCur).headPtr.map fun p =>
      s.setTcb p { s.tcb p with timeQuantaCtr := s.quanta (s.tcb p).timeQuanta }

def osSchedRoundRobinYield (s : Kernel τ κ) : Option (Answer × Kernel τ κ) :=
  if s.intNestingCtr > 0 then some (.err .yieldIsr, s)
  else if s.schedLockNestingCtr > 0 then some (.err .schedLocked, s)
  else if !s.roundRobinEn then some (.err .roundRobinDisabled, s)
  else if (s.ready.rdyList s.prioCur).nbrEntries < 2 then some (.err .roundRobin1, s)
  else s.turn.map fun s => (.err .none, s)

/-- `OS_SchedRoundRobin` of the running list, at a tick. -/
def osSchedRoundRobin (s : Kernel τ κ) : Option (Kernel τ κ) :=
  let l := s.ready.rdyList s.prioCur
  if !s.roundRobinEn then some s
  else
    match l.headPtr with
    | none => some s
    | some p =>
      if p = s.idleTask then some s
      else
        let ctr := (s.tcb p).timeQuantaCtr
        let ctr := if ctr > 0 then ctr - 1 else ctr
        let s := s.setTcb p { s.tcb p with timeQuantaCtr := ctr }
        if ctr > 0 ∨ l.nbrEntries < 2 ∨ s.schedLockNestingCtr > 0 then some s
        else s.turn

def osSchedRoundRobinCfg (en : Bool) (dflt : UInt32) (s : Kernel τ κ) : Kernel τ κ :=
  { s with
    roundRobinEn := en
    roundRobinDflt := if dflt > 0 then dflt else osCfgTickRateHz / 10 }

end Calls

end Generalplate.Ucos
