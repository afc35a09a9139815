import Generalplate.Lib.EventRun
import Generalplate.Ucos.Sem
import Generalplate.Arch.Mbox

/-! # Semaphores

A semaphore is one of the operating system. `sys_arch_sem_wait` converts its time
limit and measures its wait as `sys_arch_mbox_fetch` does. Any number of tasks wait
and signal at once; each is preempted between any two of its calls to the operating
system. -/
namespace Generalplate.Arch
open Lib.EventRun Ucos

/-- Where a task is in `sys_arch_sem_wait`: `ticks` is the time limit and `timeout`
the first reading of the clock. -/
inductive SemPc where
  | idle
  | waiting (ticks timeout : UInt32)
  | pending (ticks timeout : UInt32)
  | got (timeout : UInt32)

/-- A wait that has returned: whether it got the semaphore, and its result. -/
structure Waited (τ : Type*) where
  task : τ
  got : Bool
  res : UInt32

structure Sem (τ : Type*) where
  sem : OsSem τ
  pc : τ → SemPc
  log : List (Waited τ)

/-- What can happen: a task calls `sys_arch_sem_wait` and reads the clock, calls
`OSSemPend`, times out in it, or comes back with the semaphore and reads the clock
again; somebody calls `sys_sem_signal`. -/
inductive SemAct (τ : Type*) where
  | wait (task : τ) (timeout now : UInt32)
  | pend (task : τ)
  | expire (task : τ)
  | resume (task : τ) (now : UInt32)
  | signal
deriving DecidableEq

variable {τ : Type*} [DecidableEq τ]

/-- After `sys_sem_new`. -/
def Sem.init (τ : Type*) (count : UInt8) : Sem τ := ⟨⟨count.toUInt32, []⟩, fun _ => .idle, []⟩

def Sem.goto (s : Sem τ) (task : τ) (pc : SemPc) : Sem τ :=
  { s with pc := Function.update s.pc task pc }

theorem Sem.goto_self (s : Sem τ) (task : τ) (pc : SemPc) : (s.goto task pc).pc task = pc :=
  Function.update_self ..

def Sem.event (s : Sem τ) (e : Waited τ) : Sem τ := { s with log := s.log ++ [e] }

/-- A task made ready by a post has the semaphore. -/
def Sem.ready (s : Sem τ) (waiter : τ) : Sem τ :=
  match s.pc waiter with
  | .pending _ timeout => s.goto waiter (.got timeout)
  | _ => s

/-- `sys_sem_signal`. -/
def Sem.signal (s : Sem τ) : Sem τ :=
  let r := osSemPost s.sem
  let s := { s with sem := r.2.1 }
  match r.2.2 with
  | none => s
  | some waiter => s.ready waiter

def semStep (prio : τ → Nat) : SemAct τ → Sem τ → Option (Sem τ)
  | .wait task timeout now, s =>
    match s.pc task with
    | .idle => some (s.goto task (.waiting (ucosTimeout timeout) now))
    | _ => none
  | .pend task, s =>
    match s.pc task with
    | .waiting ticks timeout =>
      let r := osSemPend prio task s.sem
      let s := { s with sem := r.2 }
      if r.1 then some (s.goto task (.got timeout))
      else some (s.goto task (.pending ticks timeout))
    | _ => none
  | .expire task, s =>
    match s.pc task with
    | .pending ticks _ =>
      if ticks ≠ 0 then
        let s := { s with sem := s.sem.pendTimeout task }
        some ((s.goto task .idle).event ⟨task, false, sysArchTimeout⟩)
      else none
    | _ => none
  | .resume task now, s =>
    match s.pc task with
    | .got timeout => some ((s.goto task .idle).event ⟨task, true, fetchElapsed timeout now⟩)
    | _ => none
  | .signal, s => some s.signal

/-- What each step can do. -/
inductive SemNext (prio : τ → Nat) (s : Sem τ) : SemAct τ → Sem τ → Prop where
  | wait {task : τ} {timeout now : UInt32} (hpc : s.pc task = .idle) :
    SemNext prio s (.wait task timeout now) (s.goto task (.waiting (ucosTimeout timeout) now))
  | taken {task : τ} {ticks timeout : UInt32} (hpc : s.pc task = .waiting ticks timeout)
      (hgot : (osSemPend prio task s.sem).1 = true) :
    SemNext prio s (.pend task)
      ({ s with sem := (osSemPend prio task s.sem).2 }.goto task (.got timeout))
  | waits {task : τ} {ticks timeout : UInt32} (hpc : s.pc task = .waiting ticks timeout)
      (hgot : ¬ (osSemPend prio task s.sem).1 = true) :
    SemNext prio s (.pend task)
      ({ s with sem := (osSemPend prio task s.sem).2 }.goto task (.pending ticks timeout))
  | expire {task : τ} {ticks timeout : UInt32} (hpc : s.pc task = .pending ticks timeout)
      (hticks : ticks ≠ 0) :
    SemNext prio s (.expire task)
      (({ s with sem := s.sem.pendTimeout task }.goto task .idle).event
        ⟨task, false, sysArchTimeout⟩)
  | resume {task : τ} {timeout now : UInt32} (hpc : s.pc task = .got timeout) :
    SemNext prio s (.resume task now)
      ((s.goto task .idle).event ⟨task, true, fetchElapsed timeout now⟩)
  | signal : SemNext prio s .signal s.signal

theorem semStep_next {prio : τ → Nat} {s s' : Sem τ} {a : SemAct τ}
    (hs : semStep prio a s = some s') : SemNext prio s a s' := by
  cases a with
  | pend task =>
    simp only [semStep] at hs
    split at hs
    · rename_i hpc
      split at hs
      · rename_i hgot
        cases hs
        exact .taken hpc hgot
      · rename_i hgot
        cases hs
        exact .waits hpc hgot
    · cases hs
  | expire task =>
    simp only [semStep] at hs
    split at hs
    · rename_i hpc
      split at hs
      · rename_i hticks
        cases hs
        exact .expire hpc hticks
      · cases hs
    · cases hs
  | wait task timeout now | resume task now =>
    simp only [semStep] at hs
    split at hs
    · rename_i hpc
      cases hs
      constructor
      exact hpc
    · cases hs
  | signal =>
    cases hs
    exact .signal

end Generalplate.Arch
