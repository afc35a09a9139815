import Mathlib.Data.List.Sort

/-! # Counting semaphores of uC/OS-III

A pend takes one from the counter, or waits in the pend list when it is 0. A post
goes to the first task that waits, and to the counter when nobody does. -/
namespace Generalplate.Ucos

/-- `OS_SEM`: the counter and the pend list. -/
structure OsSem (τ : Type*) where
  ctr : UInt32
  pendList : List τ

/-- The `OS_ERR` codes of a post. -/
inductive OsSemErr where
  | none
  | semOvf
deriving DecidableEq, Repr

variable {τ : Type*}

/-- `OSSemPend` with `OS_OPT_PEND_BLOCKING`, up to where the task blocks: whether it
goes on at once, or its place in the pend list by its priority. -/
def osSemPend (prio : τ → Nat) (cur : τ) (sem : OsSem τ) : Bool × OsSem τ :=
  if sem.ctr > 0 then (true, { sem with ctr := sem.ctr - 1 })
  else (false, { sem with
    pendList := sem.pendList.orderedInsert (fun a b => prio a < prio b) cur })

/-- `OSSemPost` with `OS_OPT_POST_1`, and the task it makes ready. -/
def osSemPost (sem : OsSem τ) : OsSemErr × OsSem τ × Option τ :=
  match sem.pendList with
  | [] =>
    if sem.ctr = 0xffffffff then (.semOvf, sem, none)
    else (.none, { sem with ctr := sem.ctr + 1 }, none)
  | task :: rest => (.none, { sem with pendList := rest }, some task)

/-- The timeout of a waiting task. -/
def OsSem.pendTimeout [DecidableEq τ] (cur : τ) (sem : OsSem τ) : OsSem τ :=
  { sem with pendList := sem.pendList.erase cur }

end Generalplate.Ucos
