import Mathlib.Data.List.Rotate
import Mathlib.Data.List.Sort
import Mathlib.Logic.Function.Basic

/-! # Where the tasks of uC/OS-III stand

The ready lists, the ticks and the pend lists as the tasks see them: a task stands in one
ready list at most, waits for one tick at most and for one object at most. What moves one
task leaves the others where they stand. -/
namespace Generalplate.Ucos

/-- What the lists of the kernel hold. -/
structure View (τ κ : Type*) where
  rdy : Nat → List τ
  due : τ → Option UInt32
  waits : κ → List τ

/-- Where a task stands. -/
structure View.At {τ κ : Type*} (v : View τ κ) (p : τ) (r : Option Nat) (t : Option UInt32)
    (k : Option κ) : Prop where
  rdy : ∀ q, p ∈ v.rdy q ↔ r = some q
  due : v.due p = t
  waits : ∀ j, p ∈ v.waits j ↔ k = some j

section Ready
variable {τ κ : Type*} {v : View τ κ} {p q : τ} {r : Option Nat} {t : Option UInt32}
  {k : Option κ} {head : Bool} {prio : Nat}

/-- The task comes to the head or to the tail of a ready list. -/
def View.rdyInsert (head : Bool) (prio : Nat) (p : τ) (v : View τ κ) : View τ κ :=
  { v with
    rdy := Function.update v.rdy prio (if head then p :: v.rdy prio else v.rdy prio ++ [p]) }

theorem View.At.rdyInsert (h : v.At p none t k) :
    (v.rdyInsert head prio p).At p (some prio) t k := by
  refine ⟨fun j => ?_, h.due, h.waits⟩
  by_cases hj : j = prio
  · subst hj
    cases head <;> simp [View.rdyInsert]
  · have hout : p ∉ v.rdy j := fun hmem => by simpa using (h.rdy j).mp hmem
    simp [View.rdyInsert, hj, Ne.symm hj, hout]

theorem View.At.rdyInsert_other (h : v.At q r t k) (hq : q ≠ p) :
    (v.rdyInsert head prio p).At q r t k := by
  refine ⟨fun j => ?_, h.due, h.waits⟩
  rw [← h.rdy j]
  by_cases hj : j = prio
  · subst hj
    cases head <;> simp [View.rdyInsert, hq]
  · simp [View.rdyInsert, hj]

/-- The first task of a ready list goes to its tail. -/
def View.rdyRotate (prio : Nat) (v : View τ κ) : View τ κ :=
  { v with rdy := Function.update v.rdy prio ((v.rdy prio).rotate 1) }

theorem View.At.rdyRotate (h : v.At q r t k) : (v.rdyRotate prio).At q r t k := by
  refine ⟨fun j => ?_, h.due, h.waits⟩
  rw [← h.rdy j]
  by_cases hj : j = prio
  · subst hj
    simp [View.rdyRotate, List.mem_rotate]
  · simp [View.rdyRotate, hj]

variable [DecidableEq τ]

def View.rdyRemove (p : τ) (v : View τ κ) : View τ κ :=
  { v with rdy := fun j => (v.rdy j).erase p }

theorem View.At.rdyRemove (h : v.At p r t k) (hnodup : ∀ j, (v.rdy j).Nodup) :
    (v.rdyRemove p).At p none t k := by
  refine ⟨fun j => ?_, h.due, h.waits⟩
  simp [View.rdyRemove, (hnodup j).not_mem_erase]

theorem View.At.rdyRemove_other (h : v.At q r t k) (hq : q ≠ p) :
    (v.rdyRemove p).At q r t k := by
  refine ⟨fun j => ?_, h.due, h.waits⟩
  rw [← h.rdy j]
  exact List.mem_erase_of_ne hq

/-- The task is to wait for a tick, or no more. -/
def View.setDue (p : τ) (t : Option UInt32) (v : View τ κ) : View τ κ :=
  { v with due := Function.update v.due p t }

theorem View.At.setDue {t' : Option UInt32} (h : v.At p r t k) : (v.setDue p t').At p r t' k :=
  ⟨h.rdy, Function.update_self .., h.waits⟩

theorem View.At.setDue_other {t' : Option UInt32} (h : v.At q r t k) (hq : q ≠ p) :
    (v.setDue p t').At q r t k :=
  ⟨h.rdy, (Function.update_of_ne hq ..).trans h.due, h.waits⟩

def View.pendRemove (p : τ) (v : View τ κ) : View τ κ :=
  { v with waits := fun j => (v.waits j).erase p }

theorem View.At.pendRemove (h : v.At p r t k) (hnodup : ∀ j, (v.waits j).Nodup) :
    (v.pendRemove p).At p r t none := by
  refine ⟨h.rdy, h.due, fun j => ?_⟩
  simp [View.pendRemove, (hnodup j).not_mem_erase]

theorem View.At.pendRemove_other (h : v.At q r t k) (hq : q ≠ p) :
    (v.pendRemove p).At q r t k := by
  refine ⟨h.rdy, h.due, fun j => ?_⟩
  rw [← h.waits j]
  exact List.mem_erase_of_ne hq

/-- A task that waits for nothing is in no pend list. -/
theorem View.At.pendRemove_none (h : v.At p r t none) : v.pendRemove p = v := by
  have hsame : (fun j => (v.waits j).erase p) = v.waits := by
    funext j
    exact List.erase_of_not_mem fun hmem => by simpa using (h.waits j).mp hmem
  rw [View.pendRemove, hsame]

end Ready

section Pend
variable {τ κ : Type*} [DecidableEq κ] {v : View τ κ} {p q : τ} {r : Option Nat}
  {t : Option UInt32} {k : Option κ} {j : κ} {prio : τ → Nat}

/-- The task comes behind those of its priority and of higher ones. -/
def View.pendInsert (prio : τ → Nat) (j : κ) (p : τ) (v : View τ κ) : View τ κ :=
  { v with
    waits := Function.update v.waits j
      ((v.waits j).orderedInsert (fun a b => prio a < prio b) p) }

theorem View.At.pendInsert (h : v.At p r t none) :
    (v.pendInsert prio j p).At p r t (some j) := by
  refine ⟨h.rdy, h.due, fun i => ?_⟩
  by_cases hi : i = j
  · subst hi
    simp [View.pendInsert]
  · have hout : p ∉ v.waits i := fun hmem => by simpa using (h.waits i).mp hmem
    simp [View.pendInsert, hi, Ne.symm hi, hout]

theorem View.At.pendInsert_other (h : v.At q r t k) (hq : q ≠ p) :
    (v.pendInsert prio j p).At q r t k := by
  refine ⟨h.rdy, h.due, fun i => ?_⟩
  rw [← h.waits i]
  by_cases hi : i = j
  · subst hi
    simp [View.pendInsert, hq]
  · simp [View.pendInsert, hi]

/-- A list stays in the order of the priorities. -/
theorem pairwise_orderedInsert (prio : τ → Nat) (p : τ) {tasks : List τ}
    (h : tasks.Pairwise fun a b => prio a ≤ prio b) :
    (tasks.orderedInsert (fun a b => prio a < prio b) p).Pairwise
      fun a b => prio a ≤ prio b := by
  induction tasks with
  | nil => simp
  | cons q tasks ih =>
    obtain ⟨hq, htasks⟩ := List.pairwise_cons.mp h
    rw [List.orderedInsert_cons]
    split
    · rename_i hlt
      refine List.pairwise_cons.mpr ⟨fun b hb => ?_, h⟩
      rcases List.mem_cons.mp hb with rfl | hb
      · exact Nat.le_of_lt hlt
      · exact (Nat.le_of_lt hlt).trans (hq b hb)
    · rename_i hle
      refine List.pairwise_cons.mpr ⟨fun b hb => ?_, ih htasks⟩
      rcases List.mem_orderedInsert .. |>.mp hb with rfl | hb
      · exact Nat.not_lt.mp hle
      · exact hq b hb

end Pend

end Generalplate.Ucos
