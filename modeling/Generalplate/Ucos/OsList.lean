import Mathlib.Data.List.Basic

/-! # The lists of tasks of uC/OS-III

The ready lists and the pend lists know their first and their last task and how many there
are, in 16 bits. -/
namespace Generalplate.Ucos

/-- `OS_RDY_LIST` and `OS_PEND_LIST` -/
structure OsList (τ : Type*) where
  headPtr : Option τ
  tailPtr : Option τ
  nbrEntries : UInt16

/-- The ends of the list of these tasks. -/
structure OsList.Of {τ : Type*} (l : OsList τ) (tasks : List τ) : Prop where
  head : l.headPtr = tasks.head?
  tail : l.tailPtr = tasks.getLast?
  nbr : l.nbrEntries.toNat = tasks.length

/-! The numbers, which are not to wrap. -/

theorem nbr_add_one {n : UInt16} {len : Nat} (h : n.toNat = len) (hfew : len + 1 < UInt16.size) :
    (n + 1).toNat = len + 1 := by
  rw [UInt16.toNat_add, UInt16.toNat_one, h, Nat.mod_eq_of_lt hfew]

theorem nbr_sub_one {n : UInt16} {len : Nat} (h : n.toNat = len + 1) : (n - 1).toNat = len := by
  have hle : 1 ≤ n := by
    rw [UInt16.le_iff_toNat_le, UInt16.toNat_one, h]
    exact Nat.le_add_left 1 len
  rw [UInt16.toNat_sub_of_le _ _ hle, UInt16.toNat_one, h, Nat.add_sub_cancel]

section Ends
variable {τ : Type*} {l : OsList τ} {tasks front back : List τ} {p : τ}

theorem OsList.Of.empty_iff (h : l.Of tasks) : l.nbrEntries = 0 ↔ tasks = [] := by
  rw [← UInt16.toNat_inj, h.nbr, UInt16.toNat_zero, List.length_eq_zero_iff]

theorem OsList.Of.single_iff (h : l.Of tasks) : l.nbrEntries = 1 ↔ tasks.length = 1 := by
  rw [← UInt16.toNat_inj, h.nbr, UInt16.toNat_one]

theorem OsList.Of.insert (h : l.Of (front ++ back))
    (hfew : (front ++ back).length + 1 < UInt16.size) :
    OsList.Of ⟨if front = [] then some p else l.headPtr, if back = [] then some p else l.tailPtr,
      l.nbrEntries + 1⟩ (front ++ p :: back) where
  head := by
    cases front with
    | nil => rfl
    | cons => exact h.head
  tail := by
    cases back with
    | nil => exact List.getLast?_concat.symm
    | cons =>
      rw [if_neg (List.cons_ne_nil _ _), h.tail, List.getLast?_append_of_ne_nil _ (by simp),
        List.getLast?_append_of_ne_nil _ (by simp), List.getLast?_cons_cons]
  nbr := by
    rw [nbr_add_one h.nbr hfew, List.length_append, List.length_append, List.length_cons,
      Nat.add_assoc]

theorem OsList.Of.remove (h : l.Of (front ++ p :: back)) :
    OsList.Of ⟨if front = [] then back.head? else l.headPtr,
      if back = [] then front.getLast? else l.tailPtr, l.nbrEntries - 1⟩ (front ++ back) where
  head := by
    cases front with
    | nil => rfl
    | cons => exact h.head
  tail := by
    cases back with
    | nil => rw [if_pos rfl, List.append_nil]
    | cons =>
      rw [if_neg (List.cons_ne_nil _ _), h.tail, List.getLast?_append_of_ne_nil _ (by simp),
        List.getLast?_append_of_ne_nil _ (by simp), List.getLast?_cons_cons]
  nbr := by
    refine nbr_sub_one (h.nbr.trans ?_)
    rw [List.length_append, List.length_append, List.length_cons, Nat.add_assoc]

end Ends

end Generalplate.Ucos
