import Mathlib.Data.List.Sort
import Generalplate.Lib.TwoWay
import Generalplate.Ucos.OsList

/-! # The pend lists of uC/OS-III

The tasks that wait for an object, by priority and those of one priority in the order in
which they came. A task waits for one object at a time, so its entry is the task itself. -/
namespace Generalplate.Ucos
open Lib.TwoWay

/-- `NextPtr` and `PrevPtr` of the `OS_PEND_DATA`, and the `PendList` of the objects. -/
structure Pends (τ κ : Type*) where
  links : Links τ
  pendList : κ → OsList τ

section Model
variable {τ κ : Type*} [DecidableEq τ] [DecidableEq κ]

/-- `OS_PendListInit` -/
def Pends.init : Pends τ κ where
  links := ⟨fun _ => none, fun _ => none⟩
  pendList _ := ⟨none, none, 0⟩

def Pends.setList (s : Pends τ κ) (k : κ) (links : Links τ) (l : OsList τ) : Pends τ κ :=
  { links := links, pendList := Function.update s.pendList k l }

/-- `OS_PendListInsertPrio`, none where it follows a null pointer. -/
def osPendListInsertPrio (prio : τ → Nat) (k : κ) (p : τ) (s : Pends τ κ) :
    Option (Pends τ κ) :=
  let l := s.pendList k
  if l.nbrEntries = 0 then
    some (s.setList k ((s.links.setNext p none).setPrev p none) ⟨some p, some p, 1⟩)
  else
    let stop q := decide (prio p < prio q)
    match s.links.walk stop (l.nbrEntries.toNat + 1) l.headPtr with
    | none => none
    | some none =>
      l.tailPtr.map fun prev =>
        let links := (s.links.setNext p none).setPrev p l.tailPtr
        s.setList k (links.setNext prev (some p)) ⟨l.headPtr, some p, l.nbrEntries + 1⟩
    | some (some next) =>
      match s.links.prev next with
      | none =>
        let links := (s.links.setPrev next (some p)).setPrev p none
        some (s.setList k (links.setNext p (some next)) ⟨some p, l.tailPtr, l.nbrEntries + 1⟩)
      | some prev =>
        let links := (s.links.setPrev p (some prev)).setNext p (some next)
        some (s.setList k ((links.setNext prev (some p)).setPrev next (some p))
          ⟨l.headPtr, l.tailPtr, l.nbrEntries + 1⟩)

/-- `OS_PendListRemove1` -/
def osPendListRemove1 (k : κ) (p : τ) (s : Pends τ κ) : Option (Pends τ κ) :=
  let l := s.pendList k
  let finish (links : Links τ) (head tail : Option τ) :=
    some (s.setList k ((links.setNext p none).setPrev p none) ⟨head, tail, l.nbrEntries - 1⟩)
  if l.nbrEntries = 1 then finish s.links none none
  else
    match s.links.prev p, s.links.next p with
    | none, none => none
    | none, some next => finish (s.links.setPrev next none) (some next) l.tailPtr
    | some prev, none => finish (s.links.setNext prev none) l.headPtr (some prev)
    | some prev, some next =>
      finish ((s.links.setNext prev (some next)).setPrev next (some prev)) l.headPtr l.tailPtr

end Model

/-- The pointers are those of the lists. -/
structure Pends.Refines {τ κ : Type*} (s : Pends τ κ) (lists : κ → List τ) : Prop where
  linked : Linked s.links lists
  ends : ∀ k, (s.pendList k).Of (lists k)

section Lists
variable {τ κ : Type*} [DecidableEq τ] [DecidableEq κ] {s : Pends τ κ} {lists : κ → List τ}
  {k : κ} {p : τ} {links : Links τ} {l : OsList τ} {tasks : List τ}

omit [DecidableEq τ] [DecidableEq κ] in
theorem Pends.Refines.init : (Pends.init : Pends τ κ).Refines fun _ => [] :=
  ⟨.empty, fun _ => ⟨rfl, rfl, rfl⟩⟩

omit [DecidableEq τ] in
theorem Pends.Refines.setList (h : s.Refines lists)
    (hlinked : Linked links (Function.update lists k tasks)) (hl : l.Of tasks) :
    (s.setList k links l).Refines (Function.update lists k tasks) := by
  refine ⟨hlinked, fun j => ?_⟩
  by_cases hj : j = k
  · subst hj
    simpa only [Pends.setList, Function.update_self] using hl
  · simpa only [Pends.setList, Function.update_of_ne hj] using h.ends j

/-- **A task that waits** stands behind those of its priority and the higher ones. -/
theorem Pends.Refines.insertPrio (h : s.Refines lists) (prio : τ → Nat)
    (hp : ∀ j, p ∉ lists j) (hfew : (lists k).length + 1 < UInt16.size) :
    ∃ s', osPendListInsertPrio prio k p s = some s' ∧
      s'.Refines (Function.update lists k
        ((lists k).orderedInsert (fun a b => prio a < prio b) p)) := by
  have hends := h.ends k
  unfold osPendListInsertPrio
  dsimp only
  rw [List.orderedInsert_eq_take_drop]
  have hsplit := (List.takeWhile_append_dropWhile
    (p := fun q => decide ¬ prio p < prio q) (l := lists k)).symm
  have hwalk := h.linked.walk (fun q => decide (prio p < prio q)) (List.nil_append (lists k)).symm
    (Nat.lt_succ_self _)
  simp only [← decide_not] at hwalk
  generalize (lists k).takeWhile (fun q => decide ¬ prio p < prio q) = front at *
  generalize (lists k).dropWhile (fun q => decide ¬ prio p < prio q) = back at *
  rw [← hends.head, ← hends.nbr] at hwalk
  have hlinked := h.linked.insert hsplit hp
  have hnot := hp k
  rw [hsplit] at hends hnot hfew
  have hinsert := hends.insert (p := p) hfew
  rw [hwalk]
  by_cases hempty : (s.pendList k).nbrEntries = 0
  · obtain ⟨rfl, rfl⟩ := List.append_eq_nil_iff.mp (hends.empty_iff.mp hempty)
    rw [if_pos hempty]
    exact ⟨_, rfl, h.setList (by rwa [Links.insert_alone]) ⟨rfl, rfl, rfl⟩⟩
  rw [if_neg hempty]
  rcases List.eq_nil_or_concat' front with rfl | ⟨front, last, rfl⟩
  · cases back with
    | nil => exact absurd (hends.empty_iff.mpr rfl) hempty
    | cons next back =>
      have hne : next ≠ p := fun hne => hnot (hne ▸ by simp)
      have hprev := (h.linked.links k [] next back hsplit).2
      have hswap : (((s.links.setPrev next (some p)).setPrev p none).setNext p (some next)) =
          s.links.insert none p (some next) := by
        rw [← Links.insert_first hne]
        simp only [Links.setNext, Links.setPrev, Function.update_comm hne]
      dsimp only [List.head?_cons]
      rw [hprev]
      exact ⟨_, rfl, h.setList (hswap ▸ hlinked) (by simpa using hinsert)⟩
  · have hne : last ≠ p := fun hne => hnot (hne ▸ by simp)
    rw [List.getLast?_concat] at hlinked
    cases back with
    | nil =>
      dsimp only [List.head?_nil]
      rw [hends.tail, List.append_nil, List.getLast?_concat]
      exact ⟨_, rfl, h.setList (by rwa [Links.insert_last hne]) (by simpa using hinsert)⟩
    | cons next back =>
      have hnext : next ≠ p := fun hnext => hnot (hnext ▸ by simp)
      have hprev := (h.linked.links k (front ++ [last]) next back hsplit).2
      dsimp only [List.head?_cons]
      rw [hprev, List.getLast?_concat]
      exact ⟨_, rfl, h.setList (by rwa [Links.insert_between hne hnext])
        (by simpa using hinsert)⟩

/-- A task is taken off the pend list. -/
theorem Pends.Refines.remove1 {front back : List τ} (h : s.Refines lists)
    (htasks : lists k = front ++ p :: back) :
    ∃ s', osPendListRemove1 k p s = some s' ∧
      s'.Refines (Function.update lists k (front ++ back)) := by
  have hends := h.ends k
  rw [htasks] at hends
  have hremove := hends.remove
  obtain ⟨hnext, hprev⟩ := h.linked.links k front p back htasks
  have hlinked := h.linked.remove htasks
  have hone : (s.pendList k).nbrEntries = 1 ↔ front = [] ∧ back = [] := by
    rw [hends.single_iff, List.length_append, List.length_cons, ← List.length_eq_zero_iff,
      ← List.length_eq_zero_iff]
    omega
  unfold osPendListRemove1
  dsimp only
  rw [hnext, hprev]
  rcases List.eq_nil_or_concat' front with rfl | ⟨front, last, rfl⟩
  · cases back with
    | nil =>
      rw [if_pos (hone.mpr ⟨rfl, rfl⟩)]
      exact ⟨_, rfl, h.setList (by rwa [Links.setNext_setPrev, Links.remove_alone])
        (by simpa using hremove)⟩
    | cons next back =>
      rw [if_neg (mt hone.mp (by simp))]
      exact ⟨_, rfl, h.setList (by rwa [Links.setNext_setPrev, Links.remove_first])
        (by simpa using hremove)⟩
  · rw [List.getLast?_concat] at hlinked ⊢
    rw [if_neg (mt hone.mp (by simp))]
    cases back with
    | nil =>
      exact ⟨_, rfl, h.setList (by rwa [Links.setNext_setPrev, Links.remove_last])
        (by simpa using hremove)⟩
    | cons next back =>
      exact ⟨_, rfl, h.setList (by rwa [Links.setNext_setPrev, Links.remove_between])
        (by simpa using hremove)⟩

end Lists

end Generalplate.Ucos
