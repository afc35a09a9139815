import Mathlib.Data.List.Rotate
import Generalplate.Lib.TwoWay
import Generalplate.Ucos.OsList
import Generalplate.Ucos.Prio

/-! # The ready lists of uC/OS-III

A list of tasks for each priority, linked both ways through the TCBs, and the bitmap of the
priorities whose list is not empty. The pointers do to the lists what the names of the
functions say. -/
namespace Generalplate.Ucos
open Lib.TwoWay

/-- `NextPtr` and `PrevPtr` of the TCBs, `OSRdyList` and `OSPrioTbl`. -/
structure Ready (τ : Type*) where
  links : Links τ
  rdyList : Nat → OsList τ
  prioTbl : List (BitVec 32)

section Model
variable {τ : Type*} [DecidableEq τ]

/-- `OS_RdyListInit` -/
def Ready.init : Ready τ where
  links := ⟨fun _ => none, fun _ => none⟩
  rdyList _ := ⟨none, none, 0⟩
  prioTbl := osPrioInit

def Ready.setList (r : Ready τ) (prio : Nat) (links : Links τ) (l : OsList τ) : Ready τ :=
  { r with links := links, rdyList := Function.update r.rdyList prio l }

/-- `OS_RdyListInsertHead`, none where it follows a null pointer. -/
def osRdyListInsertHead (prio : Nat) (p : τ) (r : Ready τ) : Option (Ready τ) :=
  let l := r.rdyList prio
  if l.nbrEntries = 0 then
    some (r.setList prio ((r.links.setNext p none).setPrev p none) ⟨some p, some p, 1⟩)
  else do
    let p2 ← l.headPtr
    let links := (r.links.setNext p l.headPtr).setPrev p none
    some (r.setList prio (links.setPrev p2 (some p)) ⟨some p, l.tailPtr, l.nbrEntries + 1⟩)

/-- `OS_RdyListInsertTail` -/
def osRdyListInsertTail (prio : Nat) (p : τ) (r : Ready τ) : Option (Ready τ) :=
  let l := r.rdyList prio
  if l.nbrEntries = 0 then
    some (r.setList prio ((r.links.setNext p none).setPrev p none) ⟨some p, some p, 1⟩)
  else do
    let p2 ← l.tailPtr
    let links := (r.links.setNext p none).setPrev p l.tailPtr
    some (r.setList prio (links.setNext p2 (some p)) ⟨l.headPtr, some p, l.nbrEntries + 1⟩)

/-- `OS_RdyListInsert`: a task of the running priority goes to the tail. -/
def osRdyListInsert (prioCur prio : Nat) (p : τ) (r : Ready τ) : Option (Ready τ) :=
  (osPrioInsert prio r.prioTbl).bind fun prioTbl =>
    if prio = prioCur then osRdyListInsertTail prio p { r with prioTbl := prioTbl }
    else osRdyListInsertHead prio p { r with prioTbl := prioTbl }

/-- `OS_RdyListMoveHeadToTail` -/
def osRdyListMoveHeadToTail (prio : Nat) (r : Ready τ) : Option (Ready τ) :=
  let l := r.rdyList prio
  match l.nbrEntries.toNat with
  | 0 | 1 => some r
  | 2 => do
    let p1 ← l.headPtr
    let p2 ← l.tailPtr
    let links := (r.links.setPrev p1 (some p2)).setNext p1 none
    let links := (links.setPrev p2 none).setNext p2 (some p1)
    some (r.setList prio links ⟨some p2, some p1, l.nbrEntries⟩)
  | _ => do
    let p1 ← l.headPtr
    let p2 ← l.tailPtr
    let p3 ← r.links.next p1
    let links := (r.links.setPrev p3 none).setNext p1 none
    let links := (links.setPrev p1 (some p2)).setNext p2 (some p1)
    some (r.setList prio links ⟨some p3, some p1, l.nbrEntries⟩)

/-- `OS_RdyListRemove` -/
def osRdyListRemove (prio : Nat) (p : τ) (r : Ready τ) : Option (Ready τ) :=
  let l := r.rdyList prio
  let clear (links : Links τ) := (links.setPrev p none).setNext p none
  match r.links.prev p, r.links.next p with
  | none, none =>
    (osPrioRemove prio r.prioTbl).map fun prioTbl =>
      { r with prioTbl := prioTbl }.setList prio (clear r.links) ⟨none, none, 0⟩
  | none, some p2 =>
    some (r.setList prio (clear (r.links.setPrev p2 none))
      ⟨some p2, l.tailPtr, l.nbrEntries - 1⟩)
  | some p1, none =>
    some (r.setList prio (clear (r.links.setNext p1 none))
      ⟨l.headPtr, some p1, l.nbrEntries - 1⟩)
  | some p1, some p2 =>
    some (r.setList prio (clear ((r.links.setNext p1 (some p2)).setPrev p2 (some p1)))
      ⟨l.headPtr, l.tailPtr, l.nbrEntries - 1⟩)

end Model

/-! ## The lists -/

/-- The pointers are those of the lists. -/
structure Ready.Listed {τ : Type*} (r : Ready τ) (lists : Nat → List τ) : Prop where
  linked : Linked r.links lists
  ends : ∀ prio, (r.rdyList prio).Of (lists prio)

/-- The bits are those of the priorities whose lists are not empty. -/
structure Ready.Refines {τ : Type*} (r : Ready τ) (lists : Nat → List τ) : Prop
    extends r.Listed lists where
  exact : ∀ prio, PrioSet r.prioTbl prio ↔ lists prio ≠ []

section Lists
variable {τ : Type*} [DecidableEq τ] {r : Ready τ} {lists : Nat → List τ} {prio : Nat} {p : τ}
  {links : Links τ} {l : OsList τ} {tasks : List τ}

omit [DecidableEq τ] in
theorem Ready.Listed.setList (h : r.Listed lists)
    (hlinked : Linked links (Function.update lists prio tasks)) (hl : l.Of tasks) :
    (r.setList prio links l).Listed (Function.update lists prio tasks) := by
  refine ⟨hlinked, fun q => ?_⟩
  by_cases hq : q = prio
  · subst hq
    simpa only [Ready.setList, Function.update_self] using hl
  · simpa only [Ready.setList, Function.update_of_ne hq] using h.ends q

/-- A task that is in no list goes to the head. -/
theorem Ready.Listed.insertHead (h : r.Listed lists) (hp : ∀ q, p ∉ lists q)
    (hfew : (lists prio).length + 1 < UInt16.size) :
    ∃ r', osRdyListInsertHead prio p r = some r' ∧
      r'.Listed (Function.update lists prio (p :: lists prio)) ∧ r'.prioTbl = r.prioTbl := by
  have hends := h.ends prio
  have hlinked := h.linked.insert (List.nil_append (lists prio)).symm hp
  have hnot := hp prio
  have hinsert := OsList.Of.insert (p := p) (List.nil_append (lists prio) ▸ hends)
    (by rwa [List.nil_append])
  unfold osRdyListInsertHead
  dsimp only
  cases htasks : lists prio with
  | nil =>
    rw [htasks] at hends hlinked hinsert
    rw [if_pos (hends.empty_iff.mpr rfl)]
    exact ⟨_, rfl, h.setList (by rwa [Links.insert_alone]) ⟨rfl, rfl, rfl⟩, rfl⟩
  | cons next rest =>
    rw [htasks] at hends hlinked hinsert hnot
    rw [if_neg (mt hends.empty_iff.mp (List.cons_ne_nil _ _)), hends.head]
    refine ⟨_, rfl, h.setList ?_ (by simpa using hinsert), rfl⟩
    rwa [List.head?_cons, Links.insert_first (List.ne_of_not_mem_cons hnot).symm]

/-- A task that is in no list goes to the tail. -/
theorem Ready.Listed.insertTail (h : r.Listed lists) (hp : ∀ q, p ∉ lists q)
    (hfew : (lists prio).length + 1 < UInt16.size) :
    ∃ r', osRdyListInsertTail prio p r = some r' ∧
      r'.Listed (Function.update lists prio (lists prio ++ [p])) ∧ r'.prioTbl = r.prioTbl := by
  have hends := h.ends prio
  have hlinked := h.linked.insert (List.append_nil (lists prio)).symm hp
  have hnot := hp prio
  have hinsert := OsList.Of.insert (p := p) (List.append_nil (lists prio) ▸ hends)
    (by rwa [List.append_nil])
  unfold osRdyListInsertTail
  dsimp only
  rcases List.eq_nil_or_concat' (lists prio) with htasks | ⟨front, last, htasks⟩
  · rw [htasks] at hends hlinked ⊢
    rw [if_pos (hends.empty_iff.mpr rfl)]
    exact ⟨_, rfl, h.setList (by rwa [Links.insert_alone]) ⟨rfl, rfl, rfl⟩, rfl⟩
  · rw [htasks] at hends hlinked hinsert hnot ⊢
    have hlast : last ≠ p := fun hlast => hnot (hlast ▸ by simp)
    rw [List.getLast?_concat] at hlinked
    rw [if_neg (mt hends.empty_iff.mp (by simp)), hends.tail, List.getLast?_concat]
    exact ⟨_, rfl, h.setList (by rwa [Links.insert_last hlast]) (by simpa using hinsert), rfl⟩

/-- A task is taken off its list. -/
theorem Ready.Listed.remove {front back : List τ} (h : r.Listed lists)
    (htasks : lists prio = front ++ p :: back) (hprio : prio < 32 * r.prioTbl.length) :
    ∃ r', osRdyListRemove prio p r = some r' ∧
      r'.Listed (Function.update lists prio (front ++ back)) ∧
      r'.prioTbl.length = r.prioTbl.length ∧
      ∀ q, PrioSet r'.prioTbl q ↔ PrioSet r.prioTbl q ∧ (q = prio → front ++ back ≠ []) := by
  have hends := h.ends prio
  rw [htasks] at hends
  have hremove := hends.remove
  obtain ⟨hnext, hprev⟩ := h.linked.links prio front p back htasks
  have hlinked := h.linked.remove htasks
  unfold osRdyListRemove
  dsimp only
  rw [hnext, hprev]
  rcases List.eq_nil_or_concat' front with rfl | ⟨front, last, rfl⟩
  · cases back with
    | nil =>
      obtain ⟨tbl, htbl, hlen, hset⟩ := osPrioRemove_spec hprio
      rw [List.getLast?_nil, List.head?_nil, htbl]
      have hmarked : ({ r with prioTbl := tbl } : Ready τ).Listed lists := ⟨h.linked, h.ends⟩
      refine ⟨_, rfl, hmarked.setList (by rwa [Links.remove_alone]) ⟨rfl, rfl, rfl⟩, hlen,
        fun q => ?_⟩
      show PrioSet tbl q ↔ _
      rw [hset]
      simp [and_comm]
    | cons next back =>
      refine ⟨_, rfl, h.setList (by rwa [Links.remove_first]) (by simpa using hremove), rfl,
        fun q => ?_⟩
      simp [Ready.setList]
  · rw [List.getLast?_concat] at hlinked ⊢
    cases back with
    | nil =>
      refine ⟨_, rfl, h.setList (by rwa [Links.remove_last]) (by simpa using hremove), rfl,
        fun q => ?_⟩
      simp [Ready.setList]
    | cons next back =>
      refine ⟨_, rfl, h.setList (by rwa [Links.remove_between]) (by simpa using hremove), rfl,
        fun q => ?_⟩
      simp [Ready.setList]

/-- The first task of a list goes to its end. -/
theorem Ready.Listed.moveHeadToTail (h : r.Listed lists) :
    ∃ r', osRdyListMoveHeadToTail prio r = some r' ∧
      r'.Listed (Function.update lists prio ((lists prio).rotate 1)) ∧
      r'.prioTbl = r.prioTbl := by
  have hends := h.ends prio
  have hnodup := h.linked.nodup prio
  unfold osRdyListMoveHeadToTail
  dsimp only
  rw [hends.nbr, hends.head, hends.tail]
  match htasks : lists prio with
  | [] | [p] =>
    refine ⟨r, rfl, ?_, rfl⟩
    have hsame : Function.update lists prio ((lists prio).rotate 1) = lists := by
      rw [Function.update_eq_self_iff, htasks]
      simp
    rw [htasks] at hsame
    rwa [hsame]
  | p1 :: p3 :: rest =>
    rw [htasks] at hnodup
    have hlinked := h.linked.rotate htasks
    obtain ⟨hnext, -⟩ := h.linked.links prio [] p1 (p3 :: rest) htasks
    have hne : p3 ≠ p1 := (List.ne_of_not_mem_cons (List.nodup_cons.mp hnodup).1).symm
    rw [List.rotate_cons_succ, List.rotate_zero]
    cases rest with
    | nil =>
      refine ⟨_, rfl, h.setList ?_ ⟨rfl, rfl, ?_⟩, rfl⟩
      swap
      · rw [hends.nbr, htasks]
        rfl
      have hswap : (((r.links.setPrev p1 (some p3)).setNext p1 none).setPrev p3 none).setNext p3
          (some p1) = (r.links.remove none p1 (some p3)).insert (some p3) p1 none := by
        rw [← Links.rotate hne]
        simp only [Links.setNext, Links.setPrev, Function.update_comm hne.symm]
      exact hswap ▸ hlinked
    | cons p4 rest =>
      obtain ⟨front, last, hrest⟩ := (List.eq_nil_or_concat' (p4 :: rest)).resolve_left (by simp)
      have hlast : (p1 :: p3 :: p4 :: rest).getLast? = some last := by
        rw [hrest, ← List.cons_append, ← List.cons_append, List.getLast?_concat]
      have hback : (p3 :: p4 :: rest).getLast? = some last := by
        rw [hrest, ← List.cons_append, List.getLast?_concat]
      have hlastne : last ≠ p1 := by
        rintro rfl
        exact (List.nodup_cons.mp hnodup).1 (List.mem_of_mem_getLast? hback)
      rw [hback] at hlinked
      rw [hlast]
      dsimp only [List.length_cons, List.head?_cons, Option.bind_eq_bind, Option.bind_some]
      rw [hnext]
      refine ⟨_, rfl, h.setList ?_ ⟨rfl, ?_, ?_⟩, rfl⟩
      · rwa [Links.rotate hlastne]
      · rw [List.getLast?_concat]
      · rw [hends.nbr, htasks, List.length_append]
        rfl

omit [DecidableEq τ] in
theorem Ready.Refines.init : (Ready.init : Ready τ).Refines fun _ => [] := by
  refine ⟨⟨.empty, fun _ => ⟨rfl, rfl, rfl⟩⟩, fun prio => iff_of_false ?_ (by simp)⟩
  rintro ⟨word, hword, hbit⟩
  have hzero : word = 0 := List.eq_of_mem_replicate (List.mem_of_getElem? hword)
  rw [hzero] at hbit
  simp at hbit

/-- **A task is made ready**: behind the others of the running priority, in front of those of
another one. -/
theorem Ready.Refines.insert (h : r.Refines lists) (prioCur : Nat) (hp : ∀ q, p ∉ lists q)
    (hprio : prio < 32 * r.prioTbl.length) (hfew : (lists prio).length + 1 < UInt16.size) :
    ∃ r', osRdyListInsert prioCur prio p r = some r' ∧
      r'.Refines (Function.update lists prio
        (if prio = prioCur then lists prio ++ [p] else p :: lists prio)) ∧
      r'.prioTbl.length = r.prioTbl.length := by
  obtain ⟨tbl, htbl, hlen, hset⟩ := osPrioInsert_spec hprio
  have hmarked : ({ r with prioTbl := tbl } : Ready τ).Listed lists := ⟨h.linked, h.ends⟩
  have hexact : ∀ {tasks : List τ}, tasks ≠ [] → ∀ q,
      PrioSet tbl q ↔ Function.update lists prio tasks q ≠ [] := by
    intro tasks hne q
    rw [hset, h.exact]
    by_cases hq : q = prio
    · subst hq
      simpa using hne
    · simp [hq]
  rw [osRdyListInsert, htbl, Option.bind_some]
  by_cases hcur : prio = prioCur
  · rw [if_pos hcur, if_pos hcur]
    obtain ⟨r', hinsert, hlisted, htbl'⟩ := hmarked.insertTail hp hfew
    exact ⟨r', hinsert, ⟨hlisted, htbl' ▸ hexact (by simp)⟩, by rw [htbl']; exact hlen⟩
  · rw [if_neg hcur, if_neg hcur]
    obtain ⟨r', hinsert, hlisted, htbl'⟩ := hmarked.insertHead hp hfew
    exact ⟨r', hinsert, ⟨hlisted, htbl' ▸ hexact (by simp)⟩, by rw [htbl']; exact hlen⟩

theorem Ready.Refines.remove {front back : List τ} (h : r.Refines lists)
    (htasks : lists prio = front ++ p :: back) (hprio : prio < 32 * r.prioTbl.length) :
    ∃ r', osRdyListRemove prio p r = some r' ∧
      r'.Refines (Function.update lists prio (front ++ back)) ∧
      r'.prioTbl.length = r.prioTbl.length := by
  obtain ⟨r', hremove, hlisted, hlen, hset⟩ := h.toListed.remove htasks hprio
  refine ⟨r', hremove, ⟨hlisted, fun q => ?_⟩, hlen⟩
  rw [hset, h.exact]
  by_cases hq : q = prio
  · subst hq
    simp [htasks]
  · simp [hq]

theorem Ready.Refines.moveHeadToTail (h : r.Refines lists) :
    ∃ r', osRdyListMoveHeadToTail prio r = some r' ∧
      r'.Refines (Function.update lists prio ((lists prio).rotate 1)) ∧
      r'.prioTbl = r.prioTbl := by
  obtain ⟨r', hmove, hlisted, htbl⟩ := h.toListed.moveHeadToTail
  refine ⟨r', hmove, ⟨hlisted, fun q => ?_⟩, htbl⟩
  rw [htbl, h.exact]
  by_cases hq : q = prio
  · subst hq
    rw [Function.update_self, ne_eq, ne_eq, List.rotate_eq_nil_iff]
  · rw [Function.update_of_ne hq]

omit [DecidableEq τ] in
/-- **The highest priority** that is ready is the least number whose list is not empty. -/
theorem Ready.Refines.highest (h : r.Refines lists) (hne : lists prio ≠ []) :
    ∃ p, osPrioGetHighest r.prioTbl = some p ∧ lists p ≠ [] ∧ ∀ q, lists q ≠ [] → p ≤ q := by
  obtain ⟨p, hget, hp, hleast⟩ := osPrioGetHighest_spec ((h.exact prio).mpr hne)
  exact ⟨p, hget, (h.exact p).mp hp, fun q hq => hleast q ((h.exact q).mpr hq)⟩

end Lists

end Generalplate.Ucos
