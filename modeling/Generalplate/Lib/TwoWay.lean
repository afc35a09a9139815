import Mathlib.Data.List.Nodup
import Mathlib.Logic.Function.Basic

/-! # Doubly linked lists

Cells with a link each way, in lists that share no cell. A cell is put between two
neighbours of its list, or taken from between them; the links of no other cell change. -/
namespace Generalplate.Lib.TwoWay

/-- The links of the cells. -/
@[ext] structure Links (ι : Type*) where
  next : ι → Option ι
  prev : ι → Option ι

section Cells
variable {ι : Type*} [DecidableEq ι] {l : Links ι} {i j k : ι}

def Links.setNext (l : Links ι) (i : ι) (p : Option ι) : Links ι :=
  { l with next := Function.update l.next i p }

def Links.setPrev (l : Links ι) (i : ι) (p : Option ι) : Links ι :=
  { l with prev := Function.update l.prev i p }

/-- The cell between the neighbours `p` and `n`. -/
def Links.insert (l : Links ι) (p : Option ι) (i : ι) (n : Option ι) : Links ι where
  next j := if p = some j then some i else if j = i then n else l.next j
  prev j := if n = some j then some i else if j = i then p else l.prev j

/-- The cell taken from between its neighbours `p` and `n`, its own links cleared. -/
def Links.remove (l : Links ι) (p : Option ι) (i : ι) (n : Option ι) : Links ι where
  next j := if j = i then none else if p = some j then n else l.next j
  prev j := if j = i then none else if n = some j then p else l.prev j

/-- The first cell from `i` on that is to stop at; none when the links go on for too long. -/
def Links.walk (l : Links ι) (stop : ι → Bool) : Nat → Option ι → Option (Option ι)
  | 0, _ => none
  | _ + 1, none => some none
  | fuel + 1, some i => if stop i then some (some i) else l.walk stop fuel (l.next i)

/-! What is written for it, at the ends of a list and inside. -/

theorem Links.setNext_setPrev {p n : Option ι} :
    (l.setNext i n).setPrev j p = (l.setPrev j p).setNext i n := rfl

theorem Links.insert_alone : (l.setNext i none).setPrev i none = l.insert none i none := by
  simp only [insert, setNext, setPrev, mk.injEq]
  grind

theorem Links.insert_first (hj : j ≠ i) :
    ((l.setNext i (some j)).setPrev i none).setPrev j (some i) = l.insert none i (some j) := by
  simp only [insert, setNext, setPrev, mk.injEq]
  grind

theorem Links.insert_last (hj : j ≠ i) :
    ((l.setNext i none).setPrev i (some j)).setNext j (some i) = l.insert (some j) i none := by
  simp only [insert, setNext, setPrev, mk.injEq]
  grind

theorem Links.insert_between (hj : j ≠ i) (hk : k ≠ i) :
    (((l.setPrev i (some j)).setNext i (some k)).setNext j (some i)).setPrev k (some i) =
      l.insert (some j) i (some k) := by
  simp only [insert, setNext, setPrev, mk.injEq]
  grind

theorem Links.remove_alone : (l.setPrev i none).setNext i none = l.remove none i none := by
  simp only [remove, setNext, setPrev, mk.injEq]
  grind

theorem Links.remove_first :
    ((l.setPrev k none).setPrev i none).setNext i none = l.remove none i (some k) := by
  simp only [remove, setNext, setPrev, mk.injEq]
  grind

theorem Links.remove_last :
    ((l.setNext j none).setPrev i none).setNext i none = l.remove (some j) i none := by
  simp only [remove, setNext, setPrev, mk.injEq]
  grind

theorem Links.remove_between :
    (((l.setNext j (some k)).setPrev k (some j)).setPrev i none).setNext i none =
      l.remove (some j) i (some k) := by
  simp only [remove, setNext, setPrev, mk.injEq]
  grind

/-- The first cell goes behind the last one. -/
theorem Links.rotate (hj : j ≠ i) :
    (((l.setPrev k none).setNext i none).setPrev i (some j)).setNext j (some i) =
      (l.remove none i (some k)).insert (some j) i none := by
  simp only [insert, remove, setNext, setPrev, mk.injEq]
  grind

end Cells

/-- Lists of cells that share none, with the links of their neighbours. -/
structure Linked {ι α : Type*} (l : Links ι) (cells : α → List ι) : Prop where
  nodup : ∀ a, (cells a).Nodup
  apart : ∀ a b i, i ∈ cells a → i ∈ cells b → a = b
  links : ∀ a front i back, cells a = front ++ i :: back →
    l.next i = back.head? ∧ l.prev i = front.getLast?

section Split
variable {ι α : Type*} {l : Links ι} {i j : ι} {front back fs bs ms : List ι}

theorem Linked.empty : Linked l (fun _ : α => ([] : List ι)) where
  nodup _ := List.nodup_nil
  apart _ _ _ hi := nomatch hi
  links _ _ _ _ hcells :=
    absurd hcells.symm (List.append_ne_nil_of_right_ne_nil _ (List.cons_ne_nil _ _))

/-- Where a cell stands in a list that `i` is put into. -/
theorem split_insert (hcells : front ++ i :: back = fs ++ j :: bs) :
    (j = i ∧ fs = front ∧ bs = back) ∨ (∃ ms, front = fs ++ j :: ms ∧ bs = ms ++ i :: back) ∨
      ∃ ms, back = ms ++ j :: bs ∧ fs = front ++ i :: ms := by
  rcases List.append_eq_append_iff.mp hcells with ⟨ms, hfs, hback⟩ | ⟨ms, hfront, hback⟩
  · cases ms with
    | nil =>
      obtain ⟨rfl, rfl⟩ := List.cons.inj hback
      exact Or.inl ⟨rfl, by rw [hfs, List.append_nil], rfl⟩
    | cons m ms =>
      obtain ⟨rfl, htail⟩ := List.cons.inj hback
      exact Or.inr (Or.inr ⟨ms, htail, hfs⟩)
  · cases ms with
    | nil =>
      obtain ⟨rfl, rfl⟩ := List.cons.inj hback
      exact Or.inl ⟨rfl, by rw [hfront, List.append_nil], rfl⟩
    | cons m ms =>
      obtain ⟨rfl, htail⟩ := List.cons.inj hback
      exact Or.inr (Or.inl ⟨ms, hfront, htail⟩)

/-- Where a cell stands in the two parts of a list. -/
theorem split_append (hcells : front ++ back = fs ++ j :: bs) :
    (∃ ms, front = fs ++ j :: ms ∧ bs = ms ++ back) ∨
      ∃ ms, back = ms ++ j :: bs ∧ fs = front ++ ms := by
  rcases List.append_eq_append_iff.mp hcells with ⟨ms, hfs, hback⟩ | ⟨ms, hfront, hback⟩
  · exact Or.inr ⟨ms, hback, hfs⟩
  · cases ms with
    | nil => exact Or.inr ⟨[], hback.symm, by rw [hfront, List.append_nil, List.append_nil]⟩
    | cons m ms =>
      obtain ⟨rfl, htail⟩ := List.cons.inj hback
      exact Or.inl ⟨ms, hfront, htail⟩

/-- Only its last cell ends a list. -/
theorem getLast?_split (h : (fs ++ j :: ms).Nodup) :
    (fs ++ j :: ms).getLast? = some j ↔ ms = [] := by
  rw [List.getLast?_append_of_ne_nil _ (List.cons_ne_nil _ _)]
  constructor
  · intro hlast
    cases ms with
    | nil => rfl
    | cons m ms =>
      rw [List.getLast?_cons_cons] at hlast
      have hnot := (List.nodup_cons.mp (List.nodup_append'.mp h).2.1).1
      exact absurd (List.mem_of_mem_getLast? hlast) hnot
  · rintro rfl
    rfl

/-- Only its first cell begins a list. -/
theorem head?_split (h : (fs ++ j :: ms).Nodup) :
    (fs ++ j :: ms).head? = some j ↔ fs = [] := by
  constructor
  · intro hhead
    cases fs with
    | nil => rfl
    | cons f fs =>
      rw [List.cons_append, List.head?_cons, Option.some.injEq] at hhead
      subst hhead
      have hnot := (List.nodup_cons.mp h).1
      exact absurd (List.mem_append_right _ (List.mem_cons_self ..)) hnot
  · rintro rfl
    rfl

end Split

section Lists
variable {ι α : Type*} [DecidableEq ι] [DecidableEq α] {l : Links ι} {cells : α → List ι}
  {a : α} {i : ι} {front back : List ι}

omit [DecidableEq ι] [DecidableEq α] in
/-- A cell of another list is no neighbour in this one. -/
theorem Linked.not_neighbour (h : Linked l cells) {b : α} {j : ι} (hj : j ∈ cells b)
    (hb : b ≠ a) {cs : List ι} (hcs : cs ⊆ cells a) :
    cs.head? ≠ some j ∧ cs.getLast? ≠ some j :=
  ⟨fun hhead => hb (h.apart b a j hj (hcs (List.mem_of_mem_head? hhead))),
    fun hlast => hb (h.apart b a j hj (hcs (List.mem_of_mem_getLast? hlast)))⟩

omit [DecidableEq ι] [DecidableEq α] in
/-- A walk along a list finds its first cell to stop at. -/
theorem Linked.walk (h : Linked l cells) (stop : ι → Bool) (hcells : cells a = front ++ back)
    {fuel : Nat} (hfuel : back.length < fuel) :
    l.walk stop fuel back.head? = some (back.dropWhile fun i => !stop i).head? := by
  induction back generalizing front fuel with
  | nil =>
    obtain ⟨fuel, rfl⟩ := Nat.exists_eq_succ_of_ne_zero (Nat.ne_of_gt hfuel)
    rfl
  | cons i back ih =>
    obtain ⟨fuel, rfl⟩ := Nat.exists_eq_succ_of_ne_zero (Nat.ne_of_gt (Nat.zero_lt_of_lt hfuel))
    rw [List.head?_cons, Links.walk]
    cases hstop : stop i with
    | true => simp [hstop]
    | false =>
      have hrest : cells a = front ++ [i] ++ back := by
        rw [hcells]
        simp
      rw [if_neg Bool.false_ne_true, (h.links a front i back hcells).1,
        ih hrest (Nat.lt_of_succ_lt_succ hfuel)]
      simp [hstop]

/-- **A cell is put into a list** between two neighbours. -/
theorem Linked.insert (h : Linked l cells) (hcells : cells a = front ++ back)
    (hi : ∀ b, i ∉ cells b) :
    Linked (l.insert front.getLast? i back.head?)
      (Function.update cells a (front ++ i :: back)) := by
  have hnodup := h.nodup a
  have hia := hi a
  rw [hcells] at hnodup hia
  obtain ⟨hfront, hback, hdisj⟩ := List.nodup_append'.mp hnodup
  have hother : ∀ b j, j ∈ Function.update cells a (front ++ i :: back) b →
      (b = a ∧ j = i) ∨ j ∈ cells b := by
    intro b j hj
    by_cases hb : b = a
    · subst hb
      rw [Function.update_self, List.mem_append, List.mem_cons] at hj
      rw [hcells, List.mem_append]
      tauto
    · rw [Function.update_of_ne hb] at hj
      exact Or.inr hj
  refine ⟨fun b => ?_, fun b c j hb hc => ?_, fun b fs j bs hsplit => ?_⟩
  · by_cases hb : b = a
    · subst hb
      rw [Function.update_self]
      exact List.nodup_middle.mpr (List.nodup_cons.mpr ⟨hia, hnodup⟩)
    · rw [Function.update_of_ne hb]
      exact h.nodup b
  · rcases hother b j hb with ⟨rfl, rfl⟩ | hjb <;> rcases hother c j hc with ⟨rfl, hji⟩ | hjc
    · rfl
    · exact absurd hjc (hi c)
    · exact absurd (hji ▸ hjb) (hi b)
    · exact h.apart b c j hjb hjc
  by_cases hb : b = a
  · subst hb
    rw [Function.update_self] at hsplit
    rcases split_insert hsplit with ⟨rfl, rfl, rfl⟩ | ⟨ms, rfl, rfl⟩ | ⟨ms, rfl, rfl⟩
    · have hlast : fs.getLast? ≠ some j := fun hlast =>
        hia (List.mem_append_left _ (List.mem_of_mem_getLast? hlast))
      have hhead : bs.head? ≠ some j := fun hhead =>
        hia (List.mem_append_right _ (List.mem_of_mem_head? hhead))
      simp only [Links.insert, if_neg hlast, if_neg hhead, if_true, and_self]
    · have hji : j ≠ i := fun hji => hia (hji ▸ by simp)
      have hhead : back.head? ≠ some j := fun hhead =>
        hdisj (List.mem_append_right _ (List.mem_cons_self ..)) (List.mem_of_mem_head? hhead)
      obtain ⟨hnext, hprev⟩ := h.links b fs j (ms ++ back) (by rw [hcells]; simp)
      simp only [Links.insert, getLast?_split hfront, if_neg hji, if_neg hhead]
      refine ⟨?_, hprev⟩
      cases ms with
      | nil => rfl
      | cons m ms =>
        rw [if_neg (List.cons_ne_nil _ _), hnext]
        rfl
    · have hji : j ≠ i := fun hji => hia (hji ▸ by simp)
      have hlast : front.getLast? ≠ some j := fun hlast =>
        hdisj (List.mem_of_mem_getLast? hlast) (List.mem_append_right _ (List.mem_cons_self ..))
      obtain ⟨hnext, hprev⟩ := h.links b (front ++ ms) j bs (by rw [hcells]; simp)
      simp only [Links.insert, head?_split hback, if_neg hji, if_neg hlast]
      refine ⟨hnext, ?_⟩
      rw [List.getLast?_append_of_ne_nil _ (List.cons_ne_nil _ _)]
      cases ms with
      | nil => rfl
      | cons m ms =>
        rw [if_neg (List.cons_ne_nil _ _), hprev, List.getLast?_cons_cons,
          List.getLast?_append_of_ne_nil _ (List.cons_ne_nil _ _)]
  · rw [Function.update_of_ne hb] at hsplit
    have hj : j ∈ cells b := hsplit ▸ List.mem_append_right _ (List.mem_cons_self ..)
    have hji : j ≠ i := fun hji => hi b (hji ▸ hj)
    have hlast := (h.not_neighbour hj hb (hcells ▸ List.subset_append_left ..)).2
    have hhead := (h.not_neighbour hj hb (hcells ▸ List.subset_append_right ..)).1
    simp only [Links.insert, if_neg hlast, if_neg hhead, if_neg hji]
    exact h.links b fs j bs hsplit

/-- **A cell is taken off its list**, from between its neighbours. -/
theorem Linked.remove (h : Linked l cells) (hcells : cells a = front ++ i :: back) :
    Linked (l.remove front.getLast? i back.head?) (Function.update cells a (front ++ back)) := by
  have hnodup := h.nodup a
  rw [hcells] at hnodup
  obtain ⟨hi, hboth⟩ := List.nodup_cons.mp (List.nodup_middle.mp hnodup)
  obtain ⟨hfront, hback, hdisj⟩ := List.nodup_append'.mp hboth
  have hsub : ∀ b j, j ∈ Function.update cells a (front ++ back) b → j ∈ cells b := by
    intro b j hj
    by_cases hb : b = a
    · subst hb
      rw [Function.update_self, List.mem_append] at hj
      rw [hcells, List.mem_append, List.mem_cons]
      tauto
    · rwa [Function.update_of_ne hb] at hj
  refine ⟨fun b => ?_, fun b c j hb hc => h.apart b c j (hsub b j hb) (hsub c j hc),
    fun b fs j bs hsplit => ?_⟩
  · by_cases hb : b = a
    · subst hb
      rwa [Function.update_self]
    · rw [Function.update_of_ne hb]
      exact h.nodup b
  by_cases hb : b = a
  · subst hb
    rw [Function.update_self] at hsplit
    have hj : j ∈ front ++ back := hsplit ▸ List.mem_append_right _ (List.mem_cons_self ..)
    have hji : j ≠ i := fun hji => hi (hji ▸ hj)
    rcases split_append hsplit with ⟨ms, rfl, rfl⟩ | ⟨ms, rfl, rfl⟩
    · have hhead : back.head? ≠ some j := fun hhead =>
        hdisj (List.mem_append_right _ (List.mem_cons_self ..)) (List.mem_of_mem_head? hhead)
      obtain ⟨hnext, hprev⟩ := h.links b fs j (ms ++ i :: back) (by rw [hcells]; simp)
      simp only [Links.remove, getLast?_split hfront, if_neg hji, if_neg hhead]
      refine ⟨?_, hprev⟩
      cases ms with
      | nil => rfl
      | cons m ms =>
        rw [if_neg (List.cons_ne_nil _ _), hnext]
        rfl
    · have hlast : front.getLast? ≠ some j := fun hlast =>
        hdisj (List.mem_of_mem_getLast? hlast) (List.mem_append_right _ (List.mem_cons_self ..))
      obtain ⟨hnext, hprev⟩ := h.links b (front ++ i :: ms) j bs (by rw [hcells]; simp)
      simp only [Links.remove, head?_split hback, if_neg hji, if_neg hlast]
      refine ⟨hnext, ?_⟩
      cases ms with
      | nil => rw [if_pos rfl, List.append_nil]
      | cons m ms =>
        rw [if_neg (List.cons_ne_nil _ _), hprev,
          List.getLast?_append_of_ne_nil _ (List.cons_ne_nil _ _), List.getLast?_cons_cons,
          List.getLast?_append_of_ne_nil _ (List.cons_ne_nil _ _)]
  · rw [Function.update_of_ne hb] at hsplit
    have hj : j ∈ cells b := hsplit ▸ List.mem_append_right _ (List.mem_cons_self ..)
    have hji : j ≠ i := fun hji => hb (h.apart b a j hj (by rw [hcells, hji]; simp))
    have hlast := (h.not_neighbour hj hb (hcells ▸ List.subset_append_left ..)).2
    have hcons : back ⊆ cells a := hcells ▸ fun x hx =>
      List.mem_append_right _ (List.mem_cons_of_mem _ hx)
    have hhead := (h.not_neighbour hj hb hcons).1
    simp only [Links.remove, if_neg hlast, if_neg hhead, if_neg hji]
    exact h.links b fs j bs hsplit

omit [DecidableEq ι] in
/-- A cell that is taken off its list is in none. -/
theorem Linked.removed (h : Linked l cells) (hcells : cells a = front ++ i :: back) (b : α) :
    i ∉ Function.update cells a (front ++ back) b := by
  have hnodup := h.nodup a
  rw [hcells] at hnodup
  by_cases hb : b = a
  · subst hb
    rw [Function.update_self]
    exact (List.nodup_cons.mp (List.nodup_middle.mp hnodup)).1
  · rw [Function.update_of_ne hb]
    exact fun hi => hb (h.apart b a i hi (by rw [hcells]; simp))

/-- The lists without the cell. -/
theorem Linked.erase (h : Linked l cells) (hcells : cells a = front ++ i :: back) :
    Function.update cells a (front ++ back) = fun b => (cells b).erase i := by
  have hnodup := h.nodup a
  rw [hcells] at hnodup
  obtain ⟨hi, -⟩ := List.nodup_cons.mp (List.nodup_middle.mp hnodup)
  funext b
  by_cases hb : b = a
  · subst hb
    rw [Function.update_self, hcells, List.erase_append_right _ (fun hf =>
      hi (List.mem_append_left _ hf)), List.erase_cons_head]
  · have hout : i ∉ cells b := fun hib => hb (h.apart b a i hib (by rw [hcells]; simp))
    rw [Function.update_of_ne hb, List.erase_of_not_mem hout]

omit [DecidableEq ι] [DecidableEq α] in
/-- Only the links of the cells in the lists count. -/
theorem Linked.congr {l' : Links ι} (h : Linked l cells)
    (hl : ∀ b j, j ∈ cells b → l'.next j = l.next j ∧ l'.prev j = l.prev j) : Linked l' cells := by
  refine ⟨h.nodup, h.apart, fun b fs j bs hsplit => ?_⟩
  obtain ⟨hnext, hprev⟩ := hl b j (hsplit ▸ List.mem_append_right _ (List.mem_cons_self ..))
  rw [hnext, hprev]
  exact h.links b fs j bs hsplit

/-- **The first cell of a list goes to its end.** -/
theorem Linked.rotate (h : Linked l cells) (hcells : cells a = i :: back) :
    Linked ((l.remove none i back.head?).insert back.getLast? i none)
      (Function.update cells a (back ++ [i])) := by
  have hfront : cells a = [] ++ i :: back := hcells
  have hback : Function.update cells a ([] ++ back) a = back ++ [] := by
    rw [Function.update_self, List.nil_append, List.append_nil]
  have hinsert := (h.remove hfront).insert hback (h.removed hfront)
  rwa [Function.update_idem] at hinsert

end Lists

end Generalplate.Lib.TwoWay
