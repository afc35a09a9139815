import Mathlib.Data.List.Nodup
import Mathlib.Logic.Function.Basic

/-! # Linked lists

Cells that lead to one another from a pointer on. Where the last of them leads to is left
open: a list that is counted need not end in a null pointer. Lists that share no cell keep
that when a cell is taken off one of them and put to another. -/
namespace Generalplate.Lib.Chain

variable {ι : Type*}

/-- The cells follow one another from `p` on. -/
def Follows (next : ι → Option ι) : Option ι → List ι → Prop
  | _, [] => True
  | p, c :: cs => p = some c ∧ Follows next (next c) cs

section Follows
variable {next next' : ι → Option ι} {p : Option ι} {c d : ι} {cs ds : List ι}

/-- **Frame.** Only the links of the cells count, but for the last one's. -/
theorem Follows.congr (h : Follows next p cs) (hsame : ∀ c ∈ cs.dropLast, next' c = next c) :
    Follows next' p cs := by
  induction cs generalizing p with
  | nil => trivial
  | cons c cs ih =>
    cases cs with
    | nil => exact ⟨h.1, trivial⟩
    | cons d cs =>
      rw [List.dropLast_cons_cons, List.forall_mem_cons] at hsame
      exact ⟨h.1, by rw [hsame.1]; exact ih h.2 hsame.2⟩

theorem Follows.congr_mem (h : Follows next p cs) (hsame : ∀ c ∈ cs, next' c = next c) :
    Follows next' p cs :=
  h.congr fun c hc => hsame c (List.dropLast_subset cs hc)

/-- The last cell leads on to others. -/
theorem Follows.append (h : Follows next p (cs ++ [c])) (hds : Follows next (next c) ds) :
    Follows next p (cs ++ [c] ++ ds) := by
  induction cs generalizing p with
  | nil => exact ⟨h.1, hds⟩
  | cons e cs ih => exact ⟨h.1, ih h.2⟩

end Follows

/-- Lists of cells, each from its head on, that share none. -/
structure Linked {α : Type*} (next : ι → Option ι) (head : α → Option ι) (cells : α → List ι) :
    Prop where
  follows : ∀ a, Follows next (head a) (cells a)
  nodup : ∀ a, (cells a).Nodup
  apart : ∀ a b i, i ∈ cells a → i ∈ cells b → a = b

section Linked
variable {α : Type*} [DecidableEq α] {next next' : ι → Option ι} {head head' : α → Option ι}
  {cells : α → List ι} {a b : α} {c d : ι} {cs ds : List ι}

/-- Lists without cells. -/
theorem Linked.single (hfollows : Follows next (head a) cs) (hcs : cs.Nodup) :
    Linked next head (Function.update (fun _ => []) a cs) := by
  have hother : ∀ {x}, x ≠ a → Function.update (fun _ => []) a cs x = [] := fun hx =>
    Function.update_of_ne hx ..
  have hmem : ∀ {x i}, i ∈ Function.update (fun _ => []) a cs x → x = a := by
    intro x i hi
    by_contra hx
    rw [hother hx] at hi
    cases hi
  refine ⟨fun x => ?_, fun x => ?_, fun x y i hx hy => (hmem hx).trans (hmem hy).symm⟩
  · by_cases hx : x = a
    · subst hx
      rwa [Function.update_self]
    · rw [hother hx]
      trivial
  · by_cases hx : x = a
    · subst hx
      rwa [Function.update_self]
    · rw [hother hx]
      exact List.nodup_nil

/-- The lists behind a move of the first cell of `a` to `b`. -/
def moved (cells : α → List ι) (a b : α) (cs bs : List ι) : α → List ι :=
  Function.update (Function.update cells a cs) b bs

theorem moved_other {bs : List ι} {x : α} (ha : x ≠ a) (hb : x ≠ b) :
    moved cells a b cs bs x = cells x := by
  rw [moved, Function.update_of_ne hb, Function.update_of_ne ha]

theorem moved_from {bs : List ι} (hab : a ≠ b) : moved cells a b cs bs a = cs := by
  rw [moved, Function.update_of_ne hab, Function.update_self]

theorem moved_to {bs : List ι} : moved cells a b cs bs b = bs := Function.update_self ..

/-- Lists stay apart when cells of `a` are moved to `b`. -/
theorem Linked.moved_apart (h : Linked next head cells) (hab : a ≠ b) {bs : List ι}
    (hcs : ∀ i ∈ cs, i ∈ cells a ∧ i ∉ bs) (hbs : ∀ i ∈ bs, i ∈ cells a ∨ i ∈ cells b) :
    ∀ x y i, i ∈ moved cells a b cs bs x → i ∈ moved cells a b cs bs y → x = y := by
  have hplace : ∀ x i, i ∈ moved cells a b cs bs x →
      x = b ∧ i ∈ bs ∨ x ≠ b ∧ i ∈ cells x ∧ i ∉ bs := by
    intro x i hi
    by_cases hxb : x = b
    · subst hxb
      rw [moved_to] at hi
      exact Or.inl ⟨rfl, hi⟩
    · refine Or.inr ⟨hxb, ?_⟩
      by_cases hxa : x = a
      · subst hxa
        rw [moved_from hab] at hi
        exact hcs i hi
      · rw [moved_other hxa hxb] at hi
        refine ⟨hi, fun hbi => ?_⟩
        rcases hbs i hbi with hia | hib
        · exact hxa (h.apart x a i hi hia)
        · exact hxb (h.apart x b i hi hib)
  intro x y i hx hy
  rcases hplace x i hx with ⟨rfl, hbx⟩ | ⟨-, hix, hnx⟩ <;>
    rcases hplace y i hy with ⟨rfl, hby⟩ | ⟨-, hiy, hny⟩
  · rfl
  · exact absurd hbx hny
  · exact absurd hby hnx
  · exact h.apart x y i hix hiy

/-- **The first cell of a list** is put in front of another. -/
theorem Linked.move_front (h : Linked next head cells) (hab : a ≠ b) (ha : cells a = c :: cs)
    (hsame : ∀ i, i ≠ c → next' i = next i) (hlink : cells b ≠ [] → next' c = head b)
    (hfrom : head' a = next c) (hto : head' b = some c)
    (hother : ∀ x, x ≠ a → x ≠ b → head' x = head x) :
    Linked next' head' (moved cells a b cs (c :: cells b)) := by
  have hnodup := h.nodup a
  rw [ha] at hnodup
  obtain ⟨hc, hcs⟩ := List.nodup_cons.mp hnodup
  have hca : c ∈ cells a := by
    rw [ha]
    exact List.mem_cons_self
  have hcb : ∀ x, x ≠ a → c ∉ cells x := fun x hx hmem => hx (h.apart x a c hmem hca)
  have hkeep : ∀ {l : List ι} {p : Option ι}, c ∉ l → Follows next p l → Follows next' p l := by
    intro l p hl hp
    refine hp.congr_mem fun i hi => hsame i ?_
    rintro rfl
    exact hl hi
  refine ⟨fun x => ?_, fun x => ?_, h.moved_apart hab (fun i hi => ⟨?_, ?_⟩) fun i hi => ?_⟩
  · by_cases hxb : x = b
    · subst hxb
      rw [moved_to]
      refine ⟨hto, ?_⟩
      by_cases hnil : cells x = []
      · rw [hnil]
        trivial
      · rw [hlink hnil]
        exact hkeep (hcb x (Ne.symm hab)) (h.follows x)
    · by_cases hxa : x = a
      · subst hxa
        have hfollows := h.follows x
        rw [ha] at hfollows
        rw [moved_from hab, hfrom]
        exact hkeep hc hfollows.2
      · rw [moved_other hxa hxb, hother x hxa hxb]
        exact hkeep (hcb x hxa) (h.follows x)
  · by_cases hxb : x = b
    · subst hxb
      rw [moved_to]
      exact List.nodup_cons.mpr ⟨hcb x (Ne.symm hab), h.nodup x⟩
    · by_cases hxa : x = a
      · subst hxa
        rwa [moved_from hab]
      · rw [moved_other hxa hxb]
        exact h.nodup x
  · rw [ha]
    exact List.mem_cons_of_mem c hi
  · rw [List.mem_cons, not_or]
    refine ⟨fun hic => hc (hic ▸ hi), fun hib => hab (h.apart a b i ?_ hib)⟩
    rw [ha]
    exact List.mem_cons_of_mem c hi
  · rcases List.mem_cons.mp hi with rfl | hi
    · exact Or.inl hca
    · exact Or.inr hi

/-- **The first cell of a list** is put behind the last one of another. -/
theorem Linked.move_back (h : Linked next head cells) (hab : a ≠ b) (ha : cells a = c :: cs)
    (hb : cells b = ds ++ [d]) (hsame : ∀ i, i ≠ c → i ≠ d → next' i = next i)
    (hlink : next' d = some c) (hfrom : head' a = next c)
    (hother : ∀ x, x ≠ a → head' x = head x) :
    Linked next' head' (moved cells a b cs (cells b ++ [c])) := by
  have hnodup := h.nodup a
  rw [ha] at hnodup
  obtain ⟨hc, hcs⟩ := List.nodup_cons.mp hnodup
  have hca : c ∈ cells a := by
    rw [ha]
    exact List.mem_cons_self
  have hdb : d ∈ cells b := by
    rw [hb]
    exact List.mem_append_right ds (List.mem_singleton_self d)
  have hcb : ∀ x, x ≠ a → c ∉ cells x := fun x hx hmem => hx (h.apart x a c hmem hca)
  have hdx : ∀ x, x ≠ b → d ∉ cells x := fun x hx hmem => hx (h.apart x b d hmem hdb)
  have hkeep : ∀ {l : List ι} {p : Option ι}, c ∉ l → d ∉ l → Follows next p l →
      Follows next' p l := by
    intro l p hcl hdl hp
    refine hp.congr_mem fun i hi => hsame i ?_ ?_
    · rintro rfl
      exact hcl hi
    · rintro rfl
      exact hdl hi
  have hds : d ∉ ds := by
    have hnodupb := h.nodup b
    rw [hb] at hnodupb
    exact fun hmem => (List.disjoint_of_nodup_append hnodupb) hmem (List.mem_singleton_self d)
  refine ⟨fun x => ?_, fun x => ?_, h.moved_apart hab (fun i hi => ⟨?_, ?_⟩) fun i hi => ?_⟩
  · by_cases hxb : x = b
    · subst hxb
      have hfollows := h.follows x
      have hcx := hcb x (Ne.symm hab)
      rw [hb] at hfollows hcx
      rw [moved_to, hother x (Ne.symm hab), hb]
      refine (hfollows.congr fun i hi => ?_).append ⟨hlink, trivial⟩
      rw [List.dropLast_concat] at hi
      refine hsame i ?_ ?_
      · rintro rfl
        exact hcx (List.mem_append_left _ hi)
      · rintro rfl
        exact hds hi
    · by_cases hxa : x = a
      · subst hxa
        have hfollows := h.follows x
        have hdx' := hdx x hxb
        rw [ha] at hfollows hdx'
        rw [moved_from hab, hfrom]
        exact hkeep hc (fun hmem => hdx' (List.mem_cons_of_mem c hmem)) hfollows.2
      · rw [moved_other hxa hxb, hother x hxa]
        exact hkeep (hcb x hxa) (hdx x hxb) (h.follows x)
  · by_cases hxb : x = b
    · subst hxb
      rw [moved_to]
      exact List.nodup_append'.mpr ⟨h.nodup x, List.nodup_singleton c, by
        rw [List.disjoint_singleton]
        exact hcb x (Ne.symm hab)⟩
    · by_cases hxa : x = a
      · subst hxa
        rwa [moved_from hab]
      · rw [moved_other hxa hxb]
        exact h.nodup x
  · rw [ha]
    exact List.mem_cons_of_mem c hi
  · have hia : i ∈ cells a := by
      rw [ha]
      exact List.mem_cons_of_mem c hi
    rw [List.mem_append, List.mem_singleton, not_or]
    exact ⟨fun hib => hab (h.apart a b i hia hib), fun hic => hc (hic ▸ hi)⟩
  · rcases List.mem_append.mp hi with hi | hi
    · exact Or.inr hi
    · rw [List.mem_singleton.mp hi]
      exact Or.inl hca

/-- **All cells of a list** are put in front of another. -/
theorem Linked.move_all (h : Linked next head cells) (hab : a ≠ b) (ha : cells a = cs ++ [c])
    (hsame : ∀ i, i ≠ c → next' i = next i) (hlink : cells b ≠ [] → next' c = head b)
    (hto : head' b = head a) (hother : ∀ x, x ≠ a → x ≠ b → head' x = head x) :
    Linked next' head' (moved cells a b [] (cells a ++ cells b)) := by
  have hca : c ∈ cells a := by
    rw [ha]
    exact List.mem_append_right cs (List.mem_singleton_self c)
  have hcx : ∀ x, x ≠ a → c ∉ cells x := fun x hx hmem => hx (h.apart x a c hmem hca)
  have hkeep : ∀ x, x ≠ a → Follows next' (head x) (cells x) := by
    intro x hx
    refine (h.follows x).congr_mem fun i hi => hsame i ?_
    rintro rfl
    exact hcx x hx hi
  have hcs : c ∉ cs := by
    have hnodup := h.nodup a
    rw [ha] at hnodup
    exact fun hmem => (List.disjoint_of_nodup_append hnodup) hmem (List.mem_singleton_self c)
  refine ⟨fun x => ?_, fun x => ?_, h.moved_apart hab (fun i hi => nomatch hi) fun i hi =>
    List.mem_append.mp hi⟩
  · by_cases hxb : x = b
    · subst hxb
      have hfollows := h.follows a
      rw [ha] at hfollows
      rw [moved_to, hto, ha]
      refine (hfollows.congr fun i hi => ?_).append ?_
      · rw [List.dropLast_concat] at hi
        refine hsame i ?_
        rintro rfl
        exact hcs hi
      · by_cases hnil : cells x = []
        · rw [hnil]
          trivial
        · rw [hlink hnil]
          exact hkeep x (Ne.symm hab)
    · by_cases hxa : x = a
      · subst hxa
        rw [moved_from hab]
        trivial
      · rw [moved_other hxa hxb, hother x hxa hxb]
        exact hkeep x hxa
  · by_cases hxb : x = b
    · subst hxb
      rw [moved_to]
      exact List.nodup_append'.mpr
        ⟨h.nodup a, h.nodup x, fun i hia hix => hab (h.apart a x i hia hix)⟩
    · by_cases hxa : x = a
      · subst hxa
        rw [moved_from hab]
        exact List.nodup_nil
      · rw [moved_other hxa hxb]
        exact h.nodup x

end Linked

end Generalplate.Lib.Chain
