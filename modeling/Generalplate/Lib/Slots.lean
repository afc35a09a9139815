import Mathlib.Data.List.Basic
import Mathlib.Logic.Function.Basic

/-! # Slots and their owners

A table of slots, each used or free, and owners that hold at most one slot each. In a table
that is kept right a slot is used just when someone owns it, and by one owner only. -/
namespace Generalplate.Lib.Slots

variable {ι : Type*}

/-- The used slots of the table are those the owners hold, one each. -/
structure Owned (used : List Bool) (slot : ι → Option Nat) : Prop where
  held : ∀ k, used[k]? = some true ↔ ∃ i, slot i = some k
  single : ∀ i j k, slot i = some k → slot j = some k → i = j

theorem Owned.empty (n : Nat) : Owned (List.replicate n false) fun _ : ι => none := by
  refine ⟨fun k => ⟨fun h => ?_, fun ⟨_, h⟩ => nomatch h⟩, fun _ _ _ h => nomatch h⟩
  cases List.eq_of_mem_replicate (List.mem_of_getElem? h)

variable {used : List Bool} {slot : ι → Option Nat} {i : ι} {k : Nat}

/-- A free slot is not held. -/
theorem Owned.not_held (h : Owned used slot) (hfree : used[k]? = some false) (j : ι) :
    slot j ≠ some k := by
  intro hj
  have hused := (h.held k).mpr ⟨j, hj⟩
  rw [hfree] at hused
  cases hused

/-- **Without owners** all slots are free. -/
theorem Owned.all_free (h : Owned used slot) (hnone : ∀ i, slot i = none) :
    used = List.replicate used.length false := by
  refine List.eq_replicate_of_mem fun b hb => ?_
  obtain ⟨k, hk⟩ := List.getElem?_of_mem hb
  cases b with
  | false => rfl
  | true =>
    obtain ⟨i, hi⟩ := (h.held k).mp hk
    rw [hnone i] at hi
    cases hi

section Update
variable [DecidableEq ι]

theorem update_eq_some {o : Option Nat} {j : ι} {m : Nat} :
    Function.update slot i o j = some m ↔ j = i ∧ o = some m ∨ j ≠ i ∧ slot j = some m := by
  by_cases hj : j = i
  · subst hj
    simp
  · rw [Function.update_of_ne hj]
    simp [hj]

/-- **A free slot** is taken by an owner that has none. -/
theorem Owned.take (h : Owned used slot) (hfree : used[k]? = some false) (hi : slot i = none) :
    Owned (used.set k true) (Function.update slot i (some k)) := by
  have hk : k < used.length := (List.getElem?_eq_some_iff.mp hfree).1
  have hne : ∀ {j m}, slot j = some m → j ≠ i := by
    rintro j m hj rfl
    rw [hi] at hj
    cases hj
  constructor
  · intro m
    simp only [update_eq_some]
    by_cases hm : k = m
    · subst hm
      rw [List.getElem?_set_self hk]
      exact iff_of_true rfl ⟨i, Or.inl ⟨rfl, rfl⟩⟩
    · rw [List.getElem?_set_ne hm, h.held m]
      refine exists_congr fun j => ⟨fun hj => Or.inr ⟨hne hj, hj⟩, fun hj => ?_⟩
      rcases hj with ⟨-, hkm⟩ | ⟨-, hj⟩
      · exact absurd (Option.some.inj hkm) hm
      · exact hj
  · intro a b m ha hb
    rw [update_eq_some] at ha hb
    rcases ha with ⟨rfl, ha⟩ | ⟨-, ha⟩ <;> rcases hb with ⟨rfl, hb⟩ | ⟨-, hb⟩
    · rfl
    · cases ha
      exact absurd hb (h.not_held hfree b)
    · cases hb
      exact absurd ha (h.not_held hfree a)
    · exact h.single a b m ha hb

/-- **A slot is given back** by its owner. -/
theorem Owned.give (h : Owned used slot) (hi : slot i = some k) :
    Owned (used.set k false) (Function.update slot i none) := by
  have hk : k < used.length := (List.getElem?_eq_some_iff.mp ((h.held k).mpr ⟨i, hi⟩)).1
  have hupdate : ∀ {j m}, Function.update slot i none j = some m ↔ j ≠ i ∧ slot j = some m := by
    intro j m
    rw [update_eq_some]
    simp
  constructor
  · intro m
    simp only [hupdate]
    by_cases hm : k = m
    · subst hm
      rw [List.getElem?_set_self hk]
      exact iff_of_false (fun hfalse => nomatch hfalse) fun ⟨j, hne, hj⟩ =>
        hne (h.single j i k hj hi)
    · rw [List.getElem?_set_ne hm, h.held m]
      refine exists_congr fun j => ⟨fun hj => ⟨?_, hj⟩, fun hj => hj.2⟩
      rintro rfl
      rw [hi] at hj
      exact hm (Option.some.inj hj)
  · intro a b m ha hb
    exact h.single a b m (hupdate.mp ha).2 (hupdate.mp hb).2

end Update

end Generalplate.Lib.Slots
