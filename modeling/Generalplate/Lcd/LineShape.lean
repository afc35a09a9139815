import Mathlib.Algebra.Order.Field.Rat
import Mathlib.Algebra.Order.Ring.Abs
import Mathlib.Data.List.Chain
import Mathlib.Tactic.FieldSimp
import Mathlib.Tactic.Linarith
import Mathlib.Tactic.Ring
import Generalplate.Lcd.Line

/-! # The shape of a line

The longer coordinate moves by one at each point after the first two; the other one
stays less than a pixel from where the straight line would have it. -/
namespace Generalplate.Lcd
open Lib.Spread

/-- Points that are equal or touch. -/
def Adjacent (p q : UInt16 × UInt16) : Prop :=
  gap p.1 q.1 ≤ 1 ∧ gap p.2 q.2 ≤ 1

/-- The point lies in the rectangle with these corners. -/
def InBox (x1 y1 x2 y2 : UInt16) (p : UInt16 × UInt16) : Prop :=
  (min x1.toNat x2.toNat ≤ p.1.toNat ∧ p.1.toNat ≤ max x1.toNat x2.toNat) ∧
  min y1.toNat y2.toNat ≤ p.2.toNat ∧ p.2.toNat ≤ max y1.toNat y2.toNat

/-- The coordinate with the larger difference, and the other one. -/
def major (x1 y1 x2 y2 : UInt16) (p : UInt16 × UInt16) : UInt16 :=
  if gap x1 x2 > gap y1 y2 then p.1 else p.2

def minor (x1 y1 x2 y2 : UInt16) (p : UInt16 × UInt16) : UInt16 :=
  if gap x1 x2 > gap y1 y2 then p.2 else p.1

/-- Coordinates `u` on the way from `a` to `b` and `v` on the way from `c` to `d` that
are less than a pixel from a straight line. -/
def Near (a b c d u v : UInt16) : Prop :=
  |((v.toNat : ℚ) - c.toNat) -
    ((u.toNat : ℚ) - a.toNat) * ((d.toNat : ℚ) - c.toNat) / ((b.toNat : ℚ) - a.toNat)| < 1

/-- The points are a line from `(x1, y1)` to `(x2, y2)`. -/
structure IsLine (x1 y1 x2 y2 : UInt16) (ps : List (UInt16 × UInt16)) : Prop where
  starts : ps.head? = some (x1, y1)
  ends : ps.getLast? = some (x2, y2)
  adjacent : ps.IsChain Adjacent
  inside : ∀ p ∈ ps, InBox x1 y1 x2 y2 p
  advances : ∀ (k : Nat) (p q : UInt16 × UInt16), 1 ≤ k → ps[k]? = some p →
    ps[k + 1]? = some q → ((major x1 y1 x2 y2 q).toNat : ℤ) = (major x1 y1 x2 y2 p).toNat +
      (((major x1 y1 x2 y2 (x2, y2)).toNat : ℤ) - (major x1 y1 x2 y2 (x1, y1)).toNat).sign
  near : ∀ p ∈ ps, Near (major x1 y1 x2 y2 (x1, y1)) (major x1 y1 x2 y2 (x2, y2))
    (minor x1 y1 x2 y2 (x1, y1)) (minor x1 y1 x2 y2 (x2, y2))
    (major x1 y1 x2 y2 p) (minor x1 y1 x2 y2 p)

/-! ## One coordinate -/

/-- The coordinate drawn after `k` times. -/
def drawn (a b : UInt16) (distance k : Nat) : UInt16 := UInt16.ofInt (axisAt a b distance k).pos

section Drawn
variable {a b : UInt16} {distance k : Nat}

theorem toNat_drawn (hle : gap a b ≤ distance) (hk : k ≤ distance + 1) :
    ((drawn a b distance k).toNat : ℤ) = coord a b (steps (gap a b) distance k) :=
  (toNat_coord (steps_le hle hk)).1

theorem drawn_zero (a b : UInt16) (distance : Nat) : drawn a b distance 0 = a := by
  have h := (toNat_coord (Nat.zero_le (gap a b))).1
  rw [coord_zero] at h
  rw [drawn, axisAt, steps_zero, ← UInt16.toNat_inj, ← Int.natCast_inj, coord_zero]
  exact h

theorem drawn_last (hle : gap a b ≤ distance) : drawn a b distance (distance + 1) = b := by
  have h := toNat_drawn hle (Nat.le_refl _)
  rw [steps_last hle, coord_gap] at h
  rw [← UInt16.toNat_inj]
  omega

theorem drawn_between (hle : gap a b ≤ distance) (hk : k ≤ distance + 1) :
    min a.toNat b.toNat ≤ (drawn a b distance k).toNat ∧
    (drawn a b distance k).toNat ≤ max a.toNat b.toNat := by
  have h := toNat_drawn hle hk
  obtain ⟨-, hlow, hhigh⟩ := toNat_coord (steps_le hle hk)
  omega

theorem drawn_gap (hle : gap a b ≤ distance) (hk : k + 1 ≤ distance + 1) :
    gap (drawn a b distance k) (drawn a b distance (k + 1)) ≤ 1 := by
  have h1 := toNat_drawn hle (Nat.le_of_succ_le hk)
  have h2 := toNat_drawn hle hk
  have hstep := steps_le_succ hle k
  have hc1 := coord_cases a b (steps (gap a b) distance k)
  have hc2 := coord_cases a b (steps (gap a b) distance (k + 1))
  unfold gap at *
  omega

/-- The longer coordinate moves on each time but the first. -/
theorem drawn_advances (hk : 1 ≤ k) (hlt : k < gap a b + 1) :
    ((drawn a b (gap a b) (k + 1)).toNat : ℤ) =
      (drawn a b (gap a b) k).toNat + ((b.toNat : ℤ) - a.toNat).sign := by
  obtain ⟨k, rfl⟩ := Nat.exists_eq_add_of_le' hk
  have hpos : 0 < gap a b := by omega
  rw [toNat_drawn (Nat.le_refl _) (by omega), toNat_drawn (Nat.le_refl _) (by omega),
    steps_full hpos, steps_full hpos, coord_succ]

/-- A difference, as its direction and size. -/
theorem sub_eq_gap (a b : UInt16) :
    (b.toNat : ℚ) - a.toNat = (((b.toNat : ℤ) - a.toNat).sign : ℚ) * gap a b := by
  calc (b.toNat : ℚ) - a.toNat = (((b.toNat : ℤ) - a.toNat : ℤ) : ℚ) := by push_cast; rfl
    _ = ((((b.toNat : ℤ) - a.toNat).sign * gap a b : ℤ) : ℚ) := by
      rw [gap, Int.sign_mul_natAbs]
    _ = (((b.toNat : ℤ) - a.toNat).sign : ℚ) * gap a b := by rw [Int.cast_mul, Int.cast_natCast]

theorem drawn_sub (hle : gap a b ≤ distance) (hk : k ≤ distance + 1) :
    ((drawn a b distance k).toNat : ℚ) - a.toNat =
      (((b.toNat : ℤ) - a.toNat).sign : ℚ) * steps (gap a b) distance k := by
  have h := toNat_drawn hle hk
  rw [coord] at h
  have hsub : ((drawn a b distance k).toNat : ℤ) - a.toNat =
      ((b.toNat : ℤ) - a.toNat).sign * steps (gap a b) distance k := by omega
  exact_mod_cast hsub

/-- The steps of the shorter coordinate against the even ones. -/
theorem steps_sub_lt {delta distance : Nat} (hle : delta ≤ distance) (hpos : 0 < distance)
    (k : Nat) :
    |(steps delta distance k : ℚ) - steps distance distance k * delta / distance| < 1 := by
  have hD : (0 : ℚ) < distance := by exact_mod_cast hpos
  cases k with
  | zero => simp
  | succ k =>
    obtain ⟨hlow, hhigh⟩ := steps_near hle hpos k
    have hlow' : (distance : ℚ) * steps delta distance (k + 1) < k * delta + distance := by
      exact_mod_cast hlow
    have hhigh' : (k : ℚ) * delta < distance * steps delta distance (k + 1) + distance := by
      exact_mod_cast hhigh
    rw [steps_full hpos, abs_sub_lt_iff]
    constructor
    · rw [sub_lt_comm, lt_div_iff₀ hD]
      linarith
    · rw [sub_lt_iff_lt_add, div_lt_iff₀ hD]
      linarith

theorem drawn_near {c d : UInt16} (hle : gap c d ≤ gap a b) (hk : k ≤ gap a b + 1) :
    Near a b c d (drawn a b (gap a b) k) (drawn c d (gap a b) k) := by
  rw [Near, drawn_sub (Nat.le_refl _) hk, drawn_sub hle hk, sub_eq_gap a b, sub_eq_gap c d]
  have hs : gap a b ≠ 0 → (((b.toNat : ℤ) - a.toNat).sign : ℚ) ≠ 0 := by
    intro hne hzero
    rw [Int.cast_eq_zero, Int.sign_eq_zero_iff_zero] at hzero
    exact hne (Int.natAbs_eq_zero.mpr hzero)
  have hr : |(((d.toNat : ℤ) - c.toNat).sign : ℚ)| ≤ 1 := by
    rcases Int.sign_trichotomy ((d.toNat : ℤ) - c.toNat) with h | h | h <;> rw [h] <;> norm_num
  generalize (((b.toNat : ℤ) - a.toNat).sign : ℚ) = s at hs ⊢
  generalize (((d.toNat : ℤ) - c.toNat).sign : ℚ) = r at hr ⊢
  rcases Nat.eq_zero_or_pos (gap a b) with hzero | hpos
  · rw [hzero] at hle ⊢
    rw [Nat.le_zero.mp hle]
    simp
  · have hne := hs hpos.ne'
    have hideal : s * (steps (gap a b) (gap a b) k : ℚ) * (r * gap c d) / (s * gap a b) =
        r * (steps (gap a b) (gap a b) k * gap c d / gap a b) := by
      rw [mul_assoc, mul_div_mul_left _ _ hne]
      ring
    rw [hideal, ← mul_sub, abs_mul]
    exact mul_lt_one_of_nonneg_of_lt_one_right hr (abs_nonneg _) (steps_sub_lt hle hpos k)

end Drawn

/-! ## The points -/

section Points
variable {x1 y1 x2 y2 : UInt16}

theorem mem_linePoints {p : UInt16 × UInt16} (h : p ∈ linePoints x1 y1 x2 y2) :
    ∃ k, k ≤ reach x1 y1 x2 y2 + 1 ∧
      p = (drawn x1 x2 (reach x1 y1 x2 y2) k, drawn y1 y2 (reach x1 y1 x2 y2) k) := by
  obtain ⟨k, hk, rfl⟩ := List.mem_map.mp h
  rw [List.mem_range'_1] at hk
  exact ⟨k, by omega, rfl⟩

theorem linePoints_get {k : Nat} {p : UInt16 × UInt16} (h : (linePoints x1 y1 x2 y2)[k]? = some p) :
    k ≤ reach x1 y1 x2 y2 + 1 ∧
      p = (drawn x1 x2 (reach x1 y1 x2 y2) k, drawn y1 y2 (reach x1 y1 x2 y2) k) := by
  rw [linePoints, List.getElem?_map, Option.map_eq_some_iff] at h
  obtain ⟨i, hi, rfl⟩ := h
  rw [List.getElem?_eq_some_iff] at hi
  obtain ⟨hlt, hget⟩ := hi
  rw [List.length_range'] at hlt
  rw [List.getElem_range', Nat.zero_add, Nat.one_mul] at hget
  subst hget
  exact ⟨by omega, rfl⟩

theorem linePoints_starts : (linePoints x1 y1 x2 y2).head? = some (x1, y1) := by
  rw [linePoints, List.range'_succ, List.map_cons, List.head?_cons]
  exact congrArg some (Prod.ext (drawn_zero ..) (drawn_zero ..))

theorem linePoints_ends : (linePoints x1 y1 x2 y2).getLast? = some (x2, y2) := by
  obtain ⟨hx, hy⟩ := gap_le_reach x1 y1 x2 y2
  have hsplit : List.range' 0 (reach x1 y1 x2 y2 + 2) =
      List.range' 0 (reach x1 y1 x2 y2 + 1) ++ [reach x1 y1 x2 y2 + 1] := by
    rw [List.range'_concat, Nat.zero_add, Nat.one_mul]
  rw [linePoints, hsplit, List.map_append, List.map_singleton, List.getLast?_concat]
  exact congrArg some (Prod.ext (drawn_last hx) (drawn_last hy))

theorem linePoints_adjacent : (linePoints x1 y1 x2 y2).IsChain Adjacent := by
  obtain ⟨hx, hy⟩ := gap_le_reach x1 y1 x2 y2
  rw [List.isChain_iff_getElem]
  intro k hk
  obtain ⟨-, hp⟩ := linePoints_get (List.getElem?_eq_getElem (Nat.lt_of_succ_lt hk))
  obtain ⟨hlt, hq⟩ := linePoints_get (List.getElem?_eq_getElem hk)
  rw [hp, hq]
  exact ⟨drawn_gap hx hlt, drawn_gap hy hlt⟩

theorem linePoints_inside : ∀ p ∈ linePoints x1 y1 x2 y2, InBox x1 y1 x2 y2 p := by
  obtain ⟨hx, hy⟩ := gap_le_reach x1 y1 x2 y2
  intro p hp
  obtain ⟨k, hk, rfl⟩ := mem_linePoints hp
  exact ⟨drawn_between hx hk, drawn_between hy hk⟩

end Points

/-- **Lines.** With differences that its counter can count, `LCD_DrawLine` returns and
draws a line. -/
theorem lcdDrawLine_isLine {x1 y1 x2 y2 : UInt16} (hx : gap x1 x2 < 65534)
    (hy : gap y1 y2 < 65534) : ∃ ps, IsLine x1 y1 x2 y2 ps ∧
      ∀ fuel, ps.length < fuel → lcdDrawLine fuel x1 y1 x2 y2 = some ps := by
  obtain ⟨hlex, hley⟩ := gap_le_reach x1 y1 x2 y2
  refine ⟨linePoints x1 y1 x2 y2, ⟨linePoints_starts, linePoints_ends, linePoints_adjacent,
    linePoints_inside, ?_, ?_⟩, ?_⟩
  · intro k p q hk hp hq
    obtain ⟨-, rfl⟩ := linePoints_get hp
    obtain ⟨hlt, rfl⟩ := linePoints_get hq
    unfold major reach at *
    split
    · rename_i hgt
      rw [Nat.max_eq_left (Nat.le_of_lt hgt)] at hlt ⊢
      exact drawn_advances hk (by omega)
    · rename_i hgt
      rw [Nat.max_eq_right (Nat.not_lt.mp hgt)] at hlt ⊢
      exact drawn_advances hk (by omega)
  · intro p hp
    obtain ⟨k, hk, rfl⟩ := mem_linePoints hp
    unfold major minor reach at *
    split
    · rename_i hgt
      rw [Nat.max_eq_left (Nat.le_of_lt hgt)] at hk ⊢
      exact drawn_near (Nat.le_of_lt hgt) hk
    · rename_i hgt
      rw [Nat.max_eq_right (Nat.not_lt.mp hgt)] at hk ⊢
      exact drawn_near (Nat.not_lt.mp hgt) hk
  · intro fuel hfuel
    refine lcdDrawLine_eq x1 y1 x2 y2 (Nat.max_lt.mpr ⟨hx, hy⟩) ?_
    rwa [linePoints, List.length_map, List.length_range'] at hfuel

theorem lcdDrawLine_isLine_sloped : ∃ ps, IsLine 105 12 100 10 ps ∧
    ∀ fuel, ps.length < fuel → lcdDrawLine fuel 105 12 100 10 = some ps :=
  lcdDrawLine_isLine (by decide) (by decide)

/-- Two fifths down, against the direction of both coordinates. -/
example : lcdDrawLine 8 105 12 100 10 =
    some [(105, 12), (105, 12), (104, 12), (103, 11), (102, 11), (101, 11), (100, 10)] := by
  decide +kernel

end Generalplate.Lcd
