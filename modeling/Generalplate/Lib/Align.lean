import Mathlib.Algebra.GroupWithZero.Nat
import Mathlib.Data.Nat.Bitwise

/-! # Rounding up to a power of two

Rounding as arithmetic (`alignUp`), and as C programs write it: add one less
than the power and clear the low bits with a mask of a `w`-bit word. -/
namespace Generalplate.Lib.Align

/-- The least multiple of `2 ^ e` that is not below `x`. -/
def alignUp (e x : Nat) : Nat := (x + 2 ^ e - 1) / 2 ^ e * 2 ^ e

section Align
variable (e x : Nat)

theorem dvd_alignUp : 2 ^ e ∣ alignUp e x := Nat.dvd_mul_left _ _

theorem alignUp_lt : alignUp e x < x + 2 ^ e := by
  have hpos := Nat.two_pow_pos e
  have hle := Nat.div_mul_le_self (x + 2 ^ e - 1) (2 ^ e)
  unfold alignUp
  omega

theorem le_alignUp : x ≤ alignUp e x := by
  have hpos := Nat.two_pow_pos e
  have hmod := Nat.mod_lt (x + 2 ^ e - 1) hpos
  have hsplit := Nat.div_add_mod' (x + 2 ^ e - 1) (2 ^ e)
  unfold alignUp
  omega

/-- A multiple that is not below `x` is not below the rounded value. -/
theorem alignUp_le {y : Nat} (hxy : x ≤ y) (hd : 2 ^ e ∣ y) : alignUp e x ≤ y := by
  obtain ⟨c, rfl⟩ := hd
  obtain ⟨b, hb⟩ := dvd_alignUp e x
  have hlt := alignUp_lt e x
  have hle : b < c + 1 := by
    refine Nat.lt_of_mul_lt_mul_left (a := 2 ^ e) ?_
    rw [← hb, Nat.mul_succ]
    omega
  rw [hb]
  exact Nat.mul_le_mul_left _ (Nat.le_of_lt_succ hle)

/-- The mask of the high bits rounds down, in a word of `w` bits. -/
theorem and_mask {w e : Nat} (h : e ≤ w) (x : Nat) :
    x &&& (2 ^ w - 2 ^ e) = x / 2 ^ e * 2 ^ e % 2 ^ w := by
  have hmask : 2 ^ w - 2 ^ e = (2 ^ (w - e) - 1) * 2 ^ e := by
    rw [Nat.sub_mul, ← Nat.pow_add, Nat.sub_add_cancel h, Nat.one_mul]
  rw [hmask]
  refine Nat.eq_of_testBit_eq fun i => ?_
  rw [Nat.testBit_and, Nat.testBit_mul_two_pow, Nat.testBit_two_pow_sub_one,
    Nat.testBit_mod_two_pow, Nat.testBit_mul_two_pow, Nat.testBit_div_two_pow]
  by_cases hi : e ≤ i
  · have hw : i - e < w - e ↔ i < w := by omega
    simp [hi, hw, Bool.and_comm, Nat.sub_add_cancel hi]
  · simp [hi]

/-- The mask also cuts off what the word does not hold. -/
theorem mod_and_mask (w e x : Nat) :
    (x % 2 ^ w) &&& (2 ^ w - 2 ^ e) = x &&& (2 ^ w - 2 ^ e) := by
  have hpos := Nat.two_pow_pos e
  have hlt : 2 ^ w - 2 ^ e < 2 ^ w := Nat.sub_lt (Nat.two_pow_pos w) hpos
  have hand : x &&& (2 ^ w - 2 ^ e) < 2 ^ w := Nat.lt_of_le_of_lt Nat.and_le_right hlt
  have hmod := Nat.and_mod_two_pow (a := x) (b := 2 ^ w - 2 ^ e) (n := w)
  rw [Nat.mod_eq_of_lt hand, Nat.mod_eq_of_lt hlt] at hmod
  exact hmod.symm

/-- The rounding as it is written in C. -/
theorem add_and_mask {w e : Nat} (h : e ≤ w) (x : Nat) :
    (x + 2 ^ e - 1) &&& (2 ^ w - 2 ^ e) = alignUp e x % 2 ^ w := and_mask h _

end Align

end Generalplate.Lib.Align
