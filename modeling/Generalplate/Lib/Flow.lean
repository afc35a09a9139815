import Mathlib.Algebra.Order.Floor.Div

/-! # Cells that flow into lines

Cells of one width are put side by side until the next one would begin at the right
edge or behind it; it then begins a new line at the left one. -/
namespace Generalplate.Lib.Flow

variable {left right w h : Nat}

/-- Behind the cell at `p`. -/
def step (left right w h : Nat) (p : Nat × Nat) : Nat × Nat :=
  if p.1 + w < right then (p.1 + w, p.2) else (left, p.2 + h)

/-- Cell number `i`, when the first one is at `p`. -/
def flow (left right w h : Nat) (p : Nat × Nat) : Nat → Nat × Nat
  | 0 => p
  | i + 1 => step left right w h (flow left right w h p i)

/-- Cell number `i` of a table of `cols` columns. -/
def table (left top cols w h i : Nat) : Nat × Nat := (left + i % cols * w, top + i / cols * h)

theorem step_same {p : Nat × Nat} (hp : p.1 + w < right) :
    step left right w h p = (p.1 + w, p.2) := if_pos hp

theorem step_wraps {p : Nat × Nat} (hp : ¬ p.1 + w < right) :
    step left right w h p = (left, p.2 + h) := if_neg hp

theorem flow_add (p : Nat × Nat) (i j : Nat) :
    flow left right w h p (i + j) = flow left right w h (flow left right w h p i) j := by
  induction j with
  | zero => rfl
  | succ j ih => rw [← Nat.add_assoc, flow, flow, ih]

theorem flow_inside (hleft : left < right) {p : Nat × Nat} (hp : p.1 < right) (i : Nat) :
    (flow left right w h p i).1 < right := by
  induction i with
  | zero => exact hp
  | succ i ih =>
    rw [flow]
    by_cases hsame : (flow left right w h p i).1 + w < right
    · rwa [step_same hsame]
    · rwa [step_wraps hsame]

theorem step_below (p : Nat × Nat) : p.2 ≤ (step left right w h p).2 := by
  unfold step
  split
  · exact Nat.le_refl _
  · exact Nat.le_add_right ..

theorem flow_below (p : Nat × Nat) {i j : Nat} (hij : i ≤ j) :
    (flow left right w h p i).2 ≤ (flow left right w h p j).2 := by
  induction j, hij using Nat.le_induction with
  | base => exact Nat.le_refl _
  | succ j _ ih => exact ih.trans (step_below _)

section Lines
variable (hw : 0 < w)
include hw

/-- A line from column `x` on has room for this many cells. -/
theorem lt_columns (x : Nat) (i : Nat) : i < (right - x) ⌈/⌉ w ↔ x + i * w < right := by
  rw [← not_le, ceilDiv_le_iff_le_mul hw, Nat.mul_comm]
  omega

/-- **The first line.** -/
theorem flow_line {x y i : Nat} (hi : i < (right - x) ⌈/⌉ w) :
    flow left right w h (x, y) i = (x + i * w, y) := by
  induction i with
  | zero => rw [flow, Nat.zero_mul, Nat.add_zero]
  | succ i ih =>
    have hroom := (lt_columns hw x (i + 1)).mp hi
    rw [Nat.succ_mul] at hroom
    rw [flow, ih (Nat.lt_of_succ_lt hi), step_same (by omega), Nat.succ_mul, Nat.add_assoc]

/-- The first cell of the second line. -/
theorem flow_wraps {x y : Nat} (hx : x < right) :
    flow left right w h (x, y) ((right - x) ⌈/⌉ w) = (left, y + h) := by
  obtain ⟨n, hn⟩ : ∃ n, (right - x) ⌈/⌉ w = n + 1 := by
    refine Nat.exists_eq_succ_of_ne_zero (Nat.pos_iff_ne_zero.mp ?_)
    rw [lt_columns hw]
    omega
  have hlast : n < (right - x) ⌈/⌉ w := by omega
  have hfull : ¬ x + (n + 1) * w < right := by
    rw [← lt_columns hw]
    omega
  rw [Nat.succ_mul] at hfull
  rw [hn, flow, flow_line hw hlast, step_wraps (by omega)]

/-- **From the left edge on** the cells are a table. -/
theorem flow_table (hleft : left < right) (top i : Nat) :
    flow left right w h (left, top) i = table left top ((right - left) ⌈/⌉ w) w h i := by
  have hpos : 0 < (right - left) ⌈/⌉ w := by
    rw [lt_columns hw]
    omega
  have hline : ∀ q, flow left right w h (left, top) ((right - left) ⌈/⌉ w * q) =
      (left, top + q * h) := by
    intro q
    induction q with
    | zero => rw [Nat.mul_zero, flow, Nat.zero_mul, Nat.add_zero]
    | succ q ih => rw [Nat.mul_succ, flow_add, ih, flow_wraps hw hleft, Nat.succ_mul, Nat.add_assoc]
  conv_lhs => rw [← Nat.div_add_mod i ((right - left) ⌈/⌉ w)]
  rw [flow_add, hline, flow_line hw (Nat.mod_lt i hpos), table]

end Lines

end Generalplate.Lib.Flow
