import Mathlib.Data.List.Range
import Mathlib.Data.Int.Notation

/-! # Characters on the display

`LCD_ShowChar` draws a glyph column by column. A column is a whole number of bytes,
whose bits go down the column from the most significant on; the bits behind the last
row are skipped. Behind the last row of a column it first asks whether the row below
is still on the display, and only then goes back to the top of the next column. -/
namespace Generalplate.Lcd

/-- The font tables: a byte for each character and each position in its glyph. -/
structure Fonts where
  asc2_1206 : UInt8 → UInt8 → UInt8
  asc2_1608 : UInt8 → UInt8 → UInt8
  asc2_2412 : UInt8 → UInt8 → UInt8

/-- What is used of `lcddev`, and the colours. -/
structure Lcddev where
  width : UInt16
  height : UInt16
  pointColor : UInt16
  backColor : UInt16

/-- A call of `LCD_Fast_DrawPoint`. -/
structure Dot where
  x : UInt16
  y : UInt16
  color : UInt16
deriving DecidableEq, Repr

/-- A byte of a glyph, none for a size that has no font. -/
def Fonts.byte (f : Fonts) (size num t : UInt8) : Option UInt8 :=
  if size = 12 then some (f.asc2_1206 num t)
  else if size = 16 then some (f.asc2_1608 num t)
  else if size = 24 then some (f.asc2_2412 num t)
  else none

/-- A point of the glyph; one that is not set is drawn in mode 0 alone. -/
def dot (d : Lcddev) (mode : UInt8) (set : Bool) (x y : UInt16) : List Dot :=
  if set then [⟨x, y, d.pointColor⟩] else if mode = 0 then [⟨x, y, d.backColor⟩] else []

/-- The loop over the bits of `temp`, of which `n` are left: what it draws, and where the
next byte begins, none when the function returns. -/
def showBits (d : Lcddev) (y0 : UInt16) (size mode : UInt8) :
    Nat → UInt8 → UInt16 → UInt16 → List Dot × Option (UInt16 × UInt16)
  | 0, _, x, y => ([], some (x, y))
  | n + 1, temp, x, y =>
    let dots := dot d mode (temp &&& 0x80 ≠ 0) x y
    let y := y + 1
    if y ≥ d.height then (dots, none)
    else if (y.toNat : ℤ) - y0.toNat = size.toNat then
      if x + 1 ≥ d.width then (dots, none) else (dots, some (x + 1, y0))
    else
      let r := showBits d y0 size mode n (temp <<< 1) x y
      (dots ++ r.1, r.2)

/-- The loop over the bytes of a glyph, of which `n` are left. -/
def showBytes (f : Fonts) (d : Lcddev) (y0 : UInt16) (num size mode : UInt8) :
    Nat → UInt8 → UInt16 → UInt16 → List Dot
  | 0, _, _, _ => []
  | n + 1, t, x, y =>
    match f.byte size num t with
    | none => []
    | some temp =>
      let r := showBits d y0 size mode 8 temp x y
      match r.2 with
      | none => r.1
      | some pos => r.1 ++ showBytes f d y0 num size mode n (t + 1) pos.1 pos.2

/-- The points that `LCD_ShowChar` draws. -/
def lcdShowChar (f : Fonts) (d : Lcddev) (x y : UInt16) (num size mode : UInt8) : List Dot :=
  let csize := (size / 8 + if size % 8 ≠ 0 then 1 else 0) * (size / 2)
  showBytes f d y (num - 0x20) size mode csize.toNat 0 x y

/-! ## The bits of a byte -/

theorem topBit (temp : UInt8) : decide (temp &&& 0x80 ≠ 0) = temp.toBitVec.getMsbD 0 := by
  have hall : ∀ b : BitVec 8, decide (b &&& 0x80#8 ≠ 0#8) = b.getMsbD 0 := by decide
  rw [← hall temp.toBitVec]
  simp [← UInt8.toBitVec_inj]

theorem getMsbD_shift (temp : UInt8) (i : Nat) :
    (temp <<< 1).toBitVec.getMsbD i = temp.toBitVec.getMsbD (i + 1) := by
  simp [UInt8.toBitVec_shiftLeft]

/-- The points of `k` bits down from `y`. -/
def bitDots (d : Lcddev) (mode temp : UInt8) (x y : UInt16) (k : Nat) : List Dot :=
  (List.range k).flatMap fun i => dot d mode (temp.toBitVec.getMsbD i) x (y + UInt16.ofNat i)

theorem bitDots_succ (d : Lcddev) (mode temp : UInt8) (x y : UInt16) (k : Nat) :
    bitDots d mode temp x y (k + 1) =
      dot d mode (temp &&& 0x80 ≠ 0) x y ++ bitDots d mode (temp <<< 1) x (y + 1) k := by
  rw [bitDots, List.range_succ_eq_map, List.flatMap_cons, List.flatMap_map, topBit]
  congr 1
  · exact congrArg _ (UInt16.add_zero y)
  · refine List.flatMap_congr fun i _ => ?_
    rw [getMsbD_shift, Nat.succ_eq_add_one, UInt16.ofNat_add, UInt16.add_assoc, UInt16.add_comm 1]
    rfl

section Bits
variable {d : Lcddev} {y0 : UInt16} {size mode : UInt8}

/-- Where the function goes on behind a column. -/
def columnEnd (d : Lcddev) (y0 : UInt16) (size : UInt8) (x : UInt16) : Option (UInt16 × UInt16) :=
  if y0.toNat + size.toNat ≥ d.height.toNat ∨ x + 1 ≥ d.width then none else some (x + 1, y0)

/-- A row of the glyph does not wrap. -/
theorem toNat_row (hfit : y0.toNat + size.toNat ≤ d.height.toNat) {row : Nat}
    (hrow : row ≤ size.toNat) : (y0 + UInt16.ofNat row).toNat = y0.toNat + row := by
  have hheight := d.height.toNat_lt
  rw [UInt16.toNat_add, UInt16.toNat_ofNat']
  omega

theorem add_ofNat_zero (x : UInt16) : x + UInt16.ofNat 0 = x := UInt16.add_zero x

theorem add_row_succ (y0 : UInt16) (row : Nat) :
    y0 + UInt16.ofNat row + 1 = y0 + UInt16.ofNat (row + 1) := by
  rw [UInt16.ofNat_add, UInt16.add_assoc]
  rfl

/-- A row above the last is on the display, and is not the end of a column. -/
theorem row_inside (hfit : y0.toNat + size.toNat ≤ d.height.toNat) {row : Nat}
    (hrow : row < size.toNat) : ¬ y0 + UInt16.ofNat row ≥ d.height ∧
      ¬ ((y0 + UInt16.ofNat row).toNat : ℤ) - y0.toNat = size.toNat := by
  rw [ge_iff_le, UInt16.le_iff_toNat_le, toNat_row hfit (Nat.le_of_lt hrow)]
  exact ⟨by omega, by omega⟩

/-- Bits above the last row are all drawn. -/
theorem showBits_above (hfit : y0.toNat + size.toNat ≤ d.height.toNat) (x : UInt16)
    {n row : Nat} (temp : UInt8) (hrow : row + n < size.toNat) :
    showBits d y0 size mode n temp x (y0 + UInt16.ofNat row) =
      (bitDots d mode temp x (y0 + UInt16.ofNat row) n,
        some (x, y0 + UInt16.ofNat (row + n))) := by
  induction n generalizing row temp with
  | zero => rfl
  | succ n ih =>
    obtain ⟨hin, hbefore⟩ := row_inside hfit (show row + 1 < size.toNat by omega)
    rw [showBits, add_row_succ]
    dsimp only
    rw [if_neg hin, if_neg hbefore, ih (temp <<< 1) (by omega), bitDots_succ, add_row_succ,
      Nat.add_right_comm, Nat.add_assoc]

/-- The bits that reach the last row are drawn down to it. -/
theorem showBits_last (hfit : y0.toNat + size.toNat ≤ d.height.toNat) (x : UInt16)
    {n row : Nat} (temp : UInt8) (hrow : row < size.toNat) (hn : size.toNat ≤ row + n) :
    showBits d y0 size mode n temp x (y0 + UInt16.ofNat row) =
      (bitDots d mode temp x (y0 + UInt16.ofNat row) (size.toNat - row),
        columnEnd d y0 size x) := by
  induction n generalizing row temp with
  | zero => omega
  | succ n ih =>
    have hsub : size.toNat - row = size.toNat - (row + 1) + 1 := by omega
    rw [showBits, hsub, bitDots_succ, add_row_succ]
    dsimp only
    rcases Nat.lt_or_ge (row + 1) size.toNat with hlt | hge
    · obtain ⟨hin, hbefore⟩ := row_inside hfit hlt
      rw [if_neg hin, if_neg hbefore, ih (temp <<< 1) hlt (by omega)]
    · have hnext := toNat_row hfit (show row + 1 ≤ size.toNat by omega)
      have hend : ((y0 + UInt16.ofNat (row + 1)).toNat : ℤ) - y0.toNat = size.toNat := by
        rw [hnext]
        omega
      have hdone : bitDots d mode (temp <<< 1) x (y0 + UInt16.ofNat (row + 1))
          (size.toNat - (row + 1)) = [] := by
        rw [Nat.sub_eq_zero_of_le hge]
        rfl
      have hbelow : y0 + UInt16.ofNat (row + 1) ≥ d.height ↔
          y0.toNat + size.toNat ≥ d.height.toNat := by
        rw [ge_iff_le, UInt16.le_iff_toNat_le, hnext]
        omega
      rw [hdone, List.append_nil, if_pos hend, columnEnd]
      by_cases hout : y0.toNat + size.toNat ≥ d.height.toNat
      · rw [if_pos (hbelow.mpr hout), if_pos (Or.inl hout)]
      · rw [if_neg (hbelow.not.mpr hout)]
        by_cases hright : x + 1 ≥ d.width
        · rw [if_pos hright, if_pos (Or.inr hright)]
        · rw [if_neg hright, if_neg (not_or.mpr ⟨hout, hright⟩)]

end Bits

/-! ## The columns -/

/-- The glyph of a character in the font of a size. -/
def Fonts.glyph (f : Fonts) (size num : UInt8) : UInt8 → UInt8 :=
  if size = 12 then f.asc2_1206 num
  else if size = 16 then f.asc2_1608 num
  else f.asc2_2412 num

/-- A size that has a font. -/
def Supported (size : UInt8) : Prop := size = 12 ∨ size = 16 ∨ size = 24

instance (size : UInt8) : Decidable (Supported size) := inferInstanceAs (Decidable (_ ∨ _ ∨ _))

/-- The bytes of a column, `size` bits rounded up. -/
def columnBytes (size : UInt8) : Nat := (size.toNat + 7) / 8

/-- The bit of a glyph in a column and row: bytes in the order of the rows, each with
its most significant bit first. -/
def glyphBit (size : UInt8) (glyph : UInt8 → UInt8) (col row : Nat) : Bool :=
  (glyph (UInt8.ofNat (columnBytes size * col + row / 8))).toBitVec.getMsbD (row % 8)

/-- The points of `k` rows of a column, from `row` on. -/
def rowDots (d : Lcddev) (x y0 : UInt16) (size mode : UInt8) (glyph : UInt8 → UInt8)
    (col row k : Nat) : List Dot :=
  (List.range' row k).flatMap fun i =>
    dot d mode (glyphBit size glyph col i) x (y0 + UInt16.ofNat i)

/-- The points of a cell of `size` rows and half as many columns at `(x, y)`, each once. -/
def cell (d : Lcddev) (x y : UInt16) (size mode : UInt8) (glyph : UInt8 → UInt8) : List Dot :=
  (List.range (size / 2).toNat).flatMap fun col =>
    rowDots d (x + UInt16.ofNat col) y size mode glyph col 0 size.toNat

section Columns
variable {f : Fonts} {d : Lcddev} {y0 : UInt16} {num size mode : UInt8}

theorem Fonts.byte_eq (h : Supported size) (t : UInt8) :
    f.byte size num t = some (f.glyph size num t) := by
  rcases h with rfl | rfl | rfl <;> rfl

/-- The bits of a byte are the rows it covers. -/
theorem bitDots_eq (glyph : UInt8 → UInt8) (x : UInt16) (col j : Nat) {k : Nat} (hk : k ≤ 8) :
    bitDots d mode (glyph (UInt8.ofNat (columnBytes size * col + j))) x
      (y0 + UInt16.ofNat (8 * j)) k = rowDots d x y0 size mode glyph col (8 * j) k := by
  rw [bitDots, rowDots, List.range'_eq_map_range, List.flatMap_map]
  refine List.flatMap_congr fun i hi => ?_
  have hlt := List.mem_range.mp hi
  have hdiv : (8 * j + i) / 8 = j := by omega
  have hmod : (8 * j + i) % 8 = i := by omega
  rw [glyphBit, hdiv, hmod, UInt16.ofNat_add, UInt16.add_assoc]

theorem ofNat_succ (m : Nat) : UInt8.ofNat m + 1 = UInt8.ofNat (m + 1) := by
  rw [UInt8.ofNat_add]
  rfl

/-- What the bytes of a column draw from byte `j` on, and where they lead. -/
theorem showBytes_column (hsize : Supported size)
    (hfit : y0.toNat + size.toNat ≤ d.height.toNat) (x : UInt16) (n col : Nat) {b j : Nat}
    (hlow : 8 * (j + b) < size.toNat) (hhigh : size.toNat ≤ 8 * (j + b) + 8) :
    showBytes f d y0 num size mode (n + b + 1) (UInt8.ofNat (columnBytes size * col + j)) x
      (y0 + UInt16.ofNat (8 * j)) =
    rowDots d x y0 size mode (f.glyph size num) col (8 * j) (size.toNat - 8 * j) ++
      match columnEnd d y0 size x with
      | none => []
      | some pos => showBytes f d y0 num size mode n
          (UInt8.ofNat (columnBytes size * col + (j + b + 1))) pos.1 pos.2 := by
  induction b generalizing j with
  | zero =>
    rw [showBytes, Fonts.byte_eq hsize]
    dsimp only
    rw [showBits_last hfit x _ (by omega) (by omega), bitDots_eq _ _ _ _ (by omega), ofNat_succ]
    cases columnEnd d y0 size x with
    | none => rw [List.append_nil]
    | some pos => rfl
  | succ b ih =>
    rw [showBytes, Fonts.byte_eq hsize]
    dsimp only
    have hrow : 8 * j + 8 = 8 * (j + 1) := by omega
    have hrows : rowDots d x y0 size mode (f.glyph size num) col (8 * j) (size.toNat - 8 * j) =
        rowDots d x y0 size mode (f.glyph size num) col (8 * j) 8 ++
        rowDots d x y0 size mode (f.glyph size num) col (8 * (j + 1))
          (size.toNat - 8 * (j + 1)) := by
      have hlen : size.toNat - 8 * j = 8 + (size.toNat - 8 * (j + 1)) := by omega
      rw [rowDots, hlen, ← List.range'_append_1, List.flatMap_append, hrow]
      rfl
    have hnext := @ih (j + 1) (by omega) (by omega)
    rw [Nat.add_right_comm j 1 b] at hnext
    rw [showBits_above hfit x _ (by omega), bitDots_eq _ _ _ _ (Nat.le_refl _), ofNat_succ, hrow,
      hrows, List.append_assoc]
    dsimp only
    exact congrArg _ hnext

/-- A column ends in its last byte. -/
theorem columnBytes_spec (hsize : Supported size) : 0 < size.toNat ∧
    8 * (columnBytes size - 1) < size.toNat ∧ size.toNat ≤ 8 * (columnBytes size - 1) + 8 ∧
    columnBytes size - 1 + 1 = columnBytes size := by
  rcases hsize with rfl | rfl | rfl <;> decide

/-- What a whole column draws, and where it leads. -/
theorem showBytes_whole (hsize : Supported size)
    (hfit : y0.toNat + size.toNat ≤ d.height.toNat) (x : UInt16) (n col : Nat) :
    showBytes f d y0 num size mode (n + columnBytes size)
      (UInt8.ofNat (columnBytes size * col)) x y0 =
    rowDots d x y0 size mode (f.glyph size num) col 0 size.toNat ++
      match columnEnd d y0 size x with
      | none => []
      | some pos => showBytes f d y0 num size mode n
          (UInt8.ofNat (columnBytes size * (col + 1))) pos.1 pos.2 := by
  obtain ⟨-, hlow, hhigh, hpred⟩ := columnBytes_spec hsize
  have hcol := @showBytes_column f d y0 num size mode hsize hfit x n col (columnBytes size - 1) 0
    (by rwa [Nat.zero_add]) (by rwa [Nat.zero_add])
  rw [Nat.zero_add, Nat.mul_zero, Nat.sub_zero, Nat.add_zero, Nat.add_assoc n, hpred,
    add_ofNat_zero] at hcol
  exact hcol

theorem toNat_column {x : UInt16} {col : Nat} (h : x.toNat + col < 65536) :
    (x + UInt16.ofNat col).toNat = x.toNat + col := by
  rw [UInt16.toNat_add, UInt16.toNat_ofNat']
  omega

/-- With a row to spare below, all columns are drawn, also at the right edge. -/
theorem showBytes_columns (hsize : Supported size)
    (hroom : y0.toNat + size.toNat < d.height.toNat) {x : UInt16} {w col : Nat}
    (hwidth : x.toNat + (col + w) ≤ d.width.toNat) :
    showBytes f d y0 num size mode (columnBytes size * w)
      (UInt8.ofNat (columnBytes size * col)) (x + UInt16.ofNat col) y0 =
    (List.range' col w).flatMap fun c =>
      rowDots d (x + UInt16.ofNat c) y0 size mode (f.glyph size num) c 0 size.toNat := by
  have hlt := d.width.toNat_lt
  induction w generalizing col with
  | zero =>
    rw [Nat.mul_zero]
    rfl
  | succ w ih =>
    have hnext : x + UInt16.ofNat col + 1 = x + UInt16.ofNat (col + 1) := add_row_succ x col
    rw [Nat.mul_add_one, showBytes_whole hsize (Nat.le_of_lt hroom), List.range'_succ,
      List.flatMap_cons, columnEnd, hnext]
    congr 1
    by_cases hright : x + UInt16.ofNat (col + 1) ≥ d.width
    · -- the last column at the right edge
      have hlast : w = 0 := by
        rcases Nat.eq_zero_or_pos w with hzero | hpos
        · exact hzero
        · rw [ge_iff_le, UInt16.le_iff_toNat_le, toNat_column (by omega)] at hright
          omega
      rw [if_pos (Or.inr hright), hlast]
      rfl
    · rw [if_neg (not_or.mpr ⟨Nat.not_le.mpr hroom, hright⟩)]
      exact ih (by omega)

/-- At the bottom edge the first column is the only one. -/
theorem showBytes_bottom (hsize : Supported size)
    (hedge : y0.toNat + size.toNat = d.height.toNat) (x : UInt16) (n : Nat) :
    showBytes f d y0 num size mode (n + columnBytes size) 0 x y0 =
      rowDots d x y0 size mode (f.glyph size num) 0 0 size.toNat := by
  have hwhole := @showBytes_whole f d y0 num size mode hsize (Nat.le_of_eq hedge) x n 0
  rw [Nat.mul_zero, columnEnd, if_pos (Or.inl (Nat.le_of_eq hedge.symm)),
    List.append_nil] at hwhole
  exact hwhole

end Columns

/-- What `LCD_ShowChar` counts as the bytes of a glyph. -/
theorem csize_eq {size : UInt8} (hsize : Supported size) :
    ((size / 8 + if size % 8 ≠ 0 then 1 else 0) * (size / 2)).toNat =
      columnBytes size * (size / 2).toNat ∧ (size / 2).toNat = (size / 2).toNat - 1 + 1 := by
  rcases hsize with rfl | rfl | rfl <;> decide

/-- The columns behind the first one have no set bit. -/
def Slim (size : UInt8) (glyph : UInt8 → UInt8) : Prop :=
  ∀ col, 1 ≤ col → col < (size / 2).toNat → ∀ row, row < size.toNat →
    glyphBit size glyph col row = false

theorem dot_eq_nil (d : Lcddev) (mode : UInt8) (set : Bool) (x y : UInt16) :
    dot d mode set x y = [] ↔ mode ≠ 0 ∧ set = false := by
  unfold dot
  cases set <;> by_cases hmode : mode = 0 <;> simp [hmode]

/-- The cell without its first column. -/
def laterColumns (d : Lcddev) (x y : UInt16) (size mode : UInt8) (glyph : UInt8 → UInt8) :
    List Dot :=
  (List.range ((size / 2).toNat - 1)).flatMap fun col =>
    rowDots d (x + UInt16.ofNat (col + 1)) y size mode glyph (col + 1) 0 size.toNat

section Cell
variable {size mode : UInt8} {glyph : UInt8 → UInt8}

theorem cell_columns {d : Lcddev} {x y : UInt16} (hsize : Supported size) :
    cell d x y size mode glyph =
      rowDots d x y size mode glyph 0 0 size.toNat ++ laterColumns d x y size mode glyph := by
  rw [cell, (csize_eq hsize).2, List.range_succ_eq_map, List.flatMap_cons, List.flatMap_map,
    add_ofNat_zero]
  rfl

theorem rowDots_eq_nil (d : Lcddev) (x y : UInt16) (col k : Nat) :
    rowDots d x y size mode glyph col 0 k = [] ↔
      ∀ row, row < k → mode ≠ 0 ∧ glyphBit size glyph col row = false := by
  simp only [rowDots, List.flatMap_eq_nil_iff, List.mem_range'_1, Nat.zero_le, true_and,
    Nat.zero_add, dot_eq_nil]

theorem laterColumns_eq_nil (d : Lcddev) (x y : UInt16) (hsize : Supported size) :
    laterColumns d x y size mode glyph = [] ↔ mode ≠ 0 ∧ Slim size glyph := by
  have hwide : 1 < (size / 2).toNat ∧ 0 < size.toNat := by
    rcases hsize with rfl | rfl | rfl <;> decide
  simp only [laterColumns, List.flatMap_eq_nil_iff, List.mem_range, rowDots_eq_nil]
  constructor
  · intro h
    refine ⟨(h 0 (by omega) 0 hwide.2).1, ?_⟩
    intro col hpos hcol row hrow
    obtain ⟨col, rfl⟩ := Nat.exists_eq_add_of_le' hpos
    exact (h col (by omega) row hrow).2
  · rintro ⟨hmode, hslim⟩ col hcol row hrow
    exact ⟨hmode, hslim (col + 1) (by omega) (by omega) row hrow⟩

end Cell

/-- **Characters.** A character that fits on the display is drawn completely, each
point once, exactly when a row is left below it, or when nothing is drawn of its glyph
behind the first column. -/
theorem lcdShowChar_cell_iff (f : Fonts) (d : Lcddev) {x y : UInt16} (num mode : UInt8)
    {size : UInt8} (hsize : Supported size)
    (hx : x.toNat + (size / 2).toNat ≤ d.width.toNat)
    (hy : y.toNat + size.toNat ≤ d.height.toNat) :
    (lcdShowChar f d x y num size mode).Perm
      (cell d x y size mode (f.glyph size (num - 0x20))) ↔
    y.toNat + size.toNat < d.height.toNat ∨
      mode ≠ 0 ∧ Slim size (f.glyph size (num - 0x20)) := by
  obtain ⟨hcsize, hhalf⟩ := csize_eq hsize
  rw [lcdShowChar, hcsize]
  rcases Nat.lt_or_eq_of_le hy with hroom | hedge
  · refine iff_of_true ?_ (Or.inl hroom)
    have hall := @showBytes_columns f d y (num - 0x20) size mode hsize hroom x (size / 2).toNat 0
      (by rwa [Nat.zero_add])
    rw [Nat.mul_zero, add_ofNat_zero, ← List.range_eq_range'] at hall
    exact List.Perm.of_eq hall
  · have hfirst := @showBytes_bottom f d y (num - 0x20) size mode hsize hedge x
      (columnBytes size * ((size / 2).toNat - 1))
    rw [← Nat.mul_add_one, ← hhalf] at hfirst
    rw [hfirst, cell_columns hsize, or_iff_right (by omega), ← laterColumns_eq_nil d x y hsize]
    constructor
    · intro hperm
      have hlen := hperm.length_eq
      rw [List.length_append] at hlen
      exact List.eq_nil_of_length_eq_zero (by omega)
    · intro hnil
      rw [hnil, List.append_nil]

/-- The display upright, red on white, and fonts with every other point set, and with none. -/
def upright : Lcddev := ⟨240, 320, 0xf800, 0xffff⟩

def checkedFonts : Fonts :=
  ⟨fun _ i => if i % 4 < 2 then 0xaa else 0x55, fun _ i => if i % 4 < 2 then 0xaa else 0x55,
    fun _ i => if i % 6 < 3 then 0xaa else 0x55⟩

def emptyFonts : Fonts := ⟨fun _ _ => 0, fun _ _ => 0, fun _ _ => 0⟩

/-- In the corner on the right, a row above the bottom. -/
theorem lcdShowChar_cell_iff_corner :
    (lcdShowChar checkedFonts upright 234 307 0x41 12 0).Perm
      (cell upright 234 307 12 0 (checkedFonts.glyph 12 0x21)) :=
  (lcdShowChar_cell_iff checkedFonts upright 0x41 0 (show Supported 12 by decide) (by decide)
    (by decide)).mpr (Or.inl (by decide))

/-- On the last row, twelve points are drawn of seventy-two. -/
theorem lcdShowChar_bottom :
    (lcdShowChar emptyFonts upright 100 308 0x41 12 0).length = 12 ∧
    (cell upright 100 308 12 0 (emptyFonts.glyph 12 0x21)).length = 72 ∧
    ¬ (lcdShowChar emptyFonts upright 100 308 0x41 12 0).Perm
      (cell upright 100 308 12 0 (emptyFonts.glyph 12 0x21)) := by
  have hdrawn : (lcdShowChar emptyFonts upright 100 308 0x41 12 0).length = 12 := by
    decide +kernel
  have hcell : (cell upright 100 308 12 0 (emptyFonts.glyph 12 0x21)).length = 72 := by
    decide +kernel
  refine ⟨hdrawn, hcell, ?_⟩
  intro hperm
  have hlen := hperm.length_eq
  rw [hdrawn, hcell] at hlen
  exact absurd hlen (by decide)

end Generalplate.Lcd
