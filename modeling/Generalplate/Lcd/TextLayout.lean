import Generalplate.Lcd.Char
import Generalplate.Lcd.Text
import Generalplate.Lib.Flow

/-! # The layout of a string

`LCD_ShowString` puts the characters of a string side by side, as many as begin in the
area, and goes on in a line below. It keeps the first column of the lines in 8 bits: the
lines below are in place when the area begins left of column 256. -/
namespace Generalplate.Lcd
open Lib.Flow

/-- A character shown: its column and row, and the character. -/
structure Shown where
  x : Nat
  y : Nat
  num : UInt8
  size : UInt8
deriving DecidableEq, Repr

def ShowChar.shown (s : ShowChar) : Shown := ⟨s.x.toNat, s.y.toNat, s.num, s.size⟩

/-- The characters of a text from number `i` on, each at its place when its row is above
`bottom`. -/
def laidOut (place : Nat → Nat × Nat) (bottom : Nat) (size : UInt8) (i : Nat)
    (str : List UInt8) : List Shown :=
  ((str.zipIdx i).filter fun c => (place c.2).2 < bottom).map fun c =>
    ⟨(place c.2).1, (place c.2).2, c.1, size⟩

/-- The characters of a line: those that begin in the width of the area. -/
def columns (width : Nat) (size : UInt8) : Nat := width ⌈/⌉ (size.toNat / 2)

/-- The layout of a text in an area, line by line. -/
def layout (x y width height : Nat) (size : UInt8) (str : List UInt8) : List Shown :=
  laidOut (table x y (columns width size) (size.toNat / 2) size.toNat) (y + height) size 0 str

/-- The places as `LCD_ShowString` has them: the first column of the lines below is kept in
8 bits. -/
def shownAt (x y width : Nat) (size : UInt8) : Nat → Nat × Nat :=
  flow (x % 256) (x + width) (size.toNat / 2) size.toNat (x, y)

section LaidOut
variable {place place' : Nat → Nat × Nat} {bottom i : Nat} {size c : UInt8} {str : List UInt8}

theorem laidOut_above (h : (place i).2 < bottom) : laidOut place bottom size i (c :: str) =
    ⟨(place i).1, (place i).2, c, size⟩ :: laidOut place bottom size (i + 1) str := by
  have hfilter := List.filter_cons_of_pos (p := fun c : UInt8 × Nat => (place c.2).2 < bottom)
    (a := (c, i)) (l := str.zipIdx (i + 1)) (decide_eq_true h)
  rw [laidOut, List.zipIdx_cons, hfilter]
  rfl

theorem mem_laidOut {s : Shown} : s ∈ laidOut place bottom size i str ↔
    ∃ j, ∃ c, str[j]? = some c ∧ (place (i + j)).2 < bottom ∧
      s = ⟨(place (i + j)).1, (place (i + j)).2, c, size⟩ := by
  unfold laidOut
  simp only [List.mem_map, List.mem_filter, decide_eq_true_eq, Prod.exists]
  constructor
  · rintro ⟨c, j, ⟨hmem, habove⟩, rfl⟩
    obtain ⟨hle, hget⟩ := List.mk_mem_zipIdx_iff_le_and_getElem?_sub.mp hmem
    refine ⟨j - i, c, hget, ?_⟩
    rw [Nat.add_sub_cancel' hle]
    exact ⟨habove, rfl⟩
  · rintro ⟨j, c, hget, habove, rfl⟩
    refine ⟨c, i + j, ⟨List.mk_mem_zipIdx_iff_le_and_getElem?_sub.mpr ⟨Nat.le_add_right .., ?_⟩,
      habove⟩, rfl⟩
    rwa [Nat.add_sub_cancel_left]

theorem laidOut_below (h : ∀ j, i ≤ j → bottom ≤ (place j).2) :
    laidOut place bottom size i str = [] := by
  refine List.eq_nil_iff_forall_not_mem.mpr fun s hs => ?_
  obtain ⟨j, c, _, habove, _⟩ := mem_laidOut.mp hs
  exact absurd habove (Nat.not_lt.mpr (h _ (Nat.le_add_right ..)))

/-- Two ways to place the characters that differ below the bottom only. -/
theorem laidOut_congr (h : ∀ j, i ≤ j → j < i + str.length →
      place j = place' j ∨ bottom ≤ (place j).2 ∧ bottom ≤ (place' j).2) :
    laidOut place bottom size i str = laidOut place' bottom size i str := by
  unfold laidOut
  have hplace : ∀ c ∈ str.zipIdx i, place c.2 = place' c.2 ∨
      bottom ≤ (place c.2).2 ∧ bottom ≤ (place' c.2).2 := by
    rintro ⟨c, j⟩ hmem
    obtain ⟨hle, hlt⟩ := List.mem_zipIdx hmem
    exact h j hle (by omega)
  have hfilter : ((str.zipIdx i).filter fun c => (place c.2).2 < bottom) =
      (str.zipIdx i).filter fun c => (place' c.2).2 < bottom := by
    refine List.filter_congr fun c hc => decide_eq_decide.mpr ?_
    rcases hplace c hc with hsame | hbelow
    · rw [hsame]
    · omega
  rw [hfilter]
  refine List.map_congr_left fun c hc => ?_
  obtain ⟨hmem, habove⟩ := List.mem_filter.mp hc
  rcases hplace c hmem with hsame | hbelow
  · rw [hsame]
  · exact absurd (of_decide_eq_true habove) (Nat.not_lt.mpr hbelow.2)

end LaidOut

/-! ## What the loop shows -/

theorem Printable.zero : ¬ Printable 0 := by decide

theorem Supported.width {size : UInt8} (h : Supported size) : 0 < size.toNat / 2 := by
  rcases h with rfl | rfl | rfl <;> decide

theorem Supported.le {size : UInt8} (h : Supported size) : size.toNat ≤ 24 := by
  rcases h with rfl | rfl | rfl <;> decide

section Loop
variable {x0 : UInt8} {width height : UInt16} {size : UInt8} {p : Nat × Nat}

/-- The place of the character behind one at `(x, y)`, as the loop finds it. -/
theorem wrap_next (hsize : Supported size) (hheight : height.toNat ≤ 65000)
    (hwidth : width.toNat ≤ 65000) {x y : UInt16} (hx : x.toNat < width.toNat)
    (hy : y.toNat < height.toNat) :
    ((wrap x0 width size (x + (size / 2).toUInt16) y).1.toNat,
      (wrap x0 width size (x + (size / 2).toUInt16) y).2.toNat) =
    step x0.toNat width.toNat (size.toNat / 2) size.toNat (x.toNat, y.toNat) := by
  have hle := hsize.le
  have hcol : (x + (size / 2).toUInt16).toNat = x.toNat + size.toNat / 2 := by
    rw [UInt16.toNat_add, UInt8.toNat_toUInt16, UInt8.toNat_div]
    exact Nat.mod_eq_of_lt (by simp only [UInt8.reduceToNat]; omega)
  have hrow : (y + size.toUInt16).toNat = y.toNat + size.toNat := by
    rw [UInt16.toNat_add, UInt8.toNat_toUInt16]
    exact Nat.mod_eq_of_lt (by omega)
  unfold wrap
  by_cases hfull : x + (size / 2).toUInt16 ≥ width
  · have hedge : ¬ x.toNat + size.toNat / 2 < width.toNat := by
      rw [← hcol]
      exact Nat.not_lt.mpr (UInt16.le_iff_toNat_le.mp hfull)
    rw [if_pos hfull, step_wraps hedge, hrow, UInt8.toNat_toUInt16]
  · have hroom : x.toNat + size.toNat / 2 < width.toNat := by
      rw [← hcol]
      exact Nat.not_le.mp (mt UInt16.le_iff_toNat_le.mpr hfull)
    rw [if_neg hfull, step_same hroom, hcol]

/-- **The loop lays the text out** where its cursor flows. -/
theorem lcdShowStringLoop_eq (hsize : Supported size) (hheight : height.toNat ≤ 65000)
    (hwidth : width.toNat ≤ 65000) (hx0 : x0.toNat < width.toNat) (hp : p.1 < width.toNat)
    {str : List UInt8} (hprint : ∀ c ∈ str, Printable c) (behind : List UInt8) {i : Nat}
    {x y : UInt16} (hpos : ((wrap x0 width size x y).1.toNat, (wrap x0 width size x y).2.toNat) =
      flow x0.toNat width.toNat (size.toNat / 2) size.toNat p i) :
    ∃ calls, lcdShowStringLoop x0 width height size (str ++ 0 :: behind) x y = some calls ∧
      calls.map ShowChar.shown =
        laidOut (flow x0.toNat width.toNat (size.toNat / 2) size.toNat p) height.toNat size i
          str := by
  induction str generalizing i x y with
  | nil =>
    refine ⟨[], ?_, rfl⟩
    rw [List.nil_append, lcdShowStringLoop, if_neg Printable.zero]
  | cons c str ih =>
    obtain ⟨hc, hprint⟩ := List.forall_mem_cons.mp hprint
    have hcol := congrArg Prod.fst hpos
    have hrow := congrArg Prod.snd hpos
    dsimp only at hcol hrow
    rw [List.cons_append, lcdShowStringLoop, if_pos hc]
    dsimp only
    by_cases hbelow : (wrap x0 width size x y).2 ≥ height
    · have hnat := UInt16.le_iff_toNat_le.mp hbelow
      rw [hrow] at hnat
      rw [if_pos hbelow, laidOut_below fun j hij => hnat.trans (flow_below p hij)]
      exact ⟨[], rfl, rfl⟩
    · have habove := Nat.not_le.mp (mt UInt16.le_iff_toNat_le.mpr hbelow)
      have hinside := flow_inside (h := size.toNat) (w := size.toNat / 2) hx0 hp i
      rw [← hcol] at hinside
      have hnext := @wrap_next x0 width height size hsize hheight hwidth _ _ hinside habove
      rw [hpos] at hnext
      obtain ⟨calls, hcalls, hshown⟩ := ih hprint (i := i + 1) hnext
      rw [if_neg hbelow, hcalls]
      refine ⟨_, rfl, ?_⟩
      rw [hrow] at habove
      rw [List.map_cons, hshown, laidOut_above habove, ← hcol, ← hrow]
      rfl

end Loop

/-! ## What the function shows -/

section Area
variable {x y width height : Nat} {size : UInt8} {str : List UInt8}

theorem columns_pos (hsize : Supported size) (hwidth : 0 < width) : 0 < columns width size := by
  rw [columns, ← not_le, ceilDiv_le_iff_le_mul hsize.width]
  omega

theorem shownAt_line (hsize : Supported size) {i : Nat} (hi : i < columns width size) :
    shownAt x y width size i =
      table x y (columns width size) (size.toNat / 2) size.toNat i := by
  rw [table, Nat.mod_eq_of_lt hi, Nat.div_eq_of_lt hi, Nat.zero_mul, Nat.add_zero]
  refine flow_line hsize.width ?_
  rwa [Nat.add_sub_cancel_left]

/-- The second line begins in the column kept. -/
theorem shownAt_wraps (hsize : Supported size) (hwidth : 0 < width) :
    shownAt x y width size (columns width size) = (x % 256, y + size.toNat) := by
  have hwraps := @flow_wraps (x % 256) (x + width) (size.toNat / 2) size.toNat hsize.width x y
    (Nat.lt_add_of_pos_right hwidth)
  rwa [Nat.add_sub_cancel_left] at hwraps

theorem shownAt_near (hsize : Supported size) (hwidth : 0 < width) (hx : x < 256) (i : Nat) :
    shownAt x y width size i =
      table x y (columns width size) (size.toNat / 2) size.toNat i := by
  rw [shownAt, Nat.mod_eq_of_lt hx, flow_table hsize.width (Nat.lt_add_of_pos_right hwidth),
    Nat.add_sub_cancel_left, columns]

theorem shownAt_later (hsize : Supported size) (hwidth : 0 < width) {i : Nat}
    (hi : columns width size ≤ i) : y + size.toNat ≤ (shownAt x y width size i).2 := by
  have hbelow : (shownAt x y width size (columns width size)).2 ≤ (shownAt x y width size i).2 :=
    flow_below (x, y) hi
  rwa [shownAt_wraps hsize hwidth] at hbelow

theorem table_later (hsize : Supported size) (hwidth : 0 < width) {i : Nat}
    (hi : columns width size ≤ i) :
    y + size.toNat ≤ (table x y (columns width size) (size.toNat / 2) size.toNat i).2 := by
  have hrow := Nat.mul_le_mul_right size.toNat (Nat.div_pos hi (columns_pos hsize hwidth))
  rw [Nat.succ_mul, Nat.zero_mul, Nat.zero_add] at hrow
  exact Nat.add_le_add_left hrow y

/-- The places shown are those of the layout where it makes a difference. -/
theorem shownAt_layout (hsize : Supported size) (hwidth : 0 < width)
    (h : x < 256 ∨ str.length ≤ columns width size ∨ height ≤ size.toNat) :
    laidOut (shownAt x y width size) (y + height) size 0 str =
      layout x y width height size str := by
  refine laidOut_congr fun j _ hj => ?_
  rw [Nat.zero_add] at hj
  by_cases hline : j < columns width size
  · exact Or.inl (shownAt_line hsize hline)
  have hlater := Nat.le_of_not_lt hline
  rcases h with hnear | hshort | hlow
  · exact Or.inl (shownAt_near hsize hwidth hnear j)
  · omega
  · have hshown := @shownAt_later x y _ _ hsize hwidth _ hlater
    have htable := @table_later x y _ _ hsize hwidth _ hlater
    right
    omega

/-- Nothing of the layout is left of the area. -/
theorem le_of_mem_layout {s : Shown} (h : s ∈ layout x y width height size str) : x ≤ s.x := by
  obtain ⟨j, c, _, _, rfl⟩ := mem_laidOut.mp h
  exact Nat.le_add_right ..

/-- From column 256 on a character of the second line is. -/
theorem shownAt_ne_layout (hsize : Supported size) (hwidth : 0 < width) (hx : 256 ≤ x)
    (hlong : columns width size < str.length) (hhigh : size.toNat < height) :
    laidOut (shownAt x y width size) (y + height) size 0 str ≠
      layout x y width height size str := by
  intro hsame
  have hmem : ⟨x % 256, y + size.toNat, str[columns width size], size⟩ ∈
      layout x y width height size str := by
    rw [← hsame]
    refine mem_laidOut.mpr ⟨_, _, List.getElem?_eq_getElem hlong, ?_, ?_⟩
    · rw [Nat.zero_add, shownAt_wraps hsize hwidth]
      dsimp only
      omega
    · rw [Nat.zero_add, shownAt_wraps hsize hwidth]
  have hle : x ≤ x % 256 := le_of_mem_layout hmem
  have hmod := Nat.mod_lt x (show 0 < 256 by decide)
  omega

end Area

section Show
variable {x y width height : UInt16} {size : UInt8} {str : List UInt8}

/-- **`LCD_ShowString`** on a text, whatever lies behind its NUL. -/
theorem lcdShowString_eq (hsize : Supported size) (hprint : ∀ c ∈ str, Printable c)
    (hwidth : 0 < width.toNat) (hx : x.toNat + width.toNat ≤ 65000)
    (hy : y.toNat + height.toNat ≤ 65000) (behind : List UInt8) :
    ∃ calls, lcdShowString x y width height size (str ++ 0 :: behind) = some calls ∧
      calls.map ShowChar.shown = laidOut (shownAt x.toNat y.toNat width.toNat size)
        (y.toNat + height.toNat) size 0 str := by
  have hright : (width + x).toNat = x.toNat + width.toNat := by
    rw [UInt16.toNat_add, Nat.add_comm]
    exact Nat.mod_eq_of_lt (by omega)
  have hbottom : (height + y).toNat = y.toNat + height.toNat := by
    rw [UInt16.toNat_add, Nat.add_comm]
    exact Nat.mod_eq_of_lt (by omega)
  have hroom : ¬ x ≥ width + x := by
    intro hge
    have hnat := UInt16.le_iff_toNat_le.mp hge
    omega
  have hfirst : wrap x.toUInt8 (width + x) size x y = (x, y) := if_neg hroom
  have hmargin : x.toUInt8.toNat = x.toNat % 256 := UInt16.toNat_toUInt8 x
  have hmod := Nat.mod_le x.toNat 256
  rw [shownAt, ← hmargin, ← hright, ← hbottom]
  refine lcdShowStringLoop_eq hsize (by omega) (by omega) (by omega) ?_ hprint behind ?_
  · dsimp only
    omega
  · rw [hfirst, flow]

/-- **The layout of a string**: `LCD_ShowString` lays it out just when the area begins left
of column 256, or no character comes into a second line. -/
theorem lcdShowString_layout_iff (hsize : Supported size) (hprint : ∀ c ∈ str, Printable c)
    (hwidth : 0 < width.toNat) (hx : x.toNat + width.toNat ≤ 65000)
    (hy : y.toNat + height.toNat ≤ 65000) (behind : List UInt8) :
    (∃ calls, lcdShowString x y width height size (str ++ 0 :: behind) = some calls ∧
      calls.map ShowChar.shown =
        layout x.toNat y.toNat width.toNat height.toNat size str) ↔
    x.toNat < 256 ∨ str.length ≤ columns width.toNat size ∨ height.toNat ≤ size.toNat := by
  obtain ⟨calls, hcalls, hshown⟩ := lcdShowString_eq hsize hprint hwidth hx hy behind
  constructor
  · rintro ⟨calls', hcalls', hlayout⟩
    rw [hcalls] at hcalls'
    cases hcalls'
    rw [hshown] at hlayout
    by_contra hno
    rw [not_or, not_or, Nat.not_lt, Nat.not_le, Nat.not_le] at hno
    exact shownAt_ne_layout hsize hwidth hno.1 hno.2.1 hno.2.2 hlayout
  · intro hcond
    exact ⟨calls, hcalls, hshown.trans (shownAt_layout hsize hwidth hcond)⟩

/-- Two characters in an area of one, at column 10: the second is below the first. -/
theorem lcdShowString_layout_iff_near :
    (∃ calls, lcdShowString 10 0 8 32 16 ([0x41, 0x42] ++ 0 :: []) = some calls ∧
      calls.map ShowChar.shown = layout 10 0 8 32 16 [0x41, 0x42]) ↔
    10 < 256 ∨ [0x41, 0x42].length ≤ columns 8 16 ∨ 32 ≤ 16 := by
  have hprint : ∀ c ∈ [(0x41 : UInt8), 0x42], Printable c :=
    List.forall_mem_cons.mpr ⟨by decide, List.forall_mem_singleton.mpr (by decide)⟩
  exact @lcdShowString_layout_iff 10 0 8 32 16 [0x41, 0x42] (by decide) hprint (by decide)
    (by decide) (by decide) []

/-- At column 256 the second one is at the left edge of the display. -/
theorem lcdShowString_layout_fails :
    ¬ ∃ calls, lcdShowString 256 0 8 32 16 ([0x41, 0x42] ++ 0 :: []) = some calls ∧
      calls.map ShowChar.shown = layout 256 0 8 32 16 [0x41, 0x42] := by
  rintro ⟨calls, hcalls, hlayout⟩
  have hshown : lcdShowString 256 0 8 32 16 ([0x41, 0x42] ++ 0 :: []) =
      some [⟨256, 0, 0x41, 16⟩, ⟨0, 16, 0x42, 16⟩] := by decide
  rw [hshown] at hcalls
  cases hcalls
  exact absurd hlayout (by decide)

end Show

end Generalplate.Lcd
