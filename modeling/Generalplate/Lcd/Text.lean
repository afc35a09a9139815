import Mathlib.Data.Nat.Notation

/-! # Text on the display

`LCD_ShowString` shows the characters of a string in an area, a line below the other,
until it meets one that is not printable or the area is full. -/
namespace Generalplate.Lcd

/-- A call of `LCD_ShowChar` that it makes, in mode 0. -/
structure ShowChar where
  x : UInt16
  y : UInt16
  num : UInt8
  size : UInt8
deriving DecidableEq, Repr

/-- `LCD_ShowString` shows the character. -/
def Printable (c : UInt8) : Prop := c ≤ 0x7e ∧ c ≥ 0x20

instance (c : UInt8) : Decidable (Printable c) := inferInstanceAs (Decidable (_ ∧ _))

/-- Where the next character goes: in a line below when this one is full. -/
def wrap (x0 : UInt8) (width : UInt16) (size : UInt8) (x y : UInt16) : UInt16 × UInt16 :=
  if x ≥ width then (x0.toUInt16, y + size.toUInt16) else (x, y)

/-- The loop of `LCD_ShowString` over the bytes from `p` on, none when it reads behind
them; `width` and `height` are the end of the area. -/
def lcdShowStringLoop (x0 : UInt8) (width height : UInt16) (size : UInt8) :
    List UInt8 → UInt16 → UInt16 → Option (List ShowChar)
  | [], _, _ => none
  | c :: p, x, y =>
    if Printable c then
      let pos := wrap x0 width size x y
      if pos.2 ≥ height then some []
      else (lcdShowStringLoop x0 width height size p (pos.1 + (size / 2).toUInt16) pos.2).map
        (⟨pos.1, pos.2, c, size⟩ :: ·)
    else some []

/-- `LCD_ShowString`; the first column of a line is kept in 8 bits. -/
def lcdShowString (x y width height : UInt16) (size : UInt8) (p : List UInt8) :
    Option (List ShowChar) :=
  lcdShowStringLoop x.toUInt8 (width + x) (height + y) size p x y

/-- A byte that is not printable ends the text, wherever it is shown. -/
theorem lcdShowString_stops (x y width height : UInt16) (size : UInt8) {p : List UInt8}
    {c : UInt8} (hc : c ∈ p) (hstop : ¬ Printable c) :
    (lcdShowString x y width height size p).isSome := by
  rw [lcdShowString]
  generalize x.toUInt8 = x0, width + x = xEnd, height + y = yEnd
  induction p generalizing x y with
  | nil => cases hc
  | cons d p ih =>
    rw [lcdShowStringLoop]
    by_cases hd : Printable d
    · have hrest : c ∈ p := by
        rcases List.mem_cons.mp hc with rfl | hmem
        · exact absurd hd hstop
        · exact hmem
      rw [if_pos hd]
      dsimp only
      split
      · rfl
      · rw [Option.isSome_map]
        exact ih _ _ hrest
    · rw [if_neg hd]
      rfl

end Generalplate.Lcd
