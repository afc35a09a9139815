import Mathlib.Algebra.Ring.Int.Defs
import Mathlib.Data.Int.Order.Basic
import Generalplate.Lib.Spread

/-! # Lines on the display

`LCD_DrawLine` draws a point for each step of the longer coordinate. An error of its
own for each coordinate says when the coordinate moves on. -/
namespace Generalplate.Lcd
open Lib.Spread

/-- The direction of a difference of coordinates, and its size. -/
def lineInc (delta : ℤ) : ℤ × ℤ :=
  if delta > 0 then (1, delta) else if delta = 0 then (0, delta) else (-1, -delta)

/-- What `LCD_DrawLine` computes before its loop. -/
structure Line where
  deltaX : ℤ
  deltaY : ℤ
  distance : ℤ
  incx : ℤ
  incy : ℤ

def Line.of (x1 y1 x2 y2 : UInt16) : Line :=
  let x := lineInc (x2.toNat - x1.toNat)
  let y := lineInc (y2.toNat - y1.toNat)
  { deltaX := x.2
    deltaY := y.2
    distance := if x.2 > y.2 then x.2 else y.2
    incx := x.1
    incy := y.1 }

/-- A coordinate and its error: `uRow` and `xerr`, `uCol` and `yerr`. -/
structure Axis where
  err : ℤ
  pos : ℤ

def Axis.next (delta distance inc : ℤ) (a : Axis) : Axis :=
  let err := a.err + delta
  if err > distance then ⟨err - distance, a.pos + inc⟩ else ⟨err, a.pos⟩

structure LineState where
  t : UInt16
  row : Axis
  col : Axis

/-- The arguments of `LCD_DrawPoint`. -/
def LineState.point (s : LineState) : UInt16 × UInt16 :=
  (UInt16.ofInt s.row.pos, UInt16.ofInt s.col.pos)

def LineState.next (l : Line) (s : LineState) : LineState where
  t := s.t + 1
  row := s.row.next l.deltaX l.distance l.incx
  col := s.col.next l.deltaY l.distance l.incy

/-- The loop, none when it has not ended after `fuel` times. -/
def drawLoop (l : Line) : Nat → LineState → Option (List (UInt16 × UInt16))
  | 0, _ => none
  | fuel + 1, s =>
    if s.t.toNat ≤ l.distance + 1 then (drawLoop l fuel (s.next l)).map (s.point :: ·)
    else some []

/-- The points that `LCD_DrawLine` draws. -/
def lcdDrawLine (fuel : Nat) (x1 y1 x2 y2 : UInt16) : Option (List (UInt16 × UInt16)) :=
  drawLoop (.of x1 y1 x2 y2) fuel ⟨0, ⟨0, x1.toNat⟩, ⟨0, y1.toNat⟩⟩

/-! ## One coordinate -/

theorem lineInc_eq (delta : ℤ) : lineInc delta = (delta.sign, (delta.natAbs : ℤ)) := by
  rw [lineInc]
  rcases lt_trichotomy delta 0 with hneg | rfl | hpos
  · rw [if_neg (by omega), if_neg (by omega), Int.sign_eq_neg_one_of_neg hneg]
    ext
    · rfl
    · simp only
      omega
  · rfl
  · rw [if_pos hpos, Int.sign_eq_one_of_pos hpos]
    ext
    · rfl
    · simp only
      omega

/-- The coordinate on the way from `a` to `b` after `m` moves. -/
def coord (a b : UInt16) (m : Nat) : ℤ := a.toNat + ((b.toNat : ℤ) - a.toNat).sign * m

/-- The coordinates differ by this much. -/
def gap (a b : UInt16) : Nat := ((b.toNat : ℤ) - a.toNat).natAbs

theorem coord_cases (a b : UInt16) (m : Nat) :
    (a.toNat + gap a b = b.toNat ∧ 0 < gap a b ∧ coord a b m = a.toNat + m) ∨
    (a = b ∧ gap a b = 0 ∧ coord a b m = a.toNat) ∨
    (b.toNat + gap a b = a.toNat ∧ 0 < gap a b ∧ coord a b m = a.toNat - m) := by
  unfold coord gap
  rcases lt_trichotomy ((b.toNat : ℤ) - a.toNat) 0 with hneg | hzero | hpos
  · rw [Int.sign_eq_neg_one_of_neg hneg]
    omega
  · rw [hzero]
    refine Or.inr (Or.inl ⟨?_, rfl, by simp⟩)
    rw [← UInt16.toNat_inj]
    omega
  · rw [Int.sign_eq_one_of_pos hpos]
    omega

/-- A coordinate on the way is one between the two, and drawn as it is. -/
theorem toNat_coord {a b : UInt16} {m : Nat} (hm : m ≤ gap a b) :
    ((UInt16.ofInt (coord a b m)).toNat : ℤ) = coord a b m ∧
    min (a.toNat : ℤ) b.toNat ≤ coord a b m ∧ coord a b m ≤ max (a.toNat : ℤ) b.toNat := by
  have ha := a.toNat_lt
  have hb := b.toNat_lt
  have hcases := coord_cases a b m
  have hrange : min (a.toNat : ℤ) b.toNat ≤ coord a b m ∧
      coord a b m ≤ max (a.toNat : ℤ) b.toNat := by
    rcases hcases with ⟨hgap, -, heq⟩ | ⟨heq, -, hcoord⟩ | ⟨hgap, -, heq⟩
    · omega
    · subst heq
      omega
    · omega
  refine ⟨?_, hrange⟩
  rw [UInt16.ofInt, UInt16.toNat_ofNat']
  omega

theorem coord_zero (a b : UInt16) : coord a b 0 = a.toNat := by simp [coord]

theorem coord_gap (a b : UInt16) : coord a b (gap a b) = b.toNat := by
  rcases coord_cases a b (gap a b) with ⟨hgap, -, heq⟩ | ⟨rfl, -, heq⟩ | ⟨hgap, -, heq⟩ <;> omega

theorem coord_succ (a b : UInt16) (m : Nat) :
    coord a b (m + 1) = coord a b m + ((b.toNat : ℤ) - a.toNat).sign := by
  rw [coord, coord, Nat.cast_succ, mul_add_one, add_assoc]

/-- The coordinate and its error after `k` times. -/
def axisAt (a b : UInt16) (distance k : Nat) : Axis where
  err := ((k * gap a b : Nat) : ℤ) - (distance * steps (gap a b) distance k : Nat)
  pos := coord a b (steps (gap a b) distance k)

theorem Axis.next_moves {delta distance inc : ℤ} {a : Axis} (h : a.err + delta > distance) :
    a.next delta distance inc = ⟨a.err + delta - distance, a.pos + inc⟩ := if_pos h

theorem Axis.next_stays {delta distance inc : ℤ} {a : Axis} (h : ¬ a.err + delta > distance) :
    a.next delta distance inc = ⟨a.err + delta, a.pos⟩ := if_neg h

theorem axisAt_next {a b : UInt16} {distance : Nat} (hle : gap a b ≤ distance) (k : Nat) :
    (axisAt a b distance k).next (gap a b) distance ((b.toNat : ℤ) - a.toNat).sign =
      axisAt a b distance (k + 1) := by
  have herr : (axisAt a b distance k).err =
    ((k * gap a b : Nat) : ℤ) - (distance * steps (gap a b) distance k : Nat) := rfl
  have hpos : (axisAt a b distance k).pos = coord a b (steps (gap a b) distance k) := rfl
  have hsucc : (k + 1) * gap a b = k * gap a b + gap a b := Nat.add_one_mul ..
  rcases steps_succ hle k with ⟨hgt, heq⟩ | ⟨hge, heq⟩
  · rw [Axis.next_moves (by rw [herr]; omega), herr, hpos, axisAt, heq, coord_succ,
      Nat.mul_add_one]
    congr 1
    omega
  · rw [Axis.next_stays (by rw [herr]; omega), herr, hpos, axisAt, heq]
    congr 1
    omega

/-! ## The loop -/

section Loop
variable (x1 y1 x2 y2 : UInt16)

/-- `distance`, the larger difference. -/
def reach : Nat := max (gap x1 x2) (gap y1 y2)

theorem gap_le_reach : gap x1 x2 ≤ reach x1 y1 x2 y2 ∧ gap y1 y2 ≤ reach x1 y1 x2 y2 :=
  ⟨Nat.le_max_left .., Nat.le_max_right ..⟩

theorem line_eq : Line.of x1 y1 x2 y2 = ⟨gap x1 x2, gap y1 y2, reach x1 y1 x2 y2,
    ((x2.toNat : ℤ) - x1.toNat).sign, ((y2.toNat : ℤ) - y1.toNat).sign⟩ := by
  have hmax : (if (gap x1 x2 : ℤ) > gap y1 y2 then (gap x1 x2 : ℤ) else gap y1 y2) =
      reach x1 y1 x2 y2 := by
    unfold reach
    split <;> omega
  rw [Line.of, lineInc_eq, lineInc_eq, ← hmax]
  rfl

/-- The state before the point number `k` is drawn. -/
def lineAt (k : Nat) : LineState where
  t := UInt16.ofNat k
  row := axisAt x1 x2 (reach x1 y1 x2 y2) k
  col := axisAt y1 y2 (reach x1 y1 x2 y2) k

theorem lineAt_next (k : Nat) : (lineAt x1 y1 x2 y2 k).next (.of x1 y1 x2 y2) =
    lineAt x1 y1 x2 y2 (k + 1) := by
  obtain ⟨hx, hy⟩ := gap_le_reach x1 y1 x2 y2
  rw [line_eq, LineState.next, lineAt]
  simp only [axisAt_next hx, axisAt_next hy]
  rw [lineAt, UInt16.ofNat_add]
  rfl

theorem lineAt_zero : lineAt x1 y1 x2 y2 0 = ⟨0, ⟨0, x1.toNat⟩, ⟨0, y1.toNat⟩⟩ := by
  rw [lineAt, axisAt, axisAt]
  simp [coord_zero]

omit x1 y1 x2 y2 in
theorem toNat_counter {k : Nat} (h : k < 65536) : (UInt16.ofNat k).toNat = k := by
  rw [UInt16.toNat_ofNat', Nat.mod_eq_of_lt h]

/-- The loop draws the points that are left, when its 16-bit counter can count them. -/
theorem drawLoop_eq (hreach : reach x1 y1 x2 y2 < 65534) {n k fuel : Nat}
    (hk : k + n = reach x1 y1 x2 y2 + 2) (hfuel : n < fuel) :
    drawLoop (.of x1 y1 x2 y2) fuel (lineAt x1 y1 x2 y2 k) =
      some ((List.range' k n).map fun i => (lineAt x1 y1 x2 y2 i).point) := by
  induction n generalizing k fuel with
  | zero =>
    obtain ⟨fuel, rfl⟩ := Nat.exists_eq_add_of_lt hfuel
    have ht := toNat_counter (show k < 65536 by omega)
    have hend : ¬ ((lineAt x1 y1 x2 y2 k).t.toNat : ℤ) ≤ (Line.of x1 y1 x2 y2).distance + 1 := by
      rw [line_eq, lineAt, ht]
      simp only
      omega
    rw [Nat.zero_add, drawLoop, if_neg hend, List.range'_zero, List.map_nil]
  | succ n ih =>
    obtain ⟨fuel, rfl⟩ := Nat.exists_eq_add_of_lt hfuel
    have ht := toNat_counter (show k < 65536 by omega)
    have hgo : ((lineAt x1 y1 x2 y2 k).t.toNat : ℤ) ≤ (Line.of x1 y1 x2 y2).distance + 1 := by
      rw [line_eq, lineAt, ht]
      simp only
      omega
    rw [drawLoop, if_pos hgo, lineAt_next, ih (by omega) (by omega), List.range'_succ,
      List.map_cons, Option.map_some]

/-- The points of the line. -/
def linePoints : List (UInt16 × UInt16) :=
  (List.range' 0 (reach x1 y1 x2 y2 + 2)).map fun i => (lineAt x1 y1 x2 y2 i).point

theorem lcdDrawLine_eq (hreach : reach x1 y1 x2 y2 < 65534) {fuel : Nat}
    (hfuel : reach x1 y1 x2 y2 + 2 < fuel) :
    lcdDrawLine fuel x1 y1 x2 y2 = some (linePoints x1 y1 x2 y2) := by
  rw [lcdDrawLine, ← lineAt_zero, drawLoop_eq x1 y1 x2 y2 hreach (Nat.zero_add _) hfuel]
  rfl

theorem linePoints_length : (linePoints x1 y1 x2 y2).length = reach x1 y1 x2 y2 + 2 := by
  rw [linePoints, List.length_map, List.length_range']

/-! ## When the loop ends -/

omit x1 y1 x2 y2 in
/-- No 16-bit counter is above such a bound. -/
theorem drawLoop_endless {l : Line} (hfar : 65534 ≤ l.distance) (fuel : Nat) (s : LineState) :
    drawLoop l fuel s = none := by
  induction fuel generalizing s with
  | zero => rfl
  | succ fuel ih =>
    have hgo : (s.t.toNat : ℤ) ≤ l.distance + 1 := by
      have ht := s.t.toNat_lt
      omega
    rw [drawLoop, if_pos hgo, ih, Option.map_none]

theorem lcdDrawLine_endless (hfar : 65534 ≤ reach x1 y1 x2 y2) (fuel : Nat) :
    lcdDrawLine fuel x1 y1 x2 y2 = none := by
  refine drawLoop_endless ?_ fuel _
  rw [line_eq]
  exact Int.ofNat_le.mpr hfar

/-- The line is drawn, with a point for each step and two more, exactly when neither
difference is one of the two largest. -/
theorem lcdDrawLine_ends_iff :
    (∃ fuel points, lcdDrawLine fuel x1 y1 x2 y2 = some points ∧
      points.length = max (gap x1 x2) (gap y1 y2) + 2) ↔
    max (gap x1 x2) (gap y1 y2) < 65534 := by
  constructor
  · rintro ⟨fuel, points, hdraw, -⟩
    by_contra hfar
    rw [lcdDrawLine_endless x1 y1 x2 y2 (Nat.le_of_not_lt hfar) fuel] at hdraw
    cases hdraw
  · intro hnear
    exact ⟨reach x1 y1 x2 y2 + 3, linePoints x1 y1 x2 y2,
      lcdDrawLine_eq x1 y1 x2 y2 hnear (Nat.lt_succ_self _), linePoints_length x1 y1 x2 y2⟩

omit x1 y1 x2 y2 in
/-- From the first column to the last but one the loop does not end. -/
theorem lcdDrawLine_never_ends :
    ¬ ∃ fuel points, lcdDrawLine fuel 0 0 65534 0 = some points ∧
      points.length = max (gap 0 65534) (gap 0 0) + 2 := by
  rintro ⟨fuel, points, hdraw, -⟩
  rw [lcdDrawLine_endless 0 0 65534 0 (by decide) fuel] at hdraw
  cases hdraw

end Loop

end Generalplate.Lcd
