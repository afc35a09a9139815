import Mathlib.Algebra.GroupWithZero.Nat
import Mathlib.Tactic.SplitIfs
import Generalplate.Lcd.Text

/-! # Numbers on the display

`LCD_ShowNum` and `LCD_ShowxNum` show the last digits of a number, the leading zeros as
blanks. They divide by a power of ten that they compute in 32 bits: from the eleventh
digit on it has wrapped around, and from the thirty-third on it is zero. -/
namespace Generalplate.Lcd

/-- The loop of `LCD_Pow`, with `n` times left. -/
def powLoop (m : UInt8) : Nat → UInt32 → UInt32
  | 0, result => result
  | n + 1, result => powLoop m n (result * m.toUInt32)

def lcdPow (m n : UInt8) : UInt32 := powLoop m n.toNat 1

/-- A call of `LCD_ShowChar` with its mode. -/
structure CharCall extends ShowChar where
  mode : UInt8
deriving DecidableEq, Repr

/-- The call for the character at place `t` of a number. -/
def placeChar (x y : UInt16) (size mode t num : UInt8) : CharCall :=
  ⟨⟨x + (size / 2).toUInt16 * t.toUInt16, y, num, size⟩, mode⟩

/-- The loop that `LCD_ShowNum` and `LCD_ShowxNum` share, with `n` places left; `fill` is
shown for a leading zero. None when it divides by zero. -/
def showNumLoop (x y : UInt16) (num : UInt32) (len size fill mode : UInt8) :
    Nat → UInt8 → Bool → Option (List CharCall)
  | 0, _, _ => some []
  | n + 1, t, enshow =>
    let pow := lcdPow 10 (len - t - 1)
    if pow = 0 then none
    else
      let temp := (num / pow % 10).toUInt8
      let char := placeChar x y size mode t
      if enshow = false ∧ t < len - 1 then
        if temp = 0 then
          (showNumLoop x y num len size fill mode n (t + 1) false).map (char fill :: ·)
        else (showNumLoop x y num len size fill mode n (t + 1) true).map (char (temp + 0x30) :: ·)
      else (showNumLoop x y num len size fill mode n (t + 1) enshow).map (char (temp + 0x30) :: ·)

def lcdShowNum (x y : UInt16) (num : UInt32) (len size : UInt8) : Option (List CharCall) :=
  showNumLoop x y num len size 0x20 0 len.toNat 0 false

/-- Bit 7 of `mode` fills with zeros. -/
def fillChar (mode : UInt8) : UInt8 := if mode &&& 0x80 ≠ 0 then 0x30 else 0x20

def lcdShowxNum (x y : UInt16) (num : UInt32) (len size mode : UInt8) : Option (List CharCall) :=
  showNumLoop x y num len size (fillChar mode) (mode &&& 1) len.toNat 0 false

/-! ## The digits of a number -/

/-- A digit as it is shown; a leading zero is filled. -/
def digitText (fill : UInt8) (leading : Bool) (d : Nat) : UInt8 :=
  if leading = true ∧ d = 0 then fill else UInt8.ofNat d + 0x30

/-- Place `t` of the last `len` digits of a number; leading zeros are filled, except in the
last place. -/
def numberText (fill : UInt8) (num len t : Nat) : UInt8 :=
  let high := num % 10 ^ len / 10 ^ (len - 1 - t)
  if high = 0 ∧ t + 1 < len then fill else UInt8.ofNat (high % 10) + 0x30

/-- The calls that show a number. -/
def numberCalls (x y : UInt16) (num : UInt32) (len size fill mode : UInt8) : List CharCall :=
  (List.range len.toNat).map fun t =>
    placeChar x y size mode (UInt8.ofNat t) (numberText fill num.toNat len.toNat t)

theorem high_step (num len n : Nat) : num % 10 ^ len / 10 ^ n =
    10 * (num % 10 ^ len / 10 ^ (n + 1)) + num % 10 ^ len / 10 ^ n % 10 := by
  rw [Nat.pow_succ, ← Nat.div_div_eq_div_mul]
  exact (Nat.div_add_mod _ _).symm

theorem high_digit {num len n : Nat} (hn : n < len) :
    num % 10 ^ len / 10 ^ n % 10 = num / 10 ^ n % 10 := by
  obtain ⟨k, rfl⟩ := Nat.exists_eq_add_of_lt hn
  rw [Nat.add_assoc, Nat.pow_add, Nat.mod_mul_right_div_self]
  exact Nat.mod_mod_of_dvd _ ⟨10 ^ k, by rw [Nat.pow_succ, Nat.mul_comm]⟩

/-- The text of a digit, from the digits in front of it. -/
theorem numberText_eq (fill : UInt8) {num len n t : Nat} (ht : t + (n + 1) = len) {leading : Bool}
    (hleading : leading = true ↔ num % 10 ^ len / 10 ^ (n + 1) = 0 ∧ 0 < n) :
    numberText fill num len t = digitText fill leading (num / 10 ^ n % 10) := by
  have hexp : len - 1 - t = n := by omega
  have hstep := high_step num len n
  have hdigit := @high_digit num len n (by omega)
  have hsame : num % 10 ^ len / 10 ^ n = 0 ∧ t + 1 < len ↔
      leading = true ∧ num / 10 ^ n % 10 = 0 := by
    rw [hleading]
    omega
  unfold numberText digitText
  simp only [hexp, hdigit, hsame]

/-- Two digits shown alike are the same. -/
theorem digitText_inj {fill : UInt8} (hfill : fill = 0x20 ∨ fill = 0x30) (leading : Bool)
    {d e : Nat} (hd : d < 10) (he : e < 10) :
    digitText fill leading d = digitText fill leading e ↔ d = e := by
  have hall : ∀ leading : Bool, ∀ d < 10, ∀ e < 10,
      (digitText 0x20 leading d = digitText 0x20 leading e ↔ d = e) ∧
      (digitText 0x30 leading d = digitText 0x30 leading e ↔ d = e) := by decide
  rcases hfill with rfl | rfl
  · exact (hall leading d hd e he).1
  · exact (hall leading d hd e he).2

/-! ## The loop -/

theorem powLoop_eq (m : UInt8) (n : Nat) (result : UInt32) :
    (powLoop m n result).toNat = result.toNat * m.toNat ^ n % 2 ^ 32 := by
  induction n generalizing result with
  | zero =>
    rw [powLoop, Nat.pow_zero, Nat.mul_one]
    exact (Nat.mod_eq_of_lt result.toNat_lt).symm
  | succ n ih =>
    have hpow : m.toNat ^ (n + 1) = m.toNat * m.toNat ^ n := Nat.pow_succ'
    rw [powLoop, ih, UInt32.toNat_mul, UInt8.toNat_toUInt32, hpow, ← Nat.mul_assoc,
      Nat.mod_mul_mod]

theorem lcdPow_eq (m n : UInt8) : (lcdPow m n).toNat = m.toNat ^ n.toNat % 2 ^ 32 := by
  rw [lcdPow, powLoop_eq, UInt32.toNat_one, Nat.one_mul]

/-- The power of ten computed in 32 bits gives the right digit. -/
def Exact (num e : Nat) : Prop :=
  10 ^ e % 2 ^ 32 ≠ 0 ∧ num / (10 ^ e % 2 ^ 32) % 10 = num / 10 ^ e % 10

/-- The counter of the places, and how many are left behind place `k`. -/
theorem place_left {len : UInt8} {n k : Nat} (hk : k + (n + 1) = len.toNat) :
    (UInt8.ofNat k).toNat = k ∧ (len - UInt8.ofNat k - 1).toNat = n := by
  have hlen := len.toNat_lt
  have hplace : (UInt8.ofNat k).toNat = k := by
    rw [UInt8.toNat_ofNat']
    exact Nat.mod_eq_of_lt (by omega)
  refine ⟨hplace, ?_⟩
  rw [UInt8.toNat_sub, UInt8.toNat_sub, hplace, UInt8.toNat_one]
  omega

theorem lcdPow_place {len : UInt8} {n k : Nat} (hk : k + (n + 1) = len.toNat) :
    (lcdPow 10 (len - UInt8.ofNat k - 1)).toNat = 10 ^ n % 2 ^ 32 := by
  rw [lcdPow_eq, (place_left hk).2]
  rfl

section Loop
variable (x y : UInt16) (num : UInt32) (len size fill mode : UInt8)

/-- One pass of the loop: a character, and whether a digit other than zero was shown. -/
theorem showNumLoop_pass {n k : Nat} (hk : k + (n + 1) = len.toNat) (enshow : Bool) :
    showNumLoop x y num len size fill mode (n + 1) (UInt8.ofNat k) enshow =
      if 10 ^ n % 2 ^ 32 = 0 then none
      else (showNumLoop x y num len size fill mode n (UInt8.ofNat (k + 1))
          (enshow || decide (0 < n ∧ num.toNat / (10 ^ n % 2 ^ 32) % 10 ≠ 0))).map
        (placeChar x y size mode (UInt8.ofNat k) (digitText fill (!enshow && decide (0 < n))
          (num.toNat / (10 ^ n % 2 ^ 32) % 10)) :: ·) := by
  have hpow := lcdPow_place hk
  have hlast : UInt8.ofNat k < len - 1 ↔ 0 < n := by
    have hlen := len.toNat_lt
    rw [UInt8.lt_iff_toNat_lt, (place_left hk).1, UInt8.toNat_sub, UInt8.toNat_one]
    omega
  have hnext : UInt8.ofNat k + 1 = UInt8.ofNat (k + 1) := (UInt8.ofNat_add k 1).symm
  have hzero : lcdPow 10 (len - UInt8.ofNat k - 1) = 0 ↔ 10 ^ n % 2 ^ 32 = 0 := by
    rw [← hpow, ← UInt32.toNat_inj, UInt32.toNat_zero]
  have htemp : (num / lcdPow 10 (len - UInt8.ofNat k - 1) % 10).toUInt8 =
      UInt8.ofNat (num.toNat / (10 ^ n % 2 ^ 32) % 10) := by
    rw [← hpow]
    rfl
  have hdigit := Nat.mod_lt (num.toNat / (10 ^ n % 2 ^ 32)) (show 0 < 10 by decide)
  have hnone : UInt8.ofNat (num.toNat / (10 ^ n % 2 ^ 32) % 10) = 0 ↔
      num.toNat / (10 ^ n % 2 ^ 32) % 10 = 0 := by
    rw [← UInt8.toNat_inj, UInt8.toNat_ofNat', UInt8.toNat_zero]
    omega
  generalize num.toNat / (10 ^ n % 2 ^ 32) % 10 = d at htemp hdigit hnone ⊢
  rw [showNumLoop]
  simp only [hzero, htemp, hlast, hnext, hnone, digitText]
  split
  · rfl
  cases enshow with
  | true => simp
  | false =>
    by_cases hn : 0 < n
    · by_cases hd : d = 0 <;> simp [hn, hd]
    · simp [hn]

omit num len fill in
theorem placeChar_inj {t c d : UInt8} :
    placeChar x y size mode t c = placeChar x y size mode t d ↔ c = d := by
  simp [placeChar]

omit x y num len size fill mode in
theorem map_cons_eq_some {α : Type} {o : Option (List α)} {a b : α} {l : List α} :
    o.map (a :: ·) = some (b :: l) ↔ a = b ∧ o = some l := by
  cases o with
  | none => simp
  | some l' => simp

/-- **The loop shows the number** just when every power it divides by gives the right digit. -/
theorem showNumLoop_iff (hfill : fill = 0x20 ∨ fill = 0x30) {n k : Nat} (hk : k + n = len.toNat)
    {enshow : Bool}
    (hshow : 0 < n → (enshow = true ↔ num.toNat % 10 ^ len.toNat / 10 ^ n ≠ 0)) :
    showNumLoop x y num len size fill mode n (UInt8.ofNat k) enshow =
      some ((List.range' k n).map fun t =>
        placeChar x y size mode (UInt8.ofNat t) (numberText fill num.toNat len.toNat t)) ↔
    ∀ e < n, Exact num.toNat e := by
  induction n generalizing k enshow with
  | zero => exact iff_of_true rfl fun e he => absurd he (Nat.not_lt_zero e)
  | succ n ih =>
    have hshow := hshow (Nat.succ_pos n)
    have hleading : (!enshow && decide (0 < n)) = true ↔
        num.toNat % 10 ^ len.toNat / 10 ^ (n + 1) = 0 ∧ 0 < n := by
      rw [Bool.and_eq_true, Bool.not_eq_true', ← Bool.not_eq_true, hshow, not_not,
        decide_eq_true_eq]
    have hdigit := fun m => Nat.mod_lt m (show 0 < 10 by decide)
    have hall : (∀ e < n + 1, Exact num.toNat e) ↔
        Exact num.toNat n ∧ ∀ e < n, Exact num.toNat e := by
      rw [Nat.forall_lt_succ_right, and_comm]
    rw [showNumLoop_pass x y num len size fill mode hk, hall, List.range'_succ, List.map_cons,
      numberText_eq fill hk hleading]
    by_cases hpow : 10 ^ n % 2 ^ 32 = 0
    · rw [if_pos hpow]
      exact iff_of_false (by simp) fun h => h.1.1 hpow
    · rw [if_neg hpow, map_cons_eq_some, placeChar_inj, digitText_inj hfill _ (hdigit _) (hdigit _),
        Exact, and_iff_right hpow]
      refine and_congr_right fun hexact => ih (by omega) fun hn => ?_
      have hstep := high_step num.toNat len.toNat n
      rw [high_digit (show n < len.toNat by omega)] at hstep
      rw [Bool.or_eq_true, decide_eq_true_eq, hshow, hexact]
      omega

end Loop

/-! ## Where the powers are right -/

/-- The numbers that are shown right in `len` places are those below it: the least of the
powers that have wrapped around. -/
def numberLimit (len : Nat) : Nat :=
  if len ≤ 10 then 2 ^ 32
  else if len ≤ 11 then 1410065408
  else if len ≤ 14 then 1215752192
  else if len ≤ 28 then 276447232
  else if len ≤ 32 then 268435456
  else 0

/-- In more than thirty-two places a power is zero. -/
theorem numberLimit_zero {len : Nat} (h : 32 < len) : numberLimit len = 0 := by
  rw [numberLimit, if_neg (by omega), if_neg (by omega), if_neg (by omega), if_neg (by omega),
    if_neg (by omega)]

theorem numberLimit_le {len e : Nat} (hlen : len ≤ 32) (he : 10 ≤ e) (hlt : e < len) :
    numberLimit len ≤ 10 ^ e % 2 ^ 32 := by
  have hall : ∀ len < 33, ∀ e < len, 10 ≤ e → numberLimit len ≤ 10 ^ e % 2 ^ 32 := by
    decide +kernel
  exact hall len (Nat.lt_succ_of_le hlen) e hlt he

/-- Up to the tenth digit the power fits 32 bits. -/
theorem exact_low {num e : Nat} (he : e < 10) : Exact num e := by
  have hall : ∀ e < 10, 10 ^ e % 2 ^ 32 = 10 ^ e := by decide
  have hpos : 0 < 10 ^ e := Nat.pow_pos (by decide)
  rw [Exact, hall e he]
  exact ⟨by omega, rfl⟩

/-- From there on the digit is zero. -/
theorem exact_high {num e : Nat} (hnum : num < 2 ^ 32) (he : 10 ≤ e) :
    Exact num e ↔ 10 ^ e % 2 ^ 32 ≠ 0 ∧ num / (10 ^ e % 2 ^ 32) % 10 = 0 := by
  have hbig : 10 ^ 10 ≤ 10 ^ e := Nat.pow_le_pow_right (by decide) he
  rw [Exact, Nat.div_eq_of_lt (show num < 10 ^ e by omega), Nat.zero_mod]

theorem exact_of_limit {num len : Nat} (hnum : num < 2 ^ 32) (h : num < numberLimit len) {e : Nat}
    (he : e < len) : Exact num e := by
  rcases Nat.lt_or_ge e 10 with hlow | hhigh
  · exact exact_low hlow
  have hlen : len ≤ 32 := by
    refine Nat.le_of_not_lt fun hlong => ?_
    rw [numberLimit_zero hlong] at h
    exact Nat.not_lt_zero _ h
  have hless := Nat.lt_of_lt_of_le h (numberLimit_le hlen hhigh he)
  rw [exact_high hnum hhigh, Nat.div_eq_of_lt hless]
  exact ⟨Nat.ne_of_gt (Nat.zero_lt_of_lt hless), rfl⟩

theorem limit_of_exact {num len : Nat} (hnum : num < 2 ^ 32) (h : ∀ e < len, Exact num e) :
    num < numberLimit len := by
  have hdigit : ∀ e p, 10 ≤ e → 10 ^ e % 2 ^ 32 = p → e < len → num / p % 10 = 0 := by
    rintro e p he rfl hlt
    exact ((exact_high hnum he).mp (h e hlt)).2
  -- the digits at which the least power changes
  have h10 := hdigit 10 1410065408 (by decide) rfl
  have h11 := hdigit 11 1215752192 (by decide) rfl
  have h14 := hdigit 14 276447232 (by decide) rfl
  have h28 := hdigit 28 268435456 (by decide) rfl
  unfold numberLimit
  split_ifs with hl10 hl11 hl14 hl28 hl32
  · exact hnum
  · have hp10 := h10 (by omega)
    omega
  · have hp10 := h10 (by omega)
    have hp11 := h11 (by omega)
    omega
  · have hp10 := h10 (by omega)
    have hp14 := h14 (by omega)
    omega
  · have hp10 := h10 (by omega)
    have hp28 := h28 (by omega)
    omega
  · exact absurd (by decide) (h 32 (by omega)).1

/-! ## What the functions show -/

section Show
variable (x y : UInt16) (num : UInt32) (len size mode : UInt8)

theorem showNumLoop_all {fill : UInt8} (hfill : fill = 0x20 ∨ fill = 0x30) :
    showNumLoop x y num len size fill mode len.toNat 0 false =
      some (numberCalls x y num len size fill mode) ↔ num.toNat < numberLimit len.toNat := by
  have hfirst : num.toNat % 10 ^ len.toNat / 10 ^ len.toNat = 0 :=
    Nat.div_eq_of_lt (Nat.mod_lt _ (Nat.pow_pos (by decide)))
  have hloop := @showNumLoop_iff x y num len size fill mode hfill len.toNat 0 (Nat.zero_add _) false
    fun _ => by simp [hfirst]
  rw [numberCalls, List.range_eq_range']
  refine hloop.trans ⟨limit_of_exact num.toNat_lt, fun h e he => exact_of_limit num.toNat_lt h he⟩

theorem fillChar_cases (mode : UInt8) : fillChar mode = 0x20 ∨ fillChar mode = 0x30 := by
  unfold fillChar
  split
  · exact Or.inr rfl
  · exact Or.inl rfl

/-- In mode 0 the two functions are the same. -/
theorem lcdShowxNum_zero :
    lcdShowxNum x y num len size 0 = lcdShowNum x y num len size := rfl

/-- **The number displays** show the last `len` digits of a number just when it is below
the least power of ten that has wrapped around. -/
theorem lcdShowNum_iff :
    (lcdShowNum x y num len size = some (numberCalls x y num len size 0x20 0) ∧
      lcdShowxNum x y num len size mode =
        some (numberCalls x y num len size (fillChar mode) (mode &&& 1)) ∧
      lcdShowxNum x y num len size 0 = lcdShowNum x y num len size) ↔
    num.toNat < numberLimit len.toNat := by
  rw [lcdShowNum, lcdShowxNum, showNumLoop_all x y num len size 0 (Or.inl rfl),
    showNumLoop_all x y num len size (mode &&& 1) (fillChar_cases mode)]
  exact ⟨fun h => h.1, fun h => ⟨h, h, lcdShowxNum_zero x y num len size⟩⟩

/-- The largest number in eleven places begins with a digit 3 in place of a blank. -/
theorem lcdShowNum_wrong :
    ¬ (lcdShowNum 0 0 4294967295 11 16 = some (numberCalls 0 0 4294967295 11 16 0x20 0) ∧
      lcdShowxNum 0 0 4294967295 11 16 0 =
        some (numberCalls 0 0 4294967295 11 16 (fillChar 0) (0 &&& 1)) ∧
      lcdShowxNum 0 0 4294967295 11 16 0 = lcdShowNum 0 0 4294967295 11 16) := by
  decide

end Show

end Generalplate.Lcd
