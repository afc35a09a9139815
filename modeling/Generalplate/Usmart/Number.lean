import Mathlib.Data.Nat.Digits.Defs
import Generalplate.Usmart.Str

/-! # Numbers

`usmart_str2num` adds up the digits with the powers of the base in u32
arithmetic. It reads decimal digits, or `0X` and hexadecimal ones, and what it
reads is the number they denote modulo 2^32. -/
namespace Generalplate.Usmart

def isDec (c : UInt8) : Bool := 0x30 ≤ c && c ≤ 0x39

/-- The letters are upper case here. -/
def isHex (c : UInt8) : Bool := isDec c || (0x41 ≤ c && c ≤ 0x46)

def digitVal (c : UInt8) : Nat := if isDec c then c.toNat - 0x30 else c.toNat - 0x41 + 10

/-- What digits denote, the first one the most significant. -/
def digitsVal (base : Nat) (ds : List UInt8) : Nat := Nat.ofDigits base (ds.map digitVal).reverse

/-- What a number's text denotes, none when it is malformed. -/
def numVal (ds : List UInt8) : Option Nat :=
  if ds.take 2 = [0x30, 0x58] then
    if ds.drop 2 ≠ [] ∧ (ds.drop 2).all isHex then some (digitsVal 16 (ds.drop 2)) else none
  else if ds ≠ [] ∧ ds.all isDec then some (digitsVal 10 ds)
  else none

theorem digitsVal_cons (base : Nat) (c : UInt8) (ds : List UInt8) :
    digitsVal base (c :: ds) = digitsVal base ds + base ^ ds.length * digitVal c := by
  rw [digitsVal, List.map_cons, List.reverse_cons, Nat.ofDigits_append, Nat.ofDigits_singleton,
    List.length_reverse, List.length_map, digitsVal]

/-! ## The sum -/

theorem usmartPow_eq (m n : Nat) : usmartPow m n = UInt32.ofNat (m ^ n) := by
  induction n with
  | zero => rfl
  | succ n ih => rw [usmartPow, ih, Nat.pow_succ, UInt32.ofNat_mul]

/-- What holds of the 256 bytes. -/
theorem uint8_all {P : UInt8 → Prop} (h : ∀ n : Fin 256, P (UInt8.ofNat n)) (c : UInt8) : P c := by
  have hc := h ⟨c.toNat, c.toNat_lt⟩
  rwa [show UInt8.ofNat c.toNat = c from UInt8.ofNat_toNat] at hc

theorem digit_eq : ∀ c : UInt8, isHex c = true →
    (if 0x30 ≤ c ∧ c ≤ 0x39 then c - 0x30 else c - 0x41 + 10).toUInt32 =
      UInt32.ofNat (digitVal c) :=
  uint8_all (by decide +kernel)

theorem isHex_ne {c : UInt8} (hc : isHex c = true) : c ≠ 0 := by
  rintro rfl
  cases hc

/-- The second loop on digits. -/
theorem str2numSum_eq (base : Nat) {ds : List UInt8} (res : UInt32) (hne : ds ≠ [])
    (h : ds.all isHex = true) :
    str2numSum base (cstr ds) ds.length res = res + UInt32.ofNat (digitsVal base ds) := by
  induction ds generalizing res with
  | nil => exact absurd rfl hne
  | cons c ds ih =>
    rw [List.all_cons, Bool.and_eq_true] at h
    have hlen : (c :: ds).length ≠ 0 := by simp
    rw [cstr_cons, str2numSum, if_pos hlen, List.length_cons,
      Nat.add_sub_cancel, cstr_head, digit_eq c h.1, usmartPow_eq, digitsVal_cons, UInt32.ofNat_add,
      UInt32.ofNat_mul]
    cases ds with
    | nil => simp [digitsVal]
    | cons d ds =>
      have hd : d ≠ 0 := isHex_ne (Bool.and_eq_true_iff.mp (List.all_cons ▸ h.2)).1
      rw [List.headD_cons, if_neg hd, ih _ (by simp) h.2, UInt32.add_assoc,
        UInt32.add_comm (UInt32.ofNat _), UInt32.mul_comm]

/-! ## The digits -/

/-- The characters the first loop passes; the X is legal at the second place only. -/
def passed : Nat → List UInt8 → Bool
  | _, [] => true
  | n, c :: ds => (isHex c || (c = 0x58 && n = 1)) && passed (n + 1) ds

theorem str2numDigits_eq {ds : List UInt8} {n : Nat} (hexdec : Nat) (h0 : 0 ∉ ds)
    (hlen : n + ds.length < 2 ^ 8) :
    str2numDigits (cstr ds) n hexdec =
      if passed n ds then some (n + ds.length, if ds.any (0x41 ≤ ·) then 16 else hexdec)
      else none := by
  induction ds generalizing n hexdec with
  | nil => rfl
  | cons c ds ih =>
    obtain ⟨hc, h0⟩ := List.ne_and_not_mem_of_not_mem_cons h0
    rw [List.length_cons] at hlen
    have hcond : ((0x30 ≤ c ∧ c ≤ 0x39) ∨ (0x41 ≤ c ∧ c ≤ 0x46) ∨ (c = 0x58 ∧ n = 1)) ↔
        (isHex c || (c = 0x58 && n = 1)) = true := by
      simp [isHex, isDec, or_assoc]
    have hmod : (n + 1) % 2 ^ 8 = n + 1 := Nat.mod_eq_of_lt (by omega)
    rw [cstr_cons, str2numDigits, passed]
    by_cases h : (isHex c || (c = 0x58 && n = 1)) = true
    · rw [if_pos (hcond.mpr h), hmod, ih _ h0 (by omega), h, Bool.true_and,
        List.length_cons, List.any_cons, Nat.add_assoc, Nat.add_comm 1]
      by_cases hhigh : 0x41 ≤ c <;> simp [hhigh]
    · rw [if_neg (mt hcond.mp h), if_neg (Ne.symm hc), Bool.eq_false_iff.mpr h, Bool.false_and]
      rfl

theorem passed_of_all {ds : List UInt8} (n : Nat) (h : ds.all isHex = true) :
    passed n ds = true := by
  induction ds generalizing n with
  | nil => rfl
  | cons c ds ih =>
    rw [List.all_cons, Bool.and_eq_true] at h
    rw [passed, h.1, ih _ h.2]
    rfl

/-- From the third place on digits only. -/
theorem all_of_passed {ds : List UInt8} {n : Nat} (hn : 2 ≤ n) (h : passed n ds = true) :
    ds.all isHex = true := by
  induction ds generalizing n with
  | nil => rfl
  | cons c ds ih =>
    rw [passed, Bool.and_eq_true] at h
    have hone : ¬ n = 1 := by omega
    rw [List.all_cons, ih (by omega) h.2, Bool.and_true]
    simpa [hone] using h.1

theorem isDec_low {c : UInt8} (hc : isDec c = true) : ¬ 0x41 ≤ c := by
  simp only [isDec, Bool.and_eq_true, decide_eq_true_eq] at hc
  intro h
  exact absurd (UInt8.le_trans h hc.2) (by decide)

/-- A hexadecimal digit that is no letter. -/
theorem isDec_of_low {c : UInt8} (hc : isHex c = true) (hlow : ¬ 0x41 ≤ c) : isDec c = true := by
  simpa [isHex, hlow] using hc

theorem dec_of_passed {ds : List UInt8} {n : Nat} (hlow : ∀ c ∈ ds, ¬ 0x41 ≤ c)
    (h : passed n ds = true) : ds.all isDec = true := by
  induction ds generalizing n with
  | nil => rfl
  | cons c ds ih =>
    rw [passed, Bool.and_eq_true] at h
    obtain ⟨hc, hlow⟩ := List.forall_mem_cons.mp hlow
    have hx : c ≠ 0x58 := fun hx => hc (hx ▸ by decide)
    have hhex : isHex c = true := by simpa [hx] using h.1
    rw [List.all_cons, isDec_of_low hhex hc, ih hlow h.2]
    rfl

theorem numVal_hex {hs : List UInt8} (hne : hs ≠ []) (hall : hs.all isHex = true) :
    numVal (0x30 :: 0x58 :: hs) = some (digitsVal 16 hs) :=
  (if_pos rfl).trans (if_pos ⟨hne, hall⟩)

theorem numVal_dec {ds : List UInt8} (hne : ds ≠ []) (hall : ds.all isDec = true) :
    numVal ds = some (digitsVal 10 ds) := by
  have htake : ds.take 2 ≠ [0x30, 0x58] := fun ht => by
    have hmem : (0x58 : UInt8) ∈ ds := List.mem_of_mem_take (i := 2) (by rw [ht]; decide)
    exact absurd (List.all_eq_true.mp hall _ hmem) (by decide)
  rw [numVal, if_neg htake]
  exact if_pos ⟨hne, hall⟩

theorem isHex_of_isDec {c : UInt8} (hc : isDec c = true) : isHex c = true := by
  simp [isHex, hc]

/-! ## The function -/

theorem usmartStr2num_some {ds : List UInt8} {v : Nat} (h0 : 0 ∉ ds) (hlen : ds.length < 2 ^ 8)
    (h : numVal ds = some v) : usmartStr2num (cstr ds) = (0, UInt32.ofNat v) := by
  unfold numVal at h
  split at h
  · rename_i htake
    split at h
    · rename_i hhex
      obtain ⟨hs, rfl⟩ : ∃ hs, ds = 0x30 :: 0x58 :: hs :=
        ⟨ds.drop 2, by rw [← List.take_append_drop 2 ds, htake]; rfl⟩
      obtain ⟨hne, hall⟩ : hs ≠ [] ∧ hs.all isHex = true := hhex
      cases h
      have hpassed : passed 0 (0x30 :: 0x58 :: hs) = true := by
        rw [passed, passed, passed_of_all _ hall]
        rfl
      have hpos : 0 < hs.length := List.length_pos_iff.mpr hne
      have hdigits := str2numDigits_eq 10 h0 (by rwa [Nat.zero_add])
      rw [if_pos hpassed, Nat.zero_add, List.length_cons, List.length_cons] at hdigits
      rw [usmartStr2num, hdigits]
      have hbnum : ¬ hs.length + 1 + 1 < 3 := by omega
      have hsum := str2numSum_eq 16 0 hne hall
      rw [UInt32.zero_add] at hsum
      simpa [cstr, hbnum] using hsum
    · cases h
  · rename_i htake
    split at h
    · rename_i hdec
      obtain ⟨hne, hall⟩ := hdec
      cases h
      have hhex : ds.all isHex = true :=
        List.all_eq_true.mpr fun c hc => isHex_of_isDec (List.all_eq_true.mp hall c hc)
      have hlow : ds.any (0x41 ≤ ·) = false :=
        List.any_eq_false.mpr fun c hc => by
          simpa using isDec_low (List.all_eq_true.mp hall c hc)
      have hdigits := str2numDigits_eq 10 h0 (by rwa [Nat.zero_add])
      rw [if_pos (passed_of_all 0 hhex), hlow, Nat.zero_add] at hdigits
      have hpos : ds.length ≠ 0 := fun hz => hne (List.length_eq_zero_iff.mp hz)
      have hsum := str2numSum_eq 10 0 hne hhex
      rw [UInt32.zero_add] at hsum
      rw [usmartStr2num, hdigits]
      simpa [hne] using hsum
    · cases h

theorem usmartStr2num_ok {ds : List UInt8} (h0 : 0 ∉ ds) (hlen : ds.length < 2 ^ 8)
    (h : (usmartStr2num (cstr ds)).1 = 0) : ∃ v, numVal ds = some v := by
  have hdigits := str2numDigits_eq 10 h0 (by rwa [Nat.zero_add])
  rw [usmartStr2num, hdigits] at h
  by_cases hpassed : passed 0 ds = true
  · rw [if_pos hpassed, Nat.zero_add] at h
    by_cases hhigh : ds.any (0x41 ≤ ·) = true
    · rw [if_pos hhigh] at h
      simp only [if_true] at h
      split at h
      · cases h
      rename_i hbnum
      split at h
      · rename_i hhead
        obtain ⟨hs, rfl⟩ : ∃ hs, ds = 0x30 :: 0x58 :: hs := by
          match ds, hbnum with
          | [], hx => exact absurd (by decide) hx
          | [_], hx => exact absurd (by simp) hx
          | c :: d :: hs, _ =>
            obtain ⟨rfl, rfl⟩ : c = 0x30 ∧ d = 0x58 := hhead
            exact ⟨hs, rfl⟩
        have hne : hs ≠ [] := by
          rintro rfl
          exact hbnum (by decide)
        have hall : hs.all isHex = true := by
          rw [passed, passed, Bool.and_eq_true, Bool.and_eq_true] at hpassed
          exact all_of_passed (Nat.le_refl 2) hpassed.2.2
        exact ⟨_, numVal_hex hne hall⟩
      · cases h
    · rw [if_neg hhigh] at h
      have hne : ds ≠ [] := by
        rintro rfl
        cases h
      exact ⟨_, numVal_dec hne (dec_of_passed (by simpa using hhigh) hpassed)⟩
  · rw [if_neg hpassed] at h
    cases h

end Generalplate.Usmart
