import Mathlib.Data.Nat.Digits.Lemmas
import Generalplate.Usmart.Number

/-! # Which texts are numbers

The texts `usmart_str2num` accepts are the decimal digit strings and `0X` in
front of hexadecimal digits, and nothing else; every u32 reads back from its
decimal and from its hexadecimal text. -/
namespace Generalplate.Usmart

/-- One or more characters 0-9. -/
def DecText (ds : List UInt8) : Prop := ds ≠ [] ∧ ds.all isDec = true

/-- `0X` in front of the digits `hs`, one or more characters 0-9 or A-F. -/
def HexText (hs ds : List UInt8) : Prop :=
  ds = 0x30 :: 0x58 :: hs ∧ hs ≠ [] ∧ hs.all isHex = true

/-- The digit below 16, letters in upper case. -/
def digitChar (d : Nat) : UInt8 :=
  if d < 10 then UInt8.ofNat (0x30 + d) else UInt8.ofNat (0x41 + (d - 10))

/-- The digits of a number, without leading zeros. -/
def render (base n : Nat) : List UInt8 :=
  if n = 0 then [0x30] else (Nat.digits base n).reverse.map digitChar

/-- The hexadecimal text of a number. -/
def renderHex (n : Nat) : List UInt8 := 0x30 :: 0x58 :: render 16 n

/-! ## The language -/

theorem numVal_eq_some_iff {ds : List UInt8} {v : Nat} :
    numVal ds = some v ↔
      (DecText ds ∧ digitsVal 10 ds = v) ∨ ∃ hs, HexText hs ds ∧ digitsVal 16 hs = v := by
  constructor
  · intro h
    unfold numVal at h
    split at h
    · rename_i htake
      split at h
      · rename_i hhex
        refine Or.inr ⟨ds.drop 2, ⟨?_, hhex⟩, Option.some.inj h⟩
        rw [← List.take_append_drop 2 ds, htake]
        rfl
      · cases h
    · split at h
      · rename_i hdec
        exact Or.inl ⟨hdec, Option.some.inj h⟩
      · cases h
  · rintro (⟨⟨hne, hall⟩, rfl⟩ | ⟨hs, ⟨rfl, hne, hall⟩, rfl⟩)
    · exact numVal_dec hne hall
    · exact numVal_hex hne hall

/-- The four error codes; 4 is for the empty string only. -/
theorem usmartStr2num_error {ds : List UInt8} (h0 : 0 ∉ ds) (hlen : ds.length < 2 ^ 8) :
    ((usmartStr2num (cstr ds)).1 = 4 ↔ ds = []) ∧ (usmartStr2num (cstr ds)).1 ≤ 4 := by
  have hdigits := str2numDigits_eq 10 h0 (by rwa [Nat.zero_add])
  rw [usmartStr2num, hdigits, Nat.zero_add]
  by_cases hpassed : passed 0 ds = true
  · rw [if_pos hpassed]
    by_cases hhigh : ds.any (0x41 ≤ ·) = true
    · -- a letter makes it hexadecimal, and the string is not empty
      have hne : ds ≠ [] := by
        rintro rfl
        cases hhigh
      simp only [if_pos hhigh, if_true]
      split
      · simp [hne]
      · split <;> simp [hne]
    · simp only [if_neg hhigh]
      by_cases hne : ds = [] <;> simp [hne]
  · have hne : ds ≠ [] := by
      rintro rfl
      exact hpassed rfl
    simp [if_neg hpassed, hne]

/-! ## The renderings -/

theorem digitChar_spec : ∀ d, d < 16 →
    isHex (digitChar d) = true ∧ digitVal (digitChar d) = d ∧
      (d < 10 → isDec (digitChar d) = true) := by
  decide

section Render
variable {base n : Nat}

theorem render_ne_nil (base n : Nat) : render base n ≠ [] := by
  unfold render
  split
  · simp
  · rename_i hn
    simpa using Nat.digits_ne_nil_iff_ne_zero.mpr hn

/-- The characters are those of digits below the base. -/
theorem mem_render {c : UInt8} (hb : 1 < base) (hc : c ∈ render base n) :
    ∃ d, d < base ∧ c = digitChar d := by
  unfold render at hc
  split at hc
  · exact ⟨0, by omega, List.mem_singleton.mp hc⟩
  · obtain ⟨d, hd, rfl⟩ := List.mem_map.mp hc
    exact ⟨d, Nat.digits_lt_base hb (List.mem_reverse.mp hd), rfl⟩

theorem digitsVal_render (hb : 1 < base) (hle : base ≤ 16) :
    digitsVal base (render base n) = n := by
  unfold render
  split
  · rename_i hn
    rw [hn]
    simp [digitsVal, digitVal, isDec]
  · have hback : (Nat.digits base n).map (digitVal ∘ digitChar) = Nat.digits base n := by
      have hid : ∀ d ∈ Nat.digits base n, (digitVal ∘ digitChar) d = id d := fun d hd =>
        (digitChar_spec d (Nat.lt_of_lt_of_le (Nat.digits_lt_base hb hd) hle)).2.1
      rw [List.map_congr_left hid, List.map_id]
    rw [digitsVal, List.map_map, List.map_reverse, List.reverse_reverse, hback]
    exact Nat.ofDigits_digits base n

theorem all_render_isHex (base n : Nat) (hb : 1 < base) (hle : base ≤ 16) :
    (render base n).all isHex = true := by
  refine List.all_eq_true.mpr fun c hc => ?_
  obtain ⟨d, hd, rfl⟩ := mem_render hb hc
  exact (digitChar_spec d (Nat.lt_of_lt_of_le hd hle)).1

theorem all_render_isDec (n : Nat) : (render 10 n).all isDec = true := by
  refine List.all_eq_true.mpr fun c hc => ?_
  obtain ⟨d, hd, rfl⟩ := mem_render (by decide) hc
  exact (digitChar_spec d (by omega)).2.2 hd

/-- A u32 has at most 32 digits, in any base. -/
theorem length_render_le (base : Nat) (hb : 1 < base) (hn : n < 2 ^ 32) :
    (render base n).length ≤ 32 := by
  unfold render
  split
  · exact Nat.le_of_ble_eq_true rfl
  · rw [List.length_map, List.length_reverse, Nat.digits_length_le_iff hb]
    exact Nat.lt_of_lt_of_le hn (Nat.pow_le_pow_left hb 32)

end Render

theorem not_mem_of_all_isHex {ds : List UInt8} (h : ds.all isHex = true) : 0 ∉ ds :=
  fun h0 => isHex_ne (List.all_eq_true.mp h 0 h0) rfl

/-- A u32 reads back from its decimal text. -/
theorem usmartStr2num_render (v : UInt32) :
    usmartStr2num (cstr (render 10 v.toNat)) = (0, v) := by
  have hlen := length_render_le 10 (by decide) v.toNat_lt
  have hval := numVal_dec (render_ne_nil 10 v.toNat) (all_render_isDec v.toNat)
  rw [digitsVal_render (by decide) (by decide)] at hval
  have h0 := not_mem_of_all_isHex (all_render_isHex 10 v.toNat (by decide) (by decide))
  rw [usmartStr2num_some h0 (by omega) hval, UInt32.ofNat_toNat]

/-- And from its hexadecimal text. -/
theorem usmartStr2num_renderHex (v : UInt32) :
    usmartStr2num (cstr (renderHex v.toNat)) = (0, v) := by
  have hlen := length_render_le 16 (by decide) v.toNat_lt
  have hall := all_render_isHex 16 v.toNat (by decide) (by decide)
  have hval := numVal_hex (render_ne_nil 16 v.toNat) hall
  rw [digitsVal_render (by decide) (by decide)] at hval
  have h0 : 0 ∉ renderHex v.toNat := by
    simp only [renderHex, List.mem_cons, not_or]
    exact ⟨by decide, by decide, not_mem_of_all_isHex hall⟩
  have hbound : (renderHex v.toNat).length < 2 ^ 8 := by
    simp only [renderHex, List.length_cons]
    omega
  rw [usmartStr2num_some h0 hbound hval, UInt32.ofNat_toNat]

/-- **What the number parser accepts.** On every string of at most 255 bytes it
returns 0 just on decimal digits and on `0X` with hexadecimal digits, with their
value modulo 2^32; it returns 4 just on the empty string and 1, 2 or 3 on all
others. Every u32 reads back from its decimal and its hexadecimal text. -/
theorem usmartStr2num_exact {ds : List UInt8} (h0 : 0 ∉ ds) (hlen : ds.length ≤ 255) :
    ((usmartStr2num (cstr ds)).1 = 0 ↔ DecText ds ∨ ∃ hs, HexText hs ds) ∧
    (DecText ds → (usmartStr2num (cstr ds)).2.toNat = digitsVal 10 ds % 2 ^ 32) ∧
    (∀ hs, HexText hs ds → (usmartStr2num (cstr ds)).2.toNat = digitsVal 16 hs % 2 ^ 32) ∧
    ((usmartStr2num (cstr ds)).1 = 4 ↔ ds = []) ∧
    ((usmartStr2num (cstr ds)).1 ≠ 0 → ds ≠ [] →
      (usmartStr2num (cstr ds)).1 = 1 ∨ (usmartStr2num (cstr ds)).1 = 2 ∨
        (usmartStr2num (cstr ds)).1 = 3) ∧
    (∀ v : UInt32, usmartStr2num (cstr (render 10 v.toNat)) = (0, v) ∧
      usmartStr2num (cstr (renderHex v.toNat)) = (0, v)) := by
  have hlen8 : ds.length < 2 ^ 8 := by omega
  obtain ⟨hempty, hcode⟩ := usmartStr2num_error h0 hlen8
  have hread : ∀ {v}, numVal ds = some v →
      (usmartStr2num (cstr ds)).2.toNat = v % 2 ^ 32 := fun hv => by
    rw [usmartStr2num_some h0 hlen8 hv, UInt32.toNat_ofNat']
  refine ⟨⟨fun h => ?_, fun h => ?_⟩, fun hd => hread ?_, fun hs hh => hread ?_, hempty,
    fun hne hds => ?_, fun v => ⟨usmartStr2num_render v, usmartStr2num_renderHex v⟩⟩
  · obtain ⟨v, hv⟩ := usmartStr2num_ok h0 hlen8 h
    rcases numVal_eq_some_iff.mp hv with ⟨hd, _⟩ | ⟨hs, hh, _⟩
    · exact Or.inl hd
    · exact Or.inr ⟨hs, hh⟩
  · obtain ⟨v, hv⟩ : ∃ v, numVal ds = some v := by
      rcases h with hd | ⟨hs, hh⟩
      · exact ⟨_, numVal_eq_some_iff.mpr (Or.inl ⟨hd, rfl⟩)⟩
      · exact ⟨_, numVal_eq_some_iff.mpr (Or.inr ⟨hs, hh, rfl⟩)⟩
    rw [usmartStr2num_some h0 hlen8 hv]
  · exact numVal_eq_some_iff.mpr (Or.inl ⟨hd, rfl⟩)
  · exact numVal_eq_some_iff.mpr (Or.inr ⟨hs, hh, rfl⟩)
  · have hfour : (usmartStr2num (cstr ds)).1 ≠ 4 := fun h => hds (hempty.mp h)
    omega

/-- The text `0XFF`. -/
theorem usmartStr2num_exact_ff :
    (usmartStr2num (cstr [0x30, 0x58, 0x46, 0x46])).2.toNat = 255 :=
  have h0 : (0 : UInt8) ∉ [0x30, 0x58, 0x46, 0x46] := by decide
  (usmartStr2num_exact h0 (by decide)).2.2.1 [0x46, 0x46] ⟨rfl, by decide, by decide⟩

end Generalplate.Usmart
