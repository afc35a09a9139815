import Mathlib.Algebra.GroupWithZero.Nat
import Mathlib.Data.List.Basic

/-! # Strings of the interpreter

A pointer into memory is the list of the bytes from there on; a string ends at
its NUL, and the functions that read strings stop there, so that for them the
end of the list reads as a NUL too. Characters are written by their codes:
0x20 space, 0x22 quote, 0x28 and 0x29 the parentheses, 0x2a star, 0x2c comma,
0x5c backslash. -/
namespace Generalplate.Usmart

/-- `MAX_FNAME_LEN`, `MAX_PARM` and `PARM_LEN`. -/
def maxFnameLen : Nat := 30
def maxParm : Nat := 10
def parmLen : Nat := 200

/-- The status codes. -/
def usmartOk : Nat := 0
def usmartFuncerr : Nat := 1
def usmartParmerr : Nat := 2
def usmartParmover : Nat := 3
def usmartNofuncfind : Nat := 4

/-- What a function does that the source does not mean it to do. -/
inductive Fault where
  /-- a read behind the memory the string is in -/
  | pastEnd
  /-- a write behind a buffer of `MAX_FNAME_LEN` bytes -/
  | nameOverflow
  /-- a write behind the `MAX_PARM` elements of `temp` -/
  | tempOverflow
  /-- a loop that never ends -/
  | endless
deriving DecidableEq, Repr

/-- The bytes of a literal of the source. -/
def text (s : String) : List UInt8 := s.toUTF8.data.toList

/-- The memory of a string: its bytes and the NUL. -/
def cstr (s : List UInt8) : List UInt8 := s ++ [0]

def spaces (k : Nat) : List UInt8 := List.replicate k 0x20

/-- Returns 0 when the two strings are equal. -/
def usmartStrcmp : List UInt8 → List UInt8 → Nat
  | str1, str2 =>
    let c1 := str1.headD 0
    let c2 := str2.headD 0
    if c1 ≠ c2 then 1
    else if c1 = 0 then 0
    else
      match str1 with
      | [] => 0
      | _ :: str1 => usmartStrcmp str1 str2.tail

/-- The bytes `usmart_strcopy` copies before the NUL. -/
def usmartStrcopy : List UInt8 → List UInt8
  | [] => []
  | c :: str => if c = 0 then [] else c :: usmartStrcopy str

/-- The length is counted in a u8. -/
def usmartStrlen (str : List UInt8) : Nat := (usmartStrcopy str).length % 2 ^ 8

def usmartPow (m : Nat) : Nat → UInt32
  | 0 => 1
  | n + 1 => usmartPow m n * UInt32.ofNat m

/-- The first loop of `usmart_str2num`: the number of digits and the base, none
when a character is neither a digit nor an X at the second place. -/
def str2numDigits : List UInt8 → Nat → Nat → Option (Nat × Nat)
  | [], bnum, hexdec => some (bnum, hexdec)
  | c :: p, bnum, hexdec =>
    if (0x30 ≤ c ∧ c ≤ 0x39) ∨ (0x41 ≤ c ∧ c ≤ 0x46) ∨ (c = 0x58 ∧ bnum = 1) then
      str2numDigits p ((bnum + 1) % 2 ^ 8) (if 0x41 ≤ c then 16 else hexdec)
    else if c = 0 then some (bnum, hexdec)
    else none

/-- The second loop, over the digits in front of the NUL. -/
def str2numSum (hexdec : Nat) : List UInt8 → Nat → UInt32 → UInt32
  | [], _, res => res
  | c :: p, bnum, res =>
    let bnum := if bnum ≠ 0 then bnum - 1 else bnum
    let t : UInt8 := if 0x30 ≤ c ∧ c ≤ 0x39 then c - 0x30 else c - 0x41 + 10
    let res := res + t.toUInt32 * usmartPow hexdec bnum
    if p.headD 0 = 0 then res else str2numSum hexdec p bnum res

/-- The code (0 for success) and the number. -/
def usmartStr2num (str : List UInt8) : Nat × UInt32 :=
  match str2numDigits str 0 10 with
  | none => (1, 0)
  | some (bnum, hexdec) =>
    if hexdec = 16 then
      if bnum < 3 then (2, 0)
      else if str.headD 0 = 0x30 ∧ str.tail.headD 0 = 0x58 then
        (0, str2numSum hexdec (str.drop 2) (bnum - 2) 0)
      else (3, 0)
    else if bnum = 0 then (4, 0)
    else (0, str2numSum hexdec str bnum 0)

/-- The code (0 for success), the command name without its NUL, and its length. -/
def usmartGetCmdname (maxlen : Nat) : List UInt8 → List UInt8 → Nat × List UInt8 × Nat
  | [], cmdname => (0, cmdname, cmdname.length)
  | c :: str, cmdname =>
    if c ≠ 0x20 ∧ c ≠ 0 then
      let cmdname := cmdname ++ [c]
      if cmdname.length ≥ maxlen then (1, cmdname, cmdname.length)
      else usmartGetCmdname maxlen str cmdname
    else (0, cmdname, cmdname.length)

/-- The first character behind the spaces that follow the one at `str`. -/
def usmartSearchNextc (str : List UInt8) : UInt8 :=
  (str.tail.dropWhile (· = 0x20)).headD 0

theorem cstr_cons (c : UInt8) (s : List UInt8) : cstr (c :: s) = c :: cstr s := rfl

theorem length_cstr (s : List UInt8) : (cstr s).length = s.length + 1 := by
  rw [cstr, List.length_append, List.length_singleton]

theorem cstr_head (s : List UInt8) : (cstr s).headD 0 = s.headD 0 := by
  cases s <;> rfl

theorem spaces_clean (k : Nat) : 0 ∉ spaces k := fun h =>
  absurd (List.eq_of_mem_replicate h) (by decide)

/-- A string is copied up to its NUL. -/
theorem usmartStrcopy_cstr {s : List UInt8} (h : 0 ∉ s) : usmartStrcopy (cstr s) = s := by
  induction s with
  | nil => rfl
  | cons c s ih =>
    obtain ⟨hc, h⟩ := List.ne_and_not_mem_of_not_mem_cons h
    rw [cstr_cons, usmartStrcopy, if_neg (Ne.symm hc), ih h]

/-! ## Comparing -/

theorem usmartStrcmp_head {s t : List UInt8} (h : s.headD 0 ≠ t.headD 0) :
    usmartStrcmp s t = 1 := by
  rw [usmartStrcmp.eq_def]
  exact if_pos h

theorem usmartStrcmp_cons {c : UInt8} (hc : c ≠ 0) (s t : List UInt8) :
    usmartStrcmp (c :: s) (c :: t) = usmartStrcmp s t := by
  rw [usmartStrcmp.eq_def]
  simp [hc]

/-- On strings it decides equality. -/
theorem usmartStrcmp_eq_zero_iff {s t : List UInt8} (hs : 0 ∉ s) (ht : 0 ∉ t) :
    usmartStrcmp (cstr s) (cstr t) = 0 ↔ s = t := by
  induction s generalizing t with
  | nil =>
    cases t with
    | nil => exact iff_of_true rfl rfl
    | cons d t =>
      have hd : (cstr []).headD 0 ≠ (cstr (d :: t)).headD 0 :=
        (List.ne_and_not_mem_of_not_mem_cons ht).1
      rw [usmartStrcmp_head hd]
      simp
  | cons c s ih =>
    obtain ⟨hc, hs⟩ := List.ne_and_not_mem_of_not_mem_cons hs
    cases t with
    | nil =>
      have hne : (cstr (c :: s)).headD 0 ≠ (cstr []).headD 0 := hc.symm
      rw [usmartStrcmp_head hne]
      simp
    | cons d t =>
      obtain ⟨_, ht'⟩ := List.ne_and_not_mem_of_not_mem_cons ht
      by_cases hcd : c = d
      · subst hcd
        rw [cstr_cons, cstr_cons, usmartStrcmp_cons hc.symm, ih hs ht']
        simp
      · have hne : (cstr (c :: s)).headD 0 ≠ (cstr (d :: t)).headD 0 := hcd
        rw [usmartStrcmp_head hne]
        simp [hcd]

end Generalplate.Usmart
