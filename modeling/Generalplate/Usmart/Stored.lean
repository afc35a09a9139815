import Mathlib.Algebra.Order.BigOperators.Group.List
import Generalplate.Usmart.Number
import Generalplate.Usmart.Fparam
import Generalplate.Usmart.Tokens

/-! # The stored arguments

An argument is stored as bytes one behind the other, with its length and kind.
As long as the lengths add up to less than the range of a u8, every argument
stored keeps its place and reads back as it was. -/
namespace Generalplate.Usmart
open Lib.ByteMem

/-- A u32, or a string. -/
inductive Arg where
  | num (v : UInt32)
  | str (bytes : List UInt8)
deriving DecidableEq, Repr

/-- The bytes in `parm`. -/
def Arg.bytes : Arg → List UInt8
  | .num v => le 4 v.toNat
  | .str bytes => cstr bytes

def Arg.isStr : Arg → Bool
  | .num _ => false
  | .str _ => true

def Arg.len (a : Arg) : Nat := a.bytes.length

/-- The bytes the arguments take together. -/
def packed (args : List Arg) : Nat := (args.map Arg.len).sum

/-- Argument `i` as `usmart_exe` reads it, a string up to its NUL. -/
def readArg (dev : UsmartDev) (i : Nat) : Arg :=
  let pos := usmartGetParmpos dev.plentbl i
  if dev.parmtype &&& (1#16 <<< i) ≠ 0#16 then
    .str (usmartStrcopy (get dev.parm pos (dev.plentbl i)))
  else .num (UInt32.ofNat (ofLe (get dev.parm pos 4)))

/-- Argument `i` is stored as `a` at its position. -/
structure StoredAt (dev : UsmartDev) (i : Nat) (a : Arg) : Prop where
  kind : dev.parmtype.getLsbD i = a.isStr
  len : dev.plentbl i = a.len
  bytes : get dev.parm (usmartGetParmpos dev.plentbl i) a.len = a.bytes

/-- The first arguments are stored in order. -/
structure Stored (dev : UsmartDev) (args : List Arg) : Prop where
  pos : ∀ i ≤ args.length, usmartGetParmpos dev.plentbl i = packed (args.take i)
  arg : ∀ i (h : i < args.length), StoredAt dev i args[i]

theorem packed_append (args : List Arg) (a : Arg) : packed (args ++ [a]) = packed args + a.len := by
  simp [packed]

theorem packed_take_succ {args : List Arg} {i : Nat} (h : i < args.length) :
    packed (args.take (i + 1)) = packed (args.take i) + args[i].len := by
  rw [List.take_succ_eq_append_getElem h, packed_append]

theorem packed_take_le (args : List Arg) {i j : Nat} (h : i ≤ j) :
    packed (args.take i) ≤ packed (args.take j) :=
  ((List.take_sublist_take_left h).map Arg.len).sum_le_sum fun _ _ => Nat.zero_le _

theorem usmartGetParmpos_update (tbl : Nat → Nat) {n i : Nat} (l : Nat) (h : i ≤ n) :
    usmartGetParmpos (Function.update tbl n l) i = usmartGetParmpos tbl i := by
  induction i with
  | zero => rfl
  | succ i ih =>
    rw [usmartGetParmpos, ih (by omega), Function.update_of_ne (by omega), usmartGetParmpos]

theorem shift_bit {n i : Nat} (hi : i < 16) : (1#16 <<< n).getLsbD i = decide (i = n) := by
  by_cases hin : i = n
  · subst hin
    simp [hi]
  · simp [BitVec.getLsbD_shiftLeft, BitVec.getLsbD_one, hin]
    omega

/-- The bit of argument `i`. -/
theorem parmtype_bit {w : BitVec 16} {i : Nat} (h : i < 16) :
    w &&& (1#16 <<< i) ≠ 0#16 ↔ w.getLsbD i = true := by
  have hbits : ∀ j, j < 16 → (w &&& (1#16 <<< i)).getLsbD j = (w.getLsbD j && decide (j = i)) :=
    fun j hj => by rw [BitVec.getLsbD_and, shift_bit hj]
  constructor
  · intro hne
    by_contra hbit
    refine hne (BitVec.eq_of_getLsbD_eq fun j hj => ?_)
    rw [hbits j hj, BitVec.getLsbD_zero, Bool.and_eq_false_iff, decide_eq_false_iff_not]
    by_cases hji : j = i
    · exact Or.inl (hji ▸ Bool.eq_false_iff.mpr hbit)
    · exact Or.inr hji
  · intro hbit hz
    have hi := hbits i h
    rw [hz, hbit, BitVec.getLsbD_zero] at hi
    simp at hi

theorem storeArg_bit {dev : UsmartDev} {n i : Nat} (hi : i < 16) (bytes : List UInt8)
    (string : Bool) (len : Nat) : (dev.storeArg n bytes string len).parmtype.getLsbD i =
      if i = n then string else dev.parmtype.getLsbD i := by
  cases string with
  | true =>
    simp only [UsmartDev.storeArg, if_true, BitVec.getLsbD_or, shift_bit hi]
    by_cases hin : i = n <;> simp [hin]
  | false =>
    simp only [UsmartDev.storeArg, Bool.false_eq_true, if_false, BitVec.getLsbD_and,
      BitVec.getLsbD_not, shift_bit hi]
    by_cases hin : i = n <;> simp [hin, hi]

theorem Stored.nil (dev : UsmartDev) : Stored dev [] where
  pos i hi := by
    obtain rfl : i = 0 := Nat.le_zero.mp hi
    rfl
  arg i hi := absurd hi (Nat.not_lt_zero i)

/-- **One more argument** behind those stored. -/
theorem Stored.push {dev : UsmartDev} {args : List Arg} (h : Stored dev args) (a : Arg)
    (hsize : packed args + a.len < 2 ^ 8) (hcount : args.length < 16) :
    Stored (dev.storeArg args.length a.bytes a.isStr a.len) (args ++ [a]) := by
  have hpos : ∀ i ≤ args.length,
      usmartGetParmpos (dev.storeArg args.length a.bytes a.isStr a.len).plentbl i =
        packed (args.take i) := by
    intro i hi
    rw [UsmartDev.storeArg_plentbl, usmartGetParmpos_update _ _ hi, h.pos i hi]
  have hend : usmartGetParmpos dev.plentbl args.length = packed args := by
    rw [h.pos _ (Nat.le_refl _), List.take_length]
  constructor
  · intro i hi
    rw [List.length_append, List.length_singleton] at hi
    rcases Nat.lt_or_eq_of_le hi with hi | rfl
    · rw [hpos i (by omega), List.take_append_of_le_length (by omega)]
    · have hmod : (packed args + a.len) % 2 ^ 8 = packed args + a.len := Nat.mod_eq_of_lt hsize
      rw [usmartGetParmpos, hpos _ (Nat.le_refl _), List.take_length, UsmartDev.storeArg_plentbl,
        Function.update_self, hmod, ← List.length_singleton (a := a), ← List.length_append,
        List.take_length, packed_append]
  · intro i hi
    rw [List.length_append, List.length_singleton] at hi
    rcases Nat.lt_or_eq_of_le (Nat.le_of_lt_succ hi) with hlt | rfl
    · obtain ⟨hkind, hlen, hbytes⟩ := h.arg i hlt
      rw [List.getElem_append_left hlt]
      refine ⟨?_, ?_, ?_⟩
      · rw [storeArg_bit (by omega), if_neg (by omega), hkind]
      · rw [UsmartDev.storeArg_plentbl, Function.update_of_ne (by omega), hlen]
      · have hnext := packed_take_succ hlt
        have hle := packed_take_le args (show i + 1 ≤ args.length by omega)
        rw [List.take_length] at hle
        have hplace := h.pos i (by omega)
        rw [hpos i (by omega), ← hplace, UsmartDev.storeArg_parm, hend,
          get_put_apart (Or.inl (by rw [hplace]; omega)), hbytes]
    · rw [List.getElem_append_right (Nat.le_refl _)]
      simp only [Nat.sub_self, List.getElem_cons_zero]
      refine ⟨?_, ?_, ?_⟩
      · rw [storeArg_bit (by omega), if_pos rfl]
      · rw [UsmartDev.storeArg_plentbl, Function.update_self]
      · rw [hpos _ (Nat.le_refl _), ← h.pos _ (Nat.le_refl _), UsmartDev.storeArg_parm]
        exact get_put

/-! ## Reading back -/

/-- A string has no NUL. -/
def Arg.Clean : Arg → Prop
  | .num _ => True
  | .str bytes => 0 ∉ bytes

theorem StoredAt.kind_bit {dev : UsmartDev} {i : Nat} {a : Arg} (h : StoredAt dev i a)
    (hi : i < 16) : dev.parmtype &&& (1#16 <<< i) ≠ 0#16 ↔ a.isStr = true := by
  rw [parmtype_bit hi, h.kind]

theorem StoredAt.num_eq {dev : UsmartDev} {i : Nat} {v : UInt32} (h : StoredAt dev i (.num v)) :
    UInt32.ofNat (ofLe (get dev.parm (usmartGetParmpos dev.plentbl i) 4)) = v := by
  have hval : get dev.parm (usmartGetParmpos dev.plentbl i) 4 = le 4 v.toNat := h.bytes
  have hlt : v.toNat % 256 ^ 4 = v.toNat := Nat.mod_eq_of_lt v.toNat_lt
  rw [hval, ofLe_le, hlt, UInt32.ofNat_toNat]

theorem StoredAt.read {dev : UsmartDev} {i : Nat} {a : Arg} (h : StoredAt dev i a) (hi : i < 16)
    (hclean : a.Clean) : readArg dev i = a := by
  cases a with
  | num v => rw [readArg, if_neg (mt (h.kind_bit hi).mp Bool.false_ne_true), h.num_eq]
  | str bytes =>
    rw [readArg, if_pos ((h.kind_bit hi).mpr rfl), h.len, h.bytes]
    exact congrArg Arg.str (usmartStrcopy_cstr hclean)

theorem Stored.read {dev : UsmartDev} {args : List Arg} (h : Stored dev args)
    (hcount : args.length ≤ 16) (hclean : ∀ a ∈ args, a.Clean) :
    (List.range args.length).map (readArg dev) = args := by
  refine List.ext_getElem (by simp) fun i h1 h2 => ?_
  rw [List.getElem_map, List.getElem_range]
  exact (h.arg i h2).read (by omega) (hclean _ (List.getElem_mem h2))

/-- The ranges of two arguments are apart, and they end with the last. -/
theorem Stored.apart {dev : UsmartDev} {args : List Arg} (h : Stored dev args) {i j : Nat}
    (hij : i < j) (hj : j ≤ args.length) :
    usmartGetParmpos dev.plentbl i + dev.plentbl i ≤ usmartGetParmpos dev.plentbl j ∧
      usmartGetParmpos dev.plentbl j ≤ packed args := by
  have hi : i < args.length := by omega
  have hnext := packed_take_succ hi
  have hle := packed_take_le args (show i + 1 ≤ j by omega)
  have hend := packed_take_le args hj
  rw [List.take_length] at hend
  rw [h.pos i (by omega), h.pos j hj, (h.arg i hi).len]
  omega

/-! ## The tokens stored -/

/-- The value of a token: a number is taken modulo 2^32. -/
def Tok.arg : Tok → Arg
  | .num digits => .num (UInt32.ofNat ((numVal digits).getD 0))
  | .str bytes => .str bytes

theorem Tok.stores_eq {t : Tok} (hwf : t.WellFormed) (h0 : 0 ∉ t.bytes)
    (hlen : t.bytes.length < 255) (n : Nat) (dev : UsmartDev) :
    t.stores n dev = [dev.argStore n t.arg.bytes t.arg.isStr t.arg.len] := by
  cases t with
  | num digits =>
    change 0 ∉ digits at h0
    have hd : digits.length < 2 ^ 8 := Nat.lt_of_lt_of_le hlen (by decide)
    obtain ⟨v, hv⟩ := usmartStr2num_ok h0 hd hwf
    have hnum := usmartStr2num_some h0 hd hv
    simp only [Tok.stores, numStores, hnum, Tok.arg, hv, Option.getD_some, Arg.bytes, Arg.isStr,
      Arg.len, length_le]
    rfl
  | str bytes =>
    change 0 ∉ bytes at h0
    have hb : bytes.length < 255 := hlen
    have hstrlen : (usmartStrlen (cstr bytes) + 1) % 2 ^ 8 = bytes.length + 1 := by
      rw [usmartStrlen, usmartStrcopy_cstr h0]
      omega
    rw [Tok.stores, strStores, usmartStrcopy_cstr h0, hstrlen]
    simp [Tok.arg, Arg.bytes, Arg.isStr, Arg.len, cstr]

theorem storeTok_eq {t : Tok} (hwf : t.WellFormed) (h0 : 0 ∉ t.bytes) (hlen : t.bytes.length < 255)
    (n : Nat) (dev : UsmartDev) :
    storeTok t n dev = countArg n (dev.storeArg n t.arg.bytes t.arg.isStr t.arg.len) := by
  rw [storeTok_stores hwf, Tok.stores_eq hwf h0 hlen, UsmartDev.storeArg_write]

/-- **What `storeAll` leaves**: the values of the tokens behind those stored before. -/
theorem storeAll_stored {ts : List Tok} {args : List Arg} {dev : UsmartDev} (h : Stored dev args)
    (hok : (storeAll ts args.length dev).1 = usmartOk)
    (hts : ∀ t ∈ ts, 0 ∉ t.bytes ∧ t.bytes.length < 255)
    (hsize : packed (args ++ ts.map Tok.arg) < 2 ^ 8) :
    Stored (storeAll ts args.length dev).2.2 (args ++ ts.map Tok.arg) ∧
      (storeAll ts args.length dev).2.2.id = dev.id := by
  induction ts generalizing args dev with
  | nil =>
    rw [List.map_nil, List.append_nil]
    exact ⟨h, rfl⟩
  | cons t ts ih =>
    obtain ⟨⟨h0, hlen⟩, hts⟩ := List.forall_mem_cons.mp hts
    rw [storeAll] at hok ⊢
    by_cases ht : (storeTok t args.length dev).1 = usmartOk
    · rw [if_neg (not_not_intro ht)] at hok ⊢
      obtain ⟨hwf, hcount⟩ := (storeTok_ok_iff _ _ _).mp ht
      have hsplit : args ++ (t :: ts).map Tok.arg = (args ++ [t.arg]) ++ ts.map Tok.arg := by simp
      have hpart : packed (args ++ [t.arg]) ≤ packed ((args ++ [t.arg]) ++ ts.map Tok.arg) := by
        simp [packed]
      rw [hsplit] at hsize ⊢
      have hfew : args.length < 16 := by
        unfold maxParm at hcount
        omega
      have hpush := h.push t.arg (by rw [← packed_append]; omega) hfew
      have hnext : (storeTok t args.length dev).2.1 = (args ++ [t.arg]).length := by
        rw [storeTok_count t ht]
        simp
      rw [hnext] at hok ⊢
      rw [storeTok_eq hwf h0 hlen, countArg_eq] at hok ⊢
      exact ih hpush hok hts hsize
    · rw [if_pos ht] at hok
      exact absurd hok ht

/-! ## The arguments of a line -/

theorem packed_le_cost (ts : List Tok) :
    packed (ts.map Tok.arg) ≤ (ts.map Tok.cost).sum + 4 * ts.length := by
  induction ts with
  | nil => exact Nat.le_refl _
  | cons t ts ih =>
    have ht : t.arg.len ≤ t.cost + 4 := by
      cases t with
      | num digits => simp [Tok.arg, Tok.cost, Arg.len, Arg.bytes]
      | str bytes =>
        simp only [Tok.arg, Tok.cost, Arg.len, Arg.bytes, cstr, List.length_append,
          List.length_singleton]
        omega
    have hcons : packed ((t :: ts).map Tok.arg) = t.arg.len + packed (ts.map Tok.arg) := by
      simp [packed]
    rw [hcons, List.map_cons, List.sum_cons, List.length_cons]
    omega

/-- The arguments typed on a line. -/
def typedArgs (line : List UInt8) : List Arg := (lex (cstr (argText line))).1.map Tok.arg

/-- The tokens of a line are shorter than it, and have no NUL. -/
theorem line_tokens {line : List UInt8} (h0 : 0 ∉ line) (hlen : line.length ≤ 199) :
    ∀ t ∈ (lex (cstr (argText line))).1, 0 ∉ t.bytes ∧ t.bytes.length < 255 := by
  have hclean := lex_clean (argText_clean h0)
  have hcost := lex_cost (cstr (argText line))
  have htext := argText_length line
  rw [length_cstr] at hcost
  intro t ht
  refine ⟨hclean t ht, ?_⟩
  have hone : t.cost ≤ _ := List.single_le_sum (fun _ _ => Nat.zero_le _) _ (List.mem_map_of_mem ht)
  have hbytes : t.bytes.length ≤ t.cost := by
    cases t with
    | num digits => exact Nat.le_refl _
    | str bytes => exact Nat.le_add_right _ 2
  omega

/-- Four bytes an argument on top of what was typed. -/
theorem packed_line {line : List UInt8} (hlen : line.length ≤ 199) :
    packed (typedArgs line) ≤ 200 + 4 * (typedArgs line).length := by
  have hcost := lex_cost (cstr (argText line))
  have htext := argText_length line
  have hpacked := packed_le_cost (lex (cstr (argText line))).1
  rw [length_cstr] at hcost
  rw [typedArgs, List.length_map]
  omega

/-- **What a successful `usmart_get_fparam` leaves**: the typed arguments, stored in
order. -/
theorem usmartGetFparam_stored {line : List UInt8} (h0 : 0 ∉ line) (hlen : line.length ≤ 199)
    (hp : 0x28 ∈ line) {dev : UsmartDev} {r : Fparam} (h : usmartGetFparam (cstr line) dev = .ok r)
    (hok : r.sta = usmartOk) :
    r.parn = some (typedArgs line).length ∧ (typedArgs line).length ≤ maxParm ∧
      Stored r.dev (typedArgs line) ∧ r.dev.id = dev.id ∧ ∀ a ∈ typedArgs line, a.Clean := by
  obtain ⟨_, hstore, hcount, hdev⟩ := usmartGetFparam_ok h0 hlen hp h hok
  have hcountArgs : (typedArgs line).length = (lex (cstr (argText line))).1.length :=
    List.length_map ..
  have hfew := ((storeAll_ok_iff _ 0 _ (Nat.zero_le _)).mp hstore).2
  rw [Nat.zero_add, ← hcountArgs] at hfew
  have htoks := line_tokens h0 hlen
  obtain ⟨hstored, hid⟩ := storeAll_stored (Stored.nil dev.clear) hstore htoks (by
    have hpacked := packed_line hlen
    unfold maxParm at hfew
    rw [List.nil_append, ← typedArgs]
    omega)
  rw [hdev]
  refine ⟨by rw [hcount, hcountArgs], hfew, hstored, hid, fun a ha => ?_⟩
  obtain ⟨t, ht, rfl⟩ := List.mem_map.mp ha
  cases t with
  | num digits => trivial
  | str bytes => exact (htoks _ ht).1

end Generalplate.Usmart
