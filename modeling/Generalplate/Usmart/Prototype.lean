import Generalplate.Usmart.Fname
import Generalplate.Usmart.Number

/-! # Reading a prototype

A C prototype is words of identifier characters for the return type, spaces and
stars, the name, and the parameters in parentheses. `usmart_get_fname` finds the
name and the number of parameters in every such text, and whether it returns a
value unless the text begins with `void` that is not its return type. -/
namespace Generalplate.Usmart

/-- Letters, digits and the underscore. -/
def isIdent (c : UInt8) : Bool :=
  isDec c || (0x41 ≤ c && c ≤ 0x5a) || (0x61 ≤ c && c ≤ 0x7a) || c = 0x5f

def IsWord (w : List UInt8) : Prop := w ≠ [] ∧ w.all isIdent = true

instance (w : List UInt8) : Decidable (IsWord w) := inferInstanceAs (Decidable (_ ∧ _))

/-- A parameter: some character is not a space, none is a NUL, a quote, a
parenthesis or a comma. -/
def IsParm (p : List UInt8) : Prop :=
  (∃ c ∈ p, c ≠ 0x20) ∧ ∀ c ∈ p, c ≠ 0 ∧ c ≠ 0x22 ∧ c ≠ 0x28 ∧ c ≠ 0x29 ∧ c ≠ 0x2c

instance (p : List UInt8) : Decidable (IsParm p) :=
  decidable_of_iff (p.any (· ≠ 0x20) = true ∧
      p.all (fun c => c ≠ 0 && c ≠ 0x22 && c ≠ 0x28 && c ≠ 0x29 && c ≠ 0x2c) = true)
    (by simp [IsParm, and_assoc])

/-- The return type is `first` and further words, each with one space more than
its number in front; `sep` are the stars with the spaces around them; `blank`
spaces stand in front of the parentheses, and `pad` between them when they are
empty. -/
structure Prototype where
  first : List UInt8
  words : List (Nat × List UInt8)
  sep : List UInt8
  name : List UInt8
  blank : Nat
  parms : List (List UInt8)
  pad : Nat
  first_word : IsWord first
  words_word : ∀ w ∈ words, IsWord w.2
  sep_ne : sep ≠ []
  sep_mem : ∀ c ∈ sep, c = 0x20 ∨ c = 0x2a
  name_word : IsWord name
  name_short : name.length < maxFnameLen
  parms_parm : ∀ p ∈ parms, IsParm p

/-- A text without its spaces. -/
def squeeze (s : List UInt8) : List UInt8 := s.filter (· ≠ 0x20)

namespace Prototype
variable (p : Prototype)

def ret : List UInt8 := p.first ++ p.words.flatMap fun w => spaces (w.1 + 1) ++ w.2

/-- What stands between the parentheses. -/
def list : List UInt8 :=
  match p.parms with
  | [] => spaces p.pad
  | q :: qs => q ++ qs.flatMap (0x2c :: ·)

def text : List UInt8 :=
  p.ret ++ p.sep ++ p.name ++ spaces p.blank ++ 0x28 :: (p.list ++ [0x29])

/-- The return type is `void`, with or without stars. -/
def RetVoid : Prop := p.words = [] ∧ p.first = voidText

instance : Decidable p.RetVoid := inferInstanceAs (Decidable (_ ∧ _))

/-- The number of parameters; a single `void` is none. -/
def pnum : Nat := if p.parms.map squeeze = [voidText] then 0 else p.parms.length

def rval : Nat := if p.RetVoid ∧ 0x2a ∉ p.sep then 0 else 1

end Prototype

/-! ## Characters -/

theorem isIdent_ne : ∀ c : UInt8, isIdent c = true →
    c ≠ 0 ∧ c ≠ 0x20 ∧ c ≠ 0x22 ∧ c ≠ 0x28 ∧ c ≠ 0x29 ∧ c ≠ 0x2a :=
  uint8_all (by decide +kernel)

theorem IsWord.ne {w : List UInt8} (h : IsWord w) {c : UInt8} (hc : c ∈ w) :
    c ≠ 0 ∧ c ≠ 0x20 ∧ c ≠ 0x22 ∧ c ≠ 0x28 ∧ c ≠ 0x29 ∧ c ≠ 0x2a :=
  isIdent_ne c (List.all_eq_true.mp h.2 c hc)

theorem squeeze_append (s t : List UInt8) : squeeze (s ++ t) = squeeze s ++ squeeze t :=
  List.filter_append ..

theorem squeeze_word {w : List UInt8} (h : IsWord w) : squeeze w = w :=
  List.filter_eq_self.mpr fun c hc => by simpa using (h.ne hc).2.1

theorem squeeze_spaces (n : Nat) : squeeze (spaces n) = [] := by
  simp [squeeze, spaces]

/-! ## The return type -/

theorem fnameType_full {fpname : List UInt8} (h : fpname.length = 5) (s : List UInt8) :
    fnameType s fpname = fpname := by
  cases s with
  | nil => rfl
  | cons c s => simp [fnameType, h]

/-- The first loop does not see spaces. -/
theorem fnameType_squeeze {s fpname : List UInt8} (h : fpname.length ≤ 5) :
    fnameType (cstr s) fpname = fnameType (cstr (squeeze s)) fpname := by
  induction s generalizing fpname with
  | nil => rfl
  | cons c s ih =>
    by_cases hfull : fpname.length = 5
    · rw [fnameType_full hfull, fnameType_full hfull]
    by_cases hc : c = 0x20
    · have hskip : squeeze (c :: s) = squeeze s := by simp [squeeze, hc]
      rw [hskip, cstr_cons, hc, fnameType]
      simp [hfull, ih h]
    · have hkeep : squeeze (c :: s) = c :: squeeze s := by simp [squeeze, hc]
      have hlen : (fpname ++ [c]).length ≤ 5 := by
        rw [List.length_append, List.length_singleton]
        omega
      rw [hkeep, cstr_cons, cstr_cons, fnameType, fnameType, ih hlen]
      simp [hc, Nat.lt_of_le_of_ne h hfull]

/-- The first four characters are recorded. -/
theorem fnameType_append {s t fpname : List UInt8} (hs : ∀ c ∈ s, c ≠ 0 ∧ c ≠ 0x20)
    (hlen : fpname.length + s.length ≤ 4) :
    fnameType (s ++ t) fpname = fnameType t (fpname ++ s) := by
  induction s generalizing fpname with
  | nil => rw [List.nil_append, List.append_nil]
  | cons c s ih =>
    obtain ⟨⟨hc, hspace⟩, hs⟩ := List.forall_mem_cons.mp hs
    rw [List.length_cons] at hlen
    have hrec : fpname.length < 5 := by omega
    have hfour : ¬ fpname.length = 4 := by omega
    have hnext : (fpname ++ [c]).length + s.length ≤ 4 := by
      rw [List.length_append, List.length_singleton]
      omega
    have hstep : fnameType (c :: (s ++ t)) fpname = fnameType (s ++ t) (fpname ++ [c]) := by
      simp [fnameType, hc, hspace, hrec, hfour]
    rw [List.cons_append, hstep, ih hs hnext, List.append_assoc, List.singleton_append]

/-- A fifth character is recorded only when it is a star. -/
theorem fnameType_fifth {s fpname : List UInt8} (hs : ∀ c ∈ s, c ≠ 0 ∧ c ≠ 0x20)
    (hlen : fpname.length = 4) :
    fnameType (cstr s) fpname = if s.headD 0 = 0x2a then fpname ++ [0x2a] else fpname := by
  cases s with
  | nil => rfl
  | cons c s =>
    obtain ⟨hc, hspace⟩ := hs c (List.mem_cons_self ..)
    rw [cstr_cons, fnameType, List.headD_cons]
    by_cases hstar : c = 0x2a
    · have hfull : (fpname ++ [0x2a]).length = 5 := by rw [List.length_append, hlen]; rfl
      rw [hstar, fnameType_full hfull]
      simp [hlen]
    · simp [hc, hspace, hlen, hstar]

theorem squeeze_mem {s : List UInt8} (h0 : 0 ∉ s) : ∀ c ∈ squeeze s, c ≠ 0 ∧ c ≠ 0x20 := by
  intro c hc
  obtain ⟨hm, hspace⟩ := List.mem_filter.mp hc
  exact ⟨fun hz => h0 (hz ▸ hm), by simpa using hspace⟩

/-- The record of the first loop: four characters, and a star behind them. -/
def typeRecord (ns : List UInt8) : List UInt8 :=
  ns.take 4 ++ if (ns.drop 4).headD 0 = 0x2a then [0x2a] else []

/-- What the first loop makes of a text. -/
theorem fnameType_eq {s : List UInt8} (h0 : 0 ∉ s) :
    fnameType (cstr s) [] = typeRecord (squeeze s) := by
  have hchars := squeeze_mem h0
  rw [@fnameType_squeeze s [] (Nat.zero_le 5)]
  generalize squeeze s = ns at hchars
  have hsplit : cstr ns = ns.take 4 ++ cstr (ns.drop 4) := by
    rw [cstr, cstr, ← List.append_assoc, List.take_append_drop]
  have hfour : ([] : List UInt8).length + (ns.take 4).length ≤ 4 := by
    rw [List.length_nil, List.length_take]
    omega
  rw [hsplit, fnameType_append (fun c hc => hchars c (List.mem_of_mem_take hc)) hfour,
    List.nil_append]
  unfold typeRecord
  by_cases hlen : 4 ≤ ns.length
  · rw [fnameType_fifth (fun c hc => hchars c (List.mem_of_mem_drop hc))
      (by rw [List.length_take]; omega)]
    split
    · rfl
    · rw [List.append_nil]
  · have hdrop : ns.drop 4 = [] := List.drop_eq_nil_of_le (by omega)
    rw [hdrop]
    exact (List.append_nil _).symm

theorem typeRecord_no_nul {ns : List UInt8} (h0 : 0 ∉ ns) : 0 ∉ typeRecord ns := by
  intro hm
  rcases List.mem_append.mp hm with hm | hm
  · exact h0 (List.mem_of_mem_take hm)
  · split at hm
    · revert hm; decide
    · cases hm

theorem typeRecord_ne {ns : List UInt8} (hne : ns ≠ []) : typeRecord ns ≠ [] := by
  intro hnil
  obtain ⟨htake, _⟩ := List.append_eq_nil_iff.mp hnil
  rw [List.take_eq_nil_iff] at htake
  exact hne (htake.resolve_left (by decide))

/-- The record is `void` when the text begins so and no star follows. -/
theorem typeRecord_void {ns : List UInt8} :
    typeRecord ns = voidText ↔ voidText <+: ns ∧ (ns.drop 4).headD 0 ≠ 0x2a := by
  rw [typeRecord, List.prefix_iff_eq_take]
  split
  · rename_i hstar
    refine iff_of_false (fun he => ?_) (fun hx => hx.2 hstar)
    have hlast := congrArg List.getLast? he
    rw [List.getLast?_append, List.getLast?_singleton, Option.some_or] at hlast
    revert hlast
    decide
  · rename_i hstar
    rw [List.append_nil]
    exact ⟨fun he => ⟨he.symm, hstar⟩, fun hx => hx.1.symm⟩

/-- Whether a value is returned, from the text alone. -/
theorem fnameRval_eq {s : List UInt8} (h0 : 0 ∉ s) (hne : squeeze s ≠ []) :
    fnameRval (cstr s) =
      some (if voidText <+: squeeze s ∧ ((squeeze s).drop 4).headD 0 ≠ 0x2a then 0 else 1) := by
  have hvoid0 : 0 ∉ voidText := by decide
  have hrecord0 : 0 ∉ typeRecord (squeeze s) :=
    typeRecord_no_nul fun hm => (squeeze_mem h0 0 hm).1 rfl
  simp only [fnameRval, fnameType_eq h0, if_neg (typeRecord_ne hne),
    usmartStrcmp_eq_zero_iff hrecord0 hvoid0, typeRecord_void]
  split <;> rfl

/-! ## Where the name starts -/

/-- The second loop over a text in front of the parentheses. -/
theorem fnameOffset_append {s : List UInt8} (hs : ∀ c ∈ s, c ≠ 0 ∧ c ≠ 0x28) (t : List UInt8)
    (res offset : Nat) (hlen : res + s.length < 2 ^ 8) :
    ∃ o, fnameOffset (s ++ t) res offset = fnameOffset t (res + s.length) o := by
  induction s generalizing res offset with
  | nil => exact ⟨offset, rfl⟩
  | cons c s ih =>
    obtain ⟨⟨hc, hopen⟩, hs⟩ := List.forall_mem_cons.mp hs
    rw [List.length_cons] at hlen ⊢
    have hmod : (res + 1) % 2 ^ 8 = res + 1 := Nat.mod_eq_of_lt (by omega)
    rw [List.cons_append, fnameOffset, if_neg (not_or.mpr ⟨hopen, hc⟩), hmod,
      show res + (s.length + 1) = res + 1 + s.length by omega]
    exact ih hs _ _ (by omega)

theorem searchNextc_spaces (c : UInt8) (n : Nat) {t : List UInt8} (ht : t.headD 0 ≠ 0x20) :
    usmartSearchNextc (c :: (spaces n ++ t)) = t.headD 0 := by
  have hdrop : (spaces n ++ t).dropWhile (· = 0x20) = t := by
    rw [List.dropWhile_append_of_pos]
    · cases t with
      | nil => rfl
      | cons d t =>
        rw [List.headD_cons] at ht
        rw [List.dropWhile_cons, if_neg (by simpa using ht)]
    · intro d hd
      simpa using List.eq_of_mem_replicate hd
  rw [usmartSearchNextc, List.tail_cons, hdrop]

/-- The spaces in front of the parentheses do not move the offset. -/
theorem fnameOffset_blank (rest : List UInt8) (n : Nat) (c : UInt8) (res offset : Nat) :
    fnameOffset (c :: (spaces n ++ 0x28 :: rest)) res offset = offset := by
  induction n generalizing c res with
  | zero =>
    rw [fnameOffset]
    split
    · rfl
    · simp [spaces, fnameOffset]
  | succ n ih =>
    have hnext : usmartSearchNextc (0x20 :: (spaces n ++ 0x28 :: rest)) = 0x28 :=
      searchNextc_spaces 0x20 n (t := 0x28 :: rest) (by rw [List.headD_cons]; decide)
    have hcons : spaces (n + 1) ++ 0x28 :: rest = 0x20 :: (spaces n ++ 0x28 :: rest) := rfl
    rw [hcons, fnameOffset]
    split
    · rfl
    · dsimp only
      rw [List.headD_cons, if_pos (Or.inl rfl), hnext, if_neg (fun h => h.1 rfl)]
      exact ih _ _

/-- Nor does the name itself. -/
theorem fnameOffset_name (rest : List UInt8) {w : List UInt8} (hw : w.all isIdent = true) (n : Nat)
    (c : UInt8) (res offset : Nat) :
    fnameOffset (c :: (w ++ spaces n ++ 0x28 :: rest)) res offset = offset := by
  induction w generalizing c res with
  | nil => exact fnameOffset_blank rest n c res offset
  | cons d w ih =>
    rw [List.all_cons, Bool.and_eq_true] at hw
    have hd := isIdent_ne d hw.1
    have hcons : d :: w ++ spaces n ++ 0x28 :: rest = d :: (w ++ spaces n ++ 0x28 :: rest) := rfl
    rw [hcons, fnameOffset]
    split
    · rfl
    · dsimp only
      rw [List.headD_cons, if_neg (not_or.mpr ⟨hd.2.1, hd.2.2.2.2.2⟩)]
      exact ih hw.2 _ _

/-- The offset is that of the last character in front of the name. -/
theorem fnameOffset_eq {pre w : List UInt8} (hpre : ∀ c ∈ pre, c ≠ 0 ∧ c ≠ 0x28) (hne : pre ≠ [])
    {g : UInt8} (hg : g = 0x20 ∨ g = 0x2a) (hw : IsWord w) (n : Nat) (rest : List UInt8)
    (hlen : pre.length < 2 ^ 8) :
    fnameOffset (pre ++ g :: (w ++ spaces n ++ 0x28 :: rest)) 0 0 = pre.length := by
  -- the loop looks one character ahead, so it finds `g` at the character in front of it
  obtain ⟨pre, x, rfl⟩ : ∃ s x, pre = s ++ [x] :=
    ⟨pre.dropLast, pre.getLast hne, (List.dropLast_append_getLast hne).symm⟩
  rw [List.length_append, List.length_singleton] at hlen ⊢
  obtain ⟨hs, hx⟩ := List.forall_mem_append.mp hpre
  obtain ⟨hx0, hxopen⟩ := hx x (List.mem_singleton_self x)
  obtain ⟨d, w, rfl⟩ := List.exists_cons_of_ne_nil hw.1
  have hd := isIdent_ne d (List.all_eq_true.mp hw.2 d (List.mem_cons_self ..))
  have hnext : usmartSearchNextc (g :: (d :: w ++ spaces n ++ 0x28 :: rest)) = d :=
    searchNextc_spaces g 0 (t := d :: w ++ spaces n ++ 0x28 :: rest) hd.2.1
  have hmod : (pre.length + 1) % 2 ^ 8 = pre.length + 1 := Nat.mod_eq_of_lt hlen
  obtain ⟨o, ho⟩ := fnameOffset_append hs (x :: g :: (d :: w ++ spaces n ++ 0x28 :: rest)) 0 0
    (by omega)
  rw [List.append_assoc, List.singleton_append, ho, Nat.zero_add, fnameOffset,
    if_neg (not_or.mpr ⟨hxopen, hx0⟩), hmod]
  dsimp only
  rw [List.headD_cons, if_pos hg, hnext, if_pos ⟨hd.2.2.2.1, hd.2.2.2.2.2⟩]
  exact fnameOffset_name rest hw.2 n g _ _

/-- The third loop starts at the name. -/
theorem fnameStart_eq {pre w : List UInt8} (hpre : ∀ c ∈ pre, c ≠ 0 ∧ c ≠ 0x28) (hne : pre ≠ [])
    {g : UInt8} (hg : g = 0x20 ∨ g = 0x2a) (hw : IsWord w) (n : Nat) (rest : List UInt8)
    (hlen : pre.length < 2 ^ 8) :
    fnameStart (pre ++ g :: (w ++ spaces n ++ 0x28 :: rest)) = w ++ spaces n ++ 0x28 :: rest := by
  have hpos : pre.length ≠ 0 := fun hz => hne (List.length_eq_zero_iff.mp hz)
  rw [fnameStart, fnameOffset_eq hpre hne hg hw n rest hlen, if_pos hpos, List.drop_append,
    List.drop_eq_nil_of_le (Nat.le_succ _)]
  simp

/-! ## The name and the parameters -/

/-- In front of the parentheses the name is copied without spaces. -/
theorem fnameLoop_out {s t : List UInt8} {st : Fname}
    (hs : ∀ c ∈ s, c ≠ 0 ∧ c ≠ 0x22 ∧ c ≠ 0x28 ∧ c ≠ 0x29) (h : st.fover = 0) (ht : st.temp = 1) :
    fnameLoop (s ++ t) st = fnameLoop t { st with fname := st.fname ++ squeeze s } := by
  induction s generalizing st with
  | nil => simp [squeeze]
  | cons c s ih =>
    obtain ⟨⟨hc, hquote, hopen, hclose⟩, hs⟩ := List.forall_mem_cons.mp hs
    have hsqueeze : squeeze (c :: s) = (if c ≠ 0x20 then [c] else []) ++ squeeze s := by
      by_cases hspace : c = 0x20 <;> simp [squeeze, hspace]
    rcases Fname.pass_out h ht hc with ⟨hx, _, _⟩ | ⟨hx, _, _⟩ | ⟨_, hpass⟩
    · exact absurd hx hopen
    · exact absurd hx hclose
    · rw [if_neg hquote] at hpass
      rw [List.cons_append, fnameLoop_go hpass, ih hs (by exact h) (by exact ht), hsqueeze,
        List.append_assoc]

/-- What the variables are between two parameters or inside one. -/
structure Fname.Inside (st : Fname) : Prop where
  depth : st.fover = 1
  unquoted : st.nchar = false
  short : st.fpname.length ≤ 5

/-- The record of the first parameter once the characters `p` are passed. -/
def Fname.fpnameOf (st : Fname) (p : List UInt8) : List UInt8 :=
  if st.pcnt = 0 then (st.fpname ++ squeeze p).take 5 else st.fpname

/-- Inside the parentheses a character is recorded and maybe counted. -/
theorem Fname.pass_inside {st : Fname} (h : st.Inside) {c : UInt8}
    (hc : c ≠ 0 ∧ c ≠ 0x22 ∧ c ≠ 0x28 ∧ c ≠ 0x29) :
    st.pass c = (none, (st.record c).count) := by
  obtain ⟨hc, hquote, hopen, hclose⟩ := hc
  have hnest : st.nest c = st := by simp [Fname.nest, hopen, hclose, hquote]
  have hgo : ¬ (c = 0x29 ∧ st.nchar = false ∧ (st.nest c).fover = 0) := fun hx => hclose hx.1
  rw [Fname.pass, if_neg hc, if_neg hgo, hnest, Fname.take,
    if_neg (by rw [h.depth]; exact Nat.one_ne_zero)]

theorem Fname.length_fpnameOf {st : Fname} (h : st.Inside) (p : List UInt8) :
    (st.fpnameOf p).length ≤ 5 := by
  unfold fpnameOf
  split
  · exact List.length_take_le _ _
  · exact h.short

/-- Recording more of a parameter leaves the loop inside. -/
theorem Fname.Inside.recorded {st : Fname} (h : st.Inside) (p : List UInt8)
    (temp parmnum pcnt : Nat) :
    ({ st with
        fpname := st.fpnameOf p, temp := temp, parmnum := parmnum, pcnt := pcnt } : Fname).Inside :=
  ⟨h.depth, h.unquoted, length_fpnameOf h p⟩

/-- The record of two texts is that of one behind the other. -/
theorem Fname.fpnameOf_append (st : Fname) (p q : List UInt8) (temp parmnum : Nat) :
    ({ st with fpname := st.fpnameOf p, temp := temp, parmnum := parmnum } : Fname).fpnameOf q =
      st.fpnameOf (p ++ q) := by
  have hcut : ∀ a b : List UInt8, (a.take 5 ++ b).take 5 = (a ++ b).take 5 := by
    intro a b
    rw [List.take_append, List.take_append, List.take_take, List.length_take, Nat.min_self]
    congr 2
    omega
  simp only [fpnameOf]
  split
  · rw [hcut, squeeze_append, List.append_assoc]
  · rfl

theorem Fname.fpnameOf_nil {st : Fname} (h : st.Inside) : st.fpnameOf [] = st.fpname := by
  simp [fpnameOf, squeeze, List.take_of_length_le h.short]

theorem Fname.fpnameOf_space (st : Fname) (p : List UInt8) :
    st.fpnameOf (0x20 :: p) = st.fpnameOf p := by
  have hskip : squeeze (0x20 :: p) = squeeze p := by simp [squeeze]
  rw [fpnameOf, fpnameOf, hskip]

theorem Fname.record_space (st : Fname) : st.record 0x20 = st := by simp [record]

theorem Fname.count_none {st : Fname} (h : st.temp ≠ 2) : st.count = st := by
  simp [count, h]

/-- A character of a parameter. -/
theorem Fname.record_char {st : Fname} (h : st.Inside) {c : UInt8}
    (hc : c ≠ 0x20 ∧ c ≠ 0x28 ∧ c ≠ 0x2c) (htemp : st.temp < 2 ^ 8 - 1) :
    st.record c = { st with fpname := st.fpnameOf [c], temp := st.temp + 1 } := by
  have hmod : (st.temp + 1) % 2 ^ 8 = st.temp + 1 := Nat.mod_eq_of_lt (by omega)
  have hkeep : squeeze [c] = [c] := by simp [squeeze, hc.1]
  have hrecord : (if st.pcnt = 0 ∧ st.fpname.length < 5 then st.fpname ++ [c] else st.fpname) =
      st.fpnameOf [c] := by
    have hshort := h.short
    by_cases hp : st.pcnt = 0
    · by_cases hlt : st.fpname.length < 5
      · rw [fpnameOf, if_pos hp, if_pos ⟨hp, hlt⟩, hkeep, List.take_of_length_le]
        rw [List.length_append, List.length_singleton]
        omega
      · have hfull : st.fpname.length = 5 := by omega
        rw [fpnameOf, if_pos hp, if_neg (fun hx => hlt hx.2), ← hfull, List.take_left']
        rfl
    · rw [fpnameOf, if_neg hp, if_neg (fun hx => hp hx.1)]
  rw [record, if_neg hc.2.2, if_pos ⟨hc.1, hc.2.1⟩, hmod, hrecord]

/-- A space is passed over. -/
theorem fnameLoop_parm_space {s : List UInt8} {st : Fname} (h : st.Inside) (htemp : st.temp ≠ 2) :
    fnameLoop (0x20 :: s) st = fnameLoop s st := by
  have hpass := Fname.pass_inside h (c := 0x20) ⟨by decide, by decide, by decide, by decide⟩
  rw [fnameLoop_go hpass, Fname.record_space, Fname.count_none htemp]

/-- Behind its first character a parameter is not counted again. -/
theorem fnameLoop_parm_rest {p t : List UInt8} {st : Fname} (h : st.Inside)
    (hp : ∀ c ∈ p, c ≠ 0 ∧ c ≠ 0x22 ∧ c ≠ 0x28 ∧ c ≠ 0x29 ∧ c ≠ 0x2c) (htemp : 3 ≤ st.temp)
    (hlen : st.temp + p.length < 2 ^ 8) :
    ∃ n, fnameLoop (p ++ t) st = fnameLoop t { st with fpname := st.fpnameOf p, temp := n } := by
  induction p generalizing st with
  | nil => exact ⟨st.temp, by rw [Fname.fpnameOf_nil h]; rfl⟩
  | cons c p ih =>
    obtain ⟨⟨hc, hquote, hopen, hclose, hcomma⟩, hp⟩ := List.forall_mem_cons.mp hp
    rw [List.length_cons] at hlen
    rw [List.cons_append]
    by_cases hspace : c = 0x20
    · rw [hspace, fnameLoop_parm_space h (by omega), Fname.fpnameOf_space]
      exact ih h hp htemp (by omega)
    · have hpass := Fname.pass_inside h ⟨hc, hquote, hopen, hclose⟩
      rw [fnameLoop_go hpass, Fname.record_char h ⟨hspace, hopen, hcomma⟩ (by omega),
        Fname.count_none (by dsimp only; omega)]
      obtain ⟨n, hn⟩ := ih (h.recorded [c] (st.temp + 1) st.parmnum st.pcnt) hp
        (by dsimp only; omega) (by dsimp only; omega)
      refine ⟨n, ?_⟩
      rw [hn, st.fpnameOf_append [c] p]
      rfl

/-- A parameter is counted once, at its first character. -/
theorem fnameLoop_parm {p t : List UInt8} {st : Fname} (h : st.Inside) (hp : IsParm p)
    (htemp : st.temp = 1) (hlen : p.length + 2 < 2 ^ 8) (hmany : st.parmnum + 1 < 2 ^ 8) :
    ∃ n, fnameLoop (p ++ t) st =
      fnameLoop t { st with fpname := st.fpnameOf p, temp := n, parmnum := st.parmnum + 1 } := by
  obtain ⟨hsome, hp⟩ := hp
  induction p with
  | nil =>
    obtain ⟨c, hc, _⟩ := hsome
    cases hc
  | cons c p ih =>
    obtain ⟨⟨hc, hquote, hopen, hclose, hcomma⟩, hp⟩ := List.forall_mem_cons.mp hp
    rw [List.length_cons] at hlen
    rw [List.cons_append]
    by_cases hspace : c = 0x20
    · have hrest : ∃ d ∈ p, d ≠ 0x20 := by
        obtain ⟨d, hd, hne⟩ := hsome
        rcases List.mem_cons.mp hd with rfl | hd
        · exact absurd hspace hne
        · exact ⟨d, hd, hne⟩
      rw [hspace, fnameLoop_parm_space h (by omega), Fname.fpnameOf_space]
      exact ih (by omega) hrest hp
    · have hpass := Fname.pass_inside h ⟨hc, hquote, hopen, hclose⟩
      have hmod : (st.parmnum + 1) % 2 ^ 8 = st.parmnum + 1 := Nat.mod_eq_of_lt hmany
      have hcount : (st.record c).count = { st with
          fpname := st.fpnameOf [c], temp := 3, parmnum := st.parmnum + 1 } := by
        rw [Fname.record_char h ⟨hspace, hopen, hcomma⟩ (by omega), Fname.count]
        dsimp only
        rw [htemp, hmod, if_pos ⟨h.depth, rfl⟩]
        rfl
      have hinside := h.recorded [c] 3 (st.parmnum + 1) st.pcnt
      obtain ⟨n, hn⟩ := fnameLoop_parm_rest (t := t) hinside hp (Nat.le_refl 3)
        (by dsimp only; omega)
      refine ⟨n, ?_⟩
      rw [fnameLoop_go hpass, hcount, hn, st.fpnameOf_append [c] p]
      rfl

/-- A comma starts the next parameter. -/
theorem fnameLoop_comma {t : List UInt8} {st : Fname} (h : st.Inside) :
    fnameLoop (0x2c :: t) st =
      fnameLoop t { st with temp := 1, pcnt := (st.pcnt + 1) % 2 ^ 8 } := by
  have hpass := Fname.pass_inside h (c := 0x2c) (by decide)
  have hcount : (st.record 0x2c).count = { st with temp := 1, pcnt := (st.pcnt + 1) % 2 ^ 8 } :=
    Fname.count_none (by simp [Fname.record])
  rw [fnameLoop_go hpass, hcount]

/-- The closing parenthesis ends the loop. -/
theorem fnameLoop_close {t : List UInt8} {st : Fname} (h : st.Inside) :
    fnameLoop (0x29 :: t) st = (usmartOk, { st with fover := 0 }) := by
  obtain ⟨fover, nchar, temp, parmnum, pcnt, fpname, fname⟩ := st
  obtain ⟨hdepth, hquote, _⟩ := h
  dsimp only at hdepth hquote
  subst hdepth hquote
  exact fnameLoop_stop rfl t

/-- All parameters are counted, and the record of a single one is its own. -/
theorem fnameLoop_parms (t : List UInt8) {qs : List (List UInt8)} (q : List UInt8) {st : Fname}
    (h : st.Inside) (hq : ∀ p ∈ q :: qs, IsParm p) (htemp : st.temp = 1)
    (hlen : st.parmnum + (q ++ qs.flatMap (0x2c :: ·)).length + 2 < 2 ^ 8) :
    ∃ st', fnameLoop (q ++ qs.flatMap (0x2c :: ·) ++ 0x29 :: t) st = (usmartOk, st') ∧
      st'.fname = st.fname ∧ st'.parmnum = st.parmnum + (qs.length + 1) ∧
      (qs = [] → st'.fpname = st.fpnameOf q) := by
  induction qs generalizing q st with
  | nil =>
    rw [List.flatMap_nil, List.append_nil] at hlen ⊢
    obtain ⟨n, hn⟩ := fnameLoop_parm (t := 0x29 :: t) h (hq q (List.mem_cons_self ..)) htemp
      (by omega) (by omega)
    rw [hn]
    exact ⟨_, fnameLoop_close (h.recorded q n _ st.pcnt), rfl, rfl, fun _ => rfl⟩
  | cons r qs ih =>
    obtain ⟨hparm, hrest⟩ := List.forall_mem_cons.mp hq
    have hone : 0 < q.length := by
      obtain ⟨c, hc, _⟩ := hparm.1
      exact List.length_pos_of_mem hc
    rw [List.flatMap_cons, List.length_append, List.cons_append, List.length_cons] at hlen
    obtain ⟨n, hn⟩ := fnameLoop_parm
      (t := 0x2c :: (r ++ qs.flatMap (0x2c :: ·) ++ 0x29 :: t)) h hparm htemp (by omega) (by omega)
    have hinside := h.recorded q n (st.parmnum + 1) st.pcnt
    -- behind the comma the rest of the list is one parameter shorter
    have hnext := h.recorded q 1 (st.parmnum + 1) ((st.pcnt + 1) % 2 ^ 8)
    obtain ⟨st', hrun, hname, hnum, _⟩ := ih r hnext hrest rfl (by dsimp only; omega)
    refine ⟨st', ?_, hname, ?_, fun hnil => by cases hnil⟩
    · have htext : q ++ (r :: qs).flatMap (0x2c :: ·) ++ 0x29 :: t =
          q ++ 0x2c :: (r ++ qs.flatMap (0x2c :: ·) ++ 0x29 :: t) := by simp
      rw [htext, hn, fnameLoop_comma hinside]
      exact hrun
    · rw [hnum, List.length_cons]
      dsimp only
      omega

/-- An empty list of parameters may hold spaces. -/
theorem fnameLoop_pad (t : List UInt8) (n : Nat) {st : Fname} (h : st.Inside)
    (htemp : st.temp = 1) :
    fnameLoop (spaces n ++ 0x29 :: t) st = (usmartOk, { st with fover := 0 }) := by
  induction n with
  | zero => exact fnameLoop_close h
  | succ n ih =>
    have hpass := Fname.pass_inside h (c := 0x20) (by decide)
    rw [Fname.record_space, Fname.count_none (by omega)] at hpass
    have hcons : spaces (n + 1) ++ 0x29 :: t = 0x20 :: (spaces n ++ 0x29 :: t) := rfl
    rw [hcons, fnameLoop_go hpass, ih]

/-! ## The whole text -/

namespace Prototype
variable (p : Prototype)

theorem ret_mem {c : UInt8} (hc : c ∈ p.ret) : c = 0x20 ∨ isIdent c = true := by
  rcases List.mem_append.mp hc with hc | hc
  · exact Or.inr (List.all_eq_true.mp p.first_word.2 c hc)
  · obtain ⟨w, hw, hc⟩ := List.mem_flatMap.mp hc
    rcases List.mem_append.mp hc with hc | hc
    · exact Or.inl (List.eq_of_mem_replicate hc)
    · exact Or.inr (List.all_eq_true.mp (p.words_word w hw).2 c hc)

theorem list_mem {c : UInt8} (hc : c ∈ p.list) : c ≠ 0 := by
  unfold list at hc
  split at hc
  · rw [List.eq_of_mem_replicate hc]
    decide
  · rename_i q qs hparms
    have hq : ∀ r ∈ q :: qs, c ∈ r → c ≠ 0 := fun r hr hcr =>
      ((p.parms_parm r (hparms ▸ hr)).2 c hcr).1
    rcases List.mem_append.mp hc with hc | hc
    · exact hq q (List.mem_cons_self ..) hc
    · obtain ⟨r, hr, hc⟩ := List.mem_flatMap.mp hc
      rcases List.mem_cons.mp hc with rfl | hc
      · decide
      · exact hq r (List.mem_cons_of_mem _ hr) hc

/-- The third loop reads the name and the parameters. -/
theorem fnameLoop_text (t : List UInt8) (hlen : p.list.length + 2 < 2 ^ 8) :
    ∃ st, fnameLoop (p.name ++ spaces p.blank ++ 0x28 :: (p.list ++ 0x29 :: t)) .init =
        (usmartOk, st) ∧
      st.fname = p.name ∧ st.parmnum = p.parms.length ∧
      ∀ q, p.parms = [q] → st.fpname = (squeeze q).take 5 := by
  have hout : ∀ c ∈ p.name ++ spaces p.blank, c ≠ 0 ∧ c ≠ 0x22 ∧ c ≠ 0x28 ∧ c ≠ 0x29 := by
    intro c hc
    rcases List.mem_append.mp hc with hc | hc
    · have hne := p.name_word.ne hc
      exact ⟨hne.1, hne.2.2.1, hne.2.2.2.1, hne.2.2.2.2.1⟩
    · rw [List.eq_of_mem_replicate hc]
      decide
  have hname : squeeze (p.name ++ spaces p.blank) = p.name := by
    rw [squeeze_append, squeeze_word p.name_word, squeeze_spaces, List.append_nil]
  rw [fnameLoop_out hout rfl rfl, hname]
  have hopen : ({ Fname.init with fname := Fname.init.fname ++ p.name } : Fname).pass 0x28 =
      (none, { Fname.init with fover := 1, fname := p.name }) := rfl
  have hinside : ({ Fname.init with fover := 1, fname := p.name } : Fname).Inside :=
    ⟨rfl, rfl, Nat.zero_le 5⟩
  rw [fnameLoop_go hopen]
  cases hparms : p.parms with
  | nil =>
    have hlist : p.list = spaces p.pad := by rw [list, hparms]
    rw [hlist]
    exact ⟨_, fnameLoop_pad t p.pad hinside rfl, rfl, rfl, fun _ hq => by cases hq⟩
  | cons q qs =>
    have hlist : p.list = q ++ qs.flatMap (0x2c :: ·) := by rw [list, hparms]
    rw [hlist] at hlen ⊢
    obtain ⟨st, hrun, hfname, hnum, hone⟩ := fnameLoop_parms t q hinside
      (fun r hr => p.parms_parm r (hparms ▸ hr)) rfl (by simpa [Fname.init] using hlen)
    refine ⟨st, hrun, hfname, hnum.trans (Nat.zero_add _), fun r hr => ?_⟩
    obtain ⟨rfl, rfl⟩ := List.cons.inj hr
    exact hone rfl

/-- The text, seen from the name. -/
theorem text_split : ∃ pre g, p.ret ++ p.sep = pre ++ [g] ∧ pre ≠ [] ∧
    (∀ c ∈ pre, c ≠ 0 ∧ c ≠ 0x28) ∧ (g = 0x20 ∨ g = 0x2a) := by
  obtain ⟨sep, g, hsep⟩ : ∃ s g, p.sep = s ++ [g] :=
    ⟨p.sep.dropLast, p.sep.getLast p.sep_ne, (List.dropLast_append_getLast p.sep_ne).symm⟩
  have hmem := p.sep_mem
  rw [hsep] at hmem
  obtain ⟨hmem, hg⟩ := List.forall_mem_append.mp hmem
  refine ⟨p.ret ++ sep, g, by rw [hsep, List.append_assoc], ?_, fun c hc => ?_,
    hg g (List.mem_singleton_self g)⟩
  · exact List.append_ne_nil_of_left_ne_nil (List.append_ne_nil_of_left_ne_nil p.first_word.1 _) _
  · rcases List.mem_append.mp hc with hc | hc
    · rcases p.ret_mem hc with rfl | hc
      · decide
      · exact ⟨(isIdent_ne c hc).1, (isIdent_ne c hc).2.2.2.1⟩
    · rcases hmem c hc with rfl | rfl <;> decide

theorem text_no_nul : 0 ∉ p.text := by
  have hret : 0 ∉ p.ret := fun h => by
    rcases p.ret_mem h with h | h
    · exact absurd h (by decide)
    · exact (isIdent_ne 0 h).1 rfl
  have hsep : 0 ∉ p.sep := fun h => by
    rcases p.sep_mem 0 h with h | h <;> exact absurd h (by decide)
  have hname : 0 ∉ p.name := fun h => (p.name_word.ne h).1 rfl
  have hlist : 0 ∉ p.list := fun h => p.list_mem h rfl
  simp [text, hret, hsep, hname, spaces_clean, hlist]

/-- Without its spaces the separator is its stars. -/
theorem squeeze_sep_head (t : List UInt8) :
    (squeeze p.sep ++ t).headD 0 = if 0x2a ∈ p.sep then 0x2a else t.headD 0 := by
  have hstars : ∀ c ∈ squeeze p.sep, c = 0x2a := by
    intro c hc
    obtain ⟨hm, hne⟩ := List.mem_filter.mp hc
    exact (p.sep_mem c hm).resolve_left (by simpa using hne)
  by_cases hstar : 0x2a ∈ p.sep
  · have hm : 0x2a ∈ squeeze p.sep := List.mem_filter.mpr ⟨hstar, by decide⟩
    rw [if_pos hstar]
    cases hs : squeeze p.sep with
    | nil => rw [hs] at hm; cases hm
    | cons c s => exact hstars c (hs ▸ List.mem_cons_self ..)
  · have hnil : squeeze p.sep = [] := List.eq_nil_iff_forall_not_mem.mpr fun c hc =>
      hstar (hstars c hc ▸ List.mem_of_mem_filter hc)
    rw [if_neg hstar, hnil, List.nil_append]

/-- The return value flag. -/
theorem fnameRval_text (hvoid : p.RetVoid ∨ ¬ voidText <+: squeeze p.text) :
    fnameRval (cstr p.text) = some p.rval := by
  obtain ⟨rest, hrest⟩ : ∃ rest, squeeze p.text =
      squeeze p.ret ++ (squeeze p.sep ++ (p.name ++ rest)) := by
    refine ⟨squeeze (spaces p.blank ++ 0x28 :: (p.list ++ [0x29])), ?_⟩
    simp only [text, squeeze_append, squeeze_word p.name_word, List.append_assoc]
  have hne : squeeze p.text ≠ [] := by
    rw [hrest]
    intro hnil
    have := (List.append_eq_nil_iff.mp (List.append_eq_nil_iff.mp hnil).2).2
    exact p.name_word.1 (List.append_eq_nil_iff.mp this).1
  rw [fnameRval_eq p.text_no_nul hne, rval]
  by_cases hret : p.RetVoid
  · have hsqueeze : squeeze p.ret = voidText := by
      rw [ret, hret.1, hret.2]
      decide
    obtain ⟨d, w, hname⟩ := List.exists_cons_of_ne_nil p.name_word.1
    have hd : d ≠ 0x2a := (p.name_word.ne (hname ▸ List.mem_cons_self ..)).2.2.2.2.2
    have hvoidText : voidText <+: squeeze p.text := by
      rw [hrest, hsqueeze]
      exact List.prefix_append _ _
    have hfifth : ((squeeze p.text).drop 4).headD 0 = if 0x2a ∈ p.sep then 0x2a else d := by
      rw [hrest, hsqueeze, List.drop_left' (by decide), squeeze_sep_head, hname]
      rfl
    rw [hfifth]
    by_cases hstar : 0x2a ∈ p.sep
    · simp [hstar]
    · simp [hstar, hvoidText, hret, hd]
  · have hvoidText := hvoid.resolve_left hret
    simp [hvoidText, hret]

/-- The number of parameters, from what the third loop leaves. -/
theorem pnum_eq {st : Fname} (hnum : st.parmnum = p.parms.length)
    (hone : ∀ q, p.parms = [q] → st.fpname = (squeeze q).take 5) :
    (if st.parmnum = 1 ∧ usmartStrcmp (cstr st.fpname) (cstr voidText) = 0 then 0
      else st.parmnum) = p.pnum := by
  rw [pnum, hnum]
  cases hparms : p.parms with
  | nil => rfl
  | cons q qs =>
    cases qs with
    | nil =>
      have hq0 : 0 ∉ (squeeze q).take 5 := fun hm =>
        ((p.parms_parm q (hparms ▸ List.mem_cons_self ..)).2 0
          (List.mem_of_mem_filter (List.mem_of_mem_take hm))).1 rfl
      -- five characters are enough to tell a text from one of four
      have hiff : (squeeze q).take 5 = voidText ↔ squeeze q = voidText := by
        constructor
        · intro h
          have hlen := congrArg List.length h
          rw [List.length_take] at hlen
          have hfour : voidText.length = 4 := by decide
          rw [← h, List.take_of_length_le (by omega)]
        · intro h
          rw [h]
          decide
      have hcmp : usmartStrcmp (cstr st.fpname) (cstr voidText) = 0 ↔ squeeze q = voidText := by
        rw [hone q hparms, usmartStrcmp_eq_zero_iff hq0 (by decide), hiff]
      simp [hcmp]
    | cons r qs => simp

end Prototype

/-- **Reading a prototype.** In every prototype of less than 256 bytes whose
return type is `void`, or whose text does not begin with `void`, the function
finds the name, which fits in its buffer with its NUL, the number of parameters
and whether a value is returned. -/
theorem usmartGetFname_prototype (p : Prototype) (hlen : p.text.length < 256)
    (hvoid : p.RetVoid ∨ ¬ voidText <+: squeeze p.text) :
    usmartGetFname (cstr p.text) = ⟨usmartOk, p.name, p.pnum, some p.rval⟩ ∧
      p.name.length + 1 ≤ maxFnameLen := by
  obtain ⟨pre, g, hsplit, hne, hpre, hg⟩ := p.text_split
  have htext : cstr p.text =
      pre ++ g :: (p.name ++ spaces p.blank ++ 0x28 :: (p.list ++ 0x29 :: [0])) := by
    rw [cstr, Prototype.text, hsplit]
    simp
  have hlength := congrArg List.length htext
  simp only [cstr, List.length_append, List.length_cons, List.length_nil] at hlength
  obtain ⟨st, hrun, hfname, hnum, hone⟩ := p.fnameLoop_text [0] (by omega)
  have hstart := fnameStart_eq hpre hne hg p.name_word p.blank (p.list ++ 0x29 :: [0]) (by omega)
  refine ⟨?_, p.name_short⟩
  rw [usmartGetFname, p.fnameRval_text hvoid, htext, hstart, hrun]
  dsimp only
  rw [hfname, p.pnum_eq hnum hone]

/-- `unsigned int * f (int a, void)`: two parameters and a value. -/
def sampleText : List UInt8 := text "unsigned int * f (int a, void)"

def samplePrototype : Prototype where
  first := text "unsigned"
  words := [(0, text "int")]
  sep := text " * "
  name := text "f"
  blank := 1
  parms := [text "int a", text " void"]
  pad := 0
  first_word := by decide
  words_word := by decide
  sep_ne := by decide
  sep_mem := by
    have hall : (text " * ").all (fun c => c = 0x20 || c = 0x2a) = true := by decide
    simpa using hall
  name_word := by decide
  name_short := by decide
  parms_parm := by decide

theorem usmartGetFname_prototype_sample :
    usmartGetFname (cstr sampleText) = ⟨usmartOk, text "f", 2, some 1⟩ ∧
      (text "f").length + 1 ≤ maxFnameLen :=
  usmartGetFname_prototype samplePrototype (by decide) (Or.inr (by decide))

end Generalplate.Usmart
