import Generalplate.Usmart.Stored

/-! # Arguments written and read back

A list of arguments can be written in many ways: with spaces around each,
numbers in decimal or hexadecimal, strings in quotes with their quotes and
backslashes escaped. Whichever is typed, what is stored reads back as the list. -/
namespace Generalplate.Usmart
open Lib.Transducer Lib.ByteMem

/-- A hexadecimal digit of either case. -/
def isHexDigit (c : UInt8) : Bool := isHex c || (0x61 ≤ c && c ≤ 0x66)

/-- A backslash in front of every quote and backslash. -/
def escape : List UInt8 → List UInt8
  | [] => []
  | c :: s => if c = 0x22 ∨ c = 0x5c then 0x5c :: c :: escape s else c :: escape s

/-- The ways to write an argument. -/
inductive RendersArg : Arg → List UInt8 → Prop
  | dec {v : UInt32} {ds : List UInt8} : ds ≠ [] → ds.all isDec = true →
      digitsVal 10 ds = v.toNat → RendersArg (.num v) ds
  | hex {v : UInt32} {x : UInt8} {hs : List UInt8} : x = 0x58 ∨ x = 0x78 → hs ≠ [] →
      hs.all isHexDigit = true → digitsVal 16 (hs.map toUpper) = v.toNat →
      RendersArg (.num v) (0x30 :: x :: hs)
  | str {bytes : List UInt8} : 0 ∉ bytes →
      RendersArg (.str bytes) (0x22 :: escape bytes ++ [0x22])

/-- The ways to write what stands between the parentheses. -/
inductive RendersArgs : List Arg → List UInt8 → Prop
  | nil (k : Nat) : RendersArgs [] (spaces k)
  | one {a : Arg} {t : List UInt8} (i j : Nat) : RendersArg a t →
      RendersArgs [a] (spaces i ++ t ++ spaces j)
  | cons {a b : Arg} {as : List Arg} {t u : List UInt8} (i j : Nat) : RendersArg a t →
      RendersArgs (b :: as) u → RendersArgs (a :: b :: as) (spaces i ++ t ++ spaces j ++ 0x2c :: u)

/-! ## The lexer on an argument -/

theorem run_spaces {m : Mode} (h : next m 0x20 = ([], m)) (k : Nat) :
    run next m (spaces k) = ([], m) := by
  induction k with
  | zero => rfl
  | succ k ih => rw [spaces, List.replicate_succ, run_silent h, ← spaces, ih]

theorem next_digit {c : UInt8} (hc : isNumChar c = true) (acc : List UInt8) :
    next (.num acc false) c = ([], .num (acc ++ [toUpper c]) false) := by
  simp [next, numChar_not_end hc, hc]

theorem run_digits (ds acc : List UInt8) (h : ds.all isNumChar = true) :
    run next (.num acc false) ds = ([], .num (acc ++ ds.map toUpper) false) := by
  induction ds generalizing acc with
  | nil => rw [List.map_nil, List.append_nil, run_nil]
  | cons c ds ih =>
    rw [List.all_cons, Bool.and_eq_true] at h
    rw [run_silent (next_digit h.1 acc), ih _ h.2, List.append_assoc]
    rfl

theorem run_escape (s acc : List UInt8) :
    run next (.str acc) (escape s) = ([], .str (acc ++ s)) := by
  induction s generalizing acc with
  | nil => rw [escape, run_nil, List.append_nil]
  | cons c s ih =>
    have hrest := ih (acc ++ [c])
    rw [List.append_assoc, List.singleton_append] at hrest
    rw [escape]
    split
    · have hesc : next (.str acc) 0x5c = ([], .esc acc) := by simp [next]
      have hcopy : next (.esc acc) c = ([], .str (acc ++ [c])) := rfl
      rw [run_silent hesc, run_silent hcopy, hrest]
    · rename_i hplain
      obtain ⟨hq, hb⟩ := not_or.mp hplain
      have hcopy : next (.str acc) c = ([], .str (acc ++ [c])) := by simp [next, hq, hb]
      rw [run_silent hcopy, hrest]

/-- A mode in which an argument can begin. -/
def Ready (acc : List UInt8) (comma : Bool) : Prop := comma = true ∨ acc = []

/-- The mode behind an argument. -/
def Tok.after : Tok → Mode
  | .num digits => .num digits false
  | .str bytes => .post bytes

theorem Ready.start {acc : List UInt8} (h : Ready acc false) : acc = [] :=
  h.resolve_left Bool.false_ne_true

theorem run_number {ds acc : List UInt8} {comma : Bool} (hr : Ready acc comma) (hne : ds ≠ [])
    (hall : ds.all isNumChar = true) :
    run next (.num acc comma) ds = (numTok acc, .num (ds.map toUpper) false) := by
  cases comma with
  | false =>
    obtain rfl := hr.start
    rw [run_digits ds [] hall]
    rfl
  | true =>
    cases ds with
    | nil => exact absurd rfl hne
    | cons c ds =>
      rw [List.all_cons, Bool.and_eq_true] at hall
      have he : isEnd c = false := numChar_not_end hall.1
      have hfirst : next (.num acc true) c = (numTok acc, .num [toUpper c] false) := by
        simp [next, he, hall.1]
      rw [run_cons, hfirst, run_digits ds _ hall.2, List.append_nil]
      rfl

theorem run_string {acc : List UInt8} {comma : Bool} (hr : Ready acc comma) (s : List UInt8) :
    run next (.num acc comma) (0x22 :: escape s ++ [0x22]) = (numTok acc, .post s) := by
  have hfirst : next (.num acc comma) 0x22 = (numTok acc, .str []) := by
    cases comma with
    | false =>
      obtain rfl := hr.start
      rfl
    | true => simp [next, isEnd, isNumChar]
  have hlast : run next (.str s) [0x22] = ([], .post s) := rfl
  have hbody : run next (.str []) (escape s ++ [0x22]) = ([], .post s) := by
    rw [run_append, run_escape]
    exact hlast
  rw [List.cons_append, run_cons, hfirst, hbody, List.append_nil]

/-- A number's token has a digit. -/
def Tok.Digits : Tok → Prop
  | .num digits => digits.headD 0 ≠ 0
  | .str _ => True

theorem dec_char : ∀ c : UInt8, isDec c = true → isNumChar c = true ∧ toUpper c = c :=
  uint8_all (by decide +kernel)

theorem hex_char : ∀ c : UInt8, isHexDigit c = true →
    isNumChar c = true ∧ isHex (toUpper c) = true :=
  uint8_all (by decide +kernel)

/-- A number with a value, typed in digits. -/
theorem token_num {v : UInt32} {t : List UInt8} {n : Nat} (hne : t ≠ []) (hlen : t.length < 2 ^ 8)
    (hall : t.all isNumChar = true) (hval : numVal (t.map toUpper) = some n) (hn : n = v.toNat) :
    (Tok.num (t.map toUpper)).arg = .num v ∧ (Tok.num (t.map toUpper)).WellFormed ∧
      (Tok.num (t.map toUpper)).Digits := by
  have hchars := List.all_eq_true.mp hall
  have h0 : 0 ∉ t.map toUpper := fun h => by
    obtain ⟨c, hc, hz⟩ := List.mem_map.mp h
    exact toUpper_ne (hchars c hc) hz
  refine ⟨?_, ?_, ?_⟩
  · rw [Tok.arg, hval, Option.getD_some, hn, UInt32.ofNat_toNat]
  · rw [Tok.WellFormed, usmartStr2num_some h0 (by rwa [List.length_map]) hval]
  · cases t with
    | nil => exact absurd rfl hne
    | cons c t => exact toUpper_ne (hchars c (List.mem_cons_self ..))

/-- **The token of an argument**, however it is written. -/
theorem RendersArg.token {a : Arg} {t : List UInt8} (h : RendersArg a t) (hlen : t.length < 2 ^ 8) :
    ∃ tok : Tok, tok.arg = a ∧ tok.WellFormed ∧ tok.Digits ∧
      ∀ acc comma, Ready acc comma → run next (.num acc comma) t = (numTok acc, tok.after) := by
  cases h with
  | dec hne hall hval =>
    have hchars := fun c hc => dec_char c (List.all_eq_true.mp hall c hc)
    have hnum : t.all isNumChar = true := List.all_eq_true.mpr fun c hc => (hchars c hc).1
    have hupper : t.map toUpper = t :=
      (List.map_congr_left fun c hc => (hchars c hc).2).trans (List.map_id t)
    obtain ⟨harg, hwf, hdigits⟩ := token_num hne hlen hnum (hupper.symm ▸ numVal_dec hne hall) hval
    exact ⟨_, harg, hwf, hdigits, fun acc comma hr => run_number hr hne hnum⟩
  | @hex v x hs hx hne hall hval =>
    have hchars := fun c hc => hex_char c (List.all_eq_true.mp hall c hc)
    have hx' : isNumChar x = true ∧ toUpper x = 0x58 := by
      rcases hx with rfl | rfl <;> decide
    have hnum : (0x30 :: x :: hs).all isNumChar = true := by
      rw [List.all_cons, List.all_cons, hx'.1, List.all_eq_true.mpr fun c hc => (hchars c hc).1]
      rfl
    have hupper : (0x30 :: x :: hs).map toUpper = 0x30 :: 0x58 :: hs.map toUpper := by
      rw [List.map_cons, List.map_cons, hx'.2]
      rfl
    have hhex : (hs.map toUpper).all isHex = true := by
      rw [List.all_map]
      exact List.all_eq_true.mpr fun c hc => (hchars c hc).2
    obtain ⟨harg, hwf, hdigits⟩ := token_num (by simp) hlen hnum
      (hupper.symm ▸ numVal_hex (by simpa using hne) hhex) hval
    exact ⟨_, harg, hwf, hdigits, fun acc comma hr => run_number hr (by simp) hnum⟩
  | str h0 => exact ⟨.str _, rfl, trivial, trivial, fun acc comma hr => run_string hr _⟩

/-! ## The lexer on the arguments -/

theorem next_space (acc : List UInt8) (comma : Bool) :
    next (.num acc comma) 0x20 = ([], .num acc comma) := by
  simp [next, isEnd, isNumChar]

theorem Tok.after_space (tok : Tok) : next tok.after 0x20 = ([], tok.after) := by
  cases tok with
  | num digits => exact next_space digits false
  | str bytes => simp [Tok.after, next, isEnd]

/-- The end of the arguments gives the token out. -/
theorem Tok.after_close {tok : Tok} (h : tok.Digits) :
    next tok.after 0x29 = ([tok], .fin true) := by
  cases tok with
  | num digits =>
    have hout : numTok digits = [.num digits] := if_neg h
    simp [Tok.after, next, isEnd, hout]
  | str bytes => simp [Tok.after, next, isEnd]

/-- Behind a comma the token is given out, or pending. -/
theorem Tok.after_comma {tok : Tok} (h : tok.Digits) :
    ∃ out acc, next tok.after 0x2c = (out, .num acc true) ∧ out ++ numTok acc = [tok] := by
  cases tok with
  | num digits =>
    have hout : numTok digits = [.num digits] := if_neg h
    exact ⟨[], digits, by simp [Tok.after, next, isEnd, isNumChar], hout⟩
  | str bytes => exact ⟨[.str bytes], [], by simp [Tok.after, next, isEnd], rfl⟩

theorem run_spaced {acc t : List UInt8} {comma : Bool} {tok : Tok}
    (h : run next (.num acc comma) t = (numTok acc, tok.after)) (i j : Nat) :
    run next (.num acc comma) (spaces i ++ t ++ spaces j) = (numTok acc, tok.after) := by
  rw [run_append, run_append, run_spaces (next_space acc comma)]
  dsimp only
  rw [h]
  dsimp only
  rw [run_spaces tok.after_space, List.nil_append, List.append_nil]

/-- **The tokens of the arguments**, however they are written. -/
theorem RendersArgs.tokens {args : List Arg} {u : List UInt8} (h : RendersArgs args u) :
    u.length < 2 ^ 8 → ∃ toks : List Tok, toks.map Tok.arg = args ∧ (∀ t ∈ toks, t.WellFormed) ∧
      ∀ acc comma rest, Ready acc comma →
        run next (.num acc comma) (u ++ 0x29 :: rest) = (numTok acc ++ toks, .fin true) := by
  induction h with
  | nil k =>
    intro _
    refine ⟨[], rfl, by simp, fun acc comma rest _ => ?_⟩
    have hclose : next (.num acc comma) 0x29 = (numTok acc, .fin true) := by simp [next, isEnd]
    rw [run_append, run_spaces (next_space acc comma), run_cons, hclose, run_fin]
    rfl
  | one i j ht =>
    intro hlen
    obtain ⟨tok, harg, hwf, hdigits, hrun⟩ := ht.token (by
      rw [List.length_append, List.length_append] at hlen
      omega)
    refine ⟨[tok], by rw [List.map_singleton, harg], by simpa using hwf, ?_⟩
    intro acc comma rest hr
    rw [run_append, run_spaced (hrun acc comma hr), run_cons]
    dsimp only
    rw [Tok.after_close hdigits, run_fin, List.append_nil]
  | cons i j ht _ ih =>
    intro hlen
    rw [List.length_append, List.length_append, List.length_append, List.length_cons] at hlen
    obtain ⟨tok, harg, hwf, hdigits, hrun⟩ := ht.token (by omega)
    obtain ⟨toks, hargs, hwfs, hruns⟩ := ih (by omega)
    obtain ⟨out, acc', hcomma, hout⟩ := Tok.after_comma hdigits
    refine ⟨tok :: toks, by rw [List.map_cons, harg, hargs], ?_, fun acc comma rest hr => ?_⟩
    · exact List.forall_mem_cons.mpr ⟨hwf, hwfs⟩
    · rw [List.append_assoc, run_append, run_spaced (hrun acc comma hr), List.cons_append, run_cons]
      dsimp only
      rw [hcomma]
      dsimp only
      rw [hruns acc' true rest (Or.inl rfl), ← List.append_assoc out, hout]
      rfl

/-! ## The line -/

theorem escape_clean {s : List UInt8} (h : 0 ∉ s) : 0 ∉ escape s := by
  induction s with
  | nil => exact h
  | cons c s ih =>
    obtain ⟨hc, h⟩ := List.ne_and_not_mem_of_not_mem_cons h
    rw [escape]
    split <;> simp [hc, ih h]

theorem numChars_clean {t : List UInt8} (h : ∀ c ∈ t, isNumChar c = true) : 0 ∉ t := fun h0 =>
  absurd (h 0 h0) (by decide)

theorem RendersArg.clean {a : Arg} {t : List UInt8} (h : RendersArg a t) : 0 ∉ t := by
  cases h with
  | dec _ hall => exact numChars_clean fun c hc => (dec_char c (List.all_eq_true.mp hall c hc)).1
  | @hex _ x hs hx _ hall =>
    have hhs : 0 ∉ hs :=
      numChars_clean fun c hc => (hex_char c (List.all_eq_true.mp hall c hc)).1
    rcases hx with rfl | rfl <;> simpa using hhs
  | str h0 => simpa using escape_clean h0

theorem RendersArgs.clean {args : List Arg} {u : List UInt8} (h : RendersArgs args u) : 0 ∉ u := by
  induction h with
  | nil k => exact spaces_clean k
  | one i j ht => simp [spaces_clean, ht.clean]
  | cons i j ht _ ih => simp [spaces_clean, ht.clean, ih]

theorem argText_name {name : List UInt8} (h : 0x28 ∉ name) (rest : List UInt8) :
    argText (name ++ 0x28 :: rest) = rest := by
  rw [argText, List.dropWhile_append_of_pos fun c hc => by
    simpa using fun hx : c = 0x28 => h (hx ▸ hc)]
  simp

/-- **The round trip of the arguments**: of a call written in any way, the
arguments read back are the ones written, each in a range of `parm` of its own. -/
theorem usmartGetFparam_renders (name : List UInt8) (hname0 : 0 ∉ name) (hname : 0x28 ∉ name)
    {args : List Arg} {u : List UInt8} (hu : RendersArgs args u) (hcount : args.length ≤ maxParm)
    (hsize : packed args ≤ parmLen) (hlen : (name ++ 0x28 :: (u ++ [0x29])).length ≤ 199)
    (dev : UsmartDev) :
    ∃ dev', usmartGetFparam (cstr (name ++ 0x28 :: (u ++ [0x29]))) dev =
        .ok ⟨usmartOk, some args.length, dev'⟩ ∧
      (List.range args.length).map (readArg dev') = args ∧
      ∀ i < args.length,
        usmartGetParmpos dev'.plentbl i + dev'.plentbl i ≤ parmLen ∧
        ∀ j < i, usmartGetParmpos dev'.plentbl j + dev'.plentbl j ≤
          usmartGetParmpos dev'.plentbl i := by
  obtain ⟨line, hline⟩ : ∃ line, line = name ++ 0x28 :: (u ++ [0x29]) := ⟨_, rfl⟩
  rw [← hline] at hlen ⊢
  have h0 : 0 ∉ line := by
    rw [hline]
    simp [hname0, hu.clean]
  have hp : 0x28 ∈ line := by
    rw [hline]
    simp
  have htext : argText line = u ++ [0x29] := by rw [hline, argText_name hname]
  have hshort : u.length < 2 ^ 8 := by
    have := argText_length line
    rw [htext, List.length_append] at this
    omega
  -- the tokens, all of which can be stored
  obtain ⟨toks, hargs, hwf, hrun⟩ := hu.tokens hshort
  have hlex : lex (cstr (argText line)) = (toks, .fin true) := by
    rw [htext, cstr, List.append_assoc]
    exact hrun [] false [0] (Or.inr rfl)
  have hfew : toks.length ≤ maxParm := by
    rw [← hargs, List.length_map] at hcount
    exact hcount
  have hstore : (storeAll toks 0 dev.clear).1 = usmartOk :=
    (storeAll_ok_iff toks 0 dev.clear (Nat.zero_le _)).mpr ⟨hwf, by rwa [Nat.zero_add]⟩
  have heq := usmartGetFparam_line h0 hp hlen dev
  rw [hlex, finish_closed hstore, storeAll_count hstore, Nat.zero_add] at heq
  -- what they leave
  have htyped : typedArgs line = args := by rw [typedArgs, hlex, hargs]
  obtain ⟨_, _, hstored, _, hclean⟩ := usmartGetFparam_stored h0 hlen hp heq rfl
  rw [htyped] at hstored hclean
  have hlength : toks.length = args.length := by rw [← hargs, List.length_map]
  rw [hlength] at heq
  refine ⟨_, heq, hstored.read (Nat.le_trans hcount (by decide)) hclean, fun i hi => ?_⟩
  obtain ⟨hend, hlast⟩ := hstored.apart (Nat.lt_succ_self i) hi
  exact ⟨Nat.le_trans hend (Nat.le_trans hlast hsize), fun j hj => (hstored.apart hj (by omega)).1⟩

/-- `f(0x1f, "a\"b")`, with its arguments. -/
theorem usmartGetFparam_renders_call :
    ∃ dev', usmartGetFparam (cstr (text "f(0x1f, \"a\\\"b\")")) usmartDev =
        .ok ⟨usmartOk, some 2, dev'⟩ ∧
      (List.range 2).map (readArg dev') = [.num 0x1f, .str (text "a\"b")] := by
  have hnum : RendersArg (.num 0x1f) (text "0x1f") :=
    .hex (x := 0x78) (Or.inr rfl) (by decide) (by decide +kernel) (by decide +kernel)
  have hstr : RendersArg (.str (text "a\"b")) (text "\"a\\\"b\"") := .str (by decide +kernel)
  obtain ⟨dev', hok, hread, _⟩ := usmartGetFparam_renders (text "f") (by decide) (by decide)
    (.cons 0 0 hnum (.one 1 0 hstr)) (by decide) (by decide) (by decide) usmartDev
  exact ⟨dev', hok, hread⟩

end Generalplate.Usmart
