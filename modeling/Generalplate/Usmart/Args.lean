import Generalplate.Usmart.Str
import Generalplate.Lib.Transducer

/-! # The argument scanner

`usmart_get_aparm` reads one argument and looks ahead for the start of the next.
Called again and again from where it stopped, it reads the text as the lexer
`next` does in one pass: the scanner's state between two bytes is a mode of the
lexer, and where it stops and is called again the mode is the same. -/
namespace Generalplate.Usmart
open Lib.Transducer

/-- The values of `*ptype`: 0, 1 and 0XFF. -/
inductive Ptype where
  | num
  | str
  | err
deriving DecidableEq, Repr

/-- A hexadecimal digit of either case, or an X. -/
def isNumChar (c : UInt8) : Bool :=
  (0x30 ≤ c && c ≤ 0x39) || (0x61 ≤ c && c ≤ 0x66) || (0x41 ≤ c && c ≤ 0x46) ||
    c = 0x58 || c = 0x78

def toUpper (c : UInt8) : UInt8 := if 0x61 ≤ c then c - 0x20 else c

/-- A byte that ends the arguments. -/
def isEnd (c : UInt8) : Bool := c = 0x29 || c = 0

/-- The loop of `usmart_get_aparm`: the bytes written to `fparm`, then the offset
and the type, none when it reads behind the end of the memory. -/
def aparmLoop : List UInt8 → Bool → Bool → Ptype → List UInt8 → Nat →
    List UInt8 × Option (Nat × Ptype)
  | [], _, _, _, fparm, _ => (fparm, none)
  | c :: str, enout, string, type, fparm, i =>
    let enout := enout || (c = 0x2c && !string)
    if isEnd c && !string then (fparm, some (i, type))
    else
      match type with
      | .num =>
        if isNumChar c then
          if enout then (fparm, some (i, type))
          else aparmLoop str enout string type (fparm ++ [toUpper c]) (i + 1)
        else if c = 0x22 then
          if enout then (fparm, some (i, type))
          else aparmLoop str enout true .str fparm (i + 1)
        else if c ≠ 0x20 ∧ c ≠ 0x2c then (fparm, some (i, .err))
        else aparmLoop str enout string type fparm (i + 1)
      | _ =>
        let string := string && c ≠ 0x22
        if enout then (fparm, some (i, type))
        else if string then
          if c = 0x5c then
            -- the escaped byte is copied, whatever it is, the NUL included
            match str with
            | [] => (fparm, none)
            | d :: str => aparmLoop str enout string type (fparm ++ [d]) (i + 2)
          else aparmLoop str enout string type (fparm ++ [c]) (i + 1)
        else aparmLoop str enout string type fparm (i + 1)

/-- The offset is a u8; the NUL behind `fparm` is left to the callers. -/
def usmartGetAparm (str : List UInt8) : List UInt8 × Option (Nat × Ptype) :=
  let r := aparmLoop str false false .num [] 0
  (r.1, r.2.map fun (i, type) => (i % 2 ^ 8, type))

/-! ## The loop, byte by byte -/

theorem numChar_ne {c d : UInt8} (hc : isNumChar c = true) (hd : isNumChar d = false) : c ≠ d := by
  rintro rfl
  rw [hc] at hd
  cases hd

theorem toUpper_ne {c : UInt8} (hc : isNumChar c = true) : toUpper c ≠ 0 := by
  unfold toUpper
  split
  · rename_i hlow
    intro hz
    have hzero : c = 0x20 := by
      have := congrArg (· + 0x20) hz
      simpa using this
    rw [hzero] at hlow
    exact absurd hlow (by decide)
  · exact numChar_ne hc (by decide)

theorem numChar_not_end {c : UInt8} (hc : isNumChar c = true) : isEnd c = false := by
  simp [isEnd, numChar_ne hc (d := 0x29) (by decide), numChar_ne hc (d := 0) (by decide)]

section
variable {c : UInt8} {str fparm : List UInt8} {enout : Bool} {i : Nat}

attribute [local simp] aparmLoop

theorem aparmLoop_end (type : Ptype) (hc : isEnd c = true) :
    aparmLoop (c :: str) enout false type fparm i = (fparm, some (i, type)) := by
  cases type <;> simp [hc]

theorem aparmLoop_digit (hc : isNumChar c = true) :
    aparmLoop (c :: str) false false .num fparm i =
      aparmLoop str false false .num (fparm ++ [toUpper c]) (i + 1) := by
  have hcomma : c ≠ 0x2c := numChar_ne hc (by decide)
  simp [numChar_not_end hc, hc, hcomma]

/-- Behind a comma a digit is the next argument's. -/
theorem aparmLoop_digit_next (hc : isNumChar c = true) :
    aparmLoop (c :: str) true false .num fparm i = (fparm, some (i, .num)) := by
  simp [numChar_not_end hc, hc]

theorem aparmLoop_quote :
    aparmLoop (0x22 :: str) false false .num fparm i =
      aparmLoop str false true .str fparm (i + 1) := by
  simp [isEnd, isNumChar]

theorem aparmLoop_quote_next :
    aparmLoop (0x22 :: str) true false .num fparm i = (fparm, some (i, .num)) := by
  simp [isEnd, isNumChar]

theorem aparmLoop_comma :
    aparmLoop (0x2c :: str) enout false .num fparm i =
      aparmLoop str true false .num fparm (i + 1) := by
  simp [isEnd, isNumChar]

theorem aparmLoop_blank :
    aparmLoop (0x20 :: str) enout false .num fparm i =
      aparmLoop str enout false .num fparm (i + 1) := by
  simp [isEnd, isNumChar]

theorem aparmLoop_illegal (he : isEnd c = false) (hn : isNumChar c = false) (hq : c ≠ 0x22)
    (hc : c ≠ 0x2c) (hs : c ≠ 0x20) :
    aparmLoop (c :: str) enout false .num fparm i = (fparm, some (i, .err)) := by
  simp [he, hn, hq, hc, hs]

theorem aparmLoop_unquote :
    aparmLoop (0x22 :: str) false true .str fparm i =
      aparmLoop str false false .str fparm (i + 1) := by
  simp

/-- The backslash and the byte behind it are taken in one pass. -/
theorem aparmLoop_escape (d : UInt8) :
    aparmLoop (0x5c :: d :: str) false true .str fparm i =
      aparmLoop str false true .str (fparm ++ [d]) (i + 2) := by
  simp

theorem aparmLoop_copy (hq : c ≠ 0x22) (hb : c ≠ 0x5c) :
    aparmLoop (c :: str) false true .str fparm i =
      aparmLoop str false true .str (fparm ++ [c]) (i + 1) := by
  simp [hq, hb]

theorem aparmLoop_string_comma :
    aparmLoop (0x2c :: str) false false .str fparm i = (fparm, some (i, .str)) := by
  simp [isEnd]

theorem aparmLoop_string_skip (he : isEnd c = false) (hc : c ≠ 0x2c) :
    aparmLoop (c :: str) false false .str fparm i =
      aparmLoop str false false .str fparm (i + 1) := by
  simp [he, hc]

end

/-! ## The lexer -/

inductive Tok where
  | num (digits : List UInt8)
  | str (bytes : List UInt8)
deriving DecidableEq, Repr

/-- Where the lexer is: in a number or between arguments, in a string, behind an
escape character in one, behind a string, or at the end, `closed` or at an
illegal character. -/
inductive Mode where
  | num (acc : List UInt8) (comma : Bool)
  | str (acc : List UInt8)
  | esc (acc : List UInt8)
  | post (acc : List UInt8)
  | fin (closed : Bool)
deriving DecidableEq, Repr

def Mode.start : Mode := .num [] false

/-- A number without digits is not an argument. -/
def numTok (acc : List UInt8) : List Tok := if acc.headD 0 = 0 then [] else [.num acc]

def next : Mode → UInt8 → List Tok × Mode
  | .num acc comma, c =>
    if isEnd c then (numTok acc, .fin true)
    else if isNumChar c then
      if comma then (numTok acc, .num [toUpper c] false)
      else ([], .num (acc ++ [toUpper c]) false)
    else if c = 0x22 then
      if comma then (numTok acc, .str []) else ([], .str acc)
    else if c = 0x2c then ([], .num acc true)
    else if c = 0x20 then ([], .num acc comma)
    else ([], .fin false)
  | .str acc, c =>
    if c = 0x22 then ([], .post acc)
    else if c = 0x5c then ([], .esc acc)
    else ([], .str (acc ++ [c]))
  | .esc acc, c => ([], .str (acc ++ [c]))
  | .post acc, c =>
    if isEnd c then ([.str acc], .fin true)
    else if c = 0x2c then ([.str acc], .num [] true)
    else ([], .post acc)
  | .fin closed, _ => ([], .fin closed)

/-- Every step the lexer can take. -/
inductive Next : Mode → UInt8 → List Tok → Mode → Prop
  | numEnd {acc : List UInt8} {comma : Bool} {c : UInt8} : isEnd c = true →
      Next (.num acc comma) c (numTok acc) (.fin true)
  | digit {acc : List UInt8} {c : UInt8} : isNumChar c = true →
      Next (.num acc false) c [] (.num (acc ++ [toUpper c]) false)
  | firstDigit {acc : List UInt8} {c : UInt8} : isNumChar c = true →
      Next (.num acc true) c (numTok acc) (.num [toUpper c] false)
  | quote {acc : List UInt8} {c : UInt8} : c = 0x22 → Next (.num acc false) c [] (.str acc)
  | firstQuote {acc : List UInt8} {c : UInt8} : c = 0x22 →
      Next (.num acc true) c (numTok acc) (.str [])
  | comma {acc : List UInt8} {comma : Bool} {c : UInt8} : c = 0x2c →
      Next (.num acc comma) c [] (.num acc true)
  | blank {acc : List UInt8} {comma : Bool} {c : UInt8} : c = 0x20 →
      Next (.num acc comma) c [] (.num acc comma)
  | illegal {acc : List UInt8} {comma : Bool} {c : UInt8} : isEnd c = false →
      isNumChar c = false → c ≠ 0x22 → c ≠ 0x2c → c ≠ 0x20 →
      Next (.num acc comma) c [] (.fin false)
  | unquote {acc : List UInt8} {c : UInt8} : c = 0x22 → Next (.str acc) c [] (.post acc)
  | escape {acc : List UInt8} {c : UInt8} : c = 0x5c → Next (.str acc) c [] (.esc acc)
  | copy {acc : List UInt8} {c : UInt8} : c ≠ 0x22 → c ≠ 0x5c →
      Next (.str acc) c [] (.str (acc ++ [c]))
  | escaped {acc : List UInt8} {c : UInt8} : Next (.esc acc) c [] (.str (acc ++ [c]))
  | postEnd {acc : List UInt8} {c : UInt8} : isEnd c = true →
      Next (.post acc) c [.str acc] (.fin true)
  | postComma {acc : List UInt8} {c : UInt8} : c = 0x2c →
      Next (.post acc) c [.str acc] (.num [] true)
  | postSkip {acc : List UInt8} {c : UInt8} : isEnd c = false → c ≠ 0x2c →
      Next (.post acc) c [] (.post acc)
  | fin {closed : Bool} {c : UInt8} : Next (.fin closed) c [] (.fin closed)

theorem next_step (m : Mode) (c : UInt8) : Next m c (next m c).1 (next m c).2 := by
  cases m with
  | num acc comma =>
    simp only [next]
    split
    · exact .numEnd ‹_›
    rename_i hend
    split
    · cases comma with
      | true => exact .firstDigit ‹_›
      | false => exact .digit ‹_›
    rename_i hnum
    split
    · cases comma with
      | true => exact .firstQuote ‹_›
      | false => exact .quote ‹_›
    rename_i hq
    split
    · exact .comma ‹_›
    rename_i hc
    split
    · exact .blank ‹_›
    rename_i hs
    exact .illegal (Bool.eq_false_iff.mpr hend) (Bool.eq_false_iff.mpr hnum) hq hc hs
  | str acc =>
    simp only [next]
    split
    · exact .unquote ‹_›
    rename_i hq
    split
    · exact .escape ‹_›
    · exact .copy hq ‹_›
  | esc acc => exact .escaped
  | post acc =>
    simp only [next]
    split
    · exact .postEnd ‹_›
    rename_i hend
    split
    · exact .postComma ‹_›
    · exact .postSkip (Bool.eq_false_iff.mpr hend) ‹_›
  | fin closed => exact .fin

/-- The arguments of a text and the mode behind it. -/
def lex (str : List UInt8) : List Tok × Mode := run next .start str

@[simp] theorem run_fin (closed : Bool) (s : List UInt8) :
    run next (.fin closed) s = ([], .fin closed) :=
  run_absorbing (fun _ => rfl) s

theorem lex_end {c : UInt8} (hc : isEnd c = true) (s : List UInt8) :
    lex (c :: s) = ([], .fin true) := by
  simp [lex, Mode.start, run_cons, next, hc, numTok]

/-! ## One call of the scanner -/

/-- The token of a call that wrote `fparm`. -/
def tokOf : Ptype → List UInt8 → List Tok
  | .num, fparm => numTok fparm
  | .str, fparm => [.str fparm]
  | .err, _ => []

/-- The scanner's state in a mode. -/
inductive Scans : Mode → Bool → Bool → Ptype → List UInt8 → Prop
  | num (acc : List UInt8) (comma : Bool) : Scans (.num acc comma) comma false .num acc
  | str (acc : List UInt8) : Scans (.str acc) false true .str acc
  | post (acc : List UInt8) : Scans (.post acc) false false .str acc

/-- The bytes a mode has collected. -/
def Mode.acc : Mode → List UInt8
  | .num acc _ => acc
  | .str acc => acc
  | .esc acc => acc
  | .post acc => acc
  | .fin _ => []

/-- A call from mode `m` on `s` at offset `i` that ends with `r`, and the lexer on
the same text: the call stops at the illegal character, or at the start of what
the lexer reads behind the token, or the text ends in the middle. -/
structure Reads (m : Mode) (s : List UInt8) (i : Nat)
    (r : List UInt8 × Option (Nat × Ptype)) : Prop where
  unfinished : r.2 = none → (run next m s).1 = [] ∧ (∀ closed, (run next m s).2 ≠ .fin closed) ∧
    (run next m s).2.acc = r.1
  illegal : ∀ k, r.2 = some (k, .err) → i ≤ k ∧ k < i + s.length ∧ run next m s = ([], .fin false)
  token : ∀ k p, r.2 = some (k, p) → p ≠ .err → i ≤ k ∧ k < i + s.length ∧
    run next m s = (tokOf p r.1 ++ (lex (s.drop (k - i))).1, (lex (s.drop (k - i))).2)

/-- A byte that only moves the mode. -/
theorem Reads.cons {m m' : Mode} {c : UInt8} {s : List UInt8} {i : Nat}
    {r : List UInt8 × Option (Nat × Ptype)} (hn : next m c = ([], m'))
    (h : Reads m' s (i + 1) r) : Reads m (c :: s) i r where
  unfinished hr := by
    rw [run_silent hn]
    exact h.unfinished hr
  illegal k hr := by
    obtain ⟨hle, hlt, hrun⟩ := h.illegal k hr
    rw [run_silent hn, List.length_cons]
    exact ⟨by omega, by omega, hrun⟩
  token k p hr hp := by
    obtain ⟨hle, hlt, hrun⟩ := h.token k p hr hp
    rw [run_silent hn, List.length_cons, show k - i = k - (i + 1) + 1 by omega, List.drop_succ_cons]
    exact ⟨by omega, by omega, hrun⟩

/-- The call stops here, in front of `c`. -/
theorem Reads.stop {m : Mode} {c : UInt8} {s : List UInt8} {i : Nat} {fparm : List UInt8}
    {p : Ptype} (hp : p ≠ .err)
    (h : next m c = (tokOf p fparm ++ (next .start c).1, (next .start c).2)) :
    Reads m (c :: s) i (fparm, some (i, p)) where
  unfinished hr := by cases hr
  illegal k hr := by
    cases hr
    exact absurd rfl hp
  token k q hr hq := by
    cases hr
    refine ⟨Nat.le_refl _, by simp, ?_⟩
    rw [Nat.sub_self, List.drop_zero, lex, run_cons, run_cons, h, List.append_assoc]

/-- The call stops at an illegal character. -/
theorem Reads.reject {m : Mode} {c : UInt8} {s : List UInt8} {i : Nat} {fparm : List UInt8}
    (h : next m c = ([], .fin false)) : Reads m (c :: s) i (fparm, some (i, .err)) where
  unfinished hr := by cases hr
  illegal k hr := by
    cases hr
    exact ⟨Nat.le_refl _, by simp, by rw [run_silent h, run_fin]⟩
  token k p hr hp := by
    cases hr
    exact absurd rfl hp

theorem next_start_num {c : UInt8} (hc : isNumChar c = true) :
    next .start c = ([], .num [toUpper c] false) := by
  simp [Mode.start, next, numChar_not_end hc, hc]

/-- What the loop does at byte `c`, whatever follows it: it stops in front of it, there
or as at an illegal character, or goes on behind it; a backslash in a string takes the
byte behind it along. -/
inductive ScanStep (m : Mode) (enout string : Bool) (p : Ptype) (fparm : List UInt8) (c : UInt8) :
    Prop
  | stop {q : Ptype} (hq : q ≠ .err)
      (hnext : next m c = (tokOf q fparm ++ (next .start c).1, (next .start c).2))
      (hloop : ∀ s i, aparmLoop (c :: s) enout string p fparm i = (fparm, some (i, q)))
  | reject (hnext : next m c = ([], .fin false))
      (hloop : ∀ s i, aparmLoop (c :: s) enout string p fparm i = (fparm, some (i, .err)))
  | go {m' : Mode} {enout' string' : Bool} {p' : Ptype} {fparm' : List UInt8}
      (hnext : next m c = ([], m')) (hscan : Scans m' enout' string' p' fparm')
      (hloop : ∀ s i, aparmLoop (c :: s) enout string p fparm i =
        aparmLoop s enout' string' p' fparm' (i + 1))
  | escape (hnext : next m c = ([], .esc fparm))
      (hend : ∀ i, aparmLoop [c] enout string p fparm i = (fparm, none))
      (hloop : ∀ d s i, aparmLoop (c :: d :: s) enout string p fparm i =
        aparmLoop s false true .str (fparm ++ [d]) (i + 2))

theorem Scans.step {m : Mode} {enout string : Bool} {p : Ptype} {fparm : List UInt8}
    (h : Scans m enout string p fparm) (c : UInt8) : ScanStep m enout string p fparm c := by
  have hstep := next_step m c
  obtain ⟨out, m', hnext⟩ : ∃ out m', next m c = (out, m') := ⟨_, _, rfl⟩
  rw [hnext] at hstep
  cases h with
  | num =>
    cases hstep with
    | numEnd he =>
      refine .stop (q := .num) (by simp) ?_ fun s i => aparmLoop_end _ he
      simp [next, Mode.start, he, tokOf, numTok]
    | digit hn => exact .go hnext (.num _ _) fun s i => aparmLoop_digit hn
    | firstDigit hn =>
      refine .stop (q := .num) (by simp) ?_ fun s i => aparmLoop_digit_next hn
      rw [next_start_num hn]
      simp [next, numChar_not_end hn, hn, tokOf]
    | quote hq =>
      subst hq
      exact .go hnext (.str _) fun s i => aparmLoop_quote
    | firstQuote hq =>
      subst hq
      refine .stop (q := .num) (by simp) ?_ fun s i => aparmLoop_quote_next
      simp [next, Mode.start, isEnd, isNumChar, tokOf]
    | comma hc =>
      subst hc
      exact .go hnext (.num _ _) fun s i => aparmLoop_comma
    | blank hs =>
      subst hs
      exact .go hnext (.num _ _) fun s i => aparmLoop_blank
    | illegal he hn hq hc hs =>
      exact .reject hnext fun s i => aparmLoop_illegal he hn hq hc hs
  | str =>
    cases hstep with
    | unquote hq =>
      subst hq
      exact .go hnext (.post _) fun s i => aparmLoop_unquote
    | escape hb =>
      subst hb
      exact .escape hnext (fun i => by simp [aparmLoop]) fun d s i => aparmLoop_escape d
    | copy hq hb => exact .go hnext (.str _) fun s i => aparmLoop_copy hq hb
  | post =>
    cases hstep with
    | postEnd he =>
      refine .stop (q := .str) (by simp) ?_ fun s i => aparmLoop_end _ he
      simp [next, Mode.start, he, tokOf, numTok]
    | postComma hc =>
      subst hc
      refine .stop (q := .str) (by simp) ?_ fun s i => aparmLoop_string_comma
      simp [next, Mode.start, isEnd, isNumChar, tokOf]
    | postSkip he hc => exact .go hnext (.post _) fun s i => aparmLoop_string_skip he hc

/-- **One call of `usmart_get_aparm`** from any state its loop can be in. -/
theorem aparmLoop_reads : ∀ (s : List UInt8) {m : Mode} {enout string : Bool} {p : Ptype}
    {acc : List UInt8} (i : Nat), Scans m enout string p acc →
    Reads m s i (aparmLoop s enout string p acc i)
  | [], m, _, _, _, _, i, h => by
    cases h <;> exact ⟨fun _ => ⟨rfl, by simp, rfl⟩, by simp [aparmLoop], by simp [aparmLoop]⟩
  | c :: s, m, enout, string, p, acc, i, h => by
    cases h.step c with
    | stop hq hnext hloop =>
      rw [hloop]
      exact .stop hq hnext
    | reject hnext hloop =>
      rw [hloop]
      exact .reject hnext
    | go hnext hscan hloop =>
      rw [hloop]
      exact .cons hnext (aparmLoop_reads s (i + 1) hscan)
    | escape hnext hend hloop =>
      cases s with
      | nil =>
        rw [hend]
        refine .cons hnext ⟨fun _ => ⟨rfl, by simp, rfl⟩, by simp, by simp⟩
      | cons d s =>
        have hcopy : next (.esc acc) d = ([], .str (acc ++ [d])) := rfl
        rw [hloop]
        exact .cons hnext (.cons hcopy (aparmLoop_reads s (i + 2) (.str _)))

theorem aparmLoop_lt {s : List UInt8} {k : Nat} {p : Ptype} {fparm : List UInt8}
    (h : aparmLoop s false false .num [] 0 = (fparm, some (k, p))) : k < s.length := by
  have hr := aparmLoop_reads s 0 (.num [] false)
  rw [h] at hr
  by_cases hp : p = .err
  · have := (hr.illegal k (by rw [hp])).2.1
    omega
  · have := (hr.token k p rfl hp).2.1
    omega

/-- A call that does not start at the end or at an illegal character moves the
cursor. -/
theorem aparmLoop_first {c : UInt8} (hc : isEnd c = false) (s : List UInt8) :
    aparmLoop (c :: s) false false .num [] 0 = ([], some (0, .err)) ∨
    ∃ m enout string p acc, Scans m enout string p acc ∧
      aparmLoop (c :: s) false false .num [] 0 = aparmLoop s enout string p acc 1 := by
  by_cases hn : isNumChar c = true
  · exact Or.inr ⟨_, _, _, _, _, .num [toUpper c] false, aparmLoop_digit hn⟩
  by_cases hq : c = 0x22
  · subst hq
    exact Or.inr ⟨_, _, _, _, _, .str [], aparmLoop_quote⟩
  by_cases hcomma : c = 0x2c
  · subst hcomma
    exact Or.inr ⟨_, _, _, _, _, .num [] true, aparmLoop_comma⟩
  by_cases hs : c = 0x20
  · subst hs
    exact Or.inr ⟨_, _, _, _, _, .num [] false, aparmLoop_blank⟩
  · exact Or.inl (aparmLoop_illegal hc (Bool.eq_false_iff.mpr hn) hq hcomma hs)

theorem aparmLoop_progress {s : List UInt8} (hs : isEnd (s.headD 0) = false) {fparm : List UInt8}
    {k : Nat} {p : Ptype} (h : aparmLoop s false false .num [] 0 = (fparm, some (k, p)))
    (hp : p ≠ .err) : 0 < k := by
  cases s with
  | nil => cases hs
  | cons c s =>
    rcases aparmLoop_first (c := c) hs s with he | ⟨m, enout, string, q, acc, hscan, he⟩
    · rw [h] at he
      cases he
      exact absurd rfl hp
    · have hr := aparmLoop_reads s 1 hscan
      rw [← he, h] at hr
      exact (hr.token k p rfl hp).1

end Generalplate.Usmart
