import Generalplate.Usmart.Fname
import Generalplate.Usmart.Fparam

/-! # The two argument scanners side by side

`usmart_cmd_rec` compares the parameter count of `usmart_get_fname` with the
prototype and lets `usmart_get_fparam` store the arguments; both read the same
text, each in its own way. While they see the same parentheses, the first
counts one parameter an argument and one more for a part of a string behind a
comma in it. -/
namespace Generalplate.Usmart
open Lib.Transducer

/-- The lexer is inside a string. -/
def Mode.inString : Mode → Bool
  | .str _ => true
  | .esc _ => true
  | _ => false

def Mode.ended : Mode → Bool
  | .fin _ => true
  | _ => false

/-- Up to the end of the arguments `usmart_get_fname` is inside quotes at every
`(`, and at a `)` just when the lexer is inside a string. -/
def SameParens : Mode → Bool → List UInt8 → Prop
  | _, _, [] => True
  | m, quoted, c :: s =>
    m.ended = false →
      (c = 0x28 → quoted = true) ∧ (c = 0x29 → quoted = m.inString) ∧
        SameParens (next m c).2 (if c = 0x22 then !quoted else quoted) s

instance decSameParens : ∀ (m : Mode) (quoted : Bool) (s : List UInt8),
    Decidable (SameParens m quoted s)
  | _, _, [] => .isTrue trivial
  | m, quoted, c :: s =>
    have := decSameParens (next m c).2 (if c = 0x22 then !quoted else quoted) s
    inferInstanceAs (Decidable (m.ended = false → _ ∧ _ ∧ _))

/-- Some comma is inside a string. -/
def StringComma : Mode → List UInt8 → Prop
  | _, [] => False
  | m, c :: s => (m.inString = true ∧ c = 0x2c) ∨ StringComma (next m c).2 s

instance decStringComma : ∀ (m : Mode) (s : List UInt8), Decidable (StringComma m s)
  | _, [] => .isFalse not_false
  | m, c :: s =>
    have := decStringComma (next m c).2 s
    inferInstanceAs (Decidable (_ ∨ _))

example : StringComma .start (text "\"a,b\")") ∧ ¬ StringComma .start (text "1,\"a\")") := by
  decide +kernel

theorem stringComma_fin (closed : Bool) (s : List UInt8) : ¬ StringComma (.fin closed) s := by
  induction s with
  | nil => exact not_false
  | cons c s ih =>
    intro h
    rcases h with ⟨hin, _⟩ | h
    · cases hin
    · exact ih h

/-- The arguments end at a `)` or at the NUL. -/
theorem next_close {m : Mode} {c : UInt8} (hm : m.ended = false) (hc : c ≠ 0)
    (h : (next m c).2 = .fin true) : c = 0x29 := by
  have hend : isEnd c = true → c = 0x29 := by
    intro he
    simpa [isEnd, hc] using he
  have hstep := next_step m c
  rw [h] at hstep
  generalize (next m c).1 = out at hstep
  cases hstep with
  | numEnd he => exact hend he
  | postEnd he => exact hend he
  | fin => cases hm

/-- Both scanners see the same parentheses: the first `(` is outside quotes for
`usmart_get_fname`, which counts the quotes from the start of the name, and the
parentheses of the arguments are the same. -/
def SameView (line : List UInt8) : Prop :=
  quoteFlag false ((fnameStart (cstr line)).takeWhile (· ≠ 0x28)) = false ∧
    SameParens .start false (cstr (argText line))

instance (line : List UInt8) : Decidable (SameView line) := inferInstanceAs (Decidable (_ ∧ _))

/-- The argument the lexer has not given out yet. -/
def Mode.pending : Mode → Nat
  | .num acc _ => (numTok acc).length
  | .fin _ => 0
  | _ => 1

/-! ## One character at depth 1 -/

/-- What a character that is no parenthesis to `usmart_get_fname` does at depth 1. -/
inductive ParamStep (st : Fname) (c : UInt8) (st' : Fname) : Prop
  | comma : c = 0x2c → st'.temp = 1 → st'.parmnum = st.parmnum →
      st'.pcnt = (st.pcnt + 1) % 2 ^ 8 → st'.fpname = st.fpname → ParamStep st c st'
  | blank : c = 0x20 ∨ c = 0x28 → st'.temp = st.temp → st'.parmnum = st.parmnum →
      st'.pcnt = st.pcnt → st'.fpname = st.fpname → ParamStep st c st'
  | first : c ≠ 0x2c → c ≠ 0x20 ∧ c ≠ 0x28 → st.temp = 1 → st'.temp = 3 →
      st'.parmnum = (st.parmnum + 1) % 2 ^ 8 → st'.pcnt = st.pcnt →
      st'.fpname = (if st.pcnt = 0 ∧ st.fpname.length < 5 then st.fpname ++ [c] else st.fpname) →
      ParamStep st c st'
  | more : c ≠ 0x2c → c ≠ 0x20 ∧ c ≠ 0x28 → 3 ≤ st.temp → st'.temp = (st.temp + 1) % 2 ^ 8 →
      st'.parmnum = st.parmnum → st'.pcnt = st.pcnt →
      st'.fpname = (if st.pcnt = 0 ∧ st.fpname.length < 5 then st.fpname ++ [c] else st.fpname) →
      ParamStep st c st'

theorem Fname.count_skip {st : Fname} (h : st.temp ≠ 2) : st.count = st := by
  simp [Fname.count, h]

theorem Fname.pass_param {st : Fname} (h : st.fover = 1) (ht : st.temp = 1 ∨ 3 ≤ st.temp)
    (hlt : st.temp + 1 < 2 ^ 8) {c : UInt8} (hc : c ≠ 0)
    (hp : c = 0x28 ∨ c = 0x29 → st.nchar = true) :
    ∃ st', st.pass c = (none, st') ∧ st'.fover = 1 ∧
      st'.nchar = (if c = 0x22 then !st.nchar else st.nchar) ∧ ParamStep st c st' := by
  obtain ⟨fover, nchar, temp, parmnum, pcnt, fpname, fname⟩ := st
  dsimp only at h ht hlt hp
  subst h
  have hopen : ¬ (c = 0x28 ∧ nchar = false) := by
    rintro ⟨rfl, hq⟩
    simp [hp (Or.inl rfl)] at hq
  have hclose : ∀ q : Prop, ¬ (c = 0x29 ∧ nchar = false ∧ q) := by
    rintro q ⟨rfl, hq, _⟩
    simp [hp (Or.inr rfl)] at hq
  have hclose' : ¬ (c = 0x29 ∧ nchar = false) := fun hx => hclose True ⟨hx.1, hx.2, trivial⟩
  have hnest : Fname.nest ⟨1, nchar, temp, parmnum, pcnt, fpname, fname⟩ c =
      ⟨1, if c = 0x22 then !nchar else nchar, temp, parmnum, pcnt, fpname, fname⟩ := by
    simp only [Fname.nest, if_neg hopen, if_neg hclose']
    split <;> rfl
  have hpass : Fname.pass ⟨1, nchar, temp, parmnum, pcnt, fpname, fname⟩ c =
      (none, (Fname.record
        ⟨1, if c = 0x22 then !nchar else nchar, temp, parmnum, pcnt, fpname, fname⟩ c).count) := by
    simp only [Fname.pass, if_neg hc, if_neg (hclose _), hnest, Fname.take, if_neg Nat.one_ne_zero]
  refine ⟨_, hpass, by simp, by simp, ?_⟩
  by_cases hcomma : c = 0x2c
  · subst hcomma
    exact .comma rfl rfl rfl rfl rfl
  by_cases hblank : c = 0x20 ∨ c = 0x28
  · have hkeep : ¬ (c ≠ 0x20 ∧ c ≠ 0x28) := fun hx => hblank.elim hx.1 hx.2
    have htwo : temp ≠ 2 := by omega
    rw [Fname.record, if_neg hcomma, if_neg hkeep, Fname.count_skip htwo]
    exact .blank hblank rfl rfl rfl rfl
  have hother : c ≠ 0x20 ∧ c ≠ 0x28 := not_or.mp hblank
  rw [Fname.record, if_neg hcomma, if_pos hother]
  rcases ht with rfl | ht
  · exact .first hcomma hother rfl rfl rfl rfl rfl
  · have hmod : (temp + 1) % 2 ^ 8 = temp + 1 := Nat.mod_eq_of_lt hlt
    have htwo : (temp + 1) % 2 ^ 8 ≠ 2 := by omega
    rw [Fname.count_skip htwo]
    exact .more hcomma hother ht rfl rfl rfl rfl

/-- The characters recorded of the first parameter do not begin with a `v`, if
the first character does not. -/
theorem ParamStep.notVoid {st st' : Fname} {c : UInt8} (h : ParamStep st c st')
    (hpcnt : st.pcnt + 1 < 2 ^ 8) (hv : st.fpname.headD 0 ≠ 0x76)
    (hc : st.fpname = [] → st.pcnt = 0 → c ≠ 0x76) :
    st'.fpname.headD 0 ≠ 0x76 ∧
      (st'.fpname = [] →
        st'.pcnt ≠ 0 ∨ (st.fpname = [] ∧ st.pcnt = 0 ∧ (c = 0x20 ∨ c = 0x28))) := by
  have hrecord : ∀ fp, fp = (if st.pcnt = 0 ∧ st.fpname.length < 5 then st.fpname ++ [c]
      else st.fpname) → fp.headD 0 ≠ 0x76 ∧ (fp = [] → st.pcnt ≠ 0) := by
    rintro fp rfl
    split
    · rename_i hz
      refine ⟨?_, by simp⟩
      cases hfp : st.fpname with
      | nil => simpa using hc hfp hz.1
      | cons d fp => simpa [hfp] using hv
    · rename_i hz
      refine ⟨hv, fun hnil hp => hz ⟨hp, by simp [hnil]⟩⟩
  cases h with
  | comma _ _ _ hp hf =>
    have hne : (st.pcnt + 1) % 2 ^ 8 ≠ 0 := by rw [Nat.mod_eq_of_lt hpcnt]; omega
    rw [hf, hp]
    exact ⟨hv, fun _ => Or.inl hne⟩
  | blank hb _ _ hp hf =>
    rw [hf, hp]
    refine ⟨hv, fun hnil => ?_⟩
    by_cases hz : st.pcnt = 0
    · exact Or.inr ⟨hnil, hz, hb⟩
    · exact Or.inl hz
  | first _ _ _ _ _ hp hf =>
    rw [hp]
    exact ⟨(hrecord _ hf).1, fun hnil => Or.inl ((hrecord _ hf).2 hnil)⟩
  | more _ _ _ _ _ hp hf =>
    rw [hp]
    exact ⟨(hrecord _ hf).1, fun hnil => Or.inl ((hrecord _ hf).2 hnil)⟩

/-! ## The two scanners in step -/

/-- What the parameter state says of the mode; in a string at the start of a part,
such a part has begun before. -/
def Shape (st : Fname) (extra : Nat) : Mode → Prop
  | .num acc comma => (acc = [] ∨ acc.headD 0 ≠ 0) ∧
      if comma then st.temp = 1 else (st.temp = 1 ↔ acc = [])
  | .post _ => 3 ≤ st.temp
  | .fin _ => False
  | _ => st.temp = 1 → 0 < extra

/-- `usmart_get_fname` has counted the arguments given out, the pending one, and
`extra` parts of strings; a part that has no character yet is owed. -/
structure Counts (st : Fname) (m : Mode) (given extra : Nat) : Prop where
  temp : st.temp = 1 ∨ 3 ≤ st.temp
  shape : Shape st extra m
  count : st.parmnum + (if m.inString = true ∧ st.temp = 1 then 1 else 0) =
    given + m.pending + extra

/-- Besides, no parameter reads `void`: what is recorded has not begun before the
first argument does. -/
structure Sync (st : Fname) (m : Mode) (given extra : Nat) : Prop
    extends Counts st m given extra where
  fover : st.fover = 1
  notVoid : st.fpname.headD 0 ≠ 0x76
  record : st.fpname = [] → st.pcnt ≠ 0 ∨ m = .num [] false

/-- The u8 counters do not wrap on what is left of the line. -/
structure Small (st : Fname) (len : Nat) : Prop where
  temp : st.temp + len ≤ 203
  parmnum : st.parmnum + len ≤ 250
  pcnt : st.pcnt + len ≤ 250
  len : len ≤ 200

theorem ParamStep.small {st st' : Fname} {c : UInt8} (h : ParamStep st c st') {len : Nat}
    (hs : Small st (len + 1)) : Small st' len := by
  have ht := hs.temp
  have hn := hs.parmnum
  have hp := hs.pcnt
  have hl := hs.len
  cases h with
  | comma _ e1 e2 e3 _ => exact ⟨by omega, by omega, by omega, by omega⟩
  | blank _ e1 e2 e3 _ => exact ⟨by omega, by omega, by omega, by omega⟩
  | first _ _ _ e1 e2 e3 _ => exact ⟨by omega, by omega, by omega, by omega⟩
  | more _ _ _ e1 e2 e3 _ => exact ⟨by omega, by omega, by omega, by omega⟩

theorem numTok_length {acc : List UInt8} (h : acc = [] ∨ acc.headD 0 ≠ 0) :
    (numTok acc).length = if acc = [] then 0 else 1 := by
  rcases h with rfl | h
  · rfl
  · have hne : acc ≠ [] := by
      rintro rfl
      exact h rfl
    rw [numTok, if_neg h, if_neg hne]
    rfl

/-- A character of a parameter. -/
theorem ParamStep.other {st st' : Fname} {c : UInt8} (h : ParamStep st c st') {len : Nat}
    (hs : Small st (len + 1)) (h1 : c ≠ 0x2c) (h2 : c ≠ 0x20) (h3 : c ≠ 0x28) :
    (st.temp = 1 ∧ st'.temp = 3 ∧ st'.parmnum = st.parmnum + 1) ∨
    (3 ≤ st.temp ∧ 3 ≤ st'.temp ∧ st'.parmnum = st.parmnum) := by
  have ht := hs.temp
  have hn := hs.parmnum
  cases h with
  | comma hc => exact absurd hc h1
  | blank hb => exact absurd hb (by rintro (hc | hc); exacts [h2 hc, h3 hc])
  | first _ _ e1 e2 e3 => exact Or.inl ⟨e1, e2, by omega⟩
  | more _ _ e1 e2 e3 => exact Or.inr ⟨e1, by omega, e3⟩

theorem ParamStep.at_comma {st st' : Fname} (h : ParamStep st 0x2c st') :
    st'.temp = 1 ∧ st'.parmnum = st.parmnum := by
  cases h with
  | comma _ e1 e2 => exact ⟨e1, e2⟩
  | blank hb => exact absurd hb (by decide)
  | first hc => exact absurd rfl hc
  | more hc => exact absurd rfl hc

theorem ParamStep.at_blank {st st' : Fname} {c : UInt8} (h : ParamStep st c st')
    (hc : c = 0x20 ∨ c = 0x28) : st'.temp = st.temp ∧ st'.parmnum = st.parmnum := by
  have hboth : ¬ (c ≠ 0x20 ∧ c ≠ 0x28) := fun hx => hc.elim hx.1 hx.2
  cases h with
  | comma hcomma =>
    subst hcomma
    exact absurd hc (by decide)
  | blank _ e1 e2 => exact ⟨e1, e2⟩
  | first _ hb => exact absurd hb hboth
  | more _ hb => exact absurd hb hboth

/-- What the shape says inside a string. -/
theorem Shape.string {st : Fname} {extra : Nat} {m : Mode} (hin : m.inString = true) :
    Shape st extra m ↔ (st.temp = 1 → 0 < extra) := by
  cases m with
  | str => rfl
  | esc => rfl
  | _ => cases hin

theorem Mode.pending_string {m : Mode} (hin : m.inString = true) : m.pending = 1 := by
  cases m with
  | str => rfl
  | esc => rfl
  | _ => cases hin

/-- A character inside a string that stays open: a comma adds a part when the
last one has characters. -/
theorem Counts.step_string {st st' : Fname} {c : UInt8} {m m' : Mode} {given extra len : Nat}
    (h : Counts st m given extra) (hp : ParamStep st c st') (hs : Small st (len + 1))
    (hin : m.inString = true) (hin' : m'.inString = true) :
    ∃ extra', Counts st' m' given extra' ∧ (extra' = 0 ↔ extra = 0 ∧ c ≠ 0x2c) := by
  have htemp := h.temp
  have hcount := h.count
  have hshape := (Shape.string hin).mp h.shape
  rw [Mode.pending_string hin, hin] at hcount
  simp only [true_and] at hcount
  by_cases hcomma : c = 0x2c
  · subst hcomma
    obtain ⟨e1, e2⟩ := hp.at_comma
    refine ⟨if st.temp = 1 then extra else extra + 1, ⟨Or.inl e1, ?_, ?_⟩, ?_⟩
    · rw [Shape.string hin']
      intro _
      split
      · exact hshape ‹_›
      · exact Nat.succ_pos _
    · rw [Mode.pending_string hin', hin', e2, if_pos ⟨rfl, e1⟩]
      split at hcount <;> rename_i ht
      · rw [if_pos ht]
        omega
      · rw [if_neg ht]
        omega
    · refine iff_of_false ?_ fun hx => hx.2 rfl
      split
      · exact Nat.pos_iff_ne_zero.mp (hshape ‹_›)
      · exact Nat.succ_ne_zero _
  refine ⟨extra, ?_, by simp [hcomma]⟩
  by_cases hblank : c = 0x20 ∨ c = 0x28
  · obtain ⟨e1, e2⟩ := hp.at_blank hblank
    refine ⟨by rwa [e1], ?_, ?_⟩
    · rw [Shape.string hin', e1]
      exact hshape
    · rw [Mode.pending_string hin', hin', e1, e2]
      simpa using hcount
  obtain ⟨h1, h2⟩ := not_or.mp hblank
  rcases hp.other hs hcomma h1 h2 with ⟨t1, t2, t3⟩ | ⟨t1, t2, t3⟩
  · refine ⟨Or.inr (by omega), (Shape.string hin').mpr (by omega), ?_⟩
    rw [Mode.pending_string hin', hin', if_neg (by omega)]
    rw [if_pos t1] at hcount
    omega
  · refine ⟨Or.inr t2, (Shape.string hin').mpr (by omega), ?_⟩
    rw [Mode.pending_string hin', hin', if_neg (by omega)]
    rw [if_neg (by omega)] at hcount
    omega

/-- The quote that ends a string. -/
theorem Counts.step_quote {st st' : Fname} {acc : List UInt8} {given extra len : Nat}
    (h : Counts st (.str acc) given extra) (hp : ParamStep st 0x22 st') (hs : Small st (len + 1)) :
    Counts st' (.post acc) given extra := by
  have hcount : st.parmnum + (if st.temp = 1 then 1 else 0) = given + 1 + extra := by
    simpa [Mode.inString, Mode.pending] using h.count
  have hboth : 3 ≤ st'.temp ∧ st'.parmnum = given + 1 + extra := by
    rcases hp.other hs (by decide) (by decide) (by decide) with ⟨t1, t2, t3⟩ | ⟨t1, t2, t3⟩
    · rw [if_pos t1] at hcount
      omega
    · rw [if_neg (by omega)] at hcount
      omega
  exact ⟨Or.inr hboth.1, hboth.1, by simpa [Mode.inString, Mode.pending] using hboth.2⟩

/-- Outside strings nothing is owed. -/
theorem Counts.plain {st : Fname} {m : Mode} {given extra : Nat} (h : Counts st m given extra)
    (hin : m.inString = false) : st.parmnum = given + m.pending + extra := by
  simpa [hin] using h.count

theorem Counts.of_plain {st : Fname} {m : Mode} {given extra : Nat} (hin : m.inString = false)
    (ht : st.temp = 1 ∨ 3 ≤ st.temp) (hshape : Shape st extra m)
    (hcount : st.parmnum = given + m.pending + extra) : Counts st m given extra :=
  ⟨ht, hshape, by simpa [hin] using hcount⟩

/-- A digit or a quote: the first character of an argument behind a comma or at the
start is counted, one more of a number is not. -/
theorem Counts.begins {st st' : Fname} {c : UInt8} {acc : List UInt8} {comma : Bool}
    {given extra len : Nat} (h : Counts st (.num acc comma) given extra) (hp : ParamStep st c st')
    (hs : Small st (len + 1)) (hcomma : c ≠ 0x2c) (hblank : c ≠ 0x20) (hparen : c ≠ 0x28) :
    3 ≤ st'.temp ∧
      st'.parmnum = given + (if comma = true then (numTok acc).length else 0) + 1 + extra := by
  obtain ⟨hacc, htemp⟩ := h.shape
  have hcount := h.plain rfl
  rw [Mode.pending, numTok_length hacc] at hcount
  rw [numTok_length hacc]
  rcases hp.other hs hcomma hblank hparen with ⟨t1, t2, t3⟩ | ⟨t1, t2, t3⟩
  · cases comma with
    | true => exact ⟨by omega, by rw [if_pos rfl]; omega⟩
    | false =>
      rw [if_pos (htemp.mp t1)] at hcount
      exact ⟨by omega, by rw [if_neg Bool.false_ne_true]; omega⟩
  · cases comma with
    | true =>
      rw [if_pos rfl] at htemp
      omega
    | false =>
      have hne : acc ≠ [] := by
        intro hnil
        have := htemp.mpr hnil
        omega
      rw [if_neg hne] at hcount
      exact ⟨t2, by rw [if_neg Bool.false_ne_true]; omega⟩

/-- A number that has got its last digit. -/
theorem Counts.of_digit {st : Fname} {acc : List UInt8} {given extra : Nat}
    (hacc : acc.headD 0 ≠ 0) (ht : 3 ≤ st.temp) (hcount : st.parmnum = given + 1 + extra) :
    Counts st (.num acc false) given extra := by
  have hne : acc ≠ [] := by
    rintro rfl
    exact hacc rfl
  have hone : st.temp ≠ 1 := by omega
  refine .of_plain rfl (Or.inr ht) ⟨Or.inr hacc, ?_⟩ ?_
  · simpa [hne] using hone
  · rw [Mode.pending, numTok_length (Or.inr hacc), if_neg hne]
    exact hcount

/-- A string that has just begun. -/
theorem Counts.of_quote {st : Fname} {acc : List UInt8} {given extra : Nat} (ht : 3 ≤ st.temp)
    (hcount : st.parmnum = given + 1 + extra) : Counts st (.str acc) given extra := by
  have hone : st.temp ≠ 1 := by omega
  exact ⟨Or.inr ht, fun h1 => absurd h1 hone, by simpa [hone, Mode.pending] using hcount⟩

/-- A character between arguments, of a number, or behind a string. -/
theorem Counts.step_plain {st st' : Fname} {c : UInt8} {m m' : Mode} {out : List Tok}
    {given extra len : Nat} (h : Counts st m given extra) (hp : ParamStep st c st')
    (hs : Small st (len + 1)) (hn : Next m c out m') (hin : m.inString = false)
    (hgo : m'.ended = false) : Counts st' m' (given + out.length) extra := by
  cases hn with
  | comma hc =>
    subst hc
    obtain ⟨e1, e2⟩ := hp.at_comma
    exact .of_plain rfl (Or.inl e1) ⟨h.shape.1, by simpa using e1⟩ (e2.trans (h.plain rfl))
  | blank hc =>
    subst hc
    obtain ⟨e1, e2⟩ := hp.at_blank (Or.inl rfl)
    exact .of_plain rfl (e1 ▸ h.temp) ⟨h.shape.1, e1 ▸ h.shape.2⟩ (e2.trans (h.plain rfl))
  | @digit acc _ hnum =>
    obtain ⟨ht, hcount⟩ := h.begins hp hs (numChar_ne hnum (by decide))
      (numChar_ne hnum (by decide)) (numChar_ne hnum (by decide))
    refine .of_digit ?_ ht hcount
    cases acc with
    | nil => exact toUpper_ne hnum
    | cons d acc => exact h.shape.1.resolve_left (by simp)
  | firstDigit hnum =>
    obtain ⟨ht, hcount⟩ := h.begins hp hs (numChar_ne hnum (by decide))
      (numChar_ne hnum (by decide)) (numChar_ne hnum (by decide))
    exact .of_digit (toUpper_ne hnum) ht hcount
  | quote hc =>
    subst hc
    obtain ⟨ht, hcount⟩ := h.begins hp hs (by decide) (by decide) (by decide)
    exact .of_quote ht hcount
  | firstQuote hc =>
    subst hc
    obtain ⟨ht, hcount⟩ := h.begins hp hs (by decide) (by decide) (by decide)
    exact .of_quote ht hcount
  | postComma hc =>
    subst hc
    obtain ⟨e1, e2⟩ := hp.at_comma
    exact .of_plain rfl (Or.inl e1) ⟨Or.inl rfl, by simpa using e1⟩ (e2.trans (h.plain rfl))
  | postSkip _ hc =>
    have ht : 3 ≤ st.temp := h.shape
    have hstay : 3 ≤ st'.temp ∧ st'.parmnum = st.parmnum := by
      by_cases hblank : c = 0x20 ∨ c = 0x28
      · obtain ⟨e1, e2⟩ := hp.at_blank hblank
        exact ⟨e1 ▸ ht, e2⟩
      · obtain ⟨h1, h2⟩ := not_or.mp hblank
        rcases hp.other hs hc h1 h2 with ⟨t1, _, _⟩ | ⟨_, t2, t3⟩
        · omega
        · exact ⟨t2, t3⟩
    exact .of_plain rfl (Or.inr hstay.1) hstay.1 (hstay.2.trans (h.plain rfl))
  | numEnd => cases hgo
  | illegal => cases hgo
  | postEnd => cases hgo
  | fin => cases hgo
  | _ => cases hin

/-- **One character of the arguments** for both scanners: another part of a
string is counted just when the character is a comma in a string. -/
theorem Sync.step {st : Fname} {m : Mode} {given extra len : Nat} {c : UInt8}
    (h : Sync st m given extra) (hs : Small st (len + 1)) (hc : c ≠ 0)
    (hgo : ∀ closed, (next m c).2 ≠ .fin closed)
    (hopen : c = 0x28 → st.nchar = true) (hclose : c = 0x29 → st.nchar = m.inString) :
    ∃ st' extra', st.pass c = (none, st') ∧
      st'.nchar = (if c = 0x22 then !st.nchar else st.nchar) ∧ Small st' len ∧
      Sync st' (next m c).2 (given + (next m c).1.length) extra' ∧
      (extra' = 0 ↔ extra = 0 ∧ ¬ (m.inString = true ∧ c = 0x2c)) := by
  have hquoted : c = 0x28 ∨ c = 0x29 → st.nchar = true := by
    rintro (rfl | rfl)
    · exact hopen rfl
    · cases m with
      | num acc comma => exact absurd rfl (hgo true)
      | post acc => exact absurd rfl (hgo true)
      | fin closed => exact absurd rfl (hgo closed)
      | _ => exact hclose rfl
  have htemp : st.temp + 1 < 2 ^ 8 := by
    have := hs.temp
    omega
  obtain ⟨st', hpass, hfover, hnchar, hp⟩ := Fname.pass_param h.fover h.temp htemp hc hquoted
  have hpcnt : st.pcnt + 1 < 2 ^ 8 := by
    have := hs.pcnt
    omega
  obtain ⟨hvoid, hrecord⟩ := hp.notVoid hpcnt h.notVoid fun hnil hzero hv => by
    obtain rfl : m = .num [] false := (h.record hnil).resolve_left (absurd hzero)
    subst hv
    exact hgo false rfl
  have hrecord' : st'.fpname = [] → st'.pcnt ≠ 0 ∨ (next m c).2 = .num [] false := by
    intro hnil
    refine (hrecord hnil).imp_right ?_
    rintro ⟨hnil, hzero, rfl | rfl⟩
    · obtain rfl : m = .num [] false := (h.record hnil).resolve_left (absurd hzero)
      rfl
    · obtain rfl : m = .num [] false := (h.record hnil).resolve_left (absurd hzero)
      exact absurd rfl (hgo false)
  have hended : (next m c).2.ended = false := by
    cases hm : (next m c).2 with
    | fin closed => exact absurd hm (hgo closed)
    | _ => rfl
  have hcounts : ∃ extra', Counts st' (next m c).2 (given + (next m c).1.length) extra' ∧
      (extra' = 0 ↔ extra = 0 ∧ ¬ (m.inString = true ∧ c = 0x2c)) := by
    cases m with
    | str acc =>
      by_cases hq : c = 0x22
      · subst hq
        exact ⟨extra, h.toCounts.step_quote hp hs, by simp⟩
      have hn : (next (.str acc) c).1 = [] ∧ (next (.str acc) c).2.inString = true := by
        simp only [next, if_neg hq]
        split <;> exact ⟨rfl, rfl⟩
      rw [hn.1]
      simpa [Mode.inString] using h.toCounts.step_string hp hs rfl hn.2
    | esc acc =>
      have hcounts : ∃ extra', Counts st' (.str (acc ++ [c])) given extra' ∧
          (extra' = 0 ↔ extra = 0 ∧ c ≠ 0x2c) := h.toCounts.step_string hp hs rfl rfl
      simpa [Mode.inString, next] using hcounts
    | num acc comma =>
      exact ⟨extra, h.toCounts.step_plain hp hs (next_step _ c) rfl hended, by simp [Mode.inString]⟩
    | post acc =>
      exact ⟨extra, h.toCounts.step_plain hp hs (next_step _ c) rfl hended, by simp [Mode.inString]⟩
    | fin closed => exact h.shape.elim
  obtain ⟨extra', hcounts, hextra⟩ := hcounts
  exact ⟨st', extra', hpass, hnchar, hp.small hs, ⟨hcounts, hfover, hvoid, hrecord'⟩, hextra⟩

/-- The `)` that ends the arguments ends the count: the pending argument has been
counted. -/
theorem Sync.close {st : Fname} {m : Mode} {given extra : Nat} (h : Sync st m given extra)
    (hfin : (next m 0x29).2 = .fin true) (hclose : st.nchar = m.inString) :
    ∃ st', st.pass 0x29 = (some usmartOk, st') ∧ st'.fpname = st.fpname ∧
      st'.parmnum = given + (next m 0x29).1.length + extra := by
  have hcount := h.count
  have hplain : m.inString = false ∧ (next m 0x29).1.length = m.pending := by
    cases m with
    | num acc comma => exact ⟨rfl, rfl⟩
    | post acc => exact ⟨rfl, rfl⟩
    | fin => exact h.shape.elim
    | _ => cases hfin
  rw [hplain.1] at hcount hclose
  rw [hplain.2]
  simp only [Bool.false_eq_true, false_and, if_false, Nat.add_zero] at hcount
  have hfover := h.fover
  obtain ⟨fover, nchar, temp, parmnum, pcnt, fpname, fname⟩ := st
  dsimp only at hfover hclose hcount
  subst hfover hclose
  exact ⟨_, rfl, rfl, hcount⟩

/-- **The rest of the arguments**: the two counts differ by the extra parts of
strings, of which there are none just when no comma is in a string. -/
theorem Sync.run {s : List UInt8} {st : Fname} {m : Mode} {given extra : Nat}
    (h : Sync st m given extra) (hs : Small st s.length) (h0 : 0 ∉ s)
    (hsame : SameParens m st.nchar (cstr s)) (hfin : (run next m (cstr s)).2 = .fin true)
    (hok : (fnameLoop (cstr s) st).1 = usmartOk) :
    (fnameLoop (cstr s) st).2.fpname.headD 0 ≠ 0x76 ∧
      ∃ extra', (fnameLoop (cstr s) st).2.parmnum =
        given + (run next m (cstr s)).1.length + extra' ∧
        (extra' = 0 ↔ extra = 0 ∧ ¬ StringComma m (cstr s)) := by
  induction s generalizing st m given extra with
  | nil => cases hok
  | cons c s ih =>
    obtain ⟨hc, h0⟩ := List.ne_and_not_mem_of_not_mem_cons h0
    have hm : m.ended = false := by
      cases m with
      | fin => exact h.shape.elim
      | _ => rfl
    obtain ⟨hopen, hclose, hsame⟩ := hsame hm
    rw [cstr_cons, run_cons] at hfin
    rw [cstr_cons] at hok ⊢
    rw [run_cons]
    by_cases hgo : ∀ closed, (next m c).2 ≠ .fin closed
    · obtain ⟨st', extra', hpass, hnchar, hs', hsync, hextra⟩ :=
        h.step hs (Ne.symm hc) hgo hopen hclose
      rw [fnameLoop_go hpass] at hok ⊢
      rw [← hnchar] at hsame
      obtain ⟨hvoid, extra'', hcount, hextra'⟩ := ih hsync hs' h0 hsame hfin hok
      refine ⟨hvoid, extra'', ?_, ?_⟩
      · rw [hcount, List.length_append]
        omega
      · rw [hextra', hextra, StringComma, not_or, and_assoc]
    · obtain ⟨closed, hnext⟩ := not_forall.mp hgo
      rw [not_not] at hnext
      rw [hnext, run_fin] at hfin
      cases hfin
      obtain rfl : c = 0x29 := next_close hm (Ne.symm hc) hnext
      obtain ⟨st', hpass, hfp, hcount⟩ := h.close hnext (hclose rfl)
      rw [fnameLoop_stop hpass, hnext, run_fin, List.append_nil]
      refine ⟨by rw [hfp]; exact h.notVoid, extra, hcount, ?_⟩
      rw [StringComma, hnext]
      have hnone : ¬ ((m.inString = true ∧ (0x29 : UInt8) = 0x2c) ∨
          StringComma (.fin true) (cstr s)) :=
        not_or.mpr ⟨fun hx => absurd hx.2 (by decide), stringComma_fin true _⟩
      exact (and_iff_left hnone).symm

/-! ## The counts of a line -/

theorem Sync.init (name : List UInt8) :
    Sync ⟨1, false, 1, 0, 0, [], name⟩ .start 0 0 where
  temp := Or.inl rfl
  shape := ⟨Or.inl rfl, by simp⟩
  count := rfl
  fover := rfl
  notVoid := show (0 : UInt8) ≠ 0x76 by decide
  record _ := Or.inr rfl

/-- `usmart_get_fname` comes to the arguments outside quotes at depth 1. -/
theorem fnameLoop_args {line : List UInt8} (h0 : 0 ∉ line) (hlen : line.length ≤ 199)
    (hname : (usmartGetFname (cstr line)).res = usmartOk) (hview : SameView line) :
    ∃ name, fnameLoop (fnameStart (cstr line)) .init =
      fnameLoop (cstr (argText line)) ⟨1, false, 1, 0, 0, [], name⟩ := by
  obtain ⟨pre, hsplit, hpre⟩ := line_split (usmartGetFname_accept hname)
  have hlength := congrArg List.length hsplit
  rw [List.length_append, List.length_cons] at hlength
  have hcstr : cstr line = pre ++ 0x28 :: cstr (argText line) := by
    conv_lhs => rw [hsplit]
    simp [cstr]
  obtain ⟨k, hstart⟩ : ∃ k, fnameStart (cstr line) = pre.drop k ++ 0x28 :: cstr (argText line) := by
    rw [hcstr]
    exact ⟨_, fnameStart_split (Or.inl rfl) (by omega) _⟩
  have hdrop : 0x28 ∉ pre.drop k := fun h => hpre (List.mem_of_mem_drop h)
  have hdrop0 : 0 ∉ pre.drop k := fun h =>
    h0 (hsplit ▸ List.mem_append_left _ (List.mem_of_mem_drop h))
  have htake : (fnameStart (cstr line)).takeWhile (· ≠ 0x28) = pre.drop k := by
    rw [hstart, List.takeWhile_append_of_pos fun c hc => by
      simpa using fun hx : c = 0x28 => hdrop (hx ▸ hc)]
    simp
  have hquotes : quoteFlag Fname.init.nchar (pre.drop k) = false := by
    rw [← htake]
    exact hview.1
  have hloop : (fnameLoop (pre.drop k ++ 0x28 :: cstr (argText line)) .init).1 = usmartOk := by
    rw [← hstart]
    exact hname
  obtain ⟨name, hpass⟩ := fnameLoop_pass_name (pre.drop k) .init rfl rfl hdrop0 hdrop hloop
  refine ⟨name, ?_⟩
  rw [hstart, hpass, hquotes]
  exact fnameLoop_go rfl _

/-- **When the two counts agree.** On a line that both functions accept and whose
parentheses they see alike, the counts are equal just when no string has a comma. -/
theorem usmartGetFname_pnum_iff {line : List UInt8} (h0 : 0 ∉ line) (hlen : line.length ≤ 199)
    {dev : UsmartDev} {r : Fparam} {parn : Nat}
    (hname : (usmartGetFname (cstr line)).res = usmartOk)
    (hparm : usmartGetFparam (cstr line) dev = .ok r) (hsta : r.sta = usmartOk)
    (hparn : r.parn = some parn) (hview : SameView line) :
    (usmartGetFname (cstr line)).pnum = parn ↔ ¬ StringComma .start (cstr (argText line)) := by
  have hp : 0x28 ∈ line := usmartGetFname_accept hname
  obtain ⟨hfin, _, hcount, _⟩ := usmartGetFparam_ok h0 hlen hp hparm hsta
  obtain rfl : (lex (cstr (argText line))).1.length = parn := by
    rw [hparn] at hcount
    exact (Option.some.inj hcount).symm
  obtain ⟨name, hpass⟩ := fnameLoop_args h0 hlen hname hview
  have hloop : (fnameLoop (cstr (argText line)) ⟨1, false, 1, 0, 0, [], name⟩).1 = usmartOk := by
    rw [← hpass]
    exact hname
  have htext := argText_length line
  have hsmall : Small ⟨1, false, 1, 0, 0, [], name⟩ (argText line).length :=
    ⟨by dsimp only; omega, by dsimp only; omega, by dsimp only; omega, by omega⟩
  obtain ⟨hvoid, extra, hparts, hextra⟩ :=
    (Sync.init name).run hsmall (argText_clean h0) hview.2 hfin hloop
  -- a first parameter that does not begin with a `v` is not `void`
  have hpnum : (usmartGetFname (cstr line)).pnum =
      (fnameLoop (cstr (argText line)) ⟨1, false, 1, 0, 0, [], name⟩).2.parmnum := by
    simp only [usmartGetFname, hpass]
    refine if_neg fun hx => ?_
    rw [usmartStrcmp_head fun heq => hvoid ((cstr_head _).symm.trans heq)] at hx
    exact absurd hx.2 (by decide)
  rw [hpnum, hparts, lex]
  constructor
  · intro heq
    exact (hextra.mp (by omega)).2
  · intro hnone
    rw [hextra.mpr ⟨rfl, hnone⟩]
    omega

/-- On `f(1,"a(b")` they agree: two arguments. -/
theorem usmartGetFname_pnum_iff_call :
    (usmartGetFname (cstr (text "f(1,\"a(b\")"))).pnum = 2 ↔
      ¬ StringComma .start (cstr (argText (text "f(1,\"a(b\")"))) := by
  obtain ⟨r, hr, hok, hn⟩ : ∃ r, usmartGetFparam (cstr (text "f(1,\"a(b\")")) usmartDev = .ok r ∧
      r.sta = usmartOk ∧ r.parn = some 2 := ⟨_, rfl, rfl, rfl⟩
  exact usmartGetFname_pnum_iff (by decide +kernel) (by decide +kernel) (by decide +kernel) hr hok
    hn (by decide +kernel)

/-- On the line `f("a,b")` the one argument is counted twice. -/
theorem usmartGetFname_counts_comma :
    (usmartGetFname (cstr (text "f(\"a,b\")"))).res = usmartOk ∧
      (usmartGetFname (cstr (text "f(\"a,b\")"))).pnum = 2 ∧
      ∃ r, usmartGetFparam (cstr (text "f(\"a,b\")")) usmartDev = .ok r ∧
        r.sta = usmartOk ∧ r.parn = some 1 :=
  ⟨by decide +kernel, by decide +kernel, _, rfl, rfl, rfl⟩

end Generalplate.Usmart
