import Mathlib.Data.List.TakeWhile
import Generalplate.Usmart.Behind
import Generalplate.Usmart.Returns
import Generalplate.Usmart.Stored

/-! # The number of arguments stored

The count is compared with `MAX_PARM` behind the store: the argument that is one
too many has its entry of `plentbl` and its bit of `parmtype` written before the
loop returns. The stores of a run are in consecutive entries, one for each token
up to the first that is ill formed. -/
namespace Generalplate.Usmart
open Lib.Transducer

/-- The tokens in front of the first ill-formed one. -/
def wellFormed (ts : List Tok) : List Tok := ts.takeWhile fun t => t.WellFormed

theorem wellFormed_cons {t : Tok} (h : t.WellFormed) (ts : List Tok) :
    wellFormed (t :: ts) = t :: wellFormed ts :=
  List.takeWhile_cons_of_pos (decide_eq_true h)

theorem wellFormed_cons_bad {t : Tok} (h : ¬ t.WellFormed) (ts : List Tok) :
    wellFormed (t :: ts) = [] :=
  List.takeWhile_cons_of_neg (by simpa using h)

theorem wellFormed_all {ts : List Tok} (h : ∀ t ∈ ts, t.WellFormed) : wellFormed ts = ts :=
  List.takeWhile_eq_self_iff.mpr fun t ht => decide_eq_true (h t ht)

/-- More than `k` tokens are in front of the first ill-formed one. -/
theorem lt_length_wellFormed (ts : List Tok) (k : Nat) :
    k < (wellFormed ts).length ↔ k < ts.length ∧ ∀ t ∈ ts.take (k + 1), t.WellFormed := by
  induction ts generalizing k with
  | nil => simp [wellFormed]
  | cons t ts ih =>
    rw [List.take_succ_cons, List.forall_mem_cons, List.length_cons]
    by_cases h : t.WellFormed
    · rw [wellFormed_cons h, List.length_cons]
      cases k with
      | zero => simp [h]
      | succ k => rw [Nat.succ_lt_succ_iff, Nat.succ_lt_succ_iff, ih k, and_iff_right h]
    · rw [wellFormed_cons_bad h]
      exact iff_of_false (Nat.not_lt_zero k) fun hall => h hall.2.1

theorem Tok.stores_entry {t : Tok} (h : t.WellFormed) (n : Nat) (dev : UsmartDev) :
    (t.stores n dev).map ArgStore.n = [n] := by
  cases t with
  | str bytes => rfl
  | num digits =>
    have hok : ¬ (usmartStr2num (cstr digits)).1 ≠ 0 := not_not_intro h
    unfold Tok.stores numStores
    dsimp only
    rw [if_neg hok]
    rfl

/-- **The entries written**, one too many when the tokens are. -/
theorem allStores_entries (ts : List Tok) {n : Nat} (dev : UsmartDev) (hn : n ≤ maxParm) :
    (allStores ts n dev).map ArgStore.n =
      List.range' n (min (wellFormed ts).length (maxParm + 1 - n)) := by
  induction ts generalizing n dev with
  | nil => simp [allStores, wellFormed]
  | cons t ts ih =>
    rw [allStores, List.map_append]
    by_cases h : t.WellFormed
    · have hone : min ((wellFormed ts).length + 1) (maxParm + 1 - n) =
          min (wellFormed ts).length (maxParm - n) + 1 := by
        omega
      rw [t.stores_entry h, wellFormed_cons h, List.length_cons, hone, List.range'_succ]
      by_cases hfew : n + 1 ≤ maxParm
      · have hok : (storeTok t n dev).1 = usmartOk := (storeTok_ok_iff t n dev).mpr ⟨h, hfew⟩
        have hrest : maxParm - n = maxParm + 1 - (n + 1) := by omega
        rw [if_neg (not_not_intro hok), storeTok_count t hok, ih _ hfew, hrest]
        rfl
      · have hover : (storeTok t n dev).1 ≠ usmartOk := fun hok =>
          hfew ((storeTok_ok_iff t n dev).mp hok).2
        have hlast : maxParm - n = 0 := by omega
        rw [if_pos hover, hlast, Nat.min_zero]
        rfl
    · obtain ⟨hsta, hnone⟩ := storeTok_bad h n dev
      rw [hsta, hnone, wellFormed_cons_bad h]
      simp [show ¬ usmartParmerr = usmartOk by decide]

/-- The status is `USMART_PARMOVER` when the one too many is stored. -/
theorem storeAll_over_iff (ts : List Tok) {n : Nat} (dev : UsmartDev) (hn : n ≤ maxParm) :
    (storeAll ts n dev).1 = usmartParmover ↔ maxParm < n + (wellFormed ts).length := by
  have herr : ¬ usmartParmerr = usmartParmover := by decide
  have hok : ¬ usmartOk = usmartParmover := by decide
  induction ts generalizing n dev with
  | nil => exact iff_of_false hok (by simpa [wellFormed] using hn)
  | cons t ts ih =>
    rw [storeAll]
    by_cases h : t.WellFormed
    · rw [wellFormed_cons h, List.length_cons]
      by_cases hfew : n + 1 ≤ maxParm
      · have hgo : (storeTok t n dev).1 = usmartOk := (storeTok_ok_iff t n dev).mpr ⟨h, hfew⟩
        have hrest := ih (storeTok t n dev).2.2 hfew
        rw [if_neg (not_not_intro hgo), storeTok_count t hgo]
        exact hrest.trans (by omega)
      · have hover : (storeTok t n dev).1 = usmartParmover := by
          rw [storeTok_sta, if_pos h, if_pos (by omega)]
        rw [if_pos (by rw [hover]; decide), hover]
        exact iff_of_true rfl (by omega)
    · obtain ⟨hsta, _⟩ := storeTok_bad h n dev
      rw [hsta, wellFormed_cons_bad h]
      exact iff_of_false herr (by simpa using hn)

/-- A store changes no other entry and no other bit. -/
theorem UsmartDev.write_keeps {dev : UsmartDev} {st : ArgStore} {i : Nat} (h : i ≠ st.n) :
    (dev.write st).plentbl i = dev.plentbl i ∧
      (dev.write st).parmtype.getLsbD i = dev.parmtype.getLsbD i := by
  refine ⟨Function.update_of_ne h _ _, ?_⟩
  by_cases hi : i < 16
  · have hbit := @storeArg_bit dev st.n i hi st.bytes st.string st.len
    rwa [if_neg h] at hbit
  · rw [BitVec.getLsbD_of_ge _ _ (by omega), BitVec.getLsbD_of_ge _ _ (by omega)]

theorem UsmartDev.writes_keeps {sts : List ArgStore} {dev : UsmartDev} {i : Nat}
    (h : ∀ st ∈ sts, st.n < i) : (dev.writes sts).plentbl i = dev.plentbl i ∧
      (dev.writes sts).parmtype.getLsbD i = dev.parmtype.getLsbD i := by
  induction sts generalizing dev with
  | nil => exact ⟨rfl, rfl⟩
  | cons st sts ih =>
    obtain ⟨hst, hsts⟩ := List.forall_mem_cons.mp h
    obtain ⟨hlen, hbit⟩ := @UsmartDev.write_keeps dev st i (by omega)
    obtain ⟨hlens, hbits⟩ := @ih (dev.write st) hsts
    exact ⟨hlens.trans hlen, hbits.trans hbit⟩

/-- **The stores are all there is**: the bits from `MAX_PARM` on, and the memory behind
`plentbl`, are as before when no store reaches them. -/
theorem usmartGetFparam_keeps {str : List UInt8} {dev : UsmartDev} {r : Fparam}
    (h : usmartGetFparam str dev = .ok r) (hbelow : ∀ st ∈ fparamStores str dev, st.n < maxParm)
    {i : Nat} (hi : maxParm ≤ i) :
    r.dev.plentbl i = dev.plentbl i ∧ r.dev.parmtype.getLsbD i = dev.parmtype.getLsbD i := by
  have hall : ∀ st ∈ fparamStores str dev, st.n < i := fun st hst =>
    Nat.lt_of_lt_of_le (hbelow st hst) hi
  have hclear : dev.clear.plentbl i = dev.plentbl i := if_neg (by omega)
  obtain ⟨hlen, hbit⟩ := @UsmartDev.writes_keeps _ dev.clear i hall
  rw [usmartGetFparam_writes h]
  exact ⟨hlen.trans hclear, hbit⟩

/-! ## The runs on a line -/

/-- The arguments typed on a line, as the lexer reads them. -/
def typedToks (line : List UInt8) : List Tok := (lex (cstr (argText line))).1

/-- More than `MAX_PARM` arguments, the first `MAX_PARM + 1` of them well formed. -/
def TooMany (line : List UInt8) : Prop :=
  maxParm < (typedToks line).length ∧ ∀ t ∈ (typedToks line).take (maxParm + 1), t.WellFormed

theorem tooMany_iff (line : List UInt8) :
    TooMany line ↔ maxParm < (wellFormed (typedToks line)).length :=
  (lt_length_wellFormed _ _).symm

theorem shortCalls_line {line : List UInt8} (hlen : line.length ≤ 199) :
    ShortCalls (cstr (argText line)) := by
  refine .of_length ?_
  have htext := argText_length line
  rw [length_cstr]
  omega

theorem fparamStores_line {line : List UInt8} (h0 : 0 ∉ line) (hp : 0x28 ∈ line)
    (hlen : line.length ≤ 199) (dev : UsmartDev) :
    fparamStores (cstr line) dev = allStores (typedToks line) 0 dev.clear := by
  have htrace : (fparamStores (cstr line) dev, usmartGetFparam (cstr line) dev) =
      fparamTrace ((cstr (argText line)).length + maxParm + 2) (cstr (argText line)) 0 dev.clear :=
    usmartGetFparam_trace h0 hp [] dev
  rw [fparamTrace_eq _ _ _ _ (by omega) (shortCalls_line hlen)] at htrace
  exact congrArg Prod.fst htrace

/-- A run returns `USMART_PARMOVER`. -/
def Over (r : Except Fault Fparam) : Prop := ∃ f, r = .ok f ∧ f.sta = usmartParmover

theorem finish_over_iff (m : Mode) (r : Nat × Nat × UsmartDev) :
    Over (finish m r) ↔ r.1 = usmartParmover := by
  have hok : ¬ usmartOk = usmartParmover := by decide
  have herr : ¬ usmartParmerr = usmartParmover := by decide
  by_cases h : r.1 = usmartOk
  · refine iff_of_false ?_ (by rw [h]; exact hok)
    rintro ⟨f, hf, hover⟩
    by_cases hm : ∃ closed, m = .fin closed
    · obtain ⟨closed, rfl⟩ := hm
      cases closed with
      | true =>
        rw [finish_closed h] at hf
        cases hf
        exact hok hover
      | false =>
        rw [finish_illegal h] at hf
        cases hf
        exact herr hover
    · rw [finish_open (fun closed hx => hm ⟨closed, hx⟩) h] at hf
      cases hf
  · rw [finish_fail m h]
    constructor
    · rintro ⟨f, hf, hover⟩
      cases hf
      exact hover
    · exact fun hover => ⟨_, rfl, hover⟩

/-- On a line whose run returns before its end. -/
theorem over_line_iff {line : List UInt8} (h0 : 0 ∉ line) (hp : 0x28 ∈ line)
    (hlen : line.length ≤ 199) (dev : UsmartDev) :
    Over (usmartGetFparam (cstr line) dev) ↔ TooMany line := by
  rw [usmartGetFparam_line h0 hp hlen, finish_over_iff, storeAll_over_iff _ _ (Nat.zero_le _),
    Nat.zero_add, tooMany_iff]
  rfl

/-- Every entry written is below `MAX_PARM`, unless one too many is typed. -/
theorem entries_below_iff {ts : List Tok} (dev : UsmartDev) :
    (∀ st ∈ allStores ts 0 dev, st.n < maxParm) ↔ ¬ maxParm < (wellFormed ts).length := by
  have hentries := allStores_entries ts dev (Nat.zero_le maxParm)
  have hall : (∀ st ∈ allStores ts 0 dev, st.n < maxParm) ↔
      ∀ i ∈ (allStores ts 0 dev).map ArgStore.n, i < maxParm := by
    simp
  rw [hall, hentries]
  simp only [List.mem_range'_1, Nat.zero_le, true_and, Nat.zero_add]
  constructor
  · intro h hmany
    exact Nat.lt_irrefl _ (h maxParm (by omega))
  · intro h i hi
    omega

/-! ## A string open at the end -/

/-- The stores of a run that goes on behind a line, in memory that ends the string and
the arguments. -/
theorem fparamStores_open {line behind acc : List UInt8} {us : List Tok} (h0 : 0 ∉ line)
    (hp : 0x28 ∈ line) (hacc : (lex (cstr (argText line))).2 = .str acc)
    (hrun : run next (.str acc) behind = (us, .fin true))
    (hs : ShortCalls (argText line ++ 0 :: behind)) (dev : UsmartDev) :
    fparamStores (line ++ 0 :: behind) dev = allStores (typedToks line ++ us) 0 dev.clear := by
  have hlex : (lex (argText line ++ 0 :: behind)).1 = typedToks line ++ us := by
    have hsplit : argText line ++ 0 :: behind = cstr (argText line) ++ behind := by
      simp [cstr]
    rw [lex, hsplit, run_append, ← lex, hacc, hrun, typedToks]
  have htrace := usmartGetFparam_trace h0 hp behind dev
  rw [fparamTrace_eq _ _ _ _ (by omega) hs, hlex] at htrace
  exact congrArg Prod.fst htrace

/-- What may lie behind a line: the end of a string and eleven numbers. -/
def elevenBehind : List UInt8 := text "\",1,1,1,1,1,1,1,1,1,1,1)"

theorem run_elevenBehind (acc : List UInt8) :
    run next (.str acc) elevenBehind =
      (.str acc :: List.replicate 11 (.num [0x31]), .fin true) := rfl

theorem shortCalls_elevenBehind {line : List UInt8} (hlen : line.length ≤ 199) :
    ShortCalls (argText line ++ 0 :: elevenBehind) := by
  refine .of_length ?_
  have htext := argText_length line
  have hlast : elevenBehind.length = 24 := rfl
  rw [List.length_append, List.length_cons, hlast]
  omega

/-- **The eleventh entry**: memory behind a line with an open string can hold it. -/
theorem entries_open {line : List UInt8} (h0 : 0 ∉ line) (hp : 0x28 ∈ line)
    (hlen : line.length ≤ 199) (ho : StringOpen line) (hgo : ¬ StopsEarly line) (dev : UsmartDev) :
    ¬ ∀ st ∈ fparamStores (line ++ 0 :: elevenBehind) dev, st.n < maxParm := by
  obtain ⟨acc, hacc⟩ := ho
  obtain ⟨htyped, -⟩ := (not_stopsEarly_iff line).mp hgo
  have hwf : ∀ t ∈ typedToks line ++ .str acc :: List.replicate 11 (.num [0x31]),
      t.WellFormed := by
    intro t ht
    rcases List.mem_append.mp ht with ht | ht
    · exact htyped t ht
    rcases List.mem_cons.mp ht with rfl | ht
    · trivial
    · rw [List.eq_of_mem_replicate ht]
      decide
  rw [fparamStores_open h0 hp hacc (run_elevenBehind acc) (shortCalls_elevenBehind hlen),
    entries_below_iff, not_not, wellFormed_all hwf, List.length_append, List.length_cons,
    List.length_replicate]
  unfold maxParm
  omega

/-- **The limit on the count.** On an accepted line every entry and every bit
written is below `MAX_PARM`, and the status is `USMART_PARMOVER` just when one too
many is typed, whatever lies behind the NUL: this holds when there is not one too
many, and no string is open at the NUL or an earlier argument stops the loop. -/
theorem entries_kept_iff {line : List UInt8} (h0 : 0 ∉ line) (hlen : line.length ≤ 199)
    (hacc : (usmartGetFname (cstr line)).res = usmartOk) :
    (∀ (behind : List UInt8) (dev : UsmartDev),
      (∀ st ∈ fparamStores (line ++ 0 :: behind) dev, st.n < maxParm) ∧
        (Over (usmartGetFparam (line ++ 0 :: behind) dev) ↔ TooMany line)) ↔
      ¬ TooMany line ∧ (¬ StringOpen line ∨ StopsEarly line) := by
  have hp := usmartGetFname_accept hacc
  constructor
  · intro h
    constructor
    · have hbelow := (h [] usmartDev).1
      rw [← cstr, fparamStores_line h0 hp hlen, entries_below_iff, ← tooMany_iff] at hbelow
      exact hbelow
    · by_contra hopen
      obtain ⟨ho, hgo⟩ := not_or.mp hopen
      exact entries_open h0 hp hlen (not_not.mp ho) hgo usmartDev (h _ _).1
  · rintro ⟨hfew, hreturns⟩ behind dev
    obtain ⟨r, hr⟩ := (usmartGetFparam_returns_iff h0 hlen hacc dev).mpr hreturns
    rw [fparamStores_behind h0 hp hr, usmartGetFparam_behind h0 hp hr, ← hr,
      fparamStores_line h0 hp hlen, entries_below_iff, ← tooMany_iff]
    exact ⟨hfew, over_line_iff h0 hp hlen dev⟩

/-- On `f(1,"a")` the condition holds. -/
theorem entries_kept_iff_call :
    (∀ (behind : List UInt8) (dev : UsmartDev),
      (∀ st ∈ fparamStores (text "f(1,\"a\")" ++ 0 :: behind) dev, st.n < maxParm) ∧
        (Over (usmartGetFparam (text "f(1,\"a\")" ++ 0 :: behind) dev) ↔
          TooMany (text "f(1,\"a\")"))) ↔
      ¬ TooMany (text "f(1,\"a\")") ∧
        (¬ StringOpen (text "f(1,\"a\")") ∨ StopsEarly (text "f(1,\"a\")")) :=
  entries_kept_iff (by decide +kernel) (by decide +kernel) (by decide +kernel)

/-- Of eleven numbers the last is stored in entry 10 of `plentbl`, which is behind
the table, before the status is `USMART_PARMOVER`. -/
theorem eleventh_entry_written :
    (usmartGetFname (cstr (text "f(1,1,1,1,1,1,1,1,1,1,1)"))).res = usmartOk ∧
      (¬ ∀ st ∈ fparamStores (cstr (text "f(1,1,1,1,1,1,1,1,1,1,1)")) usmartDev,
        st.n < maxParm) ∧
      (usmartGetFparam (cstr (text "f(1,1,1,1,1,1,1,1,1,1,1)")) usmartDev).map Fparam.sta =
        .ok usmartParmover :=
  ⟨by decide +kernel, by decide +kernel, rfl⟩

end Generalplate.Usmart
