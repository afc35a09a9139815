import Generalplate.Usmart.ArgStores
import Generalplate.Usmart.RoundTrip

/-! # The bytes stored in `parm`

Nothing compares the offset with `PARM_LEN`. A digit is stored as four bytes, so
ten arguments can take more than the characters typed; and a string open at the
NUL can be followed by any other. -/
namespace Generalplate.Usmart
open Lib.Transducer Lib.ByteMem

theorem usmartGetParmpos_storeArg (dev : UsmartDev) (n : Nat) (bytes : List UInt8) (string : Bool)
    (len : Nat) : usmartGetParmpos (dev.storeArg n bytes string len).plentbl (n + 1) =
      (usmartGetParmpos dev.plentbl n + len) % 2 ^ 8 := by
  rw [usmartGetParmpos, UsmartDev.storeArg_plentbl, usmartGetParmpos_update _ _ (Nat.le_refl n),
    Function.update_self]

/-- The arguments in front of the first ill-formed one. -/
def storedArgs (ts : List Tok) : List Arg := (wellFormed ts).map Tok.arg

theorem packed_cons (a : Arg) (args : List Arg) : packed (a :: args) = a.len + packed args := by
  simp [packed]

/-- **The stores end at the sum of the lengths**: all of them are below a limit just
when the sum is. -/
theorem allStores_inside_iff {ts : List Tok} {n p limit : Nat} {dev : UsmartDev}
    (hpos : usmartGetParmpos dev.plentbl n = p)
    (hts : ∀ t ∈ ts, 0 ∉ t.bytes ∧ t.bytes.length < 255)
    (hcount : n + (wellFormed ts).length ≤ maxParm) (hsize : p + packed (storedArgs ts) < 2 ^ 8)
    (hp : p ≤ limit) :
    (∀ st ∈ allStores ts n dev, st.pos + st.bytes.length ≤ limit) ↔
      p + packed (storedArgs ts) ≤ limit := by
  induction ts generalizing n p dev with
  | nil =>
    refine iff_of_true (fun st hst => by cases hst) ?_
    exact hp
  | cons t ts ih =>
    obtain ⟨⟨h0, hlen⟩, hts⟩ := List.forall_mem_cons.mp hts
    by_cases hwf : t.WellFormed
    · have hargs : storedArgs (t :: ts) = t.arg :: storedArgs ts := by
        rw [storedArgs, wellFormed_cons hwf, List.map_cons, storedArgs]
      rw [wellFormed_cons hwf, List.length_cons] at hcount
      rw [hargs, packed_cons] at hsize ⊢
      have hok : (storeTok t n dev).1 = usmartOk :=
        (storeTok_ok_iff t n dev).mpr ⟨hwf, by omega⟩
      have hnext : usmartGetParmpos
          (dev.storeArg n t.arg.bytes t.arg.isStr t.arg.len).plentbl (n + 1) = p + t.arg.len := by
        rw [usmartGetParmpos_storeArg, hpos, Nat.mod_eq_of_lt (by omega)]
      rw [allStores, if_neg (not_not_intro hok), List.forall_mem_append,
        t.stores_eq hwf h0 hlen, storeTok_eq hwf h0 hlen, countArg_eq, List.forall_mem_singleton]
      have hend : (dev.argStore n t.arg.bytes t.arg.isStr t.arg.len).pos +
          (dev.argStore n t.arg.bytes t.arg.isStr t.arg.len).bytes.length = p + t.arg.len := by
        rw [← hpos]
        rfl
      rw [hend]
      by_cases hfit : p + t.arg.len ≤ limit
      · rw [and_iff_right hfit, ih hnext hts (by omega) (by omega) hfit]
        omega
      · exact iff_of_false (fun h => hfit h.1) (by omega)
    · obtain ⟨hsta, hnone⟩ := storeTok_bad hwf n dev
      have hargs : storedArgs (t :: ts) = [] := by
        rw [storedArgs, wellFormed_cons_bad hwf, List.map_nil]
      rw [hargs, allStores, hsta, hnone]
      refine iff_of_true (fun st hst => ?_) hp
      simp [show ¬ usmartParmerr = usmartOk by decide] at hst

/-- What the arguments of a line in front of the first ill-formed one take. -/
theorem packed_stored {line : List UInt8} (hlen : line.length ≤ 199)
    (hfew : (typedToks line).length ≤ maxParm) : packed (storedArgs (typedToks line)) < 2 ^ 8 := by
  have hall := packed_line hlen
  have hpart : packed (storedArgs (typedToks line)) ≤ packed (typedArgs line) :=
    (((List.takeWhile_sublist _).map Tok.arg).map Arg.len).sum_le_sum fun _ _ => Nat.zero_le _
  have hcount : (typedArgs line).length = (typedToks line).length := List.length_map ..
  unfold maxParm at hfew
  omega

theorem stores_inside_iff {line : List UInt8} (h0 : 0 ∉ line) (hp : 0x28 ∈ line)
    (hlen : line.length ≤ 199) (hfew : (typedToks line).length ≤ maxParm) (dev : UsmartDev) :
    (∀ st ∈ fparamStores (cstr line) dev, st.pos + st.bytes.length ≤ parmLen) ↔
      packed (storedArgs (typedToks line)) ≤ parmLen := by
  have hpart : (wellFormed (typedToks line)).length ≤ (typedToks line).length :=
    (List.takeWhile_sublist _).length_le
  have htoks : ∀ t ∈ typedToks line, 0 ∉ t.bytes ∧ t.bytes.length < 255 := line_tokens h0 hlen
  have hsize := packed_stored hlen hfew
  have hstart : usmartGetParmpos dev.clear.plentbl 0 = 0 := rfl
  rw [fparamStores_line h0 hp hlen, allStores_inside_iff hstart htoks (by omega)
    (by omega) (Nat.zero_le _), Nat.zero_add]

/-! ## A string open at the end -/

/-- A scan of a text that goes on with a NUL, a quote and a comma stops in front of
what follows them. -/
theorem aparmLoop_closes {s t fparm : List UInt8} {k : Nat} {p : Ptype}
    (h : aparmLoop (s ++ [0, 0x22, 0x2c] ++ t) false false .num [] 0 = (fparm, some (k, p))) :
    k < s.length + 3 := by
  have hr := aparmLoop_reads (s ++ [0, 0x22, 0x2c]) 0 (.num [] false)
  have hstops : (aparmLoop (s ++ [0, 0x22, 0x2c]) false false .num [] 0).2 ≠ none := by
    intro hnone
    obtain ⟨htoks, hopen, _⟩ := hr.unfinished hnone
    rw [run_append] at htoks hopen
    cases hm : (run next (.num [] false) s).2 with
    | num acc comma =>
      rw [hm] at hopen
      refine hopen true ?_
      simp [run_cons, next, isEnd]
    | str acc =>
      rw [hm] at htoks
      simp [run_cons, next, isEnd] at htoks
    | esc acc =>
      rw [hm] at htoks
      simp [run_cons, next, isEnd] at htoks
    | post acc =>
      rw [hm] at hopen
      refine hopen true ?_
      simp [run_cons, next, isEnd]
    | fin closed =>
      rw [hm] at hopen
      exact hopen closed (by rw [run_fin])
  rw [aparmLoop_append _ _ _ (.num [] false) hstops] at h
  have hlt := aparmLoop_lt h
  rwa [List.length_append] at hlt

/-- The longest string for the buffer of `PARM_LEN + 1` bytes that `usmart_get_fparam`
collects it in. -/
def longString : List UInt8 := List.replicate parmLen 0x61

/-- What may lie behind a line: the end of a string and the longest string. -/
def stringBehind : List UInt8 := [0x22, 0x2c] ++ ((0x22 :: escape longString ++ [0x22]) ++ [0x29])

theorem run_stringBehind (acc : List UInt8) :
    run next (.str acc) stringBehind = ([.str acc, .str longString], .fin true) := by
  have hclose : run next (.str acc) [0x22, 0x2c] = ([.str acc], .num [] true) := rfl
  have hend : run next (.post longString) [0x29] = ([.str longString], .fin true) := by
    rw [run_cons, run_nil, next, if_pos (by decide)]
    rfl
  rw [stringBehind, run_append, hclose, run_append, run_string (Or.inl rfl), hend]
  rfl

theorem shortCalls_stringBehind {line : List UInt8} (hlen : line.length ≤ 199) :
    ShortCalls (argText line ++ 0 :: stringBehind) := by
  intro d fparm k p h
  have htext := argText_length line
  have hsplit : argText line ++ 0 :: stringBehind = argText line ++ ([0, 0x22, 0x2c] ++
      ((0x22 :: escape longString ++ [0x22]) ++ [0x29])) := rfl
  by_cases hd : d ≤ (argText line).length
  · rw [hsplit, List.drop_append_of_le_length hd, ← List.append_assoc] at h
    have hlt := aparmLoop_closes h
    rw [List.length_drop] at hlt
    omega
  · have hlt := aparmLoop_lt h
    have hlast : stringBehind.length = 205 := by decide +kernel
    rw [List.length_drop, List.length_append, List.length_cons, hlast] at hlt
    omega

/-- The number of arguments typed, a string open at the end among them. -/
def typedCount (line : List UInt8) : Nat :=
  (typedToks line).length +
    match (lex (cstr (argText line))).2 with
    | .str _ => 1
    | _ => 0

theorem typedToks_le (line : List UInt8) : (typedToks line).length ≤ typedCount line :=
  Nat.le_add_right _ _

theorem typedCount_open {line : List UInt8} (h : StringOpen line) :
    typedCount line = (typedToks line).length + 1 := by
  obtain ⟨acc, hacc⟩ := h
  rw [typedCount, hacc]

/-- Behind the tokens that are stored the next is stored. -/
theorem mem_allStores {ts us : List Tok} {t : Tok} {n : Nat} {dev : UsmartDev}
    (hok : (storeAll ts n dev).1 = usmartOk) : ∀ st ∈ t.stores (n + ts.length)
      (storeAll ts n dev).2.2, st ∈ allStores (ts ++ t :: us) n dev := by
  intro st hst
  rw [allStores_append, if_neg (not_not_intro hok), storeAll_count hok, allStores]
  exact List.mem_append_right _ (List.mem_append_left _ hst)

/-- **The string behind**: memory behind a line with an open string can hold one that
takes more than `PARM_LEN` bytes. -/
theorem stores_open {line : List UInt8} (h0 : 0 ∉ line) (hp : 0x28 ∈ line)
    (hlen : line.length ≤ 199) (hfew : typedCount line ≤ maxParm) (ho : StringOpen line)
    (hgo : ¬ StopsEarly line) (dev : UsmartDev) :
    ¬ ∀ st ∈ fparamStores (line ++ 0 :: stringBehind) dev,
      st.pos + st.bytes.length ≤ parmLen := by
  rw [typedCount_open ho] at hfew
  obtain ⟨acc, hacc⟩ := ho
  obtain ⟨htyped, -⟩ := (not_stopsEarly_iff line).mp hgo
  have hok : (storeAll (typedToks line ++ [.str acc]) 0 dev.clear).1 = usmartOk := by
    refine (storeAll_ok_iff _ 0 _ (Nat.zero_le _)).mpr ⟨fun t ht => ?_, ?_⟩
    · rcases List.mem_append.mp ht with ht | ht
      · exact htyped t ht
      · rw [List.mem_singleton.mp ht]
        trivial
    · rw [List.length_append, List.length_singleton, Nat.zero_add]
      exact hfew
  rw [fparamStores_open h0 hp hacc (run_stringBehind acc) (shortCalls_stringBehind hlen),
    List.append_cons]
  intro h
  have hend := Nat.le_trans (Nat.le_add_left _ _)
    (h _ (@mem_allStores _ [] (.str longString) 0 dev.clear hok _ (List.mem_singleton_self _)))
  have hlast : (usmartStrcopy (cstr longString) ++ [0]).length = 201 := by decide +kernel
  change (usmartStrcopy (cstr longString) ++ [0]).length ≤ parmLen at hend
  rw [hlast] at hend
  exact absurd hend (by decide)

/-- **The space in `parm`.** On an accepted line of at most `MAX_PARM` arguments every
byte is stored inside `parm`, whatever lies behind the NUL: this holds when the
arguments in front of the first ill-formed one take at most `PARM_LEN` bytes, and no
string is open at the NUL or an earlier argument stops the loop. -/
theorem bytes_inside_iff {line : List UInt8} (h0 : 0 ∉ line) (hlen : line.length ≤ 199)
    (hacc : (usmartGetFname (cstr line)).res = usmartOk) (hfew : typedCount line ≤ maxParm) :
    (∀ (behind : List UInt8) (dev : UsmartDev), ∀ st ∈ fparamStores (line ++ 0 :: behind) dev,
      st.pos + st.bytes.length ≤ parmLen) ↔
      packed (storedArgs (typedToks line)) ≤ parmLen ∧ (¬ StringOpen line ∨ StopsEarly line) := by
  have hp := usmartGetFname_accept hacc
  have htoks := Nat.le_trans (typedToks_le line) hfew
  constructor
  · intro h
    constructor
    · exact (stores_inside_iff h0 hp hlen htoks usmartDev).mp (h [] usmartDev)
    · by_contra hopen
      obtain ⟨ho, hgo⟩ := not_or.mp hopen
      exact stores_open h0 hp hlen hfew (not_not.mp ho) hgo usmartDev (h _ _)
  · rintro ⟨hsize, hreturns⟩ behind dev
    obtain ⟨r, hr⟩ := (usmartGetFparam_returns_iff h0 hlen hacc dev).mpr hreturns
    rw [fparamStores_behind h0 hp hr]
    exact (stores_inside_iff h0 hp hlen htoks dev).mpr hsize

/-- On `f(1,"a")` the condition holds. -/
theorem bytes_inside_iff_call :
    (∀ (behind : List UInt8) (dev : UsmartDev),
      ∀ st ∈ fparamStores (text "f(1,\"a\")" ++ 0 :: behind) dev,
        st.pos + st.bytes.length ≤ parmLen) ↔
      packed (storedArgs (typedToks (text "f(1,\"a\")"))) ≤ parmLen ∧
        (¬ StringOpen (text "f(1,\"a\")") ∨ StopsEarly (text "f(1,\"a\")")) :=
  bytes_inside_iff (by decide +kernel) (by decide +kernel) (by decide +kernel) (by decide +kernel)

/-- Nine digits and a string of 164 bytes. -/
def fullLine : List UInt8 :=
  text "f(1,1,1,1,1,1,1,1,1,\"" ++ List.replicate 164 0x61 ++ text "\")"

/-- A line of 187 bytes stores ten arguments that take 201. -/
theorem fullLine_overflows :
    fullLine.length ≤ 199 ∧ (usmartGetFname (cstr fullLine)).res = usmartOk ∧
      typedCount fullLine ≤ maxParm ∧
      ¬ ∀ st ∈ fparamStores (cstr fullLine) usmartDev,
        st.pos + st.bytes.length ≤ parmLen :=
  ⟨by decide +kernel, by decide +kernel, by decide +kernel, by decide +kernel⟩

end Generalplate.Usmart
