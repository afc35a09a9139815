import Generalplate.Lib.ByteMem
import Generalplate.Usmart.Args

/-! # The arguments of a call

`usmart_get_fparam` calls the scanner until the arguments end and packs what it
read into `parm`: four bytes a number, the bytes and the NUL a string, with the
lengths in `plentbl` and the kinds in the bits of `parmtype`. It reads the text
as the lexer does and stores its tokens in order; the two are connected by
`fparamTrace_eq`. -/
namespace Generalplate.Usmart
open Lib.Transducer Lib.ByteMem

/-- The variable part of `usmart_dev`. `parm` is the memory from the array on,
so that a store behind its `PARM_LEN` bytes would show, and `plentbl` likewise. -/
structure UsmartDev where
  pnum : Nat
  id : Nat
  sptype : Nat
  parmtype : BitVec 16
  plentbl : Nat → Nat
  parm : Nat → UInt8
  runtimeflag : Nat

/-- The interpreter's state at power-up. -/
def usmartDev : UsmartDev := ⟨0, 0, 1, 0#16, fun _ => 0, fun _ => 0, 0⟩

/-- The sum of the lengths is a u8. -/
def usmartGetParmpos (plentbl : Nat → Nat) : Nat → Nat
  | 0 => 0
  | num + 1 => (usmartGetParmpos plentbl num + plentbl num) % 2 ^ 8

/-- The store of argument `n`: its bytes, its kind and its length. -/
def UsmartDev.storeArg (dev : UsmartDev) (n : Nat) (bytes : List UInt8) (string : Bool)
    (len : Nat) : UsmartDev :=
  { dev with
    parm := put dev.parm (usmartGetParmpos dev.plentbl n) bytes
    parmtype := if string then dev.parmtype ||| (1#16 <<< n) else dev.parmtype &&& ~~~(1#16 <<< n)
    plentbl := Function.update dev.plentbl n len }

@[simp] theorem UsmartDev.storeArg_plentbl (dev : UsmartDev) (n : Nat) (bytes : List UInt8)
    (string : Bool) (len : Nat) :
    (dev.storeArg n bytes string len).plentbl = Function.update dev.plentbl n len := rfl

@[simp] theorem UsmartDev.storeArg_parm (dev : UsmartDev) (n : Nat) (bytes : List UInt8)
    (string : Bool) (len : Nat) : (dev.storeArg n bytes string len).parm =
      put dev.parm (usmartGetParmpos dev.plentbl n) bytes := rfl

/-- A store of an argument: entry `n` of `plentbl`, bit `n` of `parmtype`, and the
bytes of `parm` from `pos` on. -/
structure ArgStore where
  n : Nat
  string : Bool
  len : Nat
  pos : Nat
  bytes : List UInt8
deriving DecidableEq, Repr

/-- The store `storeArg` makes. -/
def UsmartDev.argStore (dev : UsmartDev) (n : Nat) (bytes : List UInt8) (string : Bool)
    (len : Nat) : ArgStore :=
  ⟨n, string, len, usmartGetParmpos dev.plentbl n, bytes⟩

def UsmartDev.write (dev : UsmartDev) (st : ArgStore) : UsmartDev :=
  { dev with
    parm := put dev.parm st.pos st.bytes
    parmtype :=
      if st.string then dev.parmtype ||| (1#16 <<< st.n) else dev.parmtype &&& ~~~(1#16 <<< st.n)
    plentbl := Function.update dev.plentbl st.n st.len }

def UsmartDev.writes (dev : UsmartDev) (sts : List ArgStore) : UsmartDev :=
  sts.foldl UsmartDev.write dev

theorem UsmartDev.writes_append (dev : UsmartDev) (sts rest : List ArgStore) :
    dev.writes (sts ++ rest) = (dev.writes sts).writes rest :=
  List.foldl_append

theorem UsmartDev.storeArg_write (dev : UsmartDev) (n : Nat) (bytes : List UInt8) (string : Bool)
    (len : Nat) :
    dev.storeArg n bytes string len = dev.writes [dev.argStore n bytes string len] := rfl

/-- One more argument: the status (`USMART_OK` to go on) and the count. -/
def countArg (n : Nat) (dev : UsmartDev) : Nat × Nat × UsmartDev :=
  if n + 1 > maxParm then (usmartParmover, n + 1, dev) else (usmartOk, n + 1, dev)

/-- The case of a number with digits. -/
def storeNum (tstr : List UInt8) (n : Nat) (dev : UsmartDev) : Nat × Nat × UsmartDev :=
  let r := usmartStr2num tstr
  if r.1 ≠ 0 then (usmartParmerr, n, dev)
  else countArg n (dev.storeArg n (le 4 r.2.toNat) false 4)

/-- The case of a string; the length includes the NUL. -/
def storeStr (tstr : List UInt8) (n : Nat) (dev : UsmartDev) : Nat × Nat × UsmartDev :=
  countArg n (dev.storeArg n (usmartStrcopy tstr ++ [0]) true ((usmartStrlen tstr + 1) % 2 ^ 8))

/-- The switch of `usmart_get_fparam` on the type. -/
def storeParm (type : Ptype) (tstr : List UInt8) (n : Nat) (dev : UsmartDev) :
    Nat × Nat × UsmartDev :=
  match type with
  | .num => if tstr.headD 0 ≠ 0 then storeNum tstr n dev else (usmartOk, n, dev)
  | .str => storeStr tstr n dev
  | .err => (usmartParmerr, n, dev)

/-- What `usmart_get_fparam` returns; `*parn` is written on success only. -/
structure Fparam where
  sta : Nat
  parn : Option Nat
  dev : UsmartDev

/-- The loop over the arguments. A pass that neither ends it nor moves the
cursor stores the same argument again or changes nothing; the fuel covers one
pass a byte and the passes `MAX_PARM` allows. -/
def fparamLoop : Nat → List UInt8 → Nat → UsmartDev → Except Fault Fparam
  | 0, _, _, _ => .error .endless
  | fuel + 1, str, n, dev =>
    let a := usmartGetAparm str
    match a.2 with
    | none => .error .pastEnd
    | some (i, type) =>
      let str := str.drop i
      let r := storeParm type (cstr a.1) n dev
      if r.1 ≠ usmartOk then .ok ⟨r.1, none, r.2.2⟩
      else if isEnd (str.headD 0) then .ok ⟨usmartOk, some r.2.1, r.2.2⟩
      else fparamLoop fuel str r.2.1 r.2.2

/-! ## The stores of a run -/

/-- The stores of `storeNum`. -/
def numStores (tstr : List UInt8) (n : Nat) (dev : UsmartDev) : List ArgStore :=
  let r := usmartStr2num tstr
  if r.1 ≠ 0 then [] else [dev.argStore n (le 4 r.2.toNat) false 4]

/-- The stores of `storeStr`. -/
def strStores (tstr : List UInt8) (n : Nat) (dev : UsmartDev) : List ArgStore :=
  [dev.argStore n (usmartStrcopy tstr ++ [0]) true ((usmartStrlen tstr + 1) % 2 ^ 8)]

/-- The stores of `storeParm`. -/
def parmStores (type : Ptype) (tstr : List UInt8) (n : Nat) (dev : UsmartDev) : List ArgStore :=
  match type with
  | .num => if tstr.headD 0 ≠ 0 then numStores tstr n dev else []
  | .str => strStores tstr n dev
  | .err => []

/-- The loop with the stores it makes, also when it ends in a fault. -/
def fparamTrace : Nat → List UInt8 → Nat → UsmartDev → List ArgStore × Except Fault Fparam
  | 0, _, _, _ => ([], .error .endless)
  | fuel + 1, str, n, dev =>
    let a := usmartGetAparm str
    match a.2 with
    | none => ([], .error .pastEnd)
    | some (i, type) =>
      let str := str.drop i
      let r := storeParm type (cstr a.1) n dev
      let sts := parmStores type (cstr a.1) n dev
      if r.1 ≠ usmartOk then (sts, .ok ⟨r.1, none, r.2.2⟩)
      else if isEnd (str.headD 0) then (sts, .ok ⟨usmartOk, some r.2.1, r.2.2⟩)
      else
        let rest := fparamTrace fuel str r.2.1 r.2.2
        (sts ++ rest.1, rest.2)

theorem fparamTrace_loop (fuel : Nat) (s : List UInt8) (n : Nat) (dev : UsmartDev) :
    (fparamTrace fuel s n dev).2 = fparamLoop fuel s n dev := by
  induction fuel generalizing s n dev with
  | zero => rfl
  | succ fuel ih =>
    unfold fparamTrace fparamLoop
    dsimp only
    split
    · rfl
    split
    · rfl
    split
    · rfl
    · exact ih _ _ _

theorem countArg_eq (n : Nat) (dev : UsmartDev) :
    countArg n dev = (if n + 1 > maxParm then usmartParmover else usmartOk, n + 1, dev) := by
  unfold countArg
  split <;> rfl

theorem storeParm_writes (type : Ptype) (tstr : List UInt8) (n : Nat) (dev : UsmartDev) :
    (storeParm type tstr n dev).2.2 = dev.writes (parmStores type tstr n dev) := by
  cases type with
  | err => rfl
  | str =>
    rw [storeParm, storeStr, countArg_eq, UsmartDev.storeArg_write]
    rfl
  | num =>
    unfold storeParm parmStores storeNum numStores
    dsimp only
    split
    · split
      · rfl
      · rw [countArg_eq, UsmartDev.storeArg_write]
    · rfl

/-- **The stores are all a run changes.** -/
theorem fparamTrace_writes {fuel : Nat} {s : List UInt8} {n : Nat} {dev : UsmartDev} {r : Fparam}
    (h : (fparamTrace fuel s n dev).2 = .ok r) :
    r.dev = dev.writes (fparamTrace fuel s n dev).1 := by
  induction fuel generalizing s n dev with
  | zero => cases h
  | succ fuel ih =>
    unfold fparamTrace at h ⊢
    dsimp only at h ⊢
    split at h
    · cases h
    split at h
    · rename_i hfail
      rw [if_pos hfail]
      cases h
      exact storeParm_writes _ _ _ _
    rename_i hok
    rw [if_neg hok]
    split at h
    · rename_i hend
      rw [if_pos hend]
      cases h
      exact storeParm_writes _ _ _ _
    · rename_i hend
      rw [if_neg hend, UsmartDev.writes_append, ← storeParm_writes]
      exact ih h

/-! ## The function -/

/-- The text behind the first `(`, none when the string ends before it. The first
byte is not compared with the NUL. -/
def skipToParen : List UInt8 → Except Fault (Option (List UInt8))
  | [] => .error .pastEnd
  | c :: str =>
    if c = 0x28 then .ok (some str)
    else
      match str with
      | [] => .error .pastEnd
      | d :: str => if d = 0 then .ok none else skipToParen (d :: str)

/-- The table of lengths cleared. -/
def UsmartDev.clear (dev : UsmartDev) : UsmartDev :=
  { dev with plentbl := fun i => if i < maxParm then 0 else dev.plentbl i }

def usmartGetFparam (str : List UInt8) (dev : UsmartDev) : Except Fault Fparam :=
  match skipToParen str with
  | .error e => .error e
  | .ok none => .ok ⟨usmartFuncerr, none, dev.clear⟩
  | .ok (some str) => fparamLoop (str.length + maxParm + 2) str 0 dev.clear

/-- The stores of a call, behind those that clear the table. -/
def fparamStores (str : List UInt8) (dev : UsmartDev) : List ArgStore :=
  match skipToParen str with
  | .error _ => []
  | .ok none => []
  | .ok (some str) => (fparamTrace (str.length + maxParm + 2) str 0 dev.clear).1

theorem usmartGetFparam_writes {str : List UInt8} {dev : UsmartDev} {r : Fparam}
    (h : usmartGetFparam str dev = .ok r) : r.dev = dev.clear.writes (fparamStores str dev) := by
  unfold usmartGetFparam at h
  unfold fparamStores
  split at h
  · cases h
  · cases h
    rfl
  · exact fparamTrace_writes (by rw [fparamTrace_loop, h])

/-! ## The loop stores the lexer's tokens -/

def storeTok (t : Tok) (n : Nat) (dev : UsmartDev) : Nat × Nat × UsmartDev :=
  match t with
  | .num digits => storeNum (cstr digits) n dev
  | .str bytes => storeStr (cstr bytes) n dev

/-- The tokens stored in order, up to the first that fails. -/
def storeAll : List Tok → Nat → UsmartDev → Nat × Nat × UsmartDev
  | [], n, dev => (usmartOk, n, dev)
  | t :: ts, n, dev =>
    let r := storeTok t n dev
    if r.1 ≠ usmartOk then r else storeAll ts r.2.1 r.2.2

/-- The stores of a token. -/
def Tok.stores (t : Tok) (n : Nat) (dev : UsmartDev) : List ArgStore :=
  match t with
  | .num digits => numStores (cstr digits) n dev
  | .str bytes => strStores (cstr bytes) n dev

/-- The stores of tokens in order, up to the first that fails. -/
def allStores : List Tok → Nat → UsmartDev → List ArgStore
  | [], _, _ => []
  | t :: ts, n, dev =>
    let r := storeTok t n dev
    t.stores n dev ++ if r.1 ≠ usmartOk then [] else allStores ts r.2.1 r.2.2

/-- What the loop returns when the tokens are stored and the lexer is in `m`. -/
def finish (m : Mode) (r : Nat × Nat × UsmartDev) : Except Fault Fparam :=
  if r.1 ≠ usmartOk then .ok ⟨r.1, none, r.2.2⟩
  else
    match m with
    | .fin true => .ok ⟨usmartOk, some r.2.1, r.2.2⟩
    | .fin false => .ok ⟨usmartParmerr, none, r.2.2⟩
    | _ => .error .pastEnd

theorem finish_fail (m : Mode) {r : Nat × Nat × UsmartDev} (h : r.1 ≠ usmartOk) :
    finish m r = .ok ⟨r.1, none, r.2.2⟩ := by
  unfold finish
  rw [if_pos h]

theorem finish_closed {r : Nat × Nat × UsmartDev} (h : r.1 = usmartOk) :
    finish (.fin true) r = .ok ⟨usmartOk, some r.2.1, r.2.2⟩ := by
  unfold finish
  rw [if_neg (not_not_intro h)]

theorem finish_illegal {r : Nat × Nat × UsmartDev} (h : r.1 = usmartOk) :
    finish (.fin false) r = .ok ⟨usmartParmerr, none, r.2.2⟩ := by
  unfold finish
  rw [if_neg (not_not_intro h)]

theorem finish_open {m : Mode} (hm : ∀ closed, m ≠ .fin closed) {r : Nat × Nat × UsmartDev}
    (h : r.1 = usmartOk) : finish m r = .error .pastEnd := by
  unfold finish
  rw [if_neg (not_not_intro h)]
  cases m with
  | fin closed => exact absurd rfl (hm closed)
  | _ => rfl

/-- At the end of the arguments the loop returns, at an illegal one with an error. -/
theorem finish_fin (closed : Bool) (r : Nat × Nat × UsmartDev) :
    ∃ f, finish (.fin closed) r = .ok f ∧ (f.sta = usmartOk → closed = true) := by
  by_cases h : r.1 = usmartOk
  · cases closed with
    | true => exact ⟨_, finish_closed h, fun _ => rfl⟩
    | false => exact ⟨_, finish_illegal h, fun hsta =>
      absurd hsta (show ¬ usmartParmerr = usmartOk by decide)⟩
  · exact ⟨_, finish_fail _ h, fun hsta => absurd hsta h⟩

/-- The loop succeeds when all is stored and the lexer is at a `)` or the NUL. -/
theorem finish_ok {m : Mode} {r : Nat × Nat × UsmartDev} {f : Fparam} (h : finish m r = .ok f)
    (hok : f.sta = usmartOk) :
    r.1 = usmartOk ∧ m = .fin true ∧ f = ⟨usmartOk, some r.2.1, r.2.2⟩ := by
  by_cases hr : r.1 = usmartOk
  · by_cases hm : ∃ closed, m = .fin closed
    · obtain ⟨closed, rfl⟩ := hm
      cases closed with
      | true =>
        rw [finish_closed hr] at h
        cases h
        exact ⟨hr, rfl, rfl⟩
      | false =>
        rw [finish_illegal hr] at h
        cases h
        cases hok
    · rw [finish_open (fun closed hx => hm ⟨closed, hx⟩) hr] at h
      cases h
  · rw [finish_fail m hr] at h
    cases h
    exact absurd hok hr

theorem storeAll_append (ts us : List Tok) (n : Nat) (dev : UsmartDev) :
    storeAll (ts ++ us) n dev =
      if (storeAll ts n dev).1 ≠ usmartOk then storeAll ts n dev
      else storeAll us (storeAll ts n dev).2.1 (storeAll ts n dev).2.2 := by
  induction ts generalizing n dev with
  | nil => simp [storeAll]
  | cons t ts ih =>
    rw [List.cons_append, storeAll, storeAll]
    by_cases h : (storeTok t n dev).1 ≠ usmartOk
    · simp [h]
    · simp only [if_neg h]
      exact ih _ _

theorem allStores_append (ts us : List Tok) (n : Nat) (dev : UsmartDev) :
    allStores (ts ++ us) n dev = allStores ts n dev ++
      if (storeAll ts n dev).1 ≠ usmartOk then []
      else allStores us (storeAll ts n dev).2.1 (storeAll ts n dev).2.2 := by
  induction ts generalizing n dev with
  | nil => simp [storeAll, allStores]
  | cons t ts ih =>
    rw [List.cons_append, allStores, allStores, storeAll]
    by_cases h : (storeTok t n dev).1 ≠ usmartOk
    · simp [h]
    · simp only [if_neg h]
      rw [ih, List.append_assoc]

theorem parmStores_eq (type : Ptype) (fparm : List UInt8) (n : Nat) (dev : UsmartDev) :
    parmStores type (cstr fparm) n dev = allStores (tokOf type fparm) n dev := by
  have hone : ∀ t, allStores [t] n dev = t.stores n dev := by
    intro t
    simp [allStores]
  cases type with
  | err => rfl
  | str => rw [tokOf, hone, Tok.stores, parmStores]
  | num =>
    rw [parmStores, tokOf, numTok, cstr_head]
    by_cases hz : fparm.headD 0 = 0
    · rw [if_neg (not_not_intro hz), if_pos hz, allStores]
    · rw [if_pos hz, if_neg hz, hone, Tok.stores]

theorem storeParm_eq {type : Ptype} (h : type ≠ .err) (fparm : List UInt8) (n : Nat)
    (dev : UsmartDev) :
    storeParm type (cstr fparm) n dev = storeAll (tokOf type fparm) n dev := by
  have hone : ∀ t, storeAll [t] n dev = storeTok t n dev := by
    intro t
    simp only [storeAll]
    split
    · rfl
    · rename_i hok
      rw [not_not] at hok
      exact Prod.ext hok.symm rfl
  cases type with
  | err => exact absurd rfl h
  | str => rw [tokOf, hone, storeTok, storeParm]
  | num =>
    rw [storeParm, tokOf, numTok, cstr_head]
    by_cases hz : fparm.headD 0 = 0
    · rw [if_neg (not_not_intro hz), if_pos hz, storeAll]
    · rw [if_pos hz, if_neg hz, hone, storeTok]

/-- Wherever the scanner is called in `s`, the offset it returns fits a u8. -/
def ShortCalls (s : List UInt8) : Prop :=
  ∀ d fparm k p, aparmLoop (s.drop d) false false .num [] 0 = (fparm, some (k, p)) → k < 2 ^ 8

theorem ShortCalls.drop {s : List UInt8} (h : ShortCalls s) (k : Nat) : ShortCalls (s.drop k) := by
  intro d
  rw [List.drop_drop]
  exact h (k + d)

theorem ShortCalls.of_length {s : List UInt8} (h : s.length < 2 ^ 8) : ShortCalls s := by
  intro d fparm k p hcall
  have hlt := aparmLoop_lt hcall
  rw [List.length_drop] at hlt
  omega

/-- **The loop stores the lexer's tokens** when no offset wraps around; with one
pass a byte it never runs out of fuel. -/
theorem fparamTrace_eq (fuel : Nat) (s : List UInt8) (n : Nat) (dev : UsmartDev)
    (hf : s.length < fuel) (hs : ShortCalls s) :
    fparamTrace fuel s n dev =
      (allStores (lex s).1 n dev, finish (lex s).2 (storeAll (lex s).1 n dev)) := by
  induction fuel generalizing s n dev with
  | zero => exact absurd hf (Nat.not_lt_zero _)
  | succ fuel ih =>
    have hr := aparmLoop_reads s 0 (.num [] false)
    obtain ⟨fparm, stop, ha⟩ : ∃ fparm stop, aparmLoop s false false .num [] 0 = (fparm, stop) :=
      ⟨_, _, rfl⟩
    rw [ha] at hr
    cases stop with
    | none =>
      obtain ⟨htoks, hnf, _⟩ : (lex s).1 = [] ∧ (∀ closed, (lex s).2 ≠ .fin closed) ∧ _ :=
        hr.unfinished rfl
      rw [htoks, finish_open hnf rfl, fparamTrace, usmartGetAparm, ha]
      rfl
    | some kp =>
      obtain ⟨k, type⟩ := kp
      by_cases hp : type = .err
      · subst hp
        obtain ⟨_, hk, hlex⟩ : _ ∧ _ ∧ lex s = _ := hr.illegal k rfl
        rw [hlex, fparamTrace, usmartGetAparm, ha]
        rfl
      · obtain ⟨_, hk, hlex⟩ : _ ∧ _ ∧ lex s = _ := hr.token k type rfl hp
        rw [Nat.sub_zero] at hlex
        have hkmod : k % 2 ^ 8 = k := Nat.mod_eq_of_lt (hs 0 fparm k type ha)
        rw [hlex, storeAll_append, allStores_append, ← storeParm_eq hp, ← parmStores_eq]
        rw [fparamTrace, usmartGetAparm, ha]
        simp only [Option.map_some, hkmod]
        by_cases hst : (storeParm type (cstr fparm) n dev).1 ≠ usmartOk
        · rw [if_pos hst, if_pos hst, if_pos hst, finish_fail _ hst, List.append_nil]
        · rw [if_neg hst, if_neg hst, if_neg hst]
          by_cases he : isEnd ((s.drop k).headD 0) = true
          · obtain ⟨d, rest, hdrop⟩ : ∃ d rest, s.drop k = d :: rest :=
              List.exists_cons_of_length_pos (by rw [List.length_drop]; omega)
            rw [hdrop, List.headD_cons] at he
            rw [hdrop, List.headD_cons, if_pos he, lex_end he, allStores, List.append_nil]
            rfl
          · have hpos : 0 < k := by
              by_contra hz
              have hzero : k = 0 := by omega
              subst hzero
              have := aparmLoop_progress (by simpa using he) ha hp
              omega
            have hshort : (s.drop k).length < fuel := by
              rw [List.length_drop]
              omega
            rw [if_neg he, ih (s.drop k) _ _ hshort (hs.drop k)]

/-! ## The function on a line -/

/-- The text behind the first `(` of a line. -/
def argText (line : List UInt8) : List UInt8 := (line.dropWhile (· ≠ 0x28)).tail

theorem argText_clean {line : List UInt8} (h0 : 0 ∉ line) : 0 ∉ argText line := fun h =>
  h0 ((List.dropWhile_sublist _).mem (List.mem_of_mem_tail h))

theorem argText_length (line : List UInt8) : (argText line).length ≤ line.length := by
  have h := (List.dropWhile_sublist (l := line) (· ≠ 0x28)).length_le
  rw [argText, List.length_tail]
  omega

theorem line_split {line : List UInt8} (h : 0x28 ∈ line) :
    ∃ pre, line = pre ++ 0x28 :: argText line ∧ 0x28 ∉ pre := by
  induction line with
  | nil => cases h
  | cons c line ih =>
    by_cases hc : c = 0x28
    · subst hc
      exact ⟨[], by simp [argText], List.not_mem_nil⟩
    · have hmem : 0x28 ∈ line := (List.mem_cons.mp h).resolve_left (Ne.symm hc)
      obtain ⟨pre, hsplit, hpre⟩ := ih hmem
      have htext : argText (c :: line) = argText line := by simp [argText, hc]
      refine ⟨c :: pre, by rw [htext, List.cons_append, ← hsplit], ?_⟩
      simpa [Ne.symm hc] using hpre

theorem skipToParen_open (s : List UInt8) : skipToParen (0x28 :: s) = .ok (some s) := by
  cases s <;> simp [skipToParen]

theorem skipToParen_skip {c d : UInt8} (hc : c ≠ 0x28) (hd : d ≠ 0) (s : List UInt8) :
    skipToParen (c :: d :: s) = skipToParen (d :: s) := by
  simp [skipToParen, hc, hd]

theorem skipToParen_found {pre : List UInt8} (rest : List UInt8) (hp : 0x28 ∉ pre)
    (h0 : 0 ∉ pre) : skipToParen (pre ++ 0x28 :: rest) = .ok (some rest) := by
  induction pre with
  | nil => exact skipToParen_open rest
  | cons c pre ih =>
    obtain ⟨hc, hp⟩ := List.ne_and_not_mem_of_not_mem_cons hp
    obtain ⟨_, h0⟩ := List.ne_and_not_mem_of_not_mem_cons h0
    cases pre with
    | nil =>
      rw [List.cons_append, List.nil_append, skipToParen_skip hc.symm (by decide),
        skipToParen_open]
    | cons d pre =>
      have hd : 0 ≠ d := (List.ne_and_not_mem_of_not_mem_cons h0).1
      rw [List.cons_append, List.cons_append, skipToParen_skip hc.symm hd.symm]
      exact ih hp h0

theorem skipToParen_line {line : List UInt8} (h0 : 0 ∉ line) (hp : 0x28 ∈ line)
    (behind : List UInt8) :
    skipToParen (line ++ 0 :: behind) = .ok (some (argText line ++ 0 :: behind)) := by
  obtain ⟨pre, hsplit, hpre⟩ := line_split hp
  conv_lhs => rw [hsplit]
  rw [List.append_assoc, List.cons_append]
  exact skipToParen_found _ hpre fun hm => h0 (hsplit ▸ List.mem_append_left _ hm)

/-- The call on a line with a `(` is the loop behind it. -/
theorem usmartGetFparam_trace {line : List UInt8} (h0 : 0 ∉ line) (hp : 0x28 ∈ line)
    (behind : List UInt8) (dev : UsmartDev) :
    (fparamStores (line ++ 0 :: behind) dev, usmartGetFparam (line ++ 0 :: behind) dev) =
      fparamTrace ((argText line ++ 0 :: behind).length + maxParm + 2)
        (argText line ++ 0 :: behind) 0 dev.clear := by
  unfold fparamStores usmartGetFparam
  rw [skipToParen_line h0 hp]
  dsimp only
  rw [← fparamTrace_loop]

/-- **`usmart_get_fparam` on a line** with a `(`, whatever lies behind its NUL. -/
theorem usmartGetFparam_eq {line : List UInt8} (h0 : 0 ∉ line) (hp : 0x28 ∈ line)
    (behind : List UInt8) (hlen : line.length + behind.length < 2 ^ 8 - 1) (dev : UsmartDev) :
    usmartGetFparam (line ++ 0 :: behind) dev =
      finish (lex (argText line ++ 0 :: behind)).2
        (storeAll (lex (argText line ++ 0 :: behind)).1 0 dev.clear) := by
  have htext := argText_length line
  have hshort : ShortCalls (argText line ++ 0 :: behind) := by
    refine .of_length ?_
    rw [List.length_append, List.length_cons]
    omega
  have htrace := usmartGetFparam_trace h0 hp behind dev
  rw [fparamTrace_eq _ _ _ _ (by omega) hshort] at htrace
  exact congrArg Prod.snd htrace

theorem usmartGetFparam_line {line : List UInt8} (h0 : 0 ∉ line) (hp : 0x28 ∈ line)
    (hlen : line.length ≤ 199) (dev : UsmartDev) :
    usmartGetFparam (cstr line) dev = finish (lex (cstr (argText line))).2
      (storeAll (lex (cstr (argText line))).1 0 dev.clear) :=
  usmartGetFparam_eq h0 hp [] (by rw [List.length_nil]; omega) dev

/-! ## When the tokens can be stored -/

/-- A number has digits the number parser takes. -/
def Tok.WellFormed : Tok → Prop
  | .num digits => (usmartStr2num (cstr digits)).1 = 0
  | .str _ => True

instance (t : Tok) : Decidable t.WellFormed := by
  cases t <;> unfold Tok.WellFormed <;> infer_instance

/-- A well-formed token is one store and one more argument. -/
theorem storeTok_stores {t : Tok} (hwf : t.WellFormed) (n : Nat) (dev : UsmartDev) :
    storeTok t n dev = countArg n (dev.writes (t.stores n dev)) := by
  cases t with
  | str bytes => rfl
  | num digits =>
    have hok : ¬ (usmartStr2num (cstr digits)).1 ≠ 0 := not_not_intro hwf
    unfold storeTok storeNum Tok.stores numStores
    dsimp only
    rw [if_neg hok, if_neg hok, UsmartDev.storeArg_write]

theorem storeTok_bad {t : Tok} (hwf : ¬ t.WellFormed) (n : Nat) (dev : UsmartDev) :
    storeTok t n dev = (usmartParmerr, n, dev) ∧ t.stores n dev = [] := by
  cases t with
  | str bytes => exact absurd trivial hwf
  | num digits => exact ⟨if_pos hwf, if_pos hwf⟩

/-- The status of one more argument: an ill-formed number, one too many, or stored. -/
theorem storeTok_sta (t : Tok) (n : Nat) (dev : UsmartDev) :
    (storeTok t n dev).1 =
      if t.WellFormed then if n + 1 > maxParm then usmartParmover else usmartOk
      else usmartParmerr := by
  by_cases hwf : t.WellFormed
  · rw [if_pos hwf, storeTok_stores hwf, countArg_eq]
  · rw [if_neg hwf, (storeTok_bad hwf n dev).1]

theorem storeTok_ok_iff (t : Tok) (n : Nat) (dev : UsmartDev) :
    (storeTok t n dev).1 = usmartOk ↔ t.WellFormed ∧ n + 1 ≤ maxParm := by
  have hover : ¬ usmartParmover = usmartOk := by decide
  have herr : ¬ usmartParmerr = usmartOk := by decide
  rw [storeTok_sta]
  split
  · rename_i hwf
    split
    · exact iff_of_false hover fun h => absurd h.2 (by omega)
    · exact iff_of_true rfl ⟨hwf, by omega⟩
  · rename_i hwf
    exact iff_of_false herr fun h => hwf h.1

theorem storeTok_count (t : Tok) {n : Nat} {dev : UsmartDev} (h : (storeTok t n dev).1 = usmartOk) :
    (storeTok t n dev).2.1 = n + 1 := by
  rw [storeTok_stores ((storeTok_ok_iff t n dev).mp h).1, countArg_eq]

/-- Storing succeeds when every number is well formed and at most `MAX_PARM`
arguments come together. -/
theorem storeAll_ok_iff (ts : List Tok) (n : Nat) (dev : UsmartDev) (hn : n ≤ maxParm) :
    (storeAll ts n dev).1 = usmartOk ↔ (∀ t ∈ ts, t.WellFormed) ∧ n + ts.length ≤ maxParm := by
  induction ts generalizing n dev with
  | nil => simp [storeAll, hn]
  | cons t ts ih =>
    rw [storeAll]
    by_cases hok : (storeTok t n dev).1 = usmartOk
    · obtain ⟨hwf, hle⟩ := (storeTok_ok_iff t n dev).mp hok
      rw [if_neg (not_not_intro hok), storeTok_count t hok, ih _ _ hle,
        List.forall_mem_cons, and_iff_right hwf, List.length_cons, Nat.add_assoc, Nat.add_comm 1]
    · rw [if_pos hok]
      refine iff_of_false hok fun h => hok ((storeTok_ok_iff t n dev).mpr ?_)
      rw [List.length_cons] at h
      exact ⟨h.1 t (List.mem_cons_self ..), by omega⟩

theorem storeAll_count {ts : List Tok} {n : Nat} {dev : UsmartDev}
    (h : (storeAll ts n dev).1 = usmartOk) : (storeAll ts n dev).2.1 = n + ts.length := by
  induction ts generalizing n dev with
  | nil => rfl
  | cons t ts ih =>
    rw [storeAll] at h ⊢
    by_cases hok : (storeTok t n dev).1 = usmartOk
    · rw [if_neg (not_not_intro hok)] at h ⊢
      rw [ih h, storeTok_count t hok, List.length_cons]
      omega
    · rw [if_pos hok] at h
      exact absurd h hok

/-- **What a successful `usmart_get_fparam` has read**: the tokens of the line, all
of which were stored. -/
theorem usmartGetFparam_ok {line : List UInt8} (h0 : 0 ∉ line) (hlen : line.length ≤ 199)
    (hp : 0x28 ∈ line) {dev : UsmartDev} {r : Fparam} (h : usmartGetFparam (cstr line) dev = .ok r)
    (hok : r.sta = usmartOk) :
    (lex (cstr (argText line))).2 = .fin true ∧
      (storeAll (lex (cstr (argText line))).1 0 dev.clear).1 = usmartOk ∧
      r.parn = some (lex (cstr (argText line))).1.length ∧
      r.dev = (storeAll (lex (cstr (argText line))).1 0 dev.clear).2.2 := by
  have heq := usmartGetFparam_line h0 hp hlen dev
  obtain ⟨hstore, hfin, rfl⟩ := finish_ok (heq.symm.trans h) hok
  refine ⟨hfin, hstore, ?_, rfl⟩
  dsimp only
  rw [storeAll_count hstore, Nat.zero_add]

end Generalplate.Usmart
