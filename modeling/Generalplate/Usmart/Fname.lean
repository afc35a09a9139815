import Generalplate.Usmart.Str

/-! # The function name of a line

`usmart_get_fname` reads a prototype or a typed call: whether the function
returns a value, the name, and how many parameters the parentheses hold. It
keeps its own depth of parentheses and toggles a flag at every quote; commas and
parameter characters are counted whether or not the flag is set. -/
namespace Generalplate.Usmart

def voidText : List UInt8 := text "void"

/-- The first loop: at most five characters of the return type, the fifth only
when it is a star. `pcnt` is 0X80 plus the number of them once there is one. -/
def fnameType : List UInt8 → List UInt8 → List UInt8
  | [], fpname => fpname
  | c :: str, fpname =>
    if c = 0 then fpname
    else if c ≠ 0x20 ∧ fpname.length < 5 then
      if fpname.length = 4 ∧ c ≠ 0x2a then fpname else fnameType str (fpname ++ [c])
    else if fpname.length = 5 then fpname
    else fnameType str fpname

/-- `*rval`: not written when the line has no character but spaces. -/
def fnameRval (str : List UInt8) : Option Nat :=
  let fpname := fnameType str []
  if fpname = [] then none
  else if usmartStrcmp (cstr fpname) (cstr voidText) = 0 then some 0 else some 1

/-- The second loop: the offset of the last space or star in front of the name. -/
def fnameOffset : List UInt8 → Nat → Nat → Nat
  | [], _, offset => offset
  | c :: str, res, offset =>
    if c = 0x28 ∨ c = 0 then offset
    else
      let res := (res + 1) % 2 ^ 8
      let offset :=
        if str.headD 0 = 0x20 ∨ str.headD 0 = 0x2a then
          let nchar := usmartSearchNextc str
          if nchar ≠ 0x28 ∧ nchar ≠ 0x2a then res else offset
        else offset
      fnameOffset str res offset

/-- Where the third loop starts. -/
def fnameStart (str : List UInt8) : List UInt8 :=
  let offset := fnameOffset str 0 0
  if offset ≠ 0 then str.drop (offset + 1) else str

/-- The variables of the third loop; `fplcnt` is the length of `fpname`. -/
structure Fname where
  fover : Nat
  nchar : Bool
  temp : Nat
  parmnum : Nat
  pcnt : Nat
  fpname : List UInt8
  fname : List UInt8
deriving DecidableEq, Repr

def Fname.init : Fname := ⟨0, false, 1, 0, 0, [], []⟩

/-- A character inside the parentheses: a comma starts the next parameter, any
other but a space or `(` belongs to one. -/
def Fname.record (st : Fname) (c : UInt8) : Fname :=
  if c = 0x2c then { st with temp := 1, pcnt := (st.pcnt + 1) % 2 ^ 8 }
  else if c ≠ 0x20 ∧ c ≠ 0x28 then
    { st with
      fpname := if st.pcnt = 0 ∧ st.fpname.length < 5 then st.fpname ++ [c] else st.fpname
      temp := (st.temp + 1) % 2 ^ 8 }
  else st

/-- The first character of a parameter at depth 1 counts it. -/
def Fname.count (st : Fname) : Fname :=
  if st.fover = 1 ∧ st.temp = 2 then
    { st with temp := (st.temp + 1) % 2 ^ 8, parmnum := (st.parmnum + 1) % 2 ^ 8 }
  else st

/-- The second half of a pass, by the depth reached. -/
def Fname.take (st : Fname) (c : UInt8) : Fname :=
  if st.fover = 0 then if c ≠ 0x20 then { st with fname := st.fname ++ [c] } else st
  else (st.record c).count

/-- The first half of a pass: parentheses outside quotes change the depth, a
quote toggles the flag. -/
def Fname.nest (st : Fname) (c : UInt8) : Fname :=
  if c = 0x28 ∧ st.nchar = false then { st with fover := (st.fover + 1) % 2 ^ 8 }
  else if c = 0x29 ∧ st.nchar = false then
    { st with fover := if st.fover ≠ 0 then st.fover - 1 else st.fover }
  else if c = 0x22 then { st with nchar := !st.nchar }
  else st

/-- One pass of the third loop: a status that ends it, or none, and the variables. -/
def Fname.pass (st : Fname) (c : UInt8) : Option Nat × Fname :=
  if c = 0 then (some usmartFuncerr, st)
  else if c = 0x29 ∧ st.nchar = false ∧ (st.nest c).fover = 0 then
    (some (if st.fover ≠ 0 then usmartOk else usmartFuncerr), st.nest c)
  else (none, (st.nest c).take c)

/-- The third loop. -/
def fnameLoop : List UInt8 → Fname → Nat × Fname
  | [], st => (usmartFuncerr, st)
  | c :: str, st =>
    match st.pass c with
    | (some res, st) => (res, st)
    | (none, st) => fnameLoop str st

/-- What `usmart_get_fname` returns and writes. -/
structure FnameRes where
  res : Nat
  fname : List UInt8
  pnum : Nat
  rval : Option Nat
deriving DecidableEq, Repr

def usmartGetFname (str : List UInt8) : FnameRes :=
  let r := fnameLoop (fnameStart str) .init
  let st := r.2
  let pnum :=
    if st.parmnum = 1 ∧ usmartStrcmp (cstr st.fpname) (cstr voidText) = 0 then 0 else st.parmnum
  ⟨r.1, st.fname, pnum, fnameRval str⟩

/-! ## The name -/

/-- What a line names: its characters other than spaces up to the first
parenthesis outside quotes; `quoted` is the quote flag. -/
def nameText : Bool → List UInt8 → List UInt8
  | _, [] => []
  | quoted, c :: s =>
    if c = 0 ∨ ((c = 0x28 ∨ c = 0x29) ∧ quoted = false) then []
    else
      (if c ≠ 0x20 then [c] else []) ++ nameText (if c = 0x22 then !quoted else quoted) s

/-- The quote flag behind a text. -/
def quoteFlag (quoted : Bool) (s : List UInt8) : Bool :=
  s.foldl (fun quoted c => if c = 0x22 then !quoted else quoted) quoted

@[simp] theorem Fname.record_fname (st : Fname) (c : UInt8) : (st.record c).fname = st.fname := by
  simp only [Fname.record]
  split
  · rfl
  · split <;> rfl

@[simp] theorem Fname.record_fover (st : Fname) (c : UInt8) : (st.record c).fover = st.fover := by
  simp only [Fname.record]
  split
  · rfl
  · split <;> rfl

@[simp] theorem Fname.record_nchar (st : Fname) (c : UInt8) : (st.record c).nchar = st.nchar := by
  simp only [Fname.record]
  split
  · rfl
  · split <;> rfl

@[simp] theorem Fname.count_fname (st : Fname) : st.count.fname = st.fname := by
  simp only [Fname.count]
  split <;> rfl

@[simp] theorem Fname.count_fover (st : Fname) : st.count.fover = st.fover := by
  simp only [Fname.count]
  split <;> rfl

@[simp] theorem Fname.count_nchar (st : Fname) : st.count.nchar = st.nchar := by
  simp only [Fname.count]
  split <;> rfl

@[simp] theorem Fname.take_fover (st : Fname) (c : UInt8) : (st.take c).fover = st.fover := by
  simp only [Fname.take]
  split
  · split <;> rfl
  · simp

theorem Fname.take_fname_in {st : Fname} (h : st.fover ≠ 0) (c : UInt8) :
    (st.take c).fname = st.fname := by
  simp [Fname.take, h]

theorem fnameLoop_stop {st st' : Fname} {c : UInt8} {res : Nat} (h : st.pass c = (some res, st'))
    (s : List UInt8) : fnameLoop (c :: s) st = (res, st') := by
  simp only [fnameLoop, h]

theorem fnameLoop_go {st st' : Fname} {c : UInt8} (h : st.pass c = (none, st')) (s : List UInt8) :
    fnameLoop (c :: s) st = fnameLoop s st' := by
  simp only [fnameLoop, h]

@[simp] theorem Fname.nest_fname (st : Fname) (c : UInt8) : (st.nest c).fname = st.fname := by
  simp only [Fname.nest]
  split
  · rfl
  · split
    · rfl
    · split <;> rfl

/-- A pass inside the parentheses keeps the name, and goes on inside them. -/
theorem Fname.pass_in {st : Fname} (h : 0 < st.fover) (hlt : st.fover + 1 < 2 ^ 8) (c : UInt8) :
    (st.pass c).2.fname = st.fname ∧
      ((st.pass c).1 = none → 0 < (st.pass c).2.fover ∧ (st.pass c).2.fover ≤ st.fover + 1) := by
  have hdepth : (st.nest c).fover ≤ st.fover + 1 ∧
      ((st.nest c).fover = 0 → c = 0x29 ∧ st.nchar = false) := by
    simp only [Fname.nest]
    split
    · exact ⟨Nat.mod_le _ _, fun hz => by dsimp only at hz; omega⟩
    · split
      · rename_i hclose
        exact ⟨by dsimp only; split <;> omega, fun _ => hclose⟩
      · split
        · exact ⟨Nat.le_succ _, fun hz => absurd hz (by dsimp only; omega)⟩
        · exact ⟨Nat.le_succ _, fun hz => absurd hz (by omega)⟩
  simp only [Fname.pass]
  split
  · exact ⟨rfl, fun hn => by cases hn⟩
  split
  · exact ⟨st.nest_fname c, fun hn => by cases hn⟩
  · rename_i hgo
    have hne : (st.nest c).fover ≠ 0 := fun hz =>
      hgo ⟨(hdepth.2 hz).1, (hdepth.2 hz).2, hz⟩
    dsimp only
    rw [Fname.take_fname_in hne, Fname.nest_fname, Fname.take_fover]
    exact ⟨rfl, fun _ => ⟨Nat.pos_of_ne_zero hne, hdepth.1⟩⟩

/-- Inside the parentheses the name is complete. -/
theorem fnameLoop_fname_in (s : List UInt8) (st : Fname) (h : 0 < st.fover)
    (hlen : st.fover + s.length < 2 ^ 8) : (fnameLoop s st).2.fname = st.fname := by
  induction s generalizing st with
  | nil => rfl
  | cons c s ih =>
    rw [List.length_cons] at hlen
    obtain ⟨hname, hfover⟩ := st.pass_in h (by omega) c
    obtain ⟨r, st', hp⟩ : ∃ r st', st.pass c = (r, st') := ⟨_, _, rfl⟩
    rw [hp] at hname hfover
    cases r with
    | some res => rw [fnameLoop_stop hp, hname]
    | none =>
      obtain ⟨hpos, hle⟩ := hfover rfl
      dsimp only at hpos hle
      rw [fnameLoop_go hp, ih _ hpos (by omega), hname]

/-- A pass in front of the parentheses: `(` opens them, `)` is an error, any other
character belongs to the name unless it is a space. -/
theorem Fname.pass_out {st : Fname} (h : st.fover = 0) (ht : st.temp = 1) {c : UInt8} (hc : c ≠ 0) :
    (c = 0x28 ∧ st.nchar = false ∧ st.pass c = (none, { st with fover := 1 })) ∨
    (c = 0x29 ∧ st.nchar = false ∧ st.pass c = (some usmartFuncerr, st)) ∨
    (¬ ((c = 0x28 ∨ c = 0x29) ∧ st.nchar = false) ∧
      st.pass c = (none, { st with
        nchar := if c = 0x22 then !st.nchar else st.nchar
        fname := st.fname ++ if c ≠ 0x20 then [c] else [] })) := by
  obtain ⟨fover, nchar, temp, parmnum, pcnt, fpname, fname⟩ := st
  subst h ht
  by_cases hopen : c = 0x28 ∧ nchar = false
  · obtain ⟨rfl, rfl⟩ := hopen
    exact Or.inl ⟨rfl, rfl, rfl⟩
  by_cases hclose : c = 0x29 ∧ nchar = false
  · obtain ⟨rfl, rfl⟩ := hclose
    exact Or.inr (Or.inl ⟨rfl, rfl, rfl⟩)
  · refine Or.inr (Or.inr ⟨?_, ?_⟩)
    · rintro ⟨rfl | rfl, hq⟩
      · exact hopen ⟨rfl, hq⟩
      · exact hclose ⟨rfl, hq⟩
    · have hstay : ∀ q : Prop, ¬ (c = 0x29 ∧ nchar = false ∧ q) := fun _ hx => hclose ⟨hx.1, hx.2.1⟩
      simp only [Fname.pass, if_neg hc, if_neg (hstay _), Fname.nest, if_neg hopen, if_neg hclose,
        Fname.take]
      by_cases hq : c = 0x22
      · simp [hq]
      · by_cases hs : c = 0x20 <;> simp [hq, hs]

/-- The name written is the name the line has. -/
theorem fnameLoop_fname (s : List UInt8) (st : Fname) (h : st.fover = 0) (ht : st.temp = 1)
    (hlen : s.length < 2 ^ 8 - 1) :
    (fnameLoop s st).2.fname = st.fname ++ nameText st.nchar s := by
  induction s generalizing st with
  | nil => exact (List.append_nil _).symm
  | cons c s ih =>
    rw [List.length_cons] at hlen
    by_cases hc : c = 0
    · have hp : st.pass c = (some usmartFuncerr, st) := by rw [Fname.pass, if_pos hc]
      rw [fnameLoop_stop hp, nameText, if_pos (Or.inl hc), List.append_nil]
    rw [nameText]
    rcases Fname.pass_out h ht hc with ⟨hx, hq, hp⟩ | ⟨hx, hq, hp⟩ | ⟨hx, hp⟩
    · rw [fnameLoop_go hp, fnameLoop_fname_in _ _ (Nat.lt_succ_self 0) (by dsimp only; omega),
        if_pos (Or.inr ⟨Or.inl hx, hq⟩), List.append_nil]
    · rw [fnameLoop_stop hp, if_pos (Or.inr ⟨Or.inr hx, hq⟩), List.append_nil]
    · have hgo : ¬ (c = 0 ∨ ((c = 0x28 ∨ c = 0x29) ∧ st.nchar = false)) := not_or.mpr ⟨hc, hx⟩
      rw [fnameLoop_go hp, ih, if_neg hgo, List.append_assoc]
      · exact h
      · exact ht
      · omega

/-- The name of an accepted line is passed without a `)`; the quotes in it toggle
the flag. -/
theorem fnameLoop_pass_name {rest : List UInt8} (pre : List UInt8) (st : Fname)
    (h : st.fover = 0) (ht : st.temp = 1) (h0 : 0 ∉ pre) (hp : 0x28 ∉ pre)
    (hok : (fnameLoop (pre ++ rest) st).1 = usmartOk) :
    ∃ name, fnameLoop (pre ++ rest) st =
      fnameLoop rest { st with nchar := quoteFlag st.nchar pre, fname := name } := by
  induction pre generalizing st with
  | nil => exact ⟨st.fname, rfl⟩
  | cons c pre ih =>
    obtain ⟨hc, h0⟩ := List.ne_and_not_mem_of_not_mem_cons h0
    obtain ⟨hcp, hp⟩ := List.ne_and_not_mem_of_not_mem_cons hp
    rw [List.cons_append] at hok ⊢
    rcases Fname.pass_out h ht (Ne.symm hc) with ⟨hx, _, _⟩ | ⟨_, _, hpass⟩ | ⟨_, hpass⟩
    · exact absurd hx.symm hcp
    · rw [fnameLoop_stop hpass] at hok
      cases hok
    · rw [fnameLoop_go hpass] at hok ⊢
      exact ih _ h ht h0 hp hok

/-- The second loop stops in front of the first `(` or the NUL. -/
theorem fnameOffset_lt {d : UInt8} (hd : d = 0x28 ∨ d = 0) {rest : List UInt8}
    (pre : List UInt8) {res offset bound : Nat} (hb : res + pre.length = bound)
    (hlt : bound < 2 ^ 8) (h : offset = 0 ∨ offset < bound) :
    fnameOffset (pre ++ d :: rest) res offset = 0 ∨
      fnameOffset (pre ++ d :: rest) res offset < bound := by
  induction pre generalizing res offset with
  | nil =>
    rw [List.nil_append, fnameOffset, if_pos hd]
    exact h
  | cons c pre ih =>
    rw [List.length_cons] at hb
    rw [List.cons_append, fnameOffset]
    split
    · exact h
    have hmod : (res + 1) % 2 ^ 8 = res + 1 := Nat.mod_eq_of_lt (by omega)
    rw [hmod]
    refine ih (by omega) ?_
    cases pre with
    | nil =>
      have hno : ¬ (d = 0x20 ∨ d = 0x2a) := by
        rcases hd with rfl | rfl <;> decide
      simpa [hno] using h
    | cons e pre =>
      rw [List.length_cons] at hb
      dsimp only
      split
      · split
        · exact Or.inr (by omega)
        · exact h
      · exact h

/-- The characters in front of the name. -/
def nameSkip (str : List UInt8) : Nat :=
  if fnameOffset str 0 0 ≠ 0 then fnameOffset str 0 0 + 1 else 0

/-- The third loop starts in front of the first `(` or the NUL. -/
theorem fnameStart_split {d : UInt8} (hd : d = 0x28 ∨ d = 0) {pre : List UInt8}
    (hlen : pre.length < 2 ^ 8) (rest : List UInt8) :
    fnameStart (pre ++ d :: rest) = pre.drop (nameSkip (pre ++ d :: rest)) ++ d :: rest := by
  have hle : nameSkip (pre ++ d :: rest) ≤ pre.length := by
    unfold nameSkip
    split
    · rename_i hz
      exact (fnameOffset_lt hd pre (Nat.zero_add _) hlen (Or.inl rfl)).resolve_left hz
    · exact Nat.zero_le _
  rw [← List.drop_append_of_le_length hle, fnameStart, nameSkip]
  split <;> rfl

/-- A line that is accepted has a `(`. -/
theorem fnameLoop_accept (s : List UInt8) (st : Fname) (h : st.fover = 0) (ht : st.temp = 1)
    (hok : (fnameLoop s st).1 = usmartOk) : 0x28 ∈ s := by
  induction s generalizing st with
  | nil => cases hok
  | cons c s ih =>
    by_cases hc : c = 0
    · have hp : st.pass c = (some usmartFuncerr, st) := by rw [Fname.pass, if_pos hc]
      rw [fnameLoop_stop hp] at hok
      cases hok
    rcases Fname.pass_out h ht hc with ⟨hx, _, _⟩ | ⟨_, _, hp⟩ | ⟨_, hp⟩
    · exact hx ▸ List.mem_cons_self ..
    · rw [fnameLoop_stop hp] at hok
      cases hok
    · rw [fnameLoop_go hp] at hok
      refine List.mem_cons_of_mem _ (ih _ ?_ ?_ hok)
      · exact h
      · exact ht

theorem usmartGetFname_accept {line : List UInt8}
    (h : (usmartGetFname (cstr line)).res = usmartOk) : 0x28 ∈ line := by
  have hmem : (0x28 : UInt8) ∈ fnameStart (cstr line) := fnameLoop_accept _ .init rfl rfl h
  have hline : (0x28 : UInt8) ∈ cstr line := by
    simp only [fnameStart] at hmem
    split at hmem
    · exact List.mem_of_mem_drop hmem
    · exact hmem
  simpa [cstr] using hline

end Generalplate.Usmart
