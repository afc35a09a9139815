import Generalplate.Lib.Fallible
import Generalplate.Usmart.Behind
import Generalplate.Usmart.Execute

/-! # The name buffers

Four functions write to buffers of `MAX_FNAME_LEN` bytes, and only
`usmart_get_cmdname` is told their length. On a line handled by `usmart_scan` a
buffer overflows when the name is too long, or the argument behind `hex`, `dec`
or `runtime` when the line gets that far. -/
namespace Generalplate.Usmart
open Lib.Fallible Lib.Transducer

/-! ## The text of one argument -/

/-- The first argument of a text, its digits or the bytes of its string; none when
the text ends in the string. -/
def argBytes : Bool → List UInt8 → Option (List UInt8)
  | _, [] => none
  | false, c :: s =>
    if isNumChar c then (argBytes false s).map (toUpper c :: ·)
    else if c = 0x22 then argBytes true s
    else if c = 0x20 then argBytes false s
    else some []
  | true, c :: s =>
    if c = 0x22 then some []
    else if c = 0x5c then
      match s with
      | [] => none
      | d :: s => (argBytes true s).map (d :: ·)
    else (argBytes true s).map (c :: ·)

/-- Behind a comma nothing more is written, up to the NUL at the latest. -/
theorem aparmLoop_behind_comma (s fparm : List UInt8) (i : Nat) :
    ∃ k p, aparmLoop (cstr s) true false .num fparm i = (fparm, some (k, p)) := by
  induction s generalizing i with
  | nil => exact ⟨i, .num, rfl⟩
  | cons c s ih =>
    rw [cstr_cons]
    by_cases hend : isEnd c = true
    · exact ⟨i, .num, aparmLoop_end _ hend⟩
    by_cases hnum : isNumChar c = true
    · exact ⟨i, .num, aparmLoop_digit_next hnum⟩
    by_cases hq : c = 0x22
    · subst hq
      exact ⟨i, .num, aparmLoop_quote_next⟩
    by_cases hc : c = 0x2c
    · subst hc
      rw [aparmLoop_comma]
      exact ih _
    by_cases hs : c = 0x20
    · subst hs
      rw [aparmLoop_blank]
      exact ih _
    · exact ⟨i, .err, aparmLoop_illegal (Bool.eq_false_iff.mpr hend) (Bool.eq_false_iff.mpr hnum)
        hq hc hs⟩

/-- Behind a string nothing more is written, up to the NUL at the latest. -/
theorem aparmLoop_behind_string (s fparm : List UInt8) (i : Nat) :
    ∃ k p, aparmLoop (cstr s) false false .str fparm i = (fparm, some (k, p)) := by
  induction s generalizing i with
  | nil => exact ⟨i, .str, rfl⟩
  | cons c s ih =>
    rw [cstr_cons]
    by_cases hend : isEnd c = true
    · exact ⟨i, .str, aparmLoop_end _ hend⟩
    by_cases hc : c = 0x2c
    · subst hc
      exact ⟨i, .str, aparmLoop_string_comma⟩
    · rw [aparmLoop_string_skip (Bool.eq_false_iff.mpr hend) hc]
      exact ih (i + 1)

/-- **What `usmart_get_aparm` writes** is the first argument. -/
theorem aparmLoop_bytes : ∀ (s : List UInt8) {string : Bool} (fparm w : List UInt8) (i : Nat),
    argBytes string (cstr s) = some w →
    ∃ k p, aparmLoop (cstr s) false string (if string then .str else .num) fparm i =
      (fparm ++ w, some (k, p))
  | [], false, fparm, w, i, h => by
    cases h
    exact ⟨i, .num, by rw [List.append_nil]; rfl⟩
  | [], true, _, _, _, h => by cases h
  | c :: s, false, fparm, w, i, h => by
    rw [cstr_cons] at h ⊢
    rw [argBytes] at h
    by_cases hnum : isNumChar c = true
    · obtain ⟨w', hw, rfl⟩ := Option.map_eq_some_iff.mp ((if_pos hnum).symm.trans h)
      have ih := aparmLoop_bytes s (fparm ++ [toUpper c]) w' (i + 1) hw
      rw [List.append_assoc] at ih
      rw [if_neg Bool.false_ne_true, aparmLoop_digit hnum]
      exact ih
    rw [if_neg hnum] at h
    by_cases hq : c = 0x22
    · subst hq
      rw [if_neg Bool.false_ne_true, aparmLoop_quote]
      exact aparmLoop_bytes s fparm w (i + 1) ((if_pos rfl).symm.trans h)
    rw [if_neg hq] at h
    by_cases hs : c = 0x20
    · subst hs
      rw [if_neg Bool.false_ne_true, aparmLoop_blank]
      exact aparmLoop_bytes s fparm w (i + 1) ((if_pos rfl).symm.trans h)
    rw [if_neg hs] at h
    cases h
    rw [List.append_nil, if_neg Bool.false_ne_true]
    by_cases hend : isEnd c = true
    · exact ⟨i, .num, aparmLoop_end _ hend⟩
    by_cases hc : c = 0x2c
    · subst hc
      rw [aparmLoop_comma]
      exact aparmLoop_behind_comma s fparm (i + 1)
    · exact ⟨i, .err, aparmLoop_illegal (Bool.eq_false_iff.mpr hend) (Bool.eq_false_iff.mpr hnum)
        hq hc hs⟩
  | c :: s, true, fparm, w, i, h => by
    rw [cstr_cons] at h ⊢
    rw [argBytes.eq_def] at h
    dsimp only at h
    by_cases hq : c = 0x22
    · subst hq
      cases (if_pos rfl).symm.trans h
      rw [List.append_nil, if_pos rfl, aparmLoop_unquote]
      exact aparmLoop_behind_string s fparm (i + 1)
    rw [if_neg hq] at h
    by_cases hb : c = 0x5c
    · subst hb
      rw [if_pos rfl] at h
      cases s with
      | nil => cases h
      | cons d s =>
        rw [cstr_cons] at h ⊢
        obtain ⟨w', hw, rfl⟩ := Option.map_eq_some_iff.mp h
        have ih := aparmLoop_bytes s (fparm ++ [d]) w' (i + 2) hw
        rw [List.append_assoc] at ih
        rw [if_pos rfl, aparmLoop_escape]
        exact ih
    rw [if_neg hb] at h
    obtain ⟨w', hw, rfl⟩ := Option.map_eq_some_iff.mp h
    have ih := aparmLoop_bytes s (fparm ++ [c]) w' (i + 1) hw
    rw [List.append_assoc] at ih
    rw [if_pos rfl, aparmLoop_copy hq hb]
    exact ih

/-- The same with more memory behind. -/
theorem usmartGetAparm_bytes {s w : List UInt8} (h : argBytes false (cstr s) = some w)
    (behind : List UInt8) :
    (usmartGetAparm (cstr s ++ behind)).1 = w ∧ (usmartGetAparm (cstr s ++ behind)).2 ≠ none := by
  obtain ⟨k, p, ha⟩ := aparmLoop_bytes s [] w 0 h
  have happ : aparmLoop (cstr s ++ behind) false false .num [] 0 = (w, some (k, p)) := by
    rw [aparmLoop_append _ _ _ (.num [] false)]
    · exact ha
    · rw [show (aparmLoop (cstr s) false false .num [] 0).2 = some (k, p) from congrArg Prod.snd ha]
      simp
  rw [usmartGetAparm, happ]
  exact ⟨rfl, by simp⟩

/-- A string that is open at the NUL goes on behind it. -/
theorem argBytes_open (t : List UInt8) : ∀ (s : List UInt8) {string : Bool},
    argBytes string (cstr s) = none →
    ∃ w, argBytes string (cstr s ++ t) = (argBytes true t).map (w ++ ·)
  | [], false, h => by cases h
  | [], true, _ => ⟨[0], by simp [cstr, argBytes.eq_def true (0 :: t)]⟩
  | c :: s, false, h => by
    rw [cstr_cons, argBytes] at h
    rw [cstr_cons, List.cons_append, argBytes]
    by_cases hnum : isNumChar c = true
    · rw [if_pos hnum] at h ⊢
      obtain ⟨w, hw⟩ := argBytes_open t s (Option.map_eq_none_iff.mp h)
      refine ⟨toUpper c :: w, ?_⟩
      rw [hw, Option.map_map]
      rfl
    rw [if_neg hnum] at h ⊢
    by_cases hq : c = 0x22
    · rw [if_pos hq] at h ⊢
      exact argBytes_open t s h
    rw [if_neg hq] at h ⊢
    by_cases hs : c = 0x20
    · rw [if_pos hs] at h ⊢
      exact argBytes_open t s h
    · rw [if_neg hs] at h
      cases h
  | c :: s, true, h => by
    rw [cstr_cons, argBytes.eq_def] at h
    rw [cstr_cons, List.cons_append, argBytes.eq_def]
    dsimp only at h ⊢
    by_cases hq : c = 0x22
    · rw [if_pos hq] at h
      cases h
    rw [if_neg hq] at h ⊢
    by_cases hb : c = 0x5c
    · rw [if_pos hb] at h ⊢
      cases s with
      | nil => exact ⟨[0], by simp [cstr]⟩
      | cons d s =>
        obtain ⟨w, hw⟩ := argBytes_open t s (Option.map_eq_none_iff.mp h)
        refine ⟨d :: w, ?_⟩
        rw [show cstr (d :: s) ++ t = d :: (cstr s ++ t) from rfl]
        dsimp only
        rw [hw, Option.map_map]
        rfl
    rw [if_neg hb] at h ⊢
    obtain ⟨w, hw⟩ := argBytes_open t s (Option.map_eq_none_iff.mp h)
    refine ⟨c :: w, ?_⟩
    rw [hw, Option.map_map]
    rfl

theorem argBytes_fill (t : List UInt8) (n : Nat) :
    argBytes true (List.replicate n 0x61 ++ 0x22 :: t) = some (List.replicate n 0x61) := by
  induction n with
  | zero => simp [argBytes.eq_def true (0x22 :: t)]
  | succ n ih =>
    rw [List.replicate_succ, List.cons_append, argBytes.eq_def]
    simp [ih]

/-! ## Writes to the buffers -/

theorem nameBuf_ok {n : Nat} (h : n ≤ maxFnameLen) : nameBuf n = .ok () := if_pos h

theorem nameBuf_over {n : Nat} (h : maxFnameLen < n) : nameBuf n = .error .nameOverflow :=
  if_neg (Nat.not_le_of_lt h)

/-- The name a line has fits. -/
def NameFits (line : List UInt8) : Prop :=
  (nameText false (fnameStart (cstr line))).length < maxFnameLen

/-- The first word is a command that reads an argument. -/
def TakesArg (line : List UInt8) : Prop :=
  line.takeWhile (· ≠ 0x20) ∈ [text "hex", text "dec", text "runtime"]

/-- The argument behind the first word fits, and is not a string open at the NUL. -/
def ArgFits (line : List UInt8) : Prop :=
  ∃ w, argBytes false (cstr (line.dropWhile (· ≠ 0x20))) = some w ∧ w.length < maxFnameLen

/-- The line is a call that `usmart_cmd_rec` accepts. -/
def Recognised (funs : List Nametab) (line : List UInt8) (dev : UsmartDev) : Prop :=
  ∃ dev', usmartCmdRec funs (cstr line) dev = .ok (usmartOk, dev')

variable {funs : List Nametab} {line behind : List UInt8} {dev : UsmartDev}

theorem getFname_fits {str : List UInt8} (h : (usmartGetFname str).fname.length < maxFnameLen) :
    getFname str = .ok (usmartGetFname str) := by
  rw [getFname, nameBuf_ok h]
  rfl

theorem getFname_over {str : List UInt8} (h : ¬ (usmartGetFname str).fname.length < maxFnameLen) :
    getFname str = .error .nameOverflow := by
  rw [getFname, nameBuf_over (by omega)]
  rfl

theorem usmartGetFname_name (hlen : line.length ≤ 199) :
    (usmartGetFname (line ++ 0 :: behind)).fname = nameText false (fnameStart (cstr line)) := by
  have hstart : (fnameStart (cstr line)).length ≤ 200 := by
    have hle : (fnameStart (cstr line)).length ≤ (cstr line).length := by
      rw [fnameStart]
      split
      · rw [List.length_drop]
        omega
      · exact Nat.le_refl _
    rw [length_cstr] at hle
    omega
  rw [usmartGetFname_behind (by omega)]
  exact fnameLoop_fname _ .init rfl rfl (by omega)

/-! ## Calls -/

theorem skipToParen_avoids : ∀ str : List UInt8, Avoids .nameOverflow (skipToParen str)
  | [] => avoids_error (by decide)
  | [c] => .ite (fun _ => avoids_ok _) fun _ => avoids_error (by decide)
  | c :: d :: str => .ite (fun _ => avoids_ok _) fun _ =>
      .ite (fun _ => avoids_ok _) fun _ => skipToParen_avoids (d :: str)

theorem fparamLoop_avoids (fuel : Nat) (str : List UInt8) (n : Nat) (dev : UsmartDev) :
    Avoids .nameOverflow (fparamLoop fuel str n dev) := by
  induction fuel generalizing str n dev with
  | zero => exact avoids_error (by decide)
  | succ fuel ih =>
    rw [fparamLoop]
    dsimp only
    split
    · exact avoids_error (by decide)
    · exact .ite (fun _ => avoids_ok _) fun _ => .ite (fun _ => avoids_ok _) fun _ => ih _ _ _

theorem usmartGetFparam_avoids (str : List UInt8) (dev : UsmartDev) :
    Avoids .nameOverflow (usmartGetFparam str dev) := by
  have hskip := skipToParen_avoids str
  unfold usmartGetFparam
  split
  · rename_i e he
    exact avoids_error fun heq => hskip (heq ▸ he)
  · exact avoids_ok _
  · exact fparamLoop_avoids _ _ _ _

/-- The prototypes of the table have names that fit. -/
def TableFits (funs : List Nametab) : Prop :=
  ∀ e ∈ funs, (usmartGetFname (cstr e.name)).fname.length < maxFnameLen

theorem getFname_avoids {str : List UInt8} (h : (usmartGetFname str).fname.length < maxFnameLen) :
    Avoids .nameOverflow (getFname str) := by
  rw [getFname_fits h]
  exact avoids_ok _

theorem cmdSearch_avoids (rfname : List UInt8) (rpnum i : Nat) (h : TableFits funs) :
    Avoids .nameOverflow (cmdSearch rfname rpnum funs i) := by
  induction funs generalizing i with
  | nil => exact avoids_ok _
  | cons e funs ih =>
    obtain ⟨he, h⟩ := List.forall_mem_cons.mp h
    refine (getFname_avoids he).bind fun s _ => ?_
    exact .ite (fun _ => avoids_ok _) fun _ => .ite
      (fun _ => .ite (fun _ => avoids_ok _) fun _ => avoids_ok _) fun _ => ih _ h

theorem usmartCmdRec_avoids (hfuns : TableFits funs) {str : List UInt8}
    (hname : (usmartGetFname str).fname.length < maxFnameLen) (dev : UsmartDev) :
    Avoids .nameOverflow (usmartCmdRec funs str dev) := by
  refine (getFname_avoids hname).bind fun r _ => .ite (fun _ => avoids_ok _) fun _ => ?_
  refine (cmdSearch_avoids _ _ _ hfuns).bind fun found _ => ?_
  cases found with
  | inl sta => exact avoids_ok _
  | inr i =>
    refine (usmartGetFparam_avoids _ _).bind fun p _ => ?_
    cases p.parn <;> exact avoids_ok _

theorem usmartExe_avoids (hfuns : TableFits funs) (parmAddr : Nat) (dev : UsmartDev) :
    Avoids .nameOverflow (usmartExe funs parmAddr dev) := by
  unfold usmartExe
  split
  · exact avoids_ok _
  · rename_i e he
    refine (getFname_avoids (hfuns e (List.mem_of_getElem? he))).bind fun r _ => ?_
    exact .ite (fun _ => avoids_error (by decide)) fun _ =>
      .ite (fun _ => avoids_ok _) fun _ => avoids_ok _

/-! ## System commands -/

theorem sysArg_fits {s w : List UInt8} (h : argBytes false (cstr s) = some w)
    (hlen : w.length < maxFnameLen) : Avoids .nameOverflow (sysArg (cstr s ++ behind)) := by
  obtain ⟨hw, hsome⟩ := usmartGetAparm_bytes h behind
  have hbuf : nameBuf ((usmartGetAparm (cstr s ++ behind)).1.length +
      if (usmartGetAparm (cstr s ++ behind)).2.isSome then 1 else 0) = .ok () := by
    refine nameBuf_ok ?_
    rw [hw]
    split <;> omega
  rw [sysArg, hbuf]
  refine (avoids_ok ()).bind fun _ _ => ?_
  split
  · exact avoids_error (by decide)
  · exact avoids_ok _
  · exact avoids_ok _

theorem sysArg_over {s w : List UInt8} (h : argBytes false (cstr s) = some w)
    (hlen : ¬ w.length < maxFnameLen) (behind : List UInt8) :
    sysArg (cstr s ++ behind) = .error .nameOverflow := by
  obtain ⟨hw, hsome⟩ := usmartGetAparm_bytes h behind
  have hbuf : nameBuf ((usmartGetAparm (cstr s ++ behind)).1.length +
      if (usmartGetAparm (cstr s ++ behind)).2.isSome then 1 else 0) = .error .nameOverflow := by
    refine nameBuf_over ?_
    rw [hw, if_pos (Option.isSome_iff_ne_none.mpr hsome)]
    omega
  rw [sysArg, hbuf]
  rfl

/-- The commands with an argument. -/
def ArgIndex (i : Nat) : Prop := i = 4 ∨ i = 5 ∨ i = 6

theorem sysSwitch_avoids (hfuns : TableFits funs) {i : Nat} {str : List UInt8}
    (harg : ArgIndex i → Avoids .nameOverflow (sysArg str)) (dev : UsmartDev) :
    Avoids .nameOverflow (sysSwitch funs i str dev) := by
  have hshow : ∀ type, ArgIndex i → Avoids .nameOverflow (sysShow type str dev) := by
    intro type hi
    refine (harg hi).bind fun r _ => ?_
    split <;> exact avoids_ok _
  unfold sysSwitch
  split
  · exact avoids_ok _
  · exact avoids_ok _
  · exact avoids_ok _
  · refine (avoids_forM fun e he => ?_).bind fun _ _ => avoids_ok _
    exact (getFname_avoids (hfuns e he)).bind fun _ _ => avoids_ok _
  · exact hshow _ (Or.inl rfl)
  · exact hshow _ (Or.inr (Or.inl rfl))
  · refine (harg (Or.inr (Or.inr rfl))).bind fun r _ => ?_
    split <;> exact avoids_ok _
  · exact avoids_ok _

theorem sysSwitch_over {i : Nat} (hi : ArgIndex i) {str : List UInt8}
    (harg : sysArg str = .error .nameOverflow) (dev : UsmartDev) :
    sysSwitch funs i str dev = .error .nameOverflow := by
  rcases hi with rfl | rfl | rfl
  · rw [sysSwitch, sysShow, harg]
    rfl
  · rw [sysSwitch, sysShow, harg]
    rfl
  · rw [sysSwitch, harg]
    rfl

/-- The index of the first word among the commands. -/
def sysIndex (line : List UInt8) : Nat :=
  sysCmdTab.findIdx fun name => usmartStrcmp (cstr (line.takeWhile (· ≠ 0x20))) (cstr name) = 0

theorem sysIndex_arg_iff (h0 : 0 ∉ line) : ArgIndex (sysIndex line) ↔ TakesArg line := by
  have hword : 0 ∉ line.takeWhile (· ≠ 0x20) := fun h => h0 ((List.takeWhile_sublist _).mem h)
  have hclean : ∀ name ∈ sysCmdTab, 0 ∉ name := by decide +kernel
  have hfound : ∀ i (hi : i < sysCmdTab.length), sysIndex line = i →
      line.takeWhile (· ≠ 0x20) = sysCmdTab[i] := by
    intro i hi hidx
    subst hidx
    have hcmp : decide (usmartStrcmp (cstr (line.takeWhile (· ≠ 0x20)))
        (cstr sysCmdTab[sysIndex line]) = 0) = true := List.findIdx_getElem (w := hi)
    exact (usmartStrcmp_eq_zero_iff hword (hclean _ (List.getElem_mem hi))).mp
      (of_decide_eq_true hcmp)
  constructor
  · rintro (h | h | h)
    · rw [TakesArg, hfound 4 (by decide) h]
      decide
    · rw [TakesArg, hfound 5 (by decide) h]
      decide
    · rw [TakesArg, hfound 6 (by decide) h]
      decide
  · intro h
    rw [TakesArg, List.mem_cons, List.mem_cons, List.mem_singleton] at h
    rcases h with h | h | h
    · rw [sysIndex, h]
      exact Or.inl (by decide +kernel)
    · rw [sysIndex, h]
      exact Or.inr (Or.inl (by decide +kernel))
    · rw [sysIndex, h]
      exact Or.inr (Or.inr (by decide +kernel))

theorem usmartSysCmdExe_eq (h0 : 0 ∉ line) (behind : List UInt8) (dev : UsmartDev) :
    usmartSysCmdExe funs (line ++ 0 :: behind) dev =
      if (line.takeWhile (· ≠ 0x20)).length < maxFnameLen then
        sysSwitch funs (sysIndex line) (line.dropWhile (· ≠ 0x20) ++ 0 :: behind) dev
      else .ok (usmartFuncerr, dev) := by
  have hname : usmartGetCmdname maxFnameLen (line ++ 0 :: behind) [] =
      if (line.takeWhile (· ≠ 0x20)).length < maxFnameLen then
        (0, line.takeWhile (· ≠ 0x20), (line.takeWhile (· ≠ 0x20)).length)
      else (1, (line.takeWhile (· ≠ 0x20)).take maxFnameLen, maxFnameLen) :=
    usmartGetCmdname_eq line [] h0 (by decide)
  have hrest : (line ++ 0 :: behind).drop (line.takeWhile (· ≠ 0x20)).length =
      line.dropWhile (· ≠ 0x20) ++ 0 :: behind := by
    have hsplit : line ++ 0 :: behind =
        line.takeWhile (· ≠ 0x20) ++ (line.dropWhile (· ≠ 0x20) ++ 0 :: behind) := by
      rw [← List.append_assoc, List.takeWhile_append_dropWhile]
    conv_lhs => rw [hsplit]
    exact List.drop_left
  rw [usmartSysCmdExe, hname]
  split
  · rename_i hlt
    dsimp only
    rw [nameBuf_ok (by rw [if_pos rfl]; omega), hrest]
    rfl
  · rename_i hlong
    have htake : ((line.takeWhile (· ≠ 0x20)).take maxFnameLen).length = maxFnameLen := by
      rw [List.length_take]
      omega
    dsimp only
    rw [htake]
    rfl

/-! ## The line -/

/-- Behind the NUL of a line whose argument is open: so many characters, the end of
the string, and an argument that is illegal. -/
def spill : List UInt8 := List.replicate maxFnameLen 0x61 ++ [0x22, 0x2c, 0x28]

theorem run_fill (acc t : List UInt8) (n : Nat) :
    run next (.str acc) (List.replicate n 0x61 ++ t) =
      run next (.str (acc ++ List.replicate n 0x61)) t := by
  induction n generalizing acc with
  | zero => rw [List.replicate_zero, List.nil_append, List.append_nil]
  | succ n ih =>
    have hcopy : next (.str acc) 0x61 = ([], .str (acc ++ [0x61])) := by simp [next]
    rw [List.replicate_succ, List.cons_append, run_silent hcopy, ih, List.append_assoc]
    rfl

/-- An open string ends there, at an illegal argument. -/
theorem run_spill (acc : List UInt8) :
    ∃ toks, run next (.str acc) (cstr spill) = (toks, .fin false) := by
  refine ⟨[.str (acc ++ List.replicate maxFnameLen 0x61)], ?_⟩
  rw [cstr, spill, List.append_assoc, run_fill]
  simp [run_cons, next, isEnd, isNumChar]

/-- Behind a line that `usmart_get_fparam` does not accept, it returns an error. -/
theorem usmartGetFparam_spill (dev : UsmartDev) (h0 : 0 ∉ line) (hp : 0x28 ∈ line)
    (hlen : line.length ≤ 199)
    (hnot : ∀ r, usmartGetFparam (cstr line) dev = .ok r → r.sta ≠ usmartOk) :
    ∃ r, usmartGetFparam (line ++ 0 :: cstr spill) dev = .ok r ∧ r.sta ≠ usmartOk := by
  have hline := usmartGetFparam_line h0 hp hlen dev
  have hspill : (cstr spill).length = 34 := by decide
  have heq := usmartGetFparam_eq h0 hp (cstr spill) (by omega) dev
  have htext : argText line ++ 0 :: cstr spill = cstr (argText line) ++ cstr spill := by simp [cstr]
  rw [htext, lex, run_append, ← lex] at heq
  rcases lex_nul_mode (argText line) with ⟨closed, hm⟩ | ⟨acc, hm⟩
  · -- the arguments have ended in the line
    rw [hm, run_fin, List.append_nil] at heq
    rw [hm] at hline
    obtain ⟨r, hr, _⟩ := finish_fin closed (storeAll (lex (cstr (argText line))).1 0 dev.clear)
    exact ⟨r, heq.trans hr, hnot r (hline.trans hr)⟩
  · obtain ⟨toks, hrun⟩ := run_spill acc
    rw [hm, hrun] at heq
    obtain ⟨r, hr, hsta⟩ :=
      finish_fin false (storeAll ((lex (cstr (argText line))).1 ++ toks) 0 dev.clear)
    exact ⟨r, heq.trans hr, fun h => absurd (hsta h) Bool.false_ne_true⟩

theorem cmdSearch_total (rfname : List UInt8) (rpnum i : Nat) (h : TableFits funs) :
    ∃ found, cmdSearch rfname rpnum funs i = .ok found := by
  induction funs generalizing i with
  | nil => exact ⟨_, rfl⟩
  | cons e funs ih =>
    obtain ⟨he, h⟩ := List.forall_mem_cons.mp h
    obtain ⟨found, hfound⟩ := ih (i + 1) h
    rw [cmdSearch, getFname_fits he]
    simp only [bind, Except.bind]
    split
    · exact ⟨_, rfl⟩
    · split
      · split <;> exact ⟨_, rfl⟩
      · exact ⟨found, hfound⟩

/-- **The lines that are recognised**: the name fits, the parentheses match, a function of the
table has that name and not more parameters, and the arguments come to their end, are well formed
and not too many. -/
theorem recognised_iff (h0 : 0 ∉ line) (hlen : line.length ≤ 199) :
    Recognised funs line dev ↔ NameFits line ∧ (usmartGetFname (cstr line)).res = usmartOk ∧
      (∃ i, cmdSearch (usmartGetFname (cstr line)).fname (usmartGetFname (cstr line)).pnum funs 0 =
        .ok (.inr i)) ∧
      (lex (cstr (argText line))).2 = .fin true ∧ ¬ StopsEarly line := by
  have hstore : ∀ i, (storeAll (lex (cstr (argText line))).1 0 { dev with id := i }.clear).1 =
      usmartOk ↔ ¬ StopsEarly line := by
    intro i
    rw [storeAll_ok_iff _ 0 _ (Nat.zero_le _), Nat.zero_add, not_stopsEarly_iff]
  constructor
  · rintro ⟨dev', h⟩
    obtain ⟨hget, hres, i, p, parn, hfound, hp, hparn, -⟩ := usmartCmdRec_parts h
    have hok : p.sta = usmartOk := (usmartGetFparam_sta hp).mpr (by rw [hparn]; simp)
    obtain ⟨hfin, hstored, -⟩ := usmartGetFparam_ok h0 hlen (usmartGetFname_accept hres) hp hok
    refine ⟨?_, hres, ⟨i, hfound⟩, hfin, (hstore i).mp hstored⟩
    by_contra hlong
    have hover : getFname (line ++ 0 :: []) = .error .nameOverflow :=
      getFname_over (by rw [usmartGetFname_name hlen]; exact hlong)
    cases hover.symm.trans hget
  · rintro ⟨hname, hres, ⟨i, hfound⟩, hfin, hstop⟩
    have hget : getFname (line ++ 0 :: []) = .ok (usmartGetFname (line ++ 0 :: [])) :=
      getFname_fits (by rw [usmartGetFname_name hlen]; exact hname)
    have hp := usmartGetFparam_line h0 (usmartGetFname_accept hres) hlen { dev with id := i }
    rw [hfin, finish_closed ((hstore i).mpr hstop)] at hp
    exact ⟨_, usmartCmdRec_eq hget hres hfound hp⟩

/-- A line that is not recognised is rejected with the spill behind it. -/
theorem usmartCmdRec_spill (hfuns : TableFits funs) (h0 : 0 ∉ line) (hlen : line.length ≤ 199)
    (hname : NameFits line) (hnot : ¬ Recognised funs line dev) :
    ∃ sta dev', usmartCmdRec funs (line ++ 0 :: cstr spill) dev = .ok (sta, dev') ∧
      sta ≠ usmartOk := by
  have hsame : usmartGetFname (line ++ 0 :: cstr spill) = usmartGetFname (cstr line) :=
    usmartGetFname_behind (by omega)
  have hget : ∀ behind, getFname (line ++ 0 :: behind) =
      .ok (usmartGetFname (line ++ 0 :: behind)) := fun behind =>
    getFname_fits (by rw [usmartGetFname_name hlen]; exact hname)
  by_cases hres : (usmartGetFname (line ++ 0 :: cstr spill)).res = usmartOk
  · obtain ⟨found, hfound⟩ := cmdSearch_total (usmartGetFname (line ++ 0 :: cstr spill)).fname
      (usmartGetFname (line ++ 0 :: cstr spill)).pnum 0 hfuns
    cases found with
    | inl sta =>
      refine ⟨sta, dev, ?_, cmdSearch_fail hfound⟩
      rw [usmartCmdRec, hget]
      refine (if_neg (not_not_intro hres)).trans ?_
      rw [hfound]
      rfl
    | inr i =>
      have hres' := hres
      have hfound' := hfound
      rw [hsame] at hres' hfound'
      obtain ⟨r, hr, hsta⟩ := usmartGetFparam_spill { dev with id := i } h0
        (usmartGetFname_accept hres') hlen fun r hr hok => hnot (by
          obtain ⟨parn, hparn⟩ := Option.ne_none_iff_exists'.mp ((usmartGetFparam_sta hr).mp hok)
          have hcmd : usmartCmdRec funs (cstr line) dev = _ :=
            usmartCmdRec_eq (hget []) hres' hfound' hr
          rw [hparn] at hcmd
          exact ⟨_, hcmd⟩)
      have hnone : r.parn = none := not_not.mp (mt (usmartGetFparam_sta hr).mpr hsta)
      refine ⟨r.sta, r.dev, ?_, hsta⟩
      rw [usmartCmdRec_eq (hget _) hres hfound hr, hnone]
  · refine ⟨_, dev, ?_, hres⟩
    rw [usmartCmdRec, hget]
    exact if_pos hres

/-- A recognised line is recognised whatever lies behind it. -/
theorem usmartCmdRec_behind (h0 : 0 ∉ line) (hlen : line.length ≤ 199) {dev' : UsmartDev}
    (h : usmartCmdRec funs (cstr line) dev = .ok (usmartOk, dev')) (behind : List UInt8) :
    usmartCmdRec funs (line ++ 0 :: behind) dev = .ok (usmartOk, dev') := by
  obtain ⟨hget, hres, i, p, parn, hfound, hp, hparn, rfl⟩ := usmartCmdRec_parts h
  have hsame : usmartGetFname (line ++ 0 :: behind) = usmartGetFname (cstr line) :=
    usmartGetFname_behind (by omega)
  have hget' : getFname (line ++ 0 :: behind) = .ok (usmartGetFname (line ++ 0 :: behind)) := by
    rw [getFname, hsame]
    exact hget
  rw [usmartCmdRec_eq hget' (by rw [hsame, hres]) (by rw [hsame, hfound])
    (usmartGetFparam_behind h0 (usmartGetFname_accept hres) hp), hparn]

theorem TakesArg.short (h : TakesArg line) :
    (line.takeWhile (· ≠ 0x20)).length < maxFnameLen := by
  have hall : ∀ word ∈ [text "hex", text "dec", text "runtime"], word.length < maxFnameLen := by
    decide +kernel
  exact hall _ h

/-- An argument that does not fit overflows the buffer with the spill behind it. -/
theorem sysArg_spill (h : ¬ ArgFits line) :
    sysArg (line.dropWhile (· ≠ 0x20) ++ 0 :: cstr spill) = .error .nameOverflow := by
  have hcstr : line.dropWhile (· ≠ 0x20) ++ 0 :: cstr spill =
      cstr (line.dropWhile (· ≠ 0x20)) ++ cstr spill := by
    simp [cstr]
  rw [hcstr]
  cases hbytes : argBytes false (cstr (line.dropWhile (· ≠ 0x20))) with
  | some w => exact sysArg_over hbytes (fun hlt => h ⟨w, hbytes, hlt⟩) _
  | none =>
    obtain ⟨w, hw⟩ := argBytes_open (cstr spill) _ hbytes
    have hfill : argBytes true (cstr spill) = some (List.replicate maxFnameLen 0x61) :=
      argBytes_fill [0x2c, 0x28, 0] maxFnameLen
    have hmem : cstr (line.dropWhile (· ≠ 0x20)) ++ cstr spill =
        cstr (cstr (line.dropWhile (· ≠ 0x20)) ++ spill) := by
      simp [cstr]
    rw [hfill, Option.map_some, hmem] at hw
    have hover := sysArg_over hw (by simp) []
    rwa [List.append_nil, ← hmem] at hover

/-- **When the name buffers are enough**, whatever lies behind the line: the name is
short, and behind a command that reads an argument so is the argument, or the line
is a call that is recognised. -/
theorem usmartScanLine_fits_iff (hfuns : TableFits funs) (parmAddr : Nat) (h0 : 0 ∉ line)
    (hlen : line.length ≤ 199) (dev : UsmartDev) :
    (∀ behind, usmartScanLine funs parmAddr (line ++ 0 :: behind) dev ≠ .error .nameOverflow) ↔
      NameFits line ∧ (TakesArg line → ArgFits line ∨ Recognised funs line dev) := by
  constructor
  · intro h
    have hname : NameFits line := by
      by_contra hlong
      refine h [] ?_
      have hover : getFname (line ++ 0 :: []) = .error .nameOverflow :=
        getFname_over (by rw [usmartGetFname_name hlen]; exact hlong)
      rw [usmartScanLine, usmartCmdRec, hover]
      rfl
    refine ⟨hname, fun htakes => ?_⟩
    by_contra hnot
    obtain ⟨harg, hrec⟩ := not_or.mp hnot
    obtain ⟨sta, dev', heq, hsta⟩ := usmartCmdRec_spill hfuns h0 hlen hname hrec
    refine h (cstr spill) ?_
    have hsys : usmartSysCmdExe funs (line ++ 0 :: cstr spill) dev' = .error .nameOverflow := by
      rw [usmartSysCmdExe_eq h0, if_pos htakes.short]
      exact sysSwitch_over ((sysIndex_arg_iff h0).mpr htakes) (sysArg_spill harg) dev'
    rw [usmartScanLine, heq]
    refine (if_neg hsta).trans ?_
    rw [hsys]
    rfl
  · rintro ⟨hname, harg⟩ behind
    have hfits : (usmartGetFname (line ++ 0 :: behind)).fname.length < maxFnameLen := by
      rw [usmartGetFname_name hlen]
      exact hname
    refine (usmartCmdRec_avoids hfuns hfits dev).bind fun r hr => ?_
    obtain ⟨sta, dev'⟩ := r
    refine .ite (fun _ => (usmartExe_avoids hfuns parmAddr dev').bind fun _ _ => avoids_ok _) ?_
    intro hsta
    have hsys : Avoids .nameOverflow (usmartSysCmdExe funs (line ++ 0 :: behind) dev') := by
      rw [usmartSysCmdExe_eq h0]
      refine .ite (fun _ => sysSwitch_avoids hfuns (fun hi => ?_) dev') fun _ => avoids_ok _
      rcases harg ((sysIndex_arg_iff h0).mp hi) with ⟨w, hw, hlt⟩ | ⟨dev'', hrec⟩
      · have hfit : Avoids .nameOverflow
            (sysArg (cstr (line.dropWhile (· ≠ 0x20)) ++ behind)) := sysArg_fits hw hlt
        rwa [cstr, List.append_assoc] at hfit
      · rw [usmartCmdRec_behind h0 hlen hrec] at hr
        cases hr
        exact absurd rfl hsta
    exact hsys.bind fun _ _ => avoids_ok _

/-- On `hex 255` they are. -/
theorem usmartScanLine_fits_iff_board :
    (∀ behind, usmartScanLine usmartNametab usmartParmAddr (text "hex 255" ++ 0 :: behind)
        usmartDev ≠ .error .nameOverflow) ↔
      NameFits (text "hex 255") ∧ (TakesArg (text "hex 255") → ArgFits (text "hex 255") ∨
        Recognised usmartNametab (text "hex 255") usmartDev) :=
  usmartScanLine_fits_iff (by unfold TableFits; decide +kernel) usmartParmAddr (by decide +kernel)
    (by decide +kernel) usmartDev

set_option maxRecDepth 4000 in
/-- A word of 40 characters overflows the buffer of the name; a number of 30 digits
behind `dec`, with a space in it so that the name is short, that of the command. -/
theorem usmartScanLine_overflows :
    usmartScanLine usmartNametab usmartParmAddr (cstr (List.replicate 40 0x61)) usmartDev =
        .error .nameOverflow ∧
      usmartScanLine usmartNametab usmartParmAddr
        (cstr (text "dec 111111111111111 111111111111111")) usmartDev = .error .nameOverflow :=
  ⟨rfl, rfl⟩

end Generalplate.Usmart
