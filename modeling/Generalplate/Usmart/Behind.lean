import Generalplate.Usmart.Cmd

/-! # Behind the NUL

`usmart_get_fname` and `usmart_get_cmdname` stop at the NUL of a line, so what
lies behind it makes no difference. `usmart_get_fparam` can read on; when it
returns within the line, it returns the same whatever lies behind. When it goes on
in a string that is open at the NUL, it stores one argument more than were typed. -/
namespace Generalplate.Usmart
open Lib.Transducer Lib.ByteMem

variable {behind : List UInt8}

/-! ## The name -/

theorem fnameType_behind (s fpname : List UInt8) :
    fnameType (s ++ 0 :: behind) fpname = fnameType (cstr s) fpname := by
  induction s generalizing fpname with
  | nil =>
    rw [List.nil_append, cstr, List.nil_append, fnameType, fnameType, if_pos rfl, if_pos rfl]
  | cons c s ih =>
    simp only [List.cons_append, cstr, fnameType] at ih ⊢
    rw [ih, ih]

theorem head_behind (s : List UInt8) : (s ++ 0 :: behind).headD 0 = (cstr s).headD 0 := by
  cases s <;> rfl

theorem dropWhile_behind (s : List UInt8) :
    ((s ++ 0 :: behind).dropWhile (· = 0x20)).headD 0 =
      ((cstr s).dropWhile (· = 0x20)).headD 0 := by
  induction s with
  | nil => rfl
  | cons c s ih =>
    by_cases hc : c = 0x20
    · simpa [cstr, List.dropWhile_cons, hc] using ih
    · simp [cstr, hc]

theorem fnameOffset_behind (s : List UInt8) (res offset : Nat) :
    fnameOffset (s ++ 0 :: behind) res offset = fnameOffset (cstr s) res offset := by
  induction s generalizing res offset with
  | nil =>
    rw [List.nil_append, cstr, List.nil_append, fnameOffset, fnameOffset, if_pos (Or.inr rfl),
      if_pos (Or.inr rfl)]
  | cons c s ih =>
    rw [List.cons_append, cstr_cons, fnameOffset, fnameOffset, head_behind]
    have hnext : (cstr s).headD 0 = 0x20 ∨ (cstr s).headD 0 = 0x2a →
        usmartSearchNextc (s ++ 0 :: behind) = usmartSearchNextc (cstr s) := by
      cases s with
      | nil => exact fun h => absurd h (by decide)
      | cons d s => exact fun _ => dropWhile_behind s
    split
    · rfl
    · dsimp only
      split
      · rename_i hblank
        rw [hnext hblank, ih]
      · exact ih _ _

theorem fnameLoop_behind (s : List UInt8) (st : Fname) :
    fnameLoop (s ++ 0 :: behind) st = fnameLoop (cstr s) st := by
  induction s generalizing st with
  | nil =>
    have hpass : st.pass 0 = (some usmartFuncerr, st) := if_pos rfl
    rw [List.nil_append, cstr, List.nil_append, fnameLoop_stop hpass, fnameLoop_stop hpass]
  | cons c s ih =>
    rw [List.cons_append, cstr_cons]
    obtain ⟨r, st', hpass⟩ : ∃ r st', st.pass c = (r, st') := ⟨_, _, rfl⟩
    cases r with
    | some res => rw [fnameLoop_stop hpass, fnameLoop_stop hpass]
    | none => rw [fnameLoop_go hpass, fnameLoop_go hpass, ih]

theorem usmartGetFname_behind {line : List UInt8} (hlen : line.length < 2 ^ 8) :
    usmartGetFname (line ++ 0 :: behind) = usmartGetFname (cstr line) := by
  have hskip : nameSkip (line ++ 0 :: behind) = nameSkip (cstr line) := by
    rw [nameSkip, nameSkip, fnameOffset_behind]
  have hrval : fnameRval (line ++ 0 :: behind) = fnameRval (cstr line) := by
    rw [fnameRval, fnameRval, fnameType_behind]
  have hcstr : fnameStart (cstr line) = cstr (line.drop (nameSkip (cstr line))) :=
    fnameStart_split (Or.inr rfl) hlen []
  have hline : fnameStart (line ++ 0 :: behind) =
      line.drop (nameSkip (cstr line)) ++ 0 :: behind := by
    rw [fnameStart_split (Or.inr rfl) hlen, hskip]
  rw [usmartGetFname, usmartGetFname, hrval, hline, hcstr, fnameLoop_behind]

/-! ## The arguments -/

/-- A scan that stops in front of the end of the memory. -/
theorem aparmLoop_append : ∀ (s t : List UInt8) {m : Mode} {enout string : Bool} {type : Ptype}
    {fparm : List UInt8} (i : Nat), Scans m enout string type fparm →
    (aparmLoop s enout string type fparm i).2 ≠ none →
    aparmLoop (s ++ t) enout string type fparm i = aparmLoop s enout string type fparm i
  | [], _, _, _, _, _, _, _, _, h => absurd rfl h
  | c :: s, t, m, enout, string, type, fparm, i, hscan, h => by
    rw [List.cons_append]
    cases hscan.step c with
    | stop _ _ hloop | reject _ hloop => rw [hloop, hloop]
    | go _ hscan hloop =>
      rw [hloop] at h
      rw [hloop, hloop]
      exact aparmLoop_append s t (i + 1) hscan h
    | escape _ hend hloop =>
      cases s with
      | nil => exact absurd (congrArg Prod.snd (hend i)) h
      | cons d s =>
        rw [hloop] at h
        rw [List.cons_append, hloop, hloop]
        exact aparmLoop_append s t (i + 2) (.str _) h

/-- A loop that returns within the memory, with more behind it and more fuel. -/
theorem fparamTrace_append {t : List UInt8} {fuel more : Nat} {s : List UInt8} {n : Nat}
    {dev : UsmartDev} {r : Fparam} (h : (fparamTrace fuel s n dev).2 = .ok r) :
    fparamTrace (fuel + more) (s ++ t) n dev = fparamTrace fuel s n dev := by
  induction fuel generalizing s n dev with
  | zero => cases h
  | succ fuel ih =>
    rw [Nat.succ_add]
    obtain ⟨fparm, stop, ha⟩ : ∃ fparm stop, aparmLoop s false false .num [] 0 = (fparm, stop) :=
      ⟨_, _, rfl⟩
    rw [fparamTrace, usmartGetAparm, ha] at h
    cases stop with
    | none => cases h
    | some kp =>
      obtain ⟨k, p⟩ := kp
      have happ : aparmLoop (s ++ t) false false .num [] 0 = (fparm, some (k, p)) := by
        rw [aparmLoop_append s t 0 (.num [] false) (by simp [ha]), ha]
      have hk : k % 2 ^ 8 < s.length := Nat.lt_of_le_of_lt (Nat.mod_le _ _) (aparmLoop_lt ha)
      have hdrop : (s ++ t).drop (k % 2 ^ 8) = s.drop (k % 2 ^ 8) ++ t :=
        List.drop_append_of_le_length (Nat.le_of_lt hk)
      obtain ⟨d, rest, hrest⟩ : ∃ d rest, s.drop (k % 2 ^ 8) = d :: rest :=
        List.exists_cons_of_length_pos (by rw [List.length_drop]; omega)
      rw [fparamTrace, fparamTrace, usmartGetAparm, usmartGetAparm, happ, ha]
      simp only [Option.map_some, hdrop, hrest, List.cons_append, List.headD_cons] at h ⊢
      split
      · rfl
      rename_i hok
      rw [if_neg hok] at h
      split
      · rfl
      rename_i hend
      rw [if_neg hend] at h
      rw [← List.cons_append, ih h]

theorem usmartGetFparam_trace_behind {line : List UInt8} (h0 : 0 ∉ line) (hp : 0x28 ∈ line)
    {dev : UsmartDev} {r : Fparam} (h : usmartGetFparam (cstr line) dev = .ok r) :
    (fparamStores (line ++ 0 :: behind) dev, usmartGetFparam (line ++ 0 :: behind) dev) =
      (fparamStores (cstr line) dev, usmartGetFparam (cstr line) dev) := by
  have hline := usmartGetFparam_trace h0 hp [] dev
  have hsame : argText line ++ 0 :: behind = argText line ++ 0 :: [] ++ behind := by simp
  have hfuel : (argText line ++ 0 :: [] ++ behind).length + maxParm + 2 =
      (argText line ++ 0 :: []).length + maxParm + 2 + behind.length := by
    rw [List.length_append]
    omega
  have hret := congrArg Prod.snd hline
  rw [usmartGetFparam_trace h0 hp, hsame, hfuel, fparamTrace_append (hret.symm.trans h)]
  exact hline.symm

/-- **`usmart_get_fparam`** returns the same when it returns within the line. -/
theorem usmartGetFparam_behind {line : List UInt8} (h0 : 0 ∉ line) (hp : 0x28 ∈ line)
    {dev : UsmartDev} {r : Fparam} (h : usmartGetFparam (cstr line) dev = .ok r) :
    usmartGetFparam (line ++ 0 :: behind) dev = .ok r :=
  (congrArg Prod.snd (usmartGetFparam_trace_behind h0 hp h)).trans h

/-- It stores the same then. -/
theorem fparamStores_behind {line : List UInt8} (h0 : 0 ∉ line) (hp : 0x28 ∈ line)
    {dev : UsmartDev} {r : Fparam} (h : usmartGetFparam (cstr line) dev = .ok r) :
    fparamStores (line ++ 0 :: behind) dev = fparamStores (cstr line) dev :=
  congrArg Prod.fst (usmartGetFparam_trace_behind h0 hp h)

/-! ## A string open at the NUL -/

theorem usmartGetCmdname_eq {maxlen : Nat} (line cmdname : List UInt8) (h0 : 0 ∉ line)
    (hlen : cmdname.length < maxlen) :
    usmartGetCmdname maxlen (line ++ 0 :: behind) cmdname =
      let word := cmdname ++ line.takeWhile (· ≠ 0x20)
      if word.length < maxlen then (0, word, word.length) else (1, word.take maxlen, maxlen) := by
  induction line generalizing cmdname with
  | nil => simp [usmartGetCmdname, hlen]
  | cons c line ih =>
    obtain ⟨hc, h0⟩ := List.ne_and_not_mem_of_not_mem_cons h0
    rw [List.cons_append, usmartGetCmdname]
    by_cases hs : c = 0x20
    · simp [hs, hlen]
    have hword : (c :: line).takeWhile (· ≠ 0x20) = c :: line.takeWhile (· ≠ 0x20) := by simp [hs]
    rw [if_pos ⟨hs, Ne.symm hc⟩, hword]
    dsimp only
    by_cases hmax : (cmdname ++ [c]).length ≥ maxlen
    · have heq : (cmdname ++ [c]).length = maxlen := by
        rw [List.length_append, List.length_singleton] at hmax ⊢
        omega
      have hlong : ¬ (cmdname ++ c :: line.takeWhile (· ≠ 0x20)).length < maxlen := by
        rw [List.length_append, List.length_cons]
        rw [List.length_append, List.length_singleton] at heq
        omega
      have htake : (cmdname ++ c :: line.takeWhile (· ≠ 0x20)).take maxlen = cmdname ++ [c] := by
        rw [List.append_cons, ← heq, List.take_left]
      rw [if_pos hmax, if_neg hlong, htake, heq]
    · rw [if_neg hmax, ih _ h0 (Nat.lt_of_not_le hmax), List.append_assoc]
      rfl

end Generalplate.Usmart
