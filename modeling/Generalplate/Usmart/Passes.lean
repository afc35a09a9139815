import Generalplate.Usmart.Returns

/-! # The passes of the argument loop

The loop of `usmart_get_fparam` has no counter: it goes on from where the scanner
stopped. On a text in which no string is open at the NUL every call of the scanner
stops in the text, and one that does not end the loop has moved the cursor. -/
namespace Generalplate.Usmart
open Lib.Transducer

/-- How a pass ends: the loop returns, or goes on. -/
inductive Pass where
  | done (r : Fparam)
  | go (str : List UInt8) (n : Nat) (dev : UsmartDev)

/-- The body of the loop. -/
def fparamPass (str : List UInt8) (n : Nat) (dev : UsmartDev) : Except Fault Pass :=
  let a := usmartGetAparm str
  match a.2 with
  | none => .error .pastEnd
  | some (i, type) =>
    let str := str.drop i
    let r := storeParm type (cstr a.1) n dev
    if r.1 ≠ usmartOk then .ok (.done ⟨r.1, none, r.2.2⟩)
    else if isEnd (str.headD 0) then .ok (.done ⟨usmartOk, some r.2.1, r.2.2⟩)
    else .ok (.go str r.2.1 r.2.2)

theorem fparamLoop_pass (fuel : Nat) (s : List UInt8) (n : Nat) (dev : UsmartDev) :
    fparamLoop (fuel + 1) s n dev =
      match fparamPass s n dev with
      | .error e => .error e
      | .ok (.done r) => .ok r
      | .ok (.go s n dev) => fparamLoop fuel s n dev := by
  rw [fparamLoop]
  unfold fparamPass
  dsimp only
  cases (usmartGetAparm s).2 with
  | none => rfl
  | some kp =>
    dsimp only
    split
    · rfl
    split <;> rfl

/-- The loop on `text` comes to the start of a pass with the cursor at `s`. -/
inductive Reached (text : List UInt8) (dev : UsmartDev) : List UInt8 → Nat → UsmartDev → Prop
  | start : Reached text dev text 0 dev
  | pass {s s' : List UInt8} {n n' : Nat} {d d' : UsmartDev} : Reached text dev s n d →
      fparamPass s n d = .ok (.go s' n' d') → Reached text dev s' n' d'

/-- No string is open at the end of the text, and its offsets fit a u8. -/
structure Closed (s : List UInt8) : Prop where
  fin : ∃ closed, (lex s).2 = .fin closed
  short : s.length < 2 ^ 8

/-- What a call of the scanner does for the loop: it stops in the text, and it has moved
the cursor, or is at the end of the arguments, or at an illegal character. -/
structure Advances (s : List UInt8) (k : Nat) (type : Ptype) : Prop where
  inside : k < s.length
  fits : k < 2 ^ 8
  moves : 0 < k ∨ isEnd ((s.drop k).headD 0) = true ∨ type = .err

/-- **One call.** -/
theorem Closed.scan {s : List UInt8} (h : Closed s) :
    ∃ fparm k type, aparmLoop s false false .num [] 0 = (fparm, some (k, type)) ∧
      Advances s k type ∧ (type ≠ .err → Closed (s.drop k)) := by
  have hr := aparmLoop_reads s 0 (.num [] false)
  obtain ⟨fparm, stop, ha⟩ : ∃ fparm stop, aparmLoop s false false .num [] 0 = (fparm, stop) :=
    ⟨_, _, rfl⟩
  rw [ha] at hr
  cases stop with
  | none =>
    obtain ⟨closed, hfin⟩ := h.fin
    exact absurd hfin ((hr.unfinished rfl).2.1 closed)
  | some kp =>
    obtain ⟨k, type⟩ := kp
    have hk := aparmLoop_lt ha
    refine ⟨fparm, k, type, ha, ⟨hk, Nat.lt_trans hk h.short, ?_⟩, ?_⟩
    · by_cases hpos : 0 < k
      · exact Or.inl hpos
      have hzero : k = 0 := Nat.eq_zero_of_not_pos hpos
      subst hzero
      by_cases he : isEnd (s.headD 0) = true
      · exact Or.inr (Or.inl he)
      · refine Or.inr (Or.inr ?_)
        by_contra hp
        exact hpos (aparmLoop_progress (Bool.eq_false_iff.mpr he) ha hp)
    · intro hp
      obtain ⟨_, _, hlex⟩ : _ ∧ _ ∧ lex s = _ := hr.token k type rfl hp
      refine ⟨?_, ?_⟩
      · have hfin := h.fin
        rw [hlex, Nat.sub_zero] at hfin
        exact hfin
      · rw [List.length_drop]
        exact Nat.lt_of_le_of_lt (Nat.sub_le ..) h.short

/-- The scanner's result as the loop sees it. -/
theorem usmartGetAparm_fits {s fparm : List UInt8} {k : Nat} {type : Ptype}
    (ha : aparmLoop s false false .num [] 0 = (fparm, some (k, type))) (hk : k < 2 ^ 8) :
    usmartGetAparm s = (fparm, some (k, type)) := by
  rw [usmartGetAparm, ha]
  simp only [Option.map_some, Nat.mod_eq_of_lt hk]

/-- **One pass** returns, or goes on with less of a text that is closed like this one. -/
theorem Closed.pass {s : List UInt8} (h : Closed s) (n : Nat) (dev : UsmartDev) :
    (∃ r, fparamPass s n dev = .ok (.done r)) ∨
      ∃ s' n' dev', fparamPass s n dev = .ok (.go s' n' dev') ∧ Closed s' ∧
        s'.length < s.length := by
  obtain ⟨fparm, k, type, ha, hadv, hrest⟩ := h.scan
  unfold fparamPass
  rw [usmartGetAparm_fits ha hadv.fits]
  dsimp only
  by_cases hst : (storeParm type (cstr fparm) n dev).1 ≠ usmartOk
  · rw [if_pos hst]
    exact Or.inl ⟨_, rfl⟩
  by_cases he : isEnd ((s.drop k).headD 0) = true
  · rw [if_neg hst, if_pos he]
    exact Or.inl ⟨_, rfl⟩
  have htype : type ≠ .err := by
    rintro rfl
    exact hst (show ¬ usmartParmerr = usmartOk by decide)
  have hpos : 0 < k := by
    rcases hadv.moves with hpos | hend | herr
    · exact hpos
    · exact absurd hend he
    · exact absurd herr htype
  rw [if_neg hst, if_neg he]
  refine Or.inr ⟨_, _, _, rfl, hrest htype, ?_⟩
  have hin := hadv.inside
  rw [List.length_drop]
  omega

/-- The loop returns: what is left of the text is the measure. -/
theorem fparamLoop_returns {fuel : Nat} {s : List UInt8} (h : Closed s) (hfuel : s.length < fuel)
    (n : Nat) (dev : UsmartDev) : ∃ r, fparamLoop fuel s n dev = .ok r := by
  induction fuel generalizing s n dev with
  | zero => exact absurd hfuel (Nat.not_lt_zero _)
  | succ fuel ih =>
    rw [fparamLoop_pass]
    rcases h.pass n dev with ⟨r, hdone⟩ | ⟨s', n', dev', hgo, hclosed, hless⟩
    · rw [hdone]
      exact ⟨r, rfl⟩
    · rw [hgo]
      exact ih hclosed (by omega) n' dev'

theorem Reached.closed {text s : List UInt8} {dev d : UsmartDev} {n : Nat}
    (h : Reached text dev s n d) (htext : Closed text) : Closed s := by
  induction h with
  | start => exact htext
  | @pass s s' n n' d d' _ hpass ih =>
    rcases ih.pass n d with ⟨r, hdone⟩ | ⟨t, m, e, hgo, hclosed, _⟩
    · rw [hdone] at hpass
      cases hpass
    · rw [hgo] at hpass
      cases hpass
      exact hclosed

/-- The text behind the `(` of a line with no string open at its NUL. -/
theorem closed_line {line : List UInt8} (hlen : line.length ≤ 199)
    (hclosed : ¬ StringOpen line) : Closed (cstr (argText line)) := by
  refine ⟨?_, ?_⟩
  · rcases lex_nul_mode (argText line) with hfin | hopen
    · exact hfin
    · exact absurd hopen hclosed
  · have htext := argText_length line
    rw [length_cstr]
    omega

/-- **The argument loop ends**: `usmart_get_fparam` returns with no read behind the NUL,
and at every cursor it comes to the scanner advances, by an offset that fits its u8. -/
theorem usmartGetFparam_progress {line : List UInt8} (h0 : 0 ∉ line) (hlen : line.length ≤ 199)
    (hp : 0x28 ∈ line) (hclosed : ¬ StringOpen line) (dev : UsmartDev) :
    (∃ r, usmartGetFparam (cstr line) dev = .ok r) ∧
      ∀ s n d, Reached (cstr (argText line)) dev.clear s n d →
        ∃ fparm k type, aparmLoop s false false .num [] 0 = (fparm, some (k, type)) ∧
          usmartGetAparm s = (fparm, some (k, type)) ∧ Advances s k type := by
  have htext := closed_line hlen hclosed
  constructor
  · have hskip : skipToParen (cstr line) = .ok (some (cstr (argText line))) :=
      skipToParen_line h0 hp []
    rw [usmartGetFparam, hskip]
    exact fparamLoop_returns htext (by omega) 0 dev.clear
  · intro s n d hreach
    obtain ⟨fparm, k, type, ha, hadv, _⟩ := (hreach.closed htext).scan
    exact ⟨fparm, k, type, ha, usmartGetAparm_fits ha hadv.fits, hadv⟩

/-- On `f(,, "a" x,` no string is open at the NUL. -/
theorem usmartGetFparam_progress_junk :
    (∃ r, usmartGetFparam (cstr (text "f(,, \"a\" x,")) usmartDev = .ok r) ∧
      ∀ s n d, Reached (cstr (argText (text "f(,, \"a\" x,"))) usmartDev.clear s n d →
        ∃ fparm k type, aparmLoop s false false .num [] 0 = (fparm, some (k, type)) ∧
          usmartGetAparm s = (fparm, some (k, type)) ∧ Advances s k type := by
  refine usmartGetFparam_progress (by decide +kernel) (by decide +kernel) (by decide +kernel) ?_ _
  rintro ⟨acc, hacc⟩
  have hfin : (lex (cstr (argText (text "f(,, \"a\" x,")))).2 = .fin true := by decide +kernel
  rw [hfin] at hacc
  cases hacc

end Generalplate.Usmart
