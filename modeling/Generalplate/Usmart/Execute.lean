import Generalplate.Lib.Fallible
import Generalplate.Usmart.Behind
import Generalplate.Usmart.Returns
import Generalplate.Usmart.Stored

/-! # The call that is made

An accepted line names a function of the table, the first of that name, and its
arguments are stored. `usmart_exe` reads as many of them as the prototype
declares and passes as many as were stored: what is called for is what was typed
just when the two numbers are equal, which `usmart_cmd_rec` does not check, and no
string is open at the NUL, where it goes on with what lies behind. -/
namespace Generalplate.Usmart
open Lib.ByteMem Lib.Fallible

/-! ## Names -/

theorem getFname_ok {str : List UInt8} {r : FnameRes} (h : getFname str = .ok r) :
    r = usmartGetFname str := by
  simp only [getFname, bind_ok, pure_ok] at h
  obtain ⟨_, _, h⟩ := h
  exact h.symm

/-! ## The table -/

theorem cmdSearch_fail {name : List UInt8} {rpnum : Nat} {funs : List Nametab} {i sta : Nat}
    (h : cmdSearch name rpnum funs i = .ok (.inl sta)) : sta ≠ usmartOk := by
  induction funs generalizing i with
  | nil =>
    cases h
    decide
  | cons e funs ih =>
    simp only [cmdSearch, bind_ok] at h
    obtain ⟨s, _, h⟩ := h
    split at h
    · rename_i hres
      cases h
      exact hres
    split at h
    · split at h
      · cases h
        decide
      · cases h
    · exact ih h

/-! ## Accepted lines -/

theorem fparamLoop_sta {fuel : Nat} {str : List UInt8} {n : Nat} {dev : UsmartDev} {r : Fparam}
    (h : fparamLoop fuel str n dev = .ok r) : r.sta = usmartOk ↔ r.parn ≠ none := by
  induction fuel generalizing str n dev with
  | zero => cases h
  | succ fuel ih =>
    rw [fparamLoop] at h
    dsimp only at h
    split at h
    · cases h
    · split at h
      · rename_i hfail
        cases h
        exact iff_of_false hfail (not_not_intro rfl)
      · split at h
        · cases h
          exact iff_of_true rfl (Option.some_ne_none _)
        · exact ih h

/-- `*parn` is written just on success. -/
theorem usmartGetFparam_sta {str : List UInt8} {dev : UsmartDev} {r : Fparam}
    (h : usmartGetFparam str dev = .ok r) : r.sta = usmartOk ↔ r.parn ≠ none := by
  unfold usmartGetFparam at h
  split at h
  · cases h
  · cases h
    exact iff_of_false (show ¬ usmartFuncerr = usmartOk by decide) (not_not_intro rfl)
  · exact fparamLoop_sta h

/-- The parts of an accepting run of `usmart_cmd_rec`. -/
theorem usmartCmdRec_parts {funs : List Nametab} {str : List UInt8} {dev dev' : UsmartDev}
    (h : usmartCmdRec funs str dev = .ok (usmartOk, dev')) :
    getFname str = .ok (usmartGetFname str) ∧ (usmartGetFname str).res = usmartOk ∧
      ∃ i p parn, cmdSearch (usmartGetFname str).fname (usmartGetFname str).pnum funs 0 =
          .ok (.inr i) ∧
        usmartGetFparam str { dev with id := i } = .ok p ∧ p.parn = some parn ∧
        dev' = { p.dev with pnum := parn } := by
  simp only [usmartCmdRec, bind_ok] at h
  obtain ⟨r, hr, h⟩ := h
  obtain rfl := getFname_ok hr
  split at h
  · rename_i hres
    exact absurd (congrArg Prod.fst (pure_ok.mp h)) hres
  rename_i hres
  refine ⟨hr, not_not.mp hres, ?_⟩
  obtain ⟨found, hfound, h⟩ := bind_ok.mp h
  cases found with
  | inl sta =>
    cases h
    exact absurd rfl (cmdSearch_fail hfound)
  | inr i =>
    obtain ⟨p, hp, h⟩ := bind_ok.mp h
    cases hparn : p.parn with
    | none =>
      rw [hparn] at h
      exact absurd hparn ((usmartGetFparam_sta hp).mp (congrArg Prod.fst (pure_ok.mp h)))
    | some parn =>
      rw [hparn] at h
      exact ⟨i, p, parn, hfound, hp, hparn, (congrArg Prod.snd (pure_ok.mp h)).symm⟩

/-- A run of `usmart_cmd_rec` from its parts. -/
theorem usmartCmdRec_eq {funs : List Nametab} {str : List UInt8} {dev : UsmartDev} {i : Nat}
    {p : Fparam} (hname : getFname str = .ok (usmartGetFname str))
    (hres : (usmartGetFname str).res = usmartOk)
    (hfound : cmdSearch (usmartGetFname str).fname (usmartGetFname str).pnum funs 0 = .ok (.inr i))
    (hp : usmartGetFparam str { dev with id := i } = .ok p) :
    usmartCmdRec funs str dev = .ok (match p.parn with
      | none => (p.sta, p.dev)
      | some parn => (usmartOk, { p.dev with pnum := parn })) := by
  rw [usmartCmdRec, hname]
  refine (if_neg (not_not_intro hres)).trans ?_
  rw [hfound]
  simp only [bind, Except.bind]
  rw [hp]
  dsimp only
  cases p.parn <;> rfl

/-- What is passed for an argument stored at `addr`. -/
def Arg.value (addr : Nat) : Arg → UInt32
  | .num v => v
  | .str _ => UInt32.ofNat addr

end Generalplate.Usmart
