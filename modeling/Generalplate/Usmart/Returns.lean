import Generalplate.Usmart.Fname
import Generalplate.Usmart.Fparam
import Generalplate.Usmart.Tokens

/-! # When the argument loop returns

Inside a string the scanner stops at no NUL, and it skips the byte behind a
backslash, which `usmart_get_fname` does not. A line can be accepted with a
string that the scanner finds open at the NUL; then it reads on behind the line,
unless an argument before the string makes it return first. -/
namespace Generalplate.Usmart

/-- A string of the arguments is open at the end of the line. -/
def StringOpen (line : List UInt8) : Prop := ∃ acc, (lex (cstr (argText line))).2 = .str acc

/-- Some argument of the line makes the loop return: a number that is not well
formed, or one more than `MAX_PARM`. -/
def StopsEarly (line : List UInt8) : Prop :=
  (∃ t ∈ (lex (cstr (argText line))).1, ¬ t.WellFormed) ∨
    maxParm < (lex (cstr (argText line))).1.length

theorem not_stopsEarly_iff (line : List UInt8) :
    ¬ StopsEarly line ↔ (∀ t ∈ (lex (cstr (argText line))).1, t.WellFormed) ∧
      (lex (cstr (argText line))).1.length ≤ maxParm := by
  unfold StopsEarly
  rw [not_or, Nat.not_lt]
  refine and_congr_left fun _ => ?_
  constructor
  · intro h t ht
    by_contra hbad
    exact h ⟨t, ht, hbad⟩
  · intro h hex
    obtain ⟨t, ht, hbad⟩ := hex
    exact hbad (h t ht)

/-- **When `usmart_get_fparam` returns.** On an accepted line it returns without
a read behind the NUL just when no string is open there or an earlier argument
stops it. -/
theorem usmartGetFparam_returns_iff {line : List UInt8} (h0 : 0 ∉ line)
    (hlen : line.length ≤ 199) (hacc : (usmartGetFname (cstr line)).res = usmartOk)
    (dev : UsmartDev) :
    (∃ r, usmartGetFparam (cstr line) dev = .ok r) ↔ ¬ StringOpen line ∨ StopsEarly line := by
  have heq := usmartGetFparam_line h0 (usmartGetFname_accept hacc) hlen dev
  have hstore := storeAll_ok_iff (lex (cstr (argText line))).1 0 dev.clear (Nat.zero_le _)
  rw [Nat.zero_add, ← not_stopsEarly_iff] at hstore
  rw [heq]
  by_cases hok : (storeAll (lex (cstr (argText line))).1 0 dev.clear).1 = usmartOk
  · rw [or_iff_left (hstore.mp hok)]
    rcases lex_nul_mode (argText line) with ⟨closed, hm⟩ | ⟨acc, hm⟩
    · have hclosed : ¬ StringOpen line := fun ⟨acc, ha⟩ => by rw [hm] at ha; cases ha
      refine iff_of_true ?_ hclosed
      rw [hm]
      cases closed with
      | true => exact ⟨_, finish_closed hok⟩
      | false => exact ⟨_, finish_illegal hok⟩
    · refine iff_of_false ?_ (not_not_intro ⟨acc, hm⟩)
      rw [hm, finish_open (by simp) hok]
      rintro ⟨r, hr⟩
      cases hr
  · have hstop : StopsEarly line := by
      by_contra hnot
      exact hok (hstore.mpr hnot)
    exact iff_of_true ⟨_, finish_fail _ hok⟩ (Or.inr hstop)

/-- On `f(1,"a")` it returns. -/
theorem usmartGetFparam_returns_iff_call :
    (∃ r, usmartGetFparam (cstr (text "f(1,\"a\")")) usmartDev = .ok r) ↔
      ¬ StringOpen (text "f(1,\"a\")") ∨ StopsEarly (text "f(1,\"a\")") :=
  usmartGetFparam_returns_iff (by decide +kernel) (by decide +kernel) (by decide +kernel) usmartDev

/-- The line `f("\")` is accepted, and the scanner, for which the backslash hides
the second quote, runs past its NUL. -/
theorem usmartGetFparam_overruns :
    (usmartGetFname (cstr (text "f(\"\\\")"))).res = usmartOk ∧
      usmartGetFparam (cstr (text "f(\"\\\")")) usmartDev = .error .pastEnd :=
  ⟨by decide +kernel, rfl⟩

end Generalplate.Usmart
