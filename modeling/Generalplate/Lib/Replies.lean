import Mathlib.Data.List.Basic

/-! # Machines that answer

A machine that answers each request and may fault, and one that answers without faults. When
each request is answered alike in states that correspond, so are all requests one after the
other, and the machine never faults. -/
namespace Generalplate.Lib.Replies

variable {ι ο σ τ : Type*}

/-- The requests one after the other: the answers and the state behind them, none when one of
them faults. -/
def run (step : ι → σ → Option (ο × σ)) : List ι → σ → Option (List ο × σ)
  | [], s => some ([], s)
  | i :: is, s =>
    (step i s).bind fun (o, s) => (run step is s).map fun (os, s) => (o :: os, s)

/-- The same of a machine without faults. -/
def answers (next : ι → τ → ο × τ) : List ι → τ → List ο × τ
  | [], t => ([], t)
  | i :: is, t =>
    let r := next i t
    let rs := answers next is r.2
    (r.1 :: rs.1, rs.2)

/-- **Refinement.** -/
theorem run_refines {step : ι → σ → Option (ο × σ)} {next : ι → τ → ο × τ} {R : σ → τ → Prop}
    (hstep : ∀ i s t, R s t → ∃ s', step i s = some ((next i t).1, s') ∧ R s' (next i t).2)
    (is : List ι) {s : σ} {t : τ} (h : R s t) :
    ∃ s', run step is s = some ((answers next is t).1, s') ∧ R s' (answers next is t).2 := by
  induction is generalizing s t with
  | nil => exact ⟨s, rfl, h⟩
  | cons i is ih =>
    obtain ⟨s1, hs1, h1⟩ := hstep i s t h
    obtain ⟨s2, hs2, h2⟩ := ih h1
    refine ⟨s2, ?_, h2⟩
    rw [run, hs1, Option.bind_some]
    dsimp only
    rw [hs2, Option.map_some]
    rfl

/-- What each answer keeps, all of them keep. -/
theorem answers_keeps {next : ι → τ → ο × τ} {P : τ → Prop}
    (hstep : ∀ i t, P t → P (next i t).2) (is : List ι) {t : τ} (h : P t) :
    P (answers next is t).2 := by
  induction is generalizing t with
  | nil => exact h
  | cons i is ih => exact ih (hstep i t h)

end Generalplate.Lib.Replies
