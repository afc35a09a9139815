import Mathlib.Algebra.GroupWithZero.Nat
import Mathlib.Data.List.Basic

/-! # Transducers

A machine that reads one input at a time and gives out any number of outputs.
Reading two texts one after the other is reading their concatenation; what a
step keeps, a run keeps. -/
namespace Generalplate.Lib.Transducer

variable {ι ο σ : Type*}

/-- The outputs of a run and the state it ends in. -/
def run (next : σ → ι → List ο × σ) : σ → List ι → List ο × σ
  | s, [] => ([], s)
  | s, c :: cs =>
    let r := next s c
    let rs := run next r.2 cs
    (r.1 ++ rs.1, rs.2)

variable {next : σ → ι → List ο × σ}

@[simp] theorem run_nil (s : σ) : run next s [] = ([], s) := rfl

theorem run_cons (s : σ) (c : ι) (cs : List ι) :
    run next s (c :: cs) =
      ((next s c).1 ++ (run next (next s c).2 cs).1, (run next (next s c).2 cs).2) := rfl

/-- A step without outputs. -/
theorem run_silent {s s' : σ} {c : ι} (h : next s c = ([], s')) (cs : List ι) :
    run next s (c :: cs) = run next s' cs := by
  rw [run_cons, h, List.nil_append]

theorem run_append (s : σ) (cs ds : List ι) :
    run next s (cs ++ ds) =
      ((run next s cs).1 ++ (run next (run next s cs).2 ds).1,
        (run next (run next s cs).2 ds).2) := by
  induction cs generalizing s with
  | nil => rfl
  | cons c cs ih => rw [List.cons_append, run_cons, run_cons, ih, List.append_assoc]

/-- A state that nothing leads out of. -/
theorem run_absorbing {s : σ} (h : ∀ c, next s c = ([], s)) (cs : List ι) :
    run next s cs = ([], s) := by
  induction cs with
  | nil => rfl
  | cons c cs ih => rw [run_silent (h c), ih]

/-- What every step keeps of the state and grants of its outputs. -/
theorem run_inv {P : σ → Prop} {Q : ο → Prop} {T : ι → Prop}
    (hstep : ∀ s c, P s → T c → P (next s c).2 ∧ ∀ o ∈ (next s c).1, Q o)
    {s : σ} {cs : List ι} (hs : P s) (hcs : ∀ c ∈ cs, T c) :
    P (run next s cs).2 ∧ ∀ o ∈ (run next s cs).1, Q o := by
  induction cs generalizing s with
  | nil => exact ⟨hs, fun _ ho => by cases ho⟩
  | cons c cs ih =>
    obtain ⟨hc, hcs⟩ := List.forall_mem_cons.mp hcs
    obtain ⟨h1, ho1⟩ := hstep s c hs hc
    obtain ⟨h2, ho2⟩ := ih h1 hcs
    refine ⟨h2, ?_⟩
    intro o ho
    rcases List.mem_append.mp ho with ho | ho
    · exact ho1 o ho
    · exact ho2 o ho

/-- Outputs paid for by inputs: a step gains at most one over what it gives out. -/
theorem run_weight {w : σ → Nat} {u : ο → Nat}
    (hstep : ∀ s c, w (next s c).2 + ((next s c).1.map u).sum ≤ w s + 1) (s : σ) (cs : List ι) :
    w (run next s cs).2 + ((run next s cs).1.map u).sum ≤ w s + cs.length := by
  induction cs generalizing s with
  | nil => exact Nat.le_refl _
  | cons c cs ih =>
    have h1 := hstep s c
    have h2 := ih (next s c).2
    rw [run_cons, List.map_append, List.sum_append, List.length_cons]
    dsimp only
    omega

end Generalplate.Lib.Transducer
