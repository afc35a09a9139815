import Mathlib.Data.List.Basic

/-! # Fallible computations

When a sequence of computations succeeds, when it fails, and that it never fails
in one given way. -/
namespace Generalplate.Lib.Fallible

variable {ε α β : Type*} {e : ε}

theorem bind_ok {ε α β : Type} {x : Except ε α} {f : α → Except ε β} {b : β} :
    (x >>= f) = .ok b ↔ ∃ a, x = .ok a ∧ f a = .ok b := by
  cases x <;> simp [bind, Except.bind]

theorem pure_ok {ε α : Type} {a b : α} : (pure a : Except ε α) = .ok b ↔ a = b := by
  simp [pure, Except.pure]

/-- The computation does not fail with `e`. -/
def Avoids (e : ε) (x : Except ε α) : Prop := x ≠ .error e

theorem avoids_ok (a : α) : Avoids e (.ok a) := fun h => by cases h

theorem avoids_error {d : ε} (h : d ≠ e) : Avoids e (.error d : Except ε α) := fun heq =>
  h (Except.error.inj heq)

theorem Avoids.bind {ε α β : Type} {e : ε} {x : Except ε α} {f : α → Except ε β} (hx : Avoids e x)
    (hf : ∀ a, x = .ok a → Avoids e (f a)) : Avoids e (x >>= f) := by
  cases x with
  | error d => exact avoids_error fun hd => hx (congrArg Except.error hd)
  | ok a => exact hf a rfl

theorem Avoids.ite {p : Prop} [Decidable p] {x y : Except ε α} (hx : p → Avoids e x)
    (hy : ¬ p → Avoids e y) : Avoids e (if p then x else y) := by
  split
  · exact hx ‹_›
  · exact hy ‹_›

theorem avoids_forM {ε α : Type} {e : ε} {f : α → Except ε Unit} {l : List α}
    (h : ∀ a ∈ l, Avoids e (f a)) : Avoids e (l.forM f) := by
  induction l with
  | nil => exact avoids_ok _
  | cons a l ih =>
    obtain ⟨ha, hl⟩ := List.forall_mem_cons.mp h
    exact ha.bind fun _ _ => ih hl

end Generalplate.Lib.Fallible
