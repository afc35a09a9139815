import Mathlib.Data.Nat.ModEq

/-! # Cyclic windows

A ring of `n` slots used through two counters that only grow: `hi` counts what
was put in, `lo` what was taken out. The slots in use are the residues of the
counters between them, and as long as at most `n` are in use every slot holds
at most one of them. -/
namespace Generalplate.Lib.Ring

/-- Slot `i` is in use when the counters stand at `lo` and `hi`. -/
def Window (n lo hi i : Nat) : Prop := ∃ j, lo ≤ j ∧ j < hi ∧ j % n = i

variable {n lo hi i : Nat}

/-- Two counters less than a whole ring apart name different slots. -/
theorem eq_of_mod_eq {j k : Nat} (hjk : j ≤ k) (hk : k < j + n) (h : j % n = k % n) : j = k := by
  have hdvd : n ∣ k - j := (Nat.modEq_iff_dvd' hjk).mp h
  have hz := Nat.eq_zero_of_dvd_of_lt hdvd (by omega)
  omega

theorem window_empty : ¬ Window n lo lo i := by
  rintro ⟨j, hlo, hhi, _⟩
  omega

theorem window_push (h : lo ≤ hi) : Window n lo (hi + 1) i ↔ hi % n = i ∨ Window n lo hi i := by
  constructor
  · rintro ⟨j, hlo, hhi, hj⟩
    by_cases he : j = hi
    · exact Or.inl (he ▸ hj)
    · exact Or.inr ⟨j, hlo, by omega, hj⟩
  · rintro (hj | ⟨j, hlo, hhi, hj⟩)
    · exact ⟨hi, h, Nat.lt_succ_self hi, hj⟩
    · exact ⟨j, hlo, by omega, hj⟩

/-- Taking the oldest one out frees its slot and no other. -/
theorem window_pop (hle : hi ≤ lo + n) :
    Window n (lo + 1) hi i ↔ i ≠ lo % n ∧ Window n lo hi i := by
  constructor
  · rintro ⟨j, hlo, hhi, rfl⟩
    refine ⟨fun he => ?_, j, by omega, hhi, rfl⟩
    have := eq_of_mod_eq (by omega) (by omega) he.symm
    omega
  · rintro ⟨hne, j, hlo, hhi, rfl⟩
    have hj : j ≠ lo := fun he => hne (by rw [he])
    exact ⟨j, by omega, hhi, rfl⟩

theorem window_oldest (hlt : lo < hi) : Window n lo hi (lo % n) := ⟨lo, Nat.le_refl _, hlt, rfl⟩

/-- The slot the next one goes to is in use only when the ring is full. -/
theorem window_next_iff (hn : 0 < n) (hle : hi ≤ lo + n) :
    Window n lo hi (hi % n) ↔ hi = lo + n := by
  constructor
  · rintro ⟨j, hlo, hhi, hj⟩
    by_contra hne
    have := eq_of_mod_eq (by omega) (by omega) hj
    omega
  · rintro rfl
    exact ⟨lo, Nat.le_refl _, by omega, (Nat.add_mod_right lo n).symm⟩

theorem window_full_iff (hn : 0 < n) (hle : hi ≤ lo + n) :
    (∀ i, i < n → Window n lo hi i) ↔ hi = lo + n := by
  constructor
  · intro h
    exact (window_next_iff hn hle).mp (h _ (Nat.mod_lt _ hn))
  · rintro rfl i hin
    -- the first counter from `lo` on with residue `i`
    have hmod : (lo + (i + n - lo % n) % n) % n = i := by
      have hlt := Nat.mod_lt lo hn
      rw [Nat.add_mod_mod, ← Nat.mod_add_mod lo, show lo % n + (i + n - lo % n) = i + n by omega,
        Nat.add_mod_right, Nat.mod_eq_of_lt hin]
    have hlt := Nat.mod_lt (i + n - lo % n) hn
    exact ⟨_, Nat.le_add_right _ _, by omega, hmod⟩

/-- The slots in use are the ones right before the next slot. -/
theorem window_iff_before (hlo : lo ≤ hi) (hin : i < n) :
    Window n lo hi i ↔ ∃ k, k < hi - lo ∧ (i + 1 + k) % n = hi % n := by
  constructor
  · rintro ⟨j, hj, hhi, rfl⟩
    refine ⟨hi - 1 - j, by omega, ?_⟩
    rw [Nat.add_assoc, Nat.mod_add_mod]
    congr 1
    omega
  · rintro ⟨k, hk, hmod⟩
    refine ⟨hi - 1 - k, by omega, by omega, ?_⟩
    have h : (hi - 1 - k) % n = i % n := by
      have he : i + (1 + k) ≡ (hi - 1 - k) + (1 + k) [MOD n] := by
        rw [show hi - 1 - k + (1 + k) = hi by omega, ← Nat.add_assoc]
        exact hmod
      exact (Nat.ModEq.add_right_cancel' _ he).symm
    rw [h, Nat.mod_eq_of_lt hin]

end Generalplate.Lib.Ring
