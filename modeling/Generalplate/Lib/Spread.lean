import Mathlib.Algebra.GroupWithZero.Nat

/-! # Evenly spread steps

An accumulator takes in `delta` at a time and gives a step back whenever it holds more
than `distance`, at most once each time. After `k` times it has given `k * delta`
divided by `distance`, rounded up, less one: `delta` steps among `distance`, each less
than one from its even place. -/
namespace Generalplate.Lib.Spread

/-- The steps given after `k` times; none as long as nothing was taken in. -/
def steps (delta distance k : Nat) : Nat := (k * delta - 1) / distance

variable {delta distance : Nat}

@[simp] theorem steps_zero (delta distance : Nat) : steps delta distance 0 = 0 := by
  rw [steps, Nat.zero_mul, Nat.zero_sub, Nat.zero_div]

@[simp] theorem steps_delta_zero (distance k : Nat) : steps 0 distance k = 0 := by
  rw [steps, Nat.mul_zero, Nat.zero_sub, Nat.zero_div]

/-- What the accumulator holds is more than nothing and at most `distance`. -/
theorem steps_held (hdelta : 0 < delta) (hle : delta ≤ distance) (k : Nat) :
    distance * steps delta distance (k + 1) < (k + 1) * delta ∧
    (k + 1) * delta ≤ distance * steps delta distance (k + 1) + distance := by
  have hdiv := Nat.div_add_mod ((k + 1) * delta - 1) distance
  have hmod := Nat.mod_lt ((k + 1) * delta - 1) (Nat.lt_of_lt_of_le hdelta hle)
  have hpos : 0 < (k + 1) * delta := Nat.mul_pos (Nat.succ_pos k) hdelta
  rw [steps]
  omega

/-- The number of steps that leaves such a rest is the right one. -/
theorem steps_unique (hdelta : 0 < delta) (hle : delta ≤ distance) {k m : Nat}
    (hlow : distance * m < (k + 1) * delta) (hhigh : (k + 1) * delta ≤ distance * m + distance) :
    steps delta distance (k + 1) = m := by
  obtain ⟨hlow', hhigh'⟩ := steps_held hdelta hle k
  have hpos := Nat.lt_of_lt_of_le hdelta hle
  have h1 : steps delta distance (k + 1) < m + 1 := by
    refine Nat.lt_of_mul_lt_mul_left (a := distance) ?_
    rw [Nat.mul_add_one]
    omega
  have h2 : m < steps delta distance (k + 1) + 1 := by
    refine Nat.lt_of_mul_lt_mul_left (a := distance) ?_
    rw [Nat.mul_add_one]
    omega
  omega

/-- One more time. -/
theorem steps_succ (hle : delta ≤ distance) (k : Nat) :
    (distance * steps delta distance k + distance < (k + 1) * delta ∧
      steps delta distance (k + 1) = steps delta distance k + 1) ∨
    ((k + 1) * delta ≤ distance * steps delta distance k + distance ∧
      steps delta distance (k + 1) = steps delta distance k) := by
  rcases Nat.eq_zero_or_pos delta with rfl | hdelta
  · right
    simp
  · have hsucc : (k + 1) * delta = k * delta + delta := Nat.add_one_mul ..
    -- before the first time nothing is held, later at most `distance`
    have hheld : k * delta ≤ distance * steps delta distance k + distance ∧
        (distance * steps delta distance k < k * delta ∨ steps delta distance k = 0) := by
      cases k with
      | zero => simp
      | succ k =>
        obtain ⟨hlow, hhigh⟩ := steps_held hdelta hle k
        exact ⟨hhigh, Or.inl hlow⟩
    rcases Nat.lt_or_ge (distance * steps delta distance k + distance) ((k + 1) * delta) with
      hgt | hge
    · refine Or.inl ⟨hgt, steps_unique hdelta hle ?_ ?_⟩
      · rw [Nat.mul_add_one]
        exact hgt
      · rw [Nat.mul_add_one]
        omega
    · refine Or.inr ⟨hge, steps_unique hdelta hle ?_ hge⟩
      rcases hheld.2 with hlow | hzero
      · omega
      · rw [hzero, Nat.mul_zero]
        exact Nat.mul_pos (Nat.succ_pos k) hdelta

theorem steps_le_succ (hle : delta ≤ distance) (k : Nat) :
    steps delta distance k ≤ steps delta distance (k + 1) ∧
    steps delta distance (k + 1) ≤ steps delta distance k + 1 := by
  rcases steps_succ hle k with ⟨-, heq⟩ | ⟨-, heq⟩ <;> omega

/-- After `distance + 1` times all steps are given. -/
theorem steps_last (hle : delta ≤ distance) : steps delta distance (distance + 1) = delta := by
  rcases Nat.eq_zero_or_pos delta with rfl | hdelta
  · exact steps_delta_zero ..
  · refine steps_unique hdelta hle ?_ ?_
    · rw [Nat.add_one_mul]
      omega
    · rw [Nat.add_one_mul]
      omega

theorem steps_mono (delta distance : Nat) {k m : Nat} (h : k ≤ m) :
    steps delta distance k ≤ steps delta distance m :=
  Nat.div_le_div_right (Nat.sub_le_sub_right (Nat.mul_le_mul_right delta h) 1)

theorem steps_le (hle : delta ≤ distance) {k : Nat} (hk : k ≤ distance + 1) :
    steps delta distance k ≤ delta :=
  calc steps delta distance k ≤ steps delta distance (distance + 1) := steps_mono _ _ hk
    _ = delta := steps_last hle

/-- As much as the accumulator gives: a step each time after the first. -/
theorem steps_full (hpos : 0 < distance) (k : Nat) : steps distance distance (k + 1) = k := by
  refine steps_unique hpos (Nat.le_refl _) ?_ ?_
  · rw [Nat.add_one_mul, Nat.mul_comm]
    omega
  · exact Nat.le_of_eq (by rw [Nat.add_one_mul, Nat.mul_comm])

/-- The steps stay less than one away from their even places. -/
theorem steps_near (hle : delta ≤ distance) (hpos : 0 < distance) (k : Nat) :
    distance * steps delta distance (k + 1) < k * delta + distance ∧
    k * delta < distance * steps delta distance (k + 1) + distance := by
  rcases Nat.eq_zero_or_pos delta with rfl | hdelta
  · simpa using hpos
  · obtain ⟨hlow, hhigh⟩ := steps_held hdelta hle k
    rw [Nat.add_one_mul] at hlow hhigh
    omega

end Generalplate.Lib.Spread
