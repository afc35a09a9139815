import Mathlib.Algebra.GroupWithZero.Nat

/-! # The time base of lwIP

`sys_now` turns the tick counter into milliseconds. It multiplies before it
divides, in 32 bits, so the product wraps long before the milliseconds do, and
the time jumps back at each wrap. The jump is seen between two readings unless
they stand in the same wrap, or a whole turn of the millisecond counter apart. -/
namespace Generalplate.Arch

/-- `OS_CFG_TICK_RATE_HZ`. -/
def osCfgTickRateHz : UInt32 := 200

/-- `sys_now` at the tick count `OSTimeGet` returns. -/
def sysNow (ucosTime : UInt32) : UInt32 := ucosTime * 1000 / osCfgTickRateHz + 1

/-- How often the product has wrapped. -/
def productWraps (ucosTime : UInt32) : Nat := ucosTime.toNat * 1000 / 2 ^ 32

/-- The milliseconds that `q` wraps have taken away. -/
def lost (q : Nat) : Nat := (q * 2 ^ 32 + 199) / 200

theorem toNat_sysNow (t : UInt32) : (sysNow t).toNat + lost (productWraps t) = 5 * t.toNat + 1 := by
  have hnow : (sysNow t).toNat = (t.toNat * 1000 % 2 ^ 32 / 200 + 1) % 2 ^ 32 := by
    simp only [sysNow, osCfgTickRateHz, UInt32.toNat_add, UInt32.toNat_div, UInt32.toNat_mul,
      UInt32.reduceToNat]
  rw [Nat.mod_eq_of_lt (by omega)] at hnow
  rw [hnow, lost, productWraps]
  omega

/-- A whole turn of the millisecond counter is 200 wraps. -/
theorem lost_add (q k : Nat) : lost (q + 200 * k) = lost q + 2 ^ 32 * k := by
  simp only [lost]
  omega

theorem lost_lt {q : Nat} (h : q < 200) : lost q < 2 ^ 32 := by
  simp only [lost]
  omega

theorem lost_inj {q q' : Nat} (h : lost q = lost q') : q = q' := by
  simp only [lost] at h
  omega

theorem lost_mod (q : Nat) : lost q % 2 ^ 32 = lost (q % 200) := by
  have hq := lost_add (q % 200) (q / 200)
  rw [Nat.mod_add_div] at hq
  rw [hq, Nat.add_mul_mod_self_left, Nat.mod_eq_of_lt (lost_lt (Nat.mod_lt _ (by omega)))]

/-- **Time base.** `sys_now` advances by five milliseconds a tick between two
readings exactly when both stand in the same wrap of the product, whole turns of
the millisecond counter aside. -/
theorem sysNow_advance_iff (t : UInt32) (d : Nat) :
    sysNow (t + UInt32.ofNat d) - sysNow t = UInt32.ofNat (5 * d) ↔
      productWraps (t + UInt32.ofNat d) % 200 = productWraps t % 200 := by
  have hbefore := toNat_sysNow t
  have hafter := toNat_sysNow (t + UInt32.ofNat d)
  have hcounter : (t + UInt32.ofNat d).toNat = (t.toNat + d) % 2 ^ 32 := by
    rw [UInt32.toNat_add, UInt32.toNat_ofNat', Nat.add_mod_mod]
  -- the readings differ by what the wraps in between have taken away
  have hlost : sysNow (t + UInt32.ofNat d) - sysNow t = UInt32.ofNat (5 * d) ↔
      lost (productWraps (t + UInt32.ofNat d)) % 2 ^ 32 = lost (productWraps t) % 2 ^ 32 := by
    have hlt := (sysNow t).toNat_lt
    rw [← UInt32.toNat_inj, UInt32.toNat_sub, UInt32.toNat_ofNat']
    omega
  rw [hlost, lost_mod, lost_mod]
  constructor
  · exact lost_inj
  · intro h
    rw [h]

/-- Six hours after the start one tick takes the time back by almost as much. -/
theorem sysNow_jumps_back : sysNow 4294967 = 21474836 ∧ sysNow (4294967 + UInt32.ofNat 1) = 4 ∧
    sysNow (4294967 + UInt32.ofNat 1) - sysNow 4294967 ≠ UInt32.ofNat (5 * 1) := by
  decide

end Generalplate.Arch
