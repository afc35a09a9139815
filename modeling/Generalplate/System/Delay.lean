import Mathlib.Algebra.GroupWithZero.Nat
import Mathlib.Logic.Function.Iterate
import Generalplate.Lib.EventRun

/-! # The delay in microseconds

`delay_us` adds up the counts of SysTick between its readings. The timer counts down
from `LOAD` to 0 and starts again, and a reading behind a reload is taken for one
count less than it is, so the sum never runs ahead of the timer. -/
namespace Generalplate.System
open Lib.EventRun

/-- What `delay_init` sets. -/
structure DelayInit where
  facUs : UInt8
  facMs : UInt16
  load : UInt32

/-- `delay_init` with the ticks of the operating system; `LOAD` has 24 bits. -/
def delayInit (sysclk : UInt8) (tickspersec : UInt32) : DelayInit where
  facUs := sysclk / 8
  facMs := (1000 / tickspersec).toUInt16
  load := (sysclk / 8).toUInt32 * (1000000 / tickspersec) &&& 0xffffff

/-- SysTick, with the counts and the reloads so far. -/
structure SysTick where
  load : UInt32
  val : UInt32
  elapsed : Nat
  reloads : Nat
deriving DecidableEq

/-- One count. -/
def SysTick.count (t : SysTick) : SysTick :=
  if t.val = 0 then
    { t with val := t.load, elapsed := t.elapsed + 1, reloads := t.reloads + 1 }
  else { t with val := t.val - 1, elapsed := t.elapsed + 1 }

def SysTick.pass (n : Nat) (t : SysTick) : SysTick := SysTick.count^[n] t

/-- The loop of `delay_us` between two readings of `VAL`; `seen` counts the reloads it
has taken notice of. -/
structure DelayUs where
  timer : SysTick
  told : UInt32
  tcnt : UInt32
  seen : Nat
  returned : Bool
deriving DecidableEq

/-- Before the loop, when `VAL` has been read for the first time. -/
def DelayUs.start (load val : UInt32) : DelayUs := ⟨⟨load, val, 0, 0⟩, val, 0, 0, false⟩

/-- An iteration that reads `VAL` when the timer has counted `n` times more. -/
def delayUsStep (facUs : UInt8) (nus : UInt32) (n : Nat) (s : DelayUs) : Option DelayUs :=
  if s.returned then none
  else
    let ticks := nus * facUs.toUInt32
    let timer := s.timer.pass n
    let tnow := timer.val
    if tnow ≠ s.told then
      let tcnt :=
        if tnow < s.told then s.tcnt + (s.told - tnow) else s.tcnt + (timer.load - tnow + s.told)
      some ⟨timer, tnow, tcnt, if tnow < s.told then s.seen else s.seen + 1, tcnt ≥ ticks⟩
    else some { s with timer := timer }

/-- Nothing that an iteration with this reading adds or takes away leaves 32 bits. -/
def DelayUs.Fits (s : DelayUs) (tnow : UInt32) : Prop :=
  if tnow < s.told then s.tcnt.toNat + (s.told.toNat - tnow.toNat) < 2 ^ 32
  else tnow ≤ s.timer.load ∧ s.timer.load.toNat - tnow.toNat + s.told.toNat < 2 ^ 32 ∧
    s.tcnt.toNat + (s.timer.load.toNat - tnow.toNat + s.told.toNat) < 2 ^ 32

/-! ## The timer -/

theorem SysTick.pass_succ (n : Nat) (t : SysTick) : t.pass (n + 1) = (t.pass n).count :=
  Function.iterate_succ_apply' ..

/-- A reload gives back a whole period. -/
theorem SysTick.count_spec {t : SysTick} (h : t.val ≤ t.load) :
    t.count.load = t.load ∧ t.count.val ≤ t.load ∧ t.count.elapsed = t.elapsed + 1 ∧
    t.count.val.toNat + 1 + t.reloads * (t.load.toNat + 1) =
      t.val.toNat + t.count.reloads * (t.load.toNat + 1) := by
  rw [UInt32.le_iff_toNat_le] at h ⊢
  unfold count
  split
  · rename_i hzero
    refine ⟨rfl, le_rfl, rfl, ?_⟩
    simp only [hzero, UInt32.toNat_zero, Nat.add_mul]
    omega
  · rename_i hpos
    have hval : (t.val - 1).toNat + 1 = t.val.toNat := by
      rw [← UInt32.toNat_inj, UInt32.toNat_zero] at hpos
      have hlt := t.val.toNat_lt
      rw [UInt32.toNat_sub, UInt32.toNat_one]
      omega
    refine ⟨rfl, ?_, rfl, ?_⟩
    · change (t.val - 1).toNat ≤ t.load.toNat
      omega
    · rw [hval]

theorem SysTick.pass_spec {t : SysTick} (h : t.val ≤ t.load) (n : Nat) :
    (t.pass n).load = t.load ∧ (t.pass n).val ≤ t.load ∧ (t.pass n).elapsed = t.elapsed + n ∧
    (t.pass n).val.toNat + n + t.reloads * (t.load.toNat + 1) =
      t.val.toNat + (t.pass n).reloads * (t.load.toNat + 1) := by
  induction n with
  | zero => exact ⟨rfl, h, rfl, rfl⟩
  | succ n ih =>
    obtain ⟨hload, hval, helapsed, hsum⟩ := ih
    rw [← hload] at hval
    obtain ⟨hload', hval', helapsed', hsum'⟩ := count_spec hval
    rw [pass_succ]
    rw [hload] at hload' hval' hsum'
    exact ⟨hload', hval', by omega, by omega⟩

/-- Less than a period passes: the timer has reloaded at most once. -/
theorem SysTick.pass_cases {t : SysTick} (h : t.val ≤ t.load) {n : Nat}
    (hn : n < t.load.toNat + 1) :
    ((t.pass n).reloads = t.reloads ∧ (t.pass n).val.toNat + n = t.val.toNat) ∨
    ((t.pass n).reloads = t.reloads + 1 ∧
      (t.pass n).val.toNat + n = t.val.toNat + (t.load.toNat + 1)) := by
  obtain ⟨-, hval, -, hsum⟩ := pass_spec h n
  rw [UInt32.le_iff_toNat_le] at h hval
  have hge : t.reloads ≤ (t.pass n).reloads := by
    by_contra hlt
    have hmul := Nat.mul_le_mul_right (t.load.toNat + 1) (Nat.lt_of_not_le hlt)
    rw [Nat.succ_mul] at hmul
    omega
  have hle : (t.pass n).reloads ≤ t.reloads + 1 := by
    by_contra hgt
    have hmul := Nat.mul_le_mul_right (t.load.toNat + 1) (Nat.lt_of_not_le hgt)
    rw [Nat.succ_mul, Nat.succ_mul] at hmul
    omega
  rcases Nat.eq_or_lt_of_le hge with heq | hlt
  · rw [← heq] at hsum ⊢
    exact Or.inl ⟨rfl, by omega⟩
  · have heq : (t.pass n).reloads = t.reloads + 1 := by omega
    rw [heq, Nat.add_mul] at hsum
    exact Or.inr ⟨heq, by omega⟩

/-! ## The sum -/

/-- Between two readings: the sum is short of the counts by the reloads, and below
the ticks as long as the loop runs. -/
structure DelayUs.Ok (load : UInt32) (ticks : Nat) (s : DelayUs) : Prop where
  loaded : s.timer.load = load
  val : s.timer.val ≤ load
  told : s.told = s.timer.val
  sum : s.tcnt.toNat + s.seen = s.timer.elapsed
  seen : s.seen = s.timer.reloads
  running : s.returned = false → s.tcnt.toNat < ticks ∨ s.tcnt.toNat = 0
  returned : s.returned = true → ticks ≤ s.tcnt.toNat

variable {load : UInt32} {ticks : Nat} {s : DelayUs}

/-- What the loop sees at its next reading. -/
theorem DelayUs.Ok.reads (h : s.Ok load ticks) {n : Nat} (hn : n < load.toNat + 1) :
    ((s.timer.pass n).reloads = s.timer.reloads ∧ (s.timer.pass n).val.toNat + n = s.told.toNat) ∨
    ((s.timer.pass n).reloads = s.timer.reloads + 1 ∧
      (s.timer.pass n).val.toNat + n = s.told.toNat + (load.toNat + 1)) := by
  have hval := h.val
  rw [← h.loaded] at hval hn ⊢
  rw [h.told]
  exact SysTick.pass_cases hval hn

/-- An iteration adds without overflow while the loop runs. -/
theorem DelayUs.Ok.fits (h : s.Ok load ticks) (hfit : ticks + load.toNat + 1 ≤ 2 ^ 32)
    (hrun : s.returned = false) (n : Nat) : s.Fits (s.timer.pass n).val := by
  have hval := h.val
  have hlow := h.running hrun
  have hlt := load.toNat_lt
  rw [UInt32.le_iff_toNat_le, ← h.told] at hval
  obtain ⟨-, hnew, -, -⟩ := SysTick.pass_spec (h.loaded ▸ h.val) n
  rw [h.loaded, UInt32.le_iff_toNat_le] at hnew
  unfold Fits
  simp only [UInt32.lt_iff_toNat_lt, UInt32.le_iff_toNat_le, h.loaded]
  split
  · omega
  · refine ⟨hnew, ?_, ?_⟩ <;> omega

theorem DelayUs.Ok.start {val : UInt32} (h : val ≤ load) (ticks : Nat) :
    (DelayUs.start load val).Ok load ticks where
  loaded := rfl
  val := h
  told := rfl
  sum := rfl
  seen := rfl
  running _ := Or.inr rfl
  returned h := by cases h

/-- What an iteration adds: the counts that passed, less one when the timer has
reloaded. -/
theorem DelayUs.Ok.adds (h : s.Ok load ticks) {n : Nat} (hn : n < load.toNat + 1)
    {tnow : UInt32} (htnow : (s.timer.pass n).val = tnow) (hne : tnow ≠ s.told)
    (hfits : s.Fits tnow) :
    (tnow < s.told ∧ (s.tcnt + (s.told - tnow)).toNat = s.tcnt.toNat + n ∧
      (s.timer.pass n).reloads = s.timer.reloads) ∨
    (¬ tnow < s.told ∧
      (s.tcnt + (load - tnow + s.told)).toNat + 1 = s.tcnt.toNat + n ∧
      (s.timer.pass n).reloads = s.timer.reloads + 1) := by
  have hreads := h.reads hn
  rw [htnow] at hreads
  have htold := s.told.toNat_lt
  have hload := load.toNat_lt
  unfold Fits at hfits
  rw [← UInt32.toNat_inj.ne] at hne
  by_cases hlt : tnow < s.told
  · rw [if_pos hlt] at hfits
    rw [UInt32.lt_iff_toNat_lt] at hlt
    have hsub : (s.told - tnow).toNat = s.told.toNat - tnow.toNat := by
      rw [UInt32.toNat_sub]
      omega
    refine Or.inl ⟨UInt32.lt_iff_toNat_lt.mpr hlt, ?_, by omega⟩
    rw [UInt32.toNat_add, hsub, Nat.mod_eq_of_lt hfits]
    omega
  · rw [if_neg hlt, h.loaded] at hfits
    obtain ⟨hle, hsmall, hfit⟩ := hfits
    rw [UInt32.lt_iff_toNat_lt] at hlt
    rw [UInt32.le_iff_toNat_le] at hle
    have hsub : (load - tnow + s.told).toNat = load.toNat - tnow.toNat + s.told.toNat := by
      rw [UInt32.toNat_add, UInt32.toNat_sub]
      omega
    refine Or.inr ⟨UInt32.lt_iff_toNat_lt.not.mpr hlt, ?_, by omega⟩
    rw [UInt32.toNat_add, hsub, Nat.mod_eq_of_lt hfit]
    omega

theorem DelayUs.Ok.step (h : s.Ok load ticks) {facUs : UInt8} {nus : UInt32}
    (hticks : (nus * facUs.toUInt32).toNat = ticks) (hfit : ticks + load.toNat + 1 ≤ 2 ^ 32)
    {n : Nat} (hn : n < load.toNat + 1) {s' : DelayUs} (hs : delayUsStep facUs nus n s = some s') :
    s'.Ok load ticks := by
  have hreads := h.reads hn
  have hsum := h.sum
  have hseen := h.seen
  obtain ⟨hload, hval, helapsed, -⟩ := SysTick.pass_spec (h.loaded ▸ h.val) n
  rw [h.loaded] at hload hval
  simp only [delayUsStep, hload] at hs
  split at hs
  · cases hs
  · rename_i hrun
    rw [Bool.not_eq_true] at hrun
    split at hs
    · rename_i hne
      have hadds := h.adds hn rfl hne (h.fits hfit hrun n)
      cases hs
      have hseen' : (if (s.timer.pass n).val < s.told then s.seen else s.seen + 1) =
          (s.timer.pass n).reloads := by
        rcases hadds with ⟨hlt, -, hreloads⟩ | ⟨hlt, -, hreloads⟩
        · rw [if_pos hlt, hseen, hreloads]
        · rw [if_neg hlt, hseen, hreloads]
      refine ⟨hload, hval, rfl, ?_, hseen', ?_, ?_⟩
      · rcases hadds with ⟨hlt, htcnt, -⟩ | ⟨hlt, htcnt, -⟩
        · simp only [if_pos hlt]
          omega
        · simp only [if_neg hlt]
          omega
      · intro hbrk
        rw [decide_eq_false_iff_not, ge_iff_le, UInt32.le_iff_toNat_le, hticks] at hbrk
        exact Or.inl (Nat.lt_of_not_le hbrk)
      · intro hbrk
        rwa [decide_eq_true_iff, ge_iff_le, UInt32.le_iff_toNat_le, hticks] at hbrk
    · -- the same reading again: nothing has passed
      rename_i hsame
      rw [ne_eq, not_not] at hsame
      cases hs
      rw [hsame] at hreads
      have hzero : n = 0 ∧ (s.timer.pass n).reloads = s.timer.reloads := by omega
      refine ⟨hload, hval, hsame.symm, ?_, ?_, h.running, h.returned⟩
      · rw [helapsed, hzero.1]
        exact hsum
      · rw [hzero.2]
        exact hseen

theorem DelayUs.Ok.run (h : s.Ok load ticks) {facUs : UInt8} {nus : UInt32}
    (hticks : (nus * facUs.toUInt32).toNat = ticks) (hfit : ticks + load.toNat + 1 ≤ 2 ^ 32)
    {ns : List Nat} (hns : ∀ n ∈ ns, n < load.toNat + 1) {s' : DelayUs}
    (hrun : run (delayUsStep facUs nus) ns s = some s') : s'.Ok load ticks :=
  run_inv_events (fun _ _ _ hok hn hs => DelayUs.Ok.step hok hticks hfit hn hs) h hns hrun

/-- **Lower bound.** Whatever the timer was when `delay_us` began, and whenever it is
read, with less than a period between two readings: the sum is short of the counts by
the reloads, each of which the loop has seen, no iteration overflows, and when the
function returns its ticks have passed. -/
theorem delayUs_lower_bound {load val nus : UInt32} {facUs : UInt8} (hval : val ≤ load)
    (hfit : nus.toNat * facUs.toNat + load.toNat + 1 ≤ 2 ^ 32) {ns : List Nat}
    (hns : ∀ n ∈ ns, n < load.toNat + 1) {s : DelayUs}
    (hrun : run (delayUsStep facUs nus) ns (.start load val) = some s) :
    s.tcnt.toNat + s.seen = s.timer.elapsed ∧ s.seen = s.timer.reloads ∧
    (s.returned = false → ∀ n, n < load.toNat + 1 → s.Fits (s.timer.pass n).val) ∧
    (s.returned = true → nus.toNat * facUs.toNat ≤ s.timer.elapsed) := by
  have hticks : (nus * facUs.toUInt32).toNat = nus.toNat * facUs.toNat := by
    rw [UInt32.toNat_mul, UInt8.toNat_toUInt32, Nat.mod_eq_of_lt (by omega)]
  have hok := (DelayUs.Ok.start hval _).run hticks hfit hns hrun
  have hsum := hok.sum
  refine ⟨hsum, hok.seen, ?_, ?_⟩
  · intro hbrk n _
    exact hok.fits hfit hbrk n
  · intro hbrk
    have hdone := hok.returned hbrk
    omega

/-- The limits hold for every delay of up to 138 s when the operating system ticks
at 200 Hz. -/
theorem delayInit_fits (sysclk : UInt8) {nus : UInt32} (h : nus.toNat ≤ 138000000) :
    nus.toNat * (delayInit sysclk 200).facUs.toNat + (delayInit sysclk 200).load.toNat + 1 ≤
      2 ^ 32 := by
  have hfac : (sysclk / 8).toNat < 32 := by
    have hlt := sysclk.toNat_lt
    simp only [UInt8.toNat_div, UInt8.reduceToNat]
    omega
  have hload : (delayInit sysclk 200).load.toNat ≤ (sysclk / 8).toNat * 5000 := by
    have hprod : ((sysclk / 8).toUInt32 * 5000).toNat = (sysclk / 8).toNat * 5000 := by
      simp only [UInt32.toNat_mul, UInt8.toNat_toUInt32, UInt32.reduceToNat]
      omega
    calc (delayInit sysclk 200).load.toNat
        = ((sysclk / 8).toUInt32 * 5000).toNat &&& 0xffffff := UInt32.toNat_and ..
      _ ≤ ((sysclk / 8).toUInt32 * 5000).toNat := Nat.and_le_left
      _ = (sysclk / 8).toNat * 5000 := hprod
  have hmul : nus.toNat * (sysclk / 8).toNat ≤ 138000000 * 31 :=
    Nat.mul_le_mul h (by omega)
  change nus.toNat * (sysclk / 8).toNat + _ + 1 ≤ 2 ^ 32
  omega

/-- 2 µs over a reload at 168 MHz: 42 counts, and it returns after 45. -/
theorem delayUs_lower_bound_reload :
    ∃ s, run (delayUsStep (delayInit 168 200).facUs 2) [10, 25, 10]
      (.start (delayInit 168 200).load 30) = some s ∧
    s.returned = true ∧ s.tcnt = 44 ∧ s.seen = 1 ∧ 42 ≤ s.timer.elapsed := by
  have hrun : run (delayUsStep (delayInit 168 200).facUs 2) [10, 25, 10]
      (.start (delayInit 168 200).load 30) =
      some ⟨⟨105000, 104986, 45, 1⟩, 104986, 44, 1, true⟩ := by decide +kernel
  have hfit := delayInit_fits 168 (show (2 : UInt32).toNat ≤ 138000000 by decide)
  have hshort : ∀ n ∈ [10, 25, 10], n < (delayInit 168 200).load.toNat + 1 := by decide +kernel
  have hbound := delayUs_lower_bound (by decide) hfit hshort hrun
  exact ⟨_, hrun, rfl, rfl, rfl, hbound.2.2.2 rfl⟩

end Generalplate.System
