import Mathlib.Data.BitVec

/-! # The ready priorities of uC/OS-III

A bit for each priority, the highest priority at the top of the first word: the first
bit that is set is found by counting leading zeros. -/
namespace Generalplate.Ucos

/-- `OS_CFG_PRIO_MAX` -/
def osCfgPrioMax : Nat := 32

/-- `OS_PRIO_TBL_SIZE` -/
def osPrioTblSize : Nat := (osCfgPrioMax - 1) / 32 + 1

/-- `OS_PrioInit` -/
def osPrioInit : List (BitVec 32) := List.replicate osPrioTblSize 0

/-- `CPU_CntLeadZeros` -/
def cpuCntLeadZeros (val : BitVec 32) : Nat := val.clz.toNat

/-- The loop of `OS_PrioGetHighest`, none behind the table. -/
def prioSearch : Nat → List (BitVec 32) → Option Nat
  | _, [] => none
  | prio, word :: tbl =>
    if word = 0 then prioSearch (prio + 32) tbl else some (prio + cpuCntLeadZeros word)

def osPrioGetHighest (tbl : List (BitVec 32)) : Option Nat := prioSearch 0 tbl

/-- The bit of a priority in its word. -/
def prioBit (prio : Nat) : BitVec 32 := 1#32 <<< (31 - prio % 32)

/-- `OS_PrioInsert` and `OS_PrioRemove`, none behind the table. -/
def osPrioInsert (prio : Nat) (tbl : List (BitVec 32)) : Option (List (BitVec 32)) :=
  tbl[prio / 32]?.map fun word => tbl.set (prio / 32) (word ||| prioBit prio)

def osPrioRemove (prio : Nat) (tbl : List (BitVec 32)) : Option (List (BitVec 32)) :=
  tbl[prio / 32]?.map fun word => tbl.set (prio / 32) (word &&& ~~~prioBit prio)

/-- The bit of a priority is set. -/
def PrioSet (tbl : List (BitVec 32)) (prio : Nat) : Prop :=
  ∃ word, tbl[prio / 32]? = some word ∧ word.getLsbD (31 - prio % 32) = true

section Prio
variable {tbl : List (BitVec 32)} {prio : Nat}

theorem getLsbD_prioBit {j : Nat} (hj : j < 32) :
    (prioBit prio).getLsbD j = decide (j = 31 - prio % 32) := by
  rw [prioBit, BitVec.getLsbD_shiftLeft, BitVec.getLsbD_one, decide_eq_true hj]
  by_cases h : j = 31 - prio % 32
  · simp [h]
  · have hne : ¬ (¬ j < 31 - prio % 32 ∧ j - (31 - prio % 32) = 0) := by omega
    simpa [h] using hne

theorem prioSet_cons {word : BitVec 32} :
    PrioSet (word :: tbl) prio ↔
      prio < 32 ∧ word.getLsbD (31 - prio) = true ∨ 32 ≤ prio ∧ PrioSet tbl (prio - 32) := by
  unfold PrioSet
  by_cases h : prio < 32
  · rw [Nat.div_eq_of_lt h, Nat.mod_eq_of_lt h]
    simp [h]
  · have hdiv : prio / 32 = (prio - 32) / 32 + 1 := by omega
    have hmod : prio % 32 = (prio - 32) % 32 := by omega
    rw [hdiv, hmod, List.getElem?_cons_succ]
    simp [h, Nat.not_lt.mp h]

/-- A word of the table is written. -/
theorem prioSet_set {word word' : BitVec 32} {q : Nat} (hword : tbl[prio / 32]? = some word)
    (hsame : q / 32 = prio / 32 → q ≠ prio →
      word'.getLsbD (31 - q % 32) = word.getLsbD (31 - q % 32)) :
    PrioSet (tbl.set (prio / 32) word') q ↔
      q = prio ∧ word'.getLsbD (31 - prio % 32) = true ∨ q ≠ prio ∧ PrioSet tbl q := by
  have hlt : prio / 32 < tbl.length := (List.getElem?_eq_some_iff.mp hword).1
  unfold PrioSet
  by_cases hq : q = prio
  · subst hq
    simp [List.getElem?_set_self hlt]
  · by_cases hdiv : q / 32 = prio / 32
    · simp [hdiv, List.getElem?_set_self hlt, hq, hword, hsame hdiv hq]
    · simp [List.getElem?_set_ne (Ne.symm hdiv), hq]

theorem getElem?_of_prio (h : prio < 32 * tbl.length) : ∃ word, tbl[prio / 32]? = some word :=
  ⟨_, List.getElem?_eq_getElem (by omega)⟩

/-- Only the bit of the priority changes. -/
theorem osPrioInsert_spec (h : prio < 32 * tbl.length) :
    ∃ tbl', osPrioInsert prio tbl = some tbl' ∧ tbl'.length = tbl.length ∧
      ∀ q, PrioSet tbl' q ↔ q = prio ∨ PrioSet tbl q := by
  obtain ⟨word, hword⟩ := getElem?_of_prio h
  refine ⟨_, by rw [osPrioInsert, hword]; rfl, List.length_set, fun q => ?_⟩
  rw [prioSet_set hword]
  · rw [BitVec.getLsbD_or, getLsbD_prioBit (by omega)]
    by_cases hq : q = prio <;> simp [hq]
  · intro hdiv hq
    have hbit : 31 - q % 32 ≠ 31 - prio % 32 := by omega
    rw [BitVec.getLsbD_or, getLsbD_prioBit (by omega), decide_eq_false hbit, Bool.or_false]

theorem osPrioRemove_spec (h : prio < 32 * tbl.length) :
    ∃ tbl', osPrioRemove prio tbl = some tbl' ∧ tbl'.length = tbl.length ∧
      ∀ q, PrioSet tbl' q ↔ q ≠ prio ∧ PrioSet tbl q := by
  obtain ⟨word, hword⟩ := getElem?_of_prio h
  have hbits : ∀ j, j < 32 → (word &&& ~~~prioBit prio).getLsbD j =
      (word.getLsbD j && !decide (j = 31 - prio % 32)) := by
    intro j hj
    rw [BitVec.getLsbD_and, BitVec.getLsbD_not, getLsbD_prioBit hj, decide_eq_true hj,
      Bool.true_and]
  refine ⟨_, by rw [osPrioRemove, hword]; rfl, List.length_set, fun q => ?_⟩
  rw [prioSet_set hword]
  · rw [hbits _ (by omega)]
    simp
  · intro hdiv hq
    have hbit : 31 - q % 32 ≠ 31 - prio % 32 := by omega
    rw [hbits _ (by omega), decide_eq_false hbit, Bool.not_false, Bool.and_true]

/-- Leading zeros end at the first bit that is set. -/
theorem cpuCntLeadZeros_spec {word : BitVec 32} (h : word ≠ 0) :
    cpuCntLeadZeros word < 32 ∧ word.getLsbD (31 - cpuCntLeadZeros word) = true ∧
      ∀ q, q < 32 → word.getLsbD (31 - q) = true → cpuCntLeadZeros word ≤ q := by
  refine ⟨?_, BitVec.getLsbD_true_clz_of_ne_zero (by decide) h, fun q hq hbit => ?_⟩
  · exact BitVec.clz_lt_iff_ne_zero.mpr h
  · by_contra hlt
    have hbelow : word.toNat < 2 ^ (31 - q) :=
      BitVec.toNat_lt_two_pow_sub_clz.trans_le
        (Nat.pow_le_pow_right (by decide) (by unfold cpuCntLeadZeros at hlt; omega))
    rw [← BitVec.testBit_toNat, Nat.testBit_lt_two_pow hbelow] at hbit
    cases hbit

theorem prioSearch_spec (base : Nat) (h : PrioSet tbl prio) :
    ∃ p, prioSearch base tbl = some (base + p) ∧ PrioSet tbl p ∧ ∀ q, PrioSet tbl q → p ≤ q := by
  induction tbl generalizing base prio with
  | nil => exact absurd h fun ⟨_, hword, _⟩ => nomatch hword
  | cons word tbl ih =>
    unfold prioSearch
    by_cases hword : word = 0
    · rw [if_pos hword]
      have hset : ∀ q, PrioSet (word :: tbl) q ↔ 32 ≤ q ∧ PrioSet tbl (q - 32) := by
        intro q
        rw [prioSet_cons, hword]
        simp
      obtain ⟨hle, hrest⟩ := (hset prio).mp h
      obtain ⟨p, hsearch, hp, hleast⟩ := ih (base + 32) hrest
      refine ⟨32 + p, by rw [hsearch, Nat.add_assoc], (hset _).mpr ⟨by omega, ?_⟩, fun q hq => ?_⟩
      · rwa [Nat.add_sub_cancel_left]
      · obtain ⟨hle, hq⟩ := (hset q).mp hq
        have := hleast _ hq
        omega
    · rw [if_neg hword]
      obtain ⟨hlt, hbit, hfirst⟩ := cpuCntLeadZeros_spec hword
      refine ⟨_, rfl, prioSet_cons.mpr (Or.inl ⟨hlt, hbit⟩), fun q hq => ?_⟩
      rcases prioSet_cons.mp hq with ⟨hq, hqbit⟩ | ⟨hq, -⟩
      · exact hfirst q hq hqbit
      · omega

/-- **The highest ready priority** is the least number whose bit is set. -/
theorem osPrioGetHighest_spec (h : PrioSet tbl prio) :
    ∃ p, osPrioGetHighest tbl = some p ∧ PrioSet tbl p ∧ ∀ q, PrioSet tbl q → p ≤ q := by
  obtain ⟨p, hsearch, hp, hleast⟩ := prioSearch_spec 0 h
  exact ⟨p, by rw [osPrioGetHighest, hsearch, Nat.zero_add], hp, hleast⟩

end Prio

end Generalplate.Ucos
