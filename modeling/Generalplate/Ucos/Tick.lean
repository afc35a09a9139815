import Mathlib.Data.List.TakeWhile
import Generalplate.Lib.TwoWay
import Generalplate.Ucos.OsList

/-! # The tick wheel of uC/OS-III

A task that waits for a tick stands in the spoke of that tick, the next ones to go first.
The tick counter may wrap around meanwhile: only the differences count. -/
namespace Generalplate.Ucos
open Lib.TwoWay

/-- `OS_CFG_TICK_WHEEL_SIZE` -/
def osCfgTickWheelSize : Nat := 17

/-- `OS_TICK_TH_RDY` -/
def osTickThRdy : UInt32 := 0xffff0000

/-- `OS_OPT_TIME_DLY`, `_TIMEOUT`, `_MATCH` and `_PERIODIC`. -/
inductive TimeOpt where
  | dly
  | timeout
  | isMatch
  | periodic
deriving DecidableEq, Repr

/-- The `OS_ERR` codes of `OS_TickListInsert`. -/
inductive TickErr where
  | none
  | timeZeroDly
deriving DecidableEq, Repr

/-- `OS_TICK_SPOKE` -/
structure TickSpoke (τ : Type*) where
  firstPtr : Option τ
  nbrEntries : UInt16
  nbrEntriesMax : UInt16

/-- `OSTickCtr`, `OSCfg_TickWheel` and what the TCBs have for them. -/
structure Wheel (τ : Type*) where
  tickCtr : UInt32
  spoke : Nat → TickSpoke τ
  links : Links τ
  tickSpokePtr : τ → Option Nat
  tickCtrMatch : τ → UInt32
  tickRemain : τ → UInt32
  tickCtrPrev : τ → UInt32

section Model
variable {τ : Type*} [DecidableEq τ]

/-- `OS_TickListInit`; the TCBs as `OS_TaskInitTCB` leaves them. -/
def Wheel.init : Wheel τ where
  tickCtr := 0
  spoke _ := ⟨none, 0, 0⟩
  links := ⟨fun _ => none, fun _ => none⟩
  tickSpokePtr _ := none
  tickCtrMatch _ := 0
  tickRemain _ := 0
  tickCtrPrev _ := 0x80000000

def Wheel.setSpoke (w : Wheel τ) (k : Nat) (s : TickSpoke τ) : Wheel τ :=
  { w with spoke := Function.update w.spoke k s }

def Wheel.setRemain (w : Wheel τ) (p : τ) (remain : UInt32) : Wheel τ :=
  { w with tickRemain := Function.update w.tickRemain p remain }

/-- The tick a task is to wait for, and the ticks until then. -/
def Wheel.setMatch (w : Wheel τ) (p : τ) (tick prev : UInt32) : Wheel τ :=
  { w with
    tickCtrMatch := Function.update w.tickCtrMatch p tick
    tickRemain := Function.update w.tickRemain p (tick - w.tickCtr)
    tickCtrPrev := Function.update w.tickCtrPrev p prev }

/-- The tick a task is to wait for, and the tick its next period starts at. -/
def tickMatch (ctr prev time : UInt32) : TimeOpt → Option (UInt32 × UInt32)
  | .isMatch => if time - ctr - 1 > osTickThRdy then none else some (time, prev)
  | .periodic =>
    if time > 0 then
      let next := prev + time
      let tick := if next - ctr - 1 < time then next else ctr + time
      some (tick, tick)
    else none
  | _ => if time > 0 then some (ctr + time, prev) else none

/-- The loop of `OS_TickListInsert` from the task `p1` on, none when it does not end. -/
def tickInsertLoop (k : Nat) (p : τ) : Nat → τ → Wheel τ → Option (Wheel τ)
  | 0, _, _ => none
  | fuel + 1, p1, w =>
    let w := w.setRemain p1 (w.tickCtrMatch p1 - w.tickCtr)
    if w.tickRemain p > w.tickRemain p1 then
      match w.links.next p1 with
      | some p2 => tickInsertLoop k p fuel p2 w
      | none =>
        some { w with links := ((w.links.setNext p none).setPrev p (some p1)).setNext p1 (some p) }
    else
      match w.links.prev p1 with
      | none =>
        let links := (w.links.setPrev p none).setNext p (some p1)
        some ({ w with links := links.setPrev p1 (some p) }.setSpoke k
          { w.spoke k with firstPtr := some p })
      | some p0 =>
        let links := (w.links.setPrev p (some p0)).setNext p (some p1)
        some { w with links := (links.setNext p0 (some p)).setPrev p1 (some p) }

/-- `OS_TickListInsert` behind the choice of the tick. -/
def tickLink (k : Nat) (p : τ) (w : Wheel τ) : Option (Wheel τ) :=
  if (w.spoke k).nbrEntries = 0 then
    some ({ w with links := (w.links.setNext p none).setPrev p none }.setSpoke k
      { w.spoke k with firstPtr := some p, nbrEntries := 1 })
  else
    let linked :=
      match (w.spoke k).firstPtr with
      | some p1 => tickInsertLoop k p (w.spoke k).nbrEntries.toNat p1 w
      | none => some w
    linked.map fun w =>
      w.setSpoke k { w.spoke k with nbrEntries := (w.spoke k).nbrEntries + 1 }

/-- `OS_TickListInsert` -/
def osTickListInsert (p : τ) (time : UInt32) (opt : TimeOpt) (w : Wheel τ) :
    Option (TickErr × Wheel τ) :=
  match tickMatch w.tickCtr (w.tickCtrPrev p) time opt with
  | none =>
    some (.timeZeroDly, { w with
      tickCtrMatch := Function.update w.tickCtrMatch p 0
      tickRemain := Function.update w.tickRemain p 0
      tickSpokePtr := Function.update w.tickSpokePtr p none })
  | some (tick, prev) =>
    let k := tick.toNat % osCfgTickWheelSize
    (tickLink k p (w.setMatch p tick prev)).map fun w =>
      let s := w.spoke k
      let w := w.setSpoke k { s with nbrEntriesMax := max s.nbrEntriesMax s.nbrEntries }
      (.none, { w with tickSpokePtr := Function.update w.tickSpokePtr p (some k) })

/-- The end of `OS_TickListRemove`, behind the links of the neighbours. -/
def Wheel.clear (w : Wheel τ) (p : τ) (k : Nat) (links : Links τ) (first : Option τ) : Wheel τ :=
  { w with
    spoke := Function.update w.spoke k
      { w.spoke k with firstPtr := first, nbrEntries := (w.spoke k).nbrEntries - 1 }
    links := (links.setNext p none).setPrev p none
    tickSpokePtr := Function.update w.tickSpokePtr p none
    tickCtrMatch := Function.update w.tickCtrMatch p 0
    tickRemain := Function.update w.tickRemain p 0 }

/-- `OS_TickListRemove`, none where it follows a null pointer. -/
def osTickListRemove (p : τ) (w : Wheel τ) : Option (Wheel τ) :=
  match w.tickSpokePtr p with
  | none => some w
  | some k =>
    if (w.spoke k).firstPtr = some p then
      match w.links.next p with
      | none => some (w.clear p k w.links none)
      | some p1 => some (w.clear p k (w.links.setPrev p1 none) (some p1))
    else
      match w.links.prev p, w.links.next p with
      | none, _ => none
      | some p1, none => some (w.clear p k (w.links.setNext p1 none) (w.spoke k).firstPtr)
      | some p1, some p2 =>
        let links := (w.links.setNext p1 (some p2)).setPrev p2 (some p1)
        some (w.clear p k links (w.spoke k).firstPtr)

end Model

/-! ## The spokes -/

/-- The ticks a task has still to wait. -/
def Wheel.remain {τ : Type*} (w : Wheel τ) (p : τ) : UInt32 := w.tickCtrMatch p - w.tickCtr

/-- The tasks that wait for a tick stand in its spoke, in the order of the ticks to come. -/
structure Wheel.Refines {τ : Type*} (w : Wheel τ) (due : τ → Option UInt32)
    (spokes : Nat → List τ) : Prop where
  linked : Linked w.links spokes
  first : ∀ k, (w.spoke k).firstPtr = (spokes k).head?
  nbr : ∀ k, (w.spoke k).nbrEntries.toNat = (spokes k).length
  mem : ∀ k p, p ∈ spokes k ↔ ∃ tick, due p = some tick ∧ tick.toNat % osCfgTickWheelSize = k
  sorted : ∀ k, (spokes k).Pairwise fun p q => w.remain p ≤ w.remain q
  tick : ∀ p tick, due p = some tick → w.tickCtrMatch p = tick ∧
    w.tickSpokePtr p = some (tick.toNat % osCfgTickWheelSize)
  out : ∀ p, due p = none → w.tickSpokePtr p = none

section Insert
variable {τ : Type*} [DecidableEq τ] {w : Wheel τ} {due : τ → Option UInt32}
  {spokes : Nat → List τ} {k : Nat} {p : τ}

theorem tickMatch_ne {ctr prev time : UInt32} {opt : TimeOpt} {tick prev' : UInt32}
    (h : tickMatch ctr prev time opt = some (tick, prev')) : tick ≠ ctr := by
  have hadd : time > 0 → ctr + time ≠ ctr := by
    intro hpos heq
    have hnat := congrArg UInt32.toNat heq
    rw [UInt32.toNat_add] at hnat
    have := UInt32.lt_iff_toNat_lt.mp hpos
    have := time.toNat_lt
    have := ctr.toNat_lt
    simp at *
    omega
  have hlast : ∀ t : UInt32, ctr - ctr - 1 < t → False := by
    intro t ht
    rw [UInt32.sub_self] at ht
    have hnat := UInt32.lt_iff_toNat_lt.mp ht
    have := t.toNat_lt
    simp at *
    omega
  cases opt with
  | isMatch =>
    simp only [tickMatch] at h
    split at h
    · cases h
    · rename_i hready
      cases h
      rintro rfl
      exact hready (by rw [UInt32.sub_self]; decide)
  | periodic =>
    simp only [tickMatch] at h
    split at h
    · rename_i hpos
      cases h
      split
      · rename_i hlt
        exact fun heq => hlast time (heq ▸ hlt)
      · exact hadd hpos
    · cases h
  | dly | timeout =>
    simp only [tickMatch] at h
    split at h
    · rename_i hpos
      cases h
      exact hadd hpos
    · cases h

/-- The task comes in front of the first one that has as long to wait. -/
theorem tickInsertLoop_spec {fuel : Nat} {p1 : τ} {front rest : List τ}
    (h : Linked w.links spokes) (hspoke : spokes k = front ++ p1 :: rest)
    (hp : p ∉ spokes k) (hfuel : rest.length < fuel)
    (hbefore : ∀ q ∈ front, w.remain q < w.tickRemain p) :
    ∃ front back remain, spokes k = front ++ back ∧
      (∀ q ∈ front, w.remain q < w.tickRemain p) ∧
      (∀ q, back.head? = some q → w.tickRemain p ≤ w.remain q) ∧
      tickInsertLoop k p fuel p1 w = some { w with
        links := w.links.insert front.getLast? p back.head?
        spoke := Function.update w.spoke k { w.spoke k with
          firstPtr := if front = [] then some p else (w.spoke k).firstPtr }
        tickRemain := remain } := by
  induction fuel generalizing w p1 front rest with
  | zero => exact absurd hfuel (Nat.not_lt_zero _)
  | succ fuel ih =>
    have hne : p1 ≠ p := fun hne => hp (hspoke ▸ hne ▸ by simp)
    obtain ⟨hnext, hprev⟩ := h.links k front p1 rest hspoke
    have hp1 : (w.setRemain p1 (w.tickCtrMatch p1 - w.tickCtr)).tickRemain p1 = w.remain p1 :=
      Function.update_self ..
    have hpr : (w.setRemain p1 (w.tickCtrMatch p1 - w.tickCtr)).tickRemain p = w.tickRemain p :=
      Function.update_of_ne hne.symm ..
    have hsame : ∀ first, first = (w.spoke k).firstPtr →
        Function.update w.spoke k { w.spoke k with firstPtr := first } = w.spoke := by
      rintro _ rfl
      exact Function.update_eq_self ..
    rw [tickInsertLoop]
    dsimp only
    rw [hp1, hpr]
    by_cases hlt : w.remain p1 < w.tickRemain p
    · rw [if_pos hlt]
      have hbefore' : ∀ q ∈ front ++ [p1], w.remain q < w.tickRemain p := by
        intro q hq
        rcases List.mem_append.mp hq with hq | hq
        · exact hbefore q hq
        · rwa [List.mem_singleton.mp hq]
      cases rest with
      | nil =>
        refine ⟨front ++ [p1], [], Function.update w.tickRemain p1 (w.remain p1),
          by rw [hspoke, List.append_nil], hbefore', nofun, ?_⟩
        dsimp only [Wheel.setRemain]
        rw [hnext, List.getLast?_concat, List.head?_nil, ← Links.insert_last hne,
          hsame _ (if_neg (by simp))]
        rfl
      | cons p2 rest =>
        have hrest : spokes k = front ++ [p1] ++ p2 :: rest := by
          rw [hspoke, List.append_assoc]
          rfl
        have hfound := @ih (w.setRemain p1 (w.tickCtrMatch p1 - w.tickCtr)) p2 (front ++ [p1]) rest
          h hrest (Nat.lt_of_succ_lt_succ hfuel) (by rwa [hpr])
        rw [hpr] at hfound
        obtain ⟨front', back', remain', hsplit, hlow, hhigh, hloop⟩ := hfound
        refine ⟨front', back', remain', hsplit, hlow, hhigh, ?_⟩
        dsimp only [Wheel.setRemain] at hloop ⊢
        rw [hnext]
        exact hloop
    · rw [if_neg hlt]
      refine ⟨front, p1 :: rest, Function.update w.tickRemain p1 (w.remain p1), hspoke, hbefore,
        fun q hq => ?_, ?_⟩
      · obtain rfl := Option.some.inj hq
        exact UInt32.not_lt.mp hlt
      dsimp only [Wheel.setRemain]
      rw [hprev, List.head?_cons]
      rcases List.eq_nil_or_concat' front with rfl | ⟨front, last, rfl⟩
      · rw [List.getLast?_nil, ← Links.insert_first hne]
        rfl
      · have hlast : last ≠ p := fun hlast => hp (by rw [hspoke, hlast]; simp)
        rw [List.getLast?_concat, ← Links.insert_between hlast hne, hsame _ (if_neg (by simp))]
        rfl

theorem tickLink_spec (h : Linked w.links spokes) (hfirst : (w.spoke k).firstPtr = (spokes k).head?)
    (hnbr : (w.spoke k).nbrEntries.toNat = (spokes k).length) (hp : p ∉ spokes k) :
    ∃ front back remain, spokes k = front ++ back ∧
      (∀ q ∈ front, w.remain q < w.tickRemain p) ∧
      (∀ q, back.head? = some q → w.tickRemain p ≤ w.remain q) ∧
      tickLink k p w = some { w with
        links := w.links.insert front.getLast? p back.head?
        spoke := Function.update w.spoke k { w.spoke k with
          firstPtr := if front = [] then some p else (w.spoke k).firstPtr
          nbrEntries := (w.spoke k).nbrEntries + 1 }
        tickRemain := remain } := by
  unfold tickLink
  cases hspoke : spokes k with
  | nil =>
    rw [hspoke] at hnbr
    have hzero : (w.spoke k).nbrEntries = 0 := UInt16.toNat_inj.mp hnbr
    rw [if_pos hzero, hzero, Links.insert_alone]
    exact ⟨[], [], w.tickRemain, rfl, nofun, nofun, rfl⟩
  | cons p1 rest =>
    have hne : (w.spoke k).nbrEntries ≠ 0 := by
      intro hzero
      rw [hzero, hspoke] at hnbr
      exact Nat.succ_ne_zero _ hnbr.symm
    have hfuel : rest.length < (w.spoke k).nbrEntries.toNat := by
      rw [hnbr, hspoke]
      exact Nat.lt_succ_self _
    obtain ⟨front, back, remain, hsplit, hlow, hhigh, hloop⟩ :=
      @tickInsertLoop_spec _ _ _ _ _ _ _ _ [] _ h hspoke hp hfuel nofun
    rw [if_neg hne, hfirst, hspoke, List.head?_cons]
    dsimp only
    rw [hloop, Option.map_some]
    refine ⟨front, back, remain, hspoke ▸ hsplit, hlow, hhigh, ?_⟩
    dsimp only [Wheel.setSpoke]
    rw [Function.update_self, Function.update_idem]
    simp only [hfirst, hspoke, List.head?_cons]

omit [DecidableEq τ] in
/-- A task that does not wait is in no spoke. -/
theorem Wheel.Refines.not_mem (h : w.Refines due spokes) (hp : due p = none) (k : Nat) :
    p ∉ spokes k := by
  intro hk
  obtain ⟨tick, htick, -⟩ := (h.mem k p).mp hk
  rw [hp] at htick
  cases htick

omit [DecidableEq τ] in
/-- **Frame.** Only what the wheel has of the tasks that wait counts. -/
theorem Wheel.Refines.congr {w' : Wheel τ} (h : w.Refines due spokes)
    (hctr : w'.tickCtr = w.tickCtr) (hlinks : w'.links = w.links) (hspoke : w'.spoke = w.spoke)
    (hmatch : ∀ q, due q ≠ none → w'.tickCtrMatch q = w.tickCtrMatch q)
    (hptr : w'.tickSpokePtr = w.tickSpokePtr) : w'.Refines due spokes := by
  refine ⟨hlinks ▸ h.linked, fun k => hspoke ▸ h.first k, fun k => hspoke ▸ h.nbr k, h.mem,
    fun k => ?_, fun q tick hq => ?_, fun q hq => hptr ▸ h.out q hq⟩
  · refine (h.sorted k).imp_of_mem fun {a b} ha hb hle => ?_
    have hsame : ∀ q ∈ spokes k, w'.remain q = w.remain q := by
      intro q hq
      obtain ⟨tick, htick, -⟩ := (h.mem k q).mp hq
      rw [Wheel.remain, hctr, hmatch q (by rw [htick]; exact Option.some_ne_none _)]
      rfl
    rwa [hsame a ha, hsame b hb]
  · rw [hmatch q (by rw [hq]; exact Option.some_ne_none _), hptr]
    exact h.tick q tick hq

/-- The wheel with a task in the spoke of its tick. -/
theorem Wheel.Refines.put {w' : Wheel τ} {tick : UInt32} {front back : List τ}
    (h : w.Refines due spokes) (hp : due p = none) (hfew : (spokes k).length + 1 < UInt16.size)
    (hk : tick.toNat % osCfgTickWheelSize = k) (hsplit : spokes k = front ++ back)
    (hlow : ∀ q ∈ front, w.remain q < tick - w.tickCtr)
    (hhigh : ∀ q, back.head? = some q → tick - w.tickCtr ≤ w.remain q)
    (hctr : w'.tickCtr = w.tickCtr) (hlinks : w'.links = w.links.insert front.getLast? p back.head?)
    (hother : ∀ j, j ≠ k → w'.spoke j = w.spoke j)
    (hfirst : (w'.spoke k).firstPtr = if front = [] then some p else (w.spoke k).firstPtr)
    (hnbr : (w'.spoke k).nbrEntries = (w.spoke k).nbrEntries + 1)
    (hmatch : w'.tickCtrMatch = Function.update w.tickCtrMatch p tick)
    (hptr : w'.tickSpokePtr = Function.update w.tickSpokePtr p (some k)) :
    w'.Refines (Function.update due p (some tick))
      (Function.update spokes k (front ++ p :: back)) := by
  have hnot := h.not_mem hp
  have hsame : ∀ q, q ≠ p → w'.remain q = w.remain q := by
    intro q hq
    rw [Wheel.remain, hmatch, hctr, Function.update_of_ne hq]
    rfl
  have hself : w'.remain p = tick - w.tickCtr := by
    rw [Wheel.remain, hmatch, hctr, Function.update_self]
  have hsorted : ∀ j, (spokes j).Pairwise fun a b => w'.remain a ≤ w'.remain b := by
    intro j
    refine (h.sorted j).imp_of_mem fun {a b} ha hb hle => ?_
    rwa [hsame a fun hap => hnot j (hap ▸ ha), hsame b fun hbp => hnot j (hbp ▸ hb)]
  refine ⟨hlinks ▸ h.linked.insert hsplit hnot, fun j => ?_, fun j => ?_, fun j q => ?_,
    fun j => ?_, fun q tick' hq => ?_, fun q hq => ?_⟩
  · by_cases hj : j = k
    · subst hj
      rw [hfirst, h.first, hsplit, Function.update_self]
      cases front <;> rfl
    · rw [hother j hj, h.first, Function.update_of_ne hj]
  · by_cases hj : j = k
    · subst hj
      rw [hnbr, nbr_add_one (h.nbr j) hfew, hsplit, Function.update_self, List.length_append,
        List.length_append]
      rfl
    · rw [hother j hj, h.nbr, Function.update_of_ne hj]
  · by_cases hq : q = p
    · subst hq
      by_cases hj : j = k
      · subst hj
        simp [hk]
      · simp [hnot j, hj, hk, Ne.symm hj]
    · rw [Function.update_of_ne hq, ← h.mem j q]
      by_cases hj : j = k
      · subst hj
        simp [hsplit, hq]
      · rw [Function.update_of_ne hj]
  · by_cases hj : j = k
    · subst hj
      have hmem : ∀ {q}, q ∈ front ++ back → w'.remain q = w.remain q := fun hq =>
        hsame _ fun hqp => hnot j (hsplit ▸ hqp ▸ hq)
      obtain ⟨hfront, hback, hboth⟩ := List.pairwise_append.mp (hsplit ▸ hsorted j)
      have hafter : ∀ b ∈ back, w'.remain p ≤ w'.remain b := by
        intro b hb
        cases back with
        | nil => cases hb
        | cons c back =>
          have hc : w'.remain p ≤ w'.remain c := by
            rw [hself, hmem (by simp)]
            exact hhigh c rfl
          rcases List.mem_cons.mp hb with rfl | hb
          · exact hc
          · exact UInt32.le_trans hc ((List.pairwise_cons.mp hback).1 b hb)
      rw [Function.update_self]
      refine List.pairwise_append.mpr ⟨hfront, List.pairwise_cons.mpr ⟨hafter, hback⟩,
        fun a ha b hb => ?_⟩
      rcases List.mem_cons.mp hb with rfl | hb
      · rw [hself, hmem (List.mem_append_left _ ha)]
        exact UInt32.le_of_lt (hlow a ha)
      · exact hboth a ha b hb
    · rw [Function.update_of_ne hj]
      exact hsorted j
  · rw [hmatch, hptr]
    by_cases hqp : q = p
    · subst hqp
      rw [Function.update_self] at hq
      obtain rfl := Option.some.inj hq
      rw [Function.update_self, Function.update_self, hk]
      exact ⟨rfl, rfl⟩
    · rw [Function.update_of_ne hqp] at hq
      rw [Function.update_of_ne hqp, Function.update_of_ne hqp]
      exact h.tick q tick' hq
  · have hqp : q ≠ p := by
      rintro rfl
      rw [Function.update_self] at hq
      cases hq
    rw [Function.update_of_ne hqp] at hq
    rw [hptr, Function.update_of_ne hqp]
    exact h.out q hq

/-- **A task that is to wait** comes into the spoke of its tick; when there is nothing to wait
for, it comes into none. -/
theorem Wheel.Refines.insert (h : w.Refines due spokes) (hp : due p = none)
    (hfew : ∀ k, (spokes k).length + 1 < UInt16.size) (time : UInt32) (opt : TimeOpt) :
    ∃ w', osTickListInsert p time opt w =
        some (if tickMatch w.tickCtr (w.tickCtrPrev p) time opt = none then .timeZeroDly else .none,
          w') ∧
      w'.tickCtr = w.tickCtr ∧
      ∃ spokes', w'.Refines (Function.update due p
        ((tickMatch w.tickCtr (w.tickCtrPrev p) time opt).map Prod.fst)) spokes' := by
  unfold osTickListInsert
  cases hmatch : tickMatch w.tickCtr (w.tickCtrPrev p) time opt with
  | none =>
    have hdue : Function.update due p none = due := Function.update_eq_self_iff.mpr hp.symm
    have hptr : Function.update w.tickSpokePtr p none = w.tickSpokePtr :=
      Function.update_eq_self_iff.mpr (h.out p hp).symm
    rw [Option.map_none, hdue]
    refine ⟨_, rfl, rfl, spokes, h.congr rfl rfl rfl (fun q hq => ?_) hptr⟩
    exact Function.update_of_ne (fun hqp => hq (by rw [hqp, hp])) ..
  | some entry =>
    obtain ⟨tick, prev⟩ := entry
    dsimp only
    have hnot := h.not_mem hp (tick.toNat % osCfgTickWheelSize)
    obtain ⟨front, back, remain, hsplit, hlow, hhigh, hlink⟩ :=
      tickLink_spec (w := w.setMatch p tick prev) h.linked (h.first _) (h.nbr _) hnot
    rw [hlink, Option.map_some]
    have hself : (w.setMatch p tick prev).tickRemain p = tick - w.tickCtr :=
      Function.update_self ..
    have hsame : ∀ q ∈ front ++ back, (w.setMatch p tick prev).remain q = w.remain q := by
      intro q hq
      have hqp : q ≠ p := fun hqp => hnot (hsplit ▸ hqp ▸ hq)
      show Function.update w.tickCtrMatch p tick q - w.tickCtr = _
      rw [Function.update_of_ne hqp]
      rfl
    rw [hself] at hlow hhigh
    refine ⟨_, rfl, rfl, _, h.put hp (hfew _) rfl hsplit ?_ ?_ rfl rfl ?_ ?_ ?_ rfl rfl⟩
    · intro q hq
      exact hsame q (List.mem_append_left _ hq) ▸ hlow q hq
    · intro q hq
      exact hsame q (List.mem_append_right _ (List.mem_of_mem_head? hq)) ▸ hhigh q hq
    · intro j hj
      simp only [Wheel.setSpoke, Function.update_of_ne hj]
      rfl
    · simp only [Wheel.setSpoke, Function.update_self]
      rfl
    · simp only [Wheel.setSpoke, Function.update_self]
      rfl

/-- The wheel without a task. -/
theorem Wheel.Refines.take {w' : Wheel τ} {front back : List τ} (h : w.Refines due spokes)
    (hsplit : spokes k = front ++ p :: back) (hctr : w'.tickCtr = w.tickCtr)
    (hlinks : w'.links = w.links.remove front.getLast? p back.head?)
    (hother : ∀ j, j ≠ k → w'.spoke j = w.spoke j)
    (hfirst : (w'.spoke k).firstPtr = if front = [] then back.head? else (w.spoke k).firstPtr)
    (hnbr : (w'.spoke k).nbrEntries = (w.spoke k).nbrEntries - 1)
    (hmatch : ∀ q, q ≠ p → w'.tickCtrMatch q = w.tickCtrMatch q)
    (hptr : w'.tickSpokePtr = Function.update w.tickSpokePtr p none) :
    w'.Refines (Function.update due p none) (Function.update spokes k (front ++ back)) := by
  have hnot := h.linked.removed hsplit
  have hsub : ∀ j, (Function.update spokes k (front ++ back) j).Sublist (spokes j) := by
    intro j
    by_cases hj : j = k
    · subst hj
      rw [Function.update_self, hsplit]
      exact (List.Sublist.refl _).append (List.sublist_cons_self _ _)
    · rw [Function.update_of_ne hj]
  refine ⟨hlinks ▸ h.linked.remove hsplit, fun j => ?_, fun j => ?_, fun j q => ?_,
    fun j => ?_, fun q tick hq => ?_, fun q hq => ?_⟩
  · by_cases hj : j = k
    · subst hj
      rw [hfirst, h.first, hsplit, Function.update_self]
      cases front <;> rfl
    · rw [hother j hj, h.first, Function.update_of_ne hj]
  · by_cases hj : j = k
    · subst hj
      rw [hnbr, Function.update_self]
      refine nbr_sub_one ((h.nbr j).trans ?_)
      rw [hsplit, List.length_append, List.length_append]
      rfl
    · rw [hother j hj, h.nbr, Function.update_of_ne hj]
  · by_cases hq : q = p
    · subst hq
      simp [hnot j]
    · rw [Function.update_of_ne hq, ← h.mem j q]
      by_cases hj : j = k
      · subst hj
        simp [hsplit, hq]
      · rw [Function.update_of_ne hj]
  · refine ((h.sorted j).sublist (hsub j)).imp_of_mem fun {a b} ha hb hle => ?_
    have hsame : ∀ q ∈ Function.update spokes k (front ++ back) j, w'.remain q = w.remain q := by
      intro q hq
      rw [Wheel.remain, hctr, hmatch q fun hqp => hnot j (hqp ▸ hq)]
      rfl
    rwa [hsame a ha, hsame b hb]
  · have hqp : q ≠ p := by
      rintro rfl
      rw [Function.update_self] at hq
      cases hq
    rw [Function.update_of_ne hqp] at hq
    rw [hmatch q hqp, hptr, Function.update_of_ne hqp]
    exact h.tick q tick hq
  · rw [hptr]
    by_cases hqp : q = p
    · rw [hqp, Function.update_self]
    · rw [Function.update_of_ne hqp] at hq ⊢
      exact h.out q hq

/-- **A task is taken off the wheel**, from where it stands in its spoke. -/
theorem Wheel.Refines.remove_at {tick : UInt32} {front back : List τ} (h : w.Refines due spokes)
    (hp : due p = some tick)
    (hsplit : spokes (tick.toNat % osCfgTickWheelSize) = front ++ p :: back) :
    ∃ w', osTickListRemove p w = some w' ∧ w'.tickCtr = w.tickCtr ∧
      w'.Refines (Function.update due p none)
        (Function.update spokes (tick.toNat % osCfgTickWheelSize) (front ++ back)) := by
  obtain ⟨hnext, hprev⟩ := h.linked.links _ front p back hsplit
  have hfirst := h.first (tick.toNat % osCfgTickWheelSize)
  have hnodup := h.linked.nodup (tick.toNat % osCfgTickWheelSize)
  rw [hsplit] at hfirst hnodup
  have hhead : (w.spoke (tick.toNat % osCfgTickWheelSize)).firstPtr = some p ↔ front = [] := by
    rw [hfirst, head?_split hnodup]
  unfold osTickListRemove
  rw [(h.tick p tick hp).2]
  dsimp only
  rw [hnext, hprev]
  have hclear : ∀ links first,
      (links.setNext p none).setPrev p none = w.links.remove front.getLast? p back.head? →
      first = (if front = [] then back.head?
        else (w.spoke (tick.toNat % osCfgTickWheelSize)).firstPtr) →
      (w.clear p (tick.toNat % osCfgTickWheelSize) links first).Refines
        (Function.update due p none)
        (Function.update spokes (tick.toNat % osCfgTickWheelSize) (front ++ back)) := by
    intro links first hlinks hfirst
    refine h.take hsplit rfl hlinks (fun j hj => Function.update_of_ne hj ..) ?_ ?_
      (fun q hq => Function.update_of_ne hq ..) rfl
    · simp only [Wheel.clear, Function.update_self]
      exact hfirst
    · simp only [Wheel.clear, Function.update_self]
  rcases List.eq_nil_or_concat' front with rfl | ⟨front, last, rfl⟩
  · rw [if_pos (hhead.mpr rfl)]
    cases back with
    | nil =>
      refine ⟨_, rfl, rfl, hclear _ _ ?_ rfl⟩
      rw [Links.setNext_setPrev, Links.remove_alone]
      rfl
    | cons next back =>
      refine ⟨_, rfl, rfl, hclear _ _ ?_ rfl⟩
      rw [Links.setNext_setPrev, Links.remove_first]
      rfl
  · have hfull : front ++ [last] ≠ [] := by simp
    rw [if_neg (mt hhead.mp hfull), List.getLast?_concat]
    cases back with
    | nil =>
      refine ⟨_, rfl, rfl, hclear _ _ ?_ (if_neg hfull).symm⟩
      rw [Links.setNext_setPrev, Links.remove_last, List.getLast?_concat]
      rfl
    | cons next back =>
      refine ⟨_, rfl, rfl, hclear _ _ ?_ (if_neg hfull).symm⟩
      rw [Links.setNext_setPrev, Links.remove_between, List.getLast?_concat]
      rfl

/-- The first task of a spoke makes room for the next one. -/
theorem osTickListRemove_first {w' : Wheel τ} (hk : w.tickSpokePtr p = some k)
    (hfirst : (w.spoke k).firstPtr = some p) (h : osTickListRemove p w = some w') :
    (w'.spoke k).firstPtr = w.links.next p ∧
      (w'.spoke k).nbrEntries = (w.spoke k).nbrEntries - 1 := by
  rw [osTickListRemove, hk] at h
  dsimp only at h
  rw [if_pos hfirst] at h
  cases hnext : w.links.next p with
  | none =>
    rw [hnext] at h
    cases h
    simp [Wheel.clear]
  | some p1 =>
    rw [hnext] at h
    cases h
    simp [Wheel.clear]

/-- A task that may wait for a tick does so no more. -/
theorem Wheel.Refines.remove (h : w.Refines due spokes) (p : τ) :
    ∃ w', osTickListRemove p w = some w' ∧ w'.tickCtr = w.tickCtr ∧
      ∃ spokes', w'.Refines (Function.update due p none) spokes' := by
  cases hp : due p with
  | none =>
    have hdue : Function.update due p none = due := Function.update_eq_self_iff.mpr hp.symm
    refine ⟨w, ?_, rfl, spokes, hdue.symm ▸ h⟩
    rw [osTickListRemove, h.out p hp]
  | some tick =>
    have hmem : p ∈ spokes (tick.toNat % osCfgTickWheelSize) := (h.mem _ p).mpr ⟨tick, hp, rfl⟩
    obtain ⟨front, back, hsplit⟩ := List.append_of_mem hmem
    obtain ⟨w', hremove, hctr, h'⟩ := h.remove_at hp hsplit
    exact ⟨w', hremove, hctr, _, h'⟩

omit [DecidableEq τ] in
theorem Wheel.Refines.init : (Wheel.init : Wheel τ).Refines (fun _ => none) fun _ => [] where
  linked := .empty
  first _ := rfl
  nbr _ := rfl
  mem k p := by simp
  sorted _ := .nil
  tick _ _ h := nomatch h
  out _ _ := rfl

end Insert

/-! ## The ticks -/

section Tick
variable {τ : Type*} {w : Wheel τ} {due : τ → Option UInt32} {spokes : Nat → List τ}

/-- What is not yet due stays in its order when the counter goes on. -/
theorem sub_succ_le {a b ctr : UInt32} (ha : a ≠ ctr) (h : a - ctr ≤ b - ctr) :
    a - (ctr + 1) ≤ b - (ctr + 1) := by
  rw [UInt32.le_iff_toNat_le, UInt32.toNat_sub, UInt32.toNat_sub] at h ⊢
  rw [UInt32.toNat_add]
  have hne : a.toNat ≠ ctr.toNat := fun heq => ha (UInt32.toNat_inj.mp heq)
  have := a.toNat_lt
  have := b.toNat_lt
  have := ctr.toNat_lt
  simp at *
  omega

/-- **A tick keeps the order** of the tasks that wait. -/
theorem Wheel.Refines.tickCtr (h : w.Refines due spokes)
    (hahead : ∀ p tick, due p = some tick → tick ≠ w.tickCtr) :
    ({ w with tickCtr := w.tickCtr + 1 } : Wheel τ).Refines due spokes := by
  refine ⟨h.linked, h.first, h.nbr, h.mem, fun k => ?_, h.tick, h.out⟩
  refine (h.sorted k).imp_of_mem fun {a b} ha hb hle => sub_succ_le ?_ hle
  obtain ⟨tick, htick, -⟩ := (h.mem k a).mp ha
  rw [(h.tick a tick htick).1]
  exact hahead a tick htick

/-- **The tasks that are due** stand in front in the spoke of the tick. -/
theorem Wheel.Refines.due_front (h : w.Refines due spokes) :
    ∃ front back, spokes (w.tickCtr.toNat % osCfgTickWheelSize) = front ++ back ∧
      (∀ p, p ∈ front ↔ due p = some w.tickCtr) ∧ ∀ p ∈ back, due p ≠ some w.tickCtr := by
  have hremain : ∀ p ∈ spokes (w.tickCtr.toNat % osCfgTickWheelSize),
      w.remain p = 0 ↔ due p = some w.tickCtr := by
    intro p hp
    obtain ⟨tick, htick, -⟩ := (h.mem _ p).mp hp
    rw [Wheel.remain, (h.tick p tick htick).1, htick, Option.some.injEq]
    grind
  have hsorted := h.sorted (w.tickCtr.toNat % osCfgTickWheelSize)
  have hlater : ∀ p ∈ (spokes (w.tickCtr.toNat % osCfgTickWheelSize)).dropWhile
      (fun p => w.remain p = 0), w.remain p ≠ 0 := by
    have hsub := hsorted.sublist (List.dropWhile_sublist fun p => w.remain p = 0)
    have hhead := List.head?_dropWhile_not (fun p => decide (w.remain p = 0))
      (spokes (w.tickCtr.toNat % osCfgTickWheelSize))
    generalize (spokes _).dropWhile _ = back at hsub hhead
    cases back with
    | nil => exact nofun
    | cons c back =>
      have hc : w.remain c ≠ 0 := by simpa using hhead
      intro p hp hzero
      rcases List.mem_cons.mp hp with rfl | hp
      · exact hc hzero
      · have hle := (List.pairwise_cons.mp hsub).1 p hp
        rw [hzero, UInt32.le_iff_toNat_le] at hle
        exact hc (UInt32.toNat_inj.mp (Nat.le_zero.mp hle))
  refine ⟨_, _, (List.takeWhile_append_dropWhile (p := fun p => w.remain p = 0)).symm,
    fun p => ⟨fun hp => ?_, fun hp => ?_⟩, fun p hp hdue => ?_⟩
  · have hmem := List.takeWhile_subset _ hp
    exact (hremain p hmem).mp (by simpa using List.mem_takeWhile_imp hp)
  · have hmem := (h.mem _ p).mpr ⟨_, hp, rfl⟩
    have hzero := (hremain p hmem).mpr hp
    rw [← List.takeWhile_append_dropWhile (p := fun p => w.remain p = 0)
      (l := spokes _)] at hmem
    exact (List.mem_append.mp hmem).resolve_right fun hback => hlater p hback hzero
  · have hmem := (List.dropWhile_sublist _).subset hp
    exact hlater p hp ((hremain p hmem).mpr hdue)

end Tick

end Generalplate.Ucos
