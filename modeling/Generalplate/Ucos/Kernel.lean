import Generalplate.Ucos.Tasks
import Generalplate.Ucos.View

/-! # The lists of the kernel

What the lists hold is what the states of the tasks say: a task that is ready stands in the
list of its priority, one that waits for a tick in the wheel, one that waits for an object in
the pend list of that object. A critical section works on one task; while it does, the others
stand where their states say. -/
namespace Generalplate.Ucos
open Lib.TwoWay

/-- The states that wait for an object or a signal. -/
def TaskState.pends : TaskState → Bool
  | .pend | .pendTimeout | .pendSuspended | .pendTimeoutSuspended => true
  | .rdy | .dly | .suspended | .dlySuspended | .del => false

/-- The ready list a task is to be in. -/
def Tcb.rdyAt {κ : Type*} (t : Tcb κ) : Option Nat :=
  if t.taskState = .rdy then some t.prio else none

/-- The fields of a task say the same. -/
structure Tcb.Ok {κ : Type*} (t : Tcb κ) : Prop where
  prio : t.prio < osCfgPrioMax
  state : t.taskState ≠ .del
  pendOn : t.pendOn ≠ .nothing ↔ t.taskState.pends = true
  pendObj : t.pendObj.isSome ↔ t.pendOn = .sem

section Invariant
variable {τ κ : Type*}

/-- A task stands where its state says; one that is none, nowhere. -/
structure Kernel.Stands (s : Kernel τ κ) (v : View τ κ) (p : τ) : Prop where
  live : p ∈ s.taskDbgList → (s.tcb p).Ok ∧
    ∃ t, v.At p (s.tcb p).rdyAt t (s.tcb p).pendObj ∧ t.isSome = (s.tcb p).taskState.timed
  dead : p ∉ s.taskDbgList → (s.tcb p).pendObj = none ∧ v.At p none none none

/-- The lists are well linked, and in their order. -/
structure Kernel.Lists (s : Kernel τ κ) (v : View τ κ) : Prop where
  ready : s.ready.Refines v.rdy
  tbl : s.ready.prioTbl.length = osPrioTblSize
  wheel : ∃ spokes, s.wheel.Refines v.due spokes
  pends : s.pends.Refines v.waits
  order : ∀ k, (v.waits k).Pairwise fun p q => (s.tcb p).prio ≤ (s.tcb q).prio
  sem : ∀ k, s.sem k ≠ 0 → v.waits k = []
  tasks : s.taskDbgList.Nodup

/-- The idle task is always ready. -/
structure Kernel.IdleRdy (s : Kernel τ κ) : Prop where
  live : s.idleTask ∈ s.taskDbgList
  rdy : (s.tcb s.idleTask).taskState = .rdy

/-- **The invariant** of the kernel, whose tasks are no more than 16 bits count. -/
structure Kernel.Inv (s : Kernel τ κ) (v : View τ κ) : Prop extends s.Lists v, s.IdleRdy where
  stands : ∀ p, s.Stands v p
  few : s.taskDbgList.length < UInt16.size

/-- Inside a critical section, which works on the task `p` and has room for it in every list. -/
structure Kernel.Mid (s : Kernel τ κ) (v : View τ κ) (p : τ) (r : Option Nat)
    (t : Option UInt32) (k : Option κ) : Prop extends s.Lists v where
  others : ∀ q, q ≠ p → s.Stands v q
  room : ∀ tasks : List τ, tasks.Nodup → tasks ⊆ p :: s.taskDbgList → tasks.length < UInt16.size
  idleRdy : s.idleTask ≠ p → s.IdleRdy
  at_p : v.At p r t k

/-- Only the TCB of `p` is written, and no variable of the kernel. -/
structure Kernel.Sets [DecidableEq τ] (s : Kernel τ κ) (s' : Kernel τ κ) (p : τ) (t : Tcb κ) :
    Prop where
  globals : s'.toGlobals = s.toGlobals
  tickCtr : s'.wheel.tickCtr = s.wheel.tickCtr
  tcb : s'.tcb = Function.update s.tcb p t

end Invariant

section Sets
variable {τ κ : Type*} [DecidableEq τ] {s s' s'' : Kernel τ κ} {p : τ} {t t' : Tcb κ}

theorem Kernel.Sets.trans (h : s.Sets s' p t) (h' : s'.Sets s'' p t') : s.Sets s'' p t' where
  globals := h'.globals.trans h.globals
  tickCtr := h'.tickCtr.trans h.tickCtr
  tcb := by rw [h'.tcb, h.tcb, Function.update_idem]

theorem Kernel.Sets.self (h : s.Sets s' p t) : s'.tcb p = t := by
  rw [h.tcb, Function.update_self]

theorem Kernel.Sets.setTcb : s.Sets (s.setTcb p t) p t := ⟨rfl, rfl, rfl⟩

theorem Kernel.Sets.setState {state : TaskState} :
    s.Sets (s.setState p state) p { s.tcb p with taskState := state } := ⟨rfl, rfl, rfl⟩

theorem Kernel.Sets.lists {ready : Ready τ} {wheel : Wheel τ} {pends : Pends τ κ}
    (h : wheel.tickCtr = s.wheel.tickCtr) :
    s.Sets { s with ready := ready, wheel := wheel, pends := pends } p (s.tcb p) :=
  ⟨rfl, h, (Function.update_eq_self p s.tcb).symm⟩

end Sets

/-! ## The lists, one at a time -/

section Lists
variable {τ κ : Type*} [DecidableEq τ] {s s' : Kernel τ κ} {v v' : View τ κ}
  {p : τ} {r : Option Nat} {t : Option UInt32} {k : Option κ}

omit [DecidableEq τ] in
theorem Kernel.Stands.congr {q : τ} (h : s.Stands v q) (htcb : s'.tcb q = s.tcb q)
    (hlive : q ∈ s'.taskDbgList ↔ q ∈ s.taskDbgList)
    (hat : ∀ {r t k}, v.At q r t k → v'.At q r t k) : s'.Stands v' q := by
  constructor
  · intro hq
    obtain ⟨hok, t, hstand, htimed⟩ := h.live (hlive.mp hq)
    rw [htcb]
    exact ⟨hok, t, hat hstand, htimed⟩
  · intro hq
    obtain ⟨hobj, hstand⟩ := h.dead (mt hlive.mpr hq)
    rw [htcb]
    exact ⟨hobj, hat hstand⟩

/-- A step on the lists of one task leaves the others where they stand. -/
theorem Kernel.Mid.step {r' : Option Nat} {t' : Option UInt32} {k' : Option κ}
    (h : s.Mid v p r t k) (hlists : s'.Lists v') (hat : v'.At p r' t' k')
    (hothers : ∀ q, q ≠ p → ∀ {r t k}, v.At q r t k → v'.At q r t k) {tcb : Tcb κ}
    (hsets : s.Sets s' p tcb) : s'.Mid v' p r' t' k' := by
  have htcb : ∀ q, q ≠ p → s'.tcb q = s.tcb q := by
    intro q hq
    rw [hsets.tcb, Function.update_of_ne hq]
  refine ⟨hlists, fun q hq => ?_, ?_, fun hidle => ?_, hat⟩
  · exact (h.others q hq).congr (htcb q hq) (by rw [hsets.globals]) (hothers q hq)
  · rw [hsets.globals]
    exact h.room
  · rw [hsets.globals] at hidle
    have hrdy := h.idleRdy hidle
    refine ⟨by rw [hsets.globals]; exact hrdy.live, ?_⟩
    rw [hsets.globals, htcb _ hidle]
    exact hrdy.rdy

omit [DecidableEq τ] in
/-- There is room for the task in any list that it is not in. -/
theorem Kernel.Mid.few {tasks : List τ} (h : s.Mid v p r t k) (hnodup : tasks.Nodup)
    (hp : p ∉ tasks) (hlisted : ∀ q ∈ tasks, ¬ v.At q none none none) :
    tasks.length + 1 < UInt16.size := by
  refine h.room (p :: tasks) (List.nodup_cons.mpr ⟨hp, hnodup⟩)
    (List.cons_subset_cons p fun q hq => ?_)
  by_contra hdead
  have hqp : q ≠ p := fun hqp => hp (hqp ▸ hq)
  exact hlisted q hq ((h.others q hqp).dead hdead).2

omit [DecidableEq τ] in
theorem Kernel.Mid.rdy_few (h : s.Mid v p r t k) {prio : Nat} (hp : p ∉ v.rdy prio) :
    (v.rdy prio).length + 1 < UInt16.size :=
  h.few (h.ready.linked.nodup prio) hp fun _ hq hat => nomatch (hat.rdy prio).mp hq

/-- The TCB is written; its priority stays while the task waits behind others. -/
theorem Kernel.Mid.setTcb_alone {c : Tcb κ} (h : s.Mid v p r t k)
    (hprio : ∀ j, p ∈ v.waits j → c.prio = (s.tcb p).prio ∨ v.waits j = [p]) :
    (s.setTcb p c).Mid v p r t k := by
  refine h.step ⟨h.ready, h.tbl, h.wheel, h.pends, fun j => ?_, h.sem, h.tasks⟩ h.at_p
    (fun _ _ {_ _ _} hat => hat) .setTcb
  by_cases halone : v.waits j = [p]
  · rw [halone]
    exact List.pairwise_singleton ..
  · refine (h.order j).imp_of_mem fun {a b} ha hb hle => ?_
    have hsame : ∀ q ∈ v.waits j, ((s.setTcb p c).tcb q).prio = (s.tcb q).prio := by
      intro q hq
      by_cases hqp : q = p
      · subst hqp
        rw [Kernel.Sets.setTcb.self]
        exact (hprio j hq).resolve_right halone
      · simp only [Kernel.setTcb, Function.update_of_ne hqp]
    rwa [hsame a ha, hsame b hb]

theorem Kernel.Mid.setTcb {c : Tcb κ} (h : s.Mid v p r t k)
    (hprio : k = none ∨ c.prio = (s.tcb p).prio) : (s.setTcb p c).Mid v p r t k := by
  refine h.setTcb_alone fun j hj => ?_
  rcases hprio with rfl | hprio
  · exact absurd ((h.at_p.waits j).mp hj) (by simp)
  · exact Or.inl hprio

theorem Kernel.Mid.setState (h : s.Mid v p r t k) (state : TaskState) :
    (s.setState p state).Mid v p r t k :=
  h.setTcb (Or.inr rfl)

omit [DecidableEq τ] in
theorem Kernel.Lists.rdy_bound {prio : Nat} (h : s.Lists v) (hprio : prio < osCfgPrioMax) :
    prio < 32 * s.ready.prioTbl.length := by
  rw [h.tbl]
  exact hprio

theorem Kernel.Mid.rdyListInsert {prio : Nat} (h : s.Mid v p none t k)
    (hp : (s.tcb p).prio = prio) (hprio : prio < osCfgPrioMax) :
    ∃ s', s.rdyListInsert p = some s' ∧ s.Sets s' p (s.tcb p) ∧ s'.wheel = s.wheel ∧
      s'.Mid (v.rdyInsert (prio ≠ s.prioCur) prio p) p (some prio) t k := by
  subst hp
  have hout : ∀ q, p ∉ v.rdy q := fun q hq => by simpa using (h.at_p.rdy q).mp hq
  obtain ⟨ready, hinsert, hready, htbl⟩ := h.ready.insert s.prioCur hout (h.rdy_bound hprio)
    (h.rdy_few (hout _))
  have hlists : (v.rdyInsert ((s.tcb p).prio ≠ s.prioCur) (s.tcb p).prio p).rdy =
      Function.update v.rdy (s.tcb p).prio (if (s.tcb p).prio = s.prioCur then
        v.rdy (s.tcb p).prio ++ [p] else p :: v.rdy (s.tcb p).prio) := by
    simp [View.rdyInsert]
  refine ⟨{ s with ready := ready }, by rw [Kernel.rdyListInsert, hinsert]; rfl, .lists rfl, rfl,
    h.step ⟨hlists ▸ hready, htbl.trans h.tbl, h.wheel, h.pends, h.order, h.sem, h.tasks⟩
      h.at_p.rdyInsert (fun q hq {_ _ _} hat => hat.rdyInsert_other hq) (.lists rfl)⟩

theorem Kernel.Mid.rdyListInsertAt {prio : Nat} (h : s.Mid v p none t k) (head : Bool)
    (hp : (s.tcb p).prio = prio) (hprio : prio < osCfgPrioMax) :
    ∃ s', s.rdyListInsertAt head p = some s' ∧ s.Sets s' p (s.tcb p) ∧
      s'.Mid (v.rdyInsert head prio p) p (some prio) t k := by
  subst hp
  have hout : ∀ q, p ∉ v.rdy q := fun q hq => by simpa using (h.at_p.rdy q).mp hq
  -- the ends of the list are those of `OS_RdyListInsert`, for one running priority or another
  obtain ⟨ready, hinsert, hready, htbl⟩ := h.ready.insert
    (if head then (s.tcb p).prio + 1 else (s.tcb p).prio) hout (h.rdy_bound hprio)
    (h.rdy_few (hout _))
  have hcur : ((s.tcb p).prio = if head then (s.tcb p).prio + 1 else (s.tcb p).prio) ↔
      head = false := by
    cases head <;> simp
  have hsame : s.rdyListInsertAt head p = some { s with ready := ready } := by
    rw [osRdyListInsert] at hinsert
    rw [Kernel.rdyListInsertAt]
    obtain ⟨tbl, htbl, hinsert⟩ := Option.bind_eq_some_iff.mp hinsert
    rw [htbl, Option.bind_some]
    cases head
    · rw [if_pos (hcur.mpr rfl)] at hinsert
      simp [hinsert]
    · rw [if_neg (by simp)] at hinsert
      simp [hinsert]
  have hlists : (v.rdyInsert head (s.tcb p).prio p).rdy =
      Function.update v.rdy (s.tcb p).prio (if (s.tcb p).prio =
        (if head then (s.tcb p).prio + 1 else (s.tcb p).prio) then
          v.rdy (s.tcb p).prio ++ [p] else p :: v.rdy (s.tcb p).prio) := by
    cases head <;> simp [View.rdyInsert]
  refine ⟨_, hsame, .lists rfl,
    h.step ⟨hlists ▸ hready, htbl.trans h.tbl, h.wheel, h.pends, h.order, h.sem, h.tasks⟩
      h.at_p.rdyInsert (fun q hq {_ _ _} hat => hat.rdyInsert_other hq) (.lists rfl)⟩

theorem Kernel.Mid.rdyListRemove {prio : Nat} (h : s.Mid v p (some prio) t k)
    (hp : (s.tcb p).prio = prio) (hprio : prio < osCfgPrioMax) :
    ∃ s', s.rdyListRemove p = some s' ∧ s.Sets s' p (s.tcb p) ∧
      s'.Mid (v.rdyRemove p) p none t k := by
  subst hp
  obtain ⟨front, back, hsplit⟩ := List.append_of_mem ((h.at_p.rdy _).mpr rfl)
  obtain ⟨ready, hremove, hready, htbl⟩ := h.ready.remove hsplit (h.rdy_bound hprio)
  rw [h.ready.linked.erase hsplit] at hready
  refine ⟨{ s with ready := ready }, by rw [Kernel.rdyListRemove, hremove]; rfl, .lists rfl,
    h.step ⟨hready, htbl.trans h.tbl, h.wheel, h.pends, h.order, h.sem, h.tasks⟩
      (h.at_p.rdyRemove h.ready.linked.nodup)
      (fun q hq {_ _ _} hat => hat.rdyRemove_other hq) (.lists rfl)⟩

theorem Kernel.Mid.tickListInsert (h : s.Mid v p r none k) (time : UInt32) (opt : TimeOpt) :
    ∃ s', s.tickListInsert p time opt =
        some (if tickMatch s.wheel.tickCtr (s.wheel.tickCtrPrev p) time opt = none
          then .timeZeroDly else .none, s') ∧ s.Sets s' p (s.tcb p) ∧
      s'.Mid (v.setDue p
        ((tickMatch s.wheel.tickCtr (s.wheel.tickCtrPrev p) time opt).map Prod.fst)) p r
        ((tickMatch s.wheel.tickCtr (s.wheel.tickCtrPrev p) time opt).map Prod.fst) k := by
  obtain ⟨spokes, hwheel⟩ := h.wheel
  have hfew : ∀ j, (spokes j).length + 1 < UInt16.size := by
    refine fun j => h.few (hwheel.linked.nodup j) (hwheel.not_mem h.at_p.due j) fun q hq hat => ?_
    exact hwheel.not_mem hat.due j hq
  obtain ⟨wheel, hinsert, hctr, spokes', hwheel'⟩ := hwheel.insert h.at_p.due hfew time opt
  refine ⟨{ s with wheel := wheel }, by rw [Kernel.tickListInsert, hinsert]; rfl, .lists hctr,
    h.step ⟨h.ready, h.tbl, ⟨spokes', hwheel'⟩, h.pends, h.order, h.sem, h.tasks⟩
      h.at_p.setDue (fun q hq {_ _ _} hat => hat.setDue_other hq) (.lists hctr)⟩

theorem Kernel.Mid.tickListRemove (h : s.Mid v p r t k) :
    ∃ s', s.tickListRemove p = some s' ∧ s.Sets s' p (s.tcb p) ∧
      osTickListRemove p s.wheel = some s'.wheel ∧ s'.Mid (v.setDue p none) p r none k := by
  obtain ⟨spokes, hwheel⟩ := h.wheel
  obtain ⟨wheel, hremove, hctr, spokes', hwheel'⟩ := hwheel.remove p
  refine ⟨{ s with wheel := wheel }, by rw [Kernel.tickListRemove, hremove]; rfl, .lists hctr,
    hremove,
    h.step ⟨h.ready, h.tbl, ⟨spokes', hwheel'⟩, h.pends, h.order, h.sem, h.tasks⟩
      h.at_p.setDue (fun q hq {_ _ _} hat => hat.setDue_other hq) (.lists hctr)⟩

variable [DecidableEq κ]

theorem Kernel.Mid.pendListInsertPrio {j : κ} (h : s.Mid v p r t none) (hsem : s.sem j = 0) :
    ∃ s', s.pendListInsertPrio j p = some s' ∧ s.Sets s' p (s.tcb p) ∧
      s'.Mid (v.pendInsert (fun q => (s.tcb q).prio) j p) p r t (some j) := by
  have hout : ∀ i, p ∉ v.waits i := fun i hi => by simpa using (h.at_p.waits i).mp hi
  obtain ⟨pends, hinsert, hpends⟩ := h.pends.insertPrio (k := j) (fun q => (s.tcb q).prio) hout
    (h.few (h.pends.linked.nodup j) (hout j) fun _ hq hat => nomatch (hat.waits j).mp hq)
  have horder : ∀ i, ((v.pendInsert (fun q => (s.tcb q).prio) j p).waits i).Pairwise
      fun a b => (s.tcb a).prio ≤ (s.tcb b).prio := by
    intro i
    by_cases hi : i = j
    · subst hi
      simpa [View.pendInsert] using pairwise_orderedInsert (fun q => (s.tcb q).prio) p (h.order i)
    · simpa [View.pendInsert, hi] using h.order i
  have hfree : ∀ i, s.sem i ≠ 0 → (v.pendInsert (fun q => (s.tcb q).prio) j p).waits i = [] := by
    intro i hi
    have hij : i ≠ j := fun hij => hi (hij ▸ hsem)
    simpa [View.pendInsert, hij] using h.sem i hi
  refine ⟨{ s with pends := pends }, by rw [Kernel.pendListInsertPrio, hinsert]; rfl, .lists rfl,
    h.step ⟨h.ready, h.tbl, h.wheel, hpends, horder, hfree, h.tasks⟩
      h.at_p.pendInsert (fun q hq {_ _ _} hat => hat.pendInsert_other hq) (.lists rfl)⟩

theorem Kernel.Mid.pendListRemove1 {j : κ} (h : s.Mid v p r t (some j)) :
    ∃ s', s.pendListRemove1 j p = some s' ∧ s.Sets s' p (s.tcb p) ∧ s'.wheel = s.wheel ∧
      s'.Mid (v.pendRemove p) p r t none := by
  obtain ⟨front, back, hsplit⟩ := List.append_of_mem ((h.at_p.waits j).mpr rfl)
  obtain ⟨pends, hremove, hpends⟩ := h.pends.remove1 hsplit
  rw [h.pends.linked.erase hsplit] at hpends
  have hfree : ∀ i, s.sem i ≠ 0 → (v.waits i).erase p = [] := by
    intro i hi
    rw [h.sem i hi, List.erase_nil]
  refine ⟨{ s with pends := pends }, by rw [Kernel.pendListRemove1, hremove]; rfl, .lists rfl,
    rfl,
    h.step ⟨h.ready, h.tbl, h.wheel, hpends, fun i => (h.order i).sublist List.erase_sublist,
        hfree, h.tasks⟩
      (h.at_p.pendRemove h.pends.linked.nodup)
      (fun q hq {_ _ _} hat => hat.pendRemove_other hq) (.lists rfl)⟩

end Lists

/-! ## Critical sections -/

/-- The task waits no more; one that is suspended stays so. -/
def Tcb.pendEnd {κ : Type*} (status : PendStatus) (t : Tcb κ) : Tcb κ :=
  { t with
    taskState := if t.taskState.bitSuspended then .suspended else .rdy
    pendStatus := status
    pendOn := .nothing
    pendObj := none }

/-- The task waits from now on. -/
def Tcb.pend {κ : Type*} (pendingOn : PendOn) (obj : Option κ) (timeout : UInt32) (t : Tcb κ) :
    Tcb κ :=
  { t with
    taskState := if timeout > 0 then .pendTimeout else .pend
    pendStatus := .ok
    pendOn := pendingOn
    pendObj := obj }

section Sections
variable {τ κ : Type*} [DecidableEq τ] [DecidableEq κ] {s s' : Kernel τ κ} {v v' : View τ κ}
  {p : τ} {r : Option Nat} {t : Option UInt32} {k : Option κ} {tcb : Tcb κ}

def View.wake (suspended : Bool) (prioCur prio : Nat) (p : τ) (v : View τ κ) : View τ κ :=
  let v := (v.pendRemove p).setDue p none
  if suspended then v else v.rdyInsert (prio ≠ prioCur) prio p

omit [DecidableEq κ] in
theorem View.wake_waits {suspended : Bool} {prioCur prio : Nat} (j : κ) :
    (v.wake suspended prioCur prio p).waits j = (v.waits j).erase p := by
  unfold View.wake
  dsimp only
  split <;> rfl

omit [DecidableEq κ] in
theorem View.wake_due {suspended : Bool} {prioCur prio : Nat} :
    (v.wake suspended prioCur prio p).due = Function.update v.due p none := by
  unfold View.wake
  dsimp only
  split <;> rfl

def View.block (due : Option UInt32) (obj : Option κ) (prio : τ → Nat) (p : τ) (v : View τ κ) :
    View τ κ :=
  let v := (v.setDue p due).rdyRemove p
  match obj with
  | some k => v.pendInsert prio k p
  | none => v

theorem View.block_due {due : Option UInt32} {prio : τ → Nat} (obj : Option κ) :
    (v.block due obj prio p).due = Function.update v.due p due := by
  cases obj <;> rfl

omit [DecidableEq τ] [DecidableEq κ] in
theorem Kernel.Inv.ok (h : s.Inv v) (hp : p ∈ s.taskDbgList) : (s.tcb p).Ok :=
  ((h.stands p).live hp).1

omit [DecidableEq τ] [DecidableEq κ] in
/-- A critical section begins, -/
theorem Kernel.Inv.mid (h : s.Inv v) (hp : p ∈ s.taskDbgList) :
    s.Mid v p (s.tcb p).rdyAt (v.due p) (s.tcb p).pendObj ∧
      (v.due p).isSome = (s.tcb p).taskState.timed := by
  obtain ⟨-, t, hstand, htimed⟩ := (h.stands p).live hp
  obtain rfl := hstand.due
  have hroom : ∀ tasks : List τ, tasks.Nodup → tasks ⊆ p :: s.taskDbgList →
      tasks.length < UInt16.size := by
    intro tasks hnodup hsub
    have hlive := List.Subset.trans hsub (List.cons_subset.mpr ⟨hp, List.Subset.refl _⟩)
    exact (List.subperm_of_subset hnodup hlive).length_le.trans_lt h.few
  exact ⟨⟨h.toLists, fun q _ => h.stands q, hroom, fun _ => h.toIdleRdy, hstand⟩, htimed⟩

omit [DecidableEq κ] in
/-- and it ends when the task stands where its state says. -/
theorem Kernel.Mid.inv (h : s'.Mid v' p r t k) (hsets : s.Sets s' p tcb)
    (hp : p ∈ s.taskDbgList) (hok : tcb.Ok) (hr : r = tcb.rdyAt) (hk : k = tcb.pendObj)
    (ht : t.isSome = tcb.taskState.timed) (hidle : s.idleTask = p → tcb.taskState = .rdy) :
    s'.Inv v' := by
  have hself := hsets.self
  have hlive : p ∈ s'.taskDbgList := by rwa [hsets.globals]
  refine ⟨h.toLists, ?_, fun q => ?_, h.room _ h.tasks (List.subset_cons_self p _)⟩
  · by_cases hq : s'.idleTask = p
    · refine ⟨hq ▸ hlive, ?_⟩
      rw [hq, hself]
      exact hidle (by rwa [hsets.globals] at hq)
    · exact h.idleRdy hq
  · by_cases hq : q = p
    · subst hq
      refine ⟨fun _ => ?_, fun hdead => absurd hlive hdead⟩
      rw [hself]
      exact ⟨hok, t, hr ▸ hk ▸ h.at_p, ht⟩
    · exact h.others q hq

omit [DecidableEq κ] in
theorem Kernel.Sets.prio (h : s.Sets s' p tcb) (hprio : tcb.prio = (s.tcb p).prio) :
    (fun q => (s'.tcb q).prio) = fun q => (s.tcb q).prio := by
  funext q
  rw [h.tcb]
  by_cases hq : q = p
  · rw [hq, Function.update_self, hprio]
  · rw [Function.update_of_ne hq]

theorem osPendListRemove_spec (h : s.Mid v p r t (s.tcb p).pendObj) :
    ∃ s', osPendListRemove p s = some s' ∧ s.Sets s' p { s.tcb p with pendObj := none } ∧
      s'.wheel = s.wheel ∧ s'.Mid (v.pendRemove p) p r t none := by
  unfold osPendListRemove
  cases hobj : (s.tcb p).pendObj with
  | none =>
    rw [hobj] at h
    have hself : { s.tcb p with pendObj := none } = s.tcb p := by rw [← hobj]
    rw [h.at_p.pendRemove_none, hself]
    exact ⟨s, rfl, .lists rfl, rfl, h⟩
  | some j =>
    rw [hobj] at h
    obtain ⟨s1, hremove, hsets, hwheel, hmid⟩ := h.pendListRemove1
    dsimp only
    rw [hremove, Option.map_some, hsets.self]
    exact ⟨_, rfl, hsets.trans .setTcb, hwheel, hmid.setTcb (Or.inl rfl)⟩

omit [DecidableEq κ] in
theorem osTaskRdy_spec (h : s.Mid v p none t k) (hrun : (s.tcb p).taskState.bitSuspended = false)
    (hprio : (s.tcb p).prio < osCfgPrioMax) :
    ∃ s', osTaskRdy p s = some s' ∧ s.Sets s' p (s.tcb p) ∧
      osTickListRemove p s.wheel = some s'.wheel ∧
      s'.Mid ((v.setDue p none).rdyInsert ((s.tcb p).prio ≠ s.prioCur) (s.tcb p).prio p) p
        (some (s.tcb p).prio) none k := by
  obtain ⟨s1, hremove, hsets, hwheel, hmid⟩ := h.tickListRemove
  obtain ⟨s2, hinsert, hsets', hwheel', hmid'⟩ := hmid.rdyListInsert rfl (by rwa [hsets.self])
  rw [hsets.self] at hsets' hmid'
  rw [osTaskRdy, hremove, Option.bind_some, hsets.self, hrun, if_neg Bool.false_ne_true]
  rw [hsets.globals] at hmid'
  exact ⟨s2, hinsert, hsets.trans hsets', hwheel' ▸ hwheel, hmid'⟩

omit [DecidableEq τ] [DecidableEq κ] in
/-- There is no pend data to clear. -/
theorem Tcb.pendObj_none {tcb : Tcb κ} (h : tcb.pendObj = none) :
    { tcb with pendObj := none } = tcb := by
  rw [← h]

theorem osPendEnd_eq (hpends : (s.tcb p).taskState.pends = true) (status : PendStatus)
    (listed : Bool) :
    osPendEnd status listed p s =
      (if listed then osPendListRemove p s else some s).bind fun s1 =>
        (if (s.tcb p).taskState.bitSuspended then s1.tickListRemove p else osTaskRdy p s1).map
          fun s2 => s2.setTcb p { s2.tcb p with
            taskState := if (s.tcb p).taskState.bitSuspended then .suspended else .rdy
            pendStatus := status
            pendOn := .nothing } := by
  unfold osPendEnd
  cases hstate : (s.tcb p).taskState with
  | rdy | dly | suspended | dlySuspended | del =>
    rw [hstate] at hpends
    cases hpends
  | pend | pendTimeout | pendSuspended | pendTimeoutSuspended => rfl

/-- **A task waits no more**: it is ready, or suspended still. -/
theorem osPendEnd_spec (h : s.Inv v) (hp : p ∈ s.taskDbgList)
    (hpends : (s.tcb p).taskState.pends = true) (status : PendStatus) {listed : Bool}
    (hlisted : listed = true ∨ (s.tcb p).pendObj = none) :
    ∃ s', osPendEnd status listed p s = some s' ∧ s.Sets s' p ((s.tcb p).pendEnd status) ∧
      osTickListRemove p s.wheel = some s'.wheel ∧
      s'.Inv (v.wake (s.tcb p).taskState.bitSuspended s.prioCur (s.tcb p).prio p) := by
  obtain ⟨hmid, -⟩ := h.mid hp
  have hok := h.ok hp
  have hout : (s.tcb p).rdyAt = none := by
    refine if_neg fun hrdy => ?_
    rw [hrdy] at hpends
    cases hpends
  have hidle : s.idleTask ≠ p := by
    rintro rfl
    rw [h.rdy] at hpends
    cases hpends
  rw [hout] at hmid
  have hok' : ((s.tcb p).pendEnd status).Ok := by
    refine ⟨hok.prio, ?_, ?_, ?_⟩ <;> simp only [Tcb.pendEnd] <;>
      cases (s.tcb p).taskState.bitSuspended <;> simp [TaskState.pends]
  rw [osPendEnd_eq hpends]
  obtain ⟨s1, hs1, hsets, hwheel, hmid1⟩ :
      ∃ s1, (if listed then osPendListRemove p s else some s) = some s1 ∧
        s.Sets s1 p { s.tcb p with pendObj := none } ∧ s1.wheel = s.wheel ∧
        s1.Mid (v.pendRemove p) p none (v.due p) none := by
    cases listed with
    | true => exact osPendListRemove_spec hmid
    | false =>
      have hobj := hlisted.resolve_left Bool.false_ne_true
      rw [hobj] at hmid
      rw [hmid.at_p.pendRemove_none, Tcb.pendObj_none hobj]
      exact ⟨s, rfl, .lists rfl, rfl, hmid⟩
  rw [hs1, Option.bind_some]
  obtain ⟨s2, hs2, hsets2, hwheel2, hmid2⟩ :
      ∃ s2, (if (s.tcb p).taskState.bitSuspended then s1.tickListRemove p
          else osTaskRdy p s1) = some s2 ∧
        s1.Sets s2 p { s.tcb p with pendObj := none } ∧
        osTickListRemove p s1.wheel = some s2.wheel ∧
        s2.Mid (v.wake (s.tcb p).taskState.bitSuspended s.prioCur (s.tcb p).prio p) p
          ((s.tcb p).pendEnd status).rdyAt none none := by
    unfold View.wake Tcb.pendEnd Tcb.rdyAt
    cases hsus : (s.tcb p).taskState.bitSuspended with
    | true =>
      have hremove := hmid1.tickListRemove
      rwa [hsets.self] at hremove
    | false =>
      have hrdy := osTaskRdy_spec hmid1 (by rwa [hsets.self]) (by rw [hsets.self]; exact hok.prio)
      rwa [hsets.self, hsets.globals] at hrdy
  rw [hs2, Option.map_some, hsets2.self]
  have hend : s.Sets (s2.setTcb p ((s.tcb p).pendEnd status)) p ((s.tcb p).pendEnd status) :=
    (hsets.trans hsets2).trans .setTcb
  refine ⟨_, rfl, hend, hwheel ▸ hwheel2, (hmid2.setTcb (Or.inl rfl)).inv hend hp hok' rfl rfl ?_
    fun hq => absurd hq hidle⟩
  simp only [Tcb.pendEnd]
  cases (s.tcb p).taskState.bitSuspended <;> rfl

/-- The tick a timeout ends at. -/
def Wheel.timeoutAt (w : Wheel τ) (timeout : UInt32) : Option UInt32 :=
  if timeout > 0 then some (w.tickCtr + timeout) else none

omit [DecidableEq τ] in
theorem tickMatch_timeout {ctr prev timeout : UInt32} (h : timeout > 0) :
    tickMatch ctr prev timeout .timeout = some (ctr + timeout, prev) := if_pos h

omit [DecidableEq τ] [DecidableEq κ] in
theorem Wheel.timeoutAt_ne (w : Wheel τ) (timeout : UInt32) :
    w.timeoutAt timeout ≠ some w.tickCtr := by
  unfold Wheel.timeoutAt
  split
  · rename_i hpos
    rw [ne_eq, Option.some.injEq]
    exact tickMatch_ne (@tickMatch_timeout _ 0 _ hpos)
  · exact (Option.some_ne_none _).symm

omit [DecidableEq κ] in
theorem osTaskBlock_spec {prio : Nat} (h : s.Mid v p (some prio) none k)
    (hp : (s.tcb p).prio = prio) (hprio : prio < osCfgPrioMax) (timeout : UInt32) :
    ∃ s', osTaskBlock p timeout s = some s' ∧
      s.Sets s' p { s.tcb p with taskState := if timeout > 0 then .pendTimeout else .pend } ∧
      s'.Mid ((v.setDue p (s.wheel.timeoutAt timeout)).rdyRemove p) p none
        (s.wheel.timeoutAt timeout) k := by
  unfold osTaskBlock Wheel.timeoutAt
  by_cases hpos : timeout > 0
  · obtain ⟨s1, hinsert, hsets, hmid⟩ := h.tickListInsert timeout .timeout
    rw [tickMatch_timeout hpos, if_neg (Option.some_ne_none _)] at hinsert
    rw [tickMatch_timeout hpos] at hmid
    have hset : s1.Sets (s1.setState p .pendTimeout) p _ := .setState
    obtain ⟨s2, hremove, hsets', hmid2⟩ := (hmid.setState .pendTimeout).rdyListRemove
      (by rw [hset.self, hsets.self]; exact hp) hprio
    rw [hset.self, hsets.self] at hsets'
    simp only [if_pos hpos]
    rw [hinsert, Option.bind_some]
    exact ⟨s2, hremove, (hsets.trans hset).trans hsets', hmid2⟩
  · have hset : s.Sets (s.setState p .pend) p _ := .setState
    obtain ⟨s2, hremove, hsets', hmid2⟩ := (h.setState .pend).rdyListRemove
      (by rw [hset.self]; exact hp) hprio
    have hdue : v.setDue p none = v := by
      rw [View.setDue, Function.update_eq_self_iff.mpr h.at_p.due.symm]
    rw [hset.self] at hsets'
    simp only [if_neg hpos]
    rw [hdue]
    exact ⟨s2, hremove, hset.trans hsets', hmid2⟩

/-- **A task waits from now on**, for an object or for a signal. -/
theorem osPend_spec {obj : Option κ} {pendingOn : PendOn} (h : s.Inv v) (hp : p ∈ s.taskDbgList)
    (hrdy : (s.tcb p).taskState = .rdy) (hidle : p ≠ s.idleTask) (hon : pendingOn ≠ .nothing)
    (hobj : obj.isSome ↔ pendingOn = .sem) (hsem : ∀ k ∈ obj, s.sem k = 0) (timeout : UInt32) :
    ∃ s', osPend p obj pendingOn timeout s = some s' ∧
      s.Sets s' p ((s.tcb p).pend pendingOn obj timeout) ∧
      s'.Inv (v.block (s.wheel.timeoutAt timeout) obj (fun q => (s.tcb q).prio) p) := by
  obtain ⟨hmid, htimed⟩ := h.mid hp
  have hok := h.ok hp
  have hnoObj : (s.tcb p).pendObj = none := by
    have hnot : ¬ (s.tcb p).pendOn ≠ .nothing := by
      rw [hok.pendOn, hrdy]
      exact Bool.false_ne_true
    rw [← Option.not_isSome_iff_eq_none, hok.pendObj, not_ne_iff.mp hnot]
    decide
  have hat : (s.tcb p).rdyAt = some (s.tcb p).prio := if_pos hrdy
  have hdue : v.due p = none := by
    rw [hrdy] at htimed
    exact Option.not_isSome_iff_eq_none.mp (by rw [htimed]; exact Bool.false_ne_true)
  rw [hat, hdue, hnoObj] at hmid
  have hset : s.Sets (s.setTcb p { s.tcb p with pendOn := pendingOn, pendStatus := .ok }) p
    { s.tcb p with pendOn := pendingOn, pendStatus := .ok } := .setTcb
  obtain ⟨s1, hblock, hsets, hmid1⟩ := osTaskBlock_spec
    (hmid.setTcb (c := { s.tcb p with pendOn := pendingOn, pendStatus := .ok }) (Or.inr rfl))
    (by rw [hset.self]) hok.prio timeout
  have hall := hset.trans hsets
  have hend : s.Sets (s1.setTcb p { s1.tcb p with pendObj := obj }) p
      ((s.tcb p).pend pendingOn obj timeout) := by
    refine hall.trans ?_
    rw [hsets.self, hset.self]
    exact .setTcb
  have hmid2 := hmid1.setTcb (c := { s1.tcb p with pendObj := obj }) (Or.inl rfl)
  have hprio := hend.prio rfl
  have hok' : ((s.tcb p).pend pendingOn obj timeout).Ok := by
    refine ⟨hok.prio, ?_, ?_, hobj⟩ <;> simp only [Tcb.pend] <;> split <;>
      simp [TaskState.pends, hon]
  have hdue' : (s.wheel.timeoutAt timeout).isSome =
      ((s.tcb p).pend pendingOn obj timeout).taskState.timed := by
    unfold Wheel.timeoutAt Tcb.pend
    by_cases hpos : timeout > 0 <;> simp [hpos, TaskState.timed]
  have hrdyAt : none = ((s.tcb p).pend pendingOn obj timeout).rdyAt := by
    unfold Tcb.rdyAt Tcb.pend
    by_cases hpos : timeout > 0 <;> simp [hpos]
  unfold osPend View.block
  dsimp only
  rw [hblock, Option.bind_some]
  cases obj with
  | none =>
    exact ⟨_, rfl, hend, hmid2.inv hend hp hok' hrdyAt rfl hdue' fun hq => absurd hq.symm hidle⟩
  | some k =>
    obtain ⟨s2, hinsert, hsets2, hmid3⟩ := hmid2.pendListInsertPrio (j := k)
      (by rw [hend.globals]; exact hsem k rfl)
    rw [hprio] at hmid3
    rw [hend.self] at hsets2
    exact ⟨s2, hinsert, hend.trans hsets2, hmid3.inv (hend.trans hsets2) hp hok' hrdyAt rfl hdue'
      fun hq => absurd hq.symm hidle⟩

end Sections

end Generalplate.Ucos
