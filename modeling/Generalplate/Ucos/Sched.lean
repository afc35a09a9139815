import Generalplate.Ucos.SemCalls

/-! # The scheduler of the kernel

The task that runs next is the first one of the highest priority that is ready. All calls,
interrupts and ticks together, in whatever order they come, keep the kernel consistent. -/
namespace Generalplate.Ucos
open Lib

section Sched
variable {τ κ : Type*} [DecidableEq τ] [DecidableEq κ] {e : KernelEvent τ κ}
  {s s' s'' : Kernel τ κ} {v v' v'' : View τ κ} {p : τ}

omit [DecidableEq τ] [DecidableEq κ] in
/-- The tasks of the ready lists are those that are ready. -/
theorem Kernel.Inv.mem_rdy (h : s.Inv v) {prio : Nat} :
    p ∈ v.rdy prio ↔
      p ∈ s.taskDbgList ∧ (s.tcb p).taskState = .rdy ∧ (s.tcb p).prio = prio := by
  by_cases hp : p ∈ s.taskDbgList
  · rw [(h.mid hp).1.at_p.rdy, Tcb.rdyAt]
    simp [hp]
  · rw [((h.stands p).dead hp).2.rdy]
    simp [hp]

omit [DecidableEq τ] [DecidableEq κ] in
/-- **The highest priority**: the first task of its list is ready, and no task that is ready is
of a higher one. -/
theorem Kernel.Inv.highRdy (h : s.Inv v) :
    ∃ prio p, s.highRdy = some (prio, p) ∧ (v.rdy prio).head? = some p ∧
      ∀ q ∈ s.taskDbgList, (s.tcb q).taskState = .rdy → prio ≤ (s.tcb q).prio := by
  have hidle := h.mem_rdy.mpr ⟨h.live, h.rdy, rfl⟩
  obtain ⟨prio, hget, hne, hleast⟩ := h.ready.highest (List.ne_nil_of_mem hidle)
  obtain ⟨p, rest, hlist⟩ := List.exists_cons_of_ne_nil hne
  refine ⟨prio, p, ?_, by rw [hlist]; rfl, fun q hq hrdy => ?_⟩
  · rw [Kernel.highRdy, hget, Option.bind_some, (h.ready.ends prio).head, hlist]
    rfl
  · exact hleast _ (List.ne_nil_of_mem (h.mem_rdy.mpr ⟨hq, hrdy, rfl⟩))

omit [DecidableEq κ] in
/-- Only the running task changes. -/
theorem Kernel.Inv.ctxSw (h : s.Inv v) :
    ∃ cur prio, s.ctxSw = some { s with tcbCur := cur, prioCur := prio } := by
  obtain ⟨prio, p, hhigh, -⟩ := h.highRdy
  rw [Kernel.ctxSw, hhigh, Option.map_some]
  dsimp only
  by_cases hcur : s.tcbCur = some p
  · exact ⟨s.tcbCur, s.prioCur, by rw [if_pos hcur]⟩
  · exact ⟨some p, prio, by rw [if_neg hcur]⟩

theorem osSched_goes (h : s.Inv v) (hahead : s.Ahead v) : s.Goes .sched v := by
  unfold Kernel.Goes
  rw [KernelEvent.call, osSched]
  by_cases hint : s.intNestingCtr > 0
  · rw [if_pos hint]
    exact ⟨_, s, v, rfl, .refl h hahead rfl⟩
  by_cases hlock : s.schedLockNestingCtr > 0
  · rw [if_neg hint, if_pos hlock]
    exact ⟨_, s, v, rfl, .refl h hahead rfl⟩
  obtain ⟨cur, prio, hsw⟩ := h.ctxSw
  rw [if_neg hint, if_neg hlock, hsw]
  exact ⟨_, _, v, rfl, .of_globals h hahead rfl h.sem (fun _ _ => rfl) rfl rfl⟩

theorem osStart_goes (h : s.Inv v) (hahead : s.Ahead v) : s.Goes .start v := by
  unfold Kernel.Goes
  rw [KernelEvent.call, osStart]
  refine h.orRefused hahead rfl fun _ => ?_
  obtain ⟨prio, p, hhigh, -⟩ := h.highRdy
  rw [hhigh]
  exact ⟨_, _, v, rfl, .of_globals h hahead rfl h.sem (fun _ _ => rfl) rfl rfl⟩

theorem osIntEnter_goes (h : s.Inv v) (hahead : s.Ahead v) : s.Goes .intEnter v := by
  unfold Kernel.Goes
  rw [KernelEvent.call, osIntEnter]
  split
  · exact ⟨_, s, v, rfl, .refl h hahead rfl⟩
  · exact ⟨_, _, v, rfl, .of_globals h hahead rfl h.sem (fun _ _ => rfl) rfl rfl⟩

theorem osIntExit_goes (h : s.Inv v) (hahead : s.Ahead v) : s.Goes .intExit v := by
  unfold Kernel.Goes
  rw [KernelEvent.call, osIntExit]
  by_cases hout : !s.running ∨ s.intNestingCtr = 0
  · rw [if_pos hout]
    exact ⟨_, s, v, rfl, .refl h hahead rfl⟩
  rw [if_neg hout]
  dsimp only
  have hleft : s.Step .intExit v { s with intNestingCtr := s.intNestingCtr - 1 } v :=
    .of_globals h hahead rfl h.sem (fun _ _ => rfl) rfl rfl
  split
  · exact ⟨_, _, v, rfl, hleft⟩
  · obtain ⟨cur, prio, hsw⟩ := hleft.inv.ctxSw
    rw [hsw]
    exact ⟨_, _, v, rfl, .of_globals h hahead rfl h.sem (fun _ _ => rfl) rfl rfl⟩

theorem osSchedLock_goes (h : s.Inv v) (hahead : s.Ahead v) : s.Goes .schedLock v := by
  unfold Kernel.Goes
  rw [KernelEvent.call, osSchedLock]
  split
  · exact ⟨_, s, v, rfl, .refl h hahead rfl⟩
  split
  · exact ⟨_, s, v, rfl, .refl h hahead rfl⟩
  split
  · exact ⟨_, s, v, rfl, .refl h hahead rfl⟩
  · exact ⟨_, _, v, rfl, .of_globals h hahead rfl h.sem (fun _ _ => rfl) rfl rfl⟩

theorem osSchedUnlock_goes (h : s.Inv v) (hahead : s.Ahead v) : s.Goes .schedUnlock v := by
  unfold Kernel.Goes
  rw [KernelEvent.call, osSchedUnlock]
  split
  · exact ⟨_, s, v, rfl, .refl h hahead rfl⟩
  split
  · exact ⟨_, s, v, rfl, .refl h hahead rfl⟩
  split
  · exact ⟨_, s, v, rfl, .refl h hahead rfl⟩
  · exact ⟨_, _, v, rfl, .of_globals h hahead rfl h.sem (fun _ _ => rfl) rfl rfl⟩

/-! Time slices. -/

/-- Only time slices change, and the order of the tasks of one priority. -/
structure Kernel.Sliced (s : Kernel τ κ) (v : View τ κ) (s' : Kernel τ κ) (v' : View τ κ) :
    Prop where
  inv : s'.Inv v'
  globals : s'.toGlobals = s.toGlobals
  tickCtr : s'.wheel.tickCtr = s.wheel.tickCtr
  due : v'.due = v.due
  waits : v'.waits = v.waits
  tcb : ∀ q, ∃ c, s'.tcb q = { s.tcb q with timeQuantaCtr := c }

omit [DecidableEq τ] [DecidableEq κ] in
theorem Kernel.Sliced.trans (h : s.Sliced v s' v') (h' : s'.Sliced v' s'' v'') :
    s.Sliced v s'' v'' := by
  refine ⟨h'.inv, h'.globals.trans h.globals, h'.tickCtr.trans h.tickCtr, h'.due.trans h.due,
    h'.waits.trans h.waits, fun q => ?_⟩
  obtain ⟨c, hc⟩ := h.tcb q
  obtain ⟨c', hc'⟩ := h'.tcb q
  exact ⟨c', by rw [hc', hc]⟩

omit [DecidableEq τ] [DecidableEq κ] in
theorem Kernel.Sliced.step (h : s.Sliced v s' v') (hahead : s.Ahead v) (hticks : e.ticks = 0) :
    s.Step e v s' v' := by
  refine ⟨h.inv, fun q => ?_, h.tickCtr.trans (add_ticks hticks),
    fun k _ => by rw [h.globals], fun k => by rw [h.waits]; exact .refl,
    fun q hq hnot => absurd (by rwa [h.globals]) hnot, fun q _ _ => ?_⟩
  · rw [h.due, h.tickCtr]
    exact hahead q
  · obtain ⟨c, hc⟩ := h.tcb q
    rw [hc, h.due]
    exact .slice c

omit [DecidableEq κ] in
theorem Kernel.Inv.slice (h : s.Inv v) (hp : p ∈ s.taskDbgList) (c : UInt32) :
    s.Sliced v (s.setTcb p { s.tcb p with timeQuantaCtr := c }) v := by
  have hset : s.Sets (s.setTcb p { s.tcb p with timeQuantaCtr := c }) p _ := .setTcb
  have hok := h.ok hp
  have hmid := (h.mid hp).1.setTcb (c := { s.tcb p with timeQuantaCtr := c }) (Or.inr rfl)
  refine ⟨hmid.inv hset hp ⟨hok.prio, hok.state, hok.pendOn, hok.pendObj⟩ rfl rfl (h.mid hp).2
    fun hq => hq ▸ h.rdy, rfl, rfl, rfl, rfl, fun q => ?_⟩
  rw [hset.tcb]
  by_cases hq : q = p
  · exact ⟨c, by rw [hq, Function.update_self]⟩
  · exact ⟨(s.tcb q).timeQuantaCtr, by rw [Function.update_of_ne hq]⟩

omit [DecidableEq κ] in
theorem Kernel.Inv.turn (h : s.Inv v) (hne : v.rdy s.prioCur ≠ []) :
    ∃ s', s.turn = some s' ∧ s.Sliced v s' (v.rdyRotate s.prioCur) := by
  obtain ⟨ready, hmove, hready, htbl⟩ := @Ready.Refines.moveHeadToTail _ _ _ _ s.prioCur h.ready
  have h1 : ({ s with ready := ready } : Kernel τ κ).Inv (v.rdyRotate s.prioCur) :=
    ⟨⟨hready, by rw [← h.tbl, ← htbl], h.wheel, h.pends, h.order, h.sem, h.tasks⟩,
      ⟨h.live, h.rdy⟩, fun q => (h.stands q).congr rfl Iff.rfl fun hat => hat.rdyRotate, h.few⟩
  have hne' : (v.rdyRotate s.prioCur).rdy s.prioCur ≠ [] := by
    simpa [View.rdyRotate] using hne
  obtain ⟨p, rest, hlist⟩ := List.exists_cons_of_ne_nil hne'
  have hmem : p ∈ (v.rdyRotate s.prioCur).rdy s.prioCur := by rw [hlist]; simp
  have hp := h1.mem_rdy.mp hmem
  have hslice := h1.slice hp.1 (s.quanta (s.tcb p).timeQuanta)
  refine ⟨_, ?_, hslice.inv, rfl, rfl, rfl, rfl, hslice.tcb⟩
  rw [Kernel.turn, hmove, Option.bind_some]
  dsimp only
  rw [(h1.ready.ends s.prioCur).head, hlist]
  rfl

theorem osSchedRoundRobinYield_goes (h : s.Inv v) (hahead : s.Ahead v) :
    s.Goes .roundRobinYield v := by
  unfold Kernel.Goes
  rw [KernelEvent.call, osSchedRoundRobinYield]
  refine h.orRefused hahead rfl fun _ => h.orRefused hahead rfl fun _ =>
    h.orRefused hahead rfl fun _ => h.orRefused hahead rfl fun hnbr => ?_
  have hne : v.rdy s.prioCur ≠ [] := by
    intro hnil
    rw [(h.ready.ends s.prioCur).empty_iff.mpr hnil] at hnbr
    exact hnbr (by decide)
  obtain ⟨s1, hturn, hsliced⟩ := h.turn hne
  rw [hturn]
  exact ⟨_, s1, _, rfl, hsliced.step hahead rfl⟩

theorem osSchedRoundRobin_goes (h : s.Inv v) (hahead : s.Ahead v) : s.Goes .roundRobin v := by
  have hends := h.ready.ends s.prioCur
  unfold Kernel.Goes
  rw [KernelEvent.call, osSchedRoundRobin]
  dsimp only
  split
  · exact ⟨_, s, v, rfl, .refl h hahead rfl⟩
  rw [hends.head]
  cases hlist : v.rdy s.prioCur with
  | nil => exact ⟨_, s, v, rfl, .refl h hahead rfl⟩
  | cons p rest =>
    have hp := h.mem_rdy.mp (by rw [hlist]; exact List.mem_cons_self ..)
    dsimp only [List.head?_cons]
    split
    · exact ⟨_, s, v, rfl, .refl h hahead rfl⟩
    generalize (if (s.tcb p).timeQuantaCtr > 0 then (s.tcb p).timeQuantaCtr - 1
      else (s.tcb p).timeQuantaCtr) = c
    have hslice := h.slice hp.1 c
    split
    · exact ⟨_, _, v, rfl, hslice.step hahead rfl⟩
    · obtain ⟨s1, hturn, hsliced⟩ := hslice.inv.turn (by
        show v.rdy s.prioCur ≠ []
        rw [hlist]
        exact List.cons_ne_nil _ _)
      rw [hturn]
      exact ⟨_, s1, _, rfl, (hslice.trans hsliced).step hahead rfl⟩

/-! ## All calls -/

/-- **Every event keeps the invariant** and follows no null pointer. -/
theorem KernelEvent.goes (h : s.Inv v) (hahead : s.Ahead v) (hlegal : e.Legal s) :
    s.Goes e v := by
  cases e with
  | start => exact osStart_goes h hahead
  | intEnter => exact osIntEnter_goes h hahead
  | intExit => exact osIntExit_goes h hahead
  | sched => exact osSched_goes h hahead
  | schedLock => exact osSchedLock_goes h hahead
  | schedUnlock => exact osSchedUnlock_goes h hahead
  | roundRobinCfg en dflt =>
    exact ⟨_, _, v, rfl, .of_globals h hahead rfl h.sem (fun _ _ => rfl) rfl rfl⟩
  | roundRobinYield => exact osSchedRoundRobinYield_goes h hahead
  | roundRobin => exact osSchedRoundRobin_goes h hahead
  | tick => exact osTickListUpdate_goes h hahead
  | timeDly dly opt => exact osTimeDly_goes h hahead hlegal
  | timeDlyResume p => exact osTimeDlyResume_goes h hahead hlegal
  | taskCreate p prio timeQuanta => exact osTaskCreate_goes h hahead hlegal.1 hlegal.2
  | taskDel q => exact osTaskDel_goes h hahead hlegal
  | taskSuspend q => exact osTaskSuspend_goes h hahead hlegal
  | taskResume p => exact osTaskResume_goes h hahead hlegal
  | taskChangePrio q prio => exact osTaskChangePrio_goes h hahead hlegal
  | semPend k timeout blocking => exact osSemPendCall_goes h hahead hlegal
  | semPost k all => exact osSemPostCall_goes h hahead
  | semPendAbort k all noSched => exact osSemPendAbort_goes h hahead
  | semSet k cnt => exact osSemSet_goes h hahead
  | taskSemPend timeout blocking => exact osTaskSemPend_goes h hahead hlegal
  | taskSemPost q => exact osTaskSemPost_goes h hahead hlegal
  | taskSemPendAbort p => exact .refl h hahead rfl
  | taskSemPendAbortEnd p => exact osTaskSemPendAbortEnd_goes h hahead hlegal

end Sched

end Generalplate.Ucos
