import Generalplate.Ucos.Calls

/-! # The calls on tasks

A task is suspended and resumed, created and deleted, and gets another priority, whatever it
waits for meanwhile. -/
namespace Generalplate.Ucos
open scoped List
open Lib.TwoWay

section States
variable {κ : Type*} {t t' : Tcb κ}

theorem Tcb.Ok.congr (h : t.Ok) (hprio : t'.prio < osCfgPrioMax) (hstate : t'.taskState ≠ .del)
    (hpends : t'.taskState.pends = t.taskState.pends) (hon : t'.pendOn = t.pendOn)
    (hobj : t'.pendObj = t.pendObj) : t'.Ok :=
  ⟨hprio, hstate, by rw [hon, hpends]; exact h.pendOn, by rw [hobj, hon]; exact h.pendObj⟩

/-! To suspend a task and to resume it leaves what it waits for. -/

@[simp] theorem TaskState.pends_suspend (state : TaskState) :
    state.suspend.pends = state.pends := by
  cases state <;> rfl

@[simp] theorem TaskState.timed_suspend (state : TaskState) :
    state.suspend.timed = state.timed := by
  cases state <;> rfl

@[simp] theorem TaskState.suspend_eq_del {state : TaskState} :
    state.suspend = .del ↔ state = .del := by
  cases state <;> simp [TaskState.suspend]

@[simp] theorem TaskState.pends_resume (state : TaskState) :
    state.resume.pends = state.pends := by
  cases state <;> rfl

@[simp] theorem TaskState.timed_resume (state : TaskState) :
    state.resume.timed = state.timed := by
  cases state <;> rfl

@[simp] theorem TaskState.resume_eq_del {state : TaskState} :
    state.resume = .del ↔ state = .del := by
  cases state <;> simp [TaskState.resume]

theorem Tcb.Ok.suspend (h : t.Ok) : t.suspend.Ok :=
  h.congr h.prio (by simp [Tcb.suspend, h.state]) (by simp [Tcb.suspend]) rfl rfl

theorem Tcb.Ok.resume (h : t.Ok) : t.resume.Ok := by
  refine h.congr h.prio ?_ ?_ rfl rfl <;> simp only [Tcb.resume] <;> split <;> simp [h.state]

end States

section Suspend
variable {τ κ : Type*} [DecidableEq τ] [DecidableEq κ] {e : KernelEvent τ κ}
  {s s' : Kernel τ κ} {v v' : View τ κ} {p : τ}

omit [DecidableEq κ] in
/-- Only the TCB is written, and the task stays where it stands. -/
theorem Kernel.Inv.setTcb {c : Tcb κ} (h : s.Inv v) (hahead : s.Ahead v)
    (hp : p ∈ s.taskDbgList) (hok : c.Ok) (hr : c.rdyAt = (s.tcb p).rdyAt)
    (hk : c.pendObj = (s.tcb p).pendObj) (ht : c.taskState.timed = (s.tcb p).taskState.timed)
    (hprio : (s.tcb p).pendObj = none ∨ c.prio = (s.tcb p).prio)
    (hidle : s.idleTask = p → c.taskState = .rdy) (hmove : TaskMove e s p (v.due p) c (v.due p))
    (hticks : e.ticks = 0) : s.Step e v (s.setTcb p c) v := by
  obtain ⟨hmid, htimed⟩ := h.mid hp
  have hset : s.Sets (s.setTcb p c) p c := .setTcb
  exact .of_sets hahead hticks ((hmid.setTcb hprio).inv hset hp hok hr.symm hk.symm
    (by rw [htimed, ht]) hidle) hset (Function.update_eq_self ..).symm (fun _ => .refl)
    (hahead p) hmove

omit [DecidableEq τ] [DecidableEq κ] in
/-- The task that is meant. -/
theorem Kernel.Names.target {q : Option τ} (hnames : s.Names q) (hidle : q ≠ some s.idleTask) :
    ∃ p, s.Target q p ∧ p ∈ s.taskDbgList ∧ p ≠ s.idleTask := by
  cases q with
  | some p =>
    exact ⟨p, ⟨rfl, fun hnone => absurd hnone (Option.some_ne_none p)⟩, hnames,
      fun hp => hidle (congrArg some hp)⟩
  | none =>
    obtain ⟨p, hcur, hp, hrdy, hne⟩ := hnames
    exact ⟨p, ⟨hcur, fun _ => hrdy⟩, hp, hne⟩

theorem osTaskSuspend_goes {q : Option τ} (h : s.Inv v) (hahead : s.Ahead v)
    (hlegal : (KernelEvent.taskSuspend q).Legal s) : s.Goes (.taskSuspend q) v := by
  by_cases hint : s.intNestingCtr > 0
  · exact .refl h hahead (if_pos hint)
  by_cases hidle : q = some s.idleTask
  · exact .refl h hahead (by rw [KernelEvent.call, osTaskSuspend, if_neg hint, if_pos hidle])
  obtain ⟨p, htarget, hp, hne⟩ := (hlegal (not_pos hint)).target hidle
  by_cases hlock : s.tcbCur = some p ∧ s.schedLockNestingCtr > 0
  · refine .refl (a := .err .schedLocked) h hahead ?_
    rw [KernelEvent.call, osTaskSuspend, if_neg hint, if_neg hidle, htarget.eq, Option.bind_some]
    exact if_pos hlock
  have hmove : TaskMove (.taskSuspend q) s p (v.due p) (s.tcb p).suspend (v.due p) :=
    .suspends q rfl htarget
  have hok := (h.ok hp).suspend
  -- a task that waits, or is suspended already, stays where it stands
  have hstays : (s.tcb p).taskState ≠ .rdy → s.Step (.taskSuspend q) v
      (s.setTcb p (s.tcb p).suspend) v := by
    intro hrdy
    refine h.setTcb hahead hp hok ?_ rfl (by simp [Tcb.suspend]) (Or.inr rfl)
      (fun hq => absurd hq.symm hne) hmove rfl
    rw [Tcb.rdyAt, Tcb.rdyAt, if_neg hrdy, if_neg]
    cases hstate : (s.tcb p).taskState <;> simp_all [Tcb.suspend, TaskState.suspend]
  unfold Kernel.Goes
  rw [KernelEvent.call, osTaskSuspend, if_neg hint, if_neg hidle, htarget.eq, Option.bind_some]
  dsimp only
  rw [if_neg hlock]
  cases hstate : (s.tcb p).taskState with
  | del => exact absurd hstate (h.ok hp).state
  | rdy =>
    have hset : s.Sets (s.setTcb p (s.tcb p).suspend) p _ := .setTcb
    obtain ⟨s1, hremove, hsets, hmid⟩ := ((h.mid_rdy hp hstate).setTcb (c := (s.tcb p).suspend)
      (Or.inl rfl)).rdyListRemove (by rw [hset.self]; rfl) (h.ok hp).prio
    rw [hset.self] at hsets
    have hdue := h.due_none hp (by rw [hstate]; rfl)
    refine ⟨.err .none, s1, _, ?_, .of_sets (t := none) hahead rfl (hmid.inv (hset.trans hsets) hp
      hok ?_ ?_ ?_ fun hq => absurd hq.symm hne) (hset.trans hsets) ?_ (fun _ => .refl)
      (Option.some_ne_none _).symm (hdue ▸ hmove)⟩
    · have hc : { s.tcb p with taskState := .suspended, suspendCtr := 1 } = (s.tcb p).suspend := by
        rw [Tcb.suspend, hstate]
        rfl
      rw [hc, hremove]
      rfl
    · rw [Tcb.rdyAt, Tcb.suspend, hstate]
      rfl
    · exact (h.pendObj_none hp (by rw [hstate]; rfl)).symm
    · rw [Tcb.suspend, hstate]
      rfl
    · exact (Function.update_eq_self_iff.mpr hdue.symm).symm
  | dly | pend | pendTimeout | suspended | dlySuspended | pendSuspended | pendTimeoutSuspended =>
    refine ⟨_, _, v, rfl, ?_⟩
    have hkeeps := hstays (by rw [hstate]; decide)
    simp only [Tcb.suspend, hstate] at hkeeps
    exact hkeeps

theorem TaskState.ne_rdy_of_bitSuspended {state : TaskState} (h : state.bitSuspended = true) :
    state ≠ .rdy := by
  intro hrdy
  rw [hrdy] at h
  cases h

theorem osTaskResume_goes (h : s.Inv v) (hahead : s.Ahead v) (hp : p ∈ s.taskDbgList) :
    s.Goes (.taskResume p) v := by
  by_cases hint : s.intNestingCtr > 0
  · exact .refl h hahead (if_pos hint)
  by_cases hcur : s.tcbCur = some p
  · exact .refl h hahead (by rw [KernelEvent.call, osTaskResume, if_neg hint, if_pos hcur])
  have hok := (h.ok hp).resume
  have hmove : (s.tcb p).taskState.bitSuspended = true →
      TaskMove (.taskResume p) s p (v.due p) (s.tcb p).resume (v.due p) := .resumes rfl
  have hstays : (s.tcb p).taskState.bitSuspended = true → (s.tcb p).resume.taskState ≠ .rdy →
      s.Step (.taskResume p) v (s.setTcb p (s.tcb p).resume) v := by
    intro hsus hrdy
    have hnot := TaskState.ne_rdy_of_bitSuspended hsus
    refine h.setTcb hahead hp hok ?_ rfl ?_ (Or.inr rfl)
      (fun hq => absurd hq (h.not_idle hnot)) (hmove hsus) rfl
    · rw [Tcb.rdyAt, Tcb.rdyAt, if_neg hrdy, if_neg hnot]
    · simp only [Tcb.resume]
      split <;> simp
  unfold Kernel.Goes
  rw [KernelEvent.call, osTaskResume, if_neg hint, if_neg hcur]
  dsimp only
  cases hstate : (s.tcb p).taskState with
  | rdy | dly | pend | pendTimeout => exact ⟨_, s, v, rfl, .refl h hahead rfl⟩
  | del => exact absurd hstate (h.ok hp).state
  | dlySuspended | pendSuspended | pendTimeoutSuspended =>
    refine ⟨_, _, v, rfl, ?_⟩
    have hkeeps := hstays (by rw [hstate]; rfl) (by
      rw [Tcb.resume, hstate]
      dsimp only
      split <;> decide)
    simp only [Tcb.resume, hstate] at hkeeps
    exact hkeeps
  | suspended =>
    by_cases hctr : (s.tcb p).suspendCtr - 1 = 0
    · have hset : s.Sets (s.setTcb p (s.tcb p).resume) p _ := .setTcb
      have hrdy : (s.tcb p).resume.taskState = .rdy := by
        rw [Tcb.resume, hstate]
        exact if_pos hctr
      obtain ⟨s1, hready, hsets, -, hmid⟩ := osTaskRdy_spec
        ((h.mid_idle hp (by rw [hstate]; decide) (by rw [hstate]; rfl)).setTcb
          (c := (s.tcb p).resume) (Or.inl rfl))
        (by rw [hset.self, hrdy]; rfl) (by rw [hset.self]; exact (h.ok hp).prio)
      have hdue := h.due_none hp (by rw [hstate]; rfl)
      rw [hset.self] at hsets hmid
      refine ⟨.err .none, s1, _, ?_, .of_sets (t := none) hahead rfl
        (hmid.inv (hset.trans hsets) hp hok ?_ ?_ ?_ fun _ => hrdy) (hset.trans hsets) rfl
        (fun _ => .refl) (Option.some_ne_none _).symm (hdue ▸ hmove (by rw [hstate]; rfl))⟩
      · simp only [Tcb.resume, hstate, if_pos hctr] at hready
        simp only [if_pos hctr]
        exact congrArg (Option.map fun s => (Answer.err .none, s)) hready
      · exact (if_pos hrdy).symm
      · exact (h.pendObj_none hp (by rw [hstate]; rfl)).symm
      · rw [hrdy]
        rfl
    · have hkeeps := hstays (by rw [hstate]; rfl) (by
        rw [Tcb.resume, hstate]
        dsimp only
        rw [if_neg hctr]
        decide)
      simp only [Tcb.resume, hstate, if_neg hctr] at hkeeps
      simp only [if_neg hctr]
      exact ⟨_, _, v, rfl, hkeeps⟩

end Suspend

/-! ## Creating and deleting -/

section Create
variable {τ κ : Type*} [DecidableEq τ] [DecidableEq κ] {e : KernelEvent τ κ}
  {s s' : Kernel τ κ} {v v' : View τ κ} {p : τ}

omit [DecidableEq τ] [DecidableEq κ] in
/-- Where a TCB stands that belongs to no task. -/
theorem Kernel.Inv.mid_dead (h : s.Inv v) (hp : p ∉ s.taskDbgList)
    (hfew : s.taskDbgList.length + 1 < UInt16.size) : s.Mid v p none none none := by
  refine ⟨h.toLists, fun q _ => h.stands q, fun tasks hnodup hsub => ?_, fun _ => h.toIdleRdy,
    ((h.stands p).dead hp).2⟩
  exact (List.subperm_of_subset hnodup hsub).length_le.trans_lt hfew

omit [DecidableEq κ] in
/-- The links and the ticks of a task that is in no list are cleared. -/
theorem Kernel.Mid.initTcb (h : s.Mid v p none none none) :
    (osTaskInitTcb p s).Mid v p none none none := by
  have hset : s.Sets (osTaskInitTcb p s) p _ := ⟨rfl, rfl, rfl⟩
  obtain ⟨spokes, hwheel⟩ := h.wheel
  have hrdy : ∀ j, p ∉ v.rdy j := fun j hj => by simpa using (h.at_p.rdy j).mp hj
  have hwaits : ∀ j, p ∉ v.waits j := fun j hj => by simpa using (h.at_p.waits j).mp hj
  have hclear : ∀ {l : Links τ} {q}, q ≠ p →
      ((l.setNext p none).setPrev p none).next q = l.next q ∧
        ((l.setNext p none).setPrev p none).prev q = l.prev q := fun hq =>
    ⟨Function.update_of_ne hq .., Function.update_of_ne hq ..⟩
  refine h.step ⟨⟨⟨?_, h.ready.ends⟩, h.ready.exact⟩, h.tbl, ⟨spokes, ?_⟩, h.pends, fun j => ?_,
    h.sem, h.tasks⟩ h.at_p (fun _ _ {_ _ _} hat => hat) hset
  · exact h.ready.linked.congr fun j q hq => hclear fun hqp => hrdy j (hqp ▸ hq)
  · have hout := hwheel.not_mem h.at_p.due
    have hmatch : ∀ q, v.due q ≠ none → q ≠ p := fun q hq hqp => hq (hqp ▸ h.at_p.due)
    have hptr : Function.update s.wheel.tickSpokePtr p none = s.wheel.tickSpokePtr :=
      Function.update_eq_self_iff.mpr (hwheel.out p h.at_p.due).symm
    have hcleared : ({ s.wheel with
        tickSpokePtr := Function.update s.wheel.tickSpokePtr p none
        tickCtrMatch := Function.update s.wheel.tickCtrMatch p 0
        tickRemain := Function.update s.wheel.tickRemain p 0
        tickCtrPrev := Function.update s.wheel.tickCtrPrev p 0x80000000 } :
          Wheel τ).Refines v.due spokes :=
      hwheel.congr rfl rfl rfl (fun q hq => Function.update_of_ne (hmatch q hq) ..) hptr
    exact ⟨hwheel.linked.congr fun j q hq => hclear fun hqp => hout j (hqp ▸ hq), hcleared.first,
      hcleared.nbr, hcleared.mem, hcleared.sorted, hcleared.tick, hcleared.out⟩
  · refine (h.order j).imp_of_mem fun {a b} ha hb hle => ?_
    have hsame : ∀ q ∈ v.waits j, (osTaskInitTcb p s).tcb q = s.tcb q := by
      intro q hq
      have hqp : q ≠ p := by
        rintro rfl
        exact hwaits j hq
      exact Function.update_of_ne hqp ..
    rwa [hsame a ha, hsame b hb]

omit [DecidableEq κ] in
/-- **A task is created** from a TCB that belongs to none. -/
theorem osTaskCreate_spec {prio : Nat} {timeQuanta : UInt32} (h : s.Mid v p none none none)
    (hint : ¬ s.intNestingCtr > 0) (hprio : prio < osCfgPrioMax)
    (hlow : ¬ (prio = osCfgPrioMax - 1 ∧ p ≠ s.idleTask)) (hp : p ∉ s.taskDbgList)
    (hobj : (s.tcb p).pendObj = none) :
    ∃ s', osTaskCreate p prio timeQuanta s = some (.err .none, s') ∧
      s'.Inv (v.rdyInsert false prio p) ∧ s'.wheel.tickCtr = s.wheel.tickCtr ∧
      s'.toGlobals = { s.toGlobals with taskDbgList := p :: s.taskDbgList } ∧
      ∀ q, q ≠ p → s'.tcb q = s.tcb q := by
  have hinit : s.Sets (osTaskInitTcb p s) p _ := ⟨rfl, rfl, rfl⟩
  obtain ⟨s1, hinsert, hsets, hmid⟩ := (h.initTcb.setTcb
    (c := { (osTaskInitTcb p s).tcb p with
      prio := prio, timeQuanta := timeQuanta,
      timeQuantaCtr := (osTaskInitTcb p s).quanta timeQuanta }) (Or.inl rfl)).rdyListInsertAt false
    (by rw [Kernel.Sets.setTcb.self]) hprio
  rw [Kernel.Sets.setTcb.self, hinit.self] at hsets
  have hall := (hinit.trans .setTcb).trans hsets
  have hself := hall.self
  have hstate : (s1.tcb p).taskState = .rdy := by rw [hself]
  have hlive : (p :: s.taskDbgList).Nodup := List.nodup_cons.mpr ⟨hp, h.tasks⟩
  refine ⟨{ s1 with taskDbgList := p :: s1.taskDbgList }, ?_, ⟨⟨hmid.ready, hmid.tbl,
    hmid.wheel, hmid.pends, hmid.order, hmid.sem, ?_⟩, ?_, fun q => ?_, ?_⟩, hall.tickCtr,
    ?_, fun q hq => ?_⟩
  · rw [osTaskCreate, if_neg hint, if_neg (Nat.not_le.mpr hprio), if_neg hlow]
    dsimp only
    rw [hinsert]
    rfl
  · rw [hall.globals]
    exact hlive
  · by_cases hidle : s1.idleTask = p
    · refine ⟨?_, ?_⟩ <;> dsimp only <;> rw [hidle]
      · exact List.mem_cons_self ..
      · exact hstate
    · exact ⟨List.mem_cons_of_mem _ (hmid.idleRdy hidle).live, (hmid.idleRdy hidle).rdy⟩
  · by_cases hq : q = p
    · subst hq
      refine ⟨fun _ => ?_, fun hdead => absurd (List.mem_cons_self ..) hdead⟩
      dsimp only
      rw [hself]
      refine ⟨⟨hprio, TaskState.noConfusion, by simp [TaskState.pends], by simp [hobj]⟩, none,
        ?_, rfl⟩
      have hat := hmid.at_p
      rw [← hobj] at hat
      exact hat
    · exact (hmid.others q hq).congr rfl (by simp [hq]) id
  · rw [hall.globals]
    exact h.room _ hlive (List.Subset.refl _)
  · dsimp only
    rw [hall.globals]
  · dsimp only
    rw [hall.tcb, Function.update_of_ne hq]

theorem osTaskCreate_goes {prio : Nat} {timeQuanta : UInt32} (h : s.Inv v) (hahead : s.Ahead v)
    (hp : p ∉ s.taskDbgList) (hfew : s.taskDbgList.length + 1 < UInt16.size) :
    s.Goes (.taskCreate p prio timeQuanta) v := by
  by_cases hint : s.intNestingCtr > 0
  · exact .refl h hahead (if_pos hint)
  by_cases hprio : prio ≥ osCfgPrioMax
  · exact .refl h hahead (by rw [KernelEvent.call, osTaskCreate, if_neg hint, if_pos hprio])
  by_cases hlow : prio = osCfgPrioMax - 1 ∧ p ≠ s.idleTask
  · exact .refl h hahead (by rw [KernelEvent.call, osTaskCreate, if_neg hint, if_neg hprio,
      if_pos hlow])
  obtain ⟨s1, hcreate, hinv, hctr, hglobals, hothers⟩ :=
    @osTaskCreate_spec _ _ _ s v p prio timeQuanta (h.mid_dead hp hfew) hint
      (Nat.not_le.mp hprio) hlow hp ((h.stands p).dead hp).1
  refine ⟨_, s1, _, hcreate, hinv, fun q => hctr ▸ hahead q, hctr.trans (add_ticks rfl),
    fun k _ => by rw [hglobals], fun _ => .refl,
    fun q hq hnot => absurd (by rw [hglobals]; exact List.mem_cons_of_mem _ hq) hnot,
    fun q hq _ => ?_⟩
  rw [hothers q fun hqp => hp (hqp ▸ hq)]
  exact .stays

omit [DecidableEq κ] in
/-- **A task is deleted** when it is in no list any more. -/
theorem Kernel.Mid.del (h : s'.Mid v' p none none none) {c : Tcb κ} (hsets : s.Sets s' p c)
    (hobj : c.pendObj = none) (hp : p ≠ s.idleTask) (hahead : s.Ahead v)
    (hdue : v'.due = Function.update v.due p none) (hwaits : ∀ k, v'.waits k <+ v.waits k)
    {q : Option τ} (hq : s.Target q p) :
    s.Step (.taskDel q) v ((osTaskInitTcb p
      { s' with taskDbgList := s'.taskDbgList.erase p }).setState p .del) v' := by
  have hset := @Kernel.Sets.setState _ _ _ (osTaskInitTcb p s') p .del
  have hinit : s'.Sets (osTaskInitTcb p s') p _ := ⟨rfl, rfl, rfl⟩
  have hmid := h.initTcb.setState .del
  have hlive : ∀ q, q ∈ s'.taskDbgList.erase p ↔ q ∈ s'.taskDbgList ∧ q ≠ p := by
    intro q
    rw [h.tasks.mem_erase_iff, and_comm]
  have hidle : s'.idleTask ≠ p := by
    rw [hsets.globals]
    exact hp.symm
  have hself : ((osTaskInitTcb p s').setState p .del).tcb p = _ := hset.self
  have hfew : (s'.taskDbgList.erase p).length < UInt16.size :=
    h.room _ (h.tasks.erase p) (List.Subset.trans List.erase_subset (List.subset_cons_self p _))
  refine ⟨⟨⟨hmid.ready, hmid.tbl, hmid.wheel, hmid.pends, hmid.order, hmid.sem, h.tasks.erase p⟩,
    ⟨(hlive _).mpr ⟨(h.idleRdy hidle).live, hidle⟩, (hmid.idleRdy hidle).rdy⟩, fun q => ?_,
    hfew⟩,
    fun q => ?_, hsets.tickCtr.trans (add_ticks rfl),
    fun k _ => congrFun (congrArg Globals.sem hsets.globals) k, fun k => .of_sublist (hwaits k),
    fun r hr hnot => ⟨q, rfl, ?_⟩, fun q _ hq => ?_⟩
  · by_cases hq : q = p
    · subst hq
      refine ⟨fun hq => absurd rfl ((hlive q).mp hq).2, fun _ => ⟨?_, hmid.at_p⟩⟩
      show (((osTaskInitTcb q s').setState q .del).tcb q).pendObj = none
      rw [hself]
      show ((osTaskInitTcb q s').tcb q).pendObj = none
      rw [hinit.self]
      show (s'.tcb q).pendObj = none
      rw [hsets.self, hobj]
    · exact (hmid.others q hq).congr rfl ((hlive q).trans (and_iff_left hq)) id
  · show v'.due q ≠ some s'.wheel.tickCtr
    rw [hdue, hsets.tickCtr]
    by_cases hq : q = p
    · rw [hq, Function.update_self]
      exact (Option.some_ne_none _).symm
    · rw [Function.update_of_ne hq]
      exact hahead q
  · have hrp : r = p := by
      by_contra hrp
      exact hnot ((hlive r).mpr ⟨by rwa [hsets.globals], hrp⟩)
    rw [hrp]
    exact hq
  · have hqp := ((hlive q).mp hq).2
    have htcb : ((osTaskInitTcb p s').setState p .del).tcb q = s.tcb q := by
      rw [hset.tcb, Function.update_of_ne hqp, hinit.tcb, Function.update_of_ne hqp, hsets.tcb,
        Function.update_of_ne hqp]
    rw [hdue, Function.update_of_ne hqp]
    exact htcb.symm ▸ .stays

theorem osTaskDel_goes {q : Option τ} (h : s.Inv v) (hahead : s.Ahead v)
    (hlegal : (KernelEvent.taskDel q).Legal s) : s.Goes (.taskDel q) v := by
  by_cases hint : s.intNestingCtr > 0
  · exact .refl h hahead (if_pos hint)
  by_cases hidle : q = some s.idleTask
  · exact .refl h hahead (by rw [KernelEvent.call, osTaskDel, if_neg hint, if_pos hidle])
  obtain ⟨p, htarget, hp, hne⟩ := (hlegal (not_pos hint)).target hidle
  unfold Kernel.Goes
  rw [KernelEvent.call, osTaskDel, if_neg hint, if_neg hidle, htarget.eq, Option.bind_some]
  dsimp only
  have hobj := h.pendObj_none hp
  have hdue := h.due_none hp
  have hself : s.Sets s p (s.tcb p) := .lists rfl
  cases hstate : (s.tcb p).taskState with
  | del => exact absurd hstate (h.ok hp).state
  | rdy =>
    obtain ⟨s1, hremove, hsets, hmid⟩ := (h.mid_rdy hp hstate).rdyListRemove rfl (h.ok hp).prio
    rw [hremove]
    refine ⟨_, _, _, rfl, hmid.del hsets (hobj (by rw [hstate]; rfl)) hne hahead ?_
      (fun _ => .refl _) htarget⟩
    exact (Function.update_eq_self_iff.mpr (hdue (by rw [hstate]; rfl)).symm).symm
  | suspended =>
    have hmid := h.mid_idle hp (by rw [hstate]; decide) (by rw [hstate]; rfl)
    have hnone := hdue (by rw [hstate]; rfl)
    rw [hnone] at hmid
    refine ⟨_, _, _, rfl, hmid.del hself (hobj (by rw [hstate]; rfl)) hne hahead ?_
      (fun _ => .refl _) htarget⟩
    exact (Function.update_eq_self_iff.mpr hnone.symm).symm
  | dly | dlySuspended =>
    obtain ⟨s1, hremove, hsets, -, hmid⟩ :=
      (h.mid_idle hp (by rw [hstate]; decide) (by rw [hstate]; rfl)).tickListRemove
    dsimp only
    rw [hremove]
    exact ⟨_, _, _, rfl, hmid.del hsets (hobj (by rw [hstate]; rfl)) hne hahead rfl
      (fun _ => .refl _) htarget⟩
  | pend | pendTimeout | pendSuspended | pendTimeoutSuspended =>
    have hmid := (h.mid hp).1
    rw [Tcb.rdyAt, if_neg (by rw [hstate]; decide)] at hmid
    obtain ⟨s1, hremove, hsets, -, hmid1⟩ := hmid.tickListRemove
    dsimp only
    rw [hremove, Option.bind_some, hsets.self]
    cases hon : (s.tcb p).pendOn with
    | nothing =>
      have hnot := (h.ok hp).pendOn.mpr (by rw [hstate]; rfl)
      exact absurd hon hnot
    | taskSem =>
      have hnone : (s.tcb p).pendObj = none := by
        rw [← Option.not_isSome_iff_eq_none, (h.ok hp).pendObj, hon]
        decide
      rw [hnone] at hmid1
      exact ⟨_, _, _, rfl, hmid1.del hsets hnone hne hahead rfl (fun _ => .refl _) htarget⟩
    | sem =>
      obtain ⟨s2, hremove2, hsets2, -, hmid2⟩ := osPendListRemove_spec
        (by rw [hsets.self]; exact hmid1)
      dsimp only
      rw [hremove2]
      exact ⟨_, _, _, rfl, hmid2.del (hsets.trans hsets2) rfl hne hahead rfl
        (fun _ => List.erase_sublist) htarget⟩

/-- **A waiting task gets another priority**, and its place in the pend list. -/
theorem osPendListChangePrio_spec {prio : Nat} (h : s.Inv v) (hp : p ∈ s.taskDbgList)
    (hrdy : (s.tcb p).taskState ≠ .rdy) (hprio : prio < osCfgPrioMax) :
    ∃ s' v', osPendListChangePrio p prio s = some s' ∧
      s.Sets s' p { s.tcb p with prio := prio } ∧ s'.Inv v' ∧ v'.due = v.due ∧
      ∀ {e : KernelEvent τ κ}, e.Comes s p → ∀ k, e.Queues s s' (v.waits k) (v'.waits k) := by
  obtain ⟨hmid, htimed⟩ := h.mid hp
  have hok : Tcb.Ok { s.tcb p with prio := prio } :=
    (h.ok hp).congr hprio (h.ok hp).state rfl rfl rfl
  have hrdyAt : (s.tcb p).rdyAt = Tcb.rdyAt { s.tcb p with prio := prio } := by
    rw [Tcb.rdyAt, Tcb.rdyAt, if_neg hrdy, if_neg hrdy]
  have hset : s.Sets (s.setTcb p { s.tcb p with prio := prio }) p _ := .setTcb
  have hidle : s.idleTask = p → Tcb.taskState { s.tcb p with prio := prio } = .rdy :=
    fun hq => absurd hq (h.not_idle hrdy)
  rcases Option.eq_none_or_eq_some (s.tcb p).pendObj with hobj | ⟨k, hobj⟩
  · have hcall : osPendListChangePrio p prio s =
        some (s.setTcb p { s.tcb p with prio := prio }) := by
      unfold osPendListChangePrio
      dsimp only
      rw [hset.self]
      dsimp only
      rw [hobj]
    exact ⟨_, v, hcall, hset, (hmid.setTcb (Or.inl hobj)).inv hset hp hok hrdyAt rfl htimed hidle,
      rfl, fun _ _ => .refl⟩
  · have hmem : p ∈ v.waits k := (hmid.at_p.waits k).mpr hobj
    have hcall : osPendListChangePrio p prio s =
        if (s.pends.pendList k).nbrEntries > 1 then
          ((s.setTcb p { s.tcb p with prio := prio }).pendListRemove1 k p).bind fun s =>
            s.pendListInsertPrio k p
        else some (s.setTcb p { s.tcb p with prio := prio }) := by
      unfold osPendListChangePrio
      dsimp only
      rw [hset.self]
      dsimp only
      rw [hobj]
      rfl
    by_cases hnbr : (s.pends.pendList k).nbrEntries > 1
    · rw [hobj] at hmid
      obtain ⟨s1, hremove, hsets, -, hmid1⟩ := hmid.pendListRemove1
      have hset1 : s1.Sets (s1.setTcb p { s.tcb p with prio := prio }) p _ := .setTcb
      obtain ⟨s2, hinsert, hsets2, hmid2⟩ := (hmid1.setTcb
        (c := { s.tcb p with prio := prio }) (Or.inl rfl)).pendListInsertPrio (j := k) (by
          show s1.sem k = 0
          rw [hsets.globals]
          by_contra hsem
          rw [h.sem k hsem] at hmem
          cases hmem)
      rw [hset1.self] at hsets2
      have hall := (hsets.trans hset1).trans hsets2
      have hcomm : (s.setTcb p { s.tcb p with prio := prio }).pendListRemove1 k p =
          some (s1.setTcb p { s.tcb p with prio := prio }) := by
        rw [Kernel.pendListRemove1] at hremove ⊢
        obtain ⟨pends, hpends, rfl⟩ := Option.map_eq_some_iff.mp hremove
        exact Option.map_eq_some_iff.mpr ⟨pends, hpends, rfl⟩
      rw [if_pos hnbr, hcomm, Option.bind_some, hinsert] at hcall
      refine ⟨s2, _, hcall, hall, hmid2.inv hall hp hok hrdyAt hobj.symm htimed hidle, rfl,
        fun hcomes => .insert hcomes (fun _ => List.erase_sublist)
          (fun j => (h.pends.linked.nodup j).not_mem_erase) ?_⟩
      exact hsets2.prio (by rw [hset1.self])
    · have halone : v.waits k = [p] := by
        have hpos := List.length_pos_of_mem hmem
        rw [gt_iff_lt, UInt16.lt_iff_toNat_lt, (h.pends.ends k).nbr, UInt16.toNat_one] at hnbr
        obtain ⟨q, hwaits⟩ := List.length_eq_one_iff.mp (by omega : (v.waits k).length = 1)
        rw [hwaits, List.mem_singleton] at hmem
        rw [hwaits, hmem]
      rw [if_neg hnbr] at hcall
      refine ⟨_, v, hcall, hset, (hmid.setTcb_alone fun j hj => Or.inr ?_).inv hset hp hok hrdyAt
        rfl htimed hidle, rfl, fun _ _ => .refl⟩
      rwa [← Option.some.inj (hobj.symm.trans ((hmid.at_p.waits j).mp hj))]

theorem osTaskChangePrio_goes {q : Option τ} {prio : Nat} (h : s.Inv v) (hahead : s.Ahead v)
    (hlegal : (KernelEvent.taskChangePrio q prio).Legal s) : s.Goes (.taskChangePrio q prio) v := by
  by_cases hint : s.intNestingCtr > 0
  · exact .refl h hahead (if_pos hint)
  by_cases hprio : prio ≥ osCfgPrioMax - 1
  · exact .refl h hahead (by rw [KernelEvent.call, osTaskChangePrio, if_neg hint, if_pos hprio])
  obtain ⟨p, htarget, hp⟩ : ∃ p, s.Target q p ∧ p ∈ s.taskDbgList := by
    have hnames := hlegal (not_pos hint)
    cases q with
    | some p => exact ⟨p, ⟨rfl, fun hnone => absurd hnone (Option.some_ne_none p)⟩, hnames⟩
    | none =>
      obtain ⟨p, hcur, hp, hrdy, -⟩ := hnames
      exact ⟨p, ⟨hcur, fun _ => hrdy⟩, hp⟩
  have hlt : prio < osCfgPrioMax := by omega
  have hmove : TaskMove (.taskChangePrio q prio) s p (v.due p) { s.tcb p with prio := prio }
    (v.due p) := .prio q prio rfl htarget.eq
  have hok : Tcb.Ok { s.tcb p with prio := prio } :=
    (h.ok hp).congr hlt (h.ok hp).state rfl rfl rfl
  have hsame : v.due = Function.update v.due p (v.due p) := (Function.update_eq_self ..).symm
  unfold Kernel.Goes
  rw [KernelEvent.call, osTaskChangePrio, if_neg hint, if_neg hprio]
  dsimp only
  rw [htarget.eq, Option.bind_some]
  -- a task that is neither ready nor in a pend list stays where it stands
  have hstays : (s.tcb p).taskState ≠ .rdy → (s.tcb p).pendObj = none →
      s.Step (.taskChangePrio q prio) v (s.setTcb p { s.tcb p with prio := prio }) v := by
    intro hrdy hobj
    refine h.setTcb hahead hp hok ?_ rfl rfl (Or.inl hobj)
      (fun hq => absurd hq (h.not_idle hrdy)) hmove rfl
    rw [Tcb.rdyAt, Tcb.rdyAt, if_neg hrdy, if_neg hrdy]
  cases hstate : (s.tcb p).taskState with
  | del => exact absurd hstate (h.ok hp).state
  | rdy =>
    obtain ⟨s1, hremove, hsets, hmid1⟩ := (h.mid_rdy hp hstate).rdyListRemove rfl (h.ok hp).prio
    have hset1 : s1.Sets (s1.setTcb p { s.tcb p with prio := prio }) p _ := .setTcb
    obtain ⟨s2, hinsert, hsets2, hmid2⟩ := (hmid1.setTcb (c := { s.tcb p with prio := prio })
      (Or.inl rfl)).rdyListInsertAt q.isNone (by rw [hset1.self]) hlt
    rw [hset1.self] at hsets2
    have hall := (hsets.trans hset1).trans hsets2
    dsimp only
    rw [hremove, Option.bind_some, hsets.self, hinsert]
    refine ⟨_, s2, _, rfl, .of_sets hahead rfl (hmid2.inv hall hp hok (if_pos hstate).symm
      (h.pendObj_none hp (by rw [hstate]; rfl)).symm (by rw [hstate]; rfl) fun _ => hstate) hall
      hsame (fun _ => .refl) (hahead p) hmove⟩
  | dly | suspended | dlySuspended =>
    have hkeeps := hstays (by rw [hstate]; decide) (h.pendObj_none hp (by rw [hstate]; rfl))
    simp only [hstate] at hkeeps
    exact ⟨_, _, v, rfl, hkeeps⟩
  | pend | pendTimeout | pendSuspended | pendTimeoutSuspended =>
    dsimp only
    cases hon : (s.tcb p).pendOn with
    | nothing => exact absurd hon ((h.ok hp).pendOn.mpr (by rw [hstate]; rfl))
    | taskSem =>
      have hnone : (s.tcb p).pendObj = none := by
        rw [← Option.not_isSome_iff_eq_none, (h.ok hp).pendObj, hon]
        decide
      have hkeeps := hstays (by rw [hstate]; decide) hnone
      simp only [hstate, hon] at hkeeps
      exact ⟨_, _, v, rfl, hkeeps⟩
    | sem =>
      obtain ⟨s1, v1, hchange, hsets, hinv, hdue, hwaits⟩ := osPendListChangePrio_spec h hp
        (by rw [hstate]; decide) hlt
      dsimp only
      rw [hchange]
      exact ⟨_, s1, v1, rfl, .of_sets hahead rfl hinv hsets (hdue.trans hsame) (hwaits htarget)
        (hahead p) hmove⟩

end Create

end Generalplate.Ucos
