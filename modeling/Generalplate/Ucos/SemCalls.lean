import Generalplate.Ucos.Sem
import Generalplate.Ucos.TaskCalls

/-! # The calls on semaphores

The tasks that wait for a semaphore are let go from the front of its pend list, one or all of
them, and the counter counts only while nobody waits. -/
namespace Generalplate.Ucos
open scoped List

section Sem
variable {τ κ : Type*} [DecidableEq τ] [DecidableEq κ] {e : KernelEvent τ κ}
  {s s' s'' : Kernel τ κ} {v v' v'' : View τ κ} {p : τ} {k : κ}

omit [DecidableEq τ] in
/-- The counter is written, while nobody waits. -/
theorem Kernel.Step.setSem {cnt : UInt32} (h : s.Inv v) (hahead : s.Ahead v)
    (hticks : e.ticks = 0) (hcounts : e.Counts k) (hwaits : cnt ≠ 0 → v.waits k = []) :
    s.Step e v { s with sem := Function.update s.sem k cnt } v := by
  refine .of_globals h hahead hticks (fun j hj => ?_) (fun j hj => ?_) rfl rfl
  · dsimp only at hj
    by_cases hjk : j = k
    · subst hjk
      exact hwaits (by rwa [Function.update_self] at hj)
    · exact h.sem j (by rwa [Function.update_of_ne hjk] at hj)
  · have hjk : j ≠ k := fun hjk => hj (by rwa [hjk])
    exact Function.update_of_ne hjk ..

/-- The first tasks of a pend list wait no more, and the others go on as they are. -/
structure Kernel.Woken (status : PendStatus) (k : κ) (front back : List τ) (s : Kernel τ κ)
    (v : View τ κ) (s' : Kernel τ κ) (v' : View τ κ) : Prop where
  inv : s'.Inv v'
  globals : s'.toGlobals = s.toGlobals
  tickCtr : s'.wheel.tickCtr = s.wheel.tickCtr
  waits : v'.waits k = back
  left : ∀ j, v'.waits j <+ v.waits j
  woken : ∀ q ∈ front, s'.tcb q = (s.tcb q).pendEnd status ∧ v'.due q = none
  others : ∀ q ∉ front, s'.tcb q = s.tcb q ∧ v'.due q = v.due q

omit [DecidableEq τ] [DecidableEq κ] in
/-- What a task of a pend list says. -/
theorem Kernel.Inv.waiting (h : s.Inv v) (hp : p ∈ v.waits k) :
    p ∈ s.taskDbgList ∧ (s.tcb p).taskState.pends = true ∧ (s.tcb p).pendObj = some k := by
  have hlive : p ∈ s.taskDbgList := by
    by_contra hdead
    simpa using (((h.stands p).dead hdead).2.waits k).mp hp
  have hobj := ((h.mid hlive).1.at_p.waits k).mp hp
  have hon := (h.ok hlive).pendObj.mp (by rw [hobj]; rfl)
  exact ⟨hlive, (h.ok hlive).pendOn.mp (by rw [hon]; decide), hobj⟩

omit [DecidableEq τ] [DecidableEq κ] in
/-- A task is in the pend list of what it waits for. -/
theorem Kernel.Inv.mem_waits (h : s.Inv v) (hp : (s.tcb p).pendObj = some k) : p ∈ v.waits k := by
  have hlive : p ∈ s.taskDbgList := by
    by_contra hdead
    rw [((h.stands p).dead hdead).1] at hp
    cases hp
  exact ((h.mid hlive).1.at_p.waits k).mpr hp

omit [DecidableEq τ] [DecidableEq κ] in
theorem Kernel.Woken.nil (h : s.Inv v) (status : PendStatus) :
    s.Woken status k [] (v.waits k) v s v :=
  ⟨h, rfl, rfl, rfl, fun _ => .refl _, fun _ hq => absurd hq List.not_mem_nil,
    fun _ _ => ⟨rfl, rfl⟩⟩

/-- **The first task of a pend list waits no more.** -/
theorem osPendEnd_first {front back : List τ} {status : PendStatus} (h : s.Inv v)
    (hwaits : v.waits k = p :: front ++ back) :
    ∃ s1 v1, osPendEnd status true p s = some s1 ∧ v1.waits k = front ++ back ∧ s1.Inv v1 ∧
      ∀ {s' v'}, s1.Woken status k front back v1 s' v' →
        s.Woken status k (p :: front) back v s' v' := by
  have hmem : p ∈ v.waits k := by rw [hwaits]; simp
  obtain ⟨hp, hpends, -⟩ := h.waiting hmem
  obtain ⟨s1, hend, hsets, -, hinv⟩ := osPendEnd_spec h hp hpends status (Or.inl rfl)
  have hnodup := h.pends.linked.nodup k
  rw [hwaits] at hnodup
  have hnot : p ∉ front := fun hf =>
    (List.nodup_cons.mp hnodup).1 (List.mem_append_left _ hf)
  have hwaits1 : (v.wake (s.tcb p).taskState.bitSuspended s.prioCur (s.tcb p).prio p).waits k =
      front ++ back := by
    rw [View.wake_waits, hwaits, List.cons_append, List.erase_cons_head]
  refine ⟨s1, _, hend, hwaits1, hinv, fun {s' v'} hrest => ⟨hrest.inv,
    hrest.globals.trans hsets.globals, hrest.tickCtr.trans hsets.tickCtr, hrest.waits,
    fun j => (hrest.left j).trans ?_, fun q hq => ?_, fun q hq => ?_⟩⟩
  · rw [View.wake_waits]
    exact List.erase_sublist
  · by_cases hqp : q = p
    · subst hqp
      obtain ⟨htcb, hdue⟩ := hrest.others q hnot
      rw [htcb, hdue, hsets.self, View.wake_due, Function.update_self]
      exact ⟨rfl, rfl⟩
    · have hqf := (List.mem_cons.mp hq).resolve_left hqp
      have hsame : s1.tcb q = s.tcb q := by rw [hsets.tcb, Function.update_of_ne hqp]
      rw [← hsame]
      exact hrest.woken q hqf
  · have hqp : q ≠ p := fun hqp => hq (by simp [hqp])
    have hqf : q ∉ front := fun hqf => hq (List.mem_cons_of_mem _ hqf)
    obtain ⟨htcb, hdue⟩ := hrest.others q hqf
    rw [htcb, hdue, hsets.tcb, View.wake_due, Function.update_of_ne hqp, Function.update_of_ne hqp]
    exact ⟨rfl, rfl⟩

omit [DecidableEq τ] [DecidableEq κ] in
/-- Waking the first tasks of a pend list is a step. -/
theorem Kernel.Woken.step {front back : List τ} {status : PendStatus}
    (hwoken : s.Woken status k front back v s' v') (h : s.Inv v) (hahead : s.Ahead v)
    (hwaits : v.waits k = front ++ back) (hticks : e.ticks = 0)
    (hends : ∀ q, (s.tcb q).pendObj = some k → e.Ends s q status) :
    s.Step e v s' v' := by
  refine ⟨hwoken.inv, fun q => ?_, hwoken.tickCtr.trans (add_ticks hticks),
    fun j _ => by rw [hwoken.globals], fun j => .of_sublist (hwoken.left j),
    fun q hq hnot => absurd (by rwa [hwoken.globals]) hnot, fun q _ _ => ?_⟩
  · rw [hwoken.tickCtr]
    by_cases hq : q ∈ front
    · rw [(hwoken.woken q hq).2]
      exact (Option.some_ne_none _).symm
    · rw [(hwoken.others q hq).2]
      exact hahead q
  · by_cases hq : q ∈ front
    · obtain ⟨htcb, hdue⟩ := hwoken.woken q hq
      obtain ⟨-, hpends, hobj⟩ := h.waiting (k := k) (p := q) (by rw [hwaits]; simp [hq])
      rw [htcb, hdue]
      exact .wakes status hpends (hends q hobj)
    · obtain ⟨htcb, hdue⟩ := hwoken.others q hq
      rw [htcb, hdue]
      exact .stays

theorem semPostLoop_spec {front back : List τ} (h : s.Inv v)
    (hwaits : v.waits k = front ++ back) :
    ∃ s' v', semPostLoop k front.length (v.waits k).head? s = some s' ∧
      s.Woken .ok k front back v s' v' := by
  induction front generalizing s v with
  | nil =>
    obtain rfl : v.waits k = back := hwaits
    exact ⟨s, v, rfl, .nil h .ok⟩
  | cons p front ih =>
    obtain ⟨s1, v1, hend, hwaits1, h1, hcons⟩ := @osPendEnd_first _ _ _ _ _ _ _ _ _ _ .ok h hwaits
    obtain ⟨s', v', hloop, hwoken⟩ := ih h1 hwaits1
    refine ⟨s', v', ?_, hcons hwoken⟩
    have hnext := (h.pends.linked.links k [] p (front ++ back) hwaits).1
    rw [hwaits, List.cons_append, List.head?_cons, List.length_cons, semPostLoop]
    rw [hnext, ← hwaits1, osPost, Option.isSome_some, hend, Option.bind_some]
    exact hloop

/-- **A post** goes to the tasks that wait, or else to the counter. -/
theorem osSemPostCall_spec {all : Bool} (h : s.Inv v) :
    (v.waits k = [] ∧ osSemPostCall k all s =
      if s.sem k = 0xffffffff then some (.err .semOvf, s)
      else some (.err .none, { s with sem := Function.update s.sem k (s.sem k + 1) })) ∨
    ∃ front back s' v', v.waits k = front ++ back ∧ front ≠ [] ∧
      front.length = (if all then (v.waits k).length else 1) ∧
      osSemPostCall k all s = some (.err .none, s') ∧ s.Woken .ok k front back v s' v' := by
  have hends := h.pends.ends k
  rw [osSemPostCall]
  by_cases hnone : (s.pends.pendList k).nbrEntries = 0
  · rw [if_pos hnone]
    exact Or.inl ⟨hends.empty_iff.mp hnone, rfl⟩
  · rw [if_neg hnone]
    have hne := mt hends.empty_iff.mpr hnone
    obtain ⟨front, back, hwaits, hfront, hlen⟩ : ∃ front back, v.waits k = front ++ back ∧
        front ≠ [] ∧ front.length = if all then (v.waits k).length else 1 := by
      cases all with
      | true => exact ⟨v.waits k, [], (List.append_nil _).symm, hne, rfl⟩
      | false =>
        obtain ⟨p, rest, hwaits⟩ := List.exists_cons_of_ne_nil hne
        exact ⟨[p], rest, hwaits, List.cons_ne_nil _ _, rfl⟩
    obtain ⟨s', v', hloop, hwoken⟩ := semPostLoop_spec h hwaits
    refine Or.inr ⟨front, back, s', v', hwaits, hfront, hlen, ?_, hwoken⟩
    rw [hends.nbr, ← hlen, hends.head, hloop]
    rfl

theorem osSemPostCall_goes {all : Bool} (h : s.Inv v) (hahead : s.Ahead v) :
    s.Goes (.semPost k all) v := by
  unfold Kernel.Goes
  rw [KernelEvent.call]
  obtain ⟨hnone, hcall⟩ | ⟨front, back, s', v', hwaits, -, -, hcall, hwoken⟩ :=
    @osSemPostCall_spec _ _ _ _ _ _ k all h
  · rw [hcall]
    refine h.orRefused hahead rfl fun _ => ?_
    exact ⟨_, _, v, rfl, .setSem h hahead rfl rfl fun _ => hnone⟩
  · exact ⟨_, s', v', hcall, hwoken.step h hahead hwaits rfl fun q hq => ⟨hq, rfl⟩⟩

theorem semPendAbortLoop_all {fuel : Nat} (h : s.Inv v) (hfuel : (v.waits k).length < fuel) :
    ∃ s' v', semPendAbortLoop k true fuel s = some s' ∧
      s.Woken .abort k (v.waits k) [] v s' v' := by
  induction fuel generalizing s v with
  | zero => exact absurd hfuel (Nat.not_lt_zero _)
  | succ fuel ih =>
    have hends := h.pends.ends k
    rw [semPendAbortLoop]
    cases hwaits : v.waits k with
    | nil =>
      rw [if_pos (hends.empty_iff.mpr hwaits)]
      have hnil := Kernel.Woken.nil (k := k) h .abort
      rw [hwaits] at hnil
      exact ⟨s, v, rfl, hnil⟩
    | cons p rest =>
      rw [← List.append_nil (p :: rest)] at hwaits
      obtain ⟨s1, v1, hend, hwaits1, h1, hcons⟩ :=
        @osPendEnd_first _ _ _ _ _ _ _ _ _ _ .abort h hwaits
      rw [List.append_nil] at hwaits1
      have hlen : (v.waits k).length = rest.length + 1 := by rw [hwaits]; simp
      obtain ⟨s', v', hloop, hwoken⟩ := ih h1 (by rw [hwaits1]; omega)
      rw [hwaits1] at hwoken
      refine ⟨s', v', ?_, hcons hwoken⟩
      rw [if_neg (mt hends.empty_iff.mp (by rw [hwaits]; simp)), hends.head, hwaits,
        List.cons_append, List.head?_cons, Option.bind_some, osPendAbort, Option.isSome_some, hend,
        Option.bind_some, if_pos rfl, hloop]

theorem osSemPendAbort_goes {all noSched : Bool} (h : s.Inv v) (hahead : s.Ahead v) :
    s.Goes (.semPendAbort k all noSched) v := by
  have hends := h.pends.ends k
  unfold Kernel.Goes
  rw [KernelEvent.call, osSemPendAbort]
  refine h.orRefused hahead rfl fun _ => h.orRefused hahead rfl fun hnone => ?_
  cases all && !noSched with
  | true =>
    have hfuel : (v.waits k).length < (s.pends.pendList k).nbrEntries.toNat + 1 := by
      rw [hends.nbr]
      exact Nat.lt_succ_self _
    obtain ⟨s', v', hloop, hwoken⟩ := semPendAbortLoop_all h hfuel
    rw [hloop]
    exact ⟨_, s', v', rfl, hwoken.step h hahead (List.append_nil _).symm rfl
      fun q hq => ⟨hq, rfl⟩⟩
  | false =>
    obtain ⟨p, rest, hwaits⟩ := List.exists_cons_of_ne_nil (mt hends.empty_iff.mpr hnone)
    obtain ⟨s1, v1, hend, hwaits1, h1, hcons⟩ :=
      @osPendEnd_first _ _ _ _ _ _ _ _ [] rest .abort h hwaits
    have hnil := Kernel.Woken.nil (k := k) h1 .abort
    rw [hwaits1] at hnil
    rw [semPendAbortLoop]
    rw [if_neg hnone, hends.head, hwaits, List.head?_cons, Option.bind_some, osPendAbort,
      Option.isSome_some, hend, Option.bind_some, if_neg Bool.false_ne_true]
    exact ⟨_, s1, v1, rfl, (hcons hnil).step h hahead hwaits rfl fun q hq => ⟨hq, rfl⟩⟩

theorem osSemSet_goes {cnt : UInt32} (h : s.Inv v) (hahead : s.Ahead v) :
    s.Goes (.semSet k cnt) v := by
  unfold Kernel.Goes
  rw [KernelEvent.call, osSemSet]
  refine h.orRefused hahead rfl fun _ => ?_
  by_cases hpos : s.sem k > 0
  · rw [if_pos hpos]
    exact ⟨_, _, v, rfl, .setSem h hahead rfl rfl
      fun _ => h.sem k (UInt32.pos_iff_ne_zero.mp hpos)⟩
  rw [if_neg hpos]
  by_cases hnone : (s.pends.pendList k).nbrEntries = 0
  · rw [if_pos hnone]
    exact ⟨_, _, v, rfl, .setSem h hahead rfl rfl fun _ => (h.pends.ends k).empty_iff.mp hnone⟩
  · rw [if_neg hnone]
    exact ⟨_, s, v, rfl, .refl h hahead rfl⟩

/-- The running task waits from now on. -/
structure Kernel.Waits (e : KernelEvent τ κ) (s : Kernel τ κ) (v : View τ κ) (p : τ) (on : PendOn)
    (obj : Option κ) (timeout : UInt32) (s' : Kernel τ κ) : Prop where
  cur : s.tcbCur = some p
  live : p ∈ s.taskDbgList
  sets : s.Sets s' p ((s.tcb p).pend on obj timeout)
  step : s.Step e v s' (v.block (s.wheel.timeoutAt timeout) obj (fun q => (s.tcb q).prio) p)

theorem osPend_step {obj : Option κ} {on : PendOn} {timeout : UInt32} (h : s.Inv v)
    (hahead : s.Ahead v) (hcur : s.tcbCur = some p) (hp : p ∈ s.taskDbgList)
    (hrdy : (s.tcb p).taskState = .rdy) (hidle : p ≠ s.idleTask) (hon : on ≠ .nothing)
    (hobj : obj.isSome ↔ on = .sem) (hsem : ∀ k ∈ obj, s.sem k = 0) (hticks : e.ticks = 0)
    (hcomes : obj.isSome → e.Comes s p) :
    ∃ s', osPend p obj on timeout s = some s' ∧ s.Waits e v p on obj timeout s' := by
  obtain ⟨s1, hpend, hsets, hinv⟩ := osPend_spec h hp hrdy hidle hon hobj hsem timeout
  refine ⟨s1, hpend, hcur, hp, hsets, .of_sets hahead hticks hinv hsets (View.block_due obj)
    (fun j => ?_) (s.wheel.timeoutAt_ne timeout) (.pends on obj timeout hcur hrdy)⟩
  cases obj with
  | none => exact .refl
  | some k =>
    refine .insert (hcomes rfl) (fun _ => .refl _) (fun i hi => ?_) (hsets.prio rfl) j
    obtain ⟨-, hpends, -⟩ := h.waiting (p := p) (k := i) hi
    rw [hrdy] at hpends
    cases hpends

/-- **A pend** is refused, or it takes one, or its task waits. -/
theorem osSemPendCall_spec {timeout : UInt32} {blocking : Bool} (h : s.Inv v)
    (hahead : s.Ahead v) (hlegal : (KernelEvent.semPend k timeout blocking).Legal s) :
    ((s.intNestingCtr > 0 ∨ blocking = false ∨ s.schedLockNestingCtr > 0) ∧
      ∃ err, err ≠ .none ∧ osSemPendCall k timeout blocking s = some (.err err, s)) ∨
    (s.sem k > 0 ∧ osSemPendCall k timeout blocking s =
      some (.err .none, { s with sem := Function.update s.sem k (s.sem k - 1) })) ∨
    (s.sem k = 0 ∧ ∃ p s1, osSemPendCall k timeout blocking s = some (.waits, s1) ∧
      s.Waits (.semPend k timeout blocking) v p .sem (some k) timeout s1) := by
  rw [osSemPendCall]
  by_cases hint : s.intNestingCtr > 0
  · rw [if_pos hint]
    exact Or.inl ⟨Or.inl hint, _, by decide, rfl⟩
  by_cases hpos : s.sem k > 0
  · rw [if_neg hint, if_pos hpos]
    exact Or.inr (Or.inl ⟨hpos, rfl⟩)
  rw [if_neg hint, if_neg hpos]
  cases blocking with
  | false => exact Or.inl ⟨Or.inr (Or.inl rfl), _, by decide, rfl⟩
  | true =>
    rw [Bool.not_true, if_neg Bool.false_ne_true]
    by_cases hlock : s.schedLockNestingCtr > 0
    · rw [if_pos hlock]
      exact Or.inl ⟨Or.inr (Or.inr hlock), _, by decide, rfl⟩
    obtain ⟨p, hcur, hp, hrdy, hidle⟩ := hlegal (not_pos hint)
    have hzero : s.sem k = 0 := by_contra fun hne => hpos (UInt32.pos_iff_ne_zero.mpr hne)
    obtain ⟨s1, hpend, hwaits⟩ := @osPend_step _ _ _ _ (.semPend k timeout true) s v p (some k)
      .sem timeout h hahead hcur hp hrdy hidle (by decide) (by simp) (by simpa using hzero) rfl
      fun _ => ⟨hcur, hrdy⟩
    rw [if_neg hlock, hcur, Option.bind_some, hpend]
    exact Or.inr (Or.inr ⟨hzero, p, s1, rfl, hwaits⟩)

theorem osSemPendCall_goes {timeout : UInt32} {blocking : Bool} (h : s.Inv v)
    (hahead : s.Ahead v) (hlegal : (KernelEvent.semPend k timeout blocking).Legal s) :
    s.Goes (.semPend k timeout blocking) v := by
  unfold Kernel.Goes
  rw [KernelEvent.call]
  obtain ⟨-, err, -, hcall⟩ | ⟨hpos, hcall⟩ | ⟨-, p, s1, hcall, hwaits⟩ :=
    osSemPendCall_spec h hahead hlegal
  · exact ⟨_, s, v, hcall, .refl h hahead rfl⟩
  · exact ⟨_, _, v, hcall, .setSem h hahead rfl rfl
      fun _ => h.sem k (UInt32.pos_iff_ne_zero.mp hpos)⟩
  · exact ⟨_, s1, _, hcall, hwaits.step⟩

/-! The semaphore of a task. -/

omit [DecidableEq κ] in
/-- The counter of a task is written. -/
theorem Kernel.Step.signal (h : s.Inv v) (hahead : s.Ahead v) (hp : p ∈ s.taskDbgList)
    (hticks : e.ticks = 0) (c : UInt32) :
    s.Step e v (s.setTcb p { s.tcb p with semCtr := c }) v := by
  have hok := h.ok hp
  exact h.setTcb hahead hp ⟨hok.prio, hok.state, hok.pendOn, hok.pendObj⟩ rfl rfl rfl (Or.inr rfl)
    (fun hq => hq ▸ h.rdy) (.signal c) hticks

/-- **A pend for a signal** is refused, or it takes one, or its task waits. -/
theorem osTaskSemPend_spec {timeout : UInt32} {blocking : Bool} (h : s.Inv v)
    (hahead : s.Ahead v) (hlegal : (KernelEvent.taskSemPend (κ := κ) timeout blocking).Legal s) :
    (∃ err, osTaskSemPend timeout blocking s = some (.err err, s)) ∨
    (∃ p ∈ s.taskDbgList, osTaskSemPend timeout blocking s =
      some (.err .none, s.setTcb p { s.tcb p with semCtr := (s.tcb p).semCtr - 1 })) ∨
    (∃ p s1, osTaskSemPend timeout blocking s = some (.waits, s1) ∧
      s.Waits (.taskSemPend timeout blocking) v p .taskSem none timeout s1) := by
  rw [osTaskSemPend]
  by_cases hint : s.intNestingCtr > 0
  · rw [if_pos hint]
    exact Or.inl ⟨_, rfl⟩
  obtain ⟨p, hcur, hp, hrdy, hidle⟩ := hlegal (not_pos hint)
  rw [if_neg hint, hcur, Option.bind_some]
  by_cases hpos : (s.tcb p).semCtr > 0
  · rw [if_pos hpos]
    exact Or.inr (Or.inl ⟨p, hp, rfl⟩)
  rw [if_neg hpos]
  cases blocking with
  | false => exact Or.inl ⟨_, rfl⟩
  | true =>
    rw [Bool.not_true, if_neg Bool.false_ne_true]
    by_cases hlock : s.schedLockNestingCtr > 0
    · rw [if_pos hlock]
      exact Or.inl ⟨_, rfl⟩
    obtain ⟨s1, hpend, hwaits⟩ := @osPend_step _ _ _ _ (.taskSemPend timeout true) s v p none
      .taskSem timeout h hahead hcur hp hrdy hidle (by decide) (by simp) (by simp) rfl
      fun hsome => absurd hsome Bool.false_ne_true
    rw [if_neg hlock, hpend]
    exact Or.inr (Or.inr ⟨p, s1, rfl, hwaits⟩)

theorem osTaskSemPend_goes {timeout : UInt32} {blocking : Bool} (h : s.Inv v)
    (hahead : s.Ahead v) (hlegal : (KernelEvent.taskSemPend (κ := κ) timeout blocking).Legal s) :
    s.Goes (.taskSemPend timeout blocking) v := by
  unfold Kernel.Goes
  rw [KernelEvent.call]
  obtain ⟨err, hcall⟩ | ⟨p, hp, hcall⟩ | ⟨p, s1, hcall, hwaits⟩ :=
    osTaskSemPend_spec h hahead hlegal
  · exact ⟨_, s, v, hcall, .refl h hahead rfl⟩
  · exact ⟨_, _, v, hcall, .signal h hahead hp rfl _⟩
  · exact ⟨_, s1, _, hcall, hwaits.step⟩

/-- A task waits for its signal no more. -/
theorem osPendEnd_step {status : PendStatus} (h : s.Inv v) (hahead : s.Ahead v)
    (hp : p ∈ s.taskDbgList) (hon : (s.tcb p).pendOn = .taskSem) (hticks : e.ticks = 0)
    (hends : (s.tcb p).pendObj = none → e.Ends s p status) :
    ∃ s' v', osPendEnd status false p s = some s' ∧ s.Step e v s' v' := by
  have hpends := (h.ok hp).pendOn.mp (by rw [hon]; decide)
  have hobj : (s.tcb p).pendObj = none := by
    rw [← Option.not_isSome_iff_eq_none, (h.ok hp).pendObj, hon]
    decide
  obtain ⟨s1, hend, hsets, -, hinv⟩ := @osPendEnd_spec _ _ _ _ _ _ _ h hp hpends status false
    (Or.inr hobj)
  exact ⟨s1, _, hend, .of_sets hahead hticks hinv hsets View.wake_due
    (fun j => .of_sublist (by rw [View.wake_waits]; exact List.erase_sublist))
    (Option.some_ne_none _).symm (.wakes status hpends (hends hobj))⟩

omit [DecidableEq κ] in
/-- A signal that its task does not wait for is counted. -/
theorem taskSem_count (h : s.Inv v) (hahead : s.Ahead v) (hp : p ∈ s.taskDbgList)
    (hticks : e.ticks = 0) :
    ∃ a s' v', (if (s.tcb p).semCtr = 0xffffffff then some (Answer.err .semOvf, s)
      else some (.err .none, s.setTcb p { s.tcb p with semCtr := (s.tcb p).semCtr + 1 })) =
        some (a, s') ∧ s.Step e v s' v' := by
  refine h.orRefused hahead hticks fun _ => ?_
  exact ⟨_, _, v, rfl, .signal h hahead hp hticks _⟩

theorem osTaskSemPost_goes {q : Option τ} (h : s.Inv v) (hahead : s.Ahead v)
    (hlegal : (KernelEvent.taskSemPost (κ := κ) q).Legal s) : s.Goes (.taskSemPost q) v := by
  obtain ⟨p, htarget, hp⟩ := hlegal
  have hpends := (h.ok hp).pendOn
  have hcall : osTaskSemPost q s =
      if (s.tcb p).pendOn = .taskSem then (osPost none p s).map fun s => (Answer.err .none, s)
      else if (s.tcb p).semCtr = 0xffffffff then some (.err .semOvf, s)
      else some (.err .none, s.setTcb p { s.tcb p with semCtr := (s.tcb p).semCtr + 1 }) := by
    rw [osTaskSemPost, htarget, Option.bind_some]
    cases hstate : (s.tcb p).taskState with
    | del => exact absurd hstate (h.ok hp).state
    | rdy | dly | suspended | dlySuspended =>
      have hon : (s.tcb p).pendOn ≠ .taskSem := by
        intro hon
        rw [hon, hstate] at hpends
        exact Bool.false_ne_true (hpends.mp (by decide))
      rw [if_neg hon]
    | pend | pendTimeout | pendSuspended | pendTimeoutSuspended => rfl
  unfold Kernel.Goes
  rw [KernelEvent.call, hcall]
  by_cases hon : (s.tcb p).pendOn = .taskSem
  · obtain ⟨s1, v1, hend, hstep⟩ := @osPendEnd_step _ _ _ _ (.taskSemPost q) s v p .ok h hahead hp
      hon rfl fun hobj => ⟨htarget, hobj, rfl⟩
    rw [if_pos hon, osPost, Option.isSome_none, hend]
    exact ⟨_, s1, v1, rfl, hstep⟩
  · rw [if_neg hon]
    exact taskSem_count h hahead hp rfl

/-- **The end of `OSTaskSemPendAbort`**, for a task that does not wait for a semaphore by then. -/
theorem osTaskSemPendAbortEnd_goes (h : s.Inv v) (hahead : s.Ahead v)
    (hlegal : (KernelEvent.taskSemPendAbortEnd (κ := κ) p).Legal s) :
    s.Goes (.taskSemPendAbortEnd p) v := by
  obtain ⟨hp, hsem⟩ := hlegal
  have hpends := (h.ok hp).pendOn
  unfold Kernel.Goes
  rw [KernelEvent.call, osTaskSemPendAbortEnd, osPendAbort, Option.isSome_none]
  cases hon : (s.tcb p).pendOn with
  | sem => exact absurd hon hsem
  | taskSem =>
    obtain ⟨s1, v1, hend, hstep⟩ := @osPendEnd_step _ _ _ _ (.taskSemPendAbortEnd p) s v p .abort h
      hahead hp hon rfl fun hobj => ⟨rfl, hobj, rfl⟩
    rw [hend]
    exact ⟨_, s1, v1, rfl, hstep⟩
  | nothing =>
    have hstays : osPendEnd .abort false p s = some s := by
      rw [hon] at hpends
      unfold osPendEnd
      cases hstate : (s.tcb p).taskState with
      | rdy | dly | suspended | dlySuspended | del => rfl
      | pend | pendTimeout | pendSuspended | pendTimeoutSuspended =>
        rw [hstate] at hpends
        exact absurd rfl (hpends.mpr rfl)
    rw [hstays]
    exact ⟨_, s, v, rfl, .refl h hahead rfl⟩

/-- A task that waits for a semaphore by then goes on and stays in the pend list. -/
theorem osTaskSemPendAbortEnd_stale {a : Answer} (hpends : (s.tcb p).taskState.pends = true)
    (h : osTaskSemPendAbortEnd p s = some (a, s')) :
    s'.taskDbgList = s.taskDbgList ∧ (s'.tcb p).pendOn = .nothing ∧
      (s'.tcb p).pendObj = (s.tcb p).pendObj := by
  have hremove : ∀ {t t' : Kernel τ κ}, t.tickListRemove p = some t' →
      t'.tcb = t.tcb ∧ t'.taskDbgList = t.taskDbgList := by
    intro t t' ht
    obtain ⟨wheel, -, rfl⟩ := Option.map_eq_some_iff.mp ht
    exact ⟨rfl, rfl⟩
  have hrdy : ∀ {t'}, osTaskRdy p s = some t' →
      t'.tcb = s.tcb ∧ t'.taskDbgList = s.taskDbgList := by
    intro t' ht
    obtain ⟨s1, hs1, ht⟩ := Option.bind_eq_some_iff.mp ht
    split at ht
    · cases ht
      exact hremove hs1
    · obtain ⟨htcb, htasks⟩ := hremove hs1
      obtain ⟨ready, -, rfl⟩ := Option.map_eq_some_iff.mp ht
      exact ⟨htcb, htasks⟩
  obtain ⟨s1, hend, hpair⟩ := Option.map_eq_some_iff.mp h
  cases hpair
  rw [osPendAbort, Option.isSome_none, osPendEnd_eq hpends, if_neg Bool.false_ne_true,
    Option.bind_some] at hend
  obtain ⟨s2, hs2, rfl⟩ := Option.map_eq_some_iff.mp hend
  obtain ⟨htcb, htasks⟩ : s2.tcb = s.tcb ∧ s2.taskDbgList = s.taskDbgList := by
    split at hs2
    · exact hremove hs2
    · exact hrdy hs2
  rw [Kernel.Sets.setTcb.self, htcb]
  exact ⟨htasks, rfl, rfl⟩

end Sem

end Generalplate.Ucos
