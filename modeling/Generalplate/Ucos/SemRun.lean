import Generalplate.Ucos.KernelRun

/-! # Semaphores in the runs of the kernel

No post is lost and none is used twice, and a task that waits is not overtaken by one of its own
or of a lower priority that comes later. -/
namespace Generalplate.Ucos
open Lib.EventRun
open scoped List

/-! ## The posts of a semaphore -/

section Count
variable {τ κ : Type*} [DecidableEq τ] [DecidableEq κ] {e : KernelEvent τ κ}
  {es : List (KernelEvent τ κ)} {s s' s1 : Kernel τ κ} {v v' : View τ κ} {p q : τ} {k : κ}

def KernelEvent.answer (e : KernelEvent τ κ) (s : Kernel τ κ) : Option Answer :=
  (e.call s).map Prod.fst

/-- The task waits no more, as a post has come for it. -/
def Kernel.served (k : κ) (s s' : Kernel τ κ) (p : τ) : Bool :=
  p ∈ s'.taskDbgList ∧ (s.tcb p).pendObj = some k ∧ (s'.tcb p).pendObj = none ∧
    (s'.tcb p).pendStatus = .ok

/-- A pend that goes on at once. -/
def KernelEvent.passed (k : κ) (e : KernelEvent τ κ) (s : Kernel τ κ) : Nat :=
  match e with
  | .semPend j _ _ => if j = k ∧ e.answer s = some (.err .none) then 1 else 0
  | _ => 0

/-- What is taken from a semaphore, by pends that go on at once and by tasks that wait. -/
def KernelEvent.taken (k : κ) (e : KernelEvent τ κ) (s : Kernel τ κ) : Nat :=
  e.passed k s + (kernelStep e s).elim 0 fun s' => s.taskDbgList.countP (s.served k s')

/-- What is given to it; a post to all is one for each task that waits. -/
def KernelEvent.posted (k : κ) (e : KernelEvent τ κ) (s : Kernel τ κ) : Nat :=
  match e with
  | .semPost j all =>
    if j = k ∧ e.answer s = some (.err .none) then
      if all then max 1 (s.pends.pendList k).nbrEntries.toNat else 1
    else 0
  | _ => 0

/-- Only a post ends a wait for the semaphore with `OS_STATUS_PEND_OK`. -/
theorem Kernel.Step.served_zero (hstep : s.Step e v s' v') (h : s.Inv v)
    (he : ∀ all, e ≠ .semPost k all) : s.taskDbgList.countP (s.served k s') = 0 := by
  refine List.countP_eq_zero.mpr fun p hp hserved => ?_
  obtain ⟨hp', hobj, hnone, hok⟩ := of_decide_eq_true hserved
  have hmove := hstep.moves p hp hp'
  generalize s'.tcb p = tcb at hmove hnone hok
  generalize v'.due p = due at hmove
  cases hmove with
  | stays | slice | signal | prio | delays | suspends | resumes =>
    have hsome : (s.tcb p).pendObj = none := hnone
    rw [hobj] at hsome
    cases hsome
  | pends _ _ _ _ hrdy =>
    rw [h.pendObj_none hp (by rw [hrdy]; rfl)] at hobj
    cases hobj
  | wakes status _ hends =>
    obtain rfl : status = .ok := hok
    cases e with
    | semPost j all =>
      have hj := hends.1
      rw [hobj, Option.some.injEq] at hj
      exact he all (by rw [hj])
    | semPendAbort => cases hends.2
    | taskSemPendAbortEnd => cases hends.2.2
    | taskSemPost =>
      have hsome := hends.2.1
      rw [hobj] at hsome
      cases hsome
    | _ => exact hends.elim
  | expires | undelays =>
    by_cases hpends : (s.tcb p).taskState.pends = true
    · rw [Tcb.expire, if_pos hpends] at hok
      cases hok
    · rw [Tcb.expire, if_neg hpends] at hnone
      have hsome : (s.tcb p).pendObj = none := hnone
      rw [hobj] at hsome
      cases hsome

omit [DecidableEq τ] in
/-- The tasks that a post reaches are those of the front of the pend list. -/
theorem Kernel.Woken.served [DecidableEq τ] {front back : List τ}
    (hwoken : s.Woken .ok k front back v s' v') (h : s.Inv v)
    (hwaits : v.waits k = front ++ back) :
    s.taskDbgList.countP (s.served k s') = front.length := by
  have hlive : ∀ p ∈ front, p ∈ s.taskDbgList ∧ (s.tcb p).pendObj = some k := by
    intro p hp
    obtain ⟨hp, -, hobj⟩ := h.waiting (k := k) (p := p) (by rw [hwaits]; simp [hp])
    exact ⟨hp, hobj⟩
  have hiff : ∀ p ∈ s.taskDbgList, (s.served k s' p = true ↔ p ∈ front) := by
    intro p hp
    unfold Kernel.served
    rw [decide_eq_true_iff]
    constructor
    · rintro ⟨-, hobj, hnone, -⟩
      by_contra hnot
      rw [(hwoken.others p hnot).1, hobj] at hnone
      cases hnone
    · intro hfront
      rw [(hwoken.woken p hfront).1]
      exact ⟨by rwa [hwoken.globals], (hlive p hfront).2, rfl, rfl⟩
  have hnodup := h.pends.linked.nodup k
  rw [hwaits] at hnodup
  rw [List.countP_eq_length_filter]
  refine List.Perm.length_eq ((List.perm_ext_iff_of_nodup (h.tasks.filter _)
    hnodup.of_append_left).mpr fun p => ?_)
  rw [List.mem_filter]
  constructor
  · rintro ⟨hp, hserved⟩
    exact (hiff p hp).mp hserved
  · intro hfront
    exact ⟨(hlive p hfront).1, (hiff p (hlive p hfront).1).mpr hfront⟩

/-- A pend takes one when it goes on at once. -/
theorem osSemPendCall_conserves {timeout : UInt32} {blocking : Bool} (h : s.Inv v)
    (hahead : s.Ahead v) (hlegal : (KernelEvent.semPend k timeout blocking).Legal s)
    (hstep : kernelStep (.semPend k timeout blocking) s = some s') :
    (s'.sem k).toNat + (KernelEvent.semPend k timeout blocking).passed k s = (s.sem k).toNat := by
  rw [KernelEvent.passed, KernelEvent.answer]
  rw [kernelStep] at hstep
  rw [KernelEvent.call] at hstep ⊢
  obtain ⟨-, err, herr, hcall⟩ | ⟨hpos, hcall⟩ | ⟨-, p, s1, hcall, hwaits⟩ :=
    osSemPendCall_spec h hahead hlegal
  · rw [hcall] at hstep ⊢
    cases hstep
    simp [herr]
  · rw [hcall] at hstep ⊢
    cases hstep
    dsimp only
    rw [if_pos ⟨rfl, rfl⟩, Function.update_self]
    have hlt := UInt32.lt_iff_toNat_lt.mp hpos
    have hbound := (s.sem k).toNat_lt
    rw [UInt32.toNat_sub]
    simp only [UInt32.reduceToNat] at hlt ⊢
    omega
  · rw [hcall] at hstep ⊢
    cases hstep
    rw [hwaits.sets.globals]
    simp

/-- A post gives one, to the counter or to a task that waits, or one to each. -/
theorem osSemPostCall_conserves {all : Bool} (h : s.Inv v)
    (hstep : kernelStep (.semPost k all) s = some s') :
    (s'.sem k).toNat + s.taskDbgList.countP (s.served k s') =
      (s.sem k).toNat + (KernelEvent.semPost k all).posted k s := by
  have hsame : ∀ s1 : Kernel τ κ, s1.tcb = s.tcb →
      s.taskDbgList.countP (s.served k s1) = 0 := by
    intro s1 htcb
    refine List.countP_eq_zero.mpr fun p _ hserved => ?_
    obtain ⟨-, hobj, hnone, -⟩ := of_decide_eq_true hserved
    rw [htcb, hobj] at hnone
    cases hnone
  have hnbr := (h.pends.ends k).nbr
  rw [KernelEvent.posted, KernelEvent.answer]
  rw [kernelStep] at hstep
  rw [KernelEvent.call] at hstep ⊢
  obtain ⟨hnone, hcall⟩ | ⟨front, back, s1, v1, hwaits, hfront, hlen, hcall, hwoken⟩ :=
    @osSemPostCall_spec _ _ _ _ _ _ k all h
  · rw [hcall] at hstep ⊢
    by_cases hovf : s.sem k = 0xffffffff
    · rw [if_pos hovf] at hstep ⊢
      cases hstep
      dsimp only
      rw [hsame s rfl]
      simp
    · rw [if_neg hovf] at hstep ⊢
      cases hstep
      dsimp only
      rw [if_pos ⟨rfl, rfl⟩,
        hsame { s with sem := Function.update s.sem k (s.sem k + 1) } rfl, hnbr, hnone,
        Function.update_self]
      have hne : (s.sem k).toNat ≠ (0xffffffff : UInt32).toNat :=
        fun heq => hovf (UInt32.toNat_inj.mp heq)
      have hbound := (s.sem k).toNat_lt
      rw [UInt32.toNat_add]
      simp only [UInt32.reduceToNat, List.length_nil, Nat.max_zero, ite_self] at hne ⊢
      omega
  · rw [hcall] at hstep ⊢
    cases hstep
    have hpos := List.length_pos_iff.mpr hfront
    rw [if_pos ⟨rfl, rfl⟩, hwoken.served h hwaits, hwoken.globals, hnbr, hlen]
    cases all with
    | false => rfl
    | true =>
      rw [if_pos rfl] at hlen ⊢
      rw [if_pos rfl]
      omega

theorem Kernel.Inv.conserves (h : s.Inv v) (hahead : s.Ahead v) (hlegal : e.Legal s)
    (he : ∀ cnt, e ≠ .semSet k cnt) (hrun : kernelStep e s = some s') :
    (s'.sem k).toNat + e.taken k s = (s.sem k).toNat + e.posted k s := by
  obtain ⟨v', hstep⟩ := h.step hahead hlegal hrun
  have hother : ¬ e.Counts k → (∀ all, e ≠ .semPost k all) →
      e.passed k s = 0 → e.posted k s = 0 →
      (s'.sem k).toNat + e.taken k s = (s.sem k).toNat + e.posted k s := by
    intro hcounts hpost hpassed hposted
    rw [KernelEvent.taken, hrun, Option.elim_some, hstep.served_zero h hpost, hpassed, hposted,
      hstep.sem k hcounts]
  cases e with
  | semPend j timeout blocking =>
    by_cases hj : j = k
    · subst hj
      rw [KernelEvent.taken, hrun, Option.elim_some, hstep.served_zero h fun _ he => by cases he]
      exact osSemPendCall_conserves h hahead hlegal hrun
    · exact hother hj (fun _ he => by cases he) (if_neg fun hand => hj hand.1) rfl
  | semPost j all =>
    by_cases hj : j = k
    · subst hj
      have hpassed : (KernelEvent.semPost j all).passed j s = 0 := rfl
      rw [KernelEvent.taken, hrun, Option.elim_some, hpassed, Nat.zero_add]
      exact osSemPostCall_conserves h hrun
    · refine hother hj (fun all he => ?_) rfl (if_neg fun hand => hj hand.1)
      cases he
      exact hj rfl
  | semSet j cnt =>
    refine hother (fun hj => ?_) (fun _ he => by cases he) rfl rfl
    have hjk : j = k := hj
    exact he cnt (by rw [hjk])
  | _ => exact hother id (fun _ he => by cases he) rfl rfl

/-- **No post is lost and none is used twice.** In every run, from any state of any run, what is
taken from a semaphore and what is left is what was there and what has been posted. -/
theorem sem_conserved (h : s.Reached) (hes : Throughout kernelStep KernelEvent.Legal es s)
    (hno : ∀ e ∈ es, ∀ cnt, e ≠ .semSet k cnt) (hrun : run kernelStep es s = some s') :
    (s'.sem k).toNat + tally kernelStep (KernelEvent.taken k) es s =
      (s.sem k).toNat + tally kernelStep (KernelEvent.posted k) es s := by
  refine @run_tally _ _ kernelStep _ Kernel.Good (fun s => (s.sem k).toNat) _ _
    (fun e s s' hgood hC hstep => ?_) es s s' h.good (hes.and_events hno) hrun
  obtain ⟨s1, hstep', hgood'⟩ := hgood.step hC.1
  rw [hstep] at hstep'
  cases hstep'
  obtain ⟨v, hinv, hahead⟩ := hgood
  exact ⟨hgood', hinv.conserves hahead hC.1 hC.2 hstep⟩

theorem sem_conserved_two :
    ((kernelAfter twoTasks).sem ()).toNat +
        tally kernelStep (KernelEvent.taken ()) twoTasks twoTasksInit =
      0 + tally kernelStep (KernelEvent.posted ()) twoTasks twoTasksInit :=
  @sem_conserved _ _ _ _ twoTasks twoTasksInit (kernelAfter twoTasks) ()
    ⟨fun _ => 0, 0, twoTasksInit, [], rfl, trivial, rfl⟩ (by decide) (by simp [twoTasks]) rfl

end Count

/-! ## The semaphores of the other layers -/

section Refines
variable {τ κ : Type*} [DecidableEq τ] [DecidableEq κ] {s s' : Kernel τ κ} {v : View τ κ} {p : τ}
  {k : κ} {sem : OsSem τ}

/-- The counter and the pend list that the kernel has for a semaphore. -/
def Kernel.HasSem (s : Kernel τ κ) (k : κ) (sem : OsSem τ) : Prop :=
  ∃ v, s.Inv v ∧ s.Ahead v ∧ sem = ⟨s.sem k, v.waits k⟩

theorem osSemPostCall_hasSem (h : s.HasSem k sem) :
    ∃ s', osSemPostCall k false s =
        some (.err (if (osSemPost sem).1 = .none then .none else .semOvf), s') ∧
      s'.HasSem k (osSemPost sem).2.1 ∧ ∀ p, s'.tcb p =
        if (osSemPost sem).2.2 = some p then (s.tcb p).pendEnd .ok else s.tcb p := by
  obtain ⟨v, hinv, hahead, rfl⟩ := h
  obtain ⟨hnone, hcall⟩ | ⟨front, back, s1, v1, hwaits, -, hlen, hcall, hwoken⟩ :=
    @osSemPostCall_spec _ _ _ _ _ _ k false hinv
  · rw [hcall, osSemPost, hnone]
    by_cases hovf : s.sem k = 0xffffffff
    · simp only [if_pos hovf]
      exact ⟨s, rfl, ⟨v, hinv, hahead, by rw [hnone]⟩, fun _ => rfl⟩
    · simp only [if_neg hovf]
      have hstep := @Kernel.Step.setSem _ _ _ (.semPost k false) s v k (s.sem k + 1) hinv hahead
        rfl rfl fun _ => hnone
      exact ⟨_, rfl, ⟨v, hstep.inv, hstep.ahead, by simp [hnone]⟩, fun _ => rfl⟩
  · obtain ⟨r, rfl⟩ := List.length_eq_one_iff.mp hlen
    have hstep := hwoken.step (e := .semPost k false) hinv hahead hwaits rfl fun q hq => ⟨hq, rfl⟩
    have hpost : osSemPost ⟨s.sem k, v.waits k⟩ = (.none, ⟨s.sem k, back⟩, some r) := by
      rw [osSemPost, hwaits]
      rfl
    rw [hcall, hpost]
    dsimp only
    refine ⟨s1, rfl, ⟨v1, hstep.inv, hstep.ahead, ?_⟩, fun p => ?_⟩
    · rw [hwoken.globals, hwoken.waits]
    · by_cases hp : r = p
      · rw [if_pos (congrArg some hp)]
        exact (hwoken.woken p (by rw [hp]; exact List.mem_singleton_self p)).1
      · rw [if_neg fun heq => hp (Option.some.inj heq)]
        exact (hwoken.others p fun hmem => hp (List.mem_singleton.mp hmem).symm).1

theorem osSemPendCall_hasSem {timeout : UInt32} (h : s.HasSem k sem)
    (hlegal : (KernelEvent.semPend k timeout true).Legal s) (hcur : s.tcbCur = some p)
    (hint : s.intNestingCtr = 0) (hlock : s.schedLockNestingCtr = 0) :
    ∃ s', osSemPendCall k timeout true s =
        some (if (osSemPend (fun q => (s.tcb q).prio) p sem).1 then .err .none else .waits, s') ∧
      s'.HasSem k (osSemPend (fun q => (s.tcb q).prio) p sem).2 := by
  obtain ⟨v, hinv, hahead, rfl⟩ := h
  rw [osSemPend]
  obtain ⟨hwhy, -⟩ | ⟨hpos, hcall⟩ | ⟨hzero, q, s1, hcall, hwaits⟩ :=
    osSemPendCall_spec hinv hahead hlegal
  · simp [hint, hlock] at hwhy
  · rw [hcall, if_pos hpos]
    have hempty := hinv.sem k (UInt32.pos_iff_ne_zero.mp hpos)
    have hstep := @Kernel.Step.setSem _ _ _ (.semPend k timeout true) s v k (s.sem k - 1) hinv
      hahead rfl rfl fun _ => hempty
    exact ⟨_, rfl, v, hstep.inv, hstep.ahead, by simp⟩
  · have hpos : ¬ s.sem k > 0 := by
      rw [hzero]
      decide
    obtain rfl : p = q := Option.some.inj (hcur.symm.trans hwaits.cur)
    rw [hcall, if_neg hpos]
    refine ⟨s1, rfl, _, hwaits.step.inv, hwaits.step.ahead, ?_⟩
    rw [hwaits.sets.globals]
    exact congrArg (OsSem.mk (s.sem k)) (Function.update_self k _ v.waits).symm

/-- **The semaphores that the model of `sys_arch` rests on** are those of the kernel, in every
state of every run. -/
theorem osSem_refines {timeout : UInt32} (h : s.Reached) :
    ∃ sem : OsSem τ, s.HasSem k sem ∧
      (∃ s', osSemPostCall k false s =
          some (.err (if (osSemPost sem).1 = .none then .none else .semOvf), s') ∧
        s'.HasSem k (osSemPost sem).2.1 ∧ ∀ p, s'.tcb p =
          if (osSemPost sem).2.2 = some p then (s.tcb p).pendEnd .ok else s.tcb p) ∧
      ∀ p, s.tcbCur = some p → s.intNestingCtr = 0 → s.schedLockNestingCtr = 0 →
        (KernelEvent.semPend k timeout true).Legal s →
        ∃ s', osSemPendCall k timeout true s = some
            (if (osSemPend (fun q => (s.tcb q).prio) p sem).1 then .err .none else .waits, s') ∧
          s'.HasSem k (osSemPend (fun q => (s.tcb q).prio) p sem).2 := by
  obtain ⟨v, hinv, hahead⟩ := h.good
  have hsem : s.HasSem k ⟨s.sem k, v.waits k⟩ := ⟨v, hinv, hahead, rfl⟩
  refine ⟨_, hsem, osSemPostCall_hasSem hsem, ?_⟩
  intro p hcur hint hlock hlegal
  exact osSemPendCall_hasSem hsem hlegal hcur hint hlock

theorem osSem_refines_two : ∃ sem : OsSem (Fin 3), ∃ s',
    osSemPostCall () false (kernelAfter (twoTasks.take 7)) =
      some (.err (if (osSemPost sem).1 = .none then .none else .semOvf), s') ∧
      s'.HasSem () (osSemPost sem).2.1 := by
  obtain ⟨sem, -, ⟨s', hpost, hsem, -⟩, -⟩ :=
    @osSem_refines _ _ _ _ (kernelAfter (twoTasks.take 7)) () 0
      ⟨fun _ => 0, 0, twoTasksInit, twoTasks.take 7, rfl, by decide, rfl⟩
  exact ⟨sem, s', hpost, hsem⟩

end Refines

/-! ## The order of the tasks that wait -/

section Order
variable {τ κ : Type*} [DecidableEq τ] [DecidableEq κ] {e : KernelEvent τ κ}
  {es : List (KernelEvent τ κ)} {s s' s2 : Kernel τ κ} {v v' : View τ κ} {p q : τ} {k : κ}

omit [DecidableEq τ] in
/-- A part of a list keeps the order of what it has. -/
theorem pair_of_sublist {left tasks : List τ} (h : left <+ tasks) (hnodup : tasks.Nodup)
    (hp : p ∈ left) (hq : q ∈ left) (hpq : [p, q] <+ tasks) : [p, q] <+ left := by
  induction h with
  | slnil => exact hpq
  | @cons left tasks a hsub ih =>
    obtain ⟨ha, hnodup⟩ := List.nodup_cons.mp hnodup
    rcases List.cons_sublist_cons'.mp hpq with hpq | ⟨rfl, -⟩
    · exact ih hnodup hp hq hpq
    · exact absurd (hsub.subset hp) ha
  | @cons_cons left tasks a hsub ih =>
    obtain ⟨ha, hnodup⟩ := List.nodup_cons.mp hnodup
    have hleft : ∀ r ∈ a :: left, r ∈ tasks → r ∈ left := by
      rintro r hr hmem
      rcases List.mem_cons.mp hr with rfl | hr
      · exact absurd hmem ha
      · exact hr
    rcases List.cons_sublist_cons'.mp hpq with hpq | ⟨rfl, hrest⟩
    · have hmem : p ∈ tasks ∧ q ∈ tasks := by
        simpa using hpq.subset
      exact (ih hnodup (hleft p hp hmem.1) (hleft q hq hmem.2) hpq).cons _
    · have hmem := List.singleton_sublist.mp hrest
      exact (List.singleton_sublist.mpr (hleft q hq hmem)).cons_cons _

omit [DecidableEq τ] in
/-- What comes in by its priority comes behind those of its priority. -/
theorem pair_orderedInsert (prio : τ → Nat) {tasks : List τ}
    (h : tasks.Pairwise fun a b => prio a ≤ prio b) (hp : p ∈ tasks) (hle : prio p ≤ prio q) :
    [p, q] <+ tasks.orderedInsert (fun a b => prio a < prio b) q := by
  induction tasks with
  | nil => cases hp
  | cons a tasks ih =>
    obtain ⟨ha, htasks⟩ := List.pairwise_cons.mp h
    rw [List.orderedInsert_cons]
    rcases List.mem_cons.mp hp with rfl | hp
    · rw [if_neg (Nat.not_lt.mpr hle)]
      refine List.Sublist.cons_cons _ (List.singleton_sublist.mpr ?_)
      rw [List.mem_orderedInsert]
      exact Or.inl rfl
    · rw [if_neg (Nat.not_lt.mpr ((ha p hp).trans hle))]
      exact (ih htasks hp).cons _

/-- The task `p` waits, and `q` waits behind it or not at all. -/
structure View.Before (v : View τ κ) (k : κ) (p q : τ) : Prop where
  waits : p ∈ v.waits k
  order : q ∈ v.waits k → [p, q] <+ v.waits k

omit [DecidableEq κ] in
/-- **The order is kept** by every event, while the priority of `p` is not changed and is not the
lower one. -/
theorem View.Before.step (hbefore : v.Before k p q) (h : s.Inv v) (hstep : s.Step e v s' v')
    (he : ∀ prio, e ≠ .taskChangePrio (some p) prio) (hp : (s'.tcb p).pendObj = some k)
    (hle : (s'.tcb p).prio ≤ (s'.tcb q).prio) : v'.Before k p q := by
  have hwaits : p ∈ v'.waits k := hstep.inv.mem_waits hp
  refine ⟨hwaits, fun hq => ?_⟩
  obtain ⟨left, hsub, hsame | ⟨r, hr, hcomes, hinsert⟩⟩ := hstep.waits k
  · rw [hsame] at hwaits hq ⊢
    exact pair_of_sublist hsub (h.pends.linked.nodup k) hwaits hq
      (hbefore.order (hsub.subset hq))
  · have hrp : r ≠ p := by
      rintro rfl
      obtain ⟨-, hpends, -⟩ := h.waiting hbefore.waits
      have hrdy : (s.tcb r).taskState ≠ .rdy := by
        intro hrdy
        rw [hrdy] at hpends
        cases hpends
      cases e with
      | semPend => exact hrdy hcomes.2
      | taskChangePrio target prio =>
        cases target with
        | none => exact hrdy (hcomes.self rfl)
        | some target => exact he prio (by rw [Option.some.inj hcomes.eq])
      | _ => exact hcomes.elim
    have hpleft : p ∈ left := by
      rw [hinsert, List.mem_orderedInsert] at hwaits
      exact hwaits.resolve_left hrp.symm
    have horder := hstep.inv.order k
    rw [hinsert] at hq horder ⊢
    by_cases hqr : q = r
    · subst hqr
      exact pair_orderedInsert (fun a => (s'.tcb a).prio)
        (horder.sublist (List.sublist_orderedInsert ..)) hpleft hle
    · have hqleft : q ∈ left := by
        rw [List.mem_orderedInsert] at hq
        exact hq.resolve_left hqr
      exact (pair_of_sublist hsub (h.pends.linked.nodup k) hpleft hqleft
        (hbefore.order (hsub.subset hqleft))).trans (List.sublist_orderedInsert ..)

theorem View.Before.run (hbefore : v.Before k p q) (h : s.Inv v) (hahead : s.Ahead v)
    (hes : Throughout kernelStep (fun e s => e.Legal s ∧ (s.tcb p).pendObj = some k ∧
      (s.tcb p).prio ≤ (s.tcb q).prio) es s)
    (hno : ∀ e ∈ es, ∀ prio, e ≠ .taskChangePrio (some p) prio)
    (hrun : run kernelStep es s = some s') (hp' : (s'.tcb p).pendObj = some k)
    (hle : (s'.tcb p).prio ≤ (s'.tcb q).prio) : ∃ v', s'.Inv v' ∧ v'.Before k p q := by
  induction es generalizing s v with
  | nil =>
    cases hrun
    exact ⟨v, h, hbefore⟩
  | cons e es ih =>
    obtain ⟨s1, h1, h2⟩ := run_cons_some hrun
    obtain ⟨he, hno⟩ := List.forall_mem_cons.mp hno
    obtain ⟨v1, hstep⟩ := h.step hahead hes.1.1 h1
    have hnow : (s1.tcb p).pendObj = some k ∧ (s1.tcb p).prio ≤ (s1.tcb q).prio :=
      (hes.2 s1 h1).start ⟨hp', hle⟩ h2
    exact ih (hbefore.step h hstep he hnow.1 hnow.2) hstep.inv hstep.ahead (hes.2 s1 h1) hno h2

/-- **No overtaking.** A task `p` waits for the semaphore when `q` does not. In every run in which
`p` waits on and its priority is not the lower one, a post goes to others before `q`. -/
theorem osSemPost_fair {a : Answer} (h : s.Reached) (hp : (s.tcb p).pendObj = some k)
    (hq : (s.tcb q).pendObj ≠ some k)
    (hes : Throughout kernelStep (fun e s => e.Legal s ∧ (s.tcb p).pendObj = some k ∧
      (s.tcb p).prio ≤ (s.tcb q).prio) es s)
    (hno : ∀ e ∈ es, ∀ prio, e ≠ .taskChangePrio (some p) prio)
    (hrun : run kernelStep es s = some s') (hp' : (s'.tcb p).pendObj = some k)
    (hle : (s'.tcb p).prio ≤ (s'.tcb q).prio)
    (hpost : osSemPostCall k false s' = some (a, s2)) : s2.tcb q = s'.tcb q := by
  obtain ⟨v, hinv, hahead⟩ := h.good
  have hbefore : v.Before k p q :=
    ⟨hinv.mem_waits hp, fun hmem => absurd (hinv.waiting hmem).2.2 hq⟩
  obtain ⟨v', hinv', hbefore'⟩ := hbefore.run hinv hahead hes hno hrun hp' hle
  obtain ⟨hnone, -⟩ | ⟨front, back, s1, v1, hwaits, -, hlen, hcall, hwoken⟩ :=
    @osSemPostCall_spec _ _ _ _ _ _ k false hinv'
  · have hmem := hbefore'.waits
    rw [hnone] at hmem
    cases hmem
  rw [hpost] at hcall
  cases hcall
  refine (hwoken.others q fun hfront => ?_).1
  obtain ⟨r, rfl⟩ := List.length_eq_one_iff.mp hlen
  obtain rfl := List.mem_singleton.mp hfront
  have hnodup := hinv'.pends.linked.nodup k
  have horder := hbefore'.order (by rw [hwaits]; simp)
  rw [hwaits] at hnodup horder
  have hout := (List.nodup_cons.mp hnodup).1
  rcases List.cons_sublist_cons'.mp horder with hback | ⟨-, hback⟩
  · exact hout (hback.subset (by simp))
  · exact hout (List.singleton_sublist.mp hback)

theorem osSemPost_fair_two :
    ∃ a s2, osSemPostCall () false (kernelAfter fairRun) = some (a, s2) ∧
      s2.tcb 2 = (kernelAfter fairRun).tcb 2 :=
  ⟨.err .none, _, rfl, @osSemPost_fair _ _ _ _ [.semPend () 0 true, .sched]
    (kernelAfter (fairRun.take 5)) (kernelAfter fairRun) _ 1 2 () (.err .none)
    ⟨fun _ => 0, 0, twoTasksInit, fairRun.take 5, rfl, by decide, rfl⟩ (by decide) (by decide)
    (by decide) (by simp) rfl (by decide) (by decide) rfl⟩

end Order

end Generalplate.Ucos
