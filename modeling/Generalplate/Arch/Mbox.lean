import Generalplate.Lib.EventRun
import Generalplate.Lwip.Err
import Generalplate.Ucos.Queue
import Generalplate.Arch.Time

/-! # Mailboxes

A mailbox is a queue of the operating system. A NULL message goes through it as
the address of `pvNullPointer` and is turned back when it is fetched. Any number of
tasks post and fetch at once; each is preempted between any two of its calls to
the operating system. -/
namespace Generalplate.Arch
open Lib.EventRun Lwip Ucos

/-- `NULL`, the address of `pvNullPointer`, and `SYS_ARCH_TIMEOUT`. -/
def null : Nat := 0
def pvNullPointer : Nat := 0x08026b08
def sysArchTimeout : UInt32 := 0xffffffff

/-- The message both post paths put in the queue. -/
def encode (msg : Nat) : Nat := if msg = null then pvNullPointer else msg

/-- What a fetch stores for what `OSQPend` returned. -/
def decode (temp : Nat) : Nat := if temp = pvNullPointer then null else temp

theorem decode_encode {msg : Nat} (h : msg ≠ pvNullPointer) : decode (encode msg) = msg := by
  rw [encode]
  split
  · rename_i hn
    rw [decode, if_pos rfl, hn]
  · rw [decode, if_neg h]

/-- The ticks a fetch waits, 0 for ever. -/
def ucosTimeout (timeout : UInt32) : UInt32 :=
  if timeout ≠ 0 then
    let ticks := timeout * osCfgTickRateHz / 1000
    if ticks < 1 then 1 else ticks
  else 0

/-- What a fetch returns for the readings before and after `OSQPend`. -/
def fetchElapsed (timeout timeoutNew : UInt32) : UInt32 :=
  let timeoutNew :=
    if timeoutNew ≥ timeout then timeoutNew - timeout else 0xffffffff - timeout + timeoutNew
  timeoutNew * 1000 / osCfgTickRateHz + 1

/-- However the product wraps, the time waited is not the code of a timeout. -/
theorem fetchElapsed_ne (timeout timeoutNew : UInt32) :
    fetchElapsed timeout timeoutNew ≠ sysArchTimeout := by
  intro h
  generalize hticks : (if timeoutNew ≥ timeout then timeoutNew - timeout
    else 0xffffffff - timeout + timeoutNew) = ticks at h
  simp only [fetchElapsed, hticks] at h
  have hnat := congrArg UInt32.toNat h
  have hlt := (ticks * 1000).toNat_lt
  simp only [osCfgTickRateHz, sysArchTimeout, UInt32.toNat_add, UInt32.toNat_div,
    UInt32.reduceToNat] at hnat
  omega

/-- Where a task is. In `sys_mbox_post` it has made `i` attempts; in a fetch, `want`
says that the caller gave a place for the message, `ticks` is the time limit and
`timeout` the first reading of the clock. -/
inductive MboxPc where
  | idle
  | posting (msg i : Nat)
  | delaying (msg i : Nat)
  | fetching (want : Bool) (ticks timeout : UInt32)
  | pending (want : Bool) (ticks timeout : UInt32)
  | got (want : Bool) (timeout : UInt32) (temp : Nat)

/-- A fetch that has returned: what `OSQPend` gave it, its result, and what it
stored. -/
structure Fetched (τ : Type*) where
  task : τ
  want : Bool
  temp : Option Nat
  res : UInt32
  msg : Option Nat

/-- A call that has returned. -/
inductive MboxEvent (τ : Type*) where
  | posted (task : τ) (msg : Nat)
  | dropped (task : τ) (msg : Nat)
  | tryposted (task : τ) (msg : Nat) (res : ErrT)
  | fetched (f : Fetched τ)

structure Mbox (τ : Type*) where
  queue : OsQ τ
  pc : τ → MboxPc
  log : List (MboxEvent τ)

/-- What can happen: a task calls `sys_mbox_post`, makes an attempt, or comes back
from the delay; it runs `sys_mbox_trypost`; it calls `sys_arch_mbox_fetch` or
`sys_arch_mbox_tryfetch` and reads the clock, calls `OSQPend`, times out in it, or
comes back with a message and reads the clock again. Other queues take entries from
the pool and give them back. -/
inductive MboxAct (τ : Type*) where
  | post (task : τ) (msg : Nat)
  | attempt (task : τ)
  | delay (task : τ)
  | trypost (task : τ) (msg : Nat)
  | fetch (task : τ) (want : Bool) (timeout now : UInt32)
  | tryfetch (task : τ) (want : Bool) (now : UInt32)
  | pend (task : τ)
  | expire (task : τ)
  | resume (task : τ) (now : UInt32)
  | pool (n : Nat)
deriving DecidableEq

variable {τ : Type*} [DecidableEq τ]

/-- After `OSQCreate`. -/
def Mbox.init (τ : Type*) (size nbrFree : Nat) : Mbox τ :=
  ⟨⟨[], size, [], nbrFree, [], []⟩, fun _ => .idle, []⟩

def Mbox.goto (s : Mbox τ) (task : τ) (pc : MboxPc) : Mbox τ :=
  { s with pc := Function.update s.pc task pc }

theorem Mbox.goto_self (s : Mbox τ) (task : τ) (pc : MboxPc) : (s.goto task pc).pc task = pc :=
  Function.update_self ..

theorem Mbox.goto_other (s : Mbox τ) {task t : τ} (pc : MboxPc) (ht : t ≠ task) :
    (s.goto task pc).pc t = s.pc t := Function.update_of_ne ht ..

def Mbox.event (s : Mbox τ) (e : MboxEvent τ) : Mbox τ := { s with log := s.log ++ [e] }

/-- A task made ready by a post finds the message in its TCB. -/
def Mbox.ready (s : Mbox τ) (waiter : τ) (temp : Nat) : Mbox τ :=
  match s.pc waiter with
  | .pending want _ timeout => s.goto waiter (.got want timeout temp)
  | _ => s

/-- `OSQPost` by a task. -/
def Mbox.osPost (s : Mbox τ) (task : τ) (temp : Nat) : OsErr × Mbox τ :=
  let r := osQPost task temp s.queue
  let s := { s with queue := r.2.1 }
  match r.2.2 with
  | none => (r.1, s)
  | some waiter => (r.1, s.ready waiter temp)

/-- The beginning of `sys_arch_mbox_fetch`. -/
def Mbox.startFetch (s : Mbox τ) (task : τ) (want : Bool) (timeout now : UInt32) :
    Option (Mbox τ) :=
  match s.pc task with
  | .idle => some (s.goto task (.fetching want (ucosTimeout timeout) now))
  | _ => none

def mboxStep (prio : τ → Nat) : MboxAct τ → Mbox τ → Option (Mbox τ)
  | .post task msg, s =>
    match s.pc task with
    | .idle => some (s.goto task (.posting msg 0))
    | _ => none
  | .attempt task, s =>
    match s.pc task with
    | .posting msg i =>
      let r := s.osPost task (encode msg)
      if r.1 = .none then some ((r.2.goto task .idle).event (.posted task msg))
      else some (r.2.goto task (.delaying msg (i + 1)))
    | _ => none
  | .delay task, s =>
    match s.pc task with
    | .delaying msg i =>
      if i < 10 then some (s.goto task (.posting msg i))
      else some ((s.goto task .idle).event (.dropped task msg))
    | _ => none
  | .trypost task msg, s =>
    match s.pc task with
    | .idle =>
      let r := s.osPost task (encode msg)
      some (r.2.event (.tryposted task msg (if r.1 ≠ .none then .mem else .ok)))
    | _ => none
  | .fetch task want timeout now, s => s.startFetch task want timeout now
  | .tryfetch task want now, s => s.startFetch task want 1 now
  | .pend task, s =>
    match s.pc task with
    | .fetching want ticks timeout =>
      let r := osQPend prio task s.queue
      let s := { s with queue := r.2 }
      match r.1 with
      | some temp => some (s.goto task (.got want timeout temp))
      | none => some (s.goto task (.pending want ticks timeout))
    | _ => none
  | .expire task, s =>
    match s.pc task with
    | .pending want ticks _ =>
      if ticks ≠ 0 then
        let s := { s with queue := s.queue.pendTimeout task }
        some ((s.goto task .idle).event (.fetched ⟨task, want, none, sysArchTimeout,
          if want then some (decode null) else none⟩))
      else none
    | _ => none
  | .resume task now, s =>
    match s.pc task with
    | .got want timeout temp =>
      some ((s.goto task .idle).event (.fetched ⟨task, want, some temp, fetchElapsed timeout now,
        if want then some (decode temp) else none⟩))
    | _ => none
  | .pool n, s => some { s with queue := { s.queue with nbrFree := n } }

/-- What each step can do. -/
inductive MboxNext (prio : τ → Nat) (s : Mbox τ) : MboxAct τ → Mbox τ → Prop where
  | post {task : τ} {msg : Nat} (hpc : s.pc task = .idle) :
    MboxNext prio s (.post task msg) (s.goto task (.posting msg 0))
  | enqueued {task : τ} {msg i : Nat} (hpc : s.pc task = .posting msg i)
      (herr : (s.osPost task (encode msg)).1 = .none) :
    MboxNext prio s (.attempt task)
      (((s.osPost task (encode msg)).2.goto task .idle).event (.posted task msg))
  | refused {task : τ} {msg i : Nat} (hpc : s.pc task = .posting msg i)
      (herr : (s.osPost task (encode msg)).1 ≠ .none) :
    MboxNext prio s (.attempt task)
      ((s.osPost task (encode msg)).2.goto task (.delaying msg (i + 1)))
  | again {task : τ} {msg i : Nat} (hpc : s.pc task = .delaying msg i) (hi : i < 10) :
    MboxNext prio s (.delay task) (s.goto task (.posting msg i))
  | dropped {task : τ} {msg i : Nat} (hpc : s.pc task = .delaying msg i) (hi : ¬ i < 10) :
    MboxNext prio s (.delay task) ((s.goto task .idle).event (.dropped task msg))
  | trypost {task : τ} {msg : Nat} (hpc : s.pc task = .idle) :
    MboxNext prio s (.trypost task msg) ((s.osPost task (encode msg)).2.event
      (.tryposted task msg (if (s.osPost task (encode msg)).1 ≠ .none then .mem else .ok)))
  | fetch {task : τ} {want : Bool} {timeout now : UInt32} (hpc : s.pc task = .idle) :
    MboxNext prio s (.fetch task want timeout now)
      (s.goto task (.fetching want (ucosTimeout timeout) now))
  | tryfetch {task : τ} {want : Bool} {now : UInt32} (hpc : s.pc task = .idle) :
    MboxNext prio s (.tryfetch task want now) (s.goto task (.fetching want (ucosTimeout 1) now))
  | taken {task : τ} {want : Bool} {ticks timeout : UInt32} {temp : Nat} {rest : List Nat}
      (hpc : s.pc task = .fetching want ticks timeout) (hq : s.queue.entries = temp :: rest) :
    MboxNext prio s (.pend task)
      ({ s with queue := (osQPend prio task s.queue).2 }.goto task (.got want timeout temp))
  | waits {task : τ} {want : Bool} {ticks timeout : UInt32}
      (hpc : s.pc task = .fetching want ticks timeout) (hq : s.queue.entries = []) :
    MboxNext prio s (.pend task)
      ({ s with queue := (osQPend prio task s.queue).2 }.goto task (.pending want ticks timeout))
  | expire {task : τ} {want : Bool} {ticks timeout : UInt32}
      (hpc : s.pc task = .pending want ticks timeout) (hticks : ticks ≠ 0) :
    MboxNext prio s (.expire task)
      (({ s with queue := s.queue.pendTimeout task }.goto task .idle).event
        (.fetched ⟨task, want, none, sysArchTimeout, if want then some (decode null) else none⟩))
  | resume {task : τ} {want : Bool} {timeout now : UInt32} {temp : Nat}
      (hpc : s.pc task = .got want timeout temp) :
    MboxNext prio s (.resume task now) ((s.goto task .idle).event
      (.fetched ⟨task, want, some temp, fetchElapsed timeout now,
        if want then some (decode temp) else none⟩))
  | pool {n : Nat} :
    MboxNext prio s (.pool n) { s with queue := { s.queue with nbrFree := n } }

theorem mboxStep_next {prio : τ → Nat} {s s' : Mbox τ} {a : MboxAct τ}
    (hs : mboxStep prio a s = some s') : MboxNext prio s a s' := by
  cases a with
  | attempt task =>
    simp only [mboxStep] at hs
    split at hs
    · rename_i hpc
      split at hs
      · rename_i herr
        cases hs
        exact .enqueued hpc herr
      · rename_i herr
        cases hs
        exact .refused hpc herr
    · cases hs
  | delay task =>
    simp only [mboxStep] at hs
    split at hs
    · rename_i hpc
      split at hs
      · rename_i hi
        cases hs
        exact .again hpc hi
      · rename_i hi
        cases hs
        exact .dropped hpc hi
    · cases hs
  | fetch task want timeout now =>
    simp only [mboxStep, Mbox.startFetch] at hs
    split at hs
    · rename_i hpc
      cases hs
      exact .fetch hpc
    · cases hs
  | tryfetch task want now =>
    simp only [mboxStep, Mbox.startFetch] at hs
    split at hs
    · rename_i hpc
      cases hs
      exact .tryfetch hpc
    · cases hs
  | pend task =>
    simp only [mboxStep] at hs
    split at hs
    · rename_i hpc
      cases hq : s.queue.entries with
      | cons temp rest =>
        have hres : (osQPend prio task s.queue).1 = some temp := by rw [osQPend, hq]
        rw [hres] at hs
        cases hs
        exact .taken hpc hq
      | nil =>
        have hres : (osQPend prio task s.queue).1 = none := by rw [osQPend, hq]
        rw [hres] at hs
        cases hs
        exact .waits hpc hq
    · cases hs
  | expire task =>
    simp only [mboxStep] at hs
    split at hs
    · rename_i hpc
      split at hs
      · rename_i hticks
        cases hs
        exact .expire hpc hticks
      · cases hs
    · cases hs
  | post task msg | trypost task msg | resume task now =>
    simp only [mboxStep] at hs
    split at hs
    · rename_i hpc
      cases hs
      constructor
      exact hpc
    · cases hs
  | pool n =>
    cases hs
    exact .pool

/-! ## What a mailbox keeps -/

/-- The message a call has got into the queue. -/
def MboxEvent.accepted : MboxEvent τ → Option Nat
  | .posted _ msg => some msg
  | .tryposted _ msg res => if res = .ok then some msg else none
  | .dropped .. => none
  | .fetched _ => none

/-- The message a task has taken with a fetch that did not time out. -/
def MboxEvent.delivered (task : τ) : MboxEvent τ → Option Nat
  | .fetched f => if f.task = task ∧ f.res ≠ sysArchTimeout then f.temp.map decode else none
  | _ => none

/-- The messages the queue gave out, each with the task that got it. -/
def Mbox.received (s : Mbox τ) : List (τ × Nat) := s.queue.gave.map fun g => (g.1, decode g.2)

/-- A message that `OSQPend` returned to a task that has not yet returned it. -/
def MboxPc.hand : MboxPc → List Nat
  | .got _ _ temp => [decode temp]
  | _ => []

def MboxPc.Waits : MboxPc → Prop
  | .pending .. => True
  | _ => False

/-- The message being posted can be told from NULL. -/
def MboxPc.Sends : MboxPc → Prop
  | .posting msg _ => msg ≠ pvNullPointer
  | .delaying msg _ => msg ≠ pvNullPointer
  | _ => True

/-- The messages of a call can be told from NULL. -/
def MboxAct.Sends : MboxAct τ → Prop
  | .post _ msg => msg ≠ pvNullPointer
  | .trypost _ msg => msg ≠ pvNullPointer
  | _ => True

/-- A fetch times out exactly when it has taken nothing, and stores what it has
taken. -/
def Fetched.Ok (f : Fetched τ) : Prop :=
  (f.res = sysArchTimeout ↔ f.temp = none) ∧
  ∀ temp, f.temp = some temp → f.want = true → f.msg = some (decode temp)

/-- The receiving side: who waits, and what each task has got. -/
structure Mbox.Fetching (s : Mbox τ) : Prop where
  queue : s.queue.Ok
  waiting : ∀ task, task ∈ s.queue.pendList ↔ (s.pc task).Waits
  once : s.queue.pendList.Nodup
  delivered : ∀ task, s.log.filterMap (MboxEvent.delivered task) ++ (s.pc task).hand =
    (s.received.filter (·.1 = task)).map Prod.snd
  fetched : ∀ f, .fetched f ∈ s.log → f.Ok

structure Mbox.Ok (s : Mbox τ) : Prop where
  fetching : s.Fetching
  sends : ∀ task, (s.pc task).Sends
  accepted : s.log.filterMap MboxEvent.accepted = s.queue.took.map fun p => decode p.2

section Steps
variable {s s' : Mbox τ} {task : τ}

@[simp] theorem Mbox.ready_queue (s : Mbox τ) (waiter : τ) (temp : Nat) :
    (s.ready waiter temp).queue = s.queue := by
  rw [ready]
  split <;> rfl

@[simp] theorem Mbox.ready_log (s : Mbox τ) (waiter : τ) (temp : Nat) :
    (s.ready waiter temp).log = s.log := by
  rw [ready]
  split <;> rfl

theorem Mbox.ready_pc (waiter : τ) (temp : Nat) (hw : ¬ (s.pc task).Waits) :
    (s.ready waiter temp).pc task = s.pc task := by
  rw [ready]
  split
  · rename_i hpc
    refine Function.update_of_ne ?_ _ _
    rintro rfl
    exact hw (by rw [hpc]; trivial)
  · rfl

theorem Mbox.ready_sends (waiter : τ) (temp : Nat) (h : ∀ t, (s.pc t).Sends) (t : τ) :
    ((s.ready waiter temp).pc t).Sends := by
  by_cases hw : (s.pc t).Waits
  · rw [ready]
    split
    · by_cases ht : t = waiter
      · subst ht
        simp [Mbox.goto, MboxPc.Sends]
      · simpa only [Mbox.goto, Function.update_of_ne ht] using h t
    · exact h t
  · rw [ready_pc waiter temp hw]
    exact h t

/-- What a post leaves as it is. -/
theorem Mbox.osPost_frame (s : Mbox τ) (task : τ) (temp : Nat) :
    (s.osPost task temp).2.log = s.log ∧
    (∀ t, ¬ (s.pc t).Waits → (s.osPost task temp).2.pc t = s.pc t) ∧
    ((∀ t, (s.pc t).Sends) → ∀ t, ((s.osPost task temp).2.pc t).Sends) := by
  rw [osPost]
  split
  · exact ⟨rfl, fun _ _ => rfl, fun h => h⟩
  · exact ⟨ready_log _ _ _, fun t ht => ready_pc _ _ ht, fun h => ready_sends _ _ h⟩

/-- A post is taken in exactly when there is room, and otherwise changes nothing. -/
theorem Mbox.osPost_took (s : Mbox τ) (task : τ) (temp : Nat) :
    (s.queue.Room ∧ (s.osPost task temp).1 = .none ∧
      (s.osPost task temp).2.queue.took = s.queue.took ++ [(task, temp)]) ∨
    (¬ s.queue.Room ∧ (s.osPost task temp).1 ≠ .none ∧ (s.osPost task temp).2 = s) := by
  rcases osQPost_took task temp s.queue with ⟨hroom, herr, htook⟩ | ⟨hroom, herr, hsame⟩
  · refine Or.inl ⟨hroom, ?_⟩
    rw [osPost]
    split
    · exact ⟨herr, htook⟩
    · exact ⟨herr, by rw [ready_queue, htook]⟩
  · refine Or.inr ⟨hroom, ?_⟩
    rw [osPost, hsame]
    exact ⟨herr, rfl⟩

theorem Mbox.Fetching.event (h : s.Fetching) {e : MboxEvent τ} (he : ∀ f, e ≠ .fetched f) :
    (s.event e).Fetching := by
  refine ⟨h.queue, h.waiting, h.once, ?_, ?_⟩
  · intro t
    have hnone : MboxEvent.delivered t e = none := by
      cases e with
      | fetched f => exact absurd rfl (he f)
      | posted | dropped | tryposted => rfl
    have hdel := h.delivered t
    simpa [Mbox.event, Mbox.received, hnone] using hdel
  · intro f hf
    rcases List.mem_append.mp hf with hf | hf
    · exact h.fetched f hf
    · exact absurd (List.mem_singleton.mp hf).symm (he f)

/-- A step that concerns one task: the others wait, hold and have got what they did. -/
theorem Mbox.Fetching.only (h : s.Fetching) (task : τ) (hqueue : s'.queue.Ok)
    (honce : s'.queue.pendList.Nodup)
    (hothers : ∀ t, t ≠ task → s'.pc t = s.pc t ∧
      (t ∈ s'.queue.pendList ↔ t ∈ s.queue.pendList) ∧
      s'.log.filterMap (MboxEvent.delivered t) = s.log.filterMap (MboxEvent.delivered t) ∧
      s'.received.filter (·.1 = t) = s.received.filter (·.1 = t))
    (hwait : task ∈ s'.queue.pendList ↔ (s'.pc task).Waits)
    (hdel : s'.log.filterMap (MboxEvent.delivered task) ++ (s'.pc task).hand =
      (s'.received.filter (·.1 = task)).map Prod.snd)
    (hfetched : ∀ f, .fetched f ∈ s'.log → f.Ok) : s'.Fetching := by
  refine ⟨hqueue, ?_, honce, ?_, hfetched⟩
  · intro t
    by_cases ht : t = task
    · subst ht
      exact hwait
    · obtain ⟨hpc, hlist, -, -⟩ := hothers t ht
      rw [hpc, hlist]
      exact h.waiting t
  · intro t
    by_cases ht : t = task
    · subst ht
      exact hdel
    · obtain ⟨hpc, -, hlog, hgot⟩ := hothers t ht
      rw [hpc, hlog, hgot]
      exact h.delivered t

/-- A task that does not wait goes on without taking or giving back a message. -/
theorem Mbox.Fetching.goto (h : s.Fetching) {pc : MboxPc} (hold : ¬ (s.pc task).Waits)
    (hnew : ¬ pc.Waits) (hhand : pc.hand = (s.pc task).hand) : (s.goto task pc).Fetching := by
  have hself : (s.goto task pc).pc task = pc := Function.update_self ..
  refine h.only task h.queue h.once ?_ ?_ ?_ h.fetched
  · intro t ht
    exact ⟨Function.update_of_ne ht .., Iff.rfl, rfl, rfl⟩
  · rw [hself]
    exact iff_of_false (fun hm => hold ((h.waiting task).mp hm)) hnew
  · rw [hself, hhand]
    exact h.delivered task

/-- A message is put in the queue, or handed to the first task that waits. -/
theorem Mbox.Fetching.osPost (h : s.Fetching) (task : τ) (temp : Nat) :
    (s.osPost task temp).2.Fetching := by
  have hpost := h.queue.post task temp
  rcases osQPost_cases task temp s.queue with ⟨w, rest, hp, he⟩ | ⟨hp, -, he⟩ | ⟨-, -, err, hne, he⟩
  · have honce := h.once
    rw [hp] at honce
    obtain ⟨hw, hrest⟩ := List.nodup_cons.mp honce
    have hwait : (s.pc w).Waits := (h.waiting w).mp (by simp [hp])
    cases hpc : s.pc w with
    | pending want ticks timeout =>
      simp only [Mbox.osPost, he, Mbox.ready, hpc, Mbox.goto]
      rw [he] at hpost
      refine h.only w hpost hrest ?_ ?_ ?_ h.fetched
      · intro t ht
        simp [Mbox.received, hp, ht, ht.symm]
      · simpa [MboxPc.Waits] using hw
      · have hdel := h.delivered w
        simp only [hpc, MboxPc.hand, List.append_nil] at hdel
        simp [Mbox.received, MboxPc.hand, hdel]
    | idle | posting | delaying | fetching | got => simp [hpc, MboxPc.Waits] at hwait
  · simp only [Mbox.osPost, he]
    rw [he] at hpost
    exact ⟨hpost, h.waiting, h.once, h.delivered, h.fetched⟩
  · simp only [Mbox.osPost, he]
    exact h

/-- `OSQPend`: the oldest message, or a place in the pend list. -/
theorem Mbox.Fetching.pend (h : s.Fetching) {prio : τ → Nat}
    (hs : mboxStep prio (.pend task) s = some s') : s'.Fetching := by
  have hpend := h.queue.pend prio task
  have hdel := h.delivered task
  have hout : ¬ (s.pc task).Waits → task ∉ s.queue.pendList := by
    rw [h.waiting]
    exact id
  cases mboxStep_next hs with
  | taken hpc hq =>
    rw [hpc] at hout hdel
    simp only [MboxPc.hand, List.append_nil] at hdel
    simp only [osQPend, hq] at hpend ⊢
    refine h.only task hpend h.once ?_ ?_ ?_ h.fetched
    · intro t ht
      simp [Mbox.received, Mbox.goto, ht, ht.symm]
    · simpa [Mbox.goto, MboxPc.Waits] using hout id
    · simp [Mbox.received, Mbox.goto, MboxPc.hand, hdel]
  | waits hpc hq =>
    rw [hpc] at hout hdel
    simp only [osQPend, hq] at hpend ⊢
    refine h.only task hpend ?_ ?_ ?_ ?_ h.fetched
    · exact (List.perm_orderedInsert _ _ _).nodup_iff.mpr (List.nodup_cons.mpr ⟨hout id, h.once⟩)
    · intro t ht
      simp [Mbox.received, Mbox.goto, ht]
    · simp [Mbox.goto, MboxPc.Waits]
    · simpa [Mbox.received, Mbox.goto, MboxPc.hand] using hdel

/-- The fetches that have returned, and one more. -/
theorem Mbox.Fetching.append (h : s.Fetching) {f : Fetched τ} (hf : f.Ok) {g : Fetched τ}
    (hg : .fetched g ∈ s.log ++ [.fetched f]) : g.Ok := by
  rcases List.mem_append.mp hg with hg | hg
  · exact h.fetched g hg
  · cases List.mem_singleton.mp hg
    exact hf

/-- A fetch that times out has taken nothing. -/
theorem Mbox.Fetching.expire (h : s.Fetching) {prio : τ → Nat}
    (hs : mboxStep prio (.expire task) s = some s') : s'.Fetching := by
  have hdel := h.delivered task
  cases mboxStep_next hs with
  | expire hpc hticks =>
    rw [hpc] at hdel
    refine h.only task (h.queue.timeout task) (h.once.erase task) ?_ ?_ ?_ ?_
    · intro t ht
      simp [Mbox.received, Mbox.goto, Mbox.event, OsQ.pendTimeout, MboxEvent.delivered, ht,
        List.mem_erase_of_ne ht]
    · simp [Mbox.goto, Mbox.event, OsQ.pendTimeout, MboxPc.Waits, h.once.not_mem_erase]
    · simpa [Mbox.received, Mbox.goto, Mbox.event, OsQ.pendTimeout, MboxEvent.delivered,
        MboxPc.hand] using hdel
    · intro f hf
      exact h.append ⟨by simp, by simp⟩ hf

/-- A fetch that has a message returns it. -/
theorem Mbox.Fetching.resume (h : s.Fetching) {prio : τ → Nat} {now : UInt32}
    (hs : mboxStep prio (.resume task now) s = some s') : s'.Fetching := by
  have hdel := h.delivered task
  have hwait := h.waiting task
  cases mboxStep_next hs with
  | @resume _ want timeout _ temp hpc =>
    have hres := fetchElapsed_ne timeout now
    rw [hpc] at hdel hwait
    refine h.only task h.queue h.once ?_ ?_ ?_ ?_
    · intro t ht
      simp [Mbox.received, Mbox.goto, Mbox.event, MboxEvent.delivered, ht, ht.symm]
    · simpa [Mbox.goto, Mbox.event, MboxPc.Waits] using hwait
    · simpa [Mbox.received, Mbox.goto, Mbox.event, MboxEvent.delivered, hres, MboxPc.hand]
        using hdel
    · intro f hf
      refine h.append ⟨by simp [hres], ?_⟩ hf
      intro t ht hw
      cases ht
      exact if_pos hw

omit [DecidableEq τ] in
/-- A call that has not got a message in the queue. -/
theorem Mbox.accepted_event {e : MboxEvent τ} (he : e.accepted = none) :
    (s.event e).log.filterMap MboxEvent.accepted = s.log.filterMap MboxEvent.accepted := by
  rw [Mbox.event, List.filterMap_append, List.filterMap_cons_none he, List.filterMap_nil,
    List.append_nil]

theorem Mbox.sends_goto {pc : MboxPc} (h : ∀ t, (s.pc t).Sends) (hpc : pc.Sends) (t : τ) :
    ((s.goto task pc).pc t).Sends := by
  by_cases ht : t = task
  · subst ht
    simpa [Mbox.goto] using hpc
  · simpa [Mbox.goto, ht] using h t

theorem Mbox.Ok.init (τ : Type*) [DecidableEq τ] (size nbrFree : Nat) :
    (Mbox.init τ size nbrFree).Ok where
  fetching := ⟨⟨rfl, fun _ => rfl⟩, fun _ => by simp [Mbox.init, MboxPc.Waits], List.nodup_nil,
    fun _ => rfl, fun _ hf => by simp [Mbox.init] at hf⟩
  sends _ := trivial
  accepted := rfl

/-- An attempt of `sys_mbox_post`. -/
theorem Mbox.Ok.attempt (h : s.Ok) {prio : τ → Nat}
    (hs : mboxStep prio (.attempt task) s = some s') : s'.Ok := by
  have hacc := h.accepted
  have hsends := h.sends task
  cases mboxStep_next hs with
  | @enqueued _ msg i hpc herr =>
    have hwait : ¬ (s.pc task).Waits := by
      rw [hpc]
      exact id
    have hfet := h.fetching.osPost task (encode msg)
    obtain ⟨hlog, hkeep, hall⟩ := s.osPost_frame task (encode msg)
    rw [hpc] at hsends
    rcases s.osPost_took task (encode msg) with ⟨-, -, htook⟩ | ⟨-, hne, -⟩
    · refine ⟨(hfet.goto ?_ id ?_).event nofun, sends_goto (hall h.sends) trivial, ?_⟩
      · rwa [hkeep _ hwait]
      · rw [hkeep _ hwait, hpc]
        rfl
      · simp [Mbox.event, Mbox.goto, MboxEvent.accepted, hlog, htook, hacc, decode_encode hsends]
    · exact absurd herr hne
  | @refused _ msg i hpc herr =>
    rw [hpc] at hsends
    rcases s.osPost_took task (encode msg) with ⟨-, hok, -⟩ | ⟨-, -, hsame⟩
    · exact absurd hok herr
    · rw [hsame]
      exact ⟨h.fetching.goto (by rw [hpc]; exact id) id (by rw [hpc]; rfl),
        sends_goto h.sends hsends, hacc⟩

theorem Mbox.Ok.trypost (h : s.Ok) {prio : τ → Nat} {msg : Nat} (hsends : msg ≠ pvNullPointer)
    (hs : mboxStep prio (.trypost task msg) s = some s') : s'.Ok := by
  cases mboxStep_next hs with
  | trypost hpc =>
    have hfet := h.fetching.osPost task (encode msg)
    obtain ⟨hlog, -, hall⟩ := s.osPost_frame task (encode msg)
    have hacc := h.accepted
    refine ⟨hfet.event nofun, hall h.sends, ?_⟩
    rcases s.osPost_took task (encode msg) with ⟨-, herr, htook⟩ | ⟨-, herr, hsame⟩
    · simp [Mbox.event, MboxEvent.accepted, hlog, herr, htook, hacc, decode_encode hsends]
    · simp [Mbox.event, MboxEvent.accepted, herr, hsame, hacc]

/-- A task that does not wait goes on to `pc`. -/
theorem Mbox.Ok.goto (h : s.Ok) {pc : MboxPc} (hold : ¬ (s.pc task).Waits) (hnew : ¬ pc.Waits)
    (hhand : pc.hand = (s.pc task).hand) (hsends : pc.Sends) : (s.goto task pc).Ok :=
  ⟨h.fetching.goto hold hnew hhand, sends_goto h.sends hsends, h.accepted⟩

theorem Mbox.Ok.step (h : s.Ok) {prio : τ → Nat} {a : MboxAct τ} (ha : a.Sends)
    (hs : mboxStep prio a s = some s') : s'.Ok := by
  have hacc := h.accepted
  cases mboxStep_next hs with
  | enqueued | refused => exact h.attempt hs
  | trypost => exact h.trypost ha hs
  | post hpc => exact h.goto (by rw [hpc]; exact id) id (by rw [hpc]; rfl) ha
  | fetch hpc | tryfetch hpc =>
    exact h.goto (by rw [hpc]; exact id) id (by rw [hpc]; rfl) trivial
  | @again task msg i hpc hi =>
    have hsends := h.sends task
    rw [hpc] at hsends
    exact h.goto (by rw [hpc]; exact id) id (by rw [hpc]; rfl) hsends
  | @dropped task msg i hpc hi =>
    have hidle : (s.goto task .idle).Ok :=
      h.goto (by rw [hpc]; exact id) id (by rw [hpc]; rfl) trivial
    exact ⟨hidle.fetching.event nofun, hidle.sends, (accepted_event rfl).trans hacc⟩
  | @taken task | @waits task =>
    have htook : (osQPend prio task s.queue).2.took = s.queue.took := osQPend_took prio task s.queue
    refine ⟨h.fetching.pend hs, sends_goto h.sends trivial, ?_⟩
    simpa only [Mbox.goto, htook] using hacc
  | expire =>
    exact ⟨h.fetching.expire hs, sends_goto h.sends trivial, (accepted_event rfl).trans hacc⟩
  | resume =>
    exact ⟨h.fetching.resume hs, sends_goto h.sends trivial, (accepted_event rfl).trans hacc⟩
  | pool =>
    have hfet := h.fetching
    exact ⟨⟨⟨hfet.queue.fifo, hfet.queue.wait⟩, hfet.waiting, hfet.once, hfet.delivered,
      hfet.fetched⟩, h.sends, hacc⟩

end Steps

/-- **Transparency.** Whatever the tasks do, the messages given to fetches and those
still in the queue are the ones whose post was accepted, in order and once; each task
has returned, or has in hand, what the queue gave it, NULL as NULL; a fetch returns
`SYS_ARCH_TIMEOUT` exactly when it has taken nothing; and `sys_mbox_trypost` returns
`ERR_OK` exactly when the queue takes its message in. -/
theorem mbox_transparent (prio : τ → Nat) (size nbrFree : Nat) {acts : List (MboxAct τ)}
    {s : Mbox τ} (hsends : ∀ a ∈ acts, a.Sends)
    (hrun : run (mboxStep prio) acts (.init τ size nbrFree) = some s) :
    s.log.filterMap MboxEvent.accepted =
      s.received.map Prod.snd ++ s.queue.entries.map decode ∧
    (∀ task, s.log.filterMap (MboxEvent.delivered task) ++ (s.pc task).hand =
      (s.received.filter (·.1 = task)).map Prod.snd) ∧
    (∀ f, .fetched f ∈ s.log → f.Ok) ∧
    ∀ task msg s', mboxStep prio (.trypost task msg) s = some s' →
      ∃ res, s'.log = s.log ++ [.tryposted task msg res] ∧
        ((res = .ok ∧ s'.queue.took = s.queue.took ++ [(task, encode msg)]) ∨
          (res = .mem ∧ s'.queue = s.queue)) := by
  have h : s.Ok :=
    run_inv_events (fun _ _ _ h ha hs => h.step ha hs) (Mbox.Ok.init τ size nbrFree) hsends hrun
  refine ⟨?_, h.fetching.delivered, h.fetching.fetched, ?_⟩
  · have hfifo := congrArg (List.map decode) h.fetching.queue.fifo
    rw [List.map_append, List.map_map, List.map_map] at hfifo
    rw [h.accepted, Mbox.received, List.map_map]
    exact hfifo
  · intro task msg s' hs
    cases mboxStep_next hs with
    | trypost hpc =>
      obtain ⟨hlog, -, -⟩ := s.osPost_frame task (encode msg)
      refine ⟨_, by rw [Mbox.event, hlog], ?_⟩
      rcases s.osPost_took task (encode msg) with ⟨-, herr, htook⟩ | ⟨-, herr, hsame⟩
      · exact Or.inl ⟨if_neg (by simp [herr]), htook⟩
      · exact Or.inr ⟨if_pos herr, by rw [Mbox.event, hsame]⟩

/-- A task waits and is handed NULL by another, whose next message stays in the queue. -/
theorem mbox_transparent_null : ∃ s : Mbox Nat,
    run (mboxStep id) [.fetch 1 true 0 0, .pend 1, .post 0 null, .attempt 0, .resume 1 7,
      .trypost 0 9] (.init Nat 20 100) = some s ∧
    s.log.filterMap MboxEvent.accepted =
      s.received.map Prod.snd ++ s.queue.entries.map decode := by
  have hsome : (run (mboxStep id) [.fetch 1 true 0 0, .pend 1, .post 0 null, .attempt 0,
      .resume 1 7, .trypost 0 9] (.init Nat 20 100)).isSome = true := by decide +kernel
  obtain ⟨s, hs⟩ := Option.isSome_iff_exists.mp hsome
  have hsends : ∀ a ∈ [MboxAct.fetch 1 true 0 0, .pend 1, .post 0 null, .attempt 0, .resume 1 7,
      .trypost 0 9], a.Sends := by
    simp [MboxAct.Sends, null, pvNullPointer]
  exact ⟨s, hs, (mbox_transparent id 20 100 hsends hs).1⟩

end Generalplate.Arch
