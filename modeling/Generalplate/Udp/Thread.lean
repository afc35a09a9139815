import Mathlib.Data.List.Nodup
import Generalplate.Lib.EventRun
import Generalplate.Lwip.Err
import Generalplate.Udp.Receive

/-! # The UDP task

`udp_thread` sends a netbuf when its flag is set and clears the flag, then receives
one and handles it. Each netbuf it gets has to go back to the pools of lwIP once;
`netconn_send` leaves it with the task, whatever it returns. -/
namespace Generalplate.Udp
open Lib.EventRun Lwip TcpServer

/-- `LWIP_SEND_DATA`. -/
def lwipSendData : UInt8 := 0x80

/-- Where the task is. From `send` to `sent` it has `sentbuf`; `load` and `store` are
the two halves of clearing the flag. -/
inductive UdpPc where
  | test
  | new
  | send (sentbuf : Nat)
  | failed (sentbuf : Nat)
  | load (sentbuf : Nat)
  | store (sentbuf : Nat) (r : UInt8)
  | sent (sentbuf : Nat)
  | recv
  | received (recvbuf : Nat)

/-- The calls that concern a netbuf, with its number. -/
inductive NetbufEvent where
  | new (buf : Nat)
  | send (buf : Nat) (err : ErrT)
  | recv (buf : Nat)
  | delete (buf : Nat)
deriving DecidableEq, Repr

/-- `bufs` counts the netbufs the task has got. -/
structure UdpTask where
  pc : UdpPc
  flag : UInt8
  bufs : Nat
  recv : UdpRecv
  log : List NetbufEvent

/-- Before the loop. -/
def UdpTask.init (flag : UInt8) (mem : Nat → UInt8) : UdpTask := ⟨.test, flag, 0, .start mem, []⟩

/-- The steps of `udp_thread`, with the results of its calls: whether there was memory
for a netbuf, and the chain that was received, none on a timeout. `request` sets the
flag. -/
inductive UdpAct where
  | test
  | new (ok : Bool)
  | send (err : ErrT)
  | failed
  | load
  | store
  | sent
  | recv (p : Option (List Pbuf))
  | received
  | request

/-- The task writes to a netbuf without asking whether it got one. -/
def udpStep (udpDemoRecvbuf : Nat) : UdpAct → UdpTask → Option UdpTask
  | .test, s =>
    match s.pc with
    | .test => some { s with
        pc := if s.flag &&& lwipSendData = lwipSendData then .new else .recv }
    | _ => none
  | .new ok, s =>
    match s.pc with
    | .new =>
      if ok then some { s with
        pc := .send s.bufs
        bufs := s.bufs + 1
        log := s.log ++ [.new s.bufs] }
      else none
    | _ => none
  | .send err, s =>
    match s.pc with
    | .send sentbuf => some { s with
        pc := if err ≠ .ok then .failed sentbuf else .load sentbuf
        log := s.log ++ [.send sentbuf err] }
    | _ => none
  | .failed, s =>
    match s.pc with
    | .failed sentbuf => some { s with
        pc := .load sentbuf
        log := s.log ++ [.delete sentbuf] }
    | _ => none
  | .load, s =>
    match s.pc with
    | .load sentbuf => some { s with pc := .store sentbuf s.flag }
    | _ => none
  | .store, s =>
    match s.pc with
    | .store sentbuf r => some { s with pc := .sent sentbuf, flag := r &&& ~~~lwipSendData }
    | _ => none
  | .sent, s =>
    match s.pc with
    | .sent sentbuf => some { s with pc := .recv, log := s.log ++ [.delete sentbuf] }
    | _ => none
  | .recv p, s =>
    match s.pc with
    | .recv =>
      match p with
      | some p => some { s with
          pc := .received s.bufs
          bufs := s.bufs + 1
          recv := receive udpDemoRecvbuf s.recv p
          log := s.log ++ [.recv s.bufs] }
      | none => some { s with pc := .test }
    | _ => none
  | .received, s =>
    match s.pc with
    | .received recvbuf => some { s with pc := .test, log := s.log ++ [.delete recvbuf] }
    | _ => none
  | .request, s => some { s with flag := s.flag ||| lwipSendData }

/-- What each step can do. -/
inductive UdpNext (udpDemoRecvbuf : Nat) (s : UdpTask) : UdpAct → UdpTask → Prop where
  | set (hpc : s.pc = .test) (hset : s.flag &&& lwipSendData = lwipSendData) :
    UdpNext udpDemoRecvbuf s .test { s with pc := .new }
  | clear (hpc : s.pc = .test) (hclear : s.flag &&& lwipSendData ≠ lwipSendData) :
    UdpNext udpDemoRecvbuf s .test { s with pc := .recv }
  | new (hpc : s.pc = .new) : UdpNext udpDemoRecvbuf s (.new true) { s with
      pc := .send s.bufs
      bufs := s.bufs + 1
      log := s.log ++ [.new s.bufs] }
  | sendOk {sentbuf : Nat} (hpc : s.pc = .send sentbuf) :
    UdpNext udpDemoRecvbuf s (.send .ok) { s with
      pc := .load sentbuf
      log := s.log ++ [.send sentbuf .ok] }
  | sendFailed {sentbuf : Nat} {err : ErrT} (hpc : s.pc = .send sentbuf) (herr : err ≠ .ok) :
    UdpNext udpDemoRecvbuf s (.send err) { s with
      pc := .failed sentbuf
      log := s.log ++ [.send sentbuf err] }
  | failed {sentbuf : Nat} (hpc : s.pc = .failed sentbuf) :
    UdpNext udpDemoRecvbuf s .failed { s with
      pc := .load sentbuf
      log := s.log ++ [.delete sentbuf] }
  | load {sentbuf : Nat} (hpc : s.pc = .load sentbuf) :
    UdpNext udpDemoRecvbuf s .load { s with pc := .store sentbuf s.flag }
  | store {sentbuf : Nat} {r : UInt8} (hpc : s.pc = .store sentbuf r) :
    UdpNext udpDemoRecvbuf s .store { s with
      pc := .sent sentbuf
      flag := r &&& ~~~lwipSendData }
  | sent {sentbuf : Nat} (hpc : s.pc = .sent sentbuf) :
    UdpNext udpDemoRecvbuf s .sent { s with pc := .recv, log := s.log ++ [.delete sentbuf] }
  | data {p : List Pbuf} (hpc : s.pc = .recv) : UdpNext udpDemoRecvbuf s (.recv (some p)) { s with
      pc := .received s.bufs
      bufs := s.bufs + 1
      recv := receive udpDemoRecvbuf s.recv p
      log := s.log ++ [.recv s.bufs] }
  | timeout (hpc : s.pc = .recv) : UdpNext udpDemoRecvbuf s (.recv none) { s with pc := .test }
  | received {recvbuf : Nat} (hpc : s.pc = .received recvbuf) :
    UdpNext udpDemoRecvbuf s .received { s with
      pc := .test
      log := s.log ++ [.delete recvbuf] }
  | request : UdpNext udpDemoRecvbuf s .request { s with flag := s.flag ||| lwipSendData }

variable {udpDemoRecvbuf : Nat} {s s' : UdpTask} {a : UdpAct}

theorem udpStep_next (hs : udpStep udpDemoRecvbuf a s = some s') :
    UdpNext udpDemoRecvbuf s a s' := by
  cases a with
  | test =>
    simp only [udpStep] at hs
    split at hs
    · rename_i hpc
      cases hs
      split
      · rename_i hset
        exact .set hpc hset
      · rename_i hclear
        exact .clear hpc hclear
    · cases hs
  | new ok =>
    simp only [udpStep] at hs
    split at hs
    · rename_i hpc
      split at hs
      · rename_i hok
        cases hs
        rw [hok]
        exact .new hpc
      · cases hs
    · cases hs
  | send err =>
    simp only [udpStep] at hs
    split at hs
    · rename_i hpc
      cases hs
      split
      · rename_i herr
        exact .sendFailed hpc herr
      · rename_i herr
        rw [ne_eq, not_not] at herr
        rw [herr]
        exact .sendOk hpc
    · cases hs
  | recv p =>
    simp only [udpStep] at hs
    split at hs
    · rename_i hpc
      cases p with
      | some p =>
        cases hs
        exact .data hpc
      | none =>
        cases hs
        exact .timeout hpc
    · cases hs
  | failed | load | store | sent | received =>
    simp only [udpStep] at hs
    split at hs
    · rename_i hpc
      cases hs
      constructor
      exact hpc
    · cases hs
  | request =>
    cases hs
    exact .request

/-! ## Who has the netbufs -/

/-- The netbuf the task gets. -/
def NetbufEvent.got : NetbufEvent → Option Nat
  | .new buf => some buf
  | .recv buf => some buf
  | _ => none

def NetbufEvent.deleted : NetbufEvent → Option Nat
  | .delete buf => some buf
  | _ => none

/-- The netbuf that could not be sent. -/
def NetbufEvent.failed : NetbufEvent → Option Nat
  | .send buf err => if err ≠ .ok then some buf else none
  | _ => none

def UdpTask.got (s : UdpTask) : List Nat := s.log.filterMap NetbufEvent.got

def UdpTask.deleted (s : UdpTask) : List Nat := s.log.filterMap NetbufEvent.deleted

def UdpTask.failed (s : UdpTask) : List Nat := s.log.filterMap NetbufEvent.failed

/-- The netbufs the task deletes for an event: one that it has got, and one that
could not be sent once more. -/
def NetbufEvent.due (e : NetbufEvent) : List Nat := e.got.toList ++ e.failed.toList

/-- The deletions that the task has before it. -/
def UdpPc.owed : UdpPc → List Nat
  | .send sentbuf => [sentbuf]
  | .failed sentbuf => [sentbuf, sentbuf]
  | .load sentbuf => [sentbuf]
  | .store sentbuf _ => [sentbuf]
  | .sent sentbuf => [sentbuf]
  | .received recvbuf => [recvbuf]
  | _ => []

/-- The netbufs have their numbers, and the deletions done and owed are those due. -/
structure UdpTask.Ok (s : UdpTask) : Prop where
  numbered : s.got = List.range s.bufs
  accounted : s.deleted ++ s.pc.owed = s.log.flatMap NetbufEvent.due
  owed : ∀ n ∈ s.pc.owed, n ∈ s.got
  failed : ∀ n ∈ s.failed, n ∈ s.got

theorem UdpTask.Ok.init (flag : UInt8) (mem : Nat → UInt8) : (UdpTask.init flag mem).Ok :=
  ⟨rfl, rfl, by simp [UdpTask.init, UdpPc.owed], by simp [UdpTask.init, UdpTask.failed]⟩

/-- A step that logs nothing, and owes what was owed. -/
theorem UdpTask.Ok.silent (h : s.Ok) (hlog : s'.log = s.log) (hbufs : s'.bufs = s.bufs)
    (howed : s'.pc.owed = s.pc.owed) : s'.Ok := by
  obtain ⟨hnumbered, haccounted, hholds, hfailed⟩ := h
  refine ⟨?_, ?_, ?_, ?_⟩
  · rwa [UdpTask.got, hlog, hbufs]
  · rwa [UdpTask.deleted, hlog, howed]
  · rwa [UdpTask.got, hlog, howed]
  · rwa [UdpTask.failed, UdpTask.got, hlog]

/-- A step that logs one event: what was owed and what is due for the event is deleted
or still owed. -/
theorem UdpTask.Ok.logged (h : s.Ok) {e : NetbufEvent} (hlog : s'.log = s.log ++ [e])
    (hbufs : List.range s'.bufs = List.range s.bufs ++ e.got.toList)
    (howed : e.deleted.toList ++ s'.pc.owed = s.pc.owed ++ e.due)
    (hfailed : ∀ n ∈ e.failed.toList, n ∈ s.pc.owed) : s'.Ok := by
  have hone : ∀ f : NetbufEvent → Option Nat, [e].filterMap f = (f e).toList := by
    intro f
    cases he : f e <;> simp [he]
  have hgot : s'.got = s.got ++ e.got.toList := by
    rw [got, hlog, List.filterMap_append, hone, got]
  have hdeleted : s'.deleted = s.deleted ++ e.deleted.toList := by
    rw [deleted, hlog, List.filterMap_append, hone, deleted]
  have hunsent : s'.failed = s.failed ++ e.failed.toList := by
    rw [UdpTask.failed, hlog, List.filterMap_append, hone, UdpTask.failed]
  have hkept : ∀ n ∈ s.got, n ∈ s'.got := by
    intro n hn
    rw [hgot]
    exact List.mem_append_left _ hn
  refine ⟨?_, ?_, ?_, ?_⟩
  · rw [hgot, h.numbered, hbufs]
  · rw [hdeleted, List.append_assoc, howed, ← List.append_assoc, h.accounted, hlog,
      List.flatMap_append, List.flatMap_singleton]
  · intro n hn
    have hmem : n ∈ s.pc.owed ++ e.due := by
      rw [← howed]
      exact List.mem_append_right _ hn
    rw [NetbufEvent.due] at hmem
    rcases List.mem_append.mp hmem with hn | hn
    · exact hkept n (h.owed n hn)
    · rcases List.mem_append.mp hn with hn | hn
      · rw [hgot]
        exact List.mem_append_right _ hn
      · exact hkept n (h.owed n (hfailed n hn))
  · intro n hn
    rw [hunsent] at hn
    rcases List.mem_append.mp hn with hn | hn
    · exact hkept n (h.failed n hn)
    · exact hkept n (h.owed n (hfailed n hn))

theorem UdpTask.Ok.step (h : s.Ok) (hs : udpStep udpDemoRecvbuf a s = some s') : s'.Ok := by
  cases udpStep_next hs with
  | set hpc | clear hpc | load hpc | store hpc | timeout hpc =>
    exact h.silent rfl rfl (by rw [hpc]; rfl)
  | request => exact h.silent rfl rfl rfl
  | new hpc | data hpc =>
    exact h.logged rfl List.range_succ (by rw [hpc]; rfl) (by simp [NetbufEvent.failed])
  | sendOk hpc | failed hpc | sent hpc | received hpc =>
    exact h.logged rfl (List.append_nil _).symm (by rw [hpc]; rfl) (by simp [NetbufEvent.failed])
  | @sendFailed sentbuf err hpc herr =>
    have hfailed : (NetbufEvent.send sentbuf err).failed = some sentbuf := if_pos herr
    refine h.logged rfl (List.append_nil _).symm ?_ ?_
    · rw [hpc, NetbufEvent.due, hfailed]
      rfl
    · rw [hpc, hfailed]
      intro n hn
      exact hn

theorem UdpTask.Ok.run {acts : List UdpAct} (h : s.Ok)
    (hrun : run (udpStep udpDemoRecvbuf) acts s = some s') : s'.Ok :=
  run_keeps (fun _ _ _ hok hs => UdpTask.Ok.step hok hs) h hrun

/-- What is due: each netbuf once, and one that could not be sent once more. -/
theorem count_due (log : List NetbufEvent) (n : Nat) : (log.flatMap NetbufEvent.due).count n =
    (log.filterMap NetbufEvent.got).count n + (log.filterMap NetbufEvent.failed).count n := by
  induction log with
  | nil => rfl
  | cons e log ih =>
    have hcons : ∀ f : NetbufEvent → Option Nat,
        ((e :: log).filterMap f).count n = (f e).toList.count n + (log.filterMap f).count n := by
      intro f
      cases he : f e with
      | none => simp [he]
      | some m => simp [he, List.count_cons, Nat.add_comm]
    rw [List.flatMap_cons, List.count_append, NetbufEvent.due, List.count_append, ih, hcons,
      hcons]
    omega

/-- With no failed send each netbuf is due once. -/
theorem due_of_sent {log : List NetbufEvent} (h : log.filterMap NetbufEvent.failed = []) :
    log.flatMap NetbufEvent.due = log.filterMap NetbufEvent.got := by
  induction log with
  | nil => rfl
  | cons e log ih =>
    rw [List.filterMap_eq_nil_iff] at h
    have hhead := h e (List.mem_cons_self ..)
    have hrest : log.filterMap NetbufEvent.failed = [] := by
      rw [List.filterMap_eq_nil_iff]
      intro x hx
      exact h x (List.mem_cons_of_mem _ hx)
    rw [List.flatMap_cons, ih hrest, NetbufEvent.due, hhead, Option.toList_none, List.append_nil]
    cases he : e.got with
    | none => rw [List.filterMap_cons_none he]; rfl
    | some m => rw [List.filterMap_cons_some he]; rfl

/-- The send of the step, if it is one, succeeds. -/
def UdpAct.Sent : UdpAct → Prop
  | .send err => err = .ok
  | _ => True

/-- A step adds to the failed sends exactly when it is one. -/
theorem udpStep_failed (hs : udpStep udpDemoRecvbuf a s = some s') :
    s'.failed = [] ↔ s.failed = [] ∧ a.Sent := by
  cases udpStep_next hs with
  | @sendFailed sentbuf err hpc herr => simp [UdpTask.failed, NetbufEvent.failed, UdpAct.Sent, herr]
  | new | sendOk | failed | sent | data | received =>
    simp [UdpTask.failed, NetbufEvent.failed, UdpAct.Sent]
  | set | clear | load | store | timeout | request => simp [UdpTask.failed, UdpAct.Sent]

theorem run_failed {acts : List UdpAct} (hrun : run (udpStep udpDemoRecvbuf) acts s = some s') :
    s'.failed = [] ↔ s.failed = [] ∧ ∀ a ∈ acts, a.Sent := by
  induction acts generalizing s with
  | nil =>
    cases hrun
    simp
  | cons a acts ih =>
    obtain ⟨s1, h1, h2⟩ := run_cons_some hrun
    rw [ih h2, udpStep_failed h1, List.forall_mem_cons, and_assoc]

/-- At the head of the loop a netbuf has been deleted once, and again for each send of it
that failed. -/
theorem UdpTask.Ok.deletions (h : s.Ok) (hpc : s.pc = .test) (hnodup : s.got.Nodup) {n : Nat}
    (hn : n ∈ s.got) : s.deleted.count n = 1 + s.failed.count n := by
  have hdue := h.accounted
  have hnone : UdpPc.test.owed = [] := rfl
  rw [hpc, hnone, List.append_nil] at hdue
  rw [hdue, count_due, UdpTask.failed]
  change s.got.count n + _ = _
  rw [List.count_eq_one_of_mem hnodup hn]

/-- **Ownership.** As long as every send succeeds, the netbufs that were deleted and
the one in hand are those that the task has got, each once. Back at the beginning of
its loop the task has deleted each netbuf once only if every send did. -/
theorem netbufs_deleted_once {flag : UInt8} {mem : Nat → UInt8} {acts : List UdpAct}
    (hrun : run (udpStep udpDemoRecvbuf) acts (.init flag mem) = some s) :
    ((∀ a ∈ acts, a.Sent) → s.deleted ++ s.pc.owed = s.got ∧ s.got.Nodup) ∧
    (s.pc = .test → ((∀ n ∈ s.got, s.deleted.count n = 1) ↔ ∀ a ∈ acts, a.Sent)) := by
  have hok := (UdpTask.Ok.init flag mem).run hrun
  have hnodup : s.got.Nodup := by
    rw [hok.numbered]
    exact List.nodup_range
  have hsent : s.failed = [] ↔ ∀ a ∈ acts, a.Sent := by
    rw [run_failed hrun]
    exact and_iff_right rfl
  refine ⟨?_, ?_⟩
  · intro hall
    refine ⟨?_, hnodup⟩
    rw [hok.accounted]
    exact due_of_sent (hsent.mpr hall)
  · intro hpc
    rw [← hsent]
    constructor
    · intro honce
      rw [List.eq_nil_iff_forall_not_mem]
      intro n hn
      have hmem := hok.failed n hn
      have hpos := List.count_pos_iff.mpr hn
      have hone := honce n hmem
      rw [hok.deletions hpc hnodup hmem] at hone
      omega
    · intro hnone n hn
      rw [hok.deletions hpc hnodup hn, hnone, List.count_nil]

/-- One netbuf received and one sent, each deleted once. -/
theorem netbufs_deleted_once_both :
    ∃ s, run (udpStep 0x20000000)
      [.request, .test, .new true, .send .ok, .load, .store, .sent, .recv (some []), .received]
      (.init 0 fun _ => 0) = some s ∧ s.deleted ++ s.pc.owed = s.got ∧ s.got = [0, 1] := by
  have hrun : run (udpStep 0x20000000)
      [.request, .test, .new true, .send .ok, .load, .store, .sent, .recv (some []), .received]
      (.init 0 fun _ => 0) = some ⟨.test, 0, 2, receive 0x20000000 (.start fun _ => 0) [],
        [.new 0, .send 0 .ok, .delete 0, .recv 1, .delete 1]⟩ := rfl
  have hall := (netbufs_deleted_once hrun).1 (by simp [UdpAct.Sent])
  exact ⟨_, hrun, hall.1, rfl⟩

/-- A send that fails: its netbuf is deleted twice. -/
theorem failed_send_deletes_twice :
    (run (udpStep 0x20000000)
      [.test, .new true, .send .conn, .failed, .load, .store, .sent, .recv none]
      (.init 0x80 fun _ => 0)).map (fun s => (s.got, s.deleted)) = some ([0], [0, 0]) := by
  rfl

end Generalplate.Udp
