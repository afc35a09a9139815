import Generalplate.Lib.EventRun
import Generalplate.Lwip.Err
import Generalplate.TcpServer.Receive

/-! # The TCP server task

`tcp_server_thread` accepts a connection and serves it in a loop: it writes when the
send flag is set and clears the flag, then receives and handles what it received.
`key_task` sets the flag. Both are preempted between any two steps, and the flag is
loaded and stored by each on its own. -/
namespace Generalplate.TcpServer
open Lib.ByteMem Lib.EventRun Lwip

/-- `LWIP_SEND_DATA`. -/
def lwipSendData : UInt8 := 0x80

/-- Offset of `ChargingPileAngle` in `TCP_PACK`. -/
def chargingPileAngle : Nat := 21

/-- Where `tcp_server_thread` is. From `test` to `handle` it serves a connection;
`load` and `store` are the two halves of clearing the flag. -/
inductive ServerPc where
  | accept
  | test
  | write
  | writing
  | load
  | store (r : UInt8)
  | recv
  | handle (p : List Pbuf)
  | close
  | delete

/-- What `netconn_recv` gives back. -/
inductive RecvRes where
  | data (p : List Pbuf)
  | fail (err : ErrT)

/-- The calls that concern a connection, with its number. -/
inductive ServerEvent where
  | refused (err : ErrT)
  | accepted (conn : Nat)
  | recv (conn : Nat) (err : ErrT)
  | close (conn : Nat)
  | delete (conn : Nat)
deriving DecidableEq, Repr

/-- A check of the packet header, and what was checked. -/
structure Check where
  ok : Bool
  recvbuf : List UInt8
deriving DecidableEq, Repr

/-- `conns` counts the accepted connections, `newconn` is the current one and
`failed` says that it has had a fatal error; `key` is what `key_task` has loaded;
`sent` is what the writes were given. -/
structure Server where
  pc : ServerPc
  flag : UInt8
  key : Option UInt8
  conns : Nat
  newconn : Nat
  failed : Bool
  mem : Nat → UInt8
  log : List ServerEvent
  sent : List (List UInt8)
  received : List (List Pbuf)
  checks : List Check

def Server.init (flag : UInt8) (mem : Nat → UInt8) : Server where
  pc := .accept
  flag := flag
  key := none
  conns := 0
  newconn := 0
  failed := false
  mem := mem
  log := []
  sent := []
  received := []
  checks := []

/-- The steps of `tcp_server_thread`, with the results of its calls, and the two of
`key_task`. -/
inductive ServerAct where
  | accept (err : ErrT)
  | test
  | write
  | wrote (err : ErrT)
  | load
  | store
  | recv (res : RecvRes)
  | handle
  | close
  | delete
  | keyLoad
  | keyStore

/-- The packet to send, as set for a new connection. -/
def setTransbuf (mem : Nat → UInt8) : Nat → UInt8 :=
  let mem := Function.update mem tcpServerTransbuf 0x66
  let mem := Function.update mem (tcpServerTransbuf + 1) 0x88
  Function.update mem (tcpServerTransbuf + chargingPileAngle) 0xcf

/-- `lwip` lets a connection that has failed fail again, and nothing else. -/
def RecvRes.Allowed (failed : Bool) : RecvRes → Prop
  | .data _ => failed = false
  | .fail err => err ≠ .ok ∧ (failed = true → err.Fatal)

instance (failed : Bool) : ∀ res : RecvRes, Decidable (res.Allowed failed)
  | .data _ => inferInstanceAs (Decidable (_ = _))
  | .fail _ => inferInstanceAs (Decidable (_ ∧ _))

def serverStep : ServerAct → Server → Option Server
  | .accept err, s =>
    match s.pc with
    | .accept =>
      if err = .ok then
        some { s with
          pc := .test
          conns := s.conns + 1
          newconn := s.conns
          failed := false
          mem := setTransbuf s.mem
          log := s.log ++ [.accepted s.conns] }
      else some { s with log := s.log ++ [.refused err] }
    | _ => none
  | .test, s =>
    match s.pc with
    | .test => some { s with
        pc := if s.flag &&& lwipSendData = lwipSendData then .write else .recv }
    | _ => none
  | .write, s =>
    match s.pc with
    | .write => some { s with
        pc := .writing
        sent := s.sent ++ [get s.mem tcpServerTransbuf tcpPackBufsize] }
    | _ => none
  | .wrote _, s =>
    match s.pc with
    | .writing => some { s with pc := .load }
    | _ => none
  | .load, s =>
    match s.pc with
    | .load => some { s with pc := .store s.flag }
    | _ => none
  | .store, s =>
    match s.pc with
    | .store r => some { s with pc := .recv, flag := r &&& ~~~lwipSendData }
    | _ => none
  | .recv res, s =>
    match s.pc with
    | .recv =>
      if res.Allowed s.failed then
        match res with
        | .data p => some { s with
            pc := .handle p
            log := s.log ++ [.recv s.newconn .ok]
            received := s.received ++ [p] }
        | .fail err => some { s with
            pc := if err = .clsd then .close else .test
            failed := s.failed || decide err.Fatal
            log := s.log ++ [.recv s.newconn err] }
      else none
    | _ => none
  | .handle, s =>
    match s.pc with
    | .handle p =>
      let atCheck := (receive p ⟨s.mem, []⟩).mem
      some { s with
        pc := .test
        mem := (handlePacket p ⟨s.mem, []⟩).mem
        checks := s.checks ++
          [⟨decide (HeadOk atCheck), get atCheck tcpServerRecvbuf tcpPackBufsize⟩] }
    | _ => none
  | .close, s =>
    match s.pc with
    | .close => some { s with pc := .delete, log := s.log ++ [.close s.newconn] }
    | _ => none
  | .delete, s =>
    match s.pc with
    | .delete => some { s with pc := .accept, log := s.log ++ [.delete s.newconn] }
    | _ => none
  | .keyLoad, s =>
    match s.key with
    | none => some { s with key := some s.flag }
    | some _ => none
  | .keyStore, s =>
    match s.key with
    | some r => some { s with key := none, flag := r ||| lwipSendData }
    | none => none

/-- The server serves a connection. -/
def ServerPc.Serves : ServerPc → Prop
  | .accept => False
  | .close => False
  | .delete => False
  | _ => True

/-- What each step can do. -/
inductive ServerNext (s : Server) : ServerAct → Server → Prop where
  | refused {err : ErrT} (hpc : s.pc = .accept) (herr : err ≠ .ok) :
    ServerNext s (.accept err) { s with log := s.log ++ [.refused err] }
  | accepted (hpc : s.pc = .accept) : ServerNext s (.accept .ok) { s with
      pc := .test
      conns := s.conns + 1
      newconn := s.conns
      failed := false
      mem := setTransbuf s.mem
      log := s.log ++ [.accepted s.conns] }
  | set (hpc : s.pc = .test) (hset : s.flag &&& lwipSendData = lwipSendData) :
    ServerNext s .test { s with pc := .write }
  | clear (hpc : s.pc = .test) (hclear : s.flag &&& lwipSendData ≠ lwipSendData) :
    ServerNext s .test { s with pc := .recv }
  | write (hpc : s.pc = .write) : ServerNext s .write { s with
      pc := .writing
      sent := s.sent ++ [get s.mem tcpServerTransbuf tcpPackBufsize] }
  | wrote {err : ErrT} (hpc : s.pc = .writing) : ServerNext s (.wrote err) { s with pc := .load }
  | load (hpc : s.pc = .load) : ServerNext s .load { s with pc := .store s.flag }
  | store {r : UInt8} (hpc : s.pc = .store r) : ServerNext s .store { s with
      pc := .recv
      flag := r &&& ~~~lwipSendData }
  | data {p : List Pbuf} (hpc : s.pc = .recv) (hlive : s.failed = false) :
    ServerNext s (.recv (.data p)) { s with
      pc := .handle p
      log := s.log ++ [.recv s.newconn .ok]
      received := s.received ++ [p] }
  | fail {err : ErrT} (hpc : s.pc = .recv) (herr : err ≠ .ok)
      (hfatal : s.failed = true → err.Fatal) :
    ServerNext s (.recv (.fail err)) { s with
      pc := if err = .clsd then .close else .test
      failed := s.failed || decide err.Fatal
      log := s.log ++ [.recv s.newconn err] }
  | handle {p : List Pbuf} (hpc : s.pc = .handle p) : ServerNext s .handle { s with
      pc := .test
      mem := (handlePacket p ⟨s.mem, []⟩).mem
      checks := s.checks ++ [⟨decide (HeadOk (receive p ⟨s.mem, []⟩).mem),
        get (receive p ⟨s.mem, []⟩).mem tcpServerRecvbuf tcpPackBufsize⟩] }
  | close (hpc : s.pc = .close) : ServerNext s .close { s with
      pc := .delete
      log := s.log ++ [.close s.newconn] }
  | delete (hpc : s.pc = .delete) : ServerNext s .delete { s with
      pc := .accept
      log := s.log ++ [.delete s.newconn] }
  | keyLoad (hkey : s.key = none) : ServerNext s .keyLoad { s with key := some s.flag }
  | keyStore {r : UInt8} (hkey : s.key = some r) : ServerNext s .keyStore { s with
      key := none
      flag := r ||| lwipSendData }

theorem serverStep_next {a : ServerAct} {s s' : Server} (hs : serverStep a s = some s') :
    ServerNext s a s' := by
  cases a with
  | accept err =>
    simp only [serverStep] at hs
    split at hs
    · rename_i hpc
      split at hs
      · rename_i herr
        cases hs
        subst herr
        exact .accepted hpc
      · rename_i herr
        cases hs
        exact .refused hpc herr
    · cases hs
  | test =>
    simp only [serverStep] at hs
    split at hs
    · rename_i hpc
      cases hs
      split
      · rename_i hset
        exact .set hpc hset
      · rename_i hclear
        exact .clear hpc hclear
    · cases hs
  | recv res =>
    simp only [serverStep] at hs
    split at hs
    · rename_i hpc
      split at hs
      · rename_i hallowed
        cases res with
        | data p =>
          cases hs
          exact .data hpc hallowed
        | fail err =>
          cases hs
          exact .fail hpc hallowed.1 hallowed.2
      · cases hs
    · cases hs
  | keyLoad =>
    simp only [serverStep] at hs
    split at hs
    · rename_i hkey
      cases hs
      exact .keyLoad hkey
    · cases hs
  | keyStore =>
    simp only [serverStep] at hs
    split at hs
    · rename_i hkey
      cases hs
      exact .keyStore hkey
    · cases hs
  | write | wrote | load | store | handle | close | delete =>
    simp only [serverStep] at hs
    split at hs
    · rename_i hpc
      cases hs
      constructor
      exact hpc
    · cases hs

/-! ## The checks of a run -/

/-- A packet: 56 bytes with the header. -/
structure TcpPack where
  bytes : List UInt8
  size : bytes.length = tcpPackBufsize
  head : bytes.take 2 = [0x88, 0x66]

/-- The first bytes of a buffer, as many as a packet has, lie in its first segment. -/
def InFirst (p : List Pbuf) : Prop :=
  padded tcpPackBufsize (firstBytes p) = padded tcpPackBufsize (chainBytes p)

/-- The check of a buffer with these bytes: its beginning, as a packet. -/
def Check.of (bytes : List UInt8) : Check :=
  let pack := padded tcpPackBufsize bytes
  ⟨decide (pack.take 2 = [0x88, 0x66]), pack⟩

/-- The check still to come of a buffer that is received. -/
def ServerPc.pending : ServerPc → List Check
  | .handle p => [.of (chainBytes p)]
  | _ => []

/-- The packets whose check succeeded. -/
def acceptedPacks (checks : List Check) : List (List UInt8) :=
  (checks.filter Check.ok).map Check.recvbuf

theorem headOk_iff (mem : Nat → UInt8) :
    HeadOk mem ↔ (get mem tcpServerRecvbuf tcpPackBufsize).take 2 = [0x88, 0x66] := by
  rw [take_get _ _ (by decide)]
  simp [Lib.ByteMem.get, HeadOk]

/-- A buffer whose beginning lies in its first segment is checked as it is. -/
theorem check_of_inFirst {p : List Pbuf} (h : InFirst p) (mem : Nat → UInt8) :
    (⟨decide (HeadOk (receive p ⟨mem, []⟩).mem),
      get (receive p ⟨mem, []⟩).mem tcpServerRecvbuf tcpPackBufsize⟩ : Check) =
      .of (chainBytes p) := by
  have hbuf : get (receive p ⟨mem, []⟩).mem tcpServerRecvbuf tcpPackBufsize =
      padded tcpPackBufsize (chainBytes p) := (recvbufAtCheck_eq p mem).trans h
  simp only [headOk_iff, hbuf, Check.of]

/-- The buffer received by a step is checked as it is. -/
def ServerAct.Whole : ServerAct → Prop
  | .recv (.data p) => InFirst p
  | _ => True

/-- Every buffer received is checked once, in order. -/
structure Checking (s : Server) : Prop where
  whole : ∀ p, s.pc = .handle p → InFirst p
  checks : s.checks ++ s.pc.pending = (s.received.map chainBytes).map .of

theorem Checking.step {s s' : Server} (h : Checking s) {a : ServerAct} (ha : a.Whole)
    (hs : serverStep a s = some s') : Checking s' := by
  have hchecks := h.checks
  cases serverStep_next hs with
  | handle hpc =>
    rw [hpc] at hchecks
    refine ⟨nofun, ?_⟩
    rw [check_of_inFirst (h.whole _ hpc)]
    simpa [ServerPc.pending] using hchecks
  | data hpc hlive =>
    rw [hpc] at hchecks
    refine ⟨?_, ?_⟩
    · intro p hp
      cases hp
      exact ha
    · simpa [ServerPc.pending] using hchecks
  | @fail err hpc herr hfatal =>
    rw [hpc] at hchecks
    by_cases hclsd : err = .clsd
    · exact ⟨by simp [hclsd], by simpa [hclsd, ServerPc.pending] using hchecks⟩
    · exact ⟨by simp [hclsd], by simpa [hclsd, ServerPc.pending] using hchecks⟩
  | keyLoad hkey => exact ⟨h.whole, hchecks⟩
  | keyStore hkey => exact ⟨h.whole, hchecks⟩
  | refused hpc herr =>
    exact ⟨h.whole, hchecks⟩
  | accepted hpc | set hpc | clear hpc | write hpc | wrote hpc | load hpc | store hpc | close hpc
  | delete hpc =>
    rw [hpc] at hchecks
    exact ⟨nofun, hchecks⟩

theorem Checking.run {flag : UInt8} {mem : Nat → UInt8} {acts : List ServerAct} {s : Server}
    (hwhole : ∀ a ∈ acts, a.Whole) (hrun : run serverStep acts (.init flag mem) = some s) :
    Checking s := by
  have hinit : Checking (.init flag mem) := ⟨nofun, rfl⟩
  exact run_inv_events (fun _ _ _ h ha hs => h.step ha hs) hinit hwhole hrun

/-- The check of a buffer that is one packet accepts that packet. -/
theorem Check.of_pack (pack : TcpPack) : Check.of pack.bytes = ⟨true, pack.bytes⟩ := by
  have hpad : padded tcpPackBufsize pack.bytes = pack.bytes := by
    rw [padded, pack.size, Nat.sub_self, List.replicate_zero, List.append_nil, ← pack.size,
      List.take_length]
  simp only [Check.of, hpad, pack.head, decide_true]

theorem acceptedPacks_of (packs : List TcpPack) :
    acceptedPacks ((packs.map TcpPack.bytes).map .of) = packs.map TcpPack.bytes := by
  induction packs with
  | nil => rfl
  | cons pack packs ih =>
    simp only [acceptedPacks, List.map_cons] at ih ⊢
    rw [Check.of_pack, List.filter_cons_of_pos rfl, List.map_cons, ih]

/-- **Buffers, not packets.** In every run in which the buffers received have the
beginning in their first segment, each is checked once and in order, and the check
sees its first bytes and nothing of the buffers before or after it. Runs whose
buffers carry the same bytes accept the same packets, and when the buffers are the
packets sent, these are accepted. -/
theorem checks_per_buffer (flag : UInt8) (mem : Nat → UInt8) {acts : List ServerAct} {s : Server}
    (hwhole : ∀ a ∈ acts, a.Whole) (hrun : run serverStep acts (.init flag mem) = some s) :
    s.checks ++ s.pc.pending = (s.received.map chainBytes).map .of ∧
    (∀ flag' mem' acts' s', (∀ a ∈ acts', a.Whole) →
      run serverStep acts' (.init flag' mem') = some s' →
      s'.received.map chainBytes = s.received.map chainBytes →
      s'.checks ++ s'.pc.pending = s.checks ++ s.pc.pending) ∧
    ∀ packs : List TcpPack, s.received.map chainBytes = packs.map TcpPack.bytes →
      acceptedPacks (s.checks ++ s.pc.pending) = packs.map TcpPack.bytes := by
  have h := Checking.run hwhole hrun
  refine ⟨h.checks, ?_, ?_⟩
  · intro flag' mem' acts' s' hwhole' hrun' hsame
    have h' := Checking.run hwhole' hrun'
    rw [h.checks, h'.checks, hsame]
  · intro packs hpacks
    rw [h.checks, hpacks, acceptedPacks_of]

/-- The bytes of a packet that carries `b`. -/
def packBytes (b : UInt8) : List UInt8 := 0x88 :: 0x66 :: List.replicate 54 b

def pack (b : UInt8) : TcpPack := ⟨packBytes b, by simp [packBytes, tcpPackBufsize], rfl⟩

/-- A buffer of one segment with these bytes. -/
def bufferOf (bytes : List UInt8) (h : bytes.length < 2 ^ 16) : List Pbuf := [⟨bytes, h⟩]

/-- The server receives one packet in one buffer. -/
theorem checks_per_buffer_one : ∃ s : Server,
    run serverStep [.accept .ok, .test, .recv (.data (bufferOf (packBytes 1) (by decide))), .handle]
      (.init 0 fun _ => 0) = some s ∧ s.received.map chainBytes = [pack 1].map TcpPack.bytes ∧
    acceptedPacks (s.checks ++ s.pc.pending) = [pack 1].map TcpPack.bytes := by
  have hwhole : ∀ a ∈ [.accept .ok, .test,
      .recv (.data (bufferOf (packBytes 1) (by decide))), .handle], ServerAct.Whole a := by
    intro a ha
    simp only [List.mem_cons, List.not_mem_nil, or_false] at ha
    rcases ha with rfl | rfl | rfl | rfl
    · trivial
    · trivial
    · rfl
    · trivial
  obtain ⟨s, hs, hpacks⟩ : ∃ s : Server, run serverStep [.accept .ok, .test,
      .recv (.data (bufferOf (packBytes 1) (by decide))), .handle] (.init 0 fun _ => 0) = some s ∧
      s.received.map chainBytes = [pack 1].map TcpPack.bytes := ⟨_, rfl, rfl⟩
  exact ⟨s, hs, hpacks, (checks_per_buffer 0 (fun _ => 0) hwhole hs).2.2 [pack 1] hpacks⟩

/-- The same two packets in one buffer and in two: the second is lost in the first
case. -/
theorem merged_packet_lost : ∃ s s' : Server,
    run serverStep [.accept .ok, .test,
      .recv (.data (bufferOf (packBytes 1 ++ packBytes 2) (by decide))), .handle]
      (.init 0 fun _ => 0) = some s ∧
    run serverStep [.accept .ok,
      .test, .recv (.data (bufferOf (packBytes 1) (by decide))), .handle,
      .test, .recv (.data (bufferOf (packBytes 2) (by decide))), .handle]
      (.init 0 fun _ => 0) = some s' ∧
    s.received.flatMap chainBytes = s'.received.flatMap chainBytes ∧
    acceptedPacks s.checks = [packBytes 1] ∧
    acceptedPacks s'.checks = [packBytes 1, packBytes 2] := by
  refine ⟨_, _, rfl, rfl, rfl, ?_, ?_⟩
  · decide +kernel
  · decide +kernel

end Generalplate.TcpServer
