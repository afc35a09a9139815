import Generalplate.Lwip.Err
import Generalplate.Httpd.Tags

/-! # Sending a file

`http_send_data` is called whenever there may be room in the send buffer, and sends as much
of the file as the stack takes. In a file with tags it sends what it has parsed, stops to
send the insert behind a tag, and goes on parsing where it stopped. -/
namespace Generalplate.Httpd
open Lwip

/-- What a call of `tcp_write` comes to, with the room in the send buffer and whether the
send queue is full behind it. -/
structure Answer where
  err : ErrT
  sndbuf : UInt16
  full : Bool
deriving DecidableEq, Repr

/-- A connection of the stack: the room, the answers that are to come, and the bytes taken
so far. Without an answer the stack is out of memory. -/
structure Pcb where
  sndbuf : UInt16
  full : Bool
  mss : UInt16
  answers : List Answer
  out : List UInt8
deriving DecidableEq, Repr

/-- The loop of `http_write` on the bytes at `ptr`: the result, the length, and the
connection; none when it reads behind them. -/
def httpWriteLoop (ptr : List UInt8) : List Answer → Pcb → Nat → Option (ErrT × Nat × Pcb)
  | [], pcb, _ => some (.mem, 1, { pcb with full := true, answers := [] })
  | a :: answers, pcb, len =>
    let pcb := { pcb with sndbuf := a.sndbuf, full := a.full, answers := answers }
    if ptr.length < len then none
    else
      match a.err with
      | .ok => some (.ok, len, { pcb with out := pcb.out ++ ptr.take len })
      | .mem =>
        let len := if a.sndbuf = 0 ∨ a.full = true then 1 else len / 2
        if 1 < len then httpWriteLoop ptr answers pcb len else some (.mem, len, pcb)
      | err => some (err, len, pcb)

def httpWrite (pcb : Pcb) (ptr : List UInt8) (len : Nat) : Option (ErrT × Nat × Pcb) :=
  httpWriteLoop ptr pcb.answers pcb len

/-- As much of `n` bytes as there is room for, and at most two segments. -/
def Pcb.room (pcb : Pcb) (n : Nat) : Nat :=
  let len := if pcb.sndbuf.toNat < n then pcb.sndbuf.toNat else n
  if 2 * pcb.mss.toNat < len then 2 * pcb.mss.toNat else len

/-- `struct http_state` of a connection that has a file open. The pointers into the file are
offsets; `calls` counts the calls of `get_tag_insert`. -/
structure Http where
  data : List UInt8
  file : Nat
  left : Nat
  parsed : Nat
  tagEnd : Nat
  parseLeft : Nat
  tagCheck : Bool
  parser : Parser
  tag : HttpState
  calls : Nat

/-- The state and the local variables of `http_send_data`. -/
structure Sending where
  hs : Http
  pcb : Pcb
  len : Nat
  err : ErrT
  dataToSend : Bool

/-- `http_write` of `len` bytes of the file, and what follows it. -/
def Sending.sendFile (s : Sending) (len : Nat) : Option Sending := do
  let (err, len, pcb) ← httpWrite s.pcb (s.hs.data.drop s.hs.file) len
  if err = .ok then
    some ⟨{ s.hs with file := s.hs.file + len, left := s.hs.left - len }, pcb, len, err, true⟩
  else some { s with pcb := pcb, len := len, err := err }

/-- `http_write` of `len` bytes of the insert. -/
def Sending.sendInsert (s : Sending) (len : Nat) : Option Sending := do
  let p := s.hs.parser
  let (err, len, pcb) ← httpWrite s.pcb (s.hs.tag.tagInsert.drop p.index) len
  if err = .ok then
    some ⟨{ s.hs with parser := { p with index := p.index + len } }, pcb, len, err, true⟩
  else some { s with pcb := pcb, len := len, err := err }

/-- The case `TAG_SENDING`: what is left of the file in front of the insert, the insert, or
the end of it. -/
def Sending.passInsert (s : Sending) : Option Sending :=
  let hs := s.hs
  if hs.file < hs.tagEnd then
    let len := if hs.tagEnd - hs.file < s.len then hs.tagEnd - hs.file else s.len
    if len ≠ 0 then s.sendFile len
    else some { s with len := len, err := .ok, dataToSend := true }
  else if hs.parser.index < hs.tag.tagInsertLen then
    let left := hs.tag.tagInsertLen - hs.parser.index
    s.sendInsert (if left < s.len then left else s.len)
  else some { s with hs := { hs with parser := { hs.parser with index := 0, state := .none } } }

/-- The byte at `parsed` is taken. -/
def Http.take (hs : Http) (p : Parser) : Http :=
  { hs with parser := p, parsed := hs.parsed + 1, parseLeft := hs.parseLeft - 1 }

/-- An insert is to be sent behind what is parsed. -/
def Http.setTag (hs : Http) (tag : HttpState) : Http :=
  { hs with tag := tag, calls := hs.calls + 1, tagEnd := hs.parsed }

/-- The last byte of a tag: its insert is asked for, and what is unsent in front of it is
sent. -/
def Sending.passTag (clock : Nat → Readings) (s : Sending) (p : Parser) : Option Sending := do
  let tag ← getTagInsert (clock s.hs.calls) p.tagName s.hs.tag
  let s := { s with hs := (s.hs.take p).setTag tag }
  if s.hs.file < s.hs.tagEnd then
    s.sendFile (if s.hs.tagEnd - s.hs.file < s.len then s.hs.tagEnd - s.hs.file else s.len)
  else some s

/-- One pass of the loop. -/
def Sending.pass (clock : Nat → Readings) (s : Sending) : Option Sending :=
  if s.hs.parser.state = .sending then s.passInsert
  else
    match s.hs.data[s.hs.parsed]? with
    | none => none
    | some c =>
      match s.hs.parser.pass c with
      | (.leave, p) => some { s with hs := { s.hs with parser := p } }
      | (.take, p) => some { s with hs := s.hs.take p }
      | (.tag, p) => s.passTag clock p

/-- The loop; true when the function returns from inside it. None when there is no fuel
left. -/
def Sending.loop (clock : Nat → Readings) : Nat → Sending → Option (Bool × Sending)
  | 0, _ => none
  | fuel + 1, s =>
    if s.hs.parseLeft = 0 ∨ s.err ≠ .ok then some (false, s)
    else if s.len = 0 then some (true, s)
    else (s.pass clock).bind (loop clock fuel)

/-- More passes than a file of `n` bytes can take, with an insert behind each of them. -/
def loopFuel (n : Nat) : Nat := (n + 1) * 256

/-- What is parsed but not sent is sent; true when the room is gone behind it. -/
def Sending.sendParsed (s : Sending) : Option (Bool × Sending) :=
  if s.hs.file < s.hs.parsed then
    (s.sendFile (s.pcb.room (s.hs.parsed - s.hs.file))).map fun s => (s.pcb.sndbuf = 0, s)
  else some (false, s)

/-- A file with tags; true when the function returns there. -/
def Sending.sendTagged (clock : Nat → Readings) (s : Sending) : Option (Bool × Sending) := do
  let (gone, s) ← { s with len := s.pcb.sndbuf.toNat }.sendParsed
  if gone then some (true, s)
  else
    let (returned, s) ← s.loop clock (loopFuel s.hs.data.length)
    if returned ∨ s.hs.parser.state = .sending then some (returned, s)
    else
      let (_, s) ← s.sendParsed
      some (false, s)

/-- A file is parsed or sent as it is. -/
def Sending.send (clock : Nat → Readings) (s : Sending) : Option (Bool × Sending) :=
  if s.hs.tagCheck then s.sendTagged clock
  else (s.sendFile (s.pcb.room s.hs.left)).map fun s => (false, s)

/-- What `http_send_data` returns, and whether it has closed the connection. -/
structure Sent where
  hs : Http
  pcb : Pcb
  dataToSend : Bool
  closed : Bool

/-- `http_send_data` with a file open. The file is in memory as a whole, so that at its end
there is nothing left to be read. -/
def httpSendData (clock : Nat → Readings) (hs : Http) (pcb : Pcb) : Option Sent :=
  if hs.left = 0 then some ⟨hs, pcb, false, true⟩
  else do
    let (returned, s) ← (⟨hs, pcb, 0, .ok, false⟩ : Sending).send clock
    if returned = false ∧ s.hs.left = 0 then some ⟨s.hs, s.pcb, false, true⟩
    else some ⟨s.hs, s.pcb, s.dataToSend, false⟩

/-- `http_init_file`: the state in which a file is opened. Its header is left out from `start`
on in a response to HTTP/0.9. -/
def Http.init (data : List UInt8) (start : Nat) (tagCheck : Bool) : Http where
  data := data
  file := start
  left := data.length - start
  parsed := 0
  tagEnd := 0
  parseLeft := data.length
  tagCheck := tagCheck
  parser := .start
  tag := .alloc
  calls := 0

/-! ## Writing -/

theorem httpWriteLoop_spec {ptr : List UInt8} (answers : List Answer) (pcb : Pcb) {len : Nat}
    (h : len ≤ ptr.length) :
    ∃ err len' pcb', httpWriteLoop ptr answers pcb len = some (err, len', pcb') ∧
      if err = .ok then len' ≤ len ∧ (0 < len → 0 < len') ∧ pcb'.out = pcb.out ++ ptr.take len'
      else pcb'.out = pcb.out := by
  induction answers generalizing pcb len with
  | nil => exact ⟨.mem, 1, _, rfl, rfl⟩
  | cons a answers ih =>
    rw [httpWriteLoop]
    dsimp only
    rw [if_neg (Nat.not_lt.mpr h)]
    split
    · exact ⟨_, _, _, rfl, Nat.le_refl _, id, rfl⟩
    · generalize hlen : (if a.sndbuf = 0 ∨ a.full = true then 1 else len / 2) = half
      split
      · have hle : half ≤ len := by
          split at hlen <;> omega
        obtain ⟨err, len', pcb', heq, hspec⟩ :=
          ih { pcb with sndbuf := a.sndbuf, full := a.full, answers := answers } (hle.trans h)
        refine ⟨err, len', pcb', heq, ?_⟩
        split
        · rename_i hok
          rw [if_pos hok] at hspec
          exact ⟨hspec.1.trans hle, fun _ => hspec.2.1 (by omega), hspec.2.2⟩
        · rename_i hok
          rwa [if_neg hok] at hspec
      · exact ⟨_, _, _, rfl, rfl⟩
    · rename_i hok _
      exact ⟨a.err, len, _, rfl, by rw [if_neg hok]⟩

theorem httpWrite_spec {ptr : List UInt8} (pcb : Pcb) {len : Nat} (h : len ≤ ptr.length) :
    ∃ err len' pcb', httpWrite pcb ptr len = some (err, len', pcb') ∧
      if err = .ok then len' ≤ len ∧ (0 < len → 0 < len') ∧ pcb'.out = pcb.out ++ ptr.take len'
      else pcb'.out = pcb.out :=
  httpWriteLoop_spec pcb.answers pcb h

/-- There is room, and the next call of `tcp_write` takes what it is given. -/
structure Pcb.Ready (pcb : Pcb) : Prop where
  room : 0 < pcb.sndbuf.toNat
  mss : 0 < pcb.mss.toNat
  accepts : ∃ a answers, pcb.answers = a :: answers ∧ a.err = .ok

theorem Pcb.Ready.httpWrite {pcb : Pcb} (hpcb : pcb.Ready) {ptr : List UInt8} {len : Nat}
    (h : len ≤ ptr.length) :
    ∃ pcb', Httpd.httpWrite pcb ptr len = some (.ok, len, pcb') ∧
      pcb'.out = pcb.out ++ ptr.take len := by
  obtain ⟨a, answers, hanswers, hok⟩ := hpcb.accepts
  rw [Httpd.httpWrite, hanswers, httpWriteLoop]
  dsimp only
  rw [if_neg (Nat.not_lt.mpr h), hok]
  exact ⟨_, rfl, rfl⟩

theorem Pcb.Ready.room_pos {pcb : Pcb} (hpcb : pcb.Ready) {n : Nat} (hn : 0 < n) :
    0 < pcb.room n := by
  have hroom := hpcb.room
  have hmss := hpcb.mss
  unfold Pcb.room
  dsimp only
  split <;> split <;> omega

theorem Pcb.room_le (pcb : Pcb) (n : Nat) : pcb.room n ≤ n := by
  unfold room
  dsimp only
  split <;> split <;> omega

end Generalplate.Httpd
