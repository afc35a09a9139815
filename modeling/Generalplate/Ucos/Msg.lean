import Mathlib.Logic.Function.Basic
import Generalplate.Ucos.Queue

/-! # The messages of uC/OS-III

`os_msg.c` keeps the messages of all queues in linked cells of one pool. What they are for is a
list of messages for each queue, as long as the queue and the pool have room. -/
namespace Generalplate.Ucos

/-- `OS_MSG`; pointers to cells are their numbers. -/
structure OsMsg where
  nextPtr : Option Nat
  msgPtr : Nat
  msgSize : Nat
  msgTs : Nat
deriving DecidableEq, Repr

/-- `OS_MSG_Q` -/
structure OsMsgQ where
  inPtr : Option Nat
  outPtr : Option Nat
  nbrEntriesSize : Nat
  nbrEntries : Nat
  nbrEntriesMax : Nat
deriving DecidableEq, Repr

/-- `OS_MSG_POOL` -/
structure OsMsgPool where
  nextPtr : Option Nat
  nbrFree : Nat
  nbrUsed : Nat
  nbrUsedMax : Nat
deriving DecidableEq, Repr

/-- The cells, the pool and the queues. -/
structure MsgSys (κ : Type) where
  tbl : Nat → OsMsg
  pool : OsMsgPool
  queues : κ → OsMsgQ

/-- A message: the pointer, its size and the time stamp. -/
structure Mail where
  ptr : Nat
  size : Nat
  ts : Nat
deriving DecidableEq, Repr

/-- `OS_OPT_POST_FIFO` and `OS_OPT_POST_LIFO` -/
inductive PostOpt where
  | fifo
  | lifo
deriving DecidableEq, Repr

/-- The loop of `OS_MsgPoolCreate` from the cell `p` on, and the last cell. -/
def osMsgPoolCreate (tbl : Nat → OsMsg) (p : Nat) : Nat → Nat → OsMsg
  | 0 => Function.update tbl p ⟨none, 0, 0, 0⟩
  | loops + 1 => osMsgPoolCreate (Function.update tbl p ⟨some (p + 1), 0, 0, 0⟩) (p + 1) loops

/-- `OS_MsgPoolInit` of `size` cells. -/
def osMsgPoolInit (tbl : Nat → OsMsg) (size : Nat) : (Nat → OsMsg) × OsMsgPool :=
  (osMsgPoolCreate tbl 0 (size - 1), ⟨some 0, size, 0, 0⟩)

/-- `OS_MsgQInit` -/
def osMsgQInit (size : Nat) : OsMsgQ := ⟨none, none, size, 0, 0⟩

variable {κ : Type} [DecidableEq κ]

/-- `p->NextPtr = q` -/
def setNext (tbl : Nat → OsMsg) (p : Nat) (q : Option Nat) : Nat → OsMsg :=
  Function.update tbl p { tbl p with nextPtr := q }

/-- The cell `p` is linked into the queue; none when it follows a null pointer. -/
def OsMsgQ.link (q : OsMsgQ) (tbl : Nat → OsMsg) (p : Nat) (opt : PostOpt) :
    Option ((Nat → OsMsg) × OsMsgQ) :=
  -- the link of the first message is left as it was in the pool
  if q.nbrEntries = 0 then some (tbl, { q with inPtr := some p, outPtr := some p, nbrEntries := 1 })
  else
    match opt with
    | .fifo => do
      let pIn ← q.inPtr
      some (setNext (setNext tbl pIn (some p)) p none,
        { q with inPtr := some p, nbrEntries := q.nbrEntries + 1 })
    | .lifo =>
      some (setNext tbl p q.outPtr, { q with outPtr := some p, nbrEntries := q.nbrEntries + 1 })

/-- `OS_MsgQPut` of a message into queue `k`. -/
def MsgSys.put (s : MsgSys κ) (k : κ) (m : Mail) (opt : PostOpt) : Option (OsErr × MsgSys κ) :=
  let q := s.queues k
  if q.nbrEntries ≥ q.nbrEntriesSize then some (.qMax, s)
  else if s.pool.nbrFree = 0 then some (.msgPoolEmpty, s)
  else do
    let p ← s.pool.nextPtr
    let used := s.pool.nbrUsed + 1
    let pool : OsMsgPool :=
      ⟨(s.tbl p).nextPtr, s.pool.nbrFree - 1, used, if s.pool.nbrUsedMax < used then used
        else s.pool.nbrUsedMax⟩
    let (tbl, q) ← q.link s.tbl p opt
    let q := if q.nbrEntriesMax < q.nbrEntries then { q with nbrEntriesMax := q.nbrEntries } else q
    let tbl := Function.update tbl p ⟨(tbl p).nextPtr, m.ptr, m.size, m.ts⟩
    some (.none, ⟨tbl, pool, Function.update s.queues k q⟩)

def OsMsg.mail (m : OsMsg) : Mail := ⟨m.msgPtr, m.msgSize, m.msgTs⟩

/-- The first message is taken out, whose cell led to `next`. -/
def OsMsgQ.advance (q : OsMsgQ) : Option Nat → OsMsgQ
  | none => { q with outPtr := none, inPtr := none, nbrEntries := 0 }
  | some next => { q with outPtr := some next, nbrEntries := q.nbrEntries - 1 }

/-- `OS_MsgQGet` from queue `k`; no message is `OS_ERR_Q_EMPTY`. -/
def MsgSys.get (s : MsgSys κ) (k : κ) : Option (Option Mail × MsgSys κ) :=
  let q := s.queues k
  if q.nbrEntries = 0 then some (none, s)
  else do
    let p ← q.outPtr
    let m := s.tbl p
    let q := q.advance m.nextPtr
    let tbl := setNext s.tbl p s.pool.nextPtr
    let pool := { s.pool with
      nextPtr := some p, nbrFree := s.pool.nbrFree + 1, nbrUsed := s.pool.nbrUsed - 1 }
    some (some m.mail, ⟨tbl, pool, Function.update s.queues k q⟩)

/-- `OS_MsgQFreeAll` of queue `k`. -/
def MsgSys.freeAll (s : MsgSys κ) (k : κ) : Option (Nat × MsgSys κ) :=
  let q := s.queues k
  if 0 < q.nbrEntries then do
    let p ← q.inPtr
    let tbl := setNext s.tbl p s.pool.nextPtr
    let pool := { s.pool with
      nextPtr := q.outPtr
      nbrFree := s.pool.nbrFree + q.nbrEntries
      nbrUsed := s.pool.nbrUsed - q.nbrEntries }
    some (q.nbrEntries, ⟨tbl, pool, Function.update s.queues k (osMsgQInit q.nbrEntriesSize)⟩)
  else some (0, s)

/-- A call for a queue. -/
inductive MsgCall (κ : Type) where
  | put (k : κ) (m : Mail) (opt : PostOpt)
  | get (k : κ)
  | freeAll (k : κ)

/-- What a call returns. -/
inductive MsgReply where
  | put (err : OsErr)
  | get (m : Option Mail)
  | freeAll (qty : Nat)
deriving DecidableEq, Repr

def MsgSys.step : MsgCall κ → MsgSys κ → Option (MsgReply × MsgSys κ)
  | .put k m opt, s => (s.put k m opt).map fun (err, s) => (.put err, s)
  | .get k, s => (s.get k).map fun (m, s) => (.get m, s)
  | .freeAll k, s => (s.freeAll k).map fun (qty, s) => (.freeAll qty, s)

/-- A pool of `n` cells and queues of the given sizes. -/
def MsgSys.init (tbl : Nat → OsMsg) (n : Nat) (sizes : κ → Nat) : MsgSys κ :=
  ⟨(osMsgPoolInit tbl n).1, (osMsgPoolInit tbl n).2, fun k => osMsgQInit (sizes k)⟩

/-! ## The queues as lists -/

/-- The messages in the queues, how many there may be, and the number of free cells. -/
structure Boxes (κ : Type) where
  mails : κ → List Mail
  sizes : κ → Nat
  free : Nat

/-- A list with one more behind the others or in front of them. -/
def PostOpt.place {α : Type} (opt : PostOpt) (l : List α) (a : α) : List α :=
  match opt with
  | .fifo => l ++ [a]
  | .lifo => a :: l

def Boxes.put (b : Boxes κ) (k : κ) (m : Mail) (opt : PostOpt) : OsErr × Boxes κ :=
  if b.sizes k ≤ (b.mails k).length then (.qMax, b)
  else if b.free = 0 then (.msgPoolEmpty, b)
  else
    let mails := opt.place (b.mails k) m
    (.none, { b with mails := Function.update b.mails k mails, free := b.free - 1 })

def Boxes.get (b : Boxes κ) (k : κ) : Option Mail × Boxes κ :=
  match b.mails k with
  | [] => (none, b)
  | m :: mails => (some m, { b with mails := Function.update b.mails k mails, free := b.free + 1 })

def Boxes.freeAll (b : Boxes κ) (k : κ) : Nat × Boxes κ :=
  ((b.mails k).length,
    { b with mails := Function.update b.mails k [], free := b.free + (b.mails k).length })

def Boxes.next : MsgCall κ → Boxes κ → MsgReply × Boxes κ
  | .put k m opt, b => ((.put (b.put k m opt).1, (b.put k m opt).2))
  | .get k, b => (.get (b.get k).1, (b.get k).2)
  | .freeAll k, b => (.freeAll (b.freeAll k).1, (b.freeAll k).2)

/-- All queues empty and `n` cells free. -/
def Boxes.init (n : Nat) (sizes : κ → Nat) : Boxes κ := ⟨fun _ => [], sizes, n⟩

end Generalplate.Ucos
