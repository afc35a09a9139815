import Mathlib.Data.Nat.Notation
import Generalplate.Lib.ByteMem

/-! # What the TCP server does with a received buffer

`tcp_server_thread` clears its receive buffer, copies the segments of the chain to
it, checks the packet header and clears it again. The running offset is added to a
pointer to the packet type, so it counts whole packets and only the first segment
that is not empty lands in the buffer; the last clear takes the size of another
buffer. -/
namespace Generalplate.TcpServer
open Lib.ByteMem

/-- `TCP_PACK_BUFSIZE`, which is also `sizeof(TCP_PACK)`, and `TCP_SERVER_RX_BUFSIZE`. -/
def tcpPackBufsize : Nat := 56
def tcpServerRxBufsize : Nat := 2000

/-- `&Tcp_Server_Recvbuf` and `&Tcp_Server_Transbuf` in the linked image. -/
def tcpServerRecvbuf : Nat := 0x20001080
def tcpServerTransbuf : Nat := 0x200010b8

/-- `struct pbuf`: `len` is a `u16_t`. -/
structure Pbuf where
  payload : List UInt8
  short : payload.length < 2 ^ 16

/-- The memory, and every range that was written with its length. -/
structure Store where
  mem : Nat → UInt8
  wrote : List (Nat × Nat)

def Store.memcpy (s : Store) (dst : Nat) (src : List UInt8) : Store :=
  ⟨put s.mem dst src, s.wrote ++ [(dst, src.length)]⟩

def Store.memset (s : Store) (dst : Nat) (c : UInt8) (n : Nat) : Store :=
  s.memcpy dst (List.replicate n c)

/-- The loop over the chain, with `data_len` bytes copied so far. -/
def copyLoop : List Pbuf → UInt32 → Store → Store
  | [], _, s => s
  | q :: next, dataLen, s =>
    let len := UInt32.ofNat q.payload.length
    let room := UInt32.ofNat tcpPackBufsize - dataLen
    let n := if len > room then room else len
    let s := s.memcpy (tcpServerRecvbuf + tcpPackBufsize * dataLen.toNat) (q.payload.take n.toNat)
    let dataLen := dataLen + len
    if dataLen > UInt32.ofNat tcpPackBufsize then s else copyLoop next dataLen s

/-- Up to the check of the packet header. -/
def receive (p : List Pbuf) (s : Store) : Store :=
  copyLoop p 0 (s.memset tcpServerRecvbuf 0 tcpPackBufsize)

/-- `Tcp_Server_Recvbuf.Head` is right. -/
def HeadOk (mem : Nat → UInt8) : Prop :=
  mem tcpServerRecvbuf = 0x88 ∧ mem (tcpServerRecvbuf + 1) = 0x66

instance (mem : Nat → UInt8) : Decidable (HeadOk mem) := inferInstanceAs (Decidable (_ ∧ _))

/-- The whole handling of a packet. -/
def handlePacket (p : List Pbuf) (s : Store) : Store :=
  (receive p s).memset tcpServerRecvbuf 0 tcpServerRxBufsize

/-! ## What is asked of it -/

/-- `n` bytes: the first of `bs`, followed by zeros. -/
def padded (n : Nat) (bs : List UInt8) : List UInt8 := bs.take n ++ List.replicate (n - bs.length) 0

/-- The bytes of a chain. -/
def chainBytes (p : List Pbuf) : List UInt8 := p.flatMap Pbuf.payload

/-- The bytes of its first segment that has any. -/
def firstBytes : List Pbuf → List UInt8
  | [] => []
  | q :: next => if q.payload = [] then firstBytes next else q.payload

/-- `Tcp_Server_Recvbuf` at the check of the header. -/
def recvbufAtCheck (p : List Pbuf) (mem : Nat → UInt8) : List UInt8 :=
  get (receive p ⟨mem, []⟩).mem tcpServerRecvbuf tcpPackBufsize

/-- The beginning of the chain is in the buffer at the check. -/
def Content (p : List Pbuf) (mem : Nat → UInt8) : Prop :=
  recvbufAtCheck p mem = padded tcpPackBufsize (chainBytes p)

/-- Nothing outside the buffer is written. -/
def Inside (p : List Pbuf) (mem : Nat → UInt8) : Prop :=
  ∀ r ∈ (handlePacket p ⟨mem, []⟩).wrote, ∀ a, r.1 ≤ a → a < r.1 + r.2 →
    tcpServerRecvbuf ≤ a ∧ a < tcpServerRecvbuf + tcpPackBufsize

theorem Pbuf.toNat_len (q : Pbuf) :
    (UInt32.ofNat q.payload.length).toNat = q.payload.length := by
  have hshort := q.short
  rw [UInt32.toNat_ofNat']
  omega

section Copy
variable {p : List Pbuf} {s : Store} {mem : Nat → UInt8} {dataLen : UInt32} {a : Nat}

/-- The offset does not wrap: a segment is shorter than 64 KiB. -/
theorem toNat_dataLen (q : Pbuf) (h : dataLen.toNat ≤ tcpPackBufsize) :
    (dataLen + UInt32.ofNat q.payload.length).toNat = dataLen.toNat + q.payload.length := by
  have hshort := q.short
  rw [tcpPackBufsize] at h
  rw [UInt32.toNat_add, q.toNat_len]
  omega

theorem not_gt_packBufsize (q : Pbuf) (h : dataLen.toNat ≤ tcpPackBufsize)
    (hgt : ¬ dataLen + UInt32.ofNat q.payload.length > UInt32.ofNat tcpPackBufsize) :
    dataLen.toNat + q.payload.length ≤ tcpPackBufsize := by
  rw [← toNat_dataLen q h]
  exact Nat.not_lt.mp hgt

/-- Once something is copied, the buffer stays as it is. -/
theorem copyLoop_past (hpos : 0 < dataLen.toNat) (hle : dataLen.toNat ≤ tcpPackBufsize)
    (ha : a < tcpServerRecvbuf + tcpPackBufsize) : (copyLoop p dataLen s).mem a = s.mem a := by
  induction p generalizing dataLen s with
  | nil => rfl
  | cons q next ih =>
    have hout : ∀ bs,
        put s.mem (tcpServerRecvbuf + tcpPackBufsize * dataLen.toNat) bs a = s.mem a := by
      intro bs
      refine put_out (Or.inl ?_)
      simp only [tcpPackBufsize, tcpServerRecvbuf] at ha ⊢
      omega
    simp only [copyLoop]
    split
    · exact hout _
    · rename_i hgt
      have hnext := not_gt_packBufsize q hle hgt
      have hlen := toNat_dataLen q hle
      rw [ih (by omega) (by omega)]
      exact hout _

/-- A segment at the start of the buffer is cut to its size. -/
theorem take_first (q : Pbuf) :
    q.payload.take (if UInt32.ofNat q.payload.length > UInt32.ofNat tcpPackBufsize - 0
      then UInt32.ofNat tcpPackBufsize - 0 else UInt32.ofNat q.payload.length).toNat =
      q.payload.take tcpPackBufsize := by
  have hlen := q.toNat_len
  split
  · rfl
  · rename_i hgt
    have hle : q.payload.length ≤ tcpPackBufsize := by
      rw [← hlen]
      exact Nat.not_lt.mp hgt
    rw [hlen, List.take_length, List.take_of_length_le hle]

/-- The loop leaves in the buffer what its first segment with bytes puts there. -/
theorem copyLoop_first (ha : a < tcpServerRecvbuf + tcpPackBufsize) :
    (copyLoop p 0 s).mem a = put s.mem tcpServerRecvbuf ((firstBytes p).take tcpPackBufsize) a := by
  induction p generalizing s with
  | nil => rfl
  | cons q next ih =>
    simp only [copyLoop, UInt32.zero_add, take_first, UInt32.toNat_zero, Nat.mul_zero, Nat.add_zero]
    by_cases hq : q.payload = []
    · have hzero : ¬ UInt32.ofNat q.payload.length > UInt32.ofNat tcpPackBufsize := by
        rw [hq]
        decide
      have hlen : UInt32.ofNat q.payload.length = 0 := by rw [hq]; rfl
      rw [if_neg hzero, hlen, ih, firstBytes, if_pos hq]
      simp [Store.memcpy, hq, put]
    · rw [firstBytes, if_neg hq]
      have hpos := List.length_pos_iff.mpr hq
      have hlen := toNat_dataLen q (show (0 : UInt32).toNat ≤ tcpPackBufsize from Nat.zero_le _)
      rw [UInt32.zero_add, UInt32.toNat_zero, Nat.zero_add] at hlen
      split
      · rfl
      · rename_i hgt
        have hle : (UInt32.ofNat q.payload.length).toNat ≤ tcpPackBufsize := Nat.not_lt.mp hgt
        rw [copyLoop_past (by omega) hle ha]
        rfl

/-- What was written, followed by what was there. -/
theorem get_put_take {n : Nat} {bs : List UInt8} :
    get (put (put mem a (List.replicate n 0)) a (bs.take n)) a n = padded n bs := by
  have hlen : (bs.take n).length ≤ n := List.length_take_le n bs
  have hsplit := get_add (put (put mem a (List.replicate n 0)) a (bs.take n)) a (bs.take n).length
    (n - (bs.take n).length)
  rw [Nat.add_sub_cancel' hlen, get_put, get_put_apart (Or.inr (Nat.le_refl _))] at hsplit
  have hzero : get (put mem a (List.replicate n 0)) (a + (bs.take n).length)
      (n - (bs.take n).length) =
      List.replicate (n - (bs.take n).length) 0 := by
    rw [get_part (get_put_replicate mem a n 0) (by omega), List.drop_replicate,
      List.take_replicate, Nat.min_self]
  rw [hsplit, hzero, padded, List.length_take]
  congr 2
  omega

/-- The buffer at the check holds the first segment with bytes, and no more. -/
theorem recvbufAtCheck_eq (p : List Pbuf) (mem : Nat → UInt8) :
    recvbufAtCheck p mem = padded tcpPackBufsize (firstBytes p) := by
  have hcopy : recvbufAtCheck p mem = get (put (put mem tcpServerRecvbuf
      (List.replicate tcpPackBufsize 0)) tcpServerRecvbuf ((firstBytes p).take tcpPackBufsize))
      tcpServerRecvbuf tcpPackBufsize := get_congr fun x _ hx => copyLoop_first hx
  rw [hcopy, get_put_take]

/-- The last clear goes past the buffer, over the one that is sent. -/
theorem transbuf_cleared (p : List Pbuf) (s : Store) :
    get (handlePacket p s).mem tcpServerTransbuf tcpPackBufsize =
      List.replicate tcpPackBufsize 0 := by
  have hall := get_put_replicate (receive p s).mem tcpServerRecvbuf tcpServerRxBufsize 0
  have hpart := get_part hall (k := tcpPackBufsize) (m := tcpPackBufsize) (by decide)
  have hsize : min tcpPackBufsize (tcpServerRxBufsize - tcpPackBufsize) = tcpPackBufsize := rfl
  have hbehind : tcpServerTransbuf = tcpServerRecvbuf + tcpPackBufsize := rfl
  rw [List.drop_replicate, List.take_replicate, hsize] at hpart
  rw [hbehind, handlePacket, Store.memset, Store.memcpy]
  simpa only using hpart

end Copy

/-- **The receive buffer and its frame.** The last clear always writes outside the
buffer and zeroes the one that is sent. The contents are right exactly when the
first segment with bytes already says what the buffer holds. -/
theorem recv_frame (p : List Pbuf) (mem : Nat → UInt8) :
    ¬ (Content p mem ∧ Inside p mem) ∧
    get (handlePacket p ⟨mem, []⟩).mem tcpServerTransbuf tcpPackBufsize =
      List.replicate tcpPackBufsize 0 ∧
    (Content p mem ↔
      padded tcpPackBufsize (firstBytes p) = padded tcpPackBufsize (chainBytes p)) := by
  refine ⟨?_, transbuf_cleared p ⟨mem, []⟩, ?_⟩
  · rintro ⟨-, hin⟩
    have hclear : (tcpServerRecvbuf, tcpServerRxBufsize) ∈ (handlePacket p ⟨mem, []⟩).wrote := by
      simp [handlePacket, Store.memset, Store.memcpy]
    have := hin _ hclear tcpServerTransbuf (by decide) (by decide)
    exact absurd this.2 (by decide)
  · rw [Content, recvbufAtCheck_eq]

/-- A packet in two segments of one byte: its second byte is lost, and the header of
the packet to send is gone. -/
theorem recv_spoils_transbuf : ∃ (p : List Pbuf) (mem : Nat → UInt8),
    chainBytes p = [0x88, 0x66] ∧ recvbufAtCheck p mem = padded 56 [0x88] ∧
    mem tcpServerTransbuf = 0x66 ∧ (handlePacket p ⟨mem, []⟩).mem tcpServerTransbuf = 0 := by
  refine ⟨[⟨[0x88], by decide⟩, ⟨[0x66], by decide⟩], fun _ => 0x66, rfl, ?_, rfl, ?_⟩
  · decide +kernel
  · decide +kernel

end Generalplate.TcpServer
