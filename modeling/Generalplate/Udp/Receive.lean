import Mathlib.Data.List.Induction
import Generalplate.TcpServer.Receive

/-! # What the UDP task does with a datagram

`udp_thread` clears its receive buffer and copies the segments of the chain to it,
as `tcp_server_thread` does, but to a pointer to bytes: the running offset counts
bytes, and the buffer gets what fits of the chain. -/
namespace Generalplate.Udp
open Lib.ByteMem TcpServer

/-- `UDP_DEMO_RX_BUFSIZE`. -/
def udpDemoRxBufsize : Nat := 2000

/-- `data_len` and the memory, and every value of `data_len` for which the room was
computed. -/
structure UdpRecv where
  dataLen : UInt32
  store : Store
  offsets : List UInt32

/-- The loop over the chain; `buf` is `udp_demo_recvbuf`. -/
def copyLoop (buf : Nat) : List Pbuf → UdpRecv → UdpRecv
  | [], s => s
  | q :: next, s =>
    let len := UInt32.ofNat q.payload.length
    let room := UInt32.ofNat udpDemoRxBufsize - s.dataLen
    let n := if len > room then room else len
    let s : UdpRecv := {
      dataLen := s.dataLen + len
      store := s.store.memcpy (buf + s.dataLen.toNat) (q.payload.take n.toNat)
      offsets := s.offsets ++ [s.dataLen] }
    if s.dataLen > UInt32.ofNat udpDemoRxBufsize then s else copyLoop buf next s

/-- The `memset` before it. -/
def UdpRecv.clear (buf : Nat) (s : UdpRecv) : UdpRecv :=
  { s with store := s.store.memset buf 0 udpDemoRxBufsize }

/-- From the clear of the buffer to that of `data_len`. -/
def receive (buf : Nat) (s : UdpRecv) (p : List Pbuf) : UdpRecv :=
  { copyLoop buf p (s.clear buf) with dataLen := 0 }

/-- Before the first datagram. -/
def UdpRecv.start (mem : Nat → UInt8) : UdpRecv := ⟨0, ⟨mem, []⟩, []⟩

/-- Nothing outside the buffer is written, and the room never underflows. -/
structure UdpRecv.Inside (buf : Nat) (s : UdpRecv) : Prop where
  wrote : ∀ r ∈ s.store.wrote, buf ≤ r.1 ∧ r.1 + r.2 ≤ buf + udpDemoRxBufsize
  offsets : ∀ o ∈ s.offsets, o.toNat ≤ udpDemoRxBufsize

variable {buf : Nat} {s : UdpRecv}

-- rewritten rather than by rfl, which would compare the memories byte by byte
@[simp] theorem UdpRecv.clear_dataLen : (s.clear buf).dataLen = s.dataLen := by
  rw [clear]

@[simp] theorem UdpRecv.clear_offsets : (s.clear buf).offsets = s.offsets := by
  rw [clear]

@[simp] theorem UdpRecv.clear_store :
    (s.clear buf).store = s.store.memcpy buf (List.replicate udpDemoRxBufsize 0) := by
  rw [clear, Store.memset]

theorem Store.memcpy_inside {dst : Nat} {src : List UInt8} (h : s.Inside buf) (hlow : buf ≤ dst)
    (hhigh : dst + src.length ≤ buf + udpDemoRxBufsize) :
    ∀ r ∈ (s.store.memcpy dst src).wrote, buf ≤ r.1 ∧ r.1 + r.2 ≤ buf + udpDemoRxBufsize := by
  intro r hr
  rcases List.mem_append.mp hr with hr | hr
  · exact h.wrote r hr
  · cases List.mem_singleton.mp hr
    exact ⟨hlow, hhigh⟩

/-- A segment is cut to the room that is left, and the loop goes on when it fits. -/
theorem segment_cut (q : Pbuf) {dataLen : UInt32} (h : dataLen.toNat ≤ udpDemoRxBufsize) :
    let len := UInt32.ofNat q.payload.length
    let room := UInt32.ofNat udpDemoRxBufsize - dataLen
    (if len > room then room else len).toNat =
      min q.payload.length (udpDemoRxBufsize - dataLen.toNat) ∧
    (dataLen + len).toNat = dataLen.toNat + q.payload.length := by
  have hshort := q.short
  have hlen := q.toNat_len
  have hroom : (UInt32.ofNat udpDemoRxBufsize - dataLen).toNat =
      udpDemoRxBufsize - dataLen.toNat := by
    have hsize : (UInt32.ofNat udpDemoRxBufsize).toNat = udpDemoRxBufsize := rfl
    rw [UInt32.toNat_sub, hsize]
    unfold udpDemoRxBufsize at h ⊢
    omega
  refine ⟨?_, ?_⟩
  · split
    · rename_i hgt
      rw [gt_iff_lt, UInt32.lt_iff_toNat_lt, hlen, hroom] at hgt
      rw [hroom]
      omega
    · rename_i hgt
      rw [gt_iff_lt, UInt32.lt_iff_toNat_lt, hlen, hroom] at hgt
      rw [hlen]
      omega
  · unfold udpDemoRxBufsize at h
    rw [UInt32.toNat_add, hlen]
    omega

theorem copyLoop_inside {p : List Pbuf} (h : s.Inside buf)
    (hle : s.dataLen.toNat ≤ udpDemoRxBufsize) : (copyLoop buf p s).Inside buf := by
  induction p generalizing s with
  | nil => exact h
  | cons q next ih =>
    obtain ⟨hcut, hnext⟩ := segment_cut q hle
    have hone : UdpRecv.Inside buf {
        dataLen := s.dataLen + UInt32.ofNat q.payload.length
        store := s.store.memcpy (buf + s.dataLen.toNat) (q.payload.take
          (if UInt32.ofNat q.payload.length > UInt32.ofNat udpDemoRxBufsize - s.dataLen
            then UInt32.ofNat udpDemoRxBufsize - s.dataLen
            else UInt32.ofNat q.payload.length).toNat)
        offsets := s.offsets ++ [s.dataLen] } := by
      refine ⟨Store.memcpy_inside h (Nat.le_add_right ..) ?_, ?_⟩
      · rw [hcut, List.length_take]
        omega
      · intro o ho
        rcases List.mem_append.mp ho with ho | ho
        · exact h.offsets o ho
        · cases List.mem_singleton.mp ho
          exact hle
    simp only [copyLoop]
    split
    · exact hone
    · rename_i hgt
      exact ih hone (Nat.not_lt.mp hgt)

/-- The loop puts in the buffer what fits of the chain. -/
theorem copyLoop_mem {p : List Pbuf} (hle : s.dataLen.toNat ≤ udpDemoRxBufsize) :
    (copyLoop buf p s).store.mem = put s.store.mem (buf + s.dataLen.toNat)
      ((chainBytes p).take (udpDemoRxBufsize - s.dataLen.toNat)) := by
  induction p generalizing s with
  | nil => rw [chainBytes, List.flatMap_nil, List.take_nil, put, copyLoop]
  | cons q next ih =>
    obtain ⟨hcut, hnext⟩ := segment_cut q hle
    have hchain : chainBytes (q :: next) = q.payload ++ chainBytes next := List.flatMap_cons
    simp only [copyLoop, hcut, hchain]
    split
    · -- the segment reaches past the room, and so does the chain
      rename_i hgt
      have hlong : udpDemoRxBufsize < s.dataLen.toNat + q.payload.length := by
        rw [← hnext]
        exact hgt
      rw [List.take_append_of_le_length (by omega), Nat.min_eq_right (by omega)]
      rfl
    · rename_i hgt
      have hfits : s.dataLen.toNat + q.payload.length ≤ udpDemoRxBufsize := by
        rw [← hnext]
        exact Nat.not_lt.mp hgt
      have hwhole : min q.payload.length (udpDemoRxBufsize - s.dataLen.toNat) =
          q.payload.length := by omega
      have hrest : (q.payload ++ chainBytes next).take (udpDemoRxBufsize - s.dataLen.toNat) =
          q.payload ++ (chainBytes next).take
            (udpDemoRxBufsize - (s.dataLen.toNat + q.payload.length)) := by
        rw [List.take_append, List.take_of_length_le (by omega), Nat.sub_add_eq]
      have hle' : (s.dataLen + UInt32.ofNat q.payload.length).toNat ≤ udpDemoRxBufsize :=
        Nat.not_lt.mp hgt
      rw [ih hle', hrest, put_append, hnext, hwhole, List.take_length, Nat.add_assoc]
      rfl

theorem receive_inside (h : s.Inside buf) (hzero : s.dataLen = 0) (p : List Pbuf) :
    (receive buf s p).Inside buf := by
  have hclear : (s.clear buf).Inside buf := by
    refine ⟨?_, ?_⟩
    · rw [UdpRecv.clear_store]
      refine Store.memcpy_inside h (Nat.le_refl _) ?_
      simp only [List.length_replicate, Nat.le_refl]
    · rw [UdpRecv.clear_offsets]
      exact h.offsets
  have hle : (s.clear buf).dataLen.toNat ≤ udpDemoRxBufsize := by
    rw [UdpRecv.clear_dataLen, hzero]
    exact Nat.zero_le _
  have hloop := copyLoop_inside (p := p) hclear hle
  exact ⟨hloop.wrote, hloop.offsets⟩

theorem receive_mem (hzero : s.dataLen = 0) (p : List Pbuf) :
    (receive buf s p).store.mem =
      put (put s.store.mem buf (List.replicate udpDemoRxBufsize 0)) buf
        ((chainBytes p).take udpDemoRxBufsize) := by
  have hle : (s.clear buf).dataLen.toNat ≤ udpDemoRxBufsize := by
    rw [UdpRecv.clear_dataLen, hzero]
    exact Nat.zero_le _
  have hloop := @copyLoop_mem buf (s.clear buf) p hle
  rw [UdpRecv.clear_dataLen, hzero, UInt32.toNat_zero, Nat.add_zero, Nat.sub_zero,
    UdpRecv.clear_store, Store.memcpy] at hloop
  rw [receive, hloop]

/-- A datagram leaves what is outside the buffer as it is. -/
theorem receive_outside (hzero : s.dataLen = 0) (p : List Pbuf) {a : Nat}
    (ha : a < buf ∨ buf + udpDemoRxBufsize ≤ a) :
    (receive buf s p).store.mem a = s.store.mem a := by
  rw [receive_mem hzero, put_out, put_out]
  · rwa [List.length_replicate]
  · have hlen := List.length_take_le udpDemoRxBufsize (chainBytes p)
    omega

/-- What the datagrams keep. -/
theorem received_keeps (buf : Nat) (mem : Nat → UInt8) (ps : List (List Pbuf)) :
    (ps.foldl (receive buf) (.start mem)).Inside buf ∧
    (ps.foldl (receive buf) (.start mem)).dataLen = 0 ∧
    ∀ a, a < buf ∨ buf + udpDemoRxBufsize ≤ a →
      (ps.foldl (receive buf) (.start mem)).store.mem a = mem a := by
  induction ps using List.reverseRecOn with
  | nil => exact ⟨⟨by simp [UdpRecv.start], by simp [UdpRecv.start]⟩, rfl, fun _ _ => rfl⟩
  | append_singleton ps p ih =>
    obtain ⟨hin, hzero, hout⟩ := ih
    rw [List.foldl_append, List.foldl_cons, List.foldl_nil]
    refine ⟨receive_inside hin hzero p, rfl, ?_⟩
    intro a ha
    rw [receive_outside hzero p ha]
    exact hout a ha

theorem receive_buffer (buf : Nat) (mem : Nat → UInt8) (ps : List (List Pbuf)) (p : List Pbuf) :
    get ((ps ++ [p]).foldl (receive buf) (.start mem)).store.mem buf udpDemoRxBufsize =
      padded udpDemoRxBufsize (chainBytes p) := by
  obtain ⟨-, hzero, -⟩ := received_keeps buf mem ps
  rw [List.foldl_append, List.foldl_cons, List.foldl_nil, receive_mem hzero]
  exact get_put_take

/-- **The UDP buffer.** After any datagrams the buffer holds what fits of the last
one, and zeros; nothing outside it has been written, the room has never underflowed,
and `data_len` is 0 again. -/
theorem udp_buffer (buf : Nat) (mem : Nat → UInt8) (ps : List (List Pbuf)) (p : List Pbuf) :
    let s := (ps ++ [p]).foldl (receive buf) (.start mem)
    get s.store.mem buf udpDemoRxBufsize = padded udpDemoRxBufsize (chainBytes p) ∧
    s.Inside buf ∧ (∀ a, a < buf ∨ buf + udpDemoRxBufsize ≤ a → s.store.mem a = mem a) ∧
    s.dataLen = 0 := by
  obtain ⟨hin, hzero, hout⟩ := received_keeps buf mem (ps ++ [p])
  exact ⟨receive_buffer buf mem ps p, hin, hout, hzero⟩

end Generalplate.Udp
