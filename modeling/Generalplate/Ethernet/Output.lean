import Generalplate.Lib.ByteMem
import Generalplate.Lib.EventRun
import Generalplate.Lwip.Err
import Generalplate.Ethernet.TxRing

/-! # Sending through the transmit ring

`low_level_output` copies a chain into the buffer of the current descriptor, and
only then `ETH_Tx_Packet` finds out whether that descriptor is free. The DMA
reads the buffers of the descriptors it owns at any time, byte by byte, and puts
a frame on the wire when it gives the descriptor back. When no call finds the
ring full, the wire carries what the calls were given. -/
namespace Generalplate.Ethernet
open Lib.Ring Lib.ByteMem Lib.EventRun Lwip

/-- The longest chain: the MTU of 1500 and the header of 14 bytes. -/
def frameMax : Nat := 1514

/-- The loop of `low_level_init` over the first descriptors. -/
def checksumInsertion (t : DescTab) : Nat → EthTx → EthTx
  | 0, s => s
  | i + 1, s => ethDmaTxDescChecksumInsertionConfig (t.addr i) ethDmaTxDescChecksumFull
      (checksumInsertion t i s)

/-- The transmit half of `low_level_init`. -/
def lowLevelInitTx (t : DescTab) (txBuff : Nat) (s : EthTx) : EthTx :=
  ethStart (checksumInsertion t t.count (ethDmaTxDescChainInit t txBuff s))

/-- The length the DMA finds in a descriptor. -/
def DmaDesc.frameLength (d : DmaDesc) : Nat := (d.controlBufferSize &&& ethDmaTxDescTBS1).toNat

/-- Where `low_level_output` is. While it copies, `segs` is left of the chain and
`l` bytes are in `buffer`; `payload` is the whole chain and `before` the memory
when it was called. -/
inductive OutPc where
  | idle
  | copy (buffer : Nat) (segs : List (List UInt8)) (l : Nat) (payload : List UInt8)
      (before : Nat → UInt8)

/-- A call that has returned. -/
structure OutCall where
  payload : List UInt8
  res : ErrT
deriving DecidableEq, Repr

/-- The sending side: the driver, the memory, the bytes the DMA has read for each
descriptor, the frames on the wire and the calls that have returned. -/
structure Sender where
  eth : EthTx
  mem : Nat → UInt8
  pc : OutPc
  fetched : Nat → List UInt8
  wire : List (List UInt8)
  calls : List OutCall

def Sender.init (t : DescTab) (txBuff : Nat) (s : EthTx) (mem : Nat → UInt8) : Sender :=
  ⟨lowLevelInitTx t txBuff s, mem, .idle, fun _ => [], [], []⟩

/-- What can happen: `low_level_output` is called, copies one byte or goes to the
next segment, and calls `ETH_Tx_Packet`; the DMA reads the next byte for a
descriptor, gives its descriptor back or changes its status register. -/
inductive OutAct where
  | output (p : List (List UInt8))
  | copy
  | packet
  | fetch (i : Nat)
  | close (w : BitVec 32) (x : ExtWords) (sr : BitVec 32)
  | signal (sr : BitVec 32)

def outStep (t : DescTab) : OutAct → Sender → Option Sender
  | .output p, s =>
    match s.pc with
    | .idle =>
      if p.flatten.length ≤ frameMax then
        some { s with pc := .copy (ethGetCurrentTxBuffer s.eth) p 0 p.flatten s.mem }
      else none
    | .copy .. => none
  | .copy, s =>
    match s.pc with
    | .copy buffer ((b :: q) :: segs) l payload before =>
      some { s with
        mem := Function.update s.mem (buffer + l) b
        pc := .copy buffer (q :: segs) (l + 1) payload before }
    | .copy buffer ([] :: segs) l payload before =>
      some { s with pc := .copy buffer segs l payload before }
    | _ => none
  | .packet, s =>
    match s.pc with
    | .copy _ [] l payload _ =>
      let r := ethTxPacket (BitVec.ofNat 16 l) s.eth
      some { s with
        eth := r.2
        pc := .idle
        calls := s.calls ++ [⟨payload, if r.1 = ethError then .mem else .ok⟩] }
    | _ => none
  | .fetch i, s =>
    let a := t.addr i
    let d := s.eth.desc a
    let got := s.fetched a
    if i < t.count ∧ d.Owned ∧ got.length < d.frameLength then
      some { s with
        fetched := Function.update s.fetched a (got ++ [s.mem (d.buffer1Addr + got.length)]) }
    else none
  | .close w x sr, s =>
    let a := s.eth.dmachtdr
    let d := s.eth.desc a
    if d.Owned ∧ (s.fetched a).length = d.frameLength then
      some { s with
        eth := dmaTxClose w x sr s.eth
        fetched := Function.update s.fetched a []
        wire := s.wire ++ [s.fetched a] }
    else none
  | .signal sr, s => some { s with eth := { s.eth with dmasr := sr } }

/-- The payloads of the calls that returned `ERR_OK`. -/
def accepted (calls : List OutCall) : List (List UInt8) :=
  (calls.filter (·.res = .ok)).map OutCall.payload

@[simp] theorem accepted_ok (calls : List OutCall) (payload : List UInt8) :
    accepted (calls ++ [⟨payload, .ok⟩]) = accepted calls ++ [payload] := by
  simp [accepted]

@[simp] theorem accepted_mem (calls : List OutCall) (payload : List UInt8) :
    accepted (calls ++ [⟨payload, .mem⟩]) = accepted calls := by
  simp [accepted]

/-- The descriptor `low_level_output` would use belongs to the DMA. -/
def Sender.Full (s : Sender) : Prop := (s.eth.desc s.eth.dmaTxDescToSet).Owned

instance (s : Sender) : Decidable s.Full := inferInstanceAs (Decidable (DmaDesc.Owned _))

/-- A call finds the ring not full, or its bytes are in the buffer already. -/
def RingFree : OutAct → Sender → Prop
  | .output p, s => s.Full →
      get s.mem (ethGetCurrentTxBuffer s.eth) p.flatten.length = p.flatten
  | _, _ => True

instance decRingFree : ∀ (a : OutAct) (s : Sender), Decidable (RingFree a s)
  | .output _, s => inferInstanceAs (Decidable (s.Full → _))
  | .copy, _ => isTrue trivial
  | .packet, _ => isTrue trivial
  | .fetch _, _ => isTrue trivial
  | .close .., _ => isTrue trivial
  | .signal _, _ => isTrue trivial

/-! ## The frames in the ring -/

theorem frameLength_handOver (d : DmaDesc) {l : Nat} (h : l ≤ frameMax) :
    (d.handOver (BitVec.ofNat 16 l)).frameLength = l := by
  have hmask : ethDmaTxDescTBS1 &&& ethDmaTxDescTBS1 = ethDmaTxDescTBS1 := by decide
  have hval : ethDmaTxDescTBS1.toNat = 2 ^ 13 - 1 := by decide
  rw [frameMax] at h
  rw [DmaDesc.frameLength, DmaDesc.handOver, BitVec.and_assoc, hmask, BitVec.toNat_and, hval,
    Nat.and_two_pow_sub_one_eq_mod, BitVec.toNat_setWidth, BitVec.toNat_ofNat]
  omega

/-- The call that runs: what it has copied is in the buffer, and it has changed
nothing if the ring is full, and nothing behind the buffer otherwise. -/
def OutPc.Ok (t : DescTab) (txBuff : Nat) (s : Sender) : OutPc → Prop
  | .idle => True
  | .copy buffer segs l payload before =>
    buffer = txBuff + (accepted s.calls).length % t.count * ethTxBufSize ∧
    payload.length ≤ frameMax ∧ l ≤ payload.length ∧ segs.flatten = payload.drop l ∧
    get s.mem buffer l = payload.take l ∧
    (s.Full → s.mem = before ∧ get before buffer payload.length = payload) ∧
    ∀ x, x < buffer ∨ buffer + frameMax ≤ x → s.mem x = before x

/-- Frame `k` of those accepted lies in its descriptor's buffer. -/
structure InRing (t : DescTab) (txBuff : Nat) (desc : Nat → DmaDesc) (mem : Nat → UInt8)
    (fetched : Nat → List UInt8) (k : Nat) (f : List UInt8) : Prop where
  length : (desc (t.addr (k % t.count))).frameLength = f.length
  short : f.length ≤ frameMax
  bytes : get mem (txBuff + k % t.count * ethTxBufSize) f.length = f
  read : fetched (t.addr (k % t.count)) <+: f

structure Sending (t : DescTab) (txBuff : Nat) (s : Sender) : Prop where
  ring : TxInv t txBuff s.eth (accepted s.calls).length s.wire.length
  wire : s.wire <+: (accepted s.calls)
  frame : ∀ k f, s.wire.length ≤ k → (accepted s.calls)[k]? = some f →
    InRing t txBuff s.eth.desc s.mem s.fetched k f
  free : ∀ i, i < t.count → ¬ (s.eth.desc (t.addr i)).Owned → s.fetched (t.addr i) = []
  call : s.pc.Ok t txBuff s

section Steps
variable {t : DescTab} {txBuff : Nat} {s s' : Sender}

theorem Sending.full_iff (h : Sending t txBuff s) :
    s.Full ↔ (accepted s.calls).length = s.wire.length + t.count := by
  rw [Sender.Full, h.ring.toSet, h.ring.owned _ (Nat.mod_lt _ t.pos),
    window_next_iff t.pos h.ring.room]

/-- While the ring is not full the current descriptor holds no frame. -/
theorem Sending.index_ne (h : Sending t txBuff s) (hf : ¬ s.Full) {k : Nat} {f : List UInt8}
    (hle : s.wire.length ≤ k) (hk : (accepted s.calls)[k]? = some f) :
    k % t.count ≠ (accepted s.calls).length % t.count := by
  obtain ⟨hlt, -⟩ := List.getElem?_eq_some_iff.mp hk
  have hroom := h.ring.room
  rw [h.full_iff] at hf
  intro he
  have := eq_of_mod_eq (Nat.le_of_lt hlt) (by omega) he
  omega

/-- The buffer of one descriptor is apart from the frame in another's. -/
theorem buffers_apart {i j x : Nat} (hij : i ≠ j) (h1 : txBuff + j * ethTxBufSize ≤ x)
    (h2 : x < txBuff + j * ethTxBufSize + frameMax) :
    x < txBuff + i * ethTxBufSize ∨ txBuff + i * ethTxBufSize + frameMax ≤ x := by
  simp only [ethTxBufSize, frameMax] at *
  omega

theorem checksumInsertion_start (t : DescTab) (e : EthTx) (k : Nat) :
    ethStart (checksumInsertion t k e) = checksumInsertion t k (ethStart e) := by
  induction k with
  | zero => rfl
  | succ k ih =>
    rw [checksumInsertion, checksumInsertion, ← ih]
    rfl

theorem TxInv.lowLevelInit (t : DescTab) (txBuff : Nat) (e : EthTx) :
    TxInv t txBuff (lowLevelInitTx t txBuff e) 0 0 := by
  have hall : ∀ k, k ≤ t.count →
      TxInv t txBuff (checksumInsertion t k (ethStart (ethDmaTxDescChainInit t txBuff e))) 0 0 := by
    intro k hk
    induction k with
    | zero => exact TxInv.init t txBuff e
    | succ k ih => exact (ih (by omega)).checksum (by omega)
  rw [lowLevelInitTx, checksumInsertion_start]
  exact hall _ (Nat.le_refl _)

theorem Sending.init (t : DescTab) (txBuff : Nat) (e : EthTx) (mem : Nat → UInt8) :
    Sending t txBuff (.init t txBuff e mem) where
  ring := TxInv.lowLevelInit t txBuff e
  wire := List.prefix_refl _
  frame k f _ hk := by cases hk
  free _ _ _ := rfl
  call := trivial

/-- What the state of a frame depends on. -/
theorem InRing.congr {desc desc' : Nat → DmaDesc} {mem mem' : Nat → UInt8}
    {fetched fetched' : Nat → List UInt8} {k : Nat} {f : List UInt8}
    (h : InRing t txBuff desc mem fetched k f)
    (hdesc : (desc' (t.addr (k % t.count))).frameLength = (desc (t.addr (k % t.count))).frameLength)
    (hmem : ∀ x, txBuff + k % t.count * ethTxBufSize ≤ x →
      x < txBuff + k % t.count * ethTxBufSize + frameMax → mem' x = mem x)
    (hread : fetched' (t.addr (k % t.count)) = fetched (t.addr (k % t.count))) :
    InRing t txBuff desc' mem' fetched' k f where
  length := hdesc.trans h.length
  short := h.short
  bytes := by
    have hshort := h.short
    rw [get_congr fun x h1 h2 => hmem x h1 (by omega), h.bytes]
  read := hread ▸ h.read

theorem OutPc.Ok.congr {pc : OutPc} (h : pc.Ok t txBuff s) (hcalls : s'.calls = s.calls)
    (hmem : s'.mem = s.mem) (hfull : s'.Full → s.Full) : pc.Ok t txBuff s' := by
  cases pc with
  | idle => trivial
  | copy buffer segs l payload before =>
    obtain ⟨hbuf, hshort, hle, hsegs, hget, hf, hout⟩ := h
    refine ⟨hcalls.symm ▸ hbuf, hshort, hle, hsegs, hmem.symm ▸ hget, ?_, ?_⟩
    · intro hc
      rw [hmem]
      exact hf (hfull hc)
    · rw [hmem]
      exact hout

theorem Sending.output (h : Sending t txBuff s) {p : List (List UInt8)}
    (hfree : RingFree (.output p) s) (hs : outStep t (.output p) s = some s') :
    Sending t txBuff s' := by
  cases hpc : s.pc with
  | copy => simp [outStep, hpc] at hs
  | idle =>
    simp only [outStep, hpc] at hs
    split at hs
    · rename_i hlen
      cases hs
      have hbuf : ethGetCurrentTxBuffer s.eth =
          txBuff + (accepted s.calls).length % t.count * ethTxBufSize := by
        rw [ethGetCurrentTxBuffer, h.ring.toSet, h.ring.buffer _ (Nat.mod_lt _ t.pos)]
      refine ⟨h.ring, h.wire, h.frame, h.free, hbuf, hlen, Nat.zero_le _, rfl, rfl, ?_, ?_⟩
      · intro hfull
        exact ⟨rfl, hfree hfull⟩
      · intro x _
        rfl
    · cases hs

/-- The next byte of a payload that is copied up to `l`. -/
theorem copy_next {mem : Nat → UInt8} {buffer l : Nat} {b : UInt8} {payload rest : List UInt8}
    (hget : get mem buffer l = payload.take l) (hdrop : payload.drop l = b :: rest) :
    l < payload.length ∧ payload.take (l + 1) = payload.take l ++ [b] ∧
      get (Function.update mem (buffer + l) b) buffer (l + 1) = payload.take (l + 1) ∧
      payload.drop (l + 1) = rest := by
  have hlt : l < payload.length := by
    by_contra hge
    rw [List.drop_eq_nil_of_le (by omega)] at hdrop
    cases hdrop
  have hb : payload.take (l + 1) = payload.take l ++ [b] := by
    rw [List.take_add, hdrop]
    rfl
  refine ⟨hlt, hb, ?_, ?_⟩
  · rw [get_snoc, get_update_out (Or.inr (Nat.le_refl _)), Function.update_self, hget, hb]
  · rw [← List.drop_drop, hdrop]
    rfl

/-- A byte of the chain: where the ring is full it is the byte that is there. -/
theorem Sending.copy (h : Sending t txBuff s) (hs : outStep t .copy s = some s') :
    Sending t txBuff s' := by
  cases hpc : s.pc with
  | idle => simp [outStep, hpc] at hs
  | copy buffer segs l payload before =>
    obtain ⟨hbuf, hshort, hle, hsegs, hget, hfull, hout⟩ : OutPc.Ok t txBuff s
        (.copy buffer segs l payload before) := hpc ▸ h.call
    cases segs with
    | nil => simp [outStep, hpc] at hs
    | cons q segs =>
      cases q with
      | nil =>
        simp only [outStep, hpc] at hs
        cases hs
        exact ⟨h.ring, h.wire, h.frame, h.free, hbuf, hshort, hle, hsegs, hget, hfull, hout⟩
      | cons b q =>
        simp only [outStep, hpc] at hs
        cases hs
        obtain ⟨hlt, hb, hget', hrest⟩ := copy_next hget hsegs.symm
        by_cases hf : s.Full
        · obtain ⟨hmem, hthere⟩ := hfull hf
          have hsame : s.mem (buffer + l) = b := by
            have h1 := congrArg (List.take (l + 1)) hthere
            rw [take_get _ _ (by omega), hb, get_snoc, ← hmem, hget] at h1
            simpa using h1
          have hid : Function.update s.mem (buffer + l) b = s.mem := by
            rw [← hsame, Function.update_eq_self]
          rw [hid] at hget' ⊢
          exact ⟨h.ring, h.wire, h.frame, h.free, hbuf, hshort, hlt, hrest.symm, hget', hfull, hout⟩
        · refine ⟨h.ring, h.wire, ?_, h.free, hbuf, hshort, hlt, hrest.symm, hget',
            fun hc => absurd hc hf, ?_⟩
          · intro k f hk hf'
            refine (h.frame k f hk hf').congr rfl ?_ rfl
            intro x h1 h2
            have hapart := buffers_apart (Ne.symm (h.index_ne hf hk hf')) h1 h2
            rw [← hbuf] at hapart
            exact Function.update_of_ne (by omega) _ _
          · intro x hx
            rw [← hout x hx]
            exact Function.update_of_ne (by omega) _ _

/-- The end of a call: the ring is full and nothing changes, or the descriptor is
handed over. -/
theorem outStep_packet (hs : outStep t .packet s = some s') :
    ∃ buffer l payload before, s.pc = .copy buffer [] l payload before ∧
      ((s.Full ∧ s' = { s with pc := .idle, calls := s.calls ++ [⟨payload, .mem⟩] }) ∨
      (¬ s.Full ∧ ∃ e, ethTxPacket (BitVec.ofNat 16 l) s.eth = (ethSuccess, e) ∧
        e.desc = Function.update s.eth.desc s.eth.dmaTxDescToSet
          ((s.eth.desc s.eth.dmaTxDescToSet).handOver (BitVec.ofNat 16 l)) ∧
        s' = { s with eth := e, pc := .idle, calls := s.calls ++ [⟨payload, .ok⟩] })) := by
  cases hpc : s.pc with
  | idle => simp [outStep, hpc] at hs
  | copy buffer segs l payload before =>
    cases segs with
    | cons => simp [outStep, hpc] at hs
    | nil =>
      refine ⟨buffer, l, payload, before, rfl, ?_⟩
      simp only [outStep, hpc] at hs
      cases hs
      rcases ethTxPacket_cases (BitVec.ofNat 16 l) s.eth with ⟨ho, he⟩ | ⟨hno, sr, pd, he⟩
      · exact Or.inl ⟨ho, by rw [he, if_pos rfl]⟩
      · have hok : ¬ ethSuccess = ethError := by decide
        exact Or.inr ⟨hno, _, he, rfl, by rw [he, if_neg hok]⟩

theorem Sending.packet (h : Sending t txBuff s) (hs : outStep t .packet s = some s') :
    Sending t txBuff s' := by
  obtain ⟨buffer, l, payload, before, hpc, hcase⟩ := outStep_packet hs
  obtain ⟨hbuf, hshort, hle, hsegs, hget, -, -⟩ : OutPc.Ok t txBuff s
      (.copy buffer [] l payload before) := hpc ▸ h.call
  have hl : l = payload.length := by
    have := congrArg List.length hsegs
    simp only [List.flatten_nil, List.length_nil, List.length_drop] at this
    omega
  rcases hcase with ⟨_, rfl⟩ | ⟨hfull, e, he, hdesc, rfl⟩
  · exact ⟨by simpa using h.ring, by simpa using h.wire, by simpa using h.frame, h.free, trivial⟩
  -- the frame takes the slot behind those in the ring
  have hi := Nat.mod_lt (accepted s.calls).length t.pos
  have htoSet := h.ring.toSet
  rw [htoSet] at hdesc
  refine ⟨?_, ?_, ?_, ?_, trivial⟩
  · have hring := h.ring.packet (BitVec.ofNat 16 l)
    rw [he, if_pos rfl] at hring
    simpa using hring
  · rw [accepted_ok]
    exact h.wire.trans (List.prefix_append _ _)
  · intro k f hk hf
    rw [accepted_ok] at hf
    by_cases hlast : k = (accepted s.calls).length
    · subst hlast
      rw [List.getElem?_concat_length] at hf
      cases hf
      have hread : s.fetched (t.addr ((accepted s.calls).length % t.count)) = [] :=
        h.free _ hi (htoSet ▸ hfull)
      refine ⟨?_, hshort, ?_, ?_⟩
      · rw [hdesc, Function.update_self, hl, frameLength_handOver _ hshort]
      · rw [← hbuf, ← hl, hget, hl, List.take_length]
      · rw [hread]
        exact List.nil_prefix
    · have hf' : (accepted s.calls)[k]? = some f := by
        rw [List.getElem?_append] at hf
        split at hf
        · exact hf
        · rename_i hge
          obtain ⟨hlt, -⟩ := List.getElem?_eq_some_iff.mp hf
          simp only [List.length_singleton] at hlt
          omega
      have hne : t.addr (k % t.count) ≠ t.addr ((accepted s.calls).length % t.count) := fun ha =>
        h.index_ne hfull hk hf' (t.addr_inj.mp ha)
      exact (h.frame k f hk hf').congr (by rw [hdesc, Function.update_of_ne hne])
        (fun _ _ _ => rfl) rfl
  · intro i hi' hno
    by_cases hie : i = (accepted s.calls).length % t.count
    · rw [hdesc, hie, Function.update_self] at hno
      exact absurd (handOver_owned _ _) hno
    · have hne : t.addr i ≠ t.addr ((accepted s.calls).length % t.count) := fun ha =>
        hie (t.addr_inj.mp ha)
      rw [hdesc, Function.update_of_ne hne] at hno
      exact h.free i hi' hno

/-- The DMA reads the next byte of a frame. -/
theorem Sending.fetch (h : Sending t txBuff s) {i : Nat} (hs : outStep t (.fetch i) s = some s') :
    Sending t txBuff s' := by
  simp only [outStep] at hs
  split at hs
  · rename_i hc
    obtain ⟨hi, ho, hlt⟩ := hc
    cases hs
    refine ⟨h.ring, h.wire, ?_, ?_, h.call⟩
    · intro k f hk hf
      have hfr := h.frame k f hk hf
      by_cases hki : k % t.count = i
      · subst hki
        have hbuf := h.ring.buffer _ hi
        have hnext := prefix_snoc hfr.bytes hfr.read (hfr.length ▸ hlt)
        refine ⟨hfr.length, hfr.short, hfr.bytes, ?_⟩
        simpa [hbuf] using hnext
      · have hne : t.addr (k % t.count) ≠ t.addr i := fun ha => hki (t.addr_inj.mp ha)
        exact hfr.congr rfl (fun _ _ _ => rfl) (Function.update_of_ne hne _ _)
    · intro j hj hno
      have hne : t.addr j ≠ t.addr i := fun ha => hno (ha ▸ ho)
      exact (Function.update_of_ne hne _ _).trans (h.free j hj hno)
  · cases hs

/-- The DMA has read the whole frame and gives the descriptor back. -/
theorem Sending.close (h : Sending t txBuff s) {w sr : BitVec 32} {x : ExtWords}
    (hs : outStep t (.close w x sr) s = some s') : Sending t txBuff s' := by
  simp only [outStep] at hs
  split at hs
  · rename_i hc
    obtain ⟨ho, hall⟩ := hc
    cases hs
    have hlt := h.ring.current_owned.mp ho
    have hcur := h.ring.current
    have hfr := h.frame _ _ (Nat.le_refl _) (List.getElem?_eq_getElem hlt)
    -- a whole prefix is the frame
    have hwhole : s.fetched s.eth.dmachtdr = (accepted s.calls)[s.wire.length] := by
      rw [hcur] at hall ⊢
      exact hfr.read.eq_of_length (hall.trans hfr.length)
    have hroom := h.ring.room
    have hother : ∀ k, s.wire.length + 1 ≤ k → k < (accepted s.calls).length →
        t.addr (k % t.count) ≠ s.eth.dmachtdr := by
      intro k hk hlast ha
      rw [hcur] at ha
      have := eq_of_mod_eq (by omega) (by omega) (t.addr_inj.mp ha).symm
      omega
    refine ⟨?_, ?_, ?_, ?_, ?_⟩
    · simpa using h.ring.close w x sr ho
    · rw [hwhole]
      refine List.prefix_iff_eq_take.mpr ?_
      rw [List.length_append, List.length_singleton, List.take_succ_eq_append_getElem hlt,
        ← List.prefix_iff_eq_take.mp h.wire]
    · intro k f hk hf
      obtain ⟨hlast, -⟩ := List.getElem?_eq_some_iff.mp hf
      rw [List.length_append, List.length_singleton] at hk
      have hne := hother k hk hlast
      refine (h.frame k f (by omega) hf).congr ?_ (fun _ _ _ => rfl) (Function.update_of_ne hne _ _)
      simp only [dmaTxClose, Function.update_of_ne hne]
    · intro i hi hno
      by_cases hic : t.addr i = s.eth.dmachtdr
      · simp [hic]
      · simp only [dmaTxClose, Function.update_of_ne hic] at hno ⊢
        exact h.free i hi hno
    · refine h.call.congr rfl rfl ?_
      intro hfull
      by_cases hic : s.eth.dmaTxDescToSet = s.eth.dmachtdr
      · simp [Sender.Full, dmaTxClose, hic, DmaDesc.not_owned_writeBack] at hfull
      · simpa only [Sender.Full, dmaTxClose, Function.update_of_ne hic] using hfull
  · cases hs

theorem Sending.step (h : Sending t txBuff s) {a : OutAct} (hfree : RingFree a s)
    (hs : outStep t a s = some s') : Sending t txBuff s' := by
  cases a with
  | output p => exact h.output hfree hs
  | copy => exact h.copy hs
  | packet => exact h.packet hs
  | fetch i => exact h.fetch hs
  | close w x sr => exact h.close hs
  | signal sr =>
    cases hs
    have hring := h.ring
    exact ⟨⟨hring.le, hring.room, hring.toSet, hring.current, hring.link, hring.buffer,
      hring.owned⟩, h.wire, h.frame, h.free, h.call.congr rfl rfl id⟩

/-! ## A call with nothing in between -/

/-- The steps of one call. -/
def callActs (p : List (List UInt8)) : List OutAct :=
  .output p :: (p.flatMap fun q => List.replicate (q.length + 1) .copy) ++ [.packet]

theorem run_copy_seg {buffer l : Nat} {segs : List (List UInt8)} {payload : List UInt8}
    {before : Nat → UInt8} (q : List UInt8)
    (hpc : s.pc = .copy buffer (q :: segs) l payload before) :
    run (outStep t) (List.replicate (q.length + 1) .copy) s = some { s with
      mem := put s.mem (buffer + l) q
      pc := .copy buffer segs (l + q.length) payload before } := by
  induction q generalizing s l with
  | nil =>
    have hstep : outStep t .copy s = some { s with pc := .copy buffer segs l payload before } := by
      simp only [outStep, hpc]
    rw [List.length_nil, Nat.zero_add, List.replicate_one, run_cons hstep, run_nil, put,
      Nat.add_zero]
  | cons b q ih =>
    have hstep : outStep t .copy s = some { s with
        mem := Function.update s.mem (buffer + l) b
        pc := .copy buffer (q :: segs) (l + 1) payload before } := by
      simp only [outStep, hpc]
    rw [List.length_cons, List.replicate_succ, run_cons hstep, ih rfl]
    simp only [put, Nat.add_assoc, Nat.add_comm 1]

theorem run_copy_chain {buffer l : Nat} {segs : List (List UInt8)} {payload : List UInt8}
    {before : Nat → UInt8} (hpc : s.pc = .copy buffer segs l payload before) :
    run (outStep t) (segs.flatMap fun q => List.replicate (q.length + 1) .copy) s = some { s with
      mem := put s.mem (buffer + l) segs.flatten
      pc := .copy buffer [] (l + segs.flatten.length) payload before } := by
  induction segs generalizing s l with
  | nil =>
    cases s
    cases hpc
    rfl
  | cons q segs ih =>
    rw [List.flatMap_cons, run_append_of _ (run_copy_seg q hpc), ih rfl]
    simp only [List.flatten_cons, put_append, List.length_append, Nat.add_assoc]

/-- `low_level_output` without the DMA in between: the chain is in the buffer,
whatever `ETH_Tx_Packet` says. -/
theorem run_call (hpc : s.pc = .idle) {p : List (List UInt8)} (hp : p.flatten.length ≤ frameMax) :
    ∃ s', run (outStep t) (callActs p) s = some s' ∧
      s'.mem = put s.mem (ethGetCurrentTxBuffer s.eth) p.flatten ∧
      s'.calls = s.calls ++ [⟨p.flatten, if s.Full then .mem else .ok⟩] := by
  have hcall : outStep t (.output p) s = some { s with
      pc := .copy (ethGetCurrentTxBuffer s.eth) p 0 p.flatten s.mem } := by
    simp only [outStep, hpc, if_pos hp]
  rw [callActs, List.cons_append, run_cons hcall, run_append_of _ (run_copy_chain rfl)]
  refine ⟨_, run_cons rfl, rfl, ?_⟩
  simp only [List.append_cancel_left_eq, List.cons.injEq, OutCall.mk.injEq, true_and, and_true]
  rcases ethTxPacket_cases (BitVec.ofNat 16 (0 + p.flatten.length)) s.eth with
    ⟨ho, he⟩ | ⟨hno, sr, pd, he⟩
  · rw [he, if_pos rfl, if_pos (show s.Full from ho)]
  · rw [he, if_neg (show ¬ ethSuccess = ethError by decide), if_neg (show ¬ s.Full from hno)]

end Steps

/-- **What is put on the wire.** In every run in which no call of `low_level_output`
finds the ring full, unless its bytes are in the buffer already, the frames on the
wire are the payloads of the calls that returned `ERR_OK`, in order, the ones still
missing lie in the ring, and a call that returns `ERR_MEM` has changed nothing. Any
other call, run next with nothing in between, returns `ERR_MEM` and changes the
buffer of a descriptor the DMA owns. -/
theorem output_integrity (t : DescTab) (txBuff : Nat) (e : EthTx) (mem : Nat → UInt8)
    {acts : List OutAct} {s : Sender}
    (hfree : Throughout (outStep t) RingFree acts (.init t txBuff e mem))
    (hrun : run (outStep t) acts (.init t txBuff e mem) = some s) :
    (∃ pending, accepted s.calls = s.wire ++ pending ∧ pending.length ≤ t.count ∧
      ((∀ i, i < t.count → ¬ (s.eth.desc (t.addr i)).Owned) → pending = [])) ∧
    (∀ s' buffer segs l payload before, s.pc = .copy buffer segs l payload before →
      outStep t .packet s = some s' → s'.calls = s.calls ++ [⟨payload, .mem⟩] →
      s'.mem = before) ∧
    ∀ p, s.pc = .idle → p.flatten.length ≤ frameMax → ¬ RingFree (.output p) s →
      ∃ s', run (outStep t) (callActs p) s = some s' ∧
        s'.calls = s.calls ++ [⟨p.flatten, .mem⟩] ∧ s.Full ∧
        get s'.mem (ethGetCurrentTxBuffer s.eth) p.flatten.length ≠
          get s.mem (ethGetCurrentTxBuffer s.eth) p.flatten.length := by
  have h : Sending t txBuff s :=
    run_inv (fun a _ _ h hc hs => h.step hc hs) (Sending.init t txBuff e mem) hfree hrun
  refine ⟨?_, ?_, ?_⟩
  · obtain ⟨pending, hp⟩ := h.wire
    have hlen := congrArg List.length hp
    rw [List.length_append] at hlen
    have hroom := h.ring.room
    refine ⟨pending, hp.symm, by omega, ?_⟩
    intro hnone
    by_contra hne
    have hpos := List.length_pos_iff.mpr hne
    have hcur := h.ring.current_owned.mpr (by omega)
    rw [h.ring.current] at hcur
    exact hnone _ (Nat.mod_lt _ t.pos) hcur
  · intro s' buffer segs l payload before hpc hs hcalls
    obtain ⟨_, _, payload', _, hpc', hcase⟩ := outStep_packet hs
    rw [hpc] at hpc'
    cases hpc'
    obtain ⟨-, -, -, -, -, hf, -⟩ : OutPc.Ok t txBuff s (.copy buffer [] l payload before) :=
      hpc ▸ h.call
    rcases hcase with ⟨hfull, rfl⟩ | ⟨_, e, _, _, rfl⟩
    · exact (hf hfull).1
    · simp at hcalls
  · intro p hidle hp hnot
    obtain ⟨hfull, hne⟩ := Classical.not_imp.mp hnot
    obtain ⟨s', hcall, hmem, hcalls⟩ := run_call hidle hp
    rw [if_pos hfull] at hcalls
    refine ⟨s', hcall, hcalls, hfull, ?_⟩
    rw [hmem, get_put]
    intro he
    exact hne he.symm

/-- A frame of one byte sent on this board. -/
theorem output_integrity_board : ∃ s pending,
    run (outStep boardTxTab)
      (callActs [[0x55]] ++ [.fetch 0, .close 0#32 default 0#32])
      (.init boardTxTab 0x20004000 blankEthTx fun _ => 0) = some s ∧
    accepted s.calls = s.wire ++ pending := by
  have hsome : (run (outStep boardTxTab)
      (callActs [[0x55]] ++ [.fetch 0, .close 0#32 default 0#32])
      (.init boardTxTab 0x20004000 blankEthTx fun _ => 0)).isSome = true := by decide +kernel
  obtain ⟨s, hs⟩ := Option.isSome_iff_exists.mp hsome
  obtain ⟨⟨pending, hp, _⟩, _⟩ :=
    output_integrity boardTxTab 0x20004000 blankEthTx (fun _ => 0) (by decide +kernel) hs
  exact ⟨s, pending, hs, hp⟩

/-- Five frames wait in the ring, the sixth call returns `ERR_MEM`, and its byte
goes out in place of the first frame. -/
theorem output_spoils_frame :
    (run (outStep boardTxTab)
      ([1, 2, 3, 4, 5, 9].flatMap (fun b => callActs [[b]]) ++ [.fetch 0, .close 0#32 default 0#32])
      (.init boardTxTab 0x20004000 blankEthTx fun _ => 0)).map
        (fun s => (s.calls.getLast?, s.wire, accepted s.calls)) =
      some (some ⟨[9], .mem⟩, [[9]], [[1], [2], [3], [4], [5]]) := by
  decide +kernel

end Generalplate.Ethernet
