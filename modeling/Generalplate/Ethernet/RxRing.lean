import Generalplate.Lib.ByteMem
import Generalplate.Ethernet.Desc

/-! # The receive ring

The DMA writes a frame to the buffer of its descriptor, writes the status back and
moves on; `ETH_Rx_Packet` takes the frame of `DMARxDescToGet` and moves on, and
`low_level_input` gives the descriptor back. Three counters describe the ring: the
frames received, those taken and those given back. -/
namespace Generalplate.Ethernet
open Lib.Ring Lib.ByteMem

/-- `ETH_DMARxDesc_FL`, `_ES`, `_FS`, `_LS`, `_RCH`, `_RBS1` and `_FrameLengthShift`. -/
def ethDmaRxDescFL : BitVec 32 := 0x3fff0000#32
def ethDmaRxDescES : BitVec 32 := 0x00008000#32
def ethDmaRxDescFS : BitVec 32 := 0x00000200#32
def ethDmaRxDescLS : BitVec 32 := 0x00000100#32
def ethDmaRxDescRCH : BitVec 32 := 0x00004000#32
def ethDmaRxDescRBS1 : BitVec 32 := 0x00001fff#32
def ethDmaRxDescFrameLengthShift : Nat := 16

/-- `ETH_DMASR_RBUS`. -/
def ethDmasrRBUS : BitVec 32 := 0x00000080#32

/-- The receive half of the driver: the descriptors by their addresses, the driver's
pointer, the list address the DMA starts from, the descriptor the DMA is at, and the
status and poll demand registers. -/
structure EthRx where
  desc : Nat → DmaDesc
  dmaRxDescToGet : Nat
  dmardlar : Nat
  dmachrdr : Nat
  dmasr : BitVec 32
  dmarpdr : BitVec 32

/-- `FrameTypeDef`. -/
structure FrameTypeDef where
  length : BitVec 32
  buffer : Nat
  descriptor : Nat
deriving DecidableEq

/-! ## The functions of the driver -/

def setStatus (desc : Nat → DmaDesc) (a : Nat) (w : BitVec 32) : Nat → DmaDesc :=
  Function.update desc a { desc a with status := w }

/-- `ETH_DMARxDescChainInit`. -/
def ethDmaRxDescChainInit (t : DescTab) (rxBuff : Nat) (s : EthRx) : EthRx :=
  { s with
    dmaRxDescToGet := t.base
    desc := t.fill (fun i d =>
      { d with
        status := dmaDescOwn
        controlBufferSize := ethDmaRxDescRCH ||| BitVec.ofNat 32 ethRxBufSize
        buffer1Addr := rxBuff + i * ethRxBufSize
        buffer2NextDescAddr := t.next i }) s.desc t.count
    dmardlar := t.base }

/-- `ETH_Start`: the DMA takes the list address. -/
def ethStartRx (s : EthRx) : EthRx := { s with dmachrdr := s.dmardlar }

/-- `ETH_GetDMARxDescFrameLength`. -/
def ethGetDmaRxDescFrameLength (w : BitVec 32) : BitVec 32 :=
  (w &&& ethDmaRxDescFL) >>> ethDmaRxDescFrameLengthShift

/-- `ETH_GetRxPktSize`. -/
def ethGetRxPktSize (d : DmaDesc) : BitVec 32 :=
  if d.status &&& dmaDescOwn = 0#32 ∧ d.status &&& ethDmaRxDescES = 0#32 ∧
      d.status &&& ethDmaRxDescLS ≠ 0#32 then
    ethGetDmaRxDescFrameLength d.status
  else 0#32

/-- Writing a one to a bit of DMASR clears it. -/
def resumeReception (s : EthRx) : EthRx :=
  if s.dmasr &&& ethDmasrRBUS ≠ 0#32 then
    { s with dmasr := s.dmasr &&& ~~~ethDmasrRBUS, dmarpdr := 0#32 }
  else s

/-- `ETH_Rx_Packet`. -/
def ethRxPacket (s : EthRx) : FrameTypeDef × EthRx :=
  let d := s.desc s.dmaRxDescToGet
  if d.Owned then (⟨BitVec.ofNat 32 ethError, 0, 0⟩, resumeReception s)
  else
    let frame : FrameTypeDef :=
      if d.status &&& ethDmaRxDescES = 0#32 ∧ d.status &&& ethDmaRxDescLS ≠ 0#32 ∧
          d.status &&& ethDmaRxDescFS ≠ 0#32 then
        ⟨ethGetDmaRxDescFrameLength d.status - 4#32, d.buffer1Addr, s.dmaRxDescToGet⟩
      else ⟨BitVec.ofNat 32 ethError, 0, s.dmaRxDescToGet⟩
    (frame, { s with dmaRxDescToGet := d.buffer2NextDescAddr })

/-- How `low_level_input` gives a descriptor back. -/
def giveBack (a : Nat) (s : EthRx) : EthRx :=
  resumeReception { s with desc := setStatus s.desc a dmaDescOwn }

/-- The bytes the DMA may write to a buffer. -/
def DmaDesc.bufferSize (d : DmaDesc) : Nat := (d.controlBufferSize &&& ethDmaRxDescRBS1).toNat

/-- The DMA gives its descriptor back, moves along the link and leaves `sr` in its
status register. -/
def dmaRxClose (w : BitVec 32) (x : ExtWords) (sr : BitVec 32) (s : EthRx) : EthRx :=
  let d := s.desc s.dmachrdr
  { s with
    desc := Function.update s.desc s.dmachrdr (d.writeBack w x)
    dmachrdr := d.buffer2NextDescAddr
    dmasr := sr }

/-- A descriptor the DMA has written back, with the bytes of its buffer. -/
structure RxFrame where
  status : BitVec 32
  bytes : List UInt8

/-- `ETH_GetRxPktSize` sees the frame. -/
def RxFrame.Passes (f : RxFrame) : Prop :=
  f.status &&& ethDmaRxDescES = 0#32 ∧ f.status &&& ethDmaRxDescLS ≠ 0#32 ∧
    ethGetDmaRxDescFrameLength f.status ≠ 0#32

/-! ## The counters -/

section Status
variable {desc : Nat → DmaDesc} {a b : Nat} {w : BitVec 32}

@[simp] theorem setStatus_self : (setStatus desc a w a).status = w := by
  rw [setStatus, Function.update_self]

theorem setStatus_of_ne (h : b ≠ a) : setStatus desc a w b = desc b :=
  Function.update_of_ne h _ _

/-- What a descriptor that is rewritten keeps, all descriptors keep. -/
theorem update_keeps {β : Type*} (f : DmaDesc → β) {d : DmaDesc} (hd : f d = f (desc a)) (b : Nat) :
    f (Function.update desc a d b) = f (desc b) := by
  by_cases h : b = a
  · rw [h, Function.update_self, hd]
  · rw [Function.update_of_ne h]

theorem setStatus_owned_self : (setStatus desc a w a).Owned ↔ w &&& dmaDescOwn ≠ 0#32 := by
  rw [DmaDesc.Owned, setStatus_self]

theorem ethGetRxPktSize_ne_iff (d : DmaDesc) (bytes : List UInt8) :
    ethGetRxPktSize d ≠ 0#32 ↔ ¬ d.Owned ∧ RxFrame.Passes ⟨d.status, bytes⟩ := by
  rw [ethGetRxPktSize, DmaDesc.Owned, not_not]
  split
  · rename_i h
    exact ⟨fun hne => ⟨h.1, h.2.1, h.2.2, hne⟩, fun hp => hp.2.2.2⟩
  · rename_i h
    exact ⟨fun hne => absurd rfl hne, fun hp => absurd ⟨hp.1, hp.2.1, hp.2.2.1⟩ h⟩

end Status

/-- `received` is what the DMA has written back; `ETH_Rx_Packet` has taken `got` of
it and `released` descriptors are given back. The DMA owns all but the window in
between, which holds what was received. -/
structure RxInv (t : DescTab) (rxBuff : Nat) (e : EthRx) (mem : Nat → UInt8)
    (received : List RxFrame) (got released : Nat) : Prop where
  le : released ≤ got
  taken : got ≤ received.length
  room : received.length ≤ released + t.count
  toGet : e.dmaRxDescToGet = t.addr (got % t.count)
  current : e.dmachrdr = t.addr (received.length % t.count)
  link : ∀ i, i < t.count → (e.desc (t.addr i)).buffer2NextDescAddr = t.addr ((i + 1) % t.count)
  buffer : ∀ i, i < t.count → (e.desc (t.addr i)).buffer1Addr = rxBuff + i * ethRxBufSize
  size : ∀ i, i < t.count → (e.desc (t.addr i)).bufferSize = ethRxBufSize
  owned : ∀ i, i < t.count →
    ((e.desc (t.addr i)).Owned ↔ ¬ Window t.count released received.length i)
  waits : ∀ k f, released ≤ k → received[k]? = some f →
    (e.desc (t.addr (k % t.count))).status = f.status ∧
      get mem (rxBuff + k % t.count * ethRxBufSize) ethRxBufSize = f.bytes
  passed : ∀ k f, k < got → received[k]? = some f → f.Passes

section Steps
variable {t : DescTab} {rxBuff : Nat} {e : EthRx} {mem : Nat → UInt8} {received : List RxFrame}
  {got released : Nat}

theorem RxInv.init (t : DescTab) (rxBuff : Nat) (e : EthRx) (mem : Nat → UInt8) :
    RxInv t rxBuff (ethStartRx (ethDmaRxDescChainInit t rxBuff e)) mem [] 0 0 where
  le := Nat.le_refl _
  taken := Nat.le_refl _
  room := Nat.zero_le _
  toGet := by simp [ethStartRx, ethDmaRxDescChainInit, DescTab.addr]
  current := by simp [ethStartRx, ethDmaRxDescChainInit, DescTab.addr]
  link i hi := by
    simp only [ethStartRx, ethDmaRxDescChainInit, t.fill_in _ _ hi]
    exact t.next_eq hi
  buffer i hi := by
    simp only [ethStartRx, ethDmaRxDescChainInit, t.fill_in _ _ hi]
  size i hi := by
    have hsize : ((ethDmaRxDescRCH ||| BitVec.ofNat 32 ethRxBufSize) &&& ethDmaRxDescRBS1).toNat =
        ethRxBufSize := by decide
    simp only [ethStartRx, ethDmaRxDescChainInit, t.fill_in _ _ hi]
    exact hsize
  owned i hi := by
    simp only [ethStartRx, ethDmaRxDescChainInit, t.fill_in _ _ hi]
    exact iff_of_true (show dmaDescOwn &&& dmaDescOwn ≠ 0#32 by decide) window_empty
  waits k f _ hk := by cases hk
  passed k f _ hk := by cases hk

/-- The DMA owns its descriptor as long as there is room. -/
theorem RxInv.current_owned (h : RxInv t rxBuff e mem received got released) :
    (e.desc e.dmachrdr).Owned ↔ received.length < released + t.count := by
  rw [h.current, h.owned _ (Nat.mod_lt _ t.pos), window_next_iff t.pos h.room]
  have hroom := h.room
  omega

/-- With no frame in hand, the DMA owns the head of the ring when all frames are
taken. -/
theorem RxInv.head_owned (h : RxInv t rxBuff e mem received got got) :
    (e.desc e.dmaRxDescToGet).Owned ↔ got = received.length := by
  have htaken := h.taken
  have hroom := h.room
  have hpos := t.pos
  rw [h.toGet, h.owned _ (Nat.mod_lt _ t.pos)]
  constructor
  · intro hnot
    by_contra hne
    exact hnot (window_oldest (by omega))
  · rintro rfl
    exact window_empty

/-- The head of the ring is the next frame to take. -/
theorem RxInv.head (h : RxInv t rxBuff e mem received got released) {f : RxFrame}
    (hf : received[got]? = some f) : (e.desc e.dmaRxDescToGet).status = f.status := by
  rw [h.toGet]
  exact (h.waits _ _ h.le hf).1

/-- While there is room, the DMA's descriptor holds no frame that waits. -/
theorem waiting_slot_ne (hroom : received.length < released + t.count) {k : Nat} {f : RxFrame}
    (hk : released ≤ k) (hf : received[k]? = some f) : k % t.count ≠ received.length % t.count := by
  obtain ⟨hlt, -⟩ := List.getElem?_eq_some_iff.mp hf
  intro he
  have := eq_of_mod_eq (Nat.le_of_lt hlt) (by omega) he
  omega

/-- What the DMA writes to the buffer it owns leaves the frames that wait. -/
theorem RxInv.store (h : RxInv t rxBuff e mem received got released)
    (ho : (e.desc e.dmachrdr).Owned) {i : Nat} (hi : i < (e.desc e.dmachrdr).bufferSize)
    (b : UInt8) :
    RxInv t rxBuff e (Function.update mem ((e.desc e.dmachrdr).buffer1Addr + i) b) received got
      released := by
  have hmod := Nat.mod_lt received.length t.pos
  have hroom := h.current_owned.mp ho
  rw [h.current, h.size _ hmod] at hi
  refine ⟨h.le, h.taken, h.room, h.toGet, h.current, h.link, h.buffer, h.size, h.owned, ?_,
    h.passed⟩
  intro k f hk hf
  obtain ⟨hstatus, hbytes⟩ := h.waits k f hk hf
  have hne := waiting_slot_ne hroom hk hf
  refine ⟨hstatus, ?_⟩
  rw [h.current, h.buffer _ hmod, get_update_out, hbytes]
  simp only [ethRxBufSize] at hi ⊢
  omega

/-- The DMA writes a frame back. -/
theorem RxInv.close (h : RxInv t rxBuff e mem received got released)
    (ho : (e.desc e.dmachrdr).Owned) (w : BitVec 32) (x : ExtWords) (sr : BitVec 32) :
    RxInv t rxBuff (dmaRxClose w x sr e) mem
      (received ++ [⟨w &&& ~~~dmaDescOwn,
        get mem (e.desc e.dmachrdr).buffer1Addr ethRxBufSize⟩]) got released := by
  have hmod := Nat.mod_lt received.length t.pos
  have hroom := h.current_owned.mp ho
  have htaken := h.taken
  have hle := h.le
  have hlen : (received ++ [(⟨w &&& ~~~dmaDescOwn,
      get mem (e.desc e.dmachrdr).buffer1Addr ethRxBufSize⟩ : RxFrame)]).length =
      received.length + 1 := List.length_append
  refine ⟨hle, by omega, by omega, h.toGet, ?_, ?_, ?_, ?_, ?_, ?_, ?_⟩
  · rw [hlen]
    simp only [dmaRxClose, h.current, h.link _ hmod, Nat.mod_add_mod]
  · intro i hi
    exact (update_keeps DmaDesc.buffer2NextDescAddr (by rfl) _).trans (h.link i hi)
  · intro i hi
    exact (update_keeps DmaDesc.buffer1Addr (by rfl) _).trans (h.buffer i hi)
  · intro i hi
    exact (update_keeps DmaDesc.bufferSize (by rfl) _).trans (h.size i hi)
  · intro i hi
    rw [hlen, window_push (by omega)]
    simp only [dmaRxClose, h.current]
    by_cases hin : received.length % t.count = i
    · subst hin
      rw [Function.update_self]
      simp [DmaDesc.not_owned_writeBack]
    · have hne : t.addr i ≠ t.addr (received.length % t.count) := fun ha =>
        hin (t.addr_inj.mp ha).symm
      rw [Function.update_of_ne hne, h.owned i hi]
      simp [hin]
  · intro k f hk hf
    rw [List.getElem?_append] at hf
    split at hf
    · obtain ⟨hstatus, hbytes⟩ := h.waits k f hk hf
      have hne : t.addr (k % t.count) ≠ e.dmachrdr := by
        rw [h.current, ne_eq, t.addr_inj]
        exact waiting_slot_ne hroom hk hf
      refine ⟨?_, hbytes⟩
      simp only [dmaRxClose, Function.update_of_ne hne, hstatus]
    · rename_i hge
      have hk' : k = received.length := by
        obtain ⟨hlt, -⟩ := List.getElem?_eq_some_iff.mp hf
        rw [List.length_singleton] at hlt
        omega
      subst hk'
      rw [Nat.sub_self] at hf
      cases hf
      refine ⟨?_, ?_⟩
      · simp only [dmaRxClose, h.current, Function.update_self, DmaDesc.writeBack]
      · rw [h.current, h.buffer _ hmod]
  · intro k f hk hf
    rw [List.getElem?_append_left (by omega)] at hf
    exact h.passed k f hk hf

/-- What a write to the registers leaves. -/
theorem RxInv.registers (h : RxInv t rxBuff e mem received got released) {e' : EthRx}
    (hdesc : e'.desc = e.desc) (hget : e'.dmaRxDescToGet = e.dmaRxDescToGet)
    (hcur : e'.dmachrdr = e.dmachrdr) : RxInv t rxBuff e' mem received got released :=
  ⟨h.le, h.taken, h.room, hget.trans h.toGet, hcur.trans h.current, hdesc ▸ h.link,
    hdesc ▸ h.buffer, hdesc ▸ h.size, hdesc ▸ h.owned, hdesc ▸ h.waits, h.passed⟩

theorem resumeReception_frame (e : EthRx) :
    (resumeReception e).desc = e.desc ∧ (resumeReception e).dmaRxDescToGet = e.dmaRxDescToGet ∧
      (resumeReception e).dmachrdr = e.dmachrdr := by
  rw [resumeReception]
  split <;> exact ⟨rfl, rfl, rfl⟩

/-- The guard of the interrupt handler sees the next frame if there is one that
passes. -/
theorem RxInv.size_ne_iff (h : RxInv t rxBuff e mem received got got) :
    ethGetRxPktSize (e.desc e.dmaRxDescToGet) ≠ 0#32 ↔
      ∃ f, received[got]? = some f ∧ f.Passes := by
  have htaken := h.taken
  constructor
  · intro hsize
    obtain ⟨hno, -⟩ := (ethGetRxPktSize_ne_iff _ []).mp hsize
    have hlt : got < received.length := by
      have hne : got ≠ received.length := fun he => hno (h.head_owned.mpr he)
      omega
    have hf := List.getElem?_eq_getElem hlt
    obtain ⟨-, hpass⟩ := (ethGetRxPktSize_ne_iff _ received[got].bytes).mp hsize
    rw [h.head hf] at hpass
    exact ⟨received[got], hf, hpass⟩
  · rintro ⟨f, hf, hpass⟩
    refine (ethGetRxPktSize_ne_iff _ f.bytes).mpr ⟨?_, by rwa [h.head hf]⟩
    intro ho
    obtain ⟨hlt, -⟩ := List.getElem?_eq_some_iff.mp hf
    rw [h.head_owned] at ho
    omega

/-- A frame that waits is not the DMA's. -/
theorem RxInv.head_not_owned (h : RxInv t rxBuff e mem received got got) {f : RxFrame}
    (hf : received[got]? = some f) : ¬ (e.desc e.dmaRxDescToGet).Owned := by
  obtain ⟨hlt, -⟩ := List.getElem?_eq_some_iff.mp hf
  rw [h.head_owned]
  omega

/-- `ETH_Rx_Packet` on a frame that the guard has seen. -/
theorem RxInv.take (h : RxInv t rxBuff e mem received got got) {f : RxFrame}
    (hf : received[got]? = some f) (hpass : f.Passes) :
    (ethRxPacket e).1.descriptor = t.addr (got % t.count) ∧
      RxInv t rxBuff (ethRxPacket e).2 mem received (got + 1) got := by
  have hno := h.head_not_owned hf
  obtain ⟨hlt, -⟩ := List.getElem?_eq_some_iff.mp hf
  rw [ethRxPacket, if_neg hno]
  refine ⟨?_, ?_⟩
  · rw [← h.toGet]
    split <;> rfl
  · refine ⟨Nat.le_succ _, hlt, h.room, ?_, h.current, h.link, h.buffer, h.size, h.owned,
      h.waits, ?_⟩
    · simp only [h.toGet, h.link _ (Nat.mod_lt got t.pos), Nat.mod_add_mod]
    · intro k g hk hg
      by_cases he : k = got
      · subst he
        rw [hf] at hg
        cases hg
        exact hpass
      · exact h.passed k g (by omega) hg

/-- The descriptor of the frame in hand goes back to the DMA. -/
theorem RxInv.giveBack (h : RxInv t rxBuff e mem received (released + 1) released) :
    RxInv t rxBuff (giveBack (t.addr (released % t.count)) e) mem received (released + 1)
      (released + 1) := by
  obtain ⟨hdesc, hget, hcur⟩ := resumeReception_frame
    { e with desc := setStatus e.desc (t.addr (released % t.count)) dmaDescOwn }
  have htaken := h.taken
  have hroom := h.room
  suffices hset : RxInv t rxBuff
      { e with desc := setStatus e.desc (t.addr (released % t.count)) dmaDescOwn } mem received
      (released + 1) (released + 1) from hset.registers hdesc hget hcur
  refine ⟨Nat.le_refl _, htaken, by omega, h.toGet, h.current, ?_, ?_, ?_, ?_, ?_, h.passed⟩
  · intro i hi
    exact (update_keeps DmaDesc.buffer2NextDescAddr (by rfl) _).trans (h.link i hi)
  · intro i hi
    exact (update_keeps DmaDesc.buffer1Addr (by rfl) _).trans (h.buffer i hi)
  · intro i hi
    exact (update_keeps DmaDesc.bufferSize (by rfl) _).trans (h.size i hi)
  · intro i hi
    rw [window_pop hroom]
    by_cases hin : i = released % t.count
    · subst hin
      rw [setStatus_owned_self]
      exact iff_of_true (by decide) (fun hc => hc.1 rfl)
    · have hne : t.addr i ≠ t.addr (released % t.count) := fun ha => hin (t.addr_inj.mp ha)
      simp only [setStatus_of_ne hne, h.owned i hi, ne_eq, hin, not_false_eq_true, true_and]
  · intro k f hk hf
    obtain ⟨hlt, -⟩ := List.getElem?_eq_some_iff.mp hf
    have hne : t.addr (k % t.count) ≠ t.addr (released % t.count) := by
      intro ha
      have := eq_of_mod_eq (by omega) (by omega) (t.addr_inj.mp ha).symm
      omega
    simpa only [setStatus_of_ne hne] using h.waits k f (by omega) hf

end Steps

end Generalplate.Ethernet
