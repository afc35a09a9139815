import Generalplate.Ethernet.Desc

/-! # The transmit ring

`ETH_Tx_Packet` hands the descriptor `DMATxDescToSet` to the DMA and moves to
the next one; the DMA gives its descriptors back in ring order. There are no
head or tail counters: a full and an empty ring differ only in their OWN bits.
`TxReach` is every interleaving of calls and of steps of the DMA, counting the
packets accepted and the descriptors given back. -/
namespace Generalplate.Ethernet
open Lib.Ring

/-- `ETH_DMATxDesc_LS`, `_FS`, `_TCH`, `_TBS1` and `_ChecksumTCPUDPICMPFull`. -/
def ethDmaTxDescLS : BitVec 32 := 0x20000000#32
def ethDmaTxDescFS : BitVec 32 := 0x10000000#32
def ethDmaTxDescTCH : BitVec 32 := 0x00100000#32
def ethDmaTxDescTBS1 : BitVec 32 := 0x00001fff#32
def ethDmaTxDescChecksumFull : BitVec 32 := 0x00c00000#32

/-- `ETH_DMASR_TBUS`. -/
def ethDmasrTBUS : BitVec 32 := 0x00000004#32

/-- The transmit half of the driver: the descriptors by their addresses, the
driver's pointer, the list address the DMA starts from, the descriptor the DMA
is at, and the status and poll demand registers. -/
structure EthTx where
  desc : Nat → DmaDesc
  dmaTxDescToSet : Nat
  dmatdlar : Nat
  dmachtdr : Nat
  dmasr : BitVec 32
  dmatpdr : BitVec 32

/-! ## The functions of the driver -/

/-- `ETH_DMATxDescChainInit`; `ControlBufferSize` keeps what it was. -/
def ethDmaTxDescChainInit (t : DescTab) (txBuff : Nat) (s : EthTx) : EthTx :=
  { s with
    dmaTxDescToSet := t.base
    desc := t.fill (fun i d =>
      { d with
        status := ethDmaTxDescTCH
        buffer1Addr := txBuff + i * ethTxBufSize
        buffer2NextDescAddr := t.next i }) s.desc t.count
    dmatdlar := t.base }

/-- `ETH_DMATxDescChecksumInsertionConfig`. -/
def ethDmaTxDescChecksumInsertionConfig (a : Nat) (checksum : BitVec 32) (s : EthTx) : EthTx :=
  let d := s.desc a
  { s with desc := Function.update s.desc a { d with status := d.status ||| checksum } }

/-- `ETH_Start`: the DMA takes the list address. -/
def ethStart (s : EthTx) : EthTx := { s with dmachtdr := s.dmatdlar }

/-- The three stores of `ETH_Tx_Packet`: the length, the first and last segment
bits, and last of all the OWN bit. -/
def DmaDesc.handOver (frameLength : BitVec 16) (d : DmaDesc) : DmaDesc :=
  let d := { d with controlBufferSize := frameLength.setWidth 32 &&& ethDmaTxDescTBS1 }
  let d := { d with status := d.status ||| (ethDmaTxDescLS ||| ethDmaTxDescFS) }
  { d with status := d.status ||| dmaDescOwn }

/-- Writing a one to a bit of DMASR clears it. -/
def ethTxPacket (frameLength : BitVec 16) (s : EthTx) : Nat × EthTx :=
  let d := s.desc s.dmaTxDescToSet
  if d.Owned then (ethError, s)
  else
    let d := d.handOver frameLength
    let s := { s with desc := Function.update s.desc s.dmaTxDescToSet d }
    let s := if s.dmasr &&& ethDmasrTBUS ≠ 0#32 then
      { s with dmasr := s.dmasr &&& ~~~ethDmasrTBUS, dmatpdr := 0#32 } else s
    (ethSuccess, { s with dmaTxDescToSet := d.buffer2NextDescAddr })

def ethGetCurrentTxBuffer (s : EthTx) : Nat := (s.desc s.dmaTxDescToSet).buffer1Addr

/-- The DMA gives its descriptor back, moves along the link and leaves `sr` in its
status register. -/
def dmaTxClose (w : BitVec 32) (x : ExtWords) (sr : BitVec 32) (s : EthTx) : EthTx :=
  let d := s.desc s.dmachtdr
  { s with
    desc := Function.update s.desc s.dmachtdr (d.writeBack w x)
    dmachtdr := d.buffer2NextDescAddr
    dmasr := sr }

/-- The states a run reaches, with the number of packets `ETH_Tx_Packet` took
and the number of descriptors the DMA gave back. -/
inductive TxReach (t : DescTab) (txBuff : Nat) : EthTx → Nat → Nat → Prop
  | init (s : EthTx) : TxReach t txBuff (ethStart (ethDmaTxDescChainInit t txBuff s)) 0 0
  | checksum {s : EthTx} {sent closed i : Nat} : TxReach t txBuff s sent closed → i < t.count →
      TxReach t txBuff (ethDmaTxDescChecksumInsertionConfig (t.addr i) ethDmaTxDescChecksumFull s)
        sent closed
  | signal {s : EthTx} {sent closed : Nat} (sr : BitVec 32) : TxReach t txBuff s sent closed →
      TxReach t txBuff { s with dmasr := sr } sent closed
  | close {s : EthTx} {sent closed : Nat} (w : BitVec 32) (x : ExtWords) (sr : BitVec 32) :
      TxReach t txBuff s sent closed → (s.desc s.dmachtdr).Owned →
      TxReach t txBuff (dmaTxClose w x sr s) sent (closed + 1)
  | packet {s : EthTx} {sent closed : Nat} (frameLength : BitVec 16) :
      TxReach t txBuff s sent closed →
      TxReach t txBuff (ethTxPacket frameLength s).2
        (if (ethTxPacket frameLength s).1 = ethSuccess then sent + 1 else sent) closed

/-! ## The window invariant -/

/-- The two pointers stand at the counters, the links close the ring, and the
DMA owns the window between the counters. -/
structure TxInv (t : DescTab) (txBuff : Nat) (s : EthTx) (sent closed : Nat) : Prop where
  le : closed ≤ sent
  room : sent ≤ closed + t.count
  toSet : s.dmaTxDescToSet = t.addr (sent % t.count)
  current : s.dmachtdr = t.addr (closed % t.count)
  link : ∀ i, i < t.count → (s.desc (t.addr i)).buffer2NextDescAddr = t.addr ((i + 1) % t.count)
  buffer : ∀ i, i < t.count → (s.desc (t.addr i)).buffer1Addr = txBuff + i * ethTxBufSize
  owned : ∀ i, i < t.count → ((s.desc (t.addr i)).Owned ↔ Window t.count closed sent i)

section Steps
variable {t : DescTab} {txBuff : Nat} {s : EthTx} {sent closed : Nat}

theorem TxInv.init (t : DescTab) (txBuff : Nat) (s : EthTx) :
    TxInv t txBuff (ethStart (ethDmaTxDescChainInit t txBuff s)) 0 0 where
  le := Nat.le_refl _
  room := Nat.zero_le _
  toSet := by simp [ethStart, ethDmaTxDescChainInit, DescTab.addr]
  current := by simp [ethStart, ethDmaTxDescChainInit, DescTab.addr]
  link i hi := by
    simp only [ethStart, ethDmaTxDescChainInit, t.fill_in _ _ hi]
    exact t.next_eq hi
  buffer i hi := by
    simp only [ethStart, ethDmaTxDescChainInit, t.fill_in _ _ hi]
  owned i hi := by
    simp only [ethStart, ethDmaTxDescChainInit, t.fill_in _ _ hi]
    exact iff_of_false (show ¬ ethDmaTxDescTCH &&& dmaDescOwn ≠ 0#32 by decide) window_empty

/-- A descriptor that is rewritten keeps its links and its buffer; who owns the
table is then a matter of that descriptor's OWN bit alone. -/
theorem TxInv.rewrite (h : TxInv t txBuff s sent closed) {i : Nat} (hi : i < t.count) {d : DmaDesc}
    (hlink : d.buffer2NextDescAddr = (s.desc (t.addr i)).buffer2NextDescAddr)
    (hbuf : d.buffer1Addr = (s.desc (t.addr i)).buffer1Addr) :
    ∀ j, j < t.count →
      let desc := Function.update s.desc (t.addr i) d
      (desc (t.addr j)).buffer2NextDescAddr = t.addr ((j + 1) % t.count) ∧
      (desc (t.addr j)).buffer1Addr = txBuff + j * ethTxBufSize ∧
      ((desc (t.addr j)).Owned ↔ (j = i ∧ d.Owned) ∨ (j ≠ i ∧ Window t.count closed sent j)) := by
  intro j hj
  by_cases hji : j = i
  · subst hji
    simp only [Function.update_self]
    exact ⟨hlink.trans (h.link j hj), hbuf.trans (h.buffer j hj), by simp⟩
  · have hne : t.addr j ≠ t.addr i := fun he => hji (t.addr_inj.mp he)
    simp only [Function.update_of_ne hne]
    exact ⟨h.link j hj, h.buffer j hj, by simpa [hji] using h.owned j hj⟩

/-- Rewriting a descriptor without its OWN bit keeps the invariant. -/
theorem TxInv.keep (h : TxInv t txBuff s sent closed) {i : Nat} (hi : i < t.count) {d : DmaDesc}
    (hlink : d.buffer2NextDescAddr = (s.desc (t.addr i)).buffer2NextDescAddr)
    (hbuf : d.buffer1Addr = (s.desc (t.addr i)).buffer1Addr)
    (hown : d.Owned ↔ (s.desc (t.addr i)).Owned) :
    TxInv t txBuff { s with desc := Function.update s.desc (t.addr i) d } sent closed where
  le := h.le
  room := h.room
  toSet := h.toSet
  current := h.current
  link j hj := (h.rewrite hi hlink hbuf j hj).1
  buffer j hj := (h.rewrite hi hlink hbuf j hj).2.1
  owned j hj := by
    rw [(h.rewrite hi hlink hbuf j hj).2.2, hown, h.owned i hi]
    by_cases hji : j = i
    · simp [hji]
    · simp [hji]

theorem owned_or {w c : BitVec 32} (hc : c &&& dmaDescOwn = 0#32) :
    (w ||| c) &&& dmaDescOwn = w &&& dmaDescOwn := by
  rw [BitVec.and_or_distrib_right, hc, BitVec.or_zero]

theorem TxInv.checksum (h : TxInv t txBuff s sent closed) {i : Nat} (hi : i < t.count) :
    TxInv t txBuff
      (ethDmaTxDescChecksumInsertionConfig (t.addr i) ethDmaTxDescChecksumFull s) sent closed := by
  refine h.keep hi (d := { s.desc (t.addr i) with status := _ }) rfl rfl ?_
  have hc : ethDmaTxDescChecksumFull &&& dmaDescOwn = 0#32 := by decide
  simp only [DmaDesc.Owned, owned_or hc]

theorem TxInv.current_owned (h : TxInv t txBuff s sent closed) :
    (s.desc s.dmachtdr).Owned ↔ closed < sent := by
  rw [h.current, h.owned _ (Nat.mod_lt _ t.pos)]
  constructor
  · rintro ⟨j, hlo, hhi, _⟩
    omega
  · exact window_oldest

/-- Giving the oldest descriptor back takes it out of the window. -/
theorem TxInv.close (h : TxInv t txBuff s sent closed) (w : BitVec 32) (x : ExtWords)
    (sr : BitVec 32) (ho : (s.desc s.dmachtdr).Owned) :
    TxInv t txBuff (dmaTxClose w x sr s) sent (closed + 1) := by
  have hlt := h.current_owned.mp ho
  have hi := Nat.mod_lt closed t.pos
  have hnot := (s.desc (t.addr (closed % t.count))).not_owned_writeBack w x
  have hall := h.rewrite hi (d := (s.desc (t.addr (closed % t.count))).writeBack w x) rfl rfl
  refine ⟨hlt, ?_, h.toSet, ?_, ?_, ?_, ?_⟩
  · have := h.room
    omega
  · simp only [dmaTxClose, h.current, h.link _ hi, Nat.mod_add_mod]
  · intro j hj
    simp only [dmaTxClose, h.current]
    exact (hall j hj).1
  · intro j hj
    simp only [dmaTxClose, h.current]
    exact (hall j hj).2.1
  · intro j hj
    simp only [dmaTxClose, h.current]
    rw [(hall j hj).2.2, window_pop h.room]
    simp [hnot]

@[simp] theorem handOver_owned (frameLength : BitVec 16) (d : DmaDesc) :
    (d.handOver frameLength).Owned := own_or _

/-- What `ETH_Tx_Packet` can do: nothing at all, or hand its descriptor over. -/
theorem ethTxPacket_cases (frameLength : BitVec 16) (s : EthTx) :
    ((s.desc s.dmaTxDescToSet).Owned ∧ ethTxPacket frameLength s = (ethError, s)) ∨
    (¬ (s.desc s.dmaTxDescToSet).Owned ∧ ∃ sr pd, ethTxPacket frameLength s = (ethSuccess,
      { s with
        desc := Function.update s.desc s.dmaTxDescToSet
          ((s.desc s.dmaTxDescToSet).handOver frameLength)
        dmaTxDescToSet := (s.desc s.dmaTxDescToSet).buffer2NextDescAddr
        dmasr := sr
        dmatpdr := pd })) := by
  by_cases ho : (s.desc s.dmaTxDescToSet).Owned
  · refine Or.inl ⟨ho, ?_⟩
    rw [ethTxPacket, if_pos ho]
  · refine Or.inr ⟨ho, ?_⟩
    by_cases ht : s.dmasr &&& ethDmasrTBUS ≠ 0#32
    · refine ⟨s.dmasr &&& ~~~ethDmasrTBUS, 0#32, ?_⟩
      simp only [ethTxPacket, if_neg ho, if_pos ht]
      rfl
    · refine ⟨s.dmasr, s.dmatpdr, ?_⟩
      simp only [ethTxPacket, if_neg ho, if_neg ht]
      rfl

theorem TxInv.packet (h : TxInv t txBuff s sent closed) (frameLength : BitVec 16) :
    TxInv t txBuff (ethTxPacket frameLength s).2
      (if (ethTxPacket frameLength s).1 = ethSuccess then sent + 1 else sent) closed := by
  have hi := Nat.mod_lt sent t.pos
  rcases ethTxPacket_cases frameLength s with ⟨_, he⟩ | ⟨hno, sr, pd, he⟩
  · rw [he]
    exact h
  · have hnw : sent ≠ closed + t.count := by
      intro hfull
      refine hno ?_
      rw [h.toSet, h.owned _ hi]
      exact (window_next_iff t.pos h.room).mpr hfull
    have hall := h.rewrite hi (d := (s.desc (t.addr (sent % t.count))).handOver frameLength) rfl rfl
    have hle := h.le
    have hroom := h.room
    rw [he]
    refine ⟨Nat.le_succ_of_le hle, by simp; omega, ?_, h.current, ?_, ?_, ?_⟩
    · simp only [h.toSet, h.link _ hi, Nat.mod_add_mod, if_true]
    · intro j hj
      simp only [h.toSet]
      exact (hall j hj).1
    · intro j hj
      simp only [h.toSet]
      exact (hall j hj).2.1
    · intro j hj
      simp only [h.toSet, if_true]
      rw [(hall j hj).2.2, window_push hle]
      by_cases hji : sent % t.count = j
      · simp [hji]
      · have hij : j ≠ sent % t.count := fun he => hji he.symm
        simp [hji, hij]

theorem TxReach.inv (h : TxReach t txBuff s sent closed) : TxInv t txBuff s sent closed := by
  induction h with
  | init s => exact TxInv.init t txBuff s
  | checksum _ hi ih => exact ih.checksum hi
  | signal sr _ ih => exact ⟨ih.le, ih.room, ih.toSet, ih.current, ih.link, ih.buffer, ih.owned⟩
  | close w x sr _ ho ih => exact ih.close w x sr ho
  | packet frameLength _ ih => exact ih.packet frameLength

end Steps

/-- **Ownership of the transmit ring.** In every interleaving `DMATxDescToSet`
stands at the number of packets taken, the DMA owns the descriptors right before
it, and `ETH_Tx_Packet` fails, without changing anything, just when the DMA owns
them all. -/
theorem txReach_ownership {t : DescTab} {txBuff : Nat} {s : EthTx} {sent closed : Nat}
    (h : TxReach t txBuff s sent closed) :
    s.dmaTxDescToSet = t.addr (sent % t.count) ∧
    (∃ k, k ≤ t.count ∧ k + closed = sent ∧ ∀ i, i < t.count →
      ((s.desc (t.addr i)).Owned ↔ ∃ j, j < k ∧ (i + 1 + j) % t.count = sent % t.count)) ∧
    ∀ frameLength,
      ((ethTxPacket frameLength s).1 = ethError ↔
        ∀ i, i < t.count → (s.desc (t.addr i)).Owned) ∧
      ((ethTxPacket frameLength s).1 = ethError → (ethTxPacket frameLength s).2 = s) := by
  have hi := h.inv
  have hle := hi.le
  have hroom := hi.room
  refine ⟨hi.toSet, ⟨sent - closed, by omega, by omega, fun i hlt => ?_⟩, fun frameLength => ?_⟩
  · rw [hi.owned i hlt, window_iff_before hle hlt]
  · have hfull : (s.desc s.dmaTxDescToSet).Owned ↔
        ∀ i, i < t.count → (s.desc (t.addr i)).Owned := by
      rw [hi.toSet, hi.owned _ (Nat.mod_lt _ t.pos), window_next_iff t.pos hroom,
        ← window_full_iff t.pos hroom]
      exact forall₂_congr fun i hlt => (hi.owned i hlt).symm
    rw [← hfull]
    rcases ethTxPacket_cases frameLength s with ⟨ho, he⟩ | ⟨hno, sr, pd, he⟩
    · rw [he]
      exact ⟨iff_of_true rfl ho, fun _ => rfl⟩
    · rw [he]
      have hc : ¬ ethSuccess = ethError := by decide
      exact ⟨iff_of_false hc hno, fun h => absurd h hc⟩

/-- The table of this board at an address of the internal bank. -/
def boardTxTab : DescTab := ⟨0x20003000, ethTxbufnb, by decide, by decide⟩

def blankEthTx : EthTx := ⟨fun _ => default, 0, 0, 0, 0#32, 0#32⟩

/-- One packet sent and given back: the driver stands at the second descriptor. -/
theorem txReach_ownership_board :
    (dmaTxClose 0#32 default 0#32 (ethTxPacket 60#16
      (ethStart (ethDmaTxDescChainInit boardTxTab 0x20004000 blankEthTx))).2).dmaTxDescToSet =
      boardTxTab.addr 1 :=
  (txReach_ownership (TxReach.close 0#32 default 0#32
    (TxReach.packet 60#16 (@TxReach.init _ 0x20004000 blankEthTx)) (by decide +kernel))).1

end Generalplate.Ethernet
