import Mathlib.Logic.Function.Basic
import Generalplate.Lib.Ring

/-! # DMA descriptors of the Ethernet MAC

A descriptor is eight 32-bit words, as the board uses the enhanced descriptors. The
driver keeps a table of them and links each to the next and the last to the first; the
DMA and the driver each follow the links with a pointer of their own. The OWN bit says
which of the two a descriptor belongs to. -/
namespace Generalplate.Ethernet
open Lib.Ring

/-- `ETH_RXBUFNB`, `ETH_TXBUFNB`, `ETH_RX_BUF_SIZE`, `ETH_TX_BUF_SIZE`. -/
def ethRxbufnb : Nat := 5
def ethTxbufnb : Nat := 5
def ethRxBufSize : Nat := 1524
def ethTxBufSize : Nat := 1524

/-- `sizeof(ETH_DMADESCTypeDef)` with `USE_ENHANCED_DMA_DESCRIPTORS`. -/
def sizeofDmadesc : Nat := 32

/-- `ETH_ERROR` and `ETH_SUCCESS`. -/
def ethError : Nat := 0
def ethSuccess : Nat := 1

/-- `ETH_DMATxDesc_OWN`, and the same bit as `ETH_DMARxDesc_OWN`. -/
def dmaDescOwn : BitVec 32 := 0x80000000#32

/-- `ETH_DMADESCTypeDef`. -/
structure DmaDesc where
  status : BitVec 32
  controlBufferSize : BitVec 32
  buffer1Addr : Nat
  buffer2NextDescAddr : Nat
  extendedStatus : BitVec 32
  reserved1 : BitVec 32
  timeStampLow : BitVec 32
  timeStampHigh : BitVec 32
deriving Inhabited

/-- What the DMA leaves in the words of an enhanced descriptor. -/
structure ExtWords where
  extendedStatus : BitVec 32
  timeStampLow : BitVec 32
  timeStampHigh : BitVec 32
deriving Inhabited

/-- The descriptor belongs to the DMA. -/
def DmaDesc.Owned (d : DmaDesc) : Prop := d.status &&& dmaDescOwn ≠ 0#32

instance (d : DmaDesc) : Decidable d.Owned := inferInstanceAs (Decidable (_ ≠ _))

/-- The DMA gives a descriptor back: the status word `w` without the OWN bit, and the
words of the enhanced descriptor. -/
def DmaDesc.writeBack (w : BitVec 32) (x : ExtWords) (d : DmaDesc) : DmaDesc :=
  { d with
    status := w &&& ~~~dmaDescOwn
    extendedStatus := x.extendedStatus
    timeStampLow := x.timeStampLow
    timeStampHigh := x.timeStampHigh }

theorem DmaDesc.not_owned_writeBack (w : BitVec 32) (x : ExtWords) (d : DmaDesc) :
    ¬ (d.writeBack w x).Owned := by
  simp [DmaDesc.Owned, DmaDesc.writeBack, BitVec.and_assoc]

/-- A table of `count` descriptors in the address space. -/
structure DescTab where
  base : Nat
  count : Nat
  pos : 0 < count
  fits : base + sizeofDmadesc * count ≤ 2 ^ 32

def DescTab.addr (t : DescTab) (i : Nat) : Nat := t.base + sizeofDmadesc * i

theorem DescTab.addr_inj (t : DescTab) {i j : Nat} : t.addr i = t.addr j ↔ i = j := by
  simp only [DescTab.addr, sizeofDmadesc]
  omega

/-- The table after the first `k` passes of a loop that sets descriptor `i` by `f i`. -/
def DescTab.fill (t : DescTab) (f : Nat → DmaDesc → DmaDesc) (desc : Nat → DmaDesc) :
    Nat → Nat → DmaDesc
  | 0 => desc
  | i + 1 =>
    let desc := t.fill f desc i
    Function.update desc (t.addr i) (f i (desc (t.addr i)))

/-- The address both chain loops put in `Buffer2NextDescAddr`. -/
def DescTab.next (t : DescTab) (i : Nat) : Nat :=
  if i < t.count - 1 then t.addr (i + 1) else t.base

theorem DescTab.fill_out (t : DescTab) (f : Nat → DmaDesc → DmaDesc) (desc : Nat → DmaDesc)
    {k i : Nat} (h : k ≤ i) : t.fill f desc k (t.addr i) = desc (t.addr i) := by
  induction k with
  | zero => rfl
  | succ k ih =>
    have hne : t.addr i ≠ t.addr k := by
      rw [ne_eq, t.addr_inj]
      omega
    rw [fill, Function.update_of_ne hne, ih (by omega)]

theorem DescTab.fill_in (t : DescTab) (f : Nat → DmaDesc → DmaDesc) (desc : Nat → DmaDesc)
    {k i : Nat} (h : i < k) : t.fill f desc k (t.addr i) = f i (desc (t.addr i)) := by
  induction k with
  | zero => omega
  | succ k ih =>
    rw [fill]
    by_cases hi : i = k
    · rw [hi, Function.update_self, t.fill_out f desc (Nat.le_refl _)]
    · have hne : t.addr i ≠ t.addr k := by rwa [ne_eq, t.addr_inj]
      rw [Function.update_of_ne hne, ih (by omega)]

/-- The links close the ring. -/
theorem DescTab.next_eq (t : DescTab) {i : Nat} (hi : i < t.count) :
    t.next i = t.addr ((i + 1) % t.count) := by
  rw [DescTab.next]
  split
  · rw [Nat.mod_eq_of_lt (by omega)]
  · rw [show i + 1 = t.count by omega, Nat.mod_self]
    rfl

theorem own_or (w : BitVec 32) : (w ||| dmaDescOwn) &&& dmaDescOwn ≠ 0#32 := by
  intro h
  have hbit := congrArg (fun v => v.getLsbD 31) h
  simp [dmaDescOwn] at hbit

end Generalplate.Ethernet
