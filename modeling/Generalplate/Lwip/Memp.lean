import Mathlib.Algebra.GroupWithZero.Nat
import Mathlib.Data.List.Basic

/-! # The memory pools of memp.c

`memp_std.h` lists the pools: a number of elements and their size each. The
driver asks for one block that holds all of them (`memp_get_memorysize`). -/
namespace Generalplate.Lwip

/-- A `LWIP_MEMPOOL` line. -/
structure Mempool where
  num : Nat
  size : Nat
deriving DecidableEq, Repr

/-- `MEM_ALIGNMENT`. -/
def memAlignment : Nat := 4

/-- `LWIP_MEM_ALIGN_SIZE`; the mask is `~(MEM_ALIGNMENT-1)` in 32 bits. -/
def lwipMemAlignSize (align size : Nat) : Nat := (size + align - 1) &&& (2 ^ 32 - align)

/-- `MEMP_SIZE`, the room for a header: 0 without overflow checking. -/
def mempSize : Nat := 0

/-- The room of the elements of all pools. -/
def poolRoom (align : Nat) (pools : List Mempool) : Nat :=
  (pools.map fun p => p.num * (mempSize + lwipMemAlignSize align p.size)).sum

/-- The sum is a u32. -/
def mempGetMemorysize (align : Nat) (pools : List Mempool) : Nat :=
  (align - 1 + poolRoom align pools) % 2 ^ 32

/-- `memp_std.h` under this board's `lwipopts.h`, in its order: RAW_PCB, UDP_PCB,
TCP_PCB, TCP_PCB_LISTEN, TCP_SEG, REASSDATA, FRAG_PBUF, NETBUF, NETCONN,
TCPIP_MSG_API, TCPIP_MSG_INPKT, SYS_TIMEOUT, PBUF, PBUF_POOL. The element sizes
are those of the linked image. -/
def mempStd : List Mempool :=
  [⟨4, 28⟩, ⟨6, 32⟩, ⟨10, 148⟩, ⟨6, 28⟩, ⟨15, 20⟩, ⟨5, 32⟩, ⟨15, 24⟩, ⟨2, 16⟩, ⟨4, 172⟩,
    ⟨8, 20⟩, ⟨8, 20⟩, ⟨8, 16⟩, ⟨20, 16⟩, ⟨10, 1516⟩]

example : mempGetMemorysize memAlignment mempStd = 19423 := by decide

end Generalplate.Lwip
