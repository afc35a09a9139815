import Generalplate.Malloc.Pool

/-! # The allocation table over whole runs

`Reach` is every run of `mymalloc`, `myrealloc` and `myfree` on one bank from
`mymem_init`, with the live allocations it leaves. The invariant `Inv` says that
the bank's table is exactly one run of blocks per live allocation; each call
keeps it, so it holds of every reachable state. The base table under the
invariant is empty for a run from `mymem_init`; a part of the program that must
put a table back as it found it takes that table as the base. -/
namespace Generalplate.Malloc
open Lib.RunTable

/-- A pointer handed out and not yet given back, with the size asked for. -/
structure Alloc where
  ptr : Nat
  size : Nat
deriving DecidableEq, Repr

/-- The blocks of an allocation: the index of the first and how many. -/
def Alloc.run (L : Layout) (memx : Bank) (a : Alloc) : Run :=
  ⟨(a.ptr - L.membase memx) / memblksize memx, blocks memx a.size⟩

/-- The end of an allocation's last block. -/
def Alloc.fin (memx : Bank) (a : Alloc) : Nat := a.ptr + memblksize memx * blocks memx a.size

/-- The live allocations after a call that returned `p`. -/
def grant (p size : Nat) (live : List Alloc) : List Alloc :=
  if p = NULL then live else ⟨p, size⟩ :: live

/-- `myrealloc` gives the old allocation back only when it returns a new one. -/
def regrant (p size : Nat) (a : Alloc) (live : List Alloc) : List Alloc :=
  if p = NULL then live else ⟨p, size⟩ :: live.erase a

/-- The states of bank `memx`, with its live allocations, that a run reaches.
Between two calls the program may change anything but this bank's table and
ready flag: the bytes of the pool, its own memory, the other banks. -/
inductive Reach (L : Layout) (memx : Bank) : MallcoDev → List Alloc → Prop
  | init (d : MallcoDev) : Reach L memx (mymemInit L memx d) []
  | other {d d' : MallcoDev} {live : List Alloc} : Reach L memx d live →
      d'.memmap memx = d.memmap memx → d'.memrdy memx = d.memrdy memx → Reach L memx d' live
  | malloc {d : MallcoDev} {live : List Alloc} (size : Nat) : Reach L memx d live →
      size ≤ memsize memx →
      Reach L memx (mymalloc L memx size d).2 (grant (mymalloc L memx size d).1 size live)
  | freeNull {d : MallcoDev} {live : List Alloc} : Reach L memx d live →
      Reach L memx (myfree L memx NULL d) live
  | free {d : MallcoDev} {live : List Alloc} {a : Alloc} : Reach L memx d live → a ∈ live →
      Reach L memx (myfree L memx a.ptr d) (live.erase a)
  | realloc {d : MallcoDev} {live : List Alloc} {a : Alloc} (size : Nat) : Reach L memx d live →
      a ∈ live → size ≤ memsize memx →
      Reach L memx (myrealloc L memx a.ptr size d).2
        (regrant (myrealloc L memx a.ptr size d).1 size a live)

/-! ## The invariant -/

/-- The bank's table is the base table `b` with the runs of the allocations
`live` marked, every one at its block. -/
structure Inv (L : Layout) (memx : Bank) (b : Nat → Nat) (d : MallcoDev) (live : List Alloc) :
    Prop where
  ready : d.memrdy memx = true
  table : Over (memtblsize memx) b (d.memmap memx) (live.map (Alloc.run L memx))
  placed : ∀ a ∈ live, a.ptr = L.membase memx + 32 * (a.run L memx).start

theorem run_block (L : Layout) (memx : Bank) (o size : Nat) :
    Alloc.run L memx ⟨L.membase memx + 32 * o, size⟩ = ⟨o, blocks memx size⟩ := by
  simp only [Alloc.run, memblksize_eq, Run.mk.injEq, and_true]
  omega

section Invariant
variable {L : Layout} {memx : Bank} {b : Nat → Nat} {d d' : MallcoDev} {live : List Alloc}

theorem Inv.init (L : Layout) (memx : Bank) (d : MallcoDev) :
    Inv L memx (fun _ => 0) (mymemInit L memx d) [] where
  ready := mymemInit_memrdy L memx d
  table := Over.nil fun _ hi => mymemInit_memmap L memx d hi
  placed _ ha := by cases ha

/-- Any table is its own base with nothing marked. -/
theorem Inv.self (hr : d.memrdy memx = true) : Inv L memx (d.memmap memx) d [] where
  ready := hr
  table := Over.nil fun _ _ => rfl
  placed _ ha := by cases ha

theorem Inv.other (h : Inv L memx b d live) (hm : d'.memmap memx = d.memmap memx)
    (hr : d'.memrdy memx = d.memrdy memx) : Inv L memx b d' live where
  ready := hr.trans h.ready
  table := by rw [hm]; exact h.table
  placed := h.placed

/-- The block of a live allocation, as the calls see it. -/
theorem Inv.run_mem (h : Inv L memx b d live) {a : Alloc} (ha : a ∈ live) :
    (a.run L memx).start < memtblsize memx ∧
      d.memmap memx (a.run L memx).start = (a.run L memx).len := by
  have hm : a.run L memx ∈ live.map (Alloc.run L memx) := List.mem_map_of_mem ha
  have hp := h.table.pos _ hm
  have hin := h.table.inside _ hm
  exact ⟨by omega, h.table.held _ hm _ ⟨Nat.le_refl _, by omega⟩⟩

/-- Marking a free window for a request makes one more allocation live. -/
theorem Inv.mark (h : Inv L memx b d live) {size o : Nat} (hs : 0 < size)
    (hw : Window (memtblsize memx) (d.memmap memx) (blocks memx size) o) :
    Inv L memx b
      (d.setMap memx (writeRun (d.memmap memx) o (blocks memx size) (blocks memx size)))
      (⟨L.membase memx + 32 * o, size⟩ :: live) where
  ready := h.ready
  table := by
    rw [MallcoDev.setMap_memmap_self, List.map_cons, run_block]
    exact h.table.mark (blocks_pos hs) hw
  placed b hb := by
    rcases List.mem_cons.mp hb with rfl | hb
    · rw [run_block]
    · exact h.placed b hb

/-- Clearing the blocks of a live allocation takes it out of the live ones. -/
theorem Inv.clear (h : Inv L memx b d live) {a : Alloc} (ha : a ∈ live) :
    Inv L memx b (d.setMap memx (writeRun (d.memmap memx) (a.run L memx).start 0
      (d.memmap memx (a.run L memx).start))) (live.erase a) where
  ready := h.ready
  table := by
    rw [MallcoDev.setMap_memmap_self, (h.run_mem ha).2]
    exact (h.table.perm ((List.perm_cons_erase ha).map _)).clear
  placed b hb := h.placed b (List.mem_of_mem_erase hb)

theorem Inv.malloc (h : Inv L memx b d live) {size : Nat} (hs : size ≤ memsize memx) :
    Inv L memx b (mymalloc L memx size d).2 (grant (mymalloc L memx size d).1 size live) := by
  rcases mymalloc_cases L h.ready hs with ⟨he, _⟩ | ⟨o, hpos, hw, _, he⟩
  · rw [he]; exact h
  · rw [he, grant, if_neg (block_ne_NULL L memx o)]
    exact h.mark hpos hw

theorem Inv.free (h : Inv L memx b d live) {a : Alloc} (ha : a ∈ live) :
    Inv L memx b (myfree L memx a.ptr d) (live.erase a) := by
  rw [h.placed a ha, myfree_block L h.ready (h.run_mem ha).1]
  exact h.clear ha

theorem Inv.realloc (h : Inv L memx b d live) {a : Alloc} (ha : a ∈ live) {size : Nat}
    (hs : size ≤ memsize memx) :
    Inv L memx b (myrealloc L memx a.ptr size d).2
      (regrant (myrealloc L memx a.ptr size d).1 size a live) := by
  rw [h.placed a ha]
  rcases myrealloc_cases L h.ready hs (h.run_mem ha).1 with ⟨he, _⟩ | ⟨o, hpos, hw, _, he⟩
  · rw [he]; exact h
  · rw [he, regrant, if_neg (block_ne_NULL L memx o)]
    -- the old allocation is still live beside the new one when it is cleared
    have hmark := h.mark hpos hw
    have hnew : (⟨L.membase memx + 32 * o, size⟩ : Alloc) ≠ a := by
      rintro rfl
      have hused := (h.run_mem ha).2
      have hk : 0 < blocks memx size := blocks_pos hpos
      simp only [run_block] at hused
      have := hw.2 o (Nat.le_refl _) (by omega)
      omega
    have hclear := hmark.clear (List.mem_cons_of_mem _ ha)
    rw [List.erase_cons_tail (by simpa using hnew)] at hclear
    exact hclear.other (by simp) rfl

theorem Reach.inv (h : Reach L memx d live) : Inv L memx (fun _ => 0) d live := by
  induction h with
  | init d => exact Inv.init L memx d
  | other _ hm hr ih => exact ih.other hm hr
  | malloc size _ hs ih => exact ih.malloc hs
  | freeNull _ ih => rw [myfree_NULL]; exact ih
  | free _ ha ih => exact ih.free ha
  | realloc size _ ha hs ih => exact ih.realloc ha hs

/-! ## The other banks

A call on another bank is a step of the rest of the program. -/

section Others
variable {other : Bank}

theorem Reach.same (h : Reach L memx d live) (hs : SameBank memx d d') : Reach L memx d' live :=
  h.other hs.memmap hs.memrdy

theorem Reach.mallocOther (h : Reach L memx d live) (hb : memx ≠ other) (size : Nat) :
    Reach L memx (mymalloc L other size d).2 live :=
  h.same (mymalloc_other L hb size d)

theorem Reach.freeOther (h : Reach L memx d live) (hb : memx ≠ other) (ptr : Nat) :
    Reach L memx (myfree L other ptr d) live :=
  h.same (myfree_other L hb ptr d)

theorem Reach.reallocOther (h : Reach L memx d live) (hb : memx ≠ other) (ptr size : Nat) :
    Reach L memx (myrealloc L other ptr size d).2 live :=
  h.same (myrealloc_other L hb ptr size d)

end Others

/-! ## What the invariant says of pointers and of the pool -/

theorem Inv.fin_eq (h : Inv L memx b d live) {a : Alloc} (ha : a ∈ live) :
    a.fin memx = L.membase memx + 32 * ((a.run L memx).start + (a.run L memx).len) := by
  have hp := h.placed a ha
  simp only [Alloc.fin, memblksize_eq, Alloc.run] at hp ⊢
  omega

theorem Inv.bytes_apart (h : Inv L memx b d live) :
    live.Pairwise fun a b => a.fin memx ≤ b.ptr ∨ b.fin memx ≤ a.ptr := by
  have hp := List.pairwise_map.mp h.table.apart
  refine hp.imp_of_mem fun {a b} ha hb hab => ?_
  rw [h.fin_eq ha, h.fin_eq hb, h.placed a ha, h.placed b hb]
  simp only [Run.Apart] at hab
  omega

theorem Inv.inside_pool (h : Inv L memx b d live) {a : Alloc} (ha : a ∈ live) :
    L.membase memx ≤ a.ptr ∧ a.fin memx ≤ L.membase memx + memsize memx := by
  have hin := h.table.inside _ (List.mem_map_of_mem ha)
  have hmul := memtblsize_mul memx
  rw [h.fin_eq ha, h.placed a ha]
  omega

/-- `myrealloc` writes to the block it returns only: the bytes of every live
allocation are kept, those of the one given back included. -/
theorem Inv.realloc_mem (h : Inv L memx b d live) {a c : Alloc} (ha : a ∈ live) (hc : c ∈ live)
    {size : Nat} (hs : size ≤ memsize memx) {x : Nat} (hlo : c.ptr ≤ x) (hhi : x < c.fin memx) :
    (myrealloc L memx a.ptr size d).2.mem x = d.mem x := by
  rw [h.placed a ha]
  rcases myrealloc_cases L h.ready hs (h.run_mem ha).1 with ⟨he, _⟩ | ⟨o, hpos, hw, _, he⟩
  · rw [he]
  · have hapart := (List.pairwise_cons.mp (h.mark hpos hw).bytes_apart).1 c hc
    have hsize := le_blocks_mul memx size
    simp only [Alloc.fin, memblksize_eq] at hapart hhi
    rw [he]
    exact mymemcpy_out (by omega)

theorem Inv.used_eq (h : Inv L memx (fun _ => 0) d live) :
    used (d.memmap memx) (memtblsize memx) = (live.map fun a => blocks memx a.size).sum := by
  rw [used_exact h.table, List.map_map]
  rfl

theorem Inv.perused (h : Inv L memx (fun _ => 0) d live) :
    memPerused memx d =
      100 * (live.map fun a => blocks memx a.size).sum / memtblsize memx := by
  have hu := h.used_eq
  have hle := used_le (d.memmap memx) (memtblsize memx)
  have htbl := memtblsize_le memx
  have hpos := memtblsize_pos memx
  rw [hu] at hle
  have hprod : 100 * (live.map fun a => blocks memx a.size).sum < 2 ^ 32 := by omega
  have hquot : 100 * (live.map fun a => blocks memx a.size).sum / memtblsize memx < 2 ^ 8 :=
    Nat.div_lt_of_lt_mul (by omega)
  rw [memPerused, hu, Nat.mul_comm, Nat.mod_eq_of_lt hprod, Nat.mod_eq_of_lt hquot]

theorem memPerused_le (memx : Bank) (d : MallcoDev) : memPerused memx d ≤ 100 := by
  have hle := used_le (d.memmap memx) (memtblsize memx)
  refine Nat.le_trans (Nat.mod_le _ _) (Nat.div_le_of_le_mul ?_)
  refine Nat.le_trans (Nat.mod_le _ _) ?_
  rw [Nat.mul_comm (memtblsize memx)]
  omega

end Invariant

/-- In every state a run reaches, the table is exactly one run of blocks per
live allocation, at the allocation's block; so live allocations never overlap,
they lie in the pool, and `mem_perused` is the share of their blocks. -/
theorem reach_table_exact (L : Layout) (memx : Bank) {d : MallcoDev} {live : List Alloc}
    (h : Reach L memx d live) :
    Exact (memtblsize memx) (d.memmap memx) (live.map (Alloc.run L memx)) ∧
    (∀ a ∈ live, a.ptr = L.membase memx + memblksize memx * (a.run L memx).start ∧
      a.ptr + a.size ≤ a.fin memx) ∧
    live.Pairwise (fun a b => a.fin memx ≤ b.ptr ∨ b.fin memx ≤ a.ptr) ∧
    (∀ a ∈ live, L.membase memx ≤ a.ptr ∧ a.fin memx ≤ L.membase memx + memsize memx) ∧
    memPerused memx d =
      100 * (live.map fun a => blocks memx a.size).sum / memtblsize memx ∧
    memPerused memx d ≤ 100 := by
  have hi := h.inv
  refine ⟨hi.table, fun a ha => ⟨?_, ?_⟩, hi.bytes_apart, fun a ha => hi.inside_pool ha,
    hi.perused, memPerused_le memx d⟩
  · rw [memblksize_eq]; exact hi.placed a ha
  · have := le_blocks_mul memx a.size
    simp only [Alloc.fin, memblksize_eq]; omega

/-- The board of the linker map: `mem1base` at 0x20002108. -/
def boardLayout : Layout := ⟨0x20002108, by decide, by decide, by decide⟩

def blankDev : MallcoDev := ⟨fun _ _ => 0, fun _ => false, fun _ => 0⟩

/-- A run that takes 100 and 40 bytes and resizes the first block to 200: its
table is the blocks of the two allocations left. -/
theorem reach_table_exact_board : ∃ p q d, p ≠ NULL ∧ q ≠ NULL ∧
    Exact (memtblsize .sramIn) (MallcoDev.memmap d .sramIn)
      [Alloc.run boardLayout .sramIn ⟨p, 200⟩, Alloc.run boardLayout .sramIn ⟨q, 40⟩] := by
  obtain ⟨d1, h1⟩ : ∃ r, mymalloc boardLayout .sramIn 100
    (mymemInit boardLayout .sramIn blankDev) = r := ⟨_, rfl⟩
  obtain ⟨d2, h2⟩ : ∃ r, mymalloc boardLayout .sramIn 40 d1.2 = r := ⟨_, rfl⟩
  obtain ⟨d3, h3⟩ : ∃ r, myrealloc boardLayout .sramIn d1.1 200 d2.2 = r := ⟨_, rfl⟩
  have e1 : d1.1 ≠ NULL := by rw [← h1]; decide +kernel
  have e2 : d2.1 ≠ NULL := by rw [← h2, ← h1]; decide +kernel
  have e3 : d3.1 ≠ NULL := by rw [← h3, ← h2, ← h1]; decide +kernel
  have r1 := Reach.malloc 100 (@Reach.init boardLayout .sramIn blankDev)
    (by decide)
  rw [h1, grant, if_neg e1] at r1
  have r2 := Reach.malloc 40 r1 (by decide)
  rw [h2, grant, if_neg e2] at r2
  have r3 := Reach.realloc 200 r2 (List.mem_cons_of_mem _ (List.mem_cons_self ..)) (by decide)
  rw [h3, regrant, if_neg e3, List.erase_cons_tail (by simp), List.erase_cons_head] at r3
  exact ⟨d3.1, d2.1, d3.2, e3, e2, (reach_table_exact boardLayout .sramIn r3).1⟩

end Generalplate.Malloc
