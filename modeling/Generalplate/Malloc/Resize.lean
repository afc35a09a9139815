import Generalplate.Malloc.Release

/-! # Resizing an allocation

`myrealloc` takes a new block, copies as many bytes as the new size and frees
the old block. The bytes the two sizes share arrive unchanged; when the block
grows, what lies behind the old block in memory is copied along. -/
namespace Generalplate.Malloc
open Lib.RunTable

section Copy
variable {mem mem' : Nat → UInt8} {des src : Nat}

/-- Byte `j` is copied from the memory in which the bytes before it are. -/
theorem mymemcpy_in {n j : Nat} (h : j < n) :
    mymemcpy mem des src n (des + j) = mymemcpy mem des src j (src + j) := by
  induction n with
  | zero => omega
  | succ n ih =>
    simp only [mymemcpy]
    by_cases hj : j = n
    · rw [if_pos (by omega), hj]
    · rw [if_neg (by omega)]
      exact ih (by omega)

/-- A byte whose source does not lie in the destination so far arrives as it was. -/
theorem mymemcpy_apart {n j : Nat} (h : j < n) (hs : src + j < des ∨ des + j ≤ src + j) :
    mymemcpy mem des src n (des + j) = mem (src + j) := by
  rw [mymemcpy_in h]
  exact mymemcpy_out hs

end Copy

/-- What `mymem_malloc` returns depends on the bank's table alone. -/
theorem mymemMalloc_congr (L : Layout) {memx : Bank} {d d' : MallcoDev} (size : Nat)
    (hr : d.memrdy memx = true) (hr' : d'.memrdy memx = true)
    (hm : d'.memmap memx = d.memmap memx) :
    (mymemMalloc L memx size d').1 = (mymemMalloc L memx size d).1 := by
  simp only [mymemMalloc, hr, hr', hm, if_true]
  split
  · rfl
  · split <;> rfl

theorem myrealloc_fst (L : Layout) (memx : Bank) (ptr size : Nat) (d : MallcoDev) :
    (myrealloc L memx ptr size d).1 = if (mymemMalloc L memx size d).1 = noOffset then NULL
      else L.membase memx + (mymemMalloc L memx size d).1 := by
  unfold myrealloc
  dsimp only
  split <;> rfl

section Moved
variable {L : Layout} {memx : Bank} {d : MallcoDev} {live : List Alloc} {a : Alloc}

/-- Marking a free window keeps the entries of a live allocation. -/
theorem Inv.marked_kept (h : Inv L memx (fun _ => 0) d live) (ha : a ∈ live) {k o : Nat}
    (hw : Window (memtblsize memx) (d.memmap memx) k o) :
    writeRun (d.memmap memx) o k k (a.run L memx).start = (a.run L memx).len := by
  have hm : a.run L memx ∈ live.map (Alloc.run L memx) := List.mem_map_of_mem ha
  have hlen := h.table.pos _ hm
  have hout : (a.run L memx).start < o ∨ o + k ≤ (a.run L memx).start := by
    rcases Nat.eq_zero_or_pos k with rfl | hk
    · omega
    · have hapart := h.table.apart_window hk hw hm
      simp only [Run.Apart] at hapart
      omega
  rw [writeRun_out hout]
  exact (h.run_mem ha).2

/-- What a call leaves that got the block at index `o`, marked with `k` entries:
the bytes copied there and the old block cleared. -/
theorem Inv.realloc_block (h : Inv L memx (fun _ => 0) d live) (ha : a ∈ live) {size k o : Nat}
    (hw : Window (memtblsize memx) (d.memmap memx) k o)
    (he : mymemMalloc L memx size d =
      (32 * o, d.setMap memx (writeRun (d.memmap memx) o k k))) :
    let r := myrealloc L memx a.ptr size d
    r.1 = L.membase memx + 32 * o ∧
      r.2.memmap memx = writeRun (writeRun (d.memmap memx) o k k) (a.run L memx).start 0
        (a.run L memx).len ∧
      r.2.mem = mymemcpy d.mem r.1 a.ptr size := by
  have hr : (d.setMap memx (writeRun (d.memmap memx) o k k)).memrdy memx = true := h.ready
  have hfst : (myrealloc L memx a.ptr size d).1 = L.membase memx + 32 * o := by
    rw [myrealloc_fst, he]
    exact if_neg (offset_ne_noOffset o)
  refine ⟨hfst, ?_, ?_⟩
  · simp only [myrealloc, he, if_neg (offset_ne_noOffset o), h.placed a ha]
    rw [myfree_block L (by exact hr) (h.run_mem ha).1]
    simp only [MallcoDev.setMap_memmap_self]
    rw [h.marked_kept ha hw]
  · rw [hfst]
    simp only [myrealloc, he, if_neg (offset_ne_noOffset o), h.placed a ha]
    rw [myfree_block L (by exact hr) (h.run_mem ha).1]
    simp

/-- Every way `myrealloc` of a live allocation can end, for a request of any
size: NULL with nothing changed, or the allocation moved to a free window of as
many blocks as the 16-bit count says. -/
theorem Inv.realloc_ends (h : Inv L memx (fun _ => 0) d live) (ha : a ∈ live) (size : Nat) :
    let r := myrealloc L memx a.ptr size d
    let k := blocks memx size % 2 ^ 16
    r = (NULL, d) ∨
    ∃ o, 0 < size ∧ Window (memtblsize memx) (d.memmap memx) k o ∧
      r.1 = L.membase memx + 32 * o ∧
      r.2.memmap memx = writeRun (writeRun (d.memmap memx) o k k) (a.run L memx).start 0
        (a.run L memx).len ∧
      r.2.mem = mymemcpy d.mem r.1 a.ptr size := by
  intro r k
  rcases Nat.eq_zero_or_pos size with rfl | hpos
  · exact Or.inl (by simp [r, myrealloc, mymemMalloc, h.ready])
  rcases mymemMalloc_ends L h.ready hpos rfl with
    ⟨he, _⟩ | ⟨o, _, hw, _, he⟩ | ⟨o, hk, ho, _, _, he⟩
  · exact Or.inl (by simp [r, myrealloc, he])
  · exact Or.inr ⟨o, hpos, hw, h.realloc_block ha hw he⟩
  · -- no entry is marked, for the count is 0
    have hw : Window (memtblsize memx) (d.memmap memx) k o := ⟨by omega, fun j _ _ => by omega⟩
    have hnone : d.setMap memx (writeRun (d.memmap memx) o k k) = d := by
      simp [k, hk, writeRun, MallcoDev.setMap]
    exact Or.inr ⟨o, hpos, hw, h.realloc_block ha hw (by rw [hnone]; exact he)⟩

end Moved

/-! ## All or nothing -/

/-- What a successful `myrealloc` of `a` to `size` bytes leaves: the new
allocation `new` in the place of `a`, with the bytes both have room for. -/
structure Resized (L : Layout) (memx : Bank) (d d' : MallcoDev) (live : List Alloc)
    (a new : Alloc) : Prop where
  reach : Reach L memx d' (new :: live.erase a)
  placed : new.ptr = L.membase memx + memblksize memx * (new.run L memx).start
  exact : Exact (memtblsize memx) (d'.memmap memx)
    ((new :: live.erase a).map (Alloc.run L memx))
  taken : ∀ i, (new.run L memx).Covers i →
    d.memmap memx i = 0 ∧ d'.memmap memx i = blocks memx new.size
  released : ∀ i, (a.run L memx).Covers i → d'.memmap memx i = 0
  others : ∀ i, ¬ (new.run L memx).Covers i → ¬ (a.run L memx).Covers i →
    d'.memmap memx i = d.memmap memx i
  bytes : ∀ j, j < min (blocks memx a.size * memblksize memx) new.size →
    d'.mem (new.ptr + j) = d.mem (a.ptr + j)
  kept : ∀ c ∈ live.erase a, ∀ x, c.ptr ≤ x → x < c.fin memx → d'.mem x = d.mem x

/-- **Resizing is all or nothing**, in any state a run reaches: NULL with
nothing changed, or the allocation moved with its contents. -/
theorem myrealloc_all_or_nothing (L : Layout) (memx : Bank) {d : MallcoDev} {live : List Alloc}
    (h : Reach L memx d live) {a : Alloc} (ha : a ∈ live) {size : Nat} (hs : size ≤ memsize memx) :
    let r := myrealloc L memx a.ptr size d
    (r.1 = NULL → r.2 = d ∧ Reach L memx r.2 live) ∧
    (r.1 ≠ NULL → Resized L memx d r.2 live a ⟨r.1, size⟩) := by
  intro r
  have hi := h.inv
  have hreach : Reach L memx r.2 (regrant r.1 size a live) := h.realloc size ha hs
  have hm : a.run L memx ∈ live.map (Alloc.run L memx) := List.mem_map_of_mem ha
  have hends := hi.realloc_ends ha size
  rw [blocks_mod hs] at hends
  rcases hends with he | ⟨o, hpos, hw, hblock, hmap, hmem⟩
  · have hr : r = (NULL, d) := he
    rw [hr]
    exact ⟨fun _ => ⟨rfl, h⟩, fun hne => absurd rfl hne⟩
  · have hr : r.1 = L.membase memx + 32 * o := hblock
    have hne : r.1 ≠ NULL := by rw [hr]; exact block_ne_NULL L memx o
    refine ⟨fun hnull => absurd hnull hne, fun _ => ?_⟩
    rw [regrant, if_neg hne] at hreach
    have hrun : (⟨r.1, size⟩ : Alloc).run L memx = ⟨o, blocks memx size⟩ := by
      rw [hr]; exact run_block L memx o size
    -- the new block is free before the call, so it lies apart from the old one
    have hapart := hi.table.apart_window (blocks_pos hpos) hw hm
    refine ⟨hreach, ?_, hreach.inv.table, fun i hc => ?_, fun i hc => ?_, fun i hn hc => ?_,
      fun j hj => ?_, fun c hc x hlo hhi => ?_⟩
    · rw [hrun, memblksize_eq]; exact hr
    · rw [hrun] at hc
      simp only [Run.Covers, Run.Apart] at hc hapart
      refine ⟨hw.2 i hc.1 hc.2, ?_⟩
      rw [hmap, writeRun_out (by omega), writeRun_in hc.1 hc.2]
    · rw [hmap, writeRun_in hc.1 hc.2]
    · rw [hrun] at hn
      simp only [Run.Covers] at hn hc
      rw [hmap, writeRun_out (by omega), writeRun_out (by omega)]
    · have hlen : (a.run L memx).len = blocks memx a.size := rfl
      have hptr := hi.placed a ha
      have hroom := le_blocks_mul memx size
      simp only [Run.Apart, hlen] at hapart
      simp only [memblksize_eq] at hj
      rw [hmem]
      exact mymemcpy_apart (by omega) (by rw [hblock]; omega)
    · exact hi.realloc_mem ha (List.mem_of_mem_erase hc) hs hlo hhi

/-- The bank with 32 bytes taken twice, the second block below the first. -/
def twoTaken : Nat × MallcoDev := mymalloc boardLayout .sramIn 32 (firstTaken 32).2

def lowBlock : Alloc := ⟨twoTaken.1, 32⟩

def highBlock : Alloc := ⟨(firstTaken 32).1, 32⟩

theorem twoTaken_reach : Reach boardLayout .sramIn twoTaken.2 [lowBlock, highBlock] := by
  have hfirst : (firstTaken 32).1 ≠ NULL := by decide +kernel
  have hsecond : twoTaken.1 ≠ NULL := by decide +kernel
  have hreach := Reach.malloc 32 (firstTaken_reach (by decide) hfirst) (by decide)
  have hlive : grant twoTaken.1 32 [highBlock] = [lowBlock, highBlock] := if_neg hsecond
  rwa [← twoTaken, ← highBlock, hlive] at hreach

/-- The lower of two blocks grows to 64 bytes. -/
theorem myrealloc_all_or_nothing_board :
    Resized boardLayout .sramIn twoTaken.2
      (myrealloc boardLayout .sramIn lowBlock.ptr 64 twoTaken.2).2 [lowBlock, highBlock] lowBlock
      ⟨(myrealloc boardLayout .sramIn lowBlock.ptr 64 twoTaken.2).1, 64⟩ :=
  have hsize : 64 ≤ memsize .sramIn := by decide
  (myrealloc_all_or_nothing boardLayout .sramIn twoTaken_reach (List.mem_cons_self ..) hsize).2
    (by decide +kernel)

/-! ## What the new block's bytes depend on -/

/-- Where the table of each bank lies: the linker places `mem1mapbase`, the
other two are pinned behind their pools. -/
def mapbase (mem1mapbase : Nat) : Bank → Nat
  | .sramIn => mem1mapbase
  | .sramEx => 0x68000000 + memsize .sramEx
  | .sramCcm => 0x10000000 + memsize .sramCcm

/-- An address in a block of the pool that belongs to no allocation. -/
def InFree (L : Layout) (memx : Bank) (d : MallcoDev) (x : Nat) : Prop :=
  L.membase memx ≤ x ∧ x < L.membase memx + memsize memx ∧
    d.memmap memx ((x - L.membase memx) / memblksize memx) = 0

/-- An address in the bank's table of u16 entries. -/
def InTable (mem1mapbase : Nat) (memx : Bank) (x : Nat) : Prop :=
  mapbase mem1mapbase memx ≤ x ∧ x < mapbase mem1mapbase memx + 2 * memtblsize memx

/-- Two states with the same table and the same bytes in allocation `a`. They
may differ in the bytes of every other allocation and around the pool, except
where the table itself lies. -/
structure Alike (mem1mapbase : Nat) (L : Layout) (memx : Bank) (a : Alloc) (d d' : MallcoDev) :
    Prop where
  memmap : d'.memmap memx = d.memmap memx
  memrdy : d'.memrdy memx = d.memrdy memx
  own : ∀ x, a.ptr ≤ x → x < a.fin memx → d'.mem x = d.mem x
  free : ∀ x, InFree L memx d x → d'.mem x = d.mem x
  table : ∀ x, InTable mem1mapbase memx x → d'.mem x = d.mem x

section Leak
variable {L : Layout} {memx : Bank} {d d' : MallcoDev} {live : List Alloc} {a : Alloc}
  {mem1mapbase : Nat}

/-- A state alike answers with the same block. -/
theorem Alike.realloc_fst (hd : Alike mem1mapbase L memx a d d') (hr : d.memrdy memx = true)
    (ptr size : Nat) : (myrealloc L memx ptr size d').1 = (myrealloc L memx ptr size d).1 := by
  rw [myrealloc_fst, myrealloc_fst,
    mymemMalloc_congr L size hr (hd.memrdy.trans hr) hd.memmap]

/-- It fills the block from its own memory. -/
theorem Alike.realloc_mem (hd : Alike mem1mapbase L memx a d d')
    (h : Inv L memx (fun _ => 0) d live) (ha : a ∈ live) {size : Nat}
    (hp : (myrealloc L memx a.ptr size d).1 ≠ NULL) :
    (myrealloc L memx a.ptr size d').2.mem =
      mymemcpy d'.mem (myrealloc L memx a.ptr size d).1 a.ptr size := by
  have hfst := hd.realloc_fst h.ready a.ptr size
  rcases (h.other hd.memmap hd.memrdy).realloc_ends ha size with he | ⟨_, _, _, _, _, hmem⟩
  · rw [he] at hfst
    exact absurd hfst.symm hp
  · rw [hmem, hfst]

end Leak

end Generalplate.Malloc
