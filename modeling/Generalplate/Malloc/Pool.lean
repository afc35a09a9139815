import Mathlib.Logic.Function.Basic
import Generalplate.Lib.RunTable

/-! # The block allocator of malloc.c

Three memory banks, each a pool of 32-byte blocks with a table `memmap` of one
u16 per block: 0 for a free block, else the number of blocks of the allocation
the block belongs to. Pointers are 32-bit addresses, NULL is 0. A table is a
function of the index and memory a function of the address, so that a store
past the end would show. -/
namespace Generalplate.Malloc
open Lib.RunTable

inductive Bank where
  | sramIn
  | sramEx
  | sramCcm
deriving DecidableEq, Repr

/-- `MEMx_BLOCK_SIZE`. -/
def memblksize : Bank → Nat
  | .sramIn => 32
  | .sramEx => 32
  | .sramCcm => 32

/-- `MEMx_MAX_SIZE`. -/
def memsize : Bank → Nat
  | .sramIn => 100 * 1024
  | .sramEx => 200 * 1024
  | .sramCcm => 60 * 1024

/-- `MEMx_ALLOC_TABLE_SIZE`. -/
def memtblsize (memx : Bank) : Nat := memsize memx / memblksize memx

/-- Where the linker puts the pools: `mem2base` and `mem3base` are pinned,
`mem1base` is any aligned place in the address space. -/
structure Layout where
  mem1base : Nat
  aligned : mem1base % 4 = 0
  pos : 0 < mem1base
  fits : mem1base + memsize .sramIn ≤ 2 ^ 32

def Layout.membase (L : Layout) : Bank → Nat
  | .sramIn => L.mem1base
  | .sramEx => 0x68000000
  | .sramCcm => 0x10000000

/-- The variable part of `mallco_dev`, with the memory the pools lie in. -/
structure MallcoDev where
  memmap : Bank → Nat → Nat
  memrdy : Bank → Bool
  mem : Nat → UInt8

def NULL : Nat := 0

/-- The error value of `mymem_malloc`. -/
def noOffset : Nat := 0xFFFFFFFF

/-! ## The functions of malloc.c -/

/-- The memory after the first `n` bytes are copied, in ascending order. -/
def mymemcpy (mem : Nat → UInt8) (des src : Nat) : Nat → Nat → UInt8
  | 0 => mem
  | n + 1 => fun a =>
    if a = des + n then mymemcpy mem des src n (src + n) else mymemcpy mem des src n a

/-- The memory after the first `count` bytes are set. -/
def mymemset (mem : Nat → UInt8) (s : Nat) (c : UInt8) : Nat → Nat → UInt8
  | 0 => mem
  | count + 1 => fun a => if a = s + count then c else mymemset mem s c count a

def MallcoDev.setMap (d : MallcoDev) (memx : Bank) (t : Nat → Nat) : MallcoDev :=
  { d with memmap := Function.update d.memmap memx t }

/-- The table is cleared as `2 * memtblsize` bytes, that is as its entries. -/
def mymemInit (L : Layout) (memx : Bank) (d : MallcoDev) : MallcoDev :=
  { memmap := Function.update d.memmap memx (writeRun (d.memmap memx) 0 0 (memtblsize memx))
    memrdy := Function.update d.memrdy memx true
    mem := mymemset d.mem (L.membase memx) 0 (memsize memx) }

def memPerused (memx : Bank) (d : MallcoDev) : Nat :=
  used (d.memmap memx) (memtblsize memx) * 100 % 2 ^ 32 / memtblsize memx % 2 ^ 8

/-- The search loop of `mymem_malloc`, from entry `offset` down; the u16 count
`cmemb` of free entries is compared after every entry, a used one included. -/
def mymemSearch (map : Nat → Nat) (nmemb : Nat) : Nat → Nat → Option Nat
  | 0, _ => none
  | offset + 1, cmemb =>
    let cmemb := if map offset = 0 then (cmemb + 1) % 2 ^ 16 else 0
    if cmemb = nmemb then some offset else mymemSearch map nmemb offset cmemb

/-- The u16 number of blocks `mymem_malloc` asks for. -/
def nmembOf (memx : Bank) (size : Nat) : Nat :=
  let nmemb := size / memblksize memx % 2 ^ 16
  if size % memblksize memx ≠ 0 then (nmemb + 1) % 2 ^ 16 else nmemb

def mymemMalloc (L : Layout) (memx : Bank) (size : Nat) (d : MallcoDev) : Nat × MallcoDev :=
  let d := if d.memrdy memx then d else mymemInit L memx d
  if size = 0 then (noOffset, d)
  else
    let nmemb := nmembOf memx size
    match mymemSearch (d.memmap memx) nmemb (memtblsize memx) 0 with
    | some offset =>
      (offset * memblksize memx % 2 ^ 32,
        d.setMap memx (writeRun (d.memmap memx) offset nmemb nmemb))
    | none => (noOffset, d)

/-- Returns 0 when freed, 1 when the bank was not ready, 2 out of the pool. -/
def mymemFree (L : Layout) (memx : Bank) (offset : Nat) (d : MallcoDev) : Nat × MallcoDev :=
  if d.memrdy memx then
    if offset < memsize memx then
      let index := offset / memblksize memx
      let nmemb := d.memmap memx index
      (0, d.setMap memx (writeRun (d.memmap memx) index 0 nmemb))
    else (2, d)
  else (1, mymemInit L memx d)

/-- The offset is the 32-bit difference of the two addresses. -/
def myfree (L : Layout) (memx : Bank) (ptr : Nat) (d : MallcoDev) : MallcoDev :=
  if ptr = NULL then d
  else (mymemFree L memx ((ptr + 2 ^ 32 - L.membase memx) % 2 ^ 32) d).2

def mymalloc (L : Layout) (memx : Bank) (size : Nat) (d : MallcoDev) : Nat × MallcoDev :=
  let r := mymemMalloc L memx size d
  if r.1 = noOffset then (NULL, r.2) else (L.membase memx + r.1, r.2)

def myrealloc (L : Layout) (memx : Bank) (ptr size : Nat) (d : MallcoDev) : Nat × MallcoDev :=
  let r := mymemMalloc L memx size d
  if r.1 = noOffset then (NULL, r.2)
  else
    let p := L.membase memx + r.1
    (p, myfree L memx ptr { r.2 with mem := mymemcpy r.2.mem p ptr size })

/-! ## Sizes and addresses -/

@[simp] theorem memblksize_eq (memx : Bank) : memblksize memx = 32 := by cases memx <;> rfl

theorem memtblsize_mul (memx : Bank) : memtblsize memx * 32 = memsize memx := by
  cases memx <;> rfl

theorem memtblsize_pos (memx : Bank) : 0 < memtblsize memx := by cases memx <;> decide

theorem memsize_le (memx : Bank) : memsize memx ≤ 204800 := by cases memx <;> decide

theorem memtblsize_le (memx : Bank) : memtblsize memx ≤ 6400 := by cases memx <;> decide

theorem Layout.membase_pos (L : Layout) (memx : Bank) : 0 < L.membase memx := by
  cases memx with
  | sramIn => exact L.pos
  | sramEx => exact Nat.zero_lt_succ _
  | sramCcm => exact Nat.zero_lt_succ _

/-- The number of blocks that hold `size` bytes. -/
def blocks (memx : Bank) (size : Nat) : Nat := (size + memblksize memx - 1) / memblksize memx

theorem blocks_pos {memx : Bank} {size : Nat} (h : 0 < size) : 0 < blocks memx size := by
  simp only [blocks, memblksize_eq]; omega

theorem le_blocks_mul (memx : Bank) (size : Nat) : size ≤ blocks memx size * 32 := by
  simp only [blocks, memblksize_eq]; omega

/-- The u16 block count is the number of blocks reduced to 16 bits. -/
theorem nmembOf_eq_mod (memx : Bank) (size : Nat) :
    nmembOf memx size = blocks memx size % 2 ^ 16 := by
  simp only [nmembOf, blocks, memblksize_eq]
  split <;> omega

/-- The count of a size the bank can hold is not reduced. -/
theorem blocks_mod {memx : Bank} {size : Nat} (hs : size ≤ memsize memx) :
    blocks memx size % 2 ^ 16 = blocks memx size := by
  have hle := memsize_le memx
  refine Nat.mod_eq_of_lt ?_
  simp only [blocks, memblksize_eq]
  omega

/-! ## State updates -/

@[simp] theorem MallcoDev.setMap_memmap_self (d : MallcoDev) (memx : Bank) (t : Nat → Nat) :
    (d.setMap memx t).memmap memx = t := Function.update_self ..

theorem MallcoDev.setMap_memmap_ne (d : MallcoDev) {memx b : Bank} (t : Nat → Nat)
    (h : b ≠ memx) : (d.setMap memx t).memmap b = d.memmap b := Function.update_of_ne h ..

@[simp] theorem MallcoDev.setMap_memrdy (d : MallcoDev) (memx : Bank) (t : Nat → Nat) :
    (d.setMap memx t).memrdy = d.memrdy := rfl

@[simp] theorem MallcoDev.setMap_mem (d : MallcoDev) (memx : Bank) (t : Nat → Nat) :
    (d.setMap memx t).mem = d.mem := rfl

@[simp] theorem MallcoDev.setMap_setMap (d : MallcoDev) (memx : Bank) (t u : Nat → Nat) :
    (d.setMap memx t).setMap memx u = d.setMap memx u := by
  simp [MallcoDev.setMap]

@[simp] theorem mymemInit_memrdy (L : Layout) (memx : Bank) (d : MallcoDev) :
    (mymemInit L memx d).memrdy memx = true := Function.update_self ..

theorem mymemInit_memmap (L : Layout) (memx : Bank) (d : MallcoDev) {i : Nat}
    (hi : i < memtblsize memx) : (mymemInit L memx d).memmap memx i = 0 := by
  simp only [mymemInit, Function.update_self]
  exact writeRun_in (Nat.zero_le i) (by omega)

/-- Bytes outside the destination are kept. -/
theorem mymemcpy_out {mem : Nat → UInt8} {des src a n : Nat} (h : a < des ∨ des + n ≤ a) :
    mymemcpy mem des src n a = mem a := by
  induction n with
  | zero => rfl
  | succ n ih =>
    have hne : a ≠ des + n := by omega
    simp only [mymemcpy, if_neg hne]
    exact ih (by omega)

/-! ## What each function does -/

/-- The u16 count never wraps on a table of less than 2^16 entries, so the
loop is the search from the top. -/
theorem mymemSearch_eq_topFit (map : Nat → Nat) {k : Nat} (hk : 0 < k) {m c : Nat}
    (h : m + c < 2 ^ 16) : mymemSearch map k m c = topFit map k m c := by
  induction m generalizing c with
  | zero => rfl
  | succ m ih =>
    simp only [mymemSearch, topFit]
    by_cases hm : map m = 0
    · have hc : (c + 1) % 2 ^ 16 = c + 1 := Nat.mod_eq_of_lt (by omega)
      rw [if_pos hm, if_pos hm, hc, ih (by omega)]
    · rw [if_neg hm, if_neg hm, if_neg (by omega), ih (by omega)]

/-- A count of 0 free entries is met at the first entry in use. -/
theorem mymemSearch_zero (map : Nat → Nat) {m c : Nat} (h : m + c < 2 ^ 16) :
    match mymemSearch map 0 m c with
    | some o => o < m ∧ map o ≠ 0 ∧ ∀ i, o < i → i < m → map i = 0
    | none => ∀ i, i < m → map i = 0 := by
  induction m generalizing c with
  | zero => intro i hi; omega
  | succ m ih =>
    by_cases hm : map m = 0
    · have hc : (c + 1) % 2 ^ 16 = c + 1 := Nat.mod_eq_of_lt (by omega)
      have hstep : mymemSearch map 0 (m + 1) c = mymemSearch map 0 m (c + 1) := by
        simp only [mymemSearch, if_pos hm, hc, if_neg (Nat.succ_ne_zero c)]
      -- an entry above all of those left is free
      have hup : ∀ i, i < m + 1 → i < m ∨ map i = 0 := fun i hi => by
        rcases Nat.lt_succ_iff_lt_or_eq.mp hi with hi | rfl
        · exact Or.inl hi
        · exact Or.inr hm
      have hrest := ih (c := c + 1) (by omega)
      rw [hstep]
      cases hf : mymemSearch map 0 m (c + 1) with
      | none =>
        rw [hf] at hrest
        exact fun i hi => (hup i hi).elim (hrest i) id
      | some o =>
        rw [hf] at hrest
        obtain ⟨ho, hused, hfree⟩ := hrest
        exact ⟨by omega, hused, fun i hoi hi => (hup i hi).elim (hfree i hoi) id⟩
    · simp only [mymemSearch, if_neg hm, if_true]
      exact ⟨Nat.lt_succ_self m, hm, fun i _ _ => by omega⟩

/-- Every way `mymem_malloc` can end on a ready bank, for a request of any size:
what counts is the number of blocks reduced to 16 bits, and a count of 0 is met
by the highest entry in use. -/
theorem mymemMalloc_ends (L : Layout) {memx : Bank} {size : Nat} {d : MallcoDev}
    (hr : d.memrdy memx = true) (hpos : 0 < size) {k : Nat} (hk : blocks memx size % 2 ^ 16 = k) :
    (mymemMalloc L memx size d = (noOffset, d) ∧
      (0 < k → ∀ o, ¬ Window (memtblsize memx) (d.memmap memx) k o) ∧
      (k = 0 → ∀ i, i < memtblsize memx → d.memmap memx i = 0)) ∨
    (∃ o, 0 < k ∧ Window (memtblsize memx) (d.memmap memx) k o ∧
      (∀ s, Window (memtblsize memx) (d.memmap memx) k s → s ≤ o) ∧
      mymemMalloc L memx size d = (32 * o, d.setMap memx (writeRun (d.memmap memx) o k k))) ∨
    ∃ o, k = 0 ∧ o < memtblsize memx ∧ d.memmap memx o ≠ 0 ∧
      (∀ i, o < i → i < memtblsize memx → d.memmap memx i = 0) ∧
      mymemMalloc L memx size d = (32 * o, d) := by
  have htbl := memtblsize_le memx
  have hnmemb : nmembOf memx size = k := by rw [nmembOf_eq_mod, hk]
  simp only [mymemMalloc, hr, if_true, if_neg (Nat.ne_of_gt hpos), hnmemb, memblksize_eq]
  rcases Nat.eq_zero_or_pos k with rfl | hk
  · have hsearch := mymemSearch_zero (d.memmap memx) (m := memtblsize memx) (c := 0) (by omega)
    cases hf : mymemSearch (d.memmap memx) 0 (memtblsize memx) 0 with
    | none =>
      rw [hf] at hsearch
      exact Or.inl ⟨rfl, fun h => absurd h (Nat.lt_irrefl 0), fun _ => hsearch⟩
    | some o =>
      rw [hf] at hsearch
      obtain ⟨ho, hused, hfree⟩ := hsearch
      refine Or.inr (Or.inr ⟨o, rfl, ho, hused, hfree, ?_⟩)
      simp only [writeRun, MallcoDev.setMap, Function.update_eq_self]
      rw [Nat.mod_eq_of_lt (by omega), Nat.mul_comm]
  · rw [mymemSearch_eq_topFit (d.memmap memx) hk (by omega)]
    cases hf : topFit (d.memmap memx) k (memtblsize memx) 0 with
    | none =>
      refine Or.inl ⟨rfl, fun _ o hw => ?_, fun h => by omega⟩
      obtain ⟨o', ho'⟩ := topFit_isSome hk hw
      rw [hf] at ho'; cases ho'
    | some o =>
      have hw := topFit_window hk hf
      refine Or.inr (Or.inl ⟨o, hk, hw, fun s hs => topFit_highest hk hf hs, ?_⟩)
      have := hw.1
      simp only
      rw [Nat.mod_eq_of_lt (by omega), Nat.mul_comm]

/-- Every way `mymem_malloc` can end on a ready bank. -/
theorem mymemMalloc_cases (L : Layout) {memx : Bank} {size : Nat} {d : MallcoDev}
    (hr : d.memrdy memx = true) (hs : size ≤ memsize memx) :
    (mymemMalloc L memx size d = (noOffset, d) ∧
      (0 < size → ∀ o, ¬ Window (memtblsize memx) (d.memmap memx) (blocks memx size) o)) ∨
    ∃ o, 0 < size ∧ Window (memtblsize memx) (d.memmap memx) (blocks memx size) o ∧
      (∀ s, Window (memtblsize memx) (d.memmap memx) (blocks memx size) s → s ≤ o) ∧
      mymemMalloc L memx size d = (32 * o,
        d.setMap memx (writeRun (d.memmap memx) o (blocks memx size) (blocks memx size))) := by
  rcases Nat.eq_zero_or_pos size with rfl | hpos
  · exact Or.inl ⟨by simp [mymemMalloc, hr], fun h => absurd h (Nat.lt_irrefl 0)⟩
  have hk : 0 < blocks memx size := blocks_pos hpos
  rcases mymemMalloc_ends L hr hpos (blocks_mod hs) with
    ⟨h, hn, _⟩ | ⟨o, _, hw, hmax, h⟩ | ⟨_, h0, _⟩
  · exact Or.inl ⟨h, fun _ => hn hk⟩
  · exact Or.inr ⟨o, hpos, hw, hmax, h⟩
  · omega

/-- A block's offset is even, so it is never the error value. -/
theorem offset_ne_noOffset (o : Nat) : 32 * o ≠ noOffset := by
  simp only [noOffset]; omega

theorem block_ne_NULL (L : Layout) (memx : Bank) (o : Nat) : L.membase memx + 32 * o ≠ NULL := by
  have := L.membase_pos memx
  simp only [NULL]; omega

/-- Every way `mymalloc` can end on a ready bank: NULL with nothing changed, or
the highest free window marked. -/
theorem mymalloc_cases (L : Layout) {memx : Bank} {size : Nat} {d : MallcoDev}
    (hr : d.memrdy memx = true) (hs : size ≤ memsize memx) :
    (mymalloc L memx size d = (NULL, d) ∧
      (0 < size → ∀ o, ¬ Window (memtblsize memx) (d.memmap memx) (blocks memx size) o)) ∨
    ∃ o, 0 < size ∧ Window (memtblsize memx) (d.memmap memx) (blocks memx size) o ∧
      (∀ s, Window (memtblsize memx) (d.memmap memx) (blocks memx size) s → s ≤ o) ∧
      mymalloc L memx size d = (L.membase memx + 32 * o,
        d.setMap memx (writeRun (d.memmap memx) o (blocks memx size) (blocks memx size))) := by
  rcases mymemMalloc_cases L hr hs with ⟨h, hn⟩ | ⟨o, hpos, hw, hmax, h⟩
  · exact Or.inl ⟨by simp [mymalloc, h], hn⟩
  · exact Or.inr ⟨o, hpos, hw, hmax, by simp [mymalloc, h, offset_ne_noOffset o]⟩

@[simp] theorem myfree_NULL (L : Layout) (memx : Bank) (d : MallcoDev) :
    myfree L memx NULL d = d := by simp [myfree]

/-- Freeing the block at index `o` clears as many entries as its entry says. -/
theorem myfree_block (L : Layout) {memx : Bank} {d : MallcoDev} {o : Nat}
    (hr : d.memrdy memx = true) (ho : o < memtblsize memx) :
    myfree L memx (L.membase memx + 32 * o) d =
      d.setMap memx (writeRun (d.memmap memx) o 0 (d.memmap memx o)) := by
  have hmul := memtblsize_mul memx
  have hle := memsize_le memx
  have hoff : (L.membase memx + 32 * o + 2 ^ 32 - L.membase memx) % 2 ^ 32 = 32 * o := by omega
  have hidx : 32 * o / 32 = o := by omega
  have hlt : 32 * o < memsize memx := by omega
  simp only [myfree, if_neg (block_ne_NULL L memx o), hoff, mymemFree, hr, if_true, if_pos hlt,
    memblksize_eq, hidx]

/-- Every way `myrealloc` of a block of the pool can end: NULL with nothing
changed, or the new block marked and filled and the old one cleared. -/
theorem myrealloc_cases (L : Layout) {memx : Bank} {size i : Nat} {d : MallcoDev}
    (hr : d.memrdy memx = true) (hs : size ≤ memsize memx) (hi : i < memtblsize memx) :
    (myrealloc L memx (L.membase memx + 32 * i) size d = (NULL, d) ∧
      (0 < size → ∀ o, ¬ Window (memtblsize memx) (d.memmap memx) (blocks memx size) o)) ∨
    ∃ o, 0 < size ∧ Window (memtblsize memx) (d.memmap memx) (blocks memx size) o ∧
      (∀ s, Window (memtblsize memx) (d.memmap memx) (blocks memx size) s → s ≤ o) ∧
      let t := writeRun (d.memmap memx) o (blocks memx size) (blocks memx size)
      let p := L.membase memx + 32 * o
      myrealloc L memx (L.membase memx + 32 * i) size d = (p,
        { d.setMap memx (writeRun t i 0 (t i)) with
          mem := mymemcpy d.mem p (L.membase memx + 32 * i) size }) := by
  rcases mymemMalloc_cases L hr hs with ⟨h, hn⟩ | ⟨o, hpos, hw, hmax, h⟩
  · exact Or.inl ⟨by simp [myrealloc, h], hn⟩
  · refine Or.inr ⟨o, hpos, hw, hmax, ?_⟩
    simp only [myrealloc, h, if_neg (offset_ne_noOffset o)]
    rw [myfree_block L (by exact hr) hi]
    simp [MallcoDev.setMap]

/-! ## The other banks -/

/-- The table and the ready flag of bank `b` are kept. -/
structure SameBank (b : Bank) (d d' : MallcoDev) : Prop where
  memmap : d'.memmap b = d.memmap b
  memrdy : d'.memrdy b = d.memrdy b

theorem SameBank.refl (b : Bank) (d : MallcoDev) : SameBank b d d := ⟨rfl, rfl⟩

theorem SameBank.trans {b : Bank} {d d' d'' : MallcoDev} (h : SameBank b d d')
    (h' : SameBank b d' d'') : SameBank b d d'' :=
  ⟨h'.memmap.trans h.memmap, h'.memrdy.trans h.memrdy⟩

section Others
variable {memx b : Bank}

theorem mymemInit_other (L : Layout) (hb : b ≠ memx) (d : MallcoDev) :
    SameBank b d (mymemInit L memx d) :=
  ⟨Function.update_of_ne hb .., Function.update_of_ne hb ..⟩

theorem setMap_other (hb : b ≠ memx) (t : Nat → Nat) (d : MallcoDev) :
    SameBank b d (d.setMap memx t) :=
  ⟨d.setMap_memmap_ne t hb, rfl⟩

theorem mymemMalloc_other (L : Layout) (hb : b ≠ memx) (size : Nat) (d : MallcoDev) :
    SameBank b d (mymemMalloc L memx size d).2 := by
  have hready : SameBank b d (if d.memrdy memx then d else mymemInit L memx d) := by
    split
    · exact .refl b d
    · exact mymemInit_other L hb d
  unfold mymemMalloc
  dsimp only
  split
  · exact hready
  · split
    · exact hready.trans (setMap_other hb _ _)
    · exact hready

theorem mymalloc_other (L : Layout) (hb : b ≠ memx) (size : Nat) (d : MallcoDev) :
    SameBank b d (mymalloc L memx size d).2 := by
  have h := mymemMalloc_other L hb size d
  unfold mymalloc
  dsimp only
  split <;> exact h

theorem myfree_other (L : Layout) (hb : b ≠ memx) (ptr : Nat) (d : MallcoDev) :
    SameBank b d (myfree L memx ptr d) := by
  unfold myfree mymemFree
  split
  · exact .refl b d
  · split
    · split
      · exact setMap_other hb _ _
      · exact .refl b d
    · exact mymemInit_other L hb d

theorem myrealloc_other (L : Layout) (hb : b ≠ memx) (ptr size : Nat) (d : MallcoDev) :
    SameBank b d (myrealloc L memx ptr size d).2 := by
  have h := mymemMalloc_other L hb size d
  unfold myrealloc
  dsimp only
  split
  · exact h
  · have hcopy : ∀ mem, SameBank b d { (mymemMalloc L memx size d).2 with mem := mem } :=
      fun _ => ⟨h.memmap, h.memrdy⟩
    exact (hcopy _).trans (myfree_other L hb ptr _)

end Others

end Generalplate.Malloc
