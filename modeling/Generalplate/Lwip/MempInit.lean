import Mathlib.Data.List.Forall2
import Generalplate.Lib.Align
import Generalplate.Lib.ByteMem
import Generalplate.Lib.RunTable
import Generalplate.Lwip.Memp

/-! # Carving the pools: memp_init

`memp_get_memorysize` sums the room of all pools; `memp_init` walks the same
pools with a running pointer and links each element in front of its pool's free
list, through a next pointer in the element itself. The two agree: the walk
stays inside the block and no element touches another. -/
namespace Generalplate.Lwip
open Lib.ByteMem Lib.Align Lib.RunTable

/-- `LWIP_MEM_ALIGN`. -/
def lwipMemAlign (align addr : Nat) : Nat := (addr + align - 1) % 2 ^ 32 &&& (2 ^ 32 - align)

/-- The entry of `memp_num`, a u16. -/
def mempNum (p : Mempool) : Nat := p.num % 2 ^ 16

/-- The entry of `memp_sizes`, a u16. -/
def mempSizes (align : Nat) (p : Mempool) : Nat := lwipMemAlignSize align p.size % 2 ^ 16

/-- The memory and the variables of the inner loop: `memp_tab[i]` and the
running pointer, with a record of the elements carved, the last one first. -/
structure Carve where
  mem : Nat → UInt8
  tab : Nat
  memp : Nat
  elems : List Nat

/-- One pass of the inner loop. -/
def mempElem (size : Nat) (c : Carve) : Carve where
  mem := put c.mem c.memp (le 4 c.tab)
  tab := c.memp
  memp := (c.memp + mempSize + size) % 2 ^ 32
  elems := c.memp :: c.elems

/-- The state after the first `n` passes. -/
def mempPool (size : Nat) (c : Carve) : Nat → Carve
  | 0 => c
  | n + 1 => mempElem size (mempPool size c n)

/-- A pool of `memp_init`: its entry of `memp_tab` and the elements carved. -/
structure Pool where
  tab : Nat
  elems : List Nat

/-- The outer loop; `memp_tab[i]` starts as NULL (0). -/
def mempPools (align : Nat) : List Mempool → (Nat → UInt8) → Nat → (Nat → UInt8) × List Pool
  | [], mem, _ => (mem, [])
  | p :: ps, mem, memp =>
    let c := mempPool (mempSizes align p) ⟨mem, 0, memp, []⟩ (mempNum p)
    let r := mempPools align ps c.mem c.memp
    (r.1, ⟨c.tab, c.elems⟩ :: r.2)

/-- With 2^16 pools or more the u16 index of the outer loop never reaches
`MEMP_MAX`, and the call does not return. -/
def mempInit (align : Nat) (pools : List Mempool) (mempMemory : Nat) (mem : Nat → UInt8) :
    Option ((Nat → UInt8) × List Pool) :=
  if pools.length < 2 ^ 16 then
    some (mempPools align pools mem (lwipMemAlign align mempMemory))
  else none

/-- A pool the types of memp.c are made for: its number and its aligned element
size are u16 values, and an element has room for the pointer kept in it. -/
structure Mempool.Legal (align : Nat) (p : Mempool) : Prop where
  num : p.num < 2 ^ 16
  size : p.size < 2 ^ 32
  room : 0 < p.num → 4 ≤ lwipMemAlignSize align p.size
  fits : 0 < p.num → lwipMemAlignSize align p.size < 2 ^ 16

/-! ## One pool -/

/-- The first `n` elements of size `s` from `m` on, the last one first. -/
def carved (m s : Nat) : Nat → List Nat
  | 0 => []
  | n + 1 => (m + n * s) :: carved m s n

section Pool
variable {m s n : Nat} {mem0 : Nat → UInt8} {c : Carve}

theorem mem_carved {x : Nat} : x ∈ carved m s n ↔ ∃ j, j < n ∧ x = m + j * s := by
  induction n with
  | zero => simp [carved]
  | succ n ih =>
    rw [carved, List.mem_cons, ih]
    constructor
    · rintro (rfl | ⟨j, hj, rfl⟩)
      · exact ⟨n, Nat.lt_succ_self n, rfl⟩
      · exact ⟨j, Nat.lt_succ_of_lt hj, rfl⟩
    · rintro ⟨j, hj, rfl⟩
      rcases Nat.lt_succ_iff_lt_or_eq.mp hj with hj | rfl
      · exact Or.inr ⟨j, hj, rfl⟩
      · exact Or.inl rfl

@[simp] theorem length_carved (m s n : Nat) : (carved m s n).length = n := by
  induction n with
  | zero => rfl
  | succ n ih => rw [carved, List.length_cons, ih]

/-- Every element lies in the room of the first `n`. -/
theorem carved_inside {x : Nat} (hx : x ∈ carved m s n) : m ≤ x ∧ x + s ≤ m + n * s := by
  obtain ⟨j, hj, rfl⟩ := mem_carved.mp hx
  have hle : (j + 1) * s ≤ n * s := Nat.mul_le_mul_right s hj
  rw [Nat.succ_mul] at hle
  omega

theorem carved_runs_inside {r : Run} (hr : r ∈ (carved m s n).map (Run.mk · s)) :
    m ≤ r.start ∧ r.start + r.len ≤ m + n * s := by
  obtain ⟨x, hx, rfl⟩ := List.mem_map.mp hr
  exact carved_inside hx

/-- The elements lie apart. -/
theorem carved_apart : ((carved m s n).map (Run.mk · s)).Pairwise Run.Apart := by
  induction n with
  | zero => exact List.Pairwise.nil
  | succ n ih =>
    refine List.pairwise_cons.mpr ⟨fun r hr => ?_, ih⟩
    obtain ⟨x, hx, rfl⟩ := List.mem_map.mp hr
    exact Or.inr (carved_inside hx).2

/-- What the inner loop holds after `n` passes from `m` on: the running pointer
behind `n` elements, the free list of exactly these, and nothing below touched. -/
structure Carved (mem0 : Nat → UInt8) (m s n : Nat) (c : Carve) : Prop where
  memp : c.memp = (m + n * s) % 2 ^ 32
  elems : c.elems = carved m s n
  linked : Linked c.mem c.tab c.elems
  tab : c.tab < 2 ^ 32
  below : ∀ x, x < m → c.mem x = mem0 x

theorem Carved.step (h : Carved mem0 m s n c) (hm : 0 < m) (hs : 4 ≤ s)
    (hend : m + (n + 1) * s ≤ 2 ^ 32) : Carved mem0 m s (n + 1) (mempElem s c) := by
  rw [Nat.succ_mul] at hend
  have hmemp : c.memp = m + n * s := by rw [h.memp, Nat.mod_eq_of_lt (by omega)]
  refine ⟨?_, ?_, ?_, ?_, fun x hx => ?_⟩
  · simp only [mempElem, mempSize, Nat.add_zero]
    rw [hmemp, Nat.succ_mul, Nat.add_assoc]
  · simp only [mempElem, h.elems, hmemp, carved]
  · refine h.linked.push h.tab (by omega) fun x hx => ?_
    rw [h.elems] at hx
    have := (carved_inside hx).2
    omega
  · simp only [mempElem]
    omega
  · simp only [mempElem]
    rw [put_out (by omega)]
    exact h.below x hx

theorem mempPool_carved (mem0 : Nat → UInt8) (hm : 0 < n → 0 < m) (hs : 0 < n → 4 ≤ s)
    (hend : m + n * s ≤ 2 ^ 32) : Carved mem0 m s n (mempPool s ⟨mem0, 0, m % 2 ^ 32, []⟩ n) := by
  induction n with
  | zero =>
    refine ⟨?_, rfl, rfl, Nat.two_pow_pos 32, fun x _ => rfl⟩
    simp [mempPool]
  | succ n ih =>
    have hpos : 0 < n + 1 := Nat.zero_lt_succ n
    have hle : n * s ≤ (n + 1) * s := Nat.mul_le_mul_right s (Nat.le_succ n)
    exact (ih (fun _ => hm hpos) (fun _ => hs hpos) (by omega)).step (hm hpos) (hs hpos) hend

end Pool

/-! ## All pools -/

/-- The elements of all pools, with the bytes each has. -/
def poolRuns (align : Nat) (pools : List Mempool) (ts : List Pool) : List Run :=
  (List.zipWith (fun p t => t.elems.map (Run.mk · (lwipMemAlignSize align p.size)))
    pools ts).flatten

theorem poolRuns_cons (align : Nat) (p : Mempool) (pools : List Mempool) (t : Pool)
    (ts : List Pool) : poolRuns align (p :: pools) (t :: ts) =
      t.elems.map (Run.mk · (lwipMemAlignSize align p.size)) ++ poolRuns align pools ts := rfl

/-- A pool laid out between the addresses `lo` and `hi`: its free list is exactly
its elements, each once, and every element is aligned, large enough and inside. -/
structure PoolLaid (mem : Nat → UInt8) (align lo hi : Nat) (p : Mempool) (t : Pool) : Prop where
  free : Linked mem t.tab t.elems
  count : t.elems.length = p.num
  once : t.elems.Nodup
  aligned : ∀ x ∈ t.elems, align ∣ x
  large : ∀ x ∈ t.elems, p.size ≤ lwipMemAlignSize align p.size
  inside : ∀ x ∈ t.elems, lo ≤ x ∧ x + lwipMemAlignSize align p.size ≤ hi

section Legal
variable {e : Nat} {p : Mempool}

theorem mempNum_eq (h : p.Legal (2 ^ e)) : mempNum p = p.num := Nat.mod_eq_of_lt h.num

theorem mempSizes_eq (h : p.Legal (2 ^ e)) (hn : 0 < p.num) :
    mempSizes (2 ^ e) p = lwipMemAlignSize (2 ^ e) p.size := Nat.mod_eq_of_lt (h.fits hn)

/-- The aligned size is the size rounded up, unless it has no 32-bit value. -/
theorem lwipMemAlignSize_eq (he : e ≤ 32) (h : p.Legal (2 ^ e)) (hn : 0 < p.num) :
    lwipMemAlignSize (2 ^ e) p.size = alignUp e p.size := by
  have hroom := h.room hn
  have heq : lwipMemAlignSize (2 ^ e) p.size = alignUp e p.size % 2 ^ 32 := add_and_mask he p.size
  have hle : alignUp e p.size ≤ 2 ^ 32 :=
    alignUp_le e p.size (Nat.le_of_lt h.size) (Nat.pow_dvd_pow 2 he)
  rcases Nat.lt_or_eq_of_le hle with hlt | hwrap
  · rw [heq, Nat.mod_eq_of_lt hlt]
  · rw [heq, hwrap, Nat.mod_self] at hroom
    omega

/-- A pool fills as much room as `memp_get_memorysize` counts for it. -/
theorem room_eq (h : p.Legal (2 ^ e)) :
    p.num * mempSizes (2 ^ e) p = p.num * (mempSize + lwipMemAlignSize (2 ^ e) p.size) := by
  rcases Nat.eq_zero_or_pos p.num with hn | hn
  · rw [hn, Nat.zero_mul, Nat.zero_mul]
  · rw [mempSizes_eq h hn, mempSize, Nat.zero_add]

/-- Elements of a pool lie whole multiples of the alignment apart. -/
theorem dvd_mempSizes (he : e ≤ 32) (h : p.Legal (2 ^ e)) {j : Nat} (hn : 0 < p.num) :
    2 ^ e ∣ j * mempSizes (2 ^ e) p := by
  rw [mempSizes_eq h hn, lwipMemAlignSize_eq he h hn]
  exact Nat.dvd_trans (dvd_alignUp e p.size) (Nat.dvd_mul_left _ _)

/-- The running pointer is aligned behind a pool when it was before it. -/
theorem dvd_behind (he : e ≤ 32) (h : p.Legal (2 ^ e)) {m : Nat} (hd : 2 ^ e ∣ m) :
    2 ^ e ∣ m + p.num * mempSizes (2 ^ e) p := by
  rcases Nat.eq_zero_or_pos p.num with hn | hn
  · rw [hn, Nat.zero_mul]; exact hd
  · exact Nat.dvd_add hd (dvd_mempSizes he h hn)

/-- The runs of a pool's elements, with the size as the inner loop steps. -/
theorem map_carved (h : p.Legal (2 ^ e)) (m : Nat) :
    (carved m (mempSizes (2 ^ e) p) p.num).map (Run.mk · (lwipMemAlignSize (2 ^ e) p.size)) =
      (carved m (mempSizes (2 ^ e) p) p.num).map (Run.mk · (mempSizes (2 ^ e) p)) := by
  rcases Nat.eq_zero_or_pos p.num with hn | hn
  · rw [hn]; rfl
  · rw [mempSizes_eq h hn]

theorem PoolLaid.weaken {mem : Nat → UInt8} {align lo lo' hi : Nat} {t : Pool}
    (h : PoolLaid mem align lo' hi p t) (hlo : lo ≤ lo') : PoolLaid mem align lo hi p t :=
  { h with inside := fun x hx => ⟨Nat.le_trans hlo (h.inside x hx).1, (h.inside x hx).2⟩ }

/-- The inner loop lays out one pool, in a memory that may change further up. -/
theorem poolLaid_of_carved {mem0 mem : Nat → UInt8} {m hi : Nat} {c : Carve} (he : e ≤ 32)
    (h : p.Legal (2 ^ e)) (hd : 2 ^ e ∣ m)
    (hc : Carved mem0 m (mempSizes (2 ^ e) p) p.num c)
    (hend : m + p.num * mempSizes (2 ^ e) p ≤ hi)
    (hmem : ∀ x, x < m + p.num * mempSizes (2 ^ e) p → mem x = c.mem x) :
    PoolLaid mem (2 ^ e) m hi p ⟨c.tab, c.elems⟩ := by
  have hmembers : ∀ x ∈ c.elems, 0 < p.num ∧ x ∈ carved m (mempSizes (2 ^ e) p) p.num := by
    intro x hx
    rw [hc.elems] at hx
    obtain ⟨j, hj, _⟩ := mem_carved.mp hx
    exact ⟨Nat.zero_lt_of_lt hj, hx⟩
  refine ⟨?_, ?_, ?_, fun x hx => ?_, fun x hx => ?_, fun x hx => ?_⟩
  · refine hc.linked.congr fun x hx y _ hy => hmem y ?_
    obtain ⟨hn, hx⟩ := hmembers x hx
    have hin := (carved_inside hx).2
    have hroom := h.room hn
    rw [← mempSizes_eq h hn] at hroom
    omega
  · rw [hc.elems, length_carved]
  · rw [hc.elems]
    refine (List.pairwise_map.mp carved_apart).imp_of_mem fun {x y} hx _ hxy => ?_
    obtain ⟨j, hj, _⟩ := mem_carved.mp hx
    have hroom := h.room (Nat.zero_lt_of_lt hj)
    rw [← mempSizes_eq h (Nat.zero_lt_of_lt hj)] at hroom
    simp only [Run.Apart] at hxy
    omega
  · obtain ⟨hn, hx⟩ := hmembers x hx
    obtain ⟨j, _, rfl⟩ := mem_carved.mp hx
    exact Nat.dvd_add hd (dvd_mempSizes he h hn)
  · rw [lwipMemAlignSize_eq he h (hmembers x hx).1]
    exact le_alignUp e p.size
  · obtain ⟨hn, hx⟩ := hmembers x hx
    have hin := carved_inside hx
    rw [← mempSizes_eq h hn]
    omega

end Legal

/-- The outer loop lays out all pools from `m` on, one behind the other. -/
theorem mempPools_laid {e : Nat} (he : e ≤ 32) {pools : List Mempool}
    (hl : ∀ p ∈ pools, p.Legal (2 ^ e)) {m : Nat} (hm : 0 < m) (hd : 2 ^ e ∣ m)
    (hend : m + poolRoom (2 ^ e) pools ≤ 2 ^ 32) (mem : Nat → UInt8) :
    let r := mempPools (2 ^ e) pools mem (m % 2 ^ 32)
    (∀ x, x < m → r.1 x = mem x) ∧
      List.Forall₂ (PoolLaid r.1 (2 ^ e) m (m + poolRoom (2 ^ e) pools)) pools r.2 ∧
      (poolRuns (2 ^ e) pools r.2).Pairwise Run.Apart ∧
      ∀ run ∈ poolRuns (2 ^ e) pools r.2, m ≤ run.start := by
  induction pools generalizing m mem with
  | nil => exact ⟨fun _ _ => rfl, List.Forall₂.nil, List.Pairwise.nil, by simp [poolRuns]⟩
  | cons p pools ih =>
    obtain ⟨hp, hl⟩ := List.forall_mem_cons.mp hl
    have hsum : poolRoom (2 ^ e) (p :: pools) =
        p.num * mempSizes (2 ^ e) p + poolRoom (2 ^ e) pools := by
      rw [room_eq hp]
      rfl
    rw [hsum] at hend ⊢
    have hstride : 0 < p.num → 4 ≤ mempSizes (2 ^ e) p := by
      intro hn
      rw [mempSizes_eq hp hn]
      exact hp.room hn
    have hc := mempPool_carved mem (fun _ => hm) hstride
      (Nat.le_trans (by omega) hend : m + p.num * mempSizes (2 ^ e) p ≤ 2 ^ 32)
    obtain ⟨c, hcdef⟩ : ∃ c, mempPool (mempSizes (2 ^ e) p) ⟨mem, 0, m % 2 ^ 32, []⟩ p.num = c :=
      ⟨_, rfl⟩
    rw [hcdef] at hc
    obtain ⟨hbelow, hlaid, hapart, hfrom⟩ := ih hl (m := m + p.num * mempSizes (2 ^ e) p)
      (by omega) (dvd_behind he hp hd) (by omega) c.mem
    rw [← hc.memp] at hbelow hlaid hapart hfrom
    simp only [mempPools, mempNum_eq hp, hcdef]
    refine ⟨fun x hx => ?_, List.Forall₂.cons ?_ ?_, ?_, ?_⟩
    · rw [hbelow x (by omega)]
      exact hc.below x hx
    · exact poolLaid_of_carved he hp hd hc (by omega) hbelow
    · rw [← Nat.add_assoc]
      exact hlaid.imp fun _ _ h => h.weaken (by omega)
    · rw [poolRuns_cons, hc.elems, map_carved hp]
      refine List.pairwise_append.mpr ⟨carved_apart, hapart, fun r hr r' hr' => ?_⟩
      have hfirst := (carved_runs_inside hr).2
      have hsecond := hfrom r' hr'
      exact Or.inl (Nat.le_trans hfirst hsecond)
    · rw [poolRuns_cons, hc.elems, map_carved hp]
      intro r hr
      rcases List.mem_append.mp hr with hr | hr
      · exact (carved_runs_inside hr).1
      · have := hfrom r hr
        omega

/-- **The block is large enough for the walk.** For every list of pools the types
of memp.c are made for and whose room is a u32, every alignment that is a power of
two and every place of the block in the address space, `memp_init` returns; each
pool's free list is exactly its elements, and all elements are aligned, large enough,
inside the block of `memp_get_memorysize` bytes and apart from each other. -/
theorem mempInit_laid (e : Nat) {pools : List Mempool} (hl : ∀ p ∈ pools, p.Legal (2 ^ e))
    (hmax : pools.length < 2 ^ 16) (hroom : 2 ^ e - 1 + poolRoom (2 ^ e) pools < 2 ^ 32)
    {mempMemory : Nat} (hbase : 0 < mempMemory)
    (hfits : mempMemory + mempGetMemorysize (2 ^ e) pools ≤ 2 ^ 32) (mem : Nat → UInt8) :
    ∃ mem' ts, mempInit (2 ^ e) pools mempMemory mem = some (mem', ts) ∧
      List.Forall₂ (PoolLaid mem' (2 ^ e) mempMemory
        (mempMemory + mempGetMemorysize (2 ^ e) pools)) pools ts ∧
      (poolRuns (2 ^ e) pools ts).Pairwise Run.Apart := by
  have hsize : mempGetMemorysize (2 ^ e) pools = 2 ^ e - 1 + poolRoom (2 ^ e) pools :=
    Nat.mod_eq_of_lt hroom
  have hpow := Nat.two_pow_pos e
  have he : e ≤ 32 := (Nat.pow_le_pow_iff_right (by decide : 1 < 2)).mp (by omega)
  have hstart := alignUp_lt e mempMemory
  have hle := le_alignUp e mempMemory
  have hfirst : lwipMemAlign (2 ^ e) mempMemory = alignUp e mempMemory % 2 ^ 32 := by
    rw [lwipMemAlign, mod_and_mask, add_and_mask he]
  obtain ⟨_, hlaid, hapart, _⟩ := mempPools_laid he hl (m := alignUp e mempMemory) (by omega)
    (dvd_alignUp e mempMemory) (by omega) mem
  refine ⟨_, _, by rw [mempInit, if_pos hmax, hfirst], hlaid.imp fun p t h => ?_, hapart⟩
  exact { h with inside := fun x hx => by have := h.inside x hx; omega }

instance (align : Nat) (p : Mempool) : Decidable (p.Legal align) :=
  decidable_of_iff (p.num < 2 ^ 16 ∧ p.size < 2 ^ 32 ∧
      (0 < p.num → 4 ≤ lwipMemAlignSize align p.size ∧ lwipMemAlignSize align p.size < 2 ^ 16))
    ⟨fun ⟨h1, h2, h3⟩ => ⟨h1, h2, fun hn => (h3 hn).1, fun hn => (h3 hn).2⟩,
      fun h => ⟨h.num, h.size, fun hn => ⟨h.room hn, h.fits hn⟩⟩⟩

/-- The pools of this board at an address that is not a multiple of 4. -/
theorem mempInit_laid_board : ∃ mem' ts,
    mempInit 4 mempStd 0x20002109 (fun _ => 0) = some (mem', ts) ∧
      List.Forall₂ (PoolLaid mem' 4 0x20002109 (0x20002109 + mempGetMemorysize 4 mempStd))
        mempStd ts ∧
      (poolRuns 4 mempStd ts).Pairwise Run.Apart :=
  mempInit_laid 2 (by decide) (by decide) (by decide) (by decide) (by decide) (fun _ => 0)

/-- Pools of more than 4 GiB, for which `memp_get_memorysize` returns 7. -/
def wrapPools : List Mempool := [⟨32768, 65532⟩, ⟨32768, 65532⟩, ⟨4, 65532⟩, ⟨1, 20⟩]

/-- Two elements of 65536 bytes lie at one address, for their size is not a u16
value; with 2-byte elements the next pointer of the second runs into the first,
whose own no longer ends the list; and the size asked for is too small when the sum of
the rooms is no u32. -/
theorem mempInit_not_laid :
    (∃ mem' ts, mempInit 4 [⟨2, 65536⟩] 0x20002108 (fun _ => 0) = some (mem', ts) ∧
      ¬ (poolRuns 4 [⟨2, 65536⟩] ts).Pairwise Run.Apart) ∧
    (∃ mem' ts, mempInit 1 [⟨2, 2⟩] 0x20002108 (fun _ => 0) = some (mem', ts) ∧
      ¬ List.Forall₂ (PoolLaid mem' 1 0x20002108 (0x20002108 + mempGetMemorysize 1 [⟨2, 2⟩]))
        [⟨2, 2⟩] ts) ∧
    (∃ mem' ts, mempInit 4 wrapPools 0x20002108 (fun _ => 0) = some (mem', ts) ∧
      ¬ List.Forall₂ (PoolLaid mem' 4 0x20002108 (0x20002108 + mempGetMemorysize 4 wrapPools))
        wrapPools ts) := by
  refine ⟨⟨_, _, rfl, ?_⟩, ⟨_, _, rfl, fun h => ?_⟩, ⟨_, _, if_pos (by decide), fun h => ?_⟩⟩
  · intro hp
    have hpair := (List.pairwise_cons.mp hp).1 ⟨0x20002108, 65536⟩ (by decide)
    revert hpair
    decide +kernel
  · have hfree := (List.forall₂_cons.mp h).1.free
    revert hfree
    decide +kernel
  · obtain ⟨t, _, hfirst, -⟩ := List.forall₂_cons_left_iff.mp h
    obtain ⟨x, hx⟩ := List.exists_mem_of_length_pos
      (hfirst.count.symm ▸ (by decide : 0 < 32768) : 0 < t.elems.length)
    obtain ⟨hlo, hhi⟩ := hfirst.inside x hx
    have hsize : mempGetMemorysize 4 wrapPools = 7 := by decide
    have halign : lwipMemAlignSize 4 65532 = 65532 := by decide
    simp only [hsize, halign] at hhi
    omega

end Generalplate.Lwip
