import Mathlib.Data.List.Perm.Subperm
import Generalplate.Malloc.Group

/-! # Giving blocks back

`mymem_free` reads the length of a run from the entry its offset falls on and
clears as many entries from there on. That is the allocation's own run when the
offset lies in its first block; from a later block the same length reaches past
the end of the allocation. -/
namespace Generalplate.Malloc
open Lib.RunTable

/-- The entries `mymem_free` sets to 0, in its order. -/
def freeCleared (memx : Bank) (offset : Nat) (d : MallcoDev) : List Nat :=
  if d.memrdy memx then
    if offset < memsize memx then
      let index := offset / memblksize memx
      (List.range (d.memmap memx index)).map (index + ·)
    else []
  else List.range (memtblsize memx)

/-- Every index of the table `mymem_free` reads or writes at. -/
def freeAccessed (memx : Bank) (offset : Nat) (d : MallcoDev) : List Nat :=
  if d.memrdy memx ∧ offset < memsize memx then
    offset / memblksize memx :: freeCleared memx offset d
  else freeCleared memx offset d

/-- The offset lies in the blocks of the allocation. -/
def Alloc.Holds (L : Layout) (memx : Bank) (offset : Nat) (a : Alloc) : Prop :=
  a.ptr ≤ L.membase memx + offset ∧ L.membase memx + offset < a.fin memx

/-- The offset lies in a block of the allocation behind the first. -/
def Alloc.HoldsLater (L : Layout) (memx : Bank) (offset : Nat) (a : Alloc) : Prop :=
  a.ptr + memblksize memx ≤ L.membase memx + offset ∧ L.membase memx + offset < a.fin memx

/-- Freeing the offset stays in the table and clears entries of the one
allocation that contains it, those of every other live allocation being kept. -/
structure FreeConfined (L : Layout) (memx : Bank) (offset : Nat) (d : MallcoDev)
    (live : List Alloc) : Prop where
  bounded : ∀ i ∈ freeAccessed memx offset d, i < memtblsize memx
  cleared : ∀ i ∈ freeCleared memx offset d,
    ∃ a ∈ live, a.Holds L memx offset ∧ (a.run L memx).Covers i
  kept : ∀ a ∈ live, ¬ a.Holds L memx offset → ∀ i, (a.run L memx).Covers i →
    (mymemFree L memx offset d).2.memmap memx i = d.memmap memx i

theorem mem_entries {s k i : Nat} : i ∈ (List.range k).map (s + ·) ↔ s ≤ i ∧ i < s + k := by
  rw [List.mem_map]
  constructor
  · rintro ⟨j, hj, rfl⟩
    have := List.mem_range.mp hj
    omega
  · intro hi
    exact ⟨i - s, List.mem_range.mpr (by omega), by omega⟩

/-- `freeCleared` is what `mymem_free` clears. -/
theorem mymemFree_memmap (L : Layout) (memx : Bank) (offset : Nat) (d : MallcoDev) (i : Nat) :
    (mymemFree L memx offset d).2.memmap memx i =
      if i ∈ freeCleared memx offset d then 0 else d.memmap memx i := by
  unfold mymemFree freeCleared
  split
  · split
    · simp only [MallcoDev.setMap_memmap_self, writeRun_apply, mem_entries]
    · simp
  · simp [mymemInit, writeRun_apply]

section Confined
variable {L : Layout} {memx : Bank} {d : MallcoDev} {live : List Alloc} {offset : Nat}

/-- The entries cleared at an offset of a ready bank. -/
theorem mem_freeCleared (hr : d.memrdy memx = true) (ho : offset < memsize memx) {i : Nat} :
    i ∈ freeCleared memx offset d ↔
      (⟨offset / 32, d.memmap memx (offset / 32)⟩ : Run).Covers i := by
  simp only [freeCleared, hr, if_true, if_pos ho, memblksize_eq, mem_entries, Run.Covers]

/-- An allocation contains the offset when its run covers the offset's entry. -/
theorem Inv.holds_iff (h : Inv L memx (fun _ => 0) d live) {a : Alloc} (ha : a ∈ live) :
    a.Holds L memx offset ↔ (a.run L memx).Covers (offset / 32) := by
  have hp := h.placed a ha
  have hf := h.fin_eq ha
  simp only [Alloc.Holds, Run.Covers]
  omega

theorem Inv.holdsLater_iff (h : Inv L memx (fun _ => 0) d live) {a : Alloc} (ha : a ∈ live) :
    a.HoldsLater L memx offset ↔
      (a.run L memx).start < offset / 32 ∧ (a.run L memx).Covers (offset / 32) := by
  have hp := h.placed a ha
  have hf := h.fin_eq ha
  simp only [Alloc.HoldsLater, Run.Covers, memblksize_eq]
  omega

/-- From a later block the length read reaches an entry behind the run. -/
theorem Inv.not_confined (h : Inv L memx (fun _ => 0) d live) {a : Alloc} (ha : a ∈ live)
    (hl : a.HoldsLater L memx offset) : ¬ FreeConfined L memx offset d live := by
  intro hc
  obtain ⟨hstart, hcov⟩ := (h.holdsLater_iff ha).mp hl
  have hm : a.run L memx ∈ live.map (Alloc.run L memx) := List.mem_map_of_mem ha
  have hin := h.table.inside _ hm
  have hmul := memtblsize_mul memx
  have ho : offset < memsize memx := by simp only [Run.Covers] at hcov; omega
  have hval : d.memmap memx (offset / 32) = (a.run L memx).len := h.table.held _ hm _ hcov
  have hpos := h.table.pos _ hm
  have hlast : offset / 32 + (a.run L memx).len - 1 ∈ freeCleared memx offset d := by
    rw [mem_freeCleared h.ready ho, hval]
    simp only [Run.Covers]
    omega
  obtain ⟨c, hcl, hholds, hlc⟩ := hc.cleared _ hlast
  have hsame : c.run L memx = a.run L memx :=
    h.table.eq_of_covers (List.mem_map_of_mem hcl) hm ((h.holds_iff hcl).mp hholds) hcov
  rw [hsame] at hlc
  simp only [Run.Covers] at hlc hcov
  omega

/-- From anywhere else exactly the allocation's own run is cleared, or nothing. -/
theorem Inv.confined (h : Inv L memx (fun _ => 0) d live)
    (hn : ∀ a ∈ live, ¬ a.HoldsLater L memx offset) : FreeConfined L memx offset d live := by
  by_cases ho : offset < memsize memx
  · have hmul := memtblsize_mul memx
    have hidx : offset / 32 < memtblsize memx := by omega
    -- what is cleared is covered by an allocation that starts at the offset's entry
    have hown : ∀ i ∈ freeCleared memx offset d,
        ∃ a ∈ live, (a.run L memx).Covers (offset / 32) ∧ (a.run L memx).Covers i := by
      intro i hi
      rw [mem_freeCleared h.ready ho] at hi
      have hused : d.memmap memx (offset / 32) ≠ 0 := by simp only [Run.Covers] at hi; omega
      obtain ⟨r, hr, hcov⟩ := h.table.exists_covers hidx hused
      obtain ⟨a, ha, rfl⟩ := List.mem_map.mp hr
      have hval := h.table.held _ hr _ hcov
      have hfirst : ¬ (a.run L memx).start < offset / 32 :=
        fun hlt => hn a ha ((h.holdsLater_iff ha).mpr ⟨hlt, hcov⟩)
      refine ⟨a, ha, hcov, ?_⟩
      simp only [Run.Covers] at hi hcov ⊢
      omega
    have hcleared : ∀ i ∈ freeCleared memx offset d, i < memtblsize memx := by
      intro i hi
      obtain ⟨a, ha, _, hcov⟩ := hown i hi
      have hin := h.table.inside _ (List.mem_map_of_mem ha)
      simp only [Run.Covers] at hcov
      omega
    refine ⟨fun i hi => ?_, fun i hi => ?_, fun a ha hna i hcov => ?_⟩
    · rw [freeAccessed, if_pos ⟨h.ready, ho⟩, memblksize_eq] at hi
      rcases List.mem_cons.mp hi with rfl | hi
      · exact hidx
      · exact hcleared i hi
    · obtain ⟨a, ha, hcov, hi⟩ := hown i hi
      exact ⟨a, ha, (h.holds_iff ha).mpr hcov, hi⟩
    · rw [mymemFree_memmap, if_neg]
      intro hi
      obtain ⟨c, hc, hcidx, hci⟩ := hown i hi
      have hsame : c.run L memx = a.run L memx :=
        h.table.eq_of_covers (List.mem_map_of_mem hc) (List.mem_map_of_mem ha) hci hcov
      exact hna ((h.holds_iff ha).mpr (hsame ▸ hcidx))
  · have hnone : freeCleared memx offset d = [] := by
      simp only [freeCleared, h.ready, if_true, if_neg ho]
    refine ⟨fun i hi => ?_, fun i hi => ?_, fun a _ _ i _ => ?_⟩
    · rw [freeAccessed, if_neg (fun hand => ho hand.2), hnone] at hi
      cases hi
    · rw [hnone] at hi
      cases hi
    · rw [mymemFree_memmap, hnone, if_neg List.not_mem_nil]

end Confined

/-- **When freeing an offset is confined**, in any state a run reaches: just
when the offset does not lie in a second or later block of a live allocation. -/
theorem mymemFree_confined_iff (L : Layout) (memx : Bank) {d : MallcoDev} {live : List Alloc}
    (h : Reach L memx d live) (offset : Nat) :
    FreeConfined L memx offset d live ↔ ∀ a ∈ live, ¬ a.HoldsLater L memx offset :=
  ⟨fun hc _ ha hl => h.inv.not_confined ha hl hc, fun hn => h.inv.confined hn⟩

/-- The internal bank of the board after its first request, for `size` bytes. -/
def firstTaken (size : Nat) : Nat × MallcoDev :=
  mymalloc boardLayout .sramIn size (mymemInit boardLayout .sramIn blankDev)

theorem firstTaken_reach {size : Nat} (hs : size ≤ memsize .sramIn)
    (hp : (firstTaken size).1 ≠ NULL) :
    Reach boardLayout .sramIn (firstTaken size).2 [⟨(firstTaken size).1, size⟩] := by
  have hreach := Reach.malloc size (@Reach.init boardLayout .sramIn blankDev) hs
  have hlive : grant (firstTaken size).1 size [] = [⟨(firstTaken size).1, size⟩] := if_neg hp
  rwa [← firstTaken, hlive] at hreach

/-- The first block of two, on the board. -/
theorem mymemFree_confined_iff_board :
    FreeConfined boardLayout .sramIn 102336 (firstTaken 64).2 [⟨(firstTaken 64).1, 64⟩] ↔
      ∀ a ∈ [(⟨(firstTaken 64).1, 64⟩ : Alloc)], ¬ a.HoldsLater boardLayout .sramIn 102336 :=
  mymemFree_confined_iff boardLayout .sramIn
    (firstTaken_reach (by decide : 64 ≤ memsize .sramIn) (by decide +kernel)) 102336

/-- Freeing the second of the bank's two highest blocks, which hold 64 bytes,
stores behind the end of the table. -/
theorem mymemFree_past_table :
    Reach boardLayout .sramIn (firstTaken 64).2 [⟨(firstTaken 64).1, 64⟩] ∧
      memtblsize .sramIn ∈ freeAccessed .sramIn 102368 (firstTaken 64).2 ∧
      ¬ FreeConfined boardLayout .sramIn 102368 (firstTaken 64).2 [⟨(firstTaken 64).1, 64⟩] := by
  have hpast : memtblsize .sramIn ∈ freeAccessed .sramIn 102368 (firstTaken 64).2 := by
    decide +kernel
  refine ⟨firstTaken_reach (by decide) (by decide +kernel), hpast, fun hc => ?_⟩
  exact Nat.lt_irrefl _ (hc.bounded _ hpast)

/-! ## Freeing undoes allocating -/

section Undo
variable {L : Layout} {memx : Bank} {d : MallcoDev} {live : List Alloc}

/-- Freeing a block that was just marked takes the table back. -/
theorem myfree_marked {o k : Nat} (hr : d.memrdy memx = true) (hk : 0 < k)
    (hw : Window (memtblsize memx) (d.memmap memx) k o) :
    myfree L memx (L.membase memx + 32 * o)
      (d.setMap memx (writeRun (d.memmap memx) o k k)) = d := by
  have hin := hw.1
  have ho : o < memtblsize memx := by omega
  have hval : writeRun (d.memmap memx) o k k o = k := writeRun_in (Nat.le_refl o) (by omega)
  have hback : writeRun (writeRun (d.memmap memx) o k k) o 0 k = d.memmap memx := by
    funext i
    by_cases hi : o ≤ i ∧ i < o + k
    · rw [writeRun_in hi.1 hi.2, hw.2 i hi.1 hi.2]
    · rw [writeRun_out (by omega), writeRun_out (by omega)]
  rw [myfree_block L (by exact hr) ho, MallcoDev.setMap_memmap_self, hval, hback,
    MallcoDev.setMap_setMap]
  simp [MallcoDev.setMap]

/-- A request that succeeds is undone by freeing its result, unless its block
count reduces to 0 and the bank is in use. -/
theorem myfree_mymalloc_iff (h : Inv L memx (fun _ => 0) d live) (size : Nat) :
    ((mymalloc L memx size d).1 ≠ NULL →
      (myfree L memx (mymalloc L memx size d).1 (mymalloc L memx size d).2).memmap memx =
        d.memmap memx) ↔
      size = 0 ∨ blocks memx size % 2 ^ 16 ≠ 0 ∨ live = [] := by
  rcases Nat.eq_zero_or_pos size with rfl | hpos
  · refine iff_of_true (fun hne => absurd ?_ hne) (Or.inl rfl)
    simp [mymalloc, mymemMalloc, h.ready]
  rcases mymemMalloc_ends L h.ready hpos rfl with
    ⟨he, _, hz⟩ | ⟨o, hk, hw, _, he⟩ | ⟨o, hk, ho, hused, _, he⟩
  · have hnull : mymalloc L memx size d = (NULL, d) := by simp [mymalloc, he]
    rw [hnull]
    refine iff_of_true (fun hne => absurd rfl hne) (Or.inr ?_)
    by_cases hk : blocks memx size % 2 ^ 16 = 0
    · exact Or.inr (h.same_iff.mp (hz hk))
    · exact Or.inl hk
  · have hblock : mymalloc L memx size d = (L.membase memx + 32 * o, d.setMap memx
        (writeRun (d.memmap memx) o (blocks memx size % 2 ^ 16) (blocks memx size % 2 ^ 16))) := by
      simp [mymalloc, he, offset_ne_noOffset o]
    rw [hblock]
    refine iff_of_true (fun _ => ?_) (Or.inr (Or.inl (Nat.ne_of_gt hk)))
    rw [myfree_marked h.ready hk hw]
  · have hblock : mymalloc L memx size d = (L.membase memx + 32 * o, d) := by
      simp [mymalloc, he, offset_ne_noOffset o]
    rw [hblock]
    refine iff_of_false (fun hback => ?_) ?_
    · -- the entry in use that was handed out is cleared
      have hsame := congrFun (hback (block_ne_NULL L memx o)) o
      rw [myfree_block L h.ready ho, MallcoDev.setMap_memmap_self,
        writeRun_in (Nat.le_refl o) (by omega)] at hsame
      exact hused hsame.symm
    · rintro (rfl | hne | rfl)
      · omega
      · exact hne hk
      · exact hused (h.same_iff.mpr rfl o ho)

/-- Freeing a list of live allocations clears exactly their runs. -/
theorem freeAll_apply {as : List Alloc} (h : Inv L memx (fun _ => 0) d live)
    (hs : as.Subperm live) (i : Nat) :
    ((∃ a ∈ as, (a.run L memx).Covers i) →
      (freeAll L memx (as.map Alloc.ptr) d).memmap memx i = 0) ∧
    ((∀ a ∈ as, ¬ (a.run L memx).Covers i) →
      (freeAll L memx (as.map Alloc.ptr) d).memmap memx i = d.memmap memx i) := by
  induction as generalizing d live with
  | nil => exact ⟨fun ⟨_, ha, _⟩ => absurd ha List.not_mem_nil, fun _ => rfl⟩
  | cons a as ih =>
    have ha : a ∈ live := hs.subset (List.mem_cons_self ..)
    have hrest : as.Subperm (live.erase a) := by
      have := hs.erase a
      rwa [List.erase_cons_head] at this
    have hfree : (myfree L memx a.ptr d).memmap memx =
        writeRun (d.memmap memx) (a.run L memx).start 0 (a.run L memx).len := by
      rw [h.placed a ha, myfree_block L h.ready (h.run_mem ha).1, (h.run_mem ha).2,
        MallcoDev.setMap_memmap_self]
    obtain ⟨hin, hout⟩ := ih (h.free ha) hrest
    rw [hfree] at hout
    rw [List.map_cons, freeAll]
    constructor
    · rintro ⟨c, hc, hcov⟩
      by_cases hlater : ∃ c ∈ as, (c.run L memx).Covers i
      · exact hin hlater
      · rcases List.mem_cons.mp hc with rfl | hc
        · rw [hout fun c hc hcov => hlater ⟨c, hc, hcov⟩, writeRun_in hcov.1 hcov.2]
        · exact absurd ⟨c, hc, hcov⟩ hlater
    · intro hno
      obtain ⟨hna, hno⟩ := List.forall_mem_cons.mp hno
      rw [hout hno, writeRun_out]
      simp only [Run.Covers] at hna
      omega

theorem freeAll_memrdy {ps : List Nat} (hr : d.memrdy memx = true) :
    (freeAll L memx ps d).memrdy memx = true := by
  induction ps generalizing d with
  | nil => exact hr
  | cons p ps ih =>
    refine ih ?_
    simp only [myfree, mymemFree, hr, if_true]
    split
    · exact hr
    · split <;> exact hr

/-- The order in which live allocations are freed does not matter. -/
theorem freeAll_perm {as bs : List Alloc} (h : Inv L memx (fun _ => 0) d live)
    (hs : as.Subperm live) (hp : as.Perm bs) :
    (freeAll L memx (as.map Alloc.ptr) d).memmap memx =
      (freeAll L memx (bs.map Alloc.ptr) d).memmap memx := by
  funext i
  have ha := freeAll_apply h hs i
  have hb := freeAll_apply h (hp.symm.subperm.trans hs) i
  by_cases hcov : ∃ a ∈ as, (a.run L memx).Covers i
  · have hcov' : ∃ a ∈ bs, (a.run L memx).Covers i := by
      obtain ⟨a, hm, hc⟩ := hcov
      exact ⟨a, hp.mem_iff.mp hm, hc⟩
    rw [ha.1 hcov, hb.1 hcov']
  · have hno : ∀ a ∈ as, ¬ (a.run L memx).Covers i := fun a hm hc => hcov ⟨a, hm, hc⟩
    rw [ha.2 hno, hb.2 fun a hm => hno a (hp.mem_iff.mpr hm)]

/-- Freeing all of them empties the table, and the whole bank can be taken. -/
theorem freeAll_all {as : List Alloc} (h : Inv L memx (fun _ => 0) d live)
    (hp : as.Perm live) :
    (∀ i, i < memtblsize memx → (freeAll L memx (as.map Alloc.ptr) d).memmap memx i = 0) ∧
      (mymalloc L memx (memsize memx) (freeAll L memx (as.map Alloc.ptr) d)).1 ≠ NULL := by
  have hzero : ∀ i, i < memtblsize memx →
      (freeAll L memx (as.map Alloc.ptr) d).memmap memx i = 0 := by
    intro i hi
    have ha := freeAll_apply h hp.subperm i
    by_cases hcov : ∃ a ∈ as, (a.run L memx).Covers i
    · exact ha.1 hcov
    · rw [ha.2 fun a hm hc => hcov ⟨a, hm, hc⟩]
      refine h.table.same i hi fun r hr hc => hcov ?_
      obtain ⟨a, hm, rfl⟩ := List.mem_map.mp hr
      exact ⟨a, hp.mem_iff.mpr hm, hc⟩
  refine ⟨hzero, ?_⟩
  have hmul := memtblsize_mul memx
  have htbl := memtblsize_pos memx
  have hall : Window (memtblsize memx) ((freeAll L memx (as.map Alloc.ptr) d).memmap memx)
      (blocks memx (memsize memx)) 0 := by
    have hk : blocks memx (memsize memx) = memtblsize memx := by
      simp only [blocks, memblksize_eq]; omega
    exact ⟨by omega, fun i _ hi => hzero i (by omega)⟩
  rcases mymalloc_cases L (freeAll_memrdy h.ready) (Nat.le_refl (memsize memx)) with
    ⟨_, hn⟩ | ⟨o, _, _, _, he⟩
  · exact absurd hall (hn (by omega) 0)
  · rw [he]; exact block_ne_NULL L memx o

end Undo

/-- **When freeing undoes allocating**, in any state a run reaches: a request
that succeeds is undone by freeing its result just when the size is 0, or its
number of blocks is not 0 after the reduction to 16 bits, or nothing is live.
Live allocations may be freed in any order for the same table, and freeing all
of them leaves the bank empty. -/
theorem free_undoes_malloc_iff (L : Layout) (memx : Bank) {d : MallcoDev} {live : List Alloc}
    (h : Reach L memx d live) :
    (∀ size, ((mymalloc L memx size d).1 ≠ NULL →
      (myfree L memx (mymalloc L memx size d).1 (mymalloc L memx size d).2).memmap memx =
        d.memmap memx) ↔ size = 0 ∨ blocks memx size % 2 ^ 16 ≠ 0 ∨ live = []) ∧
    (∀ as bs : List Alloc, as.Subperm live → as.Perm bs →
      (freeAll L memx (as.map Alloc.ptr) d).memmap memx =
        (freeAll L memx (bs.map Alloc.ptr) d).memmap memx) ∧
    (∀ as : List Alloc, as.Perm live →
      (∀ i, i < memtblsize memx → (freeAll L memx (as.map Alloc.ptr) d).memmap memx i = 0) ∧
      (mymalloc L memx (memsize memx) (freeAll L memx (as.map Alloc.ptr) d)).1 ≠ NULL) :=
  ⟨fun size => myfree_mymalloc_iff h.inv size, fun _ _ hs hp => freeAll_perm h.inv hs hp,
    fun _ hp => freeAll_all h.inv hp⟩

/-- One block is live and 100 bytes more are taken and given back. -/
theorem free_undoes_malloc_iff_board :
    ((mymalloc boardLayout .sramIn 100 (firstTaken 32).2).1 ≠ NULL →
      (myfree boardLayout .sramIn (mymalloc boardLayout .sramIn 100 (firstTaken 32).2).1
        (mymalloc boardLayout .sramIn 100 (firstTaken 32).2).2).memmap .sramIn =
        (firstTaken 32).2.memmap .sramIn) ↔
      100 = 0 ∨ blocks .sramIn 100 % 2 ^ 16 ≠ 0 ∨
        [(⟨(firstTaken 32).1, 32⟩ : Alloc)] = [] :=
  (free_undoes_malloc_iff boardLayout .sramIn
    (firstTaken_reach (by decide : 32 ≤ memsize .sramIn) (by decide +kernel))).1 100

/-- With one block live a request for 2 MiB is answered with that block, and
freeing the answer clears it. -/
theorem malloc_2MiB_not_undone :
    Reach boardLayout .sramIn (firstTaken 32).2 [⟨(firstTaken 32).1, 32⟩] ∧
      (mymalloc boardLayout .sramIn 0x200000 (firstTaken 32).2).1 = (firstTaken 32).1 ∧
      (firstTaken 32).1 ≠ NULL ∧
      (myfree boardLayout .sramIn (mymalloc boardLayout .sramIn 0x200000 (firstTaken 32).2).1
        (mymalloc boardLayout .sramIn 0x200000 (firstTaken 32).2).2).memmap .sramIn ≠
        (firstTaken 32).2.memmap .sramIn := by
  have hp : (firstTaken 32).1 ≠ NULL := by decide +kernel
  have hused : (firstTaken 32).2.memmap .sramIn 3199 = 1 := by decide +kernel
  have hfreed : (myfree boardLayout .sramIn
      (mymalloc boardLayout .sramIn 0x200000 (firstTaken 32).2).1
      (mymalloc boardLayout .sramIn 0x200000 (firstTaken 32).2).2).memmap .sramIn 3199 = 0 := by
    decide +kernel
  refine ⟨firstTaken_reach (by decide) hp, by decide +kernel, hp, fun hsame => ?_⟩
  rw [hsame, hused] at hfreed
  cases hfreed

end Generalplate.Malloc
