import Generalplate.Malloc.Runs

/-! # Which requests are met

A bank is initialised by the first call that asks for memory. From there a
request that the bank can hold is met just when the table has a free window for
it, at the highest one. A request larger than the bank is reduced to the 16 bits
of the block count and then treated alike, so it is not always refused. -/
namespace Generalplate.Malloc
open Lib.RunTable

/-- The state a request is served from: the bank initialised if it was not. -/
def readied (L : Layout) (memx : Bank) (d : MallcoDev) : MallcoDev :=
  if d.memrdy memx then d else mymemInit L memx d

/-- Nothing is handed out and nothing is changed, by whichever function asks. -/
structure Refused (L : Layout) (memx : Bank) (size : Nat) (d : MallcoDev) : Prop where
  inner : mymemMalloc L memx size d = (noOffset, readied L memx d)
  malloc : mymalloc L memx size d = (NULL, readied L memx d)
  realloc : ∀ ptr, myrealloc L memx ptr size d = (NULL, readied L memx d)

section Readied
variable (L : Layout) (memx : Bank) (d : MallcoDev)

theorem readied_of_ready {d : MallcoDev} (h : d.memrdy memx = true) : readied L memx d = d :=
  if_pos h

theorem readied_memrdy : (readied L memx d).memrdy memx = true := by
  unfold readied
  split
  · assumption
  · exact mymemInit_memrdy L memx d

/-- The call that initialises the bank goes on as on a ready one. -/
theorem mymemMalloc_readied (size : Nat) :
    mymemMalloc L memx size d = mymemMalloc L memx size (readied L memx d) := by
  have hr := readied_memrdy L memx d
  unfold readied at hr ⊢
  unfold mymemMalloc
  dsimp only
  rw [if_pos hr]

/-- All three functions refuse when `mymem_malloc` does, and only then. -/
theorem refused_iff {size : Nat} :
    Refused L memx size d ↔ mymemMalloc L memx size d = (noOffset, readied L memx d) := by
  constructor
  · exact Refused.inner
  · intro h
    exact ⟨h, by simp [mymalloc, h], fun ptr => by simp [myrealloc, h]⟩

end Readied

/-- **Allocation is top-fit.** A request of a size the bank can hold succeeds
just when the table has a free window of as many blocks; then the highest such
window is marked and nothing else is changed, and on failure nothing is changed. -/
theorem mymemMalloc_topFit (L : Layout) (memx : Bank) (d : MallcoDev) {size : Nat}
    (hpos : 0 < size) (hs : size ≤ memsize memx) :
    let d0 := readied L memx d
    let k := blocks memx size
    let r := mymemMalloc L memx size d
    (d.memrdy memx = true → d0 = d) ∧
    (r.1 ≠ noOffset ↔ ∃ o, Window (memtblsize memx) (d0.memmap memx) k o) ∧
    (r.1 ≠ noOffset → ∃ o, Window (memtblsize memx) (d0.memmap memx) k o ∧
      (∀ s, Window (memtblsize memx) (d0.memmap memx) k s → s ≤ o) ∧
      r.1 = memblksize memx * o ∧ r.2 = d0.setMap memx (r.2.memmap memx) ∧
      ∀ i, r.2.memmap memx i = if o ≤ i ∧ i < o + k then k else d0.memmap memx i) ∧
    (r.1 = noOffset → r.2 = d0) := by
  intro d0 k r
  have hr : r = mymemMalloc L memx size d0 := mymemMalloc_readied L memx d size
  refine ⟨readied_of_ready L memx, ?_⟩
  rcases mymemMalloc_cases L (readied_memrdy L memx d) hs with ⟨h, hn⟩ | ⟨o, _, hw, hmax, h⟩
  · rw [hr, h]
    refine ⟨⟨fun hne => absurd rfl hne, fun ⟨o, hw⟩ => absurd hw (hn hpos o)⟩,
      fun hne => absurd rfl hne, fun _ => rfl⟩
  · have hne := offset_ne_noOffset o
    rw [hr, h]
    refine ⟨⟨fun _ => ⟨o, hw⟩, fun _ => hne⟩, fun _ => ⟨o, hw, hmax, ?_, ?_, fun i => ?_⟩,
      fun he => absurd he hne⟩
    · rw [memblksize_eq]
    · rw [MallcoDev.setMap_memmap_self]
    · rw [MallcoDev.setMap_memmap_self, writeRun_apply]

/-- The first request of a program, for 100 bytes of the internal bank. -/
theorem mymemMalloc_topFit_first :
    (mymemMalloc boardLayout .sramIn 100 blankDev).1 ≠ noOffset ↔
      ∃ o, Window 3200 ((mymemInit boardLayout .sramIn blankDev).memmap .sramIn) 4 o :=
  have hpos : 0 < 100 := by decide
  (mymemMalloc_topFit boardLayout .sramIn blankDev hpos (by decide)).2.1

/-- **When an oversized request is refused.** With `k` the number of blocks
reduced to 16 bits: just when the table has no free window of `k` blocks, or
for `k = 0` when no entry is in use. -/
theorem oversized_refused_iff (L : Layout) (memx : Bank) (d : MallcoDev) {size : Nat}
    (hbig : memsize memx < size) :
    let map := (readied L memx d).memmap memx
    let k := blocks memx size % 2 ^ 16
    Refused L memx size d ↔
      if k = 0 then ∀ i, i < memtblsize memx → map i = 0
      else ∀ o, ¬ Window (memtblsize memx) map k o := by
  intro map k
  rw [refused_iff, mymemMalloc_readied]
  have hr := readied_memrdy L memx d
  rcases mymemMalloc_ends L hr (Nat.zero_lt_of_lt hbig) rfl with
    ⟨h, hn, hz⟩ | ⟨o, hk, hw, _, h⟩ | ⟨o, hk, ho, hused, _, h⟩
  · refine iff_of_true h ?_
    split
    · next hk => exact hz hk
    · next hk => exact hn (Nat.pos_of_ne_zero hk)
  · refine iff_of_false (fun he => offset_ne_noOffset o ?_) ?_
    · rw [h] at he; exact congrArg Prod.fst he
    · rw [if_neg (Nat.ne_of_gt hk)]
      exact fun hno => hno o hw
  · refine iff_of_false (fun he => offset_ne_noOffset o ?_) ?_
    · rw [h] at he; exact congrArg Prod.fst he
    · rw [if_pos hk]
      exact fun hall => hused (hall o ho)

/-- A request for 2 MiB and 32 bytes asks for one block after the reduction. -/
theorem oversized_refused_iff_board :
    Refused boardLayout .sramIn 0x200020 (mymemInit boardLayout .sramIn blankDev) ↔
      ∀ o, ¬ Window 3200 ((mymemInit boardLayout .sramIn blankDev).memmap .sramIn) 1 o :=
  have hbig : memsize .sramIn < 0x200020 := by decide
  oversized_refused_iff boardLayout .sramIn (mymemInit boardLayout .sramIn blankDev) hbig

/-- It is met on the freshly initialised bank. -/
theorem oversized_met :
    Reach boardLayout .sramIn (mymemInit boardLayout .sramIn blankDev) [] ∧
      memsize .sramIn < 0x200020 ∧ 0x200020 < 2 ^ 32 ∧
      (mymalloc boardLayout .sramIn 0x200020 (mymemInit boardLayout .sramIn blankDev)).1 ≠ NULL ∧
      ¬ Refused boardLayout .sramIn 0x200020 (mymemInit boardLayout .sramIn blankDev) := by
  have hmet : (mymalloc boardLayout .sramIn 0x200020
      (mymemInit boardLayout .sramIn blankDev)).1 ≠ NULL := by decide +kernel
  refine ⟨.init blankDev, by decide, by decide, hmet, fun h => hmet ?_⟩
  rw [h.malloc]

end Generalplate.Malloc
