import Generalplate.Lwip.CommInit

/-! # Groups of any four sizes

`ETH_Mem_Malloc` and `lwip_comm_mem_malloc` differ in their four requests and in
the pointer variables that keep the answers. Whatever the sizes, and whichever
of the four requests fail, either the whole group is live or nothing of it is. -/
namespace Generalplate.Lwip
open Malloc Ethernet Lib.RunTable

/-- The four requests of a group; when one fails all four answers are freed,
NULL among them. -/
def groupMalloc (L : Layout) (sizes : List Nat) (d : MallcoDev) : Nat × List Nat × MallcoDev :=
  let r := mallocAll L .sramIn sizes d
  if NULL ∈ r.1 then (1, r.1, freeAll L .sramIn r.1 r.2) else (0, r.1, r.2)

/-- `ETH_Mem_Malloc` with the sizes of its requests left open. -/
def ethMemMallocOf (L : Layout) (sizes : List Nat) (s : Comm) : Nat × Comm :=
  let g := groupMalloc L sizes s.dev
  (g.1, { s with eth := g.2.1, dev := g.2.2 })

/-- `lwip_comm_mem_malloc` with the sizes of its requests left open. -/
def lwipCommMemMallocOf (L : Layout) (sizes : List Nat) (s : Comm) : Nat × Comm :=
  let g := groupMalloc L sizes s.dev
  (g.1, { s with lwip := g.2.1, dev := g.2.2 })

theorem ethMemMalloc_eq (L : Layout) (s : Comm) :
    ethMemMalloc L s = ethMemMallocOf L ethRequests s := by
  by_cases hf : NULL ∈ (mallocAll L .sramIn ethRequests s.dev).1
  · simp only [ethMemMalloc, ethMemMallocOf, groupMalloc, if_pos hf, ethMemFree]
  · simp only [ethMemMalloc, ethMemMallocOf, groupMalloc, if_neg hf]

theorem lwipCommMemMalloc_eq (L : Layout) (cfg : PoolConfig) (s : Comm) :
    lwipCommMemMalloc L cfg s = lwipCommMemMallocOf L (lwipRequests cfg) s := by
  by_cases hf : NULL ∈ (mallocAll L .sramIn (lwipRequests cfg) s.dev).1
  · simp only [lwipCommMemMalloc, lwipCommMemMallocOf, groupMalloc, if_pos hf, lwipCommMemFree]
  · simp only [lwipCommMemMalloc, lwipCommMemMallocOf, groupMalloc, if_neg hf]

/-- A group that is live: one allocation of the size asked for at every pointer,
beside the allocations `live` from before, no two of them overlapping. -/
structure GroupLive (L : Layout) (sizes ps : List Nat) (d : MallcoDev) (live : List Alloc) :
    Prop where
  met : NULL ∉ ps
  length : ps.length = sizes.length
  reach : ∃ now : List Alloc, now.Perm (List.zipWith Alloc.mk ps sizes ++ live) ∧
    Reach L .sramIn d now
  apart : (List.zipWith Alloc.mk ps sizes ++ live).Pairwise fun a b =>
    a.fin .sramIn ≤ b.ptr ∨ b.fin .sramIn ≤ a.ptr

/-- The call returned 0 with the group live, or 1 with the table as it was, as one of its
requests was refused. -/
def AllOrNothing (L : Layout) (sizes : List Nat) (d : MallcoDev) (live : List Alloc) (code : Nat)
    (ps : List Nat) (d' : MallcoDev) : Prop :=
  (code = 0 ∧ GroupLive L sizes ps d' live) ∨ (code = 1 ∧ NULL ∈ ps ∧ SameTable d d')

section Groups
variable {L : Layout} {d : MallcoDev} {live : List Alloc}

theorem mallocAll_reach {sizes : List Nat} (h : Reach L .sramIn d live)
    (hs : ∀ x ∈ sizes, x ≤ memsize .sramIn) :
    ∃ now : List Alloc,
      now.Perm (granted (mallocAll L .sramIn sizes d).1 sizes ++ live) ∧
      Reach L .sramIn (mallocAll L .sramIn sizes d).2 now := by
  induction sizes generalizing d live with
  | nil => exact ⟨live, List.Perm.refl _, h⟩
  | cons size sizes ih =>
    obtain ⟨hsize, hs⟩ := List.forall_mem_cons.mp hs
    obtain ⟨now, hp, hnow⟩ := ih (h.malloc size hsize) hs
    exact ⟨now, hp.trans (grant_append _ _ _ _), hnow⟩

/-- Every way a group can end. -/
theorem groupMalloc_cases {sizes : List Nat} (h : Reach L .sramIn d live)
    (hs : ∀ x ∈ sizes, x ≤ memsize .sramIn) :
    AllOrNothing L sizes d live (groupMalloc L sizes d).1 (groupMalloc L sizes d).2.1
      (groupMalloc L sizes d).2.2 := by
  by_cases hf : NULL ∈ (mallocAll L .sramIn sizes d).1
  · refine Or.inr ?_
    have hself : Inv L .sramIn (d.memmap .sramIn) d [] := Inv.self h.inv.ready
    simp only [groupMalloc, if_pos hf]
    exact ⟨trivial, hf, (freeAll_mallocAll_inv hself hs).same_iff.mpr rfl⟩
  · refine Or.inl ?_
    have hinv := mallocAll_inv h.inv hs
    have hreach := mallocAll_reach h hs
    rw [granted_eq_zipWith hf] at hinv hreach
    simp only [groupMalloc, if_neg hf]
    exact ⟨trivial, hf, mallocAll_length sizes d, hreach, hinv.bytes_apart⟩

end Groups

/-- **The groups are all or nothing**, in any state a run reaches and for any
four sizes the bank can hold: the function returns 0 and all four requests are
live, or one of them is refused, it returns 1 and the table is that of before the call. -/
theorem groups_all_or_nothing (L : Layout) {s : Comm} {live : List Alloc}
    (h : Reach L .sramIn s.dev live) {n₁ n₂ n₃ n₄ : Nat}
    (hs : ∀ n ∈ [n₁, n₂, n₃, n₄], 1 ≤ n ∧ n ≤ memsize .sramIn) :
    let e := ethMemMallocOf L [n₁, n₂, n₃, n₄] s
    let m := lwipCommMemMallocOf L [n₁, n₂, n₃, n₄] s
    AllOrNothing L [n₁, n₂, n₃, n₄] s.dev live e.1 e.2.eth e.2.dev ∧
      AllOrNothing L [n₁, n₂, n₃, n₄] s.dev live m.1 m.2.lwip m.2.dev :=
  have hall := groupMalloc_cases h fun n hn => (hs n hn).2
  ⟨hall, hall⟩

/-- The driver's own four sizes on the freshly initialised bank. -/
theorem groups_all_or_nothing_board :
    let e := ethMemMallocOf boardLayout [160, 160, 7620, 7620] startState
    AllOrNothing boardLayout [160, 160, 7620, 7620] startState.dev [] e.1 e.2.eth e.2.dev :=
  have hinit : Reach boardLayout .sramIn startState.dev [] := .init blankDev
  (groups_all_or_nothing boardLayout hinit (by decide)).1

end Generalplate.Lwip
