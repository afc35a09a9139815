import Generalplate.Malloc.Runs

/-! # Groups of allocations

The drivers take their memory in groups: every request of the group is made,
and when one of them fails the whole group is freed again. `granted` is what a
group holds; freeing it gives back the table the group started from, whatever
that table held. -/
namespace Generalplate.Malloc
open Lib.RunTable

/-- The requests `sizes` made one after the other, NULL for each that fails. -/
def mallocAll (L : Layout) (memx : Bank) : List Nat → MallcoDev → List Nat × MallcoDev
  | [], d => ([], d)
  | size :: sizes, d =>
    let r := mymalloc L memx size d
    let rs := mallocAll L memx sizes r.2
    (r.1 :: rs.1, rs.2)

def freeAll (L : Layout) (memx : Bank) : List Nat → MallcoDev → MallcoDev
  | [], d => d
  | p :: ps, d => freeAll L memx ps (myfree L memx p d)

/-- The live allocations behind the pointers of a group. -/
def granted : List Nat → List Nat → List Alloc
  | p :: ps, size :: sizes => grant p size (granted ps sizes)
  | _, _ => []

/-- Every request of the group can be met. -/
def Fits (L : Layout) (memx : Bank) (sizes : List Nat) (d : MallcoDev) : Prop :=
  NULL ∉ (mallocAll L memx sizes d).1

instance (L : Layout) (memx : Bank) (sizes : List Nat) (d : MallcoDev) :
    Decidable (Fits L memx sizes d) := inferInstanceAs (Decidable (_ ∉ _))

section Groups
variable {L : Layout} {memx : Bank} {b : Nat → Nat} {d : MallcoDev} {live : List Alloc}

theorem Inv.perm {live' : List Alloc} (h : Inv L memx b d live) (hp : live.Perm live') :
    Inv L memx b d live' where
  ready := h.ready
  table := h.table.perm (hp.map _)
  placed a ha := h.placed a (hp.mem_iff.mpr ha)

/-- The table is the base table just when nothing is live. -/
theorem Inv.same_iff (h : Inv L memx b d live) :
    (∀ i, i < memtblsize memx → d.memmap memx i = b i) ↔ live = [] := by
  constructor
  · intro hsame
    by_contra hne
    obtain ⟨a, ha⟩ := List.exists_mem_of_ne_nil _ hne
    obtain ⟨hlt, hdiff⟩ := h.table.ne_base (List.mem_map_of_mem ha)
    exact hdiff (hsame _ hlt)
  · rintro rfl i hi
    exact h.table.same i hi (by simp)

theorem grant_append (p size : Nat) (xs live : List Alloc) :
    (xs ++ grant p size live).Perm (grant p size xs ++ live) := by
  unfold grant
  split
  · exact List.Perm.refl _
  · exact List.perm_middle

theorem mallocAll_inv {sizes : List Nat} (h : Inv L memx b d live)
    (hs : ∀ s ∈ sizes, s ≤ memsize memx) :
    Inv L memx b (mallocAll L memx sizes d).2
      (granted (mallocAll L memx sizes d).1 sizes ++ live) := by
  induction sizes generalizing d live with
  | nil => exact h
  | cons size sizes ih =>
    obtain ⟨hsize, hs⟩ := List.forall_mem_cons.mp hs
    exact (ih (h.malloc hsize) hs).perm (grant_append _ _ _ _)

theorem freeAll_inv {ps sizes : List Nat} (hl : ps.length = sizes.length)
    (h : Inv L memx b d (granted ps sizes ++ live)) : Inv L memx b (freeAll L memx ps d) live := by
  induction ps generalizing sizes d with
  | nil => exact h
  | cons p ps ih =>
    cases sizes with
    | nil => cases hl
    | cons size sizes =>
      have hl' : ps.length = sizes.length := Nat.succ.inj hl
      by_cases hp : p = NULL
      · subst hp
        rw [freeAll, myfree_NULL]
        exact ih hl' (by simpa [granted, grant] using h)
      · simp only [granted, grant, if_neg hp, List.cons_append] at h
        have hfree := h.free (List.mem_cons_self ..)
        rw [List.erase_cons_head] at hfree
        rw [freeAll]
        exact ih hl' hfree

theorem mallocAll_length (sizes : List Nat) (d : MallcoDev) :
    (mallocAll L memx sizes d).1.length = sizes.length := by
  induction sizes generalizing d with
  | nil => rfl
  | cons size sizes ih => simp only [mallocAll, List.length_cons, ih]

theorem mallocAll_append (xs ys : List Nat) (d : MallcoDev) :
    mallocAll L memx (xs ++ ys) d =
      ((mallocAll L memx xs d).1 ++ (mallocAll L memx ys (mallocAll L memx xs d).2).1,
        (mallocAll L memx ys (mallocAll L memx xs d).2).2) := by
  induction xs generalizing d with
  | nil => rfl
  | cons x xs ih => simp only [List.cons_append, mallocAll, ih]

theorem fits_append {xs ys : List Nat} :
    Fits L memx (xs ++ ys) d ↔
      Fits L memx xs d ∧ Fits L memx ys (mallocAll L memx xs d).2 := by
  simp only [Fits, mallocAll_append, List.mem_append, not_or]

/-- Taking a group and freeing it leaves the allocations as they were, however
many of its requests were met. -/
theorem freeAll_mallocAll_inv {sizes : List Nat} (h : Inv L memx b d live)
    (hs : ∀ s ∈ sizes, s ≤ memsize memx) :
    Inv L memx b (freeAll L memx (mallocAll L memx sizes d).1 (mallocAll L memx sizes d).2) live :=
  freeAll_inv (mallocAll_length sizes d) (mallocAll_inv h hs)

/-- The first allocation of a nonempty group that was met is live. -/
theorem granted_ne_nil {ps sizes : List Nat} (hl : ps.length = sizes.length) (hne : sizes ≠ [])
    (hf : NULL ∉ ps) : granted ps sizes ≠ [] := by
  match ps, sizes, hl with
  | [], [], _ => exact absurd rfl hne
  | p :: ps, size :: sizes, _ =>
    have hp : p ≠ NULL := fun h => hf (h ▸ List.mem_cons_self ..)
    simp [granted, grant, if_neg hp]

/-- A group without a failure grants all that was asked for. -/
theorem granted_eq_zipWith {ps sizes : List Nat} (hf : NULL ∉ ps) :
    granted ps sizes = List.zipWith Alloc.mk ps sizes := by
  induction ps generalizing sizes with
  | nil => cases sizes <;> rfl
  | cons p ps ih =>
    obtain ⟨hp, hf⟩ := not_or.mp (fun hor => hf (List.mem_cons.mpr hor))
    cases sizes with
    | nil => rfl
    | cons size sizes =>
      rw [granted, grant, if_neg (Ne.symm hp), ih hf, List.zipWith_cons_cons]

/-- Requests for more blocks than the bank has left cannot all be met. -/
theorem Inv.not_fits (h : Inv L memx (fun _ => 0) d live) {sizes : List Nat}
    (hs : ∀ s ∈ sizes, s ≤ memsize memx)
    (hsum : memtblsize memx <
      (sizes.map (blocks memx)).sum + (live.map fun a => blocks memx a.size).sum) :
    ¬ Fits L memx sizes d := by
  intro hf
  have hused := (mallocAll_inv h hs).used_eq
  have hle := used_le ((mallocAll L memx sizes d).2.memmap memx) (memtblsize memx)
  have hlen : (mallocAll L memx sizes d).1.length = sizes.length := mallocAll_length sizes d
  have hmap : (granted (mallocAll L memx sizes d).1 sizes).map (fun a => blocks memx a.size) =
      sizes.map (blocks memx) := by
    rw [granted_eq_zipWith hf, List.map_zipWith, ← List.map_uncurry_zip_eq_zipWith]
    conv => rhs; rw [← List.map_snd_zip (Nat.le_of_eq hlen.symm), List.map_map]
    rfl
  rw [List.map_append, List.sum_append, hmap] at hused
  omega

/-- Requests whose blocks fit in the free entries below `m` are all met: the
search takes the highest window, so it leaves the low entries free. -/
theorem fits_of_room {sizes : List Nat} {m : Nat} (hr : d.memrdy memx = true)
    (hm : m ≤ memtblsize memx) (hz : ∀ i, i < m → d.memmap memx i = 0)
    (hs : ∀ s ∈ sizes, 0 < s ∧ s ≤ memsize memx) (hsum : (sizes.map (blocks memx)).sum ≤ m) :
    Fits L memx sizes d := by
  induction sizes generalizing d m with
  | nil => exact List.not_mem_nil
  | cons size sizes ih =>
    obtain ⟨⟨hpos, hsz⟩, hs⟩ := List.forall_mem_cons.mp hs
    simp only [List.map_cons, List.sum_cons] at hsum
    have hroom : Window (memtblsize memx) (d.memmap memx) (blocks memx size)
        (m - blocks memx size) := ⟨by omega, fun i _ hi => hz i (by omega)⟩
    rcases mymalloc_cases L hr hsz with ⟨_, hn⟩ | ⟨o, _, _, hmax, he⟩
    · exact absurd hroom (hn hpos _)
    · have hge := hmax _ hroom
      have hrest : Fits L memx sizes (mymalloc L memx size d).2 := by
        refine ih (m := m - blocks memx size) ?_ (by omega) ?_ hs (by omega)
        · rw [he]; exact hr
        · intro i hi
          rw [he, MallcoDev.setMap_memmap_self, writeRun_out (Or.inl (by omega))]
          exact hz i (by omega)
      have hp : NULL ≠ (mymalloc L memx size d).1 := by
        rw [he]; exact (block_ne_NULL L memx o).symm
      simp only [Fits, mallocAll, List.mem_cons, not_or]
      exact ⟨hp, hrest⟩

end Groups

end Generalplate.Malloc
