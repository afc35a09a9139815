import Mathlib.Algebra.GroupWithZero.Nat
import Mathlib.Data.List.Basic
import Mathlib.Data.List.Pairwise

/-! # Tables of runs

A table whose entries mark runs: every entry of a run holds the run's length,
and nothing marks where one run ends and the next begins. `Over n b t L` says
that the first `n` entries of `t` are those of a base table `b` with the runs
`L` marked on entries that `b` has free (0); marking a free window adds a run,
clearing a run removes it. `Exact` is the case of an empty base. `topFit` is the
search from the top for a free window. -/

namespace Generalplate.Lib.RunTable

structure Run where
  start : Nat
  len : Nat
deriving DecidableEq, Repr

def Run.Covers (r : Run) (i : Nat) : Prop := r.start ≤ i ∧ i < r.start + r.len

def Run.Apart (r s : Run) : Prop := r.start + r.len ≤ s.start ∨ s.start + s.len ≤ r.start

instance (r s : Run) : Decidable (r.Apart s) := inferInstanceAs (Decidable (_ ∨ _))

theorem Run.Apart.symm {r s : Run} (h : r.Apart s) : s.Apart r := Or.symm h

instance : Std.Symm Run.Apart := ⟨fun _ _ h => h.symm⟩

/-- Nonempty runs that share no entry lie apart. -/
theorem Run.apart_of_disjoint {r s : Run} (hr : 0 < r.len) (hs : 0 < s.len)
    (h : ∀ i, r.Covers i → ¬ s.Covers i) : r.Apart s := by
  by_contra hn
  simp only [Run.Apart, not_or, Nat.not_le] at hn
  by_cases hle : r.start ≤ s.start
  · exact h s.start ⟨hle, by omega⟩ ⟨Nat.le_refl _, by omega⟩
  · exact h r.start ⟨Nat.le_refl _, by omega⟩ ⟨by omega, by omega⟩

/-- The first `n` entries of `t` are those of `b` with the runs `L` marked. -/
structure Over (n : Nat) (b t : Nat → Nat) (L : List Run) : Prop where
  pos : ∀ r ∈ L, 0 < r.len
  inside : ∀ r ∈ L, r.start + r.len ≤ n
  apart : L.Pairwise Run.Apart
  held : ∀ r ∈ L, ∀ i, r.Covers i → t i = r.len
  under : ∀ r ∈ L, ∀ i, r.Covers i → b i = 0
  same : ∀ i, i < n → (∀ r ∈ L, ¬ r.Covers i) → t i = b i

/-- The first `n` entries of `t` are exactly the runs `L`, every other one 0. -/
abbrev Exact (n : Nat) (t : Nat → Nat) (L : List Run) : Prop := Over n (fun _ => 0) t L

/-- `k` free entries from `s` on, all below `n`. -/
def Window (n : Nat) (t : Nat → Nat) (k s : Nat) : Prop :=
  s + k ≤ n ∧ ∀ i, s ≤ i → i < s + k → t i = 0

/-! ## Writing a run of entries -/

/-- The table with the `k` entries from `s` on set to `v`, in ascending order. -/
def writeRun (t : Nat → Nat) (s v : Nat) : Nat → Nat → Nat
  | 0 => t
  | k + 1 => fun i => if i = s + k then v else writeRun t s v k i

theorem writeRun_apply (t : Nat → Nat) (s v k i : Nat) :
    writeRun t s v k i = if s ≤ i ∧ i < s + k then v else t i := by
  induction k with
  | zero => rw [if_neg (by omega)]; rfl
  | succ k ih =>
    simp only [writeRun, ih]
    split
    · rw [if_pos (by omega)]
    · by_cases h : s ≤ i ∧ i < s + k
      · rw [if_pos h, if_pos (by omega)]
      · rw [if_neg h, if_neg (by omega)]

theorem writeRun_in {t : Nat → Nat} {s v k i : Nat} (hs : s ≤ i) (hi : i < s + k) :
    writeRun t s v k i = v := by rw [writeRun_apply, if_pos ⟨hs, hi⟩]

theorem writeRun_out {t : Nat → Nat} {s v k i : Nat} (h : i < s ∨ s + k ≤ i) :
    writeRun t s v k i = t i := by rw [writeRun_apply, if_neg (by omega)]

/-! ## Marking and clearing -/

section Marks
variable {n : Nat} {b t : Nat → Nat} {L : List Run}

theorem Over.nil (h : ∀ i, i < n → t i = b i) : Over n b t [] where
  pos _ hr := by cases hr
  inside _ hr := by cases hr
  apart := List.Pairwise.nil
  held _ hr := by cases hr
  under _ hr := by cases hr
  same i hi _ := h i hi

theorem Over.perm {M : List Run} (h : Over n b t L) (hp : L.Perm M) : Over n b t M where
  pos r hr := h.pos r (hp.mem_iff.mpr hr)
  inside r hr := h.inside r (hp.mem_iff.mpr hr)
  apart := (hp.pairwise_iff fun hrs => hrs.symm).mp h.apart
  held r hr := h.held r (hp.mem_iff.mpr hr)
  under r hr := h.under r (hp.mem_iff.mpr hr)
  same i hi hr := h.same i hi fun r hm => hr r (hp.mem_iff.mp hm)

/-- An entry of a run is not 0. -/
theorem Over.ne_zero (h : Over n b t L) {r : Run} (hr : r ∈ L) {i : Nat} (hi : r.Covers i) :
    t i ≠ 0 := by
  rw [h.held r hr i hi]
  exact Nat.ne_of_gt (h.pos r hr)

/-- No run covers an entry of a free window. -/
theorem Over.window_uncovered (h : Over n b t L) {k s : Nat} (hw : Window n t k s) {i : Nat}
    (hs : s ≤ i) (hi : i < s + k) : ∀ r ∈ L, ¬ r.Covers i :=
  fun _ hr hri => h.ne_zero hr hri (hw.2 i hs hi)

/-- A run lies apart from every free window. -/
theorem Over.apart_window (h : Over n b t L) {k s : Nat} (hk : 0 < k) (hw : Window n t k s)
    {r : Run} (hr : r ∈ L) : Run.Apart ⟨s, k⟩ r :=
  Run.apart_of_disjoint hk (h.pos r hr) fun _ hi => h.window_uncovered hw hi.1 hi.2 r hr

/-- Marking a free window adds one run. -/
theorem Over.mark (h : Over n b t L) {k s : Nat} (hk : 0 < k) (hw : Window n t k s) :
    Over n b (writeRun t s k k) (⟨s, k⟩ :: L) where
  pos r hr := by
    rcases List.mem_cons.mp hr with rfl | hr
    · exact hk
    · exact h.pos r hr
  inside r hr := by
    rcases List.mem_cons.mp hr with rfl | hr
    · exact hw.1
    · exact h.inside r hr
  apart := List.pairwise_cons.mpr ⟨fun _ hr => h.apart_window hk hw hr, h.apart⟩
  held r hr i hi := by
    rcases List.mem_cons.mp hr with rfl | hr
    · exact writeRun_in hi.1 hi.2
    · have ha := h.apart_window hk hw hr
      have hout : i < s ∨ s + k ≤ i := by
        simp only [Run.Apart, Run.Covers] at ha hi; omega
      rw [writeRun_out hout]
      exact h.held r hr i hi
  under r hr i hi := by
    rcases List.mem_cons.mp hr with rfl | hr
    · have hin := hw.1
      have hn : i < n := Nat.lt_of_lt_of_le hi.2 hin
      rw [← h.same i hn (h.window_uncovered hw hi.1 hi.2)]
      exact hw.2 i hi.1 hi.2
    · exact h.under r hr i hi
  same i hi hr := by
    have hout : i < s ∨ s + k ≤ i := by
      have := hr ⟨s, k⟩ (List.mem_cons_self ..)
      simp only [Run.Covers] at this; omega
    rw [writeRun_out hout]
    exact h.same i hi fun r hm => hr r (List.mem_cons_of_mem _ hm)

/-- Clearing a run removes it. -/
theorem Over.clear {r : Run} (h : Over n b t (r :: L)) :
    Over n b (writeRun t r.start 0 r.len) L where
  pos s hs := h.pos s (List.mem_cons_of_mem _ hs)
  inside s hs := h.inside s (List.mem_cons_of_mem _ hs)
  apart := (List.pairwise_cons.mp h.apart).2
  held s hs i hi := by
    have ha := (List.pairwise_cons.mp h.apart).1 s hs
    have hout : i < r.start ∨ r.start + r.len ≤ i := by
      simp only [Run.Apart, Run.Covers] at ha hi; omega
    rw [writeRun_out hout]
    exact h.held s (List.mem_cons_of_mem _ hs) i hi
  under s hs := h.under s (List.mem_cons_of_mem _ hs)
  same i hi hs := by
    by_cases hr : r.Covers i
    · rw [writeRun_in hr.1 hr.2, h.under r (List.mem_cons_self ..) i hr]
    · have hout : i < r.start ∨ r.start + r.len ≤ i := by
        simp only [Run.Covers] at hr; omega
      rw [writeRun_out hout]
      refine h.same i hi fun s hm => ?_
      rcases List.mem_cons.mp hm with rfl | hm
      · exact hr
      · exact hs s hm

/-- An entry belongs to one run only. -/
theorem Over.eq_of_covers (h : Over n b t L) {r s : Run} (hr : r ∈ L) (hs : s ∈ L) {i : Nat}
    (hri : r.Covers i) (hsi : s.Covers i) : r = s := by
  by_contra hne
  have hapart := h.apart.forall hr hs hne
  simp only [Run.Apart, Run.Covers] at hapart hri hsi
  omega

/-- An entry in use over an empty base belongs to a run. -/
theorem Over.exists_covers (h : Exact n t L) {i : Nat} (hi : i < n) (hne : t i ≠ 0) :
    ∃ r ∈ L, r.Covers i := by
  by_contra hno
  exact hne (h.same i hi fun r hr hc => hno ⟨r, hr, hc⟩)

/-- A run in the table shows against the base. -/
theorem Over.ne_base (h : Over n b t L) {r : Run} (hr : r ∈ L) :
    r.start < n ∧ t r.start ≠ b r.start := by
  have hp := h.pos r hr
  have hin := h.inside r hr
  have hc : r.Covers r.start := ⟨Nat.le_refl _, by omega⟩
  refine ⟨by omega, ?_⟩
  rw [h.under r hr _ hc]
  exact h.ne_zero hr hc

end Marks

/-! ## Counting the entries in use -/

/-- How many of the first `n` entries are not 0. -/
def used (t : Nat → Nat) : Nat → Nat
  | 0 => 0
  | n + 1 => if t n ≠ 0 then used t n + 1 else used t n

theorem used_le (t : Nat → Nat) (n : Nat) : used t n ≤ n := by
  induction n with
  | zero => exact Nat.le_refl _
  | succ n ih =>
    simp only [used]
    split <;> omega

theorem used_congr {t u : Nat → Nat} {n : Nat} (h : ∀ i, i < n → t i = u i) :
    used t n = used u n := by
  induction n with
  | zero => rfl
  | succ n ih =>
    have hn := ih fun i hi => h i (Nat.lt_succ_of_lt hi)
    simp only [used, h n (Nat.lt_succ_self n), hn]

theorem used_zero {t : Nat → Nat} {n : Nat} (h : ∀ i, i < n → t i = 0) : used t n = 0 := by
  induction n with
  | zero => rfl
  | succ n ih =>
    simp only [used, h n (Nat.lt_succ_self n), ne_eq, not_true_eq_false, if_false]
    exact ih fun i hi => h i (Nat.lt_succ_of_lt hi)

/-- Clearing one entry in use lowers the count by one. -/
theorem used_clear_one {t : Nat → Nat} {j : Nat} (hj : t j ≠ 0) {n : Nat} (hn : j < n) :
    used t n = used (fun i => if i = j then 0 else t i) n + 1 := by
  induction n with
  | zero => omega
  | succ n ih =>
    by_cases he : n = j
    · subst he
      have hsame : used t n = used (fun i => if i = n then 0 else t i) n :=
        used_congr fun i hi => by rw [if_neg (by omega)]
      simp [used, hj, hsame]
    · simp only [used, ih (by omega), if_neg he]
      split <;> rfl

/-- Clearing `k` entries in use lowers the count by `k`. -/
theorem used_clear {t : Nat → Nat} {n s k : Nat} (hn : s + k ≤ n)
    (h : ∀ i, s ≤ i → i < s + k → t i ≠ 0) : used t n = used (writeRun t s 0 k) n + k := by
  induction k with
  | zero => rfl
  | succ k ih =>
    have hrest := ih (by omega) fun i hs hi => h i hs (by omega)
    have hk : writeRun t s 0 k (s + k) ≠ 0 := by
      rw [writeRun_out (Or.inr (Nat.le_refl _))]
      exact h (s + k) (by omega) (by omega)
    rw [hrest, used_clear_one hk (by omega)]
    simp only [writeRun]
    omega

/-- The entries in use of an exact table are those of its runs. -/
theorem used_exact {n : Nat} {t : Nat → Nat} {L : List Run} (h : Exact n t L) :
    used t n = (L.map Run.len).sum := by
  induction L generalizing t with
  | nil => exact used_zero fun i hi => h.same i hi (by simp)
  | cons r L ih =>
    have hm : r ∈ r :: L := List.mem_cons_self ..
    rw [used_clear (h.inside r hm) fun i hs hi => h.ne_zero hm ⟨hs, hi⟩, ih h.clear,
      List.map_cons, List.sum_cons, Nat.add_comm]

/-! ## The search from the top -/

/-- Scan entries `m - 1` down to 0 with `c` free entries just above, and stop
at the first entry that completes `k` free ones in a row. -/
def topFit (t : Nat → Nat) (k : Nat) : Nat → Nat → Option Nat
  | 0, _ => none
  | m + 1, c =>
    if t m = 0 then
      if c + 1 = k then some m else topFit t k m (c + 1)
    else topFit t k m 0

/-- What the scan knows at entry `m`: the free entries above `m` number
exactly `c`, and no window starts at `m` or above. -/
structure Scanned (n : Nat) (t : Nat → Nat) (k m c : Nat) : Prop where
  short : c < k
  free : Window n t c m
  exact : m + c = n ∨ t (m + c) ≠ 0
  none : ∀ s, m ≤ s → ¬ Window n t k s

theorem Scanned.start {n : Nat} {t : Nat → Nat} {k : Nat} (hk : 0 < k) : Scanned n t k n 0 where
  short := hk
  free := ⟨Nat.le_refl _, fun i _ _ => by omega⟩
  exact := Or.inl rfl
  none s hs hw := by have := hw.1; omega

/-- A free entry that does not complete a window. -/
theorem Scanned.free_step {n : Nat} {t : Nat → Nat} {k m c : Nat} (h : Scanned n t k (m + 1) c)
    (hm : t m = 0) (hc : c + 1 ≠ k) : Scanned n t k m (c + 1) where
  short := by have := h.short; omega
  free := by
    refine ⟨by have := h.free.1; omega, fun i hs hi => ?_⟩
    by_cases he : i = m
    · rw [he, hm]
    · exact h.free.2 i (by omega) (by omega)
  exact := by
    rw [show m + (c + 1) = m + 1 + c by omega]; exact h.exact
  none s hs hw := by
    by_cases he : s = m
    · subst he
      have hshort := h.short
      rcases h.exact with hn | hne
      · have := hw.1; omega
      · exact hne (hw.2 (s + 1 + c) (by omega) (by omega))
    · exact h.none s (by omega) hw

/-- An entry in use starts the count again. -/
theorem Scanned.used_step {n : Nat} {t : Nat → Nat} {k m c : Nat} (h : Scanned n t k (m + 1) c)
    (hm : t m ≠ 0) : Scanned n t k m 0 where
  short := by have := h.short; omega
  free := ⟨by have := h.free.1; omega, fun i _ _ => by omega⟩
  exact := Or.inr hm
  none s hs hw := by
    by_cases he : s = m
    · have := h.short
      exact hm (hw.2 m (by omega) (by omega))
    · exact h.none s (by omega) hw

/-- The scan finds the highest window, and finds none only if there is none. -/
theorem topFit_spec {n : Nat} {t : Nat → Nat} {k m c : Nat} (h : Scanned n t k m c) :
    match topFit t k m c with
    | some o => Window n t k o ∧ ∀ s, Window n t k s → s ≤ o
    | none => ∀ s, ¬ Window n t k s := by
  induction m generalizing c with
  | zero => intro s; exact h.none s (Nat.zero_le s)
  | succ m ih =>
    simp only [topFit]
    by_cases hm : t m = 0
    · rw [if_pos hm]
      by_cases hc : c + 1 = k
      · rw [if_pos hc]
        refine ⟨⟨by have := h.free.1; omega, fun i hs hi => ?_⟩, fun s hw => ?_⟩
        · by_cases he : i = m
          · rw [he, hm]
          · exact h.free.2 i (by omega) (by omega)
        · by_contra hlt
          exact h.none s (by omega) hw
      · rw [if_neg hc]
        exact ih (h.free_step hm hc)
    · rw [if_neg hm]
      exact ih (h.used_step hm)

theorem topFit_window {n : Nat} {t : Nat → Nat} {k o : Nat} (hk : 0 < k)
    (h : topFit t k n 0 = some o) : Window n t k o := by
  have hs := topFit_spec (Scanned.start (n := n) (t := t) hk)
  rw [h] at hs
  exact hs.1

/-- Every window starts at or below the one found. -/
theorem topFit_highest {n : Nat} {t : Nat → Nat} {k o s : Nat} (hk : 0 < k)
    (h : topFit t k n 0 = some o) (hw : Window n t k s) : s ≤ o := by
  have hs := topFit_spec (Scanned.start (n := n) (t := t) hk)
  rw [h] at hs
  exact hs.2 s hw

theorem topFit_isSome {n : Nat} {t : Nat → Nat} {k s : Nat} (hk : 0 < k)
    (hw : Window n t k s) : ∃ o, topFit t k n 0 = some o := by
  have hs := topFit_spec (Scanned.start (n := n) (t := t) hk)
  cases h : topFit t k n 0 with
  | some o => exact ⟨o, rfl⟩
  | none => rw [h] at hs; exact absurd hw (hs s)

end Generalplate.Lib.RunTable
