import Mathlib.Algebra.GroupWithZero.Nat
import Mathlib.Logic.Function.Basic
import Mathlib.Data.List.Basic

/-! # Byte memory

Memory as a function of the address, ranges of it read and written as lists of
bytes, and numbers as their little-endian bytes. A range reads back as what was
written to it and keeps what is written apart from it. -/
namespace Generalplate.Lib.ByteMem

variable {mem : Nat → UInt8}

/-- The `n` bytes from `a` on. -/
def get (mem : Nat → UInt8) (a : Nat) : Nat → List UInt8
  | 0 => []
  | n + 1 => mem a :: get mem (a + 1) n

/-- The memory with the bytes written from `a` on. -/
def put (mem : Nat → UInt8) (a : Nat) : List UInt8 → Nat → UInt8
  | [] => mem
  | b :: bs => put (Function.update mem a b) (a + 1) bs

theorem put_out {bs : List UInt8} {a x : Nat} (h : x < a ∨ a + bs.length ≤ x) :
    put mem a bs x = mem x := by
  induction bs generalizing mem a with
  | nil => rfl
  | cons b bs ih =>
    rw [List.length_cons] at h
    rw [put, ih (by omega), Function.update_of_ne (by omega)]

theorem put_append {bs cs : List UInt8} {a : Nat} :
    put mem a (bs ++ cs) = put (put mem a bs) (a + bs.length) cs := by
  induction bs generalizing mem a with
  | nil => rfl
  | cons b bs ih =>
    rw [List.cons_append, put, put, ih, List.length_cons, Nat.add_assoc, Nat.add_comm 1]

theorem get_congr {mem' : Nat → UInt8} {n a : Nat}
    (h : ∀ x, a ≤ x → x < a + n → mem x = mem' x) : get mem a n = get mem' a n := by
  induction n generalizing a with
  | zero => rfl
  | succ n ih =>
    rw [get, get, h a (Nat.le_refl _) (by omega), ih]
    intro x h1 h2
    exact h x (by omega) (by omega)

@[simp] theorem length_get (mem : Nat → UInt8) (a n : Nat) : (get mem a n).length = n := by
  induction n generalizing a with
  | zero => rfl
  | succ n ih => rw [get, List.length_cons, ih]

theorem get_add (mem : Nat → UInt8) (a n m : Nat) :
    get mem a (n + m) = get mem a n ++ get mem (a + n) m := by
  induction n generalizing a with
  | zero => rw [Nat.zero_add, get, List.nil_append, Nat.add_zero]
  | succ n ih =>
    rw [Nat.succ_add, get, get, ih, List.cons_append]
    congr 3
    omega

/-- The next byte behind a range. -/
theorem get_snoc (mem : Nat → UInt8) (a n : Nat) :
    get mem a (n + 1) = get mem a n ++ [mem (a + n)] :=
  get_add mem a n 1

theorem take_get (mem : Nat → UInt8) (a : Nat) {n k : Nat} (h : k ≤ n) :
    (get mem a n).take k = get mem a k := by
  obtain ⟨m, rfl⟩ := Nat.exists_eq_add_of_le h
  rw [get_add, List.take_left' (length_get mem a k)]

/-- The beginning of a range grows by the byte behind it. -/
theorem take_succ_get {a n k : Nat} {bs : List UInt8} (h : get mem a n = bs) (hk : k < n) :
    bs.take (k + 1) = bs.take k ++ [mem (a + k)] := by
  rw [← h, take_get _ _ hk, take_get _ _ (Nat.le_of_lt hk), get_snoc]

/-- A part of a range. -/
theorem get_part {a n : Nat} {bs : List UInt8} (h : get mem a n = bs) {k m : Nat} (hk : k + m ≤ n) :
    get mem (a + k) m = (bs.drop k).take m := by
  obtain ⟨r, rfl⟩ := Nat.exists_eq_add_of_le hk
  rw [← h, Nat.add_assoc, get_add, List.drop_left' (length_get _ _ _), get_add,
    List.take_left' (length_get _ _ _)]

/-- The beginning of a range, read one byte further. -/
theorem prefix_snoc {a : Nat} {f got : List UInt8} (hf : get mem a f.length = f) (hp : got <+: f)
    (hlt : got.length < f.length) : got ++ [mem (a + got.length)] <+: f := by
  have hgot : got = get mem a got.length := by
    have htake := List.prefix_iff_eq_take.mp hp
    rwa [← hf, take_get mem a (Nat.le_of_lt hlt)] at htake
  have hnext : got ++ [mem (a + got.length)] = get mem a (got.length + 1) := by
    rw [get_snoc, ← hgot]
  rw [hnext, ← take_get mem a hlt, hf]
  exact List.take_prefix _ _

/-- A byte stored outside a range. -/
theorem get_update_out {a n x : Nat} {b : UInt8} (h : x < a ∨ a + n ≤ x) :
    get (Function.update mem x b) a n = get mem a n :=
  get_congr fun y h1 h2 => Function.update_of_ne (by omega) _ _

theorem get_put {a : Nat} {bs : List UInt8} : get (put mem a bs) a bs.length = bs := by
  induction bs generalizing mem a with
  | nil => rfl
  | cons b bs ih =>
    rw [put, List.length_cons, get, put_out (Or.inl (Nat.lt_succ_self a)), Function.update_self, ih]

theorem get_put_replicate (mem : Nat → UInt8) (a n : Nat) (b : UInt8) :
    get (put mem a (List.replicate n b)) a n = List.replicate n b := by
  have h := @get_put mem a (List.replicate n b)
  rwa [List.length_replicate] at h

theorem get_put_apart {a b n : Nat} {bs : List UInt8} (h : b + n ≤ a ∨ a + bs.length ≤ b) :
    get (put mem a bs) b n = get mem b n :=
  get_congr fun x h1 h2 => put_out (by omega)

/-- The `k` low bytes of a number, the lowest first. -/
def le : Nat → Nat → List UInt8
  | 0, _ => []
  | k + 1, v => UInt8.ofNat v :: le k (v / 256)

def ofLe : List UInt8 → Nat
  | [] => 0
  | b :: bs => b.toNat + 256 * ofLe bs

@[simp] theorem length_le (k v : Nat) : (le k v).length = k := by
  induction k generalizing v with
  | zero => rfl
  | succ k ih => rw [le, List.length_cons, ih]

theorem ofLe_le (k v : Nat) : ofLe (le k v) = v % 256 ^ k := by
  induction k generalizing v with
  | zero => rw [le, ofLe, Nat.pow_zero, Nat.mod_one]
  | succ k ih =>
    have hmod : v % 256 ^ (k + 1) = v % 256 + 256 * (v / 256 % 256 ^ k) := by
      rw [Nat.pow_succ', Nat.mod_mul]
    rw [le, ofLe, ih, UInt8.toNat_ofNat', hmod]

/-! ## Linked lists

Nodes that begin with a 4-byte pointer to the next node, 0 in the last. -/

/-- From the pointer `p` on the nodes are `l`, in this order. -/
def Linked (mem : Nat → UInt8) : Nat → List Nat → Prop
  | p, [] => p = 0
  | p, x :: l => p = x ∧ p ≠ 0 ∧ Linked mem (ofLe (get mem p 4)) l

instance Linked.decidable (mem : Nat → UInt8) : (p : Nat) → (l : List Nat) →
    Decidable (Linked mem p l)
  | p, [] => inferInstanceAs (Decidable (p = 0))
  | p, x :: l =>
    have := Linked.decidable mem (ofLe (get mem p 4)) l
    inferInstanceAs (Decidable (p = x ∧ p ≠ 0 ∧ _))

theorem Linked.congr {mem' : Nat → UInt8} {p : Nat} {l : List Nat} (h : Linked mem p l)
    (hm : ∀ x ∈ l, ∀ y, x ≤ y → y < x + 4 → mem' y = mem y) : Linked mem' p l := by
  induction l generalizing p with
  | nil => exact h
  | cons x l ih =>
    obtain ⟨rfl, hne, hrest⟩ := h
    have hnext : get mem' p 4 = get mem p 4 := get_congr (hm p (List.mem_cons_self ..))
    refine ⟨rfl, hne, ?_⟩
    rw [hnext]
    exact ih hrest fun x hx => hm x (List.mem_cons_of_mem _ hx)

/-- A node behind all others is put in front of the list. -/
theorem Linked.push {p q : Nat} {l : List Nat} (h : Linked mem p l) (hp : p < 2 ^ 32)
    (hq : q ≠ 0) (hapart : ∀ x ∈ l, x + 4 ≤ q) : Linked (put mem q (le 4 p)) q (q :: l) := by
  have hnext : ofLe (get (put mem q (le 4 p)) q 4) = p := by
    have hget := @get_put mem q (le 4 p)
    rw [length_le] at hget
    rw [hget, ofLe_le]
    exact Nat.mod_eq_of_lt hp
  refine ⟨rfl, hq, ?_⟩
  rw [hnext]
  refine h.congr fun x hx y _ hy => put_out (Or.inl ?_)
  have := hapart x hx
  omega

end Generalplate.Lib.ByteMem
