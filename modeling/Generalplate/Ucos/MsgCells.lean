import Mathlib.Algebra.BigOperators.Group.Finset.Piecewise
import Mathlib.Data.Fintype.Basic
import Generalplate.Lib.Chain
import Generalplate.Lib.Replies
import Generalplate.Ucos.Msg

/-! # The cells of the messages

Free cells are linked from the pool, and those of a queue from its `OutPtr` to its `InPtr`; the
link of the last cell of a queue may lead anywhere, and `NbrEntries` says where the queue
ends. -/
namespace Generalplate.Ucos
open Lib Lib.Chain

variable {κ : Type} [DecidableEq κ]

@[simp] theorem setNext_mail (tbl : Nat → OsMsg) (p : Nat) (q : Option Nat) (i : Nat) :
    (setNext tbl p q i).mail = (tbl i).mail := by
  by_cases hi : i = p
  · subst hi
    rw [setNext, Function.update_self]
    rfl
  · rw [setNext, Function.update_of_ne hi]

@[simp] theorem setNext_self (tbl : Nat → OsMsg) (p : Nat) (q : Option Nat) :
    (setNext tbl p q p).nextPtr = q := by
  rw [setNext, Function.update_self]

@[simp] theorem setNext_other {p i : Nat} (h : i ≠ p) (tbl : Nat → OsMsg) (q : Option Nat) :
    setNext tbl p q i = tbl i := Function.update_of_ne h ..

/-- Where the free cells, or those of a queue, begin. -/
def MsgSys.head (s : MsgSys κ) : Option κ → Option Nat
  | none => s.pool.nextPtr
  | some k => (s.queues k).outPtr

/-- The cells of the pool and of each queue are linked, and hold its messages in order. -/
structure MsgSys.Refines (s : MsgSys κ) (b : Boxes κ) (cells : Option κ → List Nat) : Prop where
  linked : Linked (fun i => (s.tbl i).nextPtr) s.head cells
  nbrFree : s.pool.nbrFree = (cells none).length
  free : b.free = (cells none).length
  entries : ∀ k, (s.queues k).nbrEntries = (cells (some k)).length
  size : ∀ k, (s.queues k).nbrEntriesSize = b.sizes k
  last : ∀ k, cells (some k) ≠ [] → (s.queues k).inPtr = (cells (some k)).getLast?
  mails : ∀ k, (cells (some k)).map (fun i => (s.tbl i).mail) = b.mails k

section Refines
variable {s : MsgSys κ} {b : Boxes κ} {cells : Option κ → List Nat} {k : κ}

omit [DecidableEq κ] in
theorem MsgSys.Refines.length (h : s.Refines b cells) (k : κ) :
    (s.queues k).nbrEntries = (b.mails k).length := by
  rw [h.entries, ← h.mails, List.length_map]

/-- What is left to show behind a call in which cells go between the pool and queue `k`: their
links, and what is in the queue. -/
theorem MsgSys.Refines.of_linked (h : s.Refines b cells) {tbl : Nat → OsMsg} {pool : OsMsgPool}
    {q : OsMsgQ} {cells' : Option κ → List Nat} {mails : List Mail}
    (hlinked : Linked (fun i => (tbl i).nextPtr)
      (MsgSys.mk tbl pool (Function.update s.queues k q)).head cells')
    (hother : ∀ j, j ≠ k → cells' (some j) = cells (some j))
    (hmail : ∀ j, j ≠ k → ∀ i ∈ cells (some j), (tbl i).mail = (s.tbl i).mail)
    (hfree : pool.nbrFree = (cells' none).length)
    (hentries : q.nbrEntries = (cells' (some k)).length)
    (hsize : q.nbrEntriesSize = (s.queues k).nbrEntriesSize)
    (hlast : cells' (some k) ≠ [] → q.inPtr = (cells' (some k)).getLast?)
    (hmails : (cells' (some k)).map (fun i => (tbl i).mail) = mails) :
    (MsgSys.mk tbl pool (Function.update s.queues k q)).Refines
      { b with mails := Function.update b.mails k mails, free := (cells' none).length } cells' := by
  have hqueue : ∀ {j}, j ≠ k → Function.update s.queues k q j = s.queues j := fun hj =>
    Function.update_of_ne hj ..
  refine ⟨hlinked, hfree, rfl, fun j => ?_, fun j => ?_, fun j => ?_, fun j => ?_⟩
  · dsimp only
    by_cases hj : j = k
    · subst hj
      rw [Function.update_self, hentries]
    · rw [hqueue hj, hother j hj, h.entries]
  · dsimp only
    by_cases hj : j = k
    · subst hj
      rw [Function.update_self, hsize]
      exact h.size j
    · rw [hqueue hj]
      exact h.size j
  · dsimp only
    by_cases hj : j = k
    · subst hj
      rw [Function.update_self]
      exact hlast
    · rw [hqueue hj, hother j hj]
      exact h.last j
  · dsimp only
    by_cases hj : j = k
    · subst hj
      rw [Function.update_self, hmails]
    · rw [Function.update_of_ne hj, hother j hj, ← h.mails j]
      exact List.map_congr_left (hmail j hj)

omit [DecidableEq κ] in
/-- The first free cell. -/
theorem MsgSys.Refines.pool_cons (h : s.Refines b cells) (hfree : s.pool.nbrFree ≠ 0) :
    ∃ p rest, cells none = p :: rest ∧ s.pool.nextPtr = some p := by
  rw [h.nbrFree] at hfree
  obtain ⟨p, rest, hcells⟩ := List.exists_cons_of_length_pos (Nat.pos_of_ne_zero hfree)
  have hfollows := h.linked.follows none
  rw [hcells] at hfollows
  exact ⟨p, rest, hcells, hfollows.1⟩

omit [DecidableEq κ] in
theorem MsgSys.Refines.empty_iff (h : s.Refines b cells) (k : κ) :
    (s.queues k).nbrEntries = 0 ↔ cells (some k) = [] := by
  rw [h.entries, List.length_eq_zero_iff]

theorem MsgSys.Refines.link (h : s.Refines b cells) (k : κ) (opt : PostOpt) {p : Nat}
    {rest : List Nat} (hcells : cells none = p :: rest) :
    ∃ tbl q, (s.queues k).link s.tbl p opt = some (tbl, q) ∧
      (∀ i, (tbl i).mail = (s.tbl i).mail) ∧
      q.nbrEntries = (opt.place (cells (some k)) p).length ∧
      q.nbrEntriesSize = (s.queues k).nbrEntriesSize ∧
      q.inPtr = (opt.place (cells (some k)) p).getLast? ∧
      ∀ head', head' none = (s.tbl p).nextPtr → head' (some k) = q.outPtr →
        (∀ x, x ≠ none → x ≠ some k → head' x = s.head x) →
        Linked (fun i => (tbl i).nextPtr) head'
          (moved cells none (some k) rest (opt.place (cells (some k)) p)) := by
  have hne : (none : Option κ) ≠ some k := Option.some_ne_none k |>.symm
  unfold OsMsgQ.link
  by_cases hempty : (s.queues k).nbrEntries = 0
  · have hnil := (h.empty_iff k).mp hempty
    have hone : opt.place (cells (some k)) p = p :: cells (some k) := by
      rw [hnil]
      cases opt <;> rfl
    rw [if_pos hempty, hone, hnil]
    refine ⟨_, _, rfl, fun _ => rfl, rfl, rfl, rfl, fun head' hfrom hto hother => ?_⟩
    have hsame : ∀ i, i ≠ p → (s.tbl i).nextPtr = (s.tbl i).nextPtr := fun _ _ => rfl
    have hlinked := h.linked.move_front hne hcells hsame (fun hcell => absurd hnil hcell) hfrom hto
      hother
    rwa [hnil] at hlinked
  · rw [if_neg hempty]
    have hnil : cells (some k) ≠ [] := fun hnil => hempty ((h.empty_iff k).mpr hnil)
    cases opt with
    | fifo =>
      obtain ⟨ds, d, hds⟩ := List.eq_nil_or_concat (cells (some k)) |>.resolve_left hnil
      have hin : (s.queues k).inPtr = some d := by
        rw [h.last k hnil, hds, List.concat_eq_append, List.getLast?_concat]
      rw [List.concat_eq_append] at hds
      have hpd : p ≠ d := by
        rintro rfl
        refine hne (h.linked.apart none (some k) p ?_ ?_)
        · rw [hcells]
          exact List.mem_cons_self
        · rw [hds]
          exact List.mem_append_right ds (List.mem_singleton_self p)
      rw [hin]
      refine ⟨_, _, rfl, fun i => ?_, ?_, rfl, ?_, fun head' hfrom hto hother => ?_⟩
      · rw [setNext_mail, setNext_mail]
      · rw [PostOpt.place, List.length_append, List.length_singleton, h.entries]
      · rw [PostOpt.place, List.getLast?_concat]
      · refine h.linked.move_back hne hcells hds (fun i hip hid => ?_) ?_ hfrom fun x hx => ?_
        · rw [setNext_other hip, setNext_other hid]
        · rw [setNext_other (Ne.symm hpd), setNext_self]
        · by_cases hxk : x = some k
          · subst hxk
            exact hto
          · exact hother x hx hxk
    | lifo =>
      refine ⟨_, _, rfl, fun i => setNext_mail .., ?_, rfl, ?_, fun head' hfrom hto hother => ?_⟩
      · rw [PostOpt.place, List.length_cons, h.entries]
      · rw [PostOpt.place, List.getLast?_cons, h.last k hnil]
        obtain ⟨c, hc⟩ := Option.isSome_iff_exists.mp (List.getLast?_isSome.mpr hnil)
        rw [hc, Option.getD_some]
      · exact h.linked.move_front hne hcells (fun i hi => by rw [setNext_other hi])
          (fun _ => setNext_self ..) hfrom hto hother

/-- **`OS_MsgQPut`** puts the message behind the others of the queue, or in front of them. -/
theorem MsgSys.Refines.put (h : s.Refines b cells) (k : κ) (m : Mail) (opt : PostOpt) :
    ∃ s' cells', s.put k m opt = some ((b.put k m opt).1, s') ∧
      s'.Refines (b.put k m opt).2 cells' := by
  unfold MsgSys.put Boxes.put
  dsimp only
  rw [h.size k, h.length k]
  by_cases hfull : b.sizes k ≤ (b.mails k).length
  · rw [if_pos hfull, if_pos hfull]
    exact ⟨s, cells, rfl, h⟩
  rw [if_neg hfull, if_neg hfull]
  have hsame : s.pool.nbrFree = b.free := h.nbrFree.trans h.free.symm
  by_cases hpool : s.pool.nbrFree = 0
  · rw [if_pos hpool, if_pos (hsame.symm.trans hpool)]
    exact ⟨s, cells, rfl, h⟩
  rw [if_neg hpool, if_neg fun hzero => hpool (hsame.trans hzero)]
  obtain ⟨p, rest, hcells, hnext⟩ := h.pool_cons hpool
  obtain ⟨tbl, q, hlink, hmail, hentries, hsize, hlast, hlinked⟩ := h.link k opt hcells
  rw [hnext]
  dsimp only [Option.bind_eq_bind, Option.bind_some]
  rw [hlink]
  dsimp only [Option.bind_some]
  generalize hq' : (if q.nbrEntriesMax < q.nbrEntries then { q with nbrEntriesMax := q.nbrEntries }
    else q) = q'
  have hq : q'.nbrEntries = q.nbrEntries ∧ q'.nbrEntriesSize = q.nbrEntriesSize ∧
      q'.inPtr = q.inPtr ∧ q'.outPtr = q.outPtr := by
    rw [← hq']
    split <;> exact ⟨rfl, rfl, rfl, rfl⟩
  have hlinks :
      (fun i => (Function.update tbl p ⟨(tbl p).nextPtr, m.ptr, m.size, m.ts⟩ i).nextPtr) =
        fun i => (tbl i).nextPtr := by
    funext i
    by_cases hi : i = p
    · subst hi
      rw [Function.update_self]
    · rw [Function.update_of_ne hi]
  have hp : ∀ x, x ≠ none → p ∉ cells x := fun x hx hmem =>
    hx (h.linked.apart x none p hmem (by rw [hcells]; exact List.mem_cons_self))
  have hold : ∀ x, x ≠ none → ∀ i ∈ cells x,
      (Function.update tbl p ⟨(tbl p).nextPtr, m.ptr, m.size, m.ts⟩ i).mail = (s.tbl i).mail := by
    intro x hx i hi
    have hip : i ≠ p := by
      rintro rfl
      exact hp x hx hi
    rw [Function.update_of_ne hip, hmail]
  have hnone : moved cells none (some k) rest (opt.place (cells (some k)) p) none = rest :=
    moved_from (Option.some_ne_none k).symm
  have hto : moved cells none (some k) rest (opt.place (cells (some k)) p) (some k) =
      opt.place (cells (some k)) p := moved_to
  have hfree : b.free - 1 =
      (moved cells none (some k) rest (opt.place (cells (some k)) p) none).length := by
    rw [hnone, h.free, hcells, List.length_cons, Nat.add_sub_cancel]
  refine ⟨_, moved cells none (some k) rest (opt.place (cells (some k)) p), rfl, ?_⟩
  rw [hfree]
  refine h.of_linked ?_ (fun j hj => ?_) (fun j hj => hold _ (Option.some_ne_none j)) ?_ ?_ ?_ ?_ ?_
  · rw [hlinks]
    refine hlinked _ rfl ?_ fun x hx hxk => ?_
    · show (Function.update s.queues k q' k).outPtr = q.outPtr
      rw [Function.update_self, hq.2.2.2]
    · obtain ⟨j, rfl⟩ := Option.ne_none_iff_exists'.mp hx
      show (Function.update s.queues k q' j).outPtr = (s.queues j).outPtr
      rw [Function.update_of_ne fun hjk => hxk (congrArg some hjk)]
  · exact moved_other (Option.some_ne_none j) fun hjk => hj (Option.some.inj hjk)
  · dsimp only
    rw [← hfree, ← hsame]
  · rw [hto, hq.1, hentries]
  · rw [hq.2.1, hsize]
  · intro _
    rw [hto, hq.2.2.1, hlast]
  · rw [hto, ← h.mails k]
    have hnew : (Function.update tbl p ⟨(tbl p).nextPtr, m.ptr, m.size, m.ts⟩ p).mail = m := by
      rw [Function.update_self]
      rfl
    have hmap := List.map_congr_left (hold (some k) (Option.some_ne_none k))
    cases opt with
    | fifo => rw [PostOpt.place, PostOpt.place, List.map_append, List.map_singleton, hmap, hnew]
    | lifo => rw [PostOpt.place, PostOpt.place, List.map_cons, hmap, hnew]

omit [DecidableEq κ] in
theorem MsgSys.Refines.advance (h : s.Refines b cells) {p : Nat} {rest : List Nat}
    (hcells : cells (some k) = p :: rest) :
    let q := (s.queues k).advance (s.tbl p).nextPtr
    q.outPtr = (s.tbl p).nextPtr ∧ q.nbrEntries = rest.length ∧
      q.nbrEntriesSize = (s.queues k).nbrEntriesSize ∧ (rest ≠ [] → q.inPtr = rest.getLast?) := by
  have hfollows := h.linked.follows (some k)
  have hentries := h.entries k
  have hlast := h.last k (by rw [hcells]; exact List.cons_ne_nil p rest)
  rw [hcells] at hfollows hentries hlast
  cases hnext : (s.tbl p).nextPtr with
  | none =>
    have hrest : rest = [] := by
      cases rest with
      | nil => rfl
      | cons c rest =>
        have hc : (s.tbl p).nextPtr = some c := hfollows.2.1
        rw [hnext] at hc
        cases hc
    rw [hrest]
    exact ⟨rfl, rfl, rfl, fun hnil => absurd rfl hnil⟩
  | some next =>
    refine ⟨rfl, by rw [OsMsgQ.advance, hentries, List.length_cons, Nat.add_sub_cancel], rfl,
      fun hnil => ?_⟩
    rw [List.getLast?_cons] at hlast
    obtain ⟨c, hc⟩ := Option.isSome_iff_exists.mp (List.getLast?_isSome.mpr hnil)
    rw [hc, Option.getD_some] at hlast
    exact hlast.trans hc.symm

/-- **`OS_MsgQGet`** takes the first message of the queue. -/
theorem MsgSys.Refines.get (h : s.Refines b cells) (k : κ) :
    ∃ s' cells', s.get k = some ((b.get k).1, s') ∧ s'.Refines (b.get k).2 cells' := by
  have hne : some k ≠ (none : Option κ) := Option.some_ne_none k
  have hmails := h.mails k
  have hentries := h.entries k
  unfold MsgSys.get Boxes.get
  dsimp only
  cases hcells : cells (some k) with
  | nil =>
    rw [hcells] at hmails
    rw [← hmails, if_pos ((h.empty_iff k).mpr hcells)]
    exact ⟨s, cells, rfl, h⟩
  | cons p rest =>
    rw [hcells] at hmails hentries
    have hfollows := h.linked.follows (some k)
    rw [hcells] at hfollows
    have hout : (s.queues k).outPtr = some p := hfollows.1
    have hpos : (s.queues k).nbrEntries ≠ 0 := by
      rw [hentries]
      exact Nat.succ_ne_zero rest.length
    rw [← hmails, List.map_cons, if_neg hpos, hout]
    dsimp only [Option.bind_eq_bind, Option.bind_some]
    have hq := h.advance hcells
    generalize (s.queues k).advance (s.tbl p).nextPtr = q' at hq ⊢
    obtain ⟨houtq, hentriesq, hsize, hlast⟩ := hq
    have hnone : moved cells (some k) none rest (p :: cells none) none = p :: cells none := moved_to
    have hfrom : moved cells (some k) none rest (p :: cells none) (some k) = rest := moved_from hne
    have hfree : b.free + 1 = (moved cells (some k) none rest (p :: cells none) none).length := by
      rw [hnone, List.length_cons, h.free]
    refine ⟨_, moved cells (some k) none rest (p :: cells none), rfl, ?_⟩
    rw [hfree]
    refine h.of_linked ?_ (fun j hj => ?_) (fun j _ i _ => setNext_mail ..) ?_ ?_ hsize ?_ ?_
    · refine h.linked.move_front hne hcells (fun i hi => by rw [setNext_other hi])
        (fun _ => setNext_self ..) ?_ rfl fun x hxk hx => ?_
      · show (Function.update s.queues k q' k).outPtr = _
        rw [Function.update_self, houtq]
      · obtain ⟨j, rfl⟩ := Option.ne_none_iff_exists'.mp hx
        show (Function.update s.queues k q' j).outPtr = (s.queues j).outPtr
        rw [Function.update_of_ne fun hjk => hxk (congrArg some hjk)]
    · exact moved_other (fun hjk => hj (Option.some.inj hjk)) (Option.some_ne_none j)
    · rw [← hfree, h.nbrFree, h.free]
    · rw [hfrom, hentriesq]
    · rw [hfrom]
      exact hlast
    · rw [hfrom]
      exact List.map_congr_left fun i _ => setNext_mail ..

/-- **`OS_MsgQFreeAll`** empties the queue. -/
theorem MsgSys.Refines.freeAll (h : s.Refines b cells) (k : κ) :
    ∃ s' cells', s.freeAll k = some ((b.freeAll k).1, s') ∧ s'.Refines (b.freeAll k).2 cells' := by
  have hne : some k ≠ (none : Option κ) := Option.some_ne_none k
  unfold MsgSys.freeAll Boxes.freeAll
  dsimp only
  rw [h.length k]
  by_cases hpos : 0 < (b.mails k).length
  · rw [if_pos hpos]
    have hnil : cells (some k) ≠ [] := by
      intro hnil
      rw [← h.mails k, hnil] at hpos
      exact Nat.lt_irrefl 0 hpos
    obtain ⟨ds, d, hds⟩ := List.eq_nil_or_concat (cells (some k)) |>.resolve_left hnil
    have hin : (s.queues k).inPtr = some d := by
      rw [h.last k hnil, hds, List.concat_eq_append, List.getLast?_concat]
    rw [List.concat_eq_append] at hds
    rw [hin]
    have hnone : moved cells (some k) none [] (cells (some k) ++ cells none) none =
        cells (some k) ++ cells none := moved_to
    have hfrom : moved cells (some k) none [] (cells (some k) ++ cells none) (some k) = [] :=
      moved_from hne
    have hfree : b.free + (b.mails k).length =
        (moved cells (some k) none [] (cells (some k) ++ cells none) none).length := by
      rw [hnone, List.length_append, h.free, ← h.length k, h.entries k, Nat.add_comm]
    refine ⟨_, moved cells (some k) none [] (cells (some k) ++ cells none), rfl, ?_⟩
    rw [hfree]
    refine h.of_linked ?_ (fun j hj => ?_) (fun j _ i _ => setNext_mail ..) ?_ ?_ rfl ?_ ?_
    · refine h.linked.move_all hne hds (fun i hi => by rw [setNext_other hi])
        (fun _ => setNext_self ..) rfl fun x hxk hx => ?_
      obtain ⟨j, rfl⟩ := Option.ne_none_iff_exists'.mp hx
      show (Function.update s.queues k _ j).outPtr = (s.queues j).outPtr
      rw [Function.update_of_ne fun hjk => hxk (congrArg some hjk)]
    · exact moved_other (fun hjk => hj (Option.some.inj hjk)) (Option.some_ne_none j)
    · rw [← hfree, h.nbrFree, h.free]
    · rw [hfrom]
      rfl
    · rw [hfrom]
      exact fun hnil' => absurd rfl hnil'
    · rw [hfrom]
      rfl
  · rw [if_neg hpos]
    have hnil : b.mails k = [] := List.length_eq_zero_iff.mp (Nat.eq_zero_of_not_pos hpos)
    refine ⟨s, cells, by rw [hnil]; rfl, ?_⟩
    have hsame : Function.update b.mails k [] = b.mails := by
      rw [← hnil]
      exact Function.update_eq_self k b.mails
    rw [hsame, hnil]
    exact h

end Refines

/-! ## All calls -/

/-- The pool is linked from its first cell on, in order. -/
theorem osMsgPoolCreate_follows (tbl : Nat → OsMsg) (p loops : Nat) :
    Follows (fun i => (osMsgPoolCreate tbl p loops i).nextPtr) (some p)
      (List.range' p (loops + 1)) := by
  have hbefore : ∀ (loops : Nat) (tbl : Nat → OsMsg) (p i : Nat), i < p →
      osMsgPoolCreate tbl p loops i = tbl i := by
    intro loops
    induction loops with
    | zero => exact fun tbl p i hi => Function.update_of_ne (Nat.ne_of_lt hi) ..
    | succ loops ih =>
      intro tbl p i hi
      rw [osMsgPoolCreate, ih _ _ _ (Nat.lt_succ_of_lt hi)]
      exact Function.update_of_ne (Nat.ne_of_lt hi) ..
  induction loops generalizing tbl p with
  | zero => exact ⟨rfl, trivial⟩
  | succ loops ih =>
    rw [List.range'_succ]
    refine ⟨rfl, ?_⟩
    have hlink : (osMsgPoolCreate tbl p (loops + 1) p).nextPtr = some (p + 1) := by
      rw [osMsgPoolCreate, hbefore _ _ _ _ (Nat.lt_succ_self p), Function.update_self]
    dsimp only
    rw [hlink]
    exact ih _ (p + 1)

theorem MsgSys.refines_init (tbl : Nat → OsMsg) {n : Nat} (hn : 0 < n)
    (sizes : κ → Nat) :
    (MsgSys.init tbl n sizes).Refines (Boxes.init n sizes)
      (Function.update (fun _ => []) none (List.range' 0 n)) := by
  have hsome : ∀ k : κ, Function.update (fun _ => []) none (List.range' 0 n) (some k) = [] :=
    fun k => Function.update_of_ne (Option.some_ne_none k) ..
  refine ⟨Linked.single ?_ List.nodup_range', ?_, ?_, fun k => ?_, fun _ => rfl, fun k => ?_,
    fun k => ?_⟩
  · obtain ⟨loops, rfl⟩ : ∃ loops, n = loops + 1 := ⟨n - 1, by omega⟩
    exact osMsgPoolCreate_follows tbl 0 loops
  · rw [Function.update_self, List.length_range']
    rfl
  · rw [Function.update_self, List.length_range']
    rfl
  · rw [hsome]
    rfl
  · rw [hsome]
    exact fun hnil => absurd rfl hnil
  · rw [hsome]
    rfl

section Total
variable [Fintype κ]

theorem sum_length_update (f : κ → List Mail) (k : κ) (l : List Mail) :
    ∑ j, (Function.update f k l j).length + (f k).length = ∑ j, (f j).length + l.length := by
  have hupdate : ∀ j, (Function.update f k l j).length =
      Function.update (fun j => (f j).length) k l.length j :=
    fun j => Function.apply_update (fun _ => List.length) f k l j
  simp only [hupdate]
  rw [Finset.sum_update_of_mem (Finset.mem_univ k),
    ← Finset.add_sum_erase _ (fun j => (f j).length) (Finset.mem_univ k),
    Finset.sdiff_singleton_eq_erase]
  omega

/-- The messages and the free cells. -/
def Boxes.total (b : Boxes κ) : Nat := b.free + ∑ k, (b.mails k).length

theorem Boxes.total_next (call : MsgCall κ) (b : Boxes κ) : (b.next call).2.total = b.total := by
  cases call with
  | put k m opt =>
    show (b.put k m opt).2.total = b.total
    unfold Boxes.put
    split
    · rfl
    split
    · rfl
    · have hsum := sum_length_update b.mails k (opt.place (b.mails k) m)
      have hlen : (opt.place (b.mails k) m).length = (b.mails k).length + 1 := by
        cases opt with
        | fifo => exact List.length_append
        | lifo => rfl
      simp only [Boxes.total]
      omega
  | get k =>
    show (b.get k).2.total = b.total
    unfold Boxes.get
    split
    · rfl
    · rename_i m mails hmails
      have hsum := sum_length_update b.mails k mails
      rw [hmails, List.length_cons] at hsum
      simp only [Boxes.total]
      omega
  | freeAll k =>
    have hsum := sum_length_update b.mails k []
    rw [List.length_nil] at hsum
    simp only [Boxes.next, Boxes.freeAll, Boxes.total]
    omega

/-- **The cells refine the lists**: any calls for any queues are answered as the lists of
messages answer them, none follows a null pointer, and no cell is lost. -/
theorem msgSys_refines (tbl : Nat → OsMsg) {n : Nat} (hn : 0 < n) (sizes : κ → Nat)
    (calls : List (MsgCall κ)) :
    ∃ s cells, Replies.run MsgSys.step calls (MsgSys.init tbl n sizes) =
        some ((Replies.answers Boxes.next calls (Boxes.init n sizes)).1, s) ∧
      s.Refines (Replies.answers Boxes.next calls (Boxes.init n sizes)).2 cells ∧
      s.pool.nbrFree + ∑ k, (s.queues k).nbrEntries = n := by
  have hstep : ∀ (call : MsgCall κ) (s : MsgSys κ) (b : Boxes κ),
      (∃ cells, s.Refines b cells) → ∃ s', s.step call = some ((b.next call).1, s') ∧
        ∃ cells, s'.Refines (b.next call).2 cells := by
    rintro call s b ⟨cells, h⟩
    cases call with
    | put k m opt =>
      obtain ⟨s', cells', hput, h'⟩ := h.put k m opt
      exact ⟨s', by rw [MsgSys.step, hput]; rfl, cells', h'⟩
    | get k =>
      obtain ⟨s', cells', hget, h'⟩ := h.get k
      exact ⟨s', by rw [MsgSys.step, hget]; rfl, cells', h'⟩
    | freeAll k =>
      obtain ⟨s', cells', hfree, h'⟩ := h.freeAll k
      exact ⟨s', by rw [MsgSys.step, hfree]; rfl, cells', h'⟩
  have hinit : ∃ cells, (MsgSys.init tbl n sizes).Refines (Boxes.init n sizes) cells :=
    ⟨_, MsgSys.refines_init tbl hn sizes⟩
  obtain ⟨s, hrun, cells, h⟩ := Replies.run_refines hstep calls hinit
  have htotal : (Boxes.init n sizes).total = n := by simp [Boxes.total, Boxes.init]
  have hkeeps : ∀ (call : MsgCall κ) (b : Boxes κ), b.total = n → (b.next call).2.total = n :=
    fun call b hb => (b.total_next call).trans hb
  have hall := Replies.answers_keeps hkeeps calls htotal
  refine ⟨s, cells, hrun, h, ?_⟩
  rw [h.nbrFree, ← h.free, Finset.sum_congr rfl fun k _ => h.length k]
  exact hall

/-- Two queues of two messages each over a pool of three. -/
theorem msgSys_refines_two :
    let calls : List (MsgCall (Fin 2)) := [.put 0 ⟨10, 1, 0⟩ .fifo, .put 0 ⟨11, 1, 1⟩ .lifo,
      .put 0 ⟨12, 1, 2⟩ .fifo, .put 1 ⟨13, 1, 3⟩ .fifo, .put 1 ⟨14, 1, 4⟩ .fifo, .get 0, .freeAll 0]
    (∃ s cells,
      Replies.run MsgSys.step calls (MsgSys.init (fun _ => ⟨none, 0, 0, 0⟩) 3 fun _ => 2) =
        some ((Replies.answers Boxes.next calls (Boxes.init 3 fun _ => 2)).1, s) ∧
      s.Refines (Replies.answers Boxes.next calls (Boxes.init 3 fun _ => 2)).2 cells ∧
      s.pool.nbrFree + ∑ k, (s.queues k).nbrEntries = 3) ∧
    (Replies.answers Boxes.next calls (Boxes.init 3 fun _ => 2)).1 =
      [.put .none, .put .none, .put .qMax, .put .none, .put .msgPoolEmpty, .get (some ⟨11, 1, 1⟩),
        .freeAll 1] := by
  intro calls
  exact ⟨msgSys_refines _ (by decide) _ calls, by decide⟩

end Total

/-- The queue of `OSQPost` and `OSQPend` is such a list. -/
theorem Boxes.put_osMsgQPut {τ : Type} (b : Boxes κ) (k : κ) (m : Mail) (cur : τ) {q : OsQ τ}
    (hentries : q.entries = (b.mails k).map Mail.ptr) (hsize : q.size = b.sizes k)
    (hfree : q.nbrFree = b.free) :
    (osMsgQPut cur m.ptr q).1 = (b.put k m .fifo).1 ∧
      (osMsgQPut cur m.ptr q).2.entries = ((b.put k m .fifo).2.mails k).map Mail.ptr ∧
      (osMsgQPut cur m.ptr q).2.nbrFree = (b.put k m .fifo).2.free := by
  have hlen : q.entries.length = (b.mails k).length := by rw [hentries, List.length_map]
  unfold osMsgQPut Boxes.put
  rw [hlen, hsize, hfree]
  split
  · exact ⟨rfl, hentries, hfree⟩
  split
  · exact ⟨rfl, hentries, hfree⟩
  · refine ⟨rfl, ?_, rfl⟩
    dsimp only
    rw [Function.update_self, PostOpt.place, List.map_append, hentries]
    rfl

end Generalplate.Ucos
