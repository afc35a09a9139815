import Mathlib.Data.List.Sort

/-! # Message queues of uC/OS-III

A queue holds up to `size` messages, each in an entry of a pool that all queues
share. A task that finds the queue empty waits in the pend list, and the next post
hands its message to the first task there, past the queue. The queue keeps what it
took in and what it gave out: in that order they differ by what lies in it. -/
namespace Generalplate.Ucos

/-- The `OS_ERR` codes of the queue calls. -/
inductive OsErr where
  | none
  | qMax
  | msgPoolEmpty
deriving DecidableEq, Repr

/-- `OS_Q`: the message queue, its `NbrEntriesSize` and the pend list, and the
`NbrFree` of `OSMsgPool`. `took` and `gave` are the messages posted and received so
far, each with its task. -/
structure OsQ (τ : Type*) where
  entries : List Nat
  size : Nat
  pendList : List τ
  nbrFree : Nat
  took : List (τ × Nat)
  gave : List (τ × Nat)

variable {τ : Type*}

/-- `OS_MsgQPut`, for the task `cur`. -/
def osMsgQPut (cur : τ) (msg : Nat) (q : OsQ τ) : OsErr × OsQ τ :=
  if q.entries.length ≥ q.size then (.qMax, q)
  else if q.nbrFree = 0 then (.msgPoolEmpty, q)
  else (.none, { q with
    entries := q.entries ++ [msg]
    nbrFree := q.nbrFree - 1
    took := q.took ++ [(cur, msg)] })

/-- `OSQPost` with `OS_OPT_POST_FIFO`, and the task it makes ready. -/
def osQPost (cur : τ) (msg : Nat) (q : OsQ τ) : OsErr × OsQ τ × Option τ :=
  match q.pendList with
  | [] =>
    let r := osMsgQPut cur msg q
    (r.1, r.2, none)
  | task :: rest => (.none, { q with
      pendList := rest
      took := q.took ++ [(cur, msg)]
      gave := q.gave ++ [(task, msg)] }, some task)

/-- `OSQPend` with `OS_OPT_PEND_BLOCKING`, up to where the task blocks: the message,
or the task's place in the pend list by its priority. -/
def osQPend (prio : τ → Nat) (cur : τ) (q : OsQ τ) : Option Nat × OsQ τ :=
  match q.entries with
  | msg :: rest => (some msg, { q with
      entries := rest
      nbrFree := q.nbrFree + 1
      gave := q.gave ++ [(cur, msg)] })
  | [] => (none, { q with
      pendList := q.pendList.orderedInsert (fun a b => prio a < prio b) cur })

/-- The timeout of a waiting task. -/
def OsQ.pendTimeout [DecidableEq τ] (cur : τ) (q : OsQ τ) : OsQ τ :=
  { q with pendList := q.pendList.erase cur }

/-- A post is accepted. -/
def OsQ.Room (q : OsQ τ) : Prop :=
  q.pendList ≠ [] ∨ (q.entries.length < q.size ∧ q.nbrFree ≠ 0)

/-- The queue gives out what it took in, in order, and nobody waits for what is
there. -/
structure OsQ.Ok (q : OsQ τ) : Prop where
  fifo : q.took.map Prod.snd = q.gave.map Prod.snd ++ q.entries
  wait : q.pendList ≠ [] → q.entries = []

variable {q : OsQ τ} {cur : τ} {msg : Nat}

/-- What a post can do. -/
theorem osQPost_cases (cur : τ) (msg : Nat) (q : OsQ τ) :
    (∃ task rest, q.pendList = task :: rest ∧ osQPost cur msg q = (.none, { q with
      pendList := rest
      took := q.took ++ [(cur, msg)]
      gave := q.gave ++ [(task, msg)] }, some task)) ∨
    (q.pendList = [] ∧ q.Room ∧ osQPost cur msg q = (.none, { q with
      entries := q.entries ++ [msg]
      nbrFree := q.nbrFree - 1
      took := q.took ++ [(cur, msg)] }, none)) ∨
    (q.pendList = [] ∧ ¬ q.Room ∧ ∃ err, err ≠ .none ∧ osQPost cur msg q = (err, q, none)) := by
  cases hp : q.pendList with
  | cons task rest => exact Or.inl ⟨task, rest, rfl, by simp only [osQPost, hp]⟩
  | nil =>
    refine Or.inr ?_
    by_cases hfull : q.entries.length ≥ q.size
    · refine Or.inr ⟨rfl, ?_, .qMax, by decide, by simp only [osQPost, hp, osMsgQPut, if_pos hfull]⟩
      rintro (hne | ⟨hlt, -⟩)
      · exact hne hp
      · omega
    · by_cases hpool : q.nbrFree = 0
      · refine Or.inr ⟨rfl, ?_, .msgPoolEmpty, by decide, ?_⟩
        · rintro (hne | ⟨-, hfree⟩)
          · exact hne hp
          · exact hfree hpool
        · simp only [osQPost, hp, osMsgQPut, if_neg hfull, if_pos hpool]
      · refine Or.inl ⟨rfl, Or.inr ⟨by omega, hpool⟩, ?_⟩
        simp only [osQPost, hp, osMsgQPut, if_neg hfull, if_neg hpool]

/-- A post takes the message in exactly when it reports success, and when there is
room. -/
theorem osQPost_took (cur : τ) (msg : Nat) (q : OsQ τ) :
    (q.Room ∧ (osQPost cur msg q).1 = .none ∧
      (osQPost cur msg q).2.1.took = q.took ++ [(cur, msg)]) ∨
    (¬ q.Room ∧ (osQPost cur msg q).1 ≠ .none ∧ (osQPost cur msg q).2 = (q, none)) := by
  rcases osQPost_cases cur msg q with ⟨task, rest, hp, he⟩ | ⟨-, hroom, he⟩ |
    ⟨-, hroom, err, hne, he⟩
  · exact Or.inl ⟨Or.inl (by simp [hp]), by rw [he], by rw [he]⟩
  · exact Or.inl ⟨hroom, by rw [he], by rw [he]⟩
  · exact Or.inr ⟨hroom, by rwa [he], by rw [he]⟩

theorem osQPend_took (prio : τ → Nat) (cur : τ) (q : OsQ τ) :
    (osQPend prio cur q).2.took = q.took := by
  rw [osQPend]
  split <;> rfl

theorem OsQ.Ok.post (h : q.Ok) (cur : τ) (msg : Nat) : (osQPost cur msg q).2.1.Ok := by
  have hfifo := h.fifo
  rcases osQPost_cases cur msg q with ⟨task, rest, hp, he⟩ | ⟨hp, -, he⟩ | ⟨-, -, err, -, he⟩
  · have hnone := h.wait (by simp [hp])
    rw [he]
    exact ⟨by simp [hfifo, hnone], fun _ => hnone⟩
  · rw [he]
    exact ⟨by simp [hfifo], fun hne => absurd hp hne⟩
  · rwa [he]

theorem OsQ.Ok.pend (h : q.Ok) (prio : τ → Nat) (cur : τ) : (osQPend prio cur q).2.Ok := by
  have hfifo := h.fifo
  cases he : q.entries with
  | cons msg rest =>
    simp only [osQPend, he]
    refine ⟨by simp [hfifo, he], ?_⟩
    intro hne
    have := h.wait hne
    rw [he] at this
    cases this
  | nil =>
    simp only [osQPend, he]
    exact ⟨by simpa [he] using hfifo, fun _ => rfl⟩

theorem OsQ.Ok.timeout [DecidableEq τ] (h : q.Ok) (cur : τ) : (q.pendTimeout cur).Ok :=
  ⟨h.fifo, fun hne => h.wait fun hnil => hne (by simp [pendTimeout, hnil])⟩

end Generalplate.Ucos
