import Generalplate.Httpd.Send

/-! # A file that is parsed and sent

The state of a file with tags and what is sent of it: the bytes sent and those that are
parsed but not sent are the page of what is parsed. Sending and parsing one byte more keep
that. -/
namespace Generalplate.Httpd
open Lib.Transducer Lwip

/-! ## The reader of what is parsed -/

section Reader
variable (clock : Nat → Readings) (start : Nat)

/-- The reader behind what is parsed. -/
def Http.reader (hs : Http) : Reader := (run (Reader.next clock) .start (hs.data.take hs.parsed)).2

/-- The page up to there. -/
def Http.shown (hs : Http) : List UInt8 :=
  visible start (run (Reader.next clock) .start (hs.data.take hs.parsed)).1

/-- What is parsed but not sent. -/
def Http.unsent (hs : Http) : List UInt8 := (hs.data.take hs.parsed).drop hs.file

/-- What is sent of the insert, or waits in the reader and is sent as a whole. -/
def Http.inserted (hs : Http) : List UInt8 :=
  if hs.parser.state = .sending then (hs.reader clock).insert.take hs.parser.index
  else (hs.reader clock).insert

/-- In `TAG_SENDING` the insert is the one of the reader, and it is sent only behind what is
in front of it and with something of the file behind it. Otherwise the two parsers go on
alike. -/
def Http.Place (hs : Http) : Prop :=
  if hs.parser.state = .sending then
    hs.tagEnd = hs.parsed ∧ (hs.reader clock).parser = ⟨.none, 0, hs.parser.name⟩ ∧
      (hs.reader clock).insert = hs.tag.inserted ∧ hs.parser.index ≤ hs.tag.tagInsertLen ∧
      (0 < hs.parser.index → hs.parsed ≤ hs.file ∧ 0 < hs.parseLeft)
  else (∀ c, hs.parser.read c = (hs.reader clock).parser.read c) ∧
    (hs.parseLeft = 0 → (hs.reader clock).insert = [])

/-- The state of a file with tags of which `out` is sent. -/
structure Http.Parsing (hs : Http) (out : List UInt8) : Prop where
  size : hs.file + hs.left = hs.data.length
  parse : hs.parsed + hs.parseLeft = hs.data.length
  begun : start ≤ hs.file
  ahead : hs.file ≤ max start hs.parsed
  calls : hs.calls = (hs.reader clock).calls
  holds : Holds hs.tag.tagInsert (hs.reader clock).buffer
  insertLen : hs.tag.tagInsertLen ≤ maxTagInsertLen
  place : hs.Place clock
  shown : out ++ hs.unsent = hs.shown clock start ++ hs.inserted clock

end Reader

variable {clock : Nat → Readings} {start : Nat} {hs : Http} {out : List UInt8}

/-- **A pass over a byte** leaves it at the end of a lead-in only, takes it, or finds a tag. -/
theorem Parser.pass_cases {p : Parser} (h : p.state ≠ .sending) (c : UInt8) :
    (∃ q, p.pass c = (.leave, q) ∧ q.state = .found ∧ p.state = .leadin ∧
      ∀ d, q.read d = p.read d) ∨
    (∃ q, p.pass c = (.take, q) ∧ q.state ≠ .sending ∧ p.read c = (.take, q)) ∨
    ∃ name, p.pass c = (.tag, ⟨.sending, 0, name⟩) ∧ p.read c = (.tag, ⟨.sending, 0, name⟩) := by
  have htake : ∀ {q : Parser}, p.pass c = (.take, q) → q.state ≠ .sending →
      ∃ q, p.pass c = (.take, q) ∧ q.state ≠ .sending ∧ p.read c = (.take, q) := by
    intro q hpass hq
    exact ⟨q, hpass, hq, by rw [read, hpass]⟩
  obtain ⟨state, k, name⟩ := p
  cases state with
  | sending => exact absurd rfl h
  | none =>
    refine Or.inr (Or.inl (htake rfl ?_))
    split <;> simp
  | leadin =>
    by_cases hk : k = tagLeadIn.length
    · subst hk
      refine Or.inl ⟨_, rfl, rfl, rfl, fun d => ?_⟩
      exact (read_found (Or.inr rfl)).trans (read_found (Or.inl rfl)).symm
    · refine Or.inr (Or.inl ?_)
      by_cases hc : tagLeadIn[k]? = some c
      · exact htake (q := ⟨.leadin, k + 1, name⟩) (by simp [pass, hk, hc]) (by simp)
      · exact htake (q := ⟨.none, k, name⟩) (by simp [pass, hk, hc]) (by simp)
  | found =>
    have hpass : ∃ q, (Parser.mk .found k name).pass c = (.take, q) ∧ q.state ≠ .sending := by
      unfold pass
      dsimp only
      split
      · exact ⟨_, rfl, by simp⟩
      split
      · split <;> exact ⟨_, rfl, by simp⟩
      split <;> exact ⟨_, rfl, by simp⟩
    obtain ⟨q, hq, hstate⟩ := hpass
    exact Or.inr (Or.inl (htake hq hstate))
  | leadout =>
    by_cases hblank : k = 0 ∧ isBlank c = true
    · exact Or.inr (Or.inl (htake (if_pos hblank) (by simp)))
    by_cases hc : tagLeadOut[k]? = some c
    · by_cases hk : k = tagLeadOut.length - 1
      · have hpass : (Parser.mk .leadout k name).pass c = (.tag, ⟨.sending, 0, name⟩) := by
          simp only [pass, if_neg hblank, if_pos hc, if_pos hk]
        exact Or.inr (Or.inr ⟨name, hpass, by rw [read, hpass]⟩)
      · refine Or.inr (Or.inl (htake (q := ⟨.leadout, k + 1, name⟩) ?_ (by simp)))
        simp only [pass, if_neg hblank, if_pos hc, if_neg hk]
    · refine Or.inr (Or.inl (htake (q := ⟨.none, k, name⟩) ?_ (by simp)))
      simp only [pass, if_neg hblank, if_neg hc]

/-! ## One byte more is parsed -/

section Take
variable {c : UInt8} (hc : hs.data[hs.parsed]? = some c)
include hc

theorem Http.take_parsed : hs.data.take (hs.parsed + 1) = hs.data.take hs.parsed ++ [c] := by
  rw [List.take_add_one, hc]
  rfl

theorem Http.parsed_lt : hs.parsed < hs.data.length :=
  (List.getElem?_eq_some_iff.mp hc).1

theorem Http.reader_take (p : Parser) :
    (hs.take p).reader clock = ((hs.reader clock).next clock c).2 := by
  show (run _ _ (hs.data.take (hs.parsed + 1))).2 = _
  rw [Http.take_parsed hc, run_append]
  rfl

theorem Http.shown_take (p : Parser) : (hs.take p).shown clock start =
    hs.shown clock start ++ (hs.reader clock).insert ++ if start ≤ hs.parsed then [c] else [] := by
  have hlen : (hs.data.take hs.parsed).length = hs.parsed := by
    rw [List.length_take, Nat.min_eq_left (Nat.le_of_lt (Http.parsed_lt hc))]
  show visible start (run _ _ (hs.data.take (hs.parsed + 1))).1 = _
  rw [Http.take_parsed hc, run_append, visible_append, fileBytes_run, hlen, run_cons,
    Reader.next_parts, List.append_assoc]
  refine congrArg (hs.shown clock start ++ ·) ?_
  show (hs.reader clock).insert ++ visible (start - hs.parsed) [.byte c] = _
  refine congrArg ((hs.reader clock).insert ++ ·) ?_
  by_cases hle : start ≤ hs.parsed
  · rw [Nat.sub_eq_zero_of_le hle, if_pos hle]
    rfl
  · obtain ⟨n, hn⟩ : ∃ n, start - hs.parsed = n + 1 := ⟨start - hs.parsed - 1, by omega⟩
    rw [hn, if_neg hle]
    rfl

theorem Http.unsent_take (p : Parser) :
    (hs.take p).unsent = hs.unsent ++ if hs.file ≤ hs.parsed then [c] else [] := by
  have hlen : (hs.data.take hs.parsed).length = hs.parsed := by
    rw [List.length_take, Nat.min_eq_left (Nat.le_of_lt (Http.parsed_lt hc))]
  show (hs.data.take (hs.parsed + 1)).drop hs.file = _
  rw [Http.take_parsed hc, List.drop_append, hlen]
  refine congrArg (hs.unsent ++ ·) ?_
  by_cases hle : hs.file ≤ hs.parsed
  · rw [Nat.sub_eq_zero_of_le hle, if_pos hle]
    rfl
  · rw [if_neg hle]
    exact List.drop_of_length_le (by rw [List.length_singleton]; omega)

end Take

/-! ## What is kept -/

theorem strlen_lt {s : List UInt8} {n : Nat} (h : strlen s = some n) : n < s.length := by
  induction s generalizing n with
  | nil => cases h
  | cons c s ih =>
    rw [strlen] at h
    split at h
    · cases h
      exact Nat.succ_pos s.length
    · obtain ⟨m, hm, rfl⟩ := Option.map_eq_some_iff.mp h
      exact Nat.succ_lt_succ (ih hm)

theorem getTagInsert_len {r : Readings} {name : List UInt8} {tag tag' : HttpState}
    (h : getTagInsert r name tag = some tag') : tag'.tagInsertLen < tag'.tagInsert.length := by
  have hlen : ∀ {s : List UInt8} {n : Nat}, strlen s = some n → n % 2 ^ 16 < s.length :=
    fun hs => (Nat.mod_le _ _).trans_lt (strlen_lt hs)
  unfold getTagInsert at h
  split at h
  · obtain ⟨_, hssi, rfl⟩ := Option.map_eq_some_iff.mp h
    obtain ⟨n, hn, rfl⟩ := Option.map_eq_some_iff.mp hssi
    exact hlen hn
  · obtain ⟨n, hn, rfl⟩ := Option.map_eq_some_iff.mp h
    exact hlen hn

/-- Bytes of the file are sent, up to what is parsed. -/
theorem Http.Parsing.sent_file (h : hs.Parsing clock start out) {len : Nat}
    (hle : hs.file + len ≤ hs.parsed) :
    ({ hs with file := hs.file + len, left := hs.left - len } : Http).Parsing clock start
      (out ++ (hs.data.drop hs.file).take len) where
  size := by
    have hsize := h.size
    have hparse := h.parse
    show hs.file + len + (hs.left - len) = hs.data.length
    omega
  parse := h.parse
  begun := Nat.le_add_right_of_le h.begun
  ahead := hle.trans (Nat.le_max_right start hs.parsed)
  calls := h.calls
  holds := h.holds
  insertLen := h.insertLen
  place := by
    have hplace := h.place
    unfold Http.Place at hplace ⊢
    dsimp only
    split
    · rename_i hstate
      rw [if_pos hstate] at hplace
      obtain ⟨hend, hparser, hinsert, hindex, hbehind⟩ := hplace
      exact ⟨hend, hparser, hinsert, hindex, fun hpos =>
        ⟨(hbehind hpos).1.trans (Nat.le_add_right ..), (hbehind hpos).2⟩⟩
    · rename_i hstate
      rwa [if_neg hstate] at hplace
  shown := by
    have hcut : (hs.data.drop hs.file).take len ++ (hs.data.take hs.parsed).drop (hs.file + len) =
        hs.unsent := by
      obtain ⟨n, hn⟩ : ∃ n, hs.parsed - hs.file = len + n := ⟨hs.parsed - hs.file - len, by omega⟩
      have hrest : hs.parsed - (hs.file + len) = n := by omega
      rw [Http.unsent, List.drop_take, List.drop_take, hn, hrest, ← List.drop_drop, List.take_add]
    refine Eq.trans ?_ h.shown
    rw [← hcut, ← List.append_assoc]
    rfl

/-- Bytes of the insert are sent, with something of the file behind it. -/
theorem Http.Parsing.sent_insert (h : hs.Parsing clock start out)
    (hstate : hs.parser.state = .sending) (hfile : hs.parsed ≤ hs.file) (hleft : 0 < hs.parseLeft)
    {len : Nat} (hle : hs.parser.index + len ≤ hs.tag.tagInsertLen) :
    ({ hs with parser := { hs.parser with index := hs.parser.index + len } } : Http).Parsing clock
      start (out ++ (hs.tag.tagInsert.drop hs.parser.index).take len) where
  size := h.size
  parse := h.parse
  begun := h.begun
  ahead := h.ahead
  calls := h.calls
  holds := h.holds
  insertLen := h.insertLen
  place := by
    have hplace := h.place
    unfold Http.Place at hplace ⊢
    rw [if_pos hstate] at hplace ⊢
    obtain ⟨hend, hparser, hinsert, -, -⟩ := hplace
    exact ⟨hend, hparser, hinsert, hle, fun _ => ⟨hfile, hleft⟩⟩
  shown := by
    have hplace := h.place
    have hshown := h.shown
    rw [Http.Place, if_pos hstate] at hplace
    obtain ⟨-, -, hinsert, -, -⟩ := hplace
    have hunsent : hs.unsent = [] :=
      List.drop_of_length_le ((List.length_take_le _ _).trans hfile)
    have htake : hs.tag.inserted.take (hs.parser.index + len) =
        hs.tag.inserted.take hs.parser.index ++
          (hs.tag.tagInsert.drop hs.parser.index).take len := by
      rw [List.take_add, HttpState.inserted, List.drop_take, List.take_take, List.take_take,
        Nat.min_eq_left (by omega), Nat.min_eq_left (by omega)]
    rw [Http.inserted, if_pos hstate, hunsent, List.append_nil, hinsert] at hshown
    show out ++ _ ++ hs.unsent = hs.shown clock start ++ _
    rw [Http.inserted, if_pos hstate, hunsent, List.append_nil, hshown, List.append_assoc]
    refine congrArg (hs.shown clock start ++ ·) ?_
    show _ = (hs.reader clock).insert.take (hs.parser.index + len)
    rw [hinsert, htake]

/-- The insert is sent as a whole. -/
theorem Http.Parsing.insert_done (h : hs.Parsing clock start out)
    (hstate : hs.parser.state = .sending) (hleft : 0 < hs.parseLeft)
    (hall : hs.tag.tagInsertLen ≤ hs.parser.index) :
    ({ hs with parser := { hs.parser with index := 0, state := .none } } : Http).Parsing clock
      start out where
  size := h.size
  parse := h.parse
  begun := h.begun
  ahead := h.ahead
  calls := h.calls
  holds := h.holds
  insertLen := h.insertLen
  place := by
    have hplace := h.place
    rw [Http.Place, if_pos hstate] at hplace
    obtain ⟨-, hparser, -, -, -⟩ := hplace
    rw [Http.Place, if_neg (by simp)]
    refine ⟨fun c => ?_, fun hzero => absurd hzero (Nat.ne_of_gt hleft)⟩
    exact congrArg (Parser.read · c) hparser.symm
  shown := by
    have hplace := h.place
    have hshown := h.shown
    rw [Http.Place, if_pos hstate] at hplace
    obtain ⟨-, -, hinsert, -, -⟩ := hplace
    have hwhole : (hs.reader clock).insert.take hs.parser.index = (hs.reader clock).insert := by
      refine List.take_of_length_le ?_
      rw [hinsert, HttpState.inserted]
      exact (List.length_take_le _ _).trans hall
    rw [Http.inserted, if_pos hstate, hwhole] at hshown
    rw [Http.inserted, if_neg (by simp)]
    exact hshown

/-- A byte is left to the next pass. -/
theorem Http.Parsing.leave (h : hs.Parsing clock start out) (hstate : hs.parser.state ≠ .sending)
    {q : Parser} (hq : q.state ≠ .sending) (hread : ∀ c, q.read c = hs.parser.read c) :
    ({ hs with parser := q } : Http).Parsing clock start out where
  size := h.size
  parse := h.parse
  begun := h.begun
  ahead := h.ahead
  calls := h.calls
  holds := h.holds
  insertLen := h.insertLen
  place := by
    have hplace := h.place
    rw [Http.Place, if_neg hstate] at hplace
    rw [Http.Place, if_neg hq]
    exact ⟨fun c => (hread c).trans (hplace.1 c), hplace.2⟩
  shown := by
    have hshown := h.shown
    rw [Http.inserted, if_neg hstate] at hshown
    rw [Http.inserted, if_neg hq]
    exact hshown

section Take
variable {c : UInt8} {q : Parser} (h : hs.Parsing clock start out)
  (hstate : hs.parser.state ≠ .sending) (hc : hs.data[hs.parsed]? = some c)
include h hstate hc

/-- The page grows by the byte, with the insert that waits in front of it. -/
theorem Http.Parsing.shown_take :
    out ++ (hs.take q).unsent = (hs.take q).shown clock start := by
  have hsame : hs.file ≤ hs.parsed ↔ start ≤ hs.parsed := by
    have hbegun := h.begun
    have hahead := h.ahead
    omega
  have hshown := h.shown
  rw [Http.inserted, if_neg hstate] at hshown
  rw [Http.unsent_take hc, Http.shown_take hc, ← List.append_assoc, hshown]
  simp only [hsame]

theorem Http.Parsing.take (hread : hs.parser.read c = (.take, q)) (hq : q.state ≠ .sending) :
    (hs.take q).Parsing clock start out := by
  have hplace := h.place
  rw [Http.Place, if_neg hstate] at hplace
  have hlt := Http.parsed_lt hc
  have hparse := h.parse
  have hnext : (hs.take q).reader clock = { hs.reader clock with parser := q, insert := [] } := by
    rw [Http.reader_take hc, Reader.next, ← hplace.1 c, hread]
  refine ⟨h.size, ?_, h.begun, ?_, ?_, ?_, h.insertLen, ?_, ?_⟩
  · show hs.parsed + 1 + (hs.parseLeft - 1) = hs.data.length
    omega
  · have hahead := h.ahead
    show hs.file ≤ max start (hs.parsed + 1)
    omega
  · rw [hnext]
    exact h.calls
  · rw [hnext]
    exact h.holds
  · have hq' : (hs.take q).parser.state ≠ .sending := hq
    rw [Http.Place, if_neg hq', hnext]
    exact ⟨fun _ => rfl, fun _ => rfl⟩
  · have hq' : (hs.take q).parser.state ≠ .sending := hq
    rw [h.shown_take hstate hc, Http.inserted, if_neg hq', hnext, List.append_nil]

/-- **A tag is found**: its insert waits for what is in front of it. -/
theorem Http.Parsing.tag {name : List UInt8}
    (hread : hs.parser.read c = (.tag, ⟨.sending, 0, name⟩)) :
    ∃ tag, getTagInsert (clock hs.calls) (Parser.mk .sending 0 name).tagName hs.tag = some tag ∧
      tag.tagInsertLen ≤ maxTagInsertLen ∧
      ((hs.take ⟨.sending, 0, name⟩).setTag tag).Parsing clock start out := by
  have hplace := h.place
  rw [Http.Place, if_neg hstate] at hplace
  have hlt := Http.parsed_lt hc
  have hparse := h.parse
  generalize ht : (Parser.mk .sending 0 name).found (clock hs.calls) = t
  have hnext : (hs.take ⟨.sending, 0, name⟩).reader clock =
      ⟨⟨.none, 0, name⟩, t.next (hs.reader clock).buffer, hs.calls + 1,
        t.next (hs.reader clock).buffer⟩ := by
    rw [Http.reader_take hc, Reader.next, ← hplace.1 c, hread, ← ht, h.calls]
  obtain ⟨tag, hget, hholds, hinserted⟩ := h.holds.step t
  have hlen : tag.tagInsertLen ≤ maxTagInsertLen := by
    have hsize := hholds.size
    have hlt := getTagInsert_len hget
    omega
  have hsending : ((hs.take ⟨.sending, 0, name⟩).setTag tag).parser.state = .sending := rfl
  subst ht
  refine ⟨tag, hget, hlen, h.size, ?_, h.begun, ?_, ?_, ?_, hlen, ?_, ?_⟩
  · show hs.parsed + 1 + (hs.parseLeft - 1) = hs.data.length
    omega
  · have hahead := h.ahead
    show hs.file ≤ max start (hs.parsed + 1)
    omega
  · exact (congrArg Reader.calls hnext).symm
  · show Holds tag.tagInsert ((hs.take ⟨.sending, 0, name⟩).reader clock).buffer
    rw [hnext]
    exact hholds
  · rw [Http.Place, if_pos hsending]
    refine ⟨rfl, congrArg Reader.parser hnext, ?_, Nat.zero_le _, fun hpos =>
      absurd hpos (Nat.lt_irrefl 0)⟩
    exact (congrArg Reader.insert hnext).trans hinserted.symm
  · rw [Http.inserted, if_pos hsending]
    exact (h.shown_take (q := ⟨.sending, 0, name⟩) hstate hc).trans (List.append_nil _).symm

end Take

end Generalplate.Httpd
