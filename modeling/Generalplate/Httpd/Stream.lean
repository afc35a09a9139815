import Generalplate.Httpd.Parsing

/-! # What is sent of a file

Whatever room the stack has and however often it refuses to take what it is given, what a
connection has sent of a file is the beginning of its page, and it is the whole page when
the connection is closed at the end of the file. -/
namespace Generalplate.Httpd
open Lib.Transducer Lwip

variable {clock : Nat → Readings} {start : Nat} {hs : Http} {out : List UInt8}

/-! ## One pass -/

/-- What every part of `http_send_data` keeps. -/
structure Sending.Keeps (clock : Nat → Readings) (start : Nat) (s s' : Sending) : Prop where
  data : s'.hs.data = s.hs.data
  tagCheck : s'.hs.tagCheck = s.hs.tagCheck
  parsing : s'.hs.Parsing clock start s'.pcb.out
  written : s.pcb.out <+: s'.pcb.out

theorem Sending.Keeps.same {s : Sending} {hs : Http} (hdata : hs.data = s.hs.data)
    (hcheck : hs.tagCheck = s.hs.tagCheck) (h : hs.Parsing clock start s.pcb.out) :
    s.Keeps clock start { s with hs := hs } :=
  ⟨hdata, hcheck, h, List.prefix_rfl⟩

theorem Sending.Keeps.trans {s s' s'' : Sending} (h : s.Keeps clock start s')
    (h' : s'.Keeps clock start s'') : s.Keeps clock start s'' :=
  ⟨h'.data.trans h.data, h'.tagCheck.trans h.tagCheck, h'.parsing, h.written.trans h'.written⟩

/-- A call of `http_write`: a stack that is ready takes something. -/
def Sending.Grows (s s' : Sending) : Prop :=
  s.pcb.Ready → s.pcb.out.length < s'.pcb.out.length

/-- With `n` bytes sent there is nothing to be sent before more is parsed, and the stack is
ready. -/
structure Sending.Waiting (n : Nat) (s : Sending) : Prop where
  sent : s.pcb.out.length = n
  ready : s.pcb.Ready
  ok : s.err = .ok
  room : 0 < s.len
  front : s.hs.parser.state = .sending → s.hs.parsed ≤ s.hs.file

/-- More than `n` bytes are sent, or will be. -/
def Sending.Moving (n : Nat) (s : Sending) : Prop := n < s.pcb.out.length ∨ s.Waiting n

theorem Sending.Moving.grows {n : Nat} {s s' : Sending} (h : s.Moving n) (hgrows : s.Grows s')
    (hkeeps : s.Keeps clock start s') : s'.Moving n := by
  rcases h with hlt | hwaiting
  · exact Or.inl (hlt.trans_le hkeeps.written.length_le)
  · rw [← hwaiting.sent]
    exact Or.inl (hgrows hwaiting.ready)

theorem Sending.Moving.same {n : Nat} {s : Sending} {hs : Http} (h : s.Moving n)
    (hfront : hs.parser.state = .sending → hs.parsed ≤ hs.file) :
    ({ s with hs := hs } : Sending).Moving n :=
  h.imp_right fun hwaiting => { hwaiting with front := hfront }

/-- What `http_write` comes to, in one statement. -/
theorem httpWrite_grows {ptr : List UInt8} (pcb : Pcb) {len : Nat} (h : len ≤ ptr.length)
    (hpos : pcb.Ready → 0 < len) :
    ∃ err len' pcb', httpWrite pcb ptr len = some (err, len', pcb') ∧ pcb.out <+: pcb'.out ∧
      (pcb.Ready → pcb.out.length < pcb'.out.length) ∧
      if err = .ok then len' ≤ len ∧ (0 < len → 0 < len') ∧ pcb'.out = pcb.out ++ ptr.take len'
      else pcb'.out = pcb.out := by
  obtain ⟨err, len', pcb', hwrite, hspec⟩ := httpWrite_spec pcb h
  refine ⟨err, len', pcb', hwrite, ?_, fun hready => ?_, hspec⟩
  · split at hspec
    · rw [hspec.2.2]
      exact List.prefix_append ..
    · simp only [hspec, List.prefix_rfl]
  · obtain ⟨pcb'', hready', hout⟩ := hready.httpWrite h
    rw [hwrite] at hready'
    cases hready'
    rw [hout, List.length_append, List.length_take, Nat.min_eq_left h]
    exact Nat.lt_add_of_pos_right (hpos hready)

/-- Bytes of the file are given to the stack. -/
theorem Sending.sendFile_spec {s : Sending} (h : s.hs.Parsing clock start s.pcb.out) {len : Nat}
    (hle : s.hs.file + len ≤ s.hs.parsed) (hpos : s.pcb.Ready → 0 < len) :
    ∃ s', s.sendFile len = some s' ∧ s.Keeps clock start s' ∧ s.Grows s' ∧
      (s'.err = .ok → ∃ n, n ≤ len ∧ (0 < len → 0 < n) ∧ s'.len = n ∧
        s'.hs = { s.hs with file := s.hs.file + n, left := s.hs.left - n }) := by
  have hsize := h.size
  have hparse := h.parse
  have hptr : len ≤ (s.hs.data.drop s.hs.file).length := by
    rw [List.length_drop]
    omega
  obtain ⟨err, n, pcb, hwrite, hwritten, hgrows, hspec⟩ := httpWrite_grows s.pcb hptr hpos
  unfold sendFile
  rw [hwrite]
  dsimp only [Option.bind_eq_bind, Option.bind_some]
  by_cases hok : err = .ok
  · rw [if_pos hok] at hspec ⊢
    obtain ⟨hn, hnpos, hout⟩ := hspec
    refine ⟨_, rfl, ⟨rfl, rfl, ?_, hwritten⟩, hgrows, fun _ => ⟨n, hn, hnpos, rfl, rfl⟩⟩
    dsimp only
    rw [hout]
    exact h.sent_file (by omega)
  · rw [if_neg hok] at hspec ⊢
    refine ⟨_, rfl, ⟨rfl, rfl, ?_, hwritten⟩, hgrows, fun hok' => absurd hok' hok⟩
    dsimp only
    rw [hspec]
    exact h

/-- Bytes of the insert are. -/
theorem Sending.sendInsert_spec {s : Sending} (h : s.hs.Parsing clock start s.pcb.out)
    (hstate : s.hs.parser.state = .sending) (hfile : s.hs.parsed ≤ s.hs.file)
    (hleft : 0 < s.hs.parseLeft) {len : Nat}
    (hle : s.hs.parser.index + len ≤ s.hs.tag.tagInsertLen) (hpos : 0 < len) :
    ∃ s', s.sendInsert len = some s' ∧ s.Keeps clock start s' ∧ s.Grows s' ∧
      (s'.err = .ok → ∃ n, n ≤ len ∧ 0 < n ∧ s'.len = n ∧
        s'.hs = { s.hs with parser := { s.hs.parser with index := s.hs.parser.index + n } }) := by
  have hptr : len ≤ (s.hs.tag.tagInsert.drop s.hs.parser.index).length := by
    have hbuf := h.holds.size
    have hmax := h.insertLen
    rw [List.length_drop]
    omega
  obtain ⟨err, n, pcb, hwrite, hwritten, hgrows, hspec⟩ :=
    httpWrite_grows s.pcb hptr fun _ => hpos
  unfold sendInsert
  dsimp only
  rw [hwrite]
  dsimp only [Option.bind_eq_bind, Option.bind_some]
  by_cases hok : err = .ok
  · rw [if_pos hok] at hspec ⊢
    obtain ⟨hn, hnpos, hout⟩ := hspec
    refine ⟨_, rfl, ⟨rfl, rfl, ?_, hwritten⟩, hgrows, fun _ => ⟨n, hn, hnpos hpos, rfl, rfl⟩⟩
    dsimp only
    rw [hout]
    exact h.sent_insert hstate hfile hleft (by omega)
  · rw [if_neg hok] at hspec ⊢
    refine ⟨_, rfl, ⟨rfl, rfl, ?_, hwritten⟩, hgrows, fun hok' => absurd hok' hok⟩
    dsimp only
    rw [hspec]
    exact h

/-- The passes that may follow on a byte. -/
def Http.rank (hs : Http) : Nat :=
  match hs.parser.state with
  | .sending => hs.tag.tagInsertLen - hs.parser.index + 1
  | .leadin => 1
  | _ => 0

/-- The passes there may be. -/
def Http.weight (hs : Http) : Nat := hs.left + hs.parseLeft * 200 + hs.rank

theorem Http.rank_sending {hs : Http} (h : hs.parser.state = .sending) :
    hs.rank = hs.tag.tagInsertLen - hs.parser.index + 1 := by
  rw [Http.rank, h]

theorem Http.rank_le {hs : Http} (h : hs.parser.state ≠ .sending) : hs.rank ≤ 1 := by
  unfold Http.rank
  split
  · contradiction
  · exact Nat.le_refl 1
  · exact Nat.zero_le 1

/-- Behind a pass, with fewer to come when the loop goes on. -/
structure Sending.Passed (clock : Nat → Readings) (start : Nat) (s s' : Sending) : Prop where
  keeps : s.Keeps clock start s'
  moving : ∀ n, s.Moving n → s'.Moving n
  lighter : s.err = .ok → s'.err = .ok → s'.hs.weight < s.hs.weight

section Pass
variable {s : Sending} (h : s.hs.Parsing clock start s.pcb.out) (hleft : 0 < s.hs.parseLeft)
  (hlen : 0 < s.len)
include h hleft hlen

theorem Sending.passInsert_spec (hstate : s.hs.parser.state = .sending) :
    ∃ s', s.passInsert = some s' ∧ s.Passed clock start s' := by
  have hplace := h.place
  rw [Http.Place, if_pos hstate] at hplace
  obtain ⟨hend, -, -, -, -⟩ := hplace
  have hsize := h.size
  have hparse := h.parse
  unfold passInsert
  dsimp only
  by_cases hfile : s.hs.file < s.hs.tagEnd
  · rw [if_pos hfile]
    generalize hn :
      (if s.hs.tagEnd - s.hs.file < s.len then s.hs.tagEnd - s.hs.file else s.len) = len
    have hpos : 0 < len := by
      split at hn <;> omega
    have hle : s.hs.file + len ≤ s.hs.parsed := by
      split at hn <;> omega
    rw [if_pos (Nat.ne_of_gt hpos)]
    obtain ⟨s', hsend, hkeeps, hgrows, hok⟩ := Sending.sendFile_spec h hle fun _ => hpos
    refine ⟨s', hsend, hkeeps, fun _ hmoving => hmoving.grows hgrows hkeeps, fun _ herr' => ?_⟩
    obtain ⟨n, hnle, hnpos, -, hhs⟩ := hok herr'
    have hn := hnpos hpos
    rw [hhs]
    show s.hs.left - n + s.hs.parseLeft * 200 + s.hs.rank <
      s.hs.left + s.hs.parseLeft * 200 + s.hs.rank
    omega
  · rw [if_neg hfile]
    by_cases hindex : s.hs.parser.index < s.hs.tag.tagInsertLen
    · rw [if_pos hindex]
      generalize hn : (if s.hs.tag.tagInsertLen - s.hs.parser.index < s.len then
        s.hs.tag.tagInsertLen - s.hs.parser.index else s.len) = len
      have hpos : 0 < len := by
        split at hn <;> omega
      have hle : s.hs.parser.index + len ≤ s.hs.tag.tagInsertLen := by
        split at hn <;> omega
      obtain ⟨s', hsend, hkeeps, hgrows, hok⟩ :=
        Sending.sendInsert_spec h hstate (by omega) hleft hle hpos
      refine ⟨s', hsend, hkeeps, fun _ hmoving => hmoving.grows hgrows hkeeps, fun _ herr' => ?_⟩
      obtain ⟨n, hnle, hnpos, -, hhs⟩ := hok herr'
      have hrank : s'.hs.rank = s.hs.tag.tagInsertLen - (s.hs.parser.index + n) + 1 := by
        rw [hhs]
        exact Http.rank_sending hstate
      rw [Http.weight, hrank, Http.weight, Http.rank_sending hstate, hhs]
      dsimp only
      omega
    · rw [if_neg hindex]
      refine ⟨_, rfl, .same rfl rfl (h.insert_done hstate hleft (Nat.not_lt.mp hindex)),
        fun _ hmoving => hmoving.same fun hsending => TagState.noConfusion hsending,
        fun _ _ => ?_⟩
      rw [Http.weight, Http.weight, Http.rank_sending hstate]
      show s.hs.left + s.hs.parseLeft * 200 + 0 < _
      omega

theorem Sending.passTag_spec (hstate : s.hs.parser.state ≠ .sending) {c : UInt8}
    (hc : s.hs.data[s.hs.parsed]? = some c) {name : List UInt8}
    (hread : s.hs.parser.read c = (.tag, ⟨.sending, 0, name⟩)) :
    ∃ s', s.passTag clock ⟨.sending, 0, name⟩ = some s' ∧ s.Passed clock start s' := by
  obtain ⟨tag, hget, htag, hparsing⟩ := h.tag hstate hc hread
  have hsize := h.size
  have hparse := h.parse
  unfold passTag
  rw [hget]
  dsimp only [Option.bind_eq_bind, Option.bind_some]
  generalize hhs : (s.hs.take ⟨.sending, 0, name⟩).setTag tag = hs at hparsing ⊢
  have hend : hs.tagEnd = hs.parsed := by rw [← hhs]; rfl
  have hweight : hs.weight < s.hs.weight := by
    have hrank : hs.rank ≤ maxTagInsertLen + 1 := by
      rw [← hhs]
      exact Nat.succ_le_succ htag
    have hmax : maxTagInsertLen = 192 := rfl
    have hl : hs.left = s.hs.left := by rw [← hhs]; rfl
    have hp : hs.parseLeft = s.hs.parseLeft - 1 := by rw [← hhs]; rfl
    rw [Http.weight, Http.weight, hl, hp]
    omega
  have hkeeps : s.Keeps clock start { s with hs := hs } := by
    refine .same ?_ ?_ hparsing
    · rw [← hhs]
      rfl
    · rw [← hhs]
      rfl
  by_cases hfile : hs.file < hs.tagEnd
  · rw [if_pos hfile]
    generalize hn : (if hs.tagEnd - hs.file < s.len then hs.tagEnd - hs.file else s.len) = len
    have hpos : 0 < len := by
      split at hn <;> omega
    have hle : hs.file + len ≤ hs.parsed := by
      split at hn <;> omega
    obtain ⟨s', hsend, hkeeps', hgrows, hok⟩ :=
      Sending.sendFile_spec (s := { s with hs := hs }) hparsing hle fun _ => hpos
    have hboth := hkeeps.trans hkeeps'
    refine ⟨s', hsend, hboth, fun _ hmoving => hmoving.grows hgrows hboth, fun _ herr' => ?_⟩
    obtain ⟨n, hnle, hnpos, -, hhs'⟩ := hok herr'
    refine Nat.lt_of_le_of_lt ?_ hweight
    rw [hhs']
    show hs.left - n + hs.parseLeft * 200 + hs.rank ≤ hs.left + hs.parseLeft * 200 + hs.rank
    omega
  · rw [if_neg hfile]
    exact ⟨_, rfl, hkeeps, fun _ hmoving => hmoving.same fun _ => by omega, fun _ _ => hweight⟩

/-- **One pass** of the loop. -/
theorem Sending.pass_spec : ∃ s', s.pass clock = some s' ∧ s.Passed clock start s' := by
  unfold pass
  by_cases hstate : s.hs.parser.state = .sending
  · rw [if_pos hstate]
    exact Sending.passInsert_spec h hleft hlen hstate
  rw [if_neg hstate]
  have hparse := h.parse
  have hlt : s.hs.parsed < s.hs.data.length := by omega
  have hc : s.hs.data[s.hs.parsed]? = some s.hs.data[s.hs.parsed] := List.getElem?_eq_getElem hlt
  generalize s.hs.data[s.hs.parsed] = c at hc
  rw [hc]
  dsimp only
  rcases Parser.pass_cases hstate c with
    ⟨q, hpass, hq, hp, hread⟩ | ⟨q, hpass, hq, hread⟩ | ⟨name, hpass, hread⟩
  · have hq' : q.state ≠ .sending := by simp [hq]
    rw [hpass]
    refine ⟨_, rfl, .same rfl rfl (h.leave hstate hq' hread),
      fun _ hmoving => hmoving.same fun hsending => absurd hsending hq', fun _ _ => ?_⟩
    rw [Http.weight, Http.weight, Http.rank, Http.rank, hp, hq]
    exact Nat.lt_succ_self _
  · rw [hpass]
    refine ⟨_, rfl, .same rfl rfl (h.take hstate hc hread hq),
      fun _ hmoving => hmoving.same fun hsending => absurd hsending hq, fun _ _ => ?_⟩
    have hrank : (s.hs.take q).rank ≤ 1 := Http.rank_le hq
    show s.hs.left + (s.hs.parseLeft - 1) * 200 + (s.hs.take q).rank < _
    rw [Http.weight]
    omega
  · rw [hpass]
    exact Sending.passTag_spec h hleft hlen hstate hc hread

end Pass

/-! ## The function -/

theorem Http.Parsing.weight_lt (h : hs.Parsing clock start out) :
    hs.weight < loopFuel hs.data.length := by
  have hsize := h.size
  have hparse := h.parse
  have hrank : hs.rank ≤ maxTagInsertLen + 1 := by
    by_cases hstate : hs.parser.state = .sending
    · rw [Http.rank_sending hstate]
      have hlen := h.insertLen
      omega
    · exact (Http.rank_le hstate).trans (by decide)
  have hmax : maxTagInsertLen = 192 := rfl
  rw [Http.weight, loopFuel]
  omega

/-- **The loop** stops, and only when the file is parsed when nothing holds it up. -/
theorem Sending.loop_spec {fuel : Nat} {s : Sending} (h : s.hs.Parsing clock start s.pcb.out)
    (hfuel : 0 < fuel) (hweight : s.err = .ok → s.hs.weight < fuel) :
    ∃ returned s', s.loop clock fuel = some (returned, s') ∧ s.Keeps clock start s' ∧
      ∀ n, s.Moving n → s'.Moving n ∧
        (s'.Waiting n → returned = false ∧ s'.hs.parseLeft = 0) := by
  induction fuel generalizing s with
  | zero => exact absurd hfuel (Nat.lt_irrefl 0)
  | succ fuel ih =>
    rw [loop]
    by_cases hend : s.hs.parseLeft = 0 ∨ s.err ≠ .ok
    · rw [if_pos hend]
      exact ⟨false, s, rfl, .same rfl rfl h, fun n hmoving =>
        ⟨hmoving, fun hwaiting => ⟨rfl, hend.resolve_right (not_not_intro hwaiting.ok)⟩⟩⟩
    rw [if_neg hend]
    obtain ⟨hleft, herr⟩ := not_or.mp hend
    by_cases hlen : s.len = 0
    · rw [if_pos hlen]
      exact ⟨true, s, rfl, .same rfl rfl h, fun n hmoving =>
        ⟨hmoving, fun hwaiting => absurd hlen (Nat.ne_of_gt hwaiting.room)⟩⟩
    rw [if_neg hlen]
    obtain ⟨s1, hpass, hpassed⟩ :=
      Sending.pass_spec h (Nat.pos_of_ne_zero hleft) (Nat.pos_of_ne_zero hlen)
    have hok := not_not.mp herr
    have hless := hweight hok
    have hmore : 0 < fuel := by
      rw [Http.weight] at hless
      omega
    have hweight1 : s1.err = .ok → s1.hs.weight < fuel := fun hok1 =>
      (hpassed.lighter hok hok1).trans_le (Nat.lt_succ_iff.mp hless)
    obtain ⟨returned, s', hloop, hkeeps, hrest⟩ := ih hpassed.keeps.parsing hmore hweight1
    refine ⟨returned, s', ?_, hpassed.keeps.trans hkeeps, fun n hmoving =>
      hrest n (hpassed.moving n hmoving)⟩
    rw [hpass, Option.bind_some, hloop]

theorem Sending.sendParsed_spec {s : Sending} (h : s.hs.Parsing clock start s.pcb.out) :
    ∃ gone s', s.sendParsed = some (gone, s') ∧ s.Keeps clock start s' ∧
      (s.pcb.Ready → s.pcb.out.length < s'.pcb.out.length ∨
        s' = s ∧ gone = false ∧ s.hs.parsed ≤ s.hs.file) := by
  unfold sendParsed
  by_cases hfile : s.hs.file < s.hs.parsed
  · rw [if_pos hfile]
    have hroom := s.pcb.room_le (s.hs.parsed - s.hs.file)
    have hfits : s.hs.file + s.pcb.room (s.hs.parsed - s.hs.file) ≤ s.hs.parsed := by omega
    obtain ⟨s', hsend, hkeeps, hgrows, -⟩ := Sending.sendFile_spec h hfits fun hready =>
      hready.room_pos (Nat.sub_pos_of_lt hfile)
    rw [hsend, Option.map_some]
    exact ⟨_, s', rfl, hkeeps, fun hready => Or.inl (hgrows hready)⟩
  · rw [if_neg hfile]
    exact ⟨false, s, rfl, .same rfl rfl h, fun _ => Or.inr ⟨rfl, rfl, Nat.not_lt.mp hfile⟩⟩

/-- **A file with tags**: when the stack is ready and nothing is sent, all of it is. -/
theorem Sending.sendTagged_spec {s : Sending} (h : s.hs.Parsing clock start s.pcb.out)
    (hok : s.err = .ok) :
    ∃ returned s', s.sendTagged clock = some (returned, s') ∧ s.Keeps clock start s' ∧
      (s.pcb.Ready → s.pcb.out.length < s'.pcb.out.length ∨
        returned = false ∧ s'.hs.left = 0) := by
  generalize hs0 : { s with len := s.pcb.sndbuf.toNat } = s0
  have hkeeps0 : s.Keeps clock start s0 := by
    rw [← hs0]
    exact ⟨rfl, rfl, h, List.prefix_rfl⟩
  have hsame0 : s0.pcb = s.pcb ∧ s0.err = .ok ∧ s0.len = s.pcb.sndbuf.toNat := by
    rw [← hs0]
    exact ⟨rfl, hok, rfl⟩
  obtain ⟨hpcb0, herr0, hlen0⟩ := hsame0
  obtain ⟨gone, s1, hfront, hkeeps1, hmoves1⟩ := Sending.sendParsed_spec hkeeps0.parsing
  have hsent1 := hkeeps0.trans hkeeps1
  rw [hpcb0] at hmoves1
  unfold sendTagged
  rw [hs0, hfront]
  dsimp only [Option.bind_eq_bind, Option.bind_some]
  by_cases hgone : gone = true
  · rw [if_pos hgone]
    refine ⟨true, s1, rfl, hsent1, fun hready => (hmoves1 hready).imp_right fun hidle => ?_⟩
    rw [hgone] at hidle
    cases hidle.2.1
  rw [if_neg hgone]
  have hweight := hkeeps1.parsing.weight_lt
  obtain ⟨returned, s2, hloop, hkeeps2, hmoves2⟩ :=
    Sending.loop_spec hkeeps1.parsing ((Nat.zero_le _).trans_lt hweight) fun _ => hweight
  have hsent2 := hsent1.trans hkeeps2
  have hmoving : s.pcb.Ready → s2.Moving s.pcb.out.length ∧
      (s2.Waiting s.pcb.out.length → returned = false ∧ s2.hs.parseLeft = 0) := by
    intro hready
    refine hmoves2 _ ((hmoves1 hready).imp_right fun hidle => ?_)
    obtain ⟨rfl, -, hidle⟩ := hidle
    exact ⟨by rw [hpcb0], by rw [hpcb0]; exact hready, herr0, by rw [hlen0]; exact hready.room,
      fun _ => hidle⟩
  -- with everything parsed and nothing waiting, all of the file is sent
  have hall : ∀ {hs : Http} {out : List UInt8}, hs.Parsing clock start out → hs.parseLeft = 0 →
      hs.parsed ≤ hs.file → hs.left = 0 := by
    intro hs out hparsing hleft hfile
    have hsize := hparsing.size
    have hparse := hparsing.parse
    omega
  rw [hloop]
  dsimp only [Option.bind_some]
  by_cases hreturn : returned = true ∨ s2.hs.parser.state = .sending
  · rw [if_pos hreturn]
    refine ⟨returned, s2, rfl, hsent2, fun hready => ?_⟩
    obtain ⟨hmove, hstop⟩ := hmoving hready
    refine hmove.imp_right fun hwaiting => ?_
    obtain ⟨hfalse, hleft⟩ := hstop hwaiting
    have hsending := hreturn.resolve_left (by simp [hfalse])
    exact ⟨hfalse, hall hkeeps2.parsing hleft (hwaiting.front hsending)⟩
  · rw [if_neg hreturn]
    obtain ⟨gone', s3, hback, hkeeps3, hmoves3⟩ := Sending.sendParsed_spec hkeeps2.parsing
    rw [hback]
    refine ⟨false, s3, rfl, hsent2.trans hkeeps3, fun hready => ?_⟩
    obtain ⟨hmove, hstop⟩ := hmoving hready
    rcases hmove with hlt | hwaiting
    · exact Or.inl (hlt.trans_le hkeeps3.written.length_le)
    · obtain ⟨-, hleft⟩ := hstop hwaiting
      rw [← hwaiting.sent]
      refine (hmoves3 hwaiting.ready).imp_right fun hidle => ?_
      obtain ⟨rfl, -, hfile⟩ := hidle
      exact ⟨rfl, hall hkeeps2.parsing hleft hfile⟩

/-! ## What is sent and what is to come -/

/-- The state of a file without tags of which `out` is sent. -/
structure Http.Copying (start : Nat) (hs : Http) (out : List UInt8) : Prop where
  size : hs.file + hs.left = hs.data.length
  shown : out ++ hs.data.drop hs.file = hs.data.drop start

/-- The state of a file of which `out` is sent. -/
def Http.Serving (clock : Nat → Readings) (start : Nat) (hs : Http) (out : List UInt8) : Prop :=
  if hs.tagCheck then hs.Parsing clock start out else hs.Copying start out

/-- What is to be sent of the file. -/
def Http.target (clock : Nat → Readings) (start : Nat) (hs : Http) : List UInt8 :=
  if hs.tagCheck then page clock start hs.data else hs.data.drop start

theorem Http.serving_init {data : List UInt8} (hstart : start ≤ data.length) (tagCheck : Bool) :
    (Http.init data start tagCheck).Serving clock start [] := by
  have hsize : start + (data.length - start) = data.length := Nat.add_sub_cancel' hstart
  cases tagCheck with
  | true =>
    refine ⟨hsize, Nat.zero_add _, Nat.le_refl _, Nat.le_max_left .., rfl, Holds.alloc,
      Nat.zero_le _, ?_, ?_⟩
    · exact ⟨fun _ => rfl, fun _ => rfl⟩
    · show (data.take 0).drop start = visible start [] ++ []
      rw [List.take_zero, List.drop_nil]
      rfl
  | false => exact ⟨hsize, List.nil_append _⟩

/-- The page of what is parsed and of the rest. -/
theorem Http.page_eq (hs : Http) :
    page clock start hs.data = hs.shown clock start ++
      visible (start - (hs.data.take hs.parsed).length)
        (run (Reader.next clock) (hs.reader clock) (hs.data.drop hs.parsed)).1 := by
  conv_lhs => rw [page, ← List.take_append_drop hs.parsed hs.data]
  rw [run_append, visible_append, fileBytes_run]
  rfl

/-- At the end of the file no insert is begun. -/
theorem Http.Parsing.inserted_none (h : hs.Parsing clock start out) (hleft : hs.parseLeft = 0) :
    hs.inserted clock = [] := by
  have hplace := h.place
  unfold Http.inserted
  unfold Http.Place at hplace
  split at hplace
  · rename_i hstate
    obtain ⟨-, -, -, -, hbehind⟩ := hplace
    have hzero : hs.parser.index = 0 := by
      by_contra hpos
      exact absurd hleft (Nat.ne_of_gt (hbehind (Nat.pos_of_ne_zero hpos)).2)
    rw [if_pos hstate, hzero, List.take_zero]
  · rename_i hstate
    rw [if_neg hstate, hplace.2 hleft]

/-- **What is sent** is the beginning of the page. -/
theorem Http.Parsing.sent_prefix (h : hs.Parsing clock start out) :
    out <+: page clock start hs.data := by
  have hrest : hs.inserted clock <+: visible (start - (hs.data.take hs.parsed).length)
      (run (Reader.next clock) (hs.reader clock) (hs.data.drop hs.parsed)).1 := by
    have hparse := h.parse
    cases hdrop : hs.data.drop hs.parsed with
    | nil =>
      have hend := List.drop_eq_nil_iff.mp hdrop
      rw [h.inserted_none (by omega)]
      exact List.nil_prefix
    | cons c rest =>
      rw [run_cons, Reader.next_parts, List.cons_append, visible]
      refine List.IsPrefix.trans ?_ (List.prefix_append ..)
      unfold Http.inserted
      split
      · exact List.take_prefix ..
      · exact List.prefix_rfl
  have hparsed : out <+: hs.shown clock start ++ hs.inserted clock := by
    rw [← h.shown]
    exact List.prefix_append ..
  rw [hs.page_eq]
  exact hparsed.trans ((List.prefix_append_right_inj _).mpr hrest)

/-- **With nothing left** it is the whole page, when there is more of the file than a header. -/
theorem Http.Parsing.sent_all (h : hs.Parsing clock start out) (hleft : hs.left = 0)
    (hstart : start = 0 ∨ start < hs.data.length) : out = page clock start hs.data := by
  have hsize := h.size
  have hparse := h.parse
  have hahead := h.ahead
  have hparsed : hs.parsed = hs.data.length := by omega
  have hunsent : hs.unsent = [] :=
    List.drop_of_length_le ((List.length_take_le' _ _).trans (by omega))
  have hshown := h.shown
  rw [hunsent, h.inserted_none (by omega), List.append_nil, List.append_nil] at hshown
  rw [hshown, Http.shown, hparsed, List.take_length, page]

theorem Http.Serving.sent_prefix (h : hs.Serving clock start out) :
    out <+: hs.target clock start := by
  unfold Http.Serving at h
  unfold Http.target
  split at h
  · rename_i hcheck
    rw [if_pos hcheck]
    exact h.sent_prefix
  · rename_i hcheck
    rw [if_neg hcheck, ← h.shown]
    exact List.prefix_append ..

theorem Http.Serving.sent_all (h : hs.Serving clock start out) (hleft : hs.left = 0)
    (hstart : start = 0 ∨ start < hs.data.length) : out = hs.target clock start := by
  unfold Http.Serving at h
  unfold Http.target
  split at h
  · rename_i hcheck
    rw [if_pos hcheck]
    exact h.sent_all hleft hstart
  · rename_i hcheck
    have hsize := h.size
    rw [if_neg hcheck, ← h.shown, List.drop_of_length_le (by omega), List.append_nil]

/-- **A file without tags**: bytes of it are given to the stack. -/
theorem Sending.sendFile_copying {s : Sending} (h : s.hs.Copying start s.pcb.out) {len : Nat}
    (hle : len ≤ s.hs.left) (hpos : s.pcb.Ready → 0 < len) :
    ∃ s', s.sendFile len = some s' ∧ s'.hs.data = s.hs.data ∧ s'.hs.tagCheck = s.hs.tagCheck ∧
      s'.hs.Copying start s'.pcb.out ∧ s.pcb.out <+: s'.pcb.out ∧ s.Grows s' := by
  have hsize := h.size
  have hptr : len ≤ (s.hs.data.drop s.hs.file).length := by
    rw [List.length_drop]
    omega
  obtain ⟨err, n, pcb, hwrite, hwritten, hgrows, hspec⟩ := httpWrite_grows s.pcb hptr hpos
  unfold sendFile
  rw [hwrite]
  dsimp only [Option.bind_eq_bind, Option.bind_some]
  by_cases hok : err = .ok
  · rw [if_pos hok] at hspec ⊢
    obtain ⟨hn, -, hout⟩ := hspec
    refine ⟨_, rfl, rfl, rfl, ⟨?_, ?_⟩, hwritten, hgrows⟩
    · show s.hs.file + n + (s.hs.left - n) = s.hs.data.length
      omega
    · dsimp only
      rw [hout, List.append_assoc, ← List.drop_drop, List.take_append_drop]
      exact h.shown
  · rw [if_neg hok] at hspec ⊢
    refine ⟨_, rfl, rfl, rfl, ?_, hwritten, hgrows⟩
    dsimp only
    rw [hspec]
    exact h

theorem Sending.send_spec {s : Sending} (h : s.hs.Serving clock start s.pcb.out) (hok : s.err = .ok)
    (hleft : 0 < s.hs.left) :
    ∃ returned s', s.send clock = some (returned, s') ∧ s'.hs.data = s.hs.data ∧
      s'.hs.tagCheck = s.hs.tagCheck ∧ s'.hs.Serving clock start s'.pcb.out ∧
      s.pcb.out <+: s'.pcb.out ∧
      (s.pcb.Ready → s.pcb.out.length < s'.pcb.out.length ∨
        returned = false ∧ s'.hs.left = 0) := by
  unfold send
  by_cases hcheck : s.hs.tagCheck = true
  · rw [Http.Serving, if_pos hcheck] at h
    rw [if_pos hcheck]
    obtain ⟨returned, s', hsend, hkeeps, hmoves⟩ := Sending.sendTagged_spec h hok
    refine ⟨returned, s', hsend, hkeeps.data, hkeeps.tagCheck, ?_, hkeeps.written, hmoves⟩
    rw [Http.Serving, if_pos (hkeeps.tagCheck.trans hcheck)]
    exact hkeeps.parsing
  · rw [Http.Serving, if_neg hcheck] at h
    rw [if_neg hcheck]
    obtain ⟨s', hsend, hdata, hcheck', hcopying, hwritten, hgrows⟩ :=
      Sending.sendFile_copying h (s.pcb.room_le s.hs.left) fun hready => hready.room_pos hleft
    refine ⟨false, s', by rw [hsend]; rfl, hdata, hcheck', ?_, hwritten,
      fun hready => Or.inl (hgrows hready)⟩
    rw [Http.Serving, if_neg (by rw [hcheck']; exact hcheck)]
    exact hcopying

/-- **`http_send_data`**: it never fails, what it has sent stays the beginning of the same page,
it closes at the end of the file only, and it sends something or closes when the stack is
ready. -/
theorem httpSendData_spec {pcb : Pcb} (h : hs.Serving clock start pcb.out) :
    ∃ r, httpSendData clock hs pcb = some r ∧
      r.hs.data = hs.data ∧ r.hs.tagCheck = hs.tagCheck ∧ r.hs.Serving clock start r.pcb.out ∧
      pcb.out <+: r.pcb.out ∧ (r.closed = true → r.hs.left = 0) ∧
      (pcb.Ready → pcb.out.length < r.pcb.out.length ∨ r.closed = true) := by
  unfold httpSendData
  by_cases hleft : hs.left = 0
  · rw [if_pos hleft]
    exact ⟨_, rfl, rfl, rfl, h, List.prefix_rfl, fun _ => hleft, fun _ => Or.inr rfl⟩
  rw [if_neg hleft]
  obtain ⟨returned, s', hsend, hdata, hcheck, hserving, hwritten, hmoves⟩ :=
    Sending.send_spec (s := ⟨hs, pcb, 0, .ok, false⟩) h rfl (Nat.pos_of_ne_zero hleft)
  rw [hsend]
  dsimp only [Option.bind_eq_bind, Option.bind_some]
  by_cases hend : returned = false ∧ s'.hs.left = 0
  · rw [if_pos hend]
    exact ⟨_, rfl, hdata, hcheck, hserving, hwritten, fun _ => hend.2, fun _ => Or.inr rfl⟩
  · rw [if_neg hend]
    exact ⟨_, rfl, hdata, hcheck, hserving, hwritten, nofun,
      fun hready => Or.inl ((hmoves hready).resolve_right hend)⟩

/-! ## Callback after callback -/

/-- What the stack has to say in a callback: the room, whether the queue is full, the length of
a segment and the answers to `tcp_write`. -/
structure Attempt where
  sndbuf : UInt16
  full : Bool
  mss : UInt16
  answers : List Answer
deriving DecidableEq, Repr

/-- The connection in a callback. -/
def Attempt.pcb (a : Attempt) (out : List UInt8) : Pcb := ⟨a.sndbuf, a.full, a.mss, a.answers, out⟩

/-- There is room, and the first call of `tcp_write` takes what it is given. -/
def Attempt.Ready (a : Attempt) : Prop :=
  0 < a.sndbuf.toNat ∧ 0 < a.mss.toNat ∧ a.answers.head?.map Answer.err = some .ok

instance (a : Attempt) : Decidable a.Ready := inferInstanceAs (Decidable (_ ∧ _))

theorem Attempt.Ready.pcb {a : Attempt} (h : a.Ready) (out : List UInt8) : (a.pcb out).Ready := by
  obtain ⟨hroom, hmss, hanswer⟩ := h
  obtain ⟨answer, hhead, hok⟩ := Option.map_eq_some_iff.mp hanswer
  obtain ⟨answers, hanswers⟩ := List.head?_eq_some_iff.mp hhead
  exact ⟨hroom, hmss, answer, answers, hanswers, hok⟩

/-- `http_sent` and `http_poll`, until the connection is closed: the state, what is sent, and
whether it is closed. -/
def serve (clock : Nat → Readings) : List Attempt → Http → List UInt8 →
    Option (Http × List UInt8 × Bool)
  | [], hs, out => some (hs, out, false)
  | a :: attempts, hs, out => do
    let r ← httpSendData clock hs (a.pcb out)
    if r.closed then some (r.hs, r.pcb.out, true) else serve clock attempts r.hs r.pcb.out

theorem serve_spec (attempts : List Attempt) (h : hs.Serving clock start out) :
    ∃ hs' out' closed, serve clock attempts hs out = some (hs', out', closed) ∧
      hs'.data = hs.data ∧ hs'.tagCheck = hs.tagCheck ∧ hs'.Serving clock start out' ∧
      (closed = true → hs'.left = 0) ∧
      (closed = true ∨ out.length + (attempts.countP (·.Ready)) ≤ out'.length) := by
  induction attempts generalizing hs out with
  | nil => exact ⟨hs, out, false, rfl, rfl, rfl, h, nofun, Or.inr (Nat.le_refl _)⟩
  | cons a attempts ih =>
    obtain ⟨r, hsend, hdata, hcheck, hserving, hwritten, hleft, hmoves⟩ :=
      @httpSendData_spec _ _ _ (a.pcb out) h
    rw [serve, hsend]
    dsimp only [Option.bind_eq_bind, Option.bind_some]
    by_cases hclosed : r.closed = true
    · rw [if_pos hclosed]
      exact ⟨r.hs, r.pcb.out, true, rfl, hdata, hcheck, hserving, fun _ => hleft hclosed,
        Or.inl rfl⟩
    rw [if_neg hclosed]
    obtain ⟨hs', out', closed, hserve, hdata', hcheck', hserving', hleft', hgrows⟩ := ih hserving
    refine ⟨hs', out', closed, hserve, hdata'.trans hdata, hcheck'.trans hcheck, hserving', hleft',
      hgrows.imp_right fun hle => ?_⟩
    have hless : out.length ≤ r.pcb.out.length := hwritten.length_le
    rw [List.countP_cons]
    by_cases hready : a.Ready
    · have hlt : out.length < r.pcb.out.length := (hmoves (hready.pcb out)).resolve_right hclosed
      rw [if_pos (decide_eq_true hready)]
      omega
    · rw [if_neg (by simpa using hready)]
      omega

/-- **A file is served**: whatever the stack does, what is sent is the beginning of the page, it
is the whole page when the connection is closed at the end, and more callbacks with a stack
that is ready than the page has bytes close it. -/
theorem serve_init (clock : Nat → Readings) {data : List UInt8} {start : Nat}
    (hstart : start = 0 ∨ start < data.length) (tagCheck : Bool) (attempts : List Attempt) :
    let page := if tagCheck then page clock start data else data.drop start
    ∃ hs out closed,
      serve clock attempts (Http.init data start tagCheck) [] = some (hs, out, closed) ∧
      out <+: page ∧ (closed = true → out = page) ∧
      (page.length < attempts.countP (·.Ready) → closed = true) := by
  have hle : start ≤ data.length := by omega
  obtain ⟨hs, out, closed, hserve, hdata, hcheck, hserving, hleft, hgrows⟩ :=
    serve_spec attempts (@Http.serving_init clock _ _ hle tagCheck)
  have htarget : hs.target clock start =
      if tagCheck then page clock start data else data.drop start := by
    rw [Http.target, hdata, hcheck]
    rfl
  have hprefix := hserving.sent_prefix
  rw [htarget] at hprefix
  refine ⟨hs, out, closed, hserve, hprefix, fun hclosed => ?_, fun hmany => ?_⟩
  · rw [← htarget]
    refine hserving.sent_all (hleft hclosed) ?_
    rw [hdata]
    exact hstart
  · refine hgrows.resolve_right fun hle => ?_
    have hlen := hprefix.length_le
    rw [List.length_nil] at hle
    omega

/-- A page with a voltage is sent in three parts. -/
theorem serve_init_voltage :
    let clock : Nat → Readings := fun _ => ⟨1000, 2753, 0x123456, 0x142108⟩
    let data := tagLeadIn ++ 0x74 :: tagLeadOut ++ [0x56]
    let attempt : Attempt := ⟨6, false, 536, [⟨.ok, 0, false⟩]⟩
    (∃ hs out closed, serve clock [attempt, attempt, attempt] (Http.init data 0 true) [] =
        some (hs, out, closed) ∧
      out <+: page clock 0 data ∧ (closed = true → out = page clock 0 data) ∧
      ((page clock 0 data).length < [attempt, attempt, attempt].countP (·.Ready) → closed = true)) ∧
    (serve clock [attempt, attempt, attempt] (Http.init data 0 true) []).map (fun r => r.2) =
      some (tagLeadIn ++ 0x74 :: tagLeadOut ++ [0x30, 0x38, 0x30, 0x30], false) := by
  intro clock data attempt
  exact ⟨serve_init clock (Or.inl rfl) true [attempt, attempt, attempt], by decide +kernel⟩

end Generalplate.Httpd
