import Generalplate.Usart.Receive

/-! # Which lines reach the interpreter

What the receiver has collected is what came since `USART_RX_STA` was last 0: a
payload without a 0x0D, then the line end. It is a whole input line when the
line began with the word at 0 and fits in the buffer. A longer line starts again
every `USART_REC_LEN` bytes, so that its last part is what is handed over; a
0x0D without a 0x0A drops the bytes collected so far and starts again behind it. -/
namespace Generalplate.Usart
open Lib.EventRun

/-! ## What has been seen since the last restart -/

theorem Line.next_complete {l : Line} (hp : l.phase = .complete) {e : Event}
    (hne : l.next e ≠ .start) : l.next e = l := by
  cases e with
  | byte b => simp only [Line.next, Line.byte, hp]
  | scan => exact absurd (by simp only [Line.next, Line.scan, hp]) hne

theorem Line.next_seen {l : Line} (hp : l.phase ≠ .complete) {e : Event}
    (hne : l.next e ≠ .start) : (l.next e).seen = l.seen ++ received [e] := by
  cases e with
  | scan =>
    have hn : l.next .scan = l := by
      cases hq : l.phase <;> first | contradiction | simp only [Line.next, Line.scan, hq]
    rw [hn]
    exact (List.append_nil _).symm
  | byte b =>
    revert hne
    cases hq : l.phase with
    | complete => exact absurd hq hp
    | sawCR =>
      simp only [Line.next, Line.byte, hq]
      by_cases hb : b = 0x0a
      · simp [Line.seen, received, hb, hq]
      · simp [hb]
    | collecting =>
      simp only [Line.next, Line.byte, hq]
      by_cases hb : b = 0x0d
      · simp [Line.seen, received, hb, hq]
      · simp only [hb, dite_false, Line.push]
        split
        · simp [Line.seen, received, hq]
        · simp

theorem received_append (es fs : List Event) :
    received (es ++ fs) = received es ++ received fs := by
  induction es with
  | nil => rfl
  | cons e es ih =>
    cases e with
    | byte b => exact congrArg (b :: ·) ih
    | scan => exact ih

/-- While the line does not start again it has seen every byte, those behind its
end apart. -/
theorem seen_since {es : List Event}
    (h : ∀ q, q <+: es → q ≠ [] → q.foldl Line.next .start ≠ .start) :
    ∃ seg ign, es = seg ++ ign ∧ received seg = (es.foldl Line.next .start).seen ∧
      seg.foldl Line.next .start = es.foldl Line.next .start ∧
      ((es.foldl Line.next .start).phase = .complete ∨ ign = []) := by
  induction es using List.reverseRecOn with
  | nil => exact ⟨[], [], rfl, rfl, rfl, Or.inr rfl⟩
  | append_singleton es e ih =>
    have hne := h (es ++ [e]) (List.prefix_refl _) (by simp)
    obtain ⟨seg, ign, hes, hseen, hfold, hign⟩ :=
      ih fun q hq => h q (hq.trans (List.prefix_append _ _))
    rw [List.foldl_append, List.foldl_cons, List.foldl_nil] at hne ⊢
    by_cases hp : (es.foldl Line.next .start).phase = .complete
    · rw [Line.next_complete hp hne]
      exact ⟨seg, ign ++ [e], by rw [hes, List.append_assoc], hseen, hfold, Or.inl hp⟩
    · have hnil : ign = [] := hign.resolve_left hp
      subst hnil
      rw [List.append_nil] at hes
      subst hes
      refine ⟨es ++ [e], [], (List.append_nil _).symm, ?_, ?_, Or.inr rfl⟩
      · rw [received_append, hseen, Line.next_seen hp hne]
      · rw [List.foldl_append, List.foldl_cons, List.foldl_nil]

section Runs
variable {σ : Type}

/-- A run up to the last time `USART_RX_STA` was 0, and the events since. -/
def LastZero (cmd : List UInt8 → σ → σ) (x : Rx × σ) (pre post : List Event) : Prop :=
  (∃ y, run (step cmd) pre x = some y ∧ y.1.sta = 0#16) ∧
    ∀ q, q <+: post → q ≠ [] → ∀ y, run (step cmd) (pre ++ q) x = some y → y.1.sta ≠ 0#16

/-- Every run from the word at 0, cut at the last time the word was 0: the line
held now is what was received since. -/
theorem holds_since (cmd : List UInt8 → σ → σ) (buf : Nat → UInt8) (s : σ) (es : List Event) :
    ∃ r s' l, run (step cmd) es (⟨buf, 0#16⟩, s) = some (r, s') ∧ Holds r l ∧
      ∃ pre seg ign, es = pre ++ seg ++ ign ∧ LastZero cmd (⟨buf, 0#16⟩, s) pre (seg ++ ign) ∧
        received seg = l.seen ∧
        ∀ y, run (step cmd) (pre ++ seg) (⟨buf, 0#16⟩, s) = some y → Holds y.1 l := by
  obtain ⟨r, s', hrun, hh⟩ := (holds_start buf).follows cmd es s
  obtain ⟨pre, post, hes, hpre, hpost⟩ := last_visit Line.next (· = Line.start) rfl es
  have hfold : ∀ q, (pre ++ q).foldl Line.next .start = q.foldl Line.next .start := by
    intro q
    rw [List.foldl_append, hpre]
  have hnext : ∀ q y, run (step cmd) (pre ++ q) (⟨buf, 0#16⟩, s) = some y →
      Holds y.1 (q.foldl Line.next .start) := by
    intro q y hy
    obtain ⟨r', s'', hrun', hh'⟩ := (holds_start buf).follows cmd (pre ++ q) s
    rw [hrun'] at hy
    cases hy
    rwa [hfold] at hh'
  rw [hpre] at hpost
  obtain ⟨seg, ign, hseg, hseen, hfoldSeg, _⟩ := seen_since hpost
  subst hseg
  rw [hes, hfold] at hh
  refine ⟨r, s', _, hrun, hh, pre, seg, ign, by rw [hes, List.append_assoc], ⟨?_, ?_⟩, hseen, ?_⟩
  · obtain ⟨r0, s0, hrun0, hh0⟩ := (holds_start buf).follows cmd pre s
    exact ⟨(r0, s0), hrun0, hh0.sta_zero_iff.mpr hpre⟩
  · intro q hq hne y hy hz
    exact hpost q hq hne ((hnext q y hy).sta_zero_iff.mp hz)
  · intro y hy
    rw [← hfoldSeg]
    exact hnext seg y hy

/-! ## What becomes of a line -/

/-- What is left of the bytes `p` when the buffer started again each time it
was full. -/
def restarted (p : List UInt8) : List UInt8 := p.drop (usartRecLen * (p.length / usartRecLen))

theorem restarted_short {p : List UInt8} (h : p.length ≤ usartRecLen - 1) : restarted p = p := by
  have hz : p.length / usartRecLen = 0 := Nat.div_eq_of_lt (Nat.lt_of_le_pred (by decide) h)
  rw [restarted, hz, Nat.mul_zero, List.drop_zero]

theorem restarted_full {p q : List UInt8} (h : p.length = usartRecLen) :
    restarted (p ++ q) = restarted q := by
  have hdiv : (usartRecLen + q.length) / usartRecLen = q.length / usartRecLen + 1 :=
    Nat.add_div_left _ (by decide)
  rw [restarted, restarted, List.length_append, h, hdiv, Nat.mul_add, Nat.mul_one, Nat.add_comm,
    ← h, List.drop_append, Nat.add_sub_cancel_left, List.drop_eq_nil_of_le (by omega),
    List.nil_append]

/-- Bytes without a 0x0D, with scans anywhere between them. -/
theorem run_collect (cmd : List UInt8 → σ → σ) (s : σ) (es : List Event) {r : Rx} {l : Line}
    (h : Holds r l) (hp : l.phase = .collecting) (hcr : 0x0d ∉ received es) :
    ∃ r' l', run (step cmd) es (r, s) = some (r', s) ∧ Holds r' l' ∧ l'.phase = .collecting ∧
      l'.payload = restarted (l.payload ++ received es) := by
  induction es generalizing r l with
  | nil =>
    refine ⟨r, l, rfl, h, hp, ?_⟩
    rw [received, List.append_nil, restarted_short l.short]
  | cons e es ih =>
    cases e with
    | scan =>
      have hscan : step cmd .scan (r, s) = some (r, s) := scan_incomplete h (by simp [hp])
      rw [run_cons hscan]
      exact ih h hp hcr
    | byte b =>
      simp only [received, List.mem_cons, not_or] at hcr
      obtain ⟨r1, hr1, hh1⟩ := h.push hp (Ne.symm hcr.1)
      have hstep : step cmd (.byte b) (r, s) = some (r1, s) := by rw [step, hr1, Option.map_some]
      have hpush : (l.push b (Ne.symm hcr.1)).phase = .collecting := by
        unfold Line.push
        split <;> rfl
      obtain ⟨r2, l2, hrun, hh2, hp2, hl2⟩ := ih hh1 hpush hcr.2
      refine ⟨r2, l2, by rw [run_cons hstep, hrun], hh2, hp2, ?_⟩
      rw [hl2, received, List.append_cons]
      by_cases hfull : l.payload.length + 1 ≤ usartRecLen - 1
      · simp only [Line.push, dif_pos hfull]
      · -- the buffer was full: what came before and `b` are dropped together
        have hlt := l.length_lt
        simp only [Line.push, dif_neg hfull, Line.start, List.nil_append]
        rw [restarted_full]
        simp only [List.length_append, List.length_singleton]
        omega

theorem eq_scan_of_received_nil {es : List Event} (h : received es = []) :
    ∀ e ∈ es, e = .scan := by
  induction es with
  | nil => intro e he; cases he
  | cons e es ih =>
    cases e with
    | byte b => cases h
    | scan => exact List.forall_mem_cons.mpr ⟨rfl, ih h⟩

/-- A payload and the 0x0D behind it, with scans anywhere. -/
theorem run_payload (cmd : List UInt8 → σ → σ) (s : σ) {r : Rx} (hz : r.sta = 0#16)
    {line gap : List Event} (hcr : 0x0d ∉ received line) (hgap : received gap = []) :
    ∃ r' l', run (step cmd) (line ++ .byte 0x0d :: gap) (r, s) = some (r', s) ∧ Holds r' l' ∧
      l'.phase = .sawCR ∧ l'.payload = restarted (received line) := by
  obtain ⟨buf, sta⟩ := r
  subst hz
  obtain ⟨r1, l1, hrun1, hh1, hp1, hl1⟩ := run_collect cmd s line (holds_start buf) rfl hcr
  obtain ⟨r2, hr2, hh2⟩ := hh1.byte 0x0d
  have hp2 : (l1.byte 0x0d).phase = .sawCR := by simp [Line.byte, hp1]
  have hl2 : (l1.byte 0x0d).payload = l1.payload := by simp [Line.byte, hp1]
  have hstep : step cmd (.byte 0x0d) (r1, s) = some (r2, s) := by rw [step, hr2, Option.map_some]
  have hfix : run (step cmd) gap (r2, s) = some (r2, s) := by
    refine run_fixed fun e he => ?_
    rw [eq_scan_of_received_nil hgap e he]
    exact scan_incomplete hh2 (by simp [hp2])
  refine ⟨r2, l1.byte 0x0d, ?_, hh2, hp2, by rw [hl2, hl1]; rfl⟩
  rw [run_append_of _ hrun1, run_cons hstep, hfix]

/-- A line end completes the line, nothing that follows changes it, and the scan
hands it over. -/
theorem run_deliver (cmd : List UInt8 → σ → σ) (s : σ) {r : Rx} (hz : r.sta = 0#16)
    {line gap : List Event} (hcr : 0x0d ∉ received line) (hgap : received gap = [])
    (late : List UInt8) :
    ∃ r' buf rest,
      run (step cmd) (line ++ .byte 0x0d :: gap ++ .byte 0x0a :: late.map .byte) (r, s) =
        some (r', s) ∧
      usmartScan cmd r' s =
        some (⟨buf, 0#16⟩, cmd (restarted (received line) ++ 0 :: rest) s) := by
  obtain ⟨r1, l1, hrun1, hh1, hp1, hl1⟩ := run_payload cmd s hz hcr hgap
  obtain ⟨r2, hr2, hh2⟩ := hh1.byte 0x0a
  have hp2 : (l1.byte 0x0a).phase = .complete := by simp [Line.byte, hp1]
  have hl2 : (l1.byte 0x0a).payload = l1.payload := by simp [Line.byte, hp1]
  have hstep : step cmd (.byte 0x0a) (r1, s) = some (r2, s) := by rw [step, hr2, Option.map_some]
  have hfix : run (step cmd) (late.map .byte) (r2, s) = some (r2, s) := by
    refine run_fixed fun e he => ?_
    obtain ⟨b, _, rfl⟩ := List.mem_map.mp he
    rw [step, usart1IRQHandler, if_neg (hh2.complete_iff.mpr hp2), Option.map_some]
  obtain ⟨buf, rest, hscan, _⟩ := scan_complete cmd s hh2 hp2
  refine ⟨r2, buf, rest, ?_, ?_⟩
  · rw [run_append_of _ hrun1, run_cons hstep, hfix]
  · rw [hscan, hl2, hl1]

/-- **The receiver over every run.** It never stores outside the buffer; a
complete line stays as it is until the scan and is what was received since the
word was last 0; and every line that fits is delivered. -/
theorem receive_exact (cmd : List UInt8 → σ → σ) (buf : Nat → UInt8) (s : σ) (es : List Event) :
    ∃ r s', run (step cmd) es (⟨buf, 0#16⟩, s) = some (r, s') ∧
      r.count ≤ usartRecLen - 1 ∧
      (r.Complete → ∀ b, usart1IRQHandler b r = some r) ∧
      (r.Complete → 0x0d ∉ r.payload ∧ ∃ pre seg ign, es = pre ++ seg ++ ign ∧
        LastZero cmd (⟨buf, 0#16⟩, s) pre (seg ++ ign) ∧
        received seg = r.payload ++ [0x0d, 0x0a] ∧
        ∀ y, run (step cmd) (pre ++ seg) (⟨buf, 0#16⟩, s) = some y → y.1.Complete) ∧
      (r.sta = 0#16 → ∀ (line gap : List Event) (late : List UInt8),
        0x0d ∉ received line → (received line).length ≤ usartRecLen - 1 → received gap = [] →
        ∃ r1 buf1 rest,
          run (step cmd) (line ++ .byte 0x0d :: gap ++ .byte 0x0a :: late.map .byte) (r, s') =
            some (r1, s') ∧
          usmartScan cmd r1 s' = some (⟨buf1, 0#16⟩, cmd (received line ++ 0 :: rest) s')) := by
  obtain ⟨r, s', l, hrun, hh, pre, seg, ign, hes, hlast, hseen, hthen⟩ :=
    holds_since cmd buf s es
  refine ⟨r, s', hrun, ?_, ?_, ?_, ?_⟩
  · rw [hh.count_eq]
    exact l.short
  · intro hc b
    rw [usart1IRQHandler, if_neg hc]
  · intro hc
    have hp := hh.complete_iff.mp hc
    rw [hh.payload_eq]
    refine ⟨l.noCR, pre, seg, ign, hes, hlast, ?_, fun y hy => (hthen y hy).complete_iff.mpr hp⟩
    simpa [Line.seen, hp] using hseen
  · intro hz line gap late hcr hlen hgap
    have hdeliver := run_deliver cmd s' hz hcr hgap late
    rwa [restarted_short hlen] at hdeliver

end Runs

/-- Records each command handed over, as the C string it is. -/
def record (mem : List UInt8) (handed : List (List UInt8)) : List (List UInt8) :=
  handed ++ [mem.takeWhile (· ≠ 0)]

end Generalplate.Usart
