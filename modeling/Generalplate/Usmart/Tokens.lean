import Generalplate.Usmart.Args

/-! # The tokens of a line

A token is a piece of what the lexer has collected: it is no longer than the
text it comes from, and it has no NUL when the text has none before its end. -/
namespace Generalplate.Usmart
open Lib.Transducer

def Tok.bytes : Tok → List UInt8
  | .num digits => digits
  | .str bytes => bytes

/-! ## Lengths -/

/-- The characters a token takes at least. -/
def Tok.cost : Tok → Nat
  | .num digits => digits.length
  | .str bytes => bytes.length + 2

/-- The characters a mode has taken at least. -/
def Mode.weight : Mode → Nat
  | .num acc _ => acc.length
  | .str acc => acc.length + 1
  | .esc acc => acc.length + 1
  | .post acc => acc.length + 2
  | .fin _ => 0

theorem numTok_cost (acc : List UInt8) : ((numTok acc).map Tok.cost).sum ≤ acc.length := by
  unfold numTok
  split
  · exact Nat.zero_le _
  · simp [Tok.cost]

theorem Next.weight {m m' : Mode} {c : UInt8} {out : List Tok} (h : Next m c out m') :
    m'.weight + (out.map Tok.cost).sum ≤ m.weight + 1 := by
  cases h with
  | @numEnd acc =>
    have := numTok_cost acc
    simp only [Mode.weight]
    omega
  | @firstDigit acc =>
    have := numTok_cost acc
    simp only [Mode.weight, List.length_singleton]
    omega
  | @firstQuote acc =>
    have := numTok_cost acc
    simp only [Mode.weight, List.length_nil]
    omega
  | _ => simp [Mode.weight, Tok.cost]

/-- The tokens are paid for by the characters of the text. -/
theorem lex_cost (s : List UInt8) : ((lex s).1.map Tok.cost).sum ≤ s.length := by
  have h := run_weight (fun m c => (next_step m c).weight) Mode.start s
  rw [show Mode.start.weight = 0 from rfl] at h
  rw [lex]
  omega

/-! ## Bytes -/

theorem numTok_bytes {acc : List UInt8} {t : Tok} (h : t ∈ numTok acc) : t.bytes = acc := by
  unfold numTok at h
  split at h
  · cases h
  · rw [List.mem_singleton.mp h]
    rfl

/-- A token is what its mode has collected. -/
theorem Next.out {m m' : Mode} {c : UInt8} {out : List Tok} (h : Next m c out m') {t : Tok}
    (ht : t ∈ out) : t.bytes = m.acc := by
  cases h with
  | numEnd => exact numTok_bytes ht
  | firstDigit => exact numTok_bytes ht
  | firstQuote => exact numTok_bytes ht
  | postEnd =>
    rw [List.mem_singleton.mp ht]
    rfl
  | postComma =>
    rw [List.mem_singleton.mp ht]
    rfl
  | _ => cases ht

/-- A character that is not the NUL brings none into what is collected. -/
theorem Next.clean {m m' : Mode} {c : UInt8} {out : List Tok} (h : Next m c out m')
    (hm : 0 ∉ m.acc) (hc : c ≠ 0) : 0 ∉ m'.acc := by
  have happ : ∀ {acc : List UInt8} {d : UInt8}, 0 ∉ acc → d ≠ 0 → 0 ∉ acc ++ [d] := by
    intro acc d hacc hd
    simpa [hd.symm] using hacc
  cases h with
  | digit hn => exact happ hm (toUpper_ne hn)
  | firstDigit hn => simpa [Mode.acc] using (toUpper_ne hn).symm
  | copy => exact happ hm hc
  | escaped => exact happ hm hc
  | numEnd => exact List.not_mem_nil
  | firstQuote => exact List.not_mem_nil
  | illegal => exact List.not_mem_nil
  | postEnd => exact List.not_mem_nil
  | postComma => exact List.not_mem_nil
  | _ => exact hm

theorem run_clean {s : List UInt8} (h0 : 0 ∉ s) :
    0 ∉ (run next .start s).2.acc ∧ ∀ t ∈ (run next .start s).1, 0 ∉ t.bytes := by
  refine run_inv (P := fun m : Mode => 0 ∉ m.acc) (Q := fun t : Tok => 0 ∉ t.bytes)
    (T := fun c => c ≠ 0) (fun m c hm hc => ⟨(next_step m c).clean hm hc, fun t ht => ?_⟩)
    List.not_mem_nil fun c hc => fun hz => h0 (hz ▸ hc)
  rw [(next_step m c).out ht]
  exact hm

/-- The tokens of a NUL-terminated text have no NUL. -/
theorem lex_clean {s : List UInt8} (h0 : 0 ∉ s) : ∀ t ∈ (lex (cstr s)).1, 0 ∉ t.bytes := by
  obtain ⟨hacc, htoks⟩ := run_clean h0
  intro t ht
  rw [lex, cstr, run_append, List.mem_append] at ht
  rcases ht with ht | ht
  · exact htoks t ht
  · rw [run_cons, run_nil, List.append_nil] at ht
    rw [(next_step _ _).out ht]
    exact hacc

/-! ## The NUL -/

/-- Behind a NUL the lexer is at the end or in a string. -/
theorem lex_nul_mode (s : List UInt8) :
    (∃ closed, (lex (cstr s)).2 = .fin closed) ∨ ∃ acc, (lex (cstr s)).2 = .str acc := by
  have hend : isEnd 0 = true := by decide
  have happ : (lex (cstr s)).2 = (next (run next .start s).2 0).2 := by
    rw [lex, cstr, run_append, run_cons]
    rfl
  rw [happ]
  cases (run next .start s).2 with
  | num acc comma => exact Or.inl ⟨true, by simp [next, hend]⟩
  | str acc => exact Or.inr ⟨acc ++ [0], by simp [next]⟩
  | esc acc => exact Or.inr ⟨acc ++ [0], rfl⟩
  | post acc => exact Or.inl ⟨true, by simp [next, hend]⟩
  | fin closed => exact Or.inl ⟨closed, rfl⟩

end Generalplate.Usmart
