import Mathlib.Data.List.Induction
import Generalplate.Httpd.Tags

/-! # Pages of text and tags

A file of plain text and tags is served as the same text, each tag followed by its insert.
Plain text may have any characters, but no lead-in of a tag, and it does not end in the
beginning of one. -/
namespace Generalplate.Httpd
open Lib.Transducer

/-! ## Bytes that are no tag -/

/-- The parser takes the bytes one after the other and finds no tag. -/
inductive Takes : Parser → List UInt8 → Parser → Prop
  | nil {p : Parser} : Takes p [] p
  | cons {p p' q : Parser} {c : UInt8} {s : List UInt8} (hc : p.read c = (.take, p'))
      (hs : Takes p' s q) : Takes p (c :: s) q

theorem Takes.append {p q r : Parser} {s t : List UInt8} (h : Takes p s q) (ht : Takes q t r) :
    Takes p (s ++ t) r := by
  induction h with
  | nil => exact ht
  | cons hc _ ih => exact .cons hc (ih ht)

/-- A text without a lead-in that does not end in the beginning of one either. -/
structure Plain (s : List UInt8) : Prop where
  noLeadIn : ¬ tagLeadIn <:+: s
  ends : ∀ k, 0 < k → k < tagLeadIn.length → ¬ tagLeadIn.take k <:+ s

section Shows
variable {clock : Nat → Readings} {r r' r'' : Reader} {s s' t t' : List UInt8}

/-- Behind `s` the reader has given out `t`, but for the insert that waits for a byte. -/
def Shows (clock : Nat → Readings) (r : Reader) (s t : List UInt8) (r' : Reader) : Prop :=
  (run (Reader.next clock) r s).2 = r' ∧
    visible 0 (run (Reader.next clock) r s).1 ++ r'.insert = r.insert ++ t

theorem Shows.nil : Shows clock r [] [] r := ⟨rfl, by rw [run_nil, visible, List.append_nil]; rfl⟩

theorem Shows.append (h : Shows clock r s t r') (h' : Shows clock r' s' t' r'') :
    Shows clock r (s ++ s') (t ++ t') r'' := by
  obtain ⟨rfl, hshown⟩ := h
  obtain ⟨rfl, hshown'⟩ := h'
  rw [Shows, run_append, visible_append, Nat.zero_sub, List.append_assoc, hshown',
    ← List.append_assoc, hshown, List.append_assoc]
  exact ⟨rfl, rfl⟩

theorem Shows.byte {c : UInt8} {p : Parser} (h : r.parser.read c = (.take, p)) :
    Shows clock r [c] [c] { r with parser := p, insert := [] } := by
  have hnext : r.next clock c =
      ([.insert r.insert, .byte c], { r with parser := p, insert := [] }) := by
    rw [Reader.next, h]
  rw [Shows, run_cons, hnext]
  exact ⟨rfl, List.append_nil _⟩

/-- The last byte of a tag. -/
theorem Shows.tag {c : UInt8} {p : Parser} (h : r.parser.read c = (.tag, p)) {text : List UInt8}
    (htext : (p.found (clock r.calls)).next r.buffer = text) :
    Shows clock r [c] (c :: text) ⟨{ p with state := .none }, text, r.calls + 1, text⟩ := by
  subst htext
  rw [Shows, run_cons, Reader.next, h]
  refine ⟨rfl, ?_⟩
  dsimp only
  rw [run_nil, List.append_nil, visible, visible, visible, List.append_assoc]
  rfl

end Shows

/-! ## Pages made of pieces -/

inductive Piece where
  | text (s : List UInt8)
  | tag (before : List UInt8) (name : UInt8) (after : List UInt8)

def Piece.bytes : Piece → List UInt8
  | .text s => s
  | .tag before name after => tagLeadIn ++ (before ++ [name]) ++ (after ++ [0x2d, 0x2d]) ++ [0x3e]

/-- The text is plain, or there are only blanks around a name that is neither a blank nor `-`. -/
def Piece.Ok : Piece → Prop
  | .text s => Plain s
  | .tag before name after => (∀ c ∈ before, isBlank c = true) ∧ isBlank name = false ∧
      name ≠ 0x2d ∧ ∀ c ∈ after, isBlank c = true

end Generalplate.Httpd
