import Generalplate.Lib.Transducer
import Generalplate.Httpd.Ssi

/-! # The page a file is served as

`http_send_data` looks for the tags of a `.shtml` file byte by byte: `<!--#`, a name of one
character, `-->`, with blanks around the name. The tag stays in the page and its text is
inserted behind it, in front of the byte that follows; behind a tag that ends the file
nothing is inserted. -/
namespace Generalplate.Httpd
open Lib.Transducer

/-- `enum tag_check_state` -/
inductive TagState where
  | none
  | leadin
  | found
  | leadout
  | sending
deriving DecidableEq, Repr

/-- `LWIP_HTTPD_MAX_TAG_NAME_LEN` -/
def maxTagNameLen : Nat := 1

/-- `g_pcTagLeadIn`, the bytes of `<!--#` -/
def tagLeadIn : List UInt8 := [0x3c, 0x21, 0x2d, 0x2d, 0x23]

/-- `g_pcTagLeadOut`, the bytes of `-->` -/
def tagLeadOut : List UInt8 := [0x2d, 0x2d, 0x3e]

def isBlank (c : UInt8) : Bool := c = 0x20 || c = 0x09 || c = 0x0a || c = 0x0d

/-- `tag_state`, `tag_index` and the bytes of `tag_name`. -/
structure Parser where
  state : TagState
  index : Nat
  name : List UInt8
deriving DecidableEq, Repr

/-- What a pass of the loop does with a byte: it leaves it to the next pass, takes it, or
takes it as the last one of a tag. -/
inductive Pass where
  | leave
  | take
  | tag
deriving DecidableEq, Repr

/-- The loop's body but for `TAG_SENDING`, where no byte is read. -/
def Parser.pass (p : Parser) (c : UInt8) : Pass × Parser :=
  match p.state with
  | .none => (.take, if c = 0x3c then { p with state := .leadin, index := 1 } else p)
  | .leadin =>
    if p.index = tagLeadIn.length then (.leave, { p with state := .found, index := 0 })
    else if tagLeadIn[p.index]? = some c then (.take, { p with index := p.index + 1 })
    else (.take, { p with state := .none })
  | .found =>
    if p.index = 0 ∧ isBlank c = true then (.take, p)
    else if c = 0x2d ∨ isBlank c = true then
      if p.index = 0 then (.take, { p with state := .none })
      else (.take, ⟨.leadout, if c = 0x2d then 1 else 0, p.name.set p.index 0⟩)
    else if p.index < maxTagNameLen then
      (.take, { p with index := p.index + 1, name := p.name.set p.index c })
    else (.take, { p with state := .none })
  | .leadout =>
    if p.index = 0 ∧ isBlank c = true then (.take, p)
    else if tagLeadOut[p.index]? = some c then
      if p.index = tagLeadOut.length - 1 then (.tag, { p with state := .sending, index := 0 })
      else (.take, { p with index := p.index + 1 })
    else (.take, { p with state := .none })
  | .sending => (.leave, p)

/-- The name as a string, up to its NUL. -/
def Parser.tagName (p : Parser) : List UInt8 := p.name.takeWhile (· ≠ 0)

/-- The parser when a file is opened on a fresh connection. -/
def Parser.start : Parser := ⟨.none, 0, List.replicate (maxTagNameLen + 1) 0⟩

/-- The passes until the byte is taken. -/
def Parser.read (p : Parser) (c : UInt8) : Pass × Parser :=
  match p.pass c with
  | (.leave, p) => p.pass c
  | r => r

/-! ## The parser, byte by byte -/

section Read
variable {k : Nat} {name : List UInt8} {c : UInt8}

theorem pass_found : (Parser.mk .found 0 name).pass c =
    (.take, if isBlank c = true then ⟨.found, 0, name⟩ else if c = 0x2d then ⟨.none, 0, name⟩
      else ⟨.found, 1, name.set 0 c⟩) := by
  by_cases hb : isBlank c = true
  · simp [Parser.pass, hb]
  · by_cases hc : c = 0x2d
    · subst hc
      rfl
    · simp [Parser.pass, hb, hc, maxTagNameLen]

/-- Behind the lead-in, and the blanks there, the parser looks for the name. -/
theorem read_found {p : Parser}
    (h : p = ⟨.leadin, tagLeadIn.length, name⟩ ∨ p = ⟨.found, 0, name⟩) :
    p.read c =
      (.take, if isBlank c = true then ⟨.found, 0, name⟩ else if c = 0x2d then ⟨.none, 0, name⟩
        else ⟨.found, 1, name.set 0 c⟩) := by
  rcases h with rfl | rfl
  · exact pass_found
  · rw [Parser.read, pass_found]

end Read

/-! ## The page -/

theorem Parser.not_mem_tagName (p : Parser) : 0 ∉ p.tagName := fun h => by
  simpa using List.mem_takeWhile_imp h

/-- The tag the parser has found, at a reading. -/
def Parser.found (p : Parser) (r : Readings) : Tag := ⟨p.tagName, r, p.not_mem_tagName⟩

/-- A reader of a whole file: its parser, the text in `tag_insert`, the number of tags so far
and the text to be inserted next. -/
structure Reader where
  parser : Parser
  buffer : List UInt8
  calls : Nat
  insert : List UInt8

def Reader.start : Reader := ⟨.start, [], 0, []⟩

/-- A part of a page: a byte of the file, or an insert in front of one. -/
inductive Part where
  | insert (text : List UInt8)
  | byte (c : UInt8)

/-- One byte of the file; `clock` is what there is to read at each of the tags. -/
def Reader.next (clock : Nat → Readings) (r : Reader) (c : UInt8) : List Part × Reader :=
  let out := [.insert r.insert, .byte c]
  match r.parser.read c with
  | (.tag, p) =>
    let tag := p.found (clock r.calls)
    (out, ⟨{ p with state := .none }, tag.next r.buffer, r.calls + 1, tag.next r.buffer⟩)
  | (_, p) => (out, { r with parser := p, insert := [] })

/-- The bytes of a page from byte `start` of the file on. -/
def visible : Nat → List Part → List UInt8
  | _, [] => []
  | start, .insert text :: parts => text ++ visible start parts
  | 0, .byte c :: parts => c :: visible 0 parts
  | start + 1, .byte _ :: parts => visible start parts

/-- The page of a file. -/
def page (clock : Nat → Readings) (start : Nat) (data : List UInt8) : List UInt8 :=
  visible start (run (Reader.next clock) .start data).1

/-! ## What a reader gives out -/

/-- The bytes of the file among the parts. -/
def fileBytes : List Part → Nat
  | [] => 0
  | .insert _ :: parts => fileBytes parts
  | .byte _ :: parts => fileBytes parts + 1

theorem visible_append (start : Nat) (parts parts' : List Part) :
    visible start (parts ++ parts') =
      visible start parts ++ visible (start - fileBytes parts) parts' := by
  induction parts generalizing start with
  | nil => rfl
  | cons part parts ih =>
    cases part with
    | insert text => rw [List.cons_append, visible, visible, ih, List.append_assoc, fileBytes]
    | byte c =>
      cases start with
      | zero =>
        rw [List.cons_append, visible, visible, ih, List.cons_append, Nat.zero_sub, Nat.zero_sub]
      | succ start =>
        rw [List.cons_append, visible, visible, ih, fileBytes, Nat.add_sub_add_right]

theorem Reader.next_parts (clock : Nat → Readings) (r : Reader) (c : UInt8) :
    (r.next clock c).1 = [.insert r.insert, .byte c] := by
  unfold next
  dsimp only
  split <;> rfl

theorem fileBytes_run (clock : Nat → Readings) (r : Reader) (data : List UInt8) :
    fileBytes (run (Reader.next clock) r data).1 = data.length := by
  induction data generalizing r with
  | nil => rfl
  | cons c data ih =>
    rw [run_cons, Reader.next_parts, List.cons_append, List.cons_append, fileBytes, fileBytes]
    exact congrArg (· + 1) (ih _)

end Generalplate.Httpd
