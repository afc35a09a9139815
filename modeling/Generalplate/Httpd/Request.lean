import Generalplate.Httpd.Cgi

/-! # The request

`http_recv` collects what has come in `req` until `http_parse_request` finds the end of a
line in it. A request of one pbuf is read where it is, one of several in a copy of its first
1023 bytes. -/
namespace Generalplate.Httpd
open Usmart (text)

/-- The loop of `strnstr` on a buffer of `n` bytes in the memory: what is in front of the token,
if there is one; none when it reads behind the memory. The byte at `p` is read before `p` is
compared with the end of the buffer. -/
def strnstrLoop (token : List UInt8) : Nat → List UInt8 → Option (Option (List UInt8))
  | _, [] => none
  | n, c :: mem =>
    if c = 0 ∨ n < token.length then some none
    else if token.isPrefixOf (c :: mem) then some (some [])
    else (strnstrLoop token (n - 1) mem).map (Option.map (c :: ·))

def strnstr (token : List UInt8) (n : Nat) (mem : List UInt8) : Option (Option (List UInt8)) :=
  if token = [] then some (some []) else strnstrLoop token n mem

/-- What is in front of the token, in a text that is read up to a NUL. -/
def inFront (token : List UInt8) : List UInt8 → Option (List UInt8)
  | [] => none
  | c :: s =>
    if c = 0 then none
    else if token.isPrefixOf (c :: s) then some []
    else (inFront token s).map (c :: ·)

/-- `CRLF` -/
def crlf : List UInt8 := [0x0d, 0x0a]

/-- `"GET "` -/
def getMethod : List UInt8 := [0x47, 0x45, 0x54, 0x20]

/-- `MIN_REQ_LEN` -/
def minReqLen : Nat := 7

/-- `LWIP_HTTPD_MAX_REQ_LENGTH` -/
def maxReqLength : Nat := 1023

/-- `LWIP_HTTPD_REQ_QUEUELEN` -/
def reqQueuelen : Nat := 10

/-- What `http_parse_request` comes to: `ERR_INPROGRESS`, `ERR_ARG`, or a call of
`http_find_file`. -/
inductive Parsed where
  | inprogress
  | arg
  | findFile (uri : List UInt8) (is09 : Bool)
deriving DecidableEq, Repr

/-- The bytes that are parsed of a chain of pbufs. -/
def requestData : List (List UInt8) → List UInt8
  | [payload] => payload
  | req => req.flatten.take maxReqLength

/-- `http_parse_request` of the chain in `req`, with the byte behind the data that are parsed;
none when it reads behind that. The space behind the URI is looked for in all the data, also
behind the end of the line. -/
def httpParseRequest (behind : UInt8) (req : List (List UInt8)) : Option Parsed := do
  let data := requestData req
  let mem := data ++ [behind]
  let more :=
    if req.flatten.length ≤ maxReqLength ∧ req.length ≤ reqQueuelen then Parsed.inprogress
    else .arg
  if data.length < minReqLen then return more
  else if (← strnstr crlf data.length mem).isNone then return more
  else if data.take 4 ≠ getMethod then return .arg
  else
    match ← strnstr [0x20] (data.length - 4) (mem.drop 4) with
    | some uri => return .findFile uri false
    | none =>
      match ← strnstr crlf (data.length - 4) (mem.drop 4) with
      | some uri => return .findFile uri true
      | none => return more

/-- The chains that `http_recv` gets one after the other: what the request comes to, and the
chains behind it. What lies behind the data of a chain is `behind`. -/
def collect (behind : List (List UInt8) → UInt8) (req : List (List UInt8)) :
    List (List (List UInt8)) → Option (Parsed × List (List (List UInt8)))
  | [] => some (.inprogress, [])
  | p :: ps => do
    match ← httpParseRequest (behind (req ++ p)) (req ++ p) with
    | .inprogress => collect behind (req ++ p) ps
    | parsed => return (parsed, ps)

/-! ## Looking for a token -/

section InFront
variable {token : List UInt8}

theorem inFront_none {s : List UInt8} (htoken : ¬ token <:+: s) : inFront token s = none := by
  induction s with
  | nil => rfl
  | cons c s ih =>
    rw [inFront]
    split
    · rfl
    · rw [if_neg, ih fun h => htoken (h.trans (List.suffix_cons c s).isInfix), Option.map_none]
      exact fun h => htoken (List.isPrefixOf_iff_prefix.mp h).isInfix

theorem inFront_short {s : List UInt8} (hlen : s.length < token.length) : inFront token s = none :=
  inFront_none fun h => Nat.not_le_of_lt hlen h.length_le

/-- **`strnstr`** reads one byte behind the buffer at most, and for a token of two bytes or more
none behind a buffer that is not empty; what is there makes no difference. -/
theorem strnstr_eq {s behind : List UInt8} (htoken : token ≠ [])
    (hone : 2 ≤ token.length + behind.length) (hmem : s ++ behind ≠ []) :
    strnstr token s.length (s ++ behind) = some (inFront token s) := by
  have hpos := List.length_pos_of_ne_nil htoken
  rw [strnstr, if_neg htoken]
  induction s with
  | nil =>
    obtain ⟨b, rest, rfl⟩ := List.exists_cons_of_ne_nil hmem
    exact if_pos (Or.inr hpos)
  | cons c s ih =>
    rw [List.cons_append, List.length_cons, strnstrLoop]
    by_cases hc : c = 0
    · rw [if_pos (Or.inl hc), inFront, if_pos hc]
    by_cases hend : s.length + 1 < token.length
    · rw [if_pos (Or.inr hend), inFront_short (by rwa [List.length_cons])]
    have hsame : token.isPrefixOf (c :: (s ++ behind)) = token.isPrefixOf (c :: s) := by
      rw [Bool.eq_iff_iff, List.isPrefixOf_iff_prefix, List.isPrefixOf_iff_prefix,
        ← List.cons_append]
      refine ⟨fun h => ?_, fun h => h.trans (List.prefix_append ..)⟩
      exact List.prefix_of_prefix_length_le h (List.prefix_append ..)
        (by rw [List.length_cons]; omega)
    rw [if_neg (not_or.mpr ⟨hc, hend⟩), inFront, if_neg hc, hsame]
    split
    · rfl
    · -- with nothing behind the buffer the token is too long for its last byte
      have hnext : s ++ behind ≠ [] := by
        rw [← List.length_pos_iff_ne_nil, List.length_append]
        omega
      rw [Nat.add_sub_cancel, ih hnext]
      rfl

/-- The first token, when no byte in front of it is a NUL. -/
theorem inFront_append {front rest : List UInt8} (hfront : 0 ∉ front)
    (hhead : ∃ c t, token = c :: t ∧ c ≠ 0)
    (hfirst : ∀ s, s ≠ [] → s <:+ front → ¬ token <+: s ++ (token ++ rest)) :
    inFront token (front ++ (token ++ rest)) = some front := by
  induction front with
  | nil =>
    obtain ⟨c, t, rfl, hc⟩ := hhead
    have hprefix : (c :: t).isPrefixOf (c :: (t ++ rest)) = true :=
      List.isPrefixOf_iff_prefix.mpr (List.prefix_append (c :: t) rest)
    rw [List.nil_append, List.cons_append, inFront, if_neg hc, if_pos hprefix]
  | cons c front ih =>
    obtain ⟨hc, hfront⟩ := List.ne_and_not_mem_of_not_mem_cons hfront
    have hnot : ¬ token.isPrefixOf (c :: (front ++ (token ++ rest))) = true := fun h =>
      hfirst (c :: front) (List.cons_ne_nil _ _) List.suffix_rfl (List.isPrefixOf_iff_prefix.mp h)
    rw [List.cons_append, inFront, if_neg hc.symm, if_neg hnot,
      ih hfront fun s hne hs => hfirst s hne (hs.trans (List.suffix_cons c front)), Option.map_some]

end InFront

/-- A token of one character. -/
theorem inFront_char {c : UInt8} (hc : c ≠ 0) {front : List UInt8} (hfront : 0 ∉ front)
    (hnot : c ∉ front) (rest : List UInt8) : inFront [c] (front ++ c :: rest) = some front := by
  refine @inFront_append [c] front rest hfront ⟨c, [], rfl, hc⟩ fun s hne hs hprefix => ?_
  obtain ⟨d, s, rfl⟩ := List.exists_cons_of_ne_nil hne
  have hd : c = d := (List.cons_prefix_cons.mp hprefix).1
  exact hnot (hd ▸ hs.subset (List.mem_cons_self ..))

/-- The end of a line. -/
theorem inFront_crlf {line : List UInt8} (hline : 0 ∉ line) (hnot : ¬ crlf <:+: line)
    (rest : List UInt8) : inFront crlf (line ++ (crlf ++ rest)) = some line := by
  refine inFront_append hline ⟨0x0d, [0x0a], rfl, by decide⟩ fun s hne hs hprefix => ?_
  match s, hne with
  | [d], _ =>
    have hlast : [0x0d, 0x0a] <+: [d, 0x0d] ++ (0x0a :: rest) := hprefix
    simp at hlast
  | d :: e :: s, _ =>
    have hcr : crlf <+: d :: e :: s := by
      have hlong : [0x0d, 0x0a] <+: d :: e :: (s ++ (crlf ++ rest)) := hprefix
      simp only [List.cons_prefix_cons, List.nil_prefix, and_true] at hlong
      obtain ⟨rfl, rfl⟩ := hlong
      exact List.prefix_append [0x0d, 0x0a] s
    exact hnot (hcr.isInfix.trans hs.isInfix)

/-- What a request comes to, whatever is behind it. -/
def requestParsed (req : List (List UInt8)) : Parsed :=
  let data := requestData req
  let more :=
    if req.flatten.length ≤ maxReqLength ∧ req.length ≤ reqQueuelen then Parsed.inprogress
    else .arg
  if minReqLen ≤ data.length ∧ (inFront crlf data).isSome then
    if data.take 4 = getMethod then
      match inFront [0x20] (data.drop 4) with
      | some uri => .findFile uri false
      | none =>
        match inFront crlf (data.drop 4) with
        | some uri => .findFile uri true
        | none => more
    else .arg
  else more

/-- **`http_parse_request`** reads at most one byte behind the data. -/
theorem httpParseRequest_eq (behind : UInt8) (req : List (List UInt8)) :
    httpParseRequest behind req = some (requestParsed req) := by
  unfold httpParseRequest requestParsed
  dsimp only
  generalize requestData req = data
  generalize (if req.flatten.length ≤ maxReqLength ∧ req.length ≤ reqQueuelen then
    Parsed.inprogress else Parsed.arg) = more
  have hcrlf : ∀ s : List UInt8, strnstr crlf s.length (s ++ [behind]) = some (inFront crlf s) :=
    fun s => strnstr_eq (List.cons_ne_nil _ _) (by simp [crlf]) (by simp)
  have hspace : ∀ s : List UInt8,
      strnstr [0x20] s.length (s ++ [behind]) = some (inFront [0x20] s) :=
    fun s => strnstr_eq (List.cons_ne_nil _ _) (Nat.le_refl 2) (by simp)
  by_cases hlen : data.length < minReqLen
  · rw [if_pos hlen, if_neg fun h => Nat.not_le_of_lt hlen h.1]
    rfl
  have hle := Nat.not_lt.mp hlen
  rw [if_neg hlen, hcrlf]
  cases inFront crlf data with
  | none =>
    have hnot : ¬ (minReqLen ≤ data.length ∧ (none : Option (List UInt8)).isSome = true) :=
      fun h => Bool.false_ne_true h.2
    rw [if_neg hnot]
    rfl
  | some line =>
    have hfound : minReqLen ≤ data.length ∧ (some line).isSome = true := ⟨hle, rfl⟩
    have htail : (data ++ [behind]).drop 4 = data.drop 4 ++ [behind] :=
      List.drop_append_of_le_length (Nat.le_trans (by decide) hle)
    rw [if_pos hfound, htail, ← List.length_drop, hspace, hcrlf]
    by_cases hget : data.take 4 = getMethod
    · rw [if_pos hget]
      simp only [hget, ne_eq, not_true_eq_false, if_false]
      cases inFront [0x20] (data.drop 4) with
      | some uri => rfl
      | none => cases inFront crlf (data.drop 4) <;> rfl
    · rw [if_neg hget]
      exact if_pos hget

/-! ## Lines -/

/-- A request line without its end, of HTTP/1.x or of HTTP/0.9. -/
inductive Line where
  | http1 (uri version : List UInt8)
  | http09 (uri : List UInt8)

/-- What is behind the method. -/
def Line.tail : Line → List UInt8
  | .http1 uri version => uri ++ 0x20 :: version
  | .http09 uri => uri

def Line.uri : Line → List UInt8
  | .http1 uri _ => uri
  | .http09 uri => uri

/-- The line with its end. -/
def Line.bytes (l : Line) : List UInt8 := getMethod ++ (l.tail ++ crlf)

/-- What the request is for. -/
def Line.parsed (l : Line) : Parsed :=
  match l with
  | .http1 uri _ => .findFile uri false
  | .http09 uri => .findFile uri true

/-- A line that can be read: no NUL, no space in the URI and no other end of a line, and short
enough; what follows a line of HTTP/0.9 has no space. -/
structure Line.Ok (l : Line) (rest : List UInt8) : Prop where
  clean : 0 ∉ l.tail
  oneLine : ¬ crlf <:+: l.tail
  noSpace : 0x20 ∉ l.uri
  long : minReqLen ≤ l.bytes.length
  short : l.bytes.length ≤ maxReqLength
  alone : (∃ uri, l = .http09 uri) → 0x20 ∉ rest

theorem requestData_starts (req : List (List UInt8)) : requestData req <+: req.flatten := by
  unfold requestData
  split
  · simp only [List.flatten_singleton, List.prefix_rfl]
  · exact List.take_prefix ..

/-- A line at the front is not cut off. -/
theorem prefix_requestData {req : List (List UInt8)} {line : List UInt8}
    (hreq : line <+: req.flatten) (hshort : line.length ≤ maxReqLength) :
    line <+: requestData req := by
  unfold requestData
  split
  · rwa [List.flatten_singleton] at hreq
  · rw [List.prefix_take_iff]
    exact ⟨hreq, hshort⟩

theorem not_infix_cr {s : List UInt8} (h : ¬ crlf <:+: s) : ¬ crlf <:+: s ++ [0x0d] := by
  rw [List.infix_concat_iff, not_or]
  refine ⟨fun hsuffix => ?_, h⟩
  rcases List.suffix_concat_iff.mp hsuffix with hnil | ⟨t, ht, -⟩
  · cases hnil
  · have hlast := congrArg List.getLast? ht
    simp [crlf] at hlast

section Line
variable {l : Line} {rest : List UInt8} (h : l.Ok rest) {behind : UInt8} {req : List (List UInt8)}
include h

/-- While the line is not complete. -/
theorem httpParseRequest_unfinished (hreq : req.flatten <+: l.bytes)
    (hlt : req.flatten.length < l.bytes.length) (hqueue : req.length ≤ reqQueuelen) :
    httpParseRequest behind req = some .inprogress := by
  have hnone : inFront crlf (requestData req) = none := by
    refine inFront_none fun hpart => ?_
    have hall : l.bytes = (getMethod ++ (l.tail ++ [0x0d])) ++ [0x0a] := by
      simp only [Line.bytes, crlf, List.append_assoc, List.cons_append, List.nil_append]
    rw [hall, List.prefix_concat_iff] at hreq
    have hfront : req.flatten <+: getMethod ++ (l.tail ++ [0x0d]) := by
      refine hreq.resolve_left fun heq => ?_
      rw [heq, ← hall] at hlt
      exact Nat.lt_irrefl _ hlt
    have hline := hpart.trans ((requestData_starts req).trans hfront).isInfix
    -- no byte of the method is part of the end of a line
    have hmethod : crlf <:+: l.tail ++ [0x0d] := by
      simpa [getMethod, crlf, List.infix_cons_iff] using hline
    exact not_infix_cr h.oneLine hmethod
  have hlen := h.short
  rw [httpParseRequest_eq, requestParsed]
  rw [hnone, if_neg (by simp), if_pos ⟨by omega, hqueue⟩]

/-- With the whole line at the front. -/
theorem httpParseRequest_line (hreq : l.bytes <+: req.flatten)
    (hall : req.flatten <+: l.bytes ++ rest) : httpParseRequest behind req = some l.parsed := by
  obtain ⟨more, hmore⟩ := prefix_requestData hreq h.short
  have hrest : more <+: rest := by
    have hdata := (requestData_starts req).trans hall
    rw [← hmore] at hdata
    exact (List.prefix_append_right_inj _).mp hdata
  have hdata : requestData req = getMethod ++ (l.tail ++ (crlf ++ more)) := by
    rw [← hmore, Line.bytes, List.append_assoc, List.append_assoc]
  have hmethod : (requestData req).take 4 = getMethod ∧
      (requestData req).drop 4 = l.tail ++ (crlf ++ more) := by
    rw [hdata]
    exact ⟨rfl, rfl⟩
  have hsome : (inFront crlf (requestData req)).isSome = true := by
    have hline : 0 ∉ getMethod ++ l.tail := by
      rw [List.mem_append, not_or]
      exact ⟨by decide, h.clean⟩
    have hone : ¬ crlf <:+: getMethod ++ l.tail := by
      intro hpart
      exact h.oneLine (by simpa [getMethod, crlf, List.infix_cons_iff] using hpart)
    rw [hdata, ← List.append_assoc, inFront_crlf hline hone]
    rfl
  have hlong : minReqLen ≤ (requestData req).length := by
    rw [← hmore, List.length_append]
    exact Nat.le_add_right_of_le h.long
  rw [httpParseRequest_eq, requestParsed]
  rw [if_pos ⟨hlong, hsome⟩, if_pos hmethod.1, hmethod.2]
  cases l with
  | http1 uri version =>
    have huri : 0 ∉ uri := fun hmem => h.clean (List.mem_append_left _ hmem)
    have hsplit : (Line.http1 uri version).tail ++ (crlf ++ more) =
        uri ++ 0x20 :: (version ++ (crlf ++ more)) := by
      rw [Line.tail, List.append_assoc, List.cons_append]
    rw [hsplit, inFront_char (by decide) huri h.noSpace]
    rfl
  | http09 uri =>
    have hspace : (0x20 : UInt8) ∉ uri ++ (crlf ++ more) := by
      rw [List.mem_append, List.mem_append, not_or, not_or]
      exact ⟨h.noSpace, by decide, fun hmem => h.alone ⟨uri, rfl⟩ (hrest.subset hmem)⟩
    have hnone : inFront [0x20] ((Line.http09 uri).tail ++ (crlf ++ more)) = none :=
      inFront_none fun hpart => hspace (hpart.subset (List.mem_singleton_self _))
    rw [hnone]
    dsimp only
    rw [inFront_crlf h.clean h.oneLine]
    rfl

end Line

theorem collect_spec {l : Line} {rest : List UInt8} (h : l.Ok rest)
    (behind : List (List UInt8) → UInt8) (chains : List (List (List UInt8)))
    {req : List (List UInt8)}
    (hbytes : (req ++ chains.flatten).flatten = l.bytes ++ rest)
    (hlt : req.flatten.length < l.bytes.length)
    (hqueue : ∀ pbufs, pbufs <+: req ++ chains.flatten →
      pbufs.flatten.length < l.bytes.length → pbufs.length ≤ reqQueuelen) :
    (collect behind req chains).map Prod.fst = some l.parsed := by
  induction chains generalizing req with
  | nil =>
    rw [List.flatten_nil, List.append_nil] at hbytes
    rw [hbytes, List.length_append] at hlt
    omega
  | cons p ps ih =>
    have hsame : req ++ (p :: ps).flatten = (req ++ p) ++ ps.flatten := by
      rw [List.flatten_cons, List.append_assoc]
    rw [hsame] at hbytes hqueue
    have hprefix : (req ++ p).flatten <+: l.bytes ++ rest :=
      ⟨ps.flatten.flatten, by rw [← hbytes, ← List.flatten_append]⟩
    rw [collect]
    by_cases hmore : (req ++ p).flatten.length < l.bytes.length
    · have hfront := List.prefix_of_prefix_length_le hprefix (List.prefix_append ..) hmore.le
      rw [httpParseRequest_unfinished h hfront hmore
        (hqueue _ (List.prefix_append ..) hmore)]
      exact ih hbytes hmore hqueue
    · have hline := List.prefix_of_prefix_length_le (List.prefix_append l.bytes rest) hprefix
        (Nat.not_lt.mp hmore)
      rw [httpParseRequest_line h hline hprefix]
      cases l <;> rfl

/-- **A request line** comes out the same in whatever pieces it arrives, when no more than ten
of them are needed to complete it. -/
theorem collect_line {l : Line} {rest : List UInt8} (h : l.Ok rest)
    (behind : List (List UInt8) → UInt8) {chains : List (List (List UInt8))}
    (hbytes : chains.flatten.flatten = l.bytes ++ rest)
    (hqueue : ∀ pbufs, pbufs <+: chains.flatten → pbufs.flatten.length < l.bytes.length →
      pbufs.length ≤ reqQueuelen) :
    (collect behind [] chains).map Prod.fst = some l.parsed :=
  collect_spec h behind chains hbytes (Nat.lt_of_lt_of_le (by decide) h.long) hqueue

/-- `GET / HTTP/1.0` in three pieces, the last of them with a header. -/
theorem collect_line_pieces :
    (collect (fun _ => 0x20) []
      [[[0x47, 0x45]], [[0x54, 0x20, 0x2f], [0x20, 0x48, 0x54, 0x54, 0x50, 0x2f, 0x31]],
        [[0x2e, 0x30, 0x0d, 0x0a, 0x41, 0x3a, 0x20, 0x42, 0x0d, 0x0a]]]).map Prod.fst =
      some (.findFile [0x2f] false) := by
  let l : Line := .http1 [0x2f] [0x48, 0x54, 0x54, 0x50, 0x2f, 0x31, 0x2e, 0x30]
  have hok : l.Ok [0x41, 0x3a, 0x20, 0x42, 0x0d, 0x0a] :=
    ⟨by decide, by decide, by decide, by decide, by decide, nofun⟩
  exact collect_line hok _ rfl fun pbufs hpbufs _ => hpbufs.length_le.trans (by decide)

end Generalplate.Httpd
