import Mathlib.Data.List.Infix
import Generalplate.Httpd.Request
import Generalplate.Httpd.Send

/-! # The file of a request

`http_find_file` looks for the file of a URI, or for the page of an error, and takes one of
the ten slots of open files for it. What it finds does not depend on the slots as long as
one of them is free. -/
namespace Generalplate.Httpd
open Usmart (text)

/-- `struct fsdata_file`; a file that includes its header is not empty. -/
structure FsdataFile where
  name : List UInt8
  data : List UInt8
  httpHeaderIncluded : Bool
  header : httpHeaderIncluded = true → data ≠ []
deriving DecidableEq, Repr

/-- `LWIP_MAX_OPEN_FILES` -/
def maxOpenFiles : Nat := 10

/-- `fs_malloc` on the `inuse` of the slots. -/
def fsMalloc (inuse : List Bool) : Option (Nat × List Bool) :=
  (inuse.idxOf? false).map fun i => (i, inuse.set i true)

/-- `fs_free` and `fs_close` -/
def fsFree (i : Nat) (inuse : List Bool) : List Bool := inuse.set i false

/-- `fs_open` -/
def fsOpen (root : List FsdataFile) (name : List UInt8) (inuse : List Bool) :
    Option (Nat × FsdataFile) × List Bool :=
  match fsMalloc inuse with
  | none => (none, inuse)
  | some (i, inuse) =>
    match root.find? fun f => name = f.name with
    | some f => (some (i, f), inuse)
    | none => (none, fsFree i inuse)

/-- A file that `http_find_file` has open: its slot, whether it is looked through for tags, and
the file. -/
structure Found where
  slot : Nat
  tagCheck : Bool
  file : FsdataFile
deriving DecidableEq, Repr

/-- The first of the names, each with its `tag_check`, that can be opened. -/
def openFirst (root : List FsdataFile) :
    List (List UInt8 × Bool) → List Bool → Option Found × List Bool
  | [], inuse => (none, inuse)
  | (name, tagCheck) :: names, inuse =>
    match fsOpen root name inuse with
    | (some (i, f), inuse) => (some ⟨i, tagCheck, f⟩, inuse)
    | (none, inuse) => openFirst root names inuse

/-- `g_psDefaultFilenames` -/
def defaultFilenames : List (List UInt8 × Bool) :=
  [(text "/index.shtml", true), (text "/index.ssi", true), (text "/index.shtm", true),
    (text "/index.html", false), (text "/index.htm", false)]

/-- The names in `http_get_404_file`. -/
def names404 : List (List UInt8) := [text "/404.html", text "/404.htm", text "/404.shtml"]

/-- `g_pcSSIExtensions` -/
def ssiExtensions : List (List UInt8) := [text ".shtml", text ".shtm", text ".ssi", text ".xml"]

/-- The name has one of the extensions in it. -/
def hasTags (name : List UInt8) : Bool := ssiExtensions.any fun extension => extension <:+: name

/-- The URI behind the CGI handlers, none when a handler passes NULL to `strcmp`. -/
def cgi (uri : List UInt8) (o : Outputs) : Option (List UInt8 × Outputs) :=
  let (base, params) :=
    match strchr 0x3f uri with
    | some (base, params) => (base, some params)
    | none => (uri, none)
  if base = text "/leds.cgi" then
    (ledsCgiHandler (extractUriParameters params) o).map fun (o, page) => (text page, o)
  else if base = text "/beep.cgi" then
    (beepCgiHandler (extractUriParameters params) o).map fun (o, page) => (text page, o)
  else some (uri, o)

/-- `http_find_file` of a URI behind the CGI handlers, up to `http_init_file`. -/
def httpFindFile (root : List FsdataFile) (uri : List UInt8) (inuse : List Bool) :
    Option Found × List Bool :=
  if uri = [0x2f] then
    match openFirst root defaultFilenames inuse with
    | (some found, inuse) => (some found, inuse)
    | (none, inuse) => openFirst root (names404.map fun name => (name, false)) inuse
  else openFirst root ((uri :: names404).map fun name => (name, hasTags name)) inuse

/-- Where `http_init_file` starts a file: behind its header in a response to HTTP/0.9. -/
def FsdataFile.start (f : FsdataFile) (is09 : Bool) : Nat :=
  if f.httpHeaderIncluded && is09 then
    match strnstr (crlf ++ crlf) f.data.length f.data with
    | some (some header) => header.length + 4
    | _ => 0
  else 0

/-- The file that is looked up for a name, and whether it has tags. -/
def lookup (root : List FsdataFile) (names : List (List UInt8 × Bool)) :
    Option (FsdataFile × Bool) :=
  names.findSome? fun (name, tagCheck) =>
    (root.find? fun f => name = f.name).map (·, tagCheck)

/-- The names a URI stands for. -/
def candidates (uri : List UInt8) : List (List UInt8 × Bool) :=
  if uri = [0x2f] then defaultFilenames ++ names404.map fun name => (name, false)
  else (uri :: names404).map fun name => (name, hasTags name)

/-! ## Opening -/

section Open
variable {root : List FsdataFile} {inuse : List Bool} {i : Nat}

theorem fsMalloc_some {inuse' : List Bool} (h : fsMalloc inuse = some (i, inuse')) :
    inuse[i]? = some false ∧ inuse' = inuse.set i true := by
  obtain ⟨k, hk, hpair⟩ := Option.map_eq_some_iff.mp h
  cases hpair
  obtain ⟨hlt, hfalse, -⟩ := List.findIdx?_eq_some_iff_getElem.mp hk
  rw [List.getElem?_eq_getElem hlt, beq_iff_eq.mp hfalse]
  exact ⟨rfl, rfl⟩

theorem fsOpen_full (h : fsMalloc inuse = none) (name : List UInt8) :
    fsOpen root name inuse = (none, inuse) := by
  rw [fsOpen, h]

/-- With a free slot. -/
theorem fsOpen_free (h : fsMalloc inuse = some (i, inuse.set i true)) (name : List UInt8) :
    fsOpen root name inuse =
      match root.find? fun f => name = f.name with
      | some f => (some (i, f), inuse.set i true)
      | none => (none, inuse) := by
  have hfree := (fsMalloc_some h).1
  have hback : fsFree i (inuse.set i true) = inuse := by
    obtain ⟨hlt, hfalse⟩ := List.getElem?_eq_some_iff.mp hfree
    rw [fsFree, List.set_set, ← hfalse, List.set_getElem_self]
  rw [fsOpen, h]
  dsimp only
  rw [hback]

/-- Nothing is open without a slot. -/
theorem openFirst_full (h : fsMalloc inuse = none) (names : List (List UInt8 × Bool)) :
    openFirst root names inuse = (none, inuse) := by
  induction names with
  | nil => rfl
  | cons p names ih =>
    rw [openFirst, fsOpen_full h]
    exact ih

/-- **With a free slot** the file is the one that is looked up. -/
theorem openFirst_free (h : fsMalloc inuse = some (i, inuse.set i true))
    (names : List (List UInt8 × Bool)) :
    openFirst root names inuse =
      match lookup root names with
      | some (f, tagCheck) => (some ⟨i, tagCheck, f⟩, inuse.set i true)
      | none => (none, inuse) := by
  induction names with
  | nil => rfl
  | cons p names ih =>
    obtain ⟨name, tagCheck⟩ := p
    rw [openFirst, fsOpen_free h, lookup, List.findSome?_cons]
    dsimp only
    cases root.find? fun f => name = f.name with
    | none => exact ih
    | some f => rfl

theorem lookup_append (root : List FsdataFile) (names names' : List (List UInt8 × Bool)) :
    lookup root (names ++ names') = (lookup root names).or (lookup root names') :=
  List.findSome?_append

/-- **`http_find_file`** with a free slot. -/
theorem httpFindFile_free (h : fsMalloc inuse = some (i, inuse.set i true)) (uri : List UInt8) :
    httpFindFile root uri inuse =
      match lookup root (candidates uri) with
      | some (f, tagCheck) => (some ⟨i, tagCheck, f⟩, inuse.set i true)
      | none => (none, inuse) := by
  unfold httpFindFile candidates
  by_cases huri : uri = [0x2f]
  · rw [if_pos huri, if_pos huri, openFirst_free h, lookup_append]
    cases lookup root defaultFilenames with
    | none => exact openFirst_free h _
    | some r => rfl
  · rw [if_neg huri, if_neg huri, openFirst_free h]

theorem httpFindFile_full (h : fsMalloc inuse = none) (uri : List UInt8) :
    httpFindFile root uri inuse = (none, inuse) := by
  unfold httpFindFile
  split
  · rw [openFirst_full h]
    exact openFirst_full h _
  · exact openFirst_full h _

/-- A file that is found takes a free slot, and is the one that is looked up. -/
theorem httpFindFile_cases (root : List FsdataFile) (uri : List UInt8) (inuse : List Bool) :
    httpFindFile root uri inuse = (none, inuse) ∨
      ∃ i f tagCheck, inuse[i]? = some false ∧ lookup root (candidates uri) = some (f, tagCheck) ∧
        httpFindFile root uri inuse = (some ⟨i, tagCheck, f⟩, inuse.set i true) := by
  cases hmalloc : fsMalloc inuse with
  | none => exact Or.inl (httpFindFile_full hmalloc uri)
  | some r =>
    obtain ⟨i, inuse'⟩ := r
    obtain ⟨hfree, rfl⟩ := fsMalloc_some hmalloc
    rw [httpFindFile_free hmalloc]
    cases lookup root (candidates uri) with
    | none => exact Or.inl rfl
    | some r => exact Or.inr ⟨i, r.1, r.2, hfree, rfl, rfl⟩

end Open

theorem inFront_length {token s front : List UInt8} (h : inFront token s = some front) :
    front.length + token.length ≤ s.length := by
  induction s generalizing front with
  | nil => cases h
  | cons c s ih =>
    rw [inFront] at h
    split at h
    · cases h
    split at h
    · rename_i hprefix
      cases h
      rw [List.length_nil, Nat.zero_add]
      exact (List.isPrefixOf_iff_prefix.mp hprefix).length_le
    · obtain ⟨front', hfront, rfl⟩ := Option.map_eq_some_iff.mp h
      have hle := ih hfront
      rw [List.length_cons, List.length_cons]
      omega

/-- The end of the header is looked for in the file only. -/
theorem FsdataFile.strnstr_header (f : FsdataFile) (h : f.httpHeaderIncluded = true) :
    strnstr (crlf ++ crlf) f.data.length f.data = some (inFront (crlf ++ crlf) f.data) := by
  have hdata : f.data ++ [] ≠ [] := by
    rw [List.append_nil]
    exact f.header h
  have hfound := @strnstr_eq (crlf ++ crlf) f.data [] (List.cons_ne_nil _ _) (by decide) hdata
  rwa [List.append_nil] at hfound

/-- A file starts inside its data. -/
theorem FsdataFile.start_le (f : FsdataFile) (is09 : Bool) : f.start is09 ≤ f.data.length := by
  unfold FsdataFile.start
  split
  · rename_i hheader
    rw [f.strnstr_header (Bool.and_eq_true_iff.mp hheader).1]
    split
    · rename_i hfront
      exact inFront_length (Option.some.inj hfront)
    · exact Nat.zero_le _
  · exact Nat.zero_le _

end Generalplate.Httpd
