import Generalplate.Lib.EventRun
import Generalplate.Lib.Slots
import Generalplate.Httpd.Files
import Generalplate.Httpd.Stream

/-! # The server

The callbacks of any number of connections, in any order. A connection collects its request,
has one file open while it sends it, and gives the slot of the file back when it is closed,
whatever closes it: the end of the file, the other side, an error, or four polls in which
nothing was acknowledged. -/
namespace Generalplate.Httpd
open Lwip Lib

/-- A file that is open: its slot, the request it is for, and the state of sending it. -/
structure Opened where
  slot : Nat
  uri : List UInt8
  is09 : Bool
  http : Http

/-- `struct http_state` -/
structure HttpConn where
  retries : Nat
  req : List (List UInt8)
  file : Option Opened

/-- `http_state_alloc` -/
def HttpConn.alloc : HttpConn := ⟨0, [], none⟩

/-- A connection: none, one with its callbacks set and the bytes sent on it, or one whose
callbacks are taken back while `tcp_close` has still to succeed in a poll. `clock` is what
there is to read at its tags. -/
inductive Conn where
  | free
  | live (hs : HttpConn) (clock : Nat → Readings) (out : List UInt8)
  | closing

/-- A response that was sent to the end of its file. -/
structure Served where
  uri : List UInt8
  is09 : Bool
  clock : Nat → Readings
  out : List UInt8

structure Server where
  inuse : List Bool
  outputs : Outputs
  conns : Nat → Conn
  served : List Served

/-- `fs_memory` and the connections at the start, with the LED and the beeper as they are. -/
def Server.init (o : Outputs) : Server := ⟨List.replicate maxOpenFiles false, o, fun _ => .free, []⟩

/-- The callbacks of connection `i`. `attempt` is what the stack has to say in one, `closes`
whether a `tcp_close` in it succeeds, and `behind` the byte behind a request that is parsed. -/
inductive Event where
  | accept (i : Nat) (memory : Bool) (clock : Nat → Readings)
  | recv (i : Nat) (p : Option (List (List UInt8))) (behind : UInt8) (err : ErrT)
      (attempt : Attempt) (closes : Bool)
  | sent (i : Nat) (attempt : Attempt) (closes : Bool)
  | poll (i : Nat) (attempt : Attempt) (closes : Bool)
  | err (i : Nat)

/-- `HTTPD_MAX_RETRIES` -/
def maxRetries : Nat := 4

def Server.setConn (s : Server) (i : Nat) (c : Conn) : Server :=
  { s with conns := Function.update s.conns i c }

/-- `http_state_free` on the slots. -/
def httpStateFree (hs : HttpConn) (inuse : List Bool) : List Bool :=
  match hs.file with
  | some o => fsFree o.slot inuse
  | none => inuse

/-- `http_close_conn` -/
def Server.closeConn (s : Server) (i : Nat) (hs : HttpConn) (closes : Bool) : Server :=
  { s with inuse := httpStateFree hs s.inuse }.setConn i (if closes then .free else .closing)

/-- `http_send_data`; without a file the connection is closed. -/
def Server.sendData (s : Server) (i : Nat) (hs : HttpConn) (clock : Nat → Readings)
    (out : List UInt8) (attempt : Attempt) (closes : Bool) : Option Server :=
  match hs.file with
  | none => some (s.closeConn i hs closes)
  | some o =>
    (httpSendData clock o.http (attempt.pcb out)).map fun r =>
      if r.closed then
        { s with served := ⟨o.uri, o.is09, clock, r.pcb.out⟩ :: s.served }.closeConn i hs closes
      else s.setConn i (.live { hs with file := some { o with http := r.hs } } clock r.pcb.out)

/-- `http_find_file` and `http_init_file` on the connection. -/
def Server.findFile (root : List FsdataFile) (s : Server) (hs : HttpConn) (uri : List UInt8)
    (is09 : Bool) : Option (Server × HttpConn) :=
  (cgi uri s.outputs).map fun (uri, outputs) =>
    let (found, inuse) := httpFindFile root uri s.inuse
    let file := found.map fun f =>
      (⟨f.slot, uri, is09, .init f.file.data (f.file.start is09) f.tagCheck⟩ : Opened)
    ({ s with inuse := inuse, outputs := outputs }, { hs with file := file, retries := 0 })

/-- `http_recv` of `p`. The request is given up or parsed when `http_parse_request` is done
with it. -/
def Server.recv (root : List FsdataFile) (s : Server) (i : Nat) (hs : HttpConn)
    (clock : Nat → Readings) (out : List UInt8) (p : List (List UInt8)) (behind : UInt8)
    (attempt : Attempt) (closes : Bool) : Option Server :=
  if hs.file.isSome then some (s.setConn i (.live { hs with req := [] } clock out))
  else
    (httpParseRequest behind (hs.req ++ p)).bind fun
    | .inprogress => some (s.setConn i (.live { hs with req := hs.req ++ p } clock out))
    | .arg => some (s.closeConn i { hs with req := [] } closes)
    | .findFile uri is09 =>
      (s.findFile root { hs with req := [] } uri is09).bind fun (s, hs) =>
        s.sendData i hs clock out attempt closes

/-- A callback; none when it faults. Those a connection has not set do nothing. -/
def Server.step (root : List FsdataFile) : Event → Server → Option Server
  | .accept i memory clock, s =>
    match s.conns i with
    | .free => some (if memory then s.setConn i (.live .alloc clock []) else s)
    | _ => some s
  | .recv i p behind err attempt closes, s =>
    match s.conns i with
    | .live hs clock out =>
      match p with
      | some p =>
        if err = .ok then s.recv root i hs clock out p behind attempt closes
        else some (s.closeConn i hs closes)
      | none => some (s.closeConn i hs closes)
    | _ => some s
  | .sent i attempt closes, s =>
    match s.conns i with
    | .live hs clock out => s.sendData i { hs with retries := 0 } clock out attempt closes
    | _ => some s
  | .poll i attempt closes, s =>
    match s.conns i with
    | .live hs clock out =>
      let hs := { hs with retries := hs.retries + 1 }
      if hs.retries = maxRetries then some (s.closeConn i hs closes)
      else if hs.file.isSome then s.sendData i hs clock out attempt closes
      else some (s.setConn i (.live hs clock out))
    | .closing => some (s.setConn i (if closes then .free else .closing))
    | .free => some s
  | .err i, s =>
    match s.conns i with
    | .live hs _ _ => some ({ s with inuse := httpStateFree hs s.inuse }.setConn i .free)
    | _ => some (s.setConn i .free)

/-! ## What holds of the server -/

/-- The page of a request. -/
def pageOf (root : List FsdataFile) (uri : List UInt8) (is09 : Bool) (clock : Nat → Readings) :
    Option (List UInt8) :=
  (lookup root (candidates uri)).map fun (f, tagCheck) =>
    if tagCheck then page clock (f.start is09) f.data else f.data.drop (f.start is09)

/-- No file ends with its header. -/
def HasBodies (root : List FsdataFile) : Prop :=
  ∀ f ∈ root, ∀ is09, f.start is09 = 0 ∨ f.start is09 < f.data.length

def Conn.slot : Conn → Option Nat
  | .live hs _ _ => hs.file.map Opened.slot
  | _ => none

/-- The file that is open is the one of its request, and `out` is sent of it. -/
def Opened.Ok (root : List FsdataFile) (clock : Nat → Readings) (out : List UInt8) (o : Opened) :
    Prop :=
  ∃ f tagCheck, lookup root (candidates o.uri) = some (f, tagCheck) ∧ o.http.data = f.data ∧
    o.http.tagCheck = tagCheck ∧ o.http.Serving clock (f.start o.is09) out

/-- There are polls to come, and nothing is sent without a file. -/
structure HttpConn.Ok (root : List FsdataFile) (clock : Nat → Readings) (out : List UInt8)
    (hs : HttpConn) : Prop where
  retries : hs.retries < maxRetries
  file : match hs.file with
    | some o => o.Ok root clock out
    | none => out = []

def Conn.Ok (root : List FsdataFile) : Conn → Prop
  | .live hs clock out => hs.Ok root clock out
  | _ => True

structure Server.Inv (root : List FsdataFile) (s : Server) : Prop where
  slots : Slots.Owned s.inuse fun i => (s.conns i).slot
  size : s.inuse.length = maxOpenFiles
  conns : ∀ i, (s.conns i).Ok root
  served : HasBodies root → ∀ r ∈ s.served, pageOf root r.uri r.is09 r.clock = some r.out

section Inv
variable {root : List FsdataFile} {s : Server} {i : Nat} {hs : HttpConn}
  {clock : Nat → Readings} {out : List UInt8}

theorem Server.Inv.init (root : List FsdataFile) (o : Outputs) : (Server.init o).Inv root :=
  ⟨Slots.Owned.empty maxOpenFiles, List.length_replicate, fun _ => trivial, fun _ _ hr =>
    absurd hr List.not_mem_nil⟩

theorem lookup_mem {names : List (List UInt8 × Bool)} {f : FsdataFile} {tagCheck : Bool}
    (h : lookup root names = some (f, tagCheck)) : f ∈ root := by
  obtain ⟨_, -, hname⟩ := List.exists_of_findSome?_eq_some h
  obtain ⟨g, hg, hpair⟩ := Option.map_eq_some_iff.mp hname
  cases hpair
  exact List.mem_of_find?_eq_some hg

/-- The slots with a connection changed. -/
theorem Server.slot_setConn (s : Server) (i : Nat) (c : Conn) :
    (fun j => ((s.setConn i c).conns j).slot) =
      Function.update (fun j => (s.conns j).slot) i c.slot :=
  funext fun j => Function.apply_update (fun _ => Conn.slot) s.conns i c j

theorem Server.slot_live (s : Server) (i : Nat) (hs : HttpConn) (clock : Nat → Readings)
    (out : List UInt8) :
    ((s.setConn i (.live hs clock out)).conns i).slot = hs.file.map Opened.slot := by
  have hconn : (s.setConn i (.live hs clock out)).conns i = .live hs clock out :=
    Function.update_self ..
  rw [hconn]
  rfl

theorem Server.conns_setConn {c : Conn} (h : ∀ j, (s.conns j).Ok root) (hc : c.Ok root) (j : Nat) :
    ((s.setConn i c).conns j).Ok root :=
  EventRun.place_update (h j) fun _ => hc

/-- A connection goes on with the slot it has. -/
theorem Server.Inv.setConn {c : Conn} (h : s.Inv root) (hslot : c.slot = (s.conns i).slot)
    (hc : c.Ok root) : (s.setConn i c).Inv root where
  slots := by
    rw [Server.slot_setConn, hslot, Function.update_eq_self i fun j => (s.conns j).slot]
    exact h.slots
  size := h.size
  conns := Server.conns_setConn h.conns hc
  served := h.served

/-- The slot of a connection is free behind it. -/
theorem Server.Inv.free {c : Conn} (h : s.Inv root)
    (hslot : (s.conns i).slot = hs.file.map Opened.slot) (hc : c.slot = none) (hok : c.Ok root) :
    ({ s with inuse := httpStateFree hs s.inuse }.setConn i c).Inv root where
  slots := by
    rw [Server.slot_setConn, hc]
    show Slots.Owned (httpStateFree hs s.inuse) _
    unfold httpStateFree
    cases hfile : hs.file with
    | none =>
      rw [hfile] at hslot
      have hsame := Function.update_eq_self i fun j => (s.conns j).slot
      rw [hslot] at hsame
      exact hsame.symm ▸ h.slots
    | some o =>
      rw [hfile] at hslot
      exact h.slots.give hslot
  size := by
    have hsize := h.size
    show (httpStateFree hs s.inuse).length = _
    unfold httpStateFree
    cases hs.file with
    | none => exact hsize
    | some o => exact List.length_set.trans hsize
  conns := Server.conns_setConn h.conns hok
  served := h.served

theorem Server.Inv.closeConn (h : s.Inv root)
    (hslot : (s.conns i).slot = hs.file.map Opened.slot) (closes : Bool) :
    (s.closeConn i hs closes).Inv root := by
  unfold Server.closeConn
  cases closes with
  | true => exact h.free hslot rfl trivial
  | false => exact h.free hslot rfl trivial

/-- The connection is overwritten by `http_send_data`. -/
theorem Server.sendData_setConn (s : Server) (i : Nat) (c : Conn) (hs : HttpConn)
    (clock : Nat → Readings) (out : List UInt8) (attempt : Attempt) (closes : Bool) :
    (s.setConn i c).sendData i hs clock out attempt closes =
      s.sendData i hs clock out attempt closes := by
  have hsame : ∀ (inuse : List Bool) (served : List Served) (d : Conn),
      ({ s.setConn i c with inuse := inuse, served := served } : Server).setConn i d =
        ({ s with inuse := inuse, served := served } : Server).setConn i d := by
    intro inuse served d
    simp only [Server.setConn, Function.update_idem]
  unfold Server.sendData Server.closeConn
  cases hs.file with
  | none => exact congrArg some (hsame _ _ _)
  | some o =>
    refine congrArg (Option.map · _) (funext fun r => ?_)
    by_cases hclosed : r.closed = true
    · rw [if_pos hclosed, if_pos hclosed]
      exact hsame _ _ _
    · rw [if_neg hclosed, if_neg hclosed]
      exact hsame _ _ _

/-- A response at the end of its file is the page. -/
theorem Opened.Ok.sent_all (hroot : HasBodies root) {o : Opened} (h : o.Ok root clock out)
    (hleft : o.http.left = 0) : pageOf root o.uri o.is09 clock = some out := by
  obtain ⟨f, tagCheck, hlookup, hdata, hcheck, hserving⟩ := h
  have hbody := hroot f (lookup_mem hlookup) o.is09
  rw [← hdata] at hbody
  rw [pageOf, hlookup, Option.map_some, hserving.sent_all hleft hbody, Http.target, hdata, hcheck]

theorem Server.Inv.sendData (h : s.Inv root) (hslot : (s.conns i).slot = hs.file.map Opened.slot)
    (hok : hs.Ok root clock out) (attempt : Attempt) (closes : Bool) :
    ∃ s', s.sendData i hs clock out attempt closes = some s' ∧ s'.Inv root := by
  unfold Server.sendData
  cases hfile : hs.file with
  | none => exact ⟨_, rfl, h.closeConn (hslot.trans (by rw [hfile])) closes⟩
  | some o =>
    have hopen := hok.file
    rw [hfile] at hopen
    obtain ⟨f, tagCheck, hlookup, hdata, hcheck, hserving⟩ := hopen
    obtain ⟨r, hsend, hdata', hcheck', hserving', -, hleft, -⟩ :=
      @httpSendData_spec _ _ _ (attempt.pcb out) hserving
    have hok' : ({ o with http := r.hs } : Opened).Ok root clock r.pcb.out :=
      ⟨f, tagCheck, hlookup, hdata'.trans hdata, hcheck'.trans hcheck, hserving'⟩
    dsimp only
    rw [hsend, Option.map_some]
    refine ⟨_, rfl, ?_⟩
    by_cases hclosed : r.closed = true
    · rw [if_pos hclosed]
      have hinv : ({ s with served := ⟨o.uri, o.is09, clock, r.pcb.out⟩ :: s.served } : Server).Inv
          root := { h with
        served := fun hroot => List.forall_mem_cons.mpr
          ⟨hok'.sent_all hroot (hleft hclosed), h.served hroot⟩ }
      exact hinv.closeConn hslot closes
    · rw [if_neg hclosed]
      refine h.setConn ?_ ⟨hok.retries, hok'⟩
      rw [hslot, hfile]
      rfl

/-- **A request is complete**: the file it is for is open, or the connection is closed. -/
theorem Server.Inv.findFile (h : s.Inv root) (hi : s.conns i = .live hs clock out)
    (hfile : hs.file = none) (uri : List UInt8) (is09 : Bool) (attempt : Attempt) (closes : Bool) :
    cgi uri s.outputs = none ∧ s.findFile root { hs with req := [] } uri is09 = none ∨
      ∃ s1 hs1 s', s.findFile root { hs with req := [] } uri is09 = some (s1, hs1) ∧
        s1.sendData i hs1 clock out attempt closes = some s' ∧ s'.Inv root := by
  have hslot : (s.conns i).slot = none := by
    rw [hi, Conn.slot, hfile]
    rfl
  have hout : out = [] := by
    have hconn := h.conns i
    rw [hi] at hconn
    have hnone := hconn.file
    rw [hfile] at hnone
    exact hnone
  unfold Server.findFile
  cases hcgi : cgi uri s.outputs with
  | none => exact Or.inl ⟨rfl, rfl⟩
  | some r =>
    obtain ⟨uri', outputs⟩ := r
    refine Or.inr ?_
    rw [Option.map_some]
    dsimp only
    rcases httpFindFile_cases root uri' s.inuse with hfind | ⟨k, f, tagCheck, hfree, hlookup, hfind⟩
    · rw [hfind]
      have hinv : ({ s with outputs := outputs } : Server).Inv root := { h with }
      have hnone : (s.conns i).slot = (HttpConn.mk 0 [] none).file.map Opened.slot := hslot
      obtain ⟨s', hsend, hinv'⟩ :=
        hinv.sendData hnone ⟨Nat.zero_lt_succ 3, hout⟩ attempt closes
      exact ⟨_, _, s', rfl, hsend, hinv'⟩
    · rw [hfind]
      dsimp only [Option.map_some]
      generalize ho : (⟨k, uri', is09, .init f.data (f.start is09) tagCheck⟩ : Opened) = o
      have hslot' : o.slot = k := by rw [← ho]
      have hopen : o.Ok root clock out := by
        rw [← ho, hout]
        exact ⟨f, tagCheck, hlookup, rfl, rfl, Http.serving_init (f.start_le is09) tagCheck⟩
      have hok : (HttpConn.mk 0 [] (some o)).Ok root clock out := ⟨Nat.zero_lt_succ 3, hopen⟩
      have hinv : ({ s with inuse := s.inuse.set k true, outputs := outputs }.setConn i
          (.live ⟨0, [], some o⟩ clock out) : Server).Inv root := by
        refine ⟨?_, List.length_set.trans h.size, Server.conns_setConn h.conns hok, h.served⟩
        rw [Server.slot_setConn]
        show Slots.Owned (s.inuse.set k true) (Function.update _ i (some o.slot))
        rw [hslot']
        exact h.slots.take hfree hslot
      obtain ⟨s', hsend, hinv'⟩ :=
        hinv.sendData (Server.slot_live _ i ⟨0, [], some o⟩ clock out) hok attempt closes
      rw [Server.sendData_setConn] at hsend
      exact ⟨_, _, s', rfl, hsend, hinv'⟩

/-- `http_recv` with data. -/
theorem Server.Inv.recv (h : s.Inv root) (hi : s.conns i = .live hs clock out)
    (p : List (List UInt8)) (behind : UInt8) (attempt : Attempt) (closes : Bool) :
    s.recv root i hs clock out p behind attempt closes = none ∧
        (hs.file = none ∧ ∃ uri is09,
          requestParsed (hs.req ++ p) = .findFile uri is09 ∧ cgi uri s.outputs = none) ∨
      ∃ s', s.recv root i hs clock out p behind attempt closes = some s' ∧ s'.Inv root := by
  have hslot : (s.conns i).slot = hs.file.map Opened.slot := congrArg Conn.slot hi
  have hconn := h.conns i
  rw [hi] at hconn
  unfold Server.recv
  by_cases hfile : hs.file.isSome = true
  · rw [if_pos hfile]
    exact Or.inr ⟨_, rfl, h.setConn hslot.symm ⟨hconn.retries, hconn.file⟩⟩
  rw [if_neg hfile]
  have hnone : hs.file = none := by simpa using hfile
  rw [httpParseRequest_eq, Option.bind_some]
  cases hparse : requestParsed (hs.req ++ p) with
  | inprogress => exact Or.inr ⟨_, rfl, h.setConn hslot.symm ⟨hconn.retries, hconn.file⟩⟩
  | arg => exact Or.inr ⟨_, rfl, h.closeConn hslot closes⟩
  | findFile uri is09 =>
    dsimp only
    rcases h.findFile hi hnone uri is09 attempt closes with
      ⟨hcgi, hfind⟩ | ⟨s1, hs1, s', hfind, hsend, hinv⟩
    · rw [hfind]
      exact Or.inl ⟨rfl, hnone, uri, is09, rfl, hcgi⟩
    · rw [hfind]
      exact Or.inr ⟨s', hsend, hinv⟩

end Inv

/-- The callback completes a request with which a handler passes NULL to `strcmp`. -/
def Event.passesNull : Event → Server → Bool
  | .recv i (some p) behind .ok _ _, s =>
    match s.conns i with
    | .live hs _ _ =>
      match hs.file, httpParseRequest behind (hs.req ++ p) with
      | none, some (.findFile uri _) => cgi uri s.outputs = none
      | _, _ => false
    | _ => false
  | _, _ => false

/-- **One callback** keeps what holds, unless it faults in a handler. -/
theorem Server.Inv.step {root : List FsdataFile} {s : Server} (h : s.Inv root) (e : Event) :
    Server.step root e s = none ∧ e.passesNull s = true ∨
      ∃ s', Server.step root e s = some s' ∧ s'.Inv root := by
  have hstays : ∃ s', some s = some s' ∧ s'.Inv root := ⟨s, rfl, h⟩
  cases e with
  | accept i memory clock =>
    refine Or.inr ?_
    cases hi : s.conns i with
    | free =>
      simp only [Server.step, hi]
      refine ⟨_, rfl, ?_⟩
      cases memory with
      | true => exact h.setConn (congrArg Conn.slot hi).symm ⟨Nat.zero_lt_succ 3, rfl⟩
      | false => exact h
    | live hs clock out => simpa only [Server.step, hi] using hstays
    | closing => simpa only [Server.step, hi] using hstays
  | recv i p behind err attempt closes =>
    cases hi : s.conns i with
    | free => exact Or.inr (by simpa only [Server.step, hi] using hstays)
    | closing => exact Or.inr (by simpa only [Server.step, hi] using hstays)
    | live hs clock out =>
      have hclose : ∃ s', some (s.closeConn i hs closes) = some s' ∧ s'.Inv root :=
        ⟨_, rfl, h.closeConn (congrArg Conn.slot hi) closes⟩
      cases p with
      | none => exact Or.inr (by simpa only [Server.step, hi] using hclose)
      | some p =>
        by_cases herr : err = .ok
        · subst herr
          simp only [Server.step, Event.passesNull, hi, if_true]
          refine (h.recv hi p behind attempt closes).imp_left fun ⟨hnone, hfile, hnull⟩ =>
            ⟨hnone, ?_⟩
          obtain ⟨uri, is09, hparse, hcgi⟩ := hnull
          rw [hfile, httpParseRequest_eq, hparse]
          exact decide_eq_true hcgi
        · refine Or.inr ?_
          simp only [Server.step, hi]
          rw [if_neg herr]
          exact hclose
  | sent i attempt closes =>
    refine Or.inr ?_
    cases hi : s.conns i with
    | free => simpa only [Server.step, hi] using hstays
    | closing => simpa only [Server.step, hi] using hstays
    | live hs clock out =>
      have hconn := h.conns i
      rw [hi] at hconn
      have hslot : (s.conns i).slot =
          ({ hs with retries := 0 } : HttpConn).file.map Opened.slot := congrArg Conn.slot hi
      simp only [Server.step, hi]
      exact h.sendData hslot ⟨Nat.zero_lt_succ 3, hconn.file⟩ attempt closes
  | poll i attempt closes =>
    refine Or.inr ?_
    cases hi : s.conns i with
    | free => simpa only [Server.step, hi] using hstays
    | closing =>
      simp only [Server.step, hi]
      refine ⟨_, rfl, h.setConn ?_ ?_⟩
      · rw [hi]
        cases closes <;> rfl
      · cases closes <;> trivial
    | live hs clock out =>
      have hconn := h.conns i
      rw [hi] at hconn
      have hslot : (s.conns i).slot =
          ({ hs with retries := hs.retries + 1 } : HttpConn).file.map Opened.slot :=
        congrArg Conn.slot hi
      simp only [Server.step, hi]
      split
      · exact ⟨_, rfl, h.closeConn hslot closes⟩
      rename_i hmany
      have hok : ({ hs with retries := hs.retries + 1 } : HttpConn).Ok root clock out :=
        ⟨Nat.lt_of_le_of_ne hconn.retries hmany, hconn.file⟩
      split
      · exact h.sendData hslot hok attempt closes
      · exact ⟨_, rfl, h.setConn hslot.symm hok⟩
  | err i =>
    refine Or.inr ?_
    cases hi : s.conns i with
    | live hs clock out =>
      simp only [Server.step, hi]
      exact ⟨_, rfl, h.free (congrArg Conn.slot hi) rfl trivial⟩
    | free =>
      simp only [Server.step, hi]
      exact ⟨_, rfl, h.setConn (congrArg Conn.slot hi).symm trivial⟩
    | closing =>
      simp only [Server.step, hi]
      exact ⟨_, rfl, h.setConn (congrArg Conn.slot hi).symm trivial⟩

end Generalplate.Httpd
