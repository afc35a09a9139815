import Generalplate.Httpd.Server

/-! # Runs of the server

What holds of the server behind any callbacks of any number of connections: the slots of its
files are never lost, what it sends are the pages of the requests, and a connection nothing is
heard of does not stay. -/
namespace Generalplate.Httpd
open Lwip Lib
open Usmart (text)

/-- A table with one file, `/index.html`. -/
def indexRoot : List FsdataFile :=
  [⟨text "/index.html", [0x48, 0x69], true, fun _ => List.cons_ne_nil _ _⟩]

/-- A connection asks for it, and there is room for a byte. -/
def indexCallbacks : List Event :=
  [.accept 0 true fun _ => ⟨1000, 2753, 0x123456, 0x142108⟩,
    .recv 0 (some [text "GET / HTTP/1.0\r\n"]) 0x20 .ok ⟨1, false, 536, [⟨.ok, 0, false⟩]⟩ true]

/-! ## Runs -/

section Run
variable {root : List FsdataFile} {o : Outputs} {es : List Event} {s : Server}

theorem Server.run_inv (h : EventRun.run (Server.step root) es (.init o) = some s) :
    s.Inv root := by
  refine EventRun.run_keeps (fun e s s' hinv hstep => ?_) (Server.Inv.init root o) h
  rcases hinv.step e with ⟨hnone, -⟩ | ⟨s1, hsome, hinv'⟩
  · rw [hnone] at hstep
    cases hstep
  · rw [hsome] at hstep
    cases hstep
    exact hinv'

/-- **The slots of the open files**: one is used just when a connection has its file in it, and
by no other one; without an open file all ten are free. -/
theorem server_slots (h : EventRun.run (Server.step root) es (.init o) = some s) :
    (∀ k, s.inuse[k]? = some true ↔ ∃ i, (s.conns i).slot = some k) ∧
      (∀ i j k, (s.conns i).slot = some k → (s.conns j).slot = some k → i = j) ∧
      s.inuse.length = maxOpenFiles ∧
      ((∀ i, (s.conns i).slot = none) → s.inuse = List.replicate maxOpenFiles false) := by
  have hinv := Server.run_inv h
  refine ⟨hinv.slots.held, hinv.slots.single, hinv.size, fun hnone => ?_⟩
  rw [← hinv.size]
  exact hinv.slots.all_free hnone

theorem server_slots_index :
    ∃ s, EventRun.run (Server.step indexRoot) indexCallbacks (.init ⟨true, false⟩) = some s ∧
      s.inuse[0]? = some true ∧
      (∀ k, s.inuse[k]? = some true ↔ ∃ i, (s.conns i).slot = some k) ∧
      (∀ i j k, (s.conns i).slot = some k → (s.conns j).slot = some k → i = j) ∧
      s.inuse.length = maxOpenFiles ∧
      ((∀ i, (s.conns i).slot = none) → s.inuse = List.replicate maxOpenFiles false) := by
  have hused : (EventRun.run (Server.step indexRoot) indexCallbacks (.init ⟨true, false⟩)).map
      (fun s => s.inuse[0]?) = some (some true) := by
    decide +kernel
  obtain ⟨s, hs, hzero⟩ := Option.map_eq_some_iff.mp hused
  exact ⟨s, hs, hzero, server_slots hs⟩

theorem Server.Inv.runs (hinv : s.Inv root)
    (h : EventRun.Throughout (Server.step root) (fun e s => e.passesNull s = false) es s) :
    ∃ s', EventRun.run (Server.step root) es s = some s' := by
  induction es generalizing s with
  | nil => exact ⟨s, rfl⟩
  | cons e es ih =>
    rcases hinv.step e with ⟨-, hnull⟩ | ⟨s1, hstep, hinv1⟩
    · rw [h.1] at hnull
      cases hnull
    · rw [EventRun.run_cons hstep]
      exact ih hinv1 (h.2 s1 hstep)

/-- **The server runs on** as long as no request makes a handler pass NULL to `strcmp`. -/
theorem server_runs
    (h : EventRun.Throughout (Server.step root) (fun e s => e.passesNull s = false) es (.init o)) :
    ∃ s, EventRun.run (Server.step root) es (.init o) = some s :=
  (Server.Inv.init root o).runs h

theorem server_runs_index :
    ∃ s, EventRun.run (Server.step indexRoot) indexCallbacks (.init ⟨true, false⟩) = some s :=
  server_runs (by decide +kernel)

end Run

/-! ## Silent connections -/

def Event.conn : Event → Nat
  | .accept i _ _ => i
  | .recv i _ _ _ _ _ => i
  | .sent i _ _ => i
  | .poll i _ _ => i
  | .err i => i

/-- The callback is a poll of the connection. -/
def Event.isPoll (i : Nat) : Event → Bool
  | .poll j _ _ => j = i
  | _ => false

/-- Nothing is heard of the connection: its only callbacks are polls and an error. -/
def Event.Silent (i : Nat) : Event → Prop
  | .accept j _ _ => j ≠ i
  | .recv j _ _ _ _ _ => j ≠ i
  | .sent j _ _ => j ≠ i
  | _ => True

section Silent
variable {root : List FsdataFile} {i j : Nat}

theorem Server.setConn_frame {s : Server} {c : Conn} (h : j ≠ i) :
    (s.setConn j c).conns i = s.conns i := Function.update_of_ne (Ne.symm h) ..

theorem Server.sendData_frame {s s' : Server} {hs : HttpConn} {clock : Nat → Readings}
    {out : List UInt8} {attempt : Attempt} {closes : Bool} (h : j ≠ i)
    (hsend : s.sendData j hs clock out attempt closes = some s') : s'.conns i = s.conns i := by
  unfold Server.sendData Server.closeConn at hsend
  split at hsend
  · cases hsend
    exact Server.setConn_frame h
  · obtain ⟨r, -, rfl⟩ := Option.map_eq_some_iff.mp hsend
    split
    · exact Server.setConn_frame h
    · exact Server.setConn_frame h

theorem Server.recv_other {s s' : Server} {hs : HttpConn} {clock : Nat → Readings}
    {out : List UInt8} {p : List (List UInt8)} {behind : UInt8} {attempt : Attempt}
    {closes : Bool} (h : j ≠ i)
    (hrecv : s.recv root j hs clock out p behind attempt closes = some s') :
    s'.conns i = s.conns i := by
  unfold Server.recv at hrecv
  split at hrecv
  · cases hrecv
    exact Server.setConn_frame h
  rw [httpParseRequest_eq, Option.bind_some] at hrecv
  split at hrecv
  · cases hrecv
    exact Server.setConn_frame h
  · cases hrecv
    exact Server.setConn_frame h
  · obtain ⟨⟨s1, hs1⟩, hfind, hsend⟩ := Option.bind_eq_some_iff.mp hrecv
    obtain ⟨_, -, hpair⟩ := Option.map_eq_some_iff.mp hfind
    have hconns : s1.conns = s.conns := by
      cases hpair
      rfl
    rw [← hconns]
    exact Server.sendData_frame h hsend

/-- **A callback** leaves the other connections alone. -/
theorem Server.step_frame {s s' : Server} {e : Event} (hstep : Server.step root e s = some s')
    (h : e.conn ≠ i) : s'.conns i = s.conns i := by
  cases e with
  | accept j memory clock =>
    simp only [Server.step] at hstep
    split at hstep
    · cases hstep
      split
      · exact Server.setConn_frame h
      · rfl
    · cases hstep
      rfl
  | recv j p behind err attempt closes =>
    simp only [Server.step] at hstep
    split at hstep
    · split at hstep
      · split at hstep
        · exact Server.recv_other h hstep
        · cases hstep
          exact Server.setConn_frame h
      · cases hstep
        exact Server.setConn_frame h
    · cases hstep
      rfl
  | sent j attempt closes =>
    simp only [Server.step] at hstep
    split at hstep
    · exact Server.sendData_frame h hstep
    · cases hstep
      rfl
  | poll j attempt closes =>
    simp only [Server.step] at hstep
    split at hstep
    · split at hstep
      · cases hstep
        exact Server.setConn_frame h
      split at hstep
      · exact Server.sendData_frame h hstep
      · cases hstep
        exact Server.setConn_frame h
    · cases hstep
      exact Server.setConn_frame h
    · cases hstep
      rfl
  | err j =>
    simp only [Server.step] at hstep
    split at hstep
    · cases hstep
      exact Server.setConn_frame h
    · cases hstep
      exact Server.setConn_frame h

/-- The retries of a connection, none when it is not live. -/
def Conn.retries : Conn → Option Nat
  | .live hs _ _ => some hs.retries
  | _ => none

theorem Server.retries_setConn (s : Server) (i : Nat) (c : Conn) :
    ((s.setConn i c).conns i).retries = c.retries := by
  have hconn : (s.setConn i c).conns i = c := Function.update_self ..
  rw [hconn]

theorem Server.retries_sendData {s s' : Server} {hs : HttpConn} {clock : Nat → Readings}
    {out : List UInt8} {attempt : Attempt} {closes : Bool}
    (hsend : s.sendData i hs clock out attempt closes = some s') {n : Nat}
    (hn : (s'.conns i).retries = some n) : n = hs.retries := by
  have hclosed : ∀ {t : Server}, ((t.closeConn i hs closes).conns i).retries = none := by
    intro t
    rw [Server.closeConn, Server.retries_setConn]
    cases closes <;> rfl
  unfold Server.sendData at hsend
  split at hsend
  · cases hsend
    rw [hclosed] at hn
    cases hn
  · obtain ⟨r, -, rfl⟩ := Option.map_eq_some_iff.mp hsend
    split at hn
    · rw [hclosed] at hn
      cases hn
    · rw [Server.retries_setConn] at hn
      cases hn
      rfl

/-- One callback while nothing is heard of the connection: a poll counts. -/
theorem Server.step_silent {s s' : Server} {e : Event} (hstep : Server.step root e s = some s')
    (he : e.Silent i) {n : Nat} (hn : (s'.conns i).retries = some n) :
    ∃ m, (s.conns i).retries = some m ∧ n = m + if e.isPoll i then 1 else 0 := by
  by_cases hconn : e.conn = i
  · cases e with
    | accept j memory clock => exact absurd hconn he
    | recv j p behind err attempt closes => exact absurd hconn he
    | sent j attempt closes => exact absurd hconn he
    | poll j attempt closes =>
      obtain rfl : j = i := hconn
      have hpoll : (Event.poll j attempt closes).isPoll j = true := decide_eq_true rfl
      rw [if_pos hpoll]
      simp only [Server.step] at hstep
      split at hstep
      · rename_i hs clock out hj
        refine ⟨hs.retries, congrArg Conn.retries hj, ?_⟩
        split at hstep
        · cases hstep
          rw [Server.closeConn, Server.retries_setConn] at hn
          cases closes <;> cases hn
        split at hstep
        · exact Server.retries_sendData hstep hn
        · cases hstep
          rw [Server.retries_setConn] at hn
          cases hn
          rfl
      · cases hstep
        rw [Server.retries_setConn] at hn
        cases closes <;> cases hn
      · rename_i hj
        cases hstep
        rw [hj] at hn
        cases hn
    | err j =>
      obtain rfl : j = i := hconn
      simp only [Server.step] at hstep
      split at hstep
      · cases hstep
        rw [Server.retries_setConn] at hn
        cases hn
      · cases hstep
        rw [Server.retries_setConn] at hn
        cases hn
  · have hpoll : e.isPoll i = false := by
      cases e <;> first | rfl | exact decide_eq_false hconn
    rw [Server.step_frame hstep hconn] at hn
    exact ⟨n, hn, by rw [hpoll]; rfl⟩

theorem Server.run_silent {es : List Event} {s s' : Server}
    (h : EventRun.run (Server.step root) es s = some s') (hes : ∀ e ∈ es, e.Silent i) {n : Nat}
    (hn : (s'.conns i).retries = some n) :
    ∃ m, (s.conns i).retries = some m ∧ n = m + es.countP (Event.isPoll i) := by
  induction es generalizing s with
  | nil =>
    cases h
    exact ⟨n, hn, rfl⟩
  | cons e es ih =>
    obtain ⟨he, hes⟩ := List.forall_mem_cons.mp hes
    obtain ⟨s1, hstep, hrun⟩ := EventRun.run_cons_some h
    obtain ⟨m1, hm1, hcount⟩ := ih hrun hes
    obtain ⟨m, hm, hone⟩ := Server.step_silent hstep he hm1
    exact ⟨m, hm, by rw [hcount, hone, List.countP_cons]; omega⟩

/-- **A connection nothing is heard of** is closed by its fourth poll at the latest, whatever the
others do. -/
theorem server_silent {o : Outputs} {es es' : List Event} {s s' : Server}
    (h : EventRun.run (Server.step root) es (.init o) = some s)
    (h' : EventRun.run (Server.step root) es' s = some s') (hes' : ∀ e ∈ es', e.Silent i)
    (hpolls : maxRetries ≤ es'.countP (Event.isPoll i)) :
    ∀ hs clock out, s'.conns i ≠ .live hs clock out := by
  intro hs clock out hi
  have hrun : EventRun.run (Server.step root) (es ++ es') (.init o) = some s' := by
    rw [EventRun.run_append_of es' h, h']
  have hconn := (Server.run_inv hrun).conns i
  rw [hi] at hconn
  obtain ⟨m, -, hcount⟩ := Server.run_silent h' hes' (n := hs.retries) (congrArg Conn.retries hi)
  have hless := hconn.retries
  omega

theorem server_silent_index :
    ∃ s s', EventRun.run (Server.step indexRoot) indexCallbacks (.init ⟨true, false⟩) = some s ∧
      EventRun.run (Server.step indexRoot)
        (List.replicate 4 (.poll 0 ⟨0, true, 536, []⟩ true)) s = some s' ∧
      ∀ hs clock out, s'.conns 0 ≠ .live hs clock out := by
  have hsome : (EventRun.run (Server.step indexRoot)
      (indexCallbacks ++ List.replicate 4 (.poll 0 ⟨0, true, 536, []⟩ true))
      (.init ⟨true, false⟩)).isSome = true := by
    decide +kernel
  obtain ⟨s', hs'⟩ := Option.isSome_iff_exists.mp hsome
  obtain ⟨s, hs, hpolls⟩ := EventRun.run_append_some hs'
  refine ⟨s, s', hs, hpolls, server_silent hs hpolls (fun e he => ?_) (by decide)⟩
  rw [List.eq_of_mem_replicate he]
  trivial

end Silent

end Generalplate.Httpd
