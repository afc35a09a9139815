import Generalplate.TcpServer.Thread

/-! # The life of a connection

A connection is accepted, received from until its first fatal error, closed and
deleted, and only then is the next one accepted. The task leaves its inner loop on
`ERR_CLSD` alone, so this is what it does as long as no connection fails otherwise. -/
namespace Generalplate.TcpServer
open Lib.EventRun Lwip

/-- Where the life of connection `n` is, or that it is waited for. -/
inductive Phase where
  | accepting (n : Nat)
  | serving (n : Nat)
  | failed (n : Nat)
  | closed (n : Nat)
deriving DecidableEq, Repr

/-- The events a connection may go through. -/
def lifecycle : ServerEvent → Phase → Option Phase
  | .refused _, .accepting n => some (.accepting n)
  | .accepted conn, .accepting n => if conn = n then some (.serving n) else none
  | .recv conn err, .serving n =>
    if conn = n then some (if err.Fatal then .failed n else .serving n) else none
  | .close conn, .failed n => if conn = n then some (.closed n) else none
  | .delete conn, .closed n => if conn = n then some (.accepting (n + 1)) else none
  | _, _ => none

/-- The server is where it has to be: serving the connection while it lives, closing
it once it has failed. -/
def Phase.Agrees (s : Server) : Phase → Prop
  | .accepting n => s.pc = .accept ∧ s.conns = n
  | .serving n => s.pc.Serves ∧ s.newconn = n ∧ s.conns = n + 1
  | .failed n => s.pc = .close ∧ s.newconn = n ∧ s.conns = n + 1
  | .closed n => s.pc = .delete ∧ s.newconn = n ∧ s.conns = n + 1

/-- Every connection so far has had its life, and the server is at the right place
in the current one. -/
def Server.Conforms (s : Server) : Prop :=
  ∃ phase, run lifecycle s.log (.accepting 0) = some phase ∧ phase.Agrees s

/-- A fatal error of a receive is `ERR_CLSD`. -/
def ServerAct.Clean : ServerAct → Prop
  | .recv (.fail err) => err.Fatal → err = .clsd
  | _ => True

/-- The server serves a connection that has failed, or has done so. -/
def Server.Astray (s : Server) : Prop :=
  (∃ n, run lifecycle s.log (.accepting 0) = some (.failed n) ∧ s.pc.Serves) ∨
  run lifecycle s.log (.accepting 0) = none

section Steps
variable {s s' : Server} {a : ServerAct}

theorem Server.Conforms.serving (h : s.Conforms) (hpc : s.pc.Serves) :
    ∃ n, run lifecycle s.log (.accepting 0) = some (.serving n) ∧ s.newconn = n ∧
      s.conns = n + 1 := by
  obtain ⟨phase, hrun, hagrees⟩ := h
  cases phase with
  | serving n => exact ⟨n, hrun, hagrees.2⟩
  | accepting n | failed n | closed n =>
    rw [hagrees.1] at hpc
    exact hpc.elim

theorem Server.Conforms.accepting (h : s.Conforms) (hpc : s.pc = .accept) :
    ∃ n, run lifecycle s.log (.accepting 0) = some (.accepting n) ∧ s.conns = n := by
  obtain ⟨phase, hrun, hagrees⟩ := h
  cases phase with
  | accepting n => exact ⟨n, hrun, hagrees.2⟩
  | serving n =>
    have hserves := hagrees.1
    rw [hpc] at hserves
    exact hserves.elim
  | failed n | closed n =>
    rw [hagrees.1] at hpc
    cases hpc

/-- A step inside the loop that concerns no connection. -/
theorem Server.Conforms.inside (h : s.Conforms) (hpc : s.pc.Serves) (hpc' : s'.pc.Serves)
    (hlog : s'.log = s.log) (hnew : s'.newconn = s.newconn) (hconns : s'.conns = s.conns) :
    s'.Conforms := by
  obtain ⟨n, hrun, hn, hc⟩ := h.serving hpc
  exact ⟨.serving n, by rwa [hlog], hpc', hnew.trans hn, hconns.trans hc⟩

theorem Server.Conforms.step (h : s.Conforms) (ha : a.Clean) (hs : serverStep a s = some s') :
    s'.Conforms := by
  cases serverStep_next hs with
  | refused hpc herr =>
    obtain ⟨n, hrun, hc⟩ := h.accepting hpc
    exact ⟨.accepting n, run_snoc hrun rfl, hpc, hc⟩
  | accepted hpc =>
    obtain ⟨n, hrun, hc⟩ := h.accepting hpc
    refine ⟨.serving n, run_snoc hrun (if_pos hc), trivial, hc, ?_⟩
    rw [← hc]
  | set hpc _ | clear hpc _ | write hpc | wrote hpc | load hpc | store hpc | handle hpc =>
    exact h.inside (by rw [hpc]; trivial) trivial rfl rfl rfl
  | data hpc hlive =>
    obtain ⟨n, hrun, hn, hc⟩ := h.serving (by rw [hpc]; trivial)
    exact ⟨.serving n, run_snoc hrun (if_pos hn), trivial, hn, hc⟩
  | @fail err hpc herr hfatal =>
    obtain ⟨n, hrun, hn, hc⟩ := h.serving (by rw [hpc]; trivial)
    by_cases hf : err.Fatal
    · have hclsd := ha hf
      subst hclsd
      exact ⟨.failed n, run_snoc hrun (if_pos hn), rfl, hn, hc⟩
    · have hne : err ≠ .clsd := by
        rintro rfl
        exact hf (by decide)
      refine ⟨.serving n, run_snoc hrun ?_, ?_, hn, hc⟩
      · rw [lifecycle, if_pos hn, if_neg hf]
      · rw [if_neg hne]
        trivial
  | close hpc =>
    obtain ⟨phase, hrun, hagrees⟩ := h
    cases phase with
    | failed n =>
      obtain ⟨-, hn, hc⟩ := hagrees
      exact ⟨.closed n, run_snoc hrun (if_pos hn), rfl, hn, hc⟩
    | serving n =>
      have hserves := hagrees.1
      rw [hpc] at hserves
      exact hserves.elim
    | accepting n | closed n =>
      rw [hagrees.1] at hpc
      cases hpc
  | delete hpc =>
    obtain ⟨phase, hrun, hagrees⟩ := h
    cases phase with
    | closed n =>
      obtain ⟨-, hn, hc⟩ := hagrees
      exact ⟨.accepting (n + 1), run_snoc hrun (if_pos hn), rfl, hc⟩
    | serving n =>
      have hserves := hagrees.1
      rw [hpc] at hserves
      exact hserves.elim
    | accepting n | failed n =>
      rw [hagrees.1] at hpc
      cases hpc
  | keyLoad hkey => exact h
  | keyStore hkey => exact h

/-- After any other fatal error the server goes on serving. -/
theorem Server.Conforms.astray (h : s.Conforms) (ha : ¬ a.Clean) (hs : serverStep a s = some s') :
    s'.Astray := by
  cases serverStep_next hs with
  | @fail err hpc herr hfatal =>
    obtain ⟨hf, hne⟩ := Classical.not_imp.mp ha
    obtain ⟨n, hrun, hn, -⟩ := h.serving (by rw [hpc]; trivial)
    refine Or.inl ⟨n, run_snoc hrun ?_, ?_⟩
    · rw [lifecycle, if_pos hn, if_pos hf]
    · simp only [if_neg hne]
      trivial
  | refused | accepted | set | clear | write | wrote | load | store | data | handle | close | delete
  | keyLoad | keyStore => exact absurd trivial ha

theorem Server.Astray.step (h : s.Astray) (hs : serverStep a s = some s') : s'.Astray := by
  have hlost : ∀ {e}, (∀ n, s.pc.Serves → lifecycle e (.failed n) = none) →
      run lifecycle (s.log ++ [e]) (.accepting 0) = none := by
    intro e he
    rw [run_append]
    rcases h with ⟨n, hrun, hpc⟩ | hrun
    · rw [hrun, Option.bind_some, run, he n hpc, Option.bind_none]
    · rw [hrun, Option.bind_none]
  have hsame : s'.log = s.log → s'.pc.Serves → s'.Astray := by
    intro hlog hpc
    rcases h with ⟨n, hrun, -⟩ | hrun
    · exact Or.inl ⟨n, by rwa [hlog], hpc⟩
    · exact Or.inr (by rwa [hlog])
  cases serverStep_next hs with
  | refused | accepted | data | fail | delete => exact Or.inr (hlost fun _ _ => rfl)
  | close hpc =>
    refine Or.inr (hlost ?_)
    intro n hserves
    rw [hpc] at hserves
    exact hserves.elim
  | set | clear | write | wrote | load | store | handle => exact hsame rfl trivial
  | keyLoad hkey => exact h
  | keyStore hkey => exact h

theorem Server.Astray.not_conforms (h : s.Astray) : ¬ s.Conforms := by
  rintro ⟨phase, hrun, hagrees⟩
  rcases h with ⟨n, hfailed, hpc⟩ | hnone
  · rw [hfailed] at hrun
    cases hrun
    rw [hagrees.1] at hpc
    exact hpc
  · rw [hnone] at hrun
    cases hrun

theorem run_conforms {acts : List ServerAct} (hs : s.Conforms)
    (hrun : run serverStep acts s = some s')
    (hclean : ∀ a ∈ acts, a.Clean) : s'.Conforms :=
  run_inv_events (fun _ _ _ h ha hs => h.step ha hs) hs hclean hrun

theorem run_astray {acts : List ServerAct} (hs : s.Conforms)
    (hrun : run serverStep acts s = some s')
    (hdirty : ∃ a ∈ acts, ¬ a.Clean) : s'.Astray := by
  induction acts generalizing s with
  | nil =>
    obtain ⟨a, ha, -⟩ := hdirty
    cases ha
  | cons a acts ih =>
    obtain ⟨s1, h1, hrest⟩ := run_cons_some hrun
    by_cases ha : a.Clean
    · refine ih (hs.step ha h1) hrest ?_
      obtain ⟨b, hb, hnot⟩ := hdirty
      rcases List.mem_cons.mp hb with rfl | hb
      · exact absurd ha hnot
      · exact ⟨b, hb, hnot⟩
    · exact run_keeps (fun _ _ _ h hs => h.step hs) (hs.astray ha h1) hrest

end Steps

/-- **Connection lifecycle.** In a run of the server every connection has its life
and the server is at the right place in it exactly when every fatal error of a
receive in the run is `ERR_CLSD`. From there it closes the connection, deletes it and
is back at `netconn_accept`. -/
theorem lifecycle_iff (flag : UInt8) (mem : Nat → UInt8) {acts : List ServerAct} {s : Server}
    (hrun : run serverStep acts (.init flag mem) = some s) :
    (s.Conforms ↔ ∀ a ∈ acts, a.Clean) ∧
    (s.pc = .close → ∃ s', run serverStep [.close, .delete] s = some s' ∧ s'.pc = .accept ∧
      s'.log = s.log ++ [.close s.newconn, .delete s.newconn]) := by
  have hinit : (Server.init flag mem).Conforms := ⟨.accepting 0, rfl, rfl, rfl⟩
  refine ⟨⟨?_, run_conforms hinit hrun⟩, ?_⟩
  · intro h
    by_contra hnot
    simp only [not_forall] at hnot
    obtain ⟨a, ha, hnot⟩ := hnot
    exact (run_astray hinit hrun ⟨a, ha, hnot⟩).not_conforms h
  · intro hpc
    have hclose : serverStep .close s = some { s with
        pc := .delete
        log := s.log ++ [.close s.newconn] } := by
      simp only [serverStep, hpc]
    rw [run_cons hclose]
    exact ⟨_, run_cons rfl, rfl, by simp⟩

/-- A connection in order: two receives and an orderly close. -/
theorem lifecycle_orderly : ∃ s : Server,
    run serverStep [.accept .ok, .test, .recv (.fail .timeout), .test, .recv (.fail .clsd), .close]
      (.init 0 fun _ => 0) = some s ∧ s.Conforms := by
  obtain ⟨s, hs⟩ : ∃ s : Server, run serverStep [.accept .ok, .test, .recv (.fail .timeout), .test,
      .recv (.fail .clsd), .close] (.init 0 fun _ => 0) = some s := ⟨_, rfl⟩
  refine ⟨s, hs, (lifecycle_iff 0 (fun _ => 0) hs).1.mpr ?_⟩
  intro a ha
  simp only [List.mem_cons, List.not_mem_nil, or_false] at ha
  rcases ha with rfl | rfl | rfl | rfl | rfl | rfl
  · trivial
  · trivial
  · exact fun hf => absurd hf (by decide)
  · trivial
  · exact fun _ => rfl
  · trivial

/-- The peer resets the connection: the server receives from it again and never
closes it. -/
theorem lifecycle_reset : ∃ s : Server,
    run serverStep [.accept .ok, .test, .recv (.fail .rst), .test, .recv (.fail .rst), .test]
      (.init 0 fun _ => 0) = some s ∧
    s.log = [.accepted 0, .recv 0 .rst, .recv 0 .rst] ∧ s.pc = .recv ∧
    run lifecycle s.log (.accepting 0) = none :=
  ⟨_, rfl, rfl, rfl, rfl⟩

end Generalplate.TcpServer
