import Generalplate.TcpServer.Thread

/-! # Requests to send

`key_task` asks for a write by setting the flag. The server clears the flag only
after the write, in two steps, so what is asked for between the start of a write and
the end of the clear is lost, and every other request is served. -/
namespace Generalplate.TcpServer
open Lib.EventRun Lwip

/-- The flag asks for a write. -/
def Server.Set (s : Server) : Prop := s.flag &&& lwipSendData = lwipSendData

/-- A write starts later in the run, and the flag stays set until then. -/
def Served : List ServerAct → Server → Prop
  | [], _ => False
  | a :: acts, s => s.Set ∧
    ((a = .write ∧ s.pc = .write) ∨ ∃ s', serverStep a s = some s' ∧ Served acts s')

/-- The server has started a write and has not yet cleared the flag. -/
def ServerPc.Window : ServerPc → Prop
  | .writing => True
  | .load => True
  | .store _ => True
  | _ => False

/-- A step of `tcp_server_thread`. -/
def ServerAct.isServer : ServerAct → Bool
  | .keyLoad => false
  | .keyStore => false
  | _ => true

/-- The connection is not closed. -/
def ServerAct.Live : ServerAct → Prop
  | .recv (.fail err) => err ≠ .clsd
  | _ => True

/-- The steps of the server until a write has started, when the flag is set. -/
def ServerPc.toWrite : ServerPc → Nat
  | .recv => 4
  | .handle _ => 3
  | .test => 2
  | .write => 1
  | _ => 0

section Steps
variable {s s' : Server} {acts : List ServerAct}

theorem set_of_or (r : UInt8) : (r ||| lwipSendData) &&& lwipSendData = lwipSendData := by
  refine UInt8.toBitVec_inj.mp (BitVec.eq_of_getLsbD_eq fun i _ => ?_)
  simp only [UInt8.toBitVec_and, UInt8.toBitVec_or, BitVec.getLsbD_and, BitVec.getLsbD_or]
  cases r.toBitVec.getLsbD i <;> simp

theorem not_set_of_and (r : UInt8) : r &&& ~~~lwipSendData &&& lwipSendData ≠ lwipSendData := by
  rw [UInt8.and_assoc, show ~~~lwipSendData &&& lwipSendData = 0 by decide, UInt8.and_zero]
  decide

/-- On its way to the write the server finds the flag set. -/
theorem served_of_set (hset : s.Set) (hpc : 0 < s.pc.toWrite) (hlive : ∀ a ∈ acts, a.Live)
    (hrun : run serverStep acts s = some s')
    (hsteps : s.pc.toWrite ≤ acts.countP ServerAct.isServer) : Served acts s := by
  induction acts generalizing s with
  | nil =>
    rw [List.countP_nil] at hsteps
    omega
  | cons a acts ih =>
    obtain ⟨s1, h1, hrest⟩ := run_cons_some hrun
    have hlive' : ∀ b ∈ acts, b.Live := fun b hb => hlive b (List.mem_cons_of_mem a hb)
    refine ⟨hset, ?_⟩
    cases serverStep_next h1 with
    | clear hat hclear => exact absurd hset hclear
    | write hat => exact Or.inl ⟨rfl, hat⟩
    | set hat | data hat | handle hat =>
      refine Or.inr ⟨_, h1, ih hset (by simp [ServerPc.toWrite]) hlive' hrest ?_⟩
      rw [hat, List.countP_cons_of_pos rfl] at hsteps
      simp only [ServerPc.toWrite] at hsteps ⊢
      omega
    | @fail err hat herr hfatal =>
      have hne : err ≠ .clsd := hlive _ List.mem_cons_self
      simp only [if_neg hne] at h1 hrest
      refine Or.inr ⟨_, h1, ih hset (by simp [ServerPc.toWrite]) hlive' hrest ?_⟩
      rw [hat, List.countP_cons_of_pos rfl] at hsteps
      simp only [ServerPc.toWrite] at hsteps ⊢
      omega
    | keyLoad hkey =>
      rw [List.countP_cons_of_neg (by simp [ServerAct.isServer])] at hsteps
      exact Or.inr ⟨_, h1, ih hset hpc hlive' hrest hsteps⟩
    | keyStore hkey =>
      rw [List.countP_cons_of_neg (by simp [ServerAct.isServer])] at hsteps
      exact Or.inr ⟨_, h1, ih (set_of_or _) hpc hlive' hrest hsteps⟩
    | refused hat | accepted hat | wrote hat | load hat | store hat | close hat | delete hat =>
      rw [hat] at hpc
      exact absurd hpc (Nat.lt_irrefl 0)

/-- From a started write the server goes on to the clear. -/
theorem not_served_of_window (hpc : s.pc.Window) : ¬ Served acts s := by
  induction acts generalizing s with
  | nil => exact id
  | cons a acts ih =>
    rintro ⟨-, ⟨-, hat⟩ | ⟨s1, h1, hserved⟩⟩
    · rw [hat] at hpc
      exact hpc
    · cases serverStep_next h1 with
      | wrote | load => exact absurd hserved (ih trivial)
      | store hat =>
        cases acts with
        | nil => exact hserved
        | cons b acts => exact not_set_of_and _ hserved.1
      | keyLoad hkey => exact absurd hserved (ih hpc)
      | keyStore hkey => exact absurd hserved (ih hpc)
      | refused hat | accepted hat | set hat | clear hat | write hat | data hat | fail hat
      | handle hat | close hat | delete hat =>
        rw [hat] at hpc
        exact hpc

end Steps

/-- **Requests.** In every run, a request made while the server serves a connection
that is not closed meanwhile is served, by a write that starts after it and before
the flag is cleared, exactly when it is not made between the start of a write and the
end of the clear. -/
theorem request_served_iff (flag : UInt8) (mem : Nat → UInt8) {pre post : List ServerAct}
    {s' : Server} (hrun : run serverStep (pre ++ .keyStore :: post) (.init flag mem) = some s')
    (hlive : ∀ a ∈ post, a.Live) (hsteps : 4 ≤ post.countP ServerAct.isServer) :
    ∃ s s1, run serverStep pre (.init flag mem) = some s ∧ serverStep .keyStore s = some s1 ∧
      (s.pc.Serves → (Served post s1 ↔ ¬ s.pc.Window)) := by
  obtain ⟨s, hpre, hrun⟩ := run_append_some hrun
  obtain ⟨s1, hreq, hpost⟩ := run_cons_some hrun
  refine ⟨s, s1, hpre, hreq, ?_⟩
  intro hserves
  cases serverStep_next hreq with
  | keyStore hkey =>
    constructor
    · intro hserved hwindow
      exact absurd hserved (not_served_of_window hwindow)
    · intro hwindow
      have hbounds : 0 < s.pc.toWrite ∧ s.pc.toWrite ≤ 4 := by
        cases hpc : s.pc with
        | test | write | recv | handle => simp [ServerPc.toWrite]
        | writing | load | store =>
          rw [hpc] at hwindow
          exact absurd trivial hwindow
        | accept | close | delete =>
          rw [hpc] at hserves
          exact hserves.elim
      exact served_of_set (set_of_or _) hbounds.1 hlive hpost (hbounds.2.trans hsteps)

/-- A request while the server is about to test the flag. -/
theorem request_served_at_test : ∃ s s1,
    run serverStep [.accept .ok, .keyLoad] (.init 0 fun _ => 0) = some s ∧
    serverStep .keyStore s = some s1 ∧
    (s.pc.Serves → (Served [.test, .write, .wrote .ok, .load, .store] s1 ↔ ¬ s.pc.Window)) := by
  obtain ⟨s', hs'⟩ : ∃ s', run serverStep
      ([.accept .ok, .keyLoad] ++ .keyStore :: [.test, .write, .wrote .ok, .load, .store])
      (.init 0 fun _ => 0) = some s' := ⟨_, rfl⟩
  refine request_served_iff 0 (fun _ => 0) hs' ?_ (by decide)
  intro a ha
  simp only [List.mem_cons, List.not_mem_nil, or_false] at ha
  rcases ha with rfl | rfl | rfl | rfl | rfl <;> trivial

/-- The key is pressed again while the first packet is being written: the flag is
cleared for both, and nothing more is sent. -/
theorem request_lost : ∃ s s1 s' : Server,
    run serverStep [.accept .ok, .keyLoad, .keyStore, .test, .write, .keyLoad]
      (.init 0 fun _ => 0) = some s ∧
    serverStep .keyStore s = some s1 ∧
    run serverStep [.wrote .ok, .load, .store, .recv (.fail .timeout), .test] s1 = some s' ∧
    ¬ Served [.wrote .ok, .load, .store, .recv (.fail .timeout), .test] s1 ∧
    s'.flag = 0 ∧ s'.pc = .recv ∧ s'.sent.length = 1 :=
  ⟨_, _, _, rfl, rfl, rfl, not_served_of_window trivial, rfl, rfl, rfl⟩

end Generalplate.TcpServer
