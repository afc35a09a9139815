import Mathlib.Data.List.Induction
import Mathlib.Data.List.Infix
import Mathlib.Logic.Function.Basic

/-! # Runs of an event-driven machine

A machine takes one event at a time and may fault; a run folds its step over a
list of events and stops at the first fault. A machine that simulates a total
one never faults, and its runs follow the total machine's. A run of a total
machine is cut at the last state with a property. -/
namespace Generalplate.Lib.EventRun

variable {ε σ τ : Type*}

/-- The events one after the other, none when one of them faults. -/
def run (step : ε → σ → Option σ) : List ε → σ → Option σ
  | [], s => some s
  | e :: es, s => (step e s).bind (run step es)

@[simp] theorem run_nil (step : ε → σ → Option σ) (s : σ) : run step [] s = some s := rfl

theorem run_cons {step : ε → σ → Option σ} {e : ε} {es : List ε} {s s' : σ}
    (h : step e s = some s') : run step (e :: es) s = run step es s' := by
  rw [run, h, Option.bind_some]

theorem run_append (step : ε → σ → Option σ) (es fs : List ε) (s : σ) :
    run step (es ++ fs) s = (run step es s).bind (run step fs) := by
  induction es generalizing s with
  | nil => rfl
  | cons e es ih =>
    rw [List.cons_append, run, run, Option.bind_assoc]
    exact Option.bind_congr fun s' _ => ih s'

theorem run_append_of {step : ε → σ → Option σ} {es : List ε} {s s' : σ} (fs : List ε)
    (h : run step es s = some s') : run step (es ++ fs) s = run step fs s' := by
  rw [run_append, h, Option.bind_some]

/-- The state behind the first event. -/
theorem run_cons_some {step : ε → σ → Option σ} {e : ε} {es : List ε} {s s' : σ}
    (h : run step (e :: es) s = some s') :
    ∃ s1, step e s = some s1 ∧ run step es s1 = some s' :=
  Option.bind_eq_some_iff.mp h

/-- The state behind the first events. -/
theorem run_append_some {step : ε → σ → Option σ} {es fs : List ε} {s s' : σ}
    (h : run step (es ++ fs) s = some s') :
    ∃ s1, run step es s = some s1 ∧ run step fs s1 = some s' := by
  rw [run_append] at h
  exact Option.bind_eq_some_iff.mp h

/-- The step behind the others. -/
theorem run_snoc_some {step : ε → σ → Option σ} {es : List ε} {e : ε} {s s' : σ}
    (h : run step (es ++ [e]) s = some s') :
    ∃ s1, run step es s = some s1 ∧ step e s1 = some s' := by
  obtain ⟨s1, h1, hlast⟩ := run_append_some h
  obtain ⟨s2, h2, hnil⟩ := run_cons_some hlast
  cases hnil
  exact ⟨s1, h1, h2⟩

/-- One more event. -/
theorem run_snoc {step : ε → σ → Option σ} {es : List ε} {e : ε} {s s' s'' : σ}
    (h : run step es s = some s') (he : step e s' = some s'') :
    run step (es ++ [e]) s = some s'' := by
  rw [run_append_of [e] h, run_cons he, run_nil]

/-- Events that change nothing can be dropped. -/
theorem run_fixed {step : ε → σ → Option σ} {s : σ} {es : List ε}
    (h : ∀ e ∈ es, step e s = some s) : run step es s = some s := by
  induction es with
  | nil => rfl
  | cons e es ih =>
    obtain ⟨he, hes⟩ := List.forall_mem_cons.mp h
    rw [run_cons he]
    exact ih hes

/-- Every step of the run starts in a state that meets the condition. -/
def Throughout (step : ε → σ → Option σ) (C : ε → σ → Prop) : List ε → σ → Prop
  | [], _ => True
  | e :: es, s => C e s ∧ ∀ s', step e s = some s' → Throughout step C es s'

theorem Throughout.of_forall {step : ε → σ → Option σ} {C : ε → σ → Prop} {es : List ε} {s : σ}
    (h : ∀ e ∈ es, ∀ s, C e s) : Throughout step C es s := by
  induction es generalizing s with
  | nil => trivial
  | cons e es ih =>
    obtain ⟨he, hes⟩ := List.forall_mem_cons.mp h
    exact ⟨he s, fun s' _ => ih hes⟩

theorem Throughout.and_events {step : ε → σ → Option σ} {C : ε → σ → Prop} {D : ε → Prop}
    {es : List ε} {s : σ} (h : Throughout step C es s) (hes : ∀ e ∈ es, D e) :
    Throughout step (fun e s => C e s ∧ D e) es s := by
  induction es generalizing s with
  | nil => trivial
  | cons e es ih =>
    obtain ⟨he, hes⟩ := List.forall_mem_cons.mp hes
    exact ⟨⟨h.1, he⟩, fun s' hs => ih (h.2 s' hs) hes⟩

/-- What holds in front of every step of a run and behind the last holds where it starts. -/
theorem Throughout.start {step : ε → σ → Option σ} {C : ε → σ → Prop} {P : σ → Prop} {es : List ε}
    {s s' : σ} (h : Throughout step (fun e s => C e s ∧ P s) es s) (hs' : P s')
    (hrun : run step es s = some s') : P s := by
  cases es with
  | nil =>
    cases hrun
    exact hs'
  | cons e es => exact h.1.2

instance decThroughout (step : ε → σ → Option σ) (C : ε → σ → Prop) [∀ e s, Decidable (C e s)] :
    ∀ (es : List ε) (s : σ), Decidable (Throughout step C es s)
  | [], _ => isTrue trivial
  | e :: es, s =>
    match h : step e s with
    | none => decidable_of_iff (C e s) ⟨fun hc => ⟨hc, fun s' hs => by rw [h] at hs; cases hs⟩,
        fun hc => hc.1⟩
    | some s1 =>
      have := decThroughout step C es s1
      decidable_of_iff (C e s ∧ Throughout step C es s1)
        ⟨fun hc => ⟨hc.1, fun s' hs => by rw [h] at hs; cases hs; exact hc.2⟩,
          fun hc => ⟨hc.1, hc.2 s1 h⟩⟩

/-- **Invariant.** What every step that meets the condition keeps, the runs keep. -/
theorem run_inv {step : ε → σ → Option σ} {C : ε → σ → Prop} {P : σ → Prop}
    (hstep : ∀ e s s', P s → C e s → step e s = some s' → P s') {es : List ε} {s s' : σ}
    (hs : P s) (hC : Throughout step C es s) (h : run step es s = some s') : P s' := by
  induction es generalizing s with
  | nil =>
    cases h
    exact hs
  | cons e es ih =>
    obtain ⟨s1, h1, h2⟩ := run_cons_some h
    exact ih (hstep e s s1 hs hC.1 h1) (hC.2 s1 h1) h2

/-- **Safety.** A step that meets the condition faults in no state with the invariant, so no run
does. -/
theorem run_safe {step : ε → σ → Option σ} {C : ε → σ → Prop} {P : σ → Prop}
    (hstep : ∀ e s, P s → C e s → ∃ s', step e s = some s' ∧ P s') {es : List ε} {s : σ}
    (hs : P s) (hC : Throughout step C es s) : ∃ s', run step es s = some s' ∧ P s' := by
  induction es generalizing s with
  | nil => exact ⟨s, rfl, hs⟩
  | cons e es ih =>
    obtain ⟨s1, h1, hs1⟩ := hstep e s hs hC.1
    rw [run_cons h1]
    exact ih hs1 (hC.2 s1 h1)

/-- What the steps of a run add up to. -/
def tally (step : ε → σ → Option σ) (f : ε → σ → Nat) : List ε → σ → Nat
  | [], _ => 0
  | e :: es, s => f e s + (step e s).elim 0 (tally step f es)

theorem tally_cons {step : ε → σ → Option σ} {f : ε → σ → Nat} {e : ε} {es : List ε} {s s' : σ}
    (h : step e s = some s') : tally step f (e :: es) s = f e s + tally step f es s' := by
  rw [tally, h, Option.elim_some]

/-- **Conservation.** What every step takes and gives, the runs take and give. -/
theorem run_tally {step : ε → σ → Option σ} {C : ε → σ → Prop} {P : σ → Prop} {m : σ → Nat}
    {taken given : ε → σ → Nat}
    (hstep : ∀ e s s', P s → C e s → step e s = some s' →
      P s' ∧ m s' + taken e s = m s + given e s) {es : List ε} {s s' : σ}
    (hs : P s) (hC : Throughout step C es s) (h : run step es s = some s') :
    m s' + tally step taken es s = m s + tally step given es s := by
  induction es generalizing s with
  | nil =>
    cases h
    rfl
  | cons e es ih =>
    obtain ⟨s1, h1, h2⟩ := run_cons_some h
    obtain ⟨hs1, hsum⟩ := hstep e s s1 hs hC.1 h1
    have hrest := ih hs1 (hC.2 s1 h1) h2
    rw [tally_cons h1, tally_cons h1]
    omega

/-- The condition is one on the events. -/
theorem run_inv_events {step : ε → σ → Option σ} {C : ε → Prop} {P : σ → Prop}
    (hstep : ∀ e s s', P s → C e → step e s = some s' → P s') {es : List ε} {s s' : σ}
    (hs : P s) (hC : ∀ e ∈ es, C e) (h : run step es s = some s') : P s' :=
  run_inv hstep hs (Throughout.of_forall fun e he _ => hC e he) h

/-- There is no condition. -/
theorem run_keeps {step : ε → σ → Option σ} {P : σ → Prop}
    (hstep : ∀ e s s', P s → step e s = some s' → P s') {es : List ε} {s s' : σ}
    (hs : P s) (h : run step es s = some s') : P s' :=
  run_inv_events (fun e s s' hp _ => hstep e s s' hp) hs (fun _ _ => trivial) h

/-- A property of one task's place, in a machine of many tasks: another task's step
keeps it. -/
theorem place_update {ι κ : Type*} [DecidableEq ι] {place : ι → κ} {P : κ → Prop} {i j : ι} {k : κ}
    (h : P (place i)) (hself : j = i → P k) : P (Function.update place j k i) := by
  by_cases hij : j = i
  · subst hij
    rw [Function.update_self]
    exact hself rfl
  · rwa [Function.update_of_ne (Ne.symm hij)]

/-- **Simulation.** When every step can be matched by the total machine, runs are. -/
theorem run_simulates {step : ε → σ → Option σ} {next : τ → ε → τ} {R : σ → τ → Prop}
    (hstep : ∀ e s t, R s t → ∃ s', step e s = some s' ∧ R s' (next t e))
    (es : List ε) {s : σ} {t : τ} (h : R s t) :
    ∃ s', run step es s = some s' ∧ R s' (es.foldl next t) := by
  induction es generalizing s t with
  | nil => exact ⟨s, rfl, h⟩
  | cons e es ih =>
    obtain ⟨s1, h1, hr1⟩ := hstep e s t h
    obtain ⟨s2, h2, hr2⟩ := ih hr1
    exact ⟨s2, by rw [run_cons h1, h2], hr2⟩

/-- The events after the last state of a run that has the property. -/
theorem last_visit (next : τ → ε → τ) (P : τ → Prop) {t : τ} (ht : P t) (es : List ε) :
    ∃ pre post, es = pre ++ post ∧ P (pre.foldl next t) ∧
      ∀ q, q <+: post → q ≠ [] → ¬ P (q.foldl next (pre.foldl next t)) := by
  induction es using List.reverseRecOn with
  | nil =>
    refine ⟨[], [], rfl, ht, fun q hq hne => absurd (List.prefix_nil.mp hq) hne⟩
  | append_singleton es e ih =>
    by_cases hp : P ((es ++ [e]).foldl next t)
    · exact ⟨es ++ [e], [], by simp, hp, fun q hq hne => absurd (List.prefix_nil.mp hq) hne⟩
    · obtain ⟨pre, post, rfl, hpre, hpost⟩ := ih
      refine ⟨pre, post ++ [e], by simp, hpre, fun q hq hne => ?_⟩
      rcases List.prefix_concat_iff.mp hq with rfl | hq
      · simpa [List.foldl_append] using hp
      · exact hpost q hq hne

end Generalplate.Lib.EventRun
