import Mathlib.Data.List.ModifyLast
import Mathlib.Data.List.TakeWhile
import Generalplate.Usmart.Str

/-! # The parameters of a request

`extract_uri_parameters` cuts the text behind the `?` of a request into names and values;
a name without a `=` has no value, and its value pointer is NULL. The handlers of the LED
and of the beeper compare the value of every parameter of their name. -/
namespace Generalplate.Httpd
open Usmart (text)

/-- `strchr` in a string that is cut there: what is in front of the character and what is
behind it. -/
def strchr (c : UInt8) : List UInt8 → Option (List UInt8 × List UInt8)
  | [] => none
  | d :: s =>
    if d = c then some ([], s) else (strchr c s).map fun (front, rest) => (d :: front, rest)

/-- An entry of `params` and of `param_vals`, none for NULL. -/
structure Param where
  name : List UInt8
  value : Option (List UInt8)
deriving DecidableEq, Repr

/-- A pair at its first `=`. -/
def Param.of (pair : List UInt8) : Param :=
  match strchr 0x3d pair with
  | some (name, value) => ⟨name, some value⟩
  | none => ⟨pair, none⟩

/-- `LWIP_HTTPD_MAX_CGI_PARAMETERS` -/
def maxCgiParameters : Nat := 16

/-- The loop, with room for `n` more parameters. The last pair ends at a blank. -/
def extractLoop : Nat → List UInt8 → List Param
  | 0, _ => []
  | n + 1, pair =>
    match strchr 0x26 pair with
    | some (pair, next) => .of pair :: extractLoop n next
    | none =>
      match strchr 0x20 pair with
      | some (pair, _) => [.of pair]
      | none => [.of pair]

/-- `extract_uri_parameters`; no parameters are a NULL pointer or an empty string. -/
def extractUriParameters : Option (List UInt8) → List Param
  | none => []
  | some [] => []
  | some params => extractLoop maxCgiParameters params

/-- The loop of `FindCGIParameter` from index `i` on. -/
def findCgiLoop (toFind : List UInt8) : List Param → ℤ → ℤ
  | [], _ => -1
  | p :: params, i => if toFind = p.name then i else findCgiLoop toFind params (i + 1)

def findCgiParameter (toFind : List UInt8) (params : List Param) : ℤ := findCgiLoop toFind params 0

/-- What a handler controls: the name of its parameter, the two values it takes and the
levels of the output. -/
structure Control where
  name : List UInt8
  onText : List UInt8
  offText : List UInt8
  on : Bool
  off : Bool

/-- The loop of a handler over the parameters, none when it passes NULL to `strcmp`. -/
def Control.loop (c : Control) : List Param → Bool → Option Bool
  | [], out => some out
  | p :: params, out =>
    if p.name = c.name then
      match p.value with
      | none => none
      | some value =>
        if value = c.onText then c.loop params c.on
        else if value = c.offText then c.loop params c.off
        else c.loop params out
    else c.loop params out

/-- The output is switched off first when there is a parameter of the name. -/
def Control.handle (c : Control) (params : List Param) (out : Bool) : Option Bool :=
  if findCgiParameter c.name params ≠ -1 then c.loop params c.off else some out

/-- The levels of the two pins; the LED is on at 0. -/
structure Outputs where
  led1 : Bool
  beep : Bool
deriving DecidableEq, Repr

/-- The page a handler returns. -/
def Outputs.page (o : Outputs) : String :=
  if o.led1 = false ∧ o.beep = false then "/STM32F407LED_ON_BEEP_OFF.shtml"
  else if o.led1 = false ∧ o.beep = true then "/STM32F407LED_ON_BEEP_ON.shtml"
  else if o.led1 = true ∧ o.beep = true then "/STM32F407LED_OFF_BEEP_ON.shtml"
  else "/STM32F407LED_OFF_BEEP_OFF.shtml"

def led1Control : Control := ⟨text "LED1", text "LED1ON", text "LED1OFF", false, true⟩

def beepControl : Control := ⟨text "BEEP", text "BEEPON", text "BEEPOFF", true, false⟩

def ledsCgiHandler (params : List Param) (o : Outputs) : Option (Outputs × String) :=
  (led1Control.handle params o.led1).map fun led1 =>
    let o := { o with led1 := led1 }
    (o, o.page)

def beepCgiHandler (params : List Param) (o : Outputs) : Option (Outputs × String) :=
  (beepControl.handle params o.beep).map fun beep =>
    let o := { o with beep := beep }
    (o, o.page)

/-! ## The parts of the text -/

/-- The parts between the `&`, the last of them up to a blank; the first sixteen count. -/
def parts (params : List UInt8) : List (List UInt8) :=
  ((params.splitOn 0x26).modifyLast fun part => part.takeWhile (· ≠ 0x20)).take maxCgiParameters

theorem strchr_none {c : UInt8} {s : List UInt8} (h : c ∉ s) : strchr c s = none := by
  induction s with
  | nil => rfl
  | cons d s ih =>
    obtain ⟨hd, hs⟩ := List.ne_and_not_mem_of_not_mem_cons h
    rw [strchr, if_neg hd.symm, ih hs, Option.map_none]

theorem strchr_append {c : UInt8} {front : List UInt8} (h : c ∉ front) (rest : List UInt8) :
    strchr c (front ++ c :: rest) = some (front, rest) := by
  induction front with
  | nil => rw [List.nil_append, strchr, if_pos rfl]
  | cons d front ih =>
    obtain ⟨hd, hfront⟩ := List.ne_and_not_mem_of_not_mem_cons h
    rw [List.cons_append, strchr, if_neg hd.symm, ih hfront, Option.map_some]

/-- A string without blanks, or cut at its first one. -/
theorem lastPair_eq (s : List UInt8) :
    (match strchr 0x20 s with
      | some (pair, _) => [Param.of pair]
      | none => [Param.of s]) = [.of (s.takeWhile (· ≠ 0x20))] := by
  by_cases h : 0x20 ∈ s
  · obtain ⟨front, rest, rfl, hfront⟩ := List.eq_append_cons_of_mem h
    have hall : ∀ c ∈ front, decide (c ≠ 0x20) = true := fun c hc =>
      decide_eq_true fun heq => hfront (heq ▸ hc)
    rw [strchr_append hfront, List.takeWhile_append_of_pos hall,
      List.takeWhile_cons_of_neg (by decide), List.append_nil]
  · have hall : ∀ c ∈ s, decide (c ≠ 0x20) = true := fun c hc =>
      decide_eq_true fun heq => h (heq ▸ hc)
    rw [strchr_none h, List.takeWhile_eq_self_iff.mpr hall]

theorem modifyLast_cons {α : Type} (f : α → α) (a : α) {l : List α} (hl : l ≠ []) :
    (a :: l).modifyLast f = a :: l.modifyLast f :=
  List.modifyLast_append_of_right_ne_nil f [a] l hl

/-- **The loop** makes a parameter of each part. -/
theorem extractLoop_eq (n : Nat) (s : List UInt8) : extractLoop n s =
    (((s.splitOn 0x26).modifyLast fun part => part.takeWhile (· ≠ 0x20)).take n).map .of := by
  induction n generalizing s with
  | zero => rfl
  | succ n ih =>
    rw [extractLoop]
    by_cases h : 0x26 ∈ s
    · obtain ⟨front, rest, rfl, hfront⟩ := List.eq_append_cons_of_mem h
      rw [strchr_append hfront, List.splitOn_append_cons_self_of_not_mem hfront,
        modifyLast_cons _ _ (List.splitOn_ne_nil _ _), List.take_succ_cons, List.map_cons, ← ih]
    · have hone : ([s].modifyLast fun part => part.takeWhile (· ≠ 0x20)) =
          [s.takeWhile (· ≠ 0x20)] := List.modifyLast_concat _ s []
      rw [strchr_none h, List.splitOn_eq_singleton h, hone, List.take_succ_cons, List.take_nil]
      exact lastPair_eq s

/-- The parameters of a text that is not empty are its parts. -/
theorem extractUriParameters_eq {params : List UInt8} (h : params ≠ []) :
    extractUriParameters (some params) = (parts params).map .of := by
  cases params with
  | nil => exact absurd rfl h
  | cons c s => exact extractLoop_eq maxCgiParameters (c :: s)

/-- A part is cut at its `=` if it has one. -/
theorem Param.of_cases (part : List UInt8) :
    (0x3d ∉ part ∧ Param.of part = ⟨part, none⟩) ∨
      ∃ name value, part = name ++ 0x3d :: value ∧ Param.of part = ⟨name, some value⟩ := by
  unfold Param.of
  by_cases h : 0x3d ∈ part
  · obtain ⟨name, value, rfl, hname⟩ := List.eq_append_cons_of_mem h
    rw [strchr_append hname]
    exact Or.inr ⟨name, value, rfl, rfl⟩
  · rw [strchr_none h]
    exact Or.inl ⟨h, rfl⟩

/-- One of the parts is the name alone. -/
def Bare (name : List UInt8) (params : Option (List UInt8)) : Prop :=
  ∃ s, params = some s ∧ name ∈ parts s

instance (name : List UInt8) (params : Option (List UInt8)) : Decidable (Bare name params) :=
  match params with
  | none => isFalse fun ⟨_, hs, _⟩ => nomatch hs
  | some s => decidable_of_iff (name ∈ parts s) ⟨fun h => ⟨s, rfl, h⟩, fun ⟨_, hs, h⟩ =>
      Option.some.inj hs ▸ h⟩

/-- **A parameter without a value** is a part that is a name alone. -/
theorem bare_iff {name : List UInt8} (hname : name ≠ []) (heq : 0x3d ∉ name)
    (params : Option (List UInt8)) :
    ⟨name, none⟩ ∈ extractUriParameters params ↔ Bare name params := by
  have hof : ∀ part, Param.of part = ⟨name, none⟩ ↔ part = name := by
    intro part
    rcases Param.of_cases part with ⟨-, hpart⟩ | ⟨front, value, rfl, hpart⟩
    · rw [hpart, Param.mk.injEq, and_iff_left rfl]
    · rw [hpart, Param.mk.injEq]
      refine iff_of_false (fun h => nomatch h.2) fun h => heq (h ▸ ?_)
      exact List.mem_append_right _ (List.mem_cons_self ..)
  cases params with
  | none => exact iff_of_false List.not_mem_nil fun ⟨_, hs, _⟩ => nomatch hs
  | some s =>
    have hbare : Bare name (some s) ↔ name ∈ parts s :=
      ⟨fun ⟨_, hs, h⟩ => Option.some.inj hs ▸ h, fun h => ⟨s, rfl, h⟩⟩
    rw [hbare]
    by_cases hs : s = []
    · subst hs
      refine iff_of_false List.not_mem_nil fun h => hname ?_
      exact List.mem_singleton.mp h
    · rw [extractUriParameters_eq hs, List.mem_map]
      constructor
      · rintro ⟨part, hpart, h⟩
        rwa [← (hof part).mp h]
      · intro h
        exact ⟨name, h, (hof name).mpr rfl⟩

/-! ## The handlers -/

theorem findCgiLoop_eq (toFind : List UInt8) (params : List Param) {i : ℤ} (hi : 0 ≤ i) :
    findCgiLoop toFind params i ≠ -1 ↔ toFind ∈ params.map Param.name := by
  induction params generalizing i with
  | nil => simp [findCgiLoop]
  | cons p params ih =>
    rw [findCgiLoop, List.map_cons, List.mem_cons]
    by_cases h : toFind = p.name
    · rw [if_pos h]
      exact iff_of_true (by omega) (Or.inl h)
    · rw [if_neg h, ih (by omega), or_iff_right h]

namespace Control
variable (c : Control)

/-- The level a value sets, none for one that is not recognised. -/
def level (value : List UInt8) : Option Bool :=
  if value = c.onText then some c.on else if value = c.offText then some c.off else none

/-- The level a parameter sets. -/
def setting (p : Param) : Option Bool := if p.name = c.name then p.value.bind c.level else none

/-- What the output is to be: as the last recognised value of the name sets it, off when
there is none, and as before when the name does not occur. -/
def result (params : List Param) (out : Bool) : Bool :=
  if c.name ∈ params.map Param.name then (params.filterMap c.setting).getLast?.getD c.off else out

theorem loop_null {params : List Param} (h : ⟨c.name, none⟩ ∈ params) (out : Bool) :
    c.loop params out = none := by
  induction params generalizing out with
  | nil => cases h
  | cons p params ih =>
    rw [loop]
    rcases List.mem_cons.mp h with rfl | hrest
    · rw [if_pos rfl]
    · split
      · split
        · rfl
        · split
          · exact ih hrest _
          · split <;> exact ih hrest _
      · exact ih hrest _

/-- One parameter of the loop. -/
theorem loop_cons {p : Param} (h : p ≠ ⟨c.name, none⟩) (params : List Param) (out : Bool) :
    c.loop (p :: params) out = c.loop params ((c.setting p).getD out) := by
  obtain ⟨name, value⟩ := p
  unfold setting
  rw [loop]
  by_cases hname : name = c.name
  · subst hname
    rw [if_pos rfl, if_pos rfl]
    cases value with
    | none => exact absurd rfl h
    | some value =>
      rw [Option.bind_some, level]
      dsimp only
      split
      · rfl
      · split <;> rfl
  · rw [if_neg hname, if_neg hname, Option.getD_none]

theorem loop_eq {params : List Param} (h : ⟨c.name, none⟩ ∉ params) (out : Bool) :
    c.loop params out = some ((params.filterMap c.setting).getLast?.getD out) := by
  induction params generalizing out with
  | nil => rfl
  | cons p params ih =>
    obtain ⟨hp, hrest⟩ := List.ne_and_not_mem_of_not_mem_cons h
    rw [c.loop_cons hp.symm, ih hrest, List.filterMap_cons]
    cases c.setting p with
    | none => rfl
    | some b => rw [List.getLast?_cons, Option.getD_some, Option.getD_some]

/-- **A handler sets its output** as it is to be just when its name never comes without a
value. -/
theorem handle_iff (params : List Param) (out : Bool) :
    c.handle params out = some (c.result params out) ↔ ⟨c.name, none⟩ ∉ params := by
  have hfind := findCgiLoop_eq c.name params (Int.le_refl 0)
  unfold handle result findCgiParameter
  simp only [hfind]
  by_cases hname : c.name ∈ params.map Param.name
  · rw [if_pos hname, if_pos hname]
    by_cases hnull : ⟨c.name, none⟩ ∈ params
    · rw [c.loop_null hnull]
      exact iff_of_false (fun h => nomatch h) (not_not_intro hnull)
    · rw [c.loop_eq hnull]
      exact iff_of_true rfl hnull
  · rw [if_neg hname, if_neg hname]
    exact iff_of_true rfl fun hnull => hname (List.mem_map_of_mem hnull)

/-- On the text of a request, with `f` what the callback makes of the level. -/
theorem map_handle_iff {β : Type} {f : Bool → β} (hf : f.Injective) (hne : c.name ≠ [])
    (heq : 0x3d ∉ c.name) (params : Option (List UInt8)) (out : Bool) :
    (c.handle (extractUriParameters params) out).map f =
        some (f (c.result (extractUriParameters params) out)) ↔ ¬ Bare c.name params := by
  rw [← bare_iff hne heq, ← c.handle_iff _ out]
  exact (Option.map_injective hf).eq_iff (b := some _)

end Control

/-- The page of the two states, by its name. -/
def Outputs.pageName (o : Outputs) : String :=
  "/STM32F407LED_" ++ (if o.led1 then "OFF" else "ON") ++ "_BEEP_" ++
    (if o.beep then "ON" else "OFF") ++ ".shtml"

theorem Outputs.page_eq (o : Outputs) : o.page = o.pageName := by
  obtain ⟨led1, beep⟩ := o
  cases led1 <;> cases beep <;> decide +kernel

/-- `LEDS_CGI_Handler` does what it is for: it sets the LED, leaves the beeper and returns the
page of the two. -/
def LedsServed (params : Option (List UInt8)) (o : Outputs) : Prop :=
  let ps := extractUriParameters params
  let o' : Outputs := { o with led1 := led1Control.result ps o.led1 }
  ledsCgiHandler ps o = some (o', o'.pageName)

/-- `BEEP_CGI_Handler` does, with the two exchanged. -/
def BeepServed (params : Option (List UInt8)) (o : Outputs) : Prop :=
  let ps := extractUriParameters params
  let o' : Outputs := { o with beep := beepControl.result ps o.beep }
  beepCgiHandler ps o = some (o', o'.pageName)

theorem ledsServed_iff (params : Option (List UInt8)) (o : Outputs) :
    LedsServed params o ↔ ¬ Bare (text "LED1") params := by
  have hinj : Function.Injective fun led1 =>
      (({ o with led1 := led1 }, ({ o with led1 := led1 } : Outputs).page) : Outputs × String) :=
    fun _ _ h => congrArg (fun r => r.1.led1) h
  unfold LedsServed
  dsimp only
  rw [← Outputs.page_eq]
  exact led1Control.map_handle_iff hinj (by decide +kernel) (by decide +kernel) params o.led1

theorem beepServed_iff (params : Option (List UInt8)) (o : Outputs) :
    BeepServed params o ↔ ¬ Bare (text "BEEP") params := by
  have hinj : Function.Injective fun beep =>
      (({ o with beep := beep }, ({ o with beep := beep } : Outputs).page) : Outputs × String) :=
    fun _ _ h => congrArg (fun r => r.1.beep) h
  unfold BeepServed
  dsimp only
  rw [← Outputs.page_eq]
  exact beepControl.map_handle_iff hinj (by decide +kernel) (by decide +kernel) params o.beep

/-- **The two handlers** do what they are for just when their name is no part of the request
text by itself, whatever the text and the levels of the outputs. -/
theorem cgiHandlers_iff (params : Option (List UInt8)) (o : Outputs) :
    (LedsServed params o ↔ ¬ Bare (text "LED1") params) ∧
      (BeepServed params o ↔ ¬ Bare (text "BEEP") params) :=
  ⟨ledsServed_iff params o, beepServed_iff params o⟩

/-- The name with a value is no bare name. -/
example : ¬ Bare (text "LED1") (some (text "LED1=LED1ON&BEEP")) := by decide +kernel

/-- On `/leds.cgi?LED1` the handler passes NULL to `strcmp`. -/
theorem ledsServed_fails : ¬ LedsServed (some (text "LED1")) ⟨true, false⟩ := by
  have hnull : ledsCgiHandler (extractUriParameters (some (text "LED1"))) ⟨true, false⟩ = none := by
    decide +kernel
  intro hserved
  cases hnull.symm.trans hserved

end Generalplate.Httpd
