import Mathlib.Algebra.GroupWithZero.Nat
import Mathlib.Logic.Function.Basic
import Mathlib.Data.List.Range
import Generalplate.Lib.EventRun

/-! # The command receiver of USART1

`USART1_IRQHandler` collects the bytes of a line in `USART_RX_BUF` and keeps the
whole state of the reception in the 16-bit word `USART_RX_STA`: bit 15 line
complete, bit 14 a 0x0D seen, the rest the number of bytes. `usmart_scan` takes
a complete line and clears the word. The two run in interrupts of one preemption
priority, so that a scan is not interrupted by a byte. A store outside the
buffer is a fault. The receiver simulates `Line`, the line it has collected. -/
namespace Generalplate.Usart
open Lib.EventRun

/-- `USART_REC_LEN`. -/
def usartRecLen : Nat := 200

/-- `USART_RX_BUF` and `USART_RX_STA`. -/
structure Rx where
  buf : Nat → UInt8
  sta : BitVec 16

def store (buf : Nat → UInt8) (i : Nat) (v : UInt8) : Option (Nat → UInt8) :=
  if i < usartRecLen then some (Function.update buf i v) else none

/-- The first `n` bytes of the buffer. -/
def bytes (buf : Nat → UInt8) (n : Nat) : List UInt8 := (List.range n).map buf

/-- The reception of the byte `Res`. -/
def usart1IRQHandler (res : UInt8) (r : Rx) : Option Rx :=
  if r.sta &&& 0x8000#16 = 0#16 then
    if r.sta &&& 0x4000#16 ≠ 0#16 then
      if res ≠ 0x0a then some { r with sta := 0#16 }
      else some { r with sta := r.sta ||| 0x8000#16 }
    else if res = 0x0d then some { r with sta := r.sta ||| 0x4000#16 }
    else do
      let buf ← store r.buf (r.sta &&& 0x3fff#16).toNat res
      let sta := r.sta + 1#16
      if sta.toNat > usartRecLen - 1 then some ⟨buf, 0#16⟩ else some ⟨buf, sta⟩
  else some r

section Scan
variable {σ : Type}

/-- `usmart_scan`: `cmd` is what `cmd_rec`, `exe` and `usmart_sys_cmd_exe` do
with the memory from `USART_RX_BUF` on; `len` is a u8. -/
def usmartScan (cmd : List UInt8 → σ → σ) (r : Rx) (s : σ) : Option (Rx × σ) :=
  if r.sta &&& 0x8000#16 ≠ 0#16 then do
    let len := (r.sta &&& 0x3fff#16).toNat % 2 ^ 8
    let buf ← store r.buf len 0
    some (⟨buf, 0#16⟩, cmd (bytes buf usartRecLen) s)
  else some (r, s)

/-- What happens at the receiver. -/
inductive Event where
  | byte (b : UInt8)
  | scan
deriving DecidableEq, Repr

def step (cmd : List UInt8 → σ → σ) : Event → Rx × σ → Option (Rx × σ)
  | .byte b, (r, s) => (usart1IRQHandler b r).map (·, s)
  | .scan, (r, s) => usmartScan cmd r s

end Scan

/-- The bytes among the events. -/
def received : List Event → List UInt8
  | [] => []
  | .byte b :: es => b :: received es
  | .scan :: es => received es

/-- Bit 15 of `USART_RX_STA`. -/
def Rx.Complete (r : Rx) : Prop := r.sta &&& 0x8000#16 ≠ 0#16

def Rx.count (r : Rx) : Nat := (r.sta &&& 0x3fff#16).toNat

def Rx.payload (r : Rx) : List UInt8 := bytes r.buf r.count

/-! ## The line being received -/

inductive Phase where
  | collecting
  | sawCR
  | complete
deriving DecidableEq, Repr

/-- A line short enough for the buffer, without its end. -/
structure Line where
  phase : Phase
  payload : List UInt8
  short : payload.length ≤ usartRecLen - 1
  noCR : 0x0d ∉ payload

def Line.start : Line := ⟨.collecting, [], by decide, List.not_mem_nil⟩

/-- One more byte; the byte that would fill the buffer starts the line again. -/
def Line.push (l : Line) (b : UInt8) (hb : b ≠ 0x0d) : Line :=
  if h : l.payload.length + 1 ≤ usartRecLen - 1 then
    ⟨.collecting, l.payload ++ [b], by simpa using h, by simpa using ⟨l.noCR, hb.symm⟩⟩
  else .start

def Line.byte (l : Line) (b : UInt8) : Line :=
  match l.phase with
  | .collecting => if hb : b = 0x0d then { l with phase := .sawCR } else l.push b hb
  | .sawCR => if b = 0x0a then { l with phase := .complete } else .start
  | .complete => l

def Line.scan (l : Line) : Line :=
  match l.phase with
  | .complete => .start
  | _ => l

def Line.next (l : Line) : Event → Line
  | .byte b => l.byte b
  | .scan => l.scan

/-- All bytes of the line so far, its end included. -/
def Line.seen (l : Line) : List UInt8 :=
  match l.phase with
  | .collecting => l.payload
  | .sawCR => l.payload ++ [0x0d]
  | .complete => l.payload ++ [0x0d, 0x0a]

def Phase.flags : Phase → Nat
  | .collecting => 0
  | .sawCR => 0x4000
  | .complete => 0xc000

/-- The word `USART_RX_STA` of a line. -/
def Line.sta (l : Line) : BitVec 16 := BitVec.ofNat 16 (l.payload.length + l.phase.flags)

/-! ## The receiver simulates the line -/

/-- The bits of the word, for every length a line can have. -/
theorem sta_bits : ∀ n, n < usartRecLen → ∀ f : Phase,
    let w := BitVec.ofNat 16 (n + f.flags)
    (w &&& 0x8000#16 = 0#16 ↔ f ≠ .complete) ∧
    (f ≠ .complete → (w &&& 0x4000#16 = 0#16 ↔ f = .collecting)) ∧
    (w &&& 0x3fff#16).toNat = n ∧
    (w = 0#16 ↔ f = .collecting ∧ n = 0) := by
  intro n hn f
  have h : ∀ k : Fin 200,
      let w := BitVec.ofNat 16 (k + f.flags)
      (w &&& 0x8000#16 = 0#16 ↔ f ≠ .complete) ∧
      (f ≠ .complete → (w &&& 0x4000#16 = 0#16 ↔ f = .collecting)) ∧
      (w &&& 0x3fff#16).toNat = k ∧
      (w = 0#16 ↔ f = .collecting ∧ k = (0 : Nat)) := by
    cases f <;> decide +kernel
  exact h ⟨n, hn⟩

/-- Setting the flags moves the word to the next phase. -/
theorem sta_set : ∀ n, n < usartRecLen →
    BitVec.ofNat 16 (n + Phase.collecting.flags) ||| 0x4000#16 =
      BitVec.ofNat 16 (n + Phase.sawCR.flags) ∧
    BitVec.ofNat 16 (n + Phase.sawCR.flags) ||| 0x8000#16 =
      BitVec.ofNat 16 (n + Phase.complete.flags) := by
  intro n hn
  have h : ∀ k : Fin 200,
      BitVec.ofNat 16 (k + Phase.collecting.flags) ||| 0x4000#16 =
        BitVec.ofNat 16 (k + Phase.sawCR.flags) ∧
      BitVec.ofNat 16 (k + Phase.sawCR.flags) ||| 0x8000#16 =
        BitVec.ofNat 16 (k + Phase.complete.flags) := by
    decide +kernel
  exact h ⟨n, hn⟩

/-- The receiver holds exactly the line. -/
structure Holds (r : Rx) (l : Line) : Prop where
  sta : r.sta = l.sta
  bytes : bytes r.buf l.payload.length = l.payload

section Simulation
variable {r : Rx} {l : Line}

theorem Line.length_lt (l : Line) : l.payload.length < usartRecLen :=
  Nat.lt_of_le_pred (by decide) l.short

theorem Holds.complete_iff (h : Holds r l) : r.Complete ↔ l.phase = .complete := by
  rw [Rx.Complete, h.sta, Line.sta, ne_eq, (sta_bits _ l.length_lt _).1, not_not]

theorem Holds.cr_iff (h : Holds r l) (hc : l.phase ≠ .complete) :
    r.sta &&& 0x4000#16 ≠ 0#16 ↔ l.phase = .sawCR := by
  rw [h.sta, Line.sta, ne_eq, (sta_bits _ l.length_lt _).2.1 hc]
  cases hp : l.phase with
  | collecting => simp
  | sawCR => simp
  | complete => exact absurd hp hc

theorem Holds.count_eq (h : Holds r l) : r.count = l.payload.length := by
  rw [Rx.count, h.sta, Line.sta, (sta_bits _ l.length_lt _).2.2.1]

theorem Holds.payload_eq (h : Holds r l) : r.payload = l.payload := by
  rw [Rx.payload, h.count_eq, h.bytes]

theorem Holds.sta_zero_iff (h : Holds r l) : r.sta = 0#16 ↔ l = .start := by
  rw [h.sta, Line.sta, (sta_bits _ l.length_lt _).2.2.2, List.length_eq_zero_iff]
  obtain ⟨phase, payload, short, noCR⟩ := l
  simp [Line.start]

theorem holds_start (buf : Nat → UInt8) : Holds ⟨buf, 0#16⟩ .start := ⟨rfl, rfl⟩

theorem bytes_update_self (buf : Nat → UInt8) (n : Nat) (v : UInt8) :
    bytes (Function.update buf n v) (n + 1) = bytes buf n ++ [v] := by
  rw [bytes, List.range_succ, List.map_append, List.map_singleton, Function.update_self]
  congr 1
  refine List.map_congr_left fun i hi => Function.update_of_ne ?_ _ _
  have := List.mem_range.mp hi
  omega

theorem Holds.incomplete (h : Holds r l) (hp : l.phase ≠ .complete) :
    r.sta &&& 0x8000#16 = 0#16 := by
  by_contra hc
  exact hp (h.complete_iff.mp hc)

/-- A byte of the payload: the store is inside the buffer, and the line starts
again when it is full. -/
theorem Holds.push (h : Holds r l) (hp : l.phase = .collecting) {b : UInt8} (hb : b ≠ 0x0d) :
    ∃ r', usart1IRQHandler b r = some r' ∧ Holds r' (l.push b hb) := by
  have hlt := l.length_lt
  have hcr : ¬ r.sta &&& 0x4000#16 ≠ 0#16 := fun hcr =>
    absurd ((h.cr_iff (by simp [hp])).mp hcr) (by simp [hp])
  have hcount : (r.sta &&& 0x3fff#16).toNat = l.payload.length := h.count_eq
  have hsta : r.sta + 1#16 = BitVec.ofNat 16 (l.payload.length + 1) := by
    rw [h.sta, Line.sta, hp, Phase.flags, Nat.add_zero, BitVec.ofNat_add]
  have hnat : (r.sta + 1#16).toNat = l.payload.length + 1 := by
    rw [hsta, BitVec.toNat_ofNat, Nat.mod_eq_of_lt]
    simp only [usartRecLen] at hlt
    omega
  simp only [usart1IRQHandler, if_pos (h.incomplete (by simp [hp])), if_neg hcr, if_neg hb, store,
    hcount, if_pos hlt, Option.bind_eq_bind, Option.bind_some, hnat, Line.push]
  by_cases hfull : l.payload.length + 1 ≤ usartRecLen - 1
  · refine ⟨_, by rw [if_neg (by omega)], ?_⟩
    rw [dif_pos hfull]
    refine ⟨by simp [hsta, Line.sta, Phase.flags], ?_⟩
    simpa [h.bytes] using bytes_update_self r.buf l.payload.length b
  · refine ⟨_, by rw [if_pos (by omega)], ?_⟩
    rw [dif_neg hfull]
    exact holds_start _

/-- One byte: the receiver stores in the buffer and holds the next line. -/
theorem Holds.byte (h : Holds r l) (b : UInt8) :
    ∃ r', usart1IRQHandler b r = some r' ∧ Holds r' (l.byte b) := by
  have hset := sta_set _ l.length_lt
  cases hp : l.phase with
  | complete =>
    have hc : r.sta &&& 0x8000#16 ≠ 0#16 := h.complete_iff.mpr hp
    refine ⟨r, by rw [usart1IRQHandler, if_neg hc], ?_⟩
    simpa [Line.byte, hp] using h
  | sawCR =>
    have hcr := (h.cr_iff (by simp [hp])).mpr hp
    rw [usart1IRQHandler, if_pos (h.incomplete (by simp [hp])), if_pos hcr]
    by_cases hb : b = 0x0a
    · refine ⟨_, by rw [if_neg (not_not_intro hb)], ?_, by simpa [Line.byte, hp, hb] using h.bytes⟩
      simp only [Line.byte, hp, hb, if_true, h.sta, Line.sta]
      exact hset.2
    · refine ⟨_, by rw [if_pos hb], ?_⟩
      simpa [Line.byte, hp, hb] using holds_start r.buf
  | collecting =>
    by_cases hb : b = 0x0d
    · have hcr : ¬ r.sta &&& 0x4000#16 ≠ 0#16 := fun hcr =>
        absurd ((h.cr_iff (by simp [hp])).mp hcr) (by simp [hp])
      rw [usart1IRQHandler, if_pos (h.incomplete (by simp [hp])), if_neg hcr]
      refine ⟨_, by rw [if_pos hb], ?_, by simpa [Line.byte, hp, hb] using h.bytes⟩
      simp only [Line.byte, hp, hb, dite_true, h.sta, Line.sta]
      exact hset.1
    · obtain ⟨r', hr', hl'⟩ := h.push hp hb
      exact ⟨r', hr', by simpa [Line.byte, hp, hb] using hl'⟩

variable {σ : Type}

theorem scan_incomplete {cmd : List UInt8 → σ → σ} {s : σ} (h : Holds r l)
    (hp : l.phase ≠ .complete) : usmartScan cmd r s = some (r, s) := by
  rw [usmartScan, if_neg (not_not_intro (h.incomplete hp))]

/-- The scan of a complete line hands over the payload with a NUL behind it. -/
theorem scan_complete (cmd : List UInt8 → σ → σ) (s : σ) (h : Holds r l)
    (hp : l.phase = .complete) : ∃ buf rest,
      usmartScan cmd r s = some (⟨buf, 0#16⟩, cmd (l.payload ++ 0 :: rest) s) ∧
        (l.payload ++ 0 :: rest).length = usartRecLen := by
  have hlt := l.length_lt
  have hc : r.sta &&& 0x8000#16 ≠ 0#16 := h.complete_iff.mpr hp
  have hcount : (r.sta &&& 0x3fff#16).toNat % 2 ^ 8 = l.payload.length := by
    rw [show (r.sta &&& 0x3fff#16).toNat = l.payload.length from h.count_eq, Nat.mod_eq_of_lt]
    simp only [usartRecLen] at hlt
    omega
  have hline : ∃ rest, bytes (Function.update r.buf l.payload.length 0) usartRecLen =
      l.payload ++ 0 :: rest := by
    have hpre := bytes_update_self r.buf l.payload.length 0
    rw [h.bytes] at hpre
    refine ⟨((List.range' (l.payload.length + 1) (usartRecLen - (l.payload.length + 1))).map
      (Function.update r.buf l.payload.length 0)), ?_⟩
    rw [List.append_cons, ← hpre, bytes, bytes, ← List.map_append]
    congr 1
    have happ := List.range'_append_1 (s := 0) (m := l.payload.length + 1)
      (n := usartRecLen - (l.payload.length + 1))
    rw [Nat.add_sub_cancel' hlt] at happ
    simpa [List.range_eq_range'] using happ.symm
  obtain ⟨rest, hrest⟩ := hline
  refine ⟨Function.update r.buf l.payload.length 0, rest, ?_, ?_⟩
  · simp only [usmartScan, if_pos hc, hcount, store, if_pos hlt, Option.bind_eq_bind,
      Option.bind_some, hrest]
  · rw [← hrest, bytes, List.length_map, List.length_range]

theorem Holds.scan (h : Holds r l) (cmd : List UInt8 → σ → σ) (s : σ) :
    ∃ r' s', usmartScan cmd r s = some (r', s') ∧ Holds r' l.scan := by
  cases hp : l.phase with
  | complete =>
    obtain ⟨buf, rest, hs, _⟩ := scan_complete cmd s h hp
    exact ⟨_, _, hs, by simpa [Line.scan, hp] using holds_start buf⟩
  | sawCR => exact ⟨r, s, scan_incomplete h (by simp [hp]), by simpa [Line.scan, hp] using h⟩
  | collecting => exact ⟨r, s, scan_incomplete h (by simp [hp]), by simpa [Line.scan, hp] using h⟩

/-- **The receiver simulates the line**: no run faults, whatever its events. -/
theorem Holds.follows (cmd : List UInt8 → σ → σ) (es : List Event) (h : Holds r l) (s : σ) :
    ∃ r' s', run (step cmd) es (r, s) = some (r', s') ∧ Holds r' (es.foldl Line.next l) := by
  have hstep : ∀ e (x : Rx × σ) l, Holds x.1 l →
      ∃ x', step cmd e x = some x' ∧ Holds x'.1 (Line.next l e) := by
    rintro (b | _) ⟨r, s⟩ l hx
    · obtain ⟨r', he, hh⟩ := hx.byte b
      exact ⟨(r', s), by simp [step, he], hh⟩
    · obtain ⟨r', s', he, hh⟩ := hx.scan cmd s
      exact ⟨(r', s'), he, hh⟩
  obtain ⟨⟨r', s'⟩, he, hh⟩ := run_simulates hstep es (s := (r, s)) h
  exact ⟨r', s', he, hh⟩

end Simulation

end Generalplate.Usart
