import Generalplate.Lib.EventRun
import Generalplate.Lwip.Err
import Generalplate.Ethernet.RxRing

/-! # Receiving through the receive ring

`ETH_IRQHandler` hands frames on as long as `ETH_GetRxPktSize` sees one: it takes the
frame, allocates a chain, copies the frame to it, gives the descriptor back and calls
`netif->input`. The DMA receives meanwhile. The guard does not see every frame the
DMA may write back, and one it does not see stays at the head of the ring. -/
namespace Generalplate.Ethernet
open Lib.Ring Lib.ByteMem Lib.EventRun Lwip

/-- Where the handler is: outside, at its guard, or below it in `ETH_Rx_Packet`,
`pbuf_alloc`, the copy loop, the return of the descriptor, `netif->input` and
`pbuf_free`. While it copies, `lens` are the segments to fill, `l` is the running
offset, `q` the bytes of the current segment and `segs` the segments filled. -/
inductive InPc where
  | out
  | guard
  | rx
  | alloc (frame : FrameTypeDef)
  | copy (frame : FrameTypeDef) (p : Nat) (lens : List Nat) (l : Nat) (q : List UInt8)
      (segs : List (List UInt8))
  | own (frame : FrameTypeDef) (p : Option (Nat × List (List UInt8)))
  | input (p : Nat) (segs : List (List UInt8))
  | free (p : Nat)
deriving DecidableEq

/-- What the handler does: it takes the frame of a descriptor, asks for a chain, gives
a descriptor back with a status, hands a chain to `netif->input` and frees one. -/
inductive InEvent where
  | rx (descriptor : Nat)
  | alloc (p : Option Nat)
  | own (descriptor : Nat) (status : BitVec 32)
  | input (p : Nat) (payload : List UInt8) (err : ErrT)
  | free (p : Nat)
deriving DecidableEq

/-- The receiving side: the driver, the memory, the handler, what it did, and what
the DMA has received. -/
structure Receiver where
  eth : EthRx
  mem : Nat → UInt8
  pc : InPc
  log : List InEvent
  received : List RxFrame

/-- After `ETH_DMARxDescChainInit` and `ETH_Start`. -/
def Receiver.init (t : DescTab) (rxBuff : Nat) (e : EthRx) (mem : Nat → UInt8) : Receiver :=
  ⟨ethStartRx (ethDmaRxDescChainInit t rxBuff e), mem, .out, [], []⟩

/-- What can happen: the interrupt and the steps of its handler, with the chain that
`pbuf_alloc` gives and the result of `netif->input`; the DMA writes a byte, writes a
frame back or changes its status register. -/
inductive InAct where
  | irq
  | test
  | rx
  | alloc (p : Option (Nat × List Nat))
  | copy
  | own
  | input (err : ErrT)
  | free
  | store (i : Nat) (b : UInt8)
  | close (w : BitVec 32) (x : ExtWords) (sr : BitVec 32)
  | signal (sr : BitVec 32)

/-- `len` of `low_level_input`, a `u16_t`. -/
def FrameTypeDef.len (frame : FrameTypeDef) : Nat := (frame.length.setWidth 16).toNat

def inStep : InAct → Receiver → Option Receiver
  | .irq, s =>
    match s.pc with
    | .out => some { s with pc := .guard }
    | _ => none
  | .test, s =>
    match s.pc with
    | .guard => some { s with
        pc := if ethGetRxPktSize (s.eth.desc s.eth.dmaRxDescToGet) ≠ 0#32 then .rx else .out }
    | _ => none
  | .rx, s =>
    match s.pc with
    | .rx =>
      let r := ethRxPacket s.eth
      some { s with
        eth := r.2
        pc := .alloc r.1
        log := s.log ++ [.rx r.1.descriptor] }
    | _ => none
  | .alloc p, s =>
    match s.pc, p with
    | .alloc frame, none => some { s with
        pc := .own frame none
        log := s.log ++ [.alloc none] }
    | .alloc frame, some (p, lens) =>
      if lens.sum = frame.len then
        some { s with
          pc := .copy frame p lens 0 [] []
          log := s.log ++ [.alloc (some p)] }
      else none
    | _, _ => none
  | .copy, s =>
    match s.pc with
    | .copy frame p [] _ _ segs => some { s with pc := .own frame (some (p, segs)) }
    | .copy frame p (len :: lens) l q segs =>
      if q.length < len then
        some { s with
          pc := .copy frame p (len :: lens) l (q ++ [s.mem (frame.buffer + l + q.length)]) segs }
      else some { s with pc := .copy frame p lens (l + len) [] (segs ++ [q]) }
    | _ => none
  | .own, s =>
    match s.pc with
    | .own frame p =>
      let eth := giveBack frame.descriptor s.eth
      some { s with
        eth := eth
        pc := match p with
          | none => .guard
          | some (p, segs) => .input p segs
        log := s.log ++ [.own frame.descriptor (eth.desc frame.descriptor).status] }
    | _ => none
  | .input err, s =>
    match s.pc with
    | .input p segs => some { s with
        pc := if err = .ok then .guard else .free p
        log := s.log ++ [.input p segs.flatten err] }
    | _ => none
  | .free, s =>
    match s.pc with
    | .free p => some { s with pc := .guard, log := s.log ++ [.free p] }
    | _ => none
  | .store i b, s =>
    let d := s.eth.desc s.eth.dmachrdr
    if d.Owned ∧ i < d.bufferSize then
      some { s with mem := Function.update s.mem (d.buffer1Addr + i) b }
    else none
  | .close w x sr, s =>
    let d := s.eth.desc s.eth.dmachrdr
    if d.Owned then
      some { s with
        eth := dmaRxClose w x sr s.eth
        received := s.received ++ [⟨w &&& ~~~dmaDescOwn, get s.mem d.buffer1Addr ethRxBufSize⟩] }
    else none
  | .signal sr, s => some { s with eth := { s.eth with dmasr := sr } }

/-- What each step can do. -/
inductive InNext (s : Receiver) : InAct → Receiver → Prop where
  | irq (hpc : s.pc = .out) : InNext s .irq { s with pc := .guard }
  | seen (hpc : s.pc = .guard)
      (hsize : ethGetRxPktSize (s.eth.desc s.eth.dmaRxDescToGet) ≠ 0#32) :
    InNext s .test { s with pc := .rx }
  | unseen (hpc : s.pc = .guard)
      (hsize : ethGetRxPktSize (s.eth.desc s.eth.dmaRxDescToGet) = 0#32) :
    InNext s .test { s with pc := .out }
  | rx (hpc : s.pc = .rx) : InNext s .rx { s with
      eth := (ethRxPacket s.eth).2
      pc := .alloc (ethRxPacket s.eth).1
      log := s.log ++ [.rx (ethRxPacket s.eth).1.descriptor] }
  | allocNone {frame : FrameTypeDef} (hpc : s.pc = .alloc frame) :
    InNext s (.alloc none) { s with
      pc := .own frame none
      log := s.log ++ [.alloc none] }
  | allocSome {frame : FrameTypeDef} {p : Nat} {lens : List Nat} (hpc : s.pc = .alloc frame)
      (hlens : lens.sum = frame.len) :
    InNext s (.alloc (some (p, lens))) { s with
      pc := .copy frame p lens 0 [] []
      log := s.log ++ [.alloc (some p)] }
  | copied {frame : FrameTypeDef} {p l : Nat} {q : List UInt8} {segs : List (List UInt8)}
      (hpc : s.pc = .copy frame p [] l q segs) :
    InNext s .copy { s with pc := .own frame (some (p, segs)) }
  | byte {frame : FrameTypeDef} {p len l : Nat} {lens : List Nat} {q : List UInt8}
      {segs : List (List UInt8)} (hpc : s.pc = .copy frame p (len :: lens) l q segs)
      (hlt : q.length < len) :
    InNext s .copy { s with
      pc := .copy frame p (len :: lens) l (q ++ [s.mem (frame.buffer + l + q.length)]) segs }
  | segment {frame : FrameTypeDef} {p len l : Nat} {lens : List Nat} {q : List UInt8}
      {segs : List (List UInt8)} (hpc : s.pc = .copy frame p (len :: lens) l q segs)
      (hge : ¬ q.length < len) :
    InNext s .copy { s with pc := .copy frame p lens (l + len) [] (segs ++ [q]) }
  | ownNone {frame : FrameTypeDef} (hpc : s.pc = .own frame none) : InNext s .own { s with
      eth := giveBack frame.descriptor s.eth
      pc := .guard
      log := s.log ++
        [.own frame.descriptor ((giveBack frame.descriptor s.eth).desc frame.descriptor).status] }
  | ownSome {frame : FrameTypeDef} {p : Nat} {segs : List (List UInt8)}
      (hpc : s.pc = .own frame (some (p, segs))) : InNext s .own { s with
      eth := giveBack frame.descriptor s.eth
      pc := .input p segs
      log := s.log ++
        [.own frame.descriptor ((giveBack frame.descriptor s.eth).desc frame.descriptor).status] }
  | accepted {p : Nat} {segs : List (List UInt8)} (hpc : s.pc = .input p segs) :
    InNext s (.input .ok) { s with
      pc := .guard
      log := s.log ++ [.input p segs.flatten .ok] }
  | refused {p : Nat} {segs : List (List UInt8)} {err : ErrT} (hpc : s.pc = .input p segs)
      (herr : err ≠ .ok) : InNext s (.input err) { s with
      pc := .free p
      log := s.log ++ [.input p segs.flatten err] }
  | free {p : Nat} (hpc : s.pc = .free p) : InNext s .free { s with
      pc := .guard
      log := s.log ++ [.free p] }
  | store {i : Nat} {b : UInt8} (ho : (s.eth.desc s.eth.dmachrdr).Owned)
      (hi : i < (s.eth.desc s.eth.dmachrdr).bufferSize) : InNext s (.store i b) { s with
      mem := Function.update s.mem ((s.eth.desc s.eth.dmachrdr).buffer1Addr + i) b }
  | close {w sr : BitVec 32} {x : ExtWords} (ho : (s.eth.desc s.eth.dmachrdr).Owned) :
    InNext s (.close w x sr) { s with
      eth := dmaRxClose w x sr s.eth
      received := s.received ++ [⟨w &&& ~~~dmaDescOwn,
        get s.mem (s.eth.desc s.eth.dmachrdr).buffer1Addr ethRxBufSize⟩] }
  | signal (sr : BitVec 32) : InNext s (.signal sr) { s with eth := { s.eth with dmasr := sr } }

theorem inStep_next {a : InAct} {s s' : Receiver} (hs : inStep a s = some s') : InNext s a s' := by
  cases a with
  | test =>
    simp only [inStep] at hs
    split at hs
    · rename_i hpc
      cases hs
      split
      · rename_i hsize
        exact .seen hpc hsize
      · rename_i hsize
        exact .unseen hpc (Classical.not_not.mp hsize)
    · cases hs
  | alloc p =>
    simp only [inStep] at hs
    split at hs
    · rename_i hpc
      cases hs
      exact .allocNone hpc
    · rename_i hpc
      split at hs
      · rename_i hlens
        cases hs
        exact .allocSome hpc hlens
      · cases hs
    · cases hs
  | copy =>
    simp only [inStep] at hs
    split at hs
    · rename_i hpc
      cases hs
      exact .copied hpc
    · rename_i hpc
      split at hs
      · rename_i hlt
        cases hs
        exact .byte hpc hlt
      · rename_i hge
        cases hs
        exact .segment hpc hge
    · cases hs
  | own =>
    simp only [inStep] at hs
    split at hs
    · rename_i frame p hpc
      cases hs
      cases p with
      | none => exact .ownNone hpc
      | some p => exact .ownSome hpc
    · cases hs
  | input err =>
    simp only [inStep] at hs
    split at hs
    · rename_i hpc
      cases hs
      split
      · rename_i herr
        subst herr
        exact .accepted hpc
      · rename_i herr
        exact .refused hpc herr
    · cases hs
  | store i b =>
    simp only [inStep] at hs
    split at hs
    · rename_i hc
      cases hs
      exact .store hc.1 hc.2
    · cases hs
  | close w sr =>
    simp only [inStep] at hs
    split at hs
    · rename_i ho
      cases hs
      exact .close ho
    · cases hs
  | signal sr =>
    cases hs
    exact .signal sr
  | irq | rx | free =>
    simp only [inStep] at hs
    split at hs
    · rename_i hpc
      cases hs
      constructor
      exact hpc
    · cases hs

/-! ## The ring in a run -/

/-- The handler holds the descriptor of a frame it has taken. -/
def InPc.held : InPc → Nat
  | .alloc _ => 1
  | .copy .. => 1
  | .own .. => 1
  | _ => 0

/-- The frame in hand. -/
def InPc.frame : InPc → Option FrameTypeDef
  | .alloc frame => some frame
  | .copy frame .. => some frame
  | .own frame _ => some frame
  | _ => none

/-- `n` descriptors are given back, the next one may be in hand, and the guard has
seen a frame that passes. -/
structure Taking (t : DescTab) (rxBuff : Nat) (s : Receiver) (n : Nat) : Prop where
  ring : RxInv t rxBuff s.eth s.mem s.received (n + s.pc.held) n
  seen : s.pc = .rx → ∃ f, s.received[n]? = some f ∧ f.Passes
  hand : ∀ frame, s.pc.frame = some frame → frame.descriptor = t.addr (n % t.count)

section Steps
variable {t : DescTab} {rxBuff n : Nat} {s s' : Receiver} {a : InAct}

/-- The descriptors given back by a step. -/
def InAct.gives : InAct → Nat
  | .own => 1
  | _ => 0

theorem Taking.init (t : DescTab) (rxBuff : Nat) (e : EthRx) (mem : Nat → UInt8) :
    Taking t rxBuff (.init t rxBuff e mem) 0 :=
  ⟨RxInv.init t rxBuff e mem, nofun, nofun⟩

/-- A step of the handler that leaves the ring alone. -/
theorem Taking.move (h : Taking t rxBuff s n) {pc : InPc} {log : List InEvent}
    (hheld : pc.held = s.pc.held) (hrx : pc ≠ .rx) (hframe : pc.frame = s.pc.frame) :
    Taking t rxBuff { s with pc := pc, log := log } n :=
  ⟨by rw [hheld]; exact h.ring, fun hc => absurd hc hrx, fun frame hf => h.hand frame (hframe ▸ hf)⟩

/-- The descriptor in hand goes back. -/
theorem Taking.give (h : Taking t rxBuff s n) {frame : FrameTypeDef}
    (hframe : s.pc.frame = some frame) (hheld : s.pc.held = 1) {pc : InPc} {log : List InEvent}
    (hpc : pc.held = 0) (hrx : pc ≠ .rx) (hnone : pc.frame = none) :
    Taking t rxBuff { s with eth := giveBack frame.descriptor s.eth, pc := pc, log := log }
      (n + 1) := by
  have hring := h.ring
  rw [hheld] at hring
  refine ⟨?_, fun hc => absurd hc hrx, ?_⟩
  · rw [hpc, h.hand frame hframe]
    exact hring.giveBack
  · intro g hg
    rw [show (pc.frame = some g) = (none = some g) by rw [hnone]] at hg
    cases hg

theorem Taking.step (h : Taking t rxBuff s n) (hs : inStep a s = some s') :
    Taking t rxBuff s' (n + a.gives) := by
  have hring := h.ring
  cases inStep_next hs with
  | irq hpc | unseen hpc hsize | allocNone hpc | allocSome hpc _ | copied hpc | byte hpc _
  | segment hpc _ | accepted hpc | refused hpc _ | free hpc =>
    exact h.move (by rw [hpc]; rfl) nofun (by rw [hpc]; rfl)
  | seen hpc hsize =>
    rw [hpc] at hring
    exact ⟨hring, fun _ => hring.size_ne_iff.mp hsize, nofun⟩
  | rx hpc =>
    obtain ⟨f, hf, hpass⟩ := h.seen hpc
    rw [hpc] at hring
    obtain ⟨hdescriptor, htaken⟩ := hring.take hf hpass
    exact ⟨htaken, nofun, fun frame hframe => by cases hframe; exact hdescriptor⟩
  | ownNone hpc | ownSome hpc =>
    exact h.give (by rw [hpc]; rfl) (by rw [hpc]; rfl) rfl nofun rfl
  | store ho hi => exact ⟨hring.store ho hi _, h.seen, h.hand⟩
  | close ho =>
    refine ⟨hring.close ho _ _ _, ?_, h.hand⟩
    intro hpc
    obtain ⟨f, hf, hpass⟩ := h.seen hpc
    obtain ⟨hlt, -⟩ := List.getElem?_eq_some_iff.mp hf
    exact ⟨f, (List.getElem?_append_left hlt).trans hf, hpass⟩
  | signal sr => exact ⟨hring.registers rfl rfl rfl, h.seen, h.hand⟩

theorem Taking.run {acts : List InAct} (h : Taking t rxBuff s n)
    (hrun : run inStep acts s = some s') : ∃ m, Taking t rxBuff s' m := by
  have hstep : ∀ a s s', (∃ m, Taking t rxBuff s m) → inStep a s = some s' →
      ∃ m, Taking t rxBuff s' m := by
    intro a s s' htaking hs
    obtain ⟨m, h⟩ := htaking
    exact ⟨m + a.gives, h.step hs⟩
  exact run_keeps hstep ⟨n, h⟩ hrun

end Steps

/-- **Where reception stalls.** In every run, when `ETH_IRQHandler` returns, the DMA
owns the head of the ring exactly when every frame it has written back so far passes
the guard: no error, the last segment, and a length. -/
theorem head_owned_iff (t : DescTab) (rxBuff : Nat) (e : EthRx) (mem : Nat → UInt8)
    {acts : List InAct} {s s' : Receiver} (hrun : run inStep acts (.init t rxBuff e mem) = some s)
    (htest : inStep .test s = some s') (hout : s'.pc = .out) :
    (s'.eth.desc s'.eth.dmaRxDescToGet).Owned ↔ ∀ f ∈ s'.received, f.Passes := by
  obtain ⟨n, h⟩ := (Taking.init t rxBuff e mem).run hrun
  cases inStep_next htest with
  | seen => cases hout
  | unseen hpc hsize =>
    have hring := h.ring
    rw [hpc] at hring
    have htaken := hring.taken
    rw [hring.head_owned]
    constructor
    · intro hall f hf
      obtain ⟨k, hk⟩ := List.getElem?_of_mem hf
      obtain ⟨hlt, -⟩ := List.getElem?_eq_some_iff.mp hk
      exact hring.passed k f (by rw [hall]; exact hlt) hk
    · intro hall
      by_contra hne
      have hlt : n < s.received.length := Nat.lt_of_le_of_ne htaken hne
      have hsees := hring.size_ne_iff.mpr
        ⟨_, List.getElem?_eq_getElem hlt, hall _ (List.getElem_mem hlt)⟩
      exact hsees hsize

/-- The table of this board at an address of the internal bank, and nothing in the
registers. -/
def boardRxTab : DescTab := ⟨0x20002000, ethRxbufnb, by decide, by decide⟩

def blankEthRx : EthRx := ⟨fun _ => default, 0, 0, 0, 0#32, 0#32⟩

/-- A good frame of 64 bytes is received and handled: the DMA owns the head. -/
theorem head_owned_board : ∃ s s' : Receiver,
    run inStep [.close 0x00400300#32 default 0#32, .irq, .test, .rx, .alloc none, .own]
      (.init boardRxTab 0x20005000 blankEthRx fun _ => 0) = some s ∧
    inStep .test s = some s' ∧
    ((s'.eth.desc s'.eth.dmaRxDescToGet).Owned ↔ ∀ f ∈ s'.received, f.Passes) := by
  have hreturns : ((run inStep
      [.close 0x00400300#32 default 0#32, .irq, .test, .rx, .alloc none, .own]
      (.init boardRxTab 0x20005000 blankEthRx fun _ => 0)).bind (inStep .test)).map Receiver.pc =
      some .out := by decide +kernel
  obtain ⟨s', hs', hout⟩ := Option.map_eq_some_iff.mp hreturns
  obtain ⟨s, hs, htest⟩ := Option.bind_eq_some_iff.mp hs'
  exact ⟨s, s', hs, htest, head_owned_iff boardRxTab 0x20005000 blankEthRx _ hs htest hout⟩

/-- A frame with an error is written back, and a good one behind it: the handler
returns at once, then and ever after. -/
theorem error_stalls : ∃ s : Receiver,
    run inStep [.close 0x00408300#32 default 0#32, .irq, .test,
      .close 0x00400300#32 default 0#32, .irq, .test]
      (.init boardRxTab 0x20005000 blankEthRx fun _ => 0) = some s ∧
    s.pc = .out ∧ s.log = [] ∧ s.received.length = 2 ∧
    ¬ (s.eth.desc s.eth.dmaRxDescToGet).Owned :=
  ⟨_, rfl, rfl, rfl, rfl, by decide +kernel⟩

end Generalplate.Ethernet
