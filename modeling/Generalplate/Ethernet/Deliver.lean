import Generalplate.Ethernet.Input

/-! # What is done with a good frame

A good frame lies in one descriptor, whose status says so. The handler goes through
such frames one after the other: it takes the frame, allocates a chain or not, gives
the descriptor back and, if it has a chain, copies the frame to it and hands it to
`netif->input`, and frees it if that refuses it. -/
namespace Generalplate.Ethernet
open Lib.Ring Lib.ByteMem Lib.EventRun Lwip

/-- The status of a frame without error, in one descriptor, that is neither too short
nor longer than its buffer. -/
def GoodStatus (w : BitVec 32) : Prop :=
  w &&& ethDmaRxDescES = 0#32 ∧ w &&& ethDmaRxDescLS ≠ 0#32 ∧ w &&& ethDmaRxDescFS ≠ 0#32 ∧
    64 ≤ (ethGetDmaRxDescFrameLength w).toNat ∧
    (ethGetDmaRxDescFrameLength w).toNat ≤ ethRxBufSize

/-- The DMA writes back good frames only. -/
def InAct.Good : InAct → Prop
  | .close w _ _ => GoodStatus w
  | _ => True

/-- The length of a frame without its checksum, and its bytes. -/
def RxFrame.length (f : RxFrame) : Nat := (ethGetDmaRxDescFrameLength f.status).toNat - 4

def RxFrame.data (f : RxFrame) : List UInt8 := f.bytes.take f.length

/-- All that is done with the frame of descriptor `a`: nothing but to give the
descriptor back when there is no chain for it; otherwise chain `p` is handed to
`netif->input` with the frame in it, and freed if the result is an error. -/
def visit (a : Nat) (f : RxFrame) : Option (Nat × ErrT) → List InEvent
  | none => [.rx a, .alloc none, .own a dmaDescOwn]
  | some (p, err) => [.rx a, .alloc (some p), .own a dmaDescOwn, .input p f.data err] ++
      if err = .ok then [] else [.free p]

/-- The visits of the frames so far, each with its outcome, around the ring. -/
def visits (t : DescTab) (done : List (RxFrame × Option (Nat × ErrT))) : List InEvent :=
  done.zipIdx.flatMap fun d => visit (t.addr (d.2 % t.count)) d.1.1 d.1.2

/-- The handler is between two frames. -/
def InPc.Idle : InPc → Prop
  | .out => True
  | .guard => True
  | .rx => True
  | _ => False

/-- The descriptor of the frame being handled is given back. -/
def InPc.gone : InPc → Nat
  | .input .. => 1
  | .free _ => 1
  | _ => 0

/-- `FrameTypeDef` of a good frame. -/
def RxFrame.inHand (f : RxFrame) (a buffer : Nat) : FrameTypeDef :=
  ⟨ethGetDmaRxDescFrameLength f.status - 4#32, buffer, a⟩

/-- What is done so far with frame `f` of descriptor `a`. -/
def InPc.Doing (a buffer : Nat) (f : RxFrame) : InPc → List InEvent → Prop
  | .alloc frame, tail => frame = f.inHand a buffer ∧ tail = [.rx a]
  | .copy frame p lens l q segs, tail => frame = f.inHand a buffer ∧
    tail = [.rx a, .alloc (some p)] ∧ l + lens.sum = f.length ∧ q.length ≤ lens.headD 0 ∧
    segs.flatten ++ q = f.bytes.take (l + q.length)
  | .own frame none, tail => frame = f.inHand a buffer ∧ tail = [.rx a, .alloc none]
  | .own frame (some (p, segs)), tail => frame = f.inHand a buffer ∧
    tail = [.rx a, .alloc (some p)] ∧ segs.flatten = f.data
  | .input p segs, tail => tail = [.rx a, .alloc (some p), .own a dmaDescOwn] ∧
    segs.flatten = f.data
  | .free p, tail => ∃ err, err ≠ .ok ∧
    tail = [.rx a, .alloc (some p), .own a dmaDescOwn, .input p f.data err]
  | _, _ => False

/-- The log is the visits of the first frames received and the beginning of the next
one's. -/
structure Delivering (t : DescTab) (rxBuff : Nat) (s : Receiver)
    (done : List (RxFrame × Option (Nat × ErrT))) (tail : List InEvent) : Prop where
  taking : Taking t rxBuff s (done.length + s.pc.gone)
  good : ∀ f ∈ s.received, GoodStatus f.status
  frames : done.map Prod.fst <+: s.received
  log : s.log = visits t done ++ tail
  current : (s.pc.Idle ∧ tail = []) ∨ ∃ f, s.received[done.length]? = some f ∧
    s.pc.Doing (t.addr (done.length % t.count))
      (rxBuff + done.length % t.count * ethRxBufSize) f tail

section Frames
variable {f : RxFrame} {w : BitVec 32}

/-- Clearing the OWN bit leaves the others. -/
theorem GoodStatus.clear (h : GoodStatus w) : GoodStatus (w &&& ~~~dmaDescOwn) := by
  have hmask : ∀ m : BitVec 32, ~~~dmaDescOwn &&& m = m →
      (w &&& ~~~dmaDescOwn) &&& m = w &&& m := by
    intro m hm
    rw [BitVec.and_assoc, hm]
  rw [GoodStatus, ethGetDmaRxDescFrameLength, hmask _ (by decide), hmask _ (by decide),
    hmask _ (by decide), hmask _ (by decide)]
  exact h

theorem GoodStatus.passes (h : GoodStatus f.status) : f.Passes := by
  obtain ⟨hes, hls, -, hlow, -⟩ := h
  refine ⟨hes, hls, ?_⟩
  intro hz
  rw [hz] at hlow
  exact absurd hlow (by decide)

theorem GoodStatus.length_lt (h : GoodStatus f.status) : f.length < ethRxBufSize := by
  obtain ⟨-, -, -, hlow, hhigh⟩ := h
  rw [RxFrame.length]
  omega

/-- The chain is allocated for the frame without its checksum. -/
theorem GoodStatus.len (h : GoodStatus f.status) (a buffer : Nat) :
    (f.inHand a buffer).len = f.length := by
  obtain ⟨-, -, -, hlow, hhigh⟩ := h
  simp only [ethRxBufSize] at hhigh
  rw [FrameTypeDef.len, RxFrame.inHand, BitVec.toNat_setWidth, BitVec.toNat_sub, RxFrame.length]
  simp only [BitVec.toNat_ofNat]
  omega

theorem visits_snoc (t : DescTab) (done : List (RxFrame × Option (Nat × ErrT))) (f : RxFrame)
    (o : Option (Nat × ErrT)) :
    visits t (done ++ [(f, o)]) = visits t done ++ visit (t.addr (done.length % t.count)) f o := by
  simp [visits, List.zipIdx_append]

end Frames

section Steps
variable {t : DescTab} {rxBuff : Nat} {s s' : Receiver} {a : InAct}
  {done : List (RxFrame × Option (Nat × ErrT))} {tail : List InEvent}

/-- `ETH_Rx_Packet` on a good frame. -/
theorem RxInv.take_good {e : EthRx} {mem : Nat → UInt8} {received : List RxFrame} {got : Nat}
    (h : RxInv t rxBuff e mem received got got) {f : RxFrame} (hf : received[got]? = some f)
    (hgood : GoodStatus f.status) :
    (ethRxPacket e).1 = f.inHand (t.addr (got % t.count))
      (rxBuff + got % t.count * ethRxBufSize) := by
  obtain ⟨hes, hls, hfs, -, -⟩ := hgood
  have hno := h.head_not_owned hf
  have hhead := h.head hf
  rw [ethRxPacket, if_neg hno, hhead, if_pos ⟨hes, hls, hfs⟩, h.toGet,
    h.buffer _ (Nat.mod_lt _ t.pos)]
  rfl

theorem giveBack_status (a : Nat) (e : EthRx) : ((giveBack a e).desc a).status = dmaDescOwn := by
  rw [giveBack, (resumeReception_frame _).1, setStatus_self]

/-- A prefix grows by the element behind it. -/
theorem prefix_concat_of_getElem? {α : Type*} {l m : List α} {x : α} (h : l <+: m)
    (hx : m[l.length]? = some x) : l ++ [x] <+: m := by
  obtain ⟨rest, rfl⟩ := h
  rw [List.getElem?_append_right (Nat.le_refl _), Nat.sub_self] at hx
  obtain ⟨rest, rfl⟩ := List.head?_eq_some_iff.mp (List.head?_eq_getElem? ▸ hx)
  exact ⟨rest, by simp⟩

theorem Delivering.idle (h : Delivering t rxBuff s done tail) (hpc : s.pc.Idle) : tail = [] := by
  rcases h.current with ⟨-, htail⟩ | ⟨f, -, hdoing⟩
  · exact htail
  · cases hat : s.pc with
    | out | guard | rx =>
      rw [hat] at hdoing
      exact hdoing.elim
    | alloc | copy | own | input | free =>
      rw [hat] at hpc
      exact hpc.elim

theorem Delivering.busy (h : Delivering t rxBuff s done tail) {pc : InPc} (hpc : s.pc = pc)
    (hbusy : ¬ pc.Idle) :
    ∃ f, s.received[done.length]? = some f ∧ GoodStatus f.status ∧
      pc.Doing (t.addr (done.length % t.count))
        (rxBuff + done.length % t.count * ethRxBufSize) f tail := by
  subst hpc
  rcases h.current with ⟨hidle, -⟩ | ⟨f, hf, hdoing⟩
  · exact absurd hidle hbusy
  · exact ⟨f, hf, h.good f (List.mem_of_getElem? hf), hdoing⟩

/-- One more byte of a segment. -/
theorem InPc.Doing.byte {desc buffer : Nat} {f : RxFrame} {mem : Nat → UInt8}
    {frame : FrameTypeDef} {p len l : Nat} {lens : List Nat} {q : List UInt8}
    {segs : List (List UInt8)}
    (h : (InPc.copy frame p (len :: lens) l q segs).Doing desc buffer f tail)
    (hlt : q.length < len) (hgood : GoodStatus f.status)
    (hbuf : get mem buffer ethRxBufSize = f.bytes) :
    (InPc.copy frame p (len :: lens) l (q ++ [mem (frame.buffer + l + q.length)]) segs).Doing
      desc buffer f tail := by
  obtain ⟨hframe, htail, hsum, hq, hbytes⟩ := h
  have hlen := hgood.length_lt
  have hrest := hsum
  rw [List.sum_cons] at hrest
  refine ⟨hframe, htail, hsum, ?_, ?_⟩
  · rw [List.length_append]
    exact hlt
  · rw [List.length_append, List.length_singleton, ← Nat.add_assoc,
      take_succ_get hbuf (by omega), ← hbytes, hframe, List.append_assoc, Nat.add_assoc]
    rfl

/-- A segment is full. -/
theorem InPc.Doing.segment {desc buffer : Nat} {f : RxFrame} {frame : FrameTypeDef}
    {p len l : Nat} {lens : List Nat} {q : List UInt8} {segs : List (List UInt8)}
    (h : (InPc.copy frame p (len :: lens) l q segs).Doing desc buffer f tail)
    (hge : ¬ q.length < len) :
    (InPc.copy frame p lens (l + len) [] (segs ++ [q])).Doing desc buffer f tail := by
  obtain ⟨hframe, htail, hsum, hq, hbytes⟩ := h
  have hfull : q.length = len := Nat.le_antisymm hq (Nat.not_lt.mp hge)
  rw [List.sum_cons, ← Nat.add_assoc] at hsum
  refine ⟨hframe, htail, hsum, Nat.zero_le _, ?_⟩
  rw [List.flatten_append, List.flatten_singleton, List.append_nil, hbytes, hfull]
  rfl

/-- The chain is full. -/
theorem InPc.Doing.copied {desc buffer : Nat} {f : RxFrame} {frame : FrameTypeDef} {p l : Nat}
    {q : List UInt8} {segs : List (List UInt8)}
    (h : (InPc.copy frame p [] l q segs).Doing desc buffer f tail) :
    (InPc.own frame (some (p, segs))).Doing desc buffer f tail := by
  obtain ⟨hframe, htail, hsum, hq, hbytes⟩ := h
  have hnil : q = [] := List.length_eq_zero_iff.mp (Nat.le_zero.mp hq)
  subst hnil
  refine ⟨hframe, htail, ?_⟩
  rw [List.append_nil] at hbytes
  rw [hbytes, RxFrame.data, ← hsum]
  rfl

/-- One more thing is done with the frame in hand. -/
theorem Delivering.advance (h : Delivering t rxBuff s done tail) {f : RxFrame}
    (hf : s.received[done.length]? = some f) {e : EthRx} {pc : InPc} {events : List InEvent}
    (htaking : Taking t rxBuff { s with eth := e, pc := pc, log := s.log ++ events }
      (done.length + pc.gone))
    (hdoing : pc.Doing (t.addr (done.length % t.count))
      (rxBuff + done.length % t.count * ethRxBufSize) f (tail ++ events)) :
    Delivering t rxBuff { s with eth := e, pc := pc, log := s.log ++ events } done
      (tail ++ events) := by
  refine ⟨htaking, h.good, h.frames, ?_, Or.inr ⟨f, hf, hdoing⟩⟩
  rw [h.log, List.append_assoc]

/-- The handler comes back to its guard with one more frame visited. -/
theorem Delivering.finish (h : Delivering t rxBuff s done tail) {f : RxFrame}
    (hf : s.received[done.length]? = some f) {o : Option (Nat × ErrT)} {e : EthRx}
    {log : List InEvent}
    (htaking : Taking t rxBuff { s with eth := e, pc := .guard, log := log } (done.length + 1))
    (hlog : log = visits t done ++ visit (t.addr (done.length % t.count)) f o) :
    Delivering t rxBuff { s with eth := e, pc := .guard, log := log } (done ++ [(f, o)]) [] := by
  refine ⟨?_, h.good, ?_, ?_, Or.inl ⟨trivial, rfl⟩⟩
  · rw [List.length_append]
    exact htaking
  · rw [List.map_append]
    exact prefix_concat_of_getElem? h.frames (by rwa [List.length_map])
  · rw [visits_snoc, List.append_nil]
    exact hlog

theorem Delivering.init (t : DescTab) (rxBuff : Nat) (e : EthRx) (mem : Nat → UInt8) :
    Delivering t rxBuff (.init t rxBuff e mem) [] [] :=
  ⟨Taking.init t rxBuff e mem, nofun, List.nil_prefix, rfl, Or.inl ⟨trivial, rfl⟩⟩

theorem Delivering.step (h : Delivering t rxBuff s done tail) (ha : a.Good)
    (hs : inStep a s = some s') : ∃ done' tail', Delivering t rxBuff s' done' tail' := by
  have htaking := h.taking.step hs
  cases inStep_next hs with
  | irq hpc | unseen hpc hsize | seen hpc hsize =>
    have htail := h.idle (by rw [hpc]; trivial)
    rw [hpc] at htaking
    exact ⟨done, tail, htaking, h.good, h.frames, h.log, Or.inl ⟨trivial, htail⟩⟩
  | rx hpc =>
    have htail := h.idle (by rw [hpc]; trivial)
    have hring := h.taking.ring
    obtain ⟨f, hf, -⟩ := h.taking.seen hpc
    rw [hpc] at hring htaking hf
    have hframe := hring.take_good hf (h.good f (List.mem_of_getElem? hf))
    refine ⟨done, _, h.advance hf htaking ⟨hframe, ?_⟩⟩
    rw [htail, hframe]
    rfl
  | @allocNone frame hpc =>
    obtain ⟨f, hf, hgood, hframe, htail⟩ := h.busy hpc id
    rw [hpc] at htaking
    refine ⟨done, _, h.advance hf htaking ⟨hframe, ?_⟩⟩
    rw [htail]
    rfl
  | @allocSome frame p lens hpc hlens =>
    obtain ⟨f, hf, hgood, hframe, htail⟩ := h.busy hpc id
    rw [hpc] at htaking
    refine ⟨done, _, h.advance hf htaking ⟨hframe, ?_, ?_, Nat.zero_le _, rfl⟩⟩
    · rw [htail]
      rfl
    · rw [Nat.zero_add, hlens, hframe, hgood.len]
  | @copied frame p l q segs hpc =>
    obtain ⟨f, hf, hgood, hdoing⟩ := h.busy hpc id
    rw [hpc] at htaking
    exact ⟨done, tail, htaking, h.good, h.frames, h.log, Or.inr ⟨f, hf, hdoing.copied⟩⟩
  | @byte frame p len l lens q segs hpc hlt =>
    obtain ⟨f, hf, hgood, hdoing⟩ := h.busy hpc id
    have hring := h.taking.ring
    rw [hpc] at htaking hring
    obtain ⟨-, hbuf⟩ := hring.waits _ f (Nat.le_refl _) hf
    exact ⟨done, tail, htaking, h.good, h.frames, h.log,
      Or.inr ⟨f, hf, hdoing.byte hlt hgood hbuf⟩⟩
  | @segment frame p len l lens q segs hpc hge =>
    obtain ⟨f, hf, hgood, hdoing⟩ := h.busy hpc id
    rw [hpc] at htaking
    exact ⟨done, tail, htaking, h.good, h.frames, h.log, Or.inr ⟨f, hf, hdoing.segment hge⟩⟩
  | @ownNone frame hpc =>
    obtain ⟨f, hf, hgood, hframe, htail⟩ := h.busy hpc id
    rw [hpc] at htaking
    refine ⟨_, _, h.finish (o := none) hf htaking ?_⟩
    rw [giveBack_status, h.log, htail, hframe, List.append_assoc]
    rfl
  | @ownSome frame p segs hpc =>
    obtain ⟨f, hf, hgood, hframe, htail, hdata⟩ := h.busy hpc id
    rw [hpc] at htaking
    refine ⟨done, _, h.advance hf htaking ⟨?_, hdata⟩⟩
    rw [giveBack_status, htail, hframe]
    rfl
  | @accepted p segs hpc =>
    obtain ⟨f, hf, hgood, htail, hdata⟩ := h.busy hpc id
    rw [hpc] at htaking
    refine ⟨_, _, h.finish (o := some (p, .ok)) hf htaking ?_⟩
    rw [h.log, htail, hdata, List.append_assoc]
    rfl
  | @refused p segs err hpc herr =>
    obtain ⟨f, hf, hgood, htail, hdata⟩ := h.busy hpc id
    rw [hpc] at htaking
    refine ⟨done, _, h.advance hf htaking ⟨err, herr, ?_⟩⟩
    rw [htail, hdata]
    rfl
  | @free p hpc =>
    obtain ⟨f, hf, hgood, err, herr, htail⟩ := h.busy hpc id
    rw [hpc] at htaking
    refine ⟨_, _, h.finish (o := some (p, err)) hf htaking ?_⟩
    rw [h.log, htail, List.append_assoc, visit, if_neg herr]
  | store ho hi => exact ⟨done, tail, htaking, h.good, h.frames, h.log, h.current⟩
  | close ho =>
    refine ⟨done, tail, htaking, ?_, h.frames.trans (List.prefix_append _ _), h.log, ?_⟩
    · exact List.forall_mem_append.mpr ⟨h.good, List.forall_mem_singleton.mpr (GoodStatus.clear ha)⟩
    · rcases h.current with hidle | ⟨f, hf, hdoing⟩
      · exact Or.inl hidle
      · obtain ⟨hlt, -⟩ := List.getElem?_eq_some_iff.mp hf
        exact Or.inr ⟨f, (List.getElem?_append_left hlt).trans hf, hdoing⟩
  | signal sr => exact ⟨done, tail, htaking, h.good, h.frames, h.log, h.current⟩

theorem Delivering.run {acts : List InAct} (h : Delivering t rxBuff s done tail)
    (hgood : ∀ a ∈ acts, a.Good) (hrun : run inStep acts s = some s') :
    ∃ done' tail', Delivering t rxBuff s' done' tail' := by
  have hstep : ∀ a s s', (∃ done tail, Delivering t rxBuff s done tail) → a.Good →
      inStep a s = some s' → ∃ done tail, Delivering t rxBuff s' done tail := by
    rintro a s s' ⟨done, tail, h⟩ ha hs
    exact h.step ha hs
  exact run_inv_events hstep ⟨done, tail, h⟩ hgood hrun

/-- What is done with the frame in hand is the beginning of a visit. -/
theorem InPc.Doing.unfinished {pc : InPc} {a buffer : Nat} {f : RxFrame}
    (h : pc.Doing a buffer f tail) : ∃ o rest, tail ++ rest = visit a f o := by
  cases pc with
  | out | guard | rx => exact h.elim
  | alloc frame =>
    obtain ⟨-, rfl⟩ := h
    exact ⟨none, [.alloc none, .own a dmaDescOwn], rfl⟩
  | copy frame p lens l q segs =>
    obtain ⟨-, rfl, -⟩ := h
    exact ⟨some (p, .ok), [.own a dmaDescOwn, .input p f.data .ok], rfl⟩
  | own frame p =>
    cases p with
    | none =>
      obtain ⟨-, rfl⟩ := h
      exact ⟨none, [.own a dmaDescOwn], rfl⟩
    | some p =>
      obtain ⟨-, rfl, -⟩ := h
      exact ⟨some (p.1, .ok), [.own a dmaDescOwn, .input p.1 f.data .ok], rfl⟩
  | input p segs =>
    obtain ⟨rfl, -⟩ := h
    exact ⟨some (p, .ok), [.input p f.data .ok], rfl⟩
  | free p =>
    obtain ⟨err, herr, rfl⟩ := h
    refine ⟨some (p, err), [.free p], ?_⟩
    rw [visit, if_neg herr]

/-- When the handler returns, every frame received is visited. -/
theorem Delivering.returned (h : Delivering t rxBuff s done tail)
    (htest : inStep .test s = some s') (hout : s'.pc = .out) :
    tail = [] ∧ done.map Prod.fst = s'.received := by
  cases inStep_next htest with
  | seen => cases hout
  | unseen hpc hsize =>
    have hring := h.taking.ring
    rw [hpc] at hring
    refine ⟨h.idle (by rw [hpc]; trivial), h.frames.eq_of_length ?_⟩
    rw [List.length_map]
    by_contra hne
    have htaken : done.length ≤ s.received.length := hring.taken
    have hlt : done.length < s.received.length := Nat.lt_of_le_of_ne htaken hne
    have hpass := (h.good _ (List.getElem_mem hlt)).passes
    exact hring.size_ne_iff.mpr ⟨_, List.getElem?_eq_getElem hlt, hpass⟩ hsize

end Steps

/-- **Delivery.** In every run on good frames, what the handler has done is the visits
of the first frames received, one each and in their order, and the beginning of the
next one's. When it returns, all frames received are visited. -/
theorem receive_delivers (t : DescTab) (rxBuff : Nat) (e : EthRx) (mem : Nat → UInt8)
    {acts : List InAct} {s : Receiver} (hgood : ∀ a ∈ acts, a.Good)
    (hrun : run inStep acts (.init t rxBuff e mem) = some s) :
    ∃ done tail, s.log = visits t done ++ tail ∧ done.map Prod.fst <+: s.received ∧
      (tail = [] ∨ ∃ f o rest, s.received[done.length]? = some f ∧
        tail ++ rest = visit (t.addr (done.length % t.count)) f o) ∧
      ∀ s', inStep .test s = some s' → s'.pc = .out →
        tail = [] ∧ done.map Prod.fst = s'.received := by
  obtain ⟨done, tail, h⟩ := (Delivering.init t rxBuff e mem).run hgood hrun
  refine ⟨done, tail, h.log, h.frames, ?_, fun s' => h.returned⟩
  rcases h.current with ⟨-, htail⟩ | ⟨f, hf, hdoing⟩
  · exact Or.inl htail
  · obtain ⟨o, rest, hrest⟩ := hdoing.unfinished
    exact Or.inr ⟨f, o, rest, hf, hrest⟩

/-- One frame without a chain, and a second one in a chain of two that the stack
refuses. -/
def twoFrames : List InAct :=
  [.close 0x00400300#32 default 0#32, .irq, .test, .rx, .close 0x00400300#32 default 0#32,
    .alloc none, .own, .test, .rx, .alloc (some (1, [40, 20]))] ++ List.replicate 63 .copy ++
      [.own, .input .conn, .free]

theorem receive_delivers_board : ∃ s done tail,
    run inStep twoFrames (.init boardRxTab 0x20005000 blankEthRx fun _ => 0) = some s ∧
    s.log = visits boardRxTab done ++ tail ∧ done.map Prod.fst <+: s.received ∧
      (tail = [] ∨ ∃ f o rest, s.received[done.length]? = some f ∧
        tail ++ rest = visit (boardRxTab.addr (done.length % boardRxTab.count)) f o) ∧
      ∀ s', inStep .test s = some s' → s'.pc = .out →
        tail = [] ∧ done.map Prod.fst = s'.received := by
  have hruns : (run inStep twoFrames
      (.init boardRxTab 0x20005000 blankEthRx fun _ => 0)).isSome := by decide +kernel
  have hstatus : GoodStatus 0x00400300#32 :=
    ⟨by decide, by decide, by decide, by decide, by decide⟩
  have hgood : ∀ a ∈ twoFrames, a.Good := by simp [twoFrames, InAct.Good, hstatus]
  obtain ⟨s, hs⟩ := Option.isSome_iff_exists.mp hruns
  obtain ⟨done, tail, h⟩ := receive_delivers boardRxTab 0x20005000 blankEthRx _ hgood hs
  exact ⟨s, done, tail, hs, h⟩

end Generalplate.Ethernet
