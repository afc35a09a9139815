import Generalplate.Malloc.Group
import Generalplate.Ethernet.Desc
import Generalplate.Lwip.Memp

/-! # Starting the network: lwip_comm_init

`lwip_comm_init` takes two groups of four blocks from the internal bank, one for
the Ethernet driver (`ETH_Mem_Malloc`) and one for lwIP (`lwip_comm_mem_malloc`),
then starts the PHY and adds the interface. `main` retries until it returns 0.
Only malloc.c writes the allocation tables, so the PHY and lwIP steps appear as
the values they return. -/
namespace Generalplate.Lwip
open Malloc Ethernet Lib.RunTable

/-- `MEM_SIZE`, `TCPIP_THREAD_STACKSIZE`, `LWIP_DHCP_STK_SIZE`. -/
def memSize : Nat := 16000
def tcpipThreadStacksize : Nat := 2000
def lwipDhcpStkSize : Nat := 256

/-- A list of pools whose block the internal bank can hold. -/
structure PoolConfig where
  pools : List Mempool
  fits : mempGetMemorysize memAlignment pools ≤ memsize .sramIn

/-- The pools of this board. -/
def boardPools : PoolConfig := ⟨mempStd, by decide⟩

/-- The requests for `DMARxDscrTab`, `DMATxDscrTab`, `Rx_Buff` and `Tx_Buff`. -/
def ethRequests : List Nat :=
  [ethRxbufnb * sizeofDmadesc, ethTxbufnb * sizeofDmadesc, ethRxBufSize * ethRxbufnb,
    ethTxBufSize * ethTxbufnb]

def ramheapsize : Nat :=
  lwipMemAlignSize memAlignment memSize + 2 * lwipMemAlignSize memAlignment (4 * 3) + memAlignment

/-- The requests for `memp_memory`, `ram_heap`, `TCPIP_THREAD_TASK_STK` and
`LWIP_DHCP_TASK_STK`. -/
def lwipRequests (cfg : PoolConfig) : List Nat :=
  [mempGetMemorysize memAlignment cfg.pools, ramheapsize, tcpipThreadStacksize * 4,
    lwipDhcpStkSize * 4]

/-- The allocator and the two groups of pointer variables. -/
structure Comm where
  dev : MallcoDev
  eth : List Nat
  lwip : List Nat

/-- What the steps outside the allocator return. -/
structure Steps where
  lan8720Init : Nat
  netifAdd : Nat

/-! ## The functions of lan8720.c and lwip_comm.c -/

def ethMemFree (L : Layout) (s : Comm) : Comm := { s with dev := freeAll L .sramIn s.eth s.dev }

def ethMemMalloc (L : Layout) (s : Comm) : Nat × Comm :=
  let r := mallocAll L .sramIn ethRequests s.dev
  let s := { s with eth := r.1, dev := r.2 }
  if NULL ∈ s.eth then (1, ethMemFree L s) else (0, s)

def lwipCommMemFree (L : Layout) (s : Comm) : Comm :=
  { s with dev := freeAll L .sramIn s.lwip s.dev }

def lwipCommMemMalloc (L : Layout) (cfg : PoolConfig) (s : Comm) : Nat × Comm :=
  let r := mallocAll L .sramIn (lwipRequests cfg) s.dev
  let s := { s with lwip := r.1, dev := r.2 }
  if NULL ∈ s.lwip then (1, lwipCommMemFree L s) else (0, s)

def lwipCommInit (L : Layout) (cfg : PoolConfig) (o : Steps) (s : Comm) : Nat × Comm :=
  let e := ethMemMalloc L s
  if e.1 ≠ 0 then (1, e.2)
  else
    let m := lwipCommMemMalloc L cfg e.2
    if m.1 ≠ 0 then (1, m.2)
    else if o.lan8720Init ≠ 0 then (2, m.2)
    else if o.netifAdd = NULL then (3, m.2)
    else (0, m.2)

/-- The table of the internal bank is the same in both states. -/
def SameTable (d d' : MallcoDev) : Prop :=
  ∀ i, i < memtblsize .sramIn → d'.memmap .sramIn i = d.memmap .sramIn i

/-- The attempt holds no memory when it ends: the driver's requests cannot all
be met, so that it fails at its first step, or nothing fails at all. -/
def NothingHeld (L : Layout) (cfg : PoolConfig) (o : Steps) (s : Comm) : Prop :=
  ¬ Fits L .sramIn ethRequests s.dev ∨
    (Fits L .sramIn (ethRequests ++ lwipRequests cfg) s.dev ∧ o.lan8720Init = 0 ∧
      o.netifAdd ≠ NULL)

/-- The retry loop of `main`: failed attempts one after the other, each with its
own outcome of the steps and each holding nothing when it ends. -/
inductive Retries (L : Layout) (cfg : PoolConfig) (s : Comm) : Comm → Prop
  | start : Retries L cfg s s
  | again {s' : Comm} (o : Steps) : Retries L cfg s s' → NothingHeld L cfg o s' →
      (lwipCommInit L cfg o s').1 ≠ 0 → Retries L cfg s (lwipCommInit L cfg o s').2

/-! ## What one attempt leaves behind -/

theorem ethRequests_legal : ∀ s ∈ ethRequests, 0 < s ∧ s ≤ memsize .sramIn := by decide

theorem lwipRequests_le (cfg : PoolConfig) : ∀ s ∈ lwipRequests cfg, s ≤ memsize .sramIn := by
  intro s hs
  simp only [lwipRequests, List.mem_cons, List.not_mem_nil, or_false] at hs
  rcases hs with rfl | rfl | rfl | rfl
  · exact cfg.fits
  · decide
  · decide
  · decide

section Attempt
variable {L : Layout} (cfg : PoolConfig) {b : Nat → Nat} {s : Comm} {live : List Alloc}

/-- The driver's group: freed again on failure, live on success. -/
theorem ethMemMalloc_cases (h : Inv L .sramIn b s.dev live) :
    (¬ Fits L .sramIn ethRequests s.dev ∧ (ethMemMalloc L s).1 = 1 ∧
      Inv L .sramIn b (ethMemMalloc L s).2.dev live) ∨
    (Fits L .sramIn ethRequests s.dev ∧ (ethMemMalloc L s).1 = 0 ∧
      (ethMemMalloc L s).2.dev = (mallocAll L .sramIn ethRequests s.dev).2 ∧
      ∃ live', live' ≠ [] ∧ Inv L .sramIn b (ethMemMalloc L s).2.dev live') := by
  have hs : ∀ s ∈ ethRequests, s ≤ memsize .sramIn := fun s hm => (ethRequests_legal s hm).2
  by_cases hf : NULL ∈ (mallocAll L .sramIn ethRequests s.dev).1
  · refine Or.inl ⟨not_not_intro hf, ?_, ?_⟩
    · simp only [ethMemMalloc, if_pos hf]
    · simp only [ethMemMalloc, if_pos hf, ethMemFree]
      exact freeAll_mallocAll_inv h hs
  · have hne : granted (mallocAll L .sramIn ethRequests s.dev).1 ethRequests ≠ [] :=
      granted_ne_nil (mallocAll_length _ _) (by decide) hf
    refine Or.inr ⟨hf, ?_, ?_, _, List.append_ne_nil_of_left_ne_nil hne live, ?_⟩
    · simp only [ethMemMalloc, if_neg hf]
    · simp only [ethMemMalloc, if_neg hf]
    · simp only [ethMemMalloc, if_neg hf]
      exact mallocAll_inv h hs

/-- The group of lwIP: what was live before it is live after it. -/
theorem lwipCommMemMalloc_cases (h : Inv L .sramIn b s.dev live) (hne : live ≠ []) :
    ((lwipCommMemMalloc L cfg s).1 = 0 ↔ Fits L .sramIn (lwipRequests cfg) s.dev) ∧
      ∃ live', live' ≠ [] ∧ Inv L .sramIn b (lwipCommMemMalloc L cfg s).2.dev live' := by
  by_cases hf : NULL ∈ (mallocAll L .sramIn (lwipRequests cfg) s.dev).1
  · refine ⟨?_, live, hne, ?_⟩
    · simp [lwipCommMemMalloc, hf, Fits]
    · simp only [lwipCommMemMalloc, if_pos hf, lwipCommMemFree]
      exact freeAll_mallocAll_inv h (lwipRequests_le cfg)
  · refine ⟨?_, granted (mallocAll L .sramIn (lwipRequests cfg) s.dev).1 (lwipRequests cfg) ++ live,
      List.append_ne_nil_of_right_ne_nil _ hne, ?_⟩
    · simp [lwipCommMemMalloc, hf, Fits]
    · simp only [lwipCommMemMalloc, if_neg hf]
      exact mallocAll_inv h (lwipRequests_le cfg)

/-- Every way one attempt can end: the driver's group is refused and nothing is
held, or it is held whatever the later steps do. -/
theorem lwipCommInit_cases (h : Inv L .sramIn b s.dev live) (o : Steps) :
    (¬ Fits L .sramIn ethRequests s.dev ∧ (lwipCommInit L cfg o s).1 = 1 ∧
      Inv L .sramIn b (lwipCommInit L cfg o s).2.dev live) ∨
    (Fits L .sramIn ethRequests s.dev ∧
      ((lwipCommInit L cfg o s).1 = 0 ↔
        Fits L .sramIn (ethRequests ++ lwipRequests cfg) s.dev ∧ o.lan8720Init = 0 ∧
          o.netifAdd ≠ NULL) ∧
      ∃ live', live' ≠ [] ∧ Inv L .sramIn b (lwipCommInit L cfg o s).2.dev live') := by
  rcases ethMemMalloc_cases h with ⟨hf, hc, hi⟩ | ⟨hf, hc, hd, live1, hne1, hi⟩
  · refine Or.inl ⟨hf, ?_, ?_⟩
    · simp [lwipCommInit, hc]
    · simpa [lwipCommInit, hc] using hi
  · obtain ⟨hcode, live2, hne2, hi2⟩ := lwipCommMemMalloc_cases cfg hi hne1
    have hstate : (lwipCommInit L cfg o s).2 =
        (lwipCommMemMalloc L cfg (ethMemMalloc L s).2).2 := by
      simp only [lwipCommInit, hc]
      split
      · contradiction
      · split
        · rfl
        · split
          · rfl
          · split <;> rfl
    refine Or.inr ⟨hf, ?_, live2, hne2, by rw [hstate]; exact hi2⟩
    rw [fits_append, ← hd, ← hcode]
    simp only [lwipCommInit, hc]
    by_cases hm : (lwipCommMemMalloc L cfg (ethMemMalloc L s).2).1 = 0
    · by_cases hl : o.lan8720Init = 0
      · by_cases hn : o.netifAdd = NULL <;> simp [hm, hl, hn, hf]
      · simp [hm, hl]
    · simp [hm]

end Attempt

/-- **When a failed start gives its memory back.** A failing attempt leaves the
table as it was just when it holds nothing, that is when the driver's own
requests are the ones that fail; a failure of any later step keeps the driver's
blocks. While every attempt holds nothing, the loop in `main` may fail any
number of times and the next attempt sees the table of the first. -/
theorem lwipCommInit_atomic_iff (L : Layout) (cfg : PoolConfig) (s : Comm)
    (hr : s.dev.memrdy .sramIn = true) :
    (∀ o, ((lwipCommInit L cfg o s).1 ≠ 0 →
        SameTable s.dev (lwipCommInit L cfg o s).2.dev) ↔ NothingHeld L cfg o s) ∧
    (∀ s', Retries L cfg s s' → SameTable s.dev s'.dev) := by
  have hself : Inv L .sramIn (s.dev.memmap .sramIn) s.dev [] := Inv.self hr
  constructor
  · intro o
    rcases lwipCommInit_cases cfg hself o with ⟨hf, _, hi⟩ | ⟨hf, hcode, live, hne, hi⟩
    · exact ⟨fun _ => Or.inl hf, fun _ _ => hi.same_iff.mpr rfl⟩
    · have hdiff : ¬ SameTable s.dev (lwipCommInit L cfg o s).2.dev :=
        fun hsame => hne (hi.same_iff.mp hsame)
      constructor
      · intro h
        by_contra hheld
        exact hdiff (h fun hc => hheld (Or.inr (hcode.mp hc)))
      · rintro (hn | hn) hc
        · exact absurd hf hn
        · exact absurd (hcode.mpr hn) hc
  · intro s' hrun
    suffices h : Inv L .sramIn (s.dev.memmap .sramIn) s'.dev [] from h.same_iff.mpr rfl
    induction hrun with
    | start => exact hself
    | again o _ hheld hfail ih =>
      rcases lwipCommInit_cases cfg ih o with ⟨_, _, hi⟩ | ⟨hf, hcode, _⟩
      · exact hi
      · rcases hheld with hn | hn
        · exact absurd hf hn
        · exact absurd (hcode.mpr hn) hfail

/-- The board after `main` has initialised the internal bank. -/
def startState : Comm := ⟨mymemInit boardLayout .sramIn blankDev, [], []⟩

/-- What has room in the bank fits in it when it is freshly initialised. -/
theorem startState_fits {sizes : List Nat} (hs : ∀ s ∈ sizes, 0 < s ∧ s ≤ memsize .sramIn)
    (hsum : (sizes.map (blocks .sramIn)).sum ≤ memtblsize .sramIn) :
    Fits boardLayout .sramIn sizes startState.dev :=
  fits_of_room (mymemInit_memrdy ..) (Nat.le_refl _) (fun _ hi => mymemInit_memmap _ _ _ hi) hs hsum

/-- All eight requests of the board fit in the freshly initialised bank. -/
theorem boardRequests_fit :
    Fits boardLayout .sramIn (ethRequests ++ lwipRequests boardPools) startState.dev :=
  startState_fits (by decide) (by decide)

/-- When the PHY does not start, the attempt returns 2 and keeps the blocks of
both groups. -/
theorem lwipCommInit_leaks :
    (lwipCommInit boardLayout boardPools ⟨1, 1⟩ startState).1 = 2 ∧
      ¬ SameTable startState.dev (lwipCommInit boardLayout boardPools ⟨1, 1⟩ startState).2.dev := by
  have hself : Inv boardLayout .sramIn (startState.dev.memmap .sramIn) startState.dev [] :=
    Inv.self (mymemInit_memrdy ..)
  obtain ⟨heth, hlwip⟩ := fits_append.mp boardRequests_fit
  constructor
  · rcases ethMemMalloc_cases hself with ⟨hf, _, _⟩ | ⟨_, hc, hd, _, hne, hi⟩
    · exact absurd heth hf
    · have hm := (lwipCommMemMalloc_cases boardPools hi hne).1.mpr (by rw [hd]; exact hlwip)
      simp [lwipCommInit, hc, hm]
  · rcases lwipCommInit_cases boardPools hself ⟨1, 1⟩ with ⟨hf, _, _⟩ | ⟨_, _, _, hne, hi⟩
    · exact absurd heth hf
    · exact fun hsame => hne (hi.same_iff.mp hsame)

/-- The board with the upper 90000 bytes of the bank taken. -/
def takenState : Comm :=
  { startState with
    dev := startState.dev.setMap .sramIn (writeRun (startState.dev.memmap .sramIn) 387
      (blocks .sramIn 90000) (blocks .sramIn 90000)) }

/-- The bank has no room left for the last of the driver's four requests. -/
theorem takenState_refuses :
    takenState.dev.memrdy .sramIn = true ∧
      ¬ Fits boardLayout .sramIn ethRequests takenState.dev := by
  have hinit : Inv boardLayout .sramIn (fun _ => 0) startState.dev [] := Inv.init ..
  have hinv := hinit.mark (show 0 < 90000 by decide)
    ⟨show 387 + blocks .sramIn 90000 ≤ memtblsize .sramIn by decide,
      fun i _ hi => mymemInit_memmap _ _ _ (Nat.lt_of_lt_of_le hi (by decide))⟩
  exact ⟨hinv.ready, hinv.not_fits (fun s hs => (ethRequests_legal s hs).2) (by decide)⟩

/-- The attempt frees the three blocks it got, returns 1 and leaves the table as it was,
and the next one sees that table. -/
theorem lwipCommInit_atomic_iff_board :
    (lwipCommInit boardLayout boardPools ⟨0, 1⟩ takenState).1 ≠ 0 ∧
      SameTable takenState.dev (lwipCommInit boardLayout boardPools ⟨0, 1⟩ takenState).2.dev ∧
      ∃ s', Retries boardLayout boardPools takenState s' ∧ SameTable takenState.dev s'.dev := by
  obtain ⟨hready, hfull⟩ := takenState_refuses
  have h := lwipCommInit_atomic_iff boardLayout boardPools takenState hready
  have hfail : (lwipCommInit boardLayout boardPools ⟨0, 1⟩ takenState).1 ≠ 0 := by
    rcases lwipCommInit_cases boardPools (Inv.self hready) ⟨0, 1⟩ with ⟨_, hone, _⟩ | ⟨hf, _, _⟩
    · rw [hone]
      exact Nat.one_ne_zero
    · exact absurd hf hfull
  have hagain := Retries.again ⟨0, 1⟩ .start (Or.inl hfull) hfail
  exact ⟨hfail, (h.1 ⟨0, 1⟩).mpr (Or.inl hfull) hfail, _, hagain, h.2 _ hagain⟩

end Generalplate.Lwip
