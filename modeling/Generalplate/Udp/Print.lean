import Generalplate.Lcd.Text
import Generalplate.Udp.Receive

/-! # Showing what was received

`udp_thread` prints its receive buffer as a string, `tcp_server_thread` shows its own
on the display and prints it. A string ends with a NUL, and nothing but the clear
before the copy puts one there. -/
namespace Generalplate.Udp
open Lib.ByteMem TcpServer Lcd

/-- The text that `%s` of `printf` prints of these bytes, none when it reads behind
them. -/
def printfString : List UInt8 → Option (List UInt8)
  | [] => none
  | c :: s => if c = 0 then some [] else (printfString s).map (c :: ·)

theorem printfString_isSome (s : List UInt8) : (printfString s).isSome ↔ 0 ∈ s := by
  induction s with
  | nil => simp [printfString]
  | cons c s ih =>
    rw [printfString, List.mem_cons]
    by_cases hc : c = 0
    · rw [if_pos hc]
      exact iff_of_true rfl (Or.inl hc.symm)
    · rw [if_neg hc, Option.isSome_map, ih, or_iff_right (Ne.symm hc)]

/-- `printf` in `udp_thread` after these datagrams stays inside the buffer. -/
def UdpPrints (buf : Nat) (mem : Nat → UInt8) (ps : List (List Pbuf)) : Prop :=
  (printfString (get (ps.foldl (receive buf) (.start mem)).store.mem buf udpDemoRxBufsize)).isSome

/-- `LCD_ShowString` and `printf` in `tcp_server_thread` do. -/
def TcpPrints (mem : Nat → UInt8) (p : List Pbuf) : Prop :=
  (lcdShowString 30 270 210 200 16 (recvbufAtCheck p mem)).isSome ∧
  (printfString (recvbufAtCheck p mem)).isSome

/-- The buffer ends with a zero unless the bytes fill it. -/
theorem zero_mem_padded (n : Nat) (bs : List UInt8) :
    0 ∈ padded n bs ↔ bs.length < n ∨ 0 ∈ bs.take n := by
  rw [padded, List.mem_append, List.mem_replicate]
  have hroom : n - bs.length ≠ 0 ↔ bs.length < n := by omega
  constructor
  · rintro (htake | ⟨hne, -⟩)
    · exact Or.inr htake
    · exact Or.inl (hroom.mp hne)
  · rintro (hlt | htake)
    · exact Or.inr ⟨hroom.mpr hlt, rfl⟩
    · exact Or.inl htake

theorem udpPrints_iff (buf : Nat) (mem : Nat → UInt8) (ps : List (List Pbuf)) (p : List Pbuf) :
    UdpPrints buf mem (ps ++ [p]) ↔
      (chainBytes p).length < udpDemoRxBufsize ∨ 0 ∈ (chainBytes p).take udpDemoRxBufsize := by
  rw [UdpPrints, receive_buffer, printfString_isSome, zero_mem_padded]

/-- The display stops at the NUL at the latest. -/
theorem tcpPrints_iff (mem : Nat → UInt8) (p : List Pbuf) : TcpPrints mem p ↔
    (firstBytes p).length < tcpPackBufsize ∨ 0 ∈ (firstBytes p).take tcpPackBufsize := by
  rw [TcpPrints, recvbufAtCheck_eq, printfString_isSome, ← zero_mem_padded, and_iff_right_iff_imp]
  intro hzero
  exact lcdShowString_stops _ _ _ _ _ hzero (by decide)

/-- **Showing a packet.** Both tasks stay inside their buffers exactly when the copied
bytes leave room for a NUL or contain one. -/
theorem prints_inside_iff (buf : Nat) (mem : Nat → UInt8) (ps : List (List Pbuf))
    (p : List Pbuf) :
    (UdpPrints buf mem (ps ++ [p]) ↔
      (chainBytes p).length < udpDemoRxBufsize ∨ 0 ∈ (chainBytes p).take udpDemoRxBufsize) ∧
    (TcpPrints mem p ↔
      (firstBytes p).length < tcpPackBufsize ∨ 0 ∈ (firstBytes p).take tcpPackBufsize) :=
  ⟨udpPrints_iff buf mem ps p, tcpPrints_iff mem p⟩

/-- 56 letters fill the buffer of the TCP server, and 2000 that of the UDP task. -/
theorem prints_run_past :
    ¬ TcpPrints (fun _ => 0) [⟨List.replicate 56 0x41, by decide⟩] ∧
    ¬ UdpPrints 0x20000000 (fun _ => 0)
      ([] ++ [[⟨List.replicate 2000 0x41, by rw [List.length_replicate]; decide⟩]]) := by
  rw [tcpPrints_iff, udpPrints_iff, chainBytes, List.flatMap_singleton]
  refine ⟨by decide, ?_⟩
  rintro (hlt | hmem)
  · rw [List.length_replicate] at hlt
    exact Nat.lt_irrefl _ hlt
  · have hletter := List.eq_of_mem_replicate (List.mem_of_mem_take hmem)
    exact absurd hletter (by decide)

end Generalplate.Udp
