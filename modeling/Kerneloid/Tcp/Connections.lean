import Kerneloid.Tcp.Table

/-! # Connections: opening them and receiving from them

Two questions about a connection over several calls. Does the acknowledgement that ends the
handshake open it? `tcp_process_packet` opens a socket that waits for the answer to its own request,
and no other: one that was listening has gone to `SOCKET_SYN_RECV` with the request and stays there
(`open_completes`). Does `tcp_recv` hand out the bytes received one after the other? It counts them
right, and copies from the start of the buffer every time (`recv_stream`). -/

namespace Kerneloid.Tcp.Connections

open Sockets Table

variable {B : List UInt8} {off : ℕ}

/-! ### Packets for one socket -/

/-- The socket takes the packet if no socket before it does. -/
def Socket.takes (s : Socket) (h : Headers) : Bool := s.listens h || s.talksTo h

/-- Two packets of one connection: from one peer, for one port. -/
structure SameFlow (h k : Headers) : Prop where
  destIp : k.destIp = h.destIp
  destPort : k.destPort = h.destPort
  srcIp : k.srcIp = h.srcIp
  srcPort : k.srcPort = h.srcPort

/-- **The socket alone takes the packet.** -/
structure Alone (n : NetIf) (i : Fin 16) (h : Headers) : Prop where
  takes : Socket.takes (n.sockets i) h = true
  others : ∀ j ≠ i, Socket.takes (n.sockets j) h = false

variable {n : NetIf} {s : Socket} {i : Fin 16} {h k : Headers} {p : List UInt8}

theorem SameFlow.takes (hf : SameFlow h k) (s : Socket) : Socket.takes s k = Socket.takes s h := by
  unfold Socket.takes Socket.listens Socket.talksTo
  rw [hf.destPort, hf.srcIp, hf.srcPort]

theorem demux_alone (hi : Alone n i h) : demux n h = some i := by
  have hsome : (demux n h).isSome := List.find?_isSome.mpr ⟨i, List.mem_finRange i, hi.takes⟩
  obtain ⟨j, hj⟩ := Option.isSome_iff_exists.mp hsome
  have hpj : Socket.takes (n.sockets j) h = true :=
    List.find?_some (p := fun i => Socket.takes (n.sockets i) h) hj
  by_cases e : j = i
  · rw [hj, e]
  · rw [hi.others j e] at hpj
    exact absurd hpj Bool.false_ne_true

theorem packet_alone (hp : headers p = some h) (hip : h.destIp = n.ip) (hi : Alone n i h) :
    tcpProcessPacket n p = (n.modify i fun s => s.process h, 0) := by
  unfold tcpProcessPacket
  rw [hp]
  dsimp only
  rw [if_neg (not_not.mpr hip), demux_alone hi]

/-! ### The handshake -/

/-- The connection request leaves a socket that talks to the sender. It is open if it asked for the
connection itself, or was open before. -/
theorem process_request (hs : Socket.takes s h = true) (hsyn : h.syn = true) :
    (s.process h).localPort = h.destPort ∧ (s.process h).remotePort = h.srcPort ∧
      (s.process h).remoteIp = h.srcIp ∧ (s.process h).state ≠ .listen ∧
      (((s.process h).state = .synSent ∨ (s.process h).state = .established) ↔
        (s.state = .synSent ∨ s.state = .established) ∧ h.fin = false) := by
  unfold Socket.process
  split_ifs with hl
  · -- a listening socket records the peer
    obtain ⟨hstate, hport⟩ : s.state = .listen ∧ h.destPort = s.localPort := by
      simpa [Socket.listens] using hl
    unfold Socket.request
    rw [if_pos hsyn]
    simp [hstate, hport]
  · -- any other one has it already
    have ht : s.localPort = h.destPort ∧ s.remotePort = h.srcPort ∧ s.remoteIp = h.srcIp := by
      simpa [Socket.takes, hl, Socket.talksTo] using hs
    have hstate : s.state ≠ .listen := by
      intro e
      exact hl (by simp [Socket.listens, e, ht.1])
    unfold Socket.segment
    cases ha : h.ack <;> cases hf : h.fin <;> simp [ht, hstate]
    split_ifs with e <;> simp [e, hstate]

theorem process_acknowledgement (hs : s.state ≠ .listen) (hack : k.ack = true)
    (hfin : k.fin = false) :
    (s.process k).localPort = s.localPort ∧ (s.process k).remotePort = s.remotePort ∧
      (s.process k).remoteIp = s.remoteIp ∧
      ((s.process k).state = .established ↔ s.state = .synSent ∨ s.state = .established) := by
  have hl : s.listens k = false := by simp [Socket.listens, hs]
  unfold Socket.process Socket.segment
  rw [hl, hack, hfin]
  refine ⟨rfl, rfl, rfl, ?_⟩
  by_cases e : s.state = .synSent <;> simp [e]

theorem send_of_state (n : NetIf) (i : Fin 16) (len : UInt32) :
    (tcpSend n (i : ℕ) len).2 = if n.state i = .established then len.toInt32.toInt else -1 := by
  unfold tcpSend
  rw [slotOf_fin]
  by_cases e : n.state i = .established <;> simp [e]

/-- **Opening a connection.** For every interface, every socket that alone takes the packets of a
peer, every packet of this peer with SYN and every further one with ACK and without FIN: the peer is
recorded, and the socket is established, so that `tcp_send` succeeds, exactly if it waited for the
answer to its own request or was established before, and the first packet has no FIN. A socket that
was listening is never established by them. -/
theorem open_completes (n : NetIf) (i : Fin 16) (p q : List UInt8) (h k : Headers)
    (hp : headers p = some h) (hq : headers q = some k) (hip : h.destIp = n.ip)
    (hflow : SameFlow h k) (hi : Alone n i h) (hsyn : h.syn = true) (hack : k.ack = true)
    (hfin : k.fin = false) :
    let after := (tcpProcessPacket (tcpProcessPacket n p).1 q).1
    (after.sockets i).remoteIp = h.srcIp ∧ (after.sockets i).remotePort = h.srcPort ∧
      (after.state i = .established ↔
        (n.state i = .synSent ∨ n.state i = .established) ∧ h.fin = false) ∧
      ∀ len, (tcpSend after (i : ℕ) len).2 =
        if (n.state i = .synSent ∨ n.state i = .established) ∧ h.fin = false
        then len.toInt32.toInt else -1 := by
  obtain ⟨hlp, hrp, hri, hnl, hopen⟩ := process_request hi.takes hsyn
  rw [packet_alone hp hip hi]
  -- the second packet finds the same socket, which has the peer by now
  have hself : (n.modify i fun s => s.process h).sockets i = (n.sockets i).process h :=
    Function.update_self ..
  have hi' : Alone (n.modify i fun s => s.process h) i k := by
    refine ⟨?_, fun j hj => ?_⟩
    · rw [hself]
      simp [Socket.takes, Socket.talksTo, hlp, hrp, hri, hflow.destPort, hflow.srcIp, hflow.srcPort]
    · have hother : (n.modify i fun s => s.process h).sockets j = n.sockets j :=
        Function.update_of_ne hj ..
      rw [hother, hflow.takes]
      exact hi.others j hj
  have hip' : k.destIp = (n.modify i fun s => s.process h).ip := hflow.destIp.trans hip
  rw [packet_alone hq hip' hi']
  intro after
  have hafter : after.sockets i = ((n.sockets i).process h).process k :=
    (Function.update_self ..).trans (congrArg (fun s => Socket.process s k) hself)
  obtain ⟨-, hrp', hri', hest⟩ := process_acknowledgement hnl hack hfin
  have hstate : after.state i = .established ↔
      (n.state i = .synSent ∨ n.state i = .established) ∧ h.fin = false := by
    show (after.sockets i).state = .established ↔ _
    rw [hafter, hest, hopen]
  refine ⟨?_, ?_, hstate, fun len => ?_⟩
  · rw [hafter, hri', hri]
  · rw [hafter, hrp', hrp]
  · rw [send_of_state]
    exact if_congr hstate rfl rfl

instance (h k : Headers) : Decidable (SameFlow h k) :=
  decidable_of_iff
    (k.destIp = h.destIp ∧ k.destPort = h.destPort ∧ k.srcIp = h.srcIp ∧ k.srcPort = h.srcPort)
    ⟨fun ⟨a, b, c, d⟩ => ⟨a, b, c, d⟩, fun ⟨a, b, c, d⟩ => ⟨a, b, c, d⟩⟩

instance (n : NetIf) (i : Fin 16) (h : Headers) : Decidable (Alone n i h) :=
  decidable_of_iff
    (Socket.takes (n.sockets i) h = true ∧ ∀ j ≠ i, Socket.takes (n.sockets j) h = false)
    ⟨fun ⟨a, b⟩ => ⟨a, b⟩, fun ⟨a, b⟩ => ⟨a, b⟩⟩

/-- A socket that asks for a connection. -/
def asking : NetIf :=
  [.socket 5000, .connect 0 0x0a000002 80].foldl step (tcpInit blank (fun _ => 2) 0x0a000001)

/-- The headers of `frame`. -/
def frameHeaders (flags : UInt8) : Headers := ⟨0x0a000002, 0x0a000001, 80, 5000, 0, 7, flags⟩

theorem open_completes_asking :
    Alone asking 0 (frameHeaders 0x12) ∧
      (tcpProcessPacket (tcpProcessPacket asking (frame 0x12)).1 (frame 0x10)).1.state 0 =
        .established :=
  have hi : Alone asking 0 (frameHeaders 0x12) := by decide +kernel
  ⟨hi, (open_completes asking 0 (frame 0x12) (frame 0x10) (frameHeaders 0x12) (frameHeaders 0x10)
    (by decide +kernel) (by decide +kernel) (by decide +kernel) (by decide +kernel) hi
    (by decide +kernel) (by decide +kernel) (by decide +kernel)).2.2.1.mpr (by decide +kernel)⟩

/-- A socket that listens. -/
def serving : NetIf :=
  [.socket 5000, .listen 0].foldl step (tcpInit blank (fun _ => 2) 0x0a000001)

/-- **A passive open is not completed**: the acknowledgement leaves the socket where the request has
put it, and nothing can be sent. -/
theorem passive_open_stays :
    serving.state 0 = .listen ∧ Alone serving 0 (frameHeaders 0x02) ∧
      (tcpProcessPacket (tcpProcessPacket serving (frame 0x02)).1 (frame 0x10)).1.state 0 =
        .synRecv ∧
      (tcpSend (tcpProcessPacket (tcpProcessPacket serving (frame 0x02)).1 (frame 0x10)).1 0 1).2 =
        -1 := by
  decide +kernel

/-! ### Receiving -/

/-- The bytes a socket has received. -/
def Socket.buffered (s : Socket) : List UInt8 := (List.range s.recvLen.toNat).map s.recvBuf

/-- Calls of `tcp_recv` with the given lengths, and all the bytes they return. -/
def recvAll (fd : ℤ) (n : NetIf) : List UInt32 → NetIf × List UInt8
  | [] => (n, [])
  | len :: lens =>
    let r := tcpRecv n fd len
    let rest := recvAll fd r.1 lens
    (rest.1, r.2.2 ++ rest.2)

/-- **Reads from the start of `B` return the bytes that are next**, if `off` of them are read
already: what stands at `off` is what stands at the start, as far as each call reads. -/
def Repeats (B : List UInt8) : ℕ → List ℕ → Prop
  | _, [] => True
  | off, len :: lens =>
    (B.drop off).take len = B.take (min len (B.length - off)) ∧
      Repeats B (off + min len (B.length - off)) lens

instance decidableRepeats (B : List UInt8) : ∀ off lens, Decidable (Repeats B off lens)
  | _, [] => isTrue trivial
  | off, len :: lens =>
    have := decidableRepeats B (off + min len (B.length - off)) lens
    inferInstanceAs (Decidable (_ = _ ∧ _))

theorem min_toNat (a b : UInt32) : (if a < b then a else b).toNat = min a.toNat b.toNat := by
  split_ifs with h
  · have := UInt32.lt_iff_toNat_lt.mp h
    omega
  · have := UInt32.lt_iff_toNat_lt.not.mp h
    omega

theorem recv_one (he : n.state i = .established) (len : UInt32) : let r := tcpRecv n (i : ℕ) len
    let count := if len < (n.sockets i).recvLen then len else (n.sockets i).recvLen
    r.2.2 = (List.range count.toNat).map (n.sockets i).recvBuf ∧
      r.1.sockets i = { n.sockets i with
        recvLen := (n.sockets i).recvLen - count
        recvAck := (n.sockets i).recvAck + count } := by
  intro r count
  have hr : r = tcpRecv n (i : ℕ) len := rfl
  unfold tcpRecv at hr
  rw [slotOf_fin] at hr
  dsimp only at hr
  rw [if_neg (not_not.mpr he)] at hr
  by_cases h0 : (n.sockets i).recvLen = 0
  · rw [if_pos h0] at hr
    have hcount : count = 0 := by
      have hnot : ¬ len < (n.sockets i).recvLen := by simp [h0]
      show (if len < (n.sockets i).recvLen then len else (n.sockets i).recvLen) = 0
      rw [if_neg hnot, h0]
    rw [hr, hcount]
    simp
  · rw [if_neg h0] at hr
    rw [hr]
    exact ⟨rfl, Function.update_self ..⟩

/-- The numbers after `off` bytes of `B` were read. -/
structure Progress (B : List UInt8) (off : ℕ) (s : Socket) : Prop where
  state : s.state = .established
  buffer : (List.range B.length).map s.recvBuf = B
  left : s.recvLen.toNat = B.length - off

theorem Progress.take (h : Progress B off s) {c : ℕ}
    (hc : c ≤ B.length) : (List.range c).map s.recvBuf = B.take c := by
  have hmap := congrArg (List.take c) h.buffer
  rw [← List.map_take, List.take_range, min_eq_left hc] at hmap
  exact hmap

theorem append_isPrefix_append {α : Type*} {x y r t : List α} (hl : x.length = y.length) :
    x ++ r <+: y ++ t ↔ x = y ∧ r <+: t := by
  constructor
  · rintro ⟨z, hz⟩
    rw [List.append_assoc] at hz
    obtain ⟨hxy, hrt⟩ := List.append_inj hz hl
    exact ⟨hxy, z, hrt⟩
  · rintro ⟨rfl, z, rfl⟩
    exact ⟨z, List.append_assoc ..⟩

/-- The calls return the bytes counted, and they are the next ones as long as the buffer repeats
itself. -/
theorem recvAll_from (lens : List UInt32) {n : NetIf} (hoff : off ≤ B.length)
    (h : Progress B off (n.sockets i)) : let got := recvAll (i : ℕ) n lens
    let total := min (B.length - off) (lens.map UInt32.toNat).sum
    got.2.length = total ∧
      (got.1.sockets i).recvAck = (n.sockets i).recvAck + UInt32.ofNat total ∧
      (got.2 <+: B.drop off ↔ Repeats B off (lens.map UInt32.toNat)) := by
  induction lens generalizing off n with
  | nil =>
    simp [recvAll, Repeats]
  | cons len lens ih =>
    obtain ⟨hbytes, hsock⟩ := recv_one (i := i) h.state len
    have hcount := min_toNat len (n.sockets i).recvLen
    rw [h.left] at hcount
    generalize (if len < (n.sockets i).recvLen then len else (n.sockets i).recvLen) = count
      at hbytes hsock hcount
    set c := min len.toNat (B.length - off) with hc
    have hle : count ≤ (n.sockets i).recvLen := by
      rw [UInt32.le_iff_toNat_le, hcount, h.left]
      exact min_le_right _ _
    have hprog : Progress B (off + c) ((tcpRecv n (i : ℕ) len).1.sockets i) := by
      rw [hsock]
      refine ⟨h.state, h.buffer, ?_⟩
      show ((n.sockets i).recvLen - count).toNat = _
      rw [UInt32.toNat_sub_of_le _ _ hle, h.left, hcount]
      omega
    obtain ⟨hlen, hack, hpre⟩ := ih (by omega) hprog
    rw [hcount, h.take (by omega)] at hbytes
    have hsplit : B.drop off = (B.drop off).take c ++ B.drop (off + c) := by
      rw [← List.drop_drop, List.take_append_drop]
    have htotal : min (B.length - off) ((len :: lens).map UInt32.toNat).sum =
        c + min (B.length - (off + c)) (lens.map UInt32.toNat).sum := by
      rw [List.map_cons, List.sum_cons]
      omega
    have hl : (B.take c).length = ((B.drop off).take c).length := by
      rw [List.length_take, List.length_take, List.length_drop]
      omega
    refine ⟨?_, ?_, ?_⟩
    · show ((tcpRecv n (i : ℕ) len).2.2 ++ (recvAll (i : ℕ) _ lens).2).length = _
      rw [List.length_append, hlen, hbytes, htotal, List.length_take]
      omega
    · show ((recvAll (i : ℕ) _ lens).1.sockets i).recvAck = _
      rw [hack, hsock, htotal, UInt32.ofNat_add, ← hcount, UInt32.ofNat_toNat]
      show (n.sockets i).recvAck + count + _ = _
      rw [UInt32.add_assoc]
    · show (tcpRecv n (i : ℕ) len).2.2 ++ (recvAll (i : ℕ) _ lens).2 <+: _ ↔ _
      have htake : (B.drop off).take len.toNat = (B.drop off).take c := by
        rw [List.take_eq_take_min, List.length_drop]
      rw [hbytes, hsplit, append_isPrefix_append hl, hpre, ← htake, eq_comm]
      rfl

/-- **Receiving.** For every established socket and all lengths: the calls return as many bytes as
are there and asked for, and `recv_ack` advances by their number. The bytes are a prefix of what was
received exactly if each call finds at the start of the buffer what is next. -/
theorem recv_stream (n : NetIf) (i : Fin 16) (lens : List UInt32) (he : n.state i = .established) :
    let B := Socket.buffered (n.sockets i)
    let got := recvAll (i : ℕ) n lens
    let total := min B.length (lens.map UInt32.toNat).sum
    got.2.length = total ∧
      (got.1.sockets i).recvAck = (n.sockets i).recvAck + UInt32.ofNat total ∧
      (got.2 <+: B ↔ Repeats B 0 (lens.map UInt32.toNat)) := by
  intro B
  have hlen : B.length = (n.sockets i).recvLen.toNat := by
    show ((List.range _).map _).length = _
    rw [List.length_map, List.length_range]
  have hprog : Progress B 0 (n.sockets i) := by
    refine ⟨he, ?_, ?_⟩
    · rw [hlen]
      rfl
    · rw [hlen, Nat.sub_zero]
  exact recvAll_from lens (Nat.zero_le _) hprog

/-- An established socket that has received the bytes. -/
def holding (bytes : List UInt8) : NetIf :=
  { blank with
    sockets := fun _ =>
      ⟨0, 5000, 0x0a000002, 80, .established, 0, 0, fun j => bytes.getD j 0,
        UInt32.ofNat bytes.length⟩ }

theorem recv_stream_whole :
    Socket.buffered ((holding [97, 98]).sockets 3) = [97, 98] ∧
      (recvAll 3 (holding [97, 98]) [4, 4]).2 <+: [97, 98] :=
  ⟨by decide +kernel,
    (recv_stream (holding [97, 98]) 3 [4, 4] (by decide +kernel)).2.2.mpr (by decide +kernel)⟩

/-- **The first byte is returned twice.** -/
theorem recv_again :
    Socket.buffered ((holding [97, 98]).sockets 3) = [97, 98] ∧
      (recvAll 3 (holding [97, 98]) [1, 1]).2 = [97, 97] ∧
      ¬ (recvAll 3 (holding [97, 98]) [1, 1]).2 <+: [97, 98] := by
  decide +kernel

end Kerneloid.Tcp.Connections
