import Kerneloid.Lib.Runs
import Kerneloid.Tcp.Sockets

/-! # The socket table

The state of a socket is also the mark of a free slot. `tcp_socket` leaves the socket it gives out
closed, so the next call can give it out again, and `tcp_close` counts down whatever it is given.
A socket leaves CLOSED by `tcp_listen`, `tcp_connect` or a packet, and only `tcp_close` takes it back
(`closed_by_close`). So if a program asks for a socket when those it has are off CLOSED, and closes
what it was given (`Fresh`), the descriptors are distinct and `socket_count` is their number.

A packet is matched by ports and peer, and these outlive a close: a packet for a closed socket
changes it (`closed_changed`). `closed_untouched` says which packets do not. -/

namespace Kerneloid.Tcp.Table

open Lib.Runs Sockets

/-- The interface, and the descriptors `tcp_socket` has returned that are not yet closed. -/
structure Tracked where
  net : NetIf
  live : List (Fin 16)

/-- The descriptors after a call: `tcp_socket` adds the one it returns, and a `tcp_close` that does
not fail removes the one it is given. -/
def record (t : Tracked) : Op → List (Fin 16)
  | .socket port => t.live ++ (slotOf (tcpSocket t.net port).2).toList
  | .close fd =>
    match slotOf fd with
    | none => t.live
    | some i => t.live.erase i
  | _ => t.live

def track (t : Tracked) (op : Op) : Tracked := ⟨step t.net op, record t op⟩

/-- **The calls that respect the descriptors**: at `tcp_socket` every descriptor given out has left
CLOSED, and `tcp_close` is given a descriptor that is given out. -/
def Fresh (t : Tracked) : Op → Prop
  | .socket _ => ∀ i ∈ t.live, t.net.state i ≠ .closed
  | .close fd => ∀ i ∈ slotOf fd, i ∈ t.live
  | _ => True

instance (t : Tracked) : ∀ op, Decidable (Fresh t op)
  | .socket _ | .close _ => inferInstanceAs (Decidable (∀ _ ∈ _, _))
  | .listen _ | .connect _ _ _ | .send _ _ | .recv _ _ | .packet _ => isTrue trivial

structure Counted (t : Tracked) : Prop where
  distinct : t.live.Nodup
  count : t.net.socketCount = t.live.length

variable {n : NetIf} {t : Tracked} {i : Fin 16} {fd : ℤ}

/-! ### The states -/

theorem freeSocket_closed (h : freeSocket n = some i) : n.state i = .closed := by
  have hf := List.find?_some h
  simpa using hf

theorem process_off {s : Socket} {h : Headers} (hs : s.state ≠ .closed) :
    (s.process h).state ≠ .closed := by
  unfold Socket.process Socket.request Socket.segment
  dsimp only
  split_ifs <;> simp_all

/-- One socket changes at most, and is not closed by it. -/
def Modifies (n n' : NetIf) : Prop :=
  n' = n ∨ ∃ j f, n' = n.modify j f ∧
    ((n.sockets j).state ≠ .closed → (f (n.sockets j)).state ≠ .closed)

theorem Modifies.change {α : Type*} {j : Fin 16} {f : Socket → Socket} {x : α}
    (hf : (n.sockets j).state ≠ .closed → (f (n.sockets j)).state ≠ .closed) :
    Modifies n (n.modify j f, x).1 := Or.inr ⟨j, f, rfl, hf⟩

theorem step_modifies {op : Op} (hs : ∀ port, op ≠ .socket port) (hc : ∀ fd, op ≠ .close fd) :
    Modifies n (step n op) := by
  cases op with
  | socket port => exact absurd rfl (hs port)
  | close fd => exact absurd rfl (hc fd)
  | listen fd =>
    show Modifies n (tcpListen n fd).1
    unfold tcpListen
    split
    exacts [Or.inl rfl, .change (by simp)]
  | connect fd ip port =>
    show Modifies n (tcpConnect n fd ip port).1
    unfold tcpConnect
    split
    exacts [Or.inl rfl, .change (by simp)]
  | send fd len =>
    show Modifies n (tcpSend n fd len).1
    unfold tcpSend
    split
    · exact Or.inl rfl
    · split_ifs
      exacts [Or.inl rfl, .change id]
  | recv fd len =>
    show Modifies n (tcpRecv n fd len).1
    unfold tcpRecv
    split
    · exact Or.inl rfl
    · split_ifs
      exacts [Or.inl rfl, Or.inl rfl, .change id, .change id]
  | packet bytes =>
    show Modifies n (tcpProcessPacket n bytes).1
    unfold tcpProcessPacket
    split
    · exact Or.inl rfl
    · split_ifs
      · exact Or.inl rfl
      · split
        exacts [Or.inl rfl, .change process_off]

theorem Modifies.off {n' : NetIf} (hm : Modifies n n') (h : n.state i ≠ .closed) :
    n'.state i ≠ .closed := by
  rcases hm with rfl | ⟨j, f, rfl, hf⟩
  · exact h
  · show (Function.update n.sockets j _ i).state ≠ _
    by_cases e : i = j
    · subst e
      rw [Function.update_self]
      exact hf h
    · rwa [Function.update_of_ne e]

theorem closed_by_close {op : Op} (h : n.state i ≠ .closed) (hc : (step n op).state i = .closed) :
    ∃ fd, op = .close fd ∧ slotOf fd = some i := by
  -- a change of another socket does not close this one
  have hother : ∀ {j : Fin 16} {s : Socket}, i ≠ j →
      (Function.update n.sockets j s i).state ≠ .closed := fun e => by
    rwa [Function.update_of_ne e]
  cases op with
  | socket port =>
    change (tcpSocket n port).1.state i = _ at hc
    unfold tcpSocket at hc
    cases hfree : freeSocket n with
    | none => rw [hfree] at hc; exact absurd hc h
    | some j =>
      rw [hfree] at hc
      exact absurd hc (hother fun e => h (e ▸ freeSocket_closed hfree))
  | close fd =>
    change (tcpClose n fd).1.state i = _ at hc
    unfold tcpClose at hc
    cases hs : slotOf fd with
    | none => rw [hs] at hc; exact absurd hc h
    | some j =>
      rw [hs] at hc
      by_cases e : i = j
      · exact ⟨fd, rfl, e ▸ hs⟩
      · exact absurd hc (hother e)
  | listen | connect | send | recv | packet =>
    refine absurd hc (Modifies.off (step_modifies ?_ ?_) h)
    all_goals simp

/-! ### The descriptors -/

theorem slotOf_fin (i : Fin 16) : slotOf (i : ℕ) = some i := by
  have h : (0 : ℤ) ≤ (i : ℕ) ∧ ((i : ℕ) : ℤ) < 16 := by omega
  unfold slotOf
  rw [dif_pos h]
  simp

theorem step_count {op : Op} (hs : ∀ port, op ≠ .socket port) (hc : ∀ fd, op ≠ .close fd) :
    (step n op).socketCount = n.socketCount := by
  rcases step_modifies (n := n) hs hc with he | ⟨j, f, he, _⟩
  all_goals rw [he]
  rfl

theorem socket_counted (h : Counted t) {port : UInt16} (hok : Fresh t (.socket port)) :
    Counted (track t (.socket port)) := by
  cases hfree : freeSocket t.net with
  | none =>
    have hsame : tcpSocket t.net port = (t.net, -1) := by
      unfold tcpSocket
      rw [hfree]
    have htrack : track t (.socket port) = t := by
      show (⟨(tcpSocket t.net port).1, t.live ++ (slotOf (tcpSocket t.net port).2).toList⟩ :
        Tracked) = t
      rw [hsame]
      simp [slotOf]
    rw [htrack]
    exact h
  | some i =>
    have hcount : (tcpSocket t.net port).1.socketCount = t.net.socketCount + 1 := by
      unfold tcpSocket
      rw [hfree]
    have hlive : record t (.socket port) = t.live ++ [i] := by
      unfold record tcpSocket
      rw [hfree]
      exact congrArg (fun o => t.live ++ Option.toList o) (slotOf_fin i)
    have hi : i ∉ t.live := fun hi => hok i hi (freeSocket_closed hfree)
    refine ⟨?_, ?_⟩
    · show (record t (.socket port)).Nodup
      rw [hlive]
      exact List.nodup_append_comm.mp (List.nodup_cons.mpr ⟨hi, h.distinct⟩)
    · show (tcpSocket t.net port).1.socketCount = (record t (.socket port)).length
      rw [hcount, hlive, h.count, List.length_append]
      rfl

theorem close_counted (h : Counted t) (hok : Fresh t (.close fd)) :
    Counted (track t (.close fd)) := by
  cases hslot : slotOf fd with
  | none =>
    have htrack : track t (.close fd) = t := by
      unfold track step record tcpClose
      simp only [hslot]
    rw [htrack]
    exact h
  | some i =>
    have hi : i ∈ t.live := hok i hslot
    have hcount : (tcpClose t.net fd).1.socketCount = t.net.socketCount - 1 := by
      unfold tcpClose
      rw [hslot]
    have hlive : record t (.close fd) = t.live.erase i := by
      simp only [record, hslot]
    have hpos := List.length_pos_of_mem hi
    refine ⟨?_, ?_⟩
    · show (record t (.close fd)).Nodup
      rw [hlive]
      exact h.distinct.erase i
    · show (tcpClose t.net fd).1.socketCount = (record t (.close fd)).length
      rw [hcount, hlive, h.count, List.length_erase_of_mem hi]
      omega

theorem track_counted (h : Counted t) (op : Op) (hok : Fresh t op) : Counted (track t op) := by
  cases op with
  | socket port => exact socket_counted h hok
  | close fd => exact close_counted h hok
  | listen fd => exact ⟨h.distinct, (step_count (by simp) (by simp)).trans h.count⟩
  | connect fd ip port => exact ⟨h.distinct, (step_count (by simp) (by simp)).trans h.count⟩
  | send fd len => exact ⟨h.distinct, (step_count (by simp) (by simp)).trans h.count⟩
  | recv fd len => exact ⟨h.distinct, (step_count (by simp) (by simp)).trans h.count⟩
  | packet bytes => exact ⟨h.distinct, (step_count (by simp) (by simp)).trans h.count⟩

/-- **The socket table.** In every run of calls that respect the descriptors, those given out and
not yet closed are distinct, and `socket_count` is their number. A descriptor that has left CLOSED
comes back to it by a `tcp_close` of it only. -/
theorem sockets_counted (n : NetIf) (mac : Fin 6 → UInt8) (ip : UInt32) {t : Tracked}
    (h : Reach Fresh track ⟨tcpInit n mac ip, []⟩ t) :
    (t.live.Nodup ∧ t.net.socketCount = t.live.length ∧ 0 ≤ t.net.socketCount ∧
      t.net.socketCount ≤ 16) ∧
    ∀ i op, t.net.state i ≠ .closed → (step t.net op).state i = .closed →
      ∃ fd, op = .close fd ∧ slotOf fd = some i := by
  have hc : Counted t := h.inv ⟨List.nodup_nil, rfl⟩ fun t op ht hok => track_counted ht op hok
  have hlen : t.live.length ≤ 16 := by
    have hcard := hc.distinct.length_le_card
    rwa [Fintype.card_fin] at hcard
  exact ⟨⟨hc.distinct, hc.count, by rw [hc.count]; omega, by rw [hc.count]; omega⟩,
    fun _ _ => closed_by_close⟩

def blank : NetIf :=
  ⟨fun _ => 0, 0, 0, 0, fun _ => ⟨0, 0, 0, 0, .closed, 0, 0, fun _ => 0, 0⟩, 0⟩

/-- A server and a client socket: the first one listens before the second one is asked for. -/
def serverRun : List Op :=
  [.socket 80, .listen 0, .socket 5000, .connect 1 0x0a000002 80, .close 0, .socket 81]

theorem sockets_counted_server :
    (serverRun.foldl track ⟨tcpInit blank (fun _ => 2) 0x0a000001, []⟩).live = [1, 0] ∧
      (serverRun.foldl track ⟨tcpInit blank (fun _ => 2) 0x0a000001, []⟩).net.socketCount = 2 ∧
      (serverRun.foldl track ⟨tcpInit blank (fun _ => 2) 0x0a000001, []⟩).net.socketCount ≤ 16 := by
  have hadmits : Admits Fresh track ⟨tcpInit blank (fun _ => 2) 0x0a000001, []⟩ serverRun := by
    decide +kernel
  have hall := sockets_counted blank (fun _ => 2) 0x0a000001 (Reach.foldl serverRun .init hadmits)
  exact ⟨by decide +kernel, by decide +kernel, hall.1.2.2.2⟩

/-- **A descriptor is given out twice**: the socket of the first call is still closed. -/
theorem socket_returned_twice :
    ([.socket 80, .socket 81].foldl track ⟨tcpInit blank (fun _ => 2) 0x0a000001, []⟩).live =
      [0, 0] := by
  decide +kernel

/-! ### Traffic -/

/-- **The packets that leave closed sockets alone**: the socket a packet is for is not closed, or
the packet has no FIN, and an ACK at most for the number the socket has already. -/
def Addressed (n : NetIf) (p : List UInt8) : Prop :=
  ∀ h ∈ headers p, h.destIp = n.ip → ∀ i ∈ demux n h, n.state i = .closed →
    h.fin = false ∧ (h.ack = true → h.ackNum = (n.sockets i).sendSeq)

instance (n : NetIf) (p : List UInt8) : Decidable (Addressed n p) :=
  inferInstanceAs (Decidable (∀ _ ∈ _, _ → ∀ _ ∈ _, _ → _))

theorem process_closed {s : Socket} {h : Headers} (hs : s.state = .closed) :
    s.process h = s ↔ h.fin = false ∧ (h.ack = true → h.ackNum = s.sendSeq) := by
  have hlisten : s.listens h = false := by simp [Socket.listens, hs]
  obtain ⟨_, _, _, _, state, _, _, _, _⟩ := s
  obtain rfl : state = .closed := hs
  unfold Socket.process Socket.segment
  rw [hlisten]
  cases hf : h.fin <;> cases ha : h.ack <;> simp

/-- **Which packets leave the closed sockets alone**, for every interface and every packet. -/
theorem closed_untouched (n : NetIf) (p : List UInt8) :
    (∀ i, n.state i = .closed → (tcpProcessPacket n p).1.sockets i = n.sockets i) ↔
      Addressed n p := by
  unfold tcpProcessPacket Addressed
  cases hh : headers p with
  | none => simp
  | some h =>
    by_cases hip : h.destIp = n.ip
    · cases hd : demux n h with
      | none => simp [hip, hd]
      | some j =>
        -- only socket `j` can change
        have hmod : ∀ i, (n.modify j fun s => s.process h).sockets i = n.sockets i ↔
            i ≠ j ∨ (n.sockets j).process h = n.sockets j := by
          intro i
          by_cases e : i = j
          · subst e
            simp [NetIf.modify]
          · simp [NetIf.modify, e]
        simp only [ne_eq, hip, not_true_eq_false, if_false, hd, hmod, Option.mem_def,
          Option.some.injEq, forall_eq', forall_const]
        constructor
        · intro hall hj
          exact (process_closed hj).mp ((hall j hj).resolve_left (not_not.mpr rfl))
        · intro hj i hi
          by_cases e : i = j
          · exact Or.inr ((process_closed (e ▸ hi)).mpr (hj (e ▸ hi)))
          · exact Or.inl e
    · simp [hip]

/-- The frame of a packet from 10.0.0.2, port 80, for 10.0.0.1, port 5000, with the given flags and
an acknowledgement number of 7. -/
def frame (flags : UInt8) : List UInt8 :=
  List.replicate 26 0 ++ [2, 0, 0, 10, 1, 0, 0, 10, 80, 0, 0x88, 0x13] ++ [0, 0, 0, 0, 7, 0, 0, 0] ++
    [0x50, flags] ++ List.replicate 6 0

def reclosed : NetIf :=
  [.socket 5000, .connect 0 0x0a000002 80, .close 0].foldl step
    (tcpInit blank (fun _ => 2) 0x0a000001)

/-- **A closed socket is changed by a packet**: a FIN of the former peer makes it wait for a
close. -/
theorem closed_changed :
    reclosed.state 0 = .closed ∧ (tcpProcessPacket reclosed (frame 0x11)).1.state 0 = .closeWait ∧
      ((tcpProcessPacket reclosed (frame 0x11)).1.sockets 0).sendSeq = 7 := by
  decide +kernel

end Kerneloid.Tcp.Table
