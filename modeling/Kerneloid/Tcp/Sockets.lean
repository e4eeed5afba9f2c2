import Mathlib.Tactic
import Mathlib.Data.Fintype.Card

/-! # The TCP stack: the socket table and its calls

`tcp.c`: an interface with 16 sockets, the calls on them, and the handling of a packet. A packet is
the string of its bytes, and the headers are read from it as the processor reads them, least
significant byte first. Pointers to the interface, the packet and the buffers are not null.

Left out are the fields `send_buf` and `send_len` of a socket, which nothing reads. -/

namespace Kerneloid.Tcp.Sockets

/-- The states of a socket, `SOCKET_CLOSED` to `SOCKET_TIME_WAIT`. -/
inductive SocketState
  | closed
  | listen
  | synSent
  | synRecv
  | established
  | finWait1
  | finWait2
  | closeWait
  | closing
  | lastAck
  | timeWait
  deriving DecidableEq

/-- `struct socket`. The bytes at `recv_buf` are `recvBuf`. -/
structure Socket where
  localIp : UInt32
  localPort : UInt16
  remoteIp : UInt32
  remotePort : UInt16
  state : SocketState
  sendSeq : UInt32
  recvAck : UInt32
  recvBuf : ℕ → UInt8
  recvLen : UInt32

structure NetIf where
  mac : Fin 6 → UInt8
  ip : UInt32
  netmask : UInt32
  gateway : UInt32
  sockets : Fin 16 → Socket
  socketCount : ℤ

abbrev NetIf.state (n : NetIf) (i : Fin 16) : SocketState := (n.sockets i).state

def NetIf.modify (n : NetIf) (i : Fin 16) (f : Socket → Socket) : NetIf :=
  { n with sockets := Function.update n.sockets i (f (n.sockets i)) }

/-! ### The calls -/

/-- `tcp_init`. Of the sockets only the state is set. -/
def tcpInit (n : NetIf) (mac : Fin 6 → UInt8) (ip : UInt32) : NetIf :=
  { mac := mac
    ip := ip
    netmask := 0xffffff00
    gateway := (ip &&& 0xffffff00) ||| 0x00000001
    sockets := fun i => { n.sockets i with state := .closed }
    socketCount := 0 }

/-- The first socket that is closed. -/
def freeSocket (n : NetIf) : Option (Fin 16) :=
  (List.finRange 16).find? fun i => n.state i = .closed

/-- `tcp_socket`. The socket found stays closed. -/
def tcpSocket (n : NetIf) (port : UInt16) : NetIf × ℤ :=
  match freeSocket n with
  | none => (n, -1)
  | some i =>
    ({ n.modify i fun s =>
        { s with localPort := port, localIp := n.ip, state := .closed, sendSeq := 0, recvAck := 0 }
        with socketCount := n.socketCount + 1 }, (i : ℕ))

/-- The socket of a descriptor; the calls refuse those below 0 and from 16 on. -/
def slotOf (fd : ℤ) : Option (Fin 16) :=
  if h : 0 ≤ fd ∧ fd < 16 then some ⟨fd.toNat, by omega⟩ else none

def tcpListen (n : NetIf) (fd : ℤ) : NetIf × ℤ :=
  match slotOf fd with
  | none => (n, -1)
  | some i => (n.modify i fun s => { s with state := .listen }, 0)

def tcpConnect (n : NetIf) (fd : ℤ) (ip : UInt32) (port : UInt16) : NetIf × ℤ :=
  match slotOf fd with
  | none => (n, -1)
  | some i =>
    (n.modify i fun s =>
      { s with remoteIp := ip, remotePort := port, state := .synSent, sendSeq := 1000 }, 0)

/-- `tcp_send` of `len` bytes. -/
def tcpSend (n : NetIf) (fd : ℤ) (len : UInt32) : NetIf × ℤ :=
  match slotOf fd with
  | none => (n, -1)
  | some i =>
    if n.state i ≠ .established then (n, -1)
    else (n.modify i fun s => { s with sendSeq := s.sendSeq + len }, len.toInt32.toInt)

/-- `tcp_recv` into a buffer of `len` bytes, with the bytes copied. They are taken from the start of
`recv_buf` every time. The copy loop counts with an `int`, so this is right for less than `2 ^ 31`
bytes. -/
def tcpRecv (n : NetIf) (fd : ℤ) (len : UInt32) : NetIf × ℤ × List UInt8 :=
  match slotOf fd with
  | none => (n, -1, [])
  | some i =>
    if n.state i ≠ .established then (n, -1, [])
    else if (n.sockets i).recvLen = 0 then (n, 0, [])
    else
      let count := if len < (n.sockets i).recvLen then len else (n.sockets i).recvLen
      (n.modify i fun s => { s with recvLen := s.recvLen - count, recvAck := s.recvAck + count },
        count.toInt32.toInt, (List.range count.toNat).map (n.sockets i).recvBuf)

def closeState : SocketState → SocketState
  | .established => .finWait1
  | _ => .closed

def tcpClose (n : NetIf) (fd : ℤ) : NetIf × ℤ :=
  match slotOf fd with
  | none => (n, -1)
  | some i =>
    ({ n.modify i fun s => { s with state := closeState s.state } with
        socketCount := n.socketCount - 1 }, 0)

/-! ### Packets -/

/-- The fields of the IP and the TCP header that are read. -/
structure Headers where
  srcIp : UInt32
  destIp : UInt32
  srcPort : UInt16
  destPort : UInt16
  seqNum : UInt32
  ackNum : UInt32
  flags : UInt8
  deriving DecidableEq

/-- Byte `i` of the packet. -/
def byteAt (p : List UInt8) (i : ℕ) : ℕ := (p.getD i 0).toNat

def le16 (p : List UInt8) (i : ℕ) : UInt16 := UInt16.ofNat (byteAt p i + 256 * byteAt p (i + 1))

def le32 (p : List UInt8) (i : ℕ) : UInt32 :=
  UInt32.ofNat (byteAt p i + 256 * byteAt p (i + 1) + 65536 * byteAt p (i + 2) +
    16777216 * byteAt p (i + 3))

/-- The headers of a packet that is long enough: the Ethernet header has 14 bytes, the two others 20
each. -/
def headers (p : List UInt8) : Option Headers :=
  if p.length < 14 + 20 + 20 then none
  else some
    { srcIp := le32 p (14 + 12)
      destIp := le32 p (14 + 16)
      srcPort := le16 p 34
      destPort := le16 p (34 + 2)
      seqNum := le32 p (34 + 4)
      ackNum := le32 p (34 + 8)
      flags := p.getD (34 + 13) 0 }

/-- `tcp->flags & TCP_SYN`, and likewise for the other flags. -/
def Headers.syn (h : Headers) : Bool := h.flags &&& 0x02 ≠ 0
def Headers.ack (h : Headers) : Bool := h.flags &&& 0x10 ≠ 0
def Headers.fin (h : Headers) : Bool := h.flags &&& 0x01 ≠ 0

/-- The socket listens on the port of the packet. -/
def Socket.listens (s : Socket) (h : Headers) : Bool := s.state = .listen ∧ h.destPort = s.localPort

/-- The ports and the peer of the socket are those of the packet. -/
def Socket.talksTo (s : Socket) (h : Headers) : Bool :=
  s.localPort = h.destPort ∧ s.remotePort = h.srcPort ∧ s.remoteIp = h.srcIp

/-- A connection request at a socket that listens. -/
def Socket.request (s : Socket) (h : Headers) : Socket :=
  if h.syn then
    { s with
      remoteIp := h.srcIp
      remotePort := h.srcPort
      state := .synRecv
      recvAck := h.seqNum + 1 }
  else s

/-- A packet of the peer. -/
def Socket.segment (s : Socket) (h : Headers) : Socket :=
  let s :=
    if h.ack then
      { s with
        state := if s.state = .synSent then .established else s.state
        sendSeq := h.ackNum }
    else s
  if h.fin then { s with state := .closeWait } else s

/-- What the packet does to the socket it is for. -/
def Socket.process (s : Socket) (h : Headers) : Socket :=
  if s.listens h then s.request h else s.segment h

/-- The socket the packet is for: the first one that listens on its port or talks to its sender. -/
def demux (n : NetIf) (h : Headers) : Option (Fin 16) :=
  (List.finRange 16).find? fun i => (n.sockets i).listens h || (n.sockets i).talksTo h

def tcpProcessPacket (n : NetIf) (p : List UInt8) : NetIf × ℤ :=
  match headers p with
  | none => (n, -1)
  | some h =>
    if h.destIp ≠ n.ip then (n, -1)
    else
      match demux n h with
      | none => (n, -1)
      | some i => (n.modify i fun s => s.process h, 0)

/-! ### The system -/

/-- A call, or a packet that arrives. -/
inductive Op
  | socket (port : UInt16)
  | listen (fd : ℤ)
  | connect (fd : ℤ) (ip : UInt32) (port : UInt16)
  | send (fd : ℤ) (len : UInt32)
  | recv (fd : ℤ) (len : UInt32)
  | close (fd : ℤ)
  | packet (bytes : List UInt8)
  deriving DecidableEq

def step (n : NetIf) : Op → NetIf
  | .socket port => (tcpSocket n port).1
  | .listen fd => (tcpListen n fd).1
  | .connect fd ip port => (tcpConnect n fd ip port).1
  | .send fd len => (tcpSend n fd len).1
  | .recv fd len => (tcpRecv n fd len).1
  | .close fd => (tcpClose n fd).1
  | .packet bytes => (tcpProcessPacket n bytes).1

end Kerneloid.Tcp.Sockets
