import Mathlib.Tactic

/-! # The mouse driver

`mouse_read` of `mouse.c`, one call for each byte of the PS/2 controller, with the static buffer in
which it puts packets together. A call works on the state it is given or on the global one, which
otherwise gets a copy of the position. An addition of `int` that does not fit is undefined: the call
then has no outcome.

Three bytes that begin with a first byte are one packet (`run_packet`). -/

namespace Kerneloid.Mouse.Read

/-! ### The code -/

inductive MouseType
  | none
  | ps2
  | imps2
  | serial
  deriving DecidableEq

structure MouseEvent where
  dx : Int32
  dy : Int32
  dz : Int32
  buttons : UInt8
  valid : Bool
  deriving DecidableEq

/-- `struct mouse_state`, without the buttons, which only `mouse_init` writes. -/
structure MouseState where
  x : Int32
  y : Int32
  present : Bool
  type : MouseType
  hidden : Bool
  minX : Int32
  maxX : Int32
  minY : Int32
  maxY : Int32
  /-- Whether a handler is set. -/
  eventHandler : Bool
  deriving DecidableEq

/-- The value of an `int` expression. -/
def checked (v : ℤ) : Option Int32 :=
  if -2 ^ 31 ≤ v ∧ v < 2 ^ 31 then some (Int32.ofInt v) else none

/-- The motion of one axis, from its byte and its sign bit. -/
def decode (sign : Bool) (byte : UInt8) : Int32 :=
  let v := byte.toInt8.toInt32
  if sign then if 0 < v then 127 else -128 else v

/-- The two tests of an axis against its bounds. -/
def clampTo (min max v : Int32) : Option Int32 :=
  let v := if v < min then min else v
  if max ≤ v then checked (max.toInt - 1) else some v

/-- What `mouse_parse_packet` does to an axis. -/
def moveAxis (hidden : Bool) (min max v d : Int32) : Option Int32 :=
  (checked (v.toInt + d.toInt)).bind fun v => if hidden then some v else clampTo min max v

def mouseParsePacket (state : MouseState) (packet : ℕ → UInt8) (event : MouseEvent) :
    Option (ℤ × MouseState × MouseEvent) :=
  if packet 0 &&& 0x08 = 0 then some (-1, state, { event with valid := false })
  else
    let dx := decode (packet 0 &&& 0x10 ≠ 0) (packet 1)
    let dy := -decode (packet 0 &&& 0x20 ≠ 0) (packet 2)
    let dz := if state.type = .imps2 then -(packet 3).toInt8.toInt32 else 0
    (moveAxis state.hidden state.minX state.maxX state.x dx).bind fun x =>
      (moveAxis state.hidden state.minY state.maxY state.y dy).map fun y =>
        (0, { state with x, y }, ⟨dx, dy, dz, packet 0 &&& 0x07, true⟩)

/-- The `state` of a call. -/
inductive StatePtr
  | null
  | global
  | own
  deriving DecidableEq

/-- The states and the static variables of `mouse_read`. -/
structure Driver where
  global : MouseState
  own : MouseState
  packet : ℕ → UInt8
  byteIdx : ℕ

def Driver.state (d : Driver) : StatePtr → MouseState
  | .own => d.own
  | _ => d.global

/-- Store a state after a packet, with its position in the global state. -/
def Driver.setState (d : Driver) (state : MouseState) : StatePtr → Driver
  | .own => { d with own := state, global := { d.global with x := state.x, y := state.y } }
  | _ => { d with global := state }

structure Outcome where
  ret : ℤ
  driver : Driver
  event : MouseEvent
  /-- The event the handler was called with. -/
  handled : Option MouseEvent

/-- What a call gets: the status and data ports, and the event. -/
structure Call where
  status : UInt8
  data : UInt8
  event : MouseEvent

/-- `packet[byte_idx++] = data`. -/
def Driver.store (d : Driver) (data : UInt8) : Driver :=
  { d with packet := Function.update d.packet d.byteIdx data, byteIdx := d.byteIdx + 1 }

/-- Take a first byte, or wait for one. -/
def Driver.start (d : Driver) (data : UInt8) : Driver :=
  let d := { d with byteIdx := 0 }
  if data &&& 0x08 ≠ 0 then d.store data else d

def noPacket (d : Driver) (event : MouseEvent) : Option Outcome :=
  some ⟨0, d, { event with valid := false }, none⟩

def finish (ptr : StatePtr) (d : Driver) (event : MouseEvent) : Option Outcome :=
  (mouseParsePacket (d.state ptr) d.packet event).bind fun (ret, state, event) =>
    if ret = 0 then
      some ⟨0, { d.setState state ptr with byteIdx := 0 }, event,
        if state.eventHandler ∧ event.valid then some event else none⟩
    else noPacket { d with byteIdx := 0 } event

def mouseRead (ptr : StatePtr) (d : Driver) (c : Call) : Option Outcome :=
  let state := d.state ptr
  if state.present = false then some ⟨-1, d, c.event, none⟩
  else if c.status &&& 0x01 = 0 then noPacket d c.event
  else
    let packetSize := if state.type = .imps2 then 4 else 3
    if d.byteIdx = 0 ∧ c.data &&& 0x08 ≠ 0 then noPacket (d.store c.data) c.event
    else if 0 < d.byteIdx ∧ d.byteIdx < packetSize then
      let d := d.store c.data
      if packetSize ≤ d.byteIdx then finish ptr d c.event else noPacket d c.event
    else noPacket (d.start c.data) c.event

def run (ptr : StatePtr) (d : Driver) (calls : List Call) : Option Driver :=
  calls.foldlM (fun d c => (mouseRead ptr d c).map Outcome.driver) d

/-! ### Calls -/

variable {ptr : StatePtr} {d : Driver} {c : Call} {calls rest : List Call}

theorem run_cons :
    run ptr d (c :: calls) = (mouseRead ptr d c).bind fun o => run ptr o.driver calls := by
  unfold run
  rw [List.foldlM_cons]
  exact Option.bind_map

theorem run_append : run ptr d (calls ++ rest) = (run ptr d calls).bind (run ptr · rest) :=
  List.foldlM_append

/-- A packet of three bytes without overflow bits. -/
structure Packet where
  flags : UInt8
  xByte : UInt8
  yByte : UInt8
  first : flags &&& 0x08 ≠ 0
  noOverflow : flags &&& 0xC0 = 0

namespace Packet

def bytes (p : Packet) : List UInt8 := [p.flags, p.xByte, p.yByte]

def xSign (p : Packet) : Bool := p.flags &&& 0x10 ≠ 0

def ySign (p : Packet) : Bool := p.flags &&& 0x20 ≠ 0

end Packet

/-- A standard mouse that is present and visible, with bounds that are not empty. -/
structure Visible (s : MouseState) : Prop where
  present : s.present = true
  shown : s.hidden = false
  type : s.type = .ps2
  x : s.minX < s.maxX
  y : s.minY < s.maxY

theorem store_state (data : UInt8) : (d.store data).state ptr = d.state ptr := by
  cases ptr <;> rfl

section Assembly

variable (hs : Visible (d.state ptr)) (hfull : c.status &&& 0x01 ≠ 0)
include hs hfull

theorem mouseRead_first (hidx : d.byteIdx = 0) (hfirst : c.data &&& 0x08 ≠ 0) :
    mouseRead ptr d c = noPacket (d.store c.data) c.event := by
  unfold mouseRead
  dsimp only
  rw [if_neg (by simp [hs.present]), if_neg hfull, if_pos ⟨hidx, hfirst⟩]

theorem mouseRead_next (hpos : 0 < d.byteIdx) (hlt : d.byteIdx < 3) :
    mouseRead ptr d c = if 3 ≤ d.byteIdx + 1 then finish ptr (d.store c.data) c.event
      else noPacket (d.store c.data) c.event := by
  have hsize : (if (d.state ptr).type = MouseType.imps2 then 4 else 3) = 3 := by
    rw [hs.type]
    rfl
  unfold mouseRead
  dsimp only
  rw [if_neg (by simp [hs.present]), if_neg hfull, if_neg (fun h => by omega), hsize,
    if_pos ⟨hpos, hlt⟩]
  rfl

end Assembly

/-- A packet moves the mouse along both axes. -/
def MouseState.move (s : MouseState) (p : Packet) : Option MouseState :=
  (moveAxis s.hidden s.minX s.maxX s.x (decode p.xSign p.xByte)).bind fun x =>
    (moveAxis s.hidden s.minY s.maxY s.y (-decode p.ySign p.yByte)).map fun y => { s with x, y }

theorem finish_state (ptr : StatePtr) (d : Driver) (p : Packet) (h0 : d.packet 0 = p.flags)
    (h1 : d.packet 1 = p.xByte) (h2 : d.packet 2 = p.yByte) (event : MouseEvent) :
    (finish ptr d event).map (fun o => (o.driver.state ptr, o.driver.byteIdx)) =
      ((d.state ptr).move p).map fun s => (s, 0) := by
  have hstate : ∀ s : MouseState, { d.setState s ptr with byteIdx := 0 }.state ptr = s := by
    intro s
    cases ptr <;> rfl
  unfold finish mouseParsePacket MouseState.move Packet.xSign Packet.ySign
  dsimp only
  rw [h0, h1, h2, if_neg p.first]
  generalize moveAxis _ (d.state ptr).minX _ _ _ = mx
  generalize moveAxis _ (d.state ptr).minY _ _ _ = my
  cases mx with
  | none => rfl
  | some x =>
    cases my with
    | none => rfl
    | some y => exact congrArg (fun s => some (s, 0)) (hstate _)

/-- **Three bytes are a packet.** The mouse moves, and the driver waits for a first byte again. -/
theorem run_packet (p : Packet) (hs : Visible (d.state ptr)) (hidx : d.byteIdx = 0)
    (hdata : calls.map Call.data = p.bytes) (hfull : ∀ c ∈ calls, c.status &&& 0x01 ≠ 0) :
    (run ptr d calls).map (fun d' => (d'.state ptr, d'.byteIdx)) =
      ((d.state ptr).move p).map fun s => (s, 0) := by
  obtain ⟨c0, calls, rfl, hc0, hdata⟩ := List.map_eq_cons_iff.mp hdata
  obtain ⟨c1, calls, rfl, hc1, hdata⟩ := List.map_eq_cons_iff.mp hdata
  obtain ⟨c2, calls, rfl, hc2, hdata⟩ := List.map_eq_cons_iff.mp hdata
  obtain rfl := List.map_eq_nil_iff.mp hdata
  have hs1 : Visible ((d.store c0.data).state ptr) := by rwa [store_state]
  have hs2 : Visible (((d.store c0.data).store c1.data).state ptr) := by rwa [store_state]
  have hi1 : (d.store c0.data).byteIdx = 1 := by simp [Driver.store, hidx]
  have hi2 : ((d.store c0.data).store c1.data).byteIdx = 2 := by simp [Driver.store, hidx]
  have hrun : run ptr d [c0, c1, c2] = (finish ptr
      (((d.store c0.data).store c1.data).store c2.data) c2.event).map Outcome.driver := by
    rw [run_cons, mouseRead_first hs (hfull c0 (by simp)) hidx (by rw [hc0]; exact p.first)]
    change run ptr (d.store c0.data) [c1, c2] = _
    rw [run_cons, mouseRead_next hs1 (hfull c1 (by simp)) (by omega) (by omega), if_neg (by omega)]
    change run ptr ((d.store c0.data).store c1.data) [c2] = _
    rw [run_cons, mouseRead_next hs2 (hfull c2 (by simp)) (by omega) (by omega), if_pos (by omega)]
    exact (Option.map_eq_bind).symm
  have hfinish := finish_state ptr (((d.store c0.data).store c1.data).store c2.data) p
    (by simp [Driver.store, hidx, hc0]) (by simp [Driver.store, hidx, hc1])
    (by simp [Driver.store, hidx, hc2]) c2.event
  rw [store_state, store_state, store_state] at hfinish
  rw [hrun, Option.map_map]
  exact hfinish

end Kerneloid.Mouse.Read
