import Kerneloid.Mouse.Read

/-! # Motion of the mouse

A packet says for each axis how far the mouse went: the data byte, with its sign bit in the first
byte on top, is a 9-bit number in two's complement (`motion`). `mouse_parse_packet` takes the byte
for a number of 8 bits, and the sign bit for a sign that the motion was too large: both readings
agree on bytes below 128 without the sign bit, and on the byte 128 with it (`decode_eq_motion`). On
other bytes the pointer goes wrong, unless both readings end beyond the same bound.

`motion_exact`: along a stream of packets the position after each packet is right exactly if every
packet is of this kind, at the position where it comes, and no addition overflows. -/

namespace Kerneloid.Mouse.Motion

open Read

/-! ### What packets mean -/

/-- The number of 9 bits that a byte and its sign bit make. -/
def motion (sign : Bool) (byte : UInt8) : ℤ := (BitVec.cons sign byte.toBitVec).toInt

/-- The point of `[lo, hi)` that is nearest to `v`. -/
def clamp (lo hi v : ℤ) : ℤ := max lo (min v (hi - 1))

def position (s : MouseState) : ℤ × ℤ := (s.x.toInt, s.y.toInt)

/-- The position after a packet, within the bounds of `s`. -/
def follow (s : MouseState) (pos : ℤ × ℤ) (p : Packet) : ℤ × ℤ :=
  (clamp s.minX.toInt s.maxX.toInt (pos.1 + motion p.xSign p.xByte),
    clamp s.minY.toInt s.maxY.toInt (pos.2 + -motion p.ySign p.yByte))

/-- **The position after each packet** comes from the position before it. -/
def Tracks (ptr : StatePtr) (s : MouseState) (d : Driver) (calls : List Call)
    (packets : List Packet) : Prop :=
  ∀ k p, packets[k]? = some p → ∃ d₁ d₂, run ptr d (calls.take (3 * k)) = some d₁ ∧
    run ptr d (calls.take (3 * (k + 1))) = some d₂ ∧
      position (d₂.state ptr) = follow s (position (d₁.state ptr)) p

/-! ### One byte -/

/-- The bytes that are decoded as they are meant. -/
def Exact (sign : Bool) (byte : UInt8) : Prop := if sign then byte.toNat = 128 else byte.toNat < 128

instance (sign : Bool) (byte : UInt8) : Decidable (Exact sign byte) :=
  inferInstanceAs (Decidable (if sign then _ else _))

variable {sign : Bool} {byte : UInt8}

theorem motion_eq : motion sign byte = byte.toNat - if sign then 256 else 0 := by
  have hb := byte.toNat_lt
  have hnat : (BitVec.cons sign byte.toBitVec).toNat = 256 * sign.toNat + byte.toNat := by
    rw [BitVec.toNat_cons, UInt8.toNat_toBitVec, Nat.shiftLeft_eq, mul_comm]
    exact (Nat.two_pow_add_eq_or_of_lt hb _).symm
  unfold motion
  rw [BitVec.toInt_eq_toNat_cond, hnat]
  cases sign <;> simp <;> omega

theorem toInt8_toInt : byte.toInt8.toInt = if byte.toNat < 128 then (byte.toNat : ℤ)
    else byte.toNat - 256 := by
  have hbits : byte.toInt8.toInt = byte.toBitVec.toInt := rfl
  rw [hbits, BitVec.toInt_eq_toNat_cond, UInt8.toNat_toBitVec]
  split_ifs <;> omega

theorem decode_toInt : (decode sign byte).toInt =
    if sign then if 0 < byte.toNat ∧ byte.toNat < 128 then 127 else -128
    else if byte.toNat < 128 then (byte.toNat : ℤ) else byte.toNat - 256 := by
  have hb := byte.toNat_lt
  have hv : byte.toInt8.toInt32.toInt = if byte.toNat < 128 then (byte.toNat : ℤ)
      else byte.toNat - 256 := by rw [Int8.toInt_toInt32, toInt8_toInt]
  have hpos : 0 < byte.toInt8.toInt32 ↔ 0 < byte.toNat ∧ byte.toNat < 128 := by
    rw [Int32.lt_iff_toInt_lt, hv, Int32.toInt_zero]
    split_ifs <;> omega
  unfold decode
  dsimp only
  cases sign with
  | false => exact hv
  | true =>
    simp only [hpos, if_true]
    split_ifs <;> rfl

/-- **Both readings agree** on the bytes that are exact, and on no other. -/
theorem decode_eq_motion : (decode sign byte).toInt = motion sign byte ↔ Exact sign byte := by
  have hb := byte.toNat_lt
  rw [decode_toInt, motion_eq]
  unfold Exact
  cases sign with
  | false =>
    simp only [Bool.false_eq_true, if_false]
    split_ifs <;> omega
  | true =>
    simp only [if_true]
    split_ifs <;> omega

theorem neg_decode : (-decode sign byte).toInt = -(decode sign byte).toInt := by
  have hb := byte.toNat_lt
  have hrange : -128 ≤ (decode sign byte).toInt ∧ (decode sign byte).toInt ≤ 127 := by
    rw [decode_toInt]
    split_ifs <;> omega
  rw [Int32.toInt_neg, Int.bmod_eq_of_le (by omega) (by omega)]

/-! ### One axis -/

def IsInt (v : ℤ) : Prop := -2 ^ 31 ≤ v ∧ v < 2 ^ 31

instance (v : ℤ) : Decidable (IsInt v) := inferInstanceAs (Decidable (_ ∧ _))

variable {lo hi v d w : Int32}

theorem checked_eq_some {n : ℤ} : checked n = some w ↔ w.toInt = n := by
  unfold checked
  constructor
  · intro h
    split_ifs at h with hn
    cases h
    exact Int32.toInt_ofInt_of_le hn.1 hn.2
  · rintro rfl
    rw [if_pos ⟨w.le_toInt, w.toInt_lt⟩, Int32.ofInt_toInt]

theorem exists_checked {n : ℤ} : (∃ w, checked n = some w) ↔ IsInt n := by
  unfold checked IsInt
  split_ifs with hn
  · exact iff_of_true ⟨_, rfl⟩ hn
  · exact iff_of_false (by simp) hn

theorem clampTo_eq (h : lo < hi) (v : Int32) :
    ∃ w, clampTo lo hi v = some w ∧ w.toInt = clamp lo.toInt hi.toInt v.toInt := by
  have hlt := Int32.lt_iff_toInt_lt.mp h
  have hlo := lo.le_toInt
  have hhi := hi.toInt_lt
  have hv : (if v < lo then lo else v).toInt = max lo.toInt v.toInt := by
    split_ifs with hv
    · have := Int32.lt_iff_toInt_lt.mp hv
      omega
    · have := Int32.lt_iff_toInt_lt.not.mp hv
      omega
  unfold clampTo clamp
  dsimp only
  generalize (if v < lo then lo else v) = u at hv ⊢
  split_ifs with hu
  · obtain ⟨w, hw⟩ := exists_checked.mpr (⟨by omega, by omega⟩ : IsInt (hi.toInt - 1))
    have := Int32.le_iff_toInt_le.mp hu
    exact ⟨w, hw, by rw [checked_eq_some.mp hw]; omega⟩
  · have := Int32.le_iff_toInt_le.not.mp hu
    exact ⟨u, rfl, by omega⟩

theorem moveAxis_eq (h : lo < hi) {t : ℤ} :
    (∃ w, moveAxis false lo hi v d = some w ∧ w.toInt = t) ↔
      IsInt (v.toInt + d.toInt) ∧ clamp lo.toInt hi.toInt (v.toInt + d.toInt) = t := by
  unfold moveAxis
  cases hsum : checked (v.toInt + d.toInt) with
  | none =>
    refine iff_of_false (by simp) fun hint => ?_
    obtain ⟨w, hw⟩ := exists_checked.mpr hint.1
    rw [hsum] at hw
    cases hw
  | some u =>
    obtain ⟨w, hw, hval⟩ := clampTo_eq h u
    have hint := exists_checked.mp ⟨u, hsum⟩
    rw [checked_eq_some.mp hsum] at hval
    rw [Option.bind_some, if_neg (by decide), hw]
    constructor
    · rintro ⟨w', hw', rfl⟩
      cases hw'
      exact ⟨hint, hval.symm⟩
    · rintro ⟨-, rfl⟩
      exact ⟨w, rfl, hval⟩

/-- Two points are clamped to the same bound. -/
def SameEdge (lo hi a b : ℤ) : Prop :=
  (a ≤ lo ∧ b ≤ lo) ∨ (hi ≤ a + 1 ∧ hi ≤ b + 1) ∨ hi = lo + 1

instance (lo hi a b : ℤ) : Decidable (SameEdge lo hi a b) := inferInstanceAs (Decidable (_ ∨ _))

theorem clamp_eq_clamp {lo hi a b : ℤ} (h : lo < hi) :
    clamp lo hi a = clamp lo hi b ↔ a = b ∨ SameEdge lo hi a b := by
  unfold clamp SameEdge
  omega

/-! ### One packet -/

/-- The packet moves the pointer from `pos` to where it should go. -/
def Harmless (s : MouseState) (pos : ℤ × ℤ) (p : Packet) : Prop :=
  (IsInt (pos.1 + (decode p.xSign p.xByte).toInt) ∧ (Exact p.xSign p.xByte ∨
    SameEdge s.minX.toInt s.maxX.toInt (pos.1 + (decode p.xSign p.xByte).toInt)
      (pos.1 + motion p.xSign p.xByte))) ∧
  (IsInt (pos.2 + -(decode p.ySign p.yByte).toInt) ∧ (Exact p.ySign p.yByte ∨
    SameEdge s.minY.toInt s.maxY.toInt (pos.2 + -(decode p.ySign p.yByte).toInt)
      (pos.2 + -motion p.ySign p.yByte)))

instance (s : MouseState) (pos : ℤ × ℤ) (p : Packet) : Decidable (Harmless s pos p) :=
  inferInstanceAs (Decidable (_ ∧ _))

theorem move_keeps {s s' : MouseState} {p : Packet} (h : s.move p = some s') :
    ∃ x y, s' = { s with x, y } := by
  obtain ⟨x, -, hy⟩ := Option.bind_eq_some_iff.mp h
  obtain ⟨y, -, hs'⟩ := Option.map_eq_some_iff.mp hy
  exact ⟨x, y, hs'.symm⟩

theorem move_position {s : MouseState} {p : Packet} {t : ℤ × ℤ} :
    (∃ s', s.move p = some s' ∧ position s' = t) ↔
      (∃ x, moveAxis s.hidden s.minX s.maxX s.x (decode p.xSign p.xByte) = some x ∧
        x.toInt = t.1) ∧
      ∃ y, moveAxis s.hidden s.minY s.maxY s.y (-decode p.ySign p.yByte) = some y ∧
        y.toInt = t.2 := by
  unfold MouseState.move
  constructor
  · rintro ⟨s', hmove, rfl⟩
    obtain ⟨x, hx, hmy⟩ := Option.bind_eq_some_iff.mp hmove
    obtain ⟨y, hy, rfl⟩ := Option.map_eq_some_iff.mp hmy
    exact ⟨⟨x, hx, rfl⟩, y, hy, rfl⟩
  · rintro ⟨⟨x, hx, htx⟩, y, hy, hty⟩
    rw [hx, hy]
    exact ⟨{ s with x, y }, rfl, Prod.ext htx hty⟩

theorem move_follows {s : MouseState} (hs : Visible s) (p : Packet) :
    (∃ s', s.move p = some s' ∧ position s' = follow s (position s) p) ↔
      Harmless s (position s) p := by
  have hx := Int32.lt_iff_toInt_lt.mp hs.x
  have hy := Int32.lt_iff_toInt_lt.mp hs.y
  rw [move_position, hs.shown, moveAxis_eq hs.x, moveAxis_eq hs.y, neg_decode]
  unfold Harmless follow position
  dsimp only
  rw [clamp_eq_clamp hx, clamp_eq_clamp hy, add_right_inj, add_right_inj, neg_inj,
    decode_eq_motion, decode_eq_motion]

/-! ### Streams -/

variable {ptr : StatePtr} {s : MouseState} {dr : Driver} {first calls : List Call} {p : Packet}
  {packets : List Packet}

theorem tracks_cons (hlen : first.length = 3) :
    Tracks ptr s dr (first ++ calls) (p :: packets) ↔
      ∃ dr', run ptr dr first = some dr' ∧
        position (dr'.state ptr) = follow s (position (dr.state ptr)) p ∧
        Tracks ptr s dr' calls packets := by
  have hfirst : (first ++ calls).take (3 * (0 + 1)) = first := List.take_left' hlen
  have hrest : ∀ {dr'}, run ptr dr first = some dr' → ∀ k,
      run ptr dr ((first ++ calls).take (3 * (k + 1))) = run ptr dr' (calls.take (3 * k)) :=
    fun h k => by
      have hk : 3 * (k + 1) = first.length + 3 * k := by omega
      rw [hk, List.take_length_add_append, run_append, h]
      rfl
  constructor
  · intro h
    obtain ⟨d₁, d₂, h₁, h₂, hpos⟩ := h 0 p rfl
    cases h₁
    rw [hfirst] at h₂
    refine ⟨d₂, h₂, hpos, fun k q hq => ?_⟩
    obtain ⟨e₁, e₂, he₁, he₂, hq⟩ := h (k + 1) q hq
    exact ⟨e₁, e₂, (hrest h₂ k).symm.trans he₁, (hrest h₂ (k + 1)).symm.trans he₂, hq⟩
  · rintro ⟨dr', hrun, hpos, h⟩ k q hq
    cases k with
    | zero =>
      cases hq
      exact ⟨dr, dr', rfl, by rw [hfirst, hrun], hpos⟩
    | succ k =>
      obtain ⟨e₁, e₂, he₁, he₂, hq⟩ := h k q hq
      exact ⟨e₁, e₂, (hrest hrun k).trans he₁, (hrest hrun (k + 1)).trans he₂, hq⟩

/-- Every packet is harmless at the position where it comes. -/
def AllHarmless (s : MouseState) (pos : ℤ × ℤ) (packets : List Packet) : Prop :=
  ∀ k p, packets[k]? = some p → Harmless s ((packets.take k).foldl (follow s) pos) p

theorem allHarmless_nil (pos : ℤ × ℤ) : AllHarmless s pos [] := fun k p h => by simp at h

theorem allHarmless_cons {pos : ℤ × ℤ} : AllHarmless s pos (p :: packets) ↔
    Harmless s pos p ∧ AllHarmless s (follow s pos p) packets := by
  constructor
  · exact fun h => ⟨h 0 p rfl, fun k q hq => h (k + 1) q hq⟩
  · rintro ⟨hp, h⟩ k q hq
    cases k with
    | zero =>
      cases hq
      exact hp
    | succ k => exact h k q hq

theorem tracks_iff (hs : Visible s) : ∀ {packets : List Packet} {calls : List Call} {dr : Driver},
    (∃ x y, dr.state ptr = { s with x, y }) → dr.byteIdx = 0 →
    calls.map Call.data = packets.flatMap Packet.bytes →
    (∀ c ∈ calls, c.status &&& 0x01 ≠ 0) →
      (Tracks ptr s dr calls packets ↔ AllHarmless s (position (dr.state ptr)) packets)
  | [], _, _, _, _, _, _ => iff_of_true (fun k p h => by simp at h) (allHarmless_nil _)
  | p :: packets, calls, dr, ⟨x, y, hst⟩, hidx, hdata, hfull => by
    rw [List.flatMap_cons] at hdata
    obtain ⟨first, rest, rfl, hfirst, hrest⟩ := List.map_eq_append_iff.mp hdata
    have hlen : first.length = 3 := by simpa [Packet.bytes] using congrArg List.length hfirst
    have hfull₁ : ∀ c ∈ first, c.status &&& 0x01 ≠ 0 := fun c hc => hfull c (by simp [hc])
    have hfull₂ : ∀ c ∈ rest, c.status &&& 0x01 ≠ 0 := fun c hc => hfull c (by simp [hc])
    have hvis : Visible (dr.state ptr) := by
      rw [hst]
      exact ⟨hs.present, hs.shown, hs.type, hs.x, hs.y⟩
    have hstep : (∃ s', (dr.state ptr).move p = some s' ∧
        position s' = follow s (position (dr.state ptr)) p) ↔
        Harmless s (position (dr.state ptr)) p := by
      have h := move_follows hvis p
      rw [hst] at h ⊢
      exact h
    have hkeeps : ∀ {s'}, (dr.state ptr).move p = some s' → ∃ x y, s' = { s with x, y } := by
      intro s' h
      obtain ⟨x', y', rfl⟩ := move_keeps h
      exact ⟨x', y', by rw [hst]⟩
    have hpacket := run_packet p hvis hidx hfirst hfull₁
    rw [tracks_cons hlen, allHarmless_cons, ← hstep]
    constructor
    · rintro ⟨dr', hrun, hpos, htracks⟩
      rw [hrun] at hpacket
      obtain ⟨s', hmove, heq⟩ := Option.map_eq_some_iff.mp hpacket.symm
      obtain ⟨rfl, hidx'⟩ := Prod.ext_iff.mp heq
      have ih := tracks_iff hs (hkeeps hmove) hidx'.symm hrest hfull₂
      exact ⟨⟨_, hmove, hpos⟩, hpos ▸ ih.mp htracks⟩
    · rintro ⟨⟨s', hmove, hpos⟩, hall⟩
      rw [hmove] at hpacket
      obtain ⟨dr', hrun, heq⟩ := Option.map_eq_some_iff.mp hpacket
      obtain ⟨rfl, hidx'⟩ := Prod.ext_iff.mp heq
      have ih := tracks_iff hs (hkeeps hmove) hidx' hrest hfull₂
      exact ⟨dr', hrun, hpos, ih.mpr (hpos ▸ hall)⟩

/-- **Motion.** Feed a stream of packets byte by byte to a visible standard mouse that waits for a
first byte. The position after each packet is the position before it, plus the motion of the packet
and clamped to the bounds, exactly if every packet is harmless where it comes: no addition
overflows, and on each axis the byte is below 128 without the sign bit, or 128 with it, or else the
sum the code forms and the right one are clamped to the same bound. -/
theorem motion_exact (ptr : StatePtr) (dr : Driver) (hs : Visible (dr.state ptr))
    (hidx : dr.byteIdx = 0) (packets : List Packet) (calls : List Call)
    (hdata : calls.map Call.data = packets.flatMap Packet.bytes)
    (hfull : ∀ c ∈ calls, c.status &&& 0x01 ≠ 0) :
    Tracks ptr (dr.state ptr) dr calls packets ↔
      AllHarmless (dr.state ptr) (position (dr.state ptr)) packets :=
  tracks_iff hs ⟨_, _, rfl⟩ hidx hdata hfull

/-- The state after `mouse_init`, for a standard mouse. -/
def initialState : MouseState := ⟨40, 12, true, .ps2, false, 0, 80, 0, 25, false⟩

def initialDriver : Driver := ⟨initialState, initialState, fun _ => 0, 0⟩

def feed (bytes : List UInt8) : List Call := bytes.map fun b => ⟨0x01, b, ⟨0, 0, 0, 0, false⟩⟩

theorem feed_full (bytes : List UInt8) : ∀ c ∈ feed bytes, c.status &&& 0x01 ≠ 0 := by
  intro c hc
  obtain ⟨b, -, rfl⟩ := List.mem_map.mp hc
  exact (by decide : (0x01 : UInt8) &&& 0x01 ≠ 0)

/-- 5 to the right and 3 up; then 128 to the left, which ends at the border; then 1 to the left. -/
def toBorder : List Packet :=
  [⟨0x08, 5, 3, by decide, by decide⟩, ⟨0x18, 128, 0, by decide, by decide⟩,
    ⟨0x18, 255, 0, by decide, by decide⟩]

theorem motion_exact_border : Tracks .null initialState initialDriver
    (feed (toBorder.flatMap Packet.bytes)) toBorder := by
  refine (motion_exact .null initialDriver ⟨rfl, rfl, rfl, by decide, by decide⟩ rfl toBorder
    (feed (toBorder.flatMap Packet.bytes)) rfl (feed_full _)).mpr ?_
  refine allHarmless_cons.mpr ⟨by decide +kernel, ?_⟩
  refine allHarmless_cons.mpr ⟨by decide +kernel, ?_⟩
  exact allHarmless_cons.mpr ⟨by decide +kernel, allHarmless_nil _⟩

def oneLeft : Packet := ⟨0x18, 255, 0, by decide, by decide⟩

/-- **One to the left is 128 to the left**: the pointer goes to the border. -/
theorem oneLeft_jumps :
    (run .null initialDriver (feed oneLeft.bytes)).map (fun d => position (d.state .null)) =
      some (0, 12) ∧
    follow initialState (position initialState) oneLeft = (39, 12) ∧
    ¬ Tracks .null initialState initialDriver (feed oneLeft.bytes) [oneLeft] := by
  have hrun : (run .null initialDriver (feed oneLeft.bytes)).map
      (fun d => position (d.state .null)) = some (0, 12) := by decide +kernel
  have hfollow : follow initialState (position initialState) oneLeft = (39, 12) := by
    decide +kernel
  refine ⟨hrun, hfollow, fun h => ?_⟩
  obtain ⟨d₁, d₂, h₁, h₂, hpos⟩ := h 0 oneLeft rfl
  cases h₁
  have hall : (feed oneLeft.bytes).take (3 * (0 + 1)) = feed oneLeft.bytes := rfl
  rw [hall] at h₂
  rw [h₂] at hrun
  have hmoved : position (d₂.state .null) = (0, 12) := Option.some.inj hrun
  exact absurd (hfollow.symm.trans (hpos.symm.trans hmoved)) (by decide)

end Kerneloid.Mouse.Motion
