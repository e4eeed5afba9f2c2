import Kerneloid.UnnamedFS.Types
import Mathlib.Data.List.TakeWhile

/-! # Addresses in dotted notation

`tcp_inet_addr` of `tcp.c`. The pointer `addr` is what is left of the string: `*addr` is its first
character, or the terminating NUL. The inner loop reads a group of digits and gives up at a value
above 255 or at the fourth digit; whichever comes first, it returns exactly if the digits that stand
there are a group (`digitLoop_eq`). The outer loop reads four groups and the dots between them. -/

namespace Kerneloid.Tcp.InetAddr

open UnnamedFS.Types

variable {gs : List CStr}

/-! ### The code -/

/-- `*addr >= '0' && *addr <= '9'`. -/
def isDigit (c : UInt8) : Bool := 48 ≤ c ∧ c ≤ 57

/-- The inner loop: `none` if it returns `INADDR_NONE`. -/
def digitLoop : CStr → UInt32 → ℕ → Option (UInt32 × CStr)
  | [], part, _ => some (part, [])
  | c :: rest, part, digits =>
    if isDigit c then
      let part := part * 10 + (c - 48).toUInt32
      if 255 < part then none
      else if 3 < digits + 1 then none
      else digitLoop rest part (digits + 1)
    else some (part, c :: rest)

/-- The outer loop with `i + left = 4`: `none` if it returns `INADDR_NONE`. -/
def groupLoop : ℕ → CStr → UInt32 → Option UInt32
  | 0, _, ip => some ip
  | left + 1, addr, ip =>
    if isDigit (addr.headD 0) then
      match digitLoop addr 0 0 with
      | none => none
      | some (part, addr) =>
        -- `24 - i * 8`
        let ip := ip ||| part <<< UInt32.ofNat (8 * left)
        if 0 < left then
          if addr.headD 0 ≠ 46 then none
          else if addr.tail.headD 0 = 0 then none
          else groupLoop left addr.tail ip
        else if addr.headD 0 ≠ 0 then none
        else groupLoop left addr ip
    else none

/-- `tcp_inet_addr` of a string that is not null. -/
def tcpInetAddr (addr : CStr) : UInt32 :=
  if addr.headD 0 = 0 then 0 else (groupLoop 4 addr 0).getD 0xFFFFFFFF

/-! ### The grammar -/

/-- The value of the digits `g`, with `v` that of the digits before. -/
def valueFrom (v : ℕ) (g : CStr) : ℕ := g.foldl (fun v c => 10 * v + (c.toNat - 48)) v

/-- The value of a group. -/
abbrev value (g : CStr) : ℕ := valueFrom 0 g

/-- **A group**: one to three digits, with a value of at most 255. -/
structure Group (g : CStr) : Prop where
  digits : ∀ c ∈ g, isDigit c = true
  pos : 1 ≤ g.length
  le : g.length ≤ 3
  small : value g ≤ 255

/-- Groups with single dots between them. -/
def dotted : List CStr → CStr
  | [] => []
  | [g] => g
  | g :: gs => g ++ 46 :: dotted gs

/-- The number of an address, with `v` that of the groups before. -/
def addressFrom (v : ℕ) (gs : List CStr) : ℕ := gs.foldl (fun v g => 256 * v + value g) v

variable {addr g r : CStr} {part ip : UInt32} {left : ℕ}

/-! ### One group -/

theorem le_valueFrom (g : CStr) (v : ℕ) : v ≤ valueFrom v g := by
  induction g generalizing v with
  | nil => exact le_rfl
  | cons c g ih =>
    have h : 10 * v + (c.toNat - 48) ≤ valueFrom v (c :: g) := ih _
    omega

theorem toNat_digit {c : UInt8} (hc : isDigit c = true) (hp : part.toNat ≤ 255) :
    (part * 10 + (c - 48).toUInt32).toNat = 10 * part.toNat + (c.toNat - 48) := by
  obtain ⟨h₁, h₂⟩ : 48 ≤ c ∧ c ≤ 57 := by simpa [isDigit] using hc
  have h₂' : c.toNat ≤ 57 := UInt8.le_iff_toNat_le.mp h₂
  have hsub : (c - 48).toNat = c.toNat - 48 := UInt8.toNat_sub_of_le _ _ h₁
  have hten : (10 : UInt32).toNat = 10 := rfl
  rw [UInt32.toNat_add, UInt32.toNat_mul, UInt8.toNat_toUInt32, hsub, hten]
  omega

/-- **The inner loop** reads the digits that stand there, and returns exactly if they are not too
many and their value is not too large. -/
theorem digitLoop_eq (addr : CStr) (part : UInt32) (digits : ℕ) (hp : part.toNat ≤ 255)
    (hd : digits ≤ 3) :
    digitLoop addr part digits =
      if digits + (addr.takeWhile isDigit).length ≤ 3 ∧
        valueFrom part.toNat (addr.takeWhile isDigit) ≤ 255
      then some (UInt32.ofNat (valueFrom part.toNat (addr.takeWhile isDigit)),
        addr.dropWhile isDigit)
      else none := by
  induction addr generalizing part digits with
  | nil =>
    rw [List.takeWhile_nil, if_pos ⟨hd, hp⟩]
    exact congrArg (fun p => some (p, [])) (UInt32.ofNat_toNat).symm
  | cons c rest ih =>
    unfold digitLoop
    cases hc : isDigit c with
    | false =>
      rw [List.takeWhile_cons_of_neg (by simp [hc]), List.dropWhile_cons_of_neg (by simp [hc]),
        if_neg Bool.false_ne_true, if_pos ⟨hd, hp⟩]
      exact congrArg (fun p => some (p, c :: rest)) (UInt32.ofNat_toNat).symm
    | true =>
      have hnext := toNat_digit hc hp
      have hvalue : valueFrom part.toNat (c :: rest.takeWhile isDigit) =
          valueFrom (part * 10 + (c - 48).toUInt32).toNat (rest.takeWhile isDigit) := by
        rw [hnext]
        rfl
      have hbig : 255 < part * 10 + (c - 48).toUInt32 ↔
          255 < (part * 10 + (c - 48).toUInt32).toNat := UInt32.lt_iff_toNat_lt
      rw [List.takeWhile_cons_of_pos hc, List.dropWhile_cons_of_pos hc, if_pos rfl, hvalue,
        List.length_cons]
      generalize part * 10 + (c - 48).toUInt32 = next at hbig ⊢
      have hmono := le_valueFrom (rest.takeWhile isDigit) next.toNat
      -- a value that is too large stays so, and a fourth digit is one too many
      dsimp only
      split_ifs with h₁ h₂ h₃ h₃ h₃
      · have := hbig.mp h₁
        omega
      · rfl
      · omega
      · rfl
      · rw [ih next (digits + 1) (by rw [hbig] at h₁; omega) (by omega), if_pos ⟨by omega, h₃.2⟩]
      · rw [ih next (digits + 1) (by rw [hbig] at h₁; omega) (by omega), if_neg]
        rintro ⟨h₄, h₅⟩
        exact h₃ ⟨by omega, h₅⟩

theorem group_takeWhile (h : isDigit (addr.headD 0) = true)
    (hlen : 0 + (addr.takeWhile isDigit).length ≤ 3)
    (hval : valueFrom 0 (addr.takeWhile isDigit) ≤ 255) : Group (addr.takeWhile isDigit) := by
  refine ⟨fun c hc => List.mem_takeWhile_imp hc, ?_, by omega, hval⟩
  match addr, h with
  | c :: rest, h =>
    have hc : isDigit c = true := h
    rw [List.takeWhile_cons_of_pos hc]
    exact Nat.succ_pos _

theorem takeWhile_group (hg : Group g) (hr : isDigit (r.headD 0) = false) :
    (g ++ r).takeWhile isDigit = g ∧ (g ++ r).dropWhile isDigit = r := by
  have hrt : r.takeWhile isDigit = [] ∧ r.dropWhile isDigit = r := by
    match r, hr with
    | [], _ => exact ⟨rfl, rfl⟩
    | c :: r, hr =>
      have hc : ¬ isDigit c = true := by simpa using hr
      exact ⟨List.takeWhile_cons_of_neg hc, List.dropWhile_cons_of_neg hc⟩
  rw [List.takeWhile_append_of_pos hg.digits, List.dropWhile_append_of_pos hg.digits, hrt.1, hrt.2,
    List.append_nil]
  exact ⟨rfl, rfl⟩

/-! ### The groups -/

theorem or_shift (left : ℕ) {v p : ℕ} (hv : (v + 1) * 256 ^ (left + 1) ≤ 2 ^ 32) (hp : p ≤ 255) :
    UInt32.ofNat (v * 256 ^ (left + 1)) ||| UInt32.ofNat p <<< UInt32.ofNat (8 * left) =
      UInt32.ofNat ((256 * v + p) * 256 ^ left) := by
  have hleft : left ≤ 3 := by
    by_contra hlt
    have hpow : 256 ^ 5 ≤ 256 ^ (left + 1) := Nat.pow_le_pow_right (by omega) (by omega)
    have hmul : 1 * 256 ^ (left + 1) ≤ (v + 1) * 256 ^ (left + 1) :=
      Nat.mul_le_mul_right _ (by omega)
    omega
  have hpow : ∀ k, 256 ^ k = 2 ^ (8 * k) := fun k => by rw [pow_mul]; norm_num
  have hlow : p * 2 ^ (8 * left) < 2 ^ (8 * (left + 1)) := by
    rw [Nat.mul_add, pow_add, mul_comm]
    exact Nat.mul_lt_mul_of_pos_left (by omega) (by positivity)
  have hsum : v * 2 ^ (8 * (left + 1)) + p * 2 ^ (8 * left) = (256 * v + p) * 2 ^ (8 * left) := by
    rw [Nat.mul_add 8, pow_add]
    ring
  have hor := Nat.shiftLeft_add_eq_or_of_lt hlow v
  rw [Nat.shiftLeft_eq, hsum] at hor
  rw [hpow, add_mul, one_mul] at hv
  rw [hpow, hpow]
  have hshift : (UInt32.ofNat (8 * left)).toNat % 32 = 8 * left := by
    rw [UInt32.toNat_ofNat']
    omega
  refine UInt32.toNat_inj.mp ?_
  rw [UInt32.toNat_or, UInt32.toNat_shiftLeft, hshift, UInt32.toNat_ofNat', UInt32.toNat_ofNat',
    UInt32.toNat_ofNat', ← hsum, Nat.mod_eq_of_lt (by omega : p < 2 ^ 32), Nat.shiftLeft_eq,
    Nat.mod_eq_of_lt (by omega), Nat.mod_eq_of_lt (by omega), Nat.mod_eq_of_lt (by omega)]
  exact hor.symm.trans hsum.symm

theorem Group.headD (hg : Group g) (r : CStr) : isDigit ((g ++ r).headD 0) = true := by
  match g, hg with
  | [], hg => exact absurd hg.pos (by simp)
  | c :: g, hg => exact hg.digits c List.mem_cons_self

theorem Group.read (hg : Group g) (hr : isDigit (r.headD 0) = false) :
    digitLoop (g ++ r) 0 0 = some (UInt32.ofNat (value g), r) := by
  obtain ⟨htake, hdrop⟩ := takeWhile_group hg hr
  rw [digitLoop_eq (g ++ r) 0 0 (Nat.zero_le _) (by omega), htake, hdrop]
  exact if_pos ⟨by rw [Nat.zero_add]; exact hg.le, hg.small⟩

theorem isDigit_headD_dotted (hgs : ∀ g ∈ gs, Group g) (hne : gs ≠ []) :
    isDigit ((dotted gs).headD 0) = true := by
  match gs, hne with
  | [g], _ =>
    have h := (hgs g List.mem_cons_self).headD []
    rwa [List.append_nil] at h
  | g :: h :: gs, _ => exact (hgs g List.mem_cons_self).headD _

theorem headD_dotted_ne (hgs : ∀ g ∈ gs, Group g) (hne : gs ≠ []) : (dotted gs).headD 0 ≠ 0 := by
  intro e
  have hdigit := isDigit_headD_dotted hgs hne
  rw [e] at hdigit
  exact absurd hdigit (by decide)

theorem groupLoop_dotted (gs : List CStr) (hgs : ∀ g ∈ gs, Group g) (hne : gs ≠ []) {v : ℕ}
    (hv : (v + 1) * 256 ^ gs.length ≤ 2 ^ 32) :
    groupLoop gs.length (dotted gs) (UInt32.ofNat (v * 256 ^ gs.length)) =
      some (UInt32.ofNat (addressFrom v gs)) := by
  induction gs generalizing v with
  | nil => exact absurd rfl hne
  | cons g gs ih =>
    have hg := hgs g List.mem_cons_self
    have hor := or_shift gs.length hv hg.small
    cases gs with
    | nil =>
      have hread := hg.read (r := []) rfl
      have hhead := hg.headD []
      rw [List.append_nil] at hread hhead
      show groupLoop (0 + 1) g _ = _
      unfold groupLoop
      rw [if_pos hhead, hread]
      refine congrArg some (hor.trans ?_)
      show UInt32.ofNat ((256 * v + value g) * 256 ^ 0) = UInt32.ofNat (256 * v + value g)
      rw [pow_zero, mul_one]
    | cons h gs =>
      have hrest : ∀ g ∈ h :: gs, Group g := fun x hx => hgs x (List.mem_cons_of_mem g hx)
      have hnul := headD_dotted_ne hrest (List.cons_ne_nil h gs)
      have hnext : (256 * v + value g + 1) * 256 ^ (h :: gs).length ≤ 2 ^ 32 := by
        have hle : 256 * v + value g + 1 ≤ 256 * (v + 1) := by
          have := hg.small
          omega
        calc (256 * v + value g + 1) * 256 ^ (h :: gs).length
            ≤ 256 * (v + 1) * 256 ^ (h :: gs).length := Nat.mul_le_mul_right _ hle
          _ = (v + 1) * 256 ^ (g :: h :: gs).length := by rw [List.length_cons (a := g)]; ring
          _ ≤ 2 ^ 32 := hv
      show groupLoop ((h :: gs).length + 1) (g ++ 46 :: dotted (h :: gs)) _ = _
      unfold groupLoop
      rw [if_pos (hg.headD _), hg.read (r := 46 :: dotted (h :: gs)) rfl]
      dsimp only
      rw [if_pos (by simp), List.headD_cons, if_neg (by simp), List.tail_cons, if_neg hnul,
        List.length_cons (a := g), hor, ih hrest (List.cons_ne_nil h gs) hnext]
      rfl

theorem tcpInetAddr_dotted (hgs : ∀ g ∈ gs, Group g) (hlen : gs.length = 4) :
    tcpInetAddr (dotted gs) = UInt32.ofNat (addressFrom 0 gs) := by
  have hne : gs ≠ [] := List.ne_nil_of_length_eq_add_one hlen
  have hloop := groupLoop_dotted gs hgs hne (v := 0) (by rw [hlen]; norm_num)
  rw [zero_mul, hlen] at hloop
  unfold tcpInetAddr
  rw [if_neg (headD_dotted_ne hgs hne)]
  exact congrArg (Option.getD · 0xFFFFFFFF) hloop

theorem groupLoop_turn {v : UInt32} (h : groupLoop (left + 1) addr ip = some v) :
    Group (addr.takeWhile isDigit) ∧
      (left = 0 ∧ (addr.dropWhile isDigit).headD 0 = 0 ∨
        0 < left ∧ (addr.dropWhile isDigit).headD 0 = 46 ∧
          ∃ ip', groupLoop left (addr.dropWhile isDigit).tail ip' = some v) := by
  unfold groupLoop at h
  by_cases hdigit : isDigit (addr.headD 0) = true
  · rw [if_pos hdigit, digitLoop_eq addr 0 0 (Nat.zero_le _) (by omega)] at h
    by_cases hg : 0 + (addr.takeWhile isDigit).length ≤ 3 ∧
        valueFrom (0 : UInt32).toNat (addr.takeWhile isDigit) ≤ 255
    · rw [if_pos hg] at h
      dsimp only at h
      refine ⟨group_takeWhile hdigit hg.1 hg.2, ?_⟩
      split_ifs at h with hl hdot hnul hend
      · exact Or.inr ⟨hl, not_not.mp hdot, _, h⟩
      · exact Or.inl ⟨by omega, not_not.mp hend⟩
    · rw [if_neg hg] at h
      exact absurd h (by simp)
  · rw [if_neg hdigit] at h
    exact absurd h (by simp)

theorem dotted_of_groupLoop {v : UInt32} (h0 : 0 ∉ addr)
    (h : groupLoop (left + 1) addr ip = some v) :
    ∃ gs : List CStr, gs.length = left + 1 ∧ (∀ g ∈ gs, Group g) ∧ dotted gs = addr := by
  induction left generalizing addr ip with
  | zero =>
    obtain ⟨hg, ⟨-, hend⟩ | ⟨hlt, -⟩⟩ := groupLoop_turn h
    · have hsplit := List.takeWhile_append_dropWhile (p := isDigit) (l := addr)
      cases hr : addr.dropWhile isDigit with
      | nil =>
        rw [hr, List.append_nil] at hsplit
        refine ⟨[addr], rfl, ?_, rfl⟩
        rw [List.forall_mem_singleton, ← hsplit]
        exact hg
      | cons c rest =>
        -- the terminator is not one of the characters
        rw [hr, List.headD_cons] at hend
        subst hend
        exact absurd (hsplit ▸ hr ▸ List.mem_append_right _ List.mem_cons_self) h0
    · exact absurd hlt (by omega)
  | succ left ih =>
    obtain ⟨hg, ⟨hl, -⟩ | ⟨-, hdot, ip', hrest⟩⟩ := groupLoop_turn h
    · exact absurd hl (by omega)
    · have hsplit := List.takeWhile_append_dropWhile (p := isDigit) (l := addr)
      cases hr : addr.dropWhile isDigit with
      | nil =>
        rw [hr] at hdot
        exact absurd hdot (by decide)
      | cons c rest =>
        rw [hr] at hdot hrest hsplit
        obtain rfl : c = 46 := hdot
        have h0' : 0 ∉ rest := fun hm => h0 <| by
          rw [← hsplit]
          exact List.mem_append_right _ (List.mem_cons_of_mem 46 hm)
        obtain ⟨gs, hlen, hgs, hdotted⟩ := ih h0' hrest
        refine ⟨addr.takeWhile isDigit :: gs, by rw [List.length_cons, hlen], ?_, ?_⟩
        · exact List.forall_mem_cons.mpr ⟨hg, hgs⟩
        · match gs, hlen with
          | h :: gs, _ =>
            show _ ++ 46 :: dotted (h :: gs) = addr
            rw [hdotted]
            exact hsplit

/-- **An address in dotted notation**: four groups with single dots between them. -/
structure Dotted (s a b c d : CStr) : Prop where
  groups : Group a ∧ Group b ∧ Group c ∧ Group d
  text : s = a ++ 46 :: (b ++ 46 :: (c ++ 46 :: d))

/-- **Addresses.** For every string: if it is in dotted notation, the result is the number of the
address; if it is empty, the result is 0; for every other string it is `INADDR_NONE`. -/
theorem inetAddr_exact (s : CStr) (hs : 0 ∉ s) :
    (∀ a b c d, Dotted s a b c d → (tcpInetAddr s).toNat =
        value a * 2 ^ 24 + value b * 2 ^ 16 + value c * 2 ^ 8 + value d) ∧
      (s = [] → tcpInetAddr s = 0) ∧
      (s ≠ [] → (¬ ∃ a b c d, Dotted s a b c d) → tcpInetAddr s = 0xFFFFFFFF) := by
  refine ⟨fun a b c d h => ?_, fun h => by rw [h]; rfl, fun hne hnot => ?_⟩
  · obtain ⟨⟨ha, hb, hc, hd⟩, rfl⟩ := h
    have hgs : ∀ g ∈ [a, b, c, d], Group g := by simp [ha, hb, hc, hd]
    have hva := ha.small
    have hvb := hb.small
    have hvc := hc.small
    have hvd := hd.small
    show (tcpInetAddr (dotted [a, b, c, d])).toNat = _
    rw [tcpInetAddr_dotted hgs rfl, UInt32.toNat_ofNat']
    show (256 * (256 * (256 * (256 * 0 + value a) + value b) + value c) + value d) % 2 ^ 32 = _
    omega
  · have hhead : s.headD 0 ≠ 0 := by
      match s, hne with
      | x :: s, _ => exact fun e => hs (e ▸ List.mem_cons_self)
    unfold tcpInetAddr
    rw [if_neg hhead]
    cases hloop : groupLoop 4 s 0 with
    | none => rfl
    | some v =>
      obtain ⟨gs, hlen, hgs, rfl⟩ := dotted_of_groupLoop hs hloop
      match gs, hlen with
      | [a, b, c, d], _ =>
        have hall : Group a ∧ Group b ∧ Group c ∧ Group d := by simpa using hgs
        exact absurd ⟨a, b, c, d, hall, rfl⟩ hnot

/-- A leading zero is allowed, a fourth digit is not. -/
theorem inetAddr_exact_loopback :
    (0 : UInt8) ∉ cstr "127.0.00.1" ∧
      (tcpInetAddr (cstr "127.0.00.1")).toNat = 127 * 2 ^ 24 + 0 * 2 ^ 16 + 0 * 2 ^ 8 + 1 ∧
      tcpInetAddr (cstr "127.0.0.0001") = 0xFFFFFFFF := by
  have h0 : (0 : UInt8) ∉ cstr "127.0.00.1" := by decide
  have hgroup : ∀ g ∈ [cstr "127", cstr "0", cstr "00", cstr "1"], Group g := by
    intro g hg
    constructor <;> fin_cases hg <;> decide +kernel
  refine ⟨h0, (inetAddr_exact (cstr "127.0.00.1") h0).1 (cstr "127") (cstr "0") (cstr "00")
    (cstr "1") ⟨by simpa using hgroup, rfl⟩, by decide +kernel⟩

end Kerneloid.Tcp.InetAddr
