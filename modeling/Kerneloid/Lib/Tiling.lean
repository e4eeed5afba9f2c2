import Mathlib.Tactic

/-! # A region tiled by blocks

A region of memory is cut into blocks without gaps. Each block is a header of `hd` bytes and a
payload, and is free or in use. The blocks are given as a list, in the order of their addresses.
`carve` cuts a block for a request, and `join` joins free neighbours; `Tiles` says that the blocks
fill the region, that their sizes are multiples of `a`, and that no two neighbours are free. The two
operations are inverse (`join_carve`); `used` are the payloads of the blocks in use, to which
`carve` adds one (`used_carve`) and which `join` does not touch (`used_join`). -/

namespace Kerneloid.Lib.Tiling

variable {p : ℕ × ℕ}

/-- The size of the payload, and whether the block is free. -/
structure Block where
  size : ℕ
  free : Bool

variable {hd rest n a len x : ℕ} {b c : Block} {l r bs : List Block}

/-- The number of bytes the blocks take up. -/
def span (hd : ℕ) : List Block → ℕ
  | [] => 0
  | b :: bs => hd + b.size + span hd bs

@[simp] theorem span_nil : span hd [] = 0 := rfl

@[simp] theorem span_cons : span hd (b :: bs) = hd + b.size + span hd bs := rfl

@[simp] theorem span_append : span hd (l ++ r) = span hd l + span hd r := by
  induction l with
  | nil => simp
  | cons b l ih =>
    rw [List.cons_append, span_cons, span_cons, ih]
    omega

theorem length_le (bs : List Block) : hd * bs.length ≤ span hd bs := by
  induction bs with
  | nil => simp
  | cons b bs ih =>
    rw [List.length_cons, span_cons, Nat.mul_succ]
    omega

/-- The addresses of the headers, from `x` on. -/
def addrs (hd : ℕ) : ℕ → List Block → List ℕ
  | _, [] => []
  | x, b :: bs => x :: addrs hd (x + hd + b.size) bs

theorem addrs_append : addrs hd x (l ++ r) = addrs hd x l ++ addrs hd (x + span hd l) r := by
  induction l generalizing x with
  | nil => rfl
  | cons b l ih =>
    rw [List.cons_append, addrs, addrs, ih, span_cons, List.cons_append]
    simp only [Nat.add_assoc]

theorem mem_addrs {h : ℕ} : h ∈ addrs hd x bs ↔ ∃ l b r, bs = l ++ b :: r ∧ h = x + span hd l := by
  induction bs generalizing x with
  | nil => simp [addrs]
  | cons b bs ih =>
    rw [addrs, List.mem_cons, ih]
    constructor
    · rintro (rfl | ⟨l, c, r, rfl, rfl⟩)
      · exact ⟨[], b, bs, rfl, rfl⟩
      · exact ⟨b :: l, c, r, rfl, by rw [span_cons]; omega⟩
    · rintro ⟨l, c, r, e, rfl⟩
      cases l with
      | nil => exact Or.inl rfl
      | cons d l =>
        obtain ⟨rfl, rfl⟩ := List.cons.inj e
        exact Or.inr ⟨l, c, r, rfl, by rw [span_cons]; omega⟩

theorem addrs_gap {h : ℕ} (hh : h ∈ addrs hd x (l ++ b :: r)) :
    h ≤ x + span hd l ∨ x + span hd l + hd + b.size ≤ h := by
  rw [addrs_append, addrs] at hh
  rcases List.mem_append.mp hh with hh | hh
  · obtain ⟨l₁, c, l₂, rfl, rfl⟩ := mem_addrs.mp hh
    rw [span_append]
    exact Or.inl (by omega)
  · rcases List.mem_cons.mp hh with rfl | hh
    · exact Or.inl le_rfl
    · obtain ⟨l₁, c, l₂, rfl, rfl⟩ := mem_addrs.mp hh
      exact Or.inr (by omega)

/-- The blocks with their addresses. -/
def listed (hd : ℕ) : ℕ → List Block → List (ℕ × ℕ × Bool)
  | _, [] => []
  | x, b :: bs => (x, b.size, b.free) :: listed hd (x + hd + b.size) bs

theorem mem_listed {c : ℕ × ℕ × Bool} (hc : c ∈ listed hd x bs) :
    ∃ l b r, bs = l ++ b :: r ∧ c = (x + span hd l, b.size, b.free) := by
  induction bs generalizing x with
  | nil => cases hc
  | cons b bs ih =>
    rcases List.mem_cons.mp hc with rfl | hc
    · exact ⟨[], b, bs, rfl, rfl⟩
    · obtain ⟨l, b', r, rfl, rfl⟩ := ih hc
      exact ⟨b :: l, b', r, rfl, by rw [span_cons, Nat.add_assoc x, Nat.add_assoc x]⟩

theorem listed_inj {bs' : List Block} (h : listed hd x bs = listed hd x bs') : bs = bs' := by
  induction bs generalizing x bs' with
  | nil =>
    cases bs' with
    | nil => rfl
    | cons c bs' => cases h
  | cons b bs ih =>
    cases bs' with
    | nil => cases h
    | cons c bs' =>
      obtain ⟨size, free⟩ := b
      obtain ⟨size', free'⟩ := c
      obtain ⟨hhead, hrest⟩ := List.cons.inj h
      obtain ⟨-, hflag⟩ := Prod.mk.inj hhead
      obtain ⟨rfl, rfl⟩ := Prod.mk.inj hflag
      rw [ih hrest]

/-- Two neighbours that are not both free. -/
def Apart (b c : Block) : Prop := ¬ (b.free = true ∧ c.free = true)

/-- **The blocks tile a region** of `len` bytes. -/
structure Tiles (hd len a : ℕ) (bs : List Block) : Prop where
  span : span hd bs = len
  aligned : ∀ b ∈ bs, a ∣ b.size
  apart : bs.IsChain Apart

/-! ### A block is cut -/

/-- The block after `n` bytes of it are given out: what is left over is a free block if it has room
for a header and `rest` bytes. -/
def carve (hd rest n : ℕ) (b : Block) : List Block :=
  if hd + rest ≤ b.size - n then [⟨n, false⟩, ⟨b.size - n - hd, true⟩] else [⟨b.size, false⟩]

theorem span_carve (hn : n ≤ b.size) : span hd (carve hd rest n b) = hd + b.size := by
  unfold carve
  split_ifs
  · rw [span_cons, span_cons, span_nil]
    dsimp only
    omega
  · rfl

theorem carve_aligned (hn : a ∣ n) (hhd : a ∣ hd) (hb : a ∣ b.size) :
    ∀ c ∈ carve hd rest n b, a ∣ c.size := by
  intro c hc
  unfold carve at hc
  split_ifs at hc
  · rcases List.mem_pair.mp hc with rfl | rfl
    · exact hn
    · exact Nat.dvd_sub (Nat.dvd_sub hb hn) hhd
  · rw [List.mem_singleton.mp hc]
    exact hb

theorem Tiles.carve (h : Tiles hd len a (l ++ b :: r)) (hfree : b.free = true) (hle : n ≤ b.size)
    (hn : a ∣ n) (hhd : a ∣ hd) : Tiles hd len a (l ++ (carve hd rest n b ++ r)) := by
  obtain ⟨hspan, hal, hap⟩ := h
  refine ⟨?_, ?_, ?_⟩
  · rw [span_append, span_append, span_carve hle]
    rw [span_append, span_cons] at hspan
    omega
  · intro c hc
    rcases List.mem_append.mp hc with hc | hc
    · exact hal c (by simp [hc])
    · rcases List.mem_append.mp hc with hc | hc
      · exact carve_aligned hn hhd (hal b (by simp)) c hc
      · exact hal c (by simp [hc])
  · obtain ⟨hl, hr, hseam⟩ := List.isChain_append.mp hap
    -- the neighbours of a free block are in use
    have hnext : ∀ c ∈ r.head?, c.free = false := by
      intro c hc
      have := (List.isChain_cons.mp hr).1 c hc
      unfold Apart at this
      simpa [hfree] using this
    have hr' := (List.isChain_cons.mp hr).2
    have hcut : (Tiling.carve hd rest n b ++ r).IsChain Apart := by
      unfold Tiling.carve
      split_ifs
      · refine List.isChain_cons.mpr ⟨?_, List.isChain_cons.mpr ⟨?_, hr'⟩⟩
        · intro c _ hc
          cases hc.1
        · intro c hc hboth
          rw [hnext c hc] at hboth
          cases hboth.2
      · refine List.isChain_cons.mpr ⟨?_, hr'⟩
        intro c _ hc
        cases hc.1
    refine List.isChain_append.mpr ⟨hl, hcut, ?_⟩
    intro c _ d hd' hboth
    have hused : d.free = false := by
      unfold Tiling.carve at hd'
      split_ifs at hd'
      · obtain rfl := Option.some.inj hd'
        rfl
      · obtain rfl := Option.some.inj hd'
        rfl
    rw [hused] at hboth
    cases hboth.2

/-! ### Free neighbours are joined -/

/-- Free neighbours become one block, whose payload takes in the header between them. -/
def join (hd : ℕ) : List Block → List Block
  | b :: c :: bs =>
    if b.free = true ∧ c.free = true then join hd (⟨b.size + (hd + c.size), true⟩ :: bs)
    else b :: join hd (c :: bs)
  | bs => bs
  termination_by bs => bs.length

theorem span_join (bs : List Block) : span hd (join hd bs) = span hd bs := by
  fun_induction join hd bs with
  | case1 b c bs h ih =>
    rw [ih]
    simp only [span_cons]
    omega
  | case2 b c bs h ih =>
    rw [span_cons, ih]
    rfl
  | case3 bs h => rfl

theorem join_aligned (hhd : a ∣ hd) (h : ∀ b ∈ bs, a ∣ b.size) : ∀ b ∈ join hd bs, a ∣ b.size := by
  fun_induction join hd bs with
  | case1 b c bs hfree ih =>
    refine ih ?_
    intro d hd'
    rcases List.mem_cons.mp hd' with rfl | hd'
    · exact Nat.dvd_add (h b (by simp)) (Nat.dvd_add hhd (h c (by simp)))
    · exact h d (by simp [hd'])
  | case2 b c bs hfree ih =>
    intro d hd'
    rcases List.mem_cons.mp hd' with rfl | hd'
    · exact h d (by simp)
    · exact ih (fun e he => h e (List.mem_cons_of_mem b he)) d hd'
  | case3 bs _ => exact h

theorem join_head (hbs : c ∈ (join hd bs).head?) : ∃ b ∈ bs.head?, c.free = b.free := by
  fun_induction join hd bs with
  | case1 b d bs hfree ih =>
    obtain ⟨e, he, hce⟩ := ih hbs
    obtain rfl := Option.some.inj he
    exact ⟨b, rfl, by rw [hce, hfree.1]⟩
  | case2 b d bs hfree ih =>
    obtain rfl := Option.some.inj hbs
    exact ⟨_, rfl, rfl⟩
  | case3 bs _ => exact ⟨c, hbs, rfl⟩

theorem join_apart (bs : List Block) : (join hd bs).IsChain Apart := by
  fun_induction join hd bs with
  | case1 b c bs hfree ih => exact ih
  | case2 b c bs hfree ih =>
    refine List.isChain_cons.mpr ⟨?_, ih⟩
    intro d hd' hboth
    obtain ⟨e, he, hde⟩ := join_head hd'
    obtain rfl := Option.some.inj he
    exact hfree ⟨hboth.1, by rw [← hde]; exact hboth.2⟩
  | case3 bs h =>
    cases bs with
    | nil => exact List.isChain_nil
    | cons b bs =>
      cases bs with
      | nil => exact List.isChain_singleton b
      | cons c bs => exact absurd rfl (h b c bs)

theorem Tiles.release (h : Tiles hd len a (l ++ b :: r)) (hhd : a ∣ hd) :
    Tiles hd len a (join hd (l ++ ⟨b.size, true⟩ :: r)) := by
  obtain ⟨hspan, hal, -⟩ := h
  refine ⟨?_, ?_, join_apart _⟩
  · rw [span_join, ← hspan]
    simp only [span_append, span_cons]
  · refine join_aligned hhd ?_
    intro c hc
    rcases List.mem_append.mp hc with hc | hc
    · exact hal c (by simp [hc])
    · rcases List.mem_cons.mp hc with rfl | hc
      · exact hal b (by simp)
      · exact hal c (by simp [hc])

theorem join_of_apart (h : bs.IsChain Apart) : join hd bs = bs := by
  fun_induction join hd bs with
  | case1 b c bs hfree ih => exact absurd hfree (List.isChain_cons_cons.mp h).1
  | case2 b c bs hfree ih => rw [ih (List.isChain_cons_cons.mp h).2]
  | case3 bs _ => rfl

theorem join_free (h : b.free = true ∧ c.free = true) :
    join hd (b :: c :: bs) = join hd (⟨b.size + (hd + c.size), true⟩ :: bs) := by
  rw [join, if_pos h]

theorem join_cons (h : ¬ (b.free = true ∧ c.free = true)) :
    join hd (b :: c :: bs) = b :: join hd (c :: bs) := by
  rw [join, if_neg h]

theorem join_pair (m : ℕ) : ∀ (len : ℕ) (l : List Block), l.length ≤ len →
    join hd (l ++ ⟨n, true⟩ :: ⟨m, true⟩ :: r) = join hd (l ++ ⟨n + (hd + m), true⟩ :: r)
  | _, [], _ => join_free ⟨rfl, rfl⟩
  | _, [c], _ => by
    by_cases hc : c.free = true
    · rw [List.singleton_append, List.singleton_append, join_free ⟨hc, rfl⟩, join_free ⟨rfl, rfl⟩,
        join_free ⟨hc, rfl⟩]
      dsimp only
      rw [show c.size + (hd + n) + (hd + m) = c.size + (hd + (n + (hd + m))) by omega]
    · rw [List.singleton_append, List.singleton_append, join_cons fun e => hc e.1,
        join_cons fun e => hc e.1, join_free ⟨rfl, rfl⟩]
  | 0, c :: d :: l, h => absurd h (by simp)
  | len + 1, c :: d :: l, h => by
    have hlen : l.length + 1 ≤ len := Nat.le_of_succ_le_succ h
    have ih := join_pair m len
    simp only [List.cons_append]
    by_cases hcd : c.free = true ∧ d.free = true
    · rw [join_free hcd, join_free hcd]
      exact ih (⟨c.size + (hd + d.size), true⟩ :: l) hlen
    · rw [join_cons hcd, join_cons hcd]
      exact congrArg (c :: ·) (ih (d :: l) hlen)

/-- **To cut and to join are inverse**: a block that is cut and given back at once is whole
again. -/
theorem join_carve (h : (l ++ b :: r).IsChain Apart) (hfree : b.free = true) (hn : n ≤ b.size) :
    ∃ c cs, carve hd rest n b = c :: cs ∧ c.free = false ∧
      join hd (l ++ ⟨c.size, true⟩ :: (cs ++ r)) = l ++ b :: r := by
  obtain ⟨sz, f⟩ := b
  obtain rfl : f = true := hfree
  unfold carve
  split_ifs with hsplit
  · refine ⟨_, _, rfl, rfl, ?_⟩
    have hsz : n + (hd + (sz - n - hd)) = sz := by
      dsimp only at hsplit hn
      omega
    rw [List.singleton_append, join_pair _ _ l le_rfl]
    dsimp only
    rw [hsz, join_of_apart h]
  · exact ⟨_, _, rfl, rfl, join_of_apart h⟩

/-! ### The blocks in use -/

/-- The payloads of the blocks in use: their addresses, if the first header is at `x`, and their
sizes. -/
def used (hd : ℕ) : ℕ → List Block → List (ℕ × ℕ)
  | _, [] => []
  | x, b :: bs =>
    if b.free = true then used hd (x + hd + b.size) bs
    else (x + hd, b.size) :: used hd (x + hd + b.size) bs

/-- The byte at `y` lies in the payload of a block in use. -/
def InUse (hd x : ℕ) (bs : List Block) (y : ℕ) : Prop :=
  ∃ p ∈ used hd x bs, p.1 ≤ y ∧ y < p.1 + p.2

theorem used_free (hb : b.free = true) : used hd x (b :: bs) = used hd (x + hd + b.size) bs :=
  if_pos hb

theorem used_cons (hb : b.free = false) :
    used hd x (b :: bs) = (x + hd, b.size) :: used hd (x + hd + b.size) bs :=
  if_neg (by rw [hb]; decide)

theorem used_append : used hd x (l ++ r) = used hd x l ++ used hd (x + span hd l) r := by
  induction l generalizing x with
  | nil => rfl
  | cons b l ih =>
    rw [List.cons_append, used, used, ih, span_cons]
    split_ifs <;> simp only [List.cons_append, Nat.add_assoc]

theorem used_bounds (hp : p ∈ used hd x bs) : x + hd ≤ p.1 ∧ p.1 + p.2 ≤ x + span hd bs := by
  induction bs generalizing x with
  | nil => cases hp
  | cons b bs ih =>
    rw [span_cons]
    by_cases hb : b.free = true
    · rw [used_free hb] at hp
      have := ih hp
      omega
    · rw [used_cons (Bool.eq_false_of_not_eq_true hb)] at hp
      rcases List.mem_cons.mp hp with rfl | hp
      · dsimp only
        omega
      · have := ih hp
        omega

theorem used_gap (hb : b.free = true) (hp : p ∈ used hd x (l ++ b :: r)) :
    p.1 + p.2 ≤ x + span hd l ∨ x + span hd l + hd + b.size + hd ≤ p.1 := by
  rw [used_append, used_free hb] at hp
  rcases List.mem_append.mp hp with hp | hp
  · exact Or.inl (used_bounds hp).2
  · exact Or.inr (used_bounds hp).1

theorem mem_used (hp : p ∈ used hd x bs) :
    ∃ l r, bs = l ++ ⟨p.2, false⟩ :: r ∧ p.1 = x + span hd l + hd := by
  induction bs generalizing x with
  | nil => cases hp
  | cons b bs ih =>
    have hlater : p ∈ used hd (x + hd + b.size) bs →
        ∃ l r, b :: bs = l ++ ⟨p.2, false⟩ :: r ∧ p.1 = x + span hd l + hd := by
      intro hp
      obtain ⟨l, r, rfl, e⟩ := ih hp
      refine ⟨b :: l, r, rfl, ?_⟩
      rw [e, span_cons]
      omega
    by_cases hb : b.free = true
    · rw [used_free hb] at hp
      exact hlater hp
    · have hb' := Bool.eq_false_of_not_eq_true hb
      rw [used_cons hb'] at hp
      rcases List.mem_cons.mp hp with rfl | hp
      · refine ⟨[], bs, ?_, rfl⟩
        rw [← hb']
        rfl
      · exact hlater hp

theorem used_join (bs : List Block) : used hd x (join hd bs) = used hd x bs := by
  fun_induction join hd bs generalizing x with
  | case1 b c bs h ih =>
    rw [ih, used_free rfl, used_free h.1, used_free h.2]
    congr 1
    dsimp only
    omega
  | case2 b c bs h ih => rw [used, used, ih]
  | case3 bs h => rfl

/-- **A block that is cut** has one part in use, of at least the size that was asked for. -/
theorem used_carve (hfree : b.free = true) (hn : n ≤ b.size) :
    ∃ L R sz, n ≤ sz ∧ used hd x (l ++ b :: r) = L ++ R ∧
      used hd x (l ++ (carve hd rest n b ++ r)) = L ++ (x + span hd l + hd, sz) :: R := by
  obtain ⟨sz, hsz, hcut⟩ : ∃ sz, n ≤ sz ∧
      used hd (x + span hd l) (carve hd rest n b) = [(x + span hd l + hd, sz)] := by
    unfold carve
    split_ifs
    · exact ⟨n, le_rfl, rfl⟩
    · exact ⟨b.size, hn, rfl⟩
  refine ⟨used hd x l, used hd (x + span hd l + hd + b.size) r, sz, hsz, ?_, ?_⟩
  · rw [used_append, used_free hfree]
  · rw [used_append, used_append, hcut, span_carve hn, List.singleton_append, Nat.add_assoc _ hd]

theorem used_release (hb : b.free = false) :
    ∃ L R, used hd x (l ++ b :: r) = L ++ (x + span hd l + hd, b.size) :: R ∧
      used hd x (join hd (l ++ ⟨b.size, true⟩ :: r)) = L ++ R := by
  refine ⟨used hd x l, used hd (x + span hd l + hd + b.size) r, ?_, ?_⟩
  · rw [used_append, used_cons hb]
  · rw [used_join, used_append, used_free rfl]

theorem used_pairwise : (used hd x bs).Pairwise fun p q => p.1 + p.2 + hd ≤ q.1 := by
  induction bs generalizing x with
  | nil => exact List.Pairwise.nil
  | cons b bs ih =>
    by_cases hb : b.free = true
    · rw [used_free hb]
      exact ih
    · rw [used_cons (Bool.eq_false_of_not_eq_true hb)]
      refine List.Pairwise.cons ?_ ih
      intro q hq
      exact (used_bounds hq).1

theorem used_nodup (hhd : 0 < hd) : ((used hd x bs).map Prod.fst).Nodup := by
  refine List.pairwise_map.mpr (used_pairwise.imp ?_)
  intro p q h
  omega

theorem used_apart {q : ℕ × ℕ} (hp : p ∈ used hd x bs) (hq : q ∈ used hd x bs) (hne : p ≠ q) :
    p.1 + p.2 + hd ≤ q.1 ∨ q.1 + q.2 + hd ≤ p.1 := by
  have hsymm : Std.Symm fun p q : ℕ × ℕ => p.1 + p.2 + hd ≤ q.1 ∨ q.1 + q.2 + hd ≤ p.1 :=
    ⟨fun _ _ => Or.symm⟩
  have hpair : (used hd x bs).Pairwise fun p q => p.1 + p.2 + hd ≤ q.1 ∨ q.1 + q.2 + hd ≤ p.1 :=
    used_pairwise.imp Or.inl
  exact hpair.forall hp hq hne

theorem used_unique {q : ℕ × ℕ} {y : ℕ} (hp : p ∈ used hd x bs) (hq : q ∈ used hd x bs)
    (hpy : p.1 ≤ y ∧ y < p.1 + p.2) (hqy : q.1 ≤ y ∧ y < q.1 + q.2) : p = q := by
  by_contra hne
  have hapart := used_apart hp hq hne
  omega

theorem used_erase {L R : List (ℕ × ℕ)} {p sz sz' : ℕ} (hhd : 0 < hd)
    (h : used hd x bs = L ++ (p, sz') :: R) (hp : (p, sz) ∈ used hd x bs) :
    (used hd x bs).erase (p, sz) = L ++ R := by
  have hmem : (p, sz') ∈ used hd x bs := by
    rw [h]
    simp
  have hsame : (p, sz) = (p, sz') := by
    by_contra hne
    have hapart := used_apart hp hmem hne
    dsimp only at hapart
    omega
  have hnodup : (used hd x bs).Nodup := (used_nodup hhd).of_map
  rw [h] at hnodup
  have hnot : (p, sz') ∉ L := fun hL =>
    (List.nodup_middle.mp hnodup).notMem (List.mem_append_left R hL)
  rw [hsame, h, List.erase_append_right _ hnot, List.erase_cons_head]

theorem listed_used : ∀ (bs : List Block) (x : ℕ),
    ((listed hd x bs).filter fun b => !b.2.2).map (fun b => (b.1 + hd, b.2.1)) = used hd x bs
  | [], _ => rfl
  | ⟨sz, f⟩ :: bs, x => by
    have ih := listed_used bs (x + hd + sz)
    cases f <;> simp [listed, used, ih]

theorem Tiles.single (h : Tiles hd len a bs) (hused : used hd x bs = []) (hne : bs ≠ []) :
    ∃ n, bs = [⟨n, true⟩] ∧ hd + n = len := by
  have hfree : ∀ b ∈ bs, b.free = true := by
    intro b hb
    obtain ⟨l, r, rfl⟩ := List.append_of_mem hb
    by_contra hf
    rw [used_append, used_cons (Bool.eq_false_of_not_eq_true hf)] at hused
    simp at hused
  cases bs with
  | nil => exact absurd rfl hne
  | cons b bs =>
    cases bs with
    | nil =>
      refine ⟨b.size, ?_, h.span⟩
      rw [← hfree b (by simp)]
    | cons c bs =>
      exact absurd ⟨hfree b (by simp), hfree c (by simp)⟩ (List.isChain_cons_cons.mp h.apart).1

/-! ### The last block -/

/-- The last block has at least `rest` bytes. -/
def Ends (rest : ℕ) : List Block → Prop
  | [] => True
  | [b] => rest ≤ b.size
  | _ :: c :: bs => Ends rest (c :: bs)

theorem ends_append : Ends rest (l ++ b :: r) ↔ Ends rest (b :: r) := by
  induction l with
  | nil => rfl
  | cons c l ih =>
    rw [← ih]
    cases l <;> rfl

theorem ends_congr (h : b.size = c.size) : Ends rest (b :: r) ↔ Ends rest (c :: r) := by
  cases r with
  | nil =>
    show rest ≤ b.size ↔ rest ≤ c.size
    rw [h]
  | cons d r => rfl

theorem Ends.carve (h : Ends rest (l ++ b :: r)) : Ends rest (l ++ (carve hd rest n b ++ r)) := by
  rw [ends_append] at h
  unfold Tiling.carve
  split_ifs with hsplit
  · rw [List.cons_append, ends_append]
    cases r with
    | nil =>
      show rest ≤ b.size - n - hd
      omega
    | cons c r => exact h
  · rw [List.singleton_append, ends_append]
    exact (ends_congr (b := b) (c := ⟨b.size, false⟩) rfl).mp h

theorem join_ne_nil (h : bs ≠ []) : join hd bs ≠ [] := by
  fun_induction join hd bs with
  | case1 b c bs hfree ih => exact ih (List.cons_ne_nil _ _)
  | case2 b c bs hfree ih => exact List.cons_ne_nil _ _
  | case3 bs _ => exact h

theorem Ends.join (h : Ends rest bs) : Ends rest (join hd bs) := by
  fun_induction Tiling.join hd bs with
  | case1 b c bs hfree ih =>
    refine ih ?_
    cases bs with
    | nil =>
      have hc : rest ≤ c.size := h
      show rest ≤ b.size + (hd + c.size)
      omega
    | cons d bs => exact h
  | case2 b c bs hfree ih =>
    have hrest : Ends rest (Tiling.join hd (c :: bs)) := ih h
    have hne : Tiling.join hd (c :: bs) ≠ [] := join_ne_nil (List.cons_ne_nil c bs)
    obtain ⟨d, ds, hjoin⟩ := List.exists_cons_of_ne_nil hne
    rw [hjoin] at hrest ⊢
    exact hrest
  | case3 bs _ => exact h

end Kerneloid.Lib.Tiling
