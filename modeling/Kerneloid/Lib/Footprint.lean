import Kerneloid.Lib.Bytes

/-! # Footprints

A memory that keeps a log of the ranges stored to, so that a store of the value that was there
already also counts. `Touches P t t'` says that all addresses stored to between `t` and `t'` satisfy
`P`, and that all others keep their byte; it composes along a program (`Touches.trans`). -/

namespace Kerneloid.Lib.Footprint

open Bytes

variable {a n : ℕ}

/-- A memory with the ranges (address, length) stored to so far, the latest first. -/
structure LogMem where
  mem : Mem
  log : List (ℕ × ℕ)

namespace LogMem

def put32 (t : LogMem) (a v : ℕ) : LogMem := ⟨wr32 t.mem a v, (a, 4) :: t.log⟩

def put (t : LogMem) (a : ℕ) (src : ℕ → UInt8) (n : ℕ) : LogMem :=
  ⟨store t.mem a src n, (a, n) :: t.log⟩

def copy (t : LogMem) (dst src n : ℕ) : LogMem := ⟨move t.mem dst src n, (dst, n) :: t.log⟩

def zero (t : LogMem) (a n : ℕ) : LogMem := ⟨fill t.mem a 0 n, (a, n) :: t.log⟩

end LogMem

/-- Between `t` and `t'` only addresses in `P` are stored to. -/
structure Touches (P : ℕ → Prop) (t t' : LogMem) : Prop where
  log : ∃ new, t'.log = new ++ t.log ∧ ∀ r ∈ new, ∀ x, r.1 ≤ x → x < r.1 + r.2 → P x
  frame : ∀ x, ¬ P x → t'.mem x = t.mem x

variable {P Q : ℕ → Prop} {t t' t'' : LogMem}

theorem Touches.refl (P : ℕ → Prop) (t : LogMem) : Touches P t t :=
  ⟨⟨[], rfl, by simp⟩, fun _ _ => rfl⟩

theorem Touches.trans (h : Touches P t t') (h' : Touches P t' t'') : Touches P t t'' := by
  obtain ⟨n, hn, hP⟩ := h.log
  obtain ⟨n', hn', hP'⟩ := h'.log
  refine ⟨⟨n' ++ n, by rw [hn', hn, List.append_assoc], fun r hr => ?_⟩, fun x hx => ?_⟩
  · rcases List.mem_append.mp hr with hr | hr
    · exact hP' r hr
    · exact hP r hr
  · rw [h'.frame x hx, h.frame x hx]

theorem Touches.mono (h : Touches P t t') (hPQ : ∀ x, P x → Q x) : Touches Q t t' := by
  obtain ⟨n, hn, hP⟩ := h.log
  exact ⟨⟨n, hn, fun r hr x h1 h2 => hPQ x (hP r hr x h1 h2)⟩, fun x hx =>
    h.frame x fun hp => hx (hPQ x hp)⟩

theorem Touches.one (hlog : t'.log = (a, n) :: t.log)
    (hmem : ∀ x, x < a ∨ a + n ≤ x → t'.mem x = t.mem x) (hP : ∀ x, a ≤ x → x < a + n → P x) :
    Touches P t t' := by
  refine ⟨⟨[(a, n)], hlog, fun r hr => ?_⟩, fun x hx => hmem x ?_⟩
  · rw [List.mem_singleton.mp hr]; exact hP
  · by_contra hc
    exact hx (hP x (by omega) (by omega))

theorem Touches.put32 (t : LogMem) (v : ℕ) (hP : ∀ x, a ≤ x → x < a + 4 → P x) :
    Touches P t (t.put32 a v) := .one rfl (fun _ hx => wr32_outside _ _ hx) hP

theorem Touches.put (t : LogMem) (src : ℕ → UInt8)
    (hP : ∀ x, a ≤ x → x < a + n → P x) : Touches P t (t.put a src n) :=
  .one rfl (fun _ hx => store_outside _ _ hx) hP

theorem Touches.copy (t : LogMem) {dst : ℕ} (src : ℕ)
    (hP : ∀ x, dst ≤ x → x < dst + n → P x) : Touches P t (t.copy dst src n) :=
  .one rfl (fun _ hx => move_outside _ hx) hP

theorem Touches.zero (t : LogMem) (hP : ∀ x, a ≤ x → x < a + n → P x) :
    Touches P t (t.zero a n) := .one rfl (fun _ hx => store_outside t.mem (fun _ => 0) hx) hP

theorem Touches.rd32 (h : Touches P t t') (ha : ∀ x, a ≤ x → x < a + 4 → ¬ P x) :
    rd32 t'.mem a = rd32 t.mem a := rd32_congr fun x h1 h2 => h.frame x (ha x h1 h2)

end Kerneloid.Lib.Footprint
