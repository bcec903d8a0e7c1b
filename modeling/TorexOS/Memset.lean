import TorexOS.Lib.Guarded
import Mathlib.Tactic.Ring

/-!
# TorexOS.Memset

`text::memset` of `lib/src/stringutil.cpp`: bytes at both ends, then words, then 32 bytes at a time.

* `memset` checks each store against the `n` bytes at `dest`.
* `Edges lo hi`: the bytes below `lo` and from `hi` on are filled. `Edges.stores` grows both ends by
  a group of stores, in any order.
* `memset_filled`, `memset_fills`: all `n` bytes are filled and no other.
-/

namespace TorexOS
namespace Text

open Packed Guarded

/-- `for (; n >= 32; n-=32, s+=32)` -/
def fillLoop (r : Span) (c64 : BitVec 64) (m : Bytes) (s n : Nat) : Option Bytes :=
  if 32 ≤ n then
    (putAll (put64 r) c64 m [s + 0, s + 8, s + 16, s + 24]).bind fun m => fillLoop r c64 m (s + 32) (n - 32)
  else some m
termination_by n

/-- `((u32)-1)/255 * (unsigned char)c` -/
def fill32 (c : BitVec 8) : BitVec 32 := (BitVec.allOnes 32 / 255#32) * c.setWidth 32

/-- `c32 | ((u64)c32 << 32)` -/
def fill64 (c : BitVec 8) : BitVec 64 :=
  (fill32 c).setWidth 64 ||| ((fill32 c).setWidth 64 <<< 32)

/-- `memset` from an aligned pointer on. -/
def fillWords (r : Span) (c : BitVec 8) (m : Bytes) (s n : Nat) : Option Bytes := do
  let m ← putAll (put32 r) (fill32 c) m [s + 0, s + n - 4]
  if n ≤ 8 then return m
  let m ← putAll (put32 r) (fill32 c) m [s + 4, s + 8, s + n - 12, s + n - 8]
  if n ≤ 24 then return m
  let m ← putAll (put32 r) (fill32 c) m [s + 12, s + 16, s + 20, s + 24, s + n - 28, s + n - 24,
    s + n - 20, s + n - 16]
  let k := 24 + (s &&& 4)
  let s := s + k
  let n := n - k
  fillLoop r (fill64 c) m s n

def memset (m : Bytes) (dest : Nat) (c : BitVec 8) (n : Nat) : Option Bytes := do
  let r : Span := ⟨dest, dest + n⟩
  let s := dest
  if n = 0 then return m
  let m ← putAll (put8 r) c m [s + 0, s + n - 1]
  if n ≤ 2 then return m
  let m ← putAll (put8 r) c m [s + 1, s + 2, s + n - 2, s + n - 3]
  if n ≤ 6 then return m
  let m ← putAll (put8 r) c m [s + 3, s + n - 4]
  if n ≤ 8 then return m
  let k := (2 ^ 64 - s) % 2 ^ 64 &&& 3
  let s := s + k
  let n := n - k
  let n := n &&& 2 ^ 64 - 4
  fillWords r c m s n

/-! ## The fill words -/

variable {c : BitVec 8} {m m₀ : Bytes} {r : Span} {lo hi lo' hi' : Nat}

theorem toNat_fill32 (c : BitVec 8) : (fill32 c).toNat = 16843009 * c.toNat := by
  have hc := c.isLt
  have hq : (BitVec.allOnes 32 / 255#32).toNat = 16843009 := by decide
  rw [fill32, BitVec.toNat_mul, hq, BitVec.toNat_setWidth, Nat.mod_eq_of_lt (by omega),
    Nat.mod_eq_of_lt (by omega)]

/-- The word of four bytes `c`. -/
theorem fill32_eq (c : BitVec 8) : fill32 c = load32 (fun _ => c) 0 := by
  have hc := c.isLt
  apply BitVec.eq_of_toNat_eq
  rw [toNat_fill32, load32]
  simp only [BitVec.toNat_append]
  rw [← Nat.shiftLeft_add_eq_or_of_lt hc, ← Nat.shiftLeft_add_eq_or_of_lt hc,
    ← Nat.shiftLeft_add_eq_or_of_lt hc]
  simp only [Nat.shiftLeft_eq]
  omega

theorem fill64_eq (c : BitVec 8) : fill64 c = load64 (fun _ => c) 0 := by
  have hw := (fill32 c).isLt
  apply BitVec.eq_of_toNat_eq
  have hle : (fill32 c).toNat * 2 ^ 32 < 2 ^ 64 := by omega
  have hw' : (fill32 c).toNat < 2 ^ 64 := by omega
  rw [toNat_load64, fill64, BitVec.or_comm, BitVec.toNat_or, BitVec.toNat_shiftLeft,
    BitVec.toNat_setWidth, Nat.mod_eq_of_lt hw', Nat.shiftLeft_eq, Nat.mod_eq_of_lt hle,
    ← Nat.shiftLeft_eq, ← Nat.shiftLeft_add_eq_or_of_lt hw, Nat.shiftLeft_eq, fill32_eq]
  rfl

/-! ## What is filled -/

theorem fills8 : Fills r c 1 fun m a => put8 r m a c := by
  intro m a h
  refine ⟨_, put8_ok h c, fun x => ?_⟩
  rw [Function.update_apply]
  by_cases hx : x = a
  · rw [if_pos hx, if_pos (by omega)]
  · rw [if_neg hx, if_neg (by omega)]

theorem fills32 : Fills r c 4 fun m a => put32 r m a (fill32 c) := by
  intro m a h
  refine ⟨_, put32_ok h _, fun x => ?_⟩
  by_cases hx : a ≤ x ∧ x < a + 4
  · rw [fill32_eq, store32_load32 hx, if_pos hx]
  · rw [store32_outside _ (by omega), if_neg hx]

theorem fills64 : Fills r c 8 fun m a => put64 r m a (fill64 c) := by
  intro m a h
  refine ⟨_, put64_ok h _, fun x => ?_⟩
  by_cases hx : a ≤ x ∧ x < a + 8
  · rw [fill64_eq, store64_load64 hx, if_pos hx]
  · rw [store64_outside _ (by omega), if_neg hx]

/-- The bytes below `lo` and from `hi` on are filled. -/
abbrev Edges (m₀ : Bytes) (r : Span) (c : BitVec 8) (lo hi : Nat) : Bytes → Prop :=
  Filled m₀ r c fun x => x < lo ∨ hi ≤ x

/-- A group of stores grows the edges to `lo'` and `hi'`. -/
theorem Edges.stores {α : Type} {w : Nat} {put : Bytes → Nat → α → Option Bytes} {v : α}
    (h : Edges m₀ r c lo hi m) (hf : Fills r c w fun m a => put m a v) (as : List Nat)
    (lo' hi' : Nat) (has : ∀ a ∈ as, r.Has a w)
    (hcov : ∀ x, lo ≤ x → x < hi → x < lo' ∨ hi' ≤ x → ∃ a ∈ as, a ≤ x ∧ x < a + w) :
    ∃ m', putAll put v m as = some m' ∧ Edges m₀ r c lo' hi' m' := by
  obtain ⟨m', hput, hm⟩ := h.putAll hf has
  refine ⟨m', hput, hm.mono fun x _ hx => ?_⟩
  by_cases hold : x < lo ∨ hi ≤ x
  · exact .inl hold
  · exact .inr (hcov x (by omega) (by omega) hx)

/-- What `memset` leaves. -/
def filled (m₀ : Bytes) (r : Span) (c : BitVec 8) : Bytes := fun x => if r.Has x 1 then c else m₀ x

/-- The edges have met. -/
theorem Edges.eq_filled (h : Edges m₀ r c lo hi m) (hm : hi ≤ lo) : m = filled m₀ r c :=
  h.eq fun x _ => by omega

/-- The loop leaves less than 32 bytes, of which the last 28 are filled. As it leaves a multiple of
4, these are all. -/
theorem fillLoop_spec {s n : Nat} (h : Edges m₀ r c s hi m) (hlo : r.lo ≤ s) (hhi : s + n ≤ r.hi)
    (hn : hi + 28 ≤ s + n) (h4 : n % 4 = 0) :
    fillLoop r (fill64 c) m s n = some (filled m₀ r c) := by
  induction n using Nat.strong_induction_on generalizing m s with
  | _ n ih =>
    rw [fillLoop]
    by_cases h32 : 32 ≤ n
    · rw [if_pos h32]
      obtain ⟨m₁, hput, h₁⟩ := h.stores fills64 [s + 0, s + 8, s + 16, s + 24] (s + 32) hi
        (by simp [Span.Has]; omega) (by simp; omega)
      rw [hput]
      exact ih (n - 32) (by omega) h₁ (by omega) (by omega) (by omega) (by omega)
    · rw [if_neg h32, h.eq_filled (by omega)]

theorem and_three (a : Nat) : a &&& 3 = a % 4 := Nat.and_two_pow_sub_one_eq_mod a 2

/-- `n &= -4` -/
theorem and_neg_four {n : Nat} (h : n < 2 ^ 64) : n &&& 2 ^ 64 - 4 = n / 4 * 4 := by
  have hlow : (n &&& 2 ^ 64 - 4) % 4 = 0 := by
    rw [show 4 = 2 ^ 2 from rfl, Nat.and_mod_two_pow]
    simp
  have hhigh : (n &&& 2 ^ 64 - 4) / 4 = n / 4 := by
    rw [show 4 = 2 ^ 2 from rfl, Nat.and_div_two_pow,
      show (2 ^ 64 - 2 ^ 2) / 2 ^ 2 = 2 ^ 62 - 1 by norm_num, Nat.and_two_pow_sub_one_eq_mod]
    omega
  omega

theorem and_four (a : Nat) : a &&& 4 = 0 ∨ a &&& 4 = 4 := by
  have hle : a &&& 4 ≤ 4 := Nat.and_le_right
  have hmod : (a &&& 4) % 4 = 0 := by
    rw [show (a &&& 4) % 4 = (a &&& 4) % 2 ^ 2 from rfl, Nat.and_mod_two_pow]
    simp
  omega

/-- With the bytes of the range in front of `s` and behind `s + n` filled. -/
theorem fillWords_spec {s n : Nat} (h : Edges m₀ r c lo hi m) (hr : r.lo ≤ s ∧ s + n ≤ r.hi)
    (hs : s ≤ lo) (hi' : hi ≤ s + n) (hn : 0 < n) (h4 : n % 4 = 0) :
    fillWords r c m s n = some (filled m₀ r c) := by
  simp only [fillWords, Option.bind_eq_bind, Option.pure_def]
  obtain ⟨m₁, hput₁, h₁⟩ := h.stores fills32 [s + 0, s + n - 4] (s + 4) (s + n - 4)
    (by simp [Span.Has]; omega) (by simp; omega)
  rw [hput₁, Option.bind_some]
  by_cases h8 : n ≤ 8
  · rw [if_pos h8, h₁.eq_filled (by omega)]
  obtain ⟨m₂, hput₂, h₂⟩ := h₁.stores fills32 [s + 4, s + 8, s + n - 12, s + n - 8]
    (s + 12) (s + n - 12) (by simp [Span.Has]; omega) (by simp; omega)
  rw [if_neg h8, hput₂, Option.bind_some]
  by_cases h24 : n ≤ 24
  · rw [if_pos h24, h₂.eq_filled (by omega)]
  obtain ⟨m₃, hput₃, h₃⟩ := h₂.stores fills32 [s + 12, s + 16, s + 20, s + 24, s + n - 28,
    s + n - 24, s + n - 20, s + n - 16] (s + 28) (s + n - 28)
    (by simp [Span.Has]; omega) (by simp; omega)
  rw [if_neg h24, hput₃, Option.bind_some]
  have hand := and_four s
  have hback : Edges m₀ r c (s + (24 + (s &&& 4))) (s + n - 28) m₃ := h₃.mono fun x _ hx => by omega
  exact fillLoop_spec hback (by omega) (by omega) (by omega) (by omega)

theorem memset_filled (m : Bytes) (dest : Nat) (c : BitVec 8) (n : Nat) (hn : n < 2 ^ 64)
    (h : dest + n ≤ 2 ^ 64) : memset m dest c n = some (filled m ⟨dest, dest + n⟩ c) := by
  have h₀ : Edges m ⟨dest, dest + n⟩ c dest (dest + n) m :=
    (Filled.refl m).mono fun x hx hS => by
      unfold Span.Has at hx
      dsimp at hx
      omega
  generalize hr : (⟨dest, dest + n⟩ : Span) = r at h₀
  have hlo : r.lo = dest := by rw [← hr]
  have hhi : r.hi = dest + n := by rw [← hr]
  simp only [memset, hr, Option.bind_eq_bind, Option.pure_def]
  by_cases h0 : n = 0
  · rw [if_pos h0, ← h₀.eq_filled (by omega)]
  obtain ⟨m₁, hput₁, h₁⟩ := h₀.stores fills8 [dest + 0, dest + n - 1] (dest + 1)
    (dest + n - 1) (by simp [Span.Has]; omega) (by simp; omega)
  rw [if_neg h0, hput₁, Option.bind_some]
  by_cases h2 : n ≤ 2
  · rw [if_pos h2, h₁.eq_filled (by omega)]
  obtain ⟨m₂, hput₂, h₂⟩ := h₁.stores fills8 [dest + 1, dest + 2, dest + n - 2, dest + n - 3]
    (dest + 3) (dest + n - 3) (by simp [Span.Has]; omega) (by simp; omega)
  rw [if_neg h2, hput₂, Option.bind_some]
  by_cases h6 : n ≤ 6
  · rw [if_pos h6, h₂.eq_filled (by omega)]
  obtain ⟨m₃, hput₃, h₃⟩ := h₂.stores fills8 [dest + 3, dest + n - 4]
    (dest + 4) (dest + n - 4) (by simp [Span.Has]; omega) (by simp; omega)
  rw [if_neg h6, hput₃, Option.bind_some]
  by_cases h8 : n ≤ 8
  · rw [if_pos h8, h₃.eq_filled (by omega)]
  rw [if_neg h8, and_three, and_neg_four (by omega)]
  exact fillWords_spec h₃ (by omega) (by omega) (by omega) (by omega) (by omega)

/-- All `n` bytes are filled, and no store is outside them. -/
theorem memset_fills (m : Bytes) (dest : Nat) (c : BitVec 8) (n : Nat) (hn : n < 2 ^ 64)
    (h : dest + n ≤ 2 ^ 64) : ∃ m', memset m dest c n = some m' ∧
      (∀ a, dest ≤ a → a < dest + n → m' a = c) ∧ ∀ a, a < dest ∨ dest + n ≤ a → m' a = m a := by
  refine ⟨filled m ⟨dest, dest + n⟩ c, memset_filled m dest c n hn h, fun a h1 h2 => ?_, fun a ha => ?_⟩
  · exact if_pos ⟨h1, by dsimp; omega⟩
  · exact if_neg fun hin : dest ≤ a ∧ a + 1 ≤ dest + n => by omega

theorem memset_fills_unaligned : ∃ m', memset (fun _ => 0) 5 7 45 = some m' ∧
    (∀ a, 5 ≤ a → a < 5 + 45 → m' a = 7) ∧ ∀ a, a < 5 ∨ 5 + 45 ≤ a → m' a = 0 :=
  memset_fills _ 5 7 45 (by omega) (by omega)

end Text
end TorexOS
