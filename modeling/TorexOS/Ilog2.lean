import TorexOS.Address
import TorexOS.Lib.BitScan

/-!
# TorexOS.Ilog2

`clz64`, `ctz64` and `ilog2` of `math/ilog2.h`, in both configurations: with the builtins of the
compiler, and without.

`bit_scans_agree`: the cascades without the builtins count what the builtins count, and `ilog2` is the
floor of the logarithm.
-/

namespace TorexOS
namespace Util
namespace Math

open BitScan

/-- `__builtin_clzl`, of a non-zero argument. -/
def builtinClzl (n : BitVec 64) : BitVec 64 := n.clz

/-- `__builtin_ctzl`, of a non-zero argument. -/
def builtinCtzl (n : BitVec 64) : BitVec 64 := n.ctz

/-- `if (n >> bits) { x += bits; n >>= bits; }`, on `x` and `n`. -/
def clzStep (bits : Nat) (s : BitVec 64 × BitVec 64) : BitVec 64 × BitVec 64 :=
  if s.2 >>> bits ≠ 0 then (s.1 + BitVec.ofNat 64 bits, s.2 >>> bits) else s

/-- `clz64` without the builtins. -/
def clz64 (n : BitVec 64) : BitVec 64 :=
  let s := clzStep 32 (0, n)
  let s := clzStep 16 s
  let s := clzStep 8 s
  let s := clzStep 4 s
  let s := clzStep 2 s
  let x := s.1
  let n := s.2
  let x := x + n >>> 1
  -- `&` binds tighter than `|`
  let n := (n >>> 1) ||| (n &&& 1)
  let x := x + n
  64 - x

/-- `process64(bits)`, on `rv` and `x`. -/
def process64 (bits : Nat) (s : BitVec 64 × BitVec 64) : BitVec 64 × BitVec 64 :=
  if s.2 &&& ((1 : BitVec 64) <<< bits - 1) = 0 then (s.1 + BitVec.ofNat 64 bits, s.2 >>> bits) else s

/-- `ctz64` without the builtins. -/
def ctz64 (x : BitVec 64) : BitVec 64 :=
  let s := process64 32 (0, x)
  let s := process64 16 s
  let s := process64 8 s
  let s := process64 4 s
  let s := process64 2 s
  let s := process64 1 s
  s.1

/-- `ilog2`, with the `clz64` of the configuration. -/
def ilog2 (clz64 : BitVec 64 → BitVec 64) (n : BitVec 64) : BitVec 64 := 63 - clz64 n

section Steps

variable {n : Nat} {s : BitVec 64 × BitVec 64} {k : Nat}

theorem toNat_count {x : BitVec 64} (hx : x.toNat + k ≤ 64) :
    (x + BitVec.ofNat 64 k).toNat = x.toNat + k := by
  rw [BitVec.toNat_add, BitVec.toNat_ofNat, Nat.add_mod_mod]
  exact Nat.mod_eq_of_lt (by omega)

theorem shift_eq_zero_iff {m : BitVec 64} : m >>> k = 0 ↔ m.toNat / 2 ^ k = 0 := by
  rw [← BitVec.toNat_inj, BitVec.toNat_ushiftRight, Nat.shiftRight_eq_div_pow]
  rfl

/-- One `if` of `clz64` is a step of the search for the highest bit. -/
theorem clzStep_high (h : High n s.1.toNat s.2.toNat (k + k)) (hx : s.1.toNat + (k + k) ≤ 64) :
    High n (clzStep k s).1.toNat (clzStep k s).2.toNat k ∧ (clzStep k s).1.toNat + k ≤ 64 := by
  have hstep := h.step
  rw [clzStep]
  by_cases h0 : s.2 >>> k = 0
  · rw [if_pos (shift_eq_zero_iff.mp h0)] at hstep
    rw [if_neg (not_not.mpr h0)]
    exact ⟨hstep, by omega⟩
  · rw [if_neg (mt shift_eq_zero_iff.mpr h0)] at hstep
    rw [if_pos h0]
    simp only [toNat_count (show s.1.toNat + k ≤ 64 by omega), BitVec.toNat_ushiftRight,
      Nat.shiftRight_eq_div_pow]
    exact ⟨hstep, by omega⟩

theorem toNat_mask {m : BitVec 64} (hk : k < 64) :
    (m &&& ((1 : BitVec 64) <<< k - 1)).toNat = m.toNat % 2 ^ k := by
  have hpow : 2 ^ k < 2 ^ 64 := Nat.pow_lt_pow_right (by omega) hk
  have hshift : ((1 : BitVec 64) <<< k).toNat = 2 ^ k := by
    rw [BitVec.toNat_shiftLeft, show (1 : BitVec 64).toNat = 1 from rfl, Nat.one_shiftLeft]
    exact Nat.mod_eq_of_lt hpow
  have hone : ((1 : BitVec 64) <<< k - 1).toNat = 2 ^ k - 1 := by
    have hpos := Nat.two_pow_pos k
    rw [BitVec.toNat_sub, hshift, show (1 : BitVec 64).toNat = 1 from rfl]
    omega
  rw [BitVec.toNat_and, hone, Nat.and_two_pow_sub_one_eq_mod]

/-- One use of the macro is a step of the search for the lowest bit. -/
theorem process64_low (hk : k < 64) (h : Low n s.1.toNat s.2.toNat (k + k))
    (hx : s.1.toNat + (k + k) ≤ 64) :
    Low n (process64 k s).1.toNat (process64 k s).2.toNat k ∧
      (process64 k s).1.toNat + k ≤ 64 := by
  have hstep := h.step
  have hmask : s.2 &&& ((1 : BitVec 64) <<< k - 1) = 0 ↔ s.2.toNat % 2 ^ k = 0 := by
    rw [← BitVec.toNat_inj, toNat_mask hk]
    rfl
  rw [process64]
  by_cases h0 : s.2 &&& ((1 : BitVec 64) <<< k - 1) = 0
  · rw [if_pos (hmask.mp h0)] at hstep
    rw [if_pos h0]
    simp only [toNat_count (show s.1.toNat + k ≤ 64 by omega), BitVec.toNat_ushiftRight,
      Nat.shiftRight_eq_div_pow]
    exact ⟨hstep, by omega⟩
  · rw [if_neg (mt hmask.mpr h0)] at hstep
    rw [if_neg h0]
    exact ⟨hstep, by omega⟩

end Steps

section Scans

variable {n : BitVec 64}

/-- The last lines of `clz64`, which are left with 1, 2 or 3. -/
theorem clz_last {x m : BitVec 64} (h0 : m.toNat ≠ 0) (hlt : m.toNat < 4) (hx : x.toNat ≤ 62) :
    (64 - (x + m >>> 1 + ((m >>> 1) ||| (m &&& 1)))).toNat = 63 - (x.toNat + m.toNat.log2) := by
  have hm : m = 1 ∨ m = 2 ∨ m = 3 := by
    rcases (by omega : m.toNat = 1 ∨ m.toNat = 2 ∨ m.toNat = 3) with h | h | h
    · exact .inl (BitVec.eq_of_toNat_eq h)
    · exact .inr (.inl (BitVec.eq_of_toNat_eq h))
    · exact .inr (.inr (BitVec.eq_of_toNat_eq h))
  have key : ∀ (a b : BitVec 64) (l : Nat), a + b = BitVec.ofNat 64 (l + 1) → l ≤ 1 →
      (64 - (x + a + b)).toNat = 63 - (x.toNat + l) := by
    intro a b l hab hl
    rw [BitVec.add_assoc, hab, BitVec.toNat_sub, toNat_count (by omega)]
    rw [show (64 : BitVec 64).toNat = 64 from rfl]
    omega
  rcases hm with rfl | rfl | rfl
  · exact key _ _ 0 (by decide) (by decide)
  · exact key _ _ 1 (by decide) (by decide)
  · exact key _ _ 1 (by decide) (by decide)

theorem toNat_clz64 (hn : n ≠ 0) : (clz64 n).toNat = 63 - n.toNat.log2 := by
  have h0 : n.toNat ≠ 0 := fun h => hn (BitVec.eq_of_toNat_eq h)
  have hstart : High n.toNat (0 : BitVec 64).toNat n.toNat (32 + 32) :=
    ⟨(Nat.div_one _).symm, h0, n.isLt⟩
  obtain ⟨h32, hx32⟩ := clzStep_high (s := (0, n)) hstart (Nat.le_refl 64)
  obtain ⟨h16, hx16⟩ := clzStep_high (k := 16) h32 hx32
  obtain ⟨h8, hx8⟩ := clzStep_high (k := 8) h16 hx16
  obtain ⟨h4, hx4⟩ := clzStep_high (k := 4) h8 hx8
  obtain ⟨h2, hx2⟩ := clzStep_high (k := 2) h4 hx4
  rw [clz64, h2.log2_eq]
  exact clz_last h2.pos h2.lt (by omega)

theorem exponent_ctz64 (hn : n ≠ 0) : Exponent n.toNat (ctz64 n).toNat := by
  have h0 : n.toNat ≠ 0 := fun h => hn (BitVec.eq_of_toNat_eq h)
  have hstart : Low n.toNat (0 : BitVec 64).toNat n.toNat (32 + 32) := by
    refine ⟨(Nat.one_mul _).symm, fun hd => ?_⟩
    exact absurd n.isLt (Nat.not_lt.mpr (Nat.le_of_dvd (Nat.pos_of_ne_zero h0) hd))
  obtain ⟨h32, hx32⟩ := process64_low (s := (0, n)) (by omega) hstart (Nat.le_refl 64)
  obtain ⟨h16, hx16⟩ := process64_low (k := 16) (by omega) h32 hx32
  obtain ⟨h8, hx8⟩ := process64_low (k := 8) (by omega) h16 hx16
  obtain ⟨h4, hx4⟩ := process64_low (k := 4) (by omega) h8 hx8
  obtain ⟨h2, hx2⟩ := process64_low (k := 2) (by omega) h4 hx4
  obtain ⟨h1, _⟩ := process64_low (k := 1) (by omega) h2 hx2
  exact h1.exponent

theorem toNat_builtinClzl (hn : n ≠ 0) : (builtinClzl n).toNat = 63 - n.toNat.log2 := toNat_clz hn

/-- `63 - clz64(n)` is the floor of the logarithm. -/
theorem toNat_ilog2 {clz : BitVec 64 → BitVec 64} (hn : n ≠ 0)
    (h : (clz n).toNat = 63 - n.toNat.log2) : (ilog2 clz n).toNat = Memory.ilog2 n.toNat := by
  have h0 : n.toNat ≠ 0 := fun h => hn (BitVec.eq_of_toNat_eq h)
  have hlog : n.toNat.log2 < 64 := (Nat.log2_lt h0).mpr n.isLt
  rw [ilog2, BitVec.toNat_sub, h, show (63 : BitVec 64).toNat = 63 from rfl, Memory.ilog2]
  omega

end Scans

/-- For every non-zero argument `clz64` is 63 less the floor of the logarithm and `ctz64` the exponent
of the largest power of two that divides it, with the builtins or without; so `ilog2` is the floor of
the logarithm in both configurations. -/
theorem bit_scans_agree (n : BitVec 64) (hn : n ≠ 0) :
    (clz64 n).toNat = 63 - Nat.log 2 n.toNat ∧ clz64 n = builtinClzl n ∧
      (2 ^ (ctz64 n).toNat ∣ n.toNat ∧ ∀ k, 2 ^ k ∣ n.toNat → k ≤ (ctz64 n).toNat) ∧
      ctz64 n = builtinCtzl n ∧
      (ilog2 clz64 n).toNat = Nat.log 2 n.toNat ∧ (ilog2 builtinClzl n).toNat = Nat.log 2 n.toNat := by
  have hclz := toNat_clz64 hn
  have hctz := exponent_ctz64 hn
  rw [← Nat.log2_eq_log_two]
  refine ⟨hclz, ?_, ⟨hctz.1, fun k hk => ?_⟩, ?_, toNat_ilog2 hn hclz,
    toNat_ilog2 hn (toNat_builtinClzl hn)⟩
  · exact BitVec.eq_of_toNat_eq (hclz.trans (toNat_builtinClzl hn).symm)
  · refine Nat.le_of_not_lt fun hlt => hctz.2 ?_
    exact dvd_trans (pow_dvd_pow 2 (Nat.succ_le_of_lt hlt)) hk
  · exact BitVec.eq_of_toNat_eq (hctz.unique (exponent_ctz hn))

/-- The cascades at 40, which is 101000 in binary. -/
theorem bit_scans_agree_forty : clz64 40 = builtinClzl 40 ∧ ctz64 40 = builtinCtzl 40 :=
  ⟨(bit_scans_agree 40 (by decide)).2.1, (bit_scans_agree 40 (by decide)).2.2.2.1⟩

end Math
end Util
end TorexOS
