import Mathlib.Algebra.Order.Ring.Nat
import Mathlib.Tactic.Ring

/-!
# TorexOS.Lib.BitScan

The highest and the lowest set bit of a number, found by halving.

* `High n x m k`: the highest bit of `n` is `x` above that of `m`, which is below bit `k`. `High.step`:
  one test of a halving search for it.
* `Low n x m k`: the lowest set bit of `n` is `x` above that of `m`, which is below bit `k`. `Low.step`.
* `Exponent n k`: `2 ^ k` is the largest power of two that divides `n`.
* `toNat_clz`, `exponent_ctz`: what the leading and the trailing zeros of a word are.
-/

namespace BitScan

variable {n x m k e e' : Nat}

/-! ## The highest bit -/

structure High (n x m k : Nat) : Prop where
  quotient : m = n / 2 ^ x
  pos : m ≠ 0
  lt : m < 2 ^ k

theorem High.log2_eq (h : High n x m k) : n.log2 = x + m.log2 := by
  have hn : n ≠ 0 := by
    rintro rfl
    exact h.pos (h.quotient.trans (Nat.zero_div _))
  have hlo := Nat.log2_self_le h.pos
  have hhi := Nat.lt_log2_self (n := m)
  have hx := Nat.two_pow_pos x
  generalize m.log2 = l at *
  rw [h.quotient] at hlo hhi
  refine (Nat.log2_eq_iff hn).mpr ⟨?_, ?_⟩
  · rw [pow_add, Nat.mul_comm]
    exact (Nat.le_div_iff_mul_le hx).mp hlo
  · rw [Nat.add_assoc, pow_add, Nat.mul_comm]
    exact (Nat.div_lt_iff_lt_mul hx).mp hhi

/-- The upper half is taken unless it is zero. -/
theorem High.step (h : High n x m (k + k)) :
    if m / 2 ^ k = 0 then High n x m k else High n (x + k) (m / 2 ^ k) k := by
  split
  · rename_i h0
    exact ⟨h.quotient, h.pos, (Nat.div_eq_zero_iff_lt (Nat.two_pow_pos k)).mp h0⟩
  · rename_i h0
    refine ⟨?_, h0, ?_⟩
    · rw [h.quotient, Nat.div_div_eq_div_mul, pow_add]
    · rw [Nat.div_lt_iff_lt_mul (Nat.two_pow_pos k), ← pow_add]
      exact h.lt

/-! ## The lowest bit -/

/-- `2 ^ k` divides `n`, and no larger power of two does. -/
def Exponent (n k : Nat) : Prop := 2 ^ k ∣ n ∧ ¬ 2 ^ (k + 1) ∣ n

theorem Exponent.unique (h : Exponent n e) (h' : Exponent n e') : e = e' := by
  rcases Nat.lt_trichotomy e e' with hlt | rfl | hlt
  · exact absurd (dvd_trans (pow_dvd_pow 2 (Nat.succ_le_of_lt hlt)) h'.1) h.2
  · rfl
  · exact absurd (dvd_trans (pow_dvd_pow 2 (Nat.succ_le_of_lt hlt)) h.1) h'.2

structure Low (n x m k : Nat) : Prop where
  product : n = 2 ^ x * m
  not_dvd : ¬ 2 ^ k ∣ m

/-- The lower half is dropped if it is zero. -/
theorem Low.step (h : Low n x m (k + k)) :
    if m % 2 ^ k = 0 then Low n (x + k) (m / 2 ^ k) k else Low n x m k := by
  split
  · rename_i h0
    have hm : 2 ^ k * (m / 2 ^ k) = m := Nat.mul_div_cancel' (Nat.dvd_of_mod_eq_zero h0)
    refine ⟨?_, fun hd => h.not_dvd ?_⟩
    · rw [pow_add, Nat.mul_assoc, hm]
      exact h.product
    · rw [pow_add, ← hm]
      exact Nat.mul_dvd_mul_left _ hd
  · rename_i h0
    exact ⟨h.product, fun hd => h0 (Nat.mod_eq_zero_of_dvd hd)⟩

/-- An odd number is left. -/
theorem Low.exponent (h : Low n x m 1) : Exponent n x := by
  rw [h.product]
  refine ⟨Nat.dvd_mul_right _ _, fun hd => h.not_dvd ?_⟩
  rw [pow_succ] at hd
  exact Nat.dvd_of_mul_dvd_mul_left (Nat.two_pow_pos x) hd

/-! ## Words -/

section Words

variable {w : Nat} {v : BitVec w}

theorem toNat_clz (hv : v ≠ 0) : v.clz.toNat = w - 1 - v.toNat.log2 := by
  have hw : 0 < w := by
    rcases Nat.eq_zero_or_pos w with rfl | h
    · exact absurd (BitVec.of_length_zero) hv
    · exact h
  have h0 : v.toNat ≠ 0 := fun h => hv (BitVec.eq_of_toNat_eq h)
  have hlo := BitVec.two_pow_sub_clz_le_toNat_of_ne_zero hw hv
  have hhi := BitVec.toNat_lt_two_pow_sub_clz (x := v)
  have hlt : v.clz.toNat < w := by
    refine Nat.lt_of_not_le fun hle => h0 ?_
    rw [Nat.sub_eq_zero_of_le hle] at hhi
    exact Nat.lt_one_iff.mp hhi
  have hlog : v.toNat.log2 = w - 1 - v.clz.toNat := by
    refine (Nat.log2_eq_iff h0).mpr ⟨hlo, ?_⟩
    rw [show w - 1 - v.clz.toNat + 1 = w - v.clz.toNat by omega]
    exact hhi
  omega

theorem exponent_ctz (hv : v ≠ 0) : Exponent v.toNat v.ctz.toNat := by
  have hset := BitVec.getLsbD_true_ctz_of_ne_zero hv
  have hclear : ∀ i, i < v.ctz.toNat → v.toNat.testBit i = false := fun i hi =>
    BitVec.getLsbD_false_of_lt_ctz hi
  have hmod : v.toNat % 2 ^ v.ctz.toNat = 0 := by
    apply Nat.eq_of_testBit_eq
    intro i
    rw [Nat.testBit_mod_two_pow, Nat.zero_testBit]
    by_cases hi : i < v.ctz.toNat
    · rw [hclear i hi, Bool.and_false]
    · simp [hi]
  refine ⟨Nat.dvd_of_mod_eq_zero hmod, fun hd => ?_⟩
  obtain ⟨q, hq⟩ := hd
  rw [BitVec.getLsbD, hq, Nat.testBit_two_pow_mul] at hset
  simp at hset

end Words

end BitScan
