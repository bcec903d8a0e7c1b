import Mathlib.Data.Nat.Digits.Lemmas

/-!
# TorexOS.Lib.Numeral

Positional numerals, the most significant digit first.

* `value b ds`: the number the digits `ds` stand for in base `b`.
* `numeral b n`: the digits of `n` without superfluous zeros, `fixed b k n` the last `k` digits.
* `value_numeral`, `value_fixed`: they stand for `n`, and for `n` modulo `b ^ k`.
* `decode`: read characters as digits. `decode_map`: it inverts any encoding of digits as characters.
-/

namespace Numeral

variable {b n k d : Nat} {ds : List Nat}

def value (b : Nat) (ds : List Nat) : Nat := ds.foldl (fun n d => n * b + d) 0

theorem value_concat (b : Nat) (ds : List Nat) (d : Nat) :
    value b (ds ++ [d]) = value b ds * b + d := by
  rw [value, List.foldl_append]
  rfl

/-- The value of the digits with the least significant one first. -/
theorem value_reverse (b : Nat) (ds : List Nat) : value b ds.reverse = Nat.ofDigits b ds := by
  induction ds with
  | nil => rfl
  | cons d ds ih =>
    rw [List.reverse_cons, value_concat, ih, Nat.ofDigits_cons, Nat.mul_comm, Nat.add_comm]

def numeral (b n : Nat) : List Nat := if n = 0 then [0] else (Nat.digits b n).reverse

theorem numeral_of_pos (hn : n ≠ 0) : numeral b n = (Nat.digits b n).reverse := if_neg hn

theorem numeral_concat (hb : 1 < b) (hn : b ≤ n) :
    numeral b n = numeral b (n / b) ++ [n % b] := by
  have hpos : 0 < n := by omega
  have hq : n / b ≠ 0 := Nat.div_ne_zero_iff.mpr ⟨by omega, hn⟩
  rw [numeral_of_pos (Nat.ne_of_gt hpos), numeral_of_pos hq, Nat.digits_def' hb hpos,
    List.reverse_cons]

theorem numeral_of_lt (hn : n < b) : numeral b n = [n] := by
  by_cases h0 : n = 0
  · rw [numeral, if_pos h0, h0]
  · rw [numeral_of_pos h0, Nat.digits_of_lt b n h0 hn]
    rfl

theorem value_numeral (b n : Nat) : value b (numeral b n) = n := by
  by_cases h0 : n = 0
  · rw [numeral, if_pos h0, h0, value, List.foldl_cons, Nat.zero_mul, Nat.zero_add]
    rfl
  · rw [numeral_of_pos h0, value_reverse, Nat.ofDigits_digits]

theorem numeral_ne_nil (b n : Nat) : numeral b n ≠ [] := by
  by_cases h0 : n = 0
  · rw [numeral, if_pos h0]
    exact List.cons_ne_nil _ _
  · rw [numeral_of_pos h0, ne_eq, List.reverse_eq_nil_iff]
    exact Nat.digits_ne_nil_iff_ne_zero.mpr h0

theorem numeral_lt (hb : 1 < b) (hd : d ∈ numeral b n) : d < b := by
  by_cases h0 : n = 0
  · rw [numeral, if_pos h0, List.mem_singleton] at hd
    omega
  · rw [numeral_of_pos h0, List.mem_reverse] at hd
    exact Nat.digits_lt_base hb hd

/-- Only the numeral of zero starts with a zero. -/
theorem numeral_head (h : (numeral b n).head? = some 0) : n = 0 := by
  by_contra h0
  rw [numeral_of_pos h0, List.head?_reverse] at h
  have hne : Nat.digits b n ≠ [] := Nat.digits_ne_nil_iff_ne_zero.mpr h0
  rw [List.getLast?_eq_getLast_of_ne_nil hne, Option.some.injEq] at h
  exact Nat.getLast_digit_ne_zero b h0 h

/-! ## A fixed number of digits -/

def fixed (b : Nat) : Nat → Nat → List Nat
  | 0, _ => []
  | k + 1, n => fixed b k (n / b) ++ [n % b]

@[simp] theorem length_fixed (b k n : Nat) : (fixed b k n).length = k := by
  induction k generalizing n with
  | zero => rfl
  | succ k ih => rw [fixed, List.length_append, ih, List.length_singleton]

theorem fixed_lt (hb : 0 < b) (hd : d ∈ fixed b k n) : d < b := by
  induction k generalizing n with
  | zero => cases hd
  | succ k ih =>
    rw [fixed, List.mem_append, List.mem_singleton] at hd
    cases hd with
    | inl hd => exact ih hd
    | inr hd => rw [hd]; exact Nat.mod_lt n hb

theorem value_fixed (b k n : Nat) : value b (fixed b k n) = n % b ^ k := by
  induction k generalizing n with
  | zero => rw [pow_zero, Nat.mod_one]; rfl
  | succ k ih =>
    rw [fixed, value_concat, ih, pow_succ', Nat.mod_mul, Nat.mul_comm, Nat.add_comm]

/-! ## Characters -/

section Characters

variable {χ : Type} {digit : χ → Option Nat} {char : Nat → χ}

/-- The number that characters stand for; `none` if one of them is no digit. -/
def decode (b : Nat) (digit : χ → Option Nat) (cs : List χ) : Option Nat :=
  (cs.mapM digit).map (value b)

/-- Digits written as characters are read again. -/
theorem decode_map (hc : ∀ d, d < b → digit (char d) = some d) (hd : ∀ d ∈ ds, d < b) :
    decode b digit (ds.map char) = some (value b ds) := by
  have hread : (ds.map char).mapM digit = some ds := by
    induction ds with
    | nil => rfl
    | cons d ds ih =>
      rw [List.map_cons, List.mapM_cons, hc d (hd d List.mem_cons_self),
        ih fun d hx => hd d (List.mem_cons_of_mem _ hx)]
      rfl
  rw [decode, hread]
  rfl

end Characters

end Numeral
