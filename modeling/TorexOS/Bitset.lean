import Mathlib.Data.BitVec
import TorexOS.Lib.LastWrite

/-!
# TorexOS.Bitset

`util::bitset` and `util::bitset_view`, `datastruc/bitset.h`.

* `shiftedOne`: the mask, an `int`, as the processor shifts it.
* `viewAssign`, `viewGet`, `constGet`: `b[i] = v` and the two ways to read `b[i]`.
* `viewGet_viewAssign`: a bit is written together with all indices of its word that have the same mask.
* `bits_independent_iff`: the bits are independent exactly up to 31 of them.
-/

namespace TorexOS
namespace Util

open LastWrite

abbrev Words := Nat → BitVec 64

namespace Bitset

/-- The number of words. -/
def size (n : Nat) : Nat := (n - 1) / 64 + 1

/-- `1 << (index & 0x3f)`: of an `int` the processor takes the count modulo 32. -/
def shiftedOne (index : Nat) : BitVec 32 := 1#32 <<< ((index &&& 0x3f) % 32)

/-- `bitset_view::operator=` -/
def viewAssign (data : Words) (index : Nat) (value : Bool) : Words :=
  if value then
    Function.update data (index >>> 6) (data (index >>> 6) ||| (shiftedOne index).signExtend 64)
  else
    Function.update data (index >>> 6) (data (index >>> 6) &&& (~~~ shiftedOne index).signExtend 64)

/-- `bitset_view::operator bool` -/
def viewGet (data : Words) (index : Nat) : Bool :=
  data (index >>> 6) &&& (shiftedOne index).signExtend 64 ≠ 0#64

/-- `operator[]` of a constant `bitset`. -/
def constGet (data : Words) (index : Nat) : Bool :=
  data (index >>> 6) &&& (shiftedOne index).signExtend 64 ≠ 0#64

/-- The assignments, in order. -/
def assignAll (data : Words) (ops : List (Nat × Bool)) : Words :=
  ops.foldl (fun data op => viewAssign data op.1 op.2) data

/-! ## Specification -/

/-- Bit `j` of the array. -/
def bit (data : Words) (j : Nat) : Bool := (data (j / 64)).getLsbD (j % 64)

/-- The value last assigned to index `j`, or the initial bit. -/
def expected (data : Words) (ops : List (Nat × Bool)) (j : Nat) : Bool :=
  (lastWrite (· == j) ops).getD (bit data j)

def ReadsBack (data : Words) (ops : List (Nat × Bool)) (j : Nat) : Prop :=
  viewGet (assignAll data ops) j = expected data ops j ∧
    constGet (assignAll data ops) j = expected data ops j

/-- The two indices are in one word and equal modulo 32. -/
def sameMask (i j : Nat) : Bool := i / 64 = j / 64 && i % 32 = j % 32

/-- One of the bits that the mask of `j` selects is set: bits 31 to 63 of the word, or one of the low
31 bits. -/
def AnyUnderMask (data : Words) (j : Nat) : Prop :=
  ∃ i, i < 64 ∧ (if j % 32 = 31 then 31 ≤ i else i = j % 32) ∧ (data (j / 64)).getLsbD i = true

/-- The last assignment to an index with the mask of `j` gave the value expected of `j`; without one,
the initial bits under the mask are none, or bit `j` is set. -/
def Undisturbed (data : Words) (ops : List (Nat × Bool)) (j : Nat) : Prop :=
  match lastWrite (sameMask · j) ops with
  | some v => v = expected data ops j
  | none => AnyUnderMask data j ↔ bit data j = true

section Mask

variable {data : Words} {i j : Nat} {m m' d : BitVec 64} {v : Bool}

def mask (index : Nat) : BitVec 64 := (shiftedOne index).signExtend 64

theorem shiftedOne_eq (j : Nat) : shiftedOne j = 1#32 <<< (j % 32) := by
  rw [shiftedOne, show j &&& 0x3f = j % 64 from Nat.and_two_pow_sub_one_eq_mod j 6,
    Nat.mod_mod_of_dvd j (by omega : 32 ∣ 64)]

/-- The sign bit is extended over the upper half. -/
theorem getLsbD_mask (hi : i < 64) :
    (mask j).getLsbD i = decide (if j % 32 = 31 then 31 ≤ i else i = j % 32) := by
  have hj : j % 32 < 32 := Nat.mod_lt j (by omega)
  rw [mask, shiftedOne_eq, show 1#32 <<< (j % 32) = BitVec.twoPow 32 (j % 32) from rfl,
    BitVec.getLsbD_signExtend, BitVec.getLsbD_twoPow, BitVec.msb_twoPow]
  by_cases h31 : j % 32 = 31
  · simp only [h31, if_true, hi, decide_true, Bool.true_and, Nat.reduceLT]
    by_cases hlow : i < 32
    · rw [if_pos hlow]
      exact decide_eq_decide.mpr (by omega)
    · rw [if_neg hlow]
      exact (decide_eq_true (by omega : 31 ≤ i)).symm
  · simp only [h31, if_false, hi, hj, decide_true, Bool.true_and, Nat.reduceSub, decide_false]
    by_cases hlow : i < 32
    · rw [if_pos hlow]
      exact decide_eq_decide.mpr eq_comm
    · rw [if_neg hlow]
      exact (decide_eq_false (by omega : ¬ i = j % 32)).symm

theorem mask_congr (h : i % 32 = j % 32) : mask i = mask j := by
  rw [mask, mask, shiftedOne_eq, shiftedOne_eq, h]

theorem mask_ne_zero (j : Nat) : mask j ≠ 0#64 := by
  intro h
  have hj : j % 32 < 32 := Nat.mod_lt j (by omega)
  have hbit : (mask j).getLsbD (j % 32) = true := by
    rw [getLsbD_mask (by omega)]
    refine decide_eq_true ?_
    split
    · omega
    · rfl
  rw [h, BitVec.getLsbD_zero] at hbit
  cases hbit

theorem mask_and_mask (h : i % 32 ≠ j % 32) : mask i &&& mask j = 0#64 := by
  apply BitVec.eq_of_getLsbD_eq
  intro k hk
  have hi := Nat.mod_lt i (by omega : 0 < 32)
  have hj := Nat.mod_lt j (by omega : 0 < 32)
  rw [BitVec.getLsbD_and, getLsbD_mask hk, getLsbD_mask hk, BitVec.getLsbD_zero, ← Bool.decide_and]
  refine decide_eq_false ?_
  split
  · split
    · omega
    · omega
  · split
    · omega
    · omega

theorem or_and_of_disjoint (h : m &&& m' = 0#64) : (d ||| m) &&& m' = d &&& m' := by
  rw [BitVec.and_or_distrib_right, h, BitVec.or_zero]

theorem clear_and_of_disjoint (h : m &&& m' = 0#64) : (d &&& ~~~m) &&& m' = d &&& m' := by
  apply BitVec.eq_of_getLsbD_eq
  intro k hk
  have hbit := congrArg (fun x => BitVec.getLsbD x k) h
  simp only [BitVec.getLsbD_and, BitVec.getLsbD_zero] at hbit
  simp only [BitVec.getLsbD_and, BitVec.getLsbD_not, hk, decide_true, Bool.true_and]
  cases hm : m.getLsbD k with
  | false => simp
  | true =>
    rw [hm, Bool.true_and] at hbit
    simp [hbit]

theorem or_and_self (d m : BitVec 64) : (d ||| m) &&& m = m := by
  apply BitVec.eq_of_getLsbD_eq
  intro k _
  rw [BitVec.getLsbD_and, BitVec.getLsbD_or]
  cases m.getLsbD k <;> simp

theorem clear_and_self (d m : BitVec 64) : (d &&& ~~~m) &&& m = 0#64 := by
  rw [BitVec.and_assoc, BitVec.and_comm (~~~m), BitVec.and_not_self]
  exact BitVec.and_zero

theorem viewGet_eq : viewGet data j = decide (data (j / 64) &&& mask j ≠ 0#64) := by
  rw [viewGet, Nat.shiftRight_eq_div_pow]
  rfl

theorem viewAssign_eq : viewAssign data i v = Function.update data (i / 64)
    (if v then data (i / 64) ||| mask i else data (i / 64) &&& ~~~mask i) := by
  rw [viewAssign, Nat.shiftRight_eq_div_pow, BitVec.signExtend_not (by omega)]
  cases v with
  | false => rfl
  | true => rfl

/-- An assignment is read at the indices with its mask, and at no other. -/
theorem viewGet_viewAssign (data : Words) (i : Nat) (v : Bool) (j : Nat) :
    viewGet (viewAssign data i v) j = if sameMask i j then v else viewGet data j := by
  rw [viewGet_eq, viewGet_eq, viewAssign_eq, sameMask]
  by_cases hw : i / 64 = j / 64
  · rw [hw, Function.update_self]
    by_cases hm : i % 32 = j % 32
    · rw [mask_congr hm, decide_eq_true hm, decide_eq_true rfl, Bool.true_and, if_pos rfl]
      cases v with
      | false => simp [clear_and_self]
      | true => simp [or_and_self, mask_ne_zero]
    · rw [decide_eq_false hm, Bool.and_false, if_neg Bool.false_ne_true]
      cases v with
      | false => simp [clear_and_of_disjoint (mask_and_mask hm)]
      | true => simp [or_and_of_disjoint (mask_and_mask hm)]
  · rw [decide_eq_false hw, Bool.false_and, if_neg Bool.false_ne_true,
      Function.update_of_ne (Ne.symm hw)]

theorem viewGet_iff : viewGet data j = true ↔ AnyUnderMask data j := by
  rw [viewGet_eq, decide_eq_true_eq, AnyUnderMask]
  constructor
  · intro h
    by_contra hn
    refine h (BitVec.eq_of_getLsbD_eq fun k hk => ?_)
    rw [BitVec.getLsbD_and, getLsbD_mask hk, BitVec.getLsbD_zero, Bool.and_eq_false_imp]
    intro hset
    exact decide_eq_false fun hsel => hn ⟨k, hk, hsel, hset⟩
  · rintro ⟨k, hk, hsel, hset⟩ h
    have hbit := congrArg (fun x => BitVec.getLsbD x k) h
    simp only [BitVec.getLsbD_and, getLsbD_mask hk, hset, decide_eq_true hsel,
      BitVec.getLsbD_zero] at hbit
    exact absurd hbit (by decide)

end Mask

section Run

variable {data : Words} {ops : List (Nat × Bool)} {n j : Nat}

/-- What a read gives after a run: the value last assigned to an index with the mask. -/
theorem viewGet_assignAll (data : Words) (ops : List (Nat × Bool)) (j : Nat) :
    viewGet (assignAll data ops) j = (lastWrite (sameMask · j) ops).getD (viewGet data j) :=
  get_run viewGet_viewAssign data j

theorem readsBack_iff : ReadsBack data ops j ↔ Undisturbed data ops j := by
  have hconst : constGet (assignAll data ops) j = viewGet (assignAll data ops) j := rfl
  rw [ReadsBack, hconst, and_self, viewGet_assignAll, Undisturbed]
  cases hl : lastWrite (sameMask · j) ops with
  | some v => exact Iff.rfl
  | none =>
    -- then `j` was not assigned either
    have hj : lastWrite (· == j) ops = none := by
      refine lastWrite_eq_none (fun i hi => ?_) hl
      rw [beq_iff_eq] at hi
      simp [sameMask, hi]
    rw [expected, hj, Option.getD_none, Option.getD_none, ← viewGet_iff]
    exact Bool.eq_iff_iff

/-- Below 31 an index has a mask of its own, and the mask is its bit. -/
theorem readsBack_small (h31 : n ≤ 31) (hops : ∀ o ∈ ops, o.1 < n) (hj : j < n) :
    ReadsBack data ops j := by
  rw [readsBack_iff, Undisturbed]
  have hsame : lastWrite (sameMask · j) ops = lastWrite (· == j) ops := by
    refine lastWrite_congr fun o ho => ?_
    have hlt := hops o ho
    rw [sameMask, Bool.eq_iff_iff, Bool.and_eq_true, decide_eq_true_eq, decide_eq_true_eq, beq_iff_eq]
    omega
  cases hl : lastWrite (sameMask · j) ops with
  | some v =>
    rw [hsame] at hl
    show v = expected data ops j
    rw [expected, hl]
    rfl
  | none =>
    show AnyUnderMask data j ↔ bit data j = true
    have hm : j % 32 = j ∧ j % 64 = j ∧ j ≠ 31 := by omega
    simp only [AnyUnderMask, bit, hm.1, hm.2.1, if_neg hm.2.2]
    constructor
    · rintro ⟨i, _, rfl, hi⟩
      exact hi
    · intro hb
      exact ⟨j, by omega, rfl, hb⟩

/-- Only bit 32 is set. -/
def bit32 : Words := fun _ => 0x100000000

theorem bit32_read : ¬ ReadsBack bit32 [] 31 := by
  rw [readsBack_iff]
  intro h
  have hany : AnyUnderMask bit32 31 := ⟨32, by decide, by decide, by decide⟩
  exact absurd (h.mp hany) (by decide)

/-- A read of `b[j]` after a run of assignments is right exactly when the last one to an index with
the mask of `j` gave the value expected of `j`; so all reads after all runs are right exactly for a
`bitset` of at most 31 bits. -/
theorem bits_independent_iff (n : Nat) :
    (∀ (data : Words) (ops : List (Nat × Bool)) (j : Nat), (∀ o ∈ ops, o.1 < n) → j < n →
      (ReadsBack data ops j ↔ Undisturbed data ops j)) ∧
    ((∀ (data : Words) (ops : List (Nat × Bool)) (j : Nat), (∀ o ∈ ops, o.1 < n) → j < n →
      ReadsBack data ops j) ↔ n ≤ 31) := by
  refine ⟨fun data ops j _ _ => readsBack_iff, fun h => ?_,
    fun h31 data ops j hops hj => readsBack_small h31 hops hj⟩
  by_contra hn
  exact bit32_read (h bit32 [] 31 (fun _ ho => by cases ho) (by omega))

/-- Eight bits, two of them assigned. -/
theorem bits_independent_iff_eight : ReadsBack (fun _ => 0) [(3, true), (5, true), (3, false)] 5 :=
  (bits_independent_iff 8).2.mpr (by decide) _ _ _ (by decide) (by decide)

/-- In 64 bits the first assignment also sets bit 32. -/
theorem bits_alias : ¬ ∀ (n : Nat) (data : Words) (ops : List (Nat × Bool)) (j : Nat), 1 ≤ n →
    (∀ o ∈ ops, o.1 < n) → j < n → ReadsBack data ops j := by
  intro h
  have hr := h 64 (fun _ => 0) [(0, true)] 32 (by decide) (by decide) (by decide)
  exact absurd hr.1 (by decide)

end Run

end Bitset
end Util
end TorexOS
