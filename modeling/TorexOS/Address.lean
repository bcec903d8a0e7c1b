import Mathlib.Data.Nat.Log
import TorexOS.Pageframe

/-!
# TorexOS.Address

The conversions of `memory/address.h` and `memory/pageframe.h` between page descriptors, physical
and kernel addresses, and the order of a size.
-/

namespace TorexOS
namespace Memory

/-- The kernel's half of the address space. -/
def kerBase : Nat := 0xffff800000000000

/-- `phys_addr_t::to_ker`. -/
def toKer (address : Nat) : Nat := address ||| kerBase

/-- `ker_addr_t::to_phys`: `address & ~0xffff800000000000` on 64 bits. -/
def toPhys (address : Nat) : Nat := address &&& (2 ^ 64 - 1 - kerBase)

def smallestPageSize : Nat := 4096

/-- `to_ker_addr(pd)` for the descriptor of this index. -/
def toKerAddr (pd : Nat) : Nat := toKer (pd * smallestPageSize)

/-- `util::math::ilog2`, for a non-zero argument. -/
def ilog2 (n : Nat) : Nat := Nat.log2 n

/-- `calculOrder`: the difference is kept in the 8 bits of an `order_t`. -/
def calculOrder (size : Nat) : Nat :=
  (((ilog2 size : Int) - ilog2 smallestPageSize) % 2 ^ 8).toNat

theorem toKer_eq {a : Nat} (h : a < 2 ^ 47) : toKer a = kerBase + a := by
  have hk : kerBase = 0x1ffff <<< 47 := by decide
  rw [toKer, hk, Nat.or_comm, ← Nat.shiftLeft_add_eq_or_of_lt h]

theorem kerBase_testBit (i : Nat) : kerBase.testBit i = decide (47 ≤ i ∧ i < 64) := by
  have hk : kerBase = (2 ^ 17 - 1) * 2 ^ 47 := by decide
  rw [hk, Nat.testBit_mul_two_pow, Nat.testBit_two_pow_sub_one]
  by_cases h : 47 ≤ i
  · simp [h]
    omega
  · simp [h]

/-- The upper bits of the address are lost. -/
theorem toKer_eq_mod {a : Nat} (h : a < 2 ^ 64) : toKer a = kerBase + a % 2 ^ 47 := by
  rw [← toKer_eq (Nat.mod_lt _ (by omega)), toKer, toKer]
  apply Nat.eq_of_testBit_eq
  intro i
  rw [Nat.testBit_or, Nat.testBit_or, kerBase_testBit, Nat.testBit_mod_two_pow]
  by_cases h47 : i < 47
  · simp [h47]
  · by_cases h64 : i < 64
    · have hin : 47 ≤ i ∧ i < 64 := ⟨by omega, h64⟩
      simp [hin]
    · have hlt : a < 2 ^ i := Nat.lt_of_lt_of_le h (Nat.pow_le_pow_right (by omega) (by omega))
      rw [Nat.testBit_lt_two_pow hlt]
      simp [h47]

theorem toPhys_toKer {a : Nat} (h : a < 2 ^ 47) : toPhys (kerBase + a) = a := by
  have hm : 2 ^ 64 - 1 - kerBase = 2 ^ 47 - 1 := by decide
  rw [toPhys, hm, Nat.and_two_pow_sub_one_eq_mod, kerBase,
    show 0xffff800000000000 + a = a + 2 ^ 47 * 0x1ffff by omega, Nat.add_mul_mod_self_left,
    Nat.mod_eq_of_lt h]

theorem toKerAddr_eq {i : Nat} (h : i ≤ 2 ^ 27) : toKerAddr i = kerBase + i * 4096 := by
  rw [toKerAddr, smallestPageSize, toKer_eq (by omega)]

theorem ilog2_eq {n k : Nat} (hlo : 2 ^ k ≤ n) (hhi : n < 2 ^ (k + 1)) : ilog2 n = k := by
  have hn : n ≠ 0 := by have := Nat.two_pow_pos k; omega
  exact (Nat.log2_eq_iff hn).mpr ⟨hlo, hhi⟩

theorem calculOrder_of_ge {size : Nat} (h : 4096 ≤ size) (hlt : size < 2 ^ 64) :
    calculOrder size = ilog2 size - 12 := by
  have hs : ilog2 smallestPageSize = 12 := ilog2_eq (by decide) (by decide)
  have h1 : 12 ≤ ilog2 size := (Nat.le_log2 (by omega)).mpr (by omega)
  have h2 : ilog2 size < 64 := (Nat.log2_lt (by omega)).mpr hlt
  rw [calculOrder, hs]; omega

end Memory
end TorexOS
