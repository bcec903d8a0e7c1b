import TorexOS.Lib.Packed
import Mathlib.Data.List.Nodup

/-!
# TorexOS.Lib.FreeChain

Free cells of an array, chained through their first word.

The array starts at `base` and has cells of `size` bytes. The first word of a free cell is the byte
offset of the next one, and `nil` in the last.

* `Chain r base size nil c cs`: following the offsets from `c` meets the cells `cs`, then `nil`.
* `Chain.congr`, `Chain.push`: a chain looks at its own cells only; a cell is put in front of it.
* `chain_range'`: cells that each point to the next one are a chain.
-/

namespace FreeChain

open Packed

def Chain (r : Nat → BitVec 8) (base size : Nat) (nil : BitVec 32) : BitVec 32 → List Nat → Prop
  | c, [] => c = nil
  | c, i :: cs =>
    c = BitVec.ofNat 32 (i * size) ∧ Chain r base size nil (load32 r (base + i * size)) cs

variable {r r' : Nat → BitVec 8} {base size i j n : Nat} {nil c : BitVec 32} {cs : List Nat}

/-- The first words of two cells are apart. -/
theorem cell_apart (hsz : 4 ≤ size) (base : Nat) (h : i ≠ j) :
    base + i * size + 4 ≤ base + j * size ∨ base + j * size + 4 ≤ base + i * size := by
  rcases Nat.lt_or_gt_of_ne h with h | h
  · have := Nat.mul_le_mul_right size (Nat.succ_le_of_lt h)
    rw [Nat.succ_mul] at this; omega
  · have := Nat.mul_le_mul_right size (Nat.succ_le_of_lt h)
    rw [Nat.succ_mul] at this; omega

theorem Chain.congr (h : ∀ i ∈ cs, load32 r' (base + i * size) = load32 r (base + i * size)) :
    Chain r' base size nil c cs ↔ Chain r base size nil c cs := by
  induction cs generalizing c with
  | nil => exact Iff.rfl
  | cons i cs ih =>
    rw [Chain, Chain, h i (by simp), ih fun j hj => h j (by simp [hj])]

/-- A cell is freed: its first word gets the old start of the chain. -/
theorem Chain.push (hc : Chain r base size nil c cs) (hi : i ∉ cs) (hsz : 4 ≤ size) :
    Chain (store32 r (base + i * size) c) base size nil (BitVec.ofNat 32 (i * size)) (i :: cs) := by
  refine ⟨rfl, ?_⟩
  rw [load32_store32]
  refine (Chain.congr fun j hj => ?_).mpr hc
  refine load32_store32_ne _ (cell_apart hsz base ?_)
  rintro rfl; exact hi hj

/-- The chain starts with `nil` exactly when it is empty. -/
theorem Chain.eq_nil_iff (hc : Chain r base size nil c cs)
    (hlt : ∀ i ∈ cs, i * size < nil.toNat) : c = nil ↔ cs = [] := by
  cases cs with
  | nil => exact ⟨fun _ => rfl, fun _ => hc⟩
  | cons i cs =>
    refine ⟨fun h => ?_, fun h => by cases h⟩
    have hi := hlt i (by simp)
    have hci := hc.1
    rw [h] at hci
    have ht := congrArg BitVec.toNat hci
    rw [BitVec.toNat_ofNat, Nat.mod_eq_of_lt (lt_trans hi nil.isLt)] at ht
    omega

theorem chain_range' (hnext : ∀ j, i ≤ j → j + 1 < i + (n + 1) →
      load32 r (base + j * size) = BitVec.ofNat 32 ((j + 1) * size))
    (hlast : load32 r (base + (i + n) * size) = nil) :
    Chain r base size nil (BitVec.ofNat 32 (i * size)) (List.range' i (n + 1)) := by
  induction n generalizing i with
  | zero => exact ⟨rfl, hlast⟩
  | succ n ih =>
    rw [List.range'_succ]
    refine ⟨rfl, ?_⟩
    rw [hnext i (le_refl _) (by omega)]
    refine ih (fun j hj hjn => hnext j (by omega) (by omega)) ?_
    rw [show i + 1 + n = i + (n + 1) by omega]; exact hlast

end FreeChain
