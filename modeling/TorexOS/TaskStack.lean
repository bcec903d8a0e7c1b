import TorexOS.Process
import TorexOS.ProcessQueues
import Mathlib.Tactic.Ring

/-!
# TorexOS.TaskStack

Where the stack pointer of a built task is.

* `InStack`: an address behind `stack_start`, at most `stack_size` bytes.
* `built_stack_iff`: `build` counts the size in units of eight bytes, so the stack pointer is inside
  only for sizes at which eight times the size wraps.
-/

namespace TorexOS
namespace Ps

/-- The address is in the half-open range from `stack_start`, exclusive, to `stack_start` plus
`stack_size`, inclusive. -/
def InStack (t : Task) (a : BitVec 64) : Prop :=
  0 < (a - t.stackStart).toNat ∧ (a - t.stackStart).toNat ≤ t.stackSize.toNat

/-- Both pointers are aligned and inside the stack. -/
structure StackRight (t : Task) : Prop where
  rsp : InStack t t.cpuContext.rsp
  rbp : InStack t t.cpuContext.rbp
  rspAligned : 16 ∣ t.cpuContext.rsp.toNat
  rbpAligned : 16 ∣ t.cpuContext.rbp.toNat

/-- Modulo `2 ^ 64`, eight times the size less 128 is positive and at most the size. -/
def EightfoldFits (size : Nat) : Prop :=
  32 ≤ size % 2 ^ 61 ∧ 7 * (size % 2 ^ 61) ≤ 2 ^ 61 * (size / 2 ^ 61) + 128

section Build

variable {chars start size : BitVec 64} {ret : Task}

/-- The top of the stack that `build` computes. -/
def stackTop (start size : BitVec 64) : BitVec 64 := start + 8 * size - 8 * (8 * 2)

theorem build_pointers : (Builder.build chars ret).cpuContext.rsp =
    stackTop (Builder.build chars ret).stackStart (Builder.build chars ret).stackSize ∧
    (Builder.build chars ret).cpuContext.rbp =
      stackTop (Builder.build chars ret).stackStart (Builder.build chars ret).stackSize := by
  unfold Builder.build
  split
  · exact ⟨rfl, rfl⟩
  · exact ⟨rfl, rfl⟩

theorem stackTop_eq : stackTop start size = start + (8 * size + (-128)) := by
  rw [stackTop, BitVec.sub_eq_add_neg, BitVec.add_assoc]
  rfl

theorem stackTop_offset :
    (stackTop start size - start).toNat = (8 * size.toNat + (2 ^ 64 - 128)) % 2 ^ 64 := by
  rw [stackTop_eq, BitVec.add_comm, BitVec.add_sub_cancel, BitVec.toNat_add, BitVec.toNat_mul,
    show BitVec.toNat (8 : BitVec 64) = 8 from rfl,
    show BitVec.toNat (-128 : BitVec 64) = 2 ^ 64 - 128 from rfl, Nat.mod_add_mod]

theorem stackTop_aligned (hstart : 16 ∣ start.toNat) (hsize : 16 ∣ size.toNat) :
    16 ∣ (stackTop start size).toNat := by
  have hmod : 16 ∣ 2 ^ 64 := by omega
  rw [stackTop_eq, BitVec.toNat_add, BitVec.toNat_add, BitVec.toNat_mul,
    show BitVec.toNat (8 : BitVec 64) = 8 from rfl,
    show BitVec.toNat (-128 : BitVec 64) = 2 ^ 64 - 128 from rfl, Nat.mod_add_mod, Nat.add_mod_mod]
  refine (Nat.dvd_mod_iff hmod).mpr (Nat.dvd_add hstart (Nat.dvd_add ?_ (by omega)))
  exact Nat.dvd_trans hsize (Nat.dvd_mul_left _ _)

/-- The top is inside exactly when the size wraps as needed. -/
theorem stackTop_inside_iff (h16 : 16 ∣ size.toNat) :
    (0 < (stackTop start size - start).toNat ∧
      (stackTop start size - start).toNat ≤ size.toNat) ↔ EightfoldFits size.toNat := by
  have hlt := size.isLt
  rw [stackTop_offset, EightfoldFits]
  generalize size.toNat = n at *
  -- the bits of the size that eight times it keeps, and those it loses
  have hsplit := Nat.div_add_mod n (2 ^ 61)
  have hr : n % 2 ^ 61 < 2 ^ 61 := Nat.mod_lt _ (by omega)
  have hr16 : 16 ∣ n % 2 ^ 61 := (Nat.dvd_mod_iff (by omega)).mpr h16
  have hlost : n / 2 ^ 61 < 8 := by omega
  generalize n % 2 ^ 61 = r at *
  generalize n / 2 ^ 61 = q at *
  have hoff : (8 * n + (2 ^ 64 - 128)) % 2 ^ 64 = (8 * r + (2 ^ 64 - 128)) % 2 ^ 64 := by
    have height : 8 * n + (2 ^ 64 - 128) = 2 ^ 64 * q + (8 * r + (2 ^ 64 - 128)) := by omega
    rw [height, Nat.mul_add_mod]
  rw [hoff]
  obtain ⟨r, rfl⟩ := hr16
  by_cases hbig : 16 ≤ 16 * r
  · have hval : (8 * (16 * r) + (2 ^ 64 - 128)) % 2 ^ 64 = 8 * (16 * r) - 128 := by
      have hwrap : 8 * (16 * r) + (2 ^ 64 - 128) = 8 * (16 * r) - 128 + 2 ^ 64 := by omega
      rw [hwrap, Nat.add_mod_right]
      exact Nat.mod_eq_of_lt (by omega)
    rw [hval]
    omega
  · have hval : (8 * (16 * r) + (2 ^ 64 - 128)) % 2 ^ 64 = 2 ^ 64 - 128 := by
      have hzero : 8 * (16 * r) + (2 ^ 64 - 128) = 2 ^ 64 - 128 := by omega
      exact (congrArg (· % 2 ^ 64) hzero).trans (Nat.mod_eq_of_lt (by omega))
    rw [hval]
    omega

/-- The stack of a built task. With a final size that is a multiple of 16 and at least 32 and an
aligned start, the pointers are inside exactly when eight times the size wraps around to less; for
sizes below `2 ^ 61` they never are. -/
theorem built_stack_iff (ctor : Builder.Ctor) (calls : List Builder.Call) (chars : BitVec 64)
    (ret t : Task) (ht : t = Builder.chain ctor calls chars ret) (hsize : 32 ≤ t.stackSize.toNat)
    (h16 : 16 ∣ t.stackSize.toNat) (hstart : 16 ∣ t.stackStart.toNat) :
    (StackRight t ↔ EightfoldFits t.stackSize.toNat) ∧
      (t.stackSize.toNat < 2 ^ 61 → ¬ StackRight t) := by
  have hp : t.cpuContext.rsp = stackTop t.stackStart t.stackSize ∧
      t.cpuContext.rbp = stackTop t.stackStart t.stackSize := by
    rw [ht]
    exact build_pointers
  have hin : InStack t (stackTop t.stackStart t.stackSize) ↔ EightfoldFits t.stackSize.toNat :=
    stackTop_inside_iff h16
  have halign := stackTop_aligned hstart h16
  have hiff : StackRight t ↔ EightfoldFits t.stackSize.toNat := by
    constructor
    · intro h
      exact hin.mp (hp.1 ▸ h.rsp)
    · intro h
      have hi := hin.mpr h
      exact ⟨hp.1 ▸ hi, hp.2 ▸ hi, hp.1 ▸ halign, hp.2 ▸ halign⟩
  refine ⟨hiff, fun hlt h => ?_⟩
  have hfits := hiff.mp h
  rw [EightfoldFits] at hfits
  omega

/-- The default size. -/
theorem built_stack_iff_default :
    ¬ StackRight (Builder.chain (.fn 0x1000) [.name] 0x5000 rawTask) :=
  (built_stack_iff _ _ _ _ _ rfl (by decide) (by decide) (by decide)).2 (by decide)

/-- The main task, with one megabyte from `STACK_START`: the pointers are seven megabytes above
its stack. -/
theorem main_stack_overshoots : ∃ t : Task,
    t = Builder.chain (.fn 0x2000) [.name, .stackAt 0x300000 0x100000] 0 rawTask ∧
    t.stackStart = 0x300000 ∧ t.stackSize = 0x100000 ∧
    t.cpuContext.rsp = 0x300000 + 8 * 0x100000 - 128 ∧ ¬ StackRight t := by
  refine ⟨_, rfl, rfl, rfl, rfl, fun h => ?_⟩
  exact absurd h.rsp.2 (by decide)

end Build

end Ps
end TorexOS
