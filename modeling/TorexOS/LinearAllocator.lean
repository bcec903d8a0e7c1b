import Mathlib.Data.List.Pairwise
import Mathlib.Data.BitVec

/-!
# TorexOS.LinearAllocator

`util::LinearAllocator` of `alloc_policy/linear_allocator.h`, on 64-bit pointers.

* `allocateBytes`: a null pointer where the buffer is too short. The sum is not checked.
* `allocateAll_within`: over all requests, the blocks are in the buffer, one behind another, the last
  byte of the buffer is in none of them, and only a request that does not fit is refused.
* `allocateBytes_wraps`: a size that wraps around is granted.
-/

namespace TorexOS
namespace Util

structure LinearAllocator where
  addr : BitVec 64
  stop : BitVec 64

namespace LinearAllocator

/-- The pointer, or a null pointer. -/
def allocateBytes (l : LinearAllocator) (n : BitVec 64) : LinearAllocator × BitVec 64 :=
  let ret := l.addr
  let addr := l.addr + n
  if l.stop ≤ addr then ({ l with addr := ret }, 0) else ({ l with addr := addr }, ret)

variable {l : LinearAllocator} {n : BitVec 64}

theorem allocateBytes_ok (h : l.addr.toNat + n.toNat < l.stop.toNat) :
    l.allocateBytes n = ({ l with addr := l.addr + n }, l.addr) := by
  have hstop := l.stop.isLt
  have hsum : (l.addr + n).toNat = l.addr.toNat + n.toNat := by
    rw [BitVec.toNat_add, Nat.mod_eq_of_lt (by omega)]
  exact if_neg (by rw [BitVec.le_def, hsum]; omega)

theorem allocateBytes_null (h : l.stop.toNat ≤ l.addr.toNat + n.toNat)
    (hlt : l.addr.toNat + n.toNat < 2 ^ 64) : l.allocateBytes n = (l, 0) := by
  have hsum : (l.addr + n).toNat = l.addr.toNat + n.toNat := by
    rw [BitVec.toNat_add, Nat.mod_eq_of_lt hlt]
  exact if_pos (by rw [BitVec.le_def, hsum]; exact h)

/-- The sum wraps around to below the end: the block is granted although it does not fit. -/
theorem allocateBytes_wraps (h : 2 ^ 64 ≤ l.addr.toNat + n.toNat)
    (hlt : l.addr.toNat + n.toNat < 2 ^ 64 + l.stop.toNat) :
    l.allocateBytes n = ({ l with addr := l.addr + n }, l.addr) := by
  have hstop := l.stop.isLt
  have hsum : (l.addr + n).toNat = l.addr.toNat + n.toNat - 2 ^ 64 := by
    rw [BitVec.toNat_add, Nat.mod_eq_sub_mod h, Nat.mod_eq_of_lt (by omega)]
  exact if_neg (by rw [BitVec.le_def, hsum]; omega)

/-- The requests one behind another, and the blocks that were granted. -/
def allocateAll : LinearAllocator → List (BitVec 64) → LinearAllocator × List (BitVec 64 × BitVec 64)
  | l, [] => (l, [])
  | l, n :: ns =>
    let (l', p) := l.allocateBytes n
    let (l'', bs) := allocateAll l' ns
    (l'', if p = 0 then bs else (p, n) :: bs)

/-- A block is between the two addresses. -/
def Within (lo hi : Nat) (b : BitVec 64 × BitVec 64) : Prop :=
  lo ≤ b.1.toNat ∧ b.1.toNat + b.2.toNat < hi

/-- What the requests leave: the buffer is the same, and what is free of it is still in it. -/
theorem allocateAll_state {ns : List (BitVec 64)} (hns : ∀ n ∈ ns, l.stop.toNat + n.toNat < 2 ^ 64)
    (hle : l.addr.toNat ≤ l.stop.toNat) :
    (l.allocateAll ns).1.stop = l.stop ∧ (l.allocateAll ns).1.addr.toNat ≤ l.stop.toNat := by
  induction ns generalizing l with
  | nil => exact ⟨rfl, hle⟩
  | cons n ns ih =>
    have hn := hns n List.mem_cons_self
    have hns' : ∀ k ∈ ns, l.stop.toNat + k.toNat < 2 ^ 64 :=
      fun k hk => hns k (List.mem_cons_of_mem n hk)
    by_cases hfit : l.addr.toNat + n.toNat < l.stop.toNat
    · have hsum : (l.addr + n).toNat = l.addr.toNat + n.toNat := by
        rw [BitVec.toNat_add, Nat.mod_eq_of_lt (by omega)]
      simp only [allocateAll, allocateBytes_ok hfit]
      exact ih (l := { l with addr := l.addr + n }) hns' (by dsimp; omega)
    · simp only [allocateAll, allocateBytes_null (l := l) (n := n) (by omega) (by omega)]
      exact ih hns' hle

theorem allocateAll_blocks {ns : List (BitVec 64)} (hns : ∀ n ∈ ns, l.stop.toNat + n.toNat < 2 ^ 64)
    (hle : l.addr.toNat ≤ l.stop.toNat) :
    (∀ b ∈ (l.allocateAll ns).2, Within l.addr.toNat l.stop.toNat b) ∧
      (l.allocateAll ns).2.Pairwise fun b c => b.1.toNat + b.2.toNat ≤ c.1.toNat := by
  induction ns generalizing l with
  | nil => exact ⟨fun b hb => absurd hb List.not_mem_nil, List.Pairwise.nil⟩
  | cons n ns ih =>
    have hn := hns n List.mem_cons_self
    by_cases hfit : l.addr.toNat + n.toNat < l.stop.toNat
    · have hsum : (l.addr + n).toNat = l.addr.toNat + n.toNat := by
        rw [BitVec.toNat_add, Nat.mod_eq_of_lt (by omega)]
      obtain ⟨hin, hpair⟩ := ih (l := { l with addr := l.addr + n })
        (fun k hk => hns k (List.mem_cons_of_mem n hk)) (by dsimp; omega)
      simp only [allocateAll, allocateBytes_ok hfit]
      dsimp only at hin hpair
      rw [hsum] at hin
      split
      · exact ⟨fun b hb => ⟨by have := (hin b hb).1; omega, (hin b hb).2⟩, hpair⟩
      · refine ⟨fun b hb => ?_, List.Pairwise.cons (fun c hc => (hin c hc).1) hpair⟩
        rcases List.mem_cons.mp hb with rfl | hb
        · exact ⟨Nat.le_refl _, hfit⟩
        · exact ⟨by have := (hin b hb).1; omega, (hin b hb).2⟩
    · obtain ⟨hin, hpair⟩ := ih (fun k hk => hns k (List.mem_cons_of_mem n hk)) hle
      simp only [allocateAll, allocateBytes_null (l := l) (n := n) (by omega) (by omega), if_true]
      exact ⟨hin, hpair⟩

/-- Over any requests of which none wraps around the end of the address space: the blocks are in the
buffer and each is behind the one before it; and a request is granted, at the address where the last
one ended, if it ends before the end of the buffer, and otherwise changes nothing. -/
theorem allocateAll_within {ns : List (BitVec 64)} (hns : ∀ n ∈ ns, l.stop.toNat + n.toNat < 2 ^ 64)
    (hle : l.addr.toNat ≤ l.stop.toNat) :
    (∀ b ∈ (l.allocateAll ns).2, Within l.addr.toNat l.stop.toNat b) ∧
    (l.allocateAll ns).2.Pairwise (fun b c => b.1.toNat + b.2.toNat ≤ c.1.toNat) ∧
    ∀ pre n post s, ns = pre ++ n :: post → (l.allocateAll pre).1 = s →
      s.allocateBytes n =
        if s.addr.toNat + n.toNat < l.stop.toNat then ({ s with addr := s.addr + n }, s.addr)
        else (s, 0) := by
  obtain ⟨hin, hpair⟩ := allocateAll_blocks hns hle
  refine ⟨hin, hpair, fun pre n post s hsplit hs => ?_⟩
  have hn := hns n (by simp [hsplit])
  have hpre : ∀ k ∈ pre, l.stop.toNat + k.toNat < 2 ^ 64 := fun k hk => hns k (by simp [hsplit, hk])
  obtain ⟨hstop, haddr⟩ := allocateAll_state hpre hle
  rw [hs] at hstop haddr
  by_cases hfit : s.addr.toNat + n.toNat < l.stop.toNat
  · rw [if_pos hfit]
    exact allocateBytes_ok (by rw [hstop]; exact hfit)
  · rw [if_neg hfit]
    exact allocateBytes_null (by rw [hstop]; omega) (by omega)

theorem allocateAll_within_three :
    (∀ b ∈ ((⟨0x1000, 0x1100⟩ : LinearAllocator).allocateAll [0x40, 0x200, 0x80]).2,
        Within 0x1000 0x1100 b) ∧
      ((⟨0x1000, 0x1100⟩ : LinearAllocator).allocateAll [0x40, 0x200, 0x80]).2 =
        [(0x1000, 0x40), (0x1040, 0x80)] ∧
      (⟨0x1040, 0x1100⟩ : LinearAllocator).allocateBytes 0x200 = (⟨0x1040, 0x1100⟩, 0) := by
  obtain ⟨hin, _, hall⟩ := @allocateAll_within ⟨0x1000, 0x1100⟩ [0x40, 0x200, 0x80]
    (by simp) (by simp)
  exact ⟨hin, rfl, hall [0x40] 0x200 [0x80] ⟨0x1040, 0x1100⟩ rfl rfl⟩

end LinearAllocator
end Util
end TorexOS
