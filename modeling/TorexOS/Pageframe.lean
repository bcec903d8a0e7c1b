import TorexOS.Lib.Packed
import TorexOS.ListBase

/-!
# TorexOS.Pageframe

The page descriptor table of `memory/pageframe.h`.

A descriptor is a union of 32 bytes with three packed views: `CommonBlockInfo`, `FreeBlock` and
`SlubBlock`. It is modelled by its bits, `padding`, and each view by its offsets, so the overlay of
`FreeBlock::prev` on `SlubBlock::in_use` and `free_offset` is the one of the source.

The table is a function from the descriptor's index, `pd_base[i]`. A pointer to a descriptor is its
index; in a descriptor it is stored as the 64-bit address `pd_base + 32 * i`.
-/

namespace TorexOS
namespace Memory

open Util

/-- `PageType`, stored in the one byte of a `PageFlag`. -/
inductive PageType where
  | free
  | kernel
  | tails
  | reserved
  | slab
  | kernelMap
  deriving DecidableEq

def PageType.flag : PageType → BitVec 8
  | .free => 0
  | .kernel => 1
  | .tails => 2
  | .reserved => 3
  | .slab => 4
  | .kernelMap => 5

/-- What the boot code fixes: the kernel virtual addresses of the descriptor table and of the
static array `slubs`, and the number of page frames described. No address wraps, and
`makeKernelPTE` panics on a machine with 512 GiB or more. -/
structure Layout where
  pdBase : Nat
  pages : Nat
  slubs : Nat
  pdBase_pos : 0 < pdBase
  pd_fits : pdBase + 32 * pages ≤ 2 ^ 64
  pages_le : pages ≤ 2 ^ 27
  slubs_fits : slubs + 40 * 7 ≤ 2 ^ 64

/-- The 64 bits of a descriptor pointer. -/
def Layout.encode (L : Layout) : Option Nat → BitVec 64
  | none => 0#64
  | some i => BitVec.ofNat 64 (L.pdBase + 32 * i)

/-- The descriptor a non-null pointer designates: `ptr - pd_base`. -/
def Layout.decode (L : Layout) (v : BitVec 64) : Option Nat :=
  if v = 0#64 then none else some ((v.toNat - L.pdBase) / 32)

theorem Layout.decode_encode (L : Layout) (p : Option Nat) (h : ∀ i ∈ p, i < L.pages) :
    L.decode (L.encode p) = p := by
  cases p with
  | none => rfl
  | some i =>
    have hi : i < L.pages := h i rfl
    have := L.pd_fits
    have := L.pdBase_pos
    have ht : (L.encode (some i)).toNat = L.pdBase + 32 * i := by
      rw [encode, BitVec.toNat_ofNat, Nat.mod_eq_of_lt (by omega)]
    have hne : L.encode (some i) ≠ 0#64 := by
      intro hz; rw [hz] at ht; simp at ht; omega
    rw [decode, if_neg hne, ht]
    congr 1; omega

theorem Layout.decode_eq_none (L : Layout) {v : BitVec 64} : L.decode v = none ↔ v = 0#64 := by
  rw [decode]; split <;> simp_all

/-- The union `PageDescriptor`, through its member `padding[32]`. -/
structure PageDescriptor where
  padding : BitVec 256
  deriving DecidableEq

namespace PageDescriptor

variable (d : PageDescriptor)

/-! `CommonBlockInfo` -/

def flags : BitVec 8 := Packed.load d.padding 0 8
def setFlags (pf : BitVec 8) : PageDescriptor := ⟨Packed.store d.padding 0 pf⟩
def orders : Nat := (Packed.load d.padding 8 8).toNat
def setOrders (o : Nat) : PageDescriptor := ⟨Packed.store d.padding 8 (BitVec.ofNat 8 o)⟩

/-! `FreeBlock` -/

def prev : BitVec 64 := Packed.load d.padding 16 64
def setPrev (p : BitVec 64) : PageDescriptor := ⟨Packed.store d.padding 16 p⟩
def next : BitVec 64 := Packed.load d.padding 80 64
def setNext (p : BitVec 64) : PageDescriptor := ⟨Packed.store d.padding 80 p⟩

/-! `SlubBlock` -/

def inUse : BitVec 16 := Packed.load d.padding 16 16
def setInUse (n : BitVec 16) : PageDescriptor := ⟨Packed.store d.padding 16 n⟩
def freeOffset : BitVec 32 := Packed.load d.padding 32 32
def setFreeOffset (c : BitVec 32) : PageDescriptor := ⟨Packed.store d.padding 32 c⟩
def nextBlock : BitVec 64 := Packed.load d.padding 64 64
def setNextBlock (p : BitVec 64) : PageDescriptor := ⟨Packed.store d.padding 64 p⟩
def prevBlock : BitVec 64 := Packed.load d.padding 128 64
def setPrevBlock (p : BitVec 64) : PageDescriptor := ⟨Packed.store d.padding 128 p⟩
def owner : BitVec 64 := Packed.load d.padding 192 64
def setOwner (p : BitVec 64) : PageDescriptor := ⟨Packed.store d.padding 192 p⟩

variable {d}

section Overlay

variable (f : BitVec 8) (o : Nat) (p : BitVec 64) (n : BitVec 16) (c : BitVec 32)

@[simp] theorem flags_setFlags : (d.setFlags f).flags = f := Packed.load_store _ _ (by omega)
@[simp] theorem flags_setOrders : (d.setOrders o).flags = d.flags :=
  Packed.load_store_ne _ _ (by omega) (by omega)
@[simp] theorem flags_setPrev : (d.setPrev p).flags = d.flags :=
  Packed.load_store_ne _ _ (by omega) (by omega)
@[simp] theorem flags_setNext : (d.setNext p).flags = d.flags :=
  Packed.load_store_ne _ _ (by omega) (by omega)
@[simp] theorem flags_setInUse : (d.setInUse n).flags = d.flags :=
  Packed.load_store_ne _ _ (by omega) (by omega)
@[simp] theorem flags_setFreeOffset : (d.setFreeOffset c).flags = d.flags :=
  Packed.load_store_ne _ _ (by omega) (by omega)
@[simp] theorem flags_setNextBlock : (d.setNextBlock p).flags = d.flags :=
  Packed.load_store_ne _ _ (by omega) (by omega)
@[simp] theorem flags_setPrevBlock : (d.setPrevBlock p).flags = d.flags :=
  Packed.load_store_ne _ _ (by omega) (by omega)
@[simp] theorem flags_setOwner : (d.setOwner p).flags = d.flags :=
  Packed.load_store_ne _ _ (by omega) (by omega)

theorem orders_setOrders (h : o < 256) : (d.setOrders o).orders = o := by
  simp only [orders, setOrders]
  rw [Packed.load_store _ _ (by omega), BitVec.toNat_ofNat, Nat.mod_eq_of_lt h]

@[simp] theorem orders_setFlags : (d.setFlags f).orders = d.orders :=
  congrArg BitVec.toNat (Packed.load_store_ne _ _ (by omega) (by omega))
@[simp] theorem orders_setPrev : (d.setPrev p).orders = d.orders :=
  congrArg BitVec.toNat (Packed.load_store_ne _ _ (by omega) (by omega))
@[simp] theorem orders_setNext : (d.setNext p).orders = d.orders :=
  congrArg BitVec.toNat (Packed.load_store_ne _ _ (by omega) (by omega))
@[simp] theorem orders_setInUse : (d.setInUse n).orders = d.orders :=
  congrArg BitVec.toNat (Packed.load_store_ne _ _ (by omega) (by omega))
@[simp] theorem orders_setFreeOffset : (d.setFreeOffset c).orders = d.orders :=
  congrArg BitVec.toNat (Packed.load_store_ne _ _ (by omega) (by omega))
@[simp] theorem orders_setNextBlock : (d.setNextBlock p).orders = d.orders :=
  congrArg BitVec.toNat (Packed.load_store_ne _ _ (by omega) (by omega))
@[simp] theorem orders_setPrevBlock : (d.setPrevBlock p).orders = d.orders :=
  congrArg BitVec.toNat (Packed.load_store_ne _ _ (by omega) (by omega))
@[simp] theorem orders_setOwner : (d.setOwner p).orders = d.orders :=
  congrArg BitVec.toNat (Packed.load_store_ne _ _ (by omega) (by omega))

@[simp] theorem prev_setPrev : (d.setPrev p).prev = p := Packed.load_store _ _ (by omega)
@[simp] theorem prev_setNext : (d.setNext p).prev = d.prev :=
  Packed.load_store_ne _ _ (by omega) (by omega)
@[simp] theorem prev_setFlags : (d.setFlags f).prev = d.prev :=
  Packed.load_store_ne _ _ (by omega) (by omega)
@[simp] theorem prev_setOrders : (d.setOrders o).prev = d.prev :=
  Packed.load_store_ne _ _ (by omega) (by omega)
@[simp] theorem next_setNext : (d.setNext p).next = p := Packed.load_store _ _ (by omega)
@[simp] theorem next_setPrev : (d.setPrev p).next = d.next :=
  Packed.load_store_ne _ _ (by omega) (by omega)

@[simp] theorem inUse_setInUse : (d.setInUse n).inUse = n := Packed.load_store _ _ (by omega)
@[simp] theorem inUse_setFreeOffset : (d.setFreeOffset c).inUse = d.inUse :=
  Packed.load_store_ne _ _ (by omega) (by omega)
@[simp] theorem inUse_setNextBlock : (d.setNextBlock p).inUse = d.inUse :=
  Packed.load_store_ne _ _ (by omega) (by omega)
@[simp] theorem inUse_setPrevBlock : (d.setPrevBlock p).inUse = d.inUse :=
  Packed.load_store_ne _ _ (by omega) (by omega)
@[simp] theorem inUse_setOwner : (d.setOwner p).inUse = d.inUse :=
  Packed.load_store_ne _ _ (by omega) (by omega)
@[simp] theorem freeOffset_setInUse : (d.setInUse n).freeOffset = d.freeOffset :=
  Packed.load_store_ne _ _ (by omega) (by omega)
@[simp] theorem freeOffset_setFreeOffset : (d.setFreeOffset c).freeOffset = c := Packed.load_store _ _ (by omega)
@[simp] theorem freeOffset_setNextBlock : (d.setNextBlock p).freeOffset = d.freeOffset :=
  Packed.load_store_ne _ _ (by omega) (by omega)
@[simp] theorem freeOffset_setPrevBlock : (d.setPrevBlock p).freeOffset = d.freeOffset :=
  Packed.load_store_ne _ _ (by omega) (by omega)
@[simp] theorem freeOffset_setOwner : (d.setOwner p).freeOffset = d.freeOffset :=
  Packed.load_store_ne _ _ (by omega) (by omega)
@[simp] theorem nextBlock_setInUse : (d.setInUse n).nextBlock = d.nextBlock :=
  Packed.load_store_ne _ _ (by omega) (by omega)
@[simp] theorem nextBlock_setFreeOffset : (d.setFreeOffset c).nextBlock = d.nextBlock :=
  Packed.load_store_ne _ _ (by omega) (by omega)
@[simp] theorem nextBlock_setNextBlock : (d.setNextBlock p).nextBlock = p := Packed.load_store _ _ (by omega)
@[simp] theorem nextBlock_setPrevBlock : (d.setPrevBlock p).nextBlock = d.nextBlock :=
  Packed.load_store_ne _ _ (by omega) (by omega)
@[simp] theorem nextBlock_setOwner : (d.setOwner p).nextBlock = d.nextBlock :=
  Packed.load_store_ne _ _ (by omega) (by omega)
@[simp] theorem prevBlock_setInUse : (d.setInUse n).prevBlock = d.prevBlock :=
  Packed.load_store_ne _ _ (by omega) (by omega)
@[simp] theorem prevBlock_setFreeOffset : (d.setFreeOffset c).prevBlock = d.prevBlock :=
  Packed.load_store_ne _ _ (by omega) (by omega)
@[simp] theorem prevBlock_setNextBlock : (d.setNextBlock p).prevBlock = d.prevBlock :=
  Packed.load_store_ne _ _ (by omega) (by omega)
@[simp] theorem prevBlock_setPrevBlock : (d.setPrevBlock p).prevBlock = p := Packed.load_store _ _ (by omega)
@[simp] theorem prevBlock_setOwner : (d.setOwner p).prevBlock = d.prevBlock :=
  Packed.load_store_ne _ _ (by omega) (by omega)
@[simp] theorem owner_setInUse : (d.setInUse n).owner = d.owner :=
  Packed.load_store_ne _ _ (by omega) (by omega)
@[simp] theorem owner_setFreeOffset : (d.setFreeOffset c).owner = d.owner :=
  Packed.load_store_ne _ _ (by omega) (by omega)
@[simp] theorem owner_setNextBlock : (d.setNextBlock p).owner = d.owner :=
  Packed.load_store_ne _ _ (by omega) (by omega)
@[simp] theorem owner_setPrevBlock : (d.setPrevBlock p).owner = d.owner :=
  Packed.load_store_ne _ _ (by omega) (by omega)
@[simp] theorem owner_setOwner : (d.setOwner p).owner = p := Packed.load_store _ _ (by omega)

/-- A null `FreeBlock::prev` covers `in_use` and `free_offset`. -/
theorem inUse_of_prev (h : d.prev = 0#64) : d.inUse = 0#16 :=
  Packed.load_eq_zero_of_within _ h (by omega) (by omega)

theorem freeOffset_of_prev (h : d.prev = 0#64) : d.freeOffset = 0#32 :=
  Packed.load_eq_zero_of_within _ h (by omega) (by omega)

end Overlay
end PageDescriptor

/-- The descriptor table. -/
abbrev PdTable := Nat → PageDescriptor

/-- Change the descriptor at `i`. -/
def PdTable.modify (pd : PdTable) (i : Nat) (f : PageDescriptor → PageDescriptor) : PdTable :=
  fun j => if j = i then f (pd j) else pd j

@[simp] theorem PdTable.modify_same (pd : PdTable) (i : Nat) (f : PageDescriptor → PageDescriptor) :
    pd.modify i f i = f (pd i) := by simp [modify]

theorem PdTable.modify_ne (pd : PdTable) {i j : Nat} (f : PageDescriptor → PageDescriptor)
    (h : j ≠ i) : pd.modify i f j = pd j := by simp [modify, h]

theorem PdTable.modify_apply (pd : PdTable) (i j : Nat) (f : PageDescriptor → PageDescriptor) :
    pd.modify i f j = if j = i then f (pd j) else pd j := rfl

/-- A field that `f` leaves alone is the same at every index. -/
theorem PdTable.field_modify {α : Type} (g : PageDescriptor → α) {f : PageDescriptor → PageDescriptor}
    (h : ∀ d, g (f d) = g d) (pd : PdTable) (i j : Nat) : g (pd.modify i f j) = g (pd j) := by
  rw [modify_apply]; split
  · exact h _
  · rfl

/-- `FreeBlock` as a list node. -/
def freeBlock (L : Layout) : NodeTrait PdTable Nat where
  getNext pd i := L.decode (pd i).next
  getPrev pd i := L.decode (pd i).prev
  setNext pd i p := pd.modify i (·.setNext (L.encode p))
  setPrev pd i p := pd.modify i (·.setPrev (L.encode p))
  Storable i := i < L.pages
  next_setNext pd i p h := by simp [L.decode_encode p h]
  next_setNext_ne pd i j p h := by simp [PdTable.modify_ne _ _ h]
  next_setPrev pd i j p := by rw [PdTable.field_modify PageDescriptor.next (by simp)]
  prev_setPrev pd i p h := by simp [L.decode_encode p h]
  prev_setPrev_ne pd i j p h := by simp [PdTable.modify_ne _ _ h]
  prev_setNext pd i j p := by rw [PdTable.field_modify PageDescriptor.prev (by simp)]

/-- `mark_pages`: a head of the given type and order, then tails. -/
def markPages (pd : PdTable) (pos : Nat) (type : PageType) (order : Nat) : PdTable :=
  let pd := pd.modify pos (·.setFlags type.flag)
  let pd := pd.modify pos (·.setOrders order)
  (List.range' 1 (2 ^ order - 1)).foldl
    (fun pd i => pd.modify (pos + i) (·.setFlags PageType.tails.flag)) pd

theorem foldl_tails (pos n : Nat) (pd : PdTable) (k j : Nat) :
    (List.range' k n).foldl
        (fun pd i => PdTable.modify pd (pos + i) (·.setFlags PageType.tails.flag)) pd j =
      if pos + k ≤ j ∧ j < pos + k + n then (pd j).setFlags PageType.tails.flag else pd j := by
  induction n generalizing k pd with
  | zero => simp
  | succ n ih =>
    rw [List.range'_succ, List.foldl_cons, ih, PdTable.modify_apply]
    by_cases hj : j = pos + k
    · subst hj; rw [if_neg (by omega), if_pos rfl, if_pos (by omega)]
    · rw [if_neg hj]
      by_cases hin : pos + k ≤ j ∧ j < pos + k + (n + 1)
      · rw [if_pos hin, if_pos (by omega)]
      · rw [if_neg hin, if_neg (by omega)]

theorem markPages_apply (pd : PdTable) (pos : Nat) (type : PageType) (order j : Nat) :
    markPages pd pos type order j =
      if j = pos then ((pd j).setFlags type.flag).setOrders order
      else if pos < j ∧ j < pos + 2 ^ order then (pd j).setFlags PageType.tails.flag else pd j := by
  have hp := Nat.two_pow_pos order
  simp only [markPages, foldl_tails, PdTable.modify_apply]
  by_cases hj : j = pos
  · simp [hj]
  · simp only [if_neg hj]
    by_cases hin : pos < j ∧ j < pos + 2 ^ order
    · rw [if_pos (by omega), if_pos hin]
    · rw [if_neg (by omega), if_neg hin]

/-- `markPages_apply` as one function, without the loop. -/
theorem markPages_eq : markPages = fun pd pos type order j =>
    if j = pos then ((pd j).setFlags type.flag).setOrders order
    else if pos < j ∧ j < pos + 2 ^ order then (pd j).setFlags PageType.tails.flag else pd j := by
  funext pd pos type order j
  exact markPages_apply pd pos type order j

end Memory
end TorexOS
