import TorexOS.BuddyRun
import TorexOS.Lib.FreeChain

/-!
# TorexOS.Slub

The slab allocators of `memory/slub.h` and `memory/slub.cpp`.

* `slubBlock`: a slab's descriptor as a list node.
* `Kernel`: the page allocator, the bytes of the physical memory at their kernel addresses, and the
  array `slubs`.
* `allocInOneblock`, `freeInOneblock`, `makeSlabs`, `alloc`, `free`, as the source computes them.

A call that stops says why (`Fault`): a null link in a free list of the page allocator, or in a
slab list.
-/

namespace TorexOS
namespace Memory

open Util Packed

/-- `SlubBlock` as a list node. -/
def slubBlock (L : Layout) : NodeTrait PdTable Nat where
  getNext pd i := L.decode (pd i).nextBlock
  getPrev pd i := L.decode (pd i).prevBlock
  setNext pd i p := pd.modify i (·.setNextBlock (L.encode p))
  setPrev pd i p := pd.modify i (·.setPrevBlock (L.encode p))
  Storable i := i < L.pages
  next_setNext pd i p h := by simp [L.decode_encode p h]
  next_setNext_ne pd i j p h := by simp [PdTable.modify_ne _ _ h]
  next_setPrev pd i j p := by rw [PdTable.field_modify PageDescriptor.nextBlock (by simp)]
  prev_setPrev pd i p h := by simp [L.decode_encode p h]
  prev_setPrev_ne pd i j p h := by simp [PdTable.modify_ne _ _ h]
  prev_setNext pd i j p := by rw [PdTable.field_modify PageDescriptor.prevBlock (by simp)]

/-- `cell_null`: the free chain of an exhausted slab. -/
def cellNull : BitVec 32 := 0xffffffff#32

/-- `in_use_max`: what `in_use` is set to when a slab is moved to the full list. -/
def inUseMax : BitVec 16 := 0xffff#16

/-- `class SlubAllocator`. -/
structure SlubAllocator where
  partialList : ListBase Nat
  fullList : ListBase Nat
  objectSize : Nat

/-- The page allocator, the memory and the slab allocators. -/
structure Kernel where
  pages : BuddyState
  ram : Nat → BitVec 8
  slubs : Nat → SlubAllocator

inductive Fault where
  | pageList
  | slabList
  | outOfFuel
  deriving DecidableEq

namespace Kernel

/-- `pd_base`. -/
def pd (K : Kernel) : PdTable := K.pages.mem.pd

def withPd (K : Kernel) (pd : PdTable) : Kernel :=
  { K with pages := { K.pages with mem := { K.pages.mem with pd := pd } } }

/-- Store the outcome of a list operation on `slubs[k].partial`. -/
def setPartial (K : Kernel) (k : Nat) (r : PdTable × ListBase Nat) : Kernel :=
  { K.withPd r.1 with
    slubs := Function.update K.slubs k { K.slubs k with partialList := r.2 } }

/-- Store the outcome of a list operation on `slubs[k].full`. -/
def setFull (K : Kernel) (k : Nat) (r : PdTable × ListBase Nat) : Kernel :=
  { K.withPd r.1 with
    slubs := Function.update K.slubs k { K.slubs k with fullList := r.2 } }

end Kernel

/-- The address of `slubs[k]`. -/
def Layout.ownerOf (L : Layout) (k : Nat) : BitVec 64 := BitVec.ofNat 64 (L.slubs + 40 * k)

def allocInOneblock (K : Kernel) (ptr : Nat) : Option Nat × Kernel :=
  if (K.pd ptr).freeOffset = cellNull then (none, K)
  else
    let base := toKerAddr ptr
    let object := base + (K.pd ptr).freeOffset.toNat
    let pd := K.pd.modify ptr (·.setFreeOffset (load32 K.ram object))
    let pd := pd.modify ptr fun d => d.setInUse (d.inUse + 1)
    (some object, K.withPd pd)

/-- `free_in_oneblock`: the cell's offset is a 32-bit difference, `in_use` a 16-bit counter. -/
def freeInOneblock (K : Kernel) (block ptr : Nat) : Kernel :=
  let base := toKerAddr block
  let ram := store32 K.ram ptr (K.pd block).freeOffset
  let pd := K.pd.modify block (·.setFreeOffset (BitVec.ofNat 32 (ptr - base)))
  let pd := pd.modify block fun d => d.setInUse (d.inUse - 1)
  { K with ram := ram }.withPd pd

/-- The loop of `make_slabs`: each cell points to the next. Returns the memory and `index`. -/
def fillCells (ram : Nat → BitVec 8) (base objectSize limit index : Nat) :
    (Nat → BitVec 8) × Nat :=
  if index < limit ∧ 0 < objectSize then
    fillCells (store32 ram (base + index) (BitVec.ofNat 32 (index + objectSize))) base objectSize
      limit (index + objectSize)
  else (ram, index)
termination_by limit - index

/-- `make_slabs` of `slubs[k]`. -/
def makeSlabs (L : Layout) (K : Kernel) (k block : Nat) : Kernel :=
  let base := toKerAddr block
  let limit := smallestPageSize <<< (K.pd block).orders
  let K := K.withPd (K.pd.modify block (·.setOwner (L.ownerOf k)))
  let (ram, index) := fillCells K.ram base (K.slubs k).objectSize limit 0
  let index := index - (K.slubs k).objectSize
  { K with ram := store32 ram (base + index) cellNull }

/-- How a call of `alloc` ends: with a value, or with `return alloc()`. -/
inductive AllocStep where
  | done (r : Option Nat × Kernel)
  | again (K : Kernel)

/-- The body of `SlubAllocator::alloc` of `slubs[k]`. -/
def allocStep (L : Layout) (k : Nat) (K : Kernel) : Except Fault AllocStep :=
  match (K.slubs k).partialList.head with
  | some front =>
    if (K.pd front).freeOffset ≠ cellNull then .ok (.done (allocInOneblock K front))
    else
      match ListBase.popFrontNode (slubBlock L) K.pd (K.slubs k).partialList with
      | none => .error .slabList
      | some r =>
        let K := K.setPartial k r
        match ListBase.pushBackNode (slubBlock L) K.pd (K.slubs k).fullList front with
        | none => .error .slabList
        | some r =>
          let K := K.setFull k r
          .ok (.again (K.withPd (K.pd.modify front (·.setInUse inUseMax))))
  | none =>
    let allocateOrder := calculOrder ((K.slubs k).objectSize * 128)
    match allocPages L K.pages .slab allocateOrder with
    | none => .error .pageList
    | some (none, s) => .ok (.done (none, { K with pages := s }))
    | some (some pages, s) =>
      let K := makeSlabs L { K with pages := s } k pages
      match ListBase.pushFrontNode (slubBlock L) K.pd (K.slubs k).partialList pages with
      | none => .error .slabList
      | some r => .ok (.again (K.setPartial k r))

/-- `SlubAllocator::alloc` with a bound on the depth of its recursion. -/
def allocFuel (L : Layout) (k : Nat) : Nat → Kernel → Except Fault (Option Nat × Kernel)
  | 0, _ => .error .outOfFuel
  | fuel + 1, K =>
    match allocStep L k K with
    | .error e => .error e
    | .ok (.done r) => .ok r
    | .ok (.again K) => allocFuel L k fuel K

/-- More fuel than enough changes nothing. -/
theorem allocFuel_mono {L : Layout} {k n m : Nat} (hnm : n ≤ m) :
    ∀ {K : Kernel}, allocFuel L k n K ≠ .error .outOfFuel →
      allocFuel L k m K = allocFuel L k n K := by
  induction n generalizing m with
  | zero => intro K h; exact absurd rfl h
  | succ n ih =>
    intro K h
    obtain ⟨m, rfl⟩ : ∃ j, m = j + 1 := ⟨m - 1, by omega⟩
    rw [allocFuel] at h ⊢
    rw [allocFuel]
    match hs : allocStep L k K with
    | .error e => rfl
    | .ok (.done r) => rfl
    | .ok (.again K') =>
      rw [hs] at h
      exact ih (by omega) h

/-- `SlubAllocator::alloc`: an exhausted slab is moved away, a new one is made, and its first cell
is taken; the recursion goes no deeper (`alloc_fuel`). -/
def alloc (L : Layout) (K : Kernel) (k : Nat) : Except Fault (Option Nat × Kernel) :=
  allocFuel L k 3 K

/-- `SlubAllocator::free` of `slubs[k]`. -/
def free (L : Layout) (K : Kernel) (k block ptr : Nat) : Except Fault Kernel :=
  if (K.pd block).freeOffset = cellNull then
    let K := freeInOneblock K block ptr
    match ListBase.popNode (slubBlock L) K.pd (K.slubs k).fullList block with
    | none => .error .slabList
    | some r =>
      let K := K.setFull k r
      match ListBase.pushBackNode (slubBlock L) K.pd (K.slubs k).partialList block with
      | none => .error .slabList
      | some r => .ok (K.setPartial k r)
  else
    let K := freeInOneblock K block ptr
    if (K.pd block).inUse = 0 then
      match ListBase.popNode (slubBlock L) K.pd (K.slubs k).partialList block with
      | none => .error .slabList
      | some r =>
        let K := K.setPartial k r
        match freePages L K.pages block with
        | none => .error .pageList
        | some s => .ok { K with pages := s }
    else .ok K

end Memory
end TorexOS
