import Mathlib.Logic.Function.Basic
import TorexOS.Pageframe

/-!
# TorexOS.Buddy

The buddy allocator of `memory/buddy.h` and `memory/buddy.cpp`.

Each function takes the memory it works on, the descriptor table and the allocator, and returns it
changed, or `none` when a list operation dereferences the null node. Descriptors are designated by
their index in `pd_base`.
-/

namespace TorexOS
namespace Memory

open Util

/-- `MaxOrder`: the greatest block is 2^9 pages, 2 MiB. -/
def maxOrder : Nat := 9

/-- `class BuddyAllocator`: one free list and one counter for each order. -/
structure BuddyAllocator where
  freelist : Nat → ListBase Nat
  count : Nat → BitVec 32

/-- The memory of the page allocator: `pd_base` and `allocator`. -/
structure Mem where
  pd : PdTable
  allocator : BuddyAllocator

namespace Mem

/-- Store the outcome of a list operation on `freelist[order]`. -/
def setFreelist (s : Mem) (order : Nat) (r : PdTable × ListBase Nat) : Mem :=
  { s with
    pd := r.1
    allocator := { s.allocator with freelist := Function.update s.allocator.freelist order r.2 } }

/-- `count[order] += d`, on 32 bits. -/
def addCount (s : Mem) (order : Nat) (d : BitVec 32) : Mem :=
  { s with allocator := { s.allocator with
      count := Function.update s.allocator.count order (s.allocator.count order + d) } }

def setFlags (s : Mem) (i : Nat) (t : PageType) : Mem :=
  { s with pd := s.pd.modify i (·.setFlags t.flag) }

def setOrders (s : Mem) (i : Nat) (order : Nat) : Mem :=
  { s with pd := s.pd.modify i (·.setOrders order) }

variable (s : Mem) (i j order : Nat) (t : PageType) (r : PdTable × ListBase Nat) (d : BitVec 32)

@[simp] theorem setFreelist_pd : (s.setFreelist order r).pd = r.1 := rfl
@[simp] theorem setFreelist_count :
    (s.setFreelist order r).allocator.count = s.allocator.count := rfl
@[simp] theorem setFreelist_freelist : (s.setFreelist order r).allocator.freelist =
    Function.update s.allocator.freelist order r.2 := rfl
@[simp] theorem addCount_pd : (s.addCount order d).pd = s.pd := rfl
@[simp] theorem addCount_freelist :
    (s.addCount order d).allocator.freelist = s.allocator.freelist := rfl
@[simp] theorem addCount_count : (s.addCount order d).allocator.count =
    Function.update s.allocator.count order (s.allocator.count order + d) := rfl
@[simp] theorem setFlags_allocator : (s.setFlags i t).allocator = s.allocator := rfl
@[simp] theorem setOrders_allocator : (s.setOrders i order).allocator = s.allocator := rfl

theorem setFlags_pd : (s.setFlags i t).pd j =
    if j = i then (s.pd j).setFlags t.flag else s.pd j := rfl
theorem setOrders_pd : (s.setOrders i order).pd j =
    if j = i then (s.pd j).setOrders order else s.pd j := rfl

@[simp] theorem orders_setFlags : ((s.setFlags i t).pd j).orders = (s.pd j).orders :=
  PdTable.field_modify PageDescriptor.orders (by simp) s.pd i j
@[simp] theorem flags_setOrders : ((s.setOrders i order).pd j).flags = (s.pd j).flags :=
  PdTable.field_modify PageDescriptor.flags (by simp) s.pd i j

theorem flags_setFlags : ((s.setFlags i t).pd j).flags =
    if j = i then t.flag else (s.pd j).flags := by
  rw [setFlags_pd]; split <;> simp
theorem orders_setOrders (h : order < 256) : ((s.setOrders i order).pd j).orders =
    if j = i then order else (s.pd j).orders := by
  rw [setOrders_pd]; split <;> simp [PageDescriptor.orders_setOrders, h]

end Mem

def buddyof (ptr order : Nat) : Nat := ptr ^^^ (1 <<< order)

def getPrimary (a b : Nat) : Nat := a &&& b

def splitBlock (L : Layout) (s : Mem) (b : Nat) : Option Mem :=
  let order := (s.pd b).orders
  let buddy := buddyof b (order - 1)
  let s := s.setOrders buddy (order - 1)
  let s := s.setFlags buddy .free
  match ListBase.pushBackNode (freeBlock L) s.pd (s.allocator.freelist (order - 1)) buddy with
  | none => none
  | some r => some ((s.setFreelist (order - 1) r).addCount (order - 1) 1)

/-- `allocateWithOrder`: the block, or `nullptr` as `none`, and the memory after the call. -/
def allocateWithOrder (L : Layout) (s : Mem) (order : Nat) (pt : PageType) :
    Option (Option Nat × Mem) :=
  if maxOrder < order then
    some (none, s)
  else if (s.allocator.freelist order).empty then
    match allocateWithOrder L s (order + 1) .free with
    | none => none
    | some (none, s) => some (none, s)
    | some (some big, s) =>
      match splitBlock L s big with
      | none => none
      | some s => some (some big, (s.setFlags big pt).setOrders big order)
  else
    match (s.allocator.freelist order).head with
    | none => none
    | some ptr =>
      match ListBase.popFrontNode (freeBlock L) s.pd (s.allocator.freelist order) with
      | none => none
      | some r =>
        let s := (s.setFreelist order r).addCount order (-1)
        some (some ptr, (s.setFlags ptr pt).setOrders ptr order)
termination_by maxOrder + 1 - order

/-- A merge of `b` with its free buddy, after `pop_node` and up to `count[order] -= 2`. -/
def countOffPair (s : Mem) (b buddy order : Nat) : Mem :=
  let big := getPrimary b buddy
  let bigbuddy := buddyof big order
  let s := s.setFlags bigbuddy .tails
  let s := s.setOrders big (order + 1)
  s.addCount order (-2)

/-- The merge up to `deallocateBlock(big)`; the block freed was not counted yet. -/
def mergeBuddies (s : Mem) (b buddy order : Nat) : Mem :=
  (countOffPair s b buddy order).addCount order 1

theorem mergeBuddies_orders (s : Mem) (b buddy order : Nat) (h : order < 255) :
    ((mergeBuddies s b buddy order).pd (getPrimary b buddy)).orders = order + 1 := by
  rw [mergeBuddies, countOffPair, Mem.addCount_pd, Mem.addCount_pd,
    Mem.orders_setOrders _ _ _ _ (by omega), if_pos rfl]

/-- `tryMergeAndGet`. The source ends a merge with `deallocateBlock(big)`, which marks `big` free
and calls this function again; the order of the block grows with each call. -/
def tryMergeAndGet (L : Layout) (s : Mem) (b : Nat) : Option Mem :=
  let order := (s.pd b).orders
  let buddy := buddyof b order
  if order < maxOrder ∧ (s.pd buddy).flags = PageType.free.flag ∧ (s.pd buddy).orders = order then
    match ListBase.popNode (freeBlock L) s.pd (s.allocator.freelist order) buddy with
    | none => none
    | some r =>
      let s := mergeBuddies (s.setFreelist order r) b buddy order
      let big := getPrimary b buddy
      tryMergeAndGet L (s.setFlags big .free) big
  else
    match ListBase.pushFrontNode (freeBlock L) s.pd (s.allocator.freelist order) b with
    | none => none
    | some r => some ((s.setFreelist order r).addCount order 1)
termination_by maxOrder - (s.pd b).orders
decreasing_by
  rename_i s0 h
  have ho : (s0.pd b).orders < maxOrder := h.1
  rw [Mem.orders_setFlags, mergeBuddies_orders _ _ _ _ (by simp only [maxOrder] at ho; omega)]
  omega

def deallocateBlock (L : Layout) (s : Mem) (b : Nat) : Option Mem :=
  tryMergeAndGet L (s.setFlags b .free) b

/-- What `makeBuddy` does with a 2 MiB block of usable memory. -/
def insertBlock (L : Layout) (s : Mem) (cur : Nat) : Option Mem :=
  let s := { s with pd := markPages s.pd cur .free maxOrder }
  match ListBase.pushBackNode (freeBlock L) s.pd (s.allocator.freelist maxOrder) cur with
  | none => none
  | some r => some ((s.setFreelist maxOrder r).addCount maxOrder 1)

/-- The allocator before `makeBuddy`, over any contents of the descriptor table. -/
def Mem.start (pd : PdTable) : Mem := ⟨pd, ⟨fun _ => ListBase.new, fun _ => 0⟩⟩

/-- Insert the blocks one after the other. -/
def insertBlocks (L : Layout) : Mem → List Nat → Option Mem
  | s, [] => some s
  | s, h :: hs =>
    match insertBlock L s h with
    | none => none
    | some s => insertBlocks L s hs

/-- `getFreeMemoryBlockCount` of `memory/mm.cpp`. -/
def getFreeMemoryBlockCount (s : Mem) : BitVec 32 := s.allocator.count maxOrder

end Memory
end TorexOS
