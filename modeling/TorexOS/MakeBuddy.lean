import TorexOS.Address
import TorexOS.Buddy
import TorexOS.Lib.Sweep
import TorexOS.ListBaseCorrect
import TorexOS.Memscan

/-!
# TorexOS.MakeBuddy

`makeBuddy` of `memory/mm.cpp`, which fills the buddy allocator from the sorted e820 table.

* `Filling`: the variables of the loop, with what it has marked and pushed so far.
* `makeBuddyRound`: one round, as the source computes it; `makeBuddy`: the loop, for so many rounds.
* `Round`: what a round does. The list operation never fails, so there is always a next round.
* `Walking`, `Halted`, `run_cases`: where the loop is after some rounds. Either it stands at a
  region, or it has stopped at the first address that no region covers, or no address up to the end
  of the address space was uncovered.
-/

namespace TorexOS
namespace Memory

open Util Util.ListBase Sweep

/-- `operator""_MB` -/
def mb (a : Nat) : Nat := a * 1024 * 1024

/-- `begin` up to `end`, `cur_pd`, `start` and `TotalMemoryBlockCount`; `marked` are the descriptors
`mark_pages` was called on, `pushed` the addresses of the blocks put on the free list. -/
structure Filling where
  mem : Mem
  regions : List E820MmapEntry
  curPd : Nat
  start : BitVec 64
  totalMemoryBlockCount : BitVec 32
  marked : List Nat
  pushed : List (BitVec 64)

namespace Filling

/-- The block is marked free and pushed. -/
def pushBlock (L : Layout) (f : Filling) : Option Filling :=
  match insertBlock L f.mem f.curPd with
  | none => none
  | some m => some { f with
      mem := m, marked := f.marked ++ [f.curPd], pushed := f.pushed ++ [f.start] }

/-- The block is marked reserved. -/
def reserveBlock (f : Filling) : Filling :=
  { f with
    mem := { f.mem with pd := markPages f.mem.pd f.curPd .reserved maxOrder }
    marked := f.marked ++ [f.curPd] }

/-- The three increments at the end of both branches. -/
def advance (f : Filling) : Filling :=
  { f with
    curPd := f.curPd + 1 <<< maxOrder
    start := f.start + BitVec.ofNat 64 (mb 2)
    totalMemoryBlockCount := f.totalMemoryBlockCount + 1 }

variable (f : Filling)

@[simp] theorem advance_mem : f.advance.mem = f.mem := rfl
@[simp] theorem advance_regions : f.advance.regions = f.regions := rfl
@[simp] theorem advance_curPd : f.advance.curPd = f.curPd + 512 := rfl
@[simp] theorem advance_start : f.advance.start = f.start + BitVec.ofNat 64 (mb 2) := rfl
@[simp] theorem advance_marked : f.advance.marked = f.marked := rfl
@[simp] theorem advance_pushed : f.advance.pushed = f.pushed := rfl

@[simp] theorem reserveBlock_allocator : f.reserveBlock.mem.allocator = f.mem.allocator := by
  simp only [reserveBlock]
@[simp] theorem reserveBlock_regions : f.reserveBlock.regions = f.regions := by
  simp only [reserveBlock]
@[simp] theorem reserveBlock_curPd : f.reserveBlock.curPd = f.curPd := by
  simp only [reserveBlock]
@[simp] theorem reserveBlock_start : f.reserveBlock.start = f.start := by
  simp only [reserveBlock]
@[simp] theorem reserveBlock_marked : f.reserveBlock.marked = f.marked ++ [f.curPd] := by
  simp only [reserveBlock]
@[simp] theorem reserveBlock_pushed : f.reserveBlock.pushed = f.pushed := by
  simp only [reserveBlock]

end Filling

/-- `while(!(begin == end || begin->range_in(start, start))) begin++;` -/
def skipRegions (start : BitVec 64) (regions : List E820MmapEntry) : List E820MmapEntry :=
  regions.dropWhile fun e => !e.rangeIn start start

/-- One round of the loop; after its `break` no region is left. -/
def makeBuddyRound (L : Layout) (f : Filling) : Option Filling :=
  match f.regions with
  | [] => some f
  | e :: _ =>
    if e.rangeIn f.start (f.start + BitVec.ofNat 64 (mb 2)) then
      if e.type = regionFree then (f.pushBlock L).map Filling.advance
      else some f.reserveBlock.advance
    else
      let f := f.reserveBlock.advance
      some { f with regions := skipRegions f.start f.regions }

def makeBuddyRounds (L : Layout) : Nat → Filling → Option Filling
  | 0, f => some f
  | n + 1, f =>
    match makeBuddyRounds L n f with
    | none => none
    | some f => makeBuddyRound L f

/-- The variables before the loop; `none` is `panic("corrupt e820 map!")`. -/
def makeBuddyStart (m : Mem) (total : BitVec 32) (es : List E820MmapEntry) (start : BitVec 64) :
    Option Filling :=
  match skipRegions start es with
  | [] => none
  | e :: rest => some ⟨m, e :: rest, start.toNat / smallestPageSize, start, total, [], []⟩

/-- `makeBuddy`, up to so many rounds of its loop. -/
def makeBuddy (L : Layout) (m : Mem) (total : BitVec 32) (es : List E820MmapEntry)
    (start : BitVec 64) (rounds : Nat) : Option Filling :=
  match makeBuddyStart m total es start with
  | none => none
  | some f => makeBuddyRounds L rounds f

/-! ## The map -/

/-- The byte is in the region. -/
def E820MmapEntry.Covers (e : E820MmapEntry) (x : Nat) : Prop :=
  e.base.toNat ≤ x ∧ x < e.base.toNat + e.length.toNat

/-- A map sorted by base whose regions do not overlap. -/
structure SortedMap (es : List E820MmapEntry) : Prop where
  sorted : es.Pairwise fun a b => a.base ≤ b.base
  apart : es.Pairwise fun a b => ∀ x, ¬ (a.Covers x ∧ b.Covers x)

/-- `range_in(x, x)`, at the level of addresses. -/
def E820MmapEntry.holds (e : E820MmapEntry) (x : Nat) : Bool :=
  e.base.toNat ≤ x && x < (e.base + e.length).toNat

section Map

variable {d e : E820MmapEntry} {es : List E820MmapEntry} {f l : BitVec 64} {x : Nat}

theorem rangeIn_iff : e.rangeIn f l = true ↔
    e.base.toNat ≤ f.toNat ∧ l.toNat < (e.base + e.length).toNat := by
  simp only [E820MmapEntry.rangeIn, Bool.and_eq_true, decide_eq_true_eq, BitVec.le_def,
    BitVec.lt_def]

theorem rangeIn_self (e : E820MmapEntry) (f : BitVec 64) : e.rangeIn f f = e.holds f.toNat := by
  rw [Bool.eq_iff_iff, rangeIn_iff, E820MmapEntry.holds, Bool.and_eq_true, decide_eq_true_eq,
    decide_eq_true_eq]

theorem skipRegions_eq (f : BitVec 64) (es : List E820MmapEntry) :
    skipRegions f es = skip E820MmapEntry.holds f.toNat es := by
  simp only [skipRegions, skip, rangeIn_self]

theorem holds_iff : e.holds x = true ↔
    e.base.toNat ≤ x ∧ x < (e.base.toNat + e.length.toNat) % 2 ^ 64 := by
  simp only [E820MmapEntry.holds, Bool.and_eq_true, decide_eq_true_eq, BitVec.toNat_add]

theorem E820MmapEntry.Covers.of_holds (h : e.holds x = true) : e.Covers x := by
  rw [holds_iff] at h
  exact ⟨h.1, by omega⟩

/-- `base + length` does not wrap. -/
theorem holds_iff_covers (hfit : e.base.toNat + e.length.toNat < 2 ^ 64) :
    e.holds x = true ↔ e.Covers x := by
  rw [holds_iff, Nat.mod_eq_of_lt hfit, E820MmapEntry.Covers]

instance (e : E820MmapEntry) (x : Nat) : Decidable (e.Covers x) := by
  unfold E820MmapEntry.Covers; infer_instance

/-- In a sorted map without overlaps the regions are one above the other. -/
theorem SortedMap.ordered_covers (h : SortedMap es) : Ordered (fun e x => decide (e.Covers x)) es := by
  refine (h.sorted.and h.apart).imp ?_
  intro a b hab x y hx hy
  obtain ⟨hle, hno⟩ := hab
  have hx := of_decide_eq_true hx
  have hy := of_decide_eq_true hy
  simp only [E820MmapEntry.Covers, BitVec.le_def] at hx hy hle
  by_contra hlt
  exact hno b.base.toNat ⟨⟨hle, by omega⟩, ⟨le_refl _, by omega⟩⟩

theorem SortedMap.ordered (h : SortedMap es) : Ordered E820MmapEntry.holds es :=
  h.ordered_covers.imp fun hab x y hx hy => hab x y
    (decide_eq_true (E820MmapEntry.Covers.of_holds hx))
    (decide_eq_true (E820MmapEntry.Covers.of_holds hy))

theorem SortedMap.covers_unique (h : SortedMap es) (hd : d ∈ es) (he : e ∈ es) (hdx : d.Covers x)
    (hex : e.Covers x) : d = e :=
  h.ordered_covers.unique hd he (decide_eq_true hdx) (decide_eq_true hex)

end Map

/-! ## One round -/

/-- Both ends of the free list of 2 MiB blocks are null or neither is. -/
def EndsAgree (m : Mem) : Prop :=
  (m.allocator.freelist maxOrder).head = none ↔ (m.allocator.freelist maxOrder).tail = none

theorem pushBackNode_ends {M N : Type} [DecidableEq N] (T : NodeTrait M N) (m : M) {l : ListBase N}
    (h : l.head = none ↔ l.tail = none) (a : N) :
    ∃ r, pushBackNode T m l a = some r ∧ r.2.head ≠ none ∧ r.2.tail ≠ none := by
  rw [pushBackNode]
  by_cases hemp : l.empty = true
  · rw [if_pos hemp]
    exact ⟨_, rfl, by simp, by simp⟩
  · have hne : l.head ≠ none := by simpa [ListBase.empty] using hemp
    rw [if_neg hemp]
    cases ht : l.tail with
    | none => exact absurd (h.mpr ht) hne
    | some t => exact ⟨_, rfl, hne, by simp⟩

theorem insertBlock_ends {L : Layout} {m : Mem} (h : EndsAgree m) (cur : Nat) :
    ∃ m', insertBlock L m cur = some m' ∧ EndsAgree m' ∧
      m'.allocator.count maxOrder = m.allocator.count maxOrder + 1 := by
  obtain ⟨r, hr, hhead, htail⟩ := pushBackNode_ends (freeBlock L)
    (markPages m.pd cur .free maxOrder) h cur
  refine ⟨_, by simp only [insertBlock]; rw [hr], ?_, ?_⟩
  · simp [EndsAgree, hhead, htail]
  · simp

/-- What one round does at the region `e`. -/
structure Round (e : E820MmapEntry) (rest : List E820MmapEntry) (f f' : Filling) : Prop where
  ends : EndsAgree f'.mem
  start : f'.start = f.start + BitVec.ofNat 64 (mb 2)
  curPd : f'.curPd = f.curPd + 512
  marked : f'.marked = f.marked ++ [f.curPd]
  pushed : f'.pushed = f.pushed ++
    if e.type = regionFree ∧ e.rangeIn f.start (f.start + BitVec.ofNat 64 (mb 2)) then [f.start]
    else []
  count : f'.mem.allocator.count maxOrder = f.mem.allocator.count maxOrder +
    BitVec.ofNat 32 (f'.pushed.length - f.pushed.length)
  regions : f'.regions = if e.rangeIn f.start (f.start + BitVec.ofNat 64 (mb 2)) then e :: rest
    else skipRegions f'.start (e :: rest)

theorem makeBuddyRound_spec {L : Layout} {f : Filling} {e : E820MmapEntry}
    {rest : List E820MmapEntry} (hends : EndsAgree f.mem) (hr : f.regions = e :: rest) :
    ∃ f', makeBuddyRound L f = some f' ∧ Round e rest f f' := by
  have hreserve : EndsAgree f.reserveBlock.advance.mem := by
    rw [EndsAgree, Filling.advance_mem, Filling.reserveBlock_allocator]
    exact hends
  simp only [makeBuddyRound, hr]
  by_cases hin : e.rangeIn f.start (f.start + BitVec.ofNat 64 (mb 2)) = true
  · by_cases hfree : e.type = regionFree
    · obtain ⟨m, hm, hme, hcount⟩ := insertBlock_ends (L := L) hends f.curPd
      have hp : f.pushBlock L = some { f with
          mem := m, marked := f.marked ++ [f.curPd], pushed := f.pushed ++ [f.start] } := by
        rw [Filling.pushBlock, hm]
      refine ⟨_, by rw [if_pos hin, if_pos hfree, hp]; rfl, ?_⟩
      exact {
        ends := hme
        start := rfl
        curPd := rfl
        marked := rfl
        pushed := by simp [hin, hfree]
        count := by simp [hcount]
        regions := by simp [hin, hr] }
    · refine ⟨_, by rw [if_pos hin, if_neg hfree], ?_⟩
      exact {
        ends := hreserve
        start := by simp
        curPd := by simp
        marked := by simp
        pushed := by simp [hfree]
        count := by simp
        regions := by simp [hin, hr] }
  · refine ⟨_, by rw [if_neg hin], ?_⟩
    exact {
      ends := hreserve
      start := by simp
      curPd := by simp
      marked := by simp
      pushed := by simp [hin]
      count := by simp
      regions := by simp [hin, hr] }

end Memory
end TorexOS
