import TorexOS.Address
import TorexOS.Lib.Packed

/-!
# TorexOS.PageTable

The page tables of `arch/pagetable.h`, and how the processor reads them.

* `Words`: the 64-bit words of the physical memory, at their kernel addresses.
* `PageDirectoryEntry2MB`, `PageDirectoryPointerEntry`, `PageMapLevel4`: the fields the kernel sets,
  with the other bits of the entry as they were.
* `walk`: the processor's walk from `cr3` to a 2 MiB page. Physical addresses have 40 bits, as the
  fields of the structures have them, and the kernel does not set `EFER.NXE`, so the bits named
  `reserved1` (with `PS` in the upper levels), `reserved2` and `EXB` have to be clear.
-/

namespace TorexOS
namespace Memory

open Packed

/-- The words of memory, by kernel address. -/
abbrev Words := Nat → BitVec 64

/-- One entry, a packed record of 64 bits. -/
abbrev PageEntry := BitVec 64

namespace PageEntry

variable (e : PageEntry)

def setPresent (b : BitVec 1) : PageEntry := store e 0 b
def setRW (b : BitVec 1) : PageEntry := store e 1 b
def setPS (b : BitVec 1) : PageEntry := store e 7 b

def present : Bool := load e 0 1 = 1
def rw : Bool := load e 1 1 = 1
def ps : Bool := load e 7 1 = 1

/-- `reserved2` and `EXB` -/
def highClear : Bool := load e 40 12 = 0 && load e 63 1 = 0

end PageEntry

/-- `PageDirectoryEntry2MB::pointTo`: `base` has 19 bits at bit 21. -/
def PageDirectoryEntry2MB.pointTo (e : PageEntry) (ptr : Nat) : PageEntry :=
  store e 21 (BitVec.ofNat 19 (ptr >>> 21))

/-- A table's address in an entry of the levels above: `base` has 28 bits at bit 12. -/
def PageEntry.pointToTable (e : PageEntry) (b : Nat) : PageEntry :=
  store e 12 (BitVec.ofNat 28 (b >>> 12))

def PageDirectoryPointerEntry.pointTo (e : PageEntry) (b : Nat) : PageEntry := e.pointToTable b
def PageMapLevel4.pointTo (e : PageEntry) (b : Nat) : PageEntry := e.pointToTable b

/-- What a walk ends with. -/
structure Mapping where
  base : Nat
  writable : Bool
  deriving DecidableEq

/-- The bits of an upper entry that the kernel does not write and the processor looks at. -/
def TableClean (e : PageEntry) : Bool := !e.ps && e.highClear

/-- Those of an entry for a 2 MiB page: `reserved1` is at bit 13. -/
def LeafClean (e : PageEntry) : Bool := load e 13 8 = 0 && e.highClear

/-- The table an upper entry points to. -/
def nextTable (e : PageEntry) : Option Nat :=
  if e.present && TableClean e then some ((load e 12 28).toNat * 4096) else none

/-- The 2 MiB page an entry maps. -/
def leaf (e : PageEntry) : Option Mapping :=
  if e.present && e.ps && LeafClean e then some ⟨(load e 21 19).toNat * 2 ^ 21, e.rw⟩ else none

/-- The walk for the virtual address `va`. The page is writable when all three entries say so. -/
def walk (m : Words) (cr3 va : Nat) : Option Mapping :=
  let pgd : PageEntry := m (toKer (cr3 + 8 * (va / 2 ^ 39 % 512)))
  match nextTable pgd with
  | none => none
  | some table =>
    let pud : PageEntry := m (toKer (table + 8 * (va / 2 ^ 30 % 512)))
    match nextTable pud with
    | none => none
    | some table =>
      match leaf (m (toKer (table + 8 * (va / 2 ^ 21 % 512)))) with
      | none => none
      | some p => some ⟨p.base, pgd.rw && pud.rw && p.writable⟩

/-- The entry of a page: `pointTo`, `Present`, `RW` and `PS`. -/
def mapPage (e : PageEntry) (addr : Nat) : PageEntry :=
  (((PageDirectoryEntry2MB.pointTo e addr).setPresent 1).setRW 1).setPS 1

/-- The entry of a table: its `pointTo`, `Present` and `RW`. -/
def mapTable (pointTo : PageEntry → Nat → PageEntry) (e : PageEntry) (b : Nat) : PageEntry :=
  ((pointTo e b).setPresent 1).setRW 1

section Entry

variable (e : PageEntry) (a : Nat)

/-- The fields of an entry for a page that the kernel does not write. -/
theorem load_mapPage {off len : Nat} (h : off + len ≤ 21 ∧ 8 ≤ off ∨ 40 ≤ off) :
    load (mapPage e a) off len = load e off len := by
  rw [mapPage, PageEntry.setPS, PageEntry.setRW, PageEntry.setPresent,
    PageDirectoryEntry2MB.pointTo, load_store_ne _ _ (by omega) (by omega),
    load_store_ne _ _ (by omega) (by omega), load_store_ne _ _ (by omega) (by omega),
    load_store_ne _ _ (by omega) (by omega)]

/-- The fields of an entry for a table that the kernel does not write. -/
theorem load_mapTable {off len : Nat} (h : off + len ≤ 12 ∧ 2 ≤ off ∨ 40 ≤ off) :
    load (mapTable PageEntry.pointToTable e a) off len = load e off len := by
  rw [mapTable, PageEntry.setRW, PageEntry.setPresent, PageEntry.pointToTable,
    load_store_ne _ _ (by omega) (by omega), load_store_ne _ _ (by omega) (by omega),
    load_store_ne _ _ (by omega) (by omega)]

/-- A page entry just written maps its page when the other bits are clear. -/
theorem leaf_mapPage : leaf (mapPage e a) =
    if LeafClean e then some ⟨a / 2 ^ 21 % 2 ^ 19 * 2 ^ 21, true⟩ else none := by
  have hpres : (mapPage e a).present = true := by
    rw [PageEntry.present, mapPage, PageEntry.setPS, PageEntry.setRW, PageEntry.setPresent,
      load_store_ne _ _ (by omega) (by omega), load_store_ne _ _ (by omega) (by omega),
      load_store _ _ (by omega)]
    rfl
  have hrw : (mapPage e a).rw = true := by
    rw [PageEntry.rw, mapPage, PageEntry.setPS, PageEntry.setRW,
      load_store_ne _ _ (by omega) (by omega), load_store _ _ (by omega)]
    rfl
  have hps : (mapPage e a).ps = true := by
    rw [PageEntry.ps, mapPage, PageEntry.setPS, load_store _ _ (by omega)]
    rfl
  have hbase : load (mapPage e a) 21 19 = BitVec.ofNat 19 (a >>> 21) := by
    rw [mapPage, PageEntry.setPS, PageEntry.setRW, PageEntry.setPresent,
      PageDirectoryEntry2MB.pointTo, load_store_ne _ _ (by omega) (by omega),
      load_store_ne _ _ (by omega) (by omega), load_store_ne _ _ (by omega) (by omega),
      load_store _ _ (by omega)]
  have hclean : LeafClean (mapPage e a) = LeafClean e := by
    simp only [LeafClean, PageEntry.highClear]
    rw [load_mapPage e a (by omega), load_mapPage e a (by omega), load_mapPage e a (by omega)]
  rw [leaf, hpres, hrw, hps, hbase, hclean, BitVec.toNat_ofNat, Nat.shiftRight_eq_div_pow]
  rfl

theorem ps_mapTable : (mapTable PageEntry.pointToTable e a).ps = e.ps := by
  rw [PageEntry.ps, PageEntry.ps, load_mapTable e a (by omega)]

/-- A table entry just written points to its table when the other bits are clear. -/
theorem nextTable_mapTable : nextTable (mapTable PageEntry.pointToTable e a) =
    if TableClean e then some (a / 4096 % 2 ^ 28 * 4096) else none := by
  have hpres : (mapTable PageEntry.pointToTable e a).present = true := by
    rw [PageEntry.present, mapTable, PageEntry.setRW, PageEntry.setPresent,
      load_store_ne _ _ (by omega) (by omega), load_store _ _ (by omega)]
    rfl
  have hbase : load (mapTable PageEntry.pointToTable e a) 12 28 = BitVec.ofNat 28 (a >>> 12) := by
    rw [mapTable, PageEntry.setRW, PageEntry.setPresent, PageEntry.pointToTable,
      load_store_ne _ _ (by omega) (by omega), load_store_ne _ _ (by omega) (by omega),
      load_store _ _ (by omega)]
  have hclean : TableClean (mapTable PageEntry.pointToTable e a) = TableClean e := by
    rw [TableClean, TableClean, ps_mapTable, PageEntry.highClear, PageEntry.highClear,
      load_mapTable e a (by omega), load_mapTable e a (by omega)]
  rw [nextTable, hpres, hbase, hclean, BitVec.toNat_ofNat, Nat.shiftRight_eq_div_pow]
  rfl

/-- And it maps no page. -/
theorem leaf_mapTable (h : TableClean e = true) :
    leaf (mapTable PageEntry.pointToTable e a) = none := by
  have hps : e.ps = false := by
    rw [TableClean, Bool.and_eq_true, Bool.not_eq_true'] at h
    exact h.1
  rw [leaf, ps_mapTable, hps, Bool.and_false, Bool.false_and]
  rfl

theorem rw_mapTable (pointTo : PageEntry → Nat → PageEntry) : (mapTable pointTo e a).rw = true := by
  rw [PageEntry.rw, mapTable, PageEntry.setRW, load_store _ _ (by omega)]
  rfl

end Entry
end Memory
end TorexOS
