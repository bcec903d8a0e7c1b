import Mathlib.Algebra.Group.Nat.Defs
import TorexOS.Sort

/-!
# TorexOS.Memscan

The system address map as the kernel reads it, `memory/memscan.h`.

Memory is read in double words at addresses that are multiples of four. An entry is six of them. The
count before the table is a `uint32_t` where the bootloader writes it and a `size_t` where the kernel
reads it, so the kernel's upper half is the first double word of the table.
-/

namespace TorexOS
namespace Memory

open Util

/-- The double words of memory, by address. -/
abbrev Dwords := Nat → BitVec 32

def systemAddressMapSize : Nat := 0x610 - 4
def systemAddressMap : Nat := systemAddressMapSize + 4
def systemAddressMapEnd : Nat := 0x1800

structure E820MmapEntry where
  base : BitVec 64
  length : BitVec 64
  type : BitVec 32
  reserved : BitVec 32
  deriving DecidableEq

/-- `RegionType::Free` -/
def regionFree : BitVec 32 := 1

/-- `range_in`; the sum wraps. -/
def E820MmapEntry.rangeIn (e : E820MmapEntry) (f l : BitVec 64) : Bool :=
  e.base ≤ f && l < e.base + e.length

/-- The entry that starts at an address. -/
def readEntry (m : Dwords) (a : Nat) : E820MmapEntry where
  base := m (a + 4) ++ m a
  length := m (a + 12) ++ m (a + 8)
  type := m (a + 16)
  reserved := m (a + 20)

/-- Six stores. -/
def writeEntry (m : Dwords) (a : Nat) (e : E820MmapEntry) : Dwords := fun x =>
  if x = a then e.base.extractLsb' 0 32
  else if x = a + 4 then e.base.extractLsb' 32 32
  else if x = a + 8 then e.length.extractLsb' 0 32
  else if x = a + 12 then e.length.extractLsb' 32 32
  else if x = a + 16 then e.type
  else if x = a + 20 then e.reserved
  else m x

/-- `e820_mmap_entry_count()` -/
def e820MmapEntryCount (m : Dwords) : BitVec 64 :=
  m (systemAddressMapSize + 4) ++ m systemAddressMapSize

/-- `e820_mmap_entry()[i]` -/
def e820MmapEntry (m : Dwords) (i : Nat) : E820MmapEntry := readEntry m (systemAddressMap + 24 * i)

/-- The entries the kernel sees. -/
def e820Entries (m : Dwords) : List E820MmapEntry :=
  slice (e820MmapEntry m) 0 (e820MmapEntryCount m).toNat

/-- Store the first `n` entries. -/
def writeEntries (m : Dwords) (es : Nat → E820MmapEntry) : Nat → Dwords
  | 0 => m
  | n + 1 => writeEntry (writeEntries m es n) (systemAddressMap + 24 * n) (es n)

/-- The sort at the start of `memory::init`, `end` being `begin + e820_mmap_entry_count()`. -/
def sortEntries (m : Dwords) : Dwords :=
  let n := (e820MmapEntryCount m).toNat
  writeEntries m (insertionSort (fun a b => decide (a.base < b.base)) (e820MmapEntry m) 0 n) n

section Entry

variable {m : Dwords} {es : Nat → E820MmapEntry} {a b n i : Nat} {e : E820MmapEntry}

@[simp] theorem readEntry_writeEntry (m : Dwords) (a : Nat) (e : E820MmapEntry) :
    readEntry (writeEntry m a e) a = e := by
  cases e with
  | mk base length type reserved =>
    have hb : base.extractLsb' 32 32 ++ base.extractLsb' 0 32 = base :=
      BitVec.extractLsb'_append_extractLsb'
    have hl : length.extractLsb' 32 32 ++ length.extractLsb' 0 32 = length :=
      BitVec.extractLsb'_append_extractLsb'
    simp [readEntry, writeEntry, hb, hl]

/-- A store is within the 24 bytes of its entry. -/
theorem writeEntry_of_outside {x : Nat} (h : x < a ∨ a + 24 ≤ x) : writeEntry m a e x = m x := by
  have h0 : x ≠ a := by omega
  have h1 : x ≠ a + 4 := by omega
  have h2 : x ≠ a + 8 := by omega
  have h3 : x ≠ a + 12 := by omega
  have h4 : x ≠ a + 16 := by omega
  have h5 : x ≠ a + 20 := by omega
  simp [writeEntry, h0, h1, h2, h3, h4, h5]

theorem readEntry_congr {m' : Dwords} (h : ∀ x, a ≤ x → x < a + 24 → m' x = m x) :
    readEntry m' a = readEntry m a := by
  simp only [readEntry]
  rw [h a (by omega) (by omega), h (a + 4) (by omega) (by omega), h (a + 8) (by omega) (by omega),
    h (a + 12) (by omega) (by omega), h (a + 16) (by omega) (by omega),
    h (a + 20) (by omega) (by omega)]

theorem readEntry_writeEntry_of_apart (h : b + 24 ≤ a ∨ a + 24 ≤ b) :
    readEntry (writeEntry m a e) b = readEntry m b :=
  readEntry_congr fun x hx hx' => writeEntry_of_outside (by omega)

theorem writeEntries_of_outside {x : Nat}
    (h : x < systemAddressMap ∨ systemAddressMap + 24 * n ≤ x) : writeEntries m es n x = m x := by
  induction n with
  | zero => rfl
  | succ n ih => rw [writeEntries, writeEntry_of_outside (by omega), ih (by omega)]

/-- The entries stored are the entries read. -/
theorem e820MmapEntry_writeEntries (hi : i < n) : e820MmapEntry (writeEntries m es n) i = es i := by
  induction n with
  | zero => omega
  | succ n ih =>
    rw [writeEntries, e820MmapEntry]
    by_cases hin : i = n
    · rw [hin, readEntry_writeEntry]
    · rw [readEntry_writeEntry_of_apart (by omega)]
      exact ih (by omega)

/-- The first double word of the table is the lower half of the first base. -/
theorem e820MmapEntry_base_low (m : Dwords) :
    (e820MmapEntry m 0).base.extractLsb' 0 32 = m systemAddressMap := by
  simp only [e820MmapEntry, readEntry, Nat.mul_zero, Nat.add_zero]
  rw [BitVec.extractLsb'_append_eq_of_add_le (by omega)]
  exact BitVec.extractLsb'_eq_self

/-- The kernel's count is a small number exactly when the bootloader's is and the first base has
no low bits. -/
theorem e820MmapEntryCount_eq {m : Dwords} {n : Nat} (hn : n < 2 ^ 32) :
    (e820MmapEntryCount m).toNat = n ↔
      (m systemAddressMapSize).toNat = n ∧ m systemAddressMap = 0 := by
  have hlo := (m systemAddressMapSize).isLt
  have heq : (e820MmapEntryCount m).toNat =
      (m systemAddressMap).toNat * 2 ^ 32 + (m systemAddressMapSize).toNat := by
    rw [e820MmapEntryCount, BitVec.toNat_append, ← Nat.shiftLeft_add_eq_or_of_lt hlo,
      Nat.shiftLeft_eq]
    rfl
  rw [heq]
  constructor
  · intro h
    have hz : (m systemAddressMap).toNat = 0 := by omega
    exact ⟨by omega, BitVec.eq_of_toNat_eq hz⟩
  · intro h
    rw [h.2, h.1]
    simp

/-- The comparison of `memory::init`. -/
theorem base_strictWeak :
    StrictWeak fun a b : E820MmapEntry => decide (a.base < b.base) where
  asymm a b h := by
    simp only [decide_eq_true_eq, decide_eq_false_iff_not, BitVec.lt_def] at h ⊢
    omega
  negTrans a b c h₁ h₂ := by
    simp only [decide_eq_false_iff_not, BitVec.lt_def] at h₁ h₂ ⊢
    omega

end Entry

end Memory
end TorexOS
