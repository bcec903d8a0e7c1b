import Mathlib.Tactic.Ring
import TorexOS.Memscan

/-!
# TorexOS.CheckMemory

`CheckMemoryEnough` of `stage2.s`: is there usable memory up to `0x03fe0000`?

* `checkEntry`, `checkLoop`: the instructions between the labels, on the table that
  `system_address_map_size` bytes of memory hold.
* `checkEntry_iff`: the sum and the comparison in halves are those of the 64-bit fields.
* `enough_memory_iff`: the loop ends, and at `.enoughMemory` exactly when an entry of type 1 ends there
  or above.
-/

namespace TorexOS
namespace Memory

/-- `add`, with the carry flag. -/
def add32 (a b : BitVec 32) : BitVec 32 × Bool := (a + b, decide (2 ^ 32 ≤ a.toNat + b.toNat))

/-- `adc` -/
def adc32 (a b : BitVec 32) (cf : Bool) : BitVec 32 := a + b + if cf then 1 else 0

def memoryNeeded : BitVec 32 := 0x03fe0000

/-- From `.lp` to `.nextlp`: is `.enoughMemory` reached? -/
def checkEntry (m : Dwords) (edi : BitVec 32) : Bool :=
  let eax := m (edi + 16).toNat
  if eax ≠ 1 then false
  else
    let eax := m edi.toNat
    let (eax, cf) := add32 eax (m (edi + 8).toNat)
    -- `mov` leaves the carry flag alone
    let ebx := m (edi + 4).toNat
    let ebx := adc32 ebx (m (edi + 12).toNat) cf
    if ebx &&& ebx ≠ 0 then true else memoryNeeded ≤ eax

inductive CheckEnd where
  | failed
  | enoughMemory
  deriving DecidableEq

/-- `.lp`, with the end of the table in `ecx`. -/
def checkLoop (m : Dwords) (ecx : BitVec 32) : Nat → BitVec 32 → Option CheckEnd
  | 0, _ => none
  | fuel + 1, edi =>
    if checkEntry m edi then some .enoughMemory
    else
      let edi := edi + 24
      if edi < ecx then checkLoop m ecx fuel edi else some .failed

def checkMemoryEnough (m : Dwords) (fuel : Nat) : Option CheckEnd :=
  let edi := BitVec.ofNat 32 systemAddressMap
  let ecx := m systemAddressMapSize
  let ecx := ecx + edi
  checkLoop m ecx fuel edi

/-- A table of `n` entries, one or more, the last of which ends where an address can say. -/
structure HoldsTable (m : Dwords) (n : Nat) : Prop where
  size : m systemAddressMapSize = BitVec.ofNat 32 (24 * n)
  pos : 1 ≤ n
  fits : systemAddressMap + 24 * n < 2 ^ 32

/-- `base + length` -/
def E820MmapEntry.endNat (e : E820MmapEntry) : Nat := e.base.toNat + e.length.toNat

/-- The entry is usable and has memory up to what is needed. -/
def E820MmapEntry.Enough (e : E820MmapEntry) : Prop := e.type = 1 ∧ 0x03fe0000 ≤ e.endNat

section Entry

variable {m : Dwords} {a : Nat}

theorem toNat_halves (hi lo : BitVec 32) : (hi ++ lo).toNat = hi.toNat * 2 ^ 32 + lo.toNat := by
  rw [BitVec.toNat_append, ← Nat.shiftLeft_add_eq_or_of_lt lo.isLt, Nat.shiftLeft_eq]

/-- `add` and `adc` on the halves give the sum of the whole numbers. -/
theorem adc32_add32 (lo lo' hi hi' : BitVec 32) {x : Nat}
    (hx : (hi ++ lo).toNat + (hi' ++ lo').toNat = x) (hlt : x < 2 ^ 64) :
    (adc32 hi hi' (add32 lo lo').2).toNat * 2 ^ 32 + (add32 lo lo').1.toNat = x := by
  rw [toNat_halves, toNat_halves] at hx
  have h1 := lo.isLt
  have h2 := lo'.isLt
  have h3 := hi.isLt
  have h4 := hi'.isLt
  have hlow : (add32 lo lo').1.toNat = (lo.toNat + lo'.toNat) % 2 ^ 32 := BitVec.toNat_add _ _
  rw [hlow, adc32, BitVec.toNat_add, BitVec.toNat_add]
  by_cases hc : 2 ^ 32 ≤ lo.toNat + lo'.toNat
  · have hcf : (add32 lo lo').2 = true := decide_eq_true hc
    have hsum : hi.toNat + hi'.toNat + 1 < 2 ^ 32 := by omega
    rw [if_pos hcf, show (1 : BitVec 32).toNat = 1 from rfl, Nat.mod_eq_sub_mod hc,
      Nat.mod_eq_of_lt (Nat.lt_of_succ_lt hsum), Nat.mod_eq_of_lt hsum,
      Nat.mod_eq_of_lt (by omega)]
    omega
  · have hcf : (add32 lo lo').2 = false := decide_eq_false hc
    have hsum : hi.toNat + hi'.toNat < 2 ^ 32 := by omega
    rw [if_neg (Bool.eq_false_iff.mp hcf), show (0 : BitVec 32).toNat = 0 from rfl, Nat.add_zero,
      Nat.mod_eq_of_lt hsum, Nat.mod_eq_of_lt hsum, Nat.mod_eq_of_lt (by omega), ← hx]
    ring

theorem toNat_field {k : Nat} (h : a + k < 2 ^ 32) :
    (BitVec.ofNat 32 a + BitVec.ofNat 32 k).toNat = a + k := by
  rw [← BitVec.ofNat_add, BitVec.toNat_ofNat]
  exact Nat.mod_eq_of_lt h

/-- One pass: the entry at `a`, read in double words. -/
theorem checkEntry_iff (ha : a + 24 < 2 ^ 32) (he : (readEntry m a).endNat < 2 ^ 64) :
    checkEntry m (BitVec.ofNat 32 a) = true ↔ (readEntry m a).Enough := by
  have h0 : (BitVec.ofNat 32 a).toNat = a := by
    rw [BitVec.toNat_ofNat]
    omega
  have hsum := adc32_add32 (m a) (m (a + 8)) (m (a + 4)) (m (a + 12))
    (rfl : _ = (readEntry m a).endNat) he
  have h16 : (BitVec.ofNat 32 a + 16).toNat = a + 16 := toNat_field (k := 16) (by omega)
  have h8 : (BitVec.ofNat 32 a + 8).toNat = a + 8 := toNat_field (k := 8) (by omega)
  have h4 : (BitVec.ofNat 32 a + 4).toNat = a + 4 := toNat_field (k := 4) (by omega)
  have h12 : (BitVec.ofNat 32 a + 12).toNat = a + 12 := toNat_field (k := 12) (by omega)
  simp only [checkEntry, h0, h16, h8, h4, h12, BitVec.and_self]
  rw [E820MmapEntry.Enough, show (readEntry m a).type = m (a + 16) from rfl]
  by_cases ht : m (a + 16) = 1
  · rw [if_neg (not_not.mpr ht), ← hsum]
    generalize adc32 (m (a + 4)) (m (a + 12)) (add32 (m a) (m (a + 8))).2 = ebx
    generalize (add32 (m a) (m (a + 8))).1 = eax
    have hneed : memoryNeeded.toNat = 0x03fe0000 := by decide
    by_cases hb : ebx = 0
    · subst hb
      rw [if_neg (not_not.mpr rfl), decide_eq_true_eq, BitVec.le_def, hneed]
      simp [ht]
    · -- a high half that is not zero is 2^32 or more
      have hpos : ebx.toNat ≠ 0 := fun h => hb (BitVec.eq_of_toNat_eq h)
      rw [if_pos hb]
      exact iff_of_true rfl ⟨ht, by omega⟩
  · rw [if_pos ht]
    exact iff_of_false Bool.false_ne_true fun h => ht h.1

end Entry

section Loop

variable {m : Dwords} {n : Nat}

/-- The address of an entry, and the end of the table. -/
def entryAddr (j : Nat) : BitVec 32 := BitVec.ofNat 32 (systemAddressMap + 24 * j)

theorem entryAddr_succ (j : Nat) : entryAddr j + 24 = entryAddr (j + 1) := by
  rw [entryAddr, entryAddr, show (24 : BitVec 32) = BitVec.ofNat 32 24 from rfl, ← BitVec.ofNat_add]
  rfl

theorem HoldsTable.addr_lt (h : HoldsTable m n) {j : Nat} (hj : j ≤ n) :
    systemAddressMap + 24 * j < 2 ^ 32 :=
  Nat.lt_of_le_of_lt (Nat.add_le_add_left (Nat.mul_le_mul_left _ hj) _) h.fits

theorem HoldsTable.entryAddr_lt_iff (h : HoldsTable m n) {j : Nat} (hj : j ≤ n) :
    entryAddr j < entryAddr n ↔ j < n := by
  rw [BitVec.lt_def, entryAddr, entryAddr, BitVec.toNat_ofNat, BitVec.toNat_ofNat,
    Nat.mod_eq_of_lt (h.addr_lt hj), Nat.mod_eq_of_lt (h.addr_lt (Nat.le_refl n))]
  omega

/-- The loop looks at the entries from the current one to the last. By induction on its fuel. -/
theorem HoldsTable.checkLoop_sound (h : HoldsTable m n)
    (hends : ∀ i, i < n → (e820MmapEntry m i).endNat < 2 ^ 64) :
    ∀ {fuel j : Nat} {r : CheckEnd}, j < n → checkLoop m (entryAddr n) fuel (entryAddr j) = some r →
      (r = .enoughMemory ↔ ∃ i, j ≤ i ∧ i < n ∧ (e820MmapEntry m i).Enough) := by
  intro fuel
  induction fuel with
  | zero => intro j r _ hr; cases hr
  | succ fuel ih =>
    intro j r hj hr
    have hentry : checkEntry m (entryAddr j) = true ↔ (e820MmapEntry m j).Enough := by
      have hlt := h.addr_lt (Nat.succ_le_of_lt hj)
      exact checkEntry_iff (by omega) (hends j hj)
    have hnext := h.entryAddr_lt_iff (Nat.succ_le_of_lt hj)
    rw [checkLoop] at hr
    simp only [entryAddr_succ] at hr
    by_cases hc : checkEntry m (entryAddr j) = true
    · rw [if_pos hc, Option.some.injEq] at hr
      exact iff_of_true hr.symm ⟨j, Nat.le_refl j, hj, hentry.mp hc⟩
    · rw [if_neg hc] at hr
      by_cases hlast : j + 1 < n
      · rw [if_pos (hnext.mpr hlast)] at hr
        rw [ih hlast hr]
        constructor
        · rintro ⟨i, hji, hin, he⟩
          exact ⟨i, by omega, hin, he⟩
        · rintro ⟨i, hji, hin, he⟩
          have hne : j ≠ i := by
            rintro rfl
            exact hc (hentry.mpr he)
          exact ⟨i, by omega, hin, he⟩
      · rw [if_neg (mt hnext.mp hlast), Option.some.injEq] at hr
        refine iff_of_false (by rw [← hr]; decide) ?_
        rintro ⟨i, hji, hin, he⟩
        obtain rfl : j = i := by omega
        exact hc (hentry.mpr he)

theorem HoldsTable.checkLoop_ends (h : HoldsTable m n) (fuel : Nat) :
    ∀ {j : Nat}, j < n → n ≤ j + fuel →
      ∃ r, checkLoop m (entryAddr n) fuel (entryAddr j) = some r := by
  induction fuel with
  | zero => intro j hj hf; omega
  | succ fuel ih =>
    intro j hj hf
    rw [checkLoop]
    simp only [entryAddr_succ]
    split
    · exact ⟨_, rfl⟩
    · split
      · rename_i hlt
        exact ih ((h.entryAddr_lt_iff (Nat.succ_le_of_lt hj)).mp hlt) (by omega)
      · exact ⟨_, rfl⟩

theorem HoldsTable.checkMemoryEnough_eq (h : HoldsTable m n) (fuel : Nat) :
    checkMemoryEnough m fuel = checkLoop m (entryAddr n) fuel (entryAddr 0) := by
  have hend : m systemAddressMapSize + BitVec.ofNat 32 systemAddressMap = entryAddr n := by
    rw [h.size, ← BitVec.ofNat_add, Nat.add_comm]
    rfl
  rw [checkMemoryEnough, hend]
  rfl

/-- The check ends, and it ends at `.enoughMemory` exactly when the table has an entry of type 1 whose
end, with the 64-bit fields, is at `0x03fe0000` or above. -/
theorem enough_memory_iff (h : HoldsTable m n)
    (hends : ∀ i, i < n → (e820MmapEntry m i).base.toNat + (e820MmapEntry m i).length.toNat < 2 ^ 64) :
    (∃ fuel r, checkMemoryEnough m fuel = some r) ∧
    ((∃ fuel, checkMemoryEnough m fuel = some .enoughMemory) ↔
      ∃ i, i < n ∧ (e820MmapEntry m i).type = 1 ∧
        0x03fe0000 ≤ (e820MmapEntry m i).base.toNat + (e820MmapEntry m i).length.toNat) := by
  obtain ⟨r, hr⟩ := h.checkLoop_ends n h.pos (by omega)
  have hsound := @HoldsTable.checkLoop_sound m n h hends
  refine ⟨⟨n, r, by rw [h.checkMemoryEnough_eq, hr]⟩, ?_, ?_⟩
  · rintro ⟨fuel, hf⟩
    rw [h.checkMemoryEnough_eq] at hf
    obtain ⟨i, _, hin, he⟩ := (hsound h.pos hf).mp rfl
    exact ⟨i, hin, he⟩
  · rintro ⟨i, hin, he⟩
    refine ⟨n, ?_⟩
    rw [h.checkMemoryEnough_eq, hr, (hsound h.pos hr).mpr ⟨i, Nat.zero_le i, hin, he⟩]

/-- Two entries in the table. The end of the second one is 1 MiB above 4 GiB. -/
def carryTable : Dwords :=
  writeEntries (fun x => if x = systemAddressMapSize then 48 else 0)
    (fun i => if i = 0 then ⟨0, 0x9fc00, regionFree, 1⟩ else ⟨0xf0000000, 0x10100000, regionFree, 1⟩) 2

theorem enough_memory_iff_carry :
    ∃ fuel, checkMemoryEnough carryTable fuel = some .enoughMemory := by
  have h0 : e820MmapEntry carryTable 0 = ⟨0, 0x9fc00, regionFree, 1⟩ :=
    e820MmapEntry_writeEntries (by decide)
  have h1 : e820MmapEntry carryTable 1 = ⟨0xf0000000, 0x10100000, regionFree, 1⟩ :=
    e820MmapEntry_writeEntries (by decide)
  refine (enough_memory_iff (n := 2) ⟨by decide, by decide, by decide⟩ ?_).2.mpr ⟨1, by decide, ?_⟩
  · intro i hi
    obtain rfl | rfl : i = 0 ∨ i = 1 := by omega
    · rw [h0]
      decide
    · rw [h1]
      decide
  · rw [h1]
    decide

end Loop

end Memory
end TorexOS
