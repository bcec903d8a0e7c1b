import TorexOS.Memscan
import TorexOS.MakeBuddy
import TorexOS.PageTable
import TorexOS.PagesKma
import TorexOS.SlubFrame

/-!
# TorexOS.KernelMap

The kernel's direct map of the physical memory, `makeKernelPTE` of `memory/mm.cpp`.

* `sizeOfMapping`, `putPtes`, `putTables`, `makeKernelPTE`: as the source computes them. `ptes`, `puds`
  and `pgds` record the addresses of the entries written.
* `walk_direct`: what the processor finds for an address of the direct map.
* `direct_map_iff`: exactly when all of the memory is mapped and the entries are in their blocks.
-/

namespace TorexOS
namespace Memory

open Dyadic Transition

/-- `util::max_element`, from its second element on. -/
def maxElement {α : Type} (comp : α → α → Bool) (greatest : α) : List α → α
  | [] => greatest
  | a :: as => maxElement comp (if comp greatest a then a else greatest) as

/-- `size_of_mapping`: the last byte of the highest region. Of an empty map it dereferences `end`. -/
def sizeOfMapping (es : List E820MmapEntry) : Option (BitVec 64) :=
  match es with
  | [] => none
  | e :: es =>
    let max := maxElement (fun a b => a.base + a.length < b.base + b.length) e es
    some (max.base + max.length - 1)

def pteCount (endPosition : Nat) : Nat := endPosition / mb 2 / 512 + 1
def pudCount (endPosition : Nat) : Nat := (pteCount endPosition - 1) / 512 + 1
def pgdCount (endPosition : Nat) : Nat := (pudCount endPosition - 1) / 512 + 1

/-- The loop over the pages of `page` bytes: the memory after it, and the entries written. -/
def putPtes (page : Nat) (hpage : 0 < page) (m : Words) (endPosition addr pte : Nat) :
    Words × List Nat :=
  if addr < endPosition then
    let r := putPtes page hpage (Function.update m pte (mapPage (m pte) addr)) endPosition (addr + page)
      (pte + 8)
    (r.1, pte :: r.2)
  else (m, [])
termination_by endPosition - addr

/-- The entries from `entries` on of `n` tables in a row. -/
def putTables (pointTo : PageEntry → Nat → PageEntry) (m : Words) (entries tables : Nat) :
    Nat → Words × List Nat
  | 0 => (m, [])
  | n + 1 =>
    let r := putTables pointTo m entries tables n
    let a := entries + 8 * n
    (Function.update r.1 a (mapTable pointTo (r.1 a) (tables + n * 4096)), r.2 ++ [a])

/-- The allocator and the memory afterwards, what is loaded into `cr3`, and the entries written. -/
structure KernelPTE where
  state : BuddyState
  words : Words
  cr3 : Nat
  ptes : List Nat
  puds : List Nat
  pgds : List Nat

/-- The loops of `makeKernelPTE`, over the tables at `pte`, `pud` and `pgd`. -/
def fillTables (s : BuddyState) (m : Words) (endPosition pte pud pgd : Nat) : KernelPTE :=
  let ptes := putPtes (mb 2) (by decide) m endPosition 0 pte
  let puds := putTables PageDirectoryPointerEntry.pointTo ptes.1 pud pte (pteCount endPosition)
  let pgds := putTables PageMapLevel4.pointTo puds.1 (pgd + 8 * 256) pud (pudCount endPosition)
  ⟨s, pgds.1, toPhys pgd, ptes.2, puds.2, pgds.2⟩

/-- `makeKernelPTE`; `none` when it panics or dereferences null. -/
def makeKernelPTE (L : Layout) (s : BuddyState) (m : Words) (es : List E820MmapEntry) :
    Option KernelPTE :=
  match sizeOfMapping es with
  | none => none
  | some size =>
    let endPosition := size.toNat
    -- `panic("we not support memory above 512GB.")`
    if 512 < pteCount endPosition then none
    else
      match allocPagesKma L s .kernelMap (pteCount endPosition * 4096) with
      | none => none
      | some (pte, s) =>
        match allocPagesKma L s .kernelMap (pudCount endPosition * 4096) with
        | none => none
        | some (pud, s) =>
          match allocPagesKma L s .kernelMap (pgdCount endPosition * 4096) with
          | none => none
          | some (pgd, s) => some (fillTables s m endPosition pte pud pgd)

/-- The end of the highest region. -/
def highestEnd (es : List E820MmapEntry) : Nat :=
  es.foldr (fun e n => max (e.base.toNat + e.length.toNat) n) 0

/-- After `makeKernelPTE` every byte below the highest end is mapped, writable, at its address in the
kernel's half, and every entry written is in the block allocated for its level. -/
def DirectMap (L : Layout) (s : BuddyState) (m : Words) (es : List E820MmapEntry) : Prop :=
  ∃ r, makeKernelPTE L s m es = some r ∧
    (∀ p, p < highestEnd es →
      walk r.words r.cr3 (kerBase + p) = some ⟨p / mb 2 * mb 2, true⟩) ∧
    ∃ pte pud pgd, r.state.live = pgd :: pud :: pte :: s.live ∧
      (∀ a ∈ r.ptes, InPages pte a) ∧ (∀ a ∈ r.puds, InPages pud a) ∧ ∀ a ∈ r.pgds, InPages pgd a

/-- The allocator has a block for each level: these are the heads of the blocks it hands out. -/
def HandsOut (L : Layout) (s : BuddyState) (endPosition pte pud pgd : Nat) : Prop :=
  ∃ t u v,
    allocPages L s .kernelMap (calculOrder (pteCount endPosition * 4096)) = some (some pte, t) ∧
    allocPages L t .kernelMap (calculOrder (pudCount endPosition * 4096)) = some (some pud, u) ∧
    allocPages L u .kernelMap (calculOrder (pgdCount endPosition * 4096)) = some (some pgd, v)

/-- The map of the bytes below `E` comes out right, with the tables in the blocks at `pte`, `pud` and
`pgd`: the entries of the last level fit in their block; the bits of the entries that are not written
are clear; and when the last byte is the first of its page, for which no entry is written, the word
for this entry holds it already. -/
structure Mappable (m : Words) (E pte pud pgd : Nat) : Prop where
  inside : (E - 1 + (mb 2 - 1)) / mb 2 ≤ 512 * 2 ^ ilog2 (pteCount (E - 1))
  pgd_clean : TableClean (m (toKerAddr pgd + 8 * 256))
  pud_clean : ∀ i, i < pteCount (E - 1) → TableClean (m (toKerAddr pud + 8 * i))
  pte_clean : ∀ i, i * mb 2 < E - 1 → LeafClean (m (toKerAddr pte + 8 * i))
  last : mb 2 ∣ E - 1 →
    toKerAddr pte + 8 * ((E - 1) / mb 2) ≠ toKerAddr pud ∧
    leaf (m (toKerAddr pte + 8 * ((E - 1) / mb 2))) = some ⟨E - 1, true⟩

section Loops

variable {m : Words} {page endPosition addr pte a entries tables n : Nat}
variable {pointTo : PageEntry → Nat → PageEntry}

theorem putPtes_more (hpage : 0 < page) (h : addr < endPosition) :
    putPtes page hpage m endPosition addr pte =
      ((putPtes page hpage (Function.update m pte (mapPage (m pte) addr)) endPosition (addr + page)
          (pte + 8)).1,
        pte :: (putPtes page hpage (Function.update m pte (mapPage (m pte) addr)) endPosition
          (addr + page) (pte + 8)).2) := by
  rw [putPtes, if_pos h]

/-- The entry for the page `j` pages on is written when the page starts below the end. -/
theorem mem_putPtes (hpage : 0 < page) :
    a ∈ (putPtes page hpage m endPosition addr pte).2 ↔
      ∃ j, addr + j * page < endPosition ∧ a = pte + 8 * j := by
  fun_induction putPtes page hpage m endPosition addr pte with
  | case1 m addr pte hlt r ih =>
    rw [List.mem_cons, ih]
    constructor
    · intro h
      cases h with
      | inl h => exact ⟨0, by omega, h⟩
      | inr h =>
        obtain ⟨j, hj, ha⟩ := h
        exact ⟨j + 1, by rw [Nat.add_mul]; omega, by omega⟩
    · intro ⟨j, hj, ha⟩
      cases j with
      | zero => exact .inl ha
      | succ j => exact .inr ⟨j, by rw [Nat.add_mul] at hj; omega, by omega⟩
  | case2 m addr pte hge =>
    refine iff_of_false List.not_mem_nil fun ⟨j, hj, _⟩ => ?_
    omega

theorem putPtes_other (hpage : 0 < page)
    (h : ∀ j, addr + j * page < endPosition → a ≠ pte + 8 * j) :
    (putPtes page hpage m endPosition addr pte).1 a = m a := by
  fun_induction putPtes page hpage m endPosition addr pte with
  | case1 m addr pte hlt r ih =>
    have hne : a ≠ pte := h 0 (by omega)
    rw [ih fun j hj => by
      have := h (j + 1) (by rw [Nat.add_mul]; omega)
      omega]
    exact Function.update_of_ne hne _ _
  | case2 m addr pte hge => rfl

theorem putPtes_written (hpage : 0 < page) {j : Nat} (hj : addr + j * page < endPosition) :
    (putPtes page hpage m endPosition addr pte).1 (pte + 8 * j) =
      mapPage (m (pte + 8 * j)) (addr + j * page) := by
  induction j generalizing m addr pte with
  | zero =>
    rw [putPtes_more hpage (by omega)]
    dsimp only
    rw [putPtes_other hpage fun j _ => by omega, Nat.mul_zero, Nat.add_zero, Function.update_self,
      Nat.zero_mul, Nat.add_zero]
  | succ j ih =>
    rw [Nat.add_mul, Nat.one_mul] at hj
    have hnext : (putPtes page hpage (Function.update m pte (mapPage (m pte) addr)) endPosition
        (addr + page) (pte + 8)).1 (pte + 8 + 8 * j) =
        mapPage (Function.update m pte (mapPage (m pte) addr) (pte + 8 + 8 * j))
          (addr + page + j * page) := ih (by omega)
    rw [Function.update_of_ne (by omega)] at hnext
    rw [putPtes_more hpage (by omega), Nat.add_mul, Nat.one_mul]
    rw [show pte + 8 * (j + 1) = pte + 8 + 8 * j by omega, hnext]
    congr 1
    omega

theorem mem_putTables :
    a ∈ (putTables pointTo m entries tables n).2 ↔ ∃ i, i < n ∧ a = entries + 8 * i := by
  induction n with
  | zero => simp [putTables]
  | succ n ih =>
    rw [putTables, List.mem_append, ih, List.mem_singleton]
    constructor
    · intro h
      cases h with
      | inl h =>
        obtain ⟨i, hi, ha⟩ := h
        exact ⟨i, by omega, ha⟩
      | inr h => exact ⟨n, by omega, h⟩
    · rintro ⟨i, hi, ha⟩
      by_cases hin : i = n
      · exact .inr (hin ▸ ha)
      · exact .inl ⟨i, by omega, ha⟩

theorem putTables_succ : (putTables pointTo m entries tables (n + 1)).1 =
    Function.update (putTables pointTo m entries tables n).1 (entries + 8 * n)
      (mapTable pointTo ((putTables pointTo m entries tables n).1 (entries + 8 * n))
        (tables + n * 4096)) := rfl

theorem putTables_other (h : ∀ i, i < n → a ≠ entries + 8 * i) :
    (putTables pointTo m entries tables n).1 a = m a := by
  induction n with
  | zero => rfl
  | succ n ih =>
    rw [putTables_succ, Function.update_of_ne (h n (Nat.lt_succ_self n))]
    exact ih fun i hi => h i (by omega)

theorem putTables_written {i : Nat} (hi : i < n) :
    (putTables pointTo m entries tables n).1 (entries + 8 * i) =
      mapTable pointTo (m (entries + 8 * i)) (tables + i * 4096) := by
  induction n with
  | zero => omega
  | succ n ih =>
    rw [putTables_succ]
    by_cases hin : i = n
    · subst hin
      rw [Function.update_self, putTables_other fun j hj => by omega]
    · rw [Function.update_of_ne (by omega)]
      exact ih (by omega)

end Loops

section Size

variable {es : List E820MmapEntry} {e a : E820MmapEntry}

theorem highestEnd_cons : highestEnd (e :: es) =
    max (e.base.toNat + e.length.toNat) (highestEnd es) := rfl

theorem end_toNat (h : e.base.toNat + e.length.toNat ≤ 2 ^ 39) :
    (e.base + e.length).toNat = e.base.toNat + e.length.toNat := by
  rw [BitVec.toNat_add, Nat.mod_eq_of_lt (by omega)]

/-- The element found has the highest end. -/
theorem maxElement_end (h : highestEnd (e :: es) ≤ 2 ^ 39) :
    (maxElement (fun a b => a.base + a.length < b.base + b.length) e es).base.toNat +
      (maxElement (fun a b => a.base + a.length < b.base + b.length) e es).length.toNat =
      highestEnd (e :: es) := by
  induction es generalizing e with
  | nil => exact (Nat.max_eq_left (Nat.zero_le _)).symm
  | cons a as ih =>
    have hall := h
    rw [highestEnd_cons, highestEnd_cons] at hall
    have he : (e.base + e.length).toNat = _ := end_toNat (by omega)
    have ha : (a.base + a.length).toNat = _ := end_toNat (by omega)
    have hcomp : (decide (e.base + e.length < a.base + a.length) = true) ↔
        e.base.toNat + e.length.toNat < a.base.toNat + a.length.toNat := by
      rw [decide_eq_true_iff, BitVec.lt_def, he, ha]
    rw [maxElement]
    by_cases hlt : e.base.toNat + e.length.toNat < a.base.toNat + a.length.toNat
    · rw [if_pos (hcomp.mpr hlt), ih (by rw [highestEnd_cons]; omega)]
      rw [highestEnd_cons, highestEnd_cons, highestEnd_cons]
      omega
    · rw [if_neg (mt hcomp.mp hlt), ih (by rw [highestEnd_cons]; omega)]
      rw [highestEnd_cons, highestEnd_cons, highestEnd_cons]
      omega

theorem sizeOfMapping_eq (hpos : 0 < highestEnd es) (hle : highestEnd es ≤ 2 ^ 39) :
    ∃ size, sizeOfMapping es = some size ∧ size.toNat = highestEnd es - 1 := by
  cases es with
  | nil => exact absurd hpos (Nat.lt_irrefl 0)
  | cons e es =>
    refine ⟨_, rfl, ?_⟩
    have hend := maxElement_end hle
    generalize maxElement _ e es = x at hend ⊢
    have hx : (x.base + x.length).toNat = highestEnd (e :: es) := by
      rw [end_toNat (by omega), hend]
    rw [BitVec.toNat_sub, hx, show (1 : BitVec 64).toNat = 1 from rfl]
    omega

/-- With no memory at all the size wraps, and the kernel panics. -/
theorem sizeOfMapping_zero (h : highestEnd es = 0) :
    sizeOfMapping es = none ∨ sizeOfMapping es = some (BitVec.allOnes 64) := by
  cases es with
  | nil => exact .inl rfl
  | cons e es =>
    refine .inr ?_
    have hend : _ = highestEnd (e :: es) := maxElement_end (by omega)
    rw [sizeOfMapping]
    generalize maxElement _ e es = x at hend ⊢
    have hx : x.base + x.length = 0 := by
      apply BitVec.eq_of_toNat_eq
      rw [end_toNat (by omega), hend, h]
      rfl
    rw [hx]
    rfl

end Size

section Walk

variable {m w : Words} {s : BuddyState} {endPosition p pte pud pgd i j : Nat}

/-- The tables are in memory, and no entry of one level is one of another. -/
structure Apart (endPosition pte pud pgd : Nat) : Prop where
  pte_le : pte + pteCount endPosition ≤ 2 ^ 27 + 1
  pud_le : pud < 2 ^ 27
  pgd_le : pgd < 2 ^ 27
  count_le : pteCount endPosition ≤ 512
  pte_pud : ∀ j i, j * mb 2 < endPosition → i < pteCount endPosition →
    toKerAddr pte + 8 * j ≠ toKerAddr pud + 8 * i
  pte_pgd : ∀ j, j * mb 2 < endPosition → toKerAddr pte + 8 * j ≠ toKerAddr pgd + 8 * 256
  pud_pgd : ∀ i, i < pteCount endPosition → toKerAddr pud + 8 * i ≠ toKerAddr pgd + 8 * 256
  last_pud : mb 2 ∣ endPosition → ∀ i, 0 < i → i < pteCount endPosition →
    toKerAddr pte + 8 * (endPosition / mb 2) ≠ toKerAddr pud + 8 * i
  last_pgd : mb 2 ∣ endPosition →
    toKerAddr pte + 8 * (endPosition / mb 2) ≠ toKerAddr pgd + 8 * 256

theorem Apart.pud_one (h : Apart endPosition pte pud pgd) : pudCount endPosition = 1 := by
  have hc := h.count_le
  rw [pudCount]
  omega

/-- The memory after each of the loops, over the tables in the blocks at `pte`, `pud` and `pgd`. -/
def pteWords (m : Words) (endPosition pte : Nat) : Words :=
  (putPtes (mb 2) (by decide) m endPosition 0 (toKerAddr pte)).1

def pudWords (m : Words) (endPosition pte pud : Nat) : Words :=
  (putTables PageDirectoryPointerEntry.pointTo (pteWords m endPosition pte) (toKerAddr pud)
    (toKerAddr pte) (pteCount endPosition)).1

def pgdWords (m : Words) (endPosition pte pud pgd : Nat) : Words :=
  (putTables PageMapLevel4.pointTo (pudWords m endPosition pte pud) (toKerAddr pgd + 8 * 256)
    (toKerAddr pud) (pudCount endPosition)).1

theorem Apart.pgdWords_other (h : Apart endPosition pte pud pgd) {a : Nat}
    (ha : a ≠ toKerAddr pgd + 8 * 256) :
    pgdWords m endPosition pte pud pgd a = pudWords m endPosition pte pud a := by
  refine putTables_other fun i hi => ?_
  rw [h.pud_one] at hi
  rw [show i = 0 by omega]
  exact ha

theorem Apart.pgd_word (h : Apart endPosition pte pud pgd) :
    pgdWords m endPosition pte pud pgd (toKerAddr pgd + 8 * 256) =
      mapTable PageEntry.pointToTable (m (toKerAddr pgd + 8 * 256)) (toKerAddr pud) := by
  have hw : pgdWords m endPosition pte pud pgd (toKerAddr pgd + 8 * 256 + 8 * 0) =
      mapTable PageEntry.pointToTable
        (pudWords m endPosition pte pud (toKerAddr pgd + 8 * 256 + 8 * 0))
        (toKerAddr pud + 0 * 4096) := putTables_written (by rw [h.pud_one]; decide)
  have hpud : pudWords m endPosition pte pud (toKerAddr pgd + 8 * 256) =
      pteWords m endPosition pte (toKerAddr pgd + 8 * 256) :=
    putTables_other fun i hi he => h.pud_pgd i hi he.symm
  have hpte : pteWords m endPosition pte (toKerAddr pgd + 8 * 256) =
      m (toKerAddr pgd + 8 * 256) :=
    putPtes_other _ fun j hj he => h.pte_pgd j (by omega) he.symm
  rw [← hpte, ← hpud]
  exact hw

theorem Apart.pud_word (h : Apart endPosition pte pud pgd) (hi : i < pteCount endPosition) :
    pgdWords m endPosition pte pud pgd (toKerAddr pud + 8 * i) =
      mapTable PageEntry.pointToTable (m (toKerAddr pud + 8 * i)) (toKerAddr pte + i * 4096) := by
  have hw : pudWords m endPosition pte pud (toKerAddr pud + 8 * i) =
      mapTable PageEntry.pointToTable (pteWords m endPosition pte (toKerAddr pud + 8 * i))
        (toKerAddr pte + i * 4096) := putTables_written hi
  have hpte : pteWords m endPosition pte (toKerAddr pud + 8 * i) = m (toKerAddr pud + 8 * i) :=
    putPtes_other _ fun j hj he => h.pte_pud j i (by omega) hi he.symm
  rw [h.pgdWords_other (h.pud_pgd i hi), hw, hpte]

theorem Apart.pte_word (h : Apart endPosition pte pud pgd) (hj : j * mb 2 < endPosition) :
    pgdWords m endPosition pte pud pgd (toKerAddr pte + 8 * j) =
      mapPage (m (toKerAddr pte + 8 * j)) (j * mb 2) := by
  have hpud : pudWords m endPosition pte pud (toKerAddr pte + 8 * j) =
      pteWords m endPosition pte (toKerAddr pte + 8 * j) :=
    putTables_other fun i hi => h.pte_pud j i hj hi
  have hw : pteWords m endPosition pte (toKerAddr pte + 8 * j) =
      mapPage (m (toKerAddr pte + 8 * j)) (0 + j * mb 2) := putPtes_written _ (by omega)
  rw [h.pgdWords_other (h.pte_pgd j hj), hpud, hw, Nat.zero_add]

/-- The word of the page that starts at the end is not written. -/
theorem Apart.last_word (h : Apart endPosition pte pud pgd) {a : Nat}
    (hpte : ∀ j, j * mb 2 < endPosition → a ≠ toKerAddr pte + 8 * j)
    (hpud : ∀ i, i < pteCount endPosition → a ≠ toKerAddr pud + 8 * i)
    (hpgd : a ≠ toKerAddr pgd + 8 * 256) : pgdWords m endPosition pte pud pgd a = m a := by
  rw [h.pgdWords_other hpgd]
  exact (putTables_other hpud).trans (putPtes_other _ fun j hj => hpte j (by omega))

/-- The table at a kernel address, in the 28 bits of an entry. -/
theorem toKerAddr_table {b : Nat} (hb : b ≤ 2 ^ 27) :
    toKerAddr b / 4096 % 2 ^ 28 * 4096 = b * 4096 := by
  rw [toKerAddr_eq hb, kerBase]
  omega

/-- The walk through the kernel's tables. -/
theorem Apart.walk_direct (h : Apart endPosition pte pud pgd)
    (hp : p / 2 ^ 30 < pteCount endPosition) :
    walk (pgdWords m endPosition pte pud pgd) (toPhys (toKerAddr pgd)) (kerBase + p) =
      if TableClean (m (toKerAddr pgd + 8 * 256)) ∧
        TableClean (m (toKerAddr pud + 8 * (p / 2 ^ 30))) then
        leaf (pgdWords m endPosition pte pud pgd (toKerAddr pte + 8 * (p / 2 ^ 21)))
      else none := by
  have hvp : p < 2 ^ 39 := by
    have := h.count_le
    omega
  have h1 : (kerBase + p) / 2 ^ 39 % 512 = 256 := by
    rw [kerBase]
    omega
  have h2 : (kerBase + p) / 2 ^ 30 % 512 = p / 2 ^ 30 := by
    rw [kerBase]
    omega
  have h3 : 8 * (p / 2 ^ 30 * 512) + 8 * ((kerBase + p) / 2 ^ 21 % 512) = 8 * (p / 2 ^ 21) := by
    rw [kerBase]
    omega
  have hpgd := h.pgd_le
  have hpud := h.pud_le
  have hpte := h.pte_le
  -- the words the processor reads, by their kernel addresses
  have a1 : toKer (toPhys (toKerAddr pgd) + 8 * 256) = toKerAddr pgd + 8 * 256 := by
    rw [toKerAddr_eq (by omega), toPhys_toKer (by omega), toKer_eq (by omega), Nat.add_assoc]
  have a2 : toKer (pud * 4096 + 8 * (p / 2 ^ 30)) = toKerAddr pud + 8 * (p / 2 ^ 30) := by
    rw [toKerAddr_eq (by omega), toKer_eq (by omega), Nat.add_assoc]
  have a3 : toKer ((pte + p / 2 ^ 30) * 4096 + 8 * ((kerBase + p) / 2 ^ 21 % 512)) =
      toKerAddr pte + 8 * (p / 2 ^ 21) := by
    rw [toKerAddr_eq (by omega), toKer_eq (by omega), ← h3]
    omega
  have hnext : toKerAddr pte + p / 2 ^ 30 * 4096 = toKerAddr (pte + p / 2 ^ 30) := by
    rw [toKerAddr_eq (by omega), toKerAddr_eq (by omega), Nat.add_mul, Nat.add_assoc]
  rw [walk, h1, a1, h.pgd_word, nextTable_mapTable, toKerAddr_table (by omega)]
  by_cases hc : TableClean (m (toKerAddr pgd + 8 * 256)) = true
  · simp only [if_pos hc, h2, a2, h.pud_word hp]
    rw [nextTable_mapTable, hnext, toKerAddr_table (by omega)]
    by_cases hd : TableClean (m (toKerAddr pud + 8 * (p / 2 ^ 30))) = true
    · rw [if_pos hd, if_pos ⟨hc, hd⟩]
      dsimp only
      rw [a3]
      cases leaf (pgdWords m endPosition pte pud pgd (toKerAddr pte + 8 * (p / 2 ^ 21))) with
      | none => rfl
      | some q => simp only [rw_mapTable, Bool.true_and]
    · rw [if_neg hd, if_neg fun hcd => hd hcd.2]
  · rw [if_neg hc, if_neg fun hcd => hc hcd.1]

end Walk

section Blocks

variable {L : Layout} {P : Pool L} {m : Words} {s t : BuddyState} {F : Nat → List Nat}
variable {es : List E820MmapEntry} {endPosition pte pud pgd sz a order : Nat} {size : BitVec 64}

/-- A number of pages, as an order. -/
theorem calculOrder_pages {n : Nat} (h1 : 1 ≤ n) (h2 : n ≤ 512) :
    calculOrder (n * 4096) = ilog2 n := by
  have hlo : 2 ^ ilog2 n ≤ n := Nat.log2_self_le (by omega)
  have hhi : n < 2 ^ (ilog2 n + 1) := Nat.lt_log2_self
  have hlog : ilog2 (n * 4096) = ilog2 n + 12 := by
    refine ilog2_eq ?_ ?_
    · rw [Nat.pow_add]
      omega
    · rw [Nat.add_right_comm, Nat.pow_add _ _ 12]
      omega
  rw [calculOrder_of_ge (by omega) (by omega), hlog, Nat.add_sub_cancel]

theorem calculOrder_page : calculOrder (1 * 4096) = 0 := by decide

theorem BuddyOk.allocPagesKma_eq (h : BuddyOk P s F)
    (ha : allocPages L s .kernelMap (calculOrder sz) = some (some a, t)) :
    allocPagesKma L s .kernelMap sz = some (toKerAddr a, t) ∧
      ∃ F', BuddyOk P t F' ∧ t.live = ⟨a, calculOrder sz⟩ :: s.live := by
  have hspec := h.allocPages_spec (calculOrder sz) (show PageType.kernelMap ≠ .free by decide) (by decide)
  rw [ha] at hspec
  obtain ⟨_, F', hT⟩ := hspec
  have hmem : (⟨a, calculOrder sz⟩ : Block) ∈ t.live := by rw [hT.live]; exact List.mem_cons_self ..
  refine ⟨?_, F', hT.ok, hT.live⟩
  rw [allocPagesKma, ha]
  simp only
  rw [physOf_some (hT.ok.inv.head_lt (.inr hmem)), toKerAddr]

/-- The blocks of the three levels. -/
def pteBlock (endPosition pte : Nat) : Block := ⟨pte, ilog2 (pteCount endPosition)⟩
def tableBlock (a : Nat) : Block := ⟨a, 0⟩

theorem HandsOut.makeKernelPTE_eq (h : HandsOut L s endPosition pte pud pgd) (hok : BuddyOk P s F)
    (hsize : sizeOfMapping es = some size) (he : size.toNat = endPosition)
    (hc : pteCount endPosition ≤ 512) : ∃ v F',
    makeKernelPTE L s m es =
      some (fillTables v m endPosition (toKerAddr pte) (toKerAddr pud) (toKerAddr pgd)) ∧
    BuddyOk P v F' ∧
    v.live = tableBlock pgd :: tableBlock pud :: pteBlock endPosition pte :: s.live := by
  obtain ⟨t, u, v, h1, h2, h3⟩ := h
  have hpos : 1 ≤ pteCount endPosition := Nat.succ_pos _
  have hpud : pudCount endPosition = 1 := by
    rw [pudCount]
    omega
  have hpgd : pgdCount endPosition = 1 := by
    rw [pgdCount, hpud]
  obtain ⟨k1, F1, hok1, hl1⟩ := hok.allocPagesKma_eq h1
  obtain ⟨k2, F2, hok2, hl2⟩ := hok1.allocPagesKma_eq h2
  obtain ⟨k3, F3, hok3, hl3⟩ := hok2.allocPagesKma_eq h3
  refine ⟨v, F3, ?_, hok3, ?_⟩
  · rw [makeKernelPTE, hsize]
    simp only [he]
    rw [if_neg (Nat.not_lt.mpr hc), k1]
    simp only
    rw [k2]
    simp only
    rw [k3]
  · rw [hl3, hl2, hl1, hpgd, hpud, calculOrder_page, calculOrder_pages hpos hc]
    rfl

theorem mem_tableBlock : InPages (tableBlock a) (toKerAddr a + 8 * order) ↔ order < 512 := by
  rw [InPages, tableBlock]
  dsimp only
  rw [Nat.pow_zero]
  omega

theorem mem_pteBlock {j : Nat} : InPages (pteBlock endPosition pte) (toKerAddr pte + 8 * j) ↔
    j < 512 * 2 ^ ilog2 (pteCount endPosition) := by
  rw [InPages, pteBlock]
  dsimp only
  omega

/-- All the entries of the last level are in their block when the number of pages is no greater than
the number of entries. -/
theorem ptes_inside : (∀ j, j * mb 2 < endPosition →
      InPages (pteBlock endPosition pte) (toKerAddr pte + 8 * j)) ↔
    (endPosition + (mb 2 - 1)) / mb 2 ≤ 512 * 2 ^ ilog2 (pteCount endPosition) := by
  simp only [mem_pteBlock]
  generalize 512 * 2 ^ ilog2 (pteCount endPosition) = n
  rw [show mb 2 = 2097152 from rfl]
  constructor
  · intro h
    have hn := h n
    omega
  · intro h j hj
    omega

/-- The blocks are apart, and so are the entries in them. -/
theorem BuddyOk.apart {v : BuddyState} {bs : List Block} (hok : BuddyOk P v F)
    (hlive : v.live = tableBlock pgd :: tableBlock pud :: pteBlock endPosition pte :: bs)
    (hc : pteCount endPosition ≤ 512) (hin : (endPosition + (mb 2 - 1)) / mb 2 ≤
      512 * 2 ^ ilog2 (pteCount endPosition)) : Apart endPosition pte pud pgd := by
  have m1 : tableBlock pgd ∈ v.live := by simp [hlive]
  have m2 : tableBlock pud ∈ v.live := by simp [hlive]
  have m3 : pteBlock endPosition pte ∈ v.live := by simp [hlive]
  have hnd := hok.inv.held_nodup
  rw [hlive] at hnd
  simp only [List.nodup_cons, List.mem_cons, not_or] at hnd
  obtain ⟨⟨h12, h13, _⟩, ⟨h23, _⟩, _⟩ := hnd
  have e1 := hok.block_end (.inr m1)
  have e2 := hok.block_end (.inr m2)
  have e3 := hok.block_end (.inr m3)
  have hle := L.pages_le
  have hptes : ∀ j, j * mb 2 < endPosition →
      InPages (pteBlock endPosition pte) (toKerAddr pte + 8 * j) := ptes_inside.mpr hin
  have hcount : pteCount endPosition ≤ 2 ^ ilog2 (pteCount endPosition) + 1 := by
    have hdef : pteCount endPosition = endPosition / mb 2 / 512 + 1 := rfl
    generalize 2 ^ ilog2 (pteCount endPosition) = n at hin ⊢
    rw [show mb 2 = 2097152 from rfl] at hin hdef
    omega
  simp only [tableBlock, pteBlock, Nat.pow_zero] at e1 e2 e3
  -- the word after the last entry is in the block, or the first one after it
  have hlast : mb 2 ∣ endPosition →
      endPosition / mb 2 < 512 * 2 ^ ilog2 (pteCount endPosition) ∨
        endPosition / mb 2 = 512 * 2 ^ ilog2 (pteCount endPosition) := by
    intro hd
    rw [show mb 2 = 2097152 from rfl] at *
    omega
  constructor
  case pte_le => omega
  case pud_le => omega
  case pgd_le => omega
  case count_le => exact hc
  case pte_pud =>
    intro j i hj hi
    exact hok.inPages_ne m3 m2 (Ne.symm h23) (hptes j hj) (mem_tableBlock.mpr (by omega))
  case pte_pgd =>
    intro j hj
    exact hok.inPages_ne m3 m1 (Ne.symm h13) (hptes j hj) (mem_tableBlock.mpr (by omega))
  case pud_pgd =>
    intro i hi
    exact hok.inPages_ne m2 m1 (Ne.symm h12) (mem_tableBlock.mpr (by omega))
      (mem_tableBlock.mpr (by omega))
  case last_pud =>
    intro hd i h0 hi
    cases hlast hd with
    | inl hj =>
      exact hok.inPages_ne m3 m2 (Ne.symm h23) (mem_pteBlock.mpr hj)
        (mem_tableBlock.mpr (by omega))
    | inr hj =>
      rw [hj, toKerAddr_eq (by omega), toKerAddr_eq (by omega)]
      omega
  case last_pgd =>
    intro hd
    cases hlast hd with
    | inl hj =>
      exact hok.inPages_ne m3 m1 (Ne.symm h13) (mem_pteBlock.mpr hj)
        (mem_tableBlock.mpr (by omega))
    | inr hj =>
      rw [hj, toKerAddr_eq (by omega), toKerAddr_eq (by omega)]
      omega

end Blocks

section Map

variable {L : Layout} {P : Pool L} {m : Words} {s : BuddyState} {es : List E820MmapEntry}
variable {E endPosition pte pud pgd j : Nat}

theorem mb_two_pow : mb 2 = 2 ^ 21 := by decide

/-- The entry written for page `j`. -/
theorem leaf_page {e : PageEntry} (hj : j < 2 ^ 18) :
    leaf (mapPage e (j * mb 2)) = if LeafClean e then some ⟨j * mb 2, true⟩ else none := by
  have hbase : j * mb 2 / 2 ^ 21 % 2 ^ 19 * 2 ^ 21 = j * mb 2 := by
    rw [mb_two_pow, Nat.mul_div_cancel _ (by omega), Nat.mod_eq_of_lt (by omega)]
  rw [leaf_mapPage, hbase]

theorem leaf_page_iff {e : PageEntry} (hj : j < 2 ^ 18) :
    leaf (mapPage e (j * mb 2)) = some ⟨j * mb 2, true⟩ ↔ LeafClean e = true := by
  rw [leaf_page hj]
  split
  · rename_i hc
    exact iff_of_true rfl hc
  · rename_i hc
    exact iff_of_false (fun h => by cases h) hc

/-- The word for the page that starts at the end is written by no loop. -/
theorem Apart.end_word (h : Apart endPosition pte pud pgd) (hd : mb 2 ∣ endPosition)
    (hne : toKerAddr pte + 8 * (endPosition / mb 2) ≠ toKerAddr pud) :
    pgdWords m endPosition pte pud pgd (toKerAddr pte + 8 * (endPosition / mb 2)) =
      m (toKerAddr pte + 8 * (endPosition / mb 2)) := by
  refine h.last_word (fun j hj he => ?_) (fun i hi => ?_) (h.last_pgd hd)
  · have hj' : endPosition / mb 2 = j := by omega
    have hn := Nat.div_mul_cancel hd
    rw [hj'] at hn
    omega
  · cases i with
    | zero => exact hne
    | succ i => exact h.last_pud hd _ (Nat.succ_pos i) hi

/-- What is mapped below the byte after the end. -/
theorem Apart.mapped_iff (h : Apart endPosition pte pud pgd) :
    (∀ p, p ≤ endPosition → walk (pgdWords m endPosition pte pud pgd) (toPhys (toKerAddr pgd))
        (kerBase + p) = some ⟨p / mb 2 * mb 2, true⟩) ↔
      TableClean (m (toKerAddr pgd + 8 * 256)) ∧
      (∀ i, i < pteCount endPosition → TableClean (m (toKerAddr pud + 8 * i))) ∧
      (∀ j, j * mb 2 < endPosition → LeafClean (m (toKerAddr pte + 8 * j))) ∧
      (mb 2 ∣ endPosition → toKerAddr pte + 8 * (endPosition / mb 2) ≠ toKerAddr pud ∧
        leaf (m (toKerAddr pte + 8 * (endPosition / mb 2))) = some ⟨endPosition, true⟩) := by
  have hc := h.count_le
  have hdef : pteCount endPosition = endPosition / mb 2 / 512 + 1 := rfl
  have hmb : mb 2 = 2097152 := rfl
  have hwalk : ∀ p, p ≤ endPosition →
      walk (pgdWords m endPosition pte pud pgd) (toPhys (toKerAddr pgd)) (kerBase + p) =
        if TableClean (m (toKerAddr pgd + 8 * 256)) ∧
          TableClean (m (toKerAddr pud + 8 * (p / 2 ^ 30))) then
          leaf (pgdWords m endPosition pte pud pgd (toKerAddr pte + 8 * (p / mb 2)))
        else none := by
    intro p hp
    exact h.walk_direct (by rw [hmb] at hdef; omega)
  constructor
  · intro hall
    have hclean : ∀ p, p ≤ endPosition → TableClean (m (toKerAddr pgd + 8 * 256)) = true ∧
        TableClean (m (toKerAddr pud + 8 * (p / 2 ^ 30))) = true ∧
        leaf (pgdWords m endPosition pte pud pgd (toKerAddr pte + 8 * (p / mb 2))) =
          some ⟨p / mb 2 * mb 2, true⟩ := by
      intro p hp
      have hp' := hall p hp
      rw [hwalk p hp] at hp'
      split at hp'
      · rename_i hcl
        exact ⟨hcl.1, hcl.2, hp'⟩
      · cases hp'
    refine ⟨(hclean 0 (Nat.zero_le _)).1, fun i hi => ?_, fun j hj => ?_, fun hd => ?_⟩
    · have hi' := (hclean (i * 2 ^ 30) (by rw [hmb] at hdef; omega)).2.1
      rwa [Nat.mul_div_cancel _ (by omega)] at hi'
    · have hj' := (hclean (j * mb 2) (by omega)).2.2
      rw [Nat.mul_div_cancel _ (by omega), h.pte_word hj,
        leaf_page_iff (by rw [hmb] at hdef hj; omega)] at hj'
      exact hj'
    · have hend := (hclean endPosition (Nat.le_refl _)).2.2
      have hne : toKerAddr pte + 8 * (endPosition / mb 2) ≠ toKerAddr pud := by
        intro he
        have hz : toKerAddr pud = toKerAddr pud + 8 * 0 := rfl
        rw [he, hz, h.pud_word (by omega), leaf_mapTable] at hend
        · cases hend
        · exact (hclean 0 (Nat.zero_le _)).2.1
      rw [h.end_word hd hne, Nat.div_mul_cancel hd] at hend
      exact ⟨hne, hend⟩
  · intro ⟨hpgd, hpud, hpte, hlast⟩ p hp
    rw [hwalk p hp, if_pos ⟨hpgd, hpud _ (by rw [hmb] at hdef; omega)⟩]
    by_cases hj : p / mb 2 * mb 2 < endPosition
    · rw [h.pte_word hj, leaf_page_iff (by rw [hmb] at hdef ⊢; omega)]
      exact hpte _ hj
    · -- the last byte is the first of its page
      have hpe : p = endPosition := by
        have := Nat.div_mul_le_self p (mb 2)
        omega
      subst hpe
      have hd : mb 2 ∣ p := ⟨p / mb 2, by rw [hmb] at hj ⊢; omega⟩
      rw [h.end_word hd (hlast hd).1, Nat.div_mul_cancel hd]
      exact (hlast hd).2

/-- The direct map, in every state of every run in which the allocator has a block for each level
of tables: it is complete and correct and its entries are in their blocks exactly when there is
memory and the tables are `Mappable`. -/
theorem direct_map_iff (h : Reach (buddySystem L P) (fun _ _ => True) s)
    (hle : highestEnd es ≤ 2 ^ 39) (hT : HandsOut L s (highestEnd es - 1) pte pud pgd) :
    DirectMap L s m es ↔ 0 < highestEnd es ∧ Mappable m (highestEnd es) pte pud pgd := by
  obtain ⟨F, hok⟩ := reach_ok h
  by_cases hpos : 0 < highestEnd es
  · obtain ⟨size, hsize, hnat⟩ := sizeOfMapping_eq hpos hle
    have hc : pteCount (highestEnd es - 1) ≤ 512 := by
      rw [pteCount, show mb 2 = 2097152 from rfl]
      omega
    obtain ⟨v, F', hmake, hokv, hlive⟩ := hT.makeKernelPTE_eq (m := m) hok hsize hnat hc
    constructor
    · intro ⟨r, hr, hall, b1, b2, b3, hbs, hb1, hb2, hb3⟩
      rw [hmake, Option.some.injEq] at hr
      subst hr
      have hbs : tableBlock pgd :: tableBlock pud :: pteBlock (highestEnd es - 1) pte :: s.live =
          b3 :: b2 :: b1 :: s.live := hlive.symm.trans hbs
      simp only [List.cons.injEq, and_true] at hbs
      obtain ⟨rfl, rfl, rfl⟩ := hbs
      have hin : (highestEnd es - 1 + (mb 2 - 1)) / mb 2 ≤
          512 * 2 ^ ilog2 (pteCount (highestEnd es - 1)) :=
        ptes_inside.mp fun j hj => hb1 _ ((mem_putPtes _).mpr ⟨j, by omega, rfl⟩)
      have hmap := (hokv.apart hlive hc hin).mapped_iff.mp fun p hp => hall p (by omega)
      exact ⟨hpos, hin, hmap.1, hmap.2.1, hmap.2.2.1, hmap.2.2.2⟩
    · intro ⟨_, hm⟩
      have hap := hokv.apart hlive hc hm.inside
      refine ⟨_, hmake, fun p hp => ?_, _, _, _, hlive, ?_, ?_, ?_⟩
      · exact hap.mapped_iff.mpr ⟨hm.pgd_clean, hm.pud_clean, hm.pte_clean, hm.last⟩ p (by omega)
      · intro a ha
        obtain ⟨j, hj, rfl⟩ := (mem_putPtes _).mp ha
        exact ptes_inside.mpr hm.inside j (by omega)
      · intro a ha
        obtain ⟨i, hi, rfl⟩ := mem_putTables.mp ha
        exact mem_tableBlock.mpr (by omega)
      · intro a ha
        obtain ⟨i, hi, rfl⟩ := mem_putTables.mp ha
        rw [hap.pud_one] at hi
        rw [show toKerAddr pgd + 8 * 256 + 8 * i = toKerAddr pgd + 8 * (256 + i) by omega]
        exact mem_tableBlock.mpr (by omega)
  · refine iff_of_false (fun ⟨r, hr, _⟩ => ?_) fun hm => hpos hm.1
    rw [makeKernelPTE] at hr
    cases sizeOfMapping_zero (Nat.eq_zero_of_not_pos hpos) with
    | inl hs =>
      rw [hs] at hr
      cases hr
    | inr hs =>
      rw [hs] at hr
      dsimp only at hr
      rw [if_pos (by decide)] at hr
      cases hr

/-- The heads of the blocks, by running the allocator. -/
theorem handsOut_of (o1 o2 o3 : Nat) (h1 : calculOrder (pteCount endPosition * 4096) = o1)
    (h2 : calculOrder (pudCount endPosition * 4096) = o2)
    (h3 : calculOrder (pgdCount endPosition * 4096) = o3)
    (h : ((allocPages L s .kernelMap o1).bind fun a => (allocPages L a.2 .kernelMap o2).bind fun b =>
      (allocPages L b.2 .kernelMap o3).map fun c => (a.1, b.1, c.1)) =
        some (some pte, some pud, some pgd)) : HandsOut L s endPosition pte pud pgd := by
  obtain ⟨⟨a, t⟩, ha, h⟩ := Option.bind_eq_some_iff.mp h
  obtain ⟨⟨b, u⟩, hb, h⟩ := Option.bind_eq_some_iff.mp h
  obtain ⟨⟨c, v⟩, hc, h⟩ := Option.map_eq_some_iff.mp h
  simp only [Prod.mk.injEq] at h
  obtain ⟨rfl, rfl, rfl⟩ := h
  subst h1 h2 h3
  exact ⟨t, u, v, ha, hb, hc⟩

/-- 16 MiB of memory. -/
def smallMap : List E820MmapEntry := [⟨0, 0x1000000, regionFree, 1⟩]

theorem smallMap_handsOut :
    HandsOut smallLayout (filled onePool) (highestEnd smallMap - 1) 512 513 514 := by
  refine handsOut_of 0 0 0 (by decide) (by decide) (by decide) ?_
  simp only [filled, onePool, insertBlocks, insertBlock, markPages_eq]
  decide +kernel

theorem direct_map_iff_small :
    DirectMap smallLayout (filled onePool) (fun _ => 0) smallMap := by
  refine (direct_map_iff (.init (filled_init onePool)) (by decide) smallMap_handsOut).mpr
    ⟨by decide, by decide, by decide, fun _ _ => by decide, fun _ _ => by decide, fun hd => ?_⟩
  exact absurd hd (by decide)

/-- 3 GiB of memory: three tables, for which the allocator gives two pages. -/
def threeMap : List E820MmapEntry := [⟨0, 0xC0000000, regionFree, 1⟩]

theorem three_gigabytes :
    Reach (buddySystem smallLayout onePool) (fun _ _ => True) (filled onePool) ∧
      HandsOut smallLayout (filled onePool) (highestEnd threeMap - 1) 512 514 515 ∧
      ¬ DirectMap smallLayout (filled onePool) (fun _ => 0) threeMap := by
  have hreach : Reach (buddySystem smallLayout onePool) (fun _ _ => True) (filled onePool) :=
    .init (filled_init onePool)
  have hT : HandsOut smallLayout (filled onePool) (highestEnd threeMap - 1) 512 514 515 := by
    refine handsOut_of 1 0 0 (by decide) (by decide) (by decide) ?_
    simp only [filled, onePool, insertBlocks, insertBlock, markPages_eq]
    decide +kernel
  refine ⟨hreach, hT, fun h => ?_⟩
  have hin := ((direct_map_iff hreach (by decide) hT).mp h).2.inside
  exact absurd hin (by decide)

end Map

end Memory
end TorexOS
