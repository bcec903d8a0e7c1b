import TorexOS.MakeBuddyRun

/-!
# TorexOS.KernelArea

The memory set aside for the kernel and the descriptor table, `memory/mm.cpp`.

* `calculatePageDescriptorSize`, `getFreeMemoryStart`, `markKernelArea`: as the source computes them.
* `table_fits_iff`: exactly when every descriptor written at start-up is in that memory.
* `never_described`: `mark_kernel_area` steps from one descriptor to the next where it should step
  over 256 of them, so it never describes the kernel's area.
-/

namespace TorexOS
namespace Memory

open Sweep

/-- What `kernel.ld` says of `IST_END`: it is a multiple of 1 MiB in the kernel's half. -/
structure Image where
  istEnd : BitVec 64
  ker : kerBase ≤ istEnd.toNat
  aligned : mb 1 ∣ istEnd.toNat

/-- `align`, for a power of two. -/
def align (address alignment : BitVec 64) : BitVec 64 :=
  (address + alignment - 1) &&& ~~~(alignment - 1)

def getPageDescriptorStart (I : Image) : BitVec 64 := align I.istEnd 32

/-- The end of the last region of free memory; zero when there is none. Of an empty map the loop
reads the entry in front of the table, and goes on from there. -/
def calculatePageDescriptorSize (es : List E820MmapEntry) : Option (BitVec 64) :=
  match es with
  | [] => none
  | es =>
    match es.reverse.find? fun e => e.type = regionFree with
    | some e => some (e.base + e.length)
    | none => some 0

def getFreeMemoryStart (I : Image) (needBytesNum : BitVec 64) : BitVec 64 :=
  BitVec.ofNat 64 (toPhys (getPageDescriptorStart I).toNat) +
    needBytesNum / BitVec.ofNat 64 smallestPageSize * 32

/-- The table, `TotalMemoryBlockCount` and the value returned; `marked` are the descriptors
`mark_pages` was called on. -/
structure KernelArea where
  pd : PdTable
  totalMemoryBlockCount : BitVec 32
  start : BitVec 64
  marked : List Nat

/-- `start` in `mark_kernel_area`. -/
def kernelAreaEnd (I : Image) (requiredSize : BitVec 64) : BitVec 64 :=
  align (getFreeMemoryStart I requiredSize) (BitVec.ofNat 64 (mb 2))

def markKernelArea (I : Image) (pd : PdTable) (total : BitVec 32) (es : List E820MmapEntry) :
    Option KernelArea :=
  match calculatePageDescriptorSize es with
  | none => none
  | some requiredSize =>
    let start := kernelAreaEnd I requiredSize
    let kernelSize := BitVec.ofNat 64 (toKer start.toNat) - BitVec.ofNat 64 (toKer 0)
    let marked := List.range (kernelSize / BitVec.ofNat 64 (mb 1)).toNat
    some {
      pd := marked.foldl (fun pd i => markPages pd i .kernel (maxOrder - 1)) pd
      totalMemoryBlockCount := total + (kernelSize / BitVec.ofNat 64 (mb 2)).setWidth 32
      start := start
      marked := marked }

/-- The descriptor is in the memory set aside: it ends at or below `start`. -/
def InTable (I : Image) (start : BitVec 64) (i : Nat) : Prop :=
  (getPageDescriptorStart I).toNat + 32 * (i + 1) ≤ toKer start.toNat

/-- Every descriptor that `mark_kernel_area` and `makeBuddy` write is in the memory set aside. -/
def TableFits (L : Layout) (I : Image) (pd : PdTable) (es : List E820MmapEntry) : Prop :=
  match markKernelArea I pd 0 es with
  | none => False
  | some A =>
    (∀ h ∈ A.marked, ∀ i, h ≤ i → i < h + 2 ^ (maxOrder - 1) → InTable I A.start i) ∧
    ∀ n f, makeBuddy L (Mem.start A.pd) A.totalMemoryBlockCount es A.start n = some f →
      ∀ h ∈ f.marked, ∀ i, h ≤ i → i < h + 2 ^ maxOrder → InTable I A.start i

/-- The space is enough: for the descriptors of the kernel's own area, and for those of every block
up to which all blocks from `start` on are in regions. -/
structure Roomy (I : Image) (es : List E820MmapEntry) (start : BitVec 64) : Prop where
  kernel : mb 1 ≤ start.toNat % 2 ^ 47 → (getPageDescriptorStart I).toNat +
    32 * (start.toNat % 2 ^ 47 / mb 1 + 255) ≤ toKer start.toNat
  blocks : ∀ x : BitVec 64, mb 2 ∣ x.toNat → start ≤ x →
    (∀ y : BitVec 64, mb 2 ∣ y.toNat → start ≤ y → y ≤ x → ∃ e ∈ es, e.rangeIn y y) →
    (getPageDescriptorStart I).toNat + 32 * ((x.toNat + mb 2) / smallestPageSize) ≤
      toKer start.toNat

section Align

variable {I : Image} {x : BitVec 64} {k : Nat}

theorem toNat_one64 : (1 : BitVec 64).toNat = 1 := rfl

/-- The bits below `2 ^ k` are cleared. -/
theorem and_not_mask (x : BitVec 64) (hk : k < 64) :
    x &&& ~~~(BitVec.ofNat 64 (2 ^ k) - 1) = x >>> k <<< k := by
  have hpow : 2 ^ k < 2 ^ 64 := Nat.pow_lt_pow_right (by omega) hk
  have hpos := Nat.two_pow_pos k
  have hm : BitVec.ofNat 64 (2 ^ k) - 1 = BitVec.ofNat 64 (2 ^ k - 1) := by
    apply BitVec.eq_of_toNat_eq
    simp only [BitVec.toNat_sub, BitVec.toNat_ofNat, toNat_one64]
    omega
  apply BitVec.eq_of_getLsbD_eq
  intro i hi
  rw [hm, BitVec.getLsbD_and, BitVec.getLsbD_not, BitVec.getLsbD_ofNat,
    Nat.testBit_two_pow_sub_one, BitVec.getLsbD_shiftLeft, BitVec.getLsbD_ushiftRight]
  by_cases h : i < k
  · simp [h]
  · simp [h, hi, Nat.add_sub_cancel' (Nat.not_lt.mp h)]

/-- The multiple of `2 ^ k` at or above an address. -/
theorem toNat_align (hk : k < 64) (h : x.toNat + 2 ^ k ≤ 2 ^ 64) :
    (align x (BitVec.ofNat 64 (2 ^ k))).toNat = (x.toNat + (2 ^ k - 1)) / 2 ^ k * 2 ^ k := by
  have hpow : 2 ^ k < 2 ^ 64 := Nat.pow_lt_pow_right (by omega) hk
  have hpos := Nat.two_pow_pos k
  have hsum : (x + BitVec.ofNat 64 (2 ^ k) - 1).toNat = x.toNat + (2 ^ k - 1) := by
    simp only [BitVec.toNat_sub, BitVec.toNat_add, BitVec.toNat_ofNat, toNat_one64]
    omega
  have hle := Nat.div_mul_le_self (x.toNat + (2 ^ k - 1)) (2 ^ k)
  rw [align, and_not_mask _ hk, BitVec.toNat_shiftLeft, BitVec.toNat_ushiftRight, hsum,
    Nat.shiftRight_eq_div_pow, Nat.shiftLeft_eq, Nat.mod_eq_of_lt (by omega)]

theorem align_dvd (x : BitVec 64) : mb 2 ∣ (align x (BitVec.ofNat 64 (mb 2))).toNat := by
  rw [align, show mb 2 = 2 ^ 21 by decide, and_not_mask _ (by decide), BitVec.toNat_shiftLeft,
    Nat.shiftLeft_eq]
  omega

theorem getPageDescriptorStart_eq (I : Image) : getPageDescriptorStart I = I.istEnd := by
  have hlt := I.istEnd.isLt
  obtain ⟨k, hk⟩ := I.aligned
  rw [show mb 1 = 1048576 from rfl] at hk
  apply BitVec.eq_of_toNat_eq
  rw [getPageDescriptorStart, show (32 : BitVec 64) = BitVec.ofNat 64 (2 ^ 5) by decide,
    toNat_align (by omega) (by omega)]
  omega

/-- `start.to_ker() - (phys_addr_t{nullptr}).to_ker()` -/
theorem toNat_kernelSize (start : BitVec 64) :
    (BitVec.ofNat 64 (toKer start.toNat) - BitVec.ofNat 64 (toKer 0)).toNat =
      start.toNat % 2 ^ 47 := by
  have hker : kerBase = 18446603336221196288 := rfl
  rw [BitVec.toNat_sub, BitVec.toNat_ofNat, BitVec.toNat_ofNat, toKer_eq_mod start.isLt,
    toKer_eq_mod (by omega), hker]
  omega

end Align

section Fits

variable {L : Layout} {I : Image} {pd : PdTable} {es : List E820MmapEntry} {A : KernelArea}
variable {start need : BitVec 64} {n : Nat} {total : BitVec 32} {f : Filling}

theorem mem_marked {h : Nat} (hA : markKernelArea I pd total es = some A) :
    h ∈ A.marked ↔ h < A.start.toNat % 2 ^ 47 / mb 1 := by
  rw [markKernelArea] at hA
  cases hn : calculatePageDescriptorSize es with
  | none =>
    rw [hn] at hA
    cases hA
  | some need =>
    simp only [hn, Option.some.injEq] at hA
    rw [← hA]
    simp only [List.mem_range, BitVec.toNat_udiv, toNat_kernelSize, BitVec.toNat_ofNat]
    rfl

theorem markKernelArea_start (hA : markKernelArea I pd total es = some A) :
    ∃ need, calculatePageDescriptorSize es = some need ∧ A.start = kernelAreaEnd I need := by
  rw [markKernelArea] at hA
  cases hn : calculatePageDescriptorSize es with
  | none =>
    rw [hn] at hA
    cases hA
  | some need =>
    simp only [hn, Option.some.injEq] at hA
    exact ⟨need, rfl, by rw [← hA]⟩

/-- What `makeBuddy` marks fits exactly when the blocks up to which all are in regions do. -/
theorem marked_inTable_iff (hm : SortedMap es) (hal : mb 2 ∣ start.toNat) :
    (∀ n f, makeBuddy L (Mem.start pd) total es start n = some f →
      ∀ h ∈ f.marked, ∀ i, h ≤ i → i < h + 2 ^ maxOrder → InTable I start i) ↔
    ∀ x : BitVec 64, mb 2 ∣ x.toNat → start ≤ x →
      (∀ y : BitVec 64, mb 2 ∣ y.toNat → start ≤ y → y ≤ x → ∃ e ∈ es, e.rangeIn y y) →
      (getPageDescriptorStart I).toNat + 32 * ((x.toNat + mb 2) / smallestPageSize) ≤
        toKer start.toNat := by
  have hpages : ∀ x, mb 2 ∣ x → (x + mb 2) / smallestPageSize = x / smallestPageSize + 511 + 1 := by
    intro x hx
    rw [mb_two] at *
    simp only [smallestPageSize]
    omega
  constructor
  · intro h x hx hle hsw
    obtain ⟨n, f, hf, hw⟩ := makeBuddy_reaches L pd total hm hal hx
      (BitVec.le_def.mp hle) x.isLt (swept_iff.mpr hsw)
    have hmk : x.toNat / smallestPageSize ∈ f.marked :=
      (hw.marked _).mpr ⟨x.toNat, hx, BitVec.le_def.mp hle, by rw [mb_two]; omega, rfl⟩
    have hin := h n f hf _ hmk (x.toNat / smallestPageSize + 511) (by omega)
      (by simp only [maxOrder]; omega)
    rw [hpages _ hx]
    exact hin
  · intro h n f hf m hmk i hlo hhi
    obtain ⟨_, hcase⟩ := makeBuddy_cases hm hal hf
    have hwalked : ∀ x, x ≤ 2 ^ 64 → Walked es start.toNat x f → InTable I start i := by
      intro x hx64 hw
      obtain ⟨y, hy, hle, hlt, rfl⟩ := (hw.marked m).mp hmk
      have hto : (BitVec.ofNat 64 y).toNat = y := by
        rw [BitVec.toNat_ofNat, Nat.mod_eq_of_lt (by omega)]
      have hb := h (BitVec.ofNat 64 y) (by rw [hto]; exact hy) (by rw [BitVec.le_def, hto]; exact hle)
        (swept_iff.mp fun z hz hle' hlt' => by
          rw [hto] at hlt'
          exact hw.swept z hz hle' (by omega))
      rw [hto, hpages y hy] at hb
      rw [InTable]
      simp only [maxOrder] at hhi
      omega
    cases hcase with
    | inl hw => exact hwalked _ (Nat.le_of_lt f.start.isLt) hw.1.walked
    | inr hw =>
      cases hw with
      | inl hh =>
        obtain ⟨x, hx, hh⟩ := hh
        exact hwalked x (Nat.le_of_lt hx) hh.walked
      | inr hsw =>
        -- the descriptors of the whole address space would lie below `start`
        have hlt := start.isLt
        have hx : (BitVec.ofNat 64 (2 ^ 64 - mb 2)).toNat = 2 ^ 64 - mb 2 := by decide
        have hb := h (BitVec.ofNat 64 (2 ^ 64 - mb 2)) (by decide)
          (by rw [BitVec.le_def, hx]; rw [mb_two] at *; omega)
          (swept_iff.mp fun z hz hle' hlt' => by
            rw [hx, mb_two] at hlt'
            exact hsw z hz hle' (by omega))
        have hker := I.ker
        rw [hx, getPageDescriptorStart_eq, toKer_eq_mod start.isLt, mb_two] at hb
        simp only [smallestPageSize, kerBase] at hb hker
        omega

theorem tableFits_of_need (hm : SortedMap es) (hneed : calculatePageDescriptorSize es = some need) :
    TableFits L I pd es ↔ Roomy I es (kernelAreaEnd I need) := by
  obtain ⟨A, hA⟩ : ∃ A, markKernelArea I pd 0 es = some A := by
    rw [markKernelArea, hneed]
    exact ⟨_, rfl⟩
  obtain ⟨need', hneed', hstart⟩ := markKernelArea_start hA
  rw [hneed] at hneed'
  cases hneed'
  have hal : mb 2 ∣ A.start.toNat := by
    rw [hstart]
    exact align_dvd _
  have hkernel : (∀ h ∈ A.marked, ∀ i, h ≤ i → i < h + 2 ^ (maxOrder - 1) → InTable I A.start i) ↔
      (mb 1 ≤ A.start.toNat % 2 ^ 47 → (getPageDescriptorStart I).toNat +
        32 * (A.start.toNat % 2 ^ 47 / mb 1 + 255) ≤ toKer A.start.toNat) := by
    simp only [mem_marked hA, InTable, maxOrder]
    constructor
    · intro h hpos
      have hone : 0 < A.start.toNat % 2 ^ 47 / mb 1 := Nat.div_pos hpos (by decide)
      have hin := h (A.start.toNat % 2 ^ 47 / mb 1 - 1) (by omega)
        (A.start.toNat % 2 ^ 47 / mb 1 + 254) (by omega) (by omega)
      omega
    · intro h m hlt i hlo hhi
      have hpos : mb 1 ≤ A.start.toNat % 2 ^ 47 := by
        by_contra hc
        rw [Nat.div_eq_of_lt (by omega)] at hlt
        omega
      have hin := h hpos
      omega
  rw [TableFits, hA, ← hstart]
  simp only [hkernel, marked_inTable_iff hm hal]
  exact ⟨fun h => ⟨h.1, h.2⟩, fun h => ⟨h.kernel, h.blocks⟩⟩

/-- The descriptor table is not overrun exactly when the map is not empty and there is room for
the descriptors of the kernel's area and of the blocks that are marked. -/
theorem table_fits_iff (L : Layout) (I : Image) (pd : PdTable) (hm : SortedMap es) :
    TableFits L I pd es ↔
      ∃ need, calculatePageDescriptorSize es = some need ∧ Roomy I es (kernelAreaEnd I need) := by
  constructor
  · intro h
    cases hneed : calculatePageDescriptorSize es with
    | none =>
      rw [TableFits, markKernelArea, hneed] at h
      exact h.elim
    | some need => exact ⟨need, rfl, (tableFits_of_need hm hneed).mp h⟩
  · intro h
    obtain ⟨need, hneed, hroomy⟩ := h
    exact (tableFits_of_need hm hneed).mpr hroomy

/-- A kernel that ends at 4 MiB. -/
def smallImage : Image := ⟨0xffff800000400000#64, by decide, by decide⟩

/-- The descriptors of 17 MiB lie below 6 MiB. -/
theorem table_fits_loose : TableFits smallLayout smallImage (fun _ => ⟨0⟩) looseMap := by
  have hend : kernelAreaEnd smallImage 0x1100000 = 0x600000#64 := by decide
  refine (table_fits_iff _ _ _ (SortedMap.singleton _)).mpr ⟨0x1100000, by decide, ?_⟩
  rw [hend]
  refine ⟨fun _ => by decide, fun x hx hle hcov => ?_⟩
  obtain ⟨e, he, hex⟩ := hcov x hx hle (BitVec.le_refl _)
  rw [List.mem_singleton.mp he, rangeIn_iff] at hex
  have hlt : x.toNat < 0x1100000 := hex.2
  have hstart : (getPageDescriptorStart smallImage).toNat = 0xffff800000400000 := by decide
  have hker : toKer (0x600000#64).toNat = 0xffff800000600000 := by decide
  rw [hstart, hker, mb_two]
  simp only [smallestPageSize]
  omega

/-- Free memory up to 16 MiB, and a reserved region from there to 8 GiB. -/
def farMap : List E820MmapEntry := [⟨0, 0x1000000, regionFree, 1⟩, ⟨0x1000000, 0x1ff000000, 2, 1⟩]

theorem farMap_sorted : SortedMap farMap := by
  refine ⟨by decide, List.pairwise_pair.mpr fun x hx => ?_⟩
  have h1 : x < 0x1000000 := hx.1.2
  have h2 : 0x1000000 ≤ x := hx.2.1
  omega

/-- The table is sized for the free memory, but the blocks of the reserved region are marked too. -/
theorem reserved_overruns : ¬ ∀ (L : Layout) (I : Image) (pd : PdTable) (es : List E820MmapEntry),
    SortedMap es → TableFits L I pd es := by
  intro h
  have hend : kernelAreaEnd smallImage 0x1000000 = 0x600000#64 := by decide
  have hroomy := (tableFits_of_need farMap_sorted
    (by decide : calculatePageDescriptorSize farMap = some 0x1000000)).mp
    (h smallLayout smallImage (fun _ => ⟨0⟩) farMap farMap_sorted)
  rw [hend] at hroomy
  have hb := hroomy.blocks 0x1ffe00000#64 (by decide) (by decide) fun y _ _ hyx => by
    have hy : y.toNat ≤ 0x1ffe00000 := BitVec.le_def.mp hyx
    by_cases hlt : y.toNat < 0x1000000
    · exact ⟨_, List.mem_cons_self .., rangeIn_iff.mpr ⟨Nat.zero_le _, hlt⟩⟩
    · refine ⟨_, List.mem_cons_of_mem _ (List.mem_cons_self ..), rangeIn_iff.mpr ⟨?_, ?_⟩⟩
      · exact Nat.not_lt.mp hlt
      · exact Nat.lt_of_le_of_lt hy (by decide)
  revert hb
  decide

end Fits

/-! ## The descriptors of the kernel's area -/

/-- Every group of 256 pages below `start` is described as one block of the kernel. -/
def KernelArea.Described (A : KernelArea) : Prop :=
  ∀ g, (g + 1) * mb 1 ≤ A.start.toNat →
    (A.pd (256 * g)).flags = PageType.kernel.flag ∧ (A.pd (256 * g)).orders = 8 ∧
      ∀ i, 256 * g < i → i < 256 * (g + 1) → (A.pd i).flags = PageType.tails.flag

section Described

variable {I : Image} {pd : PdTable} {es : List E820MmapEntry} {A : KernelArea}
variable {need : BitVec 64} {total : BitVec 32}

/-- Blocks marked one page apart: each head overwrites a tail of the block before it. -/
theorem foldl_markPages_flags (pd : PdTable) (type : PageType) (order n j : Nat) :
    ((List.range n).foldl (fun pd i => markPages pd i type order) pd j).flags =
      if j < n then type.flag
      else if 0 < n ∧ j + 1 < n + 2 ^ order then PageType.tails.flag else (pd j).flags := by
  have hpow := Nat.two_pow_pos order
  induction n with
  | zero => rw [if_neg (by omega), if_neg (by omega)]; rfl
  | succ n ih =>
    rw [List.range_succ, List.foldl_append, List.foldl_cons, List.foldl_nil, markPages_apply]
    by_cases hj : j = n
    · rw [if_pos hj, if_pos (by omega)]
      simp
    · rw [if_neg hj]
      by_cases hin : n < j ∧ j < n + 2 ^ order
      · rw [if_pos hin, if_neg (by omega), if_pos (by omega)]
        simp
      · rw [if_neg hin, ih]
        by_cases hlt : j < n
        · rw [if_pos hlt, if_pos (by omega)]
        · rw [if_neg hlt, if_neg (by omega), if_neg (by omega), if_neg (by omega)]

theorem markKernelArea_pd (hA : markKernelArea I pd total es = some A) :
    A.pd = (List.range (A.start.toNat % 2 ^ 47 / mb 1)).foldl
      (fun pd i => markPages pd i .kernel (maxOrder - 1)) pd := by
  rw [markKernelArea] at hA
  cases hn : calculatePageDescriptorSize es with
  | none =>
    rw [hn] at hA
    cases hA
  | some need =>
    simp only [hn, Option.some.injEq] at hA
    rw [← hA]
    simp only [BitVec.toNat_udiv, toNat_kernelSize, BitVec.toNat_ofNat]
    rfl

theorem markKernelArea_dvd (hA : markKernelArea I pd total es = some A) :
    mb 2 ∣ A.start.toNat := by
  obtain ⟨need, _, hstart⟩ := markKernelArea_start hA
  rw [hstart]
  exact align_dvd _

/-- Where the loop runs at all, the second page of the first group becomes a head. -/
theorem not_described (hA : markKernelArea I pd total es = some A)
    (hruns : A.start.toNat % 2 ^ 47 ≠ 0) : ¬ A.Described := by
  intro h
  have hdvd := markKernelArea_dvd hA
  rw [mb_two] at hdvd
  have hone : mb 1 = 1048576 := rfl
  have htail := (h 0 (by omega)).2.2 1 (by omega) (by omega)
  have hmany : 1 < A.start.toNat % 2 ^ 47 / mb 1 := by
    rw [hone]
    omega
  have hhead : (A.pd 1).flags = PageType.kernel.flag := by
    rw [markKernelArea_pd hA, foldl_markPages_flags, if_pos hmany]
  rw [hhead] at htail
  exact absurd htail (by decide)

/-- The kernel's area is never described, whatever its end: not for every content the table may
have had, and for no content at all when the loop runs. -/
theorem never_described (hneed : calculatePageDescriptorSize es = some need)
    (hpos : 0 < (kernelAreaEnd I need).toNat) :
    (¬ ∀ pd total A, markKernelArea I pd total es = some A → A.Described) ∧
      ((kernelAreaEnd I need).toNat % 2 ^ 47 ≠ 0 →
        ∀ pd total A, markKernelArea I pd total es = some A → ¬ A.Described) := by
  have hend : ∀ {pd total A}, markKernelArea I pd total es = some A →
      A.start = kernelAreaEnd I need := by
    intro pd total A hA
    obtain ⟨need', hneed', hstart⟩ := markKernelArea_start hA
    rw [hneed] at hneed'
    cases hneed'
    exact hstart
  refine ⟨fun h => ?_, fun hruns pd total A hA => not_described hA (by rw [hend hA]; exact hruns)⟩
  obtain ⟨A, hA⟩ : ∃ A, markKernelArea I (fun _ => ⟨0⟩) 0 es = some A := by
    rw [markKernelArea, hneed]
    exact ⟨_, rfl⟩
  have hd := h _ _ A hA
  by_cases hruns : A.start.toNat % 2 ^ 47 = 0
  · -- the address is cut off in `to_ker`, the loop does not run
    have hdvd := markKernelArea_dvd hA
    rw [← hend hA] at hpos
    have hone : mb 1 = 1048576 := rfl
    rw [mb_two] at hdvd
    have hhead := (hd 0 (by omega)).1
    rw [markKernelArea_pd hA, hruns, Nat.zero_div] at hhead
    exact absurd hhead (by decide)
  · exact not_described hA hruns hd

theorem small_end : kernelAreaEnd smallImage 0x1100000 = 0x600000#64 := by decide

theorem never_described_small : ¬ ∀ pd total A,
    markKernelArea smallImage pd total looseMap = some A → A.Described :=
  (never_described (by decide : calculatePageDescriptorSize looseMap = some 0x1100000)
    (by rw [small_end]; decide)).1

/-- The area ends at 6 MiB, the table was all zero. -/
theorem kernel_area_undescribed : ∃ A,
    markKernelArea smallImage (fun _ => ⟨0⟩) 0 looseMap = some A ∧ A.start = 0x600000#64 ∧
      ¬ A.Described := by
  have hneed : calculatePageDescriptorSize looseMap = some 0x1100000 := by decide
  obtain ⟨A, hA⟩ : ∃ A, markKernelArea smallImage (fun _ => ⟨0⟩) 0 looseMap = some A := by
    rw [markKernelArea, hneed]
    exact ⟨_, rfl⟩
  obtain ⟨need, hn, hstart⟩ := markKernelArea_start hA
  rw [hneed] at hn
  cases hn
  rw [small_end] at hstart
  refine ⟨A, hA, hstart, not_described hA ?_⟩
  rw [hstart]
  decide

end Described
end Memory
end TorexOS
