import TorexOS.SlubFrame

/-!
# TorexOS.SlubCells

The cells of the slabs of one allocator.

A slab of `slubs[k]` is a page block of order `k` with 128 cells of `32 * 2^k` bytes.

* `SlabOk`: its free cells are chained from `free_offset`, its other cells are live, and `in_use`
  counts the live cells, from 0 or, once the slab has been full, up to `in_use_max`.
* `Cells`: this for all slabs of an allocator. `Cells.take`, `Cells.give`, `Cells.mark` and
  `Cells.add` are the changes `alloc` and `free` are made of.
-/

namespace TorexOS
namespace Memory

open Util Util.ListBase Dyadic Packed FreeChain

/-- What `in_use` is when all cells are live. -/
def useTop (marked : Bool) : Nat := if marked then 0xffff else 128

structure SlabOk (L : Layout) (K : Kernel) (k : Nat) (objs : List Nat) (b : Nat)
    (chain : List Nat) (marked : Bool) : Prop where
  flags : (K.pd b).flags = PageType.slab.flag
  owner : (K.pd b).owner = L.ownerOf k
  nodup : chain.Nodup
  lt : ∀ c ∈ chain, c < 128
  linked : Chain K.ram (toKerAddr b) (cellSize k) cellNull (K.pd b).freeOffset chain
  inUse : (K.pd b).inUse = BitVec.ofNat 16 (useTop marked - chain.length)
  cells : ∀ c, c < 128 → (cellAddr k b c ∈ objs ↔ c ∉ chain)

theorem useTop_ge (m : Bool) : 128 ≤ useTop m := by cases m <;> decide

theorem useTop_le (m : Bool) : useTop m ≤ 0xffff := by cases m <;> decide

/-- A cell is taken: `in_use++`. -/
theorem inUse_take {n m : Nat} (h : n + 1 ≤ m) :
    BitVec.ofNat 16 (m - (n + 1)) + 1#16 = BitVec.ofNat 16 (m - n) := by
  rw [show m - n = m - (n + 1) + 1 by omega, BitVec.ofNat_add]

/-- A cell is given back: `in_use--`. -/
theorem inUse_give {n m : Nat} (h : n + 1 ≤ m) :
    BitVec.ofNat 16 (m - n) - 1#16 = BitVec.ofNat 16 (m - (n + 1)) := by
  rw [← inUse_take h, BitVec.add_sub_cancel]

theorem freeInOneblock_pd (K : Kernel) (k b c : Nat) :
    (freeInOneblock K b (cellAddr k b c)).pd =
      (K.pd.modify b (·.setFreeOffset (BitVec.ofNat 32 (c * cellSize k)))).modify b
        fun d => d.setInUse (d.inUse - 1) := by
  rw [freeInOneblock, show cellAddr k b c - toKerAddr b = c * cellSize k by rw [cellAddr]; omega]
  rfl

namespace SlabOk

variable {L : Layout} {K K' : Kernel} {k b c : Nat} {objs objs' chain cs : List Nat} {m : Bool}

theorem length_le (h : SlabOk L K k objs b chain m) : chain.length ≤ 128 := by
  have hs : chain ⊆ List.range 128 := fun c hc => List.mem_range.mpr (h.lt c hc)
  simpa using (List.subperm_of_subset h.nodup hs).length_le

theorem length_lt (h : SlabOk L K k objs b chain m) (hc : c < 128) (hnc : c ∉ chain) :
    chain.length < 128 := by
  have hs : c :: chain ⊆ List.range 128 := by
    intro d hd
    rcases List.mem_cons.mp hd with rfl | hd
    · exact List.mem_range.mpr hc
    · exact List.mem_range.mpr (h.lt d hd)
  have hle := (List.subperm_of_subset (List.nodup_cons.mpr ⟨hnc, h.nodup⟩) hs).length_le
  rw [List.length_cons, List.length_range] at hle; omega

theorem offset_lt (hk : k < 7) (hc : c < 128) : c * cellSize k < cellNull.toNat := by
  have h1 := cell_end (k := k) hc
  have h2 : 2 ^ k ≤ 2 ^ 6 := Nat.pow_le_pow_right (by omega) (by omega)
  have h3 := cellSize_ge k
  have h4 : cellNull.toNat = 0xffffffff := by decide
  omega

/-- The test of `alloc` and `free` finds exactly the exhausted slabs. -/
theorem exhausted_iff (h : SlabOk L K k objs b chain m) (hk : k < 7) :
    (K.pd b).freeOffset = cellNull ↔ chain = [] :=
  h.linked.eq_nil_iff fun c hc => offset_lt hk (h.lt c hc)

/-- A slab looks at its fields, its free cells and which of its cells are live. -/
theorem congr (h : SlabOk L K k objs b chain m) (hd : SameSlab (K.pd b) (K'.pd b))
    (hr : ∀ c ∈ chain, load32 K'.ram (cellAddr k b c) = load32 K.ram (cellAddr k b c))
    (ho : ∀ c, c < 128 → (cellAddr k b c ∈ objs' ↔ cellAddr k b c ∈ objs)) :
    SlabOk L K' k objs' b chain m where
  flags := hd.flags.trans h.flags
  owner := hd.owner.trans h.owner
  nodup := h.nodup
  lt := h.lt
  linked := by rw [hd.freeOffset]; exact (Chain.congr hr).mpr h.linked
  inUse := hd.inUse.trans h.inUse
  cells c hc := (ho c hc).trans (h.cells c hc)

/-! ## The two cell operations -/

/-- `alloc_in_oneblock` takes the first cell of the chain. -/
theorem allocInOneblock_eq (h : SlabOk L K k objs b (c :: cs) m) (hk : k < 7) :
    allocInOneblock K b = (some (cellAddr k b c), K.withPd
      ((K.pd.modify b (·.setFreeOffset (load32 K.ram (cellAddr k b c)))).modify b
        fun d => d.setInUse (d.inUse + 1))) := by
  have hne : (K.pd b).freeOffset ≠ cellNull := by rw [ne_eq, h.exhausted_iff hk]; simp
  have hof : (K.pd b).freeOffset.toNat = c * cellSize k := by
    rw [h.linked.1, BitVec.toNat_ofNat, Nat.mod_eq_of_lt]
    exact lt_trans (offset_lt hk (h.lt c (by simp))) cellNull.isLt
  rw [allocInOneblock, if_neg hne]
  simp only [hof, cellAddr]

theorem take (h : SlabOk L K k objs b (c :: cs) m) (hk : k < 7) :
    SlabOk L (allocInOneblock K b).2 k (cellAddr k b c :: objs) b cs m := by
  have hnd := List.nodup_cons.mp h.nodup
  have hlen : cs.length + 1 ≤ useTop m := by
    have h1 := h.length_le
    have h2 := useTop_ge m
    rw [List.length_cons] at h1; omega
  rw [h.allocInOneblock_eq hk]
  refine ⟨?_, ?_, hnd.2, fun d hd => h.lt d (by simp [hd]), ?_, ?_, ?_⟩
  · simpa using h.flags
  · simpa using h.owner
  · simpa [cellAddr] using h.linked.2
  · have hu := h.inUse
    rw [List.length_cons] at hu
    simp only [Kernel.withPd_pd, PdTable.modify_same, PageDescriptor.inUse_setInUse,
      PageDescriptor.inUse_setFreeOffset, hu]
    exact inUse_take hlen
  · intro d hd
    rw [List.mem_cons, h.cells d hd, List.mem_cons, not_or]
    constructor
    · rintro (he | hn)
      · rw [cellAddr_inj he]; exact hnd.1
      · exact hn.2
    · intro hn
      by_cases hdc : d = c
      · left; rw [hdc]
      · exact .inr ⟨hdc, hn⟩

/-- `free_in_oneblock` puts the cell in front of the chain. -/
theorem give (h : SlabOk L K k objs b chain m) (hc : c < 128) (hp : cellAddr k b c ∈ objs)
    (hnd : objs.Nodup) :
    SlabOk L (freeInOneblock K b (cellAddr k b c)) k (objs.erase (cellAddr k b c)) b
      (c :: chain) m := by
  have hnc : c ∉ chain := (h.cells c hc).mp hp
  have hsz := cellSize_ge k
  have hlen : chain.length + 1 ≤ useTop m := by
    have h1 := h.length_lt hc hnc
    have h2 := useTop_ge m
    omega
  refine ⟨?_, ?_, List.nodup_cons.mpr ⟨hnc, h.nodup⟩, ?_, ?_, ?_, ?_⟩
  · rw [freeInOneblock_pd]; simpa using h.flags
  · rw [freeInOneblock_pd]; simpa using h.owner
  · intro d hd
    rcases List.mem_cons.mp hd with rfl | hd
    · exact hc
    · exact h.lt d hd
  · rw [freeInOneblock_pd]
    simp only [PdTable.modify_same, PageDescriptor.freeOffset_setInUse,
      PageDescriptor.freeOffset_setFreeOffset]
    exact h.linked.push hnc (by omega)
  · rw [freeInOneblock_pd]
    simp only [PdTable.modify_same, PageDescriptor.inUse_setInUse,
      PageDescriptor.inUse_setFreeOffset, h.inUse, List.length_cons]
    exact inUse_give hlen
  · intro d hd
    rw [hnd.mem_erase_iff, h.cells d hd, List.mem_cons, not_or]
    constructor
    · rintro ⟨hne, hn⟩
      exact ⟨fun he => hne (by rw [he]), hn⟩
    · rintro ⟨hne, hn⟩
      exact ⟨fun he => hne (cellAddr_inj he), hn⟩

/-- An exhausted slab is marked full. -/
theorem mark (h : SlabOk L K k objs b [] m) :
    SlabOk L (K.withPd (K.pd.modify b (·.setInUse inUseMax))) k objs b [] true := by
  refine ⟨?_, ?_, .nil, by simp, ?_, ?_, h.cells⟩
  · simpa using h.flags
  · simpa using h.owner
  · simpa using h.linked
  · simp [useTop, inUseMax]

end SlabOk

/-! ## make_slabs -/

theorem fillCells_spec {size n : Nat} (hsz : 4 ≤ size) (base : Nat) (ram : Nat → BitVec 8) (a : Nat)
    (ha : a ≤ n) :
    (fillCells ram base size (n * size) (a * size)).2 = n * size ∧
    (∀ i, a ≤ i → i < n → load32 (fillCells ram base size (n * size) (a * size)).1
      (base + i * size) = BitVec.ofNat 32 ((i + 1) * size)) ∧
    ∀ x, x < base + a * size ∨ base + n * size ≤ x →
      (fillCells ram base size (n * size) (a * size)).1 x = ram x := by
  induction hm : n - a generalizing ram a with
  | zero =>
    obtain rfl : a = n := by omega
    rw [fillCells, if_neg (by omega)]
    exact ⟨rfl, fun i h1 h2 => by omega, fun _ _ => rfl⟩
  | succ j ih =>
    have han : a < n := by omega
    have hlt : a * size < n * size := Nat.mul_lt_mul_of_pos_right han (by omega)
    have hsucc : (a + 1) * size = a * size + size := Nat.succ_mul a size
    have hle : (a + 1) * size ≤ n * size := Nat.mul_le_mul_right size han
    rw [fillCells, if_pos ⟨hlt, by omega⟩, ← hsucc]
    obtain ⟨h1, h2, h3⟩ := ih (store32 ram (base + a * size) (BitVec.ofNat 32 ((a + 1) * size)))
      (a + 1) (by omega) (by omega)
    refine ⟨h1, fun i hi hin => ?_, fun x hx => ?_⟩
    · by_cases hia : i = a
      · -- the later iterations write above the cell just written
        subst hia
        rw [load32_congr fun y hy => h3 _ (.inl (by omega)), load32_store32]
      · exact h2 i (by omega) hin
    · rw [h3 x (by omega)]
      exact store32_outside _ (by omega)

theorem makeSlabs_limit (k : Nat) : smallestPageSize <<< k = 128 * cellSize k := by
  rw [Nat.shiftLeft_eq, smallestPageSize, cellSize]; ring

section MakeSlabs

variable {L : Layout} {K : Kernel} {k h : Nat}

theorem makeSlabs_pd : (makeSlabs L K k h).pd = K.pd.modify h (·.setOwner (L.ownerOf k)) := rfl
theorem makeSlabs_slubs : (makeSlabs L K k h).slubs = K.slubs := rfl
theorem makeSlabs_pages : (makeSlabs L K k h).pages =
    (K.withPd (K.pd.modify h (·.setOwner (L.ownerOf k)))).pages := rfl

theorem makeSlabs_ram (hs : (K.slubs k).objectSize = cellSize k) (ho : (K.pd h).orders = k) :
    (∀ i, i + 1 < 128 → load32 (makeSlabs L K k h).ram (cellAddr k h i) =
      BitVec.ofNat 32 ((i + 1) * cellSize k)) ∧
    load32 (makeSlabs L K k h).ram (cellAddr k h 127) = cellNull ∧
    ∀ x, ¬ InPages ⟨h, k⟩ x → (makeSlabs L K k h).ram x = K.ram x := by
  have hsz := cellSize_ge k
  have hidx : 128 * cellSize k - cellSize k = 127 * cellSize k := by omega
  obtain ⟨h1, h2, h3⟩ := fillCells_spec (n := 128) (show 4 ≤ cellSize k by omega)
    (toKerAddr h) K.ram 0 (by omega)
  rw [Nat.zero_mul] at h1 h2 h3
  have hram : (makeSlabs L K k h).ram = store32
      (fillCells K.ram (toKerAddr h) (cellSize k) (128 * cellSize k) 0).1
      (cellAddr k h 127) cellNull := by
    simp only [makeSlabs, ho, makeSlabs_limit, Kernel.withPd_ram, Kernel.withPd_slubs, hs, h1,
      hidx, cellAddr]
  rw [hram]
  refine ⟨fun i hi => ?_, load32_store32 _ _ _, fun x hx => ?_⟩
  · have happ := cell_apart (show 4 ≤ cellSize k by omega) (toKerAddr h) (show i ≠ 127 by omega)
    rw [load32_store32_ne _ (by simpa only [cellAddr] using happ)]
    exact h2 i (by omega) (by omega)
  · have hend : 128 * cellSize k = 4096 * 2 ^ k := by rw [cellSize]; ring
    have h127 : cellAddr k h 127 = toKerAddr h + 127 * cellSize k := rfl
    simp only [InPages, not_and, not_lt] at hx
    have hout : x < toKerAddr h ∨ toKerAddr h + 128 * cellSize k ≤ x := by
      by_cases hlo : toKerAddr h ≤ x
      · right; rw [hend]; exact hx hlo
      · left; omega
    rw [store32_outside _ (by omega), h3 x (by omega)]

/-- A fresh block becomes a slab whose cells are all free: a null `prev` is a zero `in_use` and a
zero `free_offset`. -/
theorem makeSlabs_slabOk {objs : List Nat} (hs : (K.slubs k).objectSize = cellSize k)
    (ho : (K.pd h).orders = k) (hf : (K.pd h).flags = PageType.slab.flag)
    (hp : (K.pd h).prev = 0#64) (hobj : ∀ c, c < 128 → cellAddr k h c ∉ objs) :
    SlabOk L (makeSlabs L K k h) k objs h (List.range 128) false := by
  obtain ⟨h1, h2, _⟩ := makeSlabs_ram (L := L) hs ho
  refine ⟨?_, ?_, List.nodup_range, fun c hc => List.mem_range.mp hc, ?_, ?_, ?_⟩
  · rw [makeSlabs_pd]; simpa using hf
  · rw [makeSlabs_pd]; simp
  · have hc : Chain (makeSlabs L K k h).ram (toKerAddr h) (cellSize k) cellNull
        (BitVec.ofNat 32 (0 * cellSize k)) (List.range' 0 (127 + 1)) :=
      chain_range' (fun j _ hj => h1 j (by omega)) (by rw [Nat.zero_add]; exact h2)
    rw [makeSlabs_pd, List.range_eq_range']
    simpa [PageDescriptor.freeOffset_of_prev hp] using hc
  · rw [makeSlabs_pd]
    simp [PageDescriptor.inUse_of_prev hp, useTop]
  · intro c hc
    simp [hobj c hc, hc]

end MakeSlabs

/-! ## All slabs of an allocator -/

/-- The slabs `own` of `slubs[k]`, with the free cells `chain` and the live objects `objs`. -/
structure Cells (L : Layout) (K : Kernel) (k : Nat) (own : Nat → Prop) (chain : Nat → List Nat)
    (marked : Nat → Bool) (objs : List Nat) : Prop where
  held : ∀ b, own b → ⟨b, k⟩ ∈ K.pages.live
  slab : ∀ b, own b → SlabOk L K k objs b (chain b) (marked b)
  located : ∀ p ∈ objs, ∃ b, own b ∧ ∃ c, c < 128 ∧ p = cellAddr k b c
  nodup : objs.Nodup

section Words

variable {L : Layout} {P : Pool L} {s : BuddyState} {F : Nat → List Nat}
variable {k j b d c e : Nat} {ram ram' : Nat → BitVec 8}

/-- Memory written inside one live block leaves the cells of another slab. -/
theorem BuddyOk.word_outside {a : Block} (h : BuddyOk P s F) (ha : a ∈ s.live)
    (hd : ⟨d, j⟩ ∈ s.live) (hne : (⟨d, j⟩ : Block) ≠ a)
    (hr : ∀ x, ¬ InPages a x → ram' x = ram x) (hc : c < 128) :
    load32 ram' (cellAddr j d c) = load32 ram (cellAddr j d c) := by
  have := cellSize_ge j
  refine load32_congr fun i hi => hr _ fun hin => hne ?_
  exact h.inPages_unique hd ha (cell_inPages hc (by omega)) hin

theorem BuddyOk.cellAddr_ne (h : BuddyOk P s F) (hb : ⟨b, k⟩ ∈ s.live) (hd : ⟨d, j⟩ ∈ s.live)
    (hne : (⟨d, j⟩ : Block) ≠ ⟨b, k⟩) (hc : c < 128) (he : e < 128) :
    cellAddr j d e ≠ cellAddr k b c :=
  h.inPages_ne hd hb hne (cellAddr_inPages he) (cellAddr_inPages hc)

end Words

namespace Cells

variable {L : Layout} {P : Pool L} {K K' : Kernel} {F : Nat → List Nat} {k b c : Nat}
variable {own own' : Nat → Prop} {chain : Nat → List Nat} {marked : Nat → Bool}
variable {objs cs : List Nat}

/-- What the slabs of an allocator look at. -/
theorem frame (h : Cells L K k own chain marked objs)
    (hlive : ∀ b, own b → ⟨b, k⟩ ∈ K'.pages.live)
    (hpd : ∀ b, own b → SameSlab (K.pd b) (K'.pd b))
    (hr : ∀ b, own b → ∀ c ∈ chain b,
      load32 K'.ram (cellAddr k b c) = load32 K.ram (cellAddr k b c)) :
    Cells L K' k own chain marked objs where
  held := hlive
  slab b hb := (h.slab b hb).congr (hpd b hb) (hr b hb) fun _ _ => Iff.rfl
  located := h.located
  nodup := h.nodup

theorem ne_block {d : Nat} (hne : d ≠ b) : (⟨d, k⟩ : Block) ≠ ⟨b, k⟩ :=
  fun h => hne (congrArg Block.head h)

/-- `alloc_in_oneblock` on a slab that is not exhausted. -/
theorem take (h : Cells L K k own chain marked objs) (hB : BuddyOk P K.pages F) (hk : k < 7)
    (hb : own b) (hc : chain b = c :: cs) :
    cellAddr k b c ∉ objs ∧ Cells L (allocInOneblock K b).2 k own (Function.update chain b cs)
      marked (cellAddr k b c :: objs) := by
  have hs := h.slab b hb
  rw [hc] at hs
  have hc128 : c < 128 := hs.lt c (by simp)
  have hnew : cellAddr k b c ∉ objs := by rw [hs.cells c hc128]; simp
  refine ⟨hnew, fun d hd => ?_, fun d hd => ?_, fun p hp => ?_, List.nodup_cons.mpr ⟨hnew, h.nodup⟩⟩
  · rw [hs.allocInOneblock_eq hk]; exact h.held d hd
  · by_cases hdb : d = b
    · subst hdb; rw [Function.update_self]; exact hs.take hk
    · rw [Function.update_of_ne hdb]
      refine (h.slab d hd).congr ?_ ?_ ?_
      · rw [hs.allocInOneblock_eq hk, Kernel.withPd_pd, PdTable.modify_ne _ _ hdb,
          PdTable.modify_ne _ _ hdb]
        exact .rfl
      · intro e _; rw [hs.allocInOneblock_eq hk]; rfl
      · intro e he
        have hne := hB.cellAddr_ne (h.held b hb) (h.held d hd) (ne_block hdb) hc128 he
        simp [hne]
  · rcases List.mem_cons.mp hp with rfl | hp
    · exact ⟨b, hb, c, hc128, rfl⟩
    · exact h.located p hp

/-- `free_in_oneblock` on a live object. -/
theorem give (h : Cells L K k own chain marked objs) (hB : BuddyOk P K.pages F) (hb : own b)
    (hc : c < 128) (hp : cellAddr k b c ∈ objs) :
    Cells L (freeInOneblock K b (cellAddr k b c)) k own (Function.update chain b (c :: chain b))
      marked (objs.erase (cellAddr k b c)) := by
  have hsz := cellSize_ge k
  refine ⟨h.held, fun d hd => ?_, fun p hq => h.located p (List.mem_of_mem_erase hq), h.nodup.erase _⟩
  by_cases hdb : d = b
  · subst hdb; rw [Function.update_self]; exact (h.slab d hd).give hc hp h.nodup
  · rw [Function.update_of_ne hdb]
    refine (h.slab d hd).congr ?_ ?_ ?_
    · rw [freeInOneblock_pd, PdTable.modify_ne _ _ hdb, PdTable.modify_ne _ _ hdb]
      exact .rfl
    · intro e he
      refine hB.word_outside (h.held b hb) (h.held d hd) (ne_block hdb) ?_ ((h.slab d hd).lt e he)
      intro x hx
      refine store32_outside _ ?_
      by_contra hin
      exact hx (cell_byte hc (by omega))
    · intro e he
      have hne := hB.cellAddr_ne (h.held b hb) (h.held d hd) (ne_block hdb) hc he
      rw [h.nodup.mem_erase_iff]
      simp [hne]

/-- An exhausted slab is marked full. -/
theorem mark (h : Cells L K k own chain marked objs) (hc : chain b = []) :
    Cells L (K.withPd (K.pd.modify b (·.setInUse inUseMax))) k own chain
      (Function.update marked b true) objs := by
  refine ⟨h.held, fun d hd => ?_, h.located, h.nodup⟩
  have hs := h.slab d hd
  by_cases hdb : d = b
  · subst hdb; rw [Function.update_self, hc]; rw [hc] at hs; exact hs.mark
  · rw [Function.update_of_ne hdb]
    refine hs.congr ?_ (fun _ _ => rfl) fun _ _ => Iff.rfl
    rw [Kernel.withPd_pd, PdTable.modify_ne _ _ hdb]
    exact .rfl

/-- `make_slabs` on a fresh block. -/
theorem add (h : Cells L K k own chain marked objs) (hB : BuddyOk P K.pages F) (hb : ⟨b, k⟩ ∈ K.pages.live)
    (hnb : ¬ own b) (hs : (K.slubs k).objectSize = cellSize k)
    (hf : (K.pd b).flags = PageType.slab.flag) (hp : (K.pd b).prev = 0#64) :
    Cells L (makeSlabs L K k b) k (fun d => d = b ∨ own d)
      (Function.update chain b (List.range 128)) (Function.update marked b false) objs := by
  have hne : ∀ d, own d → d ≠ b := by rintro d hd rfl; exact hnb hd
  have hfresh : ∀ c, c < 128 → cellAddr k b c ∉ objs := by
    intro c hc hmem
    obtain ⟨d, hd, e, he, heq⟩ := h.located _ hmem
    exact hB.cellAddr_ne (h.held d hd) hb (ne_block (hne d hd)).symm he hc heq
  have ho : (K.pd b).orders = k := hB.orders ⟨b, k⟩ hb
  refine ⟨?_, ?_, ?_, h.nodup⟩
  · rintro d (rfl | hd)
    · exact hb
    · exact h.held d hd
  · rintro d (rfl | hd)
    · rw [Function.update_self, Function.update_self]
      exact makeSlabs_slabOk hs ho hf hp hfresh
    · rw [Function.update_of_ne (hne d hd), Function.update_of_ne (hne d hd)]
      refine (h.slab d hd).congr ?_ ?_ fun _ _ => Iff.rfl
      · rw [makeSlabs_pd, PdTable.modify_ne _ _ (hne d hd)]; exact .rfl
      · intro c hc
        exact hB.word_outside hb (h.held d hd) (ne_block (hne d hd)) (makeSlabs_ram hs ho).2.2
          ((h.slab d hd).lt c hc)
  · intro p hp
    obtain ⟨d, hd, hc⟩ := h.located p hp
    exact ⟨d, .inr hd, hc⟩

end Cells
end Memory
end TorexOS
