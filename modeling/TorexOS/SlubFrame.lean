import TorexOS.Slub

/-!
# TorexOS.SlubFrame

What slab operations leave alone.

* `InPages`, `cellAddr`: the bytes of a page block, and the cells of a slab.
* `Within`: writes to some descriptors that keep types and orders, as all slab operations make
  them.
* `BuddyOk.withPd` and the two theorems after it: the page allocator does not look at descriptors
  of live blocks, types and orders apart.
-/

namespace TorexOS
namespace Memory

open Util Util.ListBase Dyadic Packed FreeChain

/-! ## Addresses -/

/-- The bytes of a page block. -/
def InPages (b : Block) (a : Nat) : Prop :=
  toKerAddr b.head ≤ a ∧ a < toKerAddr b.head + 4096 * 2 ^ b.order

/-- The object size of `slubs[k]`. -/
def cellSize (k : Nat) : Nat := 32 * 2 ^ k

/-- Cell `c` of the slab at `b`. -/
def cellAddr (k b c : Nat) : Nat := toKerAddr b + c * cellSize k

theorem cellSize_ge (k : Nat) : 32 ≤ cellSize k := by
  have := Nat.two_pow_pos k
  rw [cellSize]; omega

theorem cell_end {k c : Nat} (hc : c < 128) : c * cellSize k + cellSize k ≤ 4096 * 2 ^ k := by
  have h := Nat.mul_le_mul_right (cellSize k) (Nat.succ_le_of_lt hc)
  rw [Nat.succ_mul] at h
  rw [cellSize] at h ⊢; omega

theorem cell_inPages {k b c i : Nat} (hc : c < 128) (hi : i < cellSize k) :
    InPages ⟨b, k⟩ (cellAddr k b c + i) := by
  have := cell_end (k := k) hc
  simp only [InPages, cellAddr]
  omega

/-- A byte of a cell. -/
theorem cell_byte {k b c x : Nat} (hc : c < 128)
    (hx : cellAddr k b c ≤ x ∧ x < cellAddr k b c + cellSize k) : InPages ⟨b, k⟩ x := by
  have hin := cell_inPages (k := k) (b := b) (i := x - cellAddr k b c) hc (by omega)
  rwa [Nat.add_sub_cancel' hx.1] at hin

theorem cellAddr_inPages {k b c : Nat} (hc : c < 128) : InPages ⟨b, k⟩ (cellAddr k b c) :=
  cell_inPages (i := 0) hc (by have := cellSize_ge k; omega)

theorem cellAddr_inj {k b c d : Nat} (h : cellAddr k b c = cellAddr k b d) : c = d := by
  have := cellSize_ge k
  rw [cellAddr, cellAddr] at h
  exact Nat.eq_of_mul_eq_mul_right (by omega) (Nat.add_left_cancel h)

section Pages

variable {L : Layout} {P : Pool L} {s : BuddyState} {F : Nat → List Nat} {b c : Block} {a : Nat}

theorem BuddyOk.block_end (h : BuddyOk P s F) (hb : IsBlock F s.live b) :
    b.head + 2 ^ b.order ≤ L.pages := by
  have hpos := Nat.two_pow_pos b.order
  have hin := h.inv.tiling.inside b hb (b.head + 2 ^ b.order - 1) ⟨by omega, by omega⟩
  have hfit := h.inv.fits _ hin
  omega

/-- The page of an address of the block is one of its pages. -/
theorem InPages.covers (h : InPages b a) (hb : b.head < L.pages) :
    b.Covers ((a - kerBase) / 4096) := by
  have := L.pages_le
  rw [InPages, toKerAddr_eq (by omega)] at h
  rw [Block.Covers]
  generalize 2 ^ b.order = n at *
  omega

/-- An address is in one live block at most. -/
theorem BuddyOk.inPages_unique (h : BuddyOk P s F) (hb : b ∈ s.live) (hc : c ∈ s.live)
    (hab : InPages b a) (hac : InPages c a) : b = c :=
  h.inv.tiling.unique b c (.inr hb) (.inr hc) _ (hab.covers (h.inv.head_lt (.inr hb)))
    (hac.covers (h.inv.head_lt (.inr hc)))

/-- Addresses in two live blocks differ. -/
theorem BuddyOk.inPages_ne {x y : Nat} (h : BuddyOk P s F) (hb : b ∈ s.live) (hc : c ∈ s.live)
    (hne : b ≠ c) (hx : InPages b x) (hy : InPages c y) : x ≠ y := by
  rintro rfl
  exact hne (h.inPages_unique hb hc hx hy)

end Pages

/-! ## Writes to slab descriptors -/

/-- Descriptors outside `S` are left alone, and types and orders everywhere. -/
structure Within (S : Nat → Prop) (pd pd' : PdTable) : Prop where
  outside : ∀ i, ¬ S i → pd' i = pd i
  flags : ∀ i, (pd' i).flags = (pd i).flags
  orders : ∀ i, (pd' i).orders = (pd i).orders

/-- The fields of `SlubBlock` other than the links. -/
structure SameSlab (d d' : PageDescriptor) : Prop where
  flags : d'.flags = d.flags
  owner : d'.owner = d.owner
  freeOffset : d'.freeOffset = d.freeOffset
  inUse : d'.inUse = d.inUse

def LinksKept (pd pd' : PdTable) : Prop :=
  ∀ i, (pd' i).nextBlock = (pd i).nextBlock ∧ (pd' i).prevBlock = (pd i).prevBlock

theorem SameSlab.rfl {d : PageDescriptor} : SameSlab d d := ⟨Eq.refl _, Eq.refl _, Eq.refl _, Eq.refl _⟩

theorem SameSlab.trans {d e f : PageDescriptor} (h : SameSlab d e) (h' : SameSlab e f) :
    SameSlab d f :=
  ⟨h'.flags.trans h.flags, h'.owner.trans h.owner, h'.freeOffset.trans h.freeOffset,
    h'.inUse.trans h.inUse⟩

namespace Within

variable {S S' : Nat → Prop} {pd pd' pd'' : PdTable} {b : Nat}

theorem refl : Within S pd pd := ⟨fun _ _ => rfl, fun _ => rfl, fun _ => rfl⟩

theorem trans (h : Within S pd pd') (h' : Within S pd' pd'') : Within S pd pd'' :=
  ⟨fun i hi => (h'.outside i hi).trans (h.outside i hi),
    fun i => (h'.flags i).trans (h.flags i), fun i => (h'.orders i).trans (h.orders i)⟩

theorem mono (h : Within S pd pd') (hS : ∀ i, S i → S' i) : Within S' pd pd' :=
  ⟨fun i hi => h.outside i fun hc => hi (hS i hc), h.flags, h.orders⟩

theorem modify {f : PageDescriptor → PageDescriptor} (hf : ∀ d, (f d).flags = d.flags)
    (ho : ∀ d, (f d).orders = d.orders) : Within (· = b) pd (pd.modify b f) :=
  ⟨fun _ hi => PdTable.modify_ne pd f hi, PdTable.field_modify PageDescriptor.flags hf pd b,
    PdTable.field_modify PageDescriptor.orders ho pd b⟩

end Within

theorem LinksKept.modify {pd : PdTable} {b : Nat} {f : PageDescriptor → PageDescriptor}
    (hn : ∀ d, (f d).nextBlock = d.nextBlock) (hp : ∀ d, (f d).prevBlock = d.prevBlock) :
    LinksKept pd (pd.modify b f) := fun i =>
  ⟨PdTable.field_modify PageDescriptor.nextBlock hn pd b i,
    PdTable.field_modify PageDescriptor.prevBlock hp pd b i⟩

theorem LinksKept.trans {pd pd' pd'' : PdTable} (h : LinksKept pd pd') (h' : LinksKept pd' pd'') :
    LinksKept pd pd'' :=
  fun i => ⟨(h' i).1.trans (h i).1, (h' i).2.trans (h i).2⟩

/-- Link writes of slab lists. -/
theorem slub_writes {L : Layout} {S : Nat → Prop} {pd pd' : PdTable}
    (h : Writes (slubBlock L) S pd pd') : Within S pd pd' ∧ ∀ i, SameSlab (pd i) (pd' i) := by
  have keep : ∀ (pd : PdTable) (a : Nat) (f : PageDescriptor → PageDescriptor), S a →
      (∀ d, SameSlab d (f d)) → (∀ d, (f d).orders = d.orders) →
      Within S pd (pd.modify a f) ∧ ∀ i, SameSlab (pd i) (pd.modify a f i) := by
    intro pd a f ha hf ho
    refine ⟨(Within.modify (fun d => (hf d).flags) ho).mono fun i hi => hi ▸ ha, fun i => ?_⟩
    rw [PdTable.modify_apply]; split
    · exact hf _
    · exact .rfl
  have step : ∀ {pd1 pd2 : PdTable}, (Within S pd pd1 ∧ ∀ i, SameSlab (pd i) (pd1 i)) →
      (Within S pd1 pd2 ∧ ∀ i, SameSlab (pd1 i) (pd2 i)) →
      Within S pd pd2 ∧ ∀ i, SameSlab (pd i) (pd2 i) := by
    rintro pd1 pd2 ⟨h1, e1⟩ ⟨h2, e2⟩
    exact ⟨h1.trans h2, fun i => (e1 i).trans (e2 i)⟩
  induction h with
  | refl => exact ⟨.refl, fun _ => .rfl⟩
  | @next pd1 a p _ ha ih =>
    exact step ih (keep pd1 a (·.setNextBlock (L.encode p)) ha
      (fun d => ⟨by simp, by simp, by simp, by simp⟩) (by simp))
  | @prev pd1 a p _ ha ih =>
    exact step ih (keep pd1 a (·.setPrevBlock (L.encode p)) ha
      (fun d => ⟨by simp, by simp, by simp, by simp⟩) (by simp))

namespace Kernel

variable (K : Kernel) (pd : PdTable) (k : Nat) (r : PdTable × ListBase Nat)

@[simp] theorem withPd_pd : (K.withPd pd).pd = pd := rfl
@[simp] theorem withPd_ram : (K.withPd pd).ram = K.ram := rfl
@[simp] theorem withPd_slubs : (K.withPd pd).slubs = K.slubs := rfl
@[simp] theorem withPd_live : (K.withPd pd).pages.live = K.pages.live := rfl
@[simp] theorem setPartial_pd : (K.setPartial k r).pd = r.1 := rfl
@[simp] theorem setPartial_ram : (K.setPartial k r).ram = K.ram := rfl
@[simp] theorem setPartial_pages : (K.setPartial k r).pages = (K.withPd r.1).pages := rfl
@[simp] theorem setFull_pd : (K.setFull k r).pd = r.1 := rfl
@[simp] theorem setFull_ram : (K.setFull k r).ram = K.ram := rfl
@[simp] theorem setFull_pages : (K.setFull k r).pages = (K.withPd r.1).pages := rfl
@[simp] theorem setPartial_slubs : (K.setPartial k r).slubs =
    Function.update K.slubs k { K.slubs k with partialList := r.2 } := rfl
@[simp] theorem setFull_slubs : (K.setFull k r).slubs =
    Function.update K.slubs k { K.slubs k with fullList := r.2 } := rfl

end Kernel

section WithPd

variable {L : Layout} {P : Pool L} {K : Kernel} {F : Nat → List Nat} {S : Nat → Prop}
variable {pd' : PdTable} {Q : PdTable → ListBase Nat → Nat → Prop} {b o : Nat}

theorem BuddyOk.not_free_head (h : BuddyOk P K.pages F) (hS : ∀ i, S i → ∃ b ∈ K.pages.live, b.head = i)
    (hf : (K.pd o).flags = PageType.free.flag) : ¬ S o := by
  intro hs
  obtain ⟨b, hb, rfl⟩ := hS o hs
  exact h.flags b hb hf

/-- The page allocator does not look at what slab operations write. -/
theorem BuddyOk.withPd (h : BuddyOk P K.pages F) (hw : Within S K.pd pd')
    (hS : ∀ i, S i → ∃ b ∈ K.pages.live, b.head = i) : BuddyOk P (K.withPd pd').pages F := by
  have hfree : ∀ o, ∀ a ∈ F o, pd' a = K.pd a := fun o a ha =>
    hw.outside a (h.not_free_head hS (h.inv.free_head o a ha).1)
  refine ⟨h.inv.reheld_inv rfl hfree ?_ ?_ h.inv.tiling h.inv.held_nodup h.inv.held_not_free,
    h.coalesced, ?_, ?_⟩
  · exact fun b hb => ⟨(h.inv.held_head b hb).1, by
      rw [show ((K.withPd pd').pages.mem.pd b.head).flags = _ from hw.flags b.head]
      exact (h.inv.held_head b hb).2⟩
  · exact fun b hb p hlo hhi => (hw.flags p).trans (h.inv.tails b hb p hlo hhi)
  · exact fun b hb => (hw.orders _).trans (h.orders b hb)
  · intro b hb
    rw [show ((K.withPd pd').pages.mem.pd b.head).flags = _ from hw.flags b.head]
    exact h.flags b hb

theorem BuddyOk.linked_withPd (h : BuddyOk P K.pages F) (hw : Within S K.pd pd')
    (hS : ∀ i, S i → ∃ b ∈ K.pages.live, b.head = i) (hl : AllLinked L K.pages.mem F) :
    AllLinked L (K.withPd pd').pages.mem F :=
  BuddyInv.allLinked_of_pd hl rfl fun o a ha =>
    hw.outside a (h.not_free_head hS (h.inv.free_head o a ha).1)

theorem BuddyOk.lostHead_withPd (h : BuddyOk P K.pages F) (hw : Within S K.pd pd')
    (hS : ∀ i, S i → ∃ b ∈ K.pages.live, b.head = i) :
    LostHead L (K.withPd pd').pages.mem o ↔ LostHead L K.pages.mem o := by
  have hfree : ∀ a ∈ (K.pages.mem.allocator.freelist o).head, pd' a = K.pd a := by
    intro a ha
    have hm : a ∈ F o := List.mem_of_mem_head? (by rw [← (h.inv.threaded o).head]; exact ha)
    exact hw.outside a (h.not_free_head hS (h.inv.free_head o a hm).1)
  refine exists_congr fun a => and_congr_right fun ha => and_congr_right fun _ => ?_
  have hpd : (K.withPd pd').pages.mem.pd a = K.pages.mem.pd a := hfree a ha
  simp only [freeBlock, hpd]

theorem BuddyOk.onMerge_withPd (h : BuddyOk P K.pages F) (hw : Within S K.pd pd')
    (hS : ∀ i, S i → ∃ b ∈ K.pages.live, b.head = i) (hQ : BuddyInv.Local Q) :
    OnMerge Q (K.withPd pd').pages.mem b o ↔ OnMerge Q K.pages.mem b o := by
  have hat : ∀ k, MergesAt (K.withPd pd').pages.mem.pd b k ↔ MergesAt K.pages.mem.pd b k := by
    intro k
    rw [MergesAt, MergesAt, show ((K.withPd pd').pages.mem.pd _).flags = _ from hw.flags _,
      show ((K.withPd pd').pages.mem.pd _).orders = _ from hw.orders _]
    rfl
  simp only [OnMerge, MergesUpTo, hat]
  refine exists_congr fun k => and_congr_right fun hk => and_congr_right fun _ =>
    and_congr_right fun hm => ?_
  exact hQ _ _ _ _ (hw.outside _ (h.not_free_head hS (hm k hk (by omega)).1))

end WithPd

end Memory
end TorexOS
