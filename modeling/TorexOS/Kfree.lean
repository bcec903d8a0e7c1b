import TorexOS.Kmalloc
import TorexOS.SlubLists

/-!
# TorexOS.Kfree

What `kfree` of a live allocation does.

* `Released`: the memory can be allocated again, and other allocations and pages are as they were.
* `kfree_releases_iff`: in the states of runs in which no request of a page or more finds a block,
  `kfree` releases an allocation exactly when `free` of its slab does not stop, and never the
  allocation of a request that does find one.
* `page_not_released`: a page from `kmalloc` is never given back; `kfree` takes the address of the
  descriptor for one of the memory it describes.
-/

namespace TorexOS
namespace Memory

open Util Util.ListBase Dyadic Packed FreeChain Transition

/-- The type of the block that a page is in, as `kfree` reads it. -/
def pageType (pd : PdTable) (i : Nat) : Option (BitVec 8) :=
  (findHead pd i true).map fun r => (pd r.1).flags

/-- The allocation's cell is free, in a slab that `alloc` takes cells from. -/
def FreesCell (L : Layout) (s : KernelState) (a : Allocation) : Prop :=
  ∃ k b c, InCell L s a k b c ∧ OnSlabList L s.kernel (s.kernel.slubs k).partialList b ∧
    ∃ chain, FreeCells s.kernel k b chain ∧ c ∈ chain

/-- The allocation's bytes are in a free page block. -/
def FreesBlock {L : Layout} (P : Pool L) (K : Kernel) (a : Allocation) : Prop :=
  ∃ b, RecordedFree P K.pages.mem b ∧ ∀ x, a.Has x → InPages b x

/-- The allocation is given back and nothing else. Pages change their type only in a block that is
given back with it. -/
structure Released {L : Layout} (P : Pool L) (s : MmState) (a : Allocation) (K : Kernel) :
    Prop where
  allocatable : FreesCell L { s.core with kernel := K } a ∨ FreesBlock P K a
  kept : ∀ d ∈ s.allocs, d ≠ a → HasCell L { s.core with kernel := K } d
  contents : ∀ d ∈ s.allocs, d ≠ a → ∀ x, d.Has x → K.ram x = s.kernel.ram x
  types : ∀ i, InPool P.heads i → pageType K.pd i = pageType s.kernel.pd i ∨
    ∃ b ∈ s.kernel.pages.live, b ∉ K.pages.live ∧ InPages b a.ptr ∧ b.Covers i
  outside : ∀ i, ¬ InPool P.heads i → (K.pd i).flags = (s.kernel.pd i).flags

def KfreeRight {L : Layout} (P : Pool L) (s : MmState) (a : Allocation) :
    Except Stop Kernel → Prop
  | .error _ => False
  | .ok K => Released P s a K

section Outside

variable {L : Layout} {s t : Mem} {K K' : Kernel} {b i k p order : Nat}

theorem buddyof_div (ho : order < maxOrder) : buddyof b order / 512 = b / 512 := by
  have hlt : 2 ^ order < 2 ^ 9 := Nat.pow_lt_pow_right (by omega) ho
  have hone : 1 <<< order / 2 ^ 9 = 0 := by
    rw [Nat.one_shiftLeft]
    exact Nat.div_eq_of_lt hlt
  rw [buddyof, show 512 = 2 ^ 9 from rfl, Nat.xor_div_two_pow, hone, Nat.xor_zero]

theorem getPrimary_div (h : i / 512 = b / 512) : getPrimary b i / 512 = b / 512 := by
  rw [getPrimary, show 512 = 2 ^ 9 from rfl, Nat.and_div_two_pow, show 2 ^ 9 = 512 from rfl, h,
    Nat.and_self]

theorem mergeBuddies_flags (ho : order < maxOrder) (hi : i / 512 ≠ b / 512) :
    ((mergeBuddies s b (buddyof b order) order).pd i).flags = (s.pd i).flags := by
  have hbig := buddyof_div (b := getPrimary b (buddyof b order)) ho
  rw [getPrimary_div (buddyof_div ho)] at hbig
  have hne : i ≠ buddyof (getPrimary b (buddyof b order)) order := by
    rintro rfl
    exact hi hbig
  rw [mergeBuddies, countOffPair, Mem.addCount_pd, Mem.addCount_pd, Mem.flags_setOrders,
    Mem.flags_setFlags, if_neg hne]

theorem setFlags_flags {pt : PageType} (hi : i / 512 ≠ b / 512) :
    ((s.setFlags b pt).pd i).flags = (s.pd i).flags := by
  rw [Mem.flags_setFlags, if_neg (by rintro rfl; exact hi rfl)]

theorem push_flags {m : Mem}
    (h : (match pushFrontNode (freeBlock L) s.pd (s.allocator.freelist order) b with
      | none => none
      | some r => some ((s.setFreelist order r).addCount order 1)) = some m) :
    (m.pd i).flags = (s.pd i).flags := by
  cases hp : pushFrontNode (freeBlock L) s.pd (s.allocator.freelist order) b with
  | none => rw [hp] at h; cases h
  | some r =>
    rw [hp] at h
    cases h
    exact (writes_pd (pushFrontNode_writes hp)).2.1 i

/-- Merges stay in the 2 MiB block. -/
theorem tryMergeAndGet_flags (n : Nat) : ∀ {s : Mem} {b : Nat}, maxOrder - (s.pd b).orders ≤ n →
    tryMergeAndGet L s b = some t → i / 512 ≠ b / 512 → (t.pd i).flags = (s.pd i).flags := by
  induction n with
  | zero =>
    intro s b hn h hi
    rw [tryMergeAndGet] at h
    simp only at h
    rw [if_neg (fun hm => by omega)] at h
    exact push_flags h
  | succ n ih =>
    intro s b hn h hi
    rw [tryMergeAndGet] at h
    simp only at h
    split at h
    · rename_i hm
      split at h
      · cases h
      · rename_i r hr
        have hw := (writes_pd (popNode_writes hr)).2
        have ho := hm.1
        rw [ih ?_ h (by rwa [getPrimary_div (buddyof_div ho)]),
          setFlags_flags (by rwa [getPrimary_div (buddyof_div ho)]), mergeBuddies_flags ho hi,
          Mem.setFreelist_pd, hw.1]
        rw [Mem.orders_setFlags, mergeBuddies_orders _ _ _ _ (by rw [maxOrder] at ho; omega)]
        omega
    · exact push_flags h

theorem freePages_flags {s t : BuddyState} (h : freePages L s b = some t)
    (hi : i / 512 ≠ b / 512) : (t.mem.pd i).flags = (s.mem.pd i).flags := by
  rw [freePages] at h
  cases hm : deallocateBlock L s.mem b with
  | none => rw [hm] at h; cases h
  | some m =>
    rw [hm] at h
    cases h
    rw [deallocateBlock] at hm
    rw [tryMergeAndGet_flags _ (Nat.le_refl _) hm hi, setFlags_flags hi]

theorem freeInOneblock_flags : ((freeInOneblock K b p).pd i).flags = (K.pd i).flags := by
  rw [freeInOneblock, Kernel.withPd_pd, PdTable.field_modify PageDescriptor.flags (by simp),
    PdTable.field_modify PageDescriptor.flags (by simp)]

/-- `free` changes the type of no page outside the 2 MiB block of its slab. -/
theorem free_flags (h : free L K k b p = .ok K') (hi : i / 512 ≠ b / 512) :
    (K'.pd i).flags = (K.pd i).flags := by
  rw [free] at h
  split at h
  · simp only at h
    split at h
    · cases h
    · rename_i r hpop
      split at h
      · cases h
      · rename_i r' hpush
        cases h
        have h1 := (slub_writes (popNode_writes hpop)).1.flags i
        have h2 := (slub_writes (pushBackNode_writes hpush)).1.flags i
        rw [Kernel.setPartial_pd, h2, Kernel.setFull_pd, h1, freeInOneblock_flags]
  · simp only at h
    split at h
    · split at h
      · cases h
      · rename_i r hpop
        have h1 := (slub_writes (popNode_writes hpop)).1.flags i
        cases hf : freePages L ((freeInOneblock K b p).setPartial k r).pages b with
        | none => rw [hf] at h; cases h
        | some u =>
          rw [hf] at h
          cases h
          have h2 := freePages_flags hf hi
          rw [Kernel.pd, h2]
          exact h1.trans freeInOneblock_flags
    · cases h
      exact freeInOneblock_flags

theorem freePages_live {s t : BuddyState} (h : freePages L s b = some t) :
    ∀ d ∈ t.live, d ∈ s.live := by
  rw [freePages] at h
  cases hm : deallocateBlock L s.mem b with
  | none => rw [hm] at h; cases h
  | some m =>
    rw [hm] at h
    cases h
    exact fun d hd => List.mem_of_mem_erase hd

theorem free_live (h : free L K k b p = .ok K') : ∀ d ∈ K'.pages.live, d ∈ K.pages.live := by
  rw [free] at h
  split at h
  · simp only at h
    split at h
    · cases h
    · split at h
      · cases h
      · cases h
        exact fun d hd => hd
  · simp only at h
    split at h
    · split at h
      · cases h
      · rename_i r _
        cases hf : freePages L ((freeInOneblock K b p).setPartial k r).pages b with
        | none => rw [hf] at h; cases h
        | some u =>
          rw [hf] at h
          cases h
          have hsub := freePages_live hf
          exact fun d hd => hsub d hd
    · cases h
      exact fun d hd => hd

/-- `kfree` hands out no block. -/
theorem kfree_live (h : kfree L K p = .ok K') : ∀ d ∈ K'.pages.live, d ∈ K.pages.live := by
  rw [kfree] at h
  cases hf : findHead K.pd (toPhys p >>> ilog2 smallestPageSize) true with
  | none => rw [hf] at h; cases h
  | some r =>
    rw [hf] at h
    simp only at h
    split at h
    · split at h
      · rw [kfreePages] at h
        cases hm : freePages L K.pages r.1 with
        | none => rw [hm] at h; cases h
        | some u =>
          rw [hm] at h
          cases h
          exact freePages_live hm
      · cases h
    · split at h
      · rw [kfreeSlab] at h
        cases ho : L.ownerIndex (K.pd r.1).owner with
        | none => rw [ho] at h; cases h
        | some j =>
          rw [ho] at h
          cases hm : free L K j r.1 p with
          | error e => simp only [hm] at h; cases h
          | ok K₁ =>
            simp only [hm] at h
            cases h
            exact free_live hm
      · split at h <;> cases h

end Outside

section Types

variable {L : Layout} {P : Pool L} {s : BuddyState} {F : Nat → List Nat} {e : Block} {i x : Nat}

theorem BuddyOk.pageType_eq (h : BuddyOk P s F) (he : IsBlock F s.live e) (hi : e.Covers i) :
    pageType s.mem.pd i = some (s.mem.pd e.head).flags := by
  obtain ⟨c, hc⟩ := h.findHead_eq he hi true
  rw [pageType, hc]
  rfl

/-- The bytes of a page of a block. -/
theorem BuddyOk.inPages_of_covers (h : BuddyOk P s F) (he : IsBlock F s.live e)
    (hx : kerBase ≤ x) (hi : e.Covers ((x - kerBase) / 4096)) : InPages e x := by
  have hend := h.block_end he
  have hle := L.pages_le
  have hpos := Nat.two_pow_pos e.order
  obtain ⟨hlo, hhi⟩ := hi
  rw [InPages, toKerAddr_eq (by omega)]
  generalize 2 ^ e.order = n at *
  omega

/-- A cell is in one page. -/
theorem cell_page {k b c : Nat} (hk : k < 7) (hb : b ≤ 2 ^ 27)
    (hx : cellAddr k b c ≤ x ∧ x < cellAddr k b c + cellSize k) :
    kerBase ≤ x ∧ (x - kerBase) / 4096 = (cellAddr k b c - kerBase) / 4096 := by
  obtain ⟨n, hn⟩ := cellSize_dvd_page hk
  have hsz := cellSize_ge k
  have haddr : cellAddr k b c = kerBase + cellSize k * (b * n + c) := by
    rw [cellAddr, toKerAddr_eq hb, hn]
    ring
  have hdiv : ∀ off, off < cellSize k →
      (cellSize k * (b * n + c) + off) / 4096 = (b * n + c) / n := by
    intro off hoff
    rw [hn, ← Nat.div_div_eq_div_mul, Nat.mul_add_div (by omega), Nat.div_eq_of_lt hoff,
      Nat.add_zero]
  rw [haddr] at hx ⊢
  obtain ⟨off, rfl⟩ : ∃ off, x = kerBase + (cellSize k * (b * n + c) + off) :=
    ⟨x - (kerBase + cellSize k * (b * n + c)), by omega⟩
  refine ⟨by omega, ?_⟩
  rw [Nat.add_sub_cancel_left, Nat.add_sub_cancel_left, hdiv off (by omega)]
  exact (hdiv 0 (by omega)).symm

end Types

section Release

variable {L : Layout} {P : Pool L} {s : KernelState} {F F' : Nat → List Nat} {V : Nat → View}
variable {v' : View} {K : Kernel} {a : Allocation} {b c i k p size : Nat}

theorem HasCell.with_objs {objs objs' : Nat → List Nat} {held : List Block}
    (h : HasCell L ⟨K, held, objs⟩ a) : HasCell L ⟨K, held, objs'⟩ a := by
  obtain ⟨k, b, c, hin, hc⟩ := h
  exact ⟨k, b, c, hin.with_objs, hc⟩

theorem FreesCell.with_objs {objs objs' : Nat → List Nat} {held : List Block}
    (h : FreesCell L ⟨K, held, objs⟩ a) : FreesCell L ⟨K, held, objs'⟩ a := by
  obtain ⟨k, b, c, hin, hc⟩ := h
  exact ⟨k, b, c, hin.with_objs, hc⟩

/-- An object is at a cell off the free chain. -/
theorem KernelOk.hasCell (h : KernelOk P s F V) (hk : k < 7) (ha : a.ptr ∈ s.objs k)
    (hs : a.size ≤ cellSize k) : HasCell L s a := by
  obtain ⟨b, hb, _, c, hc, hpc⟩ := h.object hk ha
  have hslab := (h.slub k hk).cells.slab b hb
  refine ⟨k, b, c, ⟨hk, hc, (h.ownsSlab_iff hk).mpr hb, hpc, hs⟩, (V k).chain b, hslab.linked, ?_⟩
  rw [hpc] at ha
  exact (hslab.cells c hc).mp ha

/-- A cell of a slab of the allocator that is no live object is on the free chain, and the slab on
the partial list. -/
theorem KernelOk.freesCell (h : KernelOk P s F V) (hk : k < 7) (hb : b ∈ (V k).owned)
    (hc : c < 128) (hp : a.ptr = cellAddr k b c) (ha : a.ptr ∉ s.objs k)
    (hs : a.size ≤ cellSize k) : FreesCell L s a := by
  have hslab := (h.slub k hk).cells.slab b hb
  have hmem : c ∈ (V k).chain b := by
    by_contra hn
    exact ha (hp ▸ (hslab.cells c hc).mpr hn)
  have hps := (h.slub k hk).mem_ps hb (List.ne_nil_of_mem hmem)
  exact ⟨k, b, c, ⟨hk, hc, (h.ownsSlab_iff hk).mpr hb, hp, hs⟩, ⟨_, h.walks_partial hk, hps⟩,
    (V k).chain b, hslab.linked, hmem⟩

variable {t : BuddyState}

/-- What was live in neither state and is a page of the pool is free. -/
theorem BuddyOk.covered_free {e : Block} {s : BuddyState} (h : BuddyOk P s F) (ht : BuddyOk P t F')
    (he : e ∈ s.live) (hne : e ∉ t.live) (hlive : ∀ d ∈ t.live, d ∈ s.live) (hi : e.Covers i) :
    ∃ d, RecordedFree P t.mem d ∧ d.Covers i := by
  obtain ⟨d, hd, hdi⟩ := ht.inv.tiling.covered i (h.inv.tiling.inside e (.inr he) i hi)
  cases (ht.isBlock_iff d).mpr hd with
  | inl hdl =>
    have hed := h.inv.tiling.unique d e (.inr (hlive d hdl)) (.inr he) i hdi hi
    exact absurd (hed ▸ hdl) hne
  | inr hdf => exact ⟨d, hdf, hdi⟩

/-- A slab that went back: its cells are in free blocks. -/
theorem KernelOk.freesBlock (h : KernelOk P s F V) (ht : BuddyOk P K.pages F') (hk : k < 7)
    (hb : b ∈ (V k).owned) (hc : c < 128) (hp : a.ptr = cellAddr k b c)
    (hs : a.size ≤ cellSize k) (hne : ⟨b, k⟩ ∉ K.pages.live)
    (hlive : ∀ d ∈ K.pages.live, d ∈ s.kernel.pages.live) : FreesBlock P K a := by
  have hbl := h.owned_live hk hb
  have hlt := h.pages.inv.head_lt (b := ⟨b, k⟩) (.inr hbl)
  have hle := L.pages_le
  have hcov := (cellAddr_inPages (k := k) (b := b) hc).covers hlt
  obtain ⟨d, hd, hdi⟩ := h.pages.covered_free ht hbl hne hlive hcov
  refine ⟨d, hd, fun x hx => ?_⟩
  obtain ⟨hker, hpage⟩ := cell_page (k := k) (b := b) (c := c) (x := x) hk
    (by simp only at hlt; omega) (by rw [Allocation.Has] at hx; omega)
  exact ht.inPages_of_covers ((ht.isBlock_iff d).mp (.inr hd)) hker (by rwa [hpage])

/-- The pages of the pool keep their type, those of a slab that goes back apart. -/
theorem KernelOk.types (h : KernelOk P s F V) (hk : k < 7)
    (hF : CellFreed P k s.kernel F (V k) (s.objs k) b p K F' v') (hi : InPool P.heads i) :
    pageType K.pd i = pageType s.kernel.pd i ∨ Empties s.kernel b ∧ (Block.mk b k).Covers i := by
  obtain ⟨e, he, hei⟩ := h.pages.inv.tiling.covered i hi
  have hold : pageType s.kernel.pd i = _ := h.pages.pageType_eq he hei
  cases he with
  | inr hl =>
    by_cases hgone : e = ⟨b, k⟩ ∧ Empties s.kernel b
    · exact .inr ⟨hgone.2, hgone.1 ▸ hei⟩
    · have hl' := (hF.live_iff e).mpr ⟨hl, hgone⟩
      have hnew : pageType K.pd i = _ := hF.pages.pageType_eq (.inr hl') hei
      rw [hold, hnew]
      refine .inl (congrArg some ?_)
      by_cases howned : e.head ∈ (V k).owned
      · -- a slab of this allocator before and after
        have hek : e = ⟨e.head, k⟩ := h.pages.inv.tiling.head_unique (.inr hl)
          (.inr (h.owned_live hk howned)) rfl
        have hown' := (hF.owned_iff e.head).mpr
          ⟨howned, fun hc => hgone ⟨by rw [hek, hc.1], hc.2⟩⟩
        exact (hF.slub.cells.slab _ hown').flags.trans
          ((h.slub k hk).cells.slab _ howned).flags.symm
      · exact congrArg PageDescriptor.flags (hF.pd e hl howned)
  | inl hf =>
    obtain ⟨d, hd, hdi⟩ := hF.pages.inv.tiling.covered i hi
    have hnew : pageType K.pd i = _ := hF.pages.pageType_eq hd hdi
    cases hd with
    | inr hdl =>
      have hds := ((hF.live_iff d).mp hdl).1
      have hde := h.pages.inv.tiling.unique d e (.inr hds) (.inl hf) i hdi hei
      rw [← hde] at hf
      exact absurd (h.pages.inv.free_head _ _ hf).1 (h.pages.flags d hds)
    | inl hdf =>
      rw [hold, hnew]
      exact .inl (congrArg some ((hF.pages.inv.free_head _ _ hdf).1.trans
        (h.pages.inv.free_head _ _ hf).1.symm))

end Release

section Kfree

variable {L : Layout} {P : Pool L} {s : MmState} {F F' : Nat → List Nat} {V : Nat → View}
variable {v' : View} {K : Kernel} {a d : Allocation} {b c p size : Nat}

/-- Two live allocations of one slab allocator have different addresses. -/
theorem MmOk.ptr_ne (h : MmOk P s) (hok : KernelOk P s.core F V) (ha : a ∈ s.allocs)
    (hd : d ∈ s.allocs) (hne : d ≠ a) (hk : sizeIndex d.size = sizeIndex a.size) :
    d.ptr ≠ a.ptr := by
  have hsa := h.small a ha
  have hsd := h.small d hd
  have hnd := (hok.slub _ (sizeIndex_spec hsa.2).1).cells.nodup
  refine fun hp => hne (List.inj_on_of_nodup_map hnd ?_ ?_ hp)
  · exact List.mem_filter.mpr ⟨hd, by simpa [hk] using hsd.2⟩
  · exact List.mem_filter.mpr ⟨ha, by simpa using hsa.2⟩

/-- Two live allocations are apart. -/
theorem MmOk.apart {x : Nat} (h : MmOk P s) (hok : KernelOk P s.core F V) (ha : a ∈ s.allocs)
    (hd : d ∈ s.allocs) (hne : d ≠ a) (hx : d.Has x) :
    ¬ (a.ptr ≤ x ∧ x < a.ptr + cellSize (sizeIndex a.size)) := by
  have hsa := h.small a ha
  have hsd := h.small d hd
  exact hok.objects_apart (sizeIndex_spec hsd.2).1 (sizeIndex_spec hsa.2).1 (hsd.mem_core hd)
    (hsa.mem_core ha) (h.ptr_ne hok ha hd hne) (hsd.byte hx)

theorem MmOk.released (h : MmOk P s) (hok : KernelOk P s.core F V) (ha : a ∈ s.allocs)
    (hb : b ∈ (V (sizeIndex a.size)).owned) (hc : c < 128)
    (hp : a.ptr = cellAddr (sizeIndex a.size) b c)
    (hfree : free L s.kernel (sizeIndex a.size) b a.ptr = .ok K)
    (hF : CellFreed P (sizeIndex a.size) s.kernel F (V (sizeIndex a.size))
      (s.core.objs (sizeIndex a.size)) b a.ptr K F' v') : Released P s a K := by
  have hsa := h.small a ha
  obtain ⟨hk, hsize⟩ := sizeIndex_spec hsa.2
  have hlive : ∀ e ∈ K.pages.live, e ∈ s.kernel.pages.live := fun e he => ((hF.live_iff e).mp he).1
  have hnd := (hok.slub _ hk).cells.nodup
  obtain ⟨hok', _⟩ := hok.of_freed hk hb hc (hp ▸ hF)
  rw [← hp] at hok'
  constructor
  case allocatable =>
    by_cases hem : Empties s.kernel b
    · refine .inr (hok.freesBlock hF.pages hk hb hc hp hsize (fun hl => ?_) hlive)
      exact ((hF.live_iff _).mp hl).2 ⟨rfl, hem⟩
    · have hb' : b ∈ (Function.update V (sizeIndex a.size) v' (sizeIndex a.size)).owned := by
        rw [Function.update_self]
        exact (hF.owned_iff b).mpr ⟨hb, fun hc => hem hc.2⟩
      refine .inl (hok'.freesCell hk hb' hc hp ?_ hsize).with_objs
      dsimp only
      rw [Function.update_self]
      exact hnd.not_mem_erase
  case kept =>
    intro d hd hne
    have hsd := h.small d hd
    obtain ⟨hj, hdsize⟩ := sizeIndex_spec hsd.2
    have hdm := hsd.mem_core hd
    refine (hok'.hasCell hj ?_ hdsize).with_objs
    dsimp only
    by_cases hjk : sizeIndex d.size = sizeIndex a.size
    · rw [hjk] at hdm ⊢
      rw [Function.update_self]
      exact hnd.mem_erase_iff.mpr ⟨h.ptr_ne hok ha hd hne hjk, hdm⟩
    · rwa [Function.update_of_ne hjk]
  case contents =>
    intro d hd hne x hx
    have hout := h.apart hok ha hd hne hx
    have hsz := cellSize_ge (sizeIndex a.size)
    exact hF.ram x (by omega)
  case types =>
    intro i hi
    cases hok.types hk hF hi with
    | inl he => exact .inl he
    | inr he =>
      refine .inr ⟨⟨b, sizeIndex a.size⟩, hok.owned_live hk hb, fun hl => ?_, ?_, he.2⟩
      · exact ((hF.live_iff _).mp hl).2 ⟨rfl, he.1⟩
      · rw [hp]
        exact cellAddr_inPages hc
  case outside =>
    intro i hi
    refine free_flags hfree fun hdiv => hi ?_
    exact (hok.pages.inv.head_inPool (.inr (hok.owned_live hk hb))).of_div hdiv

/-- `kfree` of a live allocation releases it, unless `free` of its slab stops. -/
theorem MmOk.kfree_iff (h : MmOk P s) (ha : a ∈ s.allocs) :
    KfreeRight P s a (Memory.kfree L s.kernel a.ptr) ↔
      ¬ StopsInSlabs L s.kernel (sizeIndex a.size) (slabOf (sizeIndex a.size) a.ptr) ∧
      ¬ StopsInPages L s.kernel (sizeIndex a.size) (slabOf (sizeIndex a.size) a.ptr) := by
  obtain ⟨F, V, hok, _⟩ := kernel_reach h.reach
  have hsa := h.small a ha
  have hk := (sizeIndex_spec hsa.2).1
  have hobj := hsa.mem_core ha
  obtain ⟨b, hb, hsb, c, hc, hp⟩ := hok.object hk hobj
  have hspec := hok.free_spec hk hobj
  rw [kfree_small h.reach hsa ha]
  rw [hsb] at hspec ⊢
  match hm : free L s.kernel (sizeIndex a.size) b a.ptr with
  | .error e =>
    rw [show free L s.core.kernel _ _ _ = _ from hm] at hspec
    refine ⟨fun hr => hr.elim, fun hr => ?_⟩
    cases e with
    | slabList => exact absurd hspec hr.1
    | pageList => exact absurd hspec hr.2
    | outOfFuel => exact hspec.elim
  | .ok K =>
    rw [show free L s.core.kernel _ _ _ = _ from hm] at hspec
    obtain ⟨hns, hnp, F', v', hF⟩ := hspec
    exact ⟨fun _ => ⟨hns, hnp⟩, fun _ => h.released hok ha hb hc hp hm hF⟩

/-- A request above 2048 bytes that does not get null gets the address of a descriptor. -/
theorem MmOk.large_ptr (h : MmOk P s) (h1 : 2048 < size) (h2 : size ≤ 2 * 1024 * 1024)
    (he : Memory.kmalloc L s.kernel size = .ok (some p, K)) :
    (∃ F, BuddyOk P K.pages F) ∧ p < L.pdBase + 32 * L.pages := by
  obtain ⟨F, V, hok, _⟩ := kernel_reach h.reach
  have hspec := hok.pages.allocPages_spec (calculOrder size)
    (show PageType.kernel ≠ .free by decide) (by decide)
  rw [kmalloc_large h1 h2] at he
  cases hm : Memory.allocPages L s.kernel.pages .kernel (calculOrder size) with
  | none => rw [hm] at he; cases he
  | some r =>
    obtain ⟨r, t⟩ := r
    rw [hm] at he
    rw [show Memory.allocPages L s.core.kernel.pages _ _ = _ from hm] at hspec
    cases r with
    | none => cases he
    | some b =>
      cases he
      obtain ⟨_, F', hT⟩ := hspec
      have hlt := hT.ok.inv.head_lt (b := ⟨b, calculOrder size⟩)
        (.inr (by rw [hT.live]; exact List.mem_cons_self))
      simp only at hlt
      refine ⟨⟨F', hT.ok⟩, ?_⟩
      dsimp only
      omega

/-- An allocation in the descriptor table is in no slab and no free block, and so never given
back. -/
theorem not_released {t : MmState} (h : BuddyOk P t.kernel.pages F)
    (ha : a.ptr < L.pdBase + 32 * L.pages) (hs : 1 ≤ a.size) :
    ¬ KfreeRight P t a (Memory.kfree L t.kernel a.ptr) := by
  cases hm : Memory.kfree L t.kernel a.ptr with
  | error e => exact id
  | ok K =>
    intro hr
    have hr : Released P t a K := hr
    cases hr.allocatable with
    | inl hc =>
      obtain ⟨k, b, c, hin, _⟩ := hc
      have habove := P.above_pool (h.inv.head_inPool (.inr (kfree_live hm _ hin.slab.live)))
      have hp := hin.ptr
      rw [cellAddr] at hp
      simp only at habove
      omega
    | inr hf =>
      obtain ⟨b, hb, hx⟩ := hf
      have hlo := (hx a.ptr ⟨Nat.le_refl _, by omega⟩).1
      have habove := P.above_pool hb.1
      omega

/-- `kfree` in the states of runs in which no request of a page or more finds a block. A live
allocation is released, and nothing else, exactly when `free` of its slab does not stop at a lost
link or at an exhausted slab still on the partial list. When a request above 2048 bytes does find a
block, the `kfree` of what it returned does not release it. -/
theorem kfree_releases_iff (h : Reach (mmSystem L P) NoneLarge s) :
    (∀ a ∈ s.allocs, KfreeRight P s a (kfree L s.kernel a.ptr) ↔
      ¬ StopsInSlabs L s.kernel (sizeIndex a.size) (slabOf (sizeIndex a.size) a.ptr) ∧
      ¬ StopsInPages L s.kernel (sizeIndex a.size) (slabOf (sizeIndex a.size) a.ptr)) ∧
    ∀ size p K, 2048 < size → size ≤ 2 * 1024 * 1024 →
      kmalloc L s.kernel size = .ok (some p, K) →
        ¬ KfreeRight P ⟨K, s.held, ⟨p, size⟩ :: s.allocs⟩ ⟨p, size⟩ (kfree L K p) := by
  have hmm := mm_reach h
  refine ⟨fun a ha => hmm.kfree_iff ha, fun size p K h1 h2 he => ?_⟩
  obtain ⟨⟨F, hB⟩, hp⟩ := hmm.large_ptr h1 h2 he
  exact not_released (t := ⟨K, s.held, ⟨p, size⟩ :: s.allocs⟩) hB hp (by simp only; omega)

/-- A small allocation on a machine just started. -/
theorem one_allocation : ∃ (s : MmState) (a : Allocation) (F : Nat → List Nat) (V : Nat → View),
    Reach (mmSystem smallLayout onePool) NoneLarge s ∧ s.allocs = [a] ∧ a.size = 100 ∧
      KernelOk onePool s.core F V ∧ AllLinked smallLayout s.kernel.pages.mem F := by
  have hix : sizeIndex 100 = 2 := by decide
  have hk : 2 < 7 := by omega
  obtain ⟨F, p, K, F', v', hok, hl, _, he, hK⟩ :=
    start_handedOut (L := smallLayout) (P := onePool) (by decide) hk
  obtain ⟨hok', _⟩ := hok.of_kept hk hK.toKept (hK.used (hok.used 2 hk))
  have hcore : MmState.core ⟨K, [], [⟨p, 100⟩]⟩ = ⟨K, [], Function.update (fun _ => []) 2 [p]⟩ := by
    have h := core_kmalloc (s := startMm onePool) (K := K) (p := p) (show 100 ≤ 2048 by omega)
    rw [hix] at h
    exact h
  refine ⟨⟨K, [], [⟨p, 100⟩]⟩, ⟨p, 100⟩, F', Function.update noSlabs 2 v',
    (Reach.init (startMm_init onePool)).step (i := .kmalloc 100) ⟨by omega, by omega⟩
      (fun h => absurd h (by omega)) ?_, rfl, rfl, ?_, hK.linked hl⟩
  · simp only [mmSystem, MmOp.exec]
    rw [kmalloc_small (by omega) (by omega), hix,
      show alloc smallLayout (startMm onePool).kernel 2 = _ from he]
    rfl
  · rw [hcore]
    exact hok'

theorem kfree_releases_iff_one : ∃ s a, a ∈ s.allocs ∧
    KfreeRight onePool s a (kfree smallLayout s.kernel a.ptr) := by
  obtain ⟨s, a, F, V, hr, ha, hsize, hok, hal⟩ := one_allocation
  have hmem : a ∈ s.allocs := by rw [ha]; exact List.mem_singleton_self a
  have hsa := (mm_reach hr).small a hmem
  have hk := (sizeIndex_spec hsa.2).1
  obtain ⟨b, hb, hsb, c, hc, hp⟩ := hok.object hk (hsa.mem_core hmem)
  refine ⟨s, a, hmem, ((kfree_releases_iff hr).1 a hmem).mpr ⟨fun hs => ?_, fun hs => ?_⟩⟩
  · rw [hsb] at hs
    have hobjs : s.core.objs (sizeIndex a.size) = [a.ptr] := by
      simp only [MmState.core, ha]
      rw [List.filter_cons_of_pos (by simpa using hsa.2), List.filter_nil, List.map_singleton]
    exact hok.chain_ne_nil hk hb hobjs (((hok.slub _ hk).exhausted_iff hk hb).mp hs.1)
  · rw [hsb] at hs
    exact not_lostNext hok.pages hal (hok.owned_live hk hb) hs.2

/-- A page from `kmalloc` is not given back: `kfree` takes the descriptor's own page for it, and
panics with that one's type. -/
theorem page_not_released : ∃ s a, Reach (mmSystem smallLayout onePool) (fun _ _ => True) s ∧
    a ∈ s.allocs ∧ a.size = 4096 ∧
    kfree smallLayout s.kernel a.ptr = .error (.panic "double free" s.kernel) ∧
    ¬ KfreeRight onePool s a (kfree smallLayout s.kernel a.ptr) := by
  obtain ⟨t, ht, _, hflags⟩ := kmalloc_page_start
  let K : Kernel := { (startMm onePool).kernel with pages := t }
  let a : Allocation := ⟨smallLayout.pdBase + 32 * 512, 4096⟩
  have hpage : toPhys a.ptr >>> ilog2 smallestPageSize = 260 := by decide
  have hf : (K.pd 260).flags = PageType.free.flag := hflags
  have hk : kfree smallLayout K a.ptr = .error (.panic "double free" K) := by
    rw [kfree, hpage, findHead, hf, if_neg (by decide)]
    simp only [hf]
    rw [if_neg (by decide), if_neg (by decide), if_pos trivial]
  refine ⟨⟨K, [], [a]⟩, a, ?_, List.mem_singleton_self a, rfl, hk, ?_⟩
  · refine (Reach.init (startMm_init onePool)).step (i := .kmalloc 4096)
      ⟨by omega, by omega⟩ trivial ?_
    simp only [mmSystem, MmOp.exec, ht]
    rfl
  · rw [show kfree smallLayout (MmState.mk K [] [a]).kernel a.ptr = _ from hk]
    exact id

end Kfree

end Memory
end TorexOS
