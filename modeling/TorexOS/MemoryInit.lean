import TorexOS.Bootsect
import TorexOS.KernelArea
import TorexOS.KernelMap
import TorexOS.SlubRun

/-!
# TorexOS.MemoryInit

`memory::init`, from the table that the boot code left to a memory manager that runs.

The runs of `SlubRun` start with the blocks of any pool on the free list. Here the pool is what
`makeBuddy` finds, and that it is one becomes a theorem.

* `init`: the calls of the source in their order, and what stops them.
* `insertBlocks_reserve`: a block marked reserved behind those on the free list might as well have
  been marked before they were pushed.
* `Filled`, `makeBuddy_filled`: so `makeBuddy` fills the list over some contents of the table.
* `exists_pool`: the blocks it pushes are a pool, with all their descriptors below them.
-/

namespace TorexOS
namespace Memory

open Util Util.ListBase Dyadic Sweep Transition

/-- The entries written to the page tables. -/
def KernelPTE.entries (r : KernelPTE) : List Nat := r.ptes ++ r.puds ++ r.pgds

/-- What is known after `memory::init`. -/
structure Booted where
  area : KernelArea
  filling : Filling
  tables : KernelPTE

/-- Why `memory::init` does not return, or not yet. -/
inductive InitFault where
  | panic (text : String)
  | badPointer
  | pageFault
  | looping
  deriving DecidableEq

/-- The descriptors that `mark_kernel_area` writes are in mapped memory. -/
def KernelArea.Mapped (L : Layout) (mapEnd : Nat) (A : KernelArea) : Prop :=
  ∀ i ∈ A.marked, L.pdBase + 32 * (i + 2 ^ (maxOrder - 1)) ≤ mapEnd

instance (L : Layout) (mapEnd : Nat) (A : KernelArea) : Decidable (A.Mapped L mapEnd) := by
  unfold KernelArea.Mapped; infer_instance

/-- `memory::init`, with so many rounds of `makeBuddy`'s loop, where the kernel's half is mapped up to
`mapEnd`: the first gigabyte, by the tables of the boot code. `makeBuddy` has written the descriptors
up to `cur_pd`. `badPointer` is null, or the entry in front of an empty table. -/
def init (L : Layout) (I : Image) (m : Dwords) (pd : PdTable) (w : Words) (mapEnd rounds : Nat) :
    Except InitFault Booted :=
  let es := e820Entries (sortEntries m)
  match markKernelArea I pd 0 es with
  | none => .error .badPointer
  | some area =>
    if ¬ area.Mapped L mapEnd then .error .pageFault
    else
      match makeBuddyStart (Mem.start area.pd) area.totalMemoryBlockCount es area.start with
      | none => .error (.panic "corrupt e820 map!")
      | some f =>
        match makeBuddyRounds L rounds f with
        | none => .error .badPointer
        | some f =>
          if mapEnd < L.pdBase + 32 * f.curPd then .error .pageFault
          else if f.regions ≠ [] then .error .looping
          else
            match sizeOfMapping es with
            | none => .error .badPointer
            | some size =>
              if 512 < pteCount size.toNat then
                .error (.panic "we not support memory above 512GB.")
              else
                match makeKernelPTE L ⟨f.mem, []⟩ w es with
                | none => .error .badPointer
                | some r =>
                  if ∀ a ∈ r.entries, a + 8 ≤ mapEnd then .ok ⟨area, f, r⟩
                  else .error .pageFault

/-- The memory manager after `makePool`, with any contents of the memory. The blocks of the page
tables are in use. -/
def Booted.state (b : Booted) (ram : Nat → BitVec 8) : KernelState :=
  ⟨⟨b.tables.state, ram, makePool⟩, b.tables.state.live, fun _ => []⟩

/-- The block at the descriptor is marked reserved. -/
def reserve (c : Nat) (m : Mem) : Mem := { m with pd := markPages m.pd c .reserved maxOrder }

/-- The page of an address. -/
def page (a : BitVec 64) : Nat := a.toNat / smallestPageSize

section Reserve

variable {L : Layout} {m m' : Mem} {pd : PdTable} {c h i : Nat} {hs xs : List Nat}

theorem modify_markPages (f : PageDescriptor → PageDescriptor) (type : PageType) (order : Nat)
    (hi : i < c) :
    (markPages pd c type order).modify i f = markPages (pd.modify i f) c type order := by
  funext j
  simp only [PdTable.modify_apply, markPages_apply]
  by_cases hj : j = i
  · rw [if_pos hj, if_neg (by omega), if_neg (by omega), if_neg (by omega), if_neg (by omega),
      if_pos hj]
  · simp only [if_neg hj]

theorem markPages_comm (type type' : PageType) (order order' : Nat) (hc : h + 2 ^ order' ≤ c) :
    markPages (markPages pd c type order) h type' order' =
      markPages (markPages pd h type' order') c type order := by
  have hpos := Nat.two_pow_pos order'
  funext j
  simp only [markPages_apply]
  by_cases hj : j < c
  · have hlow : ∀ x : Nat, ¬ (c < j ∧ j < x) := fun x hx => by omega
    simp only [if_neg (Nat.ne_of_lt hj), hlow, if_false]
  · rw [if_neg (by omega), if_neg (by omega), if_neg (by omega : ¬ j = h),
      if_neg (by omega : ¬ (h < j ∧ j < h + 2 ^ order'))]

/-- The list operation writes only nodes below. -/
theorem pushBackNode_markPages (l : ListBase Nat) (type : PageType) (order : Nat)
    (ht : ∀ t ∈ l.tail, t < c) (hh : h < c) :
    pushBackNode (freeBlock L) (markPages pd c type order) l h =
      (pushBackNode (freeBlock L) pd l h).map fun r => (markPages r.1 c type order, r.2) := by
  simp only [pushBackNode]
  by_cases hemp : l.empty = true
  · simp only [if_pos hemp, freeBlock, modify_markPages _ _ _ hh, Option.map_some]
  · simp only [if_neg hemp, joinList]
    cases htl : l.tail with
    | none => rfl
    | some t =>
      have ht' : t < c := ht t (by rw [htl]; rfl)
      simp only [freeBlock, modify_markPages _ _ _ hh, modify_markPages _ _ _ ht', Option.map_some]

theorem insertBlock_reserve (ht : ∀ t ∈ (m.allocator.freelist maxOrder).tail, t < c)
    (hc : h + 2 ^ maxOrder ≤ c) :
    insertBlock L (reserve c m) h = (insertBlock L m h).map (reserve c) := by
  have hpos := Nat.two_pow_pos maxOrder
  have hcomm : markPages (markPages m.pd c .reserved maxOrder) h .free maxOrder =
      markPages (markPages m.pd h .free maxOrder) c .reserved maxOrder := markPages_comm _ _ _ _ hc
  simp only [insertBlock, reserve]
  rw [hcomm, pushBackNode_markPages _ _ _ ht (by omega)]
  cases pushBackNode (freeBlock L) (markPages m.pd h .free maxOrder) (m.allocator.freelist maxOrder)
      h with
  | none => rfl
  | some r => simp only [Option.map_some, Mem.setFreelist, Mem.addCount, reserve]

/-- The block pushed last is the tail. -/
theorem insertBlock_tail (hm : insertBlock L m h = some m') :
    (m'.allocator.freelist maxOrder).tail = some h := by
  simp only [insertBlock, pushBackNode] at hm
  split at hm
  · cases hm
  · rename_i r hr
    cases hm
    rw [Mem.addCount_freelist, Mem.setFreelist_freelist, Function.update_self]
    split at hr
    · cases hr
      rfl
    · split at hr
      · cases hr
      · cases hr
        rfl

theorem insertBlocks_reserve (ht : ∀ t ∈ (m.allocator.freelist maxOrder).tail, t < c)
    (hc : ∀ h ∈ hs, h + 2 ^ maxOrder ≤ c) :
    insertBlocks L (reserve c m) hs = (insertBlocks L m hs).map (reserve c) := by
  induction hs generalizing m with
  | nil => rfl
  | cons h hs ih =>
    have hpos := Nat.two_pow_pos maxOrder
    have hh := hc h (List.mem_cons_self ..)
    simp only [insertBlocks, insertBlock_reserve ht hh]
    cases hm : insertBlock L m h with
    | none => rfl
    | some m' =>
      refine ih (fun t htl => ?_) fun x hx => hc x (List.mem_cons_of_mem _ hx)
      rw [insertBlock_tail hm] at htl
      cases htl
      omega

theorem insertBlocks_append (hm : insertBlocks L m hs = some m') :
    insertBlocks L m (hs ++ xs) = insertBlocks L m' xs := by
  induction hs generalizing m with
  | nil =>
    cases hm
    rfl
  | cons h hs ih =>
    rw [insertBlocks] at hm
    rw [List.cons_append, insertBlocks]
    split at hm
    · cases hm
    · exact ih hm

end Reserve

/-! ## The pool -/

/-- The list is filled with the blocks pushed so far, over some contents of the table. -/
def Filled (L : Layout) (f : Filling) : Prop :=
  ∃ pd, insertBlocks L (Mem.start pd) (f.pushed.map page) = some f.mem

section Fill

variable {L : Layout} {es : List E820MmapEntry} {f f' : Filling} {pd : PdTable}
variable {total : BitVec 32} {start a : BitVec 64} {s₀ n x : Nat}

theorem page_lt {a : Nat} (ha : mb 2 ∣ a) (hx : mb 2 ∣ x) (h : a < x) :
    a / smallestPageSize + 2 ^ maxOrder ≤ x / smallestPageSize := by
  rw [mb_two] at ha hx
  simp only [smallestPageSize, maxOrder]
  omega

theorem reserveBlock_mem (f : Filling) : f.reserveBlock.mem = reserve f.curPd f.mem := by
  simp only [Filling.reserveBlock, reserve]

theorem Filled.round (h : Filled L f) (hw : Walked es s₀ f.start.toNat f)
    (hr : makeBuddyRound L f = some f') : Filled L f' := by
  obtain ⟨pd, hpd⟩ := h
  have hres : ∀ g : Filling, g.mem = reserve f.curPd f.mem → g.pushed = f.pushed → Filled L g := by
    intro g hmem hpushed
    refine ⟨markPages pd f.curPd .reserved maxOrder, ?_⟩
    rw [hmem, hpushed]
    have hins : insertBlocks L (reserve f.curPd (Mem.start pd)) (f.pushed.map page) =
        (insertBlocks L (Mem.start pd) (f.pushed.map page)).map (reserve f.curPd) := by
      refine insertBlocks_reserve (fun t ht => nomatch ht) fun h hh => ?_
      obtain ⟨a, ha, rfl⟩ := List.mem_map.mp hh
      obtain ⟨hal, _, hlt, _⟩ := (hw.pushed a).mp ha
      rw [hw.curPd]
      exact page_lt hal hw.aligned hlt
    rw [hpd] at hins
    exact hins
  rw [makeBuddyRound] at hr
  cases hreg : f.regions with
  | nil =>
    rw [hreg] at hr
    cases hr
    exact ⟨pd, hpd⟩
  | cons e rest =>
    rw [hreg] at hr
    simp only at hr
    split at hr
    · split at hr
      · obtain ⟨g, hg, rfl⟩ := Option.map_eq_some_iff.mp hr
        rw [Filling.pushBlock] at hg
        cases hm : insertBlock L f.mem f.curPd with
        | none =>
          rw [hm] at hg
          cases hg
        | some m =>
          rw [hm] at hg
          cases hg
          refine ⟨pd, ?_⟩
          rw [Filling.advance_pushed, Filling.advance_mem, List.map_append, insertBlocks_append hpd,
            List.map_singleton, page, ← hw.curPd, insertBlocks, hm]
          rfl
      · rw [← Option.some.inj hr]
        exact hres _ (reserveBlock_mem f)
          (by rw [Filling.advance_pushed, Filling.reserveBlock_pushed])
    · rw [← Option.some.inj hr]
      exact hres _ (reserveBlock_mem f)
        (by simp only [Filling.advance_pushed, Filling.reserveBlock_pushed])

/-- The last block of the address space is in no region. -/
theorem not_swept (htop : ∀ e ∈ es, e.base.toNat + e.length.toNat ≤ 2 ^ 39)
    (hal : mb 2 ∣ start.toNat) : ¬ Swept es start.toNat (2 ^ 64) := by
  intro h
  have hlt := start.isLt
  obtain ⟨e, he, hx⟩ := h (2 ^ 64 - mb 2) (by decide) (by rw [mb_two] at *; omega) (by decide)
  have hc := (E820MmapEntry.Covers.of_holds hx).2
  have ht := htop e he
  rw [mb_two] at hc
  omega

theorem makeBuddy_walked (hm : SortedMap es)
    (htop : ∀ e ∈ es, e.base.toNat + e.length.toNat ≤ 2 ^ 39) (hal : mb 2 ∣ start.toNat)
    (hf : makeBuddy L (Mem.start pd) total es start n = some f) :
    (Walking es start.toNat f ∧ f.start.toNat = start.toNat + n * mb 2) ∨
      ∃ x, Halted es start.toNat x f := by
  cases (makeBuddy_cases hm hal hf).2 with
  | inl h => exact .inl h
  | inr h =>
    cases h with
    | inl h =>
      obtain ⟨x, _, h⟩ := h
      exact .inr ⟨x, h⟩
    | inr h => exact absurd h (not_swept htop hal)

theorem makeBuddy_exists_walked (hm : SortedMap es)
    (htop : ∀ e ∈ es, e.base.toNat + e.length.toNat ≤ 2 ^ 39) (hal : mb 2 ∣ start.toNat)
    (hf : makeBuddy L (Mem.start pd) total es start n = some f) :
    ∃ x, Walked es start.toNat x f := by
  cases makeBuddy_walked hm htop hal hf with
  | inl h => exact ⟨_, h.1.walked⟩
  | inr h =>
    obtain ⟨x, h⟩ := h
    exact ⟨x, h.walked⟩

theorem makeBuddy_filled (hm : SortedMap es)
    (htop : ∀ e ∈ es, e.base.toNat + e.length.toNat ≤ 2 ^ 39) (hal : mb 2 ∣ start.toNat)
    (hf : makeBuddy L (Mem.start pd) total es start n = some f) : Filled L f := by
  induction n generalizing f with
  | zero =>
    rw [makeBuddy, makeBuddyStart] at hf
    split at hf
    · cases hf
    · rename_i f₀ hf₀
      split at hf₀
      · cases hf₀
      · cases hf₀
        cases hf
        exact ⟨pd, rfl⟩
  | succ n ih =>
    obtain ⟨g, hg, hr⟩ : ∃ g, makeBuddy L (Mem.start pd) total es start n = some g ∧
        makeBuddyRound L g = some f := by
      rw [makeBuddy] at hf ⊢
      split at hf
      · cases hf
      · rename_i f₀ hf₀
        rw [makeBuddyRounds] at hf
        split at hf
        · cases hf
        · rename_i g hg
          exact ⟨g, hg, hf⟩
    cases makeBuddy_walked hm htop hal hg with
    | inl hw => exact (ih hg).round hw.1.walked hr
    | inr hh =>
      obtain ⟨x, hh⟩ := hh
      rw [makeBuddyRound, hh.regions] at hr
      cases hr
      exact ih hg

end Fill

/-- What the firmware promises of its table, and that it ends at or below 512 GiB: beyond,
`makeKernelPTE` panics. -/
structure FirmwareMap (es : List E820MmapEntry) : Prop where
  apart : es.Pairwise fun a b => ∀ x, ¬ (a.Covers x ∧ b.Covers x)
  length : ∀ e ∈ es, e.length ≠ 0
  top : ∀ e ∈ es, e.base.toNat + e.length.toNat ≤ 2 ^ 39

/-- The table of descriptors starts where the image ends, with one for each page up to the end of
the free memory. -/
structure Layout.Describes (L : Layout) (I : Image) (es : List E820MmapEntry) : Prop where
  base : L.pdBase = (getPageDescriptorStart I).toNat
  pages : ∃ need, calculatePageDescriptorSize es = some need ∧
    L.pages = need.toNat / smallestPageSize

section Pool

variable {L : Layout} {I : Image} {es es' : List E820MmapEntry} {e : E820MmapEntry} {f : Filling}
variable {pd : PdTable} {total : BitVec 32} {need start a : BitVec 64} {A : KernelArea} {n x : Nat}

theorem FirmwareMap.perm (h : FirmwareMap es) (hp : es'.Perm es) : FirmwareMap es' := by
  refine ⟨?_, fun e he => h.length e (hp.subset he), fun e he => h.top e (hp.subset he)⟩
  refine (hp.pairwise_iff fun {a b} hab x hx => ?_).mpr h.apart
  exact hab x ⟨hx.2, hx.1⟩

/-- The last region of free memory ends behind all others. -/
theorem free_end_le (hf : FirmwareMap es) (hm : SortedMap es)
    (hneed : calculatePageDescriptorSize es = some need) (he : e ∈ es) (hfree : e.type = regionFree) :
    e.base.toNat + e.length.toNat ≤ need.toNat := by
  obtain ⟨d, hd, hdn⟩ : ∃ d, es.reverse.find? (fun e => decide (e.type = regionFree)) = some d ∧
      need = d.base + d.length := by
    cases hd : es.reverse.find? fun e => decide (e.type = regionFree) with
    | none =>
      have := List.find?_eq_none.mp hd e (List.mem_reverse.mpr he)
      simp [hfree] at this
    | some d =>
      cases es with
      | nil => cases he
      | cons a as =>
        simp only [calculatePageDescriptorSize, hd, Option.some.injEq] at hneed
        exact ⟨d, rfl, hneed.symm⟩
  obtain ⟨_, pre, post, hes, hpre⟩ := List.find?_eq_some_iff_append.mp hd
  have hes : es = post.reverse ++ d :: pre.reverse := by
    rw [← List.reverse_reverse es, hes]
    simp
  have hmem : d ∈ es := by
    rw [hes]
    simp
  rw [hdn, end_toNat (hf.top d hmem)]
  have hcase : e ∈ post.reverse ∨ e = d ∨ e ∈ pre.reverse := by
    rw [hes] at he
    simpa using he
  rcases hcase with hpost | rfl | hlast
  · obtain ⟨_, _, hsorted⟩ := List.pairwise_append.mp (hes ▸ hm.sorted)
    obtain ⟨_, _, hapart⟩ := List.pairwise_append.mp (hes ▸ hm.apart)
    have hle := BitVec.le_def.mp (hsorted e hpost d (List.mem_cons_self ..))
    have hlen : d.length.toNat ≠ 0 := fun h0 => hf.length d hmem (BitVec.eq_of_toNat_eq h0)
    by_contra hlt
    -- the last region starts inside the other one
    exact hapart e hpost d (List.mem_cons_self ..) d.base.toNat
      ⟨⟨hle, by omega⟩, ⟨le_refl _, by omega⟩⟩
  · exact le_refl _
  · have := hpre e (List.mem_reverse.mp hlast)
    simp [hfree] at this

/-- All descriptors lie below the memory given to `makeBuddy`. -/
theorem Layout.Describes.below (hL : L.Describes I es) (hA : markKernelArea I pd total es = some A) :
    L.pdBase + 32 * L.pages ≤ kerBase + A.start.toNat := by
  obtain ⟨need, hneed, hpages⟩ := hL.pages
  obtain ⟨need', hneed', hstart⟩ := markKernelArea_start hA
  rw [hneed] at hneed'
  cases hneed'
  have hle := L.pages_le
  have hker := I.ker
  have hlt := I.istEnd.isLt
  have hbase := hL.base
  rw [getPageDescriptorStart_eq] at hbase
  have hsmall : I.istEnd.toNat - kerBase < 2 ^ 47 := by
    rw [kerBase]
    omega
  have hphys : toPhys I.istEnd.toNat = I.istEnd.toNat - kerBase := by
    have := toPhys_toKer hsmall
    rwa [Nat.add_sub_cancel' hker] at this
  have hfree : (getFreeMemoryStart I need).toNat = I.istEnd.toNat - kerBase + 32 * L.pages := by
    have hdiv : (need / BitVec.ofNat 64 smallestPageSize).toNat = L.pages := by
      rw [hpages, BitVec.toNat_udiv]
      rfl
    rw [getFreeMemoryStart, getPageDescriptorStart_eq, hphys, BitVec.toNat_add, BitVec.toNat_mul,
      hdiv, BitVec.toNat_ofNat, show (32 : BitVec 64).toNat = 32 from rfl]
    omega
  rw [hstart, kernelAreaEnd, mb_two_pow, toNat_align (by omega) (by rw [hfree]; omega), hfree,
    hbase]
  omega

theorem FirmwareMap.usable (hf : FirmwareMap es) (hw : Walked es start.toNat x f)
    (ha : a ∈ f.pushed) : ∃ e, UsableBlock es start e a := by
  obtain ⟨hal, hle, _, e, he, hfree, hhold, hrange⟩ := (hw.pushed a).mp ha
  have htop := hf.top e he
  have hc := E820MmapEntry.Covers.of_holds hhold
  rw [E820MmapEntry.Covers] at hc
  rw [rangeIn_iff, BitVec.toNat_add, BitVec.toNat_ofNat, end_toNat htop, mb_two] at hrange
  refine ⟨e, he, hfree, hal, BitVec.le_def.mpr hle, hc.1, ?_⟩
  rw [mb_two]
  omega

/-- The blocks pushed are a pool of the allocator. -/
theorem exists_pool (hf : FirmwareMap es) (hm : SortedMap es) (hL : L.Describes I es)
    (hA : markKernelArea I pd total es = some A) (hw : Walked es A.start.toNat x f) :
    ∃ P : Pool L, P.heads = f.pushed.map page := by
  obtain ⟨need, hneed, hpages⟩ := hL.pages
  have hbelow := hL.below hA
  have hblock : ∀ h ∈ f.pushed.map page, 512 ∣ h ∧ h + 512 ≤ L.pages ∧
      L.pdBase + 32 * L.pages ≤ toKerAddr h := by
    intro h hh
    obtain ⟨a, ha, rfl⟩ := List.mem_map.mp hh
    obtain ⟨e, hu⟩ := hf.usable hw ha
    have hend := free_end_le hf hm hneed hu.mem hu.free
    have htop := hf.top e hu.mem
    have habove := BitVec.le_def.mp hu.above
    obtain ⟨hlo, hhi⟩ := hu.contains
    obtain ⟨i, hi⟩ := hu.aligned
    have hpage : page a = 512 * i := by
      rw [page, hi, mb_two, smallestPageSize]
      omega
    rw [mb_two] at hhi hi
    rw [hpage, hpages, toKerAddr_eq (by omega), smallestPageSize]
    rw [hpages, smallestPageSize] at hbelow
    exact ⟨⟨i, rfl⟩, by omega, by omega⟩
  refine ⟨⟨f.pushed.map page, ?_, fun h hh => (hblock h hh).1, fun h hh => (hblock h hh).2.1,
    fun h hh => (hblock h hh).2.2⟩, rfl⟩
  refine List.pairwise_map.mpr (hw.increasing.imp_of_mem fun {a b} ha hb hlt heq => ?_)
  have := page_lt (hf.usable hw ha).choose_spec.aligned (hf.usable hw hb).choose_spec.aligned hlt
  have hpos := Nat.two_pow_pos maxOrder
  rw [page, page] at heq
  omega

end Pool

end Memory
end TorexOS
