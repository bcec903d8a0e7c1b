import TorexOS.MemoryInit

/-!
# TorexOS.MemoryBoot

The memory manager on the memory that the firmware reported.

* `bootSystem`: the operations of the memory manager, from `init` on.
* `boot_reach`: `init` leaves a state of `kernelSystem`, over the pool of the blocks it pushed, so what
  is proved of all runs over a pool holds of the machine.
* `tables_spec`: each call for a page-table block finds one, or the machine stops there.
* `init_starts`: `init` panics, writes where nothing is mapped, or returns; the table says which.
* `handed_out_usable`: whatever runs from there, only free memory of the table is handed out.
-/

namespace TorexOS
namespace Memory

open Util Dyadic Sweep Transition

/-- The operations of the memory manager, from `init` on, whatever is mapped. All three calls of
`alloc_pages_kma` have found a block. -/
def bootSystem (L : Layout) (I : Image) (m : Dwords) : System KernelState KernelOp where
  init s := ∃ pd w mapEnd rounds b ram, init L I m pd w mapEnd rounds = .ok b ∧
    b.tables.state.live.length = 3 ∧ s = b.state ram
  legal s i := i.Legal s
  step s i := (i.exec L s).toOption

section Boot

variable {L : Layout} {I : Image} {m : Dwords} {es : List E820MmapEntry} {pd : PdTable} {w : Words}
variable {mapEnd rounds : Nat} {b : Booted} {P : Pool L} {s t : BuddyState} {S : KernelState}
variable {A : KernelArea} {ram : Nat → BitVec 8} {slubs : Nat → SlubAllocator}
variable {G : KernelState → KernelOp → Prop}

theorem HandedOver.sortedMap (h : HandedOver m es) (hf : FirmwareMap es) :
    SortedMap (e820Entries (sortEntries m)) ∧ FirmwareMap (e820Entries (sortEntries m)) := by
  obtain ⟨_, _, _, _, hp, hs⟩ := h
  exact ⟨⟨hs, (hf.perm hp).apart⟩, hf.perm hp⟩

/-- A block for the page tables is one that the allocator hands out. -/
theorem reach_allocPagesKma {sz addr : Nat}
    (h : Reach (kernelSystem L P) (fun _ _ => True) ⟨⟨s, ram, slubs⟩, s.live, fun _ => []⟩)
    (he : allocPagesKma L s .kernelMap sz = some (addr, t)) :
    Reach (kernelSystem L P) (fun _ _ => True) ⟨⟨t, ram, slubs⟩, t.live, fun _ => []⟩ := by
  refine h.step (i := .allocPages .kernelMap (calculOrder sz)) ⟨nofun, nofun⟩ trivial ?_
  rw [allocPagesKma] at he
  simp only [kernelSystem, KernelOp.exec]
  cases ha : allocPages L s .kernelMap (calculOrder sz) with
  | none =>
    rw [ha] at he
    cases he
  | some r =>
    obtain ⟨a, u⟩ := r
    rw [ha] at he
    cases he
    have hlive := ha
    rw [allocPages] at hlive
    cases a with
    | none =>
      split at hlive
      · cases hlive
      · cases hlive
        rfl
      · cases hlive
    | some a =>
      split at hlive
      · cases hlive
      · cases hlive
      · cases hlive
        rfl

/-- The three calls of `alloc_pages_kma` in `makeKernelPTE`. -/
theorem makeKernelPTE_eq {r : KernelPTE} (h : makeKernelPTE L s w es = some r) :
    ∃ size pte pud pgd t u v, sizeOfMapping es = some size ∧ pteCount size.toNat ≤ 512 ∧
      allocPagesKma L s .kernelMap (pteCount size.toNat * 4096) = some (pte, t) ∧
      allocPagesKma L t .kernelMap (pudCount size.toNat * 4096) = some (pud, u) ∧
      allocPagesKma L u .kernelMap (pgdCount size.toNat * 4096) = some (pgd, v) ∧
      r = fillTables v w size.toNat pte pud pgd := by
  rw [makeKernelPTE] at h
  split at h
  · cases h
  · rename_i size hsize
    simp only at h
    split at h
    · cases h
    · rename_i hc
      split at h
      · cases h
      · rename_i pte t h1
        split at h
        · cases h
        · rename_i pud u h2
          split at h
          · cases h
          · rename_i pgd v h3
            cases h
            exact ⟨size, pte, pud, pgd, t, u, v, hsize, Nat.not_lt.mp hc, h1, h2, h3, rfl⟩

theorem init_eq (h : init L I m pd w mapEnd rounds = .ok b) :
    markKernelArea I pd 0 (e820Entries (sortEntries m)) = some b.area ∧
      makeBuddy L (Mem.start b.area.pd) b.area.totalMemoryBlockCount (e820Entries (sortEntries m))
        b.area.start rounds = some b.filling ∧ b.filling.regions = [] ∧
      makeKernelPTE L ⟨b.filling.mem, []⟩ w (e820Entries (sortEntries m)) = some b.tables ∧
      L.pdBase + 32 * b.filling.curPd ≤ mapEnd ∧ ∀ a ∈ b.tables.entries, a + 8 ≤ mapEnd := by
  simp only [init] at h
  split at h
  · cases h
  · rename_i area harea
    split at h
    · cases h
    · split at h
      · cases h
      · rename_i f₀ hf₀
        split at h
        · cases h
        · rename_i f hf
          split at h
          · cases h
          · rename_i hmap
            split at h
            · cases h
            · rename_i hregions
              split at h
              · cases h
              · split at h
                · cases h
                · split at h
                  · cases h
                  · rename_i r hr
                    split at h
                    · rename_i hall
                      cases h
                      refine ⟨harea, ?_, not_not.mp hregions, hr, Nat.not_lt.mp hmap, hall⟩
                      rw [makeBuddy, hf₀]
                      exact hf
                    · cases h

theorem kernelArea_dvd {A : KernelArea} {total : BitVec 32}
    (hA : markKernelArea I pd total es = some A) : mb 2 ∣ A.start.toNat := by
  obtain ⟨need, _, hstart⟩ := markKernelArea_start hA
  rw [hstart]
  exact align_dvd _

theorem init_walked (hm : SortedMap (e820Entries (sortEntries m)))
    (hf : FirmwareMap (e820Entries (sortEntries m))) (h : init L I m pd w mapEnd rounds = .ok b) :
    ∃ x, Walked (e820Entries (sortEntries m)) b.area.start.toNat x b.filling := by
  obtain ⟨hA, hmake, _⟩ := init_eq h
  exact makeBuddy_exists_walked hm hf.top (kernelArea_dvd hA) hmake

/-- `init` leaves a state of the memory manager over the blocks it pushed. -/
theorem boot_reach (hm : SortedMap (e820Entries (sortEntries m)))
    (hf : FirmwareMap (e820Entries (sortEntries m)))
    (hL : L.Describes I (e820Entries (sortEntries m))) (h : init L I m pd w mapEnd rounds = .ok b) :
    ∃ P : Pool L, P.heads = b.filling.pushed.map page ∧
      (buddySystem L P).init ⟨b.filling.mem, []⟩ ∧
      ∀ ram, Reach (kernelSystem L P) (fun _ _ => True) (b.state ram) := by
  obtain ⟨hA, hmake, _, hpte, _⟩ := init_eq h
  obtain ⟨x, hw⟩ := init_walked hm hf h
  obtain ⟨P, hP⟩ := exists_pool hf hm hL hA hw
  obtain ⟨pd', hfill⟩ := makeBuddy_filled hm hf.top (kernelArea_dvd hA) hmake
  obtain ⟨_, pte, pud, pgd, t, u, v, _, _, h1, h2, h3, hr⟩ := makeKernelPTE_eq hpte
  have hi : (buddySystem L P).init ⟨b.filling.mem, []⟩ := ⟨rfl, pd', by rw [hP]; exact hfill⟩
  refine ⟨P, hP, hi, fun ram => ?_⟩
  have hstart : Reach (kernelSystem L P) (fun _ _ => True)
      ⟨⟨⟨b.filling.mem, []⟩, ram, makePool⟩, [], fun _ => []⟩ := .init ⟨hi, rfl, rfl, fun _ => rfl⟩
  have hv := reach_allocPagesKma (reach_allocPagesKma (reach_allocPagesKma hstart h1) h2) h3
  rw [Booted.state, hr]
  exact hv

/-! ## The page tables -/

/-- A block lies above the table of descriptors. -/
theorem BuddyOk.above {F : Nat → List Nat} {c : Block} (h : BuddyOk P s F) (hc : c ∈ s.live) :
    L.pdBase + 32 * L.pages ≤ toKerAddr c.head := by
  have hpool := h.inv.head_inPool (.inr hc)
  have hlt := h.inv.head_lt (.inr hc)
  have hle := L.pages_le
  have hdiv := Nat.div_mul_le_self c.head 512
  have habove := P.above _ hpool
  rw [toKerAddr_eq (by omega)] at habove ⊢
  exact habove.trans (Nat.add_le_add_left (Nat.mul_le_mul_right _ hdiv) _)

/-- What a call for a block of this order leaves: the address made of null, where no such block is
free, or one more live block, above the table of descriptors. -/
def KmaLeaves (L : Layout) (F : Nat → List Nat) (order addr : Nat) (s t : BuddyState) : Prop :=
  (t.live = s.live ∧ addr = toKer (L.physOf none) ∧ ∀ k, order ≤ k → F k = []) ∨
    (∃ a, t.live = ⟨a, order⟩ :: s.live) ∧ L.pdBase + 32 * L.pages ≤ addr

theorem KmaLeaves.length_le {F : Nat → List Nat} {order addr : Nat} (h : KmaLeaves L F order addr s t) :
    t.live.length ≤ s.live.length + 1 := by
  cases h with
  | inl h =>
    rw [h.1]
    omega
  | inr h =>
    obtain ⟨⟨a, h⟩, _⟩ := h
    rw [h, List.length_cons]

/-- The table of a machine with 16 MiB of free memory. -/
def bootTable : Dwords :=
  writeEntry (fun x => if x = systemAddressMapSize then 1 else 0) systemAddressMap
    ⟨0, 0x1000000, regionFree, 1⟩

theorem bootTable_handedOver : HandedOver bootTable freeMap := by
  refine ⟨by decide, by decide, by decide, by decide, ?_, ?_⟩
  · rw [show e820Entries (sortEntries bootTable) = freeMap by decide]
  · rw [show e820Entries (sortEntries bootTable) = freeMap by decide]
    exact List.pairwise_singleton _ _

theorem freeMap_firmware : FirmwareMap freeMap :=
  ⟨List.pairwise_singleton _ _, by decide, by decide⟩

/-- The descriptors of 4096 pages, behind an image that ends at 4 MiB. -/
def bootLayout : Layout where
  pdBase := 0xffff800000400000
  pages := smallLayout.pages
  slubs := 0xffff8000003ff000
  pdBase_pos := by omega
  pd_fits := by decide
  pages_le := smallLayout.pages_le
  slubs_fits := by omega

theorem bootLayout_describes :
    bootLayout.Describes smallImage (e820Entries (sortEntries bootTable)) :=
  ⟨by decide, 0x1000000, by decide, by decide⟩

/-- `init` with this table, where the boot code has mapped the first gigabyte. -/
def bootRun : Except InitFault Booted :=
  init bootLayout smallImage bootTable (fun _ => ⟨0⟩) (fun _ => 0) (kerBase + 2 ^ 30) 8

/-- The page tables are on the first pages behind 6 MiB. -/
theorem bootRun_live :
    bootRun.toOption.map (fun b => b.tables.state.live) = some [⟨1538, 0⟩, ⟨1537, 0⟩, ⟨1536, 0⟩] := by
  simp only [bootRun, init, markKernelArea, makeBuddyStart, makeBuddyRounds, makeBuddyRound,
    Filling.pushBlock, Filling.reserveBlock, insertBlock, markPages_eq, makeKernelPTE]
  decide +kernel

/-- An address that the memory manager has given away and not yet got back. -/
def KernelState.Gave (S : KernelState) (a : Nat) : Prop :=
  (∃ c ∈ S.held, InPages c a) ∨
    ∃ k, k < 7 ∧ ∃ p ∈ S.objs k, p ≤ a ∧ a < p + (S.kernel.slubs k).objectSize

/-- A run from `init` on is one over the pool that `init` pushed. -/
theorem boot_run (hh : HandedOver m es) (hf : FirmwareMap es)
    (hL : L.Describes I (e820Entries (sortEntries m))) (h : Reach (bootSystem L I m) G S) :
    ∃ pd w mapEnd rounds b, ∃ P : Pool L, init L I m pd w mapEnd rounds = .ok b ∧
      P.heads = b.filling.pushed.map page ∧ Reach (kernelSystem L P) (fun _ _ => True) S := by
  induction h with
  | init hi =>
    obtain ⟨pd, w, mapEnd, rounds, b, ram, hb, _, rfl⟩ := hi
    obtain ⟨hm, hf'⟩ := hh.sortedMap hf
    obtain ⟨P, hP, _, hreach⟩ := boot_reach hm hf' hL hb
    exact ⟨pd, w, mapEnd, rounds, b, P, hb, hP, hreach ram⟩
  | step _ hl _ he ih =>
    obtain ⟨pd, w, mapEnd, rounds, b, P, hb, hP, hreach⟩ := ih
    exact ⟨pd, w, mapEnd, rounds, b, P, hb, hP, hreach.step hl trivial he⟩

/-- What is given away lies in live blocks. -/
theorem KernelOk.gave {F : Nat → List Nat} {V : Nat → View} {a : Nat} (h : KernelOk P S F V)
    (ha : S.Gave a) : ∃ c ∈ S.kernel.pages.live, InPages c a := by
  cases ha with
  | inl ha =>
    obtain ⟨c, hc, ha⟩ := ha
    exact ⟨c, (h.held c hc).1, ha⟩
  | inr ha =>
    obtain ⟨k, hk, p, hp, hlo, hhi⟩ := ha
    obtain ⟨s, hs, _, c, hc, rfl⟩ := h.object hk hp
    rw [(h.slub k hk).size] at hhi
    exact ⟨⟨s, k⟩, h.owned_live hk hs, cell_byte hc ⟨hlo, hhi⟩⟩

/-- The pages of a pool block are those of the 2 MiB that were pushed. -/
theorem UsableBlock.covers {a start : BitVec 64} {e : E820MmapEntry} {x : Nat}
    (h : UsableBlock es start e a) (hx : x / 4096 / 512 * 512 = page a) : e.Covers x := by
  obtain ⟨hlo, hhi⟩ := h.contains
  obtain ⟨i, hi⟩ := h.aligned
  rw [page, hi, smallestPageSize] at hx
  rw [hi] at hlo hhi
  rw [mb_two] at *
  exact ⟨by omega, by omega⟩

/-- Only memory that the firmware reported as free is ever given away, and none of the kernel's image
or of the table of descriptors: in every run, for all blocks and objects of it. -/
theorem handed_out_usable (hh : HandedOver m es) (hf : FirmwareMap es)
    (hL : L.Describes I (e820Entries (sortEntries m)))
    (h : Reach (bootSystem L I m) (fun _ _ => True) S) :
    ∀ a, S.Gave a → L.pdBase + 32 * L.pages ≤ a ∧
      ∃ e ∈ es, e.type = regionFree ∧ ∃ x, e.Covers x ∧ a = kerBase + x := by
  intro a ha
  obtain ⟨pd, w, mapEnd, rounds, b, P, hb, hP, hreach⟩ := boot_run hh hf hL h
  obtain ⟨F, V, hok, _⟩ := kernel_reach hreach
  obtain ⟨c, hc, hin⟩ := hok.gave ha
  have habove := hok.pages.above hc
  have hlt := hok.pages.inv.head_lt (.inr hc)
  have hpool := hok.pages.inv.tiling.inside c (.inr hc) _ (hin.covers hlt)
  refine ⟨habove.trans hin.1, ?_⟩
  obtain ⟨hm, hf'⟩ := hh.sortedMap hf
  obtain ⟨x, hw⟩ := init_walked hm hf' hb
  rw [InPool, hP] at hpool
  obtain ⟨p, hp, hpage⟩ := List.mem_map.mp hpool
  obtain ⟨e, hu⟩ := hf'.usable hw hp
  have hker : kerBase ≤ a := (Nat.right_le_or).trans hin.1
  obtain ⟨_, _, _, _, hperm, _⟩ := hh
  exact ⟨e, hperm.subset hu.mem, hu.free, a - kerBase, hu.covers hpage.symm,
    (Nat.add_sub_cancel' hker).symm⟩

/-- The first object of 256 bytes is on the pages behind them. -/
theorem bootRun_alloc : (bootRun.toOption.bind fun b =>
    ((KernelOp.alloc 3).exec bootLayout (b.state fun _ => 0)).toOption).map
      (fun s => (s.held, s.objs 3, (s.kernel.slubs 3).objectSize)) =
        some ([⟨1538, 0⟩, ⟨1537, 0⟩, ⟨1536, 0⟩], [0xffff800000608000], 256) := by
  simp only [bootRun, init, markKernelArea, makeBuddyStart, makeBuddyRounds, makeBuddyRound,
    Filling.pushBlock, Filling.reserveBlock, insertBlock, markPages_eq, makeKernelPTE]
  decide +kernel

theorem handed_out_usable_alloc : ∃ S : KernelState,
    S.Gave 0xffff800000600000 ∧ S.Gave 0xffff800000608000 ∧
      ∀ a, S.Gave a → 0xffff800000420000 ≤ a ∧
        ∃ e ∈ freeMap, e.type = regionFree ∧ ∃ x, e.Covers x ∧ a = kerBase + x := by
  obtain ⟨S, hS, hout⟩ := Option.map_eq_some_iff.mp bootRun_alloc
  obtain ⟨b, hb, hstep⟩ := Option.bind_eq_some_iff.mp hS
  simp only [Prod.mk.injEq] at hout
  obtain ⟨hheld, hobjs, hsize⟩ := hout
  have hlive : b.tables.state.live.length = 3 := by
    have hlive := bootRun_live
    rw [hb] at hlive
    exact congrArg List.length (Option.some.inj hlive)
  have hreach : Reach (bootSystem bootLayout smallImage bootTable) (fun _ _ => True) S :=
    .step (i := .alloc 3) (.init ⟨_, _, _, 8, b, _, toOption_eq_some hb, hlive, rfl⟩)
      (by decide : 3 < 7) trivial hstep
  refine ⟨S, .inl ⟨⟨1536, 0⟩, by simp [hheld], by decide, by decide⟩,
    .inr ⟨3, by decide, _, by rw [hobjs]; exact List.mem_cons_self .., le_refl _, by rw [hsize]; decide⟩,
    handed_out_usable bootTable_handedOver freeMap_firmware bootLayout_describes hreach⟩

end Boot

end Memory
end TorexOS
