import Mathlib.Data.Set.Card
import TorexOS.BuddyRun
import TorexOS.ListRefine

/-!
# TorexOS.BuddySafety

What every run of the buddy allocator guarantees.

* `handed_out_disjoint`: live blocks are aligned and disjoint, and tile the pool with the free ones.
* `keeps_memory_iff`: over a run that never removes the last buddy of a list of three or more, no
  call dereferences null, every free block is on its list and is found by an allocation; the first
  deallocation that does remove one loses a free block.
* `coalesced_counted`: no two buddies are both free, `count` counts the free blocks, and when all
  is freed the free blocks are those of `makeBuddy`.
* `failure_changes_nothing`: an allocation that returns null, in any state at all, changed nothing
  and found every list empty.
-/

namespace TorexOS
namespace Memory

open Util Util.ListBase Dyadic Transition

section Safety

variable {L : Layout} {P : Pool L} {s t : BuddyState} {F : Nat → List Nat}

/-! ## Live and free blocks -/

theorem BuddyOk.isBlock_iff (h : BuddyOk P s F) (b : Block) :
    (b ∈ s.live ∨ RecordedFree P s.mem b) ↔ IsBlock F s.live b := by
  rw [h.recordedFree_iff, IsBlock, or_comm]

/-- Blocks handed out are aligned, pairwise disjoint, disjoint from what is recorded as free,
and tile the pages of the pool together with it. -/
theorem handed_out_disjoint (h : Reach (buddySystem L P) (fun _ _ => True) s) :
    (∀ b ∈ s.live, b.Aligned) ∧ s.live.Pairwise Block.Disjoint ∧
      (∀ b ∈ s.live, ∀ c, RecordedFree P s.mem c → b.Disjoint c) ∧
      Tiling (fun b => b ∈ s.live ∨ RecordedFree P s.mem b) (InPool P.heads) := by
  obtain ⟨F, hok⟩ := reach_ok h
  have ht := hok.inv.tiling.congr hok.isBlock_iff
  refine ⟨fun b hb => ht.aligned b (.inl hb), ?_, fun b hb c hc => ?_, ht⟩
  · refine List.Pairwise.imp_of_mem ?_ hok.inv.held_nodup
    exact fun hb hc hne => ht.disjoint (.inl hb) (.inl hc) hne
  · refine ht.disjoint (.inl hb) (.inr hc) ?_
    rintro rfl
    exact hok.flags b hb hc.2.1

theorem one_block_out : ∃ s, Reach (buddySystem smallLayout onePool) (fun _ _ => True) s ∧
    s.live = [⟨512, 8⟩] := by
  have he : (replay (buddySystem smallLayout onePool) (filled onePool)
      [.allocate 8 .kernel]).map (·.live) = some [⟨512, 8⟩] := by
    simp only [filled, onePool, insertBlocks, insertBlock, markPages_eq]
    decide +kernel
  obtain ⟨s, hs, hl⟩ := Option.map_eq_some_iff.mp he
  exact ⟨s, filled_reach hs, hl⟩

theorem handed_out_disjoint_one : ∃ s : BuddyState, s.live = [⟨512, 8⟩] ∧
    Tiling (fun b => b ∈ s.live ∨ RecordedFree onePool s.mem b) (InPool onePool.heads) := by
  obtain ⟨s, hs, hl⟩ := one_block_out
  exact ⟨s, hl, (handed_out_disjoint hs).2.2.2⟩

/-! ## Memory is never lost -/

/-- No merge of the operation removes the last buddy of a free list of three or more. -/
def KeepsLists (L : Layout) (s : BuddyState) : BuddyOp → Prop
  | .allocate _ _ => True
  | .deallocate b => ¬ OnMerge (CutsBack (freeBlock L)) s.mem b.head b.order

instance (s : BuddyState) (i : BuddyOp) : Decidable (KeepsLists L s i) :=
  match i with
  | .allocate _ _ => inferInstanceAs (Decidable True)
  | .deallocate b =>
    inferInstanceAs (Decidable (¬ OnMerge (CutsBack (freeBlock L)) s.mem b.head b.order))

/-- The free block is met on the walk along the next links of its list. -/
def OnList (L : Layout) (m : Mem) (b : Block) : Prop :=
  ∃ xs, Walks ((freeBlock L).getNext m.pd) (m.allocator.freelist b.order).head xs ∧ b.head ∈ xs

/-- Nothing is lost: legal operations run, free blocks are on their lists, and an allocation that
some free block is large enough for returns a block. -/
structure KeepsMemory (P : Pool L) (s : BuddyState) : Prop where
  runs : ∀ i, BuddyOp.Legal s i → i.exec L s ≠ none
  onList : ∀ b, RecordedFree P s.mem b → OnList L s.mem b
  found : ∀ order pt, pt ≠ .free → pt ≠ .tails →
    (∃ b, RecordedFree P s.mem b ∧ order ≤ b.order) →
    ∃ h m, allocateWithOrder L s.mem order pt = some (some h, m)

theorem not_lostHead (hl : AllLinked L s.mem F) (k : Nat) : ¬ LostHead L s.mem k := by
  rintro ⟨a, ha, hta, hna⟩
  have hk := hl k
  have hmem : a ∈ F k := List.mem_of_mem_head? (by rw [← hk.head]; exact ha)
  exact hk.not_lostNext hmem ⟨hta, hna⟩

theorem not_lostNext (hok : BuddyOk P s F) (hl : AllLinked L s.mem F) {b : Block}
    (hb : b ∈ s.live) : ¬ OnMerge (LostNext (freeBlock L)) s.mem b.head b.order := by
  rintro ⟨k, hok', hk, hup, hlost⟩
  have hm := hup k hok' (by omega)
  have hp : InPool P.heads (buddyAt b.head k) :=
    (hok.inv.head_inPool (.inr hb)).of_div (buddyAt_div hk)
  have hmem : buddyAt b.head k ∈ F k := (hok.recordedFree_iff ⟨_, k⟩).mp ⟨hp, hm⟩
  exact (hl k).not_lostNext hmem hlost

theorem keepsMemory_of_linked (hok : BuddyOk P s F) (hl : AllLinked L s.mem F) :
    KeepsMemory P s := by
  refine ⟨?_, ?_, ?_⟩
  · intro i hi hn
    cases i with
    | allocate order pt =>
      have hspec := hok.allocPages_spec order hi.1 hi.2
      rw [BuddyOp.exec, Option.map_eq_none_iff] at hn
      rw [hn] at hspec
      obtain ⟨k, _, hlost⟩ := hspec
      exact not_lostHead hl k hlost
    | deallocate b =>
      have hspec := hok.freePages_spec hi
      rw [BuddyOp.exec] at hn
      rw [hn] at hspec
      exact not_lostNext hok hl hi hspec
  · intro b hb
    exact ⟨F b.order, (hl b.order).represents.forward, (hok.recordedFree_iff b).mp hb⟩
  · rintro order pt _ ht ⟨b, hb, hle⟩
    have hspec := hok.inv.allocateWithOrder_spec order ht
    rcases he : allocateWithOrder L s.mem order pt with _ | ⟨_ | h, m⟩
    · rw [he] at hspec
      obtain ⟨k, _, hlost⟩ := hspec
      exact absurd hlost (not_lostHead hl k)
    · rw [he] at hspec
      have hmem := (hok.recordedFree_iff b).mp hb
      rw [hspec.2 b.order hle] at hmem; simp at hmem
    · exact ⟨h, m, rfl⟩

/-- Behind the node whose next link was cleared a free block is off its list. -/
theorem not_keepsMemory_of_cut (hok : BuddyOk P t F) (hc : CutList L t.mem F) :
    ¬ KeepsMemory P t := by
  rintro ⟨_, hon, _⟩
  obtain ⟨j, a, c, rest, hF, hn⟩ := hc
  obtain ⟨xs, hw, hmem⟩ := hon ⟨c, j⟩ ((hok.recordedFree_iff ⟨c, j⟩).mpr (by simp only [hF]; simp))
  have hth := hok.inv.threaded j
  rw [hth.head, hF] at hw
  have hac : c ≠ a := by
    rintro rfl
    have hnd := hth.nodup
    rw [hF] at hnd; simp at hnd
  rcases xs with _ | ⟨x, _ | ⟨y, xs⟩⟩
  · simp at hmem
  · obtain ⟨hx, _⟩ := hw
    simp only [List.head?_cons, Option.some.injEq] at hx
    rw [List.mem_singleton, ← hx] at hmem
    exact hac hmem
  · obtain ⟨hx, hy, _⟩ := hw
    simp only [List.head?_cons, Option.some.injEq] at hx
    rw [← hx, hn] at hy; cases hy

theorem reach_linked (h : Reach (buddySystem L P) (fun s i => KeepsLists L s i) s) :
    ∃ F, BuddyOk P s F ∧ AllLinked L s.mem F := by
  refine h.invariant (P := fun s => ∃ F, BuddyOk P s F ∧ AllLinked L s.mem F)
    (fun _ hi => init_ok hi) ?_
  rintro s t i ⟨F, hok, hl⟩ hleg hk he
  cases i with
  | allocate order pt =>
    obtain ⟨F', hok', hl'⟩ := allocate_ok hok hleg.1 hleg.2 he
    exact ⟨F', hok', hl' hl⟩
  | deallocate b =>
    obtain ⟨F', hR⟩ := deallocate_ok hok hleg he
    exact ⟨F', hR.ok, hR.linked hl hk⟩

/-- The buddy allocator loses nothing and never breaks over a run that keeps its lists; the
first deallocation that cuts one loses a free block. -/
theorem keeps_memory_iff (h : Reach (buddySystem L P) (fun s i => KeepsLists L s i) s) :
    KeepsMemory P s ∧ ∀ b ∈ s.live, ∃ t, (BuddyOp.deallocate b).exec L s = some t ∧
      (KeepsMemory P t ↔ KeepsLists L s (.deallocate b)) := by
  obtain ⟨F, hok, hl⟩ := reach_linked h
  have hkeep := keepsMemory_of_linked hok hl
  refine ⟨hkeep, fun b hb => ?_⟩
  obtain ⟨t, ht⟩ := Option.ne_none_iff_exists'.mp (hkeep.runs (.deallocate b) hb)
  obtain ⟨F', hR⟩ := deallocate_ok hok hb ht
  refine ⟨t, ht, fun hk hcut => ?_, fun hk => ?_⟩
  · exact not_keepsMemory_of_cut hR.ok (hR.cut hcut) hk
  · exact keepsMemory_of_linked hR.ok (hR.linked hl hk)

/-- One half of a block of 2 MiB is handed out, freed, merged with the other and handed out again. -/
theorem keeps_memory_merged : ∃ s t,
    Reach (buddySystem smallLayout onePool) (fun s i => KeepsLists smallLayout s i) s ∧
      s.live = [⟨512, 8⟩] ∧ (BuddyOp.deallocate ⟨512, 8⟩).exec smallLayout s = some t ∧
      KeepsMemory onePool s ∧ KeepsMemory onePool t := by
  have he : (replay ((buddySystem smallLayout onePool).guard fun s i => KeepsLists smallLayout s i)
      (filled onePool) [.allocate 8 .kernel, .deallocate ⟨512, 8⟩, .allocate 8 .kernel]).map
      (fun s => (s.live, decide (KeepsLists smallLayout s (.deallocate ⟨512, 8⟩)))) =
        some ([⟨512, 8⟩], true) := by
    simp only [filled, onePool, insertBlocks, insertBlock, markPages_eq]
    decide +kernel
  obtain ⟨s, hs, hl⟩ := Option.map_eq_some_iff.mp he
  simp only [Prod.mk.injEq, decide_eq_true_eq] at hl
  have hr : Reach (buddySystem smallLayout onePool) (fun s i => KeepsLists smallLayout s i) s :=
    .replay_guard (.init (filled_init onePool)) hs
  obtain ⟨hkeep, hnext⟩ := keeps_memory_iff hr
  obtain ⟨t, ht, hiff⟩ := hnext ⟨512, 8⟩ (by rw [hl.1]; simp)
  exact ⟨s, t, hr, hl.1, ht, hkeep, hiff.mpr hl.2⟩

/-- The upper halves of three blocks of 2 MiB lie on `freelist[8]` when the blocks are freed in
turn; the last one is then taken by a merge, and the third allocation of the rest breaks. -/
theorem merge_cuts_list : ¬ ∀ s, Reach (buddySystem smallLayout threePool) (fun _ _ => True) s →
    ∀ i, BuddyOp.Legal s i → i.exec smallLayout s ≠ none := by
  intro h
  have he : (replay (buddySystem smallLayout threePool) (filled threePool)
      [.allocate 8 .kernel, .allocate 8 .kernel, .allocate 8 .kernel, .allocate 8 .kernel,
        .allocate 8 .kernel, .allocate 8 .kernel, .deallocate ⟨512, 8⟩, .deallocate ⟨1024, 8⟩,
        .deallocate ⟨1536, 8⟩, .deallocate ⟨768, 8⟩]).map
      (fun s => (BuddyOp.allocate 8 .kernel).exec smallLayout s |>.isNone) = some true := by
    simp only [filled, threePool, insertBlocks, insertBlock, markPages_eq]
    decide +kernel
  obtain ⟨s, hs, hn⟩ := Option.map_eq_some_iff.mp he
  exact h s (filled_reach hs) (.allocate 8 .kernel) ⟨by decide, by decide⟩
    (Option.isNone_iff_eq_none.mp hn)

/-! ## Coalescing and counters -/

/-- The free list has less than 2^32 blocks. -/
theorem BuddyOk.length_lt (h : BuddyOk P s F) (o : Nat) : (F o).length < 2 ^ 32 := by
  have hsub : (F o).toFinset ⊆ Finset.range L.pages := by
    intro a ha
    rw [Finset.mem_range]
    exact h.inv.head_lt (b := ⟨a, o⟩) (.inl (List.mem_toFinset.mp ha))
  have hcard := Finset.card_le_card hsub
  rw [List.toFinset_card_of_nodup (h.inv.threaded o).nodup, Finset.card_range] at hcard
  have := L.pages_le
  omega

theorem BuddyOk.count_eq (h : BuddyOk P s F) (o : Nat) :
    (s.mem.allocator.count o).toNat = {a | RecordedFree P s.mem ⟨a, o⟩}.ncard := by
  have hset : {a | RecordedFree P s.mem ⟨a, o⟩} = ((F o).toFinset : Set Nat) := by
    ext a
    rw [Set.mem_ofPred_eq, h.recordedFree_iff, Finset.mem_coe, List.mem_toFinset]
  rw [hset, Set.ncard_coe_finset, List.toFinset_card_of_nodup (h.inv.threaded o).nodup,
    h.inv.count, BitVec.toNat_ofNat, Nat.mod_eq_of_lt (h.length_lt o)]

/-- With nothing handed out the block around the buddy of a free block is that buddy, or larger and
then the block itself is inside it. -/
theorem BuddyOk.only_top (h : BuddyOk P s F) (hlive : s.live = []) {o : Nat} (ho : o < maxOrder) :
    F o = [] := by
  induction o using Nat.strong_induction_on with
  | _ o ih =>
    by_contra hne
    obtain ⟨a, ha⟩ := List.exists_mem_of_ne_nil _ hne
    have hb : IsBlock F s.live ⟨a, o⟩ := .inl ha
    have hal : 2 ^ o ∣ a := h.inv.tiling.aligned _ hb
    have hpos := Nat.two_pow_pos o
    have hy : InPool P.heads (buddyof a o) := by
      rw [← buddyAt_of_dvd hal]
      exact (h.inv.head_inPool hb).of_div (buddyAt_div ho)
    obtain ⟨⟨c, k⟩, hc, hcov⟩ := h.inv.tiling.covered _ hy
    have hck : c ∈ F k := by
      rcases hc with hc | hc
      · exact hc
      · rw [hlive] at hc; simp at hc
    have hcal : 2 ^ k ∣ c := h.inv.tiling.aligned _ hc
    obtain ⟨g, hg, _, _, hcase, _⟩ := floor_buddy hal
    rcases Nat.lt_trichotomy k o with hko | rfl | hko
    · rw [ih k hko (by omega)] at hck; simp at hck
    · have hyal : 2 ^ k ∣ buddyof a k := by
        have hgo : 2 ^ k ∣ g := (pow_dvd_pow 2 (Nat.le_succ k)).trans hg
        rcases hcase with ⟨_, hbud⟩ | ⟨_, hbud⟩
        · rw [hbud]; exact Nat.dvd_add hgo (dvd_refl _)
        · rw [hbud]; exact hgo
      rw [← floor_unique hcal hcov, floor_of_dvd hyal] at hck
      exact h.coalesced k ho a ha hck
    · -- the larger block holds both halves of the pair
      have hfl : floor (buddyof a o) (o + 1) = g := by
        refine floor_unique hg ?_
        simp only [Block.Covers, pow_succ]; omega
      have hca : (Block.mk c k).Covers a := by
        rw [← floor_unique hcal hcov, ← floor_floor (buddyof a o) (show o + 1 ≤ k by omega), hfl]
        refine covers_trans (by omega) hg ?_
        simp only [Block.Covers, pow_succ]; omega
      have := h.inv.tiling.unique _ _ hb hc a (Block.covers_head _) hca
      injection this with h1 h2
      omega

theorem BuddyOk.top_perm (h : BuddyOk P s F) (hlive : s.live = []) :
    (F maxOrder).Perm P.heads := by
  have hal : ∀ a ∈ F maxOrder, 512 ∣ a := fun a ha => h.inv.tiling.aligned ⟨a, maxOrder⟩ (.inl ha)
  refine (List.perm_ext_iff_of_nodup (h.inv.threaded maxOrder).nodup P.nodup).mpr fun a => ?_
  constructor
  · intro ha
    have hp : a / 512 * 512 ∈ P.heads := h.inv.head_inPool (b := ⟨a, maxOrder⟩) (.inl ha)
    rwa [Nat.div_mul_cancel (hal a ha)] at hp
  · intro ha
    have hda := P.aligned a ha
    have hp : InPool P.heads a := by rw [InPool, Nat.div_mul_cancel hda]; exact ha
    obtain ⟨⟨c, k⟩, hc, hcov⟩ := h.inv.tiling.covered a hp
    have hck : c ∈ F k := by
      rcases hc with hc | hc
      · exact hc
      · rw [hlive] at hc; simp at hc
    have hk : k = maxOrder := by
      have hle := h.inv.order_le hc
      by_contra hne
      rw [h.only_top hlive (by simp only at hle; omega)] at hck; simp at hck
    subst hk
    have hca := floor_unique (hal c hck) hcov
    rw [floor_of_dvd hda] at hca
    rw [hca]; exact hck

/-- Complete coalescing and exact counters in every state between calls. -/
theorem coalesced_counted (h : Reach (buddySystem L P) (fun _ _ => True) s) :
    (∀ o, o < maxOrder → ∀ a, RecordedFree P s.mem ⟨a, o⟩ →
      ¬ RecordedFree P s.mem ⟨buddyof a o, o⟩) ∧
    (∀ o, (s.mem.allocator.count o).toNat = {a | RecordedFree P s.mem ⟨a, o⟩}.ncard) ∧
    (s.live = [] →
      (∀ b, RecordedFree P s.mem b ↔ b.order = maxOrder ∧ b.head ∈ P.heads) ∧
      ∀ s₀, (buddySystem L P).init s₀ →
        getFreeMemoryBlockCount s.mem = getFreeMemoryBlockCount s₀.mem) := by
  obtain ⟨F, hok⟩ := reach_ok h
  refine ⟨?_, hok.count_eq, fun hlive => ⟨?_, ?_⟩⟩
  · intro o ho a ha hb
    rw [hok.recordedFree_iff] at ha hb
    exact hok.coalesced o ho a ha hb
  · intro b
    rw [hok.recordedFree_iff]
    constructor
    · intro hb
      have hle := hok.inv.order_le (.inl hb)
      have ho : b.order = maxOrder := by
        by_contra hne
        rw [hok.only_top hlive (by omega)] at hb; simp at hb
      exact ⟨ho, by rw [ho] at hb; exact (hok.top_perm hlive).mem_iff.mp hb⟩
    · rintro ⟨ho, hb⟩
      rw [ho]; exact (hok.top_perm hlive).mem_iff.mpr hb
  · intro s₀ hi
    obtain ⟨F₀, hok₀, _⟩ := init_ok hi
    rw [getFreeMemoryBlockCount, getFreeMemoryBlockCount, hok.inv.count, hok₀.inv.count,
      (hok.top_perm hlive).length_eq, (hok₀.top_perm hi.1).length_eq]

theorem coalesced_counted_all_freed : ∃ s, Reach (buddySystem smallLayout onePool) (fun _ _ => True) s ∧
    s.live = [] ∧ RecordedFree onePool s.mem ⟨512, 9⟩ := by
  have he : (replay (buddySystem smallLayout onePool) (filled onePool)
      [.allocate 8 .kernel, .deallocate ⟨512, 8⟩]).map (·.live) = some [] := by
    simp only [filled, onePool, insertBlocks, insertBlock, markPages_eq]
    decide +kernel
  obtain ⟨s, hs, hl⟩ := Option.map_eq_some_iff.mp he
  have hr := filled_reach hs
  exact ⟨s, hr, hl, (((coalesced_counted hr).2.2 hl).1 _).mpr ⟨rfl, by decide⟩⟩

/-- Freeing the only block of order 8 in use merges it with the only one that is free: `count[8]`
is one, and `count[8] -= 2` wraps. -/
theorem count_wraps_in_merge :
    ∃ s, Reach (buddySystem smallLayout onePool) (fun _ _ => True) s ∧ ⟨512, 8⟩ ∈ s.live ∧
      MergesAt s.mem.pd 512 8 ∧ (s.mem.allocator.count 8).toNat = 1 ∧
      ∀ r, ((countOffPair (s.mem.setFreelist 8 r) 512 (buddyAt 512 8) 8).allocator.count 8).toNat =
        2 ^ 32 - 1 := by
  have he : (replay (buddySystem smallLayout onePool) (filled onePool)
      [.allocate 8 .kernel]).map (fun s => (s.live, decide (MergesAt s.mem.pd 512 8),
        s.mem.allocator.count 8)) = some ([⟨512, 8⟩], true, 1#32) := by
    simp only [filled, onePool, insertBlocks, insertBlock, markPages_eq]
    decide +kernel
  obtain ⟨s, hs, hl⟩ := Option.map_eq_some_iff.mp he
  simp only [Prod.mk.injEq, decide_eq_true_eq] at hl
  refine ⟨s, filled_reach hs, by rw [hl.1]; simp, hl.2.1, by rw [hl.2.2]; rfl, fun r => ?_⟩
  rw [countOffPair, Mem.addCount_count, Function.update_self, Mem.setOrders_allocator,
    Mem.setFlags_allocator, Mem.setFreelist_count, hl.2.2]
  rfl

end Safety

/-! ## A failed allocation -/

section Failure

variable {L : Layout} {s s' : Mem} {order : Nat} {pt : PageType}

/-- A failed allocation, in any state and at any order, changes nothing, and finds every free
list from that order up empty. -/
theorem failure_changes_nothing (h : allocateWithOrder L s order pt = some (none, s')) :
    s' = s ∧ ∀ k, order ≤ k → k ≤ maxOrder → (s.allocator.freelist k).empty := by
  fun_induction allocateWithOrder L s order pt with
  | case1 order pt hgt =>
    cases h
    exact ⟨rfl, fun k hk hmax => by omega⟩
  | case2 order pt hle hemp hrec => cases h
  | case3 order pt hle hemp s1 hrec ih =>
    -- nothing was split on the way back down
    cases h
    obtain ⟨hs, hk⟩ := ih hrec
    refine ⟨hs, fun k hok hmax => ?_⟩
    by_cases hko : k = order
    · rw [hko]; exact hemp
    · exact hk k (by omega) hmax
  | _ => cases h

/-- With one half of its block handed out, the allocator has the other half and nothing larger. -/
theorem failure_changes_nothing_half : ∃ s, Reach (buddySystem smallLayout onePool) (fun _ _ => True) s ∧
    (s.mem.allocator.freelist 8).empty = false ∧
    allocateWithOrder smallLayout s.mem 9 .kernel = some (none, s.mem) ∧
    ∀ k, 9 ≤ k → k ≤ maxOrder → (s.mem.allocator.freelist k).empty := by
  have he : (replay (buddySystem smallLayout onePool) (filled onePool) [.allocate 8 .kernel]).map
      (fun s => ((s.mem.allocator.freelist 8).empty,
        (allocateWithOrder smallLayout s.mem 9 .kernel).map Prod.fst)) = some (false, some none) := by
    simp only [filled, onePool, insertBlocks, insertBlock, markPages_eq]
    decide +kernel
  obtain ⟨s, hs, hl⟩ := Option.map_eq_some_iff.mp he
  obtain ⟨h8, h9⟩ := Prod.mk.inj hl
  obtain ⟨⟨r, s'⟩, ha, rfl⟩ := Option.map_eq_some_iff.mp h9
  obtain ⟨rfl, hempty⟩ := failure_changes_nothing ha
  exact ⟨s, filled_reach hs, h8, ha, hempty⟩

end Failure
end Memory
end TorexOS
