import TorexOS.BuddyAlloc

/-!
# TorexOS.BuddyMerge

`tryMergeAndGet` and `deallocateBlock` under the invariant.

A deallocation of block `b` meets one buddy for each order `k`: the buddy `buddyAt b k` of the
block of order `k` around `b`. It merges at `k` when that buddy is free with order `k`
(`MergesAt`), and reaches `k` when it merges at every order below (`MergesUpTo`). All of this can
be read off the descriptors before the call.

* `merge_spec`: one merge.
* `deallocateBlock_spec`: the call dereferences null exactly when a merge it makes removes a buddy
  whose next link was lost (`LostNext`); otherwise the block is free, coalesced, and the free lists
  keep all their next links exactly when no merge removes the last buddy of a list of three or more
  (`CutsBack`).
-/

namespace TorexOS
namespace Memory

open Util Util.ListBase Dyadic

/-- The buddy of the block of order `k` around page `b`. -/
def buddyAt (b k : Nat) : Nat := buddyof (floor b k) k

/-- The buddy met at order `k` is free with that order. -/
def MergesAt (pd : PdTable) (b k : Nat) : Prop :=
  (pd (buddyAt b k)).flags = PageType.free.flag ∧ (pd (buddyAt b k)).orders = k

instance (pd : PdTable) (b k : Nat) : Decidable (MergesAt pd b k) := by
  unfold MergesAt; infer_instance

/-- The block merges at each order from `o` up to, and not including, `k`. -/
def MergesUpTo (pd : PdTable) (b o k : Nat) : Prop := ∀ j, o ≤ j → j < k → MergesAt pd b j

instance (pd : PdTable) (b o k : Nat) : Decidable (MergesUpTo pd b o k) :=
  decidable_of_iff (∀ j ∈ List.range k, o ≤ j → MergesAt pd b j)
    ⟨fun h j ho hj => h j (List.mem_range.mpr hj) ho, fun h j hj ho => h j ho (List.mem_range.mp hj)⟩

/-- Some merge of the deallocation meets a list and a buddy with property `Q`. -/
def OnMerge (Q : PdTable → ListBase Nat → Nat → Prop) (s : Mem) (b o : Nat) : Prop :=
  ∃ k, o ≤ k ∧ k < maxOrder ∧ MergesUpTo s.pd b o (k + 1) ∧
    Q s.pd (s.allocator.freelist k) (buddyAt b k)

instance {Q : PdTable → ListBase Nat → Nat → Prop} [∀ pd l a, Decidable (Q pd l a)] (s : Mem)
    (b o : Nat) : Decidable (OnMerge Q s b o) :=
  decidable_of_iff (∃ k ∈ List.range maxOrder, o ≤ k ∧ MergesUpTo s.pd b o (k + 1) ∧
      Q s.pd (s.allocator.freelist k) (buddyAt b k))
    ⟨fun ⟨k, hk, ho, h⟩ => ⟨k, ho, List.mem_range.mp hk, h⟩,
      fun ⟨k, ho, hk, h⟩ => ⟨k, List.mem_range.mpr hk, ho, h⟩⟩

/-- A free list that goes on after its first node, whose next link is null. -/
def CutList (L : Layout) (s : Mem) (F : Nat → List Nat) : Prop :=
  ∃ j a c rest, F j = a :: c :: rest ∧ (freeBlock L).getNext s.pd a = none

theorem buddyAt_floor {j k : Nat} (b : Nat) (hjk : j ≤ k) :
    buddyAt (floor b j) k = buddyAt b k := by
  rw [buddyAt, buddyAt, floor_floor b hjk]

theorem buddyAt_of_dvd {b k : Nat} (hd : 2 ^ k ∣ b) : buddyAt b k = buddyof b k := by
  rw [buddyAt, floor_of_dvd hd]

theorem buddyAt_ne {b k p : Nat} (hc : (Block.mk (floor b k) k).Covers p) : buddyAt b k ≠ p :=
  buddy_not_covered (floor_dvd b k) hc

/-- Buddies of one order share the block of the next. -/
theorem floor_buddy {b o : Nat} (hd : 2 ^ o ∣ b) :
    ∃ g, 2 ^ (o + 1) ∣ g ∧ g = floor b (o + 1) ∧ getPrimary b (buddyof b o) = g ∧
      ((b = g ∧ buddyof b o = g + 2 ^ o) ∨ (b = g + 2 ^ o ∧ buddyof b o = g)) ∧
      buddyof g o = g + 2 ^ o := by
  obtain ⟨g, hg, hcase, hand⟩ := buddy_cases hd
  have hpos := Nat.two_pow_pos o
  refine ⟨g, hg, ?_, hand, hcase, xor_lower hg⟩
  refine (floor_unique hg ?_).symm
  simp only [Block.Covers, pow_succ]
  omega

/-- The buddies a page meets below the greatest order are in its own 2 MiB block. -/
theorem buddyAt_div {b k : Nat} (hk : k < maxOrder) : buddyAt b k / 512 = b / 512 := by
  obtain ⟨g, hg, hgf, _, hcase, _⟩ := floor_buddy (floor_dvd b k)
  rw [floor_floor b (Nat.le_succ k)] at hgf
  have hb := floor_covers b (k + 1)
  rw [← hgf] at hb
  have hpos := Nat.two_pow_pos k
  have hy : (Block.mk g (k + 1)).Covers (buddyAt b k) := by
    rw [buddyAt]; simp only [Block.Covers, pow_succ]; omega
  have hdiv : ∀ p, (Block.mk g (k + 1)).Covers p → p / 512 = g / 512 := by
    intro p hp
    have h1 := covers_trans (k := 9) (by simp only [maxOrder] at hk; omega) hg hp
    simp only [Block.Covers, floor] at h1
    omega
  rw [hdiv _ hy, hdiv b hb]

namespace BuddyInv

variable {L : Layout} {hs : List Nat} {s s' : Mem} {F : Nat → List Nat} {held : List Block}
variable {b o k : Nat} {r : PdTable × ListBase Nat}

theorem buddy_inPool (hI : BuddyInv L hs s F (⟨b, o⟩ :: held)) (ho : o < maxOrder) :
    InPool hs (buddyof b o) := by
  rw [← buddyAt_of_dvd (hI.tiling.aligned ⟨b, o⟩ (.inr (by simp)))]
  exact (hI.head_inPool (b := ⟨b, o⟩) (.inr (by simp))).of_div (buddyAt_div ho)

theorem buddy_ne (hI : BuddyInv L hs s F (⟨b, o⟩ :: held)) : buddyof b o ≠ b :=
  buddy_not_covered (hI.tiling.aligned ⟨b, o⟩ (.inr (by simp))) (Block.covers_head _)

/-- The test of `tryMergeAndGet` finds exactly the buddies on the free list. -/
theorem buddy_mem_iff (hI : BuddyInv L hs s F (⟨b, o⟩ :: held)) (ho : o < maxOrder)
    (hlive : ∀ c ∈ held, (s.pd c.head).flags ≠ PageType.free.flag) :
    ((s.pd (buddyof b o)).flags = PageType.free.flag ∧ (s.pd (buddyof b o)).orders = o) ↔
      buddyof b o ∈ F o := by
  refine ⟨fun ⟨hf, hor⟩ => ?_, fun hm => hI.free_head o _ hm⟩
  obtain ⟨c, hc, hch⟩ := hI.head_of_flags (hI.buddy_inPool ho) (by rw [hf]; decide)
  rcases hc with hc | hc
  · rw [hch] at hc
    rwa [← (hI.free_head _ _ hc).2, hor] at hc
  · rcases List.mem_cons.mp hc with rfl | hc
    · exact absurd hch.symm hI.buddy_ne
    · exact absurd (by rw [hch]; exact hf) (hlive c hc)

/-- What one merge leaves: the buddy is off its list, and the joined block `g` is held, free and
of the next order. -/
structure Merged (L : Layout) (hs : List Nat) (s : Mem) (F : Nat → List Nat) (held : List Block)
    (b o g : Nat) (s' : Mem) : Prop where
  inv : BuddyInv L hs s' (Function.update F o ((F o).erase (buddyof b o))) (⟨g, o + 1⟩ :: held)
  flags : (s'.pd g).flags = PageType.free.flag
  orders : (s'.pd g).orders = o + 1
  pd : ∀ i, i ≠ g → i ≠ g + 2 ^ o → i ∉ F o → s'.pd i = s.pd i
  fields : ∀ i, i ≠ g → i ≠ g + 2 ^ o →
    (s'.pd i).flags = (s.pd i).flags ∧ (s'.pd i).orders = (s.pd i).orders
  frame : ∀ c ∈ held, s'.pd c.head = s.pd c.head
  freelist : ∀ j, j ≠ o → s'.allocator.freelist j = s.allocator.freelist j
  linked : AllLinked L s F →
    ¬ CutsBack (freeBlock L) s.pd (s.allocator.freelist o) (buddyof b o) →
    AllLinked L s' (Function.update F o ((F o).erase (buddyof b o)))
  cut : CutsBack (freeBlock L) s.pd (s.allocator.freelist o) (buddyof b o) →
    ∃ a c rest, (F o).erase (buddyof b o) = a :: c :: rest ∧ (freeBlock L).getNext s'.pd a = none

theorem mergeBuddies_allocator (s : Mem) (b y o : Nat) :
    (mergeBuddies s b y o).allocator = (s.addCount o (-1)).allocator := by
  have hc : s.allocator.count o + -2 + 1 = s.allocator.count o + -1 := by
    rw [BitVec.add_assoc]; rfl
  simp only [mergeBuddies, countOffPair, Mem.addCount, Mem.setOrders_allocator, Mem.setFlags_allocator,
    Function.update_self, Function.update_idem, hc]

/-- The descriptors a merge changes: the upper half's head becomes a tail, the lower half's head
gets the joined block's type and order. -/
theorem merged_pd (s : Mem) (g o : Nat) (hbud : buddyof g o = g + 2 ^ o) (b y : Nat)
    (hg : getPrimary b y = g) :
    ((mergeBuddies s b y o).setFlags g .free).pd =
      (((s.setFlags (g + 2 ^ o) .tails).setOrders g (o + 1)).setFlags g .free).pd := by
  simp only [mergeBuddies, countOffPair, hg, hbud, Mem.setFlags, Mem.addCount_pd]

theorem merge_spec (hI : BuddyInv L hs s F (⟨b, o⟩ :: held)) (ho : o < maxOrder)
    (hy : buddyof b o ∈ F o)
    (hp : popNode (freeBlock L) s.pd (s.allocator.freelist o) (buddyof b o) = some r) :
    Merged L hs s F held b o (floor b (o + 1))
      ((mergeBuddies (s.setFreelist o r) b (buddyof b o) o).setFlags (floor b (o + 1)) .free) := by
  have hal : 2 ^ o ∣ b := hI.tiling.aligned ⟨b, o⟩ (.inr (by simp))
  obtain ⟨g, hg, rfl, hprim, hcase, hbg⟩ := floor_buddy hal
  have hpos := Nat.two_pow_pos o
  have ho255 : o + 1 < 256 := by simp only [maxOrder] at ho; omega
  obtain ⟨ht, hw⟩ := popNode_threaded (hI.threaded o) hy hp
  obtain ⟨hpd, hfl, hor⟩ := writes_pd hw
  generalize hs1 : (s.setFreelist o r).addCount o (-1) = s1
  have hs1pd : s1.pd = r.1 := by rw [← hs1]; rfl
  have hI1 : BuddyInv L hs s1 (Function.update F o ((F o).erase (buddyof b o)))
      (⟨buddyof b o, o⟩ :: ⟨b, o⟩ :: held) := by
    rw [← hs1]; exact hI.take_inv (List.perm_cons_erase hy) ht hw
  generalize floor b (o + 1) = g at *
  -- the two halves in order
  have hI2 : BuddyInv L hs s1 (Function.update F o ((F o).erase (buddyof b o)))
      (⟨g, o⟩ :: ⟨g + 2 ^ o, o⟩ :: held) := by
    rcases hcase with ⟨rfl, hyb⟩ | ⟨rfl, hyb⟩
    · rw [hyb] at hI1 ⊢; exact hI1.perm (List.Perm.swap _ _ _)
    · rw [hyb] at hI1 ⊢; exact hI1
  let s2 := s1.setFlags (g + 2 ^ o) .tails
  have hI3 : BuddyInv L hs s2 (Function.update F o ((F o).erase (buddyof b o)))
      (⟨g, o + 1⟩ :: held) :=
    hI2.join_inv hg ho rfl (fun i hi => by rw [Mem.setFlags_pd, if_neg hi])
      (by rw [Mem.flags_setFlags, if_pos rfl])
  generalize hs' : (mergeBuddies (s.setFreelist o r) b (buddyof b o) o).setFlags g .free = s'
  have hspd : s'.pd = ((s2.setOrders g (o + 1)).setFlags g .free).pd := by
    rw [← hs', merged_pd _ g o hbg b _ hprim]
    simp only [s2, Mem.setFlags, Mem.setOrders, hs1pd, Mem.setFreelist_pd]
  have hsal : s'.allocator = s1.allocator := by
    rw [← hs', ← hs1, Mem.setFlags_allocator, mergeBuddies_allocator]
  have hne : ∀ i, i ≠ g → s'.pd i = s2.pd i := by
    intro i hi
    rw [hspd, Mem.setFlags_pd, if_neg hi, Mem.setOrders_pd, if_neg hi]
  have hgf : (s'.pd g).flags = PageType.free.flag := by
    rw [hspd, Mem.flags_setFlags, if_pos rfl]
  have hI4 : BuddyInv L hs s' (Function.update F o ((F o).erase (buddyof b o)))
      (⟨g, o + 1⟩ :: held) :=
    hI3.retag_inv (hsal.trans rfl) hne (by rw [hgf]; decide)
  have hs2 : ∀ i, i ≠ g + 2 ^ o → s2.pd i = r.1 i := by
    intro i hi; rw [Mem.setFlags_pd, if_neg hi, hs1pd]
  -- the free lists hold neither half
  have hfree : ∀ j, ∀ a ∈ Function.update F o ((F o).erase (buddyof b o)) j,
      s'.pd a = r.1 a := by
    intro j a ha
    have hag : a ≠ g := by
      rintro rfl; exact hI4.held_not_mem (b := ⟨a, o + 1⟩) (by simp) ha
    have hau : a ≠ g + 2 ^ o := by
      rintro rfl; exact hI2.held_not_mem (b := ⟨g + 2 ^ o, o⟩) (by simp) ha
    rw [hne a hag, hs2 a hau]
  have hcut := (hI.threaded o).cutsBack_iff (a := buddyof b o)
  refine ⟨hI4, hgf, ?_, ?_, ?_, ?_, ?_, ?_, ?_⟩
  · rw [hspd, Mem.orders_setFlags, Mem.orders_setOrders _ _ _ _ ho255, if_pos rfl]
  · intro i hig hiu hiF
    rw [hne i hig, hs2 i hiu, hpd i hiF]
  · intro i hig hiu
    rw [hne i hig, hs2 i hiu]
    exact ⟨hfl i, hor i⟩
  · intro c hc
    have hcg : c.head ≠ g := hI4.head_ne hc
    have hcu : c.head ≠ g + 2 ^ o :=
      hI4.inside_not_head (b := ⟨g, o + 1⟩) (.inr (by simp)) (by simp)
        (by simp only [pow_succ]; omega) c (.inr (by simp [hc]))
    rw [hne _ hcg, hs2 _ hcu, hpd _ (hI.held_not_mem (by simp [hc]))]
  · intro j hj
    rw [hsal, ← hs1, Mem.addCount_freelist, Mem.setFreelist_freelist, Function.update_of_ne hj]
  · intro hl hc
    have hx : (F o).length ≤ 2 ∨ (F o).getLast? ≠ some (buddyof b o) := by
      rw [hcut] at hc; by_cases hlen : (F o).length ≤ 2
      · exact .inl hlen
      · exact .inr fun hlast => hc ⟨by omega, hlast⟩
    obtain ⟨m', l', he, hlk⟩ := popNode_linked (hl o) hy hx
    rw [hp] at he; cases he
    have hl1 : AllLinked L s1 (Function.update F o ((F o).erase (buddyof b o))) := by
      rw [← hs1]; exact linked_update hl hlk hw hI.take_disjoint
    exact allLinked_of_pd hl1 hsal fun j a ha => by rw [hfree j a ha, hs1pd]
  · intro hc
    obtain ⟨hlen, hlast⟩ := hcut.mp hc
    obtain ⟨a, c, rest, he, _, hn⟩ := popNode_cut (hI.threaded o) hlen hlast hp
    refine ⟨a, c, rest, he, ?_⟩
    have ha := hfree o a (by rw [Function.update_self, he]; simp)
    simp only [freeBlock] at hn ⊢
    rw [ha]; exact hn

/-! ## The cascade -/

/-- `Q` looks at no descriptor but the buddy's. -/
def Local (Q : PdTable → ListBase Nat → Nat → Prop) : Prop :=
  ∀ pd pd' l y, pd' y = pd y → (Q pd' l y ↔ Q pd l y)

theorem local_cutsBack : Local (CutsBack (freeBlock L)) := by
  intro pd pd' l y h; simp only [CutsBack, freeBlock, h]

theorem local_lostNext : Local (LostNext (freeBlock L)) := by
  intro pd pd' l y h; simp only [LostNext, freeBlock, h]

variable {Q : PdTable → ListBase Nat → Nat → Prop}

theorem not_onMerge (hm : ¬ (o < maxOrder ∧ MergesAt s.pd b o)) : ¬ OnMerge Q s b o := by
  rintro ⟨k, hok, hk, hup, _⟩
  exact hm ⟨by omega, hup o (le_refl _) (by omega)⟩

/-- The merges after the first are those of the joined block, met in the memory the first leaves. -/
theorem Merged.onMerge (hM : Merged L hs s F held b o (floor b (o + 1)) s')
    (hI : BuddyInv L hs s F (⟨b, o⟩ :: held)) (ho : o < maxOrder) (hm : MergesAt s.pd b o)
    (hQ : Local Q) :
    OnMerge Q s b o ↔
      Q s.pd (s.allocator.freelist o) (buddyAt b o) ∨ OnMerge Q s' (floor b (o + 1)) (o + 1) := by
  have hpos := Nat.two_pow_pos o
  -- the buddies met above `o` are outside the joined block
  have hout : ∀ j, o < j → buddyAt b j ≠ floor b (o + 1) ∧
      buddyAt b j ≠ floor b (o + 1) + 2 ^ o := by
    intro j hj
    have hf := floor_floor b (show o + 1 ≤ j by omega)
    refine ⟨buddyAt_ne ?_, buddyAt_ne ?_⟩
    · rw [← hf]; exact floor_covers _ j
    · rw [← hf]
      refine covers_trans (show o + 1 ≤ j by omega) (floor_dvd _ _) ?_
      simp only [Block.Covers, pow_succ]; omega
  have hat : ∀ j, o < j →
      (MergesAt s'.pd (floor b (o + 1)) j ↔ MergesAt s.pd b j) := by
    intro j hj
    rw [MergesAt, MergesAt, buddyAt_floor b (show o + 1 ≤ j by omega),
      (hM.fields _ (hout j hj).1 (hout j hj).2).1, (hM.fields _ (hout j hj).1 (hout j hj).2).2]
  have hQat : ∀ k, o < k → MergesAt s.pd b k →
      (Q s'.pd (s'.allocator.freelist k) (buddyAt (floor b (o + 1)) k) ↔
        Q s.pd (s.allocator.freelist k) (buddyAt b k)) := by
    intro k hk hmk
    have hnF : buddyAt b k ∉ F o := by
      intro hc
      have := (hI.free_head o _ hc).2
      rw [hmk.2] at this; omega
    rw [buddyAt_floor b (show o + 1 ≤ k by omega), hM.freelist k (by omega)]
    exact hQ _ _ _ _ (hM.pd _ (hout k hk).1 (hout k hk).2 hnF)
  constructor
  · rintro ⟨k, hok, hk, hup, hq⟩
    by_cases hko : k = o
    · subst hko; exact .inl hq
    · have hlt : o < k := by omega
      refine .inr ⟨k, by omega, hk, fun j hj hjk => ?_, ?_⟩
      · exact (hat j (by omega)).mpr (hup j (by omega) hjk)
      · exact (hQat k hlt (hup k hok (by omega))).mpr hq
  · rintro (hq | ⟨k, hok, hk, hup, hq⟩)
    · refine ⟨o, le_refl _, ho, fun j hj hjk => ?_, hq⟩
      obtain rfl : j = o := by omega
      exact hm
    · have hupk : ∀ j, o < j → j < k + 1 → MergesAt s.pd b j :=
        fun j hj hjk => (hat j hj).mp (hup j (by omega) hjk)
      refine ⟨k, by omega, hk, fun j hj hjk => ?_, ?_⟩
      · by_cases hjo : j = o
        · rw [hjo]; exact hm
        · exact hupk j (by omega) hjk
      · exact (hQat k (by omega) (hupk k (by omega) (by omega))).mp hq

/-- What a deallocation that does not dereference null leaves. -/
structure Freed (L : Layout) (hs : List Nat) (s : Mem) (F : Nat → List Nat) (held : List Block)
    (b o : Nat) (s' : Mem) (F' : Nat → List Nat) : Prop where
  inv : BuddyInv L hs s' F' held
  frame : ∀ c ∈ held, s'.pd c.head = s.pd c.head
  coalesced : Coalesced F → Coalesced F'
  linked : AllLinked L s F → ¬ OnMerge (CutsBack (freeBlock L)) s b o → AllLinked L s' F'
  cut : OnMerge (CutsBack (freeBlock L)) s b o → CutList L s' F'
  below : ∀ j, j < o → F' j = F j ∧ ∀ a ∈ F j, s'.pd a = s.pd a

/-- The branch that does not merge. -/
theorem push_spec (hI : BuddyInv L hs s F (⟨b, o⟩ :: held))
    (hf : (s.pd b).flags = PageType.free.flag) (hor : (s.pd b).orders = o)
    (hlive : ∀ c ∈ held, (s.pd c.head).flags ≠ PageType.free.flag)
    (hm : ¬ (o < maxOrder ∧ MergesAt s.pd b o)) :
    ∃ r, pushFrontNode (freeBlock L) s.pd (s.allocator.freelist o) b = some r ∧
      Freed L hs s F held b o ((s.setFreelist o r).addCount o 1)
        (Function.update F o (b :: F o)) := by
  have hnm : b ∉ F o := hI.held_not_mem (b := ⟨b, o⟩) (by simp)
  have hst : (freeBlock L).Storable b := hI.head_lt (b := ⟨b, o⟩) (.inr (by simp))
  have hal : 2 ^ o ∣ b := hI.tiling.aligned ⟨b, o⟩ (.inr (by simp))
  obtain ⟨m', l', he, ht, hl, hw⟩ := pushFrontNode_threaded (hI.threaded o) hnm hst
  refine ⟨(m', l'), he, hI.give_inv (List.Perm.refl _) hf hor ht hw, ?_, ?_, ?_, ?_, ?_⟩
  · exact hI.held_frame_cons (r := (m', l')) hw
  · intro hc k hk a ha
    by_cases hko : k = o
    · subst hko
      rw [Function.update_self] at ha ⊢
      have hbud : buddyof b k ∉ F k := by
        rw [← hI.buddy_mem_iff hk hlive]
        intro hc'
        exact hm ⟨hk, by rw [MergesAt, buddyAt_of_dvd hal]; exact hc'⟩
      have hinv : ∀ x, buddyof (buddyof x k) k = x := fun x => by
        rw [buddyof, buddyof, Nat.xor_assoc, Nat.xor_self, Nat.xor_zero]
      rw [List.mem_cons] at ha ⊢
      rcases ha with rfl | ha
      · rintro (hb | hb)
        · exact hI.buddy_ne hb
        · exact hbud hb
      · rintro (hb | hb)
        · rw [← hinv a, hb] at ha; exact hbud ha
        · exact hc k hk a ha hb
    · rw [Function.update_of_ne hko] at ha ⊢
      exact hc k hk a ha
  · intro hall _
    exact linked_update (r := (m', l')) hall (hl (hall o)) hw hI.give_disjoint
  · exact fun hc => absurd hc (not_onMerge hm)
  · intro j hj
    refine ⟨Function.update_of_ne (by omega) _ _, fun a ha => ?_⟩
    exact (writes_pd hw).1 a (hI.give_disjoint j (by omega) a ha)

theorem coalesced_erase (hc : Coalesced F) (y : Nat) :
    Coalesced (Function.update F o ((F o).erase y)) := by
  intro k hk a ha
  by_cases hko : k = o
  · subst hko
    rw [Function.update_self] at ha ⊢
    exact fun hb => hc k hk a (List.mem_of_mem_erase ha) (List.mem_of_mem_erase hb)
  · rw [Function.update_of_ne hko] at ha ⊢
    exact hc k hk a ha

theorem tryMergeAndGet_spec (hI : BuddyInv L hs s F (⟨b, o⟩ :: held))
    (hf : (s.pd b).flags = PageType.free.flag) (hor : (s.pd b).orders = o)
    (hlive : ∀ c ∈ held, (s.pd c.head).flags ≠ PageType.free.flag) :
    match tryMergeAndGet L s b with
    | none => OnMerge (LostNext (freeBlock L)) s b o
    | some s' => ¬ OnMerge (LostNext (freeBlock L)) s b o ∧
        ∃ F', Freed L hs s F held b o s' F' := by
  induction hn : maxOrder - o generalizing s F b o with
  | zero =>
    have hge : ¬ (o < maxOrder ∧ MergesAt s.pd b o) := by omega
    obtain ⟨r, hr, hF⟩ := hI.push_spec hf hor hlive hge
    rw [tryMergeAndGet]
    simp only [hor, hr]
    rw [if_neg (by omega)]
    exact ⟨not_onMerge hge, _, hF⟩
  | succ n ih =>
    have hlt : o < maxOrder := by omega
    have hal : 2 ^ o ∣ b := hI.tiling.aligned ⟨b, o⟩ (.inr (by simp))
    have hat : MergesAt s.pd b o ↔ buddyof b o ∈ F o := by
      rw [MergesAt, buddyAt_of_dvd hal]; exact hI.buddy_mem_iff hlt hlive
    by_cases hm : MergesAt s.pd b o
    · have hy := hat.mp hm
      have hcond := hm
      rw [MergesAt, buddyAt_of_dvd hal] at hcond
      rw [tryMergeAndGet]
      simp only [hor]
      rw [if_pos ⟨hlt, hcond⟩]
      cases hp : popNode (freeBlock L) s.pd (s.allocator.freelist o) (buddyof b o) with
      | none =>
        have hlost := (popNode_eq_none_iff_lostNext (hI.threaded o) hy).mp hp
        refine ⟨o, le_refl _, hlt, fun j hj hjk => ?_, by rw [buddyAt_of_dvd hal]; exact hlost⟩
        obtain rfl : j = o := by omega
        exact hm
      | some r =>
        have hnl : ¬ LostNext (freeBlock L) s.pd (s.allocator.freelist o) (buddyAt b o) := by
          rw [buddyAt_of_dvd hal, ← popNode_eq_none_iff_lostNext (hI.threaded o) hy, hp]; simp
        have hM := hI.merge_spec hlt hy hp
        obtain ⟨_, _, hg, hprim, _⟩ := floor_buddy hal
        simp only [hprim, hg]
        have hrec := ih hM.inv hM.flags hM.orders
          (fun c hc => by rw [hM.frame c hc]; exact hlive c hc) (by omega)
        have hlostIff := hM.onMerge hI hlt hm (local_lostNext (L := L))
        have hcutIff := hM.onMerge hI hlt hm (local_cutsBack (L := L))
        revert hrec
        split
        · intro hrec; exact hlostIff.mpr (.inr hrec)
        · rintro ⟨hnlost, F', hF⟩
          refine ⟨fun hc => ?_, F', hF.inv, ?_, ?_, ?_, ?_, ?_⟩
          · rcases hlostIff.mp hc with hc | hc
            · exact hnl hc
            · exact hnlost hc
          · intro c hc; rw [hF.frame c hc, hM.frame c hc]
          · exact fun hc => hF.coalesced (coalesced_erase hc _)
          · intro hall hnc
            rw [hcutIff, not_or, buddyAt_of_dvd hal] at hnc
            exact hF.linked (hM.linked hall hnc.1) hnc.2
          · intro hc
            rcases hcutIff.mp hc with hc | hc
            · rw [buddyAt_of_dvd hal] at hc
              obtain ⟨a, c, rest, he, hn'⟩ := hM.cut hc
              obtain ⟨h1, h2⟩ := hF.below o (by omega)
              rw [Function.update_self] at h1 h2
              refine ⟨o, a, c, rest, by rw [h1, he], ?_⟩
              simp only [freeBlock] at hn' ⊢
              rw [h2 a (by rw [he]; simp)]; exact hn'
            · exact hF.cut hc
          · intro j hj
            obtain ⟨h1, h2⟩ := hF.below j (by omega)
            rw [Function.update_of_ne (by omega)] at h1 h2
            refine ⟨h1, fun a ha => ?_⟩
            have hpos := Nat.two_pow_pos o
            have ha' : a ∈ Function.update F o ((F o).erase (buddyof b o)) j := by
              rw [Function.update_of_ne (by omega)]; exact ha
            have hag : a ≠ floor b (o + 1) := by
              intro he
              exact hM.inv.held_not_mem (b := ⟨floor b (o + 1), o + 1⟩) (by simp) (he ▸ ha')
            have hau : a ≠ floor b (o + 1) + 2 ^ o :=
              hM.inv.inside_not_head (b := ⟨floor b (o + 1), o + 1⟩) (.inr (by simp)) (by simp)
                (by simp only [pow_succ]; omega) ⟨a, j⟩ (.inl ha')
            have hao : a ∉ F o := fun hc => absurd (hI.free_unique ha hc) (by omega)
            rw [h2 a ha, hM.pd a hag hau hao]
    · have hge : ¬ (o < maxOrder ∧ MergesAt s.pd b o) := fun hc => hm hc.2
      obtain ⟨r, hr, hF⟩ := hI.push_spec hf hor hlive hge
      have hcond := hm
      rw [MergesAt, buddyAt_of_dvd hal] at hcond
      rw [tryMergeAndGet]
      simp only [hor, hr]
      rw [if_neg (fun hc => hcond hc.2)]
      exact ⟨not_onMerge hge, _, hF⟩

/-! ## deallocateBlock -/

/-- Marking the block itself does not change what its deallocation meets. -/
theorem onMerge_setFlags (t : PageType) (hQ : Local Q) :
    OnMerge Q (s.setFlags b t) b o ↔ OnMerge Q s b o := by
  have hpd : ∀ k, (s.setFlags b t).pd (buddyAt b k) = s.pd (buddyAt b k) := by
    intro k
    rw [Mem.setFlags_pd, if_neg (buddyAt_ne (floor_covers b k))]
  have hat : ∀ k, MergesAt (s.setFlags b t).pd b k ↔ MergesAt s.pd b k := by
    intro k; rw [MergesAt, MergesAt, hpd]
  simp only [OnMerge, MergesUpTo, hat, Mem.setFlags_allocator]
  refine exists_congr fun k => and_congr_right fun _ => and_congr_right fun _ =>
    and_congr_right fun _ => hQ _ _ _ _ (hpd k)

theorem deallocateBlock_spec {c : Block} (hI : BuddyInv L hs s F held) (hc : c ∈ held)
    (hor : (s.pd c.head).orders = c.order)
    (hlive : ∀ c ∈ held, (s.pd c.head).flags ≠ PageType.free.flag) :
    match deallocateBlock L s c.head with
    | none => OnMerge (LostNext (freeBlock L)) s c.head c.order
    | some s' => ¬ OnMerge (LostNext (freeBlock L)) s c.head c.order ∧
        ∃ F', Freed L hs s F (held.erase c) c.head c.order s' F' := by
  have hI0 : BuddyInv L hs s F (c :: held.erase c) := hI.perm (List.perm_cons_erase hc).symm
  have hne : ∀ i, i ≠ c.head → (s.setFlags c.head .free).pd i = s.pd i := by
    intro i hi; rw [Mem.setFlags_pd, if_neg hi]
  have hf : ((s.setFlags c.head .free).pd c.head).flags = PageType.free.flag := by
    rw [Mem.flags_setFlags, if_pos rfl]
  have hI1 : BuddyInv L hs (s.setFlags c.head .free) F (c :: held.erase c) :=
    hI0.retag_inv rfl hne (by rw [hf]; decide)
  have hother : ∀ d ∈ held.erase c, d.head ≠ c.head := fun d hd => hI0.head_ne hd
  have hnF : ∀ j, ∀ a ∈ F j, a ≠ c.head := by
    rintro j a ha rfl; exact hI.held_not_mem hc ha
  have hspec := hI1.tryMergeAndGet_spec (b := c.head) (o := c.order) hf
    (by rw [Mem.orders_setFlags]; exact hor)
    (fun d hd => by rw [hne _ (hother d hd)]; exact hlive d (List.mem_of_mem_erase hd))
  rw [deallocateBlock]
  revert hspec
  split
  · exact (onMerge_setFlags _ local_lostNext).mp
  · rintro ⟨hnl, F', hF⟩
    refine ⟨fun h => hnl ((onMerge_setFlags _ local_lostNext).mpr h), F', hF.inv, ?_,
      hF.coalesced, ?_, ?_, ?_⟩
    · intro d hd; rw [hF.frame d hd, hne _ (hother d hd)]
    · intro hall hnc
      refine hF.linked (allLinked_of_pd hall rfl fun j a ha => hne a (hnF j a ha)) ?_
      exact fun h => hnc ((onMerge_setFlags _ local_cutsBack).mp h)
    · exact fun h => hF.cut ((onMerge_setFlags _ local_cutsBack).mpr h)
    · intro j hj
      obtain ⟨h1, h2⟩ := hF.below j hj
      exact ⟨h1, fun a ha => by rw [h2 a ha, hne a (hnF j a ha)]⟩

end BuddyInv
end Memory
end TorexOS
