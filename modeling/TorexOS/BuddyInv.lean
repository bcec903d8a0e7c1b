import TorexOS.Lib.Dyadic
import TorexOS.Buddy
import TorexOS.ListBaseCorrect

/-!
# TorexOS.BuddyInv

The invariant of the buddy allocator, and the five changes its functions are made of.

`BuddyInv L hs s F held`: the pages of the 2 MiB blocks `hs` are tiled by the blocks on the free
lists, `F order`, and the blocks `held` outside them; each free list is `Threaded`; a descriptor is
free with its block's order at the head of a free block, not a tail at the head of a held one, and
a tail inside any block; `count` counts the free lists.

* `take_inv`, `give_inv`: a block leaves, or enters, a free list.
* `split_inv`, `join_inv`: a held block is split in its halves, two held halves are joined.
* `retag_inv`: the head of a held block gets another type or order.
-/

namespace TorexOS
namespace Memory

open Util Util.ListBase Dyadic

/-- The page is in one of the 2 MiB blocks `hs`. -/
def InPool (hs : List Nat) (p : Nat) : Prop := p / 512 * 512 ∈ hs

instance (hs : List Nat) (p : Nat) : Decidable (InPool hs p) := by unfold InPool; infer_instance

theorem InPool.of_div {hs : List Nat} {p q : Nat} (h : InPool hs p) (hd : q / 512 = p / 512) :
    InPool hs q := by
  rw [InPool, hd]; exact h

/-- A block is on the free list of its order, or held. -/
def IsBlock (F : Nat → List Nat) (held : List Block) (b : Block) : Prop :=
  b.head ∈ F b.order ∨ b ∈ held

/-- What holds of the allocator with free lists `F` and blocks `held` outside them. -/
structure BuddyInv (L : Layout) (hs : List Nat) (s : Mem) (F : Nat → List Nat)
    (held : List Block) : Prop where
  threaded : ∀ o, Threaded (freeBlock L) s.pd (s.allocator.freelist o) (F o)
  count : ∀ o, s.allocator.count o = BitVec.ofNat 32 (F o).length
  above : ∀ o, maxOrder < o → F o = []
  free_head : ∀ o, ∀ h ∈ F o, (s.pd h).flags = PageType.free.flag ∧ (s.pd h).orders = o
  held_head : ∀ b ∈ held, b.order ≤ maxOrder ∧ (s.pd b.head).flags ≠ PageType.tails.flag
  tails : ∀ b, IsBlock F held b → ∀ p, b.head < p → p < b.head + 2 ^ b.order →
    (s.pd p).flags = PageType.tails.flag
  tiling : Tiling (IsBlock F held) (InPool hs)
  held_nodup : held.Nodup
  held_not_free : ∀ b ∈ held, b.head ∉ F b.order
  fits : ∀ h ∈ hs, h + 512 ≤ L.pages

/-- The next links of the free lists are all right too. -/
def AllLinked (L : Layout) (s : Mem) (F : Nat → List Nat) : Prop :=
  ∀ o, Linked (freeBlock L) s.pd (s.allocator.freelist o) (F o)

/-- Link writes leave descriptors outside `S` alone, and types and orders everywhere. -/
theorem writes_pd {L : Layout} {S : Nat → Prop} {pd pd' : PdTable}
    (h : Writes (freeBlock L) S pd pd') :
    (∀ i, ¬ S i → pd' i = pd i) ∧ (∀ i, (pd' i).flags = (pd i).flags) ∧
      ∀ i, (pd' i).orders = (pd i).orders := by
  induction h with
  | refl => exact ⟨fun _ _ => rfl, fun _ => rfl, fun _ => rfl⟩
  | @next pd1 a p _ ha ih =>
    obtain ⟨h1, h2, h3⟩ := ih
    refine ⟨fun i hi => ?_, fun i => ?_, fun i => ?_⟩
    · have hne : i ≠ a := by rintro rfl; exact hi ha
      rw [← h1 i hi]; exact PdTable.modify_ne pd1 (·.setNext (L.encode p)) hne
    · rw [← h2 i]; exact PdTable.field_modify PageDescriptor.flags (by simp) _ _ _
    · rw [← h3 i]; exact PdTable.field_modify PageDescriptor.orders (by simp) _ _ _
  | @prev pd1 a p _ ha ih =>
    obtain ⟨h1, h2, h3⟩ := ih
    refine ⟨fun i hi => ?_, fun i => ?_, fun i => ?_⟩
    · have hne : i ≠ a := by rintro rfl; exact hi ha
      rw [← h1 i hi]; exact PdTable.modify_ne pd1 (·.setPrev (L.encode p)) hne
    · rw [← h2 i]; exact PdTable.field_modify PageDescriptor.flags (by simp) _ _ _
    · rw [← h3 i]; exact PdTable.field_modify PageDescriptor.orders (by simp) _ _ _

theorem count_take (n : Nat) : BitVec.ofNat 32 (n + 1) + -1 = BitVec.ofNat 32 n := by
  rw [BitVec.ofNat_add, BitVec.add_assoc]; exact BitVec.add_zero _

theorem count_give (n : Nat) : BitVec.ofNat 32 n + 1 = BitVec.ofNat 32 (n + 1) :=
  (BitVec.ofNat_add n 1).symm

namespace BuddyInv

variable {L : Layout} {hs : List Nat} {s : Mem} {F : Nat → List Nat} {held : List Block}
variable {h k o : Nat} {xs : List Nat} {b : Block} {r : PdTable × ListBase Nat}

/-! ## Reading the invariant -/

theorem perm {held' : List Block} (hI : BuddyInv L hs s F held) (hp : held'.Perm held) :
    BuddyInv L hs s F held' where
  threaded := hI.threaded
  count := hI.count
  above := hI.above
  free_head := hI.free_head
  held_head b hb := hI.held_head b (hp.mem_iff.mp hb)
  tails b hb := hI.tails b (by rwa [IsBlock, hp.mem_iff] at hb)
  tiling := hI.tiling.congr fun b => by rw [IsBlock, IsBlock, hp.mem_iff]
  held_nodup := hp.nodup_iff.mpr hI.held_nodup
  held_not_free b hb := hI.held_not_free b (hp.mem_iff.mp hb)
  fits := hI.fits

theorem order_le (hI : BuddyInv L hs s F held) (hb : IsBlock F held b) : b.order ≤ maxOrder := by
  rcases hb with hb | hb
  · by_contra hc
    rw [hI.above b.order (by omega)] at hb; simp at hb
  · exact (hI.held_head b hb).1

theorem head_inPool (hI : BuddyInv L hs s F held) (hb : IsBlock F held b) : InPool hs b.head :=
  hI.tiling.inside b hb b.head b.covers_head

theorem head_lt (hI : BuddyInv L hs s F held) (hb : IsBlock F held b) : b.head < L.pages := by
  have := hI.fits _ (hI.head_inPool hb)
  omega

/-- The head of a block is not a tail. -/
theorem head_flags (hI : BuddyInv L hs s F held) (hb : IsBlock F held b) :
    (s.pd b.head).flags ≠ PageType.tails.flag := by
  rcases hb with hb | hb
  · rw [(hI.free_head _ _ hb).1]; decide
  · exact (hI.held_head b hb).2

/-- A page of the pool that is not a tail is the head of a block. -/
theorem head_of_flags (hI : BuddyInv L hs s F held) (hp : InPool hs h)
    (hf : (s.pd h).flags ≠ PageType.tails.flag) : ∃ b, IsBlock F held b ∧ b.head = h := by
  obtain ⟨b, hb, hlo, hhi⟩ := hI.tiling.covered h hp
  refine ⟨b, hb, ?_⟩
  by_contra hne
  exact hf (hI.tails b hb h (by omega) hhi)

/-- The free lists share no block. -/
theorem free_unique (hI : BuddyInv L hs s F held) (ho : h ∈ F o) (hk : h ∈ F k) : o = k := by
  rw [← (hI.free_head o h ho).2, (hI.free_head k h hk).2]

theorem held_not_mem (hI : BuddyInv L hs s F held) (hb : b ∈ held) : b.head ∉ F k := by
  intro hk
  have he : b = ⟨b.head, k⟩ := hI.tiling.head_unique (.inr hb) (.inl hk) rfl
  have hn := hI.held_not_free b hb
  rw [show b.order = k from congrArg Block.order he] at hn
  exact hn hk

/-- The other blocks held have other heads. -/
theorem head_ne (hI : BuddyInv L hs s F (b :: held)) {c : Block} (hc : c ∈ held) :
    c.head ≠ b.head := by
  intro he
  obtain rfl := hI.tiling.head_unique (.inr (List.mem_cons_of_mem b hc))
    (.inr (List.mem_cons_self ..)) he
  exact (List.nodup_cons.mp hI.held_nodup).1 hc

/-- The nodes of one free list are on no other. -/
theorem take_disjoint (hI : BuddyInv L hs s F held) :
    ∀ o, o ≠ k → ∀ a ∈ F o, ¬ a ∈ F k :=
  fun _ ho _ ha hk => ho (hI.free_unique ha hk)

/-- Nor is the block that is about to enter the list. -/
theorem give_disjoint (hI : BuddyInv L hs s F (⟨h, k⟩ :: held)) :
    ∀ o, o ≠ k → ∀ a ∈ F o, ¬ a ∈ h :: F k := by
  intro o ho a ha hk
  rcases List.mem_cons.mp hk with rfl | hk
  · exact hI.held_not_mem (b := ⟨a, k⟩) (by simp) ha
  · exact ho (hI.free_unique ha hk)

/-! ## A block leaves a free list -/

/-- What a list operation on `freelist[k]` with nodes among `S` leaves of the other lists. -/
theorem threaded_update (hI : BuddyInv L hs s F held) (ht : Threaded (freeBlock L) r.1 r.2 xs)
    {S : Nat → Prop} (hw : Writes (freeBlock L) S s.pd r.1)
    (hS : ∀ o, o ≠ k → ∀ a ∈ F o, ¬ S a) :
    ∀ o, Threaded (freeBlock L) r.1 (Function.update s.allocator.freelist k r.2 o)
      (Function.update F k xs o) := by
  intro o
  by_cases ho : o = k
  · subst ho; rw [Function.update_self, Function.update_self]; exact ht
  · rw [Function.update_of_ne ho, Function.update_of_ne ho]
    have hpd : ∀ a ∈ F o, r.1 a = s.pd a := fun a ha => (writes_pd hw).1 a (hS o ho a ha)
    exact (hI.threaded o).congr (fun a ha => by simp only [freeBlock, hpd a ha])
      fun a ha => by simp only [freeBlock, hpd a ha]

theorem linked_update (hl : AllLinked L s F) (ht : Linked (freeBlock L) r.1 r.2 xs)
    {S : Nat → Prop} (hw : Writes (freeBlock L) S s.pd r.1)
    (hS : ∀ o, o ≠ k → ∀ a ∈ F o, ¬ S a) :
    ∀ o, Linked (freeBlock L) r.1 (Function.update s.allocator.freelist k r.2 o)
      (Function.update F k xs o) := by
  intro o
  by_cases ho : o = k
  · subst ho; rw [Function.update_self, Function.update_self]; exact ht
  · rw [Function.update_of_ne ho, Function.update_of_ne ho]
    have hpd : ∀ a ∈ F o, r.1 a = s.pd a := fun a ha => (writes_pd hw).1 a (hS o ho a ha)
    exact (hl o).congr (fun a ha => by simp only [freeBlock, hpd a ha])
      fun a ha => by simp only [freeBlock, hpd a ha]

theorem mem_update_perm {a : Nat} (hp : (F k).Perm (h :: xs)) :
    a ∈ F o ↔ a ∈ Function.update F k xs o ∨ (o = k ∧ a = h) := by
  by_cases ho : o = k
  · subst ho; rw [Function.update_self, hp.mem_iff]; simp; tauto
  · rw [Function.update_of_ne ho]; simp [ho]

theorem take_inv (hI : BuddyInv L hs s F held) (hp : (F k).Perm (h :: xs))
    (ht : Threaded (freeBlock L) r.1 r.2 xs) (hw : Writes (freeBlock L) (· ∈ F k) s.pd r.1) :
    BuddyInv L hs ((s.setFreelist k r).addCount k (-1)) (Function.update F k xs)
      (⟨h, k⟩ :: held) := by
  obtain ⟨_, hfl, hor⟩ := writes_pd hw
  have hh : h ∈ F k := hp.mem_iff.mpr (by simp)
  have hnd : h ∉ xs := (List.nodup_cons.mp (hp.nodup_iff.mp (hI.threaded k).nodup)).1
  have hB : ∀ b, IsBlock (Function.update F k xs) (⟨h, k⟩ :: held) b ↔ IsBlock F held b := by
    intro b
    rw [IsBlock, IsBlock, mem_update_perm hp, List.mem_cons, Block.ext_iff]
    tauto
  refine ⟨hI.threaded_update ht hw hI.take_disjoint, ?_, ?_, ?_, ?_, ?_, hI.tiling.congr hB, ?_, ?_, hI.fits⟩
  · intro o
    by_cases ho : o = k
    · subst ho
      rw [Mem.addCount_count, Mem.setFreelist_count, Function.update_self, Function.update_self,
        hI.count o, hp.length_eq, List.length_cons, count_take]
    · rw [Mem.addCount_count, Function.update_of_ne ho, Function.update_of_ne ho]
      exact hI.count o
  · intro o ho
    have hok : o ≠ k := by rintro rfl; rw [hI.above o ho] at hh; simp at hh
    rw [Function.update_of_ne hok]; exact hI.above o ho
  · intro o a ha
    have := hI.free_head o a ((mem_update_perm hp).mpr (.inl ha))
    exact ⟨(hfl a).trans this.1, (hor a).trans this.2⟩
  · intro b hb
    have hb' : IsBlock F held b := (hB b).mp (.inr hb)
    exact ⟨hI.order_le hb', by rw [Mem.addCount_pd, Mem.setFreelist_pd, hfl]; exact hI.head_flags hb'⟩
  · intro b hb p hlo hhi
    exact (hfl p).trans (hI.tails b ((hB b).mp hb) p hlo hhi)
  · exact List.nodup_cons.mpr ⟨fun hc => hI.held_not_mem hc hh, hI.held_nodup⟩
  · intro b hb hc
    rcases List.mem_cons.mp hb with rfl | hb
    · rw [Function.update_self] at hc; exact hnd hc
    · exact hI.held_not_mem hb ((mem_update_perm hp).mpr (.inl hc))

/-! ## A block enters a free list -/

theorem give_inv (hI : BuddyInv L hs s F (⟨h, k⟩ :: held)) (hp : xs.Perm (h :: F k))
    (hf : (s.pd h).flags = PageType.free.flag) (ho : (s.pd h).orders = k)
    (ht : Threaded (freeBlock L) r.1 r.2 xs) (hw : Writes (freeBlock L) (· ∈ h :: F k) s.pd r.1) :
    BuddyInv L hs ((s.setFreelist k r).addCount k 1) (Function.update F k xs) held := by
  obtain ⟨_, hfl, hor⟩ := writes_pd hw
  have hnd := List.nodup_cons.mp hI.held_nodup
  have hmem : ∀ o a, a ∈ Function.update F k xs o ↔ a ∈ F o ∨ (o = k ∧ a = h) := by
    intro o a
    by_cases hok : o = k
    · subst hok; rw [Function.update_self, hp.mem_iff]; simp; tauto
    · rw [Function.update_of_ne hok]; simp [hok]
  have hB : ∀ b, IsBlock (Function.update F k xs) held b ↔ IsBlock F (⟨h, k⟩ :: held) b := by
    intro b
    rw [IsBlock, IsBlock, hmem, List.mem_cons, Block.ext_iff]
    tauto
  refine ⟨hI.threaded_update ht hw hI.give_disjoint, ?_, ?_, ?_, ?_, ?_, hI.tiling.congr hB, hnd.2, ?_, hI.fits⟩
  · intro o
    by_cases hok : o = k
    · subst hok
      rw [Mem.addCount_count, Mem.setFreelist_count, Function.update_self, Function.update_self,
        hI.count o, hp.length_eq, List.length_cons, count_give]
    · rw [Mem.addCount_count, Function.update_of_ne hok, Function.update_of_ne hok]
      exact hI.count o
  · intro o hgt
    have hok : o ≠ k := by rintro rfl; exact absurd (hI.held_head ⟨h, o⟩ (by simp)).1 (not_le.mpr hgt)
    rw [Function.update_of_ne hok]; exact hI.above o hgt
  · intro o a ha
    rcases (hmem o a).mp ha with ha | ⟨rfl, rfl⟩
    · have := hI.free_head o a ha
      exact ⟨(hfl a).trans this.1, (hor a).trans this.2⟩
    · exact ⟨(hfl a).trans hf, (hor a).trans ho⟩
  · intro b hb
    have := hI.held_head b (by simp [hb])
    exact ⟨this.1, by rw [Mem.addCount_pd, Mem.setFreelist_pd, hfl]; exact this.2⟩
  · intro b hb p hlo hhi
    exact (hfl p).trans (hI.tails b ((hB b).mp hb) p hlo hhi)
  · intro b hb hc
    rcases (hmem _ _).mp hc with hc | ⟨h1, h2⟩
    · exact hI.held_not_mem (b := b) (by simp [hb]) hc
    · exact hnd.1 (by rw [← h1, ← h2]; exact hb)

/-! ## Changes to held blocks -/

variable {s' : Mem} {held' : List Block} {g : Nat}

/-- The free lists are left alone and the held blocks change. -/
theorem reheld_inv (hI : BuddyInv L hs s F held) (ha : s'.allocator = s.allocator)
    (hpd : ∀ o, ∀ a ∈ F o, s'.pd a = s.pd a)
    (hh : ∀ b ∈ held', b.order ≤ maxOrder ∧ (s'.pd b.head).flags ≠ PageType.tails.flag)
    (ht : ∀ b, IsBlock F held' b → ∀ p, b.head < p → p < b.head + 2 ^ b.order →
      (s'.pd p).flags = PageType.tails.flag)
    (htl : Tiling (IsBlock F held') (InPool hs)) (hnd : held'.Nodup)
    (hnf : ∀ b ∈ held', b.head ∉ F b.order) : BuddyInv L hs s' F held' where
  threaded o := by
    rw [ha]
    exact (hI.threaded o).congr (fun a hm => by simp only [freeBlock, hpd o a hm])
      fun a hm => by simp only [freeBlock, hpd o a hm]
  count := by rw [ha]; exact hI.count
  above := hI.above
  free_head o a hm := by rw [hpd o a hm]; exact hI.free_head o a hm
  held_head := hh
  tails := ht
  tiling := htl
  held_nodup := hnd
  held_not_free := hnf
  fits := hI.fits

theorem allLinked_of_pd (hl : AllLinked L s F) (ha : s'.allocator = s.allocator)
    (hpd : ∀ o, ∀ a ∈ F o, s'.pd a = s.pd a) : AllLinked L s' F := by
  intro o
  rw [ha]
  exact (hl o).congr (fun a hm => by simp only [freeBlock, hpd o a hm])
    fun a hm => by simp only [freeBlock, hpd o a hm]

/-- A page strictly inside a block heads no block. -/
theorem inside_not_head (hI : BuddyInv L hs s F held) (hb : IsBlock F held b)
    (hlo : b.head < h) (hhi : h < b.head + 2 ^ b.order) (c : Block) (hc : IsBlock F held c) :
    c.head ≠ h := by
  rintro rfl
  have he := hI.tiling.unique b c hb hc c.head ⟨by omega, hhi⟩ c.covers_head
  subst he; omega

/-- The upper half of a held block becomes a block of its own. -/
theorem split_inv (hI : BuddyInv L hs s F (⟨h, o + 1⟩ :: held)) (ha : s'.allocator = s.allocator)
    (hpd : ∀ i, i ≠ h + 2 ^ o → s'.pd i = s.pd i)
    (hf : (s'.pd (h + 2 ^ o)).flags ≠ PageType.tails.flag) :
    BuddyInv L hs s' F (⟨h, o⟩ :: ⟨h + 2 ^ o, o⟩ :: held) := by
  have hb : IsBlock F (⟨h, o + 1⟩ :: held) ⟨h, o + 1⟩ := .inr (by simp)
  have hpos := Nat.two_pow_pos o
  have hup : ∀ c, IsBlock F (⟨h, o + 1⟩ :: held) c → c.head ≠ h + 2 ^ o :=
    hI.inside_not_head hb (by simp) (by simp only [pow_succ]; omega)
  have hlow : ∀ k, ⟨h, k⟩ ∉ held := fun k hk => hI.head_ne hk rfl
  have hnh := List.nodup_cons.mp hI.held_nodup
  have hle : o + 1 ≤ maxOrder := (hI.held_head ⟨h, o + 1⟩ (by simp)).1
  have hB : ∀ b, IsBlock F (⟨h, o⟩ :: ⟨h + 2 ^ o, o⟩ :: held) b ↔
      (IsBlock F (⟨h, o + 1⟩ :: held) b ∧ b ≠ ⟨h, o + 1⟩) ∨ b = ⟨h, o⟩ ∨ b = ⟨h + 2 ^ o, o⟩ := by
    intro b
    have h1 : b ∈ held → b ≠ ⟨h, o + 1⟩ := by rintro hm rfl; exact hnh.1 hm
    have h2 : b.head ∈ F b.order → b ≠ ⟨h, o + 1⟩ := by
      rintro hm rfl; exact hI.held_not_mem (b := ⟨h, o + 1⟩) (by simp) hm
    simp only [IsBlock, List.mem_cons]
    constructor
    · rintro (hm | rfl | rfl | hm)
      · exact .inl ⟨.inl hm, h2 hm⟩
      · exact .inr (.inl rfl)
      · exact .inr (.inr rfl)
      · exact .inl ⟨.inr (.inr hm), h1 hm⟩
    · rintro (⟨hm | hm | hm, hne⟩ | rfl | rfl)
      · exact .inl hm
      · exact absurd hm hne
      · exact .inr (.inr (.inr hm))
      · exact .inr (.inl rfl)
      · exact .inr (.inr (.inl rfl))
  refine hI.reheld_inv ha ?_ ?_ ?_ (hI.tiling.split hb hB) ?_ ?_
  · intro k a hm
    exact hpd a (hup ⟨a, k⟩ (.inl hm))
  · intro b hm
    rcases List.mem_cons.mp hm with rfl | hm
    · refine ⟨Nat.le_of_succ_le hle, ?_⟩
      rw [hpd h (by omega)]; exact hI.head_flags hb
    · rcases List.mem_cons.mp hm with rfl | hm
      · exact ⟨Nat.le_of_succ_le hle, hf⟩
      · have hm' : b ∈ (⟨h, o + 1⟩ : Block) :: held := by simp [hm]
        rw [hpd b.head (hup b (.inr hm'))]
        exact hI.held_head b hm'
  · intro b hm p hlo hhi
    rcases (hB b).mp hm with ⟨hm, hne⟩ | rfl | rfl
    · have hpu : p ≠ h + 2 ^ o := by
        rintro rfl
        refine hne (hI.tiling.unique b _ hm hb (h + 2 ^ o) ⟨by omega, hhi⟩ ?_)
        exact (Tiling.covers_halves _).mpr (.inr (Block.covers_head _))
      rw [hpd p hpu]; exact hI.tails b hm p hlo hhi
    · simp only at hlo hhi
      rw [hpd p (by omega)]
      exact hI.tails _ hb p hlo (by simp only [pow_succ]; omega)
    · simp only at hlo hhi
      rw [hpd p (by omega)]
      exact hI.tails _ hb p (by simp only; omega) (by simp only [pow_succ]; omega)
  · refine List.nodup_cons.mpr ⟨?_, List.nodup_cons.mpr ⟨?_, hnh.2⟩⟩
    · rw [List.mem_cons, Block.mk.injEq]
      rintro (⟨hc, _⟩ | hc)
      · omega
      · exact hlow o hc
    · exact fun hc => hup _ (.inr (List.mem_cons_of_mem _ hc)) rfl
  · intro b hm hc
    rcases List.mem_cons.mp hm with rfl | hm
    · exact hI.held_not_mem (b := ⟨h, o + 1⟩) (by simp) hc
    · rcases List.mem_cons.mp hm with rfl | hm
      · exact hup ⟨h + 2 ^ o, o⟩ (.inl hc) rfl
      · exact hI.held_not_mem (by simp [hm]) hc

/-- Two held halves become one block. -/
theorem join_inv (hI : BuddyInv L hs s F (⟨g, o⟩ :: ⟨g + 2 ^ o, o⟩ :: held))
    (hal : 2 ^ (o + 1) ∣ g) (ho : o < maxOrder) (ha : s'.allocator = s.allocator)
    (hpd : ∀ i, i ≠ g + 2 ^ o → s'.pd i = s.pd i)
    (hf : (s'.pd (g + 2 ^ o)).flags = PageType.tails.flag) :
    BuddyInv L hs s' F (⟨g, o + 1⟩ :: held) := by
  have hlo' : IsBlock F (⟨g, o⟩ :: ⟨g + 2 ^ o, o⟩ :: held) ⟨g, o⟩ := .inr (by simp)
  have hup' : IsBlock F (⟨g, o⟩ :: ⟨g + 2 ^ o, o⟩ :: held) ⟨g + 2 ^ o, o⟩ := .inr (by simp)
  have hpos := Nat.two_pow_pos o
  have hnd := List.nodup_cons.mp hI.held_nodup
  have hnd' := List.nodup_cons.mp hnd.2
  have hB : ∀ b, IsBlock F (⟨g, o + 1⟩ :: held) b ↔
      (IsBlock F (⟨g, o⟩ :: ⟨g + 2 ^ o, o⟩ :: held) b ∧ b ≠ ⟨g, o⟩ ∧ b ≠ ⟨g + 2 ^ o, o⟩) ∨
        b = ⟨g, o + 1⟩ := by
    intro b
    have h1 : b ∈ held → b ≠ ⟨g, o⟩ := by rintro hm rfl; exact hnd.1 (by simp [hm])
    have h2 : b ∈ held → b ≠ ⟨g + 2 ^ o, o⟩ := by rintro hm rfl; exact hnd'.1 hm
    have h3 : b.head ∈ F b.order → b ≠ ⟨g, o⟩ := by
      rintro hm rfl; exact hI.held_not_mem (b := ⟨g, o⟩) (by simp) hm
    have h4 : b.head ∈ F b.order → b ≠ ⟨g + 2 ^ o, o⟩ := by
      rintro hm rfl; exact hI.held_not_mem (b := ⟨g + 2 ^ o, o⟩) (by simp) hm
    simp only [IsBlock, List.mem_cons]
    constructor
    · rintro (hm | rfl | hm)
      · exact .inl ⟨.inl hm, h3 hm, h4 hm⟩
      · exact .inr rfl
      · exact .inl ⟨.inr (.inr (.inr hm)), h1 hm, h2 hm⟩
    · rintro (⟨hm | hm | hm | hm, hne1, hne2⟩ | rfl)
      · exact .inl hm
      · exact absurd hm hne1
      · exact absurd hm hne2
      · exact .inr (.inr hm)
      · exact .inr (.inl rfl)
  -- the head of the upper half heads no other block
  have hup : ∀ c, IsBlock F (⟨g, o⟩ :: ⟨g + 2 ^ o, o⟩ :: held) c → c ≠ ⟨g + 2 ^ o, o⟩ →
      c.head ≠ g + 2 ^ o := by
    intro c hc hne he
    exact hne (hI.tiling.head_unique hc hup' he)
  have hheld : ∀ b ∈ held, IsBlock F (⟨g, o⟩ :: ⟨g + 2 ^ o, o⟩ :: held) b ∧
      b ≠ ⟨g + 2 ^ o, o⟩ := by
    intro b hm
    exact ⟨.inr (by simp [hm]), by rintro rfl; exact hnd'.1 hm⟩
  refine hI.reheld_inv ha ?_ ?_ ?_ (hI.tiling.join hal hlo' hup' hB) ?_ ?_
  · intro k a hm
    refine hpd a (hup ⟨a, k⟩ (.inl hm) ?_)
    rintro he
    obtain ⟨rfl, rfl⟩ := Block.mk.inj he
    exact hI.held_not_mem (b := ⟨g + 2 ^ k, k⟩) (by simp) hm
  · intro b hm
    rcases List.mem_cons.mp hm with rfl | hm
    · refine ⟨by simp only; omega, ?_⟩
      rw [hpd g (by omega)]; exact hI.head_flags hlo'
    · obtain ⟨hb, hne⟩ := hheld b hm
      rw [hpd b.head (hup b hb hne)]
      exact ⟨hI.order_le hb, hI.head_flags hb⟩
  · intro b hm p hlo hhi
    rcases (hB b).mp hm with ⟨hm, hne1, hne2⟩ | rfl
    · have hpu : p ≠ g + 2 ^ o := by
        rintro rfl
        exact hne2 (hI.tiling.unique b _ hm hup' _ ⟨by omega, hhi⟩ (Block.covers_head _))
      rw [hpd p hpu]; exact hI.tails b hm p hlo hhi
    · simp only [pow_succ] at hlo hhi
      by_cases hpu : p = g + 2 ^ o
      · rw [hpu]; exact hf
      · rw [hpd p hpu]
        by_cases hlt : p < g + 2 ^ o
        · exact hI.tails _ hlo' p hlo hlt
        · exact hI.tails _ hup' p (by simp only; omega) (by simp only; omega)
  · refine List.nodup_cons.mpr ⟨fun hc => ?_, hnd'.2⟩
    have he := hI.tiling.head_unique (b := ⟨g, o + 1⟩) (.inr (by simp [hc])) hlo' rfl
    simp at he
  · intro b hm hc
    rcases List.mem_cons.mp hm with rfl | hm
    · exact hI.held_not_mem (b := ⟨g, o⟩) (by simp) hc
    · exact hI.held_not_mem (b := b) (by simp [hm]) hc

/-- The head of a held block changes type or order. -/
theorem retag_inv (hI : BuddyInv L hs s F (b :: held)) (ha : s'.allocator = s.allocator)
    (hpd : ∀ i, i ≠ b.head → s'.pd i = s.pd i)
    (hf : (s'.pd b.head).flags ≠ PageType.tails.flag) : BuddyInv L hs s' F (b :: held) := by
  have hb : IsBlock F (b :: held) b := .inr (by simp)
  have hnd := List.nodup_cons.mp hI.held_nodup
  refine hI.reheld_inv ha ?_ ?_ ?_ hI.tiling hI.held_nodup hI.held_not_free
  · intro k a hm
    refine hpd a ?_
    rintro rfl
    exact hI.held_not_mem (b := b) (by simp) hm
  · intro c hm
    refine ⟨(hI.held_head c hm).1, ?_⟩
    by_cases hc : c.head = b.head
    · rw [hc]; exact hf
    · rw [hpd _ hc]; exact (hI.held_head c hm).2
  · intro c hm p hlo hhi
    have hpb : p ≠ b.head := by
      rintro rfl
      exact hI.inside_not_head hm hlo hhi b hb rfl
    rw [hpd p hpb]; exact hI.tails c hm p hlo hhi

end BuddyInv
end Memory
end TorexOS
