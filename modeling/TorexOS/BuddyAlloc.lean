import TorexOS.BuddyInv

/-!
# TorexOS.BuddyAlloc

`allocateWithOrder` under the invariant.

`allocateWithOrder_spec`: the call takes the first block of the first free list that is not empty,
from the requested order up, and gives back the upper halves it splits off; it fails, and changes
nothing, when these lists are all empty; it dereferences null when the next link of that first
block was lost.
-/

namespace TorexOS
namespace Memory

open Util Util.ListBase Dyadic

/-- No two buddies below the greatest order are both free. -/
def Coalesced (F : Nat → List Nat) : Prop :=
  ∀ o, o < maxOrder → ∀ h ∈ F o, buddyof h o ∉ F o

/-- `freelist[k]` is the first list from `order` up that has a block. -/
structure FirstFree (F : Nat → List Nat) (order k : Nat) : Prop where
  le : order ≤ k
  le_max : k ≤ maxOrder
  some : F k ≠ []
  none : ∀ j, order ≤ j → j < k → F j = []

theorem FirstFree.unique {F : Nat → List Nat} {order j k : Nat} (hj : FirstFree F order j)
    (hk : FirstFree F order k) : j = k := by
  rcases Nat.lt_trichotomy j k with h | h | h
  · exact absurd (hk.none j hj.le h) hj.some
  · exact h
  · exact absurd (hj.none k hk.le h) hk.some

/-- The next link of the list's first node is null although the list goes on. -/
def LostHead (L : Layout) (s : Mem) (k : Nat) : Prop :=
  ∃ a, (s.allocator.freelist k).head = some a ∧ (s.allocator.freelist k).tail ≠ some a ∧
    (freeBlock L).getNext s.pd a = none

/-- What a successful allocation of block `h` leaves. -/
structure Allocated (L : Layout) (hs : List Nat) (s : Mem) (F : Nat → List Nat)
    (held : List Block) (order : Nat) (pt : PageType) (h : Nat) (s' : Mem)
    (F' : Nat → List Nat) : Prop where
  inv : BuddyInv L hs s' F' (⟨h, order⟩ :: held)
  flags : (s'.pd h).flags = pt.flag
  orders : (s'.pd h).orders = order
  prev : (s'.pd h).prev = 0#64
  frame : ∀ b ∈ held, s'.pd b.head = s.pd b.head
  coalesced : Coalesced F → Coalesced F'
  linked : AllLinked L s F → AllLinked L s' F'

section Tag

variable (s : Mem) (h j order : Nat) (pt : PageType)

theorem tag_pd_ne (hj : j ≠ h) : ((s.setFlags h pt).setOrders h order).pd j = s.pd j := by
  rw [Mem.setOrders_pd, if_neg hj, Mem.setFlags_pd, if_neg hj]

theorem tag_flags : (((s.setFlags h pt).setOrders h order).pd h).flags = pt.flag := by
  rw [Mem.flags_setOrders, Mem.flags_setFlags, if_pos rfl]

theorem tag_orders (ho : order ≤ maxOrder) :
    (((s.setFlags h pt).setOrders h order).pd h).orders = order := by
  rw [Mem.orders_setOrders _ _ _ _ (by simp only [maxOrder] at ho; omega), if_pos rfl]

theorem tag_prev : (((s.setFlags h pt).setOrders h order).pd h).prev = (s.pd h).prev := by
  rw [Mem.setOrders_pd, if_pos rfl, Mem.setFlags_pd, if_pos rfl]; simp

end Tag

theorem PageType.flag_inj {t u : PageType} : t.flag = u.flag ↔ t = u := by
  cases t <;> cases u <;> decide

namespace BuddyInv

variable {L : Layout} {hs : List Nat} {s s' : Mem} {F : Nat → List Nat} {held : List Block}
variable {h k o order : Nat} {pt : PageType} {xs : List Nat} {r : PdTable × ListBase Nat}

/-- The block taken off a list gets its type and order. -/
theorem tagged (hI : BuddyInv L hs s F (⟨h, o⟩ :: held)) (hpt : pt ≠ .tails) :
    BuddyInv L hs ((s.setFlags h pt).setOrders h o) F (⟨h, o⟩ :: held) := by
  refine hI.retag_inv rfl (fun i hi => tag_pd_ne s h i o pt hi) ?_
  simp only [tag_flags, ne_eq, PageType.flag_inj]
  exact hpt

theorem tagged_linked (hI : BuddyInv L hs s F (⟨h, o⟩ :: held)) (hl : AllLinked L s F) :
    AllLinked L ((s.setFlags h pt).setOrders h o) F := by
  refine allLinked_of_pd hl rfl fun k a ha => tag_pd_ne s h a o pt ?_
  rintro rfl
  exact hI.held_not_mem (b := ⟨a, o⟩) (by simp) ha

theorem tagged_frame (hI : BuddyInv L hs s F (⟨h, o⟩ :: held)) :
    ∀ b ∈ held, ((s.setFlags h pt).setOrders h o).pd b.head = s.pd b.head := by
  intro b hb
  exact tag_pd_ne s h b.head o pt (hI.head_ne hb)

theorem held_frame (hI : BuddyInv L hs s F held)
    (hw : Writes (freeBlock L) (· ∈ F k) s.pd r.1) :
    ∀ b ∈ held, r.1 b.head = s.pd b.head :=
  fun _ hb => (writes_pd hw).1 _ (hI.held_not_mem hb)

theorem held_frame_cons (hI : BuddyInv L hs s F (⟨h, o⟩ :: held))
    (hw : Writes (freeBlock L) (· ∈ h :: F k) s.pd r.1) :
    ∀ b ∈ held, r.1 b.head = s.pd b.head := by
  intro b hb
  refine (writes_pd hw).1 _ ?_
  rw [List.mem_cons, not_or]
  exact ⟨hI.head_ne hb, hI.held_not_mem (by simp [hb])⟩

/-! ## splitBlock -/

theorem splitBlock_spec (hI : BuddyInv L hs s F (⟨h, o + 1⟩ :: held))
    (ho : (s.pd h).orders = o + 1) :
    ∃ s', splitBlock L s h = some s' ∧
      BuddyInv L hs s' (Function.update F o (F o ++ [h + 2 ^ o])) (⟨h, o⟩ :: held) ∧
      (∀ b ∈ ⟨h, o⟩ :: held, s'.pd b.head = s.pd b.head) ∧
      (AllLinked L s F → AllLinked L s' (Function.update F o (F o ++ [h + 2 ^ o]))) := by
  have hle : o + 1 ≤ maxOrder := (hI.held_head ⟨h, o + 1⟩ (by simp)).1
  have hal : 2 ^ (o + 1) ∣ h := hI.tiling.aligned ⟨h, o + 1⟩ (.inr (by simp))
  have hbud : buddyof h o = h + 2 ^ o := xor_lower hal
  have hpos := Nat.two_pow_pos o
  let s1 := (s.setOrders (h + 2 ^ o) o).setFlags (h + 2 ^ o) .free
  have hpd1 : ∀ i, i ≠ h + 2 ^ o → s1.pd i = s.pd i := by
    intro i hi
    rw [Mem.setFlags_pd, if_neg hi, Mem.setOrders_pd, if_neg hi]
  have hf1 : (s1.pd (h + 2 ^ o)).flags = PageType.free.flag := by
    rw [Mem.flags_setFlags, if_pos rfl]
  have ho1 : (s1.pd (h + 2 ^ o)).orders = o := by
    rw [Mem.orders_setFlags, Mem.orders_setOrders _ _ _ _ (by simp only [maxOrder] at hle; omega),
      if_pos rfl]
  have hI1 : BuddyInv L hs s1 F (⟨h, o⟩ :: ⟨h + 2 ^ o, o⟩ :: held) :=
    hI.split_inv rfl hpd1 (by rw [hf1]; decide)
  have hI2 := hI1.perm (List.Perm.swap ⟨h, o⟩ ⟨h + 2 ^ o, o⟩ held)
  have hnm : h + 2 ^ o ∉ F o := hI2.held_not_mem (b := ⟨h + 2 ^ o, o⟩) (by simp)
  have hst : (freeBlock L).Storable (h + 2 ^ o) :=
    hI2.head_lt (b := ⟨h + 2 ^ o, o⟩) (.inr (by simp))
  obtain ⟨m', l', he, ht, hl, hw⟩ := pushBackNode_threaded (hI2.threaded o) hnm hst
  have hg := hI2.give_inv (r := (m', l'))
    (List.perm_append_singleton (h + 2 ^ o) (F o)) hf1 ho1 ht hw
  refine ⟨_, ?_, hg, ?_, ?_⟩
  · simp only [splitBlock, ho, Nat.add_sub_cancel, hbud]
    rw [show ListBase.pushBackNode (freeBlock L) s1.pd (s1.allocator.freelist o) (h + 2 ^ o) =
      some (m', l') from he]
  · intro b hb
    rw [Mem.addCount_pd, Mem.setFreelist_pd]
    rw [hI2.held_frame_cons hw b hb, hpd1]
    rcases List.mem_cons.mp hb with rfl | hb
    · simp only; omega
    · exact hI.inside_not_head (b := ⟨h, o + 1⟩) (.inr (by simp)) (by simp)
        (by simp only [pow_succ]; omega) b (.inr (by simp [hb]))
  · intro hall
    have hall1 : AllLinked L s1 F := allLinked_of_pd hall rfl fun k a ha => hpd1 a (by
      rintro rfl; exact hI2.held_not_mem (b := ⟨h + 2 ^ o, o⟩) (by simp) ha)
    exact linked_update (r := (m', l')) hall1 (hl (hall1 o)) hw hI2.give_disjoint

/-- The upper half enters its list while its buddy, the lower half, is held. -/
theorem split_coalesced (hI : BuddyInv L hs s F (⟨h, o + 1⟩ :: held)) (hc : Coalesced F) :
    Coalesced (Function.update F o (F o ++ [h + 2 ^ o])) := by
  have hal : 2 ^ (o + 1) ∣ h := hI.tiling.aligned ⟨h, o + 1⟩ (.inr (by simp))
  have hnm : h ∉ F o := hI.held_not_mem (b := ⟨h, o + 1⟩) (by simp)
  have hpos := Nat.two_pow_pos o
  intro k hk a ha
  by_cases hko : k = o
  · subst hko
    rw [Function.update_self] at ha ⊢
    rw [List.mem_append, List.mem_singleton] at ha ⊢
    have hinv : ∀ x, buddyof (buddyof x k) k = x := fun x => by
      rw [buddyof, buddyof, Nat.xor_assoc, Nat.xor_self, Nat.xor_zero]
    have hup : buddyof (h + 2 ^ k) k = h := xor_upper hal
    rcases ha with ha | rfl
    · rintro (hb | hb)
      · exact hc k hk a ha hb
      · rw [← hinv a, hb, hup] at ha; exact hnm ha
    · rw [hup]
      rintro (hb | hb)
      · exact hnm hb
      · omega
  · rw [Function.update_of_ne hko] at ha ⊢
    exact hc k hk a ha

/-! ## allocateWithOrder -/

/-- The branch that takes the first block of `freelist[order]`. -/
theorem pop_spec (hI : BuddyInv L hs s F held) (ho : order ≤ maxOrder) (hne : F order ≠ [])
    (hpt : pt ≠ .tails) :
    ∃ a, (s.allocator.freelist order).head = some a ∧
      match popFrontNode (freeBlock L) s.pd (s.allocator.freelist order) with
      | none => LostHead L s order
      | some r => ¬ LostHead L s order ∧
        Allocated L hs s F held order pt a
          ((((s.setFreelist order r).addCount order (-1)).setFlags a pt).setOrders a order)
          (Function.update F order (F order).tail) := by
  obtain ⟨a, rest, hF⟩ := List.exists_cons_of_ne_nil hne
  have hth := hI.threaded order
  have hhead : (s.allocator.freelist order).head = some a := by rw [hth.head, hF]; rfl
  refine ⟨a, hhead, ?_⟩
  cases hp : popFrontNode (freeBlock L) s.pd (s.allocator.freelist order) with
  | none =>
    simp only
    rw [hF] at hth
    rcases rest with _ | ⟨b, rest⟩
    · rw [popFrontNode_short hth (by simp)] at hp; cases hp
    · rw [popFrontNode_cons_cons hth] at hp
      split at hp
      · rename_i hn
        refine ⟨a, hhead, ?_, hn⟩
        rw [hth.tail, List.getLast?_cons_cons]
        exact fun hc => (List.nodup_cons.mp hth.nodup).1 (List.mem_of_mem_getLast? hc)
      · cases hp
  | some r =>
    simp only
    obtain ⟨ht, hw⟩ := popFrontNode_threaded hth hp
    have hperm : (F order).Perm (a :: (F order).tail) := by rw [hF, List.tail_cons]
    have hI1 := hI.take_inv hperm ht hw
    refine ⟨?_, hI1.tagged hpt, tag_flags _ _ _ _, tag_orders _ _ _ _ ho, ?_, ?_, ?_, ?_⟩
    · rintro ⟨c, hc, hct, hcn⟩
      obtain rfl : a = c := by rw [hhead] at hc; exact Option.some.inj hc
      rw [hF] at hth
      rcases rest with _ | ⟨b, rest⟩
      · exact hct hth.tail
      · rw [popFrontNode_cons_cons hth, if_pos hcn] at hp; cases hp
    · rw [tag_prev]
      exact (L.decode_eq_none).mp (popFrontNode_prev hth hp a (by rw [hF]; rfl))
    · intro b hb
      rw [hI1.tagged_frame b hb, Mem.addCount_pd, Mem.setFreelist_pd, hI.held_frame hw b hb]
    · intro hc k hk x hx
      by_cases hko : k = order
      · subst hko
        rw [Function.update_self] at hx ⊢
        exact fun hb => hc k hk x (List.mem_of_mem_tail hx) (List.mem_of_mem_tail hb)
      · rw [Function.update_of_ne hko] at hx ⊢
        exact hc k hk x hx
    · intro hl
      obtain ⟨m', l', he, hl'⟩ := popFrontNode_linked (hl order)
      rw [hp] at he; cases he
      exact hI1.tagged_linked (linked_update hl hl' hw hI.take_disjoint)

theorem allocateWithOrder_spec (hI : BuddyInv L hs s F held) (order : Nat) (hpt : pt ≠ .tails) :
    match allocateWithOrder L s order pt with
    | none => ∃ k, FirstFree F order k ∧ LostHead L s k
    | some (none, s') => s' = s ∧ ∀ k, order ≤ k → F k = []
    | some (some h, s') => (∃ k, FirstFree F order k ∧ ¬ LostHead L s k) ∧
        ∃ F', Allocated L hs s F held order pt h s' F' := by
  induction hn : maxOrder + 1 - order generalizing order pt with
  | zero =>
    have hgt : maxOrder < order := by omega
    rw [allocateWithOrder, if_pos hgt]
    exact ⟨rfl, fun k hk => hI.above k (by omega)⟩
  | succ n ih =>
    have hle : order ≤ maxOrder := by omega
    rw [allocateWithOrder, if_neg (by omega)]
    by_cases hF : F order = []
    · rw [if_pos ((hI.threaded order).empty_iff.mpr hF)]
      have ff : ∀ k, FirstFree F (order + 1) k → FirstFree F order k := by
        intro k hk
        refine ⟨by have := hk.le; omega, hk.le_max, hk.some, fun j hj hjk => ?_⟩
        by_cases hjo : j = order
        · rw [hjo]; exact hF
        · exact hk.none j (by omega) hjk
      have hrec := ih (order + 1) (show PageType.free ≠ .tails by decide) (by omega)
      match he : allocateWithOrder L s (order + 1) .free with
      | none =>
        rw [he] at hrec
        obtain ⟨k, hk, hlost⟩ := hrec
        exact ⟨k, ff k hk, hlost⟩
      | some (none, s1) =>
        rw [he] at hrec
        obtain ⟨hs1, hempty⟩ := hrec
        refine ⟨hs1, fun k hk => ?_⟩
        by_cases hko : k = order
        · rw [hko]; exact hF
        · exact hempty k (by omega)
      | some (some h, s1) =>
        rw [he] at hrec
        obtain ⟨⟨k, hk, hlost⟩, F1, hA⟩ := hrec
        obtain ⟨s2, hs2, hI2, hfr, hl2⟩ := hA.inv.splitBlock_spec hA.orders
        simp only [hs2]
        refine ⟨⟨k, ff k hk, hlost⟩, _, hI2.tagged hpt, tag_flags _ _ _ _,
          tag_orders _ _ _ _ hle, ?_, ?_, ?_, ?_⟩
        · rw [tag_prev, hfr ⟨h, order⟩ (by simp)]; exact hA.prev
        · intro b hb
          rw [hI2.tagged_frame b hb, hfr b (by simp [hb]), hA.frame b hb]
        · exact fun hc => hA.inv.split_coalesced (hA.coalesced hc)
        · exact fun hl => hI2.tagged_linked (hl2 (hA.linked hl))
    · have hemp : (s.allocator.freelist order).empty = false := by
        rw [← Bool.not_eq_true, (hI.threaded order).empty_iff]; exact hF
      rw [hemp, if_neg (by simp)]
      have hff : FirstFree F order order := ⟨le_refl _, hle, hF, fun j h1 h2 => by omega⟩
      obtain ⟨a, ha, hspec⟩ := hI.pop_spec hle hF hpt
      simp only [ha]
      cases hp : popFrontNode (freeBlock L) s.pd (s.allocator.freelist order) with
      | none =>
        rw [hp] at hspec
        exact ⟨order, hff, hspec⟩
      | some r =>
        rw [hp] at hspec
        exact ⟨⟨order, hff, hspec.1⟩, _, hspec.2⟩

end BuddyInv
end Memory
end TorexOS
