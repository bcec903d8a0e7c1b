import TorexOS.BuddySafety

/-!
# TorexOS.PagesKma

`alloc_pages_kma` of `memory/mm.cpp`, page allocation by size and address.

* `Layout.physOf`: `(pd - pd_base) * smallest_page_size`, of a null descriptor too.
* `kma_right_iff`: in every state of every run the call does what its size asks for exactly when
  the size is a power of two times the page size and a block is there.
* `kma_small`, `kma_too_small`: below a page a call fails with an address that is not null; 6000 bytes
  get one page.
-/

namespace TorexOS
namespace Memory

open Util Util.ListBase Dyadic Transition

/-- `(pd - pd_base) * smallest_page_size` on 64 bits: the subtraction of the addresses, shifted
right by the size of a descriptor. -/
def Layout.physOf (L : Layout) (pd : Option Nat) : Nat :=
  ((((L.encode pd).toNat : Int) - L.pdBase) / 32 * smallestPageSize % 2 ^ 64).toNat

/-- `alloc_pages_kma`: the kernel address it returns. -/
def allocPagesKma (L : Layout) (s : BuddyState) (pt : PageType) (sz : Nat) :
    Option (Nat × BuddyState) :=
  match allocPages L s pt (calculOrder sz) with
  | none => none
  | some (pd, s) => some (toKer (L.physOf pd), s)

/-- The call returned the address of a new block of at least `sz` bytes, or null because there is no
free block of that size. -/
def KmaRight {L : Layout} (P : Pool L) (s : BuddyState) (sz : Nat) :
    Option (Nat × BuddyState) → Prop
  | none => False
  | some (address, t) =>
    (∃ b, b ∉ s.live ∧ t.live = b :: s.live ∧ sz ≤ smallestPageSize * 2 ^ b.order ∧
      address = toKerAddr b.head) ∨
    ((∀ b, RecordedFree P s.mem b → smallestPageSize * 2 ^ b.order < sz) ∧ address = 0)

/-- The first free list from `order` up that has a block has not lost the link behind it. -/
def HasBlock (L : Layout) (m : Mem) (order : Nat) : Prop :=
  ∃ k, order ≤ k ∧ k ≤ maxOrder ∧ (m.allocator.freelist k).empty = false ∧
    (∀ j, order ≤ j → j < k → (m.allocator.freelist j).empty = true) ∧ ¬ LostHead L m k

section Kma

variable {L : Layout} {P : Pool L} {s t : BuddyState} {F : Nat → List Nat}
variable {order sz : Nat} {pt : PageType}

theorem physOf_some {i : Nat} (hi : i < L.pages) : L.physOf (some i) = i * smallestPageSize := by
  have hfit := L.pd_fits
  have hle := L.pages_le
  have ht : (L.encode (some i)).toNat = L.pdBase + 32 * i := by
    rw [Layout.encode, BitVec.toNat_ofNat, Nat.mod_eq_of_lt (by omega)]
  rw [Layout.physOf, ht, smallestPageSize]
  omega

/-- No kernel address is null. -/
theorem toKer_pos (a : Nat) : 0 < toKer a := by
  have hle : kerBase ≤ a ||| kerBase := Nat.right_le_or
  exact Nat.lt_of_lt_of_le (by decide) hle

/-- Below a page the order wraps and is above the greatest one. -/
theorem calculOrder_small (h0 : 1 ≤ sz) (h : sz < 4096) : maxOrder < calculOrder sz := by
  have hs : ilog2 smallestPageSize = 12 := ilog2_eq (by decide) (by decide)
  have hlt : ilog2 sz < 12 := (Nat.log2_lt (by omega)).mpr h
  rw [calculOrder, hs, maxOrder]
  omega

/-- From a page up the order is the one of the greatest block that is not larger. -/
theorem calculOrder_spec (h : 4096 ≤ sz) (h' : sz ≤ 2 * 1024 * 1024) :
    calculOrder sz ≤ maxOrder ∧ smallestPageSize * 2 ^ calculOrder sz ≤ sz ∧
      sz < smallestPageSize * 2 ^ (calculOrder sz + 1) := by
  have hge : 12 ≤ ilog2 sz := (Nat.le_log2 (by omega)).mpr h
  have hlt : ilog2 sz < 22 := (Nat.log2_lt (by omega)).mpr (by omega)
  have hlo : 2 ^ ilog2 sz ≤ sz := Nat.log2_self_le (by omega)
  have hhi : sz < 2 ^ (ilog2 sz + 1) := Nat.lt_log2_self
  have hpage : ∀ k, 12 ≤ k → smallestPageSize * 2 ^ (k - 12) = 2 ^ k := by
    intro k hk
    rw [show smallestPageSize = 2 ^ 12 from rfl, ← Nat.pow_add]
    congr 1
    omega
  rw [calculOrder_of_ge h (by omega), hpage _ hge,
    show ilog2 sz - 12 + 1 = ilog2 sz + 1 - 12 by omega, hpage _ (by omega), maxOrder]
  exact ⟨by omega, hlo, hhi⟩

theorem BuddyOk.hasBlock_iff (h : BuddyOk P s F) :
    HasBlock L s.mem order ↔ ∃ k, FirstFree F order k ∧ ¬ LostHead L s.mem k := by
  have hemp : ∀ k, (s.mem.allocator.freelist k).empty = true ↔ F k = [] :=
    fun k => (h.inv.threaded k).empty_iff
  have hsome : ∀ k, (s.mem.allocator.freelist k).empty = false ↔ F k ≠ [] := by
    intro k
    rw [← Bool.not_eq_true, ne_eq, hemp]
  constructor
  · intro ⟨k, hle, hmax, hk, hbelow, hlost⟩
    exact ⟨k, ⟨hle, hmax, (hsome k).mp hk, fun j hj hjk => (hemp j).mp (hbelow j hj hjk)⟩, hlost⟩
  · intro ⟨k, hk, hlost⟩
    exact ⟨k, hk.le, hk.le_max, (hsome k).mpr hk.some,
      fun j hj hjk => (hemp j).mpr (hk.none j hj hjk), hlost⟩

/-- A block handed out, its size and its address. -/
theorem kma_taken {F' : Nat → List Nat} {a : Nat}
    (ht : Taken P s F (calculOrder sz) pt a t F') :
    KmaRight P s sz (some (toKer (L.physOf (some a)), t)) ↔
      sz ≤ smallestPageSize * 2 ^ calculOrder sz := by
  have hmem : (⟨a, calculOrder sz⟩ : Block) ∈ t.live := by rw [ht.live]; exact List.mem_cons_self ..
  have hlt : a < L.pages := ht.ok.inv.head_lt (.inr hmem)
  have hnodup := ht.ok.inv.held_nodup
  rw [ht.live, List.nodup_cons] at hnodup
  constructor
  · intro hr
    cases hr with
    | inl hb =>
      obtain ⟨b, _, hlive, hsz, _⟩ := hb
      rw [ht.live] at hlive
      cases hlive
      exact hsz
    | inr hnull => exact absurd hnull.2 (by have := toKer_pos (L.physOf (some a)); omega)
  · intro hsz
    exact .inl ⟨⟨a, calculOrder sz⟩, hnodup.1, ht.live, hsz, by rw [physOf_some hlt, toKerAddr]⟩

/-- A call that fails returns the address that a null descriptor has. -/
theorem not_right_of_null : ¬ KmaRight P s sz (some (toKer (L.physOf none), s)) := by
  intro hr
  cases hr with
  | inl hb =>
    obtain ⟨b, _, hlive, _⟩ := hb
    exact absurd (congrArg List.length hlive) (by simp)
  | inr hnull => exact absurd hnull.2 (by have := toKer_pos (L.physOf none); omega)

/-- What the call does at any size. -/
theorem BuddyOk.kma_iff (h : BuddyOk P s F) (hf : pt ≠ .free) (ht : pt ≠ .tails) :
    KmaRight P s sz (allocPagesKma L s pt sz) ↔
      HasBlock L s.mem (calculOrder sz) ∧ sz ≤ smallestPageSize * 2 ^ calculOrder sz := by
  have hspec := h.allocPages_spec (calculOrder sz) hf ht
  rw [allocPagesKma, h.hasBlock_iff]
  cases hp : allocPages L s pt (calculOrder sz) with
  | none =>
    rw [hp] at hspec
    obtain ⟨k, hk, hlost⟩ := hspec
    refine ⟨fun hr => hr.elim, fun hr => ?_⟩
    obtain ⟨⟨j, hj, hnl⟩, _⟩ := hr
    exact hnl (hj.unique hk ▸ hlost)
  | some r =>
    obtain ⟨pd, t⟩ := r
    cases pd with
    | none =>
      rw [hp] at hspec
      obtain ⟨rfl, hempty⟩ := hspec
      refine ⟨fun hr => (not_right_of_null hr).elim, fun hr => ?_⟩
      obtain ⟨⟨j, hj, _⟩, _⟩ := hr
      exact absurd (hempty j hj.le) hj.some
    | some a =>
      rw [hp] at hspec
      obtain ⟨hk, F', hT⟩ := hspec
      exact (kma_taken hT).trans ⟨fun hsz => ⟨hk, hsz⟩, fun hr => hr.2⟩

/-- Page allocation by size in every state of every run: a large enough block, or null when
there is none, exactly when the size is that of a block and the first free list from its order up
that has a block has its links. -/
theorem kma_right_iff (h : Reach (buddySystem L P) (fun _ _ => True) s) (h1 : 1 ≤ sz)
    (h2 : sz ≤ 2 * 1024 * 1024) (hf : pt ≠ .free) (ht : pt ≠ .tails) :
    KmaRight P s sz (allocPagesKma L s pt sz) ↔
      ∃ k, k ≤ maxOrder ∧ sz = smallestPageSize * 2 ^ k ∧ HasBlock L s.mem k := by
  obtain ⟨F, hok⟩ := reach_ok h
  rw [hok.kma_iff hf ht]
  constructor
  · rintro ⟨⟨j, hle, hmax, hj⟩, hsz⟩
    have hpage : 4096 ≤ sz := by
      by_contra hc
      have := calculOrder_small h1 (by omega)
      omega
    obtain ⟨hmax', hlo, _⟩ := calculOrder_spec hpage h2
    exact ⟨_, hmax', by omega, j, hle, hmax, hj⟩
  · rintro ⟨k, hk, hsz, hb⟩
    have hpos := Nat.two_pow_pos k
    have hpage : 4096 ≤ sz := by rw [hsz, smallestPageSize]; omega
    obtain ⟨hmax', hlo, hhi⟩ := calculOrder_spec hpage h2
    have hord : calculOrder sz = k := by
      have h3 : 2 ^ calculOrder sz ≤ 2 ^ k :=
        Nat.le_of_mul_le_mul_left (by omega) (by decide : 0 < smallestPageSize)
      have h4 : 2 ^ k < 2 ^ (calculOrder sz + 1) :=
        Nat.lt_of_mul_lt_mul_left (a := smallestPageSize) (by omega)
      have h5 := (Nat.pow_le_pow_iff_right (by omega)).mp h3
      have h6 := (Nat.pow_lt_pow_iff_right (by omega)).mp h4
      omega
    rw [hord]
    exact ⟨hb, by omega⟩

/-- A machine just started has a block for every order. -/
theorem onePool_hasBlock (ho : order ≤ 9) : HasBlock smallLayout (filled onePool).mem order := by
  obtain ⟨F, hok, hl⟩ := init_ok (filled_init onePool)
  have hbelow : ∀ j, j < 9 → ((filled onePool).mem.allocator.freelist j).empty = true := by
    simp only [filled, onePool, insertBlocks, insertBlock, markPages_eq]
    decide +kernel
  refine ⟨9, ho, by decide, ?_, fun j _ hj => hbelow j hj, not_lostHead hl 9⟩
  simp only [filled, onePool, insertBlocks, insertBlock, markPages_eq]
  decide +kernel

/-- 8 KiB on a machine just started. -/
theorem kma_right_two : KmaRight onePool (filled onePool) 8192
    (allocPagesKma smallLayout (filled onePool) .kernel 8192) := by
  exact (kma_right_iff (.init (filled_init onePool)) (by decide) (by decide) (by decide)
    (by decide)).mpr ⟨1, by decide, by decide, onePool_hasBlock (by decide)⟩

/-- A request below a page always fails, with the address of the null descriptor. -/
theorem kma_small (h1 : 1 ≤ sz) (h2 : sz < 4096) :
    allocPagesKma L s pt sz = some (toKer (L.physOf none), s) ∧ toKer (L.physOf none) ≠ 0 := by
  refine ⟨?_, Nat.ne_of_gt (toKer_pos _)⟩
  rw [allocPagesKma, allocPages, allocateWithOrder, if_pos (calculOrder_small h1 h2)]

/-- A request for 6000 bytes gets one page, though 2 MiB are free. -/
theorem kma_too_small : ∃ s, Reach (buddySystem smallLayout onePool) (fun _ _ => True) s ∧
    RecordedFree onePool s.mem ⟨512, 9⟩ ∧
    ∃ t, allocPagesKma smallLayout s .kernel 6000 = some (toKerAddr 512, t) ∧
      t.live = [⟨512, 0⟩] ∧ ¬ KmaRight onePool s 6000 (some (toKerAddr 512, t)) := by
  have hfree : ((filled onePool).mem.pd 512).flags = PageType.free.flag ∧
      ((filled onePool).mem.pd 512).orders = 9 := by
    simp only [filled, onePool, insertBlocks, insertBlock, markPages_eq]
    decide +kernel
  have he : (allocPagesKma smallLayout (filled onePool) .kernel 6000).map
      (fun r => (r.1, r.2.live)) = some (toKerAddr 512, [⟨512, 0⟩]) := by
    simp only [filled, onePool, insertBlocks, insertBlock, markPages_eq]
    decide +kernel
  obtain ⟨⟨address, t⟩, ht, hr⟩ := Option.map_eq_some_iff.mp he
  simp only [Prod.mk.injEq] at hr
  obtain ⟨rfl, hlive⟩ := hr
  refine ⟨filled onePool, .init (filled_init onePool), ⟨by decide, hfree⟩, t, ht, hlive, fun h => ?_⟩
  cases h with
  | inl hb =>
    obtain ⟨b, _, hb, hsz, _⟩ := hb
    rw [hlive] at hb
    cases hb
    exact absurd hsz (by decide)
  | inr hnull => exact absurd hnull.2 (by decide)

end Kma
end Memory
end TorexOS
