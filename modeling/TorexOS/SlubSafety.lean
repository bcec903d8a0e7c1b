import TorexOS.BuddySafety
import TorexOS.SlubRun

/-!
# TorexOS.SlubSafety

What every run of the slab allocators guarantees.

* `slab_objects_safe`: `alloc` returns an aligned cell of a slab the allocator owns, other than all
  live objects, and no slab is given back while one of its objects is live.
* `fresh_slab_empty`: the descriptor of a block just allocated has a null `prev`, so a slab starts
  with nothing in use and its free chain at offset zero, and `alloc` returns its first cell.
-/

namespace TorexOS
namespace Memory

open Util Util.ListBase Dyadic Packed FreeChain Transition

/-- A page block of `slubs[k]`: live, handed to no client of `alloc_pages`, and of this owner. -/
structure OwnsSlab (L : Layout) (s : KernelState) (k b : Nat) : Prop where
  live : ⟨b, k⟩ ∈ s.kernel.pages.live
  unheld : ⟨b, k⟩ ∉ s.held
  flags : (s.kernel.pd b).flags = PageType.slab.flag
  owner : (s.kernel.pd b).owner = L.ownerOf k

section Safety

variable {L : Layout} {P : Pool L} {s t : KernelState} {F : Nat → List Nat} {V : Nat → View}
variable {F' : Nat → List Nat} {V' : Nat → View} {k b c p : Nat}

theorem KernelOk.ownsSlab_iff (h : KernelOk P s F V) (hk : k < 7) :
    OwnsSlab L s k b ↔ b ∈ (V k).owned := by
  constructor
  · intro ho
    rcases h.live _ ho.live with hh | ⟨_, hv⟩
    · exact absurd hh ho.unheld
    · exact hv
  · intro hb
    have hs := (h.slub k hk).cells.slab b hb
    exact ⟨h.owned_live hk hb, fun hh => (h.held _ hh).2 hk hb, hs.flags, hs.owner⟩

/-! ## Objects -/

theorem cellSize_dvd_page (hk : k < 7) : cellSize k ∣ 4096 := by
  have h : 2 ^ k ∣ 2 ^ 7 := pow_dvd_pow 2 (by omega)
  have := Nat.mul_dvd_mul_left 32 h
  rwa [show 32 * 2 ^ 7 = 4096 from rfl] at this

theorem cellSize_dvd_toKerAddr (hk : k < 7) (hb : b ≤ 2 ^ 27) : cellSize k ∣ toKerAddr b := by
  have h1 := cellSize_dvd_page hk
  rw [toKerAddr_eq hb]
  refine Nat.dvd_add (h1.trans ?_) (h1.trans (Nat.dvd_mul_left _ _))
  decide

theorem cellSize_dvd_cellAddr (hk : k < 7) (hb : b ≤ 2 ^ 27) : cellSize k ∣ cellAddr k b c :=
  Nat.dvd_add (cellSize_dvd_toKerAddr hk hb) (Nat.dvd_mul_left _ _)

/-- Live objects of two allocators are in different slabs. -/
theorem KernelOk.object_ne {j : Nat} (h : KernelOk P s F V) (hk : k < 7) (hj : j < 7)
    (hjk : j ≠ k) (hb : b ∈ (V k).owned) (hc : c < 128) : cellAddr k b c ∉ s.objs j := by
  intro hp
  obtain ⟨d, hd, e, he, heq⟩ := (h.slub j hj).cells.located _ hp
  exact h.pages.cellAddr_ne (h.owned_live hk hb) (h.owned_live hj hd)
    (fun hc => hjk (congrArg Block.order hc)) hc he heq.symm

/-! ## The first object -/

/-- The lists `makeBuddy` fills, before any call. -/
def startKernel {L : Layout} (P : Pool L) : KernelState :=
  ⟨⟨filled P, fun _ => 0, makePool⟩, [], fun _ => []⟩

theorem startKernel_init (P : Pool L) : (kernelSystem L P).init (startKernel P) :=
  ⟨filled_init P, rfl, rfl, fun _ => rfl⟩

/-- With all next links in place `alloc` returns. -/
theorem KernelOk.alloc_runs (h : KernelOk P s F V) (hl : AllLinked L s.kernel.pages.mem F)
    (hk : k < 7) : ∃ r, alloc L s.kernel k = .ok r := by
  have hspec := alloc_spec h.pages (h.slub k hk) hk
  match he : alloc L s.kernel k with
  | .error e =>
    rw [he] at hspec
    obtain ⟨_, _, j, _, hlost⟩ := hspec
    exact absurd hlost (not_lostHead hl j)
  | .ok r => exact ⟨r, rfl⟩

/-- The first call of `alloc`: a block of 2 MiB is free, so there is a cell. -/
theorem start_handedOut (hP : P.heads ≠ []) (hk : k < 7) : ∃ F p K F' v',
    KernelOk P (startKernel P) F noSlabs ∧ AllLinked L (startKernel P).kernel.pages.mem F ∧
      SlabsLinked L (startKernel P) noSlabs ∧
      alloc L (startKernel P).kernel k = .ok (some p, K) ∧
      HandedOut P k (startKernel P).kernel F (noSlabs k) [] p K F' v' := by
  have hi := startKernel_init P
  obtain ⟨F, hok, hl, hsl, _⟩ := kernel_init_ok hi
  obtain ⟨⟨r, K⟩, he⟩ := hok.alloc_runs hl hk
  have hspec := alloc_spec hok.pages (hok.slub k hk) hk
  rw [he] at hspec
  cases r with
  | none =>
    obtain ⟨_, hempty, _⟩ := hspec
    have hperm := hok.pages.top_perm hi.1.1
    rw [hempty maxOrder (by simp only [maxOrder]; omega)] at hperm
    exact absurd hperm.nil_eq.symm hP
  | some p =>
    obtain ⟨F', v', hK⟩ := hspec
    exact ⟨F, p, K, F', v', hok, hl, hsl, he, hK⟩

theorem one_object_out (hP : P.heads ≠ []) (hk : k < 7) : ∃ t p F V,
    Reach (kernelSystem L P) (fun s i => i = .alloc k ∧ FrontHasCell s i) t ∧ t.objs k = [p] ∧
      KernelOk P t F V ∧ AllLinked L t.kernel.pages.mem F ∧ SlabsLinked L t V := by
  obtain ⟨F, p, K, F', v', hok, hl, hsl, he, hK⟩ := start_handedOut hP hk
  obtain ⟨hok', hsl'⟩ := hok.of_kept hk hK.toKept (hK.used (hok.used k hk))
  have hfront : FrontHasCell (startKernel P) (.alloc k) := fun _ hb => nomatch hb
  refine ⟨_, p, F', _, (Reach.init (startKernel_init P)).step (i := .alloc k) hk ⟨rfl, hfront⟩ ?_, ?_,
    hok', hK.linked hl, hsl' hsl⟩
  · simp only [kernelSystem, KernelOp.exec, he]; rfl
  · simp only [Function.update_self]

/-! ## Safety of the objects -/

/-- Every live object lies in a slab of its allocator. -/
def ObjectsHoused (L : Layout) (s : KernelState) (k : Nat) : Prop :=
  ∀ p ∈ s.objs k, ∃ b, OwnsSlab L s k b ∧ InPages ⟨b, k⟩ p

theorem KernelOk.housed (h : KernelOk P s F V) (hk : k < 7) : ObjectsHoused L s k := by
  intro p hp
  obtain ⟨b, hb, _, c, hc, rfl⟩ := h.object hk hp
  exact ⟨b, (h.ownsSlab_iff hk).mpr hb, cellAddr_inPages hc⟩

/-- A slab that leaves its allocator has no live object left. -/
theorem KernelOk.no_object_left (h : KernelOk P s F V) (ht : KernelOk P t F' V') (hk : k < 7)
    (hb : OwnsSlab L s k b) (hnb : ¬ OwnsSlab L t k b) : ∀ p ∈ t.objs k, ¬ InPages ⟨b, k⟩ p := by
  intro p hp hin
  obtain ⟨d, hd, hsd, _⟩ := ht.object hk hp
  rw [← hsd, h.slabOf_eq hk ((h.ownsSlab_iff hk).mp hb) hin] at hd
  exact hnb ((ht.ownsSlab_iff hk).mpr hd)

/-- Slab objects in every state of every run: `alloc` returns a cell, aligned to the size of
the objects, of a slab it owns, and no live object; live objects lie in slabs of their allocator; a
step after which the allocator no longer owns a slab leaves no live object in it. -/
theorem slab_objects_safe (h : Reach (kernelSystem L P) (fun _ _ => True) s) (hk : k < 7) :
    (∀ p K, alloc L s.kernel k = .ok (some p, K) →
      (s.kernel.slubs k).objectSize ∣ p ∧ (∀ j, j < 7 → p ∉ s.objs j) ∧
      ∃ b, OwnsSlab L { s with kernel := K } k b ∧
        ∀ i, i < (s.kernel.slubs k).objectSize → InPages ⟨b, k⟩ (p + i)) ∧
    ObjectsHoused L s k ∧
    ∀ i t, (kernelSystem L P).legal s i → (kernelSystem L P).step s i = some t →
      ∀ b, OwnsSlab L s k b → ¬ OwnsSlab L t k b → ∀ p ∈ t.objs k, ¬ InPages ⟨b, k⟩ p := by
  obtain ⟨F, V, hok, _⟩ := kernel_reach h
  refine ⟨fun p K he => ?_, hok.housed hk, fun i t hl he b hb hnb => ?_⟩
  · have hspec := alloc_spec hok.pages (hok.slub k hk) hk
    rw [he] at hspec
    obtain ⟨F', v', hK⟩ := hspec
    obtain ⟨hok', _⟩ := hok.of_kept hk hK.toKept (hK.used (hok.used k hk))
    obtain ⟨b, hb, c, hc, rfl⟩ := hK.cell
    have hbo : OwnsSlab L ⟨K, s.held, Function.update s.objs k (cellAddr k b c :: s.objs k)⟩ k b :=
      (hok'.ownsSlab_iff hk).mpr (by rw [Function.update_self]; exact hb)
    have hlt := hok'.pages.inv.head_lt (b := ⟨b, k⟩) (.inr hbo.live)
    have hle := L.pages_le
    rw [(hok.slub k hk).size]
    refine ⟨cellSize_dvd_cellAddr hk (by simp only at hlt; omega), fun j hj hp => ?_,
      b, ⟨hbo.live, hbo.unheld, hbo.flags, hbo.owner⟩, fun i hi => cell_inPages hc hi⟩
    by_cases hjk : j = k
    · subst hjk; exact hK.fresh hp
    · refine hok'.object_ne hk hj hjk (by rw [Function.update_self]; exact hb) hc ?_
      simp only [Function.update_of_ne hjk]; exact hp
  · obtain ⟨F', V', hS⟩ := hok.step hl (toOption_eq_some he)
    exact hok.no_object_left hS.ok hk hb hnb

theorem slab_objects_safe_one : ∃ s p, Reach (kernelSystem smallLayout onePool) (fun _ _ => True) s ∧
    s.objs 3 = [p] ∧ ∃ b, OwnsSlab smallLayout s 3 b ∧ InPages ⟨b, 3⟩ p := by
  obtain ⟨s, p, _, _, hs, ho, _⟩ :=
    one_object_out (P := onePool) (k := 3) (by decide) (by decide)
  have hr := hs.mono fun _ _ _ => trivial
  refine ⟨s, p, hr, ho, (slab_objects_safe hr (by omega)).2.1 p ?_⟩
  rw [ho]; exact List.mem_singleton_self p

/-! ## Fresh slabs -/

/-- `prev`, and the fields of a slab that overlap it, are zero. -/
structure FreshDescriptor (d : PageDescriptor) : Prop where
  prev : d.prev = 0#64
  inUse : d.inUse = 0#16
  freeOffset : d.freeOffset = 0#32

theorem FreshDescriptor.of_prev {d : PageDescriptor} (h : d.prev = 0#64) : FreshDescriptor d :=
  ⟨h, PageDescriptor.inUse_of_prev h, PageDescriptor.freeOffset_of_prev h⟩

/-- The kernels in which a call of `alloc` of `slubs[k]` from `K` runs its body. -/
inductive Recurses (L : Layout) (k : Nat) (K : Kernel) : Kernel → Prop where
  | start : Recurses L k K K
  | again {K₁ K₂ : Kernel} :
      Recurses L k K K₁ → allocStep L k K₁ = .ok (.again K₂) → Recurses L k K K₂

theorem Recurses.invariant {K K₁ : Kernel} {objs : List Nat} {v : View} (hr : Recurses L k K K₁)
    (hB : BuddyOk P K.pages F) (h : SlubOk L K k v objs) (hk : k < 7) :
    ∃ F₁ v₁, BuddyOk P K₁.pages F₁ ∧ SlubOk L K₁ k v₁ objs := by
  induction hr with
  | start => exact ⟨F, v, hB, h⟩
  | again _ he ih =>
    obtain ⟨F₁, v₁, hB₁, h₁⟩ := ih
    rcases hv : v₁.ps with _ | ⟨b, rest⟩
    · rcases new_spec hB₁ h₁ hk hv with ⟨_, _, _, hs⟩ | ⟨_, hs⟩ | ⟨b, K', F', _, hs, _, hK⟩
      · rw [hs] at he; cases he
      · rw [hs] at he; cases he
      · rw [hs] at he; cases he
        exact ⟨F', _, hK.pages, hK.slub⟩
    · rcases hc : v₁.chain b with _ | ⟨c, cs⟩
      · obtain ⟨K', hs, _, hK⟩ := move_spec hB₁ h₁ hk hv hc
        rw [hs] at he; cases he
        exact ⟨F₁, _, hK.pages, hK.slub⟩
      · rw [(take_spec hB₁ h₁ hk hv hc).1] at he; cases he

/-- The first cell of a new slab is handed out. -/
theorem new_slab_first {K : Kernel} {objs : List Nat} {v : View} {a : Nat} {u : BuddyState}
    (hB : BuddyOk P K.pages F) (h : SlubOk L K k v objs) (hk : k < 7) (hv : v.ps = [])
    (ha : allocPages L K.pages .slab k = some (some a, u)) :
    ∃ K₂ K₃, allocStep L k K = .ok (.again K₂) ∧
      allocStep L k K₂ = .ok (.done (some (toKerAddr a), K₃)) := by
  have hhead : (K.slubs k).partialList.head = none := by rw [h.part.head, hv]; rfl
  have horder : calculOrder ((K.slubs k).objectSize * 128) = k := by rw [h.size, slab_order hk]
  -- with a block at hand the call goes on
  have hgo : (∃ e, allocStep L k K = .error e ∧ e = .slabList) ∨
      ∃ K', allocStep L k K = .ok (.again K') := by
    rw [allocStep]
    simp only [hhead, horder, ha]
    split
    · exact .inl ⟨_, rfl, rfl⟩
    · exact .inr ⟨_, rfl⟩
  rcases new_spec hB h hk hv with ⟨_, _, _, hs⟩ | ⟨_, hs⟩ | ⟨b, K', F', ⟨u', hp⟩, hs, _, hK⟩
  · rcases hgo with ⟨e, he, rfl⟩ | ⟨K', he⟩ <;> rw [hs] at he <;> cases he
  · rcases hgo with ⟨e, he, rfl⟩ | ⟨K', he⟩ <;> rw [hs] at he <;> cases he
  · rw [ha] at hp; cases hp
    have hr : List.range 128 = 0 :: List.range' 1 127 := by rw [List.range_eq_range']; rfl
    obtain ⟨he, _⟩ := take_spec hK.pages hK.slub hk rfl ((Function.update_self ..).trans hr)
    rw [cellAddr, Nat.zero_mul, Nat.add_zero] at he
    exact ⟨K', _, hs, he⟩

/-- A fresh slab starts empty in every state of every run: the descriptor of a block just
allocated has null in the bytes of `in_use` and `free_offset`. So the recursion of `alloc` ends, and
where it makes a slab it returns the first cell. -/
theorem fresh_slab_empty (h : Reach (kernelSystem L P) (fun _ _ => True) s) :
    (∀ order pt a m, pt ≠ .free → pt ≠ .tails →
      allocateWithOrder L s.kernel.pages.mem order pt = some (some a, m) →
      FreshDescriptor (m.pd a)) ∧
    ∀ k, k < 7 →
      (∀ n, 3 ≤ n → allocFuel L k n s.kernel = alloc L s.kernel k) ∧
      alloc L s.kernel k ≠ .error .outOfFuel ∧
      ∀ K₁, Recurses L k s.kernel K₁ → (K₁.slubs k).partialList.head = none →
        ∀ a u, allocPages L K₁.pages .slab (calculOrder ((K₁.slubs k).objectSize * 128)) =
            some (some a, u) →
          FreshDescriptor (u.mem.pd a) ∧ ∃ K₂ K₃, allocStep L k K₁ = .ok (.again K₂) ∧
            allocStep L k K₂ = .ok (.done (some (toKerAddr a), K₃)) := by
  obtain ⟨F, V, hok, _⟩ := kernel_reach h
  refine ⟨fun order pt a m hf ht he => ?_, fun k hk => ⟨fun n hn =>
    alloc_fuel hok.pages (hok.slub k hk) hk hn, fun he => ?_, fun K₁ hr hhead a u ha => ?_⟩⟩
  · have hspec := hok.pages.allocPages_spec order hf ht
    simp only [allocPages, he] at hspec
    obtain ⟨_, F', hT⟩ := hspec
    exact .of_prev hT.prev
  · have hspec := alloc_spec hok.pages (hok.slub k hk) hk
    rw [he] at hspec
    cases hspec.1
  · obtain ⟨F₁, v₁, hB₁, h₁⟩ := hr.invariant hok.pages (hok.slub k hk) hk
    have hv : v₁.ps = [] := by
      rw [h₁.part.head, List.head?_eq_none_iff] at hhead; exact hhead
    rw [h₁.size, slab_order hk] at ha
    have hspec := hB₁.allocPages_spec k (show PageType.slab ≠ .free by decide) (by decide)
    rw [ha] at hspec
    obtain ⟨_, F', hT⟩ := hspec
    exact ⟨.of_prev hT.prev, new_slab_first hB₁ h₁ hk hv ha⟩

theorem fresh_slab_empty_start : ∃ u K₂ K₃,
    allocPages smallLayout (startKernel onePool).kernel.pages .slab 3 = some (some 512, u) ∧
      FreshDescriptor (u.mem.pd 512) ∧
      allocStep smallLayout 3 (startKernel onePool).kernel = .ok (.again K₂) ∧
      allocStep smallLayout 3 K₂ = .ok (.done (some (toKerAddr 512), K₃)) := by
  have he : (allocPages smallLayout (filled onePool) .slab 3).map (·.1) = some (some 512) := by
    simp only [filled, onePool, insertBlocks, insertBlock, markPages_eq]
    decide +kernel
  obtain ⟨⟨_, u⟩, hu, rfl⟩ := Option.map_eq_some_iff.mp he
  obtain ⟨hd, K₂, K₃, h₂, h₃⟩ := ((fresh_slab_empty (.init (startKernel_init onePool))).2 3
    (by omega)).2.2 _ .start rfl 512 u hu
  exact ⟨u, K₂, K₃, hu, hd, h₂, h₃⟩

end Safety
end Memory
end TorexOS
