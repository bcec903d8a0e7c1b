import TorexOS.SlubCells

/-!
# TorexOS.SlubAlloc

`SlubAllocator::alloc` under the invariant of one slab allocator.

`SlubOk L K k v objs`: `slubs[k]` has the slabs of the view `v` on its two lists. The full list may
have lost next links. Its slabs are exhausted and marked full; of the partial list only the first
slab may be exhausted, and only the first may never have been full.

* `take_spec`, `move_spec`, `new_spec`: the three branches of `alloc`.
* `alloc_spec`: the call returns a free cell of the slab in front, or null when no page block is
  left; it stops only where the page allocator does.
-/

namespace TorexOS
namespace Memory

open Util Util.ListBase Dyadic Packed FreeChain

/-- The two lists of an allocator, the free cells of its slabs, and which have been full. -/
structure View where
  ps : List Nat
  fs : List Nat
  chain : Nat → List Nat
  marked : Nat → Bool

def View.owned (v : View) : List Nat := v.ps ++ v.fs

/-- The slab in front of the partial list has a free cell. -/
def View.Unexhausted (v : View) : Prop := ∀ b ∈ v.ps.head?, v.chain b ≠ []

/-- No slab has been full. -/
def View.Unmarked (v : View) : Prop := ∀ b ∈ v.owned, v.marked b = false

/-- A slab that has never been full has a live object. -/
def View.Used (v : View) : Prop := ∀ b ∈ v.owned, v.marked b = false → (v.chain b).length < 128

structure SlubOk (L : Layout) (K : Kernel) (k : Nat) (v : View) (objs : List Nat) : Prop where
  size : (K.slubs k).objectSize = cellSize k
  part : Linked (slubBlock L) K.pd (K.slubs k).partialList v.ps
  full : Threaded (slubBlock L) K.pd (K.slubs k).fullList v.fs
  nodup : v.owned.Nodup
  full_marked : ∀ b ∈ v.fs, v.chain b = [] ∧ v.marked b = true
  rest : ∀ b ∈ v.ps.tail, v.chain b ≠ [] ∧ v.marked b = true
  cells : Cells L K k (· ∈ v.owned) v.chain v.marked objs

/-- The full list has all its next links. -/
def FullLinked (L : Layout) (K : Kernel) (k : Nat) (v : View) : Prop :=
  Linked (slubBlock L) K.pd (K.slubs k).fullList v.fs

/-- What `alloc` on `slubs[k]` leaves of the rest: other allocators, the descriptors of other live
blocks, and all memory but that of new blocks. -/
structure Effect (S : Nat → Prop) (k : Nat) (K K' : Kernel) : Prop where
  slubs : ∀ j, j ≠ k → K'.slubs j = K.slubs j
  live : ∀ b ∈ K.pages.live, b ∈ K'.pages.live
  pd : ∀ b ∈ K.pages.live, ¬ S b.head → K'.pd b.head = K.pd b.head
  ram : ∀ x, (∀ b ∈ K'.pages.live, b ∉ K.pages.live → ¬ InPages b x) → K'.ram x = K.ram x

theorem Effect.trans {S S' : Nat → Prop} {k : Nat} {K K' K'' : Kernel} (h : Effect S k K K')
    (h' : Effect S' k K' K'') (hS : ∀ b ∈ K.pages.live, S' b.head → S b.head) :
    Effect S k K K'' where
  slubs j hj := (h'.slubs j hj).trans (h.slubs j hj)
  live b hb := h'.live b (h.live b hb)
  pd b hb hn := (h'.pd b (h.live b hb) fun hc => hn (hS b hb hc)).trans (h.pd b hb hn)
  ram x hx := (h'.ram x fun b hb hn => hx b hb fun hc => hn (h.live b hc)).trans
    (h.ram x fun b hb hn => hx b (h'.live b hb) hn)

/-- What a step of `alloc` keeps. -/
structure Kept {L : Layout} (P : Pool L) (k : Nat) (K : Kernel) (F : Nat → List Nat) (v : View)
    (K' : Kernel) (F' : Nat → List Nat) (v' : View) (objs' : List Nat) : Prop where
  pages : BuddyOk P K'.pages F'
  slub : SlubOk L K' k v' objs'
  effect : Effect (· ∈ v.owned) k K K'
  linked : AllLinked L K.pages.mem F → AllLinked L K'.pages.mem F'
  full : FullLinked L K k v → FullLinked L K' k v'
  mono : ∀ b ∈ v.owned, b ∈ v'.owned
  full_mono : ∀ b ∈ v.fs, b ∈ v'.fs
  new_not_live : ∀ b ∈ v'.owned, b ∉ v.owned → ∀ d ∈ K.pages.live, d.head ≠ b
  live_iff : ∀ b, b ∈ K'.pages.live ↔ b ∈ K.pages.live ∨ (b.order = k ∧ b.head ∈ v'.owned)
  unmarked : v.Unexhausted → v.Unmarked → v'.Unmarked

theorem Kept.trans {L : Layout} {P : Pool L} {k : Nat} {K K' K'' : Kernel}
    {F F' F'' : Nat → List Nat} {v v' v'' : View} {objs objs' : List Nat}
    (h : Kept P k K F v K' F' v' objs) (h' : Kept P k K' F' v' K'' F'' v'' objs')
    (hx : v.Unexhausted → v'.Unexhausted)
    (hS : ∀ b ∈ K.pages.live, b.head ∈ v'.owned → b.head ∈ v.owned) :
    Kept P k K F v K'' F'' v'' objs' where
  pages := h'.pages
  slub := h'.slub
  effect := h.effect.trans h'.effect hS
  linked hl := h'.linked (h.linked hl)
  full hl := h'.full (h.full hl)
  mono b hb := h'.mono b (h.mono b hb)
  full_mono b hb := h'.full_mono b (h.full_mono b hb)
  new_not_live b hb hn d hd := by
    by_cases hb' : b ∈ v'.owned
    · exact h.new_not_live b hb' hn d hd
    · exact h'.new_not_live b hb hb' d (h.effect.live d hd)
  live_iff b := by
    rw [h'.live_iff, h.live_iff]
    constructor
    · rintro ((hb | ⟨ho, hb⟩) | hb)
      · exact .inl hb
      · exact .inr ⟨ho, h'.mono _ hb⟩
      · exact .inr hb
    · rintro (hb | hb)
      · exact .inl (.inl hb)
      · exact .inr hb
  unmarked hu hm := h'.unmarked (hx hu) (h.unmarked hu hm)

section Alloc

variable {L : Layout} {P : Pool L} {K : Kernel} {F : Nat → List Nat} {k b c n : Nat} {v : View}
variable {objs rest cs : List Nat}

theorem View.front_owned (hv : v.ps = b :: rest) : b ∈ v.owned := by
  rw [View.owned, hv]; simp

/-- Field writes to slabs keep the lists. -/
theorem Linked.of_linksKept {pd' : PdTable} {l : ListBase Nat} {xs : List Nat}
    (h : Linked (slubBlock L) K.pd l xs) (hl : LinksKept K.pd pd') :
    Linked (slubBlock L) pd' l xs :=
  h.congr (fun a _ => by simp only [slubBlock, (hl a).1]) fun a _ => by
    simp only [slubBlock, (hl a).2]

theorem Threaded.of_linksKept {pd' : PdTable} {l : ListBase Nat} {xs : List Nat}
    (h : Threaded (slubBlock L) K.pd l xs) (hl : LinksKept K.pd pd') :
    Threaded (slubBlock L) pd' l xs :=
  h.congr (fun a _ => by simp only [slubBlock, (hl a).1]) fun a _ => by
    simp only [slubBlock, (hl a).2]

/-- A list is kept with the descriptors of its nodes. -/
theorem Linked.of_pd_eq {pd pd' : PdTable} {l : ListBase Nat} {xs : List Nat}
    (h : Linked (slubBlock L) pd l xs) (he : ∀ a ∈ xs, pd' a = pd a) :
    Linked (slubBlock L) pd' l xs :=
  h.congr (fun a ha => by simp only [slubBlock, he a ha]) fun a ha => by
    simp only [slubBlock, he a ha]

theorem Threaded.of_pd_eq {pd pd' : PdTable} {l : ListBase Nat} {xs : List Nat}
    (h : Threaded (slubBlock L) pd l xs) (he : ∀ a ∈ xs, pd' a = pd a) :
    Threaded (slubBlock L) pd' l xs :=
  h.congr (fun a ha => by simp only [slubBlock, he a ha]) fun a ha => by
    simp only [slubBlock, he a ha]

/-- Link writes on other nodes keep a list. -/
theorem Linked.of_within {S : Nat → Prop} {pd pd' : PdTable} {l : ListBase Nat} {xs : List Nat}
    (h : Linked (slubBlock L) pd l xs) (hw : Within S pd pd') (hS : ∀ a ∈ xs, ¬ S a) :
    Linked (slubBlock L) pd' l xs := Linked.of_pd_eq h fun a ha => hw.outside a (hS a ha)

theorem Threaded.of_within {S : Nat → Prop} {pd pd' : PdTable} {l : ListBase Nat} {xs : List Nat}
    (h : Threaded (slubBlock L) pd l xs) (hw : Within S pd pd') (hS : ∀ a ∈ xs, ¬ S a) :
    Threaded (slubBlock L) pd' l xs := Threaded.of_pd_eq h fun a ha => hw.outside a (hS a ha)

theorem SlubOk.owned_live (h : SlubOk L K k v objs) :
    ∀ i, i ∈ v.owned → ∃ b ∈ K.pages.live, b.head = i :=
  fun i hi => ⟨⟨i, k⟩, h.cells.held i hi, rfl⟩

/-- No slab is on both lists. -/
theorem SlubOk.not_full (h : SlubOk L K k v objs) : ∀ a ∈ v.ps, a ∉ v.fs :=
  fun a ha hf => (List.nodup_append.mp h.nodup).2.2 a ha a hf rfl

theorem SlubOk.front_not_rest (h : SlubOk L K k v objs) (hv : v.ps = b :: rest) : b ∉ rest := by
  have hnd := (List.nodup_append.mp h.nodup).1
  rw [hv] at hnd
  exact (List.nodup_cons.mp hnd).1

/-- A step that works on the descriptors of the allocator's slabs and on its lists. -/
theorem SlubOk.kept {K' : Kernel} {pd' : PdTable} {v' : View} {objs' : List Nat}
    (h : SlubOk L K k v objs) (hB : BuddyOk P K.pages F)
    (hpg : K'.pages = (K.withPd pd').pages) (hram : K'.ram = K.ram)
    (hw : Within (· ∈ v.owned) K.pd pd') (hs : ∀ j, j ≠ k → K'.slubs j = K.slubs j)
    (hslub : SlubOk L K' k v' objs') (hown : ∀ a, a ∈ v'.owned ↔ a ∈ v.owned)
    (hfull : FullLinked L K k v → FullLinked L K' k v') (hfs : ∀ a ∈ v.fs, a ∈ v'.fs)
    (hun : v.Unexhausted → v.Unmarked → v'.Unmarked) : Kept P k K F v K' F v' objs' where
  pages := by rw [hpg]; exact hB.withPd hw h.owned_live
  slub := hslub
  effect :=
    { slubs := hs
      live := fun b hb => by rw [hpg]; exact hb
      pd := fun b _ hn => by rw [Kernel.pd, hpg]; exact hw.outside _ hn
      ram := fun _ _ => by rw [hram] }
  linked hl := by rw [hpg]; exact hB.linked_withPd hw h.owned_live hl
  full := hfull
  mono a ha := (hown a).mpr ha
  full_mono := hfs
  new_not_live a ha hn := absurd ((hown a).mp ha) hn
  live_iff d := by
    rw [hpg]
    refine ⟨.inl, fun hd => ?_⟩
    rcases hd with hd | ⟨rfl, hd⟩
    · exact hd
    · exact h.cells.held d.head ((hown _).mp hd)
  unmarked := hun

/-! ## A cell of the slab in front -/

theorem take_spec (hB : BuddyOk P K.pages F) (h : SlubOk L K k v objs) (hk : k < 7)
    (hv : v.ps = b :: rest) (hc : v.chain b = c :: cs) :
    allocStep L k K = .ok (.done (some (cellAddr k b c), (allocInOneblock K b).2)) ∧
      cellAddr k b c ∉ objs ∧
      Kept P k K F v (allocInOneblock K b).2 F { v with chain := Function.update v.chain b cs }
        (cellAddr k b c :: objs) := by
  have hb : b ∈ v.owned := View.front_owned hv
  have hs := h.cells.slab b hb
  rw [hc] at hs
  have heq := hs.allocInOneblock_eq hk
  have hhead : (K.slubs k).partialList.head = some b := by rw [h.part.head, hv]; rfl
  have hne : (K.pd b).freeOffset ≠ cellNull := by rw [ne_eq, hs.exhausted_iff hk]; simp
  obtain ⟨hnew, hcells⟩ := h.cells.take hB hk hb hc
  generalize hK : (allocInOneblock K b).2 = K' at *
  rw [heq] at hK
  generalize hpd : (K.pd.modify b (·.setFreeOffset (load32 K.ram (cellAddr k b c)))).modify b
    (fun d => d.setInUse (d.inUse + 1)) = pd' at *
  subst hK
  have hw : Within (· ∈ v.owned) K.pd pd' := by
    rw [← hpd]
    exact ((Within.modify (by simp) (by simp)).trans (Within.modify (by simp) (by simp))).mono
      fun i hi => hi ▸ hb
  have hlk : LinksKept K.pd pd' := by
    rw [← hpd]
    exact (LinksKept.modify (by simp) (by simp)).trans (LinksKept.modify (by simp) (by simp))
  refine ⟨?_, hnew, h.kept hB rfl rfl hw (fun _ _ => rfl) ⟨h.size,
    Linked.of_linksKept h.part hlk, Threaded.of_linksKept h.full hlk, h.nodup, ?_, ?_, hcells⟩
    (fun _ => Iff.rfl) (fun hf => Linked.of_linksKept hf hlk) (fun _ hd => hd) fun _ hm => hm⟩
  · rw [allocStep]
    simp only [hhead]
    rw [if_pos hne, heq]
  · intro d hd
    have hdb : d ≠ b := by
      rintro rfl
      have := (h.full_marked d hd).1
      rw [hc] at this; cases this
    simp only [Function.update_of_ne hdb]
    exact h.full_marked d hd
  · intro d hd
    have hdb : d ≠ b := by
      rintro rfl
      rw [hv] at hd
      exact h.front_not_rest hv hd
    simp only [Function.update_of_ne hdb]
    exact h.rest d hd

/-! ## The exhausted slab in front moves to the full list -/

theorem move_spec (hB : BuddyOk P K.pages F) (h : SlubOk L K k v objs) (hk : k < 7)
    (hv : v.ps = b :: rest) (hc : v.chain b = []) :
    ∃ K', allocStep L k K = .ok (.again K') ∧
      (∃ pd', K'.pages = (K.withPd pd').pages ∧ Within (· ∈ v.owned) K.pd pd') ∧
      Kept P k K F v K' F
        ⟨rest, v.fs ++ [b], v.chain, Function.update v.marked b true⟩ objs := by
  have hb : b ∈ v.owned := View.front_owned hv
  have hs := h.cells.slab b hb
  have hhead : (K.slubs k).partialList.head = some b := by rw [h.part.head, hv]; rfl
  have hex : (K.pd b).freeOffset = cellNull := (hs.exhausted_iff hk).mpr hc
  have hst : (slubBlock L).Storable b := hB.inv.head_lt (.inr (h.cells.held b hb))
  have hbr : b ∉ rest := h.front_not_rest hv
  have hpf := h.not_full
  have hbf : b ∉ v.fs := hpf b (by rw [hv]; exact List.mem_cons_self)
  -- partial.pop_front_node()
  obtain ⟨pd1, l1, he1, hl1⟩ := popFrontNode_linked h.part
  have hw1 := (popFrontNode_threaded h.part.toThreaded he1).2
  rw [hv, List.tail_cons] at hl1
  obtain ⟨hin1, hss1⟩ := slub_writes hw1
  have hfull1 : Threaded (slubBlock L) pd1 (K.slubs k).fullList v.fs :=
    Threaded.of_within h.full hin1 fun a ha hc => hpf a hc ha
  -- full.push_back_node(&front)
  obtain ⟨pd2, l2, he2, ht2, hl2, hw2⟩ := pushBackNode_threaded hfull1 hbf hst
  obtain ⟨hin2, hss2⟩ := slub_writes hw2
  have hpart2 : Linked (slubBlock L) pd2 l1 rest := Linked.of_within hl1 hin2 fun a ha hc => by
    rcases List.mem_cons.mp hc with rfl | hc
    · exact hbr ha
    · exact hpf a (by rw [hv]; simp [ha]) hc
  -- front.in_use = in_use_max
  let pd3 := pd2.modify b (·.setInUse inUseMax)
  have hlk : LinksKept pd2 pd3 := LinksKept.modify (by simp) (by simp)
  let K' : Kernel := (((K.setPartial k (pd1, l1)).setFull k (pd2, l2)).withPd pd3)
  have hslubs : K'.slubs k = ⟨l1, l2, cellSize k⟩ := by
    simp only [K', Kernel.withPd_slubs, Kernel.setFull_slubs, Kernel.setPartial_slubs,
      Function.update_self, h.size]
  have hw : Within (· ∈ v.owned) K.pd pd3 := by
    refine ((hin1.mono fun a ha => ?_).trans (hin2.mono fun a ha => ?_)).trans
      ((Within.modify (by simp) (by simp)).mono fun i hi => hi ▸ hb)
    · exact List.mem_append_left _ ha
    · rcases List.mem_cons.mp ha with rfl | ha
      · exact hb
      · exact List.mem_append_right _ ha
  have hmem : ∀ a, a ∈ (View.mk rest (v.fs ++ [b]) v.chain
      (Function.update v.marked b true)).owned ↔ a ∈ v.owned := by
    intro a; simp only [View.owned, hv]; simp; tauto
  have hcells2 : Cells L (((K.setPartial k (pd1, l1)).setFull k (pd2, l2))) k (· ∈ v.owned)
      v.chain v.marked objs :=
    h.cells.frame h.cells.held (fun d _ => (hss1 d).trans (hss2 d)) fun _ _ _ _ => rfl
  have hcells3 : Cells L K' k (· ∈ v.owned) v.chain (Function.update v.marked b true) objs :=
    hcells2.mark hc
  refine ⟨K', ?_, ⟨pd3, rfl, hw⟩, h.kept hB rfl rfl hw (fun j hj => ?_)
    ⟨?_, ?_, ?_, ?_, ?_, ?_, ?_⟩ hmem (fun hf => ?_) (fun _ ha => List.mem_append_left _ ha)
    fun hu => absurd hc (hu b (by rw [hv]; rfl))⟩
  · rw [allocStep]
    simp only [hhead]
    rw [if_neg (not_not.mpr hex), he1]
    simp only [Kernel.setPartial_pd, Kernel.setPartial_slubs, Function.update_self]
    rw [he2]
    rfl
  · simp only [K', Kernel.withPd_slubs, Kernel.setFull_slubs, Kernel.setPartial_slubs,
      Function.update_of_ne hj]
  · rw [hslubs]
  · rw [hslubs]; exact Linked.of_linksKept (K := K.withPd pd2) hpart2 hlk
  · rw [hslubs]; exact Threaded.of_linksKept (K := K.withPd pd2) ht2 hlk
  · refine List.nodup_append.mpr ⟨hl1.nodup, ht2.nodup, ?_⟩
    intro a ha d hd hne
    subst hne
    rcases List.mem_append.mp hd with hd | hd
    · exact hpf a (by rw [hv]; simp [ha]) hd
    · rw [List.mem_singleton] at hd; exact hbr (hd ▸ ha)
  · intro d hd
    rcases List.mem_append.mp hd with hd | hd
    · have hdb : d ≠ b := fun he => hbf (he ▸ hd)
      simp only [Function.update_of_ne hdb]
      exact h.full_marked d hd
    · rw [List.mem_singleton] at hd
      simp only [hd, Function.update_self]
      exact ⟨hc, trivial⟩
  · intro d hd
    have hdr : d ∈ rest := List.mem_of_mem_tail hd
    have hdb : d ≠ b := by rintro rfl; exact hbr hdr
    simp only [Function.update_of_ne hdb]
    exact h.rest d (by rw [hv]; exact hdr)
  · have hfun : (· ∈ (View.mk rest (v.fs ++ [b]) v.chain
        (Function.update v.marked b true)).owned) = (· ∈ v.owned) :=
      funext fun a => propext (hmem a)
    rw [hfun]; exact hcells3
  · have hlf : Linked (slubBlock L) pd1 (K.slubs k).fullList v.fs :=
      Linked.of_within hf hin1 fun a ha hc => hpf a hc ha
    rw [FullLinked, hslubs]; exact Linked.of_linksKept (K := K.withPd pd2) (hl2 hlf) hlk

/-! ## A new slab -/

/-- The slabs of `slubs[k]` are blocks of order `k`. -/
theorem slab_order (hk : k < 7) : calculOrder (cellSize k * 128) = k := by
  have hsz : cellSize k * 128 = 2 ^ (k + 12) := by rw [cellSize, pow_add]; ring
  have hlo : 2 ^ 12 ≤ 2 ^ (k + 12) := Nat.pow_le_pow_right (by omega) (by omega)
  have hhi : 2 ^ (k + 12) < 2 ^ 64 := Nat.pow_lt_pow_right (by omega) (by omega)
  have hlog : ilog2 (2 ^ (k + 12)) = k + 12 :=
    ilog2_eq (le_refl _) (Nat.pow_lt_pow_right (by omega) (by omega))
  rw [hsz, calculOrder_of_ge hlo hhi, hlog, Nat.add_sub_cancel]

theorem new_spec (hB : BuddyOk P K.pages F) (h : SlubOk L K k v objs) (hk : k < 7)
    (hv : v.ps = []) :
    (∃ j, FirstFree F k j ∧ LostHead L K.pages.mem j ∧
      allocStep L k K = .error .pageList) ∨
    ((∀ j, k ≤ j → F j = []) ∧ allocStep L k K = .ok (.done (none, K))) ∨
    ∃ b K' F', (∃ t, allocPages L K.pages .slab k = some (some b, t)) ∧
      allocStep L k K = .ok (.again K') ∧
      (∀ c ∈ K.pages.live, c.head ≠ b) ∧
      Kept P k K F v K' F' ⟨[b], v.fs, Function.update v.chain b (List.range 128),
        Function.update v.marked b false⟩ objs := by
  have hhead : (K.slubs k).partialList.head = none := by rw [h.part.head, hv]; rfl
  have horder : calculOrder ((K.slubs k).objectSize * 128) = k := by rw [h.size, slab_order hk]
  have hspec := hB.allocPages_spec k (show PageType.slab ≠ .free by decide) (by decide)
  match hp : allocPages L K.pages .slab k with
  | none =>
    rw [hp] at hspec
    obtain ⟨j, hj, hlost⟩ := hspec
    refine .inl ⟨j, hj, hlost, ?_⟩
    rw [allocStep]
    simp only [hhead, horder, hp]
  | some (none, s) =>
    rw [hp] at hspec
    obtain ⟨rfl, he⟩ := hspec
    refine .inr (.inl ⟨he, ?_⟩)
    rw [allocStep]
    simp only [hhead, horder, hp]
  | some (some b, s) =>
    rw [hp] at hspec
    obtain ⟨_, F', hT⟩ := hspec
    have hnl : ∀ c ∈ K.pages.live, c.head ≠ b := by
      have hI := hT.ok.inv
      rw [hT.live] at hI
      exact fun c hc => hI.head_ne hc
    have hbo : b ∉ v.owned := fun hb => hnl ⟨b, k⟩ (h.cells.held b hb) rfl
    have hlive : ∀ c ∈ K.pages.live, c ∈ s.live := fun c hc => by rw [hT.live]; simp [hc]
    have hbl : ⟨b, k⟩ ∈ s.live := by rw [hT.live]; simp
    let K1 : Kernel := { K with pages := s }
    have hpd1 : ∀ a ∈ v.owned, K1.pd a = K.pd a :=
      fun a ha => hT.frame ⟨a, k⟩ (h.cells.held a ha)
    have hcells1 : Cells L K1 k (· ∈ v.owned) v.chain v.marked objs :=
      h.cells.frame (fun d hd => hlive _ (h.cells.held d hd))
        (fun d hd => by rw [hpd1 d hd]; exact .rfl) fun _ _ _ _ => rfl
    have hfull1 : Threaded (slubBlock L) K1.pd (K.slubs k).fullList v.fs :=
      Threaded.of_pd_eq h.full fun a ha => hpd1 a (List.mem_append_right _ ha)
    have hcells2 := hcells1.add hT.ok hbl hbo h.size hT.flags hT.prev
    have hram2 := (makeSlabs_ram (L := L) (K := K1) h.size (hT.ok.orders ⟨b, k⟩ hbl)).2.2
    have hpd2 := makeSlabs_pd (L := L) (K := K1) (k := k) (h := b)
    have hsl2 := makeSlabs_slubs (L := L) (K := K1) (k := k) (h := b)
    have hpg2 := makeSlabs_pages (L := L) (K := K1) (k := k) (h := b)
    generalize hK2 : makeSlabs L K1 k b = K2 at *
    have hlive2 : K2.pages.live = s.live := by rw [hpg2]; rfl
    have hlk2 : LinksKept K1.pd K2.pd := by
      rw [hpd2]; exact LinksKept.modify (by simp) (by simp)
    have hin2 : Within (· = b) K1.pd K2.pd := by rw [hpd2]; exact Within.modify (by simp) (by simp)
    have hpart2 : Linked (slubBlock L) K2.pd (K2.slubs k).partialList [] := by
      have hp0 := h.part
      rw [hv] at hp0
      rw [hsl2]
      exact hp0.congr (by simp) (by simp)
    have hst : (slubBlock L).Storable b := hT.ok.inv.head_lt (b := ⟨b, k⟩) (.inr hbl)
    obtain ⟨pd3, l3, he3, ht3, hl3, hw3⟩ := pushFrontNode_threaded hpart2.toThreaded (by simp) hst
    obtain ⟨hin3, hss3⟩ := slub_writes hw3
    have hin3b : Within (· = b) K2.pd pd3 := hin3.mono fun a ha => by simpa using ha
    obtain ⟨K3, hK3⟩ : ∃ K3, K3 = K2.setPartial k (pd3, l3) := ⟨_, rfl⟩
    have hpd3 : K3.pd = pd3 := by rw [hK3]; rfl
    have hram3 : K3.ram = K2.ram := by rw [hK3]; rfl
    have hpg3 : K3.pages = (K1.withPd pd3).pages := by
      rw [hK3, Kernel.setPartial_pages, Kernel.withPd, hpg2]; rfl
    have hslubs3 : K3.slubs = Function.update K.slubs k ⟨l3, (K.slubs k).fullList, cellSize k⟩ := by
      rw [hK3, Kernel.setPartial_slubs, hsl2, ← h.size]
    have hslubs : K3.slubs k = ⟨l3, (K.slubs k).fullList, cellSize k⟩ := by
      rw [hslubs3, Function.update_self]
    have hw : Within (· = b) K1.pd pd3 := hin2.trans hin3b
    have hheads : ∀ i, i = b → ∃ c ∈ K1.pages.live, c.head = i := fun i hi =>
      ⟨⟨b, k⟩, hbl, hi.symm⟩
    have hfs : ∀ a ∈ v.fs, a ≠ b := by
      rintro a ha rfl; exact hbo (List.mem_append_right _ ha)
    have hcells3 : Cells L K3 k (fun d => d = b ∨ d ∈ v.owned)
        (Function.update v.chain b (List.range 128)) (Function.update v.marked b false) objs :=
      hcells2.frame (fun d hd => by rw [hpg3]; exact hlive2 ▸ hcells2.held d hd)
        (fun d _ => by rw [hpd3]; exact hss3 d) fun _ _ _ _ => by rw [hram3]
    have hmem : ∀ a, a ∈ (View.mk [b] v.fs (Function.update v.chain b (List.range 128))
        (Function.update v.marked b false)).owned ↔ a = b ∨ a ∈ v.owned := by
      intro a; simp [View.owned, hv]
    refine .inr (.inr ⟨b, K3, F', ⟨s, rfl⟩, ?_, hnl, ?_⟩)
    · rw [allocStep]
      simp only [hhead, horder, hp, hK3]
      rw [show makeSlabs L { K with pages := s } k b = K2 from hK2, he3]
    refine ⟨by rw [hpg3]; exact hT.ok.withPd hw hheads, ⟨?_, ?_, ?_, ?_, ?_, by simp, ?_⟩,
      ⟨fun j hj => ?_, fun d hd => ?_, fun d hd _ => ?_, fun x hx => ?_⟩, fun hl => ?_, fun hf => ?_,
      fun a ha => (hmem a).mpr (.inr ha), fun _ ha => ha, fun a ha hn d hd => ?_, fun d => ?_, ?_⟩
    · rw [hslubs]
    · rw [hslubs, hpd3]; exact hl3 hpart2
    · rw [hslubs, hpd3]; exact Threaded.of_within hfull1 hw fun a ha => hfs a ha
    · simp only [View.owned, List.singleton_append, List.nodup_cons]
      exact ⟨fun hc => hfs b hc rfl, (List.nodup_append.mp h.nodup).2.1⟩
    · intro d hd
      simp only [Function.update_of_ne (hfs d hd)]
      exact h.full_marked d hd
    · have hfun : (· ∈ (View.mk [b] v.fs (Function.update v.chain b (List.range 128))
          (Function.update v.marked b false)).owned) = fun d => d = b ∨ d ∈ v.owned :=
        funext fun a => propext (hmem a)
      rw [hfun]; exact hcells3
    · rw [hslubs3, Function.update_of_ne hj]
    · rw [hpg3]; exact hlive d hd
    · rw [hpd3, hw.outside _ (hnl d hd)]
      exact hT.frame d hd
    · have hbnl : (⟨b, k⟩ : Block) ∉ K.pages.live := fun hc => hnl _ hc rfl
      rw [hram3]
      exact hram2 x (hx _ (by rw [hpg3]; exact hbl) hbnl)
    · rw [hpg3]; exact hT.ok.linked_withPd hw hheads (hT.linked hl)
    · have hfl : Linked (slubBlock L) K1.pd (K.slubs k).fullList v.fs :=
        Linked.of_pd_eq hf fun a ha => hpd1 a (List.mem_append_right _ ha)
      rw [FullLinked, hslubs, hpd3]
      exact Linked.of_within hfl hw fun a ha => hfs a ha
    · rw [((hmem a).mp ha).resolve_right hn]; exact hnl d hd
    · rw [hmem]
      have : d ∈ K3.pages.live ↔ d = ⟨b, k⟩ ∨ d ∈ K.pages.live := by
        rw [show K3.pages.live = s.live by rw [hpg3]; rfl, hT.live, List.mem_cons]
      rw [this, Block.ext_iff]
      constructor
      · rintro (⟨h1, h2⟩ | hd)
        · exact .inr ⟨h2, .inl h1⟩
        · exact .inl hd
      · rintro (hd | ⟨h1, h2 | h2⟩)
        · exact .inr hd
        · exact .inl ⟨h2, h1⟩
        · right
          have := h.cells.held d.head h2
          rwa [show (⟨d.head, k⟩ : Block) = d by rw [← h1]] at this
    · intro _ hm d hd
      rcases (hmem d).mp hd with rfl | hd
      · simp only [Function.update_self]
      · have hdb : d ≠ b := fun he => hbo (he ▸ hd)
        simp only [Function.update_of_ne hdb]
        exact hm d hd

/-! ## alloc -/

/-- Nothing is left on the partial list, or only an exhausted slab. -/
def View.NeedsSlab (v : View) : Prop := v.ps = [] ∨ ∃ b, v.ps = [b] ∧ v.chain b = []

/-- The exhausted slab in front is moved to the full list. -/
def View.MovesFront (v v' : View) : Prop := ∀ b ∈ v.ps.head?, v.chain b = [] → b ∈ v'.fs

/-- A cell was handed out: the first cell of a new slab, or a free cell of an old one. -/
structure HandedOut {L : Layout} (P : Pool L) (k : Nat) (K : Kernel) (F : Nat → List Nat)
    (v : View) (objs : List Nat) (p : Nat) (K' : Kernel) (F' : Nat → List Nat) (v' : View) :
    Prop extends Kept P k K F v K' F' v' (p :: objs) where
  fresh : p ∉ objs
  cell : ∃ b ∈ v'.owned, ∃ c, c < 128 ∧ p = cellAddr k b c
  first : ∀ b ∈ v'.owned, b ∉ v.owned → p = cellAddr k b 0
  used : v.Used → v'.Used
  moves : v.MovesFront v'

/-- How `alloc` ends. -/
def AllocSpec {L : Layout} (P : Pool L) (k : Nat) (K : Kernel) (F : Nat → List Nat) (v : View)
    (objs : List Nat) : Except Fault (Option Nat × Kernel) → Prop
  | .error e => e = .pageList ∧ v.NeedsSlab ∧ ∃ j, FirstFree F k j ∧ LostHead L K.pages.mem j
  | .ok (none, K') => v.NeedsSlab ∧ (∀ j, k ≤ j → F j = []) ∧
      ∃ v', Kept P k K F v K' F v' objs ∧ (v.Used → v'.Used) ∧ v.MovesFront v'
  | .ok (some p, K') => ∃ F' v', HandedOut P k K F v objs p K' F' v'

theorem take_out (hB : BuddyOk P K.pages F) (h : SlubOk L K k v objs) (hk : k < 7)
    (hv : v.ps = b :: rest) (hc : v.chain b ≠ []) :
    AllocSpec P k K F v objs (allocFuel L k (n + 1) K) := by
  obtain ⟨c, cs, hc⟩ := List.exists_cons_of_ne_nil hc
  obtain ⟨he, hnew, hkept⟩ := take_spec hB h hk hv hc
  have hb : b ∈ v.owned := View.front_owned hv
  have hs := h.cells.slab b hb
  rw [hc] at hs
  rw [allocFuel, he]
  refine ⟨F, _, hkept, hnew, ⟨b, hb, c, hs.lt c (by simp), rfl⟩, fun d hd hn => absurd hd hn,
    fun hu d hd hm => ?_, fun d hd hn => ?_⟩
  · by_cases hdb : d = b
    · have hlen := hs.length_le
      simp only [hdb, Function.update_self]
      rw [List.length_cons] at hlen; omega
    · simp only [Function.update_of_ne hdb]
      exact hu d hd hm
  · rw [hv] at hd
    cases hd
    rw [hc] at hn; cases hn

theorem new_out (hB : BuddyOk P K.pages F) (h : SlubOk L K k v objs) (hk : k < 7)
    (hv : v.ps = []) : AllocSpec P k K F v objs (allocFuel L k (n + 2) K) := by
  have hmv : ∀ v', v.MovesFront v' := fun v' d hd => by rw [hv] at hd; cases hd
  rcases new_spec hB h hk hv with ⟨j, hj, hlost, he⟩ | ⟨hempty, he⟩ | ⟨b, K1, F1, _, he, hnl, hk1⟩
  · rw [allocFuel, he]
    exact ⟨rfl, .inl hv, j, hj, hlost⟩
  · rw [allocFuel, he]
    refine ⟨.inl hv, hempty, v, ⟨hB, h, ⟨fun _ _ => rfl, fun _ hd => hd, fun _ _ _ => rfl,
      fun _ _ => rfl⟩, id, id, fun _ hd => hd, fun _ hd => hd, fun _ hd hn => absurd hd hn,
      fun d => ?_, fun _ hm => hm⟩, id,
      hmv v⟩
    refine ⟨.inl, ?_⟩
    rintro (hd | ⟨rfl, hd⟩)
    · exact hd
    · exact h.cells.held d.head hd
  · -- the new slab is in front, and its first cell is taken
    have hself : Function.update v.chain b (List.range 128) b = List.range 128 :=
      Function.update_self ..
    have hr : List.range 128 = 0 :: List.range' 1 127 := by rw [List.range_eq_range']; rfl
    have hb : b ∉ v.owned := fun hb => hnl ⟨b, k⟩ (h.cells.held b hb) rfl
    obtain ⟨he', hnew, hk2⟩ := take_spec hk1.pages hk1.slub hk rfl (hself.trans hr)
    rw [allocFuel, he]
    simp only
    rw [allocFuel, he']
    have hown : ∀ d, d ∈ (View.mk [b] v.fs (Function.update v.chain b (List.range 128))
        (Function.update v.marked b false)).owned ↔ d = b ∨ d ∈ v.owned := by
      intro d; simp [View.owned, hv]
    refine ⟨F1, _, hk1.trans hk2 ?_ ?_, hnew, ⟨b, (hown b).mpr (.inl rfl), 0, by omega, rfl⟩,
      fun d hd hn => ?_, fun hu d hd hm => ?_, hmv _⟩
    · intro _ d hd
      simp only [List.head?_cons, Option.mem_some_iff] at hd
      simp only [← hd, Function.update_self, hr]
      exact List.cons_ne_nil _ _
    · intro d hd hdo
      rcases (hown _).mp hdo with he | hdo
      · exact absurd he (hnl d hd)
      · exact hdo
    · rcases (hown d).mp hd with rfl | hd
      · rfl
      · exact absurd hd hn
    · rcases (hown d).mp hd with rfl | hd
      · simp
      · have hdb : d ≠ b := fun he => hb (he ▸ hd)
        simp only [Function.update_of_ne hdb] at hm ⊢
        exact hu d hd hm

/-- After an exhausted slab was moved away the call goes on with the rest. -/
theorem AllocSpec.of_move {K1 : Kernel} {v1 : View} {r : Except Fault (Option Nat × Kernel)}
    (hB : BuddyOk P K.pages F) (h : SlubOk L K k v objs) (hv : v.ps = b :: rest)
    (hc : v.chain b = []) (h1 : Kept P k K F v K1 F v1 objs)
    (hv1 : v1 = ⟨rest, v.fs ++ [b], v.chain, Function.update v.marked b true⟩)
    (hpg : ∃ pd', K1.pages = (K.withPd pd').pages ∧ Within (· ∈ v.owned) K.pd pd')
    (hr : AllocSpec P k K1 F v1 objs r) : AllocSpec P k K F v objs r := by
  obtain ⟨pd', hpg, hw⟩ := hpg
  have hown : ∀ d, d ∈ v1.owned ↔ d ∈ v.owned := by
    intro d; simp only [hv1, View.owned, hv]; simp; tauto
  have hneed : v1.NeedsSlab → v.NeedsSlab := by
    rintro (he | ⟨d, he, hd⟩)
    · right
      simp only [hv1] at he
      exact ⟨b, by rw [hv, he], hc⟩
    · -- the second slab of the partial list is not exhausted
      simp only [hv1] at he hd
      exact absurd hd (h.rest d (by rw [hv, he]; simp)).1
  have hx : v.Unexhausted → v1.Unexhausted := fun hu => absurd hc (hu b (by rw [hv]; rfl))
  have hused : v.Used → v1.Used := by
    intro hu d hd hm
    have hdb : d ≠ b := by
      rintro rfl
      simp only [hv1, Function.update_self] at hm; cases hm
    simp only [hv1, Function.update_of_ne hdb] at hm ⊢
    exact hu d ((hown d).mp hd) hm
  have hmove : ∀ v', (∀ d ∈ v1.fs, d ∈ v'.fs) → v.MovesFront v' := by
    intro v' hf d hd _
    rw [hv] at hd
    simp only [List.head?_cons, Option.mem_some_iff] at hd
    exact hf d (by simp [hv1, hd])
  match r, hr with
  | .error e, ⟨he, hn, j, hj, hlost⟩ =>
    refine ⟨he, hneed hn, j, hj, ?_⟩
    rw [hpg] at hlost
    exact (hB.lostHead_withPd hw h.owned_live).mp hlost
  | .ok (none, K'), ⟨hn, hempty, v', hk', hu, _⟩ =>
    exact ⟨hneed hn, hempty, v', h1.trans hk' hx fun d _ hd => (hown _).mp hd,
      fun hus => hu (hused hus), hmove v' hk'.full_mono⟩
  | .ok (some p, K'), ⟨F', v', ho⟩ =>
    exact ⟨F', v', h1.trans ho.toKept hx fun d _ hd => (hown _).mp hd, ho.fresh, ho.cell,
      fun d hd hn => ho.first d hd fun hc => hn ((hown d).mp hc), fun hus => ho.used (hused hus),
      hmove v' ho.full_mono⟩

/-- `alloc` hands out a free cell, or finds no page block for a new slab; it never goes deeper
than three calls, and never meets a null link of a slab list. -/
theorem allocFuel_spec (hB : BuddyOk P K.pages F) (h : SlubOk L K k v objs) (hk : k < 7)
    (n : Nat) : AllocSpec P k K F v objs (allocFuel L k (n + 3) K) := by
  rcases hv : v.ps with _ | ⟨b, rest⟩
  · exact new_out hB h hk hv
  by_cases hc : v.chain b = []
  · obtain ⟨K1, he, hpg, h1⟩ := move_spec hB h hk hv hc
    refine AllocSpec.of_move hB h hv hc h1 rfl hpg ?_
    rw [allocFuel, he]
    rcases rest with _ | ⟨d, rest⟩
    · exact new_out h1.pages h1.slub hk rfl
    · exact take_out h1.pages h1.slub hk rfl (h.rest d (by rw [hv]; simp)).1
  · exact take_out hB h hk hv hc

theorem alloc_spec (hB : BuddyOk P K.pages F) (h : SlubOk L K k v objs) (hk : k < 7) :
    AllocSpec P k K F v objs (alloc L K k) := allocFuel_spec hB h hk 0

/-- The bound on the recursion is never met. -/
theorem alloc_fuel (hB : BuddyOk P K.pages F) (h : SlubOk L K k v objs) (hk : k < 7) (hn : 3 ≤ n) :
    allocFuel L k n K = alloc L K k := by
  refine allocFuel_mono hn fun he => ?_
  have hs := alloc_spec hB h hk
  rw [alloc, he] at hs
  cases hs.1

/-- Where a new slab is needed and the page allocator stops, the call stops. -/
theorem new_stops (hB : BuddyOk P K.pages F) (h : SlubOk L K k v objs) (hk : k < 7)
    (hv : v.ps = []) (hj : FirstFree F k b) (hl : LostHead L K.pages.mem b) :
    allocFuel L k (n + 1) K = .error .pageList := by
  have hstep : allocStep L k K = .error .pageList := by
    rcases new_spec hB h hk hv with ⟨_, _, _, he⟩ | ⟨hempty, _⟩ | ⟨d, _, _, ⟨t, hp⟩, _⟩
    · exact he
    · exact absurd (hempty b hj.le) hj.some
    · have hspec := hB.allocPages_spec k (show PageType.slab ≠ .free by decide) (by decide)
      rw [hp] at hspec
      obtain ⟨⟨i, hi, hnl⟩, _⟩ := hspec
      exact absurd (hi.unique hj ▸ hl) hnl
  rw [allocFuel, hstep]

theorem alloc_stops (hB : BuddyOk P K.pages F) (h : SlubOk L K k v objs) (hk : k < 7)
    (hn : v.NeedsSlab) (hj : FirstFree F k b) (hl : LostHead L K.pages.mem b) :
    alloc L K k = .error .pageList := by
  rcases hn with hv | ⟨d, hv, hc⟩
  · exact new_stops hB h hk hv hj hl
  · obtain ⟨K1, he, ⟨pd', hpg, hw⟩, h1⟩ := move_spec hB h hk hv hc
    rw [alloc, allocFuel, he]
    refine new_stops h1.pages h1.slub hk rfl hj ?_
    rw [hpg]
    exact (hB.lostHead_withPd hw h.owned_live).mpr hl

end Alloc
end Memory
end TorexOS
