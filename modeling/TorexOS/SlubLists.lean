import Mathlib.Data.Set.Card
import TorexOS.SlubSafety

/-!
# TorexOS.SlubLists

The slab lists and the counters of a slab allocator over runs.

* `slab_lists_iff`: over a run that frees into exhausted slabs only on the full list, and not into
  the last of three there, each slab is on exactly one list and `free` pops from the right one; the
  first call of `free` that does neither breaks this or stops.
* `empty_slabs_returned`: over a run that never calls `alloc` with an exhausted slab in front,
  `in_use` counts the live objects and empty slabs go back; the first such call ends it, since the
  mark `in_use_max` is never taken off again.
-/

namespace TorexOS
namespace Memory

open Util Util.ListBase Dyadic Packed FreeChain Transition

/-- The slab is met on the walk along the next links of a list. -/
def OnSlabList (L : Layout) (K : Kernel) (l : ListBase Nat) (b : Nat) : Prop :=
  ∃ xs, Walks ((slubBlock L).getNext K.pd) l.head xs ∧ b ∈ xs

/-- The slabs `slubs[k]` owns are those on its two lists, each met once. -/
def SlabsListed (L : Layout) (s : KernelState) (k : Nat) : Prop :=
  ∃ ps fs, Walks ((slubBlock L).getNext s.kernel.pd) (s.kernel.slubs k).partialList.head ps ∧
    Walks ((slubBlock L).getNext s.kernel.pd) (s.kernel.slubs k).fullList.head fs ∧
    (ps ++ fs).Nodup ∧ ∀ b, OwnsSlab L s k b ↔ b ∈ ps ++ fs

/-- The slab each `pop_node` of `free` is applied to is on the list it is popped from. -/
def PopsListed (L : Layout) (K : Kernel) (k b : Nat) : Prop :=
  (Exhausted K b → OnSlabList L K (K.slubs k).fullList b) ∧
    (Empties K b → OnSlabList L K (K.slubs k).partialList b)

/-- `in_use` of each slab is the number of its live objects. -/
def Counts (L : Layout) (s : KernelState) (k : Nat) : Prop :=
  ∀ b, OwnsSlab L s k b →
    (s.kernel.pd b).inUse.toNat = {p | p ∈ s.objs k ∧ InPages ⟨b, k⟩ p}.ncard

section Lists

variable {L : Layout} {P : Pool L} {s t : KernelState} {F F' : Nat → List Nat}
variable {V V' : Nat → View} {k b c p : Nat}

/-! ## Membership -/

theorem KernelOk.walks_partial (h : KernelOk P s F V) (hk : k < 7) :
    Walks ((slubBlock L).getNext s.kernel.pd) (s.kernel.slubs k).partialList.head (V k).ps :=
  (h.slub k hk).part.represents.forward

theorem FullLinked.walks {v : View} (h : FullLinked L s.kernel k v) :
    Walks ((slubBlock L).getNext s.kernel.pd) (s.kernel.slubs k).fullList.head v.fs :=
  Linked.represents h |>.forward

theorem KernelOk.slabsListed (h : KernelOk P s F V) (hl : SlabsLinked L s V) (hk : k < 7) :
    SlabsListed L s k :=
  ⟨(V k).ps, (V k).fs, h.walks_partial hk, (hl k hk).walks, (h.slub k hk).nodup,
    fun _ => h.ownsSlab_iff hk⟩

/-- Behind the slab whose next link was cleared a slab is on no list. -/
theorem KernelOk.not_listed (h : KernelOk P s F V) (hk : k < 7)
    (hc : ∃ a d rest, (V k).fs = a :: d :: rest ∧ (slubBlock L).getNext s.kernel.pd a = none) :
    ¬ SlabsListed L s k := by
  rintro ⟨ps, fs, hp, hf, _, hown⟩
  obtain ⟨a, d, rest, hfs, hn⟩ := hc
  have hs := h.slub k hk
  have hd : d ∈ (V k).owned := List.mem_append_right _ (by rw [hfs]; simp)
  have hnd := hs.nodup
  rw [View.owned, hfs] at hnd
  obtain ⟨_, hndf, hdis⟩ := List.nodup_append.mp hnd
  have hwalk : Walks ((slubBlock L).getNext s.kernel.pd) (s.kernel.slubs k).fullList.head [a] :=
    ⟨by rw [hs.full.head, hfs]; rfl, hn⟩
  rw [walks_unique hp (h.walks_partial hk), walks_unique hf hwalk] at hown
  rcases List.mem_append.mp ((hown d).mp ((h.ownsSlab_iff hk).mpr hd)) with hd | hd
  · exact hdis d hd d (by simp) rfl
  · rw [List.mem_singleton] at hd
    subst hd
    simp at hndf

/-- An exhausted slab is on the full list, unless it is the first of the partial list. -/
theorem KernelOk.full_of_exhausted (h : KernelOk P s F V) (hk : k < 7) (hb : b ∈ (V k).owned)
    (hx : Exhausted s.kernel b) (hf : (s.kernel.slubs k).partialList.head ≠ some b) :
    b ∈ (V k).fs := by
  have hs := h.slub k hk
  rcases List.mem_append.mp hb with hp | hf'
  · obtain ⟨rest, hv⟩ := hs.front_of hp (.inl ((hs.exhausted_iff hk hb).mp hx))
    exact absurd (by rw [hs.part.head, hv]; rfl) hf
  · exact hf'

theorem KernelOk.popsListed (h : KernelOk P s F V) (hl : SlabsLinked L s V) (hk : k < 7)
    (hb : b ∈ (V k).owned)
    (hf : Exhausted s.kernel b → (s.kernel.slubs k).partialList.head ≠ some b) :
    PopsListed L s.kernel k b := by
  have hs := h.slub k hk
  refine ⟨fun hx => ⟨(V k).fs, (hl k hk).walks, h.full_of_exhausted hk hb hx (hf hx)⟩,
    fun he => ⟨(V k).ps, h.walks_partial hk, hs.mem_ps hb ?_⟩⟩
  rw [ne_eq, ← hs.exhausted_iff hk hb]; exact he.1

theorem KernelOk.front_not_listed (h : KernelOk P s F V) (hl : SlabsLinked L s V) (hk : k < 7)
    (hf : (s.kernel.slubs k).partialList.head = some b) :
    ¬ OnSlabList L s.kernel (s.kernel.slubs k).fullList b := by
  rintro ⟨xs, hw, hm⟩
  rw [walks_unique hw (hl k hk).walks] at hm
  have hs := h.slub k hk
  rw [hs.part.head] at hf
  exact (List.nodup_append.mp hs.nodup).2.2 b (List.mem_of_mem_head? hf) b hm rfl

/-! ## A slab is used up -/

/-- Cells are taken from the slab in front until none is left. -/
theorem exhaust (hk : k < 7) (n : Nat) :
    ∀ {s : KernelState} {V : Nat → View} {rest : List Nat},
      Reach (kernelSystem L P) (fun _ i => i = .alloc k) s → KernelOk P s F V →
      AllLinked L s.kernel.pages.mem F → SlabsLinked L s V → (V k).ps = b :: rest →
      ((V k).chain b).length = n →
      ∃ t F' V', Reach (kernelSystem L P) (fun _ i => i = .alloc k) t ∧ KernelOk P t F' V' ∧
        AllLinked L t.kernel.pages.mem F' ∧ SlabsLinked L t V' ∧ (V' k).ps = b :: rest ∧
        (V' k).chain b = [] := by
  induction n with
  | zero =>
    intro s V rest hr hok hal hsl hv hn
    exact ⟨s, F, V, hr, hok, hal, hsl, hv, List.eq_nil_of_length_eq_zero hn⟩
  | succ n ih =>
    intro s V rest hr hok hal hsl hv hn
    obtain ⟨c, cs, hc⟩ := List.exists_cons_of_length_eq_add_one hn
    obtain ⟨he, _, hK⟩ := take_spec hok.pages (hok.slub k hk) hk hv hc
    have hu : View.Used { V k with chain := Function.update (V k).chain b cs } := by
      intro d hd hm
      have hlt := hok.used k hk d hd hm
      by_cases hdb : d = b
      · subst hdb
        rw [hc, List.length_cons] at hlt
        simp only [Function.update_self]; omega
      · simp only [Function.update_of_ne hdb]; exact hlt
    obtain ⟨hok', hsl'⟩ := hok.of_kept hk hK hu
    refine ih (hr.step (i := .alloc k) hk rfl ?_) hok' (hK.linked hal) (hsl' hsl) ?_ ?_
    · simp only [kernelSystem, KernelOp.exec, alloc, allocFuel, he]; rfl
    · simp only [Function.update_self]; exact hv
    · rw [hc, List.length_cons] at hn
      simp only [Function.update_self]; omega

/-- Of the 128 cells of a slab one live object leaves some free. -/
theorem KernelOk.chain_ne_nil (h : KernelOk P s F V) (hk : k < 7) (hb : b ∈ (V k).owned)
    (ho : s.objs k = [p]) : (V k).chain b ≠ [] := by
  intro hn
  have hs := (h.slub k hk).cells.slab b hb
  have hall : ∀ c, c < 128 → cellAddr k b c = p := by
    intro c hc
    have hm := (hs.cells c hc).mpr (by rw [hn]; exact List.not_mem_nil)
    rwa [ho, List.mem_singleton] at hm
  have h01 := (hall 0 (by omega)).trans (hall 1 (by omega)).symm
  exact absurd (cellAddr_inj h01) (by omega)

/-- Calls of `alloc` alone reach a state whose slab in front is exhausted. -/
theorem exhausted_reachable (hP : P.heads ≠ []) (hk : k < 7) :
    ∃ b t F V rest, Reach (kernelSystem L P) (fun _ i => i = .alloc k) t ∧ KernelOk P t F V ∧
      AllLinked L t.kernel.pages.mem F ∧ SlabsLinked L t V ∧ (V k).ps = b :: rest ∧
      (V k).chain b = [] := by
  obtain ⟨s, p, F, V, hr, ho, hok, hal, hsl⟩ := one_object_out hP hk
  obtain ⟨b, hb, _⟩ := hok.object hk (p := p) (by rw [ho]; simp)
  have hps := (hok.slub k hk).mem_ps hb (hok.chain_ne_nil hk hb ho)
  rcases hv : (V k).ps with _ | ⟨d, rest⟩
  · rw [hv] at hps; cases hps
  · obtain ⟨t, F', V', h⟩ := exhaust hk _ (hr.mono fun _ _ hi => hi.1) hok hal hsl hv rfl
    exact ⟨d, t, F', V', rest, h⟩

/-- The next call of `alloc` finds the slab exhausted and moves it to the full list. -/
theorem full_slab_reachable (hP : P.heads ≠ []) (hk : k < 7) :
    ∃ b t F V, Reach (kernelSystem L P) (fun _ i => i = .alloc k) t ∧ KernelOk P t F V ∧
      SlabsLinked L t V ∧ ∃ rest, (V k).fs = b :: rest ∧ (V k).chain b = [] := by
  obtain ⟨b, s, F, V, rest, hr, hok, hal, hsl, hv, hc⟩ := exhausted_reachable hP hk
  have hspec := alloc_spec hok.pages (hok.slub k hk) hk
  obtain ⟨⟨r, K⟩, he⟩ := hok.alloc_runs hal hk
  rw [he] at hspec
  have hfront : b ∈ (V k).ps.head? := by rw [hv]; rfl
  obtain ⟨t, F', V', het, hok', hsl', hbf⟩ : ∃ t F' V',
      (KernelOp.alloc k).exec L s = .ok t ∧ KernelOk P t F' V' ∧ SlabsLinked L t V' ∧
        b ∈ (V' k).fs := by
    cases r with
    | none =>
      obtain ⟨_, _, v', hK, hu, hmv⟩ := hspec
      obtain ⟨hok', hsl'⟩ := hok.of_kept hk hK (hu (hok.used k hk))
      rw [Function.update_eq_self] at hok' hsl'
      exact ⟨_, F, _, by rw [KernelOp.exec, he], hok', hsl' hsl,
        by rw [Function.update_self]; exact hmv b hfront hc⟩
    | some q =>
      obtain ⟨F', v', hK⟩ := hspec
      obtain ⟨hok', hsl'⟩ := hok.of_kept hk hK.toKept (hK.used (hok.used k hk))
      exact ⟨_, F', _, by rw [KernelOp.exec, he], hok', hsl' hsl,
        by rw [Function.update_self]; exact hK.moves b hfront hc⟩
  rcases hfs : (V' k).fs with _ | ⟨d, rest'⟩
  · rw [hfs] at hbf
    cases hbf
  · have hd := (hok'.slub k hk).full_marked d (by rw [hfs]; exact List.mem_cons_self)
    exact ⟨d, t, F', V', hr.step (i := .alloc k) hk rfl (by simp only [kernelSystem, het]; rfl), hok',
      hsl', rest', hfs, hd.1⟩

/-- The first cell of an exhausted slab is live. -/
theorem KernelOk.first_live (h : KernelOk P s F V) (hk : k < 7) (hb : b ∈ (V k).owned)
    (hc : (V k).chain b = []) : cellAddr k b 0 ∈ s.objs k :=
  (((h.slub k hk).cells.slab b hb).cells 0 (by omega)).mpr (by rw [hc]; simp)

/-- Slab list membership over a run that keeps the lists: each owned slab is on exactly one of
them, `alloc` returns, and `free` pops from the right list and keeps this exactly when it is not
called for an exhausted slab still in front of the partial list, or last of three on the full
list. -/
theorem slab_lists_iff
    (h : Reach (kernelSystem L P) (fun s i => KeepsPageLists L s i ∧ KeepsSlabLists L s i) s)
    (hk : k < 7) :
    SlabsListed L s k ∧ (∃ r, alloc L s.kernel k = .ok r) ∧
    ∀ p ∈ s.objs k, (PopsListed L s.kernel k (slabOf k p) ∧
      ∃ t, (KernelOp.free k p).exec L s = .ok t ∧ SlabsListed L t k) ↔
        KeepsSlabLists L s (.free k p) := by
  obtain ⟨F, V, hok, hal, hsl, _⟩ := kernel_reach h
  have hal := hal fun _ _ hg => hg.1
  have hsl := hsl fun _ _ hg => hg.2
  refine ⟨hok.slabsListed hsl hk, hok.alloc_runs hal hk, fun p hp => ?_⟩
  obtain ⟨b, hb, hsb, c, hc, hpc⟩ := hok.object hk hp
  have hspec := hok.free_spec hk hp
  rw [KernelOp.exec]
  simp only [KeepsSlabLists, hsb] at hspec ⊢
  constructor
  · rintro ⟨hpop, t, he, hlist⟩ hx
    refine ⟨fun hf => hok.front_not_listed hsl hk hf (hpop.1 hx), fun hcut => ?_⟩
    cases hm : Memory.free L s.kernel k b p with
    | error e => rw [hm] at he; cases he
    | ok K =>
      rw [hm] at he hspec
      obtain ⟨_, _, F', v', hF⟩ := hspec
      cases he
      rw [hpc] at hF
      obtain ⟨hok', _⟩ := hok.of_freed hk hb hc hF
      rw [← hpc] at hok'
      refine hok'.not_listed hk ?_ hlist
      rw [Function.update_self]
      exact hF.cut ⟨hx, hcut⟩
  · intro hkeep
    refine ⟨hok.popsListed hsl hk hb fun hx => (hkeep hx).1, ?_⟩
    cases hm : Memory.free L s.kernel k b p with
    | error e =>
      rw [hm] at hspec
      cases e with
      | slabList =>
        obtain ⟨hx, hf | hn⟩ := hspec
        · exact absurd hf (hkeep hx).1
        · have hbf := hok.full_of_exhausted hk hb hx (hkeep hx).1
          exact absurd hn ((hsl k hk).not_lostNext hbf)
      | pageList => exact absurd hspec.2 (not_lostNext hok.pages hal (hok.owned_live hk hb))
      | outOfFuel => exact hspec.elim
    | ok K =>
      rw [hm] at hspec
      obtain ⟨_, _, F', v', hF⟩ := hspec
      rw [hpc] at hF
      obtain ⟨hok', hsl'⟩ := hok.of_freed hk hb hc hF
      rw [← hpc] at hok' hsl'
      exact ⟨_, rfl, hok'.slabsListed (hsl' hsl fun hcut => (hkeep hcut.1).2 hcut.2) hk⟩

/-- An object is freed whose slab is exhausted, on the full list and not the last of three there. -/
theorem slab_lists_full : ∃ s p t, Exhausted s.kernel (slabOf 3 p) ∧ p ∈ s.objs 3 ∧
    SlabsListed smallLayout s 3 ∧ (KernelOp.free 3 p).exec smallLayout s = .ok t ∧
      SlabsListed smallLayout t 3 := by
  obtain ⟨b, s, F, V, hr, hok, hsl, rest, hv, hc⟩ :=
    full_slab_reachable (P := onePool) (k := 3) (by decide) (by omega)
  have hf : b ∈ (V 3).fs := by rw [hv]; exact List.mem_cons_self
  have hb : b ∈ (V 3).owned := List.mem_append_right _ hf
  have hx := ((hok.slub 3 (by omega)).exhausted_iff (by omega) hb).mpr hc
  have hp := hok.first_live (by omega) hb hc
  have hsb := hok.slabOf_eq (by omega) hb (cellAddr_inPages (k := 3) (c := 0) (by omega))
  have hkeep : KeepsSlabLists smallLayout s (.free 3 (cellAddr 3 b 0)) := by
    rw [KeepsSlabLists, hsb]
    refine fun _ => ⟨fun hfront => hok.front_not_listed hsl (by omega) hfront
      ⟨_, (hsl 3 (by omega)).walks, hf⟩, fun hcut => ?_⟩
    obtain ⟨hlen, hlast⟩ := (hok.slub 3 (by omega)).full.cutsBack_iff.mp hcut
    have hnd := (List.nodup_append.mp (hok.slub 3 (by omega)).nodup).2.1
    rw [hv] at hlen hlast hnd
    cases rest with
    | nil => simp at hlen
    | cons d ds =>
      rw [List.getLast?_cons_cons] at hlast
      exact (List.nodup_cons.mp hnd).1 (List.mem_of_getLast? hlast)
  have hr : Reach (kernelSystem smallLayout onePool)
      (fun s i => KeepsPageLists smallLayout s i ∧ KeepsSlabLists smallLayout s i) s :=
    hr.mono fun _ _ hi => by rw [hi]; exact ⟨trivial, trivial⟩
  obtain ⟨hlist, _, hfree⟩ := slab_lists_iff hr (by omega : 3 < 7)
  obtain ⟨_, t, he, ht⟩ := (hfree _ hp).mpr hkeep
  exact ⟨s, _, t, by rw [hsb]; exact hx, hp, hlist, he, ht⟩

/-- After 128 calls of `alloc` the slab is exhausted and still on the partial list; `free` of any
of its objects pops it from the full list and stops. -/
theorem exhausted_free_stops : ¬ ∀ s, Reach (kernelSystem smallLayout onePool) (fun _ _ => True) s →
    ∀ k, k < 7 → ∀ p ∈ s.objs k, ∃ t, (KernelOp.free k p).exec smallLayout s = .ok t := by
  intro h
  obtain ⟨b, s, F, V, rest, hr, hok, _, _, hv, hc⟩ :=
    exhausted_reachable (P := onePool) (k := 0) (by decide) (by decide)
  have hb : b ∈ (V 0).owned := View.front_owned hv
  have hp := hok.first_live (by omega) hb hc
  obtain ⟨t, ht⟩ := h s (hr.mono fun _ _ _ => trivial) 0 (by omega) _ hp
  have hsb := hok.slabOf_eq (by omega) hb (cellAddr_inPages (k := 0) (c := 0) (by omega))
  have hstop := (free_front hok.pages (hok.slub 0 (by omega)) (by omega)
    (by rw [hv]; simp) hc (by omega) hp).1
  rw [KernelOp.exec, hsb, hstop] at ht
  cases ht

/-! ## Counters -/

/-- The live objects of a slab are its cells off the free chain. -/
theorem KernelOk.live_count (h : KernelOk P s F V) (hk : k < 7) (hb : b ∈ (V k).owned) :
    {p | p ∈ s.objs k ∧ InPages ⟨b, k⟩ p}.ncard = 128 - ((V k).chain b).length := by
  have hs := (h.slub k hk).cells.slab b hb
  have hset : {p | p ∈ s.objs k ∧ InPages ⟨b, k⟩ p} =
      (((Finset.range 128 \ ((V k).chain b).toFinset).image (cellAddr k b) : Finset Nat) :
        Set Nat) := by
    ext p
    simp only [Set.mem_ofPred_eq, Finset.coe_image, Set.mem_image, Finset.mem_coe,
      Finset.mem_sdiff, Finset.mem_range, List.mem_toFinset]
    constructor
    · rintro ⟨hp, hin⟩
      obtain ⟨d, _, hsd, c, hc, rfl⟩ := h.object hk hp
      rw [h.slabOf_eq hk hb hin] at hsd
      subst hsd
      exact ⟨c, ⟨hc, (hs.cells c hc).mp hp⟩, rfl⟩
    · rintro ⟨c, ⟨hc, hn⟩, rfl⟩
      exact ⟨(hs.cells c hc).mpr hn, cellAddr_inPages hc⟩
  have hsub : ((V k).chain b).toFinset ⊆ Finset.range 128 := fun c hc =>
    Finset.mem_range.mpr (hs.lt c (List.mem_toFinset.mp hc))
  rw [hset, Set.ncard_coe_finset, Finset.card_image_of_injective _ fun _ _ => cellAddr_inj,
    Finset.card_sdiff_of_subset hsub, Finset.card_range, List.toFinset_card_of_nodup hs.nodup]

/-- `in_use` counts the live objects of exactly the slabs that were never marked full. -/
theorem KernelOk.counts_iff (h : KernelOk P s F V) (hk : k < 7) :
    Counts L s k ↔ (V k).Unmarked := by
  have huse : ∀ b ∈ (V k).owned, (s.kernel.pd b).inUse.toNat =
      useTop ((V k).marked b) - ((V k).chain b).length := by
    intro b hb
    have hle := useTop_le ((V k).marked b)
    rw [((h.slub k hk).cells.slab b hb).inUse, BitVec.toNat_ofNat, Nat.mod_eq_of_lt (by omega)]
  constructor
  · intro hc b hb
    have hcb := hc b ((h.ownsSlab_iff hk).mpr hb)
    have hlen := ((h.slub k hk).cells.slab b hb).length_le
    rw [huse b hb, h.live_count hk hb] at hcb
    cases hm : (V k).marked b with
    | false => rfl
    | true =>
      rw [hm, useTop, if_pos rfl] at hcb
      omega
  · intro hm b ho
    have hb := (h.ownsSlab_iff hk).mp ho
    rw [huse b hb, h.live_count hk hb, hm b hb]
    rfl

/-- A slab with no live object has been full once. -/
theorem KernelOk.no_slab (h : KernelOk P s F V) (hk : k < 7) (hm : (V k).Unmarked)
    (ho : s.objs k = []) : ∀ b, ¬ OwnsSlab L s k b := by
  intro b hown
  have hb := (h.ownsSlab_iff hk).mp hown
  have hlt := h.used k hk b hb (hm b hb)
  have hcount := h.live_count hk hb
  rw [ho] at hcount
  simp only [List.not_mem_nil, false_and, Set.ofPred_false, Set.ncard_empty] at hcount
  omega

/-- The last live object of a slab that was never full empties it. -/
theorem KernelOk.empties_last (h : KernelOk P s F V) (hk : k < 7) (hm : (V k).Unmarked)
    (hp : p ∈ s.objs k) (hlast : ∀ q ∈ s.objs k, InPages ⟨slabOf k p, k⟩ q → q = p) :
    Empties s.kernel (slabOf k p) := by
  obtain ⟨b, hb, hsb, c, hc, hpc⟩ := h.object hk hp
  rw [hsb] at hlast ⊢
  rw [(h.slub k hk).empties_iff hk hb]
  refine ⟨hm b hb, ?_⟩
  have hcount := h.live_count hk hb
  have hone : {q | q ∈ s.objs k ∧ InPages ⟨b, k⟩ q} = {p} := by
    ext q
    simp only [Set.mem_ofPred_eq, Set.mem_singleton_iff]
    constructor
    · exact fun hq => hlast q hq.1 hq.2
    · rintro rfl
      exact ⟨hp, by rw [hpc]; exact cellAddr_inPages hc⟩
  rw [hone, Set.ncard_singleton] at hcount
  omega

/-- A call of `alloc` keeps the counters exactly if the slab in front has a free cell, or there is
none. -/
theorem KernelOk.alloc_counts (h : KernelOk P s F V) (hk : k < 7) (hm : (V k).Unmarked)
    (he : (KernelOp.alloc k).exec L s = .ok t) :
    Counts L t k ↔ FrontHasCell s (.alloc k) := by
  have hs := h.slub k hk
  have hspec := alloc_spec h.pages hs hk
  -- an exhausted slab in front is marked full
  have key : ∀ {K : Kernel} {objs' : List Nat} {F' : Nat → List Nat} {v' : View}
      {t : KernelState}, t = ⟨K, s.held, Function.update s.objs k objs'⟩ →
      Kept P k s.kernel F (V k) K F' v' objs' → v'.Used → (V k).MovesFront v' →
      (Counts L t k ↔ FrontHasCell s (.alloc k)) := by
    rintro K objs' F' v' t rfl hK hu hmv
    obtain ⟨hok', _⟩ := h.of_kept hk hK hu
    rw [hok'.counts_iff hk, Function.update_self]
    constructor
    · intro hun b hb hx
      rw [hs.part.head] at hb
      have hbo : b ∈ (V k).owned := List.mem_append_left _ (List.mem_of_mem_head? hb)
      have hbf := hmv b hb ((hs.exhausted_iff hk hbo).mp hx)
      have hmk := (hK.slub.full_marked b hbf).2
      rw [hun b (List.mem_append_right _ hbf)] at hmk
      cases hmk
    · exact fun hf => hK.unmarked (h.unexhausted hk hf) hm
  rw [KernelOp.exec] at he
  cases hr : alloc L s.kernel k with
  | error e => rw [hr] at he; cases he
  | ok r =>
    rw [hr] at he hspec
    obtain ⟨q, K⟩ := r
    cases q with
    | none =>
      obtain ⟨_, _, v', hK, hu, hmv⟩ := hspec
      cases he
      exact key (by rw [Function.update_eq_self]) hK (hu (h.used k hk)) hmv
    | some p =>
      obtain ⟨F', v', hK⟩ := hspec
      cases he
      exact key rfl hK.toKept (hK.used (h.used k hk)) hK.moves

/-- Empty slabs go back over a run that never calls `alloc` with an exhausted slab in front:
`in_use` counts the live objects, freeing the last object of a slab gives its page block back, and
with no live object left there is no slab; a call of `alloc` keeps this exactly if it is such a
call. -/
theorem empty_slabs_returned
    (h : Reach (kernelSystem L P) (fun s i => KeepsPageLists L s i ∧ FrontHasCell s i) s)
    (hk : k < 7) :
    Counts L s k ∧ (s.objs k = [] → ∀ b, ¬ OwnsSlab L s k b) ∧
    (∀ p ∈ s.objs k, (∀ q ∈ s.objs k, InPages ⟨slabOf k p, k⟩ q → q = p) →
      ∃ t, (KernelOp.free k p).exec L s = .ok t ∧ ⟨slabOf k p, k⟩ ∉ t.kernel.pages.live) ∧
    ∀ t, (KernelOp.alloc k).exec L s = .ok t → (Counts L t k ↔ FrontHasCell s (.alloc k)) := by
  obtain ⟨F, V, hok, hal, _, hun⟩ := kernel_reach h
  have hal := hal fun _ _ hg => hg.1
  have hm := hun (fun _ _ hg => hg.2) k hk
  refine ⟨(hok.counts_iff hk).mpr hm, hok.no_slab hk hm, fun p hp hlast => ?_,
    fun t he => hok.alloc_counts hk hm he⟩
  have hem := hok.empties_last hk hm hp hlast
  obtain ⟨b, hb, hsb, _⟩ := hok.object hk hp
  have hspec := hok.free_spec hk hp
  rw [KernelOp.exec]
  cases hr : Memory.free L s.kernel k (slabOf k p) p with
  | error e =>
    rw [hr] at hspec
    cases e with
    | slabList => exact absurd hspec.1 hem.1
    | pageList =>
      refine absurd hspec.2 (not_lostNext hok.pages hal (b := ⟨slabOf k p, k⟩) ?_)
      rw [hsb]; exact hok.owned_live hk hb
    | outOfFuel => exact hspec.elim
  | ok K =>
    rw [hr] at hspec
    obtain ⟨_, _, F', v', hF⟩ := hspec
    exact ⟨_, rfl, fun hl => ((hF.live_iff _).mp hl).2 ⟨rfl, hem⟩⟩

/-- One object is handed out, and its slab goes back when it is freed. -/
theorem empty_slabs_returned_one : ∃ s p t, s.objs 3 = [p] ∧ OwnsSlab smallLayout s 3 (slabOf 3 p) ∧
    Counts smallLayout s 3 ∧ (KernelOp.free 3 p).exec smallLayout s = .ok t ∧
      ⟨slabOf 3 p, 3⟩ ∉ t.kernel.pages.live := by
  obtain ⟨s, p, F, V, hr, ho, hok, _⟩ :=
    one_object_out (P := onePool) (k := 3) (by decide) (by omega)
  have hp : p ∈ s.objs 3 := by rw [ho]; exact List.mem_singleton_self p
  obtain ⟨b, hb, hsb, _⟩ := hok.object (by omega) hp
  have hr : Reach (kernelSystem smallLayout onePool)
      (fun s i => KeepsPageLists smallLayout s i ∧ FrontHasCell s i) s :=
    hr.mono fun _ _ hi => ⟨by rw [hi.1]; trivial, hi.2⟩
  obtain ⟨hcount, _, hfree, _⟩ := empty_slabs_returned hr (by omega : 3 < 7)
  obtain ⟨t, he, ht⟩ := hfree p hp fun q hq _ => by
    rw [ho] at hq
    exact List.mem_singleton.mp hq
  exact ⟨s, p, t, ho, by rw [hsb]; exact (hok.ownsSlab_iff (by omega)).mpr hb, hcount, he, ht⟩

/-! ## A slab that is never returned -/

/-- An object of a slab that has been full is freed: the slab stays, whatever is left in it. -/
theorem KernelOk.free_marked (h : KernelOk P s F V) (hk : k < 7) (hb : b ∈ (V k).owned)
    (hm : (V k).marked b = true) (hp : p ∈ s.objs k) (hin : InPages ⟨b, k⟩ p)
    (hns : ¬ StopsInSlabs L s.kernel k b) :
    ∃ t F' V', (KernelOp.free k p).exec L s = .ok t ∧ KernelOk P t F' V' ∧ b ∈ (V' k).owned ∧
      (V' k).marked b = true ∧ (V' k).chain b ≠ [] ∧ t.objs k = (s.objs k).erase p := by
  obtain ⟨_, _, hsb, c, hc, hpc⟩ := h.object hk hp
  rw [h.slabOf_eq hk hb hin] at hsb
  subst hsb
  have hspec := h.free_spec hk hp
  rw [h.slabOf_eq hk hb hin] at hspec
  have hne : ¬ Empties s.kernel b := by
    rw [(h.slub k hk).empties_iff hk hb, hm]; simp
  rw [KernelOp.exec, h.slabOf_eq hk hb hin]
  cases hr : Memory.free L s.kernel k b p with
  | error e =>
    rw [hr] at hspec
    cases e with
    | slabList => exact absurd hspec hns
    | pageList => exact absurd hspec.1 hne
    | outOfFuel => exact hspec.elim
  | ok K =>
    rw [hr] at hspec
    obtain ⟨_, _, F', v', hF⟩ := hspec
    rw [hpc] at hF
    obtain ⟨hok', _⟩ := h.of_freed hk hb hc hF
    rw [← hpc] at hok'
    have hb' : b ∈ v'.owned := (hF.owned_iff b).mpr ⟨hb, fun hc => hne hc.2⟩
    refine ⟨_, F', _, rfl, hok', ?_⟩
    simp only [Function.update_self, hF.marked]
    refine ⟨hb', hm, fun hn => ?_, trivial⟩
    -- the cell just freed is on the chain
    have hcell := (hF.slub.cells.slab b hb').cells c hc
    rw [hn] at hcell
    exact (h.slub k hk).cells.nodup.not_mem_erase (hcell.mpr (by simp))

/-- All objects of a slab that has been full are freed, and the slab is still there. -/
theorem drain (hk : k < 7) (n : Nat) :
    ∀ {s : KernelState} {F : Nat → List Nat} {V : Nat → View},
      Reach (kernelSystem L P) (fun _ _ => True) s → KernelOk P s F V → b ∈ (V k).owned →
      (V k).marked b = true → (V k).chain b ≠ [] → (s.objs k).length = n →
      ∃ t, Reach (kernelSystem L P) (fun _ _ => True) t ∧ OwnsSlab L t k b ∧
        ∀ p ∈ t.objs k, ¬ InPages ⟨b, k⟩ p := by
  induction n with
  | zero =>
    intro s F V hr hok hb _ _ hn
    refine ⟨s, hr, (hok.ownsSlab_iff hk).mpr hb, fun p hp => ?_⟩
    rw [List.eq_nil_of_length_eq_zero hn] at hp; cases hp
  | succ n ih =>
    intro s F V hr hok hb hm hc hn
    by_cases hlive : ∃ p ∈ s.objs k, InPages ⟨b, k⟩ p
    · obtain ⟨p, hp, hin⟩ := hlive
      have hns : ¬ StopsInSlabs L s.kernel k b := fun hs =>
        hc (((hok.slub k hk).exhausted_iff hk hb).mp hs.1)
      obtain ⟨t, F', V', he, hok', hb', hm', hc', ho⟩ := hok.free_marked hk hb hm hp hin hns
      refine ih (hr.step (i := .free k p) ⟨hk, hp⟩ trivial ?_) hok' hb' hm' hc' ?_
      · simp only [kernelSystem, he]; rfl
      · rw [ho, List.length_erase_of_mem hp]; omega
    · exact ⟨s, hr, (hok.ownsSlab_iff hk).mpr hb, fun p hp hin => hlive ⟨p, hp, hin⟩⟩

/-- A slab that was full when `alloc` was called is still owned after all its objects are freed. -/
theorem full_slab_kept (hP : P.heads ≠ []) (hk : k < 7) :
    ∃ b t, Reach (kernelSystem L P) (fun _ _ => True) t ∧ OwnsSlab L t k b ∧
      ∀ p ∈ t.objs k, ¬ InPages ⟨b, k⟩ p := by
  obtain ⟨b, t, F', V', hrt, hok', hsl', rest, hv, hcf⟩ := full_slab_reachable hP hk
  have hrt : Reach (kernelSystem L P) (fun _ _ => True) t := hrt.mono fun _ _ _ => trivial
  have hbf : b ∈ (V' k).fs := by rw [hv]; exact List.mem_cons_self
  have hb : b ∈ (V' k).owned := List.mem_append_right _ hbf
  have hmk := ((hok'.slub k hk).full_marked b hbf).2
  -- its first object is freed from the full list
  have hns : ¬ StopsInSlabs L t.kernel k b := by
    rintro ⟨_, hf | hn⟩
    · exact hok'.front_not_listed hsl' hk hf ⟨_, (hsl' k hk).walks, hbf⟩
    · exact (hsl' k hk).not_lostNext hbf hn
  have hp := hok'.first_live hk hb hcf
  obtain ⟨u, F'', V'', heu, hok'', hb'', hm'', hc'', _⟩ :=
    hok'.free_marked hk hb hmk hp (cellAddr_inPages (by omega)) hns
  have hru : Reach (kernelSystem L P) (fun _ _ => True) u :=
    hrt.step (i := KernelOp.free k (cellAddr k b 0)) ⟨hk, hp⟩ trivial
      (by simp only [kernelSystem, heu]; rfl)
  obtain ⟨w, hw⟩ := drain hk _ hru hok'' hb'' hm'' hc'' rfl
  exact ⟨b, w, hw⟩

/-- 129 calls of `alloc` and 128 calls of `free` leave a slab without any live object. -/
theorem slab_never_returned :
    ¬ ∀ s, Reach (kernelSystem smallLayout onePool) (fun _ _ => True) s → ∀ k, k < 7 →
      ∀ b, OwnsSlab smallLayout s k b → ∃ p ∈ s.objs k, InPages ⟨b, k⟩ p := by
  intro h
  obtain ⟨b, t, hr, hown, hno⟩ := full_slab_kept (P := onePool) (k := 0) (by decide) (by decide)
  obtain ⟨p, hp, hin⟩ := h t hr 0 (by omega) b hown
  exact hno p hp hin

end Lists
end Memory
end TorexOS
