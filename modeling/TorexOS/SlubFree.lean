import TorexOS.SlubAlloc

/-!
# TorexOS.SlubFree

`SlubAllocator::free` of a live object under the invariant of one slab allocator.

* `StopsInSlabs`, `StopsInPages`: the states in which the call dereferences null. The slab is
  exhausted but has not been moved to the full list yet, or its next link there was lost; or the
  slab goes back to the page allocator and a merge there meets a lost link.
* `free_spec`: in all others the cell is free, and the slab is given back when its last object was
  freed, unless it has ever been full.
-/

namespace TorexOS
namespace Memory

open Util Util.ListBase Dyadic Packed FreeChain

/-- `free` finds the slab exhausted. -/
def Exhausted (K : Kernel) (b : Nat) : Prop := (K.pd b).freeOffset = cellNull

/-- `free` of an object of the slab gives the slab back. -/
def Empties (K : Kernel) (b : Nat) : Prop := ¬ Exhausted K b ∧ (K.pd b).inUse = 1#16

def StopsInSlabs (L : Layout) (K : Kernel) (k b : Nat) : Prop :=
  Exhausted K b ∧ ((K.slubs k).partialList.head = some b ∨
    LostNext (slubBlock L) K.pd (K.slubs k).fullList b)

def StopsInPages (L : Layout) (K : Kernel) (k b : Nat) : Prop :=
  Empties K b ∧ OnMerge (LostNext (freeBlock L)) K.pages.mem b k

/-- `free` removes the last slab of a full list of three or more. -/
def CutsFull (L : Layout) (K : Kernel) (k b : Nat) : Prop :=
  Exhausted K b ∧ CutsBack (slubBlock L) K.pd (K.slubs k).fullList b

/-- `free` gives the slab back, and a merge removes the last buddy of a list of three or more. -/
def CutsPages (L : Layout) (K : Kernel) (k b : Nat) : Prop :=
  Empties K b ∧ OnMerge (CutsBack (freeBlock L)) K.pages.mem b k

/-- What `free` of the object `p` of the slab `b` leaves when it returns. -/
structure CellFreed {L : Layout} (P : Pool L) (k : Nat) (K : Kernel) (F : Nat → List Nat)
    (v : View) (objs : List Nat) (b p : Nat) (K' : Kernel) (F' : Nat → List Nat) (v' : View) :
    Prop where
  pages : BuddyOk P K'.pages F'
  slub : SlubOk L K' k v' (objs.erase p)
  slubs : ∀ j, j ≠ k → K'.slubs j = K.slubs j
  pd : ∀ d ∈ K.pages.live, d.head ∉ v.owned → K'.pd d.head = K.pd d.head
  ram : ∀ x, x < p ∨ p + 4 ≤ x → K'.ram x = K.ram x
  linked : AllLinked L K.pages.mem F → ¬ CutsPages L K k b → AllLinked L K'.pages.mem F'
  full : FullLinked L K k v → ¬ CutsFull L K k b → FullLinked L K' k v'
  cut : CutsFull L K k b → ∃ a d rest, v'.fs = a :: d :: rest ∧
    (slubBlock L).getNext K'.pd a = none
  owned_iff : ∀ d, d ∈ v'.owned ↔ d ∈ v.owned ∧ ¬ (d = b ∧ Empties K b)
  live_iff : ∀ d, d ∈ K'.pages.live ↔ d ∈ K.pages.live ∧ ¬ (d = ⟨b, k⟩ ∧ Empties K b)
  unmarked : v.Unmarked → v'.Unmarked
  used : v.Used → v'.Used
  marked : v'.marked = v.marked

/-- How `free` ends. -/
def FreeSpec {L : Layout} (P : Pool L) (k : Nat) (K : Kernel) (F : Nat → List Nat) (v : View)
    (objs : List Nat) (b p : Nat) : Except Fault Kernel → Prop
  | .error .slabList => StopsInSlabs L K k b
  | .error .pageList => StopsInPages L K k b
  | .error .outOfFuel => False
  | .ok K' => ¬ StopsInSlabs L K k b ∧ ¬ StopsInPages L K k b ∧
      ∃ F' v', CellFreed P k K F v objs b p K' F' v'

section Free

variable {L : Layout} {P : Pool L} {K : Kernel} {F : Nat → List Nat} {k b c : Nat} {v : View}
variable {objs : List Nat}

theorem freeInOneblock_ram (K : Kernel) (b p : Nat) :
    (freeInOneblock K b p).ram = store32 K.ram p (K.pd b).freeOffset := rfl

/-- `free_in_oneblock` leaves the links and all other descriptors. -/
theorem freeInOneblock_within (K : Kernel) (k b c : Nat) :
    Within (· = b) K.pd (freeInOneblock K b (cellAddr k b c)).pd ∧
      LinksKept K.pd (freeInOneblock K b (cellAddr k b c)).pd := by
  rw [freeInOneblock_pd]
  exact ⟨(Within.modify (by simp) (by simp)).trans (Within.modify (by simp) (by simp)),
    (LinksKept.modify (by simp) (by simp)).trans (LinksKept.modify (by simp) (by simp))⟩

theorem freeInOneblock_inUse (K : Kernel) (k b c : Nat) :
    ((freeInOneblock K b (cellAddr k b c)).pd b).inUse = (K.pd b).inUse - 1 := by
  rw [freeInOneblock_pd]; simp

theorem lostNext_linksKept {pd pd' : PdTable} {l : ListBase Nat} (h : LinksKept pd pd') :
    LostNext (slubBlock L) pd' l b ↔ LostNext (slubBlock L) pd l b := by
  simp only [LostNext, slubBlock, (h b).1]

theorem SlubOk.exhausted_iff (h : SlubOk L K k v objs) (hk : k < 7) (hb : b ∈ v.owned) :
    Exhausted K b ↔ v.chain b = [] := (h.cells.slab b hb).exhausted_iff hk

/-- A slab with a free cell is on the partial list. -/
theorem SlubOk.mem_ps (h : SlubOk L K k v objs) (hb : b ∈ v.owned) (hc : v.chain b ≠ []) :
    b ∈ v.ps := by
  rcases List.mem_append.mp hb with hb | hb
  · exact hb
  · exact absurd (h.full_marked b hb).1 hc

/-- A slab that has never been full is the first of the partial list, and so is an exhausted slab
that is not on the full list. -/
theorem SlubOk.front_of (h : SlubOk L K k v objs) (hb : b ∈ v.ps)
    (hx : v.chain b = [] ∨ v.marked b = false) : ∃ rest, v.ps = b :: rest := by
  rcases hv : v.ps with _ | ⟨d, rest⟩
  · rw [hv] at hb; cases hb
  · rw [hv] at hb
    rcases List.mem_cons.mp hb with rfl | hb
    · exact ⟨rest, rfl⟩
    · obtain ⟨h1, h2⟩ := h.rest b (by rw [hv]; exact hb)
      rcases hx with hx | hx
      · exact absurd hx h1
      · rw [hx] at h2; cases h2

/-- The slab is given back when its last object is freed, unless it has ever been full. -/
theorem SlubOk.empties_iff (h : SlubOk L K k v objs) (hk : k < 7) (hb : b ∈ v.owned) :
    Empties K b ↔ v.marked b = false ∧ (v.chain b).length = 127 := by
  have hs := h.cells.slab b hb
  have hlen := hs.length_le
  have hle := useTop_le (v.marked b)
  rw [Empties, h.exhausted_iff hk hb, hs.inUse, ← BitVec.toNat_inj, BitVec.toNat_ofNat,
    Nat.mod_eq_of_lt (by omega)]
  rw [show (1#16).toNat = 1 from rfl]
  rcases hm : v.marked b
  · rw [hm] at hle
    simp only [useTop, Bool.false_eq_true, if_false, true_and]
    constructor
    · rintro ⟨_, he⟩; omega
    · intro he
      refine ⟨fun hn => ?_, by omega⟩
      rw [hn] at he; cases he
  · simp only [useTop, if_true, Bool.true_eq_false, false_and, iff_false, not_and]
    intro _; omega

/-- The part of `free` that all branches share: the cell goes back to its slab. -/
theorem give_spec (hB : BuddyOk P K.pages F) (h : SlubOk L K k v objs) (hb : b ∈ v.owned)
    (hc : c < 128) (hp : cellAddr k b c ∈ objs) :
    ∃ K1, freeInOneblock K b (cellAddr k b c) = K1 ∧ K1.pages = (K.withPd K1.pd).pages ∧
      K1.slubs = K.slubs ∧ Within (· ∈ v.owned) K.pd K1.pd ∧ LinksKept K.pd K1.pd ∧
      (K1.pd b).inUse = (K.pd b).inUse - 1 ∧
      (∀ x, x < cellAddr k b c ∨ cellAddr k b c + 4 ≤ x → K1.ram x = K.ram x) ∧
      Cells L K1 k (· ∈ v.owned) (Function.update v.chain b (c :: v.chain b)) v.marked
        (objs.erase (cellAddr k b c)) := by
  obtain ⟨hw, hl⟩ := freeInOneblock_within K k b c
  refine ⟨_, rfl, rfl, rfl, hw.mono fun i hi => hi ▸ hb, hl, freeInOneblock_inUse K k b c,
    fun x hx => ?_, h.cells.give hB hb hc hp⟩
  rw [freeInOneblock_ram]
  exact store32_outside _ (by omega)

/-- What a call of `free` that keeps the slab leaves. -/
theorem SlubOk.cellFreed {K' : Kernel} {pd' : PdTable} {v' : View} {p : Nat}
    (h : SlubOk L K k v objs) (hB : BuddyOk P K.pages F) (hne : ¬ Empties K b)
    (hpg : K'.pages = (K.withPd pd').pages) (hw : Within (· ∈ v.owned) K.pd pd')
    (hs : ∀ j, j ≠ k → K'.slubs j = K.slubs j)
    (hram : ∀ x, x < p ∨ p + 4 ≤ x → K'.ram x = K.ram x)
    (hslub : SlubOk L K' k v' (objs.erase p)) (hown : ∀ a, a ∈ v'.owned ↔ a ∈ v.owned)
    (hmk : v'.marked = v.marked)
    (hfull : FullLinked L K k v → ¬ CutsFull L K k b → FullLinked L K' k v')
    (hcut : CutsFull L K k b → ∃ a d rest, v'.fs = a :: d :: rest ∧
      (slubBlock L).getNext K'.pd a = none)
    (hused : v.Used → v'.Used) : CellFreed P k K F v objs b p K' F v' where
  pages := by rw [hpg]; exact hB.withPd hw h.owned_live
  slub := hslub
  slubs := hs
  pd d _ hn := by rw [Kernel.pd, hpg]; exact hw.outside _ hn
  ram := hram
  linked hl _ := by rw [hpg]; exact hB.linked_withPd hw h.owned_live hl
  full := hfull
  cut := hcut
  owned_iff d := (hown d).trans ⟨fun hd => ⟨hd, fun hc => hne hc.2⟩, fun hd => hd.1⟩
  live_iff d := by
    rw [hpg]
    exact ⟨fun hd => ⟨hd, fun hc => hne hc.2⟩, fun hd => hd.1⟩
  unmarked hm d hd := by rw [hmk]; exact hm d ((hown d).mp hd)
  used := hused
  marked := hmk

/-! ## The lists after a call -/

/-- The slab `b` goes from the full list to the end of the partial list. -/
def View.reopen (v : View) (b : Nat) (cs : List Nat) : View :=
  ⟨v.ps ++ [b], v.fs.erase b, Function.update v.chain b cs, v.marked⟩

theorem View.reopen_owned (cs : List Nat) (hb : b ∈ v.fs) :
    (v.reopen b cs).owned.Perm v.owned := by
  have hp : (b :: v.fs.erase b).Perm v.fs := (List.perm_cons_erase hb).symm
  rw [View.owned, View.owned, View.reopen, List.append_assoc]
  exact hp.append_left v.ps

theorem SlubOk.reopen_full (h : SlubOk L K k v objs) (cs : List Nat) :
    ∀ d ∈ (v.reopen b cs).fs, (v.reopen b cs).chain d = [] ∧ (v.reopen b cs).marked d = true := by
  intro d hd
  have hdb : d ≠ b := by rintro rfl; exact h.full.nodup.not_mem_erase hd
  simp only [View.reopen, Function.update_of_ne hdb]
  exact h.full_marked d (List.mem_of_mem_erase hd)

theorem SlubOk.reopen_rest {cs : List Nat} (h : SlubOk L K k v objs) (hb : b ∈ v.fs)
    (hcs : cs ≠ []) : ∀ d ∈ (v.reopen b cs).ps.tail,
      (v.reopen b cs).chain d ≠ [] ∧ (v.reopen b cs).marked d = true := by
  intro d hd
  by_cases hdb : d = b
  · simp only [View.reopen, hdb, Function.update_self]
    exact ⟨hcs, (h.full_marked b hb).2⟩
  · simp only [View.reopen, Function.update_of_ne hdb]
    refine h.rest d ?_
    rcases hps : v.ps with _ | ⟨a, rest⟩
    · rw [View.reopen, hps] at hd; simp at hd
    · rw [View.reopen, hps] at hd
      simp only [List.cons_append, List.tail_cons, List.mem_append, List.mem_singleton] at hd ⊢
      exact hd.resolve_right hdb

/-- The slab in front of the partial list leaves it. -/
def View.release (v : View) (b : Nat) (rest cs : List Nat) : View :=
  ⟨rest, v.fs, Function.update v.chain b cs, v.marked⟩

theorem SlubOk.release_owned {rest : List Nat} (h : SlubOk L K k v objs) (hv : v.ps = b :: rest)
    (cs : List Nat) : (v.release b rest cs).owned.Nodup ∧
      ∀ d, d ∈ (v.release b rest cs).owned ↔ d ∈ v.owned ∧ d ≠ b := by
  have hn := h.nodup
  have ho : v.owned = b :: (v.release b rest cs).owned := by
    rw [View.owned, hv]; rfl
  rw [ho, List.nodup_cons] at hn
  refine ⟨hn.2, fun d => ?_⟩
  rw [ho, List.mem_cons]
  by_cases hdb : d = b
  · simp [hdb, hn.1]
  · simp [hdb]

/-! ## An exhausted slab -/

theorem free_front (hB : BuddyOk P K.pages F) (h : SlubOk L K k v objs) (hk : k < 7)
    (hb : b ∈ v.ps) (hx : v.chain b = []) (hc : c < 128) (hp : cellAddr k b c ∈ objs) :
    free L K k b (cellAddr k b c) = .error .slabList ∧ StopsInSlabs L K k b := by
  have hbo : b ∈ v.owned := List.mem_append_left _ hb
  obtain ⟨rest, hv⟩ := h.front_of hb (.inl hx)
  have hex : Exhausted K b := (h.exhausted_iff hk hbo).mpr hx
  have hhead : (K.slubs k).partialList.head = some b := by rw [h.part.head, hv]; rfl
  obtain ⟨K1, he, _, hsl, _, hl, _⟩ := give_spec hB h hbo hc hp
  have hfull := Threaded.of_linksKept h.full hl
  have hbf : b ∉ v.fs := h.not_full b hb
  -- the first slab of the partial list has no prev link to join
  have hprev : (slubBlock L).getPrev K1.pd b = none :=
    (Linked.of_linksKept h.part hl).first b (by rw [hv]; rfl)
  have hpop := popNode_eq_none_of_not_mem hfull hbf hprev
  refine ⟨?_, hex, .inl hhead⟩
  rw [free, if_pos (show (K.pd b).freeOffset = cellNull from hex)]
  simp only [he, hsl, hpop]

theorem free_full (hB : BuddyOk P K.pages F) (h : SlubOk L K k v objs) (hk : k < 7)
    (hb : b ∈ v.fs) (hc : c < 128) (hp : cellAddr k b c ∈ objs) :
    FreeSpec P k K F v objs b (cellAddr k b c) (free L K k b (cellAddr k b c)) := by
  have hbo : b ∈ v.owned := List.mem_append_right _ hb
  obtain ⟨hx, hmk⟩ := h.full_marked b hb
  have hex : Exhausted K b := (h.exhausted_iff hk hbo).mpr hx
  have hne : ¬ Empties K b := fun he => he.1 hex
  have hpf := h.not_full
  have hbp : b ∉ v.ps := fun hbp => hpf b hbp hb
  have hnhead : (K.slubs k).partialList.head ≠ some b := by
    rw [h.part.head]; exact fun hc => hbp (List.mem_of_mem_head? hc)
  have hst : (slubBlock L).Storable b := hB.inv.head_lt (.inr (h.cells.held b hbo))
  obtain ⟨K1, he, hpg, hsl, hw1, hl1, _, hram, hcells⟩ := give_spec hB h hbo hc hp
  have hfull := Threaded.of_linksKept h.full hl1
  rw [free, if_pos (show (K.pd b).freeOffset = cellNull from hex)]
  simp only [he, hsl]
  cases hpop : popNode (slubBlock L) K1.pd (K.slubs k).fullList b with
  | none =>
    rw [popNode_eq_none_iff_lostNext hfull hb, lostNext_linksKept hl1] at hpop
    exact ⟨hex, .inr hpop⟩
  | some r =>
    obtain ⟨pd2, l2⟩ := r
    have hnl : ¬ LostNext (slubBlock L) K.pd (K.slubs k).fullList b := by
      rw [← lostNext_linksKept hl1, ← popNode_eq_none_iff_lostNext hfull hb, hpop]; simp
    obtain ⟨ht2, hw2⟩ := popNode_threaded hfull hb hpop
    obtain ⟨hin2, hss2⟩ := slub_writes hw2
    have hpart2 : Linked (slubBlock L) pd2 (K.slubs k).partialList v.ps :=
      Linked.of_within (Linked.of_linksKept h.part hl1) hin2 hpf
    -- partial.push_back_node(block)
    obtain ⟨pd3, l3, he3, _, hl3, hw3⟩ := pushBackNode_threaded hpart2.toThreaded hbp hst
    obtain ⟨hin3, hss3⟩ := slub_writes hw3
    have hfull3 : Threaded (slubBlock L) pd3 l2 (v.fs.erase b) :=
      Threaded.of_within ht2 hin3 fun a ha hm => by
        rcases List.mem_cons.mp hm with rfl | hm
        · exact hfull.nodup.not_mem_erase ha
        · exact hpf a hm (List.mem_of_mem_erase ha)
    have hw : Within (· ∈ v.owned) K.pd pd3 := by
      refine (hw1.trans (hin2.mono fun a ha => List.mem_append_right _ ha)).trans
        (hin3.mono fun a ha => ?_)
      rcases List.mem_cons.mp ha with rfl | ha
      · exact hbo
      · exact List.mem_append_left _ ha
    have hperm := View.reopen_owned (c :: v.chain b) hb
    have hown : ∀ d, d ∈ (v.reopen b (c :: v.chain b)).owned ↔ d ∈ v.owned := fun _ => hperm.mem_iff
    have hfun : (· ∈ (v.reopen b (c :: v.chain b)).owned) = (· ∈ v.owned) :=
      funext fun a => propext (hown a)
    obtain ⟨K3, hK3⟩ : ∃ K3, K3 = (K1.setFull k (pd2, l2)).setPartial k (pd3, l3) := ⟨_, rfl⟩
    have hpd3 : K3.pd = pd3 := by rw [hK3]; rfl
    have hram3 : K3.ram = K1.ram := by rw [hK3]; rfl
    have hpg3 : K3.pages = (K.withPd pd3).pages := by
      rw [hK3, Kernel.setPartial_pages, Kernel.withPd, Kernel.setFull_pages, Kernel.withPd, hpg]; rfl
    have hslubs3 : K3.slubs = Function.update K.slubs k ⟨l3, l2, cellSize k⟩ := by
      rw [hK3, Kernel.setPartial_slubs, Kernel.setFull_slubs, Function.update_idem,
        Function.update_self, hsl, ← h.size]
    have hk3 : K3.slubs k = ⟨l3, l2, cellSize k⟩ := by rw [hslubs3, Function.update_self]
    have hcells3 : Cells L K3 k (· ∈ v.owned) (Function.update v.chain b (c :: v.chain b))
        v.marked (objs.erase (cellAddr k b c)) :=
      hcells.frame (fun d hd => by rw [hpg3]; exact h.cells.held d hd)
        (fun d _ => by
          rw [hpd3]
          exact (hss2 d).trans (hss3 d))
        fun _ _ _ _ => by rw [hram3]
    simp only [Kernel.setFull_pd, Kernel.setFull_slubs, Function.update_self, hsl, he3]
    refine ⟨fun hs => ?_, fun hs => hne hs.1, F, v.reopen b (c :: v.chain b), ?_⟩
    · rcases hs.2 with hs | hs
      · exact hnhead hs
      · exact hnl hs
    rw [← hK3]
    refine h.cellFreed hB hne hpg3 hw (fun j hj => by rw [hslubs3, Function.update_of_ne hj])
      (fun x hx => by rw [hram3]; exact hram x hx)
      ⟨by rw [hk3], ?_, ?_, hperm.nodup_iff.mpr h.nodup, h.reopen_full _,
        h.reopen_rest hb (List.cons_ne_nil _ _), ?_⟩ hown rfl
      (fun hf hcut => ?_) (fun hcut => ?_) fun hu d hd hm => ?_
    · rw [hk3, hpd3]; exact hl3 hpart2
    · rw [hk3, hpd3]; exact hfull3
    · rw [hfun]; exact hcells3
    · -- the full list keeps its next links unless its last slab was removed
      have hx : v.fs.length ≤ 2 ∨ v.fs.getLast? ≠ some b := by
        by_contra hno
        rw [not_or, not_le, not_not] at hno
        exact hcut ⟨hex, h.full.cutsBack_iff.mpr ⟨hno.1, hno.2⟩⟩
      obtain ⟨m', l', hpop', hlk⟩ := popNode_linked (Linked.of_linksKept hf hl1) hb hx
      rw [hpop] at hpop'; cases hpop'
      rw [FullLinked, hk3, hpd3]
      exact Linked.of_within hlk hin3 fun a ha hm => by
        rcases List.mem_cons.mp hm with rfl | hm
        · exact hfull.nodup.not_mem_erase ha
        · exact hpf a hm (List.mem_of_mem_erase ha)
    · obtain ⟨hlen, hlast⟩ := h.full.cutsBack_iff.mp hcut.2
      obtain ⟨a, d, rest, hfs, _, hn⟩ := popNode_cut hfull hlen hlast hpop
      refine ⟨a, d, rest, hfs, ?_⟩
      have ha : a ∈ v.fs.erase b := by rw [hfs]; simp
      have hpa : pd3 a = pd2 a := hin3.outside a fun hm => by
        rcases List.mem_cons.mp hm with rfl | hm
        · exact hfull.nodup.not_mem_erase ha
        · exact hpf a hm (List.mem_of_mem_erase ha)
      simp only [slubBlock, hpd3, hpa] at hn ⊢
      exact hn
    · have hdb : d ≠ b := by
        rintro rfl
        exact absurd (hmk.symm.trans hm) (by decide)
      simp only [View.reopen, Function.update_of_ne hdb]
      exact hu d ((hown d).mp hd) hm

/-! ## A slab with a free cell -/

theorem inUse_pred {n : BitVec 16} : n - 1 = 0 ↔ n = 1#16 := by
  constructor
  · intro h
    rw [← BitVec.sub_add_cancel n 1, h]; rfl
  · rintro rfl; rfl

theorem free_keep (hB : BuddyOk P K.pages F) (h : SlubOk L K k v objs) (hk : k < 7)
    (hb : b ∈ v.owned) (hx : v.chain b ≠ []) (hne : ¬ Empties K b) (hc : c < 128)
    (hp : cellAddr k b c ∈ objs) :
    FreeSpec P k K F v objs b (cellAddr k b c) (free L K k b (cellAddr k b c)) := by
  have hnx : ¬ Exhausted K b := by rw [h.exhausted_iff hk hb]; exact hx
  obtain ⟨K1, he, hpg, hsl, hw, hl, hu, hram, hcells⟩ := give_spec hB h hb hc hp
  have huse : ¬ (K1.pd b).inUse = 0 := by
    rw [hu, inUse_pred]; exact fun hz => hne ⟨hnx, hz⟩
  have hbf : ∀ d ∈ v.fs, d ≠ b := by rintro d hd rfl; exact hx (h.full_marked d hd).1
  rw [free, if_neg (show ¬ (K.pd b).freeOffset = cellNull from hnx)]
  simp only [he]
  rw [if_neg huse]
  refine ⟨fun hs => hnx hs.1, fun hs => hne hs.1, F,
    { v with chain := Function.update v.chain b (c :: v.chain b) },
    h.cellFreed hB hne hpg hw (fun j _ => by rw [hsl]) hram ⟨by rw [hsl]; exact h.size,
      by rw [hsl]; exact Linked.of_linksKept h.part hl,
      by rw [hsl]; exact Threaded.of_linksKept h.full hl, h.nodup, fun d hd => ?_, fun d hd => ?_,
      hcells⟩ (fun _ => Iff.rfl) rfl (fun hf _ => ?_) (fun hcut => absurd hcut.1 hnx)
      fun hu' d hd hm => ?_⟩
  · simp only [Function.update_of_ne (hbf d hd)]
    exact h.full_marked d hd
  · by_cases hdb : d = b
    · subst hdb
      simp only [Function.update_self]
      exact ⟨List.cons_ne_nil _ _, (h.rest d hd).2⟩
    · simp only [Function.update_of_ne hdb]
      exact h.rest d hd
  · rw [FullLinked, hsl]; exact Linked.of_linksKept hf hl
  · by_cases hdb : d = b
    · -- the slab is not given back, so another of its cells is live
      subst hdb
      have hlt := hu' d hd hm
      rw [h.empties_iff hk hd] at hne
      simp only [Function.update_self, List.length_cons]
      have : (v.chain d).length ≠ 127 := fun hc => hne ⟨hm, hc⟩
      omega
    · simp only [Function.update_of_ne hdb]
      exact hu' d hd hm

/-- A slab all of whose cells are free leaves the allocator. -/
theorem Cells.remove {own : Nat → Prop} {chain : Nat → List Nat} {marked : Nat → Bool}
    (h : Cells L K k own chain marked objs) (hb : own b) (hlen : (chain b).length = 128) :
    Cells L K k (fun d => own d ∧ d ≠ b) chain marked objs := by
  refine ⟨fun d hd => h.held d hd.1, fun d hd => h.slab d hd.1, fun p hp => ?_, h.nodup⟩
  obtain ⟨d, hd, c, hc, rfl⟩ := h.located p hp
  refine ⟨d, ⟨hd, ?_⟩, c, hc, rfl⟩
  rintro rfl
  have hs := h.slab d hd
  have := hs.length_lt hc ((hs.cells c hc).mp hp)
  omega

theorem free_empty (hB : BuddyOk P K.pages F) (h : SlubOk L K k v objs) (hk : k < 7)
    (hb : b ∈ v.owned) (hem : Empties K b) (hc : c < 128) (hp : cellAddr k b c ∈ objs) :
    FreeSpec P k K F v objs b (cellAddr k b c) (free L K k b (cellAddr k b c)) := by
  have hnx : ¬ Exhausted K b := hem.1
  have hx : v.chain b ≠ [] := by rw [ne_eq, ← h.exhausted_iff hk hb]; exact hnx
  obtain ⟨hmk, hlen⟩ := (h.empties_iff hk hb).mp hem
  have hbp := h.mem_ps hb hx
  obtain ⟨rest, hv⟩ := h.front_of hbp (.inr hmk)
  have hpf := h.not_full
  obtain ⟨K1, he, hpg, hsl, hw1, hl1, hu, hram, hcells⟩ := give_spec hB h hb hc hp
  have huse : (K1.pd b).inUse = 0 := by rw [hu, inUse_pred]; exact hem.2
  -- partial.pop_node(block): the slab is in front
  have hpart1 := Linked.of_linksKept h.part hl1
  rw [hv] at hpart1
  obtain ⟨pd2, l2, hpop, hl2⟩ := popFrontNode_linked hpart1
  have hw2 := (popFrontNode_threaded hpart1.toThreaded hpop).2
  rw [List.tail_cons] at hl2
  rw [← popNode_front hpart1.toThreaded] at hpop
  obtain ⟨hin2, hss2⟩ := slub_writes hw2
  have hw : Within (· ∈ v.owned) K.pd pd2 := hw1.trans (hin2.mono fun a ha => by
    rw [View.owned, hv]; exact List.mem_append_left _ ha)
  obtain ⟨K2, hK2⟩ : ∃ K2, K2 = K1.setPartial k (pd2, l2) := ⟨_, rfl⟩
  have hpd2 : K2.pd = pd2 := by rw [hK2]; rfl
  have hram2 : K2.ram = K1.ram := by rw [hK2]; rfl
  have hpg2 : K2.pages = (K.withPd pd2).pages := by
    rw [hK2, Kernel.setPartial_pages, Kernel.withPd, hpg]; rfl
  have hslubs2 : K2.slubs = Function.update K.slubs k ⟨l2, (K.slubs k).fullList, cellSize k⟩ := by
    rw [hK2, Kernel.setPartial_slubs, hsl, ← h.size]
  have hfull2 : Threaded (slubBlock L) pd2 (K.slubs k).fullList v.fs :=
    Threaded.of_within (Threaded.of_linksKept h.full hl1) hin2 fun a ha hm =>
      hpf a (by rw [hv]; exact hm) ha
  have hB2 : BuddyOk P K2.pages F := by rw [hpg2]; exact hB.withPd hw h.owned_live
  have hbl : (⟨b, k⟩ : Block) ∈ K2.pages.live := by rw [hpg2]; exact h.cells.held b hb
  have hcells2 : Cells L K2 k (· ∈ v.owned) (Function.update v.chain b (c :: v.chain b)) v.marked
      (objs.erase (cellAddr k b c)) :=
    hcells.frame (fun d hd => by rw [hpg2]; exact h.cells.held d hd)
      (fun d _ => by rw [hpd2]; exact hss2 d) fun _ _ _ _ => by rw [hram2]
  have hcells2' := hcells2.remove hb (by rw [Function.update_self, List.length_cons, hlen])
  -- free_pages
  have hspec := hB2.freePages_spec hbl
  simp only [hpg2] at hspec
  rw [free, if_neg (show ¬ (K.pd b).freeOffset = cellNull from hnx)]
  simp only [he]
  rw [if_pos huse, hsl, hpop]
  simp only [← hK2, hpg2]
  have hlost := hB.onMerge_withPd (b := b) (o := k) hw h.owned_live
    (BuddyInv.local_lostNext (L := L))
  have hcutIff := hB.onMerge_withPd (b := b) (o := k) hw h.owned_live
    (BuddyInv.local_cutsBack (L := L))
  match hf : freePages L (K.withPd pd2).pages b with
  | none =>
    rw [hf] at hspec
    exact ⟨hem, hlost.mp hspec⟩
  | some t =>
    rw [hf] at hspec
    obtain ⟨hnl, F', hR⟩ := hspec
    have hnodup : K.pages.live.Nodup := hB.inv.held_nodup
    have hlive : ∀ d, d ∈ t.live ↔ d ≠ ⟨b, k⟩ ∧ d ∈ K.pages.live := fun d => by
      rw [hR.live]; exact hnodup.mem_erase_iff
    obtain ⟨hnd, hown⟩ := h.release_owned hv (c :: v.chain b)
    have hfun : (· ∈ (v.release b rest (c :: v.chain b)).owned) = fun d => d ∈ v.owned ∧ d ≠ b :=
      funext fun a => propext (hown a)
    have hpd3 : ∀ d ∈ K.pages.live, d ≠ ⟨b, k⟩ → t.mem.pd d.head = pd2 d.head := by
      intro d hd hdb
      exact hR.frame d (hnodup.mem_erase_iff.mpr ⟨hdb, hd⟩)
    have hpd3o : ∀ d ∈ v.owned, d ≠ b → t.mem.pd d = pd2 d := fun d hd hdb =>
      hpd3 ⟨d, k⟩ (h.cells.held d hd) (Cells.ne_block hdb)
    have hrest : ∀ d ∈ rest, d ∈ v.owned ∧ d ≠ b := fun d hd =>
      (hown d).mp (List.mem_append_left _ hd)
    have hfs : ∀ d ∈ v.fs, d ∈ v.owned ∧ d ≠ b := fun d hd =>
      (hown d).mp (List.mem_append_right _ hd)
    refine ⟨fun hs => hnx hs.1, fun hs => hnl (hlost.mpr hs.2), F',
      v.release b rest (c :: v.chain b), hR.ok, ⟨?_, ?_, ?_, hnd, ?_, ?_, ?_⟩,
      fun j hj => by simp only [hslubs2, Function.update_of_ne hj], fun d hd hn => ?_,
      fun x hx => by simp only [hram2]; exact hram x hx, fun hl hcp => ?_, fun hfl _ => ?_,
      fun hcut => absurd hcut.1 hnx, fun d => ?_, fun d => ?_,
      fun hm d hd => hm d ((hown d).mp hd).1, fun hu' d hd hm => ?_, rfl⟩
    · simp only [hslubs2, Function.update_self]
    · simp only [hslubs2, Function.update_self]
      exact Linked.of_pd_eq hl2 fun a ha => hpd3o a (hrest a ha).1 (hrest a ha).2
    · simp only [hslubs2, Function.update_self]
      exact Threaded.of_pd_eq hfull2 fun a ha => hpd3o a (hfs a ha).1 (hfs a ha).2
    · intro d hd
      simp only [View.release, Function.update_of_ne (hfs d hd).2]
      exact h.full_marked d hd
    · intro d hd
      have hdr := List.mem_of_mem_tail hd
      simp only [View.release, Function.update_of_ne (hrest d hdr).2]
      exact h.rest d (by rw [hv]; exact hdr)
    · rw [hfun]
      refine hcells2'.frame (fun d hd => (hlive _).mpr ⟨Cells.ne_block hd.2, h.cells.held d hd.1⟩)
        (fun d hd => ?_) fun _ _ _ _ => rfl
      simp only [Kernel.pd, hpd3o d hd.1 hd.2]
      rw [show K2.pages.mem.pd d = pd2 d from congrFun hpd2 d]
      exact .rfl
    · have hdb : d ≠ ⟨b, k⟩ := by rintro rfl; exact hn hb
      exact (hpd3 d hd hdb).trans (hw.outside _ hn)
    · refine hR.linked (hB.linked_withPd hw h.owned_live hl) fun hm => hcp ⟨hem, hcutIff.mp hm⟩
    · rw [FullLinked]
      simp only [hslubs2, Function.update_self]
      have hfl2 : Linked (slubBlock L) pd2 (K.slubs k).fullList v.fs :=
        Linked.of_within (Linked.of_linksKept hfl hl1) hin2 fun a ha hm =>
          hpf a (by rw [hv]; exact hm) ha
      exact Linked.of_pd_eq hfl2 fun a ha => hpd3o a (hfs a ha).1 (hfs a ha).2
    · rw [hown]
      exact and_congr_right fun _ => ⟨fun hd hc => hd hc.1, fun hd hc => hd ⟨hc, hem⟩⟩
    · simp only [hlive]
      exact ⟨fun hd => ⟨hd.2, fun hc => hd.1 hc.1⟩, fun hd => ⟨fun hc => hd.2 ⟨hc, hem⟩, hd.1⟩⟩
    · obtain ⟨hdo, hdb⟩ := (hown d).mp hd
      simp only [View.release, Function.update_of_ne hdb]
      exact hu' d hdo hm

/-- `free` of a live object. -/
theorem free_spec (hB : BuddyOk P K.pages F) (h : SlubOk L K k v objs) (hk : k < 7)
    (hb : b ∈ v.owned) (hc : c < 128) (hp : cellAddr k b c ∈ objs) :
    FreeSpec P k K F v objs b (cellAddr k b c) (free L K k b (cellAddr k b c)) := by
  by_cases hx : v.chain b = []
  · rcases List.mem_append.mp hb with hbp | hbf
    · obtain ⟨he, hs⟩ := free_front hB h hk hbp hx hc hp
      rw [he]; exact hs
    · exact free_full hB h hk hbf hc hp
  · by_cases hem : Empties K b
    · exact free_empty hB h hk hb hem hc hp
    · exact free_keep hB h hk hb hx hem hc hp

end Free
end Memory
end TorexOS
