import TorexOS.Mm
import TorexOS.PagesKma

/-!
# TorexOS.Kmalloc

Runs of `kmalloc` and `kfree`, and what `kmalloc` returns.

* `mmSystem`: any calls of `kmalloc`, `kfree`, `alloc_pages` and `free_pages` in any order, with
  writes to what is handed out.
* `mm_reach`: a run in which no request above 2048 bytes finds a free block is a run of the slab
  allocators, whose live objects are the live allocations.
* `kmalloc_right_iff`: in the states of such runs `kmalloc` returns null or private memory exactly
  when the request is small and the page allocator does not stop, or no block is free for it.
-/

namespace TorexOS
namespace Memory

open Util Util.ListBase Dyadic Packed FreeChain Transition

/-- What `kmalloc` returned, and the size it was called with. -/
structure Allocation where
  ptr : Nat
  size : Nat
  deriving DecidableEq

/-- The bytes the caller may use. -/
def Allocation.Has (a : Allocation) (x : Nat) : Prop := a.ptr ≤ x ∧ x < a.ptr + a.size

/-- The index into `slubs` that `kmalloc` computes. -/
def sizeIndex (size : Nat) : Nat := ilog2 (max 32 size - 1) - ilog2 (32 - 1)

/-- The kernel, the page blocks of other clients of `alloc_pages`, and the live allocations. -/
structure MmState where
  kernel : Kernel
  held : List Block
  allocs : List Allocation

inductive MmOp where
  | kmalloc (size : Nat)
  | kfree (a : Allocation)
  | allocPages (pt : PageType) (order : Nat)
  | freePages (b : Block)
  | write (x : Nat) (v : BitVec 8)
  deriving DecidableEq

def MmOp.Legal (s : MmState) : MmOp → Prop
  | .kmalloc size => 1 ≤ size ∧ size ≤ 2 * 1024 * 1024
  | .kfree a => a ∈ s.allocs
  | .allocPages pt _ => pt ≠ .free ∧ pt ≠ .tails
  | .freePages b => b ∈ s.held
  | .write x _ => (∃ b ∈ s.held, InPages b x) ∨ ∃ a ∈ s.allocs, a.Has x

def MmOp.exec (L : Layout) (s : MmState) : MmOp → Except Stop MmState
  | .kmalloc size =>
    match Memory.kmalloc L s.kernel size with
    | .error e => .error e
    | .ok (none, K) => .ok { s with kernel := K }
    | .ok (some p, K) => .ok { s with kernel := K, allocs := ⟨p, size⟩ :: s.allocs }
  | .kfree a =>
    match Memory.kfree L s.kernel a.ptr with
    | .error e => .error e
    | .ok K => .ok { s with kernel := K, allocs := s.allocs.erase a }
  | .allocPages pt order =>
    match Memory.allocPages L s.kernel.pages pt order with
    | none => .error (.fault .pageList)
    | some (none, t) => .ok { s with kernel := { s.kernel with pages := t } }
    | some (some h, t) =>
      .ok { s with kernel := { s.kernel with pages := t }, held := ⟨h, order⟩ :: s.held }
  | .freePages b =>
    match Memory.freePages L s.kernel.pages b.head with
    | none => .error (.fault .pageList)
    | some t => .ok { s with kernel := { s.kernel with pages := t }, held := s.held.erase b }
  | .write x v =>
    .ok { s with kernel := { s.kernel with ram := Function.update s.kernel.ram x v } }

def mmSystem (L : Layout) (P : Pool L) : System MmState MmOp where
  init s := (buddySystem L P).init s.kernel.pages ∧ s.kernel.slubs = makePool ∧ s.held = [] ∧
    s.allocs = []
  legal s i := i.Legal s
  step s i := (i.exec L s).toOption

/-- No free list from `order` up has a block. -/
def NoBlock (m : Mem) (order : Nat) : Prop :=
  ∀ k, order ≤ k → k ≤ maxOrder → (m.allocator.freelist k).empty = true

/-- No request of a page or more finds a block. -/
def NoneLarge (s : MmState) : MmOp → Prop
  | .kmalloc size => 4096 ≤ size → NoBlock s.kernel.pages.mem (calculOrder size)
  | _ => True

/-- An allocation the slab allocators serve. -/
def Allocation.Small (a : Allocation) : Prop := 1 ≤ a.size ∧ a.size ≤ 2048

/-- The live objects of the slab allocators are the small allocations. -/
def MmState.core (s : MmState) : KernelState where
  kernel := s.kernel
  held := s.held
  objs k := (s.allocs.filter fun a => a.size ≤ 2048 ∧ sizeIndex a.size = k).map (·.ptr)

section Sizes

variable {L : Layout} {P : Pool L} {K : Kernel} {F : Nat → List Nat} {size order : Nat}

/-- A small request goes to the allocator whose cells are just large enough. -/
theorem sizeIndex_spec (h : size ≤ 2048) :
    sizeIndex size < 7 ∧ size ≤ cellSize (sizeIndex size) := by
  have h31 : ilog2 (32 - 1) = 4 := ilog2_eq (by omega) (by omega)
  have hpos : max 32 size - 1 ≠ 0 := by omega
  have hge : 4 ≤ ilog2 (max 32 size - 1) := (Nat.le_log2 hpos).mpr (by omega)
  have hlt : ilog2 (max 32 size - 1) < 11 := (Nat.log2_lt hpos).mpr (by omega)
  have hhi : max 32 size - 1 < 2 ^ (ilog2 (max 32 size - 1) + 1) := Nat.lt_log2_self
  rw [sizeIndex, h31, cellSize]
  generalize ilog2 (max 32 size - 1) = j at *
  obtain ⟨i, rfl⟩ : ∃ i, j = i + 4 := ⟨j - 4, by omega⟩
  have hpow : 2 ^ (i + 4 + 1) = 32 * 2 ^ i := by rw [Nat.add_assoc, Nat.pow_add, Nat.mul_comm]
  rw [Nat.add_sub_cancel]
  omega

theorem kmalloc_small (h1 : 1 ≤ size) (h2 : size ≤ 2048) : kmalloc L K size =
    match alloc L K (sizeIndex size) with
    | .error e => .error (.fault e)
    | .ok r => .ok r := by
  have hzero : size ≠ 0 := by omega
  have hbig : ¬ 2 * 1024 * 1024 < size := by omega
  exact (if_neg hzero).trans ((if_neg hbig).trans (if_neg (Nat.not_lt.mpr h2)))

theorem kmalloc_large (h1 : 2048 < size) (h2 : size ≤ 2 * 1024 * 1024) : kmalloc L K size =
    match allocPages L K.pages .kernel (calculOrder size) with
    | none => .error (.fault .pageList)
    | some (pages, s) => .ok (pages.map fun pd => L.pdBase + 32 * pd, { K with pages := s }) := by
  have hzero : size ≠ 0 := by omega
  exact (if_neg hzero).trans ((if_neg (Nat.not_lt.mpr h2)).trans (if_pos h1))

theorem exists_firstFree (habove : ∀ k, maxOrder < k → F k = [])
    (h : ¬ ∀ k, order ≤ k → F k = []) : ∃ k, FirstFree F order k := by
  classical
  rw [not_forall] at h
  simp only [Classical.not_imp] at h
  obtain ⟨hle, hne⟩ := Nat.find_spec h
  refine ⟨Nat.find h, hle, ?_, hne, fun j hj hjk => ?_⟩
  · by_contra hmax
    exact hne (habove _ (by omega))
  · by_contra hj'
    exact Nat.find_min h hjk ⟨hj, hj'⟩

theorem BuddyOk.noBlock_iff {s : BuddyState} (h : BuddyOk P s F) :
    NoBlock s.mem order ↔ ∀ k, order ≤ k → F k = [] := by
  constructor
  · intro hn k hk
    by_cases hmax : k ≤ maxOrder
    · exact (h.inv.threaded k).empty_iff.mp (hn k hk hmax)
    · exact h.inv.above k (by omega)
  · exact fun hn k hk _ => (h.inv.threaded k).empty_iff.mpr (hn k hk)

/-- With no block for it a request above 2048 bytes returns null and changes nothing. -/
theorem BuddyOk.kmalloc_none (h : BuddyOk P K.pages F) (h1 : 2048 < size)
    (h2 : size ≤ 2 * 1024 * 1024)
    (hn : 4096 ≤ size → NoBlock K.pages.mem (calculOrder size)) :
    kmalloc L K size = .ok (none, K) := by
  have hempty : ∀ k, calculOrder size ≤ k → F k = [] := by
    by_cases hp : 4096 ≤ size
    · exact h.noBlock_iff.mp (hn hp)
    · intro k hk
      have hbig : maxOrder < calculOrder size := calculOrder_small (by omega) (by omega)
      exact h.inv.above k (by omega)
  have hspec := h.allocPages_spec (calculOrder size) (show PageType.kernel ≠ .free by decide)
    (by decide)
  rw [kmalloc_large h1 h2]
  match hm : allocPages L K.pages .kernel (calculOrder size) with
  | none =>
    rw [hm] at hspec
    obtain ⟨k, hk, _⟩ := hspec
    exact absurd (hempty k hk.le) hk.some
  | some (none, t) =>
    rw [hm] at hspec
    obtain ⟨rfl, _⟩ := hspec
    rfl
  | some (some b, t) =>
    rw [hm] at hspec
    obtain ⟨⟨k, hk, _⟩, _⟩ := hspec
    exact absurd (hempty k hk.le) hk.some

end Sizes

/-! ## Runs -/

theorem map_erase_of_nodup {α β : Type} [DecidableEq α] [DecidableEq β] {f : α → β} {a : α} :
    ∀ {l : List α}, (l.map f).Nodup → a ∈ l → (l.erase a).map f = (l.map f).erase (f a) := by
  intro l
  induction l with
  | nil => intro _ ha; cases ha
  | cons b l ih =>
    intro hnd ha
    rw [List.map_cons, List.nodup_cons] at hnd
    by_cases hba : b = a
    · rw [hba, List.erase_cons_head, List.map_cons, List.erase_cons_head]
    · have hmem : a ∈ l := (List.mem_cons.mp ha).resolve_left (Ne.symm hba)
      have hfba : f b ≠ f a := fun he => hnd.1 (he ▸ List.mem_map_of_mem hmem)
      rw [List.erase_cons_tail (by simpa using hba), List.map_cons, List.map_cons,
        List.erase_cons_tail (by simpa using hfba), ih hnd.2 hmem]

section Core

variable {L : Layout} {P : Pool L} {s t : MmState} {F : Nat → List Nat} {V : Nat → View}
variable {a : Allocation} {size p k : Nat} {K : Kernel}

theorem mem_core : p ∈ s.core.objs k ↔
    ∃ a ∈ s.allocs, a.size ≤ 2048 ∧ sizeIndex a.size = k ∧ a.ptr = p := by
  simp only [MmState.core, List.mem_map, List.mem_filter, decide_eq_true_eq, and_assoc]

theorem Allocation.Small.mem_core (h : a.Small) (ha : a ∈ s.allocs) :
    a.ptr ∈ s.core.objs (sizeIndex a.size) := Memory.mem_core.mpr ⟨a, ha, h.2, rfl, rfl⟩

theorem core_kmalloc (h : size ≤ 2048) :
    MmState.core { s with kernel := K, allocs := ⟨p, size⟩ :: s.allocs } =
      ⟨K, s.held, Function.update s.core.objs (sizeIndex size)
        (p :: s.core.objs (sizeIndex size))⟩ := by
  have hobjs : (MmState.core { s with kernel := K, allocs := ⟨p, size⟩ :: s.allocs }).objs =
      Function.update s.core.objs (sizeIndex size) (p :: s.core.objs (sizeIndex size)) := by
    funext k
    by_cases hk : sizeIndex size = k
    · subst hk
      rw [Function.update_self]
      simp only [MmState.core]
      rw [List.filter_cons_of_pos (by simpa using h), List.map_cons]
    · rw [Function.update_of_ne (Ne.symm hk)]
      simp only [MmState.core]
      rw [List.filter_cons_of_neg (by simp [hk])]
  rw [← hobjs]
  rfl

theorem core_kfree (h : a.Small) (ha : a ∈ s.allocs)
    (hnd : (s.core.objs (sizeIndex a.size)).Nodup) :
    MmState.core { s with kernel := K, allocs := s.allocs.erase a } =
      ⟨K, s.held, Function.update s.core.objs (sizeIndex a.size)
        ((s.core.objs (sizeIndex a.size)).erase a.ptr)⟩ := by
  have hobjs : (MmState.core { s with kernel := K, allocs := s.allocs.erase a }).objs =
      Function.update s.core.objs (sizeIndex a.size)
        ((s.core.objs (sizeIndex a.size)).erase a.ptr) := by
    funext k
    simp only [MmState.core]
    rw [← List.erase_filter]
    by_cases hk : sizeIndex a.size = k
    · subst hk
      rw [Function.update_self]
      exact map_erase_of_nodup hnd (List.mem_filter.mpr ⟨ha, by simpa using h.2⟩)
    · rw [Function.update_of_ne (Ne.symm hk), List.erase_of_not_mem (by simp [hk])]
  rw [← hobjs]
  rfl

/-- `kfree` of a small allocation is `free` of its object. -/
theorem kfree_small (hr : Reach (kernelSystem L P) (fun _ _ => True) s.core) (h : a.Small)
    (ha : a ∈ s.allocs) : kfree L s.kernel a.ptr =
      match free L s.kernel (sizeIndex a.size) (slabOf (sizeIndex a.size) a.ptr) a.ptr with
      | .error e => .error (.fault e)
      | .ok K => .ok K := by
  obtain ⟨F, V, hok, _⟩ := kernel_reach hr
  have hk := (sizeIndex_spec h.2).1
  obtain ⟨b, hown, hin⟩ := hok.housed hk a.ptr (h.mem_core ha)
  have hsb := hok.slabOf_eq hk ((hok.ownsSlab_iff hk).mp hown) hin
  rw [hsb]
  exact (head_found hr).2.2 _ hk b hown a.ptr hin

/-- What runs without large allocations keep. -/
structure MmOk (P : Pool L) (s : MmState) : Prop where
  reach : Reach (kernelSystem L P) (fun _ _ => True) s.core
  small : ∀ a ∈ s.allocs, a.Small

/-- A step that is one of the slab allocators' system. -/
theorem MmOk.of_core {j : KernelOp} (h : MmOk P s) (hj : j.Legal s.core)
    (he : j.exec L s.core = .ok t.core) (hs : ∀ a ∈ t.allocs, a.Small) : MmOk P t :=
  ⟨h.reach.step (i := j) hj trivial (by simp only [kernelSystem, he]; rfl), hs⟩

theorem MmOk.kmalloc (h : MmOk P s) (h1 : 1 ≤ size) (h2 : size ≤ 2 * 1024 * 1024)
    (hg : NoneLarge s (.kmalloc size)) (he : (MmOp.kmalloc size).exec L s = .ok t) : MmOk P t := by
  obtain ⟨F, V, hok, _⟩ := kernel_reach h.reach
  rw [MmOp.exec] at he
  by_cases hs : size ≤ 2048
  · have hk := (sizeIndex_spec hs).1
    rw [kmalloc_small h1 hs] at he
    cases hm : alloc L s.kernel (sizeIndex size) with
    | error e => rw [hm] at he; cases he
    | ok r =>
      obtain ⟨r, K⟩ := r
      rw [hm] at he
      cases r with
      | none =>
        cases he
        refine h.of_core (j := .alloc (sizeIndex size)) hk ?_ h.small
        rw [KernelOp.exec, show alloc L s.core.kernel _ = _ from hm]
        rfl
      | some p =>
        cases he
        refine h.of_core (j := .alloc (sizeIndex size)) hk ?_ fun a ha => ?_
        · rw [KernelOp.exec, show alloc L s.core.kernel _ = _ from hm, core_kmalloc hs]
          rfl
        · cases List.mem_cons.mp ha with
          | inl ha => rw [ha]; exact ⟨h1, hs⟩
          | inr ha => exact h.small a ha
  · rw [hok.pages.kmalloc_none (K := s.kernel) (by omega) h2 hg] at he
    cases he
    exact h

theorem MmOk.kfree (h : MmOk P s) (ha : a ∈ s.allocs)
    (he : (MmOp.kfree a).exec L s = .ok t) : MmOk P t := by
  obtain ⟨F, V, hok, _⟩ := kernel_reach h.reach
  have hsm := h.small a ha
  have hk := (sizeIndex_spec hsm.2).1
  rw [MmOp.exec, kfree_small h.reach hsm ha] at he
  cases hm : free L s.kernel (sizeIndex a.size) (slabOf (sizeIndex a.size) a.ptr) a.ptr with
  | error e => rw [hm] at he; cases he
  | ok K =>
    rw [hm] at he
    cases he
    refine h.of_core (j := .free (sizeIndex a.size) a.ptr) ⟨hk, hsm.mem_core ha⟩ ?_
      fun d hd => h.small d (List.mem_of_mem_erase hd)
    rw [KernelOp.exec, show free L s.core.kernel _ _ _ = _ from hm,
      core_kfree hsm ha (hok.slub _ hk).cells.nodup]
    rfl

theorem MmOk.allocPages {pt : PageType} {order : Nat} (h : MmOk P s) (hf : pt ≠ .free)
    (ht : pt ≠ .tails) (he : (MmOp.allocPages pt order).exec L s = .ok t) : MmOk P t := by
  rw [MmOp.exec] at he
  cases hm : Memory.allocPages L s.kernel.pages pt order with
  | none => rw [hm] at he; cases he
  | some r =>
    obtain ⟨r, u⟩ := r
    rw [hm] at he
    cases r <;> cases he
    all_goals
      refine h.of_core (j := .allocPages pt order) ⟨hf, ht⟩ ?_ h.small
      rw [KernelOp.exec, show Memory.allocPages L s.core.kernel.pages _ _ = _ from hm]
      rfl

theorem MmOk.freePages {b : Block} (h : MmOk P s) (hb : b ∈ s.held)
    (he : (MmOp.freePages b).exec L s = .ok t) : MmOk P t := by
  rw [MmOp.exec] at he
  cases hm : Memory.freePages L s.kernel.pages b.head with
  | none => rw [hm] at he; cases he
  | some u =>
    rw [hm] at he
    cases he
    refine h.of_core (j := .freePages b) hb ?_ h.small
    rw [KernelOp.exec, show Memory.freePages L s.core.kernel.pages _ = _ from hm]
    rfl

/-- A byte of a small allocation is one of its object. -/
theorem MmOk.write {x : Nat} {w : BitVec 8} (h : MmOk P s) (hl : MmOp.Legal s (.write x w))
    (he : (MmOp.write x w).exec L s = .ok t) : MmOk P t := by
  obtain ⟨F, V, hok, _⟩ := kernel_reach h.reach
  cases he
  refine h.of_core (j := .write x w) ?_ rfl h.small
  cases hl with
  | inl hb => exact .inl hb
  | inr ha =>
    obtain ⟨a, ha, hlo, hhi⟩ := ha
    have hsm := h.small a ha
    obtain ⟨hk, hsize⟩ := sizeIndex_spec hsm.2
    refine .inr ⟨sizeIndex a.size, hk, a.ptr, hsm.mem_core ha, hlo, ?_⟩
    rw [(hok.slub _ hk).size]
    omega

theorem MmOk.step {i : MmOp} (h : MmOk P s) (hl : i.Legal s) (hg : NoneLarge s i)
    (he : i.exec L s = .ok t) : MmOk P t := by
  cases i with
  | kmalloc size => exact h.kmalloc hl.1 hl.2 hg he
  | kfree a => exact h.kfree hl he
  | allocPages pt order => exact h.allocPages hl.1 hl.2 he
  | freePages b => exact h.freePages hl he
  | write x w => exact h.write hl he

/-- Runs in which no large request finds a block. -/
theorem mm_reach (h : Reach (mmSystem L P) NoneLarge s) : MmOk P s := by
  induction h with
  | init hi =>
    obtain ⟨hb, hs, hh, ha⟩ := hi
    refine ⟨.init ⟨hb, hs, hh, fun k => ?_⟩, fun a hm => ?_⟩
    · rw [MmState.core, ha]
      rfl
    · rw [ha] at hm
      cases hm
  | step _ hl hg he ih => exact ih.step hl hg (toOption_eq_some he)

end Core

/-! ## What kmalloc returns -/

/-- The call of `alloc` makes a slab: the partial list has none, or only an exhausted one. -/
def NeedsSlab (L : Layout) (K : Kernel) (k : Nat) : Prop :=
  ∀ b ∈ (K.slubs k).partialList.head, Exhausted K b ∧ (slubBlock L).getNext K.pd b = none

/-- The cells on the chain from `free_offset` of a slab. -/
def FreeCells (K : Kernel) (k b : Nat) (chain : List Nat) : Prop :=
  Chain K.ram (toKerAddr b) (cellSize k) cellNull (K.pd b).freeOffset chain

/-- The allocation is at a cell, large enough, of a slab of `slubs[k]`. -/
structure InCell (L : Layout) (s : KernelState) (a : Allocation) (k b c : Nat) : Prop where
  index : k < 7
  cell : c < 128
  slab : OwnsSlab L s k b
  ptr : a.ptr = cellAddr k b c
  size : a.size ≤ cellSize k

/-- The allocation is at a cell that is off the free chain. -/
def HasCell (L : Layout) (s : KernelState) (a : Allocation) : Prop :=
  ∃ k b c, InCell L s a k b c ∧ ∃ chain, FreeCells s.kernel k b chain ∧ c ∉ chain

/-- The call reserved the cell: it is off the free chain now, and in a slab there was before it was
on the chain then. -/
def TakesCell (L : Layout) (s : KernelState) (K : Kernel) (a : Allocation) : Prop :=
  ∃ k b c, InCell L { s with kernel := K } a k b c ∧
    (∃ chain, FreeCells K k b chain ∧ c ∉ chain) ∧
    (OwnsSlab L s k b → ∃ chain, FreeCells s.kernel k b chain ∧ c ∈ chain)

/-- The call that led to the kernel `K` reserved a page block around the allocation. -/
def TakesBlock (s : KernelState) (K : Kernel) (a : Allocation) : Prop :=
  ∃ b ∈ K.pages.live, b ∉ s.kernel.pages.live ∧ ∀ x, a.Has x → InPages b x

/-- The new allocation is in what the call reserved, and nowhere else in use. -/
structure Private {L : Layout} (P : Pool L) (s : MmState) (K : Kernel) (a : Allocation) :
    Prop where
  reserved : TakesBlock s.core K a ∨ TakesCell L s.core K a
  allocs : ∀ d ∈ s.allocs, ∀ x, a.Has x → ¬ d.Has x
  free : ∀ b, RecordedFree P K.pages.mem b → ∀ x, a.Has x → ¬ InPages b x
  table : ∀ x, a.Has x → x < L.pdBase ∨ L.pdBase + 32 * L.pages ≤ x

/-- The call returned null or private memory. -/
def KmallocRight {L : Layout} (P : Pool L) (s : MmState) (size : Nat) :
    Except Stop (Option Nat × Kernel) → Prop
  | .error _ => False
  | .ok (none, _) => True
  | .ok (some p, K) => Private P s K ⟨p, size⟩

section Objects

variable {L : Layout} {P : Pool L} {s : KernelState} {F : Nat → List Nat} {V : Nat → View}
variable {v : View} {K : Kernel} {objs : List Nat} {p q k j b x : Nat}

/-- The live objects do not say who owns a slab. -/
theorem OwnsSlab.with_objs {objs objs' : Nat → List Nat} {held : List Block}
    (h : OwnsSlab L ⟨K, held, objs⟩ k b) : OwnsSlab L ⟨K, held, objs'⟩ k b :=
  ⟨h.live, h.unheld, h.flags, h.owner⟩

theorem InCell.with_objs {objs objs' : Nat → List Nat} {held : List Block} {a : Allocation}
    {c : Nat} (h : InCell L ⟨K, held, objs⟩ a k b c) : InCell L ⟨K, held, objs'⟩ a k b c :=
  ⟨h.index, h.cell, h.slab.with_objs, h.ptr, h.size⟩

theorem SlubOk.needsSlab_iff (h : SlubOk L K k v objs) (hk : k < 7) :
    NeedsSlab L K k ↔ v.NeedsSlab := by
  have hwalk := h.part.represents.forward
  rw [NeedsSlab, h.part.head, View.NeedsSlab]
  cases hv : v.ps with
  | nil => exact ⟨fun _ => .inl rfl, fun _ b hb => nomatch hb⟩
  | cons b rest =>
    have hx := h.exhausted_iff hk (View.front_owned hv)
    rw [hv] at hwalk
    obtain ⟨_, hrest⟩ := hwalk
    constructor
    · intro hn
      obtain ⟨he, hnext⟩ := hn b rfl
      rw [hnext] at hrest
      refine .inr ⟨b, ?_, hx.mp he⟩
      cases rest with
      | nil => rfl
      | cons d rest => exact absurd hrest.1 (by simp)
    · rintro (hn | ⟨d, hd, hc⟩) e he
      · cases hn
      · cases hd
        cases he
        exact ⟨hx.mpr hc, hrest⟩

/-- The bytes of two objects are apart. -/
theorem KernelOk.objects_apart (h : KernelOk P s F V) (hk : k < 7) (hj : j < 7)
    (hp : p ∈ s.objs k) (hq : q ∈ s.objs j) (hne : k = j → p ≠ q)
    (hx : p ≤ x ∧ x < p + cellSize k) : ¬ (q ≤ x ∧ x < q + cellSize j) := by
  obtain ⟨b, hb, _, c, hc, rfl⟩ := h.object hk hp
  obtain ⟨d, hd, _, e, he, rfl⟩ := h.object hj hq
  intro hx'
  -- an address is in one slab, so these are two cells of it
  cases h.pages.inPages_unique (h.owned_live hk hb) (h.owned_live hj hd) (cell_byte hc hx)
    (cell_byte he hx')
  have hce : c ≠ e := fun hc => hne rfl (by rw [hc])
  simp only [cellAddr] at hx hx'
  rcases Nat.lt_or_gt_of_ne hce with hlt | hlt
  · have := Nat.mul_le_mul_right (cellSize k) (Nat.succ_le_of_lt hlt)
    rw [Nat.succ_mul] at this
    omega
  · have := Nat.mul_le_mul_right (cellSize k) (Nat.succ_le_of_lt hlt)
    rw [Nat.succ_mul] at this
    omega

/-- The bytes of an object are in no free block. -/
theorem KernelOk.object_not_free {d : Block} (h : KernelOk P s F V) (hk : k < 7)
    (hp : p ∈ s.objs k) (hd : RecordedFree P s.kernel.pages.mem d)
    (hx : p ≤ x ∧ x < p + cellSize k) : ¬ InPages d x := by
  obtain ⟨b, hb, _, c, hc, rfl⟩ := h.object hk hp
  intro hin
  have hlive := h.owned_live hk hb
  have hfree := (h.pages.isBlock_iff d).mp (.inr hd)
  have hcov := (cell_byte hc hx).covers (h.pages.inv.head_lt (.inr hlive))
  cases h.pages.inv.tiling.unique _ _ (.inr hlive) hfree _ hcov
    (hin.covers (h.pages.inv.head_lt hfree))
  exact h.pages.flags _ hlive hd.2.1

/-- The pages of the pool are behind the descriptor table. -/
theorem Pool.above_pool {i : Nat} (hi : InPool P.heads i) :
    L.pdBase + 32 * L.pages ≤ toKerAddr i := by
  have hle := L.pages_le
  have hend := P.fits _ hi
  have hhead := Nat.div_mul_le_self i 512
  have hbound : i ≤ 2 ^ 27 := by omega
  refine (P.above _ hi).trans ?_
  rw [toKerAddr_eq hbound, toKerAddr_eq (hhead.trans hbound)]
  omega

/-- The bytes of an object are behind the descriptor table. -/
theorem KernelOk.object_above (h : KernelOk P s F V) (hk : k < 7) (hp : p ∈ s.objs k)
    (hx : p ≤ x) : L.pdBase + 32 * L.pages ≤ x := by
  obtain ⟨b, hb, _, c, _, rfl⟩ := h.object hk hp
  have habove := P.above_pool (h.pages.inv.head_inPool (.inr (h.owned_live hk hb)))
  rw [cellAddr] at hx
  simp only at habove
  omega

end Objects

section Right

variable {L : Layout} {P : Pool L} {s : MmState} {F F' : Nat → List Nat} {V : Nat → View}
variable {v' : View} {K : Kernel} {size p : Nat}

theorem Allocation.Small.byte {a : Allocation} {x : Nat} (h : a.Small) (hx : a.Has x) :
    a.ptr ≤ x ∧ x < a.ptr + cellSize (sizeIndex a.size) := by
  have hsize := (sizeIndex_spec h.2).2
  rw [Allocation.Has] at hx
  omega

/-- A cell handed out is private. -/
theorem MmOk.handedOut (h : MmOk P s) (hok : KernelOk P s.core F V) (hs : size ≤ 2048)
    (h1 : 1 ≤ size) (hK : HandedOut P (sizeIndex size) s.kernel F (V (sizeIndex size))
      (s.core.objs (sizeIndex size)) p K F' v') : Private P s K ⟨p, size⟩ := by
  obtain ⟨hk, hsize⟩ := sizeIndex_spec hs
  obtain ⟨hok', _⟩ := hok.of_kept hk hK.toKept (hK.used (hok.used _ hk))
  have hnew : (⟨p, size⟩ : Allocation).Small := ⟨h1, hs⟩
  have hp : p ∈ Function.update s.core.objs (sizeIndex size)
      (p :: s.core.objs (sizeIndex size)) (sizeIndex size) := by
    rw [Function.update_self]
    exact List.mem_cons_self
  obtain ⟨b, hb, c, hc, hpc⟩ := hK.cell
  have hslab := hK.slub.cells.slab b hb
  constructor
  case reserved =>
    refine .inr ⟨_, b, c, ⟨hk, hc, ?_, hpc, hsize⟩, ⟨v'.chain b, hslab.linked, ?_⟩, fun hown => ?_⟩
    · have hown := (hok'.ownsSlab_iff hk (b := b)).mpr (by rw [Function.update_self]; exact hb)
      exact hown.with_objs
    · exact (hslab.cells c hc).mp (hpc ▸ List.mem_cons_self)
    · have hbo := (hok.slub _ hk).cells.slab b ((hok.ownsSlab_iff hk).mp hown)
      refine ⟨(V (sizeIndex size)).chain b, hbo.linked, ?_⟩
      by_contra hn
      exact hK.fresh (hpc ▸ (hbo.cells c hc).mpr hn)
  case allocs =>
    intro d hd x hx hdx
    have hsm := h.small d hd
    obtain ⟨hj, _⟩ := sizeIndex_spec hsm.2
    have hdm := hsm.mem_core hd
    have hd' : d.ptr ∈ Function.update s.core.objs (sizeIndex size)
        (p :: s.core.objs (sizeIndex size)) (sizeIndex d.size) := by
      by_cases hjk : sizeIndex d.size = sizeIndex size
      · rw [hjk, Function.update_self, ← hjk]
        exact List.mem_cons_of_mem _ hdm
      · rwa [Function.update_of_ne hjk]
    refine hok'.objects_apart hk hj hp hd' (fun hkj => ?_) (hnew.byte hx) (hsm.byte hdx)
    rintro rfl
    exact hK.fresh (hkj ▸ hdm)
  case free =>
    exact fun d hd x hx => hok'.object_not_free hk hp hd (hnew.byte hx)
  case table =>
    exact fun x hx => .inr (hok'.object_above hk hp hx.1)

theorem kmalloc_small_iff (hmm : MmOk P s) (hok : KernelOk P s.core F V) (h1 : 1 ≤ size)
    (hs : size ≤ 2048) : KmallocRight P s size (kmalloc L s.kernel size) ↔
      (NeedsSlab L s.kernel (sizeIndex size) → HasBlock L s.kernel.pages.mem (sizeIndex size) ∨
        NoBlock s.kernel.pages.mem (sizeIndex size)) := by
  have hk := (sizeIndex_spec hs).1
  have hslub := hok.slub _ hk
  have hB : BuddyOk P s.kernel.pages F := hok.pages
  have hneed : NeedsSlab L s.kernel _ ↔ _ := hslub.needsSlab_iff hk
  have hspec := alloc_spec hok.pages hslub hk
  rw [kmalloc_small h1 hs, hB.hasBlock_iff, hB.noBlock_iff, hneed]
  match hm : alloc L s.kernel (sizeIndex size) with
  | .error e =>
    rw [show alloc L s.core.kernel _ = _ from hm] at hspec
    obtain ⟨_, hn, j, hj, hlost⟩ := hspec
    refine ⟨fun hr => hr.elim, fun hr => ?_⟩
    cases hr hn with
    | inl hb =>
      obtain ⟨i, hi, hnl⟩ := hb
      exact hnl (hi.unique hj ▸ hlost)
    | inr hno => exact hj.some (hno j hj.le)
  | .ok (none, K) =>
    rw [show alloc L s.core.kernel _ = _ from hm] at hspec
    obtain ⟨_, hno, _⟩ := hspec
    exact ⟨fun _ _ => .inr hno, fun _ => trivial⟩
  | .ok (some p, K) =>
    rw [show alloc L s.core.kernel _ = _ from hm] at hspec
    obtain ⟨F', v', hK⟩ := hspec
    refine ⟨fun _ hn => ?_, fun _ => hmm.handedOut hok hs h1 hK⟩
    by_contra hstop
    rw [not_or] at hstop
    obtain ⟨hnb, hne⟩ := hstop
    obtain ⟨j, hj⟩ := exists_firstFree hB.inv.above hne
    by_cases hlost : LostHead L s.kernel.pages.mem j
    · have he := alloc_stops hok.pages hslub hk hn hj hlost
      rw [show alloc L s.core.kernel _ = _ from hm] at he
      cases he
    · exact hnb ⟨j, hj, hlost⟩

/-- A request above 2048 bytes gets null or the address of a descriptor. -/
theorem kmalloc_large_iff (hB : BuddyOk P s.kernel.pages F) (h1 : 2048 < size)
    (h2 : size ≤ 2 * 1024 * 1024) : KmallocRight P s size (kmalloc L s.kernel size) ↔
      (4096 ≤ size → NoBlock s.kernel.pages.mem (calculOrder size)) := by
  refine ⟨fun hr _ => ?_, fun hn => by rw [hB.kmalloc_none h1 h2 hn]; trivial⟩
  have hspec := hB.allocPages_spec (calculOrder size) (show PageType.kernel ≠ .free by decide)
    (by decide)
  rw [kmalloc_large h1 h2] at hr
  match hm : allocPages L s.kernel.pages .kernel (calculOrder size) with
  | none => rw [hm] at hr; exact hr.elim
  | some (none, t) =>
    rw [hm] at hspec
    exact hB.noBlock_iff.mpr hspec.2
  | some (some b, t) =>
    rw [hm] at hr hspec
    obtain ⟨_, F', hT⟩ := hspec
    have hlt := hT.ok.inv.head_lt (b := ⟨b, calculOrder size⟩)
      (.inr (by rw [hT.live]; exact List.mem_cons_self))
    -- the descriptor is in the table
    have htable := hr.table (L.pdBase + 32 * b) ⟨Nat.le_refl _, by simp only; omega⟩
    simp only at hlt
    omega

/-- `kmalloc` in the states of runs in which no request of a page or more finds a block: it
returns null or private memory exactly when a small request that needs a new slab finds the first
free block's link in place or no block at all, and a request of a page or more finds no block. -/
theorem kmalloc_right_iff (h : Reach (mmSystem L P) NoneLarge s) (h1 : 1 ≤ size)
    (h2 : size ≤ 2 * 1024 * 1024) :
    KmallocRight P s size (kmalloc L s.kernel size) ↔
      (size ≤ 2048 → NeedsSlab L s.kernel (sizeIndex size) →
        HasBlock L s.kernel.pages.mem (sizeIndex size) ∨
          NoBlock s.kernel.pages.mem (sizeIndex size)) ∧
      (4096 ≤ size → NoBlock s.kernel.pages.mem (calculOrder size)) := by
  have hmm := mm_reach h
  obtain ⟨F, V, hok, _⟩ := kernel_reach hmm.reach
  by_cases hs : size ≤ 2048
  · rw [kmalloc_small_iff hmm hok h1 hs]
    exact ⟨fun hr => ⟨fun _ => hr, fun hp => by omega⟩, fun hr => hr.1 hs⟩
  · rw [kmalloc_large_iff hok.pages (by omega) h2]
    exact ⟨fun hr => ⟨fun hp => absurd hp hs, hr⟩, fun hr => hr.2⟩

/-- A machine just started. -/
def startMm {L : Layout} (P : Pool L) : MmState := ⟨(startKernel P).kernel, [], []⟩

theorem startMm_init {L : Layout} (P : Pool L) : (mmSystem L P).init (startMm P) :=
  ⟨filled_init P, rfl, rfl, rfl⟩

theorem kmalloc_right_iff_small : KmallocRight onePool (startMm onePool) 100
    (kmalloc smallLayout (startMm onePool).kernel 100) := by
  refine (kmalloc_right_iff (.init (startMm_init onePool)) (by omega) (by omega)).mpr
    ⟨fun _ _ => .inl (onePool_hasBlock (by decide)), fun h => absurd h (by decide)⟩

/-- The first page goes out as the address of its descriptor; in the table this address is in page
260, of which the allocator knows nothing. -/
theorem kmalloc_page_start : ∃ t : BuddyState,
    kmalloc smallLayout (startMm onePool).kernel 4096 =
      .ok (some (smallLayout.pdBase + 32 * 512), { (startMm onePool).kernel with pages := t }) ∧
    t.live = [⟨512, 0⟩] ∧ (t.mem.pd 260).flags = PageType.free.flag := by
  have he : (allocPages smallLayout (filled onePool) .kernel (calculOrder 4096)).map
      (fun r => (r.1, r.2.live, (r.2.mem.pd 260).flags)) =
        some (some 512, [⟨512, 0⟩], PageType.free.flag) := by
    simp only [filled, onePool, insertBlocks, insertBlock, markPages_eq]
    decide +kernel
  obtain ⟨⟨_, t⟩, ht, hr⟩ := Option.map_eq_some_iff.mp he
  simp only [Prod.mk.injEq] at hr
  obtain ⟨rfl, hlive, hflags⟩ := hr
  refine ⟨t, ?_, hlive, hflags⟩
  rw [kmalloc_large (by omega) (by omega),
    show allocPages smallLayout (startMm onePool).kernel.pages _ _ = _ from ht]
  rfl

/-- A request for a page on a machine just started returns an address in the descriptor
table. -/
theorem kmalloc_gives_descriptor : ∃ s, Reach (mmSystem smallLayout onePool) NoneLarge s ∧
    ∃ K, kmalloc smallLayout s.kernel 4096 = .ok (some (smallLayout.pdBase + 32 * 512), K) ∧
      ¬ KmallocRight onePool s 4096 (kmalloc smallLayout s.kernel 4096) := by
  obtain ⟨t, ht, _⟩ := kmalloc_page_start
  refine ⟨startMm onePool, .init (startMm_init onePool), _, ht, fun hr => ?_⟩
  rw [ht] at hr
  exact absurd (hr.table _ ⟨Nat.le_refl _, by decide⟩) (by decide)

end Right

end Memory
end TorexOS
