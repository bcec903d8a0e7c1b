import TorexOS.Address
import TorexOS.BuddyMerge
import TorexOS.Lib.Transition

/-!
# TorexOS.BuddyRun

Runs of the buddy allocator.

`buddySystem L P` starts from the free lists `makeBuddy` fills with the blocks of the pool `P`, over
any contents of the descriptor table. Its operations allocate a block of any order with any type
but `pt_free` and `pt_tails`, and free a live block; a run stops where a call dereferences null.
`BuddyOk` holds in every state reached.
-/

namespace TorexOS
namespace Memory

open Util Util.ListBase Dyadic Transition

/-- The 2 MiB blocks given to `makeBuddy`: distinct, aligned, described by the table and above it,
as `getFreeMemoryStart` has them. -/
structure Pool (L : Layout) where
  heads : List Nat
  nodup : heads.Nodup
  aligned : ∀ h ∈ heads, 512 ∣ h
  fits : ∀ h ∈ heads, h + 512 ≤ L.pages
  above : ∀ h ∈ heads, L.pdBase + 32 * L.pages ≤ toKerAddr h

/-- The allocator's memory, and the blocks handed out and not yet freed. -/
structure BuddyState where
  mem : Mem
  live : List Block

inductive BuddyOp where
  | allocate (order : Nat) (pt : PageType)
  | deallocate (b : Block)
  deriving DecidableEq

def BuddyOp.Legal (s : BuddyState) : BuddyOp → Prop
  | .allocate _ pt => pt ≠ .free ∧ pt ≠ .tails
  | .deallocate b => b ∈ s.live

instance (s : BuddyState) (i : BuddyOp) : Decidable (i.Legal s) := by
  cases i <;> unfold BuddyOp.Legal <;> infer_instance

/-- `alloc_pages`: the block it returns is live. -/
def allocPages (L : Layout) (s : BuddyState) (pt : PageType) (order : Nat) :
    Option (Option Nat × BuddyState) :=
  match allocateWithOrder L s.mem order pt with
  | none => none
  | some (none, m) => some (none, { s with mem := m })
  | some (some h, m) => some (some h, { mem := m, live := ⟨h, order⟩ :: s.live })

/-- `free_pages`: the block at `pd`, of the order recorded there, is live no more. -/
def freePages (L : Layout) (s : BuddyState) (pd : Nat) : Option BuddyState :=
  match deallocateBlock L s.mem pd with
  | none => none
  | some m => some { mem := m, live := s.live.erase ⟨pd, (s.mem.pd pd).orders⟩ }

def BuddyOp.exec (L : Layout) (s : BuddyState) : BuddyOp → Option BuddyState
  | .allocate order pt => (allocPages L s pt order).map (·.2)
  | .deallocate b => freePages L s b.head

def buddySystem (L : Layout) (P : Pool L) : System BuddyState BuddyOp where
  init s := s.live = [] ∧ ∃ pd, insertBlocks L (Mem.start pd) P.heads = some s.mem
  legal s i := i.Legal s
  step s i := i.exec L s

instance (L : Layout) (P : Pool L) (s : BuddyState) (i : BuddyOp) :
    Decidable ((buddySystem L P).legal s i) := by unfold buddySystem; infer_instance

/-- A page of the pool whose descriptor says it heads a free block of this order. -/
def RecordedFree {L : Layout} (P : Pool L) (m : Mem) (b : Block) : Prop :=
  InPool P.heads b.head ∧ (m.pd b.head).flags = PageType.free.flag ∧ (m.pd b.head).orders = b.order

/-- The free list of the greatest order holds `hs`, the others are empty. -/
def topList (hs : List Nat) : Nat → List Nat := fun o => if o = maxOrder then hs else []

theorem mem_topList {hs : List Nat} {o a : Nat} : a ∈ topList hs o ↔ o = maxOrder ∧ a ∈ hs := by
  rw [topList]; split <;> simp [*]

theorem topList_tiling {hs : List Nat} (hal : ∀ h ∈ hs, 512 ∣ h) :
    Tiling (IsBlock (topList hs) []) (InPool hs) := by
  have hB : ∀ b, IsBlock (topList hs) [] b ↔ b.order = maxOrder ∧ b.head ∈ hs := by
    intro b; rw [IsBlock, mem_topList]; simp
  have hcov : ∀ b, IsBlock (topList hs) [] b → ∀ p, b.Covers p → p / 512 * 512 = b.head := by
    intro b hb p hp
    obtain ⟨ho, hh⟩ := (hB b).mp hb
    have := hal _ hh
    simp only [Block.Covers, ho, maxOrder] at hp
    omega
  refine ⟨?_, ?_, ?_, ?_⟩
  · intro b hb
    obtain ⟨ho, hh⟩ := (hB b).mp hb
    rw [Block.Aligned, ho]; exact hal _ hh
  · intro b hb p hp
    rw [InPool, hcov b hb p hp]; exact ((hB b).mp hb).2
  · intro p hp
    refine ⟨⟨p / 512 * 512, maxOrder⟩, (hB _).mpr ⟨rfl, hp⟩, ?_⟩
    simp only [Block.Covers, maxOrder]; omega
  · intro b c hb hc p hbp hcp
    rw [Block.ext_iff, ← hcov b hb p hbp, ← hcov c hc p hcp, ((hB b).mp hb).1, ((hB c).mp hc).1]
    exact ⟨rfl, rfl⟩

section Init

variable {L : Layout}

theorem start_inv (L : Layout) (pd : PdTable) :
    BuddyInv L [] (Mem.start pd) (topList []) [] ∧ AllLinked L (Mem.start pd) (topList []) := by
  have hnil : ∀ o, topList [] o = [] := fun o => by rw [topList]; split <;> rfl
  have hl : AllLinked L (Mem.start pd) (topList []) := fun o => by
    rw [hnil]; exact new_linked (freeBlock L) pd
  refine ⟨⟨fun o => (hl o).toThreaded, fun o => by rw [hnil]; rfl, fun o _ => hnil o, ?_, by simp,
    ?_, topList_tiling (by simp), .nil, by simp, by simp⟩, hl⟩
  · intro o h hh; rw [hnil] at hh; simp at hh
  · intro b hb
    rcases hb with hb | hb
    · rw [hnil] at hb; simp at hb
    · simp at hb

/-- `makeBuddy` inserts one more block. -/
theorem insertBlock_inv {hs : List Nat} {s : Mem} {h : Nat} (hI : BuddyInv L hs s (topList hs) [])
    (hl : AllLinked L s (topList hs)) (hnd : h ∉ hs) (hal : ∀ x ∈ hs ++ [h], 512 ∣ x)
    (hfit : h + 512 ≤ L.pages) :
    ∃ s', insertBlock L s h = some s' ∧ BuddyInv L (hs ++ [h]) s' (topList (hs ++ [h])) [] ∧
      AllLinked L s' (topList (hs ++ [h])) := by
  have hself : topList hs maxOrder = hs := if_pos rfl
  let s1 : Mem := { s with pd := markPages s.pd h .free maxOrder }
  -- the pages marked are those of the new block
  have hpd1 : ∀ x ∈ hs, ∀ p, x ≤ p → p < x + 512 → s1.pd p = s.pd p := by
    intro x hx p hlo hhi
    have h1 := hal x (by simp [hx])
    have h2 := hal h (by simp)
    have hne : x ≠ h := by rintro rfl; exact hnd hx
    simp only [s1, markPages_apply, maxOrder]
    rw [if_neg (by omega), if_neg (by omega)]
  have hlinks : ∀ o, ∀ a ∈ topList hs o, s1.pd a = s.pd a := by
    intro o a ha
    obtain ⟨_, ha⟩ := mem_topList.mp ha
    exact hpd1 a ha a (le_refl _) (by omega)
  have hl1 : AllLinked L s1 (topList hs) := BuddyInv.allLinked_of_pd hl rfl hlinks
  obtain ⟨m', l', he, ht, hlk, hw⟩ := pushBackNode_threaded (hl1 maxOrder).toThreaded
    (by rw [hself]; exact hnd) (show (freeBlock L).Storable h from show h < L.pages by omega)
  rw [hself] at ht hlk hw
  have hlm := hl1 maxOrder
  rw [hself] at hlm
  obtain ⟨hpd, hfl, hor⟩ := writes_pd hw
  have hupd : ∀ o, topList (hs ++ [h]) o = Function.update (topList hs) maxOrder (hs ++ [h]) o := by
    intro o
    by_cases ho : o = maxOrder
    · rw [ho, Function.update_self, topList, if_pos rfl]
    · rw [Function.update_of_ne ho, topList, topList, if_neg ho, if_neg ho]
  have hlnk : AllLinked L ((s1.setFreelist maxOrder (m', l')).addCount maxOrder 1)
      (topList (hs ++ [h])) := by
    intro o
    rw [hupd]
    refine BuddyInv.linked_update (r := (m', l')) hl1 (hlk hlm) hw ?_ o
    intro k hk a ha
    exact absurd (mem_topList.mp ha).1 hk
  refine ⟨_, by simp only [insertBlock]; rw [he], ⟨fun o => (hlnk o).toThreaded, ?_, ?_, ?_,
    by simp, ?_, topList_tiling hal, .nil, by simp, ?_⟩, hlnk⟩
  · intro o
    by_cases ho : o = maxOrder
    · subst ho
      have hc := hI.count maxOrder
      rw [hself] at hc
      rw [topList, if_pos rfl, Mem.addCount_count, Mem.setFreelist_count, Function.update_self,
        show s1.allocator.count = s.allocator.count from rfl, hc, List.length_append,
        List.length_singleton, count_give]
    · have hc := hI.count o
      rw [topList, if_neg ho] at hc ⊢
      rw [Mem.addCount_count, Function.update_of_ne ho]; exact hc
  · intro o ho; rw [topList, if_neg (by omega)]
  · intro o a ha
    obtain ⟨rfl, ha⟩ := mem_topList.mp ha
    rw [Mem.addCount_pd, Mem.setFreelist_pd, hfl, hor]
    rcases List.mem_append.mp ha with ha | ha
    · rw [hpd1 a ha a (le_refl _) (by omega)]
      exact hI.free_head maxOrder a (by rw [hself]; exact ha)
    · rw [List.mem_singleton] at ha
      subst ha
      simp only [s1, markPages_apply, if_true]
      exact ⟨by simp, PageDescriptor.orders_setOrders _ (by decide)⟩
  · intro b hb p hlo hhi
    rcases hb with hb | hb
    · obtain ⟨ho, hb⟩ := mem_topList.mp hb
      rw [ho] at hhi
      rw [Mem.addCount_pd, Mem.setFreelist_pd, hfl]
      rcases List.mem_append.mp hb with hb | hb
      · rw [hpd1 _ hb p (by omega) (by simpa [maxOrder] using hhi)]
        exact hI.tails ⟨b.head, maxOrder⟩ (.inl (by rw [hself]; exact hb)) p hlo hhi
      · rw [List.mem_singleton] at hb
        simp only [s1, markPages_apply]
        rw [if_neg (by omega), if_pos (by omega)]; simp
    · simp at hb
  · intro x hx
    rcases List.mem_append.mp hx with hx | hx
    · exact hI.fits x hx
    · rw [List.mem_singleton] at hx; omega

theorem insertBlocks_inv {hs : List Nat} :
    ∀ {done : List Nat} {s : Mem}, BuddyInv L done s (topList done) [] →
      AllLinked L s (topList done) → (done ++ hs).Nodup → (∀ x ∈ done ++ hs, 512 ∣ x) →
      (∀ x ∈ hs, x + 512 ≤ L.pages) →
      ∃ s', insertBlocks L s hs = some s' ∧ BuddyInv L (done ++ hs) s' (topList (done ++ hs)) [] ∧
        AllLinked L s' (topList (done ++ hs)) := by
  induction hs with
  | nil => intro done s hI hl _ _ _; exact ⟨s, rfl, by rwa [List.append_nil], by rwa [List.append_nil]⟩
  | cons h hs ih =>
    intro done s hI hl hnd hal hfit
    have hcat : done ++ h :: hs = (done ++ [h]) ++ hs := by simp
    have hh : h ∉ done := fun hc => (List.nodup_append.mp hnd).2.2 h hc h (by simp) rfl
    obtain ⟨s1, he, hI1, hl1⟩ := insertBlock_inv hI hl hh
      (fun x hx => hal x (by rw [hcat]; exact List.mem_append_left _ hx)) (hfit h (by simp))
    rw [hcat] at hnd hal ⊢
    obtain ⟨s2, he2, h2⟩ := ih hI1 hl1 hnd hal (fun x hx => hfit x (by simp [hx]))
    exact ⟨s2, by simp only [insertBlocks, he, he2], h2⟩

/-- The free lists `makeBuddy` fills. -/
theorem filled_inv (P : Pool L) (pd : PdTable) :
    ∃ m, insertBlocks L (Mem.start pd) P.heads = some m ∧
      BuddyInv L P.heads m (topList P.heads) [] ∧ AllLinked L m (topList P.heads) := by
  obtain ⟨hI, hl⟩ := start_inv L pd
  have h := @insertBlocks_inv L P.heads [] (Mem.start pd) hI hl P.nodup P.aligned P.fits
  rwa [List.nil_append] at h

theorem topList_coalesced (hs : List Nat) : Coalesced (topList hs) := by
  intro o ho a ha
  have := (mem_topList.mp ha).1
  omega

end Init

/-- What holds between calls. -/
structure BuddyOk {L : Layout} (P : Pool L) (s : BuddyState) (F : Nat → List Nat) : Prop where
  inv : BuddyInv L P.heads s.mem F s.live
  coalesced : Coalesced F
  orders : ∀ b ∈ s.live, (s.mem.pd b.head).orders = b.order
  flags : ∀ b ∈ s.live, (s.mem.pd b.head).flags ≠ PageType.free.flag

section Run

variable {L : Layout} {P : Pool L} {s t : BuddyState} {F : Nat → List Nat}
variable {order : Nat} {pt : PageType} {b : Block}

/-- The free blocks of the invariant are those the descriptors record. -/
theorem BuddyOk.recordedFree_iff (h : BuddyOk P s F) (b : Block) :
    RecordedFree P s.mem b ↔ b.head ∈ F b.order := by
  constructor
  · rintro ⟨hp, hf, ho⟩
    obtain ⟨c, hc, hch⟩ := h.inv.head_of_flags hp (by rw [hf]; decide)
    rcases hc with hc | hc
    · rw [hch] at hc
      rwa [← (h.inv.free_head _ _ hc).2, ho] at hc
    · exact absurd (by rw [hch]; exact hf) (h.flags c hc)
  · intro hm
    obtain ⟨hf, ho⟩ := h.inv.free_head _ _ hm
    exact ⟨h.inv.head_inPool (.inl hm), hf, ho⟩

theorem init_ok (hi : (buddySystem L P).init s) :
    ∃ F, BuddyOk P s F ∧ AllLinked L s.mem F := by
  obtain ⟨hlive, pd, hm⟩ := hi
  obtain ⟨m, hm', hI, hl⟩ := filled_inv P pd
  rw [hm] at hm'; cases hm'
  exact ⟨topList P.heads, ⟨by rw [hlive]; exact hI, topList_coalesced _, by simp [hlive],
    by simp [hlive]⟩, hl⟩

/-- A block of the order and type asked for was handed out. -/
structure Taken (P : Pool L) (s : BuddyState) (F : Nat → List Nat) (order : Nat) (pt : PageType)
    (h : Nat) (t : BuddyState) (F' : Nat → List Nat) : Prop where
  ok : BuddyOk P t F'
  live : t.live = ⟨h, order⟩ :: s.live
  flags : (t.mem.pd h).flags = pt.flag
  prev : (t.mem.pd h).prev = 0#64
  frame : ∀ b ∈ s.live, t.mem.pd b.head = s.mem.pd b.head
  linked : AllLinked L s.mem F → AllLinked L t.mem F'

/-- The live block `b` was given back. -/
structure Returned (P : Pool L) (s : BuddyState) (F : Nat → List Nat) (b : Block)
    (t : BuddyState) (F' : Nat → List Nat) : Prop where
  ok : BuddyOk P t F'
  live : t.live = s.live.erase b
  frame : ∀ c ∈ s.live.erase b, t.mem.pd c.head = s.mem.pd c.head
  linked : AllLinked L s.mem F → ¬ OnMerge (CutsBack (freeBlock L)) s.mem b.head b.order →
    AllLinked L t.mem F'
  cut : OnMerge (CutsBack (freeBlock L)) s.mem b.head b.order → CutList L t.mem F'

theorem BuddyOk.allocPages_spec (h : BuddyOk P s F) (order : Nat) (hf : pt ≠ .free)
    (ht : pt ≠ .tails) :
    match allocPages L s pt order with
    | none => ∃ k, FirstFree F order k ∧ LostHead L s.mem k
    | some (none, t) => t = s ∧ ∀ k, order ≤ k → F k = []
    | some (some a, t) => (∃ k, FirstFree F order k ∧ ¬ LostHead L s.mem k) ∧
        ∃ F', Taken P s F order pt a t F' := by
  have hspec := h.inv.allocateWithOrder_spec order ht
  rw [allocPages]
  match hm : allocateWithOrder L s.mem order pt with
  | none => rw [hm] at hspec; exact hspec
  | some (none, m) =>
    rw [hm] at hspec
    obtain ⟨rfl, he⟩ := hspec
    exact ⟨rfl, he⟩
  | some (some a, m) =>
    rw [hm] at hspec
    obtain ⟨hk, F', hA⟩ := hspec
    refine ⟨hk, F', ⟨hA.inv, hA.coalesced h.coalesced, ?_, ?_⟩, rfl, hA.flags, hA.prev, hA.frame,
      hA.linked⟩
    · intro b hb
      rcases List.mem_cons.mp hb with rfl | hb
      · exact hA.orders
      · simp only [hA.frame b hb]; exact h.orders b hb
    · intro b hb
      rcases List.mem_cons.mp hb with rfl | hb
      · simp only [hA.flags, ne_eq, PageType.flag_inj]; exact hf
      · simp only [hA.frame b hb]; exact h.flags b hb

theorem BuddyOk.freePages_spec (h : BuddyOk P s F) (hb : b ∈ s.live) :
    match freePages L s b.head with
    | none => OnMerge (LostNext (freeBlock L)) s.mem b.head b.order
    | some t => ¬ OnMerge (LostNext (freeBlock L)) s.mem b.head b.order ∧
        ∃ F', Returned P s F b t F' := by
  have hspec := h.inv.deallocateBlock_spec hb (h.orders b hb) h.flags
  rw [freePages]
  match hm : deallocateBlock L s.mem b.head with
  | none => rw [hm] at hspec; exact hspec
  | some m =>
    rw [hm] at hspec
    obtain ⟨hnl, F', hF⟩ := hspec
    have he : (⟨b.head, (s.mem.pd b.head).orders⟩ : Block) = b := by rw [h.orders b hb]
    simp only [he]
    refine ⟨hnl, F', ⟨hF.inv, hF.coalesced h.coalesced, ?_, ?_⟩, rfl, hF.frame, hF.linked, hF.cut⟩
    · intro c hc; rw [hF.frame c hc]; exact h.orders c (List.mem_of_mem_erase hc)
    · intro c hc; rw [hF.frame c hc]; exact h.flags c (List.mem_of_mem_erase hc)

theorem allocate_ok (h : BuddyOk P s F) (hf : pt ≠ .free)
    (ht : pt ≠ .tails) (he : (BuddyOp.allocate order pt).exec L s = some t) :
    ∃ F', BuddyOk P t F' ∧ (AllLinked L s.mem F → AllLinked L t.mem F') := by
  have hspec := h.allocPages_spec order hf ht
  rw [BuddyOp.exec] at he
  match hp : allocPages L s pt order with
  | none => rw [hp] at he; cases he
  | some (none, u) =>
    rw [hp] at he hspec
    obtain ⟨rfl, _⟩ := hspec
    cases he
    exact ⟨F, h, id⟩
  | some (some a, u) =>
    rw [hp] at he hspec
    cases he
    obtain ⟨_, F', hT⟩ := hspec
    exact ⟨F', hT.ok, hT.linked⟩

theorem deallocate_ok (h : BuddyOk P s F) (hb : b ∈ s.live)
    (he : (BuddyOp.deallocate b).exec L s = some t) : ∃ F', Returned P s F b t F' := by
  have hspec := h.freePages_spec hb
  rw [BuddyOp.exec] at he
  rw [he] at hspec
  exact hspec.2

theorem step_ok {i : BuddyOp} (h : BuddyOk P s F) (hl : i.Legal s) (he : i.exec L s = some t) :
    ∃ F', BuddyOk P t F' := by
  cases i with
  | allocate order pt =>
    obtain ⟨F', h', _⟩ := allocate_ok h hl.1 hl.2 he
    exact ⟨F', h'⟩
  | deallocate b =>
    obtain ⟨F', hR⟩ := deallocate_ok h hl he
    exact ⟨F', hR.ok⟩

/-- The invariant holds in every state of every run. -/
theorem reach_ok {G : BuddyState → BuddyOp → Prop} (h : Reach (buddySystem L P) G s) :
    ∃ F, BuddyOk P s F :=
  h.invariant (P := fun s => ∃ F, BuddyOk P s F)
    (fun _ hi => (init_ok hi).imp fun _ h => h.1)
    fun _ _ _ ⟨_, hs⟩ hl _ he => step_ok hs hl he

end Run

section Small

/-- A machine with 16 MiB and the descriptor table at 1 MiB: the first 2 MiB are the kernel's. -/
def smallLayout : Layout where
  pdBase := 0xffff800000100000
  pages := 4096
  slubs := 0xffff8000000ff000
  pdBase_pos := by decide
  pd_fits := by decide
  pages_le := by decide
  slubs_fits := by decide

def onePool : Pool smallLayout := ⟨[512], by decide, by decide, by decide, by decide⟩

def threePool : Pool smallLayout :=
  ⟨[512, 1024, 1536], by decide, by decide, by decide, by decide⟩

/-- The lists `makeBuddy` fills over a zeroed descriptor table. -/
def filled {L : Layout} (P : Pool L) : BuddyState :=
  ⟨(insertBlocks L (Mem.start fun _ => ⟨0⟩) P.heads).getD (Mem.start fun _ => ⟨0⟩), []⟩

theorem filled_init {L : Layout} (P : Pool L) : (buddySystem L P).init (filled P) := by
  obtain ⟨m, hm, _⟩ := filled_inv P fun _ => ⟨0⟩
  exact ⟨rfl, _, by rw [filled, hm]; rfl⟩

theorem filled_reach {L : Layout} {P : Pool L} {ops : List BuddyOp} {t : BuddyState}
    (h : replay (buddySystem L P) (filled P) ops = some t) :
    Reach (buddySystem L P) (fun _ _ => True) t :=
  (Reach.init (filled_init P)).replay h

end Small
end Memory
end TorexOS
