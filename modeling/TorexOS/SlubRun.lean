import TorexOS.SlubFree

/-!
# TorexOS.SlubRun

Runs of the slab allocators over the page allocator.

`kernelSystem L P` starts from the lists `makeBuddy` fills, over any contents of the memory, with
the seven allocators of `makePool`. Its operations allocate and free page blocks and objects of any
allocator, in any order, and write bytes to what is handed out; a run stops where a call
dereferences null. `KernelOk` holds in every state reached.
-/

namespace TorexOS
namespace Memory

open Util Util.ListBase Dyadic Packed FreeChain Transition

/-- The kernel, the page blocks handed out by `alloc_pages`, and the live objects of each
allocator. -/
structure KernelState where
  kernel : Kernel
  held : List Block
  objs : Nat → List Nat

inductive KernelOp where
  | allocPages (pt : PageType) (order : Nat)
  | freePages (b : Block)
  | alloc (k : Nat)
  | free (k p : Nat)
  | write (a : Nat) (v : BitVec 8)
  deriving DecidableEq

/-- The slab of `slubs[k]` around an address. -/
def slabOf (k p : Nat) : Nat := floor (toPhys p / smallestPageSize) k

def KernelOp.Legal (s : KernelState) : KernelOp → Prop
  | .allocPages pt _ => pt ≠ .free ∧ pt ≠ .tails
  | .freePages b => b ∈ s.held
  | .alloc k => k < 7
  | .free k p => k < 7 ∧ p ∈ s.objs k
  | .write a _ => (∃ b ∈ s.held, InPages b a) ∨
      ∃ k, k < 7 ∧ ∃ p ∈ s.objs k, p ≤ a ∧ a < p + (s.kernel.slubs k).objectSize

def KernelOp.exec (L : Layout) (s : KernelState) : KernelOp → Except Fault KernelState
  | .allocPages pt order =>
    match Memory.allocPages L s.kernel.pages pt order with
    | none => .error .pageList
    | some (none, t) => .ok { s with kernel := { s.kernel with pages := t } }
    | some (some h, t) =>
      .ok { s with kernel := { s.kernel with pages := t }, held := ⟨h, order⟩ :: s.held }
  | .freePages b =>
    match Memory.freePages L s.kernel.pages b.head with
    | none => .error .pageList
    | some t => .ok { s with kernel := { s.kernel with pages := t }, held := s.held.erase b }
  | .alloc k =>
    match Memory.alloc L s.kernel k with
    | .error e => .error e
    | .ok (none, K) => .ok { s with kernel := K }
    | .ok (some p, K) =>
      .ok { s with kernel := K, objs := Function.update s.objs k (p :: s.objs k) }
  | .free k p =>
    match Memory.free L s.kernel k (slabOf k p) p with
    | .error e => .error e
    | .ok K => .ok { s with kernel := K, objs := Function.update s.objs k ((s.objs k).erase p) }
  | .write a v =>
    .ok { s with kernel := { s.kernel with ram := Function.update s.kernel.ram a v } }

/-- `makePool`: `slubs[i].object_size = sizes[i]`. -/
def makePool (k : Nat) : SlubAllocator :=
  ⟨ListBase.new, ListBase.new, [32, 64, 128, 256, 512, 1024, 2048].getD k 0⟩

theorem makePool_size : ∀ k, k < 7 → (makePool k).objectSize = cellSize k := by decide

def kernelSystem (L : Layout) (P : Pool L) : System KernelState KernelOp where
  init s := (buddySystem L P).init s.kernel.pages ∧ s.kernel.slubs = makePool ∧ s.held = [] ∧
    ∀ k, s.objs k = []
  legal s i := i.Legal s
  step s i := (i.exec L s).toOption

/-! ## The invariant -/

structure KernelOk {L : Layout} (P : Pool L) (s : KernelState) (F : Nat → List Nat)
    (V : Nat → View) : Prop where
  pages : BuddyOk P s.kernel.pages F
  slub : ∀ k, k < 7 → SlubOk L s.kernel k (V k) (s.objs k)
  used : ∀ k, k < 7 → (V k).Used
  nodup : s.held.Nodup
  held : ∀ b ∈ s.held, b ∈ s.kernel.pages.live ∧ (b.order < 7 → b.head ∉ (V b.order).owned)
  live : ∀ b ∈ s.kernel.pages.live, b ∈ s.held ∨ b.order < 7 ∧ b.head ∈ (V b.order).owned

/-- The full lists of all allocators have their next links. -/
def SlabsLinked (L : Layout) (s : KernelState) (V : Nat → View) : Prop :=
  ∀ k, k < 7 → FullLinked L s.kernel k (V k)

section Run

variable {L : Layout} {P : Pool L} {s t : KernelState} {F F' : Nat → List Nat} {V : Nat → View}
variable {v v' : View} {k j b c p : Nat} {objs objs' : List Nat} {K K' : Kernel}

/-- What is unchanged for an allocator when others work. -/
theorem SlubOk.frame (h : SlubOk L K j v objs) (hs : K'.slubs j = K.slubs j)
    (hpd : ∀ b ∈ v.owned, K'.pd b = K.pd b) (hlive : ∀ b ∈ v.owned, ⟨b, j⟩ ∈ K'.pages.live)
    (hr : ∀ b ∈ v.owned, ∀ c ∈ v.chain b,
      load32 K'.ram (cellAddr j b c) = load32 K.ram (cellAddr j b c)) :
    SlubOk L K' j v objs ∧ (FullLinked L K j v → FullLinked L K' j v) := by
  have hps : ∀ a ∈ v.ps, K'.pd a = K.pd a := fun a ha => hpd a (List.mem_append_left _ ha)
  have hfs : ∀ a ∈ v.fs, K'.pd a = K.pd a := fun a ha => hpd a (List.mem_append_right _ ha)
  refine ⟨⟨by rw [hs]; exact h.size, ?_, ?_, h.nodup, h.full_marked, h.rest,
    h.cells.frame hlive (fun b hb => by rw [hpd b hb]; exact .rfl) hr⟩, fun hf => ?_⟩
  · rw [hs]; exact Linked.of_pd_eq h.part hps
  · rw [hs]; exact Threaded.of_pd_eq h.full hfs
  · rw [FullLinked, hs]; exact Linked.of_pd_eq hf hfs

theorem KernelOk.owned_live (h : KernelOk P s F V) (hk : k < 7) (hb : b ∈ (V k).owned) :
    ⟨b, k⟩ ∈ s.kernel.pages.live := (h.slub k hk).cells.held b hb

/-- Two allocators share no slab. -/
theorem KernelOk.owned_ne (h : KernelOk P s F V) (hk : k < 7) (hj : j < 7) (hjk : j ≠ k)
    (hb : b ∈ (V j).owned) : b ∉ (V k).owned := by
  intro hc
  have := h.pages.inv.tiling.head_unique (b := ⟨b, j⟩) (c := ⟨b, k⟩)
    (.inr (h.owned_live hj hb)) (.inr (h.owned_live hk hc)) rfl
  exact hjk (congrArg Block.order this)

/-- The slab of an object is found from its address. -/
theorem KernelOk.slabOf_eq (h : KernelOk P s F V) (hk : k < 7) (hb : b ∈ (V k).owned)
    {a : Nat} (ha : InPages ⟨b, k⟩ a) : slabOf k a = b := by
  have hlive := h.owned_live hk hb
  have hlt := h.pages.inv.head_lt (b := ⟨b, k⟩) (.inr hlive)
  have hfit := h.pages.inv.fits _ (h.pages.inv.head_inPool (b := ⟨b, k⟩) (.inr hlive))
  have hle := L.pages_le
  have hcov := ha.covers hlt
  have h2 : 2 ^ k ≤ 2 ^ 6 := Nat.pow_le_pow_right (by omega) (by omega)
  rw [InPages, toKerAddr_eq (by simp only at hlt ⊢; omega)] at ha
  simp only at ha hlt hfit
  obtain ⟨off, rfl⟩ : ∃ off, a = kerBase + off := ⟨a - kerBase, by omega⟩
  rw [slabOf, toPhys_toKer (by omega), smallestPageSize]
  rw [Nat.add_sub_cancel_left] at hcov
  exact floor_unique (h.pages.inv.tiling.aligned ⟨b, k⟩ (.inr hlive)) hcov

/-- A live object is a cell of a slab of its allocator. -/
theorem KernelOk.object (h : KernelOk P s F V) (hk : k < 7) (hp : p ∈ s.objs k) :
    ∃ b ∈ (V k).owned, slabOf k p = b ∧ ∃ c, c < 128 ∧ p = cellAddr k b c := by
  obtain ⟨b, hb, c, hc, rfl⟩ := (h.slub k hk).cells.located p hp
  exact ⟨b, hb, h.slabOf_eq hk hb (cellAddr_inPages hc), c, hc, rfl⟩

/-! ## One lemma for each operation -/

theorem KernelOk.of_kept (h : KernelOk P s F V) (hk : k < 7)
    (hK : Kept P k s.kernel F (V k) K F' v' objs') (hu : v'.Used) :
    KernelOk P ⟨K, s.held, Function.update s.objs k objs'⟩ F' (Function.update V k v') ∧
      (SlabsLinked L s V →
        SlabsLinked L ⟨K, s.held, Function.update s.objs k objs'⟩ (Function.update V k v')) := by
  have hframe : ∀ j, j < 7 → j ≠ k → SlubOk L K j (V j) (s.objs j) ∧
      (FullLinked L s.kernel j (V j) → FullLinked L K j (V j)) := by
    intro j hj hjk
    refine (h.slub j hj).frame (hK.effect.slubs j hjk)
      (fun b hb => hK.effect.pd ⟨b, j⟩ (h.owned_live hj hb) (h.owned_ne hk hj hjk hb))
      (fun b hb => hK.effect.live _ (h.owned_live hj hb)) fun b hb c hc => ?_
    have hsz := cellSize_ge j
    have hc128 := ((h.slub j hj).cells.slab b hb).lt c hc
    refine load32_congr fun i hi => hK.effect.ram _ fun d hd hnd hin => hnd ?_
    have := hK.pages.inPages_unique (hK.effect.live _ (h.owned_live hj hb)) hd
      (cell_inPages hc128 (by omega)) hin
    rw [← this]; exact h.owned_live hj hb
  refine ⟨⟨hK.pages, fun j hj => ?_, fun j hj => ?_, h.nodup, fun b hb => ⟨hK.effect.live b
    (h.held b hb).1, fun ho => ?_⟩, fun b hb => ?_⟩, fun hl j hj => ?_⟩
  · by_cases hjk : j = k
    · subst hjk; simp only [Function.update_self]; exact hK.slub
    · simp only [Function.update_of_ne hjk]; exact (hframe j hj hjk).1
  · by_cases hjk : j = k
    · subst hjk; rw [Function.update_self]; exact hu
    · rw [Function.update_of_ne hjk]; exact h.used j hj
  · obtain ⟨hbl, hbo⟩ := h.held b hb
    by_cases hbk : b.order = k
    · rw [hbk, Function.update_self]
      intro hc
      refine hbo ho ?_
      rw [hbk]
      by_contra hn
      -- a block newly owned was not live
      exact hK.new_not_live (b := b.head) hc hn b hbl rfl
    · rw [Function.update_of_ne hbk]; exact hbo ho
  · rcases (hK.live_iff b).mp hb with hb | ⟨ho, hb⟩
    · rcases h.live b hb with hb | ⟨ho, hb⟩
      · exact .inl hb
      · refine .inr ⟨ho, ?_⟩
        by_cases hbk : b.order = k
        · rw [hbk, Function.update_self]; rw [hbk] at hb; exact hK.mono _ hb
        · rw [Function.update_of_ne hbk]; exact hb
    · exact .inr ⟨by rw [ho]; exact hk, by rw [ho, Function.update_self]; exact hb⟩
  · by_cases hjk : j = k
    · subst hjk; simp only [Function.update_self]; exact hK.full (hl j hj)
    · simp only [Function.update_of_ne hjk]; exact (hframe j hj hjk).2 (hl j hj)

theorem KernelOk.of_freed (h : KernelOk P s F V) (hk : k < 7) (hb : b ∈ (V k).owned)
    (hc : c < 128) (hF : CellFreed P k s.kernel F (V k) (s.objs k) b (cellAddr k b c) K F' v') :
    KernelOk P ⟨K, s.held, Function.update s.objs k ((s.objs k).erase (cellAddr k b c))⟩ F'
        (Function.update V k v') ∧
      (SlabsLinked L s V → ¬ CutsFull L s.kernel k b → SlabsLinked L
        ⟨K, s.held, Function.update s.objs k ((s.objs k).erase (cellAddr k b c))⟩
        (Function.update V k v')) := by
  have hsz := cellSize_ge k
  have hsub : ∀ d ∈ v'.owned, d ∈ (V k).owned := fun d hd => ((hF.owned_iff d).mp hd).1
  have hframe : ∀ j, j < 7 → j ≠ k → SlubOk L K j (V j) (s.objs j) ∧
      (FullLinked L s.kernel j (V j) → FullLinked L K j (V j)) := by
    intro j hj hjk
    refine (h.slub j hj).frame (hF.slubs j hjk)
      (fun d hd => hF.pd ⟨d, j⟩ (h.owned_live hj hd) (h.owned_ne hk hj hjk hd))
      (fun d hd => (hF.live_iff _).mpr ⟨h.owned_live hj hd, fun hc =>
        hjk (congrArg Block.order hc.1)⟩) fun d hd e he => ?_
    refine h.pages.word_outside (h.owned_live hk hb) (h.owned_live hj hd)
      (fun hc => hjk (congrArg Block.order hc)) (fun x hx => hF.ram x ?_)
      (((h.slub j hj).cells.slab d hd).lt e he)
    by_contra hin
    exact hx (cell_byte hc (by omega))
  refine ⟨⟨hF.pages, fun j hj => ?_, fun j hj => ?_, h.nodup, fun d hd => ?_, fun d hd => ?_⟩,
    fun hl hcut j hj => ?_⟩
  · by_cases hjk : j = k
    · subst hjk; simp only [Function.update_self]; exact hF.slub
    · simp only [Function.update_of_ne hjk]; exact (hframe j hj hjk).1
  · by_cases hjk : j = k
    · subst hjk; rw [Function.update_self]; exact hF.used (h.used j hj)
    · rw [Function.update_of_ne hjk]; exact h.used j hj
  · obtain ⟨hdl, hdo⟩ := h.held d hd
    refine ⟨(hF.live_iff d).mpr ⟨hdl, fun hc => ?_⟩, fun ho => ?_⟩
    · rw [hc.1] at hdo; exact hdo hk hb
    · by_cases hdk : d.order = k
      · rw [hdk, Function.update_self]
        intro hc
        exact hdo ho (by rw [hdk]; exact hsub _ hc)
      · rw [Function.update_of_ne hdk]; exact hdo ho
  · obtain ⟨hdl, hdn⟩ := (hF.live_iff d).mp hd
    rcases h.live d hdl with hd | ⟨ho, hdo⟩
    · exact .inl hd
    · refine .inr ⟨ho, ?_⟩
      by_cases hdk : d.order = k
      · rw [hdk] at hdo
        rw [hdk, Function.update_self]
        refine (hF.owned_iff _).mpr ⟨hdo, fun hc => hdn ⟨?_, hc.2⟩⟩
        rw [Block.ext_iff]; exact ⟨hc.1, hdk⟩
      · rw [Function.update_of_ne hdk]; exact hdo
  · by_cases hjk : j = k
    · subst hjk; simp only [Function.update_self]; exact hF.full (hl j hj) hcut
    · simp only [Function.update_of_ne hjk]; exact (hframe j hj hjk).2 (hl j hj)

theorem KernelOk.of_taken {order : Nat} {pt : PageType} {u : BuddyState} (h : KernelOk P s F V)
    (hT : Taken P s.kernel.pages F order pt b u F') :
    KernelOk P ⟨{ s.kernel with pages := u }, ⟨b, order⟩ :: s.held, s.objs⟩ F' V ∧
      (SlabsLinked L s V →
        SlabsLinked L ⟨{ s.kernel with pages := u }, ⟨b, order⟩ :: s.held, s.objs⟩ V) := by
  have hsub : ∀ d ∈ s.kernel.pages.live, d ∈ u.live := fun d hd => by rw [hT.live]; simp [hd]
  have hfresh : (⟨b, order⟩ : Block) ∉ s.kernel.pages.live := by
    have hnd := hT.ok.inv.held_nodup
    rw [hT.live] at hnd
    exact (List.nodup_cons.mp hnd).1
  have hframe : ∀ j, j < 7 → SlubOk L { s.kernel with pages := u } j (V j) (s.objs j) ∧
      (FullLinked L s.kernel j (V j) → FullLinked L { s.kernel with pages := u } j (V j)) :=
    fun j hj => (h.slub j hj).frame rfl (fun d hd => hT.frame ⟨d, j⟩ (h.owned_live hj hd))
      (fun d hd => hsub _ (h.owned_live hj hd)) fun _ _ _ _ => rfl
  refine ⟨⟨hT.ok, fun j hj => (hframe j hj).1, h.used, List.nodup_cons.mpr ⟨fun hc =>
    hfresh (h.held _ hc).1, h.nodup⟩, fun d hd => ?_, fun d hd => ?_⟩,
    fun hl j hj => (hframe j hj).2 (hl j hj)⟩
  · rcases List.mem_cons.mp hd with rfl | hd
    · exact ⟨by rw [hT.live]; simp, fun ho hc => hfresh (h.owned_live ho hc)⟩
    · exact ⟨hsub d (h.held d hd).1, (h.held d hd).2⟩
  · simp only [hT.live, List.mem_cons] at hd
    rcases hd with rfl | hd
    · exact .inl (by simp)
    · exact (h.live d hd).imp_left fun hd => by simp [hd]

theorem KernelOk.of_returned {d : Block} {u : BuddyState} (h : KernelOk P s F V) (hd : d ∈ s.held)
    (hR : Returned P s.kernel.pages F d u F') :
    KernelOk P ⟨{ s.kernel with pages := u }, s.held.erase d, s.objs⟩ F' V ∧
      (SlabsLinked L s V →
        SlabsLinked L ⟨{ s.kernel with pages := u }, s.held.erase d, s.objs⟩ V) := by
  have hnd : s.kernel.pages.live.Nodup := h.pages.inv.held_nodup
  have hne : ∀ j, j < 7 → ∀ a ∈ (V j).owned, (⟨a, j⟩ : Block) ∈ s.kernel.pages.live.erase d := by
    intro j hj a ha
    refine hnd.mem_erase_iff.mpr ⟨?_, h.owned_live hj ha⟩
    rintro rfl
    exact (h.held _ hd).2 hj ha
  have hframe : ∀ j, j < 7 → SlubOk L { s.kernel with pages := u } j (V j) (s.objs j) ∧
      (FullLinked L s.kernel j (V j) → FullLinked L { s.kernel with pages := u } j (V j)) :=
    fun j hj => (h.slub j hj).frame rfl (fun a ha => hR.frame ⟨a, j⟩ (hne j hj a ha))
      (fun a ha => by rw [hR.live]; exact hne j hj a ha) fun _ _ _ _ => rfl
  refine ⟨⟨hR.ok, fun j hj => (hframe j hj).1, h.used, h.nodup.erase d, fun a ha => ?_,
    fun a ha => ?_⟩, fun hl j hj => (hframe j hj).2 (hl j hj)⟩
  · obtain ⟨hne, ha⟩ := h.nodup.mem_erase_iff.mp ha
    refine ⟨?_, (h.held a ha).2⟩
    rw [hR.live]
    exact hnd.mem_erase_iff.mpr ⟨hne, (h.held a ha).1⟩
  · simp only [hR.live, hnd.mem_erase_iff] at ha
    exact (h.live a ha.2).imp_left fun hm => h.nodup.mem_erase_iff.mpr ⟨ha.1, hm⟩

/-- Bytes written to what is handed out are in no free cell. -/
theorem KernelOk.of_write {a : Nat} {x : BitVec 8} (h : KernelOk P s F V)
    (hl : KernelOp.Legal s (.write a x)) :
    KernelOk P { s with kernel := { s.kernel with ram := Function.update s.kernel.ram a x } } F V ∧
      (SlabsLinked L s V → SlabsLinked L
        { s with kernel := { s.kernel with ram := Function.update s.kernel.ram a x } } V) := by
  have hout : ∀ {d : Block} {y : Nat}, InPages d a → ¬ InPages d y →
      Function.update s.kernel.ram a x y = s.kernel.ram y := by
    intro d y ha hy
    refine Function.update_of_ne ?_ _ _
    rintro rfl; exact hy ha
  have hword : ∀ j, j < 7 → ∀ d ∈ (V j).owned, ∀ e ∈ (V j).chain d,
      load32 (Function.update s.kernel.ram a x) (cellAddr j d e) =
        load32 s.kernel.ram (cellAddr j d e) := by
    intro j hj d hd e he
    have hsd := (h.slub j hj).cells.slab d hd
    have he128 := hsd.lt e he
    rcases hl with ⟨r, hr, ha⟩ | ⟨k, hk, p, hp, hlo, hhi⟩
    · obtain ⟨hrl, hro⟩ := h.held r hr
      refine h.pages.word_outside hrl (h.owned_live hj hd) ?_ (fun y hy => hout ha hy) he128
      rintro rfl; exact hro hj hd
    · obtain ⟨b, hb, _, c, hc, rfl⟩ := h.object hk hp
      rw [(h.slub k hk).size] at hhi
      have hin : InPages ⟨b, k⟩ a := cell_byte hc ⟨hlo, hhi⟩
      by_cases hsame : (⟨d, j⟩ : Block) = ⟨b, k⟩
      · -- another cell of the same slab
        obtain ⟨rfl, rfl⟩ := Block.mk.inj hsame
        have hce : e ≠ c := by
          rintro rfl
          exact ((hsd.cells e he128).mp hp) he
        have hsz := cellSize_ge j
        refine load32_congr fun i hi => Function.update_of_ne ?_ _ _
        rcases Nat.lt_or_gt_of_ne hce with hlt | hlt
        · have := Nat.mul_le_mul_right (cellSize j) (Nat.succ_le_of_lt hlt)
          rw [Nat.succ_mul] at this
          simp only [cellAddr] at hlo hhi ⊢; omega
        · have := Nat.mul_le_mul_right (cellSize j) (Nat.succ_le_of_lt hlt)
          rw [Nat.succ_mul] at this
          simp only [cellAddr] at hlo hhi ⊢; omega
      · exact h.pages.word_outside (h.owned_live hk hb) (h.owned_live hj hd) hsame
          (fun y hy => hout hin hy) he128
  have hframe : ∀ j, j < 7 →
      SlubOk L { s.kernel with ram := Function.update s.kernel.ram a x } j (V j) (s.objs j) ∧
      (FullLinked L s.kernel j (V j) →
        FullLinked L { s.kernel with ram := Function.update s.kernel.ram a x } j (V j)) :=
    fun j hj => (h.slub j hj).frame rfl (fun _ _ => rfl) (fun d hd => h.owned_live hj hd)
      (hword j hj)
  exact ⟨⟨h.pages, fun j hj => (hframe j hj).1, h.used, h.nodup, h.held, h.live⟩,
    fun hl j hj => (hframe j hj).2 (hl j hj)⟩

/-! ## Steps and runs -/

/-- No page block given back by the operation cuts a free list of the page allocator. -/
def KeepsPageLists (L : Layout) (s : KernelState) : KernelOp → Prop
  | .freePages b => ¬ OnMerge (CutsBack (freeBlock L)) s.kernel.pages.mem b.head b.order
  | .free k p => ¬ CutsPages L s.kernel k (slabOf k p)
  | _ => True

/-- An exhausted slab is freed into only once it is on the full list, and not while it is the last
of three slabs or more there. -/
def KeepsSlabLists (L : Layout) (s : KernelState) : KernelOp → Prop
  | .free k p => Exhausted s.kernel (slabOf k p) →
      (s.kernel.slubs k).partialList.head ≠ some (slabOf k p) ∧
      ¬ CutsBack (slubBlock L) s.kernel.pd (s.kernel.slubs k).fullList (slabOf k p)
  | _ => True

/-- `alloc` is not called while the slab in front is exhausted. -/
def FrontHasCell (s : KernelState) : KernelOp → Prop
  | .alloc k => ∀ b ∈ (s.kernel.slubs k).partialList.head, ¬ Exhausted s.kernel b
  | _ => True

theorem KernelOk.free_spec (h : KernelOk P s F V) (hk : k < 7) (hp : p ∈ s.objs k) :
    FreeSpec P k s.kernel F (V k) (s.objs k) (slabOf k p) p
      (Memory.free L s.kernel k (slabOf k p) p) := by
  obtain ⟨b, hb, rfl, c, hc, he⟩ := h.object hk hp
  have hspec := Memory.free_spec h.pages (h.slub k hk) hk hb hc (by rw [← he]; exact hp)
  rwa [← he] at hspec

/-- What a step keeps. -/
structure Stepped (P : Pool L) (s : KernelState) (F : Nat → List Nat) (V : Nat → View)
    (i : KernelOp) (t : KernelState) (F' : Nat → List Nat) (V' : Nat → View) : Prop where
  ok : KernelOk P t F' V'
  linked : AllLinked L s.kernel.pages.mem F → KeepsPageLists L s i →
    AllLinked L t.kernel.pages.mem F'
  slabs : SlabsLinked L s V → KeepsSlabLists L s i → SlabsLinked L t V'
  unmarked : (∀ k, k < 7 → (V k).Unmarked) → FrontHasCell s i → ∀ k, k < 7 → (V' k).Unmarked

theorem unmarked_update (h : ∀ k, k < 7 → (V k).Unmarked) (hv : v'.Unmarked) :
    ∀ j, j < 7 → (Function.update V k v' j).Unmarked := by
  intro j hj
  by_cases hjk : j = k
  · subst hjk; rw [Function.update_self]; exact hv
  · rw [Function.update_of_ne hjk]; exact h j hj

theorem KernelOk.unexhausted (h : KernelOk P s F V) (hk : k < 7)
    (hf : FrontHasCell s (.alloc k)) : (V k).Unexhausted := by
  intro b hb hc
  have hbo : b ∈ (V k).owned := List.mem_append_left _ (List.mem_of_mem_head? hb)
  refine hf b ?_ (((h.slub k hk).exhausted_iff hk hbo).mpr hc)
  rw [(h.slub k hk).part.head]; exact hb

theorem KernelOk.step {i : KernelOp} (h : KernelOk P s F V) (hl : i.Legal s)
    (he : i.exec L s = .ok t) : ∃ F' V', Stepped P s F V i t F' V' := by
  cases i with
  | allocPages pt order =>
    have hspec := h.pages.allocPages_spec order hl.1 hl.2
    rw [KernelOp.exec] at he
    match hm : Memory.allocPages L s.kernel.pages pt order with
    | none => rw [hm] at he; cases he
    | some (none, u) =>
      rw [hm] at he hspec
      obtain ⟨rfl, _⟩ := hspec
      cases he
      exact ⟨F, V, h, fun hl _ => hl, fun hl _ => hl, fun hm _ => hm⟩
    | some (some b, u) =>
      rw [hm] at he hspec
      obtain ⟨_, F', hT⟩ := hspec
      cases he
      obtain ⟨hok, hsl⟩ := h.of_taken hT
      exact ⟨F', V, hok, fun hl _ => hT.linked hl, fun hl _ => hsl hl, fun hm _ => hm⟩
  | freePages b =>
    have hspec := h.pages.freePages_spec (h.held b hl).1
    rw [KernelOp.exec] at he
    match hm : Memory.freePages L s.kernel.pages b.head with
    | none => rw [hm] at he; cases he
    | some u =>
      rw [hm] at he hspec
      obtain ⟨_, F', hR⟩ := hspec
      cases he
      obtain ⟨hok, hsl⟩ := h.of_returned hl hR
      exact ⟨F', V, hok, hR.linked, fun hl _ => hsl hl, fun hm _ => hm⟩
  | alloc k =>
    have hspec := alloc_spec h.pages (h.slub k hl) hl
    rw [KernelOp.exec] at he
    match hm : Memory.alloc L s.kernel k with
    | .error e => rw [hm] at he; cases he
    | .ok (none, K) =>
      rw [hm] at he hspec
      obtain ⟨_, _, v', hK, hu, _⟩ := hspec
      cases he
      obtain ⟨hok, hsl⟩ := h.of_kept hl hK (hu (h.used k hl))
      rw [Function.update_eq_self] at hok hsl
      exact ⟨F, _, hok, fun hl _ => hK.linked hl, fun hl _ => hsl hl, fun hm hf =>
        unmarked_update hm (hK.unmarked (h.unexhausted hl hf) (hm k hl))⟩
    | .ok (some p, K) =>
      rw [hm] at he hspec
      obtain ⟨F', v', hK⟩ := hspec
      cases he
      obtain ⟨hok, hsl⟩ := h.of_kept hl hK.toKept (hK.used (h.used k hl))
      exact ⟨F', _, hok, fun hl _ => hK.linked hl, fun hl _ => hsl hl, fun hm hf =>
        unmarked_update hm (hK.unmarked (h.unexhausted hl hf) (hm k hl))⟩
  | free k p =>
    obtain ⟨hk, hp⟩ := hl
    have hspec := h.free_spec hk hp
    obtain ⟨b, hb, hsb, c, hc, hpc⟩ := h.object hk hp
    rw [KernelOp.exec] at he
    match hm : Memory.free L s.kernel k (slabOf k p) p with
    | .error e => rw [hm] at he; cases he
    | .ok K =>
      rw [hm] at he hspec
      obtain ⟨_, _, F', v', hF⟩ := hspec
      cases he
      rw [hsb, hpc] at hF
      obtain ⟨hok, hsl⟩ := h.of_freed hk hb hc hF
      rw [← hpc] at hok hsl
      refine ⟨F', _, hok, fun hl hkp => hF.linked hl ?_, fun hl hks => hsl hl ?_, fun hm _ =>
        unmarked_update hm (hF.unmarked (hm k hk))⟩
      · rw [← hsb]; exact hkp
      · rintro ⟨hex, hcut⟩
        rw [← hsb] at hex hcut
        exact (hks hex).2 hcut
  | write a x =>
    rw [KernelOp.exec] at he
    cases he
    obtain ⟨hok, hsl⟩ := h.of_write hl
    exact ⟨F, V, hok, fun hl _ => hl, fun hl _ => hsl hl, fun hm _ => hm⟩

def noSlabs : Nat → View := fun _ => ⟨[], [], fun _ => [], fun _ => false⟩

theorem kernel_init_ok (hi : (kernelSystem L P).init s) :
    ∃ F, KernelOk P s F noSlabs ∧ AllLinked L s.kernel.pages.mem F ∧ SlabsLinked L s noSlabs ∧
      ∀ k, k < 7 → (noSlabs k).Unmarked := by
  obtain ⟨hb, hs, hh, ho⟩ := hi
  obtain ⟨F, hok, hal⟩ := init_ok hb
  have hlive : s.kernel.pages.live = [] := hb.1
  have hno : ∀ {b k : Nat}, b ∉ (noSlabs k).owned := fun hb => nomatch hb
  refine ⟨F, ⟨hok, fun k hk => ?_, fun k _ b hb => absurd hb hno, ?_, ?_, ?_⟩, hal,
    fun k hk => ?_, fun k _ b hb => absurd hb hno⟩
  · refine ⟨by rw [hs]; exact makePool_size k hk, ?_, ?_, .nil, fun b hb => (nomatch hb),
      fun b hb => (nomatch hb), ⟨fun b hb => absurd hb hno, fun b hb => absurd hb hno, ?_, ?_⟩⟩
    · rw [hs]; exact new_linked _ _
    · rw [hs]; exact (new_linked _ _).toThreaded
    · intro p hp; rw [ho] at hp; cases hp
    · rw [ho]; exact .nil
  · rw [hh]; exact .nil
  · intro b hb; rw [hh] at hb; cases hb
  · intro b hb; rw [hlive] at hb; cases hb
  · rw [FullLinked, hs]; exact new_linked _ _

theorem toOption_eq_some {α ε : Type} {r : Except ε α} {a : α}
    (h : r.toOption = some a) : r = .ok a := by
  cases r with
  | error e => cases h
  | ok b => cases h; rfl

/-- The invariant of all runs, and what the guards of a run add to it. -/
theorem kernel_reach {G : KernelState → KernelOp → Prop} (h : Reach (kernelSystem L P) G s) :
    ∃ F V, KernelOk P s F V ∧
      ((∀ s i, G s i → KeepsPageLists L s i) → AllLinked L s.kernel.pages.mem F) ∧
      ((∀ s i, G s i → KeepsSlabLists L s i) → SlabsLinked L s V) ∧
      ((∀ s i, G s i → FrontHasCell s i) → ∀ k, k < 7 → (V k).Unmarked) := by
  induction h with
  | init hi =>
    obtain ⟨F, hok, hal, hsl, hun⟩ := kernel_init_ok hi
    exact ⟨F, _, hok, fun _ => hal, fun _ => hsl, fun _ => hun⟩
  | step _ hl hg he ih =>
    obtain ⟨F, V, hok, hal, hsl, hun⟩ := ih
    obtain ⟨F', V', hS⟩ := hok.step hl (toOption_eq_some he)
    exact ⟨F', V', hS.ok, fun h => hS.linked (hal h) (h _ _ hg),
      fun h => hS.slabs (hsl h) (h _ _ hg), fun h => hS.unmarked (hun h) (h _ _ hg)⟩

end Run
end Memory
end TorexOS
