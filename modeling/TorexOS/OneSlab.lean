import TorexOS.SlubCells
import TorexOS.Lib.Transition

/-!
# TorexOS.OneSlab

One slab by itself: `make_slabs`, then `alloc_in_oneblock` and `free_in_oneblock` in any order, for
any size of object and of slab.

* `slabSystem`: the runs, in which clients write to the cells they hold.
* `free_chain`: the chain from `free_offset` meets the free cells, each once, and `in_use` counts the
  others modulo `2 ^ 16`.
* `in_use_wraps`: 65536 cells in use are counted as none.
-/

namespace TorexOS
namespace Memory

open Util Packed FreeChain Transition

/-- The kernel, and the addresses of the cells handed out. -/
structure OneSlab where
  kernel : Kernel
  live : List Nat

inductive SlabOp where
  | alloc
  | free (ptr : Nat)
  | write (ptr i : Nat) (v : BitVec 8)

/-- The number of cells of a slab of `slubs[k]`. -/
def cellCount (K : Kernel) (k b : Nat) : Nat :=
  smallestPageSize <<< (K.pd b).orders / (K.slubs k).objectSize

/-- Cells are freed and written to by those who hold them. -/
def SlabOp.Legal (k : Nat) (s : OneSlab) : SlabOp → Prop
  | .alloc => True
  | .free ptr => ptr ∈ s.live
  | .write ptr i _ => ptr ∈ s.live ∧ i < (s.kernel.slubs k).objectSize

def SlabOp.exec (b : Nat) (s : OneSlab) : SlabOp → Option OneSlab
  | .alloc =>
    match allocInOneblock s.kernel b with
    | (none, K) => some { s with kernel := K }
    | (some ptr, K) => some ⟨K, ptr :: s.live⟩
  | .free ptr => some ⟨freeInOneblock s.kernel b ptr, s.live.erase ptr⟩
  | .write ptr i v =>
    some { s with kernel := { s.kernel with ram := Function.update s.kernel.ram (ptr + i) v } }

/-- A block about to be given to `make_slabs`. Offsets have 32 bits; a block of the page allocator
is 2 MiB at most. -/
structure Prepared (K : Kernel) (k b : Nat) : Prop where
  size_ge : 4 ≤ (K.slubs k).objectSize
  divides : (K.slubs k).objectSize ∣ smallestPageSize <<< (K.pd b).orders
  length_le : smallestPageSize <<< (K.pd b).orders ≤ 2 ^ 32
  freeOffset : (K.pd b).freeOffset = 0#32
  inUse : (K.pd b).inUse = 0#16

/-- The runs of slab `b` of `slubs[k]`. -/
def slabSystem (L : Layout) (k b : Nat) : System OneSlab SlabOp where
  init s := ∃ K, Prepared K k b ∧ s = ⟨makeSlabs L K k b, []⟩
  legal s i := i.Legal k s
  step s i := i.exec b s

/-- `chain` are the free cells, in the order in which the words in the cells link them. -/
structure SlabChain (K : Kernel) (k b : Nat) (live chain : List Nat) : Prop where
  linked : Chain K.ram (toKerAddr b) (K.slubs k).objectSize cellNull (K.pd b).freeOffset chain
  nodup : chain.Nodup
  mem_iff : ∀ c, c ∈ chain ↔
    c < cellCount K k b ∧ toKerAddr b + c * (K.slubs k).objectSize ∉ live

/-- The invariant of a run, over `n` cells of `size` bytes. -/
structure OneSlab.Inv (k b size n : Nat) (s : OneSlab) (chain : List Nat) : Prop where
  size_eq : (s.kernel.slubs k).objectSize = size
  limit : smallestPageSize <<< (s.kernel.pd b).orders = n * size
  linked : Chain s.kernel.ram (toKerAddr b) size cellNull (s.kernel.pd b).freeOffset chain
  nodup : chain.Nodup
  mem_iff : ∀ c, c ∈ chain ↔ c < n ∧ toKerAddr b + c * size ∉ s.live
  live : ∀ p ∈ s.live, ∃ c, c < n ∧ p = toKerAddr b + c * size
  live_nodup : s.live.Nodup
  count : chain.length + s.live.length = n
  inUse : (s.kernel.pd b).inUse = BitVec.ofNat 16 s.live.length

section Steps

variable {L : Layout} {K : Kernel} {k b c d size n base : Nat} {s t : OneSlab}
variable {chain cs : List Nat} {i : SlabOp} {ptr : Nat}

theorem cell_inj (hsz : 4 ≤ size) (h : base + c * size = base + d * size) : c = d :=
  Nat.eq_of_mul_eq_mul_right (by omega) (Nat.add_left_cancel h)

/-- A byte of one cell is not in the first word of another. -/
theorem byte_apart (hsz : 4 ≤ size) (base : Nat) {i : Nat} (hi : i < size) (h : c ≠ d) :
    base + c * size + i < base + d * size ∨ base + d * size + 4 ≤ base + c * size + i := by
  rcases Nat.lt_or_gt_of_ne h with h | h
  · have := Nat.mul_le_mul_right size (Nat.succ_le_of_lt h)
    rw [Nat.succ_mul] at this; omega
  · have := Nat.mul_le_mul_right size (Nat.succ_le_of_lt h)
    rw [Nat.succ_mul] at this; omega

theorem cell_offset_lt (hsz : 4 ≤ size) (hlen : n * size ≤ 2 ^ 32) (hc : c < n) :
    c * size < cellNull.toNat := by
  have hend := Nat.mul_le_mul_right size (Nat.succ_le_of_lt hc)
  have hnull : cellNull.toNat = 2 ^ 32 - 1 := by decide
  rw [Nat.succ_mul] at hend
  omega

namespace OneSlab.Inv

theorem lt (h : s.Inv k b size n chain) (hc : c ∈ chain) : c < n := ((h.mem_iff c).mp hc).1

theorem cellCount_eq (h : s.Inv k b size n chain) (hsz : 4 ≤ size) :
    cellCount s.kernel k b = n := by
  rw [cellCount, h.limit, h.size_eq, Nat.mul_div_cancel _ (by omega)]

theorem slabChain (h : s.Inv k b size n chain) (hsz : 4 ≤ size) :
    SlabChain s.kernel k b s.live chain := by
  refine ⟨?_, h.nodup, fun c => ?_⟩
  · rw [h.size_eq]; exact h.linked
  · rw [h.size_eq, h.cellCount_eq hsz]; exact h.mem_iff c

theorem exhausted_iff (h : s.Inv k b size n chain) (hsz : 4 ≤ size) (hlen : n * size ≤ 2 ^ 32) :
    (s.kernel.pd b).freeOffset = cellNull ↔ chain = [] :=
  h.linked.eq_nil_iff fun _ hc => cell_offset_lt hsz hlen (h.lt hc)

/-- `alloc_in_oneblock` takes the first cell of the chain. -/
theorem alloc_eq (h : s.Inv k b size n (c :: cs)) (hsz : 4 ≤ size) (hlen : n * size ≤ 2 ^ 32) :
    allocInOneblock s.kernel b = (some (toKerAddr b + c * size), s.kernel.withPd
      ((s.kernel.pd.modify b (·.setFreeOffset (load32 s.kernel.ram (toKerAddr b + c * size)))).modify b
        fun d => d.setInUse (d.inUse + 1))) := by
  have hne : (s.kernel.pd b).freeOffset ≠ cellNull := by rw [ne_eq, h.exhausted_iff hsz hlen]; simp
  have hof : (s.kernel.pd b).freeOffset.toNat = c * size := by
    rw [h.linked.1, BitVec.toNat_ofNat, Nat.mod_eq_of_lt]
    exact Nat.lt_trans (cell_offset_lt hsz hlen (h.lt (by simp))) cellNull.isLt
  rw [allocInOneblock, if_neg hne]
  simp only [hof]

theorem alloc_none (h : s.Inv k b size n []) (hsz : 4 ≤ size) (hlen : n * size ≤ 2 ^ 32) :
    allocInOneblock s.kernel b = (none, s.kernel) := by
  rw [allocInOneblock, if_pos ((h.exhausted_iff hsz hlen).mpr rfl)]

theorem alloc (h : s.Inv k b size n (c :: cs)) (hsz : 4 ≤ size) (hlen : n * size ≤ 2 ^ 32) :
    OneSlab.Inv k b size n ⟨(allocInOneblock s.kernel b).2, (toKerAddr b + c * size) :: s.live⟩ cs := by
  have hnd := List.nodup_cons.mp h.nodup
  have hc := (h.mem_iff c).mp (by simp)
  rw [h.alloc_eq hsz hlen]
  refine ⟨h.size_eq, ?_, ?_, hnd.2, fun d => ?_, fun p hp => ?_,
    List.nodup_cons.mpr ⟨hc.2, h.live_nodup⟩, ?_, ?_⟩
  · simpa using h.limit
  · simpa using h.linked.2
  · rw [List.mem_cons, not_or]
    constructor
    · intro hd
      obtain ⟨hlt, hnl⟩ := (h.mem_iff d).mp (by simp [hd])
      refine ⟨hlt, fun he => ?_, hnl⟩
      have := cell_inj hsz he
      subst this
      exact hnd.1 hd
    · rintro ⟨hlt, hne, hnl⟩
      cases List.mem_cons.mp ((h.mem_iff d).mpr ⟨hlt, hnl⟩) with
      | inl hdc => exact absurd (by rw [hdc]) hne
      | inr hd => exact hd
  · cases List.mem_cons.mp hp with
    | inl he => exact ⟨c, hc.1, he⟩
    | inr hp => exact h.live p hp
  · have := h.count
    simp only [List.length_cons] at *
    omega
  · have hu := h.inUse
    simp only [Kernel.withPd_pd, PdTable.modify_same, PageDescriptor.inUse_setInUse,
      PageDescriptor.inUse_setFreeOffset, hu, List.length_cons, BitVec.ofNat_add]
    rfl

/-- `free_in_oneblock` puts the cell in front of the chain. -/
theorem free (h : s.Inv k b size n chain) (hsz : 4 ≤ size) (hp : ptr ∈ s.live) :
    ∃ c, OneSlab.Inv k b size n ⟨freeInOneblock s.kernel b ptr, s.live.erase ptr⟩ (c :: chain) := by
  obtain ⟨c, hc, rfl⟩ := h.live ptr hp
  have hnc : c ∉ chain := fun hm => ((h.mem_iff c).mp hm).2 hp
  have hpd : (freeInOneblock s.kernel b (toKerAddr b + c * size)).pd =
      (s.kernel.pd.modify b (·.setFreeOffset (BitVec.ofNat 32 (c * size)))).modify b
        fun d => d.setInUse (d.inUse - 1) := by
    rw [freeInOneblock, Nat.add_sub_cancel_left]
    rfl
  have hpos := List.length_pos_of_mem hp
  have hlen := List.length_erase_of_mem hp
  refine ⟨c, h.size_eq, ?_, ?_, List.nodup_cons.mpr ⟨hnc, h.nodup⟩, fun d => ?_, fun p hp' => ?_,
    h.live_nodup.erase _, ?_, ?_⟩
  · rw [hpd]; simpa using h.limit
  · rw [hpd]
    simp only [PdTable.modify_same, PageDescriptor.freeOffset_setInUse,
      PageDescriptor.freeOffset_setFreeOffset]
    exact h.linked.push hnc hsz
  · rw [h.live_nodup.mem_erase_iff, List.mem_cons, h.mem_iff]
    constructor
    · rintro (rfl | ⟨hlt, hnl⟩)
      · exact ⟨hc, fun he => he.1 rfl⟩
      · exact ⟨hlt, fun he => hnl he.2⟩
    · rintro ⟨hlt, hne⟩
      by_cases hdc : d = c
      · exact .inl hdc
      · exact .inr ⟨hlt, fun hl => hne ⟨fun he => hdc (cell_inj hsz he), hl⟩⟩
  · exact h.live p (List.mem_of_mem_erase hp')
  · have := h.count
    rw [List.length_cons, hlen]
    omega
  · have hu : BitVec.ofNat 16 s.live.length =
        BitVec.ofNat 16 (s.live.length - 1) + 1#16 := by
      rw [← BitVec.ofNat_add]
      congr 1
      omega
    rw [hpd, hlen]
    simp only [PdTable.modify_same, PageDescriptor.inUse_setInUse,
      PageDescriptor.inUse_setFreeOffset, h.inUse]
    rw [hu]
    exact BitVec.add_sub_cancel _ _

/-- A client writes to a cell it holds. -/
theorem write (h : s.Inv k b size n chain) (hsz : 4 ≤ size) (hp : ptr ∈ s.live) {i : Nat}
    (hi : i < size) (v : BitVec 8) : OneSlab.Inv k b size n
      ⟨{ s.kernel with ram := Function.update s.kernel.ram (ptr + i) v }, s.live⟩ chain := by
  obtain ⟨c, hc, rfl⟩ := h.live ptr hp
  refine ⟨h.size_eq, h.limit, ?_, h.nodup, h.mem_iff, h.live, h.live_nodup, h.count, h.inUse⟩
  refine (Chain.congr fun d hd => load32_congr fun j hj => ?_).mpr h.linked
  have hne : c ≠ d := by
    rintro rfl
    exact ((h.mem_iff c).mp hd).2 hp
  have hap := byte_apart hsz (toKerAddr b) hi hne
  exact Function.update_of_ne (by omega) _ _

theorem exec (h : s.Inv k b size n chain) (hsz : 4 ≤ size) (hlen : n * size ≤ 2 ^ 32)
    (hl : i.Legal k s) (hs : i.exec b s = some t) : ∃ chain, t.Inv k b size n chain := by
  cases i with
  | alloc =>
    cases chain with
    | nil =>
      rw [SlabOp.exec, h.alloc_none hsz hlen] at hs
      cases hs
      exact ⟨[], h⟩
    | cons c cs =>
      have ha := h.alloc hsz hlen
      rw [h.alloc_eq hsz hlen] at ha
      rw [SlabOp.exec, h.alloc_eq hsz hlen] at hs
      cases hs
      exact ⟨cs, ha⟩
  | free ptr =>
    cases hs
    obtain ⟨c, hc⟩ := h.free hsz hl
    exact ⟨_, hc⟩
  | write ptr j v =>
    cases hs
    exact ⟨chain, h.write hsz hl.1 (h.size_eq ▸ hl.2) v⟩

end OneSlab.Inv
/-- After `make_slabs` all cells are free, in order. -/
theorem prepared_inv (L : Layout) (hp : Prepared K k b) : ∃ n,
    OneSlab.Inv k b (K.slubs k).objectSize n ⟨makeSlabs L K k b, []⟩ (List.range n) ∧
      n * (K.slubs k).objectSize ≤ 2 ^ 32 := by
  obtain ⟨hsz, hdvd, hlen, hfo, hiu⟩ := hp
  obtain ⟨n, hn⟩ : ∃ n, smallestPageSize <<< (K.pd b).orders = n * (K.slubs k).objectSize := by
    obtain ⟨n, hn⟩ := hdvd
    exact ⟨n, by rw [hn, Nat.mul_comm]⟩
  obtain ⟨m, rfl⟩ : ∃ m, n = m + 1 := by
    cases n with
    | zero =>
      have hpos : 0 < smallestPageSize <<< (K.pd b).orders := by
        rw [Nat.shiftLeft_eq]
        exact Nat.mul_pos (by decide) (Nat.two_pow_pos _)
      omega
    | succ m => exact ⟨m, rfl⟩
  obtain ⟨h1, h2, _⟩ := fillCells_spec hsz (toKerAddr b) K.ram 0 (Nat.zero_le (m + 1))
  rw [Nat.zero_mul] at h1 h2
  have hram : (makeSlabs L K k b).ram = store32
      (fillCells K.ram (toKerAddr b) (K.slubs k).objectSize ((m + 1) * (K.slubs k).objectSize) 0).1
      (toKerAddr b + m * (K.slubs k).objectSize) cellNull := by
    simp only [makeSlabs, hn, Kernel.withPd_ram, Kernel.withPd_slubs, h1]
    rw [Nat.succ_mul, Nat.add_sub_cancel]
  have hlinked : Chain (makeSlabs L K k b).ram (toKerAddr b) (K.slubs k).objectSize cellNull
      (BitVec.ofNat 32 (0 * (K.slubs k).objectSize)) (List.range' 0 (m + 1)) := by
    rw [hram]
    refine chain_range' (fun j _ hj => ?_) ?_
    · have hap := cell_apart hsz (toKerAddr b) (show j ≠ m by omega)
      rw [load32_store32_ne _ hap]
      exact h2 j (Nat.zero_le _) (by omega)
    · rw [Nat.zero_add]
      exact load32_store32 _ _ _
  refine ⟨m + 1, ⟨rfl, ?_, ?_, List.nodup_range, fun c => ?_, (by rintro p ⟨⟩), .nil, ?_, ?_⟩,
    by rw [← hn]; exact hlen⟩
  · rw [makeSlabs_pd]
    simpa using hn
  · rw [makeSlabs_pd, List.range_eq_range']
    simpa [hfo] using hlinked
  · simp
  · simp
  · rw [makeSlabs_pd]
    simpa using hiu

theorem slab_reach (h : Reach (slabSystem L k b) (fun _ _ => True) s) : ∃ size n chain,
    4 ≤ size ∧ n * size ≤ 2 ^ 32 ∧ s.Inv k b size n chain := by
  refine h.invariant (P := fun s : OneSlab => ∃ size n chain, 4 ≤ size ∧ n * size ≤ 2 ^ 32 ∧
    s.Inv k b size n chain) ?_ ?_
  · rintro s ⟨K, hp, rfl⟩
    obtain ⟨n, hi, hlen⟩ := prepared_inv L hp
    exact ⟨_, n, _, hp.size_ge, hlen, hi⟩
  · intro s t i hinv hl _ hs
    obtain ⟨size, n, chain, hsz, hlen, hi⟩ := hinv
    obtain ⟨chain', hi'⟩ := hi.exec hsz hlen hl hs
    exact ⟨size, n, chain', hsz, hlen, hi'⟩

/-- The free chain of a slab, in every state of every run: from `free_offset` it meets each cell
that is not live once and ends; its length and `in_use` add up to the number of cells modulo
`2 ^ 16`, and exactly when there are fewer; and no cell is found exactly when all are live. -/
theorem free_chain (h : Reach (slabSystem L k b) (fun _ _ => True) s) : ∃ chain,
    SlabChain s.kernel k b s.live chain ∧
      (chain.length + (s.kernel.pd b).inUse.toNat) % 2 ^ 16 = cellCount s.kernel k b % 2 ^ 16 ∧
      (cellCount s.kernel k b < 2 ^ 16 →
        chain.length + (s.kernel.pd b).inUse.toNat = cellCount s.kernel k b) ∧
      ((allocInOneblock s.kernel b).1 = none ↔ ∀ c, c < cellCount s.kernel k b →
        toKerAddr b + c * (s.kernel.slubs k).objectSize ∈ s.live) := by
  obtain ⟨size, n, chain, hsz, hlen, hi⟩ := slab_reach h
  have hcount := hi.count
  refine ⟨chain, hi.slabChain hsz, ?_, ?_, ?_⟩
  · rw [hi.cellCount_eq hsz, hi.inUse, BitVec.toNat_ofNat, ← hcount]
    omega
  · intro hlt
    rw [hi.cellCount_eq hsz] at hlt ⊢
    rw [hi.inUse, BitVec.toNat_ofNat]
    omega
  · rw [hi.cellCount_eq hsz, hi.size_eq]
    cases chain with
    | nil =>
      rw [hi.alloc_none hsz hlen]
      refine ⟨fun _ c hc => ?_, fun _ => rfl⟩
      by_contra hnl
      have := (hi.mem_iff c).mpr ⟨hc, hnl⟩
      cases this
    | cons c cs =>
      rw [hi.alloc_eq hsz hlen]
      refine ⟨(by cases ·), fun hall => ?_⟩
      obtain ⟨hc, hnl⟩ := (hi.mem_iff c).mp (by simp)
      exact absurd (hall c hc) hnl

/-! ## Very small objects -/

/-- Any number of cells of a slab can be taken. -/
theorem take_cells (hp : Prepared K k b) {m : Nat} (hm : m ≤ cellCount K k b) :
    ∃ s, Reach (slabSystem L k b) (fun _ _ => True) s ∧ s.live.length = m ∧
      cellCount s.kernel k b = cellCount K k b := by
  obtain ⟨n, hi, hlen⟩ := prepared_inv L hp
  have hsz := hp.size_ge
  have hn : cellCount K k b = n := by
    rw [← hi.cellCount_eq hsz, cellCount, cellCount, makeSlabs_pd, makeSlabs_slubs]
    simp
  rw [hn] at hm ⊢
  suffices hs : ∃ s chain, Reach (slabSystem L k b) (fun _ _ => True) s ∧ s.live.length = m ∧
      s.Inv k b (K.slubs k).objectSize n chain by
    obtain ⟨s, chain, hr, hl, hi⟩ := hs
    exact ⟨s, hr, hl, hi.cellCount_eq hsz⟩
  induction m with
  | zero => exact ⟨_, _, .init ⟨K, hp, rfl⟩, rfl, hi⟩
  | succ m ih =>
    obtain ⟨s, chain, hr, hl, hi⟩ := ih (by omega)
    have hcount := hi.count
    cases chain with
    | nil =>
      rw [List.length_nil] at hcount
      omega
    | cons c cs =>
      have ha := hi.alloc hsz hlen
      rw [hi.alloc_eq hsz hlen] at ha
      have hlegal : SlabOp.alloc.Legal k s := trivial
      refine ⟨_, cs, .step (i := SlabOp.alloc) hr hlegal trivial ?_, ?_, ha⟩
      · change SlabOp.alloc.exec b s = _
        rw [SlabOp.exec, hi.alloc_eq hsz hlen]
      · rw [List.length_cons, hl]

/-- A block of 256 KiB, to be cut into objects of four bytes. -/
def tinyKernel : Kernel :=
  ⟨⟨⟨fun _ => (⟨0⟩ : PageDescriptor).setOrders 6, ⟨fun _ => ListBase.new, fun _ => 0⟩⟩, []⟩,
    fun _ => 0, fun _ => ⟨ListBase.new, ListBase.new, 4⟩⟩

theorem tinyKernel_prepared : Prepared tinyKernel 0 512 :=
  ⟨by decide, by decide, by decide, by decide, by decide⟩

/-- Three cells are taken, and the last of them is written to and given back. -/
theorem free_chain_tiny : ∃ s chain, Reach (slabSystem smallLayout 0 512) (fun _ _ => True) s ∧
    s.live.length = 2 ∧ SlabChain s.kernel 0 512 s.live chain := by
  obtain ⟨s, hr, hl, -⟩ := take_cells (L := smallLayout) tinyKernel_prepared (m := 3) (by decide)
  obtain ⟨size, n, chain, hsz, hlen, hi⟩ := slab_reach hr
  cases hlive : s.live with
  | nil => rw [hlive] at hl; cases hl
  | cons p live =>
    have hp : p ∈ s.live := by rw [hlive]; exact List.mem_cons_self
    have hw := Reach.step (i := SlabOp.write p 0 0xAA) hr
      ⟨hp, by rw [hi.size_eq]; omega⟩ trivial rfl
    have hf := Reach.step (i := SlabOp.free p) hw hp trivial rfl
    obtain ⟨chain, hchain, _⟩ := free_chain hf
    refine ⟨_, chain, hf, ?_, hchain⟩
    change (s.live.erase p).length = 2
    rw [List.length_erase_of_mem hp, hl]

/-- `in_use` wraps: all 65536 cells of a slab are live, the chain is empty and `in_use` is 0. -/
theorem in_use_wraps : ∃ s, Reach (slabSystem smallLayout 0 512) (fun _ _ => True) s ∧
    ∃ chain, SlabChain s.kernel 0 512 s.live chain ∧ cellCount s.kernel 0 512 = 65536 ∧
      (s.kernel.pd 512).inUse = 0#16 ∧
      chain.length + (s.kernel.pd 512).inUse.toNat ≠ cellCount s.kernel 0 512 := by
  have hcount : cellCount tinyKernel 0 512 = 65536 := by decide
  obtain ⟨s, hr, hl, hc⟩ := take_cells (L := smallLayout) tinyKernel_prepared (m := 65536)
    (by rw [hcount])
  obtain ⟨size, n, chain, hsz, hlen, hi⟩ := slab_reach hr
  have hn : n = 65536 := by rw [← hi.cellCount_eq hsz, hc, hcount]
  have hlen0 : chain.length = 0 := by
    have := hi.count
    omega
  have huse : (s.kernel.pd 512).inUse = 0#16 := by
    rw [hi.inUse, hl]
    rfl
  refine ⟨s, hr, chain, hi.slabChain hsz, by rw [hc, hcount], huse, ?_⟩
  rw [hlen0, huse, hc, hcount]
  decide

end Steps
end Memory
end TorexOS
