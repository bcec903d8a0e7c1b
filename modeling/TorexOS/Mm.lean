import TorexOS.SlubSafety

/-!
# TorexOS.Mm

`kmalloc` and `kfree` of `memory/mm.cpp`.

* `findHead`: the loop of `kfree` from the page of an address to the head page of its block.
* `head_found`: in every state of every run that loop ends at the head of the block, and what
  `kfree` does with any address of a free block or of a slab.
-/

namespace TorexOS
namespace Memory

open Util Util.ListBase Dyadic Packed FreeChain Transition

/-- Why a call does not return: it panics, in the state given, or dereferences null, or never
leaves the loop of `kfree`, or calls through an owner that is no slab allocator. -/
inductive Stop where
  | panic (msg : String) (K : Kernel)
  | fault (e : Fault)
  | loop
  | wildOwner

/-- `while(pd_base[index].flags() == pt_tails)`: the index where the loop stops, and
`allow_kernel`. At index zero it would stay there for ever. -/
def findHead (pd : PdTable) (index : Nat) (allowKernel : Bool) : Option (Nat × Bool) :=
  if (pd index).flags = PageType.tails.flag then
    if 0 < index then findHead pd (index &&& (index - 1)) false else none
  else some (index, allowKernel)
termination_by index
decreasing_by exact and_pred_lt ‹_›

/-- The slab allocator at an address. -/
def Layout.ownerIndex (L : Layout) (owner : BitVec 64) : Option Nat :=
  (List.range 7).find? fun k => owner = L.ownerOf k

/-- `free_pages` as `kfree` calls it. -/
def kfreePages (L : Layout) (K : Kernel) (index : Nat) : Except Stop Kernel :=
  match freePages L K.pages index with
  | none => .error (.fault .pageList)
  | some s => .ok { K with pages := s }

/-- `pd->slub_head.owner->free(&pd->slub_head, ptr)`. -/
def kfreeSlab (L : Layout) (K : Kernel) (index ptr : Nat) : Except Stop Kernel :=
  match L.ownerIndex (K.pd index).owner with
  | none => .error .wildOwner
  | some k =>
    match free L K k index ptr with
    | .error e => .error (.fault e)
    | .ok K => .ok K

def kfree (L : Layout) (K : Kernel) (ptr : Nat) : Except Stop Kernel :=
  match findHead K.pd (toPhys ptr >>> ilog2 smallestPageSize) true with
  | none => .error .loop
  | some (index, allowKernel) =>
    if (K.pd index).flags = PageType.kernel.flag then
      if allowKernel then kfreePages L K index
      else .error (.panic "free through wrong allocator" K)
    else if (K.pd index).flags = PageType.slab.flag then kfreeSlab L K index ptr
    else if (K.pd index).flags = PageType.free.flag then .error (.panic "double free" K)
    else .error (.panic "invalid pointer" K)

/-- `kmalloc`: the slab allocators up to 2048 bytes; above, the descriptor that `alloc_pages`
returns, as it is. -/
def kmalloc (L : Layout) (K : Kernel) (size : Nat) : Except Stop (Option Nat × Kernel) :=
  if size = 0 then .error (.panic "alloc with 0 size" K)
  else if 2 * 1024 * 1024 < size then .error (.panic "Too big to alloc" K)
  else if 2048 < size then
    match allocPages L K.pages .kernel (calculOrder size) with
    | none => .error (.fault .pageList)
    | some (pages, s) => .ok (pages.map fun pd => L.pdBase + 32 * pd, { K with pages := s })
  else
    let size := max 32 size
    let index := ilog2 (size - 1) - ilog2 (32 - 1)
    match alloc L K index with
    | .error e => .error (.fault e)
    | .ok r => .ok r

section Head

variable {L : Layout} {P : Pool L} {s : KernelState} {F : Nat → List Nat} {V : Nat → View}
variable {pd : PdTable} {b : Block} {i a k : Nat}

/-- In an aligned block whose pages but the first are tails the loop stops at the first. -/
theorem findHead_block (hal : b.Aligned) (hh : (pd b.head).flags ≠ PageType.tails.flag)
    (ht : ∀ p, b.head < p → p < b.head + 2 ^ b.order → (pd p).flags = PageType.tails.flag)
    (hi : b.Covers i) (allow : Bool) : ∃ c, findHead pd i allow = some (b.head, c) := by
  induction i using Nat.strong_induction_on generalizing allow with
  | _ i ih =>
    obtain ⟨hlo, hhi⟩ := hi
    rw [findHead]
    by_cases hib : i = b.head
    · rw [hib, if_neg hh]
      exact ⟨allow, rfl⟩
    · have hpos : 0 < i := by omega
      rw [if_pos (ht i (by omega) hhi), if_pos hpos]
      have hlt := and_pred_lt hpos
      exact ih _ hlt ⟨le_and_pred hal (by omega) hhi, by omega⟩ false

theorem BuddyOk.findHead_eq {s : BuddyState} (h : BuddyOk P s F) (hb : IsBlock F s.live b)
    (hi : b.Covers i) (allow : Bool) : ∃ c, findHead s.mem.pd i allow = some (b.head, c) := by
  refine findHead_block (h.inv.tiling.aligned b hb) ?_ (fun p => h.inv.tails b hb p) hi allow
  rcases hb with hf | hl
  · rw [(h.inv.free_head _ _ hf).1]; decide
  · exact (h.inv.held_head b hl).2

/-- The page `kfree` starts from. -/
theorem InPages.page (h : InPages b a) (hb : b.head + 2 ^ b.order ≤ L.pages) :
    b.Covers (toPhys a >>> ilog2 smallestPageSize) := by
  have hle := L.pages_le
  have hpos := Nat.two_pow_pos b.order
  have hcov := h.covers (L := L) (by omega)
  have hlog : ilog2 smallestPageSize = 12 := ilog2_eq (by decide) (by decide)
  rw [InPages, toKerAddr_eq (by omega)] at h
  obtain ⟨off, rfl⟩ : ∃ off, a = kerBase + off := ⟨a - kerBase, by omega⟩
  rw [toPhys_toKer (by omega), hlog, Nat.shiftRight_eq_div_pow]
  rwa [Nat.add_sub_cancel_left] at hcov

/-- From any address of a block `kfree` finds its head page. -/
theorem BuddyOk.findHead_page {s : BuddyState} (h : BuddyOk P s F) (hb : IsBlock F s.live b)
    (ha : InPages b a) : ∃ c, findHead s.mem.pd (toPhys a >>> ilog2 smallestPageSize) true =
      some (b.head, c) :=
  h.findHead_eq hb (ha.page (h.block_end hb)) true

theorem Layout.ownerOf_inj {j : Nat} (hk : k < 7) (hj : j < 7) (h : L.ownerOf k = L.ownerOf j) :
    k = j := by
  have hfit := L.slubs_fits
  have h1 : L.slubs + 40 * k < 2 ^ 64 := by omega
  have h2 : L.slubs + 40 * j < 2 ^ 64 := by omega
  have ht := congrArg BitVec.toNat h
  rw [ownerOf, ownerOf, BitVec.toNat_ofNat, BitVec.toNat_ofNat, Nat.mod_eq_of_lt h1,
    Nat.mod_eq_of_lt h2] at ht
  omega

theorem Layout.ownerIndex_ownerOf (hk : k < 7) : L.ownerIndex (L.ownerOf k) = some k := by
  have hne : ∀ j, j < k → L.ownerOf k ≠ L.ownerOf j := by
    intro j hj h
    have := Layout.ownerOf_inj hk (by omega) h
    omega
  rw [ownerIndex, List.find?_range_eq_some]
  refine ⟨by simp, List.mem_range.mpr hk, fun j hj => ?_⟩
  simp [hne j hj]

/-- The search of `kfree` in every state of every run, from any page of a live or free block,
stops at the head page of that block. So `kfree` of any address of a free block panics and changes
nothing, and `kfree` of any address of a slab frees through that slab's header. -/
theorem head_found (h : Reach (kernelSystem L P) (fun _ _ => True) s) :
    (∀ b, b ∈ s.kernel.pages.live ∨ RecordedFree P s.kernel.pages.mem b → ∀ i, b.Covers i →
      ∃ allow, findHead s.kernel.pd i true = some (b.head, allow)) ∧
    (∀ b, RecordedFree P s.kernel.pages.mem b → ∀ a, InPages b a →
      kfree L s.kernel a = .error (.panic "double free" s.kernel)) ∧
    ∀ k, k < 7 → ∀ b, OwnsSlab L s k b → ∀ a, InPages ⟨b, k⟩ a → kfree L s.kernel a =
      match free L s.kernel k b a with
      | .error e => .error (.fault e)
      | .ok K => .ok K := by
  obtain ⟨F, V, hok, _⟩ := kernel_reach h
  have hblock := hok.pages.isBlock_iff
  refine ⟨fun b hb i hi => hok.pages.findHead_eq ((hblock b).mp hb) hi true, fun b hb a ha => ?_,
    fun k hk b hown a ha => ?_⟩
  · obtain ⟨c, hc⟩ := hok.pages.findHead_page ((hblock b).mp (.inr hb)) ha
    have hf : (s.kernel.pd b.head).flags = PageType.free.flag := hb.2.1
    rw [kfree, show findHead s.kernel.pd _ true = _ from hc]
    simp only [hf]
    rw [if_neg (by decide), if_neg (by decide), if_pos trivial]
  · obtain ⟨c, hc⟩ := hok.pages.findHead_page (.inr hown.live) ha
    have hf := hown.flags
    rw [kfree, show findHead s.kernel.pd _ true = _ from hc]
    simp only [hf]
    rw [if_neg (by decide), if_pos trivial, kfreeSlab, hown.owner, Layout.ownerIndex_ownerOf hk]

/-- The 2 MiB block of a machine just started is free; page 700 is one of its tails. -/
theorem head_found_start : kfree smallLayout (startKernel onePool).kernel (toKerAddr 700) =
    .error (.panic "double free" (startKernel onePool).kernel) := by
  have hrec : RecordedFree onePool (startKernel onePool).kernel.pages.mem ⟨512, 9⟩ := by
    have hf : ((filled onePool).mem.pd 512).flags = PageType.free.flag ∧
        ((filled onePool).mem.pd 512).orders = 9 := by
      simp only [filled, onePool, insertBlocks, insertBlock, markPages_eq]
      decide +kernel
    exact ⟨by decide, hf⟩
  exact (head_found (.init (startKernel_init onePool))).2.1 ⟨512, 9⟩ hrec _ ⟨by decide, by decide⟩

end Head
end Memory
end TorexOS
