import TorexOS.Lib.Guarded
import TorexOS.LoadKernel
import TorexOS.PageTable

/-!
# TorexOS.BootTables

The page tables that `MakePageTable` of `stage2.s` builds before long mode, and the step into the
kernel at its address in the kernel's half.

* `makePageTable`: the three tables, over bytes, with the `memset` of `stage2.s`.
* `Boots`: what the words of the tables are.
* `Boots.walk_eq`: an address is mapped exactly if it is below 1 GiB in one of the two halves.
* `kernel_entered`: behind the loader, the processor finds the kernel's bytes at
  `0xffff800000100000`.
-/

namespace TorexOS
namespace Bootsect

open Packed Guarded Memory

def pageTableAddress : Nat := 0x3000

/-- `rep stosb` -/
def repStosb (m : Bytes) (edi : Nat) (al : BitVec 8) : Nat → Bytes
  | 0 => m
  | ecx + 1 => repStosb (Function.update m edi al) (edi + 1) al ecx

/-- `.loop` of `MakePageTable` -/
def pageLoop (m : Bytes) (edi : Nat) (esi : BitVec 32) : Bytes :=
  -- PageSize, R/W, P bit set.
  let m := store32 m edi (esi ||| (1#32 ||| 1#32 <<< 1 ||| 1#32 <<< 7))
  if edi + 8 < pageTableAddress + 0x1000 * 3 then pageLoop m (edi + 8) (esi + 0x200000) else m
termination_by pageTableAddress + 0x1000 * 3 - edi

/-- `MakePageTable`, without the stack. -/
def makePageTable (m : Bytes) : Bytes :=
  let m := repStosb m pageTableAddress 0 (0x1000 * 3)
  let eax := BitVec.ofNat 32 (pageTableAddress + 0x1000) ||| (1#32 ||| 1#32 <<< 1)
  let m := store32 m pageTableAddress eax
  let m := store32 m (pageTableAddress + 256 * 8) eax
  let m := store32 m (pageTableAddress + 0x1000)
    (BitVec.ofNat 32 (pageTableAddress + 0x1000 * 2) ||| (0x1#32 ||| 0x2#32))
  pageLoop m (pageTableAddress + 0x1000 * 2) 0

/-- The words of the memory, at their kernel addresses. -/
def wordsOf (m : Bytes) : Words := fun a => load64 m (toPhys a)

/-- What the processor fetches from a virtual address. -/
def fetch (m : Bytes) (cr3 va : Nat) : Option (BitVec 8) :=
  (walk (wordsOf m) cr3 va).map fun p => m (p.base + va % 2 ^ 21)

/-! ## The entries -/

variable {m : Bytes} {a b i j : Nat}

theorem repStosb_apply (m : Bytes) (edi : Nat) (al : BitVec 8) (ecx x : Nat) :
    repStosb m edi al ecx x = if edi ≤ x ∧ x < edi + ecx then al else m x := by
  induction ecx generalizing m edi with
  | zero => rw [repStosb, if_neg (by omega)]
  | succ ecx ih =>
    rw [repStosb, ih, Function.update_apply]
    by_cases hx : x = edi
    · rw [if_pos hx, ite_self, if_pos (by omega)]
    · rw [if_neg hx]
      by_cases hin : edi ≤ x ∧ x < edi + (ecx + 1)
      · rw [if_pos hin, if_pos (by omega)]
      · rw [if_neg hin, if_neg (by omega)]

theorem load64_store32_ne (v : BitVec 32) (h : b + 8 ≤ a ∨ a + 4 ≤ b) :
    load64 (store32 m a v) b = load64 m b :=
  load64_congr fun i hi => store32_outside v (by omega)

/-- A double word in front of a zero. -/
theorem load64_store32 (v : BitVec 32) (h : load64 m a = 0) :
    load64 (store32 m a v) a = v.setWidth 64 := by
  have hhigh : load32 m (a + 4) = 0 := by
    have hex : (load64 m a).extractLsb' 32 32 = load32 m (a + 4) :=
      BitVec.extractLsb'_append_eq_left
    rw [← hex, h]
    rfl
  rw [load64, load32_store32_ne _ (by omega), load32_store32, hhigh]
  apply BitVec.eq_of_toNat_eq
  rw [BitVec.toNat_append, BitVec.toNat_setWidth, Nat.mod_eq_of_lt (by omega)]
  simp

theorem load64_zero (h : ∀ i, i < 8 → m (a + i) = 0) : load64 m a = 0 := by
  have hz : load64 m a = load64 (fun _ => 0) 0 := by
    rw [load64, load64]
    congr 1
    all_goals exact load32_eq_iff.mpr fun i hi => by simp [h, Nat.add_assoc, show 4 + i < 8 by omega, show i < 8 by omega]
  rw [hz]
  rfl

/-- The entry of a page. -/
def pageEntry (j : Nat) : PageEntry := BitVec.ofNat 64 (j * 2 ^ 21 + 0x83)

theorem pageEntry_eq (h : j < 512) :
    (BitVec.ofNat 32 (j * 2 ^ 21) ||| (1#32 ||| 1#32 <<< 1 ||| 1#32 <<< 7)).setWidth 64 = pageEntry j := by
  have hflags : (1#32 ||| 1#32 <<< 1 ||| 1#32 <<< 7).toNat = 0x83 := by decide
  have hor : 2 ^ 21 * j + 0x83 = 2 ^ 21 * j ||| 0x83 := Nat.two_pow_add_eq_or_of_lt (by omega) j
  have hbase : (BitVec.ofNat 32 (j * 2 ^ 21)).toNat = 2 ^ 21 * j := by
    rw [BitVec.toNat_ofNat]
    omega
  apply BitVec.eq_of_toNat_eq
  rw [BitVec.toNat_setWidth, BitVec.toNat_or, hflags, hbase, ← hor, pageEntry, BitVec.toNat_ofNat]
  omega

/-- The loop, from entry `i` on. -/
theorem pageLoop_spec (n : Nat) (hi : i + n + 1 = 512)
    (hz : ∀ j, i ≤ j → j < 512 → load64 m (0x5000 + 8 * j) = 0) :
    (∀ j, i ≤ j → j < 512 →
      load64 (pageLoop m (0x5000 + 8 * i) (BitVec.ofNat 32 (i * 2 ^ 21))) (0x5000 + 8 * j) = pageEntry j) ∧
    ∀ x, x < 0x5000 + 8 * i ∨ 0x6000 ≤ x →
      pageLoop m (0x5000 + 8 * i) (BitVec.ofNat 32 (i * 2 ^ 21)) x = m x := by
  have hentry : load64 (store32 m (0x5000 + 8 * i)
      (BitVec.ofNat 32 (i * 2 ^ 21) ||| (1#32 ||| 1#32 <<< 1 ||| 1#32 <<< 7))) (0x5000 + 8 * i) = pageEntry i := by
    rw [load64_store32 _ (hz i (by omega) (by omega)), pageEntry_eq (by omega)]
  induction n generalizing m i with
  | zero =>
    rw [pageLoop, pageTableAddress, if_neg (by omega)]
    refine ⟨fun j hj hlt => ?_, fun x hx => store32_outside _ (by omega)⟩
    obtain rfl : j = i := by omega
    exact hentry
  | succ n ih =>
    have hesi : BitVec.ofNat 32 (i * 2 ^ 21) + 0x200000 = BitVec.ofNat 32 ((i + 1) * 2 ^ 21) := by
      rw [Nat.add_mul, BitVec.ofNat_add]
      rfl
    rw [pageLoop, pageTableAddress, if_pos (by omega), hesi, Nat.add_assoc, show 8 * i + 8 = 8 * (i + 1) by omega]
    have hz' : ∀ j, i + 1 ≤ j → j < 512 → load64 (store32 m (0x5000 + 8 * i)
        (BitVec.ofNat 32 (i * 2 ^ 21) ||| (1#32 ||| 1#32 <<< 1 ||| 1#32 <<< 7))) (0x5000 + 8 * j) = 0 :=
      fun j hj hlt => by rw [load64_store32_ne _ (by omega), hz j (by omega) hlt]
    obtain ⟨hin, hout⟩ := ih (by omega) hz' (by
      rw [load64_store32 _ (hz' (i + 1) (by omega) (by omega)), pageEntry_eq (by omega)])
    refine ⟨fun j hj hlt => ?_, fun x hx => ?_⟩
    · by_cases hji : j = i
      · subst hji
        rw [← hentry]
        exact load64_congr fun k hk => hout _ (by omega)
      · exact hin j (by omega) hlt
    · rw [hout x (by omega), store32_outside _ (by omega)]

/-- What the words of the three tables are. -/
structure Boots (m : Bytes) : Prop where
  pml4 : ∀ i, i < 512 → load64 m (0x3000 + 8 * i) = if i = 0 ∨ i = 256 then 0x4003 else 0
  pdpt : ∀ i, i < 512 → load64 m (0x4000 + 8 * i) = if i = 0 then 0x5003 else 0
  pd : ∀ i, i < 512 → load64 m (0x5000 + 8 * i) = pageEntry i

/-- The tables are as they should be, and nothing else is written. -/
theorem makePageTable_boots (m : Bytes) :
    Boots (makePageTable m) ∧ ∀ x, x < 0x3000 ∨ 0x6000 ≤ x → makePageTable m x = m x := by
  have h4 : BitVec.ofNat 32 (pageTableAddress + 0x1000) ||| (1#32 ||| 1#32 <<< 1) = 0x4003#32 := by
    decide
  have h5 : BitVec.ofNat 32 (pageTableAddress + 0x1000 * 2) ||| (0x1#32 ||| 0x2#32) = 0x5003#32 := by
    decide
  have hclear : ∀ a, 0x3000 ≤ a → a + 8 ≤ 0x6000 →
      load64 (repStosb m pageTableAddress 0 (0x1000 * 3)) a = 0 := fun a hlo hhi =>
    load64_zero fun i hi => by
      rw [repStosb_apply, pageTableAddress, if_pos (by omega)]
  unfold makePageTable
  dsimp only
  rw [h4, h5]
  generalize hm₀ : repStosb m pageTableAddress 0 (0x1000 * 3) = m₀ at hclear
  simp only [pageTableAddress, Nat.reduceAdd, Nat.reduceMul]
  generalize hm₁ : store32 (store32 (store32 m₀ 0x3000 0x4003) 0x3800 0x4003) 0x4000 0x5003 = m₁
  have hload : ∀ a, a ≠ 0x3000 → a ≠ 0x3800 → a ≠ 0x4000 → a % 8 = 0 →
      load64 m₁ a = load64 m₀ a := fun a h1 h2 h3 h8 => by
    rw [← hm₁, load64_store32_ne _ (by omega), load64_store32_ne _ (by omega),
      load64_store32_ne _ (by omega)]
  obtain ⟨hpd, hout⟩ := pageLoop_spec (m := m₁) (i := 0) 511 (by omega) fun j _ hj => by
    rw [hload _ (by omega) (by omega) (by omega) (by omega), hclear _ (by omega) (by omega)]
  have hbelow : ∀ a, a + 8 ≤ 0x5000 → load64 (pageLoop m₁ (0x5000 + 8 * 0) (BitVec.ofNat 32 (0 * 2 ^ 21))) a =
      load64 m₁ a := fun a ha => load64_congr fun i hi => hout _ (by omega)
  refine ⟨⟨fun i hi => ?_, fun i hi => ?_, fun i hi => hpd i (by omega) hi⟩, fun x hx => ?_⟩
  · refine (hbelow _ (by omega)).trans ?_
    by_cases h0 : i = 0
    · subst h0
      rw [if_pos (.inl rfl), ← hm₁, load64_store32_ne _ (by omega), load64_store32_ne _ (by omega),
        load64_store32 _ (hclear _ (by omega) (by omega))]
      rfl
    · by_cases h256 : i = 256
      · subst h256
        rw [if_pos (.inr rfl), ← hm₁, load64_store32_ne _ (by omega), load64_store32 _ ?_]
        · rfl
        rw [load64_store32_ne _ (by omega), hclear _ (by omega) (by omega)]
      · rw [if_neg (by omega), hload _ (by omega) (by omega) (by omega) (by omega),
          hclear _ (by omega) (by omega)]
  · refine (hbelow _ (by omega)).trans ?_
    by_cases h0 : i = 0
    · subst h0
      rw [if_pos rfl, ← hm₁, load64_store32 _ ?_]
      · rfl
      rw [load64_store32_ne _ (by omega), load64_store32_ne _ (by omega),
        hclear _ (by omega) (by omega)]
    · rw [if_neg h0, hload _ (by omega) (by omega) (by omega) (by omega),
        hclear _ (by omega) (by omega)]
  · refine (hout x (by omega)).trans ?_
    rw [← hm₁, store32_outside _ (by omega), store32_outside _ (by omega), store32_outside _ (by omega),
      ← hm₀, repStosb_apply, pageTableAddress, if_neg (by omega)]

/-! ## The walk -/

theorem load_pageEntry (off len : Nat) :
    (load (pageEntry j) off len).toNat = (j * 2 ^ 21 + 0x83) % 2 ^ 64 / 2 ^ off % 2 ^ len := by
  rw [load, BitVec.extractLsb'_toNat, pageEntry, BitVec.toNat_ofNat, Nat.shiftRight_eq_div_pow]

theorem leaf_pageEntry (h : j < 512) : leaf (pageEntry j) = some ⟨j * 2 ^ 21, true⟩ := by
  have hbit : ∀ off len v, (j * 2 ^ 21 + 0x83) % 2 ^ 64 / 2 ^ off % 2 ^ len = v % 2 ^ len →
      load (pageEntry j) off len = BitVec.ofNat len v := fun off len v hv =>
    BitVec.eq_of_toNat_eq (by rw [load_pageEntry, hv, BitVec.toNat_ofNat])
  have hpresent : (pageEntry j).present = true := by
    rw [PageEntry.present, hbit 0 1 1 (by omega)]
    rfl
  have hrw : (pageEntry j).rw = true := by
    rw [PageEntry.rw, hbit 1 1 1 (by omega)]
    rfl
  have hps : (pageEntry j).ps = true := by
    rw [PageEntry.ps, hbit 7 1 1 (by omega)]
    rfl
  have hclean : LeafClean (pageEntry j) = true := by
    rw [LeafClean, PageEntry.highClear, hbit 13 8 0 (by omega), hbit 40 12 0 (by omega),
      hbit 63 1 0 (by omega)]
    rfl
  rw [leaf, hpresent, hps, hclean, hrw, hbit 21 19 j (by omega), BitVec.toNat_ofNat,
    Nat.mod_eq_of_lt (by omega)]
  rfl

/-- The word at a physical address. -/
theorem wordsOf_toKer {p : Nat} (h : p < 2 ^ 47) : wordsOf m (toKer p) = load64 m p := by
  rw [wordsOf, toKer_eq h, toPhys_toKer h]

/-- Mapped are the first gigabyte of the address space, and that of the kernel's half. -/
def Mapped (va : Nat) : Prop :=
  (va / 2 ^ 39 % 512 = 0 ∨ va / 2 ^ 39 % 512 = 256) ∧ va / 2 ^ 30 % 512 = 0

instance (va : Nat) : Decidable (Mapped va) := by
  unfold Mapped
  infer_instance

/-- Both halves lead to the same pages. -/
theorem Boots.walk_eq (h : Boots m) (va : Nat) : walk (wordsOf m) pageTableAddress va =
    if Mapped va then some ⟨va / 2 ^ 21 % 512 * 2 ^ 21, true⟩ else none := by
  have h4 : nextTable 0x4003 = some 0x4000 := by decide
  have h5 : nextTable 0x5003 = some 0x5000 := by decide
  have h0 : nextTable 0 = none := by decide
  rw [walk, pageTableAddress, wordsOf_toKer (by omega), h.pml4 _ (by omega)]
  dsimp only
  by_cases hpml4 : va / 2 ^ 39 % 512 = 0 ∨ va / 2 ^ 39 % 512 = 256
  · rw [if_pos hpml4, h4]
    dsimp only
    rw [wordsOf_toKer (by omega), h.pdpt _ (by omega)]
    by_cases hpdpt : va / 2 ^ 30 % 512 = 0
    · rw [if_pos hpdpt, h5, if_pos ⟨hpml4, hpdpt⟩]
      dsimp only
      rw [wordsOf_toKer (by omega), h.pd _ (by omega), leaf_pageEntry (by omega)]
      rfl
    · rw [if_neg hpdpt, h0, if_neg fun hm => hpdpt hm.2]
  · rw [if_neg hpml4, h0, if_neg fun hm => hpml4 hm.1]

/-- A byte of the first gigabyte, at its address in the kernel's half. -/
theorem Boots.fetch_toKer {p : Nat} (h : Boots m) (hp : p < 2 ^ 30) :
    fetch m pageTableAddress (toKer p) = some (m p) := by
  have hk : kerBase = 0xffff800000000000 := rfl
  rw [toKer_eq (by omega), fetch, h.walk_eq, if_pos ⟨by omega, by omega⟩, Option.map_some]
  have hoff : (kerBase + p) / 2 ^ 21 % 512 * 2 ^ 21 + (kerBase + p) % 2 ^ 21 = p := by omega
  rw [hoff]

/-! ## The step into the kernel -/

theorem Progress.of_run {bios : Bios} {disk : Nat → BitVec 8} {s s' : Loader} {n d fuel : Nat}
    (h : Progress disk n d s) (hn : kernelLoadedAddress + 512 * n ≤ 2 ^ 32) (hd : d < n)
    (hrun : loadLoop bios disk fuel s = some (.ok s')) : Progress disk n n s' := by
  induction fuel generalizing s d with
  | zero => cases hrun
  | succ fuel ih =>
    rw [loadLoop] at hrun
    rcases h.pass bios hd hn with ⟨e, hp, -⟩ | ⟨k, t, hk, hle, ht, hp⟩
    · rw [hp] at hrun
      cases hrun
    · rw [hp] at hrun
      by_cases hlast : d + k = n
      · rw [if_pos hlast] at hrun
        cases hrun
        rwa [hlast] at ht
      · rw [if_neg hlast] at hrun
        exact ih ht (by omega) hrun

/-- With the kernel loaded and the tables built, the processor finds the kernel's bytes from
`0xffff800000100000` on, and no other address is mapped but the first gigabyte's in each half. -/
theorem kernel_entered (bios : Bios) (disk mem : Nat → BitVec 8) (n fuel : Nat) (s : Loader)
    (h0 : 0 < n) (hn : kernelLoadedAddress + 512 * n ≤ 2 ^ 30)
    (hrun : loadLoop bios disk fuel (loadKernel (512 * n) mem) = some (.ok s)) :
    (∀ i, i < 512 * n → fetch (makePageTable s.mem) pageTableAddress (0xffff800000100000 + i) =
        some (disk (512 * kernelSector + i))) ∧
      ∀ va, walk (wordsOf (makePageTable s.mem)) pageTableAddress va =
        if Mapped va then some ⟨va / 2 ^ 21 % 512 * 2 ^ 21, true⟩ else none := by
  have hdiv : 512 * n / 512 = n := Nat.mul_div_cancel_left n (by omega)
  have hstart := Progress.start disk mem (512 * n)
  rw [hdiv] at hstart
  have hend := hstart.of_run (by omega) h0 hrun
  obtain ⟨hboots, hframe⟩ := makePageTable_boots s.mem
  refine ⟨fun i hi => ?_, hboots.walk_eq⟩
  have hker : toKer (kernelLoadedAddress + i) = 0xffff800000100000 + i := by
    rw [toKer_eq (by omega), kerBase, kernelLoadedAddress]
    omega
  rw [← hker, hboots.fetch_toKer (by omega), hframe _ (by rw [kernelLoadedAddress]; omega),
    hend.loaded_all i hi]

/-- A kernel of twenty sectors, some of whose reads are short. -/
theorem kernel_entered_short_reads : ∃ s : Loader,
    loadLoop short (BitVec.ofNat 8) 20 (loadKernel (512 * 20) fun _ => 0) = some (.ok s) ∧
    (∀ i, i < 512 * 20 → fetch (makePageTable s.mem) pageTableAddress (0xffff800000100000 + i) =
      some (BitVec.ofNat 8 (512 * kernelSector + i))) ∧
    ∀ va, walk (wordsOf (makePageTable s.mem)) pageTableAddress va =
      if Mapped va then some ⟨va / 2 ^ 21 % 512 * 2 ^ 21, true⟩ else none := by
  obtain ⟨r, hr, -⟩ := (Progress.start (BitVec.ofNat 8) (fun _ => 0) 10240).run short
    (by decide) (by decide) (show 10240 / 512 - 0 ≤ 20 by decide)
  obtain ⟨s, rfl, -⟩ := short_answers.loop (Nat.le_refl (2 ^ 32)) (by decide) hr
  exact ⟨s, hr, kernel_entered short (BitVec.ofNat 8) (fun _ => 0) 20 20 s (by omega) (by decide) hr⟩

end Bootsect
end TorexOS
