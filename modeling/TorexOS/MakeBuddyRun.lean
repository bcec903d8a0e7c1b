import TorexOS.BuddyRun
import TorexOS.MakeBuddy

/-!
# TorexOS.MakeBuddyRun

Where the loop of `makeBuddy` is after some rounds, and which memory it gives to the allocator.

* `Walked es s₀ x f`: the loop came from `s₀` to `x`, an address of some region at every step; what
  it has marked and pushed on the way.
* `Walking`, `Halted`: it stands in a region, or it has stopped at the first address of none.
* `walking_step`, `run_cases`: one round, and any number of rounds.
* `pushed_usable`: every block pushed is usable memory.
* `usable_pushed_iff`: exactly when all usable memory is pushed.
-/

namespace TorexOS
namespace Memory

open Sweep

/-- Every multiple of 2 MiB from `s₀` up to below `x` is in some region. -/
def Swept (es : List E820MmapEntry) (s₀ x : Nat) : Prop :=
  ∀ y, mb 2 ∣ y → s₀ ≤ y → y < x → Covered E820MmapEntry.holds es y

/-- The test of the loop for a block of free memory, at the region that has its first byte. -/
def Usable (es : List E820MmapEntry) (a : BitVec 64) : Prop :=
  ∃ e ∈ es, e.type = regionFree ∧ e.holds a.toNat ∧ e.rangeIn a (a + BitVec.ofNat 64 (mb 2))

/-- The loop came from `s₀` to `x`. -/
structure Walked (es : List E820MmapEntry) (s₀ x : Nat) (f : Filling) : Prop where
  ends : EndsAgree f.mem
  aligned : mb 2 ∣ x
  le : s₀ ≤ x
  swept : Swept es s₀ x
  curPd : f.curPd = x / smallestPageSize
  marked : ∀ i, i ∈ f.marked ↔ ∃ y, mb 2 ∣ y ∧ s₀ ≤ y ∧ y < x ∧ i = y / smallestPageSize
  pushed : ∀ a, a ∈ f.pushed ↔ mb 2 ∣ a.toNat ∧ s₀ ≤ a.toNat ∧ a.toNat < x ∧ Usable es a
  increasing : f.pushed.Pairwise fun a b => a.toNat < b.toNat
  count : f.mem.allocator.count maxOrder = BitVec.ofNat 32 f.pushed.length

structure Walking (es : List E820MmapEntry) (s₀ : Nat) (f : Filling) : Prop where
  walked : Walked es s₀ f.start.toNat f
  region : At E820MmapEntry.holds es f.start.toNat f.regions

/-- `break` at `x`. -/
structure Halted (es : List E820MmapEntry) (s₀ x : Nat) (f : Filling) : Prop where
  walked : Walked es s₀ x f
  uncovered : ¬ Covered E820MmapEntry.holds es x
  regions : f.regions = []

section Round

variable {L : Layout} {es rest : List E820MmapEntry} {e : E820MmapEntry} {f f' : Filling}
variable {s₀ x n : Nat} {start a : BitVec 64}

theorem mb_two : mb 2 = 2097152 := rfl

/-- The next multiple of 2 MiB. -/
theorem lt_add_mb_iff {y : Nat} (hx : mb 2 ∣ x) (hy : mb 2 ∣ y) : y < x + mb 2 ↔ y < x ∨ y = x := by
  rw [mb_two] at *
  omega

theorem Walked.step (ho : Ordered E820MmapEntry.holds es) (h : Walked es s₀ f.start.toNat f)
    (hmem : e ∈ es) (he : e.holds f.start.toNat) (hr : Round e rest f f') :
    Walked es s₀ (f.start.toNat + mb 2) f' := by
  have hal := h.aligned
  have hus : Usable es f.start ↔ e.type = regionFree ∧
      e.rangeIn f.start (f.start + BitVec.ofNat 64 (mb 2)) := by
    constructor
    · intro hu
      obtain ⟨d, hd, hfree, hhold, hin⟩ := hu
      rw [ho.unique hmem hd he hhold]
      exact ⟨hfree, hin⟩
    · intro hu
      exact ⟨e, hmem, hu.1, he, hu.2⟩
  have hpushed : ∀ a, a ∈ f'.pushed ↔ a ∈ f.pushed ∨ a = f.start ∧ Usable es f.start := by
    intro a
    rw [hr.pushed, List.mem_append, hus]
    split
    · rename_i hc
      simp [hc]
    · rename_i hc
      simp [hc]
  exact {
    ends := hr.ends
    aligned := by rw [mb_two] at *; omega
    le := by have := h.le; omega
    swept := by
      intro y hy hle hlt
      cases (lt_add_mb_iff hal hy).mp hlt with
      | inl hlt => exact h.swept y hy hle hlt
      | inr heq => exact ⟨e, hmem, by rw [heq]; exact he⟩
    curPd := by
      rw [hr.curPd, h.curPd, mb_two]
      simp only [smallestPageSize]
      omega
    marked := by
      intro i
      rw [hr.marked, List.mem_append, h.marked, List.mem_singleton]
      constructor
      · intro hi
        cases hi with
        | inl hi =>
          obtain ⟨y, hy, hle, hlt, hi⟩ := hi
          exact ⟨y, hy, hle, by omega, hi⟩
        | inr hi => exact ⟨f.start.toNat, hal, h.le, by rw [mb_two]; omega, by rw [hi, h.curPd]⟩
      · intro hi
        obtain ⟨y, hy, hle, hlt, hi⟩ := hi
        cases (lt_add_mb_iff hal hy).mp hlt with
        | inl hlt => exact .inl ⟨y, hy, hle, hlt, hi⟩
        | inr heq => exact .inr (by rw [hi, heq, h.curPd])
    pushed := by
      intro a
      rw [hpushed, h.pushed]
      constructor
      · intro ha
        cases ha with
        | inl ha => exact ⟨ha.1, ha.2.1, by omega, ha.2.2.2⟩
        | inr ha =>
          rw [ha.1]
          exact ⟨hal, h.le, by rw [mb_two]; omega, ha.2⟩
      · intro ha
        obtain ⟨hy, hle, hlt, hu⟩ := ha
        cases (lt_add_mb_iff hal hy).mp hlt with
        | inl hlt => exact .inl ⟨hy, hle, hlt, hu⟩
        | inr heq =>
          have heq := BitVec.eq_of_toNat_eq heq
          rw [← heq]
          exact .inr ⟨rfl, hu⟩
    increasing := by
      rw [hr.pushed]
      refine List.pairwise_append.mpr ⟨h.increasing, by split <;> simp, ?_⟩
      intro a ha b hb
      have hlt := ((h.pushed a).mp ha).2.2.1
      split at hb
      · rw [List.mem_singleton] at hb
        rw [hb]
        exact hlt
      · cases hb
    count := by
      have hlen : f'.pushed.length = f.pushed.length + (f'.pushed.length - f.pushed.length) := by
        rw [hr.pushed, List.length_append]
        omega
      rw [hr.count, h.count, hlen, BitVec.ofNat_add]
      simp }

/-- Where the next address is in a region, the cursor is moved there; else the loop ends. -/
theorem walking_step (ho : Ordered E820MmapEntry.holds es) (h : Walking es s₀ f) :
    ∃ f', makeBuddyRound L f = some f' ∧ Walked es s₀ (f.start.toNat + mb 2) f' ∧
      (f.start.toNat + mb 2 < 2 ^ 64 → f'.start.toNat = f.start.toNat + mb 2 ∧
        (Walking es s₀ f' ∨ Halted es s₀ (f.start.toNat + mb 2) f')) := by
  obtain ⟨e, rest, hreg, he⟩ := h.region.head
  have hmem : e ∈ es := h.region.suffix.subset (by rw [hreg]; exact List.mem_cons_self ..)
  obtain ⟨f', hf', hr⟩ := makeBuddyRound_spec (L := L) h.walked.ends hreg
  have hw := h.walked.step ho hmem he hr
  refine ⟨f', hf', hw, fun hlt => ?_⟩
  have hstart : f'.start.toNat = f.start.toNat + mb 2 := by
    rw [hr.start, BitVec.toNat_add, BitVec.toNat_ofNat]
    simp only [mb_two] at *
    omega
  have hskip : f'.regions = skip E820MmapEntry.holds (f.start.toNat + mb 2) f.regions := by
    rw [hr.regions, hreg]
    split
    · rename_i hin
      rw [← hr.start, rangeIn_iff, hstart] at hin
      rw [skip_of_has]
      simp only [E820MmapEntry.holds, Bool.and_eq_true, decide_eq_true_eq]
      exact ⟨by omega, hin.2⟩
    · rw [skipRegions_eq, hstart]
  refine ⟨hstart, ?_⟩
  by_cases hc : Covered E820MmapEntry.holds es (f.start.toNat + mb 2)
  · refine .inl ⟨by rw [hstart]; exact hw, ?_⟩
    rw [hstart, hskip]
    exact h.region.advance ho (by omega) hc
  · refine .inr ⟨hw, hc, ?_⟩
    rw [hskip]
    refine skip_eq_nil fun hcov => hc ?_
    obtain ⟨d, hd, hx⟩ := hcov
    exact ⟨d, h.region.suffix.subset hd, hx⟩

end Round
/-! ## The loop -/

/-- What holds of every push, also once the address has wrapped. -/
structure Tested (es : List E820MmapEntry) (f : Filling) : Prop where
  ends : EndsAgree f.mem
  regions : f.regions <:+ es
  pushed : ∀ a ∈ f.pushed, ∃ e ∈ es, e.type = regionFree ∧
    e.rangeIn a (a + BitVec.ofNat 64 (mb 2))

section Run

variable {L : Layout} {es : List E820MmapEntry} {f f' : Filling} {pd : PdTable}
variable {total : BitVec 32} {s₀ x n : Nat} {start a : BitVec 64}

theorem Tested.step (h : Tested es f) (hf : makeBuddyRound L f = some f') : Tested es f' := by
  cases hreg : f.regions with
  | nil =>
    simp only [makeBuddyRound, hreg, Option.some.injEq] at hf
    rw [← hf]
    exact h
  | cons e rest =>
    obtain ⟨g, hg, hr⟩ := makeBuddyRound_spec (L := L) h.ends hreg
    rw [hf] at hg
    cases hg
    have hsuf := h.regions
    rw [hreg] at hsuf
    refine ⟨hr.ends, ?_, ?_⟩
    · rw [hr.regions]
      split
      · exact hsuf
      · exact (List.dropWhile_suffix _).trans hsuf
    · intro a ha
      rw [hr.pushed] at ha
      cases List.mem_append.mp ha with
      | inl ha => exact h.pushed a ha
      | inr ha =>
        split at ha
        · rename_i hc
          rw [List.mem_singleton] at ha
          rw [ha]
          exact ⟨e, hsuf.subset (List.mem_cons_self ..), hc.1, hc.2⟩
        · cases ha

theorem Tested.rounds (h : Tested es f) :
    ∀ {n : Nat} {f' : Filling}, makeBuddyRounds L n f = some f' → Tested es f' := by
  intro n
  induction n with
  | zero =>
    intro f' hf
    cases hf
    exact h
  | succ n ih =>
    intro f' hf
    rw [makeBuddyRounds] at hf
    cases hn : makeBuddyRounds L n f with
    | none =>
      rw [hn] at hf
      cases hf
    | some g =>
      rw [hn] at hf
      exact (ih hn).step hf

/-- There is always a next round. -/
theorem Tested.exists_rounds (h : Tested es f) (n : Nat) : ∃ f', makeBuddyRounds L n f = some f' := by
  induction n with
  | zero => exact ⟨f, rfl⟩
  | succ n ih =>
    obtain ⟨g, hg⟩ := ih
    rw [makeBuddyRounds, hg]
    cases hreg : g.regions with
    | nil => exact ⟨g, by simp only [makeBuddyRound, hreg]⟩
    | cons e rest =>
      obtain ⟨g', hg', _⟩ := makeBuddyRound_spec (L := L) (h.rounds hg).ends hreg
      exact ⟨g', hg'⟩

/-- After `n` rounds from a region: `n` steps on, or ended, or round the address space. -/
theorem run_cases (ho : Ordered E820MmapEntry.holds es) (hw : Walking es s₀ f)
    (hs : f.start.toNat = s₀) : ∀ {n : Nat} {f' : Filling}, makeBuddyRounds L n f = some f' →
      (Walking es s₀ f' ∧ f'.start.toNat = s₀ + n * mb 2) ∨
      (∃ x, x < 2 ^ 64 ∧ Halted es s₀ x f') ∨ Swept es s₀ (2 ^ 64) := by
  intro n
  induction n with
  | zero =>
    intro f' hf
    cases hf
    exact .inl ⟨hw, by rw [hs, Nat.zero_mul]; rfl⟩
  | succ n ih =>
    intro f' hf
    rw [makeBuddyRounds] at hf
    cases hn : makeBuddyRounds L n f with
    | none =>
      rw [hn] at hf
      cases hf
    | some g =>
      rw [hn] at hf
      cases ih hn with
      | inl hg =>
        obtain ⟨g', hg', hwalked, hnext⟩ := walking_step (L := L) ho hg.1
        have heq : g' = f' := Option.some.inj (hg'.symm.trans hf)
        rw [heq] at hwalked hnext
        by_cases hlt : g.start.toNat + mb 2 < 2 ^ 64
        · obtain ⟨hstart, hcase⟩ := hnext hlt
          cases hcase with
          | inl hwf => exact .inl ⟨hwf, by rw [hstart, hg.2, Nat.succ_mul, Nat.add_assoc]⟩
          | inr hhf => exact .inr (.inl ⟨_, hlt, hhf⟩)
        · refine .inr (.inr fun y hy hle hlt' => hwalked.swept y hy hle (by omega))
      | inr hg =>
        cases hg with
        | inl hg =>
          obtain ⟨x, hx, hh⟩ := hg
          simp only [makeBuddyRound, hh.regions, Option.some.injEq] at hf
          rw [← hf]
          exact .inr (.inl ⟨x, hx, hh⟩)
        | inr hg => exact .inr (.inr hg)

/-- Up to an address in a region with all before it in regions, the loop gets. -/
theorem run_reaches (ho : Ordered E820MmapEntry.holds es) (hw : Walking es s₀ f)
    (hs : f.start.toNat = s₀) : ∀ {n : Nat}, s₀ + n * mb 2 < 2 ^ 64 →
      Swept es s₀ (s₀ + n * mb 2 + 1) →
      ∃ f', makeBuddyRounds L n f = some f' ∧ Walking es s₀ f' ∧ f'.start.toNat = s₀ + n * mb 2 := by
  intro n
  induction n with
  | zero =>
    intro _ _
    exact ⟨f, rfl, hw, by rw [hs, Nat.zero_mul]; rfl⟩
  | succ n ih =>
    intro hlt hsw
    rw [Nat.succ_mul] at hlt hsw ⊢
    obtain ⟨g, hg, hwg, hgs⟩ := ih (by omega) fun y hy hle hlt' => hsw y hy hle (by omega)
    obtain ⟨g', hg', hwalked, hnext⟩ := walking_step (L := L) ho hwg
    have heq : g.start.toNat + mb 2 = s₀ + (n * mb 2 + mb 2) := by omega
    obtain ⟨hstart, hcase⟩ := hnext (by omega)
    rw [heq] at hstart hcase hwalked
    refine ⟨g', by rw [makeBuddyRounds, hg]; exact hg', ?_, hstart⟩
    cases hcase with
    | inl hwf => exact hwf
    | inr hhf => exact absurd (hsw _ hwalked.aligned hwalked.le (Nat.lt_succ_self _)) hhf.uncovered

/-! ## From the start -/

theorem makeBuddyStart_walking (pd : PdTable) (total : BitVec 32) (hal : mb 2 ∣ start.toNat)
    (hc : Covered E820MmapEntry.holds es start.toNat) :
    ∃ f, makeBuddyStart (Mem.start pd) total es start = some f ∧ Walking es start.toNat f ∧
      f.start = start ∧ Tested es f := by
  have hat := At.of_skip (List.suffix_refl es) hc
  rw [← skipRegions_eq] at hat
  obtain ⟨e, rest, hreg, he⟩ := hat.head
  rw [hreg] at hat
  have hends : EndsAgree (Mem.start pd) := by simp [EndsAgree, Mem.start, Util.ListBase.new]
  refine ⟨_, by rw [makeBuddyStart, hreg], ⟨?_, hat⟩, rfl, ⟨hends, hat.suffix, by simp⟩⟩
  exact {
    ends := hends
    aligned := hal
    le := Nat.le_refl _
    swept := fun y _ hle hlt => absurd hlt (Nat.not_lt.mpr hle)
    curPd := rfl
    marked := by
      intro i
      constructor
      · intro hi
        cases hi
      · intro hi
        obtain ⟨y, _, hle, hlt, _⟩ := hi
        exact absurd hlt (Nat.not_lt.mpr hle)
    pushed := by
      intro a
      constructor
      · intro ha
        cases ha
      · intro ha
        exact absurd ha.2.2.1 (Nat.not_lt.mpr ha.2.1)
    increasing := List.Pairwise.nil
    count := rfl }

theorem makeBuddy_panics (hc : ¬ Covered E820MmapEntry.holds es start.toNat) :
    makeBuddy L (Mem.start pd) total es start n = none := by
  rw [makeBuddy, makeBuddyStart, skipRegions_eq, skip_eq_nil hc]

/-- Where `makeBuddy` is after so many rounds. -/
theorem makeBuddy_cases (hm : SortedMap es) (hal : mb 2 ∣ start.toNat)
    (hf : makeBuddy L (Mem.start pd) total es start n = some f) :
    Tested es f ∧ (Walking es start.toNat f ∧ f.start.toNat = start.toNat + n * mb 2 ∨
      (∃ x, x < 2 ^ 64 ∧ Halted es start.toNat x f) ∨ Swept es start.toNat (2 ^ 64)) := by
  by_cases hc : Covered E820MmapEntry.holds es start.toNat
  · obtain ⟨f₀, hf₀, hw, hs, ht⟩ := makeBuddyStart_walking pd total hal hc
    rw [makeBuddy, hf₀] at hf
    exact ⟨ht.rounds hf, run_cases hm.ordered hw (by rw [hs]) hf⟩
  · rw [makeBuddy_panics hc] at hf
    cases hf

/-- `makeBuddy` gets past every address up to which all are in regions. -/
theorem makeBuddy_reaches (L : Layout) (pd : PdTable) (total : BitVec 32) (hm : SortedMap es)
    (hal : mb 2 ∣ start.toNat) (hx : mb 2 ∣ x) (hle : start.toNat ≤ x) (hlt : x < 2 ^ 64)
    (hsw : Swept es start.toNat (x + 1)) :
    ∃ n f, makeBuddy L (Mem.start pd) total es start n = some f ∧
      Walked es start.toNat (x + mb 2) f := by
  have hc := hsw start.toNat hal (Nat.le_refl _) (by omega)
  obtain ⟨f₀, hf₀, hw, hs, _⟩ := makeBuddyStart_walking pd total hal hc
  obtain ⟨n, hn⟩ : ∃ n, x = start.toNat + n * mb 2 := by
    refine ⟨(x - start.toNat) / mb 2, ?_⟩
    rw [mb_two] at *
    omega
  rw [hn] at hlt hsw ⊢
  obtain ⟨f, hf, hwf, hsf⟩ := run_reaches (L := L) hm.ordered hw (by rw [hs]) hlt hsw
  obtain ⟨f', hf', hwalked, _⟩ := walking_step (L := L) hm.ordered hwf
  rw [hsf] at hwalked
  refine ⟨n + 1, f', ?_, hwalked⟩
  rw [makeBuddy, hf₀]
  simp only [makeBuddyRounds, hf, hf']

end Run

/-! ## Which memory is pushed -/

/-- The 2 MiB block is wholly inside the region. -/
def E820MmapEntry.Contains (e : E820MmapEntry) (a : BitVec 64) : Prop :=
  e.base.toNat ≤ a.toNat ∧ a.toNat + mb 2 ≤ e.base.toNat + e.length.toNat

/-- A 2 MiB block at or above `start` in a region of free memory. -/
structure UsableBlock (es : List E820MmapEntry) (start : BitVec 64) (e : E820MmapEntry)
    (a : BitVec 64) : Prop where
  mem : e ∈ es
  free : e.type = regionFree
  aligned : mb 2 ∣ a.toNat
  above : start ≤ a
  contains : e.Contains a

/-- `makeBuddy` pushes the block, after some number of rounds. -/
def Pushes (L : Layout) (pd : PdTable) (total : BitVec 32) (es : List E820MmapEntry)
    (start a : BitVec 64) : Prop :=
  ∃ n f, makeBuddy L (Mem.start pd) total es start n = some f ∧ a ∈ f.pushed

section Push

variable {L : Layout} {es : List E820MmapEntry} {e d : E820MmapEntry} {f : Filling} {pd : PdTable}
variable {total : BitVec 32} {start a : BitVec 64}

/-- Only usable memory enters the allocator. No region reaches into the last 2 MiB of the address
space. Then `makeBuddy` returns, and after any number of rounds every block pushed is aligned, at or
above `start`, inside a region of free memory and pushed once; the counter counts them on 32 bits. -/
theorem pushed_usable (L : Layout) (pd : PdTable) (total : BitVec 32) (hm : SortedMap es)
    (htop : ∀ e ∈ es, e.base.toNat + e.length.toNat + mb 2 ≤ 2 ^ 64) (hal : mb 2 ∣ start.toNat)
    (hin : ∃ e ∈ es, e.Covers start.toNat) :
    (∃ n f, makeBuddy L (Mem.start pd) total es start n = some f ∧ f.regions = []) ∧
    ∀ n, ∃ f, makeBuddy L (Mem.start pd) total es start n = some f ∧
      (∀ a ∈ f.pushed, ∃ e, UsableBlock es start e a) ∧ f.pushed.Nodup ∧
      f.mem.allocator.count maxOrder = BitVec.ofNat 32 f.pushed.length := by
  have hcov : Covered E820MmapEntry.holds es start.toNat := by
    obtain ⟨e, he, hx⟩ := hin
    have ht := htop e he
    refine ⟨e, he, (holds_iff_covers ?_).mpr hx⟩
    rw [mb_two] at ht
    omega
  have hsome : ∀ n, ∃ f, makeBuddy L (Mem.start pd) total es start n = some f := by
    intro n
    obtain ⟨f₀, hf₀, _, _, ht⟩ := makeBuddyStart_walking pd total hal hcov
    rw [makeBuddy, hf₀]
    exact ht.exists_rounds n
  -- an address in the last block would have to be in some region
  have hpast : ¬ Swept es start.toNat (2 ^ 64) := by
    intro hsw
    have hlt := start.isLt
    obtain ⟨e, he, hx⟩ := hsw (2 ^ 64 - mb 2) (by decide) (by rw [mb_two] at *; omega) (by decide)
    have hc := (E820MmapEntry.Covers.of_holds hx).2
    have ht := htop e he
    rw [mb_two] at *
    omega
  constructor
  · obtain ⟨f, hf⟩ := hsome (2 ^ 43)
    refine ⟨2 ^ 43, f, hf, ?_⟩
    cases (makeBuddy_cases hm hal hf).2 with
    | inl hw =>
      have hlt := f.start.isLt
      rw [hw.2, mb_two] at hlt
      omega
    | inr hw =>
      cases hw with
      | inl hh =>
        obtain ⟨x, _, hh⟩ := hh
        exact hh.regions
      | inr hsw => exact absurd hsw hpast
  · intro n
    obtain ⟨f, hf⟩ := hsome n
    obtain ⟨_, hcase⟩ := makeBuddy_cases hm hal hf
    obtain ⟨x, hw⟩ : ∃ x, Walked es start.toNat x f := by
      cases hcase with
      | inl hw => exact ⟨_, hw.1.walked⟩
      | inr hw =>
        cases hw with
        | inl hh =>
          obtain ⟨x, _, hh⟩ := hh
          exact ⟨x, hh.walked⟩
        | inr hsw => exact absurd hsw hpast
    refine ⟨f, hf, fun a ha => ?_, ?_, hw.count⟩
    · obtain ⟨hy, hle, _, e, he, hfree, hhold, hrange⟩ := (hw.pushed a).mp ha
      have ht := htop e he
      have hca := (E820MmapEntry.Covers.of_holds hhold)
      rw [rangeIn_iff, BitVec.toNat_add, BitVec.toNat_ofNat, BitVec.toNat_add] at hrange
      refine ⟨e, he, hfree, hy, BitVec.le_def.mpr hle, hca.1, ?_⟩
      rw [E820MmapEntry.Covers] at hca
      rw [mb_two] at *
      omega
    · exact hw.increasing.imp fun {a b} hlt heq => by rw [heq] at hlt; exact absurd hlt (Nat.lt_irrefl _)

/-- The sum `base + length` does not wrap. -/
def NonWrapping (es : List E820MmapEntry) : Prop :=
  ∀ e ∈ es, e.base.toNat + e.length.toNat ≤ 2 ^ 64

/-- Free memory up to 16 MiB, of which the kernel takes 8 MiB. -/
def freeMap : List E820MmapEntry := [⟨0, 0x1000000, regionFree, 1⟩]

theorem SortedMap.singleton (e : E820MmapEntry) : SortedMap [e] :=
  ⟨List.pairwise_singleton _ _, List.pairwise_singleton _ _⟩

theorem pushed_usable_one : ∃ n f, makeBuddy smallLayout (Mem.start fun _ => ⟨0⟩) 0 freeMap
    0x800000#64 n = some f ∧ f.regions = [] :=
  (pushed_usable smallLayout (fun _ => ⟨0⟩) 0 (SortedMap.singleton _ : SortedMap freeMap)
    (by decide) (by decide) ⟨_, List.mem_cons_self .., by decide, by decide⟩).1

instance : Decidable (NonWrapping es) := by unfold NonWrapping; infer_instance
instance (a : BitVec 64) : Decidable (e.Contains a) := by
  unfold E820MmapEntry.Contains; infer_instance

/-- Behind the low memory, all but the last byte of the last two blocks of the address space. -/
def topMap : List E820MmapEntry :=
  [⟨0, 0x9fc00, regionFree, 1⟩, ⟨0xffffffffffc00000, 0x3fffff, regionFree, 1⟩]

theorem topMap_sorted : SortedMap topMap where
  sorted := by decide
  apart := by
    refine List.pairwise_pair.mpr fun x hx => ?_
    have hlo : x < 0x9fc00 := hx.1.2
    have hhi : 0xffffffffffc00000 ≤ x := hx.2.1
    omega

/-- 2^54 bytes of free memory. -/
def hugeMap : List E820MmapEntry := [⟨0, 0x40000000000000, regionFree, 1⟩]

theorem swept_of_mem {s₀ x : Nat} (he : e ∈ es) (hlo : e.base.toNat ≤ s₀)
    (hhi : x ≤ (e.base + e.length).toNat) : Swept es s₀ x := by
  intro y _ hle hlt
  refine ⟨e, he, ?_⟩
  simp only [E820MmapEntry.holds, Bool.and_eq_true, decide_eq_true_eq]
  omega

/-- `start + 2_MB` wraps to zero, which is below the end of the region. -/
theorem topMap_pushed : ∃ n f,
    makeBuddy smallLayout (Mem.start fun _ => ⟨0⟩) 0 topMap 0xffffffffffc00000#64 n = some f ∧
      0xffffffffffe00000#64 ∈ f.pushed := by
  obtain ⟨n, f, hf, hw⟩ := makeBuddy_reaches smallLayout (fun _ => ⟨0⟩) 0
    (x := 0xffffffffffe00000) topMap_sorted
    (by decide : mb 2 ∣ (0xffffffffffc00000#64).toNat) (by decide) (by decide) (by decide)
    (swept_of_mem (List.mem_cons_of_mem _ (List.mem_cons_self ..)) (by decide) (by decide))
  exact ⟨n, f, hf, (hw.pushed _).mpr
    ⟨by decide, by decide, by decide, _, List.mem_cons_of_mem _ (List.mem_cons_self ..), by decide⟩⟩

/-- When each of `n` blocks from zero on is usable, `n` blocks are pushed. -/
theorem Walked.length_pushed {n : Nat} (hw : Walked es 0 (n * mb 2) f) (hn : n * mb 2 ≤ 2 ^ 64)
    (hu : ∀ k, k < n → Usable es (BitVec.ofNat 64 (k * mb 2))) : n ≤ f.pushed.length := by
  have hto : ∀ k, k < n → (BitVec.ofNat 64 (k * mb 2)).toNat = k * mb 2 := by
    intro k hk
    rw [BitVec.toNat_ofNat, Nat.mod_eq_of_lt]
    rw [mb_two] at *
    omega
  have hsub : (List.range n).map (fun k => BitVec.ofNat 64 (k * mb 2)) ⊆ f.pushed := by
    intro a ha
    obtain ⟨k, hk, rfl⟩ := List.mem_map.mp ha
    rw [List.mem_range] at hk
    rw [hw.pushed, hto k hk]
    refine ⟨Nat.dvd_mul_left _ _, Nat.zero_le _, ?_, hu k hk⟩
    rw [mb_two]
    omega
  have hnd : ((List.range n).map fun k => BitVec.ofNat 64 (k * mb 2)).Nodup := by
    refine List.Nodup.map_on ?_ List.nodup_range
    intro j hj k hk heq
    rw [List.mem_range] at hj hk
    have ht := congrArg BitVec.toNat heq
    rw [hto j hj, hto k hk, mb_two] at ht
    omega
  have hlen := (List.subperm_of_subset hnd hsub).length_le
  rwa [List.length_map, List.length_range] at hlen

/-- At some point 2^32 blocks are pushed. -/
theorem hugeMap_pushed : ∃ n f, makeBuddy smallLayout (Mem.start fun _ => ⟨0⟩) 0 hugeMap 0#64 n =
    some f ∧ 2 ^ 32 ≤ f.pushed.length := by
  obtain ⟨n, f, hf, hw⟩ := makeBuddy_reaches smallLayout (fun _ => ⟨0⟩) 0
    (x := (2 ^ 32 - 1) * mb 2) (SortedMap.singleton _ : SortedMap hugeMap)
    (by decide : mb 2 ∣ (0#64).toNat) (by decide) (by decide) (by decide)
    (swept_of_mem (List.mem_cons_self ..) (by decide) (by decide))
  rw [show (2 ^ 32 - 1) * mb 2 + mb 2 = 2 ^ 32 * mb 2 by omega, BitVec.toNat_zero] at hw
  refine ⟨n, f, hf, hw.length_pushed (by decide) fun k hk => ?_⟩
  have hlt : k * mb 2 < 2 ^ 53 := by
    rw [mb_two]
    omega
  have hto : (BitVec.ofNat 64 (k * mb 2)).toNat = k * mb 2 := by
    rw [BitVec.toNat_ofNat, Nat.mod_eq_of_lt (Nat.lt_trans hlt (by omega))]
  have hnext : (k * mb 2 + mb 2) % 2 ^ 64 < 2 ^ 54 := by
    rw [mb_two] at *
    omega
  refine ⟨_, List.mem_cons_self .., rfl, ?_, ?_⟩
  · rw [holds_iff, hto]
    exact ⟨Nat.zero_le _, Nat.lt_of_lt_of_le hlt (by decide)⟩
  · rw [rangeIn_iff, BitVec.toNat_add, hto]
    exact ⟨Nat.zero_le _, Nat.lt_of_lt_of_le hnext (by decide)⟩

/-- A region that ends in the last block of the address space gives the whole block away; and after
2^32 blocks the counter is zero again. -/
theorem last_block_pushed :
    (¬ ∀ (es : List E820MmapEntry) (start : BitVec 64) (n : Nat) (f : Filling),
      SortedMap es → NonWrapping es → mb 2 ∣ start.toNat → (∃ e ∈ es, e.Covers start.toNat) →
      makeBuddy smallLayout (Mem.start fun _ => ⟨0⟩) 0 es start n = some f →
      ∀ a ∈ f.pushed, ∃ e, UsableBlock es start e a) ∧
    ¬ ∀ (es : List E820MmapEntry) (start : BitVec 64) (n : Nat) (f : Filling),
      SortedMap es → NonWrapping es → mb 2 ∣ start.toNat → (∃ e ∈ es, e.Covers start.toNat) →
      makeBuddy smallLayout (Mem.start fun _ => ⟨0⟩) 0 es start n = some f →
      (f.mem.allocator.count maxOrder).toNat = f.pushed.length := by
  constructor
  · intro h
    obtain ⟨n, f, hf, ha⟩ := topMap_pushed
    obtain ⟨e, he⟩ := h _ _ n f topMap_sorted (by decide) (by decide)
      ⟨_, List.mem_cons_of_mem _ (List.mem_cons_self ..), by decide, by decide⟩ hf _ ha
    have hnone : ∀ e ∈ topMap, ¬ e.Contains 0xffffffffffe00000 := by decide
    exact hnone e he.mem he.contains
  · intro h
    obtain ⟨n, f, hf, hlen⟩ := hugeMap_pushed
    have hcount := h _ _ n f (SortedMap.singleton _) (by decide) (by decide)
      ⟨_, List.mem_cons_self .., by decide, by decide⟩ hf
    have hlt := (f.mem.allocator.count maxOrder).isLt
    omega

theorem swept_iff : Swept es start.toNat (a.toNat + 1) ↔
    ∀ x : BitVec 64, mb 2 ∣ x.toNat → start ≤ x → x ≤ a → ∃ d ∈ es, d.rangeIn x x := by
  constructor
  · intro hsw x hx hle hxa
    obtain ⟨d, hd, hdx⟩ := hsw x.toNat hx (BitVec.le_def.mp hle)
      (Nat.lt_succ_iff.mpr (BitVec.le_def.mp hxa))
    exact ⟨d, hd, by rw [rangeIn_self]; exact hdx⟩
  · intro h y hy hle hlt
    have hlt64 := a.isLt
    have hto : (BitVec.ofNat 64 y).toNat = y := by
      rw [BitVec.toNat_ofNat, Nat.mod_eq_of_lt (by omega)]
    obtain ⟨d, hd, hdx⟩ := h (BitVec.ofNat 64 y) (by rw [hto]; exact hy)
      (by rw [BitVec.le_def, hto]; exact hle) (by rw [BitVec.le_def, hto]; omega)
    rw [rangeIn_self, hto] at hdx
    exact ⟨d, hd, hdx⟩

/-- A block is pushed exactly when it does not end at its region's end and all multiples of 2 MiB from
`start` up to it are in regions. -/
theorem UsableBlock.pushes_iff (hm : SortedMap es) (hnw : NonWrapping es) (hal : mb 2 ∣ start.toNat)
    (hb : UsableBlock es start e a) : Pushes L pd total es start a ↔
      a.toNat + mb 2 ≠ e.base.toNat + e.length.toNat ∧
        ∀ x : BitVec 64, mb 2 ∣ x.toNat → start ≤ x → x ≤ a → ∃ d ∈ es, d.rangeIn x x := by
  have hfit := hnw e hb.mem
  have hcont := hb.contains
  rw [E820MmapEntry.Contains] at hcont
  have hea : e.Covers a.toNat := by
    rw [E820MmapEntry.Covers]
    rw [mb_two] at hcont
    omega
  -- the region that the loop finds at `a` is `e`
  have hholds : Swept es start.toNat (a.toNat + 1) → e.holds a.toNat := by
    intro hsw
    obtain ⟨d, hd, hda⟩ := hsw a.toNat hb.aligned (BitVec.le_def.mp hb.above) (Nat.lt_succ_self _)
    rw [← hm.covers_unique hd hb.mem (.of_holds hda) hea]
    exact hda
  rw [← swept_iff]
  constructor
  · intro hp
    obtain ⟨n, f, hf, ha⟩ := hp
    obtain ⟨ht, hcase⟩ := makeBuddy_cases hm hal hf
    have hsw : Swept es start.toNat (a.toNat + 1) := by
      cases hcase with
      | inl hw =>
        have hlt := ((hw.1.walked.pushed a).mp ha).2.2.1
        exact fun y hy hle hlt' => hw.1.walked.swept y hy hle (by omega)
      | inr hw =>
        cases hw with
        | inl hh =>
          obtain ⟨x, _, hh⟩ := hh
          have hlt := ((hh.walked.pushed a).mp ha).2.2.1
          exact fun y hy hle hlt' => hh.walked.swept y hy hle (by omega)
        | inr hsw =>
          have hlt := a.isLt
          exact fun y hy hle hlt' => hsw y hy hle (by omega)
    refine ⟨fun heq => ?_, hsw⟩
    have hold := hholds hsw
    rw [holds_iff] at hold
    obtain ⟨d, hd, _, hrange⟩ := ht.pushed a ha
    have hda : d.Covers a.toNat := by
      rw [rangeIn_iff, BitVec.toNat_add, BitVec.toNat_ofNat, BitVec.toNat_add] at hrange
      rw [E820MmapEntry.Covers]
      rw [mb_two] at *
      omega
    rw [hm.covers_unique hd hb.mem hda hea, rangeIn_iff, BitVec.toNat_add, BitVec.toNat_ofNat,
      BitVec.toNat_add] at hrange
    rw [mb_two] at *
    omega
  · intro h
    obtain ⟨hne, hsw⟩ := h
    have hold := hholds hsw
    obtain ⟨n, f, hf, hw⟩ := makeBuddy_reaches L pd total hm hal hb.aligned
      (BitVec.le_def.mp hb.above) a.isLt hsw
    refine ⟨n, f, hf, (hw.pushed a).mpr ⟨hb.aligned, BitVec.le_def.mp hb.above, ?_, e, hb.mem,
      hb.free, hold, ?_⟩⟩
    · rw [mb_two]
      omega
    · rw [holds_iff] at hold
      rw [rangeIn_iff, BitVec.toNat_add, BitVec.toNat_ofNat, BitVec.toNat_add]
      rw [mb_two] at *
      omega

/-- All usable memory is pushed exactly when no 2 MiB block of free memory ends at its region's
end and none comes after an address of no region. -/
theorem usable_pushed_iff (L : Layout) (pd : PdTable) (total : BitVec 32) (hm : SortedMap es)
    (hnw : NonWrapping es) (hal : mb 2 ∣ start.toNat) :
    (∀ e a, UsableBlock es start e a → Pushes L pd total es start a) ↔
      ∀ e a, UsableBlock es start e a → a.toNat + mb 2 ≠ e.base.toNat + e.length.toNat ∧
        ∀ x : BitVec 64, mb 2 ∣ x.toNat → start ≤ x → x ≤ a → ∃ d ∈ es, d.rangeIn x x := by
  constructor
  · intro h e a hb
    exact (hb.pushes_iff hm hnw hal).mp (h e a hb)
  · intro h e a hb
    exact (hb.pushes_iff hm hnw hal).mpr (h e a hb)

/-- Free memory up to 17 MiB: the last block ends before. -/
def looseMap : List E820MmapEntry := [⟨0, 0x1100000, regionFree, 1⟩]

theorem usable_pushed_loose :
    Pushes smallLayout (fun _ => ⟨0⟩) 0 looseMap 0x800000#64 0xe00000#64 := by
  refine (usable_pushed_iff smallLayout (fun _ => ⟨0⟩) 0 (SortedMap.singleton _) (by decide)
    (by decide)).mpr (fun e a hb => ?_) ⟨0, 0x1100000, regionFree, 1⟩ 0xe00000#64
    ⟨List.mem_cons_self .., rfl, by decide, by decide, by decide⟩
  have hmem := List.mem_singleton.mp hb.mem
  have hal := hb.aligned
  have hc := hb.contains
  rw [hmem, E820MmapEntry.Contains] at hc
  rw [hmem]
  simp only [mb_two] at *
  refine ⟨?_, fun x _ _ hxa => ⟨_, List.mem_cons_self .., ?_⟩⟩
  · intro heq
    simp at heq
    omega
  · rw [rangeIn_iff]
    rw [BitVec.le_def] at hxa
    simp at hc ⊢
    omega

/-- The block that ends at 16 MiB, as the region does, is not pushed. -/
theorem last_block_dropped : ¬ ∀ (es : List E820MmapEntry) (start : BitVec 64), SortedMap es →
    NonWrapping es → mb 2 ∣ start.toNat → (∃ e ∈ es, e.Covers start.toNat) →
    ∀ e a, UsableBlock es start e a → Pushes smallLayout (fun _ => ⟨0⟩) 0 es start a := by
  intro h
  have hb : UsableBlock freeMap 0x800000#64 ⟨0, 0x1000000, regionFree, 1⟩ 0xe00000#64 :=
    ⟨List.mem_cons_self .., rfl, by decide, by decide, by decide⟩
  have hp := h freeMap 0x800000#64 (SortedMap.singleton _) (by decide) (by decide)
    ⟨_, List.mem_cons_self .., by decide⟩ _ _ hb
  exact ((hb.pushes_iff (SortedMap.singleton _) (by decide) (by decide)).mp hp).1 (by decide)

end Push
end Memory
end TorexOS
