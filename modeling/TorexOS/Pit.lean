import Mathlib.Algebra.BigOperators.Group.List.Basic
import Mathlib.Data.BitVec
import Mathlib.Tactic.Ring

/-!
# TorexOS.Pit

Waiting with the timer chip, `waitUsingDirectPIT` and `waitMs` of `drivers/timer/pit.cpp`.

* `counter`: what counter 0 holds, some ticks after `initialize(0, false)` loaded it.
* `waitLoop`: the loop, over the ticks at which it reads. A program does not choose these.
* `wait_spec`: a wait takes as many ticks as asked for, and at most one pause between two reads more.
* `waitMs_spec`: so does `waitMs`, up to what `msToCount` rounds off.
-/

namespace TorexOS
namespace Pit

def frequency : BitVec 32 := 1193182

/-- `msToCount`: both operands of the product are `int`. -/
def msToCount (x : BitVec 16) : BitVec 16 :=
  ((frequency * x.setWidth 32).sdiv 1000).setWidth 16

/-- Counter 0 at tick `t`, in mode 0 with a count of 0 loaded at tick `load`. -/
def counter (load t : Nat) : BitVec 16 := 0 - BitVec.ofNat 16 (t - load)

/-- `ReadCounter0`: the latched value comes out of the port as two bytes. -/
def readCounter0 (latched : BitVec 16) : BitVec 16 :=
  let low := (latched.extractLsb' 0 8).setWidth 16
  let high := (latched.extractLsb' 8 8).setWidth 16
  high <<< 8 ||| low

/-- `((last - current) & 0xffff) < count` -/
def tooEarly (last current count : BitVec 16) : Bool :=
  (last.setWidth 32 - current.setWidth 32) &&& 0xffff#32 < count.setWidth 32

section Wait

variable (times load : Nat → Nat)

/-- The loop from read `k` on: the number of the last read. -/
def waitLoop (count last : BitVec 16) (loaded : Nat) : Nat → Nat → Option Nat
  | 0, _ => none
  | fuel + 1, k =>
    let current := readCounter0 (counter loaded (times k))
    if tooEarly last current count then waitLoop count last loaded fuel (k + 1) else some k

/-- `waitUsingDirectPIT`, with read `k` as its first. -/
def waitUsingDirectPIT (fuel : Nat) (count : BitVec 16) (k : Nat) : Option Nat :=
  waitLoop times count (readCounter0 (counter (load k) (times k))) (load k) fuel (k + 1)

/-- One wait after another: the number of the read that comes next. -/
def waits (fuel : Nat) : List (BitVec 16) → Nat → Option Nat
  | [], k => some k
  | count :: counts, k =>
    match waitUsingDirectPIT times load fuel count k with
    | none => none
    | some j => waits fuel counts (j + 1)

/-- The counts of `waitMs`. -/
def msCounts (millisecond : BitVec 64) : List (BitVec 16) :=
  List.replicate (millisecond >>> 5).toNat (msToCount 0x20) ++
    [msToCount ((millisecond &&& 0x1F).setWidth 16)]

def waitMs (fuel : Nat) (millisecond : BitVec 64) : Option Nat :=
  waits times load fuel (msCounts millisecond) 0

/-- The reads go on, at most `gap` ticks apart, and each wait loads the counter before it reads. -/
structure Polls (gap : Nat) : Prop where
  mono : ∀ k, times k ≤ times (k + 1)
  gap : ∀ k, times (k + 1) ≤ times k + gap
  goes_on : ∀ t, ∃ k, t ≤ times k
  loaded : ∀ k, load k ≤ times k

end Wait

/-! ## The counter -/

variable {times load : Nat → Nat} {gap : Nat} {count : BitVec 16} {j k : Nat}

theorem readCounter0_eq (v : BitVec 16) : readCounter0 v = v := by
  apply BitVec.eq_of_getLsbD_eq
  intro i hi
  unfold readCounter0
  by_cases h : i < 8
  · simp [h, show i < 16 by omega]
  · simp [h, show i < 16 by omega, show i - 8 < 8 by omega, show 8 + (i - 8) = i by omega]

theorem tooEarly_iff (last current count : BitVec 16) :
    tooEarly last current count = true ↔ (last - current).toNat < count.toNat := by
  have hmask : (0xffff#32 : BitVec 32).toNat = 2 ^ 16 - 1 := by decide
  have hl := last.isLt
  have hc := current.isLt
  rw [tooEarly, decide_eq_true_iff, BitVec.lt_def, BitVec.toNat_and, hmask,
    Nat.and_two_pow_sub_one_eq_mod, BitVec.toNat_sub, BitVec.toNat_setWidth, BitVec.toNat_setWidth,
    BitVec.toNat_setWidth, BitVec.toNat_sub]
  have hcount := count.isLt
  omega

/-- The difference of two reads is the number of ticks between them, as long as the counter does not
go around. -/
theorem counter_sub {s t l : Nat} (hl : l ≤ s) (h : s ≤ t) :
    (counter l s - counter l t).toNat = (t - s) % 2 ^ 16 := by
  simp only [counter, BitVec.toNat_sub, BitVec.toNat_ofNat]
  omega

theorem Polls.le (h : Polls times load gap) (hk : k ≤ j) : times k ≤ times j := by
  induction hk with
  | refl => exact Nat.le_refl _
  | step _ ih => exact Nat.le_trans ih (h.mono _)

/-- The loop goes on to the first read that is late enough. -/
theorem waitLoop_spec (h : Polls times load gap) {n fuel : Nat} (hf : n < fuel) (hk : k < j)
    (hearly : ∀ i, j ≤ i → i < j + n → times i < times k + count.toNat)
    (hlate : times k + count.toNat ≤ times (j + n)) (hnot : times (j + n) < times k + 2 ^ 16) :
    waitLoop times count (readCounter0 (counter (load k) (times k))) (load k) fuel j = some (j + n) := by
  have hdiff : ∀ i, k ≤ i → i ≤ j + n → (readCounter0 (counter (load k) (times k)) -
      readCounter0 (counter (load k) (times i))).toNat = times i - times k := fun i hki hin => by
    have hle := h.le hin
    rw [readCounter0_eq, readCounter0_eq, counter_sub (h.loaded k) (h.le hki), Nat.mod_eq_of_lt (by omega)]
  induction n generalizing j fuel with
  | zero =>
    obtain ⟨fuel, rfl⟩ := Nat.exists_eq_succ_of_ne_zero (Nat.ne_of_gt hf)
    rw [waitLoop, if_neg]
    · rfl
    rw [tooEarly_iff, hdiff j (by omega) (by omega)]
    rw [Nat.add_zero] at hlate
    omega
  | succ n ih =>
    obtain ⟨fuel, rfl⟩ := Nat.exists_eq_succ_of_ne_zero (Nat.ne_of_gt (Nat.zero_lt_of_lt hf))
    have hlt := hearly j (by omega) (by omega)
    have hle := h.le (Nat.le_of_lt hk)
    rw [waitLoop, if_pos (by rw [tooEarly_iff, hdiff j (by omega) (by omega)]; omega),
      ih (by omega) (by omega) (fun i hi hlt => hearly i (by omega) (by omega))
        (by rwa [Nat.add_right_comm]) (by rwa [Nat.add_right_comm])
        (fun i hki hin => hdiff i hki (by omega)), Nat.add_right_comm]
    rfl

/-- A wait ends at the first read after `count` ticks. -/
theorem wait_spec (h : Polls times load gap) (hfit : count.toNat + gap < 2 ^ 16) (k : Nat) :
    ∃ n j, k < j ∧ (∀ fuel, n < fuel → waitUsingDirectPIT times load fuel count k = some j) ∧
      times k + count.toNat ≤ times j ∧ times j ≤ times k + count.toNat + gap := by
  have hex : ∃ n, times k + count.toNat ≤ times (k + 1 + n) := by
    obtain ⟨i, hi⟩ := h.goes_on (times k + count.toNat)
    exact ⟨i, Nat.le_trans hi (h.le (by omega))⟩
  have hlate := Nat.find_spec hex
  have hfirst := fun i (hi : i < Nat.find hex) => Nat.find_min hex hi
  generalize Nat.find hex = n at hlate hfirst
  have hend : times (k + 1 + n) ≤ times k + count.toNat + gap := by
    cases n with
    | zero => exact Nat.le_trans (h.gap k) (by omega)
    | succ n =>
      have hbefore := hfirst n (by omega)
      exact Nat.le_trans (h.gap (k + 1 + n)) (by omega)
  refine ⟨n, k + 1 + n, by omega, fun fuel hf => ?_, hlate, hend⟩
  refine waitLoop_spec h hf (by omega) (fun i hi hlt => ?_) hlate (by omega)
  have hbefore := hfirst (i - (k + 1)) (by omega)
  rw [show k + 1 + (i - (k + 1)) = i by omega] at hbefore
  omega

/-- Waits in a row take the sum of their counts, and a pause for each read that is not the first. -/
theorem waits_spec (h : Polls times load gap) {counts : List (BitVec 16)}
    (hfit : ∀ c ∈ count :: counts, c.toNat + gap < 2 ^ 16) (k : Nat) :
    ∃ n j, k < j ∧ (∀ fuel, n < fuel → waits times load fuel (count :: counts) k = some (j + 1)) ∧
      times k + ((count :: counts).map BitVec.toNat).sum ≤ times j ∧
      times j ≤ times k + ((count :: counts).map BitVec.toNat).sum + (2 * counts.length + 1) * gap := by
  induction counts generalizing count k with
  | nil =>
    obtain ⟨n, j, hkj, hwait, hlo, hhi⟩ := wait_spec h (hfit count List.mem_cons_self) k
    refine ⟨n, j, hkj, fun fuel hf => ?_, by simpa using hlo, by simpa using hhi⟩
    rw [waits, hwait fuel hf]
    rfl
  | cons c counts ih =>
    obtain ⟨n, j, hkj, hwait, hlo, hhi⟩ := wait_spec h (hfit count List.mem_cons_self) k
    obtain ⟨n', j', hjj, hrest, hlo', hhi'⟩ := ih (fun c hc => hfit c (List.mem_cons_of_mem _ hc)) (j + 1)
    have hnext := h.mono j
    have hpause := h.gap j
    refine ⟨max n n', j', by omega, fun fuel hf => ?_, ?_, ?_⟩
    · rw [waits, hwait fuel (by omega)]
      exact hrest fuel (by omega)
    · rw [List.map_cons, List.sum_cons]
      omega
    · rw [List.map_cons, List.sum_cons, List.length_cons]
      have hmul : (2 * (counts.length + 1) + 1) * gap = (2 * counts.length + 1) * gap + gap + gap := by ring
      omega

/-! ## waitMs -/

theorem toNat_msToCount {x : BitVec 16} (h : x.toNat ≤ 32) :
    (msToCount x).toNat = 1193182 * x.toNat / 1000 := by
  have hprod : (frequency * x.setWidth 32).toNat = 1193182 * x.toNat := by
    have hf : frequency.toNat = 1193182 := rfl
    rw [BitVec.toNat_mul, BitVec.toNat_setWidth, hf]
    omega
  have hmsb : (frequency * x.setWidth 32).msb = false := by
    rw [BitVec.msb_eq_false_iff_two_mul_lt, hprod]
    omega
  have hdiv : ((frequency * x.setWidth 32).sdiv 1000).toNat = 1193182 * x.toNat / 1000 := by
    rw [BitVec.sdiv_eq, hmsb]
    exact (BitVec.toNat_udiv).trans (congrArg (· / 1000) hprod)
  rw [msToCount, BitVec.toNat_setWidth, hdiv]
  omega

theorem toNat_rest (ms : BitVec 64) : ((ms &&& 0x1F).setWidth 16).toNat = ms.toNat % 32 := by
  have hmask : (0x1F : BitVec 64).toNat = 2 ^ 5 - 1 := by decide
  rw [BitVec.toNat_setWidth, BitVec.toNat_and, hmask, Nat.and_two_pow_sub_one_eq_mod]
  omega

/-- What the counts of `waitMs` are in all. -/
theorem sum_msCounts (ms : BitVec 64) : ((msCounts ms).map BitVec.toNat).sum =
    ms.toNat / 32 * 38181 + 1193182 * (ms.toNat % 32) / 1000 := by
  have hrest := toNat_rest ms
  have h32 : (msToCount 0x20).toNat = 38181 := by decide
  rw [msCounts, List.map_append, List.sum_append, List.map_replicate, List.sum_replicate_nat, h32,
    List.map_singleton, List.sum_singleton, toNat_msToCount (by omega), hrest, BitVec.toNat_ushiftRight,
    Nat.shiftRight_eq_div_pow]

theorem msCounts_le (ms : BitVec 64) : ∀ c ∈ msCounts ms, c.toNat ≤ 38181 := by
  have hrest := toNat_rest ms
  intro c hc
  rcases List.mem_append.mp hc with hc | hc
  · rw [List.eq_of_mem_replicate hc]
    decide
  · rw [List.mem_singleton.mp hc, toNat_msToCount (by omega)]
    omega

/-- `waitMs` returns. With at most `gap` ticks from one read to the next it waits as long as it should, less
what is rounded off, and at most two such pauses longer for each whole 32 ms, and one more. -/
theorem waitMs_spec (h : Polls times load gap) (hgap : gap < 27355) (ms : BitVec 64) :
    ∃ n j, (∀ fuel, n < fuel → waitMs times load fuel ms = some (j + 1)) ∧
      1193182 * ms.toNat ≤ 1000 * (times j - times 0) + 824 * (ms.toNat / 32) + 999 ∧
      1000 * (times j - times 0) ≤ 1193182 * ms.toNat + 1000 * ((2 * (ms.toNat / 32) + 1) * gap) := by
  have hlen : (msCounts ms).length = ms.toNat / 32 + 1 := by
    rw [msCounts, List.length_append, List.length_replicate, BitVec.toNat_ushiftRight,
      Nat.shiftRight_eq_div_pow]
    rfl
  have hsum := sum_msCounts ms
  have hle := msCounts_le ms
  unfold waitMs
  generalize msCounts ms = counts at hlen hsum hle
  cases counts with
  | nil => cases hlen
  | cons c counts =>
    rw [List.length_cons, Nat.add_right_cancel_iff] at hlen
    obtain ⟨n, j, -, hwait, hlo, hhi⟩ :=
      waits_spec h (fun c hc => by have := hle c hc; omega) 0
    rw [hsum] at hlo hhi
    rw [hlen] at hhi
    refine ⟨n, j, hwait, ?_, ?_⟩
    · omega
    · generalize (2 * (ms.toNat / 32) + 1) * gap = pauses at hhi
      omega

/-- Reads every three ticks. -/
theorem waitMs_hundred : ∃ n j, (∀ fuel, n < fuel → waitMs (fun k => 3 * k) (fun _ => 0) fuel 100 = some (j + 1)) ∧
    1193182 * 100 ≤ 1000 * (3 * j - 3 * 0) + 824 * (100 / 32) + 999 ∧
    1000 * (3 * j - 3 * 0) ≤ 1193182 * 100 + 1000 * ((2 * (100 / 32) + 1) * 3) :=
  waitMs_spec ⟨fun k => by omega, fun k => by omega, fun t => ⟨t, by omega⟩, fun k => by omega⟩ (by omega) 100

end Pit
end TorexOS
