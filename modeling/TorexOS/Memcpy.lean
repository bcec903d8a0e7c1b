import TorexOS.Lib.Guarded
import Mathlib.Tactic.Ring

/-!
# TorexOS.Memcpy

`text::memcpy` of `lib/src/stringutil.cpp`: bytes until the source is aligned, then words. Where the
destination is not aligned as well, each word is put together of two.

* `memcpy` checks each load against the `n` bytes at `src` and each store against those at `dest`.
* `copied k`: `k` bytes are copied and both pointers are behind them. Each part of the function takes
  `copied k` to `copied (k + j)`.
* `memcpy_moved`, `memcpy_copies`: all `n` bytes are copied and no other changes, unless the two
  ranges overlap.
-/

namespace TorexOS
namespace Text

open Packed Guarded

/-- The memory and the pointers `d` and `s`. -/
structure Copying where
  mem : Bytes
  d : Nat
  s : Nat

/-- What may be written and what may be read. -/
structure Access where
  dest : Span
  src : Span

/-- `*d++ = *s++;` -/
def copy8 (r : Access) (p : Copying) : Option Copying := do
  let b ← get8 r.src p.mem p.s
  let mem ← put8 r.dest p.mem p.d b
  return ⟨mem, p.d + 1, p.s + 1⟩

/-- `*d++ = *s++;` `k` times. -/
def copyBytes (r : Access) : Nat → Copying → Option Copying
  | 0, p => some p
  | k + 1, p => do
    let p ← copy8 r p
    copyBytes r k p

/-- `*(u32 *)(d+0) = *(u32 *)(s+0); d += 4; s += 4;` -/
def copy32 (r : Access) (p : Copying) : Option Copying := do
  let v ← get32 r.src p.mem (p.s + 0)
  let mem ← put32 r.dest p.mem (p.d + 0) v
  return ⟨mem, p.d + 4, p.s + 4⟩

/-- `*(u64 *)(d+0) = *(u64 *)(s+0); d += 8; s += 8;` -/
def copy64 (r : Access) (p : Copying) : Option Copying := do
  let v ← get64 r.src p.mem (p.s + 0)
  let mem ← put64 r.dest p.mem (p.d + 0) v
  return ⟨mem, p.d + 8, p.s + 8⟩

/-- `for (; (uintptr_t)s % 4 && n; n--) *d++ = *s++;` -/
def alignSrc (r : Access) : Nat → Copying → Option (Copying × Nat)
  | 0, p => some (p, 0)
  | n + 1, p =>
    if p.s % 4 ≠ 0 then do
      let p ← copy8 r p
      alignSrc r n p
    else some (p, n + 1)

/-- `for (; n>=16; s+=16, d+=16, n-=16)` -/
def copyLoop (r : Access) (p : Copying) (n : Nat) : Option (Copying × Nat) :=
  if 16 ≤ n then do
    let v ← get64 r.src p.mem (p.s + 0)
    let mem ← put64 r.dest p.mem (p.d + 0) v
    let v ← get64 r.src mem (p.s + 8)
    let mem ← put64 r.dest mem (p.d + 8) v
    copyLoop r ⟨mem, p.d + 16, p.s + 16⟩ (n - 16)
  else some (p, n)
termination_by n

/-- `if (n&w)` -/
def onBit (n w : Nat) (step : Copying → Option Copying) (p : Copying) : Option Copying :=
  if n &&& w ≠ 0 then step p else some p

/-- Both pointers are aligned. -/
def copyAligned (r : Access) (p : Copying) (n : Nat) : Option Bytes := do
  let (p, n) ← copyLoop r p n
  let p ← onBit n 8 (copy64 r) p
  let p ← onBit n 4 (copy32 r) p
  let p ← onBit n 2 (copyBytes r 2) p
  let p ← onBit n 1 (copyBytes r 1) p
  return p.mem

/-- The loop of one of the cases: the loads are `o` bytes ahead of the stores, and a word is the
last `4 - o` bytes of one load and the first `o` of the next. -/
def shiftLoop (o ls rs : Nat) (r : Access) (w : BitVec 32) (p : Copying) (n : Nat) :
    Option (Copying × Nat) :=
  if 16 + o ≤ n then do
    let x ← get32 r.src p.mem (p.s + o)
    let mem ← put32 r.dest p.mem (p.d + 0) ((w >>> ls) ||| (x <<< rs))
    let w ← get32 r.src mem (p.s + (o + 4))
    let mem ← put32 r.dest mem (p.d + 4) ((x >>> ls) ||| (w <<< rs))
    let x ← get32 r.src mem (p.s + (o + 8))
    let mem ← put32 r.dest mem (p.d + 8) ((w >>> ls) ||| (x <<< rs))
    let w ← get32 r.src mem (p.s + (o + 12))
    let mem ← put32 r.dest mem (p.d + 12) ((x >>> ls) ||| (w <<< rs))
    shiftLoop o ls rs r w ⟨mem, p.d + 16, p.s + 16⟩ (n - 16)
  else some (p, n)
termination_by n

/-- One of the cases: a word is loaded, its first bytes are copied. -/
def shiftCase (first o ls rs : Nat) (r : Access) (p : Copying) (n : Nat) :
    Option (Copying × Nat) := do
  let w ← get32 r.src p.mem p.s
  let p ← copyBytes r first p
  shiftLoop o ls rs r w p (n - first)

def case1 := shiftCase 3 1 24 8

def case2 := shiftCase 2 2 16 16

def case3 := shiftCase 1 3 8 24

/-- `if (n >= 32) switch ((uintptr_t)d % 4)` -/
def copyShifted (r : Access) (p : Copying) (n : Nat) : Option (Copying × Nat) :=
  if 32 ≤ n then
    match p.d % 4 with
    | 1 => case1 r p n
    | 2 => case2 r p n
    | 3 => case3 r p n
    | _ => some (p, n)
  else some (p, n)

/-- The destination is not aligned. -/
def copyUnaligned (r : Access) (p : Copying) (n : Nat) : Option Bytes := do
  let (p, n) ← copyShifted r p n
  let p ← onBit n 16 (copyBytes r 16) p
  let p ← onBit n 8 (copyBytes r 8) p
  let p ← onBit n 4 (copyBytes r 4) p
  let p ← onBit n 2 (copyBytes r 2) p
  let p ← onBit n 1 (copyBytes r 1) p
  return p.mem

def memcpy (m : Bytes) (dest src n : Nat) : Option Bytes := do
  let r : Access := ⟨⟨dest, dest + n⟩, ⟨src, src + n⟩⟩
  let (p, n) ← alignSrc r n ⟨m, dest, src⟩
  if p.d % 4 = 0 then copyAligned r p n else copyUnaligned r p n

/-! ## What is copied -/

/-- The range of `N` bytes at `dest` and the one at `src`. -/
def ranges (dest src N : Nat) : Access := ⟨⟨dest, dest + N⟩, ⟨src, src + N⟩⟩

/-- The two ranges do not overlap. -/
def Apart (dest src N : Nat) : Prop := src + N ≤ dest ∨ dest + N ≤ src

/-- `k` bytes are copied, and the pointers are behind them. -/
def copied (m : Bytes) (dest src k : Nat) : Copying := ⟨moved m dest src k, dest + k, src + k⟩

/-- The bit of a power of two. -/
theorem and_pow (n i : Nat) : n &&& 2 ^ i ≠ 0 ↔ n / 2 ^ i % 2 = 1 := by
  have hbit : n.testBit i = decide (n / 2 ^ i % 2 = 1) := Nat.testBit_eq_decide_div_mod_eq
  constructor
  · intro h
    by_contra hb
    apply h
    apply Nat.eq_of_testBit_eq
    intro j
    rw [Nat.testBit_and, Nat.testBit_two_pow]
    by_cases hj : i = j
    · rw [← hj, hbit, decide_eq_false hb]
      simp
    · simp [hj]
  · intro hb h
    have hi := congrArg (fun x => Nat.testBit x i) h
    simp only [Nat.testBit_and, hbit, Nat.testBit_two_pow_self, decide_eq_true hb] at hi
    simp at hi

section Parts

variable {m : Bytes} {dest src N k n j a : Nat} (ha : Apart dest src N)
include ha

theorem get8_src (hk : k ≤ N) (hs : src ≤ a) (hj : a + 1 ≤ src + N) :
    get8 (ranges dest src N).src (moved m dest src k) a = some (m a) := by
  rw [get8_ok ⟨hs, hj⟩, moved_src ha hk ⟨hs, hj⟩]

theorem get32_src (hk : k ≤ N) (hs : src ≤ a) (hj : a + 4 ≤ src + N) :
    get32 (ranges dest src N).src (moved m dest src k) a = some (load32 m a) := by
  rw [get32_ok ⟨hs, hj⟩, load32_congr fun i _ => moved_src ha hk (by omega)]

theorem get64_src (hk : k ≤ N) (hs : src ≤ a) (hj : a + 8 ≤ src + N) :
    get64 (ranges dest src N).src (moved m dest src k) a = some (load64 m a) := by
  rw [get64_ok ⟨hs, hj⟩, load64_congr fun i _ => moved_src ha hk (by omega)]

omit ha in
theorem put8_dest (hk : k + 1 ≤ N) :
    put8 (ranges dest src N).dest (moved m dest src k) (dest + k) (m (src + k)) =
      some (moved m dest src (k + 1)) := by
  rw [put8_ok (by simp [ranges, Span.Has]; omega), moved_succ]

omit ha in
theorem put32_dest (hk : k + 4 ≤ N) :
    put32 (ranges dest src N).dest (moved m dest src k) (dest + k) (load32 m (src + k)) =
      some (moved m dest src (k + 4)) := by
  rw [put32_ok (by simp [ranges, Span.Has]; omega), moved_store32]

omit ha in
theorem put64_dest (hk : k + 8 ≤ N) :
    put64 (ranges dest src N).dest (moved m dest src k) (dest + k) (load64 m (src + k)) =
      some (moved m dest src (k + 8)) := by
  rw [put64_ok (by simp [ranges, Span.Has]; omega), moved_store64]

theorem copy8_copied (hk : k + 1 ≤ N) :
    copy8 (ranges dest src N) (copied m dest src k) = some (copied m dest src (k + 1)) := by
  simp only [copy8, copied, Option.bind_eq_bind]
  rw [get8_src ha (by omega) (by omega) (by omega), Option.bind_some, put8_dest hk]
  rfl

theorem copy32_copied (hk : k + 4 ≤ N) :
    copy32 (ranges dest src N) (copied m dest src k) = some (copied m dest src (k + 4)) := by
  simp only [copy32, copied, Option.bind_eq_bind, Nat.add_zero]
  rw [get32_src ha (by omega) (by omega) (by omega), Option.bind_some, put32_dest hk]
  rfl

theorem copy64_copied (hk : k + 8 ≤ N) :
    copy64 (ranges dest src N) (copied m dest src k) = some (copied m dest src (k + 8)) := by
  simp only [copy64, copied, Option.bind_eq_bind, Nat.add_zero]
  rw [get64_src ha (by omega) (by omega) (by omega), Option.bind_some, put64_dest hk]
  rfl

theorem copyBytes_copied (hk : k + j ≤ N) :
    copyBytes (ranges dest src N) j (copied m dest src k) = some (copied m dest src (k + j)) := by
  induction j generalizing k with
  | zero => rfl
  | succ j ih =>
    simp only [copyBytes, Option.bind_eq_bind]
    rw [copy8_copied ha (by omega), Option.bind_some, ih (by omega), Nat.add_assoc, Nat.add_comm 1 j]

/-- The source is aligned behind the first part, unless nothing is left. -/
theorem alignSrc_copied (hk : k + n = N) : ∃ j, j ≤ n ∧
    alignSrc (ranges dest src N) n (copied m dest src k) = some (copied m dest src (k + j), n - j) := by
  induction n generalizing k with
  | zero => exact ⟨0, Nat.le_refl 0, rfl⟩
  | succ n ih =>
    rw [alignSrc]
    by_cases h4 : (copied m dest src k).s % 4 ≠ 0
    · obtain ⟨j, hj, hrun⟩ := ih (k := k + 1) (by omega)
      refine ⟨j + 1, by omega, ?_⟩
      rw [if_pos h4, copy8_copied ha (by omega), Option.bind_eq_bind, Option.bind_some, hrun,
        Nat.add_assoc, Nat.add_comm 1 j, Nat.add_sub_add_right]
    · exact ⟨0, by omega, by rw [if_neg h4]; rfl⟩

theorem copyLoop_copied (hk : k + n = N) :
    copyLoop (ranges dest src N) (copied m dest src k) n =
      some (copied m dest src (k + n / 16 * 16), n % 16) := by
  induction n using Nat.strong_induction_on generalizing k with
  | _ n ih =>
    rw [copyLoop]
    by_cases h16 : 16 ≤ n
    · simp only [if_pos h16, copied, Option.bind_eq_bind, Nat.add_zero]
      rw [get64_src ha (by omega) (by omega) (by omega), Option.bind_some, put64_dest (by omega),
        Option.bind_some, get64_src ha (by omega) (by omega) (by omega), Option.bind_some,
        Nat.add_assoc, Nat.add_assoc, put64_dest (by omega), Option.bind_some]
      have hrec := ih (n - 16) (by omega) (k := k + 16) (by omega)
      rw [show k + 16 + (n - 16) / 16 * 16 = k + n / 16 * 16 by omega,
        show (n - 16) % 16 = n % 16 by omega] at hrec
      simpa only [copied, Nat.add_assoc] using hrec
    · rw [if_neg h16, Nat.div_eq_of_lt (by omega), Nat.mod_eq_of_lt (by omega)]
      rfl

/-- A word is put together of the bytes loaded last, from `b` on, and the next four. -/
theorem shift_word {α : Type} {o b s d : Nat} (ho : 0 < o) (ho4 : o < 4) (hk : k + o + 4 ≤ N)
    (hb : b + (4 - o) = src + k) (hs : s = b + 4) (hd : d = dest + k)
    (f : BitVec 32 → Bytes → Option α) :
    ((get32 (ranges dest src N).src (moved m dest src k) s).bind fun x =>
      (put32 (ranges dest src N).dest (moved m dest src k) d
        ((load32 m b >>> (8 * (4 - o))) ||| (x <<< (8 * o)))).bind fun mem => f x mem) =
      f (load32 m (b + 4)) (moved m dest src (k + 4)) := by
  have hword : (load32 m b >>> (8 * (4 - o))) ||| (load32 m (b + 4) <<< (8 * o)) =
      load32 m (src + k) := by
    rw [← hb, ← funnel m b (4 - o) (by omega) (by omega), show 32 - 8 * (4 - o) = 8 * o by omega]
  rw [hs, hd, get32_src ha (by omega) (by omega) (by omega), Option.bind_some, hword,
    put32_dest (by omega), Option.bind_some]

/-- The word loaded last begins `4 - o` bytes in front of what is copied next. -/
theorem shiftLoop_copied {o b : Nat} (ho : 0 < o) (ho4 : o < 4) (hk : k + n = N)
    (hb : b + (4 - o) = src + k) : ∃ j, j ≤ n ∧ n - j < 16 + o ∧
      shiftLoop o (8 * (4 - o)) (8 * o) (ranges dest src N) (load32 m b) (copied m dest src k) n =
        some (copied m dest src (k + j), n - j) := by
  induction n using Nat.strong_induction_on generalizing k b with
  | _ n ih =>
    rw [shiftLoop]
    by_cases h16 : 16 + o ≤ n
    · obtain ⟨j, hj, hlt, hrec⟩ := ih (n - 16) (by omega) (k := k + 16) (b := b + 16) (by omega)
        (by omega)
      refine ⟨j + 16, by omega, by omega, ?_⟩
      simp only [if_pos h16, copied, Option.bind_eq_bind]
      rw [shift_word ha ho ho4 (by omega) hb (by omega) (by omega),
        shift_word ha ho ho4 (by omega) (by omega) (by omega) (by omega),
        shift_word ha ho ho4 (by omega) (by omega) (by omega) (by omega),
        shift_word ha ho ho4 (by omega) (by omega) (by omega) (by omega)]
      rw [show n - (j + 16) = n - 16 - j by omega, Nat.add_comm j 16]
      simpa only [copied, Nat.add_assoc] using hrec
    · refine ⟨0, by omega, by omega, ?_⟩
      rw [if_neg h16]
      rfl

theorem shiftCase_copied {first o : Nat} (ho : 0 < o) (ho4 : o < 4) (hf : first + o = 4)
    (hk : k + n = N) (hn : 4 ≤ n) : ∃ j, j ≤ n ∧ n - j < 16 + o ∧
      shiftCase first o (8 * (4 - o)) (8 * o) (ranges dest src N) (copied m dest src k) n =
        some (copied m dest src (k + j), n - j) := by
  obtain ⟨j, hj, hlt, hrun⟩ := shiftLoop_copied (m := m) (n := n - first) (k := k + first) (b := src + k)
    ha ho ho4 (by omega) (by omega)
  refine ⟨first + j, by omega, by omega, ?_⟩
  simp only [shiftCase, Option.bind_eq_bind]
  rw [show (copied m dest src k).s = src + k from rfl, show (copied m dest src k).mem = moved m dest src k from rfl,
    get32_src ha (by omega) (by omega) (by omega), Option.bind_some, copyBytes_copied ha (by omega),
    Option.bind_some, hrun, Nat.add_assoc, Nat.sub_sub]

omit ha in
/-- One of the last parts: `w` bytes where the bit of `w` is set in the number that is left. -/
theorem tail_copied {w : Nat} {step : Copying → Option Copying}
    (hstep : ∀ k, k + w ≤ N → step (copied m dest src k) = some (copied m dest src (k + w)))
    (hw : n &&& w ≠ 0 ↔ n / w % 2 = 1) (hk : k + n % (w * 2) = N) :
    onBit n w step (copied m dest src k) = some (copied m dest src (N - n % w)) := by
  rw [Nat.mod_mul] at hk
  unfold onBit
  by_cases hbit : n &&& w ≠ 0
  · rw [hw.mp hbit, Nat.mul_one] at hk
    rw [if_pos hbit, hstep k (by omega), show N - n % w = k + w by omega]
  · have hzero : n / w % 2 = 0 := by
      rw [hw] at hbit
      omega
    rw [hzero, Nat.mul_zero] at hk
    rw [if_neg hbit, show N - n % w = k by omega]

theorem copyAligned_copied (hk : k + n = N) :
    copyAligned (ranges dest src N) (copied m dest src k) n = some (moved m dest src N) := by
  simp only [copyAligned, Option.bind_eq_bind, copyLoop_copied ha hk, Option.bind_some]
  generalize hn' : n % 16 = n'
  rw [tail_copied (w := 8) (fun k => copy64_copied ha) (and_pow n' 3) (by omega), Option.bind_some,
    tail_copied (w := 4) (fun k => copy32_copied ha) (and_pow n' 2) (by omega), Option.bind_some,
    tail_copied (w := 2) (fun k => copyBytes_copied ha) (and_pow n' 1) (by omega), Option.bind_some,
    tail_copied (w := 1) (fun k => copyBytes_copied ha) (and_pow n' 0) (by omega), Option.bind_some,
    Nat.mod_one]
  rfl

/-- At most 31 bytes are left for the last parts. -/
theorem copyShifted_copied (hk : k + n = N) (hd : (dest + k) % 4 ≠ 0) : ∃ j, j ≤ n ∧ n - j < 32 ∧
    copyShifted (ranges dest src N) (copied m dest src k) n = some (copied m dest src (k + j), n - j) := by
  rw [copyShifted]
  by_cases h32 : 32 ≤ n
  · rw [if_pos h32, show (copied m dest src k).d = dest + k from rfl]
    rcases (by omega : (dest + k) % 4 = 1 ∨ (dest + k) % 4 = 2 ∨ (dest + k) % 4 = 3) with h | h | h
    · obtain ⟨j, hj, hlt, hrun⟩ := shiftCase_copied (m := m) (n := n) (k := k) ha
        (show 0 < 1 by omega) (by omega) (show 3 + 1 = 4 by omega) hk (by omega)
      refine ⟨j, hj, by omega, ?_⟩
      rw [h]
      exact hrun
    · obtain ⟨j, hj, hlt, hrun⟩ := shiftCase_copied (m := m) (n := n) (k := k) ha
        (show 0 < 2 by omega) (by omega) (show 2 + 2 = 4 by omega) hk (by omega)
      refine ⟨j, hj, by omega, ?_⟩
      rw [h]
      exact hrun
    · obtain ⟨j, hj, hlt, hrun⟩ := shiftCase_copied (m := m) (n := n) (k := k) ha
        (show 0 < 3 by omega) (by omega) (show 1 + 3 = 4 by omega) hk (by omega)
      refine ⟨j, hj, by omega, ?_⟩
      rw [h]
      exact hrun
  · exact ⟨0, by omega, by omega, by rw [if_neg h32]; rfl⟩

theorem copyUnaligned_copied (hk : k + n = N) (hd : (dest + k) % 4 ≠ 0) :
    copyUnaligned (ranges dest src N) (copied m dest src k) n = some (moved m dest src N) := by
  obtain ⟨j, hj, hlt, hrun⟩ := copyShifted_copied (m := m) ha hk hd
  simp only [copyUnaligned, Option.bind_eq_bind, hrun, Option.bind_some]
  generalize hn' : n - j = n'
  rw [tail_copied (w := 16) (fun k => copyBytes_copied ha) (and_pow n' 4) (by omega), Option.bind_some,
    tail_copied (w := 8) (fun k => copyBytes_copied ha) (and_pow n' 3) (by omega), Option.bind_some,
    tail_copied (w := 4) (fun k => copyBytes_copied ha) (and_pow n' 2) (by omega), Option.bind_some,
    tail_copied (w := 2) (fun k => copyBytes_copied ha) (and_pow n' 1) (by omega), Option.bind_some,
    tail_copied (w := 1) (fun k => copyBytes_copied ha) (and_pow n' 0) (by omega), Option.bind_some,
    Nat.mod_one]
  rfl

end Parts

theorem memcpy_moved (m : Bytes) (dest src n : Nat) (ha : Apart dest src n) :
    memcpy m dest src n = some (moved m dest src n) := by
  obtain ⟨j, hj, hrun⟩ := alignSrc_copied (m := m) (k := 0) ha (Nat.zero_add n)
  have hstart : (⟨m, dest, src⟩ : Copying) = copied m dest src 0 := by simp [copied]
  simp only [memcpy, Option.bind_eq_bind]
  rw [hstart]
  change ((alignSrc (ranges dest src n) n (copied m dest src 0)).bind _) = _
  rw [hrun, Option.bind_some, Nat.zero_add]
  change (if (dest + j) % 4 = 0 then _ else _) = _
  by_cases hd : (dest + j) % 4 = 0
  · rw [if_pos hd]
    exact copyAligned_copied ha (by omega)
  · rw [if_neg hd]
    exact copyUnaligned_copied ha (by omega) hd

/-- All bytes are copied, in every alignment of the two pointers, and no other changes. No load is
outside the source and no store outside the destination. -/
theorem memcpy_copies (m : Bytes) (dest src n : Nat) (ha : Apart dest src n) :
    ∃ m', memcpy m dest src n = some m' ∧ Buffers.read m' dest n = Buffers.read m src n ∧
      ∀ a, a < dest ∨ dest + n ≤ a → m' a = m a := by
  refine ⟨moved m dest src n, memcpy_moved m dest src n ha, Buffers.read_overlay_read m m dest src n, ?_⟩
  intro a h
  rw [moved_apply, if_neg (by omega)]

/-- Never are both pointers aligned: the source is one above a multiple of eight, the destination
one below. -/
theorem memcpy_copies_shifted : ∃ m', memcpy (fun a => BitVec.ofNat 8 a) 1007 1 50 = some m' ∧
    Buffers.read m' 1007 50 = Buffers.read (fun a => BitVec.ofNat 8 a) 1 50 ∧
    ∀ a, a < 1007 ∨ 1007 + 50 ≤ a → m' a = BitVec.ofNat 8 a :=
  memcpy_copies _ 1007 1 50 (by unfold Apart; omega)

end Text
end TorexOS
