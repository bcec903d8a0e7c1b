import TorexOS.Lib.Guarded
import TorexOS.Lib.Swar
import Mathlib.Data.List.Lex

/-!
# TorexOS.Strlen

`text::strlen` and `text::memcmp` of `lib/src/stringutil.cpp`, and the comparison of string views.

* `strlen` loads eight bytes at a time from an aligned pointer on, and so behind the end of the string.
  A load from a page that is not there is `none`.
* `hasZero_iff`: what `HASZERO` says of a word.
* `strlen_eq`: the length, if the pages of the string are there.
* `memcmp_lex`: the sign of `memcmp` is the order of the two runs of bytes.
-/

namespace TorexOS
namespace Text

open Packed Guarded Buffers

/-! ## Memory -/

/-- The bytes, and the pages that are there. -/
structure Paged where
  mem : Bytes
  there : Nat → Bool

namespace Paged

def get8 (m : Paged) (a : Nat) : Option (BitVec 8) := if m.there (a / 4096) then some (m.mem a) else none

def get64 (m : Paged) (a : Nat) : Option (BitVec 64) :=
  if m.there (a / 4096) ∧ m.there ((a + 7) / 4096) then some (load64 m.mem a) else none

end Paged

/-! ## strlen -/

/-- `(size_t)-1/UCHAR_MAX` -/
def onesWord : BitVec 64 := BitVec.allOnes 64 / 255#64

/-- `ONES * (UCHAR_MAX/2+1)` -/
def highsWord : BitVec 64 := onesWord * 128#64

/-- `HASZERO(x)` -/
def hasZero (x : BitVec 64) : Bool := (x - onesWord) &&& ~~~x &&& highsWord ≠ 0#64

/-- `for (; (uintptr_t)s % ALIGN; s++) if (!*s) return s-a;` The pointer, and if it is at the end. -/
def alignStr (m : Paged) : Nat → Nat → Option (Nat × Bool)
  | 0, _ => none
  | fuel + 1, s =>
    if s % 8 ≠ 0 then do
      let c ← m.get8 s
      if c = 0 then some (s, true) else alignStr m fuel (s + 1)
    else some (s, false)

/-- `for (w = (const word *)(s); !HASZERO(*w); w++);` -/
def wordLoop (m : Paged) : Nat → Nat → Option Nat
  | 0, _ => none
  | fuel + 1, w => do
    let x ← m.get64 w
    if hasZero x then some w else wordLoop m fuel (w + 8)

/-- `for (; *s; s++);` -/
def byteLoop (m : Paged) : Nat → Nat → Option Nat
  | 0, _ => none
  | fuel + 1, s => do
    let c ← m.get8 s
    if c = 0 then some s else byteLoop m fuel (s + 1)

def strlen (m : Paged) (fuel : Nat) (s : Nat) : Option Nat := do
  let a := s
  let (s, done) ← alignStr m fuel s
  if done then return s - a
  let w ← wordLoop m fuel s
  let s ← byteLoop m fuel w
  return s - a

/-! ## A zero byte in a word -/

theorem load64_byte (r : Bytes) (a : Nat) {i : Nat} (hi : i < 8) :
    (load64 r a).toNat / 256 ^ i % 256 = (r (a + i)).toNat := by
  have hb : (load64 r a).extractLsb' (8 * i) 8 = r (a + i) := by
    have hin := store64_inside (m := r) (a := 0) (x := i) (load64 r a) (by omega)
    rw [store64_load64 (by omega), Nat.sub_zero] at hin
    exact hin.symm
  rw [← hb, BitVec.extractLsb'_toNat, Nat.shiftRight_eq_div_pow, Nat.pow_mul]

theorem toNat_sub_ones (x : BitVec 64) : (x - onesWord).toNat = Swar.minusOnes 8 x.toNat := by
  have h1 : onesWord.toNat = Swar.ones 8 := by decide
  have h2 : Swar.ones 8 ≤ 2 ^ 64 := by decide
  rw [BitVec.toNat_sub, h1, Swar.minusOnes, show 256 ^ 8 = 2 ^ 64 by norm_num,
    show 2 ^ 64 - Swar.ones 8 + x.toNat = x.toNat + 2 ^ 64 - Swar.ones 8 by omega]

theorem getLsbD_highs {j : Nat} (hj : j < 64) : highsWord.getLsbD j = decide (j % 8 = 7) := by
  have hall : ∀ j : Fin 64, highsWord.getLsbD j.val = decide (j.val % 8 = 7) := by decide
  exact hall ⟨j, hj⟩

theorem hasZero_iff (r : Bytes) (a : Nat) : hasZero (load64 r a) ↔ ∃ i, i < 8 ∧ r (a + i) = 0 := by
  generalize hx : load64 r a = x
  have hbytes : (∃ i, i < 8 ∧ x.toNat / 256 ^ i % 256 = 0) ↔ ∃ i, i < 8 ∧ r (a + i) = 0 := by
    refine exists_congr fun i => and_congr_right fun hi => ?_
    rw [← hx, load64_byte r a hi]
    exact ⟨fun h => BitVec.eq_of_toNat_eq h, fun h => by rw [h]; rfl⟩
  rw [← hbytes, ← Swar.exists_marked_iff (by simpa using x.isLt), hasZero, decide_eq_true_iff]
  have hbit : ∀ j, j < 64 → (((x - onesWord) &&& ~~~x &&& highsWord).getLsbD j = true ↔
      j % 8 = 7 ∧ (Swar.minusOnes 8 x.toNat).testBit j = true ∧ x.toNat.testBit j = false) := by
    intro j hj
    rw [BitVec.getLsbD_and, BitVec.getLsbD_and, getLsbD_highs hj, BitVec.getLsbD_not,
      ← BitVec.testBit_toNat, toNat_sub_ones, ← BitVec.testBit_toNat]
    simp only [hj, decide_true, Bool.true_and, Bool.and_eq_true, Bool.not_eq_true', decide_eq_true_eq]
    exact and_comm
  constructor
  · intro hne
    by_contra hno
    apply hne
    apply BitVec.eq_of_getLsbD_eq
    intro j hj
    rw [BitVec.getLsbD_zero]
    cases hb : ((x - onesWord) &&& ~~~x &&& highsWord).getLsbD j with
    | false => rfl
    | true =>
      obtain ⟨h7, hm⟩ := (hbit j hj).mp hb
      refine absurd ⟨j / 8, by omega, ?_⟩ hno
      rwa [Swar.Marked, show 8 * (j / 8) + 7 = j by omega]
  · rintro ⟨i, hi, hm⟩ hz
    have hb := (hbit (8 * i + 7) (by omega)).mpr ⟨by omega, hm⟩
    rw [hz, BitVec.getLsbD_zero] at hb
    exact Bool.noConfusion hb

/-! ## The length -/

variable {m : Paged} {s L w fuel : Nat}

/-- The string at `s` has `L` bytes and a NUL behind them, all of them in pages that are there. -/
structure IsStr (m : Paged) (s L : Nat) : Prop where
  stop : m.mem (s + L) = 0
  before : ∀ i, i < L → m.mem (s + i) ≠ 0
  there : ∀ a, s ≤ a → a ≤ s + L → m.there (a / 4096)

theorem IsStr.get8 (h : IsStr m s L) {a : Nat} (hs : s ≤ a) (hL : a ≤ s + L) :
    m.get8 a = some (m.mem a) := if_pos (h.there a hs hL)

theorem IsStr.zero_iff (h : IsStr m s L) {a : Nat} (hs : s ≤ a) (hL : a ≤ s + L) :
    m.mem a = 0 ↔ a = s + L := by
  constructor
  · intro hz
    by_contra hne
    have hb := h.before (a - s) (by omega)
    rw [show s + (a - s) = a by omega] at hb
    exact hb hz
  · intro ha
    rw [ha, h.stop]

/-- An aligned word with a byte of the string is in a page of it. -/
theorem IsStr.get64 (h : IsStr m s L) {a : Nat} (ha : a % 8 = 0) (hs : s ≤ a) (hL : a ≤ s + L) :
    m.get64 a = some (load64 m.mem a) := by
  have hp := h.there a hs hL
  rw [Paged.get64, show (a + 7) / 4096 = a / 4096 by omega, if_pos ⟨hp, hp⟩]

/-- Up to the first aligned byte, or the end of the string. -/
theorem IsStr.alignStr (h : IsStr m s L) {a : Nat} (hs : s ≤ a) (hL : a ≤ s + L)
    (hf : s + L < a + fuel) : ∃ b, a ≤ b ∧ b ≤ s + L ∧
      (Text.alignStr m fuel a = some (b, true) ∧ b = s + L ∨
        Text.alignStr m fuel a = some (b, false) ∧ b % 8 = 0) := by
  induction fuel generalizing a with
  | zero => omega
  | succ fuel ih =>
    rw [Text.alignStr]
    by_cases h8 : a % 8 ≠ 0
    · rw [if_pos h8, h.get8 hs hL, Option.bind_eq_bind, Option.bind_some]
      by_cases hz : m.mem a = 0
      · exact ⟨a, Nat.le_refl a, hL, .inl ⟨if_pos hz, (h.zero_iff hs hL).mp hz⟩⟩
      · have hne : a ≠ s + L := fun ha => hz ((h.zero_iff hs hL).mpr ha)
        rw [if_neg hz]
        obtain ⟨b, hb, hbL, hrun⟩ := ih (a := a + 1) (by omega) (by omega) (by omega)
        exact ⟨b, by omega, hbL, hrun⟩
    · exact ⟨a, Nat.le_refl a, hL, .inr ⟨if_neg h8, by omega⟩⟩

/-- Up to the word with the NUL. -/
theorem IsStr.wordLoop (h : IsStr m s L) {a : Nat} (ha : a % 8 = 0) (hs : s ≤ a) (hL : a ≤ s + L)
    (hf : s + L < a + fuel) : ∃ b, Text.wordLoop m fuel a = some b ∧ a ≤ b ∧ b ≤ s + L ∧
      s + L < b + 8 := by
  induction fuel generalizing a with
  | zero => omega
  | succ fuel ih =>
    rw [Text.wordLoop, h.get64 ha hs hL, Option.bind_eq_bind, Option.bind_some]
    by_cases hend : s + L < a + 8
    · have hz : hasZero (load64 m.mem a) := by
        rw [hasZero_iff]
        refine ⟨s + L - a, by omega, ?_⟩
        rw [show a + (s + L - a) = s + L by omega, h.stop]
      exact ⟨a, if_pos hz, Nat.le_refl a, hL, hend⟩
    · have hz : ¬ hasZero (load64 m.mem a) := by
        rw [hasZero_iff]
        rintro ⟨i, hi, h0⟩
        have heq := (h.zero_iff (a := a + i) (by omega) (by omega)).mp h0
        omega
      rw [if_neg hz]
      obtain ⟨b, hrun, hb⟩ := ih (a := a + 8) (by omega) (by omega) (by omega) (by omega)
      exact ⟨b, hrun, by omega, hb.2⟩

theorem IsStr.byteLoop (h : IsStr m s L) {a : Nat} (hs : s ≤ a) (hL : a ≤ s + L)
    (hf : s + L < a + fuel) : Text.byteLoop m fuel a = some (s + L) := by
  induction fuel generalizing a with
  | zero => omega
  | succ fuel ih =>
    rw [Text.byteLoop, h.get8 hs hL, Option.bind_eq_bind, Option.bind_some]
    by_cases hz : m.mem a = 0
    · rw [if_pos hz, (h.zero_iff hs hL).mp hz]
    · have hne : a ≠ s + L := fun ha => hz ((h.zero_iff hs hL).mpr ha)
      rw [if_neg hz]
      exact ih (by omega) (by omega) (by omega)

/-- The length of a string whose own pages are there. No other page is touched, although up to seven
bytes behind the NUL are loaded. -/
theorem strlen_eq (h : IsStr m s L) (hf : L < fuel) : strlen m fuel s = some L := by
  obtain ⟨a, hsa, haL, ⟨hrun, rfl⟩ | ⟨hrun, ha⟩⟩ := h.alignStr (Nat.le_refl s) (Nat.le_add_right s L)
    (show s + L < s + fuel by omega)
  · simp [strlen, hrun]
  · obtain ⟨b, hword, hab, hbL, _⟩ := h.wordLoop ha hsa haL
      (show s + L < a + fuel by omega)
    have hbyte := h.byteLoop (a := b) (by omega) hbL (show s + L < b + fuel by omega)
    simp [strlen, hrun, hword, hbyte]

/-! ## memcmp -/

/-- `for (size_t i = 0; i < length; i++, p1++, p2++)` -/
def memcmp (m : Bytes) (p1 p2 : Nat) : Nat → Int
  | 0 => 0
  | n + 1 => if m p1 ≠ m p2 then (m p1).toNat - (m p2).toNat else memcmp m (p1 + 1) (p2 + 1) n

variable {mem : Bytes} {p1 p2 n : Nat}

theorem memcmp_eq_zero_iff : memcmp mem p1 p2 n = 0 ↔ read mem p1 n = read mem p2 n := by
  induction n generalizing p1 p2 with
  | zero => simp [memcmp]
  | succ n ih =>
    rw [memcmp, read_succ, read_succ, List.cons.injEq]
    by_cases hb : mem p1 = mem p2
    · rw [if_neg (not_not.mpr hb), ih]
      exact (and_iff_right hb).symm
    · rw [if_pos hb]
      have hne : (mem p1).toNat ≠ (mem p2).toNat := fun h => hb (BitVec.eq_of_toNat_eq h)
      constructor
      · intro h
        omega
      · exact fun h => absurd h.1 hb

/-- Below zero exactly if the first run comes before the second in the order of the bytes. -/
theorem memcmp_lex : memcmp mem p1 p2 n < 0 ↔ read mem p1 n < read mem p2 n := by
  induction n generalizing p1 p2 with
  | zero => simp [memcmp]
  | succ n ih =>
    rw [memcmp, read_succ, read_succ, List.cons_lt_cons_iff, BitVec.lt_def]
    by_cases hb : mem p1 = mem p2
    · rw [if_neg (not_not.mpr hb), ih, hb]
      simp
    · rw [if_pos hb]
      constructor
      · intro h
        exact .inl (by omega)
      · rintro (h | h)
        · omega
        · exact absurd h.1 hb

end Text

/-! ## String views -/

namespace Util

open Text Guarded Buffers

variable {m : Paged} {s L fuel : Nat}

/-- `util::string_view` -/
structure StringView where
  str : Nat
  size : Nat

/-- `operator!=` -/
def StringView.ne (m : Bytes) (a b : StringView) : Bool :=
  if b.size ≠ a.size then true else memcmp m a.str b.str a.size ≠ 0

/-- `operator==` -/
def StringView.eq (m : Bytes) (a b : StringView) : Bool := !StringView.ne m a b

/-- `string_view(const char* s)` -/
def StringView.ofStr (m : Paged) (fuel s : Nat) : Option StringView := do
  let size ← strlen m fuel s
  return ⟨s, size⟩

/-- The views of two strings are found, and are equal exactly if the strings are. -/
theorem ofStr_eq_iff {s' L' : Nat} (h : IsStr m s L) (h' : IsStr m s' L') (hf : L < fuel)
    (hf' : L' < fuel) : StringView.ofStr m fuel s = some ⟨s, L⟩ ∧
      StringView.ofStr m fuel s' = some ⟨s', L'⟩ ∧
      (StringView.eq m.mem ⟨s, L⟩ ⟨s', L'⟩ ↔ read m.mem s L = read m.mem s' L') := by
  refine ⟨by rw [StringView.ofStr, strlen_eq h hf]; rfl,
    by rw [StringView.ofStr, strlen_eq h' hf']; rfl, ?_⟩
  rw [StringView.eq, StringView.ne]
  by_cases hL : L' = L
  · subst hL
    rw [if_neg (not_not.mpr rfl), ← memcmp_eq_zero_iff]
    simp
  · rw [if_pos hL]
    constructor
    · intro hfalse
      simp at hfalse
    · intro heq
      have hlen := congrArg List.length heq
      rw [length_read, length_read] at hlen
      exact absurd hlen.symm hL

/-- A string that ends with its page, and before it one that is a character shorter. The next page is
not there. -/
theorem ofStr_eq_iff_page_end :
    let m : Paged := ⟨fun a => if a % 8 = 7 then 0 else 65, fun p => p = 0⟩
    StringView.ofStr m 8 4088 = some ⟨4088, 7⟩ ∧ StringView.ofStr m 8 4081 = some ⟨4081, 6⟩ ∧
      (StringView.eq m.mem ⟨4088, 7⟩ ⟨4081, 6⟩ ↔ read m.mem 4088 7 = read m.mem 4081 6) :=
  ofStr_eq_iff
    { stop := by simp
      before := fun i hi => by simp; omega
      there := fun a h1 h2 => by simp; omega }
    { stop := by simp
      before := fun i hi => by simp; omega
      there := fun a h1 h2 => by simp; omega } (by omega) (by omega)

end Util
end TorexOS
