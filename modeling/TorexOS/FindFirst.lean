import TorexOS.Ilog2
import TorexOS.Lib.Packed

/-!
# TorexOS.FindFirst

`find_first_set` and `find_first_unset` of `datastruc/bitset.h`.

* `findFirst`: the two functions, over a memory that goes on behind the buffer. It returns the words it
  has read too.
* `Searches`: what they are for.
* `never_searches`: the loop passes the end of every buffer, and no index inside it is returned.
-/

namespace TorexOS
namespace Util
namespace Bitset

open Packed

/-- `d[i]`, with the bytes of `data` read as words. -/
def word (data : Nat → BitVec 8) (i : BitVec 64) : BitVec 64 := load64 data (8 * i.toNat)

/-- `while (d[i] == skip || i < size) i++;`, and the words read. -/
def findLoop (data : Nat → BitVec 8) (skip size : BitVec 64) :
    Nat → BitVec 64 → List (BitVec 64) → Option (BitVec 64 × List (BitVec 64))
  | 0, _, _ => none
  | fuel + 1, i, reads =>
    let reads := reads ++ [i]
    if word data i = skip ∨ i < size then findLoop data skip size fuel (i + 1) reads
    else some (i, reads)

/-- The search for a word that is not `skip`; `flip` is what is done to it before its trailing zeros
are counted. `ctz64` is that of the configuration. -/
def findFirst (ctz64 flip : BitVec 64 → BitVec 64) (skip : BitVec 64) (data : Nat → BitVec 8)
    (size : BitVec 64) (fuel : Nat) : Option (BitVec 64 × List (BitVec 64)) :=
  match findLoop data skip size fuel 0 [] with
  | none => none
  | some (i, reads) =>
    let r := i * 8 + ctz64 (flip (word data i))
    some (if r < size * 8 then size * 8 else r, reads ++ [i])

/-- `!` of a word. -/
def logicalNot (x : BitVec 64) : BitVec 64 := if x = 0 then 1 else 0

def findFirstSet (ctz64 : BitVec 64 → BitVec 64) := findFirst ctz64 id 0

def findFirstUnset (ctz64 : BitVec 64 → BitVec 64) := findFirst ctz64 logicalNot (BitVec.allOnes 64)

/-! ## Specification -/

def bufferBit (data : Nat → BitVec 8) (k : Nat) : Bool := (data (k / 8)).getLsbD (k % 8)

/-- The least index below `n` where `p` is `v`, or `n`. -/
def LeastIndex (p : Nat → Bool) (v : Bool) (n r : Nat) : Prop :=
  (r < n ∧ p r = v ∨ r = n) ∧ ∀ k, k < r → p k ≠ v

/-- The search for a bit `v` returns its least index, and every word it reads is in the buffer. -/
def Searches (find : (Nat → BitVec 8) → BitVec 64 → Nat → Option (BitVec 64 × List (BitVec 64)))
    (v : Bool) (data : Nat → BitVec 8) (size : BitVec 64) : Prop :=
  ∃ fuel r reads, find data size fuel = some (r, reads) ∧
    LeastIndex (bufferBit data) v (size.toNat * 8) r.toNat ∧
    ∀ i ∈ reads, 8 * i.toNat + 8 ≤ size.toNat

section Find

variable {data : Nat → BitVec 8} {skip size i j : BitVec 64} {reads reads' : List (BitVec 64)}
  {fuel : Nat}

theorem findLoop_ge (h : findLoop data skip size fuel i reads = some (j, reads')) : size ≤ j := by
  induction fuel generalizing i reads with
  | zero => cases h
  | succ fuel ih =>
    rw [findLoop] at h
    split at h
    · exact ih h
    · rename_i hend
      cases h
      exact BitVec.not_lt.mp fun hlt => hend (.inr hlt)

variable {ctz64 flip : BitVec 64 → BitVec 64} {r : BitVec 64}

theorem findFirst_spec (h : findFirst ctz64 flip skip data size fuel = some (r, reads)) :
    size * 8 ≤ r ∧ ∃ i ∈ reads, size ≤ i := by
  rw [findFirst] at h
  cases hl : findLoop data skip size fuel 0 [] with
  | none => rw [hl] at h; cases h
  | some p =>
    obtain ⟨i, read⟩ := p
    have hi := findLoop_ge hl
    rw [hl] at h
    cases h
    refine ⟨?_, i, by simp, hi⟩
    split
    · exact BitVec.le_refl _
    · rename_i hge
      exact BitVec.not_lt.mp hge

theorem findFirst_reads_behind (h : findFirst ctz64 flip skip data size fuel = some (r, reads)) :
    ¬ ∀ i ∈ reads, 8 * i.toNat + 8 ≤ size.toNat := by
  obtain ⟨_, i, hi, hle⟩ := findFirst_spec h
  intro hin
  have hbound := hin i hi
  rw [BitVec.le_def] at hle
  omega

end Find

/-- For no buffer, of whatever size and content, do the two functions search it: both read behind its
end. And if that may be read, what they return is never an index in the buffer. -/
theorem never_searches (ctz64 : BitVec 64 → BitVec 64) (data : Nat → BitVec 8) (size : BitVec 64) :
    ¬ Searches (findFirstSet ctz64) true data size ∧
    ¬ Searches (findFirstUnset ctz64) false data size ∧
    ∀ fuel r reads, (findFirstSet ctz64 data size fuel = some (r, reads) ∨
      findFirstUnset ctz64 data size fuel = some (r, reads)) → size * 8 ≤ r := by
  refine ⟨?_, ?_, ?_⟩
  · rintro ⟨fuel, r, reads, he, _, hin⟩
    exact findFirst_reads_behind he hin
  · rintro ⟨fuel, r, reads, he, _, hin⟩
    exact findFirst_reads_behind he hin
  · rintro fuel r reads (he | he)
    · exact (findFirst_spec he).1
    · exact (findFirst_spec he).1

def firstBit : Nat → BitVec 8 := fun a => if a = 0 then 1 else 0

/-- A buffer of eight bytes with its first bit set: word 8 is read, behind the end. -/
theorem passes_the_end : ¬ ∀ (data : Nat → BitVec 8) (size : BitVec 64), 8 ∣ size.toNat →
    Searches (findFirstSet Math.ctz64) true data size := by
  intro h
  obtain ⟨fuel, r, reads, he, _, hin⟩ := h firstBit 8 (by decide)
  exact findFirst_reads_behind he hin

end Bitset
end Util
end TorexOS
