import TorexOS.Lib.Buffers
import TorexOS.Lib.Packed
import Mathlib.Order.Bounds.Basic
import Mathlib.Tactic.Ring

/-!
# TorexOS.ComString

`util::com_string`, `datastruc/com_string.cpp`.

* `ComString`: the size and the bytes of the union, which are the characters of a short string, or
  `m_reserved` and `m_data` of a long one.
* `append`, `assign`, `construct`, `moveConstruct`, as the source computes them. `new` is what
  `new char[]` returns in the call, if it is called.
* `Valid`: the characters are inline, or in a buffer in use with room behind them.
* `append_right_iff`: `append` is right unless it takes a string from the inline bytes to the heap.
* `capacity_above`: the size is rounded to the least power of two above it.
-/

namespace TorexOS
namespace Util

open Buffers Packed

abbrev Ptr := BitVec 64
abbrev Chars := Heap Ptr (BitVec 8)

/-- The object in its storage: `m_str` are the 32 bytes of the union, and behind them what follows
the object in memory. The record is packed. -/
structure ComString where
  mSize : BitVec 32
  mStr : Nat → BitVec 8

def littleSize : Nat := 4 + 8 + 16 + 4

namespace ComString

def mReserved (s : ComString) : BitVec 32 := load32 s.mStr 0

def mData (s : ComString) : Ptr := load32 s.mStr 8 ++ load32 s.mStr 4

def setReserved (s : ComString) (v : BitVec 32) : ComString :=
  { s with mStr := store32 s.mStr 0 v }

def setData (s : ComString) (p : Ptr) : ComString :=
  { s with mStr := store32 (store32 s.mStr 4 (p.extractLsb' 0 32)) 8 (p.extractLsb' 32 32) }

/-- `is_local()` -/
def IsLocal (s : ComString) : Prop := s.mSize.toNat < littleSize

instance (s : ComString) : Decidable s.IsLocal := inferInstanceAs (Decidable (_ < _))

/-- A pointer to characters: `m_str`, or a buffer. -/
inductive Place where
  | inline
  | heap (p : Ptr)

/-- `data()` -/
def data (s : ComString) : Place := if s.IsLocal then .inline else .heap s.mData

/-- The bytes at `data()`. -/
def bytes (s : ComString) (h : Chars) : Nat → BitVec 8 :=
  match s.data with
  | .inline => s.mStr
  | .heap p => h.cell p

/-- Write at an offset of a pointer. -/
def write (s : ComString) (h : Chars) (d : Place) (off : Nat) (bs : List (BitVec 8)) :
    Except Fault (ComString × Chars) :=
  match d with
  | .inline =>
    if bs = [] ∨ off + bs.length ≤ littleSize then
      .ok ({ s with mStr := overlay s.mStr off bs }, h)
    else .error .outside
  | .heap p => (h.write p off bs).map fun h => (s, h)

/-- `suitable_size`: the next greater power of two. -/
def suitableSize (sz : BitVec 32) : BitVec 32 :=
  let sz := sz ||| sz >>> 1
  let sz := sz ||| sz >>> 2
  let sz := sz ||| sz >>> 4
  let sz := sz ||| sz >>> 8
  let sz := sz ||| sz >>> 16
  sz + 1

def grow (s : ComString) (h : Chars) (new : Ptr) (sz : BitVec 32) :
    Except Fault (ComString × Chars) := do
  let sz := suitableSize sz
  let h := h.new new sz.toNat
  let h ← h.write new 0 (read (h.cell s.mData) 0 s.mSize.toNat)
  let s := s.setReserved sz
  let h ← h.delete s.mData
  return (s.setData new, h)

def allocate (s : ComString) (h : Chars) (new : Ptr) (length : BitVec 32) : ComString × Chars :=
  let s := { s with mSize := length }
  let s := s.setReserved (suitableSize length)
  (s.setData new, h.new new s.mReserved.toNat)

def deallocate (s : ComString) (h : Chars) : Except Fault Chars :=
  if s.IsLocal then .ok h else h.delete s.mData

/-- The characters of `append`: one case for each representation before and after. -/
def appendChars (s : ComString) (h : Chars) (new : Ptr) (str : List (BitVec 8)) :
    Except Fault (ComString × Chars) :=
  let total := s.mSize.toNat + str.length
  if s.IsLocal then
    if total < littleSize then s.write h .inline s.mSize.toNat str
    else do
      let r := s.allocate h new (BitVec.ofNat 32 total)
      let s := r.1
      let h ← r.2.write s.mData 0 (read s.mStr 0 s.mSize.toNat)
      let h ← h.write s.mData s.mSize.toNat str
      return (s, h)
  else do
    let r ← if s.mReserved.toNat ≤ total then s.grow h new (BitVec.ofNat 32 total) else .ok (s, h)
    let s := r.1
    let h ← r.2.write s.mData s.mSize.toNat str
    return (s, h)

def append (s : ComString) (h : Chars) (new : Ptr) (str : List (BitVec 8)) :
    Except Fault (ComString × Chars) := do
  let r ← s.appendChars h new str
  let s := { r.1 with mSize := r.1.mSize + BitVec.ofNat 32 str.length }
  s.write r.2 s.data s.mSize.toNat [0]

def pushBack (s : ComString) (h : Chars) (new : Ptr) (ch : BitVec 8) :
    Except Fault (ComString × Chars) := s.append h new [ch]

/-- The characters of `assign`. -/
def assignChars (s : ComString) (h : Chars) (new : Ptr) (str : List (BitVec 8)) :
    Except Fault (ComString × Chars) :=
  if str.length < littleSize ∨ ¬ s.IsLocal ∧ str.length < s.mReserved.toNat then
    let s := { s with mSize := BitVec.ofNat 32 str.length }
    s.write h s.data 0 str
  else do
    let h ← s.deallocate h
    let r := s.allocate h new (BitVec.ofNat 32 str.length)
    let h ← r.2.write r.1.mData 0 str
    return (r.1, h)

def assign (s : ComString) (h : Chars) (new : Ptr) (str : List (BitVec 8)) :
    Except Fault (ComString × Chars) := do
  let r ← s.assignChars h new str
  r.1.write r.2 r.1.data r.1.mSize.toNat [0]

def clear (s : ComString) (h : Chars) : Except Fault (ComString × Chars) := do
  let h ← if s.IsLocal then .ok h else s.deallocate h
  return ({ s with mSize := 0 }, h)

/-- `~com_string()` -/
def destroy (s : ComString) (h : Chars) : Except Fault Chars := s.deallocate h

/-- `com_string(const char *, size_t)` in the storage `raw`. -/
def construct (raw : ComString) (h : Chars) (new : Ptr) (str : List (BitVec 8)) :
    Except Fault (ComString × Chars) := do
  let r := if raw.IsLocal then (raw, h) else raw.allocate h new (BitVec.ofNat 32 str.length)
  let r ← r.1.write r.2 r.1.data 0 str
  let s := { r.1 with mSize := BitVec.ofNat 32 str.length }
  s.write r.2 s.data s.mSize.toNat [0]

/-- `com_string(com_string &&)` in the storage `raw`; the second string is what is left of `str`. -/
def moveConstruct (raw str : ComString) (h : Chars) :
    Except Fault (ComString × ComString × Chars) :=
  if raw.IsLocal ∧ str.IsLocal then do
    let r ← raw.write h .inline 0 (read str.mStr 0 str.mSize.toNat)
    return ({ r.1 with mSize := str.mSize }, str, r.2)
  else do
    let h ← if raw.IsLocal then .ok h else raw.deallocate h
    let s := (raw.setData str.mData).setReserved str.mReserved
    return ({ s with mSize := str.mSize }, { str with mSize := 0 }, h)

/-! ## Specification -/

/-- At most 31 characters inline, or a buffer in use of `m_reserved` bytes, more than `m_size`. -/
def Valid (s : ComString) (h : Chars) : Prop :=
  s.IsLocal ∨ s.mData ≠ 0 ∧ h.size s.mData = some s.mReserved.toNat ∧
    s.mSize.toNat < s.mReserved.toNat

/-- The `size()` bytes at `data()`. -/
def content (s : ComString) (h : Chars) : List (BitVec 8) := read (s.bytes h) 0 s.mSize.toNat

/-- The string is valid and is `str`, followed by NUL. -/
structure Is (s : ComString) (h : Chars) (str : List (BitVec 8)) : Prop where
  size : s.mSize.toNat = str.length
  content : s.content h = str
  nul : s.bytes h str.length = 0
  valid : s.Valid h

/-- The call wrote inside and gave the string `str`. -/
def Gives (str : List (BitVec 8)) : Except Fault (ComString × Chars) → Prop
  | .error _ => False
  | .ok (s, h) => s.Is h str

section Size

variable {x : BitVec 32} {k m n : Nat}

/-- The `m` bits down from bit `k` are set, and none above. -/
def Ones (x : BitVec 32) (k m : Nat) : Prop :=
  (∀ i, i ≤ k → k < i + m → x.getLsbD i = true) ∧ ∀ i, k < i → x.getLsbD i = false

theorem Ones.smear (h : Ones x k m) : Ones (x ||| x >>> m) k (m + m) := by
  constructor
  · intro i hi hk
    rw [BitVec.getLsbD_or, BitVec.getLsbD_ushiftRight, Bool.or_eq_true]
    by_cases him : k < i + m
    · exact .inl (h.1 i hi him)
    · exact .inr (h.1 (m + i) (by omega) (by omega))
  · intro i hi
    rw [BitVec.getLsbD_or, BitVec.getLsbD_ushiftRight, h.2 i hi, h.2 (m + i) (by omega)]
    rfl

theorem ones_top (hlo : 2 ^ k ≤ x.toNat) (hhi : x.toNat < 2 ^ (k + 1)) : Ones x k 1 := by
  constructor
  · intro i hi hk
    have hik : i = k := by omega
    rw [hik, BitVec.getLsbD, Nat.testBit_eq_decide_div_mod_eq]
    have hdiv : x.toNat / 2 ^ k = 1 := by
      refine Nat.div_eq_of_lt_le (by omega) ?_
      rw [Nat.pow_succ] at hhi
      omega
    rw [hdiv]
    rfl
  · intro i hi
    refine Nat.testBit_lt_two_pow (lt_of_lt_of_le hhi ?_)
    exact Nat.pow_le_pow_right (by omega) hi

/-- `suitable_size` is the next greater power of two; from `2 ^ 31` on it is zero. -/
theorem suitableSize_eq (hk : k < 32) (hlo : 2 ^ k ≤ x.toNat) (hhi : x.toNat < 2 ^ (k + 1)) :
    suitableSize x = BitVec.ofNat 32 (2 ^ (k + 1)) := by
  have hones := (ones_top hlo hhi).smear.smear.smear.smear.smear
  rw [suitableSize]
  generalize (_ ||| _ : BitVec 32) = y at *
  have hy : y = BitVec.ofNat 32 (2 ^ (k + 1) - 1) := by
    apply BitVec.eq_of_getLsbD_eq
    intro i hi
    rw [BitVec.getLsbD_ofNat, Nat.testBit_two_pow_sub_one]
    by_cases hik : i ≤ k
    · rw [hones.1 i hik (by omega)]
      simp [hi]
      omega
    · rw [hones.2 i (by omega)]
      simp
      omega
  have hpow := Nat.two_pow_pos (k + 1)
  rw [hy, show (1 : BitVec 32) = BitVec.ofNat 32 1 from rfl, ← BitVec.ofNat_add,
    Nat.sub_add_cancel hpow]

theorem suitableSize_zero : suitableSize 0 = 1 := rfl

theorem suitableSize_big (h : 2 ^ 31 ≤ x.toNat) : suitableSize x = 0 :=
  suitableSize_eq (by omega) h x.isLt

/-- Below `2 ^ 31` the result fits. -/
theorem toNat_suitableSize (h0 : x.toNat ≠ 0) (h : x.toNat < 2 ^ 31) :
    (suitableSize x).toNat = 2 ^ (x.toNat.log2 + 1) := by
  have hk : x.toNat.log2 < 31 := (Nat.log2_lt h0).mpr h
  have hpow : 2 ^ (x.toNat.log2 + 1) ≤ 2 ^ 31 := Nat.pow_le_pow_right (by omega) hk
  rw [suitableSize_eq (by omega) (Nat.log2_self_le h0) Nat.lt_log2_self, BitVec.toNat_ofNat,
    Nat.mod_eq_of_lt (by omega)]

theorem suitableSize_small (h : x.toNat < 2 ^ 31) :
    x.toNat < (suitableSize x).toNat ∧ (suitableSize x).toNat ≤ 2 ^ 31 := by
  by_cases h0 : x.toNat = 0
  · rw [BitVec.eq_of_toNat_eq (y := 0) h0, suitableSize_zero]
    decide
  · have hk : x.toNat.log2 < 31 := (Nat.log2_lt h0).mpr h
    rw [toNat_suitableSize h0 h]
    exact ⟨Nat.lt_log2_self, Nat.pow_le_pow_right (by omega) hk⟩

theorem suitableSize_le (x : BitVec 32) : (suitableSize x).toNat ≤ 2 ^ 31 := by
  by_cases h : x.toNat < 2 ^ 31
  · exact (suitableSize_small h).2
  · rw [suitableSize_big (Nat.le_of_not_lt h)]
    decide

theorem toNat_length (hlt : n < 2 ^ 31) : (BitVec.ofNat 32 n).toNat = n := by
  rw [BitVec.toNat_ofNat]
  exact Nat.mod_eq_of_lt (by omega)

/-- Below `2 ^ 31` there is room for a NUL. -/
theorem lt_suitableSize (h : n < 2 ^ 31) : n < (suitableSize (BitVec.ofNat 32 n)).toNat := by
  have hn := toNat_length h
  have hlt := (suitableSize_small (by rw [hn]; exact h)).1
  rwa [hn] at hlt

/-- Strings of `2 ^ 31` bytes and more do not fit in what `suitable_size` gives. -/
theorem suitableSize_lt (h : 2 ^ 31 ≤ n) : (suitableSize (BitVec.ofNat 32 n)).toNat < n := by
  by_cases hx : (BitVec.ofNat 32 n).toNat < 2 ^ 31
  · have hle := (suitableSize_small hx).2
    rw [BitVec.toNat_ofNat] at hx
    omega
  · rw [suitableSize_big (Nat.le_of_not_lt hx)]
    exact lt_of_lt_of_le (by decide) h

end Size

section Fields

variable {s : ComString} {v : BitVec 32} {p : Ptr} {i : Nat}

@[simp] theorem mSize_setReserved : (s.setReserved v).mSize = s.mSize := rfl

@[simp] theorem mSize_setData : (s.setData p).mSize = s.mSize := rfl

@[simp] theorem mReserved_setReserved : (s.setReserved v).mReserved = v := load32_store32 _ _ _

@[simp] theorem mData_setReserved : (s.setReserved v).mData = s.mData := by
  rw [mData, mData, setReserved, load32_store32_ne v (by omega), load32_store32_ne v (by omega)]

@[simp] theorem mReserved_setData : (s.setData p).mReserved = s.mReserved :=
  load32_congr fun _ _ => store64_outside p (.inl (by omega))

@[simp] theorem mData_setData : (s.setData p).mData = p := load64_store64 _ _ _

/-- The union behind `m_data`. -/
theorem mStr_setData_of_ge (hi : 12 ≤ i) : (s.setData p).mStr i = s.mStr i :=
  store64_outside p (.inr hi)

theorem bytes_local {h : Chars} (hs : s.IsLocal) : s.bytes h = s.mStr := by
  rw [bytes, data, if_pos hs]

theorem bytes_heap {h : Chars} (hs : ¬ s.IsLocal) : s.bytes h = h.cell s.mData := by
  rw [bytes, data, if_neg hs]

end Fields

@[simp] theorem length_content {s : ComString} {h : Chars} :
    (s.content h).length = s.mSize.toNat := length_read

theorem ne_nil_of_le {str : List (BitVec 8)} (h : littleSize ≤ str.length) : str ≠ [] := by
  rintro rfl
  exact absurd h (by decide)

/-! ## Writing the characters -/

section Write

variable {s s' : ComString} {h h' : Chars} {bs str : List (BitVec 8)} {off n : Nat} {new : Ptr}

/-- There are `n` bytes at `data()`. -/
def Room (s : ComString) (h : Chars) (n : Nat) : Prop :=
  if s.IsLocal then n ≤ littleSize else ∃ k, h.size s.mData = some k ∧ n ≤ k

/-- The bytes `bs` were written at `data()`. -/
structure Wrote (s : ComString) (h : Chars) (off : Nat) (bs : List (BitVec 8)) (s' : ComString)
    (h' : Chars) : Prop where
  size : s'.mSize = s.mSize
  bytes : s'.bytes h' = overlay (s.bytes h) off bs
  object : ¬ s.IsLocal → s' = s
  sizes : h'.size = h.size

theorem write_buffer (hs : ¬ s.IsLocal) (hr : s.Room h (off + bs.length)) :
    ∃ h', h.write s.mData off bs = .ok h' ∧ Wrote s h off bs s h' := by
  rw [Room, if_neg hs] at hr
  obtain ⟨k, hk, hle⟩ := hr
  refine ⟨_, Heap.write_ok hk hle, rfl, ?_, fun _ => rfl, rfl⟩
  rw [bytes_heap hs, bytes_heap hs, Heap.cell_put]

theorem write_data (hr : s.Room h (off + bs.length)) :
    ∃ s' h', s.write h s.data off bs = .ok (s', h') ∧ Wrote s h off bs s' h' := by
  by_cases hs : s.IsLocal
  · rw [Room, if_pos hs] at hr
    have hl : ({ s with mStr := overlay s.mStr off bs } : ComString).IsLocal := hs
    refine ⟨{ s with mStr := overlay s.mStr off bs }, h, ?_, rfl, ?_, fun hn => absurd hs hn, rfl⟩
    · rw [data, if_pos hs]
      exact if_pos (.inr hr)
    · rw [bytes_local hl, bytes_local hs]
  · obtain ⟨h', he, hw⟩ := write_buffer hs hr
    refine ⟨s, h', ?_, hw⟩
    rw [data, if_neg hs]
    simp only [write, he]
    rfl

theorem Valid.room (hv : s.Valid h) : s.Room h (s.mSize.toNat + 1) := by
  rw [Room]
  by_cases hs : s.IsLocal
  · rw [if_pos hs]
    exact hs
  · rw [if_neg hs]
    obtain ⟨_, hk, hlt⟩ := hv.resolve_left hs
    exact ⟨_, hk, hlt⟩

/-- A write of the characters leaves the string valid. -/
theorem Wrote.valid (hw : Wrote s h off bs s' h') (hv : s.Valid h) : s'.Valid h' := by
  by_cases hs : s.IsLocal
  · left
    rw [IsLocal, hw.size]
    exact hs
  · rw [Valid, hw.object hs, hw.sizes]
    exact hv

/-- `data()[m_size] = '\0'` ends each of the functions. -/
theorem write_nul (s : ComString) (h : Chars) (str : List (BitVec 8))
    (hsize : s.mSize.toNat = str.length)
    (hc : read (s.bytes h) 0 str.length = str) (hv : s.Valid h) :
    ∃ s' h', s.write h s.data s.mSize.toNat [0] = .ok (s', h') ∧ s'.Is h' str ∧
      Wrote s h s.mSize.toNat [0] s' h' := by
  have hroom : s.Room h (s.mSize.toNat + [(0 : BitVec 8)].length) := hv.room
  obtain ⟨s', h', he, hw⟩ := write_data hroom
  refine ⟨s', h', he, ⟨?_, ?_, ?_, hw.valid hv⟩, hw⟩
  · rw [hw.size, hsize]
  · rw [content, hw.bytes, hw.size, hsize, read_overlay_outside (by omega), hc]
  · rw [hw.bytes, hsize]
    exact overlay_inside (by decide : 0 < [(0 : BitVec 8)].length)

/-- The new buffer is the string's, and there is room in it. -/
theorem allocate_fields (s : ComString) (h : Chars) (new : Ptr) (n : Nat) :
    (s.allocate h new (BitVec.ofNat 32 n)).1.mSize = BitVec.ofNat 32 n ∧
    (s.allocate h new (BitVec.ofNat 32 n)).1.mData = new ∧
    (s.allocate h new (BitVec.ofNat 32 n)).1.mReserved = suitableSize (BitVec.ofNat 32 n) ∧
    (s.allocate h new (BitVec.ofNat 32 n)).2 =
      h.new new (suitableSize (BitVec.ofNat 32 n)).toNat := by
  simp [allocate]

/-- A long string has room in the buffer that it gets. -/
theorem allocate_valid (hnew : new ≠ 0) (hge : littleSize ≤ n) (hlt : n < 2 ^ 31) :
    ¬ (s.allocate h new (BitVec.ofNat 32 n)).1.IsLocal ∧
    (s.allocate h new (BitVec.ofNat 32 n)).1.Valid (s.allocate h new (BitVec.ofNat 32 n)).2 ∧
    (s.allocate h new (BitVec.ofNat 32 n)).1.Room (s.allocate h new (BitVec.ofNat 32 n)).2 n := by
  have hroom := lt_suitableSize hlt
  obtain ⟨hsize, hdata, hres, hheap⟩ := allocate_fields s h new n
  generalize s.allocate h new (BitVec.ofNat 32 n) = r at *
  have hn : ¬ r.1.IsLocal := by
    rw [IsLocal, hsize, toNat_length hlt]
    omega
  have hk : r.2.size r.1.mData = some r.1.mReserved.toNat := by
    rw [hheap, hdata, hres, Heap.size_new]
  refine ⟨hn, .inr ⟨by rw [hdata]; exact hnew, hk, ?_⟩, ?_⟩
  · rw [hsize, toNat_length hlt, hres]
    exact hroom
  · rw [Room, if_neg hn, hk, hres]
    exact ⟨_, rfl, Nat.le_of_lt hroom⟩

end Write

/-! ## append -/

section Append

variable {s s' s₁ : ComString} {h h' h₁ : Chars} {str : List (BitVec 8)} {total n : Nat} {new : Ptr}

theorem append_of_chars (he : s.appendChars h new str = .ok (s₁, h₁)) :
    s.append h new str =
      ({ s₁ with mSize := s₁.mSize + BitVec.ofNat 32 str.length } : ComString).write h₁
        ({ s₁ with mSize := s₁.mSize + BitVec.ofNat 32 str.length } : ComString).data
        (s₁.mSize + BitVec.ofNat 32 str.length).toNat [0] := by
  rw [append, he]
  rfl

theorem append_size (hlen : s.mSize.toNat + n < 2 ^ 32) :
    (s.mSize + BitVec.ofNat 32 n).toNat = s.mSize.toNat + n := by
  rw [BitVec.toNat_add, BitVec.toNat_ofNat, Nat.add_mod_mod]
  exact Nat.mod_eq_of_lt hlen

theorem length_append_content :
    (s.content h ++ str).length = s.mSize.toNat + str.length := by
  rw [List.length_append, length_content]

/-- Inline before and after. -/
theorem append_inline (hs : s.IsLocal) (ht : s.mSize.toNat + str.length < littleSize) :
    Gives (s.content h ++ str) (s.append h new str) := by
  have hbig : littleSize < 2 ^ 32 := by decide
  have hsize := append_size (s := s) (n := str.length) (by omega)
  have he : s.appendChars h new str = .ok (⟨s.mSize, overlay s.mStr s.mSize.toNat str⟩, h) := by
    rw [appendChars, if_pos hs, if_pos ht, write]
    exact if_pos (.inr (Nat.le_of_lt ht))
  let s₁ : ComString := ⟨s.mSize + BitVec.ofNat 32 str.length, overlay s.mStr s.mSize.toNat str⟩
  have hl : s₁.IsLocal := by
    rw [IsLocal, hsize]
    exact ht
  obtain ⟨s', h', hw, hi, _⟩ := write_nul s₁ h (s.content h ++ str)
    (by rw [length_append_content]; exact hsize)
    (by rw [bytes_local hl, length_append_content, read_overlay_append rfl, content, bytes_local hs])
    (.inl hl)
  rw [append_of_chars he]
  exact hw ▸ hi

/-- The heap after `grow`: the characters are in the new buffer, the old one is gone. -/
def grown (s : ComString) (h : Chars) (new : Ptr) (n : Nat) : Chars where
  size := Function.update (Function.update h.size new (some n)) s.mData none
  cell := Function.update h.cell new (overlay (h.cell new) 0 (read (h.cell s.mData) 0 s.mSize.toNat))

theorem grown_size (hne : s.mData ≠ new) : (s.grown h new n).size new = some n :=
  (Function.update_of_ne (Ne.symm hne) _ _).trans (Function.update_self _ _ _)

theorem grown_cell : (s.grown h new n).cell new =
    overlay (h.cell new) 0 (read (h.cell s.mData) 0 s.mSize.toNat) := Function.update_self _ _ _

/-- The buffer of a string is none that `new` may return. -/
theorem Valid.ne_fresh (hv : s.Valid h) (hs : ¬ s.IsLocal) (hf : h.Fresh new) : s.mData ≠ new := by
  obtain ⟨_, hk, _⟩ := hv.resolve_left hs
  rintro rfl
  rw [hf.2] at hk
  cases hk

/-- The string after `grow` has the characters it had. -/
theorem grown_content {v : BitVec 32} (hs : ¬ s.IsLocal) :
    ((s.setReserved v).setData new).content (s.grown h new n) = s.content h := by
  have hn : ¬ ((s.setReserved v).setData new).IsLocal := hs
  rw [content, content, bytes_heap hn, bytes_heap hs, mData_setData, grown_cell]
  exact read_overlay_read _ _ _ _ _

theorem grow_eq (hs : ¬ s.IsLocal) (hv : s.Valid h) (hf : h.Fresh new)
    (hsz : s.mSize.toNat ≤ total) (ht : total < 2 ^ 31) :
    s.grow h new (BitVec.ofNat 32 total) =
      .ok ((s.setReserved (suitableSize (BitVec.ofNat 32 total))).setData new,
        s.grown h new (suitableSize (BitVec.ofNat 32 total)).toNat) := by
  obtain ⟨h0, hk, hlt⟩ := hv.resolve_left hs
  have hroom := lt_suitableSize ht
  have hne := hv.ne_fresh hs hf
  have hw : (h.new new (suitableSize (BitVec.ofNat 32 total)).toNat).write new 0
      (read (h.cell s.mData) 0 s.mSize.toNat) = .ok _ :=
    Heap.write_ok Heap.size_new (by rw [length_read]; omega)
  have hd := Heap.delete_ok (h := (h.new new (suitableSize (BitVec.ofNat 32 total)).toNat).put new 0
    (read (h.cell s.mData) 0 s.mSize.toNat)) h0 ((Heap.size_new_ne hne).trans hk)
  simp only [grow, hw, hd, Heap.cell_new, mData_setReserved, ok_bind]
  rfl

/-- On the heap before and after: with the buffer `d` of more than the total size, which holds the
characters, the rest of `append` is right. -/
theorem append_room (str : List (BitVec 8)) (hs : ¬ s₁.IsLocal) (h0 : s₁.mData ≠ 0)
    (hk : h₁.size s₁.mData = some s₁.mReserved.toNat)
    (ht : s₁.mSize.toNat + str.length < s₁.mReserved.toNat) :
    Gives (s₁.content h₁ ++ str)
      (({ s₁ with mSize := s₁.mSize + BitVec.ofNat 32 str.length } : ComString).write
        (h₁.put s₁.mData s₁.mSize.toNat str)
        ({ s₁ with mSize := s₁.mSize + BitVec.ofNat 32 str.length } : ComString).data
        (s₁.mSize + BitVec.ofNat 32 str.length).toNat [0]) := by
  have hlt := s₁.mReserved.isLt
  have hsize := append_size (s := s₁) (n := str.length) (by omega)
  let s₂ : ComString := { s₁ with mSize := s₁.mSize + BitVec.ofNat 32 str.length }
  have hn : ¬ s₂.IsLocal := by
    rw [IsLocal, hsize]
    rw [IsLocal] at hs
    omega
  obtain ⟨s', h', hw, hi, _⟩ := write_nul s₂ (h₁.put s₁.mData s₁.mSize.toNat str)
    (s₁.content h₁ ++ str) (by rw [length_append_content]; exact hsize)
    (by
      rw [bytes_heap hn, length_append_content]
      show read ((h₁.put s₁.mData s₁.mSize.toNat str).cell s₁.mData) _ _ = _
      rw [Heap.cell_put, read_overlay_append rfl, content, bytes_heap hs])
    (.inr ⟨h0, hk, by rw [hsize]; exact ht⟩)
  exact hw ▸ hi

/-- There is room in the buffer. -/
theorem append_kept (hs : ¬ s.IsLocal) (hv : s.Valid h)
    (hroom : s.mSize.toNat + str.length < s.mReserved.toNat) :
    Gives (s.content h ++ str) (s.append h new str) := by
  obtain ⟨h0, hk, _⟩ := hv.resolve_left hs
  have hw : h.write s.mData s.mSize.toNat str = .ok _ := Heap.write_ok hk (Nat.le_of_lt hroom)
  have he : s.appendChars h new str = .ok (s, h.put s.mData s.mSize.toNat str) := by
    simp only [appendChars, if_neg hs, if_neg (Nat.not_le.mpr hroom), ok_bind, hw]
    rfl
  rw [append_of_chars he]
  exact append_room str hs h0 hk hroom

/-- The characters go to a larger buffer first. -/
theorem append_grown (hs : ¬ s.IsLocal) (hv : s.Valid h) (hf : h.Fresh new)
    (ht : s.mSize.toNat + str.length < 2 ^ 31)
    (hroom : s.mReserved.toNat ≤ s.mSize.toNat + str.length) :
    Gives (s.content h ++ str) (s.append h new str) := by
  have hlt := lt_suitableSize ht
  have hg := grow_eq hs hv hf (Nat.le_add_right _ str.length) ht
  generalize suitableSize (BitVec.ofNat 32 (s.mSize.toNat + str.length)) = n at *
  let s₁ : ComString := (s.setReserved n).setData new
  let h₁ : Chars := s.grown h new n.toNat
  have hd : s₁.mData = new := mData_setData
  have hres : s₁.mReserved = n := by rw [mReserved_setData, mReserved_setReserved]
  have hsize : h₁.size new = some n.toNat := grown_size (hv.ne_fresh hs hf)
  have hw : h₁.write new s.mSize.toNat str = .ok _ := Heap.write_ok hsize (Nat.le_of_lt hlt)
  have he : s.appendChars h new str = .ok (s₁, h₁.put new s.mSize.toNat str) := by
    simp only [appendChars, if_neg hs, if_pos hroom, hg, ok_bind, mData_setData,
      mSize_setData, mSize_setReserved]
    rw [show (s.grown h new n.toNat).write new s.mSize.toNat str = _ from hw]
    rfl
  have hs₁ : ¬ s₁.IsLocal := hs
  have hr := append_room str hs₁ (by rw [hd]; exact hf.1) (by rw [hd, hres]; exact hsize)
    (by rw [hres]; exact hlt)
  rw [hd] at hr
  rw [append_of_chars he, ← grown_content hs]
  exact hr

/-- `append` to a string on the heap. -/
theorem append_heap (hs : ¬ s.IsLocal) (hv : s.Valid h) (hf : h.Fresh new)
    (ht : s.mSize.toNat + str.length < 2 ^ 31) :
    Gives (s.content h ++ str) (s.append h new str) := by
  by_cases hroom : s.mReserved.toNat ≤ s.mSize.toNat + str.length
  · exact append_grown hs hv hf ht hroom
  · exact append_kept hs hv (Nat.lt_of_not_le hroom)

theorem write_size {d : Place} {off : Nat} {bs : List (BitVec 8)}
    (hw : s.write h d off bs = .ok (s', h')) : s'.mSize = s.mSize := by
  cases d with
  | inline =>
    rw [write] at hw
    split at hw
    · cases hw; rfl
    · cases hw
  | heap p =>
    rw [write] at hw
    cases hp : h.write p off bs with
    | error e => rw [hp] at hw; cases hw
    | ok h₁ => rw [hp] at hw; cases hw; rfl

/-- From the inline bytes to the heap the length is added twice. -/
theorem append_spill_size (hs : s.IsLocal) (ht : littleSize ≤ s.mSize.toNat + str.length)
    (he : s.append h new str = .ok (s', h')) :
    s'.mSize = BitVec.ofNat 32 (s.mSize.toNat + str.length) + BitVec.ofNat 32 str.length := by
  simp only [append, appendChars, if_pos hs, if_neg (Nat.not_lt.mpr ht), allocate] at he
  generalize hs₁ : (({ s with mSize := BitVec.ofNat 32 (s.mSize.toNat + str.length) } :
    ComString).setReserved _).setData new = s₁ at he
  have hsize : s₁.mSize = BitVec.ofNat 32 (s.mSize.toNat + str.length) := by
    rw [← hs₁]
    rfl
  cases h₁ : Heap.write _ s₁.mData 0 (read s₁.mStr 0 s₁.mSize.toNat) with
  | error e => rw [h₁] at he; cases he
  | ok h₂ =>
    rw [h₁] at he
    cases h₃ : Heap.write h₂ s₁.mData s₁.mSize.toNat str with
    | error e => simp only [h₃, ok_bind, error_bind] at he; cases he
    | ok h₄ =>
      simp only [h₃, ok_bind] at he
      rw [write_size he, ← hsize]

/-- So the size is wrong, if the call returns. -/
theorem append_spill (hs : s.IsLocal) (ht : littleSize ≤ s.mSize.toNat + str.length)
    (hlen : s.mSize.toNat + str.length < 2 ^ 31) :
    ¬ Gives (s.content h ++ str) (s.append h new str) := by
  have hlt : s.mSize.toNat < littleSize := hs
  cases he : s.append h new str with
  | error e => exact id
  | ok r =>
    intro hi
    have hi : r.1.Is r.2 (s.content h ++ str) := hi
    have hsize := hi.size
    rw [length_append_content, append_spill_size hs ht he, BitVec.toNat_add, BitVec.toNat_ofNat,
      BitVec.toNat_ofNat, ← Nat.add_mod, Nat.mod_eq_of_lt (by omega)] at hsize
    omega

/-- `append` and `push_back` are right exactly when they do not take a string from the inline
bytes to the heap. -/
theorem append_right_iff (hv : s.Valid h) (hf : h.Fresh new) :
    (s.mSize.toNat + str.length < 2 ^ 31 → (Gives (s.content h ++ str) (s.append h new str) ↔
      ¬ (s.IsLocal ∧ littleSize ≤ s.mSize.toNat + str.length))) ∧
    ∀ ch, s.mSize.toNat + 1 < 2 ^ 31 → (Gives (s.content h ++ [ch]) (s.pushBack h new ch) ↔
      ¬ (s.IsLocal ∧ littleSize ≤ s.mSize.toNat + 1)) := by
  have hall : ∀ str : List (BitVec 8), s.mSize.toNat + str.length < 2 ^ 31 →
      (Gives (s.content h ++ str) (s.append h new str) ↔
        ¬ (s.IsLocal ∧ littleSize ≤ s.mSize.toNat + str.length)) := by
    intro str hlen
    by_cases hs : s.IsLocal
    · by_cases ht : s.mSize.toNat + str.length < littleSize
      · exact ⟨fun _ hc => absurd hc.2 (by omega), fun _ => append_inline hs ht⟩
      · have ht : littleSize ≤ s.mSize.toNat + str.length := by omega
        exact ⟨fun hr => absurd hr (append_spill hs ht hlen), fun hn => absurd ⟨hs, ht⟩ hn⟩
    · exact ⟨fun _ hc => hs hc.1, fun _ => append_heap hs hv hf hlen⟩
  exact ⟨hall str, fun ch => hall [ch]⟩

/-- No buffer in use. -/
def noBuffers : Chars := ⟨fun _ => none, fun _ _ => 0⟩

/-- A string of `n` letters, inline. -/
def letters (n : BitVec 32) : ComString := ⟨n, fun _ => 0x61⟩

theorem append_right_iff_short :
    Gives ((letters 3).content noBuffers ++ [0x62, 0x63])
      ((letters 3).append noBuffers 0x1000 [0x62, 0x63]) :=
  ((append_right_iff (.inl (by decide)) ⟨by decide, rfl⟩).1 (by decide)).mpr (by decide)

/-- The thirty-second character: the string then says it has 33. -/
theorem append_counts_twice : (letters 31).Valid noBuffers ∧ noBuffers.Fresh (0x1000 : Ptr) ∧
    ((letters 31).pushBack noBuffers 0x1000 0x62).map (fun r => r.1.mSize) = .ok 33 ∧
    ¬ Gives ((letters 31).content noBuffers ++ [0x62])
      ((letters 31).pushBack noBuffers 0x1000 0x62) :=
  ⟨.inl (by decide), ⟨by decide, rfl⟩, rfl, append_spill (by decide) (by decide) (by decide)⟩

end Append

/-! ## Capacity -/

section Capacity

variable {s s' : ComString} {h h' : Chars} {new : Ptr} {sz : BitVec 32}

/-- The powers of two above a number. -/
def powersAbove (n : Nat) : Set Nat := {p | (∃ k, p = 2 ^ k) ∧ n < p}

theorem isLeast_powersAbove {n k : Nat} (hlo : 2 ^ k ≤ n) (hhi : n < 2 ^ (k + 1)) :
    IsLeast (powersAbove n) (2 ^ (k + 1)) := by
  refine ⟨⟨⟨k + 1, rfl⟩, hhi⟩, ?_⟩
  rintro p ⟨⟨j, rfl⟩, hp⟩
  have hkj : k < j := (Nat.pow_lt_pow_iff_right (by omega)).mp (lt_of_le_of_lt hlo hp)
  exact Nat.pow_le_pow_right (by omega) hkj

theorem suitableSize_isLeast (hsz : sz.toNat < 2 ^ 31) :
    IsLeast (powersAbove sz.toNat) (suitableSize sz).toNat := by
  by_cases h0 : sz.toNat = 0
  · have hz : sz = 0 := BitVec.eq_of_toNat_eq h0
    rw [hz, suitableSize_zero]
    refine ⟨⟨⟨0, rfl⟩, by decide⟩, ?_⟩
    rintro p ⟨-, hp⟩
    exact hp
  · rw [toNat_suitableSize h0 hsz]
    exact isLeast_powersAbove (Nat.log2_self_le h0) Nat.lt_log2_self

/-- Whatever else it does, `grow` stores the rounded size. -/
theorem grow_reserved (he : s.grow h new sz = .ok (s', h')) : s'.mReserved = suitableSize sz := by
  rw [grow] at he
  cases hw : (h.new new (suitableSize sz).toNat).write new 0
      (read ((h.new new (suitableSize sz).toNat).cell s.mData) 0 s.mSize.toNat) with
  | error e => simp only [hw, error_bind] at he; cases he
  | ok h₁ =>
    simp only [hw, ok_bind, mData_setReserved] at he
    cases hd : h₁.delete s.mData with
    | error e => simp only [hd, error_bind] at he; cases he
    | ok h₂ =>
      simp only [hd, ok_bind] at he
      cases he
      rw [mReserved_setData, mReserved_setReserved]

/-- Below `2 ^ 31` the size is rounded to the least power of two above it. So `m_reserved` is above
the length asked for after `allocate` and after `grow`, which returns if the string has a buffer, and
the new buffer has that many bytes. -/
theorem capacity_above (hsz : sz.toNat < 2 ^ 31) :
    IsLeast (powersAbove sz.toNat) (suitableSize sz).toNat ∧
    (∀ (s : ComString) (h : Chars) (new : Ptr),
      sz.toNat < (s.allocate h new sz).1.mReserved.toNat ∧
      (s.allocate h new sz).2.size (s.allocate h new sz).1.mData =
        some (s.allocate h new sz).1.mReserved.toNat) ∧
    (∀ (s s' : ComString) (h h' : Chars) (new : Ptr), s.grow h new sz = .ok (s', h') →
      sz.toNat < s'.mReserved.toNat) ∧
    ∀ (s : ComString) (h : Chars) (new : Ptr), ¬ s.IsLocal → s.Valid h → h.Fresh new →
      s.mSize.toNat ≤ sz.toNat →
      ∃ s' h', s.grow h new sz = .ok (s', h') ∧ h'.size s'.mData = some s'.mReserved.toNat := by
  have hlt : sz.toNat < (suitableSize sz).toNat := (suitableSize_small hsz).1
  refine ⟨suitableSize_isLeast hsz, fun s h new => ?_, fun s s' h h' new he => ?_,
    fun s h new hs hv hf hle => ?_⟩
  · have hres : (s.allocate h new sz).1.mReserved = suitableSize sz := by simp [allocate]
    have hdata : (s.allocate h new sz).1.mData = new := by simp [allocate]
    refine ⟨by rw [hres]; exact hlt, ?_⟩
    rw [hdata]
    simp [allocate]
  · rw [grow_reserved he]
    exact hlt
  · have hg := grow_eq hs hv hf hle hsz
    rw [BitVec.ofNat_toNat, BitVec.setWidth_eq] at hg
    refine ⟨_, _, hg, ?_⟩
    rw [mData_setData, mReserved_setData, mReserved_setReserved]
    exact grown_size (hv.ne_fresh hs hf)

/-- A power of two: from 64 characters to a buffer of 128. -/
theorem capacity_above_sixty_four : IsLeast (powersAbove 64) 128 :=
  (capacity_above (by decide : (64 : BitVec 32).toNat < 2 ^ 31)).1

end Capacity

end ComString
end Util
end TorexOS
