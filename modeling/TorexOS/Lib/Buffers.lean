import Mathlib.Data.List.Basic
import Mathlib.Logic.Function.Basic

/-!
# TorexOS.Lib.Buffers

Buffers of a heap, and runs of bytes in a memory.

* `overlay`, `read`: a run of elements is written at an offset, and read from one.
* `Heap`: the buffers that `new` returned and `delete` has not taken back. A write outside them, and
  a `delete` of anything else, is a `Fault`. A read is not checked.
* `Heap.write_ok`, `Heap.delete_ok`: what the calls do where they do not fail.
-/

namespace Buffers

variable {β : Type} {m m' : Nat → β} {off n k i : Nat} {bs : List β}

/-- The elements `bs` from `off` on. -/
def overlay (m : Nat → β) (off : Nat) (bs : List β) : Nat → β :=
  fun i => if off ≤ i then (bs[i - off]?).getD (m i) else m i

def read (m : Nat → β) (off n : Nat) : List β := (List.range' off n).map m

@[simp] theorem overlay_nil : overlay m off [] = m := by
  funext i
  simp [overlay]

theorem overlay_outside (h : i < off ∨ off + bs.length ≤ i) : overlay m off bs i = m i := by
  rw [overlay]
  by_cases hi : off ≤ i
  · rw [if_pos hi, List.getElem?_eq_none (by omega), Option.getD_none]
  · rw [if_neg hi]

theorem overlay_inside (h : i < bs.length) : overlay m off bs (off + i) = bs[i] := by
  rw [overlay, if_pos (Nat.le_add_right _ _), Nat.add_sub_cancel_left, List.getElem?_eq_getElem h,
    Option.getD_some]

@[simp] theorem length_read : (read m off n).length = n := by
  rw [read, List.length_map, List.length_range']

theorem read_congr (h : ∀ i, off ≤ i → i < off + n → m' i = m i) : read m' off n = read m off n := by
  refine List.map_congr_left fun i hi => ?_
  rw [List.mem_range'_1] at hi
  exact h i hi.1 hi.2

theorem getElem_read (h : i < (read m off n).length) : (read m off n)[i] = m (off + i) := by
  simp only [read, List.getElem_map, List.getElem_range', Nat.one_mul]

@[simp] theorem read_zero : read m off 0 = [] := rfl

theorem read_succ : read m off (n + 1) = m off :: read m (off + 1) n := by
  rw [read, List.range'_succ, List.map_cons, read]

theorem read_add : read m off (n + k) = read m off n ++ read m (off + n) k := by
  rw [read, ← List.range'_append_1, List.map_append]
  rfl

/-- What was written is read. -/
theorem read_overlay (m : Nat → β) (off : Nat) (bs : List β) :
    read (overlay m off bs) off bs.length = bs := by
  refine List.ext_getElem length_read fun i h _ => ?_
  rw [length_read] at h
  rw [getElem_read, overlay_inside h]

/-- A run copied from another memory. -/
theorem read_overlay_read (m m' : Nat → β) (off k n : Nat) :
    read (overlay m off (read m' k n)) off n = read m' k n := by
  have hr := read_overlay m off (read m' k n)
  rwa [length_read] at hr

/-- What is read elsewhere is as before. -/
theorem read_overlay_outside (h : k + n ≤ off ∨ off + bs.length ≤ k) :
    read (overlay m off bs) k n = read m k n :=
  read_congr fun i _ _ => overlay_outside (by omega)

/-- A run written behind another is read behind it. -/
theorem read_overlay_append (hn : n = k + bs.length) :
    read (overlay m k bs) 0 n = read m 0 k ++ bs := by
  rw [hn, read_add, read_overlay_outside (by omega), Nat.zero_add, read_overlay]

/-- Written byte by byte, or as a run. -/
theorem overlay_cons (m : Nat → β) (off : Nat) (b : β) (bs : List β) :
    overlay m off (b :: bs) = overlay (Function.update m off b) (off + 1) bs := by
  funext i
  rcases Nat.lt_trichotomy i off with h | rfl | h
  · rw [overlay_outside (.inl h), overlay_outside (.inl (by omega)),
      Function.update_of_ne (by omega)]
  · rw [overlay_outside (.inl (Nat.lt_succ_self i)), Function.update_self]
    simp [overlay]
  · obtain ⟨j, rfl⟩ : ∃ j, i = off + 1 + j := ⟨i - (off + 1), by omega⟩
    rw [overlay, overlay, if_pos (by omega), if_pos (by omega), Function.update_of_ne (by omega),
      Nat.add_sub_cancel_left, show off + 1 + j - off = j + 1 by omega, List.getElem?_cons_succ]

/-- What a failing call did: a write outside a buffer, or a `delete` of what is none. -/
inductive Fault where
  | outside
  | badDelete
  deriving DecidableEq

@[simp] theorem ok_bind {ε α γ : Type} (a : α) (f : α → Except ε γ) : (Except.ok a >>= f) = f a :=
  rfl

@[simp] theorem error_bind {ε α γ : Type} (e : ε) (f : α → Except ε γ) :
    (Except.error e >>= f) = Except.error e := rfl

/-- The buffers in use, by address, with their sizes, and what is in memory at the addresses. -/
structure Heap (π β : Type) where
  size : π → Option Nat
  cell : π → Nat → β

namespace Heap

variable {π : Type} [DecidableEq π]

/-- `new char[n]` returns `p`. -/
def new (h : Heap π β) (p : π) (n : Nat) : Heap π β :=
  { h with size := Function.update h.size p (some n) }

/-- `delete[] p`; of a null pointer it does nothing. -/
def delete [Zero π] (h : Heap π β) (p : π) : Except Fault (Heap π β) :=
  if p = 0 then .ok h
  else
    match h.size p with
    | none => .error .badDelete
    | some _ => .ok { h with size := Function.update h.size p none }

/-- The bytes at `p`, without a check. -/
def put (h : Heap π β) (p : π) (off : Nat) (bs : List β) : Heap π β :=
  { h with cell := Function.update h.cell p (overlay (h.cell p) off bs) }

/-- Write `bs` at `p + off`. -/
def write (h : Heap π β) (p : π) (off : Nat) (bs : List β) : Except Fault (Heap π β) :=
  if bs = [] then .ok h
  else
    match h.size p with
    | none => .error .outside
    | some n => if off + bs.length ≤ n then .ok (h.put p off bs) else .error .outside

/-- What `new` may return: no null pointer and no buffer in use. -/
def Fresh {π : Type} [Zero π] (h : Heap π β) (p : π) : Prop := p ≠ 0 ∧ h.size p = none

variable {h h' : Heap π β} {p q : π}

theorem write_ok (hp : h.size p = some n) (hn : off + bs.length ≤ n) :
    h.write p off bs = .ok (h.put p off bs) := by
  rw [write, hp]
  by_cases hb : bs = []
  · rw [if_pos hb, hb, put, overlay_nil, Function.update_eq_self]
  · rw [if_neg hb]
    exact if_pos hn

/-- A write behind the end of a buffer fails. -/
theorem write_outside (hp : h.size p = some n) (hn : n < off + bs.length) (hb : bs ≠ []) :
    h.write p off bs = .error .outside := by
  rw [write, if_neg hb, hp]
  exact if_neg (by omega)

theorem delete_ok [Zero π] (hp : p ≠ 0) (hn : h.size p = some n) :
    h.delete p = .ok { h with size := Function.update h.size p none } := by
  rw [delete, if_neg hp, hn]

@[simp] theorem size_put : (h.put p off bs).size = h.size := rfl

@[simp] theorem cell_put : (h.put p off bs).cell p = overlay (h.cell p) off bs :=
  Function.update_self _ _ _

@[simp] theorem cell_new : (h.new p n).cell = h.cell := rfl

@[simp] theorem size_new : (h.new p n).size p = some n := Function.update_self _ _ _

theorem size_new_ne (hq : q ≠ p) : (h.new p n).size q = h.size q := Function.update_of_ne hq _ _

end Heap

end Buffers
