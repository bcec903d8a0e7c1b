import TorexOS.Lib.Ring

/-!
# TorexOS.CircularQueue

`util::CircularQueue` of `datastruc/CircularQueue.h`.

An index outside `data` is undefined behaviour in the source, `none` here.

* `CircularQueue.Cells`: the cells from `first` to `last` hold a list. This is what is left of the
  invariant between the assignments of `pop`, where `first` may be `size`.
* `CircularQueue.Holds`: between operations, with `isfull` telling a full ring from an empty one.
* `queue_is_fifo`: any sequence of operations has the results of a bounded first-in-first-out list.
-/

namespace TorexOS
namespace Util

structure CircularQueue (α : Type) (size : Nat) where
  first : BitVec 32
  last : BitVec 32
  isfull : Bool
  data : Nat → α

namespace CircularQueue

variable {α : Type} {size : Nat}

/-- `CircularQueue():first(0),last(0),isfull(false),data{0,}`; `zero` is the element made from 0. -/
def new [Inhabited α] (zero : α) : CircularQueue α size :=
  ⟨0, 0, false, Function.update (fun _ => default) 0 zero⟩

/-- `data[i]` -/
def index (q : CircularQueue α size) (i : BitVec 32) : Option α :=
  if i.toNat < size then some (q.data i.toNat) else none

/-- `data[i] = elem` -/
def store (q : CircularQueue α size) (i : BitVec 32) (elem : α) : Option (CircularQueue α size) :=
  if i.toNat < size then some { q with data := Function.update q.data i.toNat elem } else none

def full (q : CircularQueue α size) : Bool := q.isfull

def empty (q : CircularQueue α size) : Bool :=
  if q.isfull then false else q.first == q.last

def front (q : CircularQueue α size) : Option α := q.index q.first

/-! The assignments of `pop`, in order. -/

def advance (q : CircularQueue α size) : CircularQueue α size := { q with first := q.first + 1 }

def wrap (q : CircularQueue α size) : CircularQueue α size :=
  if size = q.first.toNat then { q with first := 0 } else q

def clearFull (q : CircularQueue α size) : CircularQueue α size := { q with isfull := false }

def pop [Inhabited α] (q : CircularQueue α size) : Option (α × CircularQueue α size) :=
  if !q.empty then
    match q.index q.first with
    | none => none
    | some ret => some (ret, q.advance.wrap.clearFull)
  else some (default, q)

def push (q : CircularQueue α size) (elem : α) : Option (CircularQueue α size) :=
  if !q.full then
    match q.store q.last elem with
    | none => none
    | some q =>
      let q := { q with last := q.last + 1 }
      let q := if q.last.toNat = size then { q with last := 0 } else q
      some (if q.first = q.last then { q with isfull := true } else q)
  else some q

/-- The operations with their results. -/
def exec [Inhabited α] (q : CircularQueue α size) :
    Fifo.Op α → Option (Fifo.Result α × CircularQueue α size)
  | .push elem => (q.push elem).map fun q => (.done, q)
  | .pop => q.pop.map fun r => (.elem r.1, r.2)
  | .front => q.front.map fun elem => (.elem elem, q)
  | .empty => some (.flag q.empty, q)
  | .full => some (.flag q.full, q)

structure Cells (q : CircularQueue α size) (xs : List α) : Prop where
  first_le : q.first.toNat ≤ size
  last_eq : q.last.toNat = (q.first.toNat + xs.length) % size
  ring : Ring.Holds size q.data q.first.toNat xs

structure Holds (q : CircularQueue α size) (xs : List α) : Prop extends q.Cells xs where
  first_lt : q.first.toNat < size
  isfull_iff : q.isfull = true ↔ xs.length = size

variable {q : CircularQueue α size} {x : α} {xs : List α}

theorem toNat_succ {i : BitVec 32} (h : i.toNat + 1 < 2 ^ 32) : (i + 1).toNat = i.toNat + 1 :=
  Nat.mod_eq_of_lt h

theorem holds_new [Inhabited α] (hpos : 1 ≤ size) (zero : α) :
    (new zero : CircularQueue α size).Holds [] := by
  refine ⟨⟨Nat.zero_le _, ?_, Ring.holds_nil _ _ _⟩, hpos, ?_⟩
  · exact (Nat.zero_mod size).symm
  · simp only [new, List.length_nil, Bool.false_eq_true, false_iff]; omega

theorem Cells.last_lt (h : q.Cells xs) (hpos : 1 ≤ size) : q.last.toNat < size := by
  rw [h.last_eq]
  exact Nat.mod_lt _ hpos

theorem Holds.meet_iff (h : q.Holds xs) : q.first = q.last ↔ xs = [] ∨ xs.length = size := by
  rw [← BitVec.toNat_inj, h.last_eq]
  exact Ring.meet_iff h.first_lt h.ring.length_le

theorem Holds.full_eq (h : q.Holds xs) : q.full = (xs.length == size) := by
  rw [Bool.eq_iff_iff, beq_iff_eq]
  exact h.isfull_iff

theorem Holds.empty_eq (h : q.Holds xs) : q.empty = xs.isEmpty := by
  have hlt := h.first_lt
  rw [Bool.eq_iff_iff, List.isEmpty_iff, empty]
  cases hf : q.isfull with
  | true =>
    have hlen := h.isfull_iff.mp hf
    rw [if_pos rfl]
    refine ⟨(by cases ·), fun he => ?_⟩
    rw [he, List.length_nil] at hlen
    omega
  | false =>
    have hlen : xs.length ≠ size := by
      rw [ne_eq, ← h.isfull_iff, hf]; decide
    rw [if_neg (by decide), beq_iff_eq, h.meet_iff]
    simp only [hlen, or_false]

/-- The elements held, read off the indices and the flag. -/
def contents (q : CircularQueue α size) : List α :=
  let count := if q.isfull then size else (q.last.toNat + size - q.first.toNat) % size
  (List.range count).map fun i => q.data ((q.first.toNat + i) % size)

theorem Holds.count_eq (h : q.Holds xs) :
    (if q.isfull then size else (q.last.toNat + size - q.first.toNat) % size) = xs.length := by
  have hle := h.ring.length_le
  have hlt := h.first_lt
  split
  · rename_i hf
    exact (h.isfull_iff.mp hf).symm
  · rename_i hf
    rw [h.isfull_iff] at hf
    rw [h.last_eq]
    rcases Nat.lt_or_ge (q.first.toNat + xs.length) size with hc | hc
    · rw [Nat.mod_eq_of_lt hc, Nat.add_assoc, Nat.add_sub_cancel_left, Nat.add_mod_right,
        Nat.mod_eq_of_lt (by omega)]
    · have hw : (q.first.toNat + xs.length) % size = q.first.toNat + xs.length - size := by
        rw [Nat.mod_eq_sub_mod hc, Nat.mod_eq_of_lt (by omega)]
      rw [hw, Nat.sub_add_cancel hc, Nat.add_sub_cancel_left, Nat.mod_eq_of_lt (by omega)]

theorem Holds.contents_eq (h : q.Holds xs) : q.contents = xs := by
  have hc : q.contents = (List.range xs.length).map
      fun i => q.data ((q.first.toNat + i) % size) := by
    rw [← h.count_eq, contents]
  rw [hc]
  refine List.ext_getElem? fun i => ?_
  rw [List.getElem?_map]
  rcases Nat.lt_or_ge i xs.length with hi | hi
  · rw [List.getElem?_range hi, h.ring.get i hi]; rfl
  · rw [List.getElem?_eq_none (by rw [List.length_range]; exact hi), List.getElem?_eq_none hi]; rfl

/-! ## push -/

/-- A push that finds the flag down goes to the end of the list, wherever `first` stands. -/
theorem Cells.push (h : q.Cells xs) (hsize : size < 2 ^ 32) (hf : q.isfull = false)
    (hlt : xs.length < size) (x : α) :
    ∃ q', q.push x = some q' ∧ q'.Cells (xs ++ [x]) ∧ q'.first = q.first ∧
      (q'.isfull = true ↔ q.first.toNat = (q.first.toNat + (xs.length + 1)) % size) := by
  have hpos : 1 ≤ size := by omega
  have hlast := h.last_lt hpos
  let last' := if (q.last + 1).toNat = size then 0 else q.last + 1
  have hl' : last'.toNat = (q.first.toNat + (xs.length + 1)) % size := by
    have hadd := toNat_succ (i := q.last) (by omega)
    have hmod : (q.first.toNat + (xs.length + 1)) % size = (q.last.toNat + 1) % size := by
      rw [h.last_eq, Nat.mod_add_mod, Nat.add_assoc]
    rw [hmod, Ring.succ_mod hlast, ← hadd]
    simp only [last']
    split <;> rfl
  have hring := h.ring.push hlt x
  rw [← h.last_eq] at hring
  have hcells : ∀ b, Cells (⟨q.first, last', b, Function.update q.data q.last.toNat x⟩ :
      CircularQueue α size) (xs ++ [x]) := by
    intro b
    refine ⟨h.first_le, ?_, hring⟩
    rw [List.length_append]; exact hl'
  refine ⟨⟨q.first, last', decide (q.first = last'), Function.update q.data q.last.toNat x⟩,
    ?_, hcells _, rfl, ?_⟩
  · simp only [CircularQueue.push, full, hf, store, hlast, if_true, Bool.not_false]
    simp only [last']
    split <;> split <;> simp_all
  · rw [decide_eq_true_eq, ← BitVec.toNat_inj, hl']

theorem Holds.push (h : q.Holds xs) (hsize : size < 2 ^ 32) (x : α) :
    ∃ q', q.push x = some q' ∧ q'.Holds (if xs.length < size then xs ++ [x] else xs) := by
  by_cases hlt : xs.length < size
  · have hf : q.isfull = false := by
      rw [← Bool.not_eq_true, h.isfull_iff]; omega
    obtain ⟨q', hq, hc, hfst, hiff⟩ := h.toCells.push hsize hf hlt x
    rw [if_pos hlt]
    refine ⟨q', hq, hc, by rw [hfst]; exact h.first_lt, ?_⟩
    rw [hiff, List.length_append, List.length_singleton]
    have hmeet : q.first.toNat = (q.first.toNat + (xs ++ [x]).length) % size ↔
        xs ++ [x] = [] ∨ (xs ++ [x]).length = size :=
      Ring.meet_iff h.first_lt (by rw [List.length_append, List.length_singleton]; omega)
    rw [List.length_append, List.length_singleton] at hmeet
    rw [hmeet]
    simp
  · have hf : q.isfull = true := h.isfull_iff.mpr (by have := h.ring.length_le; omega)
    rw [if_neg hlt]
    refine ⟨q, ?_, h⟩
    simp [CircularQueue.push, full, hf]

/-! ## pop -/

theorem Holds.index_first (h : q.Holds (x :: xs)) : q.index q.first = some x := by
  rw [index, if_pos h.first_lt]
  have := h.ring.front
  rw [Nat.mod_eq_of_lt h.first_lt] at this
  rw [this]

theorem Holds.advance (h : q.Holds (x :: xs)) (hsize : size < 2 ^ 32) : q.advance.Cells xs := by
  have hlt := h.first_lt
  have hadd := toNat_succ (i := q.first) (by omega)
  refine ⟨?_, ?_, ?_⟩
  · simp only [CircularQueue.advance, hadd]; omega
  · simp only [CircularQueue.advance, hadd]
    rw [h.last_eq, List.length_cons, Nat.add_assoc, Nat.add_comm 1]
  · simp only [CircularQueue.advance, hadd]
    exact h.ring.pop

theorem Cells.wrap (h : q.Cells xs) (hpos : 1 ≤ size) :
    q.wrap.Cells xs ∧ q.wrap.first.toNat < size := by
  have hle := h.first_le
  by_cases he : size = q.first.toNat
  · rw [CircularQueue.wrap, if_pos he]
    refine ⟨⟨Nat.zero_le _, ?_, h.ring.start ?_⟩, hpos⟩
    · rw [h.last_eq, ← he, Nat.add_mod_left]
      exact congrArg (· % size) (Nat.zero_add _).symm
    · rw [← he, Nat.mod_self]
      exact Nat.zero_mod size
  · rw [CircularQueue.wrap, if_neg he]
    exact ⟨h, by omega⟩

theorem Cells.clearFull (h : q.Cells xs) (hfirst : q.first.toNat < size) (hlt : xs.length < size) :
    q.clearFull.Holds xs := by
  refine ⟨⟨h.first_le, h.last_eq, h.ring⟩, hfirst, ?_⟩
  simp only [CircularQueue.clearFull, Bool.false_eq_true, false_iff]
  omega

variable [Inhabited α]

theorem Holds.pop_nil (h : q.Holds []) : q.pop = some (default, q) := by
  simp [pop, h.empty_eq]

theorem Holds.pop_cons (h : q.Holds (x :: xs)) (hsize : size < 2 ^ 32) :
    ∃ q', q.pop = some (x, q') ∧ q'.Holds xs := by
  have hlen := h.ring.length_le
  rw [List.length_cons] at hlen
  obtain ⟨hw, hfst⟩ := (h.advance hsize).wrap (by omega)
  refine ⟨q.advance.wrap.clearFull, ?_, hw.clearFull hfst (by omega)⟩
  simp [pop, h.empty_eq, h.index_first]

/-! ## Sequences of operations -/

/-- One operation on the queue and on the list. -/
theorem Holds.exec (h : q.Holds xs) (hsize : size < 2 ^ 32) {i : Fifo.Op α} {r : Fifo.Result α}
    {ys : List α} (hs : Fifo.exec size xs i = some (r, ys)) :
    ∃ q', q.exec i = some (r, q') ∧ q'.Holds ys := by
  cases i with
  | push x =>
    cases hs
    obtain ⟨q', hq, hh⟩ := h.push hsize x
    exact ⟨q', by rw [CircularQueue.exec, hq]; rfl, hh⟩
  | pop =>
    cases xs with
    | nil =>
      cases hs
      exact ⟨q, by rw [CircularQueue.exec, h.pop_nil]; rfl, h⟩
    | cons x xs =>
      cases hs
      obtain ⟨q', hq, hh⟩ := h.pop_cons hsize
      exact ⟨q', by rw [CircularQueue.exec, hq]; rfl, hh⟩
  | front =>
    cases xs with
    | nil => cases hs
    | cons x xs =>
      cases hs
      exact ⟨q, by rw [CircularQueue.exec, front, h.index_first]; rfl, h⟩
  | empty =>
    cases hs
    exact ⟨q, by rw [CircularQueue.exec, h.empty_eq], h⟩
  | full =>
    cases hs
    exact ⟨q, by rw [CircularQueue.exec, h.full_eq], h⟩

end CircularQueue

open Machine

/-- A queue of any capacity does what a list of at most `size` elements does, whatever the
operations, and never uses an index outside its array. -/
theorem queue_is_fifo {α : Type} [Inhabited α] {size : Nat} (hpos : 1 ≤ size) (hsize : size < 2 ^ 32)
    (zero : α) {ops : List (Fifo.Op α)} {rs : List (Fifo.Result α)} {xs : List α}
    (h : outputs (Fifo.exec size) [] ops = some (rs, xs)) :
    ∃ q : CircularQueue α size, outputs CircularQueue.exec (.new zero) ops = some (rs, q) ∧
      q.Holds xs :=
  outputs_refines (fun _ _ _ _ _ hq hs => hq.exec hsize hs) (CircularQueue.holds_new hpos zero) h

/-- Capacity one: the second push is ignored, the second pop gives the default. -/
theorem queue_is_fifo_one : ∃ q : CircularQueue Nat 1,
    outputs CircularQueue.exec (.new 0) [.push 5, .push 6, .full, .front, .pop, .pop, .empty] =
      some ([.done, .done, .flag true, .elem 5, .elem 5, .elem 0, .flag true], q) ∧ q.Holds [] :=
  queue_is_fifo (by omega) (by omega) 0 rfl

end Util
end TorexOS
