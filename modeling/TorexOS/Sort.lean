import Mathlib.Data.List.Nodup
import Mathlib.Logic.Function.Basic

/-!
# TorexOS.Sort

`util::insertion_sort` of `algo/sort.h`, on a memory of cells.

* `sinkLoop`, `sortStep`, `insertionSort`: the loops of the source. An iterator is the number of its
  cell.
* `slice m b n`: the `n` cells from `b` on.
* `insertionSort_spec`: over a strict weak order the cells of the range are sorted and permuted, and no
  other cell changes.
-/

namespace TorexOS
namespace Util

open Function

variable {α : Type}

/-- The `do` loop, `k` cells after `begin`: the cells greater than `temp` move up by one. Returned
are the cells and the iterator `cur` after the loop. -/
def sinkLoop (pred : α → α → Bool) (temp : α) (b : Nat) : Nat → (Nat → α) → (Nat → α) × Nat
  | 0, m => (m, b)
  | k + 1, m =>
    if pred temp (m (b + k)) then sinkLoop pred temp b k (update m (b + k + 1) (m (b + k)))
    else (m, b + k + 1)

/-- The body of the `while` loop with `sorted` at `begin + i`. -/
def sortStep (pred : α → α → Bool) (b i : Nat) (m : Nat → α) : Nat → α :=
  if pred (m (b + i - 1)) (m (b + i)) then m
  else
    let temp := m (b + i)
    let r := sinkLoop pred temp b i m
    update r.1 r.2 temp

/-- The `while` loop with `left` cells to go from `begin + i`. -/
def sortFrom (pred : α → α → Bool) (b : Nat) : Nat → Nat → (Nat → α) → (Nat → α)
  | 0, _, m => m
  | left + 1, i, m => sortFrom pred b left (i + 1) (sortStep pred b i m)

def insertionSort (pred : α → α → Bool) (m : Nat → α) (b e : Nat) : Nat → α :=
  if b = e ∨ b + 1 = e then m else sortFrom pred b (e - b - 1) 1 m

/-- The `n` cells from `b` on. -/
def slice (m : Nat → α) (b n : Nat) : List α := (List.range n).map fun i => m (b + i)

/-- What the source asks of `pred`: it and the negation of its converse are transitive. -/
structure StrictWeak (pred : α → α → Bool) : Prop where
  asymm : ∀ a b, pred a b = true → pred b a = false
  negTrans : ∀ a b c, pred b a = false → pred c b = false → pred c a = false

theorem StrictWeak.irrefl {pred : α → α → Bool} (h : StrictWeak pred) (a : α) :
    pred a a = false :=
  Bool.eq_false_iff.mpr fun haa => Bool.false_ne_true ((h.asymm a a haa).symm.trans haa)

/-- No later cell precedes an earlier one. -/
def Sorted (pred : α → α → Bool) (xs : List α) : Prop := xs.Pairwise fun a b => pred b a = false

section Slice

variable {m m' : Nat → α} {b n : Nat}

@[simp] theorem length_slice (m : Nat → α) (b n : Nat) : (slice m b n).length = n := by
  simp [slice]

@[simp] theorem getElem_slice {i : Nat} (h : i < (slice m b n).length) :
    (slice m b n)[i] = m (b + i) := by
  simp [slice]

theorem slice_succ (m : Nat → α) (b n : Nat) : slice m b (n + 1) = slice m b n ++ [m (b + n)] := by
  simp [slice, List.range_succ]

theorem slice_add (m : Nat → α) (b n k : Nat) :
    slice m b (n + k) = slice m b n ++ slice m (b + n) k := by
  simp [slice, List.range_add, List.map_map, comp_def, Nat.add_assoc]

theorem slice_congr (h : ∀ i, i < n → m' (b + i) = m (b + i)) : slice m' b n = slice m b n := by
  unfold slice
  exact List.map_congr_left fun i hi => h i (List.mem_range.mp hi)

end Slice

section Correct

variable {pred : α → α → Bool} {m : Nat → α} {b e i : Nat}

/-- The loop splits the cells before the hole: those after the split are greater than `temp` and
have moved up. By induction on the distance to `begin`. -/
theorem sinkLoop_spec (pred : α → α → Bool) (temp : α) (b k : Nat) : ∀ m : Nat → α, ∃ p q, slice m b k = p ++ q ∧
    (sinkLoop pred temp b k m).2 = b + p.length ∧ (∀ y ∈ q, pred temp y = true) ∧
    (∀ y ∈ p.getLast?, pred temp y = false) ∧
    ∀ j, (sinkLoop pred temp b k m).1 j =
      if b + p.length < j ∧ j ≤ b + k then m (j - 1) else m j := by
  induction k with
  | zero =>
    intro m
    refine ⟨[], [], rfl, rfl, by simp, by simp, fun j => ?_⟩
    rw [if_neg (by simp only [List.length_nil]; omega)]
    rfl
  | succ k ih =>
    intro m
    by_cases hp : pred temp (m (b + k)) = true
    · obtain ⟨p, q, hs, hpos, hq, hlast, hcells⟩ := ih (update m (b + k + 1) (m (b + k)))
      have hsame : slice (update m (b + k + 1) (m (b + k))) b k = slice m b k :=
        slice_congr fun j hj => update_of_ne (by omega) _ _
      rw [hsame] at hs
      have hlen : p.length ≤ k := by
        have := congrArg List.length hs
        rw [length_slice, List.length_append] at this
        omega
      rw [sinkLoop, if_pos hp]
      refine ⟨p, q ++ [m (b + k)], ?_, hpos, ?_, hlast, fun j => ?_⟩
      · rw [slice_succ, hs, List.append_assoc]
      · intro y hy
        rw [List.mem_append, List.mem_singleton] at hy
        cases hy with
        | inl hy => exact hq y hy
        | inr hy => rw [hy]; exact hp
      · rw [hcells]
        by_cases hj : b + p.length < j ∧ j ≤ b + k
        · rw [if_pos hj, if_pos (by omega), update_of_ne (by omega)]
        · rw [if_neg hj]
          by_cases hjk : j = b + k + 1
          · rw [if_pos (by omega), hjk, update_self, Nat.add_sub_cancel]
          · rw [if_neg (by omega), update_of_ne hjk]
    · rw [sinkLoop, if_neg hp]
      refine ⟨slice m b (k + 1), [], by simp, by simp [Nat.add_assoc], by simp, fun y hy => ?_,
        fun j => ?_⟩
      · rw [slice_succ, List.getLast?_concat, Option.mem_def, Option.some.injEq] at hy
        rw [← hy]
        exact Bool.eq_false_iff.mpr hp
      · rw [if_neg (by rw [length_slice]; omega)]

/-- One insertion: the cell at `i` goes between the cells not greater and those greater. -/
theorem insert_spec (pred : α → α → Bool) (m : Nat → α) (b i : Nat) :
    ∃ p q, slice m b i = p ++ q ∧
      slice (update (sinkLoop pred (m (b + i)) b i m).1 (sinkLoop pred (m (b + i)) b i m).2
        (m (b + i))) b (i + 1) = p ++ m (b + i) :: q ∧
      (∀ y ∈ q, pred (m (b + i)) y = true) ∧ (∀ y ∈ p.getLast?, pred (m (b + i)) y = false) ∧
      ∀ j, j < b ∨ b + i < j →
        update (sinkLoop pred (m (b + i)) b i m).1 (sinkLoop pred (m (b + i)) b i m).2
          (m (b + i)) j = m j := by
  obtain ⟨p, q, hs, hpos, hq, hlast, hcells⟩ :=
    sinkLoop_spec pred (m (b + i)) b i m
  have hlen : p.length + q.length = i := by
    have := congrArg List.length hs
    rwa [length_slice, List.length_append, eq_comm] at this
  rw [hpos]
  refine ⟨p, q, hs, ?_, hq, hlast, fun j hj => ?_⟩
  · refine List.ext_getElem (by simp; omega) fun j hj _ => ?_
    rw [getElem_slice]
    rw [length_slice] at hj
    by_cases hjp : j = p.length
    · subst hjp
      rw [update_self]
      simp
    · rw [update_of_ne (by omega), hcells]
      by_cases hlt : p.length < j
      · rw [if_pos (by omega)]
        have hj' : j - 1 < (slice m b i).length := by rw [length_slice]; omega
        have hget : (slice m b i)[j - 1] = m (b + j - 1) := by
          rw [getElem_slice, Nat.add_sub_assoc (by omega)]
        rw [← hget, List.getElem_append_right (by omega)]
        simp only [hs]
        rw [List.getElem_append_right (by omega), List.getElem_cons]
        rw [dif_neg (by omega)]
        congr 1
        omega
      · rw [if_neg (by omega)]
        have hj' : j < (slice m b i).length := by rw [length_slice]; omega
        have hget : (slice m b i)[j] = m (b + j) := getElem_slice _
        rw [← hget, List.getElem_append_left (by omega)]
        simp only [hs]
        rw [List.getElem_append_left (by omega)]
  · rw [update_of_ne (by omega), hcells, if_neg (by omega)]

theorem Sorted.insert {p q : List α} {t : α} (h : StrictWeak pred) (hs : Sorted pred (p ++ q))
    (hq : ∀ y ∈ q, pred t y = true) (hlast : ∀ y ∈ p.getLast?, pred t y = false) :
    Sorted pred (p ++ t :: q) := by
  obtain ⟨hp, hq', hpq⟩ := List.pairwise_append.mp hs
  have hpt : ∀ a ∈ p, pred t a = false := by
    intro a ha
    cases List.eq_nil_or_concat' p with
    | inl hp => rw [hp] at ha; cases ha
    | inr hp =>
      obtain ⟨ps, z, rfl⟩ := hp
      have hz : pred t z = false := hlast z (by simp)
      rw [List.mem_append, List.mem_singleton] at ha
      cases ha with
      | inl ha =>
        exact h.negTrans a z t ((List.pairwise_append.mp hp).2.2 a ha z (by simp)) hz
      | inr ha => rw [ha]; exact hz
  have htq : ∀ y ∈ q, pred y t = false := fun y hy => h.asymm t y (hq y hy)
  refine List.pairwise_append.mpr ⟨hp, List.pairwise_cons.mpr ⟨htq, hq'⟩, fun a ha y hy => ?_⟩
  cases hy with
  | head => exact hpt a ha
  | tail _ hy => exact hpq a ha y hy

theorem sortStep_outside (pred : α → α → Bool) (m : Nat → α) {j : Nat} (hj : j < b ∨ b + i < j) :
    sortStep pred b i m j = m j := by
  unfold sortStep
  split
  · rfl
  · obtain ⟨_, _, _, _, _, _, hout⟩ := insert_spec pred m b i
    exact hout j hj

/-- A round leaves the cells behind `sorted` alone. -/
theorem slice_sortStep (pred : α → α → Bool) (m : Nat → α) (b i left : Nat) :
    slice (sortStep pred b i m) b (i + 1 + left) =
      slice (sortStep pred b i m) b (i + 1) ++ slice m (b + (i + 1)) left := by
  rw [slice_add]
  congr 1
  exact slice_congr fun j _ => sortStep_outside pred m (.inr (by omega))

/-- One round: one more cell is sorted. -/
theorem sortStep_spec (h : StrictWeak pred) (hi : 0 < i) (hs : Sorted pred (slice m b i)) :
    Sorted pred (slice (sortStep pred b i m) b (i + 1)) ∧
      (slice (sortStep pred b i m) b (i + 1)).Perm (slice m b (i + 1)) := by
  by_cases hp : pred (m (b + i - 1)) (m (b + i)) = true
  · rw [sortStep, if_pos hp]
    refine ⟨?_, .refl _⟩
    rw [slice_succ]
    refine Sorted.insert h (by rwa [List.append_nil]) (by simp) fun y hy => ?_
    obtain ⟨k, rfl⟩ : ∃ k, i = k + 1 := ⟨i - 1, by omega⟩
    rw [slice_succ, List.getLast?_concat, Option.mem_def, Option.some.injEq] at hy
    rw [← hy]
    exact h.asymm _ _ hp
  · obtain ⟨p, q, hm, hm', hq, hlast, _⟩ := insert_spec pred m b i
    rw [sortStep, if_neg hp]
    refine ⟨?_, ?_⟩
    · show Sorted pred (slice _ b (i + 1))
      rw [hm']
      exact Sorted.insert h (by rwa [← hm]) hq hlast
    · show (slice _ b (i + 1)).Perm _
      rw [hm', slice_succ, hm, List.append_assoc]
      exact List.Perm.append_left p (List.perm_append_singleton _ _).symm

/-- The loop, by induction on the cells left. -/
theorem sortFrom_spec (h : StrictWeak pred) (b left : Nat) : ∀ {i : Nat} {m : Nat → α}, 0 < i →
    Sorted pred (slice m b i) → Sorted pred (slice (sortFrom pred b left i m) b (i + left)) ∧
      (slice (sortFrom pred b left i m) b (i + left)).Perm (slice m b (i + left)) ∧
      ∀ j, j < b ∨ b + i + left ≤ j → sortFrom pred b left i m j = m j := by
  induction left with
  | zero => intro i m _ hs; exact ⟨hs, .refl _, fun _ _ => rfl⟩
  | succ left ih =>
    intro i m hi hs
    obtain ⟨hs₁, hp₁⟩ := sortStep_spec h hi hs
    obtain ⟨hs₂, hp₂, ho₂⟩ := ih (Nat.succ_pos i) hs₁
    have hlen : i + (left + 1) = i + 1 + left := by omega
    rw [sortFrom, hlen]
    refine ⟨hs₂, hp₂.trans ?_, fun j hj => ?_⟩
    · rw [slice_sortStep, slice_add m]
      exact hp₁.append_right _
    · rw [ho₂ j (by omega), sortStep_outside pred m (by omega)]

/-- `insertion_sort` sorts the cells of the range and leaves the others alone. -/
theorem insertionSort_spec (h : StrictWeak pred) (hbe : b ≤ e) (m : Nat → α) :
    Sorted pred (slice (insertionSort pred m b e) b (e - b)) ∧
      (slice (insertionSort pred m b e) b (e - b)).Perm (slice m b (e - b)) ∧
      ∀ j, j < b ∨ e ≤ j → insertionSort pred m b e j = m j := by
  by_cases hshort : b = e ∨ b + 1 = e
  · rw [insertionSort, if_pos hshort]
    refine ⟨?_, .refl _, fun _ _ => rfl⟩
    have hlen : e - b = 0 ∨ e - b = 1 := by omega
    cases hlen with
    | inl hn => rw [hn]; exact .nil
    | inr hn => rw [hn]; exact List.pairwise_singleton _ _
  · have hone : Sorted pred (slice m b 1) := List.pairwise_singleton _ _
    obtain ⟨hs, hp, ho⟩ := sortFrom_spec h b (e - b - 1) Nat.one_pos hone
    have hlen : 1 + (e - b - 1) = e - b := by omega
    rw [hlen] at hs hp
    rw [insertionSort, if_neg hshort]
    exact ⟨hs, hp, fun j hj => ho j (by omega)⟩

end Correct
end Util
end TorexOS
