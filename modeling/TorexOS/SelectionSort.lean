import Mathlib.Data.Nat.Basic
import Mathlib.Order.RelClasses
import TorexOS.SortCells

/-!
# TorexOS.SelectionSort

`util::selection_sort` of `algo/sort.h`, on the cells of `SortCells`.

* `minElement`, `iterSwap`, `selectionSort`: the functions of the source. Swapped with itself, a cell is
  moved out of twice.
* `selectionSort_run`: the sort ends and sorts.
* `sorts_agree`: over a total order it leaves what `insertion_sort` leaves.
-/

namespace TorexOS
namespace Util
namespace SortCells

open Function

variable {α : Type}

/-- The `for` loop of `min_element`. -/
def minLoop (pred : α → α → Bool) (b last : Nat) : Nat → Cells α → Nat → Nat → Option Nat
  | 0, _, _, _ => none
  | fuel + 1, m, first, smallest =>
    if first ≠ last then do
      let x ← deref b last m first
      let y ← deref b last m smallest
      minLoop pred b last fuel m (first + 1) (if pred x y then first else smallest)
    else some smallest

/-- `min_element(first, last, comp)` -/
def minElement (pred : α → α → Bool) (fuel : Nat) (m : Cells α) (first last : Nat) : Option Nat :=
  if first = last then some last else minLoop pred first last fuel m (first + 1) first

/-- `swap(*left, *right)` -/
def iterSwap (b e : Nat) (m : Cells α) (left right : Nat) : Option (Cells α) := do
  let (temp, m) ← take b e m left
  let (v, m) ← take b e m right
  let m ← put b e m left v
  put b e m right temp

/-- `selection_sort(begin, end)` -/
def selectionSort [LT α] [DecidableLT α] : Nat → Cells α → Nat → Nat → Option (Cells α)
  | 0, _, _, _ => none
  | fuel + 1, m, b, e =>
    if b = e ∨ b + 1 = e then some m
    else do
      let minElem ← minElement less fuel m b e
      let m ← iterSwap b e m b minElem
      selectionSort fuel m (b + 1) e

section Select

variable {m : Cells α} {b i : Nat} {xs ys : List α} {pred : α → α → Bool}

theorem Holds.deref {x : α} (h : Holds m b xs) (hx : xs[i]? = some x) :
    deref b (b + xs.length) m (b + i) = some x := by
  obtain ⟨hi, rfl⟩ := List.getElem?_eq_some_iff.mp hx
  rw [SortCells.deref, if_pos (by omega)]
  exact h i hi

/-- The element `x` at `s` is preceded by none of the first `i`. -/
def LeastOf (pred : α → α → Bool) (xs : List α) (i s : Nat) (x : α) : Prop :=
  xs[s]? = some x ∧ ∀ y ∈ xs.take i, pred y x = false

/-- A round of the loop: the smaller one of the two is least of one more. -/
theorem LeastOf.step (h : StrictWeak pred) {s : Nat} {x y : α} (hs : LeastOf pred xs i s x)
    (hy : xs[i]? = some y) :
    ∃ z, LeastOf pred xs (i + 1) (if pred y x then i else s) z := by
  obtain ⟨hx, hleast⟩ := hs
  have hmem : ∀ z ∈ xs.take (i + 1), z ∈ xs.take i ∨ z = y := fun z hz => by
    rwa [List.take_add_one, hy, Option.toList_some, List.mem_append, List.mem_singleton] at hz
  cases hp : pred y x with
  | true =>
    refine ⟨y, hy, fun z hz => ?_⟩
    rcases hmem z hz with hz | rfl
    · exact h.negTrans _ _ _ (h.asymm _ _ hp) (hleast z hz)
    · exact h.irrefl z
  | false =>
    refine ⟨x, hx, fun z hz => ?_⟩
    rcases hmem z hz with hz | rfl
    · exact hleast z hz
    · exact hp

theorem minLoop_run (h : StrictWeak pred) (hm : Holds m b xs) (left : Nat) :
    ∀ {fuel i s : Nat} {x : α}, LeastOf pred xs i s x → i + left = xs.length → left < fuel →
      ∃ s' x', minLoop pred b (b + xs.length) fuel m (b + i) (b + s) = some (b + s') ∧
        LeastOf pred xs xs.length s' x' := by
  induction left with
  | zero =>
    intro fuel i s x hs hi hf
    obtain ⟨fuel, rfl⟩ : ∃ f, fuel = f + 1 := ⟨fuel - 1, by omega⟩
    refine ⟨s, x, ?_, hi ▸ hs⟩
    rw [minLoop, if_neg (by omega)]
  | succ left ih =>
    intro fuel i s x hs hi hf
    obtain ⟨fuel, rfl⟩ : ∃ f, fuel = f + 1 := ⟨fuel - 1, by omega⟩
    have hy : xs[i]? = some xs[i] := List.getElem?_eq_getElem (by omega)
    obtain ⟨z, hz⟩ := hs.step h hy
    obtain ⟨s', x', hrun, hs'⟩ := @ih fuel _ _ z hz (by omega) (by omega)
    refine ⟨s', x', ?_, hs'⟩
    rw [minLoop, if_pos (by omega), hm.deref hy, hm.deref hs.1, ← hrun]
    simp only [Option.bind_eq_bind, Option.bind_some, Nat.add_assoc, apply_ite (b + ·)]

theorem minElement_run (h : StrictWeak pred) (hm : Holds m b xs) (hne : 0 < xs.length) {fuel : Nat}
    (hf : xs.length ≤ fuel) :
    ∃ s x, minElement pred fuel m b (b + xs.length) = some (b + s) ∧ xs[s]? = some x ∧
      ∀ y ∈ xs, pred y x = false := by
  have hfirst : LeastOf pred xs 1 0 xs[0] := by
    refine ⟨List.getElem?_eq_getElem hne, fun y hy => ?_⟩
    rw [List.take_add_one, List.take_zero, List.getElem?_eq_getElem hne] at hy
    rw [List.mem_singleton.mp hy]
    exact h.irrefl _
  obtain ⟨s, x, hrun, hx, hleast⟩ :=
    @minLoop_run _ m b xs pred h hm (xs.length - 1) fuel 1 0 _ hfirst (by omega) (by omega)
  rw [List.take_length] at hleast
  rw [minElement, if_neg (by omega)]
  exact ⟨s, x, hrun, hx, hleast⟩

/-- Two elements change places, or one keeps its place. -/
theorem iterSwap_run (hm : Holds m b xs) {i j : Nat} (hi : i < xs.length) (hj : j < xs.length) :
    ∃ m', iterSwap b (b + xs.length) m (b + i) (b + j) = some m' ∧
      Holds m' b ((xs.set i xs[j]).set j xs[i]) ∧
      ∀ k, k < b ∨ b + xs.length ≤ k → m' k = m k := by
  refine ⟨update (update (update (update m (b + i) none) (b + j) none) (b + i)
    (update m (b + i) none (b + j))) (b + j) (some xs[i]), ?_, fun k hk => ?_, fun k hk => ?_⟩
  · have hri : b ≤ b + i ∧ b + i < b + xs.length := by omega
    have hrj : b ≤ b + j ∧ b + j < b + xs.length := by omega
    simp only [iterSwap, take, put, if_pos hri, if_pos hrj, hm i hi, Option.bind_eq_bind,
      Option.bind_some]
  · rw [List.length_set, List.length_set] at hk
    rw [List.getElem_set]
    by_cases hkj : j = k
    · rw [if_pos hkj, hkj, update_self]
    · rw [if_neg hkj, List.getElem_set, update_of_ne (by omega)]
      by_cases hki : i = k
      · rw [if_pos hki, hki, update_self, update_of_ne (by omega), hm j hj]
      · rw [if_neg hki, update_of_ne (by omega), update_of_ne (by omega), update_of_ne (by omega),
          hm k hk]
  · rw [update_of_ne (by omega), update_of_ne (by omega), update_of_ne (by omega),
      update_of_ne (by omega)]

theorem Holds.tail {x : α} (h : Holds m b (x :: xs)) : Holds m (b + 1) xs := by
  intro i hi
  have hx := h (i + 1) (Nat.succ_lt_succ hi)
  rwa [show b + (i + 1) = b + 1 + i by omega, List.getElem_cons_succ] at hx

theorem Holds.cons {x : α} (hx : m b = some x) (h : Holds m (b + 1) xs) : Holds m b (x :: xs) := by
  intro i hi
  cases i with
  | zero => exact hx
  | succ i =>
    rw [show b + (i + 1) = b + 1 + i by omega, List.getElem_cons_succ]
    exact h i (Nat.lt_of_succ_lt_succ hi)

theorem Holds.unique {m₁ m₂ : Cells α} (h₁ : Holds m₁ b ys) (h₂ : Holds m₂ b ys)
    (hout₁ : ∀ j, j < b ∨ b + ys.length ≤ j → m₁ j = m j)
    (hout₂ : ∀ j, j < b ∨ b + ys.length ≤ j → m₂ j = m j) : m₁ = m₂ := by
  funext j
  by_cases hj : b ≤ j ∧ j < b + ys.length
  · obtain ⟨i, rfl⟩ : ∃ i, j = b + i := ⟨j - b, by omega⟩
    rw [h₁ i (by omega), h₂ i (by omega)]
  · rw [hout₁ j (by omega), hout₂ j (by omega)]

/-- A round: the first element is one that none of the others precedes. -/
theorem select_step (h : StrictWeak pred) (hm : Holds m b xs) (hne : 0 < xs.length) {fuel : Nat}
    (hf : xs.length ≤ fuel) :
    ∃ s m' z zs, minElement pred fuel m b (b + xs.length) = some s ∧
      iterSwap b (b + xs.length) m b s = some m' ∧ Holds m' b (z :: zs) ∧ (z :: zs).Perm xs ∧
      (∀ y ∈ zs, pred y z = false) ∧ ∀ k, k < b ∨ b + xs.length ≤ k → m' k = m k := by
  obtain ⟨s, x, hmin, hx, hleast⟩ := minElement_run h hm hne hf
  obtain ⟨hs, rfl⟩ := List.getElem?_eq_some_iff.mp hx
  obtain ⟨m', hswap, hm', hout⟩ := iterSwap_run hm hne hs
  have hperm := List.set_set_perm hne hs
  have hzero : ((xs.set 0 xs[s]).set s xs[0])[0]? = some xs[s] := by
    rw [List.getElem?_set, List.getElem?_set]
    split
    · rename_i hs0
      subst hs0
      simp [List.ne_nil_of_length_pos hne]
    · simp
  cases hzs : (xs.set 0 xs[s]).set s xs[0] with
  | nil => rw [hzs] at hzero; cases hzero
  | cons z zs =>
    rw [hzs] at hzero hm' hperm
    obtain rfl : z = xs[s] := Option.some.inj hzero
    refine ⟨b + s, m', xs[s], zs, hmin, hswap, hm', hperm, fun y hy => ?_, hout⟩
    exact hleast y (hperm.mem_iff.mp (List.mem_cons_of_mem _ hy))

/-- The sort ends and sorts, by induction on the number of elements. -/
theorem selectionSort_run [LT α] [DecidableLT α] (h : StrictWeak (less : α → α → Bool)) (n : Nat) :
    ∀ {fuel b : Nat} {m : Cells α} {xs : List α}, xs.length = n → Holds m b xs → n < fuel →
      ∃ m' ys, selectionSort fuel m b (b + n) = some m' ∧ Holds m' b ys ∧ ys.Perm xs ∧
        Sorted less ys ∧ ∀ j, j < b ∨ b + n ≤ j → m' j = m j := by
  induction n with
  | zero =>
    intro fuel b m xs hn hm hf
    obtain ⟨fuel, rfl⟩ : ∃ f, fuel = f + 1 := ⟨fuel - 1, by omega⟩
    obtain rfl := List.length_eq_zero_iff.mp hn
    refine ⟨m, [], ?_, hm, .refl _, .nil, fun _ _ => rfl⟩
    rw [selectionSort, if_pos (.inl rfl)]
  | succ n ih =>
    intro fuel b m xs hn hm hf
    obtain ⟨fuel, rfl⟩ : ∃ f, fuel = f + 1 := ⟨fuel - 1, by omega⟩
    rw [selectionSort]
    by_cases hone : n = 0
    · subst hone
      obtain ⟨x, rfl⟩ := List.length_eq_one_iff.mp hn
      refine ⟨m, [x], ?_, hm, .refl _, List.pairwise_singleton _ _, fun _ _ => rfl⟩
      rw [if_pos (.inr rfl)]
    · obtain ⟨s, m₁, z, zs, hmin, hswap, hm₁, hperm, hz, hout₁⟩ :=
        select_step h hm (by omega) (by omega : xs.length ≤ fuel)
      have hlen : zs.length = n := by
        have := hperm.length_eq
        rw [List.length_cons] at this
        omega
      obtain ⟨m₂, ys, hrun, hys, hperm₂, hsorted, hout₂⟩ :=
        @ih fuel (b + 1) m₁ zs hlen hm₁.tail (by omega)
      refine ⟨m₂, z :: ys, ?_, ?_, (hperm₂.cons z).trans hperm, ?_, fun j hj => ?_⟩
      · rw [if_neg (by omega), ← hn, hmin]
        simp only [Option.bind_eq_bind, Option.bind_some, hswap]
        rw [hn, show b + (n + 1) = b + 1 + n by omega]
        exact hrun
      · refine hys.cons ?_
        rw [hout₂ b (.inl (Nat.lt_succ_self b))]
        exact hm₁ 0 (Nat.succ_pos _)
      · exact List.pairwise_cons.mpr ⟨fun y hy => hz y (hperm₂.mem_iff.mp hy), hsorted⟩
      · rw [hout₂ j (by omega), hout₁ j (by omega)]

end Select

/-! ## Agreement -/

section Agree

variable [LT α] [DecidableLT α] {m : Cells α} {b : Nat} {xs ys zs : List α}

theorem less_of_strictTotal (h : IsStrictTotalOrder α (· < ·)) :
    StrictWeak (less : α → α → Bool) := by
  refine ⟨fun a b hab => ?_, fun a b c hba hcb => ?_⟩
  · simp only [less, decide_eq_true_eq, decide_eq_false_iff_not] at hab ⊢
    exact fun hba => h.irrefl a (h.trans a b a hab hba)
  · simp only [less, decide_eq_false_iff_not] at hba hcb ⊢
    intro hca
    rcases trichotomous_of (· < ·) a b with hab | rfl | hba'
    · exact hcb (h.trans c a b hca hab)
    · exact hcb hca
    · exact hba hba'

theorem sorted_unique (h : IsStrictTotalOrder α (· < ·)) (hy : Sorted less ys)
    (hz : Sorted less zs) (hp : ys.Perm zs) : ys = zs := by
  refine hp.eq_of_pairwise (fun a b _ _ hba hab => ?_) hy hz
  simp only [less, decide_eq_false_iff_not] at hba hab
  rcases trichotomous_of (· < ·) a b with hlt | heq | hlt
  · exact absurd hlt hab
  · exact heq
  · exact absurd hlt hba

/-- Over a total order the two sorts return, with the same cells. -/
theorem sorts_agree (h : IsStrictTotalOrder α (· < ·)) (hm : Holds m b xs) :
    ∃ m' ys, Returns (fun fuel => selectionSort fuel m b (b + xs.length)) m' ∧
      Returns (fun fuel => insertionSortLess fuel m b (b + xs.length)) m' ∧ Holds m' b ys ∧
      ys.Perm xs := by
  have hw := less_of_strictTotal h
  obtain ⟨m', ys, hins, hys, hp, hs, _, hout⟩ := insertionSort_sorts hw m b xs hm
  refine ⟨m', ys, ⟨xs.length + 1, fun fuel hf => ?_⟩, hins, hys, hp⟩
  obtain ⟨m₂, zs, hsel, hzs, hp₂, hs₂, hout₂⟩ := selectionSort_run hw xs.length rfl hm hf
  obtain rfl := sorted_unique h hs₂ hs (hp₂.trans hp.symm)
  rw [← hp.length_eq] at hout hout₂
  rw [hys.unique hzs hout hout₂]
  exact hsel

end Agree

def threeNumbers : Cells Nat := fun i => [1, 3, 2][i]?

/-- Of three numbers the first one is swapped with itself. -/
theorem sorts_agree_three : ∃ m' ys, Returns (fun fuel => selectionSort fuel threeNumbers 0 3) m' ∧
    Returns (fun fuel => insertionSortLess fuel threeNumbers 0 3) m' ∧ Holds m' 0 ys ∧
    ys.Perm [1, 3, 2] := by
  have horder : IsStrictTotalOrder Nat (· < ·) := inferInstance
  have hm : Holds threeNumbers 0 [1, 3, 2] := fun i hi => by
    rw [Nat.zero_add]
    exact List.getElem?_eq_getElem hi
  exact sorts_agree horder hm

example : (selectionSort 4 threeNumbers 0 3).map (fun m => (List.range 4).map m) =
    some [some 1, some 2, some 3, none] := by decide

end SortCells
end Util
end TorexOS
