import Mathlib.Data.List.Basic

/-!
# TorexOS.Lib.Seek

A search from the front of a list, and the items it looks at.

* `examined`: the items up to the first with the property, which is the last one examined.
* `examined_eq_iff`: two lists are examined alike if they agree where the search has not ended yet.
* `find?_examined`: what is examined decides what is found.
-/

namespace Seek

variable {α : Type} {p : α → Bool} {xs ys : List α}

def examined (p : α → Bool) : List α → List α
  | [] => []
  | x :: xs => if p x then [x] else x :: examined p xs

@[simp] theorem find?_examined : (examined p xs).find? p = xs.find? p := by
  induction xs with
  | nil => rfl
  | cons x xs ih =>
    by_cases hx : p x
    · simp [examined, hx]
    · simp [examined, hx, ih]

/-- No item before position `i` has the property. -/
def Reaches (p : α → Bool) (xs : List α) (i : Nat) : Prop :=
  ∀ j, j < i → ∀ x, xs[j]? = some x → p x = false

theorem reaches_zero : Reaches p xs 0 := fun _ h => absurd h (Nat.not_lt_zero _)

theorem reaches_succ {x : α} {i : Nat} :
    Reaches p (x :: xs) (i + 1) ↔ p x = false ∧ Reaches p xs i := by
  constructor
  · intro h
    refine ⟨h 0 (Nat.succ_pos i) x rfl, fun j hj y hy => ?_⟩
    exact h (j + 1) (Nat.succ_lt_succ hj) y hy
  · rintro ⟨hx, h⟩ j hj y hy
    cases j with
    | zero =>
      obtain rfl : x = y := Option.some.inj hy
      exact hx
    | succ j => exact h j (Nat.lt_of_succ_lt_succ hj) y hy

theorem examined_ne_nil {x : α} : examined p (x :: xs) ≠ [] := by
  by_cases hx : p x
  · simp [examined, hx]
  · simp [examined, hx]

theorem examined_eq_iff :
    examined p xs = examined p ys ↔ ∀ i, Reaches p ys i → xs[i]? = ys[i]? := by
  induction ys generalizing xs with
  | nil =>
    cases xs with
    | nil => simp
    | cons x xs =>
      refine iff_of_false examined_ne_nil fun h => ?_
      cases h 0 reaches_zero
  | cons y ys ih =>
    cases xs with
    | nil =>
      refine iff_of_false examined_ne_nil.symm fun h => ?_
      cases h 0 reaches_zero
    | cons x xs =>
      constructor
      · intro h i hi
        have hxy : x = y := by
          have hh := congrArg List.head? h
          by_cases hx : p x <;> by_cases hy : p y <;> simpa [examined, hx, hy] using hh
        subst hxy
        cases i with
        | zero => rfl
        | succ i =>
          obtain ⟨hx, hi⟩ := reaches_succ.mp hi
          simp only [examined, hx, Bool.false_eq_true, if_false, List.cons.injEq, true_and] at h
          exact ih.mp h i hi
      · intro h
        obtain rfl : x = y := Option.some.inj (h 0 reaches_zero)
        by_cases hx : p x
        · simp [examined, hx]
        · have hrest : examined p xs = examined p ys :=
            ih.mpr fun i hi => h (i + 1) (reaches_succ.mpr ⟨by simpa using hx, hi⟩)
          simp [examined, hx, hrest]

end Seek
