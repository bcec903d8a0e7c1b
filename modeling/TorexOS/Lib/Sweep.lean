import Mathlib.Data.List.TakeWhile
import Mathlib.Order.Basic

/-!
# TorexOS.Lib.Sweep

A sweep over ordered ranges: as the point grows, the cursor only moves forward.

* `Ordered has xs`: the points an item has are below the points of every later item.
* `At has xs x ys`: `ys` is the part of `xs` from the item that has the point `x` on.
* `At.advance`: skipping the items that do not have a later point finds the one that does, if any.
-/

namespace Sweep

variable {α P : Type} {has : α → P → Bool} {xs ys zs : List α} {x y : P} {a b : α}

/-- Each point of an earlier item is below each point of a later one. -/
def Ordered [LT P] (has : α → P → Bool) (xs : List α) : Prop :=
  xs.Pairwise fun a b => ∀ x y, has a x → has b y → x < y

/-- Some item has the point. -/
def Covered (has : α → P → Bool) (xs : List α) (x : P) : Prop := ∃ a ∈ xs, has a x

/-- Skip the items that do not have the point. -/
def skip (has : α → P → Bool) (x : P) (xs : List α) : List α := xs.dropWhile fun a => !has a x

structure At (has : α → P → Bool) (xs : List α) (x : P) (ys : List α) : Prop where
  suffix : ys <:+ xs
  head : ∃ a zs, ys = a :: zs ∧ has a x

theorem skip_of_has (h : has a x) : skip has x (a :: xs) = a :: xs := by
  rw [skip, List.dropWhile_cons_of_neg (by simp [h])]

theorem skip_eq_nil (h : ¬ Covered has xs x) : skip has x xs = [] := by
  rw [skip, List.dropWhile_eq_nil_iff]
  intro a ha
  cases hx : has a x with
  | false => rfl
  | true => exact absurd ⟨a, ha, hx⟩ h

/-- Of the list itself or of what is left of it. -/
theorem At.of_skip (hs : ys <:+ xs) (h : Covered has ys x) : At has xs x (skip has x ys) where
  suffix := (List.dropWhile_suffix _).trans hs
  head := by
    cases hd : skip has x ys with
    | nil =>
      obtain ⟨a, ha, hx⟩ := h
      have hno := List.dropWhile_eq_nil_iff.mp hd a ha
      simp [hx] at hno
    | cons a zs =>
      refine ⟨a, zs, rfl, ?_⟩
      have hne : skip has x ys ≠ [] := by simp [hd]
      have hh := List.head_dropWhile_not (fun a => !has a x) hne
      simp only [skip] at hd
      simpa [hd] using hh

theorem At.covered (h : At has xs x ys) : Covered has xs x := by
  obtain ⟨a, zs, hys, hx⟩ := h.head
  refine ⟨a, h.suffix.subset ?_, hx⟩
  rw [hys]
  exact List.mem_cons_self ..

section Order

variable [Preorder P]

/-- No item passed has the point or a later one. -/
theorem At.covered_rest (ho : Ordered has xs) (h : At has xs x ys) (hxy : x ≤ y)
    (hy : Covered has xs y) : Covered has ys y := by
  obtain ⟨a, zs, rfl, hx⟩ := h.head
  obtain ⟨passed, rfl⟩ := h.suffix
  obtain ⟨b, hb, hby⟩ := hy
  refine ⟨b, ?_, hby⟩
  cases List.mem_append.mp hb with
  | inl hp =>
    have hlt := (List.pairwise_append.mp ho).2.2 b hp a (List.mem_cons_self ..) y x hby hx
    exact absurd (lt_of_lt_of_le hlt hxy) (lt_irrefl y)
  | inr hr => exact hr

/-- The cursor moves to a later point. -/
theorem At.advance (ho : Ordered has xs) (h : At has xs x ys) (hxy : x ≤ y)
    (hy : Covered has xs y) : At has xs y (skip has y ys) :=
  .of_skip h.suffix (h.covered_rest ho hxy hy)

/-- A point is in one item at most. -/
theorem Ordered.unique (ho : Ordered has xs) (ha : a ∈ xs) (hb : b ∈ xs) (hax : has a x)
    (hbx : has b x) : a = b := by
  induction xs with
  | nil => cases ha
  | cons c xs ih =>
    obtain ⟨hc, ho⟩ := List.pairwise_cons.mp ho
    cases ha with
    | head =>
      cases hb with
      | head => rfl
      | tail _ hb => exact absurd (hc b hb x x hax hbx) (lt_irrefl x)
    | tail _ ha =>
      cases hb with
      | head => exact absurd (hc a ha x x hbx hax) (lt_irrefl x)
      | tail _ hb => exact ih ho ha hb

end Order
end Sweep
