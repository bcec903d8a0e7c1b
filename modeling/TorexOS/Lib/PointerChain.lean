import Mathlib.Data.List.Range

/-!
# TorexOS.Lib.PointerChain

Cells chained by pointers.

* `Chain next nil p as`: following `next` from `p` meets the cells `as`, then `nil`.
* `Chain.congr`, `Chain.push`: a chain looks at its own cells only; a cell is put in front of it.
* `Chain.prepend`: cells that each point to the next one are put in front of a chain.
-/

namespace PointerChain

variable {π : Type} {next next' : π → π} {nil p a : π} {as : List π}

def Chain (next : π → π) (nil : π) : π → List π → Prop
  | p, [] => p = nil
  | p, a :: as => p = a ∧ a ≠ nil ∧ Chain next nil (next a) as

theorem Chain.congr (hc : Chain next nil p as) (h : ∀ a ∈ as, next' a = next a) :
    Chain next' nil p as := by
  induction as generalizing p with
  | nil => exact hc
  | cons a as ih =>
    refine ⟨hc.1, hc.2.1, ?_⟩
    rw [h a List.mem_cons_self]
    exact ih hc.2.2 fun b hb => h b (List.mem_cons_of_mem _ hb)

theorem Chain.push (hc : Chain next nil p as) (ha : a ≠ nil) (hp : next' a = p)
    (h : ∀ b ∈ as, next' b = next b) : Chain next' nil a (a :: as) := by
  refine ⟨rfl, ha, ?_⟩
  rw [hp]
  exact hc.congr h

/-- The cells `f i`, ..., `f (i + n)`, of which the last points to the start of the chain. -/
theorem Chain.prepend {f : Nat → π} {n : Nat} (hc : Chain next nil p as) :
    ∀ {i : Nat}, (∀ j, i ≤ j → j ≤ i + n → f j ≠ nil) →
      (∀ j, i ≤ j → j < i + n → next (f j) = f (j + 1)) → next (f (i + n)) = p →
      Chain next nil (f i) ((List.range' i (n + 1)).map f ++ as) := by
  induction n with
  | zero =>
    intro i hne _ hl
    refine ⟨rfl, hne i (Nat.le_refl i) (Nat.le_refl i), ?_⟩
    rw [show next (f i) = p from hl]
    exact hc
  | succ n ih =>
    intro i hne hn hl
    rw [List.range'_succ]
    refine ⟨rfl, hne i (Nat.le_refl i) (by omega), ?_⟩
    rw [hn i (Nat.le_refl i) (by omega)]
    refine ih (fun j hj hjn => hne j (by omega) (by omega))
      (fun j hj hjn => hn j (by omega) (by omega)) ?_
    rwa [show i + 1 + n = i + (n + 1) by omega]

end PointerChain
