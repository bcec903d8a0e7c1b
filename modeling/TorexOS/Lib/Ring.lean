import Mathlib.Logic.Function.Basic
import Mathlib.Data.Nat.ModEq

/-!
# TorexOS.Lib.Ring

A list stored around a ring of `n` cells.

* `Holds n data f xs`: the cells `f`, `f + 1`, ... taken modulo `n` hold `xs`.
* `Holds.push`, `Holds.pop`: a list grows at its end and shrinks at its front.
* `Fifo.exec`: the bounded first-in-first-out list that such a ring implements.
* `outputs`, `outputs_refines`: the results of a sequence of operations, and that they are those of
  any machine simulated step by step.
-/

namespace Ring

variable {α : Type} {n f i : Nat} {data : Nat → α} {x : α} {xs ys : List α}

structure Holds (n : Nat) (data : Nat → α) (f : Nat) (xs : List α) : Prop where
  length_le : xs.length ≤ n
  get : ∀ i, i < xs.length → xs[i]? = some (data ((f + i) % n))

theorem holds_nil (n : Nat) (data : Nat → α) (f : Nat) : Holds n data f [] :=
  ⟨Nat.zero_le _, fun i hi => absurd hi (Nat.not_lt_zero i)⟩

/-- The next cell, as code that never divides computes it. -/
theorem succ_mod (h : i < n) : (i + 1) % n = if i + 1 = n then 0 else i + 1 := by
  split
  · rename_i he
    rw [he, Nat.mod_self]
  · exact Nat.mod_eq_of_lt (by omega)

/-- The cells in use are apart from the one after them. -/
theorem cell_ne (hi : i < xs.length) (hn : xs.length < n) :
    (f + i) % n ≠ (f + xs.length) % n := by
  intro h
  have hmod : i ≡ xs.length [MOD n] := Nat.ModEq.add_left_cancel' f h
  have := hmod.eq_of_lt_of_lt (by omega) hn
  omega

/-- First and last position meet when the ring holds nothing, or is full. -/
theorem meet_iff (hf : f < n) (hle : xs.length ≤ n) :
    f = (f + xs.length) % n ↔ xs = [] ∨ xs.length = n := by
  constructor
  · intro h
    rcases Nat.lt_or_eq_of_le hle with hlt | heq
    · have hmod : f + 0 ≡ f + xs.length [MOD n] := by
        rw [Nat.ModEq, ← h, Nat.add_zero, Nat.mod_eq_of_lt hf]
      have := (Nat.ModEq.add_left_cancel' f hmod).eq_of_lt_of_lt (by omega) hlt
      exact .inl (List.length_eq_zero_iff.mp this.symm)
    · exact .inr heq
  · intro h
    cases h with
    | inl h => rw [h, List.length_nil, Nat.add_zero, Nat.mod_eq_of_lt hf]
    | inr h => rw [h, Nat.add_mod_right, Nat.mod_eq_of_lt hf]

theorem Holds.push (h : Holds n data f xs) (hlt : xs.length < n) (x : α) :
    Holds n (Function.update data ((f + xs.length) % n) x) f (xs ++ [x]) := by
  refine ⟨by rw [List.length_append, List.length_singleton]; omega, fun i hi => ?_⟩
  rw [List.length_append, List.length_singleton] at hi
  by_cases hx : i = xs.length
  · rw [hx, Function.update_self, List.getElem?_append_right (Nat.le_refl _), Nat.sub_self]
    rfl
  · have hix : i < xs.length := by omega
    rw [Function.update_of_ne (cell_ne hix hlt), List.getElem?_append_left hix, h.get i hix]

theorem Holds.front (h : Holds n data f (x :: xs)) : data (f % n) = x := by
  have := h.get 0 (by simp)
  rw [Nat.add_zero] at this
  exact (Option.some.inj this).symm

theorem Holds.pop (h : Holds n data f (x :: xs)) : Holds n data (f + 1) xs := by
  refine ⟨by have := h.length_le; rw [List.length_cons] at this; omega, fun i hi => ?_⟩
  have := h.get (i + 1) (by rw [List.length_cons]; omega)
  rw [List.getElem?_cons_succ] at this
  rw [this, Nat.add_right_comm, Nat.add_assoc]

/-- The start counts modulo `n`. -/
theorem Holds.start (h : Holds n data f xs) {g : Nat} (hg : g % n = f % n) : Holds n data g xs := by
  refine ⟨h.length_le, fun i hi => ?_⟩
  rw [h.get i hi, Nat.add_mod g, hg, ← Nat.add_mod]

end Ring

namespace Fifo

variable {α : Type}

inductive Op (α : Type) where
  | push (x : α)
  | pop
  | front
  | empty
  | full

inductive Result (α : Type) where
  | done
  | elem (x : α)
  | flag (b : Bool)
  deriving DecidableEq

/-- One operation on a list of at most `n` elements; there is no front of the empty list. -/
def exec [Inhabited α] (n : Nat) (xs : List α) : Op α → Option (Result α × List α)
  | .push x => some (.done, if xs.length < n then xs ++ [x] else xs)
  | .pop =>
    match xs with
    | [] => some (.elem default, [])
    | x :: xs => some (.elem x, xs)
  | .front =>
    match xs with
    | [] => none
    | x :: xs => some (.elem x, x :: xs)
  | .empty => some (.flag xs.isEmpty, xs)
  | .full => some (.flag (xs.length == n), xs)

end Fifo

namespace Machine

variable {σ τ ι ρ : Type}

/-- The results of the operations, and the last state. -/
def outputs (exec : σ → ι → Option (ρ × σ)) : σ → List ι → Option (List ρ × σ)
  | s, [] => some ([], s)
  | s, i :: ops =>
    match exec s i with
    | none => none
    | some (r, s) =>
      match outputs exec s ops with
      | none => none
      | some (rs, s) => some (r :: rs, s)

/-- What holds of one operation of two machines related by `R` holds of sequences of them. -/
theorem outputs_refines {exec : σ → ι → Option (ρ × σ)} {spec : τ → ι → Option (ρ × τ)}
    {R : σ → τ → Prop}
    (hstep : ∀ s t i r t', R s t → spec t i = some (r, t') → ∃ s', exec s i = some (r, s') ∧ R s' t')
    {ops : List ι} : ∀ {s : σ} {t t' : τ} {rs : List ρ}, R s t → outputs spec t ops = some (rs, t') →
      ∃ s', outputs exec s ops = some (rs, s') ∧ R s' t' := by
  induction ops with
  | nil =>
    intro s t t' rs hR h
    cases h
    exact ⟨s, rfl, hR⟩
  | cons i ops ih =>
    intro s t t' rs hR h
    simp only [outputs] at h
    split at h
    · cases h
    · rename_i r t1 h1
      split at h
      · cases h
      · rename_i rs1 t2 h2
        cases h
        obtain ⟨s1, hs1, hR1⟩ := hstep _ _ _ _ _ hR h1
        obtain ⟨s2, hs2, hR2⟩ := ih hR1 h2
        refine ⟨s2, ?_, hR2⟩
        simp only [outputs, hs1, hs2]

end Machine
