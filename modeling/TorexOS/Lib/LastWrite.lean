/-!
# TorexOS.Lib.LastWrite

Stores read through one function and written through another, of which one write may be read at
several indices.

* `lastWrite p ops`: the value last written to an index with the property `p`.
* `get_run`: a run of writes leaves at `j` what was last written to an index that `j` reads.
-/

namespace LastWrite

variable {σ ι β : Type} {p q : ι → Bool} {ops : List (ι × β)} {i : ι} {v : β}

def lastWrite (p : ι → Bool) : List (ι × β) → Option β
  | [] => none
  | (i, v) :: ops => (lastWrite p ops).or (if p i then some v else none)

theorem lastWrite_congr (h : ∀ o ∈ ops, p o.1 = q o.1) : lastWrite p ops = lastWrite q ops := by
  induction ops with
  | nil => rfl
  | cons o ops ih =>
    rw [lastWrite, lastWrite, h o List.mem_cons_self, ih fun x hx => h x (List.mem_cons_of_mem _ hx)]

theorem lastWrite_eq_none (h : ∀ i, q i = true → p i = true) (hp : lastWrite p ops = none) :
    lastWrite q ops = none := by
  induction ops with
  | nil => rfl
  | cons o ops ih =>
    rw [lastWrite, Option.or_eq_none_iff] at hp ⊢
    refine ⟨ih hp.1, if_neg fun hq => ?_⟩
    rw [if_pos (h o.1 hq)] at hp
    cases hp.2

/-- If the write at `i` is read exactly where `reads i`, a run is read so too. -/
theorem get_run {get : σ → ι → β} {set : σ → ι → β → σ} {reads : ι → ι → Bool}
    (h : ∀ s i v j, get (set s i v) j = if reads i j then v else get s j) (s : σ) (j : ι) :
    get (ops.foldl (fun s o => set s o.1 o.2) s) j =
      (lastWrite (reads · j) ops).getD (get s j) := by
  induction ops generalizing s with
  | nil => rfl
  | cons o ops ih =>
    rw [List.foldl_cons, ih, h, lastWrite]
    cases lastWrite (reads · j) ops with
    | some w => rfl
    | none =>
      cases reads o.1 j with
      | false => rfl
      | true => rfl

end LastWrite
