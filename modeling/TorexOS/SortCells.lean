import TorexOS.Sort

/-!
# TorexOS.SortCells

The sorts of `algo/sort.h` with their moves, on cells that may be moved out of.

* `deref`, `take`, `put`: a comparison of `*it`, and a move out of and into `*it`. They fail outside
  `[begin, end)`, and so does a comparison of a cell that was moved out of.
* `insertionSort`: the loops of the source, which do not fail with fuel enough.
* `insertionSort_run`: what they leave is what `Util.insertionSort` computes.
* `sorts_stably`: equivalent elements keep their order.
-/

namespace TorexOS
namespace Util

/-- Values and, where something was moved out, none. -/
abbrev Cells (α : Type) := Nat → Option α

namespace SortCells

open Function

variable {α : Type}

/-- `*it`, to be compared. -/
def deref (b e : Nat) (m : Cells α) (it : Nat) : Option α :=
  if b ≤ it ∧ it < e then m it else none

/-- `move(*it)`: what was there, and the cells without it. -/
def take (b e : Nat) (m : Cells α) (it : Nat) : Option (Option α × Cells α) :=
  if b ≤ it ∧ it < e then some (m it, update m it none) else none

/-- `*it = move(v)` -/
def put (b e : Nat) (m : Cells α) (it : Nat) (v : Option α) : Option (Cells α) :=
  if b ≤ it ∧ it < e then some (update m it v) else none

/-- The `do` loop, from `cur` down: the cells and `cur` after it. -/
def sinkLoop (pred : α → α → Bool) (b e : Nat) (temp : Option α) :
    Nat → Cells α → Nat → Option (Cells α × Nat)
  | 0, _, _ => none
  | fuel + 1, m, cur => do
    let cur := cur - 1
    let t ← temp
    let x ← deref b e m cur
    if !pred t x then
      some (m, cur + 1)
    else
      let (v, m) ← take b e m cur
      let m ← put b e m (cur + 1) v
      if cur ≠ b then sinkLoop pred b e temp fuel m cur else some (m, cur)

/-- The `while` loop. -/
def sortLoop (pred : α → α → Bool) (b e : Nat) : Nat → Cells α → Nat → Option (Cells α)
  | 0, _, _ => none
  | fuel + 1, m, sorted =>
    let sorted := sorted + 1
    if sorted = e then some m
    else do
      let x ← deref b e m (sorted - 1)
      let y ← deref b e m sorted
      if pred x y then
        sortLoop pred b e fuel m sorted
      else
        let cur := sorted
        let (temp, m) ← take b e m sorted
        let (m, cur) ← sinkLoop pred b e temp fuel m cur
        let m ← put b e m cur temp
        sortLoop pred b e fuel m sorted

/-- `insertion_sort(begin, end, pred)` -/
def insertionSort (pred : α → α → Bool) (fuel : Nat) (m : Cells α) (b e : Nat) :
    Option (Cells α) :=
  if b = e ∨ b + 1 = e then some m else sortLoop pred b e fuel m b

/-- `operator<` -/
def less [LT α] [DecidableLT α] (x y : α) : Bool := decide (x < y)

/-- `insertion_sort(begin, end)` -/
def insertionSortLess [LT α] [DecidableLT α] (fuel : Nat) (m : Cells α) (b e : Nat) :
    Option (Cells α) :=
  insertionSort less fuel m b e

/-! ## Specification -/

/-- The array `xs` is in the cells from `b` on. -/
def Holds (m : Cells α) (b : Nat) (xs : List α) : Prop :=
  ∀ i (h : i < xs.length), m (b + i) = some xs[i]

/-- With fuel enough the run returns `r`. -/
def Returns {τ : Type} (run : Nat → Option τ) (r : τ) : Prop :=
  ∃ bound, ∀ fuel, bound ≤ fuel → run fuel = some r

/-- Neither precedes the other. -/
def equivalent (pred : α → α → Bool) (x y : α) : Bool := !pred x y && !pred y x

/-- Every array is replaced by a sorted permutation of it, with the elements equivalent to any one in the
order they had, and nothing else is touched. -/
def SortsStably (pred : α → α → Bool)
    (sort : Nat → Cells α → Nat → Nat → Option (Cells α)) : Prop :=
  ∀ (m : Cells α) (b : Nat) (xs : List α), Holds m b xs →
    ∃ m' ys, Returns (fun fuel => sort fuel m b (b + xs.length)) m' ∧ Holds m' b ys ∧
      ys.Perm xs ∧ Sorted pred ys ∧
      (∀ v, ys.filter (equivalent pred v) = xs.filter (equivalent pred v)) ∧
      ∀ j, j < b ∨ b + xs.length ≤ j → m' j = m j

/-! ## Moves -/

/-- The cells hold the values of `v`. -/
def Agree (b e : Nat) (m : Cells α) (v : Nat → α) : Prop :=
  ∀ j, b ≤ j → j < e → m j = some (v j)

/-- The same but for one cell, which was moved out of. -/
def AgreeBut (hole b e : Nat) (m : Cells α) (v : Nat → α) : Prop :=
  m hole = none ∧ ∀ j, b ≤ j → j < e → j ≠ hole → m j = some (v j)

section Moves

variable {m m' : Cells α} {v : Nat → α} {b e it hole i k : Nat} {pred : α → α → Bool} {t : α}

theorem deref_agree (h : Agree b e m v) (hb : b ≤ it) (he : it < e) :
    deref b e m it = some (v it) := by
  rw [deref, if_pos ⟨hb, he⟩]
  exact h it hb he

theorem deref_agreeBut (h : AgreeBut hole b e m v) (hb : b ≤ it) (he : it < e) (hh : it ≠ hole) :
    deref b e m it = some (v it) := by
  rw [deref, if_pos ⟨hb, he⟩]
  exact h.2 it hb he hh

theorem take_agree (h : Agree b e m v) (hb : b ≤ it) (he : it < e) :
    take b e m it = some (some (v it), update m it none) ∧
      AgreeBut it b e (update m it none) v := by
  refine ⟨?_, update_self _ _ _, fun j hj hje hne => ?_⟩
  · rw [take, if_pos ⟨hb, he⟩, h it hb he]
  · rw [update_of_ne hne]
    exact h j hj hje

theorem put_agreeBut (t : α) (h : AgreeBut hole b e m v) (hb : b ≤ hole) (he : hole < e) :
    put b e m hole (some t) = some (update m hole (some t)) ∧
      Agree b e (update m hole (some t)) (update v hole t) := by
  refine ⟨by rw [put, if_pos ⟨hb, he⟩], fun j hj hje => ?_⟩
  by_cases hne : j = hole
  · rw [hne, update_self, update_self]
  · rw [update_of_ne hne, update_of_ne hne]
    exact h.2 j hj hje hne

/-- Moving a cell into the hole above it moves the hole down. -/
theorem move_agreeBut (h : AgreeBut (it + 1) b e m v) (hb : b ≤ it) (he : it + 1 < e) :
    ∃ m', (take b e m it >>= fun r => put b e r.2 (it + 1) r.1) = some m' ∧
      AgreeBut it b e m' (update v (it + 1) (v it)) ∧ ∀ j, j < b ∨ e ≤ j → m' j = m j := by
  have hit : m it = some (v it) := h.2 it hb (by omega) (by omega)
  refine ⟨update (update m it none) (it + 1) (some (v it)), ?_, ⟨?_, fun j hj hje hne => ?_⟩,
    fun j hj => ?_⟩
  · rw [take, if_pos ⟨hb, by omega⟩, hit]
    show put _ _ _ _ _ = _
    rw [put, if_pos ⟨by omega, he⟩]
  · rw [update_of_ne (by omega), update_self]
  · by_cases hj1 : j = it + 1
    · rw [hj1, update_self, update_self]
    · rw [update_of_ne hj1, update_of_ne hne, update_of_ne hj1]
      exact h.2 j hj hje hj1
  · rw [update_of_ne (by omega), update_of_ne (by omega)]

theorem sinkLoop_cur (pred : α → α → Bool) (t : α) (b k : Nat) (v : Nat → α) :
    b ≤ (Util.sinkLoop pred t b k v).2 ∧ (Util.sinkLoop pred t b k v).2 ≤ b + k := by
  obtain ⟨p, q, hs, hpos, _⟩ := sinkLoop_spec pred t b k v
  have hlen := congrArg List.length hs
  rw [length_slice, List.length_append] at hlen
  rw [hpos]
  omega

theorem sinkLoop_stop {fuel : Nat} (h : AgreeBut (b + k + 1) b e m v) (he : b + k + 1 < e)
    (hp : pred t (v (b + k)) = false) :
    sinkLoop pred b e (some t) (fuel + 1) m (b + k + 1) = some (m, b + k + 1) := by
  have hx : deref b e m (b + k) = some (v (b + k)) :=
    deref_agreeBut h (Nat.le_add_right b k) (by omega) (by omega)
  rw [sinkLoop, Nat.add_sub_cancel, hx]
  simp [hp]

theorem sinkLoop_move (fuel : Nat) (h : AgreeBut (b + k + 1) b e m v) (he : b + k + 1 < e)
    (hp : pred t (v (b + k)) = true) :
    ∃ m', sinkLoop pred b e (some t) (fuel + 1) m (b + k + 1) =
        (if b + k ≠ b then sinkLoop pred b e (some t) fuel m' (b + k) else some (m', b + k)) ∧
      AgreeBut (b + k) b e m' (update v (b + k + 1) (v (b + k))) ∧
      ∀ j, j < b ∨ e ≤ j → m' j = m j := by
  have hx : deref b e m (b + k) = some (v (b + k)) :=
    deref_agreeBut h (Nat.le_add_right b k) (by omega) (by omega)
  obtain ⟨m', hmove, hagree, hout⟩ := move_agreeBut h (Nat.le_add_right b k) he
  refine ⟨m', ?_, hagree, hout⟩
  obtain ⟨r, htake, hput⟩ := Option.bind_eq_some_iff.mp hmove
  rw [sinkLoop, Nat.add_sub_cancel, hx]
  simp [hp, htake, hput]

/-- The loop of moves leaves the cells of the loop of values, with the hole at `cur`. By induction on the
distance to `begin`. -/
theorem sinkLoop_run (pred : α → α → Bool) (t : α) :
    ∀ {k fuel : Nat} {m : Cells α} {v : Nat → α}, AgreeBut (b + (k + 1)) b e m v →
      b + (k + 1) < e → k < fuel →
      ∃ m', sinkLoop pred b e (some t) fuel m (b + (k + 1)) =
          some (m', (Util.sinkLoop pred t b (k + 1) v).2) ∧
        AgreeBut (Util.sinkLoop pred t b (k + 1) v).2 b e m' (Util.sinkLoop pred t b (k + 1) v).1 ∧
        ∀ j, j < b ∨ e ≤ j → m' j = m j := by
  intro k
  induction k with
  | zero =>
    intro fuel m v h he hf
    obtain ⟨fuel, rfl⟩ : ∃ f, fuel = f + 1 := ⟨fuel - 1, by omega⟩
    rw [Util.sinkLoop]
    cases hp : pred t (v (b + 0)) with
    | false => exact ⟨m, sinkLoop_stop (k := 0) h he hp, h, fun _ _ => rfl⟩
    | true =>
      obtain ⟨m', hrun, hagree, hout⟩ := sinkLoop_move (k := 0) fuel h he hp
      refine ⟨m', hrun.trans ?_, hagree, hout⟩
      rw [if_neg (fun hn => hn rfl)]
      rfl
  | succ k ih =>
    intro fuel m v h he hf
    obtain ⟨fuel, rfl⟩ : ∃ f, fuel = f + 1 := ⟨fuel - 1, by omega⟩
    rw [Util.sinkLoop]
    cases hp : pred t (v (b + (k + 1))) with
    | false => exact ⟨m, sinkLoop_stop (k := k + 1) h he hp, h, fun _ _ => rfl⟩
    | true =>
      obtain ⟨m₁, hrun, hagree, hout⟩ := sinkLoop_move (k := k + 1) fuel h he hp
      obtain ⟨m₂, hrun₂, hagree₂, hout₂⟩ := ih hagree (by omega) (by omega : k < fuel)
      refine ⟨m₂, hrun.trans ?_, hagree₂, fun j hj => (hout₂ j hj).trans (hout j hj)⟩
      rw [if_pos (by omega)]
      exact hrun₂

theorem sortLoop_step (fuel : Nat) (pred : α → α → Bool) (h : Agree b e m v) (hi : 0 < i)
    (he : b + i < e) (hf : i ≤ fuel) :
    ∃ m', sortLoop pred b e (fuel + 1) m (b + i - 1) = sortLoop pred b e fuel m' (b + i) ∧
      Agree b e m' (sortStep pred b i v) ∧ ∀ j, j < b ∨ e ≤ j → m' j = m j := by
  have hx : deref b e m (b + i - 1) = some (v (b + i - 1)) := deref_agree h (by omega) (by omega)
  have hy : deref b e m (b + i) = some (v (b + i)) := deref_agree h (by omega) he
  rw [sortLoop, Nat.sub_add_cancel (by omega), if_neg (by omega), hx, hy, sortStep]
  cases hp : pred (v (b + i - 1)) (v (b + i)) with
  | true => exact ⟨m, by simp [hp], h, fun _ _ => rfl⟩
  | false =>
    obtain ⟨k, rfl⟩ : ∃ k, i = k + 1 := ⟨i - 1, by omega⟩
    obtain ⟨htake, hbut⟩ := take_agree h (by omega) he
    obtain ⟨m₁, hrun, hbut₁, hout₁⟩ := sinkLoop_run pred (v (b + (k + 1))) hbut he hf
    have hcur := sinkLoop_cur pred (v (b + (k + 1))) b (k + 1) v
    obtain ⟨hput, hagree⟩ := put_agreeBut (v (b + (k + 1))) hbut₁ hcur.1 (by omega)
    refine ⟨_, ?_, hagree, fun j hj => ?_⟩
    · simp only [Option.bind_eq_bind, Option.bind_some, hp, htake, hrun, hput, Bool.false_eq_true,
        if_false]
    · rw [update_of_ne (by omega), hout₁ j hj, update_of_ne (by omega)]

/-- The `while` loop, by induction on the cells left. -/
theorem sortLoop_run (pred : α → α → Bool) :
    ∀ {left fuel i : Nat} {m : Cells α} {v : Nat → α}, Agree b e m v → 0 < i → e = b + i + left →
      left + (i + left) < fuel →
      ∃ m', sortLoop pred b e fuel m (b + i - 1) = some m' ∧
        Agree b e m' (sortFrom pred b left i v) ∧ ∀ j, j < b ∨ e ≤ j → m' j = m j := by
  intro left
  induction left with
  | zero =>
    intro fuel i m v h hi he hf
    obtain ⟨fuel, rfl⟩ : ∃ f, fuel = f + 1 := ⟨fuel - 1, by omega⟩
    refine ⟨m, ?_, h, fun _ _ => rfl⟩
    rw [sortLoop, Nat.sub_add_cancel (by omega), if_pos (show b + i = e from he.symm)]
  | succ left ih =>
    intro fuel i m v h hi he hf
    obtain ⟨fuel, rfl⟩ : ∃ f, fuel = f + 1 := ⟨fuel - 1, by omega⟩
    obtain ⟨m₁, hrun, hagree, hout⟩ := sortLoop_step fuel pred h hi (by omega) (by omega)
    obtain ⟨m₂, hrun₂, hagree₂, hout₂⟩ :=
      @ih fuel (i + 1) m₁ _ hagree (Nat.succ_pos i) (by omega) (by omega)
    exact ⟨m₂, hrun.trans hrun₂, hagree₂, fun j hj => (hout₂ j hj).trans (hout j hj)⟩

end Moves

/-! ## Arrays -/

/-- The values `v` in the cells of the range. -/
def fill (m : Cells α) (b e : Nat) (v : Nat → α) : Cells α :=
  fun j => if b ≤ j ∧ j < e then some (v j) else m j

section Arrays

variable {m m' : Cells α} {v : Nat → α} {b e n : Nat} {xs ys : List α} {pred : α → α → Bool}

theorem eq_fill (h : Agree b e m' v) (hout : ∀ j, j < b ∨ e ≤ j → m' j = m j) :
    m' = fill m b e v := by
  funext j
  by_cases hj : b ≤ j ∧ j < e
  · rw [fill, if_pos hj, h j hj.1 hj.2]
  · rw [fill, if_neg hj, hout j (by omega)]

theorem fill_outside {j : Nat} (hj : j < b ∨ e ≤ j) : fill m b e v j = m j := by
  rw [fill, if_neg (by omega)]

theorem fill_holds (m : Cells α) (b n : Nat) (v : Nat → α) :
    Holds (fill m b (b + n) v) b (slice v b n) := by
  intro i hi
  rw [getElem_slice, fill]
  rw [length_slice] at hi
  rw [if_pos (by omega)]

theorem Holds.values (h : Holds m b xs) (hne : xs ≠ []) :
    ∃ v, Agree b (b + xs.length) m v ∧ slice v b xs.length = xs := by
  obtain ⟨x, rest, rfl⟩ := List.exists_cons_of_ne_nil hne
  refine ⟨fun j => (m j).getD x, fun j hj hje => ?_, ?_⟩
  · obtain ⟨i, rfl⟩ : ∃ i, j = b + i := ⟨j - b, by omega⟩
    show m (b + i) = some ((m (b + i)).getD x)
    rw [h i (by omega), Option.getD_some]
  · refine List.ext_getElem (length_slice _ _ _) fun i hi hi' => ?_
    rw [getElem_slice, h i hi', Option.getD_some]

/-- What the moves leave is what the sort of values computes. -/
theorem insertionSort_run (pred : α → α → Bool) (h : Agree b e m v) (hbe : b ≤ e) {fuel : Nat}
    (hf : 2 * (e - b) ≤ fuel) :
    insertionSort pred fuel m b e = some (fill m b e (Util.insertionSort pred v b e)) := by
  rw [insertionSort, Util.insertionSort]
  by_cases hshort : b = e ∨ b + 1 = e
  · rw [if_pos hshort, if_pos hshort, ← eq_fill h fun _ _ => rfl]
  · rw [if_neg hshort, if_neg hshort]
    obtain ⟨m', hrun, hagree, hout⟩ :=
      @sortLoop_run _ b e pred (e - b - 1) fuel 1 m v h Nat.one_pos (by omega) (by omega)
    rw [← eq_fill hagree hout]
    exact hrun

/-! ## Stability -/

/-- An element equivalent to `v` does not pass another one when it passes greater ones. -/
theorem filter_insert (h : StrictWeak pred) (v : α) {p q : List α} {t : α}
    (hq : ∀ y ∈ q, pred t y = true) :
    (p ++ t :: q).filter (equivalent pred v) = (p ++ (q ++ [t])).filter (equivalent pred v) := by
  rw [List.filter_append, List.filter_append, List.filter_append, List.filter_cons,
    List.filter_singleton]
  cases ht : equivalent pred v t with
  | false => simp
  | true =>
    have hnone : q.filter (equivalent pred v) = [] := by
      refine List.filter_eq_nil_iff.mpr fun y hy hvy => ?_
      simp only [equivalent, Bool.and_eq_true, Bool.not_eq_true'] at ht hvy
      have hty : pred t y = false := h.negTrans y v t hvy.1 ht.2
      rw [hq y hy] at hty
      cases hty
    rw [hnone]
    rfl

theorem sortStep_stable (h : StrictWeak pred) (v : Nat → α) (b i : Nat) (x : α) :
    (slice (sortStep pred b i v) b (i + 1)).filter (equivalent pred x) =
      (slice v b (i + 1)).filter (equivalent pred x) := by
  unfold sortStep
  split
  · rfl
  · obtain ⟨p, q, hs, hs', hq, _, _⟩ := insert_spec pred v b i
    show (slice (update _ _ _) b (i + 1)).filter _ = _
    rw [hs', slice_succ, hs, filter_insert h x hq, List.append_assoc]

theorem sortFrom_stable (h : StrictWeak pred) (b left : Nat) (x : α) :
    ∀ (i : Nat) (v : Nat → α),
      (slice (sortFrom pred b left i v) b (i + left)).filter (equivalent pred x) =
        (slice v b (i + left)).filter (equivalent pred x) := by
  induction left with
  | zero => intro i v; rfl
  | succ left ih =>
    intro i v
    rw [sortFrom, show i + (left + 1) = i + 1 + left by omega, ih, slice_sortStep, slice_add v,
      List.filter_append, List.filter_append, sortStep_stable h]

theorem insertionSort_stable (h : StrictWeak pred) (hbe : b ≤ e) (v : Nat → α) (x : α) :
    (slice (Util.insertionSort pred v b e) b (e - b)).filter (equivalent pred x) =
      (slice v b (e - b)).filter (equivalent pred x) := by
  rw [Util.insertionSort]
  by_cases hshort : b = e ∨ b + 1 = e
  · rw [if_pos hshort]
  · rw [if_neg hshort]
    have hs := sortFrom_stable h b (e - b - 1) x 1 v
    rwa [show 1 + (e - b - 1) = e - b by omega] at hs

theorem insertionSort_sorts (h : StrictWeak pred) : SortsStably pred (insertionSort pred) := by
  intro m b xs hm
  rcases eq_or_ne xs [] with rfl | hne
  · refine ⟨m, [], ⟨0, fun fuel _ => ?_⟩, hm, .refl _, .nil, fun _ => rfl, fun _ _ => rfl⟩
    show insertionSort pred fuel m b b = some m
    rw [insertionSort, if_pos (.inl rfl)]
  · obtain ⟨v, hagree, hv⟩ := hm.values hne
    have hbe : b ≤ b + xs.length := Nat.le_add_right _ _
    have hn : b + xs.length - b = xs.length := Nat.add_sub_cancel_left _ _
    obtain ⟨hs, hp, _⟩ := insertionSort_spec h hbe v
    have hst := insertionSort_stable h hbe v
    rw [hn] at hs hp
    simp only [hn, hv] at hst hp
    exact ⟨_, _, ⟨2 * (b + xs.length - b), fun fuel hf => insertionSort_run pred hagree hbe hf⟩,
      fill_holds m b xs.length _, hp, hs, hst, fun j hj => fill_outside hj⟩

/-- Both overloads, for every array and every strict weak order. -/
theorem sorts_stably (α : Type) :
    (∀ pred : α → α → Bool, StrictWeak pred → SortsStably pred (insertionSort pred)) ∧
      ∀ [LT α] [DecidableLT α], StrictWeak (less : α → α → Bool) →
        SortsStably (less : α → α → Bool) insertionSortLess :=
  ⟨fun _ h => insertionSort_sorts h, fun h => insertionSort_sorts h⟩

end Arrays

/-- A number that is compared, and one that is not. -/
def byKey (x y : Nat × Nat) : Bool := decide (x.1 < y.1)

theorem byKey_strictWeak : StrictWeak byKey :=
  ⟨fun a b h => by simp only [byKey, decide_eq_true_eq, decide_eq_false_iff_not] at h ⊢; omega,
    fun a b c h h' => by simp only [byKey, decide_eq_false_iff_not] at h h' ⊢; omega⟩

theorem less_strictWeak : StrictWeak (less : Nat → Nat → Bool) :=
  ⟨fun a b h => by simp only [less, decide_eq_true_eq, decide_eq_false_iff_not] at h ⊢; omega,
    fun a b c h h' => by simp only [less, decide_eq_false_iff_not] at h h' ⊢; omega⟩

/-- Pairs by their first number, and numbers. -/
theorem sorts_stably_byKey : SortsStably byKey (insertionSort byKey) ∧
    SortsStably (less : Nat → Nat → Bool) insertionSortLess :=
  ⟨(sorts_stably (Nat × Nat)).1 byKey byKey_strictWeak, (sorts_stably Nat).2 less_strictWeak⟩

def fourPairs : Cells (Nat × Nat) := fun i => [(2, 0), (1, 1), (2, 2), (1, 3)][i]?

example : (insertionSort byKey 8 fourPairs 0 4).map (fun m => (List.range 5).map m) =
    some [some (1, 1), some (1, 3), some (2, 0), some (2, 2), none] := by decide

end SortCells
end Util
end TorexOS
