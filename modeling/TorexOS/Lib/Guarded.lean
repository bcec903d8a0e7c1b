import TorexOS.Lib.Buffers
import TorexOS.Lib.Packed

/-!
# TorexOS.Lib.Guarded

A byte memory of which only a range may be accessed.

* `Span`: a range of addresses; an access outside it is `none`.
* `put8`, `put32`, `put64` and `get8`, `get32`, `get64`: accesses of one, four and eight bytes.
* `Filled S`: the bytes with `S` are filled; `Filled.putAll` adds a group of stores, in any order.
* `moved`: the memory after `k` bytes were copied to `d` from `s`; `moved_succ`, `moved_store32` and
  `moved_store64` add one access to it.
-/

namespace Guarded

open Packed Buffers

abbrev Bytes : Type := Nat → BitVec 8

/-- The addresses from `lo` to below `hi`. -/
structure Span where
  lo : Nat
  hi : Nat

namespace Span

/-- The `k` bytes from `a` on are in it. -/
def Has (r : Span) (a k : Nat) : Prop := r.lo ≤ a ∧ a + k ≤ r.hi

instance (r : Span) (a k : Nat) : Decidable (r.Has a k) := by
  unfold Has
  infer_instance

end Span

def put8 (r : Span) (m : Bytes) (a : Nat) (v : BitVec 8) : Option Bytes :=
  if r.Has a 1 then some (Function.update m a v) else none

def put32 (r : Span) (m : Bytes) (a : Nat) (v : BitVec 32) : Option Bytes :=
  if r.Has a 4 then some (store32 m a v) else none

def put64 (r : Span) (m : Bytes) (a : Nat) (v : BitVec 64) : Option Bytes :=
  if r.Has a 8 then some (store64 m a v) else none

def get8 (r : Span) (m : Bytes) (a : Nat) : Option (BitVec 8) :=
  if r.Has a 1 then some (m a) else none

def get32 (r : Span) (m : Bytes) (a : Nat) : Option (BitVec 32) :=
  if r.Has a 4 then some (load32 m a) else none

def get64 (r : Span) (m : Bytes) (a : Nat) : Option (BitVec 64) :=
  if r.Has a 8 then some (load64 m a) else none

section Accesses

variable {r : Span} {m : Bytes} {a : Nat}

@[simp] theorem put8_ok (h : r.Has a 1) (v : BitVec 8) :
    put8 r m a v = some (Function.update m a v) := if_pos h

@[simp] theorem put32_ok (h : r.Has a 4) (v : BitVec 32) :
    put32 r m a v = some (store32 m a v) := if_pos h

@[simp] theorem put64_ok (h : r.Has a 8) (v : BitVec 64) :
    put64 r m a v = some (store64 m a v) := if_pos h

@[simp] theorem get8_ok (h : r.Has a 1) : get8 r m a = some (m a) := if_pos h

@[simp] theorem get32_ok (h : r.Has a 4) : get32 r m a = some (load32 m a) := if_pos h

@[simp] theorem get64_ok (h : r.Has a 8) : get64 r m a = some (load64 m a) := if_pos h

end Accesses

/-! ## Words and bytes -/

variable {m : Bytes} {a x : Nat}

/-- The byte of a stored word at an address inside it. -/
theorem store32_inside (v : BitVec 32) (h : a ≤ x ∧ x < a + 4) :
    store32 m a v x = v.extractLsb' (8 * (x - a)) 8 := if_pos h

theorem store64_inside (v : BitVec 64) (h : a ≤ x ∧ x < a + 8) :
    store64 m a v x = v.extractLsb' (8 * (x - a)) 8 := by
  obtain ⟨i, rfl⟩ : ∃ i, x = a + i := ⟨x - a, by omega⟩
  rw [Nat.add_sub_cancel_left]
  by_cases hi : i < 4
  · rw [store64, store32_outside _ (by omega), store32_inside _ (by omega)]
    apply BitVec.eq_of_getLsbD_eq
    intro j hj
    rw [Nat.add_sub_cancel_left]
    simp [hj, show 8 * i + j < 32 by omega]
  · rw [store64, store32_inside _ (by omega)]
    apply BitVec.eq_of_getLsbD_eq
    intro j hj
    simp [hj, show 8 * (a + i - (a + 4)) + j < 32 by omega]
    congr 1
    omega

/-- A word written elsewhere puts its bytes there. -/
theorem store64_load64 {r' : Bytes} {b : Nat} (h : b ≤ x ∧ x < b + 8) :
    store64 m b (load64 r' a) x = r' (a + (x - b)) := by
  have hlo : (load64 r' a).extractLsb' 0 32 = load32 r' a := BitVec.extractLsb'_append_eq_right
  have hhi : (load64 r' a).extractLsb' 32 32 = load32 r' (a + 4) := BitVec.extractLsb'_append_eq_left
  rw [store64, hlo, hhi]
  by_cases hx : x < b + 4
  · rw [store32_outside _ (by omega), store32_load32 (by omega)]
  · rw [store32_load32 (by omega)]
    congr 1
    omega

/-! ## Copying -/

/-- The memory with `k` bytes from `s` on copied to `d`. -/
def moved (m : Bytes) (d s k : Nat) : Bytes := overlay m d (read m s k)

variable {d s k n : Nat}

theorem moved_apply : moved m d s k x = if d ≤ x ∧ x < d + k then m (s + (x - d)) else m x := by
  rw [moved]
  by_cases h : d ≤ x ∧ x < d + k
  · obtain ⟨i, rfl⟩ : ∃ i, x = d + i := ⟨x - d, by omega⟩
    have hi : i < (read m s k).length := by
      rw [length_read]
      omega
    rw [if_pos h, overlay_inside hi, getElem_read, Nat.add_sub_cancel_left]
  · rw [if_neg h, overlay_outside (by rw [length_read]; omega)]

/-- The source is not written to. -/
theorem moved_src (hd : s + n ≤ d ∨ d + n ≤ s) (hk : k ≤ n) (hx : s ≤ x ∧ x < s + n) :
    moved m d s k x = m x := by
  rw [moved_apply, if_neg (by omega)]

@[simp] theorem moved_zero : moved m d s 0 = m := by
  rw [moved, read_zero, overlay_nil]

theorem moved_succ : Function.update (moved m d s k) (d + k) (m (s + k)) = moved m d s (k + 1) := by
  funext x
  rw [Function.update_apply, moved_apply, moved_apply]
  by_cases hx : x = d + k
  · subst hx
    rw [if_pos rfl, if_pos (by omega), Nat.add_sub_cancel_left]
  · rw [if_neg hx]
    by_cases h : d ≤ x ∧ x < d + k
    · rw [if_pos h, if_pos (by omega)]
    · rw [if_neg h, if_neg (by omega)]

theorem moved_store32 : store32 (moved m d s k) (d + k) (load32 m (s + k)) = moved m d s (k + 4) := by
  funext x
  by_cases hx : d + k ≤ x ∧ x < d + k + 4
  · rw [store32_load32 hx, moved_apply, if_pos (by omega)]
    congr 1
    omega
  · rw [store32_outside _ (by omega), moved_apply, moved_apply]
    by_cases h : d ≤ x ∧ x < d + k
    · rw [if_pos h, if_pos (by omega)]
    · rw [if_neg h, if_neg (by omega)]

theorem moved_store64 : store64 (moved m d s k) (d + k) (load64 m (s + k)) = moved m d s (k + 8) := by
  funext x
  by_cases hx : d + k ≤ x ∧ x < d + k + 8
  · rw [store64_load64 hx, moved_apply, if_pos (by omega)]
    congr 1
    omega
  · rw [store64_outside _ (by omega), moved_apply, moved_apply]
    by_cases h : d ≤ x ∧ x < d + k
    · rw [if_pos h, if_pos (by omega)]
    · rw [if_neg h, if_neg (by omega)]

/-- The word that starts `j` bytes into a word is put together of it and the next one. -/
theorem funnel (m : Bytes) (a j : Nat) (hj : 0 < j) (h4 : j < 4) :
    (load32 m a >>> (8 * j)) ||| (load32 m (a + 4) <<< (32 - 8 * j)) = load32 m (a + j) := by
  have hbyte : ∀ b i, i < 32 → (load32 m b).getLsbD i = (m (b + i / 8)).getLsbD (i % 8) := by
    intro b i hi
    simp only [load32, BitVec.getLsbD_append]
    rcases (by omega : i < 8 ∨ (8 ≤ i ∧ i < 16) ∨ (16 ≤ i ∧ i < 24) ∨ 24 ≤ i) with h | h | h | h
    · rw [if_pos h, Nat.div_eq_of_lt h, Nat.mod_eq_of_lt h, Nat.add_zero]
    · rw [if_neg (by omega), if_pos (by omega), show i / 8 = 1 by omega, show i % 8 = i - 8 by omega]
    · rw [if_neg (by omega), if_neg (by omega), if_pos (by omega), show i / 8 = 2 by omega,
        show i % 8 = i - 8 - 8 by omega]
    · rw [if_neg (by omega), if_neg (by omega), if_neg (by omega), show i / 8 = 3 by omega,
        show i % 8 = i - 8 - 8 - 8 by omega]
  apply BitVec.eq_of_getLsbD_eq
  intro i hi
  rw [BitVec.getLsbD_or, BitVec.getLsbD_ushiftRight, BitVec.getLsbD_shiftLeft, hbyte (a + j) i hi]
  by_cases hlo : i < 32 - 8 * j
  · rw [hbyte a _ (by omega), show decide (i < 32 - 8 * j) = true from decide_eq_true hlo,
      show (8 * j + i) / 8 = j + i / 8 by omega, show (8 * j + i) % 8 = i % 8 by omega]
    simp [Nat.add_assoc]
  · rw [hbyte (a + 4) _ (by omega), BitVec.getLsbD_of_ge _ (8 * j + i) (by omega),
      show a + 4 + (i - (32 - 8 * j)) / 8 = a + j + i / 8 by omega,
      show (i - (32 - 8 * j)) % 8 = i % 8 by omega]
    simp [hlo, hi]

/-! ## Filling -/

/-- Stores of one value to each of the addresses, one behind another. -/
def putAll {α : Type} (put : Bytes → Nat → α → Option Bytes) (v : α) : Bytes → List Nat → Option Bytes
  | m, [] => some m
  | m, a :: as => do
    let m ← put m a v
    putAll put v m as

/-- Outside `r` nothing has changed, and the bytes of `r` with `S` are `c`. -/
structure Filled (m₀ : Bytes) (r : Span) (c : BitVec 8) (S : Nat → Prop) (m : Bytes) : Prop where
  outside : ∀ x, ¬ r.Has x 1 → m x = m₀ x
  filled : ∀ x, r.Has x 1 → S x → m x = c

/-- A store of `w` bytes `c`. -/
def Fills (r : Span) (c : BitVec 8) (w : Nat) (put : Bytes → Nat → Option Bytes) : Prop :=
  ∀ m a, r.Has a w → ∃ m', put m a = some m' ∧ ∀ x, m' x = if a ≤ x ∧ x < a + w then c else m x

variable {m₀ : Bytes} {r : Span} {c : BitVec 8} {S S' : Nat → Prop} {w : Nat}

theorem Filled.refl (m : Bytes) : Filled m r c (fun _ => False) m where
  outside _ _ := rfl
  filled _ _ h := h.elim

theorem Filled.mono (h : Filled m₀ r c S m) (hs : ∀ x, r.Has x 1 → S' x → S x) :
    Filled m₀ r c S' m where
  outside := h.outside
  filled x hx hS := h.filled x hx (hs x hx hS)

/-- With every byte of the range filled. -/
theorem Filled.eq (h : Filled m₀ r c S m) (hs : ∀ x, r.Has x 1 → S x) :
    m = fun x => if r.Has x 1 then c else m₀ x := by
  funext x
  by_cases hx : r.Has x 1
  · rw [if_pos hx, h.filled x hx (hs x hx)]
  · rw [if_neg hx, h.outside x hx]

/-- A group of stores inside the range fills the bytes it reaches. -/
theorem Filled.putAll {α : Type} {put : Bytes → Nat → α → Option Bytes} {v : α} {as : List Nat}
    (h : Filled m₀ r c S m) (hf : Fills r c w fun m a => put m a v) (has : ∀ a ∈ as, r.Has a w) :
    ∃ m', putAll put v m as = some m' ∧
      Filled m₀ r c (fun x => S x ∨ ∃ a ∈ as, a ≤ x ∧ x < a + w) m' := by
  induction as generalizing m S with
  | nil => exact ⟨m, rfl, h.mono fun x _ hx => by simpa using hx⟩
  | cons a as ih =>
    have ha : r.Has a w := has a List.mem_cons_self
    obtain ⟨m₁, hput, hm⟩ := hf m a ha
    have h₁ : Filled m₀ r c (fun x => S x ∨ (a ≤ x ∧ x < a + w)) m₁ := by
      constructor
      · intro x hx
        have hout : ¬ (a ≤ x ∧ x < a + w) := by
          intro hin
          apply hx
          unfold Span.Has at *
          omega
        rw [hm, if_neg hout, h.outside x hx]
      · intro x hx hS
        rw [hm]
        by_cases hin : a ≤ x ∧ x < a + w
        · rw [if_pos hin]
        · rw [if_neg hin]
          exact h.filled x hx (hS.resolve_right hin)
    obtain ⟨m', hall, hm'⟩ := ih h₁ fun b hb => has b (List.mem_cons_of_mem a hb)
    refine ⟨m', ?_, hm'.mono fun x _ hx => ?_⟩
    · rw [Guarded.putAll, show put m a v = some m₁ from hput]
      exact hall
    · rcases hx with hx | ⟨b, hb, hx⟩
      · exact .inl (.inl hx)
      · rcases List.mem_cons.mp hb with rfl | hb
        · exact .inl (.inr hx)
        · exact .inr ⟨b, hb, hx⟩

end Guarded
