import Mathlib.Data.BitVec

/-!
# TorexOS.Lib.Packed

Packed records and byte memories.

* `load` and `store` read and write a bit field of a packed record, a `BitVec w`. Several views of
  one record (a union) are several sets of offsets; `load_store` and `load_store_ne` say which
  fields a write reaches, `load_eq_zero_of_within` that a zero field is zero under every view.
* `load32` and `store32` read and write a little-endian 32-bit word of a byte memory, `load64` and
  `store64` a 64-bit one.
* `offsets` is where the members of a record are, which depends on their alignment unless it is packed.
-/

namespace Packed

variable {w len len' off off' : Nat}

/-- The field of `len` bits at bit `off`. -/
def load (d : BitVec w) (off len : Nat) : BitVec len := d.extractLsb' off len

/-- Write a field at bit `off`. -/
def store (d : BitVec w) (off : Nat) (v : BitVec len) : BitVec w :=
  (d &&& ~~~((BitVec.allOnes len).setWidth w <<< off)) ||| (v.setWidth w <<< off)

theorem getLsbD_store (d : BitVec w) (v : BitVec len) (h : off + len ≤ w) (i : Nat) :
    (store d off v).getLsbD i =
      if off ≤ i ∧ i < off + len then v.getLsbD (i - off) else d.getLsbD i := by
  by_cases hi : i < w
  · by_cases hlo : i < off
    · simp [store, hi, hlo, show ¬ off ≤ i by omega]
    · by_cases hhi : i < off + len
      · have h1 : i - off < len := by omega
        simp [store, hi, hlo, hhi, h1, show off ≤ i by omega]
      · have h1 : ¬ i - off < len := by omega
        have h2 : v.getLsbD (i - off) = false := BitVec.getLsbD_of_ge _ _ (by omega)
        simp [store, hi, hlo, hhi, h1, h2]
  · have hout : ¬ (off ≤ i ∧ i < off + len) := by omega
    rw [if_neg hout, BitVec.getLsbD_of_ge _ _ (by omega), BitVec.getLsbD_of_ge _ _ (by omega)]

theorem load_store (d : BitVec w) (v : BitVec len) (h : off + len ≤ w) :
    load (store d off v) off len = v := by
  apply BitVec.eq_of_getLsbD_eq
  intro i hi
  rw [load, BitVec.getLsbD_extractLsb', getLsbD_store d v h]
  simp [hi]

theorem load_store_ne (d : BitVec w) (v : BitVec len) (h : off + len ≤ w)
    (hd : off' + len' ≤ off ∨ off + len ≤ off') :
    load (store d off v) off' len' = load d off' len' := by
  apply BitVec.eq_of_getLsbD_eq
  intro i hi
  rw [load, load, BitVec.getLsbD_extractLsb', BitVec.getLsbD_extractLsb', getLsbD_store d v h,
    if_neg (by omega)]

/-- A field inside a zero field is zero. -/
theorem load_eq_zero_of_within (d : BitVec w) (h : load d off len = 0)
    (hlo : off ≤ off') (hhi : off' + len' ≤ off + len) : load d off' len' = 0 := by
  apply BitVec.eq_of_getLsbD_eq
  intro i hi
  have hz := congrArg (fun x => BitVec.getLsbD x (off' - off + i)) h
  simp only [load, BitVec.getLsbD_extractLsb'] at hz ⊢
  rw [show off + (off' - off + i) = off' + i by omega,
    show decide (off' - off + i < len) = true by simp; omega] at hz
  simpa [hi] using hz

/-! ## Layout -/

/-- The next multiple of the alignment. -/
def alignUp (off align : Nat) : Nat := (off + align - 1) / align * align

/-- The offsets of members of these sizes and alignments behind the first `off` bytes, and where the
last one ends. No alignment is above `pack`. -/
def offsets (pack : Nat) : Nat → List (Nat × Nat) → List Nat
  | off, [] => [off]
  | off, (size, align) :: ms =>
    let o := alignUp off (min align pack)
    o :: offsets pack (o + size) ms

/-! ## Byte memory -/

variable {r r' : Nat → BitVec 8} {a b : Nat}

/-- The little-endian 32-bit word at `a`. -/
def load32 (r : Nat → BitVec 8) (a : Nat) : BitVec 32 :=
  r (a + 3) ++ r (a + 2) ++ r (a + 1) ++ r a

def load64 (r : Nat → BitVec 8) (a : Nat) : BitVec 64 := load32 r (a + 4) ++ load32 r a

def store32 (r : Nat → BitVec 8) (a : Nat) (v : BitVec 32) : Nat → BitVec 8 :=
  fun x => if a ≤ x ∧ x < a + 4 then v.extractLsb' (8 * (x - a)) 8 else r x

theorem store32_outside (v : BitVec 32) (h : b < a ∨ a + 4 ≤ b) : store32 r a v b = r b := by
  rw [store32, if_neg (by omega)]

theorem load32_store32 (r : Nat → BitVec 8) (a : Nat) (v : BitVec 32) :
    load32 (store32 r a v) a = v := by
  apply BitVec.eq_of_getLsbD_eq
  intro i hi
  simp only [load32, store32, BitVec.getLsbD_append]
  rcases (by omega : i < 8 ∨ (8 ≤ i ∧ i < 16) ∨ (16 ≤ i ∧ i < 24) ∨ 24 ≤ i) with h | h | h | h
  · simp [h]
  · simp [show ¬ i < 8 by omega, show i - 8 < 8 by omega]
    congr 1; omega
  · simp [show ¬ i < 8 by omega, show ¬ i - 8 < 8 by omega, show i - 8 - 8 < 8 by omega]
    congr 1; omega
  · simp [show ¬ i < 8 by omega, show ¬ i - 8 < 8 by omega, show ¬ i - 8 - 8 < 8 by omega,
      show i - 8 - 8 - 8 < 8 by omega]
    congr 1; omega

/-- A word written elsewhere puts the bytes there. -/
theorem store32_load32 {x : Nat} (hx : b ≤ x ∧ x < b + 4) :
    store32 r b (load32 r' a) x = r' (a + (x - b)) := by
  obtain ⟨j, rfl⟩ : ∃ j, x = b + j := ⟨x - b, by omega⟩
  rw [store32, if_pos hx, Nat.add_sub_cancel_left, load32]
  rcases (by omega : j = 0 ∨ j = 1 ∨ j = 2 ∨ j = 3) with h | h | h | h
  · rw [h]
    exact BitVec.extractLsb'_append_eq_right
  · rw [h, BitVec.extractLsb'_append_eq_of_le (by omega)]
    exact BitVec.extractLsb'_append_eq_right
  · rw [h, BitVec.extractLsb'_append_eq_of_le (by omega),
      BitVec.extractLsb'_append_eq_of_le (by omega)]
    exact BitVec.extractLsb'_append_eq_right
  · rw [h, BitVec.extractLsb'_append_eq_of_le (by omega),
      BitVec.extractLsb'_append_eq_of_le (by omega), BitVec.extractLsb'_append_eq_of_le (by omega)]
    exact BitVec.extractLsb'_eq_self

/-- Words are equal exactly if their bytes are. -/
theorem load32_eq_iff : load32 r a = load32 r' b ↔ ∀ i, i < 4 → r (a + i) = r' (b + i) := by
  constructor
  · intro h i hi
    have hx : i < 0 + 4 := by omega
    have hl : store32 r 0 (load32 r a) i = store32 r 0 (load32 r' b) i := by rw [h]
    rwa [store32_load32 ⟨Nat.zero_le i, hx⟩, store32_load32 ⟨Nat.zero_le i, hx⟩] at hl
  · intro h
    rw [load32, load32, h 3 (by omega), h 2 (by omega), h 1 (by omega)]
    rw [show r a = r' b from h 0 (by omega)]

theorem toNat_load64 (r : Nat → BitVec 8) (a : Nat) :
    (load64 r a).toNat = (load32 r (a + 4)).toNat * 2 ^ 32 + (load32 r a).toNat := by
  rw [load64, BitVec.toNat_append, ← Nat.shiftLeft_add_eq_or_of_lt (load32 r a).isLt,
    Nat.shiftLeft_eq]

theorem load32_congr (h : ∀ i, i < 4 → r' (a + i) = r (a + i)) : load32 r' a = load32 r a :=
  load32_eq_iff.mpr h

theorem load32_store32_ne (v : BitVec 32) (h : b + 4 ≤ a ∨ a + 4 ≤ b) :
    load32 (store32 r a v) b = load32 r b :=
  load32_congr fun _ _ => store32_outside v (by omega)

/-! ## 64-bit words -/

def store64 (r : Nat → BitVec 8) (a : Nat) (v : BitVec 64) : Nat → BitVec 8 :=
  store32 (store32 r a (v.extractLsb' 0 32)) (a + 4) (v.extractLsb' 32 32)

theorem store64_outside (v : BitVec 64) (h : b < a ∨ a + 8 ≤ b) : store64 r a v b = r b := by
  rw [store64, store32_outside _ (by omega), store32_outside _ (by omega)]

theorem load64_store64 (r : Nat → BitVec 8) (a : Nat) (v : BitVec 64) :
    load64 (store64 r a v) a = v := by
  rw [load64, store64, load32_store32, load32_store32_ne _ (by omega), load32_store32]
  exact BitVec.extractLsb'_append_extractLsb'

theorem load64_congr (h : ∀ i, i < 8 → r' (a + i) = r (a + i)) : load64 r' a = load64 r a := by
  have hlo : load32 r' a = load32 r a := load32_congr fun i hi => h i (by omega)
  have hhi : load32 r' (a + 4) = load32 r (a + 4) := load32_congr fun i hi => by
    rw [Nat.add_assoc]
    exact h (4 + i) (by omega)
  rw [load64, load64, hlo, hhi]

theorem load64_store64_ne (v : BitVec 64) (h : b + 8 ≤ a ∨ a + 8 ≤ b) :
    load64 (store64 r a v) b = load64 r b :=
  load64_congr fun _ _ => store64_outside v (by omega)

end Packed
