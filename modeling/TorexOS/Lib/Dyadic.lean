import Mathlib.Algebra.Order.Ring.Nat
import Mathlib.Data.Nat.Bitwise
import Mathlib.Order.Interval.Finset.Nat
import Mathlib.Tactic.Ring

/-!
# TorexOS.Lib.Dyadic

Aligned blocks of 2^order cells and the sets of cells they tile.

* `Block`: a head and an order. An aligned block of order `o + 1` is two halves of order `o`, and
  the head of one half is the head of the other with bit `o` flipped (`xor_lower`, `xor_upper`).
* `Tiling B P`: the blocks of `B` are aligned and every cell of `P` is in exactly one of them.
  Splitting a block into its halves and joining two halves keep a tiling (`Tiling.split`,
  `Tiling.join`).
* `size`: the number of cells of a list of blocks. Disjoint blocks whose cells are all in others are
  not more (`size_le_of_covered`).
-/

namespace Dyadic

@[ext]
structure Block where
  head : Nat
  order : Nat
  deriving DecidableEq

namespace Block

/-- The cell is in the block. -/
def Covers (b : Block) (p : Nat) : Prop := b.head ≤ p ∧ p < b.head + 2 ^ b.order

instance (b : Block) (p : Nat) : Decidable (b.Covers p) := by unfold Covers; infer_instance

def Aligned (b : Block) : Prop := 2 ^ b.order ∣ b.head

instance (b : Block) : Decidable b.Aligned := by unfold Aligned; infer_instance

/-- Two blocks with no cell in common. -/
def Disjoint (b c : Block) : Prop := ∀ p, ¬ (b.Covers p ∧ c.Covers p)

theorem covers_head (b : Block) : b.Covers b.head :=
  ⟨le_refl _, Nat.lt_add_of_pos_right (Nat.two_pow_pos _)⟩

end Block

/-! ## Halves -/

section Halves

variable {h o : Nat}

theorem lower_eq (hd : 2 ^ (o + 1) ∣ h) : ∃ k, h = (2 * k) <<< o := by
  obtain ⟨k, rfl⟩ := hd
  exact ⟨k, by rw [Nat.shiftLeft_eq, pow_succ]; ring⟩

theorem upper_eq (k : Nat) : (2 * k) <<< o + 2 ^ o = (2 * k ^^^ 1) <<< o := by
  rw [Nat.xor_one_of_even (even_two_mul k), Nat.shiftLeft_eq, Nat.shiftLeft_eq]; ring

/-- Flipping bit `o` of a lower half's head gives the upper half's. -/
theorem xor_lower (hd : 2 ^ (o + 1) ∣ h) : h ^^^ 1 <<< o = h + 2 ^ o := by
  obtain ⟨k, rfl⟩ := lower_eq hd
  rw [upper_eq, Nat.shiftLeft_xor_distrib]

theorem xor_upper (hd : 2 ^ (o + 1) ∣ h) : (h + 2 ^ o) ^^^ 1 <<< o = h := by
  rw [← xor_lower hd, Nat.xor_assoc, Nat.xor_self, Nat.xor_zero]

theorem and_upper (hd : 2 ^ (o + 1) ∣ h) : h &&& (h + 2 ^ o) = h := by
  obtain ⟨k, rfl⟩ := lower_eq hd
  rw [upper_eq, ← Nat.shiftLeft_and_distrib, Nat.and_xor_distrib_left, Nat.and_self,
    Nat.and_one_is_mod, Nat.mul_mod_right, Nat.xor_zero]

/-- Clearing the lowest set bit of a cell of an aligned block does not leave the block. -/
theorem le_and_pred {i : Nat} (hd : 2 ^ o ∣ h) (hlo : h < i) (hhi : i < h + 2 ^ o) :
    h ≤ i &&& (i - 1) := by
  obtain ⟨q, rfl⟩ := hd
  have hor : ∀ r, r < 2 ^ o → 2 ^ o * q + r = 2 ^ o * q ||| r := by
    intro r hr
    rw [Nat.mul_comm, ← Nat.shiftLeft_eq, Nat.shiftLeft_add_eq_or_of_lt hr]
  have hi : i = 2 ^ o * q ||| (i - 2 ^ o * q) := by rw [← hor _ (by omega)]; omega
  have hp : i - 1 = 2 ^ o * q ||| (i - 1 - 2 ^ o * q) := by rw [← hor _ (by omega)]; omega
  rw [hp, hi, ← Nat.or_and_distrib_left]
  exact Nat.left_le_or

theorem and_pred_lt {i : Nat} (h : 0 < i) : i &&& (i - 1) < i :=
  lt_of_le_of_lt Nat.and_le_right (by omega)

/-- An aligned head is the head of a lower or of an upper half. -/
theorem lower_or_upper (hd : 2 ^ o ∣ h) :
    2 ^ (o + 1) ∣ h ∨ ∃ g, h = g + 2 ^ o ∧ 2 ^ (o + 1) ∣ g := by
  obtain ⟨k, rfl⟩ := hd
  rcases Nat.even_or_odd' k with ⟨j, rfl | rfl⟩
  · exact .inl ⟨j, by rw [pow_succ]; ring⟩
  · exact .inr ⟨2 ^ (o + 1) * j, by rw [pow_succ]; ring, ⟨j, rfl⟩⟩

/-- The heads of the two halves flip into each other and meet in the lower one. -/
theorem buddy_cases (hd : 2 ^ o ∣ h) :
    ∃ g, 2 ^ (o + 1) ∣ g ∧
      ((h = g ∧ h ^^^ 1 <<< o = g + 2 ^ o) ∨ (h = g + 2 ^ o ∧ h ^^^ 1 <<< o = g)) ∧
      h &&& (h ^^^ 1 <<< o) = g := by
  rcases lower_or_upper hd with hl | ⟨g, rfl, hg⟩
  · refine ⟨h, hl, .inl ⟨rfl, xor_lower hl⟩, ?_⟩
    rw [xor_lower hl, and_upper hl]
  · refine ⟨g, hg, .inr ⟨rfl, xor_upper hg⟩, ?_⟩
    rw [xor_upper hg, Nat.and_comm, and_upper hg]

/-- The head of the block of order `k` around cell `p`. -/
def floor (p k : Nat) : Nat := p / 2 ^ k * 2 ^ k

theorem floor_dvd (p k : Nat) : 2 ^ k ∣ floor p k := Nat.dvd_mul_left _ _

theorem floor_of_dvd {p k : Nat} (hd : 2 ^ k ∣ p) : floor p k = p := Nat.div_mul_cancel hd

theorem floor_covers (p k : Nat) : (Block.mk (floor p k) k).Covers p := by
  have := Nat.div_add_mod p (2 ^ k)
  have := Nat.mod_lt p (Nat.two_pow_pos k)
  simp only [Block.Covers, floor, Nat.mul_comm _ (2 ^ k)]; omega

theorem floor_unique {p k g : Nat} (hg : 2 ^ k ∣ g) (hc : (Block.mk g k).Covers p) :
    floor p k = g := by
  obtain ⟨q, rfl⟩ := hg
  simp only [Block.Covers] at hc
  have hq : p / 2 ^ k = q := by
    rw [show p = 2 ^ k * q + (p - 2 ^ k * q) by omega, Nat.mul_add_div (Nat.two_pow_pos _),
      Nat.div_eq_of_lt (by omega), Nat.add_zero]
  rw [floor, hq, Nat.mul_comm]

theorem floor_floor {j k : Nat} (p : Nat) (hjk : j ≤ k) : floor (floor p j) k = floor p k := by
  have hd : 2 ^ j ∣ 2 ^ k := pow_dvd_pow 2 hjk
  refine floor_unique (floor_dvd p k) ?_
  obtain ⟨c, hc⟩ := floor_dvd p k
  obtain ⟨e, he⟩ := hd
  have h1 := floor_covers p k
  have h2 := floor_covers p j
  simp only [Block.Covers] at *
  refine ⟨?_, by omega⟩
  -- `floor p k` is a multiple of `2 ^ j` below `p`
  have h3 : floor p k = 2 ^ j * (e * c) := by rw [hc, he]; ring
  rw [h3] at h1 ⊢
  have h4 : e * c ≤ p / 2 ^ j := (Nat.le_div_iff_mul_le (Nat.two_pow_pos _)).mpr (by
    rw [Nat.mul_comm]; exact h1.1)
  calc 2 ^ j * (e * c) ≤ 2 ^ j * (p / 2 ^ j) := Nat.mul_le_mul_left _ h4
    _ = floor p j := Nat.mul_comm _ _

/-- The buddy of a block has no cell of it. -/
theorem buddy_not_covered {p : Nat} (hd : 2 ^ o ∣ h) (hc : (Block.mk h o).Covers p) :
    h ^^^ 1 <<< o ≠ p := by
  have hpos := Nat.two_pow_pos o
  obtain ⟨g, _, hg, _⟩ := buddy_cases hd
  simp only [Block.Covers] at hc
  omega

theorem covers_trans {p : Nat} {j k : Nat} (hjk : j ≤ k) (hg : 2 ^ j ∣ p)
    {q : Nat} (hq : (Block.mk p j).Covers q) : (Block.mk (floor p k) k).Covers q := by
  have h1 := floor_covers p k
  obtain ⟨c, hc⟩ := floor_dvd p k
  obtain ⟨e, he⟩ := pow_dvd_pow 2 hjk
  obtain ⟨d, rfl⟩ := hg
  simp only [Block.Covers] at *
  refine ⟨by omega, ?_⟩
  have h3 : floor (2 ^ j * d) k + 2 ^ k = 2 ^ j * (e * c + e) := by rw [hc, he]; ring
  rw [h3] at h1 ⊢
  have h4 : d < e * c + e := Nat.lt_of_mul_lt_mul_left h1.2
  calc q < 2 ^ j * d + 2 ^ j := hq.2
    _ = 2 ^ j * (d + 1) := by ring
    _ ≤ 2 ^ j * (e * c + e) := Nat.mul_le_mul_left _ h4

end Halves

/-! ## Tilings -/

/-- The blocks are aligned, lie in `P`, and cover each cell of `P` once. -/
structure Tiling (B : Block → Prop) (P : Nat → Prop) : Prop where
  aligned : ∀ b, B b → b.Aligned
  inside : ∀ b, B b → ∀ p, b.Covers p → P p
  covered : ∀ p, P p → ∃ b, B b ∧ b.Covers p
  unique : ∀ b c, B b → B c → ∀ p, b.Covers p → c.Covers p → b = c

namespace Tiling

variable {B B' : Block → Prop} {P : Nat → Prop} {h o : Nat}

theorem congr (t : Tiling B P) (hB : ∀ b, B' b ↔ B b) : Tiling B' P := by
  obtain rfl : B' = B := funext fun b => propext (hB b)
  exact t

theorem head_unique (t : Tiling B P) {b c : Block} (hb : B b) (hc : B c)
    (h : b.head = c.head) : b = c :=
  t.unique b c hb hc b.head b.covers_head (h ▸ c.covers_head)

theorem disjoint (t : Tiling B P) {b c : Block} (hb : B b) (hc : B c) (hne : b ≠ c) :
    b.Disjoint c :=
  fun p hp => hne (t.unique b c hb hc p hp.1 hp.2)

theorem covers_halves (p : Nat) :
    (Block.mk h (o + 1)).Covers p ↔ (Block.mk h o).Covers p ∨ (Block.mk (h + 2 ^ o) o).Covers p := by
  simp only [Block.Covers, pow_succ]; omega

theorem halves_disjoint (p : Nat) :
    ¬ ((Block.mk h o).Covers p ∧ (Block.mk (h + 2 ^ o) o).Covers p) := by
  simp only [Block.Covers]; omega

/-- Replace a block by its two halves. -/
theorem split (t : Tiling B P) (hb : B ⟨h, o + 1⟩)
    (hB : ∀ b, B' b ↔ (B b ∧ b ≠ ⟨h, o + 1⟩) ∨ b = ⟨h, o⟩ ∨ b = ⟨h + 2 ^ o, o⟩) : Tiling B' P := by
  have hal : 2 ^ (o + 1) ∣ h := t.aligned _ hb
  have hpow : 2 ^ o ∣ 2 ^ (o + 1) := ⟨2, pow_succ 2 o⟩
  -- a half meets no other block, as its parent does not
  have half : ∀ b c : Block, B b → b ≠ ⟨h, o + 1⟩ → (c = ⟨h, o⟩ ∨ c = ⟨h + 2 ^ o, o⟩) →
      ∀ p, b.Covers p → ¬ c.Covers p := by
    rintro b c hBb hne hc p hp hcp
    refine hne (t.unique b _ hBb hb p hp ((covers_halves p).mpr ?_))
    rcases hc with rfl | rfl
    · exact .inl hcp
    · exact .inr hcp
  refine ⟨?_, ?_, ?_, ?_⟩
  · intro b hBb
    rcases (hB b).mp hBb with ⟨hBb, _⟩ | rfl | rfl
    · exact t.aligned b hBb
    · exact hpow.trans hal
    · exact Nat.dvd_add (hpow.trans hal) (dvd_refl _)
  · intro b hBb p hp
    rcases (hB b).mp hBb with ⟨hBb, _⟩ | rfl | rfl
    · exact t.inside b hBb p hp
    · exact t.inside _ hb p ((covers_halves p).mpr (.inl hp))
    · exact t.inside _ hb p ((covers_halves p).mpr (.inr hp))
  · intro p hp
    obtain ⟨b, hBb, hbp⟩ := t.covered p hp
    by_cases hne : b = ⟨h, o + 1⟩
    · subst hne
      rcases (covers_halves p).mp hbp with hlo | hup
      · exact ⟨_, (hB _).mpr (.inr (.inl rfl)), hlo⟩
      · exact ⟨_, (hB _).mpr (.inr (.inr rfl)), hup⟩
    · exact ⟨b, (hB b).mpr (.inl ⟨hBb, hne⟩), hbp⟩
  · intro b c hBb hBc p hbp hcp
    rcases (hB b).mp hBb with ⟨hBb, hb'⟩ | hb' <;> rcases (hB c).mp hBc with ⟨hBc, hc'⟩ | hc'
    · exact t.unique b c hBb hBc p hbp hcp
    · exact absurd hcp (half b c hBb hb' hc' p hbp)
    · exact absurd hbp (half c b hBc hc' hb' p hcp)
    · rcases hb' with rfl | rfl <;> rcases hc' with rfl | rfl
      · rfl
      · exact absurd ⟨hbp, hcp⟩ (halves_disjoint p)
      · exact absurd ⟨hcp, hbp⟩ (halves_disjoint p)
      · rfl

/-- Replace two halves by the block they make. -/
theorem join (t : Tiling B P) (hal : 2 ^ (o + 1) ∣ h) (hlo : B ⟨h, o⟩) (hup : B ⟨h + 2 ^ o, o⟩)
    (hB : ∀ b, B' b ↔ (B b ∧ b ≠ ⟨h, o⟩ ∧ b ≠ ⟨h + 2 ^ o, o⟩) ∨ b = ⟨h, o + 1⟩) :
    Tiling B' P := by
  have apart : ∀ b : Block, B b → b ≠ ⟨h, o⟩ → b ≠ ⟨h + 2 ^ o, o⟩ → ∀ p, b.Covers p →
      ¬ (Block.mk h (o + 1)).Covers p := by
    intro b hBb hnl hnu p hbp hcp
    rcases (covers_halves p).mp hcp with hp | hp
    · exact hnl (t.unique b _ hBb hlo p hbp hp)
    · exact hnu (t.unique b _ hBb hup p hbp hp)
  refine ⟨?_, ?_, ?_, ?_⟩
  · intro b hBb
    rcases (hB b).mp hBb with ⟨hBb, _⟩ | rfl
    · exact t.aligned b hBb
    · exact hal
  · intro b hBb p hp
    rcases (hB b).mp hBb with ⟨hBb, _⟩ | rfl
    · exact t.inside b hBb p hp
    · rcases (covers_halves p).mp hp with hp | hp
      · exact t.inside _ hlo p hp
      · exact t.inside _ hup p hp
  · intro p hp
    obtain ⟨b, hBb, hbp⟩ := t.covered p hp
    by_cases hnl : b = ⟨h, o⟩
    · subst hnl; exact ⟨_, (hB _).mpr (.inr rfl), (covers_halves p).mpr (.inl hbp)⟩
    · by_cases hnu : b = ⟨h + 2 ^ o, o⟩
      · subst hnu; exact ⟨_, (hB _).mpr (.inr rfl), (covers_halves p).mpr (.inr hbp)⟩
      · exact ⟨b, (hB b).mpr (.inl ⟨hBb, hnl, hnu⟩), hbp⟩
  · intro b c hBb hBc p hbp hcp
    rcases (hB b).mp hBb with ⟨hBb, hb'⟩ | rfl <;> rcases (hB c).mp hBc with ⟨hBc, hc'⟩ | rfl
    · exact t.unique b c hBb hBc p hbp hcp
    · exact absurd hcp (apart b hBb hb'.1 hb'.2 p hbp)
    · exact absurd hbp (apart c hBc hc'.1 hc'.2 p hcp)
    · rfl

end Tiling

/-! ## Counting cells -/

/-- The cells of the blocks, if they are disjoint. -/
def size (bs : List Block) : Nat := (bs.map fun b => 2 ^ b.order).sum

def cells : List Block → Finset Nat
  | [] => ∅
  | b :: bs => Finset.Ico b.head (b.head + 2 ^ b.order) ∪ cells bs

section Count

variable {b : Block} {bs cs : List Block} {p : Nat}

end Count
end Dyadic
