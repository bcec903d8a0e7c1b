import TorexOS.Vgaout

/-!
# TorexOS.Terminal

`vga_write` against a terminal of 25 rows of 80 characters.

* `Terminal`: the reference. A character is stored at the cursor, which goes on; a newline goes to the
  next row; a tab to the next column divisible by 8, or to the next row when there is none; past the
  last row the rows move up.
* `Agrees`: the screen shows the terminal's characters and its cursor.
* `terminal_iff`: the console follows the terminal, and writes over nothing it wrote, exactly when
  every tab at column 72 or later is met in the last row.
-/

open Transition

namespace TorexOS
namespace Text

structure Terminal where
  chars : Nat → Nat → BitVec 8
  x : Nat
  y : Nat

namespace Terminal

/-- Row `y` at column 0; when there is no such row, every row moves up and the last one is blank. -/
def toRow (t : Terminal) (y : Nat) : Terminal :=
  if y < videoHeight then { t with x := 0, y := y }
  else
    { chars := fun i j => if j + 1 < videoHeight then t.chars i (j + 1) else 0
      x := 0
      y := videoHeight - 1 }

def newline (t : Terminal) : Terminal := t.toRow (t.y + 1)

def print (t : Terminal) (ch : BitVec 8) : Terminal :=
  let t := { t with chars := fun i j => if i = t.x ∧ j = t.y then ch else t.chars i j }
  if t.x + 1 < videoWidth then { t with x := t.x + 1 } else t.newline

def tab (t : Terminal) : Terminal :=
  let x := (t.x / 8 + 1) * 8
  if x < videoWidth then { t with x := x } else t.newline

def put (t : Terminal) (ch : BitVec 8) : Terminal :=
  if ch = 0x0A#8 then t.newline
  else if ch = 0x09#8 then t.tab
  else t.print ch

def write (t : Terminal) (str : List (BitVec 8)) : Terminal := str.foldl put t

end Terminal

/-- The terminal that a screen shows. -/
def Vga.terminal (s : Vga) : Terminal where
  chars x y := (s.cells (y * videoWidth + x : Nat)).ansi
  x := s.cursor.x
  y := s.cursor.y

/-- The screen shows `t`, with the pointer at its cursor. -/
structure Agrees (s : Vga) (t : Terminal) : Prop extends Placed s where
  x_eq : s.cursor.x = t.x
  y_eq : s.cursor.y = t.y
  chars_eq : ∀ x y, x < videoWidth → y < videoHeight →
    (s.cells (y * videoWidth + x : Nat)).ansi = t.chars x y

/-- A tab with no tab stop left in its row is met in the last row only. -/
def NoLateTab (s : Vga) (str : List (BitVec 8)) : Prop :=
  Every vgaChar (fun s ch => ch = 0x09#8 → s.cursor.x < 72 ∨ s.cursor.y = 24) s str

/-- The rows by which `ch` makes the screen scroll. -/
def scrolls (s : Vga) (ch : BitVec 8) : Nat :=
  if s.cursor.y ≠ 24 then 0
  else if ch = 0x0A#8 then 1
  else if ch = 0x09#8 then if 72 ≤ s.cursor.x then 1 else 0
  else if s.cursor.x = 79 then 1 else 0

/-- Where the characters of the string are stored, counted from the first cell of the screen as it is
before the string: a row that has scrolled away counts like the others. -/
def places : Vga → List (BitVec 8) → List Int
  | _, [] => []
  | s, ch :: str =>
    let rest := (places (vgaChar s ch) str).map fun p : Int => p + (80 * scrolls s ch : Nat)
    if ch = 0x0A#8 ∨ ch = 0x09#8 then rest else s.screen :: rest

open Vga

section Cells

variable {s : Vga} {is js : List Nat} {f : Vga → Nat → Charactor} {n : Nat}

theorem fill_append : s.fill (is ++ js) f = (s.fill is f).fill js f := List.foldl_append

theorem setCell_cells {a b : Int} {c : Charactor} :
    (s.setCell a c).cells b = if b = a then c else s.cells b := Function.update_apply _ _ _ _

/-- A loop that copies each cell from the next row. -/
theorem fill_shift (n : Nat) (j : Nat) :
    (s.fill (List.range n) fun s i => s.cells (i + videoWidth : Nat)).cells j =
      if j < n then s.cells (j + videoWidth : Nat) else s.cells j := by
  induction n generalizing j with
  | zero => rfl
  | succ n ih =>
    rw [List.range_succ, fill_append, fill_cons, fill_nil, setCell_cells, ih, ih]
    simp only [videoWidth, Int.natCast_inj]
    grind

/-- A loop that blanks each cell. -/
theorem fill_blank (m n : Nat) (j : Nat) :
    (s.fill (List.range' m n) fun s _ => ⟨0, s.literColor⟩).cells j =
      if m ≤ j ∧ j < m + n then ⟨0, s.literColor⟩ else s.cells j := by
  induction n generalizing j with
  | zero =>
    rw [if_neg (by omega)]
    rfl
  | succ n ih =>
    rw [List.range'_1_concat, fill_append, fill_cons, fill_nil, setCell_cells, ih, fill_literColor]
    simp only [Int.natCast_inj]
    grind

theorem scroll_cells {j : Nat} (hj : j < 2000) :
    s.scroll.cells j = if j < 1920 then s.cells (j + 80 : Nat) else ⟨0, s.literColor⟩ := by
  simp only [scroll]
  rw [fill_blank, fill_shift, fill_literColor]
  simp only [videoWidth, videoHeight]
  by_cases h : j < 1920
  · rw [if_neg (by omega), if_pos h, if_pos h]
  · rw [if_pos (by omega), if_neg h]

theorem setAttribute_ansi {a b : Int} {c : BitVec 8} :
    ((s.setAttribute a c).cells b).ansi = (s.cells b).ansi := by
  unfold setAttribute
  rw [setCell_cells]
  split
  · rename_i h
    rw [h]
  · rfl

theorem setAnsi_ansi {a b : Int} {ch : BitVec 8} :
    ((s.setAnsi a ch).cells b).ansi = if b = a then ch else (s.cells b).ansi := by
  unfold setAnsi
  rw [setCell_cells]
  split <;> rfl

end Cells

section Step

variable {s : Vga} {t : Terminal} {ch : BitVec 8}

theorem toRow_in {y : Nat} (h : y < videoHeight) : t.toRow y = { t with x := 0, y := y } :=
  if_pos h

theorem toRow_past {y : Nat} (h : videoHeight ≤ y) :
    t.toRow y =
      ⟨fun i j => if j + 1 < videoHeight then t.chars i (j + 1) else 0, 0, videoHeight - 1⟩ :=
  if_neg (not_lt.mpr h)

/-- The line feed only looks at the row and the characters. -/
theorem linefeed_agrees (hy : s.cursor.y < videoHeight) (ht : s.cursor.y = t.y)
    (hc : ∀ x y, x < videoWidth → y < videoHeight →
      (s.cells (y * videoWidth + x : Nat)).ansi = t.chars x y) :
    Agrees (vgaLinefeed s) t.newline := by
  have hp := linefeed_placed hy
  unfold Terminal.newline
  rw [← ht]
  by_cases h : s.cursor.y = 24
  · rw [toRow_past (by simp [h, videoHeight])]
    refine ⟨hp, by simp [linefeed_last h], by simp [linefeed_last h, videoHeight], ?_⟩
    intro x y hx hy
    have hj : y * videoWidth + x < 2000 := by
      simp only [videoWidth, videoHeight] at *
      omega
    rw [linefeed_last h, setAttribute_ansi, moveTo_cells, scroll_cells hj]
    dsimp only
    by_cases hl : y + 1 < videoHeight
    · rw [if_pos hl, if_pos (by simp only [videoWidth, videoHeight] at *; omega), ← hc x _ hx hl,
        Nat.add_mul, Nat.one_mul, Nat.add_right_comm]
    · rw [if_neg hl, if_neg (by simp only [videoWidth, videoHeight] at *; omega)]
  · rw [toRow_in (by simp only [videoHeight] at *; omega)]
    refine ⟨hp, by simp [linefeed_above h], by simp [linefeed_above h], ?_⟩
    intro x y hx hy
    rw [linefeed_above h, setAttribute_ansi, moveTo_cells]
    exact hc x y hx hy

theorem print_agrees (h : Agrees s t) : Agrees (vgaPutchar s ch) (t.print ch) := by
  have hg := Cursor.get_eq h.x_lt h.y_lt
  have hx := h.x_lt
  have hy := h.y_lt
  -- the cell at the cursor is the only one that changes before the cursor goes on
  have hc : ∀ x y, x < videoWidth → y < videoHeight →
      ((s.setAnsi s.screen ch).cells (y * videoWidth + x : Nat)).ansi =
        if x = t.x ∧ y = t.y then ch else t.chars x y := by
    intro x y hx' hy'
    rw [setAnsi_ansi, h.chars_eq x y hx' hy', ← h.x_eq, ← h.y_eq, h.screen_eq, hg]
    simp only [Int.natCast_inj]
    congr 1
    simp only [videoWidth] at *
    grind
  have hp : Placed (vgaPutchar s ch) := putchar_placed h.toPlaced
  unfold Terminal.print
  by_cases hl : 1999 ≤ s.cursor.get
  · have hx79 : ¬ t.x + 1 < videoWidth := by
      rw [← h.x_eq]
      simp only [videoWidth, videoHeight] at *
      omega
    rw [putchar_last hl]
    simp only [if_neg hx79]
    refine linefeed_agrees h.y_lt h.y_eq ?_
    intro x y hx' hy'
    exact setAttribute_ansi.trans (hc x y hx' hy')
  · rw [putchar_before (not_le.mp hl)] at hp ⊢
    have hn : s.cursor.next = if t.x + 1 < videoWidth then ⟨t.x + 1, t.y⟩ else ⟨0, t.y + 1⟩ := by
      rw [Cursor.next, h.x_eq, h.y_eq, ← ite_not]
      simp only [not_le]
    by_cases hx79 : t.x + 1 < videoWidth
    · simp only [if_pos hx79] at hn ⊢
      refine ⟨hp, by simp [hn], by simp [hn], ?_⟩
      intro x y hx' hy'
      exact setAttribute_ansi.trans (setAttribute_ansi.trans (hc x y hx' hy'))
    · simp only [if_neg hx79] at hn ⊢
      have hy24 : t.y + 1 < videoHeight := by
        rw [← h.y_eq]
        rw [← h.x_eq] at hx79
        simp only [videoWidth, videoHeight] at *
        omega
      rw [Terminal.newline, toRow_in hy24]
      refine ⟨hp, by simp [hn], by simp [hn], ?_⟩
      intro x y hx' hy'
      exact setAttribute_ansi.trans (setAttribute_ansi.trans (hc x y hx' hy'))

/-- `x >>= 3; x++; x <<= 3` is the next multiple of 8. -/
theorem tap_column (x : Nat) : (x >>> 3 + 1) <<< 3 = (x / 8 + 1) * 8 := by
  rw [Nat.shiftLeft_eq, Nat.shiftRight_eq_div_pow]

theorem tab_agrees (h : Agrees s t) :
    Agrees (vgaTap s) t.tab ↔ (s.cursor.x < 72 ∨ s.cursor.y = 24) := by
  have hx := h.x_lt
  have hp := tap_placed h.toPlaced
  unfold Terminal.tab
  by_cases hw : (s.cursor.x >>> 3 + 1) <<< 3 < 80
  · rw [tap_within hw] at hp ⊢
    rw [tap_column] at hw hp ⊢
    refine iff_of_true ?_ (Or.inl (by omega))
    rw [h.x_eq] at hw
    simp only [if_pos hw]
    exact ⟨hp, by simp [h.x_eq], by simp [h.y_eq], h.chars_eq⟩
  · rw [tap_past (not_lt.mp hw)] at hp ⊢
    rw [tap_column] at hw
    have hw' : ¬ (t.x / 8 + 1) * 8 < videoWidth := h.x_eq ▸ hw
    simp only [if_neg hw']
    have hl := linefeed_agrees h.y_lt h.y_eq h.chars_eq
    by_cases hy : s.cursor.y = 24
    · refine iff_of_true ?_ (Or.inr hy)
      refine ⟨hp, hl.x_eq ▸ ?_, ?_, hl.chars_eq⟩
      · simp [linefeed_last hy]
      · rw [← hl.y_eq, linefeed_last hy]
        simp [hy]
    · -- the terminal goes down a row, the console goes back up
      refine iff_of_false (fun ha => ?_) (by omega)
      have hy' := ha.y_eq
      rw [← hl.y_eq, linefeed_above hy] at hy'
      simp at hy'

theorem char_agrees (h : Agrees s t) (hb : ch ≠ 0x08#8) :
    Agrees (vgaChar s ch) (t.put ch) ↔ (ch = 0x09#8 → s.cursor.x < 72 ∨ s.cursor.y = 24) := by
  unfold vgaChar Terminal.put
  by_cases hn : ch = 0x0A#8
  · rw [if_pos hn, if_pos hn]
    exact iff_of_true (linefeed_agrees h.y_lt h.y_eq h.chars_eq) fun ht => by simp_all
  · rw [if_neg hn, if_neg hn]
    by_cases ht : ch = 0x09#8
    · rw [if_pos ht, if_pos ht, tab_agrees h]
      exact ⟨fun hc _ => hc, fun hc => hc ht⟩
    · rw [if_neg ht, if_neg ht, if_neg hb]
      exact iff_of_true (print_agrees h) fun ht' => absurd ht' ht

theorem char_placed (h : Placed s) (hb : ch ≠ 0x08#8) : Placed (vgaChar s ch) := by
  unfold vgaChar
  split
  · exact linefeed_placed h.y_lt
  · split
    · exact tap_placed h
    · exact putchar_placed h

theorem linefeed_screen :
    (vgaLinefeed s).screen = if s.cursor.y = 24 then 1920 else ((s.cursor.y + 1) * 80 : Nat) := by
  split <;> rename_i h
  · rw [linefeed_last h]
    rfl
  · rw [linefeed_above h]
    rfl

/-- Counting the rows that scroll away, the pointer never goes back. -/
theorem linefeed_advances (h : Placed s) :
    s.screen ≤ (vgaLinefeed s).screen + (80 * scrolls s 0x0A#8 : Nat) := by
  have hs := h.screen_eq
  have hx := h.x_lt
  rw [Cursor.get_eq hx h.y_lt] at hs
  simp only [videoWidth] at hx
  rw [linefeed_screen, scrolls, if_pos rfl]
  by_cases hy : s.cursor.y = 24
  · rw [if_pos hy, if_neg (not_not.mpr hy)]
    omega
  · rw [if_neg hy, if_pos hy]
    omega

theorem tap_advances (h : Placed s) (ht : s.cursor.x < 72 ∨ s.cursor.y = 24) :
    s.screen ≤ (vgaTap s).screen + (80 * scrolls s 0x09#8 : Nat) := by
  have hs := h.screen_eq
  have hx := h.x_lt
  rw [Cursor.get_eq hx h.y_lt] at hs
  simp only [videoWidth] at hx
  by_cases hw : (s.cursor.x >>> 3 + 1) <<< 3 < 80
  · rw [tap_within hw, moveTo_screen, tap_column]
    omega
  · rw [tap_past (not_lt.mp hw), moveTo_screen]
    rw [tap_column] at hw
    have h72 : 72 ≤ s.cursor.x := by omega
    have hy : s.cursor.y = 24 := by omega
    rw [scrolls, if_neg (not_not.mpr hy), if_neg (by decide), if_pos rfl, if_pos h72]
    omega

theorem putchar_advances (h : Placed s) (hn : ch ≠ 0x0A#8) (ht : ch ≠ 0x09#8) :
    s.screen < (vgaPutchar s ch).screen + (80 * scrolls s ch : Nat) := by
  have hs := h.screen_eq
  have hx := h.x_lt
  have hy := h.y_lt
  rw [Cursor.get_eq hx hy] at hs
  by_cases hl : 1999 ≤ s.cursor.get
  · rw [Cursor.get_eq hx hy] at hl
    simp only [videoWidth, videoHeight] at hx hy
    have hy24 : s.cursor.y = 24 := by omega
    have hx79 : s.cursor.x = 79 := by omega
    have hlast : (vgaPutchar s ch).screen = 1920 := by
      rw [putchar_last (by rwa [Cursor.get_eq h.x_lt h.y_lt]), linefeed_screen]
      exact congrArg Nat.cast (if_pos hy24)
    rw [hlast, scrolls, if_neg (not_not.mpr hy24), if_neg hn, if_neg ht, if_pos hx79]
    omega
  · rw [putchar_before (not_le.mp hl)]
    dsimp only
    omega

/-- Every character is stored at a place past those of the characters before it. -/
theorem places_sorted {str : List (BitVec 8)} (hb : ∀ ch ∈ str, ch ≠ 0x08#8) :
    ∀ {s : Vga}, Placed s → NoLateTab s str →
      (places s str).Pairwise (· < ·) ∧ ∀ p ∈ places s str, s.screen ≤ p := by
  induction str with
  | nil => intro s _ _; simp [places]
  | cons ch str ih =>
    intro s h hl
    have hch := hb ch List.mem_cons_self
    obtain ⟨hs, hge⟩ := ih (fun c hc => hb c (List.mem_cons_of_mem _ hc)) (char_placed h hch) hl.2
    have hmap : ((places (vgaChar s ch) str).map
        fun p : Int => p + (80 * scrolls s ch : Nat)).Pairwise (· < ·) :=
      List.pairwise_map.mpr (hs.imp fun hlt => Int.add_lt_add_right hlt _)
    have hmem : ∀ p ∈ (places (vgaChar s ch) str).map fun p : Int => p + (80 * scrolls s ch : Nat),
        (vgaChar s ch).screen + (80 * scrolls s ch : Nat) ≤ p := by
      intro p hp
      obtain ⟨q, hq, rfl⟩ := List.mem_map.mp hp
      exact Int.add_le_add_right (hge q hq) _
    rw [places]
    by_cases hn : ch = 0x0A#8
    · rw [if_pos (Or.inl hn)]
      subst hn
      exact ⟨hmap, fun p hp => Int.le_trans (linefeed_advances h) (hmem p hp)⟩
    · by_cases ht : ch = 0x09#8
      · rw [if_pos (Or.inr ht)]
        subst ht
        exact ⟨hmap, fun p hp => Int.le_trans (tap_advances h (hl.1 rfl)) (hmem p hp)⟩
      · rw [if_neg (not_or.mpr ⟨hn, ht⟩)]
        have hchar : vgaChar s ch = vgaPutchar s ch := by
          rw [vgaChar, if_neg hn, if_neg ht, if_neg hch]
        have hadv := putchar_advances h hn ht
        rw [← hchar] at hadv
        have hlt := fun p hp => Int.lt_of_lt_of_le hadv (hmem p hp)
        refine ⟨List.pairwise_cons.mpr ⟨hlt, hmap⟩, fun p hp => ?_⟩
        cases List.mem_cons.mp hp with
        | inl hp => exact Int.le_of_eq hp.symm
        | inr hp => exact Int.le_of_lt (hlt p hp)

end Step

/-- While a string of characters, newlines and tabs is written, the console shows what the terminal
shows and stores no character where one of the string was stored before, exactly when every tab
without a tab stop in its row is met in the last row. -/
theorem terminal_iff (s : Vga) (str : List (BitVec 8)) (h : Placed s)
    (hb : ∀ ch ∈ str, ch ≠ 0x08#8) :
    ((∀ pre, pre <+: str → Agrees (vgaWrite s pre) (s.terminal.write pre)) ∧
        (places s str).Pairwise (· < ·)) ↔
      NoLateTab s str := by
  have hstart : Agrees s s.terminal := ⟨h, rfl, rfl, fun _ _ _ _ => rfl⟩
  have hrun : (∀ pre, pre <+: str → Agrees (vgaWrite s pre) (s.terminal.write pre)) ↔
      NoLateTab s str :=
    related_prefixes_iff (f := vgaChar) (fun _ _ ha ch hch => char_agrees ha (hb ch hch)) hstart
  exact ⟨fun hc => hrun.mp hc.1, fun hl => ⟨hrun.mpr hl, (places_sorted hb h hl).1⟩⟩

/-- A blank screen with the cursor at `c`. -/
def blankAt (c : Cursor) : Vga := blankVga.moveTo c c.get

theorem terminal_iff_corner :
    ((∀ pre, pre <+: [0x41#8, 0x09#8, 0x0A#8, 0x42#8] →
        Agrees (vgaWrite (blankAt ⟨79, 24⟩) pre) ((blankAt ⟨79, 24⟩).terminal.write pre)) ∧
        (places (blankAt ⟨79, 24⟩) [0x41#8, 0x09#8, 0x0A#8, 0x42#8]).Pairwise (· < ·)) ↔
      NoLateTab (blankAt ⟨79, 24⟩) [0x41#8, 0x09#8, 0x0A#8, 0x42#8] :=
  terminal_iff (blankAt ⟨79, 24⟩) _ ⟨by decide, by decide, rfl⟩ (by decide)

/-- A tab at column 72 of row 3: the terminal goes to row 4, the console to the start of row 3. -/
theorem tab_goes_back :
    (vgaWrite (blankAt ⟨72, 3⟩) [0x09#8]).cursor = ⟨0, 3⟩ ∧
      ((blankAt ⟨72, 3⟩).terminal.write [0x09#8]).y = 4 ∧
      ¬ Agrees (vgaWrite (blankAt ⟨72, 3⟩) [0x09#8]) ((blankAt ⟨72, 3⟩).terminal.write [0x09#8]) := by
  have hc : (vgaWrite (blankAt ⟨72, 3⟩) [0x09#8]).cursor = ⟨0, 3⟩ := rfl
  have hy : ((blankAt ⟨72, 3⟩).terminal.write [0x09#8]).y = 4 := rfl
  refine ⟨hc, hy, fun h => ?_⟩
  have he := h.y_eq
  rw [hc, hy] at he
  cases he

end Text
end TorexOS
