import Mathlib.Algebra.Group.Nat.Defs
import Mathlib.Logic.Function.Basic
import TorexOS.Lib.Transition

/-!
# TorexOS.Vgaout

The VGA text console of `vga/vgaout.cpp` and `vga/cursor.h`.

The screen is memory addressed in characters from `raw_screen()`, so the pointer `screen` is an
integer. `writes` are the addresses written so far.

* `vgaPutchar`, `vgaLinefeed`, `vgaTap`, `vgaBackspace`, `vgaClear`, `vgaWrite`, `vgaPuts`: as the
  source computes them.
* `Placed`: the cursor is on the screen and the pointer is at the cursor. `InStep`: also, nothing
  outside the screen was written.
* `in_step_iff`: this holds after every call of a run exactly when the run never clears the screen
  and never goes back from the first cell.
-/

open Transition

namespace TorexOS
namespace Text

abbrev videoWidth : Nat := 80
abbrev videoHeight : Nat := 25

/-- `charactor`; `colour` is its `attribute`. -/
structure Charactor where
  ansi : BitVec 8
  colour : BitVec 8
  deriving DecidableEq

structure Cursor where
  x : Nat
  y : Nat
  deriving DecidableEq

namespace Cursor

/-- `xyToOffset`, in 16 bits. -/
def get (c : Cursor) : Nat := (c.x + c.y * videoWidth) % 2 ^ 16

/-- `set(uint16_t)` -/
def ofOffset (offset : Nat) : Cursor := ⟨offset % videoWidth, offset / videoWidth⟩

/-- `operator++` -/
def next (c : Cursor) : Cursor :=
  if videoWidth ≤ c.x + 1 then ⟨0, c.y + 1⟩ else ⟨c.x + 1, c.y⟩

end Cursor

structure Vga where
  cursor : Cursor
  screen : Int
  cells : Int → Charactor
  literColor : BitVec 8
  writes : List Int

namespace Vga

/-- A store to the cell at `a`. -/
def setCell (s : Vga) (a : Int) (c : Charactor) : Vga :=
  { s with cells := Function.update s.cells a c, writes := s.writes ++ [a] }

def setAnsi (s : Vga) (a : Int) (ch : BitVec 8) : Vga :=
  s.setCell a { s.cells a with ansi := ch }

def setAttribute (s : Vga) (a : Int) (c : BitVec 8) : Vga :=
  s.setCell a { s.cells a with colour := c }

/-- A loop that stores to the cells `is`, one after the other. -/
def fill (s : Vga) (is : List Nat) (f : Vga → Nat → Charactor) : Vga :=
  is.foldl (fun s (i : Nat) => s.setCell i (f s i)) s

/-- `cursor.set(x, y)` with `screen` at the same place. -/
def moveTo (s : Vga) (c : Cursor) (screen : Int) : Vga := { s with cursor := c, screen := screen }

/-- The two loops of `vga_linefeed`: every row moves up, the last becomes blank. -/
def scroll (s : Vga) : Vga :=
  let s := s.fill (List.range ((videoHeight - 1) * videoWidth)) fun s i =>
    s.cells (i + videoWidth : Nat)
  s.fill (List.range' ((videoHeight - 1) * videoWidth) videoWidth) fun s _ => ⟨0, s.literColor⟩

end Vga

open Vga

def vgaLinefeed (s : Vga) : Vga :=
  let y := s.cursor.y
  let (s, y) := if y = videoHeight - 1 then (s.scroll, y - 1) else (s, y)
  let y := y + 1
  let s := s.moveTo ⟨0, y⟩ (y * videoWidth : Nat)
  s.setAttribute s.screen s.literColor

def vgaPutchar (s : Vga) (ch : BitVec 8) : Vga :=
  let s := s.setAnsi s.screen ch
  let s := s.setAttribute s.screen s.literColor
  let s := { s with screen := s.screen + 1 }
  if videoWidth * videoHeight - 1 ≤ s.cursor.get then vgaLinefeed s
  else
    let s := s.setAttribute s.screen s.literColor
    { s with cursor := s.cursor.next }

def vgaTap (s : Vga) : Vga :=
  let x := s.cursor.x
  let y := s.cursor.y
  let x := (x >>> 3 + 1) <<< 3
  let (s, x) := if videoWidth ≤ x then (vgaLinefeed s, 0) else (s, x)
  s.moveTo ⟨x, y⟩ (y * videoWidth + x : Nat)

/-- `cursor.get() - 1` is converted to 16 bits; only the character of the cell is cleared. -/
def vgaBackspace (s : Vga) : Vga :=
  let s := s.moveTo (Cursor.ofOffset ((s.cursor.get + (2 ^ 16 - 1)) % 2 ^ 16)) (s.screen - 1)
  s.setAnsi s.screen 0

/-- `screen` is the variable of the loop. -/
def vgaClear (s : Vga) : Vga :=
  let s := s.fill (List.range (videoWidth * videoHeight)) fun _ _ => ⟨0, 0⟩
  s.moveTo (Cursor.ofOffset 0) (videoWidth * videoHeight : Nat)

/-- The `switch` of `vga_write` and `vga_puts`. -/
def vgaChar (s : Vga) (ch : BitVec 8) : Vga :=
  if ch = 0x0A#8 then vgaLinefeed s
  else if ch = 0x09#8 then vgaTap s
  else if ch = 0x08#8 then vgaBackspace s
  else vgaPutchar s ch

def vgaWrite (s : Vga) (str : List (BitVec 8)) : Vga := str.foldl vgaChar s

/-- Up to the NUL. -/
def vgaPuts (s : Vga) (str : List (BitVec 8)) : Vga := vgaWrite s (str.takeWhile (· ≠ 0#8))

def vgaUpdateScreenWithColor (s : Vga) (c : BitVec 8) : Vga :=
  s.fill (List.range (videoWidth * videoHeight)) fun s i =>
    { s.cells i with colour := c }

def vgaInitialize (s : Vga) (width height : Nat) : Vga :=
  let s := vgaUpdateScreenWithColor s s.literColor
  s.moveTo ⟨width, height⟩ (videoWidth * height + width : Nat)

inductive VgaCall where
  | putchar (ch : BitVec 8)
  | write (str : List (BitVec 8))
  | puts (str : List (BitVec 8))
  | linefeed
  | tap
  | backspace
  | clear

def VgaCall.exec (s : Vga) : VgaCall → Vga
  | .putchar ch => vgaPutchar s ch
  | .write str => vgaWrite s str
  | .puts str => vgaPuts s str
  | .linefeed => vgaLinefeed s
  | .tap => vgaTap s
  | .backspace => vgaBackspace s
  | .clear => vgaClear s

/-- One of the 2000 cells. -/
def OnScreen (a : Int) : Prop := 0 ≤ a ∧ a < (videoWidth * videoHeight : Nat)

/-- The cursor is on the screen and the pointer is at the cursor. -/
structure Placed (s : Vga) : Prop where
  x_lt : s.cursor.x < videoWidth
  y_lt : s.cursor.y < videoHeight
  screen_eq : s.screen = s.cursor.get

/-- Placed, and nothing outside the screen was written. -/
structure InStep (s : Vga) : Prop extends Placed s where
  writes_in : ∀ a ∈ s.writes, OnScreen a

/-- No backspace of the string finds the cursor at the first cell. -/
def NoUnderflow (s : Vga) (str : List (BitVec 8)) : Prop :=
  Every vgaChar (fun s ch => ch = 0x08#8 → s.cursor.get ≠ 0) s str

/-- The call is not a clear and does not go back from the first cell. -/
def VgaCall.Safe (s : Vga) : VgaCall → Prop
  | .write str => NoUnderflow s str
  | .puts str => NoUnderflow s (str.takeWhile (· ≠ 0#8))
  | .backspace => s.cursor.get ≠ 0
  | .clear => False
  | _ => True

def SafeRun (s : Vga) (calls : List VgaCall) : Prop :=
  Every VgaCall.exec (fun s c => c.Safe s) s calls

section Frame

variable {s : Vga} {a : Int} {ch : BitVec 8} {c : Charactor}
variable {is : List Nat} {f : Vga → Nat → Charactor}

@[simp] theorem setCell_cursor : (s.setCell a c).cursor = s.cursor := rfl
@[simp] theorem setCell_screen : (s.setCell a c).screen = s.screen := rfl
@[simp] theorem setCell_literColor : (s.setCell a c).literColor = s.literColor := rfl
@[simp] theorem setCell_writes : (s.setCell a c).writes = s.writes ++ [a] := rfl
@[simp] theorem setAnsi_cursor : (s.setAnsi a ch).cursor = s.cursor := rfl
@[simp] theorem setAnsi_screen : (s.setAnsi a ch).screen = s.screen := rfl
@[simp] theorem setAnsi_literColor : (s.setAnsi a ch).literColor = s.literColor := rfl
@[simp] theorem setAnsi_writes : (s.setAnsi a ch).writes = s.writes ++ [a] := rfl
@[simp] theorem setAttribute_cursor : (s.setAttribute a ch).cursor = s.cursor := rfl
@[simp] theorem setAttribute_screen : (s.setAttribute a ch).screen = s.screen := rfl
@[simp] theorem setAttribute_literColor : (s.setAttribute a ch).literColor = s.literColor := rfl
@[simp] theorem setAttribute_writes : (s.setAttribute a ch).writes = s.writes ++ [a] := rfl

@[simp] theorem moveTo_cursor {k : Cursor} : (s.moveTo k a).cursor = k := rfl
@[simp] theorem moveTo_screen {k : Cursor} : (s.moveTo k a).screen = a := rfl
@[simp] theorem moveTo_cells {k : Cursor} : (s.moveTo k a).cells = s.cells := rfl
@[simp] theorem moveTo_literColor {k : Cursor} : (s.moveTo k a).literColor = s.literColor := rfl
@[simp] theorem moveTo_writes {k : Cursor} : (s.moveTo k a).writes = s.writes := rfl

@[simp] theorem fill_nil : s.fill [] f = s := rfl

@[simp] theorem fill_cons {i : Nat} :
    s.fill (i :: is) f = (s.setCell (i : Int) (f s i)).fill is f := rfl

@[simp] theorem fill_cursor : (s.fill is f).cursor = s.cursor := by
  induction is generalizing s with
  | nil => rfl
  | cons i is ih => rw [fill_cons, ih, setCell_cursor]

@[simp] theorem fill_screen : (s.fill is f).screen = s.screen := by
  induction is generalizing s with
  | nil => rfl
  | cons i is ih => rw [fill_cons, ih, setCell_screen]

@[simp] theorem fill_literColor : (s.fill is f).literColor = s.literColor := by
  induction is generalizing s with
  | nil => rfl
  | cons i is ih => rw [fill_cons, ih, setCell_literColor]

theorem fill_writes : (s.fill is f).writes = s.writes ++ is.map Int.ofNat := by
  induction is generalizing s with
  | nil => exact (List.append_nil _).symm
  | cons i is ih =>
    rw [fill_cons, ih, setCell_writes, List.append_assoc]
    rfl

@[simp] theorem scroll_cursor : s.scroll.cursor = s.cursor := by
  rw [scroll, fill_cursor, fill_cursor]

@[simp] theorem scroll_literColor : s.scroll.literColor = s.literColor := by
  rw [scroll, fill_literColor, fill_literColor]

end Frame

namespace Cursor

variable {c : Cursor}

theorem get_eq (hx : c.x < videoWidth) (hy : c.y < videoHeight) : c.get = c.x + c.y * 80 := by
  simp only [get, videoWidth, videoHeight] at *
  exact Nat.mod_eq_of_lt (by omega)

theorem get_lt (hx : c.x < videoWidth) (hy : c.y < videoHeight) : c.get < 2000 := by
  have hg := get_eq hx hy
  simp only [videoWidth, videoHeight] at *
  omega

/-- `xyToOffset` undoes `OffsetToxy` on the screen. -/
theorem ofOffset_get {offset : Nat} (h : offset < 2000) : (ofOffset offset).get = offset := by
  simp only [get, ofOffset, videoWidth]
  omega

theorem ofOffset_x (offset : Nat) : (ofOffset offset).x < videoWidth :=
  Nat.mod_lt _ (by decide)

theorem ofOffset_y {offset : Nat} (h : offset < 2000) : (ofOffset offset).y < videoHeight := by
  simp only [ofOffset, videoWidth, videoHeight]
  omega

/-- `++` goes one place on, also at the end of a row. -/
theorem next_get (hx : c.x < videoWidth) (h : c.get < 1999) (hy : c.y < videoHeight) :
    c.next.x < videoWidth ∧ c.next.y < videoHeight ∧ c.next.get = c.get + 1 := by
  have hg := get_eq hx hy
  rw [hg] at h
  have hin : c.next.x < videoWidth ∧ c.next.y < videoHeight := by
    unfold next
    split <;> simp only [videoWidth, videoHeight] at * <;> omega
  refine ⟨hin.1, hin.2, ?_⟩
  rw [get_eq hin.1 hin.2, hg]
  unfold next
  split <;> simp only [videoWidth, videoHeight] at * <;> omega

end Cursor

theorem onScreen_iff {a : Int} : OnScreen a ↔ 0 ≤ a ∧ a < 2000 := Iff.rfl

theorem onScreen_ofNat {i : Nat} (h : i < 2000) : OnScreen (Int.ofNat i) :=
  ⟨Int.natCast_nonneg i, Int.ofNat_lt.mpr h⟩

section Spec

variable {s : Vga} {ch : BitVec 8}

/-- From the last row: the screen scrolls and the row stays the same. -/
theorem linefeed_last (h : s.cursor.y = 24) :
    vgaLinefeed s = (s.scroll.moveTo ⟨0, 24⟩ 1920).setAttribute 1920 s.literColor := by
  unfold vgaLinefeed
  simp only [h, videoHeight, videoWidth]
  rw [if_pos (by decide)]
  simp only [moveTo, scroll_literColor]
  rfl

theorem linefeed_above (h : s.cursor.y ≠ 24) :
    vgaLinefeed s = (s.moveTo ⟨0, s.cursor.y + 1⟩ ((s.cursor.y + 1) * 80 : Nat)).setAttribute
      ((s.cursor.y + 1) * 80 : Nat) s.literColor := by
  unfold vgaLinefeed
  simp only [videoHeight, videoWidth]
  rw [if_neg h]
  rfl

theorem linefeed_placed (hy : s.cursor.y < videoHeight) : Placed (vgaLinefeed s) := by
  by_cases h : s.cursor.y = 24
  · rw [linefeed_last h]
    exact ⟨by simp [videoWidth], by simp [videoHeight], by simp [Cursor.get, videoWidth]⟩
  · rw [linefeed_above h]
    have hy' : s.cursor.y + 1 < videoHeight := by
      simp only [videoHeight] at *
      omega
    have hc : Cursor.get ⟨0, s.cursor.y + 1⟩ = (s.cursor.y + 1) * 80 := by
      rw [Cursor.get_eq (c := ⟨0, s.cursor.y + 1⟩) (Nat.succ_pos 79) hy', Nat.zero_add]
    exact ⟨by simp [videoWidth], hy', by simp [hc]⟩

theorem linefeed_inStep (hy : s.cursor.y < videoHeight) (hw : ∀ a ∈ s.writes, OnScreen a) :
    InStep (vgaLinefeed s) := by
  refine ⟨linefeed_placed hy, fun a ha => ?_⟩
  by_cases h : s.cursor.y = 24
  · rw [linefeed_last h] at ha
    simp only [setAttribute_writes, moveTo_writes, scroll, fill_writes, List.append_assoc,
      List.mem_append, List.mem_map, List.mem_range, List.mem_range'_1, List.mem_singleton,
      videoWidth, videoHeight] at ha
    obtain ha | ⟨i, hi, rfl⟩ | ⟨i, hi, rfl⟩ | rfl := ha
    · exact hw a ha
    · exact onScreen_ofNat (by omega)
    · exact onScreen_ofNat (by omega)
    · exact onScreen_ofNat (by omega : 1920 < 2000)
  · rw [linefeed_above h] at ha
    simp only [setAttribute_writes, moveTo_writes, List.mem_append, List.mem_singleton] at ha
    cases ha with
    | inl ha => exact hw a ha
    | inr ha =>
      rw [ha, onScreen_iff]
      simp only [videoHeight] at hy
      omega

theorem Placed.screen_on (h : Placed s) : OnScreen s.screen := by
  have hg := Cursor.get_lt h.x_lt h.y_lt
  rw [h.screen_eq, onScreen_iff]
  omega

/-- At the last cell: the line feed that follows scrolls. -/
theorem putchar_last (h : 1999 ≤ s.cursor.get) :
    vgaPutchar s ch = vgaLinefeed
      { (s.setAnsi s.screen ch).setAttribute s.screen s.literColor with screen := s.screen + 1 } := by
  unfold vgaPutchar
  exact if_pos h

theorem putchar_before (h : s.cursor.get < 1999) :
    vgaPutchar s ch =
      { (s.setAnsi s.screen ch |>.setAttribute s.screen s.literColor).setAttribute (s.screen + 1)
          s.literColor with
        screen := s.screen + 1
        cursor := s.cursor.next } := by
  unfold vgaPutchar
  exact if_neg (Nat.not_le.mpr h)

theorem putchar_placed (h : Placed s) : Placed (vgaPutchar s ch) := by
  by_cases hl : 1999 ≤ s.cursor.get
  · rw [putchar_last hl]
    exact linefeed_placed h.y_lt
  · rw [not_le] at hl
    obtain ⟨hx, hy, hg⟩ := Cursor.next_get h.x_lt hl h.y_lt
    rw [putchar_before hl]
    refine ⟨hx, hy, ?_⟩
    simp only [hg, h.screen_eq]
    exact (Int.natCast_succ _).symm

theorem putchar_inStep (h : InStep s) : InStep (vgaPutchar s ch) := by
  refine ⟨putchar_placed h.toPlaced, fun a ha => ?_⟩
  have hs := h.screen_on
  by_cases hl : 1999 ≤ s.cursor.get
  · rw [putchar_last hl] at ha
    refine (linefeed_inStep ?_ ?_).writes_in a ha
    · exact h.y_lt
    · intro a ha
      simp only [setAttribute_writes, setAnsi_writes, List.append_assoc, List.mem_append,
        List.mem_singleton] at ha
      obtain ha | rfl | rfl := ha
      exacts [h.writes_in a ha, hs, hs]
  · rw [putchar_before (not_le.mp hl)] at ha
    simp only [setAttribute_writes, setAnsi_writes, List.append_assoc, List.mem_append,
      List.mem_singleton] at ha
    obtain ha | rfl | rfl | rfl := ha
    · exact h.writes_in a ha
    · exact hs
    · exact hs
    · rw [h.screen_eq, onScreen_iff]
      omega

/-- `vga_tap` within a row. -/
theorem tap_within (h : (s.cursor.x >>> 3 + 1) <<< 3 < 80) :
    vgaTap s = s.moveTo ⟨(s.cursor.x >>> 3 + 1) <<< 3, s.cursor.y⟩
      (s.cursor.y * 80 + (s.cursor.x >>> 3 + 1) <<< 3 : Nat) := by
  unfold vgaTap
  simp only [videoWidth]
  rw [if_neg (Nat.not_le.mpr h)]

/-- `vga_tap` past the right edge: the line feed, then back to the row it came from. -/
theorem tap_past (h : 80 ≤ (s.cursor.x >>> 3 + 1) <<< 3) :
    vgaTap s = (vgaLinefeed s).moveTo ⟨0, s.cursor.y⟩ (s.cursor.y * 80 : Nat) := by
  unfold vgaTap
  simp only [videoWidth]
  rw [if_pos h]
  rfl

theorem Placed.moveTo {c : Cursor} (hx : c.x < videoWidth) (hy : c.y < videoHeight) :
    Placed (s.moveTo c (c.y * 80 + c.x : Nat)) := by
  refine ⟨hx, hy, ?_⟩
  rw [moveTo_screen, moveTo_cursor, Cursor.get_eq hx hy, Nat.add_comm]

theorem tap_placed (h : Placed s) : Placed (vgaTap s) := by
  by_cases hx : (s.cursor.x >>> 3 + 1) <<< 3 < 80
  · rw [tap_within hx]
    exact Placed.moveTo (c := ⟨_, _⟩) hx h.y_lt
  · rw [tap_past (Nat.not_lt.mp hx)]
    exact Placed.moveTo (c := ⟨0, _⟩) (Nat.succ_pos 79) h.y_lt

theorem tap_inStep (h : InStep s) : InStep (vgaTap s) := by
  refine ⟨tap_placed h.toPlaced, ?_⟩
  by_cases hx : (s.cursor.x >>> 3 + 1) <<< 3 < 80
  · rw [tap_within hx]
    exact h.writes_in
  · rw [tap_past (Nat.not_lt.mp hx)]
    exact (linefeed_inStep h.y_lt h.writes_in).writes_in

theorem backspace_inStep (h : InStep s) (h0 : s.cursor.get ≠ 0) : InStep (vgaBackspace s) := by
  have hg := Cursor.get_lt h.x_lt h.y_lt
  have hback : (s.cursor.get + (2 ^ 16 - 1)) % 2 ^ 16 = s.cursor.get - 1 := by omega
  have hlt : s.cursor.get - 1 < 2000 := by omega
  unfold vgaBackspace
  simp only [hback]
  refine ⟨⟨Cursor.ofOffset_x _, Cursor.ofOffset_y hlt, ?_⟩, ?_⟩
  · simp only [setAnsi_screen, setAnsi_cursor, moveTo_screen, moveTo_cursor]
    rw [Cursor.ofOffset_get hlt, h.screen_eq]
    omega
  · intro a ha
    simp only [setAnsi_writes, moveTo_screen, moveTo_writes, List.mem_append,
      List.mem_singleton] at ha
    cases ha with
    | inl ha => exact h.writes_in a ha
    | inr ha =>
      rw [ha, h.screen_eq, onScreen_iff]
      omega

/-- Going back from the first cell writes the cell before the screen. -/
theorem backspace_underflow (h : Placed s) (h0 : s.cursor.get = 0) :
    -1 ∈ (vgaBackspace s).writes := by
  unfold vgaBackspace
  simp [h.screen_eq, h0]

theorem setCell_grows {a : Int} {c : Charactor} : s.writes <+: (s.setCell a c).writes :=
  List.prefix_append _ _

theorem fill_grows {is : List Nat} {f : Vga → Nat → Charactor} :
    s.writes <+: (s.fill is f).writes := by
  rw [fill_writes]
  exact List.prefix_append _ _

theorem linefeed_grows : s.writes <+: (vgaLinefeed s).writes := by
  by_cases h : s.cursor.y = 24
  · rw [linefeed_last h]
    have hs : s.writes <+: s.scroll.writes := fill_grows.trans fill_grows
    exact hs.trans (setCell_grows (s := s.scroll.moveTo ⟨0, 24⟩ 1920))
  · rw [linefeed_above h]
    rw [setAttribute_writes, moveTo_writes]
    exact List.prefix_append _ _

theorem putchar_grows : s.writes <+: (vgaPutchar s ch).writes := by
  have h : s.writes <+: ((s.setAnsi s.screen ch).setAttribute s.screen s.literColor).writes :=
    (setCell_grows (s := s)).trans (setCell_grows (s := s.setAnsi s.screen ch))
  by_cases hl : 1999 ≤ s.cursor.get
  · rw [putchar_last hl]
    refine List.IsPrefix.trans ?_ linefeed_grows
    exact h
  · rw [putchar_before (not_le.mp hl)]
    exact h.trans (List.prefix_append _ _)

theorem tap_grows : s.writes <+: (vgaTap s).writes := by
  by_cases hx : (s.cursor.x >>> 3 + 1) <<< 3 < 80
  · rw [tap_within hx, moveTo_writes]
  · rw [tap_past (not_lt.mp hx), moveTo_writes]
    exact linefeed_grows

theorem clear_screen : (vgaClear s).screen = 2000 := rfl

theorem clear_get : (vgaClear s).cursor.get = 0 := rfl

/-- After a clear the pointer is past the screen, and the next character goes there. -/
theorem clear_putchar : 2000 ∈ (vgaPutchar (vgaClear s) ch).writes := by
  have hg : (vgaClear s).cursor.get < 1999 := by
    rw [clear_get]
    omega
  rw [putchar_before hg]
  simp [clear_screen]

theorem backspace_grows : s.writes <+: (vgaBackspace s).writes := by
  unfold vgaBackspace
  rw [setAnsi_writes, moveTo_writes]
  exact List.prefix_append _ _

theorem char_grows : s.writes <+: (vgaChar s ch).writes := by
  unfold vgaChar
  split
  · exact linefeed_grows
  · split
    · exact tap_grows
    · split
      · exact backspace_grows
      · exact putchar_grows

/-- The cell before the screen was written. -/
def Spilled (s : Vga) : Prop := -1 ∈ s.writes

theorem InStep.not_spilled (h : InStep s) : ¬ Spilled s := by
  intro hs
  have h1 := h.writes_in _ hs
  rw [onScreen_iff] at h1
  omega

theorem char_inStep (h : InStep s) (h0 : ch = 0x08#8 → s.cursor.get ≠ 0) :
    InStep (vgaChar s ch) := by
  unfold vgaChar
  split
  · exact linefeed_inStep h.y_lt h.writes_in
  · split
    · exact tap_inStep h
    · split
      · rename_i hb
        exact backspace_inStep h (h0 hb)
      · exact putchar_inStep h

theorem char_spills (h : InStep s) (h0 : ¬ (ch = 0x08#8 → s.cursor.get ≠ 0)) :
    Spilled (vgaChar s ch) := by
  obtain ⟨rfl, hg⟩ := Classical.not_imp.mp h0
  exact backspace_underflow h.toPlaced (not_not.mp hg)

theorem write_inStep {str : List (BitVec 8)} (h : InStep s) :
    InStep (vgaWrite s str) ↔ NoUnderflow s str :=
  every_iff (fun _ _ => char_inStep) (fun _ _ => char_spills)
    (fun _ _ hs => char_grows.subset hs) (fun _ => InStep.not_spilled) h

/-- One call keeps the cursor in step exactly when it is safe. -/
theorem exec_inStep (h : InStep s) (c : VgaCall) : InStep (c.exec s) ↔ c.Safe s := by
  cases c with
  | putchar ch => exact iff_of_true (putchar_inStep h) trivial
  | write str => exact write_inStep h
  | puts str => exact write_inStep h
  | linefeed => exact iff_of_true (linefeed_inStep h.y_lt h.writes_in) trivial
  | tap => exact iff_of_true (tap_inStep h) trivial
  | backspace =>
    refine ⟨fun hb h0 => hb.not_spilled (backspace_underflow h.toPlaced h0), backspace_inStep h⟩
  | clear =>
    refine iff_of_false (fun hc => ?_) id
    have hs : (vgaClear s).screen = (vgaClear s).cursor.get := hc.screen_eq
    rw [clear_screen, clear_get] at hs
    omega

theorem initialize_inStep {width height : Nat} (hw : width < videoWidth) (hh : height < videoHeight)
    (h0 : s.writes = []) : InStep (vgaInitialize s width height) := by
  have hm : Placed ((vgaUpdateScreenWithColor s s.literColor).moveTo ⟨width, height⟩
      (height * videoWidth + width : Nat)) := Placed.moveTo (c := ⟨width, height⟩) hw hh
  rw [Nat.mul_comm height] at hm
  refine ⟨hm, fun a ha => ?_⟩
  rw [vgaInitialize, moveTo_writes, vgaUpdateScreenWithColor, fill_writes, h0, List.nil_append,
    List.mem_map] at ha
  obtain ⟨i, hi, rfl⟩ := ha
  exact onScreen_ofNat (List.mem_range.mp hi)

end Spec

/-- After every call of a run from `vga_initialize`, the cursor, the pointer and the writes are in
step exactly when no call is a clear and no backspace finds the cursor at the first cell. -/
theorem in_step_iff (s : Vga) (width height : Nat) (calls : List VgaCall) (hw : width < videoWidth)
    (hh : height < videoHeight) (h0 : s.writes = []) :
    (∀ pre, pre <+: calls → InStep (pre.foldl VgaCall.exec (vgaInitialize s width height))) ↔
      SafeRun (vgaInitialize s width height) calls :=
  prefixes_iff (fun _ h c _ => exec_inStep h c) (initialize_inStep hw hh h0)

/-- A screen of blanks. -/
def blankVga : Vga := ⟨⟨0, 0⟩, 0, fun _ => ⟨0, 0⟩, 0x5F#8, []⟩

theorem in_step_iff_middle :
    (∀ pre, pre <+: [VgaCall.putchar 65, .clear] →
      InStep (pre.foldl VgaCall.exec (vgaInitialize blankVga 40 12))) ↔
      SafeRun (vgaInitialize blankVga 40 12) [VgaCall.putchar 65, .clear] :=
  in_step_iff blankVga 40 12 _ (by decide) (by decide) rfl

/-- From the first cell: after a clear the next character is written past the screen, and a backspace
clears the cell before it. -/
theorem out_of_step :
    ¬ InStep (VgaCall.clear.exec (vgaInitialize blankVga 0 0)) ∧
      2000 ∈ ((VgaCall.putchar 65).exec (VgaCall.clear.exec (vgaInitialize blankVga 0 0))).writes ∧
      -1 ∈ (VgaCall.backspace.exec (vgaInitialize blankVga 0 0)).writes := by
  have h : InStep (vgaInitialize blankVga 0 0) := initialize_inStep (by decide) (by decide) rfl
  have h0 : (vgaInitialize blankVga 0 0).cursor.get = 0 := rfl
  generalize vgaInitialize blankVga 0 0 = s at h h0
  exact ⟨(exec_inStep h .clear).mp, clear_putchar, backspace_underflow h.toPlaced h0⟩

end Text
end TorexOS
