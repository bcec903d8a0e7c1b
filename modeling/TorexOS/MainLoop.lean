import TorexOS.Keyboard

/-!
# TorexOS.MainLoop

`loop` of `main.cpp`: read scan codes and echo the keys pressed.

* `keyMappingTable`: the first column of the table of `keyboard/scancode.cpp`.
* `MainLoop.iterate`: the body of the loop. It asks for four codes and looks at the first.
* `echoed_iff`: when the queue has drained, every key was echoed once, from the table, exactly when
  each turn of the loop met at most one key press, at its first code and with an entry in the table.
* `press_dropped`: of two presses waiting, the second is not echoed.
-/

namespace TorexOS

open Util Ps2 Transition

/-! The codes of `keyboard/scancode.hpp` for keys without a character. -/

namespace Key

protected def none : BitVec 8 := 0x00
def enter : BitVec 8 := 0x0A
def tab : BitVec 8 := 0x09
def esc : BitVec 8 := 0x1B
def backspace : BitVec 8 := 0x08
def ctrl : BitVec 8 := 0x81
def lshift : BitVec 8 := 0x82
def rshift : BitVec 8 := 0x83
def lalt : BitVec 8 := 0x85
def capslock : BitVec 8 := 0x86
def f1 : BitVec 8 := 0x87
def f2 : BitVec 8 := 0x88
def f3 : BitVec 8 := 0x89
def f4 : BitVec 8 := 0x8A
def f5 : BitVec 8 := 0x8B
def f6 : BitVec 8 := 0x8C
def f7 : BitVec 8 := 0x8D
def f8 : BitVec 8 := 0x8E
def f9 : BitVec 8 := 0x8F
def f10 : BitVec 8 := 0x90
def numlock : BitVec 8 := 0x91
def scrolllock : BitVec 8 := 0x92
def home : BitVec 8 := 0x93
def up : BitVec 8 := 0x94
def pageup : BitVec 8 := 0x95
def left : BitVec 8 := 0x96
def center : BitVec 8 := 0x97
def right : BitVec 8 := 0x98
def endKey : BitVec 8 := 0x99
def down : BitVec 8 := 0x9A
def pagedown : BitVec 8 := 0x9B
def ins : BitVec 8 := 0x9C
def del : BitVec 8 := 0x9D
def f11 : BitVec 8 := 0x9E
def f12 : BitVec 8 := 0x9F

/-- A character constant. -/
def ch (c : Char) : BitVec 8 := BitVec.ofNat 8 c.toNat

def apostrophe : BitVec 8 := 0x27
def backquote : BitVec 8 := 0x60
def backslash : BitVec 8 := 0x5C

end Key

open Key

/-- `MappingTableMax` -/
def mappingTableMax : Nat := 89

/-- The `NormalCode` of the entries of `KeyMappingTable`; `loop` does not use the other column. -/
def keyMappingTable : List (BitVec 8) := [
  Key.none, esc,
  ch '1', ch '2', ch '3', ch '4', ch '5', ch '6', ch '7', ch '8', ch '9', ch '0', ch '-', ch '=',
  backspace, tab,
  ch 'q', ch 'w', ch 'e', ch 'r', ch 't', ch 'y', ch 'u', ch 'i', ch 'o', ch 'p', ch '[', ch ']',
  enter, ctrl,
  ch 'a', ch 's', ch 'd', ch 'f', ch 'g', ch 'h', ch 'j', ch 'k', ch 'l', ch ';', apostrophe,
  backquote, lshift, backslash,
  ch 'z', ch 'x', ch 'c', ch 'v', ch 'b', ch 'n', ch 'm', ch ',', ch '.', ch '/',
  rshift, ch '*', lalt, ch ' ', capslock,
  f1, f2, f3, f4, f5, f6, f7, f8, f9, f10, numlock, scrolllock,
  home, up, pageup, ch '-', left, center, right, ch '+', endKey, down, pagedown, ins, del,
  Key.none, Key.none, Key.none, f11, f12]

theorem keyMappingTable_length : keyMappingTable.length = mappingTableMax := rfl

/-- The seven bits `ScanCode::code.name`. -/
def scanName (sc : BitVec 8) : Nat := (sc &&& 0x7F#8).toNat

/-- The bit `ScanCode::code.up`: the key was released. -/
def scanUp (sc : BitVec 8) : Bool := sc.getLsbD 7

/-- What the console was given, the indices used in `KeyMappingTable`, and the codes the keyboard
delivered. -/
structure MainLoop where
  keyboard : Keyboard 96
  delivered : List (BitVec 8)
  written : List (BitVec 8)
  lookups : List Nat

namespace MainLoop

/-- `KeyMappingTable[i].NormalCode`; past the table, whatever `beyond` it is in memory. -/
def normalCode (beyond : Nat → BitVec 8) (i : Nat) : BitVec 8 :=
  (keyMappingTable[i]?).getD (beyond i)

/-- `if(!sc.code.up) out << KeyMappingTable[sc.code.name].NormalCode` -/
def echo (beyond : Nat → BitVec 8) (s : MainLoop) (sc : BitVec 8) : MainLoop :=
  if !scanUp sc then
    { s with
      written := s.written ++ [normalCode beyond (scanName sc)]
      lookups := s.lookups ++ [scanName sc] }
  else s

/-- The body of the loop: `length > 0` codes were read, and `buf[0]` is used. -/
def iterate (beyond : Nat → BitVec 8) (s : MainLoop) : Option MainLoop :=
  match read s.keyboard.keyQueue 4 with
  | none => none
  | some (buf, q) =>
    let s := { s with keyboard := { s.keyboard with keyQueue := q } }
    match buf with
    | [] => some s
    | sc :: _ => some (s.echo beyond sc)

end MainLoop

inductive LoopEvent where
  | interrupt (sc : BitVec 8)
  | iterate

/-- The queue is never full when a code arrives. -/
def LoopEvent.Legal (s : MainLoop) : LoopEvent → Prop
  | .interrupt _ => s.keyboard.keyQueue.full = false
  | .iterate => True

instance (s : MainLoop) (e : LoopEvent) : Decidable (e.Legal s) :=
  match e with
  | .interrupt _ => inferInstanceAs (Decidable (_ = false))
  | .iterate => inferInstanceAs (Decidable True)

def LoopEvent.exec (beyond : Nat → BitVec 8) (s : MainLoop) : LoopEvent → Option MainLoop
  | .interrupt sc =>
    match topHalf s.keyboard (some sc) with
    | none => none
    | some (k, _) => some { s with keyboard := k, delivered := s.delivered ++ [sc] }
  | .iterate => s.iterate beyond

def MainLoop.start (led : KeyboardLED) : MainLoop := ⟨⟨.new 0, led⟩, [], [], []⟩

def loopSystem (beyond : Nat → BitVec 8) : System MainLoop LoopEvent where
  init s := ∃ led, s = .start led
  legal s e := e.Legal s
  step s e := e.exec beyond s

instance (beyond : Nat → BitVec 8) (s : MainLoop) (e : LoopEvent) :
    Decidable ((loopSystem beyond).legal s e) :=
  inferInstanceAs (Decidable (e.Legal s))

/-! ## What should be echoed -/

/-- The key presses among the codes. -/
def presses (codes : List (BitVec 8)) : List (BitVec 8) := codes.filter fun sc => !scanUp sc

/-- The characters of the keys pressed, `none` for a key that is not in the table. -/
def expected (codes : List (BitVec 8)) : List (Option (BitVec 8)) :=
  (presses codes).map fun sc => keyMappingTable[scanName sc]?

/-- Every press of `codes` was echoed once and in order, every lookup was within the table. -/
def MainLoop.Echoed (s : MainLoop) (codes : List (BitVec 8)) : Prop :=
  s.written.map some = expected codes ∧ ∀ i ∈ s.lookups, i < mappingTableMax

/-- The next turn of the loop finds at most one key press among its four codes, the first of them,
and it is one the table has. -/
def MainLoop.OnePress (s : MainLoop) : Prop :=
  let codes := s.keyboard.keyQueue.contents.take 4
  (∀ sc ∈ codes.head?, scanUp sc = false → scanName sc < mappingTableMax) ∧
    ∀ sc ∈ codes.tail, scanUp sc = true

def LoopEvent.Single (s : MainLoop) : LoopEvent → Prop
  | .interrupt _ => True
  | .iterate => s.OnePress

section Echo

variable {beyond : Nat → BitVec 8} {s t : MainLoop} {e : LoopEvent} {sc : BitVec 8}
variable {xs codes done : List (BitVec 8)} {ops : List LoopEvent}

theorem presses_append (xs ys : List (BitVec 8)) : presses (xs ++ ys) = presses xs ++ presses ys :=
  List.filter_append ..

theorem presses_cons (sc : BitVec 8) (xs : List (BitVec 8)) :
    presses (sc :: xs) = (if scanUp sc then [] else [sc]) ++ presses xs := by
  rw [presses, List.filter_cons]
  cases scanUp sc <;> rfl

theorem expected_append (xs ys : List (BitVec 8)) :
    expected (xs ++ ys) = expected xs ++ expected ys := by
  rw [expected, presses_append, List.map_append]; rfl

/-- Codes that are all releases. -/
theorem presses_eq_nil (h : ∀ sc ∈ xs, scanUp sc = true) : presses xs = [] := by
  rw [presses, List.filter_eq_nil_iff]
  intro sc hsc
  simp [h sc hsc]

namespace MainLoop

/-- `done` is what the loop has read, `xs` what waits in the queue. -/
structure Reads (s : MainLoop) (done xs : List (BitVec 8)) : Prop where
  holds : s.keyboard.keyQueue.Holds xs
  delivered : s.delivered = done ++ xs

theorem Reads.contents (h : s.Reads done xs) : s.keyboard.keyQueue.contents = xs :=
  h.holds.contents_eq

/-- An interrupt when the queue has room. -/
theorem Reads.interrupt (beyond : Nat → BitVec 8) (h : s.Reads done xs)
    (hl : (LoopEvent.interrupt sc).Legal s) :
    ∃ t, (LoopEvent.interrupt sc).exec beyond s = some t ∧ t.Reads done (xs ++ [sc]) ∧
      t.written = s.written ∧ t.lookups = s.lookups := by
  have hlt : xs.length < 96 := by
    have hfull : (xs.length == 96) = false := by rw [← h.holds.full_eq]; exact hl
    have hle := h.holds.ring.length_le
    simp only [beq_eq_false_iff_ne] at hfull
    omega
  obtain ⟨q', hq, hh⟩ := h.holds.push (by omega) sc
  rw [if_pos hlt] at hh
  obtain ⟨led, sent, ht⟩ := topHalf_push hq
  refine ⟨{ s with keyboard := ⟨q', led⟩, delivered := s.delivered ++ [sc] },
    by simp only [LoopEvent.exec, ht], ⟨hh, ?_⟩, rfl, rfl⟩
  rw [h.delivered, List.append_assoc]

/-- A turn of the loop takes four codes and echoes the first of them if it is a press. -/
theorem Reads.iterate (beyond : Nat → BitVec 8) (h : s.Reads done xs) :
    ∃ t, LoopEvent.iterate.exec beyond s = some t ∧
      t.Reads (done ++ xs.take 4) (xs.drop 4) ∧
      t.written = s.written ++
        (presses (xs.take 1)).map (fun sc => normalCode beyond (scanName sc)) ∧
      t.lookups = s.lookups ++ (presses (xs.take 1)).map scanName := by
  obtain ⟨q', hr, hh⟩ : ∃ q', read s.keyboard.keyQueue 4 = some (xs.take 4, q') ∧
      q'.Holds (xs.drop 4) := read_spec (by omega) h.holds
  have hd : s.delivered = done ++ xs.take 4 ++ xs.drop 4 := by
    rw [List.append_assoc, List.take_append_drop, h.delivered]
  cases xs with
  | nil =>
    refine ⟨{ s with keyboard := { s.keyboard with keyQueue := q' } }, ?_, ⟨hh, hd⟩, ?_, ?_⟩
    · simp only [LoopEvent.exec, MainLoop.iterate, hr, List.take_nil]
    · exact (List.append_nil _).symm
    · exact (List.append_nil _).symm
  | cons sc xs =>
    let s' : MainLoop := { s with keyboard := { s.keyboard with keyQueue := q' } }
    have hexec : LoopEvent.iterate.exec beyond s = some (s'.echo beyond sc) := by
      simp only [LoopEvent.exec, MainLoop.iterate, hr, List.take_succ_cons]
      rfl
    have hp : presses ((sc :: xs).take 1) = if scanUp sc then [] else [sc] := by
      rw [List.take_one, List.head?_cons, Option.toList_some, presses_cons]
      exact List.append_nil _
    refine ⟨s'.echo beyond sc, hexec, ?_⟩
    rw [hp]
    cases hup : scanUp sc with
    | true =>
      have he : s'.echo beyond sc = s' := by simp [echo, hup]
      rw [he]
      exact ⟨⟨hh, hd⟩, (List.append_nil _).symm, (List.append_nil _).symm⟩
    | false =>
      have he : s'.echo beyond sc = { s' with
          written := s.written ++ [normalCode beyond (scanName sc)]
          lookups := s.lookups ++ [scanName sc] } := by simp [echo, hup, s']
      rw [he]
      exact ⟨⟨hh, hd⟩, rfl, rfl⟩

/-- What a run with one press at a time keeps. -/
def Kept (s : MainLoop) : Prop :=
  ∃ xs done, s.Reads done xs ∧ s.Echoed done

/-- What is wrong for good: a press was not echoed, or a lookup was past the table. -/
def Missed (s : MainLoop) : Prop :=
  ∃ xs done, s.Reads done xs ∧ s.written.length ≤ (presses done).length ∧
    (s.written.length < (presses done).length ∨ ∃ i ∈ s.lookups, mappingTableMax ≤ i)

theorem kept_start (led : KeyboardLED) : (start led).Kept :=
  ⟨[], [], ⟨CircularQueue.holds_new (by omega) 0, rfl⟩, rfl, fun _ hi => by cases hi⟩

theorem Echoed.length_eq (h : s.Echoed codes) : s.written.length = (presses codes).length := by
  have := congrArg List.length h.1
  rwa [List.length_map, expected, List.length_map] at this

/-- A turn reads four codes and echoes at most one press. -/
theorem presses_take (xs : List (BitVec 8)) : presses (xs.take 4) =
    presses (xs.take 1) ++ presses ((xs.take 4).tail) := by
  cases xs with
  | nil => rfl
  | cons sc xs =>
    rw [← presses_append]
    rfl

/-- One turn from a state where all is well. -/
theorem Reads.iterate_kept (h : s.Reads done xs) (he : s.Echoed done) (hone : s.OnePress)
    (hs : LoopEvent.iterate.exec beyond s = some t) : t.Kept := by
  obtain ⟨u, hu, hr, hw, hlook⟩ := h.iterate beyond
  cases hs.symm.trans hu
  rw [OnePress, h.contents] at hone
  obtain ⟨hhead, htail⟩ := hone
  have hin : ∀ sc ∈ presses (xs.take 1), scanName sc < mappingTableMax := by
    intro sc hsc
    obtain ⟨hmem, hup⟩ := List.mem_filter.mp hsc
    refine hhead sc ?_ (by simpa using hup)
    cases xs with
    | nil => cases hmem
    | cons x xs => simpa using (List.mem_singleton.mp hmem).symm
  have hexp : (presses (xs.take 1)).map (fun sc => some (normalCode beyond (scanName sc))) =
      expected (xs.take 4) := by
    rw [expected, presses_take, presses_eq_nil htail, List.append_nil]
    refine List.map_congr_left fun sc hsc => ?_
    have hlt : scanName sc < keyMappingTable.length := hin sc hsc
    rw [normalCode, List.getElem?_eq_getElem hlt]; rfl
  refine ⟨_, _, hr, ?_, ?_⟩
  · rw [hw, List.map_append, he.1, List.map_map, expected_append, ← hexp]
    rfl
  · intro i hi
    rw [hlook, List.mem_append] at hi
    cases hi with
    | inl hi => exact he.2 i hi
    | inr hi =>
      obtain ⟨sc, hsc, rfl⟩ := List.mem_map.mp hi
      exact hin sc hsc

/-- One turn that finds a press behind the first code, or one the table does not have. -/
theorem Reads.iterate_missed (h : s.Reads done xs) (he : s.Echoed done) (hone : ¬ s.OnePress)
    (hs : LoopEvent.iterate.exec beyond s = some t) : t.Missed := by
  obtain ⟨u, hu, hr, hw, hlook⟩ := h.iterate beyond
  cases hs.symm.trans hu
  have hlen : (presses (done ++ xs.take 4)).length =
      t.written.length + (presses ((xs.take 4).tail)).length := by
    rw [presses_append, presses_take, hw]
    simp only [List.length_append, List.length_map, he.length_eq]
    omega
  refine ⟨_, _, hr, by omega, ?_⟩
  rw [OnePress, h.contents] at hone
  by_cases htail : ∀ sc ∈ (xs.take 4).tail, scanUp sc = true
  · right
    have hhead : ¬ ∀ sc ∈ (xs.take 4).head?, scanUp sc = false → scanName sc < mappingTableMax :=
      fun hh => hone ⟨hh, htail⟩
    cases xs with
    | nil => exact absurd (fun sc hsc => by cases hsc) hhead
    | cons sc xs =>
      have hsc : ¬ (scanUp sc = false → scanName sc < mappingTableMax) := by
        intro hi
        refine hhead fun x hx => ?_
        cases hx
        exact hi
      rw [Classical.not_imp] at hsc
      refine ⟨scanName sc, ?_, Nat.not_lt.mp hsc.2⟩
      rw [hlook, List.take_one, List.head?_cons, Option.toList_some, presses_cons, hsc.1]
      simp
  · left
    have hne : presses ((xs.take 4).tail) ≠ [] := by
      intro hnil
      refine htail fun sc hsc => ?_
      rw [presses, List.filter_eq_nil_iff] at hnil
      simpa using hnil sc hsc
    have := List.length_pos_iff.mpr hne
    omega

theorem Missed.exec (h : s.Missed) (hl : e.Legal s) (hs : e.exec beyond s = some t) : t.Missed := by
  obtain ⟨xs, done, hr, hle, hbad⟩ := h
  cases e with
  | interrupt sc =>
    obtain ⟨u, hu, hr', hw, hlook⟩ := hr.interrupt beyond hl
    cases hs.symm.trans hu
    refine ⟨_, _, hr', ?_⟩
    rw [hw, hlook]
    exact ⟨hle, hbad⟩
  | iterate =>
    obtain ⟨u, hu, hr', hw, hlook⟩ := hr.iterate beyond
    cases hs.symm.trans hu
    have hlen : (presses (done ++ xs.take 4)).length = (presses done).length +
        (presses (xs.take 1)).length + (presses ((xs.take 4).tail)).length := by
      rw [presses_append, presses_take]
      simp only [List.length_append]
      omega
    have hwl : t.written.length = s.written.length + (presses (xs.take 1)).length := by
      rw [hw, List.length_append, List.length_map]
    refine ⟨_, _, hr', by omega, ?_⟩
    cases hbad with
    | inl hlt => exact .inl (by omega)
    | inr hout =>
      obtain ⟨i, hi, hmax⟩ := hout
      exact .inr ⟨i, by rw [hlook]; exact List.mem_append_left _ hi, hmax⟩

theorem Kept.exec (h : s.Kept) (hl : e.Legal s) (hone : e.Single s)
    (hs : e.exec beyond s = some t) : t.Kept := by
  obtain ⟨xs, done, hr, he⟩ := h
  cases e with
  | interrupt sc =>
    obtain ⟨u, hu, hr', hw, hlook⟩ := hr.interrupt beyond hl
    cases hs.symm.trans hu
    refine ⟨_, _, hr', ?_⟩
    rw [Echoed, hw, hlook]
    exact he
  | iterate => exact hr.iterate_kept he hone hs

theorem Kept.not_missed (h : s.Kept) (hm : s.Missed) : False := by
  obtain ⟨xs, done, hr, he⟩ := h
  obtain ⟨ys, done', hr', _, hbad⟩ := hm
  have hxs : xs = ys := hr.contents.symm.trans hr'.contents
  have hd : done = done' := by
    have := hr.delivered.symm.trans hr'.delivered
    rw [hxs] at this
    exact List.append_cancel_right this
  subst hd
  cases hbad with
  | inl hlt => exact absurd he.length_eq (by omega)
  | inr hout =>
    obtain ⟨i, hi, hmax⟩ := hout
    have := he.2 i hi
    omega

end MainLoop

/-- Echo: after any run that drained the queue, every key press was echoed once, in order and
from within the table, exactly when each turn of the loop found at most one press among its codes,
at the front, with an entry in the table. -/
theorem echoed_iff (led : KeyboardLED)
    (h : replay (loopSystem beyond) (.start led) ops = some s)
    (hdrained : s.keyboard.keyQueue.contents = []) :
    s.Echoed s.delivered ↔
      Along (loopSystem beyond) (fun s e => e.Single s) (.start led) ops := by
  have hkept : s.Kept ↔ Along (loopSystem beyond) (fun s e => e.Single s) (.start led) ops := by
    refine along_iff (B := MainLoop.Missed) ?_ ?_ ?_ MainLoop.Kept.not_missed
      (MainLoop.kept_start led) h
    · exact fun s t e hk hl hone hs => hk.exec hl hone hs
    · intro s t e hk hl hone hs
      obtain ⟨xs, done, hr, he⟩ := hk
      cases e with
      | interrupt sc => exact absurd trivial hone
      | iterate => exact hr.iterate_missed he hone hs
    · exact fun s t e hm hl hs => hm.exec hl hs
  rw [← hkept]
  constructor
  · intro he
    have hreads : ∃ xs done, s.Reads done xs := by
      refine replay_keeps (P := fun s : MainLoop => ∃ xs done, s.Reads done xs) ?_ ?_ h
      · intro s t e hs hl hstep
        obtain ⟨xs, done, hr⟩ := hs
        cases e with
        | interrupt sc =>
          obtain ⟨u, hu, hr', _⟩ := hr.interrupt beyond hl
          cases hstep.symm.trans hu
          exact ⟨_, _, hr'⟩
        | iterate =>
          obtain ⟨u, hu, hr', _⟩ := hr.iterate beyond
          cases hstep.symm.trans hu
          exact ⟨_, _, hr'⟩
      · obtain ⟨xs, done, hr, _⟩ := MainLoop.kept_start led
        exact ⟨xs, done, hr⟩
    obtain ⟨xs, done, hr⟩ := hreads
    have hxs : xs = [] := hr.contents.symm.trans hdrained
    have hd : s.delivered = done := by rw [hr.delivered, hxs, List.append_nil]
    exact ⟨xs, done, hr, by rw [← hd]; exact he⟩
  · rintro ⟨xs, done, hr, he⟩
    have hxs : xs = [] := hr.contents.symm.trans hdrained
    rw [hr.delivered, hxs, List.append_nil]
    exact he

/-- A key pressed, echoed and released. -/
theorem echoed_iff_one : Along (loopSystem fun _ => 0#8) (fun s e => e.Single s) (.start ledsOff)
    [.interrupt 0x1E#8, .iterate, .interrupt 0x9E#8, .iterate] := by
  have he : (replay (loopSystem fun _ => 0#8) (.start ledsOff)
      [.interrupt 0x1E#8, .iterate, .interrupt 0x9E#8, .iterate]).map (fun s =>
        (s.keyboard.keyQueue.contents, s.delivered, s.written, s.lookups)) =
      some ([], [0x1E#8, 0x9E#8], [ch 'a'], [0x1E]) := by
    decide +kernel
  obtain ⟨s, hs, hl⟩ := Option.map_eq_some_iff.mp he
  simp only [Prod.mk.injEq] at hl
  obtain ⟨hq, hd, hw, hlook⟩ := hl
  refine (echoed_iff ledsOff hs hq).mp ?_
  rw [MainLoop.Echoed, hd, hw, hlook]
  decide

/-- A press is dropped: of two keys pressed before the loop comes round, one is echoed. -/
theorem press_dropped : ∃ s, replay (loopSystem fun _ => 0#8) (.start ledsOff)
      [.interrupt 0x1E#8, .interrupt 0x30#8, .iterate] = some s ∧
    s.keyboard.keyQueue.contents = [] ∧ s.delivered = [0x1E#8, 0x30#8] ∧ s.written = [ch 'a'] ∧
    expected s.delivered = [some (ch 'a'), some (ch 'b')] ∧ ¬ s.Echoed s.delivered := by
  have he : (replay (loopSystem fun _ => 0#8) (.start ledsOff)
      [.interrupt 0x1E#8, .interrupt 0x30#8, .iterate]).map (fun s =>
        (s.keyboard.keyQueue.contents, s.delivered, s.written)) =
      some ([], [0x1E#8, 0x30#8], [ch 'a']) := by
    decide +kernel
  obtain ⟨s, hs, hl⟩ := Option.map_eq_some_iff.mp he
  simp only [Prod.mk.injEq] at hl
  obtain ⟨hq, hd, hw⟩ := hl
  refine ⟨s, hs, hq, hd, hw, by rw [hd]; decide, fun hecho => ?_⟩
  have := hecho.length_eq
  rw [hw, hd] at this
  revert this
  decide

end Echo
end TorexOS
