import TorexOS.CircularQueue
import TorexOS.Lib.Transition

/-!
# TorexOS.Keyboard

The keyboard of `drivers/ps2/keyboard.cpp`: the interrupt handler fills a queue that `read` empties.

`read` takes no lock. `Reading.step` is one assignment or test of `read`, with those of `empty` and
`pop` in it, and the handler runs to completion between any two steps.

* `codes_kept`: as long as no interrupt fills the queue between two assignments of `pop`, every scan
  code the handler accepted is returned once and in order, or is still in the queue.
* `codes_lost`: 97 codes accepted, one returned, none left.
* `read_steps`: undisturbed, the steps make up the function `read`.
-/

namespace TorexOS
namespace Ps2

open Util Transition

structure KeyboardLED where
  scrollLock : Bool
  numLock : Bool
  capsLock : Bool
  deriving DecidableEq

/-- `Keyboard`, whose `keyQueue` has 96 elements in the source. -/
structure Keyboard (size : Nat) where
  keyQueue : CircularQueue (BitVec 8) size
  led : KeyboardLED

variable {size : Nat}

/-- The `switch` of `topHalf`: the LEDs after scan code `sc`, and whether they changed. -/
def KeyboardLED.toggle (led : KeyboardLED) (sc : BitVec 8) : KeyboardLED × Bool :=
  if sc = 0x3A#8 then ({ led with capsLock := !led.capsLock }, true)
  else if sc = 0x45#8 then ({ led with numLock := !led.numLock }, true)
  else if sc = 0x46#8 then ({ led with scrollLock := !led.scrollLock }, true)
  else (led, false)

/-- `KeyboardIRQHandler::topHalf`. `outBuf` is the scan code in the controller's output buffer, if
one is there and is not the mouse's. The result says whether the LEDs are sent to the keyboard. -/
def topHalf (k : Keyboard size) (outBuf : Option (BitVec 8)) : Option (Keyboard size × Bool) :=
  match outBuf with
  | none => some ({ k with led := (k.led.toggle 0).1 }, (k.led.toggle 0).2)
  | some sc =>
    if !k.keyQueue.full then
      match k.keyQueue.push sc with
      | none => none
      | some q => some (⟨q, (k.led.toggle sc).1⟩, (k.led.toggle sc).2)
    else some (k, false)

/-- `Keyboard::read`: at most `len` codes, and the queue after it. -/
def read (q : CircularQueue (BitVec 8) size) : Nat →
    Option (List (BitVec 8) × CircularQueue (BitVec 8) size)
  | 0 => some ([], q)
  | len + 1 =>
    if !q.empty then
      match q.pop with
      | none => none
      | some (sc, q) =>
        match read q len with
        | none => none
        | some (buf, q) => some (sc :: buf, q)
    else some ([], q)

theorem read_spec (hsize : size < 2 ^ 32) {len : Nat} :
    ∀ {q : CircularQueue (BitVec 8) size} {xs : List (BitVec 8)}, q.Holds xs →
      ∃ q', read q len = some (xs.take len, q') ∧ q'.Holds (xs.drop len) := by
  induction len with
  | zero => intro q xs h; exact ⟨q, rfl, h⟩
  | succ len ih =>
    intro q xs h
    cases xs with
    | nil => exact ⟨q, by rw [read, h.empty_eq]; rfl, h⟩
    | cons sc xs =>
      obtain ⟨q1, hp, h1⟩ := h.pop_cons hsize
      obtain ⟨q2, hr, h2⟩ := ih h1
      refine ⟨q2, ?_, h2⟩
      rw [read, h.empty_eq, hp]
      simp only [List.isEmpty_cons, Bool.not_false, if_true, hr, List.take_succ_cons]

/-! ## One assignment at a time -/

/-- Where `read` stands: the two tests of `empty` in its loop, `offset < size`, the two tests of
`empty` in `pop`, the assignments of `pop`, `buf[offset++] = ret`, and the return. -/
inductive Pc where
  | testFull
  | compare
  | testSize
  | popFull
  | popCompare
  | load
  | advance (ret : BitVec 8)
  | wrap (ret : BitVec 8)
  | clearFull (ret : BitVec 8)
  | store (ret : BitVec 8)
  | finish
  deriving DecidableEq

/-- A call of `read` under way: `buf` has the elements stored so far. -/
structure Reading where
  pc : Pc
  len : Nat
  buf : List (BitVec 8)

def Reading.goto (r : Reading) (pc : Pc) : Reading := { r with pc := pc }

def Reading.step (q : CircularQueue (BitVec 8) size) (r : Reading) :
    Option (CircularQueue (BitVec 8) size × Reading) :=
  match r.pc with
  | .testFull => some (q, r.goto (if q.isfull then .testSize else .compare))
  | .compare => some (q, r.goto (if q.first = q.last then .finish else .testSize))
  | .testSize => some (q, r.goto (if r.buf.length < r.len then .popFull else .finish))
  | .popFull => some (q, r.goto (if q.isfull then .load else .popCompare))
  | .popCompare => some (q, r.goto (if q.first = q.last then .store default else .load))
  | .load =>
    match q.index q.first with
    | none => none
    | some ret => some (q, r.goto (.advance ret))
  | .advance ret => some (q.advance, r.goto (.wrap ret))
  | .wrap ret => some (q.wrap, r.goto (.clearFull ret))
  | .clearFull ret => some (q.clearFull, r.goto (.store ret))
  | .store ret => some (q, { r with pc := .testFull, buf := r.buf ++ [ret] })
  | .finish => none

/-- The keyboard, the call of `read` under way, what earlier calls returned and what the handler
has put into the queue. -/
structure KeyState (size : Nat) where
  keyboard : Keyboard size
  reading : Option Reading
  returned : List (BitVec 8)
  accepted : List (BitVec 8)

inductive KeyEvent where
  | call (len : Nat)
  | step
  | interrupt (outBuf : Option (BitVec 8))

def KeyEvent.Legal (s : KeyState size) : KeyEvent → Prop
  | .call _ => s.reading = none
  | .step => s.reading.isSome
  | .interrupt _ => True

instance (s : KeyState size) (e : KeyEvent) : Decidable (e.Legal s) :=
  match e with
  | .call _ => decidable_of_iff (s.reading.isNone) Option.isNone_iff_eq_none
  | .step => inferInstanceAs (Decidable (s.reading.isSome = true))
  | .interrupt _ => inferInstanceAs (Decidable True)

def KeyState.stepReading (s : KeyState size) (r : Reading) : Option (KeyState size) :=
  if r.pc = .finish then some { s with reading := none, returned := s.returned ++ r.buf }
  else
    match r.step s.keyboard.keyQueue with
    | none => none
    | some (q, r) => some { s with keyboard := { s.keyboard with keyQueue := q }, reading := some r }

/-- The codes an interrupt puts into the queue. -/
def accepts (q : CircularQueue (BitVec 8) size) (outBuf : Option (BitVec 8)) : List (BitVec 8) :=
  if q.full then [] else outBuf.toList

def KeyEvent.exec (s : KeyState size) : KeyEvent → Option (KeyState size)
  | .call len => some { s with reading := some ⟨.testFull, len, []⟩ }
  | .step =>
    match s.reading with
    | none => none
    | some r => s.stepReading r
  | .interrupt outBuf =>
    match topHalf s.keyboard outBuf with
    | none => none
    | some (k, _) =>
      some { s with keyboard := k, accepted := s.accepted ++ accepts s.keyboard.keyQueue outBuf }

/-- A keyboard just constructed; its LEDs are not initialised. -/
def KeyState.start (size : Nat) (led : KeyboardLED) : KeyState size :=
  ⟨⟨.new 0, led⟩, none, [], []⟩

def keySystem (size : Nat) : System (KeyState size) KeyEvent where
  init s := ∃ led, s = .start size led
  legal s e := e.Legal s
  step s e := e.exec s

instance (s : KeyState size) (e : KeyEvent) : Decidable ((keySystem size).legal s e) :=
  inferInstanceAs (Decidable (e.Legal s))

/-! ## Interrupts in the middle of `pop` -/

/-- `pop` tested `isfull` and not yet the indices, or moved `first` and did not yet clear the flag. -/
def Pc.InPop : Pc → Prop
  | .popCompare | .wrap _ | .clearFull _ => True
  | _ => False

instance (pc : Pc) : Decidable pc.InPop := by
  cases pc <;> unfold Pc.InPop <;> infer_instance

/-- One more code makes `last` meet `first`. -/
def AlmostFull (q : CircularQueue (BitVec 8) size) : Prop :=
  q.isfull = false ∧ (q.last.toNat + 1) % size = q.first.toNat % size

instance (q : CircularQueue (BitVec 8) size) : Decidable (AlmostFull q) := by
  unfold AlmostFull; infer_instance

/-- The handler does not fill the queue in the middle of `pop`. -/
def KeyEvent.Harmless (s : KeyState size) : KeyEvent → Prop
  | .interrupt (some _) => ∀ r ∈ s.reading, r.pc.InPop → ¬ AlmostFull s.keyboard.keyQueue
  | _ => True

instance (s : KeyState size) (e : KeyEvent) : Decidable (e.Harmless s) := by
  rcases e with _ | _ | _ | _ <;> unfold KeyEvent.Harmless <;> infer_instance

/-- What a call of `read` knows at each step of the queue, which holds `xs`. -/
def Pc.Knows (q : CircularQueue (BitVec 8) size) (xs : List (BitVec 8)) : Pc → Prop
  | .testFull | .compare | .store _ | .finish => q.Holds xs
  | .testSize | .popFull | .load => q.Holds xs ∧ xs ≠ []
  | .popCompare => q.Holds xs ∧ xs ≠ [] ∧ q.isfull = false
  | .advance ret => q.Holds xs ∧ xs.head? = some ret
  | .wrap _ => q.Cells xs ∧ xs.length < size
  | .clearFull _ => q.Cells xs ∧ xs.length < size ∧ q.first.toNat < size

/-- The code taken off the queue and not yet stored. -/
def Pc.inFlight : Pc → List (BitVec 8)
  | .wrap ret | .clearFull ret | .store ret => [ret]
  | _ => []

/-- Returned, under way and left in the queue make up what was accepted. -/
def KeyState.Inv (s : KeyState size) : Prop :=
  match s.reading with
  | none => ∃ xs, s.keyboard.keyQueue.Holds xs ∧ s.returned ++ xs = s.accepted
  | some r => ∃ xs, r.pc.Knows s.keyboard.keyQueue xs ∧
      s.returned ++ (r.buf ++ (r.pc.inFlight ++ xs)) = s.accepted

section Steps

variable {q : CircularQueue (BitVec 8) size} {xs : List (BitVec 8)} {sc : BitVec 8}
variable {s t : KeyState size} {r : Reading} {e : KeyEvent}

theorem accepts_none : accepts q none = [] := by
  unfold accepts; split <;> rfl

/-- The handler's own test of `full` decides as the one in `push`. -/
theorem topHalf_push {k : Keyboard size} {q' : CircularQueue (BitVec 8) size}
    (h : k.keyQueue.push sc = some q') :
    ∃ led sent, topHalf k (some sc) = some (⟨q', led⟩, sent) := by
  unfold topHalf
  cases hf : k.keyQueue.full with
  | true =>
    have hq : some k.keyQueue = some q' := by
      rw [← h]; simp [CircularQueue.push, hf]
    cases hq
    exact ⟨_, _, rfl⟩
  | false =>
    simp only [h]
    exact ⟨_, _, rfl⟩

theorem holds_accept (sc : BitVec 8) (h : q.Holds xs) (hsize : size < 2 ^ 32) :
    ∃ q', q.push sc = some q' ∧ q'.Holds (xs ++ accepts q (some sc)) := by
  obtain ⟨q', hq, hh⟩ := h.push hsize sc
  refine ⟨q', hq, ?_⟩
  have hle := h.ring.length_le
  rw [accepts, h.full_eq]
  by_cases hl : xs.length = size
  · rw [if_neg (by omega)] at hh
    rw [if_pos (by simpa using hl), List.append_nil]
    exact hh
  · rw [if_pos (by omega)] at hh
    rw [if_neg (by simpa using hl)]
    exact hh

/-- A push in the middle of `pop` that does not fill the queue. -/
theorem cells_accept (sc : BitVec 8) (h : q.Cells xs) (hsize : size < 2 ^ 32)
    (hlt : xs.length < size) (hfill : ¬ AlmostFull q) :
    ∃ q', q.push sc = some q' ∧ q'.Cells (xs ++ accepts q (some sc)) ∧
      (xs ++ accepts q (some sc)).length < size ∧ q'.first = q.first := by
  cases hf : q.isfull with
  | true =>
    have hacc : accepts q (some sc) = [] := by
      rw [accepts, CircularQueue.full, hf]; rfl
    rw [hacc, List.append_nil]
    exact ⟨q, by simp [CircularQueue.push, CircularQueue.full, hf], h, hlt, rfl⟩
  | false =>
    obtain ⟨q', hq, hc, hfst, _⟩ := h.push hsize hf hlt sc
    have hacc : accepts q (some sc) = [sc] := by
      rw [accepts, CircularQueue.full, hf]; rfl
    have hroom : xs.length + 1 ≠ size := by
      intro hn
      refine hfill ⟨hf, ?_⟩
      rw [h.last_eq, Nat.mod_add_mod, Nat.add_assoc, hn, Nat.add_mod_right]
    rw [hacc]
    refine ⟨q', hq, hc, ?_, hfst⟩
    rw [List.length_append, List.length_singleton]
    omega

/-- The handler between two steps of `read` adds what it accepts to what `read` knows. -/
theorem Pc.Knows.accept {pc : Pc} (sc : BitVec 8) (h : pc.Knows q xs) (hsize : size < 2 ^ 32)
    (hharm : pc.InPop → ¬ AlmostFull q) :
    ∃ q', q.push sc = some q' ∧ pc.Knows q' (xs ++ accepts q (some sc)) := by
  have happ : ∀ ys : List (BitVec 8), xs ≠ [] → xs ++ ys ≠ [] := fun ys hne => by simp [hne]
  cases pc with
  | testFull => exact holds_accept sc h hsize
  | compare => exact holds_accept sc h hsize
  | store ret => exact holds_accept sc h hsize
  | finish => exact holds_accept sc h hsize
  | testSize =>
    obtain ⟨q', hq, hh⟩ := holds_accept sc h.1 hsize
    exact ⟨q', hq, hh, happ _ h.2⟩
  | popFull =>
    obtain ⟨q', hq, hh⟩ := holds_accept sc h.1 hsize
    exact ⟨q', hq, hh, happ _ h.2⟩
  | load =>
    obtain ⟨q', hq, hh⟩ := holds_accept sc h.1 hsize
    exact ⟨q', hq, hh, happ _ h.2⟩
  | popCompare =>
    obtain ⟨hh, hne, hf⟩ := h
    have hlt : xs.length < size := by
      have hn : xs.length ≠ size := by rw [ne_eq, ← hh.isfull_iff, hf]; decide
      have := hh.ring.length_le
      omega
    obtain ⟨q', hq, hh'⟩ := holds_accept sc hh hsize
    obtain ⟨q'', hq', _, hlt', _⟩ := cells_accept sc hh.toCells hsize hlt (hharm trivial)
    refine ⟨q', hq, hh', happ _ hne, ?_⟩
    rw [← Bool.not_eq_true, hh'.isfull_iff]
    omega
  | advance ret =>
    obtain ⟨q', hq, hh⟩ := holds_accept sc h.1 hsize
    refine ⟨q', hq, hh, ?_⟩
    rw [List.head?_append, h.2]; rfl
  | wrap ret =>
    obtain ⟨q', hq, hc, hlt, _⟩ := cells_accept sc h.1 hsize h.2 (hharm trivial)
    exact ⟨q', hq, hc, hlt⟩
  | clearFull ret =>
    obtain ⟨q', hq, hc, hlt, hfst⟩ := cells_accept sc h.1 hsize h.2.1 (hharm trivial)
    exact ⟨q', hq, hc, hlt, by rw [hfst]; exact h.2.2⟩

theorem ne_nil_of_unequal (h : q.Holds xs) (hne : q.first ≠ q.last) : xs ≠ [] := by
  intro hx
  exact hne (h.meet_iff.mpr (.inl hx))

/-- One step of `read`, one case for each place it can stand. -/
theorem Reading.step_knows (h : r.pc.Knows q xs) (hpos : 1 ≤ size) (hsize : size < 2 ^ 32)
    (hret : r.pc ≠ .finish) :
    ∃ q' r' ys, r.step q = some (q', r') ∧ r'.pc.Knows q' ys ∧
      r'.buf ++ (r'.pc.inFlight ++ ys) = r.buf ++ (r.pc.inFlight ++ xs) := by
  obtain ⟨pc, len, buf⟩ := r
  cases pc with
  | finish => exact absurd rfl hret
  | testFull =>
    cases hf : q.isfull with
    | true =>
      have hlen := h.isfull_iff.mp hf
      refine ⟨q, ⟨.testSize, len, buf⟩, xs, by simp [Reading.step, Reading.goto, hf],
        ⟨h, fun hx => ?_⟩, rfl⟩
      rw [hx, List.length_nil] at hlen
      omega
    | false =>
      exact ⟨q, ⟨.compare, len, buf⟩, xs, by simp [Reading.step, Reading.goto, hf], h, rfl⟩
  | compare =>
    by_cases he : q.first = q.last
    · -- also when an interrupt just filled the queue: `read` only ends early
      exact ⟨q, ⟨.finish, len, buf⟩, xs, by simp [Reading.step, Reading.goto, he], h, rfl⟩
    · exact ⟨q, ⟨.testSize, len, buf⟩, xs, by simp [Reading.step, Reading.goto, he],
        ⟨h, ne_nil_of_unequal h he⟩, rfl⟩
  | testSize =>
    by_cases hb : buf.length < len
    · exact ⟨q, ⟨.popFull, len, buf⟩, xs, by simp [Reading.step, Reading.goto, hb], h, rfl⟩
    · exact ⟨q, ⟨.finish, len, buf⟩, xs, by simp [Reading.step, Reading.goto, hb], h.1, rfl⟩
  | popFull =>
    cases hf : q.isfull with
    | true => exact ⟨q, ⟨.load, len, buf⟩, xs, by simp [Reading.step, Reading.goto, hf], h, rfl⟩
    | false =>
      exact ⟨q, ⟨.popCompare, len, buf⟩, xs, by simp [Reading.step, Reading.goto, hf],
        ⟨h.1, h.2, hf⟩, rfl⟩
  | popCompare =>
    obtain ⟨hh, hne, hf⟩ := h
    have he : q.first ≠ q.last := by
      rw [ne_eq, hh.meet_iff, ← hh.isfull_iff, hf]
      simp [hne]
    exact ⟨q, ⟨.load, len, buf⟩, xs, by simp [Reading.step, Reading.goto, he], ⟨hh, hne⟩, rfl⟩
  | load =>
    obtain ⟨hh, hne⟩ := h
    cases xs with
    | nil => exact absurd rfl hne
    | cons x xs =>
      exact ⟨q, ⟨.advance x, len, buf⟩, x :: xs,
        by simp [Reading.step, Reading.goto, hh.index_first], ⟨hh, rfl⟩, rfl⟩
  | advance ret =>
    obtain ⟨hh, hx⟩ := h
    cases xs with
    | nil => cases hx
    | cons x xs =>
      cases hx
      have hlen := hh.ring.length_le
      rw [List.length_cons] at hlen
      exact ⟨q.advance, ⟨.wrap ret, len, buf⟩, xs, rfl, ⟨hh.advance hsize, by omega⟩, rfl⟩
  | wrap ret =>
    obtain ⟨hc, hlt⟩ := h
    obtain ⟨hw, hfst⟩ := hc.wrap hpos
    exact ⟨q.wrap, ⟨.clearFull ret, len, buf⟩, xs, rfl, ⟨hw, hlt, hfst⟩, rfl⟩
  | clearFull ret =>
    obtain ⟨hc, hlt, hfst⟩ := h
    exact ⟨q.clearFull, ⟨.store ret, len, buf⟩, xs, rfl, hc.clearFull hfst hlt, rfl⟩
  | store ret =>
    refine ⟨q, ⟨.testFull, len, buf ++ [ret]⟩, xs, rfl, h, ?_⟩
    rw [Pc.inFlight, List.append_assoc]; rfl

theorem KeyState.inv_start (hpos : 1 ≤ size) (led : KeyboardLED) : (KeyState.start size led).Inv :=
  ⟨[], CircularQueue.holds_new hpos 0, rfl⟩

/-- A legal event that does no harm runs and keeps the invariant. -/
theorem KeyState.Inv.exec (h : s.Inv) (hpos : 1 ≤ size) (hsize : size < 2 ^ 32) (hl : e.Legal s)
    (hharm : e.Harmless s) : ∃ t, e.exec s = some t ∧ t.Inv := by
  obtain ⟨⟨q, led⟩, reading, returned, accepted⟩ := s
  cases e with
  | call len =>
    cases hl
    obtain ⟨xs, hh, ha⟩ := h
    exact ⟨_, rfl, xs, hh, by simpa [Pc.inFlight] using ha⟩
  | step =>
    cases reading with
    | none => cases hl
    | some r =>
      obtain ⟨xs, hk, ha⟩ := h
      by_cases hret : r.pc = .finish
      · refine ⟨⟨⟨q, led⟩, none, returned ++ r.buf, accepted⟩, ?_, xs, ?_, ?_⟩
        · simp [KeyEvent.exec, stepReading, hret]
        · rw [hret] at hk
          exact hk
        · rw [hret] at ha
          rw [List.append_assoc]
          exact ha
      · obtain ⟨q', r', ys, hs, hk', ha'⟩ := Reading.step_knows hk hpos hsize hret
        refine ⟨⟨⟨q', led⟩, some r', returned, accepted⟩, ?_, ys, hk', ?_⟩
        · simp [KeyEvent.exec, stepReading, hret, hs]
        · rw [ha']
          exact ha
  | interrupt outBuf =>
    cases outBuf with
    | none =>
      refine ⟨⟨⟨q, led⟩, reading, returned, accepted⟩, ?_, h⟩
      simp only [KeyEvent.exec, topHalf, accepts_none, List.append_nil]
      rfl
    | some sc =>
      cases reading with
      | none =>
        obtain ⟨xs, hh, ha⟩ := h
        obtain ⟨q', hq, hh'⟩ := holds_accept sc hh hsize
        obtain ⟨led', sent, ht⟩ := topHalf_push (k := ⟨q, led⟩) hq
        refine ⟨⟨⟨q', led'⟩, none, returned, accepted ++ accepts q (some sc)⟩,
          by simp only [KeyEvent.exec, ht], _, hh', ?_⟩
        rw [← List.append_assoc, ha]
      | some r =>
        obtain ⟨xs, hk, ha⟩ := h
        obtain ⟨q', hq, hk'⟩ := hk.accept sc hsize (hharm r rfl)
        obtain ⟨led', sent, ht⟩ := topHalf_push (k := ⟨q, led⟩) hq
        refine ⟨⟨⟨q', led'⟩, some r, returned, accepted ++ accepts q (some sc)⟩,
          by simp only [KeyEvent.exec, ht], _, hk', ?_⟩
        simp only [← List.append_assoc] at ha ⊢
        rw [ha]

theorem reach_inv (hpos : 1 ≤ size) (hsize : size < 2 ^ 32)
    (h : Reach (keySystem size) (fun s e => e.Harmless s) s) : s.Inv := by
  refine h.invariant (P := KeyState.Inv) ?_ ?_
  · rintro s ⟨led, rfl⟩
    exact KeyState.inv_start hpos led
  · intro s t e hi hl hharm hs
    obtain ⟨t', ht, hi'⟩ := hi.exec hpos hsize hl hharm
    cases hs.symm.trans ht
    exact hi'

/-- Scan codes are kept in every run whose interrupts do not fill the queue in the middle of
`pop`: between calls of `read`, the codes returned and then those in the queue are the codes
accepted. And no event of such a run leaves the array. -/
theorem codes_kept (hpos : 1 ≤ size) (hsize : size < 2 ^ 32)
    (h : Reach (keySystem size) (fun s e => e.Harmless s) s) :
    (s.reading = none → s.returned ++ s.keyboard.keyQueue.contents = s.accepted) ∧
      ∀ e : KeyEvent, e.Legal s → e.Harmless s → e.exec s ≠ none := by
  have hinv := reach_inv hpos hsize h
  constructor
  · intro hr
    rw [KeyState.Inv, hr] at hinv
    obtain ⟨xs, hh, ha⟩ := hinv
    rw [hh.contents_eq]
    exact ha
  · intro e hl hharm
    obtain ⟨t, ht, _⟩ := hinv.exec hpos hsize hl hharm
    rw [ht]; exact Option.some_ne_none t

end Steps

def ledsOff : KeyboardLED := ⟨false, false, false⟩

/-- Three keys pressed, the last one while `read` is in the middle of `pop`. -/
theorem codes_kept_read : ∃ s : KeyState 96, s.returned = [0x1E#8] ∧
    s.keyboard.keyQueue.contents = [0x1F#8, 0x20#8] ∧ s.accepted = [0x1E#8, 0x1F#8, 0x20#8] ∧
    s.returned ++ s.keyboard.keyQueue.contents = s.accepted := by
  have he : (replay ((keySystem 96).guard fun s e => e.Harmless s) (.start 96 ledsOff)
      (.interrupt (some 0x1E#8) :: .interrupt (some 0x1F#8) :: .call 1 :: List.replicate 7 .step ++
        .interrupt (some 0x20#8) :: List.replicate 7 .step)).map (fun s =>
      (s.reading.isNone, s.returned, s.keyboard.keyQueue.contents, s.accepted)) =
      some (true, [0x1E#8], [0x1F#8, 0x20#8], [0x1E#8, 0x1F#8, 0x20#8]) := by
    decide +kernel
  obtain ⟨s, hs, hl⟩ := Option.map_eq_some_iff.mp he
  simp only [Prod.mk.injEq, Option.isNone_iff_eq_none] at hl
  obtain ⟨hr, hret, hq, hacc⟩ := hl
  have hreach : Reach (keySystem 96) (fun s e => e.Harmless s) s :=
    .replay_guard (.init ⟨ledsOff, rfl⟩) hs
  exact ⟨s, hret, hq, hacc, (codes_kept (by omega) (by omega) hreach).1 hr⟩

/-- The events of `codes_lost`: 95 codes wait, a call of `read` for one code has moved `first`, two
more codes come and fill the queue, `read` goes on, clears `isfull` and returns. -/
def lostEvents : List KeyEvent :=
  List.replicate 95 (.interrupt (some 0x1E#8)) ++ .call 1 :: List.replicate 7 .step ++
    List.replicate 2 (.interrupt (some 0x1F#8)) ++ List.replicate 6 .step

/-- A full queue is lost: 97 codes are accepted, one is returned, none is left. -/
theorem codes_lost : ∃ s : KeyState 96, Reach (keySystem 96) (fun _ _ => True) s ∧
    s.reading = none ∧ s.accepted.length = 97 ∧ s.returned = [0x1E#8] ∧
    s.keyboard.keyQueue.contents = [] ∧
    s.returned ++ s.keyboard.keyQueue.contents ≠ s.accepted := by
  have he : (replay (keySystem 96) (.start 96 ledsOff) lostEvents).map (fun s =>
      (s.reading.isNone, s.accepted.length, s.returned, s.keyboard.keyQueue.contents)) =
      some (true, 97, [0x1E#8], []) := by
    decide +kernel
  obtain ⟨s, hs, hl⟩ := Option.map_eq_some_iff.mp he
  simp only [Prod.mk.injEq, Option.isNone_iff_eq_none] at hl
  obtain ⟨hr, hacc, hret, hq⟩ := hl
  refine ⟨s, Reach.replay (.init ⟨ledsOff, rfl⟩) hs, hr, hacc, hret, hq, ?_⟩
  intro h
  rw [hret, hq] at h
  rw [← h] at hacc
  cases hacc

/-! ## Undisturbed -/

section Undisturbed

variable {q q' : CircularQueue (BitVec 8) size} {led : KeyboardLED} {r r' : Reading}
variable {returned accepted buf codes : List (BitVec 8)} {len : Nat} {sc : BitVec 8}
variable {s t u : KeyState size}

/-- Steps of `read` and nothing else lead from `s` to `t`. -/
def Runs (s t : KeyState size) : Prop :=
  ∃ n, replay (keySystem size) s (List.replicate n .step) = some t

theorem Runs.trans (h : Runs s t) (h' : Runs t u) : Runs s u := by
  obtain ⟨n, hn⟩ := h
  obtain ⟨m, hm⟩ := h'
  refine ⟨n + m, ?_⟩
  rw [← List.replicate_append_replicate]
  exact replay_append hn hm

theorem runs_step (h : s.reading = some r) (hs : s.stepReading r = some t) : Runs s t := by
  refine ⟨1, ?_⟩
  have hl : (keySystem size).legal s .step := by
    change s.reading.isSome = true
    rw [h]; rfl
  have he : (keySystem size).step s .step = some t := by
    change (match s.reading with | none => none | some r => s.stepReading r) = some t
    rw [h]; exact hs
  rw [List.replicate_one, replay, if_pos hl, he]
  rfl

theorem runs_goto {pc pc' : Pc} {buf' : List (BitVec 8)} (hret : pc ≠ .finish)
    (hs : Reading.step q ⟨pc, len, buf⟩ = some (q', ⟨pc', len, buf'⟩)) :
    Runs ⟨⟨q, led⟩, some ⟨pc, len, buf⟩, returned, accepted⟩
      ⟨⟨q', led⟩, some ⟨pc', len, buf'⟩, returned, accepted⟩ :=
  runs_step (r := ⟨pc, len, buf⟩) rfl (by simp [KeyState.stepReading, hret, hs])

/-- A test leaves the queue and the buffer alone. -/
theorem runs_test {pc pc' : Pc} (hret : pc ≠ .finish)
    (hs : Reading.step q ⟨pc, len, buf⟩ = some (q, ⟨pc', len, buf⟩)) :
    Runs ⟨⟨q, led⟩, some ⟨pc, len, buf⟩, returned, accepted⟩
      ⟨⟨q, led⟩, some ⟨pc', len, buf⟩, returned, accepted⟩ :=
  runs_goto hret hs

/-- The test of the loop, on a queue that is empty or not. -/
theorem runs_empty : Runs ⟨⟨q, led⟩, some ⟨.testFull, len, buf⟩, returned, accepted⟩
    ⟨⟨q, led⟩, some ⟨if q.empty then .finish else .testSize, len, buf⟩, returned, accepted⟩ := by
  cases hf : q.isfull with
  | true =>
    have he : q.empty = false := by simp [CircularQueue.empty, hf]
    have h1 : Runs ⟨⟨q, led⟩, some ⟨.testFull, len, buf⟩, returned, accepted⟩
        ⟨⟨q, led⟩, some ⟨.testSize, len, buf⟩, returned, accepted⟩ :=
      runs_test (by decide) (by simp [Reading.step, Reading.goto, hf])
    rw [he]
    exact h1
  | false =>
    have he : q.empty = (q.first == q.last) := by simp [CircularQueue.empty, hf]
    have h1 : Runs ⟨⟨q, led⟩, some ⟨.testFull, len, buf⟩, returned, accepted⟩
        ⟨⟨q, led⟩, some ⟨.compare, len, buf⟩, returned, accepted⟩ :=
      runs_test (by decide) (by simp [Reading.step, Reading.goto, hf])
    exact h1.trans (runs_test (by decide) (by simp [Reading.step, Reading.goto, he]))

/-- `pop` on a queue that is not empty, and the assignment of its result. -/
theorem runs_pop (he : q.empty = false) (hp : q.pop = some (sc, q')) :
    Runs ⟨⟨q, led⟩, some ⟨.popFull, len, buf⟩, returned, accepted⟩
      ⟨⟨q', led⟩, some ⟨.testFull, len, buf ++ [sc]⟩, returned, accepted⟩ := by
  have hload : Runs ⟨⟨q, led⟩, some ⟨.popFull, len, buf⟩, returned, accepted⟩
      ⟨⟨q, led⟩, some ⟨.load, len, buf⟩, returned, accepted⟩ := by
    cases hf : q.isfull with
    | true => exact runs_test (by decide) (by simp [Reading.step, Reading.goto, hf])
    | false =>
      have hne : q.first ≠ q.last := by simpa [CircularQueue.empty, hf] using he
      have h1 : Runs ⟨⟨q, led⟩, some ⟨.popFull, len, buf⟩, returned, accepted⟩
          ⟨⟨q, led⟩, some ⟨.popCompare, len, buf⟩, returned, accepted⟩ :=
        runs_test (by decide) (by simp [Reading.step, Reading.goto, hf])
      exact h1.trans (runs_test (by decide) (by simp [Reading.step, Reading.goto, hne]))
  rw [CircularQueue.pop, he] at hp
  simp only [Bool.not_false, if_true] at hp
  cases hx : q.index q.first with
  | none => rw [hx] at hp; cases hp
  | some x =>
    rw [hx] at hp
    cases hp
    have h1 : Runs ⟨⟨q, led⟩, some ⟨.load, len, buf⟩, returned, accepted⟩
        ⟨⟨q, led⟩, some ⟨.advance sc, len, buf⟩, returned, accepted⟩ :=
      runs_test (by decide) (by simp [Reading.step, Reading.goto, hx])
    have h2 : Runs ⟨⟨q, led⟩, some ⟨.advance sc, len, buf⟩, returned, accepted⟩
        ⟨⟨q.advance, led⟩, some ⟨.wrap sc, len, buf⟩, returned, accepted⟩ :=
      runs_goto (by simp) rfl
    have h3 : Runs ⟨⟨q.advance, led⟩, some ⟨.wrap sc, len, buf⟩, returned, accepted⟩
        ⟨⟨q.advance.wrap, led⟩, some ⟨.clearFull sc, len, buf⟩, returned, accepted⟩ :=
      runs_goto (by simp) rfl
    have h4 : Runs ⟨⟨q.advance.wrap, led⟩, some ⟨.clearFull sc, len, buf⟩, returned, accepted⟩
        ⟨⟨q.advance.wrap.clearFull, led⟩, some ⟨.store sc, len, buf⟩, returned, accepted⟩ :=
      runs_goto (by simp) rfl
    exact hload.trans (h1.trans (h2.trans (h3.trans (h4.trans (runs_goto (by simp) rfl)))))

theorem runs_return : Runs ⟨⟨q, led⟩, some ⟨.finish, len, buf⟩, returned, accepted⟩
    ⟨⟨q, led⟩, none, returned ++ (buf ++ []), accepted⟩ :=
  runs_step rfl (by simp [KeyState.stepReading])

/-- Without interrupts the steps of a call do what the function `read` does. -/
theorem read_steps {n : Nat} (h : read q n = some (codes, q')) (hlen : len = buf.length + n) :
    Runs ⟨⟨q, led⟩, some ⟨.testFull, len, buf⟩, returned, accepted⟩
      ⟨⟨q', led⟩, none, returned ++ (buf ++ codes), accepted⟩ := by
  induction n generalizing q buf codes with
  | zero =>
    cases h
    refine runs_empty.trans ?_
    split
    · exact runs_return
    · have h1 : Runs ⟨⟨q', led⟩, some ⟨.testSize, len, buf⟩, returned, accepted⟩
          ⟨⟨q', led⟩, some ⟨.finish, len, buf⟩, returned, accepted⟩ :=
        runs_test (by decide) (by simp [Reading.step, Reading.goto, hlen])
      exact h1.trans runs_return
  | succ n ih =>
    rw [read] at h
    refine runs_empty.trans ?_
    cases he : q.empty with
    | true =>
      rw [he] at h
      cases h
      exact runs_return
    | false =>
      rw [he] at h
      simp only [Bool.not_false, if_true] at h
      split at h
      · cases h
      · rename_i sc q1 hp
        split at h
        · cases h
        · rename_i codes1 q2 hr
          cases h
          have h1 : Runs ⟨⟨q, led⟩, some ⟨.testSize, len, buf⟩, returned, accepted⟩
              ⟨⟨q, led⟩, some ⟨.popFull, len, buf⟩, returned, accepted⟩ :=
            runs_test (by decide) (by simp [Reading.step, Reading.goto, hlen])
          have hrec : Runs ⟨⟨q1, led⟩, some ⟨.testFull, len, buf ++ [sc]⟩, returned, accepted⟩
              ⟨⟨q', led⟩, none, returned ++ (buf ++ [sc] ++ codes1), accepted⟩ :=
            ih hr (by rw [List.length_append, List.length_singleton]; omega)
          rw [List.append_assoc] at hrec
          exact h1.trans ((runs_pop he hp).trans hrec)

end Undisturbed
end Ps2
end TorexOS
