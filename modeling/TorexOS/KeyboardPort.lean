import TorexOS.Keyboard

/-!
# TorexOS.KeyboardPort

The keyboard with its controller: `KeyboardIRQHandler::topHalf` takes a code out of the output buffer only
if the queue has room, and the controller interrupts when it fills the buffer, not while it is full.

* `PortEvent`: the keyboard has a code, sends it, the interrupt is taken, or `read` is called.
* `PortState.Alive`: a code in the buffer has its interrupt ahead.
* `keyboard_alive_iff`: the keyboard goes on exactly as long as no interrupt meets a full queue. After
  that no code is accepted any more, also when `read` has emptied the queue.
-/

namespace TorexOS
namespace Ps2

open Util Transition

/-- `device` are the codes the keyboard has still to send, `irq` that its interrupt is requested.
`pressed`, `accepted` and `returned` are all codes so far, and `lost` counts those the handler read while
it waited for an answer. -/
structure PortState (size : Nat) where
  device : List (BitVec 8)
  outBuf : Option (BitVec 8)
  irq : Bool
  keyboard : Keyboard size
  pressed : List (BitVec 8)
  accepted : List (BitVec 8)
  returned : List (BitVec 8)
  lost : Nat

inductive PortEvent where
  | press (sc : BitVec 8)
  | send
  | interrupt (answers : Nat) (again : Bool)
  | read (len : Nat)

variable {size : Nat}

/-- `getScanCode` and `push` -/
def PortState.takeCode (s : PortState size) : PortState size :=
  if s.keyboard.keyQueue.full then s
  else { s with outBuf := none, accepted := s.accepted ++ s.outBuf.toList }

/-- The handler. When it sends the LEDs, `changeKeyboardLED` reads what comes out of the buffer up to the
answers, `answers` codes among it, and the controller requests the interrupt again. -/
def PortState.interrupt (s : PortState size) (answers : Nat) (again : Bool) : Option (PortState size) :=
  match topHalf s.keyboard s.outBuf with
  | none => none
  | some (k, changed) =>
    let s := { s.takeCode with keyboard := k, irq := false }
    some <| if changed then
      { s with device := s.device.drop answers, irq := again, lost := s.lost + min answers s.device.length }
    else s

def PortState.step (s : PortState size) : PortEvent → Option (PortState size)
  | .press sc => some { s with device := s.device ++ [sc], pressed := s.pressed ++ [sc] }
  | .send =>
    match s.device with
    | [] => none
    | sc :: device => some { s with device := device, outBuf := some sc, irq := true }
  | .interrupt answers again => s.interrupt answers again
  | .read len =>
    match read s.keyboard.keyQueue len with
    | none => none
    | some (codes, q) =>
      some { s with keyboard := { s.keyboard with keyQueue := q }, returned := s.returned ++ codes }

def PortState.start (size : Nat) (led : KeyboardLED) : PortState size :=
  ⟨[], none, false, ⟨CircularQueue.new 0, led⟩, [], [], [], 0⟩

/-- A code is sent only into an empty buffer, and an interrupt is taken when it is requested. -/
def portSystem (size : Nat) : System (PortState size) PortEvent where
  init s := ∃ led, s = PortState.start size led
  legal s
    | .send => s.outBuf = none ∧ s.device ≠ []
    | .interrupt _ _ => s.irq = true
    | _ => True
  step s e := s.step e

instance (size : Nat) : ∀ s e, Decidable ((portSystem size).legal s e)
  | _, .press _ => inferInstanceAs (Decidable True)
  | s, .send => inferInstanceAs (Decidable (s.outBuf = none ∧ s.device ≠ []))
  | s, .interrupt _ _ => inferInstanceAs (Decidable (s.irq = true))
  | _, .read _ => inferInstanceAs (Decidable True)

/-- The interrupt of a code in the buffer is ahead. -/
def PortState.Alive (s : PortState size) : Prop := s.outBuf ≠ none → s.irq = true

/-- The event is no interrupt that meets a code and a full queue. -/
def Room (s : PortState size) : PortEvent → Prop
  | .interrupt _ _ => s.outBuf ≠ none → s.keyboard.keyQueue.full = false
  | _ => True

/-- Where the codes are. -/
structure PortState.Accounts (s : PortState size) : Prop where
  queue : ∃ xs, s.keyboard.keyQueue.Holds xs ∧ s.accepted = s.returned ++ xs
  order : (s.accepted ++ s.outBuf.toList ++ s.device).Sublist s.pressed
  count : s.pressed.length = s.accepted.length + s.outBuf.toList.length + s.device.length + s.lost

variable {s t : PortState size} {e : PortEvent} {ops : List PortEvent}

theorem toggle_zero (led : KeyboardLED) : led.toggle 0 = (led, false) := rfl

theorem takeCode_none (hout : s.outBuf = none) : s.takeCode = s := by
  unfold PortState.takeCode
  split
  · rfl
  · rw [hout, Option.toList_none, List.append_nil, ← hout]

/-- Without a code the handler leaves the codes alone. -/
theorem interrupt_none (answers : Nat) (again : Bool) (h : s.Accounts) (hout : s.outBuf = none) :
    ∃ t, s.interrupt answers again = some t ∧ t.Accounts ∧ t.outBuf = none := by
  have hhalf : topHalf s.keyboard s.outBuf = some (s.keyboard, false) := by
    rw [hout, topHalf, toggle_zero]
  refine ⟨{ s with irq := false }, ?_, ⟨h.queue, h.order, h.count⟩, hout⟩
  rw [PortState.interrupt, hhalf, takeCode_none hout]
  rfl

/-- With a code and a full queue, the code stays where it is. -/
theorem interrupt_full (answers : Nat) (again : Bool) (h : s.Accounts) (hout : s.outBuf ≠ none)
    (hfull : s.keyboard.keyQueue.full = true) :
    s.interrupt answers again = some { s with irq := false } ∧
      PortState.Accounts { s with irq := false } := by
  obtain ⟨sc, hsc⟩ := Option.ne_none_iff_exists'.mp hout
  have hhalf : topHalf s.keyboard s.outBuf = some (s.keyboard, false) := by
    rw [hsc, topHalf, hfull]
    rfl
  refine ⟨?_, h.queue, h.order, h.count⟩
  rw [PortState.interrupt, hhalf, PortState.takeCode, if_pos hfull]
  rfl

/-- With a code and room for it, the code goes into the queue. -/
theorem interrupt_room (answers : Nat) (again : Bool) {sc : BitVec 8} (h : s.Accounts)
    (hsize : size < 2 ^ 32) (hsc : s.outBuf = some sc) (hroom : s.keyboard.keyQueue.full = false) :
    ∃ t, s.interrupt answers again = some t ∧ t.Accounts ∧ t.outBuf = none := by
  obtain ⟨⟨xs, hq, hacc⟩, horder, hcount⟩ := h
  obtain ⟨q, hpush, hq'⟩ := holds_accept sc hq hsize
  have haccepts : accepts s.keyboard.keyQueue (some sc) = [sc] := by
    rw [accepts, hroom]
    rfl
  rw [haccepts] at hq'
  have hhalf : topHalf s.keyboard s.outBuf =
      some (⟨q, (s.keyboard.led.toggle sc).1⟩, (s.keyboard.led.toggle sc).2) := by
    rw [hsc, topHalf, hroom, hpush]
    rfl
  have hqueue : s.accepted ++ [sc] = s.returned ++ (xs ++ [sc]) := by rw [hacc, List.append_assoc]
  rw [hsc, Option.toList_some] at horder hcount
  rw [PortState.interrupt, hhalf, PortState.takeCode, hroom, if_neg (by simp), hsc]
  dsimp only
  by_cases hchanged : (s.keyboard.led.toggle sc).2 = true
  · rw [if_pos hchanged]
    refine ⟨_, rfl, ⟨⟨_, hq', hqueue⟩, ?_, ?_⟩, rfl⟩
    · refine List.Sublist.trans ?_ horder
      simp only [Option.toList_none, Option.toList_some, List.append_nil]
      exact List.Sublist.append (List.Sublist.refl _) (List.drop_sublist _ _)
    · simp only [Option.toList_none, Option.toList_some, List.length_append, List.length_singleton,
        List.length_nil, List.length_drop] at hcount ⊢
      omega
  · rw [if_neg hchanged]
    refine ⟨_, rfl, ⟨⟨_, hq', hqueue⟩, ?_, ?_⟩, rfl⟩
    · simpa using horder
    · simp only [Option.toList_none, Option.toList_some, List.length_append, List.length_singleton,
        List.length_nil] at hcount ⊢
      omega

/-- The handler empties the buffer, unless there is a code in it and no room for it. -/
theorem interrupt_step {answers : Nat} {again : Bool} (h : s.Accounts) (hsize : size < 2 ^ 32)
    (hs : s.interrupt answers again = some t) :
    t.Accounts ∧
      ((s.outBuf ≠ none → s.keyboard.keyQueue.full = false) ∧ t.outBuf = none ∨
        ¬ (s.outBuf ≠ none → s.keyboard.keyQueue.full = false) ∧ t = { s with irq := false }) := by
  cases hout : s.outBuf with
  | none =>
    obtain ⟨u, hu, ha, hempty⟩ := interrupt_none answers again h hout
    cases hu.symm.trans hs
    exact ⟨ha, .inl ⟨fun hne => absurd rfl hne, hempty⟩⟩
  | some sc =>
    cases hfull : s.keyboard.keyQueue.full with
    | true =>
      obtain ⟨hu, ha⟩ := interrupt_full answers again h (by rw [hout]; simp) hfull
      cases hu.symm.trans hs
      exact ⟨ha, .inr ⟨by simp, by rw [← hout]⟩⟩
    | false =>
      obtain ⟨u, hu, ha, hempty⟩ := interrupt_room answers again h hsize hout hfull
      cases hu.symm.trans hs
      exact ⟨ha, .inl ⟨fun _ => rfl, hempty⟩⟩

theorem accounts_start (hpos : 1 ≤ size) (led : KeyboardLED) : (PortState.start size led).Accounts :=
  ⟨⟨[], CircularQueue.holds_new hpos 0, rfl⟩, List.Sublist.refl _, rfl⟩

theorem not_alive_iff : ¬ s.Alive ↔ s.outBuf ≠ none ∧ s.irq = false := by
  rw [PortState.Alive, Classical.not_imp, Bool.not_eq_true]

/-- The codes that were sent are in the queue, in the buffer or lost, in their order. -/
theorem accounts_step (hsize : size < 2 ^ 32) (h : s.Accounts) (hl : (portSystem size).legal s e)
    (hs : s.step e = some t) : t.Accounts := by
  cases e with
  | press sc =>
    cases hs
    refine ⟨h.queue, ?_, ?_⟩
    · have horder := h.order.append (List.Sublist.refl [sc])
      rwa [List.append_assoc] at horder
    · have hcount := h.count
      simp only [List.length_append, List.length_singleton]
      omega
  | send =>
    obtain ⟨hout, -⟩ := hl
    simp only [PortState.step] at hs
    split at hs
    · cases hs
    · rename_i sc device hdev
      cases hs
      have horder := h.order
      have hcount := h.count
      rw [hout, hdev, Option.toList_none] at horder hcount
      refine ⟨h.queue, ?_, ?_⟩
      · simpa using horder
      · simp only [Option.toList_some, List.length_nil, List.length_cons] at hcount ⊢
        omega
  | interrupt answers again => exact (interrupt_step h hsize hs).1
  | read len =>
    obtain ⟨xs, hq, hacc⟩ := h.queue
    obtain ⟨q, hr, hq'⟩ := @read_spec size hsize len _ _ hq
    simp only [PortState.step, hr] at hs
    cases hs
    refine ⟨⟨_, hq', ?_⟩, h.order, h.count⟩
    rw [hacc, List.append_assoc, List.take_append_drop]

/-- A step keeps the keyboard alive exactly if it is no interrupt that meets a full queue. -/
theorem alive_step (hsize : size < 2 ^ 32) (h : s.Accounts) (ha : s.Alive)
    (hs : s.step e = some t) : t.Alive ↔ Room s e := by
  cases e with
  | press sc =>
    cases hs
    exact ⟨fun _ => trivial, fun _ => ha⟩
  | send =>
    simp only [PortState.step] at hs
    split at hs
    · cases hs
    · cases hs
      exact ⟨fun _ => trivial, fun _ _ => rfl⟩
  | interrupt answers again =>
    rcases (interrupt_step h hsize hs).2 with ⟨hroom, hempty⟩ | ⟨hno, rfl⟩
    · exact ⟨fun _ => hroom, fun _ hne => absurd hempty hne⟩
    · refine ⟨fun halive => ?_, fun hroom => absurd hroom hno⟩
      obtain ⟨hout, -⟩ := Classical.not_imp.mp hno
      cases halive hout
  | read len =>
    simp only [PortState.step] at hs
    split at hs
    · cases hs
    · cases hs
      exact ⟨fun _ => trivial, fun _ => ha⟩

/-- Without its interrupt the code in the buffer stays, and no other can come. -/
theorem dead_step (ha : ¬ s.Alive) (hl : (portSystem size).legal s e)
    (hs : s.step e = some t) : ¬ t.Alive ∧ t.accepted = s.accepted := by
  obtain ⟨hout, hirq⟩ := not_alive_iff.mp ha
  rw [not_alive_iff]
  cases e with
  | press sc =>
    cases hs
    exact ⟨⟨hout, hirq⟩, rfl⟩
  | send => exact absurd hl.1 hout
  | interrupt answers again =>
    have hreq : s.irq = true := hl
    rw [hirq] at hreq
    cases hreq
  | read len =>
    simp only [PortState.step] at hs
    split at hs
    · cases hs
    · cases hs
      exact ⟨⟨hout, hirq⟩, rfl⟩

/-- The keyboard goes on exactly as long as no interrupt meets a full queue. Every code is then in the
queue, on its way, or was read while the handler waited for an answer. After such an interrupt no code is
accepted any more. -/
theorem keyboard_alive_iff (hpos : 1 ≤ size) (hsize : size < 2 ^ 32) (led : KeyboardLED)
    (h : replay (portSystem size) (PortState.start size led) ops = some t) :
    (t.Alive ↔ Along (portSystem size) Room (PortState.start size led) ops) ∧ t.Accounts ∧
      (¬ t.Alive → ∀ more u, replay (portSystem size) t more = some u →
        ¬ u.Alive ∧ u.accepted = t.accepted) := by
  have hstart := accounts_start hpos led
  have hacc : t.Accounts :=
    replay_keeps (P := PortState.Accounts) (fun _ _ _ h hl hs => accounts_step hsize h hl hs) hstart h
  have hiff := along_iff (P := fun s : PortState size => s.Alive ∧ s.Accounts)
    (B := fun s => ¬ s.Alive ∧ s.Accounts) (C := Room)
    (fun _ _ _ hp hl hc hs => ⟨(alive_step hsize hp.2 hp.1 hs).mpr hc, accounts_step hsize hp.2 hl hs⟩)
    (fun _ _ _ hp hl hc hs =>
      ⟨fun ha => hc ((alive_step hsize hp.2 hp.1 hs).mp ha), accounts_step hsize hp.2 hl hs⟩)
    (fun _ _ _ hb hl hs => ⟨(dead_step hb.1 hl hs).1, accounts_step hsize hb.2 hl hs⟩)
    (fun hp hb => hb.1 hp.1) ⟨fun hne => absurd rfl hne, hstart⟩ h
  refine ⟨⟨fun ha => hiff.mp ⟨ha, hacc⟩, fun hroom => (hiff.mpr hroom).1⟩, hacc, fun hdead more u hu => ?_⟩
  exact replay_keeps (P := fun s => ¬ s.Alive ∧ s.accepted = t.accepted)
    (fun _ _ _ hp hl hs => ⟨(dead_step hp.1 hl hs).1, (dead_step hp.1 hl hs).2.trans hp.2⟩)
    ⟨hdead, rfl⟩ hu

/-- Two keys, for a queue of one. -/
def twoKeys : List PortEvent :=
  [.press 0x1E, .send, .interrupt 0 false, .press 0x1F, .send, .interrupt 0 false, .read 4]

/-- The queue is empty again, and no code will come. -/
theorem keyboard_dead : ∃ t : PortState 1, t.keyboard.keyQueue.contents = [] ∧ ¬ t.Alive ∧
    ((t.Alive ↔ Along (portSystem 1) Room (PortState.start 1 ⟨false, false, false⟩) twoKeys) ∧ t.Accounts ∧
      (¬ t.Alive → ∀ more u, replay (portSystem 1) t more = some u →
        ¬ u.Alive ∧ u.accepted = t.accepted)) := by
  refine ⟨_, ?_, ?_, keyboard_alive_iff (by omega) (by omega) ⟨false, false, false⟩ (show replay (portSystem 1) (PortState.start 1 ⟨false, false, false⟩) twoKeys = some _ from rfl)⟩
  · rfl
  · rw [not_alive_iff]
    exact ⟨Option.some_ne_none 0x1F, rfl⟩

end Ps2
end TorexOS
