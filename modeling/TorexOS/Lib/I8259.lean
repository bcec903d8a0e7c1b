import Mathlib.Data.BitVec
import Mathlib.Data.Fin.Basic
import Mathlib.Logic.Function.Basic

/-!
# TorexOS.Lib.I8259

The 8259 interrupt controller, and two of them in cascade.

* `Chip`: the registers. `Chip.command` and `Chip.data` are the writes to its two ports: the words of
  the initialisation, the end of an interrupt and the mask.
* `Chip.next`: the request that the chip passes on, fully nested with line 0 first. `next_eq_some` and
  `next_isSome_idle` say which.
* `Pair`: a master and the slave at one of its lines. `Pair.acknowledge` is the processor's.

Not modelled are the other commands, the modes they select, and requests that are withdrawn.
-/

namespace I8259

/-- What the next write to the data port is. -/
inductive Phase where
  | ready
  | icw2
  | icw3
  | icw4
  deriving DecidableEq

structure Chip where
  irr : Fin 8 → Bool
  isr : Fin 8 → Bool
  imr : BitVec 8
  base : BitVec 8
  icw1 : BitVec 8
  icw3 : BitVec 8
  icw4 : BitVec 8
  phase : Phase

namespace Chip

/-- The non-specific end of an interrupt: of the first line in service. -/
def endOfInterrupt (c : Chip) : Chip :=
  match Fin.find? c.isr with
  | some i => { c with isr := Function.update c.isr i false }
  | none => c

/-- A write to the command port. -/
def command (c : Chip) (v : BitVec 8) : Chip :=
  if v.getLsbD 4 then
    { c with irr := fun _ => false, isr := fun _ => false, imr := 0, icw1 := v, icw4 := 0, phase := .icw2 }
  else if v = 0x20 then c.endOfInterrupt
  else c

/-- A write to the data port. -/
def data (c : Chip) (v : BitVec 8) : Chip :=
  match c.phase with
  | .ready => { c with imr := v }
  | .icw2 => { c with
      base := v &&& 0xf8
      phase := if ¬ c.icw1.getLsbD 1 then .icw3 else if c.icw1.getLsbD 0 then .icw4 else .ready }
  | .icw3 => { c with icw3 := v, phase := if c.icw1.getLsbD 0 then .icw4 else .ready }
  | .icw4 => { c with icw4 := v, phase := .ready }

/-- A request that is not masked. -/
def waiting (c : Chip) (i : Fin 8) : Bool := c.irr i && !c.imr.getLsbD i

/-- The request passed on: the first one, unless its line or one in front of it is in service. -/
def next (c : Chip) : Option (Fin 8) :=
  if c.phase = .ready then
    (Fin.find? fun i => c.isr i || c.waiting i).filter fun i => !c.isr i
  else none

def raise (c : Chip) (i : Fin 8) : Chip := { c with irr := Function.update c.irr i true }

/-- The request is put in service, except with automatic end of interrupt. -/
def accept (c : Chip) (i : Fin 8) : Chip :=
  { c with
    irr := Function.update c.irr i false
    isr := if c.icw4.getLsbD 1 then c.isr else Function.update c.isr i true }

def vector (c : Chip) (i : Fin 8) : BitVec 8 := c.base + BitVec.ofNat 8 i

/-- These lines are in service, and no other. -/
def Serves (c : Chip) (is : List (Fin 8)) : Prop := ∀ j, c.isr j = decide (j ∈ is)

variable {c : Chip} {i j : Fin 8}

theorem endOfInterrupt_eq (c : Chip) : ∃ isr, c.endOfInterrupt = { c with isr := isr } := by
  unfold endOfInterrupt
  split
  · exact ⟨_, rfl⟩
  · exact ⟨c.isr, rfl⟩

theorem data_ready (h : c.phase = .ready) (v : BitVec 8) : c.data v = { c with imr := v } := by
  simp [data, h]

theorem Serves.end_one (h : c.Serves [i]) : c.endOfInterrupt.Serves [] := by
  have hfind : Fin.find? c.isr = some i :=
    Fin.find?_eq_some_iff.mpr ⟨by simp [h i], fun j hj => by simp [h j, Fin.ne_of_lt hj]⟩
  unfold endOfInterrupt
  rw [hfind]
  intro j
  dsimp only
  rw [Function.update_apply, h j]
  by_cases hj : j = i
  · simp [hj]
  · simp [hj]

theorem Serves.accept (h : c.Serves []) (hm : c.icw4.getLsbD 1 = false) : (c.accept i).Serves [i] := by
  intro j
  unfold Chip.accept
  rw [hm]
  dsimp only
  rw [if_neg (by simp), Function.update_apply, h j]
  by_cases hj : j = i
  · simp [hj]
  · simp [hj]

/-- With nothing in service, the first request is passed on. -/
theorem Serves.next_eq_some (h : c.Serves []) (hr : c.phase = .ready) :
    c.next = some i ↔ c.waiting i = true ∧ ∀ j, j < i → c.waiting j = false := by
  have hisr : ∀ j, c.isr j = false := fun j => by simp [h j]
  simp [next, hr, hisr, Option.filter_eq_some_iff]

theorem Serves.next_isSome (h : c.Serves []) (hr : c.phase = .ready) :
    c.next.isSome = true ↔ ∃ i, c.waiting i = true := by
  have hisr : ∀ j, c.isr j = false := fun j => by simp [h j]
  simp [next, hr, hisr, Option.isSome_filter]

end Chip

/-! ## Two chips -/

structure Pair where
  master : Chip
  slave : Chip

/-- A line of the master, or one of the slave. -/
abbrev Line : Type := Fin 8 ⊕ Fin 8

namespace Pair

def requested (p : Pair) : Line → Bool
  | .inl i => p.master.irr i
  | .inr i => p.slave.irr i

def raise (p : Pair) : Line → Pair
  | .inl i => { p with master := p.master.raise i }
  | .inr i => { p with slave := p.slave.raise i }

section Cascade

variable (line : Fin 8)

/-- The request of the slave is at a line of the master. -/
def wired (p : Pair) : Chip :=
  { p.master with irr := Function.update p.master.irr line p.slave.next.isSome }

/-- Both chips know of the line. -/
def Joined (p : Pair) : Prop :=
  p.master.icw3.getLsbD line = true ∧ (p.slave.icw3 &&& 7).toNat = line.val

instance (p : Pair) : Decidable (p.Joined line) := by
  unfold Joined
  infer_instance

/-- The processor acknowledges, and gets a vector. -/
def acknowledge (p : Pair) : Pair × BitVec 8 :=
  match (p.wired line).next with
  | some i =>
    if i = line ∧ p.Joined line then
      match p.slave.next with
      | some j => (⟨p.master.accept i, p.slave.accept j⟩, p.slave.vector j)
      | none => (⟨p.master.accept i, p.slave⟩, p.slave.vector 7)
    else (⟨p.master.accept i, p.slave⟩, p.master.vector i)
  | none => (p, p.master.vector 7)

/-- Neither mask covers it. -/
def unmasked (p : Pair) : Line → Bool
  | .inl i => !p.master.imr.getLsbD i
  | .inr j => !p.slave.imr.getLsbD j && !p.master.imr.getLsbD line

def vectorOf (p : Pair) : Line → BitVec 8
  | .inl i => p.master.vector i
  | .inr j => p.slave.vector j

/-- The lines of the slave are between those of the master. -/
def rank : Line → Nat
  | .inl i => if i < line then i.val else i.val + 8
  | .inr j => line.val + j.val

/-- What is in service. -/
def Serves (p : Pair) : Option Line → Prop
  | none => p.master.Serves [] ∧ p.slave.Serves []
  | some (.inl i) => p.master.Serves [i] ∧ p.slave.Serves []
  | some (.inr j) => p.master.Serves [line] ∧ p.slave.Serves [j]

theorem Serves.congr {line : Fin 8} {p q : Pair} {o : Option Line} (hm : q.master.isr = p.master.isr)
    (hs : q.slave.isr = p.slave.isr) (h : p.Serves line o) : q.Serves line o := by
  unfold Serves Chip.Serves at h ⊢
  rw [hm, hs]
  exact h

/-- Both chips are initialised, joined, and wait for the end of each interrupt. -/
structure Configured (p : Pair) : Prop where
  master_ready : p.master.phase = .ready
  slave_ready : p.slave.phase = .ready
  master_normal : p.master.icw4.getLsbD 1 = false
  slave_normal : p.slave.icw4.getLsbD 1 = false
  joined : p.Joined line

variable {line} {p : Pair} {i : Fin 8} {l : Line}

theorem waiting_wired : (p.wired line).waiting i =
    if i = line then p.slave.next.isSome && !p.master.imr.getLsbD line else p.master.waiting i := by
  unfold wired Chip.waiting
  dsimp only
  rw [Function.update_apply]
  by_cases hi : i = line
  · rw [if_pos hi, if_pos hi, hi]
  · rw [if_neg hi, if_neg hi]

theorem master_waiting (hreq : p.requested (.inl i) = true) (hmask : p.unmasked line (.inl i) = true) :
    p.master.waiting i = true := by
  rw [Chip.waiting, Bool.and_eq_true]
  exact ⟨hreq, hmask⟩

theorem slave_waiting (hreq : p.requested (.inr i) = true) (hmask : p.unmasked line (.inr i) = true) :
    p.slave.waiting i = true ∧ p.master.imr.getLsbD line = false := by
  rw [unmasked, Bool.and_eq_true, Bool.not_eq_true'] at hmask
  rw [Chip.waiting, Bool.and_eq_true, Bool.not_eq_true']
  rw [Bool.not_eq_true'] at hmask
  exact ⟨⟨hreq, hmask.1⟩, hmask.2⟩

/-- The slave's line waits when one of its lines does. -/
theorem line_waiting (hc : p.Configured line) (hs : p.Serves line none)
    (hreq : p.requested (.inr i) = true) (hmask : p.unmasked line (.inr i) = true) :
    (p.wired line).waiting line = true := by
  obtain ⟨hwait, hline⟩ := slave_waiting hreq hmask
  rw [waiting_wired, if_pos rfl, (hs.2.next_isSome hc.slave_ready).mpr ⟨i, hwait⟩, hline]
  rfl

/-- A request that neither mask covers gets to the processor when nothing is in service. -/
theorem pin_iff (hc : p.Configured line) (hs : p.Serves line none) :
    (p.wired line).next.isSome = true ↔
      ∃ l, l ≠ .inl line ∧ p.requested l = true ∧ p.unmasked line l = true := by
  have hw : (p.wired line).Serves [] := hs.1
  rw [hw.next_isSome hc.master_ready]
  constructor
  · rintro ⟨i, hi⟩
    rw [waiting_wired] at hi
    by_cases hil : i = line
    · rw [if_pos hil, Bool.and_eq_true] at hi
      obtain ⟨j, hj⟩ := (hs.2.next_isSome hc.slave_ready).mp hi.1
      rw [Chip.waiting, Bool.and_eq_true] at hj
      exact ⟨.inr j, Sum.inr_ne_inl, hj.1, by rw [unmasked, hj.2, hi.2]; rfl⟩
    · rw [if_neg hil, Chip.waiting, Bool.and_eq_true] at hi
      exact ⟨.inl i, fun h => hil (Sum.inl.inj h), hi.1, hi.2⟩
  · rintro ⟨l, hl, hreq, hmask⟩
    cases l with
    | inl i =>
      have hil : i ≠ line := fun h => hl (congrArg Sum.inl h)
      exact ⟨i, by rw [waiting_wired, if_neg hil, master_waiting hreq hmask]⟩
    | inr j => exact ⟨line, line_waiting hc hs hreq hmask⟩

/-- What the processor's acknowledgement does to a pair. -/
structure Delivers (line : Fin 8) (p q : Pair) (l : Line) : Prop where
  device : l ≠ .inl line
  requested : p.requested l = true
  unmasked : p.unmasked line l = true
  first : ∀ k, k ≠ .inl line → p.requested k = true → p.unmasked line k = true → rank line l ≤ rank line k
  serves : q.Serves line (some l)
  others : ∀ k, k ≠ .inl line → q.requested k = if k = l then false else p.requested k
  configured : q.Configured line
  vectors : q.vectorOf = p.vectorOf

/-- The master's own request is taken. -/
theorem delivers_master (hc : p.Configured line) (hs : p.Serves line none) (hi : i ≠ line)
    (hwait : p.master.waiting i = true) (hfirst : ∀ k, k < i → (p.wired line).waiting k = false) :
    Delivers line p ⟨p.master.accept i, p.slave⟩ (.inl i) := by
  rw [Chip.waiting, Bool.and_eq_true] at hwait
  refine ⟨fun h => hi (Sum.inl.inj h), hwait.1, hwait.2, fun k hk hreq hmask => ?_,
    ⟨hs.1.accept hc.master_normal, hs.2⟩, fun k hk => ?_,
    ⟨hc.master_ready, hc.slave_ready, hc.master_normal, hc.slave_normal, hc.joined⟩, rfl⟩
  · cases k with
    | inl k =>
      have hkl : k ≠ line := fun h => hk (congrArg Sum.inl h)
      have hle : i ≤ k := by
        refine le_of_not_gt fun hlt => ?_
        have hno := hfirst k hlt
        rw [waiting_wired, if_neg hkl, master_waiting hreq hmask] at hno
        cases hno
      simp only [rank]
      split <;> split <;> omega
    | inr k =>
      have hlt : i < line := by
        refine lt_of_le_of_ne (le_of_not_gt fun hlt => ?_) hi
        have hno := hfirst line hlt
        rw [line_waiting hc hs hreq hmask] at hno
        cases hno
      simp only [rank]
      rw [if_pos hlt]
      omega
  · cases k with
    | inl k =>
      simp only [requested, Chip.accept]
      rw [Function.update_apply]
      by_cases hki : k = i
      · rw [if_pos hki, if_pos (congrArg Sum.inl hki)]
      · rw [if_neg hki, if_neg fun h => hki (Sum.inl.inj h)]
    | inr k => rw [if_neg Sum.inr_ne_inl]; rfl

theorem delivers_slave (hc : p.Configured line) (hs : p.Serves line none) {j : Fin 8}
    (hline : p.master.imr.getLsbD line = false)
    (hfirst : ∀ k, k < line → (p.wired line).waiting k = false)
    (hwait : p.slave.waiting j = true) (hjfirst : ∀ k, k < j → p.slave.waiting k = false) :
    Delivers line p ⟨p.master.accept line, p.slave.accept j⟩ (.inr j) := by
  rw [Chip.waiting, Bool.and_eq_true] at hwait
  refine ⟨Sum.inr_ne_inl, hwait.1, by rw [unmasked, hwait.2, hline]; rfl, fun k hk hreq hmask => ?_,
    ⟨hs.1.accept hc.master_normal, hs.2.accept hc.slave_normal⟩, fun k hk => ?_,
    ⟨hc.master_ready, hc.slave_ready, hc.master_normal, hc.slave_normal, hc.joined⟩, rfl⟩
  · cases k with
    | inl k =>
      have hkl : k ≠ line := fun h => hk (congrArg Sum.inl h)
      have hle : line ≤ k := by
        refine le_of_not_gt fun hlt => ?_
        have hno := hfirst k hlt
        rw [waiting_wired, if_neg hkl, master_waiting hreq hmask] at hno
        cases hno
      simp only [rank]
      rw [if_neg (not_lt_of_ge hle)]
      omega
    | inr k =>
      have hle : j ≤ k := by
        refine le_of_not_gt fun hlt => ?_
        have hno := hjfirst k hlt
        rw [(slave_waiting hreq hmask).1] at hno
        cases hno
      simp only [rank]
      omega
  · cases k with
    | inl k =>
      have hkl : k ≠ line := fun h => hk (congrArg Sum.inl h)
      simp only [requested, Chip.accept]
      rw [Function.update_of_ne hkl, if_neg Sum.inl_ne_inr]
    | inr k =>
      simp only [requested, Chip.accept]
      rw [Function.update_apply]
      by_cases hkj : k = j
      · rw [if_pos hkj, if_pos (congrArg Sum.inr hkj)]
      · rw [if_neg hkj, if_neg fun h => hkj (Sum.inr.inj h)]

theorem acknowledge_delivers (hc : p.Configured line) (hs : p.Serves line none)
    (hpin : (p.wired line).next.isSome = true) :
    ∃ l q, p.acknowledge line = (q, p.vectorOf l) ∧ Delivers line p q l := by
  have hw : (p.wired line).Serves [] := hs.1
  obtain ⟨i, hi⟩ := Option.isSome_iff_exists.mp hpin
  obtain ⟨hwait, hfirst⟩ := (hw.next_eq_some hc.master_ready).mp hi
  rw [waiting_wired] at hwait
  unfold acknowledge
  rw [hi]
  dsimp only
  by_cases hil : i = line
  · subst hil
    rw [if_pos rfl, Bool.and_eq_true, Bool.not_eq_true'] at hwait
    obtain ⟨j, hj⟩ := Option.isSome_iff_exists.mp hwait.1
    obtain ⟨hjwait, hjfirst⟩ := (hs.2.next_eq_some hc.slave_ready).mp hj
    rw [if_pos ⟨rfl, hc.joined⟩, hj]
    exact ⟨.inr j, _, rfl, delivers_slave hc hs hwait.2 hfirst hjwait hjfirst⟩
  · rw [if_neg hil] at hwait
    rw [if_neg fun h => hil h.1]
    exact ⟨.inl i, _, rfl, delivers_master hc hs hil hwait hfirst⟩

end Cascade

end Pair
end I8259
