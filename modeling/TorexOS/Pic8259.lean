import Mathlib.Data.BitVec
import TorexOS.Lib.Transition

/-!
# TorexOS.Pic8259

The interrupt flag around the calls of `pic8259.cpp`, which share one `interrupt_lock`.

* `Call.steps`: the steps of a call that touch anything an interrupt handler may touch. Before each of
  them, and before the return, any number of interrupts may be delivered.
* `deliver`: a handler as one step, since the flag is clear in all of it (`runCall_masked`).
* `Pending`: what the flag will be at the return.
* `flag_restored_iff`: the flag is restored unless a handler runs between the store of `previous` and
  the instruction that clears the flag.
-/

namespace TorexOS
namespace Pic8259

open Transition

def masterCommand : BitVec 16 := 0x20
def masterData : BitVec 16 := 0x21
def slaveCommand : BitVec 16 := 0xA0
def slaveData : BitVec 16 := 0xA1
def icw1Icw4 : BitVec 8 := 0x01
def icw1Init : BitVec 8 := 0x10
def icw4_8086 : BitVec 8 := 0x01

inductive Step where
  | getRflags
  | storePrevious
  | clearinterruptflag
  | outbyte (port : BitVec 16) (val : BitVec 8)
  | inbyte (port : BitVec 16)
  | testPrevious
  | setinterruptflag
  deriving DecidableEq

/-- What a call shares with the handlers; `previous` is that of the static lock. -/
structure Machine where
  rflags : BitVec 64
  previous : Bool
  written : List (BitVec 16 × BitVec 8)
  deriving DecidableEq

/-- The registers of one call: the flags read, the test of `previous`, the bytes read. -/
structure Registers where
  flags : BitVec 64
  tested : Bool
  bytes : List (BitVec 8)
  deriving DecidableEq

def Machine.interruptFlag (m : Machine) : Bool := m.rflags.getLsbD 9

/-- What is read from a port, after these bytes were written. -/
abbrev Ports := List (BitVec 16 × BitVec 8) → BitVec 16 → BitVec 8

def exec (ports : Ports) (m : Machine) (r : Registers) : Step → Machine × Registers
  | .getRflags => (m, { r with flags := m.rflags })
  | .storePrevious => ({ m with previous := decide (r.flags &&& 0x0200 ≠ 0) }, r)
  | .clearinterruptflag => ({ m with rflags := m.rflags &&& ~~~0x0200 }, r)
  | .outbyte port val => ({ m with written := m.written ++ [(port, val)] }, r)
  | .inbyte port => (m, { r with bytes := r.bytes ++ [ports m.written port] })
  | .testPrevious => (m, { r with tested := m.previous })
  | .setinterruptflag => (if r.tested then { m with rflags := m.rflags ||| 0x0200 } else m, r)

def lock : List Step := [.getRflags, .storePrevious, .clearinterruptflag]

def unlock : List Step := [.testPrevious, .setinterruptflag]

/-- A call, with its arguments. -/
inductive Call where
  | initializePic (irqStartVector : BitVec 8)
  | maskInterrupt (irqBitmask : BitVec 16)
  | getMask
  | sendEOI (irqNumber : BitVec 32)

/-- `initialize` -/
def initializePic (irqStartVector : BitVec 8) : List Step :=
  [.outbyte masterCommand (icw1Init ||| icw1Icw4),
    .outbyte masterData irqStartVector,
    .outbyte masterData (1 <<< 2),
    .outbyte masterData icw4_8086,
    .outbyte slaveCommand (icw1Init ||| icw1Icw4),
    .outbyte slaveData (irqStartVector + 8),
    .outbyte slaveData 2,
    .outbyte slaveData icw4_8086]

def maskInterrupt (irqBitmask : BitVec 16) : List Step :=
  [.outbyte masterData ((irqBitmask &&& 0xff).setWidth 8),
    .outbyte slaveData ((irqBitmask >>> 8).setWidth 8)]

def getMask : List Step := [.inbyte masterData, .inbyte slaveData]

def sendEOI (irqNumber : BitVec 32) : List Step :=
  .outbyte masterCommand 0x20 :: if 8 ≤ irqNumber then [.outbyte slaveCommand 0x20] else []

def Call.accesses : Call → List Step
  | .initializePic irqStartVector => Pic8259.initializePic irqStartVector
  | .maskInterrupt irqBitmask => Pic8259.maskInterrupt irqBitmask
  | .getMask => Pic8259.getMask
  | .sendEOI irqNumber => Pic8259.sendEOI irqNumber

def Call.steps (c : Call) : List Step := lock ++ c.accesses ++ unlock

/-! ## Interrupts -/

def runSteps (ports : Ports) (m : Machine) (r : Registers) : List Step → Machine × Registers
  | [] => (m, r)
  | st :: steps => runSteps ports (exec ports m r st).1 (exec ports m r st).2 steps

/-- A call that is not interrupted. -/
def runCall (ports : Ports) (m : Machine) (c : Call) : Machine :=
  (runSteps ports m ⟨0, false, []⟩ c.steps).1

/-- `ISR_do_IRQ` or `ISR_do_Timer_IRQ`: what the actions call, then `sendEOI`. -/
structure Handler where
  calls : List Call
  irqNumber : BitVec 32

/-- The gates are interrupt gates, so the flag is clear until `iretq` restores it. -/
def deliver (ports : Ports) (m : Machine) (h : Handler) : Machine :=
  let entered := { m with rflags := m.rflags &&& ~~~0x0200 }
  let left := runCall ports (h.calls.foldl (runCall ports) entered) (.sendEOI h.irqNumber)
  { left with rflags := m.rflags }

/-- A call with the steps it has left. -/
structure Running where
  machine : Machine
  regs : Registers
  rest : List Step

inductive Event where
  | step
  | interrupt (h : Handler)

def picSystem (ports : Ports) : System Running Event where
  init s := ∃ c : Call, s.rest = c.steps
  legal s
    | .step => s.rest ≠ []
    | .interrupt _ => s.machine.interruptFlag = true
  step s
    | .step =>
      match s.rest with
      | [] => none
      | st :: rest =>
        some ⟨(exec ports s.machine s.regs st).1, (exec ports s.machine s.regs st).2, rest⟩
    | .interrupt h => some { s with machine := deliver ports s.machine h }

instance (ports : Ports) : ∀ s i, Decidable ((picSystem ports).legal s i)
  | s, .step => inferInstanceAs (Decidable (s.rest ≠ []))
  | s, .interrupt _ => inferInstanceAs (Decidable (s.machine.interruptFlag = true))

/-- The event is no interrupt between the store of `previous` and the clearing of the flag. -/
def Unexposed (s : Running) : Event → Prop
  | .step => True
  | .interrupt _ => s.rest.head? ≠ some .clearinterruptflag

section Flag

variable {ports : Ports} {m : Machine} {r : Registers} {st : Step} {steps : List Step} {b v : Bool}

theorem getLsbD_cli (f : BitVec 64) : (f &&& ~~~0x0200).getLsbD 9 = false := by
  simp

/-- `static_cast<bool>(flags & 0x0200)` -/
theorem decide_flag (f : BitVec 64) : decide (f &&& 0x0200 ≠ 0) = f.getLsbD 9 := by
  have htwo : (0x0200 : BitVec 64) = BitVec.twoPow 64 9 := by decide
  rw [htwo, BitVec.and_twoPow]
  cases f.getLsbD 9 with
  | false => decide
  | true => decide

/-- An access to a port. -/
def Step.isAccess : Step → Bool
  | .outbyte _ _ => true
  | .inbyte _ => true
  | _ => false

theorem Call.isAccess (c : Call) : ∀ st ∈ c.accesses, st.isAccess = true := by
  cases c with
  | initializePic v => simp [Call.accesses, Pic8259.initializePic, Step.isAccess]
  | maskInterrupt mask => simp [Call.accesses, Pic8259.maskInterrupt, Step.isAccess]
  | getMask => simp [Call.accesses, Pic8259.getMask, Step.isAccess]
  | sendEOI n => simp [Call.accesses, Pic8259.sendEOI, Step.isAccess]

/-- What may follow a step of a call. -/
def follows : Step → Option Step → Bool
  | .getRflags, next => next = some .storePrevious
  | .storePrevious, next => next = some .clearinterruptflag
  | .testPrevious, next => next = some .setinterruptflag
  | .setinterruptflag, next => next = none
  | .clearinterruptflag, some next => next.isAccess || next = .testPrevious
  | .outbyte _ _, some next => next.isAccess || next = .testPrevious
  | .inbyte _, some next => next.isAccess || next = .testPrevious
  | _, none => false

def Placed : List Step → Prop
  | [] => True
  | st :: steps => follows st steps.head? = true ∧ Placed steps

theorem placed_accesses (h : ∀ st ∈ steps, st.isAccess = true) :
    Placed (steps ++ unlock) ∧
      ∃ st, (steps ++ unlock).head? = some st ∧ (st.isAccess || st = .testPrevious) = true := by
  induction steps with
  | nil => exact ⟨⟨rfl, rfl, trivial⟩, _, rfl, rfl⟩
  | cons st steps ih =>
    obtain ⟨hst, hsteps⟩ := List.forall_mem_cons.mp h
    obtain ⟨hp, next, hn, hnext⟩ := ih hsteps
    rw [List.cons_append]
    refine ⟨⟨?_, hp⟩, st, rfl, by rw [hst]; rfl⟩
    rw [hn]
    cases st <;> first | exact hnext | cases hst

theorem Call.steps_eq (c : Call) :
    c.steps = .getRflags :: .storePrevious :: .clearinterruptflag :: (c.accesses ++ unlock) := rfl

theorem Call.placed (c : Call) : Placed c.steps := by
  obtain ⟨hp, next, hn, hnext⟩ := placed_accesses c.isAccess
  rw [c.steps_eq]
  refine ⟨rfl, rfl, ?_, hp⟩
  rw [hn]
  exact hnext

/-- Called with the flag at `b`, the call is at its `next` step and will return with it at `v`. -/
def Pending (b v : Bool) (m : Machine) (r : Registers) : Option Step → Prop
  | none => m.interruptFlag = v
  | some .getRflags => m.interruptFlag = b ∧ v = b
  | some .storePrevious => m.interruptFlag = b ∧ r.flags.getLsbD 9 = b ∧ v = b
  | some .clearinterruptflag => m.interruptFlag = b ∧ m.previous = v
  | some .setinterruptflag => m.interruptFlag = false ∧ r.tested = v
  | some _ => m.interruptFlag = false ∧ m.previous = v

/-- In the critical section, `next` being an access or the test of `previous`. -/
theorem pending_section {next : Option Step}
    (hn : ∃ st, next = some st ∧ (st.isAccess || st = .testPrevious) = true)
    (h : m.interruptFlag = false ∧ m.previous = v) : Pending b v m r next := by
  obtain ⟨st, rfl, hst⟩ := hn
  cases st <;> first | exact h | cases hst

theorem pending_exec {next : Option Step} (hf : follows st next = true)
    (h : Pending b v m r (some st)) :
    Pending b v (exec ports m r st).1 (exec ports m r st).2 next := by
  cases st with
  | getRflags =>
    obtain rfl := of_decide_eq_true hf
    exact ⟨h.1, h.1, h.2⟩
  | storePrevious =>
    obtain rfl := of_decide_eq_true hf
    obtain ⟨hb, hr, hv⟩ := h
    refine ⟨hb, ?_⟩
    rw [hv, ← hr]
    exact decide_flag _
  | clearinterruptflag =>
    cases next with
    | none => cases hf
    | some next => exact pending_section ⟨next, rfl, hf⟩ ⟨getLsbD_cli _, h.2⟩
  | outbyte port val =>
    cases next with
    | none => cases hf
    | some next => exact pending_section ⟨next, rfl, hf⟩ h
  | inbyte port =>
    cases next with
    | none => cases hf
    | some next => exact pending_section ⟨next, rfl, hf⟩ h
  | testPrevious =>
    obtain rfl := of_decide_eq_true hf
    exact h
  | setinterruptflag =>
    obtain rfl := of_decide_eq_true hf
    obtain ⟨hb, hr⟩ := h
    cases v with
    | false => simpa [exec, hr, Pending] using hb
    | true => simp [exec, hr, Pending, Machine.interruptFlag]

/-! ## A handler -/

/-- At every step of a call that is not interrupted, the flag is as `Pending` says. -/
theorem pending_run (hp : Placed steps) (h : Pending b v m r steps.head?) :
    Pending b v (runSteps ports m r steps).1 (runSteps ports m r steps).2 none := by
  induction steps generalizing m r with
  | nil => exact h
  | cons st steps ih => exact ih hp.2 (pending_exec hp.1 h)

theorem pending_clear {next : Option Step} (h : Pending false false m r next) :
    m.interruptFlag = false := by
  cases next with
  | none => exact h
  | some st => cases st <;> exact h.1

/-- A step that is not the store does not change `previous`. -/
theorem exec_previous (h : st ≠ .storePrevious) : (exec ports m r st).1.previous = m.previous := by
  cases st with
  | storePrevious => exact absurd rfl h
  | setinterruptflag => cases hr : r.tested <;> simp [exec, hr]
  | _ => rfl

theorem runSteps_previous (h : ∀ st ∈ steps, st ≠ .storePrevious) :
    (runSteps ports m r steps).1.previous = m.previous := by
  induction steps generalizing m r with
  | nil => rfl
  | cons st steps ih =>
    obtain ⟨hst, hsteps⟩ := List.forall_mem_cons.mp h
    exact (ih hsteps).trans (exec_previous hst)

/-- A call with the flag clear returns with the flag clear, and leaves `previous` clear. -/
theorem runCall_clear (c : Call) (h : m.interruptFlag = false) :
    (runCall ports m c).interruptFlag = false ∧ (runCall ports m c).previous = false := by
  refine ⟨pending_clear (pending_run c.placed ⟨h, rfl⟩), ?_⟩
  have hrest : ∀ st ∈ .clearinterruptflag :: (c.accesses ++ unlock), st ≠ .storePrevious := by
    intro st hst he
    rw [he] at hst
    rcases List.mem_cons.mp hst with hc | hst
    · cases hc
    · rcases List.mem_append.mp hst with ha | hu
      · exact absurd (c.isAccess _ ha) (by decide)
      · exact absurd hu (by decide)
  rw [runCall, c.steps_eq, runSteps, runSteps, runSteps_previous hrest]
  exact (decide_flag _).trans h

theorem foldl_runCall_clear (calls : List Call) (h : m.interruptFlag = false) :
    (calls.foldl (runCall ports) m).interruptFlag = false := by
  induction calls generalizing m with
  | nil => exact h
  | cons c calls ih => exact ih (runCall_clear c h).1

/-- A handler leaves `previous` clear. -/
theorem deliver_previous (h : Handler) : (deliver ports m h).previous = false := by
  have hin : Machine.interruptFlag { m with rflags := m.rflags &&& ~~~0x0200 } = false :=
    getLsbD_cli m.rflags
  rw [deliver]
  exact (runCall_clear (.sendEOI h.irqNumber) (foldl_runCall_clear h.calls hin)).2

/-- In a handler, nothing sets the flag: each of its calls has it clear at every step. -/
theorem runCall_masked (c : Call) (h : m.interruptFlag = false) (before after : List Step)
    (hc : c.steps = before ++ after) :
    (runSteps ports m r before).1.interruptFlag = false := by
  have hp : Placed (before ++ after) := hc ▸ c.placed
  have hs : Pending false false m r (before ++ after).head? := hc ▸ ⟨h, rfl⟩
  clear hc h
  induction before generalizing m r with
  | nil => exact pending_clear hs
  | cons st before ih => exact ih hp.2 (pending_exec hp.1 hs)

/-! ## A call -/

/-- An interrupt changes `previous` only, which matters where the flag is set and it is stored. -/
theorem pending_deliver {next : Option Step} (i : Handler) (hf : m.interruptFlag = true)
    (h : Pending b v m r next) :
    (next ≠ some .clearinterruptflag → Pending b v (deliver ports m i) r next) ∧
      (next = some .clearinterruptflag → b = true ∧ Pending true false (deliver ports m i) r next) := by
  have hd : (deliver ports m i).interruptFlag = m.interruptFlag := rfl
  constructor
  · intro hne
    cases next with
    | none => exact h
    | some st =>
      cases st with
      | getRflags => exact h
      | storePrevious => exact h
      | clearinterruptflag => exact absurd rfl hne
      | _ => exact absurd (hf.symm.trans h.1) (by decide)
  · rintro rfl
    exact ⟨h.1.symm.trans hf, hd.trans hf, deliver_previous i⟩

/-- A call that was called with the flag at `b` and will return with it at `v`. -/
def Returns (b v : Bool) (s : Running) : Prop :=
  Placed s.rest ∧ Pending b v s.machine s.regs s.rest.head?

variable {s t : Running}

theorem Returns.step (h : Returns b v s) (hs : (picSystem ports).step s .step = some t) :
    Returns b v t := by
  obtain ⟨m, r, rest⟩ := s
  cases rest with
  | nil => cases hs
  | cons st rest =>
    obtain rfl := Option.some.inj hs
    exact ⟨h.1.2, pending_exec h.1.1 h.2⟩

/-- The flag at the return cannot be both. -/
theorem Returns.unique (h : Returns true true s) (h' : Returns true false s) : False := by
  obtain ⟨-, h⟩ := h
  obtain ⟨-, h'⟩ := h'
  cases hn : s.rest.head? with
  | none =>
    rw [hn] at h h'
    exact absurd (h.symm.trans h') (by decide)
  | some st =>
    rw [hn] at h h'
    cases st with
    | getRflags => exact absurd h'.2 (by decide)
    | storePrevious => exact absurd h'.2.2 (by decide)
    | _ => exact absurd (h.2.symm.trans h'.2) (by decide)

/-- A call returns with the interrupt flag as it was called, if and only if no interrupt is delivered
between the store of `previous` and the clearing of the flag. -/
theorem flag_restored_iff (ports : Ports) (c : Call) (m : Machine) (r : Registers)
    (events : List Event) (t : Running)
    (h : replay (picSystem ports) ⟨m, r, c.steps⟩ events = some t) (hret : t.rest = []) :
    t.machine.interruptFlag = m.interruptFlag ↔
      Along (picSystem ports) Unexposed ⟨m, r, c.steps⟩ events := by
  let b := m.interruptFlag
  have hstart : Returns b b ⟨m, r, c.steps⟩ := ⟨c.placed, rfl, rfl⟩
  have hend : Returns b b t ↔ t.machine.interruptFlag = m.interruptFlag := by
    rw [Returns, hret]
    exact ⟨fun h => h.2, fun h => ⟨trivial, h⟩⟩
  rw [← hend]
  refine along_iff (P := Returns b b) (B := fun s => b = true ∧ Returns true false s)
    ?_ ?_ ?_ ?_ hstart h
  · intro s t e hs hl hc he
    cases e with
    | step => exact hs.step he
    | interrupt i =>
      obtain rfl := Option.some.inj he
      exact ⟨hs.1, (pending_deliver i hl hs.2).1 hc⟩
  · intro s t e hs hl hc he
    cases e with
    | step => exact absurd trivial hc
    | interrupt i =>
      obtain rfl := Option.some.inj he
      obtain ⟨hb, hp⟩ : b = true ∧
          Pending true false (deliver ports s.machine i) s.regs s.rest.head? :=
        (pending_deliver i hl hs.2).2 (not_not.mp hc)
      exact ⟨hb, hs.1, hp⟩
  · rintro s t e ⟨hb, hs⟩ hl he
    cases e with
    | step => exact ⟨hb, hs.step he⟩
    | interrupt i =>
      obtain rfl := Option.some.inj he
      refine ⟨hb, hs.1, ?_⟩
      by_cases hn : s.rest.head? = some .clearinterruptflag
      · exact ((pending_deliver i hl hs.2).2 hn).2
      · exact (pending_deliver i hl hs.2).1 hn
  · rintro hp ⟨hb, hbad⟩
    rw [hb] at hp
    exact hp.unique hbad

/-- A call of `maskInterrupt` with the flag set. -/
def maskCalled : Running :=
  ⟨⟨0x202, false, []⟩, ⟨0, false, []⟩, (Call.maskInterrupt 0xffff).steps⟩

/-- The timer interrupt before the call reads the flags does no harm. -/
theorem flag_restored_early : ∃ t,
    replay (picSystem fun _ _ => 0) maskCalled (.interrupt ⟨[], 0⟩ :: List.replicate 7 .step) =
      some t ∧ t.machine.interruptFlag = true := by
  refine ⟨_, rfl, ?_⟩
  refine (flag_restored_iff (fun _ _ => 0) (.maskInterrupt 0xffff) ⟨0x202, false, []⟩ ⟨0, false, []⟩
    (.interrupt ⟨[], 0⟩ :: List.replicate 7 .step) _ rfl rfl).mpr ⟨?_, ?_⟩
  · simp [Unexposed, Call.steps, lock]
  · simp [List.replicate, Along, Unexposed]

/-- The timer interrupt before the call clears the flag: its `sendEOI` leaves `previous` clear. -/
theorem flag_lost : ∃ t,
    replay (picSystem fun _ _ => 0) maskCalled
        (.step :: .step :: .interrupt ⟨[], 0⟩ :: List.replicate 5 .step) = some t ∧
      t.rest = [] ∧ maskCalled.machine.interruptFlag = true ∧ t.machine.interruptFlag = false :=
  ⟨_, rfl, rfl, by decide, by decide⟩

end Flag

end Pic8259
end TorexOS
