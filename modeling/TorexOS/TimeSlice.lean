import TorexOS.Scheduling
import Mathlib.Tactic.Ring

/-!
# TorexOS.TimeSlice

The timer of `drivers/timer/pit.cpp` under the scheduler.

* `topHalf`: the timer interrupt, which calls `tick` once `count` has reached `expired`.
* `SliceRun`: the machine, with the number of interrupts since the timer was last armed.
* `time_slice`: over every interleaving of timer interrupts and yields after `start_scheduling`, the
  interrupt that calls `tick` is the fifth one.
-/

namespace TorexOS
namespace Ps

/-- `count++` -/
def SchedPitTimerHandler.countUp (h : SchedPitTimerHandler) : SchedPitTimerHandler :=
  { h with count := h.count + 1 }

/-- `expired <= count` -/
def SchedPitTimerHandler.due (h : SchedPitTimerHandler) : Bool := h.expired ≤ h.count

namespace Machine

/-- `SchedPitTimerHandler::topHalf` -/
def topHalf (s : Machine) : Except SchedFault Machine :=
  let s := { s with timer := s.timer.countUp }
  if s.timer.due then s.tick else .ok s

/-- A timer interrupt now calls `tick`. -/
def CallsTick (s : Machine) : Prop := s.timer.countUp.due = true

instance (s : Machine) : Decidable s.CallsTick := inferInstanceAs (Decidable (_ = true))

end Machine

inductive TimerOp where
  | interrupt
  | yield
  deriving DecidableEq

/-- The machine and the number of interrupts since `start_scheduling` armed the timer, the last tick
or the last yield. -/
structure SliceRun where
  m : Machine
  since : Nat

def TimerOp.exec (r : SliceRun) : TimerOp → Option SliceRun
  | .interrupt =>
    r.m.topHalf.toOption.map fun m => ⟨m, if r.m.CallsTick then 0 else r.since + 1⟩
  | .yield => r.m.yield.toOption.map fun m => ⟨m, 0⟩

/-- Interrupts and yields in the order given; `none` when a switch stops at a null link. -/
def runSlices (r : SliceRun) (ops : List TimerOp) : Option SliceRun := ops.foldlM TimerOp.exec r

def interrupts (ops : List TimerOp) : Nat := ops.count .interrupt

section Timer

variable {s s' : Machine} {t : TaskPtr} {n : NodePtr}
variable {switch : Processes → CpuContext → TaskPtr → TaskPtr → Option (Processes × CpuContext)}

theorem switchNext_timer (h : s.switchNext switch = .ok s') : s'.timer = s.timer := by
  simp only [Machine.switchNext] at h
  split at h
  · cases h
  · split at h
    · cases h
    · split at h
      · cases h
      · cases h; rfl

theorem tick_timer (h : s.tick = .ok s') : s'.timer = s.timer.setExpired 5 := by
  rw [Machine.tick] at h
  cases hs : s.switchNext Processes.switchToInIrq with
  | error e => rw [hs] at h; cases h
  | ok s₁ =>
    rw [hs] at h
    cases h
    exact congrArg (·.setExpired 5) (switchNext_timer hs)

theorem yield_timer (h : s.yield = .ok s') : s'.timer = s.timer.setExpired 5 := switchNext_timer h

theorem enqueue_timer (h : s.enqueue t n = some s') : s'.timer = s.timer := by
  simp only [Machine.enqueue] at h
  split at h
  · cases h
  · cases h; rfl

theorem enqueueAll_timer {ns : List NodePtr} : ∀ {s : Machine} {pos : Option TaskPtr},
    enqueueAll s pos ns = some s' → s'.timer = s.timer := by
  induction ns with
  | nil =>
    intro s pos h
    cases pos with
    | none => cases h; rfl
    | some t => cases h
  | cons n ns ih =>
    intro s pos h
    cases pos with
    | none => cases h; rfl
    | some t =>
      rw [enqueueAll] at h
      cases he : s.enqueue t n with
      | none => rw [he] at h; cases h
      | some s₁ =>
        rw [he] at h
        exact (ih h).trans (enqueue_timer he)

theorem startMain_timer {img : Image} {m : Storage} (h : startMain s img m = some s') :
    s'.timer = s.timer := by
  rw [startMain] at h
  split at h
  · cases h
  · split at h
    · cases h
    · rename_i he
      simp only at h
      split at h
      · cases h
      · cases h
        have ht := enqueue_timer he
        exact ht

/-- `start_scheduling` arms the timer, and nothing after it does. -/
theorem startScheduling_timer {p : Processes} {timer : SchedPitTimerHandler} {live : CpuContext}
    {img : Image} {m : Storage} (h : startScheduling p timer live img m = some s) :
    s.timer = timer.setExpired 5 := by
  rw [startScheduling] at h
  split at h
  · cases h
  · split at h
    · cases h
    · rename_i hc
      rw [startMain_timer h]
      exact enqueueAll_timer hc

end Timer

/-! ## The law -/

/-- After `n` interrupts the timer is armed five interrupts ahead of where `since` started. -/
structure Armed (r : SliceRun) (n : Nat) : Prop where
  since : r.since ≤ 4
  count : r.m.timer.count.toNat = n
  expired : r.m.timer.expired.toNat + r.since = n + 5

section Law

variable {r r' : SliceRun} {n : Nat} {ops : List TimerOp}

theorem SchedPitTimerHandler.countUp_toNat {h : SchedPitTimerHandler}
    (hn : h.count.toNat + 1 < 2 ^ 64 - 5) : h.countUp.count.toNat = h.count.toNat + 1 := by
  rw [countUp, BitVec.toNat_add, show BitVec.toNat (1 : BitVec 64) = 1 from rfl]
  exact Nat.mod_eq_of_lt (by omega)

theorem SchedPitTimerHandler.setExpired_toNat {h : SchedPitTimerHandler}
    (hn : h.count.toNat < 2 ^ 64 - 5) : (h.setExpired 5).expired.toNat = h.count.toNat + 5 := by
  rw [setExpired, BitVec.toNat_add, show BitVec.toNat (5 : BitVec 64) = 5 from rfl]
  exact Nat.mod_eq_of_lt (by omega)

/-- What arming the timer establishes. -/
theorem Armed.of_setExpired {m : Machine} {h : SchedPitTimerHandler} (hm : m.timer = h.setExpired 5)
    (hn : h.count.toNat < 2 ^ 64 - 5) : Armed ⟨m, 0⟩ h.count.toNat where
  since := Nat.zero_le _
  count := by rw [hm]; rfl
  expired := by rw [hm]; exact SchedPitTimerHandler.setExpired_toNat hn

/-- The next interrupt calls `tick` exactly when it is the fifth. -/
theorem Armed.callsTick_iff (h : Armed r n) (hn : n + 1 < 2 ^ 64 - 5) :
    r.m.CallsTick ↔ r.since + 1 = 5 := by
  have hs := h.since
  have hc := h.count
  have he := h.expired
  have hup := SchedPitTimerHandler.countUp_toNat (h := r.m.timer) (by omega)
  rw [Machine.CallsTick, SchedPitTimerHandler.due, decide_eq_true_eq, BitVec.le_def, hup]
  show r.m.timer.expired.toNat ≤ _ ↔ _
  omega

/-- What the interrupt does: the fifth is `tick` of the machine that has counted it, another only
counts. -/
theorem Armed.topHalf_eq (h : Armed r n) (hn : n + 1 < 2 ^ 64 - 5) :
    r.m.topHalf =
      if r.since + 1 = 5 then Machine.tick { r.m with timer := r.m.timer.countUp }
      else .ok { r.m with timer := r.m.timer.countUp } := by
  by_cases hc : r.m.CallsTick
  · rw [if_pos ((h.callsTick_iff hn).mp hc)]
    exact if_pos hc
  · rw [if_neg (mt (h.callsTick_iff hn).mpr hc)]
    exact if_neg hc

/-- An interrupt before the fifth only counts. -/
theorem Armed.count_up (h : Armed r n) (hn : n + 1 < 2 ^ 64 - 5) (hs : r.since + 1 < 5) :
    ∃ r', TimerOp.interrupt.exec r = some r' ∧ Armed r' (n + 1) ∧ r'.since = r.since + 1 ∧
      r'.m = { r.m with timer := r.m.timer.countUp } := by
  have hnot : ¬ r.m.CallsTick := fun hc => by
    have := (h.callsTick_iff hn).mp hc
    omega
  have htop := (h.topHalf_eq hn).trans (if_neg (by omega))
  have hcount := SchedPitTimerHandler.countUp_toNat (h := r.m.timer) (by rw [h.count]; exact hn)
  have hexp := h.expired
  refine ⟨⟨{ r.m with timer := r.m.timer.countUp }, r.since + 1⟩, ?_, ⟨?_, ?_, ?_⟩, rfl, rfl⟩
  · rw [TimerOp.exec, htop, if_neg hnot]
    rfl
  · show r.since + 1 ≤ 4
    omega
  · exact hcount.trans (by rw [h.count])
  · show r.m.timer.expired.toNat + (r.since + 1) = _
    omega

/-- One step keeps the timer armed. -/
theorem Armed.step {op : TimerOp} (h : Armed r n) (hn : n + interrupts [op] < 2 ^ 64 - 5)
    (he : op.exec r = some r') : Armed r' (n + interrupts [op]) := by
  cases op with
  | interrupt =>
    have hn : n + 1 < 2 ^ 64 - 5 := hn
    by_cases hs : r.since + 1 < 5
    · obtain ⟨r₁, he₁, ha, _⟩ := h.count_up hn hs
      cases he.symm.trans he₁
      exact ha
    · have hc := (h.callsTick_iff hn).mpr (by have := h.since; omega)
      have htop := (h.topHalf_eq hn).trans (if_pos (by have := h.since; omega))
      have hcount := SchedPitTimerHandler.countUp_toNat (h := r.m.timer)
        (by rw [h.count]; exact hn)
      rw [TimerOp.exec, htop, if_pos hc] at he
      cases ht : Machine.tick { r.m with timer := r.m.timer.countUp } with
      | error e => rw [ht] at he; cases he
      | ok m =>
        rw [ht] at he
        cases he
        have ha := Armed.of_setExpired (tick_timer ht) (by rw [hcount, h.count]; exact hn)
        rwa [hcount, h.count] at ha
  | yield =>
    rw [TimerOp.exec] at he
    cases hy : r.m.yield with
    | error e => rw [hy] at he; cases he
    | ok m =>
      rw [hy] at he
      cases he
      have ha := Armed.of_setExpired (yield_timer hy) (by rw [h.count]; exact hn)
      rwa [h.count] at ha

/-- A run keeps it armed. -/
theorem Armed.run : ∀ {r : SliceRun} {n : Nat}, Armed r n → n + interrupts ops < 2 ^ 64 - 5 →
    runSlices r ops = some r' → Armed r' (n + interrupts ops) := by
  induction ops with
  | nil =>
    intro r n h _ he
    cases he
    exact h
  | cons op ops ih =>
    intro r n h hn he
    have hsplit : interrupts ([op] ++ ops) = interrupts [op] + interrupts ops := List.count_append
    rw [List.singleton_append] at hsplit
    rw [hsplit] at hn ⊢
    rw [runSlices, List.foldlM_cons] at he
    obtain ⟨r₁, he₁, he⟩ := Option.bind_eq_some_iff.mp he
    have h₁ := h.step (by omega) he₁
    have hr := ih h₁ (by omega) he
    rwa [Nat.add_assoc] at hr

/-- Interrupts before the fifth leave the tasks, the scheduler and the registers as they are. -/
theorem Armed.quiet {j : Nat} : ∀ {r : SliceRun} {n : Nat}, Armed r n → r.since + j ≤ 4 →
    n + j < 2 ^ 64 - 5 → ∃ r', runSlices r (List.replicate j .interrupt) = some r' ∧
      Armed r' (n + j) ∧ r'.since = r.since + j ∧ r'.m = { r.m with timer := r'.m.timer } := by
  induction j with
  | zero => exact fun h _ _ => ⟨_, rfl, h, rfl, rfl⟩
  | succ j ih =>
    intro r n h hs hn
    obtain ⟨r₁, he, h₁, hs₁, hm₁⟩ := h.count_up (by omega) (by omega)
    obtain ⟨r', he', h', hs', hm'⟩ := ih h₁ (by omega) (by omega)
    refine ⟨r', ?_, by rwa [Nat.add_assoc, Nat.add_comm 1 j] at h', by omega, ?_⟩
    · rw [runSlices, List.replicate_succ, List.foldlM_cons, he]
      exact he'
    · rw [hm', hm₁]

/-- The time-slice law. After `start_scheduling` and any interleaving of interrupts and yields, the
next interrupt is `tick` exactly when it is the fifth since the timer was armed, and otherwise it only
counts; so a task that has just become current is left alone by four interrupts, and the fifth is
`tick`. -/
theorem time_slice {p : Processes} {timer : SchedPitTimerHandler} {live : CpuContext} {img : Image}
    {m : Storage} {s : Machine} (hs : startScheduling p timer live img m = some s)
    (hr : runSlices ⟨s, 0⟩ ops = some r) :
    (timer.count.toNat + interrupts ops + 1 < 2 ^ 64 - 5 →
      (r.m.CallsTick ↔ r.since + 1 = 5) ∧
      r.m.topHalf =
        if r.since + 1 = 5 then Machine.tick { r.m with timer := r.m.timer.countUp }
        else .ok { r.m with timer := r.m.timer.countUp }) ∧
    (r.since = 0 → ∀ j ≤ 4, timer.count.toNat + interrupts ops + j + 1 < 2 ^ 64 - 5 →
      ∃ r', runSlices r (List.replicate j .interrupt) = some r' ∧
        r'.m = { r.m with timer := r'.m.timer } ∧ (r'.m.CallsTick ↔ j = 4) ∧
        r'.m.topHalf =
          if j = 4 then Machine.tick { r'.m with timer := r'.m.timer.countUp }
          else .ok { r'.m with timer := r'.m.timer.countUp }) := by
  have hstart := startScheduling_timer hs
  have harmed : timer.count.toNat + interrupts ops < 2 ^ 64 - 5 →
      Armed r (timer.count.toNat + interrupts ops) := by
    intro hn
    exact (Armed.of_setExpired hstart (by omega)).run hn hr
  constructor
  · intro hn
    have h := harmed (by omega)
    exact ⟨h.callsTick_iff hn, h.topHalf_eq hn⟩
  · intro h0 j hj hn
    obtain ⟨r', he, h', hs', hm⟩ := (harmed (by omega)).quiet (j := j) (by omega) (by omega)
    have hfifth : r'.since + 1 = 5 ↔ j = 4 := by omega
    refine ⟨r', he, hm, (h'.callsTick_iff hn).trans hfifth, ?_⟩
    rw [h'.topHalf_eq hn]
    simp only [hfifth]

/-- Two interrupts, then the main task yields: the fifth interrupt of the idle task is `tick`. -/
theorem time_slice_yield : ∃ r r', r.m.sched.current = some smallStorage.idle.ptr ∧
    runSlices r (List.replicate 4 .interrupt) = some r' ∧
    r'.m.sched.current = some smallStorage.idle.ptr ∧
    r'.m.topHalf = Machine.tick { r'.m with timer := r'.m.timer.countUp } := by
  have he : (startScheduling noProcesses.procs ⟨0, 0⟩ rawTask.cpuContext smallImage smallStorage).bind
      (fun s => (runSlices ⟨s, 0⟩ [.interrupt, .interrupt, .yield]).map fun r =>
        (r.since, r.m.sched.current)) = some (0, some smallStorage.idle.ptr) := by
    decide +kernel
  obtain ⟨s, hs, he⟩ := Option.bind_eq_some_iff.mp he
  obtain ⟨r, hr, he⟩ := Option.map_eq_some_iff.mp he
  obtain ⟨h0, hcur⟩ := Prod.mk.inj he
  obtain ⟨r', hr', hm, _, ht⟩ := (time_slice hs hr).2 h0 4 (Nat.le_refl _) (by decide)
  exact ⟨r, r', hcur, hr', by rw [hm]; exact hcur, ht⟩

end Law

end Ps
end TorexOS
