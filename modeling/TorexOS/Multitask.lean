import TorexOS.IrqFrame
import TorexOS.Lib.Transition

/-!
# TorexOS.Multitask

Runs of tasks that are switched by calls of `Task::switch_to` and by `Task::switch_to_in_irq` in the
handler of an interrupt, on one processor.

* `View`: what a task sees of a processor. `ownStep` is the purpose of a switch: each task has a
  processor of its own, on which `switch_to` is a call that returns and an interrupt is nothing.
* `tasks`: the runs of the processor and, beside it, of those of the tasks.
* `owns_reach`: the processor is the one of the running task, and the context of each other task is
  the state of its own.
-/

namespace TorexOS
namespace Ps

open X86 Packed Text Guarded

structure View where
  reg : Reg → BitVec 64
  seg : Seg → BitVec 16
  rip : BitVec 64
  flags : BitVec 64

def view (c : Cpu) : View := ⟨c.reg, c.seg, c.rip, flagsImage c.flags⟩

/-- The view of the processor that goes on from a context. -/
def CpuContext.view (x : CpuContext) : View :=
  ⟨x.reg, fun s => (x.seg s).setWidth 16, x.rip, flagsImage x.rflag⟩

/-- Behind a call that only returns. The status flags are those that `SwitchContext` leaves. -/
def returned (c : Cpu) : View :=
  ⟨Function.update c.reg .rsp (c.reg .rsp + 8), c.seg, c.top, flagsImage (savedFlags c)⟩

theorem flagsImage_flagsImage (v : BitVec 64) : flagsImage (flagsImage v) = flagsImage v := by
  apply BitVec.eq_of_getLsbD_eq
  intro j _
  simp only [flagsImage, BitVec.getLsbD_or, BitVec.getLsbD_and]
  cases loadable.getLsbD j <;> cases (2 : BitVec 64).getLsbD j <;> simp

theorem view_resumed (x : CpuContext) (m : Nat → BitVec 8) : view (resumed x m) = x.view := by
  rw [view, resumed, CpuContext.view, flagsImage_flagsImage]

theorem view_interrupted (c : Cpu) : (interrupted c).view = view c := by
  unfold CpuContext.view view
  congr 1
  · funext r
    cases r <;> rfl
  · funext s
    cases s <;> simp [CpuContext.seg, interrupted, setWidth_store]

theorem view_suspended (c : Cpu) : (suspended c).view = returned c := by
  unfold CpuContext.view returned
  congr 1
  · funext r
    cases r <;> rfl
  · funext s
    cases s <;> simp [CpuContext.seg, suspended, setWidth_store]

/-- A call of `SwitchContext` keeps the flags, but for those of the status, RF and VM. -/
theorem returned_flags (c : Cpu) : (returned c).flags &&& ~~~(statusFlags ||| notPushed) =
    flagsImage c.flags &&& ~~~(statusFlags ||| notPushed) := by
  have hadd : addFlags (c.reg .rsp - 8) 16 &&& ~~~statusFlags = 0 := status_and _ _ _ _ _ _
  apply BitVec.eq_of_getLsbD_eq
  intro j hj
  have hbit : (addFlags (c.reg .rsp - 8) 16 &&& ~~~statusFlags).getLsbD j = false := by
    rw [hadd]
    exact BitVec.getLsbD_zero
  simp only [BitVec.getLsbD_and, BitVec.getLsbD_not, hj, decide_true, Bool.true_and] at hbit
  simp only [returned, savedFlags, flagsImage, BitVec.getLsbD_or, BitVec.getLsbD_and,
    BitVec.getLsbD_not, hj, decide_true, Bool.true_and]
  cases hs : statusFlags.getLsbD j with
  | true => simp
  | false =>
    rw [hs, Bool.not_false, Bool.and_true] at hbit
    rw [hbit]
    cases notPushed.getLsbD j <;> cases loadable.getLsbD j <;> cases (2 : BitVec 64).getLsbD j <;> simp

/-! ## Runs -/

/-- The processor and the task that it runs, and what each task would have on a processor of its
own. -/
structure Multi where
  cpu : Cpu
  cur : TaskPtr
  own : TaskPtr → View

inductive MultiOp where
  /-- The running task goes on. -/
  | run (c : Cpu)
  /-- `Task::switch_to(next)` -/
  | call (next : TaskPtr)
  /-- An interrupt, whose handler may switch and leaves the processor as it is in `c`. -/
  | irq (after : Option TaskPtr) (c : Cpu)

section System

variable (loc : TaskPtr → Nat) (ts : List TaskPtr) (istEnd : BitVec 64)

/-- No context of a task but those with `T` differs. -/
def Untouched (T : TaskPtr → Prop) (m m' : Bytes) : Prop :=
  ∀ t ∈ ts, ¬ T t → ∀ x, loc t ≤ x → x < loc t + 192 → m' x = m x

/-- What the handler does to the frame and the contexts. -/
def handled (cur : TaskPtr) (m : Bytes) : Option TaskPtr → Option Bytes
  | none => some m
  | some u => switchFrames m (loc cur) (getContextInException istEnd).toNat (loc u)

def Multi.legal (s : Multi) : MultiOp → Prop
  | .run c => Untouched loc ts (· = s.cur) s.cpu.mem c.mem
  | .call u => u ∈ ts ∧ s.cpu.reg .rdi = BitVec.ofNat 64 (loc s.cur) ∧
      s.cpu.reg .rsi = BitVec.ofNat 64 (loc u) ∧ ∃ S, (s.cpu.reg .rsp).toNat = S ∧ 24 ≤ S ∧
        S + 8 < 2 ^ 64 ∧ ∀ t ∈ ts, loc t + 192 ≤ S - 24 ∨ S + 8 ≤ loc t
  | .irq after c => (∀ u, after = some u → u ∈ ts) ∧
      c.reg .rsp = (interruptEntry istEnd s.cpu).reg .rsp ∧
      ∃ m, handled loc istEnd s.cur (interruptEntry istEnd s.cpu).mem after = some m ∧
        Untouched loc ts (fun _ => False) m c.mem ∧
        contextAt c.mem (getContextInException istEnd).toNat =
          contextAt m (getContextInException istEnd).toNat

/-- On its own processor, a task goes on by its own steps only. -/
def ownStep (c : Cpu) (cur : TaskPtr) (own : TaskPtr → View) : MultiOp → TaskPtr → View
  | .run c' => Function.update own cur (view c')
  | .call _ => Function.update own cur (returned c)
  | .irq _ _ => own

def Multi.step (s : Multi) (op : MultiOp) : Multi :=
  match op with
  | .run c => ⟨c, s.cur, ownStep s.cpu s.cur s.own op⟩
  | .call u => ⟨switchContext s.cpu, u, ownStep s.cpu s.cur s.own op⟩
  | .irq after c => ⟨interruptExit c, after.getD s.cur, ownStep s.cpu s.cur s.own op⟩

/-- The contexts and the frame in memory, all apart. -/
structure Layout (F : Nat) : Prop where
  pos : ∀ t ∈ ts, 0 < loc t
  room : ∀ t ∈ ts, loc t + 192 < 2 ^ 64
  apart : ∀ t ∈ ts, ∀ u ∈ ts, t ≠ u → Apart (loc t) (loc u) 192
  ist : IstAt istEnd F
  frame : ∀ t ∈ ts, Apart (loc t) F 192

/-- The processor is the one of the running task, and the context of each other task is the state of
its own. -/
structure Multi.Owns (s : Multi) : Prop where
  cur : s.cur ∈ ts
  cpu : view s.cpu = s.own s.cur
  context : ∀ t ∈ ts, t ≠ s.cur → (contextAt s.cpu.mem (loc t)).view = s.own t

def tasks : Transition.System Multi MultiOp where
  init := Multi.Owns loc ts
  legal := Multi.legal loc ts istEnd
  step s op := some (s.step op)

variable {loc ts istEnd} {F : Nat} {s : Multi}

theorem owns_run (h : s.Owns loc ts) {c : Cpu}
    (hl : Untouched loc ts (· = s.cur) s.cpu.mem c.mem) :
    (s.step (.run c)).Owns loc ts where
  cur := h.cur
  cpu := (Function.update_self s.cur (view c) s.own).symm
  context t ht hne := by
    have hne' : t ≠ s.cur := hne
    change (contextAt c.mem (loc t)).view = Function.update s.own s.cur (view c) t
    rw [Function.update_of_ne hne', ← h.context t ht hne', contextAt_congr (hl t ht hne')]

theorem owns_call (hlay : Layout loc ts istEnd F) (h : s.Owns loc ts) {u : TaskPtr}
    (hl : s.legal loc ts istEnd (.call u)) : (s.step (.call u)).Owns loc ts := by
  obtain ⟨hu, hrdi, hrsi, S, hS, hlow, hhigh, hstack⟩ := hl
  have hroom := hlay.room
  have hdi : (s.cpu.reg .rdi).toNat = loc s.cur := by
    rw [hrdi, BitVec.toNat_ofNat, Nat.mod_eq_of_lt]
    have := hroom s.cur h.cur
    omega
  have hsi : (s.cpu.reg .rsi).toNat = loc u := by
    rw [hrsi, BitVec.toNat_ofNat, Nat.mod_eq_of_lt]
    have := hroom u hu
    omega
  have hcall : Calling s.cpu S (loc s.cur) :=
    ⟨hS, hdi, hlow, hhigh, hroom s.cur h.cur, hstack s.cur h.cur⟩
  obtain ⟨m, hrun, hsave, hmem⟩ := switchContext_save hcall (hlay.pos s.cur h.cur).ne' hsi (hroom u hu)
  have hcontext : ∀ t ∈ ts, (contextAt m (loc t)).view = Function.update s.own s.cur (returned s.cpu) t := by
    intro t ht
    by_cases htc : t = s.cur
    · rw [htc, hsave, view_suspended, Function.update_self]
    · have hap := hlay.apart t ht s.cur h.cur htc
      have hst := hstack t ht
      unfold Apart at hap
      rw [contextAt_congr fun x h1 h2 => hmem x (by omega) (by omega), h.context t ht htc,
        Function.update_of_ne htc]
  have hstep : s.step (.call u) = ⟨resumed (contextAt m (loc u)) m, u,
      Function.update s.own s.cur (returned s.cpu)⟩ := by
    rw [Multi.step, hrun]
    rfl
  rw [hstep]
  exact ⟨hu, by rw [view_resumed, hcontext u hu], fun t ht _ => hcontext t ht⟩

theorem owns_irq (hlay : Layout loc ts istEnd F) (h : s.Owns loc ts) {after : Option TaskPtr} {c : Cpu}
    (hl : s.legal loc ts istEnd (.irq after c)) : (s.step (.irq after c)).Owns loc ts := by
  obtain ⟨hafter, hrsp, m, hm, hunt, hframe⟩ := hl
  obtain ⟨ersp, econtext, emem⟩ := interruptEntry_frame (c := s.cpu) hlay.ist
  rw [hlay.ist.getContextInException] at hframe
  have hroom : F + 192 < 2 ^ 64 := by
    have hf := hlay.ist.frame
    have := istEnd.isLt
    omega
  have hexit : interruptExit c = resumed (contextAt m F) c.mem := by
    rw [interruptExit_resumed (by rw [hrsp, ersp]) hroom, hframe]
  have hkeep : ∀ t ∈ ts, contextAt c.mem (loc t) = contextAt m (loc t) := fun t ht =>
    contextAt_congr (hunt t ht not_false)
  have hentry : ∀ t ∈ ts, t ≠ s.cur →
      (contextAt (interruptEntry istEnd s.cpu).mem (loc t)).view = s.own t := by
    intro t ht hne
    have hap := hlay.frame t ht
    unfold Apart at hap
    rw [contextAt_congr fun x h1 h2 => emem x (by omega), h.context t ht hne]
  have hint : (interrupted s.cpu).view = s.own s.cur := by rw [view_interrupted, h.cpu]
  cases after with
  | none =>
    obtain rfl : (interruptEntry istEnd s.cpu).mem = m := by simpa [handled] using hm
    have hstep : s.step (.irq none c) = ⟨resumed (interrupted s.cpu) c.mem, s.cur, s.own⟩ := by
      rw [Multi.step, hexit, econtext]
      rfl
    rw [hstep]
    refine ⟨h.cur, by rw [view_resumed, hint], fun t ht hne => ?_⟩
    change (contextAt c.mem (loc t)).view = s.own t
    rw [hkeep t ht, hentry t ht hne]
  | some u =>
    have hu : u ∈ ts := hafter u rfl
    have hne : loc u = loc s.cur ∨ Apart (loc s.cur) (loc u) 192 := by
      by_cases huc : u = s.cur
      · exact .inl (by rw [huc])
      · exact .inr (hlay.apart s.cur h.cur u hu (Ne.symm huc))
    obtain ⟨m', hrun, hcur, hnext, hmem⟩ := switchFrames_spec (m := (interruptEntry istEnd s.cpu).mem)
      (hlay.frame s.cur h.cur) (hlay.frame u hu).symm hne
    obtain rfl : m' = m := by
      rw [handled, hlay.ist.getContextInException, hrun] at hm
      exact Option.some.inj hm
    have hcontext : ∀ t ∈ ts, (contextAt m' (loc t)).view = s.own t := by
      intro t ht
      by_cases htc : t = s.cur
      · rw [htc, hcur, econtext, hint]
      · have hap := hlay.apart t ht s.cur h.cur htc
        have hfr := hlay.frame t ht
        unfold Apart at hap hfr
        rw [contextAt_congr fun x h1 h2 => hmem x (by omega) (by omega), hentry t ht htc]
    have hF : (contextAt m' F).view = s.own u := by
      rw [hnext]
      by_cases huc : u = s.cur
      · rw [huc, if_pos rfl, econtext, hint]
      · have hap := hlay.apart u hu s.cur h.cur huc
        unfold Apart at hap
        rw [if_neg (by omega), hentry u hu huc]
    have hstep : s.step (.irq (some u) c) = ⟨resumed (contextAt m' F) c.mem, u, s.own⟩ := by
      rw [Multi.step, hexit]
      rfl
    rw [hstep]
    refine ⟨hu, by rw [view_resumed, hF], fun t ht _ => ?_⟩
    change (contextAt c.mem (loc t)).view = s.own t
    rw [hkeep t ht, hcontext t ht]

/-- In every run: a task that goes on finds the registers, the selectors, the flags and the
instruction that it would have on a processor of its own. -/
theorem owns_reach (hlay : Layout loc ts istEnd F)
    (h : Transition.Reach (tasks loc ts istEnd) (fun _ _ => True) s) : s.Owns loc ts := by
  refine h.invariant (fun _ hs => hs) fun s t op hs hl _ hstep => ?_
  obtain rfl : s.step op = t := Option.some.inj hstep
  cases op with
  | run c => exact owns_run hs hl
  | call u => exact owns_call hlay hs hl
  | irq after c => exact owns_irq hlay hs hl

end System

/-- The first of two tasks, about to call `switch_to` for the second. -/
def callingCpu : Cpu :=
  ⟨fun r => if r = .rdi then 0x2000 else if r = .rsi then 0x3000 else if r = .rsp then 0x8000
    else if r = .rbx then 7 else 0, fun _ => 0x10, 0, 2, fun _ => 0⟩

def twoTasks (t : TaskPtr) : Nat := 0x2000 + 0x1000 * t

theorem twoTasks_layout : Layout twoTasks [0, 1] 0x10000 0xff40 where
  pos := by simp [twoTasks]
  room := by simp [twoTasks]
  apart := by simp [twoTasks, Apart]
  ist := ⟨by decide, by decide⟩
  frame := by simp [twoTasks, Apart]

/-- The task calls `switch_to`, and gets the processor back in an interrupt of the other one: it has
returned from the call, with `rbx` as it was. -/
theorem owns_reach_switches : ∃ s : Multi,
    Transition.Reach (tasks twoTasks [0, 1] 0x10000) (fun _ _ => True) s ∧
      s.Owns twoTasks [0, 1] ∧ s.cur = 0 ∧ s.cpu.reg .rsp = 0x8008 ∧ s.cpu.reg .rbx = 7 := by
  have hlay := twoTasks_layout
  let s₀ : Multi := ⟨callingCpu, 0,
    fun t => if t = 0 then view callingCpu else (contextAt callingCpu.mem (twoTasks t)).view⟩
  have hs₀ : s₀.Owns twoTasks [0, 1] := by
    constructor
    · simp [s₀]
    · simp [s₀]
    · intro t _ hne
      have h0 : t ≠ 0 := hne
      simp [s₀, h0]
  have hcall : s₀.legal twoTasks [0, 1] 0x10000 (.call 1) :=
    ⟨by simp, rfl, rfl, 0x8000, rfl, by omega, by omega, by simp [twoTasks]⟩
  have hr₁ : Transition.Reach (tasks twoTasks [0, 1] 0x10000) (fun _ _ => True) (s₀.step (.call 1)) :=
    .step (i := .call 1) (.init hs₀) hcall trivial rfl
  generalize hs₁ : s₀.step (.call 1) = s₁ at hr₁
  have hcur : s₁.cur = 1 := by rw [← hs₁]; rfl
  -- the handler switches, and leaves the registers as they are
  obtain ⟨m, hm, _⟩ := switchFrames_spec (m := (interruptEntry 0x10000 s₁.cpu).mem)
    (hlay.frame 1 (by simp)) (hlay.frame 0 (by simp)).symm
    (.inr (hlay.apart 1 (by simp) 0 (by simp) (by decide)))
  let c : Cpu := { interruptEntry 0x10000 s₁.cpu with mem := m }
  have hirq : s₁.legal twoTasks [0, 1] 0x10000 (.irq (some 0) c) := by
    refine ⟨by simp, rfl, m, ?_, fun _ _ _ _ _ _ => rfl, rfl⟩
    rw [handled, hlay.ist.getContextInException, hcur]
    exact hm
  have hr₂ : Transition.Reach (tasks twoTasks [0, 1] 0x10000) (fun _ _ => True)
      (s₁.step (.irq (some 0) c)) :=
    .step (i := .irq (some 0) c) hr₁ hirq trivial rfl
  have hown := owns_reach hlay hr₂
  have hview : view (s₁.step (.irq (some 0) c)).cpu = returned callingCpu := by
    rw [hown.cpu, ← hs₁]
    rfl
  have hcur₂ : (s₁.step (.irq (some 0) c)).cur = 0 := rfl
  generalize s₁.step (.irq (some 0) c) = s₂ at hr₂ hown hview hcur₂
  have hreg : s₂.cpu.reg = (returned callingCpu).reg := congrArg View.reg hview
  exact ⟨s₂, hr₂, hown, hcur₂, by rw [hreg]; decide, by rw [hreg]; decide⟩

end Ps
end TorexOS
