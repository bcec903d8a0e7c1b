import Mathlib.Data.List.Nodup
import TorexOS.ListRefine
import TorexOS.Process
import TorexOS.Lib.Transition

/-!
# TorexOS.ProcessQueues

The six state queues share one link pair per task.

* `Spelled s qs`: the queues spell the lists `qs`, and no task is in two of them. What a pop and a
  push of one queue do to it.
* `Switched`: what a switch does to states and contexts, also when the queues are damaged.
* `Queued s created qs`: every created task is in the list of its own state.
* `queues_hold`: over every run in which no call removes the last of three or more tasks of a queue,
  nor hands `NullScheduler` a task that is not running, each task is in exactly the queue of its
  state and no call dereferences null.
-/

namespace TorexOS
namespace Ps

open Util Util.ListBase Transition

section Spelled

variable {s s' : Processes} {qs : StateFlag → List TaskPtr} {sf : StateFlag} {t : TaskPtr}

/-- The two memories differ in the links of tasks only. -/
def SameButLinks (s s' : Processes) : Prop :=
  ∀ u, ∃ x, s'.task u = { s.task u with stateNode := x }

theorem SameButLinks.state (h : SameButLinks s s') (u : TaskPtr) :
    (s'.task u).state = (s.task u).state := by
  obtain ⟨x, hx⟩ := h u; rw [hx]

theorem SameButLinks.cpuContext (h : SameButLinks s s') (u : TaskPtr) :
    (s'.task u).cpuContext = (s.task u).cpuContext := by
  obtain ⟨x, hx⟩ := h u; rw [hx]

theorem SameButLinks.nodeInScheduler (h : SameButLinks s s') (u : TaskPtr) :
    (s'.task u).nodeInScheduler = (s.task u).nodeInScheduler := by
  obtain ⟨x, hx⟩ := h u; rw [hx]

theorem sameButLinks_of_writes {S : TaskPtr → Prop} {task : TaskPtr → Task} {l : ListBase TaskPtr}
    (h : Writes taskNode S s.task task) : SameButLinks s (s.setQueue sf (task, l)) := by
  intro u
  let f : Task → Task := fun r => { r with stateNode := ⟨none, none⟩ }
  have hw : Writes (nodeFieldTrait Task.stateNode (fun t x => { t with stateNode := x })
      (fun _ _ => rfl)) S s.task task := h
  have hf : f (task u) = f (s.task u) := by
    refine Writes.field_eq ?_ hw u
    intro _ _; rfl
  refine ⟨(task u).stateNode, ?_⟩
  show task u = _
  simp only [f, Task.mk.injEq, true_and] at hf
  obtain ⟨h1, h2, h3, h4, h5⟩ := hf
  cases hu : task u with
  | mk r1 r2 r3 r4 r5 r6 =>
    rw [hu] at h1 h2 h3 h4 h5
    simp only [Task.mk.injEq, true_and]
    exact ⟨h1, h2, h3, h4, h5⟩

/-- The calls write links only, whatever the queue looks like. -/
theorem popNode_sameButLinks (h : s.popNode sf t = some s') : SameButLinks s s' := by
  unfold Processes.popNode at h
  cases hp : ListBase.popNode taskNode s.task (s.queue sf) t with
  | none => rw [hp] at h; cases h
  | some r => rw [hp] at h; cases h; exact sameButLinks_of_writes (popNode_writes hp)

theorem pushBackNode_sameButLinks (h : s.pushBackNode sf t = some s') : SameButLinks s s' := by
  unfold Processes.pushBackNode at h
  cases hp : ListBase.pushBackNode taskNode s.task (s.queue sf) t with
  | none => rw [hp] at h; cases h
  | some r => rw [hp] at h; cases h; exact sameButLinks_of_writes (pushBackNode_writes hp)

theorem pushFrontNode_sameButLinks (h : s.pushFrontNode sf t = some s') : SameButLinks s s' := by
  unfold Processes.pushFrontNode at h
  cases hp : ListBase.pushFrontNode taskNode s.task (s.queue sf) t with
  | none => rw [hp] at h; cases h
  | some r => rw [hp] at h; cases h; exact sameButLinks_of_writes (pushFrontNode_writes hp)

/-- The queues spell the lists, and no task is in two of them. -/
structure Spelled (s : Processes) (qs : StateFlag → List TaskPtr) : Prop where
  linked : ∀ sf, Linked taskNode s.task (s.queue sf) (qs sf)
  apart : ∀ sf sf' t, t ∈ qs sf → t ∈ qs sf' → sf = sf'

/-- One queue called, on its own tasks and one in no other queue: the others stay as they are. -/
theorem Spelled.setQueue {r : (TaskPtr → Task) × ListBase TaskPtr} {xs ys : List TaskPtr}
    (h : Spelled s qs) (hl : Linked taskNode r.1 r.2 xs) (hw : Writes taskNode (· ∈ ys) s.task r.1)
    (hxs : ∀ u ∈ xs, u ∈ ys) (hys : ∀ sf', sf' ≠ sf → ∀ u ∈ ys, u ∉ qs sf') :
    Spelled (s.setQueue sf r) (Function.update qs sf xs) where
  linked sf' := by
    by_cases hsf : sf' = sf
    · rw [hsf, Function.update_self]
      simpa [Processes.setQueue] using hl
    · rw [Function.update_of_ne hsf]
      have hq : (s.setQueue sf r).queue sf' = s.queue sf' := if_neg hsf
      rw [hq]
      have hlinks : ∀ u ∈ qs sf', ¬ u ∈ ys := fun u hu hc => hys sf' hsf u hc hu
      exact (h.linked sf').congr (fun u hu => (hw.links_eq (hlinks u hu)).1)
        (fun u hu => (hw.links_eq (hlinks u hu)).2)
  apart sf₁ sf₂ u h₁ h₂ := by
    by_cases h1 : sf₁ = sf <;> by_cases h2 : sf₂ = sf
    · rw [h1, h2]
    · rw [h1, Function.update_self] at h₁
      rw [Function.update_of_ne h2] at h₂
      exact absurd h₂ (hys sf₂ h2 u (hxs u h₁))
    · rw [h2, Function.update_self] at h₂
      rw [Function.update_of_ne h1] at h₁
      exact absurd h₁ (hys sf₁ h1 u (hxs u h₂))
    · rw [Function.update_of_ne h1] at h₁
      rw [Function.update_of_ne h2] at h₂
      exact h.apart _ _ _ h₁ h₂

theorem Spelled.popNode (h : Spelled s qs) (ht : t ∈ qs sf)
    (hk : ¬ CutsBack taskNode s.task (s.queue sf) t) :
    ∃ s', s.popNode sf t = some s' ∧
      Spelled s' (Function.update qs sf ((qs sf).erase t)) := by
  have hx : (qs sf).length ≤ 2 ∨ (qs sf).getLast? ≠ some t := by
    have hc := mt (h.linked sf).cutsBack_iff.mpr hk
    rw [not_and_or] at hc
    cases hc with
    | inl hc => exact .inl (by omega)
    | inr hc => exact .inr hc
  obtain ⟨m, l, he, hl⟩ := popNode_linked (h.linked sf) ht hx
  obtain ⟨_, hw⟩ := popNode_threaded (h.linked sf).toThreaded ht he
  refine ⟨s.setQueue sf (m, l), by rw [Processes.popNode, he]; rfl, ?_⟩
  refine h.setQueue (r := (m, l)) hl hw (fun u hu => List.mem_of_mem_erase hu) ?_
  intro sf' hne u hu hu'
  exact hne (h.apart _ _ u hu' hu)

theorem Spelled.pushBackNode (h : Spelled s qs) (ht : ∀ sf', t ∉ qs sf') (sf : StateFlag) :
    ∃ s', s.pushBackNode sf t = some s' ∧ Spelled s' (Function.update qs sf (qs sf ++ [t])) := by
  obtain ⟨m, l, he, _, hl, hw⟩ :=
    pushBackNode_threaded (h.linked sf).toThreaded (ht sf) trivial
  refine ⟨s.setQueue sf (m, l), by rw [Processes.pushBackNode, he]; rfl, ?_⟩
  refine h.setQueue (r := (m, l)) (hl (h.linked sf)) hw (fun u hu => ?_) ?_
  · simp only [List.mem_append, List.mem_singleton] at hu
    simp only [List.mem_cons]
    exact hu.symm
  · intro sf' hne u hu hu'
    cases hu with
    | head => exact ht sf' hu'
    | tail _ hu => exact hne (h.apart _ _ u hu' hu)

theorem Spelled.pushFrontNode (h : Spelled s qs) (ht : ∀ sf', t ∉ qs sf') (sf : StateFlag) :
    ∃ s', s.pushFrontNode sf t = some s' ∧ Spelled s' (Function.update qs sf (t :: qs sf)) := by
  obtain ⟨m, l, he, _, hl, hw⟩ :=
    pushFrontNode_threaded (h.linked sf).toThreaded (ht sf) trivial
  refine ⟨s.setQueue sf (m, l), by rw [Processes.pushFrontNode, he]; rfl, ?_⟩
  refine h.setQueue (r := (m, l)) (hl (h.linked sf)) hw (fun u hu => hu) ?_
  intro sf' hne u hu hu'
  cases hu with
  | head => exact ht sf' hu'
  | tail _ hu => exact hne (h.apart _ _ u hu' hu)

/-- What is not a link may change: the queues spell the same lists. -/
theorem Spelled.congr (h : Spelled s qs) (hq : s'.queue = s.queue)
    (ht : ∀ u sf, u ∈ qs sf → (s'.task u).stateNode = (s.task u).stateNode) : Spelled s' qs where
  linked sf := by
    rw [hq]
    refine (h.linked sf).congr (fun u hu => ?_) (fun u hu => ?_)
    · show (s'.task u).stateNode.listNext = _
      rw [ht u sf hu]; rfl
    · show (s'.task u).stateNode.listPrev = _
      rw [ht u sf hu]; rfl
  apart := h.apart

end Spelled

/-! ## Switches, whatever the queues look like -/

section Switched

variable {s s' : Processes} {live live' : CpuContext} {sf : StateFlag} {t other : TaskPtr}

/-- `change_state` sets the state of one task; else only links are written. -/
theorem changeState_fields (h : s.changeState t sf = some s') (u : TaskPtr) :
    (s'.task u).nodeInScheduler = (s.task u).nodeInScheduler ∧
      (s'.task u).cpuContext = (s.task u).cpuContext ∧
      (s'.task u).state = if u = t then sf else (s.task u).state := by
  unfold Processes.changeState at h
  cases hp : s.popNode (s.task t).state t with
  | none => rw [hp] at h; cases h
  | some s₁ =>
    rw [hp] at h
    have hb₁ := popNode_sameButLinks hp
    have hb₂ := pushBackNode_sameButLinks h
    rw [hb₂.nodeInScheduler, hb₂.cpuContext, hb₂.state]
    by_cases hu : u = t
    · simp [Processes.setTask, hu, hb₁.nodeInScheduler, hb₁.cpuContext]
    · simp [Processes.setTask, hu, hb₁.nodeInScheduler, hb₁.cpuContext, hb₁.state]

/-- What a switch from `t` to `other` does: `t` is made ready and its context stored, `other` is
made running and its context loaded. -/
structure Switched (s s' : Processes) (live live' : CpuContext) (t other : TaskPtr) : Prop where
  nodeInScheduler : ∀ u, (s'.task u).nodeInScheduler = (s.task u).nodeInScheduler
  stored : ∀ u, (s'.task u).cpuContext = if u = t then live else (s.task u).cpuContext
  loaded : live' = (s'.task other).cpuContext
  state : ∀ u, (s'.task u).state =
    if u = other then .running else if u = t then .ready else (s.task u).state

theorem switchToInIrq_switched (h : s.switchToInIrq live t other = some (s', live')) :
    Switched s s' live live' t other := by
  unfold Processes.switchToInIrq Processes.changeStates at h
  cases h₁ : s.changeState t .ready with
  | none => rw [h₁] at h; cases h
  | some s₁ =>
    rw [h₁] at h
    cases h₂ : s₁.changeState other .running with
    | none => simp only [h₂] at h; cases h
    | some s₂ =>
      simp only [h₂] at h
      cases h
      have hf₁ := changeState_fields h₁
      have hf₂ := changeState_fields h₂
      refine ⟨fun u => ?_, fun u => ?_, rfl, fun u => ?_⟩
      all_goals
        by_cases hu : u = t
        · simp [Processes.setContext, Processes.setTask, hu, hf₂, hf₁]
        · simp [Processes.setContext, Processes.setTask, hu, hf₂, hf₁]

/-- The two mechanisms agree: a task stopped by one can be resumed by the other. -/
theorem switchTo_eq : s.switchTo live t other = s.switchToInIrq live t other := rfl

end Switched

/-! ## Runs -/

/-- A state between two calls, with the tasks created so far. -/
structure RunState where
  procs : Processes
  created : List TaskPtr

inductive Op where
  | build (b : BuilderCall)
  | changeState (t : TaskPtr) (sf : StateFlag)
  | switchTo (live : CpuContext) (t other : TaskPtr)
  | switchToInIrq (cur : CpuContext) (t after : TaskPtr)
  | nullCurrent (t : TaskPtr)

/-- A new task is where no task is; the other calls are on tasks created. -/
def Op.Legal (s : RunState) : Op → Prop
  | .build b => b.new.ptr ∉ s.created
  | .changeState t _ => t ∈ s.created
  | .switchTo _ t other => t ∈ s.created ∧ other ∈ s.created
  | .switchToInIrq _ t after => t ∈ s.created ∧ after ∈ s.created
  | .nullCurrent t => t ∈ s.created

instance (s : RunState) (op : Op) : Decidable (op.Legal s) := by
  cases op <;> unfold Op.Legal <;> infer_instance

def Op.exec (s : RunState) : Op → Option RunState
  | .build b => (s.procs.buildTask b).map fun p => ⟨p, b.new.ptr :: s.created⟩
  | .changeState t sf => (s.procs.changeState t sf).map fun p => { s with procs := p }
  | .switchTo live t other => (s.procs.switchTo live t other).map fun r => { s with procs := r.1 }
  | .switchToInIrq cur t after =>
    (s.procs.switchToInIrq cur t after).map fun r => { s with procs := r.1 }
  | .nullCurrent t => (s.procs.nullCurrent t).map fun p => { s with procs := p }

/-- The system starts with six empty queues. -/
def processSystem : System RunState Op where
  init s := s.created = [] ∧ ∀ sf, s.procs.queue sf = ListBase.new
  legal s op := op.Legal s
  step s op := op.exec s

instance (s : RunState) (op : Op) : Decidable (processSystem.legal s op) :=
  inferInstanceAs (Decidable (op.Legal s))

/-- Taking `t` out of its queue does not run `pop_back_node` on three tasks or more. -/
def KeepsQueue (s : Processes) (t : TaskPtr) : Prop :=
  ¬ CutsBack taskNode s.task (s.queue (s.task t).state) t

/-- The same for both tasks of a switch, each when its turn comes. -/
def KeepsBoth (s : Processes) (t other : TaskPtr) : Prop :=
  KeepsQueue s t ∧ ∀ s' ∈ s.changeState t .ready, KeepsQueue s' other

/-- Every pop is one that keeps the queue, and `NullScheduler` is given a running task. -/
def Op.KeepsQueues (s : RunState) : Op → Prop
  | .build _ => True
  | .changeState t _ => KeepsQueue s.procs t
  | .switchTo _ t other => KeepsBoth s.procs t other
  | .switchToInIrq _ t after => KeepsBoth s.procs t after
  | .nullCurrent t => KeepsQueue s.procs t ∧ (s.procs.task t).state = .running

instance (s : Processes) (t : TaskPtr) : Decidable (KeepsQueue s t) := by
  unfold KeepsQueue; infer_instance

instance (s : Processes) (t other : TaskPtr) : Decidable (KeepsBoth s t other) := by
  unfold KeepsBoth; infer_instance

instance (s : RunState) (op : Op) : Decidable (op.KeepsQueues s) := by
  cases op <;> unfold Op.KeepsQueues <;> infer_instance

/-- Each task is once in the queue of its state, walked from the head, and in no other. -/
def InItsQueue (s : RunState) : Prop :=
  ∀ t ∈ s.created, ∀ sf, ∃ xs, Walks (taskNode.getNext s.procs.task) (s.procs.queue sf).head xs ∧
    xs.count t = if (s.procs.task t).state = sf then 1 else 0

/-- The invariant of the runs: the lists that the queues spell are the tasks by state. -/
structure Queued (s : RunState) (qs : StateFlag → List TaskPtr) : Prop where
  spelled : Spelled s.procs qs
  mem : ∀ sf t, t ∈ qs sf ↔ t ∈ s.created ∧ (s.procs.task t).state = sf

section Queued

variable {s s' : RunState} {p p' : Processes} {qs : StateFlag → List TaskPtr} {sf : StateFlag}
variable {t : TaskPtr}

theorem Queued.inItsQueue (h : Queued s qs) : InItsQueue s := by
  intro t ht sf
  have hl := h.spelled.linked sf
  refine ⟨qs sf, hl.represents.forward, ?_⟩
  by_cases hs : (s.procs.task t).state = sf
  · rw [if_pos hs]
    exact List.nodup_iff_count_eq_one.mp hl.nodup t ((h.mem sf t).mpr ⟨ht, hs⟩)
  · rw [if_neg hs]
    exact List.count_eq_zero_of_not_mem fun hm => hs ((h.mem sf t).mp hm).2

/-- Out of its queue a task is in none. -/
theorem Queued.mem_removed (h : Queued s qs) (t : TaskPtr) (q : StateFlag) (u : TaskPtr) :
    u ∈ Function.update qs (s.procs.task t).state ((qs (s.procs.task t).state).erase t) q ↔
      u ∈ qs q ∧ u ≠ t := by
  by_cases hq : q = (s.procs.task t).state
  · rw [hq, Function.update_self, (h.spelled.linked _).nodup.mem_erase_iff]
    exact and_comm
  · rw [Function.update_of_ne hq]
    refine ⟨fun hu => ⟨hu, fun hut => hq ?_⟩, fun hu => hu.1⟩
    rw [hut] at hu
    exact ((h.mem q t).mp hu).2.symm

/-- The task taken out of its queue and put in another, its state set to that one. -/
theorem Queued.moved {ys : List TaskPtr} (h : Queued s qs) (ht : t ∈ s.created)
    (hs : Spelled p' (Function.update (Function.update qs (s.procs.task t).state
      ((qs (s.procs.task t).state).erase t)) sf ys))
    (hys : ∀ u, u ∈ ys ↔ u = t ∨ u ∈ Function.update qs (s.procs.task t).state
      ((qs (s.procs.task t).state).erase t) sf)
    (hst : (p'.task t).state = sf)
    (hne : ∀ u, u ≠ t → (p'.task u).state = (s.procs.task u).state) :
    ∃ qs', Queued ⟨p', s.created⟩ qs' := by
  refine ⟨_, hs, fun q u => ?_⟩
  by_cases hq : q = sf
  · rw [hq, Function.update_self, hys, h.mem_removed]
    by_cases hut : u = t
    · simp [hut, ht, hst]
    · simp [hut, h.mem, hne u hut]
  · rw [Function.update_of_ne hq, h.mem_removed]
    by_cases hut : u = t
    · simp only [hut, ne_eq, not_true_eq_false, and_false, hst, false_iff, not_and]
      exact fun _ hc => hq hc.symm
    · simp [hut, h.mem, hne u hut]

/-- What an update of the tasks that leaves links and states alone does. -/
theorem Queued.congr (h : Queued s qs) (hq : p'.queue = s.procs.queue)
    (hn : ∀ u, (p'.task u).stateNode = (s.procs.task u).stateNode)
    (hs : ∀ u, (p'.task u).state = (s.procs.task u).state) : Queued ⟨p', s.created⟩ qs where
  spelled := h.spelled.congr hq fun u _ _ => hn u
  mem sf t := by rw [h.mem, hs]

/-- `pop_node` of a task, from the queue of its state. -/
theorem Queued.popNode (h : Queued s qs) (ht : t ∈ s.created) (hk : KeepsQueue s.procs t) :
    ∃ p', s.procs.popNode (s.procs.task t).state t = some p' ∧
      Spelled p' (Function.update qs (s.procs.task t).state
        ((qs (s.procs.task t).state).erase t)) ∧ SameButLinks s.procs p' := by
  obtain ⟨p', he, hp⟩ := h.spelled.popNode ((h.mem _ t).mpr ⟨ht, rfl⟩) hk
  exact ⟨p', he, hp, popNode_sameButLinks he⟩

theorem Queued.changeState (h : Queued s qs) (ht : t ∈ s.created) (hk : KeepsQueue s.procs t)
    (sf : StateFlag) : ∃ p', s.procs.changeState t sf = some p' ∧
      ∃ qs', Queued ⟨p', s.created⟩ qs' := by
  obtain ⟨p₁, he₁, hp₁, hb₁⟩ := h.popNode ht hk
  let p₂ := p₁.setTask t { p₁.task t with state := sf }
  have hlinks : ∀ u, (p₂.task u).stateNode = (p₁.task u).stateNode := by
    intro u
    by_cases hu : u = t
    · simp [p₂, Processes.setTask, hu]
    · simp [p₂, Processes.setTask, hu]
  have hqueue : p₂.queue = p₁.queue := rfl
  have hp₂ := hp₁.congr hqueue fun u _ _ => hlinks u
  have hsf : (p₂.task t).state = sf := by simp [p₂, Processes.setTask]
  have hout : ∀ q, t ∉ Function.update qs (s.procs.task t).state
      ((qs (s.procs.task t).state).erase t) q := fun q hm => ((h.mem_removed t q t).mp hm).2 rfl
  obtain ⟨p₃, he₃, hp₃⟩ := hp₂.pushBackNode hout sf
  have hb₃ := pushBackNode_sameButLinks he₃
  refine ⟨p₃, ?_, h.moved ht hp₃ (fun u => ?_) ?_ fun u hu => ?_⟩
  · rw [Processes.changeState, he₁]
    simp only
    rw [show (p₁.setTask t { p₁.task t with state := sf }) = p₂ from rfl, hsf, he₃]
  · simp only [List.mem_append, List.mem_singleton]
    exact or_comm
  · rw [hb₃.state, hsf]
  · rw [hb₃.state, show (p₂.task u).state = (p₁.task u).state by simp [p₂, Processes.setTask, hu],
      hb₁.state]

theorem Queued.changeStates {other : TaskPtr} (h : Queued s qs) (ht : t ∈ s.created)
    (ho : other ∈ s.created) (hk : KeepsBoth s.procs t other) :
    ∃ p', s.procs.changeStates t other = some p' ∧ ∃ qs', Queued ⟨p', s.created⟩ qs' := by
  obtain ⟨p₁, he₁, qs₁, h₁⟩ := h.changeState ht hk.1 .ready
  have hk₂ : KeepsQueue p₁ other := hk.2 p₁ (by rw [he₁]; rfl)
  obtain ⟨p₂, he₂, h₂⟩ := h₁.changeState (t := other) ho hk₂ .running
  exact ⟨p₂, by rw [Processes.changeStates, he₁]; exact he₂, h₂⟩

/-- Storing a context changes no queue. -/
theorem Queued.setContext (h : Queued ⟨p, s.created⟩ qs) (c : CpuContext) :
    Queued ⟨p.setContext t c, s.created⟩ qs := by
  refine h.congr rfl (fun u => ?_) (fun u => ?_)
  all_goals
    by_cases hu : u = t
    · simp [Processes.setContext, Processes.setTask, hu]
    · simp [Processes.setContext, Processes.setTask, hu]

theorem Queued.nullCurrent (h : Queued s qs) (ht : t ∈ s.created) (hk : KeepsQueue s.procs t)
    (hr : (s.procs.task t).state = .running) :
    ∃ p', s.procs.nullCurrent t = some p' ∧ ∃ qs', Queued ⟨p', s.created⟩ qs' := by
  obtain ⟨p₁, he₁, hp₁, hb₁⟩ := h.popNode ht hk
  have hout : ∀ q, t ∉ Function.update qs (s.procs.task t).state
      ((qs (s.procs.task t).state).erase t) q := fun q hm => ((h.mem_removed t q t).mp hm).2 rfl
  obtain ⟨p₂, he₂, hp₂⟩ := hp₁.pushFrontNode hout .running
  have hb₂ := pushFrontNode_sameButLinks he₂
  refine ⟨p₂, ?_, h.moved ht hp₂ (fun u => List.mem_cons) ?_ fun u hu => ?_⟩
  · rw [Processes.nullCurrent, he₁]; exact he₂
  · rw [hb₂.state, hb₁.state, hr]
  · rw [hb₂.state, hb₁.state]

/-- Given a task that is not running, it leaves it in the running queue under its old state. -/
theorem Queued.nullCurrent_misplaces (h : Queued s qs) (ht : t ∈ s.created)
    (hk : KeepsQueue s.procs t) (hr : (s.procs.task t).state ≠ .running) :
    ∃ p', s.procs.nullCurrent t = some p' ∧ ¬ InItsQueue ⟨p', s.created⟩ := by
  obtain ⟨p₁, he₁, hp₁, hb₁⟩ := h.popNode ht hk
  have hout : ∀ q, t ∉ Function.update qs (s.procs.task t).state
      ((qs (s.procs.task t).state).erase t) q := fun q hm => ((h.mem_removed t q t).mp hm).2 rfl
  obtain ⟨p₂, he₂, hp₂⟩ := hp₁.pushFrontNode hout .running
  refine ⟨p₂, by rw [Processes.nullCurrent, he₁]; exact he₂, fun hall => ?_⟩
  obtain ⟨xs, hw, hc⟩ := hall t ht .running
  have hst : (p₂.task t).state = (s.procs.task t).state := by
    rw [(pushFrontNode_sameButLinks he₂).state, hb₁.state]
  have hwalk := (hp₂.linked .running).represents.forward
  rw [walks_unique hw hwalk, Function.update_self, List.count_cons_self, hst, if_neg hr] at hc
  omega

/-- The builder sets neither links nor state. -/
theorem Builder.chain_fields (ctor : Builder.Ctor) (calls : List Builder.Call)
    (chars : BitVec 64) (ret : Task) :
    (Builder.chain ctor calls chars ret).stateNode = ret.stateNode ∧
      (Builder.chain ctor calls chars ret).state = ret.state := by
  have hcalls : ∀ (calls : List Builder.Call) (r : Task),
      (calls.foldl (fun ret call => call.apply ret) r).stateNode = r.stateNode ∧
        (calls.foldl (fun ret call => call.apply ret) r).state = r.state := by
    intro calls
    induction calls with
    | nil => intro r; exact ⟨rfl, rfl⟩
    | cons call calls ih =>
      intro r
      obtain ⟨h1, h2⟩ := ih (call.apply r)
      cases call with
      | name => exact ⟨h1, h2⟩
      | stack sz => exact ⟨h1, h2⟩
      | stackAt ptr sz => exact ⟨h1, h2⟩
  have hbuild : ∀ r : Task, (Builder.build chars r).stateNode = r.stateNode ∧
      (Builder.build chars r).state = r.state := by
    intro r
    unfold Builder.build
    split
    · exact ⟨rfl, rfl⟩
    · exact ⟨rfl, rfl⟩
  obtain ⟨b1, b2⟩ := hbuild (calls.foldl (fun ret call => call.apply ret) (ctor.apply ret))
  obtain ⟨c1, c2⟩ := hcalls calls (ctor.apply ret)
  rw [Builder.chain, b1, b2, c1, c2]
  cases ctor with
  | fn f => exact ⟨rfl, rfl⟩
  | main f argc argv => exact ⟨rfl, rfl⟩

theorem Queued.buildTask {b : BuilderCall} (h : Queued s qs) (hb : b.new.ptr ∉ s.created) :
    ∃ p', s.procs.buildTask b = some p' ∧ ∃ qs', Queued ⟨p', b.new.ptr :: s.created⟩ qs' := by
  let p₁ := s.procs.setTask b.new.ptr { b.new.raw with state := .created }
  have hnew : ∀ q, b.new.ptr ∉ qs q := fun q hm => hb ((h.mem q _).mp hm).1
  have hp₁ : Spelled p₁ qs := by
    refine h.spelled.congr rfl fun u sf hu => ?_
    have hne : u ≠ b.new.ptr := by intro he; rw [he] at hu; exact hnew sf hu
    simp [p₁, Processes.setTask, hne]
  obtain ⟨p₂, he₂, hp₂⟩ := hp₁.pushBackNode hnew .created
  have hb₂ := pushBackNode_sameButLinks he₂
  have hq₂ : Queued ⟨p₂, b.new.ptr :: s.created⟩
      (Function.update qs .created (qs .created ++ [b.new.ptr])) := by
    refine ⟨hp₂, fun q u => ?_⟩
    rw [hb₂.state]
    by_cases hu : u = b.new.ptr
    · have hst : (p₁.task u).state = .created := by simp [p₁, Processes.setTask, hu]
      by_cases hq : q = .created
      · rw [hq, Function.update_self]; simp [hu, ← hst]
      · rw [Function.update_of_ne hq, hst]
        simp [hu, hnew q, Ne.symm hq]
    · have hst : (p₁.task u).state = (s.procs.task u).state := by
        simp [p₁, Processes.setTask, hu]
      by_cases hq : q = .created
      · rw [hq, Function.update_self]; simp [hu, hst, h.mem]
      · rw [Function.update_of_ne hq]; simp [hu, hst, h.mem]
  obtain ⟨f1, f2⟩ := Builder.chain_fields b.ctor b.calls b.chars (p₂.task b.new.ptr)
  let p₃ := p₂.setTask b.new.ptr (Builder.chain b.ctor b.calls b.chars (p₂.task b.new.ptr))
  have hqueue : p₃.queue = p₂.queue := rfl
  refine ⟨p₃, ?_, _, hq₂.congr hqueue (fun u => ?_) fun u => ?_⟩
  · rw [Processes.buildTask, Processes.createKernelTaskTemplate,
      show s.procs.setTask b.new.ptr { b.new.raw with state := .created } = p₁ from rfl, he₂]
  all_goals
    by_cases hu : u = b.new.ptr
    · simp [p₃, Processes.setTask, hu, f1, f2]
    · simp [p₃, Processes.setTask, hu]

/-- One step: a legal call that keeps the queues dereferences no null link and leaves every task in
the queue of its state. -/
theorem Queued.exec {op : Op} (h : Queued s qs) (hop : op.Legal s) (hk : op.KeepsQueues s) :
    ∃ s', op.exec s = some s' ∧ ∃ qs', Queued s' qs' := by
  cases op with
  | build b =>
    obtain ⟨p', he, hq⟩ := h.buildTask hop
    exact ⟨_, by simp only [Op.exec, he]; rfl, hq⟩
  | changeState t sf =>
    obtain ⟨p', he, hq⟩ := h.changeState hop hk sf
    exact ⟨_, by simp only [Op.exec, he]; rfl, hq⟩
  | switchTo live t other =>
    obtain ⟨p', he, qs', hq⟩ := h.changeStates hop.1 hop.2 hk
    refine ⟨_, by simp only [Op.exec, Processes.switchTo, he]; rfl, qs', ?_⟩
    exact hq.setContext live
  | switchToInIrq cur t after =>
    obtain ⟨p', he, qs', hq⟩ := h.changeStates hop.1 hop.2 hk
    refine ⟨_, by simp only [Op.exec, Processes.switchToInIrq, he]; rfl, qs', ?_⟩
    exact hq.setContext cur
  | nullCurrent t =>
    obtain ⟨p', he, hq⟩ := h.nullCurrent hop hk.1 hk.2
    exact ⟨_, by simp only [Op.exec, he]; rfl, hq⟩

theorem queued_init (h : processSystem.init s) : Queued s fun _ => [] where
  spelled :=
    { linked := fun sf => by rw [h.2 sf]; exact new_linked taskNode _
      apart := fun _ _ _ hm => by cases hm }
  mem sf t := by simp [h.1]

theorem queued_reach (h : Reach processSystem (fun s op => op.KeepsQueues s) s) :
    ∃ qs, Queued s qs := by
  refine Reach.invariant (P := fun s => ∃ qs, Queued s qs) (fun s hs => ⟨_, queued_init hs⟩) ?_ h
  intro s s' op hq hl hk he
  obtain ⟨qs, hq⟩ := hq
  obtain ⟨s₁, he₁, hq₁⟩ := hq.exec hl hk
  have hs₁ : s₁ = s' := Option.some.inj (he₁.symm.trans he)
  rwa [hs₁] at hq₁

/-- Every task is in exactly the queue of its state in every state of every run whose calls keep
the queues, and no such call dereferences a null link. -/
theorem queues_hold (h : Reach processSystem (fun s op => op.KeepsQueues s) s) :
    InItsQueue s ∧ ∀ op : Op, op.Legal s → op.KeepsQueues s → op.exec s ≠ none := by
  obtain ⟨qs, hq⟩ := queued_reach h
  refine ⟨hq.inItsQueue, fun op hl hk hn => ?_⟩
  obtain ⟨s', he, _⟩ := hq.exec hl hk
  rw [hn] at he; cases he

end Queued

/-- A task as `new` may find it, and the call that builds it. -/
def rawTask : Task := ⟨⟨none, none⟩, .created, 0, 0, none, ⟨0, 0, 0, 0, 0, 0, 0, 0, 0, 0, 0, 0, 0, 0, 0,
  0, 0, 0, 0, 0, 0, 0, 0, 0⟩⟩

def builderCall (t : TaskPtr) : BuilderCall := ⟨⟨t, rawTask⟩, .fn 0, [], 0⟩

def noProcesses : RunState := ⟨⟨fun _ => rawTask, fun _ => ListBase.new⟩, []⟩

theorem noProcesses_init : processSystem.init noProcesses := ⟨rfl, fun _ => rfl⟩

/-- Three tasks, switched in both ways; one is put to sleep and one ends. -/
theorem queues_hold_three : ∃ s, Reach processSystem (fun s op => op.KeepsQueues s) s ∧
    s.created.map (fun t => (t, (s.procs.task t).state)) =
      [(3, .running), (2, .terminated), (1, .asleep)] ∧ InItsQueue s := by
  have he : (replay (processSystem.guard fun s op => op.KeepsQueues s) noProcesses
      [.build (builderCall 1), .changeState 1 .ready, .build (builderCall 2), .changeState 2 .ready,
        .build (builderCall 3), .changeState 1 .running, .nullCurrent 1,
        .switchTo rawTask.cpuContext 1 2, .changeState 3 .ready, .changeState 1 .asleep,
        .switchToInIrq rawTask.cpuContext 2 3, .changeState 2 .terminated]).map
      (fun s => s.created.map fun t => (t, (s.procs.task t).state)) =
        some [(3, .running), (2, .terminated), (1, .asleep)] := by
    decide +kernel
  obtain ⟨s, hs, hl⟩ := Option.map_eq_some_iff.mp he
  have hr : Reach processSystem (fun s op => op.KeepsQueues s) s :=
    .replay_guard (.init noProcesses_init) hs
  exact ⟨s, hr, hl, (queues_hold hr).1⟩

/-- Three tasks created, and the last made ready: the second is in no queue any more. -/
theorem lost_task : ¬ ∀ s, Reach processSystem (fun _ _ => True) s → InItsQueue s := by
  intro hall
  have hrun : ∃ s, replay processSystem noProcesses [.build (builderCall 1), .build (builderCall 2),
      .build (builderCall 3), .changeState 3 .ready] = some s ∧ 2 ∈ s.created ∧
      (s.procs.task 2).state = .created ∧ (s.procs.queue .created).head = some 1 ∧
      taskNode.getNext s.procs.task 1 = none := ⟨_, rfl, by decide, rfl, rfl, rfl⟩
  obtain ⟨s, hs, hcr, hst, hhead, hnext⟩ := hrun
  have hr : Reach processSystem (fun _ _ => True) s := Reach.replay (.init noProcesses_init) hs
  obtain ⟨xs, hw, hc⟩ := hall s hr 2 hcr .created
  rw [hst, if_pos rfl] at hc
  rw [hhead] at hw
  cases xs with
  | nil => cases hw
  | cons a xs =>
    obtain ⟨ha, hw⟩ := hw
    cases ha
    rw [hnext] at hw
    cases xs with
    | nil => simp at hc
    | cons b xs => cases hw.1

end Ps
end TorexOS
