import TorexOS.SchedulerRun

/-!
# TorexOS.Scheduling

`start_scheduling` of `process/scheduler.cpp`, and the contexts of the tasks from then on.

* `startScheduling`: the idle task, the scheduler with all ready tasks, the main task and the first
  load of a context.
* `ContextRun`: the machine with the context each task had when it last stopped being current, or
  else the one its builder gave it.
* `context_integrity`: over every interleaving of ticks, yields and work of the current task, what a
  task gets back is that context, and it alone is running.
-/

namespace TorexOS
namespace Ps

open Util Util.ListBase Transition

/-- What the kernel image fixes: two entry points and the symbol `STACK_START`. -/
structure Image where
  idleWork : BitVec 64
  initEntry : BitVec 64
  stackStart : BitVec 64

/-- What the calls of `new` return: storage for the two tasks, the stack of the idle task and the
nodes of the scheduler; `heap` is what the nodes hold before they are set up. -/
structure Storage where
  idle : NewTask
  idleStack : BitVec 64
  main : NewTask
  heap : NodePtr → SchedNode
  nodes : List NodePtr
  mainNode : NodePtr

/-- `createIdleTask` -/
def idleCall (img : Image) (m : Storage) : BuilderCall :=
  ⟨m.idle, .fn img.idleWork, [.name], m.idleStack⟩

/-- The main task has its stack from `STACK_START`, so `new char[]` is not called. -/
def mainCall (img : Image) (m : Storage) : BuilderCall :=
  ⟨m.main, .fn img.initEntry, [.name, .stackAt img.stackStart 0x100000], 0⟩

/-- `for (auto& it : get_queue(StateFlag::ready)) sched->enqueue(&it);` from the iterator `pos`. It
stops when `new` has no node left. -/
def enqueueAll : Machine → Option TaskPtr → List NodePtr → Option Machine
  | s, none, _ => some s
  | _, some _, [] => none
  | s, some t, n :: ns =>
    match s.enqueue t n with
    | none => none
    | some s => enqueueAll s (taskNode.getNext s.procs.task t) ns

/-- `ps::init_scheduler` -/
def initScheduler (p : Processes) (img : Image) (m : Storage) : Option Processes :=
  match p.buildTask (idleCall img m) with
  | none => none
  | some p => p.changeState m.idle.ptr .ready

/-- `ps::change_scheduler` to a new `RoundRobinScheduler`. -/
def changeScheduler (p : Processes) (timer : SchedPitTimerHandler) (live : CpuContext)
    (m : Storage) : Option Machine :=
  enqueueAll ⟨p, ⟨m.heap, ListBase.new, none, []⟩, timer, live⟩ (p.queue .ready).head m.nodes

/-- The main task is built, enqueued and made current. -/
def startMain (s : Machine) (img : Image) (m : Storage) : Option Machine :=
  match s.procs.buildTask (mainCall img m) with
  | none => none
  | some p =>
    match { s with procs := p }.enqueue m.main.ptr m.mainNode with
    | none => none
    | some s =>
      let s := s.setCurrent m.main.ptr
      match s.procs.changeState m.main.ptr .running with
      | none => none
      | some p =>
        let r := p.contextSwitchTo s.regs m.main.ptr
        some { s with procs := r.1, regs := r.2 }

/-- `ps::start_scheduling` -/
def startScheduling (p : Processes) (timer : SchedPitTimerHandler) (live : CpuContext) (img : Image)
    (m : Storage) : Option Machine :=
  match initScheduler p img m with
  | none => none
  | some p =>
    match changeScheduler p (timer.setExpired 5) live m with
    | none => none
    | some s => startMain s img m

/-- The context that `Task::Builder::build` gives a task. -/
def BuilderCall.context (b : BuilderCall) : CpuContext :=
  (Builder.chain b.ctor b.calls b.chars b.new.raw).cpuContext

/-- The machine and, for each task, the context it had when it last stopped being current, or the
one its builder gave it. -/
structure ContextRun where
  m : Machine
  stopped : TaskPtr → CpuContext

/-- The interrupts, the yields, and what the current task does to its registers. -/
inductive ContextOp where
  | tick
  | yield
  | work (regs : CpuContext)
  deriving DecidableEq

/-- The current task stops here. -/
def ContextRun.stop (r : ContextRun) : TaskPtr → CpuContext :=
  fun t => if r.m.sched.current = some t then r.m.regs else r.stopped t

def ContextOp.exec (r : ContextRun) : ContextOp → Option ContextRun
  | .tick => r.m.tick.toOption.map fun m => ⟨m, r.stop⟩
  | .yield => r.m.yield.toOption.map fun m => ⟨m, r.stop⟩
  | .work regs => some { r with m := { r.m with regs := regs } }

/-- The storage is new: no task created before is in it, and no node is given out twice. -/
structure Storage.Fresh (m : Storage) (created : List TaskPtr) : Prop where
  idle : m.idle.ptr ∉ created
  main : m.main.ptr ∉ created
  tasks : m.main.ptr ≠ m.idle.ptr
  nodes : (m.mainNode :: m.nodes).Nodup

/-- A run starts where `start_scheduling` gets to, called with any number of ready tasks, each in
its queue and with the context its builder gave it. -/
def StartsFrom (r : ContextRun) (p : Processes) (created : List TaskPtr)
    (built : TaskPtr → BuilderCall) (img : Image) (m : Storage) : Prop :=
  (∃ qs, Queued ⟨p, created⟩ qs) ∧ m.Fresh created ∧
    (∀ t ∈ created, (p.task t).state = .ready → (p.task t).cpuContext = (built t).context) ∧
    (∃ timer live, startScheduling p timer live img m = some r.m) ∧
    r.stopped = fun t =>
      if t = m.main.ptr then (mainCall img m).context
      else if t = m.idle.ptr then (idleCall img m).context
      else (built t).context

def contextSystem : System ContextRun ContextOp where
  init r := ∃ p created built img m, StartsFrom r p created built img m
  legal _ _ := True
  step r op := op.exec r

instance (r : ContextRun) (op : ContextOp) : Decidable (contextSystem.legal r op) :=
  inferInstanceAs (Decidable True)

/-! ## Start -/

section Start

variable {p p' : Processes} {s s' : Machine} {b : BuilderCall} {ns : List NodePtr}
variable {img : Image} {m : Storage}

/-- The context a builder gives depends neither on the links nor on the state of the new task. -/
theorem Builder.chain_context (ctor : Builder.Ctor) (calls : List Builder.Call)
    (chars : BitVec 64) (ret : Task) (x : ListNode TaskPtr) (y : StateFlag) :
    (Builder.chain ctor calls chars { ret with stateNode := x, state := y }).cpuContext =
      (Builder.chain ctor calls chars ret).cpuContext := by
  let f : Task → Task := fun r => { r with stateNode := x, state := y }
  have hcalls : ∀ (calls : List Builder.Call) (r : Task),
      calls.foldl (fun ret call => call.apply ret) (f r) =
        f (calls.foldl (fun ret call => call.apply ret) r) := by
    intro calls
    induction calls with
    | nil => intro r; rfl
    | cons call calls ih =>
      intro r
      cases call with
      | name => exact ih r
      | stack sz => exact ih (Builder.stack sz r)
      | stackAt ptr sz => exact ih (Builder.stackAt ptr sz r)
  have hbuild : ∀ r, (Builder.build chars (f r)).cpuContext = (Builder.build chars r).cpuContext := by
    intro r
    have hf : (f r).stackStart = r.stackStart := rfl
    unfold Builder.build
    rw [hf]
    split
    · rfl
    · rfl
  have hctor : ctor.apply (f ret) = f (ctor.apply ret) := by
    cases ctor with
    | fn f => rfl
    | main f argc argv => rfl
  show (Builder.chain ctor calls chars (f ret)).cpuContext = _
  unfold Builder.chain
  rw [hctor, hcalls, hbuild]

/-- A task built has the context of its call; the others keep all but their links. -/
theorem buildTask_fields (h : p.buildTask b = some p') :
    (p'.task b.new.ptr).cpuContext = b.context ∧ (p'.task b.new.ptr).state = .created ∧
      ∀ u, u ≠ b.new.ptr → (p'.task u).cpuContext = (p.task u).cpuContext ∧
        (p'.task u).state = (p.task u).state ∧
        (p'.task u).nodeInScheduler = (p.task u).nodeInScheduler := by
  unfold Processes.buildTask Processes.createKernelTaskTemplate at h
  let p₁ := p.setTask b.new.ptr { b.new.raw with state := .created }
  cases hp : p₁.pushBackNode .created b.new.ptr with
  | none => rw [show p.setTask b.new.ptr { b.new.raw with state := .created } = p₁ from rfl, hp] at h
            cases h
  | some p₂ =>
    rw [show p.setTask b.new.ptr { b.new.raw with state := .created } = p₁ from rfl, hp] at h
    cases h
    have hb := pushBackNode_sameButLinks hp
    obtain ⟨x, hx⟩ := hb b.new.ptr
    have hraw : p₂.task b.new.ptr = { b.new.raw with stateNode := x, state := .created } := by
      rw [hx]; simp [p₁, Processes.setTask]
    refine ⟨?_, ?_, fun u hu => ?_⟩
    · simp only [Processes.setTask, if_true, hraw]
      exact Builder.chain_context _ _ _ _ _ _
    · simp only [Processes.setTask, if_true]
      rw [(Builder.chain_fields b.ctor b.calls b.chars _).2, hraw]
    · simp only [Processes.setTask, if_neg hu]
      rw [hb.cpuContext, hb.state, hb.nodeInScheduler]
      simp [p₁, Processes.setTask, hu]

/-- A state change to an intact queue appends to it, even where the pop damages the old queue. -/
theorem Queued.changeState_linked {created : List TaskPtr} {qs : StateFlag → List TaskPtr}
    {t : TaskPtr} {sf : StateFlag} (h : Queued ⟨p, created⟩ qs) (ht : t ∈ created)
    (hsf : (p.task t).state ≠ sf) (he : p.changeState t sf = some p') :
    Linked taskNode p'.task (p'.queue sf) (qs sf ++ [t]) := by
  unfold Processes.changeState at he
  cases hp : p.popNode (p.task t).state t with
  | none => rw [hp] at he; cases he
  | some p₁ =>
    rw [hp] at he
    unfold Processes.popNode at hp
    cases hl : ListBase.popNode taskNode p.task (p.queue (p.task t).state) t with
    | none => rw [hl] at hp; cases hp
    | some r =>
      rw [hl] at hp
      cases hp
      have hmem : t ∈ qs (p.task t).state := (h.mem _ t).mpr ⟨ht, rfl⟩
      have hnot : t ∉ qs sf := fun hm => hsf ((h.mem sf t).mp hm).2
      obtain ⟨_, hw⟩ := popNode_threaded (h.spelled.linked _).toThreaded hmem hl
      -- the pop writes in the old queue only, so the new one is still linked
      let p₂ := (p.setQueue (p.task t).state r).setTask t
        { (p.setQueue (p.task t).state r).task t with state := sf }
      have hq : p₂.queue sf = p.queue sf := if_neg (Ne.symm hsf)
      have hlinks : ∀ u, (p₂.task u).stateNode = (r.1 u).stateNode := by
        intro u
        by_cases hu : u = t
        · simp [p₂, Processes.setTask, Processes.setQueue, hu]
        · simp [p₂, Processes.setTask, Processes.setQueue, hu]
      have hout : ∀ u ∈ qs sf, ¬ u ∈ qs (p.task t).state := fun u hu hc =>
        hsf (h.spelled.apart _ _ u hc hu)
      have hl₂ : Linked taskNode p₂.task (p₂.queue sf) (qs sf) := by
        rw [hq]
        refine (h.spelled.linked sf).congr (fun u hu => ?_) (fun u hu => ?_)
        · rw [← (hw.links_eq (hout u hu)).1]
          show (p₂.task u).stateNode.listNext = _
          rw [hlinks]; rfl
        · rw [← (hw.links_eq (hout u hu)).2]
          show (p₂.task u).stateNode.listPrev = _
          rw [hlinks]; rfl
      have hst : (p₂.task t).state = sf := by simp [p₂, Processes.setTask]
      have he₂ : p₂.pushBackNode sf t = some p' := by rw [← hst]; exact he
      obtain ⟨task, l, hpush, _, hl', _⟩ := pushBackNode_threaded hl₂.toThreaded hnot trivial
      rw [Processes.pushBackNode, hpush] at he₂
      cases he₂
      simpa [Processes.setQueue] using hl' hl₂

/-- After `init_scheduler` the ready queue holds the ready tasks and the idle task. -/
theorem initScheduler_ready {created : List TaskPtr} {qs : StateFlag → List TaskPtr}
    (h : Queued ⟨p, created⟩ qs) (hm : m.Fresh created) (he : initScheduler p img m = some p') :
    ∃ rs, Linked taskNode p'.task (p'.queue .ready) rs ∧
      (∀ t, t ∈ rs ↔ t = m.idle.ptr ∨ t ∈ created ∧ (p.task t).state = .ready) ∧
      (∀ t ∈ rs, (p'.task t).state = .ready) ∧
      (p'.task m.idle.ptr).cpuContext = (idleCall img m).context ∧
      ∀ t ∈ created, (p'.task t).cpuContext = (p.task t).cpuContext := by
  unfold initScheduler at he
  obtain ⟨p₁, hb, qs₁, hq₁⟩ := h.buildTask (b := idleCall img m) hm.idle
  rw [hb] at he
  have hf := buildTask_fields hb
  have hc := changeState_fields he
  have hptr : (idleCall img m).new.ptr = m.idle.ptr := rfl
  rw [hptr] at hq₁ hf
  have hst : (p₁.task m.idle.ptr).state ≠ .ready := by rw [hf.2.1]; decide
  have hmem : ∀ t, t ∈ qs₁ .ready ↔ t ∈ created ∧ (p.task t).state = .ready := by
    intro t
    rw [hq₁.mem]
    by_cases ht : t = m.idle.ptr
    · rw [ht]
      simp [hst, hm.idle]
    · simp [ht, (hf.2.2 t ht).2.1]
  refine ⟨qs₁ .ready ++ [m.idle.ptr], hq₁.changeState_linked (List.mem_cons_self ..) hst he,
    fun t => ?_, fun t ht => ?_, ?_, fun t ht => ?_⟩
  · rw [List.mem_append, hmem, List.mem_singleton]
    exact or_comm
  · rw [(hc t).2.2]
    by_cases hti : t = m.idle.ptr
    · rw [if_pos hti]
    · rw [if_neg hti, (hf.2.2 t hti).2.1]
      rw [List.mem_append, hmem, List.mem_singleton] at ht
      cases ht with
      | inl ht => exact ht.2
      | inr ht => exact absurd ht hti
  · rw [(hc _).2.1, hf.1]
  · have hti : t ≠ m.idle.ptr := by intro hti; rw [hti] at ht; exact hm.idle ht
    rw [(hc t).2.1, (hf.2.2 t hti).1]

theorem SameButNode.trans {p₂ : Processes} (h : SameButNode p p') (h₂ : SameButNode p' p₂) :
    SameButNode p p₂ := by
  refine ⟨h₂.1.trans h.1, fun u => ?_⟩
  obtain ⟨x, hx⟩ := h.2 u
  obtain ⟨y, hy⟩ := h₂.2 u
  exact ⟨y, by rw [hy, hx]⟩

theorem SameButNode.fields (h : SameButNode p p') (u : TaskPtr) :
    (p'.task u).stateNode = (p.task u).stateNode ∧ (p'.task u).state = (p.task u).state ∧
      (p'.task u).cpuContext = (p.task u).cpuContext := by
  obtain ⟨x, hx⟩ := h.2 u
  rw [hx]
  exact ⟨rfl, rfl, rfl⟩

/-- The enqueued tasks after one more. -/
theorem Listed.enqueued_cons {n : NodePtr} {t u : TaskPtr} (h : Listed s ns)
    (h' : Listed s' (n :: ns)) (hn : s'.dataOf n = t) (hd : ∀ a ∈ ns, s'.dataOf a = s.dataOf a) :
    s'.sched.Enqueued u ↔ u = t ∨ s.sched.Enqueued u := by
  rw [h'.enqueued_iff, h.enqueued_iff]
  constructor
  · intro hu
    obtain ⟨a, ha, hau⟩ := hu
    cases ha with
    | head => exact .inl (by rw [← hau, hn])
    | tail _ ha => exact .inr ⟨a, ha, by rw [← hd a ha]; exact hau⟩
  · intro hu
    cases hu with
    | inl hu => exact ⟨n, List.mem_cons_self .., by rw [hn, hu]⟩
    | inr hu =>
      obtain ⟨a, ha, hau⟩ := hu
      exact ⟨a, List.mem_cons_of_mem _ ha, by rw [hd a ha]; exact hau⟩

/-- The loop of `change_scheduler` enqueues the tasks of the walk. By induction on the walk; an
`enqueue` writes no link of a task. -/
theorem Listed.enqueueAll {ts : List TaskPtr} {supply : List NodePtr} :
    ∀ {s s' : Machine} {ns : List NodePtr} {pos : Option TaskPtr}, Listed s ns →
      Walks (taskNode.getNext s.procs.task) pos ts → ts.Nodup →
      (∀ t ∈ ts, ¬ s.sched.Enqueued t) → supply.Nodup → (∀ n ∈ supply, n ∉ s.sched.live) →
      enqueueAll s pos supply = some s' →
      ∃ ns', Listed s' ns' ∧ (∀ u, s'.sched.Enqueued u ↔ u ∈ ts ∨ s.sched.Enqueued u) ∧
        (∀ n ∈ s'.sched.live, n ∈ supply ∨ n ∈ s.sched.live) ∧ SameButNode s.procs s'.procs := by
  induction supply generalizing ts with
  | nil =>
    intro s s' ns pos h hw _ _ _ _ he
    cases pos with
    | none =>
      cases he
      have hts : ts = [] := by
        cases ts with
        | nil => rfl
        | cons t ts => cases hw.1
      exact ⟨ns, h, fun u => by simp [hts], fun n hn => .inr hn, rfl, fun u => ⟨_, rfl⟩⟩
    | some t => cases he
  | cons n supply ih =>
    intro s s' ns pos h hw hnd hts hns hlive he
    cases ts with
    | nil =>
      cases hw
      cases he
      exact ⟨ns, h, fun u => by simp, fun n hn => .inr hn, rfl, fun u => ⟨_, rfl⟩⟩
    | cons t ts =>
      obtain ⟨rfl, hw⟩ := hw
      obtain ⟨s₁, he₁, hs₁, hdn, hda, _, hb₁⟩ :=
        h.enqueue (hts t (List.mem_cons_self ..)) (hlive n (List.mem_cons_self ..))
      simp only [Ps.enqueueAll, he₁] at he
      have henq : ∀ u, s₁.sched.Enqueued u ↔ u = t ∨ s.sched.Enqueued u :=
        fun u => h.enqueued_cons hs₁ hdn hda
      have hlive₁ : ∀ a, a ∈ s₁.sched.live ↔ a = n ∨ a ∈ s.sched.live := by
        intro a
        rw [hs₁.live, List.mem_cons, h.live]
      have hnext : taskNode.getNext s₁.procs.task = taskNode.getNext s.procs.task := by
        funext u
        show (s₁.procs.task u).stateNode.listNext = (s.procs.task u).stateNode.listNext
        rw [(hb₁.fields u).1]
      obtain ⟨hnt, hnd⟩ := List.nodup_cons.mp hnd
      obtain ⟨hnn, hns⟩ := List.nodup_cons.mp hns
      obtain ⟨ns', hs', henq', hlive', hb'⟩ := ih hs₁ (by rw [hnext]; exact hw) hnd
        (fun u hu hc => by
          cases (henq u).mp hc with
          | inl hut => rw [hut] at hu; exact hnt hu
          | inr hc => exact hts u (List.mem_cons_of_mem _ hu) hc)
        hns
        (fun a ha hc => by
          cases (hlive₁ a).mp hc with
          | inl han => rw [han] at ha; exact hnn ha
          | inr hc => exact hlive a (List.mem_cons_of_mem _ ha) hc)
        (by rw [hnext] at he; exact he)
      refine ⟨ns', hs', fun u => ?_, fun a ha => ?_, hb₁.trans hb'⟩
      · rw [henq', henq, List.mem_cons, or_left_comm, or_assoc]
      · cases hlive' a ha with
        | inl ha => exact .inl (List.mem_cons_of_mem _ ha)
        | inr ha =>
          cases (hlive₁ a).mp ha with
          | inl han => exact .inl (by rw [han]; exact List.mem_cons_self ..)
          | inr ha => exact .inr ha

/-- `change_scheduler` enqueues exactly the tasks of the ready queue. -/
theorem changeScheduler_listed {rs : List TaskPtr} {timer : SchedPitTimerHandler}
    {live : CpuContext} (hl : Linked taskNode p.task (p.queue .ready) rs) (hm : m.nodes.Nodup)
    (he : changeScheduler p timer live m = some s) :
    ∃ ns, Listed s ns ∧ (∀ u, s.sched.Enqueued u ↔ u ∈ rs) ∧
      (∀ n ∈ s.sched.live, n ∈ m.nodes) ∧ SameButNode p s.procs := by
  let s₁ : Machine := ⟨p, ⟨m.heap, ListBase.new, none, []⟩, timer, live⟩
  have hs₁ : Listed s₁ [] :=
    { linked := new_linked schedNode _, live := fun _ => Iff.rfl, node := by simp }
  have hnone : ∀ u, ¬ s₁.sched.Enqueued u := by
    intro u hu
    obtain ⟨n, hn, _⟩ := hu
    cases hn
  obtain ⟨ns, hs, henq, hlive, hb⟩ := hs₁.enqueueAll hl.represents.forward hl.nodup
    (fun t _ => hnone t) hm (fun n _ hc => by cases hc) he
  refine ⟨ns, hs, fun u => (henq u).trans (or_iff_left (hnone u)), fun n hn => ?_, hb⟩
  exact (hlive n hn).resolve_right fun hc => by cases hc

/-- The main task comes to the front and is current and running, with the context it was built
with; the tasks enqueued before keep state and context. -/
theorem Listed.startMain {rs : List TaskPtr} (h : Listed s ns)
    (henq : ∀ u, s.sched.Enqueued u ↔ u ∈ rs) (hmain : m.main.ptr ∉ rs)
    (hnode : m.mainNode ∉ s.sched.live) (he : startMain s img m = some s') :
    (∃ c, Scheduled s' c ∧ s'.dataOf c.current = m.main.ptr) ∧
      (∀ u, s'.sched.Enqueued u ↔ u = m.main.ptr ∨ u ∈ rs) ∧
      (s'.procs.task m.main.ptr).state = .running ∧ s'.regs = (mainCall img m).context ∧
      ∀ u ∈ rs, (s'.procs.task u).state = (s.procs.task u).state ∧
        (s'.procs.task u).cpuContext = (s.procs.task u).cpuContext := by
  unfold Ps.startMain at he
  cases h₃ : s.procs.buildTask (mainCall img m) with
  | none => rw [h₃] at he; cases he
  | some p₃ =>
    simp only [h₃] at he
    obtain ⟨hc₃, _, hf₃⟩ := buildTask_fields h₃
    have hptr : (mainCall img m).new.ptr = m.main.ptr := rfl
    rw [hptr] at hc₃ hf₃
    have hne : ∀ u ∈ rs, u ≠ m.main.ptr := fun u hu hc => hmain (by rw [← hc]; exact hu)
    let s₃ : Machine := { s with procs := p₃ }
    have hs₃ : Listed s₃ ns := h.congr rfl fun u hu => (hf₃ u (hne u ((henq u).mp hu))).2.2
    obtain ⟨s₄, h₄, hs₄, hdn, hda, _, hb₄⟩ :=
      hs₃.enqueue (t := m.main.ptr) (fun hc => hmain ((henq _).mp hc)) hnode
    have henq₄ : ∀ u, s₄.sched.Enqueued u ↔ u = m.main.ptr ∨ u ∈ rs := by
      intro u
      rw [hs₃.enqueued_cons hs₄ hdn hda]
      exact or_congr_right (henq u)
    simp only [show ({ s with procs := p₃ } : Machine).enqueue m.main.ptr m.mainNode = some s₄
      from h₄] at he
    obtain ⟨c, hs₅, _, hcur⟩ := hs₄.setCurrent ((henq₄ m.main.ptr).mpr (.inl rfl))
    cases h₆ : (s₄.setCurrent m.main.ptr).procs.changeState m.main.ptr .running with
    | none => rw [h₆] at he; cases he
    | some p₆ =>
      simp only [h₆, Processes.contextSwitchTo, Processes.switchContext, Option.some.injEq] at he
      have hf₆ := changeState_fields h₆
      subst he
      refine ⟨⟨c, hs₅.congr rfl fun u => (hf₆ u).1, hcur⟩, henq₄, ?_, ?_, fun u hu => ?_⟩
      · show (p₆.task m.main.ptr).state = _
        rw [(hf₆ _).2.2, if_pos rfl]
      · show (p₆.task m.main.ptr).cpuContext = _
        rw [(hf₆ _).2.1]
        show (s₄.procs.task m.main.ptr).cpuContext = _
        rw [(hb₄.fields _).2.2]
        exact hc₃
      · obtain ⟨_, hst₄, hctx₄⟩ := hb₄.fields u
        obtain ⟨hctx₃, hst₃, _⟩ := hf₃ u (hne u hu)
        show (p₆.task u).state = _ ∧ (p₆.task u).cpuContext = _
        rw [(hf₆ u).2.2, (hf₆ u).2.1, if_neg (hne u hu)]
        show (s₄.procs.task u).state = _ ∧ (s₄.procs.task u).cpuContext = _
        rw [hst₄, hctx₄]
        exact ⟨hst₃, hctx₃⟩

end Start

/-! ## Context integrity -/

/-- The current task is running; each other enqueued task is not, and holds the context it stopped
with. -/
structure Integrity (r : ContextRun) (c : Cursor NodePtr) : Prop where
  scheduled : Scheduled r.m c
  running : (r.m.procs.task (r.m.dataOf c.current)).state = .running
  others : ∀ n ∈ c.toList, n ≠ c.current → (r.m.procs.task (r.m.dataOf n)).state ≠ .running ∧
    (r.m.procs.task (r.m.dataOf n)).cpuContext = r.stopped (r.m.dataOf n)

/-- The registers are those the current task stopped with, or was built with. -/
def Restored (r : ContextRun) : Prop :=
  ∃ t, r.m.sched.current = some t ∧ r.m.regs = r.stopped t

section Run

variable {r r' : ContextRun} {c : Cursor NodePtr}

/-- A tick or a yield that goes through restores the context of the next task and keeps those of
the others. -/
theorem Integrity.stepped {s' : Machine} (h : Integrity r c) (hs : Stepped r.m s' c) :
    Integrity ⟨s', r.stop⟩ c.next ∧ Restored ⟨s', r.stop⟩ := by
  have hd : s'.dataOf = r.m.dataOf := by funext a; rw [Machine.dataOf, hs.node]; rfl
  have hcur := h.scheduled.current
  have hstop : ∀ t, r.stop t = if t = r.m.dataOf c.current then r.m.regs else r.stopped t := by
    intro t
    by_cases ht : t = r.m.dataOf c.current
    · simp [ContextRun.stop, hcur, ht]
    · simp [ContextRun.stop, hcur, ht, Ne.symm ht]
  have hctx : ∀ n ∈ c.toList,
      (s'.procs.task (r.m.dataOf n)).cpuContext = r.stop (r.m.dataOf n) := by
    intro n hn
    rw [hs.switched.stored, hstop]
    by_cases hnc : r.m.dataOf n = r.m.dataOf c.current
    · rw [if_pos hnc, if_pos hnc]
    · rw [if_neg hnc, if_neg hnc]
      exact (h.others n hn fun he => hnc (by rw [he])).2
  have hnext : c.next.current ∈ c.toList := by
    rw [← Cursor.toList_next]; exact c.next.current_mem
  refine ⟨⟨hs.scheduled, ?_, fun n hn hne => ?_⟩, r.m.dataOf c.next.current, ?_, ?_⟩
  · show (s'.procs.task (s'.dataOf c.next.current)).state = _
    rw [hd, hs.switched.state, if_pos rfl]
  · rw [Cursor.toList_next] at hn
    show (s'.procs.task (s'.dataOf n)).state ≠ _ ∧ _ = r.stop (s'.dataOf n)
    rw [hd]
    have hdn : r.m.dataOf n ≠ r.m.dataOf c.next.current :=
      fun he => hne (h.scheduled.data_inj hn hnext he)
    refine ⟨?_, hctx n hn⟩
    rw [hs.switched.state, if_neg hdn]
    by_cases hnc : r.m.dataOf n = r.m.dataOf c.current
    · rw [if_pos hnc]; decide
    · rw [if_neg hnc]
      exact (h.others n hn fun he => hnc (by rw [he])).1
  · show s'.sched.current = _
    rw [hs.scheduled.current, hd]
  · show s'.regs = r.stop _
    rw [hs.switched.loaded, hctx _ hnext]

theorem Integrity.exec {op : ContextOp} (h : Integrity r c) (he : op.exec r = some r') :
    (∃ c', Integrity r' c') ∧ (op = .tick ∨ op = .yield → Restored r') := by
  cases op with
  | tick =>
    cases h.scheduled.tick with
    | inl hf => rw [ContextOp.exec, hf] at he; cases he
    | inr hs =>
      obtain ⟨s', hs', hst⟩ := hs
      rw [ContextOp.exec, hs'] at he
      cases he
      exact ⟨⟨_, (h.stepped hst).1⟩, fun _ => (h.stepped hst).2⟩
  | yield =>
    cases h.scheduled.yield with
    | inl hf => rw [ContextOp.exec, hf] at he; cases he
    | inr hs =>
      obtain ⟨s', hs', hst⟩ := hs
      rw [ContextOp.exec, hs'] at he
      cases he
      exact ⟨⟨_, (h.stepped hst).1⟩, fun _ => (h.stepped hst).2⟩
  | work regs =>
    cases he
    refine ⟨⟨c, h.scheduled.congr rfl fun _ => rfl, h.running, h.others⟩, fun hop => ?_⟩
    cases hop with
    | inl hop => cases hop
    | inr hop => cases hop

/-- What `start_scheduling` leaves. -/
theorem StartsFrom.integrity {p : Processes} {created : List TaskPtr} {built : TaskPtr → BuilderCall}
    {img : Image} {m : Storage} (h : StartsFrom r p created built img m) :
    (∃ c, Integrity r c) ∧ Restored r := by
  obtain ⟨⟨qs, hq⟩, hm, hbuilt, ⟨timer, live, hstart⟩, hstop⟩ := h
  unfold startScheduling at hstart
  cases h₁ : initScheduler p img m with
  | none => rw [h₁] at hstart; cases hstart
  | some p₁ =>
    simp only [h₁] at hstart
    obtain ⟨rs, hl, hrs, hready, hidle, hctx⟩ := initScheduler_ready hq hm h₁
    cases h₂ : changeScheduler p₁ (timer.setExpired 5) live m with
    | none => rw [h₂] at hstart; cases hstart
    | some s₂ =>
      simp only [h₂] at hstart
      obtain ⟨hmn, hnodes⟩ := List.nodup_cons.mp hm.nodes
      obtain ⟨ns, hs₂, henq₂, hlive, hb₂⟩ := changeScheduler_listed hl hnodes h₂
      have hmain : m.main.ptr ∉ rs := by
        intro hc
        cases (hrs _).mp hc with
        | inl hc => exact hm.tasks hc
        | inr hc => exact hm.main hc.1
      obtain ⟨⟨c, hs, hcur⟩, henq, hrun, hregs, hold⟩ :=
        hs₂.startMain henq₂ hmain (fun hc => hmn (hlive _ hc)) hstart
      refine ⟨⟨c, hs, by rw [hcur]; exact hrun, fun n hn hnc => ?_⟩, m.main.ptr, ?_, ?_⟩
      · have hdn : r.m.dataOf n ≠ m.main.ptr := by
          rw [← hcur]
          exact fun he => hnc (hs.data_inj hn c.current_mem he)
        have hrm : r.m.dataOf n ∈ rs :=
          ((henq _).mp (hs.enqueued_iff.mpr ⟨n, hn, rfl⟩)).resolve_left hdn
        obtain ⟨hst, hcx⟩ := hold _ hrm
        obtain ⟨_, hst₂, hcx₂⟩ := hb₂.fields (r.m.dataOf n)
        rw [hst, hst₂, hready _ hrm, hcx, hcx₂, hstop]
        refine ⟨by decide, ?_⟩
        simp only [if_neg hdn]
        by_cases hi : r.m.dataOf n = m.idle.ptr
        · rw [if_pos hi, hi, hidle]
        · rw [if_neg hi]
          obtain ⟨hcr, hst'⟩ := ((hrs _).mp hrm).resolve_left hi
          rw [hctx _ hcr, hbuilt _ hcr hst']
      · rw [hs.current, hcur]
      · rw [hregs, hstop]
        simp only [if_true]

/-- Context integrity: in every state of every run after `start_scheduling` the current task is
running and no other enqueued task is; what the first task and every task that a tick or a yield
makes current finds in the registers is what it stopped with, or was built with; and a tick or a
yield never fails in the scheduler's own list. -/
theorem context_integrity (h : Reach contextSystem (fun _ _ => True) r) :
    (∃ t, r.m.sched.current = some t ∧ (r.m.procs.task t).state = .running ∧
      ∀ u, r.m.sched.Enqueued u → u ≠ t → (r.m.procs.task u).state ≠ .running) ∧
    (contextSystem.init r → Restored r) ∧
    (∀ (op : ContextOp) r', op = .tick ∨ op = .yield → op.exec r = some r' → Restored r') ∧
    r.m.tick ≠ .error .taskList ∧ r.m.yield ≠ .error .taskList := by
  have hc : ∃ c, Integrity r c := by
    refine Reach.invariant (P := fun r => ∃ c, Integrity r c) (fun r hr => ?_) ?_ h
    · obtain ⟨p, created, built, img, m, hr⟩ := hr
      exact hr.integrity.1
    · intro r r' op hr _ _ he
      obtain ⟨c, hc⟩ := hr
      exact (hc.exec he).1
  obtain ⟨c, hc⟩ := hc
  refine ⟨⟨_, hc.scheduled.current, hc.running, fun u hu hne => ?_⟩, fun hr => ?_,
    fun op r' hop he => (hc.exec he).2 hop, fun he => ?_, fun he => ?_⟩
  · obtain ⟨n, hn, hd⟩ := hc.scheduled.enqueued_iff.mp hu
    rw [← hd]
    exact (hc.others n hn fun hnc => hne (by rw [← hd, hnc])).1
  · obtain ⟨p, created, built, img, m, hr⟩ := hr
    exact hr.integrity.2
  · cases hc.scheduled.tick with
    | inl hf => rw [hf] at he; cases he
    | inr hs =>
      obtain ⟨s', hs, _⟩ := hs
      rw [hs] at he; cases he
  · cases hc.scheduled.yield with
    | inl hf => rw [hf] at he; cases he
    | inr hs =>
      obtain ⟨s', hs, _⟩ := hs
      rw [hs] at he; cases he

end Run

/-- A machine with no task yet, and room for two. -/
def smallStorage : Storage := ⟨⟨1, rawTask⟩, 0x5000, ⟨2, rawTask⟩, fun _ => ⟨⟨none, none⟩, 0⟩, [10], 20⟩

def smallImage : Image := ⟨0x1000, 0x2000, 0x3000⟩

/-- The contexts of the idle and the main task before they run. -/
def smallStopped : TaskPtr → CpuContext := fun t =>
  if t = smallStorage.main.ptr then (mainCall smallImage smallStorage).context
  else if t = smallStorage.idle.ptr then (idleCall smallImage smallStorage).context
  else (builderCall t).context

def working (v : BitVec 64) : CpuContext := { rawTask.cpuContext with rax := v }

/-- The main task is interrupted at work, and goes on when the idle task yields. -/
theorem context_integrity_turns : ∃ r r', Reach contextSystem (fun _ _ => True) r ∧
    r.m.regs = working 8 ∧ ContextOp.yield.exec r = some r' ∧ r'.m.regs = working 7 ∧ Restored r' := by
  have he : (startScheduling noProcesses.procs ⟨0, 0⟩ rawTask.cpuContext smallImage smallStorage).bind
      (fun m => (replay contextSystem ⟨m, smallStopped⟩
        [.work (working 7), .tick, .work (working 8)]).map fun r =>
          (r.m.regs, (ContextOp.yield.exec r).map fun r => r.m.regs)) =
        some (working 8, some (working 7)) := by
    decide +kernel
  obtain ⟨m, hs, he⟩ := Option.bind_eq_some_iff.mp he
  obtain ⟨r, hr, he⟩ := Option.map_eq_some_iff.mp he
  obtain ⟨hregs, he⟩ := Prod.mk.inj he
  obtain ⟨r', hy, hregs'⟩ := Option.map_eq_some_iff.mp he
  have hinit : contextSystem.init ⟨m, smallStopped⟩ :=
    ⟨noProcesses.procs, [], builderCall, smallImage, smallStorage,
      ⟨_, queued_init noProcesses_init⟩, ⟨by simp, by simp, by decide, by decide⟩,
      fun t ht => (by cases ht), ⟨_, _, hs⟩, rfl⟩
  have hreach := Reach.replay (.init hinit) hr
  exact ⟨r, r', hreach, hregs, hy, hregs',
    (context_integrity hreach).2.2.1 .yield r' (.inr rfl) hy⟩

end Ps
end TorexOS
