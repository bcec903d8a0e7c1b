import TorexOS.Lib.Cursor
import TorexOS.ProcessQueues

/-!
# TorexOS.SimpleScheduler

`ps::RoundRobinScheduler`, `process/simple_scheduler.cpp`.

* `RoundRobinScheduler`: the list of nodes and the iterator `cur`. `live` are the nodes that `new`
  returned and `delete` has not taken back.
* `Machine`: the scheduler with the tasks, the timer and the registers of the CPU.
* `next`, `tick`, `yield`, `enqueue`, `dequeue`, `setCurrent`, as the source computes them.
* `Scheduled s c`: the machine carries out the cursor `c`. One lemma for each method says which move
  of the cursor it is.
-/

namespace TorexOS
namespace Ps

open Util Util.ListBase

/-- `SchedPitTimerHandler` -/
structure SchedPitTimerHandler where
  count : BitVec 64
  expired : BitVec 64

def SchedPitTimerHandler.setExpired (h : SchedPitTimerHandler) (c : BitVec 64) :
    SchedPitTimerHandler := { h with expired := h.count + c }

/-- `list_default_node<Task *>` -/
structure SchedNode where
  links : ListNode NodePtr
  data : TaskPtr

def schedNode : NodeTrait (NodePtr → SchedNode) NodePtr :=
  nodeFieldTrait SchedNode.links (fun n x => { n with links := x }) fun _ _ => rfl

structure RoundRobinScheduler where
  node : NodePtr → SchedNode
  taskList : ListBase NodePtr
  cur : Option NodePtr
  live : List NodePtr

namespace RoundRobinScheduler

/-- `next()`: the iterator before the step; `none` when `cur` is null. -/
def next (s : RoundRobinScheduler) : Option (NodePtr × RoundRobinScheduler) :=
  match s.cur with
  | none => none
  | some ret =>
    let cur := (s.node ret).links.listNext
    let cur := if cur = none then s.taskList.head else cur
    some (ret, { s with cur := cur })

/-- `current()` -/
def current (s : RoundRobinScheduler) : Option TaskPtr := s.cur.map fun n => (s.node n).data

/-- The task has a node that was not deleted. -/
def Enqueued (s : RoundRobinScheduler) (t : TaskPtr) : Prop := ∃ n ∈ s.live, (s.node n).data = t

instance (s : RoundRobinScheduler) (t : TaskPtr) : Decidable (s.Enqueued t) :=
  inferInstanceAs (Decidable (∃ n ∈ s.live, (s.node n).data = t))

end RoundRobinScheduler

/-- Which null pointer a call dereferences: a link of a state queue, or the scheduler's own. -/
inductive SchedFault where
  | stateQueue
  | taskList
  deriving DecidableEq

structure Machine where
  procs : Processes
  sched : RoundRobinScheduler
  timer : SchedPitTimerHandler
  regs : CpuContext

namespace Machine

/-- The task of an iterator, `*it`. -/
def dataOf (s : Machine) (n : NodePtr) : TaskPtr := (s.sched.node n).data

/-- `getTaskNode` -/
def getTaskNode (s : Machine) (t : TaskPtr) : Option NodePtr := (s.procs.task t).nodeInScheduler

/-- `setTaskNode` -/
def setTaskNode (s : Machine) (t : TaskPtr) (n : NodePtr) : Machine :=
  { s with procs := s.procs.setTask t { s.procs.task t with nodeInScheduler := some n } }

/-- `next()` and the switch from the task before to the task after it. -/
def switchNext (s : Machine)
    (switch : Processes → CpuContext → TaskPtr → TaskPtr → Option (Processes × CpuContext)) :
    Except SchedFault Machine :=
  match s.sched.next with
  | none => .error .taskList
  | some (prev, sched) =>
    match sched.cur with
    | none => .error .taskList
    | some cur =>
      match switch s.procs s.regs (sched.node prev).data (sched.node cur).data with
      | none => .error .stateQueue
      | some (procs, regs) => .ok { s with procs := procs, sched := sched, regs := regs }

/-- `tick()`, in the timer interrupt: the interrupted context is on the interrupt frame, and what the
switch leaves there is live after the interrupt. -/
def tick (s : Machine) : Except SchedFault Machine :=
  match s.switchNext Processes.switchToInIrq with
  | .error e => .error e
  | .ok s => .ok { s with timer := s.timer.setExpired 5 }

/-- `yield()` -/
def yield (s : Machine) : Except SchedFault Machine :=
  { s with timer := s.timer.setExpired 5 }.switchNext Processes.switchTo

/-- `enqueue(t)`; `n` is the node that `new` returns. -/
def enqueue (s : Machine) (t : TaskPtr) (n : NodePtr) : Option Machine :=
  let node := fun a => if a = n then { s.sched.node n with data := t } else s.sched.node a
  let s := s.setTaskNode t n
  match pushFrontNode schedNode node s.sched.taskList n with
  | none => none
  | some (node, l) =>
    some { s with sched := { s.sched with node := node, taskList := l, live := n :: s.sched.live } }

/-- `dequeue(t)`. A null node is popped only from an empty list. -/
def dequeue (s : Machine) (t : TaskPtr) : Option Machine :=
  match s.getTaskNode t with
  | none => if s.sched.taskList.empty then some s else none
  | some n =>
    match popNode schedNode s.sched.node s.sched.taskList n with
    | none => none
    | some (node, l) =>
      some { s with sched := { s.sched with
        node := node, taskList := l, live := s.sched.live.filter (· ≠ n) } }

/-- `current(t)` -/
def setCurrent (s : Machine) (t : TaskPtr) : Machine :=
  { s with sched := { s.sched with cur := s.getTaskNode t } }

end Machine

/-- The list holds the live nodes, and each enqueued task knows its node. -/
structure Listed (s : Machine) (ns : List NodePtr) : Prop where
  linked : Linked schedNode s.sched.node s.sched.taskList ns
  live : ∀ n, n ∈ s.sched.live ↔ n ∈ ns
  node : ∀ n ∈ ns, s.getTaskNode (s.dataOf n) = some n

/-- The scheduler carries out the cursor `c` over its nodes. -/
structure Scheduled (s : Machine) (c : Cursor NodePtr) : Prop extends Listed s c.toList where
  cur : s.sched.cur = some c.current

section Scheduled

variable {s s' : Machine} {c c' : Cursor NodePtr} {ns : List NodePtr} {t : TaskPtr} {n : NodePtr}

theorem Listed.data_inj {a b : NodePtr} (h : Listed s ns) (ha : a ∈ ns) (hb : b ∈ ns)
    (hab : s.dataOf a = s.dataOf b) : a = b := by
  have hna := h.node a ha
  rw [hab, h.node b hb] at hna
  exact (Option.some.inj hna).symm

theorem Listed.enqueued_iff (h : Listed s ns) :
    s.sched.Enqueued t ↔ ∃ n ∈ ns, s.dataOf n = t := by
  constructor
  · intro ht
    obtain ⟨n, hn, hd⟩ := ht
    exact ⟨n, (h.live n).mp hn, hd⟩
  · intro ht
    obtain ⟨n, hn, hd⟩ := ht
    exact ⟨n, (h.live n).mpr hn, hd⟩

theorem Scheduled.current (h : Scheduled s c) : s.sched.current = some (s.dataOf c.current) := by
  rw [RoundRobinScheduler.current, h.cur]; rfl

/-- What the scheduler reads is unchanged: its list, and the nodes of the tasks in it. -/
theorem Listed.congr (h : Listed s ns) (hs : s'.sched = s.sched)
    (ht : ∀ u, s.sched.Enqueued u → s'.getTaskNode u = s.getTaskNode u) : Listed s' ns where
  linked := by rw [hs]; exact h.linked
  live := by rw [hs]; exact h.live
  node n hn := by
    rw [Machine.dataOf, hs]
    exact (ht _ ⟨n, (h.live n).mpr hn, rfl⟩).trans (h.node n hn)

theorem Scheduled.congr (h : Scheduled s c) (hs : s'.sched = s.sched)
    (ht : ∀ u, s'.getTaskNode u = s.getTaskNode u) : Scheduled s' c where
  toListed := h.toListed.congr hs fun u _ => ht u
  cur := by rw [hs]; exact h.cur

/-- In a linked list, the next link inside and at the end. -/
theorem Linked.next_of_split {xs ys : List NodePtr} {m : NodePtr → SchedNode} {l : ListBase NodePtr}
    (h : Linked schedNode m l (xs ++ n :: ys)) : (m n).links.listNext = ys.head? := by
  cases ys with
  | nil => exact h.last n (by simp)
  | cons b ys => exact (List.isChain_append_cons_cons.mp h.forward).2.1

/-- `next()` is the step of the cursor. -/
theorem Scheduled.next (h : Scheduled s c) :
    s.sched.next = some (c.current, { s.sched with cur := some c.next.current }) := by
  have hl : (s.sched.node c.current).links.listNext = c.right.head? := Linked.next_of_split h.linked
  have hhead : s.sched.taskList.head = c.toList.head? := h.linked.head
  simp only [RoundRobinScheduler.next, h.cur, hl]
  obtain ⟨left, current, right⟩ := c
  cases right with
  | cons r rs => simp [Cursor.next]
  | nil =>
    cases left with
    | nil => simp [Cursor.next, hhead, Cursor.toList]
    | cons l ls => simp [Cursor.next, hhead, Cursor.toList]

theorem Listed.move_cur (h : Listed s ns) (hc : c'.toList = ns) :
    Scheduled { s with sched := { s.sched with cur := some c'.current } } c' where
  linked := by rw [hc]; exact h.linked
  live := by rw [hc]; exact h.live
  node := by rw [hc]; exact h.node
  cur := rfl

/-- `current(t)` puts the cursor on the node of `t`. -/
theorem Listed.setCurrent (h : Listed s ns) (ht : s.sched.Enqueued t) :
    ∃ c', Scheduled (s.setCurrent t) c' ∧ c'.toList = ns ∧
      (s.setCurrent t).dataOf c'.current = t := by
  obtain ⟨n, hn, hd⟩ := h.enqueued_iff.mp ht
  obtain ⟨c', hc', hcur⟩ := Cursor.exists_split hn
  refine ⟨c', ?_, hc', by rw [hcur]; exact hd⟩
  have hnode : s.getTaskNode t = some c'.current := by rw [← hd, h.node n hn, hcur]
  rw [Machine.setCurrent, hnode]
  exact h.move_cur hc'

/-- The data of a node is not a link. -/
theorem data_of_writes {S : NodePtr → Prop} {m m' : NodePtr → SchedNode}
    (h : Writes schedNode S m m') (a : NodePtr) : (m' a).data = (m a).data := by
  have hw : Writes (nodeFieldTrait SchedNode.links (fun n x => { n with links := x })
      (fun _ _ => rfl)) S m m' := h
  refine Writes.field_eq ?_ hw a
  intro _ _; rfl

/-- The tasks differ in `node_in_scheduler` only. -/
def SameButNode (p p' : Processes) : Prop :=
  p'.queue = p.queue ∧ ∀ u, ∃ x, p'.task u = { p.task u with nodeInScheduler := x }

theorem setTaskNode_sameButNode (s : Machine) (t : TaskPtr) (n : NodePtr) :
    SameButNode s.procs (s.setTaskNode t n).procs := by
  refine ⟨rfl, fun u => ?_⟩
  by_cases hu : u = t
  · exact ⟨some n, by simp [Machine.setTaskNode, Processes.setTask, hu]⟩
  · exact ⟨(s.procs.task u).nodeInScheduler, by
      simp [Machine.setTaskNode, Processes.setTask, hu]⟩

/-- `enqueue(t)` puts a node for `t` in front and leaves `cur` alone. -/
theorem Listed.enqueue (h : Listed s ns) (ht : ¬ s.sched.Enqueued t) (hn : n ∉ s.sched.live) :
    ∃ s', s.enqueue t n = some s' ∧ Listed s' (n :: ns) ∧ s'.dataOf n = t ∧
      (∀ a ∈ ns, s'.dataOf a = s.dataOf a) ∧ s'.sched.cur = s.sched.cur ∧
      SameButNode s.procs s'.procs := by
  have hnc : n ∉ ns := fun hm => hn ((h.live n).mpr hm)
  let node : NodePtr → SchedNode := fun a =>
    if a = n then { s.sched.node n with data := t } else s.sched.node a
  have hnode : ∀ a ∈ ns, node a = s.sched.node a := by
    intro a ha
    exact if_neg fun han => hnc (by rw [← han]; exact ha)
  have hl : Linked schedNode node s.sched.taskList ns := by
    refine h.linked.congr (fun a ha => ?_) (fun a ha => ?_)
    · show (node a).links.listNext = _
      rw [hnode a ha]; rfl
    · show (node a).links.listPrev = _
      rw [hnode a ha]; rfl
  obtain ⟨m, l, he, _, hl', hw⟩ := pushFrontNode_threaded hl.toThreaded hnc trivial
  have hdn : (m n).data = t := by rw [data_of_writes hw]; simp [node]
  have hda : ∀ a ∈ ns, (m a).data = (s.sched.node a).data := by
    intro a ha
    rw [data_of_writes hw, hnode a ha]
  let s₁ := s.setTaskNode t n
  let s₂ : Machine := { s₁ with
    sched := { s.sched with node := m, taskList := l, live := n :: s.sched.live } }
  have hs₂ : s.enqueue t n = some s₂ := by
    show (match pushFrontNode schedNode node s.sched.taskList n with
      | none => none
      | some (node, l) => some { s₁ with
          sched := { s.sched with node := node, taskList := l, live := n :: s.sched.live } }) = _
    rw [he]
  refine ⟨s₂, hs₂, ⟨hl' hl, fun a => ?_, fun a ha => ?_⟩, hdn, hda, rfl,
    setTaskNode_sameButNode s t n⟩
  · simp [s₂, h.live]
  · cases ha with
    | head =>
      simp [s₂, s₁, Machine.setTaskNode, Machine.getTaskNode, Machine.dataOf, Processes.setTask, hdn]
    | tail _ ha =>
      have hne : (s.sched.node a).data ≠ t := fun hd => ht ⟨a, (h.live a).mpr ha, hd⟩
      simpa [s₂, s₁, Machine.setTaskNode, Machine.getTaskNode, Machine.dataOf, Processes.setTask,
        hda a ha, hne] using h.node a ha

/-- `enqueue(t)` is an arrival at the front. -/
theorem Scheduled.enqueue (h : Scheduled s c) (ht : ¬ s.sched.Enqueued t) (hn : n ∉ s.sched.live) :
    ∃ s', s.enqueue t n = some s' ∧ Scheduled s' (c.arrive n) ∧ s'.dataOf n = t ∧
      ∀ a ∈ c.toList, s'.dataOf a = s.dataOf a := by
  obtain ⟨s', he, hl, hdn, hda, hcur, _⟩ := h.toListed.enqueue ht hn
  refine ⟨s', he, ⟨hl, ?_⟩, hdn, hda⟩
  rw [hcur]; exact h.cur

/-- `dequeue(t)` of another task than the current, which is not the last of three or more, takes its
node out and leaves the cursor where it is. -/
theorem Scheduled.dequeue (h : Scheduled s c) (hn : n ∈ c.toList) (hnc : n ≠ c.current)
    (hd : s.dataOf n = t) (hk : ¬ CutsBack schedNode s.sched.node s.sched.taskList n) :
    ∃ s' c', s.dequeue t = some s' ∧ Scheduled s' c' ∧ c'.toList = c.toList.erase n := by
  have hx : c.toList.length ≤ 2 ∨ c.toList.getLast? ≠ some n := by
    have hc := mt h.linked.cutsBack_iff.mpr hk
    rw [not_and_or] at hc
    cases hc with
    | inl hc => exact .inl (by omega)
    | inr hc => exact .inr hc
  obtain ⟨m, l, he, hl⟩ := popNode_linked h.linked hn hx
  obtain ⟨_, hw⟩ := popNode_threaded h.linked.toThreaded hn he
  have hcur : c.current ∈ c.toList.erase n :=
    (List.mem_erase_of_ne (Ne.symm hnc)).mpr c.current_mem
  obtain ⟨c', hc', hcc⟩ := Cursor.exists_split hcur
  have hnode : s.getTaskNode t = some n := by rw [← hd]; exact h.node n hn
  let s₁ : Machine := { s with sched := { s.sched with
    node := m, taskList := l, live := s.sched.live.filter (· ≠ n) } }
  have hs₁ : s.dequeue t = some s₁ := by
    simp only [Machine.dequeue, hnode, he]
    rfl
  refine ⟨s₁, c', hs₁, ?_, hc'⟩
  have hmem : ∀ a, a ∈ c.toList.erase n ↔ a ≠ n ∧ a ∈ c.toList :=
    fun a => h.linked.nodup.mem_erase_iff
  refine ⟨⟨by rw [hc']; exact hl, fun a => ?_, fun a ha => ?_⟩, by rw [hcc]; exact h.cur⟩
  · rw [hc', hmem]; simp [s₁, h.live, and_comm]
  · rw [hc', hmem] at ha
    have hda : (m a).data = s.dataOf a := data_of_writes hw a
    show s.getTaskNode (m a).data = some a
    rw [hda]
    exact h.node a ha.2

/-- A tick or a yield that went through: the cursor has moved on and the tasks are switched. -/
structure Stepped (s s' : Machine) (c : Cursor NodePtr) : Prop where
  scheduled : Scheduled s' c.next
  node : s'.sched.node = s.sched.node
  live : s'.sched.live = s.sched.live
  switched : Switched s.procs s'.procs s.regs s'.regs (s.dataOf c.current) (s.dataOf c.next.current)

theorem Scheduled.switchNext (h : Scheduled s c) :
    s.switchNext Processes.switchToInIrq = .error .stateQueue ∨
      ∃ s', s.switchNext Processes.switchToInIrq = .ok s' ∧ Stepped s s' c := by
  simp only [Machine.switchNext, h.next]
  cases hw : s.procs.switchToInIrq s.regs (s.sched.node c.current).data
      (s.sched.node c.next.current).data with
  | none => exact .inl rfl
  | some r =>
    have hsw := switchToInIrq_switched hw
    refine .inr ⟨_, rfl, ?_, rfl, rfl, hsw⟩
    have hn := h.toListed.move_cur (Cursor.toList_next c)
    exact hn.congr rfl fun u => hsw.nodeInScheduler u

/-- The timer is not read by the scheduler. -/
theorem Stepped.setTimer (h : Stepped s s' c) (timer : SchedPitTimerHandler) :
    Stepped s { s' with timer := timer } c where
  scheduled := h.scheduled.congr rfl fun _ => rfl
  node := h.node
  live := h.live
  switched := h.switched

/-- `tick()` fails in a state queue or moves the cursor on. -/
theorem Scheduled.tick (h : Scheduled s c) :
    s.tick = .error .stateQueue ∨ ∃ s', s.tick = .ok s' ∧ Stepped s s' c := by
  rcases h.switchNext with he | ⟨s', he, hs⟩
  · exact .inl (by rw [Machine.tick, he])
  · exact .inr ⟨_, by rw [Machine.tick, he], hs.setTimer _⟩

/-- `yield()` does the same. -/
theorem Scheduled.yield (h : Scheduled s c) :
    s.yield = .error .stateQueue ∨ ∃ s', s.yield = .ok s' ∧ Stepped s s' c := by
  have ht : Scheduled { s with timer := s.timer.setExpired 5 } c := h.congr rfl fun _ => rfl
  rcases ht.switchNext with he | ⟨s', he, hs⟩
  · exact .inl he
  · exact .inr ⟨s', he, ⟨hs.scheduled, hs.node, hs.live, hs.switched⟩⟩

end Scheduled

end Ps
end TorexOS
