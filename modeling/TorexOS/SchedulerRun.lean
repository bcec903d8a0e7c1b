import TorexOS.SimpleScheduler

/-!
# TorexOS.SchedulerRun

Runs of the round-robin scheduler.

* `cursor_valid`: in every run whose `dequeue`s are of another task than the current, and not of the
  last node of three or more, `cur` is a live node of `task_list`.
* `round_robin_fair`: without `dequeue`, between two consecutive turns of a task every other task
  that was enqueued before has one turn, and every task that arrives meanwhile at most one.
-/

namespace TorexOS
namespace Ps

open Util Util.ListBase Transition

/-! ## The cursor is valid -/

inductive SchedOp where
  | enqueue (t : TaskPtr) (n : NodePtr)
  | dequeue (t : TaskPtr)
  | setCurrent (t : TaskPtr)
  | tick
  | yield

/-- A task is enqueued once, in a node that `new` has to give; the others are on enqueued tasks. -/
def SchedOp.Legal (s : Machine) : SchedOp → Prop
  | .enqueue t n => ¬ s.sched.Enqueued t ∧ n ∉ s.sched.live
  | .dequeue t => s.sched.Enqueued t
  | .setCurrent t => s.sched.Enqueued t
  | .tick => True
  | .yield => True

instance (s : Machine) (op : SchedOp) : Decidable (op.Legal s) := by
  cases op <;> unfold SchedOp.Legal <;> infer_instance

def SchedOp.exec (s : Machine) : SchedOp → Option Machine
  | .enqueue t n => s.enqueue t n
  | .dequeue t => s.dequeue t
  | .setCurrent t => some (s.setCurrent t)
  | .tick => s.tick.toOption
  | .yield => s.yield.toOption

/-- Any scheduler with a current task. -/
def schedulerSystem : System Machine SchedOp where
  init s := ∃ c, Scheduled s c
  legal s op := op.Legal s
  step s op := op.exec s

instance (s : Machine) (op : SchedOp) : Decidable (schedulerSystem.legal s op) :=
  inferInstanceAs (Decidable (op.Legal s))

/-- The dequeued task is not the current one, and its node not the last of three or more. -/
def SchedOp.KeepsCursor (s : Machine) : SchedOp → Prop
  | .dequeue t => ∀ n ∈ s.getTaskNode t,
      s.sched.cur ≠ some n ∧ ¬ CutsBack schedNode s.sched.node s.sched.taskList n
  | _ => True

/-- `cur` designates a node of the list, walked from its head, that was not deleted. -/
def CursorValid (s : Machine) : Prop :=
  ∃ xs n, Walks (schedNode.getNext s.sched.node) s.sched.taskList.head xs ∧
    s.sched.cur = some n ∧ n ∈ xs ∧ n ∈ s.sched.live

/-- The nodes that `tick()` and `yield()` dereference, `prev` and the new `cur`, were not deleted. -/
def NextLive (s : Machine) : Prop :=
  ∃ prev n, s.sched.next = some (prev, { s.sched with cur := some n }) ∧
    prev ∈ s.sched.live ∧ n ∈ s.sched.live

section Cursor

variable {s s' : Machine} {c : Cursor NodePtr}

theorem Scheduled.cursorValid (h : Scheduled s c) : CursorValid s :=
  ⟨c.toList, c.current, h.linked.represents.forward, h.cur, c.current_mem,
    (h.live _).mpr c.current_mem⟩

theorem Scheduled.nextLive (h : Scheduled s c) : NextLive s := by
  have hn : c.next.current ∈ c.toList := by rw [← Cursor.toList_next]; exact c.next.current_mem
  exact ⟨c.current, c.next.current, h.next, (h.live _).mpr c.current_mem, (h.live _).mpr hn⟩

/-- One step of a guarded run. -/
theorem Scheduled.exec {op : SchedOp} (h : Scheduled s c) (hop : op.Legal s)
    (hk : op.KeepsCursor s) (he : op.exec s = some s') : ∃ c', Scheduled s' c' := by
  cases op with
  | enqueue t n =>
    obtain ⟨s₁, he₁, hs₁, _⟩ := h.enqueue hop.1 hop.2
    rw [SchedOp.exec, he₁] at he
    cases he
    exact ⟨_, hs₁⟩
  | dequeue t =>
    obtain ⟨n, hn, hd⟩ := h.enqueued_iff.mp hop
    have hnode : s.getTaskNode t = some n := by rw [← hd]; exact h.node n hn
    obtain ⟨hcur, hcut⟩ := hk n (by rw [hnode]; rfl)
    have hnc : n ≠ c.current := by
      intro hc; rw [h.cur, hc] at hcur; exact hcur rfl
    obtain ⟨s₁, c', he₁, hs₁, _⟩ := h.dequeue hn hnc hd hcut
    rw [SchedOp.exec, he₁] at he
    cases he
    exact ⟨_, hs₁⟩
  | setCurrent t =>
    obtain ⟨c', hs₁, _, _⟩ := h.toListed.setCurrent hop
    cases he
    exact ⟨_, hs₁⟩
  | tick =>
    cases h.tick with
    | inl hf => rw [SchedOp.exec, hf] at he; cases he
    | inr hs =>
      obtain ⟨s₁, he₁, hs₁⟩ := hs
      rw [SchedOp.exec, he₁] at he
      cases he
      exact ⟨_, hs₁.scheduled⟩
  | yield =>
    cases h.yield with
    | inl hf => rw [SchedOp.exec, hf] at he; cases he
    | inr hs =>
      obtain ⟨s₁, he₁, hs₁⟩ := hs
      rw [SchedOp.exec, he₁] at he
      cases he
      exact ⟨_, hs₁.scheduled⟩

/-- `dequeue` of the current task deletes the node that `cur` stays on, whatever else is enqueued. -/
theorem Scheduled.dequeue_current (h : Scheduled s c)
    (he : s.dequeue (s.dataOf c.current) = some s') : ¬ CursorValid s' := by
  have hnode := h.node c.current c.current_mem
  simp only [Machine.dequeue, hnode] at he
  cases hp : popNode schedNode s.sched.node s.sched.taskList c.current with
  | none => rw [hp] at he; cases he
  | some r =>
    rw [hp] at he
    cases he
    intro hv
    obtain ⟨_, n, _, hn, _, hm⟩ := hv
    have hcn : c.current = n := Option.some.inj (h.cur.symm.trans hn)
    simp [hcn] at hm

/-- The cursor is valid in every state of every run whose `dequeue`s keep it, and the next tick
or yield dereferences live nodes only. -/
theorem cursor_valid (h : Reach schedulerSystem (fun s op => op.KeepsCursor s) s) :
    CursorValid s ∧ NextLive s := by
  have hc : ∃ c, Scheduled s c := by
    refine Reach.invariant (P := fun s => ∃ c, Scheduled s c) (fun s hs => hs) ?_ h
    intro s s' op hs hl hk he
    obtain ⟨c, hc⟩ := hs
    exact hc.exec hl hk he
  obtain ⟨c, hc⟩ := hc
  exact ⟨hc.cursorValid, hc.nextLive⟩

end Cursor

/-- Task 1 alone, in the node 10. -/
def oneTask : Machine where
  procs := ⟨fun _ => { rawTask with nodeInScheduler := some 10 }, fun _ => ListBase.new⟩
  sched := ⟨fun _ => ⟨⟨none, none⟩, 1⟩, ⟨some 10, some 10⟩, some 10, [10]⟩
  timer := ⟨0, 0⟩
  regs := rawTask.cpuContext

theorem oneTask_scheduled : Scheduled oneTask ⟨[], 10, []⟩ where
  linked :=
    { head := rfl, tail := rfl, nodup := by simp [Cursor.toList], storable := fun _ _ => trivial
      prev := .singleton _, first := fun _ _ => rfl, next := .singleton _, forward := .singleton _
      last := fun _ _ => rfl }
  cur := rfl
  live _ := Iff.rfl
  node n hn := by
    cases hn with
    | head => rfl
    | tail _ hn => cases hn

/-- A second task comes and goes. -/
theorem cursor_valid_two : ∃ s, replay schedulerSystem oneTask [.enqueue 2 20, .dequeue 2] = some s ∧
    CursorValid s := by
  let s₁ : Machine := (oneTask.enqueue 2 20).get rfl
  let s₂ : Machine := (s₁.dequeue 2).get rfl
  have h₁ : Reach schedulerSystem (fun s op => op.KeepsCursor s) s₁ :=
    .step (i := .enqueue 2 20) (.init ⟨_, oneTask_scheduled⟩)
      (by show (SchedOp.enqueue 2 20).Legal oneTask; decide) trivial rfl
  have hk : (SchedOp.dequeue 2).KeepsCursor s₁ := by
    intro n hn
    cases (show some 20 = some n from hn)
    exact ⟨by decide, fun hc => hc.2.1 rfl⟩
  have h₂ : Reach schedulerSystem (fun s op => op.KeepsCursor s) s₂ :=
    .step (i := .dequeue 2) h₁ (by show (SchedOp.dequeue 2).Legal s₁; decide) hk rfl
  exact ⟨s₂, rfl, (cursor_valid h₂).1⟩

/-- The current task dequeued while another is enqueued: `cur` designates a deleted node. -/
theorem dangling_cursor : ¬ ∀ s, Reach schedulerSystem (fun _ _ => True) s → s.sched.live ≠ [] →
    CursorValid s := by
  intro hall
  have hrun : ∃ s, replay schedulerSystem oneTask [.enqueue 2 20, .dequeue 1] = some s ∧
      s.sched.live = [20] ∧ s.sched.cur = some 10 := ⟨_, rfl, by decide, rfl⟩
  obtain ⟨s, hs, hlive, hcur⟩ := hrun
  have hr : Reach schedulerSystem (fun _ _ => True) s :=
    Reach.replay (.init ⟨_, oneTask_scheduled⟩) hs
  obtain ⟨_, n, _, hn, _, hm⟩ := hall s hr (by rw [hlive]; simp)
  rw [hcur] at hn
  cases hn
  rw [hlive] at hm
  exact absurd hm (by decide)

/-! ## Fairness -/

/-- What happens to the list and the cursor when no task is dequeued. -/
inductive TurnOp where
  | next
  | enqueue (t : TaskPtr) (n : NodePtr)

def TurnOp.Legal (s : Machine) : TurnOp → Prop
  | .next => True
  | .enqueue t n => ¬ s.sched.Enqueued t ∧ n ∉ s.sched.live

def TurnOp.exec (s : Machine) : TurnOp → Option Machine
  | .next => s.sched.next.map fun r => { s with sched := r.2 }
  | .enqueue t n => s.enqueue t n

def runTurns : Machine → List TurnOp → Option Machine
  | s, [] => some s
  | s, op :: ops =>
    match op.exec s with
    | none => none
    | some s => runTurns s ops

/-- Every call is legal where it is made. -/
def LegalTurns : Machine → List TurnOp → Prop
  | _, [] => True
  | s, op :: ops => op.Legal s ∧ ∀ s' ∈ op.exec s, LegalTurns s' ops

/-- The tasks that `next()` makes current, in order; `none` when it dereferences null. -/
def turns : Machine → List TurnOp → Option (List TaskPtr)
  | _, [] => some []
  | s, .next :: ops =>
    match TurnOp.next.exec s with
    | none => none
    | some s =>
      match s.sched.current with
      | none => none
      | some t => (turns s ops).map (t :: ·)
  | s, .enqueue t n :: ops =>
    match (TurnOp.enqueue t n).exec s with
    | none => none
    | some s => turns s ops

/-- The tasks that arrive. -/
def arrivals : List TurnOp → List TaskPtr
  | [] => []
  | .next :: ops => arrivals ops
  | .enqueue t _ :: ops => t :: arrivals ops

def moves : List TurnOp → List (Cursor.Move NodePtr)
  | [] => []
  | .next :: ops => .next :: moves ops
  | .enqueue _ n :: ops => .arrive n :: moves ops

section Fairness

variable {s s' : Machine} {c : Cursor NodePtr} {ops : List TurnOp} {t : TaskPtr} {us : List TaskPtr}

theorem Scheduled.turn (h : Scheduled s c) :
    ∃ s', TurnOp.next.exec s = some s' ∧ Scheduled s' c.next ∧ ∀ a, s'.dataOf a = s.dataOf a := by
  refine ⟨_, by simp only [TurnOp.exec, h.next]; rfl, h.toListed.move_cur (Cursor.toList_next c),
    ?_⟩
  exact fun _ => rfl

theorem legalTurns_append {ops ops' : List TurnOp} :
    ∀ {s : Machine}, LegalTurns s (ops ++ ops') →
      LegalTurns s ops ∧ ∀ s' ∈ runTurns s ops, LegalTurns s' ops' := by
  induction ops with
  | nil =>
    intro s h
    refine ⟨trivial, fun s' hs' => ?_⟩
    cases hs'
    exact h
  | cons op ops ih =>
    intro s h
    obtain ⟨hop, hrest⟩ := h
    refine ⟨⟨hop, fun s' hs' => (ih (hrest s' hs')).1⟩, fun s' hs' => ?_⟩
    rw [runTurns] at hs'
    cases he : op.exec s with
    | none => rw [he] at hs'; cases hs'
    | some s₁ =>
      rw [he] at hs'
      exact (ih (hrest s₁ (by rw [he]; rfl))).2 s' hs'

/-- A run moves the cursor as its operations say, and its turns are those of the cursor. By
induction on the operations; the nodes keep their tasks, so those of the last state serve. -/
theorem Scheduled.runTurns :
    ∀ {s : Machine} {c : Cursor NodePtr}, Scheduled s c → LegalTurns s ops →
      ∃ s' c', runTurns s ops = some s' ∧ Scheduled s' c' ∧
        c'.toList = (Cursor.arrivals (moves ops)).reverse ++ c.toList ∧
        (∀ a ∈ c.toList, s'.dataOf a = s.dataOf a) ∧
        arrivals ops = (Cursor.arrivals (moves ops)).map s'.dataOf ∧
        turns s ops = some ((c.turns (moves ops)).map s'.dataOf) := by
  induction ops with
  | nil => intro s c h _; exact ⟨s, c, rfl, h, rfl, fun _ _ => rfl, rfl, rfl⟩
  | cons op ops ih =>
    intro s c h hl
    obtain ⟨hop, hrest⟩ := hl
    cases op with
    | next =>
      obtain ⟨s₁, he, hs₁, hd₁⟩ := h.turn
      obtain ⟨s', c', hr, hs', hc', hd', ha', ht'⟩ := ih hs₁ (hrest s₁ (by rw [he]; rfl))
      rw [Cursor.toList_next] at hc' hd'
      have hcur : s'.dataOf c.next.current = s₁.dataOf c.next.current :=
        hd' _ (by rw [← Cursor.toList_next]; exact c.next.current_mem)
      refine ⟨s', c', by rw [Ps.runTurns, he]; exact hr, hs', hc', ?_, ha', ?_⟩
      · exact fun a ha => by rw [hd' a ha, hd₁]
      · simp only [turns, he, hs₁.current, ht', moves, Cursor.turns, List.map_cons, hcur,
          Option.map_some]
    | enqueue t n =>
      obtain ⟨s₁, he, hs₁, hdn, hd₁⟩ := h.enqueue hop.1 hop.2
      have he' : (TurnOp.enqueue t n).exec s = some s₁ := he
      obtain ⟨s', c', hr, hs', hc', hd', ha', ht'⟩ := ih hs₁ (hrest s₁ (by rw [he']; rfl))
      rw [Cursor.toList_arrive] at hc' hd'
      refine ⟨s', c', by rw [Ps.runTurns, he']; exact hr, hs', ?_, fun a ha => ?_, ?_, ?_⟩
      · rw [hc']; simp [moves, Cursor.arrivals]
      · rw [hd' a (List.mem_cons_of_mem _ ha), hd₁ a ha]
      · simp only [arrivals, moves, Cursor.arrivals, List.map_cons, ha',
          hd' n (List.mem_cons_self ..), hdn]
      · simp only [turns, he', ht']
        rfl

/-- Between two turns of the current task: the others each have a turn, no task has two. -/
theorem Scheduled.turns_between (h : Scheduled s c) (hl : LegalTurns s ops)
    (ht : turns s ops = some (us ++ [s.dataOf c.current])) (hus : s.dataOf c.current ∉ us) :
    us.Nodup ∧ ∀ u, s.sched.Enqueued u → u ≠ s.dataOf c.current → u ∈ us := by
  obtain ⟨s', c', _, hs', hc', hd', _, ht'⟩ := h.runTurns hl
  rw [ht, Option.some.injEq] at ht'
  -- every node met is a node of the last list, where tasks and nodes match
  have hmem : ∀ a, a ∈ c.toList ∨ a ∈ Cursor.arrivals (moves ops) → a ∈ c'.toList := by
    intro a ha
    rw [hc', List.mem_append, List.mem_reverse]
    exact ha.symm
  obtain ⟨vs, x, hvs, rfl, hx⟩ : ∃ vs x, c.turns (moves ops) = vs ++ [x] ∧
      us = vs.map s'.dataOf ∧ s'.dataOf x = s.dataOf c.current := by
    obtain ⟨vs, xs, hvx, hv, hxs⟩ := List.map_eq_append_iff.mp ht'.symm
    obtain ⟨x, rfl, hx⟩ := List.map_eq_singleton_iff.mp hxs
    exact ⟨vs, x, hvx, hv.symm, hx⟩
  have hturn : ∀ a ∈ vs ++ [x], a ∈ c'.toList := by
    intro a ha
    rw [← hvs] at ha
    exact hmem a (Cursor.mem_of_mem_turns ha)
  have hxc : x = c.current := by
    refine hs'.data_inj (hturn x (by simp)) (hmem _ (.inl c.current_mem)) ?_
    rw [hx, hd' _ c.current_mem]
  have hnot : c.current ∉ vs := by
    intro hm
    refine hus ?_
    rw [← hd' _ c.current_mem]
    exact List.mem_map_of_mem hm
  have hnd : (c.toList ++ Cursor.arrivals (moves ops)).Nodup := by
    have hnd' := hs'.linked.nodup
    rw [hc'] at hnd'
    obtain ⟨h1, h2, h3⟩ := List.nodup_append.mp hnd'
    refine List.nodup_append.mpr ⟨h2, List.nodup_reverse.mp h1, fun a ha b hb hab => ?_⟩
    exact h3 b (List.mem_reverse.mpr hb) a ha hab.symm
  rw [hxc] at hvs
  obtain ⟨as, has, hv⟩ := Cursor.turns_between hvs hnot hnd
  have hvnd : vs.Nodup := by
    obtain ⟨h1, h2, h3⟩ := List.nodup_append.mp hnd
    obtain ⟨hl1, hl2, hl3⟩ := List.nodup_append.mp h1
    have has' : ∀ a ∈ as, a ∈ Cursor.arrivals (moves ops) := fun a ha => has.subset ha
    rw [hv]
    refine List.nodup_append.mpr ⟨List.nodup_append.mpr ⟨(List.nodup_cons.mp hl2).2,
      List.nodup_reverse.mpr (h2.sublist has.sublist), fun a ha b hb hab => ?_⟩, hl1,
      fun a ha b hb hab => ?_⟩
    · exact h3 a (Cursor.mem_toList.mpr (.inr (.inr ha))) b (has' b (List.mem_reverse.mp hb)) hab
    · rcases List.mem_append.mp ha with ha | ha
      · exact hl3 b hb a (List.mem_cons_of_mem _ ha) hab.symm
      · exact h3 b (Cursor.mem_toList.mpr (.inl hb)) a (has' a (List.mem_reverse.mp ha)) hab.symm
  refine ⟨?_, fun u hu hne => ?_⟩
  · refine List.Nodup.map_on (fun a ha b hb hab => ?_) hvnd
    exact hs'.data_inj (hturn a (by simp [ha])) (hturn b (by simp [hb])) hab
  · obtain ⟨a, ha, rfl⟩ := h.enqueued_iff.mp hu
    have hac : a ≠ c.current := fun hac => hne (by rw [hac])
    have hav : a ∈ vs := by
      rw [hv]
      rcases Cursor.mem_toList.mp ha with ha | ha | ha
      · simp [ha]
      · exact absurd ha hac
      · simp [ha]
    rw [← hd' a ha]
    exact List.mem_map_of_mem hav

/-- Round-robin fairness with arrivals. In every run of `next()` and `enqueue` from any state
whose cursor is in the list: after any part `before` of it, between the turn of the task `t` that is
current then and its next one, every other task enqueued then is current exactly once and every task
that arrives is current at most once. -/
theorem round_robin_fair {before after : List TurnOp} (hs : ∃ c, Scheduled s c)
    (hl : LegalTurns s (before ++ after)) :
    ∃ s₁ ts, runTurns s before = some s₁ ∧ turns s₁ after = some ts ∧
      ∀ t us, s₁.sched.current = some t → ts = us ++ [t] → t ∉ us →
        (∀ u, s₁.sched.Enqueued u → u ≠ t → us.count u = 1) ∧
          ∀ u ∈ arrivals after, us.count u ≤ 1 := by
  obtain ⟨c, hs⟩ := hs
  obtain ⟨hb, ha⟩ := legalTurns_append hl
  obtain ⟨s₁, c₁, hr₁, hs₁, _⟩ := hs.runTurns hb
  have hl₁ := ha s₁ (by rw [hr₁]; rfl)
  obtain ⟨_, _, _, _, _, _, _, ht₁⟩ := hs₁.runTurns hl₁
  refine ⟨s₁, _, hr₁, ht₁, fun t us hcur hts hus => ?_⟩
  rw [hs₁.current, Option.some.injEq] at hcur
  rw [hts, ← hcur] at ht₁
  rw [← hcur] at hus
  obtain ⟨hnd, hall⟩ := hs₁.turns_between hl₁ ht₁ hus
  refine ⟨fun u hu hne => ?_, fun u _ => List.nodup_iff_count_le_one.mp hnd u⟩
  rw [← hcur] at hne
  exact List.nodup_iff_count_eq_one.mp hnd u (hall u hu hne)

end Fairness

/-- Two tasks arrive during the turn of task 1; each is current once before its next turn. -/
theorem round_robin_fair_three : ∃ s₁ ts, runTurns oneTask [.enqueue 2 20] = some s₁ ∧
    turns s₁ [.enqueue 3 30, .next, .next, .next] = some ts ∧ ts = [3, 2, 1] ∧
      ([3, 2] : List TaskPtr).count 2 = 1 := by
  have hl : LegalTurns oneTask ([.enqueue 2 20] ++ [.enqueue 3 30, .next, .next, .next]) := by
    refine ⟨⟨by decide, by decide⟩, fun s hs => ?_⟩
    cases hs
    refine ⟨⟨by decide, by decide⟩, fun s hs => ⟨trivial, fun s hs => ⟨trivial, fun s hs =>
      ⟨trivial, fun s hs => trivial⟩⟩⟩⟩
  obtain ⟨s₁, ts, hr, ht, hfair⟩ := round_robin_fair ⟨_, oneTask_scheduled⟩ hl
  cases hr
  have hts : ts = [3, 2, 1] := by
    have ht' : some [3, 2, 1] = some ts := ht
    exact (Option.some.inj ht').symm
  refine ⟨_, ts, rfl, ht, hts, ?_⟩
  exact (hfair 1 [3, 2] rfl (by rw [hts]; rfl) (by decide)).1 2 (by decide) (by decide)

end Ps
end TorexOS
