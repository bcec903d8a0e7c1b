import TorexOS.ListBase

/-!
# TorexOS.Process

`ps::Task` and its state queues, `process/process.cpp`.

* `CpuContext`, `Task`: what a task holds. Tasks and scheduler nodes are addressed by `Nat`s.
* `Builder`: what each call of `Task::Builder` sets in the task it builds.
* `Processes`: the tasks and the six queues of `get_queue`, which share the link pair
  `Task::state_node`.
* `changeState`, `switchToInIrq`, `switchTo`, and the `NullScheduler`, as the source computes them.
  Each returns `none` when a queue call dereferences a null link.
-/

namespace TorexOS
namespace Ps

open Util

abbrev TaskPtr := Nat
abbrev NodePtr := Nat

/-- `StateFlag`; `state_end` only counts the others. -/
inductive StateFlag where
  | created
  | suspended
  | running
  | asleep
  | ready
  | terminated
  deriving DecidableEq

/-- `x86_64::cpuContext`. -/
structure CpuContext where
  gs : BitVec 64
  fs : BitVec 64
  es : BitVec 64
  ds : BitVec 64
  r15 : BitVec 64
  r14 : BitVec 64
  r13 : BitVec 64
  r12 : BitVec 64
  r11 : BitVec 64
  r10 : BitVec 64
  r9 : BitVec 64
  r8 : BitVec 64
  rsi : BitVec 64
  rdi : BitVec 64
  rdx : BitVec 64
  rcx : BitVec 64
  rbx : BitVec 64
  rax : BitVec 64
  rbp : BitVec 64
  rip : BitVec 64
  cs : BitVec 64
  rflag : BitVec 64
  rsp : BitVec 64
  ss : BitVec 64
  deriving DecidableEq

structure Task where
  stateNode : ListNode TaskPtr
  state : StateFlag
  stackStart : BitVec 64
  stackSize : BitVec 64
  nodeInScheduler : Option NodePtr
  cpuContext : CpuContext
  deriving DecidableEq

/-- `TaskNode`: the links of a task are those of its `state_node`. -/
def taskNode : NodeTrait (TaskPtr → Task) TaskPtr :=
  nodeFieldTrait Task.stateNode (fun t x => { t with stateNode := x }) fun _ _ => rfl

/-- What `new` returns for a task: where it is and what the storage held. -/
structure NewTask where
  ptr : TaskPtr
  raw : Task

/-- The tasks in memory and the queues that `get_queue` returns. -/
structure Processes where
  task : TaskPtr → Task
  queue : StateFlag → ListBase TaskPtr

namespace Processes

def setTask (s : Processes) (t : TaskPtr) (x : Task) : Processes :=
  { s with task := fun u => if u = t then x else s.task u }

/-- Write back the tasks and the queue of `sf` after a call on that queue. -/
def setQueue (s : Processes) (sf : StateFlag) :
    (TaskPtr → Task) × ListBase TaskPtr → Processes
  | (task, l) => ⟨task, fun q => if q = sf then l else s.queue q⟩

/-- `get_queue(sf).pop_node(&t->state_node)` -/
def popNode (s : Processes) (sf : StateFlag) (t : TaskPtr) : Option Processes :=
  (ListBase.popNode taskNode s.task (s.queue sf) t).map (s.setQueue sf)

/-- `get_queue(sf).push_back_node(&t->state_node)` -/
def pushBackNode (s : Processes) (sf : StateFlag) (t : TaskPtr) : Option Processes :=
  (ListBase.pushBackNode taskNode s.task (s.queue sf) t).map (s.setQueue sf)

/-- `get_queue(sf).push_front_node(&t->state_node)` -/
def pushFrontNode (s : Processes) (sf : StateFlag) (t : TaskPtr) : Option Processes :=
  (ListBase.pushFrontNode taskNode s.task (s.queue sf) t).map (s.setQueue sf)

/-- `Task::change_state` -/
def changeState (s : Processes) (t : TaskPtr) (sf : StateFlag) : Option Processes :=
  match s.popNode (s.task t).state t with
  | none => none
  | some s =>
    let s := s.setTask t { s.task t with state := sf }
    s.pushBackNode (s.task t).state t

/-- Both switches change the states first: this task's to ready, then the other's to running. -/
def changeStates (s : Processes) (t other : TaskPtr) : Option Processes :=
  match s.changeState t .ready with
  | none => none
  | some s => s.changeState other .running

def setContext (s : Processes) (t : TaskPtr) (c : CpuContext) : Processes :=
  s.setTask t { s.task t with cpuContext := c }

/-- `Task::switch_to_in_irq`, on the frame of the interrupt. -/
def switchToInIrq (s : Processes) (cur : CpuContext) (t after : TaskPtr) :
    Option (Processes × CpuContext) :=
  match s.changeStates t after with
  | none => none
  | some s =>
    let s := s.setContext t cur
    some (s, (s.task after).cpuContext)

/-- `SwitchContext(prev, next)`: the live context goes to `*prev` unless `prev` is null, then `*next`
is loaded. -/
def switchContext (s : Processes) (live : CpuContext) (prev : Option TaskPtr) (next : TaskPtr) :
    Processes × CpuContext :=
  let s := match prev with
    | none => s
    | some p => s.setContext p live
  (s, (s.task next).cpuContext)

/-- `Task::switch_to` -/
def switchTo (s : Processes) (live : CpuContext) (t other : TaskPtr) :
    Option (Processes × CpuContext) :=
  match s.changeStates t other with
  | none => none
  | some s => some (s.switchContext live (some t) other)

/-- `Task::context_switch_to` -/
def contextSwitchTo (s : Processes) (live : CpuContext) (t : TaskPtr) : Processes × CpuContext :=
  s.switchContext live none t

/-- `Task::createKernelTaskTemplate`; the constructor of `Task` sets the state. -/
def createKernelTaskTemplate (s : Processes) (new : NewTask) : Option Processes :=
  (s.setTask new.ptr { new.raw with state := .created }).pushBackNode .created new.ptr

end Processes

namespace Builder

/-- `Task::Builder()` -/
def new (ret : Task) : Task :=
  { ret with
    cpuContext := { ret.cpuContext with
      cs := 0x8, ds := 0x10, es := 0x10, fs := 0x10, gs := 0x10, ss := 0x10, rflag := 0x0200 }
    stackSize := 4096
    stackStart := 0 }

/-- `Task::Builder(void (*fn)())` -/
def ofFn (fn : BitVec 64) (ret : Task) : Task :=
  let ret := new ret
  { ret with cpuContext := { ret.cpuContext with rip := fn } }

/-- `Task::Builder(int (*fn)(int,const char *[]),int,const char *[])` -/
def ofMain (fn : BitVec 64) (argc : BitVec 32) (argv : BitVec 64) (ret : Task) : Task :=
  let ret := new ret
  { ret with
    cpuContext := { ret.cpuContext with rip := fn, rdi := argc.signExtend 64, rsi := argv } }

/-- `Task::Builder::stack(size_t)` -/
def stack (sz : BitVec 64) (ret : Task) : Task := { ret with stackSize := sz }

/-- `Task::Builder::stack(void *,size_t)` -/
def stackAt (ptr sz : BitVec 64) (ret : Task) : Task :=
  { ret with stackStart := ptr, stackSize := sz }

/-- `Task::Builder::build`; `chars` is what `new char[stack_size]` returns. `stack_start` points to
`uint64_t`, so the sum counts in units of eight bytes. -/
def build (chars : BitVec 64) (ret : Task) : Task :=
  let ret := if ret.stackStart = 0 then { ret with stackStart := chars } else ret
  let top := ret.stackStart + 8 * ret.stackSize - 8 * (8 * 2)
  { ret with cpuContext := { ret.cpuContext with rbp := top, rsp := top } }

/-- The two constructors. -/
inductive Ctor where
  | fn (fn : BitVec 64)
  | main (fn : BitVec 64) (argc : BitVec 32) (argv : BitVec 64)

def Ctor.apply : Ctor → Task → Task
  | .fn f => ofFn f
  | .main f argc argv => ofMain f argc argv

/-- The calls before `build`; `name` sets nothing that is modelled. -/
inductive Call where
  | name
  | stack (sz : BitVec 64)
  | stackAt (ptr sz : BitVec 64)

def Call.apply : Call → Task → Task
  | .name => id
  | .stack sz => Builder.stack sz
  | .stackAt ptr sz => Builder.stackAt ptr sz

/-- `Task::Builder(..).name(..).stack(..)….build()` -/
def chain (ctor : Ctor) (calls : List Call) (chars : BitVec 64) (ret : Task) : Task :=
  build chars (calls.foldl (fun ret call => call.apply ret) (ctor.apply ret))

end Builder

/-- A call of a `Task::Builder`, from the constructor to `build`. -/
structure BuilderCall where
  new : NewTask
  ctor : Builder.Ctor
  calls : List Builder.Call
  chars : BitVec 64

namespace Processes

/-- `createKernelTaskTemplate` in the constructor, then the rest of the chain on the new task. -/
def buildTask (s : Processes) (b : BuilderCall) : Option Processes :=
  match s.createKernelTaskTemplate b.new with
  | none => none
  | some s => some (s.setTask b.new.ptr (Builder.chain b.ctor b.calls b.chars (s.task b.new.ptr)))

/-- `NullScheduler::current(Task *)`: to the front of the running queue; the state stays. -/
def nullCurrent (s : Processes) (t : TaskPtr) : Option Processes :=
  match s.popNode (s.task t).state t with
  | none => none
  | some s => s.pushFrontNode .running t

end Processes
end Ps
end TorexOS
