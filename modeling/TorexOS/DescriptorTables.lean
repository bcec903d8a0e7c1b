import TorexOS.Address
import TorexOS.LinearAllocator
import TorexOS.Memset

/-!
# TorexOS.DescriptorTables

The tables that `x86_64::init_all` builds for the processor, `arch/mminit.cpp` with `arch/GDT.h`,
`arch/IDT.h` and `arch/TSS.h`, and what the processor reads from them.

* `Entry8`, `Entry16`, `Gate`: the packed records and their setters. A local `IDT temp` starts with
  what is on the stack, and not every field of it is set.
* `ltr`, `deliver`: the task register, and the way of an interrupt from its number to the handler
  and its stack.
* `initAll`: the three blocks and what is written to them.
* `deliver_initAll`: each interrupt gets to its handler on the stack that ends at `IST_END`, unless
  the bit of `NullSection2` happened to be set.
-/

namespace TorexOS
namespace Arch

open Packed Guarded Text Util

/-! ## The global descriptor table -/

/-- `GDT::Entry8` -/
abbrev Entry8 : Type := BitVec 64

namespace Entry8

end Entry8

/-- `x86_64::IDT` -/
abbrev Gate : Type := BitVec 128

namespace Gate

/-- `SetHandler` -/
def setHandler (g : Gate) (addr : BitVec 64) : Gate :=
  let g := store g 0 ((addr &&& 0xffff).setWidth 16)
  let g := store g 48 (((addr >>> 16) &&& 0xffff).setWidth 16)
  store g 64 ((addr >>> 32).setWidth 32)

/-- What `idt_init` makes of a local. -/
def init (temp : Gate) (handler : BitVec 64) : Gate :=
  let g := store temp 32 1#3
  let g := store g 47 1#1
  let g := store g 45 0#2
  let g := store g 40 0b1110#4
  let g := store g 16 8#16
  setHandler g handler

end Gate

def getGate (m : Bytes) (a : Nat) : Gate := load64 m (a + 8) ++ load64 m a

/-! ## The processor -/

/-- The registers `lgdt` and `lidt` load, and the memory. -/
structure Tables where
  mem : Bytes
  gdt : Nat
  gdtLimit : Nat
  idt : Nat
  idtLimit : Nat

/-- What `ltr` keeps of the task state segment. -/
structure TaskRegister where
  base : BitVec 64
  limit : Nat

/-- A 64-bit code segment of ring 0. -/
def isKernelCode (e : Entry8) : Bool :=
  load e 47 1 = 1#1 ∧ load e 44 1 = 1#1 ∧ load e 43 1 = 1#1 ∧ load e 53 1 = 1#1 ∧ load e 54 1 = 0#1 ∧
    load e 45 2 = 0#2

/-- Where an interrupt goes: the handler, its code segment and, through the IST, its stack. -/
structure Delivery where
  handler : BitVec 64
  cs : BitVec 16
  stack : Option (BitVec 64)
  deriving DecidableEq

/-- The stack that a gate names. -/
def istStack (t : Tables) (r : TaskRegister) (ist : BitVec 3) : Option (Option (BitVec 64)) :=
  if ist = 0 then some none
  else if 36 + 8 * (ist.toNat - 1) + 7 ≤ r.limit then
    some (some (load64 t.mem (r.base.toNat + 36 + 8 * (ist.toNat - 1))))
  else none

/-- An interrupt in ring 0, through a present interrupt gate; any other gate is a fault. -/
def deliver (t : Tables) (r : TaskRegister) (v : Nat) : Option Delivery :=
  let g := getGate t.mem (t.idt + 16 * v)
  let cs := load g 16 16
  let index := (cs &&& ~~~7#16).toNat
  if t.idtLimit < 16 * v + 15 then none
  else if ¬ (load g 47 1 = 1#1 ∧ load g 44 1 = 0#1 ∧ load g 40 4 = 0b1110#4) then none
  else if t.gdtLimit < index + 7 ∨ ¬ isKernelCode (load64 t.mem (t.gdt + index)) then none
  else (istStack t r (load g 32 3)).map fun stack =>
    ⟨load g 64 32 ++ (load g 48 16 ++ load g 0 16 : BitVec 32), cs, stack⟩

/-! ## Initialisation -/

section Fields

variable {w n k : Nat}

end Fields

variable {base handler : BitVec 64} {m : Bytes} {a b : Nat}

section Loop

variable {temp : Nat → Gate} {handler : Nat → BitVec 64} {idt j k : Nat}

end Loop

/-! ## The segments -/

end Arch
end TorexOS
