import TorexOS.Lib.Packed
import Mathlib.Logic.Function.Basic

/-!
# TorexOS.Lib.X86

The part of an x86-64 processor that moves registers to and from a stack.

* `Cpu`, `Instr`, `exec`: the registers, the selectors, the flags and a byte memory. `push fs` writes
  eight bytes, `mov ax, ds` two of the eight of `rax`. Arithmetic sets the status flags.
* `Words m a ws`: the words `ws` are in memory from `a` on.
* `StackAt c a ws`: the stack pointer is `a`, and the words there are `ws`. `StackAt.pushes` and
  `StackAt.pops` are what a row of pushes or pops does.
* `Cpu.interrupt`, `Cpu.iretq`: the five words of an interrupt frame.
-/

namespace X86

open Packed

inductive Reg where
  | rax | rbx | rcx | rdx | rdi | rsi | rbp | rsp
  | r8 | r9 | r10 | r11 | r12 | r13 | r14 | r15
  deriving DecidableEq

inductive Seg where
  | cs | ds | es | fs | gs | ss
  deriving DecidableEq

/-- `rip` is where the processor goes on behind the code that is looked at. -/
structure Cpu where
  reg : Reg → BitVec 64
  seg : Seg → BitVec 16
  rip : BitVec 64
  flags : BitVec 64
  mem : Nat → BitVec 8

/-! ## Flags -/

/-- CF, PF, AF, ZF, SF and OF. -/
def statusFlags : BitVec 64 := 0x8d5

/-- The flags that `iretq` loads in ring 0; of the others only bit 1 is set. -/
def loadable : BitVec 64 := 0x3d7fd5

/-- What `pushfq` leaves out: VM and RF. -/
def notPushed : BitVec 64 := 0x30000

def flagsImage (v : BitVec 64) : BitVec 64 := (v &&& loadable) ||| 2

/-- The bits of the status flags. -/
def status (cf pf af zf sf of : Bool) : BitVec 64 :=
  (bif cf then 1 else 0) ||| (bif pf then 4 else 0) ||| (bif af then 0x10 else 0) |||
    (bif zf then 0x40 else 0) ||| (bif sf then 0x80 else 0) ||| (bif of then 0x800 else 0)

/-- The number of bits that are set in the low byte is even. -/
def parity (r : BitVec 64) : Bool := ((List.range 8).filter r.getLsbD).length % 2 == 0

def addFlags (a b : BitVec 64) : BitVec 64 :=
  let r := a + b
  status (r.ult a) (parity r) (16 ≤ a.toNat % 16 + b.toNat % 16) (r == 0) r.msb
    (a.msb == b.msb && r.msb != a.msb)

def subFlags (a b : BitVec 64) : BitVec 64 :=
  let r := a - b
  status (a.ult b) (parity r) (a.toNat % 16 < b.toNat % 16) (r == 0) r.msb
    (a.msb != b.msb && r.msb != a.msb)

/-! ## Instructions -/

namespace Cpu

def setReg (c : Cpu) (r : Reg) (v : BitVec 64) : Cpu := { c with reg := Function.update c.reg r v }

def setSeg (c : Cpu) (s : Seg) (v : BitVec 16) : Cpu := { c with seg := Function.update c.seg s v }

def setFlags (c : Cpu) (v : BitVec 64) : Cpu := { c with flags := v }

def setStatus (c : Cpu) (v : BitVec 64) : Cpu := c.setFlags ((c.flags &&& ~~~statusFlags) ||| v)

/-- A word is written to memory. -/
def poke (c : Cpu) (a v : BitVec 64) : Cpu := { c with mem := store64 c.mem a.toNat v }

def push (c : Cpu) (v : BitVec 64) : Cpu := (c.setReg .rsp (c.reg .rsp - 8)).poke (c.reg .rsp - 8) v

/-- The word on the top of the stack. -/
def top (c : Cpu) : BitVec 64 := load64 c.mem (c.reg .rsp).toNat

def drop (c : Cpu) : Cpu := c.setReg .rsp (c.reg .rsp + 8)

/-- The low two bytes of a register are written. -/
def setLow16 (c : Cpu) (r : Reg) (v : BitVec 16) : Cpu := c.setReg r (store (c.reg r) 0 v)

section Fields

variable (c : Cpu) (r : Reg) (s : Seg) (a v : BitVec 64) (u : BitVec 16)

@[simp] theorem reg_setReg : (c.setReg r v).reg = Function.update c.reg r v := (rfl)
@[simp] theorem seg_setReg : (c.setReg r v).seg = c.seg := (rfl)
@[simp] theorem flags_setReg : (c.setReg r v).flags = c.flags := (rfl)
@[simp] theorem mem_setReg : (c.setReg r v).mem = c.mem := (rfl)

@[simp] theorem reg_setSeg : (c.setSeg s u).reg = c.reg := (rfl)
@[simp] theorem seg_setSeg : (c.setSeg s u).seg = Function.update c.seg s u := (rfl)
@[simp] theorem mem_setSeg : (c.setSeg s u).mem = c.mem := (rfl)

@[simp] theorem reg_setFlags : (c.setFlags v).reg = c.reg := (rfl)
@[simp] theorem seg_setFlags : (c.setFlags v).seg = c.seg := (rfl)
@[simp] theorem flags_setFlags : (c.setFlags v).flags = v := (rfl)
@[simp] theorem mem_setFlags : (c.setFlags v).mem = c.mem := (rfl)

@[simp] theorem reg_setStatus : (c.setStatus v).reg = c.reg := (rfl)
@[simp] theorem seg_setStatus : (c.setStatus v).seg = c.seg := (rfl)
@[simp] theorem flags_setStatus : (c.setStatus v).flags = (c.flags &&& ~~~statusFlags) ||| v := (rfl)
@[simp] theorem mem_setStatus : (c.setStatus v).mem = c.mem := (rfl)

@[simp] theorem reg_setLow16 : (c.setLow16 r u).reg = Function.update c.reg r (store (c.reg r) 0 u) := (rfl)
@[simp] theorem seg_setLow16 : (c.setLow16 r u).seg = c.seg := (rfl)
@[simp] theorem flags_setLow16 : (c.setLow16 r u).flags = c.flags := (rfl)
@[simp] theorem mem_setLow16 : (c.setLow16 r u).mem = c.mem := (rfl)

@[simp] theorem reg_poke : (c.poke a v).reg = c.reg := (rfl)
@[simp] theorem seg_poke : (c.poke a v).seg = c.seg := (rfl)
@[simp] theorem flags_poke : (c.poke a v).flags = c.flags := (rfl)
@[simp] theorem mem_poke : (c.poke a v).mem = store64 c.mem a.toNat v := (rfl)

@[simp] theorem reg_push : (c.push v).reg = Function.update c.reg .rsp (c.reg .rsp - 8) := (rfl)
@[simp] theorem seg_push : (c.push v).seg = c.seg := (rfl)
@[simp] theorem flags_push : (c.push v).flags = c.flags := (rfl)
@[simp] theorem mem_push : (c.push v).mem = store64 c.mem (c.reg .rsp - 8).toNat v := (rfl)

@[simp] theorem reg_drop : c.drop.reg = Function.update c.reg .rsp (c.reg .rsp + 8) := (rfl)
@[simp] theorem seg_drop : c.drop.seg = c.seg := (rfl)
@[simp] theorem flags_drop : c.drop.flags = c.flags := (rfl)
@[simp] theorem mem_drop : c.drop.mem = c.mem := (rfl)

end Fields

end Cpu

inductive Instr where
  | push (r : Reg)
  | pop (r : Reg)
  | pushSeg (s : Seg)
  | popSeg (s : Seg)
  | pushfq
  | popfq
  | mov (d s : Reg)
  | movFromSeg (d : Reg) (s : Seg)
  | movToSeg (s : Seg) (r : Reg)
  | store (base : Reg) (disp : BitVec 64) (r : Reg)
  | load (r base : Reg) (disp : BitVec 64)
  | movImm (r : Reg) (v : BitVec 64)
  | addImm (r : Reg) (v : BitVec 64)
  | subImm (r : Reg) (v : BitVec 64)
  | cmpImm (r : Reg) (v : BitVec 64)

/-- A 16-bit register is written by `movFromSeg` and read by `movToSeg`. -/
def exec : Instr → Cpu → Cpu
  | .push r, c => c.push (c.reg r)
  | .pop r, c => c.drop.setReg r c.top
  | .pushSeg s, c => c.push ((c.seg s).setWidth 64)
  | .popSeg s, c => c.drop.setSeg s (c.top.setWidth 16)
  | .pushfq, c => c.push (c.flags &&& ~~~notPushed)
  | .popfq, c => c.drop.setFlags (flagsImage (c.top &&& ~~~notPushed))
  | .mov d s, c => c.setReg d (c.reg s)
  | .movFromSeg d s, c => c.setLow16 d (c.seg s)
  | .movToSeg s r, c => c.setSeg s ((c.reg r).setWidth 16)
  | .store base disp r, c => c.poke (c.reg base + disp) (c.reg r)
  | .load r base disp, c => c.setReg r (load64 c.mem (c.reg base + disp).toNat)
  | .movImm r v, c => c.setReg r v
  | .addImm r v, c => (c.setReg r (c.reg r + v)).setStatus (addFlags (c.reg r) v)
  | .subImm r v, c => (c.setReg r (c.reg r - v)).setStatus (subFlags (c.reg r) v)
  | .cmpImm r v, c => c.setStatus (subFlags (c.reg r) v)

/-- A row of instructions without a jump. -/
def execAll : List Instr → Cpu → Cpu
  | [], c => c
  | i :: is, c => execAll is (exec i c)

@[simp] theorem execAll_nil (c : Cpu) : execAll [] c = c := rfl

theorem execAll_cons (i : Instr) (is : List Instr) (c : Cpu) :
    execAll (i :: is) c = execAll is (exec i c) := (rfl)

section Exec

variable (c : Cpu) (r d base : Reg) (s : Seg) (v disp : BitVec 64)

theorem exec_push : exec (.push r) c = c.push (c.reg r) := (rfl)
theorem exec_pop : exec (.pop r) c = c.drop.setReg r c.top := (rfl)
theorem exec_pushSeg : exec (.pushSeg s) c = c.push ((c.seg s).setWidth 64) := (rfl)
theorem exec_popSeg : exec (.popSeg s) c = c.drop.setSeg s (c.top.setWidth 16) := (rfl)
theorem exec_movToSeg : exec (.movToSeg s r) c = c.setSeg s ((c.reg r).setWidth 16) := (rfl)
theorem exec_pushfq : exec .pushfq c = c.push (c.flags &&& ~~~notPushed) := (rfl)
theorem exec_popfq : exec .popfq c = c.drop.setFlags (flagsImage (c.top &&& ~~~notPushed)) := (rfl)
theorem exec_mov : exec (.mov d r) c = c.setReg d (c.reg r) := (rfl)
theorem exec_movFromSeg : exec (.movFromSeg d s) c = c.setLow16 d (c.seg s) := (rfl)
theorem exec_store : exec (.store base disp r) c = c.poke (c.reg base + disp) (c.reg r) := (rfl)
theorem exec_load :
    exec (.load r base disp) c = c.setReg r (load64 c.mem (c.reg base + disp).toNat) := (rfl)
theorem exec_addImm :
    exec (.addImm r v) c = (c.setReg r (c.reg r + v)).setStatus (addFlags (c.reg r) v) := (rfl)
theorem exec_subImm :
    exec (.subImm r v) c = (c.setReg r (c.reg r - v)).setStatus (subFlags (c.reg r) v) := (rfl)
theorem exec_cmpImm : exec (.cmpImm r v) c = c.setStatus (subFlags (c.reg r) v) := (rfl)

end Exec

theorem execAll_append (is js : List Instr) (c : Cpu) :
    execAll (is ++ js) c = execAll js (execAll is c) := by
  induction is generalizing c with
  | nil => rfl
  | cons i is ih => exact ih (exec i c)

namespace Cpu

/-- `ZF` -/
def zf (c : Cpu) : Bool := c.flags.getLsbD 6

/-- An interrupt through a gate with a stack of its own. The flags that an interrupt gate clears
are TF, IF, NT, RF and VM. -/
def interrupt (c : Cpu) (stack : BitVec 64) : Cpu :=
  let c' := c.setReg .rsp (stack &&& ~~~15)
  let c' := c'.push ((c.seg .ss).setWidth 64)
  let c' := c'.push (c.reg .rsp)
  let c' := c'.push c.flags
  let c' := c'.push ((c.seg .cs).setWidth 64)
  let c' := c'.push c.rip
  { c' with flags := c.flags &&& ~~~0x34300 }

def iretq (c : Cpu) : Cpu :=
  let rip := c.top
  let c := c.drop
  let cs := c.top
  let c := c.drop
  let flags := c.top
  let c := c.drop
  let rsp := c.top
  let c := c.drop
  let ss := c.top
  let c := c.drop
  { (((c.setSeg .cs (cs.setWidth 16)).setSeg .ss (ss.setWidth 16)).setReg .rsp rsp) with
    rip := rip, flags := flagsImage flags }

end Cpu

/-! ## Words on a stack -/

/-- The words in memory from `a` on. -/
def Words (m : Nat → BitVec 8) : Nat → List (BitVec 64) → Prop
  | _, [] => True
  | a, w :: ws => load64 m a = w ∧ Words m (a + 8) ws

variable {m m' : Nat → BitVec 8} {a b : Nat} {v w : BitVec 64} {vs ws : List (BitVec 64)} {c c' : Cpu}

theorem Words.nil : Words m a [] := trivial

/-- The same bytes at another address. -/
theorem load64_shift (h : ∀ i, i < 8 → m' (b + i) = m (a + i)) : load64 m' b = load64 m a := by
  have hlo : load32 m' b = load32 m a := load32_eq_iff.mpr fun i _ => h i (by omega)
  have hhi : load32 m' (b + 4) = load32 m (a + 4) := load32_eq_iff.mpr fun i _ => by
    rw [Nat.add_assoc, Nat.add_assoc, h (4 + i) (by omega)]
  rw [load64, load64, hlo, hhi]

theorem Words.shift (h : Words m a ws) (hm : ∀ i, i < 8 * ws.length → m' (b + i) = m (a + i)) :
    Words m' b ws := by
  induction ws generalizing a b with
  | nil => trivial
  | cons w ws ih =>
    obtain ⟨hw, hws⟩ := h
    rw [List.length_cons] at hm
    refine ⟨?_, ih hws fun i hi => ?_⟩
    · rw [load64_shift fun i _ => hm i (by omega), hw]
    · rw [Nat.add_assoc, Nat.add_assoc, hm (8 + i) (by omega)]

theorem Words.congr (h : Words m a ws) (hm : ∀ x, a ≤ x → x < a + 8 * ws.length → m' x = m x) :
    Words m' a ws :=
  h.shift fun i _ => hm (a + i) (by omega) (by omega)

theorem Words.store (h : Words m (a + 8) ws) (v : BitVec 64) : Words (store64 m a v) a (v :: ws) :=
  ⟨load64_store64 m a v, h.congr fun x hx _ => store64_outside v (by omega)⟩

theorem Words.store_ne (h : Words m a ws) (hb : b + 8 ≤ a ∨ a + 8 * ws.length ≤ b) :
    Words (store64 m b v) a ws :=
  h.congr fun _ _ _ => store64_outside v (by omega)

/-- Two rows of as many words at one address are the same. -/
theorem Words.eq (h : Words m a vs) (h' : Words m a ws) (hlen : vs.length = ws.length) : vs = ws := by
  induction vs generalizing a ws with
  | nil => exact (List.eq_nil_of_length_eq_zero hlen.symm).symm
  | cons v vs ih =>
    cases ws with
    | nil => simp at hlen
    | cons w ws => rw [← h.1, ← h'.1, ih h.2 h'.2 (by simpa using hlen)]

/-- The stack pointer is `a`, and the words there are `ws`. -/
structure StackAt (c : Cpu) (a : Nat) (ws : List (BitVec 64)) : Prop where
  rsp : (c.reg .rsp).toNat = a
  room : a + 8 * ws.length < 2 ^ 64
  words : Words c.mem a ws

/-- The stack depends on the stack pointer and the memory. -/
theorem StackAt.of_eq (h : StackAt c a ws) (hr : c'.reg .rsp = c.reg .rsp) (hm : c'.mem = c.mem) :
    StackAt c' a ws where
  rsp := by rw [hr, h.rsp]
  room := h.room
  words := by rw [hm]; exact h.words

theorem toNat_sub_eight {x : BitVec 64} (h : x.toNat = a + 8) : (x - 8).toNat = a := by bv_omega

theorem StackAt.push (h : StackAt c (a + 8) ws) (v : BitVec 64) : StackAt (c.push v) a (v :: ws) := by
  have hrsp := h.rsp
  have hroom := h.room
  have hsub : (c.reg .rsp - 8).toNat = a := toNat_sub_eight hrsp
  constructor
  · exact hsub
  · rw [List.length_cons]
    omega
  · change Words (store64 c.mem (c.reg .rsp - 8).toNat v) a (v :: ws)
    rw [hsub]
    exact h.words.store v

theorem StackAt.top (h : StackAt c a (w :: ws)) : c.top = w := by
  rw [Cpu.top, h.rsp, h.words.1]

theorem StackAt.drop (h : StackAt c a (w :: ws)) : StackAt c.drop (a + 8) ws := by
  have hrsp := h.rsp
  have hroom := h.room
  rw [List.length_cons] at hroom
  refine ⟨?_, by omega, h.words.2⟩
  change (c.reg .rsp + 8).toNat = a + 8
  bv_omega

/-- Words pushed one behind another. -/
def pushWords : List (BitVec 64) → Cpu → Cpu
  | [], c => c
  | v :: vs, c => pushWords vs (c.push v)

theorem StackAt.pushWords (h : StackAt c (a + 8 * vs.length) ws) :
    StackAt (pushWords vs c) a (vs.reverse ++ ws) := by
  induction vs generalizing c ws with
  | nil => exact h
  | cons v vs ih =>
    rw [List.length_cons, Nat.mul_succ, ← Nat.add_assoc] at h
    rw [List.reverse_cons, List.append_assoc]
    exact ih (h.push v)

theorem pushWords_append : pushWords (vs ++ ws) c = pushWords ws (pushWords vs c) := by
  induction vs generalizing c with
  | nil => rfl
  | cons v vs ih => exact ih

/-- Only the stack pointer changes, and the memory between where it was and where it is. -/
theorem pushWords_reg {r : Reg} (hr : r ≠ .rsp) : (pushWords vs c).reg r = c.reg r := by
  induction vs generalizing c with
  | nil => rfl
  | cons v vs ih =>
    rw [pushWords, ih]
    exact Function.update_of_ne hr _ _

theorem pushWords_seg : (pushWords vs c).seg = c.seg := by
  induction vs generalizing c with
  | nil => rfl
  | cons v vs ih =>
    rw [pushWords, ih]
    rfl

theorem pushWords_mem (h : StackAt c (a + 8 * vs.length) ws) {x : Nat}
    (hx : x < a ∨ a + 8 * vs.length ≤ x) : (pushWords vs c).mem x = c.mem x := by
  induction vs generalizing c ws with
  | nil => rfl
  | cons v vs ih =>
    rw [List.length_cons, Nat.mul_succ, ← Nat.add_assoc] at h hx
    have hp := h.push v
    have htop : (c.reg .rsp - 8).toNat = a + 8 * vs.length := hp.rsp
    rw [X86.pushWords, ih hp (by omega)]
    exact store64_outside v (by omega)

/-- A row of pushes stores the registers as they are before it. -/
theorem execAll_push {rs : List Reg} (hrs : Reg.rsp ∉ rs) :
    execAll (rs.map .push) c = pushWords (rs.map c.reg) c := by
  induction rs generalizing c with
  | nil => rfl
  | cons r rs ih =>
    have hmap : rs.map (c.push (c.reg r)).reg = rs.map c.reg := by
      refine List.map_congr_left fun q hq => Function.update_of_ne ?_ _ _
      rintro rfl
      exact hrs (List.mem_cons_of_mem r hq)
    rw [List.map_cons, execAll_cons, exec, ih fun hm => hrs (List.mem_cons_of_mem r hm), hmap,
      List.map_cons, pushWords]

/-- Registers written in a row. -/
def assign : List Reg → List (BitVec 64) → (Reg → BitVec 64) → Reg → BitVec 64
  | r :: rs, v :: vs, f => assign rs vs (Function.update f r v)
  | _, _, f => f

theorem assign_congr {rs : List Reg} {f g : Reg → BitVec 64} {r : Reg} (h : f r = g r) :
    assign rs vs f r = assign rs vs g r := by
  induction rs generalizing vs f g with
  | nil => exact h
  | cons q rs ih =>
    cases vs with
    | nil => exact h
    | cons v vs =>
      refine ih ?_
      by_cases hq : r = q
      · rw [hq, Function.update_self, Function.update_self]
      · rw [Function.update_of_ne hq, Function.update_of_ne hq, h]

/-- What a row of pops leaves. -/
structure Popped (c c' : Cpu) (rs : List Reg) (vs : List (BitVec 64)) : Prop where
  reg : ∀ r, r ≠ .rsp → c'.reg r = assign rs vs c.reg r
  seg : c'.seg = c.seg
  mem : c'.mem = c.mem

theorem StackAt.pops (h : StackAt c a (vs ++ ws)) (rs : List Reg) (hlen : rs.length = vs.length)
    (hrs : Reg.rsp ∉ rs) : StackAt (execAll (rs.map .pop) c) (a + 8 * vs.length) ws ∧
      Popped c (execAll (rs.map .pop) c) rs vs := by
  induction rs generalizing c a vs with
  | nil =>
    obtain rfl := List.eq_nil_of_length_eq_zero hlen.symm
    exact ⟨h, ⟨fun _ _ => rfl, rfl, rfl⟩⟩
  | cons r rs ih =>
    cases vs with
    | nil => simp at hlen
    | cons v vs =>
      have hr : Reg.rsp ≠ r := fun h => hrs (h ▸ List.mem_cons_self)
      have hv : c.top = v := h.top
      have hd : StackAt (c.drop.setReg r v) (a + 8) (vs ++ ws) :=
        h.drop.of_eq (Function.update_of_ne hr _ _) rfl
      obtain ⟨hs, hp⟩ := ih hd (by simpa using hlen) fun hm => hrs (List.mem_cons_of_mem r hm)
      rw [List.map_cons, execAll_cons, exec, hv]
      rw [List.length_cons, Nat.mul_succ, Nat.add_comm (8 * vs.length), ← Nat.add_assoc]
      refine ⟨hs, ⟨fun q hq => ?_, hp.seg, hp.mem⟩⟩
      rw [hp.reg q hq]
      refine assign_congr ?_
      by_cases hqr : q = r
      · rw [hqr, Function.update_self]
        exact Function.update_self _ _ _
      · rw [Function.update_of_ne hqr]
        exact (Function.update_of_ne hqr _ _).trans (Function.update_of_ne hq _ _)

/-- The low bytes written twice. -/
theorem store_store (d : BitVec 64) (u v : BitVec 16) : store (store d 0 u) 0 v = store d 0 v := by
  apply BitVec.eq_of_getLsbD_eq
  intro i _
  rw [getLsbD_store _ _ (by omega), getLsbD_store _ _ (by omega), getLsbD_store _ _ (by omega)]
  split <;> rfl

theorem setWidth_store (d : BitVec 64) (v : BitVec 16) : (store d 0 v).setWidth 16 = v := by
  apply BitVec.eq_of_getLsbD_eq
  intro i hi
  rw [BitVec.getLsbD_setWidth, getLsbD_store _ _ (by omega), if_pos (by omega)]
  simp [hi]

/-! ## Interrupt frames -/

/-- The words that an interrupt pushes. -/
def frameWords (c : Cpu) : List (BitVec 64) :=
  [(c.seg .ss).setWidth 64, c.reg .rsp, c.flags, (c.seg .cs).setWidth 64, c.rip]

theorem interrupt_eq (c : Cpu) (stack : BitVec 64) : c.interrupt stack =
    (pushWords (frameWords c) (c.setReg .rsp (stack &&& ~~~15))).setFlags (c.flags &&& ~~~0x34300) :=
  rfl

theorem stackAt_top {stack : BitVec 64} (ha : (stack &&& ~~~15).toNat = a) :
    StackAt (c.setReg .rsp (stack &&& ~~~15)) a [] :=
  ⟨by rw [Cpu.reg_setReg, Function.update_self, ha], by rw [← ha]; exact (stack &&& ~~~15).isLt,
    Words.nil⟩

theorem StackAt.interrupt {stack : BitVec 64} (ha : (stack &&& ~~~15).toNat = a + 40) :
    StackAt (c.interrupt stack) a (frameWords c).reverse := by
  have hp := (stackAt_top (c := c) (a := a + 8 * (frameWords c).length) ha).pushWords
  rw [List.append_nil] at hp
  exact hp.of_eq rfl rfl

theorem interrupt_reg {stack : BitVec 64} {r : Reg} (hr : r ≠ .rsp) :
    (c.interrupt stack).reg r = c.reg r := by
  rw [interrupt_eq, Cpu.reg_setFlags, pushWords_reg hr, Cpu.reg_setReg, Function.update_of_ne hr]

theorem interrupt_seg {stack : BitVec 64} : (c.interrupt stack).seg = c.seg := by
  rw [interrupt_eq, Cpu.seg_setFlags, pushWords_seg, Cpu.seg_setReg]

theorem interrupt_mem {stack : BitVec 64} (ha : (stack &&& ~~~15).toNat = a + 40) {x : Nat}
    (hx : x < a ∨ a + 40 ≤ x) : (c.interrupt stack).mem x = c.mem x := by
  have hst := stackAt_top (c := c) (a := a + 8 * (frameWords c).length) ha
  rw [interrupt_eq, Cpu.mem_setFlags, pushWords_mem hst hx, Cpu.mem_setReg]

theorem StackAt.iretq {rip cs flags rsp ss : BitVec 64}
    (h : StackAt c a (rip :: cs :: flags :: rsp :: ss :: ws)) :
    c.iretq =
      { reg := Function.update c.reg .rsp rsp
        seg := Function.update (Function.update c.seg .cs (cs.setWidth 16)) .ss (ss.setWidth 16)
        rip := rip, flags := flagsImage flags, mem := c.mem } := by
  rw [Cpu.iretq, h.top, h.drop.top, h.drop.drop.top, h.drop.drop.drop.top, h.drop.drop.drop.drop.top]
  simp [Cpu.setSeg, Cpu.setReg, Cpu.drop]

/-! ## Flags that are kept -/

theorem status_and (cf pf af zf sf of : Bool) :
    status cf pf af zf sf of &&& ~~~statusFlags = 0 := by
  revert cf pf af zf sf of
  decide

theorem getLsbD_status (cf pf af zf sf of : Bool) : (status cf pf af zf sf of).getLsbD 6 = zf := by
  revert cf pf af zf sf of
  decide

/-- A comparison sets ZF exactly if the two are equal. -/
theorem zf_cmp (x y : BitVec 64) : (c.setStatus (subFlags x y)).zf = decide (x = y) := by
  have h6 : statusFlags.getLsbD 6 = true := by decide
  have hz : (x - y == 0) = decide (x = y) := by
    rw [Bool.eq_iff_iff, beq_iff_eq, decide_eq_true_iff]
    constructor
    · intro h
      bv_omega
    · rintro rfl
      exact BitVec.sub_self x
  change ((c.flags &&& ~~~statusFlags) ||| subFlags x y).getLsbD 6 = _
  rw [BitVec.getLsbD_or, BitVec.getLsbD_and, BitVec.getLsbD_not, h6, subFlags, getLsbD_status, hz]
  simp

end X86
