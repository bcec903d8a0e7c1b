import TorexOS.Lib.X86
import TorexOS.Process

/-!
# TorexOS.Switching

`SwitchContext` of `arch/switching.nasm`, run instruction by instruction on the processor of
`Lib.X86`, and the layout of `x86_64::cpuContext`.

* `switchContext c`: the code from its first instruction to `iretq`. The words of `*prev` are stored
  by hand where they are an interrupt frame, and pushed below it with the stack pointer in `*prev`.
* `suspended c`: what ends up in `*prev`. `resumed x m`: the processor behind `iretq` from `x`.
* `switchContext_save`, `switchContext_load`: the two halves.
-/

namespace TorexOS
namespace Ps

open X86 Packed

/-- The members of `cpuContext` in their order. -/
def CpuContext.words (x : CpuContext) : List (BitVec 64) :=
  [x.gs, x.fs, x.es, x.ds, x.r15, x.r14, x.r13, x.r12, x.r11, x.r10, x.r9, x.r8, x.rsi, x.rdi, x.rdx,
    x.rcx, x.rbx, x.rax, x.rbp, x.rip, x.cs, x.rflag, x.rsp, x.ss]

/-- The registers that `SAVECONTEXT` pushes first. -/
def savedRegs : List Reg :=
  [.rbp, .rax, .rbx, .rcx, .rdx, .rdi, .rsi, .r8, .r9, .r10, .r11, .r12, .r13, .r14, .r15]

/-- `%macro SAVECONTEXT`, which is `KSAVECONTEXT` as well. -/
def saveContext : List Instr :=
  savedRegs.map .push ++
    [.movFromSeg .rax .ds, .push .rax, .movFromSeg .rax .es, .push .rax, .pushSeg .fs, .pushSeg .gs]

/-- `%macro LOADCONTEXT`, which is `KLOADCONTEXT` as well. -/
def loadContext : List Instr :=
  [.popSeg .gs, .popSeg .fs, .pop .rax, .movToSeg .es .rax, .pop .rax, .movToSeg .ds .rax] ++
    savedRegs.reverse.map .pop

/-- Up to `je .LoadContext`. -/
def switchHead : List Instr := [.push .rbp, .mov .rbp .rsp, .pushfq, .cmpImm .rdi 0]

/-- Behind the jump, up to `SAVECONTEXT`. -/
def switchFrame : List Instr :=
  [.popfq,
    .push .rax,
    .movFromSeg .rax .ss,
    .store .rdi (23 * 8) .rax,
    .mov .rax .rbp,
    .addImm .rax 16,
    .store .rdi (22 * 8) .rax,
    .pushfq,
    .pop .rax,
    .store .rdi (21 * 8) .rax,
    .movFromSeg .rax .cs,
    .store .rdi (20 * 8) .rax,
    .load .rax .rbp 8,
    .store .rdi (19 * 8) .rax,
    .pop .rax,
    .pop .rbp,
    .addImm .rdi (19 * 8),
    .mov .rsp .rdi,
    .subImm .rdi (19 * 8)]

def switchContext (c : Cpu) : Cpu :=
  let c := execAll switchHead c
  let c := if c.zf then c else execAll saveContext (execAll switchFrame c)
  (execAll loadContext (exec (.mov .rsp .rsi) c)).iretq

/-! ## What is saved -/

/-- The flags behind `add rax, 16`, as `pushfq` stores them. -/
def savedFlags (c : Cpu) : BitVec 64 :=
  ((flagsImage (c.flags &&& ~~~notPushed &&& ~~~notPushed) &&& ~~~statusFlags) |||
    addFlags (c.reg .rsp - 8) 16) &&& ~~~notPushed

/-- The selectors but `fs` and `gs` are stored with what `ax` leaves of `rax`. -/
def suspended (c : Cpu) : CpuContext where
  gs := (c.seg .gs).setWidth 64
  fs := (c.seg .fs).setWidth 64
  es := store (c.reg .rax) 0 (c.seg .es)
  ds := store (c.reg .rax) 0 (c.seg .ds)
  r15 := c.reg .r15
  r14 := c.reg .r14
  r13 := c.reg .r13
  r12 := c.reg .r12
  r11 := c.reg .r11
  r10 := c.reg .r10
  r9 := c.reg .r9
  r8 := c.reg .r8
  rsi := c.reg .rsi
  rdi := c.reg .rdi
  rdx := c.reg .rdx
  rcx := c.reg .rcx
  rbx := c.reg .rbx
  rax := c.reg .rax
  rbp := c.reg .rbp
  rip := c.top
  cs := store (savedFlags c) 0 (c.seg .cs)
  rflag := savedFlags c
  rsp := c.reg .rsp + 8
  ss := store (c.reg .rax) 0 (c.seg .ss)

/-- The registers of a context. -/
def CpuContext.reg (x : CpuContext) : Reg → BitVec 64
  | .rax => x.rax
  | .rbx => x.rbx
  | .rcx => x.rcx
  | .rdx => x.rdx
  | .rdi => x.rdi
  | .rsi => x.rsi
  | .rbp => x.rbp
  | .rsp => x.rsp
  | .r8 => x.r8
  | .r9 => x.r9
  | .r10 => x.r10
  | .r11 => x.r11
  | .r12 => x.r12
  | .r13 => x.r13
  | .r14 => x.r14
  | .r15 => x.r15

def CpuContext.seg (x : CpuContext) : Seg → BitVec 64
  | .cs => x.cs
  | .ds => x.ds
  | .es => x.es
  | .fs => x.fs
  | .gs => x.gs
  | .ss => x.ss

/-- The processor that goes on from a context. -/
def resumed (x : CpuContext) (m : Nat → BitVec 8) : Cpu where
  reg := x.reg
  seg s := (x.seg s).setWidth 16
  rip := x.rip
  flags := flagsImage x.rflag
  mem := m

variable {c : Cpu} {x : CpuContext} {a : Nat} {ws : List (BitVec 64)}

/-- What `SAVECONTEXT` pushes. -/
def pushed (c : Cpu) : List (BitVec 64) :=
  savedRegs.map c.reg ++ [store (c.reg .rax) 0 (c.seg .ds), store (c.reg .rax) 0 (c.seg .es),
    (c.seg .fs).setWidth 64, (c.seg .gs).setWidth 64]

/-- The pushes; `ax` is overwritten on the way. -/
theorem saveContext_run (c : Cpu) :
    (execAll saveContext c).mem = (pushWords (pushed c) c).mem ∧
      (execAll saveContext c).reg .rsp = (pushWords (pushed c) c).reg .rsp ∧
      (execAll saveContext c).reg .rsi = c.reg .rsi := by
  have hregs : execAll (savedRegs.map .push) c = pushWords (savedRegs.map c.reg) c :=
    execAll_push (by decide)
  rw [saveContext, execAll_append, hregs, pushed, pushWords_append]
  generalize hc : pushWords (savedRegs.map c.reg) c = c'
  have hrax : c'.reg .rax = c.reg .rax := by rw [← hc, pushWords_reg (by decide)]
  have hrsi : c'.reg .rsi = c.reg .rsi := by rw [← hc, pushWords_reg (by decide)]
  have hseg : c'.seg = c.seg := by rw [← hc, pushWords_seg]
  refine ⟨?_, ?_, ?_⟩
  all_goals simp only [execAll_cons, execAll_nil, exec_push, exec_pushSeg, exec_movFromSeg, pushWords,
    Cpu.reg_setLow16, Cpu.seg_setLow16, Cpu.mem_setLow16, Cpu.reg_push, Cpu.seg_push, Cpu.mem_push,
    Function.update_self, Function.update_of_ne, ne_eq, reduceCtorEq, not_false_eq_true, store_store,
    hrax, hrsi, hseg]

/-- The registers that `LOADCONTEXT` pops last. -/
def CpuContext.general (x : CpuContext) : List (BitVec 64) :=
  [x.r15, x.r14, x.r13, x.r12, x.r11, x.r10, x.r9, x.r8, x.rsi, x.rdi, x.rdx, x.rcx, x.rbx, x.rax, x.rbp]

/-- From the words of a context, whatever was in the registers. -/
theorem loadContext_iretq (h : StackAt c a (x.words ++ ws)) :
    (execAll loadContext c).iretq = resumed x c.mem := by
  generalize hc : execAll [.popSeg .gs, .popSeg .fs, .pop .rax, .movToSeg .es .rax, .pop .rax,
    .movToSeg .ds .rax] c = c₁
  have h₁ : StackAt c₁ (a + 8 + 8 + 8 + 8)
      (x.general ++ (x.rip :: x.cs :: x.rflag :: x.rsp :: x.ss :: ws)) := by
    have h' : StackAt c a (x.gs :: x.fs :: x.es :: x.ds ::
        (x.general ++ (x.rip :: x.cs :: x.rflag :: x.rsp :: x.ss :: ws))) := h
    rw [← hc]
    refine h'.drop.drop.drop.drop.of_eq ?_ ?_
    all_goals simp only [execAll_cons, execAll_nil, exec_popSeg, exec_pop, exec_movToSeg, Cpu.reg_setSeg,
      Cpu.reg_setReg, Cpu.reg_drop, Cpu.mem_setSeg, Cpu.mem_setReg, Cpu.mem_drop, Function.update_self,
      Function.update_of_ne, ne_eq, reduceCtorEq, not_false_eq_true]
  have hseg : c₁.seg = Function.update (Function.update (Function.update (Function.update c.seg
      .gs (x.gs.setWidth 16)) .fs (x.fs.setWidth 16)) .es (x.es.setWidth 16)) .ds (x.ds.setWidth 16) := by
    have hgs := h.top
    have hfs := h.drop.top
    have hes := h.drop.drop.top
    have hds := h.drop.drop.drop.top
    simp only [Cpu.top, Cpu.drop, Cpu.setReg, Function.update_self] at hgs hfs hes hds
    rw [← hc]
    simp only [execAll_cons, execAll_nil, exec, Cpu.top, Cpu.drop, Cpu.setReg, Cpu.setSeg,
      Function.update_self, Function.update_of_ne, ne_eq, reduceCtorEq, not_false_eq_true, hgs, hfs,
      hes, hds]
  obtain ⟨h₂, hp⟩ := h₁.pops savedRegs.reverse rfl (by decide)
  rw [loadContext, execAll_append, hc, h₂.iretq, hp.seg, hseg, hp.mem]
  have hmem : c₁.mem = c.mem := by
    rw [← hc]
    rfl
  rw [hmem, resumed]
  congr 1
  · funext r
    by_cases hr : r = .rsp
    · rw [hr, Function.update_self]
      rfl
    · rw [Function.update_of_ne hr, hp.reg r hr]
      cases r
      all_goals first | rfl | exact absurd rfl hr
  · funext s
    cases s <;> rfl

theorem sub_eight_add (x : BitVec 64) : x - 8 + 16 = x + 8 := by bv_omega

/-- The stores of `switchHead` and `switchFrame` in their order. -/
def frameStores (c : Cpu) : List (BitVec 64 × BitVec 64) :=
  [(c.reg .rsp - 8, c.reg .rbp),
    (c.reg .rsp - 8 - 8, c.flags &&& ~~~notPushed),
    (c.reg .rsp - 8 - 8, c.reg .rax),
    (c.reg .rdi + 23 * 8, store (c.reg .rax) 0 (c.seg .ss)),
    (c.reg .rdi + 22 * 8, c.reg .rsp - 8 + 16),
    (c.reg .rsp - 8 - 8 - 8, savedFlags c),
    (c.reg .rdi + 21 * 8, savedFlags c),
    (c.reg .rdi + 20 * 8, store (savedFlags c) 0 (c.seg .cs))]

def pokes : List (BitVec 64 × BitVec 64) → (Nat → BitVec 8) → Nat → BitVec 8
  | [], m => m
  | (a, v) :: as, m => pokes as (store64 m a.toNat v)

/-- What the code computes, with the words read back from the stack as they are there. -/
theorem switchFrame_run (c : Cpu) :
    let c' := execAll switchFrame (execAll switchHead c)
    let m := pokes (frameStores c) c.mem
    let m' := store64 m (c.reg .rdi + 19 * 8).toNat (load64 m (c.reg .rsp).toNat)
    c'.mem = m' ∧ c'.seg = c.seg ∧ c'.reg .rsp = c.reg .rdi + 19 * 8 ∧ c'.reg .rdi = c.reg .rdi ∧
      c'.reg .rax = load64 m' (c.reg .rsp - 8 - 8).toNat ∧
      c'.reg .rbp = load64 m' (c.reg .rsp - 8).toNat ∧
      ∀ r, r ≠ .rsp → r ≠ .rdi → r ≠ .rax → r ≠ .rbp → c'.reg r = c.reg r := by
  refine ⟨?_, ?_, ?_, ?_, ?_, ?_, fun r hrsp hrdi hrax hrbp => ?_⟩
  all_goals simp only [*, frameStores, pokes, savedFlags, switchHead, switchFrame, execAll_cons,
    execAll_nil, exec_push, exec_pop, exec_pushfq, exec_popfq, exec_mov, exec_movFromSeg, exec_store,
    exec_load, exec_addImm, exec_subImm, exec_cmpImm, Cpu.top, Cpu.reg_setReg, Cpu.seg_setReg,
    Cpu.flags_setReg, Cpu.mem_setReg, Cpu.reg_setFlags, Cpu.seg_setFlags, Cpu.flags_setFlags,
    Cpu.mem_setFlags, Cpu.reg_setStatus, Cpu.seg_setStatus, Cpu.flags_setStatus, Cpu.mem_setStatus,
    Cpu.reg_setLow16, Cpu.seg_setLow16, Cpu.flags_setLow16, Cpu.mem_setLow16, Cpu.reg_poke,
    Cpu.seg_poke, Cpu.flags_poke, Cpu.mem_poke, Cpu.reg_push, Cpu.seg_push, Cpu.flags_push,
    Cpu.mem_push, Cpu.reg_drop, Cpu.seg_drop, Cpu.mem_drop, Function.update_self, Function.update_of_ne, ne_eq,
    reduceCtorEq, not_false_eq_true, load64_store64,
    BitVec.sub_add_cancel, BitVec.add_sub_cancel]

/-- At the first instruction: `S` is where the return address is on the stack, `P` is `prev`. Below
the return address 24 bytes are used, and `*prev` is apart from these. -/
structure Calling (c : Cpu) (S P : Nat) : Prop where
  rsp : (c.reg .rsp).toNat = S
  rdi : (c.reg .rdi).toNat = P
  low : 24 ≤ S
  high : S + 8 < 2 ^ 64
  room : P + 192 < 2 ^ 64
  apart : P + 192 ≤ S - 24 ∨ S + 8 ≤ P

/-- What is written before the pushes: the 24 bytes and the frame. -/
structure Framed (c c' : Cpu) (S P : Nat) : Prop where
  reg : ∀ r, r ≠ .rsp → c'.reg r = c.reg r
  seg : c'.seg = c.seg
  stack : StackAt c' (P + 152) [c.top, store (savedFlags c) 0 (c.seg .cs), savedFlags c,
    c.reg .rsp + 8, store (c.reg .rax) 0 (c.seg .ss)]
  mem : ∀ x, (x < S - 24 ∨ S ≤ x) → (x < P + 152 ∨ P + 192 ≤ x) → c'.mem x = c.mem x

variable {S P : Nat}

/-- The stores are in the 24 bytes below the return address and in the last words of `*prev`. -/
theorem framePokes (h : Calling c S P) {m : Nat → BitVec 8} (hm : pokes (frameStores c) c.mem = m) :
    load64 m S = c.top ∧ load64 m (S - 8) = c.reg .rbp ∧ load64 m (S - 16) = c.reg .rax ∧
      Words m (P + 160) [store (savedFlags c) 0 (c.seg .cs), savedFlags c, c.reg .rsp + 8,
        store (c.reg .rax) 0 (c.seg .ss)] ∧
      ∀ x, (x < S - 24 ∨ S ≤ x) → (x < P + 152 ∨ P + 192 ≤ x) → m x = c.mem x := by
  obtain ⟨hS, hP, hlow, hhigh, hroom, hap⟩ := h
  have a8 : (c.reg .rsp - 8).toNat = S - 8 := toNat_sub_eight (by omega)
  have a16 : (c.reg .rsp - 8 - 8).toNat = S - 16 := toNat_sub_eight (by omega)
  have a24 : (c.reg .rsp - 8 - 8 - 8).toNat = S - 24 := toNat_sub_eight (by omega)
  have hadd : ∀ (k : BitVec 64) (n : Nat), k.toNat = n → n < 192 → (c.reg .rdi + k).toNat = P + n := by
    intro k n hk hn
    rw [BitVec.toNat_add, hP, hk, Nat.mod_eq_of_lt (by omega)]
  have p20 : (c.reg .rdi + 20 * 8).toNat = P + 160 := hadd _ _ rfl (by omega)
  have p21 : (c.reg .rdi + 21 * 8).toNat = P + 168 := hadd _ _ rfl (by omega)
  have p22 : (c.reg .rdi + 22 * 8).toNat = P + 176 := hadd _ _ rfl (by omega)
  have p23 : (c.reg .rdi + 23 * 8).toNat = P + 184 := hadd _ _ rfl (by omega)
  simp only [frameStores, pokes, a8, a16, a24, p20, p21, p22, p23, sub_eight_add] at hm
  rw [← hm]
  refine ⟨?_, ?_, ?_, ?_, ?_⟩
  · iterate 8 rw [load64_store64_ne _ (by omega)]
    rw [← hS]
    rfl
  · iterate 7 rw [load64_store64_ne _ (by omega)]
    exact load64_store64 _ _ _
  · iterate 5 rw [load64_store64_ne _ (by omega)]
    exact load64_store64 _ _ _
  · refine Words.store (a := P + 160) (Words.store (a := P + 168) (Words.store_ne ?_ ?_) _) _
    · exact Words.store (a := P + 176) (Words.store (a := P + 184) Words.nil _) _
    · simp only [List.length_cons, List.length_nil]
      omega
  · intro x hx hx'
    iterate 8 rw [store64_outside _ (by omega)]

theorem switchFrame_spec (h : Calling c S P) :
    Framed c (execAll switchFrame (execAll switchHead c)) S P := by
  obtain ⟨htop, hrbp, hrax, hwords, hmem⟩ := framePokes h rfl
  obtain ⟨rmem, rseg, rrsp, rrdi, rrax, rrbp, rreg⟩ := switchFrame_run c
  obtain ⟨hS, hP, hlow, hhigh, hroom, hap⟩ := h
  have a8 : (c.reg .rsp - 8).toNat = S - 8 := toNat_sub_eight (by omega)
  have a16 : (c.reg .rsp - 8 - 8).toNat = S - 16 := toNat_sub_eight (by omega)
  have p19 : (c.reg .rdi + 19 * 8).toNat = P + 152 := by
    rw [BitVec.toNat_add, hP, Nat.mod_eq_of_lt]
    · rfl
    · change P + 152 < 2 ^ 64
      omega
  rw [p19, hS, htop] at rmem
  rw [p19, hS, htop, a16, load64_store64_ne _ (by omega), hrax] at rrax
  rw [p19, hS, htop, a8, load64_store64_ne _ (by omega), hrbp] at rrbp
  constructor
  · intro r hr
    by_cases hdi : r = .rdi
    · rw [hdi, rrdi]
    by_cases hax : r = .rax
    · rw [hax, rrax]
    by_cases hbp : r = .rbp
    · rw [hbp, rrbp]
    exact rreg r hr hdi hax hbp
  · exact rseg
  · refine ⟨by rw [rrsp, p19], by simp only [List.length_cons, List.length_nil]; omega, ?_⟩
    rw [rmem]
    exact hwords.store (a := P + 152) _
  · intro x hx hx'
    rw [rmem, store64_outside _ (by omega), hmem x hx hx']

/-! ## The switch -/

/-- `*prev` is written, and the 24 bytes below the return address. -/
theorem switchSave_spec (h : Calling c S P) :
    let c' := execAll saveContext (execAll switchFrame (execAll switchHead c))
    Words c'.mem P (suspended c).words ∧ c'.reg .rsi = c.reg .rsi ∧
      ∀ x, (x < S - 24 ∨ S ≤ x) → (x < P ∨ P + 192 ≤ x) → c'.mem x = c.mem x := by
  have hf := switchFrame_spec h
  generalize execAll switchFrame (execAll switchHead c) = c₁ at hf
  obtain ⟨smem, srsp, srsi⟩ := saveContext_run c₁
  have hlen : (pushed c₁).length = 19 := rfl
  have hst : StackAt c₁ (P + 8 * (pushed c₁).length) _ := hf.stack
  refine ⟨?_, ?_, ?_⟩
  · rw [smem]
    have hw := hst.pushWords.words
    simpa [pushed, savedRegs, suspended, CpuContext.words, hf.reg, hf.seg] using hw
  · rw [srsi, hf.reg _ (by decide)]
  · intro x hx hx'
    rw [smem, pushWords_mem hst (by omega), hf.mem x hx (by omega)]

/-- The context in memory at `a`. -/
def contextAt (m : Nat → BitVec 8) (a : Nat) : CpuContext where
  gs := load64 m a
  fs := load64 m (a + 8)
  es := load64 m (a + 16)
  ds := load64 m (a + 24)
  r15 := load64 m (a + 32)
  r14 := load64 m (a + 40)
  r13 := load64 m (a + 48)
  r12 := load64 m (a + 56)
  r11 := load64 m (a + 64)
  r10 := load64 m (a + 72)
  r9 := load64 m (a + 80)
  r8 := load64 m (a + 88)
  rsi := load64 m (a + 96)
  rdi := load64 m (a + 104)
  rdx := load64 m (a + 112)
  rcx := load64 m (a + 120)
  rbx := load64 m (a + 128)
  rax := load64 m (a + 136)
  rbp := load64 m (a + 144)
  rip := load64 m (a + 152)
  cs := load64 m (a + 160)
  rflag := load64 m (a + 168)
  rsp := load64 m (a + 176)
  ss := load64 m (a + 184)

theorem words_contextAt (m : Nat → BitVec 8) (a : Nat) : Words m a (contextAt m a).words := by
  simp only [CpuContext.words, contextAt, Words, Nat.add_assoc, Nat.reduceAdd, and_self]

theorem CpuContext.words_injective {y : CpuContext} (h : x.words = y.words) : x = y := by
  cases x
  cases y
  simp only [CpuContext.words, List.cons.injEq, and_true] at h
  rw [CpuContext.mk.injEq]
  exact h

theorem contextAt_eq {m : Nat → BitVec 8} (h : Words m a x.words) : contextAt m a = x :=
  CpuContext.words_injective ((words_contextAt m a).eq h rfl)

theorem contextAt_congr {m m' : Nat → BitVec 8} (h : ∀ x, a ≤ x → x < a + 192 → m' x = m x) :
    contextAt m' a = contextAt m a :=
  contextAt_eq ((words_contextAt m a).congr h)

/-- `iretq` from the context that the stack pointer is at. -/
theorem loadContext_at (h : (c.reg .rsp).toNat = a) (hroom : a + 192 < 2 ^ 64) :
    (execAll loadContext c).iretq = resumed (contextAt c.mem a) c.mem := by
  have hst : StackAt c a ((contextAt c.mem a).words ++ []) := by
    rw [List.append_nil]
    exact ⟨h, hroom, words_contextAt c.mem a⟩
  exact loadContext_iretq hst

/-- The comparison. -/
theorem switchHead_zf (c : Cpu) : (execAll switchHead c).zf = decide (c.reg .rdi = 0) := by
  simp only [switchHead, execAll_cons, execAll_nil, exec_push, exec_mov, exec_pushfq, exec_cmpImm, zf_cmp,
    Cpu.reg_push, Cpu.reg_setReg, Function.update_of_ne, ne_eq, reduceCtorEq, not_false_eq_true]

theorem switchContext_of_null (h : c.reg .rdi = 0) :
    switchContext c = (execAll loadContext (exec (.mov .rsp .rsi) (execAll switchHead c))).iretq := by
  rw [switchContext, switchHead_zf, decide_eq_true h]
  rfl

theorem switchContext_of_ne (h : c.reg .rdi ≠ 0) :
    switchContext c = (execAll loadContext (exec (.mov .rsp .rsi)
      (execAll saveContext (execAll switchFrame (execAll switchHead c))))).iretq := by
  rw [switchContext, switchHead_zf, decide_eq_false h]
  rfl

/-- `LOADCONTEXT` and `iretq` behind `mov rsp, rsi`. -/
theorem load_next {N : Nat} (hN : (c.reg .rsi).toNat = N) (hroom : N + 192 < 2 ^ 64) :
    (execAll loadContext (exec (.mov .rsp .rsi) c)).iretq = resumed (contextAt c.mem N) c.mem := by
  have hat : ((exec (.mov .rsp .rsi) c).reg .rsp).toNat = N := by
    rw [exec_mov, Cpu.reg_setReg, Function.update_self, hN]
  have hmem : (exec (.mov .rsp .rsi) c).mem = c.mem := by rw [exec_mov, Cpu.mem_setReg]
  rw [loadContext_at hat hroom, hmem]

/-- `SwitchContext` with a context to save to: it is written, and the 24 bytes below the return
address; then `*next` is loaded as it is behind that. -/
theorem switchContext_save {N : Nat} (h : Calling c S P) (hP : P ≠ 0) (hN : (c.reg .rsi).toNat = N)
    (hroom : N + 192 < 2 ^ 64) : ∃ m, switchContext c = resumed (contextAt m N) m ∧
      contextAt m P = suspended c ∧
      ∀ x, (x < S - 24 ∨ S ≤ x) → (x < P ∨ P + 192 ≤ x) → m x = c.mem x := by
  have hrdi : c.reg .rdi ≠ 0 := by
    intro hz
    apply hP
    rw [← h.rdi, hz]
    rfl
  obtain ⟨hw, hrsi, hmem⟩ := switchSave_spec h
  rw [switchContext_of_ne hrdi]
  generalize execAll saveContext (execAll switchFrame (execAll switchHead c)) = c' at hw hrsi hmem
  exact ⟨c'.mem, load_next (by rw [hrsi, hN]) hroom, contextAt_eq hw, hmem⟩

/-- Without a context to save to. -/
theorem switchContext_null {N : Nat} (hz : c.reg .rdi = 0) (hS : (c.reg .rsp).toNat = S) (hlow : 16 ≤ S)
    (hN : (c.reg .rsi).toNat = N) (hroom : N + 192 < 2 ^ 64) :
    ∃ m, switchContext c = resumed (contextAt m N) m ∧ ∀ x, (x < S - 16 ∨ S ≤ x) → m x = c.mem x := by
  have hrsi : (execAll switchHead c).reg .rsi = c.reg .rsi := by
    simp only [switchHead, execAll_cons, execAll_nil, exec_push, exec_mov, exec_pushfq, exec_cmpImm,
      Cpu.reg_push, Cpu.reg_setReg, Cpu.reg_setStatus, Function.update_of_ne, ne_eq, reduceCtorEq,
      not_false_eq_true]
  have hmem : (execAll switchHead c).mem = store64 (store64 c.mem (c.reg .rsp - 8).toNat (c.reg .rbp))
      (c.reg .rsp - 8 - 8).toNat (c.flags &&& ~~~notPushed) := by
    simp only [switchHead, execAll_cons, execAll_nil, exec_push, exec_mov, exec_pushfq, exec_cmpImm,
      Cpu.reg_push, Cpu.reg_setReg, Cpu.mem_setStatus, Cpu.mem_push, Cpu.mem_setReg, Cpu.flags_push,
      Cpu.flags_setReg, Function.update_self, Function.update_of_ne, ne_eq, reduceCtorEq,
      not_false_eq_true]
  have a8 : (c.reg .rsp - 8).toNat = S - 8 := toNat_sub_eight (by omega)
  have a16 : (c.reg .rsp - 8 - 8).toNat = S - 16 := toNat_sub_eight (by omega)
  refine ⟨(execAll switchHead c).mem, ?_, ?_⟩
  · rw [switchContext_of_null hz, load_next (by rw [hrsi, hN]) hroom]
  · intro x hx
    rw [hmem, a8, a16, store64_outside _ (by omega), store64_outside _ (by omega)]

/-! ## The tasks in memory -/

/-- The contexts of the tasks of `ts`, which are at `loc`: none is at the null address, they are
apart, and the stack in use below `S` is apart from them. -/
structure Placed (loc : TaskPtr → Nat) (ts : List TaskPtr) (S : Nat) : Prop where
  pos : ∀ t ∈ ts, 0 < loc t
  room : ∀ t ∈ ts, loc t + 192 < 2 ^ 64
  apart : ∀ t ∈ ts, ∀ u ∈ ts, t ≠ u → loc t + 192 ≤ loc u ∨ loc u + 192 ≤ loc t
  stack : ∀ t ∈ ts, loc t + 192 ≤ S - 24 ∨ S + 8 ≤ loc t

/-- The contexts in memory are those of the tasks. -/
def InMemory (m : Nat → BitVec 8) (loc : TaskPtr → Nat) (ts : List TaskPtr) (s : Processes) : Prop :=
  ∀ t ∈ ts, contextAt m (loc t) = (s.task t).cpuContext

variable {loc : TaskPtr → Nat} {ts : List TaskPtr} {s : Processes}

/-- The code of `SwitchContext` does to the tasks in memory and to the processor what
`Processes.switchContext` says, also from a null `prev` and to `prev` itself. -/
theorem switchContext_refines {prev : Option TaskPtr} {next : TaskPtr} (hp : Placed loc ts S)
    (hm : InMemory c.mem loc ts s) (hprev : ∀ p, prev = some p → p ∈ ts) (hnext : next ∈ ts)
    (hS : (c.reg .rsp).toNat = S) (hlow : 24 ≤ S) (hhigh : S + 8 < 2 ^ 64)
    (hrdi : (c.reg .rdi).toNat = (prev.map loc).getD 0) (hrsi : (c.reg .rsi).toNat = loc next) :
    ∃ m, InMemory m loc ts (s.switchContext (suspended c) prev next).1 ∧
      switchContext c = resumed (s.switchContext (suspended c) prev next).2 m := by
  cases prev with
  | none =>
    have hz : c.reg .rdi = 0 := BitVec.eq_of_toNat_eq hrdi
    obtain ⟨m, hrun, hmem⟩ := switchContext_null hz hS (by omega) hrsi (hp.room next hnext)
    have hsame : InMemory m loc ts s := by
      intro t ht
      have hst := hp.stack t ht
      rw [← hm t ht]
      exact contextAt_congr fun x h1 h2 => hmem x (by omega)
    refine ⟨m, hsame, ?_⟩
    rw [hrun, hsame next hnext]
    rfl
  | some p =>
    have hpt : p ∈ ts := hprev p rfl
    have hcall : Calling c S (loc p) :=
      ⟨hS, hrdi, hlow, hhigh, hp.room p hpt, hp.stack p hpt⟩
    obtain ⟨m, hrun, hsave, hmem⟩ :=
      switchContext_save hcall (hp.pos p hpt).ne' hrsi (hp.room next hnext)
    have hsame : InMemory m loc ts (s.setContext p (suspended c)) := by
      intro t ht
      by_cases htp : t = p
      · rw [htp, hsave]
        simp [Processes.setContext, Processes.setTask]
      · have hst := hp.stack t ht
        have hap := hp.apart t ht p hpt htp
        rw [contextAt_congr fun x h1 h2 => hmem x (by omega) (by omega), hm t ht]
        simp [Processes.setContext, Processes.setTask, htp]
    refine ⟨m, hsame, ?_⟩
    rw [hrun, hsame next hnext]
    rfl

/-- From the first of two tasks to the second. -/
theorem switchContext_refines_two :
    let c : Cpu := ⟨fun | .rsp => 0x1000 | .rdi => 0x2000 | .rsi => 0x3000 | _ => 0, fun _ => 0x10, 0, 2,
      fun _ => 0⟩
    let task : Task := ⟨⟨none, none⟩, .ready, 0, 0, none, contextAt (fun _ => 0) 0⟩
    let s : Processes := ⟨fun _ => task, fun _ => ⟨none, none⟩⟩
    let loc : TaskPtr → Nat := fun t => 0x2000 + 0x1000 * t
    ∃ m, InMemory m loc [0, 1] (s.switchContext (suspended c) (some 0) 1).1 ∧
      switchContext c = resumed (s.switchContext (suspended c) (some 0) 1).2 m := by
  intro c task s loc
  have hp : Placed loc [0, 1] 0x1000 := by
    constructor
    all_goals simp [loc]
  have hm : InMemory c.mem loc [0, 1] s := fun _ _ => rfl
  exact switchContext_refines hp hm (by simp) (by simp) (by decide) (by omega) (by omega) (by decide)
    (by decide)

end Ps
end TorexOS
