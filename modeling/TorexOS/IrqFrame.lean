import TorexOS.Memcpy
import TorexOS.Switching

/-!
# TorexOS.IrqFrame

The entry and the exit of every interrupt, `arch/ISR.nasm`, and the frame that
`getContextInException` finds.

* `interruptEntry`: the processor and `KSAVECONTEXT`, up to the call of the handler.
* `interruptExit`: `KLOADCONTEXT` and `iretq` behind the call.
* `interruptEntry_frame`: at `IST_END - sizeof(cpuContext)` is the context of what was interrupted, as
  long as the processor pushes no error code.
* `switchFrames`: the two copies of `Task::switch_to_in_irq`.
-/

namespace TorexOS
namespace Ps

open X86 Packed Text Guarded

/-- `interrupt_handler_%1` up to `mov rdi, %1`. `IST[0]` is `IST_END`. -/
def interruptEntry (istEnd : BitVec 64) (c : Cpu) : Cpu := execAll saveContext (c.interrupt istEnd)

/-- `interrupt_handler_%1` behind the call. -/
def interruptExit (c : Cpu) : Cpu := (execAll loadContext c).iretq

/-- `getContextInException` -/
def getContextInException (istEnd : BitVec 64) : BitVec 64 := istEnd - 192

/-- The context of what is interrupted. -/
def interrupted (c : Cpu) : CpuContext where
  gs := (c.seg .gs).setWidth 64
  fs := (c.seg .fs).setWidth 64
  es := store (c.reg .rax) 0 (c.seg .es)
  ds := store (c.reg .rax) 0 (c.seg .ds)
  r15 := c.reg .r15
  r14 := c.reg .r14
  r13 := c.reg .r13
  r12 := c.reg .r12
  r11 := c.reg .r11
  r10 := c.reg .r10
  r9 := c.reg .r9
  r8 := c.reg .r8
  rsi := c.reg .rsi
  rdi := c.reg .rdi
  rdx := c.reg .rdx
  rcx := c.reg .rcx
  rbx := c.reg .rbx
  rax := c.reg .rax
  rbp := c.reg .rbp
  rip := c.rip
  cs := (c.seg .cs).setWidth 64
  rflag := c.flags
  rsp := c.reg .rsp
  ss := (c.seg .ss).setWidth 64

variable {c : Cpu} {istEnd : BitVec 64} {F : Nat}

/-- The stack of the interrupts ends at a multiple of 16 and has room for a frame. -/
structure IstAt (istEnd : BitVec 64) (F : Nat) : Prop where
  aligned : istEnd &&& ~~~15 = istEnd
  frame : istEnd.toNat = F + 192

theorem IstAt.getContextInException (h : IstAt istEnd F) :
    (getContextInException istEnd).toNat = F := by
  have hf := h.frame
  unfold Ps.getContextInException
  bv_omega

/-- The frame of the processor and what is pushed below it are one context. -/
theorem interruptEntry_frame (h : IstAt istEnd F) :
    ((interruptEntry istEnd c).reg .rsp).toNat = F ∧
      contextAt (interruptEntry istEnd c).mem F = interrupted c ∧
      ∀ x, (x < F ∨ F + 192 ≤ x) → (interruptEntry istEnd c).mem x = c.mem x := by
  have htop : (istEnd &&& ~~~15).toNat = F + 152 + 40 := by rw [h.aligned, h.frame]
  have hst : StackAt (c.interrupt istEnd) (F + 8 * (pushed (c.interrupt istEnd)).length) _ :=
    StackAt.interrupt htop
  have hreg : ∀ r, r ≠ .rsp → (c.interrupt istEnd).reg r = c.reg r := fun r hr => interrupt_reg hr
  have hseg : (c.interrupt istEnd).seg = c.seg := interrupt_seg
  have hlen : (pushed (c.interrupt istEnd)).length = 19 := rfl
  obtain ⟨smem, srsp, -⟩ := saveContext_run (c.interrupt istEnd)
  refine ⟨?_, contextAt_eq ?_, ?_⟩
  · rw [interruptEntry, srsp]
    exact hst.pushWords.rsp
  · rw [interruptEntry, smem]
    have hw := hst.pushWords.words
    simpa [pushed, savedRegs, interrupted, CpuContext.words, frameWords, hreg, hseg] using hw
  · intro x hx
    rw [interruptEntry, smem, pushWords_mem hst (by omega), interrupt_mem htop (by omega)]

/-- Whatever the handler did to the registers: the context that is in the frame goes on. -/
theorem interruptExit_resumed (hc : (c.reg .rsp).toNat = F) (hroom : F + 192 < 2 ^ 64) :
    interruptExit c = resumed (contextAt c.mem F) c.mem :=
  loadContext_at hc hroom

/-! ## The switch in a handler -/

/-- `text::memcpy(&cpu_context, cur, sizeof(cpuContext))`, then
`text::memcpy(cur, &after->cpu_context, sizeof(cpuContext))`. -/
def switchFrames (m : Bytes) (context cur after : Nat) : Option Bytes := do
  let m ← memcpy m context cur 192
  memcpy m cur after 192

variable {m : Bytes} {context after : Nat}

theorem contextAt_moved {d s : Nat} : contextAt (moved m d s 192) d = contextAt m s :=
  contextAt_eq ((words_contextAt m s).shift fun i hi => by
    rw [moved_apply, if_pos ⟨by omega, Nat.add_lt_add_left hi d⟩, Nat.add_sub_cancel_left])

/-- The frame goes to the task that was interrupted, and the context of the other one to the frame.
To switch to the same task leaves both with the frame. -/
theorem switchFrames_spec (h : Apart context F 192) (h' : Apart F after 192)
    (hne : after = context ∨ Apart context after 192) :
    ∃ m', switchFrames m context F after = some m' ∧ contextAt m' context = contextAt m F ∧
      contextAt m' F = (if after = context then contextAt m F else contextAt m after) ∧
      ∀ x, (x < context ∨ context + 192 ≤ x) → (x < F ∨ F + 192 ≤ x) → m' x = m x := by
  refine ⟨moved (moved m context F 192) F after 192, ?_, ?_, ?_, ?_⟩
  · rw [switchFrames, memcpy_moved m context F 192 h]
    exact memcpy_moved _ F after 192 h'
  · unfold Apart at h
    rw [contextAt_congr fun x _ _ => ?_, contextAt_moved]
    rw [moved_apply, if_neg (by omega)]
  · rw [contextAt_moved]
    by_cases heq : after = context
    · rw [if_pos heq, heq, contextAt_moved]
    · have hap := hne.resolve_left heq
      unfold Apart at hap
      rw [if_neg heq]
      refine contextAt_congr fun x _ _ => ?_
      rw [moved_apply, if_neg (by omega)]
  · intro x hx hx'
    rw [moved_apply, if_neg (by omega), moved_apply, if_neg (by omega)]

end Ps
end TorexOS
