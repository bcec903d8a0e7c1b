import TorexOS.Lib.I8259
import TorexOS.Pic8259

/-!
# TorexOS.IrqProtocol

The interrupt controllers, the processor and the kernel together: `IRQ_init` of `arch/interrupt.cpp`,
`maskInterrupt`, and a handler from its vector to `sendEOI` and `iretq`.

* `picWrite`: what a write of `pic8259.cpp` does to the two chips.
* `irqSystem`: requests, acknowledgements, the writes one by one, and the ends of handlers and calls, in
  any order. `table` says which stubs of `ISR.nasm` are of an interrupt; the others go to `ISRCommon`.
* `InService`: what is in service, from where the processor is.
* `irq_protocol`: every request is delivered once, with its own vector and in the order of the lines, and
  never waits for the end of an interrupt that is over.
-/

namespace TorexOS
namespace Pic8259

open I8259 Transition

/-- The slave is at `IRQ2`. -/
def slaveLine : Fin 8 := ⟨2, by omega⟩

/-- A step of a call, as the chips see it. -/
def picWrite (p : Pair) : Step → Pair
  | .outbyte port val =>
    if port = masterCommand then { p with master := p.master.command val }
    else if port = masterData then { p with master := p.master.data val }
    else if port = slaveCommand then { p with slave := p.slave.command val }
    else if port = slaveData then { p with slave := p.slave.data val }
    else p
  | _ => p

def irqStart : BitVec 8 := 32

/-- `IRQ_init` -/
def irqInit (p : Pair) : Pair := (initializePic irqStart ++ maskInterrupt 0).foldl picWrite p

/-- `num - irq_start` -/
def irqNumber (num : BitVec 8) : BitVec 32 := (num - irqStart).setWidth 32

/-- Where the processor is: in a task, with its interrupt flag; in a call of `maskInterrupt`; in a
handler, before the writes that are left; or in `ISRCommon`, for good. -/
inductive Cpu where
  | code (flag : Bool)
  | locked (flag : Bool) (rest : List Step)
  | handler (num : BitVec 8) (rest : List Step)
  | isrCommon (num : BitVec 8)

/-- With the requests of each line, and how often each vector was taken. -/
structure IrqRun where
  pics : Pair
  cpu : Cpu
  raised : Line → Nat
  entered : BitVec 8 → Nat

inductive IrqEvent where
  | raise (l : Line)
  | accept
  | access
  | leave
  | setFlag (flag : Bool)
  | mask (irqBitmask : BitVec 16)

/-- A line that requests already does not count again. -/
def IrqRun.raise (s : IrqRun) (l : Line) : IrqRun :=
  { s with
    pics := s.pics.raise l
    raised := if s.pics.requested l then s.raised else Function.update s.raised l (s.raised l + 1) }

/-- The way to a handler. The flag stays clear until `iretq`. -/
def IrqRun.accept (table : BitVec 8 → Bool) (s : IrqRun) : IrqRun :=
  let (pics, num) := s.pics.acknowledge slaveLine
  { s with
    pics := pics
    cpu := if table num then .handler num (sendEOI (irqNumber num)) else .isrCommon num
    entered := Function.update s.entered num (s.entered num + 1) }

def IrqRun.step (table : BitVec 8 → Bool) (s : IrqRun) : IrqEvent → Option IrqRun
  | .raise l => some (s.raise l)
  | .accept =>
    match s.cpu with
    | .code true => some (s.accept table)
    | _ => none
  | .access =>
    match s.cpu with
    | .locked flag (st :: rest) => some { s with pics := picWrite s.pics st, cpu := .locked flag rest }
    | .handler num (st :: rest) => some { s with pics := picWrite s.pics st, cpu := .handler num rest }
    | _ => none
  | .leave =>
    match s.cpu with
    | .locked flag [] => some { s with cpu := .code flag }
    | .handler _ [] => some { s with cpu := .code true }
    | _ => none
  | .setFlag flag =>
    match s.cpu with
    | .code _ => some { s with cpu := .code flag }
    | _ => none
  | .mask irqBitmask =>
    match s.cpu with
    | .code flag => some { s with cpu := .locked flag (maskInterrupt irqBitmask) }
    | _ => none

/-- Every state after `IRQ_init`. A device is at any line but the slave's, and the processor
acknowledges what it is asked to. -/
def irqSystem (table : BitVec 8 → Bool) : System IrqRun IrqEvent where
  init s := ∃ p, s = ⟨irqInit p, .code false, fun _ => 0, fun _ => 0⟩
  legal s
    | .raise l => l ≠ .inl slaveLine
    | .accept => (s.pics.wired slaveLine).next.isSome = true
    | _ => True
  step s e := s.step table e

/-- The vector of a line. -/
def irqVector : Line → BitVec 8
  | .inl i => irqStart + BitVec.ofNat 8 i
  | .inr j => irqStart + 8 + BitVec.ofNat 8 j

/-- What is in service while the writes of `sendEOI` are left. -/
inductive Ending (p : Pair) (num : BitVec 8) : List Step → Prop where
  | master (i : Fin 8) : num = irqVector (.inl i) → p.Serves slaveLine (some (.inl i)) →
      Ending p num [.outbyte masterCommand 0x20]
  | both (j : Fin 8) : num = irqVector (.inr j) → p.Serves slaveLine (some (.inr j)) →
      Ending p num [.outbyte masterCommand 0x20, .outbyte slaveCommand 0x20]
  | slave (j : Fin 8) : num = irqVector (.inr j) → p.master.Serves [] → p.slave.Serves [j] →
      Ending p num [.outbyte slaveCommand 0x20]
  | done : p.Serves slaveLine none → Ending p num []

/-- A write to a mask. -/
def Step.isMask : Step → Prop
  | .outbyte port _ => port = masterData ∨ port = slaveData
  | _ => False

def Cpu.InService (p : Pair) : Cpu → Prop
  | .code _ => p.Serves slaveLine none
  | .locked _ rest => p.Serves slaveLine none ∧ ∀ st ∈ rest, st.isMask
  | .handler num rest => Ending p num rest
  | .isrCommon num => ∃ l, num = irqVector l ∧ p.Serves slaveLine (some l)

/-- What every step keeps. -/
structure IrqRun.Inv (s : IrqRun) : Prop where
  configured : s.pics.Configured slaveLine
  vectors : s.pics.vectorOf = irqVector
  service : s.cpu.InService s.pics
  counts : ∀ l, l ≠ .inl slaveLine →
    s.raised l = s.entered (irqVector l) + if s.pics.requested l then 1 else 0

variable {p : Pair} {s t : IrqRun} {l k : Line} {table : BitVec 8 → Bool} {st : Step} {rest : List Step}

theorem irqInit_eq (p : Pair) : irqInit p =
    ⟨⟨fun _ => false, fun _ => false, 0, 32, 0x11, 4, 1, .ready⟩,
      ⟨fun _ => false, fun _ => false, 0, 40, 0x11, 2, 1, .ready⟩⟩ := by
  simp [irqInit, initializePic, maskInterrupt, picWrite, Chip.command, Chip.data, masterCommand,
    masterData, slaveCommand, slaveData, icw1Init, icw1Icw4, icw4_8086, irqStart]

theorem inv_init (p : Pair) : IrqRun.Inv ⟨irqInit p, .code false, fun _ => 0, fun _ => 0⟩ := by
  rw [irqInit_eq]
  refine ⟨⟨rfl, rfl, rfl, rfl, by decide⟩, ?_, ⟨fun _ => rfl, fun _ => rfl⟩, fun l _ => ?_⟩
  · funext l
    cases l <;> rfl
  · cases l <;> rfl

theorem toNat_irqVector (l : Line) :
    (irqVector l).toNat = match l with | .inl i => 32 + i.val | .inr j => 40 + j.val := by
  cases l with
  | inl i => revert i; decide
  | inr j => revert j; decide

theorem irqVector_inj (h : irqVector l = irqVector k) : l = k := by
  have ht := congrArg BitVec.toNat h
  rw [toNat_irqVector, toNat_irqVector] at ht
  cases l <;> cases k <;> simp only at ht
  · exact congrArg Sum.inl (Fin.ext (by omega))
  · omega
  · omega
  · exact congrArg Sum.inr (Fin.ext (by omega))

/-! ## The writes -/

/-- Writes to a mask, and ends of an interrupt, touch neither the requests nor the configuration. -/
structure Quiet (p q : Pair) : Prop where
  configured : q.Configured slaveLine
  requested : q.requested = p.requested
  vectors : q.vectorOf = p.vectorOf

theorem Quiet.of_master (hc : p.Configured slaveLine) (isr : Fin 8 → Bool) (imr : BitVec 8) :
    Quiet p { p with master := { p.master with isr := isr, imr := imr } } := by
  refine ⟨⟨hc.master_ready, hc.slave_ready, hc.master_normal, hc.slave_normal, hc.joined⟩, ?_, ?_⟩
  · funext l
    cases l <;> rfl
  · funext l
    cases l <;> rfl

theorem Quiet.of_slave (hc : p.Configured slaveLine) (isr : Fin 8 → Bool) (imr : BitVec 8) :
    Quiet p { p with slave := { p.slave with isr := isr, imr := imr } } := by
  refine ⟨⟨hc.master_ready, hc.slave_ready, hc.master_normal, hc.slave_normal, hc.joined⟩, ?_, ?_⟩
  · funext l
    cases l <;> rfl
  · funext l
    cases l <;> rfl

/-- Outside the initialisation the data port is the mask. -/
theorem picWrite_mask (hc : p.Configured slaveLine) (hs : p.Serves slaveLine none) (h : st.isMask) :
    Quiet p (picWrite p st) ∧ (picWrite p st).Serves slaveLine none := by
  cases st with
  | outbyte port val =>
    rcases h with rfl | rfl
    · have hw : picWrite p (.outbyte masterData val) = { p with master := p.master.data val } := rfl
      rw [hw, Chip.data_ready hc.master_ready]
      exact ⟨Quiet.of_master hc p.master.isr val, hs⟩
    · have hw : picWrite p (.outbyte slaveData val) = { p with slave := p.slave.data val } := rfl
      rw [hw, Chip.data_ready hc.slave_ready]
      exact ⟨Quiet.of_slave hc p.slave.isr val, hs⟩
  | _ => cases h

/-- A write of `sendEOI` ends what is in service at the chip it goes to. -/
theorem picWrite_end {num : BitVec 8} (hc : p.Configured slaveLine) (h : Ending p num (st :: rest)) :
    Quiet p (picWrite p st) ∧ Ending (picWrite p st) num rest := by
  obtain ⟨misr, hm⟩ := p.master.endOfInterrupt_eq
  obtain ⟨sisr, hsl⟩ := p.slave.endOfInterrupt_eq
  have hmaster : picWrite p (.outbyte masterCommand 0x20) = { p with master := p.master.endOfInterrupt } := rfl
  have hslave : picWrite p (.outbyte slaveCommand 0x20) = { p with slave := p.slave.endOfInterrupt } := rfl
  have hqm : Quiet p { p with master := p.master.endOfInterrupt } := by
    rw [hm]
    exact Quiet.of_master hc misr p.master.imr
  have hqs : Quiet p { p with slave := p.slave.endOfInterrupt } := by
    rw [hsl]
    exact Quiet.of_slave hc sisr p.slave.imr
  cases h with
  | master i hi hs =>
    rw [hmaster]
    exact ⟨hqm, .done ⟨hs.1.end_one, hs.2⟩⟩
  | both j hj hs =>
    rw [hmaster]
    exact ⟨hqm, .slave j hj hs.1.end_one hs.2⟩
  | slave j hj hm hs =>
    rw [hslave]
    exact ⟨hqs, .done ⟨hm, hs.end_one⟩⟩

theorem IrqRun.Inv.quiet {q : Pair} {cpu : Cpu} (h : s.Inv) (hq : Quiet s.pics q)
    (hcpu : cpu.InService q) : IrqRun.Inv { s with pics := q, cpu := cpu } :=
  ⟨hq.configured, hq.vectors.trans h.vectors, hcpu, fun l hl => by
    rw [h.counts l hl, hq.requested]⟩

/-! ## Requests and acknowledgements -/

theorem requested_raise (p : Pair) (l k : Line) :
    (p.raise l).requested k = if k = l then true else p.requested k := by
  cases l <;> cases k <;> simp [Pair.raise, Pair.requested, Chip.raise, Function.update_apply]

theorem isr_raise (p : Pair) (l : Line) :
    (p.raise l).master.isr = p.master.isr ∧ (p.raise l).slave.isr = p.slave.isr := by
  cases l <;> exact ⟨rfl, rfl⟩

theorem Cpu.InService.raise {cpu : Cpu} (h : cpu.InService p) (l : Line) : cpu.InService (p.raise l) := by
  obtain ⟨hm, hs⟩ := isr_raise p l
  have hserves : ∀ o, p.Serves slaveLine o → (p.raise l).Serves slaveLine o :=
    fun _ h => Pair.Serves.congr hm hs h
  cases cpu with
  | code => exact hserves none h
  | locked => exact ⟨hserves none h.1, h.2⟩
  | handler =>
    cases h with
    | master i hi h => exact .master i hi (hserves _ h)
    | both j hj h => exact .both j hj (hserves _ h)
    | slave j hj hmaster hslave =>
      exact .slave j hj (fun k => by rw [hm, hmaster k]) fun k => by rw [hs, hslave k]
    | done h => exact .done (hserves _ h)
  | isrCommon =>
    obtain ⟨k, hk, h⟩ := h
    exact ⟨k, hk, hserves _ h⟩

theorem IrqRun.Inv.raise (h : s.Inv) (l : Line) : (s.raise l).Inv := by
  have hc := h.configured
  refine ⟨?_, ?_, h.service.raise l, fun k hk => ?_⟩
  · cases l <;> exact ⟨hc.master_ready, hc.slave_ready, hc.master_normal, hc.slave_normal, hc.joined⟩
  · rw [← h.vectors]
    cases l <;> rfl
  · have hcount := h.counts k hk
    unfold IrqRun.raise
    dsimp only
    rw [requested_raise]
    by_cases hkl : k = l
    · subst hkl
      cases hreq : s.pics.requested k with
      | true =>
        rw [hreq] at hcount
        simpa using hcount
      | false =>
        rw [hreq] at hcount
        simpa using hcount
    · rw [if_neg hkl, ← hcount]
      split
      · rfl
      · exact Function.update_of_ne hkl _ _

/-- What `sendEOI` writes after the vector of a line is what ends it. -/
theorem ending_of_serves {q : Pair} (l : Line) (hs : q.Serves slaveLine (some l)) :
    Ending q (irqVector l) (sendEOI (irqNumber (irqVector l))) := by
  have hinl : ∀ i, sendEOI (irqNumber (irqVector (.inl i))) = [.outbyte masterCommand 0x20] := by decide
  have hinr : ∀ j, sendEOI (irqNumber (irqVector (.inr j))) =
      [.outbyte masterCommand 0x20, .outbyte slaveCommand 0x20] := by decide
  cases l with
  | inl i =>
    rw [hinl]
    exact .master i rfl hs
  | inr j =>
    rw [hinr]
    exact .both j rfl hs

theorem IrqRun.Inv.accept (h : s.Inv) (table : BitVec 8 → Bool) (hs : s.pics.Serves slaveLine none)
    (hpin : (s.pics.wired slaveLine).next.isSome = true) :
    (s.accept table).Inv ∧ ∃ l q, s.pics.acknowledge slaveLine = (q, irqVector l) ∧
      Pair.Delivers slaveLine s.pics q l := by
  obtain ⟨l, q, hack, hd⟩ := Pair.acknowledge_delivers h.configured hs hpin
  rw [h.vectors] at hack
  refine ⟨?_, l, q, hack, hd⟩
  unfold IrqRun.accept
  rw [hack]
  refine ⟨hd.configured, hd.vectors.trans h.vectors, ?_, fun k hk => ?_⟩
  · dsimp only
    split
    · exact ending_of_serves l hd.serves
    · exact ⟨l, rfl, hd.serves⟩
  · dsimp only
    rw [hd.others k hk, h.counts k hk]
    by_cases hkl : k = l
    · subst hkl
      simp [hd.requested]
    · rw [if_neg hkl, Function.update_of_ne fun he => hkl (irqVector_inj he)]

/-! ## Runs -/

theorem inv_step (h : s.Inv) {e : IrqEvent} (hl : (irqSystem table).legal s e)
    (hs : s.step table e = some t) : t.Inv := by
  cases e with
  | raise l =>
    cases hs
    exact h.raise l
  | accept =>
    simp only [IrqRun.step] at hs
    split at hs
    · rename_i hcpu
      cases hs
      have hserv := h.service
      rw [hcpu] at hserv
      exact (h.accept table hserv hl).1
    · cases hs
  | access =>
    simp only [IrqRun.step] at hs
    have hserv := h.service
    split at hs
    · rename_i flag st rest hcpu
      cases hs
      rw [hcpu] at hserv
      obtain ⟨hidle, hmask⟩ := hserv
      obtain ⟨hq, hidle'⟩ := picWrite_mask h.configured hidle (hmask st List.mem_cons_self)
      exact h.quiet hq ⟨hidle', fun x hx => hmask x (List.mem_cons_of_mem _ hx)⟩
    · rename_i num st rest hcpu
      cases hs
      rw [hcpu] at hserv
      obtain ⟨hq, hend⟩ := picWrite_end h.configured hserv
      exact h.quiet hq hend
    · cases hs
  | leave =>
    simp only [IrqRun.step] at hs
    have hserv := h.service
    split at hs
    · rename_i flag hcpu
      cases hs
      rw [hcpu] at hserv
      exact ⟨h.configured, h.vectors, hserv.1, h.counts⟩
    · rename_i num hcpu
      cases hs
      rw [hcpu] at hserv
      cases hserv with
      | done hidle => exact ⟨h.configured, h.vectors, hidle, h.counts⟩
    · cases hs
  | setFlag flag =>
    simp only [IrqRun.step] at hs
    have hserv := h.service
    split at hs
    · rename_i hcpu
      cases hs
      rw [hcpu] at hserv
      exact ⟨h.configured, h.vectors, hserv, h.counts⟩
    · cases hs
  | mask irqBitmask =>
    simp only [IrqRun.step] at hs
    have hserv := h.service
    split at hs
    · rename_i hcpu
      cases hs
      rw [hcpu] at hserv
      refine ⟨h.configured, h.vectors, ⟨hserv, fun st hst => ?_⟩, h.counts⟩
      simp only [maskInterrupt, List.mem_cons, List.not_mem_nil, or_false] at hst
      rcases hst with rfl | rfl
      · exact .inl rfl
      · exact .inr rfl
    · cases hs

theorem inv_reach (h : Reach (irqSystem table) (fun _ _ => True) s) : s.Inv := by
  refine h.invariant (fun s hs => ?_) fun s t e hi hl _ hst => inv_step hi hl hst
  obtain ⟨p, rfl⟩ := hs
  exact inv_init p

/-- What holds of a state reached. -/
structure Protocol (table : BitVec 8 → Bool) (s : IrqRun) : Prop where
  /-- Each request was delivered once, with its own vector, or waits. -/
  counts : ∀ l, l ≠ .inl slaveLine →
    s.raised l = s.entered (irqVector l) + if s.pics.requested l then 1 else 0
  service : s.cpu.InService s.pics
  /-- A task that lets interrupts in gets the first of the requests that are not masked. -/
  first : s.cpu = .code true →
    (∃ l, l ≠ .inl slaveLine ∧ s.pics.requested l = true ∧ s.pics.unmasked slaveLine l = true) →
    ∃ l t, (irqSystem table).legal s .accept ∧ s.step table .accept = some t ∧
      (s.pics.requested l = true ∧ s.pics.unmasked slaveLine l = true) ∧
      (∀ k, k ≠ .inl slaveLine → s.pics.requested k = true → s.pics.unmasked slaveLine k = true →
        Pair.rank slaveLine l ≤ Pair.rank slaveLine k) ∧
      t.cpu = if table (irqVector l) then .handler (irqVector l) (sendEOI (irqNumber (irqVector l)))
        else .isrCommon (irqVector l)

/-- Over every run: no request is lost, delivered twice or kept waiting by a handler that is left. -/
theorem irq_protocol (table : BitVec 8 → Bool) {s : IrqRun}
    (h : Reach (irqSystem table) (fun _ _ => True) s) : Protocol table s := by
  have hi := inv_reach h
  refine ⟨hi.counts, hi.service, fun hcpu hreq => ?_⟩
  have hserv := hi.service
  rw [hcpu] at hserv
  have hpin := (Pair.pin_iff hi.configured hserv).mpr hreq
  obtain ⟨-, l, q, hack, hd⟩ := hi.accept table hserv hpin
  refine ⟨l, s.accept table, hpin, by rw [IrqRun.step, hcpu], ⟨hd.requested, hd.unmasked⟩, hd.first, ?_⟩
  rw [IrqRun.accept, hack]

/-- The stubs of `ISR_do_Timer_IRQ` and `ISR_do_IRQ`. -/
def isrTable (num : BitVec 8) : Bool := num = 32 || num = 33

/-- Two chips in some state. -/
def strayChips : Pair :=
  ⟨⟨fun _ => true, fun _ => true, 0, 8, 0, 0, 0, .ready⟩, ⟨fun _ => true, fun _ => true, 0, 112, 0, 0, 0, .icw3⟩⟩

/-- After `IRQ_init`, with a request of the timer. -/
def timerRequest : IrqRun :=
  { IrqRun.raise ⟨irqInit strayChips, .code false, fun _ => 0, fun _ => 0⟩ (.inl ⟨0, by omega⟩) with cpu := .code true }

theorem irq_protocol_timer : Protocol isrTable timerRequest := by
  have hinit : Reach (irqSystem isrTable) (fun _ _ => True)
      ⟨irqInit strayChips, .code false, fun _ => 0, fun _ => 0⟩ := .init ⟨strayChips, rfl⟩
  have hraise := hinit.step (i := IrqEvent.raise (.inl ⟨0, by omega⟩))
    (show (.inl ⟨0, by omega⟩ : Line) ≠ .inl slaveLine by decide) trivial rfl
  exact irq_protocol isrTable (hraise.step (i := IrqEvent.setFlag true) trivial trivial rfl)

end Pic8259
end TorexOS
