import TorexOS.Lib.Buffers
import Mathlib.Data.BitVec
import Mathlib.Tactic.Ring

/-!
# TorexOS.LoadKernel

The loading of the kernel from disk, `LoadKenerl` in `stage2.s`.

* `Bios`: what `int 0x13` answers to an extended read, given the reads before it.
* `pass`: once through the loop, with the registers it keeps, the packet's address and memory.
* `copyLoop_eq`: the byte by byte loop copies the run.
* `Progress`: after `d` sectors, where the next read is and what is in memory.
* `load_kernel`: of a kernel that ends below 4 GiB every sector is loaded, and requested again only
  where it was not delivered.
-/

namespace TorexOS
namespace Bootsect

open Buffers

def stage2Size : Nat := 0x800
def diskBufferAddress : Nat := 0x2000
def diskBufferSize : Nat := 0x1000
def kernelLoadedAddress : Nat := 0x100000

/-- The first sector of the kernel. -/
def kernelSector : Nat := (512 + stage2Size) / 512

/-- The packet: `DAPACK.addr` and `DAPACK.count`. Its buffer is `diskBufferAddress`. -/
structure Request where
  addr : BitVec 64
  count : BitVec 16
  deriving DecidableEq

/-- A read fails or delivers a number of sectors, which depends on the reads before it. -/
structure Bios where
  answer : List Request → Request → Option (BitVec 16)
  delivers : ∀ past r k, answer past r = some k → 1 ≤ k.toNat ∧ k.toNat ≤ r.count.toNat

/-- A read and its answer. -/
structure Call where
  request : Request
  answer : Option (BitVec 16)
  deriving DecidableEq

/-- At `.loop`. The code and the packet are outside `mem`. -/
structure Loader where
  ebx : BitVec 32
  edi : BitVec 32
  addr : BitVec 64
  mem : Nat → BitVec 8
  calls : List Call

/-- `.copylp`, with `n` iterations left. -/
def copyLoop (mem : Nat → BitVec 8) (edi esi : BitVec 32) : Nat → (Nat → BitVec 8) × BitVec 32
  | 0 => (mem, edi)
  | n + 1 => copyLoop (Function.update mem edi.toNat (mem esi.toNat)) (edi + 1) (esi + 1) n

/-- `loop` decrements before it tests. -/
def loopCount (cx : BitVec 16) : Nat := if cx = 0 then 2 ^ 16 else cx.toNat

/-- Where a pass ends. -/
inductive Pass where
  | loadKernelError (s : Loader)
  | loadingSuccess (s : Loader)
  | loop (s : Loader)

/-- `mov eax, (disk_buffer_size / 512)`, `cmp ebx, eax`, `cmovb eax, ebx` -/
def chunk (ebx : BitVec 32) : BitVec 32 :=
  let eax := BitVec.ofNat 32 (diskBufferSize / 512)
  if ebx < eax then ebx else eax

def pass (bios : Bios) (disk : Nat → BitVec 8) (s : Loader) : Pass :=
  let request : Request := ⟨s.addr, (chunk s.ebx).setWidth 16⟩
  match bios.answer (s.calls.map Call.request) request with
  | none => .loadKernelError { s with calls := s.calls ++ [⟨request, none⟩] }
  | some count =>
    let mem := overlay s.mem diskBufferAddress
      (read disk (512 * request.addr.toNat) (512 * count.toNat))
    let edx := s.addr.setWidth 32
    let ecx := count.setWidth 32 <<< 9
    let (mem, edi) :=
      copyLoop mem s.edi (BitVec.ofNat 32 diskBufferAddress) (loopCount (ecx.setWidth 16))
    let edx := edx + count.setWidth 32
    let ebx := s.ebx - count.setWidth 32
    -- the upper half of the address in the packet is not written
    let addr := s.addr.extractLsb' 32 32 ++ edx
    let s : Loader := ⟨ebx, edi, addr, mem, s.calls ++ [⟨request, some count⟩]⟩
    if ebx = 0 then .loadingSuccess s else .loop s

/-- `.loop`; an error is `.LoadKernelError`. -/
def loadLoop (bios : Bios) (disk : Nat → BitVec 8) : Nat → Loader → Option (Except Loader Loader)
  | 0, _ => none
  | fuel + 1, s =>
    match pass bios disk s with
    | .loadKernelError s => some (.error s)
    | .loadingSuccess s => some (.ok s)
    | .loop s => loadLoop bios disk fuel s

/-- Before `.loop`, for a kernel of this size. -/
def loadKernel (size : Nat) (mem : Nat → BitVec 8) : Loader where
  ebx := BitVec.ofNat 32 (size / 512)
  edi := BitVec.ofNat 32 kernelLoadedAddress
  addr := BitVec.ofNat 64 kernelSector
  mem := mem
  calls := []

/-! ## What is loaded -/

def Call.requests (c : Call) (x : Nat) : Prop :=
  c.request.addr.toNat ≤ x ∧ x < c.request.addr.toNat + c.request.count.toNat

def Call.delivered (c : Call) : Nat := (c.answer.map BitVec.toNat).getD 0

def Call.delivers (c : Call) (x : Nat) : Prop :=
  c.request.addr.toNat ≤ x ∧ x < c.request.addr.toNat + c.delivered

/-- Only sectors of the kernel are requested, and none after it was delivered. -/
structure RequestsOnce (sectors : Nat) (calls : List Call) : Prop where
  inside : ∀ c ∈ calls, ∀ x, c.requests x → kernelSector ≤ x ∧ x < kernelSector + sectors
  once : calls.Pairwise fun c d => ∀ x, c.delivers x → ¬ d.requests x

/-- The kernel's bytes are in memory. -/
def Loaded (disk : Nat → BitVec 8) (size : Nat) (mem : Nat → BitVec 8) : Prop :=
  ∀ i < size, mem (kernelLoadedAddress + i) = disk (512 * kernelSector + i)

/-- A read that fails. -/
def Call.Fails (c : Call) : Prop := c.answer = none

/-- The loop ends, and unless a read fails the kernel is loaded. -/
def Loads (bios : Bios) (disk : Nat → BitVec 8) (size : Nat) (mem : Nat → BitVec 8) : Prop :=
  ∃ fuel r, loadLoop bios disk fuel (loadKernel size mem) = some r ∧
    match r with
    | .error s => RequestsOnce (size / 512) s.calls ∧ ∃ c ∈ s.calls, c.Fails
    | .ok s => RequestsOnce (size / 512) s.calls ∧ Loaded disk size s.mem

/-! ## The copy -/

section Copy

variable {mem : Nat → BitVec 8} {dst src n : Nat}

/-- The loop copies a run that is not reached by the copy. -/
theorem copyLoop_eq (hdst : dst + n ≤ 2 ^ 32) (hsrc : src + n ≤ dst) :
    copyLoop mem (BitVec.ofNat 32 dst) (BitVec.ofNat 32 src) n =
      (overlay mem dst (read mem src n), BitVec.ofNat 32 (dst + n)) := by
  induction n generalizing mem dst src with
  | zero => simp [copyLoop]
  | succ n ih =>
    have hd : (BitVec.ofNat 32 dst).toNat = dst := by rw [BitVec.toNat_ofNat]; omega
    have hs : (BitVec.ofNat 32 src).toNat = src := by rw [BitVec.toNat_ofNat]; omega
    have hrest : read (Function.update mem dst (mem src)) (src + 1) n = read mem (src + 1) n :=
      read_congr fun i _ _ => Function.update_of_ne (by omega) _ _
    have hd1 : BitVec.ofNat 32 dst + 1 = BitVec.ofNat 32 (dst + 1) := (BitVec.ofNat_add dst 1).symm
    have hs1 : BitVec.ofNat 32 src + 1 = BitVec.ofNat 32 (src + 1) := (BitVec.ofNat_add src 1).symm
    rw [copyLoop, hd, hs, hd1, hs1, ih (by omega) (by omega), hrest, read_succ, overlay_cons,
      Nat.add_assoc dst 1 n, Nat.add_comm 1 n]

/-- The counter of the copy, for a read of at most eight sectors. -/
theorem loopCount_eq {count : BitVec 16} (h1 : 1 ≤ count.toNat) (h8 : count.toNat ≤ 8) :
    loopCount ((count.setWidth 32 <<< 9).setWidth 16) = 512 * count.toNat := by
  have hcx : ((count.setWidth 32 <<< 9).setWidth 16).toNat = 512 * count.toNat := by
    rw [BitVec.toNat_setWidth, BitVec.toNat_shiftLeft, BitVec.toNat_setWidth, Nat.shiftLeft_eq]
    omega
  have hne : (count.setWidth 32 <<< 9).setWidth 16 ≠ 0 := by
    intro h0
    rw [h0] at hcx
    have hz : (0 : BitVec 16).toNat = 0 := rfl
    omega
  rw [loopCount, if_neg hne, hcx]

end Copy

/-! ## The loop -/

section Loop

variable {bios : Bios} {disk mem : Nat → BitVec 8} {s : Loader} {n d : Nat} {c : Call}

/-- At `.loop`, `d` of `n` sectors are loaded and the next read is behind them. -/
structure Progress (disk : Nat → BitVec 8) (n d : Nat) (s : Loader) : Prop where
  ebx : s.ebx = BitVec.ofNat 32 (n - d)
  edi : s.edi = BitVec.ofNat 32 (kernelLoadedAddress + 512 * d)
  addr : s.addr = BitVec.ofNat 64 (kernelSector + d)
  loaded : read s.mem kernelLoadedAddress (512 * d) = read disk (512 * kernelSector) (512 * d)
  once : RequestsOnce n s.calls
  below : ∀ c ∈ s.calls, c.request.addr.toNat + c.delivered ≤ kernelSector + d

theorem Progress.start (disk mem : Nat → BitVec 8) (size : Nat) :
    Progress disk (size / 512) 0 (loadKernel size mem) where
  ebx := rfl
  edi := rfl
  addr := rfl
  loaded := rfl
  once := ⟨fun _ hc => absurd hc List.not_mem_nil, List.Pairwise.nil⟩
  below := fun _ hc => absurd hc List.not_mem_nil

/-- A read behind everything delivered. -/
theorem Progress.once_append (h : Progress disk n d s)
    (haddr : c.request.addr.toNat = kernelSector + d) (hc : d + c.request.count.toNat ≤ n) :
    RequestsOnce n (s.calls ++ [c]) where
  inside := by
    intro e he x hx
    rcases List.mem_append.mp he with he | he
    · exact h.once.inside e he x hx
    · obtain rfl := List.mem_singleton.mp he
      obtain ⟨hlo, hhi⟩ := hx
      omega
  once := by
    refine List.pairwise_append.mpr ⟨h.once.once, List.pairwise_singleton _ _, ?_⟩
    intro e he f hf x hx hreq
    obtain rfl := List.mem_singleton.mp hf
    have hb := h.below e he
    have hlo := hreq.1
    have hhi := hx.2
    omega

/-- What is asked for: eight sectors, or what is left. -/
theorem toNat_chunk {r : Nat} (hr : r < 2 ^ 32) :
    ((chunk (BitVec.ofNat 32 r)).setWidth 16).toNat = min 8 r := by
  have h8 : (BitVec.ofNat 32 (diskBufferSize / 512)).toNat = 8 := rfl
  have hrn : (BitVec.ofNat 32 r).toNat = r := by
    rw [BitVec.toNat_ofNat]
    omega
  rw [chunk, BitVec.toNat_setWidth]
  by_cases hlt : r < 8
  · rw [if_pos (by rw [BitVec.lt_def, hrn, h8]; exact hlt), hrn]
    omega
  · rw [if_neg (by rw [BitVec.lt_def, hrn, h8]; exact hlt), h8]
    omega

/-- The packet's address is written in its lower half. -/
theorem addr_add {a k : Nat} (h : a + k < 2 ^ 32) (count : BitVec 16) (hk : count.toNat = k) :
    (BitVec.ofNat 64 a).extractLsb' 32 32 ++
        ((BitVec.ofNat 64 a).setWidth 32 + count.setWidth 32) =
      BitVec.ofNat 64 (a + k) := by
  have hlo : ((BitVec.ofNat 64 a).setWidth 32 + count.setWidth 32).toNat = a + k := by
    rw [BitVec.toNat_add, BitVec.toNat_setWidth, BitVec.toNat_setWidth, BitVec.toNat_ofNat, hk]
    omega
  have hhi : ((BitVec.ofNat 64 a).extractLsb' 32 32).toNat = 0 := by
    rw [BitVec.extractLsb'_toNat, BitVec.toNat_ofNat, Nat.shiftRight_eq_div_pow]
    omega
  apply BitVec.eq_of_toNat_eq
  rw [BitVec.toNat_append, hlo, hhi, Nat.zero_shiftLeft, Nat.zero_or, BitVec.toNat_ofNat]
  omega

/-- The memory after a pass holds `k` more sectors. -/
theorem read_copied {lba k : Nat} (hk : k ≤ 8) (hd : lba = kernelSector + d)
    (hl : read mem kernelLoadedAddress (512 * d) = read disk (512 * kernelSector) (512 * d)) :
    read (overlay (overlay mem diskBufferAddress (read disk (512 * lba) (512 * k)))
        (kernelLoadedAddress + 512 * d)
        (read (overlay mem diskBufferAddress (read disk (512 * lba) (512 * k)))
          diskBufferAddress (512 * k)))
      kernelLoadedAddress (512 * (d + k)) = read disk (512 * kernelSector) (512 * (d + k)) := by
  have hb : diskBufferAddress + 512 * k ≤ kernelLoadedAddress := by
    rw [diskBufferAddress, kernelLoadedAddress]
    omega
  rw [read_overlay_read, Nat.mul_add, read_add, read_add, read_overlay_read]
  congr 1
  · rw [read_overlay_outside (.inl (Nat.le_refl _)), read_overlay_outside, hl]
    rw [length_read]
    exact .inr hb
  · rw [hd, Nat.mul_add]

/-- After a pass in which `count` sectors are delivered. -/
def Loader.advance (disk : Nat → BitVec 8) (s : Loader) (d : Nat) (count : BitVec 16) : Loader :=
  let mem := overlay s.mem diskBufferAddress
    (read disk (512 * s.addr.toNat) (512 * count.toNat))
  { ebx := s.ebx - count.setWidth 32
    edi := BitVec.ofNat 32 (kernelLoadedAddress + 512 * d + 512 * count.toNat)
    addr := s.addr.extractLsb' 32 32 ++ (s.addr.setWidth 32 + count.setWidth 32)
    mem := overlay mem (kernelLoadedAddress + 512 * d)
      (read mem diskBufferAddress (512 * count.toNat))
    calls := s.calls ++ [⟨⟨s.addr, (chunk s.ebx).setWidth 16⟩, some count⟩] }

theorem Progress.toNat_addr (h : Progress disk n d s)
    (hn : kernelLoadedAddress + 512 * n ≤ 2 ^ 32) (hd : d < n) :
    s.addr.toNat = kernelSector + d := by
  rw [kernelLoadedAddress] at hn
  rw [h.addr, BitVec.toNat_ofNat, kernelSector, stage2Size]
  omega

theorem Progress.toNat_chunk (h : Progress disk n d s)
    (hn : kernelLoadedAddress + 512 * n ≤ 2 ^ 32) :
    ((chunk s.ebx).setWidth 16).toNat = min 8 (n - d) := by
  rw [kernelLoadedAddress] at hn
  rw [h.ebx, Bootsect.toNat_chunk (by omega)]

/-- What is left is zero exactly if every sector is loaded. -/
theorem Progress.ebx_sub (h : Progress disk n d s) (hn : kernelLoadedAddress + 512 * n ≤ 2 ^ 32)
    (hd : d < n) {count : BitVec 16} (hk : d + count.toNat ≤ n) :
    s.ebx - count.setWidth 32 = BitVec.ofNat 32 (n - (d + count.toNat)) ∧
      (s.ebx - count.setWidth 32 = 0 ↔ d + count.toNat = n) := by
  rw [kernelLoadedAddress] at hn
  have hebx : s.ebx - count.setWidth 32 = BitVec.ofNat 32 (n - (d + count.toNat)) := by
    apply BitVec.eq_of_toNat_eq
    rw [h.ebx, BitVec.toNat_sub, BitVec.toNat_setWidth, BitVec.toNat_ofNat, BitVec.toNat_ofNat]
    omega
  refine ⟨hebx, ?_⟩
  have hz : (0 : BitVec 32).toNat = 0 := rfl
  rw [hebx, ← BitVec.toNat_inj, BitVec.toNat_ofNat, hz]
  omega

theorem Progress.advance (h : Progress disk n d s) (hn : kernelLoadedAddress + 512 * n ≤ 2 ^ 32)
    (hd : d < n) {count : BitVec 16} (hk8 : count.toNat ≤ 8) (hk : d + count.toNat ≤ n) :
    Progress disk n (d + count.toNat) (s.advance disk d count) where
  ebx := (h.ebx_sub hn hd hk).1
  edi := by rw [Loader.advance, Nat.mul_add, Nat.add_assoc]
  addr := by
    rw [kernelLoadedAddress] at hn
    have hlt : kernelSector + d + count.toNat < 2 ^ 32 := by
      rw [kernelSector, stage2Size]
      omega
    have ha := addr_add hlt count rfl
    rw [← h.addr, Nat.add_assoc] at ha
    exact ha
  loaded := read_copied hk8 (h.toNat_addr hn hd) h.loaded
  once := h.once_append (h.toNat_addr hn hd) (by
    simp only [h.toNat_chunk hn]
    omega)
  below := by
    intro c hc
    rcases List.mem_append.mp hc with hc | hc
    · exact Nat.le_trans (h.below c hc) (by omega)
    · obtain rfl := List.mem_singleton.mp hc
      exact Nat.le_of_eq (by rw [h.toNat_addr hn hd]; exact Nat.add_assoc _ _ _)

/-- A pass fails, or loads at least one more sector. -/
theorem Progress.pass (h : Progress disk n d s) (bios : Bios) (hd : d < n)
    (hn : kernelLoadedAddress + 512 * n ≤ 2 ^ 32) :
    (∃ s', pass bios disk s = .loadKernelError s' ∧
        RequestsOnce n s'.calls ∧ ∃ c ∈ s'.calls, c.Fails) ∨
      ∃ k s', 1 ≤ k ∧ d + k ≤ n ∧ Progress disk n (d + k) s' ∧
        pass bios disk s = if d + k = n then .loadingSuccess s' else .loop s' := by
  have hchunk := h.toNat_chunk hn
  rw [Bootsect.pass]
  cases ha : bios.answer (s.calls.map Call.request) ⟨s.addr, (chunk s.ebx).setWidth 16⟩ with
  | none =>
    refine .inl ⟨_, rfl, h.once_append (h.toNat_addr hn hd) ?_, _, List.mem_concat_self, rfl⟩
    simp only [hchunk]
    omega
  | some count =>
    obtain ⟨hk1, hkc⟩ := bios.delivers _ _ _ ha
    simp only [hchunk] at hkc
    have hk8 : count.toNat ≤ 8 := by omega
    have hk : d + count.toNat ≤ n := by omega
    have hdst : kernelLoadedAddress + 512 * d + 512 * count.toNat ≤ 2 ^ 32 := by omega
    have hsrc : diskBufferAddress + 512 * count.toNat ≤ kernelLoadedAddress + 512 * d := by
      rw [diskBufferAddress, kernelLoadedAddress]
      omega
    refine .inr ⟨count.toNat, s.advance disk d count, hk1, hk, h.advance hn hd hk8 hk, ?_⟩
    simp only [loopCount_eq hk1 hk8, h.edi, copyLoop_eq hdst hsrc, (h.ebx_sub hn hd hk).2]
    rfl

/-- The loop, by induction on the sectors left. -/
theorem Progress.run (bios : Bios) (hn : kernelLoadedAddress + 512 * n ≤ 2 ^ 32) {fuel : Nat}
    (h : Progress disk n d s) (hd : d < n) (hf : n - d ≤ fuel) :
    ∃ r, loadLoop bios disk fuel s = some r ∧
      match r with
      | .error s' => RequestsOnce n s'.calls ∧ ∃ c ∈ s'.calls, c.Fails
      | .ok s' => Progress disk n n s' := by
  induction fuel generalizing s d with
  | zero => omega
  | succ fuel ih =>
    rw [loadLoop]
    rcases h.pass bios hd hn with ⟨s', hp, hfail⟩ | ⟨k, s', hk, hle, h', hp⟩
    · rw [hp]
      exact ⟨_, rfl, hfail⟩
    · rw [hp]
      by_cases hlast : d + k = n
      · rw [if_pos hlast]
        rw [hlast] at h'
        exact ⟨_, rfl, h'⟩
      · rw [if_neg hlast]
        exact ih h' (by omega) (by omega)

theorem Progress.loaded_all (h : Progress disk n n s) : Loaded disk (512 * n) s.mem := by
  intro i hi
  have hlen : i < (read s.mem kernelLoadedAddress (512 * n)).length := by rwa [length_read]
  have hget := List.getElem_of_eq h.loaded hlen
  rwa [getElem_read, getElem_read] at hget

/-- The loop ends for every BIOS, and unless a read fails the kernel is in memory. -/
theorem load_kernel (bios : Bios) (disk mem : Nat → BitVec 8) (size : Nat) (h0 : 0 < size)
    (hs : 512 ∣ size) (hfit : kernelLoadedAddress + size ≤ 2 ^ 32) : Loads bios disk size mem := by
  obtain ⟨n, rfl⟩ := hs
  have hdiv : 512 * n / 512 = n := Nat.mul_div_cancel_left n (by omega)
  have hstart := Progress.start disk mem (512 * n)
  rw [hdiv] at hstart
  obtain ⟨r, hr, hend⟩ := hstart.run bios hfit (by omega) (Nat.le_refl _)
  refine ⟨_, r, hr, ?_⟩
  cases r with
  | error s => rwa [hdiv]
  | ok s => exact ⟨by rw [hdiv]; exact hend.once, hend.loaded_all⟩

/-- The copy does not reach memory from 4 GiB on. -/
theorem copyLoop_above {edi esi : BitVec 32} {x k : Nat} (hx : 2 ^ 32 ≤ x) :
    (copyLoop mem edi esi k).1 x = mem x := by
  induction k generalizing mem edi esi with
  | zero => rfl
  | succ k ih =>
    have := edi.isLt
    rw [copyLoop, ih, Function.update_of_ne (by omega)]

/-- A BIOS that delivers what it is asked for. -/
def eager : Bios where
  answer _ r := if r.count = 0 then none else some r.count
  delivers := by
    intro _ r k hk
    by_cases h0 : r.count = 0
    · rw [if_pos h0] at hk
      cases hk
    · rw [if_neg h0] at hk
      obtain rfl := Option.some.inj hk
      have hne : r.count.toNat ≠ 0 := fun hz => h0 (BitVec.eq_of_toNat_eq hz)
      omega

theorem chunk_ne_zero (h : s.ebx ≠ 0) : (chunk s.ebx).setWidth 16 ≠ 0 := by
  intro h0
  have hn := toNat_chunk s.ebx.isLt
  have hz : (0 : BitVec 16).toNat = 0 := rfl
  rw [BitVec.ofNat_toNat, BitVec.setWidth_eq, h0, hz] at hn
  exact h (BitVec.eq_of_toNat_eq (show s.ebx.toNat = 0 by omega))

/-- A BIOS that delivers at most three sectors at every other read. -/
def short : Bios where
  answer past r :=
    if r.count = 0 then none
    else if past.length % 2 = 0 ∧ 3 < r.count then some 3
    else some r.count
  delivers := by
    intro past r k hk
    have h3 : (3 : BitVec 16).toNat = 3 := rfl
    by_cases h0 : r.count = 0
    · rw [if_pos h0] at hk
      cases hk
    · have hne : r.count.toNat ≠ 0 := fun hz => h0 (BitVec.eq_of_toNat_eq hz)
      rw [if_neg h0] at hk
      by_cases hs : past.length % 2 = 0 ∧ 3 < r.count
      · rw [if_pos hs] at hk
        obtain rfl := Option.some.inj hk
        have hlt := BitVec.lt_def.mp hs.2
        omega
      · rw [if_neg hs] at hk
        obtain rfl := Option.some.inj hk
        omega

/-- No read of one sector or more fails. -/
def Bios.Answers (bios : Bios) : Prop :=
  ∀ past r, r.count ≠ 0 → ∃ k, bios.answer past r = some k

theorem eager_answers : eager.Answers := fun _ r h => ⟨r.count, if_neg h⟩

theorem short_answers : short.Answers := by
  intro past r h
  by_cases hs : past.length % 2 = 0 ∧ 3 < r.count
  · exact ⟨3, (if_neg h).trans (if_pos hs)⟩
  · exact ⟨r.count, (if_neg h).trans (if_neg hs)⟩

theorem Bios.Answers.pass (hb : bios.Answers) (disk : Nat → BitVec 8) {x : Nat} (hx : 2 ^ 32 ≤ x)
    (h : s.ebx ≠ 0) : ∃ s', s'.mem x = s.mem x ∧
      (pass bios disk s = .loadingSuccess s' ∨ pass bios disk s = .loop s' ∧ s'.ebx ≠ 0) := by
  obtain ⟨count, ha⟩ := hb (s.calls.map Call.request) ⟨s.addr, (chunk s.ebx).setWidth 16⟩
    (chunk_ne_zero h)
  rw [Bootsect.pass, ha]
  simp only
  generalize hcopy : copyLoop _ _ _ _ = copied
  have hmem : copied.1 x = s.mem x := by
    have := count.isLt
    rw [← hcopy, copyLoop_above hx, overlay_outside]
    rw [length_read, diskBufferAddress]
    omega
  by_cases h0 : s.ebx - count.setWidth 32 = 0
  · exact ⟨_, hmem, .inl (if_pos h0)⟩
  · exact ⟨_, hmem, .inr ⟨if_neg h0, h0⟩⟩

/-- Where no read fails the loop ends in success, and stores nothing from 4 GiB on. -/
theorem Bios.Answers.loop (hb : bios.Answers) {x fuel : Nat} {r : Except Loader Loader}
    (hx : 2 ^ 32 ≤ x) (h : s.ebx ≠ 0) (hr : loadLoop bios disk fuel s = some r) :
    ∃ s', r = .ok s' ∧ s'.mem x = s.mem x := by
  induction fuel generalizing s with
  | zero => cases hr
  | succ fuel ih =>
    rw [loadLoop] at hr
    obtain ⟨s', hmem, hp | ⟨hp, hne⟩⟩ := hb.pass disk hx h
    · rw [hp] at hr
      exact ⟨s', (Option.some.inj hr).symm, hmem⟩
    · rw [hp] at hr
      obtain ⟨s₁, rfl, h₁⟩ := ih hne hr
      exact ⟨s₁, rfl, h₁.trans hmem⟩

/-- Twenty sectors, in reads of three, eight, three and six. -/
theorem load_short_reads : ∃ fuel s,
    loadLoop short (BitVec.ofNat 8) fuel (loadKernel 10240 fun _ => 0) = some (.ok s) ∧
      Loads short (BitVec.ofNat 8) 10240 fun _ => 0 := by
  have h := load_kernel short (BitVec.ofNat 8) (fun _ => 0) 10240 (by decide) (by decide) (by decide)
  obtain ⟨fuel, r, hr, hend⟩ := h
  obtain ⟨s, rfl, -⟩ := short_answers.loop (Nat.le_refl (2 ^ 32)) (by decide) hr
  exact ⟨fuel, s, hr, fuel, .ok s, hr, hend⟩

/-- The first kernel that does not end below 4 GiB: its last sector is stored at address zero. -/
theorem kernel_too_large :
    0 < 2 ^ 32 - kernelLoadedAddress + 512 ∧ 512 ∣ 2 ^ 32 - kernelLoadedAddress + 512 ∧
      ¬ Loads eager (fun _ => 1) (2 ^ 32 - kernelLoadedAddress + 512) fun _ => 0 := by
  refine ⟨by decide, by decide, ?_⟩
  rintro ⟨fuel, r, hr, hend⟩
  obtain ⟨s, rfl, hmem⟩ := eager_answers.loop (Nat.le_refl (2 ^ 32)) (by decide) hr
  have hlast := hend.2 (2 ^ 32 - kernelLoadedAddress) (by omega)
  rw [show kernelLoadedAddress + (2 ^ 32 - kernelLoadedAddress) = 2 ^ 32 from rfl, hmem] at hlast
  exact absurd hlast (by decide)

end Loop

end Bootsect
end TorexOS
