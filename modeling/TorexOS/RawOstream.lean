import Mathlib.Algebra.Group.Nat.Defs
import Mathlib.Data.List.Range
import Mathlib.Logic.Function.Basic

/-!
# TorexOS.RawOstream

`text::raw_ostream` of `raw_ostream.h`: a stream with a buffer in front of `write_impl`.

Pointers are addresses, 0 is null. A store outside the buffer and a division by zero are `none`.

* `RawOstream.Emits`: what every operation does: it keeps the pointers in order and adds its bytes
  to those already out, first the ones passed to `write_impl`, then the ones in the buffer.
* `nothing_lost`: any sequence of operations returns and gives out the bytes it was given, in order.
-/

namespace TorexOS
namespace Text

/-- The stream's pointers, the memory, and the strings passed to `write_impl`. -/
structure RawOstream where
  start : Nat
  cur : Nat
  endp : Nat
  mem : Nat → BitVec 8
  written : List (List (BitVec 8))

namespace RawOstream

/-- `raw_ostream()` -/
def unbuffered (mem : Nat → BitVec 8) : RawOstream := ⟨0, 0, 0, mem, []⟩

/-- `raw_ostream(buf, size)` -/
def buffered (mem : Nat → BitVec 8) (buf size : Nat) : RawOstream := ⟨buf, buf, buf + size, mem, []⟩

def writeImpl (s : RawOstream) (str : List (BitVec 8)) : RawOstream :=
  { s with written := s.written ++ [str] }

/-- `(size_t)(end - cur)` -/
def room (s : RawOstream) : Nat := (BitVec.ofNat 64 s.endp - BitVec.ofNat 64 s.cur).toNat

/-- The bytes from `start` to `cur`. -/
def pending (s : RawOstream) : List (BitVec 8) :=
  (List.range (s.cur - s.start)).map fun i => s.mem (s.start + i)

def isBufferFull (s : RawOstream) : Bool := s.endp ≤ s.cur

/-- `*a = ch`, in the buffer. -/
def store (s : RawOstream) (a : Nat) (ch : BitVec 8) : Option RawOstream :=
  if s.start ≤ a ∧ a < s.endp then some { s with mem := Function.update s.mem a ch } else none

def storeAll (s : RawOstream) (a : Nat) : List (BitVec 8) → Option RawOstream
  | [] => some s
  | ch :: str =>
    match s.store a ch with
    | none => none
    | some s => s.storeAll (a + 1) str

/-- `copy_to_buffer`: the cases of its `switch` store the bytes that `memcpy` would. -/
def copyToBuffer (s : RawOstream) (str : List (BitVec 8)) : Option RawOstream :=
  match s.storeAll s.cur str with
  | none => none
  | some s => some { s with cur := s.cur + str.length }

def flushNonempty (s : RawOstream) : RawOstream :=
  { s with cur := s.start }.writeImpl s.pending

def flush (s : RawOstream) : RawOstream := if s.start ≠ s.cur then s.flushNonempty else s

/-- `write(unsigned char)` -/
def writeChar (s : RawOstream) (ch : BitVec 8) : Option RawOstream :=
  if s.start = 0 then some (s.writeImpl [ch])
  else s.flushNonempty.copyToBuffer [ch]

/-- `operator<<` of a character. -/
def putChar (s : RawOstream) (ch : BitVec 8) : Option RawOstream :=
  if s.isBufferFull then s.writeChar ch else s.copyToBuffer [ch]

/-- `write(str, size)` -/
def write (s : RawOstream) (str : List (BitVec 8)) : Option RawOstream :=
  if s.room < str.length then
    if s.start = 0 then some (s.writeImpl str)
    else if s.cur = s.start then
      if s.room = 0 then none
      else
        let bytesToWrite := str.length - str.length % s.room
        (s.writeImpl (str.take bytesToWrite)).copyToBuffer (str.drop bytesToWrite)
    else
      match s.copyToBuffer (str.take s.room) with
      | none => none
      | some t => write t.flushNonempty (str.drop s.room)
  else s.copyToBuffer str
termination_by if s.cur = s.start then 0 else 1
decreasing_by
  rename_i hne
  rw [if_neg hne]
  simp [flushNonempty, writeImpl]

/-- `operator<<` of a string: the bytes in front of the first NUL. -/
def putString (s : RawOstream) (str : List (BitVec 8)) : Option RawOstream :=
  s.write (str.takeWhile (· ≠ 0#8))

def digit (d : Nat) : BitVec 8 := BitVec.ofNat 8 (48 + d)

/-- `format_to_buffer`, whose next store is at `cur - 1`. -/
def formatToBuffer (value : Nat) (buffer : Nat → BitVec 8) :
    Nat → Option ((Nat → BitVec 8) × Nat)
  | 0 => none
  | cur + 1 =>
    let buffer := Function.update buffer cur (digit (value % 10))
    if value / 10 = 0 then some (buffer, cur) else formatToBuffer (value / 10) buffer cur

/-- `write_unsigned`, with its `buf[24]`. -/
def writeUnsigned (s : RawOstream) (n : BitVec 64) : Option RawOstream :=
  match formatToBuffer n.toNat (fun _ => 0#8) 24 with
  | none => none
  | some (buf, cur) => s.write ((List.range' cur (24 - cur)).map buf)

/-- `write_integer` of a signed integer. -/
def writeInteger (s : RawOstream) (n : BitVec 64) : Option RawOstream :=
  if n.toInt < 0 then
    match s.putChar 0x2D#8 with
    | none => none
    | some s => s.writeUnsigned (-n)
  else s.writeUnsigned n

end RawOstream

inductive StreamOp where
  | char (ch : BitVec 8)
  | write (str : List (BitVec 8))
  | string (str : List (BitVec 8))
  | unsigned (n : BitVec 64)
  | signed (n : BitVec 64)
  | flush

def StreamOp.exec (s : RawOstream) : StreamOp → Option RawOstream
  | .char ch => s.putChar ch
  | .write str => s.write str
  | .string str => s.putString str
  | .unsigned n => s.writeUnsigned n
  | .signed n => s.writeInteger n
  | .flush => some s.flush

/-- Decimal digits. -/
def decimal (n : Nat) : List (BitVec 8) :=
  if n < 10 then [RawOstream.digit n] else decimal (n / 10) ++ [RawOstream.digit (n % 10)]
termination_by n

/-- The bytes an operation gives to the stream. -/
def StreamOp.bytes : StreamOp → List (BitVec 8)
  | .char ch => [ch]
  | .write str => str
  | .string str => str.takeWhile (· ≠ 0#8)
  | .unsigned n => decimal n.toNat
  | .signed n => if n.toInt < 0 then 0x2D#8 :: decimal (-n).toNat else decimal n.toNat
  | .flush => []

namespace RawOstream

/-- Passed to `write_impl`, then still in the buffer. -/
def out (s : RawOstream) : List (BitVec 8) := s.written.flatten ++ s.pending

/-- No buffer, or one of at least a byte. -/
structure Ok (s : RawOstream) : Prop where
  start_le : s.start ≤ s.cur
  cur_le : s.cur ≤ s.endp
  fits : s.endp < 2 ^ 64
  null : s.start = 0 → s.endp = 0
  nonempty : s.start ≠ 0 → s.start < s.endp

structure Emits (s t : RawOstream) (str : List (BitVec 8)) : Prop where
  ok : t.Ok
  start : t.start = s.start
  endp : t.endp = s.endp
  out : t.out = s.out ++ str

variable {s t u : RawOstream} {str str' : List (BitVec 8)} {ch : BitVec 8}

theorem Emits.trans (h : s.Emits t str) (h' : t.Emits u str') : s.Emits u (str ++ str') :=
  ⟨h'.ok, h'.start.trans h.start, h'.endp.trans h.endp, by
    rw [h'.out, h.out, List.append_assoc]⟩

theorem Ok.room_eq (h : s.Ok) : s.room = s.endp - s.cur := by
  have h1 := h.cur_le
  have h2 := h.fits
  rw [room, BitVec.toNat_sub, BitVec.toNat_ofNat, BitVec.toNat_ofNat]
  omega

/-! ## The buffer -/

theorem storeAll_spec {a : Nat} (ha : s.start ≤ a) (hend : a + str.length ≤ s.endp) :
    ∃ mem, s.storeAll a str = some { s with mem := mem } ∧
      (∀ i, i < str.length → str[i]? = some (mem (a + i))) ∧
      ∀ x, x < a ∨ a + str.length ≤ x → mem x = s.mem x := by
  induction str generalizing s a with
  | nil => exact ⟨s.mem, rfl, fun i hi => absurd hi (Nat.not_lt_zero i), fun _ _ => rfl⟩
  | cons ch str ih =>
    rw [List.length_cons] at hend
    obtain ⟨mem, he, hin, hout⟩ := ih (s := { s with mem := Function.update s.mem a ch })
      (a := a + 1) (by change s.start ≤ _; omega) (by change _ ≤ s.endp; omega)
    refine ⟨mem, ?_, fun i hi => ?_, fun x hx => ?_⟩
    · rw [storeAll, store, if_pos ⟨ha, by omega⟩]
      exact he
    · cases i with
      | zero =>
        have := hout a (.inl (by omega))
        simp only [Function.update_self] at this
        rw [List.getElem?_cons_zero, Nat.add_zero, this]
      | succ i =>
        rw [List.length_cons] at hi
        rw [List.getElem?_cons_succ, hin i (by omega), Nat.add_assoc, Nat.add_comm 1]
    · rw [List.length_cons] at hx
      rw [hout x (by omega)]
      exact Function.update_of_ne (by omega) _ _

theorem copyToBuffer_emits (str : List (BitVec 8)) (h : s.Ok)
    (hfit : s.cur + str.length ≤ s.endp) :
    ∃ t, s.copyToBuffer str = some t ∧ s.Emits t str ∧ t.cur = s.cur + str.length := by
  have hle := h.start_le
  obtain ⟨mem, he, hin, hout⟩ := storeAll_spec hle hfit
  refine ⟨⟨s.start, s.cur + str.length, s.endp, mem, s.written⟩, by rw [copyToBuffer, he],
    ⟨⟨?_, hfit, h.fits, h.null, h.nonempty⟩, rfl, rfl, ?_⟩, rfl⟩
  · change s.start ≤ s.cur + str.length
    omega
  · have hsplit : s.cur + str.length - s.start = (s.cur - s.start) + str.length := by omega
    have hold : (List.range (s.cur - s.start)).map (fun i => mem (s.start + i)) = s.pending := by
      refine List.map_congr_left fun i hi => ?_
      have := List.mem_range.mp hi
      exact hout _ (.inl (by omega))
    have hnew : (List.range str.length).map
        (fun i => mem (s.start + (s.cur - s.start + i))) = str := by
      refine List.ext_getElem? fun i => ?_
      rw [List.getElem?_map]
      rcases Nat.lt_or_ge i str.length with hi | hi
      · rw [List.getElem?_range hi, hin i hi, Option.map_some, ← Nat.add_assoc,
          Nat.add_sub_cancel' hle]
      · rw [List.getElem?_eq_none (by rw [List.length_range]; exact hi),
          List.getElem?_eq_none hi]
        rfl
    rw [out, out, pending, hsplit, List.range_add, List.map_append, hold, List.map_map]
    rw [List.append_assoc]
    exact congrArg (fun l => s.written.flatten ++ (s.pending ++ l)) hnew

theorem pending_nil (h : s.cur = s.start) : s.pending = [] := by
  rw [pending, h, Nat.sub_self]
  rfl

theorem flushNonempty_emits (h : s.Ok) :
    s.Emits s.flushNonempty [] ∧ s.flushNonempty.pending = [] ∧ s.flushNonempty.cur = s.start := by
  have hp : s.flushNonempty.pending = [] := pending_nil rfl
  refine ⟨⟨⟨Nat.le_refl _, Nat.le_trans h.start_le h.cur_le, h.fits, h.null, h.nonempty⟩, rfl, rfl,
    ?_⟩, hp, rfl⟩
  rw [out, hp, flushNonempty, writeImpl]
  simp [out]

/-- Without anything in the buffer a string may be passed on directly. -/
theorem writeImpl_emits (h : s.Ok) (hp : s.pending = []) : s.Emits (s.writeImpl str) str := by
  refine ⟨⟨h.start_le, h.cur_le, h.fits, h.null, h.nonempty⟩, rfl, rfl, ?_⟩
  have hp' : (s.writeImpl str).pending = [] := hp
  rw [out, out, hp, hp', writeImpl]
  simp

theorem Ok.unbuffered_pending (h : s.Ok) (h0 : s.start = 0) : s.pending = [] := by
  have h1 := h.null h0
  have h2 := h.cur_le
  exact pending_nil (by omega)

/-! ## The operations -/

theorem flush_emits (h : s.Ok) : s.Emits s.flush [] ∧ s.flush.pending = [] := by
  rw [flush]
  split
  · have hf := flushNonempty_emits h
    exact ⟨hf.1, hf.2.1⟩
  · rename_i he
    exact ⟨⟨h, rfl, rfl, (List.append_nil _).symm⟩, pending_nil (Decidable.not_not.mp he).symm⟩

theorem putChar_emits (h : s.Ok) (ch : BitVec 8) :
    ∃ t, s.putChar ch = some t ∧ s.Emits t [ch] := by
  rw [putChar]
  by_cases hfull : s.endp ≤ s.cur
  · rw [if_pos (by simpa [isBufferFull] using hfull), writeChar]
    by_cases h0 : s.start = 0
    · rw [if_pos h0]
      exact ⟨_, rfl, writeImpl_emits h (h.unbuffered_pending h0)⟩
    · rw [if_neg h0]
      obtain ⟨hf, _, hcur⟩ := flushNonempty_emits h
      have hne := h.nonempty h0
      obtain ⟨t, ht, he, _⟩ := copyToBuffer_emits [ch] hf.ok
        (by rw [hcur, hf.endp]; exact hne)
      exact ⟨t, ht, hf.trans he⟩
  · rw [if_neg (by simpa [isBufferFull] using hfull)]
    obtain ⟨t, ht, he, _⟩ := copyToBuffer_emits [ch] h (by
      rw [List.length_singleton]; omega)
    exact ⟨t, ht, he⟩

/-- A string that does not fit into an empty buffer: whole buffers of it are passed on. -/
theorem write_direct (h : s.Ok) (h0 : s.start ≠ 0) (hcur : s.cur = s.start)
    (hlong : s.room < str.length) : ∃ t, s.write str = some t ∧ s.Emits t str := by
  have hroom := h.room_eq
  have hne := h.nonempty h0
  have hpos : s.room ≠ 0 := by omega
  rw [write, if_pos hlong, if_neg h0, if_pos hcur, if_neg hpos]
  have hmod := Nat.mod_lt str.length (Nat.pos_of_ne_zero hpos)
  have hle := Nat.mod_le str.length s.room
  let n := str.length - str.length % s.room
  have hw : s.Emits (s.writeImpl (str.take n)) (str.take n) :=
    writeImpl_emits h (pending_nil hcur)
  obtain ⟨t, ht, he, _⟩ := copyToBuffer_emits (str.drop n) hw.ok (by
    change s.cur + (str.drop n).length ≤ s.endp
    rw [List.length_drop]
    omega)
  refine ⟨t, ht, ?_⟩
  have := hw.trans he
  rwa [List.take_append_drop] at this

theorem write_emits (h : s.Ok) (str : List (BitVec 8)) :
    ∃ t, s.write str = some t ∧ s.Emits t str := by
  have hroom := h.room_eq
  have hcle := h.cur_le
  by_cases hlong : s.room < str.length
  · by_cases h0 : s.start = 0
    · refine ⟨s.writeImpl str, ?_, writeImpl_emits h (h.unbuffered_pending h0)⟩
      rw [write, if_pos hlong, if_pos h0]
    · by_cases hcur : s.cur = s.start
      · exact write_direct h h0 hcur hlong
      · -- fill the buffer up, pass it on, and write the rest into an empty one
        have htake : (str.take s.room).length = s.room := by
          rw [List.length_take]
          omega
        obtain ⟨t, ht, he, _⟩ := copyToBuffer_emits (str.take s.room) h (by omega)
        obtain ⟨hf, _, hfcur⟩ := flushNonempty_emits he.ok
        have hrest : ∃ u, t.flushNonempty.write (str.drop s.room) = some u ∧
            t.flushNonempty.Emits u (str.drop s.room) := by
          by_cases hlong' : t.flushNonempty.room < (str.drop s.room).length
          · exact write_direct hf.ok (by rw [hf.start, he.start]; exact h0)
              (by rw [hfcur, hf.start]) hlong'
          · obtain ⟨u, hu, heu, _⟩ := copyToBuffer_emits (str.drop s.room) hf.ok (by
              have := hf.ok.room_eq
              have := hf.ok.cur_le
              omega)
            exact ⟨u, by rw [write, if_neg hlong', hu], heu⟩
        obtain ⟨u, hu, heu⟩ := hrest
        refine ⟨u, ?_, ?_⟩
        · rw [write, if_pos hlong, if_neg h0, if_neg hcur, ht]
          exact hu
        · have hall := (he.trans hf).trans heu
          rwa [List.append_nil, List.take_append_drop] at hall
  · obtain ⟨t, ht, he, _⟩ := copyToBuffer_emits str h (by omega)
    exact ⟨t, by rw [write, if_neg hlong, ht], he⟩

/-! ## Integers -/

/-- The last round of the loop. -/
theorem formatToBuffer_last {value : Nat} (buffer : Nat → BitVec 8) (cur : Nat) (h : value < 10) :
    ∃ buf, formatToBuffer value buffer (cur + 1) = some (buf, cur) ∧
      (List.range' cur (cur + 1 - cur)).map buf = decimal value ∧
      ∀ x, cur + 1 ≤ x → buf x = buffer x := by
  refine ⟨Function.update buffer cur (digit (value % 10)), ?_, ?_, fun x hx => ?_⟩
  · rw [formatToBuffer, if_pos (Nat.div_eq_of_lt h)]
  · rw [Nat.add_sub_cancel_left, decimal, if_pos h, Nat.mod_eq_of_lt h]
    simp [List.range'_succ]
  · exact Function.update_of_ne (by omega) _ _

/-- The digits end up in front of the last store, in a buffer that has room for them. -/
theorem formatToBuffer_spec {k : Nat} : ∀ {value : Nat} (buffer : Nat → BitVec 8) {cur : Nat},
    value < 10 ^ (k + 1) → k + 1 ≤ cur → ∃ buf c,
      formatToBuffer value buffer cur = some (buf, c) ∧ c ≤ cur ∧
      (List.range' c (cur - c)).map buf = decimal value ∧ ∀ x, cur ≤ x → buf x = buffer x := by
  induction k with
  | zero =>
    intro value buffer cur hv hcur
    obtain ⟨cur, rfl⟩ : ∃ c, cur = c + 1 := ⟨cur - 1, by omega⟩
    obtain ⟨buf, he, hdec, hout⟩ := formatToBuffer_last buffer cur (by simpa using hv)
    exact ⟨buf, cur, he, by omega, hdec, hout⟩
  | succ k ih =>
    intro value buffer cur hv hcur
    obtain ⟨cur, rfl⟩ : ∃ c, cur = c + 1 := ⟨cur - 1, by omega⟩
    by_cases hlt : value < 10
    · obtain ⟨buf, he, hdec, hout⟩ := formatToBuffer_last buffer cur hlt
      exact ⟨buf, cur, he, by omega, hdec, hout⟩
    · have hdiv : value / 10 < 10 ^ (k + 1) := by
        rw [Nat.pow_succ] at hv
        omega
      obtain ⟨buf, c, he, hle, hdec, hout⟩ := ih
        (Function.update buffer cur (digit (value % 10))) hdiv (by omega : k + 1 ≤ cur)
      refine ⟨buf, c, ?_, by omega, ?_, fun x hx => ?_⟩
      · rw [formatToBuffer, if_neg (by omega)]
        exact he
      · have hlast : buf cur = digit (value % 10) := by
          rw [hout cur (Nat.le_refl _), Function.update_self]
        rw [decimal, if_neg hlt, ← hdec, show cur + 1 - c = cur - c + 1 by omega,
          List.range'_concat, List.map_append]
        simp only [List.map_cons, List.map_nil, Nat.one_mul]
        rw [show c + (cur - c) = cur by omega, hlast]
      · rw [hout x (by omega)]
        exact Function.update_of_ne (by omega) _ _

/-- The digits fit in the local buffer, and are written to the stream. -/
theorem writeUnsigned_eq (s : RawOstream) (n : BitVec 64) :
    s.writeUnsigned n = s.write (decimal n.toNat) := by
  have hlt : n.toNat < 10 ^ (19 + 1) := Nat.lt_of_lt_of_le n.isLt (by omega)
  obtain ⟨buf, c, he, _, hdec, _⟩ := formatToBuffer_spec (fun _ => 0#8) hlt
    (by omega : 19 + 1 ≤ 24)
  rw [writeUnsigned, he]
  exact congrArg s.write hdec

theorem writeUnsigned_emits (h : s.Ok) (n : BitVec 64) :
    ∃ t, s.writeUnsigned n = some t ∧ s.Emits t (decimal n.toNat) := by
  rw [writeUnsigned_eq]
  exact write_emits h _

theorem writeInteger_emits (h : s.Ok) (n : BitVec 64) :
    ∃ t, s.writeInteger n = some t ∧ s.Emits t (StreamOp.signed n).bytes := by
  rw [writeInteger, StreamOp.bytes]
  by_cases hneg : n.toInt < 0
  · rw [if_pos hneg, if_pos hneg]
    obtain ⟨t, ht, he⟩ := putChar_emits h 0x2D#8
    obtain ⟨u, hu, heu⟩ := writeUnsigned_emits he.ok (-n)
    exact ⟨u, by rw [ht]; exact hu, he.trans heu⟩
  · rw [if_neg hneg, if_neg hneg]
    exact writeUnsigned_emits h n

end RawOstream

open RawOstream

/-- One operation, whatever the buffer and how full it is. -/
theorem StreamOp.exec_emits {s : RawOstream} (h : s.Ok) (op : StreamOp) :
    ∃ t, op.exec s = some t ∧ s.Emits t op.bytes := by
  cases op with
  | char ch => exact putChar_emits h ch
  | write str => exact write_emits h str
  | string str => exact write_emits h _
  | unsigned n => exact writeUnsigned_emits h n
  | signed n => exact writeInteger_emits h n
  | flush => exact ⟨s.flush, rfl, (flush_emits h).1⟩

/-- A run of operations. By induction on the operations. -/
theorem StreamOp.run_emits {s : RawOstream} (h : s.Ok) (ops : List StreamOp) :
    ∃ t, ops.foldlM (fun s op => op.exec s) s = some t ∧
      s.Emits t (ops.map StreamOp.bytes).flatten := by
  induction ops generalizing s with
  | nil => exact ⟨s, rfl, h, rfl, rfl, (List.append_nil _).symm⟩
  | cons op ops ih =>
    obtain ⟨t, ht, he⟩ := op.exec_emits h
    obtain ⟨u, hu, heu⟩ := ih he.ok
    exact ⟨u, by rw [List.foldlM_cons, ht]; exact hu, he.trans heu⟩

/-- The stream just constructed, without a buffer or with one of at least a byte. -/
inductive Constructed : RawOstream → Prop where
  | unbuffered (mem : Nat → BitVec 8) : Constructed (.unbuffered mem)
  | buffered (mem : Nat → BitVec 8) {buf size : Nat} (hbuf : buf ≠ 0) (hsize : 1 ≤ size)
      (hfits : buf + size < 2 ^ 64) : Constructed (.buffered mem buf size)

theorem Constructed.ok {s : RawOstream} (h : Constructed s) : s.Ok ∧ s.out = [] := by
  cases h with
  | unbuffered mem =>
    exact ⟨⟨Nat.le_refl _, Nat.le_refl _, Nat.two_pow_pos 64, fun _ => rfl, fun h => absurd rfl h⟩, rfl⟩
  | @buffered mem buf size hbuf hsize hfits =>
    refine ⟨⟨Nat.le_refl _, Nat.le_add_right _ _, hfits, fun h => absurd h hbuf,
      fun _ => Nat.lt_add_of_pos_right hsize⟩, ?_⟩
    rw [out, pending_nil rfl]
    rfl

/-- Nothing is lost or reordered: any sequence of operations returns, keeps the pointers in
order, and what was passed to `write_impl` followed by what is in the buffer are the bytes given to
the stream; after `flush` the buffer is empty. -/
theorem nothing_lost {s : RawOstream} (h : Constructed s) (ops : List StreamOp) :
    ∃ t, ops.foldlM (fun s op => op.exec s) s = some t ∧ t.start ≤ t.cur ∧ t.cur ≤ t.endp ∧
      t.written.flatten ++ t.pending = (ops.map StreamOp.bytes).flatten ∧ t.flush.pending = [] := by
  obtain ⟨hok, hout⟩ := h.ok
  obtain ⟨t, ht, he⟩ := StreamOp.run_emits hok ops
  have hall := he.out
  rw [hout, List.nil_append] at hall
  exact ⟨t, ht, he.ok.start_le, he.ok.cur_le, hall, (flush_emits he.ok).2⟩

theorem bytes_minus_twelve : (StreamOp.signed (-12)).bytes = [0x2D#8, 0x31#8, 0x32#8] := by
  have hneg : (-12 : BitVec 64).toInt < 0 := by decide
  have habs : (- -12 : BitVec 64).toNat = 12 := by decide
  rw [StreamOp.bytes, if_pos hneg, habs, decimal, if_neg (by omega), decimal, if_pos (by omega)]
  rfl

/-- A buffer of two bytes: five characters, then -12. -/
theorem nothing_lost_two : ∃ t, [StreamOp.write [1, 2, 3, 4, 5], .signed (-12)].foldlM
      (fun s op => op.exec s) (.buffered (fun _ => 0#8) 0x1000 2) = some t ∧
    t.written.flatten ++ t.pending = [1, 2, 3, 4, 5, 0x2D, 0x31, 0x32] := by
  obtain ⟨t, ht, _, _, hout, _⟩ := nothing_lost
    (.buffered (fun _ => 0#8) (by omega : 0x1000 ≠ 0) (by omega : 1 ≤ 2) (by omega))
    [StreamOp.write [1, 2, 3, 4, 5], .signed (-12)]
  refine ⟨t, ht, hout.trans ?_⟩
  rw [List.map_cons, List.map_cons, bytes_minus_twelve]
  rfl

end Text
end TorexOS
