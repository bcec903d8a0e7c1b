import TorexOS.Lib.Numeral
import TorexOS.RawOstream

/-!
# TorexOS.NumberFormat

The numbers that `text::raw_ostream` writes, against decoders for them.

* `writeHex`: `write_hex`, with its local buffer.
* `IsDecimal`, `decodeDecimal`, `decodeHex`: what a canonical numeral is, and what it stands for.
* `Sends f str`: `f` hands the stream the bytes `str`, whatever the stream.
* `number_format_faithful`: every number is sent as its canonical numeral.
-/

namespace TorexOS
namespace Text

open Numeral

/-! ## write_hex -/

/-- `buf[i] = ch` in a local array of `size` bytes. -/
def setLocal (size : Nat) (buf : Nat → BitVec 8) (i : Nat) (ch : BitVec 8) :
    Option (Nat → BitVec 8) :=
  if i < size then some (Function.update buf i ch) else none

/-- `"0123456789abcdef"` -/
def hexTable : List (BitVec 8) :=
  [0x30, 0x31, 0x32, 0x33, 0x34, 0x35, 0x36, 0x37, 0x38, 0x39, 0x61, 0x62, 0x63, 0x64, 0x65, 0x66]

def hexDigit (d : Nat) : BitVec 8 := hexTable.getD d 0

/-- The loop, with `buf[20]`. -/
def hexLoop : Nat → (Nat → BitVec 8) → BitVec 64 → Option (Nat → BitVec 8)
  | 0, buf, _ => some buf
  | i + 1, buf, number =>
    if 2 ≤ i + 1 then
      match setLocal 20 buf (i + 1) (hexDigit (number &&& 0x0F).toNat) with
      | none => none
      | some buf => hexLoop i buf (number >>> 4)
    else some buf

/-- `buf` when it is written to the stream. -/
def hexBuffer (buf : Nat → BitVec 8) (number : BitVec 64) : Option (Nat → BitVec 8) := do
  let buf ← setLocal 20 buf 0 0x30
  let buf ← setLocal 20 buf 1 0x78
  let buf ← hexLoop 17 buf number
  setLocal 20 buf 18 0

def RawOstream.writeHex (s : RawOstream) (number : BitVec 64) : Option RawOstream :=
  match hexBuffer (fun _ => 0#8) number with
  | none => none
  | some buf => s.write ((List.range' 0 18).map buf)

/-! ## Numerals -/

def minus : BitVec 8 := 0x2D

/-- Decimal digits, the first of which is zero only if it is the only one. -/
structure IsNumeral (ds : List (BitVec 8)) : Prop where
  nonempty : ds ≠ []
  digits : ∀ c ∈ ds, 0x30#8 ≤ c ∧ c ≤ 0x39#8
  zero : ds.head? = some 0x30#8 → ds = [0x30#8]

/-- A numeral, or the numeral of a number that is not zero behind a minus. -/
def IsDecimal (str : List (BitVec 8)) : Prop :=
  IsNumeral str ∨ ∃ ds, str = minus :: ds ∧ IsNumeral ds ∧ ds ≠ [0x30#8]

def digitValue (c : BitVec 8) : Option Nat :=
  if 0x30#8 ≤ c ∧ c ≤ 0x39#8 then some (c.toNat - 0x30) else none

def decodeDecimal : List (BitVec 8) → Option Int
  | [] => none
  | c :: cs =>
    if c = minus then (decode 10 digitValue cs).map fun n => -(n : Int)
    else (decode 10 digitValue (c :: cs)).map fun n => (n : Int)

def hexValue (c : BitVec 8) : Option Nat := hexTable.findIdx? (· = c)

def decodeHex (str : List (BitVec 8)) : Option Nat := decode 16 hexValue str

/-- The bytes are passed to the stream, not computed from a number by it. -/
def StreamOp.Plain : StreamOp → Prop
  | .char _ => True
  | .write _ => True
  | _ => False

/-- `f` hands every stream the same characters and strings, together `str`. -/
def Sends (f : RawOstream → Option RawOstream) (str : List (BitVec 8)) : Prop :=
  ∃ ops : List StreamOp, (∀ op ∈ ops, op.Plain) ∧ (ops.map StreamOp.bytes).flatten = str ∧
    ∀ s, f s = ops.foldlM (fun s op => op.exec s) s

section Sends

variable {f : RawOstream → Option RawOstream} {str : List (BitVec 8)} {s : RawOstream}

/-- What is sent comes out, of a stream with a buffer of any size or none. -/
theorem Sends.emits (h : Sends f str) (hs : s.Ok) : ∃ t, f s = some t ∧ s.Emits t str := by
  obtain ⟨ops, _, hbytes, heq⟩ := h
  obtain ⟨t, ht, he⟩ := StreamOp.run_emits hs ops
  rw [hbytes] at he
  exact ⟨t, (heq s).trans ht, he⟩

theorem sends_write (h : ∀ s, f s = s.write str) : Sends f str := by
  refine ⟨[.write str], by simp [StreamOp.Plain], by simp [StreamOp.bytes], fun s => ?_⟩
  rw [h, List.foldlM_cons]
  cases hw : s.write str with
  | none => simp only [StreamOp.exec, hw]; rfl
  | some t => simp only [StreamOp.exec, hw]; rfl

theorem sends_char_write {ch : BitVec 8} (h : ∀ s, f s = (s.putChar ch).bind fun t => t.write str) :
    Sends f (ch :: str) := by
  refine ⟨[.char ch, .write str], by simp [StreamOp.Plain], by simp [StreamOp.bytes], fun s => ?_⟩
  rw [h, List.foldlM_cons]
  cases hc : s.putChar ch with
  | none => simp only [StreamOp.exec, hc]; rfl
  | some t =>
    simp only [StreamOp.exec, hc, Option.bind_some, List.foldlM_cons]
    cases hw : t.write str with
    | none => simp only [Option.bind_eq_bind, Option.bind_some, hw]; rfl
    | some u => simp only [Option.bind_eq_bind, Option.bind_some, hw]; rfl

end Sends

/-! ## Decimal -/

section Decimal

variable {n d : Nat}

theorem decimal_eq_map (n : Nat) : decimal n = (numeral 10 n).map RawOstream.digit := by
  induction n using Nat.strong_induction_on with
  | _ n ih =>
    rw [decimal]
    by_cases hn : n < 10
    · rw [if_pos hn, numeral_of_lt hn]
      rfl
    · have hsplit : numeral 10 n = numeral 10 (n / 10) ++ [n % 10] :=
        numeral_concat (by omega) (Nat.le_of_not_lt hn)
      rw [if_neg hn, ih (n / 10) (by omega), hsplit, List.map_append]
      rfl

theorem toNat_digit (hd : d < 10) : (RawOstream.digit d).toNat = 48 + d := by
  rw [RawOstream.digit, BitVec.toNat_ofNat]
  exact Nat.mod_eq_of_lt (by omega)

theorem digit_bounds (hd : d < 10) :
    0x30#8 ≤ RawOstream.digit d ∧ RawOstream.digit d ≤ 0x39#8 := by
  rw [BitVec.le_def, BitVec.le_def, toNat_digit hd]
  change 48 ≤ 48 + d ∧ 48 + d ≤ 57
  omega

theorem digitValue_digit (hd : d < 10) : digitValue (RawOstream.digit d) = some d := by
  rw [digitValue, if_pos (digit_bounds hd), toNat_digit hd, Nat.add_sub_cancel_left]

theorem isNumeral_decimal (n : Nat) : IsNumeral (decimal n) := by
  have hlt : ∀ d ∈ numeral 10 n, d < 10 := fun d hd => numeral_lt (by omega) hd
  rw [decimal_eq_map]
  refine ⟨fun h => numeral_ne_nil 10 n (List.map_eq_nil_iff.mp h), fun c hc => ?_, fun h => ?_⟩
  · obtain ⟨d, hd, rfl⟩ := List.mem_map.mp hc
    exact digit_bounds (hlt d hd)
  · rw [List.head?_map, Option.map_eq_some_iff] at h
    obtain ⟨d, hd, h0⟩ := h
    have hd0 : d = 0 := by
      have hval := congrArg BitVec.toNat h0
      rw [toNat_digit (hlt d (List.mem_of_mem_head? hd))] at hval
      change 48 + d = 48 at hval
      omega
    rw [hd0] at hd
    rw [numeral_head hd]
    rfl

theorem decode_decimal (n : Nat) : decode 10 digitValue (decimal n) = some n := by
  rw [decimal_eq_map, decode_map (fun d hd => digitValue_digit hd)
    fun d hd => numeral_lt (by omega) hd, value_numeral]

theorem decimal_ne_zero (hn : n ≠ 0) : decimal n ≠ [0x30#8] := by
  intro h
  have hdec := decode_decimal n
  rw [h] at hdec
  exact hn (Option.some.inj hdec).symm

theorem decodeDecimal_decimal (n : Nat) : decodeDecimal (decimal n) = some (n : Int) := by
  have hdigits := (isNumeral_decimal n).digits
  have hdec := decode_decimal n
  cases hstr : decimal n with
  | nil => exact absurd hstr (isNumeral_decimal n).nonempty
  | cons c cs =>
    rw [hstr] at hdec hdigits
    have hc : c ≠ minus := by
      rintro rfl
      exact absurd (hdigits minus List.mem_cons_self).1 (by decide)
    rw [decodeDecimal, if_neg hc, hdec]
    rfl

theorem decodeDecimal_minus (n : Nat) : decodeDecimal (minus :: decimal n) = some (-(n : Int)) := by
  rw [decodeDecimal, if_pos rfl, decode_decimal]
  rfl

/-- Also of the most negative number the negation, read unsigned, is the magnitude. -/
theorem toNat_neg_of_neg {n : BitVec 64} (hn : n.toInt < 0) : ((-n).toNat : Int) = -n.toInt := by
  have hlt := n.isLt
  rw [BitVec.toInt_eq_toNat_cond] at hn ⊢
  rw [BitVec.toNat_neg]
  split at hn
  · omega
  · rename_i h
    rw [if_neg h]
    omega

theorem toInt_of_nonneg {n : BitVec 64} (hn : ¬ n.toInt < 0) : (n.toNat : Int) = n.toInt := by
  have hlt := n.isLt
  rw [BitVec.toInt_eq_toNat_cond] at hn ⊢
  split at hn
  · rename_i h
    rw [if_pos h]
  · omega

theorem signed_numeral (n : BitVec 64) :
    ∃ str, Sends (fun s => s.writeInteger n) str ∧ IsDecimal str ∧
      decodeDecimal str = some n.toInt := by
  by_cases hneg : n.toInt < 0
  · have habs := toNat_neg_of_neg hneg
    refine ⟨minus :: decimal (-n).toNat, sends_char_write fun s => ?_,
      .inr ⟨_, rfl, isNumeral_decimal _, decimal_ne_zero (by omega)⟩, ?_⟩
    · rw [RawOstream.writeInteger, if_pos hneg]
      cases hc : s.putChar 0x2D#8 with
      | none => rw [show s.putChar minus = none from hc]; rfl
      | some t =>
        rw [show s.putChar minus = some t from hc]
        exact t.writeUnsigned_eq (-n)
    · rw [decodeDecimal_minus, habs, Int.neg_neg]
  · refine ⟨decimal n.toNat, sends_write fun s => ?_, .inl (isNumeral_decimal _), ?_⟩
    · rw [RawOstream.writeInteger, if_neg hneg]
      exact s.writeUnsigned_eq n
    · rw [decodeDecimal_decimal, toInt_of_nonneg hneg]

end Decimal

/-! ## Hexadecimal -/

section Hex

variable {k d : Nat} {buf : Nat → BitVec 8} {number : BitVec 64}

theorem hexValue_hexDigit (hd : d < 16) : hexValue (hexDigit d) = some d := by
  have hall : ∀ d : Fin 16, hexValue (hexDigit d) = some d.val := by decide
  exact hall ⟨d, hd⟩

theorem hexDigit_mem (hd : d < 16) : hexDigit d ∈ hexTable := by
  rw [hexDigit, List.getD_eq_getElem?_getD, List.getElem?_eq_getElem (show d < hexTable.length from hd)]
  exact List.getElem_mem _

/-- The loop stores the last `k` digits behind `0x`, by induction on the digits left. -/
theorem hexLoop_spec (k : Nat) : ∀ (buf : Nat → BitVec 8) (number : BitVec 64), k ≤ 16 →
    ∃ buf', hexLoop (k + 1) buf number = some buf' ∧
      (List.range' 2 k).map buf' = (fixed 16 k number.toNat).map hexDigit ∧
      ∀ x, x < 2 ∨ k + 2 ≤ x → buf' x = buf x := by
  induction k with
  | zero => intro buf number _; exact ⟨buf, rfl, rfl, fun _ _ => rfl⟩
  | succ k ih =>
    intro buf number hk
    have hdigit : (number &&& 0x0F).toNat = number.toNat % 16 := Nat.and_two_pow_sub_one_eq_mod _ 4
    have hrest : (number >>> 4).toNat = number.toNat / 16 := by
      rw [BitVec.toNat_ushiftRight, Nat.shiftRight_eq_div_pow]
    obtain ⟨buf', he, hdigits, hout⟩ := ih
      (Function.update buf (k + 2) (hexDigit (number &&& 0x0F).toNat)) (number >>> 4) (by omega)
    refine ⟨buf', ?_, ?_, fun x hx => ?_⟩
    · rw [hexLoop, if_pos (by omega), setLocal, if_pos (by omega)]
      exact he
    · have hlast : buf' (2 + k) = hexDigit (number.toNat % 16) := by
        rw [hout (2 + k) (.inr (by omega)), Nat.add_comm 2 k, Function.update_self, hdigit]
      rw [List.range'_concat, List.map_append, hdigits, hrest, fixed, List.map_append, Nat.one_mul,
        List.map_singleton, hlast, List.map_singleton]
    · rw [hout x (by omega)]
      exact Function.update_of_ne (by omega) _ _

theorem hexBuffer_spec (buf : Nat → BitVec 8) (number : BitVec 64) :
    ∃ buf', hexBuffer buf number = some buf' ∧ (List.range' 0 18).map buf' =
      0x30#8 :: 0x78#8 :: (fixed 16 16 number.toNat).map hexDigit := by
  obtain ⟨b, he, hdigits, hout⟩ := hexLoop_spec 16
    (Function.update (Function.update buf 0 0x30) 1 0x78) number (Nat.le_refl 16)
  refine ⟨Function.update b 18 0, ?_, ?_⟩
  · simp only [hexBuffer, setLocal, Nat.reduceLT, if_true, Option.bind_eq_bind, Option.bind_some]
    rw [show hexLoop 17 _ number = _ from he]
    rfl
  · have hkept : ∀ i ∈ List.range' 0 18, Function.update b 18 0 i = b i := by
      intro i hi
      rw [List.mem_range'_1] at hi
      exact Function.update_of_ne (by omega) _ _
    rw [List.map_congr_left hkept, List.range'_succ, List.range'_succ, List.map_cons, List.map_cons,
      hdigits, hout 0 (.inl (by omega)), hout (0 + 1) (.inl (by omega))]
    rfl

theorem writeHex_eq (s : RawOstream) (number : BitVec 64) :
    s.writeHex number = s.write (0x30#8 :: 0x78#8 :: (fixed 16 16 number.toNat).map hexDigit) := by
  obtain ⟨buf, he, hstr⟩ := hexBuffer_spec (fun _ => 0#8) number
  rw [RawOstream.writeHex, he]
  exact congrArg s.write hstr

theorem decodeHex_fixed (number : BitVec 64) :
    decodeHex ((fixed 16 16 number.toNat).map hexDigit) = some number.toNat := by
  have hlt : number.toNat < 16 ^ 16 := Nat.lt_of_lt_of_le number.isLt (by omega)
  rw [decodeHex, decode_map (fun d hd => hexValue_hexDigit hd) fun d hd => fixed_lt (by omega) hd,
    value_fixed, Nat.mod_eq_of_lt hlt]

end Hex

/-- Whatever the stream, `operator<<` of an unsigned or a signed number sends its canonical decimal
numeral and `write_hex` sends `0x` and sixteen digits; decoded, they are the number. No store is
outside a local buffer. -/
theorem number_format_faithful (n : BitVec 64) :
    (∃ str, Sends (fun s => s.writeUnsigned n) str ∧ IsNumeral str ∧
      decodeDecimal str = some (n.toNat : Int)) ∧
    (∃ str, Sends (fun s => s.writeInteger n) str ∧ IsDecimal str ∧
      decodeDecimal str = some n.toInt) ∧
    (∃ ds, Sends (fun s => s.writeHex n) (0x30#8 :: 0x78#8 :: ds) ∧ ds.length = 16 ∧
      (∀ c ∈ ds, c ∈ hexTable) ∧ decodeHex ds = some n.toNat) ∧
    (∀ buf, ∃ r, RawOstream.formatToBuffer n.toNat buf 24 = some r) ∧
    (∀ buf, ∃ r, RawOstream.formatToBuffer (-n).toNat buf 24 = some r) ∧
    ∀ buf, ∃ r, hexBuffer buf n = some r := by
  have hroom : ∀ (m : BitVec 64) buf, ∃ r, RawOstream.formatToBuffer m.toNat buf 24 = some r := by
    intro m buf
    have hlt : m.toNat < 10 ^ (19 + 1) := Nat.lt_of_lt_of_le m.isLt (by omega)
    obtain ⟨b, c, he, _⟩ := RawOstream.formatToBuffer_spec buf hlt (by omega : 19 + 1 ≤ 24)
    exact ⟨_, he⟩
  refine ⟨?_, signed_numeral n, ?_, hroom n, hroom (-n), fun buf => ?_⟩
  · exact ⟨decimal n.toNat, sends_write fun s => s.writeUnsigned_eq n, isNumeral_decimal _,
      decodeDecimal_decimal _⟩
  · refine ⟨(fixed 16 16 n.toNat).map hexDigit, sends_write fun s => writeHex_eq s n, ?_, ?_,
      decodeHex_fixed n⟩
    · rw [List.length_map, length_fixed]
    · intro c hc
      obtain ⟨d, hd, rfl⟩ := List.mem_map.mp hc
      exact hexDigit_mem (fixed_lt (by omega) hd)
  · obtain ⟨b, he, _⟩ := hexBuffer_spec buf n
    exact ⟨b, he⟩

end Text
end TorexOS
