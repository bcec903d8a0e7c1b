import TorexOS.Rsdt

/-!
# TorexOS.Apic

The records of the MADT, `acpi/apic.h`.

* `ApicRecordIterator`: a position, and the step to the next record.
* `walk`: the iterator from one position until it equals another, with the headers it visits.
* `WellFormed`: the records fill the table behind its 44 bytes.
* `never_visits_records`: `end` is twelve bytes behind the table, so the first position outside is
  always visited.
-/

namespace TorexOS
namespace Acpi

open Memory Packed

/-- `#pragma pack(push,1)` -/
def packed : Nat := 1

/-- `Type`, `Length` -/
def apicRecordHeader : List Nat := offsets packed 0 [(1, 1), (1, 1)]

/-- The members of the base are followed by `ApicBaseAddress`, `Flags`, `Record`. -/
def madt : List Nat := offsets packed sizeofSDTHeader [(4, 4), (4, 4), (0, 1)]

def APICRecordHeader.length (m : Mem) (p : BitVec 64) : BitVec 8 :=
  m.behind p (apicRecordHeader.getD 1 0)

structure ApicRecordIterator where
  pos : BitVec 64
  deriving DecidableEq

/-- `operator++` -/
def ApicRecordIterator.next (m : Mem) (it : ApicRecordIterator) : ApicRecordIterator :=
  ⟨it.pos + (APICRecordHeader.length m it.pos).setWidth 64⟩

/-- `&Record[i]` -/
def MADT.record (p : BitVec 64) (i : BitVec 32) : BitVec 64 :=
  p + BitVec.ofNat 64 (madt.getD 2 0) + i.setWidth 64

/-- `begin` -/
def MADT.beginIterator (p : BitVec 64) : ApicRecordIterator := ⟨MADT.record p 0⟩

/-- `end` -/
def MADT.endIterator (m : Mem) (p : BitVec 64) : ApicRecordIterator :=
  ⟨MADT.record p (SDTHeader.length m p - 32)⟩

/-- From `it`, step until it equals `last`; the headers at which it is before it does. -/
def walk (m : Mem) (last : ApicRecordIterator) : Nat → ApicRecordIterator → Option (List (BitVec 64))
  | 0, _ => none
  | fuel + 1, it =>
    if it = last then some [] else (walk m last fuel (it.next m)).map fun ps => it.pos :: ps

/-! ## The table -/

/-- Where the headers of records of these lengths are. -/
def headers (p : BitVec 64) : List (BitVec 8) → List (BitVec 64)
  | [] => []
  | len :: lens => p :: headers (p + len.setWidth 64) lens

/-- From `p` on there are records of these lengths. -/
def Records (m : Mem) (p : BitVec 64) : List (BitVec 8) → Prop
  | [] => True
  | len :: lens => m.behind p 1 = len ∧ Records m (p + len.setWidth 64) lens

def total (lens : List (BitVec 8)) : Nat := (lens.map BitVec.toNat).sum

structure WellFormed (m : Mem) (p : BitVec 64) (lens : List (BitVec 8)) : Prop where
  length : (load32 (m.behind p) 4).toNat = 44 + total lens
  records : Records m (p + 44) lens
  header : ∀ len ∈ lens, 2 ≤ len.toNat

/-- The walk ends, the headers it visits are those of the records, in order, and the `Length` it reads
in each of them is inside the table. -/
def VisitsRecords (m : Mem) (p : BitVec 64) (lens : List (BitVec 8)) : Prop :=
  ∃ fuel, walk m (MADT.endIterator m p) fuel (MADT.beginIterator p) = some (headers (p + 44) lens) ∧
    ∀ q ∈ headers (p + 44) lens, (q + 1 - p).toNat < (SDTHeader.length m p).toNat

section Walk

variable {m : Mem} {p q : BitVec 64} {lens : List (BitVec 8)} {last it : ApicRecordIterator}
  {ps : List (BitVec 64)} {fuel : Nat}

/-- A walk that is not at its last position visits a header and goes on. -/
theorem walk_step {n : Nat} (h0 : 0 < n) (hn : n < 2 ^ 64) (hlast : last.pos = q + BitVec.ofNat 64 n)
    (h : walk m last fuel ⟨q⟩ = some ps) :
    ∃ fuel' rest, walk m last fuel' (ApicRecordIterator.next m ⟨q⟩) = some rest ∧ ps = q :: rest := by
  cases fuel with
  | zero => cases h
  | succ fuel =>
    have hne : (⟨q⟩ : ApicRecordIterator) ≠ last := by
      intro he
      have hq : q.toNat = (q + BitVec.ofNat 64 n).toNat := by rw [← hlast, ← he]
      rw [BitVec.toNat_add, BitVec.toNat_ofNat] at hq
      have := q.isLt
      omega
    rw [walk, if_neg hne] at h
    obtain ⟨rest, hr, rfl⟩ := Option.map_eq_some_iff.mp h
    exact ⟨fuel, rest, hr, rfl⟩

/-- A position with a zero in the place of a length is not left. -/
theorem walk_stuck (fuel : Nat) (hz : APICRecordHeader.length m it.pos = 0) (hne : it ≠ last) :
    walk m last fuel it = none := by
  have hnext : it.next m = it := by
    rw [ApicRecordIterator.next, hz]
    exact congrArg ApicRecordIterator.mk (BitVec.add_zero _)
  induction fuel with
  | zero => rfl
  | succ fuel ih => rw [walk, if_neg hne, hnext, ih, Option.map_none]

/-- A walk to a position twelve bytes behind the records passes the end of the records. -/
theorem walk_past (hr : Records m q lens) (hlt : total lens + 12 < 2 ^ 64)
    (hlast : last.pos = q + BitVec.ofNat 64 (total lens + 12))
    (h : walk m last fuel ⟨q⟩ = some ps) :
    ∃ rest, ps = headers q lens ++ (q + BitVec.ofNat 64 (total lens)) :: rest := by
  induction lens generalizing q fuel ps with
  | nil =>
    obtain ⟨fuel', rest, hw, rfl⟩ := walk_step (by omega) hlt hlast h
    refine ⟨rest, ?_⟩
    simp [headers, total]
  | cons len lens ih =>
    obtain ⟨fuel', rest, hw, rfl⟩ := walk_step (by omega) hlt hlast h
    obtain ⟨hlen, hr⟩ := hr
    have htot : total (len :: lens) = len.toNat + total lens := by simp [total]
    have hnext : ApicRecordIterator.next m ⟨q⟩ = ⟨q + len.setWidth 64⟩ := by
      rw [ApicRecordIterator.next, APICRecordHeader.length]
      rw [show apicRecordHeader.getD 1 0 = 1 from rfl, hlen]
    have hlast' : last.pos = q + len.setWidth 64 + BitVec.ofNat 64 (total lens + 12) := by
      rw [hlast, htot, ← BitVec.ofNat_toNat 64 len, BitVec.add_assoc, ← BitVec.ofNat_add,
        Nat.add_assoc]
    rw [hnext] at hw
    obtain ⟨rest', rfl⟩ := ih hr (by omega) hlast' hw
    refine ⟨rest', ?_⟩
    rw [headers, htot, BitVec.ofNat_add, BitVec.ofNat_toNat, ← BitVec.add_assoc]
    rfl

/-- `end` is at the length of the table plus twelve. -/
theorem WellFormed.endIterator (h : WellFormed m p lens) :
    (MADT.endIterator m p).pos = p + 44 + BitVec.ofNat 64 (total lens + 12) := by
  have hl : (SDTHeader.length m p).toNat = 44 + total lens := h.length
  have hsub : (SDTHeader.length m p - 32).toNat = total lens + 12 := by
    have h32 : (32 : BitVec 32).toNat = 32 := rfl
    have hle : (32 : BitVec 32) ≤ SDTHeader.length m p := by
      rw [BitVec.le_def, hl, h32]
      omega
    rw [BitVec.toNat_sub_of_le hle, hl, h32]
    omega
  rw [← hsub, BitVec.ofNat_toNat]
  rfl

theorem WellFormed.total_lt (h : WellFormed m p lens) : total lens + 12 < 2 ^ 64 := by
  have := (load32 (m.behind p) 4).isLt
  have := h.length
  omega

/-- The walk over the records of a table visits the position behind the table. -/
theorem WellFormed.walk_past (h : WellFormed m p lens)
    (hw : walk m (MADT.endIterator m p) fuel (MADT.beginIterator p) = some ps) :
    ∃ rest, ps = headers (p + 44) lens ++ (p + 44 + BitVec.ofNat 64 (total lens)) :: rest := by
  have hb : MADT.beginIterator p = ⟨p + 44⟩ := by
    rw [MADT.beginIterator, MADT.record]
    exact congrArg _ (BitVec.add_zero _)
  rw [hb] at hw
  exact Acpi.walk_past h.records h.total_lt h.endIterator hw

/-- Of no table are exactly the records visited. -/
theorem never_visits_records (m : Mem) (p : BitVec 64) (lens : List (BitVec 8))
    (h : WellFormed m p lens) : ¬ VisitsRecords m p lens := by
  rintro ⟨fuel, hw, -⟩
  obtain ⟨rest, he⟩ := h.walk_past hw
  have hlen := congrArg List.length he
  rw [List.length_append, List.length_cons] at hlen
  omega

/-- A MADT at 0x1000 with one record of eight bytes, and zeros behind it. -/
def oneRecord : Mem := image [(kerPtr 0x1004, 52), (kerPtr 0x102d, 8)]

theorem oneRecord_wellFormed : WellFormed oneRecord (kerPtr 0x1000) [8] where
  length := by decide
  records := ⟨by decide, trivial⟩
  header := by decide

theorem oneRecord_not_visited : ¬ VisitsRecords oneRecord (kerPtr 0x1000) [8] :=
  never_visits_records oneRecord (kerPtr 0x1000) [8] oneRecord_wellFormed

/-- Behind the record the iterator stops moving before it is at its end. -/
theorem walk_never_ends :
    WellFormed oneRecord (kerPtr 0x1000) [8] ∧
      (∀ fuel, walk oneRecord (MADT.endIterator oneRecord (kerPtr 0x1000)) fuel
        (MADT.beginIterator (kerPtr 0x1000)) = none) ∧
      ¬ VisitsRecords oneRecord (kerPtr 0x1000) [8] := by
  have hnone : ∀ fuel, walk oneRecord (MADT.endIterator oneRecord (kerPtr 0x1000)) fuel
      (MADT.beginIterator (kerPtr 0x1000)) = none := by
    intro fuel
    cases fuel with
    | zero => rfl
    | succ fuel =>
      have hstuck : walk oneRecord (MADT.endIterator oneRecord (kerPtr 0x1000)) fuel
          (ApicRecordIterator.next oneRecord (MADT.beginIterator (kerPtr 0x1000))) = none :=
        walk_stuck fuel (by decide) (by decide)
      rw [walk, if_neg (by decide), hstuck, Option.map_none]
  refine ⟨oneRecord_wellFormed, hnone, ?_⟩
  rintro ⟨fuel, hw, -⟩
  rw [hnone] at hw
  cases hw

end Walk

end Acpi
end TorexOS
