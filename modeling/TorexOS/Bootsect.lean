import Mathlib.Data.List.Perm.Basic
import TorexOS.Memscan

/-!
# TorexOS.Bootsect

The hand-over of the system address map, from `stage2.s` to the kernel.

* `queryLoop`, `querySystemAddressMap`: the BIOS is asked for the table; a sequence of answers stands
  for the BIOS.
* `entryCount`: the division by 24 in protected mode.
* `handed_over_iff`: exactly when the kernel sees the valid answers, before and after it sorts them.
-/

namespace TorexOS
namespace Memory

open Util

/-- What one call of `int 0x15` does: 24 bytes at `es:di` and the continuation value in `ebx`. In the
place of `reserved` are the extended attributes. -/
structure Answer where
  entry : E820MmapEntry
  ebx : BitVec 32

/-- The attribute bit is set and the length is not zero. -/
def Answer.valid (a : Answer) : Bool := a.entry.reserved.getLsbD 0 && a.entry.length ≠ 0

/-- How the query ends: in its error loop, with an answer stored beyond the table (over the code of
stage 2, of which nothing is said from then on), or at `.query_end`. -/
inductive Query where
  | error
  | overrun
  | done (m : Dwords) (di : Nat)

/-- `QuerySystemAddressMap.lp`, once for each answer. -/
def queryLoop (m : Dwords) (di : Nat) : List Answer → Query
  | [] => .error
  | a :: as =>
    if systemAddressMapEnd < di + 24 then .overrun
    else
      let m : Dwords := fun x => if x = di + 20 then 1 else m x
      let m := writeEntry m di a.entry
      if (m (di + 20)).getLsbD 0 = false then
        if a.ebx = 0 then .done m di
        else if di < systemAddressMapEnd then queryLoop m di as
        else .error
      else if m (di + 8) ||| m (di + 12) = 0 then
        if a.ebx = 0 then .done m di
        else if di < systemAddressMapEnd then queryLoop m di as
        else .error
      else if a.ebx = 0 then .done m di
      -- `cmp di, system_address_map_end` is followed by an unconditional jump
      else queryLoop m (di + 24) as

/-- `QuerySystemAddressMap`: the buffer is cleared, the loop run and the size in bytes stored. Only
`di` is loaded, so the upper half of `edi` is what it was, `ediHigh`. -/
def querySystemAddressMap (ediHigh : BitVec 16) (m : Dwords) (answers : List Answer) : Query :=
  let m : Dwords := fun x => if systemAddressMap ≤ x ∧ x < systemAddressMapEnd then 0 else m x
  match queryLoop m systemAddressMap answers with
  | .error => .error
  | .overrun => .overrun
  | .done m di =>
    let edi := ediHigh ++ BitVec.ofNat 16 di
    let edi := edi - BitVec.ofNat 32 (systemAddressMap - 24)
    .done (fun x => if x = systemAddressMapSize then edi else m x) di

/-- In `ProtectedMode` the size in bytes becomes the number of entries. -/
def entryCount (m : Dwords) : Dwords := fun x =>
  if x = systemAddressMapSize then m systemAddressMapSize / 24 else m x

/-- The BIOS ends the sequence with continuation zero, and only there. -/
def WellFormed : List Answer → Prop
  | [] => False
  | [a] => a.ebx = 0
  | a :: as => a.ebx ≠ 0 ∧ WellFormed as

/-- The answers with the valid bit and a length, in order. -/
def kept (answers : List Answer) : List E820MmapEntry :=
  (answers.filter Answer.valid).map Answer.entry

/-- The kernel reads `es`, with the table inside its memory, and still does after it has sorted the
table by base. -/
def HandedOver (m : Dwords) (es : List E820MmapEntry) : Prop :=
  systemAddressMap + 24 * es.length ≤ systemAddressMapEnd ∧
    (e820MmapEntryCount m).toNat = es.length ∧ e820Entries m = es ∧
    (e820MmapEntryCount (sortEntries m)).toNat = es.length ∧
    (e820Entries (sortEntries m)).Perm es ∧
    (e820Entries (sortEntries m)).Pairwise fun a b => a.base ≤ b.base

/-- The error loop, or the valid answers handed over. -/
def Delivers (ediHigh : BitVec 16) (m : Dwords) (answers : List Answer) : Prop :=
  match querySystemAddressMap ediHigh m answers with
  | .error => True
  | .overrun => False
  | .done m _ => HandedOver (entryCount m) (kept answers)

section Loop

variable {m m' : Dwords} {a : Answer} {as answers : List Answer} {di j : Nat}

theorem or_halves_eq_zero {x : BitVec 64} :
    x.extractLsb' 0 32 ||| x.extractLsb' 32 32 = 0 ↔ x = 0 := by
  have hx : x.extractLsb' 32 32 ++ x.extractLsb' 0 32 = x := BitVec.extractLsb'_append_extractLsb'
  constructor
  · intro h
    have h' := BitVec.or_eq_zero_iff.mp h
    rw [h'.1, h'.2] at hx
    rw [← hx]
    rfl
  · intro h
    rw [h]
    rfl

/-- One answer: the dword forced to one is overwritten, a valid answer moves `di` on. -/
theorem queryLoop_cons (hfit : di + 24 ≤ systemAddressMapEnd) :
    queryLoop m di (a :: as) =
      if a.ebx = 0 then .done (writeEntry m di a.entry) di
      else queryLoop (writeEntry m di a.entry) (if a.valid then di + 24 else di) as := by
  have hforce : writeEntry (fun x => if x = di + 20 then 1 else m x) di a.entry =
      writeEntry m di a.entry := by
    funext x
    by_cases hx : x = di + 20
    · simp [writeEntry, hx]
    · simp [writeEntry, hx]
  have hattr : writeEntry m di a.entry (di + 20) = a.entry.reserved := by simp [writeEntry]
  have hlo : writeEntry m di a.entry (di + 8) = a.entry.length.extractLsb' 0 32 := by
    simp [writeEntry]
  have hhi : writeEntry m di a.entry (di + 12) = a.entry.length.extractLsb' 32 32 := by
    simp [writeEntry]
  have hlt : di < systemAddressMapEnd := by omega
  have hnot : ¬ systemAddressMapEnd < di + 24 := Nat.not_lt.mpr hfit
  simp only [queryLoop, hforce, hattr, hlo, hhi, or_halves_eq_zero, if_neg hnot, if_pos hlt]
  cases hbit : a.entry.reserved.getLsbD 0 with
  | false =>
    have hv : a.valid = false := by rw [Answer.valid, hbit, Bool.false_and]
    simp only [hv, if_true, Bool.false_eq_true, if_false]
  | true =>
    by_cases hlen : a.entry.length = 0
    · have hv : a.valid = false := by simp only [Answer.valid, hlen, ne_eq, not_true, decide_false,
        Bool.and_false]
      simp only [hv, hlen, if_true, reduceCtorEq, if_false, Bool.false_eq_true]
    · have hv : a.valid = true := by simp only [Answer.valid, hbit, ne_eq, hlen, not_false_eq_true,
        decide_true, Bool.and_true]
      simp only [hv, hlen, if_true, reduceCtorEq, if_false]

/-- 191 entries fit. -/
theorem fits_iff : systemAddressMap + 24 * j + 24 ≤ systemAddressMapEnd ↔ j < 191 := by
  simp only [systemAddressMap, systemAddressMapSize, systemAddressMapEnd]
  omega

theorem kept_cons : kept (a :: as) = if a.valid then a.entry :: kept as else kept as := by
  cases hv : a.valid with
  | false => simp [kept, hv]
  | true => simp [kept, hv]

/-- The entries before the one stored are as before. -/
theorem slice_writeEntry (m : Dwords) (j : Nat) (e : E820MmapEntry) :
    slice (e820MmapEntry (writeEntry m (systemAddressMap + 24 * j) e)) 0 j =
      slice (e820MmapEntry m) 0 j := by
  refine slice_congr fun i hi => ?_
  exact readEntry_writeEntry_of_apart (by omega)

theorem slice_writeEntry_succ (m : Dwords) (j : Nat) (e : E820MmapEntry) :
    slice (e820MmapEntry (writeEntry m (systemAddressMap + 24 * j) e)) 0 (j + 1) =
      slice (e820MmapEntry m) 0 j ++ [e] := by
  rw [slice_succ, slice_writeEntry, Nat.zero_add, e820MmapEntry, readEntry_writeEntry]

/-- With the last answer valid and room for all, the loop appends the valid answers. By induction on
the answers, `j` entries being in the table. -/
theorem queryLoop_valid : ∀ {m : Dwords} {j : Nat}, WellFormed answers →
    (∀ a ∈ answers.getLast?, a.valid = true) → j + (kept answers).length ≤ 191 →
    ∃ m', queryLoop m (systemAddressMap + 24 * j) answers =
        .done m' (systemAddressMap + 24 * (j + (kept answers).length) - 24) ∧
      0 < (kept answers).length ∧
      slice (e820MmapEntry m') 0 (j + (kept answers).length) =
        slice (e820MmapEntry m) 0 j ++ kept answers := by
  induction answers with
  | nil => intro m j hw; cases hw
  | cons a as ih =>
    intro m j hw hlast hj
    cases as with
    | nil =>
      have hv : a.valid = true := hlast a rfl
      have hk : kept [a] = [a.entry] := by rw [kept_cons, if_pos hv]; rfl
      have hend : a.ebx = 0 := hw
      rw [hk, List.length_singleton] at hj ⊢
      refine ⟨_, ?_, Nat.one_pos, slice_writeEntry_succ m j a.entry⟩
      rw [queryLoop_cons (fits_iff.mpr hj), if_pos hend]
      congr 1
    | cons b as =>
      obtain ⟨hne, hw⟩ := hw
      rw [List.getLast?_cons_cons] at hlast
      rw [kept_cons] at hj ⊢
      by_cases hv : a.valid = true
      · rw [if_pos hv, List.length_cons] at hj ⊢
        have hj' : j + 1 + (kept (b :: as)).length ≤ 191 := by omega
        have hfit : j < 191 := by omega
        obtain ⟨m', hq, hpos, hs⟩ :=
          ih (m := writeEntry m (systemAddressMap + 24 * j) a.entry) hw hlast hj'
        refine ⟨m', ?_, Nat.succ_pos _, ?_⟩
        · rw [queryLoop_cons (fits_iff.mpr hfit), if_neg hne, if_pos hv,
            show systemAddressMap + 24 * j + 24 = systemAddressMap + 24 * (j + 1) by omega, hq]
          congr 1
          omega
        · rw [show j + ((kept (b :: as)).length + 1) = j + 1 + (kept (b :: as)).length by omega, hs,
            slice_writeEntry_succ, List.append_assoc]
          rfl
      · rw [if_neg hv] at hj ⊢
        obtain ⟨m', hq, hpos, hs⟩ :=
          ih (m := writeEntry m (systemAddressMap + 24 * j) a.entry) hw hlast hj
        have hfit : j < 191 := by omega
        refine ⟨m', ?_, hpos, by rw [hs, slice_writeEntry]⟩
        rw [queryLoop_cons (fits_iff.mpr hfit), if_neg hne, if_neg hv, hq]

/-- With more valid answers than fit, one is stored beyond the table. -/
theorem queryLoop_overrun : ∀ {m : Dwords} {j : Nat}, WellFormed answers →
    (∀ a ∈ answers.getLast?, a.valid = true) → 191 < j + (kept answers).length → j ≤ 191 →
    queryLoop m (systemAddressMap + 24 * j) answers = .overrun := by
  induction answers with
  | nil => intro m j hw; cases hw
  | cons a as ih =>
    intro m j hw hlast hj hle
    by_cases hfit : j < 191
    · cases as with
      | nil =>
        have hk : (kept [a]).length ≤ 1 := by
          rw [kept_cons]
          split
          · exact Nat.le_refl 1
          · exact Nat.zero_le 1
        omega
      | cons b as =>
        obtain ⟨hne, hw⟩ := hw
        rw [List.getLast?_cons_cons] at hlast
        rw [kept_cons] at hj
        rw [queryLoop_cons (fits_iff.mpr hfit), if_neg hne]
        by_cases hv : a.valid = true
        · rw [if_pos hv, List.length_cons] at hj
          rw [if_pos hv, show systemAddressMap + 24 * j + 24 = systemAddressMap + 24 * (j + 1) by omega]
          exact ih hw hlast (by omega) hfit
        · rw [if_neg hv] at hj
          rw [if_neg hv]
          exact ih hw hlast hj hle
    · have hnot : systemAddressMapEnd < systemAddressMap + 24 * j + 24 := by
        have := mt fits_iff.mp hfit
        omega
      rw [queryLoop, if_pos hnot]

/-- With the last answer skipped, `di` ends after the last entry and not at it. -/
theorem queryLoop_skipped : ∀ {m : Dwords} {j : Nat}, WellFormed answers →
    (∀ a ∈ answers.getLast?, a.valid = false) →
    queryLoop m (systemAddressMap + 24 * j) answers = .overrun ∨
      ∃ m', queryLoop m (systemAddressMap + 24 * j) answers =
        .done m' (systemAddressMap + 24 * (j + (kept answers).length)) ∧
          j + (kept answers).length ≤ 191 := by
  induction answers with
  | nil => intro m j hw; cases hw
  | cons a as ih =>
    intro m j hw hlast
    by_cases hfit : j < 191
    · cases as with
      | nil =>
        have hv : a.valid = false := hlast a rfl
        have hk : kept [a] = [] := by rw [kept_cons, hv]; rfl
        have hend : a.ebx = 0 := hw
        rw [hk]
        refine .inr ⟨writeEntry m (systemAddressMap + 24 * j) a.entry, ?_, Nat.le_of_lt hfit⟩
        rw [queryLoop_cons (fits_iff.mpr hfit), if_pos hend]
        rfl
      | cons b as =>
        obtain ⟨hne, hw⟩ := hw
        rw [List.getLast?_cons_cons] at hlast
        rw [queryLoop_cons (fits_iff.mpr hfit), if_neg hne, kept_cons]
        by_cases hv : a.valid = true
        · rw [if_pos hv, if_pos hv, List.length_cons,
            show systemAddressMap + 24 * j + 24 = systemAddressMap + 24 * (j + 1) by omega,
            show j + ((kept (b :: as)).length + 1) = j + 1 + (kept (b :: as)).length by omega]
          exact ih hw hlast
        · rw [if_neg hv, if_neg hv]
          exact ih hw hlast
    · have hnot : systemAddressMapEnd < systemAddressMap + 24 * j + 24 := by
        have := mt fits_iff.mp hfit
        omega
      exact .inl (by rw [queryLoop, if_pos hnot])

end Loop

section HandOver

variable {ediHigh : BitVec 16} {m m' : Dwords} {answers : List Answer} {n : Nat}
variable {es : List E820MmapEntry}

/-- The kernel's entries after the sort: those before it, ordered by base. -/
theorem sortEntries_spec (hn : (e820MmapEntryCount m).toNat = n) :
    sortEntries m systemAddressMapSize = m systemAddressMapSize ∧
      (slice (e820MmapEntry (sortEntries m)) 0 n).Perm (slice (e820MmapEntry m) 0 n) ∧
      (slice (e820MmapEntry (sortEntries m)) 0 n).Pairwise fun a b => a.base ≤ b.base := by
  obtain ⟨hs, hp, _⟩ := insertionSort_spec base_strictWeak (Nat.zero_le n) (e820MmapEntry m)
  rw [Nat.sub_zero] at hs hp
  have hread : slice (e820MmapEntry (sortEntries m)) 0 n =
      slice (insertionSort (fun a b => decide (a.base < b.base)) (e820MmapEntry m) 0 n) 0 n := by
    refine slice_congr fun i hi => ?_
    rw [sortEntries, hn, Nat.zero_add, e820MmapEntry_writeEntries hi]
  refine ⟨?_, by rw [hread]; exact hp, ?_⟩
  · rw [sortEntries, writeEntries_of_outside]
    exact .inl (by simp only [systemAddressMap]; omega)
  · rw [hread]
    refine hs.imp fun {a b} hab => ?_
    simp only [decide_eq_false_iff_not, BitVec.lt_def] at hab
    simp only [BitVec.le_def]
    omega

/-- The first of the sorted entries has the least base, so it has low bits when the least base has. -/
theorem sorted_first (hn : (e820MmapEntryCount m).toNat = n) (hpos : 0 < n)
    (hes : slice (e820MmapEntry m) 0 n = es) :
    sortEntries m systemAddressMap = 0 ↔
      ∀ e ∈ es, (∀ e' ∈ es, e.base ≤ e'.base) → e.base.extractLsb' 0 32 = 0 := by
  obtain ⟨_, hp, hs⟩ := sortEntries_spec hn
  rw [hes] at hp
  obtain ⟨k, rfl⟩ : ∃ k, n = k + 1 := ⟨n - 1, by omega⟩
  rw [Nat.add_comm, slice_add] at hp hs
  let first := e820MmapEntry (sortEntries m) 0
  have hfirst : slice (e820MmapEntry (sortEntries m)) 0 1 = [first] := rfl
  rw [hfirst, List.singleton_append] at hp hs
  have hmem : first ∈ es := hp.subset (List.mem_cons_self ..)
  have hle : ∀ e ∈ es, first.base ≤ e.base := by
    intro e he
    cases hp.symm.subset he with
    | head => exact BitVec.le_refl _
    | tail _ he => exact (List.pairwise_cons.mp hs).1 e he
  rw [← e820MmapEntry_base_low (sortEntries m)]
  constructor
  · intro h e he hmin
    have heq : e.base = first.base := BitVec.le_antisymm (hmin first hmem) (hle e he)
    rw [heq]
    exact h
  · intro h
    exact h first hmem hle

/-- What is in the table after `.query_end`, and the count computed from where `di` is. -/
def afterQuery (ediHigh : BitVec 16) (m : Dwords) (di : Nat) : Dwords :=
  entryCount fun x => if x = systemAddressMapSize then
    ediHigh ++ BitVec.ofNat 16 di - BitVec.ofNat 32 (systemAddressMap - 24) else m x

theorem afterQuery_table {di x : Nat} (hx : systemAddressMap ≤ x) :
    afterQuery ediHigh m di x = m x := by
  have hne : x ≠ systemAddressMapSize := by
    simp only [systemAddressMap] at hx
    omega
  simp only [afterQuery, entryCount, if_neg hne]

theorem afterQuery_entries (di : Nat) :
    slice (e820MmapEntry (afterQuery ediHigh m di)) 0 n = slice (e820MmapEntry m) 0 n :=
  slice_congr fun _ _ => readEntry_congr fun _ hx _ => afterQuery_table (by omega)

/-- With `di` at the `k`-th entry the count is `k`, plus what stands in the upper half of `edi`. -/
theorem afterQuery_count (ediHigh : BitVec 16) (m : Dwords) {k : Nat} (hpos : 0 < k)
    (hk : k ≤ 192) :
    (afterQuery ediHigh m (systemAddressMap + 24 * k - 24) systemAddressMapSize).toNat =
      k + ediHigh.toNat * 65536 / 24 := by
  have hh := ediHigh.isLt
  have hdi : (BitVec.ofNat 16 (systemAddressMap + 24 * k - 24)).toNat = 0x610 + 24 * k - 24 := by
    rw [BitVec.toNat_ofNat]
    exact Nat.mod_eq_of_lt (by simp only [systemAddressMap, systemAddressMapSize]; omega)
  have hedi : (ediHigh ++ BitVec.ofNat 16 (systemAddressMap + 24 * k - 24)).toNat =
      ediHigh.toNat * 65536 + (0x610 + 24 * k - 24) := by
    rw [BitVec.toNat_append, ← Nat.shiftLeft_add_eq_or_of_lt (BitVec.isLt _), Nat.shiftLeft_eq, hdi]
  have hoff : (BitVec.ofNat 32 (systemAddressMap - 24)).toNat = 0x5f8 := by decide
  have h24 : (24 : BitVec 32).toNat = 24 := by decide
  have hsum : (2 ^ 32 - 0x5f8 + (ediHigh.toNat * 65536 + (0x610 + 24 * k - 24))) % 2 ^ 32 =
      ediHigh.toNat * 65536 + 24 * k := by omega
  simp only [afterQuery, entryCount, if_true]
  rw [BitVec.toNat_udiv, BitVec.toNat_sub, hedi, hoff, h24, hsum]
  omega

/-- The kernel's view of the table when `k` entries stand in it and `di` at the last. -/
theorem handedOver_iff (hes : slice (e820MmapEntry m) 0 es.length = es) (hpos : 0 < es.length)
    (hk : es.length ≤ 191) :
    HandedOver (afterQuery ediHigh m (systemAddressMap + 24 * es.length - 24)) es ↔
      ediHigh = 0 ∧ (∀ e ∈ es.head?, e.base.extractLsb' 0 32 = 0) ∧
        ∀ e ∈ es, (∀ e' ∈ es, e.base ≤ e'.base) → e.base.extractLsb' 0 32 = 0 := by
  let m₂ := afterQuery ediHigh m (systemAddressMap + 24 * es.length - 24)
  have hsmall : es.length < 2 ^ 32 := by omega
  have hes₂ : slice (e820MmapEntry m₂) 0 es.length = es := by rw [afterQuery_entries]; exact hes
  have hcount := afterQuery_count ediHigh m hpos (by omega)
  -- the count of the bootloader
  have hlow : (m₂ systemAddressMapSize).toNat = es.length ↔ ediHigh = 0 := by
    rw [show (m₂ systemAddressMapSize).toNat = _ from hcount]
    constructor
    · intro h
      have hz : ediHigh.toNat = 0 := by omega
      exact BitVec.eq_of_toNat_eq hz
    · intro h
      rw [h]
      simp
  -- its upper half, as the kernel reads it
  have hfirst : m₂ systemAddressMap = 0 ↔ ∀ e ∈ es.head?, e.base.extractLsb' 0 32 = 0 := by
    have hhead : es.head? = some (e820MmapEntry m₂ 0) := by
      obtain ⟨k, hk⟩ : ∃ k, es.length = k + 1 := ⟨es.length - 1, by omega⟩
      rw [← hes₂, hk, Nat.add_comm, slice_add]
      rfl
    rw [hhead, ← e820MmapEntry_base_low m₂]
    simp
  have hbefore : (e820MmapEntryCount m₂).toNat = es.length ↔
      ediHigh = 0 ∧ ∀ e ∈ es.head?, e.base.extractLsb' 0 32 = 0 := by
    rw [e820MmapEntryCount_eq hsmall, hlow, hfirst]
  have hafter : (e820MmapEntryCount m₂).toNat = es.length →
      ((e820MmapEntryCount (sortEntries m₂)).toNat = es.length ↔
        ∀ e ∈ es, (∀ e' ∈ es, e.base ≤ e'.base) → e.base.extractLsb' 0 32 = 0) := by
    intro hn
    rw [e820MmapEntryCount_eq hsmall, (sortEntries_spec hn).1, sorted_first hn hpos hes₂]
    exact and_iff_right ((e820MmapEntryCount_eq hsmall).mp hn).1
  constructor
  · intro h
    obtain ⟨_, hn, _, hn', _⟩ := h
    obtain ⟨hz, hhead⟩ := hbefore.mp hn
    exact ⟨hz, hhead, (hafter hn).mp hn'⟩
  · intro h
    obtain ⟨hz, hhead, hleast⟩ := h
    have hn := hbefore.mpr ⟨hz, hhead⟩
    have hn' := (hafter hn).mpr hleast
    obtain ⟨_, hp, hs⟩ := sortEntries_spec hn
    refine ⟨?_, hn, ?_, hn', ?_, ?_⟩
    · simp only [systemAddressMap, systemAddressMapSize, systemAddressMapEnd]
      omega
    · rw [e820Entries, hn]
      exact hes₂
    · rw [e820Entries, hn']
      rw [hes₂] at hp
      exact hp
    · rw [e820Entries, hn']
      exact hs

/-- The memory map is handed over exactly when the last answer is valid, at most 191 answers are,
the upper half of `edi` was zero, and neither the first base nor the least base has low bits. -/
theorem delivers_iff (hw : WellFormed answers) :
    Delivers ediHigh m answers ↔
      (∀ a ∈ answers.getLast?, a.valid = true) ∧ (kept answers).length ≤ 191 ∧ ediHigh = 0 ∧
        (∀ e ∈ (kept answers).head?, e.base.extractLsb' 0 32 = 0) ∧
        ∀ e ∈ kept answers, (∀ e' ∈ kept answers, e.base ≤ e'.base) →
          e.base.extractLsb' 0 32 = 0 := by
  let m₀ : Dwords := fun x => if systemAddressMap ≤ x ∧ x < systemAddressMapEnd then 0 else m x
  have hzero : systemAddressMap + 24 * 0 = systemAddressMap := rfl
  obtain ⟨a, ha⟩ : ∃ a, answers.getLast? = some a := by
    cases hl : answers.getLast? with
    | none => rw [List.getLast?_eq_none_iff] at hl; rw [hl] at hw; cases hw
    | some a => exact ⟨a, rfl⟩
  have hdel : ∀ m' di, queryLoop m₀ systemAddressMap answers = .done m' di →
      (Delivers ediHigh m answers ↔ HandedOver (afterQuery ediHigh m' di) (kept answers)) := by
    intro m' di h
    rw [Delivers, querySystemAddressMap, h]
    exact Iff.rfl
  have hover : queryLoop m₀ systemAddressMap answers = .overrun → ¬ Delivers ediHigh m answers := by
    intro h
    rw [Delivers, querySystemAddressMap, h]
    exact not_false
  cases hv : a.valid with
  | true =>
    have hlast : ∀ b ∈ answers.getLast?, b.valid = true := by
      intro b hb
      rw [ha] at hb
      cases hb
      exact hv
    by_cases hk : (kept answers).length ≤ 191
    · obtain ⟨m', hq, hpos, hs⟩ := queryLoop_valid (m := m₀) (j := 0) hw hlast (by omega)
      rw [Nat.zero_add] at hq hs
      rw [hdel m' _ hq, handedOver_iff hs hpos hk]
      exact ⟨fun h => ⟨hlast, hk, h⟩, fun h => h.2.2⟩
    · have hq := queryLoop_overrun (m := m₀) (j := 0) hw hlast (by omega) (Nat.zero_le _)
      exact ⟨fun h => absurd h (hover hq), fun h => absurd h.2.1 hk⟩
  | false =>
    have hlast : ∀ b ∈ answers.getLast?, b.valid = false := by
      intro b hb
      rw [ha] at hb
      cases hb
      exact hv
    refine ⟨fun h => ?_, fun h => ?_⟩
    · cases queryLoop_skipped (m := m₀) (j := 0) hw hlast with
      | inl hq => exact absurd h (hover hq)
      | inr hq =>
        obtain ⟨m', hq, hk⟩ := hq
        rw [Nat.zero_add] at hq hk
        obtain ⟨_, hn, _⟩ := (hdel m' _ hq).mp h
        have hn' := ((e820MmapEntryCount_eq (by omega)).mp hn).1
        have hcount := afterQuery_count ediHigh m' (k := (kept answers).length + 1)
          (Nat.succ_pos _) (by omega)
        rw [show systemAddressMap + 24 * ((kept answers).length + 1) - 24 =
          systemAddressMap + 24 * (kept answers).length by omega, hn'] at hcount
        omega
    · have := h.1 a (by rw [ha]; rfl)
      rw [hv] at this
      cases this

end HandOver

/-- Conventional memory and, last, the memory above 1 MiB. -/
def twoRegions : List Answer :=
  [⟨⟨0, 0x9fc00, regionFree, 1⟩, 1⟩, ⟨⟨0x100000, 0x7ef00000, regionFree, 1⟩, 0⟩]

theorem delivers_two : Delivers 0 (fun _ => 0) twoRegions := by
  have hk : kept twoRegions =
      [⟨0, 0x9fc00, regionFree, 1⟩, ⟨0x100000, 0x7ef00000, regionFree, 1⟩] := by decide
  refine (delivers_iff (show WellFormed twoRegions from ⟨by decide, rfl⟩)).mpr
    ⟨?_, by rw [hk]; decide, rfl, ?_, ?_⟩
  · intro a ha
    cases ha
    decide
  · intro e he
    rw [hk] at he
    cases he
    decide
  · intro e he hmin
    rw [hk] at he hmin
    cases he with
    | head => decide
    | tail _ he =>
      cases he with
      | head => exact absurd (hmin _ (List.mem_cons_self ..)) (by decide)
      | tail _ he => cases he

/-- The same regions and, last, an entry without length: the kernel counts it. -/
theorem skipped_last_counted :
    ¬ ∀ ediHigh m answers, WellFormed answers → Delivers ediHigh m answers := by
  intro h
  have hd := h 0 (fun _ => 0) [⟨⟨0, 0x9fc00, regionFree, 1⟩, 1⟩, ⟨⟨0, 0, regionFree, 1⟩, 0⟩]
    ⟨by decide, rfl⟩
  have hn : (2 : Nat) = 1 := hd.2.1
  cases hn

end Memory
end TorexOS
