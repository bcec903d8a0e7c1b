import TorexOS.Address
import TorexOS.Lib.Packed
import TorexOS.Lib.Seek

/-!
# TorexOS.Rsdt

The lookup of an ACPI table, `acpi/rsdt.cpp`.

* The offsets of `acpi/rsdt.h`, as the layout rules give them: only the member after the header is
  aligned differently in an `RSDT` and in an `XSDT`.
* `findSDT`: the loop over the one or the other, with the headers it looks at.
* `Lists`: what the firmware provides, in the offsets of the format.
* `findSDT_right_iff`: the lookup is right with an RSDT. An XSDT is read four bytes too far.
-/

namespace TorexOS
namespace Acpi

open Memory Packed Seek

/-- The bytes of memory. -/
abbrev Mem := BitVec 64 → BitVec 8

/-- The bytes behind a pointer. -/
def Mem.behind (m : Mem) (p : BitVec 64) : Nat → BitVec 8 := fun i => m (p + BitVec.ofNat 64 i)

/-- `physical_location(address).to_ker()` -/
def kerPtr (address : BitVec 64) : BitVec 64 := BitVec.ofNat 64 (toKer address.toNat)

/-! ## Layout -/

/-- Without a pragma: no member has a larger alignment. -/
def unpacked : Nat := 16

/-- `Signature`, `Checksum`, `OEMID`, `Revision`, `RsdtAddress` -/
def rsdpDescriptor : List Nat := offsets unpacked 0 [(8, 1), (1, 1), (6, 1), (1, 1), (4, 4)]

/-- The members of the base are followed by `Length`, `XsdtAddress`, `ExtendedChecksum`, `reserved`. -/
def rsdpDescriptor20 : List Nat :=
  offsets unpacked (rsdpDescriptor.getD 5 0) [(4, 4), (8, 8), (1, 1), (3, 1)]

/-- `Signature`, `Length`, `Revision`, `Checksum`, `OEMID`, `OEMTableID`, `OEMRevision`, `CreatorID`,
`CreatorRevision` -/
def sdtHeader : List Nat :=
  offsets unpacked 0 [(4, 1), (4, 4), (1, 1), (1, 1), (6, 1), (8, 1), (4, 4), (4, 4), (4, 4)]

/-- `sizeof(SDTHeader)` -/
def sizeofSDTHeader : Nat := sdtHeader.getD 9 0

/-- `uint32_t other_sdt_ptr[0]` -/
def rsdt : List Nat := offsets unpacked sizeofSDTHeader [(0, 4)]

/-- `phys_addr_t other_sdt_ptr[0]` -/
def xsdt : List Nat := offsets unpacked sizeofSDTHeader [(0, 8)]

def SDTHeader.signature (m : Mem) (p : BitVec 64) : BitVec 32 :=
  load32 (m.behind p) (sdtHeader.getD 0 0)

def SDTHeader.length (m : Mem) (p : BitVec 64) : BitVec 32 :=
  load32 (m.behind p) (sdtHeader.getD 1 0)

/-- `(Length - sizeof(SDTHeader)) / 4` -/
def RSDT.entryCount (m : Mem) (p : BitVec 64) : BitVec 64 :=
  ((SDTHeader.length m p).setWidth 64 - BitVec.ofNat 64 sizeofSDTHeader) / 4

/-- `(Length - sizeof(SDTHeader)) / 8` -/
def XSDT.entryCount (m : Mem) (p : BitVec 64) : BitVec 64 :=
  ((SDTHeader.length m p).setWidth 64 - BitVec.ofNat 64 sizeofSDTHeader) / 8

def RSDT.otherSdtPtr (m : Mem) (p : BitVec 64) (i : Nat) : BitVec 32 :=
  load32 (m.behind p) (rsdt.getD 0 0 + 4 * i)

def XSDT.otherSdtPtr (m : Mem) (p : BitVec 64) (i : Nat) : BitVec 64 :=
  load64 (m.behind p) (xsdt.getD 0 0 + 8 * i)

def RSDPDescriptor.revision (m : Mem) (p : BitVec 64) : BitVec 8 :=
  m.behind p (rsdpDescriptor.getD 3 0)

def RSDPDescriptor.rsdtAddress (m : Mem) (p : BitVec 64) : BitVec 32 :=
  load32 (m.behind p) (rsdpDescriptor.getD 4 0)

def RSDPDescriptor20.xsdtAddress (m : Mem) (p : BitVec 64) : BitVec 64 :=
  load64 (m.behind p) (rsdpDescriptor20.getD 1 0)

/-! ## Lookup -/

/-- `"RSD PTR "` -/
def rsdSignature : List (BitVec 8) := [0x52, 0x53, 0x44, 0x20, 0x50, 0x54, 0x52, 0x20]

/-- `for(size_t i = 0; i < length; i += 16)` -/
def findSignature (m : Mem) (area : BitVec 64) (length : Nat) : Option (BitVec 64) :=
  ((List.range ((length + 15) / 16)).map fun i => area + BitVec.ofNat 64 (16 * i)).find? fun p =>
    (List.range 8).map (m.behind p) = rsdSignature

/-- `findRSDP`: the extended BIOS data area, then the BIOS area. -/
def findRSDP (m : Mem) : BitVec 64 :=
  let ebdaSeg := m (kerPtr 0x40e + 1) ++ m (kerPtr 0x40e)
  match findSignature m (kerPtr (ebdaSeg.setWidth 64 <<< 4)) 1024 with
  | some p => p
  | none => (findSignature m (kerPtr 0xe0000) (0xfffff - 0xe0000)).getD 0

/-- The static variables of the file. -/
structure Statics where
  rsdPtr : BitVec 64
  fadtPtr : BitVec 64
  madtPtr : BitVec 64
  deriving DecidableEq

/-- The headers a lookup looks at, and what it returns. -/
abbrev Lookup := List (BitVec 64) × BitVec 64

/-- `for(size_t i = 0; i < entry_count(); i++)`, with `k` iterations left. -/
def findLoop (m : Mem) (name : Nat → BitVec 8) (entry : Nat → BitVec 64) (i : Nat) : Nat → Lookup
  | 0 => ([], 0)
  | k + 1 =>
    let header := kerPtr (entry i)
    if SDTHeader.signature m header = load32 name 0 then ([header], header)
    else
      let (examined, result) := findLoop m name entry (i + 1) k
      (header :: examined, result)

/-- `findSDT` behind the test of `rsd_ptr`. -/
def findIn (m : Mem) (rsdPtr : BitVec 64) (name : Nat → BitVec 8) : Lookup :=
  if RSDPDescriptor.revision m rsdPtr < 2 then
    let rsdt := kerPtr ((RSDPDescriptor.rsdtAddress m rsdPtr).setWidth 64)
    findLoop m name (fun i => (RSDT.otherSdtPtr m rsdt i).setWidth 64) 0
      (RSDT.entryCount m rsdt).toNat
  else
    let xsdt := kerPtr (RSDPDescriptor20.xsdtAddress m rsdPtr)
    findLoop m name (XSDT.otherSdtPtr m xsdt) 0 (XSDT.entryCount m xsdt).toNat

/-- A string literal. -/
def literal (s : List (BitVec 8)) : Nat → BitVec 8 := fun i => s.getD i 0

/-- `prepareTable`, with the names `"FACP"` and `"APIC"`. -/
def prepareTable (m : Mem) (s : Statics) : Statics × Bool :=
  let rsdPtr := findRSDP m
  if rsdPtr = 0 then ({ s with rsdPtr }, false)
  else
    ({ rsdPtr
       fadtPtr := (findIn m rsdPtr (literal [0x46, 0x41, 0x43, 0x50])).2
       madtPtr := (findIn m rsdPtr (literal [0x41, 0x50, 0x49, 0x43])).2 }, true)

/-- `findSDT`; `none` where it reads the descriptor through a null pointer. -/
def findSDT (m : Mem) (s : Statics) (name : Nat → BitVec 8) : Option (Statics × Lookup) :=
  let s := if s.rsdPtr = 0 then (prepareTable m s).1 else s
  if s.rsdPtr = 0 then none else some (s, findIn m s.rsdPtr name)

/-! ## The tables of the firmware -/

/-- The signature is the name. -/
def hasName (m : Mem) (name : Nat → BitVec 8) (p : BitVec 64) : Bool :=
  (List.range 4).all fun i => m.behind p i = name i

/-- Where a listed table is. -/
def tablePtr (address : BitVec 32) : BitVec 64 := kerPtr (address.setWidth 64)

/-- The RSDT at `p` lists these addresses. -/
structure ListsRsdt (m : Mem) (p : BitVec 64) (tables : List (BitVec 32)) : Prop where
  length : (load32 (m.behind p) 4).toNat = 36 + 4 * tables.length
  entry : ∀ i t, tables[i]? = some t → load32 (m.behind p) (36 + 4 * i) = t

/-- The XSDT at `p` lists these addresses. -/
structure ListsXsdt (m : Mem) (p : BitVec 64) (tables : List (BitVec 32)) : Prop where
  length : (load32 (m.behind p) 4).toNat = 36 + 8 * tables.length
  entry : ∀ i t, tables[i]? = some t → load64 (m.behind p) (36 + 8 * i) = t.setWidth 64

/-- Where the RSDT and the XSDT of the descriptor at `p` are. -/
def rsdtOf (m : Mem) (p : BitVec 64) : BitVec 64 :=
  kerPtr ((load32 (m.behind p) 16).setWidth 64)

def xsdtOf (m : Mem) (p : BitVec 64) : BitVec 64 := kerPtr (load64 (m.behind p) 24)

/-- The descriptor at `p` has revision 0 and an RSDT, or revision 2 and an XSDT. -/
structure Lists (m : Mem) (p : BitVec 64) (tables : List (BitVec 32)) : Prop where
  notNull : p ≠ 0
  root : m.behind p 15 = 0 ∧ ListsRsdt m (rsdtOf m p) tables ∨
    m.behind p 15 = 2 ∧ ListsXsdt m (xsdtOf m p) tables

/-- The descriptor the lookup uses. -/
def located (m : Mem) (s : Statics) : BitVec 64 := if s.rsdPtr = 0 then findRSDP m else s.rsdPtr

/-- The listed tables are looked at in order, and the first with the name is returned. -/
def LooksUp (m : Mem) (name : Nat → BitVec 8) (tables : List (BitVec 32)) (l : Lookup) : Prop :=
  l = (examined (hasName m name) (tables.map tablePtr),
    ((tables.map tablePtr).find? (hasName m name)).getD 0)

/-- As long as the search goes on, the listed address is zero, and so are the low 15 bits behind the
entry. -/
def Degenerate (m : Mem) (p : BitVec 64) (name : Nat → BitVec 8) (tables : List (BitVec 32)) : Prop :=
  ∀ i t, tables[i]? = some t → Reaches (hasName m name) (tables.map tablePtr) i →
    t = 0 ∧ (load32 (m.behind p) (36 + 8 * (i + 1))).toNat % 2 ^ 15 = 0

section Lookup

variable {m : Mem} {p : BitVec 64} {name : Nat → BitVec 8} {tables : List (BitVec 32)} {s : Statics}
  {entry : Nat → BitVec 64} {i k : Nat} {t : BitVec 32} {a b : BitVec 64}

theorem kerPtr_inj : kerPtr a = kerPtr b ↔ a.toNat % 2 ^ 47 = b.toNat % 2 ^ 47 := by
  have hker : kerBase = 2 ^ 64 - 2 ^ 47 := rfl
  rw [kerPtr, kerPtr, ← BitVec.toNat_inj, BitVec.toNat_ofNat, BitVec.toNat_ofNat,
    toKer_eq_mod a.isLt, toKer_eq_mod b.isLt, hker]
  omega

theorem signature_eq_iff : SDTHeader.signature m p = load32 name 0 ↔ hasName m name p = true := by
  rw [SDTHeader.signature, show sdtHeader.getD 0 0 = 0 from rfl, load32_eq_iff, hasName,
    List.all_eq_true]
  simp

/-- The loop is a search in the list of the pointers it computes. -/
theorem findLoop_eq :
    findLoop m name entry i k =
      (examined (hasName m name) ((List.range' i k).map fun i => kerPtr (entry i)),
        (((List.range' i k).map fun i => kerPtr (entry i)).find? (hasName m name)).getD 0) := by
  induction k generalizing i with
  | zero => rfl
  | succ k ih =>
    rw [List.range'_succ, List.map_cons, findLoop]
    by_cases hn : hasName m name (kerPtr (entry i)) = true
    · simp [signature_eq_iff, hn, examined]
    · simp [signature_eq_iff, hn, examined, ih]

/-- What is looked at decides the lookup. -/
theorem looksUp_iff (hk : k = tables.length) :
    LooksUp m name tables (findLoop m name entry 0 k) ↔
      ∀ i t, tables[i]? = some t → Reaches (hasName m name) (tables.map tablePtr) i →
        kerPtr (entry i) = tablePtr t := by
  subst hk
  have hx : LooksUp m name tables (findLoop m name entry 0 tables.length) ↔
      examined (hasName m name) ((List.range' 0 tables.length).map fun i => kerPtr (entry i)) =
        examined (hasName m name) (tables.map tablePtr) := by
    rw [findLoop_eq, LooksUp, Prod.mk.injEq]
    refine ⟨And.left, fun h => ⟨h, ?_⟩⟩
    rw [← find?_examined, h, find?_examined]
  rw [hx, examined_eq_iff]
  constructor
  · intro h i t ht hr
    have hi := (List.getElem?_eq_some_iff.mp ht).1
    have hget := h i hr
    rw [List.getElem?_map, List.getElem?_map, ht, List.getElem?_range' hi, Option.map_some,
      Option.map_some] at hget
    simpa using Option.some.inj hget
  · intro h i hr
    rw [List.getElem?_map, List.getElem?_map]
    cases ht : tables[i]? with
    | none =>
      have hi : tables.length ≤ i := List.getElem?_eq_none_iff.mp ht
      rw [List.getElem?_eq_none (by simpa using hi)]
      rfl
    | some t =>
      have hi := (List.getElem?_eq_some_iff.mp ht).1
      rw [List.getElem?_range' hi, Option.map_some, Option.map_some, Nat.zero_add, Nat.one_mul,
        h i t ht hr]

/-- The length of the header is taken off, and the rest divided by the size of an entry. -/
theorem toNat_entryCount {len : BitVec 32} {w n : Nat} (hw : 0 < w) (hlt : w < 2 ^ 64)
    (h : len.toNat = 36 + w * n) :
    ((len.setWidth 64 - BitVec.ofNat 64 sizeofSDTHeader) / BitVec.ofNat 64 w).toNat = n := by
  have hs : (BitVec.ofNat 64 sizeofSDTHeader).toNat = 36 := rfl
  have hsub : (len.setWidth 64 - BitVec.ofNat 64 sizeofSDTHeader).toNat = w * n := by
    have := len.isLt
    rw [BitVec.toNat_sub, BitVec.toNat_setWidth, hs, h]
    omega
  rw [BitVec.toNat_udiv, hsub, BitVec.toNat_ofNat, Nat.mod_eq_of_lt hlt, Nat.mul_div_cancel_left n hw]

theorem ListsRsdt.entryCount (h : ListsRsdt m p tables) :
    (RSDT.entryCount m p).toNat = tables.length :=
  toNat_entryCount (by decide) (by decide) h.length

theorem ListsXsdt.entryCount (h : ListsXsdt m p tables) :
    (XSDT.entryCount m p).toNat = tables.length :=
  toNat_entryCount (by decide) (by decide) h.length

/-- The RSDT loop is right. -/
theorem ListsRsdt.looksUp (h : ListsRsdt m p tables) :
    LooksUp m name tables
      (findLoop m name (fun i => (RSDT.otherSdtPtr m p i).setWidth 64) 0
        (RSDT.entryCount m p).toNat) := by
  rw [looksUp_iff h.entryCount]
  intro i t ht _
  have he : RSDT.otherSdtPtr m p i = t := h.entry i t ht
  rw [he, tablePtr]

/-- The upper half of one entry and the lower half of the next are taken for an entry. -/
theorem ListsXsdt.otherSdtPtr_toNat (h : ListsXsdt m p tables) (ht : tables[i]? = some t) :
    (XSDT.otherSdtPtr m p i).toNat =
      (load32 (m.behind p) (36 + 8 * (i + 1))).toNat * 2 ^ 32 := by
  have he := congrArg BitVec.toNat (h.entry i t ht)
  rw [toNat_load64, BitVec.toNat_setWidth] at he
  have ht := t.isLt
  have hhi : (load32 (m.behind p) (36 + 8 * i + 4)).toNat = 0 := by omega
  have hx : XSDT.otherSdtPtr m p i = load64 (m.behind p) (36 + 8 * i + 4) := by
    rw [XSDT.otherSdtPtr, show xsdt.getD 0 0 + 8 * i = 36 + 8 * i + 4 by
      rw [show xsdt.getD 0 0 = 40 from rfl]; omega]
  rw [hx, toNat_load64, hhi, Nat.add_zero]
  rfl

theorem ListsXsdt.kerPtr_iff (h : ListsXsdt m p tables) (ht : tables[i]? = some t) :
    kerPtr (XSDT.otherSdtPtr m p i) = tablePtr t ↔
      t = 0 ∧ (load32 (m.behind p) (36 + 8 * (i + 1))).toNat % 2 ^ 15 = 0 := by
  have hlt := t.isLt
  rw [tablePtr, kerPtr_inj, h.otherSdtPtr_toNat ht, BitVec.toNat_setWidth, ← BitVec.toNat_inj]
  have hz : (0 : BitVec 32).toNat = 0 := rfl
  rw [hz]
  omega

/-- The XSDT loop is right if nothing is lost with the first four bytes. -/
theorem ListsXsdt.looksUp_iff (h : ListsXsdt m p tables) :
    LooksUp m name tables
      (findLoop m name (XSDT.otherSdtPtr m p) 0 (XSDT.entryCount m p).toNat) ↔
      Degenerate m p name tables := by
  rw [Acpi.looksUp_iff h.entryCount, Degenerate]
  refine forall₂_congr fun i t => forall_congr' fun ht => forall_congr' fun _ => ?_
  exact h.kerPtr_iff ht

/-- With a descriptor, the lookup reaches its loop. -/
theorem findSDT_eq (name : Nat → BitVec 8) (h : located m s ≠ 0) :
    ∃ s', findSDT m s name = some (s', findIn m (located m s) name) := by
  rw [located] at h ⊢
  rw [findSDT]
  by_cases hs : s.rsdPtr = 0
  · rw [if_pos hs] at h ⊢
    rw [if_pos hs, prepareTable, if_neg h]
    exact ⟨_, if_neg h⟩
  · simp only [if_neg hs]
    exact ⟨s, rfl⟩

/-- The lookup examines the listed tables and returns the first with the name, if the descriptor has
revision 0, or if the addresses are such that reading four bytes too far makes no difference. -/
theorem findSDT_right_iff (m : Mem) (s : Statics) (name : Nat → BitVec 8)
    (tables : List (BitVec 32)) (h : Lists m (located m s) tables) :
    (∃ s' l, findSDT m s name = some (s', l) ∧ LooksUp m name tables l) ↔
      m.behind (located m s) 15 = 0 ∨ Degenerate m (xsdtOf m (located m s)) name tables := by
  have hl : (∃ s' l, findSDT m s name = some (s', l) ∧ LooksUp m name tables l) ↔
      LooksUp m name tables (findIn m (located m s) name) := by
    obtain ⟨s₁, hs₁⟩ := findSDT_eq name h.notNull
    rw [hs₁]
    refine ⟨?_, fun hok => ⟨s₁, _, rfl, hok⟩⟩
    rintro ⟨s', l, hr, hok⟩
    obtain ⟨-, rfl⟩ := Prod.mk.inj (Option.some.inj hr)
    exact hok
  rw [hl]
  rcases h.root with ⟨hrev, hroot⟩ | ⟨hrev, hroot⟩
  · refine iff_of_true ?_ (.inl hrev)
    have hlt : RSDPDescriptor.revision m (located m s) < 2 := by
      rw [show RSDPDescriptor.revision m (located m s) = 0 from hrev]
      decide
    rw [findIn, if_pos hlt]
    exact hroot.looksUp
  · have hge : ¬ RSDPDescriptor.revision m (located m s) < 2 := by
      rw [show RSDPDescriptor.revision m (located m s) = 2 from hrev]
      decide
    rw [findIn, if_neg hge, hrev]
    exact hroot.looksUp_iff.trans (or_iff_right (by decide)).symm

/-- A memory that is zero but for these bytes. -/
def image (bytes : List (BitVec 64 × BitVec 8)) : Mem := fun a => (bytes.lookup a).getD 0

/-- A descriptor at 0x1000, its RSDT at 0x2000 and its XSDT at 0x4000, both of which list the table
`"FACP"` at 0x3000. -/
def firmware (revision : BitVec 8) : Mem :=
  image [(kerPtr 0x100f, revision), (kerPtr 0x1011, 0x20), (kerPtr 0x1019, 0x40),
    (kerPtr 0x2004, 40), (kerPtr 0x2025, 0x30), (kerPtr 0x4004, 44), (kerPtr 0x4025, 0x30),
    (kerPtr 0x3000, 0x46), (kerPtr 0x3001, 0x41), (kerPtr 0x3002, 0x43), (kerPtr 0x3003, 0x50)]

theorem firmware_lists {revision : BitVec 8} (h : revision = 0 ∨ revision = 2) :
    Lists (firmware revision) (kerPtr 0x1000) [0x3000] := by
  refine ⟨by decide, ?_⟩
  rcases h with rfl | rfl
  · refine .inl ⟨by decide, by decide, fun i t ht => ?_⟩
    cases i with
    | zero =>
      obtain rfl : 0x3000 = t := Option.some.inj ht
      decide
    | succ i => cases ht
  · refine .inr ⟨by decide, by decide, fun i t ht => ?_⟩
    cases i with
    | zero =>
      obtain rfl : 0x3000 = t := Option.some.inj ht
      decide
    | succ i => cases ht

/-- Of the same firmware the table is found in the RSDT. -/
theorem findSDT_right_rsdt :
    ∃ s' l, findSDT (firmware 0) ⟨kerPtr 0x1000, 0, 0⟩ (literal [0x46, 0x41, 0x43, 0x50]) =
        some (s', l) ∧
      LooksUp (firmware 0) (literal [0x46, 0x41, 0x43, 0x50]) [0x3000] l :=
  (findSDT_right_iff (firmware 0) ⟨kerPtr 0x1000, 0, 0⟩ (literal [0x46, 0x41, 0x43, 0x50]) [0x3000]
    (firmware_lists (.inl rfl))).mpr (.inl (by decide))

/-- In the XSDT the lookup arrives at address zero instead of the table. -/
theorem xsdt_entry_missed :
    Lists (firmware 2) (kerPtr 0x1000) [0x3000] ∧
      findSDT (firmware 2) ⟨kerPtr 0x1000, 0, 0⟩ (literal [0x46, 0x41, 0x43, 0x50]) =
        some (⟨kerPtr 0x1000, 0, 0⟩, [kerPtr 0], 0) ∧
      ¬ LooksUp (firmware 2) (literal [0x46, 0x41, 0x43, 0x50]) [0x3000] ([kerPtr 0], 0) := by
  refine ⟨firmware_lists (.inr rfl), by decide, ?_⟩
  rw [LooksUp]
  decide

end Lookup

end Acpi
end TorexOS
