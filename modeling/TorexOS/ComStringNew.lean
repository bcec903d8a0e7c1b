import TorexOS.ComString

/-!
# TorexOS.ComStringNew

The constructors of `util::com_string` in storage that held anything before.

* `ConstructFits`: `com_string(s, length)` reads `m_size` before it has set it, so the string must be
  short, or the storage look like a string on the heap.
* `MoveFits`: the same for the move constructor, which also gives back what the storage seems to own,
  and leaves out the NUL of a short string.
* `construct_right_iff`: the constructors are right exactly in such storage.
-/

namespace TorexOS
namespace Util

open Buffers Packed

namespace ComString

/-- The constructor wrote inside and gave `str`, inline or in a buffer of its own. -/
def ConstructRight (h : Chars) (str : List (BitVec 8)) : Except Fault (ComString × Chars) → Prop
  | .error _ => False
  | .ok (s, h') => s.Is h' str ∧ (¬ s.IsLocal → h.size s.mData = none)

/-- The storage before suits the string. -/
def ConstructFits (raw : ComString) (n : Nat) : Prop :=
  n < littleSize ∨ ¬ raw.IsLocal ∧ n < 2 ^ 31

section Construct

variable {raw s s' t : ComString} {h h' : Chars} {str bs : List (BitVec 8)} {new : Ptr} {off n : Nat}

/-- A write that needs more than there is at `data()` fails. -/
theorem write_no_room (hr : ¬ s.Room h (off + bs.length)) (hb : bs ≠ []) :
    s.write h s.data off bs = .error .outside := by
  rw [Room] at hr
  by_cases hs : s.IsLocal
  · rw [if_pos hs] at hr
    rw [data, if_pos hs]
    refine if_neg ?_
    rw [not_or]
    exact ⟨hb, hr⟩
  · rw [if_neg hs] at hr
    rw [data, if_neg hs]
    cases hk : h.size s.mData with
    | none =>
      simp only [write, Heap.write, if_neg hb, hk]
      rfl
    | some k =>
      have hlt : k < off + bs.length := by
        by_contra hn
        exact hr ⟨k, hk, by omega⟩
      simp only [write, Heap.write_outside hk hlt hb]
      rfl

/-- The storage the characters go to: `raw`, or a new buffer if `raw` looks like it has one. -/
def prepared (raw : ComString) (h : Chars) (new : Ptr) (n : Nat) : ComString × Chars :=
  if raw.IsLocal then (raw, h) else raw.allocate h new (BitVec.ofNat 32 n)

theorem construct_eq (raw : ComString) (h : Chars) (new : Ptr) (str : List (BitVec 8)) :
    raw.construct h new str =
    ((raw.prepared h new str.length).1.write (raw.prepared h new str.length).2
      (raw.prepared h new str.length).1.data 0 str >>= fun r =>
        ({ r.1 with mSize := BitVec.ofNat 32 str.length } : ComString).write r.2
          ({ r.1 with mSize := BitVec.ofNat 32 str.length } : ComString).data
          (BitVec.ofNat 32 str.length).toNat [0]) := rfl

theorem prepared_size (hs : ¬ raw.IsLocal) :
    (raw.prepared h new n).1.mSize = BitVec.ofNat 32 n := by
  rw [prepared, if_neg hs]
  exact (allocate_fields _ _ _ _).1

theorem bytes_congr (hl : s.IsLocal ↔ t.IsLocal) (hm : s.mStr = t.mStr) : s.bytes h = t.bytes h := by
  have hd : s.mData = t.mData := by rw [mData, mData, hm]
  by_cases hs : s.IsLocal
  · rw [bytes_local hs, bytes_local (hl.mp hs), hm]
  · rw [bytes_heap hs, bytes_heap fun ht => hs (hl.mpr ht), hd]

/-- With room for the characters where they are written, the rest is right. -/
theorem construct_room (raw : ComString) (h : Chars) (new : Ptr) (hlt : str.length < 2 ^ 31)
    (hr : (raw.prepared h new str.length).1.Room (raw.prepared h new str.length).2
      (0 + str.length))
    (hl : (raw.prepared h new str.length).1.IsLocal ↔ str.length < littleSize)
    (hv : littleSize ≤ str.length →
      (raw.prepared h new str.length).1.Valid (raw.prepared h new str.length).2 ∧
        (raw.prepared h new str.length).1.mSize = BitVec.ofNat 32 str.length) :
    ∃ s' h', raw.construct h new str = .ok (s', h') ∧ s'.Is h' str ∧
      (littleSize ≤ str.length → s'.mData = (raw.prepared h new str.length).1.mData) := by
  have hsize := toNat_length hlt
  have heq := construct_eq raw h new str
  obtain ⟨s₁, h₁, he, hw⟩ := write_data hr
  rw [he, ok_bind] at heq
  generalize raw.prepared h new str.length = r at *
  let s₂ : ComString := { s₁ with mSize := BitVec.ofNat 32 str.length }
  have hl₁ : s₁.IsLocal ↔ r.1.IsLocal := by rw [IsLocal, IsLocal, hw.size]
  have hl₂ : s₂.IsLocal ↔ str.length < littleSize := by rw [IsLocal, hsize]
  have hbytes : s₂.bytes h₁ = overlay (r.1.bytes r.2) 0 str :=
    (bytes_congr (hl₂.trans (hl₁.trans hl).symm) rfl).trans hw.bytes
  have hvalid : s₂.Valid h₁ := by
    by_cases hn : str.length < littleSize
    · exact .inl (hl₂.mpr hn)
    · have hr₁ : ¬ r.1.IsLocal := fun hc => hn (hl.mp hc)
      obtain ⟨hv, hsz⟩ := hv (by omega)
      have hsame : s₂ = s₁ := by
        show (⟨_, _⟩ : ComString) = _
        rw [← hsz, ← hw.size]
      rw [hsame]
      exact hw.valid hv
  obtain ⟨s', h', he', hi, hw'⟩ := write_nul s₂ h₁ str hsize
    (by rw [hbytes, read_overlay]) hvalid
  refine ⟨s', h', heq.trans he', hi, fun hge => ?_⟩
  have hn : ¬ str.length < littleSize := by omega
  rw [hw'.object fun hc => hn (hl₂.mp hc)]
  show s₁.mData = _
  rw [hw.object fun hc => hn (hl.mp hc)]

/-- A short string is written inline, whatever the storage looks like. -/
theorem construct_short (hlt : str.length < littleSize) :
    ConstructRight h str (raw.construct h new str) := by
  have hn : str.length < 2 ^ 31 := lt_trans hlt (by decide)
  have hl : (raw.prepared h new str.length).1.IsLocal := by
    by_cases hs : raw.IsLocal
    · rw [prepared, if_pos hs]
      exact hs
    · rw [IsLocal, prepared_size hs, toNat_length hn]
      exact hlt
  obtain ⟨s', h', he, hi, _⟩ := construct_room raw h new hn
    (by rw [Room, if_pos hl]; omega) ⟨fun _ => hlt, fun _ => hl⟩ (fun hge => by omega)
  rw [he]
  refine ⟨hi, fun hs => absurd ?_ hs⟩
  rw [IsLocal, hi.size]
  exact hlt

/-- A long string is written to a new buffer, if the storage looks like it needs one. -/
theorem construct_long (hs : ¬ raw.IsLocal) (hf : h.Fresh new) (hge : littleSize ≤ str.length)
    (hlt : str.length < 2 ^ 31) : ConstructRight h str (raw.construct h new str) := by
  have hp : raw.prepared h new str.length =
      raw.allocate h new (BitVec.ofNat 32 str.length) := if_neg hs
  obtain ⟨hsize, hdata, _, _⟩ := allocate_fields raw h new str.length
  obtain ⟨hn, hv, hr⟩ := allocate_valid (s := raw) (h := h) hf.1 hge hlt
  rw [← hp] at hsize hdata hn hv hr
  obtain ⟨s', h', he, hi, hd⟩ := construct_room raw h new hlt (by rw [Nat.zero_add]; exact hr)
    ⟨fun hc => absurd hc hn, fun hc => by omega⟩ (fun _ => ⟨hv, hsize⟩)
  rw [he]
  refine ⟨hi, fun _ => ?_⟩
  rw [hd hge, hdata]
  exact hf.2

theorem write_heap (hs : ¬ s.IsLocal) (hb : bs ≠ []) (he : s.write h s.data off bs = .ok (s', h')) :
    s' = s ∧ h.size s.mData ≠ none := by
  rw [data, if_neg hs, write] at he
  cases hw : h.write s.mData off bs with
  | error e => rw [hw] at he; cases he
  | ok h₁ =>
    rw [hw] at he
    cases he
    refine ⟨rfl, fun hk => ?_⟩
    rw [Heap.write, if_neg hb, hk] at hw
    cases hw

/-- A long string in storage that looks like a short one: it does not fit, or its own bytes are
taken for the address of its buffer. -/
theorem construct_local (hs : raw.IsLocal) (hge : littleSize ≤ str.length) :
    ¬ ConstructRight h str (raw.construct h new str) := by
  have hb := ne_nil_of_le hge
  rw [construct_eq, show raw.prepared h new str.length = (raw, h) from if_pos hs]
  by_cases hn : str.length = littleSize
  · have he : raw.write h raw.data 0 str = .ok (⟨raw.mSize, overlay raw.mStr 0 str⟩, h) := by
      rw [data, if_pos hs]
      exact if_pos (.inr (by omega))
    let s₁ : ComString := ⟨BitVec.ofNat 32 str.length, overlay raw.mStr 0 str⟩
    have hn₁ : ¬ s₁.IsLocal := by
      rw [IsLocal, toNat_length (by rw [hn]; decide), hn]
      exact Nat.lt_irrefl _
    rw [he, ok_bind]
    show ¬ ConstructRight h str (s₁.write h s₁.data (BitVec.ofNat 32 str.length).toNat [0])
    cases hw : s₁.write h s₁.data (BitVec.ofNat 32 str.length).toNat [0] with
    | error e => exact id
    | ok r =>
      obtain ⟨s', h'⟩ := r
      obtain ⟨rfl, hlive⟩ := write_heap hn₁ (by decide) hw
      exact fun hr => hlive (hr.2 hn₁)
  · have he : raw.write h raw.data 0 str = _ := write_no_room (by
      rw [Room, if_pos hs]
      omega) hb
    rw [he, error_bind]
    exact id

/-- A string of `2 ^ 31` bytes or more does not fit in the buffer that it gets. -/
theorem construct_huge (hs : ¬ raw.IsLocal) (hge : 2 ^ 31 ≤ str.length) :
    ¬ ConstructRight h str (raw.construct h new str) := by
  have hb := ne_nil_of_le (le_trans (by decide) hge)
  have hsmall := suitableSize_lt hge
  have hp : raw.prepared h new str.length =
      raw.allocate h new (BitVec.ofNat 32 str.length) := if_neg hs
  obtain ⟨_, hdata, _, hheap⟩ := allocate_fields raw h new str.length
  rw [← hp] at hdata hheap
  rw [construct_eq, write_no_room (fun hr => ?_) hb, error_bind]
  · exact id
  · rw [Room] at hr
    by_cases hl : (raw.prepared h new str.length).1.IsLocal
    · rw [if_pos hl, littleSize] at hr
      omega
    · rw [if_neg hl, hheap, hdata, Heap.size_new] at hr
      obtain ⟨k, hk, hle⟩ := hr
      cases hk
      omega

end Construct

/-! ## The move constructor -/

/-- The constructor released nothing that was not in use, and gave what `t` was; what is left of `t`
is empty or its destructor leaves the new string valid. -/
def MoveRight (t : ComString) (h : Chars) :
    Except Fault (ComString × ComString × Chars) → Prop
  | .error _ => False
  | .ok (s, t', h') => s.Is h' (t.content h) ∧
      (t'.mSize = 0 ∨ ∃ h'', t'.destroy h' = .ok h'' ∧ s.Valid h'')

/-- What the storage seems to own can be given back. -/
def CanDelete (raw : ComString) (h : Chars) : Prop :=
  raw.IsLocal ∨ raw.mData = 0 ∨ h.size raw.mData ≠ none

/-- The storage before suits the string `t`. A short string in storage that looks short gets its NUL
from there; in storage that looks like a string on the heap it gets the bytes behind the twelfth. A
string on the heap has its own NUL, and the storage must not seem to own its buffer. -/
def MoveFits (raw t : ComString) (h : Chars) : Prop :=
  raw.CanDelete h ∧
    if t.IsLocal then
      if raw.IsLocal then raw.mStr t.mSize.toNat = 0
      else (∀ i, 12 ≤ i → i < t.mSize.toNat → raw.mStr i = t.mStr i) ∧
        (if t.mSize.toNat < 12 then t.mStr t.mSize.toNat else raw.mStr t.mSize.toNat) = 0
    else (raw.IsLocal ∨ raw.mData ≠ t.mData) ∧ h.cell t.mData t.mSize.toNat = 0

section Move

variable {raw s t : ComString} {h h' : Chars} {i : Nat}

/-- The string that takes the size, `m_reserved` and `m_data` of `t`. -/
def moved (raw t : ComString) : ComString :=
  { (raw.setData t.mData).setReserved t.mReserved with mSize := t.mSize }

theorem moveConstruct_eq (hl : ¬ (raw.IsLocal ∧ t.IsLocal)) : raw.moveConstruct t h =
    (raw.deallocate h >>= fun h => .ok (raw.moved t, { t with mSize := 0 }, h)) := by
  rw [moveConstruct, if_neg hl]
  by_cases hr : raw.IsLocal
  · rw [if_pos hr, deallocate, if_pos hr]
    rfl
  · rw [if_neg hr]
    rfl

theorem moved_data : (raw.moved t).mData = t.mData :=
  (mData_setReserved (s := raw.setData t.mData)).trans mData_setData

theorem moved_reserved : (raw.moved t).mReserved = t.mReserved :=
  mReserved_setReserved (s := raw.setData t.mData)

/-- `m_reserved` and `m_data` are the first twelve bytes of the union. -/
theorem moved_mStr : (raw.moved t).mStr i = if i < 12 then t.mStr i else raw.mStr i := by
  have hlo : t.mData.extractLsb' 0 32 = load32 t.mStr 4 := BitVec.extractLsb'_append_eq_right
  have hhi : t.mData.extractLsb' 32 32 = load32 t.mStr 8 := BitVec.extractLsb'_append_eq_left
  show store32 (raw.setData t.mData).mStr 0 t.mReserved i = _
  rcases (by omega : i < 4 ∨ (4 ≤ i ∧ i < 8) ∨ (8 ≤ i ∧ i < 12) ∨ 12 ≤ i) with hi | hi | hi | hi
  · rw [if_pos (by omega), mReserved, store32_load32 (by omega)]
    congr 1
    omega
  · rw [if_pos (by omega), store32_outside _ (by omega)]
    show store32 (store32 _ _ _) _ _ i = _
    rw [store32_outside _ (by omega), hlo, store32_load32 (by omega)]
    congr 1
    omega
  · rw [if_pos (by omega), store32_outside _ (by omega)]
    show store32 (store32 _ _ _) _ _ i = _
    rw [hhi, store32_load32 (by omega)]
    congr 1
    omega
  · rw [if_neg (by omega), store32_outside _ (by omega)]
    exact mStr_setData_of_ge hi

/-- Giving back what the storage seems to own changes no character. -/
theorem CanDelete.deallocate (hc : raw.CanDelete h) : ∃ h', raw.deallocate h = .ok h' ∧
    h'.cell = h.cell ∧ (raw.IsLocal ∨ raw.mData = 0 → h' = h) ∧
    (¬ raw.IsLocal → raw.mData ≠ 0 → h'.size = Function.update h.size raw.mData none) := by
  by_cases hl : raw.IsLocal
  · exact ⟨h, if_pos hl, rfl, fun _ => rfl, fun hn => absurd hl hn⟩
  · by_cases h0 : raw.mData = 0
    · refine ⟨h, ?_, rfl, fun _ => rfl, fun _ hn => absurd h0 hn⟩
      rw [ComString.deallocate, if_neg hl, Heap.delete, if_pos h0]
    · cases hk : h.size raw.mData with
      | none => exact absurd hk ((hc.resolve_left hl).resolve_left h0)
      | some n =>
        refine ⟨_, (if_neg hl).trans (Heap.delete_ok h0 hk), rfl, fun hn => ?_, fun _ _ => rfl⟩
        exact absurd hn (by rw [not_or]; exact ⟨hl, h0⟩)

theorem deallocate_error (hc : ¬ raw.CanDelete h) : raw.deallocate h = .error .badDelete := by
  rw [CanDelete, not_or, not_or, not_not] at hc
  rw [ComString.deallocate, if_neg hc.1, Heap.delete, if_neg hc.2.1, hc.2.2]

/-- Both inline: the characters are copied, the byte behind them is the storage's. -/
theorem move_inline (hr : raw.IsLocal) (ht : t.IsLocal) :
    MoveRight t h (raw.moveConstruct t h) ↔ raw.mStr t.mSize.toNat = 0 := by
  have hlen : (read t.mStr 0 t.mSize.toNat).length = t.mSize.toNat := length_read
  let s : ComString := ⟨t.mSize, overlay raw.mStr 0 (read t.mStr 0 t.mSize.toNat)⟩
  have hs : s.IsLocal := ht
  have he : raw.moveConstruct t h = .ok (s, t, h) := by
    have hw : raw.write h .inline 0 (read t.mStr 0 t.mSize.toNat) =
        .ok (⟨raw.mSize, overlay raw.mStr 0 (read t.mStr 0 t.mSize.toNat)⟩, h) := by
      refine if_pos (.inr ?_)
      rw [hlen, Nat.zero_add]
      exact Nat.le_of_lt ht
    rw [moveConstruct, if_pos ⟨hr, ht⟩, hw]
    rfl
  have hcontent : s.content h = t.content h := by
    rw [content, content, bytes_local hs, bytes_local ht]
    exact read_overlay_read raw.mStr t.mStr 0 0 t.mSize.toNat
  have hsize : s.mSize.toNat = (t.content h).length := by rw [length_content]
  have hnul : s.bytes h (t.content h).length = raw.mStr t.mSize.toNat := by
    rw [bytes_local hs, ← hsize]
    exact overlay_outside (.inr (by rw [hlen, Nat.zero_add]))
  rw [he]
  constructor
  · intro h
    rw [← hnul]
    exact h.1.nul
  · intro h0
    exact ⟨⟨hsize, hcontent, hnul.trans h0, .inl hs⟩, .inr ⟨h, if_pos ht, .inl hs⟩⟩

/-- From the heap: the buffer changes hands. -/
theorem move_heap (ht : ¬ t.IsLocal) (hv : t.Valid h) (hc : raw.CanDelete h) :
    MoveRight t h (raw.moveConstruct t h) ↔
      (raw.IsLocal ∨ raw.mData ≠ t.mData) ∧ h.cell t.mData t.mSize.toNat = 0 := by
  obtain ⟨h0, hk, hlt⟩ := hv.resolve_left ht
  obtain ⟨h', hd, hcell, hsame, hupd⟩ := hc.deallocate
  have hs : ¬ (raw.moved t).IsLocal := ht
  have hbytes : (raw.moved t).bytes h' = h.cell t.mData := by
    rw [bytes_heap hs, moved_data, hcell]
  have hsize : (raw.moved t).mSize.toNat = (t.content h).length := by
    rw [length_content]
    rfl
  have hcontent : (raw.moved t).content h' = t.content h := by
    rw [content, content, hbytes, bytes_heap ht]
    rfl
  have hvalid : (raw.moved t).Valid h' ↔ raw.IsLocal ∨ raw.mData ≠ t.mData := by
    rw [Valid, moved_data, moved_reserved, or_iff_right hs]
    by_cases hr : raw.IsLocal
    · rw [hsame (.inl hr)]
      exact ⟨fun _ => .inl hr, fun _ => ⟨h0, hk, hlt⟩⟩
    · by_cases hr0 : raw.mData = 0
      · rw [hsame (.inr hr0), hr0]
        exact ⟨fun _ => .inr (Ne.symm h0), fun _ => ⟨h0, hk, hlt⟩⟩
      · rw [hupd hr hr0]
        constructor
        · rintro ⟨_, hk', _⟩
          refine .inr fun he => ?_
          rw [he, Function.update_self] at hk'
          cases hk'
        · intro hne
          refine ⟨h0, ?_, hlt⟩
          rw [Function.update_of_ne (Ne.symm (hne.resolve_left hr))]
          exact hk
  rw [moveConstruct_eq fun hn => ht hn.2, hd, ok_bind]
  constructor
  · intro hr
    refine ⟨hvalid.mp hr.1.valid, ?_⟩
    have hnul := hr.1.nul
    rwa [hbytes, ← hsize] at hnul
  · intro hr
    refine ⟨⟨hsize, hcontent, ?_, hvalid.mpr hr.1⟩, .inl rfl⟩
    rw [hbytes, ← hsize]
    exact hr.2

/-- A short string to storage that looks like a string on the heap: twelve bytes are copied. -/
theorem move_short (hr : ¬ raw.IsLocal) (ht : t.IsLocal) (hc : raw.CanDelete h) :
    MoveRight t h (raw.moveConstruct t h) ↔
      (∀ i, 12 ≤ i → i < t.mSize.toNat → raw.mStr i = t.mStr i) ∧
        (if t.mSize.toNat < 12 then t.mStr t.mSize.toNat else raw.mStr t.mSize.toNat) = 0 := by
  obtain ⟨h', hd, _⟩ := hc.deallocate
  have hs : (raw.moved t).IsLocal := ht
  have hsize : (raw.moved t).mSize.toNat = (t.content h).length := by
    rw [length_content]
    rfl
  have hcontent : (raw.moved t).content h' = t.content h ↔
      ∀ i, 12 ≤ i → i < t.mSize.toNat → raw.mStr i = t.mStr i := by
    rw [content, content, bytes_local hs, bytes_local ht]
    constructor
    · intro he i hi hn
      have hget := congrArg (fun l => l[i]?) he
      rw [List.getElem?_eq_getElem (by rw [length_read]; exact hn),
        List.getElem?_eq_getElem (by rw [length_read]; exact hn), getElem_read, getElem_read,
        Nat.zero_add, moved_mStr, if_neg (by omega)] at hget
      exact Option.some.inj hget
    · intro hall
      refine read_congr fun i _ hi => ?_
      rw [moved_mStr]
      split
      · rfl
      · exact hall i (by omega) (by rw [Nat.zero_add] at hi; exact hi)
  have hnul : (raw.moved t).bytes h' (t.content h).length =
      if t.mSize.toNat < 12 then t.mStr t.mSize.toNat else raw.mStr t.mSize.toNat := by
    rw [bytes_local hs, ← hsize, moved_mStr]
    rfl
  rw [moveConstruct_eq fun hn => hr hn.1, hd, ok_bind]
  constructor
  · intro hm
    exact ⟨hcontent.mp hm.1.content, hnul.symm.trans hm.1.nul⟩
  · intro hm
    exact ⟨⟨hsize, hcontent.mpr hm.1, hnul.trans hm.2, .inl hs⟩, .inl rfl⟩

theorem move_iff (hv : t.Valid h) : MoveRight t h (raw.moveConstruct t h) ↔ raw.MoveFits t h := by
  rw [MoveFits]
  by_cases hc : raw.CanDelete h
  · rw [and_iff_right hc]
    by_cases ht : t.IsLocal
    · rw [if_pos ht]
      by_cases hr : raw.IsLocal
      · rw [if_pos hr]
        exact move_inline hr ht
      · rw [if_neg hr]
        exact move_short hr ht hc
    · rw [if_neg ht]
      exact move_heap ht hv hc
  · refine ⟨fun hm => ?_, fun hm => absurd hm.1 hc⟩
    have hr : ¬ raw.IsLocal := fun hl => hc (.inl hl)
    rw [moveConstruct_eq fun hn => hr hn.1, deallocate_error hc, error_bind] at hm
    exact hm.elim

end Move

section Right

variable {raw t : ComString} {h : Chars} {str : List (BitVec 8)} {new : Ptr}

/-- The constructors, in storage that held anything before. -/
theorem construct_right_iff (hf : h.Fresh new) (hv : t.Valid h) :
    (ConstructRight h str (raw.construct h new str) ↔ raw.ConstructFits str.length) ∧
      (MoveRight t h (raw.moveConstruct t h) ↔ raw.MoveFits t h) := by
  refine ⟨⟨fun hr => ?_, fun hfit => ?_⟩, move_iff hv⟩
  · by_cases hn : str.length < littleSize
    · exact .inl hn
    · have hn : littleSize ≤ str.length := by omega
      by_cases hs : raw.IsLocal
      · exact absurd hr (construct_local hs hn)
      · refine .inr ⟨hs, ?_⟩
        by_contra hbig
        exact construct_huge hs (by omega) hr
  · by_cases hn : str.length < littleSize
    · exact construct_short hn
    · obtain ⟨hs, hlt⟩ := hfit.resolve_left hn
      exact construct_long hs hf (by omega) hlt

/-- Storage of zeros. -/
def zeroed : ComString := ⟨0, fun _ => 0⟩

theorem construct_right_iff_zeroed :
    ConstructRight noBuffers [0x62] (zeroed.construct noBuffers 0x1000 [0x62]) ∧
      MoveRight (letters 3) noBuffers (zeroed.moveConstruct (letters 3) noBuffers) := by
  have hlocal : zeroed.IsLocal := by decide
  have hiff : (ConstructRight noBuffers [0x62] (zeroed.construct noBuffers 0x1000 [0x62]) ↔ _) ∧
      (MoveRight (letters 3) noBuffers (zeroed.moveConstruct (letters 3) noBuffers) ↔ _) :=
    construct_right_iff ⟨by decide, rfl⟩ (.inl (by decide))
  exact ⟨hiff.1.mpr (.inl (by decide)), hiff.2.mpr ⟨.inl hlocal, rfl⟩⟩

/-- Forty characters in storage of zeros are written over what follows the object; three
characters moved over letters have no NUL behind them. -/
theorem stale_storage :
    zeroed.construct noBuffers 0x1000 (List.replicate 40 0x62) = .error .outside ∧
    ¬ ConstructRight noBuffers (List.replicate 40 0x62)
      (zeroed.construct noBuffers 0x1000 (List.replicate 40 0x62)) ∧
    (letters 3).Valid noBuffers ∧
    ¬ MoveRight (letters 3) noBuffers ((letters 0).moveConstruct (letters 3) noBuffers) := by
  refine ⟨rfl, construct_local (by decide) (by decide), .inl (by decide), fun hr => ?_⟩
  exact absurd ((move_inline (by decide) (by decide)).mp hr) (by decide)

end Right

end ComString
end Util
end TorexOS
