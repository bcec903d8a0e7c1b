import TorexOS.ComString
import TorexOS.Lib.Transition

/-!
# TorexOS.ComStringRun

Sequences of `assign` and `clear` on one string.

* `assign_right`: after any sequence, an `assign` gives the string, and `clear` the empty one.
* `frees_iff`: the destructor then leaves no buffer behind exactly when no short string was assigned
  to a string on the heap; `assign` writes the inline bytes over the address of that buffer.
-/

namespace TorexOS
namespace Util

open Buffers Packed Transition

namespace ComString

/-- `com_string()`; `rest` is what follows the object. -/
def empty (rest : Nat → BitVec 8) : ComString := ⟨0, fun i => if i < littleSize then 0 else rest i⟩

/-- The buffers that are in use when this string is gone. -/
def others (s : ComString) (h : Chars) : Ptr → Option Nat :=
  if s.IsLocal then h.size else Function.update h.size s.mData none

/-- What `new char[]` may return in `assign`: it is called behind `deallocate`, so the buffer that the
string had is free again, and it may be that one. -/
def NewFor (s : ComString) (h : Chars) (p : Ptr) : Prop := p ≠ 0 ∧ s.others h p = none

/-- `new` is what `new char[]` returns if the call uses it. -/
inductive StrOp where
  | assign (new : Ptr) (str : List (BitVec 8))
  | clear
  deriving DecidableEq

def StrOp.Legal (r : ComString × Chars) : StrOp → Prop
  | .assign new _ => r.1.NewFor r.2 new
  | .clear => True

def StrOp.exec (r : ComString × Chars) : StrOp → Except Fault (ComString × Chars)
  | .assign new str => r.1.assign r.2 new str
  | .clear => r.1.clear r.2

def strSystem : System (ComString × Chars) StrOp where
  init r := ∃ rest, r.1 = empty rest
  legal r op := op.Legal r
  step r op := (op.exec r).toOption

/-- The strings are shorter than `2 ^ 31` bytes. -/
def StrOp.Short (_ : ComString × Chars) : StrOp → Prop
  | .assign _ str => str.length < 2 ^ 31
  | .clear => True

/-- The operation does not forget a buffer, and the length is one that `suitable_size` can round. -/
def StrOp.Keeps (r : ComString × Chars) : StrOp → Prop
  | .assign _ str => str.length < 2 ^ 31 ∧ (r.1.IsLocal ∨ littleSize ≤ str.length)
  | .clear => True

/-- The operations, then the destructor: no call fails, `data()` is never a buffer that was given
back, and in the end the buffers in use are those that were before. -/
def Frees (r : ComString × Chars) (ops : List StrOp) : Prop :=
  (∀ pre, pre <+: ops → ∃ t, pre.foldlM strSystem.step r = some t ∧ t.1.Valid t.2) ∧
    ∃ t, ops.foldlM strSystem.step r = some t ∧
      ∃ h, t.1.destroy t.2 = .ok h ∧ h.size = r.2.size

section Assign

variable {s s' : ComString} {h h' : Chars} {str : List (BitVec 8)} {new : Ptr} {r t : ComString × Chars}

theorem deallocate_others (hv : s.Valid h) : ∃ h', s.deallocate h = .ok h' ∧ h'.size = s.others h := by
  by_cases hs : s.IsLocal
  · exact ⟨h, if_pos hs, (if_pos hs).symm⟩
  · obtain ⟨h0, hk, _⟩ := hv.resolve_left hs
    exact ⟨_, (if_neg hs).trans (Heap.delete_ok h0 hk), (if_neg hs).symm⟩

/-- `assign` in place: inline, or in a buffer that is large enough. -/
theorem assign_inplace (new : Ptr) (hv : s.Valid h) (hlen : str.length < 2 ^ 31)
    (hc : str.length < littleSize ∨ ¬ s.IsLocal ∧ str.length < s.mReserved.toNat) :
    ∃ s' h', s.assign h new str = .ok (s', h') ∧ s'.Is h' str ∧ h'.size = h.size ∧
      (littleSize ≤ str.length → s'.mData = s.mData ∧ s'.mReserved = s.mReserved) := by
  let s₁ : ComString := { s with mSize := BitVec.ofNat 32 str.length }
  have hl : s₁.IsLocal ↔ str.length < littleSize := by rw [IsLocal, toNat_length hlen]
  have hv₁ : s₁.Valid h := by
    by_cases hn : str.length < littleSize
    · exact .inl (hl.mpr hn)
    · obtain ⟨hs, hlt⟩ := hc.resolve_left hn
      obtain ⟨h0, hk, _⟩ := hv.resolve_left hs
      exact .inr ⟨h0, hk, by rw [toNat_length hlen]; exact hlt⟩
  have hr : s₁.Room h (0 + str.length) := by
    rw [Room, Nat.zero_add]
    by_cases hn : str.length < littleSize
    · rw [if_pos (hl.mpr hn)]
      exact Nat.le_of_lt hn
    · rw [if_neg fun hc => hn (hl.mp hc)]
      obtain ⟨hs, hlt⟩ := hc.resolve_left hn
      obtain ⟨_, hk, _⟩ := hv.resolve_left hs
      exact ⟨_, hk, Nat.le_of_lt hlt⟩
  obtain ⟨s₂, h₂, he, hw⟩ := write_data hr
  have hsize : s₂.mSize.toNat = str.length := by rw [hw.size, toNat_length hlen]
  obtain ⟨s', h', he', hi, hw'⟩ := write_nul s₂ h₂ str hsize (by rw [hw.bytes, read_overlay]) (hw.valid hv₁)
  have hchars : s.assignChars h new str = .ok (s₂, h₂) := (if_pos hc).trans he
  refine ⟨s', h', ?_, hi, hw'.sizes.trans hw.sizes, fun hge => ?_⟩
  · rw [assign, hchars]
    exact he'
  · have hn₁ : ¬ s₁.IsLocal := fun hc => absurd (hl.mp hc) (by omega)
    have hs₂ : s₂ = s₁ := hw.object hn₁
    have hs' : s' = s₂ := hw'.object fun hc => hn₁ (hs₂ ▸ hc)
    rw [hs', hs₂]
    exact ⟨rfl, rfl⟩

/-- `assign` with a new buffer. -/
theorem assign_new (hv : s.Valid h) (hf : s.NewFor h new) (hlen : str.length < 2 ^ 31)
    (hc : ¬ (str.length < littleSize ∨ ¬ s.IsLocal ∧ str.length < s.mReserved.toNat)) :
    ∃ s' h', s.assign h new str = .ok (s', h') ∧ s'.Is h' str ∧ s'.mData = new ∧
      s'.mReserved = suitableSize (BitVec.ofNat 32 str.length) ∧
      h'.size = Function.update (s.others h) new (some s'.mReserved.toNat) := by
  have hge : littleSize ≤ str.length := by
    by_contra hlt
    exact hc (.inl (by omega))
  obtain ⟨h₁, hd, hrest⟩ := deallocate_others hv
  obtain ⟨hn, hv₁, hr⟩ := allocate_valid (s := s) (h := h₁) hf.1 hge hlen
  obtain ⟨hsize, hdata, hres, hheap⟩ := allocate_fields s h₁ new str.length
  have hroom : (s.allocate h₁ new (BitVec.ofNat 32 str.length)).1.Room
      (s.allocate h₁ new (BitVec.ofNat 32 str.length)).2 (0 + str.length) := by
    rw [Nat.zero_add]
    exact hr
  obtain ⟨h₂, he, hw⟩ := write_buffer hn hroom
  have hchars : s.assignChars h new str =
      .ok ((s.allocate h₁ new (BitVec.ofNat 32 str.length)).1, h₂) := by
    simp only [assignChars, if_neg hc, hd, ok_bind, he]
    rfl
  generalize s.allocate h₁ new (BitVec.ofNat 32 str.length) = r at *
  obtain ⟨s', h', he', hi, hw'⟩ := write_nul r.1 h₂ str
    (by rw [hsize, toNat_length hlen]) (by rw [hw.bytes, read_overlay]) (hw.valid hv₁)
  have hs' : s' = r.1 := hw'.object hn
  refine ⟨s', h', ?_, hi, by rw [hs', hdata], by rw [hs', hres], ?_⟩
  · rw [assign, hchars]
    exact he'
  · rw [hw'.sizes, hw.sizes, hheap, hs', hres, ← hrest]
    rfl

/-- `assign`: the string is as given, and of the buffers of others none is changed. A buffer that
a short string leaves behind is now one of those. -/
theorem assign_spec (hv : s.Valid h) (hf : s.NewFor h new) (hlen : str.length < 2 ^ 31) :
    ∃ s' h', s.assign h new str = .ok (s', h') ∧ s'.Is h' str ∧
      s'.others h' = (if str.length < littleSize then h.size else s.others h) ∧
      (s'.IsLocal ∨ s'.mReserved = s.mReserved ∧ ¬ s.IsLocal ∨
        s'.mReserved = suitableSize (BitVec.ofNat 32 str.length)) := by
  by_cases hc : str.length < littleSize ∨ ¬ s.IsLocal ∧ str.length < s.mReserved.toNat
  · obtain ⟨s', h', he, hi, hsizes, hsame⟩ := assign_inplace new hv hlen hc
    have hl : s'.IsLocal ↔ str.length < littleSize := by rw [IsLocal, hi.size]
    refine ⟨s', h', he, hi, ?_, ?_⟩
    · by_cases hn : str.length < littleSize
      · rw [others, if_pos (hl.mpr hn), if_pos hn, hsizes]
      · obtain ⟨hs, _⟩ := hc.resolve_left hn
        rw [others, if_neg fun hc => hn (hl.mp hc), if_neg hn, others, if_neg hs, hsizes,
          (hsame (by omega)).1]
    · by_cases hn : str.length < littleSize
      · exact .inl (hl.mpr hn)
      · exact .inr (.inl ⟨(hsame (by omega)).2, (hc.resolve_left hn).1⟩)
  · obtain ⟨s', h', he, hi, hdata, hres, hsizes⟩ := assign_new hv hf hlen hc
    have hn : ¬ str.length < littleSize := fun hn => hc (.inl hn)
    have hl : ¬ s'.IsLocal := by
      rw [IsLocal, hi.size]
      exact hn
    refine ⟨s', h', he, hi, ?_, .inr (.inr hres)⟩
    rw [others, if_neg hl, if_neg hn, hsizes, hdata, Function.update_idem]
    exact Function.update_eq_self_iff.mpr hf.2.symm

theorem clear_spec (hv : s.Valid h) :
    ∃ s' h', s.clear h = .ok (s', h') ∧ s'.mSize = 0 ∧ s'.others h' = s.others h := by
  obtain ⟨h', hd, hsize⟩ := deallocate_others hv
  have hlocal : (⟨0, s.mStr⟩ : ComString).IsLocal := (by decide : 0 < littleSize)
  refine ⟨⟨0, s.mStr⟩, h', ?_, rfl, (if_pos hlocal).trans hsize⟩
  by_cases hs : s.IsLocal
  · rw [deallocate, if_pos hs] at hd
    cases hd
    rw [clear, if_pos hs]
    rfl
  · rw [clear, if_neg hs, hd]
    rfl

end Assign

/-! ## Runs -/

/-- Valid, with a buffer of a size that `suitable_size` gives. -/
def Sound (r : ComString × Chars) : Prop :=
  r.1.Valid r.2 ∧ (r.1.IsLocal ∨ r.1.mReserved.toNat ≤ 2 ^ 31)

section Runs

variable {r t : ComString × Chars} {op : StrOp} {ops : List StrOp} {rest : Nat → BitVec 8}
variable {new : Ptr} {str : List (BitVec 8)} {f : Ptr → Option Nat}

theorem Sound.empty (rest : Nat → BitVec 8) (h : Chars) : Sound (ComString.empty rest, h) :=
  have hl : (ComString.empty rest).IsLocal := (by decide : 0 < littleSize)
  ⟨.inl hl, .inl hl⟩

/-- A string of `2 ^ 31` bytes or more gets a buffer that does not hold it. -/
theorem Sound.assign_huge (new : Ptr) (h : Sound r) (hge : 2 ^ 31 ≤ str.length) :
    r.1.assign r.2 new str = .error .outside := by
  have hb := ne_nil_of_le (le_trans (by decide) hge)
  have hc : ¬ (str.length < littleSize ∨ ¬ r.1.IsLocal ∧ str.length < r.1.mReserved.toNat) := by
    rintro (hlt | ⟨hs, hlt⟩)
    · rw [littleSize] at hlt
      omega
    · have := h.2.resolve_left hs
      omega
  obtain ⟨h₁, hd, _⟩ := deallocate_others h.1
  obtain ⟨_, hdata, _, hheap⟩ := allocate_fields r.1 h₁ new str.length
  have hw : (r.1.allocate h₁ new (BitVec.ofNat 32 str.length)).2.write
      (r.1.allocate h₁ new (BitVec.ofNat 32 str.length)).1.mData 0 str = .error .outside :=
    Heap.write_outside (by rw [hheap, hdata, Heap.size_new])
      (by rw [Nat.zero_add]; exact suitableSize_lt hge) hb
  simp only [assign, assignChars, if_neg hc, hd, ok_bind, hw, error_bind]

/-- One step with a string below `2 ^ 31` bytes: the buffers of others stay, and a buffer that a
short string leaves behind is added to them. -/
theorem Sound.step (h : Sound r) (hl : op.Legal r) (hshort : op.Short r) :
    ∃ t, strSystem.step r op = some t ∧ Sound t ∧
      (op.Keeps r ∧ t.1.others t.2 = r.1.others r.2 ∨
        ¬ op.Keeps r ∧ ¬ r.1.IsLocal ∧ t.1.others t.2 = r.2.size) := by
  cases op with
  | assign new str =>
    obtain ⟨s', h', he, hi, hothers, hres⟩ := assign_spec h.1 hl hshort
    refine ⟨(s', h'), ?_, ⟨hi.valid, ?_⟩, ?_⟩
    · show (r.1.assign r.2 new str).toOption = _
      rw [he]
      rfl
    · rcases hres with hres | ⟨hres, hs⟩ | hres
      · exact .inl hres
      · exact .inr (by rw [hres]; exact h.2.resolve_left hs)
      · exact .inr (by rw [hres]; exact suitableSize_le _)
    · by_cases hn : str.length < littleSize
      · rw [if_pos hn] at hothers
        by_cases hs : r.1.IsLocal
        · refine .inl ⟨⟨hshort, .inl hs⟩, ?_⟩
          rw [hothers, others, if_pos hs]
        · exact .inr ⟨fun hk => hk.2.elim hs fun hge => by omega, hs, hothers⟩
      · rw [if_neg hn] at hothers
        exact .inl ⟨⟨hshort, .inr (by omega)⟩, hothers⟩
  | clear =>
    obtain ⟨s', h', he, hsize, hothers⟩ := clear_spec h.1
    have hlocal : s'.IsLocal := by
      rw [IsLocal, hsize]
      decide
    refine ⟨(s', h'), ?_, ⟨.inl hlocal, .inl hlocal⟩, .inl ⟨trivial, hothers⟩⟩
    show (r.1.clear r.2).toOption = _
    rw [he]
    rfl

/-- A longer string stops the run. -/
theorem Sound.short_of_step (h : Sound r) (he : strSystem.step r op = some t) : op.Short r := by
  cases op with
  | clear => trivial
  | assign new str =>
    by_contra hlong
    have herr := h.assign_huge new (Nat.le_of_not_lt hlong)
    have he : (r.1.assign r.2 new str).toOption = some t := he
    rw [herr] at he
    cases he

/-- Runs of short strings keep the string sound. -/
theorem sound_reach (h : Reach strSystem StrOp.Short r) : Sound r := by
  refine h.invariant (fun r hr => ?_) fun r t op hs hl hshort he => ?_
  · obtain ⟨rest, hr⟩ := hr
    have he := Sound.empty rest r.2
    rwa [← hr] at he
  · obtain ⟨u, hu, hsu, _⟩ := hs.step hl hshort
    cases he.symm.trans hu
    exact hsu

/-- `assign` and `clear` after any sequence of them: `assign` gives the string followed by NUL,
`clear` the size zero, and neither writes outside. -/
theorem assign_right (h : Reach strSystem StrOp.Short r) :
    (∀ new str, r.1.NewFor r.2 new → str.length < 2 ^ 31 → Gives str (r.1.assign r.2 new str)) ∧
      ∃ s' h', r.1.clear r.2 = .ok (s', h') ∧ s'.mSize = 0 := by
  have hs := sound_reach h
  constructor
  · intro new str hf hlen
    obtain ⟨s', h', he, hi, _⟩ := assign_spec hs.1 hf hlen
    rw [he]
    exact hi
  · obtain ⟨s', h', he, hsize, _⟩ := clear_spec hs.1
    exact ⟨s', h', he, hsize⟩

/-- Sound, and the buffers of others are as at the start. -/
def Tidy (f : Ptr → Option Nat) (r : ComString × Chars) : Prop :=
  Sound r ∧ r.1.others r.2 = f

/-- A buffer is in use that is neither the string's nor was there at the start. -/
def Leaked (f : Ptr → Option Nat) (r : ComString × Chars) : Prop :=
  Sound r ∧ ∃ p, f p = none ∧ r.1.others r.2 p ≠ none

theorem Tidy.step (h : Tidy f r) (hl : op.Legal r) (hk : op.Keeps r) :
    ∃ t, strSystem.step r op = some t ∧ Tidy f t := by
  have hshort : op.Short r := by
    cases op with
    | assign new str => exact hk.1
    | clear => trivial
  obtain ⟨t, he, hs, hothers⟩ := h.1.step hl hshort
  refine ⟨t, he, hs, ?_⟩
  cases hothers with
  | inl ho => exact ho.2.trans h.2
  | inr ho => exact absurd hk ho.1

theorem Tidy.leaks (h : Tidy f r) (hl : op.Legal r) (hk : ¬ op.Keeps r)
    (he : strSystem.step r op = some t) : Leaked f t := by
  obtain ⟨u, hu, hs, hothers⟩ := h.1.step hl (h.1.short_of_step he)
  cases he.symm.trans hu
  cases hothers with
  | inl ho => exact absurd ho.1 hk
  | inr ho =>
    obtain ⟨_, hheap, ho⟩ := ho
    obtain ⟨_, hsize, _⟩ := h.1.1.resolve_left hheap
    refine ⟨hs, r.1.mData, ?_, ?_⟩
    · rw [← h.2, others, if_neg hheap, Function.update_self]
    · rw [ho, hsize]
      exact Option.some_ne_none _

theorem Leaked.step (h : Leaked f r) (hl : op.Legal r) (he : strSystem.step r op = some t) :
    Leaked f t := by
  obtain ⟨hr, p, hf, hp⟩ := h
  obtain ⟨u, hu, hs, hothers⟩ := hr.step hl (hr.short_of_step he)
  cases he.symm.trans hu
  refine ⟨hs, p, hf, ?_⟩
  cases hothers with
  | inl ho =>
    rw [ho.2]
    exact hp
  | inr ho =>
    rw [ho.2.2]
    intro hnone
    rw [others, if_neg ho.2.1] at hp
    by_cases hd : p = r.1.mData
    · rw [hd, Function.update_self] at hp
      exact hp rfl
    · rw [Function.update_of_ne hd] at hp
      exact hp hnone

/-- Buffers: the destructor leaves none behind exactly when no string below 32 bytes was assigned
to a string on the heap, and none of `2 ^ 31` bytes or more at all. -/
theorem frees_iff (hr : strSystem.init r) (hl : Along strSystem strSystem.legal r ops) :
    Frees r ops ↔ Along strSystem (fun r op => op.Keeps r) r ops := by
  have htidy : Tidy r.2.size r := by
    obtain ⟨rest, hr⟩ := hr
    have hlocal : r.1.IsLocal := by
      rw [hr]
      exact (by decide : 0 < littleSize)
    exact ⟨⟨.inl hlocal, .inl hlocal⟩, if_pos hlocal⟩
  constructor
  · rintro ⟨_, t, ht, h, hd, hsize⟩
    refine along_of_run (P := Tidy r.2.size) (B := Leaked r.2.size) (fun s i hs hl hk => hs.step hl hk)
      (fun s t i hs hl hk he => hs.leaks hl hk he) (fun s t i hs hl he => hs.step hl he) ?_ htidy hl ht
    rintro ⟨hs, p, hf, hp⟩
    obtain ⟨h', hd', hsize'⟩ := deallocate_others hs.1
    have hd : t.1.deallocate t.2 = .ok h := hd
    rw [hd'] at hd
    cases hd
    exact hp (by rw [← hsize', hsize]; exact hf)
  · intro hk
    have hall := prefixes_run (P := Tidy r.2.size) (fun s i hs hl hk => hs.step hl hk) htidy hl hk
    refine ⟨fun pre hpre => ?_, ?_⟩
    · obtain ⟨t, ht, hs⟩ := hall pre hpre
      exact ⟨t, ht, hs.1.1⟩
    · obtain ⟨t, ht, hs⟩ := hall ops (List.prefix_refl ops)
      obtain ⟨h', hd, hsize⟩ := deallocate_others hs.1.1
      exact ⟨t, ht, h', hd, hsize.trans hs.2⟩

/-- A default-constructed string, with no buffer in use. -/
def start : ComString × Chars := (empty fun _ => 0, noBuffers)

/-- Forty characters: a buffer of 64 bytes, and `new[]` may return its address again in the next
`assign`, behind the `delete[]`. -/
theorem start_assign : ∃ r, strSystem.step start (.assign 0x1000 (List.replicate 40 0x62)) = some r ∧
    r.1.NewFor r.2 0x1000 ∧ ¬ r.2.Fresh 0x1000 ∧ ¬ r.1.IsLocal := by
  refine ⟨_, rfl, ⟨by decide, rfl⟩, fun hf => ?_, by decide⟩
  exact absurd (hf.2.symm.trans (show _ = some 64 from rfl)) nofun

theorem assign_right_start : ∃ r : ComString × Chars, ¬ r.2.Fresh 0x1000 ∧
    Gives (List.replicate 100 0x63) (r.1.assign r.2 0x1000 (List.replicate 100 0x63)) := by
  obtain ⟨r, hr, hnew, hused, _⟩ := start_assign
  have h : Reach strSystem StrOp.Short r :=
    .step (i := .assign 0x1000 (List.replicate 40 0x62)) (.init ⟨fun _ => 0, rfl⟩) ⟨by decide, rfl⟩
      (show 40 < 2 ^ 31 by decide) hr
  exact ⟨r, hused, (assign_right h).1 0x1000 _ hnew (by decide)⟩

/-- The second buffer is at the address of the first. -/
theorem frees_iff_long : Frees start
    [.assign 0x1000 (List.replicate 40 0x62), .assign 0x1000 (List.replicate 100 0x63), .clear] := by
  obtain ⟨r, hr, hnew, _, hlong⟩ := start_assign
  have hlocal : start.1.IsLocal := by decide
  refine (frees_iff ⟨fun _ => 0, rfl⟩ ?_).mpr ?_
  · refine ⟨⟨by decide, rfl⟩, fun t ht => ?_⟩
    cases hr.symm.trans ht
    exact ⟨hnew, fun _ _ => ⟨trivial, fun _ _ => trivial⟩⟩
  · refine ⟨⟨by decide, .inl hlocal⟩, fun t ht => ?_⟩
    exact ⟨⟨by decide, .inr (by decide)⟩, fun _ _ => ⟨trivial, fun _ _ => trivial⟩⟩

/-- Forty characters, then one: the buffer of 64 bytes is still in use when the string is gone. -/
theorem short_assign_leaks :
    ¬ Frees start [.assign 0x1000 (List.replicate 40 0x62), .assign 0x2000 [0x62]] := by
  rintro ⟨_, t, ht, h, hd, hsize⟩
  have hrun : ([StrOp.assign 0x1000 (List.replicate 40 0x62), .assign 0x2000 [0x62]].foldlM
      strSystem.step start).bind (fun t => (t.1.destroy t.2).toOption.map fun h => h.size 0x1000) =
        some (some 64) := rfl
  rw [ht, Option.bind_some, hd] at hrun
  have hp : h.size 0x1000 = some 64 := Option.some.inj hrun
  rw [hsize] at hp
  cases hp

end Runs
end ComString
end Util
end TorexOS
