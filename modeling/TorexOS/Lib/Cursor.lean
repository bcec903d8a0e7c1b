import Mathlib.Data.List.Basic
import Mathlib.Data.List.Nodup
import Mathlib.Data.List.Infix

/-!
# TorexOS.Lib.Cursor

A cursor that goes round a list while items arrive at the front.

* `Cursor`: a list, split at its current item.
* `Cursor.next`: one item to the right; past the last, back to the first.
* `Cursor.arrive`: an item enters at the front, the cursor stays on its own.
* `Cursor.turns`: the items that become current, in order.
* `Cursor.turns_between`: what is current between two turns of one item: the items to its right, then
  those that arrived before the cursor went back to the front, then the items to its left.
-/

structure Cursor (α : Type) where
  left : List α
  current : α
  right : List α

namespace Cursor

variable {α : Type} {c : Cursor α} {t u : α} {us : List α}

def toList (c : Cursor α) : List α := c.left ++ c.current :: c.right

def next (c : Cursor α) : Cursor α :=
  match c.right with
  | r :: rs => ⟨c.left ++ [c.current], r, rs⟩
  | [] =>
    match c.left with
    | [] => c
    | l :: ls => ⟨[], l, ls ++ [c.current]⟩

def arrive (a : α) (c : Cursor α) : Cursor α := { c with left := a :: c.left }

/-- What happens to the cursor. -/
inductive Move (α : Type) where
  | next
  | arrive (a : α)

def turns : Cursor α → List (Move α) → List α
  | _, [] => []
  | c, .next :: ms => c.next.current :: turns c.next ms
  | c, .arrive a :: ms => turns (c.arrive a) ms

def arrivals : List (Move α) → List α
  | [] => []
  | .next :: ms => arrivals ms
  | .arrive a :: ms => a :: arrivals ms

theorem mem_toList : u ∈ c.toList ↔ u ∈ c.left ∨ u = c.current ∨ u ∈ c.right := by
  simp [toList]

theorem toList_next_of_right {r : α} {rs : List α} (h : c.right = r :: rs) :
    c.next = ⟨c.left ++ [c.current], r, rs⟩ := by
  simp [next, h]

/-- The list is the same in the new split. -/
@[simp] theorem toList_next (c : Cursor α) : c.next.toList = c.toList := by
  obtain ⟨left, current, right⟩ := c
  cases right with
  | cons r rs => simp [next, toList]
  | nil =>
    cases left with
    | nil => simp [next, toList]
    | cons l ls => simp [next, toList]

@[simp] theorem toList_arrive (a : α) (c : Cursor α) : (c.arrive a).toList = a :: c.toList := rfl

theorem current_mem (c : Cursor α) : c.current ∈ c.toList := by simp [toList]

/-- Past the last item the cursor is on the first of the list. -/
theorem next_of_right_nil {l : α} {ls : List α} (h : c.right = [])
    (hl : c.left ++ [c.current] = l :: ls) : c.next = ⟨[], l, ls⟩ := by
  obtain ⟨left, current, right⟩ := c
  obtain rfl : right = [] := h
  cases left with
  | nil => simp_all [next]
  | cons a left =>
    simp only [List.cons_append, List.cons.injEq] at hl
    simp [next, hl]

/-- The items of a list with the cursor on a given one. -/
theorem exists_split {xs : List α} (h : t ∈ xs) : ∃ c : Cursor α, c.toList = xs ∧ c.current = t := by
  obtain ⟨ys, zs, rfl⟩ := List.append_of_mem h
  exact ⟨⟨ys, t, zs⟩, rfl, rfl⟩

/-- A first occurrence at the head is the one the split is at. -/
theorem split_eq_nil {r : α} {rs p q : List α} (h : r :: rs = p ++ r :: q) (hp : r ∉ p) : p = [] := by
  cases p with
  | nil => rfl
  | cons a p =>
    simp only [List.cons_append, List.cons.injEq] at h
    exact absurd h.1 (fun hr => hp (by simp [hr]))

/-- A later first occurrence leaves the head in front of it. -/
theorem split_cons {r : α} {rs p q : List α} (h : r :: rs = p ++ t :: q) (hne : r ≠ t) :
    ∃ p', p = r :: p' ∧ rs = p' ++ t :: q := by
  cases p with
  | nil => simp only [List.nil_append, List.cons.injEq] at h; exact absurd h.1 hne
  | cons a p =>
    simp only [List.cons_append, List.cons.injEq] at h
    exact ⟨p, by rw [h.1], h.2⟩

/-- The turns up to the first of `t`. If `t` is right of the cursor they are the items between;
otherwise the cursor first goes through its right, then through what arrived meanwhile, then from
the old front up to `t`. By induction on the moves. -/
theorem turns_until {ms : List (Move α)} :
    ∀ {c : Cursor α} {us : List α}, turns c ms = us ++ [t] → t ∉ us → t ∉ arrivals ms →
      (∀ p q, c.right = p ++ t :: q → t ∉ p → us = p) ∧
      (∀ p q, c.left ++ [c.current] = p ++ t :: q → t ∉ p → t ∉ c.right →
        ∃ as, as <+: arrivals ms ∧ us = c.right ++ as.reverse ++ p) := by
  induction ms with
  | nil => intro c us h; simp [turns] at h
  | cons m ms ih =>
    intro c us h hus harr
    cases m with
    | arrive a =>
      simp only [arrivals, List.mem_cons, not_or] at harr
      obtain ⟨hright, hleft⟩ := ih (c := c.arrive a) h hus harr.2
      refine ⟨hright, fun p q hp htp htr => ?_⟩
      have hp' : (c.arrive a).left ++ [(c.arrive a).current] = (a :: p) ++ t :: q := by
        simp only [arrive, List.cons_append, hp]
      obtain ⟨as, has, rfl⟩ := hleft (a :: p) q hp' (by simp [harr.1, htp]) htr
      exact ⟨a :: as, List.cons_prefix_cons.mpr ⟨rfl, has⟩, by simp [arrive]⟩
    | next =>
      have harr' : t ∉ arrivals ms := harr
      -- either `t` is the item stepped to, or that item is the first of `us`
      have hstep : (c.next.current = t ∧ us = []) ∨
          ∃ us', us = c.next.current :: us' ∧ c.next.current ≠ t ∧ turns c.next ms = us' ++ [t] := by
        simp only [turns] at h
        cases us with
        | nil => exact .inl ⟨(List.cons.inj h).1, rfl⟩
        | cons v us =>
          have hv := (List.cons.inj h).1
          refine .inr ⟨us, by rw [hv], ?_, (List.cons.inj h).2⟩
          rw [hv]
          exact fun hvt => hus (by simp [hvt])
      cases hr : c.right with
      | cons r rs =>
        have hn := toList_next_of_right hr
        rw [hn] at hstep
        refine ⟨fun p q hp htp => ?_, fun p q hp htp htr => ?_⟩
        · rcases hstep with ⟨hrt, rfl⟩ | ⟨us', rfl, hne, ht⟩
          · obtain rfl : r = t := hrt
            rw [split_eq_nil hp htp]
          · obtain ⟨p', rfl, hrs⟩ := split_cons hp hne
            have hus' : t ∉ us' := fun hm => hus (List.mem_cons_of_mem _ hm)
            rw [(ih ht hus' harr').1 p' q hrs (fun hm => htp (List.mem_cons_of_mem _ hm))]
        · rcases hstep with ⟨hrt, rfl⟩ | ⟨us', rfl, hne, ht⟩
          · obtain rfl : r = t := hrt
            exact absurd (List.mem_cons_self ..) htr
          · have hus' : t ∉ us' := fun hm => hus (List.mem_cons_of_mem _ hm)
            have hp' : (c.left ++ [c.current]) ++ [r] = p ++ t :: (q ++ [r]) := by
              rw [hp]; simp
            obtain ⟨as, has, rfl⟩ := (ih ht hus' harr').2 p (q ++ [r]) hp' htp
              (fun hm => htr (List.mem_cons_of_mem _ hm))
            exact ⟨as, has, by simp⟩
      | nil =>
        refine ⟨fun p q hp => by simp at hp, fun p q hp htp _ => ?_⟩
        refine ⟨[], List.nil_prefix, ?_⟩
        cases hl : c.left ++ [c.current] with
        | nil => simp at hl
        | cons l ls =>
          have hn := next_of_right_nil hr hl
          rw [hn] at hstep
          rw [hl] at hp
          rcases hstep with ⟨hlt, rfl⟩ | ⟨us', rfl, hne, ht⟩
          · obtain rfl : l = t := hlt
            simp [split_eq_nil hp htp]
          · obtain ⟨p', rfl, hls⟩ := split_cons hp hne
            have hus' : t ∉ us' := fun hm => hus (List.mem_cons_of_mem _ hm)
            rw [(ih ht hus' harr').1 p' q hls (fun hm => htp (List.mem_cons_of_mem _ hm))]
            simp

/-- Whatever becomes current was in the list or has arrived. -/
theorem mem_of_mem_turns {ms : List (Move α)} :
    ∀ {c : Cursor α}, u ∈ turns c ms → u ∈ c.toList ∨ u ∈ arrivals ms := by
  induction ms with
  | nil => intro c h; cases h
  | cons m ms ih =>
    intro c h
    cases m with
    | next =>
      cases h with
      | head => exact .inl (by rw [← toList_next]; exact c.next.current_mem)
      | tail _ h =>
        cases ih h with
        | inl hc => exact .inl (by rwa [toList_next] at hc)
        | inr ha => exact .inr ha
    | arrive a =>
      cases ih (c := c.arrive a) h with
      | inl hc =>
        rw [toList_arrive] at hc
        cases hc with
        | head => exact .inr (List.mem_cons_self ..)
        | tail _ hc => exact .inl hc
      | inr ha => exact .inr (List.mem_cons_of_mem _ ha)

/-- Between two turns of an item. -/
theorem turns_between {ms : List (Move α)} (h : turns c ms = us ++ [c.current])
    (hus : c.current ∉ us) (hnd : (c.toList ++ arrivals ms).Nodup) :
    ∃ as, as <+: arrivals ms ∧ us = c.right ++ as.reverse ++ c.left := by
  obtain ⟨hlist, _, hdis⟩ := List.nodup_append.mp hnd
  have harr : c.current ∉ arrivals ms := fun hm => hdis _ c.current_mem _ hm rfl
  obtain ⟨_, hright, hdis'⟩ := List.nodup_append.mp hlist
  exact (turns_until h hus harr).2 c.left [] rfl
    (fun hm => hdis' _ hm _ (List.mem_cons_self ..) rfl) (List.nodup_cons.mp hright).1

end Cursor
