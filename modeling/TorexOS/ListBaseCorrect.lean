import TorexOS.ListBase

/-!
# TorexOS.ListBaseCorrect

What `list_base` keeps, operation by operation.

* `Threaded T m l xs`: the end pointers and the prev links spell `xs` exactly, and each next link
  inside `xs` is right or null. Every operation keeps this, whatever the list.
* `Linked T m l xs`: `Threaded`, and the next links spell `xs` too.
* `Writes T S m m'`: `m'` differs from `m` by link writes at nodes in `S` only.

`pop_back_node` clears the next link of `head` in place of that of the new `tail`, so it keeps
`Linked` for lists of at most two nodes and only `Threaded` for longer ones. The other operations
keep both.
-/

namespace TorexOS
namespace Util

namespace NodeTrait

variable {M N : Type} [DecidableEq N] (T : NodeTrait M N)

theorem next_setNext_some {q : N} (hq : T.Storable q) (m : M) (a b : N) :
    T.getNext (T.setNext m a (some q)) b = if b = a then some q else T.getNext m b := by
  split
  · rename_i h; subst h; exact T.next_setNext m b _ (by simpa using hq)
  · rename_i h; exact T.next_setNext_ne m a b _ h

theorem next_setNext_none (m : M) (a b : N) :
    T.getNext (T.setNext m a none) b = if b = a then none else T.getNext m b := by
  split
  · rename_i h; subst h; exact T.next_setNext m b _ (by simp)
  · rename_i h; exact T.next_setNext_ne m a b _ h

theorem prev_setPrev_some {q : N} (hq : T.Storable q) (m : M) (a b : N) :
    T.getPrev (T.setPrev m a (some q)) b = if b = a then some q else T.getPrev m b := by
  split
  · rename_i h; subst h; exact T.prev_setPrev m b _ (by simpa using hq)
  · rename_i h; exact T.prev_setPrev_ne m a b _ h

theorem prev_setPrev_none (m : M) (a b : N) :
    T.getPrev (T.setPrev m a none) b = if b = a then none else T.getPrev m b := by
  split
  · rename_i h; subst h; exact T.prev_setPrev m b _ (by simp)
  · rename_i h; exact T.prev_setPrev_ne m a b _ h

end NodeTrait

namespace ListBase

section Correct

variable {M N : Type} {T : NodeTrait M N} {m m' : M} {l l' : ListBase N} {xs : List N} {a : N}

/-- Link writes at nodes in `S`, and nothing else. -/
inductive Writes (T : NodeTrait M N) (S : N → Prop) (m : M) : M → Prop where
  | refl : Writes T S m m
  | next {m' : M} {a : N} (p : Option N) : Writes T S m m' → S a → Writes T S m (T.setNext m' a p)
  | prev {m' : M} {a : N} (p : Option N) : Writes T S m m' → S a → Writes T S m (T.setPrev m' a p)

/-- A node outside `S` keeps its links. -/
theorem Writes.links_eq {S : N → Prop} (h : Writes T S m m') (ha : ¬ S a) :
    T.getNext m' a = T.getNext m a ∧ T.getPrev m' a = T.getPrev m a := by
  induction h with
  | refl => exact ⟨rfl, rfl⟩
  | @next m' b p _ hb ih =>
    have hab : a ≠ b := by intro he; rw [he] at ha; exact ha hb
    rw [T.next_setNext_ne m' b a p hab, T.prev_setNext]
    exact ih
  | @prev m' b p _ hb ih =>
    have hab : a ≠ b := by intro he; rw [he] at ha; exact ha hb
    rw [T.next_setPrev, T.prev_setPrev_ne m' b a p hab]
    exact ih

/-- Link writes leave what is not a link alone. -/
theorem Writes.field_eq {R γ : Type} [DecidableEq N] {links : R → ListNode N}
    {setLinks : R → ListNode N → R} {hl : ∀ r x, links (setLinks r x) = x} {S : N → Prop}
    {m m' : N → R} {f : R → γ} (hf : ∀ r x, f (setLinks r x) = f r)
    (h : Writes (nodeFieldTrait links setLinks hl) S m m') (a : N) : f (m' a) = f (m a) := by
  induction h with
  | refl => rfl
  | @next m' b p _ _ ih =>
    simp only [nodeFieldTrait]
    split
    · rw [hf]; exact ih
    · exact ih
  | @prev m' b p _ _ ih =>
    simp only [nodeFieldTrait]
    split
    · rw [hf]; exact ih
    · exact ih

/-- The end pointers and the prev links spell `xs`; a next link inside `xs` may have been lost,
but never leads elsewhere. -/
structure Threaded (T : NodeTrait M N) (m : M) (l : ListBase N) (xs : List N) : Prop where
  head : l.head = xs.head?
  tail : l.tail = xs.getLast?
  nodup : xs.Nodup
  storable : ∀ a ∈ xs, T.Storable a
  prev : xs.IsChain fun a b => T.getPrev m b = some a
  first : ∀ a ∈ xs.head?, T.getPrev m a = none
  next : xs.IsChain fun a b => T.getNext m a = some b ∨ T.getNext m a = none

/-- The next links spell `xs` as well, and end in null. -/
structure Linked (T : NodeTrait M N) (m : M) (l : ListBase N) (xs : List N) : Prop
    extends Threaded T m l xs where
  forward : xs.IsChain fun a b => T.getNext m a = some b
  last : ∀ a ∈ xs.getLast?, T.getNext m a = none

theorem new_linked (T : NodeTrait M N) (m : M) : Linked T m new [] where
  head := rfl
  tail := rfl
  nodup := .nil
  storable := by simp
  prev := .nil
  first := by simp
  next := .nil
  forward := .nil
  last := by simp

theorem Threaded.empty_iff (h : Threaded T m l xs) : l.empty = true ↔ xs = [] := by
  cases xs <;> simp [empty, h.head]

/-- A memory that agrees on the links of `xs` threads `xs` the same way. -/
theorem Threaded.congr (h : Threaded T m l xs)
    (hn : ∀ a ∈ xs, T.getNext m' a = T.getNext m a)
    (hp : ∀ a ∈ xs, T.getPrev m' a = T.getPrev m a) : Threaded T m' l xs where
  head := h.head
  tail := h.tail
  nodup := h.nodup
  storable := h.storable
  prev := h.prev.imp_of_mem_imp fun a b _ hb hab => by rw [hp b hb]; exact hab
  first := fun a ha => by rw [hp a (List.mem_of_mem_head? ha)]; exact h.first a ha
  next := h.next.imp_of_mem_imp fun a b ha _ hab => by rw [hn a ha]; exact hab

theorem Linked.congr (h : Linked T m l xs)
    (hn : ∀ a ∈ xs, T.getNext m' a = T.getNext m a)
    (hp : ∀ a ∈ xs, T.getPrev m' a = T.getPrev m a) : Linked T m' l xs where
  toThreaded := h.toThreaded.congr hn hp
  forward := h.forward.imp_of_mem_imp fun a b ha _ hab => by rw [hn a ha]; exact hab
  last := fun a ha => by rw [hn a (List.mem_of_mem_getLast? ha)]; exact h.last a ha

variable [DecidableEq N]

omit [DecidableEq N] in
/-- A chain survives a change of relation that leaves all elements but the last alone. -/
theorem isChain_imp_dropLast {R S : N → N → Prop} {l : List N}
    (H : ∀ a b, a ∈ l.dropLast → b ∈ l → R a b → S a b) (p : l.IsChain R) : l.IsChain S := by
  induction p with grind

/-! ## push_front_node -/

theorem pushFrontNode_threaded (h : Threaded T m l xs) (ha : a ∉ xs) (hs : T.Storable a) :
    ∃ m' l', pushFrontNode T m l a = some (m', l') ∧ Threaded T m' l' (a :: xs) ∧
      (Linked T m l xs → Linked T m' l' (a :: xs)) ∧
      Writes T (fun b => b ∈ a :: xs) m m' := by
  cases xs with
  | nil =>
    have he : l.empty = true := h.empty_iff.mpr rfl
    refine ⟨_, _, by simp only [pushFrontNode, he, if_true]; rfl, ?_⟩
    have ht : Threaded T (T.setPrev (T.setNext m a none) a none) ⟨some a, some a⟩ [a] :=
      { head := rfl, tail := rfl, nodup := by simp, storable := by simpa using hs
        prev := .singleton a, first := by simp [T.prev_setPrev_none], next := .singleton a }
    refine ⟨ht, fun _ => ⟨ht, .singleton a, ?_⟩, .prev _ (.next _ .refl (by simp)) (by simp)⟩
    simp [T.next_setPrev, T.next_setNext_none]
  | cons b rest =>
    have he : l.empty = false := by simp [empty, h.head]
    have hb : T.Storable b := h.storable b (by simp)
    have hab : a ≠ b := by rintro rfl; simp at ha
    let m1 := T.setPrev (T.setPrev (T.setNext m a (some b)) b (some a)) a none
    have hnext : ∀ c, T.getNext m1 c = if c = a then some b else T.getNext m c := by
      intro c; simp only [m1, T.next_setPrev, T.next_setNext_some hb]
    have hprev : ∀ c, T.getPrev m1 c =
        if c = a then none else if c = b then some a else T.getPrev m c := by
      intro c
      simp only [m1, T.prev_setPrev_none, T.prev_setPrev_some hs, T.prev_setNext]
    have hmem : ∀ c ∈ b :: rest, c ≠ a := by rintro c hc rfl; exact ha hc
    have ht : Threaded T m1 { l with head := some a } (a :: b :: rest) := by
      refine ⟨rfl, ?_, ?_, ?_, ?_, ?_, ?_⟩
      · rw [List.getLast?_cons_cons]; exact h.tail
      · exact List.nodup_cons.mpr ⟨ha, h.nodup⟩
      · simpa using ⟨hs, by simpa using h.storable⟩
      · refine List.isChain_cons_cons.mpr ⟨by rw [hprev, if_neg hab.symm, if_pos rfl], ?_⟩
        refine h.prev.imp_of_mem_tail_imp fun c d hc hd hcd => ?_
        have hdb : d ≠ b := by rintro rfl; exact (List.nodup_cons.mp h.nodup).1 hd
        rw [hprev, if_neg (hmem d (List.mem_of_mem_tail hd)), if_neg hdb]
        exact hcd
      · simp [hprev]
      · refine List.isChain_cons_cons.mpr ⟨by simp [hnext], ?_⟩
        refine h.next.imp_of_mem_imp fun c d hc _ hcd => ?_
        rw [hnext, if_neg (hmem c hc)]; exact hcd
    refine ⟨m1, { l with head := some a }, ?_, ht, fun hl => ⟨ht, ?_, ?_⟩, ?_⟩
    · simp only [pushFrontNode, he, joinList, h.head, List.head?_cons]; rfl
    · refine List.isChain_cons_cons.mpr ⟨by simp [hnext], ?_⟩
      refine hl.forward.imp_of_mem_imp fun c d hc _ hcd => ?_
      rw [hnext, if_neg (hmem c hc)]; exact hcd
    · intro c hc
      rw [List.getLast?_cons_cons] at hc
      rw [hnext, if_neg (hmem c (List.mem_of_mem_getLast? hc))]
      exact hl.last c hc
    · exact .prev _ (.prev _ (.next _ .refl (by simp)) (by simp)) (by simp)

/-! ## push_back_node -/

theorem pushBackNode_threaded (h : Threaded T m l xs) (ha : a ∉ xs) (hs : T.Storable a) :
    ∃ m' l', pushBackNode T m l a = some (m', l') ∧ Threaded T m' l' (xs ++ [a]) ∧
      (Linked T m l xs → Linked T m' l' (xs ++ [a])) ∧
      Writes T (fun b => b ∈ a :: xs) m m' := by
  rcases List.eq_nil_or_concat' xs with rfl | ⟨ys, t, rfl⟩
  · obtain ⟨m', l', he, ht, hl, hw⟩ := pushFrontNode_threaded h ha hs
    have he' : l.empty = true := h.empty_iff.mpr rfl
    refine ⟨m', l', ?_, ht, hl, hw⟩
    rw [← he]; simp only [pushBackNode, pushFrontNode, he', if_true]
  · have he : l.empty = false := by
      rw [← Bool.not_eq_true, h.empty_iff]; simp
    have ht : T.Storable t := h.storable t (by simp)
    have hat : a ≠ t := by rintro rfl; simp at ha
    let m1 := T.setNext (T.setPrev (T.setNext m t (some a)) a (some t)) a none
    have hnext : ∀ c, T.getNext m1 c =
        if c = a then none else if c = t then some a else T.getNext m c := by
      intro c
      simp only [m1, T.next_setNext_none, T.next_setPrev, T.next_setNext_some hs]
    have hprev : ∀ c, T.getPrev m1 c = if c = a then some t else T.getPrev m c := by
      intro c; simp only [m1, T.prev_setNext, T.prev_setPrev_some ht]
    have hmem : ∀ c ∈ ys ++ [t], c ≠ a := by rintro c hc rfl; exact ha hc
    have hys : ∀ c ∈ (ys ++ [t]).dropLast, c ≠ t := by
      rintro c hc rfl
      rw [List.dropLast_concat] at hc
      exact (List.nodup_append.mp h.nodup).2.2 c hc c (by simp) rfl
    have hth : Threaded T m1 { l with tail := some a } (ys ++ [t] ++ [a]) := by
      refine ⟨?_, by simp, ?_, ?_, ?_, ?_, ?_⟩
      · rw [List.head?_append_of_ne_nil _ (by simp)]; exact h.head
      · exact List.nodup_append.mpr ⟨h.nodup, by simp, by simpa using fun c hc => hmem c (by simpa using hc)⟩
      · intro c hc
        rcases List.mem_append.mp hc with hc | hc
        · exact h.storable c hc
        · rw [List.mem_singleton] at hc; subst hc; exact hs
      · refine List.IsChain.append ?_ (.singleton a) (by simp [hprev])
        refine h.prev.imp_of_mem_imp fun c d _ hd hcd => ?_
        rw [hprev, if_neg (hmem d hd)]; exact hcd
      · intro c hc
        rw [List.head?_append_of_ne_nil _ (by simp)] at hc
        rw [hprev, if_neg (hmem c (List.mem_of_mem_head? hc))]; exact h.first c hc
      · refine List.IsChain.append ?_ (.singleton a) (by simp [hnext, hat.symm])
        refine isChain_imp_dropLast (fun c d hc hd hcd => ?_) h.next
        rw [hnext, if_neg (hmem c (List.dropLast_subset _ hc)), if_neg (hys c hc)]; exact hcd
    refine ⟨m1, { l with tail := some a }, ?_, hth, fun hl => ⟨hth, ?_, by simp [hnext]⟩, ?_⟩
    · simp only [pushBackNode, he, joinList, h.tail, List.getLast?_concat]; rfl
    · refine List.IsChain.append ?_ (.singleton a) (by simp [hnext, hat.symm])
      refine isChain_imp_dropLast (fun c d hc hd hcd => ?_) hl.forward
      rw [hnext, if_neg (hmem c (List.dropLast_subset _ hc)), if_neg (hys c hc)]; exact hcd
    · exact .next _ (.prev _ (.next _ .refl (by simp)) (by simp)) (by simp)

/-! ## pop_front_node -/

/-- With two nodes or more, `pop_front_node` follows the next link of the first. -/
theorem popFrontNode_cons_cons {b : N} {rest : List N} (h : Threaded T m l (a :: b :: rest)) :
    popFrontNode T m l =
      if T.getNext m a = none then none
      else some (T.setPrev m b none, { l with head := some b }) := by
  have hne : l.orphan = false := by
    have hla : (b :: rest).getLast? ≠ some a := fun hc =>
      (List.nodup_cons.mp h.nodup).1 (List.mem_of_mem_getLast? hc)
    simpa [orphan, h.head, h.tail, List.getLast?_cons_cons] using hla
  have he : l.empty = false := by simp [empty, h.head]
  simp only [popFrontNode, he, hne, h.head, List.head?_cons]
  rcases (List.isChain_cons_cons.mp h.next).1 with hn | hn <;> simp [hn]

theorem popFrontNode_short (h : Threaded T m l xs) (hx : xs.length ≤ 1) :
    popFrontNode T m l = some (m, new) := by
  rcases xs with _ | ⟨b, _ | ⟨c, rest⟩⟩
  · simp [popFrontNode, empty, h.head, new]
  · simp [popFrontNode, orphan, h.head, h.tail, new]
  · simp at hx

theorem popFrontNode_threaded (h : Threaded T m l xs)
    (hp : popFrontNode T m l = some (m', l')) :
    Threaded T m' l' xs.tail ∧ Writes T (fun b => b ∈ xs) m m' := by
  rcases xs with _ | ⟨a, _ | ⟨b, rest⟩⟩
  · rw [popFrontNode_short h (by simp)] at hp; cases hp
    exact ⟨(new_linked T m).toThreaded, .refl⟩
  · rw [popFrontNode_short h (by simp)] at hp; cases hp
    exact ⟨(new_linked T m).toThreaded, .refl⟩
  · rw [popFrontNode_cons_cons h] at hp
    split at hp
    · cases hp
    · cases hp
      have hnd := List.nodup_cons.mp (List.nodup_cons.mp h.nodup).2
      have hprev : ∀ c, T.getPrev (T.setPrev m b none) c = if c = b then none else T.getPrev m c :=
        fun c => T.prev_setPrev_none m b c
      refine ⟨⟨rfl, ?_, ?_, ?_, ?_, ?_, ?_⟩, .prev _ .refl (by simp)⟩
      · rw [List.tail_cons, ← h.tail.trans List.getLast?_cons_cons]
      · exact (List.nodup_cons.mp h.nodup).2
      · exact fun c hc => h.storable c (by simp at hc ⊢; exact .inr hc)
      · refine (List.isChain_cons_cons.mp h.prev).2.imp_of_mem_tail_imp fun c d _ hd hcd => ?_
        rw [hprev, if_neg (by rintro rfl; exact hnd.1 hd)]; exact hcd
      · simp [hprev]
      · refine (List.isChain_cons_cons.mp h.next).2.imp fun c d hcd => ?_
        rw [T.next_setPrev]; exact hcd

/-- The removed node keeps its null prev link. -/
theorem popFrontNode_prev (h : Threaded T m l xs) (hp : popFrontNode T m l = some (m', l')) :
    ∀ c ∈ xs.head?, T.getPrev m' c = none := by
  rcases xs with _ | ⟨a, _ | ⟨b, rest⟩⟩
  · simp
  · rw [popFrontNode_short h (by simp)] at hp; cases hp; exact h.first
  · rw [popFrontNode_cons_cons h] at hp
    split at hp
    · cases hp
    · cases hp
      intro c hc
      rw [T.prev_setPrev_none]
      split
      · rfl
      · exact h.first c hc

theorem popFrontNode_linked (h : Linked T m l xs) :
    ∃ m' l', popFrontNode T m l = some (m', l') ∧ Linked T m' l' xs.tail := by
  rcases xs with _ | ⟨a, _ | ⟨b, rest⟩⟩
  · exact ⟨m, new, popFrontNode_short h.toThreaded (by simp), new_linked T m⟩
  · exact ⟨m, new, popFrontNode_short h.toThreaded (by simp), new_linked T m⟩
  · have hn : T.getNext m a = some b := (List.isChain_cons_cons.mp h.forward).1
    have he := popFrontNode_cons_cons h.toThreaded
    rw [hn, if_neg (by simp)] at he
    refine ⟨_, _, he, (popFrontNode_threaded h.toThreaded he).1, ?_, ?_⟩
    · refine (List.isChain_cons_cons.mp h.forward).2.imp fun c d hcd => ?_
      rw [T.next_setPrev]; exact hcd
    · intro c hc
      rw [T.next_setPrev]
      exact h.last c (by rw [List.getLast?_cons_cons]; exact hc)

/-! ## pop_back_node -/

theorem popBackNode_short (h : Threaded T m l xs) (hx : xs.length ≤ 1) :
    popBackNode T m l = some (m, new) := by
  rcases xs with _ | ⟨b, _ | ⟨c, rest⟩⟩
  · simp [popBackNode, empty, h.head, new]
  · simp [popBackNode, orphan, h.head, h.tail, new]
  · simp at hx

/-- With two nodes or more, `pop_back_node` moves `tail` back and clears the next link of the
first node. -/
theorem popBackNode_concat {ys : List N} {t : N} (h : Threaded T m l (a :: ys ++ [t])) :
    popBackNode T m l = some (T.setNext m a none, { l with tail := (a :: ys).getLast? }) := by
  have hat : t ≠ a := by
    rintro rfl; simpa using (List.nodup_append.mp h.nodup).2.2 t (by simp) t (by simp)
  have hne : l.orphan = false := by
    rw [orphan, h.head, h.tail, List.getLast?_concat]; simpa using hat
  have he : l.empty = false := by simp [empty, h.head]
  have hp : T.getPrev m t = (a :: ys).getLast? := by
    have hl := List.getLast?_eq_some_getLast (List.cons_ne_nil a ys)
    rw [hl]
    exact (List.isChain_append.mp h.prev).2.2 _ hl t (by simp)
  have ht : l.tail = some t := by rw [h.tail, List.getLast?_concat]
  have hh : l.head = some a := h.head
  simp only [popBackNode, he, hne, hh, ht, hp]
  rfl

theorem popBackNode_threaded (h : Threaded T m l xs) :
    ∃ m' l', popBackNode T m l = some (m', l') ∧ Threaded T m' l' xs.dropLast ∧
      Writes T (fun b => b ∈ xs) m m' := by
  rcases List.eq_nil_or_concat' xs with rfl | ⟨_ | ⟨a, ys⟩, t, rfl⟩
  · exact ⟨m, new, popBackNode_short h (by simp), (new_linked T m).toThreaded, .refl⟩
  · exact ⟨m, new, popBackNode_short h (by simp), (new_linked T m).toThreaded, .refl⟩
  · refine ⟨_, _, popBackNode_concat h, ?_, .next _ .refl (by simp)⟩
    rw [List.dropLast_concat]
    have hnd := List.nodup_append.mp h.nodup
    refine ⟨h.head, rfl, hnd.1, fun c hc => h.storable c (by simp at hc ⊢; tauto), ?_, ?_, ?_⟩
    · refine h.prev.left_of_append.imp fun c d hcd => ?_
      rw [T.prev_setNext]; exact hcd
    · intro c hc; rw [T.prev_setNext]; exact h.first c hc
    · refine h.next.left_of_append.imp fun c d hcd => ?_
      rw [T.next_setNext_none]
      by_cases hca : c = a
      · exact .inr (if_pos hca)
      · rw [if_neg hca]; exact hcd

/-- Removing the last of two nodes clears the right link, as both ends are the first node. -/
theorem popBackNode_linked (h : Linked T m l xs) (hx : xs.length ≤ 2)
    (hp : popBackNode T m l = some (m', l')) : Linked T m' l' xs.dropLast := by
  rcases List.eq_nil_or_concat' xs with rfl | ⟨_ | ⟨a, _ | ⟨b, ys⟩⟩, t, rfl⟩
  · rw [popBackNode_short h.toThreaded (by simp)] at hp; cases hp; exact new_linked T m
  · rw [popBackNode_short h.toThreaded (by simp)] at hp; cases hp; exact new_linked T m
  · obtain ⟨m1, l1, he, ht, _⟩ := popBackNode_threaded h.toThreaded
    rw [hp] at he; cases he
    rw [popBackNode_concat h.toThreaded] at hp; cases hp
    exact ⟨ht, .singleton a, by simp [T.next_setNext_none]⟩
  · simp at hx

/-- Removing the last of three nodes or more cuts the list after its first node. -/
theorem popBackNode_cut (h : Threaded T m l xs) (hx : 3 ≤ xs.length)
    (hp : popBackNode T m l = some (m', l')) :
    ∃ a b ys, xs.dropLast = a :: b :: ys ∧ l'.head = some a ∧ T.getNext m' a = none := by
  rcases List.eq_nil_or_concat' xs with rfl | ⟨_ | ⟨a, _ | ⟨b, ys⟩⟩, t, rfl⟩
  · simp at hx
  · simp at hx
  · simp at hx
  · rw [popBackNode_concat h] at hp; cases hp
    exact ⟨a, b, ys, by rw [List.dropLast_concat], h.head, by simp [T.next_setNext_none]⟩

/-! ## pop_node -/

/-- A node between two others is unlinked through its own two links. -/
theorem popNode_middle {p q : N} {ys zs : List N}
    (h : Threaded T m l (ys ++ p :: a :: q :: zs)) :
    popNode T m l a =
      if T.getNext m a = none then none
      else some (T.setPrev (T.setNext m p (some q)) q (some p), l) := by
  have hnd := h.nodup
  have hh : some a ≠ l.head := by
    rw [h.head]
    cases ys with
    | nil => simp at hnd ⊢; tauto
    | cons y ys => simp [List.nodup_append] at hnd ⊢; tauto
  have ht : some a ≠ l.tail := by
    have ha : a ∉ q :: zs := by
      rw [List.nodup_append, List.nodup_cons, List.nodup_cons] at hnd; exact hnd.2.1.2.1
    rw [h.tail, List.getLast?_append_of_ne_nil _ (by simp), List.getLast?_cons_cons,
      List.getLast?_cons_cons]
    exact fun hc => ha (List.mem_of_mem_getLast? hc.symm)
  have hc := List.isChain_append_cons_cons.mp h.prev
  have hc' := List.isChain_cons_cons.mp
    (List.isChain_append_cons_cons.mp h.next).2.2
  rw [popNode, if_neg hh, if_neg ht, hc.2.1]
  rcases hc'.1 with hn | hn <;> simp [joinList, hn]

omit [DecidableEq N] in
/-- Where a node of the list is: the front, the back or between two others. -/
theorem mem_cases (ha : a ∈ xs) :
    (∃ zs, xs = a :: zs) ∨ (∃ y ys, xs = y :: ys ++ [a]) ∨
      ∃ ys p q zs, xs = ys ++ p :: a :: q :: zs := by
  obtain ⟨ys, zs, rfl⟩ := List.append_of_mem ha
  rcases List.eq_nil_or_concat' ys with rfl | ⟨ys, p, rfl⟩
  · exact .inl ⟨zs, rfl⟩
  · cases zs with
    | nil =>
      cases ys with
      | nil => exact .inr (.inl ⟨p, [], rfl⟩)
      | cons y ys => exact .inr (.inl ⟨y, ys ++ [p], by simp⟩)
    | cons q zs => exact .inr (.inr ⟨ys, p, q, zs, by simp⟩)

theorem popNode_front {zs : List N} (h : Threaded T m l (a :: zs)) :
    popNode T m l a = popFrontNode T m l := by
  have hh : some a = l.head := h.head.symm
  rw [popNode, if_pos hh]

theorem popNode_back {y : N} {ys : List N} (h : Threaded T m l (y :: ys ++ [a])) :
    popNode T m l a = popBackNode T m l := by
  have hay : a ≠ y := by
    rintro rfl; simpa using (List.nodup_append.mp h.nodup).2.2 a (by simp) a (by simp)
  rw [popNode, if_neg (by rw [h.head]; simpa using hay),
    if_pos (by rw [h.tail, List.getLast?_concat])]

theorem erase_middle {p q : N} {ys zs : List N} (h : (ys ++ p :: a :: q :: zs).Nodup) :
    (ys ++ p :: a :: q :: zs).erase a = ys ++ p :: q :: zs := by
  have hys : a ∉ ys ++ [p] := by
    intro hc
    rw [show ys ++ p :: a :: q :: zs = (ys ++ [p]) ++ a :: q :: zs by simp] at h
    exact (List.nodup_append.mp h).2.2 a hc a (by simp) rfl
  rw [show ys ++ p :: a :: q :: zs = (ys ++ [p]) ++ a :: q :: zs by simp,
    List.erase_append_right _ hys, List.erase_cons_head]
  simp

theorem popNode_threaded (h : Threaded T m l xs) (ha : a ∈ xs)
    (hp : popNode T m l a = some (m', l')) :
    Threaded T m' l' (xs.erase a) ∧ Writes T (fun b => b ∈ xs) m m' := by
  rcases mem_cases ha with ⟨zs, rfl⟩ | ⟨y, ys, rfl⟩ | ⟨ys, p, q, zs, rfl⟩
  · rw [popNode_front h] at hp
    simpa using popFrontNode_threaded h hp
  · rw [popNode_back h] at hp
    obtain ⟨m1, l1, he, ht, hw⟩ := popBackNode_threaded h
    rw [hp] at he; cases he
    have hay : a ∉ y :: ys := fun hc => (List.nodup_append.mp h.nodup).2.2 a hc a (by simp) rfl
    rw [List.erase_append_right _ hay, List.erase_cons_head, List.append_nil]
    exact ⟨by rwa [List.dropLast_concat] at ht, hw⟩
  · rw [popNode_middle h] at hp
    split at hp
    · cases hp
    · cases hp
      rw [erase_middle h.nodup]
      have hp : T.Storable p := h.storable p (by simp)
      have hq : T.Storable q := h.storable q (by simp)
      have hnd : (ys ++ p :: q :: zs).Nodup := by
        rw [← erase_middle h.nodup]; exact h.nodup.erase a
      have hnext : ∀ c, T.getNext (T.setPrev (T.setNext m p (some q)) q (some p)) c =
          if c = p then some q else T.getNext m c := by
        intro c; rw [T.next_setPrev, T.next_setNext_some hq]
      have hprev : ∀ c, T.getPrev (T.setPrev (T.setNext m p (some q)) q (some p)) c =
          if c = q then some p else T.getPrev m c := by
        intro c; rw [T.prev_setPrev_some hp, T.prev_setNext]
      have hmem : ∀ c, c ∈ ys ++ p :: q :: zs → c ∈ ys ++ p :: a :: q :: zs := by
        intro c hc; simp at hc ⊢; tauto
      have hc := List.isChain_append_cons_cons.mp h.prev
      have hc' := List.isChain_append_cons_cons.mp h.next
      have hpq : p ∉ q :: zs :=
        (List.nodup_cons.mp (List.nodup_append.mp hnd).2.1).1
      have hqs : q ∉ ys ++ [p] := by
        intro hx
        rw [show ys ++ p :: q :: zs = (ys ++ [p]) ++ q :: zs by simp] at hnd
        exact (List.nodup_append.mp hnd).2.2 q hx q (by simp) rfl
      have hps : p ∉ ys := fun hx => (List.nodup_append.mp hnd).2.2 p hx p (by simp) rfl
      refine ⟨⟨?_, ?_, hnd, fun c hx => h.storable c (hmem c hx), ?_, ?_, ?_⟩, ?_⟩
      · rw [h.head]; cases ys <;> rfl
      · rw [h.tail, List.getLast?_append_of_ne_nil _ (by simp),
          List.getLast?_append_of_ne_nil _ (by simp)]
        simp [List.getLast?_cons_cons]
      · refine List.isChain_append_cons_cons.mpr ⟨?_, by simp [hprev], ?_⟩
        · refine hc.1.imp_of_mem_imp fun c d _ hd hcd => ?_
          rw [hprev, if_neg (by rintro rfl; exact hqs hd)]; exact hcd
        · refine (List.isChain_cons_cons.mp hc.2.2).2.imp_of_mem_tail_imp fun c d _ hd hcd => ?_
          have hqz := (List.nodup_cons.mp (List.nodup_cons.mp (List.nodup_append.mp hnd).2.1).2).1
          rw [hprev, if_neg (by rintro rfl; exact hqz hd)]; exact hcd
      · intro c hx
        have hcq : c ≠ q := by
          rintro rfl
          refine hqs ?_
          cases ys with
          | nil => simpa using hx.symm
          | cons y ys => simp at hx; simp [hx]
        rw [hprev, if_neg hcq]
        refine h.first c ?_
        cases ys with
        | nil => simpa using hx
        | cons y ys => simpa using hx
      · refine List.isChain_append_cons_cons.mpr ⟨?_, by simp [hnext], ?_⟩
        · refine isChain_imp_dropLast (fun c d hx _ hcd => ?_) hc'.1
          rw [List.dropLast_concat] at hx
          rw [hnext, if_neg (by rintro rfl; exact hps hx)]; exact hcd
        · refine (List.isChain_cons_cons.mp hc'.2.2).2.imp_of_mem_imp fun c d hx _ hcd => ?_
          rw [hnext, if_neg (by rintro rfl; exact hpq hx)]; exact hcd
      · exact .prev _ (.next _ .refl (by simp)) (by simp)

/-- `pop_node` dereferences null exactly when it follows a lost next link. -/
theorem popNode_eq_none_iff (h : Threaded T m l xs) (ha : a ∈ xs) :
    popNode T m l a = none ↔ xs.getLast? ≠ some a ∧ T.getNext m a = none := by
  rcases mem_cases ha with ⟨zs, rfl⟩ | ⟨y, ys, rfl⟩ | ⟨ys, p, q, zs, rfl⟩
  · rw [popNode_front h]
    cases zs with
    | nil => simp [popFrontNode_short h]
    | cons b zs =>
      have hla : (b :: zs).getLast? ≠ some a := fun hc =>
        (List.nodup_cons.mp h.nodup).1 (List.mem_of_mem_getLast? hc)
      rw [popFrontNode_cons_cons h, List.getLast?_cons_cons]
      simp [hla]
  · rw [popNode_back h, List.getLast?_concat]
    obtain ⟨m1, l1, he, _⟩ := popBackNode_threaded h
    simp [he]
  · have hla : (ys ++ p :: a :: q :: zs).getLast? ≠ some a := by
      have hz : a ∉ q :: zs :=
        (List.nodup_cons.mp (List.nodup_cons.mp (List.nodup_append.mp h.nodup).2.1).2).1
      rw [List.getLast?_append_of_ne_nil _ (by simp), List.getLast?_cons_cons,
        List.getLast?_cons_cons]
      exact fun hc => hz (List.mem_of_mem_getLast? hc)
    rw [popNode_middle h]
    by_cases hn : T.getNext m a = none
    · simp only [hn, if_true, ne_eq, hla, not_false_eq_true, and_self]
    · simp only [hn, if_false, and_false, reduceCtorEq]

/-- A node of another list without a prev link: `join_list` dereferences null. -/
theorem popNode_eq_none_of_not_mem (h : Threaded T m l xs) (ha : a ∉ xs)
    (hp : T.getPrev m a = none) : popNode T m l a = none := by
  have hh : some a ≠ l.head := by
    rw [h.head]; exact fun hc => ha (List.mem_of_mem_head? hc.symm)
  have ht : some a ≠ l.tail := by
    rw [h.tail]; exact fun hc => ha (List.mem_of_mem_getLast? hc.symm)
  rw [popNode, if_neg hh, if_neg ht, hp]
  rfl

theorem popNode_linked (h : Linked T m l xs) (ha : a ∈ xs)
    (hx : xs.length ≤ 2 ∨ xs.getLast? ≠ some a) :
    ∃ m' l', popNode T m l a = some (m', l') ∧ Linked T m' l' (xs.erase a) := by
  rcases mem_cases ha with ⟨zs, rfl⟩ | ⟨y, ys, rfl⟩ | ⟨ys, p, q, zs, rfl⟩
  · rw [popNode_front h.toThreaded]
    simpa using popFrontNode_linked h
  · have hlen : (y :: ys ++ [a]).length ≤ 2 := by
      rcases hx with hx | hx
      · exact hx
      · exact absurd List.getLast?_concat hx
    obtain ⟨m1, l1, he, _⟩ := popBackNode_threaded h.toThreaded
    have hay : a ∉ y :: ys := fun hc => (List.nodup_append.mp h.nodup).2.2 a hc a (by simp) rfl
    refine ⟨m1, l1, by rw [popNode_back h.toThreaded, he], ?_⟩
    rw [List.erase_append_right _ hay, List.erase_cons_head, List.append_nil]
    have hb := popBackNode_linked h hlen he
    rwa [List.dropLast_concat] at hb
  · have hf := List.isChain_append_cons_cons.mp h.forward
    have hf' := List.isChain_cons_cons.mp hf.2.2
    have he := popNode_middle h.toThreaded
    rw [hf'.1, if_neg (by simp)] at he
    obtain ⟨ht, _⟩ := popNode_threaded h.toThreaded ha he
    have hq : T.Storable q := h.storable q (by simp)
    have hnext : ∀ c, T.getNext (T.setPrev (T.setNext m p (some q)) q (some p)) c =
        if c = p then some q else T.getNext m c := by
      intro c; rw [T.next_setPrev, T.next_setNext_some hq]
    refine ⟨_, _, he, ht, ?_, ?_⟩
    all_goals
      have hnd := ht.nodup
      rw [erase_middle h.nodup] at hnd ⊢
      have hpq : p ∉ q :: zs := (List.nodup_cons.mp (List.nodup_append.mp hnd).2.1).1
    · have hps : p ∉ ys := fun hx => (List.nodup_append.mp hnd).2.2 p hx p (by simp) rfl
      refine List.isChain_append_cons_cons.mpr ⟨?_, by simp [hnext], ?_⟩
      · refine isChain_imp_dropLast (fun c d hc _ hcd => ?_) hf.1
        rw [List.dropLast_concat] at hc
        rw [hnext, if_neg (by rintro rfl; exact hps hc)]; exact hcd
      · refine hf'.2.imp_of_mem_imp fun c d hc _ hcd => ?_
        rw [hnext, if_neg (by rintro rfl; exact hpq hc)]; exact hcd
    · intro c hc
      rw [List.getLast?_append_of_ne_nil _ (by simp), List.getLast?_cons_cons] at hc
      rw [hnext, if_neg (by rintro rfl; exact hpq (List.mem_of_mem_getLast? hc))]
      refine h.last c ?_
      rw [List.getLast?_append_of_ne_nil _ (by simp), List.getLast?_cons_cons,
        List.getLast?_cons_cons]
      exact hc

theorem popNode_cut (h : Threaded T m l xs) (hx : 3 ≤ xs.length) (hl : xs.getLast? = some a)
    (hp : popNode T m l a = some (m', l')) :
    ∃ b c ys, xs.erase a = b :: c :: ys ∧ l'.head = some b ∧ T.getNext m' b = none := by
  rcases List.eq_nil_or_concat' xs with rfl | ⟨_ | ⟨y, ys⟩, t, rfl⟩
  · simp at hx
  · simp at hx
  · obtain rfl : t = a := by rw [List.getLast?_concat] at hl; simpa using hl
    rw [popNode_back h] at hp
    have hay : t ∉ y :: ys := fun hc => (List.nodup_append.mp h.nodup).2.2 t hc t (by simp) rfl
    obtain ⟨b, c, zs, he, hh, hn⟩ := popBackNode_cut h hx hp
    refine ⟨b, c, zs, ?_, hh, hn⟩
    rw [List.erase_append_right _ hay, List.erase_cons_head, List.append_nil, ← he,
      List.dropLast_concat]

/-! ## What a call writes, whatever the state of the list -/

omit [DecidableEq N] in
theorem joinList_writes {b c : Option N} (h : joinList T m b c = some m') :
    Writes T (fun _ => True) m m' := by
  cases b with
  | none => cases h
  | some b =>
    cases c with
    | none => cases h
    | some c => cases h; exact .prev _ (.next _ .refl trivial) trivial

omit [DecidableEq N] in
theorem pushFrontNode_writes (h : pushFrontNode T m l a = some (m', l')) :
    Writes T (fun _ => True) m m' := by
  unfold pushFrontNode at h
  split at h
  · cases h; exact .prev _ (.next _ .refl trivial) trivial
  · split at h
    · cases h
    · rename_i m₁ hj
      cases h
      exact .prev _ (joinList_writes hj) trivial

omit [DecidableEq N] in
theorem pushBackNode_writes (h : pushBackNode T m l a = some (m', l')) :
    Writes T (fun _ => True) m m' := by
  unfold pushBackNode at h
  split at h
  · cases h; exact .prev _ (.next _ .refl trivial) trivial
  · split at h
    · cases h
    · rename_i m₁ hj
      cases h
      exact .next _ (joinList_writes hj) trivial

theorem popFrontNode_writes (h : popFrontNode T m l = some (m', l')) :
    Writes T (fun _ => True) m m' := by
  unfold popFrontNode at h
  split at h
  · split at h
    · cases h
    · split at h
      · cases h
      · cases h; exact .prev _ .refl trivial
  · cases h; exact .refl

theorem popBackNode_writes (h : popBackNode T m l = some (m', l')) :
    Writes T (fun _ => True) m m' := by
  unfold popBackNode at h
  split at h
  · split at h
    · cases h
    · split at h
      · cases h
      · cases h; exact .next _ .refl trivial
  · cases h; exact .refl

theorem popNode_writes (h : popNode T m l a = some (m', l')) :
    Writes T (fun _ => True) m m' := by
  unfold popNode at h
  split at h
  · exact popFrontNode_writes h
  · split at h
    · exact popBackNode_writes h
    · split at h
      · cases h
      · rename_i m₁ hj
        cases h
        exact joinList_writes hj

/-! ## The two ways a list is damaged, read off the links -/

/-- Removing `a` runs `pop_back_node` on a list of three nodes or more. -/
def CutsBack (T : NodeTrait M N) (m : M) (l : ListBase N) (a : N) : Prop :=
  l.tail = some a ∧ l.head ≠ some a ∧ T.getPrev m a ≠ l.head

/-- The next link of `a` is null although `a` is not the last node. -/
def LostNext (T : NodeTrait M N) (m : M) (l : ListBase N) (a : N) : Prop :=
  l.tail ≠ some a ∧ T.getNext m a = none

instance (m : M) (l : ListBase N) (a : N) : Decidable (CutsBack T m l a) := by
  unfold CutsBack; infer_instance

omit [DecidableEq N] in
theorem Threaded.cutsBack_iff (h : Threaded T m l xs) :
    CutsBack T m l a ↔ 3 ≤ xs.length ∧ xs.getLast? = some a := by
  rw [CutsBack, h.tail, h.head]
  rcases List.eq_nil_or_concat' xs with rfl | ⟨ys, t, rfl⟩
  · simp
  rw [List.getLast?_concat]
  rcases List.eq_nil_or_concat' ys with rfl | ⟨zs, p, rfl⟩
  · simp; exact fun h1 h2 => absurd h1 h2
  -- the node before the last is its prev link; it is the head when there are two nodes
  have hp : T.getPrev m t = some p := (List.isChain_append.mp h.prev).2.2 p (by simp) t (by simp)
  have hnd := List.nodup_append.mp h.nodup
  constructor
  · rintro ⟨hta, hha, hpa⟩
    obtain rfl : t = a := Option.some.inj hta
    refine ⟨?_, hta⟩
    cases zs with
    | nil => exact absurd hp hpa
    | cons z zs => simp
  · rintro ⟨hlen, hta⟩
    obtain rfl : t = a := Option.some.inj hta
    cases zs with
    | nil => simp at hlen
    | cons z zs =>
      have hzt : z ≠ t := fun he => hnd.2.2 z (by simp) t (by simp) he
      have hzp : z ≠ p := fun he =>
        (List.nodup_append.mp hnd.1).2.2 z (by simp) p (by simp) he
      refine ⟨rfl, by simpa using hzt, ?_⟩
      rw [hp]; simpa using hzp.symm

theorem popNode_eq_none_iff_lostNext (h : Threaded T m l xs) (ha : a ∈ xs) :
    popNode T m l a = none ↔ LostNext T m l a := by
  rw [popNode_eq_none_iff h ha, LostNext, h.tail]

omit [DecidableEq N] in
/-- In a linked list only the last node has a null next link. -/
theorem Linked.not_lostNext (h : Linked T m l xs) (ha : a ∈ xs) : ¬ LostNext T m l a := by
  rintro ⟨ht, hn⟩
  obtain ⟨ys, zs, rfl⟩ := List.append_of_mem ha
  cases zs with
  | nil => exact ht (by rw [h.tail, List.getLast?_concat])
  | cons b zs =>
    have hab := (List.isChain_append_cons_cons.mp h.forward).2.1
    rw [hn] at hab; cases hab

end Correct
end ListBase
end Util
end TorexOS
