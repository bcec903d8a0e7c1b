import TorexOS.ListBaseCorrect

/-!
# TorexOS.ListRefine

`list_base` against a finite sequence.

`Refines T m l xs ops` runs the calls `ops` on the list and on the reference sequence `xs` side by
side: no call dereferences null, and after each call the list `Represents` the sequence: walking
the next links from `head` spells it, walking the prev links from `tail` spells its reverse, both
outer links are null and `empty()` agrees.

`refines_iff`: this holds of a run exactly when no call of it removes the last of three or more
nodes.
-/

namespace TorexOS
namespace Util
namespace ListBase

/-- The calls of `list_base` that change the list. -/
inductive Op (N : Type) where
  | pushFrontNode (obj : N)
  | pushBackNode (obj : N)
  | popFrontNode
  | popBackNode
  | popNode (obj : N)
  deriving DecidableEq

section Refine

variable {M N : Type} [DecidableEq N]

/-- The call on the list. -/
def Op.exec (T : NodeTrait M N) (m : M) (l : ListBase N) : Op N → Option (M × ListBase N)
  | .pushFrontNode obj => ListBase.pushFrontNode T m l obj
  | .pushBackNode obj => ListBase.pushBackNode T m l obj
  | .popFrontNode => ListBase.popFrontNode T m l
  | .popBackNode => ListBase.popBackNode T m l
  | .popNode obj => ListBase.popNode T m l obj

/-- The call on the reference sequence. -/
def Op.spec (xs : List N) : Op N → List N
  | .pushFrontNode obj => obj :: xs
  | .pushBackNode obj => xs ++ [obj]
  | .popFrontNode => xs.tail
  | .popBackNode => xs.dropLast
  | .popNode obj => xs.erase obj

/-- A pushed node is not in the list, a popped node is. -/
def Op.Legal (T : NodeTrait M N) (xs : List N) : Op N → Prop
  | .pushFrontNode obj => obj ∉ xs ∧ T.Storable obj
  | .pushBackNode obj => obj ∉ xs ∧ T.Storable obj
  | .popFrontNode => True
  | .popBackNode => True
  | .popNode obj => obj ∈ xs

/-- The call does not remove the last node of a list of three or more. -/
def Op.KeepsBack (xs : List N) : Op N → Prop
  | .popBackNode => xs.length ≤ 2
  | .popNode obj => xs.length ≤ 2 ∨ xs.getLast? ≠ some obj
  | _ => True

def LegalRun (T : NodeTrait M N) : List N → List (Op N) → Prop
  | _, [] => True
  | xs, op :: ops => op.Legal T xs ∧ LegalRun T (op.spec xs) ops

def KeepsBackRun : List N → List (Op N) → Prop
  | _, [] => True
  | xs, op :: ops => op.KeepsBack xs ∧ KeepsBackRun (op.spec xs) ops

omit [DecidableEq N] in
/-- Following `link` from the pointer meets exactly these nodes before null. -/
def Walks (link : N → Option N) : Option N → List N → Prop
  | p, [] => p = none
  | p, a :: xs => p = some a ∧ Walks link (link a) xs

structure Represents (T : NodeTrait M N) (m : M) (l : ListBase N) (xs : List N) : Prop where
  forward : Walks (T.getNext m) l.head xs
  backward : Walks (T.getPrev m) l.tail xs.reverse
  first_prev : ∀ a ∈ xs.head?, T.getPrev m a = none
  last_next : ∀ a ∈ xs.getLast?, T.getNext m a = none
  empty_iff : l.empty = true ↔ xs = []

/-- The run and the reference sequence, call by call. -/
def Refines (T : NodeTrait M N) : M → ListBase N → List N → List (Op N) → Prop
  | m, l, xs, [] => Represents T m l xs
  | m, l, xs, op :: ops =>
    Represents T m l xs ∧
      match op.exec T m l with
      | none => False
      | some (m', l') => Refines T m' l' (op.spec xs) ops

variable {T : NodeTrait M N} {m m' : M} {l l' : ListBase N} {xs : List N} {op : Op N}

theorem Refines.represents {ops : List (Op N)} (h : Refines T m l xs ops) :
    Represents T m l xs := by
  cases ops with
  | nil => exact h
  | cons op ops => exact h.1

omit [DecidableEq N] in
theorem walks_unique {link : N → Option N} {q : Option N} {xs ys : List N}
    (hx : Walks link q xs) (hy : Walks link q ys) : xs = ys := by
  induction xs generalizing q ys with
  | nil =>
    cases ys with
    | nil => rfl
    | cons b ys =>
      have hq := hx.symm.trans hy.1
      cases hq
  | cons a xs ih =>
    cases ys with
    | nil =>
      have hq := hx.1.symm.trans hy
      cases hq
    | cons b ys =>
      have hq := hx.1.symm.trans hy.1
      cases hq
      rw [ih hx.2 hy.2]

omit [DecidableEq N] in
theorem walks_of_chain {link : N → Option N} (h : xs.IsChain fun a b => link a = some b)
    (hl : ∀ a ∈ xs.getLast?, link a = none) : Walks link xs.head? xs := by
  induction xs with
  | nil => rfl
  | cons a xs ih =>
    refine ⟨rfl, ?_⟩
    cases xs with
    | nil => exact hl a rfl
    | cons b xs =>
      have hc := List.isChain_cons_cons.mp h
      rw [hc.1]
      exact ih hc.2 (by simpa [List.getLast?_cons_cons] using hl)

omit [DecidableEq N] in
theorem Linked.represents (h : Linked T m l xs) : Represents T m l xs where
  forward := h.head ▸ walks_of_chain h.forward h.last
  backward := by
    have hw : Walks (T.getPrev m) xs.reverse.head? xs.reverse :=
      walks_of_chain (List.isChain_reverse.mpr h.prev) (by simpa using h.first)
    rwa [List.head?_reverse, ← h.tail] at hw
  first_prev := h.first
  last_next := h.last
  empty_iff := h.empty_iff

/-- A legal call that keeps the back of a long list keeps the list linked. -/
theorem Op.exec_linked (h : Linked T m l xs) (hop : op.Legal T xs) (hk : op.KeepsBack xs) :
    ∃ m' l', op.exec T m l = some (m', l') ∧ Linked T m' l' (op.spec xs) := by
  cases op with
  | pushFrontNode obj =>
    obtain ⟨m', l', he, _, hl, _⟩ := pushFrontNode_threaded h.toThreaded hop.1 hop.2
    exact ⟨m', l', he, hl h⟩
  | pushBackNode obj =>
    obtain ⟨m', l', he, _, hl, _⟩ := pushBackNode_threaded h.toThreaded hop.1 hop.2
    exact ⟨m', l', he, hl h⟩
  | popFrontNode => exact popFrontNode_linked h
  | popBackNode =>
    obtain ⟨m', l', he, _⟩ := popBackNode_threaded h.toThreaded
    exact ⟨m', l', he, popBackNode_linked h hk he⟩
  | popNode obj => exact popNode_linked h hop hk

/-- A call that removes the back of a long list cuts it after its first node. -/
theorem Op.exec_cut (h : Linked T m l xs) (hop : op.Legal T xs) (hk : ¬ op.KeepsBack xs)
    (he : op.exec T m l = some (m', l')) : ¬ Represents T m' l' (op.spec xs) := by
  have cut : ∀ a b ys, op.spec xs = a :: b :: ys → l'.head = some a →
      T.getNext m' a = none → ¬ Represents T m' l' (op.spec xs) := by
    intro a b ys hs hh hn hr
    have hw := hr.forward
    rw [hs, hh] at hw
    obtain ⟨_, hb, _⟩ := hw
    rw [hn] at hb; cases hb
  cases op with
  | pushFrontNode obj => exact absurd trivial hk
  | pushBackNode obj => exact absurd trivial hk
  | popFrontNode => exact absurd trivial hk
  | popBackNode =>
    obtain ⟨a, b, ys, hs, hh, hn⟩ := popBackNode_cut h.toThreaded (not_le.mp hk) he
    exact cut a b ys hs hh hn
  | popNode obj =>
    simp only [Op.KeepsBack, not_or, not_le, ne_eq, not_not] at hk
    obtain ⟨a, b, ys, hs, hh, hn⟩ := popNode_cut h.toThreaded hk.1 hk.2 he
    exact cut a b ys hs hh hn

theorem refines_iff_of_linked {ops : List (Op N)} :
    ∀ {m : M} {l : ListBase N} {xs : List N}, Linked T m l xs → LegalRun T xs ops →
      (Refines T m l xs ops ↔ KeepsBackRun xs ops) := by
  induction ops with
  | nil => intro m l xs h _; exact ⟨fun _ => trivial, fun _ => h.represents⟩
  | cons op ops ih =>
    intro m l xs h hlegal
    obtain ⟨hop, hrest⟩ := hlegal
    constructor
    · rintro ⟨_, hr⟩
      by_cases hk : op.KeepsBack xs
      · obtain ⟨m', l', he, hl⟩ := op.exec_linked h hop hk
        rw [he] at hr
        exact ⟨hk, (ih hl hrest).mp hr⟩
      · cases he : op.exec T m l with
        | none => rw [he] at hr; exact hr.elim
        | some r =>
          rw [he] at hr
          exact absurd hr.represents (Op.exec_cut h hop hk he)
    · rintro ⟨hk, hks⟩
      obtain ⟨m', l', he, hl⟩ := op.exec_linked h hop hk
      refine ⟨h.represents, ?_⟩
      rw [he]
      exact (ih hl hrest).mpr hks

/-- `list_base` refines a finite sequence over every run of legal calls from the empty list in
which no call removes the last of three or more nodes, and over no other run. -/
theorem refines_iff (T : NodeTrait M N) (m : M) (ops : List (Op N)) (h : LegalRun T [] ops) :
    Refines T m new [] ops ↔ KeepsBackRun [] ops :=
  refines_iff_of_linked (new_linked T m) h

end Refine

/-- Two pushes and a `pop_back_node`: the short list is kept. -/
theorem refines_two :
    Refines (listNodeTrait Nat) (fun _ => ⟨none, none⟩) new []
      [.pushBackNode 1, .pushFrontNode 2, .popBackNode] :=
  (refines_iff (listNodeTrait Nat) (fun _ => ⟨none, none⟩) _
    (by simp [LegalRun, Op.Legal, Op.spec, listNodeTrait])).mpr
    (by simp [KeepsBackRun, Op.KeepsBack, Op.spec])

/-- Three pushes and a `pop_back_node`: `head` no longer leads to the second node, and the next
`pop_front_node` dereferences null. -/
theorem pop_back_three_cuts :
    ¬ ∀ ops : List (Op Nat), LegalRun (listNodeTrait Nat) [] ops →
      Refines (listNodeTrait Nat) (fun _ => ⟨none, none⟩) new [] ops := by
  intro h
  have hr := h [.pushBackNode 1, .pushBackNode 2, .pushBackNode 3, .popBackNode, .popFrontNode]
    (by simp [LegalRun, Op.Legal, Op.spec, listNodeTrait])
  exact hr.2.2.2.2.2

end ListBase
end Util
end TorexOS
