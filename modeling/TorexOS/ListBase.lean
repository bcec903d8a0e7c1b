import Mathlib.Data.List.Chain

/-!
# TorexOS.ListBase

`util::list_base`, the intrusive doubly linked list of `datastruc/list.h`, over any node type with
the list trait.

* `NodeTrait`: the accessors a node type gives the list (`getNext`, `setNext`, ...), over a memory
  `M` of nodes `N`. A pointer is an `Option N`; `none` is the null node.
* `ListBase`: the two end pointers.
* the operations, as the source computes them. Each returns the memory and the end pointers after
  the call, or `none` when it dereferences the null node.
-/

namespace TorexOS
namespace Util

/-- The list trait of a node type: reading and writing the two links of a node in memory.
`Storable` are the nodes whose address a link can hold. -/
structure NodeTrait (M N : Type) where
  getNext : M → N → Option N
  getPrev : M → N → Option N
  setNext : M → N → Option N → M
  setPrev : M → N → Option N → M
  Storable : N → Prop
  next_setNext : ∀ m a p, (∀ q ∈ p, Storable q) → getNext (setNext m a p) a = p
  next_setNext_ne : ∀ m a b p, b ≠ a → getNext (setNext m a p) b = getNext m b
  next_setPrev : ∀ m a b p, getNext (setPrev m a p) b = getNext m b
  prev_setPrev : ∀ m a p, (∀ q ∈ p, Storable q) → getPrev (setPrev m a p) a = p
  prev_setPrev_ne : ∀ m a b p, b ≠ a → getPrev (setPrev m a p) b = getPrev m b
  prev_setNext : ∀ m a b p, getPrev (setNext m a p) b = getPrev m b

/-- `list_node_trait`: the links are two pointer fields of the node. -/
structure ListNode (N : Type) where
  listNext : Option N
  listPrev : Option N
  deriving DecidableEq

def listNodeTrait (N : Type) [DecidableEq N] : NodeTrait (N → ListNode N) N where
  getNext m a := (m a).listNext
  getPrev m a := (m a).listPrev
  setNext m a p := fun b => if b = a then { m b with listNext := p } else m b
  setPrev m a p := fun b => if b = a then { m b with listPrev := p } else m b
  Storable _ := True
  next_setNext m a p _ := by simp
  next_setNext_ne m a b p h := by simp [h]
  next_setPrev m a b p := by dsimp only; split <;> rfl
  prev_setPrev m a p _ := by simp
  prev_setPrev_ne m a b p h := by simp [h]
  prev_setNext m a b p := by dsimp only; split <;> rfl

/-- The trait of a node that inherits its links: they are one field of a larger record. -/
def nodeFieldTrait {R N : Type} [DecidableEq N] (links : R → ListNode N)
    (setLinks : R → ListNode N → R) (h : ∀ r x, links (setLinks r x) = x) :
    NodeTrait (N → R) N where
  getNext m a := (links (m a)).listNext
  getPrev m a := (links (m a)).listPrev
  setNext m a p := fun b =>
    if b = a then setLinks (m b) { links (m b) with listNext := p } else m b
  setPrev m a p := fun b =>
    if b = a then setLinks (m b) { links (m b) with listPrev := p } else m b
  Storable _ := True
  next_setNext m a p _ := by simp [h]
  next_setNext_ne m a b p hb := by simp [hb]
  next_setPrev m a b p := by dsimp only; split <;> simp [h]
  prev_setPrev m a p _ := by simp [h]
  prev_setPrev_ne m a b p hb := by simp [hb]
  prev_setNext m a b p := by dsimp only; split <;> simp [h]

structure ListBase (N : Type) where
  head : Option N
  tail : Option N
  deriving DecidableEq

namespace ListBase

variable {M N : Type} [DecidableEq N]

/-- The state the constructor builds: both ends null. -/
def new : ListBase N := ⟨none, none⟩

def empty (l : ListBase N) : Bool := l.head = none

def orphan (l : ListBase N) : Bool := l.tail = l.head

variable (T : NodeTrait M N)

/-- `join_list`: both writes dereference their pointer. -/
def joinList (m : M) (backpos afterpos : Option N) : Option M :=
  match backpos with
  | none => none
  | some b =>
    match afterpos with
    | none => none
    | some a => some (T.setPrev (T.setNext m b (some a)) a (some b))

def pushFrontNode (m : M) (l : ListBase N) (obj : N) : Option (M × ListBase N) :=
  if l.empty then
    some (T.setPrev (T.setNext m obj none) obj none, ⟨some obj, some obj⟩)
  else
    match joinList T m (some obj) l.head with
    | none => none
    | some m => some (T.setPrev m obj none, { l with head := some obj })

def pushBackNode (m : M) (l : ListBase N) (obj : N) : Option (M × ListBase N) :=
  if l.empty then
    some (T.setPrev (T.setNext m obj none) obj none, ⟨some obj, some obj⟩)
  else
    match joinList T m l.tail (some obj) with
    | none => none
    | some m => some (T.setNext m obj none, { l with tail := some obj })

def popFrontNode (m : M) (l : ListBase N) : Option (M × ListBase N) :=
  if !l.empty && !l.orphan then
    match l.head with
    | none => none
    | some h =>
      match T.getNext m h with
      | none => none
      | some head => some (T.setPrev m head none, { l with head := some head })
  else
    some (m, ⟨none, none⟩)

/-- `pop_back_node`: it is the next link of `head` that is cleared, not that of the new `tail`. -/
def popBackNode (m : M) (l : ListBase N) : Option (M × ListBase N) :=
  if !l.empty && !l.orphan then
    match l.tail with
    | none => none
    | some t =>
      match l.head with
      | none => none
      | some h => some (T.setNext m h none, { l with tail := T.getPrev m t })
  else
    some (m, ⟨none, none⟩)

def popNode (m : M) (l : ListBase N) (obj : N) : Option (M × ListBase N) :=
  if some obj = l.head then
    popFrontNode T m l
  else if some obj = l.tail then
    popBackNode T m l
  else
    match joinList T m (T.getPrev m obj) (T.getNext m obj) with
    | none => none
    | some m => some (m, l)

end ListBase
end Util
end TorexOS
