import TorexOS.ListBaseCorrect

/-!
# TorexOS.OwningList

`util::list`, the list of `datastruc/list.h` that allocates its nodes.

* `createNode`, `pushFront`, `erase`, `destroy`: the members, over `list_base`. A null pointer is
  `none`; `none` as a result is a null dereference. A `list` remembers which nodes it created and which
  pointers it destroyed and deallocated.
* `Ledger`: a created node is in the list or destroyed.
* `never_owns`: the destructor loops forever on an empty list and leaks every node of any other.
-/

namespace TorexOS
namespace Util

/-- `list_default_node<Ty>` -/
structure ListDefaultNode (N Ty : Type) where
  links : ListNode N
  data : Ty

def defaultNodeTrait (N Ty : Type) [DecidableEq N] : NodeTrait (N → ListDefaultNode N Ty) N :=
  nodeFieldTrait ListDefaultNode.links (fun r x => { r with links := x }) fun _ _ => rfl

structure OwningList (N Ty : Type) where
  base : ListBase N
  mem : N → ListDefaultNode N Ty
  created : List N
  destroyed : List (Option N)

namespace OwningList

open ListBase

variable {N Ty : Type} [DecidableEq N]

def new (mem : N → ListDefaultNode N Ty) : OwningList N Ty := ⟨ListBase.new, mem, [], []⟩

/-- `create_node`; `ret` is what `alloc.allocate()` returns. It is not compared with null. -/
def createNode (mem : N → ListDefaultNode N Ty) (ret : Option N) (element : Ty) :
    Option ((N → ListDefaultNode N Ty) × Option N) :=
  match ret with
  | none => none
  | some a =>
    let mem := (defaultNodeTrait N Ty).setNext mem a none
    let mem := (defaultNodeTrait N Ty).setPrev mem a none
    let mem := Function.update mem a { mem a with data := element }
    some (mem, ret)

/-- `destroy_node`: the destructor of the element and `alloc.deallocate`. -/
def destroyNode (s : OwningList N Ty) (ptr : Option N) : OwningList N Ty :=
  { s with destroyed := ptr :: s.destroyed }

def pushFront (s : OwningList N Ty) (ret : Option N) (element : Ty) :
    Option (OwningList N Ty × Bool) :=
  match createNode s.mem ret element with
  | none => none
  | some (mem, newNode) =>
    -- allocation fail
    match newNode with
    | none => some ({ s with mem := mem }, false)
    | some a =>
      match pushFrontNode (defaultNodeTrait N Ty) mem s.base a with
      | none => none
      | some (mem, base) => some (⟨base, mem, a :: s.created, s.destroyed⟩, true)

def erase (s : OwningList N Ty) (it : N) : Option (OwningList N Ty) :=
  match popNode (defaultNodeTrait N Ty) s.mem s.base it with
  | none => none
  | some (mem, base) => some (destroyNode { s with mem := mem, base := base } (some it))

/-- `~list()`; the loop runs while the list is empty. -/
def destroy : Nat → OwningList N Ty → Option (OwningList N Ty)
  | 0, _ => none
  | fuel + 1, s =>
    if s.base.empty then
      let it := s.base.head
      match popFrontNode (defaultNodeTrait N Ty) s.mem s.base with
      | none => none
      | some (mem, base) => destroy fuel (destroyNode { s with mem := mem, base := base } it)
    else some s

/-- The calls; `ret` is what the allocation returns. -/
inductive Op (N Ty : Type) where
  | pushFront (ret : Option N) (element : Ty)
  | erase (it : N)
  deriving DecidableEq

def exec (s : OwningList N Ty) : Op N Ty → Option (OwningList N Ty)
  | .pushFront ret element => (s.pushFront ret element).map Prod.fst
  | .erase it => s.erase it

/-! ## Specification -/

/-- The nodes in the list after the call. -/
def Op.spec (xs : List N) : Op N Ty → List N
  | .pushFront none _ => xs
  | .pushFront (some a) _ => a :: xs
  | .erase it => xs.erase it

/-- The allocator does not return a node of the list, and only a node of the list is erased. -/
def Op.Legal (xs : List N) : Op N Ty → Prop
  | .pushFront none _ => True
  | .pushFront (some a) _ => a ∉ xs
  | .erase it => it ∈ xs

def LegalRun : List N → List (Op N Ty) → Prop
  | _, [] => True
  | xs, op :: ops => op.Legal xs ∧ LegalRun (op.spec xs) ops

/-- A `push_front` whose allocation fails returns false and changes nothing. -/
def FailsCleanly (s : OwningList N Ty) (element : Ty) : Prop :=
  s.pushFront none element = some (s, false)

/-- The calls return, those without memory fail cleanly, and after the destructor every created node has
been destroyed once, and nothing else. -/
def Owns (mem : N → ListDefaultNode N Ty) (ops : List (Op N Ty)) : Prop :=
  ∃ s, ops.foldlM exec (new mem) = some s ∧
    (∀ pre element, pre ++ [.pushFront none element] <+: ops →
      ∃ t, pre.foldlM exec (new mem) = some t ∧ FailsCleanly t element) ∧
    ∃ fuel t, destroy fuel s = some t ∧ t.destroyed.Perm (t.created.map some)

section Run

variable {s t : OwningList N Ty} {xs : List N} {a : N} {element : Ty} {op : Op N Ty}

omit [DecidableEq N] in
/-- What was created is in the list or destroyed, and nothing else was destroyed. -/
structure Ledger (T : NodeTrait (N → ListDefaultNode N Ty) N) (s : OwningList N Ty)
    (xs : List N) : Prop where
  threaded : Threaded T s.mem s.base xs
  balance : (s.created.map some).Perm (xs.map some ++ s.destroyed)

theorem new_ledger (mem : N → ListDefaultNode N Ty) :
    Ledger (defaultNodeTrait N Ty) (new mem) [] :=
  ⟨(new_linked _ mem).toThreaded, .refl _⟩

theorem pushFront_null (s : OwningList N Ty) (element : Ty) : s.pushFront none element = none := rfl

/-- A node outside the list is initialised, and the list stays as it is. -/
theorem createNode_threaded {mem : N → ListDefaultNode N Ty} {l : ListBase N}
    (h : Threaded (defaultNodeTrait N Ty) mem l xs) (ha : a ∉ xs) (element : Ty) :
    ∃ mem', createNode mem (some a) element = some (mem', some a) ∧
      Threaded (defaultNodeTrait N Ty) mem' l xs := by
  refine ⟨_, rfl, h.congr (fun b hb => ?_) fun b hb => ?_⟩
  · have hab : b ≠ a := fun he => ha (he ▸ hb)
    simp [defaultNodeTrait, nodeFieldTrait, hab]
  · have hab : b ≠ a := fun he => ha (he ▸ hb)
    simp [defaultNodeTrait, nodeFieldTrait, hab]

theorem Ledger.pushFront (h : Ledger (defaultNodeTrait N Ty) s xs) (ha : a ∉ xs) (element : Ty) :
    ∃ t, s.pushFront (some a) element = some (t, true) ∧
      Ledger (defaultNodeTrait N Ty) t (a :: xs) := by
  obtain ⟨mem, hc, ht⟩ := createNode_threaded h.threaded ha element
  obtain ⟨mem', base, hp, ht', _⟩ := pushFrontNode_threaded ht ha trivial
  refine ⟨⟨base, mem', a :: s.created, s.destroyed⟩, ?_, ht', ?_⟩
  · simp only [OwningList.pushFront, hc, hp]
  · exact h.balance.cons (some a)

theorem Ledger.erase (h : Ledger (defaultNodeTrait N Ty) s xs) (ha : a ∈ xs)
    (he : s.erase a = some t) : Ledger (defaultNodeTrait N Ty) t (xs.erase a) := by
  rw [OwningList.erase] at he
  cases hp : popNode (defaultNodeTrait N Ty) s.mem s.base a with
  | none => rw [hp] at he; cases he
  | some r =>
    rw [hp] at he
    cases he
    refine ⟨(popNode_threaded h.threaded ha hp).1, h.balance.trans ?_⟩
    have hx : (xs.map some).Perm (some a :: (xs.erase a).map some) :=
      (List.perm_cons_erase ha).map some
    exact (hx.append_right _).trans List.perm_middle.symm

theorem Ledger.exec (h : Ledger (defaultNodeTrait N Ty) s xs) (hop : op.Legal xs)
    (he : s.exec op = some t) : Ledger (defaultNodeTrait N Ty) t (op.spec xs) := by
  cases op with
  | pushFront ret element =>
    cases ret with
    | none => cases he
    | some a =>
      obtain ⟨u, hu, hl⟩ := h.pushFront hop element
      rw [OwningList.exec, hu] at he
      cases he
      exact hl
  | erase it => exact h.erase hop he

theorem Ledger.run {ops : List (Op N Ty)} :
    ∀ {s : OwningList N Ty} {xs : List N}, Ledger (defaultNodeTrait N Ty) s xs → LegalRun xs ops →
      ops.foldlM OwningList.exec s = some t → ∃ ys, Ledger (defaultNodeTrait N Ty) t ys := by
  induction ops with
  | nil => intro s xs h _ he; cases he; exact ⟨xs, h⟩
  | cons op ops ih =>
    intro s xs h hlegal he
    rw [List.foldlM_cons] at he
    obtain ⟨u, hu, he⟩ := Option.bind_eq_some_iff.mp he
    exact ih (h.exec hlegal.1 hu) hlegal.2 he

/-- On an empty list the destructor does not end: it destroys null again and again. -/
theorem destroy_empty (hs : s.base.empty = true) (fuel : Nat) : destroy fuel s = none := by
  induction fuel generalizing s with
  | zero => rfl
  | succ fuel ih =>
    have hpop : popFrontNode (defaultNodeTrait N Ty) s.mem s.base = some (s.mem, ListBase.new) := by
      rw [popFrontNode, hs]
      rfl
    rw [destroy, if_pos hs, hpop]
    exact ih rfl

theorem destroy_nonempty (hs : s.base.empty = false) {fuel : Nat} (he : destroy fuel s = some t) :
    t = s := by
  cases fuel with
  | zero => cases he
  | succ fuel =>
    rw [destroy, if_neg (Bool.eq_false_iff.mp hs)] at he
    cases he
    rfl

/-- Whatever the calls, the list does not own its nodes: if it is empty in the end its destructor does
not end, and otherwise its nodes are never destroyed. And no `push_front` without memory fails
cleanly. -/
theorem never_owns (mem : N → ListDefaultNode N Ty) (ops : List (Op N Ty)) (h : LegalRun [] ops) :
    ¬ Owns mem ops ∧ ∀ (s : OwningList N Ty) (element : Ty), ¬ FailsCleanly s element := by
  refine ⟨?_, fun s element hf => ?_⟩
  swap
  · rw [FailsCleanly, pushFront_null] at hf
    cases hf
  rintro ⟨s, hrun, _, fuel, t, hd, hperm⟩
  obtain ⟨xs, hl⟩ := (new_ledger mem).run h hrun
  cases he : s.base.empty with
  | true =>
    rw [destroy_empty he] at hd
    cases hd
  | false =>
    obtain rfl := destroy_nonempty he hd
    have hne : xs ≠ [] := fun hx => by
      rw [hl.threaded.empty_iff.mpr hx] at he
      cases he
    -- the nodes of the list are created and not destroyed
    have hlen := (hperm.trans hl.balance).length_eq
    rw [List.length_append, List.length_map] at hlen
    exact hne (List.length_eq_zero_iff.mp (by omega))

end Run

/-- A node that holds nothing. -/
def noNodes : Nat → ListDefaultNode Nat Nat := fun _ => ⟨⟨none, none⟩, 0⟩

/-- Two nodes, of which one is erased. -/
theorem never_owns_one : ¬ Owns noNodes [.pushFront (some 1) 10, .pushFront (some 2) 20, .erase 1] :=
  (never_owns noNodes _ (by simp [LegalRun, Op.Legal, Op.spec])).1

/-- One `push_front`: its node is leaked. -/
theorem leaks_one_node : ¬ ∀ ops : List (Op Nat Nat), LegalRun [] ops → Owns noNodes ops := by
  intro h
  obtain ⟨s, hrun, _, fuel, t, hd, hperm⟩ := h [.pushFront (some 1) 10]
    (by simp [LegalRun, Op.Legal])
  cases hrun
  obtain rfl := destroy_nonempty rfl hd
  exact absurd hperm.length_eq (by decide)

end OwningList
end Util
end TorexOS
