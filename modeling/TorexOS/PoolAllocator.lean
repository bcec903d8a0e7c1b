import TorexOS.Lib.Buffers
import TorexOS.Lib.Packed
import TorexOS.Lib.PointerChain
import TorexOS.Lib.Transition

/-!
# TorexOS.PoolAllocator

`util::PoolAllocator`, `alloc_policy/pool_allocator.h`, and its clients.

* `push`, `pop`, `addMemblock`: the members. The links are in the memory of the nodes.
* `clients`: the runs. Blocks are added, nodes come and go, and clients write what they like where no
  free node is.
* `Held`: the free list and the live nodes are together the nodes of the blocks.
* `allocate_exact`: what `allocate` returns in any state reached.
-/

namespace TorexOS
namespace Util

open Buffers Packed PointerChain Transition

/-- Size and alignment of `Ty`. -/
structure TyLayout where
  size : Nat
  align : Nat

namespace PoolAllocator

/-- `sizeof(Node)`, a union with a pointer. -/
def sizeofNode (ty : TyLayout) : Nat := alignUp (max 8 ty.size) (max 8 ty.align)

/-- `&start[i]` -/
def node (ty : TyLayout) (start : BitVec 64) (i : Nat) : BitVec 64 :=
  start + BitVec.ofNat 64 (i * sizeofNode ty)

/-- Of the allocator and of the memory. -/
structure Pool where
  head : BitVec 64
  ram : Nat → BitVec 8

/-- `n->next` -/
def next (ram : Nat → BitVec 8) (n : BitVec 64) : BitVec 64 := load64 ram n.toNat

def setNext (ram : Nat → BitVec 8) (n p : BitVec 64) : Nat → BitVec 8 := store64 ram n.toNat p

def push (s : Pool) (ptr : BitVec 64) : Pool := { head := ptr, ram := setNext s.ram ptr s.head }

def pop (s : Pool) : BitVec 64 × Pool :=
  let ret := s.head
  if ret = 0#64 then (0#64, s) else (ret, { s with head := next s.ram s.head })

def allocate (s : Pool) : BitVec 64 × Pool := pop s

def deallocate (s : Pool) (ptr : BitVec 64) : Pool := push s ptr

/-- The `for` loop, `count` rounds of it. -/
def linkNodes (ty : TyLayout) (start : BitVec 64) : Nat → (Nat → BitVec 8) → (Nat → BitVec 8)
  | 0, ram => ram
  | i + 1, ram => setNext (linkNodes ty start i ram) (node ty start i) (node ty start (i + 1))

def addMemblock (ty : TyLayout) (s : Pool) (start length : BitVec 64) : Pool :=
  let count := length.toNat / sizeofNode ty
  if count > 0 then
    let ram := linkNodes ty start count s.ram
    { head := start, ram := setNext ram (node ty start (count - 1)) s.head }
  else s

/-! ## Clients -/

/-- Memory for nodes, none of it at address 0. -/
structure Memblock where
  start : BitVec 64
  length : BitVec 64
  nonnull : 0 < length.toNat → start ≠ 0#64
  fits : start.toNat + length.toNat ≤ 2 ^ 64

/-- `a` is the address of a byte of the block. -/
def Memblock.Has (blk : Memblock) (a : Nat) : Prop :=
  blk.start.toNat ≤ a ∧ a < blk.start.toNat + blk.length.toNat

def Memblock.Disjoint (blk blk' : Memblock) : Prop := ∀ a, ¬ (blk.Has a ∧ blk'.Has a)

/-- The number of nodes. -/
def Memblock.count (ty : TyLayout) (blk : Memblock) : Nat := blk.length.toNat / sizeofNode ty

structure State where
  pool : Pool
  blocks : List Memblock
  /-- The nodes that `allocate` returned and `deallocate` has not taken back. -/
  live : List (BitVec 64)

inductive Op where
  | addMemblock (blk : Memblock)
  | allocate
  | deallocate (ptr : BitVec 64)
  | write (a : Nat) (bytes : List (BitVec 8))

def exec (ty : TyLayout) (s : State) : Op → State
  | .addMemblock blk =>
    { s with pool := addMemblock ty s.pool blk.start blk.length, blocks := blk :: s.blocks }
  | .allocate =>
    let r := allocate s.pool
    if r.1 = 0#64 then { s with pool := r.2 } else { s with pool := r.2, live := r.1 :: s.live }
  | .deallocate ptr => { s with pool := deallocate s.pool ptr, live := s.live.erase ptr }
  | .write a bytes => { s with pool := { s.pool with ram := overlay s.pool.ram a bytes } }

/-- A block is disjoint from the others, a live node is given back, and a byte is written into a live
node or outside the blocks. -/
def Legal (ty : TyLayout) (s : State) : Op → Prop
  | .addMemblock blk => ∀ blk' ∈ s.blocks, blk.Disjoint blk'
  | .allocate => True
  | .deallocate ptr => ptr ∈ s.live
  | .write a bytes => ∀ i, a ≤ i → i < a + bytes.length →
      (∃ p ∈ s.live, p.toNat ≤ i ∧ i < p.toNat + sizeofNode ty) ∨ ∀ blk ∈ s.blocks, ¬ blk.Has i

/-- No block is added, and memory holds anything. -/
def clients (ty : TyLayout) : System State Op where
  init s := s.pool.head = 0#64 ∧ s.blocks = [] ∧ s.live = []
  legal := Legal ty
  step s op := some (exec ty s op)

/-! ## Nodes -/

/-- The nodes share no byte. -/
def Apart (ty : TyLayout) (p q : BitVec 64) : Prop :=
  p.toNat + sizeofNode ty ≤ q.toNat ∨ q.toNat + sizeofNode ty ≤ p.toNat

/-- `p` is one of the nodes of the block, and all of it is in the block. -/
def WholeNode (ty : TyLayout) (blk : Memblock) (p : BitVec 64) : Prop :=
  (∃ i, i < blk.count ty ∧ p = node ty blk.start i) ∧
    ∀ a, p.toNat ≤ a → a < p.toNat + sizeofNode ty → blk.Has a

def nodes (ty : TyLayout) (blk : Memblock) : List (BitVec 64) :=
  (List.range (blk.count ty)).map (node ty blk.start)

section Nodes

variable {ty : TyLayout} {blk blk' : Memblock} {p q : BitVec 64} {i j : Nat}

theorem eight_le_sizeofNode (ty : TyLayout) : 8 ≤ sizeofNode ty := by
  have hpos : 0 < max 8 ty.align := by omega
  have hdiv := Nat.div_add_mod (max 8 ty.size + max 8 ty.align - 1) (max 8 ty.align)
  have hmod := Nat.mod_lt (max 8 ty.size + max 8 ty.align - 1) hpos
  rw [Nat.mul_comm] at hdiv
  rw [sizeofNode, alignUp]
  omega

theorem Apart.symm (h : Apart ty p q) : Apart ty q p := Or.symm h

theorem Apart.ne (h : Apart ty p q) : p ≠ q := by
  have hsz := eight_le_sizeofNode ty
  rintro rfl
  rcases h with h | h <;> omega

theorem node_ends (hi : i < blk.count ty) :
    i * sizeofNode ty + sizeofNode ty ≤ blk.length.toNat := by
  have hpos : 0 < sizeofNode ty := Nat.lt_of_lt_of_le (by omega) (eight_le_sizeofNode ty)
  have hle : (i + 1) * sizeofNode ty ≤ blk.length.toNat := (Nat.le_div_iff_mul_le hpos).mp hi
  rwa [Nat.succ_mul] at hle

theorem toNat_node (hi : i < blk.count ty) :
    (node ty blk.start i).toNat = blk.start.toNat + i * sizeofNode ty := by
  have hend := node_ends hi
  have hsz := eight_le_sizeofNode ty
  have hfit := blk.fits
  rw [node, BitVec.toNat_add, BitVec.toNat_ofNat, Nat.mod_eq_of_lt (by omega : i * sizeofNode ty < _),
    Nat.mod_eq_of_lt (by omega)]

theorem mem_nodes : p ∈ nodes ty blk ↔ ∃ i, i < blk.count ty ∧ p = node ty blk.start i := by
  simp only [nodes, List.mem_map, List.mem_range, eq_comm]

theorem node_whole (hi : i < blk.count ty) : WholeNode ty blk (node ty blk.start i) := by
  refine ⟨⟨i, hi, rfl⟩, fun a ha hb => ?_⟩
  have hend := node_ends hi
  rw [toNat_node hi] at ha hb
  exact ⟨by omega, by omega⟩

theorem whole_of_mem (hp : p ∈ nodes ty blk) : WholeNode ty blk p := by
  obtain ⟨i, hi, rfl⟩ := mem_nodes.mp hp
  exact node_whole hi

theorem node_ne_zero (hi : i < blk.count ty) : node ty blk.start i ≠ 0#64 := by
  have hend := node_ends hi
  have hsz := eight_le_sizeofNode ty
  intro h
  have hz := toNat_node hi
  rw [h] at hz
  refine blk.nonnull (by omega) (BitVec.eq_of_toNat_eq ?_)
  change 0 = _ at hz
  change _ = 0
  omega

theorem node_apart (hi : i < blk.count ty) (hj : j < blk.count ty) (h : i < j) :
    Apart ty (node ty blk.start i) (node ty blk.start j) := by
  have hle : (i + 1) * sizeofNode ty ≤ j * sizeofNode ty := Nat.mul_le_mul_right _ h
  rw [Nat.succ_mul] at hle
  left
  rw [toNat_node hi, toNat_node hj]
  omega

theorem nodes_apart (ty : TyLayout) (blk : Memblock) : (nodes ty blk).Pairwise (Apart ty) := by
  refine List.pairwise_map.mpr (List.pairwise_lt_range.imp_of_mem fun hi hj h => ?_)
  exact node_apart (List.mem_range.mp hi) (List.mem_range.mp hj) h

/-- Nodes of disjoint blocks: the later one of the two starts would be in both. -/
theorem apart_of_disjoint (h : blk.Disjoint blk') (hp : p ∈ nodes ty blk)
    (hq : q ∈ nodes ty blk') : Apart ty p q := by
  have hsz := eight_le_sizeofNode ty
  by_contra hn
  have hlt : ¬ (p.toNat + sizeofNode ty ≤ q.toNat) ∧ ¬ (q.toNat + sizeofNode ty ≤ p.toNat) :=
    not_or.mp hn
  refine h (max p.toNat q.toNat) ⟨?_, ?_⟩
  · exact (whole_of_mem hp).2 _ (by omega) (by omega)
  · exact (whole_of_mem hq).2 _ (by omega) (by omega)

theorem flatMap_apart {blks : List Memblock} (h : blks.Pairwise Memblock.Disjoint) :
    (blks.flatMap (nodes ty)).Pairwise (Apart ty) := by
  refine List.pairwise_flatMap.mpr ⟨fun blk _ => nodes_apart ty blk, h.imp fun hd p hp q hq => ?_⟩
  exact apart_of_disjoint hd hp hq

end Nodes

/-! ## Free list -/

/-- The chain of free nodes, and with the live ones it is all nodes of the blocks. -/
structure Split (ty : TyLayout) (s : State) (free : List (BitVec 64)) : Prop where
  chain : Chain (next s.pool.ram) 0#64 s.pool.head free
  all : (free ++ s.live).Perm (s.blocks.flatMap (nodes ty))

structure Held (ty : TyLayout) (s : State) : Prop where
  disjoint : s.blocks.Pairwise Memblock.Disjoint
  split : ∃ free, Split ty s free

section Held

variable {ty : TyLayout} {s t : State} {pool : Pool} {ram : Nat → BitVec 8} {blk : Memblock}
variable {free : List (BitVec 64)} {p q v ptr : BitVec 64}

theorem next_setNext (ram : Nat → BitVec 8) (p v : BitVec 64) : next (setNext ram p v) p = v :=
  load64_store64 _ _ _

theorem next_setNext_of_apart (h : Apart ty p q) : next (setNext ram p v) q = next ram q := by
  have hsz := eight_le_sizeofNode ty
  refine load64_store64_ne v ?_
  rcases h with h | h
  · exact .inr (by omega)
  · exact .inl (by omega)

theorem Split.apart (h : Split ty s free) (hd : s.blocks.Pairwise Memblock.Disjoint) :
    (free ++ s.live).Pairwise (Apart ty) :=
  (flatMap_apart hd).perm h.all.symm Apart.symm

theorem Split.mem_nodes (h : Split ty s free) (hp : p ∈ free ++ s.live) :
    ∃ blk ∈ s.blocks, p ∈ nodes ty blk :=
  List.mem_flatMap.mp (h.all.mem_iff.mp hp)

theorem Split.ne_zero (h : Split ty s free) (hp : p ∈ free ++ s.live) : p ≠ 0#64 := by
  obtain ⟨blk, _, hblk⟩ := h.mem_nodes hp
  obtain ⟨i, hi, rfl⟩ := PoolAllocator.mem_nodes.mp hblk
  exact node_ne_zero hi

theorem init_held (h : (clients ty).init s) : Held ty s := by
  obtain ⟨hhead, hblocks, hlive⟩ := h
  refine ⟨?_, [], hhead, ?_⟩
  · rw [hblocks]
    exact .nil
  · rw [hblocks, hlive]
    exact .refl _

theorem pop_chain (h : Chain (next pool.ram) 0#64 pool.head free) :
    (free = [] ∧ pop pool = (0#64, pool)) ∨
      ∃ p rest, free = p :: rest ∧ p ≠ 0#64 ∧ (pop pool).1 = p ∧ (pop pool).2.ram = pool.ram ∧
        Chain (next pool.ram) 0#64 (pop pool).2.head rest := by
  cases free with
  | nil => exact .inl ⟨rfl, by rw [pop, if_pos (show pool.head = 0#64 from h)]⟩
  | cons p rest =>
    obtain ⟨hp, hne, hrest⟩ := h
    rw [pop, if_neg (by rwa [hp])]
    refine .inr ⟨p, rest, rfl, hne, hp, rfl, ?_⟩
    rw [← hp] at hrest
    exact hrest

theorem allocate_held (h : Held ty s) : Held ty (exec ty s .allocate) := by
  obtain ⟨hd, free, hs⟩ := h
  rcases pop_chain hs.chain with ⟨rfl, hpop⟩ | ⟨p, rest, rfl, hne, hret, hram, hchain⟩
  · rw [exec, allocate, hpop, if_pos rfl]
    exact ⟨hd, [], hs⟩
  · rw [exec, allocate, if_neg (by rwa [hret])]
    refine ⟨hd, rest, ?_, ?_⟩
    · show Chain (next (pop s.pool).2.ram) _ _ _
      rw [hram]
      exact hchain
    · show (rest ++ (pop s.pool).1 :: s.live).Perm _
      rw [hret]
      exact List.perm_middle.trans hs.all

theorem deallocate_held (h : Held ty s) (hp : ptr ∈ s.live) :
    Held ty (exec ty s (.deallocate ptr)) := by
  obtain ⟨hd, free, hs⟩ := h
  have hap := List.pairwise_append.mp (hs.apart hd)
  refine ⟨hd, ptr :: free, ?_, ?_⟩
  · refine hs.chain.push (hs.ne_zero (List.mem_append_right _ hp)) (next_setNext _ _ _) ?_
    exact fun q hq => next_setNext_of_apart (hap.2.2 q hq ptr hp).symm
  · have hperm : (free ++ s.live).Perm (free ++ ptr :: s.live.erase ptr) :=
      (List.perm_cons_erase hp).append_left free
    exact (hperm.trans List.perm_middle).symm.trans hs.all

theorem next_linkNodes_of_apart (h : ∀ p ∈ nodes ty blk, Apart ty p q) {k : Nat}
    (hk : k ≤ blk.count ty) : next (linkNodes ty blk.start k ram) q = next ram q := by
  induction k with
  | zero => rfl
  | succ k ih =>
    rw [linkNodes, next_setNext_of_apart (h _ (mem_nodes.mpr ⟨k, hk, rfl⟩))]
    exact ih (Nat.le_of_succ_le hk)

theorem next_linkNodes {j k : Nat} (hj : j < k) (hk : k ≤ blk.count ty) :
    next (linkNodes ty blk.start k ram) (node ty blk.start j) = node ty blk.start (j + 1) := by
  induction k with
  | zero => omega
  | succ k ih =>
    rw [linkNodes]
    rcases Nat.lt_succ_iff_lt_or_eq.mp hj with hlt | rfl
    · rw [next_setNext_of_apart (node_apart (by omega) (by omega) hlt).symm]
      exact ih hlt (Nat.le_of_succ_le hk)
    · exact next_setNext _ _ _

/-- The nodes of the block come before the free ones. -/
theorem addMemblock_chain (h : Chain (next pool.ram) 0#64 pool.head free)
    (hap : ∀ q ∈ free, ∀ p ∈ nodes ty blk, Apart ty p q) :
    Chain (next (addMemblock ty pool blk.start blk.length).ram) 0#64
      (addMemblock ty pool blk.start blk.length).head (nodes ty blk ++ free) := by
  rw [addMemblock]
  rcases Nat.eq_zero_or_pos (blk.count ty) with hz | hpos
  · rw [if_neg (show ¬ blk.length.toNat / sizeofNode ty > 0 from Nat.not_lt.mpr (Nat.le_of_eq hz)),
      nodes, hz]
    exact h
  · rw [if_pos (show blk.length.toNat / sizeofNode ty > 0 from hpos)]
    obtain ⟨n, hn⟩ : ∃ n, blk.count ty = n + 1 := ⟨blk.count ty - 1, by omega⟩
    have hcount : blk.length.toNat / sizeofNode ty = n + 1 := hn
    rw [hcount, Nat.add_sub_cancel, nodes, hn]
    have hfirst : blk.start = node ty blk.start 0 := by simp [node]
    have hlast : node ty blk.start n ∈ nodes ty blk := mem_nodes.mpr ⟨n, by omega, rfl⟩
    show Chain _ 0#64 blk.start _
    rw [List.range_eq_range']
    conv => enter [3]; rw [hfirst]
    refine Chain.prepend (p := pool.head) (h.congr fun q hq => ?_) (fun j _ hj => node_ne_zero (by omega))
      (fun j _ hj => ?_) ?_
    · show next (setNext _ _ _) q = _
      rw [next_setNext_of_apart (hap q hq _ hlast), next_linkNodes_of_apart (hap q hq) (by omega)]
    · show next (setNext _ _ _) _ = _
      rw [next_setNext_of_apart (node_apart (by omega) (by omega) (by omega)).symm]
      exact next_linkNodes (by omega) (by omega)
    · rw [Nat.zero_add]
      exact next_setNext _ _ _

theorem addMemblock_held (h : Held ty s) (hblk : ∀ blk' ∈ s.blocks, blk.Disjoint blk') :
    Held ty (exec ty s (.addMemblock blk)) := by
  obtain ⟨hd, free, hs⟩ := h
  refine ⟨List.pairwise_cons.mpr ⟨hblk, hd⟩, nodes ty blk ++ free, ?_, ?_⟩
  · refine addMemblock_chain hs.chain fun q hq p hp => ?_
    obtain ⟨blk', hb, hq'⟩ := hs.mem_nodes (List.mem_append_left _ hq)
    exact apart_of_disjoint (hblk blk' hb) hp hq'
  · show (nodes ty blk ++ free ++ s.live).Perm (nodes ty blk ++ s.blocks.flatMap (nodes ty))
    rw [List.append_assoc]
    exact hs.all.append_left _

/-- What clients write is not in a free node. -/
theorem write_held {a : Nat} {bytes : List (BitVec 8)} (h : Held ty s)
    (hl : Legal ty s (.write a bytes)) : Held ty (exec ty s (.write a bytes)) := by
  obtain ⟨hd, free, hs⟩ := h
  have hap := List.pairwise_append.mp (hs.apart hd)
  have hsz := eight_le_sizeofNode ty
  refine ⟨hd, free, hs.chain.congr fun q hq => load64_congr fun i hi => ?_, hs.all⟩
  refine overlay_outside ?_
  by_contra hin
  rcases hl (q.toNat + i) (by omega) (by omega) with ⟨p, hp, hlo, hhi⟩ | hout
  · rcases hap.2.2 q hq p hp with hqp | hpq <;> omega
  · obtain ⟨blk, hb, hqb⟩ := hs.mem_nodes (List.mem_append_left _ hq)
    exact hout blk hb ((whole_of_mem hqb).2 _ (by omega) (by omega))

theorem exec_held {op : Op} (h : Held ty s) (hl : Legal ty s op) : Held ty (exec ty s op) := by
  cases op with
  | addMemblock blk => exact addMemblock_held h hl
  | allocate => exact allocate_held h
  | deallocate ptr => exact deallocate_held h hl
  | write a bytes => exact write_held h hl

theorem reach_held (h : Reach (clients ty) (fun _ _ => True) s) : Held ty s := by
  refine h.invariant (fun _ => init_held) fun s t op hs hl _ he => ?_
  cases he
  exact exec_held hs hl

/-- What `allocate` returns: null exactly if all nodes of all blocks are live, and else a whole node of a
block that no live node shares a byte with. -/
structure Exact (ty : TyLayout) (s : State) : Prop where
  fresh : (allocate s.pool).1 ≠ 0#64 →
    (∃ blk ∈ s.blocks, WholeNode ty blk (allocate s.pool).1) ∧
      ∀ q ∈ s.live, (allocate s.pool).1 ≠ q ∧ Apart ty (allocate s.pool).1 q
  null : (allocate s.pool).1 = 0#64 ↔
    ∀ blk ∈ s.blocks, ∀ i, i < blk.count ty → node ty blk.start i ∈ s.live

theorem Held.to_exact (h : Held ty s) : Exact ty s := by
  obtain ⟨hd, free, hs⟩ := h
  have hap := List.pairwise_append.mp (hs.apart hd)
  rcases pop_chain hs.chain with ⟨rfl, hpop⟩ | ⟨p, rest, rfl, hne, hret, _, _⟩
  · refine ⟨fun hn => (hn (by rw [allocate, hpop])).elim, ?_⟩
    refine iff_of_true (by rw [allocate, hpop]) fun blk hb i hi => ?_
    exact hs.all.mem_iff.mpr (List.mem_flatMap.mpr ⟨blk, hb, mem_nodes.mpr ⟨i, hi, rfl⟩⟩)
  · obtain ⟨blk, hb, hp⟩ := hs.mem_nodes (List.mem_append_left _ List.mem_cons_self)
    have happ := hap.2.2 p List.mem_cons_self
    rw [← hret] at hne hp happ
    refine ⟨fun _ => ⟨⟨blk, hb, whole_of_mem hp⟩, fun q hq => ⟨(happ q hq).ne, happ q hq⟩⟩, ?_⟩
    refine iff_of_false hne fun hall => ?_
    obtain ⟨i, hi, hpi⟩ := mem_nodes.mp hp
    have hlive := hall blk hb i hi
    rw [← hpi] at hlive
    exact (happ _ hlive).ne rfl

/-- Whatever blocks were added, nodes taken and given back, and bytes written. -/
theorem allocate_exact (h : Reach (clients ty) (fun _ _ => True) s) : Exact ty s :=
  (reach_held h).to_exact

end Held

/-- 20 bytes: two nodes of 8 bytes, and 4 bytes over. -/
def twoNodes : Memblock := ⟨0x1000#64, 20#64, by decide, by decide⟩

def unused : State := ⟨⟨0#64, fun _ => 0xff#8⟩, [], []⟩

def added : State := exec ⟨4, 4⟩ unused (.addMemblock twoNodes)

def taken : State := exec ⟨4, 4⟩ added .allocate

def served : State := exec ⟨4, 4⟩ taken (.write 0x1000 [1#8, 2#8, 3#8, 4#8])

/-- One of the two nodes is taken and written, and the other one is returned. -/
theorem allocate_exact_two : served.live = [0x1000#64] ∧ (allocate served.pool).1 = 0x1008#64 ∧
    Exact ⟨4, 4⟩ served := by
  have hlive : taken.live = [0x1000#64] := by decide
  have hadd : Reach (clients ⟨4, 4⟩) (fun _ _ => True) added := by
    refine .step (i := .addMemblock twoNodes) (.init ⟨rfl, rfl, rfl⟩) ?_ trivial rfl
    exact fun blk' h => absurd h List.not_mem_nil
  have htake : Reach (clients ⟨4, 4⟩) (fun _ _ => True) taken :=
    .step (i := .allocate) hadd trivial trivial rfl
  have hserve : Reach (clients ⟨4, 4⟩) (fun _ _ => True) served := by
    refine .step (i := .write 0x1000 [1#8, 2#8, 3#8, 4#8]) htake ?_ trivial rfl
    refine fun i hlo hhi => .inl ⟨0x1000#64, ?_, hlo, Nat.lt_of_lt_of_le hhi ?_⟩
    · exact hlive ▸ List.mem_singleton_self _
    · exact Nat.add_le_add_left (Nat.le_trans (by decide) (eight_le_sizeofNode _)) _
  exact ⟨hlive, by decide, allocate_exact hserve⟩

end PoolAllocator
end Util
end TorexOS
