import NowOS.Lib.DLinked
import NowOS.Klib.PoolCalls

set_option autoImplicit false

/-! # The linked list (`klib/linked_list.c`)

A doubly linked list of pointers. Its nodes are the objects of a shared pool of `NODE_POOL_SIZE`
nodes, so that a node that is removed is used again by a later call. One thread uses a list; the
functions of the pool run as in `Klib/PoolCalls.lean`.

The main result is a refinement: from `linked_list_init` on, every sequence of calls returns what
the same operations on a plain list return, and both chains of pointers hold that list. -/

namespace NowOS

def NODE_POOL_SIZE : Nat := 1024

/-- `sizeof(linked_list_node_t)`. -/
def NODE_SIZE : Nat := 12

/-- `linked_list_node_t`. -/
structure ListNode where
  nextPtr : Nat
  prevPtr : Nat
  data : Nat
  deriving DecidableEq, Repr

/-- Where the nodes of a list are: the buffer that `shared_pool_init` takes from the kernel heap. -/
structure NodeBuf where
  buf : Nat
  higher_half : KERN_VIRTUAL_ADDR ≤ buf
  fits : buf + NODE_POOL_SIZE * NODE_SIZE ≤ W32

/-- The `node_pool` of a list. -/
def NodeBuf.pool (B : NodeBuf) : SharedPool where
  buf := B.buf
  maxObjNum := NODE_POOL_SIZE
  typeSize := NODE_SIZE
  typeSize_pos := by decide
  buf_ne_null := Nat.ne_of_gt (Nat.lt_of_lt_of_le (by decide) B.higher_half)
  fits := B.fits

/-- `linked_list_t`, with the nodes by their addresses and the `free_list` of the pool. -/
structure LinkedList where
  nodes : Nat → ListNode
  freeList : Nat → BitVec 32
  startPtr : Nat
  endPtr : Nat
  size : Nat

namespace LinkedList

/-- Why a function does not return: an assertion fails, `NULL` is dereferenced, or a loop visits
more nodes than there are. -/
inductive Fault
  | assert
  | null
  | spin
  deriving DecidableEq, Repr

variable (B : NodeBuf) (l : LinkedList)

/-! ## Nodes -/

def nextPtr (node : Nat) : Nat := (l.nodes node).nextPtr

def prevPtr (node : Nat) : Nat := (l.nodes node).prevPtr

def data (node : Nat) : Nat := (l.nodes node).data

/-- `node->next_ptr = v`. -/
def setNextPtr (node v : Nat) : LinkedList :=
  { l with nodes := Function.update l.nodes node { l.nodes node with nextPtr := v } }

/-- `node->prev_ptr = v`. -/
def setPrevPtr (node v : Nat) : LinkedList :=
  { l with nodes := Function.update l.nodes node { l.nodes node with prevPtr := v } }

/-! ## The functions of the source -/

/-- `linked_list_init`: the two buffers of the pool are cleared. -/
def linkedListInit (nodes : Nat → ListNode) (freeList : Nat → BitVec 32) : LinkedList where
  nodes a := if B.buf ≤ a ∧ a < B.buf + NODE_POOL_SIZE * NODE_SIZE then ⟨0, 0, 0⟩ else nodes a
  freeList i := if i < B.pool.freeListSize then 0#32 else freeList i
  startPtr := 0
  endPtr := 0
  size := 0

/-- The loops of `linked_list_add` and `linked_list_remove`, which go on while there is a node and
`more` is true of `temp_index`. -/
def walk (more : Nat → Bool) : Nat → Nat → Nat → Except Fault (Nat × Nat)
  | 0, _, _ => .error .spin
  | fuel + 1, node, tempIndex =>
      if node ≠ 0 ∧ more tempIndex then walk more fuel (l.nextPtr node) (tempIndex + 1)
      else .ok (node, tempIndex)

/-- The stores of `linked_list_cycle`. -/
def cycleNodes (firstNode lastNode secondNode : Nat) : LinkedList :=
  let l := l.setNextPtr firstNode 0
  let l := l.setPrevPtr firstNode lastNode
  let l := l.setNextPtr lastNode firstNode
  let l := { l with endPtr := firstNode }
  let l := l.setPrevPtr secondNode 0
  { l with startPtr := secondNode }

/-- `linked_list_cycle`. -/
def linkedListCycle : Except Fault LinkedList :=
  let firstNode := l.startPtr
  let lastNode := l.endPtr
  if firstNode = lastNode then .ok l
  else if firstNode = 0 ∨ lastNode = 0 then .error .null
  else
    let secondNode := l.nextPtr firstNode
    if secondNode = 0 then .error .null else .ok (l.cycleNodes firstNode lastNode secondNode)

/-- The start of `linked_list_add`: the node that the pool returned is cleared and gets its data. -/
def newNode (node data : Nat) (freeList : Nat → BitVec 32) : LinkedList :=
  { l with freeList := freeList, nodes := Function.update l.nodes node ⟨0, 0, data⟩ }

/-- `linked_list_add` for the first node of a list. -/
def addFirst (node : Nat) : LinkedList :=
  { l with startPtr := node, endPtr := node, size := add32 l.size 1 }

/-- `linked_list_add` behind the last node. -/
def addLast (node : Nat) : LinkedList :=
  let lastNode := l.endPtr
  let l := { l with endPtr := node }
  let l := l.setNextPtr lastNode node
  let l := l.setPrevPtr node lastNode
  { l with size := add32 l.size 1 }

/-- `linked_list_add` before another node. The `next_ptr` of the node before that is not changed. -/
def addBefore (node tempNode : Nat) : LinkedList :=
  let l := if l.prevPtr tempNode = 0 then { l with startPtr := node } else l
  let l := l.setPrevPtr node (l.prevPtr tempNode)
  let l := l.setNextPtr node tempNode
  let l := l.setPrevPtr tempNode node
  { l with size := add32 l.size 1 }

/-- `linked_list_add`. -/
def linkedListAdd (data index : Nat) : Except Fault (LinkedList × Int) :=
  match B.pool.sharedPoolGetNext l.freeList with
  | none => .error .assert
  | some (node, freeList) =>
      if node = 0 then .error .assert
      else
        let l := l.newNode node data freeList
        if l.startPtr = 0 then .ok (l.addFirst node, 0)
        else
          match l.walk (fun tempIndex => tempIndex ≤ index) (NODE_POOL_SIZE + 1) l.startPtr 0 with
          | .error fault => .error fault
          | .ok (tempNode, tempIndex) =>
              if tempNode = 0 then
                if l.endPtr = 0 then .error .null else .ok (l.addLast node, tempIndex)
              else .ok (l.addBefore node tempNode, tempIndex)

/-- `linked_list_enqueue`. -/
def linkedListEnqueue (data : Nat) : Except Fault (LinkedList × Int) :=
  l.linkedListAdd B data l.size

/-- `linked_list_push`. -/
def linkedListPush (data : Nat) : Except Fault (LinkedList × Int) := l.linkedListAdd B data 0

/-- The part of `linked_list_remove` that takes a node out of the chains between its neighbours. -/
def unlink (prevNode nextNode : Nat) : LinkedList :=
  let l := if prevNode ≠ 0 then l.setNextPtr prevNode nextNode else { l with startPtr := nextNode }
  if nextNode ≠ 0 then l.setPrevPtr nextNode prevNode else { l with endPtr := prevNode }

/-- `linked_list_remove` for the only node of a list. -/
def clearEnds : LinkedList := { l with startPtr := 0, endPtr := 0 }

/-- The `free_list` of the pool after a node was freed. -/
def setFreeList (freeList : Nat → BitVec 32) : LinkedList := { l with freeList := freeList }

/-- `list->size--`. -/
def decSize : LinkedList := { l with size := sub32 l.size 1 }

/-- `linked_list_remove`, with `release` for `shared_pool_free_entry`. -/
def linkedListRemoveWith
    (release : (Nat → BitVec 32) → Nat → Option (Bool × (Nat → BitVec 32))) (index : Nat) :
    Except Fault (LinkedList × Int) :=
  match l.walk (fun tempIndex => tempIndex < index) (NODE_POOL_SIZE + 1) l.startPtr 0 with
  | .error fault => .error fault
  | .ok (node, tempIndex) =>
      if tempIndex ≠ index then .ok (l, -1)
      else if node = 0 then .error .null
      else
        let prevNode := l.prevPtr node
        let nextNode := l.nextPtr node
        if prevNode = 0 ∧ nextNode = 0 then
          let l := l.clearEnds
          match release l.freeList node with
          | none => .error .assert
          | some (freed, freeList) =>
              -- `size` stays as it is if the node is not freed
              let l := l.setFreeList freeList
              if freed then .ok (l.decSize, 0) else .ok (l, -1)
        else
          let l := (l.unlink prevNode nextNode).decSize
          match release l.freeList node with
          | none => .error .assert
          | some (freed, freeList) => .ok (l.setFreeList freeList, if freed then 0 else -1)

/-- `linked_list_remove`. -/
def linkedListRemove (index : Nat) : Except Fault (LinkedList × Int) :=
  l.linkedListRemoveWith B.pool.sharedPoolFreeEntry index

/-- The loop of `linked_list_get`, with `n` iterations left. -/
def getLoop : Nat → Nat → Nat → Nat
  | 0, _, data => data
  | n + 1, node, _ => if node = 0 then 0 else getLoop n (l.nextPtr node) (l.data node)

/-- `linked_list_get`. -/
def linkedListGet (index : Nat) : Except Fault Nat :=
  let node := l.startPtr
  if node = 0 then .error .null else .ok (l.getLoop (add32 index 1) node (l.data node))

/-- The loop of `linked_list_search`. -/
def searchLoop (data : Nat) : Nat → Nat → Nat → Except Fault Int
  | 0, _, _ => .error .spin
  | fuel + 1, node, index =>
      if node = 0 then .ok (-1)
      else if l.data node = data then .ok index
      else searchLoop data fuel (l.nextPtr node) (index + 1)

/-- `linked_list_search`. -/
def linkedListSearch (data : Nat) : Except Fault Int :=
  l.searchLoop data (NODE_POOL_SIZE + 1) l.startPtr 0

/-- `linked_list_dequeue`. -/
def linkedListDequeue : Except Fault (LinkedList × Nat) :=
  match l.linkedListGet 0 with
  | .error fault => .error fault
  | .ok ret =>
      match l.linkedListRemove B 0 with
      | .error fault => .error fault
      | .ok (l, _) => .ok (l, ret)

/-- `linked_list_pop`. -/
def linkedListPop : Except Fault (LinkedList × Nat) :=
  match l.linkedListGet 0 with
  | .error fault => .error fault
  | .ok ret =>
      if ret = 0 then .ok (l, ret)
      else
        match l.linkedListRemove B 0 with
        | .error fault => .error fault
        | .ok (l, _) => .ok (l, ret)

/-! ## Stores to nodes -/

section

variable {B : NodeBuf} {l l' : LinkedList} {ns us vs xs : List Nat}

@[simp] theorem setNextPtr_nextPtr (node v : Nat) :
    (l.setNextPtr node v).nextPtr = Function.update l.nextPtr node v :=
  Function.comp_update ListNode.nextPtr l.nodes node _

@[simp] theorem setNextPtr_prevPtr (node v : Nat) : (l.setNextPtr node v).prevPtr = l.prevPtr :=
  (Function.comp_update ListNode.prevPtr l.nodes node _).trans (Function.update_eq_self node _)

@[simp] theorem setNextPtr_data (node v : Nat) : (l.setNextPtr node v).data = l.data :=
  (Function.comp_update ListNode.data l.nodes node _).trans (Function.update_eq_self node _)

@[simp] theorem setPrevPtr_nextPtr (node v : Nat) : (l.setPrevPtr node v).nextPtr = l.nextPtr :=
  (Function.comp_update ListNode.nextPtr l.nodes node _).trans (Function.update_eq_self node _)

@[simp] theorem setPrevPtr_prevPtr (node v : Nat) :
    (l.setPrevPtr node v).prevPtr = Function.update l.prevPtr node v :=
  Function.comp_update ListNode.prevPtr l.nodes node _

@[simp] theorem setPrevPtr_data (node v : Nat) : (l.setPrevPtr node v).data = l.data :=
  (Function.comp_update ListNode.data l.nodes node _).trans (Function.update_eq_self node _)

@[simp] theorem newNode_nextPtr (node d : Nat) (freeList : Nat → BitVec 32) :
    (l.newNode node d freeList).nextPtr = Function.update l.nextPtr node 0 :=
  Function.comp_update ListNode.nextPtr l.nodes node _

@[simp] theorem newNode_prevPtr (node d : Nat) (freeList : Nat → BitVec 32) :
    (l.newNode node d freeList).prevPtr = Function.update l.prevPtr node 0 :=
  Function.comp_update ListNode.prevPtr l.nodes node _

@[simp] theorem newNode_data (node d : Nat) (freeList : Nat → BitVec 32) :
    (l.newNode node d freeList).data = Function.update l.data node d :=
  Function.comp_update ListNode.data l.nodes node _

@[simp] theorem addFirst_nextPtr (node : Nat) : (l.addFirst node).nextPtr = l.nextPtr := rfl

@[simp] theorem addFirst_prevPtr (node : Nat) : (l.addFirst node).prevPtr = l.prevPtr := rfl

@[simp] theorem addFirst_data (node : Nat) : (l.addFirst node).data = l.data := rfl

@[simp] theorem addLast_nextPtr (node : Nat) :
    (l.addLast node).nextPtr = Function.update l.nextPtr l.endPtr node :=
  (setPrevPtr_nextPtr _ _).trans (setNextPtr_nextPtr _ _)

@[simp] theorem addLast_prevPtr (node : Nat) :
    (l.addLast node).prevPtr = Function.update l.prevPtr node l.endPtr := by
  refine (setPrevPtr_prevPtr _ _).trans ?_
  rw [setNextPtr_prevPtr]
  rfl

@[simp] theorem addLast_data (node : Nat) : (l.addLast node).data = l.data :=
  (setPrevPtr_data _ _).trans (setNextPtr_data _ _)

@[simp] theorem cycleNodes_nextPtr (first last second : Nat) :
    (l.cycleNodes first last second).nextPtr =
      Function.update (Function.update l.nextPtr first 0) last first := by
  refine (setPrevPtr_nextPtr _ _).trans ?_
  refine (setNextPtr_nextPtr _ _).trans ?_
  rw [setPrevPtr_nextPtr, setNextPtr_nextPtr]

@[simp] theorem cycleNodes_prevPtr (first last second : Nat) :
    (l.cycleNodes first last second).prevPtr =
      Function.update (Function.update l.prevPtr first last) second 0 := by
  refine (setPrevPtr_prevPtr _ _).trans ?_
  refine congrArg (fun f => Function.update f second 0) ?_
  refine (setNextPtr_prevPtr _ _).trans ?_
  rw [setPrevPtr_prevPtr, setNextPtr_prevPtr]

@[simp] theorem cycleNodes_data (first last second : Nat) :
    (l.cycleNodes first last second).data = l.data := by
  refine (setPrevPtr_data _ _).trans ?_
  refine (setNextPtr_data _ _).trans ?_
  rw [setPrevPtr_data, setNextPtr_data]

@[simp] theorem unlink_nextPtr (p q : Nat) :
    (l.unlink p q).nextPtr = if p ≠ 0 then Function.update l.nextPtr p q else l.nextPtr := by
  unfold unlink
  split_ifs
  · rw [setPrevPtr_nextPtr, setNextPtr_nextPtr]
  · exact setNextPtr_nextPtr p q
  · exact setPrevPtr_nextPtr _ _
  · rfl

@[simp] theorem unlink_prevPtr (p q : Nat) :
    (l.unlink p q).prevPtr = if q ≠ 0 then Function.update l.prevPtr q p else l.prevPtr := by
  unfold unlink
  split_ifs
  · rw [setPrevPtr_prevPtr, setNextPtr_prevPtr]
  · exact setNextPtr_prevPtr p q
  · exact setPrevPtr_prevPtr _ _
  · rfl

@[simp] theorem unlink_data (p q : Nat) : (l.unlink p q).data = l.data := by
  unfold unlink
  split_ifs
  · rw [setPrevPtr_data, setNextPtr_data]
  · exact setNextPtr_data p q
  · exact setPrevPtr_data _ _
  · rfl

@[simp] theorem unlink_freeList (p q : Nat) : (l.unlink p q).freeList = l.freeList := by
  unfold unlink
  split_ifs <;> rfl

@[simp] theorem unlink_size (p q : Nat) : (l.unlink p q).size = l.size := by
  unfold unlink
  split_ifs <;> rfl

@[simp] theorem unlink_startPtr (p q : Nat) :
    (l.unlink p q).startPtr = if p ≠ 0 then l.startPtr else q := by
  unfold unlink
  split_ifs <;> rfl

@[simp] theorem unlink_endPtr (p q : Nat) :
    (l.unlink p q).endPtr = if q ≠ 0 then l.endPtr else p := by
  unfold unlink
  split_ifs <;> rfl

/-! ## The invariant -/

/-- The nodes `ns` are linked in both directions and hold `xs`; they are slots of the pool, and the
pool has marked these slots. -/
structure WellLinked (B : NodeBuf) (l : LinkedList) (ns xs : List Nat) : Prop where
  nodup : ns.Nodup
  slots : ∀ a ∈ ns, ∃ k, k < NODE_POOL_SIZE ∧ a = B.pool.entryAddr k
  linked : DLinked l.nextPtr l.prevPtr 0 ns 0
  start : l.startPtr = ns.headD 0
  last : l.endPtr = ns.getLastD 0
  data : ns.map l.data = xs
  size : l.size = ns.length
  used : ∀ k, k < FREE_ENTRY_SIZE * B.pool.freeListSize →
    (SharedPool.bit l.freeList k = true ↔ k < NODE_POOL_SIZE ∧ B.pool.entryAddr k ∈ ns)

/-- **The invariant**: a well-linked list of pointers that are not `NULL`. -/
structure Inv (B : NodeBuf) (l : LinkedList) (ns xs : List Nat) : Prop
    extends WellLinked B l ns xs where
  nonNull : ∀ x ∈ xs, x ≠ 0

theorem entryAddr_ne_zero {k : Nat} (hk : k < NODE_POOL_SIZE) : B.pool.entryAddr k ≠ 0 := by
  have hnull : B.pool.buf ≠ 0 := B.pool.buf_ne_null
  rw [SharedPool.entryAddr_eq hk]
  omega

theorem entryAddr_inj {j k : Nat} (hj : j < NODE_POOL_SIZE) (hk : k < NODE_POOL_SIZE)
    (heq : B.pool.entryAddr j = B.pool.entryAddr k) : j = k :=
  @SharedPool.entryAddr_inj B.pool j k hj hk heq

/-- Every slot has a bit. -/
theorem lt_bits {k : Nat} (hk : k < NODE_POOL_SIZE) :
    k < FREE_ENTRY_SIZE * B.pool.freeListSize := by
  have hbits : FREE_ENTRY_SIZE * B.pool.freeListSize = 1056 := by
    show FREE_ENTRY_SIZE * (NODE_POOL_SIZE / FREE_ENTRY_SIZE + 1) = 1056
    decide
  unfold NODE_POOL_SIZE at hk
  omega

theorem inv_init (nodes : Nat → ListNode) (freeList : Nat → BitVec 32) :
    Inv B (linkedListInit B nodes freeList) [] [] where
  nodup := List.nodup_nil
  slots := by simp
  linked := trivial
  start := rfl
  last := rfl
  data := rfl
  size := rfl
  used := by
    intro k hk
    have hword : (linkedListInit B nodes freeList).freeList (k / 32) = 0#32 :=
      if_pos (Nat.div_lt_of_lt_mul hk)
    simp [SharedPool.bit, BitTable.get, hword]
  nonNull := by simp

theorem WellLinked.ne_zero (h : WellLinked B l ns xs) {a : Nat} (ha : a ∈ ns) : a ≠ 0 := by
  obtain ⟨k, hk, rfl⟩ := h.slots a ha
  exact entryAddr_ne_zero hk

theorem WellLinked.zero_notMem (h : WellLinked B l ns xs) : 0 ∉ ns := fun h0 => h.ne_zero h0 rfl

theorem WellLinked.length_eq (h : WellLinked B l ns xs) : xs.length = ns.length := by
  rw [← h.data, List.length_map]

/-- There are not more nodes than slots. -/
theorem WellLinked.length_le (h : WellLinked B l ns xs) : ns.length ≤ NODE_POOL_SIZE := by
  have hsub : ns ⊆ (List.range NODE_POOL_SIZE).map B.pool.entryAddr := by
    intro a ha
    obtain ⟨k, hk, rfl⟩ := h.slots a ha
    exact List.mem_map.2 ⟨k, List.mem_range.2 hk, rfl⟩
  have hle := (h.nodup.subperm hsub).length_le
  rwa [List.length_map, List.length_range] at hle

/-- If not all slots are in use there is a lowest one that is free. -/
theorem WellLinked.exists_free (h : WellLinked B l ns xs) (hlt : ns.length < NODE_POOL_SIZE) :
    ∃ k, k < NODE_POOL_SIZE ∧ SharedPool.bit l.freeList k = false ∧
      ∀ m, m < k → SharedPool.bit l.freeList m = true := by
  have hex : ∃ k, k < NODE_POOL_SIZE ∧ SharedPool.bit l.freeList k = false := by
    by_contra hnone
    -- otherwise all slots are nodes of the list
    have hsub : (List.range NODE_POOL_SIZE).map B.pool.entryAddr ⊆ ns := by
      intro a ha
      obtain ⟨k, hk, rfl⟩ := List.mem_map.1 ha
      have hk : k < NODE_POOL_SIZE := List.mem_range.1 hk
      have hset : SharedPool.bit l.freeList k = true := by
        by_contra hclear
        exact hnone ⟨k, hk, Bool.eq_false_iff.2 hclear⟩
      exact ((h.used k (lt_bits hk)).1 hset).2
    have hnodup : ((List.range NODE_POOL_SIZE).map B.pool.entryAddr).Nodup :=
      List.nodup_range.map_on fun j hj k hk heq =>
        entryAddr_inj (List.mem_range.1 hj) (List.mem_range.1 hk) heq
    have hle := (hnodup.subperm hsub).length_le
    rw [List.length_map, List.length_range] at hle
    omega
  refine ⟨Nat.find hex, (Nat.find_spec hex).1, (Nat.find_spec hex).2, fun m hm => ?_⟩
  by_contra hclear
  have hk := (Nat.find_spec hex).1
  exact Nat.find_min hex hm ⟨by omega, Bool.eq_false_iff.2 hclear⟩

/-- The walk over a part of the nodes. -/
theorem walk_eq {more : Nat → Bool} {p t fuel : Nat} {us vs : List Nat}
    (h : DLinked l.nextPtr l.prevPtr p (us ++ vs) 0) (h0 : 0 ∉ us)
    (hmore : ∀ i, t ≤ i → i < t + us.length → more i = true)
    (hstop : vs = [] ∨ more (t + us.length) = false) (hfuel : us.length < fuel) :
    l.walk more fuel ((us ++ vs).headD 0) t = .ok (vs.headD 0, t + us.length) := by
  induction us generalizing p t fuel with
  | nil =>
      obtain ⟨fuel, rfl⟩ : ∃ m, fuel = m + 1 := ⟨fuel - 1, by omega⟩
      have hnot : ¬ (vs.headD 0 ≠ 0 ∧ more t = true) := by
        rintro ⟨hne, ht⟩
        rcases hstop with rfl | hstop
        · exact hne rfl
        · exact Bool.false_ne_true (hstop.symm.trans ht)
      rw [List.nil_append, walk, if_neg hnot]
      rfl
  | cons a us ih =>
      obtain ⟨fuel, rfl⟩ : ∃ m, fuel = m + 1 := ⟨fuel - 1, by omega⟩
      obtain ⟨ha, h0⟩ := not_or.1 (mt List.mem_cons.2 h0)
      obtain ⟨-, hnext, h⟩ := h
      have hnext : l.nextPtr a = (us ++ vs).headD 0 := hnext
      rw [List.length_cons] at hmore hstop hfuel
      have hgo : a ≠ 0 ∧ more t = true := ⟨Ne.symm ha, hmore t (Nat.le_refl t) (by omega)⟩
      have hlen : t + (us.length + 1) = t + 1 + us.length := by omega
      rw [hlen] at hmore hstop
      calc l.walk more (fuel + 1) a t
          = l.walk more fuel (l.nextPtr a) (t + 1) := by rw [walk, if_pos hgo]
        _ = l.walk more fuel ((us ++ vs).headD 0) (t + 1) := by rw [hnext]
        _ = .ok (vs.headD 0, t + 1 + us.length) :=
            ih h h0 (fun i hi => hmore i (by omega)) hstop (by omega)
        _ = .ok (vs.headD 0, t + (us.length + 1)) := by rw [hlen]

/-! ## `linked_list_enqueue` -/

/-- A slot whose bit is clear is no node of the list. -/
theorem WellLinked.notMem_of_clear (h : WellLinked B l ns xs) {k : Nat} (hk : k < NODE_POOL_SIZE)
    (hclear : SharedPool.bit l.freeList k = false) : B.pool.entryAddr k ∉ ns := by
  intro hmem
  have hset := (h.used k (lt_bits hk)).2 ⟨hk, hmem⟩
  rw [hset] at hclear
  cases hclear

/-- A list with a new node behind the others. -/
theorem WellLinked.snoc (h : WellLinked B l ns xs) {k d : Nat} (hk : k < NODE_POOL_SIZE)
    (hclear : SharedPool.bit l.freeList k = false)
    (hlist : l'.freeList = BitTable.set l.freeList k)
    (hdata : l'.data = Function.update l.data (B.pool.entryAddr k) d)
    (hstart : l'.startPtr = ns.headD (B.pool.entryAddr k)) (hlast : l'.endPtr = B.pool.entryAddr k)
    (hsize : l'.size = l.size + 1)
    (hlinked : DLinked l'.nextPtr l'.prevPtr 0 (ns ++ [B.pool.entryAddr k]) 0) :
    WellLinked B l' (ns ++ [B.pool.entryAddr k]) (xs ++ [d]) := by
  have hnew := h.notMem_of_clear hk hclear
  refine ⟨?_, ?_, hlinked, ?_, ?_, ?_, ?_, ?_⟩
  · rw [← List.concat_eq_append]
    exact (List.nodup_concat _ _).2 ⟨hnew, h.nodup⟩
  · intro a ha
    rcases List.mem_append.1 ha with ha | ha
    · exact h.slots a ha
    · exact ⟨k, hk, List.mem_singleton.1 ha⟩
  · rw [hstart, headD_append]
    rfl
  · rw [hlast, List.getLastD_concat]
  · have hold : ns.map l'.data = ns.map l.data := by
      apply List.map_congr_left
      intro a ha
      have hne : a ≠ B.pool.entryAddr k := fun heq => hnew (heq ▸ ha)
      rw [hdata, Function.update_of_ne hne]
    rw [List.map_append, hold, h.data, hdata, List.map_singleton, Function.update_self]
  · rw [hsize, h.size, List.length_append, List.length_singleton]
  · intro j hj
    rw [hlist, SharedPool.bit, BitTable.get_set (by decide), Bool.or_eq_true, decide_eq_true_eq,
      List.mem_append, List.mem_singleton, ← SharedPool.bit, h.used j hj]
    constructor
    · rintro (⟨hj, hmem⟩ | rfl)
      · exact ⟨hj, Or.inl hmem⟩
      · exact ⟨hk, Or.inr rfl⟩
    · rintro ⟨hj, hmem | heq⟩
      · exact Or.inl ⟨hj, hmem⟩
      · exact Or.inr (entryAddr_inj hj hk heq)

theorem WellLinked.size_succ (h : WellLinked B l ns xs) (hlt : ns.length < NODE_POOL_SIZE) :
    add32 l.size 1 = l.size + 1 := by
  rw [h.size]
  refine add32_of_lt (Nat.lt_of_le_of_lt hlt ?_)
  decide

/-- The nodes of the list are linked as before when a new node has been prepared. -/
theorem WellLinked.linked_newNode (h : WellLinked B l ns xs) {a : Nat} (d : Nat)
    (freeList : Nat → BitVec 32) (hold : ∀ b ∈ ns, b ≠ a) :
    DLinked (l.newNode a d freeList).nextPtr (l.newNode a d freeList).prevPtr 0 ns 0 := by
  rw [newNode_nextPtr, newNode_prevPtr]
  exact h.linked.congr (fun b hb => Function.update_of_ne (hold b hb) _ _)
    fun b hb => Function.update_of_ne (hold b hb) _ _

/-- The loop of `linked_list_add` goes one node further than the index it is asked for, or to the
end of the list. -/
theorem WellLinked.walk_newNode (h : WellLinked B l (us ++ vs) xs) {a i : Nat} (d : Nat)
    (freeList : Nat → BitVec 32) (hold : ∀ b ∈ us ++ vs, b ≠ a) (hlen : us.length ≤ i + 1)
    (hstop : vs = [] ∨ us.length = i + 1) :
    (l.newNode a d freeList).walk (fun tempIndex => tempIndex ≤ i) (NODE_POOL_SIZE + 1)
      (l.newNode a d freeList).startPtr 0 = .ok (vs.headD 0, us.length) := by
  have h0 : 0 ∉ us := fun hmem => h.zero_notMem (List.mem_append_left _ hmem)
  have hmore : ∀ j, 0 ≤ j → j < 0 + us.length → decide (j ≤ i) = true := by
    intro j _ hj
    exact decide_eq_true (by omega)
  have hend : vs = [] ∨ decide (0 + us.length ≤ i) = false :=
    hstop.imp_right fun hlast => decide_eq_false (by omega)
  have hfuel : us.length < NODE_POOL_SIZE + 1 := by
    have hle := h.length_le
    rw [List.length_append] at hle
    omega
  have hwalk := walk_eq (h.linked_newNode d freeList hold) h0 hmore hend hfuel
  rw [← h.start, Nat.zero_add] at hwalk
  exact hwalk

theorem WellLinked.linked_addLast (h : WellLinked B l ns xs) (hnil : ns ≠ []) {a d : Nat}
    {freeList : Nat → BitVec 32} (hold : ∀ b ∈ ns, b ≠ a) :
    DLinked ((l.newNode a d freeList).addLast a).nextPtr
    ((l.newNode a d freeList).addLast a).prevPtr
      0 (ns ++ [a]) 0 := by
  have hlast : (l.newNode a d freeList).endPtr = ns.getLastD 0 := h.last
  have hlastne := hold _ (getLastD_mem hnil 0)
  rw [addLast_nextPtr, addLast_prevPtr, newNode_nextPtr, newNode_prevPtr, hlast]
  refine (dlinked_append ns [a]).2 ⟨h.linked.relast h.nodup ?_ ?_ ?_, ?_, ?_, trivial⟩
  · intro b hb
    rw [Function.update_of_ne (hold b hb), Function.update_of_ne (hold b hb)]
  · intro b hb hbl
    rw [Function.update_of_ne hbl, Function.update_of_ne (hold b hb)]
  · intro _
    exact Function.update_self _ _ _
  · exact Function.update_self _ _ _
  · rw [Function.update_of_ne (Ne.symm hlastne), Function.update_self]
    rfl

/-- The node that the pool hands to `linked_list_add`. -/
theorem WellLinked.getNext (h : WellLinked B l ns xs) (hlt : ns.length < NODE_POOL_SIZE) :
    ∃ k, k < NODE_POOL_SIZE ∧ SharedPool.bit l.freeList k = false ∧
      (∀ b ∈ ns, b ≠ B.pool.entryAddr k) ∧
      B.pool.sharedPoolGetNext l.freeList =
        some (B.pool.entryAddr k, BitTable.set l.freeList k) := by
  obtain ⟨k, hk, hclear, hset⟩ := h.exists_free hlt
  exact ⟨k, hk, hclear, fun b hb heq => h.notMem_of_clear hk hclear (heq ▸ hb),
    SharedPool.sharedPoolGetNext_eq hk hclear hset⟩

theorem WellLinked.start_ne_zero (h : WellLinked B l ns xs) (hnil : ns ≠ []) : l.startPtr ≠ 0 := by
  rw [h.start]
  exact h.ne_zero (headD_mem hnil 0)

/-- **`linked_list_add` at the end.** For the index of the last datum, or a larger one, the datum is
put behind the others. -/
theorem WellLinked.addLast (h : WellLinked B l ns xs) {d i : Nat} (hlt : ns.length < NODE_POOL_SIZE)
    (hi : ns.length ≤ i + 1) :
    ∃ l' a, l.linkedListAdd B d i = .ok (l', (ns.length : Int)) ∧
      WellLinked B l' (ns ++ [a]) (xs ++ [d]) := by
  obtain ⟨k, hk, hclear, hold, hget⟩ := h.getNext hlt
  have hne : B.pool.entryAddr k ≠ 0 := entryAddr_ne_zero hk
  have hsize := h.size_succ hlt
  unfold linkedListAdd
  simp only [hget, hne, if_false]
  by_cases hnil : ns = []
  · subst hnil
    have hstart : (l.newNode (B.pool.entryAddr k) d (BitTable.set l.freeList k)).startPtr = 0 :=
      h.start
    rw [if_pos hstart]
    refine ⟨_, _, rfl, h.snoc hk hclear rfl ?_ rfl rfl hsize ⟨?_, ?_, trivial⟩⟩
    · rw [addFirst_data, newNode_data]
    · rw [addFirst_prevPtr, newNode_prevPtr, Function.update_self]
    · rw [addFirst_nextPtr, newNode_nextPtr, Function.update_self]
      rfl
  · have hstart : (l.newNode (B.pool.entryAddr k) d (BitTable.set l.freeList k)).startPtr ≠ 0 :=
      h.start_ne_zero hnil
    have hend : (l.newNode (B.pool.entryAddr k) d (BitTable.set l.freeList k)).endPtr ≠ 0 := by
      show l.endPtr ≠ 0
      rw [h.last]
      exact h.ne_zero (getLastD_mem hnil 0)
    have h' : WellLinked B l (ns ++ []) xs := by rwa [List.append_nil]
    have hwalk := h'.walk_newNode d (BitTable.set l.freeList k) (by rwa [List.append_nil]) hi
      (Or.inl rfl)
    rw [if_neg hstart, hwalk]
    simp only [List.headD_nil, if_true, hend, if_false]
    refine ⟨_, _, rfl, h.snoc hk hclear rfl ?_ ?_ rfl hsize (h.linked_addLast hnil hold)⟩
    · rw [addLast_data, newNode_data]
    · exact h.start.trans (headD_of_ne hnil _ _)

/-- **`linked_list_enqueue`** puts the datum behind the others and returns its index. -/
theorem Inv.enqueue (h : Inv B l ns xs) {d : Nat} (hd : d ≠ 0) (hlt : xs.length < NODE_POOL_SIZE) :
    ∃ l' a, l.linkedListEnqueue B d = .ok (l', (xs.length : Int)) ∧
      Inv B l' (ns ++ [a]) (xs ++ [d]) := by
  rw [h.length_eq] at hlt ⊢
  have hi : ns.length ≤ l.size + 1 := by
    rw [h.size]
    exact Nat.le_succ _
  obtain ⟨l', a, hok, h'⟩ := h.toWellLinked.addLast (d := d) hlt hi
  refine ⟨l', a, hok, h', fun x hx => ?_⟩
  rcases List.mem_append.1 hx with hx | hx
  · exact h.nonNull x hx
  · rw [List.mem_singleton.1 hx]
    exact hd

/-! ## `linked_list_remove` -/

theorem exists_split {i : Nat} (hi : i < ns.length) :
    ∃ us a vs, ns = us ++ a :: vs ∧ us.length = i := by
  refine ⟨ns.take i, ns[i], ns.drop (i + 1), ?_, ?_⟩
  · rw [← List.drop_eq_getElem_cons, List.take_append_drop]
  · rw [List.length_take, Nat.min_eq_left (Nat.le_of_lt hi)]

/-- A list without one of its nodes. -/
theorem WellLinked.splice {us vs : List Nat} {k : Nat}
    (h : WellLinked B l (us ++ B.pool.entryAddr k :: vs) xs)
    (hk : k < NODE_POOL_SIZE) (hlist : l'.freeList = BitTable.clear l.freeList k)
    (hdata : l'.data = l.data) (hstart : l'.startPtr = (us ++ vs).headD 0)
    (hlast : l'.endPtr = (us ++ vs).getLastD 0) (hsize : l'.size = sub32 l.size 1)
    (hlinked : DLinked l'.nextPtr l'.prevPtr 0 (us ++ vs) 0) :
    WellLinked B l' (us ++ vs) (xs.eraseIdx us.length) := by
  have hsub : (us ++ vs).Sublist (us ++ B.pool.entryAddr k :: vs) :=
    (List.sublist_cons_self _ vs).append_left us
  have hperm : (us ++ B.pool.entryAddr k :: vs).Perm (B.pool.entryAddr k :: (us ++ vs)) :=
    List.perm_middle
  have hgone : B.pool.entryAddr k ∉ us ++ vs := (List.nodup_cons.1 (hperm.nodup_iff.1 h.nodup)).1
  refine ⟨h.nodup.sublist hsub, fun a ha => h.slots a (hsub.subset ha), hlinked, hstart, hlast, ?_,
    ?_, ?_⟩
  · rw [hdata, ← h.data, List.map_append, List.map_append, List.map_cons]
    rw [List.eraseIdx_append_of_length_le (by simp)]
    simp
  · rw [hsize, h.size, List.length_append, List.length_append, List.length_cons,
      sub32_of_le (by omega)]
    omega
  · intro j hj
    rw [hlist, SharedPool.bit, BitTable.get_clear (by decide), Bool.and_eq_true, ← SharedPool.bit,
      h.used j hj, hperm.mem_iff, List.mem_cons, Bool.not_eq_true', decide_eq_false_iff_not]
    constructor
    · rintro ⟨⟨hj, heq | hmem⟩, hne⟩
      · exact absurd (entryAddr_inj hj hk heq) hne
      · exact ⟨hj, hmem⟩
    · rintro ⟨hj, hmem⟩
      refine ⟨⟨hj, Or.inr hmem⟩, ?_⟩
      rintro rfl
      exact hgone hmem

theorem ite_update_of_ne {f : Nat → Nat} {p v b : Nat} (hne : b ≠ p) :
    (if p ≠ 0 then Function.update f p v else f) b = f b := by
  split_ifs
  · exact Function.update_of_ne hne _ _
  · rfl

/-- The chains after `linked_list_remove` has taken a node out. -/
theorem WellLinked.linked_unlink {us vs : List Nat} {a : Nat}
    (h : WellLinked B l (us ++ a :: vs) xs) :
    DLinked (l.unlink (us.getLastD 0) (vs.headD 0)).nextPtr
      (l.unlink (us.getLastD 0) (vs.headD 0)).prevPtr 0 (us ++ vs) 0 := by
  have hdis : ∀ b ∈ us, ∀ c ∈ vs, b ≠ c := by
    intro b hb c hc
    exact (List.nodup_append.1 h.nodup).2.2 b hb c (List.mem_cons_of_mem a hc)
  have hleft : ∀ b ∈ us, b ≠ vs.headD 0 := by
    intro b hb
    by_cases hvs : vs = []
    · rw [hvs]
      exact h.ne_zero (List.mem_append_left _ hb)
    · exact hdis b hb _ (headD_mem hvs 0)
  have hright : ∀ c ∈ vs, c ≠ us.getLastD 0 := by
    intro c hc
    by_cases hus : us = []
    · rw [hus]
      exact h.ne_zero (by simp [hc])
    · exact Ne.symm (hdis _ (getLastD_mem hus 0) c hc)
  obtain ⟨hus, -, -, hvs⟩ := (dlinked_append us (a :: vs)).1 h.linked
  have hunodup : us.Nodup := (List.nodup_append.1 h.nodup).1
  have hvnodup : vs.Nodup := (List.nodup_cons.1 (List.nodup_append.1 h.nodup).2.1).2
  rw [unlink_nextPtr, unlink_prevPtr]
  refine (dlinked_append us vs).2 ⟨hus.relast hunodup ?_ ?_ ?_, hvs.rehead hvnodup ?_ ?_ ?_⟩
  · exact fun b hb => ite_update_of_ne (hleft b hb)
  · exact fun b _ hne => ite_update_of_ne hne
  · intro hne
    rw [if_pos (h.ne_zero (List.mem_append_left _ (getLastD_mem hne 0))), Function.update_self]
  · exact fun c hc => ite_update_of_ne (hright c hc)
  · exact fun c _ hne => ite_update_of_ne hne
  · intro hne
    have hmem := List.mem_append_right us (List.mem_cons_of_mem a (headD_mem hne 0))
    rw [if_pos (h.ne_zero hmem), Function.update_self]

theorem WellLinked.start_unlink {us vs : List Nat} {a : Nat}
    (h : WellLinked B l (us ++ a :: vs) xs) :
    (l.unlink (us.getLastD 0) (vs.headD 0)).startPtr = (us ++ vs).headD 0 := by
  have h0 : 0 ∉ us := fun hmem => h.zero_notMem (List.mem_append_left _ hmem)
  rw [unlink_startPtr, h.start, headD_append, headD_append]
  split_ifs with hp
  · exact headD_of_ne (mt (getLastD_eq_iff h0).2 hp) _ _
  · rw [(getLastD_eq_iff h0).1 (not_not.1 hp)]
    rfl

theorem WellLinked.last_unlink {us vs : List Nat} {a : Nat}
    (h : WellLinked B l (us ++ a :: vs) xs) :
    (l.unlink (us.getLastD 0) (vs.headD 0)).endPtr = (us ++ vs).getLastD 0 := by
  have h0 : 0 ∉ vs := fun hmem =>
    h.zero_notMem (List.mem_append_right _ (List.mem_cons_of_mem _ hmem))
  rw [unlink_endPtr, h.last, getLastD_append, getLastD_append, List.getLastD_cons]
  split_ifs with hq
  · exact getLastD_of_ne (mt (headD_eq_iff h0).2 hq) _ _
  · rw [(headD_eq_iff h0).1 (not_not.1 hq)]
    rfl

/-- The loop of `linked_list_remove` stops at the node it is asked for, or at the end of the
list. -/
theorem WellLinked.walk_remove (h : WellLinked B l ns xs) (i : Nat) :
    l.walk (fun tempIndex => tempIndex < i) (NODE_POOL_SIZE + 1) l.startPtr 0 =
      .ok ((ns.drop i).headD 0, min i ns.length) := by
  have hlen : (ns.take i).length = min i ns.length := List.length_take
  have hlinked : DLinked l.nextPtr l.prevPtr 0 (ns.take i ++ ns.drop i) 0 := by
    rw [List.take_append_drop]
    exact h.linked
  have h0 : 0 ∉ ns.take i := fun hmem => h.zero_notMem (List.mem_of_mem_take hmem)
  have hmore : ∀ j, 0 ≤ j → j < 0 + (ns.take i).length → decide (j < i) = true := by
    intro j _ hj
    exact decide_eq_true (by omega)
  have hstop : ns.drop i = [] ∨ decide (0 + (ns.take i).length < i) = false := by
    by_cases hi : i ≤ ns.length
    · exact Or.inr (decide_eq_false (by omega))
    · exact Or.inl (List.drop_eq_nil_of_le (by omega))
  have hle := h.length_le
  have hwalk := walk_eq hlinked h0 hmore hstop (show _ < NODE_POOL_SIZE + 1 by omega)
  rwa [List.take_append_drop, ← h.start, Nat.zero_add, hlen] at hwalk

section Remove

variable {us vs : List Nat} {a : Nat} {freed : Bool} {freeList : Nat → BitVec 32}
  {release : (Nat → BitVec 32) → Nat → Option (Bool × (Nat → BitVec 32))}

/-- `linked_list_remove` for a node of the list, up to the release of the node. -/
theorem WellLinked.removeWith (h : WellLinked B l (us ++ a :: vs) xs)
    (hrelease : release l.freeList a = some (freed, freeList)) :
    l.linkedListRemoveWith release us.length =
      if us = [] ∧ vs = [] then
        .ok (if freed then ((l.clearEnds.setFreeList freeList).decSize, 0)
          else (l.clearEnds.setFreeList freeList, -1))
      else
        .ok ((l.unlink (us.getLastD 0) (vs.headD 0)).decSize.setFreeList freeList,
          if freed then 0 else -1) := by
  obtain ⟨-, hprev, hnext, -⟩ := (dlinked_append us (_ :: vs)).1 h.linked
  have ha : a ≠ 0 := h.ne_zero (by simp)
  have h0 := h.zero_notMem
  have hus : us.getLastD 0 = 0 ↔ us = [] :=
    getLastD_eq_iff fun hmem => h0 (List.mem_append_left _ hmem)
  have hvs : vs.headD 0 = 0 ↔ vs = [] :=
    headD_eq_iff fun hmem => h0 (List.mem_append_right _ (List.mem_cons_of_mem _ hmem))
  have hwalk : l.walk (fun tempIndex => tempIndex < us.length) (NODE_POOL_SIZE + 1) l.startPtr 0 =
      .ok (a, us.length) := by
    have hmin : min us.length (us ++ a :: vs).length = us.length := by simp
    rw [h.walk_remove, List.drop_left, hmin, List.headD_cons]
  unfold linkedListRemoveWith
  simp only [hwalk, ha, hprev, hnext, ne_eq, not_true_eq_false, if_false, hus, hvs]
  by_cases honly : us = [] ∧ vs = []
  · have hrelease' : release l.clearEnds.freeList a = some (freed, freeList) := hrelease
    rw [if_pos honly, if_pos honly, hrelease']
    cases freed <;> rfl
  · have hrelease' : release (l.unlink (us.getLastD 0) (vs.headD 0)).decSize.freeList a =
        some (freed, freeList) := by
      show release (l.unlink _ _).freeList a = _
      rw [unlink_freeList, hrelease]
    rw [if_neg honly, if_neg honly, hrelease']

end Remove

/-- **`linked_list_remove`** erases the datum at its index. -/
theorem WellLinked.remove (h : WellLinked B l ns xs) {i : Nat} (hi : i < ns.length) :
    ∃ l' ns', l.linkedListRemove B i = .ok (l', 0) ∧ WellLinked B l' ns' (xs.eraseIdx i) := by
  obtain ⟨us, a, vs, rfl, rfl⟩ := exists_split hi
  obtain ⟨k, hk, rfl⟩ := h.slots a (by simp)
  have hfree : B.pool.sharedPoolFreeEntry l.freeList (B.pool.entryAddr k) =
      some (true, BitTable.clear l.freeList k) :=
    SharedPool.sharedPoolFreeEntry_eq l.freeList hk
  rw [linkedListRemove, h.removeWith hfree]
  by_cases honly : us = [] ∧ vs = []
  · obtain ⟨rfl, rfl⟩ := honly
    exact ⟨_, _, if_pos ⟨rfl, rfl⟩, h.splice hk rfl rfl rfl rfl rfl trivial⟩
  · refine ⟨_, _, if_neg honly, h.splice hk rfl ?_ ?_ ?_ ?_ h.linked_unlink⟩
    · show (l.unlink _ _).data = _
      rw [unlink_data]
    · exact h.start_unlink
    · exact h.last_unlink
    · show sub32 (l.unlink _ _).size 1 = _
      rw [unlink_size]

theorem Inv.remove (h : Inv B l ns xs) {i : Nat} (hi : i < xs.length) :
    ∃ l' ns', l.linkedListRemove B i = .ok (l', 0) ∧ Inv B l' ns' (xs.eraseIdx i) := by
  rw [h.length_eq] at hi
  obtain ⟨l', ns', hok, h'⟩ := h.toWellLinked.remove hi
  exact ⟨l', ns', hok, h', fun x hx => h.nonNull x (List.mem_of_mem_eraseIdx hx)⟩

/-! ## `linked_list_cycle` -/

/-- The chains after the stores of `linked_list_cycle`. -/
theorem Inv.linked_cycleNodes {a : Nat} {vs : List Nat} (h : Inv B l (a :: vs) xs)
    (hnil : vs ≠ []) :
    DLinked (l.cycleNodes a (vs.getLastD a) (vs.headD 0)).nextPtr
      (l.cycleNodes a (vs.getLastD a) (vs.headD 0)).prevPtr 0 (vs ++ [a]) 0 := by
  obtain ⟨-, -, hvs⟩ := h.linked
  obtain ⟨hnotin, hnodup⟩ := List.nodup_cons.1 h.nodup
  have hne : ∀ b ∈ vs, b ≠ a := fun b hb heq => hnotin (heq ▸ hb)
  have hlast : vs.getLastD 0 = vs.getLastD a := getLastD_of_ne hnil 0 a
  rw [cycleNodes_nextPtr, cycleNodes_prevPtr]
  generalize hprev' : Function.update (Function.update l.prevPtr a (vs.getLastD a)) (vs.headD 0) 0 =
    prev'
  -- first the new start of the list, then its new end
  have hhead : DLinked l.nextPtr prev' 0 vs 0 := by
    subst hprev'
    refine hvs.rehead hnodup (fun _ _ => rfl) ?_ ?_
    · intro b hb hbh
      rw [Function.update_of_ne hbh, Function.update_of_ne (hne b hb)]
    · exact fun _ => Function.update_self _ _ _
  refine (dlinked_append vs [a]).2 ⟨hhead.relast hnodup (fun _ _ => rfl) ?_ ?_, ?_, ?_, trivial⟩
  · intro b hb hbl
    rw [hlast] at hbl
    rw [Function.update_of_ne hbl, Function.update_of_ne (hne b hb)]
  · intro _
    rw [hlast]
    exact Function.update_self _ _ _
  · rw [← hprev', Function.update_of_ne (Ne.symm (hne _ (headD_mem hnil 0))), Function.update_self,
      hlast]
  · rw [Function.update_of_ne (Ne.symm (hne _ (getLastD_mem hnil a))), Function.update_self]
    rfl

/-- **`linked_list_cycle`** rotates the list to the left by one. -/
theorem Inv.cycle (h : Inv B l ns xs) :
    ∃ l' ns', l.linkedListCycle = .ok l' ∧ Inv B l' ns' (xs.rotate 1) := by
  rcases ns with _ | ⟨a, vs⟩
  · obtain rfl : xs = [] := h.data.symm
    exact ⟨l, [], if_pos (h.start.trans h.last.symm), h⟩
  · obtain ⟨x, ys, rfl⟩ : ∃ x ys, xs = x :: ys := ⟨_, _, h.data.symm⟩
    have hstart : l.startPtr = a := h.start
    have hlast : l.endPtr = vs.getLastD a := by rw [h.last, List.getLastD_cons]
    obtain ⟨hprev, hnext, hvs⟩ := h.linked
    obtain ⟨hnotin, hnodup⟩ := List.nodup_cons.1 h.nodup
    by_cases hnil : vs = []
    · subst hnil
      obtain rfl : ys = [] := (List.cons.inj h.data).2.symm
      refine ⟨l, [a], if_pos (hstart.trans hlast.symm), ?_⟩
      rwa [List.rotate_singleton]
    · have hlastmem : vs.getLastD a ∈ vs := getLastD_mem hnil a
      have hheadmem : vs.headD 0 ∈ vs := headD_mem hnil 0
      have hzero : ∀ b ∈ vs, b ≠ 0 := fun b hb => h.ne_zero (List.mem_cons_of_mem a hb)
      have hne : ∀ b ∈ vs, a ≠ b := fun b hb heq => hnotin (heq ▸ hb)
      have hok : l.linkedListCycle = .ok (l.cycleNodes a (vs.getLastD a) (vs.headD 0)) := by
        have ha : a ≠ 0 := h.ne_zero List.mem_cons_self
        unfold linkedListCycle
        simp only [hstart, hlast, hnext]
        rw [if_neg (hne _ hlastmem), if_neg (not_or.2 ⟨ha, hzero _ hlastmem⟩),
          if_neg (hzero _ hheadmem)]
      have hperm : (vs ++ [a]).Perm (a :: vs) := List.perm_append_singleton a vs
      rw [List.rotate_cons_succ, List.rotate_zero]
      refine ⟨_, vs ++ [a], hok, ⟨hperm.nodup_iff.2 h.nodup,
        fun b hb => h.slots b (hperm.subset hb), h.linked_cycleNodes hnil, ?_, ?_, ?_, ?_, ?_⟩, ?_⟩
      · show vs.headD 0 = _
        rw [headD_append]
        exact headD_of_ne hnil _ _
      · show a = _
        rw [List.getLastD_concat]
      · obtain ⟨hx, hys⟩ := List.cons.inj h.data
        rw [cycleNodes_data, List.map_append, List.map_singleton, hx, hys]
      · exact h.size.trans hperm.length_eq.symm
      · intro k hk
        rw [hperm.mem_iff]
        exact h.used k hk
      · intro y hy
        exact h.nonNull y ((List.perm_append_singleton x ys).subset hy)

/-! ## `linked_list_get` and `linked_list_search` -/

theorem getLoop_eq {p d a : Nat} {us vs : List Nat}
    (h : DLinked l.nextPtr l.prevPtr p (us ++ a :: vs) 0) (h0 : 0 ∉ us ++ a :: vs) :
    l.getLoop (us.length + 1) ((us ++ a :: vs).headD 0) d = l.data a := by
  induction us generalizing p d with
  | nil =>
      have ha : a ≠ 0 := fun heq => h0 (by simp [heq])
      rw [List.nil_append, List.headD_cons, List.length_nil, getLoop, if_neg ha, getLoop]
  | cons b us ih =>
      obtain ⟨hb, h0⟩ := not_or.1 (mt List.mem_cons.2 h0)
      obtain ⟨-, hnext, h⟩ := h
      have hnext : l.nextPtr b = (us ++ a :: vs).headD 0 := hnext
      rw [List.cons_append, List.headD_cons, List.length_cons, getLoop, if_neg (Ne.symm hb), hnext]
      exact ih h h0

/-- **`linked_list_get`** returns the datum at its index. -/
theorem WellLinked.get (h : WellLinked B l ns xs) {i : Nat} (hi : i < xs.length) :
    l.linkedListGet i = .ok xs[i] := by
  have hin : i < ns.length := by rwa [← h.length_eq]
  obtain ⟨us, a, vs, rfl, rfl⟩ := exists_split hin
  have hstart : l.startPtr ≠ 0 := h.start_ne_zero (by simp)
  have hcount : add32 us.length 1 = us.length + 1 :=
    add32_of_lt (Nat.lt_of_le_of_lt (Nat.le_trans hin h.length_le) (by decide))
  have hdatum : xs[us.length] = l.data a := by
    simp [← h.data]
  calc l.linkedListGet us.length
      = .ok (l.getLoop (us.length + 1) l.startPtr (l.data l.startPtr)) := by
        rw [linkedListGet, if_neg hstart, hcount]
    _ = .ok (l.data a) := by rw [h.start, getLoop_eq h.linked h.zero_notMem]
    _ = .ok xs[us.length] := by rw [hdatum]

theorem searchLoop_eq {p d t fuel : Nat} (h : DLinked l.nextPtr l.prevPtr p ns 0) (h0 : 0 ∉ ns)
    (hfuel : ns.length < fuel) :
    l.searchLoop d fuel (ns.headD 0) t =
      .ok (if d ∈ ns.map l.data then ((t + (ns.map l.data).idxOf d : Nat) : Int) else -1) := by
  induction ns generalizing p t fuel with
  | nil =>
      obtain ⟨fuel, rfl⟩ : ∃ m, fuel = m + 1 := ⟨fuel - 1, by omega⟩
      rfl
  | cons a ns ih =>
      obtain ⟨fuel, rfl⟩ : ∃ m, fuel = m + 1 := ⟨fuel - 1, by omega⟩
      obtain ⟨ha, h0⟩ := not_or.1 (mt List.mem_cons.2 h0)
      obtain ⟨-, hnext, h⟩ := h
      rw [List.headD_cons, searchLoop, if_neg (Ne.symm ha), List.map_cons]
      by_cases hd : l.data a = d
      · subst hd
        rw [if_pos rfl, if_pos List.mem_cons_self, List.idxOf_cons_self, Nat.add_zero]
      · have hmem : d ∈ l.data a :: ns.map l.data ↔ d ∈ ns.map l.data := by
          rw [List.mem_cons, or_iff_right (Ne.symm hd)]
        have hindex : t + ((ns.map l.data).idxOf d + 1) =
            t + 1 + (ns.map l.data).idxOf d := by omega
        rw [if_neg hd, hnext, ih h h0 (Nat.lt_of_succ_lt_succ hfuel), List.idxOf_cons_ne _ hd,
          Nat.succ_eq_add_one, hindex]
        simp only [hmem]

/-- **`linked_list_search`** returns the first index of the datum, or -1. -/
theorem Inv.search (h : Inv B l ns xs) (d : Nat) :
    l.linkedListSearch d = .ok (if d ∈ xs then (xs.idxOf d : Int) else -1) := by
  have hloop : l.searchLoop d (NODE_POOL_SIZE + 1) (ns.headD 0) 0 = _ :=
    searchLoop_eq h.linked h.zero_notMem (Nat.lt_succ_of_le h.length_le)
  rw [linkedListSearch, h.start, hloop, h.data, Nat.zero_add]

/-! ## `linked_list_dequeue` and `linked_list_pop` -/

/-- **`linked_list_dequeue`** returns the first datum and removes it. -/
theorem Inv.dequeue {x : Nat} (h : Inv B l ns (x :: xs)) :
    ∃ l' ns', l.linkedListDequeue B = .ok (l', x) ∧ Inv B l' ns' xs := by
  obtain ⟨l', ns', hremove, h'⟩ := h.remove (Nat.succ_pos xs.length)
  refine ⟨l', ns', ?_, h'⟩
  rw [linkedListDequeue, h.get (Nat.succ_pos xs.length)]
  simp only [hremove]
  rfl

/-- **`linked_list_pop`** does the same, since no datum is `NULL`. -/
theorem Inv.pop {x : Nat} (h : Inv B l ns (x :: xs)) :
    ∃ l' ns', l.linkedListPop B = .ok (l', x) ∧ Inv B l' ns' xs := by
  obtain ⟨l', ns', hremove, h'⟩ := h.remove (Nat.succ_pos xs.length)
  refine ⟨l', ns', ?_, h'⟩
  have hx : (x :: xs)[0] ≠ 0 := h.nonNull x List.mem_cons_self
  rw [linkedListPop, h.get (Nat.succ_pos xs.length)]
  simp only [hremove, hx, if_false]
  rfl

end

end LinkedList

end NowOS
