import NowOS.Kdef
import NowOS.Klib.SortedArrayList

set_option autoImplicit false

/-! # The kernel heap (`kernel/kheap.c`)

`kmalloc` and `kfree` as the source computes them, on a memory of 32-bit words. A node is a
header of four words, `magic`, `next_ptr`, `prev_ptr` and `size`, in front of the payload. The
state is the memory, the sorted array of free nodes, and the two pointers the heap keeps about
its end. Pointers are addresses, `0` is `NULL`.

A function that panics or never returns ends in a `Stop`. The spin lock is left out: nothing
here runs concurrently. -/

namespace NowOS

def HEAP_EXPAND_SIZE : Nat := KB 4

def HEAP_SPLIT_THRESHOLD : Nat := 16

/-- `FREE` in ASCII. -/
def MAGIC_FREE : Nat := 0x45455246

/-- `USED` in ASCII. -/
def MAGIC_USED : Nat := 0x44455355

/-- `sizeof(node_header_t)`. -/
def HEADER_SIZE : Nat := 16

/-- From a pointer that was handed out back to the header. -/
theorem sub32_header (a : Nat) : sub32 (a + 16) HEADER_SIZE = a := by
  unfold HEADER_SIZE
  rw [sub32_of_le (Nat.le_add_left 16 a), Nat.add_sub_cancel]

/-- The globals of `kheap.c` that `kmalloc` and `kfree` use, and the memory. -/
structure KHeap where
  mem : Nat → Nat
  freeNodeList : SortedArrayList
  topHeapPtr : Nat
  heapListEndPtr : Nat

namespace KHeap

variable (h : KHeap)

/-! ## Node headers -/

def magic (node : Nat) : Nat := h.mem node

def nextPtr (node : Nat) : Nat := h.mem (node + 4)

def prevPtr (node : Nat) : Nat := h.mem (node + 8)

def size (node : Nat) : Nat := h.mem (node + 12)

/-- `node->next_ptr = v`. -/
def setNextPtr (node v : Nat) : KHeap := { h with mem := Function.update h.mem (node + 4) v }

/-- `node->prev_ptr = v`. -/
def setPrevPtr (node v : Nat) : KHeap := { h with mem := Function.update h.mem (node + 8) v }

/-- The magic word of a node. -/
def magicOf (used : Bool) : Nat := if used then MAGIC_USED else MAGIC_FREE

/-- The four stores of `heap_set_header`. -/
def putHeader (mem : Nat → Nat) (addr : Nat) (used : Bool) (next prev size : Nat) : Nat → Nat :=
  Function.update (Function.update (Function.update (Function.update mem
    addr (magicOf used)) (addr + 4) next) (addr + 8) prev) (addr + 12) size

/-- `heap_set_header`. -/
def heapSetHeader (addr : Nat) (used : Bool) (next prev size : Nat) : KHeap :=
  { h with mem := putHeader h.mem addr used next prev size }

/-- `check_header`: whether it returns. Otherwise it panics with `badMagic`. -/
def checkHeader (node : Nat) : Bool := h.magic node == MAGIC_USED || h.magic node == MAGIC_FREE

def badMagic : Stop := .panic "BAD MAGIC VALUE FOUND"

/-- `insert_list(node, &free_node_list)`, its result ignored. -/
def insertFree (node : Nat) : KHeap :=
  { h with freeNodeList := (h.freeNodeList.insertList node).2 }

/-- `remove_list(node, &free_node_list)`, its result ignored. -/
def removeFree (node : Nat) : KHeap :=
  { h with freeNodeList := (h.freeNodeList.removeList node).2 }

/-! ## Best fit -/

/-- One iteration of `heap_find_free_node`; `bestNode` is `0` until a node fits. -/
def findStep (allocSize bestNode node : Nat) : Except Stop Nat :=
  if h.checkHeader node then
    if (bestNode = 0 ∧ allocSize ≤ h.size node) ∨
        (bestNode ≠ 0 ∧ allocSize ≤ h.size node ∧ h.size node < h.size bestNode) then
      .ok node
    else .ok bestNode
  else .error badMagic

/-- `heap_find_free_node`. -/
def heapFindFreeNode (allocSize : Nat) : Except Stop Nat :=
  h.freeNodeList.live.foldlM (h.findStep allocSize) 0

/-! ## Merging -/

/-- `heap_merge_left`. -/
def heapMergeLeft (node : Nat) : KHeap × Nat :=
  let nodeLeft := h.prevPtr node
  let newNode := nodeLeft
  let newPrevPtr := h.prevPtr nodeLeft
  let newNextPtr := h.nextPtr node
  let newNodeSize := add32 (add32 (h.size node) (h.size nodeLeft)) HEADER_SIZE
  let h := if newNextPtr ≠ 0 then h.setPrevPtr newNextPtr newNode else h
  let h := if newPrevPtr ≠ 0 then h.setNextPtr newPrevPtr newNode else h
  (h.heapSetHeader newNode false newNextPtr newPrevPtr newNodeSize, newNode)

/-- `heap_merge_right`. -/
def heapMergeRight (node : Nat) : KHeap × Nat :=
  let nodeRight := h.nextPtr node
  let newNode := node
  let newPrevPtr := h.prevPtr node
  let newNextPtr := h.nextPtr nodeRight
  let newNodeSize := add32 (add32 (h.size node) (h.size nodeRight)) HEADER_SIZE
  let h := if newNextPtr ≠ 0 then h.setPrevPtr newNextPtr newNode else h
  let h := if newPrevPtr ≠ 0 then h.setNextPtr newPrevPtr newNode else h
  (h.heapSetHeader newNode false newNextPtr newPrevPtr newNodeSize, newNode)

/-- The first `if` of `heap_merge_nodes`: merge with the right neighbour if that is free. -/
def mergeWithRight (node nodeRight : Nat) : KHeap × Nat :=
  if nodeRight ≠ 0 ∧ h.magic nodeRight = MAGIC_FREE then
    ((h.removeFree node).removeFree nodeRight).heapMergeRight node
  else (h, node)

/-- The second `if` of `heap_merge_nodes`: merge with the left neighbour if that is free. -/
def mergeWithLeft (node nodeLeft mergeNode : Nat) : KHeap × Nat :=
  if nodeLeft ≠ 0 ∧ h.magic nodeLeft = MAGIC_FREE then
    ((h.removeFree node).removeFree nodeLeft).heapMergeLeft node
  else (h, mergeNode)

/-- `heap_merge_nodes`. -/
def heapMergeNodes (node : Nat) : Except Stop KHeap :=
  if h.checkHeader node then
    let nodeLeft := h.prevPtr node
    let nodeRight := h.nextPtr node
    let (h, mergeNode) := h.mergeWithRight node nodeRight
    let (h, mergeNode) := h.mergeWithLeft node nodeLeft mergeNode
    .ok (h.insertFree mergeNode)
  else .error badMagic

/-! ## Splitting -/

/-- The case of `heap_split_node` in which the rest is too small to be a node of its own. The
first test of `next_ptr` reads the place where the header of the rest would be. -/
def splitAbsorb (freeNode newFreeNode oldNextPtr oldPrevPtr newAllocSize : Nat) : KHeap :=
  let newUsedNode := freeNode
  let h := if oldNextPtr ≠ 0 then h.setPrevPtr oldNextPtr newUsedNode else h
  let h := if oldPrevPtr ≠ 0 then h.setNextPtr oldPrevPtr newUsedNode else h
  let h := if h.nextPtr newFreeNode = 0 then { h with heapListEndPtr := newUsedNode } else h
  let h := h.heapSetHeader newUsedNode true oldNextPtr oldPrevPtr newAllocSize
  if h.nextPtr newUsedNode = 0 then { h with heapListEndPtr := newUsedNode } else h

/-- The case of `heap_split_node` in which the rest becomes a free node. -/
def splitRest (freeNode newFreeNode oldNextPtr oldPrevPtr newAllocSize newFreeAllocSize : Nat) :
    KHeap :=
  let newUsedNode := freeNode
  let h := if oldNextPtr ≠ 0 then h.setPrevPtr oldNextPtr newFreeNode else h
  let h := if oldPrevPtr ≠ 0 then h.setNextPtr oldPrevPtr newUsedNode else h
  let h := h.heapSetHeader newFreeNode false oldNextPtr newUsedNode newFreeAllocSize
  let h := h.heapSetHeader newUsedNode true newFreeNode oldPrevPtr newAllocSize
  let h := h.insertFree newFreeNode
  if h.nextPtr newFreeNode = 0 then { h with heapListEndPtr := newFreeNode } else h

/-- `heap_split_node`. Its test `new_free_alloc_size < 0` is never true of an unsigned number. -/
def heapSplitNode (freeNode newAllocSize : Nat) : Except Stop KHeap :=
  if h.checkHeader freeNode then
    let h := h.removeFree freeNode
    let oldNextPtr := h.nextPtr freeNode
    let oldPrevPtr := h.prevPtr freeNode
    let totalFreeSize := add32 (h.size freeNode) HEADER_SIZE
    let totalNewAllocSize := add32 newAllocSize HEADER_SIZE
    let totalSizeLeft := sub32 totalFreeSize totalNewAllocSize
    let newFreeAllocSize := sub32 totalSizeLeft HEADER_SIZE
    let newFreeNode := add32 freeNode totalNewAllocSize
    if totalSizeLeft ≤ HEAP_SPLIT_THRESHOLD then
      .ok (h.splitAbsorb freeNode newFreeNode oldNextPtr oldPrevPtr
        (add32 newAllocSize totalSizeLeft))
    else
      .ok (h.splitRest freeNode newFreeNode oldNextPtr oldPrevPtr newAllocSize newFreeAllocSize)
  else .error badMagic

/-! ## Expanding -/

/-- `expand_heap`. -/
def expandHeap (L : Layout) (size : Nat) : Except Stop KHeap :=
  let h := { h with topHeapPtr := add32 h.topHeapPtr size }
  if L.heapTop ≤ h.topHeapPtr then .error (.panic "Weve expanded past our heap top...")
  else
    let lastNode := h.heapListEndPtr
    if h.checkHeader lastNode then
      let newFreeNode := add32 (add32 lastNode HEADER_SIZE) (h.size lastNode)
      let newAllocSize := sub32 h.topHeapPtr newFreeNode
      let h := h.heapSetHeader newFreeNode false 0 lastNode newAllocSize
      let h := h.setNextPtr lastNode newFreeNode
      let h := h.insertFree newFreeNode
      match h.heapMergeNodes newFreeNode with
      | .ok h => .ok { h with heapListEndPtr := newFreeNode }
      | .error stop => .error stop
    else .error badMagic

/-- The loop `while (expand_count <= size) expand_count += HEAP_EXPAND_SIZE` of `kmalloc`. -/
def expandLoop (size : Nat) : Nat → Nat → Option Nat
  | 0, _ => none
  | fuel + 1, expandCount =>
      if expandCount ≤ size then expandLoop size fuel (add32 expandCount HEAP_EXPAND_SIZE)
      else some expandCount

/-- The count `kmalloc` expands the heap by, `none` if its loop never ends: after `2^20`
iterations `expand_count` has wrapped around to `0`. -/
def expandCountOf (size : Nat) : Option Nat := expandLoop size (1048576 + 1) 0

/-! ## The interface -/

/-- The part of `kmalloc` after the first search: expand the heap if no node was found. -/
def findOrExpand (L : Layout) (size node : Nat) : Except Stop (KHeap × Nat) :=
  if node = 0 then
    match expandCountOf size with
    | none => .error .spin
    | some expandCount =>
        match h.expandHeap L expandCount with
        | .error stop => .error stop
        | .ok h =>
            match h.heapFindFreeNode size with
            | .error stop => .error stop
            | .ok node => if node = 0 then .error (.panic "Not enough memory?") else .ok (h, node)
  else .ok (h, node)

/-- `kmalloc`. -/
def kmalloc (L : Layout) (size : Nat) : Except Stop (KHeap × Nat) :=
  let size := alignUp size 4
  match h.heapFindFreeNode size with
  | .error stop => .error stop
  | .ok node =>
      match h.findOrExpand L size node with
      | .error stop => .error stop
      | .ok (h, node) =>
          match h.heapSplitNode node size with
          | .error stop => .error stop
          | .ok h => .ok (h, add32 node HEADER_SIZE)

/-- `kfree`. -/
def kfree (ptr : Nat) : Except Stop KHeap :=
  if ptr = 0 then .ok h
  else
    let node := sub32 ptr HEADER_SIZE
    if h.checkHeader node then
      let h := h.heapSetHeader node false (h.nextPtr node) (h.prevPtr node) (h.size node)
      h.heapMergeNodes node
    else .error badMagic

/-- `init_kheap`, from the memory `mem`, the contents `arrPtr` of the early heap from
`early_heap_ptr` on, and `early_heap_ptr`. -/
def initKheap (L : Layout) (mem arrPtr : Nat → Nat) (earlyHeapPtr : Nat) : KHeap :=
  let mem := fun a => if L.heapBottom ≤ a ∧ a < L.heapTop then 0 else mem a
  let heapPtr := alignUp L.heapBottom 4
  let topHeapPtr := add32 heapPtr HEAP_EXPAND_SIZE
  let listSize := sub32 L.earlyHeapTop earlyHeapPtr / 4
  let h : KHeap := ⟨mem, SortedArrayList.initSortedList arrPtr listSize, topHeapPtr, 0⟩
  let beginningHeapSize := sub32 topHeapPtr (add32 heapPtr HEADER_SIZE)
  let h := h.heapSetHeader heapPtr false 0 0 beginningHeapSize
  let h := h.insertFree heapPtr
  { h with heapListEndPtr := heapPtr }

end KHeap

end NowOS
