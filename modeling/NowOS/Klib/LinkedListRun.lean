import NowOS.Klib.LinkedList

set_option autoImplicit false

/-! # Runs of the linked list

The calls that a thread makes to a list, and what they mean for a plain list of data (`Sequence`).
The linked list refines the sequence: every run of valid calls returns the same values, and the list
that it leaves shows the same data from both ends. -/

namespace NowOS

namespace LinkedList

/-! ## Calls -/

inductive Call
  | enqueue (data : Nat)
  | dequeue
  | pop
  | remove (index : Nat)
  | cycle
  | search (data : Nat)
  | get (index : Nat)
  deriving DecidableEq, Repr

/-- What a call returns. -/
inductive Value
  | int (i : Int)
  | ptr (p : Nat)
  | void
  deriving DecidableEq, Repr

def exec (B : NodeBuf) (l : LinkedList) : Call → Except Fault (LinkedList × Value)
  | .enqueue data => (l.linkedListEnqueue B data).map fun r => (r.1, .int r.2)
  | .dequeue => (l.linkedListDequeue B).map fun r => (r.1, .ptr r.2)
  | .pop => (l.linkedListPop B).map fun r => (r.1, .ptr r.2)
  | .remove index => (l.linkedListRemove B index).map fun r => (r.1, .int r.2)
  | .cycle => l.linkedListCycle.map fun l => (l, .void)
  | .search data => (l.linkedListSearch data).map fun i => (l, .int i)
  | .get index => (l.linkedListGet index).map fun p => (l, .ptr p)

/-- The calls one after the other, and the values that they return. -/
def run (B : NodeBuf) : List Call → LinkedList → Except Fault (LinkedList × List Value)
  | [], l => .ok (l, [])
  | c :: calls, l =>
      match l.exec B c with
      | .error fault => .error fault
      | .ok (l, value) => (run B calls l).map fun r => (r.1, value :: r.2)

/-! ## The sequence -/

namespace Sequence

/-- The calls that may be made: data are not `NULL`, the list does not outgrow the pool, and what is
taken or read is there. -/
def Valid (xs : List Nat) : Call → Prop
  | .enqueue data => data ≠ 0 ∧ xs.length < NODE_POOL_SIZE
  | .dequeue => xs ≠ []
  | .pop => xs ≠ []
  | .remove index => index < xs.length
  | .cycle => True
  | .search _ => True
  | .get index => index < xs.length

instance (xs : List Nat) : (c : Call) → Decidable (Valid xs c)
  | .enqueue data => inferInstanceAs (Decidable (data ≠ 0 ∧ xs.length < NODE_POOL_SIZE))
  | .dequeue => inferInstanceAs (Decidable (xs ≠ []))
  | .pop => inferInstanceAs (Decidable (xs ≠ []))
  | .remove index => inferInstanceAs (Decidable (index < xs.length))
  | .cycle => inferInstanceAs (Decidable True)
  | .search _ => inferInstanceAs (Decidable True)
  | .get index => inferInstanceAs (Decidable (index < xs.length))

/-- **The meaning of the calls**: append, drop the head, erase at an index, rotate to the left by
one, find, read. -/
def exec (xs : List Nat) : Call → List Nat × Value
  | .enqueue data => (xs ++ [data], .int xs.length)
  | .dequeue => (xs.tail, .ptr (xs.headD 0))
  | .pop => (xs.tail, .ptr (xs.headD 0))
  | .remove index => (xs.eraseIdx index, .int 0)
  | .cycle => (xs.rotate 1, .void)
  | .search data => (xs, .int (if data ∈ xs then (xs.idxOf data : Int) else -1))
  | .get index => (xs, .ptr (xs.getD index 0))

/-- The sequence after the calls and the values that they return, if all of them are valid. -/
def run : List Call → List Nat → Option (List Nat × List Value)
  | [], xs => some (xs, [])
  | c :: calls, xs =>
      if Valid xs c then (run calls (exec xs c).1).map fun r => (r.1, (exec xs c).2 :: r.2)
      else none

end Sequence

/-! ## Refinement -/

/-- **What a list shows**: the nodes reached from `start_ptr` by `next_ptr`, and backwards from
`end_ptr` by `prev_ptr`, hold the data `xs`; the slots that the pool has marked are those of the
nodes. -/
structure Shows (B : NodeBuf) (l : LinkedList) (ns xs : List Nat) : Prop where
  forward : follow l.nextPtr 0 (NODE_POOL_SIZE + 1) l.startPtr = some ns
  backward : follow l.prevPtr 0 (NODE_POOL_SIZE + 1) l.endPtr = some ns.reverse
  data : ns.map l.data = xs
  size : l.size = xs.length
  slots : ns.Nodup ∧ ∀ a ∈ ns, ∃ k, k < NODE_POOL_SIZE ∧ a = B.pool.entryAddr k
  used : ∀ k, k < FREE_ENTRY_SIZE * B.pool.freeListSize →
    (SharedPool.bit l.freeList k = true ↔ k < NODE_POOL_SIZE ∧ B.pool.entryAddr k ∈ ns)

section

variable {B : NodeBuf} {l : LinkedList} {ns xs : List Nat}

theorem WellLinked.shows (h : WellLinked B l ns xs) : Shows B l ns xs where
  forward := by
    rw [h.start]
    exact h.linked.follow_next h.zero_notMem (Nat.lt_succ_of_le h.length_le)
  backward := by
    rw [h.last]
    exact h.linked.follow_prev h.zero_notMem (Nat.lt_succ_of_le h.length_le)
  data := h.data
  size := h.size.trans h.length_eq.symm
  slots := ⟨h.nodup, h.slots⟩
  used := h.used

/-- **A step.** A valid call returns what the sequence returns, and the invariant holds of the
sequence afterwards. -/
theorem Inv.exec (h : Inv B l ns xs) {c : Call} (hc : Sequence.Valid xs c) :
    ∃ l' ns', l.exec B c = .ok (l', (Sequence.exec xs c).2) ∧
      Inv B l' ns' (Sequence.exec xs c).1 := by
  cases c with
  | enqueue data =>
      obtain ⟨l', a, hok, h'⟩ := h.enqueue hc.1 hc.2
      refine ⟨l', ns ++ [a], ?_, h'⟩
      rw [LinkedList.exec, hok]
      rfl
  | dequeue =>
      obtain ⟨x, xs, rfl⟩ := List.exists_cons_of_ne_nil hc
      obtain ⟨l', ns', hok, h'⟩ := h.dequeue
      refine ⟨l', ns', ?_, h'⟩
      rw [LinkedList.exec, hok]
      rfl
  | pop =>
      obtain ⟨x, xs, rfl⟩ := List.exists_cons_of_ne_nil hc
      obtain ⟨l', ns', hok, h'⟩ := h.pop
      refine ⟨l', ns', ?_, h'⟩
      rw [LinkedList.exec, hok]
      rfl
  | remove index =>
      obtain ⟨l', ns', hok, h'⟩ := h.remove hc
      refine ⟨l', ns', ?_, h'⟩
      rw [LinkedList.exec, hok]
      rfl
  | cycle =>
      obtain ⟨l', ns', hok, h'⟩ := h.cycle
      refine ⟨l', ns', ?_, h'⟩
      rw [LinkedList.exec, hok]
      rfl
  | search data =>
      refine ⟨l, ns, ?_, h⟩
      rw [LinkedList.exec, h.search data]
      rfl
  | get index =>
      refine ⟨l, ns, ?_, h⟩
      rw [LinkedList.exec, h.get hc]
      show Except.ok (l, Value.ptr _) = Except.ok (l, Value.ptr (xs.getD index 0))
      rw [List.getD_eq_getElem?_getD, List.getElem?_eq_getElem hc, Option.getD_some]

/-- **A run.** -/
theorem Inv.run (h : Inv B l ns xs) {calls : List Call} {ys : List Nat} {values : List Value}
    (hrun : Sequence.run calls xs = some (ys, values)) :
    ∃ l' ns', LinkedList.run B calls l = .ok (l', values) ∧ Inv B l' ns' ys := by
  induction calls generalizing l ns xs values with
  | nil =>
      cases hrun
      exact ⟨l, ns, rfl, h⟩
  | cons c calls ih =>
      rw [Sequence.run] at hrun
      split_ifs at hrun with hc
      obtain ⟨⟨ys', values'⟩, hrest, heq⟩ := Option.map_eq_some_iff.1 hrun
      cases heq
      obtain ⟨l1, ns1, hexec, h1⟩ := h.exec hc
      obtain ⟨l', ns', hok, h'⟩ := ih h1 hrest
      refine ⟨l', ns', ?_, h'⟩
      rw [LinkedList.run, hexec]
      simp only [hok]
      rfl

/-- **The linked list is a FIFO sequence.** Whatever calls are made from `linked_list_init` on, if
they are valid for the sequence then all of them return, they return the values of the sequence, and
the list shows the data of the sequence. -/
theorem linkedList_refines_sequence (B : NodeBuf) (nodes : Nat → ListNode)
    (freeList : Nat → BitVec 32) {calls : List Call} {xs : List Nat} {values : List Value}
    (hrun : Sequence.run calls [] = some (xs, values)) :
    ∃ l ns, run B calls (linkedListInit B nodes freeList) = .ok (l, values) ∧ Shows B l ns xs := by
  obtain ⟨l, ns, hok, h⟩ := (inv_init nodes freeList).run hrun
  exact ⟨l, ns, hok, h.shows⟩

/-- Nodes in the kernel heap. -/
def someBuf : NodeBuf where
  buf := 0xC0140000
  higher_half := by decide
  fits := by unfold W32 NODE_POOL_SIZE NODE_SIZE; omega

/-- Three data are put in, the list is rotated, the one in the middle is removed, and the first of
the two that are left is taken. -/
theorem linkedList_refines_sequence_three :
    ∃ l ns, run someBuf [.enqueue 10, .enqueue 20, .enqueue 30, .cycle, .remove 1, .pop, .search 10]
        (linkedListInit someBuf (fun _ => ⟨0, 0, 0⟩) fun _ => 0#32) =
          .ok (l, [.int 0, .int 1, .int 2, .void, .int 0, .ptr 20, .int 0]) ∧
      Shows someBuf l ns [10] :=
  linkedList_refines_sequence someBuf _ _ (by decide)

end

end LinkedList

end NowOS
