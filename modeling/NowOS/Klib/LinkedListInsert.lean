import NowOS.Klib.LinkedListRun

set_option autoImplicit false

/-! # Insertion at an index

`linked_list_add` is to put a datum at an index of the list. Its loop runs while `temp_index <=
index`, so it stops one node behind the one at the index, and the `next_ptr` of the node before the
new one is not changed. Only an insertion behind the last node comes out right;
`linked_list_enqueue` makes no other. -/

namespace NowOS

namespace LinkedList

section

variable {B : NodeBuf} {l : LinkedList} {ns xs : List Nat}

/-- A list that shows its data from both ends is well linked. -/
theorem Shows.wellLinked (h : Shows B l ns xs) : WellLinked B l ns xs := by
  obtain ⟨hlinked, hstart, hlast⟩ := dlinked_of_follow h.forward h.backward
  have hlen : xs.length = ns.length := by rw [← h.data, List.length_map]
  exact ⟨h.slots.1, h.slots.2, hlinked, hstart, hlast, h.data, h.size.trans hlen, h.used⟩

/-- **`linked_list_add` before another node** returns the index behind the one it was asked for. -/
theorem WellLinked.addBefore (h : WellLinked B l ns xs) {d i : Nat}
    (hlt : ns.length < NODE_POOL_SIZE) (hi : i + 1 < ns.length) :
    ∃ l', l.linkedListAdd B d i = .ok (l', ((i + 1 : Nat) : Int)) := by
  obtain ⟨k, hk, -, hold, hget⟩ := h.getNext hlt
  have hne : B.pool.entryAddr k ≠ 0 := entryAddr_ne_zero hk
  obtain ⟨us, a, vs, rfl, hlen⟩ := exists_split hi
  have hstart : (l.newNode (B.pool.entryAddr k) d (BitTable.set l.freeList k)).startPtr ≠ 0 :=
    h.start_ne_zero (by simp)
  -- the walk passes the nodes up to the index and stops at the node behind
  have hwalk := h.walk_newNode d (BitTable.set l.freeList k) hold hlen.le (Or.inr hlen)
  have ha : a ≠ 0 := h.ne_zero (by simp)
  unfold linkedListAdd
  simp only [hget, hne, if_false]
  rw [if_neg hstart, hwalk]
  simp only [List.headD_cons, ha, if_false, hlen]
  exact ⟨_, rfl⟩

/-- What an insertion at index `i` is to leave and return. -/
def Inserted (B : NodeBuf) (l' : LinkedList) (ret : Int) (xs : List Nat) (i d : Nat) : Prop :=
  ret = i ∧ ∃ ns', Shows B l' ns' (xs.insertIdx i d)

theorem Shows.add_inserted_iff (h : Shows B l ns xs) (hlt : xs.length < NODE_POOL_SIZE) (d : Nat)
    {i : Nat} (hi : i ≤ xs.length) :
    ∃ l' ret, l.linkedListAdd B d i = .ok (l', ret) ∧
      (Inserted B l' ret xs i d ↔ i = xs.length) := by
  have hw := h.wellLinked
  rw [hw.length_eq] at hlt hi ⊢
  by_cases hin : i + 1 < ns.length
  · -- before another node: the index that is returned is too large
    obtain ⟨l', hok⟩ := hw.addBefore (d := d) hlt hin
    refine ⟨l', _, hok, ?_, fun heq => by omega⟩
    rintro ⟨hret, -⟩
    omega
  · -- at the last node or behind it: the new node comes last, at index `ns.length`
    obtain ⟨l', a, hok, h'⟩ := hw.addLast (d := d) hlt (show ns.length ≤ i + 1 by omega)
    refine ⟨l', _, hok, ?_, ?_⟩
    · rintro ⟨hret, -⟩
      omega
    · intro heq
      refine ⟨by rw [heq], ns ++ [a], ?_⟩
      rw [heq, ← hw.length_eq, List.insertIdx_length_self]
      exact h'.shows

/-- **Insertion at an index.** `linked_list_add` of any datum into a list with room returns, but it
inserts at the index it is asked for, and returns that, exactly if the index is the length of the
list. In particular `linked_list_push` puts the datum at the front exactly if the list is empty. -/
theorem linkedListAdd_inserted_iff (h : Shows B l ns xs) (hlt : xs.length < NODE_POOL_SIZE)
    (d : Nat) :
    (∀ i, i ≤ xs.length → ∃ l' ret, l.linkedListAdd B d i = .ok (l', ret) ∧
      (Inserted B l' ret xs i d ↔ i = xs.length)) ∧
    ∃ l' ret, l.linkedListPush B d = .ok (l', ret) ∧ (Inserted B l' ret xs 0 d ↔ xs = []) := by
  refine ⟨fun i hi => h.add_inserted_iff hlt d hi, ?_⟩
  obtain ⟨l', ret, hok, hiff⟩ := h.add_inserted_iff hlt d (Nat.zero_le _)
  refine ⟨l', ret, hok, hiff.trans ?_⟩
  rw [eq_comm, List.length_eq_zero_iff]

/-- An insertion behind the only datum. -/
theorem linkedListAdd_inserted_second :
    ∃ l l' ret,
      run someBuf [.enqueue 10] (linkedListInit someBuf (fun _ => ⟨0, 0, 0⟩) fun _ => 0#32) =
        .ok (l, [.int 0]) ∧
      l.linkedListAdd someBuf 20 1 = .ok (l', ret) ∧ Inserted someBuf l' ret [10] 1 20 := by
  obtain ⟨l, ns, hok, h⟩ := (inv_init (B := someBuf) (fun _ => ⟨0, 0, 0⟩) fun _ => 0#32).run
    (show Sequence.run [.enqueue 10] [] = some ([10], [.int 0]) by decide)
  obtain ⟨hadd, -⟩ := linkedListAdd_inserted_iff h.shows (by decide) 20
  obtain ⟨l', ret, hok', hiff⟩ := hadd 1 (by decide)
  exact ⟨l, l', ret, hok, hok', hiff.2 rfl⟩

/-- **`linked_list_push` puts the datum at the end.** The list holds `10`; when `20` is pushed the
list is `10, 20` and the index that is returned is `1`. -/
theorem linkedListPush_last :
    ∃ l l' ns ns', run someBuf [.enqueue 10]
        (linkedListInit someBuf (fun _ => ⟨0, 0, 0⟩) fun _ => 0#32) = .ok (l, [.int 0]) ∧
      Shows someBuf l ns [10] ∧ l.linkedListPush someBuf 20 = .ok (l', 1) ∧
      Shows someBuf l' ns' [10, 20] := by
  obtain ⟨l, ns, hok, h⟩ := (inv_init (B := someBuf) (fun _ => ⟨0, 0, 0⟩) fun _ => 0#32).run
    (show Sequence.run [.enqueue 10] [] = some ([10], [.int 0]) by decide)
  have hlen : ns.length = 1 := h.length_eq.symm
  obtain ⟨l', a, hok', h'⟩ := h.toWellLinked.addLast (d := 20) (i := 0) (by rw [hlen]; decide)
    (by omega)
  rw [hlen] at hok'
  exact ⟨l, l', ns, ns ++ [a], hok, h.shows, hok', h'.shows⟩

end

end LinkedList

end NowOS
