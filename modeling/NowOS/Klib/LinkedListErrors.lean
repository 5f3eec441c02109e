import Mathlib.Data.List.GetD
import NowOS.Klib.LinkedListRun

set_option autoImplicit false

/-! # The linked list outside of its valid calls

`Klib/LinkedListRun.lean` is about the calls that a caller may make. Here are the other ones: an
index behind the end of the list, a list without nodes, and a node that the pool does not take back
because another thread has changed `free_list` meanwhile. -/

namespace NowOS

/-- `shared_pool_free_entry`, with what other threads do to `free_list` between the load and the
compare-exchange. -/
def SharedPool.sharedPoolFreeEntryAmong (pool : SharedPool)
    (others : (Nat → BitVec 32) → Nat → BitVec 32) (freeList : Nat → BitVec 32) (entry : Nat) :
    Option (Bool × (Nat → BitVec 32)) :=
  match pool.sharedPoolGetIndex entry with
  | .error _ => none
  | .ok index =>
      let word := freeList (index / FREE_ENTRY_SIZE)
      let tryList := word &&& ~~~(1#32 <<< (index % FREE_ENTRY_SIZE))
      let freeList := others freeList
      match atomicCmpxchgStrong (freeList (index / FREE_ENTRY_SIZE)) word tryList with
      | (true, word, _) => some (true, Function.update freeList (index / FREE_ENTRY_SIZE) word)
      | (false, _, _) => some (false, freeList)

namespace SharedPool

variable {pool : SharedPool} {k : Nat}

/-- The node is freed iff its word is still the one that was loaded. -/
theorem sharedPoolFreeEntryAmong_eq (others : (Nat → BitVec 32) → Nat → BitVec 32)
    (freeList : Nat → BitVec 32) (hk : k < pool.maxObjNum) :
    pool.sharedPoolFreeEntryAmong others freeList (pool.entryAddr k) =
      some (decide (others freeList (k / FREE_ENTRY_SIZE) = freeList (k / FREE_ENTRY_SIZE)),
        if others freeList (k / FREE_ENTRY_SIZE) = freeList (k / FREE_ENTRY_SIZE) then
          Function.update (others freeList) (k / FREE_ENTRY_SIZE)
            (freeList (k / FREE_ENTRY_SIZE) &&& ~~~(1#32 <<< (k % FREE_ENTRY_SIZE)))
        else others freeList) := by
  unfold sharedPoolFreeEntryAmong atomicCmpxchgStrong
  simp only [sharedPoolGetIndex_entryAddr hk]
  by_cases hword : others freeList (k / FREE_ENTRY_SIZE) = freeList (k / FREE_ENTRY_SIZE)
  · rw [if_pos hword, if_pos hword, decide_eq_true hword]
  · rw [if_neg hword, if_neg hword, decide_eq_false hword]

/-- Without other threads it is the call of a thread that runs alone. -/
theorem sharedPoolFreeEntryAmong_id (freeList : Nat → BitVec 32) (hk : k < pool.maxObjNum) :
    pool.sharedPoolFreeEntryAmong id freeList (pool.entryAddr k) =
      pool.sharedPoolFreeEntry freeList (pool.entryAddr k) := by
  rw [sharedPoolFreeEntry_eq freeList hk]
  unfold sharedPoolFreeEntryAmong atomicCmpxchgStrong
  simp only [sharedPoolGetIndex_entryAddr hk, id_eq, if_true]
  rfl

end SharedPool

namespace LinkedList

variable {B : NodeBuf} {l : LinkedList} {ns xs : List Nat}

/-! ## Removal behind the end -/

theorem WellLinked.start_nil (h : WellLinked B l [] xs) : l.startPtr = 0 := h.start

/-- The walk of `linked_list_remove` ends at the index or at the end of the chain. If both are
reached at once the node is `NULL`. -/
theorem WellLinked.remove_outside (h : WellLinked B l ns xs) {i : Nat} (hi : ns.length ≤ i) :
    l.linkedListRemove B i = if i = ns.length then .error .null else .ok (l, -1) := by
  have hwalk := h.walk_remove i
  rw [List.drop_eq_nil_of_le hi, List.headD_nil, Nat.min_eq_right hi] at hwalk
  unfold linkedListRemove linkedListRemoveWith
  simp only [hwalk, ne_eq, if_true]
  by_cases heq : i = ns.length
  · rw [if_pos heq, if_neg (not_not.2 heq.symm)]
  · rw [if_neg heq, if_pos (Ne.symm heq)]

/-- **Removal outside of the list.** An index behind the end is refused and nothing changes, except
for the index that is the length of the list: there `NULL` is dereferenced. A list without nodes has
no index that `linked_list_dequeue` could remove, and it dereferences `NULL` as well. -/
theorem remove_outside_iff (h : WellLinked B l ns xs) {i : Nat} (hi : ns.length ≤ i) :
    (l.linkedListRemove B i = .ok (l, -1) ↔ i ≠ ns.length) ∧
      (i = ns.length → l.linkedListRemove B i = .error .null) ∧
      (ns = [] → l.linkedListDequeue B = .error .null) := by
  rw [h.remove_outside hi]
  refine ⟨?_, fun heq => if_pos heq, fun hnil => ?_⟩
  · by_cases heq : i = ns.length
    · rw [if_pos heq]
      simp [heq]
    · rw [if_neg heq]
      simp [heq]
  · subst hnil
    rw [linkedListDequeue, linkedListGet, if_pos h.start_nil]

/-- The list after `linked_list_init`. -/
def emptyList : LinkedList := linkedListInit someBuf (fun _ => ⟨0, 0, 0⟩) fun _ => 0#32

theorem wellLinked_emptyList : WellLinked someBuf emptyList [] [] := (inv_init _ _).toWellLinked

/-- A list with two nodes: the index `3` is refused, and the index `2` is the length. -/
theorem remove_outside_iff_two :
    ∃ l, run someBuf [.enqueue 10, .enqueue 20] emptyList = .ok (l, [.int 0, .int 1]) ∧
      l.linkedListRemove someBuf 3 = .ok (l, -1) ∧
      l.linkedListRemove someBuf 2 = .error .null := by
  have hrun : Sequence.run [.enqueue 10, .enqueue 20] [] = some ([10, 20], [.int 0, .int 1]) := by
    decide
  obtain ⟨l, ns, hok, h⟩ := (inv_init (B := someBuf) (fun _ => ⟨0, 0, 0⟩) fun _ => 0#32).run hrun
  have hlen : ns.length = 2 := h.toWellLinked.length_eq.symm
  refine ⟨l, hok, ?_, ?_⟩
  · exact (remove_outside_iff h.toWellLinked (show ns.length ≤ 3 by omega)).1.2 (by omega)
  · exact (remove_outside_iff h.toWellLinked (show ns.length ≤ 2 by omega)).2.1 hlen.symm

/-- Taking from a list without nodes. -/
theorem remove_empty_null :
    WellLinked someBuf emptyList [] [] ∧
      emptyList.linkedListRemove someBuf 0 = .error .null ∧
      emptyList.linkedListDequeue someBuf = .error .null :=
  ⟨wellLinked_emptyList, rfl, rfl⟩

/-! ## Reads -/

/-- The loop of `linked_list_get` behind the end of the chain. -/
theorem getLoop_end {p d n : Nat} (h : DLinked l.nextPtr l.prevPtr p ns 0) (h0 : 0 ∉ ns)
    (hn : ns.length < n) : l.getLoop n (ns.headD 0) d = 0 := by
  induction ns generalizing p d n with
  | nil =>
      obtain ⟨n, rfl⟩ : ∃ m, n = m + 1 := ⟨n - 1, by omega⟩
      rw [List.headD_nil, getLoop, if_pos rfl]
  | cons a ns ih =>
      obtain ⟨n, rfl⟩ : ∃ m, n = m + 1 := ⟨n - 1, by omega⟩
      obtain ⟨ha, h0⟩ := not_or.1 (mt List.mem_cons.2 h0)
      obtain ⟨-, hnext, h⟩ := h
      rw [List.headD_cons, getLoop, if_neg (Ne.symm ha), hnext]
      exact ih h h0 (Nat.lt_of_succ_lt_succ hn)

/-- `linked_list_get` of a list with nodes. For the largest index the bound `index + 1` of the loop
is 0, and what is returned is the datum that was read before the loop. -/
theorem WellLinked.get_eq (h : WellLinked B l ns xs) (hnil : ns ≠ []) {i : Nat} (hi : i < W32) :
    l.linkedListGet i = .ok (if i = W32 - 1 then xs.headD 0 else xs.getD i 0) := by
  have hlen := h.length_eq
  have hle := h.length_le
  by_cases hlast : i = W32 - 1
  · -- the bound wraps around and the loop is not entered
    have hcount : add32 i 1 = 0 := by
      rw [hlast]
      decide
    obtain ⟨a, ns, rfl⟩ := List.exists_cons_of_ne_nil hnil
    have hdatum : l.data l.startPtr = xs.headD 0 := by
      rw [h.start, ← h.data]
      rfl
    rw [linkedListGet, if_neg (h.start_ne_zero hnil), hcount, getLoop, if_pos hlast, hdatum]
  · rw [if_neg hlast]
    by_cases hlt : i < xs.length
    · rw [h.get hlt, List.getD_eq_getElem _ _ hlt]
    · -- the loop has more turns than the chain has nodes, and ends at `NULL`
      have hcount : add32 i 1 = i + 1 := add32_of_lt (by omega)
      rw [List.getD_eq_default _ _ (by omega), linkedListGet, if_neg (h.start_ne_zero hnil), hcount,
        h.start, getLoop_end h.linked h.zero_notMem (by omega)]

/-- **Indexed reads.** `linked_list_get` returns the datum at the index, or `NULL` behind the end,
if and only if the list has nodes and the index is not the largest one (or the first datum is `NULL`
anyhow). -/
theorem get_total_iff (h : WellLinked B l ns xs) {i : Nat} (hi : i < W32) :
    l.linkedListGet i = .ok (xs.getD i 0) ↔ ns ≠ [] ∧ (i = W32 - 1 → xs.headD 0 = 0) := by
  by_cases hnil : ns = []
  · subst hnil
    rw [linkedListGet, if_pos h.start_nil]
    simp
  · rw [h.get_eq hnil hi, Except.ok.injEq]
    by_cases hlast : i = W32 - 1
    · have hbehind : xs.getD i 0 = 0 := by
        have hle := h.length_le
        rw [← h.length_eq] at hle
        refine List.getD_eq_default _ _ (Nat.le_trans hle ?_)
        rw [hlast]
        decide
      rw [if_pos hlast, hbehind]
      exact ⟨fun heq => ⟨hnil, fun _ => heq⟩, fun hright => hright.2 hlast⟩
    · rw [if_neg hlast]
      exact iff_of_true rfl ⟨hnil, fun heq => absurd heq hlast⟩

/-- A list with one node, in the first slot of its pool. -/
def oneNode (datum : Nat) : LinkedList where
  nodes := fun _ => ⟨0, 0, datum⟩
  freeList := fun i => if i = 0 then 1#32 else 0#32
  startPtr := 0xC0140000
  endPtr := 0xC0140000
  size := 1

theorem wellLinked_oneNode (datum : Nat) :
    WellLinked someBuf (oneNode datum) [0xC0140000] [datum] where
  nodup := by simp
  slots := by
    intro a ha
    rw [List.mem_singleton.1 ha]
    exact ⟨0, by decide, by decide⟩
  linked := ⟨rfl, rfl, trivial⟩
  start := rfl
  last := rfl
  data := rfl
  size := rfl
  used := by
    intro k _
    have hbit : SharedPool.bit (oneNode datum).freeList k = true ↔ k = 0 := by
      show ((if k / 32 = 0 then 1#32 else 0#32).getLsbD (k % 32)) = true ↔ k = 0
      split
      · next hword =>
        rw [BitVec.getLsbD_one, Bool.and_eq_true, decide_eq_true_eq, decide_eq_true_eq]
        omega
      · next hword =>
        rw [BitVec.getLsbD_zero]
        exact iff_of_false Bool.false_ne_true (by omega)
    rw [hbit, List.mem_singleton]
    constructor
    · rintro rfl
      exact ⟨by decide, by decide⟩
    · rintro ⟨hlt, haddr⟩
      exact SharedPool.entryAddr_inj hlt (show 0 < someBuf.pool.maxObjNum by decide)
        (haddr.trans (by decide))

theorem get_total_iff_one : (oneNode 7).linkedListGet 0 = .ok 7 ∧
    (oneNode 7).linkedListGet 1 = .ok 0 :=
  ⟨(get_total_iff (wellLinked_oneNode 7) (by decide)).2 ⟨by simp, by decide⟩,
    (get_total_iff (wellLinked_oneNode 7) (by decide)).2 ⟨by simp, by decide⟩⟩

/-- Both traps: a list without nodes, and the largest index. -/
theorem get_wraps :
    (WellLinked someBuf emptyList [] [] ∧ emptyList.linkedListGet 0 = .error .null) ∧
      WellLinked someBuf (oneNode 7) [0xC0140000] [7] ∧
      (oneNode 7).linkedListGet (W32 - 1) = .ok 7 :=
  ⟨⟨wellLinked_emptyList, rfl⟩, wellLinked_oneNode 7, rfl⟩

/-! ## A node that is not freed -/

/-- The chains from both ends hold the same nodes, and `size` is their number. -/
def Consistent (l : LinkedList) : Prop :=
  ∃ ns, follow l.nextPtr 0 (NODE_POOL_SIZE + 1) l.startPtr = some ns ∧
    follow l.prevPtr 0 (NODE_POOL_SIZE + 1) l.endPtr = some ns.reverse ∧ l.size = ns.length

/-- The chains and the size of a list, whatever its pool says. -/
theorem consistent_of_linked (hlinked : DLinked l.nextPtr l.prevPtr 0 ns 0) (h0 : 0 ∉ ns)
    (hlen : ns.length ≤ NODE_POOL_SIZE) (hstart : l.startPtr = ns.headD 0)
    (hlast : l.endPtr = ns.getLastD 0) (hsize : l.size = ns.length) :
    follow l.nextPtr 0 (NODE_POOL_SIZE + 1) l.startPtr = some ns ∧ l.Consistent := by
  have hforward : follow l.nextPtr 0 (NODE_POOL_SIZE + 1) l.startPtr = some ns := by
    rw [hstart]
    exact hlinked.follow_next h0 (Nat.lt_succ_of_le hlen)
  refine ⟨hforward, ns, hforward, ?_, hsize⟩
  rw [hlast]
  exact hlinked.follow_prev h0 (Nat.lt_succ_of_le hlen)

section Release

variable {us vs : List Nat} {a : Nat}

/-- The general branch of `linked_list_remove`: the node is out of the chains and `size` is down
before the node is released. -/
theorem WellLinked.consistent_unlink (h : WellLinked B l (us ++ a :: vs) xs)
    (freeList : Nat → BitVec 32) :
    follow ((l.unlink (us.getLastD 0) (vs.headD 0)).decSize.setFreeList freeList).nextPtr 0
        (NODE_POOL_SIZE + 1)
        ((l.unlink (us.getLastD 0) (vs.headD 0)).decSize.setFreeList freeList).startPtr =
      some (us ++ vs) ∧
    ((l.unlink (us.getLastD 0) (vs.headD 0)).decSize.setFreeList freeList).Consistent := by
  have hsub : (us ++ vs).Sublist (us ++ a :: vs) := (List.sublist_cons_self _ vs).append_left us
  refine @consistent_of_linked _ (us ++ vs) h.linked_unlink
    (fun hmem => h.zero_notMem (hsub.subset hmem)) (Nat.le_trans hsub.length_le h.length_le)
    h.start_unlink h.last_unlink ?_
  show sub32 (l.unlink _ _).size 1 = _
  rw [unlink_size, h.size, List.length_append, List.length_append, List.length_cons,
    sub32_of_le (by omega)]
  omega

/-- The branch for the only node: the ends are cleared first, and `size` changes only if the node
was released. -/
theorem WellLinked.consistent_clearEnds (h : WellLinked B l [a] xs) (freeList : Nat → BitVec 32) :
    (l.clearEnds.setFreeList freeList).decSize.Consistent ∧
      ¬ (l.clearEnds.setFreeList freeList).Consistent := by
  constructor
  · refine (@consistent_of_linked _ [] trivial List.not_mem_nil (Nat.zero_le _) rfl rfl ?_).2
    show sub32 l.size 1 = 0
    rw [h.size]
    rfl
  · rintro ⟨ns, hforward, -, hsize⟩
    have hnil : some ([] : List Nat) = some ns := hforward
    cases hnil
    rw [show (l.clearEnds.setFreeList freeList).size = 1 from h.size] at hsize
    cases hsize

/-- **A node that is not freed.** For every node of the list, in slot `k` of the pool, and whatever
other threads do to `free_list` between the load and the compare-exchange: `linked_list_remove`
takes the node out of the chain, frees its slot and returns `0` if the word of the slot is still the
one that was loaded, and returns `-1` otherwise. It leaves a consistent list if and only if the word
is still the same or the list had another node. -/
theorem failed_release_iff (h : WellLinked B l ns xs) {i : Nat} (hi : i < l.size)
    (others : (Nat → BitVec 32) → Nat → BitVec 32) :
    ∃ k, k < B.pool.maxObjNum ∧ ns[i]? = some (B.pool.entryAddr k) ∧
      ∃ l', l.linkedListRemoveWith (B.pool.sharedPoolFreeEntryAmong others) i =
          .ok (l', if others l.freeList (k / FREE_ENTRY_SIZE) = l.freeList (k / FREE_ENTRY_SIZE)
            then 0 else -1) ∧
        l'.freeList =
          (if others l.freeList (k / FREE_ENTRY_SIZE) = l.freeList (k / FREE_ENTRY_SIZE) then
            Function.update (others l.freeList) (k / FREE_ENTRY_SIZE)
              (l.freeList (k / FREE_ENTRY_SIZE) &&& ~~~(1#32 <<< (k % FREE_ENTRY_SIZE)))
          else others l.freeList) ∧
        follow l'.nextPtr 0 (NODE_POOL_SIZE + 1) l'.startPtr = some (ns.eraseIdx i) ∧
        (l'.Consistent ↔
          others l.freeList (k / FREE_ENTRY_SIZE) = l.freeList (k / FREE_ENTRY_SIZE) ∨
            2 ≤ l.size) := by
  have hlt : i < ns.length := by rwa [← h.size]
  obtain ⟨us, a, vs, rfl, rfl⟩ := exists_split hlt
  obtain ⟨k, hk, rfl⟩ := h.slots a (by simp)
  have hrelease := @SharedPool.sharedPoolFreeEntryAmong_eq B.pool k others l.freeList hk
  refine ⟨k, hk, by simp, ?_⟩
  rw [h.removeWith hrelease]
  have herase : (us ++ B.pool.entryAddr k :: vs).eraseIdx us.length = us ++ vs := by
    rw [List.eraseIdx_append_of_length_le (Nat.le_refl _), Nat.sub_self, List.eraseIdx_cons_zero]
  rw [herase]
  by_cases honly : us = [] ∧ vs = []
  · -- the only node: `size` follows the code of the release
    obtain ⟨rfl, rfl⟩ := honly
    have hsize : ¬ 2 ≤ l.size := by
      rw [h.size]
      exact Nat.not_succ_le_self 1
    rw [if_pos ⟨rfl, rfl⟩]
    by_cases hsame : others l.freeList (k / FREE_ENTRY_SIZE) = l.freeList (k / FREE_ENTRY_SIZE)
    · simp only [hsame, decide_true, if_true]
      exact ⟨_, rfl, rfl, rfl, iff_of_true (h.consistent_clearEnds _).1 (Or.inl trivial)⟩
    · simp only [hsame, decide_false, if_false, Bool.false_eq_true]
      exact ⟨_, rfl, rfl, rfl, iff_of_false (h.consistent_clearEnds _).2 (by simp [hsize])⟩
  · -- another node: `size` is down before the release
    have hsize : 2 ≤ l.size := by
      rw [h.size, List.length_append, List.length_cons]
      by_contra hlt
      have hus := List.eq_nil_of_length_eq_zero (show us.length = 0 by omega)
      have hvs := List.eq_nil_of_length_eq_zero (show vs.length = 0 by omega)
      exact honly ⟨hus, hvs⟩
    rw [if_neg honly]
    simp only [decide_eq_true_eq]
    exact ⟨_, rfl, rfl, (h.consistent_unlink _).1,
      iff_of_true (h.consistent_unlink _).2 (Or.inr hsize)⟩

/-- Alone with its pool, the list is consistent after the removal of its only node, and its slot is
free. -/
theorem failed_release_iff_alone :
    ∃ l', (oneNode 7).linkedListRemoveWith (someBuf.pool.sharedPoolFreeEntryAmong id) 0 =
        .ok (l', 0) ∧ l'.freeList 0 = 0#32 ∧ l'.Consistent := by
  obtain ⟨k, hk, hnode, l', hok, hfree, -, hiff⟩ :=
    failed_release_iff (wellLinked_oneNode 7) (show 0 < 1 by decide) id
  have hzero : k = 0 := by
    rw [List.getElem?_cons_zero, Option.some.injEq] at hnode
    exact SharedPool.entryAddr_inj hk (show 0 < someBuf.pool.maxObjNum by decide)
      (hnode.symm.trans (by decide))
  subst hzero
  simp only [id_eq, if_true] at hok hfree
  refine ⟨l', hok, ?_, hiff.2 (Or.inl rfl)⟩
  rw [hfree]
  decide

/-- Another thread marks slot 1 between the load and the compare-exchange: the list has no nodes any
more and its size is 1. -/
theorem failed_release_size :
    WellLinked someBuf (oneNode 7) [0xC0140000] [7] ∧
      ∃ l' code, (oneNode 7).linkedListRemoveWith
          (someBuf.pool.sharedPoolFreeEntryAmong fun freeList => BitTable.set freeList 1) 0 =
            .ok (l', code) ∧
        code = -1 ∧ follow l'.nextPtr 0 (NODE_POOL_SIZE + 1) l'.startPtr = some [] ∧
        l'.size = 1 := by
  refine ⟨wellLinked_oneNode 7, ?_⟩
  have hrun : (((oneNode 7).linkedListRemoveWith
      (someBuf.pool.sharedPoolFreeEntryAmong fun freeList => BitTable.set freeList 1) 0)
        |>.toOption.any fun r => decide (r.2 = -1 ∧ r.1.startPtr = 0 ∧ r.1.size = 1)) = true := by
    decide +kernel
  cases hcase : (oneNode 7).linkedListRemoveWith
      (someBuf.pool.sharedPoolFreeEntryAmong fun freeList => BitTable.set freeList 1) 0 with
  | error fault =>
      rw [hcase] at hrun
      cases hrun
  | ok r =>
      rw [hcase] at hrun
      obtain ⟨hcode, hstart, hsize⟩ := of_decide_eq_true hrun
      refine ⟨r.1, r.2, rfl, hcode, ?_, hsize⟩
      rw [hstart, follow, if_pos rfl]

end Release

end LinkedList

end NowOS
