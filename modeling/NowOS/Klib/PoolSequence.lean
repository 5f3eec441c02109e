import Mathlib.Data.Finset.Basic
import Mathlib.Order.Bounds.Basic
import NowOS.Klib.PoolCalls

set_option autoImplicit false

/-! # Sequences of calls to a shared pool

A thread that does not share its pool takes entries and gives them back, in any order. `Slots` is
what such a pool is for: a set of slots in use, of which a request adds the least one that is
missing. The pool refines it for every number of objects: also for those where the last word of
`free_list` has no slot at all, or where all of its bits but one have a slot. -/

namespace NowOS

namespace SharedPool

variable (pool : SharedPool)

/-! ## The functions of the source -/

/-- `free_list` after `shared_pool_init`. -/
def sharedPoolInit (freeList : Nat → BitVec 32) : Nat → BitVec 32 := fun i =>
  if i < pool.freeListSize then 0#32 else freeList i

/-- `shared_pool_free_index`. -/
def sharedPoolFreeIndex (freeList : Nat → BitVec 32) (index : Nat) :
    Option (Bool × (Nat → BitVec 32)) :=
  if index < pool.maxObjNum then
    let entry := add32 pool.buf (mul32 index pool.typeSize)
    pool.sharedPoolFreeEntry freeList entry
  else none

inductive Call
  | getNext
  | freeEntry (entry : Nat)
  | freeIndex (index : Nat)
  deriving DecidableEq, Repr

/-- What a call returns. -/
inductive Value
  | ptr (p : Nat)
  | bool (b : Bool)
  deriving DecidableEq, Repr

/-- A call of a thread that runs alone. -/
def call (freeList : Nat → BitVec 32) : Call → Option ((Nat → BitVec 32) × Value)
  | .getNext => (pool.sharedPoolGetNext freeList).map fun r => (r.2, .ptr r.1)
  | .freeEntry entry => (pool.sharedPoolFreeEntry freeList entry).map fun r => (r.2, .bool r.1)
  | .freeIndex index => (pool.sharedPoolFreeIndex freeList index).map fun r => (r.2, .bool r.1)

/-- The calls one after the other, and the values that they return. -/
def calls : List Call → (Nat → BitVec 32) → Option ((Nat → BitVec 32) × List Value)
  | [], freeList => some (freeList, [])
  | c :: cs, freeList =>
      (pool.call freeList c).bind fun r => (calls cs r.1).map fun r' => (r'.1, r.2 :: r'.2)

/-! ## Slots -/

namespace Slots

/-- The least slot below `m` that is not in use. -/
def leastFree (m : Nat) (used : Finset Nat) : Option Nat := (List.range m).find? fun i => i ∉ used

/-- The slot that an entry points into. -/
def slotOf (entry : Nat) : Nat := (entry - pool.buf) / pool.typeSize

/-- The calls that may be made: entries and indices that are given back are those of slots in
use. -/
def Valid (used : Finset Nat) : Call → Prop
  | .getNext => True
  | .freeEntry entry => pool.buf ≤ entry ∧ slotOf pool entry ∈ used
  | .freeIndex index => index ∈ used

instance (used : Finset Nat) : (c : Call) → Decidable (Valid pool used c)
  | .getNext => inferInstanceAs (Decidable True)
  | .freeEntry entry => inferInstanceAs (Decidable (pool.buf ≤ entry ∧ slotOf pool entry ∈ used))
  | .freeIndex index => inferInstanceAs (Decidable (index ∈ used))

/-- **The meaning of the calls**: a request takes the least free slot and returns its address, or
`NULL` if there is none; giving back succeeds and frees the one slot. -/
def exec (used : Finset Nat) : Call → Finset Nat × Value
  | .getNext =>
      match leastFree pool.maxObjNum used with
      | some i => (insert i used, .ptr (pool.buf + i * pool.typeSize))
      | none => (used, .ptr 0)
  | .freeEntry entry => (used.erase (slotOf pool entry), .bool true)
  | .freeIndex index => (used.erase index, .bool true)

/-- The slots in use after the calls and the values that they return, if all of them are valid. -/
def run : List Call → Finset Nat → Option (Finset Nat × List Value)
  | [], used => some (used, [])
  | c :: cs, used =>
      if Valid pool used c then
        (run cs (exec pool used c).1).map fun r => (r.1, (exec pool used c).2 :: r.2)
      else none

theorem leastFree_eq_some_iff {m i : Nat} {used : Finset Nat} :
    leastFree m used = some i ↔ IsLeast {k | k < m ∧ k ∉ used} i := by
  unfold leastFree
  rw [List.find?_range_eq_some]
  simp only [decide_eq_true_eq, List.mem_range, Bool.not_eq_true', decide_eq_false_iff_not, not_not]
  constructor
  · rintro ⟨hfree, hlt, hbelow⟩
    refine ⟨⟨hlt, hfree⟩, fun k hk => ?_⟩
    by_contra hki
    exact hk.2 (hbelow k (by omega))
  · rintro ⟨⟨hlt, hfree⟩, hleast⟩
    refine ⟨hfree, hlt, fun k hk => ?_⟩
    by_contra hkused
    have := hleast ⟨hk.trans hlt, hkused⟩
    omega

theorem leastFree_eq_none_iff {m : Nat} {used : Finset Nat} :
    leastFree m used = none ↔ ∀ k, k < m → k ∈ used := by
  unfold leastFree
  simp [List.find?_eq_none]

end Slots

/-! ## Refinement -/

variable {pool} {freeList : Nat → BitVec 32} {used : Finset Nat}

/-- The bits of the slots in use are set, and no slot is in use that the pool does not have. -/
structure Marks (pool : SharedPool) (freeList : Nat → BitVec 32) (used : Finset Nat) : Prop where
  bits : ∀ k, k < pool.maxObjNum → (bit freeList k = true ↔ k ∈ used)
  lt : ∀ k ∈ used, k < pool.maxObjNum

theorem marks_sharedPoolInit (freeList : Nat → BitVec 32) :
    Marks pool (pool.sharedPoolInit freeList) ∅ where
  bits := by
    intro k hk
    have hword : k / 32 < pool.freeListSize := by
      unfold freeListSize FREE_ENTRY_SIZE
      omega
    have hclear : pool.sharedPoolInit freeList (k / 32) = 0#32 := if_pos hword
    simp [bit, BitTable.get, hclear]
  lt := by simp

theorem Marks.set (h : Marks pool freeList used) {i : Nat} (hi : i < pool.maxObjNum) :
    Marks pool (BitTable.set freeList i) (insert i used) where
  bits := by
    intro k hk
    rw [bit, BitTable.get_set (by decide), Bool.or_eq_true, decide_eq_true_eq, ← bit, h.bits k hk,
      Finset.mem_insert, or_comm]
  lt := by
    intro k hk
    rcases Finset.mem_insert.1 hk with rfl | hk
    · exact hi
    · exact h.lt k hk

theorem Marks.clear (h : Marks pool freeList used) (i : Nat) :
    Marks pool (BitTable.clear freeList i) (used.erase i) where
  bits := by
    intro k hk
    rw [bit, BitTable.get_clear (by decide), Bool.and_eq_true, Bool.not_eq_true',
      decide_eq_false_iff_not, ← bit, h.bits k hk, Finset.mem_erase, and_comm]
  lt := fun k hk => h.lt k (Finset.mem_of_mem_erase hk)

/-- An entry is the address of its slot and an offset into it. -/
theorem entryAddr_slotOf {entry : Nat} (hbuf : pool.buf ≤ entry)
    (hslot : Slots.slotOf pool entry < pool.maxObjNum) :
    ∃ r, r < pool.typeSize ∧ entry = pool.entryAddr (Slots.slotOf pool entry) + r := by
  refine ⟨(entry - pool.buf) % pool.typeSize, Nat.mod_lt _ pool.typeSize_pos, ?_⟩
  have hdiv :
      pool.typeSize * ((entry - pool.buf) / pool.typeSize) + (entry - pool.buf) % pool.typeSize =
      entry - pool.buf := Nat.div_add_mod _ _
  calc entry
      = pool.buf + (entry - pool.buf) := by omega
    _ = pool.buf + (Slots.slotOf pool entry * pool.typeSize +
          (entry - pool.buf) % pool.typeSize) := by
        rw [Slots.slotOf, Nat.mul_comm, hdiv]
    _ = pool.entryAddr (Slots.slotOf pool entry) + (entry - pool.buf) % pool.typeSize := by
        rw [entryAddr_eq hslot, Nat.add_assoc]

/-- **A step.** A valid call returns what it returns for the slots, and marks what is in use
then. -/
theorem Marks.call (h : Marks pool freeList used) {c : Call} (hc : Slots.Valid pool used c) :
    ∃ freeList', pool.call freeList c = some (freeList', (Slots.exec pool used c).2) ∧
      Marks pool freeList' (Slots.exec pool used c).1 := by
  cases c with
  | getNext =>
      cases hleast : Slots.leastFree pool.maxObjNum used with
      | none =>
          -- the scan passes all words
          have hfull : ∀ k, k < pool.maxObjNum → bit freeList k = true := fun k hk =>
            (h.bits k hk).2 (Slots.leastFree_eq_none_iff.1 hleast k hk)
          refine ⟨freeList, ?_, ?_⟩
          · rw [SharedPool.call, sharedPoolGetNext_full hfull, Slots.exec, hleast]
            rfl
          · rwa [Slots.exec, hleast]
      | some i =>
          -- the least free slot is the first bit that is clear
          obtain ⟨⟨hi, hfree⟩, hmin⟩ := Slots.leastFree_eq_some_iff.1 hleast
          have hclear : bit freeList i = false := Bool.eq_false_iff.2 (mt (h.bits i hi).1 hfree)
          have hbelow : ∀ k, k < i → bit freeList k = true := by
            intro k hk
            refine (h.bits k (hk.trans hi)).2 ?_
            by_contra hnot
            exact Nat.not_le_of_lt hk (hmin ⟨hk.trans hi, hnot⟩)
          refine ⟨BitTable.set freeList i, ?_, ?_⟩
          · rw [SharedPool.call, sharedPoolGetNext_eq hi hclear hbelow, Slots.exec, hleast,
              Option.map_some, entryAddr_eq hi]
          · rw [Slots.exec, hleast]
            exact h.set hi
  | freeEntry entry =>
      obtain ⟨hbuf, hslot⟩ := hc
      obtain ⟨r, hr, hentry⟩ := entryAddr_slotOf hbuf (h.lt _ hslot)
      have hfree : pool.sharedPoolFreeEntry freeList entry =
          some (true, BitTable.clear freeList (Slots.slotOf pool entry)) := by
        -- only the argument: the slot on the right is said by the entry as well
        conv => lhs; rw [hentry]
        exact sharedPoolFreeEntry_add freeList (h.lt _ hslot) hr
      refine ⟨_, ?_, h.clear _⟩
      rw [SharedPool.call, hfree]
      rfl
  | freeIndex index =>
      have hfree : pool.sharedPoolFreeIndex freeList index =
          some (true, BitTable.clear freeList index) := by
        rw [sharedPoolFreeIndex, if_pos (h.lt _ hc)]
        exact sharedPoolFreeEntry_eq freeList (h.lt _ hc)
      refine ⟨_, ?_, h.clear _⟩
      rw [SharedPool.call, hfree]
      rfl

/-- **A run.** -/
theorem Marks.run (h : Marks pool freeList used) {cs : List Call} {used' : Finset Nat}
    {values : List Value} (hrun : Slots.run pool cs used = some (used', values)) :
    ∃ freeList', pool.calls cs freeList = some (freeList', values) ∧
      Marks pool freeList' used' := by
  induction cs generalizing freeList used values with
  | nil =>
      cases hrun
      exact ⟨freeList, rfl, h⟩
  | cons c cs ih =>
      rw [Slots.run] at hrun
      split_ifs at hrun with hc
      obtain ⟨⟨used₁, values₁⟩, hrest, heq⟩ := Option.map_eq_some_iff.1 hrun
      cases heq
      obtain ⟨freeList₁, hcall, h₁⟩ := h.call hc
      obtain ⟨freeList', hcalls, h'⟩ := ih h₁ hrest
      refine ⟨freeList', ?_, h'⟩
      rw [calls, hcall, Option.bind_some, hcalls]
      rfl

/-- **The contract of a pool that one thread uses.** Whatever valid calls are made after
`shared_pool_init`, all of them return, they return what they mean for the slots, and the bits that
are set are those of the slots in use. `shared_pool_get_index` maps every pointer into a slot to the
slot. -/
theorem sequential_pool_contract (pool : SharedPool) (freeList : Nat → BitVec 32) {cs : List Call}
    {used : Finset Nat} {values : List Value} (hrun : Slots.run pool cs ∅ = some (used, values)) :
    (∃ freeList', pool.calls cs (pool.sharedPoolInit freeList) = some (freeList', values) ∧
      ∀ k, k < pool.maxObjNum → (bit freeList' k = true ↔ k ∈ used)) ∧
    ∀ i r, i < pool.maxObjNum → r < pool.typeSize →
      pool.sharedPoolGetIndex (pool.buf + i * pool.typeSize + r) = .ok i := by
  constructor
  · obtain ⟨freeList', hcalls, h⟩ := (marks_sharedPoolInit freeList).run hrun
    exact ⟨freeList', hcalls, h.bits⟩
  · intro i r hi hr
    rw [← entryAddr_eq hi]
    exact sharedPoolGetIndex_add hi hr

/-- Two objects: a third request fails, and the slot that is given back is the next one to be
taken. -/
theorem sequential_pool_contract_pair :
    ∃ freeList', pairPool.calls
        [.getNext, .getNext, .getNext, .freeIndex 1, .getNext, .freeEntry 0xC0130002, .getNext]
        (pairPool.sharedPoolInit fun _ => 0#32) =
      some (freeList', [.ptr 0xC0130000, .ptr 0xC0130004, .ptr 0, .bool true, .ptr 0xC0130004,
        .bool true, .ptr 0xC0130000]) := by
  have hrun : Slots.run pairPool
      [.getNext, .getNext, .getNext, .freeIndex 1, .getNext, .freeEntry 0xC0130002, .getNext] ∅ =
        some ({0, 1}, [.ptr 0xC0130000, .ptr 0xC0130004, .ptr 0, .bool true, .ptr 0xC0130004,
          .bool true, .ptr 0xC0130000]) := by
    decide +kernel
  obtain ⟨⟨freeList', hcalls, -⟩, -⟩ := sequential_pool_contract pairPool (fun _ => 0#32) hrun
  exact ⟨freeList', hcalls⟩

end SharedPool

end NowOS
