import NowOS.Klib.SharedPool

set_option autoImplicit false

/-! # The shared pool used by one thread

A call of a function of the pool by a thread that is not interleaved with others: the steps of
`Klib/SharedPool.lean` one after the other until the thread has left the function. No
compare-exchange fails then. `shared_pool_get_next` takes the lowest free slot, or returns `NULL` if
there is none, and `shared_pool_free_entry` frees the slot of its entry. -/

namespace NowOS

namespace SharedPool

variable (pool : SharedPool)

section

variable {T : Type} [DecidableEq T]

/-- The thread goes on until it has left the functions of the pool. -/
def finish (t : T) : Nat → State T → Option (State T)
  | 0, _ => none
  | fuel + 1, s =>
      if s.point t = .idle then some s else (pool.exec (.run t) s).bind (finish t fuel)

end

/-- A call by a thread that runs alone and owns `owned`. The fuel is enough for a load of every
word, a compare-exchange and the return. -/
def callAlone (a : Action Unit) (freeList : Nat → BitVec 32) (owned : List Nat) :
    Option (State Unit) :=
  (pool.exec a ⟨freeList, fun _ => .idle, fun _ => owned⟩).bind
    (pool.finish () (pool.freeListSize + 3))

/-- `shared_pool_get_next`: the entry, or `NULL` if the thread owns nothing afterwards. -/
def sharedPoolGetNext (freeList : Nat → BitVec 32) : Option (Nat × (Nat → BitVec 32)) :=
  (pool.callAlone (.getNext ()) freeList []).map fun s => ((s.owned ()).headD 0, s.freeList)

/-- `shared_pool_free_entry`: whether the entry was freed. -/
def sharedPoolFreeEntry (freeList : Nat → BitVec 32) (entry : Nat) :
    Option (Bool × (Nat → BitVec 32)) :=
  (pool.callAlone (.freeEntry () entry) freeList [entry]).map fun s =>
    ((s.owned ()).isEmpty, s.freeList)

/-! ## `shared_pool_get_next` -/

variable {pool}

/-- The inner loop of `set_next_index` passes over the bits that are set. -/
theorem innerLoop_eq {i n j m found : Nat} {freeMask : BitVec 32} (hjm : j ≤ m) (hmn : m < j + n)
    (hj : n + j = 32) (hset : ∀ b, j ≤ b → b < m → freeMask.getLsbD b = true)
    (hclear : freeMask.getLsbD m = false) (hmax : found + (m - j) < pool.maxObjNum) :
    pool.innerLoop i freeMask n j found = .cmpxchg i m (found + (m - j)) freeMask := by
  induction n generalizing j found with
  | zero => omega
  | succ n ih =>
      have hfound : ¬ pool.maxObjNum ≤ found := by omega
      by_cases heq : j = m
      · subst heq
        have htry : ¬ freeMask ||| 1#32 <<< j = freeMask := by
          rw [or_bit_eq_self (by omega), hclear]
          exact Bool.false_ne_true
        simp [innerLoop, hfound, htry]
      · have htry : freeMask ||| 1#32 <<< j = freeMask := by
          rw [or_bit_eq_self (by omega)]
          exact hset j (Nat.le_refl j) (by omega)
        have hloop : pool.innerLoop i freeMask n (j + 1) (found + 1) =
            .cmpxchg i m (found + 1 + (m - (j + 1))) freeMask :=
          ih (by omega) (by omega) (by omega) (fun b hb => hset b (by omega)) (by omega)
        simp only [innerLoop, hfound, htry, if_true, if_false, hloop]
        congr 1
        omega

/-- If the bits that are left belong to slots in use, up to the last slot, the inner loop of
`set_next_index` gives up. -/
theorem innerLoop_full {i n j m found : Nat} {freeMask : BitVec 32} (hjm : j ≤ m) (hmn : m < j + n)
    (hj : n + j = 32) (hset : ∀ b, j ≤ b → b < m → freeMask.getLsbD b = true)
    (hmax : found + (m - j) = pool.maxObjNum) : pool.innerLoop i freeMask n j found = .idle := by
  induction n generalizing j found with
  | zero => omega
  | succ n ih =>
      by_cases heq : j = m
      · have hfound : pool.maxObjNum ≤ found := by omega
        simp [innerLoop, hfound]
      · have hfound : ¬ pool.maxObjNum ≤ found := by omega
        have htry : freeMask ||| 1#32 <<< j = freeMask := by
          rw [or_bit_eq_self (by omega)]
          exact hset j (Nat.le_refl j) (by omega)
        have hloop : pool.innerLoop i freeMask n (j + 1) (found + 1) = .idle :=
          ih (by omega) (by omega) (by omega) (fun b hb => hset b (by omega)) (by omega)
        simp only [innerLoop, hfound, htry, if_true, if_false, hloop]

section

variable {T : Type} [DecidableEq T] {s s' : State T} {t : T}

theorem finish_idle (fuel : Nat) (hp : s.point t = .idle) :
    pool.finish t (fuel + 1) s = some s := by
  rw [finish, if_pos hp]

theorem finish_run (fuel : Nat) {p : Point} (hp : s.point t = p) (hne : p ≠ .idle)
    (hrun : pool.runPoint t s p = some s') :
    pool.finish t (fuel + 1) s = pool.finish t fuel s' := by
  subst hp
  rw [finish, if_neg hne, exec, hrun, Option.bind_some]

/-- The compare-exchange of a thread that still finds the word it loaded. -/
theorem runPoint_claim {i j found : Nat} {freeMask : BitVec 32} (hword : s.freeList i = freeMask) :
    pool.runPoint t s (.cmpxchg i j found freeMask) =
      some ((s.store i (freeMask ||| 1#32 <<< j)).moveTo t
        (.claimed (j + i * FREE_ENTRY_SIZE))) := by
  rw [runPoint, atomicCmpxchgStrong, if_pos hword]

theorem runPoint_return {k : Nat} (hk : k < pool.maxObjNum) :
    pool.runPoint t s (.claimed k) =
      some ((s.moveTo t .idle).setOwned t (pool.entryAddr k :: s.owned t)) := by
  rw [runPoint, if_pos hk]

/-- A word of which all bits are set. -/
theorem word_full {freeList : Nat → BitVec 32} {i k : Nat} (hi : i < k / 32)
    (hset : ∀ m, m < k → bit freeList m = true) : freeList i = ~~~0#32 := by
  refine eq_allOnes_iff.2 fun b hb => ?_
  have hbit := hset (32 * i + b) (by omega)
  rwa [bit, BitTable.get, Nat.mul_add_div (by decide), Nat.div_eq_of_lt hb, Nat.mul_add_mod,
    Nat.mod_eq_of_lt hb] at hbit

theorem word_not_full {freeList : Nat → BitVec 32} {k : Nat} (hclear : bit freeList k = false) :
    freeList (k / 32) ≠ ~~~0#32 := by
  intro hfull
  have hbit := eq_allOnes_iff.1 hfull (k % 32) (Nat.mod_lt k (by decide))
  rw [bit, BitTable.get, hbit] at hclear
  cases hclear

theorem word_below {freeList : Nat → BitVec 32} {k : Nat}
    (hset : ∀ m, m < k → bit freeList m = true) (b : Nat) (_ : 0 ≤ b) (hb : b < k % 32) :
    (freeList (k / 32)).getLsbD b = true := by
  have hbit := hset (32 * (k / 32) + b) (by omega)
  have hdiv : (32 * (k / 32) + b) / 32 = k / 32 := by omega
  have hmod : (32 * (k / 32) + b) % 32 = b := by omega
  rwa [bit, BitTable.get, hdiv, hmod] at hbit

/-- The load of a word that is full, if it is not the last one. -/
theorem afterLoad_full {freeList : Nat → BitVec 32} {i k : Nat} (hi : i < k / 32)
    (hk : k ≤ pool.maxObjNum) (hset : ∀ m, m < k → bit freeList m = true) :
    pool.afterLoad i (i * 32) (freeList i) = .load (i + 1) ((i + 1) * 32) := by
  have hlt : i + 1 < pool.freeListSize := by
    unfold freeListSize FREE_ENTRY_SIZE
    omega
  rw [afterLoad, if_pos (word_full hi hset), outerLoop, if_pos hlt, FREE_ENTRY_SIZE]
  congr 1
  omega

/-- **The search** from word `i` on, if all slots below the free slot `k` are in use. -/
theorem finish_search {i k fuel : Nat} (hk : k < pool.maxObjNum)
    (hclear : bit s.freeList k = false) (hset : ∀ m, m < k → bit s.freeList m = true)
    (hi : i ≤ k / 32) (hpoint : s.point t = .load i (i * 32)) (hfuel : k / 32 - i + 4 ≤ fuel) :
    ∃ s', pool.finish t fuel s = some s' ∧ s'.freeList = BitTable.set s.freeList k ∧
      s'.owned t = pool.entryAddr k :: s.owned t := by
  obtain ⟨d, hd⟩ : ∃ d, k / 32 = i + d := ⟨k / 32 - i, by omega⟩
  induction d generalizing s i fuel with
  | zero =>
      -- the free slot is in this word: load, compare-exchange, return
      obtain ⟨fuel, rfl⟩ : ∃ m, fuel = m + 4 := ⟨fuel - 4, by omega⟩
      obtain rfl : i = k / 32 := by omega
      have hslot : k % 32 + k / 32 * FREE_ENTRY_SIZE = k := by
        unfold FREE_ENTRY_SIZE
        omega
      have hafter : pool.afterLoad (k / 32) (k / 32 * 32) (s.freeList (k / 32)) =
          .cmpxchg (k / 32) (k % 32) k (s.freeList (k / 32)) := by
        have hinner : pool.innerLoop (k / 32) (s.freeList (k / 32)) 32 0 (k / 32 * 32) =
            .cmpxchg (k / 32) (k % 32) (k / 32 * 32 + (k % 32 - 0)) (s.freeList (k / 32)) :=
          innerLoop_eq (Nat.zero_le _) (by omega) rfl (word_below hset) hclear (by omega)
        rw [afterLoad, if_neg (word_not_full hclear), FREE_ENTRY_SIZE, hinner]
        congr 1
        omega
      rw [finish_run _ hpoint (by simp) rfl, hafter,
        finish_run _ (State.moveTo_point_self _ _ _) (by simp) (runPoint_claim rfl), hslot,
        finish_run _ (State.moveTo_point_self _ _ _) (by simp) (runPoint_return hk),
        finish_idle _ (by simp)]
      exact ⟨_, rfl, rfl, by simp⟩
  | succ d ih =>
      obtain ⟨fuel, rfl⟩ : ∃ m, fuel = m + 1 := ⟨fuel - 1, by omega⟩
      rw [finish_run fuel hpoint (by simp) rfl, afterLoad_full (by omega) (Nat.le_of_lt hk) hset]
      exact ih hclear hset (by omega) (State.moveTo_point_self _ _ _) (by omega) (by omega)

/-- **The search of a pool of which all slots are in use** ends without a slot. The last word has
bits that belong to no slot; the search does not depend on them. -/
theorem finish_full {i fuel : Nat} (hset : ∀ m, m < pool.maxObjNum → bit s.freeList m = true)
    (hi : i ≤ pool.maxObjNum / 32) (hpoint : s.point t = .load i (i * 32))
    (hfuel : pool.maxObjNum / 32 - i + 2 ≤ fuel) :
    ∃ s', pool.finish t fuel s = some s' ∧ s'.freeList = s.freeList ∧ s'.owned t = s.owned t := by
  obtain ⟨d, hd⟩ : ∃ d, pool.maxObjNum / 32 = i + d := ⟨pool.maxObjNum / 32 - i, by omega⟩
  induction d generalizing s i fuel with
  | zero =>
      -- the last word: it is full, or the bits up to the last slot are set
      obtain ⟨fuel, rfl⟩ : ∃ m, fuel = m + 2 := ⟨fuel - 2, by omega⟩
      obtain rfl : i = pool.maxObjNum / 32 := by omega
      have hend : ¬ pool.maxObjNum / 32 + 1 < pool.freeListSize := by
        unfold freeListSize FREE_ENTRY_SIZE
        omega
      have hafter : pool.afterLoad (pool.maxObjNum / 32) (pool.maxObjNum / 32 * 32)
          (s.freeList (pool.maxObjNum / 32)) = .idle := by
        unfold afterLoad
        split
        next => rw [outerLoop, if_neg hend]
        next =>
          exact innerLoop_full (Nat.zero_le (pool.maxObjNum % 32))
            (show _ < 0 + 32 by omega) rfl (word_below hset) (by omega)
      rw [finish_run _ hpoint (by simp) rfl, hafter, finish_idle _ (by simp)]
      exact ⟨_, rfl, rfl, rfl⟩
  | succ d ih =>
      obtain ⟨fuel, rfl⟩ : ∃ m, fuel = m + 1 := ⟨fuel - 1, by omega⟩
      rw [finish_run fuel hpoint (by simp) rfl, afterLoad_full (by omega) (Nat.le_refl _) hset]
      exact ih hset (by omega) (State.moveTo_point_self _ _ _) (by omega) (by omega)

end

/-- The first step of `shared_pool_get_next`. -/
theorem callAlone_getNext (freeList : Nat → BitVec 32) :
    pool.callAlone (.getNext ()) freeList [] =
      pool.finish () (pool.freeListSize + 3)
        (State.moveTo ⟨freeList, fun _ => .idle, fun _ => []⟩ () (.load 0 0)) := by
  have hpos : 0 < pool.freeListSize := Nat.succ_pos _
  rw [callAlone, exec, if_pos rfl, outerLoop, if_pos hpos, Option.bind_some]

/-- **`shared_pool_get_next`** takes the lowest free slot. -/
theorem sharedPoolGetNext_eq {freeList : Nat → BitVec 32} {k : Nat} (hk : k < pool.maxObjNum)
    (hclear : bit freeList k = false) (hset : ∀ m, m < k → bit freeList m = true) :
    pool.sharedPoolGetNext freeList = some (pool.entryAddr k, BitTable.set freeList k) := by
  have hfuel : k / 32 - 0 + 4 ≤ pool.freeListSize + 3 := by
    unfold freeListSize FREE_ENTRY_SIZE
    omega
  obtain ⟨s', hs', hlist, howned⟩ := finish_search (s := State.moveTo (T := Unit)
    ⟨freeList, fun _ => .idle, fun _ => []⟩ () (.load 0 0)) (t := ()) hk hclear hset (Nat.zero_le _)
    (State.moveTo_point_self _ _ _) hfuel
  rw [sharedPoolGetNext, callAlone_getNext, hs', Option.map_some, hlist, howned]
  rfl

/-- **`shared_pool_get_next`** returns `NULL` if all slots are in use. -/
theorem sharedPoolGetNext_full {freeList : Nat → BitVec 32}
    (hset : ∀ m, m < pool.maxObjNum → bit freeList m = true) :
    pool.sharedPoolGetNext freeList = some (0, freeList) := by
  have hfuel : pool.maxObjNum / 32 - 0 + 2 ≤ pool.freeListSize + 3 := by
    unfold freeListSize FREE_ENTRY_SIZE
    omega
  obtain ⟨s', hs', hlist, howned⟩ := finish_full (s := State.moveTo (T := Unit)
    ⟨freeList, fun _ => .idle, fun _ => []⟩ () (.load 0 0)) (t := ()) hset (Nat.zero_le _)
    (State.moveTo_point_self _ _ _) hfuel
  rw [sharedPoolGetNext, callAlone_getNext, hs', Option.map_some, hlist, howned]
  rfl

/-! ## `shared_pool_free_entry` -/

/-- **`shared_pool_free_entry`** frees the slot that its entry points into. -/
theorem sharedPoolFreeEntry_add (freeList : Nat → BitVec 32) {k r : Nat} (hk : k < pool.maxObjNum)
    (hr : r < pool.typeSize) :
    pool.sharedPoolFreeEntry freeList (pool.entryAddr k + r) =
      some (true, BitTable.clear freeList k) := by
  obtain ⟨fuel, hfuel⟩ : ∃ fuel, pool.freeListSize + 3 = fuel + 3 := ⟨_, rfl⟩
  unfold sharedPoolFreeEntry callAlone
  rw [hfuel]
  simp [exec, sharedPoolGetIndex_add hk hr, finish, runPoint, atomicCmpxchgStrong, State.moveTo,
    State.store, State.setOwned, BitTable.clear, FREE_ENTRY_SIZE]

theorem sharedPoolFreeEntry_eq (freeList : Nat → BitVec 32) {k : Nat} (hk : k < pool.maxObjNum) :
    pool.sharedPoolFreeEntry freeList (pool.entryAddr k) = some (true, BitTable.clear freeList k) :=
  sharedPoolFreeEntry_add (r := 0) freeList hk pool.typeSize_pos

end SharedPool

end NowOS
