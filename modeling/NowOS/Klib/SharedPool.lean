import NowOS.Kdef
import NowOS.Lib.Runs
import NowOS.Lib.BitTable

set_option autoImplicit false

/-! # The shared pool (`klib/shared_pool.c`)

A pool of objects that any number of threads take from and give back to without a lock. The words of
`free_list` have a bit for each object that is in use; threads change them by compare-exchange only.

A thread is at a `Point` of the code. What it does between two atomic accesses to `free_list`
concerns only its own variables, so that an atomic step is a load or a compare-exchange together
with the local computation up to the next one. -/

namespace NowOS

/-- `FREE_ENTRY_SIZE`, the number of bits in a word of `free_list`. -/
def FREE_ENTRY_SIZE : Nat := 32

/-- `shared_pool_t` without `free_list`. `shared_pool_init` asserts that objects have a size, and it
fails if it gets no buffer. So there are less than 2^32 objects, and the counters below could wrap
around behind the last word of `free_list` only, where the search ends. -/
structure SharedPool where
  buf : Nat
  maxObjNum : Nat
  typeSize : Nat
  typeSize_pos : 1 ≤ typeSize
  buf_ne_null : buf ≠ 0
  fits : buf + maxObjNum * typeSize ≤ W32

namespace SharedPool

variable (pool : SharedPool)

/-- The number of words of `free_list`. -/
def freeListSize : Nat := pool.maxObjNum / FREE_ENTRY_SIZE + 1

/-! ## The functions of the source -/

/-- Where a thread is: outside of the functions of the pool, before the load of word `i` or the
compare-exchange for bit `j` of word `i` in `set_next_index`, between `set_next_index` and the end
of `shared_pool_get_next`, or before one of the two accesses of `shared_pool_free_entry`. -/
inductive Point
  | idle
  | load (i found : Nat)
  | cmpxchg (i j found : Nat) (freeMask : BitVec 32)
  | claimed (nextIndex : Nat)
  | freeLoad (entry index : Nat)
  | freeCmpxchg (entry index : Nat) (freeList : BitVec 32)
  deriving DecidableEq, Repr

/-- The head of the outer loop of `set_next_index`. At its end the function returns `MAX_INT` and
`shared_pool_get_next` returns `NULL`. -/
def outerLoop (i found : Nat) : Point := if i < pool.freeListSize then .load i found else .idle

/-- The inner loop of `set_next_index` up to the next compare-exchange, with `n` bits left. -/
def innerLoop (i : Nat) (freeMask : BitVec 32) : Nat → Nat → Nat → Point
  | 0, _, found => pool.outerLoop (i + 1) found
  | n + 1, j, found =>
      let tryMask := freeMask ||| 1#32 <<< j
      if pool.maxObjNum ≤ found then .idle
      else if tryMask = freeMask then innerLoop i freeMask n (j + 1) (found + 1)
      else .cmpxchg i j found freeMask

/-- `set_next_index` after the load of a word. -/
def afterLoad (i found : Nat) (freeMask : BitVec 32) : Point :=
  if freeMask = ~~~0#32 then pool.outerLoop (i + 1) (found + FREE_ENTRY_SIZE)
  else pool.innerLoop i freeMask FREE_ENTRY_SIZE 0 found

/-- `atomic_cmpxchg_strong_32`: whether it succeeds, the word in memory and the expected word
afterwards. -/
def atomicCmpxchgStrong (word expected desired : BitVec 32) : Bool × BitVec 32 × BitVec 32 :=
  if word = expected then (true, desired, expected) else (false, word, word)

/-- What `shared_pool_get_next` returns for an index. -/
def entryAddr (nextIndex : Nat) : Nat := add32 pool.buf (mul32 nextIndex pool.typeSize)

/-- `shared_pool_get_index`. -/
def sharedPoolGetIndex (entry : Nat) : Except String Nat :=
  if entry = 0 then .error "pool && entry"
  else
    let startByte := sub32 entry pool.buf
    if startByte ≤ mul32 pool.maxObjNum pool.typeSize then .ok (startByte / pool.typeSize)
    else .error "start_byte <= pool->max_obj_num * pool->type_size"

/-- `free_list`, the points of the threads and the entries that each of them owns: those that
`shared_pool_get_next` returned to it and that it has not freed since. -/
structure State (T : Type) where
  freeList : Nat → BitVec 32
  point : T → Point
  owned : T → List Nat

variable {T : Type}

/-- `free_list[i] = word`. -/
def State.store (s : State T) (i : Nat) (word : BitVec 32) : State T :=
  { s with freeList := Function.update s.freeList i word }

@[simp] theorem State.store_point (s : State T) (i : Nat) (word : BitVec 32) :
    (s.store i word).point = s.point := rfl

@[simp] theorem State.store_owned (s : State T) (i : Nat) (word : BitVec 32) :
    (s.store i word).owned = s.owned := rfl

/-- After `shared_pool_init`: `free_list` is cleared and no thread is in a function of the pool. -/
def Init (s : State T) : Prop :=
  (∀ i, i < pool.freeListSize → s.freeList i = 0#32) ∧ (∀ t, s.point t = .idle) ∧
    ∀ t, s.owned t = []

section

variable [DecidableEq T]

namespace State

def moveTo (s : State T) (t : T) (p : Point) : State T :=
  { s with point := Function.update s.point t p }

def setOwned (s : State T) (t : T) (entries : List Nat) : State T :=
  { s with owned := Function.update s.owned t entries }

@[simp] theorem moveTo_point_self (s : State T) (t : T) (p : Point) : (s.moveTo t p).point t = p :=
  Function.update_self _ _ _

theorem moveTo_point_of_ne (s : State T) {t t' : T} (h : t' ≠ t) (p : Point) :
    (s.moveTo t p).point t' = s.point t' :=
  Function.update_of_ne h _ _

@[simp] theorem moveTo_owned (s : State T) (t : T) (p : Point) :
    (s.moveTo t p).owned = s.owned := rfl

@[simp] theorem moveTo_freeList (s : State T) (t : T) (p : Point) :
    (s.moveTo t p).freeList = s.freeList := rfl

@[simp] theorem setOwned_owned_self (s : State T) (t : T) (entries : List Nat) :
    (s.setOwned t entries).owned t = entries :=
  Function.update_self _ _ _

theorem setOwned_owned_of_ne (s : State T) {t t' : T} (h : t' ≠ t) (entries : List Nat) :
    (s.setOwned t entries).owned t' = s.owned t' :=
  Function.update_of_ne h _ _

@[simp] theorem setOwned_point (s : State T) (t : T) (entries : List Nat) :
    (s.setOwned t entries).point = s.point := rfl

@[simp] theorem setOwned_freeList (s : State T) (t : T) (entries : List Nat) :
    (s.setOwned t entries).freeList = s.freeList := rfl

end State

/-- A thread calls `shared_pool_get_next`, calls `shared_pool_free_entry` with an entry that it
owns, or goes on. -/
inductive Action (T : Type)
  | getNext (t : T)
  | freeEntry (t : T) (entry : Nat)
  | run (t : T)
  deriving DecidableEq, Repr

/-- The next step of a thread. A failed assertion stops the kernel. -/
def runPoint (t : T) (s : State T) : Point → Option (State T)
  | .idle => none
  | .load i found => some (s.moveTo t (pool.afterLoad i found (s.freeList i)))
  | .cmpxchg i j found freeMask =>
      match atomicCmpxchgStrong (s.freeList i) freeMask (freeMask ||| 1#32 <<< j) with
      | (true, word, _) =>
          some ((s.store i word).moveTo t (.claimed (j + i * FREE_ENTRY_SIZE)))
      | (false, _, freeMask) =>
          -- `j` moves on and `found` does not
          some (s.moveTo t (pool.innerLoop i freeMask (FREE_ENTRY_SIZE - (j + 1)) (j + 1) found))
  | .claimed nextIndex =>
      if nextIndex < pool.maxObjNum then
        some ((s.moveTo t .idle).setOwned t (pool.entryAddr nextIndex :: s.owned t))
      else none
  | .freeLoad entry index =>
      some (s.moveTo t (.freeCmpxchg entry index (s.freeList (index / FREE_ENTRY_SIZE))))
  | .freeCmpxchg entry index freeList =>
      match atomicCmpxchgStrong (s.freeList (index / FREE_ENTRY_SIZE)) freeList
          (freeList &&& ~~~(1#32 <<< (index % FREE_ENTRY_SIZE))) with
      | (true, word, _) =>
          some (((s.store (index / FREE_ENTRY_SIZE) word).moveTo t .idle).setOwned t
            ((s.owned t).erase entry))
      | (false, _, _) => some (s.moveTo t .idle)

def exec : Action T → State T → Option (State T)
  | .getNext t, s => if s.point t = .idle then some (s.moveTo t (pool.outerLoop 0 0)) else none
  | .freeEntry t entry, s =>
      if s.point t = .idle ∧ entry ∈ s.owned t then
        match pool.sharedPoolGetIndex entry with
        | .error _ => none
        | .ok index => some (s.moveTo t (.freeLoad entry index))
      else none
  | .run t, s => pool.runPoint t s (s.point t)

def Step (a : Action T) (s s' : State T) : Prop := pool.exec a s = some s'

end

/-! ## Entries -/

variable {pool}

theorem entryAddr_eq {k : Nat} (hk : k < pool.maxObjNum) :
    pool.entryAddr k = pool.buf + k * pool.typeSize := by
  have hlt : (k + 1) * pool.typeSize ≤ pool.maxObjNum * pool.typeSize := Nat.mul_le_mul_right _ hk
  have hfits := pool.fits
  have hpos := pool.typeSize_pos
  rw [Nat.succ_mul] at hlt
  rw [entryAddr, mul32_of_lt (by omega), add32_of_lt (by omega)]

theorem entryAddr_inj {j k : Nat} (hj : j < pool.maxObjNum) (hk : k < pool.maxObjNum)
    (h : pool.entryAddr j = pool.entryAddr k) : j = k := by
  rw [entryAddr_eq hj, entryAddr_eq hk] at h
  exact Nat.eq_of_mul_eq_mul_right pool.typeSize_pos (Nat.add_left_cancel h)

/-- `shared_pool_get_index` for a pointer into a slot. -/
theorem sharedPoolGetIndex_add {k r : Nat} (hk : k < pool.maxObjNum) (hr : r < pool.typeSize) :
    pool.sharedPoolGetIndex (pool.entryAddr k + r) = .ok k := by
  have hnull := pool.buf_ne_null
  have hfits := pool.fits
  have hmul : mul32 pool.maxObjNum pool.typeSize = pool.maxObjNum * pool.typeSize :=
    mul32_of_lt (by omega)
  have hle : k * pool.typeSize + r ≤ pool.maxObjNum * pool.typeSize := by
    have hslot : (k + 1) * pool.typeSize ≤ pool.maxObjNum * pool.typeSize :=
      Nat.mul_le_mul_right _ hk
    rw [Nat.succ_mul] at hslot
    omega
  have hsub : sub32 (pool.buf + k * pool.typeSize + r) pool.buf = k * pool.typeSize + r := by
    rw [sub32_of_le (by omega), Nat.add_assoc, Nat.add_sub_cancel_left]
  have hdiv : (k * pool.typeSize + r) / pool.typeSize = k := by
    rw [Nat.add_comm, Nat.add_mul_div_right _ _ pool.typeSize_pos, Nat.div_eq_of_lt hr,
      Nat.zero_add]
  rw [sharedPoolGetIndex, entryAddr_eq hk, hsub, hmul, if_neg (by omega), if_pos hle, hdiv]

/-- `shared_pool_get_index` inverts what `shared_pool_get_next` computes. -/
theorem sharedPoolGetIndex_entryAddr {k : Nat} (hk : k < pool.maxObjNum) :
    pool.sharedPoolGetIndex (pool.entryAddr k) = .ok k :=
  sharedPoolGetIndex_add (r := 0) hk pool.typeSize_pos

/-! ## Bits -/

/-- Whether slot `k` is marked as used. -/
def bit (freeList : Nat → BitVec 32) (k : Nat) : Bool := BitTable.get freeList k

/-- A compare-exchange sets a bit. -/
theorem bit_store_or (s : State T) {i j : Nat} (hj : j < 32) (k : Nat) :
    bit (s.store i (s.freeList i ||| 1#32 <<< j)).freeList k =
      (bit s.freeList k || decide (k = j + i * FREE_ENTRY_SIZE)) := by
  have hdiv : (j + i * FREE_ENTRY_SIZE) / 32 = i := by
    unfold FREE_ENTRY_SIZE
    omega
  have hmod : (j + i * FREE_ENTRY_SIZE) % 32 = j := by
    unfold FREE_ENTRY_SIZE
    omega
  have hset := BitTable.get_set (by decide) s.freeList (j + i * FREE_ENTRY_SIZE) k
  rwa [BitTable.set, hdiv, hmod] at hset

/-- A compare-exchange clears a bit. -/
theorem bit_store_and_not (s : State T) (n k : Nat) :
    bit (s.store (n / FREE_ENTRY_SIZE)
        (s.freeList (n / FREE_ENTRY_SIZE) &&& ~~~(1#32 <<< (n % FREE_ENTRY_SIZE)))).freeList k =
      (bit s.freeList k && !decide (k = n)) :=
  BitTable.get_clear (by decide) s.freeList n k

/-! ## Points of a search -/

/-- The points to which the loops of `set_next_index` lead. A compare-exchange is tried for a bit
that was clear in the mask. -/
def Searching (pool : SharedPool) : Point → Prop
  | .idle => True
  | .load i _ => i < pool.freeListSize
  | .cmpxchg i j _ freeMask => i < pool.freeListSize ∧ j < 32 ∧ freeMask.getLsbD j = false
  | _ => False

theorem searching_outerLoop (i found : Nat) : Searching pool (pool.outerLoop i found) := by
  unfold outerLoop
  split
  next hi => exact hi
  next => trivial

theorem searching_innerLoop {i : Nat} (hi : i < pool.freeListSize) (freeMask : BitVec 32)
    {n j : Nat} (hn : n + j = 32)
    (found : Nat) : Searching pool (pool.innerLoop i freeMask n j found) := by
  induction n generalizing j found with
  | zero => exact searching_outerLoop _ _
  | succ n ih =>
      have hj : j < 32 := by omega
      simp only [innerLoop]
      split
      next => trivial
      next =>
        split
        next => exact ih (by omega) _
        next htry =>
          refine ⟨hi, hj, ?_⟩
          rw [or_bit_eq_self hj] at htry
          exact Bool.eq_false_iff.mpr htry

theorem searching_afterLoad {i : Nat} (hi : i < pool.freeListSize) (found : Nat)
    (freeMask : BitVec 32) :
    Searching pool (pool.afterLoad i found freeMask) := by
  unfold afterLoad
  split
  next => exact searching_outerLoop _ _
  next => exact searching_innerLoop hi freeMask rfl found

/-! ## Exclusive ownership -/

/-- Slot `k` is owned by the thread, or the thread has just claimed it. -/
def State.Holds (pool : SharedPool) (s : State T) (t : T) (k : Nat) : Prop :=
  s.point t = .claimed k ∨ (k < pool.maxObjNum ∧ pool.entryAddr k ∈ s.owned t)

/-- What is true of the point of a thread that owns `owned`. -/
def PointOk (pool : SharedPool) (owned : List Nat) : Point → Prop
  | .claimed k =>
      k < 32 * pool.freeListSize ∧ (k < pool.maxObjNum → pool.entryAddr k ∉ owned)
  | .freeLoad entry index => index < pool.maxObjNum ∧ entry = pool.entryAddr index ∧ entry ∈ owned
  | .freeCmpxchg entry index _ =>
      index < pool.maxObjNum ∧ entry = pool.entryAddr index ∧ entry ∈ owned
  | p => Searching pool p

theorem PointOk.of_searching {p : Point} (owned : List Nat) (h : Searching pool p) :
    PointOk pool owned p := by
  cases p with
  | idle => exact h
  | load i found => exact h
  | cmpxchg i j found freeMask => exact h
  | claimed k => exact absurd h id
  | freeLoad entry index => exact absurd h id
  | freeCmpxchg entry index freeList => exact absurd h id

/-- The bits that are set are the slots that are held, each by one thread and once. -/
structure Inv (pool : SharedPool) (s : State T) : Prop where
  held : ∀ k, k < 32 * pool.freeListSize → (bit s.freeList k = true ↔ ∃ t, s.Holds pool t k)
  unique : ∀ t t' k, s.Holds pool t k → s.Holds pool t' k → t = t'
  nodup : ∀ t, (s.owned t).Nodup
  entries : ∀ t e, e ∈ s.owned t → ∃ k, k < pool.maxObjNum ∧ e = pool.entryAddr k
  points : ∀ t, PointOk pool (s.owned t) (s.point t)

variable {s : State T} {t : T}

theorem inv_init (h : pool.Init s) : Inv pool s := by
  obtain ⟨hlist, hpoint, howned⟩ := h
  have hnone : ∀ t k, ¬ s.Holds pool t k := by
    rintro t k (hk | ⟨-, hk⟩)
    · rw [hpoint] at hk
      cases hk
    · rw [howned] at hk
      cases hk
  refine ⟨?_, ?_, ?_, ?_, ?_⟩
  · intro k hk
    have hclear : bit s.freeList k = false := by
      rw [bit, BitTable.get, hlist _ (Nat.div_lt_of_lt_mul hk), BitVec.getLsbD_zero]
    constructor
    · intro hbit
      rw [hclear] at hbit
      cases hbit
    · rintro ⟨t, ht⟩
      exact absurd ht (hnone t k)
  · intro t t' k hk
    exact absurd hk (hnone t k)
  · intro t
    rw [howned]
    exact List.nodup_nil
  · intro t e he
    rw [howned] at he
    cases he
  · intro t
    rw [howned, hpoint]
    trivial

/-- A slot whose bit is clear is held by no thread. -/
theorem Inv.not_holds (h : Inv pool s) {k : Nat} (hk : k < 32 * pool.freeListSize)
    (hbit : bit s.freeList k = false) (t : T) : ¬ s.Holds pool t k := by
  intro hholds
  rw [(h.held k hk).mpr ⟨t, hholds⟩] at hbit
  cases hbit

/-- A step of one thread changes nothing for the others: what is left to show is how the slots that
are held change, and what is true of the thread afterwards. -/
theorem Inv.of_thread (h : Inv pool s) {s' : State T}
    (hother : ∀ t', t' ≠ t → s'.point t' = s.point t' ∧ s'.owned t' = s.owned t')
    (hheld : ∀ k, k < 32 * pool.freeListSize → (bit s'.freeList k = true ↔ ∃ t, s'.Holds pool t k))
    (hunique : ∀ t t' k, s'.Holds pool t k → s'.Holds pool t' k → t = t')
    (hnodup : (s'.owned t).Nodup)
    (hentries : ∀ e ∈ s'.owned t, ∃ k, k < pool.maxObjNum ∧ e = pool.entryAddr k)
    (hpoint : PointOk pool (s'.owned t) (s'.point t)) : Inv pool s' := by
  refine ⟨hheld, hunique, ?_, ?_, ?_⟩
  · intro t'
    by_cases ht : t' = t
    · rw [ht]
      exact hnodup
    · rw [(hother t' ht).2]
      exact h.nodup t'
  · intro t' e he
    by_cases ht : t' = t
    · rw [ht] at he
      exact hentries e he
    · rw [(hother t' ht).2] at he
      exact h.entries t' e he
  · intro t'
    by_cases ht : t' = t
    · rw [ht]
      exact hpoint
    · rw [(hother t' ht).1, (hother t' ht).2]
      exact h.points t'

variable [DecidableEq T]

/-- A step that neither claims nor takes a slot. -/
theorem Inv.moveTo (h : Inv pool s) {p : Point} (hfrom : ∀ k, s.point t ≠ .claimed k)
    (hgoal : ∀ k, p ≠ .claimed k) (hp : PointOk pool (s.owned t) p) : Inv pool (s.moveTo t p) := by
  have hholds : ∀ t' k, (s.moveTo t p).Holds pool t' k ↔ s.Holds pool t' k := by
    intro t' k
    by_cases ht : t' = t
    · subst ht
      simp [State.Holds, hfrom k, hgoal k]
    · simp [State.Holds, State.moveTo_point_of_ne s ht]
  apply h.of_thread (t := t)
  · exact fun t' ht => ⟨State.moveTo_point_of_ne s ht p, rfl⟩
  · intro k hk
    simp only [hholds]
    exact h.held k hk
  · intro t₁ t₂ k h₁ h₂
    exact h.unique t₁ t₂ k ((hholds t₁ k).mp h₁) ((hholds t₂ k).mp h₂)
  · exact h.nodup t
  · exact h.entries t
  · rw [State.moveTo_point_self]
    exact hp

theorem Inv.search (h : Inv pool s) {p : Point} (hfrom : ∀ k, s.point t ≠ .claimed k)
    (hp : Searching pool p) : Inv pool (s.moveTo t p) := by
  apply h.moveTo hfrom
  · rintro k rfl
    exact hp
  · exact .of_searching _ hp

/-- A compare-exchange of `set_next_index` succeeds: the word is still the one in which the bit is
clear, so that no thread holds the slot. -/
theorem Inv.claim (h : Inv pool s) {i j found : Nat} {freeMask : BitVec 32}
    (hpoint : s.point t = .cmpxchg i j found freeMask) (hword : s.freeList i = freeMask) :
    Inv pool ((s.store i (freeMask ||| 1#32 <<< j)).moveTo t
      (.claimed (j + i * FREE_ENTRY_SIZE))) := by
  subst hword
  have hok := h.points t
  rw [hpoint] at hok
  obtain ⟨hi, hj, hclear⟩ := hok
  have hk : j + i * FREE_ENTRY_SIZE < 32 * pool.freeListSize := by
    unfold FREE_ENTRY_SIZE
    omega
  have hbit : bit s.freeList (j + i * FREE_ENTRY_SIZE) = false := by
    have hdiv : (j + i * FREE_ENTRY_SIZE) / 32 = i := by unfold FREE_ENTRY_SIZE; omega
    have hmod : (j + i * FREE_ENTRY_SIZE) % 32 = j := by unfold FREE_ENTRY_SIZE; omega
    rw [bit, BitTable.get, hdiv, hmod, hclear]
  have hfree := h.not_holds hk hbit
  generalize hslot : j + i * FREE_ENTRY_SIZE = k at *
  have hholds : ∀ t' k',
      ((s.store i (s.freeList i ||| 1#32 <<< j)).moveTo t (.claimed k)).Holds pool t' k' ↔
        s.Holds pool t' k' ∨ (t' = t ∧ k' = k) := by
    intro t' k'
    by_cases ht : t' = t
    · subst ht
      simp [State.Holds, hpoint, or_comm, eq_comm]
    · simp [State.Holds, State.moveTo_point_of_ne _ ht, ht]
  apply h.of_thread (t := t)
  · exact fun t' ht => ⟨State.moveTo_point_of_ne _ ht _, rfl⟩
  · intro k' hk'
    rw [State.moveTo_freeList, bit_store_or _ hj, hslot, Bool.or_eq_true, decide_eq_true_eq,
      h.held k' hk']
    simp only [hholds, exists_or, exists_and_right, exists_eq, true_and]
  · intro t₁ t₂ k' h₁ h₂
    rw [hholds] at h₁ h₂
    rcases h₁ with h₁ | ⟨rfl, rfl⟩ <;> rcases h₂ with h₂ | ⟨rfl, hkk⟩
    · exact h.unique _ _ _ h₁ h₂
    · exact absurd (hkk ▸ h₁) (hfree _)
    · exact absurd h₂ (hfree _)
    · rfl
  · exact h.nodup t
  · exact h.entries t
  · rw [State.moveTo_point_self]
    exact ⟨hk, fun hlt hmem => hfree _ (Or.inr ⟨hlt, hmem⟩)⟩

/-- `shared_pool_get_next` returns the slot that was claimed. -/
theorem Inv.take (h : Inv pool s) {k : Nat} (hpoint : s.point t = .claimed k)
    (hk : k < pool.maxObjNum) :
    Inv pool ((s.moveTo t .idle).setOwned t (pool.entryAddr k :: s.owned t)) := by
  have hok := h.points t
  rw [hpoint] at hok
  have hholds : ∀ t' k', ((s.moveTo t .idle).setOwned t (pool.entryAddr k :: s.owned t)).Holds pool
      t' k' ↔ s.Holds pool t' k' := by
    intro t' k'
    by_cases ht : t' = t
    · subst ht
      simp only [State.Holds, State.setOwned_point, State.moveTo_point_self, reduceCtorEq, false_or,
        State.setOwned_owned_self, List.mem_cons, hpoint, Point.claimed.injEq]
      constructor
      · rintro ⟨hk', heq | hmem⟩
        · exact Or.inl (entryAddr_inj hk' hk heq).symm
        · exact Or.inr ⟨hk', hmem⟩
      · rintro (rfl | ⟨hk', hmem⟩)
        · exact ⟨hk, Or.inl rfl⟩
        · exact ⟨hk', Or.inr hmem⟩
    · simp [State.Holds, State.moveTo_point_of_ne _ ht, State.setOwned_owned_of_ne _ ht]
  apply h.of_thread (t := t)
  · exact fun t' ht => ⟨State.moveTo_point_of_ne _ ht _, State.setOwned_owned_of_ne _ ht _⟩
  · intro k' hk'
    simp only [hholds]
    exact h.held k' hk'
  · intro t₁ t₂ k' h₁ h₂
    exact h.unique t₁ t₂ k' ((hholds t₁ k').mp h₁) ((hholds t₂ k').mp h₂)
  · rw [State.setOwned_owned_self]
    exact List.nodup_cons.mpr ⟨hok.2 hk, h.nodup t⟩
  · intro e he
    rw [State.setOwned_owned_self] at he
    rcases List.mem_cons.mp he with rfl | he
    · exact ⟨k, hk, rfl⟩
    · exact h.entries t e he
  · rw [State.setOwned_point, State.moveTo_point_self]
    trivial

/-- The compare-exchange of `shared_pool_free_entry` succeeds. Only the thread holds the slot, also
if the word has changed and changed back since it was loaded. -/
theorem Inv.release (h : Inv pool s) {entry k : Nat} {word : BitVec 32}
    (hpoint : s.point t = .freeCmpxchg entry k word)
    (hword : s.freeList (k / FREE_ENTRY_SIZE) = word) :
    Inv pool (((s.store (k / FREE_ENTRY_SIZE)
      (word &&& ~~~(1#32 <<< (k % FREE_ENTRY_SIZE)))).moveTo t .idle).setOwned t
        ((s.owned t).erase entry)) := by
  subst hword
  have hok := h.points t
  rw [hpoint] at hok
  obtain ⟨hk, rfl, hmem⟩ := hok
  have hmine : s.Holds pool t k := Or.inr ⟨hk, hmem⟩
  have hholds : ∀ t' k', (((s.store (k / FREE_ENTRY_SIZE)
      (s.freeList (k / FREE_ENTRY_SIZE) &&& ~~~(1#32 <<< (k % FREE_ENTRY_SIZE)))).moveTo t
        .idle).setOwned t ((s.owned t).erase (pool.entryAddr k))).Holds pool t' k' ↔
      s.Holds pool t' k' ∧ k' ≠ k := by
    intro t' k'
    by_cases ht : t' = t
    · subst ht
      simp only [State.Holds, State.setOwned_point, State.moveTo_point_self, reduceCtorEq, false_or,
        State.setOwned_owned_self, (h.nodup t').mem_erase_iff, hpoint]
      constructor
      · rintro ⟨hk', hne, hin⟩
        exact ⟨⟨hk', hin⟩, fun heq => hne (by rw [heq])⟩
      · rintro ⟨⟨hk', hin⟩, hne⟩
        exact ⟨hk', fun heq => hne (entryAddr_inj hk' hk heq), hin⟩
    · have hother : s.Holds pool t' k' → k' ≠ k := by
        rintro hk' rfl
        exact ht (h.unique t' t k' hk' hmine)
      simp only [State.Holds, State.setOwned_point, State.moveTo_point_of_ne _ ht,
        State.setOwned_owned_of_ne _ ht] at hother ⊢
      exact ⟨fun hk' => ⟨hk', hother hk'⟩, fun hk' => hk'.1⟩
  apply h.of_thread (t := t)
  · exact fun t' ht => ⟨State.moveTo_point_of_ne _ ht _, State.setOwned_owned_of_ne _ ht _⟩
  · intro k' hk'
    rw [State.setOwned_freeList, State.moveTo_freeList, bit_store_and_not, Bool.and_eq_true,
      h.held k' hk', Bool.not_eq_true', decide_eq_false_iff_not]
    simp only [hholds, exists_and_right, ne_eq]
  · intro t₁ t₂ k' h₁ h₂
    exact h.unique t₁ t₂ k' ((hholds t₁ k').mp h₁).1 ((hholds t₂ k').mp h₂).1
  · rw [State.setOwned_owned_self]
    exact (h.nodup t).erase _
  · intro e he
    rw [State.setOwned_owned_self] at he
    exact h.entries t e (List.mem_of_mem_erase he)
  · rw [State.setOwned_point, State.moveTo_point_self]
    trivial

/-- A step of a thread inside of a function of the pool. -/
theorem Inv.run (h : Inv pool s) {p : Point} (hpoint : s.point t = p) {s' : State T}
    (hs : pool.runPoint t s p = some s') : Inv pool s' := by
  have hok := h.points t
  rw [hpoint] at hok
  cases p with
  | idle => cases hs
  | load i found =>
      cases hs
      apply h.search (by rw [hpoint]; rintro k ⟨⟩)
      exact searching_afterLoad hok _ _
  | cmpxchg i j found freeMask =>
      simp only [runPoint, atomicCmpxchgStrong] at hs
      by_cases hword : s.freeList i = freeMask
      · rw [if_pos hword] at hs
        cases hs
        exact h.claim hpoint hword
      · rw [if_neg hword] at hs
        cases hs
        apply h.search (by rw [hpoint]; rintro k ⟨⟩)
        have hj : j < 32 := hok.2.1
        apply searching_innerLoop hok.1
        unfold FREE_ENTRY_SIZE
        omega
  | claimed k =>
      simp only [runPoint] at hs
      split at hs
      next hk =>
        cases hs
        exact h.take hpoint hk
      next => cases hs
  | freeLoad entry index =>
      cases hs
      apply h.moveTo (by rw [hpoint]; rintro k ⟨⟩)
      · rintro k ⟨⟩
      · exact hok
  | freeCmpxchg entry index word =>
      simp only [runPoint, atomicCmpxchgStrong] at hs
      by_cases hword : s.freeList (index / FREE_ENTRY_SIZE) = word
      · rw [if_pos hword] at hs
        cases hs
        exact h.release hpoint hword
      · rw [if_neg hword] at hs
        cases hs
        exact h.search (by rw [hpoint]; rintro k ⟨⟩) trivial

theorem Inv.step (h : Inv pool s) {a : Action T} {s' : State T} (hs : pool.Step a s s') :
    Inv pool s' := by
  cases a with
  | getNext t =>
      simp only [Step, exec] at hs
      split at hs
      next hidle =>
        cases hs
        exact h.search (by rw [hidle]; rintro k ⟨⟩) (searching_outerLoop 0 0)
      next => cases hs
  | freeEntry t entry =>
      simp only [Step, exec] at hs
      split at hs
      next hfree =>
        obtain ⟨hidle, hmem⟩ := hfree
        obtain ⟨k, hk, rfl⟩ := h.entries t entry hmem
        rw [sharedPoolGetIndex_entryAddr hk] at hs
        cases hs
        apply h.moveTo (by rw [hidle]; rintro k ⟨⟩)
        · rintro k ⟨⟩
        · exact ⟨hk, rfl, hmem⟩
      next => cases hs
  | run t => exact h.run rfl hs

/-- **Exclusive ownership.** However the steps of the threads interleave, the bits of `free_list`
that are set are the slots that a thread owns or has just claimed, and no slot is held by two
threads or twice by one. -/
theorem exclusive_ownership (hr : Reach pool.Init pool.Step s) :
    (∀ k, k < FREE_ENTRY_SIZE * pool.freeListSize →
        (bit s.freeList k = true ↔ ∃ t, s.Holds pool t k)) ∧
      (∀ t t' k, s.Holds pool t k → s.Holds pool t' k → t = t') ∧
      ∀ t, (s.owned t).Nodup ∧
        ∀ k, s.point t = .claimed k → k < pool.maxObjNum → pool.entryAddr k ∉ s.owned t := by
  have h : Inv pool s := by
    apply hr.invariant (I := Inv pool)
    · intro s hinit
      exact inv_init hinit
    · intro a s s' h hs
      exact h.step hs
  refine ⟨h.held, h.unique, fun t => ⟨h.nodup t, ?_⟩⟩
  intro k hpoint
  have hok := h.points t
  rw [hpoint] at hok
  exact hok.2

/-- A pool of words in the kernel heap. -/
def wordPool (maxObjNum : Nat) (h : maxObjNum ≤ 1024) : SharedPool where
  buf := 0xC0130000
  maxObjNum := maxObjNum
  typeSize := 4
  typeSize_pos := by decide
  buf_ne_null := by decide
  fits := by unfold W32; omega

def singlePool : SharedPool := wordPool 1 (by decide)

def pairPool : SharedPool := wordPool 2 (by decide)

/-- Two threads, both outside, and nothing in use. -/
def twoThreads : State Bool := ⟨fun _ => 0#32, fun _ => .idle, fun _ => []⟩

theorem reach_twoThreads {pool : SharedPool} {actions : List (Action Bool)} {s : State Bool}
    (h : runList pool.exec actions twoThreads = some s) : Reach pool.Init pool.Step s :=
  reach_runList (fun _ _ _ hs => hs) (.start ⟨fun _ _ => rfl, fun _ => rfl, fun _ => rfl⟩) h

/-- Both threads try for slot 0, one fails and gets slot 1, the other frees slot 0 again. -/
theorem exclusive_ownership_contention :
    ∃ s, runList pairPool.exec [.getNext true, .getNext false, .run true, .run false, .run true,
        .run false, .run true, .run false, .run false, .freeEntry true 0xC0130000, .run true,
        .run true] twoThreads = some s ∧
      (s.owned false = [0xC0130004] ∧ s.owned true = []) ∧
      ∀ t t' k, s.Holds pairPool t k → s.Holds pairPool t' k → t = t' := by
  have hrun : (runList pairPool.exec [.getNext true, .getNext false, .run true, .run false,
      .run true, .run false, .run true, .run false, .run false, .freeEntry true 0xC0130000,
      .run true, .run true] twoThreads).any
        (fun s => decide (s.owned false = [0xC0130004] ∧ s.owned true = [])) = true := by
    decide +kernel
  obtain ⟨s, hs, howned⟩ := (Option.any_eq_true _ _).1 hrun
  exact ⟨s, hs, of_decide_eq_true howned, (exclusive_ownership (reach_twoThreads hs)).2.1⟩

/-! ## The bound -/

/-- While `found` keeps up with the position of the bit, the search stays below the number of
objects. -/
def Counted (pool : SharedPool) : Point → Prop
  | .load i found => found = 32 * i
  | .cmpxchg i j found _ => found = 32 * i + j ∧ found < pool.maxObjNum
  | .claimed k => k < pool.maxObjNum
  | _ => True

theorem counted_outerLoop {i found : Nat} (h : found = 32 * i) :
    Counted pool (pool.outerLoop i found) := by
  unfold outerLoop
  split
  next => exact h
  next => trivial

theorem counted_innerLoop {i : Nat} (freeMask : BitVec 32) {n j found : Nat} (hn : n + j = 32)
    (hfound : found = 32 * i + j) : Counted pool (pool.innerLoop i freeMask n j found) := by
  induction n generalizing j found with
  | zero => exact counted_outerLoop (by omega)
  | succ n ih =>
      simp only [innerLoop]
      split
      next => trivial
      next hlt =>
        split
        next => exact ih (by omega) (by omega)
        next => exact ⟨hfound, Nat.lt_of_not_le hlt⟩

theorem counted_afterLoad {i found : Nat} (h : found = 32 * i) (freeMask : BitVec 32) :
    Counted pool (pool.afterLoad i found freeMask) := by
  unfold afterLoad
  split
  next => exact counted_outerLoop (by unfold FREE_ENTRY_SIZE; omega)
  next => exact counted_innerLoop freeMask rfl (by omega)

/-- The word is the one that a compare-exchange of `set_next_index` expects. -/
def Expected (freeList : Nat → BitVec 32) : Point → Prop
  | .cmpxchg i _ _ freeMask => freeList i = freeMask
  | _ => True

instance (freeList : Nat → BitVec 32) : ∀ p : Point, Decidable (Expected freeList p)
  | .cmpxchg i _ _ freeMask => inferInstanceAs (Decidable (freeList i = freeMask))
  | .idle => inferInstanceAs (Decidable True)
  | .load _ _ => inferInstanceAs (Decidable True)
  | .claimed _ => inferInstanceAs (Decidable True)
  | .freeLoad _ _ => inferInstanceAs (Decidable True)
  | .freeCmpxchg _ _ _ => inferInstanceAs (Decidable True)

/-- A compare-exchange of `set_next_index` finds the word that it expects. -/
def Uncontended : Action T → State T → Prop
  | .run t, s => Expected s.freeList (s.point t)
  | _, _ => True

instance : ∀ (a : Action T) (s : State T), Decidable (Uncontended a s)
  | .run t, s => inferInstanceAs (Decidable (Expected s.freeList (s.point t)))
  | .getNext _, _ => inferInstanceAs (Decidable True)
  | .freeEntry _ _, _ => inferInstanceAs (Decidable True)

/-- The threads count right, and no bit from the number of objects on is set. -/
structure Bounded (pool : SharedPool) (s : State T) : Prop where
  counted : ∀ t, Counted pool (s.point t)
  bits : ∀ k, k < FREE_ENTRY_SIZE * pool.freeListSize → bit s.freeList k = true → k < pool.maxObjNum

theorem Bounded.moveTo (h : Bounded pool s) {p : Point} (hp : Counted pool p) :
    Bounded pool (s.moveTo t p) := by
  refine ⟨?_, h.bits⟩
  intro t'
  by_cases ht : t' = t
  · subst ht
    rw [State.moveTo_point_self]
    exact hp
  · rw [State.moveTo_point_of_ne s ht]
    exact h.counted t'

theorem Bounded.run (h : Bounded pool s) (hinv : Inv pool s) {p : Point} (hpoint : s.point t = p)
    (hgood : Expected s.freeList p) {s' : State T} (hs : pool.runPoint t s p = some s') :
    Bounded pool s' := by
  have hcount := h.counted t
  have hok := hinv.points t
  rw [hpoint] at hcount hok
  cases p with
  | idle => cases hs
  | load i found =>
      cases hs
      exact h.moveTo (counted_afterLoad hcount _)
  | cmpxchg i j found freeMask =>
      have hword : s.freeList i = freeMask := hgood
      subst hword
      simp only [runPoint, atomicCmpxchgStrong, if_true] at hs
      cases hs
      have hslot : j + i * FREE_ENTRY_SIZE < pool.maxObjNum := by
        have hfound := hcount.1
        have hlt := hcount.2
        unfold FREE_ENTRY_SIZE
        omega
      have hstore : Bounded pool (s.store i (s.freeList i ||| 1#32 <<< j)) := by
        refine ⟨h.counted, ?_⟩
        intro k hk hbit
        rw [bit_store_or _ hok.2.1, Bool.or_eq_true, decide_eq_true_eq] at hbit
        rcases hbit with hold | rfl
        · exact h.bits k hk hold
        · exact hslot
      exact hstore.moveTo hslot
  | claimed k =>
      simp only [runPoint] at hs
      split at hs
      next =>
        cases hs
        have hidle : Bounded pool (s.moveTo t .idle) := h.moveTo trivial
        exact ⟨hidle.counted, hidle.bits⟩
      next => cases hs
  | freeLoad entry index =>
      cases hs
      exact h.moveTo trivial
  | freeCmpxchg entry index word =>
      simp only [runPoint, atomicCmpxchgStrong] at hs
      by_cases hword : s.freeList (index / FREE_ENTRY_SIZE) = word
      · subst hword
        rw [if_pos rfl] at hs
        cases hs
        have hidle : Bounded pool (s.moveTo t .idle) := h.moveTo trivial
        refine ⟨hidle.counted, ?_⟩
        intro k hk hbit
        rw [State.setOwned_freeList, State.moveTo_freeList, bit_store_and_not,
          Bool.and_eq_true] at hbit
        exact h.bits k hk hbit.1
      · rw [if_neg hword] at hs
        cases hs
        exact h.moveTo trivial

theorem Bounded.step (h : Bounded pool s) (hinv : Inv pool s) {a : Action T} {s' : State T}
    (hs : Guarded Uncontended pool.Step a s s') : Bounded pool s' := by
  obtain ⟨hgood, hstep⟩ := hs
  cases a with
  | getNext t =>
      simp only [Step, exec] at hstep
      split at hstep
      next =>
        cases hstep
        exact h.moveTo (counted_outerLoop rfl)
      next => cases hstep
  | freeEntry t entry =>
      simp only [Step, exec] at hstep
      split at hstep
      next =>
        split at hstep
        next => cases hstep
        next =>
          cases hstep
          exact h.moveTo trivial
      next => cases hstep
  | run t => exact h.run hinv rfl hgood hstep

/-- **The bound of the pool.** In every run in which each compare-exchange of `set_next_index` finds
the word that it expects, `set_next_index` returns and marks only slots below the number of objects,
so that the assertion of `shared_pool_get_next` holds. -/
theorem pool_bound (hr : Reach pool.Init (Guarded Uncontended pool.Step) s) :
    (∀ t k, s.point t = .claimed k → k < pool.maxObjNum) ∧
      ∀ k, k < FREE_ENTRY_SIZE * pool.freeListSize → bit s.freeList k = true →
        k < pool.maxObjNum := by
  have h : Inv pool s ∧ Bounded pool s := by
    apply hr.invariant (I := fun s => Inv pool s ∧ Bounded pool s)
    · intro s hinit
      have hinv := inv_init hinit
      refine ⟨hinv, ?_, ?_⟩
      · intro t
        rw [hinit.2.1 t]
        trivial
      · intro k hk hbit
        obtain ⟨t, hclaimed | ⟨hlt, -⟩⟩ := (hinv.held k hk).mp hbit
        · rw [hinit.2.1 t] at hclaimed
          cases hclaimed
        · exact hlt
    · rintro a s s' ⟨hinv, hbound⟩ hs
      exact ⟨hinv.step hs.2, hbound.step hinv hs⟩
  refine ⟨?_, h.2.bits⟩
  intro t k hpoint
  have hcount := h.2.counted t
  rw [hpoint] at hcount
  exact hcount

/-- One thread after the other takes a slot. -/
theorem pool_bound_pair :
    ∃ s, runList (fun a s => if Uncontended a s then pairPool.exec a s else none)
        [.getNext true, .run true, .run true, .run true, .getNext false, .run false, .run false]
        twoThreads = some s ∧
      s.point false = .claimed 1 ∧ ∀ t k, s.point t = .claimed k → k < 2 := by
  have hrun : (runList (fun a s => if Uncontended a s then pairPool.exec a s else none)
      [.getNext true, .run true, .run true, .run true, .getNext false, .run false, .run false]
      twoThreads).any (fun s => decide (s.point false = .claimed 1)) = true := by
    decide +kernel
  obtain ⟨s, hs, hlast⟩ := (Option.any_eq_true _ _).1 hrun
  have hreach : Reach pairPool.Init (Guarded Uncontended pairPool.Step) s := by
    refine reach_runList ?_ (.start ⟨fun _ _ => rfl, fun _ => rfl, fun _ => rfl⟩) hs
    intro a s s' h
    split at h
    next hgood => exact ⟨hgood, h⟩
    next => cases h
  exact ⟨s, hs, of_decide_eq_true hlast, (pool_bound hreach).1⟩

/-- In a pool of one object, a thread whose compare-exchange fails goes on with bit 1 but has not
counted bit 0. -/
theorem pool_bound_exceeded :
    ∃ s, runList singlePool.exec
        [.getNext true, .getNext false, .run true, .run false, .run true, .run false, .run false]
        twoThreads = some s ∧
      Reach singlePool.Init singlePool.Step s ∧
      s.point false = .claimed 1 ∧ bit s.freeList 1 = true ∧ singlePool.maxObjNum = 1 := by
  have hrun : (runList singlePool.exec
      [.getNext true, .getNext false, .run true, .run false, .run true, .run false, .run false]
      twoThreads).any (fun s => decide (s.point false = .claimed 1 ∧ bit s.freeList 1 = true)) =
        true := by
    decide +kernel
  obtain ⟨s, hs, hlast⟩ := (Option.any_eq_true _ _).1 hrun
  obtain ⟨hpoint, hbit⟩ := of_decide_eq_true hlast
  exact ⟨s, hs, reach_twoThreads hs, hpoint, hbit, rfl⟩

end SharedPool

end NowOS
