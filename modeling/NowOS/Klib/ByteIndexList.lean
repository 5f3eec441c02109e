import NowOS.Lib.Word32
import NowOS.Lib.Runs
import NowOS.Lib.BitTable

set_option autoImplicit false

/-! # The byte index list (`klib/byte_index_list.c`)

A table of bits, eight of them in each byte. A bit that is set is a slot in use. `free_ptr` is a
byte before which all bytes are `0xFF`; `byte_index_get_free_slot` moves it up when it has to, and
`byte_index_release_tbl` moves it down. Slots are numbered by 32-bit words.

The table is a function from byte numbers to contents: what follows the base pointer in memory.
`freePtr` is the number of the byte that `free_ptr` points to. -/

namespace NowOS

/-- `byte_index_list_t`. The lock plays no part in the sequential behaviour. -/
structure ByteIndexList where
  array : Nat → BitVec 8
  size : Nat
  freePtr : Nat

namespace ByteIndexList

/-! ## The functions of the source -/

/-- `init_byte_index_list`. -/
def initByteIndexList (array : Nat → BitVec 8) (size : Nat) : ByteIndexList := ⟨array, size, 0⟩

/-- The loop of `update_free_ptr`, with `n` bytes left up to the end of the table. -/
def scanFree (array : Nat → BitVec 8) : Nat → Nat → Option Nat
  | 0, _ => none
  | n + 1, freePtr =>
      if array freePtr ≠ 0xFF#8 then some freePtr else scanFree array n (freePtr + 1)

/-- `update_free_ptr`. -/
def updateFreePtr (list : ByteIndexList) : Except String ByteIndexList :=
  match scanFree list.array (list.size - list.freePtr) list.freePtr with
  | some freePtr => .ok { list with freePtr := freePtr }
  | none => .error "WE COULDNT FIND ANY MORE FREE SPACE"

/-- `byte_index_set_tbl`. -/
def byteIndexSetTbl (index : Nat) (list : ByteIndexList) : ByteIndexList :=
  { list with
    array := Function.update list.array (index / 8)
      (list.array (index / 8) ||| 1#8 <<< (index % 8)) }

/-- `byte_index_release_tbl`. -/
def byteIndexReleaseTbl (index : Nat) (list : ByteIndexList) : ByteIndexList :=
  { list with
    freePtr := if index / 8 < list.freePtr then index / 8 else list.freePtr
    array := Function.update list.array (index / 8)
      (list.array (index / 8) &&& ~~~(1#8 <<< (index % 8))) }

/-- `byte_index_check_tbl`. -/
def byteIndexCheckTbl (index : Nat) (list : ByteIndexList) : Nat :=
  ((list.array (index / 8) &&& 1#8 <<< (index % 8)) >>> (index % 8)).toNat

/-- The loop of `byte_index_get_free_slot` over the bits of a byte. -/
def findClearBit (entry : BitVec 8) : Option Nat :=
  (List.range 8).find? fun i => entry &&& 1#8 <<< i == 0#8

/-- `byte_index_get_free_slot` from where `free_ptr` has been brought up to date. -/
def takeSlot (list : ByteIndexList) : Except String (Nat × ByteIndexList) :=
  if list.array list.freePtr = 0xFF#8 then .error "MEM_TBL NOT FREE???"
  else
    match findClearBit (list.array list.freePtr) with
    | none => .error "BYTE_INDEX NOT SET"
    | some byteIndex =>
        let ret := add32 (mul32 list.freePtr 8) byteIndex
        .ok (ret, list.byteIndexSetTbl ret)

/-- `byte_index_get_free_slot`. -/
def byteIndexGetFreeSlot (list : ByteIndexList) : Except String (Nat × ByteIndexList) :=
  if list.array list.freePtr = 0xFF#8 then
    match list.updateFreePtr with
    | .error e => .error e
    | .ok list => list.takeSlot
  else list.takeSlot

/-! ## Bits -/

/-- Bit `i` of the table. -/
def bit (list : ByteIndexList) (i : Nat) : Bool := (list.array (i / 8)).getLsbD (i % 8)

theorem full_iff (entry : BitVec 8) : entry = 0xFF#8 ↔ ∀ i, i < 8 → entry.getLsbD i = true :=
  eq_allOnes_iff

@[simp] theorem bit_byteIndexSetTbl (list : ByteIndexList) (i j : Nat) :
    (list.byteIndexSetTbl i).bit j = (list.bit j || decide (j = i)) :=
  BitTable.get_set (by decide) list.array i j

@[simp] theorem bit_byteIndexReleaseTbl (list : ByteIndexList) (i j : Nat) :
    (list.byteIndexReleaseTbl i).bit j = (list.bit j && !decide (j = i)) :=
  BitTable.get_clear (by decide) list.array i j

/-- `byte_index_check_tbl` reads the bit. -/
theorem byteIndexCheckTbl_eq (list : ByteIndexList) (i : Nat) :
    list.byteIndexCheckTbl i = if list.bit i then 1 else 0 := by
  have hlt : i % 8 < 8 := Nat.mod_lt _ (by omega)
  unfold byteIndexCheckTbl bit
  generalize list.array (i / 8) = entry
  generalize i % 8 = k at hlt
  have hshift : (entry &&& 1#8 <<< k) >>> k = if entry.getLsbD k then 1#8 else 0#8 := by
    apply BitVec.eq_of_getLsbD_eq
    intro j hj
    rw [BitVec.getLsbD_ushiftRight, BitVec.getLsbD_and]
    by_cases hjk : k + j < 8
    · rw [getLsbD_one_shiftLeft hjk]
      by_cases hj0 : j = 0
      · subst hj0
        cases entry.getLsbD k <;> simp
      · cases entry.getLsbD k <;> simp [hj0, BitVec.getLsbD_one]
    · have hj0 : j ≠ 0 := by omega
      rw [BitVec.getLsbD_of_ge entry _ (by omega)]
      cases entry.getLsbD k <;> simp [hj0, BitVec.getLsbD_one]
  rw [hshift]
  cases entry.getLsbD k <;> rfl

/-! ## The search -/

theorem scanFree_some {array : Nat → BitVec 8} {n p q : Nat} (h : scanFree array n p = some q) :
    p ≤ q ∧ q < p + n ∧ array q ≠ 0xFF#8 ∧ ∀ k, p ≤ k → k < q → array k = 0xFF#8 := by
  induction n generalizing p with
  | zero => cases h
  | succ n ih =>
      rw [scanFree] at h
      split at h
      next hne =>
        cases h
        exact ⟨Nat.le_refl _, by omega, hne, fun k h1 h2 => by omega⟩
      next heq =>
        rw [not_not] at heq
        obtain ⟨hle, hlt, hne, hfull⟩ := ih h
        refine ⟨by omega, by omega, hne, ?_⟩
        intro k h1 h2
        by_cases hk : k = p
        · rw [hk, heq]
        · exact hfull k (by omega) h2

theorem scanFree_none {array : Nat → BitVec 8} {n p : Nat} (h : scanFree array n p = none) :
    ∀ k, p ≤ k → k < p + n → array k = 0xFF#8 := by
  induction n generalizing p with
  | zero => intro k h1 h2; omega
  | succ n ih =>
      rw [scanFree] at h
      split at h
      next => cases h
      next heq =>
        rw [not_not] at heq
        intro k h1 h2
        by_cases hk : k = p
        · rw [hk, heq]
        · exact ih h k (by omega) (by omega)

/-- The first byte that is not full is found. -/
theorem scanFree_eq {array : Nat → BitVec 8} {n p q : Nat} (hle : p ≤ q) (hlt : q < p + n)
    (hfull : ∀ k, p ≤ k → k < q → array k = 0xFF#8) (hne : array q ≠ 0xFF#8) :
    scanFree array n p = some q := by
  cases hscan : scanFree array n p with
  | none => exact absurd (scanFree_none hscan q hle hlt) hne
  | some r =>
      obtain ⟨hpr, -, hr, hbetween⟩ := scanFree_some hscan
      -- neither of the two can come before the other
      rcases Nat.lt_trichotomy r q with hrq | rfl | hqr
      · exact absurd (hfull r hpr hrq) hr
      · rfl
      · exact absurd (hbetween q hle hqr) hne

/-- A byte that is not full has a lowest clear bit, and that is the one that is found. -/
theorem findClearBit_spec {entry : BitVec 8} (h : entry ≠ 0xFF#8) :
    ∃ i, findClearBit entry = some i ∧ i < 8 ∧ entry.getLsbD i = false ∧
      ∀ j, j < i → entry.getLsbD j = true := by
  cases hfind : findClearBit entry with
  | none =>
      exfalso
      apply h
      rw [full_iff]
      intro i hi
      have hnone := List.find?_eq_none.mp hfind i (List.mem_range.mpr hi)
      rw [beq_iff_eq, and_bit_eq_zero hi, Bool.not_eq_false] at hnone
      exact hnone
  | some i =>
      obtain ⟨hi, k, hk, hik, hmin⟩ := List.find?_eq_some_iff_getElem.mp hfind
      have hlen : k < 8 := by simpa using hk
      rw [List.getElem_range] at hik
      subst hik
      rw [beq_iff_eq, and_bit_eq_zero hlen] at hi
      refine ⟨_, rfl, hlen, hi, ?_⟩
      intro j hj
      have hset := hmin j hj
      rw [List.getElem_range, Bool.not_eq_true', beq_eq_false_iff_ne, ne_eq,
        and_bit_eq_zero (by omega), Bool.not_eq_false] at hset
      exact hset

/-! ## The invariant and the allocation of a slot -/

/-- Every byte before `free_ptr` is full, and `free_ptr` is in the table. -/
structure Inv (list : ByteIndexList) : Prop where
  full : ∀ k, k < list.freePtr → list.array k = 0xFF#8
  inside : list.freePtr < list.size

theorem bit_of_full {list : ByteIndexList} {i : Nat} (h : list.array (i / 8) = 0xFF#8) :
    list.bit i = true := by
  unfold bit
  rw [(full_iff _).mp h]
  exact Nat.mod_lt _ (by omega)

theorem inv_init (array : Nat → BitVec 8) {size : Nat} (h : 1 ≤ size) :
    Inv (initByteIndexList array size) where
  full _ hk := absurd hk (Nat.not_lt_zero _)
  inside := h

theorem Inv.setTbl {list : ByteIndexList} (h : Inv list) (i : Nat) :
    Inv (list.byteIndexSetTbl i) where
  full k hk := by
    rw [full_iff]
    intro b hb
    have hbit := bit_byteIndexSetTbl list i (8 * k + b)
    have hfull := bit_of_full (i := 8 * k + b) ((show (8 * k + b) / 8 = k by omega) ▸ h.full k hk)
    rw [hfull, Bool.true_or] at hbit
    simpa [bit, show (8 * k + b) / 8 = k by omega, show (8 * k + b) % 8 = b by omega] using hbit
  inside := h.inside

theorem Inv.releaseTbl {list : ByteIndexList} (h : Inv list) (i : Nat) :
    Inv (list.byteIndexReleaseTbl i) where
  full k hk := by
    simp only [byteIndexReleaseTbl] at hk ⊢
    have hlt : k < list.freePtr ∧ k ≠ i / 8 := by
      split at hk
      · omega
      · omega
    rw [Function.update_of_ne hlt.2]
    exact h.full k hlt.1
  inside := by
    have hin := h.inside
    simp only [byteIndexReleaseTbl]
    split
    · omega
    · exact hin

/-- The table after the allocation of slot `i`. -/
def allocated (list : ByteIndexList) (i : Nat) : ByteIndexList :=
  { list with freePtr := i / 8 }.byteIndexSetTbl i

@[simp] theorem bit_allocated (list : ByteIndexList) (i j : Nat) :
    (list.allocated i).bit j = (list.bit j || decide (j = i)) :=
  bit_byteIndexSetTbl { list with freePtr := i / 8 } i j

/-- `byte_index_get_free_slot` once `free_ptr` is at a byte that is not full. -/
theorem takeSlot_spec {list : ByteIndexList} (hfull : ∀ k, k < list.freePtr → list.array k = 0xFF#8)
    (hne : list.array list.freePtr ≠ 0xFF#8) (hw : 8 * list.freePtr + 8 ≤ W32) :
    ∃ i, list.takeSlot = .ok (i, list.allocated i) ∧ i / 8 = list.freePtr ∧
      list.bit i = false ∧ ∀ j, j < i → list.bit j = true := by
  obtain ⟨b, hfind, hb, hclear, hmin⟩ := findClearBit_spec hne
  have hret : add32 (mul32 list.freePtr 8) b = 8 * list.freePtr + b := by
    rw [mul32_of_lt (by omega), add32_of_lt (by omega), Nat.mul_comm]
  have hdiv : (8 * list.freePtr + b) / 8 = list.freePtr := by omega
  have hmod : (8 * list.freePtr + b) % 8 = b := by omega
  refine ⟨8 * list.freePtr + b, ?_, hdiv, ?_, ?_⟩
  · simp only [takeSlot, if_neg hne, hfind, hret, allocated, hdiv]
  · rw [bit, hdiv, hmod, hclear]
  · intro j hj
    by_cases hjp : j / 8 < list.freePtr
    · exact bit_of_full (hfull _ hjp)
    · have hj8 : j / 8 = list.freePtr := by omega
      rw [bit, hj8]
      exact hmin _ (by omega)

/-- **The allocation of a slot.** It is the lowest one that is free; if there is none, the kernel
panics. -/
theorem byteIndexGetFreeSlot_spec {list : ByteIndexList} (h : Inv list)
    (hs : list.size ≤ 536870912) :
    (∃ i, list.byteIndexGetFreeSlot = .ok (i, list.allocated i) ∧ i < 8 * list.size ∧
      list.bit i = false ∧ ∀ j, j < i → list.bit j = true) ∨
    (∃ e, list.byteIndexGetFreeSlot = .error e ∧ ∀ i, i < 8 * list.size → list.bit i = true) := by
  have hin := h.inside
  by_cases hbyte : list.array list.freePtr = 0xFF#8
  · cases hscan : scanFree list.array (list.size - list.freePtr) list.freePtr with
    | none =>
        right
        refine ⟨"WE COULDNT FIND ANY MORE FREE SPACE", ?_, ?_⟩
        · simp only [byteIndexGetFreeSlot, if_pos hbyte, updateFreePtr, hscan]
        · intro i hi
          apply bit_of_full
          by_cases hlt : i / 8 < list.freePtr
          · exact h.full _ hlt
          · exact scanFree_none hscan _ (by omega) (by omega)
    | some q =>
        left
        obtain ⟨hle, hlt, hne, hbetween⟩ := scanFree_some hscan
        have hfull : ∀ k, k < q → list.array k = 0xFF#8 := by
          intro k hk
          by_cases hkp : k < list.freePtr
          · exact h.full k hkp
          · exact hbetween k (by omega) hk
        obtain ⟨i, htake, hdiv, hclear, hmin⟩ :=
          @takeSlot_spec { list with freePtr := q } hfull hne (by simp only [W32]; omega)
        refine ⟨i, ?_, ?_, hclear, hmin⟩
        · simp only [byteIndexGetFreeSlot, if_pos hbyte, updateFreePtr, hscan, htake]
          rfl
        · simp only at hdiv
          omega
  · left
    obtain ⟨i, htake, hdiv, hclear, hmin⟩ := takeSlot_spec h.full hbyte (by unfold W32; omega)
    refine ⟨i, ?_, by omega, hclear, hmin⟩
    simp only [byteIndexGetFreeSlot, if_neg hbyte, htake]

theorem inv_allocated {list : ByteIndexList} {i : Nat} (hi : i < 8 * list.size)
    (hmin : ∀ j, j < i → list.bit j = true) : Inv (list.allocated i) := by
  apply Inv.setTbl
  constructor
  · intro k hk
    rw [full_iff]
    intro b hb
    have hbit := hmin (8 * k + b) (by simp only at hk; omega)
    rwa [bit, show (8 * k + b) / 8 = k by omega, show (8 * k + b) % 8 = b by omega] at hbit
  · show i / 8 < list.size
    omega

/-! ## Runs -/

/-- The calls of a run. -/
inductive Op
  | getFreeSlot
  | setTbl (i : Nat)
  | releaseTbl (i : Nat)
  | checkTbl (i : Nat)
  deriving DecidableEq, Repr

/-- A table with a record of the slots in use: those that were set at first, and then those that
have been set or allocated and not released since. -/
structure Traced where
  list : ByteIndexList
  used : Nat → Bool

namespace Traced

/-- The state after `init_byte_index_list` on a table of `size` bytes with any contents. -/
def Init (size : Nat) (s : Traced) : Prop :=
  ∃ array, s = ⟨initByteIndexList array size, (initByteIndexList array size).bit⟩

/-- One call; the slots that are named in it are in the table. -/
inductive Step : Op → Traced → Traced → Prop
  | getFreeSlot {s : Traced} {i : Nat} {list : ByteIndexList}
      (h : s.list.byteIndexGetFreeSlot = .ok (i, list)) :
      Step .getFreeSlot s ⟨list, Function.update s.used i true⟩
  | setTbl {s : Traced} {i : Nat} (h : i < 8 * s.list.size) :
      Step (.setTbl i) s ⟨s.list.byteIndexSetTbl i, Function.update s.used i true⟩
  | releaseTbl {s : Traced} {i : Nat} (h : i < 8 * s.list.size) :
      Step (.releaseTbl i) s ⟨s.list.byteIndexReleaseTbl i, Function.update s.used i false⟩
  | checkTbl {s : Traced} {i : Nat} (h : i < 8 * s.list.size) : Step (.checkTbl i) s s

/-- **The table is right.** Every byte before `free_ptr` is full, `byte_index_check_tbl` tells the
slots in use, `byte_index_get_free_slot` panics exactly if all slots are in use, and otherwise it
returns the least free slot and changes the bit of this slot only. -/
structure Right (s : Traced) : Prop where
  full : ∀ k, k < s.list.freePtr → s.list.array k = 0xFF#8
  check : ∀ i, i < 8 * s.list.size → (s.list.byteIndexCheckTbl i = 1 ↔ s.used i = true)
  panics : (∃ e, s.list.byteIndexGetFreeSlot = .error e) ↔
    ∀ i, i < 8 * s.list.size → s.used i = true
  least : ∀ i list, s.list.byteIndexGetFreeSlot = .ok (i, list) →
    i < 8 * s.list.size ∧ s.used i = false ∧ (∀ j, j < i → s.used j = true) ∧
      ∀ j, list.bit j = if j = i then true else s.list.bit j

/-- The invariant of a run. -/
structure Inv (size : Nat) (s : Traced) : Prop where
  list : ByteIndexList.Inv s.list
  size_eq : s.list.size = size
  used : ∀ i, s.used i = s.list.bit i

theorem Inv.right {size : Nat} {s : Traced} (h : Inv size s) (hs : size ≤ 536870912) : Right s := by
  have hspec := byteIndexGetFreeSlot_spec h.list (h.size_eq ▸ hs)
  constructor
  · exact h.list.full
  · intro i _
    rw [byteIndexCheckTbl_eq, h.used]
    cases s.list.bit i <;> simp
  · constructor
    · rintro ⟨e, he⟩ i hi
      rw [h.used]
      rcases hspec with ⟨j, hok, -⟩ | ⟨e', -, hall⟩
      · rw [hok] at he
        cases he
      · exact hall i hi
    · intro hall
      rcases hspec with ⟨j, -, hj, hclear, -⟩ | ⟨e, he, -⟩
      · rw [← h.used, hall j hj] at hclear
        cases hclear
      · exact ⟨e, he⟩
  · intro i list hok
    rcases hspec with ⟨j, hok', hj, hclear, hmin⟩ | ⟨e, he, -⟩
    · rw [hok] at hok'
      cases hok'
      refine ⟨hj, by rw [h.used, hclear], fun k hk => by rw [h.used, hmin k hk], ?_⟩
      intro k
      rw [bit_allocated]
      by_cases hk : k = i
      · simp [hk]
      · simp [hk]
    · rw [hok] at he
      cases he

theorem Inv.step {size : Nat} {op : Op} {s s' : Traced} (h : Inv size s) (hs : size ≤ 536870912)
    (hstep : Step op s s') : Inv size s' := by
  cases hstep with
  | @getFreeSlot _ i list hok =>
      rcases byteIndexGetFreeSlot_spec h.list (h.size_eq ▸ hs) with
        ⟨j, hok', hj, -, hmin⟩ | ⟨e, he, -⟩
      · rw [hok] at hok'
        cases hok'
        refine ⟨inv_allocated hj hmin, h.size_eq, ?_⟩
        intro k
        rw [bit_allocated, ← h.used]
        by_cases hk : k = i
        · simp [hk]
        · simp [hk]
      · rw [hok] at he
        cases he
  | @setTbl _ i hi =>
      refine ⟨h.list.setTbl i, h.size_eq, ?_⟩
      intro k
      rw [bit_byteIndexSetTbl, ← h.used]
      by_cases hk : k = i
      · simp [hk]
      · simp [hk]
  | @releaseTbl _ i hi =>
      refine ⟨h.list.releaseTbl i, h.size_eq, ?_⟩
      intro k
      rw [bit_byteIndexReleaseTbl, ← h.used]
      by_cases hk : k = i
      · simp [hk]
      · simp [hk]
  | checkTbl => exact h

/-- **The lowest free slot, in every run.** This holds for every table whose slots can be numbered
by 32-bit words. -/
theorem lowest_free_slot {size : Nat} {s : Traced} (h1 : 1 ≤ size) (hs : size ≤ 536870912)
    (hr : Reach (Init size) Step s) : Right s := by
  have hinv : Inv size s := by
    apply hr.invariant (I := Inv size)
    · rintro s ⟨array, rfl⟩
      exact ⟨inv_init array h1, rfl, fun _ => rfl⟩
    · intro op s s' h hstep
      exact h.step hs hstep
  exact hinv.right hs

/-- Two bytes whose first slots are free: one is taken, the other one set, slot 3 is released and
looked at. It is the one that is found next. -/
theorem lowest_free_slot_two :
    ∃ s, Reach (Init 2) Step s ∧ Right s ∧ s.used 3 = false ∧
      (s.list.byteIndexGetFreeSlot.toOption.any fun r => r.1 == 3) = true := by
  let start := initByteIndexList (fun _ => 0xFE#8) 2
  have hbyte : start.array start.freePtr = 0xFE#8 := rfl
  have hfind : findClearBit 0xFE#8 = some 0 := by decide
  have hget : start.byteIndexGetFreeSlot = .ok (0, start.byteIndexSetTbl 0) := by
    rw [byteIndexGetFreeSlot, takeSlot, hbyte, if_neg (by decide), if_neg (by decide), hfind]
    rfl
  have hr : Reach (Init 2) Step
      ⟨((start.byteIndexSetTbl 0).byteIndexSetTbl 8).byteIndexReleaseTbl 3,
        Function.update (Function.update (Function.update start.bit 0 true) 8 true) 3 false⟩ :=
    (Reach.start ⟨fun _ => 0xFE#8, rfl⟩) |>.next _ (.getFreeSlot hget)
      |>.next _ (.setTbl (by decide)) |>.next _ (.releaseTbl (by decide))
      |>.next _ (.checkTbl (i := 3) (by decide))
  exact ⟨_, hr, lowest_free_slot (by decide) (by decide) hr, by decide, by decide +kernel⟩

/-- A table of `n` full bytes and one empty byte. -/
def nearlyFull (n : Nat) : ByteIndexList :=
  initByteIndexList (fun k => if k < n then 0xFF#8 else 0#8) (n + 1)

theorem nearlyFull_bit_zero {n : Nat} (hn : 0 < n) : (nearlyFull n).bit 0 = true :=
  bit_of_full (if_pos hn)

theorem nearlyFull_getFreeSlot {n : Nat} (hn : 0 < n) :
    ∃ list, (nearlyFull n).byteIndexGetFreeSlot = .ok (add32 (mul32 n 8) 0, list) := by
  have hfirst : (nearlyFull n).array (nearlyFull n).freePtr = 0xFF#8 := if_pos hn
  have hlast : (nearlyFull n).array n = 0#8 := if_neg (Nat.lt_irrefl n)
  have hscan : scanFree (nearlyFull n).array (n + 1) 0 = some n := by
    apply scanFree_eq (Nat.zero_le _) (by omega)
    · intro k _ hk
      exact if_pos hk
    · rw [hlast]
      decide
  have hupdate : (nearlyFull n).updateFreePtr = .ok { nearlyFull n with freePtr := n } := by
    rw [updateFreePtr, show (nearlyFull n).size - (nearlyFull n).freePtr = n + 1 from rfl,
      show (nearlyFull n).freePtr = 0 from rfl, hscan]
  have hfind : findClearBit 0#8 = some 0 := by decide
  refine ⟨{ nearlyFull n with freePtr := n }.byteIndexSetTbl (add32 (mul32 n 8) 0), ?_⟩
  rw [byteIndexGetFreeSlot, if_pos hfirst, hupdate]
  simp only [takeSlot]
  rw [hlast, if_neg (by decide), hfind]

/-- With 2^29 full bytes the number of the free slot wraps around, and `byte_index_get_free_slot`
returns slot 0, which is in use. -/
theorem oversized_wraps :
    Init 536870913 ⟨nearlyFull 536870912, (nearlyFull 536870912).bit⟩ ∧
      (∃ list, (nearlyFull 536870912).byteIndexGetFreeSlot = .ok (0, list)) ∧
      (nearlyFull 536870912).bit 0 = true ∧
      ¬ Right ⟨nearlyFull 536870912, (nearlyFull 536870912).bit⟩ := by
  obtain ⟨list, hget⟩ := nearlyFull_getFreeSlot (show 0 < 536870912 by norm_num)
  have hret : add32 (mul32 536870912 8) 0 = 0 := by
    unfold add32 mul32 W32
    norm_num
  rw [hret] at hget
  have hbit := nearlyFull_bit_zero (show 0 < 536870912 by norm_num)
  refine ⟨⟨_, rfl⟩, ⟨list, hget⟩, hbit, ?_⟩
  intro hright
  have hfree : (nearlyFull 536870912).bit 0 = false := (hright.least 0 list hget).2.1
  rw [hbit] at hfree
  cases hfree

end Traced

end ByteIndexList

end NowOS
