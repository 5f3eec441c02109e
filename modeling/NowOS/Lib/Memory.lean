import Mathlib.Tactic

set_option autoImplicit false

/-! # A byte memory with 32-bit words

A memory of bytes at 32-bit addresses, with little-endian words of four bytes. Addresses wrap
around. Words and whole regions that do not overlap are told apart by the distances between their
addresses (`Apart`), and a store leaves every word of a region apart from it as it was. -/

namespace NowOS

/-- A memory of bytes. -/
abbrev ByteMem := BitVec 32 → BitVec 8

namespace ByteMem

/-- The word at address `a`. -/
def load (m : ByteMem) (a : BitVec 32) : BitVec 32 := m (a + 3) ++ m (a + 2) ++ m (a + 1) ++ m a

/-- The memory with the word `v` at address `a`. -/
def store (m : ByteMem) (a v : BitVec 32) : ByteMem :=
  Function.update (Function.update (Function.update (Function.update m
    a (v.extractLsb' 0 8)) (a + 1) (v.extractLsb' 8 8)) (a + 2) (v.extractLsb' 16 8))
    (a + 3) (v.extractLsb' 24 8)

/-- The regions of `n` bytes from `a` and of `k` bytes from `b` do not overlap: going up from the
beginning of either, its end comes before the beginning of the other. -/
def Apart (a : BitVec 32) (n : Nat) (b : BitVec 32) (k : Nat) : Prop :=
  n ≤ (b - a).toNat ∧ k ≤ (a - b).toNat

instance (a : BitVec 32) (n : Nat) (b : BitVec 32) (k : Nat) : Decidable (Apart a n b k) :=
  inferInstanceAs (Decidable (_ ∧ _))

theorem Apart.symm {a b : BitVec 32} {n k : Nat} (h : Apart a n b k) : Apart b k a n := ⟨h.2, h.1⟩

/-- Parts of regions that are apart. -/
theorem Apart.part {a b : BitVec 32} {n k : Nat} (h : Apart a n b k) (i p j q : Nat)
    (hi : i + p ≤ n) (hj : j + q ≤ k) (hp : 0 < p) (hq : 0 < q) :
    Apart (a + BitVec.ofNat 32 i) p (b + BitVec.ofNat 32 j) q := by
  obtain ⟨h1, h2⟩ := h
  unfold Apart
  simp only [BitVec.toNat_sub, BitVec.toNat_add, BitVec.toNat_ofNat] at *
  have ha := a.isLt
  have hb := b.isLt
  omega

/-- Two words of one region. -/
theorem apart_of_le (a : BitVec 32) {i j : Nat} (hij : i + 4 ≤ j ∨ j + 4 ≤ i) (hi : i < 65536)
    (hj : j < 65536) : Apart (a + BitVec.ofNat 32 i) 4 (a + BitVec.ofNat 32 j) 4 := by
  unfold Apart
  simp only [BitVec.toNat_sub, BitVec.toNat_add, BitVec.toNat_ofNat]
  have ha := a.isLt
  omega

theorem store_of_apart (m : ByteMem) {a b : BitVec 32} (v : BitVec 32) (h : Apart a 4 b 1) :
    m.store a v b = m b := by
  obtain ⟨h1, h2⟩ := h
  unfold store
  rw [Function.update_of_ne, Function.update_of_ne, Function.update_of_ne, Function.update_of_ne]
  · rintro rfl
    simp at h2
  · rintro rfl
    bv_omega
  · rintro rfl
    bv_omega
  · rintro rfl
    bv_omega

/-- A word is put together from its four bytes. -/
theorem bytes_append (v : BitVec 32) :
    v.extractLsb' 24 8 ++ v.extractLsb' 16 8 ++ v.extractLsb' 8 8 ++ v.extractLsb' 0 8 = v := by
  ext i hi
  -- bit `i` of the bytes is bit `i` of the word, whichever byte it is in
  have hbit : ∀ k, k = i → v.getLsbD k = v.getLsbD i := fun k hk => by rw [hk]
  rw [← BitVec.getLsbD_eq_getElem (x := v)]
  simp only [BitVec.getElem_append, BitVec.getElem_extractLsb']
  split_ifs
  · exact hbit _ (by omega)
  · exact hbit _ (by omega)
  · exact hbit _ (by omega)
  · exact hbit _ (by omega)

theorem load_store_self (m : ByteMem) (a v : BitVec 32) : (m.store a v).load a = v := by
  have h3 : m.store a v (a + 3) = v.extractLsb' 24 8 := by
    unfold store
    rw [Function.update_self]
  have h2 : m.store a v (a + 2) = v.extractLsb' 16 8 := by
    unfold store
    rw [Function.update_of_ne (by bv_omega), Function.update_self]
  have h1 : m.store a v (a + 1) = v.extractLsb' 8 8 := by
    unfold store
    rw [Function.update_of_ne (by bv_omega), Function.update_of_ne (by bv_omega),
      Function.update_self]
  have h0 : m.store a v a = v.extractLsb' 0 8 := by
    unfold store
    rw [Function.update_of_ne (by bv_omega), Function.update_of_ne (by bv_omega),
      Function.update_of_ne (by bv_omega), Function.update_self]
  unfold load
  rw [h0, h1, h2, h3]
  exact bytes_append v

theorem load_store_apart (m : ByteMem) {a b : BitVec 32} (v : BitVec 32) (h : Apart a 4 b 4) :
    (m.store a v).load b = m.load b := by
  have hbyte : ∀ j, j < 4 → m.store a v (b + BitVec.ofNat 32 j) = m (b + BitVec.ofNat 32 j) := by
    intro j hj
    have hpart := h.part 0 4 j 1 (by omega) (by omega) (by omega) (by omega)
    rw [BitVec.add_zero] at hpart
    exact store_of_apart m v hpart
  have h0 := hbyte 0 (by omega)
  rw [BitVec.add_zero] at h0
  unfold load
  exact congrArg₂ _ (congrArg₂ _ (congrArg₂ _ (hbyte 3 (by omega)) (hbyte 2 (by omega)))
    (hbyte 1 (by omega))) h0

/-- A store to one of two regions that are apart, and a load from the other. -/
theorem Apart.load_store {a b : BitVec 32} {n k : Nat} (h : Apart a n b k) (m : ByteMem)
    (i j : Nat) (v : BitVec 32) (hi : i + 4 ≤ n) (hj : j + 4 ≤ k) :
    (m.store (a + BitVec.ofNat 32 i) v).load (b + BitVec.ofNat 32 j) =
      m.load (b + BitVec.ofNat 32 j) :=
  load_store_apart m v (h.part i 4 j 4 hi hj (by omega) (by omega))

/-- A store and a load of two words of one region. -/
theorem load_store_within (m : ByteMem) {a : BitVec 32} {i j : Nat} (v : BitVec 32)
    (hij : i + 4 ≤ j ∨ j + 4 ≤ i) (hi : i < 65536) (hj : j < 65536) :
    (m.store (a + BitVec.ofNat 32 i) v).load (a + BitVec.ofNat 32 j) =
      m.load (a + BitVec.ofNat 32 j) :=
  load_store_apart m v (apart_of_le a hij hi hj)

/-- The two memories hold the same words in the `n` bytes from `a` on. -/
def SameOn (a : BitVec 32) (n : Nat) (m m' : ByteMem) : Prop :=
  ∀ i, i + 4 ≤ n → m'.load (a + BitVec.ofNat 32 i) = m.load (a + BitVec.ofNat 32 i)

theorem SameOn.trans {a : BitVec 32} {n : Nat} {m m' m'' : ByteMem} (h : SameOn a n m m')
    (h' : SameOn a n m' m'') : SameOn a n m m'' :=
  fun i hi => (h' i hi).trans (h i hi)

theorem SameOn.store {a b : BitVec 32} {n k i : Nat} (m : ByteMem) (v : BitVec 32)
    (h : Apart a n b k) (hi : i + 4 ≤ n) : SameOn b k m (m.store (a + BitVec.ofNat 32 i) v) :=
  fun j hj => h.load_store m i j v hi hj

/-! ## Bytes one after the other -/

section Bytes

variable {m : ByteMem} {a x : BitVec 32} {n : Nat}

/-- `memset`. -/
def memset (value : BitVec 8) : Nat → BitVec 32 → ByteMem → ByteMem
  | 0, _, m => m
  | n + 1, a, m => memset value n (a + 1#32) (Function.update m a value)

/-- `memcpy`. -/
def memcpy : Nat → BitVec 32 → BitVec 32 → ByteMem → ByteMem
  | 0, _, _, m => m
  | n + 1, dst, src, m => memcpy n (dst + 1#32) (src + 1#32) (Function.update m dst (m src))

/-- An address that is not among `n + 1` addresses from `a` on is neither the first nor among the
others. -/
theorem outside_succ (h : n + 1 ≤ (x - a).toNat) : x ≠ a ∧ n ≤ (x - (a + 1#32)).toNat := by
  refine ⟨?_, ?_⟩
  · rintro rfl
    simp at h
  · bv_omega

theorem memset_outside {v : BitVec 8} (h : n ≤ (x - a).toNat) : memset v n a m x = m x := by
  induction n generalizing a m with
  | zero => rfl
  | succ n ih =>
      obtain ⟨hne, hrest⟩ := outside_succ h
      rw [memset, ih hrest, Function.update_of_ne hne]

theorem memcpy_outside {src : BitVec 32} (h : n ≤ (x - a).toNat) : memcpy n a src m x = m x := by
  induction n generalizing a src m with
  | zero => rfl
  | succ n ih =>
      obtain ⟨hne, hrest⟩ := outside_succ h
      rw [memcpy, ih hrest, Function.update_of_ne hne]

theorem memset_inside {v : BitVec 8} (hn : n ≤ 65536) (h : (x - a).toNat < n) :
    memset v n a m x = v := by
  induction n generalizing a m with
  | zero => exact absurd h (Nat.not_lt_zero _)
  | succ n ih =>
      rw [memset]
      by_cases hx : x = a
      · rw [memset_outside (by rw [hx]; bv_omega), hx, Function.update_self]
      · exact ih (by omega) (by bv_omega)

/-- A region that ends before another one begins. -/
theorem apart_of_add_le {b : BitVec 32} {k : Nat} (hn : 0 < n) (h : a.toNat + n ≤ b.toNat)
    (hk : b.toNat + k ≤ 2 ^ 32) : Apart a n b k := by
  have hle : a.toNat ≤ b.toNat := by omega
  have hmod : (2 ^ 32 - b.toNat + a.toNat) % 2 ^ 32 = 2 ^ 32 - b.toNat + a.toNat :=
    Nat.mod_eq_of_lt (by omega)
  unfold Apart
  rw [BitVec.toNat_sub_of_le hle, BitVec.toNat_sub, hmod]
  omega

/-- Memory that is the same byte by byte. -/
theorem sameOn_of_bytes {m' : ByteMem} {k : Nat}
    (h : ∀ j, j < k → m' (a + BitVec.ofNat 32 j) = m (a + BitVec.ofNat 32 j)) :
    SameOn a k m m' := by
  intro i hi
  have hbyte : ∀ j, j < 4 → m' (a + BitVec.ofNat 32 i + BitVec.ofNat 32 j) =
      m (a + BitVec.ofNat 32 i + BitVec.ofNat 32 j) := by
    intro j hj
    rw [BitVec.add_assoc, ← BitVec.ofNat_add]
    exact h (i + j) (by omega)
  have h0 := hbyte 0 (by omega)
  rw [BitVec.add_zero] at h0
  unfold load
  exact congrArg₂ _ (congrArg₂ _ (congrArg₂ _ (hbyte 3 (by omega)) (hbyte 2 (by omega)))
    (hbyte 1 (by omega))) h0

/-- A byte of a region that is apart. -/
theorem Apart.outside {b : BitVec 32} {k : Nat} (h : Apart a n b k) {j : Nat} (hj : j < k)
    (hn : 0 < n) : n ≤ (b + BitVec.ofNat 32 j - a).toNat := by
  have hpart := h.part 0 n j 1 (by omega) (by omega) hn (by omega)
  rw [BitVec.add_zero] at hpart
  exact hpart.1

theorem sameOn_memset {b : BitVec 32} {k : Nat} {v : BitVec 8} (h : Apart a n b k) (hn : 0 < n) :
    SameOn b k m (memset v n a m) :=
  sameOn_of_bytes fun _ hj => memset_outside (h.outside hj hn)

theorem sameOn_memcpy {b src : BitVec 32} {k : Nat} (h : Apart a n b k) (hn : 0 < n) :
    SameOn b k m (memcpy n a src m) :=
  sameOn_of_bytes fun _ hj => memcpy_outside (h.outside hj hn)

/-- A word of memory that has been cleared. -/
theorem load_memset_zero {i : Nat} (hi : i + 4 ≤ n) (hn : n ≤ 65536) :
    (memset 0#8 n a m).load (a + BitVec.ofNat 32 i) = 0#32 := by
  have hbyte : ∀ j, j < 4 →
      memset 0#8 n a m (a + BitVec.ofNat 32 i + BitVec.ofNat 32 j) = 0#8 := by
    intro j hj
    apply memset_inside hn
    rw [BitVec.add_assoc, ← BitVec.ofNat_add, BitVec.add_comm, BitVec.add_sub_cancel,
      BitVec.toNat_ofNat]
    omega
  have h0 := hbyte 0 (by omega)
  rw [BitVec.add_zero] at h0
  have h1 := hbyte 1 (by omega)
  have h2 := hbyte 2 (by omega)
  have h3 := hbyte 3 (by omega)
  unfold load
  exact (congrArg₂ _ (congrArg₂ _ (congrArg₂ _ h3 h2) h1) h0).trans (by decide)

end Bytes

end ByteMem

end NowOS
