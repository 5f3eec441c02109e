import Mathlib.Tactic
import Mathlib.Data.List.Chain

set_option autoImplicit false

/-! # Blocks that tile a range of addresses

The abstract model of a heap: a list of blocks, each with a header of `H` bytes in front of
`size` payload bytes, that follow one another without a gap (`Tiles`). Replacing some
neighbouring blocks by others that tile the same range is the only change an allocator makes to
it; `tiles_append` is what such a change needs. -/

namespace NowOS

/-- A block: the address of its header, the size of its payload, and whether it is in use. -/
structure Block where
  addr : Nat
  size : Nat
  used : Bool
  deriving DecidableEq, Repr

variable {H : Nat}

/-- The blocks `bs` follow one another from address `a` to address `e`. -/
def Tiles (H : Nat) : Nat → List Block → Nat → Prop
  | a, [], e => a = e
  | a, b :: bs, e => b.addr = a ∧ Tiles H (a + H + b.size) bs e

@[simp] theorem tiles_nil (a e : Nat) : Tiles H a [] e ↔ a = e := Iff.rfl

@[simp] theorem tiles_cons (a e : Nat) (b : Block) (bs : List Block) :
    Tiles H a (b :: bs) e ↔ b.addr = a ∧ Tiles H (a + H + b.size) bs e := Iff.rfl

instance Tiles.decide (H : Nat) :
    (a : Nat) → (bs : List Block) → (e : Nat) → Decidable (Tiles H a bs e)
  | a, [], e => inferInstanceAs (Decidable (a = e))
  | a, b :: bs, e =>
      have := Tiles.decide H (a + H + b.size) bs e
      inferInstanceAs (Decidable (b.addr = a ∧ Tiles H (a + H + b.size) bs e))

theorem tiles_append (xs ys : List Block) (a e : Nat) :
    Tiles H a (xs ++ ys) e ↔ ∃ m, Tiles H a xs m ∧ Tiles H m ys e := by
  induction xs generalizing a with
  | nil => simp
  | cons b bs ih =>
      simp only [List.cons_append, tiles_cons, ih]
      constructor
      · rintro ⟨hb, m, h1, h2⟩
        exact ⟨m, ⟨hb, h1⟩, h2⟩
      · rintro ⟨m, ⟨hb, h1⟩, h2⟩
        exact ⟨hb, m, h1, h2⟩

theorem Tiles.le {a e : Nat} {bs : List Block} (h : Tiles H a bs e) : a ≤ e := by
  induction bs generalizing a with
  | nil => exact Nat.le_of_eq h
  | cons b bs ih =>
      have := ih h.2
      omega

/-- A block of a tiling lies in the tiled range. -/
theorem Tiles.bounds {a e : Nat} {bs : List Block} (h : Tiles H a bs e) {b : Block}
    (hb : b ∈ bs) : a ≤ b.addr ∧ b.addr + H + b.size ≤ e := by
  induction bs generalizing a with
  | nil => cases hb
  | cons c cs ih =>
      obtain ⟨hc, ht⟩ := h
      rcases List.mem_cons.mp hb with rfl | hb
      · have := ht.le
        exact ⟨Nat.le_of_eq hc.symm, by omega⟩
      · have := ih ht hb
        omega

/-- The blocks of a tiling are in the order of their addresses and do not overlap. -/
theorem Tiles.pairwise {a e : Nat} {bs : List Block} (h : Tiles H a bs e) :
    bs.Pairwise (fun x y => x.addr + H + x.size ≤ y.addr) := by
  induction bs generalizing a with
  | nil => exact List.Pairwise.nil
  | cons b bs ih =>
      obtain ⟨hb, ht⟩ := h
      refine List.pairwise_cons.mpr ⟨fun c hc => ?_, ih ht⟩
      have := ht.bounds hc
      omega

/-- Two different blocks of a tiling: one of them ends before the other begins. -/
theorem Tiles.disjoint {a e : Nat} {bs : List Block} (h : Tiles H a bs e) {b c : Block}
    (hb : b ∈ bs) (hc : c ∈ bs) (hbc : b ≠ c) :
    b.addr + H + b.size ≤ c.addr ∨ c.addr + H + c.size ≤ b.addr := by
  have hp : bs.Pairwise (fun x y => x ≠ y →
      x.addr + H + x.size ≤ y.addr ∨ y.addr + H + y.size ≤ x.addr) :=
    h.pairwise.imp fun hxy _ => Or.inl hxy
  have hp' : bs.Pairwise (flip fun x y => x ≠ y →
      x.addr + H + x.size ≤ y.addr ∨ y.addr + H + y.size ≤ x.addr) :=
    h.pairwise.imp fun hxy _ => Or.inr hxy
  exact hp.forall_of_forall_of_flip (fun x _ hx => absurd rfl hx) hp' hb hc hbc

/-- Two blocks of a tiling with the same address are the same block. -/
theorem Tiles.eq_of_addr_eq {a e : Nat} {bs : List Block} (h : Tiles H a bs e) (hH : 0 < H)
    {b c : Block} (hb : b ∈ bs) (hc : c ∈ bs) (hbc : b.addr = c.addr) : b = c := by
  by_contra hne
  rcases h.disjoint hb hc hne with hd | hd <;> omega

/-- One block in the place of two neighbours. -/
theorem Tiles.merge {s e : Nat} {l r : List Block} {x y : Block} (u : Bool)
    (h : Tiles H s (l ++ [x, y] ++ r) e) :
    Tiles H s (l ++ ⟨x.addr, x.size + y.size + H, u⟩ :: r) e := by
  rw [List.append_assoc, tiles_append] at h
  obtain ⟨m, hl, hx, hy, hr⟩ := h
  rw [tiles_append]
  refine ⟨m, hl, hx, ?_⟩
  rw [show m + H + (x.size + y.size + H) = m + H + x.size + H + y.size by omega]
  exact hr

/-- Two neighbours in the place of one block. -/
theorem Tiles.split {s e : Nat} {l r : List Block} {x y z : Block}
    (h : Tiles H s (l ++ x :: r) e) (hy : y.addr = x.addr) (hz : z.addr = x.addr + H + y.size)
    (hsize : y.size + H + z.size = x.size) : Tiles H s (l ++ [y, z] ++ r) e := by
  rw [tiles_append] at h
  obtain ⟨m, hl, hx, hr⟩ := h
  rw [List.append_assoc, tiles_append]
  refine ⟨m, hl, hy.trans hx, ?_, ?_⟩
  · rw [hz, hx]
  · rw [show m + H + y.size + H + z.size = m + H + x.size by omega]
    exact hr

/-- Another block of the same size in the place of a block. -/
theorem Tiles.swap {s e : Nat} {l r : List Block} {x y : Block} (h : Tiles H s (l ++ x :: r) e)
    (hy : y.addr = x.addr) (hsize : y.size = x.size) : Tiles H s (l ++ y :: r) e := by
  rw [tiles_append] at h ⊢
  obtain ⟨m, hl, hx, hr⟩ := h
  exact ⟨m, hl, hy.trans hx, by rw [hsize]; exact hr⟩

/-- The addresses of the blocks that are not in use. -/
def freeAddrs (bs : List Block) : List Nat := (bs.filter (fun b => !b.used)).map Block.addr

theorem mem_freeAddrs (bs : List Block) (a : Nat) :
    a ∈ freeAddrs bs ↔ ∃ b ∈ bs, b.used = false ∧ b.addr = a := by
  simp only [freeAddrs, List.mem_map, List.mem_filter, Bool.not_eq_true']
  constructor
  · rintro ⟨b, ⟨hb, hu⟩, ha⟩
    exact ⟨b, hb, hu, ha⟩
  · rintro ⟨b, hb, hu, ha⟩
    exact ⟨b, ⟨hb, hu⟩, ha⟩

theorem freeAddrs_append (xs ys : List Block) :
    freeAddrs (xs ++ ys) = freeAddrs xs ++ freeAddrs ys := by
  simp [freeAddrs]

theorem freeAddrs_cons_free {b : Block} (hb : b.used = false) (bs : List Block) :
    freeAddrs (b :: bs) = b.addr :: freeAddrs bs := by
  simp [freeAddrs, hb]

theorem freeAddrs_cons_used {b : Block} (hb : b.used = true) (bs : List Block) :
    freeAddrs (b :: bs) = freeAddrs bs := by
  simp [freeAddrs, hb]

theorem mem_freeAddrs_middle {l r : List Block} {x : Block} (hx : x.used = false) (c : Nat) :
    c ∈ freeAddrs (l ++ x :: r) ↔ c = x.addr ∨ c ∈ freeAddrs l ∨ c ∈ freeAddrs r := by
  rw [freeAddrs_append, freeAddrs_cons_free hx, List.mem_append, List.mem_cons, or_left_comm]

theorem mem_freeAddrs_pair {l r : List Block} {x y : Block} (hx : x.used = false)
    (hy : y.used = false) (c : Nat) :
    c ∈ freeAddrs (l ++ [x, y] ++ r) ↔
      c = x.addr ∨ c = y.addr ∨ c ∈ freeAddrs l ∨ c ∈ freeAddrs r := by
  rw [List.append_assoc, List.cons_append, List.cons_append, List.nil_append,
    mem_freeAddrs_middle hx, freeAddrs_cons_free hy, List.mem_cons, or_left_comm (b := c = y.addr)]

theorem freeAddrs_sorted {a e : Nat} {bs : List Block} (h : Tiles H a bs e) (hH : 0 < H) :
    (freeAddrs bs).Pairwise (· < ·) := by
  unfold freeAddrs
  rw [List.pairwise_map]
  refine (h.pairwise.imp fun hxy => ?_).filter _
  omega

/-- No two neighbours are both free. -/
def NoAdjacentFree (bs : List Block) : Prop := bs.IsChain (fun x y => x.used = true ∨ y.used = true)

instance (bs : List Block) : Decidable (NoAdjacentFree bs) :=
  inferInstanceAs (Decidable (List.IsChain _ _))

/-- The address of the first block, or `nx` if there is none. -/
def headAddr : List Block → Nat → Nat
  | [], nx => nx
  | b :: _, _ => b.addr

/-- The address of the last block, or `p` if there is none. -/
def lastAddr : Nat → List Block → Nat
  | p, [] => p
  | _, b :: bs => lastAddr b.addr bs

@[simp] theorem headAddr_nil (nx : Nat) : headAddr [] nx = nx := rfl

@[simp] theorem headAddr_cons (b : Block) (bs : List Block) (nx : Nat) :
    headAddr (b :: bs) nx = b.addr := rfl

@[simp] theorem lastAddr_nil (p : Nat) : lastAddr p [] = p := rfl

@[simp] theorem lastAddr_cons (p : Nat) (b : Block) (bs : List Block) :
    lastAddr p (b :: bs) = lastAddr b.addr bs := rfl

theorem headAddr_append (xs ys : List Block) (nx : Nat) :
    headAddr (xs ++ ys) nx = headAddr xs (headAddr ys nx) := by
  cases xs <;> rfl

theorem lastAddr_append (p : Nat) (xs ys : List Block) :
    lastAddr p (xs ++ ys) = lastAddr (lastAddr p xs) ys := by
  induction xs generalizing p with
  | nil => rfl
  | cons b bs ih => exact ih b.addr

theorem lastAddr_concat (p : Nat) (l : List Block) (z : Block) :
    lastAddr p (l ++ [z]) = z.addr := by
  rw [lastAddr_append]
  rfl

end NowOS
