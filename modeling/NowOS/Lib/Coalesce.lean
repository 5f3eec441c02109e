import NowOS.Lib.Blocks

set_option autoImplicit false

/-! # The normal form of a heap

Two free neighbours are as good as one free block. `mergeFree` merges all of them; its result is a
normal form, in which no two neighbours are both free.

An allocator that merges a block with its neighbours whenever the block is freed keeps its blocks in
normal form. What a sequence of frees leaves does not depend on their order then: the merges in
between can be left out (`mergeFree_map`), and what remains is a set of blocks that become free. -/

namespace NowOS

variable {H : Nat}

/-- A block in front of others; merged with the first one if both are free. -/
def consFree (H : Nat) (b : Block) : List Block → List Block
  | [] => [b]
  | c :: bs =>
      if b.used = false ∧ c.used = false then ⟨b.addr, b.size + c.size + H, false⟩ :: bs
      else b :: c :: bs

/-- All free neighbours merged. -/
def mergeFree (H : Nat) (bs : List Block) : List Block := bs.foldr (consFree H) []

theorem mergeFree_cons (b : Block) (bs : List Block) :
    mergeFree H (b :: bs) = consFree H b (mergeFree H bs) := rfl

theorem mergeFree_append (l : List Block) (b : Block) (bs : List Block) :
    mergeFree H (l ++ b :: bs) = l.foldr (consFree H) (consFree H b (mergeFree H bs)) :=
  List.foldr_append

theorem consFree_of_used {b : Block} (hb : b.used = true) (bs : List Block) :
    consFree H b bs = b :: bs := by
  cases bs with
  | nil => rfl
  | cons c bs =>
      apply if_neg
      rintro ⟨hfree, -⟩
      rw [hb] at hfree
      cases hfree

/-- Two free blocks in front of others may be merged first. -/
theorem consFree_consFree {b c : Block} (hb : b.used = false) (hc : c.used = false)
    (bs : List Block) :
    consFree H b (consFree H c bs) = consFree H ⟨b.addr, b.size + c.size + H, false⟩ bs := by
  cases bs with
  | nil => exact if_pos ⟨hb, hc⟩
  | cons d bs =>
      cases hd : d.used with
      | true => simp [consFree, hb, hc, hd]
      | false =>
          -- all three are free, and the sizes add up in either order
          have hsize : b.size + (c.size + d.size + H) + H = b.size + c.size + H + d.size + H := by
            omega
          simp only [consFree, hb, hc, hd, and_self, if_true, hsize]

/-- **Merges can be postponed.** If blocks are changed, but not the free ones, it does not matter
whether free neighbours were merged before. -/
theorem mergeFree_map {f : Block → Block} (hf : ∀ b, b.used = false → f b = b) (bs : List Block) :
    mergeFree H ((mergeFree H bs).map f) = mergeFree H (bs.map f) := by
  -- one block in front of blocks that may be merged or not
  have hcons : ∀ b cs, mergeFree H ((consFree H b cs).map f) =
      consFree H (f b) (mergeFree H (cs.map f)) := by
    intro b cs
    cases cs with
    | nil => rfl
    | cons c cs =>
        by_cases h : b.used = false ∧ c.used = false
        · calc mergeFree H ((consFree H b (c :: cs)).map f)
              = consFree H (f ⟨b.addr, b.size + c.size + H, false⟩) (mergeFree H (cs.map f)) := by
                rw [consFree, if_pos h]
                rfl
            _ = consFree H ⟨b.addr, b.size + c.size + H, false⟩ (mergeFree H (cs.map f)) := by
                rw [hf _ rfl]
            _ = consFree H b (consFree H c (mergeFree H (cs.map f))) :=
                (consFree_consFree h.1 h.2 _).symm
            _ = consFree H (f b) (mergeFree H ((c :: cs).map f)) := by
                rw [hf b h.1, List.map_cons, hf c h.2, mergeFree_cons]
        · rw [consFree, if_neg h]
          rfl
  induction bs with
  | nil => rfl
  | cons b bs ih => rw [mergeFree_cons, hcons, ih, List.map_cons, mergeFree_cons]

/-- A block in use is neither made nor taken away. -/
theorem mem_mergeFree_of_used {b : Block} (hb : b.used = true) (bs : List Block) :
    b ∈ mergeFree H bs ↔ b ∈ bs := by
  have hcons : ∀ c cs, b ∈ consFree H c cs ↔ b = c ∨ b ∈ cs := by
    intro c cs
    cases cs with
    | nil => simp [consFree]
    | cons d cs =>
        by_cases h : c.used = false ∧ d.used = false
        · have hc : b ≠ c := by
            rintro rfl
            rw [hb] at h
            cases h.1
          have hd : b ≠ d := by
            rintro rfl
            rw [hb] at h
            cases h.2
          have hm : b ≠ ⟨c.addr, c.size + d.size + H, false⟩ := by
            rintro rfl
            cases hb
          rw [consFree, if_pos h]
          simp [hc, hd, hm]
        · rw [consFree, if_neg h, List.mem_cons]
  induction bs with
  | nil => rfl
  | cons c bs ih =>
      rw [mergeFree_cons, hcons, List.mem_cons]
      exact or_congr_right ih

/-! ## Normal forms -/

/-- Blocks in front of a normal form stay as they are, if they are in normal form with its first
block. -/
theorem foldr_consFree {l : List Block} {c : Block} (cs : List Block)
    (h : NoAdjacentFree (l ++ [c])) : l.foldr (consFree H) (c :: cs) = l ++ c :: cs := by
  induction l with
  | nil => rfl
  | cons b l ih =>
      obtain ⟨hhead, hrest⟩ := List.isChain_cons.1 h
      rw [List.foldr_cons, ih hrest]
      cases l with
      | nil =>
          have hused := hhead c (by simp)
          exact if_neg fun hfree => by simp [hfree.1, hfree.2] at hused
      | cons d l =>
          have hused := hhead d (by simp)
          exact if_neg fun hfree => by simp [hfree.1, hfree.2] at hused

theorem mergeFree_of_noAdjacentFree {bs : List Block} (h : NoAdjacentFree bs) :
    mergeFree H bs = bs := by
  rcases List.eq_nil_or_concat bs with rfl | ⟨l, c, rfl⟩
  · rfl
  · rw [List.concat_eq_append] at h ⊢
    unfold mergeFree
    rw [List.foldr_append]
    exact foldr_consFree [] h

/-- Free blocks that tile a range are one block in normal form. -/
theorem mergeFree_of_free {bs : List Block} {a e : Nat} (ht : Tiles H a bs e) (hne : bs ≠ [])
    (hfree : ∀ b ∈ bs, b.used = false) : mergeFree H bs = [⟨a, e - a - H, false⟩] := by
  induction bs generalizing a with
  | nil => exact absurd rfl hne
  | cons b bs ih =>
      obtain ⟨hb, ht⟩ := ht
      have hbu := hfree b (by simp)
      have hle := ht.le
      rw [mergeFree_cons]
      cases bs with
      | nil =>
          rw [tiles_nil] at ht
          obtain ⟨addr, size, used⟩ := b
          simp only at hb hbu ht
          simp only [mergeFree, List.foldr_nil, consFree, List.cons.injEq, Block.mk.injEq, and_true]
          exact ⟨hb, by omega, hbu⟩
      | cons c cs =>
          have hrest := ih ht (by simp) fun d hd => hfree d (List.mem_cons_of_mem _ hd)
          obtain ⟨hca, htc⟩ := ht
          have hlec := htc.le
          rw [hrest, consFree, if_pos ⟨hbu, rfl⟩, hb]
          simp only [List.cons.injEq, Block.mk.injEq, true_and, and_true]
          omega

/-! ## Freeing blocks -/

/-- The block, free if its address is one of `as`. -/
def freeAt (as : List Nat) (b : Block) : Block :=
  if b.addr ∈ as then { b with used := false } else b

theorem freeAt_addr (as : List Nat) (b : Block) : (freeAt as b).addr = b.addr := by
  unfold freeAt
  split <;> rfl

theorem freeAt_of_free {b : Block} (as : List Nat) (hb : b.used = false) : freeAt as b = b := by
  obtain ⟨addr, size, used⟩ := b
  unfold freeAt
  split
  · rw [show used = false from hb]
  · rfl

theorem freeAt_freeAt (as as' : List Nat) (b : Block) :
    freeAt as' (freeAt as b) = freeAt (as ++ as') b := by
  unfold freeAt
  by_cases h : b.addr ∈ as
  · by_cases h' : b.addr ∈ as' <;> simp [h, h']
  · by_cases h' : b.addr ∈ as' <;> simp [h, h']

/-- **The order of frees does not matter**, and neither do the merges in between. -/
theorem mergeFree_freeAt (as as' : List Nat) (bs : List Block) :
    mergeFree H ((mergeFree H (bs.map (freeAt as))).map (freeAt as')) =
      mergeFree H (bs.map (freeAt (as ++ as'))) := by
  rw [mergeFree_map fun b hb => freeAt_of_free as' hb, List.map_map]
  congr 1
  exact List.map_congr_left fun b _ => freeAt_freeAt as as' b

theorem freeAt_congr {as as' : List Nat} (h : ∀ a, a ∈ as ↔ a ∈ as') : freeAt as = freeAt as' := by
  funext b
  simp only [freeAt, h]

theorem tiles_freeAt {bs : List Block} {a e : Nat} (as : List Nat) (h : Tiles H a bs e) :
    Tiles H a (bs.map (freeAt as)) e := by
  induction bs generalizing a with
  | nil => exact h
  | cons b bs ih =>
      obtain ⟨hb, ht⟩ := h
      have hsize : (freeAt as b).size = b.size := by
        unfold freeAt
        split <;> rfl
      refine ⟨by rw [freeAt_addr, hb], ?_⟩
      rw [hsize]
      exact ih ht

end NowOS
