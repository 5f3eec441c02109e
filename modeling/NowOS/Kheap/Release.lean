import NowOS.Lib.Coalesce
import NowOS.Kheap.EndPtr

set_option autoImplicit false

/-! # Freeing and the order of frees

`kfree` merges the node with its free neighbours, to the left and to the right, and either header
may be the one that stays. Seen from the chain it makes one block free and restores the normal form
of `Lib/Coalesce.lean`. So a chain that was split by `kmalloc` is put together again, and a set of
allocations can be freed in any order. -/

namespace NowOS

namespace KHeap

open SortedArrayList Client

/-- **The same heap**: the nodes, their headers and the free list are the same. -/
structure SameHeap (L : Layout) (h h' : KHeap) : Prop where
  nodes : ∀ a, Node L h' a ↔ Node L h a
  headers : ∀ a, Node L h a → h'.magic a = h.magic a ∧ h'.nextPtr a = h.nextPtr a ∧
    h'.prevPtr a = h.prevPtr a ∧ h'.size a = h.size a
  freeList : h'.freeNodeList.live = h.freeNodeList.live

section

variable {L : Layout} {h h' : KHeap} {bs l r : List Block} {x : Block} {e e' : Nat}

theorem Chain.node_iff (hc : Chain L h bs e) (a : Nat) : Node L h a ↔ ∃ b ∈ bs, b.addr = a := by
  constructor
  · exact fun hn => hn.mem hc
  · rintro ⟨b, hb, rfl⟩
    exact hc.node hb

/-- Heaps with the same blocks are the same. -/
theorem WellFormed.sameHeap (hw : WellFormed L h bs e) (hw' : WellFormed L h' bs e') :
    SameHeap L h h' where
  nodes a := by rw [hw.inv.chain.node_iff, hw'.inv.chain.node_iff]
  headers a ha := by
    obtain ⟨b, hb, rfl⟩ := (hw.inv.chain.node_iff a).1 ha
    obtain ⟨l, r, rfl⟩ := List.append_of_mem hb
    obtain ⟨hmagic, hnext, hprev, hsize⟩ := hw.links.header
    obtain ⟨hmagic', hnext', hprev', hsize'⟩ := hw'.links.header
    exact ⟨hmagic'.trans hmagic.symm, hnext'.trans hnext.symm, hprev'.trans hprev.symm,
      hsize'.trans hsize.symm⟩
  freeList := by rw [hw.free_list, hw'.free_list]

/-! ## What `kfree` does to the blocks -/

theorem absorbRight_eq (hx : x.used = false) (r : List Block) :
    (absorbRight x r).1 :: (absorbRight x r).2 = consFree 16 x r ∧
    (absorbRight x r).1.used = false := by
  cases r with
  | nil => exact ⟨rfl, hx⟩
  | cons y r =>
      cases hy : y.used with
      | true => simp [absorbRight, consFree, hx, hy]
      | false => simp [absorbRight, consFree, hx, hy]

/-- Merging a free block with its neighbours restores the normal form. -/
theorem coalesce_eq_mergeFree (hl : NoAdjacentFree l) (hr : NoAdjacentFree r)
    (hx : x.used = false) : coalesce l x r = mergeFree 16 (l ++ x :: r) := by
  obtain ⟨hright, hm⟩ := absorbRight_eq hx r
  have hmerge : mergeFree 16 (l ++ x :: r) =
      l.foldr (consFree 16) ((absorbRight x r).1 :: (absorbRight x r).2) := by
    calc mergeFree 16 (l ++ x :: r)
        = l.foldr (consFree 16) (consFree 16 x (mergeFree 16 r)) := mergeFree_append l x r
      _ = l.foldr (consFree 16) (consFree 16 x r) := by rw [mergeFree_of_noAdjacentFree hr]
      _ = l.foldr (consFree 16) ((absorbRight x r).1 :: (absorbRight x r).2) := by rw [hright]
  rw [hmerge]
  unfold coalesce
  obtain ⟨m, hmeq⟩ : ∃ m, (absorbRight x r).1 = m := ⟨_, rfl⟩
  simp only [hmeq] at hm ⊢
  rcases List.eq_nil_or_concat l with rfl | ⟨l, z, rfl⟩
  · rfl
  · rw [List.concat_eq_append] at hl ⊢
    rw [List.foldr_append, List.foldr_cons, List.foldr_nil, absorbLeft_concat]
    cases hz : z.used with
    | true =>
        -- the block on the left is in use, so that nothing is left to merge
        rw [if_pos rfl, consFree_of_used hz, foldr_consFree _ hl, List.append_assoc,
          List.singleton_append]
    | false =>
        have hleft : NoAdjacentFree (l ++ [⟨z.addr, z.size + m.size + 16, false⟩]) := by
          obtain ⟨hl, -, hlast⟩ := List.isChain_append.1 hl
          refine List.isChain_append.2 ⟨hl, List.isChain_singleton _, fun w hw y hy => ?_⟩
          have hused := hlast w hw z (by simp)
          rw [hz] at hused
          exact Or.inl (hused.resolve_right (by simp))
        rw [if_neg (by simp), consFree, if_pos ⟨hz, hm⟩, foldr_consFree _ hleft,
          Nat.add_comm m.size z.size]

/-- Freeing one block of a tiling changes no other block. -/
theorem map_freeAt_singleton {s : Nat} (ht : Tiles 16 s (l ++ x :: r) e) :
    (l ++ x :: r).map (freeAt [x.addr]) = l ++ ⟨x.addr, x.size, false⟩ :: r := by
  have hother : ∀ b : Block, b.addr ≠ x.addr → freeAt [x.addr] b = b := by
    intro b hne
    exact if_neg (by simpa using hne)
  have hpw := ht.pairwise
  rw [List.pairwise_append, List.pairwise_cons] at hpw
  obtain ⟨-, ⟨hxr, -⟩, hlx⟩ := hpw
  have hleft : l.map (freeAt [x.addr]) = l := by
    refine (List.map_congr_left fun b hb => hother b ?_).trans (List.map_id l)
    have := hlx b hb x (by simp)
    omega
  have hright : r.map (freeAt [x.addr]) = r := by
    refine (List.map_congr_left fun b hb => hother b ?_).trans (List.map_id r)
    have := hxr b hb
    omega
  rw [List.map_append, List.map_cons, hleft, hright]
  congr 2
  exact if_pos (by simp)

/-- **`kfree` makes a block free and restores the normal form.** -/
theorem WellFormed.kfree (hw : WellFormed L h bs e)
    (hroom : h.freeNodeList.currSize < h.freeNodeList.arrSize) (hx : x ∈ bs) (hu : x.used = true) :
    ∃ h', h.kfree (x.addr + 16) = .ok h' ∧
      WellFormed L h' (mergeFree 16 (bs.map (freeAt [x.addr]))) e := by
  obtain ⟨l, r, rfl⟩ := List.append_of_mem hx
  obtain ⟨h', hok, hi, -, -, -, -, hcompl⟩ := kfree_spec hw.inv hu
  obtain ⟨hl, hxr, -⟩ := List.isChain_append.1 hw.coalesced
  refine ⟨h', hok, ?_⟩
  rw [map_freeAt_singleton hw.tiles, ← coalesce_eq_mergeFree hl (List.isChain_cons.1 hxr).2 rfl]
  exact hi.wellFormed (hcompl hroom hw.complete)

/-! ## `kfree` after `kmalloc` -/

/-- The blocks that are carved out of a free block are that block again when the first one is
freed. -/
theorem mergeFree_carve {n : Nat} (hl : NoAdjacentFree (l ++ x :: r)) (hx : x.used = false)
    (hn : n ≤ x.size) {s : Nat} (ht : Tiles 16 s (l ++ carve x n ++ r) e) :
    mergeFree 16 ((l ++ carve x n ++ r).map (freeAt [x.addr])) = l ++ x :: r := by
  have hxeq : x = ⟨x.addr, x.size, false⟩ := by
    rw [← hx]
  unfold carve at ht ⊢
  by_cases hsmall : x.size - n ≤ HEAP_SPLIT_THRESHOLD
  · rw [if_pos hsmall, List.append_assoc, List.singleton_append] at ht ⊢
    rw [map_freeAt_singleton (x := ⟨x.addr, x.size, true⟩) ht]
    simp only
    rw [← hxeq]
    exact mergeFree_of_noAdjacentFree hl
  · rw [if_neg hsmall, List.append_assoc, List.cons_append, List.singleton_append] at ht ⊢
    rw [map_freeAt_singleton (x := ⟨x.addr, n, true⟩) ht]
    unfold HEAP_SPLIT_THRESHOLD at hsmall
    have hsize : n + (x.size - n - 16) + 16 = x.size := by omega
    calc mergeFree 16 (l ++ ⟨x.addr, n, false⟩ :: ⟨x.addr + 16 + n, x.size - n - 16, false⟩ :: r)
        = l.foldr (consFree 16) (consFree 16 ⟨x.addr, n, false⟩
            (consFree 16 ⟨x.addr + 16 + n, x.size - n - 16, false⟩ (mergeFree 16 r))) :=
          mergeFree_append l _ _
      _ = l.foldr (consFree 16) (consFree 16 x (mergeFree 16 r)) := by
          rw [consFree_consFree rfl rfl]
          simp only [hsize]
          rw [← hxeq]
      _ = mergeFree 16 (l ++ x :: r) := (mergeFree_append l x r).symm
      _ = l ++ x :: r := mergeFree_of_noAdjacentFree hl

/-- Carving a block out of a free block leaves no more free blocks than there were. -/
theorem length_freeAddrs_carve (hx : x.used = false) (n : Nat) :
    (freeAddrs (l ++ carve x n ++ r)).length ≤ (freeAddrs (l ++ x :: r)).length := by
  have hcarve : (freeAddrs (carve x n)).length ≤ 1 := by
    unfold carve
    split <;> simp [freeAddrs]
  rw [freeAddrs_append, freeAddrs_append, freeAddrs_append, freeAddrs_cons_free hx]
  simp only [List.length_append, List.length_cons]
  omega

/-- A request that finds a node is carved out of it. -/
theorem WellFormed.kmalloc {n : Nat} (hw : WellFormed L h (l ++ x :: r) e)
    (hx : x.used = false) (hn : alignUp n 4 ≤ x.size)
    (hfind : h.heapFindFreeNode (alignUp n 4) = .ok x.addr) :
    ∃ h', h.kmalloc L n = .ok (h', x.addr + 16) ∧
      WellFormed L h' (l ++ carve x (alignUp n 4) ++ r) e ∧
      h'.freeNodeList.arrSize = h.freeNodeList.arrSize := by
  have hbounds := hw.tiles.bounds (b := x) (by simp)
  have hpos := L.heapBottom_pos
  have hfits := hw.fits
  have hlive : x.addr ∈ h.freeNodeList.live := by
    rw [hw.free_list, mem_freeAddrs_middle hx]
    exact Or.inl rfl
  obtain ⟨h', hsplit, hcarved⟩ := heapSplitNode_spec hw.inv hx hn (alignUp_four_mod n)
  refine ⟨h', ?_, hcarved.inv.wellFormed (hcarved.complete hlive hw.complete), hcarved.kept.arrSize⟩
  have hptr : add32 x.addr HEADER_SIZE = x.addr + 16 := add32_of_lt (by unfold HEADER_SIZE; omega)
  rw [kmalloc_of_found hfind (by omega), hsplit, bind_ok, hptr]

/-- **`kfree` undoes `kmalloc`.** From a well-formed heap with room on the free list, a request that
is served without an expansion and freed again leaves the same nodes, headers and free list. -/
theorem kfree_undoes_kmalloc {n : Nat} (hw : WellFormed L h bs e)
    (hroom : h.freeNodeList.currSize < h.freeNodeList.arrSize)
    (hfind : h.heapFindFreeNode (alignUp n 4) ≠ .ok 0) :
    ∃ h₁ p h₂, h.kmalloc L n = .ok (h₁, p) ∧ h₁.kfree p = .ok h₂ ∧ SameHeap L h h₂ := by
  obtain ⟨node, hnode, hfound, -⟩ := heapFindFreeNode_spec hw.inv (alignUp n 4)
  have hne : node ≠ 0 := by
    rintro rfl
    exact hfind hnode
  obtain ⟨-, l, x, r, rfl, hx, rfl, hn⟩ := hfound hne
  obtain ⟨h₁, hmalloc, hw₁, harr⟩ := hw.kmalloc hx hn hnode
  -- the free list is no longer than it was, so that the node goes back on it
  have hroom₁ : h₁.freeNodeList.currSize < h₁.freeNodeList.arrSize := by
    calc h₁.freeNodeList.currSize
        = (freeAddrs (l ++ carve x (alignUp n 4) ++ r)).length + 1 := by
          rw [← hw₁.free_list, hw₁.array.length_live]
      _ ≤ (freeAddrs (l ++ x :: r)).length + 1 :=
          Nat.add_le_add_right (length_freeAddrs_carve hx _) 1
      _ = h.freeNodeList.currSize := by rw [← hw.free_list, hw.array.length_live]
      _ < h.freeNodeList.arrSize := hroom
      _ = h₁.freeNodeList.arrSize := harr.symm
  obtain ⟨b, rest, hcarve, hba, hbu, -⟩ := carve_head x hn
  have hb : b ∈ l ++ carve x (alignUp n 4) ++ r := by simp [hcarve]
  obtain ⟨h₂, hfree, hw₂⟩ := hw₁.kfree hroom₁ hb hbu
  rw [hba] at hfree hw₂
  rw [mergeFree_carve hw.coalesced hx hn hw₁.tiles] at hw₂
  exact ⟨h₁, _, h₂, hmalloc, hfree, hw.sameHeap hw₂⟩

theorem kfree_undoes_kmalloc_boot :
    ∃ h₁ p h₂, bootClient.heap.kmalloc bootLayout 100 = .ok (h₁, p) ∧ h₁.kfree p = .ok h₂ ∧
      SameHeap bootLayout bootClient.heap h₂ :=
  kfree_undoes_kmalloc wellFormed_boot (by decide +kernel) (by decide +kernel)

/-! ## Several frees -/

/-- One `kfree` after the other. -/
def freeAll : List Nat → KHeap → Except Stop KHeap
  | [], h => .ok h
  | p :: ps, h => h.kfree p >>= freeAll ps

/-- The free list is not full before any of the calls. -/
def NeverFull : List Nat → KHeap → Prop
  | [], _ => True
  | p :: ps, h => h.freeNodeList.currSize < h.freeNodeList.arrSize ∧
      match h.kfree p with
      | .ok h' => NeverFull ps h'
      | .error _ => True

/-- `p` is the address that `kmalloc` returned for a node that is in use. -/
def LivePtr (bs : List Block) (p : Nat) : Prop := ∃ b ∈ bs, b.used = true ∧ p = b.addr + 16

instance (ps : List Nat) (h : KHeap) : Decidable (NeverFull ps h) := by
  induction ps generalizing h with
  | nil => exact isTrue trivial
  | cons p ps ih =>
      unfold NeverFull
      cases h.kfree p with
      | ok h' =>
          have := ih h'
          exact inferInstance
      | error stop => exact inferInstance

theorem freeAll_cons {p : Nat} {h' : KHeap} (hfree : h.kfree p = .ok h') (ps : List Nat) :
    freeAll (p :: ps) h = freeAll ps h' := by
  rw [freeAll, hfree]
  rfl

theorem NeverFull.cons {p : Nat} {ps : List Nat} (hn : NeverFull (p :: ps) h)
    (hfree : h.kfree p = .ok h') : NeverFull ps h' := by
  have hrest := hn.2
  rw [hfree] at hrest
  exact hrest

/-- The other live pointers are live after a `kfree`. -/
theorem LivePtr.of_ne {q : Nat} (hq : LivePtr bs q) (hne : q ≠ x.addr + 16) :
    LivePtr (mergeFree 16 (bs.map (freeAt [x.addr]))) q := by
  obtain ⟨y, hy, hyu, rfl⟩ := hq
  have hyx : freeAt [x.addr] y = y := by
    refine if_neg fun hmem => hne ?_
    rw [List.mem_singleton.1 hmem]
  refine ⟨y, (mem_mergeFree_of_used hyu _).2 ?_, hyu, rfl⟩
  rw [← hyx]
  exact List.mem_map_of_mem hy

/-- **A run of `kfree` calls.** The blocks of the pointers are free, and no two neighbours are. -/
theorem WellFormed.freeAll (ps : List Nat) : ∀ {h : KHeap} {bs : List Block}, WellFormed L h bs e →
    ps.Nodup → (∀ p ∈ ps, LivePtr bs p) → NeverFull ps h →
    ∃ h', freeAll ps h = .ok h' ∧
      WellFormed L h' (mergeFree 16 (bs.map (freeAt (ps.map (· - 16))))) e := by
  induction ps with
  | nil =>
      intro h bs hw _ _ _
      have hid : bs.map (freeAt []) = bs :=
        (List.map_congr_left fun b _ => if_neg List.not_mem_nil).trans (List.map_id bs)
      refine ⟨h, rfl, ?_⟩
      rw [List.map_nil, hid, mergeFree_of_noAdjacentFree hw.coalesced]
      exact hw
  | cons p ps ih =>
      intro h bs hw hnodup hlive hfull
      obtain ⟨hp, hrest⟩ := List.nodup_cons.1 hnodup
      obtain ⟨x, hx, hu, rfl⟩ := hlive p (by simp)
      obtain ⟨h₁, hfree, hw₁⟩ := hw.kfree hfull.1 hx hu
      have hlive₁ : ∀ q ∈ ps, LivePtr (mergeFree 16 (bs.map (freeAt [x.addr]))) q := by
        intro q hq
        refine (hlive q (List.mem_cons_of_mem _ hq)).of_ne ?_
        rintro rfl
        exact hp hq
      obtain ⟨h', hall, hw'⟩ := ih hw₁ hrest hlive₁ (hfull.cons hfree)
      refine ⟨h', (freeAll_cons hfree ps).trans hall, ?_⟩
      rw [mergeFree_freeAt] at hw'
      exact hw'

/-- **The order of frees does not matter.** Two live allocations can be freed in either order, with
the same nodes, headers and free list at the end. If all live allocations are freed, in any order,
one free node is left that covers the heap. -/
theorem kfree_order_irrelevant (hw : WellFormed L h bs e) :
    (∀ p q, LivePtr bs p → LivePtr bs q → p ≠ q → NeverFull [p, q] h → NeverFull [q, p] h →
      ∃ h₁ h₂, freeAll [p, q] h = .ok h₁ ∧ freeAll [q, p] h = .ok h₂ ∧ SameHeap L h₁ h₂) ∧
    (∀ ps, ps.Nodup → (∀ p, p ∈ ps ↔ LivePtr bs p) → NeverFull ps h →
      ∃ h', freeAll ps h = .ok h' ∧
        WellFormed L h' [⟨L.heapBottom, e - L.heapBottom - 16, false⟩] e) := by
  constructor
  · intro p q hp hq hne hpq hqp
    obtain ⟨h₁, hall₁, hw₁⟩ := hw.freeAll [p, q] (by simp [hne]) (by simp [hp, hq]) hpq
    obtain ⟨h₂, hall₂, hw₂⟩ := hw.freeAll [q, p] (by simp [hne.symm]) (by simp [hp, hq]) hqp
    have hcomm : freeAt ([p, q].map (· - 16)) = freeAt ([q, p].map (· - 16)) := by
      refine freeAt_congr fun a => ?_
      simp only [List.map_cons, List.map_nil, List.mem_cons, List.not_mem_nil, or_false]
      exact or_comm
    rw [hcomm] at hw₁
    exact ⟨h₁, h₂, hall₁, hall₂, hw₁.sameHeap hw₂⟩
  · intro ps hnodup hall hfull
    obtain ⟨h', hfree, hw'⟩ := hw.freeAll ps hnodup (fun p hp => (hall p).1 hp) hfull
    refine ⟨h', hfree, ?_⟩
    have hone : mergeFree 16 (bs.map (freeAt (ps.map (· - 16)))) =
        [⟨L.heapBottom, e - L.heapBottom - 16, false⟩] := by
      refine mergeFree_of_free (tiles_freeAt _ hw.tiles) (by simp [hw.ne]) ?_
      intro b hb
      obtain ⟨c, hc, rfl⟩ := List.mem_map.1 hb
      cases hcu : c.used with
      | false => rw [freeAt_of_free _ hcu, hcu]
      | true =>
          -- the pointer of a block in use is one of those that are freed
          have hmem : c.addr ∈ ps.map (· - 16) :=
            List.mem_map.2 ⟨c.addr + 16, (hall _).2 ⟨c, hc, hcu, rfl⟩, Nat.add_sub_cancel _ _⟩
          unfold freeAt
          rw [if_pos hmem]
    rw [hone] at hw'
    exact hw'

/-- Two allocations from the heap after boot. -/
theorem wellFormed_two_live :
    ∃ h, WellFormed bootLayout h [⟨0xC0128000, 100, true⟩, ⟨0xC0128074, 100, true⟩,
        ⟨0xC01280E8, 3848, false⟩] 0xC0129000 ∧
      NeverFull [0xC0128010, 0xC0128084] h ∧ NeverFull [0xC0128084, 0xC0128010] h := by
  obtain ⟨h₁, hmalloc₁, hw₁, -⟩ := WellFormed.kmalloc (n := 100) (l := []) (r := []) wellFormed_boot
    rfl (by decide) (by decide +kernel)
  have hrun : (bootClient.heap.kmalloc bootLayout 100).toOption.any (fun r =>
      decide (r.1.heapFindFreeNode (alignUp 100 4) = .ok 0xC0128074) &&
      (r.1.kmalloc bootLayout 100).toOption.any (fun r =>
        decide (NeverFull [0xC0128010, 0xC0128084] r.1) &&
        decide (NeverFull [0xC0128084, 0xC0128010] r.1))) = true := by decide +kernel
  rw [hmalloc₁] at hrun
  obtain ⟨hfind, hrun⟩ := Bool.and_eq_true_iff.1 hrun
  obtain ⟨h₂, hmalloc₂, hw₂, -⟩ := WellFormed.kmalloc (n := 100)
    (l := [⟨0xC0128000, 100, true⟩]) (x := ⟨0xC0128074, 3964, false⟩) (r := []) hw₁ rfl (by decide)
    (of_decide_eq_true hfind)
  rw [hmalloc₂] at hrun
  obtain ⟨hpq, hqp⟩ := Bool.and_eq_true_iff.1 hrun
  exact ⟨h₂, hw₂, of_decide_eq_true hpq, of_decide_eq_true hqp⟩

theorem kfree_order_irrelevant_boot :
    ∃ h h₁ h₂, freeAll [0xC0128010, 0xC0128084] h = .ok h₁ ∧
      freeAll [0xC0128084, 0xC0128010] h = .ok h₂ ∧ SameHeap bootLayout h₁ h₂ ∧
      WellFormed bootLayout h₁ [⟨0xC0128000, 4080, false⟩] 0xC0129000 := by
  obtain ⟨h, hw, hpq, hqp⟩ := wellFormed_two_live
  have hlive : ∀ p, p ∈ [0xC0128010, 0xC0128084] ↔ LivePtr [⟨0xC0128000, 100, true⟩,
      ⟨0xC0128074, 100, true⟩, ⟨0xC01280E8, 3848, false⟩] p := by
    intro p
    simp [LivePtr]
  obtain ⟨horder, hall⟩ := kfree_order_irrelevant hw
  obtain ⟨h₁, h₂, h₁eq, h₂eq, hsame⟩ :=
    horder _ _ ((hlive _).1 (by simp)) ((hlive _).1 (by simp)) (by decide) hpq hqp
  obtain ⟨h', h'eq, hw'⟩ := hall _ (by decide) hlive hpq
  cases h₁eq.symm.trans h'eq
  exact ⟨h, h₁, h₂, h₁eq, h₂eq, hsame, hw'⟩

end

end KHeap

end NowOS
