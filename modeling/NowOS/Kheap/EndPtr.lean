import NowOS.Kheap.WellFormed

set_option autoImplicit false

/-! # The pointer to the last node

`expand_heap` puts its new node behind the node that `heap_list_end_ptr` points to, so that has to
be the last node of the chain. `kfree` never writes the pointer although a merge can take the last
header out of the chain. `heap_split_node` writes it, but when it takes a node whole it looks for
`NULL` in a word that is no header. This module says exactly when the pointer stays right; it looks
at the chain only, so nothing is assumed about the free list. -/

namespace NowOS

namespace KHeap

open Client

/-- `a` is the last node of the chain from `heap_bottom`. -/
def IsLast (L : Layout) (h : KHeap) (a : Nat) : Prop := Node L h a ∧ h.nextPtr a = 0

section

variable {L : Layout} {h : KHeap} {bs l r : List Block} {x y : Block} {e : Nat}

/-! ## The nodes of a chain -/

theorem Chain.node (hc : Chain L h bs e) (hx : x ∈ bs) : Node L h x.addr := by
  obtain ⟨l, r, rfl⟩ := List.append_of_mem hx
  -- from left to right: the block before `x` is a node, and its `next_ptr` is `x`
  induction l using List.reverseRecOn generalizing x r with
  | nil =>
      rw [List.nil_append] at hc
      rw [hc.tiles.1]
      exact .bottom
  | append_singleton l z ih =>
      have happ : l ++ [z] ++ x :: r = l ++ z :: (x :: r) := by simp
      have hpos := hc.addr_pos hx
      rw [happ] at hc
      have hz := ih (x := z) (r := x :: r) hc (by simp)
      have hnext : h.nextPtr z.addr = x.addr := hc.links.header.2.1
      rw [← hnext]
      exact .next hz (by omega)

theorem lastAddr_ne_nil (p q : Nat) (hne : bs ≠ []) : lastAddr p bs = lastAddr q bs := by
  cases bs with
  | nil => exact absurd rfl hne
  | cons b bs => rfl

/-- The last node of a chain is its last block. -/
theorem Chain.isLast_iff (hc : Chain L h bs e) (a : Nat) : IsLast L h a ↔ a = lastAddr 0 bs := by
  constructor
  · rintro ⟨hn, h0⟩
    exact hn.eq_last hc h0
  · rintro rfl
    rcases List.eq_nil_or_concat bs with rfl | ⟨l, z, rfl⟩
    · exact absurd rfl hc.ne
    · rw [List.concat_eq_append] at hc ⊢
      have hlast := lastAddr_concat 0 l z
      rw [hlast]
      exact ⟨hc.node (by simp), hc.links.header.2.1⟩

/-! ## `kfree` -/

theorem Chain.mergeWithRight (hc : Chain L h (l ++ x :: r) e) :
    ∃ h', h.mergeWithRight x.addr (headAddr r 0) = (h', x.addr) ∧
      Chain L h' (l ++ (absorbRight x r).1 :: (absorbRight x r).2) e ∧
      (absorbRight x r).1.addr = x.addr ∧ h'.heapListEndPtr = h.heapListEndPtr := by
  cases r with
  | nil => exact ⟨h, by simp [KHeap.mergeWithRight], hc, rfl, rfl⟩
  | cons y r =>
      have hpos := hc.addr_pos (x := y) (by simp)
      cases hy : y.used with
      | true =>
          have hmagic : h.magic y.addr = magicOf y.used := (hc.links.magic_size (by simp)).1
          rw [hy] at hmagic
          simp only [absorbRight, hy, if_true]
          exact ⟨h, mergeWithRight_of_used hmagic, hc, trivial, rfl⟩
      | false =>
          have ht : Tiles 16 L.heapBottom (l ++ [x, y] ++ r) e := by simpa using hc.tiles
          have hl : Links h.mem 0 (l ++ [x, y] ++ r) 0 := by simpa using hc.links
          have hlink := links_merge (zero_lt_heapBottom L) ht hl
          simp only [absorbRight, hy, Bool.false_eq_true, if_false]
          rw [headAddr_cons, mergeWithRight_of_free hc.links (by omega) hy,
            add32_header (merged_size_lt ht hc.fits)]
          exact ⟨_, rfl, ⟨by simp, ht.merge false, by simpa using hlink, hc.fits⟩, trivial, rfl⟩

theorem Chain.mergeWithLeft (hc : Chain L h (l ++ x :: r) e) :
    ∃ h', h.mergeWithLeft x.addr (lastAddr 0 l) x.addr = (h', (absorbLeft l x).2.addr) ∧
      Chain L h' ((absorbLeft l x).1 ++ (absorbLeft l x).2 :: r) e ∧
      h'.heapListEndPtr = h.heapListEndPtr := by
  rcases List.eq_nil_or_concat l with rfl | ⟨l, z, rfl⟩
  · exact ⟨h, by simp [KHeap.mergeWithLeft, absorbLeft], hc, rfl⟩
  · rw [List.concat_eq_append] at hc ⊢
    have hlast := lastAddr_concat 0 l z
    have hpos := hc.addr_pos (x := z) (by simp)
    rw [absorbLeft_concat, hlast]
    cases hz : z.used with
    | true =>
        have hmagic : h.magic z.addr = magicOf z.used := (hc.links.magic_size (by simp)).1
        rw [hz] at hmagic
        rw [if_pos rfl]
        exact ⟨h, mergeWithLeft_of_used hmagic, hc, rfl⟩
    | false =>
        have ht : Tiles 16 L.heapBottom (l ++ [z, x] ++ r) e := by simpa using hc.tiles
        have hl : Links h.mem 0 (l ++ [z, x] ++ r) 0 := by simpa using hc.links
        have hl' : Links h.mem 0 (l ++ z :: x :: r) 0 := by simpa using hc.links
        have hlink := links_merge (zero_lt_heapBottom L) ht hl
        have hcomm : x.size + z.size + 16 = z.size + x.size + 16 := by omega
        have hsum := merged_size_lt ht hc.fits
        rw [if_neg (by simp), mergeWithLeft_of_free hl' (by omega) hz, add32_header (by omega),
          hcomm]
        exact ⟨_, rfl, ⟨by simp, ht.merge false, by simpa using hlink, hc.fits⟩, rfl⟩

/-- `heap_merge_nodes` merges a block into the chain and does not look at the end pointer. -/
theorem Chain.heapMergeNodes (hc : Chain L h (l ++ x :: r) e) :
    ∃ h', h.heapMergeNodes x.addr = .ok h' ∧ Chain L h' (coalesce l x r) e ∧
      h'.heapListEndPtr = h.heapListEndPtr := by
  obtain ⟨-, hxn, hxp, -⟩ := hc.links.header
  obtain ⟨h1, he1, hc1, ha1, hend1⟩ := hc.mergeWithRight
  obtain ⟨h2, he2, hc2, hend2⟩ := hc1.mergeWithLeft
  rw [ha1] at he2
  refine ⟨h2.insertFree (absorbLeft l (absorbRight x r).1).2.addr, ?_,
    ⟨hc2.ne, hc2.tiles, hc2.links, hc2.fits⟩, hend2.trans hend1⟩
  unfold KHeap.heapMergeNodes
  rw [if_pos (hc.checkHeader (by simp))]
  simp only [nextPtr, prevPtr, hxn, hxp]
  rw [he1]
  simp only
  rw [he2]

theorem Chain.kfree (hc : Chain L h (l ++ x :: r) e) :
    ∃ h', h.kfree (x.addr + 16) = .ok h' ∧
      Chain L h' (coalesce l ⟨x.addr, x.size, false⟩ r) e ∧
      h'.heapListEndPtr = h.heapListEndPtr := by
  rw [kfree_eq hc]
  refine Chain.heapMergeNodes (x := ⟨x.addr, x.size, false⟩) ?_
  exact ⟨by simp, hc.tiles.swap rfl rfl, hc.links.setUsed hc.tiles false, hc.fits⟩

theorem lastAddr_coalesce (l : List Block) (x : Block) (r : List Block) :
    lastAddr 0 (coalesce l x r) =
      lastAddr (absorbLeft l (absorbRight x r).1).2.addr (absorbRight x r).2 := by
  unfold coalesce
  rw [lastAddr_append, lastAddr_cons]

/-- The header of the last node goes when `node` is freed: `node` is last and its left neighbour is
free, or its right neighbour is free and last. -/
def MergesEnd (h : KHeap) (node : Nat) : Prop :=
  (h.nextPtr node = 0 ∧ h.prevPtr node ≠ 0 ∧ h.magic (h.prevPtr node) = MAGIC_FREE) ∨
    (h.nextPtr node ≠ 0 ∧ h.magic (h.nextPtr node) = MAGIC_FREE ∧
      h.nextPtr (h.nextPtr node) = 0)

instance (h : KHeap) (node : Nat) : Decidable (MergesEnd h node) :=
  inferInstanceAs (Decidable (_ ∨ _))

/-- What is left of a merge with the left block begins no later than the block that was merged. -/
theorem absorbLeft_addr_le (hl : ∀ z ∈ l, z.addr ≤ x.addr) : (absorbLeft l x).2.addr ≤ x.addr := by
  rcases List.eq_nil_or_concat l with rfl | ⟨l, z, rfl⟩
  · simp [absorbLeft]
  · rw [List.concat_eq_append] at hl ⊢
    have hz := hl z (by simp)
    rw [absorbLeft_concat]
    split_ifs
    · exact le_rfl
    · exact hz

/-- The blocks on the left of `x` begin before it, those on the right after it. -/
theorem Chain.addr_split (hc : Chain L h (l ++ x :: r) e) :
    (∀ z ∈ l, z.addr < x.addr) ∧ ∀ y ∈ r, x.addr < y.addr := by
  have hpw := hc.tiles.pairwise
  rw [List.pairwise_append, List.pairwise_cons] at hpw
  obtain ⟨-, ⟨hxr, -⟩, hlx⟩ := hpw
  constructor
  · intro z hz
    have hzx := hlx z hz x (by simp)
    omega
  · intro y hy
    have hxy := hxr y hy
    omega

/-- Freeing the last block: it stays the last one unless its left neighbour is free. -/
theorem Chain.lastAddr_coalesce_last (hc : Chain L h (l ++ [x]) e) :
    lastAddr 0 (l ++ [x]) = lastAddr 0 (coalesce l ⟨x.addr, x.size, false⟩ []) ↔
      ¬ MergesEnd h x.addr := by
  have hxn : h.nextPtr x.addr = 0 := hc.links.header.2.1
  have hxp : h.prevPtr x.addr = lastAddr 0 l := hc.links.header.2.2.1
  rw [lastAddr_append, lastAddr_cons, lastAddr_coalesce]
  unfold MergesEnd
  rw [hxn, hxp]
  rcases List.eq_nil_or_concat l with rfl | ⟨l, z, rfl⟩
  · simp [absorbRight, absorbLeft]
  · rw [List.concat_eq_append] at hc ⊢
    have hz := hc.addr_split.1 z (by simp)
    have hpos := hc.addr_pos (x := z) (by simp)
    have hmagic : h.magic z.addr = magicOf z.used := (hc.links.magic_size (by simp)).1
    have hlast := lastAddr_concat 0 l z
    rw [hlast, hmagic, magicOf_eq_free]
    simp only [absorbRight, absorbLeft_concat]
    cases z.used with
    | true => simp
    | false =>
        simp
        omega

/-- Freeing a block with a right neighbour: the last block stays the last one unless it is this
neighbour, and free. -/
theorem Chain.lastAddr_coalesce_next (hc : Chain L h (l ++ x :: y :: r) e) :
    lastAddr 0 (l ++ x :: y :: r) = lastAddr 0 (coalesce l ⟨x.addr, x.size, false⟩ (y :: r)) ↔
      ¬ MergesEnd h x.addr := by
  have hpos := hc.addr_pos (x := y) (by simp)
  have hc' : Chain L h ((l ++ [x]) ++ y :: r) e := by simpa using hc
  have hxn : h.nextPtr x.addr = y.addr := hc.links.header.2.1
  have hyn : h.nextPtr y.addr = headAddr r 0 := hc'.links.header.2.1
  have hmagic : h.magic y.addr = magicOf y.used := (hc.links.magic_size (by simp)).1
  rw [lastAddr_append, lastAddr_cons, lastAddr_coalesce]
  unfold MergesEnd
  rw [hxn, hmagic, magicOf_eq_free, hyn]
  cases hu : y.used with
  | true => simp [absorbRight, hu, hpos.ne']
  | false =>
      cases r with
      | nil =>
          -- `y` was last; the block that took it begins at `x` or before
          obtain ⟨hleft, hright⟩ := hc.addr_split
          have hxy := hright y (by simp)
          have hle : (absorbLeft l ⟨x.addr, x.size + y.size + 16, false⟩).2.addr ≤ x.addr :=
            absorbLeft_addr_le (x := ⟨x.addr, x.size + y.size + 16, false⟩) fun z hz =>
              (hleft z hz).le
          simp only [absorbRight, hu, Bool.false_eq_true, if_false, lastAddr_cons, lastAddr_nil,
            headAddr_nil]
          constructor
          · intro heq
            omega
          · intro hno
            exact absurd (Or.inr ⟨hpos.ne', trivial, trivial⟩) hno
      | cons w r =>
          have hw := hc.addr_pos (x := w) (by simp)
          simp [absorbRight, hu, hw.ne', hpos.ne']

/-- The last block is still the last one after a merge, unless `MergesEnd` holds. -/
theorem Chain.lastAddr_coalesce_iff (hc : Chain L h (l ++ x :: r) e) :
    lastAddr 0 (l ++ x :: r) = lastAddr 0 (coalesce l ⟨x.addr, x.size, false⟩ r) ↔
      ¬ MergesEnd h x.addr := by
  cases r with
  | nil => exact hc.lastAddr_coalesce_last
  | cons y r => exact hc.lastAddr_coalesce_next

/-- **`kfree` and the end pointer.** When a node in use is freed, `heap_list_end_ptr` still points
to the last node of the chain exactly if the merge did not take the header of the last node out of
it. -/
theorem kfree_isLast_iff (hc : Chain L h bs e) (hend : IsLast L h h.heapListEndPtr) {node : Nat}
    (hnode : Node L h node) :
    ∃ h', h.kfree (node + 16) = .ok h' ∧
      (IsLast L h' h'.heapListEndPtr ↔ ¬ MergesEnd h node) := by
  obtain ⟨x, hx, rfl⟩ := hnode.mem hc
  obtain ⟨l, r, rfl⟩ := List.append_of_mem hx
  obtain ⟨h', hok, hc', hkeep⟩ := hc.kfree
  refine ⟨h', hok, ?_⟩
  rw [hc'.isLast_iff, hkeep, (hc.isLast_iff _).1 hend]
  exact hc.lastAddr_coalesce_iff

/-- Two allocations; the first one is freed. -/
theorem kfree_isLast_first :
    ∃ s h', runList (call bootLayout) [.kmalloc 100, .kmalloc 100] bootClient = some s ∧
      s.heap.kfree 0xC0128010 = .ok h' ∧ IsLast bootLayout h' h'.heapListEndPtr := by
  have hrun : (runList (call bootLayout) [.kmalloc 100, .kmalloc 100] bootClient).any (fun s =>
      decide (Chain bootLayout s.heap [⟨0xC0128000, 100, true⟩, ⟨0xC0128074, 100, true⟩,
        ⟨0xC01280E8, 3848, false⟩] 0xC0129000) && s.heap.heapListEndPtr == 0xC01280E8 &&
      !decide (MergesEnd s.heap 0xC0128000)) = true := by decide +kernel
  obtain ⟨s, hs, hshape⟩ := (Option.any_eq_true _ _).1 hrun
  simp only [Bool.and_eq_true, beq_iff_eq, decide_eq_true_eq, Bool.not_eq_true',
    decide_eq_false_iff_not] at hshape
  obtain ⟨⟨hc, hptr⟩, hmerges⟩ := hshape
  obtain ⟨h', hok, hiff⟩ := kfree_isLast_iff hc ((hc.isLast_iff _).2 hptr) 
    (hc.node (x := ⟨0xC0128000, 100, true⟩) (by simp))
  exact ⟨s, h', hs, hok, hiff.2 hmerges⟩

/-- **`kfree` leaves a stale end pointer.** One allocation splits the first node; when it is freed,
it is merged with the last node, but `heap_list_end_ptr` still points to the header that is gone. -/
theorem kfree_stale_end :
    ∃ s bs e h', runList (call bootLayout) [.kmalloc 100] bootClient = some s ∧
      Chain bootLayout s.heap bs e ∧ NoAdjacentFree bs ∧
      s.heap.freeNodeList.live = freeAddrs bs ∧ IsLast bootLayout s.heap s.heap.heapListEndPtr ∧
      s.heap.magic 0xC0128000 = MAGIC_USED ∧ s.heap.kfree 0xC0128010 = .ok h' ∧
      ¬ IsLast bootLayout h' h'.heapListEndPtr := by
  have hrun : (runList (call bootLayout) [.kmalloc 100] bootClient).any (fun s =>
      decide (Chain bootLayout s.heap [⟨0xC0128000, 100, true⟩, ⟨0xC0128074, 3964, false⟩]
        0xC0129000) &&
      s.heap.freeNodeList.live == [0xC0128074] && s.heap.heapListEndPtr == 0xC0128074 &&
      (s.heap.kfree 0xC0128010).toOption.any (fun h' =>
        decide (Chain bootLayout h' [⟨0xC0128000, 4080, false⟩] 0xC0129000) &&
        h'.heapListEndPtr == 0xC0128074)) = true := by decide +kernel
  obtain ⟨s, hs, hshape⟩ := (Option.any_eq_true _ _).1 hrun
  simp only [Bool.and_eq_true, beq_iff_eq, decide_eq_true_eq] at hshape
  obtain ⟨⟨⟨hc, hlive⟩, hptr⟩, hfree⟩ := hshape
  obtain ⟨h', hok, hend⟩ := exists_ok_of_any hfree
  simp only [Bool.and_eq_true, beq_iff_eq, decide_eq_true_eq] at hend
  obtain ⟨hc', hptr'⟩ := hend
  exact ⟨s, _, _, h', hs, hc, by decide, hlive, (hc.isLast_iff _).2 hptr,
    (hc.links.magic_size (b := ⟨0xC0128000, 100, true⟩) (by simp)).1, hok, fun hlast => by
      rw [hc'.isLast_iff, hptr'] at hlast
      exact absurd hlast (by decide)⟩

/-! ## `kmalloc` without an expansion -/

/-- The search only keeps a node that it found large enough. -/
theorem foldFind_fits {n : Nat} :
    ∀ (nodes : List Nat) {best node : Nat}, nodes.foldlM (h.findStep n) best = .ok node →
      node = best ∨ n ≤ h.size node := by
  intro nodes
  induction nodes with
  | nil =>
      intro best node hf
      cases hf
      exact Or.inl rfl
  | cons a rest ih =>
      intro best node hf
      rw [List.foldlM_cons] at hf
      unfold findStep at hf
      split_ifs at hf with hcheck htake
      · rcases ih hf with rfl | hfit
        · exact Or.inr (by tauto)
        · exact Or.inr hfit
      · exact ih hf
      · cases hf

/-- `kmalloc` of a request for which a node is found. -/
theorem kmalloc_of_found {n node : Nat} (hfind : h.heapFindFreeNode (alignUp n 4) = .ok node)
    (hne : node ≠ 0) :
    h.kmalloc L n =
      (h.heapSplitNode node (alignUp n 4)).bind fun h' => .ok (h', add32 node HEADER_SIZE) := by
  rw [kmalloc_eq_bind, hfind, bind_ok, findOrExpand_of_ne hne, bind_ok]

/-- The node is taken whole although it is not the last one, and the word that `heap_split_node`
takes for the `next_ptr` of the rest is `NULL`. -/
def StrayEnd (h : KHeap) (node size : Nat) : Prop :=
  h.size node - size ≤ HEAP_SPLIT_THRESHOLD ∧ h.nextPtr node ≠ 0 ∧ h.mem (node + 20 + size) = 0

instance (h : KHeap) (node size : Nat) : Decidable (StrayEnd h node size) :=
  inferInstanceAs (Decidable (_ ∧ _))

/-- A node that is taken whole. -/
theorem Chain.splitAbsorb {n : Nat} (hc : Chain L h (l ++ x :: r) e) (hn : n ≤ x.size) :
    ∃ h', (h.removeFree x.addr).splitAbsorb x.addr (x.addr + 16 + n) (headAddr r 0)
        (lastAddr 0 l) x.size = h' ∧ Chain L h' (l ++ [⟨x.addr, x.size, true⟩] ++ r) e ∧
      h'.heapListEndPtr =
        if headAddr r 0 = 0 ∨ h.mem (x.addr + 20 + n) = 0 then x.addr else h.heapListEndPtr := by
  -- the word behind the request is neither in the header on the left nor in the one on the right
  have hread : relink h.mem (lastAddr 0 l) (headAddr r 0) x.addr x.addr (x.addr + 16 + n + 4) =
      h.mem (x.addr + 20 + n) := by
    obtain ⟨m, htl, hm, htr⟩ := (tiles_append _ _ _ _).1 hc.tiles
    have haddr : x.addr + 16 + n + 4 = x.addr + 20 + n := by omega
    rw [haddr]
    refine relink_of_ne h.mem (fun hl0 => ?_) (fun hr0 => ?_)
    · have hne : l ≠ [] := by
        rintro rfl
        exact hl0 rfl
      have := lastAddr_mem 0 htl hne
      omega
    · have hne : r ≠ [] := by
        rintro rfl
        exact hr0 rfl
      have := headAddr_mem 0 htr hne
      omega
  refine ⟨_, rfl, ?_, ?_⟩
  · rw [splitAbsorb_eq, removeFree_mem]
    refine ⟨by simp, ?_, links_take (zero_lt_heapBottom L) hc.tiles hc.links true, hc.fits⟩
    rw [List.append_assoc]
    exact hc.tiles.swap rfl rfl
  · rw [splitAbsorb_eq, removeFree_mem, hread]
    rfl

/-- A node whose rest becomes a node. -/
theorem Chain.splitRest {n : Nat} (hc : Chain L h (l ++ x :: r) e)
    (hbig : ¬ x.size - n ≤ HEAP_SPLIT_THRESHOLD) :
    ∃ h', (h.removeFree x.addr).splitRest x.addr (x.addr + 16 + n) (headAddr r 0)
        (lastAddr 0 l) n (x.size - n - 16) = h' ∧
      Chain L h' (l ++ [⟨x.addr, n, true⟩, ⟨x.addr + 16 + n, x.size - n - 16, false⟩] ++ r) e ∧
      h'.heapListEndPtr =
        if headAddr r 0 = 0 then x.addr + 16 + n else h.heapListEndPtr := by
  unfold HEAP_SPLIT_THRESHOLD at hbig
  refine ⟨_, rfl, ?_, ?_⟩
  · rw [splitRest_eq _ _ _ _ _ (by omega), removeFree_mem]
    exact ⟨by simp, hc.tiles.split rfl rfl (by simp only; omega),
      links_split (y := ⟨x.addr, n, true⟩) (z := ⟨x.addr + 16 + n, x.size - n - 16, false⟩)
        (zero_lt_heapBottom L) hc.tiles hc.links rfl rfl (by simp only; omega), hc.fits⟩
  · rw [splitRest_eq _ _ _ _ _ (by omega)]
    rfl

/-- The `next_ptr` of a block is `NULL` exactly if it is the last one. -/
theorem Chain.headAddr_eq_zero_iff (hc : Chain L h (l ++ x :: r) e) :
    headAddr r 0 = 0 ↔ r = [] := by
  cases r with
  | nil => simp
  | cons y r =>
      have hpos := hc.addr_pos (x := y) (by simp)
      simp [hpos.ne']

/-- A block that is followed by others begins before the last one. -/
theorem Chain.addr_lt_lastAddr (hc : Chain L h (l ++ x :: r) e) (hr : r ≠ []) :
    x.addr < lastAddr 0 (l ++ x :: r) := by
  obtain ⟨m, -, hm, htr⟩ := (tiles_append _ _ _ _).1 hc.tiles
  have hlr := lastAddr_mem x.addr htr hr
  rw [lastAddr_append, lastAddr_cons]
  omega

/-- Splitting a node and the end pointer. -/
theorem Chain.heapSplitNode {n : Nat} (hc : Chain L h (l ++ x :: r) e)
    (hend : h.heapListEndPtr = lastAddr 0 (l ++ x :: r)) (hn : n ≤ x.size) :
    ∃ h', h.heapSplitNode x.addr n = .ok h' ∧
      (IsLast L h' h'.heapListEndPtr ↔ ¬ StrayEnd h x.addr n) := by
  have hxn : h.nextPtr x.addr = headAddr r 0 := hc.links.header.2.1
  have hxs : h.size x.addr = x.size := hc.links.header.2.2.2
  have hlast : r ≠ [] → ∀ mid : List Block, lastAddr 0 (l ++ mid ++ r) = h.heapListEndPtr := by
    intro hne mid
    rw [hend, lastAddr_append, lastAddr_append, lastAddr_append, lastAddr_cons]
    exact lastAddr_ne_nil _ _ hne
  have hhead := hc.headAddr_eq_zero_iff
  rw [heapSplitNode_eq hc hn]
  unfold StrayEnd
  rw [hxn, hxs]
  by_cases hsmall : x.size - n ≤ HEAP_SPLIT_THRESHOLD
  · obtain ⟨h', hsplit, hc', hptr⟩ := hc.splitAbsorb hn
    rw [if_pos hsmall, hsplit]
    refine ⟨h', rfl, ?_⟩
    rw [hc'.isLast_iff, hptr]
    by_cases hr : r = []
    · subst hr
      rw [List.append_nil, lastAddr_append]
      simp
    · rw [hlast hr]
      by_cases hword : h.mem (x.addr + 20 + n) = 0
      · -- the pointer is moved to `x`, which is not the last node
        have hne : x.addr ≠ h.heapListEndPtr := by
          rw [hend]
          exact (hc.addr_lt_lastAddr hr).ne
        rw [if_pos (Or.inr hword)]
        exact ⟨fun heq => absurd heq hne, fun hno => absurd ⟨hsmall, mt hhead.1 hr, hword⟩ hno⟩
      · rw [if_neg (by rw [hhead]; tauto)]
        tauto
  · obtain ⟨h', hsplit, hc', hptr⟩ := hc.splitRest hsmall
    rw [if_neg hsmall, hsplit]
    refine ⟨h', rfl, ?_⟩
    have hright : IsLast L h' h'.heapListEndPtr := by
      rw [hc'.isLast_iff, hptr]
      by_cases hr : r = []
      · subst hr
        rw [List.append_nil, lastAddr_append]
        simp
      · rw [hlast hr, if_neg (mt hhead.1 hr)]
    exact ⟨fun _ hstray => hsmall hstray.1, fun _ => hright⟩

/-- **`kmalloc` and the end pointer.** When a node of the chain is found for a request, then
`heap_list_end_ptr` points to the last node afterwards exactly if the stray read of
`heap_split_node` does not see a `NULL`. -/
theorem kmalloc_isLast_iff (hc : Chain L h bs e) (hend : IsLast L h h.heapListEndPtr) {n node : Nat}
    (hfind : h.heapFindFreeNode (alignUp n 4) = .ok node) (hnode : Node L h node) :
    ∃ h' p, h.kmalloc L n = .ok (h', p) ∧
      (IsLast L h' h'.heapListEndPtr ↔ ¬ StrayEnd h node (alignUp n 4)) := by
  obtain ⟨x, hx, rfl⟩ := hnode.mem hc
  have hpos := hc.addr_pos hx
  have hsize : h.size x.addr = x.size := (hc.links.magic_size hx).2
  have hfit := (foldFind_fits _ hfind).resolve_left (by omega)
  rw [hsize] at hfit
  obtain ⟨l, r, rfl⟩ := List.append_of_mem hx
  obtain ⟨h', hsplit, hiff⟩ := hc.heapSplitNode ((hc.isLast_iff _).1 hend) hfit
  refine ⟨h', add32 x.addr HEADER_SIZE, ?_, hiff⟩
  rw [kmalloc_of_found hfind (by omega), hsplit, bind_ok]

/-- A request that leaves a rest. -/
theorem kmalloc_isLast_boot :
    ∃ h' p, bootClient.heap.kmalloc bootLayout 100 = .ok (h', p) ∧
      IsLast bootLayout h' h'.heapListEndPtr := by
  have hc : Chain bootLayout bootClient.heap [⟨0xC0128000, 4080, false⟩] 0xC0129000 := by
    decide +kernel
  have hfind : bootClient.heap.heapFindFreeNode (alignUp 100 4) = .ok 0xC0128000 := by
    decide +kernel
  obtain ⟨h', p, hok, hiff⟩ := kmalloc_isLast_iff hc ((hc.isLast_iff _).2 (by decide +kernel)) hfind
    (hc.node (x := ⟨0xC0128000, 4080, false⟩) (by simp))
  exact ⟨h', p, hok, hiff.2 (by decide +kernel)⟩

/-- **`kmalloc` moves the end pointer to a node in the middle.** The first of two allocations is
freed, and a request that is twelve bytes smaller takes it whole. The word that is looked at is in
the payload that was freed. -/
theorem kmalloc_stray_end :
    ∃ s bs e h' p, runList (call bootLayout) [.kmalloc 100, .kmalloc 100, .kfree 0xC0128010]
        bootClient = some s ∧ Reach (Init bootLayout) (Step bootLayout) s ∧
      Chain bootLayout s.heap bs e ∧ IsLast bootLayout s.heap s.heap.heapListEndPtr ∧
      s.heap.heapFindFreeNode (alignUp 88 4) = .ok 0xC0128000 ∧
      Node bootLayout s.heap 0xC0128000 ∧ s.heap.kmalloc bootLayout 88 = .ok (h', p) ∧
      ¬ IsLast bootLayout h' h'.heapListEndPtr := by
  have hrun : (runList (call bootLayout) [.kmalloc 100, .kmalloc 100, .kfree 0xC0128010]
      bootClient).any (fun s =>
      decide (Chain bootLayout s.heap [⟨0xC0128000, 100, false⟩, ⟨0xC0128074, 100, true⟩,
        ⟨0xC01280E8, 3848, false⟩] 0xC0129000) && s.heap.heapListEndPtr == 0xC01280E8 &&
      (s.heap.heapFindFreeNode (alignUp 88 4)).toOption == some 0xC0128000 &&
      (s.heap.kmalloc bootLayout 88).toOption.any (fun r =>
        r.1.nextPtr r.1.heapListEndPtr == 0xC0128074)) = true := by decide +kernel
  obtain ⟨s, hs, hshape⟩ := (Option.any_eq_true _ _).1 hrun
  simp only [Bool.and_eq_true, beq_iff_eq, decide_eq_true_eq] at hshape
  obtain ⟨⟨⟨hc, hptr⟩, hfind⟩, hmalloc⟩ := hshape
  obtain ⟨⟨h', p⟩, hok, hnext⟩ := exists_ok_of_any hmalloc
  refine ⟨s, _, _, h', p, hs, reach_runList (fun _ _ _ => step_of_call) (.start init_bootClient) hs,
    hc, (hc.isLast_iff _).2 hptr, ?_,
    hc.node (x := ⟨0xC0128000, 100, false⟩) (by simp), hok, fun hlast => ?_⟩
  · cases hf : s.heap.heapFindFreeNode (alignUp 88 4) with
    | error stop =>
        rw [hf] at hfind
        cases hfind
    | ok node =>
        rw [hf] at hfind
        rw [Option.some.inj hfind]
  · have h0 := hlast.2
    rw [beq_iff_eq.1 hnext] at h0
    cases h0

end

end KHeap

end NowOS
