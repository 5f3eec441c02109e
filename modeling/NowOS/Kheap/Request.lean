import NowOS.Kheap.EndPtr

set_option autoImplicit false

/-! # Requests that expand the heap

`kmalloc` expands the heap by the first multiple of 4096 above the request, and searches the free
list again. Two things are left to chance. The count has no room for the header of the new node,
so the search can fail although the heap was expanded. And the count and `top_heap_ptr` are 32-bit
words that wrap around for requests near `2^32`. -/

namespace NowOS

namespace KHeap

open SortedArrayList Client

section

variable {L : Layout} {h h1 : KHeap} {bs : List Block} {e : Nat}

/-! ## `kmalloc` along its path through an expansion -/

theorem kmalloc_of_panic {n count : Nat} {stop : Stop}
    (hfind : h.heapFindFreeNode (alignUp n 4) = .ok 0)
    (hcount : expandCountOf (alignUp n 4) = some count)
    (hexp : h.expandHeap L count = .error stop) : h.kmalloc L n = .error stop := by
  rw [kmalloc_eq_bind, hfind, bind_ok, findOrExpand_zero, hcount, Option.elim_some, hexp,
    bind_error, bind_error]

theorem kmalloc_of_expanded {n count node : Nat} (hfind : h.heapFindFreeNode (alignUp n 4) = .ok 0)
    (hcount : expandCountOf (alignUp n 4) = some count) (hexp : h.expandHeap L count = .ok h1)
    (hfind1 : h1.heapFindFreeNode (alignUp n 4) = .ok node) :
    h.kmalloc L n =
      if node = 0 then .error (.panic "Not enough memory?")
      else (h1.heapSplitNode node (alignUp n 4)).bind fun h' =>
        .ok (h', add32 node HEADER_SIZE) := by
  rw [kmalloc_eq_bind, hfind, bind_ok, findOrExpand_zero, hcount, Option.elim_some, hexp, bind_ok,
    hfind1, bind_ok]
  by_cases h0 : node = 0
  · rw [if_pos h0, if_pos h0, bind_error]
  · rw [if_neg h0, if_neg h0, bind_ok]

/-- `heap_split_node` of a node with a header returns. -/
theorem heapSplitNode_ok {node : Nat} (size : Nat) (hcheck : h.checkHeader node = true) :
    ∃ h', h.heapSplitNode node size = .ok h' := by
  unfold heapSplitNode
  rw [if_pos hcheck]
  simp only
  split_ifs
  · exact ⟨_, rfl⟩
  · exact ⟨_, rfl⟩

/-! ## What an expansion leaves on the free list -/

theorem mem_of_mem_absorbLeft (l : List Block) (x : Block) {b : Block}
    (hb : b ∈ (absorbLeft l x).1) : b ∈ l := by
  rcases List.eq_nil_or_concat l with rfl | ⟨l, z, rfl⟩
  · exact hb
  · rw [List.concat_eq_append] at hb ⊢
    rw [absorbLeft_concat] at hb
    split_ifs at hb
    · exact hb
    · exact List.mem_append_left _ hb

theorem coalesce_nil (l : List Block) (x : Block) :
    coalesce l x [] = (absorbLeft l x).1 ++ [(absorbLeft l x).2] := rfl

/-- `heap_merge_nodes` of the last node when the node before it is in use. -/
theorem heapMergeNodes_last_used {l : List Block} {z x : Block}
    (hl : Links h.mem 0 (l ++ z :: x :: []) 0) (hz : z.used = true) :
    h.heapMergeNodes x.addr = .ok (h.insertFree x.addr) := by
  have hl' : Links h.mem 0 ((l ++ [z]) ++ x :: []) 0 := by simpa using hl
  have hlast := lastAddr_concat 0 l z
  obtain ⟨hmagic, hnext, hprev, -⟩ := hl'.header
  rw [hlast] at hprev
  have hzmagic : h.magic z.addr = magicOf true := by
    rw [← hz]
    exact (hl.magic_size (by simp)).1
  have hcheck : h.checkHeader x.addr = true := by
    unfold checkHeader magic
    rw [hmagic]
    cases x.used <;> decide
  have hright : h.mergeWithRight x.addr 0 = (h, x.addr) := by simp [mergeWithRight]
  unfold heapMergeNodes
  rw [if_pos hcheck]
  simp only [nextPtr, prevPtr] at hnext hprev ⊢
  rw [hnext, hprev]
  simp only [headAddr_nil, hright]
  rw [mergeWithLeft_of_used hzmagic]

/-- `heap_merge_nodes` of the last node when the node before it is free; nothing is assumed about
the sizes. -/
theorem heapMergeNodes_last {l : List Block} {z x : Block}
    (hl : Links h.mem 0 (l ++ z :: x :: []) 0) (hz0 : z.addr ≠ 0) (hz : z.used = false) :
    h.heapMergeNodes x.addr = .ok (insertFree
      { (h.removeFree x.addr).removeFree z.addr with
        mem := putHeader (relink h.mem (lastAddr 0 l) 0 z.addr z.addr) z.addr false 0 (lastAddr 0 l)
          (add32 (add32 x.size z.size) HEADER_SIZE) } z.addr) := by
  have hl' : Links h.mem 0 ((l ++ [z]) ++ x :: []) 0 := by simpa using hl
  have hlast := lastAddr_concat 0 l z
  obtain ⟨hmagic, hnext, hprev, -⟩ := hl'.header
  rw [hlast] at hprev
  have hcheck : h.checkHeader x.addr = true := by
    unfold checkHeader magic
    rw [hmagic]
    cases x.used <;> decide
  have hright : h.mergeWithRight x.addr 0 = (h, x.addr) := by simp [mergeWithRight]
  unfold heapMergeNodes
  rw [if_pos hcheck]
  simp only [nextPtr, prevPtr] at hnext hprev ⊢
  rw [hnext, hprev]
  simp only [headAddr_nil, hright]
  rw [mergeWithLeft_of_free hl hz0 hz]
  rfl

theorem Inv.end_not_listed (hi : Inv L h bs e) : e ∉ h.freeNodeList.live := by
  intro hel
  obtain ⟨b, hb, -, hbe⟩ := (mem_freeAddrs bs e).1 (hi.listed e hel)
  have := (hi.tiles.bounds hb).2
  omega

theorem Inv.not_listed_of_used {x : Block} (hi : Inv L h bs e) (hx : x ∈ bs)
    (hu : x.used = true) : x.addr ∉ h.freeNodeList.live := by
  intro hin
  obtain ⟨b, hb, hbu, hbx⟩ := (mem_freeAddrs _ _).1 (hi.listed _ hin)
  rw [hi.tiles.eq_of_addr_eq (by decide) hb hx hbx, hu] at hbu
  cases hbu

/-- A full list takes the new or enlarged node only if the last node is on it, whose cell becomes
free when the two are merged. -/
theorem listed_of_full {count : Nat} {h2 : KHeap} (hi : Inv L h bs e) (hc : count % 4096 = 0)
    (hpos : 4096 ≤ count) (htop : h.topHeapPtr + count < L.heapTop)
    (hfull : h.freeNodeList.arrSize ≤ h.freeNodeList.currSize)
    (hok : (expandStore h bs e count).heapMergeNodes e = .ok h2) :
    (absorbLeft bs (grown h e count)).2.addr ∈ h2.freeNodeList.live ↔
      lastAddr 0 bs ∈ h.freeNodeList.live := by
  have hm := merging_of_expand hi hc hpos htop
  have hPe : HeapAddr L e := hi.tiles.le
  have hstore : (expandStore h bs e count).freeNodeList = h.freeNodeList :=
    insertList_of_full hi.list hPe hfull
  rcases List.eq_nil_or_concat bs with rfl | ⟨l, z, rfl⟩
  · exact absurd rfl hi.ne
  · rw [List.concat_eq_append] at hi hm hok hstore ⊢
    have hzmem : z ∈ l ++ [z] := by simp
    have hlinks : Links (expandStore h (l ++ [z]) e count).mem 0
        (l ++ z :: grown h e count :: []) 0 := by simpa using hm.links
    rw [absorbLeft_concat, lastAddr_concat 0 l z]
    cases hz : z.used with
    | true =>
        -- nothing is merged, and the node is not inserted
        have hmerge : (expandStore h (l ++ [z]) e count).heapMergeNodes e = _ :=
          heapMergeNodes_last_used hlinks hz
        rw [hok] at hmerge
        cases hmerge
        have hlive : (insertFree (expandStore h (l ++ [z]) e count) e).freeNodeList =
            h.freeNodeList := by
          show (insertList e (expandStore h (l ++ [z]) e count).freeNodeList).2 = _
          rw [hstore, insertList_of_full hi.list hPe hfull]
        rw [if_pos rfl]
        show e ∈ (insertFree (expandStore h (l ++ [z]) e count) e).freeNodeList.live ↔ _
        rw [hlive]
        exact iff_of_false hi.end_not_listed (hi.not_listed_of_used hzmem hz)
    | false =>
        have hz0 : z.addr ≠ 0 := by
          have := hi.chain.addr_pos hzmem
          omega
        have hmerge : (expandStore h (l ++ [z]) e count).heapMergeNodes e = _ :=
          heapMergeNodes_last hlinks hz0 hz
        rw [hok] at hmerge
        cases hmerge
        rw [if_neg (by simp)]
        show z.addr ∈ live (insertList z.addr (removeList z.addr
          (removeList e (expandStore h (l ++ [z]) e count).freeNodeList).2).2).2 ↔ _
        rw [hstore, removeList_of_not_mem hi.list hPe hi.end_not_listed]
        exact mem_live_reinsert_of_full hi.list (hi.tiles.bounds hzmem).1 hfull

/-- `expand_heap` returns, and lists the new or enlarged node if there is room, or if the last node
is listed. -/
theorem expandHeap_ok {count : Nat} (hi : Inv L h bs e) (hend : h.heapListEndPtr = lastAddr 0 bs)
    (hc : count % 4096 = 0) (hpos : 4096 ≤ count) (htop : h.topHeapPtr + count < L.heapTop) :
    ∃ h1, h.expandHeap L count = .ok h1 ∧
      ((absorbLeft bs (grown h e count)).2.addr ∈ h1.freeNodeList.live ↔
        h.freeNodeList.currSize < h.freeNodeList.arrSize ∨ lastAddr 0 bs ∈ h.freeNodeList.live) ∧
      ∀ c ∈ h1.freeNodeList.live,
        c = (absorbLeft bs (grown h e count)).2.addr ∨ c = e ∨ c ∈ h.freeNodeList.live := by
  have hP : HeapAddr L e := hi.tiles.le
  have hm := merging_of_expand hi hc hpos htop
  obtain ⟨h2, he, -⟩ := heapMergeNodes_spec hm
  obtain ⟨hlisted, hsub⟩ := heapMergeNodes_live hm he
  have he : (expandStore h bs e count).heapMergeNodes e = .ok h2 := he
  have hlt := L.heapTop_lt
  refine ⟨{ h2 with heapListEndPtr := e }, ?_, ?_, ?_⟩
  · rw [expandHeap_eq hi hend hpos (by unfold W32; omega), if_neg (by omega), he]
    rfl
  · by_cases hroom : h.freeNodeList.currSize < h.freeNodeList.arrSize
    · refine iff_of_true (hlisted (Or.inr ?_)) (Or.inl hroom)
      exact (mem_live_insertList hi.list hP (Or.inl hroom) e).2 (Or.inl rfl)
    · have hfull := listed_of_full hi hc hpos htop (by omega) he
      rw [or_iff_right hroom]
      exact hfull
  · intro c hcl
    exact (hsub c hcl).imp_right fun hcs => mem_live_insertList_imp hi.list hP hcs

/-- The size of the node that `expand_heap(count)` makes behind the last node; if the last node is
free, it is enlarged by the new one. -/
def enlargedSize (h : KHeap) (count : Nat) : Nat :=
  let lastNode := h.heapListEndPtr
  let newAllocSize := h.topHeapPtr + count - (lastNode + HEADER_SIZE + h.size lastNode)
  if h.magic lastNode = MAGIC_FREE then newAllocSize + h.size lastNode + HEADER_SIZE
  else newAllocSize

theorem enlargedSize_eq {count : Nat} (hi : Inv L h bs e)
    (hend : h.heapListEndPtr = lastAddr 0 bs) :
    enlargedSize h count = (absorbLeft bs (grown h e count)).2.size := by
  rcases List.eq_nil_or_concat bs with rfl | ⟨l, z, rfl⟩
  · exact absurd rfl hi.ne
  · rw [List.concat_eq_append] at hi hend ⊢
    obtain ⟨m, -, hm, hme⟩ := (tiles_append _ _ _ _).1 hi.tiles
    rw [tiles_nil] at hme
    have hlast := lastAddr_concat 0 l z
    have hmagic : h.magic z.addr = magicOf z.used := (hi.links.magic_size (by simp)).1
    have hsize : h.size z.addr = z.size := (hi.links.magic_size (by simp)).2
    rw [hlast] at hend
    rw [absorbLeft_concat]
    unfold enlargedSize
    simp only [hend, hmagic, hsize, magicOf_eq_free, HEADER_SIZE]
    have hze : z.addr + 16 + z.size = e := by omega
    cases z.used with
    | true => simp [grown, hze]
    | false => simp [grown, hze]

/-- After a search that found nothing, every block on the free list is too small. -/
theorem size_lt_of_find_none {size : Nat} {x : Block} (hi : Inv L h bs e)
    (hfind : h.heapFindFreeNode size = .ok 0) (hx : x ∈ bs) (hlive : x.addr ∈ h.freeNodeList.live) :
    x.size < size := by
  obtain ⟨first, hfirst, -, hnofit⟩ := heapFindFreeNode_spec hi size
  have hsize : h.size x.addr = x.size := (hi.links.magic_size hx).2
  rw [hfind] at hfirst
  cases hfirst
  rw [← hsize]
  exact hnofit rfl _ hlive

/-- The second search succeeds exactly if the new or enlarged node is listed and large enough. -/
theorem heapFindFreeNode_expanded {count size : Nat} (hi : Inv L h bs e)
    (hend : h.heapListEndPtr = lastAddr 0 bs) (hfind : h.heapFindFreeNode size = .ok 0)
    (hc : count % 4096 = 0) (hpos : 4096 ≤ count) (htop : h.topHeapPtr + count < L.heapTop) :
    ∃ h1 node, h.expandHeap L count = .ok h1 ∧ h1.heapFindFreeNode size = .ok node ∧
      (node ≠ 0 → h1.checkHeader node = true) ∧
      (node ≠ 0 ↔ (h.freeNodeList.currSize < h.freeNodeList.arrSize ∨
        lastAddr 0 bs ∈ h.freeNodeList.live) ∧ size ≤ enlargedSize h count) := by
  have hlt := L.heapTop_lt
  obtain ⟨h1, hexp, hlisted, hsub⟩ := expandHeap_ok hi hend hc hpos htop
  have hx := expandHeap_spec hi hend hc hpos (by unfold W32; omega) hexp
  obtain ⟨node, hnode, hfit, hnone⟩ := heapFindFreeNode_spec hx.inv size
  -- the merged block, and the blocks before it
  rw [enlargedSize_eq hi hend]
  have hinv := hx.inv
  rw [coalesce_nil] at hinv hfit
  have hmerged : h1.size (absorbLeft bs (grown h e count)).2.addr =
      (absorbLeft bs (grown h e count)).2.size := (hinv.links.magic_size (by simp)).2
  refine ⟨h1, node, hexp, hnode, ?_, ?_, ?_⟩
  · intro h0
    obtain ⟨-, l, x, r, hsplit, -, rfl, -⟩ := hfit h0
    exact hinv.chain.checkHeader (by rw [hsplit]; simp)
  · intro h0
    obtain ⟨hlive, l, x, r, hsplit, -, rfl, hxn⟩ := hfit h0
    have hmem : x ∈ (absorbLeft bs (grown h e count)).1 ++
        [(absorbLeft bs (grown h e count)).2] := by
      rw [hsplit]
      simp
    rcases List.mem_append.mp hmem with hold | hnew
    · -- a block that was there before: the first search would have found it
      have hxb := mem_of_mem_absorbLeft _ _ hold
      have hxe := (hi.tiles.bounds hxb).2
      have hpw := hinv.tiles.pairwise
      rw [List.pairwise_append] at hpw
      have hxm := hpw.2.2 x hold _ (List.mem_singleton_self _)
      have hin : x.addr ∈ h.freeNodeList.live := by
        rcases hsub _ hlive with heq | heq | hin
        · omega
        · omega
        · exact hin
      have := size_lt_of_find_none hi hfind hxb hin
      omega
    · rw [List.mem_singleton.mp hnew] at hxn hlive
      exact ⟨hlisted.1 hlive, hxn⟩
  · rintro ⟨hroom, hsize⟩ h0
    have := hnone h0 _ (hlisted.2 hroom)
    omega

/-! ## Out of memory -/

/-- **What a request of `n` bytes needs.** Some listed node is large enough. Or the node that
`expand_heap` makes gets a place on the free list, because there is room or because the listed last
node gives up its place; and it is large enough, because the last node is free and becomes a part of
it, or the chain ends at `top_heap_ptr` as it does before the first expansion, or the rounding to
4096 bytes leaves room for a header. -/
def Servable (h : KHeap) (n : Nat) : Prop :=
  (∃ a ∈ h.freeNodeList.live, alignUp n 4 ≤ h.size a) ∨
    (h.freeNodeList.currSize < h.freeNodeList.arrSize ∨
        h.heapListEndPtr ∈ h.freeNodeList.live) ∧
      (h.magic h.heapListEndPtr = MAGIC_FREE ∨
        h.heapListEndPtr + HEADER_SIZE + h.size h.heapListEndPtr = h.topHeapPtr ∨
        alignUp n 4 % 4096 ≤ 4080)

instance (h : KHeap) (n : Nat) : Decidable (Servable h n) := inferInstanceAs (Decidable (_ ∨ _))

/-- The size of the new node. A free last node adds its own size and header, which is more than what
the chain may reach behind `top_heap_ptr`. -/
theorem le_enlargedSize_iff {n count : Nat} (hi : Inv L h bs e)
    (hend : h.heapListEndPtr = lastAddr 0 bs)
    (hends : e = h.topHeapPtr ∨ e = h.topHeapPtr + 16)
    (hcount : expandCountOf (alignUp n 4) = some count) :
    alignUp n 4 ≤ enlargedSize h count ↔
      h.magic h.heapListEndPtr = MAGIC_FREE ∨
        h.heapListEndPtr + HEADER_SIZE + h.size h.heapListEndPtr = h.topHeapPtr ∨
        alignUp n 4 % 4096 ≤ 4080 := by
  obtain ⟨z, hz, hza, hze⟩ := hi.last
  have hsize : h.size z.addr = z.size := (hi.links.magic_size hz).2
  have hlt : alignUp n 4 < 0xFFFFF000 := by
    by_contra hge
    rw [expandCountOf, expandLoop_spins (by omega) _ 0 (by decide) (by decide)] at hcount
    cases hcount
  have hcount' : count = (alignUp n 4 / 4096 + 1) * 4096 := by
    rw [expandCountOf_eq hlt] at hcount
    exact (Option.some.inj hcount).symm
  unfold enlargedSize
  simp only [hend, ← hza, hsize, HEADER_SIZE]
  by_cases hfree : h.magic z.addr = MAGIC_FREE
  · rw [if_pos hfree]
    exact iff_of_true (by omega) (Or.inl hfree)
  · rw [if_neg hfree, or_iff_right hfree]
    omega

/-- The request that needs an expansion. -/
theorem Inv.servable_iff_of_find_none (hi : Inv L h bs e)
    (hend : h.heapListEndPtr = lastAddr 0 bs)
    (hends : e = h.topHeapPtr ∨ e = h.topHeapPtr + 16) {n count : Nat}
    (hfind : h.heapFindFreeNode (alignUp n 4) = .ok 0)
    (hcount : expandCountOf (alignUp n 4) = some count)
    (htop : h.topHeapPtr + count < L.heapTop) :
    h.kmalloc L n ≠ .error (.panic "Not enough memory?") ↔ Servable h n := by
  obtain ⟨hc1, -, hc2⟩ := expandCountOf_spec hcount
  obtain ⟨h1, node, hexp, hfind1, hcheck, hserved⟩ :=
    heapFindFreeNode_expanded hi hend hfind hc1 hc2 htop
  have hnone : ¬ ∃ a ∈ h.freeNodeList.live, alignUp n 4 ≤ h.size a := by
    rintro ⟨a, ha, hle⟩
    obtain ⟨b, hb, -, rfl⟩ := (mem_freeAddrs bs a).1 (hi.listed a ha)
    have hsize : h.size b.addr = b.size := (hi.links.magic_size hb).2
    have := size_lt_of_find_none hi hfind hb ha
    omega
  unfold Servable
  rw [kmalloc_of_expanded hfind hcount hexp hfind1, or_iff_right hnone,
    ← le_enlargedSize_iff hi hend hends hcount, hend, ← hserved]
  by_cases hz : node = 0
  · rw [if_pos hz]
    exact ⟨fun hk => absurd rfl hk, fun hk => absurd hz hk⟩
  · rw [if_neg hz]
    obtain ⟨h2, hsplit⟩ := heapSplitNode_ok (alignUp n 4) (hcheck hz)
    rw [hsplit]
    exact ⟨fun _ => hz, fun _ hk => by cases hk⟩

theorem Inv.servable_iff (hi : Inv L h bs e) (hend : h.heapListEndPtr = lastAddr 0 bs)
    (hends : e = h.topHeapPtr ∨ e = h.topHeapPtr + 16) {n count : Nat}
    (hcount : expandCountOf (alignUp n 4) = some count)
    (htop : h.topHeapPtr + count < L.heapTop) :
    h.kmalloc L n ≠ .error (.panic "Not enough memory?") ↔ Servable h n := by
  obtain ⟨first, hfirst, hfit, -⟩ := heapFindFreeNode_spec hi (alignUp n 4)
  by_cases h0 : first = 0
  · subst h0
    exact hi.servable_iff_of_find_none hend hends hfirst hcount htop
  · obtain ⟨hlive, l, x, r, hsplit, -, rfl, hxn⟩ := hfit h0
    have hx : x ∈ bs := by
      rw [hsplit]
      simp
    have hsize : h.size x.addr = x.size := (hi.links.magic_size hx).2
    obtain ⟨h2, hok⟩ := heapSplitNode_ok (alignUp n 4) (hi.chain.checkHeader hx)
    rw [kmalloc_of_found hfirst h0, hok, bind_ok]
    refine iff_of_true (fun hk => ?_) (Or.inl ⟨x.addr, hlive, by omega⟩)
    cases hk

/-- **No spurious out-of-memory.** In every state of a run whose expansions are in order, with
`heap_list_end_ptr` at the last node: if the expansion for the request stays below `heap_top`, then
`kmalloc` does not panic with `Not enough memory?` exactly if the request is servable. -/
theorem kmalloc_enough_iff {s : Client}
    (hr : Reach (Init L) (Guarded (Expandable L) (Step L)) s)
    (hend : IsLast L s.heap s.heap.heapListEndPtr) {n count : Nat}
    (hcount : expandCountOf (alignUp n 4) = some count)
    (htop : s.heap.topHeapPtr + count < L.heapTop) :
    s.heap.kmalloc L n ≠ .error (.panic "Not enough memory?") ↔ Servable s.heap n := by
  obtain ⟨bs, e, ho, hends⟩ := owned_ends hr
  exact ho.inv.servable_iff ((ho.inv.chain.isLast_iff _).1 hend) hends hcount htop

theorem expandable_of_isLast {s : Client} {n count : Nat}
    (hlast : IsLast L s.heap s.heap.heapListEndPtr)
    (hcount : expandCountOf (alignUp n 4) = some count) (htop : s.heap.topHeapPtr + count < W32) :
    Expandable L (.kmalloc n) s := by
  rintro m hm -
  cases hm
  refine ⟨hlast, fun c hc => ?_⟩
  rw [hcount] at hc
  cases hc
  exact htop

theorem isLast_init {s : Client} (hs : Init L s) : IsLast L s.heap s.heap.heapListEndPtr := by
  have hc := (owned_init hs).inv.chain
  refine (hc.isLast_iff _).2 ?_
  obtain ⟨mem, arrPtr, earlyHeapPtr, -, rfl⟩ := hs
  rw [initKheap_eq]
  rfl

/-- After two requests, the second of which expanded the heap, another 4080 bytes are served; and so
is a request that expands the heap while the list, which has two cells, is full. -/
theorem kmalloc_enough_boot :
    (∃ s, runList (call bootLayout) [.kmalloc 4080, .kmalloc 4092] bootClient = some s ∧
      s.heap.kmalloc bootLayout 4080 ≠ .error (.panic "Not enough memory?")) ∧
    tightClient.heap.kmalloc bootLayout 5000 ≠ .error (.panic "Not enough memory?") := by
  have hsmall : expandCountOf (alignUp 4080 4) = some 4096 := expandCountOf_eq (by decide)
  have hpage : expandCountOf (alignUp 4092 4) = some 4096 := expandCountOf_eq (by decide)
  constructor
  · have hrun : (call bootLayout (.kmalloc 4080) bootClient).any (fun s1 =>
        decide (Chain bootLayout s1.heap [⟨0xC0128000, 4080, true⟩] 0xC0129000) &&
        s1.heap.heapListEndPtr == 0xC0128000 && decide (s1.heap.topHeapPtr + 4096 < W32) &&
        (call bootLayout (.kmalloc 4092) s1).any (fun s =>
          decide (Chain bootLayout s.heap [⟨0xC0128000, 4080, true⟩, ⟨0xC0129000, 4096, true⟩]
            0xC012A010) && s.heap.heapListEndPtr == 0xC0129000 &&
          decide (s.heap.topHeapPtr + 4096 < bootLayout.heapTop) &&
          decide (Servable s.heap 4080))) = true := by decide +kernel
    obtain ⟨s1, hs1, hshape⟩ := (Option.any_eq_true _ _).1 hrun
    simp only [Bool.and_eq_true, beq_iff_eq, decide_eq_true_eq] at hshape
    obtain ⟨⟨⟨hc1, hptr1⟩, htop1⟩, hrun2⟩ := hshape
    obtain ⟨s, hs, hshape⟩ := (Option.any_eq_true _ _).1 hrun2
    simp only [Bool.and_eq_true, beq_iff_eq, decide_eq_true_eq] at hshape
    obtain ⟨⟨⟨hc, hptr⟩, htop⟩, hserv⟩ := hshape
    have hr1 : Reach (Init bootLayout) (Guarded (Expandable bootLayout) (Step bootLayout)) s1 :=
      .next (.kmalloc 4080) (.start init_bootClient)
        ⟨expandable_of_isLast (isLast_init init_bootClient) hsmall (by decide +kernel),
          step_of_call hs1⟩
    have hr : Reach (Init bootLayout) (Guarded (Expandable bootLayout) (Step bootLayout)) s :=
      .next (.kmalloc 4092) hr1
        ⟨expandable_of_isLast ((hc1.isLast_iff _).2 hptr1) hpage htop1, step_of_call hs⟩
    refine ⟨s, by simp only [runList, hs1, hs], ?_⟩
    exact (kmalloc_enough_iff hr ((hc.isLast_iff _).2 hptr) hsmall htop).2 hserv
  · have h8192 : expandCountOf (alignUp 5000 4) = some 8192 := expandCountOf_eq (by decide)
    exact (kmalloc_enough_iff (.start init_tightClient) (isLast_init init_tightClient) h8192
      (by decide +kernel)).2 (by decide +kernel)

/-- **A spurious out-of-memory.** The first two requests leave the chain one header behind
`top_heap_ptr`. The next expansion by 4096 bytes makes a node of 4080 bytes, which is too small for
the 4092 bytes that the heap was expanded for. -/
theorem kmalloc_not_enough :
    ∃ s, runList (call bootLayout) [.kmalloc 4080, .kmalloc 4092] bootClient = some s ∧
      Reach (Init bootLayout) (Step bootLayout) s ∧
      IsLast bootLayout s.heap s.heap.heapListEndPtr ∧
      s.heap.freeNodeList.currSize < s.heap.freeNodeList.arrSize ∧
      expandCountOf (alignUp 4092 4) = some 4096 ∧
      s.heap.topHeapPtr + 4096 < bootLayout.heapTop ∧
      s.heap.kmalloc bootLayout 4092 = .error (.panic "Not enough memory?") := by
  have hrun : (runList (call bootLayout) [.kmalloc 4080, .kmalloc 4092] bootClient).any (fun s =>
      decide (Chain bootLayout s.heap [⟨0xC0128000, 4080, true⟩, ⟨0xC0129000, 4096, true⟩]
        0xC012A010) && s.heap.heapListEndPtr == 0xC0129000 &&
      decide (s.heap.freeNodeList.currSize < s.heap.freeNodeList.arrSize) &&
      decide (s.heap.topHeapPtr + 4096 < bootLayout.heapTop) &&
      (match s.heap.kmalloc bootLayout 4092 with
        | .error stop => stop == .panic "Not enough memory?"
        | .ok _ => false)) = true := by decide +kernel
  obtain ⟨s, hs, hshape⟩ := (Option.any_eq_true _ _).1 hrun
  simp only [Bool.and_eq_true, beq_iff_eq, decide_eq_true_eq] at hshape
  obtain ⟨⟨⟨⟨hc, hptr⟩, hroom⟩, htop⟩, hpanic⟩ := hshape
  refine ⟨s, hs, reach_runList (fun _ _ _ => step_of_call) (.start init_bootClient) hs,
    (hc.isLast_iff _).2 hptr, hroom, expandCountOf_eq (by decide), htop, ?_⟩
  cases hk : s.heap.kmalloc bootLayout 4092 with
  | ok r =>
      rw [hk] at hpanic
      cases hpanic
  | error stop =>
      rw [hk] at hpanic
      rw [beq_iff_eq.1 hpanic]

/-! ## Arithmetic

The heap after `init_kheap`: one free node of 4080 bytes, which is also the last one. -/

/-- `kmalloc(n)` panics, or it returns a node of at least `n` bytes that end below `heap_top`. -/
def Serves (L : Layout) (h : KHeap) (n : Nat) : Prop :=
  (∃ msg, h.kmalloc L n = .error (.panic msg)) ∨
    ∃ h' p, h.kmalloc L n = .ok (h', p) ∧ n ≤ h'.size (sub32 p HEADER_SIZE) ∧ p + n ≤ L.heapTop

/-- The sizes for which no computation of `kmalloc` wraps around, and those next to the end of
memory for which the size of the new node wraps around to `0`. -/
def NoWrapSize (L : Layout) (n : Nat) : Prop :=
  n ≤ 0xFFFFEFFC ∧
    (L.heapBottom + 4096 + (alignUp n 4 / 4096 + 1) * 4096 < W32 ∨ 0xFFFFE000 ≤ alignUp n 4)

instance (L : Layout) (n : Nat) : Decidable (NoWrapSize L n) := inferInstanceAs (Decidable (_ ∧ _))

/-- `kmalloc` without wrap-around panics or returns; the top of the heap stays below `heap_top`. -/
theorem Inv.kmalloc_returns {n count : Nat} (hi : Inv L h bs e)
    (hend : h.heapListEndPtr = lastAddr 0 bs) (hcount : expandCountOf (alignUp n 4) = some count)
    (hw : h.topHeapPtr + count < W32) :
    (∃ msg, h.kmalloc L n = .error (.panic msg)) ∨
      ∃ h' p, h.kmalloc L n = .ok (h', p) ∧
        (h.heapFindFreeNode (alignUp n 4) = .ok 0 →
          h'.topHeapPtr = h.topHeapPtr + count ∧ h.topHeapPtr + count < L.heapTop) := by
  obtain ⟨hc1, -, hc2⟩ := expandCountOf_spec hcount
  obtain ⟨first, hfirst, hfit, -⟩ := heapFindFreeNode_spec hi (alignUp n 4)
  by_cases h0 : first = 0
  · subst h0
    by_cases htop : h.topHeapPtr + count < L.heapTop
    · obtain ⟨h1, hexp, -⟩ := expandHeap_ok hi hend hc1 hc2 htop
      have hx := expandHeap_spec hi hend hc1 hc2 hw hexp
      obtain ⟨node, hnode, hfit1, -⟩ := heapFindFreeNode_spec hx.inv (alignUp n 4)
      rw [kmalloc_of_expanded hfirst hcount hexp hnode]
      by_cases hz : node = 0
      · rw [if_pos hz]
        exact Or.inl ⟨_, rfl⟩
      · obtain ⟨hlive, l, x, r, hsplit, hxu, rfl, hxn⟩ := hfit1 hz
        have hinv := hx.inv
        rw [hsplit] at hinv
        obtain ⟨h2, bs2, hok, -, htop2, -⟩ := Allocated.of_split hinv hxu hxn hlive
        rw [if_neg hz, hok]
        exact Or.inr ⟨h2, _, rfl, fun _ => ⟨htop2.trans hx.top, htop⟩⟩
    · left
      refine ⟨"Weve expanded past our heap top...", ?_⟩
      have hexp := expandHeap_eq hi hend hc2 hw
      rw [if_pos (by omega)] at hexp
      exact kmalloc_of_panic hfirst hcount hexp
  · obtain ⟨-, l, x, r, hsplit, -, rfl, -⟩ := hfit h0
    have hcheck := hi.chain.checkHeader (x := x) (by rw [hsplit]; simp)
    obtain ⟨h2, hok⟩ := heapSplitNode_ok (alignUp n 4) hcheck
    rw [kmalloc_of_found hfirst h0, hok, bind_ok]
    refine Or.inr ⟨h2, _, rfl, fun hnone => ?_⟩
    rw [hfirst] at hnone
    exact absurd (Except.ok.inj hnone) h0

/-- A request without wrap-around is served. -/
theorem Inv.serves {n count : Nat} (hi : Inv L h bs e) (hend : h.heapListEndPtr = lastAddr 0 bs)
    (hn : n ≤ 0xFFFFFFFC) (hcount : expandCountOf (alignUp n 4) = some count)
    (hw : h.topHeapPtr + count < W32) (he : e ≤ L.heapTop) (htop : h.topHeapPtr % 4096 = 0) :
    Serves L h n := by
  have hcan : CanExpand h bs n := by
    intro _
    refine ⟨hend, fun c hc => ?_⟩
    rw [hcount] at hc
    cases hc
    exact hw
  rcases hi.kmalloc_returns hend hcount hw with hpanic | ⟨h', p, hok, hbelow⟩
  · exact Or.inl hpanic
  · obtain ⟨bs', e', ha, hafter, -⟩ := kmalloc_spec hi hcan hok
    obtain ⟨b, hb, -, rfl, hbn, -⟩ := ha.block
    have hbounds := ha.inv.tiles.bounds hb
    have hsize : h'.size b.addr = b.size := (ha.inv.links.magic_size hb).2
    have hle := (alignUp_four hn).1
    -- `top_heap_ptr` and `heap_top` are page aligned, so a header fits between them
    have he' : e' ≤ L.heapTop := by
      by_cases hnone : h.heapFindFreeNode (alignUp n 4) = .ok 0
      · obtain ⟨htop', hlt⟩ := hbelow hnone
        have hal := L.heapBottom_aligned
        have heq := L.heapTop_eq
        obtain ⟨hc, -⟩ := expandCountOf_spec hcount
        rw [hafter.expanded hnone, htop']
        omega
      · rw [(hafter.kept hnone).1]
        exact he
    have hsub : sub32 (b.addr + 16) HEADER_SIZE = b.addr := sub32_header b.addr
    refine Or.inr ⟨h', b.addr + 16, hok, ?_, by omega⟩
    rw [hsub, hsize]
    omega

/-! ### A `top_heap_ptr` that wraps around

It is below `heap_top` again, so nothing panics. The new node seems to reach around the whole
memory, and the first node is enlarged by it, modulo `2^32`. -/

/-- The state of the heap after `init_kheap`, as far as `kmalloc` looks at it: one free node from
`b` to `e`. -/
structure Fresh (L : Layout) (h : KHeap) (b e : Nat) : Prop where
  bottom : L.heapBottom = b
  inv : Inv L h [⟨b, 4080, false⟩] e
  endPtr : h.heapListEndPtr = b
  top : h.topHeapPtr = e

theorem fresh_init {s : Client} (hs : Init L s) :
    Fresh L s.heap L.heapBottom (L.heapBottom + 4096) := by
  refine ⟨rfl, (owned_init hs).inv, ?_, ?_⟩
  · obtain ⟨mem, arrPtr, earlyHeapPtr, -, rfl⟩ := hs
    rw [initKheap_eq]
  · obtain ⟨mem, arrPtr, earlyHeapPtr, -, rfl⟩ := hs
    rw [initKheap_eq]

section

variable {b : Nat}

theorem Fresh.bounds (hf : Fresh L h b e) :
    3221225472 ≤ b ∧ b + 4096 = e ∧ L.heapTop = b + 102400 ∧ L.heapTop + 16384 ≤ 4294967296 := by
  have hb := hf.bottom
  have hend : b + 16 + 4080 = e := by
    have ht := hf.inv.tiles.2
    rw [hb] at ht
    exact ht
  have hpos := L.heapBottom_pos
  have htopEq := L.heapTop_eq
  have htopLt := L.heapTop_lt
  omega

theorem Fresh.heapAddr (hf : Fresh L h b e) : HeapAddr L b ∧ HeapAddr L e := by
  obtain ⟨-, hend, -⟩ := hf.bounds
  have hb := hf.bottom
  unfold HeapAddr
  omega

/-- The state in which `expand_heap` calls `heap_merge_nodes`. -/
def wrapStore (h : KHeap) (b e count : Nat) : KHeap :=
  { h with
    mem := Function.update (putHeader h.mem e false 0 b count) (b + 4) e
    freeNodeList := (h.freeNodeList.insertList e).2
    topHeapPtr := add32 e count }

theorem Fresh.expandHeap_eq {count : Nat} (hf : Fresh L h b e) (hlt : count < W32)
    (hwrap : W32 ≤ e + count) :
    h.expandHeap L count =
      ((wrapStore h b e count).heapMergeNodes e).map fun h' => { h' with heapListEndPtr := e } := by
  obtain ⟨hpos, hend, htopEq, htopLt⟩ := hf.bounds
  have hbelow : ¬ L.heapTop ≤ add32 e count := by
    unfold add32 W32 at *
    omega
  have hnode : add32 (add32 b HEADER_SIZE) 4080 = e := by
    unfold add32 HEADER_SIZE W32
    omega
  have hnew : sub32 (add32 e count) e = count := sub32_add32 (by unfold W32; omega) hlt
  have hsize : h.mem (b + 12) = 4080 :=
    (hf.inv.links.magic_size (b := ⟨b, 4080, false⟩) (by simp)).2
  have hcheck : ∀ top p, checkHeader ⟨h.mem, h.freeNodeList, top, p⟩ b = true :=
    fun _ _ => hf.inv.chain.checkHeader (x := ⟨b, 4080, false⟩) (by simp)
  unfold expandHeap wrapStore
  simp only [hf.top, hf.endPtr, hbelow, hcheck, if_true, if_false, KHeap.size, hsize, hnode, hnew,
    heapSetHeader, setNextPtr, insertFree]
  split
  next heq => rw [heq]; rfl
  next heq => rw [heq]; rfl

/-- The free list without the new node and the first node. -/
def wrapList (h : KHeap) (b e : Nat) : SortedArrayList :=
  (removeList b (removeList e (h.freeNodeList.insertList e).2).2).2

/-- The state after an expansion whose `top_heap_ptr` wraps around. -/
def wrapped (h : KHeap) (b e count : Nat) : KHeap :=
  { mem := putHeader (wrapStore h b e count).mem b false 0 0 (add32 (add32 count 4080) HEADER_SIZE)
    freeNodeList := (insertList b (wrapList h b e)).2
    topHeapPtr := add32 e count
    heapListEndPtr := e }

/-- **An expansion whose `top_heap_ptr` wraps around.** -/
theorem Fresh.expandHeap_wraps (hf : Fresh L h b e) (count : Nat) (hlt : count < W32)
    (hwrap : W32 ≤ e + count) : h.expandHeap L count = .ok (wrapped h b e count) := by
  obtain ⟨hpos, -⟩ := hf.bounds
  have hb0 : b ≠ 0 := by omega
  have hlinks := links_grow count (zero_lt_heapBottom L) hf.inv.ne hf.inv.tiles hf.inv.links
  simp only [lastAddr_cons, lastAddr_nil] at hlinks
  have hmerge := heapMergeNodes_last (h := wrapStore h b e count) (l := []) hlinks hb0 rfl
  have hrelink : ∀ mem a q, relink mem 0 0 a q = mem := by simp [relink]
  simp only [lastAddr_nil, hrelink] at hmerge
  rw [hf.expandHeap_eq hlt hwrap, hmerge]
  rfl

theorem Fresh.ok_wrapList (hf : Fresh L h b e) : (wrapList h b e).Ok (HeapAddr L) := by
  obtain ⟨hPb, hPe⟩ := hf.heapAddr
  exact ok_removeList (ok_removeList (ok_insertList hf.inv.list hPe) hPe) hPb

theorem Fresh.live_wrapList (hf : Fresh L h b e) (c : Nat) : c ∉ (wrapList h b e).live := by
  intro hcl
  obtain ⟨hPb, hPe⟩ := hf.heapAddr
  have hok := ok_insertList hf.inv.list hPe
  unfold wrapList at hcl
  rw [mem_live_removeList (ok_removeList hok hPe) hPb, mem_live_removeList hok hPe] at hcl
  obtain ⟨⟨hcg, hce⟩, hcb⟩ := hcl
  rcases mem_live_insertList_imp hf.inv.list hPe hcg with hce' | hch
  · exact hce hce'
  · obtain ⟨x, hx, -, hxc⟩ := (mem_freeAddrs _ c).1 (hf.inv.listed c hch)
    rw [List.mem_singleton.mp hx] at hxc
    exact hcb hxc.symm

theorem Fresh.arrSize_wrapList (hf : Fresh L h b e) :
    (wrapList h b e).arrSize = h.freeNodeList.arrSize := by
  obtain ⟨hPb, hPe⟩ := hf.heapAddr
  have hok := ok_insertList hf.inv.list hPe
  unfold wrapList
  rw [removeList_arrSize (ok_removeList hok hPe) hPb, removeList_arrSize hok hPe,
    insertList_arrSize]

/-! The first node is the only free one then, and its size is taken modulo `2^32`. -/

theorem wrapped_size (h : KHeap) (b e count : Nat) :
    (wrapped h b e count).size b = add32 (add32 count 4080) HEADER_SIZE := by
  simp [KHeap.size, wrapped, putHeader]

theorem wrapped_checkHeader (h : KHeap) (b e count : Nat) :
    (wrapped h b e count).checkHeader b = true := by
  have hmagic : (wrapped h b e count).magic b = magicOf false := by
    simp [KHeap.magic, wrapped, putHeader]
  unfold checkHeader
  rw [hmagic]
  decide

theorem Fresh.live_wrapped (hf : Fresh L h b e) {count c : Nat}
    (hc : c ∈ (wrapped h b e count).freeNodeList.live) : c = b :=
  (mem_live_insertList_imp hf.ok_wrapList hf.heapAddr.1 hc).resolve_right (hf.live_wrapList c)

theorem Fresh.mem_live_wrapped (hf : Fresh L h b e) (count : Nat)
    (hcap : 2 ≤ h.freeNodeList.arrSize) : b ∈ (wrapped h b e count).freeNodeList.live := by
  have hok := hf.ok_wrapList
  refine (mem_live_insertList hok hf.heapAddr.1 (Or.inl ?_) _).2 (Or.inl rfl)
  rw [hf.arrSize_wrapList]
  by_contra hfull
  exact hf.live_wrapList _ ((hok.mem_live _).2 ⟨0, by omega, rfl⟩)

/-- The search after an expansion that wrapped around. -/
theorem Fresh.find_wrapped (hf : Fresh L h b e) (count size : Nat) :
    ∃ node, (wrapped h b e count).heapFindFreeNode size = .ok node ∧
      (node ≠ 0 → node = b ∧ size ≤ add32 (add32 count 4080) HEADER_SIZE) ∧
      (2 ≤ h.freeNodeList.arrSize → size ≤ add32 (add32 count 4080) HEADER_SIZE → node ≠ 0) := by
  obtain ⟨hpos, -⟩ := hf.bounds
  have hsize := wrapped_size h b e count
  have hnodes : (wrapped h b e count).Nodes (wrapped h b e count).freeNodeList.live := by
    intro a ha
    rw [hf.live_wrapped ha]
    exact ⟨by omega, wrapped_checkHeader h b e count⟩
  refine ⟨_, heapFindFreeNode_eq hnodes size, ?_, ?_⟩
  · intro h0
    obtain ⟨hmem, hfit⟩ := mem_of_bestFit (bestFit_of_getD_ne_zero h0)
    have heq := hf.live_wrapped hmem
    rw [heq, hsize] at hfit
    exact ⟨heq, hfit⟩
  · intro hcap hfit h0
    have := (getD_bestFit_eq_zero_iff hnodes).1 h0 _ (hf.mem_live_wrapped count hcap)
    omega

/-! ### All sizes -/

/-- What a search of the one free node finds. -/
theorem Fresh.find (hf : Fresh L h b e) (size : Nat) :
    ∃ node, h.heapFindFreeNode size = .ok node ∧ (node ≠ 0 → node = b ∧ size ≤ 4080) ∧
      (b ∈ h.freeNodeList.live → size ≤ 4080 → node ≠ 0) := by
  obtain ⟨node, hnode, hfit, hnone⟩ := heapFindFreeNode_spec hf.inv size
  refine ⟨node, hnode, ?_, ?_⟩
  · intro h0
    obtain ⟨-, l, x, r, hsplit, -, rfl, hxn⟩ := hfit h0
    have hx : x ∈ [(⟨b, 4080, false⟩ : Block)] := by
      rw [hsplit]
      simp
    rw [List.mem_singleton.mp hx] at hxn ⊢
    exact ⟨rfl, hxn⟩
  · intro hlive hle h0
    have hsize : h.size b = 4080 :=
      (hf.inv.links.magic_size (b := ⟨b, 4080, false⟩) (by simp)).2
    have := hnone h0 _ hlive
    omega

theorem Fresh.find_none {size : Nat} (hf : Fresh L h b e) (hsize : 4080 < size) :
    h.heapFindFreeNode size = .ok 0 := by
  obtain ⟨node, hnode, hfound, -⟩ := hf.find size
  have h0 : node = 0 := by
    by_contra h0
    have := (hfound h0).2
    omega
  rw [hnode, h0]

/-- Nothing that `kmalloc` returns is large enough for a request beyond the heap. -/
theorem Fresh.not_serves_of_ok {h' : KHeap} {n : Nat} (hf : Fresh L h b e) (hn : 102400 ≤ n)
    (hok : h.kmalloc L n = .ok (h', add32 b HEADER_SIZE)) : ¬ Serves L h n := by
  obtain ⟨hpos, hend, htopEq, htopLt⟩ := hf.bounds
  have hp : add32 b HEADER_SIZE = b + 16 := add32_of_lt (by unfold HEADER_SIZE W32; omega)
  rintro (⟨msg, hpanic⟩ | ⟨h2, p, hok2, -, hle⟩)
  · rw [hok] at hpanic
    cases hpanic
  · rw [hok] at hok2
    cases hok2
    omega

/-- The last page of sizes wraps the enlarged node around to size `0`: `kmalloc` panics. -/
theorem Fresh.serves_last {n : Nat} (hf : Fresh L h b e) (hlo : 0xFFFFE000 ≤ alignUp n 4)
    (hhi : alignUp n 4 < 0xFFFFF000) : Serves L h n := by
  obtain ⟨hpos, hend, -⟩ := hf.bounds
  have hcount : expandCountOf (alignUp n 4) = some 0xFFFFF000 := by
    rw [expandCountOf_eq hhi]
    congr 1
    omega
  have hexp := hf.expandHeap_wraps 0xFFFFF000 (by decide) (by unfold W32; omega)
  have hzero : add32 (add32 0xFFFFF000 4080) HEADER_SIZE = 0 := by decide
  obtain ⟨node, hnode, hfound, -⟩ := hf.find_wrapped 0xFFFFF000 (alignUp n 4)
  have h0 : node = 0 := by
    by_contra h0
    have := (hfound h0).2
    omega
  left
  rw [kmalloc_of_expanded (hf.find_none (by omega)) hcount hexp hnode, if_pos h0]
  exact ⟨_, rfl⟩

/-- A size for which `top_heap_ptr` wraps around. -/
theorem Fresh.not_serves_wraps {n : Nat} (hf : Fresh L h b e) (hn : n ≤ 0xFFFFEFFC)
    (hcap : 2 ≤ h.freeNodeList.arrSize)
    (htop : W32 ≤ L.heapBottom + 4096 + (alignUp n 4 / 4096 + 1) * 4096)
    (hlast : alignUp n 4 < 0xFFFFE000) : ¬ Serves L h n := by
  obtain ⟨hpos, hend, htopEq, htopLt⟩ := hf.bounds
  obtain ⟨hle, hlt, hal⟩ := alignUp_four (n := n) (by omega)
  have hbottom := hf.bottom
  have hcount : expandCountOf (alignUp n 4) = some ((alignUp n 4 / 4096 + 1) * 4096) :=
    expandCountOf_eq (by omega)
  obtain ⟨count, hc⟩ : ∃ count, (alignUp n 4 / 4096 + 1) * 4096 = count := ⟨_, rfl⟩
  unfold W32 at htop
  rw [hc] at hcount htop
  have hexp := hf.expandHeap_wraps count (by unfold W32; omega) (by unfold W32; omega)
  obtain ⟨node, hnode, hfound, hsome⟩ := hf.find_wrapped count (alignUp n 4)
  have hfits : alignUp n 4 ≤ add32 (add32 count 4080) HEADER_SIZE := by
    unfold add32 HEADER_SIZE W32
    omega
  have h0 := hsome hcap hfits
  obtain ⟨h', hsplit⟩ := heapSplitNode_ok (alignUp n 4) (wrapped_checkHeader h b e count)
  have hok : h.kmalloc L n = .ok (h', add32 b HEADER_SIZE) := by
    rw [kmalloc_of_expanded (hf.find_none (by omega)) hcount hexp hnode, if_neg h0,
      (hfound h0).1, hsplit, bind_ok]
  exact hf.not_serves_of_ok (by omega) hok

/-- A size for which the loop does not end. -/
theorem Fresh.not_serves_spins {n : Nat} (hf : Fresh L h b e) (hlo : 0xFFFFF000 ≤ alignUp n 4) :
    ¬ Serves L h n := by
  have hspin : expandCountOf (alignUp n 4) = none := expandLoop_spins hlo _ 0 rfl (by decide)
  have hk := kmalloc_of_spin (L := L) (hf.find_none (by omega)) hspin
  rintro (⟨msg, hpanic⟩ | ⟨h2, p, hok2, -⟩)
  · rw [hk] at hpanic
    cases hpanic
  · rw [hk] at hok2
    cases hok2

/-- A size that is rounded up to `0`. -/
theorem Fresh.not_serves_zero {n : Nat} (hf : Fresh L h b e) (hn : 102400 ≤ n)
    (hlive : b ∈ h.freeNodeList.live) (hzero : alignUp n 4 = 0) : ¬ Serves L h n := by
  obtain ⟨node, hnode, hfound, hsome⟩ := hf.find (alignUp n 4)
  have h0 := hsome hlive (by omega)
  rw [(hfound h0).1] at hnode h0
  obtain ⟨h', hsplit⟩ := heapSplitNode_ok (alignUp n 4)
    (hf.inv.chain.checkHeader (x := ⟨b, 4080, false⟩) (by simp))
  have hok : h.kmalloc L n = .ok (h', add32 b HEADER_SIZE) := by
    rw [kmalloc_of_found hnode h0, hsplit, bind_ok]
  exact hf.not_serves_of_ok hn hok

/-- The other sizes are not served: those for which `top_heap_ptr` wraps around, those for which
the loop does not end, and the three sizes that are rounded up to `0`. -/
theorem Fresh.not_serves {n : Nat} (hf : Fresh L h b e) (hn : n < W32)
    (hlive : b ∈ h.freeNodeList.live) (hcap : 2 ≤ h.freeNodeList.arrSize)
    (hbad : ¬ NoWrapSize L n) : ¬ Serves L h n := by
  by_cases h1 : n ≤ 0xFFFFFFFC
  · obtain ⟨hle, hlt, hal⟩ := alignUp_four h1
    by_cases h2 : n ≤ 0xFFFFEFFC
    · have hno : ¬ (L.heapBottom + 4096 + (alignUp n 4 / 4096 + 1) * 4096 < W32 ∨
          0xFFFFE000 ≤ alignUp n 4) := fun hor => hbad ⟨h2, hor⟩
      rw [not_or, Nat.not_lt, Nat.not_le] at hno
      exact hf.not_serves_wraps h2 hcap hno.1 hno.2
    · exact hf.not_serves_spins (by omega)
  · exact hf.not_serves_zero (by omega) hlive (alignUp_four_wrap (by omega) hn)

end

/-- The first node is on the free list after `init_kheap`, if the list has room for it. -/
theorem init_live {s : Client} (hs : Init L s) (hcap : 2 ≤ s.heap.freeNodeList.arrSize) :
    L.heapBottom ∈ s.heap.freeNodeList.live := by
  obtain ⟨mem, arrPtr, earlyHeapPtr, harr, rfl⟩ := hs
  simp only [initKheap_eq] at hcap ⊢
  rw [insertList_arrSize] at hcap
  have hlt : L.earlyHeapTop < W32 := by
    have := L.fits
    unfold Layout.earlyHeapTop
    omega
  have hok : (initSortedList arrPtr (sub32 L.earlyHeapTop earlyHeapPtr / 4)).Ok (HeapAddr L) :=
    ok_initSortedList (Nat.lt_of_le_of_lt (Nat.div_le_self _ _) (sub32_lt _ hlt))
      fun i hi => Nat.not_le.2 (harr i hi)
  exact (mem_live_insertList hok (Nat.le_refl _) (Or.inl hcap) _).2 (Or.inl rfl)

/-- **Arithmetic safety of requests.** After `init_kheap`, a request whose computations do not wrap
around is served: `kmalloc` panics, or returns at least that many bytes below `heap_top`. Every
other 32-bit size is not, if the free list has room for the first node. -/
theorem kmalloc_serves_iff {s : Client} (hs : Init L s) {n : Nat} (hn : n < W32) :
    (NoWrapSize L n → Serves L s.heap n) ∧
      (2 ≤ s.heap.freeNodeList.arrSize → Serves L s.heap n → NoWrapSize L n) := by
  have hf := fresh_init hs
  have hal := L.heapBottom_aligned
  have htopEq := L.heapTop_eq
  constructor
  · rintro ⟨hle, hsmall | hlast⟩
    · obtain ⟨-, hlt, -⟩ := alignUp_four (n := n) (by omega)
      refine hf.inv.serves hf.endPtr (by omega) (expandCountOf_eq (by omega)) ?_ (by omega) ?_
      · rw [hf.top]
        exact hsmall
      · rw [hf.top]
        omega
    · obtain ⟨-, hlt, hmod⟩ := alignUp_four (n := n) (by omega)
      exact hf.serves_last hlast (by omega)
  · intro hcap hserves
    by_contra hbad
    exact hf.not_serves hn (init_live hs hcap) hcap hbad hserves

/-- A request that is too large for the heap, but does not wrap around. -/
theorem kmalloc_serves_boot : Serves bootLayout bootClient.heap 200000 := by
  exact (kmalloc_serves_iff init_bootClient (by decide)).1 (by decide)

/-- **A request of almost one gigabyte succeeds.** `top_heap_ptr` wraps around, so `kmalloc` neither
panics nor returns that many bytes below `heap_top`. -/
theorem kmalloc_gigabyte :
    Init bootLayout bootClient ∧ ¬ Serves bootLayout bootClient.heap 0x3FED8000 := by
  have hcap : 2 ≤ bootClient.heap.freeNodeList.arrSize := by decide +kernel
  exact ⟨init_bootClient, (fresh_init init_bootClient).not_serves (by decide)
    (init_live init_bootClient hcap) hcap (by decide)⟩

end

end KHeap

end NowOS
