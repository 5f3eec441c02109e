import NowOS.Kheap.BestFit
import NowOS.Kheap.Split

set_option autoImplicit false

/-! # Allocating

`kmalloc` searches the free list, expands the heap if nothing fits, and splits the node it found.
`expand_heap` puts a new block behind the node that `heap_list_end_ptr` points to, so it keeps
the invariant only if that is the last node. -/

namespace NowOS

namespace KHeap

open SortedArrayList

section

variable {L : Layout} {h : KHeap} {bs : List Block} {e : Nat}

/-! ## Best fit -/

theorem Inv.nodes (hi : Inv L h bs e) : h.Nodes h.freeNodeList.live := by
  intro a ha
  obtain ⟨b, hb, -, rfl⟩ := (mem_freeAddrs bs a).1 (hi.listed a ha)
  have hpos := hi.chain.addr_pos hb
  exact ⟨by omega, hi.chain.checkHeader hb⟩

/-- **`heap_find_free_node`** does not panic, and the node it finds is a listed free block that is
large enough. -/
theorem heapFindFreeNode_spec (hi : Inv L h bs e) (n : Nat) :
    ∃ node, h.heapFindFreeNode n = .ok node ∧
      (node ≠ 0 → node ∈ h.freeNodeList.live ∧
        ∃ l x r, bs = l ++ x :: r ∧ x.used = false ∧ x.addr = node ∧ n ≤ x.size) ∧
      (node = 0 → ∀ a ∈ h.freeNodeList.live, h.size a < n) := by
  refine ⟨_, heapFindFreeNode_eq hi.nodes n, ?_, (getD_bestFit_eq_zero_iff hi.nodes).1⟩
  intro hne
  obtain ⟨hmem, hfit⟩ := mem_of_bestFit (bestFit_of_getD_ne_zero hne)
  obtain ⟨x, hx, hu, haddr⟩ := (mem_freeAddrs bs _).1 (hi.listed _ hmem)
  obtain ⟨l, r, rfl⟩ := List.append_of_mem hx
  have hsize : h.size x.addr = x.size := (hi.links.magic_size hx).2
  rw [← haddr, hsize] at hfit
  exact ⟨hmem, l, x, r, rfl, hu, haddr, hfit⟩

/-- The free list of the invariant is sorted, so of the smallest blocks that fit the lowest one is
found. -/
theorem Inv.le_of_found (hi : Inv L h bs e) {n node a : Nat}
    (hfind : h.heapFindFreeNode n = .ok node) (hne : node ≠ 0) (ha : a ∈ h.freeNodeList.live)
    (hfit : n ≤ h.size a) :
    h.size node ≤ h.size a ∧ (h.size a = h.size node → node ≤ a) := by
  have hnode := (heapFindFreeNode_eq hi.nodes n).symm.trans hfind
  cases hnode
  exact le_of_bestFit (hi.list.sorted.imp Nat.le_of_lt) (bestFit_of_getD_ne_zero hne) ha hfit

/-! ## The expansion count -/

/-- The invariant of the loop is that `expand_count` is a number of pages. -/
theorem expandLoop_spec (size : Nat) :
    ∀ (fuel c count : Nat), c % 4096 = 0 → expandLoop size fuel c = some count →
      count % 4096 = 0 ∧ size < count := by
  intro fuel
  induction fuel with
  | zero =>
      intro c count _ h
      cases h
  | succ fuel ih =>
      intro c count hc h
      unfold expandLoop at h
      split_ifs at h with hle
      · refine ih _ count ?_ h
        show (c + 4096) % 4294967296 % 4096 = 0
        omega
      · cases h
        exact ⟨hc, by omega⟩

theorem expandCountOf_spec {size count : Nat} (h : expandCountOf size = some count) :
    count % 4096 = 0 ∧ size < count ∧ 4096 ≤ count := by
  obtain ⟨h1, h2⟩ := expandLoop_spec size _ 0 count rfl h
  exact ⟨h1, h2, by omega⟩

/-! ## `expand_heap` -/

/-- The block that `expand_heap` adds behind the address `e`. -/
def grown (h : KHeap) (e count : Nat) : Block := ⟨e, h.topHeapPtr + count - e, false⟩

/-- The stores of `expand_heap` put the new block behind the last one. -/
theorem links_grow {mem : Nat → Nat} {s : Nat} (size : Nat) (hs : 0 < s) (hne : bs ≠ [])
    (ht : Tiles 16 s bs e) (hl : Links mem 0 bs 0) :
    Links (Function.update (putHeader mem e false 0 (lastAddr 0 bs) size) (lastAddr 0 bs + 4) e) 0
      (bs ++ [⟨e, size, false⟩]) 0 := by
  have hlast := lastAddr_mem 0 ht hne
  have hl' : Links mem 0 (bs ++ [] ++ []) 0 := by simpa using hl
  have hend : Tiles 16 (e + 16 + size) [] (e + 16 + size) := rfl
  rw [← List.append_nil (bs ++ _)]
  refine Links.replace hs ht ⟨rfl, rfl⟩ hend (by simp) hl' ?_ ?_
  · intro x hx
    unfold relink
    rw [if_pos (show lastAddr 0 bs ≠ 0 by omega)]
    by_cases hxl : x = lastAddr 0 bs + 4
    · subst hxl
      rw [Function.update_self, Function.update_self]
    · rw [Function.update_of_ne hxl, Function.update_of_ne hxl]
      exact putHeader_of_ne _ _ _ _ _ (by omega) (by omega) (by omega) (by omega)
  · refine ⟨(header_putHeader mem ⟨e, size, false⟩ _ _).congr fun a ha _ => ?_, trivial⟩
    simp only at ha
    exact Function.update_of_ne (by omega) _ _

/-- What `expand_heap` does: the new block is put behind the last one and merged with it if that is
free. -/
structure Expanded (L : Layout) (h h' : KHeap) (bs : List Block) (e count : Nat) : Prop where
  inv : Inv L h' (coalesce bs (grown h e count) []) (h.topHeapPtr + count + 16)
  top : h'.topHeapPtr = h.topHeapPtr + count
  arrSize : h'.freeNodeList.arrSize = h.freeNodeList.arrSize
  used : ∀ b ∈ bs, b.used = true → b ∈ coalesce bs (grown h e count) []
  payload : ∀ b ∈ bs, b.used = true → ∀ a, InPayload b a → h'.mem a = h.mem a
  complete : h.freeNodeList.currSize < h.freeNodeList.arrSize → Complete h bs →
    Complete h' (coalesce bs (grown h e count) [])

/-- The state that `expand_heap` has built when it calls `heap_merge_nodes`. -/
def expandStore (h : KHeap) (bs : List Block) (e count : Nat) : KHeap :=
  { h with
    mem := Function.update (putHeader h.mem e false 0 (lastAddr 0 bs)
      (h.topHeapPtr + count - e)) (lastAddr 0 bs + 4) e
    freeNodeList := (h.freeNodeList.insertList e).2
    topHeapPtr := h.topHeapPtr + count }

/-- It is one in which a free block can be merged. -/
theorem merging_of_expand {count : Nat} (hi : Inv L h bs e) (hc : count % 4096 = 0)
    (hpos : 4096 ≤ count) (htop : h.topHeapPtr + count < L.heapTop) :
    Merging L (expandStore h bs e count) bs (grown h e count) [] (h.topHeapPtr + count + 16) := by
  have hle := hi.le_top
  have hbe := hi.tiles.le
  have hP : HeapAddr L e := hbe
  have heal := (addr_aligned hi.tiles (by have := L.heapBottom_aligned; omega) hi.sizes).2
  have htal := hi.top_aligned
  refine ⟨?_, links_grow _ (zero_lt_heapBottom L) hi.ne hi.tiles hi.links, ?_, ?_, rfl,
    hi.coalesced, List.isChain_nil, ok_insertList hi.list hP, ?_⟩
  · refine (tiles_append _ _ _ _).2 ⟨e, hi.tiles, rfl, ?_⟩
    show e + 16 + (h.topHeapPtr + count - e) = h.topHeapPtr + count + 16
    omega
  · intro b hb
    rcases List.mem_append.mp hb with hb | hb
    · exact hi.sizes b hb
    · rw [List.mem_singleton.mp hb]
      show (h.topHeapPtr + count - e) % 4 = 0
      omega
  · have := L.heapTop_lt
    unfold W32
    omega
  · intro a ha
    rw [mem_freeAddrs_middle rfl]
    rcases mem_live_insertList_imp hi.list hP ha with rfl | ha
    · exact Or.inl rfl
    · exact Or.inr (Or.inl (hi.listed a ha))

/-- The last block ends where the chain ends. -/
theorem Inv.last (hi : Inv L h bs e) :
    ∃ z ∈ bs, z.addr = lastAddr 0 bs ∧ z.addr + 16 + z.size = e := by
  rcases List.eq_nil_or_concat bs with rfl | ⟨l, z, rfl⟩
  · exact absurd rfl hi.ne
  · rw [List.concat_eq_append] at hi ⊢
    obtain ⟨m, -, hm, hme⟩ := (tiles_append _ _ _ _).1 hi.tiles
    rw [tiles_nil] at hme
    refine ⟨z, by simp, ?_, by omega⟩
    rw [lastAddr_append]
    rfl

theorem expandHeap_eq {count : Nat} (hi : Inv L h bs e) (hend : h.heapListEndPtr = lastAddr 0 bs)
    (hpos : 4096 ≤ count) (hw : h.topHeapPtr + count < W32) :
    h.expandHeap L count =
      if L.heapTop ≤ h.topHeapPtr + count then .error (.panic "Weve expanded past our heap top...")
      else
        ((expandStore h bs e count).heapMergeNodes e).map fun h' =>
          { h' with heapListEndPtr := e } := by
  have hle := hi.le_top
  have hfits := hi.fits
  obtain ⟨z, hz, hza, hze⟩ := hi.last
  have hzsize : h.mem (z.addr + 12) = z.size := (hi.links.magic_size hz).2
  have hcheck : ∀ p, checkHeader ⟨h.mem, h.freeNodeList, h.topHeapPtr + count, p⟩ z.addr = true :=
    fun _ => hi.chain.checkHeader hz
  have hnode : add32 (add32 z.addr HEADER_SIZE) z.size = e := by
    unfold HEADER_SIZE
    rw [add32_of_lt (a := z.addr) (by omega), add32_of_lt (by omega)]
    exact hze
  have hsize : sub32 (h.topHeapPtr + count) e = h.topHeapPtr + count - e :=
    sub32_of_le (by omega)
  unfold expandHeap expandStore
  simp only [add32_of_lt hw, hend, ← hza, hcheck, if_true, KHeap.size, hzsize, hnode, hsize,
    heapSetHeader, setNextPtr, insertFree]
  congr 1
  split
  next heq => rw [heq]; rfl
  next heq => rw [heq]; rfl

/-- **`expand_heap`**, when `heap_list_end_ptr` is the last node and `top_heap_ptr` does not wrap
around. -/
theorem expandHeap_spec {h' : KHeap} {count : Nat} (hi : Inv L h bs e)
    (hend : h.heapListEndPtr = lastAddr 0 bs) (hc : count % 4096 = 0) (hpos : 4096 ≤ count)
    (hw : h.topHeapPtr + count < W32) (hok : h.expandHeap L count = .ok h') :
    Expanded L h h' bs e count := by
  have hle := hi.le_top
  have hP : HeapAddr L e := hi.tiles.le
  rw [expandHeap_eq hi hend hpos hw] at hok
  split_ifs at hok with htop
  have hm := merging_of_expand hi hc hpos (by omega)
  obtain ⟨h2, he, ht, hl, hsz, hco, hlok, hlisted, hkept, -, hcompl⟩ := heapMergeNodes_spec hm
  have he : (expandStore h bs e count).heapMergeNodes e = .ok h2 := he
  rw [he] at hok
  cases hok
  have hmem : ∀ b ∈ bs, b ∈ bs ++ [grown h e count] := fun b hb => List.mem_append_left _ hb
  refine ⟨⟨?_, ht, hl, hsz, hco, hm.fits, hlok, hlisted, ?_, ?_, ?_⟩, hkept.top, ?_, ?_, ?_, ?_⟩
  · simp [coalesce]
  · rw [hkept.top]
    show (h.topHeapPtr + count) % 4 = 0
    have := hi.top_aligned
    omega
  · rw [hkept.top]
    exact Nat.le_add_right _ 16
  · rw [hkept.top]
    exact Nat.le_refl _
  · exact hkept.arrSize.trans (insertList_arrSize _ _)
  · intro b hb hu
    exact hkept.used b (hmem b hb) hu
  · intro b hb hu a ha
    refine (hkept.payload b (hmem b hb) hu a ha).trans ?_
    -- the payload ends before `e`, and is away from the header of the last block
    have hbe := (hi.tiles.bounds hb).2
    obtain ⟨z, hz, hza, -⟩ := hi.last
    have hne := not_header_of_payload hi.tiles hb hz ha
    obtain ⟨ha1, ha2⟩ := ha
    show Function.update _ _ _ a = _
    rw [Function.update_of_ne (by omega),
      putHeader_of_ne _ _ _ _ _ (by omega) (by omega) (by omega) (by omega)]
  · intro hroom hall
    have hins := mem_live_insertList hi.list hP (Or.inl hroom)
    refine hcompl (Or.inr ((hins e).2 (Or.inl rfl))) fun c hcf hne => ?_
    rw [mem_freeAddrs_middle rfl] at hcf
    refine (hins c).2 (Or.inr (hall c ?_))
    rcases hcf with hcf | hcf | hcf
    · exact absurd hcf hne
    · exact hcf
    · cases hcf

/-! ## `kmalloc` -/

/-- If nothing on the free list fits a request of `n` bytes, then the heap can be expanded:
`heap_list_end_ptr` is the last node, and `top_heap_ptr` does not wrap around. -/
def CanExpand (h : KHeap) (bs : List Block) (n : Nat) : Prop :=
  h.heapFindFreeNode (alignUp n 4) = .ok 0 →
    h.heapListEndPtr = lastAddr 0 bs ∧
      ∀ count, expandCountOf (alignUp n 4) = some count → h.topHeapPtr + count < W32

/-- What `kmalloc` does when it returns `p`: the chain is `bs'` afterwards, `p` is the payload of a
block of it that was not in use, and the blocks in use are kept. -/
structure Allocated (L : Layout) (h h' : KHeap) (bs bs' : List Block) (e' n p : Nat) : Prop where
  inv : Inv L h' bs' e'
  block : ∃ b ∈ bs', b.used = true ∧ p = b.addr + 16 ∧ alignUp n 4 ≤ b.size ∧
    ∀ c ∈ bs, c.used = true → c.addr ≠ b.addr
  arrSize : h'.freeNodeList.arrSize = h.freeNodeList.arrSize
  used : ∀ b ∈ bs, b.used = true → b ∈ bs'
  payload : ∀ b ∈ bs, b.used = true → ∀ a, InPayload b a → h'.mem a = h.mem a

/-- Where the chain ends after `kmalloc`: where it ended before, or, if the heap was expanded, one
header behind `top_heap_ptr`. -/
structure EndAfter (h h' : KHeap) (e e' n : Nat) : Prop where
  kept : h.heapFindFreeNode (alignUp n 4) ≠ .ok 0 → e' = e ∧ h'.topHeapPtr = h.topHeapPtr
  expanded : h.heapFindFreeNode (alignUp n 4) = .ok 0 → e' = h'.topHeapPtr + 16

theorem EndAfter.of_top {h1 h' : KHeap} {e' n : Nat} (he : EndAfter h h1 e e' n)
    (htop : h'.topHeapPtr = h1.topHeapPtr) : EndAfter h h' e e' n where
  kept := by
    rw [htop]
    exact he.kept
  expanded := by
    rw [htop]
    exact he.expanded

theorem carve_head (x : Block) {n : Nat} (hn : n ≤ x.size) :
    ∃ b rest, carve x n = b :: rest ∧ b.addr = x.addr ∧ b.used = true ∧ n ≤ b.size := by
  unfold carve
  split_ifs
  · exact ⟨_, _, rfl, rfl, rfl, hn⟩
  · exact ⟨_, _, rfl, rfl, rfl, Nat.le_refl n⟩

theorem alignUp_four_mod (n : Nat) : alignUp n 4 % 4 = 0 := alignUp_mod (by decide) n

/-- The last part of `kmalloc`: the node that was found is split. -/
theorem Allocated.of_split {l r : List Block} {x : Block} {n : Nat} (hi : Inv L h (l ++ x :: r) e)
    (hx : x.used = false) (hn : alignUp n 4 ≤ x.size) (hlive : x.addr ∈ h.freeNodeList.live) :
    ∃ h' bs', h.heapSplitNode x.addr (alignUp n 4) = .ok h' ∧
      Allocated L h h' (l ++ x :: r) bs' e n (x.addr + 16) ∧ h'.topHeapPtr = h.topHeapPtr ∧
      (Complete h (l ++ x :: r) → Complete h' bs') := by
  obtain ⟨h', hs, hc⟩ := heapSplitNode_spec hi hx hn (alignUp_four_mod n)
  obtain ⟨b, rest, hcarve, hba, hbu, hbn⟩ := carve_head x hn
  refine ⟨h', _, hs, ⟨hc.inv, ⟨b, ?_, hbu, by rw [hba], hbn, ?_⟩, hc.kept.arrSize, hc.kept.used,
    hc.kept.payload⟩, hc.kept.top, hc.complete hlive⟩
  · rw [hcarve]
    simp
  · intro c hcm hcu hca
    have hcx : c = x := hi.tiles.eq_of_addr_eq (by decide) hcm (by simp) (hca.trans hba)
    rw [hcx, hx] at hcu
    cases hcu

/-- An allocation after an expansion. -/
theorem Expanded.allocated {h1 h' : KHeap} {bs' : List Block} {count e' n p : Nat}
    (hx : Expanded L h h1 bs e count)
    (ha : Allocated L h1 h' (coalesce bs (grown h e count) []) bs' e' n p) :
    Allocated L h h' bs bs' e' n p := by
  obtain ⟨b, hb, hbu, hbp, hbn, hfresh⟩ := ha.block
  refine ⟨ha.inv, ⟨b, hb, hbu, hbp, hbn, ?_⟩, ha.arrSize.trans hx.arrSize, ?_, ?_⟩
  · intro c hc hcu
    exact hfresh c (hx.used c hc hcu) hcu
  · intro c hc hcu
    exact ha.used c (hx.used c hc hcu) hcu
  · intro c hc hcu a hac
    rw [ha.payload c (hx.used c hc hcu) hcu a hac, hx.payload c hc hcu a hac]

/-! ## The steps of `kmalloc` -/

theorem bind_ok {ε α β : Type} (a : α) (f : α → Except ε β) : (Except.ok a).bind f = f a := rfl

theorem bind_error {ε α β : Type} (stop : ε) (f : α → Except ε β) :
    (Except.error stop).bind f = .error stop := rfl

theorem bind_eq_ok_iff {ε α β : Type} {x : Except ε α} {f : α → Except ε β} {b : β} :
    x.bind f = .ok b ↔ ∃ a, x = .ok a ∧ f a = .ok b := by
  cases x with
  | error stop => simp [bind_error]
  | ok a => simp [bind_ok]

theorem bind_eq_error_iff {ε α β : Type} {x : Except ε α} {f : α → Except ε β} {stop : ε} :
    x.bind f = .error stop ↔ x = .error stop ∨ ∃ a, x = .ok a ∧ f a = .error stop := by
  cases x with
  | error e => simp [bind_error]
  | ok a => simp [bind_ok]

theorem kmalloc_eq_bind (L : Layout) (h : KHeap) (n : Nat) :
    h.kmalloc L n =
      (h.heapFindFreeNode (alignUp n 4)).bind fun node =>
        (h.findOrExpand L (alignUp n 4) node).bind fun r =>
          (r.1.heapSplitNode r.2 (alignUp n 4)).bind fun h' =>
            .ok (h', add32 r.2 HEADER_SIZE) := by
  unfold kmalloc
  generalize alignUp n 4 = size
  simp only
  cases h.heapFindFreeNode size with
  | error stop => rfl
  | ok node =>
      simp only [bind_ok]
      cases h.findOrExpand L size node with
      | error stop => rfl
      | ok r =>
          simp only [bind_ok]
          cases r.1.heapSplitNode r.2 size with
          | error stop => rfl
          | ok h' => rfl

theorem findOrExpand_of_ne {size node : Nat} (hne : node ≠ 0) :
    h.findOrExpand L size node = .ok (h, node) := if_neg hne

theorem findOrExpand_zero (L : Layout) (h : KHeap) (size : Nat) :
    h.findOrExpand L size 0 =
      (expandCountOf size).elim (.error .spin) fun count =>
        (h.expandHeap L count).bind fun h1 =>
          (h1.heapFindFreeNode size).bind fun node =>
            if node = 0 then .error (.panic "Not enough memory?") else .ok (h1, node) := by
  -- opaque names for what is matched on: the kernel must not evaluate it to compare the cases
  obtain ⟨count, hcount⟩ : ∃ count, expandCountOf size = count := ⟨_, rfl⟩
  obtain ⟨expand, hexpand⟩ : ∃ expand : Nat → Except Stop KHeap, ∀ c, h.expandHeap L c = expand c :=
    ⟨_, fun _ => rfl⟩
  obtain ⟨find, hfind⟩ : ∃ find : KHeap → Except Stop Nat, ∀ g, heapFindFreeNode g size = find g :=
    ⟨_, fun _ => rfl⟩
  unfold findOrExpand
  simp only [hcount, hexpand, hfind, if_true]
  cases count with
  | none => rfl
  | some count =>
      simp only [Option.elim_some]
      cases expand count with
      | error stop => rfl
      | ok h1 =>
          simp only [bind_ok]
          cases find h1 with
          | error stop => rfl
          | ok node => rfl

/-- What `findOrExpand` can do when it returns: hand on the node it was given, or expand the heap
and search again. -/
theorem findOrExpand_cases {h1 : KHeap} {size node node1 : Nat}
    (hok : h.findOrExpand L size node = .ok (h1, node1)) :
    (node ≠ 0 ∧ h1 = h ∧ node1 = node) ∨
      (node = 0 ∧ node1 ≠ 0 ∧ h1.heapFindFreeNode size = .ok node1 ∧
        ∃ count, expandCountOf size = some count ∧ h.expandHeap L count = .ok h1) := by
  by_cases h0 : node = 0
  · subst h0
    rw [findOrExpand_zero] at hok
    cases hcount : expandCountOf size with
    | none =>
        rw [hcount, Option.elim_none] at hok
        cases hok
    | some count =>
        rw [hcount, Option.elim_some] at hok
        obtain ⟨h2, hexp, hok⟩ := bind_eq_ok_iff.1 hok
        obtain ⟨node2, hnode, hok⟩ := bind_eq_ok_iff.1 hok
        split_ifs at hok with hne
        cases hok
        exact Or.inr ⟨rfl, hne, hnode, count, rfl, hexp⟩
  · rw [findOrExpand_of_ne h0] at hok
    cases hok
    exact Or.inl ⟨h0, rfl, rfl⟩

/-- The node that `findOrExpand` hands on, in the heap it leaves. -/
theorem findOrExpand_spec {h1 : KHeap} {n node node1 : Nat} (hi : Inv L h bs e)
    (hfind : h.heapFindFreeNode (alignUp n 4) = .ok node) (hcan : CanExpand h bs n)
    (hok : h.findOrExpand L (alignUp n 4) node = .ok (h1, node1)) :
    node1 ≠ 0 ∧ h1.heapFindFreeNode (alignUp n 4) = .ok node1 ∧
      ((node ≠ 0 ∧ h1 = h) ∨ (node = 0 ∧ ∃ count, Expanded L h h1 bs e count)) := by
  rcases findOrExpand_cases hok with ⟨h0, rfl, rfl⟩ | ⟨rfl, hne, hfind1, count, hcount, hexp⟩
  · exact ⟨h0, hfind, Or.inl ⟨h0, rfl⟩⟩
  · obtain ⟨hend, htop⟩ := hcan hfind
    obtain ⟨hc1, -, hc2⟩ := expandCountOf_spec hcount
    have hx := expandHeap_spec hi hend hc1 hc2 (htop count hcount) hexp
    exact ⟨hne, hfind1, Or.inr ⟨rfl, count, hx⟩⟩

/-- **`kmalloc`** keeps the invariant and allocates a block, whenever it returns. -/
theorem kmalloc_spec {h' : KHeap} {n p : Nat} (hi : Inv L h bs e) (hcan : CanExpand h bs n)
    (hok : h.kmalloc L n = .ok (h', p)) :
    ∃ bs' e', Allocated L h h' bs bs' e' n p ∧ EndAfter h h' e e' n ∧
      (h.freeNodeList.currSize < h.freeNodeList.arrSize → Complete h bs → Complete h' bs') := by
  rw [kmalloc_eq_bind] at hok
  obtain ⟨node, hfind, hok⟩ := bind_eq_ok_iff.1 hok
  obtain ⟨⟨h1, node1⟩, hfoe, hok⟩ := bind_eq_ok_iff.1 hok
  obtain ⟨hne, hfind1, hwhere⟩ := findOrExpand_spec hi hfind hcan hfoe
  obtain ⟨bs1, e1, hi1, hends, hlift⟩ : ∃ bs1 e1, Inv L h1 bs1 e1 ∧ EndAfter h h1 e e1 n ∧
      ∀ h2 bs' p, Allocated L h1 h2 bs1 bs' e1 n p → (Complete h1 bs1 → Complete h2 bs') →
        Allocated L h h2 bs bs' e1 n p ∧
          (h.freeNodeList.currSize < h.freeNodeList.arrSize → Complete h bs →
            Complete h2 bs') := by
    rcases hwhere with ⟨h0, rfl⟩ | ⟨rfl, count, hx⟩
    · refine ⟨bs, e, hi, ⟨fun _ => ⟨rfl, rfl⟩, fun hnone => ?_⟩,
        fun h2 bs' p ha hc => ⟨ha, fun _ => hc⟩⟩
      rw [hfind] at hnone
      exact absurd (Except.ok.inj hnone) h0
    · refine ⟨_, _, hx.inv, ⟨fun hsome => absurd hfind hsome, fun _ => ?_⟩,
        fun h2 bs' p ha hc =>
          ⟨hx.allocated ha, fun hroom hall => hc (hx.complete hroom hall)⟩⟩
      rw [hx.top]
  obtain ⟨node2, hfind2, hfit, -⟩ := heapFindFreeNode_spec hi1 (alignUp n 4)
  rw [hfind1] at hfind2
  cases hfind2
  obtain ⟨hlive, l, x, r, rfl, hxu, rfl, hxn⟩ := hfit hne
  obtain ⟨h2, bs', hsplit, ha, htop, hc⟩ := Allocated.of_split hi1 hxu hxn hlive
  rw [show h1.heapSplitNode x.addr (alignUp n 4) = _ from hsplit, bind_ok] at hok
  have hb := hi1.tiles.bounds (b := x) (by simp)
  have hfits := hi1.fits
  have hp : add32 x.addr HEADER_SIZE = x.addr + 16 :=
    add32_of_lt (by unfold HEADER_SIZE; omega)
  simp only [hp] at hok
  cases hok
  obtain ⟨ha, hc⟩ := hlift _ bs' _ ha hc
  exact ⟨bs', e1, ha, hends.of_top htop, hc⟩

end

end KHeap

end NowOS
