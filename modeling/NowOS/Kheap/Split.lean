import NowOS.Kheap.Merge

set_option autoImplicit false

/-! # The heap invariant, freeing and splitting

`Inv` is the representation invariant of the heap without its clause on `heap_list_end_ptr`,
which the source does not keep. `kfree` keeps it, and so does `heap_split_node`, which carves a
block in use out of a free one. -/

namespace NowOS

namespace KHeap

open SortedArrayList

/-- **The representation invariant**, with the blocks of the chain and the address behind the last
of them. The free list holds free blocks; that it holds all of them is `Complete`. -/
structure Inv (L : Layout) (h : KHeap) (bs : List Block) (e : Nat) : Prop where
  ne : bs ≠ []
  tiles : Tiles 16 L.heapBottom bs e
  links : Links h.mem 0 bs 0
  sizes : ∀ b ∈ bs, b.size % 4 = 0
  coalesced : NoAdjacentFree bs
  fits : e < W32
  list : h.freeNodeList.Ok (HeapAddr L)
  listed : ∀ a ∈ h.freeNodeList.live, a ∈ freeAddrs bs
  top_aligned : h.topHeapPtr % 4 = 0
  top_le : h.topHeapPtr ≤ e
  le_top : e ≤ h.topHeapPtr + 16

/-- Every free block is on the free list. -/
def Complete (h : KHeap) (bs : List Block) : Prop :=
  ∀ a ∈ freeAddrs bs, a ∈ h.freeNodeList.live

section

variable {L : Layout} {h : KHeap} {bs l r : List Block} {x : Block} {e : Nat}

theorem Inv.chain (hi : Inv L h bs e) : Chain L h bs e := ⟨hi.ne, hi.tiles, hi.links, hi.fits⟩

/-! ## `kfree` -/

/-- Rewriting the header of a block with another magic word. -/
theorem Links.setUsed {mem : Nat → Nat} {s : Nat} (ht : Tiles 16 s (l ++ x :: r) e)
    (hl : Links mem 0 (l ++ x :: r) 0) (u : Bool) :
    Links (putHeader mem x.addr u (headAddr r 0) (lastAddr 0 l) x.size) 0
      (l ++ ⟨x.addr, x.size, u⟩ :: r) 0 := by
  have hpw := ht.pairwise
  rw [List.pairwise_append, List.pairwise_cons] at hpw
  obtain ⟨-, ⟨hxr, -⟩, hlx⟩ := hpw
  rw [links_append] at hl ⊢
  refine ⟨hl.1.congr ?_, header_putHeader mem ⟨x.addr, x.size, u⟩ _ _, hl.2.2.congr ?_⟩
  · intro b hb a ha ha'
    have := hlx b hb x (by simp)
    exact putHeader_of_ne _ _ _ _ _ (by omega) (by omega) (by omega) (by omega)
  · intro b hb a ha ha'
    have := hxr b hb
    exact putHeader_of_ne _ _ _ _ _ (by omega) (by omega) (by omega) (by omega)

/-- The state in which `kfree` calls `heap_merge_nodes`. -/
theorem merging_of_kfree (hi : Inv L h (l ++ x :: r) e) (hx : x.used = true) :
    Merging L { h with mem := putHeader h.mem x.addr false (headAddr r 0) (lastAddr 0 l) x.size } l
      ⟨x.addr, x.size, false⟩ r e := by
  have hc := List.isChain_append.1 hi.coalesced
  refine ⟨hi.tiles.swap rfl rfl, hi.links.setUsed hi.tiles false, ?_, hi.fits, rfl, hc.1,
    (List.isChain_cons.1 hc.2.1).2, hi.list, ?_⟩
  · intro b hb
    rcases List.mem_append.mp hb with hb | hb
    · exact hi.sizes b (by simp [hb])
    · rcases List.mem_cons.mp hb with rfl | hb
      · exact hi.sizes x (by simp)
      · exact hi.sizes b (by simp [hb])
  · intro a ha
    have := hi.listed a ha
    rw [freeAddrs_append, freeAddrs_cons_used hx, List.mem_append] at this
    exact (mem_freeAddrs_middle rfl a).2 (Or.inr this)

/-- `kfree` rewrites the header of the block and merges it with its neighbours. -/
theorem kfree_eq (hc : Chain L h (l ++ x :: r) e) :
    h.kfree (x.addr + 16) = heapMergeNodes { h with
      mem := putHeader h.mem x.addr false (headAddr r 0) (lastAddr 0 l) x.size } x.addr := by
  obtain ⟨-, hxn, hxp, hxs⟩ := hc.links.header
  have hsub : sub32 (x.addr + 16) HEADER_SIZE = x.addr := sub32_header x.addr
  unfold kfree
  rw [if_neg (by omega), hsub]
  simp only
  rw [if_pos (hc.checkHeader (by simp))]
  unfold heapSetHeader nextPtr prevPtr size
  rw [hxn, hxp, hxs]

/-- **`kfree` of a block in use** makes it free and merges it with its free neighbours. -/
theorem kfree_spec (hi : Inv L h (l ++ x :: r) e) (hx : x.used = true) :
    ∃ h', h.kfree (x.addr + 16) = .ok h' ∧
      Inv L h' (coalesce l ⟨x.addr, x.size, false⟩ r) e ∧
      (∀ b ∈ l ++ x :: r, b.used = true → b.addr ≠ x.addr →
        b ∈ coalesce l ⟨x.addr, x.size, false⟩ r ∧ ∀ a, InPayload b a → h'.mem a = h.mem a) ∧
      h'.topHeapPtr = h.topHeapPtr ∧ h'.freeNodeList.arrSize = h.freeNodeList.arrSize ∧
      h'.heapListEndPtr = h.heapListEndPtr ∧
      (h.freeNodeList.currSize < h.freeNodeList.arrSize → Complete h (l ++ x :: r) →
        Complete h' (coalesce l ⟨x.addr, x.size, false⟩ r)) := by
  have hm := merging_of_kfree hi hx
  obtain ⟨h', he, ht, hl, hsz, hco, hok, hlisted, hkept, hend, hcompl⟩ := heapMergeNodes_spec hm
  have hother : ∀ b ∈ l ++ x :: r, b.addr ≠ x.addr → b ∈ l ++ ⟨x.addr, x.size, false⟩ :: r := by
    intro b hb hne
    rcases List.mem_append.mp hb with hb | hb
    · simp [hb]
    · rcases List.mem_cons.mp hb with rfl | hb
      · exact absurd rfl hne
      · simp [hb]
  refine ⟨h', ?_, ⟨?_, ht, hl, hsz, hco, hi.fits, hok, hlisted, ?_, ?_, ?_⟩, ?_, hkept.top,
    hkept.arrSize, hend, ?_⟩
  · rw [kfree_eq hi.chain]
    exact he
  · simp [coalesce]
  · rw [hkept.top]; exact hi.top_aligned
  · rw [hkept.top]; exact hi.top_le
  · rw [hkept.top]; exact hi.le_top
  · intro b hb hu hne
    have hb' := hother b hb hne
    refine ⟨hkept.used b hb' hu, fun a ha => ?_⟩
    rw [hkept.payload b hb' hu a ha]
    have := not_header_of_payload hi.tiles hb (c := x) (by simp) ha
    exact putHeader_of_ne _ _ _ _ _ (by omega) (by omega) (by omega) (by omega)
  · intro hroom hall
    refine hcompl (Or.inl hroom) fun c hc hne => ?_
    refine hall c ?_
    rw [mem_freeAddrs_middle rfl] at hc
    rw [freeAddrs_append, freeAddrs_cons_used hx, List.mem_append]
    exact hc.resolve_left hne

/-! ## `heap_split_node` -/

/-- The block in use of size `n` that is carved out of the free block `x`, and the rest of `x` if
that is large enough to be a block. -/
def carve (x : Block) (n : Nat) : List Block :=
  if x.size - n ≤ HEAP_SPLIT_THRESHOLD then [⟨x.addr, x.size, true⟩]
  else [⟨x.addr, n, true⟩, ⟨x.addr + 16 + n, x.size - n - 16, false⟩]

theorem putHeader_next (mem : Nat → Nat) (addr : Nat) (used : Bool) (next prev size : Nat) :
    putHeader mem addr used next prev size (addr + 4) = next := by
  simp [putHeader]

theorem splitAbsorb_eq (h : KHeap) (freeNode newFreeNode next prev size : Nat) :
    h.splitAbsorb freeNode newFreeNode next prev size =
      { h with
        mem := putHeader (relink h.mem prev next freeNode freeNode) freeNode true next prev size
        heapListEndPtr :=
          if next = 0 ∨ relink h.mem prev next freeNode freeNode (newFreeNode + 4) = 0 then freeNode
          else h.heapListEndPtr } := by
  unfold splitAbsorb
  simp only [guarded_stores, heapSetHeader, nextPtr]
  by_cases h1 : relink h.mem prev next freeNode freeNode (newFreeNode + 4) = 0
  · rw [if_pos h1, if_pos (Or.inr h1), putHeader_next]
    split_ifs <;> rfl
  · rw [if_neg h1, putHeader_next]
    by_cases h2 : next = 0
    · rw [if_pos h2, if_pos (Or.inl h2)]
    · rw [if_neg h2, if_neg (by tauto)]

theorem splitRest_eq (h : KHeap) {freeNode newFreeNode : Nat} (next prev size restSize : Nat)
    (hle : freeNode + 16 ≤ newFreeNode) :
    h.splitRest freeNode newFreeNode next prev size restSize =
      { h with
        mem := putHeader
          (putHeader (relink h.mem prev next freeNode newFreeNode) newFreeNode false next freeNode
            restSize) freeNode true newFreeNode prev size
        freeNodeList := (h.freeNodeList.insertList newFreeNode).2
        heapListEndPtr := if next = 0 then newFreeNode else h.heapListEndPtr } := by
  have hnext : putHeader
      (putHeader (relink h.mem prev next freeNode newFreeNode) newFreeNode false next freeNode
        restSize) freeNode true newFreeNode prev size (newFreeNode + 4) = next := by
    rw [putHeader_of_ne _ _ _ _ _ (by omega) (by omega) (by omega) (by omega), putHeader_next]
  unfold splitRest
  simp only [guarded_stores, heapSetHeader, nextPtr, insertFree, hnext]
  by_cases h2 : next = 0
  · simp [h2]
  · simp [h2]

/-- Splitting a block in memory: the header of the first part is written last. -/
theorem links_split {mem : Nat → Nat} {y z : Block} {s : Nat} (hs : 0 < s)
    (ht : Tiles 16 s (l ++ x :: r) e) (hl : Links mem 0 (l ++ x :: r) 0) (hy : y.addr = x.addr)
    (hz : z.addr = x.addr + 16 + y.size) (hsize : y.size + 16 + z.size = x.size) :
    Links (putHeader (putHeader (relink mem (lastAddr 0 l) (headAddr r 0) x.addr z.addr) z.addr
      z.used (headAddr r 0) x.addr z.size) x.addr y.used z.addr (lastAddr 0 l) y.size) 0
      (l ++ [y, z] ++ r) 0 := by
  obtain ⟨b, htl, hb, htr⟩ := (tiles_append _ _ _ _).1 ht
  have hl' : Links mem 0 (l ++ [x] ++ r) 0 := by simpa using hl
  refine Links.replace (c := b + 16 + x.size) hs htl ?_ htr (by simp) hl' ?_ ?_
  · simp only [tiles_cons, tiles_nil]
    omega
  · intro a ha
    rw [putHeader_of_ne _ _ _ _ _ (by omega) (by omega) (by omega) (by omega),
      putHeader_of_ne _ _ _ _ _ (by omega) (by omega) (by omega) (by omega), hb]
    rfl
  · refine ⟨?_, ?_, trivial⟩
    · rw [← hy]
      exact header_putHeader _ y _ _
    · rw [hy]
      have hz' := header_putHeader (relink mem (lastAddr 0 l) (headAddr r 0) x.addr z.addr) z x.addr
        (headAddr r 0)
      refine hz'.congr fun a ha ha' => ?_
      exact putHeader_of_ne _ _ _ _ _ (by omega) (by omega) (by omega) (by omega)

/-- Taking a whole block in memory: its neighbours are linked to it again. -/
theorem links_take {mem : Nat → Nat} {s : Nat} (hs : 0 < s) (ht : Tiles 16 s (l ++ x :: r) e)
    (hl : Links mem 0 (l ++ x :: r) 0) (u : Bool) :
    Links (putHeader (relink mem (lastAddr 0 l) (headAddr r 0) x.addr x.addr) x.addr u
      (headAddr r 0) (lastAddr 0 l) x.size) 0 (l ++ [⟨x.addr, x.size, u⟩] ++ r) 0 := by
  obtain ⟨b, htl, hb, htr⟩ := (tiles_append _ _ _ _).1 ht
  have hl' : Links mem 0 (l ++ [x] ++ r) 0 := by simpa using hl
  refine Links.replace (c := b + 16 + x.size) hs htl ⟨hb, rfl⟩ htr (by simp) hl' ?_ ?_
  · intro a ha
    rw [putHeader_of_ne _ _ _ _ _ (by omega) (by omega) (by omega) (by omega), hb]
    rfl
  · exact ⟨header_putHeader _ ⟨x.addr, x.size, u⟩ _ _, trivial⟩

/-- What `heap_split_node` does to the free block `x` between `l` and `r`. -/
structure Carved (L : Layout) (h h' : KHeap) (l : List Block) (x : Block) (n : Nat) (r : List Block)
    (e : Nat) : Prop where
  inv : Inv L h' (l ++ carve x n ++ r) e
  kept : Kept h h' (l ++ x :: r) (l ++ carve x n ++ r)
  endPtr : r = [] → h'.heapListEndPtr = lastAddr 0 (l ++ carve x n)
  complete : x.addr ∈ h.freeNodeList.live → Complete h (l ++ x :: r) →
    Complete h' (l ++ carve x n ++ r)

/-- The arithmetic of `heap_split_node` does not wrap around. -/
theorem heapSplitNode_eq {n : Nat} (hc : Chain L h (l ++ x :: r) e) (hn : n ≤ x.size) :
    h.heapSplitNode x.addr n = .ok
      (if x.size - n ≤ HEAP_SPLIT_THRESHOLD then
        (h.removeFree x.addr).splitAbsorb x.addr (x.addr + 16 + n) (headAddr r 0) (lastAddr 0 l)
          x.size
      else
        (h.removeFree x.addr).splitRest x.addr (x.addr + 16 + n) (headAddr r 0) (lastAddr 0 l) n
          (x.size - n - 16)) := by
  obtain ⟨-, hxn, hxp, hxs⟩ := hc.links.header
  have hb := hc.tiles.bounds (b := x) (by simp)
  have hfits := hc.fits
  have htotal : add32 x.size HEADER_SIZE = x.size + 16 :=
    add32_of_lt (by unfold HEADER_SIZE; omega)
  have hnew : add32 n HEADER_SIZE = n + 16 := add32_of_lt (by unfold HEADER_SIZE; omega)
  have hleft : sub32 (x.size + 16) (n + 16) = x.size - n := by
    rw [sub32_of_le (by omega)]
    omega
  have hnode : add32 x.addr (n + 16) = x.addr + 16 + n := by
    rw [add32_of_lt (by omega)]
    omega
  have hall : add32 n (x.size - n) = x.size := by
    rw [add32_of_lt (by omega)]
    omega
  unfold heapSplitNode
  rw [if_pos (hc.checkHeader (by simp))]
  simp only [nextPtr, prevPtr, size, removeFree_mem]
  rw [hxn, hxp, hxs, htotal, hnew, hleft, hnode, hall]
  by_cases hsmall : x.size - n ≤ HEAP_SPLIT_THRESHOLD
  · rw [if_pos hsmall, if_pos hsmall]
  · have hrest : sub32 (x.size - n) HEADER_SIZE = x.size - n - 16 := by
      unfold HEAP_SPLIT_THRESHOLD at hsmall
      exact sub32_of_le (by unfold HEADER_SIZE; omega)
    rw [if_neg hsmall, if_neg hsmall, hrest]

/-- The free blocks next to `x` in the chain, as the free list has them once `x` is taken off. -/
theorem Inv.mem_live_removeFree (hi : Inv L h (l ++ x :: r) e) (hx : x.used = false) {c : Nat}
    (hc : c ∈ (h.removeFree x.addr).freeNodeList.live) : c ∈ freeAddrs l ∨ c ∈ freeAddrs r := by
  have hP : HeapAddr L x.addr := (hi.tiles.bounds (b := x) (by simp)).1
  obtain ⟨hc, hne⟩ := (mem_live_removeList hi.list hP c).1 hc
  exact ((mem_freeAddrs_middle hx c).1 (hi.listed c hc)).resolve_left hne

theorem Inv.mem_removeFree_of_complete (hi : Inv L h (l ++ x :: r) e) (hx : x.used = false)
    (hall : Complete h (l ++ x :: r)) {c : Nat} (hc : c ∈ freeAddrs l ∨ c ∈ freeAddrs r) :
    c ∈ (h.removeFree x.addr).freeNodeList.live := by
  have hP : HeapAddr L x.addr := (hi.tiles.bounds (b := x) (by simp)).1
  refine (mem_live_removeList hi.list hP c).2
    ⟨hall c ((mem_freeAddrs_middle hx c).2 (Or.inr hc)), ?_⟩
  have hpw := hi.tiles.pairwise
  rw [List.pairwise_append, List.pairwise_cons] at hpw
  obtain ⟨-, ⟨hxr, -⟩, hlx⟩ := hpw
  rcases hc with hc | hc
  · obtain ⟨d, hd, -, rfl⟩ := (mem_freeAddrs _ _).1 hc
    have := hlx d hd x (by simp)
    omega
  · obtain ⟨d, hd, -, rfl⟩ := (mem_freeAddrs _ _).1 hc
    have := hxr d hd
    omega

/-- A node that was removed leaves room on the free list. -/
theorem Inv.room_removeFree {a : Nat} (hi : Inv L h bs e) (ha : HeapAddr L a)
    (hlist : a ∈ h.freeNodeList.live) :
    (h.removeFree a).freeNodeList.currSize < (h.removeFree a).freeNodeList.arrSize := by
  have hcurr : (h.removeFree a).freeNodeList.currSize + 1 = h.freeNodeList.currSize :=
    removeList_currSize_lt hi.list ha hlist
  have harr : (h.removeFree a).freeNodeList.arrSize = h.freeNodeList.arrSize :=
    removeList_arrSize hi.list ha
  have hpos : 1 ≤ (h.removeFree a).freeNodeList.currSize := (ok_removeList hi.list ha).pos
  have hle := hi.list.le
  omega

/-! The block `x` is replaced by the blocks `mid`, of which the first is in use. -/

theorem Inv.sizes_replace {mid : List Block} (hi : Inv L h (l ++ x :: r) e)
    (hmid : ∀ b ∈ mid, b.size % 4 = 0) : ∀ b ∈ l ++ mid ++ r, b.size % 4 = 0 := by
  intro b hb
  rcases List.mem_append.1 hb with hb | hb
  · rcases List.mem_append.1 hb with hb | hb
    · exact hi.sizes b (by simp [hb])
    · exact hmid b hb
  · exact hi.sizes b (by simp [hb])

theorem Inv.coalesced_replace {y : Block} {mid : List Block} (hi : Inv L h (l ++ x :: r) e)
    (hy : y.used = true) (hmid : NoAdjacentFree (mid ++ r)) :
    NoAdjacentFree (l ++ y :: mid ++ r) := by
  rw [List.append_assoc]
  refine List.isChain_append.2 ⟨(List.isChain_append.1 hi.coalesced).1,
    List.isChain_cons.2 ⟨fun _ _ => Or.inl hy, hmid⟩, fun _ _ c hc => Or.inr ?_⟩
  cases hc
  exact hy

/-- A payload is not touched when the neighbours of `x` are linked again. -/
theorem Inv.relink_payload (hi : Inv L h (l ++ x :: r) e) (a q : Nat) {b : Block}
    (hb : b ∈ l ++ x :: r) {c : Nat} (hc : InPayload b c) :
    relink h.mem (lastAddr 0 l) (headAddr r 0) a q c = h.mem c := by
  have ht : Tiles 16 L.heapBottom (l ++ [x] ++ r) e := by simpa using hi.tiles
  exact KHeap.relink_payload ht h.mem a q (by simpa using hb) hc

/-- The free block is taken whole. -/
theorem splitAbsorb_spec {n : Nat} (hi : Inv L h (l ++ x :: r) e) (hx : x.used = false)
    (hsmall : x.size - n ≤ HEAP_SPLIT_THRESHOLD) :
    Carved L h ((h.removeFree x.addr).splitAbsorb x.addr (x.addr + 16 + n) (headAddr r 0)
      (lastAddr 0 l) x.size) l x n r e := by
  have hP : HeapAddr L x.addr := (hi.tiles.bounds (b := x) (by simp)).1
  have hc := List.isChain_append.1 hi.coalesced
  have hcarve : carve x n = [⟨x.addr, x.size, true⟩] := by
    unfold carve
    rw [if_pos hsmall]
  have hfree : ∀ c, c ∈ freeAddrs (l ++ [⟨x.addr, x.size, true⟩] ++ r) ↔
      c ∈ freeAddrs l ∨ c ∈ freeAddrs r := by
    intro c
    rw [List.append_assoc, freeAddrs_append, List.singleton_append, freeAddrs_cons_used rfl,
      List.mem_append]
  rw [splitAbsorb_eq, removeFree_mem]
  constructor
  · rw [hcarve]
    refine ⟨by simp, ?_, links_take (zero_lt_heapBottom L) hi.tiles hi.links true, ?_, ?_, hi.fits,
      ok_removeList hi.list hP, ?_, hi.top_aligned, hi.top_le, hi.le_top⟩
    · rw [List.append_assoc]
      exact hi.tiles.swap rfl rfl
    · refine hi.sizes_replace fun b hb => ?_
      rw [List.mem_singleton.1 hb]
      exact hi.sizes x (by simp)
    · exact hi.coalesced_replace rfl (List.isChain_cons.1 hc.2.1).2
    · intro c hcl
      exact (hfree c).2 (hi.mem_live_removeFree hx hcl)
  · rw [hcarve]
    refine ⟨rfl, removeList_arrSize hi.list hP, ?_, ?_⟩
    · rw [List.append_cons]
      exact used_replace (by simp [hx]) _
    · intro b hb _ a ha
      have hne := not_header_of_payload hi.tiles hb (c := x) (by simp) ha
      show putHeader _ _ _ _ _ _ a = _
      rw [putHeader_of_ne _ _ _ _ _ (by omega) (by omega) (by omega) (by omega)]
      exact hi.relink_payload _ _ hb ha
  · rintro rfl
    rw [hcarve, lastAddr_append]
    simp
  · intro _ hall c hcf
    rw [hcarve] at hcf
    exact hi.mem_removeFree_of_complete hx hall ((hfree c).1 hcf)

/-- The rest of the free block becomes a free block of its own. -/
theorem splitRest_spec {n : Nat} (hi : Inv L h (l ++ x :: r) e) (hx : x.used = false)
    (hn4 : n % 4 = 0) (hbig : ¬ x.size - n ≤ HEAP_SPLIT_THRESHOLD) :
    Carved L h ((h.removeFree x.addr).splitRest x.addr (x.addr + 16 + n) (headAddr r 0)
      (lastAddr 0 l) n (x.size - n - 16)) l x n r e := by
  have hP : HeapAddr L x.addr := (hi.tiles.bounds (b := x) (by simp)).1
  have hP' : HeapAddr L (x.addr + 16 + n) := by
    unfold HeapAddr at hP ⊢
    omega
  have hok := ok_removeList hi.list hP
  have hc := List.isChain_append.1 hi.coalesced
  have hcarve : carve x n = [⟨x.addr, n, true⟩, ⟨x.addr + 16 + n, x.size - n - 16, false⟩] := by
    unfold carve
    rw [if_neg hbig]
  unfold HEAP_SPLIT_THRESHOLD at hbig
  have hfree : ∀ c, c ∈ freeAddrs (l ++ [⟨x.addr, n, true⟩,
      ⟨x.addr + 16 + n, x.size - n - 16, false⟩] ++ r) ↔
      c = x.addr + 16 + n ∨ c ∈ freeAddrs l ∨ c ∈ freeAddrs r := by
    intro c
    rw [List.append_assoc, freeAddrs_append, List.cons_append, freeAddrs_cons_used rfl,
      List.singleton_append, freeAddrs_cons_free rfl, List.mem_append, List.mem_cons, or_left_comm]
  rw [splitRest_eq _ _ _ _ _ (by omega), removeFree_mem]
  constructor
  · rw [hcarve]
    refine ⟨by simp, hi.tiles.split rfl rfl (by simp only; omega),
      links_split (y := ⟨x.addr, n, true⟩) (z := ⟨x.addr + 16 + n, x.size - n - 16, false⟩)
        (zero_lt_heapBottom L) hi.tiles hi.links rfl rfl (by simp only; omega), ?_, ?_, hi.fits,
      ok_insertList hok hP', ?_, hi.top_aligned, hi.top_le, hi.le_top⟩
    · have hxs := hi.sizes x (by simp)
      refine hi.sizes_replace fun b hb => ?_
      simp only [List.mem_cons, List.not_mem_nil, or_false] at hb
      rcases hb with rfl | rfl
      · exact hn4
      · show (x.size - n - 16) % 4 = 0
        omega
    · refine hi.coalesced_replace rfl (List.isChain_cons.2 ⟨fun y hy => Or.inr ?_,
        (List.isChain_cons.1 hc.2.1).2⟩)
      exact headUsed_of_free hc.2.1 hx y hy
    · intro c hcl
      refine (hfree c).2 ?_
      rcases mem_live_insertList_imp hok hP' hcl with rfl | hcl
      · exact Or.inl rfl
      · exact Or.inr (hi.mem_live_removeFree hx hcl)
  · rw [hcarve]
    refine ⟨rfl, (insertList_arrSize _ _).trans (removeList_arrSize hi.list hP), ?_, ?_⟩
    · rw [List.append_cons]
      exact used_replace (by simp [hx]) _
    · intro b hb hu a ha
      -- the header of the rest lies in the payload of `x`, away from other payloads
      have hbx : b ≠ x := by
        rintro rfl
        rw [hx] at hu; cases hu
      have hdis := hi.tiles.disjoint hb (c := x) (by simp) hbx
      obtain ⟨ha1, ha2⟩ := ha
      show putHeader _ _ _ _ _ _ a = _
      rw [putHeader_of_ne _ _ _ _ _ (by omega) (by omega) (by omega) (by omega),
        putHeader_of_ne _ _ _ _ _ (by omega) (by omega) (by omega) (by omega)]
      exact hi.relink_payload _ _ hb ⟨ha1, ha2⟩
  · rintro rfl
    rw [hcarve, lastAddr_append]
    simp
  · intro hlist hall c hcf
    rw [hcarve] at hcf
    refine (mem_live_insertList hok hP' (Or.inl (hi.room_removeFree hP hlist)) c).2 ?_
    rcases (hfree c).1 hcf with rfl | hcf
    · exact Or.inl rfl
    · exact Or.inr (hi.mem_removeFree_of_complete hx hall hcf)

/-- **`heap_split_node` computes `carve`.** -/
theorem heapSplitNode_spec {n : Nat} (hi : Inv L h (l ++ x :: r) e) (hx : x.used = false)
    (hn : n ≤ x.size) (hn4 : n % 4 = 0) :
    ∃ h', h.heapSplitNode x.addr n = .ok h' ∧ Carved L h h' l x n r e := by
  rw [heapSplitNode_eq hi.chain hn]
  by_cases hsmall : x.size - n ≤ HEAP_SPLIT_THRESHOLD
  · rw [if_pos hsmall]
    exact ⟨_, rfl, splitAbsorb_spec hi hx hsmall⟩
  · rw [if_neg hsmall]
    exact ⟨_, rfl, splitRest_spec hi hx hn4 hsmall⟩

end

end KHeap

end NowOS
