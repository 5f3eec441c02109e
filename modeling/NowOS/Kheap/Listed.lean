import NowOS.Kheap.Integrity
import NowOS.Kheap.Release
import NowOS.Kheap.Request

set_option autoImplicit false

/-! # A full free list

`insert_list` returns `-1` when the array is full, and no caller looks at the result. `init_kheap`
makes the array out of what is left of the early heap, so that it can be as small as two cells.
`heap_split_node` is safe: it takes a node off the list before it puts one on. `kfree` is not. The
list has to hold one node more afterwards, unless a neighbour is free and merged with the freed
node. -/

namespace NowOS

namespace KHeap

open SortedArrayList Client

/-- Every node of the chain whose magic is `FREE` is on the free list. -/
def AllListed (L : Layout) (h : KHeap) : Prop :=
  ∀ a, Node L h a → h.magic a = MAGIC_FREE → a ∈ h.freeNodeList.live

/-- A neighbour of the node is free. -/
def FreeNeighbour (h : KHeap) (node : Nat) : Prop :=
  (h.nextPtr node ≠ 0 ∧ h.magic (h.nextPtr node) = MAGIC_FREE) ∨
    (h.prevPtr node ≠ 0 ∧ h.magic (h.prevPtr node) = MAGIC_FREE)

instance (h : KHeap) (node : Nat) : Decidable (FreeNeighbour h node) :=
  inferInstanceAs (Decidable (_ ∨ _))

section

variable {L : Layout} {h h' : KHeap} {bs l r : List Block} {x : Block} {e : Nat}

theorem Inv.allListed_iff (hi : Inv L h bs e) : AllListed L h ↔ Complete h bs := by
  constructor
  · intro hall a ha
    obtain ⟨b, hb, hbu, rfl⟩ := (mem_freeAddrs bs a).1 ha
    have hmagic : h.magic b.addr = magicOf b.used := (hi.links.magic_size hb).1
    rw [hbu] at hmagic
    exact hall _ (hi.chain.node hb) hmagic
  · intro hc a hn hfree
    obtain ⟨b, hb, rfl⟩ := hn.mem hi.chain
    have hmagic : h.magic b.addr = magicOf b.used := (hi.links.magic_size hb).1
    rw [hmagic, magicOf_eq_free] at hfree
    exact hc _ ((mem_freeAddrs bs _).2 ⟨b, hb, hfree, rfl⟩)

/-! ## Counting free blocks -/

theorem Inv.length_of_complete (hi : Inv L h bs e) (hc : Complete h bs) :
    (freeAddrs bs).length + 1 = h.freeNodeList.currSize := by
  rw [← (hi.wellFormed hc).free_list, hi.list.length_live]

/-- A list of free blocks with one missing is shorter. -/
theorem length_lt_of_subset {ls as : List Nat} {m : Nat} (hnodup : ls.Nodup)
    (hsub : ∀ a ∈ ls, a ∈ as) (hm : m ∈ as) (hmiss : m ∉ ls) : ls.length < as.length := by
  have hperm : (m :: ls).Subperm as := by
    refine List.subperm_of_subset (List.nodup_cons.2 ⟨hmiss, hnodup⟩) ?_
    intro a ha
    rcases List.mem_cons.1 ha with rfl | ha
    · exact hm
    · exact hsub a ha
  exact hperm.length_le

theorem length_absorbRight (x : Block) (r : List Block) :
    (freeAddrs (absorbRight x r).2).length ≤ (freeAddrs r).length ∧
      (¬ HeadUsed r → (freeAddrs (absorbRight x r).2).length < (freeAddrs r).length) := by
  cases r with
  | nil => exact ⟨le_rfl, fun hno => absurd (by simp [HeadUsed]) hno⟩
  | cons y r =>
      cases hy : y.used with
      | true => simp [absorbRight, HeadUsed, hy]
      | false => simp [absorbRight, hy, freeAddrs_cons_free hy]

theorem length_absorbLeft (l : List Block) (x : Block) :
    (freeAddrs (absorbLeft l x).1).length ≤ (freeAddrs l).length ∧
      (¬ LastUsed l → (freeAddrs (absorbLeft l x).1).length < (freeAddrs l).length) := by
  rcases List.eq_nil_or_concat l with rfl | ⟨l, z, rfl⟩
  · exact ⟨le_rfl, fun hno => absurd (by simp [LastUsed]) hno⟩
  · rw [List.concat_eq_append, absorbLeft_concat]
    cases hz : z.used with
    | true => simp [LastUsed, hz]
    | false => simp [freeAddrs_append, freeAddrs_cons_free hz]

theorem absorbRight_used (hx : x.used = false) : (absorbRight x r).1.used = false :=
  (absorbRight_eq hx r).2

theorem absorbLeft_used (hx : x.used = false) : (absorbLeft l x).2.used = false := by
  rcases List.eq_nil_or_concat l with rfl | ⟨l, z, rfl⟩
  · exact hx
  · rw [List.concat_eq_append, absorbLeft_concat]
    split_ifs
    · exact hx
    · rfl

theorem length_coalesce (hx : x.used = false) :
    (freeAddrs (coalesce l x r)).length =
      (freeAddrs (absorbLeft l (absorbRight x r).1).1).length + 1 +
        (freeAddrs (absorbRight x r).2).length := by
  unfold coalesce
  rw [freeAddrs_append, freeAddrs_cons_free (absorbLeft_used (absorbRight_used hx))]
  simp only [List.length_append, List.length_cons]
  omega

/-- Between blocks in use there is nothing to merge. -/
theorem coalesce_of_used (hl : LastUsed l) (hr : HeadUsed r) : coalesce l x r = l ++ x :: r := by
  have hright : absorbRight x r = (x, r) := by
    cases r with
    | nil => rfl
    | cons y r => exact if_pos (hr y (by simp))
  have hleft : absorbLeft l x = (l, x) := by
    rcases List.eq_nil_or_concat l with rfl | ⟨l, z, rfl⟩
    · rfl
    · rw [List.concat_eq_append] at hl ⊢
      rw [absorbLeft_concat, if_pos (hl z (by simp))]
  simp only [coalesce, hright, hleft]

/-- Freeing a block adds a free block to the chain, unless a neighbour is free. -/
theorem length_freed (hx : x.used = true) :
    (LastUsed l ∧ HeadUsed r →
      (freeAddrs (coalesce l ⟨x.addr, x.size, false⟩ r)).length =
        (freeAddrs (l ++ x :: r)).length + 1) ∧
    (¬ (LastUsed l ∧ HeadUsed r) →
      (freeAddrs (coalesce l ⟨x.addr, x.size, false⟩ r)).length ≤
        (freeAddrs (l ++ x :: r)).length) := by
  have hbefore : (freeAddrs (l ++ x :: r)).length =
      (freeAddrs l).length + (freeAddrs r).length := by
    rw [freeAddrs_append, freeAddrs_cons_used hx, List.length_append]
  obtain ⟨hright, hright'⟩ := length_absorbRight ⟨x.addr, x.size, false⟩ r
  obtain ⟨hleft, hleft'⟩ := length_absorbLeft l (absorbRight ⟨x.addr, x.size, false⟩ r).1
  constructor
  · rintro ⟨hlu, hru⟩
    rw [coalesce_of_used hlu hru, hbefore, freeAddrs_append, freeAddrs_cons_free rfl]
    simp only [List.length_append, List.length_cons]
    omega
  · intro hno
    rw [length_coalesce rfl, hbefore]
    by_cases hlu : LastUsed l
    · have hru := hright' fun hru => hno ⟨hlu, hru⟩
      omega
    · have hlu := hleft' hlu
      omega

/-! ## `kfree` -/

/-- After a `kfree` all free nodes are listed exactly if the array has a cell for each of them and
one more. -/
theorem kfree_complete_iff (hi : Inv L h (l ++ x :: r) e) (hx : x.used = true)
    (hc : Complete h (l ++ x :: r)) (hok : h.kfree (x.addr + 16) = .ok h') :
    Complete h' (coalesce l ⟨x.addr, x.size, false⟩ r) ↔
      (freeAddrs (coalesce l ⟨x.addr, x.size, false⟩ r)).length < h.freeNodeList.arrSize := by
  obtain ⟨h1, hok1, hi1, -, -, harr, -, -⟩ := kfree_spec hi hx
  rw [hok] at hok1
  cases hok1
  have hpos : 1 ≤ (freeAddrs (coalesce l ⟨x.addr, x.size, false⟩ r)).length := by
    rw [length_coalesce rfl]
    omega
  constructor
  · intro hc'
    have hlen := hi1.length_of_complete hc'
    have hle := hi1.list.le
    omega
  · intro hroom
    -- the heap before the merged node goes on the list
    obtain ⟨h2, he, hm2, hstep, -, -⟩ := heapMergeNodes_eq (merging_of_kfree hi hx)
    rw [← kfree_eq hi.chain, hok] at he
    cases he
    have hP : HeapAddr L (mergedNode l ⟨x.addr, x.size, false⟩ r) := hm2.addr_bounds.1
    have hbut : ListedBut h2 (coalesce l ⟨x.addr, x.size, false⟩ r)
        (mergedNode l ⟨x.addr, x.size, false⟩ r) := by
      refine hstep.listed fun c hcfree hne => hc c ?_
      rw [mem_freeAddrs_middle rfl] at hcfree
      rw [freeAddrs_append, freeAddrs_cons_used hx, List.mem_append]
      exact hcfree.resolve_left hne
    have hmerged : mergedNode l ⟨x.addr, x.size, false⟩ r ∈
        freeAddrs (coalesce l ⟨x.addr, x.size, false⟩ r) :=
      (mem_freeAddrs_middle hm2.free _).2 (Or.inl rfl)
    have hroom2 : RoomFor h2 (mergedNode l ⟨x.addr, x.size, false⟩ r) := by
      by_contra hfull
      rw [RoomFor, not_or, Nat.not_lt] at hfull
      have hnodup : h2.freeNodeList.live.Nodup := hm2.list.sorted.imp Nat.ne_of_lt
      have hlt : h2.freeNodeList.live.length <
          (freeAddrs (coalesce l ⟨x.addr, x.size, false⟩ r)).length :=
        length_lt_of_subset hnodup hm2.listed hmerged hfull.2
      have hlen := hm2.list.length_live
      have harr2 : h2.freeNodeList.arrSize = h.freeNodeList.arrSize := hstep.kept.arrSize
      omega
    intro a ha
    refine (mem_live_insertList hm2.list hP hroom2 a).2 ?_
    by_cases hne : a = mergedNode l ⟨x.addr, x.size, false⟩ r
    · exact Or.inl hne
    · exact Or.inr (hbut a ha hne)

/-- The neighbours of a block as the words of its header see them. -/
theorem Chain.freeNeighbour_iff (hc : Chain L h (l ++ x :: r) e) :
    FreeNeighbour h x.addr ↔ ¬ (LastUsed l ∧ HeadUsed r) := by
  have hxn : h.nextPtr x.addr = headAddr r 0 := hc.links.header.2.1
  have hxp : h.prevPtr x.addr = lastAddr 0 l := hc.links.header.2.2.1
  have hright : (headAddr r 0 ≠ 0 ∧ h.magic (headAddr r 0) = MAGIC_FREE) ↔ ¬ HeadUsed r := by
    cases r with
    | nil => simp [HeadUsed]
    | cons y r =>
        have hpos := hc.addr_pos (x := y) (by simp)
        have hmagic : h.magic y.addr = magicOf y.used := (hc.links.magic_size (by simp)).1
        rw [headAddr_cons, hmagic, magicOf_eq_free]
        simp [HeadUsed, hpos.ne']
  have hleft : (lastAddr 0 l ≠ 0 ∧ h.magic (lastAddr 0 l) = MAGIC_FREE) ↔ ¬ LastUsed l := by
    rcases List.eq_nil_or_concat l with rfl | ⟨l, z, rfl⟩
    · simp [LastUsed]
    · rw [List.concat_eq_append] at hc ⊢
      have hpos := hc.addr_pos (x := z) (by simp)
      have hmagic : h.magic z.addr = magicOf z.used := (hc.links.magic_size (by simp)).1
      have hlast := lastAddr_concat 0 l z
      rw [hlast, hmagic, magicOf_eq_free]
      simp [LastUsed, hpos.ne']
  unfold FreeNeighbour
  rw [hxn, hxp, hright, hleft, not_and_or, or_comm]

/-- **`kfree` and a full list.** All free nodes are still listed exactly if there was room on the
list or a neighbour of the node was free. -/
theorem kfree_complete_iff_room (hi : Inv L h (l ++ x :: r) e) (hx : x.used = true)
    (hc : Complete h (l ++ x :: r)) (hok : h.kfree (x.addr + 16) = .ok h') :
    Complete h' (coalesce l ⟨x.addr, x.size, false⟩ r) ↔
      h.freeNodeList.currSize < h.freeNodeList.arrSize ∨ FreeNeighbour h x.addr := by
  rw [kfree_complete_iff hi hx hc hok, hi.chain.freeNeighbour_iff]
  have hlen := hi.length_of_complete hc
  obtain ⟨halone, hmerges⟩ := length_freed (l := l) (r := r) hx
  by_cases hused : LastUsed l ∧ HeadUsed r
  · have hmore := halone hused
    rw [or_iff_left (not_not.2 hused)]
    omega
  · -- a free neighbour is on the list, so that the list has more than one cell
    have hle := hmerges hused
    have hfit := hi.list.le
    have hpos : 1 ≤ (freeAddrs (coalesce l ⟨x.addr, x.size, false⟩ r)).length := by
      rw [length_coalesce rfl]
      omega
    exact iff_of_true (by omega) (Or.inr hused)

end

/-! ## Runs -/

namespace Client

variable {L : Layout} {s s' : Client} {bs : List Block} {e : Nat}

/-- The calls for which the free list has room: a `kfree` finds the list not full, or the node has
a free neighbour. -/
def HasRoom : Call → Client → Prop
  | .kfree p, s => s.heap.freeNodeList.currSize < s.heap.freeNodeList.arrSize ∨
      FreeNeighbour s.heap (sub32 p HEADER_SIZE)
  | _, _ => True

instance : (c : Call) → (s : Client) → Decidable (HasRoom c s)
  | .kfree _, _ => inferInstanceAs (Decidable (_ ∨ _))
  | .kmalloc _, _ => inferInstanceAs (Decidable True)
  | .store _ _, _ => inferInstanceAs (Decidable True)

/-- One step from a state in which all free nodes are listed. -/
theorem Owned.allListed_step {c : Call} (ho : Owned L s bs e) (hc : Complete s.heap bs)
    (hno : ¬ Expands c s) (hs : Step L c s s') : AllListed L s'.heap ↔ HasRoom c s := by
  obtain ⟨hvalid, hexec⟩ := hs
  cases c with
  | kmalloc n =>
      obtain ⟨node, hnode, hfound, -⟩ := heapFindFreeNode_spec ho.inv (alignUp n 4)
      have hne : node ≠ 0 := by
        rintro rfl
        exact hno ⟨n, rfl, hnode⟩
      obtain ⟨-, l, x, r, rfl, hx, rfl, hn⟩ := hfound hne
      obtain ⟨h', hok, hw', -⟩ := (ho.inv.wellFormed hc).kmalloc hx hn hnode
      simp only [exec, hok] at hexec
      cases hexec
      exact iff_of_true (hw'.inv.allListed_iff.2 hw'.complete) trivial
  | kfree p =>
      obtain ⟨x, hx, hxu, rfl⟩ := ho.owned p hvalid
      obtain ⟨l, r, rfl⟩ := List.append_of_mem hx
      obtain ⟨h', hok, hi', -⟩ := kfree_spec ho.inv hxu
      simp only [exec, hok] at hexec
      cases hexec
      have hsub : sub32 (x.addr + 16) HEADER_SIZE = x.addr := sub32_header x.addr
      simp only [hi'.allListed_iff, kfree_complete_iff_room ho.inv hxu hc hok, HasRoom, hsub]
  | store a v =>
      obtain ⟨q, hq, ha⟩ := hvalid
      cases hexec
      exact iff_of_true ((ho.store v hq ha).inv.allListed_iff.2 hc) trivial

/-- A run in which every call has room. -/
theorem owned_of_room (hr : Reach (fun s => Init L s ∧ 2 ≤ s.heap.freeNodeList.arrSize)
    (Guarded (fun c s => ¬ Expands c s ∧ HasRoom c s) (Step L)) s) :
    ∃ bs e, Owned L s bs e ∧ Complete s.heap bs := by
  refine hr.invariant (I := fun s => ∃ bs e, Owned L s bs e ∧ Complete s.heap bs) ?_ ?_
  · rintro s ⟨hs, hcap⟩
    refine ⟨_, _, owned_init hs, fun a ha => ?_⟩
    obtain ⟨b, hb, -, rfl⟩ := (mem_freeAddrs _ a).1 ha
    rw [List.mem_singleton.1 hb]
    exact init_live hs hcap
  · rintro c s s' ⟨bs, e, ho, hc⟩ ⟨⟨hno, hroom⟩, hstep⟩
    obtain ⟨bs', e', ho', -⟩ := ho.step (expandable_of_not_expands hno) hstep
    exact ⟨bs', e', ho', ho'.inv.allListed_iff.1 ((ho.allListed_step hc hno hstep).2 hroom)⟩

/-- **No free block is forgotten as long as the list has room.** For every capacity of at least two
cells and every run without an expansion in which each `kfree` has room: all free nodes are on the
free list, and they are so after one more call exactly if that has room. -/
theorem free_nodes_listed_iff (hr : Reach (fun s => Init L s ∧ 2 ≤ s.heap.freeNodeList.arrSize)
    (Guarded (fun c s => ¬ Expands c s ∧ HasRoom c s) (Step L)) s) :
    AllListed L s.heap ∧
      ∀ c s', ¬ Expands c s → Step L c s s' → (AllListed L s'.heap ↔ HasRoom c s) := by
  obtain ⟨bs, e, ho, hc⟩ := owned_of_room hr
  exact ⟨ho.inv.allListed_iff.2 hc, fun c s' hno hstep => ho.allListed_step hc hno hstep⟩

/-- Two cells are enough for two allocations and for freeing the second one, which is merged with
the rest of the heap. -/
theorem free_nodes_listed_tight :
    ∃ s s', runList (call bootLayout) [.kmalloc 100, .kmalloc 100] tightClient = some s ∧
      call bootLayout (.kfree 0xC0128084) s = some s' ∧
      s.heap.freeNodeList.currSize = s.heap.freeNodeList.arrSize ∧
      AllListed bootLayout s.heap ∧ AllListed bootLayout s'.heap := by
  have hcap : 2 ≤ tightClient.heap.freeNodeList.arrSize := by decide +kernel
  have hrun : (call bootLayout (.kmalloc 100) tightClient).any (fun s1 =>
      decide (tightClient.heap.heapFindFreeNode (alignUp 100 4) ≠ .ok 0) &&
      (call bootLayout (.kmalloc 100) s1).any (fun s =>
        decide (s1.heap.heapFindFreeNode (alignUp 100 4) ≠ .ok 0) &&
        s.heap.freeNodeList.currSize == s.heap.freeNodeList.arrSize &&
        decide (HasRoom (.kfree 0xC0128084) s) &&
        (call bootLayout (.kfree 0xC0128084) s).isSome)) = true := by decide +kernel
  obtain ⟨s1, hs1, hshape⟩ := (Option.any_eq_true _ _).1 hrun
  simp only [Bool.and_eq_true, decide_eq_true_eq] at hshape
  obtain ⟨hfind1, hrun2⟩ := hshape
  obtain ⟨s, hs, hshape⟩ := (Option.any_eq_true _ _).1 hrun2
  simp only [Bool.and_eq_true, beq_iff_eq, decide_eq_true_eq] at hshape
  obtain ⟨⟨⟨hfind, hfull⟩, hroom⟩, hsome⟩ := hshape
  obtain ⟨s', hs'⟩ := Option.isSome_iff_exists.1 hsome
  have hno : ∀ {t : Client}, t.heap.heapFindFreeNode (alignUp 100 4) ≠ .ok 0 →
      ¬ Expands (.kmalloc 100) t := by
    rintro t hne ⟨n, hn, hnone⟩
    cases hn
    exact hne hnone
  have hlisted := free_nodes_listed_iff (.next (.kmalloc 100) (.next (.kmalloc 100)
    (.start ⟨init_tightClient, hcap⟩) ⟨⟨hno hfind1, trivial⟩, step_of_call hs1⟩)
    ⟨⟨hno hfind, trivial⟩, step_of_call hs⟩)
  refine ⟨s, s', by simp only [runList, hs1, hs], hs', hfull, hlisted.1, ?_⟩
  refine (hlisted.2 (.kfree 0xC0128084) s' ?_ (step_of_call hs')).2 hroom
  rintro ⟨n, hn, -⟩
  cases hn

/-- **A free block is forgotten.** The array has two cells. The first of two allocations is freed
while the rest of the heap is on the list; its node is `FREE` and not listed. -/
theorem free_node_forgotten :
    ∃ s, Init bootLayout tightClient ∧ tightClient.heap.freeNodeList.arrSize = 2 ∧
      runList (call bootLayout) [.kmalloc 100, .kmalloc 100, .kfree 0xC0128010] tightClient =
        some s ∧
      ¬ AllListed bootLayout s.heap := by
  have hrun : (runList (call bootLayout) [.kmalloc 100, .kmalloc 100, .kfree 0xC0128010]
      tightClient).any (fun s => s.heap.magic 0xC0128000 == MAGIC_FREE &&
        decide (0xC0128000 ∉ s.heap.freeNodeList.live)) = true := by decide +kernel
  obtain ⟨s, hs, hshape⟩ := (Option.any_eq_true _ _).1 hrun
  simp only [Bool.and_eq_true, beq_iff_eq, decide_eq_true_eq] at hshape
  refine ⟨s, init_tightClient, by decide +kernel, hs, fun hall => hshape.2 ?_⟩
  exact hall _ .bottom hshape.1

end Client

end KHeap

end NowOS
