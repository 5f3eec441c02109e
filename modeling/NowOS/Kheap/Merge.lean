import NowOS.Kheap.Chain

set_option autoImplicit false

/-! # Merging free nodes

`heap_merge_nodes` computes `coalesce`: the free block in the middle takes in its right
neighbour and then its left neighbour, if they are free. The memory holds the resulting chain,
the free list lists the resulting block, and nothing else changes. -/

namespace NowOS

namespace KHeap

open SortedArrayList

/-! ## What merging does to the blocks -/

/-- The block `x` and its right neighbour, merged if the neighbour is free. -/
def absorbRight (x : Block) : List Block → Block × List Block
  | [] => (x, [])
  | y :: r => if y.used then (x, y :: r) else (⟨x.addr, x.size + y.size + 16, false⟩, r)

/-- The block `x` and its left neighbour, merged if the neighbour is free. -/
def absorbLeft (l : List Block) (x : Block) : List Block × Block :=
  match l.getLast? with
  | none => (l, x)
  | some z => if z.used then (l, x) else (l.dropLast, ⟨z.addr, x.size + z.size + 16, false⟩)

/-- Merge the free block `x` with its free neighbours. -/
def coalesce (l : List Block) (x : Block) (r : List Block) : List Block :=
  let right := absorbRight x r
  let left := absorbLeft l right.1
  left.1 ++ left.2 :: right.2

theorem absorbLeft_concat (l : List Block) (z x : Block) :
    absorbLeft (l ++ [z]) x =
      if z.used then (l ++ [z], x) else (l, ⟨z.addr, x.size + z.size + 16, false⟩) := by
  simp [absorbLeft]

/-! ## The state while a block is being merged -/

/-- The values the free list can hold. -/
def HeapAddr (L : Layout) (a : Nat) : Prop := L.heapBottom ≤ a

/-- The payload addresses of a block. -/
def InPayload (b : Block) (a : Nat) : Prop := b.addr + 16 ≤ a ∧ a < b.addr + 16 + b.size

/-- **The state in which `heap_merge_nodes` is called and its steps are made.** The chain holds the
blocks `l`, the free block `x` and `r`; neighbours of `x` may be free, other neighbours are not
both free. The free list holds free blocks. -/
structure Merging (L : Layout) (h : KHeap) (l : List Block) (x : Block) (r : List Block)
    (e : Nat) : Prop where
  tiles : Tiles 16 L.heapBottom (l ++ x :: r) e
  links : Links h.mem 0 (l ++ x :: r) 0
  sizes : ∀ b ∈ l ++ x :: r, b.size % 4 = 0
  fits : e < W32
  free : x.used = false
  left : NoAdjacentFree l
  right : NoAdjacentFree r
  list : h.freeNodeList.Ok (HeapAddr L)
  listed : ∀ a ∈ h.freeNodeList.live, a ∈ freeAddrs (l ++ x :: r)

/-- What a change of the heap from the blocks `bs` to the blocks `bs'` keeps: the pointers, the
blocks in use, and their payloads. -/
structure Kept (h h' : KHeap) (bs bs' : List Block) : Prop where
  top : h'.topHeapPtr = h.topHeapPtr
  arrSize : h'.freeNodeList.arrSize = h.freeNodeList.arrSize
  used : ∀ b ∈ bs, b.used = true → b ∈ bs'
  payload : ∀ b ∈ bs, b.used = true → ∀ a, InPayload b a → h'.mem a = h.mem a

theorem Kept.refl (h : KHeap) (bs : List Block) : Kept h h bs bs :=
  ⟨rfl, rfl, fun _ hb _ => hb, fun _ _ _ _ _ => rfl⟩

theorem Kept.trans {h h' h'' : KHeap} {bs bs' bs'' : List Block} (h1 : Kept h h' bs bs')
    (h2 : Kept h' h'' bs' bs'') : Kept h h'' bs bs'' where
  top := h2.top.trans h1.top
  arrSize := h2.arrSize.trans h1.arrSize
  used := fun b hb hu => h2.used b (h1.used b hb hu) hu
  payload := fun b hb hu a ha =>
    (h2.payload b (h1.used b hb hu) hu a ha).trans (h1.payload b hb hu a ha)

/-- The free list has room for `a`, or holds it already. -/
def RoomFor (h : KHeap) (a : Nat) : Prop :=
  h.freeNodeList.currSize < h.freeNodeList.arrSize ∨ a ∈ h.freeNodeList.live

/-- All free blocks other than the one at address `a` are listed. -/
def ListedBut (h : KHeap) (bs : List Block) (a : Nat) : Prop :=
  ∀ c ∈ freeAddrs bs, c ≠ a → c ∈ h.freeNodeList.live

/-! ## Addresses -/

/-- A payload address of a block is not in the header of any block. -/
theorem not_header_of_payload {bs : List Block} {s e : Nat} (ht : Tiles 16 s bs e) {b c : Block}
    (hb : b ∈ bs) (hc : c ∈ bs) {a : Nat} (ha : InPayload b a) : a < c.addr ∨ c.addr + 16 ≤ a := by
  obtain ⟨h1, h2⟩ := ha
  by_cases hbc : b = c
  · subst hbc; omega
  · rcases ht.disjoint hb hc hbc with hd | hd <;> omega

theorem mem_lastAddr {l : List Block} (hne : l ≠ []) (p : Nat) :
    ∃ b ∈ l, b.addr = lastAddr p l := by
  induction l generalizing p with
  | nil => exact absurd rfl hne
  | cons b bs ih =>
      cases bs with
      | nil => exact ⟨b, by simp, rfl⟩
      | cons c cs =>
          obtain ⟨d, hd, hda⟩ := ih (by simp) b.addr
          exact ⟨d, List.mem_cons_of_mem b hd, hda⟩

/-- Relinking the neighbours of a range does not touch a payload. -/
theorem relink_payload {l mid r : List Block} {s e : Nat} (ht : Tiles 16 s (l ++ mid ++ r) e)
    (mem : Nat → Nat) (x q : Nat) {b : Block} (hb : b ∈ l ++ mid ++ r) {a : Nat}
    (ha : InPayload b a) :
    relink mem (lastAddr 0 l) (headAddr r 0) x q a = mem a := by
  refine relink_of_ne mem (fun hl => ?_) (fun hr => ?_)
  · have hne : l ≠ [] := by
      rintro rfl
      exact hl rfl
    obtain ⟨c, hc, hca⟩ := mem_lastAddr hne 0
    have := not_header_of_payload ht hb (by simp [hc]) ha (c := c)
    omega
  · cases r with
    | nil => exact absurd rfl hr
    | cons c cs =>
        have := not_header_of_payload ht hb (by simp) ha (c := c)
        rw [headAddr_cons]
        omega

theorem addr_aligned {bs : List Block} {s e : Nat} (ht : Tiles 16 s bs e) (hs : s % 4 = 0)
    (hsz : ∀ b ∈ bs, b.size % 4 = 0) : (∀ b ∈ bs, b.addr % 4 = 0) ∧ e % 4 = 0 := by
  induction bs generalizing s with
  | nil =>
      refine ⟨fun b hb => absurd hb (by simp), ?_⟩
      rw [tiles_nil] at ht
      omega
  | cons c cs ih =>
      obtain ⟨hc, ht⟩ := ht
      have hcs := hsz c (by simp)
      obtain ⟨h1, h2⟩ := ih ht (by omega) (fun b hb => hsz b (by simp [hb]))
      refine ⟨fun b hb => ?_, h2⟩
      rcases List.mem_cons.mp hb with rfl | hb
      · omega
      · exact h1 b hb

/-! ## The memory after a merge -/

/-- The two guarded stores of the merge and split routines are `relink`. -/
theorem guarded_stores (h : KHeap) (prev next a q : Nat) :
    (if prev ≠ 0 then (if next ≠ 0 then h.setPrevPtr next q else h).setNextPtr prev a
      else (if next ≠ 0 then h.setPrevPtr next q else h)) =
      { h with mem := relink h.mem prev next a q } := by
  unfold relink
  split_ifs <;> rfl

theorem heapMergeRight_eq (h : KHeap) (node : Nat) :
    h.heapMergeRight node =
      ({ h with
          mem := putHeader
            (relink h.mem (h.prevPtr node) (h.nextPtr (h.nextPtr node)) node node) node false
            (h.nextPtr (h.nextPtr node)) (h.prevPtr node)
            (add32 (add32 (h.size node) (h.size (h.nextPtr node))) HEADER_SIZE) }, node) := by
  simp only [heapMergeRight]
  rw [guarded_stores]
  rfl

theorem heapMergeLeft_eq (h : KHeap) (node : Nat) :
    h.heapMergeLeft node =
      ({ h with
          mem := putHeader
            (relink h.mem (h.prevPtr (h.prevPtr node)) (h.nextPtr node) (h.prevPtr node)
              (h.prevPtr node)) (h.prevPtr node) false
            (h.nextPtr node) (h.prevPtr (h.prevPtr node))
            (add32 (add32 (h.size node) (h.size (h.prevPtr node))) HEADER_SIZE) },
        h.prevPtr node) := by
  simp only [heapMergeLeft]
  rw [guarded_stores]
  rfl

/-- **Merging two neighbours in memory.** The blocks `x` and `y` between `l` and `r` become one
free block. -/
theorem links_merge {mem : Nat → Nat} {l r : List Block} {x y : Block} {s e : Nat} (hs : 0 < s)
    (ht : Tiles 16 s (l ++ [x, y] ++ r) e) (hl : Links mem 0 (l ++ [x, y] ++ r) 0) :
    Links (putHeader (relink mem (lastAddr 0 l) (headAddr r 0) x.addr x.addr) x.addr false
      (headAddr r 0) (lastAddr 0 l) (x.size + y.size + 16)) 0
      (l ++ [⟨x.addr, x.size + y.size + 16, false⟩] ++ r) 0 := by
  obtain ⟨c, htlm, htr⟩ := (tiles_append _ _ _ _).1 ht
  obtain ⟨b, htl, htm⟩ := (tiles_append _ _ _ _).1 htlm
  simp only [tiles_cons, tiles_nil] at htm
  obtain ⟨hx, hy, hc⟩ := htm
  refine Links.replace (b := b) (c := c) hs htl ?_ htr (by simp) hl ?_ ?_
  · simp only [tiles_cons, tiles_nil]
    omega
  · intro a ha
    rw [hx]
    exact putHeader_of_ne _ _ _ _ _ (by omega) (by omega) (by omega) (by omega)
  · refine ⟨?_, trivial⟩
    exact header_putHeader _ ⟨x.addr, x.size + y.size + 16, false⟩ _ _

/-- A merge does not touch the payload of a block that stays. -/
theorem merge_payload {mem : Nat → Nat} {l r : List Block} {x y : Block} {s e next prev size : Nat}
    (ht : Tiles 16 s (l ++ [x, y] ++ r) e) {b : Block} (hb : b ∈ l ++ [x, y] ++ r) {a : Nat}
    (ha : InPayload b a) :
    putHeader (relink mem (lastAddr 0 l) (headAddr r 0) x.addr x.addr) x.addr false next prev size
      a = mem a := by
  have hx := not_header_of_payload ht hb (c := x) (by simp) ha
  rw [putHeader_of_ne _ _ _ _ _ (by omega) (by omega) (by omega) (by omega)]
  exact relink_payload ht mem _ _ hb ha

/-! ## One merge -/

/-- What one merge, or none, does around the free block at address `a`, which ends up in the
block at address `a'`. -/
structure MergeStep (h h' : KHeap) (bs bs' : List Block) (a a' : Nat) : Prop where
  kept : Kept h h' bs bs'
  endPtr : h'.heapListEndPtr = h.heapListEndPtr
  room : RoomFor h a → RoomFor h' a'
  listed : ListedBut h bs a → ListedBut h' bs' a'

theorem MergeStep.refl (h : KHeap) (bs : List Block) (a : Nat) : MergeStep h h bs bs a a :=
  ⟨Kept.refl h bs, rfl, id, id⟩

theorem MergeStep.trans {h h' h'' : KHeap} {bs bs' bs'' : List Block} {a a' a'' : Nat}
    (h1 : MergeStep h h' bs bs' a a') (h2 : MergeStep h' h'' bs' bs'' a' a'') :
    MergeStep h h'' bs bs'' a a'' :=
  ⟨h1.kept.trans h2.kept, h2.endPtr.trans h1.endPtr, h2.room ∘ h1.room, h2.listed ∘ h1.listed⟩

@[simp] theorem removeFree_mem (h : KHeap) (a : Nat) : (h.removeFree a).mem = h.mem := by
  cases h; rfl

@[simp] theorem insertFree_mem (h : KHeap) (a : Nat) : (h.insertFree a).mem = h.mem := by
  cases h; rfl

/-- Removing two nodes from the free list. -/
theorem mem_live_removeTwo {L : Layout} {h : KHeap} (hok : h.freeNodeList.Ok (HeapAddr L))
    {a b : Nat} (ha : HeapAddr L a) (hb : HeapAddr L b) (c : Nat) :
    c ∈ ((h.removeFree a).removeFree b).freeNodeList.live ↔
      c ∈ h.freeNodeList.live ∧ c ≠ a ∧ c ≠ b := by
  have hok' : (h.removeFree a).freeNodeList.Ok (HeapAddr L) := ok_removeList hok ha
  show c ∈ ((h.removeFree a).freeNodeList.removeList b).2.live ↔ _
  rw [mem_live_removeList hok' hb]
  show c ∈ (h.freeNodeList.removeList a).2.live ∧ _ ↔ _
  rw [mem_live_removeList hok ha]
  tauto

section

variable {L : Layout} {h : KHeap} {l r : List Block} {x y : Block} {e : Nat}

/-- A node that may be put on the free list leaves room for another one when it is taken off. -/
theorem removeTwo_currSize (hok : h.freeNodeList.Ok (HeapAddr L)) {a b : Nat}
    (ha : HeapAddr L a) (hb : HeapAddr L b) (hroom : RoomFor h a) :
    ((h.removeFree a).removeFree b).freeNodeList.currSize < h.freeNodeList.arrSize := by
  have hok' : (h.removeFree a).freeNodeList.Ok (HeapAddr L) := ok_removeList hok ha
  have h2 : ((h.removeFree a).removeFree b).freeNodeList.currSize ≤
      (h.removeFree a).freeNodeList.currSize := removeList_currSize_le hok' hb
  have h1 : (h.removeFree a).freeNodeList.currSize ≤ h.freeNodeList.currSize :=
    removeList_currSize_le hok ha
  rcases hroom with hroom | hmem
  · omega
  · have h1' : (h.removeFree a).freeNodeList.currSize + 1 = h.freeNodeList.currSize :=
      removeList_currSize_lt hok ha hmem
    have hle := hok.le
    have hpos := hok'.pos
    omega

theorem removeTwo_arrSize {a b : Nat} (hok : h.freeNodeList.Ok (HeapAddr L)) (ha : HeapAddr L a)
    (hb : HeapAddr L b) :
    ((h.removeFree a).removeFree b).freeNodeList.arrSize = h.freeNodeList.arrSize :=
  (removeList_arrSize (ok_removeList hok ha) hb).trans (removeList_arrSize hok ha)

/-- No other block has the address of one of two neighbours. -/
theorem freeAddrs_ne_pair {c : Nat} (ht : Tiles 16 L.heapBottom (l ++ [x, y] ++ r) e)
    (hc : c ∈ freeAddrs l ∨ c ∈ freeAddrs r) : c ≠ x.addr ∧ c ≠ y.addr := by
  have hpw := ht.pairwise
  rw [List.pairwise_append, List.pairwise_append] at hpw
  obtain ⟨⟨-, -, hlx⟩, -, hxr⟩ := hpw
  rcases hc with hc | hc
  · obtain ⟨d, hd, -, rfl⟩ := (mem_freeAddrs _ _).1 hc
    have h1 := hlx d hd x (by simp)
    have h2 := hlx d hd y (by simp)
    omega
  · obtain ⟨d, hd, -, rfl⟩ := (mem_freeAddrs _ _).1 hc
    have h1 := hxr x (by simp) d hd
    have h2 := hxr y (by simp) d hd
    omega

theorem sizes_merge (hsz : ∀ b ∈ l ++ [x, y] ++ r, b.size % 4 = 0) :
    ∀ b ∈ l ++ ⟨x.addr, x.size + y.size + 16, false⟩ :: r, b.size % 4 = 0 := by
  intro b hb
  have hxs := hsz x (by simp)
  have hys := hsz y (by simp)
  rcases List.mem_append.mp hb with hb | hb
  · exact hsz b (by simp [hb])
  · rcases List.mem_cons.mp hb with rfl | hb
    · show (x.size + y.size + 16) % 4 = 0
      omega
    · exact hsz b (by simp [hb])

/-- Free blocks can be replaced by others; the blocks in use are kept. -/
theorem used_replace {m : List Block} (hm : ∀ b ∈ m, b.used = false) (m' : List Block) :
    ∀ b ∈ l ++ m ++ r, b.used = true → b ∈ l ++ m' ++ r := by
  intro b hb hu
  simp only [List.mem_append] at hb ⊢
  rcases hb with (hb | hb) | hb
  · exact Or.inl (Or.inl hb)
  · rw [hm b hb] at hu
    cases hu
  · exact Or.inr hb

/-- The size of the merged block does not wrap. -/
theorem merged_size_lt (ht : Tiles 16 L.heapBottom (l ++ [x, y] ++ r) e) (hfits : e < W32) :
    x.size + y.size + 16 < W32 := by
  have hb := (ht.merge false).bounds (b := ⟨x.addr, x.size + y.size + 16, false⟩) (by simp)
  simp only at hb
  omega

/-- The node that is merged and its neighbour, in either order. -/
theorem heapAddr_pair {p q a b : Nat} (hp : HeapAddr L p) (hq : HeapAddr L q)
    (hab : (a = p ∧ b = q) ∨ (a = q ∧ b = p)) : HeapAddr L a ∧ HeapAddr L b := by
  rcases hab with ⟨rfl, rfl⟩ | ⟨rfl, rfl⟩
  · exact ⟨hp, hq⟩
  · exact ⟨hq, hp⟩

/-- **Merging two free neighbours.** `a` is the node that is being merged and `b` the neighbour it
is merged with, in either order; both are taken off the free list. -/
theorem merge_two (ht : Tiles 16 L.heapBottom (l ++ [x, y] ++ r) e)
    (hl : Links h.mem 0 (l ++ [x, y] ++ r) 0) (hsz : ∀ b ∈ l ++ [x, y] ++ r, b.size % 4 = 0)
    (hfits : e < W32) (hx : x.used = false) (hy : y.used = false) (hleft : NoAdjacentFree l)
    (hright : NoAdjacentFree r) (hok : h.freeNodeList.Ok (HeapAddr L))
    (hlist : ∀ a ∈ h.freeNodeList.live, a ∈ freeAddrs (l ++ [x, y] ++ r)) {a b : Nat}
    (hab : (a = x.addr ∧ b = y.addr) ∨ (a = y.addr ∧ b = x.addr)) {h' : KHeap}
    (hh' : h' = { (h.removeFree a).removeFree b with
      mem := putHeader (relink h.mem (lastAddr 0 l) (headAddr r 0) x.addr x.addr) x.addr false
        (headAddr r 0) (lastAddr 0 l) (x.size + y.size + 16) }) :
    Merging L h' l ⟨x.addr, x.size + y.size + 16, false⟩ r e ∧
      MergeStep h h' (l ++ [x, y] ++ r) (l ++ ⟨x.addr, x.size + y.size + 16, false⟩ :: r) a
        x.addr := by
  have hs : 0 < L.heapBottom := by have := L.heapBottom_pos; omega
  have hxb := ht.bounds (b := x) (by simp)
  have hyb := ht.bounds (b := y) (by simp)
  obtain ⟨haP, hbP⟩ := heapAddr_pair hxb.1 hyb.1 hab
  have hlive : ∀ c, c ∈ h'.freeNodeList.live ↔
      c ∈ h.freeNodeList.live ∧ c ≠ x.addr ∧ c ≠ y.addr := by
    intro c
    subst hh'
    rw [mem_live_removeTwo hok haP hbP]
    rcases hab with ⟨rfl, rfl⟩ | ⟨rfl, rfl⟩ <;> tauto
  have hmem : h'.mem = putHeader (relink h.mem (lastAddr 0 l) (headAddr r 0) x.addr x.addr) x.addr
      false (headAddr r 0) (lastAddr 0 l) (x.size + y.size + 16) := by rw [hh']
  have hold := mem_freeAddrs_pair (l := l) (r := r) hx hy
  have hnew := mem_freeAddrs_middle (l := l) (r := r)
    (x := ⟨x.addr, x.size + y.size + 16, false⟩) rfl
  constructor
  · refine ⟨ht.merge false, ?_, sizes_merge hsz, hfits, rfl, hleft, hright, ?_, ?_⟩
    · rw [hmem, List.append_cons]
      exact links_merge hs ht hl
    · subst hh'
      exact ok_removeList (ok_removeList hok haP) hbP
    · intro c hc
      obtain ⟨hc, hcx, hcy⟩ := (hlive c).1 hc
      rw [hnew]
      have := (hold c).1 (hlist c hc)
      tauto
  · have hfree : ∀ b ∈ [x, y], b.used = false := by simp [hx, hy]
    refine ⟨⟨?_, ?_, ?_, ?_⟩, ?_, ?_, ?_⟩
    · subst hh'; rfl
    · subst hh'
      exact removeTwo_arrSize hok haP hbP
    · rw [List.append_cons l ⟨x.addr, _, false⟩]
      exact used_replace hfree _
    · intro c hc _ d hd
      rw [hmem]
      exact merge_payload ht hc hd
    · subst hh'; rfl
    · intro hroom
      left
      subst hh'
      show _ < ((h.removeFree a).removeFree b).freeNodeList.arrSize
      rw [removeTwo_arrSize hok haP hbP]
      exact removeTwo_currSize hok haP hbP hroom
    · intro hbut c hc hcx
      have hc' := ((hnew c).1 hc).resolve_left hcx
      have hne := freeAddrs_ne_pair ht hc'
      refine (hlive c).2 ⟨hbut c ((hold c).2 (Or.inr (Or.inr hc'))) ?_, hne⟩
      rcases hab with ⟨rfl, -⟩ | ⟨rfl, -⟩
      · exact hne.1
      · exact hne.2

/-! ## The two steps of `heap_merge_nodes` -/

/-- The first of the blocks is in use, if there is one. -/
def HeadUsed (r : List Block) : Prop := ∀ y ∈ r.head?, y.used = true

/-- The last of the blocks is in use, if there is one. -/
def LastUsed (l : List Block) : Prop := ∀ z ∈ l.getLast?, z.used = true

theorem headUsed_of_free {y : Block} {r : List Block} (hn : NoAdjacentFree (y :: r))
    (hy : y.used = false) : HeadUsed r := by
  intro z hz
  have := (List.isChain_cons.1 hn).1 z hz
  rw [hy] at this
  exact this.resolve_left (by simp)

theorem lastUsed_of_free {z : Block} {l : List Block} (hn : NoAdjacentFree (l ++ [z]))
    (hz : z.used = false) : LastUsed l := by
  intro w hw
  have := (List.isChain_append.1 hn).2.2 w hw z (by simp)
  rw [hz] at this
  exact this.resolve_right (by simp)

/-- A free block between blocks in use. -/
theorem noAdjacentFree_middle (hl : NoAdjacentFree l) (hr : NoAdjacentFree r) (hlu : LastUsed l)
    (hru : HeadUsed r) : NoAdjacentFree (l ++ x :: r) := by
  refine List.isChain_append.2 ⟨hl, List.isChain_cons.2 ⟨?_, hr⟩, ?_⟩
  · intro y hy
    exact Or.inr (hru y hy)
  · intro z hz y _
    exact Or.inl (hlu z hz)

/-- The size of a merged node, when it does not wrap around. -/
theorem add32_header {m n : Nat} (hsum : m + n + 16 < W32) :
    add32 (add32 m n) HEADER_SIZE = m + n + 16 := by
  unfold HEADER_SIZE
  rw [add32_of_lt (a := m) (by omega), add32_of_lt hsum]

theorem mergeWithRight_of_used {a b : Nat} (hb : h.magic b = magicOf true) :
    h.mergeWithRight a b = (h, a) := by
  unfold mergeWithRight
  rw [if_neg]
  rintro ⟨-, hfree⟩
  rw [hb, magicOf_eq_free] at hfree
  cases hfree

theorem mergeWithLeft_of_used {a b m : Nat} (hb : h.magic b = magicOf true) :
    h.mergeWithLeft a b m = (h, m) := by
  unfold mergeWithLeft
  rw [if_neg]
  rintro ⟨-, hfree⟩
  rw [hb, magicOf_eq_free] at hfree
  cases hfree

/-- The stores of a merge of `x` with the free block `y` on its right. The size is the sum of the
sizes and a header, as the machine adds them. -/
theorem mergeWithRight_of_free (hl : Links h.mem 0 (l ++ x :: y :: r) 0) (hy0 : y.addr ≠ 0)
    (hy : y.used = false) :
    h.mergeWithRight x.addr y.addr =
      ({ (h.removeFree x.addr).removeFree y.addr with
          mem := putHeader (relink h.mem (lastAddr 0 l) (headAddr r 0) x.addr x.addr) x.addr false
            (headAddr r 0) (lastAddr 0 l) (add32 (add32 x.size y.size) HEADER_SIZE) }, x.addr) := by
  obtain ⟨-, hxn, hxp, hxs⟩ := hl.header
  have hl' : Links h.mem 0 ((l ++ [x]) ++ y :: r) 0 := by simpa using hl
  obtain ⟨hmagic, hyn, -, hys⟩ := hl'.header
  rw [hy] at hmagic
  unfold mergeWithRight
  rw [if_pos ⟨hy0, hmagic⟩, heapMergeRight_eq]
  simp only [nextPtr, prevPtr, size, removeFree_mem, headAddr_cons] at *
  rw [hxn, hxp, hxs, hyn, hys]

/-- The stores of a merge of `x` with the free block `z` on its left. -/
theorem mergeWithLeft_of_free {z : Block} {m : Nat} (hl : Links h.mem 0 (l ++ z :: x :: r) 0)
    (hz0 : z.addr ≠ 0) (hz : z.used = false) :
    h.mergeWithLeft x.addr z.addr m =
      ({ (h.removeFree x.addr).removeFree z.addr with
          mem := putHeader (relink h.mem (lastAddr 0 l) (headAddr r 0) z.addr z.addr) z.addr false
            (headAddr r 0) (lastAddr 0 l) (add32 (add32 x.size z.size) HEADER_SIZE) }, z.addr) := by
  obtain ⟨hmagic, -, hzp, hzs⟩ := hl.header
  have hl' : Links h.mem 0 ((l ++ [z]) ++ x :: r) 0 := by simpa using hl
  obtain ⟨-, hxn, hxp, hxs⟩ := hl'.header
  have hlast := lastAddr_concat 0 l z
  rw [hz] at hmagic
  unfold mergeWithLeft
  rw [if_pos ⟨hz0, hmagic⟩, heapMergeLeft_eq]
  simp only [nextPtr, prevPtr, size, removeFree_mem] at *
  rw [hlast] at hxp
  rw [hxn, hxp, hxs, hzp, hzs]

theorem Merging.addr_bounds (hm : Merging L h l x r e) :
    L.heapBottom ≤ x.addr ∧ x.addr + 16 + x.size ≤ e := hm.tiles.bounds (by simp)

theorem mergeWithRight_spec (hm : Merging L h l x r e) :
    ∃ h', h.mergeWithRight x.addr (headAddr r 0) = (h', x.addr) ∧
      Merging L h' l (absorbRight x r).1 (absorbRight x r).2 e ∧
      MergeStep h h' (l ++ x :: r) (l ++ (absorbRight x r).1 :: (absorbRight x r).2) x.addr x.addr ∧
      (absorbRight x r).1.addr = x.addr ∧ HeadUsed (absorbRight x r).2 := by
  cases r with
  | nil =>
      refine ⟨h, ?_, hm, MergeStep.refl _ _ _, rfl, fun y hy => absurd hy (by simp [absorbRight])⟩
      simp [mergeWithRight]
  | cons y r =>
      have hmagic : h.magic y.addr = magicOf y.used := (hm.links.magic_size (by simp)).1
      by_cases hy : y.used = true
      · -- the neighbour is in use: nothing happens
        have habs : absorbRight x (y :: r) = (x, y :: r) := by simp [absorbRight, hy]
        rw [habs]
        rw [hy] at hmagic
        refine ⟨h, mergeWithRight_of_used hmagic, hm, MergeStep.refl _ _ _, rfl, fun z hz => ?_⟩
        · simp only [List.head?_cons, Option.mem_def, Option.some.injEq] at hz
          rw [← hz]
          exact hy
      · have hy : y.used = false := by simpa using hy
        have habs : absorbRight x (y :: r) = (⟨x.addr, x.size + y.size + 16, false⟩, r) := by
          simp [absorbRight, hy]
        rw [habs]
        have ht : Tiles 16 L.heapBottom (l ++ [x, y] ++ r) e := by simpa using hm.tiles
        have hl : Links h.mem 0 (l ++ [x, y] ++ r) 0 := by simpa using hm.links
        have hyb := ht.bounds (b := y) (by simp)
        have hpos := L.heapBottom_pos
        have hsum := merged_size_lt ht hm.fits
        obtain ⟨hm', hs'⟩ := merge_two ht hl (by simpa using hm.sizes) hm.fits hm.free hy hm.left
          (List.isChain_cons.1 hm.right).2 hm.list (by simpa using hm.listed)
          (Or.inl ⟨rfl, rfl⟩) rfl
        refine ⟨_, ?_, hm', by simpa using hs', rfl, headUsed_of_free hm.right hy⟩
        rw [headAddr_cons, mergeWithRight_of_free hm.links (by omega) hy, add32_header hsum]

theorem mergeWithLeft_spec (hm : Merging L h l x r e) :
    ∃ h', h.mergeWithLeft x.addr (lastAddr 0 l) x.addr = (h', (absorbLeft l x).2.addr) ∧
      Merging L h' (absorbLeft l x).1 (absorbLeft l x).2 r e ∧
      MergeStep h h' (l ++ x :: r) ((absorbLeft l x).1 ++ (absorbLeft l x).2 :: r) x.addr
        (absorbLeft l x).2.addr ∧
      LastUsed (absorbLeft l x).1 := by
  rcases List.eq_nil_or_concat l with rfl | ⟨l, z, rfl⟩
  · refine ⟨h, ?_, hm, MergeStep.refl _ _ _, fun y hy => absurd hy (by simp [absorbLeft])⟩
    simp [mergeWithLeft, absorbLeft]
  · simp only [List.concat_eq_append] at hm ⊢
    have hlast := lastAddr_concat 0 l z
    have hmagic : h.magic z.addr = magicOf z.used := (hm.links.magic_size (by simp)).1
    rw [absorbLeft_concat, hlast]
    by_cases hz : z.used = true
    · rw [if_pos hz]
      rw [hz] at hmagic
      refine ⟨h, mergeWithLeft_of_used hmagic, hm, MergeStep.refl _ _ _, fun y hy => ?_⟩
      · simp only [List.getLast?_append, List.getLast?_singleton, Option.some_or, Option.mem_def,
          Option.some.injEq] at hy
        rw [← hy]
        exact hz
    · rw [if_neg hz]
      have hz : z.used = false := by simpa using hz
      have ht : Tiles 16 L.heapBottom (l ++ [z, x] ++ r) e := by simpa using hm.tiles
      have hl : Links h.mem 0 (l ++ [z, x] ++ r) 0 := by simpa using hm.links
      have hl' : Links h.mem 0 (l ++ z :: x :: r) 0 := by simpa using hm.links
      have hzb := ht.bounds (b := z) (by simp)
      have hpos := L.heapBottom_pos
      have hcomm : x.size + z.size + 16 = z.size + x.size + 16 := by omega
      have hsum : x.size + z.size + 16 < W32 := by
        rw [hcomm]
        exact merged_size_lt ht hm.fits
      obtain ⟨hm', hs'⟩ := merge_two ht hl (by simpa using hm.sizes) hm.fits hz hm.free
        (List.isChain_append.1 hm.left).1 hm.right hm.list (by simpa using hm.listed)
        (Or.inr ⟨rfl, rfl⟩) rfl
      rw [hcomm]
      refine ⟨_, ?_, hm', by simpa using hs', lastUsed_of_free hm.left hz⟩
      rw [mergeWithLeft_of_free hl' (by omega) hz, add32_header hsum, hcomm]

/-! ## `heap_merge_nodes` -/

/-- A merge only takes nodes off the free list. -/
theorem live_mergeWithRight (hok : h.freeNodeList.Ok (HeapAddr L)) {a b c : Nat}
    (ha : HeapAddr L a) (hb : b ≠ 0 → HeapAddr L b)
    (hc : c ∈ (h.mergeWithRight a b).1.freeNodeList.live) : c ∈ h.freeNodeList.live := by
  unfold mergeWithRight at hc
  split_ifs at hc with hfree
  · rw [heapMergeRight_eq] at hc
    exact ((mem_live_removeTwo hok ha (hb hfree.1) c).1 hc).1
  · exact hc

theorem live_mergeWithLeft (hok : h.freeNodeList.Ok (HeapAddr L)) {a b m c : Nat}
    (ha : HeapAddr L a) (hb : b ≠ 0 → HeapAddr L b)
    (hc : c ∈ (h.mergeWithLeft a b m).1.freeNodeList.live) : c ∈ h.freeNodeList.live := by
  unfold mergeWithLeft at hc
  split_ifs at hc with hfree
  · rw [heapMergeLeft_eq] at hc
    exact ((mem_live_removeTwo hok ha (hb hfree.1) c).1 hc).1
  · exact hc

/-- The node that `heap_merge_nodes` puts on the free list. -/
def mergedNode (l : List Block) (x : Block) (r : List Block) : Nat :=
  (absorbLeft l (absorbRight x r).1).2.addr

/-- The two merges, and the insertion of the merged node. -/
theorem heapMergeNodes_eq (hm : Merging L h l x r e) :
    ∃ h', h.heapMergeNodes x.addr = .ok (h'.insertFree (mergedNode l x r)) ∧
      Merging L h' (absorbLeft l (absorbRight x r).1).1 (absorbLeft l (absorbRight x r).1).2
        (absorbRight x r).2 e ∧
      MergeStep h h' (l ++ x :: r) (coalesce l x r) x.addr (mergedNode l x r) ∧
      NoAdjacentFree (coalesce l x r) ∧ ∀ c ∈ h'.freeNodeList.live, c ∈ h.freeNodeList.live := by
  obtain ⟨-, hxn, hxp, -⟩ := hm.links.header
  obtain ⟨h1, he1, hm1, hs1, ha1, hhead⟩ := mergeWithRight_spec hm
  obtain ⟨h2, he2, hm2, hs2, hlast⟩ := mergeWithLeft_spec hm1
  rw [ha1] at he2 hs2
  have hmem : h.magic x.addr = MAGIC_FREE := by
    have := (hm.links.magic_size (b := x) (by simp)).1
    rw [hm.free] at this
    exact this
  refine ⟨h2, ?_, hm2, hs1.trans hs2, noAdjacentFree_middle hm2.left hm2.right hlast hhead, ?_⟩
  · have hcheck : h.checkHeader x.addr = true := by simp [checkHeader, hmem]
    unfold heapMergeNodes
    rw [if_pos hcheck]
    simp only [nextPtr, prevPtr, hxn, hxp]
    rw [he1]
    simp only
    rw [he2]
    rfl
  · intro c hc
    have haddr : HeapAddr L x.addr := hm.addr_bounds.1
    have hright : headAddr r 0 ≠ 0 → HeapAddr L (headAddr r 0) := by
      cases r with
      | nil => exact fun h0 => absurd rfl h0
      | cons y r => exact fun _ => (hm.tiles.bounds (b := y) (by simp)).1
    have hleft : lastAddr 0 l ≠ 0 → HeapAddr L (lastAddr 0 l) := by
      intro h0
      have hne : l ≠ [] := by
        rintro rfl
        exact h0 rfl
      obtain ⟨b, hb, hba⟩ := mem_lastAddr hne 0
      rw [← hba]
      exact (hm.tiles.bounds (b := b) (by simp [hb])).1
    refine live_mergeWithRight hm.list haddr hright ?_
    rw [he1]
    refine live_mergeWithLeft hm1.list haddr hleft (m := x.addr) ?_
    rw [he2]
    exact hc

/-- What is on the free list after a merge: the merged node, if there is room for it, and nothing
that was not there before. -/
theorem heapMergeNodes_live (hm : Merging L h l x r e) {h' : KHeap}
    (hok : h.heapMergeNodes x.addr = .ok h') :
    (RoomFor h x.addr → mergedNode l x r ∈ h'.freeNodeList.live) ∧
      ∀ c ∈ h'.freeNodeList.live, c = mergedNode l x r ∨ c ∈ h.freeNodeList.live := by
  obtain ⟨h2, he, hm2, hstep, -, hsub⟩ := heapMergeNodes_eq hm
  rw [he] at hok
  cases hok
  have hP : HeapAddr L (mergedNode l x r) := hm2.addr_bounds.1
  constructor
  · intro hroom
    exact (mem_live_insertList hm2.list hP (hstep.room hroom) _).2 (Or.inl rfl)
  · intro c hc
    exact (mem_live_insertList_imp hm2.list hP hc).imp_right (hsub c)

/-- **`heap_merge_nodes` computes `coalesce`.** The node it is called for may or may not be on the
free list; if there is room for it, all free blocks are listed afterwards. -/
theorem heapMergeNodes_spec (hm : Merging L h l x r e) :
    ∃ h', h.heapMergeNodes x.addr = .ok h' ∧
      Tiles 16 L.heapBottom (coalesce l x r) e ∧ Links h'.mem 0 (coalesce l x r) 0 ∧
      (∀ b ∈ coalesce l x r, b.size % 4 = 0) ∧ NoAdjacentFree (coalesce l x r) ∧
      h'.freeNodeList.Ok (HeapAddr L) ∧
      (∀ a ∈ h'.freeNodeList.live, a ∈ freeAddrs (coalesce l x r)) ∧
      Kept h h' (l ++ x :: r) (coalesce l x r) ∧ h'.heapListEndPtr = h.heapListEndPtr ∧
      (RoomFor h x.addr → ListedBut h (l ++ x :: r) x.addr →
        ∀ a ∈ freeAddrs (coalesce l x r), a ∈ h'.freeNodeList.live) := by
  obtain ⟨h2, he, hm2, hstep, hco, -⟩ := heapMergeNodes_eq hm
  have hP : HeapAddr L (mergedNode l x r) := hm2.addr_bounds.1
  refine ⟨_, he, hm2.tiles, ?_, hm2.sizes, hco, ok_insertList hm2.list hP, ?_, ?_, hstep.endPtr, ?_⟩
  · rw [insertFree_mem]; exact hm2.links
  · intro a ha
    rcases mem_live_insertList_imp hm2.list hP ha with rfl | ha
    · exact (mem_freeAddrs_middle hm2.free _).2 (Or.inl rfl)
    · exact hm2.listed a ha
  · refine ⟨hstep.kept.top, ?_, hstep.kept.used, ?_⟩
    · exact (insertList_arrSize _ _).trans hstep.kept.arrSize
    · rw [insertFree_mem]; exact hstep.kept.payload
  · intro hroom hbut a ha
    have hins := mem_live_insertList hm2.list hP (hstep.room hroom)
    refine (hins a).2 ?_
    by_cases haddr : a = mergedNode l x r
    · exact Or.inl haddr
    · exact Or.inr (hstep.listed hbut a ha haddr)

end

end KHeap

end NowOS
