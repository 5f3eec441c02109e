import NowOS.Lib.Blocks
import NowOS.Kheap.Basic

set_option autoImplicit false

/-! # The node chain in memory

A list of blocks is the abstract view of the heap; `Links` says that memory holds it: every
block has a header with its magic word, its size and the addresses of its two neighbours. The
routines of the heap replace a few neighbouring blocks by others in the same range. In memory
that is two stores to the headers next to the range (`relink`) and stores inside the range, and
`Links.replace` is the rule for it. -/

namespace NowOS

namespace KHeap

/-! ## Headers -/

/-- The header of block `b` in memory, with its neighbours at `prev` and `next`. -/
def Header (mem : Nat → Nat) (b : Block) (prev next : Nat) : Prop :=
  mem b.addr = magicOf b.used ∧ mem (b.addr + 4) = next ∧ mem (b.addr + 8) = prev ∧
    mem (b.addr + 12) = b.size

instance (mem : Nat → Nat) (b : Block) (prev next : Nat) : Decidable (Header mem b prev next) :=
  inferInstanceAs (Decidable (_ ∧ _))

theorem putHeader_of_ne (mem : Nat → Nat) {addr a : Nat} (used : Bool) (next prev size : Nat)
    (h0 : a ≠ addr) (h4 : a ≠ addr + 4) (h8 : a ≠ addr + 8) (h12 : a ≠ addr + 12) :
    putHeader mem addr used next prev size a = mem a := by
  unfold putHeader
  rw [Function.update_of_ne h12, Function.update_of_ne h8, Function.update_of_ne h4,
    Function.update_of_ne h0]

/-- A header is read back as it was written. -/
theorem header_putHeader (mem : Nat → Nat) (b : Block) (prev next : Nat) :
    Header (putHeader mem b.addr b.used next prev b.size) b prev next := by
  unfold Header putHeader
  simp

theorem Header.congr {mem mem' : Nat → Nat} {b : Block} {prev next : Nat}
    (hh : Header mem b prev next)
    (heq : ∀ a, b.addr ≤ a → a < b.addr + 16 → mem' a = mem a) : Header mem' b prev next := by
  obtain ⟨h0, h4, h8, h12⟩ := hh
  refine ⟨?_, ?_, ?_, ?_⟩
  · rw [heq _ (by omega) (by omega), h0]
  · rw [heq _ (by omega) (by omega), h4]
  · rw [heq _ (by omega) (by omega), h8]
  · rw [heq _ (by omega) (by omega), h12]

theorem magicOf_eq_free (used : Bool) : magicOf used = MAGIC_FREE ↔ used = false := by
  cases used <;> decide

/-! ## Links -/

/-- Memory holds the blocks as a doubly linked chain between the nodes `prev` and `next`. -/
def Links (mem : Nat → Nat) : Nat → List Block → Nat → Prop
  | _, [], _ => True
  | prev, b :: bs, next => Header mem b prev (headAddr bs next) ∧ Links mem b.addr bs next

@[simp] theorem links_nil (mem : Nat → Nat) (prev next : Nat) : Links mem prev [] next := trivial

@[simp] theorem links_cons (mem : Nat → Nat) (prev next : Nat) (b : Block) (bs : List Block) :
    Links mem prev (b :: bs) next ↔
      Header mem b prev (headAddr bs next) ∧ Links mem b.addr bs next := Iff.rfl

instance Links.decide (mem : Nat → Nat) :
    (prev : Nat) → (bs : List Block) → (next : Nat) → Decidable (Links mem prev bs next)
  | _, [], _ => inferInstanceAs (Decidable True)
  | prev, b :: bs, next =>
      have := Links.decide mem b.addr bs next
      inferInstanceAs (Decidable (Header mem b prev (headAddr bs next) ∧ Links mem b.addr bs next))

/-- Links of a concatenation: both halves, each linked to the end of the other. -/
theorem links_append (mem : Nat → Nat) (xs ys : List Block) (prev next : Nat) :
    Links mem prev (xs ++ ys) next ↔
      Links mem prev xs (headAddr ys next) ∧ Links mem (lastAddr prev xs) ys next := by
  induction xs generalizing prev with
  | nil => simp
  | cons b bs ih =>
      simp only [List.cons_append, links_cons, headAddr_append, lastAddr_cons, ih]
      tauto

/-- Links only read the headers of their blocks. -/
theorem Links.congr {mem mem' : Nat → Nat} {bs : List Block} {prev next : Nat}
    (hl : Links mem prev bs next)
    (heq : ∀ b ∈ bs, ∀ a, b.addr ≤ a → a < b.addr + 16 → mem' a = mem a) :
    Links mem' prev bs next := by
  induction bs generalizing prev with
  | nil => trivial
  | cons b bs ih =>
      obtain ⟨hh, hl⟩ := hl
      refine ⟨hh.congr (heq b (by simp)), ih hl ?_⟩
      intro c hc
      exact heq c (List.mem_cons_of_mem b hc)

/-- The header of a block in the chain. -/
theorem Links.header {mem : Nat → Nat} {l r : List Block} {b : Block} {prev next : Nat}
    (hl : Links mem prev (l ++ b :: r) next) :
    Header mem b (lastAddr prev l) (headAddr r next) :=
  ((links_append mem l (b :: r) prev next).1 hl).2.1

theorem Links.magic_size {mem : Nat → Nat} {bs : List Block} {b : Block} {prev next : Nat}
    (hl : Links mem prev bs next) (hb : b ∈ bs) :
    mem b.addr = magicOf b.used ∧ mem (b.addr + 12) = b.size := by
  obtain ⟨l, r, rfl⟩ := List.append_of_mem hb
  obtain ⟨h0, -, -, h12⟩ := hl.header
  exact ⟨h0, h12⟩

/-- **The chain**: memory holds the blocks `bs`, which tile the heap from `heap_bottom` to `e`. -/
structure Chain (L : Layout) (h : KHeap) (bs : List Block) (e : Nat) : Prop where
  ne : bs ≠ []
  tiles : Tiles 16 L.heapBottom bs e
  links : Links h.mem 0 bs 0
  fits : e < W32

instance (L : Layout) (h : KHeap) (bs : List Block) (e : Nat) : Decidable (Chain L h bs e) :=
  decidable_of_iff (bs ≠ [] ∧ Tiles 16 L.heapBottom bs e ∧ Links h.mem 0 bs 0 ∧ e < W32)
    ⟨fun ⟨h1, h2, h3, h4⟩ => ⟨h1, h2, h3, h4⟩, fun hc => ⟨hc.ne, hc.tiles, hc.links, hc.fits⟩⟩

theorem zero_lt_heapBottom (L : Layout) : 0 < L.heapBottom := by
  have := L.heapBottom_pos
  omega

section

variable {L : Layout} {h : KHeap} {bs : List Block} {x : Block} {e : Nat}

theorem Chain.addr_pos (hc : Chain L h bs e) (hx : x ∈ bs) : 0 < x.addr := by
  have h1 := (hc.tiles.bounds hx).1
  have h2 := zero_lt_heapBottom L
  omega

theorem Chain.checkHeader (hc : Chain L h bs e) (hx : x ∈ bs) : h.checkHeader x.addr = true := by
  have hm : h.magic x.addr = magicOf x.used := (hc.links.magic_size hx).1
  unfold KHeap.checkHeader
  rw [hm]
  cases x.used <;> decide

end

/-! ## Relinking a range -/

/-- The stores that make the node `next` point back to `q`, and the node `prev` point forward to
`a`, each only if the node is not `NULL`. -/
def relink (mem : Nat → Nat) (prev next a q : Nat) : Nat → Nat :=
  let mem := if next ≠ 0 then Function.update mem (next + 8) q else mem
  if prev ≠ 0 then Function.update mem (prev + 4) a else mem

theorem relink_of_ne (mem : Nat → Nat) {prev next a q x : Nat}
    (hp : prev ≠ 0 → x ≠ prev + 4) (hn : next ≠ 0 → x ≠ next + 8) :
    relink mem prev next a q x = mem x := by
  unfold relink
  by_cases h1 : prev = 0
  · by_cases h2 : next = 0
    · simp [h1, h2]
    · simp [h1, h2, Function.update_of_ne (hn h2)]
  · by_cases h2 : next = 0
    · simp [h1, h2, Function.update_of_ne (hp h1)]
    · simp [h1, h2, Function.update_of_ne (hp h1), Function.update_of_ne (hn h2)]

theorem relink_prev (mem : Nat → Nat) {prev : Nat} (next a q : Nat) (hp : prev ≠ 0) :
    relink mem prev next a q (prev + 4) = a := by
  unfold relink
  rw [if_pos hp, Function.update_self]

theorem relink_next (mem : Nat → Nat) {prev next : Nat} (a q : Nat) (hn : next ≠ 0)
    (hne : prev ≠ 0 → next + 8 ≠ prev + 4) : relink mem prev next a q (next + 8) = q := by
  unfold relink
  by_cases hp : prev = 0
  · simp [hp, hn]
  · simp [hp, hn, Function.update_of_ne (hne hp)]

/-- The address of the last of some blocks that tile a range lies in the range. -/
theorem lastAddr_mem {bs : List Block} {a e : Nat} (prev : Nat) (ht : Tiles 16 a bs e)
    (hne : bs ≠ []) :
    a ≤ lastAddr prev bs ∧ lastAddr prev bs + 16 ≤ e := by
  induction bs generalizing a prev with
  | nil => exact absurd rfl hne
  | cons b bs ih =>
      obtain ⟨hb, ht⟩ := ht
      have hle := ht.le
      cases bs with
      | nil => simp only [lastAddr_cons, lastAddr_nil]; omega
      | cons c cs =>
          have := ih b.addr ht (by simp)
          rw [lastAddr_cons]
          omega

theorem headAddr_mem {bs : List Block} {a e : Nat} (next : Nat) (ht : Tiles 16 a bs e)
    (hne : bs ≠ []) :
    headAddr bs next = a ∧ a + 16 ≤ e := by
  cases bs with
  | nil => exact absurd rfl hne
  | cons b bs =>
      obtain ⟨hb, ht⟩ := ht
      have := ht.le
      exact ⟨hb, by omega⟩

/-- A store to the `next_ptr` of the last block relinks the chain on its right. -/
theorem Links.setNext {mem mem' : Nat → Nat} {l : List Block} {a e prev next x : Nat}
    (ht : Tiles 16 a l e) (hl : Links mem prev l next)
    (hx : l ≠ [] → mem' (lastAddr prev l + 4) = x)
    (heq : ∀ y, a ≤ y → y < e → (l ≠ [] → y ≠ lastAddr prev l + 4) → mem' y = mem y) :
    Links mem' prev l x := by
  induction l generalizing a prev with
  | nil => trivial
  | cons b bs ih =>
      obtain ⟨hb, ht⟩ := ht
      obtain ⟨⟨h0, h4, h8, h12⟩, hl⟩ := hl
      have hle := ht.le
      cases bs with
      | nil =>
          simp only [lastAddr_cons, lastAddr_nil] at hx heq
          refine ⟨⟨?_, hx (by simp), ?_, ?_⟩, trivial⟩
          · rw [heq _ (by omega) (by omega) (fun _ => by omega), h0]
          · rw [heq _ (by omega) (by omega) (fun _ => by omega), h8]
          · rw [heq _ (by omega) (by omega) (fun _ => by omega), h12]
      | cons c cs =>
          have hlast := lastAddr_mem b.addr ht (by simp)
          rw [lastAddr_cons] at hx heq
          refine ⟨?_, ih ht hl (fun _ => hx (by simp)) ?_⟩
          · refine Header.congr ⟨h0, h4, h8, h12⟩ fun y hy hy' => ?_
            exact heq y (by omega) (by omega) (fun _ => by omega)
          · intro y hy hy' hne
            exact heq y (by omega) hy' (fun _ => hne (by simp))

/-- A store to the `prev_ptr` of the first block relinks the chain on its left. -/
theorem Links.setPrev {mem mem' : Nat → Nat} {r : List Block} {a e prev next q : Nat}
    (ht : Tiles 16 a r e) (hl : Links mem prev r next) (hq : r ≠ [] → mem' (a + 8) = q)
    (heq : ∀ y, a ≤ y → y < e → y ≠ a + 8 → mem' y = mem y) : Links mem' q r next := by
  cases r with
  | nil => trivial
  | cons b bs =>
      obtain ⟨hb, ht⟩ := ht
      obtain ⟨⟨h0, h4, h8, h12⟩, hl⟩ := hl
      have hle := ht.le
      refine ⟨⟨?_, ?_, ?_, ?_⟩, hl.congr ?_⟩
      · rw [heq _ (by omega) (by omega) (by omega), h0]
      · rw [heq _ (by omega) (by omega) (by omega), h4]
      · rw [hb]; exact hq (by simp)
      · rw [heq _ (by omega) (by omega) (by omega), h12]
      · intro c hc y hy hy'
        have := ht.bounds hc
        exact heq y (by omega) (by omega) (by omega)

/-- **Replacing neighbouring blocks.** The blocks `mid` between `l` and `r` are replaced by
`mid'`, which tile the same range. It is enough that memory is relinked outside the range and
holds the links of `mid'`. -/
theorem Links.replace {mem mem' : Nat → Nat} {l mid mid' r : List Block} {s b c e : Nat}
    (hs : 0 < s) (htl : Tiles 16 s l b) (htm : Tiles 16 b mid' c) (htr : Tiles 16 c r e)
    (hne : mid' ≠ []) (hl : Links mem 0 (l ++ mid ++ r) 0)
    (heq : ∀ x, x < b ∨ c ≤ x →
      mem' x = relink mem (lastAddr 0 l) (headAddr r 0) b (lastAddr 0 mid') x)
    (hmid : Links mem' (lastAddr 0 l) mid' (headAddr r 0)) :
    Links mem' 0 (l ++ mid' ++ r) 0 := by
  have hbc := (headAddr_mem 0 htm hne).2
  have hlb := htl.le
  have hce := htr.le
  rw [links_append, links_append] at hl ⊢
  have hlast : lastAddr 0 (l ++ mid') = lastAddr 0 mid' := by
    rw [lastAddr_append]
    cases mid' with
    | nil => exact absurd rfl hne
    | cons d ds => rfl
  have hhead : headAddr (mid') (headAddr r 0) = b := (headAddr_mem _ htm hne).1
  -- an address of `l` or `r` is only written by the store of `relink` to that side
  have hright : r ≠ [] → headAddr r 0 = c := fun hr => (headAddr_mem 0 htr hr).1
  have hleft : l ≠ [] → s ≤ lastAddr 0 l ∧ lastAddr 0 l + 16 ≤ b := fun h => lastAddr_mem 0 htl h
  have hr0 : headAddr r 0 ≠ 0 → r ≠ [] := by
    rintro h rfl
    exact h rfl
  have hl0 : lastAddr 0 l ≠ 0 → l ≠ [] := by
    rintro h rfl
    exact h rfl
  refine ⟨⟨?_, hmid⟩, ?_⟩
  · rw [hhead]
    refine hl.1.1.setNext htl ?_ ?_
    · intro hlne
      have := hleft hlne
      rw [heq _ (Or.inl (by omega)), relink_prev _ _ _ _ (by omega)]
    · intro y hy hyb hne'
      rw [heq y (Or.inl hyb)]
      refine relink_of_ne mem (fun h => hne' (hl0 h)) (fun h => ?_)
      have := hright (hr0 h)
      omega
  · rw [hlast]
    refine hl.2.setPrev htr ?_ ?_
    · intro hrne
      have hc := hright hrne
      rw [heq _ (Or.inr (by omega)), hc]
      refine relink_next mem b _ (by omega) fun h0 => ?_
      have := hleft (hl0 h0)
      omega
    · intro y hy hye hne'
      rw [heq y (Or.inr hy)]
      refine relink_of_ne mem (fun h => ?_) (fun h => ?_)
      · have := hleft (hl0 h)
        omega
      · have := hright (hr0 h)
        omega

end KHeap

end NowOS
