import NowOS.Kdef
import NowOS.Lib.Copy
import NowOS.Lib.Lex
import Mathlib.Data.UInt
import Mathlib.Tactic

set_option autoImplicit false

/-! # Memory and strings (`klib/string.c`)

`memmove` copies a region of memory onto another one, from below or from above, so that it does not
overwrite what it has still to copy (`memmove_correct`).

A pointer to a string is the function that reads the bytes from it on. `strcmp` looks for the ends
of both strings and compares as many bytes as the shorter one has, with its terminator; `strncmp`
walks along both of them. Both compute the lexicographic order of the bytes (`strcmp_eq`,
`sign_strncmp`). -/

namespace NowOS

/-! ## The functions of the source -/

/-- `dst[i] = src[i]` -/
def copyByte (dst src i : Nat) (mem : Nat → UInt8) : Nat → UInt8 :=
  Function.update mem (add32 dst i) (mem (add32 src i))

/-- `n` turns of the loop of `memmove` for `dst < src`. -/
def copyUp (dst src : Nat) (mem : Nat → UInt8) : Nat → Nat → UInt8
  | 0 => mem
  | n + 1 => copyByte dst src n (copyUp dst src mem n)

/-- The other loop of `memmove`, from `i` down to `1`. -/
def copyDown (dst src : Nat) : (i : Nat) → (Nat → UInt8) → Nat → UInt8
  | 0, mem => mem
  | i + 1, mem => copyDown dst src i (copyByte dst src i mem)

/-- `memmove`: the memory afterwards, and the pointer that is returned. -/
def memmove (dstptr srcptr size : Nat) (mem : Nat → UInt8) : (Nat → UInt8) × Nat :=
  (if dstptr < srcptr then copyUp dstptr srcptr mem size else copyDown dstptr srcptr size mem,
    dstptr)

/-- The loop of `memcmp` from `i` on, with `rest` turns left. -/
def memcmpLoop (a b : Nat → UInt8) : (rest i : Nat) → Int
  | 0, _ => 0
  | rest + 1, i => if a i < b i then -1 else if b i < a i then 1 else memcmpLoop a b rest (i + 1)

def memcmp (aptr bptr : Nat → UInt8) (size : Nat) : Int := memcmpLoop aptr bptr size 0

/-- `strlen` from `len` on; `none` if it has not come to the end yet. -/
def strlen (str : Nat → UInt8) : (fuel len : Nat) → Option Nat
  | 0, _ => none
  | fuel + 1, len => if str len ≠ 0 then strlen str fuel (add32 len 1) else some len

def strcmp (fuel : Nat) (str1 str2 : Nat → UInt8) : Option Int :=
  (strlen str1 fuel 0).bind fun len1 => (strlen str2 fuel 0).map fun len2 =>
    memcmp str1 str2 (add32 (if len1 < len2 then len1 else len2) 1)

/-- `strncmp`: the difference of the first bytes that are not the same, or `0` if there are none
before the end of a string and among the first `n`. -/
def strncmp : (Nat → UInt8) → (Nat → UInt8) → Nat → Int
  | _, _, 0 => 0
  | str1, str2, n + 1 =>
      if str1 0 ≠ str2 0 then (str1 0).toNat - (str2 0).toNat
      else if str1 0 = 0 then 0
      else strncmp (fun i => str1 (i + 1)) (fun i => str2 (i + 1)) n

/-! ## The bytes that are read -/

def memcmpReads (a b : Nat → UInt8) : (rest i : Nat) → List Nat
  | 0, _ => []
  | rest + 1, i =>
      i :: if a i < b i then [] else if b i < a i then [] else memcmpReads a b rest (i + 1)

def strlenReads (str : Nat → UInt8) : (fuel len : Nat) → List Nat
  | 0, _ => []
  | fuel + 1, len => len :: if str len ≠ 0 then strlenReads str fuel (add32 len 1) else []

/-- The indices of the bytes of both strings that `strcmp` reads. -/
def strcmpReads (fuel : Nat) (str1 str2 : Nat → UInt8) : List Nat × List Nat :=
  match strlen str1 fuel 0 with
  | none => (strlenReads str1 fuel 0, [])
  | some len1 =>
      match strlen str2 fuel 0 with
      | none => (strlenReads str1 fuel 0, strlenReads str2 fuel 0)
      | some len2 =>
          let compared := memcmpReads str1 str2 (add32 (if len1 < len2 then len1 else len2) 1) 0
          (strlenReads str1 fuel 0 ++ compared, strlenReads str2 fuel 0 ++ compared)

/-! ## Moving memory -/

theorem copyByte_eq {dst src i : Nat} (hdst : dst + i < W32) (hsrc : src + i < W32)
    (mem : Nat → UInt8) :
    copyByte dst src i mem = Function.update mem (dst + i) (mem (src + i)) := by
  rw [copyByte, add32_of_lt hdst, add32_of_lt hsrc]

theorem copied_copyUp {dst src n : Nat} (hlt : dst < src) (hdst : dst + n ≤ W32)
    (hsrc : src + n ≤ W32) (mem : Nat → UInt8) : Copied mem dst src 0 n (copyUp dst src mem n) := by
  induction n with
  | zero => exact copied_refl mem dst src 0
  | succ n ih =>
      have h := ih (by omega) (by omega)
      rw [copyUp, copyByte_eq (by omega) (by omega)]
      exact h.up (Nat.zero_le n) (h.read_up hlt)

/-- The bytes from `i` on are copied already, and those below it by the rest of the loop. -/
theorem copied_copyDown {dst src size i : Nat} (hle : src ≤ dst) (hi : i ≤ size)
    (hdst : dst + size ≤ W32) (hsrc : src + size ≤ W32) {mem₀ mem : Nat → UInt8}
    (h : Copied mem₀ dst src i size mem) :
    Copied mem₀ dst src 0 size (copyDown dst src i mem) := by
  induction i generalizing mem with
  | zero => exact h
  | succ i ih =>
      rw [copyDown, copyByte_eq (by omega) (by omega)]
      exact ih (by omega) (h.down (by omega) (h.read_down hle))

/-- **`memmove`** for any overlap of the regions: the destination holds what the source held, and
nothing else has changed. -/
theorem memmove_correct (mem : Nat → UInt8) {dst src size : Nat} (hdst : dst + size ≤ W32)
    (hsrc : src + size ≤ W32) :
    (∀ i, i < size → (memmove dst src size mem).1 (dst + i) = mem (src + i)) ∧
      (∀ a, ¬ (dst ≤ a ∧ a < dst + size) → (memmove dst src size mem).1 a = mem a) ∧
      (memmove dst src size mem).2 = dst := by
  have h : Copied mem dst src 0 size (memmove dst src size mem).1 := by
    rw [memmove]
    by_cases hlt : dst < src
    · rw [if_pos hlt]
      exact copied_copyUp hlt hdst hsrc mem
    · rw [if_neg hlt]
      exact copied_copyDown (Nat.le_of_not_lt hlt) (Nat.le_refl size) hdst hsrc
        (copied_refl mem dst src size)
  exact ⟨fun i => h.inside i (Nat.zero_le i), fun a ha => h.outside a (by omega), rfl⟩

/-- Four bytes moved up by two, and down by one. -/
theorem memmove_overlap :
    (∀ i, i < 4 → (memmove 12 10 4 UInt8.ofNat).1 (12 + i) = UInt8.ofNat (10 + i)) ∧
      ∀ i, i < 4 → (memmove 9 10 4 UInt8.ofNat).1 (9 + i) = UInt8.ofNat (10 + i) :=
  ⟨(memmove_correct UInt8.ofNat (by decide) (by decide)).1,
    (memmove_correct UInt8.ofNat (by decide) (by decide)).1⟩

/-! ## Strings -/

/-- A string that ends at the index `len`. -/
structure CString where
  data : Nat → UInt8
  len : Nat
  ends : data len = 0
  before : ∀ i, i < len → data i ≠ 0

def CString.chars (s : CString) : List UInt8 := (List.range s.len).map s.data

/-- A text that ends with a zero byte. -/
def IsString (data : Nat → UInt8) (text : List UInt8) : Prop :=
  ∃ s : CString, s.data = data ∧ s.chars = text

/-- The string at an address. -/
def stringAt (mem : Nat → UInt8) (a : Nat) : Nat → UInt8 := fun i => byteAt mem (a + i)

namespace IsString

variable {str : Nat → UInt8} {text : List UInt8}

theorem terminator (h : IsString str text) : str text.length = 0 := by
  obtain ⟨s, rfl, rfl⟩ := h
  rw [CString.chars, List.length_map, List.length_range]
  exact s.ends

theorem ne_zero (h : IsString str text) {i : Nat} (hi : i < text.length) : str i ≠ 0 := by
  obtain ⟨s, rfl, rfl⟩ := h
  rw [CString.chars, List.length_map, List.length_range] at hi
  exact s.before i hi

theorem map_range (h : IsString str text) : (List.range text.length).map str = text := by
  obtain ⟨s, rfl, rfl⟩ := h
  rw [CString.chars, List.length_map, List.length_range]

theorem pos_of_mem (h : IsString str text) {c : UInt8} (hc : c ∈ text) : 0 < c.toNat := by
  rw [← h.map_range] at hc
  obtain ⟨i, hi, rfl⟩ := List.mem_map.1 hc
  exact Nat.pos_of_ne_zero fun hzero => h.ne_zero (List.mem_range.1 hi) (UInt8.toNat_inj.1 hzero)

end IsString

/-- A string is what it is read as. -/
theorem isString_of {str : Nat → UInt8} {n : Nat} (hend : str n = 0)
    (hbefore : ∀ i, i < n → str i ≠ 0) :
    IsString str ((List.range n).map str) := ⟨⟨str, n, hend, hbefore⟩, rfl, rfl⟩

theorem isString_nil_iff {str : Nat → UInt8} : IsString str [] ↔ str 0 = 0 :=
  ⟨fun h => h.terminator, fun hend => isString_of hend fun i hi => absurd hi (Nat.not_lt_zero i)⟩

theorem isString_cons_iff {str : Nat → UInt8} {c : UInt8} {text : List UInt8} :
    IsString str (c :: text) ↔ str 0 = c ∧ c ≠ 0 ∧ IsString (fun i => str (i + 1)) text := by
  constructor
  · intro h
    have hmap := h.map_range
    rw [List.length_cons, List.range_succ_eq_map, List.map_cons, List.map_map] at hmap
    obtain ⟨hhead, htail⟩ := List.cons.inj hmap
    have hstring : IsString (fun i => str (i + 1))
        ((List.range text.length).map fun i => str (i + 1)) :=
      isString_of h.terminator fun i hi => h.ne_zero (Nat.succ_lt_succ hi)
    exact ⟨hhead, hhead ▸ h.ne_zero (Nat.succ_pos _), htail ▸ hstring⟩
  · rintro ⟨rfl, hne, h⟩
    have hstring : IsString str ((List.range (text.length + 1)).map str) := by
      refine isString_of h.terminator fun i hi => ?_
      cases i with
      | zero => exact hne
      | succ i => exact h.ne_zero (Nat.lt_of_succ_lt_succ hi)
    have htail : (List.range text.length).map (str ∘ Nat.succ) = text := h.map_range
    rwa [List.range_succ_eq_map, List.map_cons, List.map_map, htail] at hstring

/-- Two strings compare as equal iff they are, up to the end of the first one. -/
theorem strncmp_eq_zero_iff {str1 str2 : Nat → UInt8} {n : Nat} :
    strncmp str1 str2 n = 0 ↔ ∀ i, i < n → (∀ j, j < i → str1 j ≠ 0) → str1 i = str2 i := by
  induction n generalizing str1 str2 with
  | zero => simp [strncmp]
  | succ n ih =>
      rw [strncmp]
      by_cases hne : str1 0 = str2 0
      · rw [if_neg (not_not.2 hne)]
        by_cases hend : str1 0 = 0
        · rw [if_pos hend]
          refine iff_of_true rfl fun i _ hi => ?_
          cases i with
          | zero => exact hne
          | succ i => exact absurd hend (hi 0 (Nat.succ_pos i))
        · rw [if_neg hend, ih]
          constructor
          · intro h i hi hbefore
            cases i with
            | zero => exact hne
            | succ i => exact h i (by omega) fun j hj => hbefore (j + 1) (by omega)
          · intro h i hi hbefore
            refine h (i + 1) (by omega) fun j hj => ?_
            cases j with
            | zero => exact hend
            | succ j => exact hbefore j (by omega)
      · rw [if_pos hne]
        have hdiff : (str1 0).toNat ≠ (str2 0).toNat := fun h => hne (UInt8.toNat_inj.1 h)
        refine iff_of_false (by omega) fun h => hne ?_
        exact h 0 (Nat.succ_pos n) fun j hj => absurd hj (Nat.not_lt_zero j)

/-! ## The order of strings -/

/-- The bytes of a text as unsigned numbers. -/
def bytes (text : List UInt8) : List Nat := text.map UInt8.toNat

theorem memcmpLoop_eq (a b : Nat → UInt8) (rest i : Nat) :
    memcmpLoop a b rest i =
      lexSign (bytes ((List.range' i rest).map a)) (bytes ((List.range' i rest).map b)) := by
  induction rest generalizing i with
  | zero => exact (lexSign_self []).symm
  | succ rest ih =>
      rw [memcmpLoop, ih, List.range'_succ]
      exact (lexSign_cons_cons (a i).toNat (b i).toNat _ _).symm

/-- `memcmp` compares two arrays of the same length. -/
theorem memcmp_eq (a b : Nat → UInt8) (size : Nat) :
    memcmp a b size = lexSign (bytes ((List.range size).map a))
    (bytes ((List.range size).map b)) := by
  rw [memcmp, memcmpLoop_eq, List.range_eq_range']

section Compare

variable {str1 str2 : Nat → UInt8} {xs ys : List UInt8}

theorem IsString.map_range_succ (h : IsString str1 xs) {n : Nat} (hn : n ≤ xs.length) :
    (List.range (n + 1)).map str1 = (xs ++ [0]).take (n + 1) := by
  calc (List.range (n + 1)).map str1
      = ((List.range (xs.length + 1)).take (n + 1)).map str1 := by
        rw [List.take_range, Nat.min_eq_left (Nat.succ_le_succ hn)]
    _ = ((List.range (xs.length + 1)).map str1).take (n + 1) := List.map_take
    _ = _ := by
        rw [List.range_succ, List.map_append, h.map_range, List.map_singleton, h.terminator]

/-- `memcmp` of the shorter string with its terminator. -/
theorem memcmp_terminated (hx : IsString str1 xs) (hy : IsString str2 ys) :
    memcmp str1 str2 (min xs.length ys.length + 1) = lexSign (bytes xs) (bytes ys) := by
  have hlen : min xs.length ys.length = min (bytes xs).length (bytes ys).length := by
    rw [bytes, bytes, List.length_map, List.length_map]
  have hzero : ∀ zs : List UInt8, bytes (zs ++ [0]) = bytes zs ++ [0] := fun zs => List.map_append
  have hpos : ∀ {str zs}, IsString str zs → ∀ c ∈ bytes zs, 0 < c := by
    intro str zs h c hc
    obtain ⟨d, hd, rfl⟩ := List.mem_map.1 hc
    exact h.pos_of_mem hd
  rw [memcmp_eq, hx.map_range_succ (Nat.min_le_left _ _), hy.map_range_succ (Nat.min_le_right _ _)]
  calc lexSign (bytes ((xs ++ [0]).take (min xs.length ys.length + 1)))
        (bytes ((ys ++ [0]).take (min xs.length ys.length + 1)))
      = lexSign ((bytes xs ++ [0]).take (min (bytes xs).length (bytes ys).length + 1))
          ((bytes ys ++ [0]).take (min (bytes xs).length (bytes ys).length + 1)) := by
        rw [← hlen, ← hzero, ← hzero, bytes, bytes, bytes, bytes, List.map_take, List.map_take]
    _ = lexSign (bytes xs) (bytes ys) := lexSign_terminated (hpos hx) (hpos hy)

/-- `strlen` from an index in the string returns its length, as soon as it has come to the end. -/
theorem strlen_from (h : IsString str1 xs) (hlen : xs.length < W32) {fuel i : Nat}
    (hi : i ≤ xs.length) :
    strlen str1 fuel i = if xs.length < fuel + i then some xs.length else none := by
  induction fuel generalizing i with
  | zero =>
      rw [if_neg (by omega)]
      rfl
  | succ fuel ih =>
      rw [strlen]
      by_cases hend : i = xs.length
      · rw [hend, if_neg (not_not.2 h.terminator), if_pos (by omega)]
      · have hlt : i < xs.length := Nat.lt_of_le_of_ne hi hend
        rw [if_pos (h.ne_zero hlt), add32_of_lt (by omega), ih hlt, Nat.succ_add_eq_add_succ]

theorem strlen_eq_some (h : IsString str1 xs) (hlen : xs.length < W32) {fuel len : Nat}
    (hrun : strlen str1 fuel 0 = some len) : xs.length = len := by
  rw [strlen_from h hlen (Nat.zero_le _)] at hrun
  split at hrun
  · exact Option.some.inj hrun
  · cases hrun

/-- Two strings, at most one of which may fill the whole address space. The number of bytes to
compare would wrap around to `0` otherwise, so they have to be the same then. -/
structure Comparable (xs ys : List UInt8) : Prop where
  left_lt : xs.length < W32
  right_lt : ys.length < W32
  eq_of_full : xs.length + 1 = W32 → ys.length + 1 = W32 → xs = ys

/-- **`strcmp`** is the sign of the lexicographic comparison. -/
theorem strcmp_eq (hx : IsString str1 xs) (hy : IsString str2 ys) (hcmp : Comparable xs ys)
    {fuel : Nat} (hfuel : xs.length < fuel ∧ ys.length < fuel) :
    strcmp fuel str1 str2 = some (lexSign (bytes xs) (bytes ys)) := by
  have hleft := hcmp.left_lt
  have hright := hcmp.right_lt
  have hmin : (if xs.length < ys.length then xs.length else ys.length) =
      min xs.length ys.length := by
    split <;> omega
  have hlen1 : strlen str1 fuel 0 = some xs.length :=
    (strlen_from hx hleft (Nat.zero_le _)).trans (if_pos hfuel.1)
  have hlen2 : strlen str2 fuel 0 = some ys.length :=
    (strlen_from hy hright (Nat.zero_le _)).trans (if_pos hfuel.2)
  rw [strcmp, hlen1, hlen2, Option.bind_some, Option.map_some, hmin]
  congr 1
  by_cases hfull : min xs.length ys.length + 1 = W32
  · -- no byte is compared
    obtain rfl : xs = ys := hcmp.eq_of_full (by omega) (by omega)
    rw [add32, hfull, Nat.mod_self, lexSign_self]
    rfl
  · rw [add32_of_lt (by omega)]
    exact memcmp_terminated hx hy

/-- **`strncmp`** has the sign of the lexicographic comparison of the first `n` bytes. -/
theorem sign_strncmp (hx : IsString str1 xs) (hy : IsString str2 ys) (n : Nat) :
    (strncmp str1 str2 n).sign = lexSign (bytes (xs.take n)) (bytes (ys.take n)) := by
  induction n generalizing str1 str2 xs ys with
  | zero => exact (lexSign_self []).symm
  | succ n ih =>
      rw [strncmp]
      cases xs with
      | nil =>
          have hend1 := isString_nil_iff.1 hx
          cases ys with
          | nil =>
              have hend2 := isString_nil_iff.1 hy
              rw [hend1, hend2, if_neg (not_not.2 rfl), if_pos rfl]
              exact (lexSign_self []).symm
          | cons y ys =>
              -- the second string is longer
              obtain ⟨rfl, hne, -⟩ := isString_cons_iff.1 hy
              have hpos := hy.pos_of_mem List.mem_cons_self
              rw [hend1, if_pos hne.symm, UInt8.toNat_zero]
              exact (Int.sign_eq_neg_one_of_neg (by omega)).trans (lexSign_nil_cons _ _).symm
      | cons x xs =>
          obtain ⟨rfl, hne, hx'⟩ := isString_cons_iff.1 hx
          have hpos := hx.pos_of_mem List.mem_cons_self
          cases ys with
          | nil =>
              have hend2 := isString_nil_iff.1 hy
              rw [hend2, if_pos hne, UInt8.toNat_zero]
              exact (Int.sign_eq_one_of_pos (by omega)).trans (lexSign_cons_nil _ _).symm
          | cons y ys =>
              obtain ⟨rfl, -, hy'⟩ := isString_cons_iff.1 hy
              have hcons := lexSign_cons_cons (str1 0).toNat (str2 0).toNat (bytes (xs.take n))
                (bytes (ys.take n))
              refine Eq.trans ?_ hcons.symm
              rcases Nat.lt_trichotomy (str1 0).toNat (str2 0).toNat with hlt | heq | hgt
              · have hdiff : str1 0 ≠ str2 0 := fun h => Nat.ne_of_lt hlt (congrArg UInt8.toNat h)
                rw [if_pos hdiff, if_pos hlt]
                exact Int.sign_eq_neg_one_of_neg (by omega)
              · -- the first bytes are the same, and not the end
                rw [if_neg (not_not.2 (UInt8.toNat_inj.1 heq)), if_neg hne,
                  if_neg (Nat.not_lt_of_ge heq.ge), if_neg (Nat.not_lt_of_ge heq.le)]
                exact ih hx' hy'
              · have hdiff : str1 0 ≠ str2 0 := fun h => Nat.ne_of_gt hgt (congrArg UInt8.toNat h)
                rw [if_pos hdiff, if_neg (Nat.not_lt_of_ge hgt.le), if_pos hgt]
                exact Int.sign_eq_one_of_pos (by omega)

/-! ## Reads -/

theorem le_of_mem_strlenReads (h : IsString str1 xs) (hlen : xs.length < W32) {fuel i : Nat}
    (hi : i ≤ xs.length) : ∀ k ∈ strlenReads str1 fuel i, k ≤ xs.length := by
  induction fuel generalizing i with
  | zero => exact fun k hk => by cases hk
  | succ fuel ih =>
      intro k hk
      rcases List.mem_cons.1 hk with rfl | hk
      · exact hi
      · split at hk
        · next hne =>
          have hlt : i < xs.length := Nat.lt_of_le_of_ne hi fun heq => hne (heq ▸ h.terminator)
          rw [add32_of_lt (by omega)] at hk
          exact ih hlt k hk
        · cases hk

theorem lt_of_mem_memcmpReads {rest i : Nat} :
    ∀ k ∈ memcmpReads str1 str2 rest i, k < i + rest := by
  induction rest generalizing i with
  | zero => exact fun k hk => by cases hk
  | succ rest ih =>
      intro k hk
      rcases List.mem_cons.1 hk with rfl | hk
      · omega
      · split at hk
        · cases hk
        · split at hk
          · cases hk
          · have := ih k hk
            omega

/-- `strcmp` reads the terminators and nothing behind them. -/
theorem le_of_mem_strcmpReads (hx : IsString str1 xs) (hy : IsString str2 ys)
    (hcmp : Comparable xs ys) (fuel : Nat) :
    (∀ i ∈ (strcmpReads fuel str1 str2).1, i ≤ xs.length) ∧
      ∀ i ∈ (strcmpReads fuel str1 str2).2, i ≤ ys.length := by
  have hscan1 := @le_of_mem_strlenReads str1 xs hx hcmp.left_lt fuel 0 (Nat.zero_le _)
  have hscan2 := @le_of_mem_strlenReads str2 ys hy hcmp.right_lt fuel 0 (Nat.zero_le _)
  rw [strcmpReads]
  cases hlen1 : strlen str1 fuel 0 with
  | none => exact ⟨hscan1, fun i hi => by cases hi⟩
  | some len1 =>
      cases hlen2 : strlen str2 fuel 0 with
      | none => exact ⟨hscan1, hscan2⟩
      | some len2 =>
          obtain rfl := strlen_eq_some hx hcmp.left_lt hlen1
          obtain rfl := strlen_eq_some hy hcmp.right_lt hlen2
          -- the comparison ends with the terminator of the shorter string, if not before
          have hcompared : ∀ i ∈ memcmpReads str1 str2
              (add32 (if xs.length < ys.length then xs.length else ys.length) 1) 0,
              i ≤ xs.length ∧ i ≤ ys.length := by
            intro i hi
            have hlt := lt_of_mem_memcmpReads i hi
            have hsize : add32 (if xs.length < ys.length then xs.length else ys.length) 1 ≤
                (if xs.length < ys.length then xs.length else ys.length) + 1 := Nat.mod_le _ _
            split at hsize <;> split at hlt <;> omega
          exact ⟨fun i hi => (List.mem_append.1 hi).elim (hscan1 i) fun hi => (hcompared i hi).1,
            fun i hi => (List.mem_append.1 hi).elim (hscan2 i) fun hi => (hcompared i hi).2⟩

end Compare

/-! ## Strings in memory -/

/-- The first `n` bytes of a string, as a string. -/
def truncate (n : Nat) (str : Nat → UInt8) : Nat → UInt8 := fun i => if i < n then str i else 0

theorem isString_truncate {str : Nat → UInt8} {xs : List UInt8} (h : IsString str xs) (n : Nat) :
    IsString (truncate n str) (xs.take n) := by
  have htake : (List.range (min n xs.length)).map (truncate n str) = xs.take n := by
    calc (List.range (min n xs.length)).map (truncate n str)
        = (List.range (min n xs.length)).map str := by
          refine List.map_congr_left fun i hi => if_pos ?_
          exact Nat.lt_of_lt_of_le (List.mem_range.1 hi) (Nat.min_le_left _ _)
      _ = ((List.range xs.length).take n).map str := by rw [List.take_range]
      _ = _ := by rw [List.map_take, h.map_range]
  rw [← htake]
  refine isString_of ?_ fun i hi => ?_
  · rw [truncate]
    split
    · rw [Nat.min_eq_right (by omega)]
      exact h.terminator
    · rfl
  · rw [truncate, if_pos (by omega)]
    exact h.ne_zero (by omega)

theorem Comparable.take {xs ys : List UInt8} (h : Comparable xs ys) (n : Nat) :
    Comparable (xs.take n) (ys.take n) := by
  have hleft := h.left_lt
  have hright := h.right_lt
  refine ⟨?_, ?_, fun hfull1 hfull2 => ?_⟩
  · rw [List.length_take]
    omega
  · rw [List.length_take]
    omega
  · rw [List.length_take] at hfull1 hfull2
    rw [h.eq_of_full (by omega) (by omega)]

section InMemory

variable {mem : Nat → UInt8} {a b : Nat} {xs ys : List UInt8}

/-- The address space ends a string. -/
theorem length_lt_of_stringAt (h : IsString (stringAt mem a) xs) : xs.length < W32 := by
  by_contra hge
  -- the terminator is also one round earlier
  have hsame : stringAt mem a (xs.length - W32) = stringAt mem a xs.length := by
    unfold stringAt byteAt
    rw [← Nat.add_mod_right (a + (xs.length - W32)) W32, Nat.add_assoc,
      Nat.sub_add_cancel (by omega)]
  have hpos : 0 < W32 := by decide
  exact h.ne_zero (by omega) (hsame.trans h.terminator)

/-- A string that fills the address space has its terminator right before it, so there is one such
string at most. -/
theorem comparable_stringAt (ha : IsString (stringAt mem a) xs)
    (hb : IsString (stringAt mem b) ys) :
    Comparable xs ys := by
  refine ⟨length_lt_of_stringAt ha, length_lt_of_stringAt hb, fun hfull1 hfull2 => ?_⟩
  have hlen : xs.length = ys.length := by omega
  by_cases hab : a % W32 = b % W32
  · have hsame : stringAt mem a = stringAt mem b := by
      funext i
      show byteAt mem (a + i) = byteAt mem (b + i)
      rw [← byteAt_mod, hab, byteAt_mod]
    rw [← ha.map_range, ← hb.map_range, hlen, hsame]
  · -- otherwise the terminator of one string would be inside the other
    obtain ⟨i, hi, haddr⟩ : ∃ i, i < xs.length ∧ (a + i) % W32 = (b + ys.length) % W32 := by
      refine ⟨(b + ys.length + (W32 - a % W32)) % W32, ?_, ?_⟩
      · unfold W32 at *
        omega
      · unfold W32 at *
        omega
    have hzero : stringAt mem a i = 0 := by
      show mem ((a + i) % W32) = 0
      rw [haddr]
      exact hb.terminator
    exact absurd hzero (ha.ne_zero hi)

/-- **String comparison is one order.** For two strings in memory `strcmp` returns the sign of the
lexicographic comparison of their bytes and reads nothing behind the terminators, and `strncmp` has
the sign that `strcmp` has for the strings cut off after `n` bytes. -/
theorem string_order (ha : IsString (stringAt mem a) xs) (hb : IsString (stringAt mem b) ys) :
    (∃ k, ∀ fuel, k ≤ fuel →
      strcmp fuel (stringAt mem a) (stringAt mem b) = some (lexSign (bytes xs) (bytes ys))) ∧
    (∀ fuel, (∀ i ∈ (strcmpReads fuel (stringAt mem a) (stringAt mem b)).1, i ≤ xs.length) ∧
      ∀ i ∈ (strcmpReads fuel (stringAt mem a) (stringAt mem b)).2, i ≤ ys.length) ∧
    ∀ n, ∃ r k, (∀ fuel, k ≤ fuel →
        strcmp fuel (truncate n (stringAt mem a)) (truncate n (stringAt mem b)) = some r) ∧
      (strncmp (stringAt mem a) (stringAt mem b) n).sign = r.sign := by
  have hcmp := comparable_stringAt ha hb
  refine ⟨⟨max xs.length ys.length + 1, fun fuel hfuel => ?_⟩, le_of_mem_strcmpReads ha hb hcmp,
    fun n => ?_⟩
  · exact strcmp_eq ha hb hcmp (by omega)
  · refine ⟨lexSign (bytes (xs.take n)) (bytes (ys.take n)), max xs.length ys.length + 1,
      fun fuel hfuel => ?_, ?_⟩
    · refine strcmp_eq (isString_truncate ha n) (isString_truncate hb n) (hcmp.take n) ?_
      rw [List.length_take, List.length_take]
      omega
    · rw [sign_strncmp ha hb, sign_lexSign]

/-- `"ab"` at the address 16 and `"a\xff"` at the address 24. -/
def twoStrings : Nat → UInt8 := fun a =>
  if a = 16 ∨ a = 24 then 97 else if a = 17 then 98 else if a = 25 then 255 else 0

/-- A byte above 127 comes behind a letter. -/
theorem string_order_two :
    (∃ k, ∀ fuel, k ≤ fuel →
      strcmp fuel (stringAt twoStrings 16) (stringAt twoStrings 24) = some (-1)) ∧
    ∀ n, ∃ r k, (∀ fuel, k ≤ fuel → strcmp fuel (truncate n (stringAt twoStrings 16))
        (truncate n (stringAt twoStrings 24)) = some r) ∧
      (strncmp (stringAt twoStrings 16) (stringAt twoStrings 24) n).sign = r.sign := by
  have hfirst : IsString (stringAt twoStrings 16) [97, 98] :=
    isString_of (n := 2) (by decide) (by decide)
  have hsecond : IsString (stringAt twoStrings 24) [97, 255] :=
    isString_of (n := 2) (by decide) (by decide)
  exact ⟨(string_order hfirst hsecond).1, (string_order hfirst hsecond).2.2⟩

end InMemory

end NowOS
