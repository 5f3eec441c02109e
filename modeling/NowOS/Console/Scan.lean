import NowOS.Console.Kprint

set_option autoImplicit false

/-! # The scan of a format (`kernel/kprint.c`)

The loop of `kprint` advances `charp` in its header, and once more behind a `%`. The second step is
not guarded: if the `%` is the last character of the format, it is one to the terminating zero byte,
the `switch` has no case for that, and the header then steps over it. The scan goes on with whatever
is behind the format.

That is the only way out: `kprint_scan_iff` says that the scan stays in the format, its zero byte
included, whatever the arguments are, exactly if the format does not end in the middle of a
conversion. Unknown conversions and too few arguments do no harm to the scan. -/

namespace NowOS

/-! ## What is read -/

section Reads

variable (mem : Nat → UInt8) (fuel : Nat)

/-- The characters of the format that a turn of the loop reads. -/
def kprintStepReads (k : Kprint) : List Nat :=
  if byteAt mem k.charp ≠ percentChar then [k.charp] else [k.charp, k.charp + 1]

/-- The characters that the loop reads, the one that ends it included. -/
def kprintLoopReads : (turns : Nat) → Kprint → List Nat
  | 0, _ => []
  | turns + 1, k =>
      if byteAt mem k.charp = 0 then [k.charp]
      else kprintStepReads mem k ++
        match kprintStep mem fuel k with
        | none => []
        | some k' => kprintLoopReads turns k'

/-- The characters of the format that `kprint(level, format, arg)` reads. -/
def kprintReads (level : LogLevel) (format : Nat) (arg : List (BitVec 32)) (k : Kprint) :
    List Nat :=
  match kprintHeader fuel level k with
  | none => []
  | some k => kprintLoopReads mem fuel fuel { k with charp := format, arg := arg }

end Reads

/-- A format that ends in the middle of a conversion. -/
def dangling : List UInt8 → Bool
  | [] => false
  | [c] => c == percentChar
  | c :: d :: text => if c = percentChar then dangling text else dangling (d :: text)

/-! ## Conversions leave `charp` alone -/

section Frame

variable {mem : Nat → UInt8} {fuel : Nat} {k k' : Kprint}

theorem charp_writeData {data : Nat → UInt8} (h : writeData fuel data k = some k') :
    k'.charp = k.charp := by
  obtain ⟨term, -, rfl⟩ := Option.map_eq_some_iff.1 h
  rfl

theorem charp_writeConverted {num base : Nat} (h : writeConverted fuel num base k = some k') :
    k'.charp = k.charp := by
  obtain ⟨⟨ptr, buff⟩, -, hwrite⟩ := Option.bind_eq_some_iff.1 h
  have hcharp : k'.charp = { k with buff := buff }.charp := charp_writeData hwrite
  exact hcharp

theorem charp_printSigned {i : BitVec 32} (h : printSigned fuel i k = some k') :
    k'.charp = k.charp := by
  unfold printSigned at h
  split_ifs at h
  · have hcharp : k'.charp = (putchar minusChar k).charp := charp_writeConverted h
    exact hcharp
  · exact charp_writeConverted h

theorem charp_printHex {i : BitVec 32} (h : printHex fuel i k = some k') : k'.charp = k.charp := by
  obtain ⟨k₁, hprefix, hnum⟩ := Option.bind_eq_some_iff.1 h
  exact (charp_writeConverted hnum).trans (charp_writeData hprefix)

theorem charp_vaArg {i : BitVec 32} (h : vaArg k = some (i, k')) : k'.charp = k.charp := by
  unfold vaArg at h
  split at h
  · cases h
  · cases h
    rfl

/-- A conversion that takes an argument. -/
theorem charp_of_vaArg (print : BitVec 32 → Kprint → Option Kprint)
    (hprint : ∀ i k₁, print i k₁ = some k' → k'.charp = k₁.charp)
    (h : ((vaArg k).bind fun (i, k) => print i k) = some k') : k'.charp = k.charp := by
  obtain ⟨⟨i, k₁⟩, harg, hrun⟩ := Option.bind_eq_some_iff.1 h
  exact (hprint i k₁ hrun).trans (charp_vaArg harg)

theorem charp_printConversion {letter : UInt8} (h : printConversion mem fuel letter k = some k') :
    k'.charp = k.charp := by
  unfold printConversion at h
  split_ifs at h
  · refine charp_of_vaArg printChar (fun i k₁ hchar => ?_) h
    cases hchar
    rfl
  · exact charp_of_vaArg (printSigned fuel) (fun _ _ => charp_printSigned) h
  · exact charp_of_vaArg (printString mem fuel) (fun _ _ => charp_writeData) h
  · exact charp_of_vaArg (printHex fuel) (fun _ _ => charp_printHex) h
  · cases h
    rfl

/-- A turn of the loop steps behind what it has read. -/
theorem charp_kprintStep (h : kprintStep mem fuel k = some k') :
    k'.charp = k.charp + (kprintStepReads mem k).length := by
  unfold kprintStep at h
  unfold kprintStepReads
  split_ifs at h ⊢
  · cases h
    rfl
  · obtain ⟨k₁, hrun, rfl⟩ := Option.map_eq_some_iff.1 h
    show k₁.charp + 2 = k.charp + 2
    rw [charp_printConversion hrun]

end Frame

/-! ## The text that is left -/

theorem isString_stringAt_cons {mem : Nat → UInt8} {a : Nat} {c : UInt8} {text : List UInt8} :
    IsString (stringAt mem a) (c :: text) ↔
      byteAt mem a = c ∧ c ≠ 0 ∧ IsString (stringAt mem (a + 1)) text := by
  have htail : (fun i => stringAt mem a (i + 1)) = stringAt mem (a + 1) := by
    funext i
    exact congrArg (byteAt mem) (by omega)
  rw [isString_cons_iff, htail]
  rfl

theorem dangling_cons_of_ne {c : UInt8} (hc : c ≠ percentChar) (text : List UInt8) :
    dangling (c :: text) = dangling text := by
  cases text with
  | nil => exact beq_false_of_ne hc
  | cons d text => rw [dangling, if_neg hc]

theorem dangling_percent (d : UInt8) (text : List UInt8) :
    dangling (percentChar :: d :: text) = dangling text := by
  rw [dangling, if_pos rfl]

section Scan

variable {mem : Nat → UInt8} {fuel turns : Nat} {k : Kprint}

/-- The reads of a loop are those of its first turn and those of the rest. -/
theorem mem_kprintLoopReads_iff {a : Nat} (hne : byteAt mem k.charp ≠ 0) :
    a ∈ kprintLoopReads mem fuel (turns + 1) k ↔
      a ∈ kprintStepReads mem k ∨
        ∃ k', kprintStep mem fuel k = some k' ∧ a ∈ kprintLoopReads mem fuel turns k' := by
  rw [kprintLoopReads, if_neg hne, List.mem_append]
  refine or_congr_right ?_
  cases kprintStep mem fuel k with
  | none => simp
  | some k' => simp

theorem charp_mem_kprintStepReads : k.charp ∈ kprintStepReads mem k := by
  unfold kprintStepReads
  split_ifs
  · exact List.mem_singleton.2 rfl
  · exact List.mem_cons_self

theorem charp_mem_kprintLoopReads : k.charp ∈ kprintLoopReads mem fuel (turns + 1) k := by
  by_cases hend : byteAt mem k.charp = 0
  · rw [kprintLoopReads, if_pos hend]
    exact List.mem_singleton.2 rfl
  · exact (mem_kprintLoopReads_iff hend).2 (Or.inl charp_mem_kprintStepReads)

theorem lt_of_mem_kprintStepReads {a : Nat} (ha : a ∈ kprintStepReads mem k) :
    a < k.charp + (kprintStepReads mem k).length := by
  unfold kprintStepReads at ha ⊢
  split_ifs at ha ⊢
  · rw [List.mem_singleton.1 ha]
    exact Nat.lt_succ_self _
  · rcases List.mem_pair.1 ha with rfl | rfl
    · exact Nat.lt_add_of_pos_right Nat.two_pos
    · exact Nat.lt_succ_self _

/-- A turn of the loop leaves a shorter text with the same end, unless it starts at a last `%`. -/
theorem exists_text_left {c : UInt8} {text : List UInt8}
    (htext : IsString (stringAt mem k.charp) (c :: text)) (hnext : c = percentChar → text ≠ []) :
    ∃ rest, IsString (stringAt mem (k.charp + (kprintStepReads mem k).length)) rest ∧
      dangling rest = dangling (c :: text) ∧
      (kprintStepReads mem k).length + rest.length = text.length + 1 := by
  obtain ⟨hchar, -, htail⟩ := isString_stringAt_cons.1 htext
  unfold kprintStepReads
  rw [hchar]
  by_cases hc : c = percentChar
  · rw [if_neg (not_not.2 hc)]
    cases text with
    | nil => exact absurd rfl (hnext hc)
    | cons d text =>
        refine ⟨text, (isString_stringAt_cons.1 htail).2.2, ?_, Nat.add_comm 2 _⟩
        rw [hc, dangling_percent]
  · rw [if_pos hc]
    exact ⟨text, htail, (dangling_cons_of_ne hc text).symm, Nat.add_comm 1 _⟩

/-! ## Formats that end behind their last conversion -/

/-- **The scan stays in the format**: it reads nothing behind the zero byte. -/
theorem kprintLoopReads_le {text : List UInt8} (htext : IsString (stringAt mem k.charp) text)
    (hdone : dangling text = false) {a : Nat} (ha : a ∈ kprintLoopReads mem fuel turns k) :
    a ≤ k.charp + text.length := by
  -- the invariant is the text that is left: its end is always the same
  induction turns generalizing k text with
  | zero => cases ha
  | succ turns ih =>
      cases text with
      | nil =>
          have hend : byteAt mem k.charp = 0 := htext.terminator
          rw [kprintLoopReads, if_pos hend, List.mem_singleton] at ha
          exact Nat.le_of_eq ha
      | cons c text =>
          obtain ⟨hchar, hzero, -⟩ := isString_stringAt_cons.1 htext
          have hnext : c = percentChar → text ≠ [] := by
            rintro rfl rfl
            exact absurd hdone (by decide)
          obtain ⟨rest, hrest, hsame, hlen⟩ := exists_text_left htext hnext
          rw [List.length_cons]
          rcases (mem_kprintLoopReads_iff (hchar ▸ hzero)).1 ha with hread | ⟨k', hstep, hread⟩
          · have hlt := lt_of_mem_kprintStepReads hread
            omega
          · have hcharp := charp_kprintStep hstep
            rw [← hcharp] at hrest
            have hle := ih hrest (hsame.trans hdone) hread
            omega

/-! ## Formats that end in the middle of a conversion -/

/-- The directive at a place of the format, with the address of a string for its argument. -/
theorem exists_directive {a : Nat} {c : UInt8} {text str : List UInt8} {s : BitVec 32}
    (htext : IsString (stringAt mem a) (c :: text)) (hnext : c = percentChar → text ≠ [])
    (hs : IsString (stringAt mem s.toNat) str) :
    ∃ d : Directive, d.At mem a ∧ (d.arg = [] ∨ d.arg = [s]) := by
  obtain ⟨hchar, hzero, htail⟩ := isString_stringAt_cons.1 htext
  by_cases hc : c = percentChar
  · obtain ⟨letter, more, rfl⟩ := List.exists_cons_of_ne_nil (hnext hc)
    obtain ⟨hletter, hletter0, -⟩ := isString_stringAt_cons.1 htail
    rw [hc] at hchar
    by_cases hchr : letter = 99
    · exact ⟨.char s, ⟨hchar, hletter.trans hchr⟩, Or.inr rfl⟩
    by_cases hdec : letter = 100
    · exact ⟨.signed s, ⟨hchar, hletter.trans hdec⟩, Or.inr rfl⟩
    by_cases hstr : letter = 115
    · exact ⟨.string s str, ⟨hchar, hletter.trans hstr, hs⟩, Or.inr rfl⟩
    by_cases hhex : letter = 120
    · exact ⟨.hex s, ⟨hchar, hletter.trans hhex⟩, Or.inr rfl⟩
    exact ⟨.unknown letter, ⟨hchar, hletter, hletter0, hchr, hdec, hstr, hhex⟩, Or.inl rfl⟩
  · exact ⟨.plain c, ⟨hchar, hzero, hc⟩, Or.inl rfl⟩

/-- With the address of a string for every argument, all conversions come to an end. -/
theorem kprintStep_runs {c : UInt8} {text str : List UInt8} {s : BitVec 32}
    (htext : IsString (stringAt mem k.charp) (c :: text)) (hnext : c = percentChar → text ≠ [])
    (hs : IsString (stringAt mem s.toNat) str) (hargs : ∀ x ∈ k.arg, x = s) (hne : k.arg ≠ []) :
    ∃ k' n, (∀ fuel, n ≤ fuel → kprintStep mem fuel k = some k') ∧ (∀ x ∈ k'.arg, x = s) ∧
      k.arg.length ≤ k'.arg.length + 1 := by
  obtain ⟨d, hat, hnone | hone⟩ := exists_directive htext hnext hs
  · have harg : k.arg = d.arg ++ k.arg := by rw [hnone, List.nil_append]
    obtain ⟨-, k', n, hrun, hk'⟩ := kprintStep_directive hat harg
    refine ⟨k', n, hrun, ?_, ?_⟩
    · rwa [hk'.arg]
    · rw [hk'.arg]
      exact Nat.le_succ _
  · -- the first argument is used up
    obtain ⟨x, arg, hcons⟩ := List.exists_cons_of_ne_nil hne
    rw [hcons, List.forall_mem_cons] at hargs
    have harg : k.arg = d.arg ++ arg := by rw [hone, hcons, hargs.1, List.singleton_append]
    obtain ⟨-, k', n, hrun, hk'⟩ := kprintStep_directive hat harg
    refine ⟨k', n, hrun, ?_, ?_⟩
    · rw [hk'.arg]
      exact hargs.2
    · rw [hk'.arg, hcons, List.length_cons]

/-- The turn at a last `%` goes two characters on, to the one behind the zero byte. -/
theorem kprintStep_last_percent (hpercent : byteAt mem k.charp = percentChar)
    (hend : byteAt mem (k.charp + 1) = 0) (fuel : Nat) :
    kprintStep mem fuel k = some { k with charp := k.charp + 2 } := by
  rw [kprintStep, if_neg (not_not.2 hpercent), hend]
  rfl

/-- **The scan leaves the format**: with enough arguments it comes to its last `%`, and reads the
character behind the zero byte. -/
theorem behind_mem_kprintLoopReads {text str : List UInt8} {s : BitVec 32}
    (htext : IsString (stringAt mem k.charp) text) (hmiddle : dangling text = true)
    (hs : IsString (stringAt mem s.toNat) str) (hargs : ∀ x ∈ k.arg, x = s)
    (henough : text.length ≤ k.arg.length) {m : Nat} (hm : text.length ≤ m) :
    ∃ n, ∀ fuel turns, n ≤ fuel → m < turns →
      k.charp + text.length + 1 ∈ kprintLoopReads mem fuel turns k := by
  induction m generalizing k text with
  | zero =>
      rw [List.length_eq_zero_iff.1 (Nat.le_zero.1 hm)] at hmiddle
      exact absurd hmiddle (by decide)
  | succ m ih =>
      cases text with
      | nil => exact absurd hmiddle (by decide)
      | cons c text =>
          obtain ⟨hchar, hzero, htail⟩ := isString_stringAt_cons.1 htext
          rw [List.length_cons] at henough hm ⊢
          by_cases hlast : c = percentChar ∧ text = []
          · obtain ⟨rfl, rfl⟩ := hlast
            have hend : byteAt mem (k.charp + 1) = 0 := htail.terminator
            refine ⟨0, fun fuel turns _ hturns => ?_⟩
            obtain ⟨turns, rfl⟩ : ∃ t, turns = t + 1 + 1 := ⟨turns - 2, by omega⟩
            refine (mem_kprintLoopReads_iff (hchar ▸ hzero)).2 (Or.inr ?_)
            exact ⟨_, kprintStep_last_percent hchar hend fuel, charp_mem_kprintLoopReads⟩
          · have hnext : c = percentChar → text ≠ [] := fun hc hnil => hlast ⟨hc, hnil⟩
            obtain ⟨rest, hrest, hsame, hlen⟩ := exists_text_left htext hnext
            obtain ⟨k', n₁, hrun, hargs', hfewer⟩ := kprintStep_runs htext hnext hs hargs
              (List.ne_nil_of_length_pos (by omega))
            have hcharp := charp_kprintStep (hrun n₁ (Nat.le_refl _))
            have hpos := List.length_pos_of_mem (@charp_mem_kprintStepReads mem k)
            rw [← hcharp] at hrest
            obtain ⟨n₂, hread⟩ := ih hrest (hsame.trans hmiddle) hargs' (by omega) (by omega)
            refine ⟨max n₁ n₂, fun fuel turns hfuel hturns => ?_⟩
            obtain ⟨turns, rfl⟩ : ∃ t, turns = t + 1 := ⟨turns - 1, by omega⟩
            refine (mem_kprintLoopReads_iff (hchar ▸ hzero)).2 (Or.inr ⟨k',
              hrun fuel (by omega), ?_⟩)
            have hplace : k'.charp + rest.length + 1 = k.charp + (text.length + 1) + 1 := by omega
            exact hplace ▸ hread fuel turns (by omega) (by omega)

end Scan

/-! ## Whole calls -/

/-- **The scan of `kprint`** stays in the format, whatever the level, the arguments and the state
are, exactly if the format does not end in the middle of a conversion. -/
theorem kprint_scan_iff {mem : Nat → UInt8} {format : Nat} {text : List UInt8}
    (htext : IsString (stringAt mem format) text) :
    (∀ fuel level arg k, ∀ a ∈ kprintReads mem fuel level format arg k, a ≤ format + text.length) ↔
      dangling text = false := by
  constructor
  · intro hstays
    by_contra hmiddle
    rw [Bool.not_eq_false] at hmiddle
    -- the format itself is a string for `%s`
    have hs : IsString (stringAt mem (BitVec.ofNat 32 format).toNat) text := by
      have hsame : stringAt mem (BitVec.ofNat 32 format).toNat = stringAt mem format := by
        funext i
        exact byteAt_mod mem format i
      rwa [hsame]
    obtain ⟨k₁, hheader, -⟩ := kprintHeader_emitted .info firstMessage
    have hargs : ∀ x ∈ List.replicate text.length (BitVec.ofNat 32 format),
        x = BitVec.ofNat 32 format :=
      fun x hx => List.eq_of_mem_replicate hx
    obtain ⟨n, hread⟩ := @behind_mem_kprintLoopReads mem
      { k₁ with
        charp := format
        arg := List.replicate text.length (BitVec.ofNat 32 format) } text text _
      htext hmiddle hs hargs (Nat.le_of_eq List.length_replicate.symm) _ (Nat.le_refl _)
    have hbehind : format + text.length + 1 ∈
        kprintReads mem (n + BUFF_SIZE + text.length) .info format
        (List.replicate text.length (BitVec.ofNat 32 format)) firstMessage := by
      rw [kprintReads, hheader _ (by omega)]
      exact hread _ _ (by omega) (by unfold BUFF_SIZE; omega)
    have hle := hstays _ _ _ _ _ hbehind
    omega
  · intro hdone fuel level arg k a ha
    unfold kprintReads at ha
    split at ha
    · cases ha
    · next k₁ _ =>
      exact @kprintLoopReads_le mem fuel fuel { k₁ with charp := format, arg := arg } text
        htext hdone a ha

/-- `"%d%%"` -/
theorem kprint_scan_percent : IsString (stringAt (literal [37, 100, 37, 37]) 0) [37, 100, 37, 37] ∧
    ∀ fuel level arg k,
      ∀ a ∈ kprintReads (literal [37, 100, 37, 37]) fuel level 0 arg k, a ≤ 4 := by
  have htext : IsString (stringAt (literal [37, 100, 37, 37]) 0) [37, 100, 37, 37] :=
    isString_of (n := 4) (by decide) (by decide)
  exact ⟨htext, (kprint_scan_iff htext).2 (by decide)⟩

/-- **`kprint(INFO, "%")`** goes on behind the format, here with a text that is next to it in the
memory. -/
theorem kprint_scan_leaves : IsString (stringAt (literal [37, 0, 72, 105]) 0) [37] ∧
    kprintReads (literal [37, 0, 72, 105]) BUFF_SIZE .info 0 [] firstMessage = [0, 1, 2, 3, 4] ∧
    (kprint (literal [37, 0, 72, 105]) BUFF_SIZE .info 0 [] firstMessage).map
        (fun k => k.term.serial) =
      some [91, 48, 93, 32, 72, 105] :=
  ⟨isString_of (n := 1) (by decide) (by decide), by decide +kernel, by decide +kernel⟩

end NowOS
