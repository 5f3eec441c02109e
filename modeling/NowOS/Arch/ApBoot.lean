import NowOS.Arch.Smp
import NowOS.Lib.Runs

set_option autoImplicit false

/-! # The boot of the other CPUs (`arch/smp.c`, `boot/boot.s`)

The boot processor (BSP) goes through the recorded APIC ids. It sends INIT and STARTUP to each other
processor (AP) and waits until the counter `ap_cpu_id` says that it runs. The AP takes a number from
the counter by one locked instruction, finds its stack by the number, and calls `init_ap`. The BSP
does not wait for that: several APs are in their boot code at once.

The events are the accesses of the processors to what they share, in any order. -/

namespace NowOS

/-! ## The stacks -/

/-- `num_pages` of `init_smp`. -/
def apStackPages (apicCpuCount : Nat) : Nat :=
  alignUp (mul32 THREAD_STACK_SIZE apicCpuCount) PAGE_SIZE / PAGE_SIZE

/-- The table `ap_init_stacks` after the loop of `init_smp`, which writes `MAX_CPU_COUNT`
entries. -/
def initStacks (stackPages : Nat) (table : Nat → Nat) : Nat → Nat :=
  ((List.range MAX_CPU_COUNT).foldl
    (fun (t : (Nat → Nat) × Nat) i => (Function.update t.1 i t.2, add32 t.2 THREAD_STACK_SIZE))
    (table, add32 stackPages THREAD_STACK_SIZE)).1

theorem initStacks_apply {stackPages : Nat} (hpages : stackPages + 9216 < W32) (table : Nat → Nat)
    {k : Nat} (hk : k < MAX_CPU_COUNT) :
    initStacks stackPages table k = stackPages + 1024 * (k + 1) := by
  have hnext : ∀ n, n < 8 → add32 (stackPages + 1024 * (n + 1)) THREAD_STACK_SIZE =
      stackPages + 1024 * (n + 1 + 1) := by
    intro n hn
    have hle : stackPages + 1024 * (n + 1) + 1024 ≤ stackPages + 9216 := by omega
    unfold THREAD_STACK_SIZE
    rw [add32_of_lt (hle.trans_lt hpages), Nat.mul_succ 1024 (n + 1), Nat.add_assoc]
  -- after `n` turns the first `n` entries are written
  have hloop : ∀ n, n ≤ 8 → ∀ r : (Nat → Nat) × Nat,
      (List.range n).foldl (fun (t : (Nat → Nat) × Nat) i =>
        (Function.update t.1 i t.2, add32 t.2 THREAD_STACK_SIZE))
        (table, add32 stackPages THREAD_STACK_SIZE) = r →
      r.2 = stackPages + 1024 * (n + 1) ∧ ∀ k, k < n → r.1 k = stackPages + 1024 * (k + 1) := by
    intro n
    induction n with
    | zero =>
        rintro - r rfl
        refine ⟨add32_of_lt ?_, fun k hk => absurd hk (Nat.not_lt_zero k)⟩
        unfold THREAD_STACK_SIZE
        omega
    | succ n ih =>
        rintro hn r rfl
        obtain ⟨hsp, htable⟩ := ih (by omega) _ rfl
        rw [List.range_succ, List.foldl_append, List.foldl_cons, List.foldl_nil]
        refine ⟨?_, fun k hk => ?_⟩
        · exact (congrArg (add32 · THREAD_STACK_SIZE) hsp).trans (hnext n (by omega))
        · by_cases hkn : k = n
          · rw [hkn]
            exact (Function.update_self ..).trans hsp
          · exact (Function.update_of_ne hkn ..).trans (htable k (by omega))
  exact (hloop MAX_CPU_COUNT (by decide) _ rfl).2 k hk

/-! ## The processors -/

/-- Where an AP is. Its number is in `esi` after the locked instruction. -/
inductive ApPoint
  | off
  | waitStartup
  | entered
  | numbered (k : Nat)
  | stacked (k esp : Nat)
  | inKernel (processorId esp : Nat)
  deriving DecidableEq, Repr

/-- Where the BSP is in the loop of `init_smp`: at the turn `i`, between INIT and STARTUP, waiting,
or behind the loop. -/
inductive BspPoint
  | turn (i : Nat)
  | initSent (i : Nat)
  | waiting (i : Nat)
  | done
  deriving DecidableEq, Repr

structure Booting where
  bsp : BspPoint
  activeCpus : Nat
  apCpuId : Nat
  ap : UInt8 → ApPoint

/-- What `init_smp` works with: the recorded ids, its own id, and the pages for the stacks. -/
structure SmpConfig where
  acpi : Acpi
  bspId : UInt8
  stackPages : Nat
  table : Nat → Nat

inductive BootEvent
  | bsp
  | ap (id : UInt8)
  deriving DecidableEq, Repr

namespace SmpConfig

variable (cfg : SmpConfig)

/-- The stack of the AP with the number `k`. -/
def stackOf (k : Nat) : Nat := initStacks cfg.stackPages cfg.table k

/-- The next access of the BSP. INIT stops a processor whatever it does; STARTUP is for a processor
that waits for it. The counter is read as a `uint16_t`. -/
def bspStep (s : Booting) : Booting :=
  match s.bsp with
  | .turn i =>
      if i < cfg.acpi.apicCpuCount then
        if cfg.acpi.apicCpuIds i = cfg.bspId then { s with bsp := .turn (i + 1) }
        else
          { s with
            bsp := .initSent i
            ap := Function.update s.ap (cfg.acpi.apicCpuIds i) .waitStartup }
      else { s with bsp := .done }
  | .initSent i =>
      { s with
        bsp := .waiting i
        ap := Function.update s.ap (cfg.acpi.apicCpuIds i)
          (if s.ap (cfg.acpi.apicCpuIds i) = .waitStartup then .entered
            else s.ap (cfg.acpi.apicCpuIds i)) }
  | .waiting i =>
      if s.apCpuId % 65536 = s.activeCpus then
        { s with bsp := .turn (i + 1), activeCpus := (s.activeCpus + 1) % 65536 }
      else s
  | .done => s

/-- The next access of an AP: `lock xadd`, the load of the stack pointer, and the way to
`init_ap`. -/
def apStep (id : UInt8) (s : Booting) : Booting :=
  match s.ap id with
  | .entered =>
      { s with
        apCpuId := (s.apCpuId + 1) % W32
        ap := Function.update s.ap id (.numbered s.apCpuId) }
  | .numbered k => { s with ap := Function.update s.ap id (.stacked k (cfg.stackOf k)) }
  | .stacked k esp => { s with ap := Function.update s.ap id (.inKernel (add32 k 1) esp) }
  | _ => s

def exec : BootEvent → Booting → Booting
  | .bsp, s => cfg.bspStep s
  | .ap id, s => cfg.apStep id s

/-- `init_smp` before its loop. -/
def start : Booting := ⟨.turn 0, 1, 0, fun _ => .off⟩

def Reachable : Booting → Prop := Reach (· = start) fun e s s' => cfg.exec e s = s'

/-- A sequence of accesses. -/
def run (es : List BootEvent) : Booting := es.foldl (fun s e => cfg.exec e s) start

theorem reachable_run (es : List BootEvent) : cfg.Reachable (cfg.run es) := by
  have hfold : ∀ (es : List BootEvent) s, cfg.Reachable s →
      cfg.Reachable (es.foldl (fun s e => cfg.exec e s) s) := by
    intro es
    induction es with
    | nil => exact fun s hs => hs
    | cons e es ih => exact fun s hs => ih _ (hs.next e rfl)
  exact hfold es start (.start rfl)

/-! ## The order of the APs -/

/-- The APs before the turn `i`. -/
def apsBefore (i : Nat) : List UInt8 := initSmp { cfg.acpi with apicCpuCount := i } cfg.bspId

theorem apsBefore_succ (i : Nat) :
    cfg.apsBefore (i + 1) = cfg.apsBefore i ++
      if cfg.acpi.apicCpuIds i = cfg.bspId then [] else [cfg.acpi.apicCpuIds i] := by
  unfold apsBefore initSmp
  rw [List.range_succ, List.filterMap_append]
  congr 1
  split <;> simp [*]

theorem mem_apsBefore {i : Nat} {id : UInt8} :
    id ∈ cfg.apsBefore i ↔ id ≠ cfg.bspId ∧ ∃ j, j < i ∧ cfg.acpi.apicCpuIds j = id := by
  unfold apsBefore initSmp
  simp only [List.mem_filterMap, List.mem_range]
  constructor
  · rintro ⟨j, hj, h⟩
    split at h
    next => cases h
    next hne =>
      cases h
      exact ⟨hne, j, hj, rfl⟩
  · rintro ⟨hne, j, hj, rfl⟩
    exact ⟨j, hj, if_neg hne⟩

theorem length_apsBefore_le (i : Nat) : (cfg.apsBefore i).length ≤ i := by
  unfold apsBefore initSmp
  exact (List.length_filterMap_le _ _).trans (List.length_range ..).le

/-! ## The invariant -/

/-- The AP has the number `k`, or the stack of the number. -/
def HasNumber (k : Nat) : ApPoint → Prop
  | .numbered k' => k' = k
  | .stacked k' esp => k' = k ∧ esp = cfg.stackOf k
  | .inKernel processorId esp => processorId = k + 1 ∧ esp = cfg.stackOf k
  | _ => False

/-- Where the BSP is, and which APs have a number: `q`, in the order of their numbers. The others
are off, but for the one that the BSP is starting. -/
inductive Phase (s : Booting) : List UInt8 → Prop
  | turn (i : Nat) (hle : i ≤ cfg.acpi.apicCpuCount) (hbsp : s.bsp = .turn i)
      (hoff : ∀ id, id ∉ cfg.apsBefore i → s.ap id = .off)
      (hactive : s.activeCpus = (cfg.apsBefore i).length + 1) : Phase s (cfg.apsBefore i)
  | initSent (i : Nat) (hlt : i < cfg.acpi.apicCpuCount) (hne : cfg.acpi.apicCpuIds i ≠ cfg.bspId)
      (hbsp : s.bsp = .initSent i)
      (hoff : ∀ id, id ∉ cfg.apsBefore i →
        s.ap id = if id = cfg.acpi.apicCpuIds i then .waitStartup else .off)
      (hactive : s.activeCpus = (cfg.apsBefore i).length + 1) : Phase s (cfg.apsBefore i)
  | waiting (i : Nat) (hlt : i < cfg.acpi.apicCpuCount) (hne : cfg.acpi.apicCpuIds i ≠ cfg.bspId)
      (hbsp : s.bsp = .waiting i)
      (hoff : ∀ id, id ∉ cfg.apsBefore i →
        s.ap id = if id = cfg.acpi.apicCpuIds i then .entered else .off)
      (hactive : s.activeCpus = (cfg.apsBefore i).length + 1) : Phase s (cfg.apsBefore i)
  | counted (i : Nat) (hlt : i < cfg.acpi.apicCpuCount) (hne : cfg.acpi.apicCpuIds i ≠ cfg.bspId)
      (hbsp : s.bsp = .waiting i)
      (hoff : ∀ id, id ∉ cfg.apsBefore (i + 1) → s.ap id = .off)
      (hactive : s.activeCpus = (cfg.apsBefore i).length + 1) : Phase s (cfg.apsBefore (i + 1))
  | done (hbsp : s.bsp = .done)
      (hoff : ∀ id, id ∉ cfg.apsBefore cfg.acpi.apicCpuCount → s.ap id = .off) :
      Phase s (cfg.apsBefore cfg.acpi.apicCpuCount)

structure Inv (s : Booting) (q : List UInt8) : Prop where
  phase : cfg.Phase s q
  count : s.apCpuId = q.length
  number : ∀ j id, q[j]? = some id → cfg.HasNumber j (s.ap id)

/-- The recorded ids are different, and there are no more of them than the tables have entries. -/
structure Valid : Prop where
  count_le : cfg.acpi.apicCpuCount ≤ MAX_CPU_COUNT
  nodup : ((List.range cfg.acpi.apicCpuCount).map cfg.acpi.apicCpuIds).Nodup

variable {cfg} {s : Booting} {q : List UInt8}

/-- The AP of a turn comes after those before it. -/
theorem Valid.notMem_apsBefore (hv : cfg.Valid) {i : Nat} (hi : i < cfg.acpi.apicCpuCount) :
    cfg.acpi.apicCpuIds i ∉ cfg.apsBefore i := by
  rintro hmem
  obtain ⟨-, j, hj, heq⟩ := cfg.mem_apsBefore.1 hmem
  have hinj := List.inj_on_of_nodup_map hv.nodup (List.mem_range.2 (hj.trans hi))
    (List.mem_range.2 hi) heq
  omega

theorem Valid.length_le (hv : cfg.Valid) {i : Nat} (hi : i ≤ cfg.acpi.apicCpuCount) :
    (cfg.apsBefore i).length ≤ 8 :=
  (cfg.length_apsBefore_le i).trans (hi.trans hv.count_le)

/-- What happens to a processor without a number is not seen by the others. -/
theorem number_update {f : UInt8 → ApPoint}
    (hnumber : ∀ j id, q[j]? = some id → cfg.HasNumber j (f id)) {id : UInt8} (hid : id ∉ q)
    (p : ApPoint) :
    ∀ j id', q[j]? = some id' → cfg.HasNumber j (Function.update f id p id') := by
  intro j id' hj
  have hne : id' ≠ id := by
    rintro rfl
    exact hid (List.mem_of_getElem? hj)
  rw [Function.update_of_ne hne]
  exact hnumber j id' hj

/-! ## The steps of the BSP -/

/-- The BSP waits until the AP that it has started has taken its number. -/
theorem Valid.waits (hv : cfg.Valid) {i : Nat} (hlt : i < cfg.acpi.apicCpuCount)
    (hcount : s.apCpuId = (cfg.apsBefore i).length)
    (hactive : s.activeCpus = (cfg.apsBefore i).length + 1) : s.apCpuId % 65536 ≠ s.activeCpus := by
  have hlen := hv.length_le hlt.le
  omega

theorem Valid.goes_on (hv : cfg.Valid) {i : Nat} (hlt : i < cfg.acpi.apicCpuCount)
    (hne : cfg.acpi.apicCpuIds i ≠ cfg.bspId) (hcount : s.apCpuId = (cfg.apsBefore (i + 1)).length)
    (hactive : s.activeCpus = (cfg.apsBefore i).length + 1) :
    s.apCpuId % 65536 = s.activeCpus ∧
      (s.activeCpus + 1) % 65536 = (cfg.apsBefore (i + 1)).length + 1 := by
  have hlen : (cfg.apsBefore (i + 1)).length ≤ 8 := hv.length_le hlt
  have hsucc : (cfg.apsBefore (i + 1)).length = (cfg.apsBefore i).length + 1 := by
    rw [cfg.apsBefore_succ, if_neg hne, List.length_append, List.length_singleton]
  omega

theorem Inv.bspStep (hv : cfg.Valid) (hi : cfg.Inv s q) : ∃ q', cfg.Inv (cfg.bspStep s) q' := by
  obtain ⟨hphase, hcount, hnumber⟩ := hi
  cases hphase with
  | turn i hle hbsp hoff hactive =>
      unfold SmpConfig.bspStep
      simp only [hbsp]
      by_cases hlt : i < cfg.acpi.apicCpuCount
      · rw [if_pos hlt]
        have hsucc := cfg.apsBefore_succ i
        by_cases hown : cfg.acpi.apicCpuIds i = cfg.bspId
        · rw [if_pos hown, List.append_nil] at hsucc
          rw [if_pos hown]
          refine ⟨cfg.apsBefore (i + 1), .turn (i + 1) hlt rfl ?_ ?_, ?_, ?_⟩
          all_goals
            rw [hsucc]
            assumption
        · rw [if_neg hown]
          have hnot := hv.notMem_apsBefore hlt
          refine ⟨cfg.apsBefore i, .initSent i hlt hown rfl ?_ hactive, hcount,
            number_update hnumber hnot _⟩
          intro id hid
          by_cases heq : id = cfg.acpi.apicCpuIds i
          · rw [if_pos heq, heq]
            exact Function.update_self ..
          · rw [if_neg heq]
            exact (Function.update_of_ne heq ..).trans (hoff id hid)
      · rw [if_neg hlt]
        obtain rfl : i = cfg.acpi.apicCpuCount := by omega
        exact ⟨_, .done rfl hoff, hcount, hnumber⟩
  | initSent i hlt hne hbsp hoff hactive =>
      have hnot := hv.notMem_apsBefore hlt
      have hwait : s.ap (cfg.acpi.apicCpuIds i) = .waitStartup := by rw [hoff _ hnot, if_pos rfl]
      unfold SmpConfig.bspStep
      simp only [hbsp, hwait, if_true]
      refine ⟨cfg.apsBefore i, .waiting i hlt hne rfl ?_ hactive, hcount,
        number_update hnumber hnot _⟩
      intro id hid
      by_cases heq : id = cfg.acpi.apicCpuIds i
      · rw [if_pos heq, heq]
        exact Function.update_self ..
      · have hold := hoff id hid
        rw [if_neg heq] at hold ⊢
        exact (Function.update_of_ne heq ..).trans hold
  | waiting i hlt hne hbsp hoff hactive =>
      have hspin := hv.waits hlt hcount hactive
      unfold SmpConfig.bspStep
      simp only [hbsp, if_neg hspin]
      exact ⟨_, .waiting i hlt hne hbsp hoff hactive, hcount, hnumber⟩
  | counted i hlt hne hbsp hoff hactive =>
      obtain ⟨hgo, hnext⟩ := hv.goes_on hlt hne hcount hactive
      unfold SmpConfig.bspStep
      simp only [hbsp, if_pos hgo]
      exact ⟨_, .turn (i + 1) hlt rfl hoff hnext, hcount, hnumber⟩
  | done hbsp hoff =>
      unfold SmpConfig.bspStep
      simp only [hbsp]
      exact ⟨_, .done hbsp hoff, hcount, hnumber⟩

/-! ## The steps of an AP -/

/-- A processor without a number takes no step that is seen, but for the locked instruction. -/
theorem apStep_off {id : UInt8} (h : s.ap id = .off ∨ s.ap id = .waitStartup) :
    cfg.apStep id s = s := by
  unfold apStep
  rcases h with h | h <;> simp only [h]

/-- The phase does not depend on the APs with a number, nor on the counter. -/
theorem Phase.congr {s' : Booting} (hphase : cfg.Phase s q) (hbsp : s'.bsp = s.bsp)
    (hactive : s'.activeCpus = s.activeCpus) (hap : ∀ id, id ∉ q → s'.ap id = s.ap id) :
    cfg.Phase s' q := by
  cases hphase with
  | turn i hle hb hoff ha =>
      exact .turn i hle (hbsp.trans hb) (fun id hid => (hap id hid).trans (hoff id hid))
        (hactive.trans ha)
  | initSent i hlt hne hb hoff ha =>
      exact .initSent i hlt hne (hbsp.trans hb) (fun id hid => (hap id hid).trans (hoff id hid))
        (hactive.trans ha)
  | waiting i hlt hne hb hoff ha =>
      exact .waiting i hlt hne (hbsp.trans hb) (fun id hid => (hap id hid).trans (hoff id hid))
        (hactive.trans ha)
  | counted i hlt hne hb hoff ha =>
      exact .counted i hlt hne (hbsp.trans hb) (fun id hid => (hap id hid).trans (hoff id hid))
        (hactive.trans ha)
  | done hb hoff => exact .done (hbsp.trans hb) fun id hid => (hap id hid).trans (hoff id hid)

theorem Valid.nodup_apsBefore (hv : cfg.Valid) {i : Nat} (hi : i ≤ cfg.acpi.apicCpuCount) :
    (cfg.apsBefore i).Nodup := by
  induction i with
  | zero => exact List.nodup_nil
  | succ i ih =>
      have hnot := hv.notMem_apsBefore hi
      rw [cfg.apsBefore_succ]
      split
      · rw [List.append_nil]
        exact ih (Nat.le_of_succ_le hi)
      · exact List.nodup_append.2 ⟨ih (Nat.le_of_succ_le hi), List.nodup_singleton _, by
          intro id hid id' hid' heq
          rw [List.mem_singleton.1 hid'] at heq
          exact hnot (heq ▸ hid)⟩

/-- The APs with a number are the first ones. -/
theorem Phase.eq_apsBefore (hphase : cfg.Phase s q) :
    ∃ i, i ≤ cfg.acpi.apicCpuCount ∧ q = cfg.apsBefore i := by
  cases hphase with
  | turn i hle => exact ⟨i, hle, rfl⟩
  | initSent i hlt => exact ⟨i, hlt.le, rfl⟩
  | waiting i hlt => exact ⟨i, hlt.le, rfl⟩
  | counted i hlt => exact ⟨i + 1, hlt, rfl⟩
  | done => exact ⟨_, le_rfl, rfl⟩

theorem Phase.nodup (hv : cfg.Valid) (hphase : cfg.Phase s q) : q.Nodup := by
  obtain ⟨i, hi, rfl⟩ := hphase.eq_apsBefore
  exact hv.nodup_apsBefore hi

theorem Phase.length_le (hv : cfg.Valid) (hphase : cfg.Phase s q) : q.length ≤ 8 := by
  obtain ⟨i, hi, rfl⟩ := hphase.eq_apsBefore
  exact hv.length_le hi

/-- An AP with a number goes on with it. -/
theorem Inv.apStep_numbered (hv : cfg.Valid) (hi : cfg.Inv s q) {id : UInt8} (hid : id ∈ q) :
    cfg.Inv (cfg.apStep id s) q := by
  obtain ⟨j, hj⟩ := List.mem_iff_getElem?.1 hid
  have hnum := hi.number j id hj
  -- another processor of the list has another position
  have hother : ∀ p, cfg.HasNumber j p → ∀ j' id', q[j']? = some id' →
      cfg.HasNumber j' (Function.update s.ap id p id') := by
    intro p hp j' id' hj'
    by_cases heq : id' = id
    · subst heq
      have hlt : j' < q.length := (List.getElem?_eq_some_iff.1 hj').1
      have hjj : j' = j := (List.getElem?_inj hlt (hi.phase.nodup hv)).1 (hj'.trans hj.symm)
      rw [hjj, Function.update_self]
      exact hp
    · rw [Function.update_of_ne heq]
      exact hi.number j' id' hj'
  have hset : ∀ p, cfg.HasNumber j p → cfg.Inv { s with ap := Function.update s.ap id p } q := by
    intro p hp
    refine ⟨hi.phase.congr rfl rfl ?_, hi.count, hother p hp⟩
    intro id' hid'
    have hne : id' ≠ id := by
      rintro rfl
      exact hid' hid
    exact Function.update_of_ne hne ..
  unfold apStep
  cases hp : s.ap id with
  | off =>
      rw [hp] at hnum
      exact hnum.elim
  | waitStartup =>
      rw [hp] at hnum
      exact hnum.elim
  | entered =>
      rw [hp] at hnum
      exact hnum.elim
  | numbered k =>
      rw [hp] at hnum
      obtain rfl : k = j := hnum
      exact hset _ ⟨rfl, rfl⟩
  | stacked k esp =>
      rw [hp] at hnum
      obtain ⟨rfl, rfl⟩ := hnum
      refine hset _ ⟨add32_of_lt ?_, rfl⟩
      have hlt : k < q.length := (List.getElem?_eq_some_iff.1 hj).1
      have hlen := hi.phase.length_le hv
      unfold W32
      omega
  | inKernel n esp => exact hi

theorem Inv.apStep (hv : cfg.Valid) (hi : cfg.Inv s q) (id : UInt8) :
    ∃ q', cfg.Inv (cfg.apStep id s) q' := by
  by_cases hid : id ∈ q
  · exact ⟨q, hi.apStep_numbered hv hid⟩
  have hoff : s.ap id = .off ∨ s.ap id = .waitStartup → ∃ q', cfg.Inv (cfg.apStep id s) q' := by
    intro h
    rw [apStep_off h]
    exact ⟨q, hi⟩
  obtain ⟨hphase, hcount, hnumber⟩ := hi
  have hlen := hphase.length_le hv
  cases hphase with
  | turn i hle hbsp hap hactive => exact hoff (Or.inl (hap id hid))
  | initSent i hlt hne hbsp hap hactive =>
      have hp := hap id hid
      split at hp
      · exact hoff (Or.inr hp)
      · exact hoff (Or.inl hp)
  | waiting i hlt hne hbsp hap hactive =>
      have hp := hap id hid
      split at hp
      next heq =>
        -- the AP takes the next number
        have hsucc : cfg.apsBefore (i + 1) = cfg.apsBefore i ++ [id] := by
          rw [cfg.apsBefore_succ, if_neg hne, heq]
        have hmod : (s.apCpuId + 1) % W32 = (cfg.apsBefore i).length + 1 := by
          rw [hcount]
          unfold W32
          omega
        refine ⟨cfg.apsBefore (i + 1), ?_⟩
        unfold SmpConfig.apStep
        simp only [hp]
        refine ⟨.counted i hlt hne hbsp ?_ hactive, ?_, ?_⟩
        · intro id' hid'
          rw [hsucc, List.mem_append, List.mem_singleton, not_or] at hid'
          have hold := hap id' hid'.1
          rw [if_neg (heq ▸ hid'.2)] at hold
          exact (Function.update_of_ne hid'.2 ..).trans hold
        · rw [hsucc, List.length_append, List.length_singleton]
          exact hmod
        · intro j id' hj
          rw [hsucc] at hj
          by_cases hlt : j < (cfg.apsBefore i).length
          · rw [List.getElem?_append_left hlt] at hj
            exact number_update hnumber hid _ j id' hj
          · obtain rfl : j = (cfg.apsBefore i).length := by
              have := (List.getElem?_eq_some_iff.1 hj).1
              rw [List.length_append, List.length_singleton] at this
              omega
            rw [List.getElem?_concat_length] at hj
            cases hj
            dsimp only
            rw [Function.update_self, hcount]
            exact rfl
      next => exact hoff (Or.inl hp)
  | counted i hlt hne hbsp hap hactive => exact hoff (Or.inl (hap id hid))
  | done hbsp hap => exact hoff (Or.inl (hap id hid))

theorem Reachable.inv (hv : cfg.Valid) (hs : cfg.Reachable s) : ∃ q, cfg.Inv s q := by
  refine hs.invariant (I := fun s => ∃ q, cfg.Inv s q) ?_ ?_
  · rintro s rfl
    refine ⟨cfg.apsBefore 0, .turn 0 (Nat.zero_le _) rfl (fun _ _ => rfl) rfl, rfl, ?_⟩
    intro j id hj
    cases hj
  · rintro e s s' ⟨q, hi⟩ rfl
    cases e with
    | bsp => exact hi.bspStep hv
    | ap id => exact hi.apStep hv id

/-! ## Numbers and stacks -/

theorem apsBefore_prefix {i n : Nat} (h : i ≤ n) : cfg.apsBefore i <+: cfg.apsBefore n := by
  induction h with
  | refl => exact List.prefix_refl _
  | step _ ih =>
      rw [cfg.apsBefore_succ]
      exact ih.trans (List.prefix_append _ _)

/-- The pages that `init_smp` takes hold a stack for every recorded processor. -/
theorem stacks_in_pages {n : Nat} (hn : n ≤ 8) : 1024 * n ≤ apStackPages n * PAGE_SIZE := by
  unfold apStackPages THREAD_STACK_SIZE PAGE_SIZE
  interval_cases n <;> decide

/-- A processor without a number is not in the kernel. -/
theorem Phase.outside (hphase : cfg.Phase s q) {id : UInt8} (hid : id ∉ q) :
    s.ap id = .off ∨ s.ap id = .waitStartup ∨ s.ap id = .entered := by
  cases hphase with
  | turn i _ _ hoff => exact Or.inl (hoff id hid)
  | initSent i _ _ _ hoff =>
      rw [hoff id hid]
      split <;> simp
  | waiting i _ _ _ hoff =>
      rw [hoff id hid]
      split <;> simp
  | counted i _ _ _ hoff => exact Or.inl (hoff id hid)
  | done _ hoff => exact Or.inl (hoff id hid)

/-- An AP in the kernel has the number of its position. -/
theorem Inv.inKernel (hi : cfg.Inv s q) {id : UInt8} {n esp : Nat}
    (hid : s.ap id = .inKernel n esp) :
    ∃ j, q[j]? = some id ∧ n = j + 1 ∧ esp = cfg.stackOf j := by
  have hmem : id ∈ q := by
    by_contra hnot
    rcases hi.phase.outside hnot with h | h | h <;> rw [hid] at h <;> cases h
  obtain ⟨j, hj⟩ := List.mem_iff_getElem?.1 hmem
  have hnumber := hi.number j id hj
  rw [hid] at hnumber
  exact ⟨j, hj, hnumber.1, hnumber.2⟩

/-- **The boot of the APs, in any order of the accesses.** An AP that calls `init_ap` does so with
its position among the processors to start, counted from 1, and on a stack of its own: the kilobyte
below its stack pointer is in the pages that `init_smp` has taken, and no two APs have parts of
one. -/
theorem ap_boot_safe (hv : cfg.Valid) (hpages : cfg.stackPages + 9216 < W32)
    (hs : cfg.Reachable s) :
    (∀ id n esp, s.ap id = .inKernel n esp →
      (initSmp cfg.acpi cfg.bspId)[n - 1]? = some id ∧ 1 ≤ n ∧ esp = cfg.stackPages + 1024 * n ∧
        esp ≤ cfg.stackPages + apStackPages cfg.acpi.apicCpuCount * PAGE_SIZE) ∧
    ∀ id id' n n' esp esp', id ≠ id' → s.ap id = .inKernel n esp → s.ap id' = .inKernel n' esp' →
      n ≠ n' ∧ (esp + 1024 ≤ esp' ∨ esp' + 1024 ≤ esp) := by
  obtain ⟨q, hi⟩ := hs.inv hv
  have hlen := hi.phase.length_le hv
  have hap : ∀ id n esp, s.ap id = .inKernel n esp →
      ∃ j, q[j]? = some id ∧ j < q.length ∧ n = j + 1 ∧ esp = cfg.stackPages + 1024 * (j + 1) := by
    intro id n esp hid
    obtain ⟨j, hj, hn, hesp⟩ := hi.inKernel hid
    have hlt : j < q.length := (List.getElem?_eq_some_iff.1 hj).1
    have hmax : j < MAX_CPU_COUNT := hlt.trans_le hlen
    exact ⟨j, hj, hlt, hn, hesp.trans (initStacks_apply hpages _ hmax)⟩
  refine ⟨?_, ?_⟩
  · intro id n esp hid
    obtain ⟨j, hj, hlt, rfl, rfl⟩ := hap id n esp hid
    obtain ⟨i, hle, rfl⟩ := hi.phase.eq_apsBefore
    have hpre : cfg.apsBefore i <+: initSmp cfg.acpi cfg.bspId := apsBefore_prefix hle
    have hcount := cfg.length_apsBefore_le i
    have hroom := stacks_in_pages hv.count_le
    refine ⟨?_, by omega, rfl, ?_⟩
    · obtain ⟨rest, hrest⟩ := hpre
      rw [← hrest, Nat.add_sub_cancel, List.getElem?_append_left hlt]
      exact hj
    · omega
  · intro id id' n n' esp esp' hne hid hid'
    obtain ⟨j, hj, -, rfl, rfl⟩ := hap id n esp hid
    obtain ⟨j', hj', -, rfl, rfl⟩ := hap id' n' esp' hid'
    have hjj : j ≠ j' := by
      rintro rfl
      exact hne (Option.some.inj (hj.symm.trans hj'))
    omega

/-- Three processors, with stacks at `0x118000`. -/
def three : SmpConfig :=
  ⟨{ Acpi.bss with apicCpuCount := 3, apicCpuIds := UInt8.ofNat }, 0, 0x118000, fun _ => 0⟩

theorem valid_three : three.Valid := ⟨by decide, by decide⟩

/-- The second AP gets to the kernel before the first one. -/
def overtaking : List BootEvent :=
  [.bsp, .bsp, .bsp, .ap 1, .bsp, .bsp, .bsp, .ap 2, .ap 2, .ap 1, .ap 2, .ap 1]

theorem ap_boot_safe_three :
    (three.run overtaking).ap 1 = .inKernel 1 0x118400 ∧
      (three.run overtaking).ap 2 = .inKernel 2 0x118800 ∧ 0x118400 + 1024 ≤ 0x118800 := by
  have hap1 : (three.run overtaking).ap 1 = .inKernel 1 0x118400 := by decide +kernel
  have hap2 : (three.run overtaking).ap 2 = .inKernel 2 0x118800 := by decide +kernel
  have hsafe := ap_boot_safe valid_three (by decide +kernel) (three.reachable_run overtaking)
  refine ⟨hap1, hap2, ?_⟩
  rcases (hsafe.2 1 2 _ _ _ _ (by decide) hap1 hap2).2 with h | h
  · exact h
  · exact absurd h (by decide)

/-! ## Progress -/

/-- How many accesses an AP is away from the kernel. -/
def apRank : ApPoint → Nat
  | .off => 5
  | .waitStartup => 4
  | .entered => 3
  | .numbered _ => 2
  | .stacked _ _ => 1
  | .inKernel _ _ => 0

/-- How many accesses the BSP is away from the end of its loop, if it need not wait. -/
def bspRank (cfg : SmpConfig) : BspPoint → Nat
  | .turn i => 3 * (cfg.acpi.apicCpuCount - i) + 1
  | .initSent i => 3 * (cfg.acpi.apicCpuCount - i)
  | .waiting i => 3 * (cfg.acpi.apicCpuCount - i) - 1
  | .done => 0

def rank (cfg : SmpConfig) (s : Booting) : Nat :=
  cfg.bspRank s.bsp + ((initSmp cfg.acpi cfg.bspId).map fun id => apRank (s.ap id)).sum

/-- The loop has ended and every AP is in the kernel. -/
def Booted (cfg : SmpConfig) (s : Booting) : Prop :=
  s.bsp = .done ∧ ∀ id ∈ initSmp cfg.acpi cfg.bspId, ∃ n esp, s.ap id = .inKernel n esp

theorem apsRank_update_lt {f : UInt8 → ApPoint} {l : List UInt8} {id : UInt8} {p : ApPoint}
    (hid : id ∈ l) (hlt : apRank p < apRank (f id)) :
    (l.map fun id' => apRank (Function.update f id p id')).sum <
      (l.map fun id' => apRank (f id')).sum := by
  have hself : apRank (Function.update f id p id) < apRank (f id) := by
    rw [Function.update_self]
    exact hlt
  refine List.sum_lt_sum _ _ (fun id' _ => ?_) ⟨id, hid, hself⟩
  by_cases heq : id' = id
  · rw [heq]
    exact hself.le
  · rw [Function.update_of_ne heq]

theorem ids_mem_initSmp {i : Nat} (hlt : i < cfg.acpi.apicCpuCount)
    (hne : cfg.acpi.apicCpuIds i ≠ cfg.bspId) :
    cfg.acpi.apicCpuIds i ∈ initSmp cfg.acpi cfg.bspId :=
  cfg.mem_apsBefore.2 ⟨hne, i, hlt, rfl⟩

/-- Only processors that are to be started leave the state they had. -/
theorem Inv.mem_initSmp (hi : cfg.Inv s q) {id : UInt8} (hid : s.ap id ≠ .off) :
    id ∈ initSmp cfg.acpi cfg.bspId := by
  by_cases hq : id ∈ q
  · obtain ⟨i, hle, rfl⟩ := hi.phase.eq_apsBefore
    have hpre : cfg.apsBefore i <+: initSmp cfg.acpi cfg.bspId := apsBefore_prefix hle
    exact hpre.subset hq
  · cases hi.phase with
    | turn i _ _ hoff => exact absurd (hoff id hq) hid
    | initSent i hlt hne _ hoff =>
        by_cases heq : id = cfg.acpi.apicCpuIds i
        · rw [heq]
          exact ids_mem_initSmp hlt hne
        · exact absurd ((hoff id hq).trans (if_neg heq)) hid
    | waiting i hlt hne _ hoff =>
        by_cases heq : id = cfg.acpi.apicCpuIds i
        · rw [heq]
          exact ids_mem_initSmp hlt hne
        · exact absurd ((hoff id hq).trans (if_neg heq)) hid
    | counted i _ _ _ hoff => exact absurd (hoff id hq) hid
    | done _ hoff => exact absurd (hoff id hq) hid

/-- An access of the BSP brings it nearer to the end, unless it waits. -/
theorem Inv.bspStep_rank (hv : cfg.Valid) (hi : cfg.Inv s q) :
    cfg.bspStep s = s ∨ cfg.rank (cfg.bspStep s) < cfg.rank s := by
  unfold SmpConfig.bspStep rank
  cases hi.phase with
  | turn i hle hbsp hoff hactive =>
      refine Or.inr ?_
      simp only [hbsp]
      by_cases hlt : i < cfg.acpi.apicCpuCount
      · by_cases hown : cfg.acpi.apicCpuIds i = cfg.bspId
        · simp only [if_pos hlt, if_pos hown, bspRank]
          omega
        · have hnot := hv.notMem_apsBefore hlt
          have hrank := apsRank_update_lt (f := s.ap) (p := .waitStartup)
            (ids_mem_initSmp hlt hown) (by rw [hoff _ hnot]; decide)
          simp only [if_pos hlt, if_neg hown, bspRank]
          omega
      · simp only [if_neg hlt, bspRank]
        omega
  | initSent i hlt hne hbsp hoff hactive =>
      have hnot := hv.notMem_apsBefore hlt
      have hwait : s.ap (cfg.acpi.apicCpuIds i) = .waitStartup := by rw [hoff _ hnot, if_pos rfl]
      have hrank := apsRank_update_lt (f := s.ap) (p := .entered) (ids_mem_initSmp hlt hne)
        (by rw [hwait]; decide)
      refine Or.inr ?_
      simp only [hbsp, hwait, if_true, bspRank]
      omega
  | waiting i hlt hne hbsp hoff hactive =>
      have hspin := hv.waits hlt hi.count hactive
      refine Or.inl ?_
      simp only [hbsp, if_neg hspin]
  | counted i hlt hne hbsp hoff hactive =>
      have hgo := (hv.goes_on hlt hne hi.count hactive).1
      refine Or.inr ?_
      simp only [hbsp, if_pos hgo, bspRank]
      omega
  | done hbsp hoff =>
      refine Or.inl ?_
      simp only [hbsp]

/-- An access of an AP brings it nearer to the kernel, unless it is not running or there already. -/
theorem Inv.apStep_rank (hi : cfg.Inv s q) (id : UInt8) :
    cfg.apStep id s = s ∨ cfg.rank (cfg.apStep id s) < cfg.rank s := by
  have hset : ∀ p, s.ap id ≠ .off → apRank p < apRank (s.ap id) →
      cfg.bspRank s.bsp + ((initSmp cfg.acpi cfg.bspId).map fun id' =>
        apRank (Function.update s.ap id p id')).sum < cfg.rank s := by
    intro p hon hlt
    exact Nat.add_lt_add_left (apsRank_update_lt (hi.mem_initSmp hon) hlt) _
  unfold SmpConfig.apStep
  cases hp : s.ap id with
  | off => exact Or.inl rfl
  | waitStartup => exact Or.inl rfl
  | inKernel n esp => exact Or.inl rfl
  | entered => exact Or.inr (hset _ (by simp [hp]) (by simp [hp, apRank]))
  | numbered k => exact Or.inr (hset _ (by simp [hp]) (by simp [hp, apRank]))
  | stacked k esp => exact Or.inr (hset _ (by simp [hp]) (by simp [hp, apRank]))

/-- As long as not all is done, some processor can make an access that changes something: the BSP
never waits for an AP that does not come. -/
theorem Inv.booted_or_moves (hv : cfg.Valid) (hi : cfg.Inv s q) :
    cfg.Booted s ∨ ∃ e, cfg.exec e s ≠ s := by
  have hbspMoves : (cfg.bspStep s).bsp ≠ s.bsp → cfg.Booted s ∨ ∃ e, cfg.exec e s ≠ s :=
    fun hne => Or.inr ⟨.bsp, fun heq => hne (congrArg Booting.bsp heq)⟩
  have hapMoves : ∀ id, (cfg.apStep id s).ap id ≠ s.ap id → ∃ e, cfg.exec e s ≠ s :=
    fun id hne => ⟨.ap id, fun heq => hne (congrFun (congrArg Booting.ap heq) id)⟩
  cases hi.phase with
  | turn i hle hbsp hoff hactive =>
      refine hbspMoves ?_
      unfold SmpConfig.bspStep
      simp only [hbsp]
      split_ifs <;> simp
  | initSent i hlt hne hbsp hoff hactive =>
      refine hbspMoves ?_
      unfold SmpConfig.bspStep
      simp [hbsp]
  | waiting i hlt hne hbsp hoff hactive =>
      have hent : s.ap (cfg.acpi.apicCpuIds i) = .entered := by
        rw [hoff _ (hv.notMem_apsBefore hlt), if_pos rfl]
      refine Or.inr (hapMoves (cfg.acpi.apicCpuIds i) ?_)
      unfold SmpConfig.apStep
      simp [hent]
  | counted i hlt hne hbsp hoff hactive =>
      have hgo := (hv.goes_on hlt hne hi.count hactive).1
      refine hbspMoves ?_
      unfold SmpConfig.bspStep
      simp [hbsp, hgo]
  | done hbsp hoff =>
      by_cases hall : ∀ id ∈ initSmp cfg.acpi cfg.bspId, ∃ n esp, s.ap id = .inKernel n esp
      · exact Or.inl ⟨hbsp, hall⟩
      · push Not at hall
        obtain ⟨id, hid, hnot⟩ := hall
        obtain ⟨j, hj⟩ := List.mem_iff_getElem?.1 hid
        have hnumber := hi.number j id hj
        refine Or.inr (hapMoves id ?_)
        unfold SmpConfig.apStep
        cases hp : s.ap id with
        | off => exact (hp ▸ hnumber : cfg.HasNumber j .off).elim
        | waitStartup => exact (hp ▸ hnumber : cfg.HasNumber j .waitStartup).elim
        | entered => exact (hp ▸ hnumber : cfg.HasNumber j .entered).elim
        | numbered k => simp
        | stacked k esp => simp
        | inKernel n esp => exact absurd hp (hnot n esp)

/-- **The boot of the APs ends.** In every state that is reached in any order of the accesses, every
access that changes something brings the boot nearer to its end, and such an access is possible
until the loop has ended and all APs are in the kernel. -/
theorem ap_boot_ends (hv : cfg.Valid) (hs : cfg.Reachable s) :
    (∀ e, cfg.exec e s = s ∨ cfg.rank (cfg.exec e s) < cfg.rank s) ∧
      (cfg.Booted s ∨ ∃ e, cfg.exec e s ≠ s) := by
  obtain ⟨q, hi⟩ := hs.inv hv
  refine ⟨fun e => ?_, hi.booted_or_moves hv⟩
  cases e with
  | bsp => exact hi.bspStep_rank hv
  | ap id => exact hi.apStep_rank id

/-- While the BSP waits for the first AP, some processor can go on. -/
theorem ap_boot_ends_three :
    ∃ e, three.exec e (three.run [.bsp, .bsp, .bsp]) ≠ three.run [.bsp, .bsp, .bsp] := by
  have hwaiting : ¬ three.Booted (three.run [.bsp, .bsp, .bsp]) := by
    rintro ⟨hdone, -⟩
    exact absurd hdone (by decide)
  exact (ap_boot_ends valid_three (three.reachable_run [.bsp, .bsp, .bsp])).2.resolve_left hwaiting

end SmpConfig

end NowOS
