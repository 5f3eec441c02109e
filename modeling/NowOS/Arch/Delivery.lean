import NowOS.Arch.Interrupts
import NowOS.Arch.IrqHandle
import NowOS.Arch.Unmask
import NowOS.Lib.Requests
import NowOS.Lib.Runs

set_option autoImplicit false

/-! # Delivery and acknowledgement of interrupts

One processor with its local APIC. Devices, the timer and other processors send vectors at any time;
the local APIC hands them to the processor while interrupts are on; the handler of the vector runs
with interrupts off, and the vector stays in service until the handler writes to `LAPIC_EOI`. The
handler of the timer may go on with another thread instead of returning.

The fact that does the work: what a handler has still to acknowledge is what its delivery has put in
service. So `settled`, the vectors in service after the rest of the handler, only grows by vectors
whose handlers do not acknowledge, and only a spurious interrupt, whose handler acknowledges an
interrupt that has not been delivered, makes it smaller. -/

namespace NowOS

open Requests

/-! ## The processor -/

/-- Where a processor is: in a thread, or in a handler that has still to do `rest`. -/
inductive HandlerPoint
  | thread
  | handler (rest : List Act)
  deriving DecidableEq, Repr

structure IntCpu where
  lapic : Requests Nat
  intFlag : Bool
  point : HandlerPoint
  deriving DecidableEq

/-- The machine: the addresses of the handlers, the processor, what it finds in `cr2`, and the
vectors that are sent to it. The local APIC takes no vectors below 16. -/
structure IntConfig where
  handler : Nat → BitVec 32
  lapicId : Nat
  cr2 : Nat
  sources : Finset Nat
  legal : ∀ v ∈ sources, 16 ≤ v ∧ v < 256

/-- The priority class of a vector. -/
def priorityClass (v : Nat) : Nat := v / 16

theorem priorityClass_mono : Monotone priorityClass := fun _ _ h => Nat.div_le_div_right h

inductive IntEvent
  | request (v : Nat)
  | deliver (v : Nat)
  | spurious
  | act
  | switch (intFlag : Bool)
  | iret
  | setInt (on : Bool)
  deriving DecidableEq, Repr

namespace IntConfig

variable (cfg : IntConfig)

/-- What `interrupt_handler` does for the vector `v`, which comes with the number of the handler
that the table leads to. -/
def handlerOf (v : Nat) : List Act :=
  interruptHandler cfg.lapicId cfg.cr2 (entryTarget cfg.handler v)

/-- The handler of `v` acknowledges. -/
def Acked (v : Nat) : Prop := Acknowledged (entryTarget cfg.handler v)

instance : DecidablePred cfg.Acked := fun v =>
  inferInstanceAs (Decidable (Acknowledged (entryTarget cfg.handler v)))

/-- One event. A handler that stops the processor stays where it is, with interrupts off; a thread
that the handler of the timer goes on with has interrupts on or off; and an interrupted thread had
them on. -/
def exec : IntEvent → IntCpu → Option IntCpu
  | .request v, s => if v ∈ cfg.sources then some { s with lapic := s.lapic.request v } else none
  | .deliver v, s =>
      if s.point = .thread ∧ s.intFlag = true then
        match s.lapic.accept priorityClass with
        | some (w, lapic) =>
            if w = v then some ⟨lapic, false, .handler (cfg.handlerOf v)⟩ else none
        | none => none
      else none
  | .spurious, s =>
      if s.point = .thread ∧ s.intFlag = true then
        some { s with intFlag := false, point := .handler (cfg.handlerOf APIC_SPURIOUS_IRQ) }
      else none
  | .act, s =>
      match s.point with
      | .handler (.lapicEoi :: rest) => some { s with lapic := s.lapic.eoi, point := .handler rest }
      | .handler (.haltSystem :: _) => some s
      | .handler (.panic _ :: _) => some s
      | .handler (_ :: rest) => some { s with point := .handler rest }
      | _ => none
  | .switch intFlag, s =>
      match s.point with
      | .handler (.timerHandler :: _) => some { s with intFlag := intFlag, point := .thread }
      | _ => none
  | .iret, s =>
      match s.point with
      | .handler [] => some { s with intFlag := true, point := .thread }
      | _ => none
  | .setInt on, s => if s.point = .thread then some { s with intFlag := on } else none

/-- What an event can do. -/
inductive Moves : IntEvent → IntCpu → IntCpu → Prop
  | request {v : Nat} {s : IntCpu} (h : v ∈ cfg.sources) :
      Moves (.request v) s { s with lapic := s.lapic.request v }
  | deliver {v : Nat} {lapic : Requests Nat} {s : IntCpu} (hpoint : s.point = .thread)
      (hint : s.intFlag = true) (haccept : s.lapic.accept priorityClass = some (v, lapic)) :
      Moves (.deliver v) s ⟨lapic, false, .handler (cfg.handlerOf v)⟩
  | spurious {s : IntCpu} (hpoint : s.point = .thread) :
      Moves .spurious s
        { s with intFlag := false, point := .handler (cfg.handlerOf APIC_SPURIOUS_IRQ) }
  | eoi {rest : List Act} {s : IntCpu} (hpoint : s.point = .handler (.lapicEoi :: rest)) :
      Moves .act s { s with lapic := s.lapic.eoi, point := .handler rest }
  | pass {a : Act} {rest : List Act} {s : IntCpu} (ha : a ≠ .lapicEoi)
      (hpoint : s.point = .handler (a :: rest)) : Moves .act s { s with point := .handler rest }
  | stopped {s : IntCpu} : Moves .act s s
  | switch {intFlag : Bool} {rest : List Act} {s : IntCpu}
      (hpoint : s.point = .handler (.timerHandler :: rest)) :
      Moves (.switch intFlag) s { s with intFlag := intFlag, point := .thread }
  | iret {s : IntCpu} (hpoint : s.point = .handler []) :
      Moves .iret s { s with intFlag := true, point := .thread }
  | setInt {on : Bool} {s : IntCpu} (hpoint : s.point = .thread) :
      Moves (.setInt on) s { s with intFlag := on }

theorem moves_of_exec {e : IntEvent} {s s' : IntCpu} (h : cfg.exec e s = some s') :
    cfg.Moves e s s' := by
  cases e with
  | request v =>
      simp only [exec, Option.ite_none_right_eq_some, Option.some.injEq] at h
      obtain ⟨hv, rfl⟩ := h
      exact .request hv
  | deliver v =>
      simp only [exec, Option.ite_none_right_eq_some] at h
      obtain ⟨⟨hpoint, hint⟩, h⟩ := h
      split at h
      next w lapic haccept =>
        simp only [Option.ite_none_right_eq_some, Option.some.injEq] at h
        obtain ⟨rfl, rfl⟩ := h
        exact .deliver hpoint hint haccept
      next => cases h
  | spurious =>
      simp only [exec, Option.ite_none_right_eq_some, Option.some.injEq] at h
      obtain ⟨⟨hpoint, _⟩, rfl⟩ := h
      exact .spurious hpoint
  | act =>
      simp only [exec] at h
      split at h
      next rest hpoint =>
        cases h
        exact .eoi hpoint
      next =>
        cases h
        exact .stopped
      next =>
        cases h
        exact .stopped
      next a rest heoi _ _ hpoint =>
        cases h
        exact .pass heoi hpoint
      next => cases h
  | switch b =>
      simp only [exec] at h
      split at h
      next rest hpoint =>
        cases h
        exact .switch hpoint
      next => cases h
  | iret =>
      simp only [exec] at h
      split at h
      next hpoint =>
        cases h
        exact .iret hpoint
      next => cases h
  | setInt on =>
      simp only [exec, Option.ite_none_right_eq_some, Option.some.injEq] at h
      obtain ⟨hpoint, rfl⟩ := h
      exact .setInt hpoint

/-- After the boot nothing is pending and nothing is in service. -/
def Started (s : IntCpu) : Prop := s.lapic = ⟨∅, ∅⟩ ∧ s.point = .thread

def Reachable : IntCpu → Prop := Reach Started fun e s s' => cfg.exec e s = some s'

/-- A processor to which the vectors `sources` are sent, with handlers 16 bytes apart. -/
def small (sources : Finset Nat) (legal : ∀ v ∈ sources, 16 ≤ v ∧ v < 256) : IntConfig where
  handler v := 0xC0101000#32 + BitVec.ofNat 32 (16 * v)
  lapicId := 0
  cr2 := 0
  sources := sources
  legal := legal

/-! ## What is in service when the handler is done -/

/-- The vectors in service after `k` acknowledgements. -/
def afterEois (k : Nat) (lapic : Requests Nat) : Finset Nat := (eoi^[k] lapic).inService

theorem afterEois_succ (k : Nat) (lapic : Requests Nat) :
    afterEois (k + 1) lapic = afterEois k lapic.eoi := by
  unfold afterEois
  rw [Function.iterate_succ_apply]

theorem afterEois_subset (k : Nat) (lapic : Requests Nat) :
    afterEois k lapic ⊆ lapic.inService := by
  induction k generalizing lapic with
  | zero => exact Finset.Subset.refl _
  | succ k ih =>
      rw [afterEois_succ]
      exact (ih lapic.eoi).trans eoi_subset

/-- Requests do not matter for it. -/
theorem afterEois_request (k v : Nat) (lapic : Requests Nat) :
    afterEois k (lapic.request v) = afterEois k lapic := by
  induction k generalizing lapic with
  | zero => rfl
  | succ k ih =>
      have hcomm : (lapic.request v).eoi = lapic.eoi.request v := by
        unfold eoi request
        split <;> rfl
      rw [afterEois_succ, afterEois_succ, hcomm, ih]

/-- The vectors in service when the processor is back in a thread. -/
def settled (s : IntCpu) : Finset Nat :=
  match s.point with
  | .thread => s.lapic.inService
  | .handler rest => afterEois (rest.count .lapicEoi) s.lapic

theorem settled_subset (s : IntCpu) : settled s ⊆ s.lapic.inService := by
  unfold settled
  split
  · exact Finset.Subset.refl _
  · exact afterEois_subset _ _

theorem settled_thread {s : IntCpu} (h : s.point = .thread) : settled s = s.lapic.inService := by
  unfold settled
  rw [h]

theorem settled_handler {s : IntCpu} {rest : List Act} (h : s.point = .handler rest) :
    settled s = afterEois (rest.count .lapicEoi) s.lapic := by
  unfold settled
  rw [h]

theorem count_handlerOf (v : Nat) :
    (cfg.handlerOf v).count .lapicEoi = if cfg.Acked v then 1 else 0 :=
  count_lapicEoi _ _ _

/-- A delivered vector stays in service if its handler does not acknowledge, and otherwise leaves no
trace. -/
theorem settled_deliver {v : Nat} {s : IntCpu} {lapic : Requests Nat} (hpoint : s.point = .thread)
    (haccept : s.lapic.accept priorityClass = some (v, lapic)) :
    settled ⟨lapic, false, .handler (cfg.handlerOf v)⟩ =
      if cfg.Acked v then settled s else insert v (settled s) := by
  have heoi := eoi_of_accept priorityClass_mono haccept
  obtain ⟨_, _, _, rfl⟩ := accept_eq_some_iff.1 haccept
  rw [settled_thread hpoint, settled_handler rfl, count_handlerOf]
  by_cases hack : cfg.Acked v
  · rw [if_pos hack, if_pos hack, afterEois_succ, heoi]
    rfl
  · rw [if_neg hack, if_neg hack]
    rfl

/-- The processor is in the code of a handler. -/
def InHandler (s : IntCpu) : Prop :=
  ∀ rest, s.point = .handler rest → ∃ v, rest <:+ interruptHandler cfg.lapicId cfg.cr2 v

theorem inHandler_moves {e : IntEvent} {s s' : IntCpu} (hs : cfg.InHandler s)
    (h : cfg.Moves e s s') : cfg.InHandler s' := by
  intro rest hrest
  cases h with
  | request => exact hs rest hrest
  | deliver =>
      cases hrest
      exact ⟨_, List.suffix_refl _⟩
  | spurious =>
      cases hrest
      exact ⟨_, List.suffix_refl _⟩
  | eoi hpoint =>
      cases hrest
      obtain ⟨v, hv⟩ := hs _ hpoint
      exact ⟨v, (List.suffix_cons _ _).trans hv⟩
  | pass _ hpoint =>
      cases hrest
      obtain ⟨v, hv⟩ := hs _ hpoint
      exact ⟨v, (List.suffix_cons _ _).trans hv⟩
  | stopped => exact hs rest hrest
  | switch => cases hrest
  | iret => cases hrest
  | setInt => exact hs rest hrest

/-- **What an event does with the settled vectors.** -/
theorem settled_moves {e : IntEvent} {s s' : IntCpu} (hs : cfg.InHandler s)
    (h : cfg.Moves e s s') :
    settled s' = settled s ∨
      (∃ v, e = .deliver v ∧ v ∈ s.lapic.pending ∧ ¬ cfg.Acked v ∧
        settled s' = insert v (settled s)) ∨
      (e = .spurious ∧ settled s' ⊆ settled s) := by
  cases h with
  | @request v _ hv =>
      refine Or.inl ?_
      unfold settled
      dsimp only
      split
      · rfl
      · rw [afterEois_request]
  | @deliver v lapic _ hpoint _ haccept =>
      have hsettled := cfg.settled_deliver hpoint haccept
      by_cases hack : cfg.Acked v
      · rw [if_pos hack] at hsettled
        exact Or.inl hsettled
      · rw [if_neg hack] at hsettled
        exact Or.inr (Or.inl ⟨v, rfl, (accept_eq_some_iff.1 haccept).1, hack, hsettled⟩)
  | spurious hpoint =>
      refine Or.inr (Or.inr ⟨rfl, ?_⟩)
      rw [settled_thread hpoint, settled_handler rfl]
      exact afterEois_subset _ _
  | eoi hpoint =>
      refine Or.inl ?_
      rw [settled_handler hpoint, settled_handler rfl, List.count_cons_self, afterEois_succ]
  | pass ha hpoint =>
      refine Or.inl ?_
      rw [settled_handler hpoint, settled_handler rfl, List.count_cons_of_ne ha]
  | stopped => exact Or.inl rfl
  | @switch b rest _ hpoint =>
      -- nothing comes after the call of the timer's handler
      obtain ⟨v, hv⟩ := hs _ hpoint
      have hrest := rest_of_timerHandler hv
      refine Or.inl ?_
      rw [settled_handler hpoint, settled_thread rfl, hrest]
      rfl
  | iret hpoint =>
      refine Or.inl ?_
      rw [settled_handler hpoint, settled_thread rfl]
      rfl
  | setInt hpoint => exact Or.inl rfl

/-! ## Every run -/

structure Inv (s : IntCpu) : Prop where
  inHandler : cfg.InHandler s
  pending : ∀ w ∈ s.lapic.pending, w ∈ cfg.sources
  settled : ∀ w ∈ settled s, w ∈ cfg.sources ∧ ¬ cfg.Acked w

theorem pending_moves {e : IntEvent} {s s' : IntCpu} (hs : ∀ w ∈ s.lapic.pending, w ∈ cfg.sources)
    (h : cfg.Moves e s s') : ∀ w ∈ s'.lapic.pending, w ∈ cfg.sources := by
  intro w hw
  cases h with
  | request hv =>
      obtain rfl | hw := Finset.mem_insert.1 hw
      · exact hv
      · exact hs w hw
  | deliver _ _ haccept =>
      obtain ⟨_, _, _, rfl⟩ := accept_eq_some_iff.1 haccept
      exact hs w (Finset.mem_of_mem_erase hw)
  | eoi _ =>
      rw [pending_eoi] at hw
      exact hs w hw
  | _ => exact hs w hw

variable {cfg}

theorem Inv.moves {e : IntEvent} {s s' : IntCpu} (hs : cfg.Inv s) (h : cfg.Moves e s s') :
    cfg.Inv s' where
  inHandler := cfg.inHandler_moves hs.inHandler h
  pending := cfg.pending_moves hs.pending h
  settled := by
    intro w hw
    obtain heq | ⟨v, _, hv, hack, heq⟩ | ⟨_, hsub⟩ := cfg.settled_moves hs.inHandler h
    · rw [heq] at hw
      exact hs.settled w hw
    · rw [heq] at hw
      obtain rfl | hw := Finset.mem_insert.1 hw
      · exact ⟨hs.pending w hv, hack⟩
      · exact hs.settled w hw
    · exact hs.settled w (hsub hw)

theorem Reachable.inv {s : IntCpu} (h : cfg.Reachable s) : cfg.Inv s := by
  refine h.invariant ?_ fun e s s' hs hexec => hs.moves (cfg.moves_of_exec hexec)
  rintro s ⟨hlapic, hpoint⟩
  constructor
  · intro rest hrest
    rw [hpoint] at hrest
    cases hrest
  · rw [hlapic]
    exact fun w hw => absurd hw (Finset.notMem_empty w)
  · rw [settled_thread hpoint, hlapic]
    exact fun w hw => absurd hw (Finset.notMem_empty w)

/-! ## Acknowledged vectors leave nothing in service -/

theorem entryTarget_eq (handler : Nat → BitVec 32) (v : Nat) :
    entryTarget handler v = v ∨ entryTarget handler v = 1 := by
  unfold entryTarget
  split
  · exact Or.inl rfl
  · exact Or.inr rfl

/-- A vector that is not acknowledged is for the default handler. -/
theorem handlerOf_not_acked {v : Nat} (hv : v ∈ cfg.sources) (hack : ¬ cfg.Acked v) :
    ∃ n, cfg.handlerOf v = defaultHandler n := by
  refine ⟨entryTarget cfg.handler v, interruptHandler_default ?_ hack⟩
  obtain heq | heq := entryTarget_eq cfg.handler v
  · rw [heq]
    exact Or.inr (cfg.legal v hv).1
  · exact Or.inl heq

/-- A run in which such a vector is delivered once. -/
theorem reachable_not_acked {v : Nat} (hv : v ∈ cfg.sources) (hack : ¬ cfg.Acked v) :
    cfg.Reachable ⟨⟨∅, {v}⟩, true, .thread⟩ := by
  obtain ⟨n, hhandler⟩ := handlerOf_not_acked hv hack
  have hstart : cfg.Reachable ⟨⟨∅, ∅⟩, true, .thread⟩ := Reach.start ⟨rfl, rfl⟩
  have hrequest : cfg.exec (.request v) ⟨⟨∅, ∅⟩, true, .thread⟩ =
      some ⟨⟨{v}, ∅⟩, true, .thread⟩ := if_pos hv
  have haccept : (⟨{v}, ∅⟩ : Requests Nat).accept priorityClass = some (v, ⟨∅, {v}⟩) := by
    refine accept_eq_some_iff.2 ⟨Finset.mem_singleton_self v, ?_, ?_, ?_⟩
    · exact fun w hw => (Finset.mem_singleton.1 hw).le
    · exact fun w hw => absurd hw (Finset.notMem_empty w)
    · simp
  have hdeliver : cfg.exec (.deliver v) ⟨⟨{v}, ∅⟩, true, .thread⟩ =
      some ⟨⟨∅, {v}⟩, false, .handler (defaultHandler n)⟩ := by
    simp only [exec, haccept, hhandler, and_self, if_true]
  exact ((((hstart.next _ hrequest).next _ hdeliver).next .act rfl).next .iret rfl)

/-- **When nothing stays in service.** Outside of the handlers no vector is in service, in all runs,
if and only if the handlers of all vectors that are sent to the processor acknowledge them. -/
theorem inService_empty_iff (cfg : IntConfig) :
    (∀ s, cfg.Reachable s → s.point = .thread → s.lapic.inService = ∅) ↔
      ∀ v ∈ cfg.sources, cfg.Acked v := by
  constructor
  · intro h v hv
    by_contra hack
    have hempty := h _ (reachable_not_acked hv hack) rfl
    exact absurd hempty (Finset.singleton_ne_empty v)
  · intro hall s hs hpoint
    rw [Finset.eq_empty_iff_forall_notMem, ← settled_thread hpoint]
    intro w hw
    obtain ⟨hsource, hack⟩ := hs.inv.settled w hw
    exact hack (hall w hsource)

/-! ## Pending interrupts are served -/

/-- A handler that does not stop the processor gets to its end. -/
theorem runList_acts {rest : List Act} (hgoes : ∀ a ∈ rest, a.goes = true) (lapic : Requests Nat) :
    runList cfg.exec (List.replicate rest.length .act) ⟨lapic, false, .handler rest⟩ =
      some ⟨eoi^[rest.count .lapicEoi] lapic, false, .handler []⟩ := by
  induction rest generalizing lapic with
  | nil => rfl
  | cons a rest ih =>
      have htail : ∀ b ∈ rest, b.goes = true := fun b hb => hgoes b (List.mem_cons_of_mem a hb)
      have hhead : a.goes = true := hgoes a List.mem_cons_self
      cases a with
      | lapicEoi =>
          rw [List.count_cons_self, Function.iterate_succ_apply]
          exact ih htail lapic.eoi
      | haltSystem => cases hhead
      | panic text => cases hhead
      | kprint level format args => exact ih htail lapic
      | registerDump => exact ih htail lapic
      | timerHandler => exact ih htail lapic

/-- The delivery of `v`, its handler, and the return to the thread. -/
def serve (cfg : IntConfig) (v : Nat) : List IntEvent :=
  .deliver v :: (List.replicate (cfg.handlerOf v).length .act ++ [.iret])

/-- An acknowledged vector is served, and then it is as if it had not been requested. -/
theorem runList_serve {v : Nat} {lapic lapic' : Requests Nat} (hack : cfg.Acked v)
    (haccept : lapic.accept priorityClass = some (v, lapic')) :
    runList cfg.exec (cfg.serve v) ⟨lapic, true, .thread⟩ =
      some ⟨⟨lapic.pending.erase v, lapic.inService⟩, true, .thread⟩ := by
  have hdeliver : cfg.exec (.deliver v) ⟨lapic, true, .thread⟩ =
      some ⟨lapic', false, .handler (cfg.handlerOf v)⟩ := by
    simp only [exec, haccept, and_self, if_true]
  have hacts : runList cfg.exec (List.replicate (cfg.handlerOf v).length .act)
      ⟨lapic', false, .handler (cfg.handlerOf v)⟩ =
      some ⟨⟨lapic.pending.erase v, lapic.inService⟩, false, .handler []⟩ := by
    have hgoes : ∀ a ∈ cfg.handlerOf v, a.goes = true := goes_of_acknowledged hack
    rw [runList_acts hgoes, count_handlerOf, if_pos hack,
      Function.iterate_one, eoi_of_accept priorityClass_mono haccept]
  unfold serve runList
  rw [hdeliver]
  dsimp only
  rw [runList_append, hacts]
  rfl

theorem runList_serve_all {lapic : Requests Nat} (hack : ∀ v ∈ lapic.pending, cfg.Acked v)
    (hempty : lapic.inService = ∅) :
    runList cfg.exec ((lapic.pending.sort (· ≥ ·)).flatMap cfg.serve) ⟨lapic, true, .thread⟩ =
      some ⟨⟨∅, ∅⟩, true, .thread⟩ := by
  -- by induction on the number of pending vectors: the highest one is served first
  induction hn : lapic.pending.card generalizing lapic with
  | zero =>
      obtain ⟨pending, inService⟩ := lapic
      have hpending : pending = ∅ := Finset.card_eq_zero.1 hn
      have hinService : inService = ∅ := hempty
      rw [hpending, hinService, Finset.sort_empty]
      rfl
  | succ n ih =>
      have hne : lapic.pending.Nonempty := Finset.card_pos.1 (by omega)
      have hmem := lapic.pending.max'_mem hne
      have haccept : lapic.accept priorityClass = some (lapic.pending.max' hne, _) :=
        accept_of_inService_empty hne hempty
      have hcard : (lapic.pending.erase (lapic.pending.max' hne)).card = n := by
        rw [Finset.card_erase_of_mem hmem, hn, Nat.add_sub_cancel]
      rw [sort_ge_eq_cons hne, List.flatMap_cons, runList_append,
        runList_serve (hack _ hmem) haccept, Option.bind_some]
      exact @ih ⟨_, lapic.inService⟩ (fun v hv => hack v (Finset.mem_of_mem_erase hv)) hempty hcard

/-- **Pending interrupts are served.** If the handlers of all vectors that are sent to the processor
acknowledge them, then from every state of a thread with interrupts on that can be reached, the
handlers of the pending vectors run one after the other in the order of their priorities, each one
once, and in the end nothing is pending and nothing in service. -/
theorem pending_served (cfg : IntConfig) (hall : ∀ v ∈ cfg.sources, cfg.Acked v) {s : IntCpu}
    (hs : cfg.Reachable s) (hpoint : s.point = .thread) (hint : s.intFlag = true) :
    runList cfg.exec ((s.lapic.pending.sort (· ≥ ·)).flatMap cfg.serve) s =
      some ⟨⟨∅, ∅⟩, true, .thread⟩ := by
  have hinv := hs.inv
  have hempty : s.lapic.inService = ∅ := by
    rw [Finset.eq_empty_iff_forall_notMem, ← settled_thread hpoint]
    exact fun w hw => (hinv.settled w hw).2 (hall w (hinv.settled w hw).1)
  obtain ⟨lapic, intFlag, point⟩ := s
  cases hpoint
  cases hint
  exact runList_serve_all (fun v hv => hall v (hinv.pending v hv)) hempty

theorem pending_served_two :
    runList (small {33, 252} (by decide)).exec
        ((small {33, 252} (by decide)).serve 252 ++ (small {33, 252} (by decide)).serve 33)
        ⟨⟨{33, 252}, ∅⟩, true, .thread⟩ = some ⟨⟨∅, ∅⟩, true, .thread⟩ := by
  have hstart : (small {33, 252} (by decide)).Reachable ⟨⟨∅, ∅⟩, true, .thread⟩ :=
    Reach.start ⟨rfl, rfl⟩
  have hreach : (small {33, 252} (by decide)).Reachable ⟨⟨{33, 252}, ∅⟩, true, .thread⟩ :=
    (hstart.next (.request 252) rfl).next (.request 33) rfl
  have hserved := pending_served (small {33, 252} (by decide)) (by decide +kernel) hreach rfl rfl
  have hsort : ({33, 252} : Finset Nat).sort (· ≥ ·) = [252, 33] := by
    have hswap : ({33, 252} : Finset Nat) = insert 252 {33} := by decide
    rw [hswap, Finset.sort_insert _ (by decide) (by decide), Finset.sort_singleton]
  rw [hsort] at hserved
  exact hserved

/-! ## Unacknowledged vectors hold back the others -/

/-- **A vector that is not acknowledged holds back its class for ever.** Once a vector is in service
in a thread, it stays so in all that follows without a spurious interrupt, and no vector whose class
is not above its class is delivered any more. -/
theorem inService_holds_back (cfg : IntConfig) {s s' : IntCpu} {w : Nat} {es : List IntEvent}
    (hs : cfg.Reachable s) (hpoint : s.point = .thread) (hw : w ∈ s.lapic.inService)
    (hes : .spurious ∉ es) (hrun : runList cfg.exec es s = some s') :
    w ∈ s'.lapic.inService ∧
      ∀ v, cfg.exec (.deliver v) s' ≠ none → priorityClass w < priorityClass v := by
  have hstart : cfg.Inv s ∧ w ∈ settled s := ⟨hs.inv, (settled_thread hpoint).symm ▸ hw⟩
  have hend : cfg.Inv s' ∧ w ∈ settled s' := by
    refine invariant_runList (I := fun t => cfg.Inv t ∧ w ∈ settled t) ?_ hstart hrun
    rintro e he t t' ⟨hinv, hmem⟩ hexec
    have hmoves := cfg.moves_of_exec hexec
    refine ⟨hinv.moves hmoves, ?_⟩
    obtain heq | ⟨v, _, _, _, heq⟩ | ⟨rfl, _⟩ := cfg.settled_moves hinv.inHandler hmoves
    · rw [heq]
      exact hmem
    · rw [heq]
      exact Finset.mem_insert_of_mem hmem
    · exact absurd he hes
  have hserved := settled_subset s' hend.2
  refine ⟨hserved, fun v hv => ?_⟩
  obtain ⟨t, ht⟩ := Option.ne_none_iff_exists'.1 hv
  cases cfg.moves_of_exec ht with
  | deliver _ _ haccept => exact (accept_eq_some_iff.1 haccept).2.2.1 w hserved

/-- After one interrupt of the device at pin 16 the keyboard has no effect any more. -/
theorem inService_holds_back_keyboard :
    (small {33, 48} (by decide)).exec (.deliver 33) ⟨⟨{33}, {48}⟩, true, .thread⟩ = none := by
  have hreach : (small {33, 48} (by decide)).Reachable ⟨⟨∅, {48}⟩, true, .thread⟩ :=
    reachable_not_acked (by decide) (by decide +kernel)
  have hrun : runList (small {33, 48} (by decide)).exec [.request 33] ⟨⟨∅, {48}⟩, true, .thread⟩ =
      some ⟨⟨{33}, {48}⟩, true, .thread⟩ := rfl
  have hback := inService_holds_back _ (w := 48) hreach rfl (by decide) (by decide) hrun
  by_contra hne
  exact absurd (hback.2 33 hne) (by decide)

end IntConfig

/-! ## The vectors of the I/O APIC

`kmain` unmasks all pins of the I/O APIC, whose vectors are those of `ioapic_init`. The other
vectors come from the local APICs. -/

/-- The vectors of the pins that are not masked. -/
def pinVectors (io : Ioapic) (c : Nat) : Finset Nat :=
  ((Finset.range c).filter fun p => io.masked p = false).image fun p => (io.route p).vector

/-- The boot processor of a machine whose I/O APIC has `c` pins. -/
def platform (handler : Nat → BitVec 32) (lapicId cr2 : Nat) (io : Ioapic) (c : Nat) :
    IntConfig where
  handler := handler
  lapicId := lapicId
  cr2 := cr2
  sources := (pinVectors io c ∪ {APIC_TIMER_IRQ, APIC_IPI_IRQ, APIC_ERR_IRQ}).filter
    fun v => 16 ≤ v ∧ v < 256
  legal _ hv := (Finset.mem_filter.1 hv).2

section Pins

variable {mem : Nat → UInt8} {st : Acpi} {os : List Nat} {c : Nat} {io : Ioapic}

/-- The vector of a pin: the source of the override for it, its own, or none. -/
theorem vector_ioapicStart (h : ValidOverrides mem st os c)
    (hcount : (redirectionEntryCount (io.regs 0x01)).toNat = c) (hc : c ≤ 120)
    (hbase : st.gsiBase = 0) (hzero : ∀ p, p < c → (io.route p).vector = 0) {p : Nat} (hp : p < c) :
    (∃ o ∈ os, ApicIntOverride.interrupt mem o = p ∧
      ((ioapicStart mem st io).route p).vector = (ApicIntOverride.source mem o).toNat + 32) ∨
    ((∀ o ∈ os, ApicIntOverride.interrupt mem o ≠ p) ∧
      (∀ o ∈ os, (ApicIntOverride.source mem o).toNat ≠ p) ∧
      ((ioapicStart mem st io).route p).vector = p + 32) ∨
    (∃ o ∈ os, (ApicIntOverride.source mem o).toNat = p ∧
      ((ioapicStart mem st io).route p).vector = 0) := by
  have hzero' : ∀ p, p < c → (({ io with regsel := 0x01 } : Ioapic).route p).vector = 0 :=
    fun p hp => hzero p hp
  rw [(route_ioapicStart hcount hp).2]
  by_cases hint : ∃ o ∈ os, ApicIntOverride.interrupt mem o = p
  · obtain ⟨o, ho, rfl⟩ := hint
    have hpin := pin_mapInterrupts_override h hc hbase hzero' ho
    refine Or.inl ⟨o, ho, rfl, ?_⟩
    rw [route_overridePin ((h.source_lt o ho).trans_le hc) hpin]
    rfl
  · have hno : ∀ o ∈ os, ApicIntOverride.interrupt mem o ≠ p := fun o ho heq => hint ⟨o, ho, heq⟩
    by_cases hsrc : ∃ o ∈ os, (ApicIntOverride.source mem o).toNat = p
    · obtain ⟨o, ho, hsource⟩ := hsrc
      have hpin := pin_mapInterrupts_moved h hc hbase hzero' hp hno ⟨o, ho, hsource⟩
      refine Or.inr (Or.inr ⟨o, ho, hsource, ?_⟩)
      unfold Ioapic.route
      rw [hpin]
      exact hzero p hp
    · have hother : ∀ o ∈ os, (ApicIntOverride.source mem o).toNat ≠ p :=
        fun o ho heq => hsrc ⟨o, ho, heq⟩
      have hpin := pin_mapInterrupts_identity h hc hbase hzero' hp hno hother
      refine Or.inr (Or.inl ⟨hno, hother, ?_⟩)
      rw [route_identityPin (by omega) hpin]
      rfl

variable {handler : Nat → BitVec 32} {lapicId cr2 : Nat}

/-- If no handler starts at a multiple of 64 KiB, the number of a handler is the vector. -/
theorem platform_acked_iff (hlow : ∀ v ∈ handledVectors, (handler v).setWidth 16 ≠ 0#16) {v : Nat}
    (hv : 32 ≤ v) (hlt : v < 256) :
    (platform handler lapicId cr2 io c).Acked v ↔ Acknowledged v := by
  have hhandled : v ∈ handledVectors := by
    unfold handledVectors
    rw [List.mem_append, List.mem_range'_1]
    exact Or.inr (by omega)
  have htarget : entryTarget handler v = v := if_pos ⟨hhandled, hlow v hhandled⟩
  show Acknowledged (entryTarget handler v) ↔ _
  rw [htarget]

/-- **Which machines keep interrupts in service.** The overrides of the machine are for interrupts
of the old controllers. After `ioapic_init` and `ioapic_unmask_all` no vector is ever left in
service outside of the handlers, in all runs, if and only if every pin from 16 on is the pin of an
override: the handlers acknowledge the 16 interrupts of the old controllers only. -/
theorem pins_acknowledged_iff (h : ValidOverrides mem st os c)
    (hcount : (redirectionEntryCount (io.regs 0x01)).toNat = c) (hc : c ≤ 120)
    (hbase : st.gsiBase = 0) (hzero : ∀ p, p < c → (io.route p).vector = 0)
    (hisa : ∀ o ∈ os, (ApicIntOverride.source mem o).toNat < 16)
    (hlow : ∀ v ∈ handledVectors, (handler v).setWidth 16 ≠ 0#16) :
    (∀ s, (platform handler lapicId cr2 (ioapicStart mem st io) c).Reachable s → s.point = .thread →
      s.lapic.inService = ∅) ↔
      ∀ p, 16 ≤ p → p < c → ∃ o ∈ os, ApicIntOverride.interrupt mem o = p := by
  rw [IntConfig.inService_empty_iff]
  have hmem : ∀ v, v ∈ (platform handler lapicId cr2 (ioapicStart mem st io) c).sources ↔
      ((∃ p, p < c ∧ ((ioapicStart mem st io).route p).vector = v) ∨
        v = APIC_TIMER_IRQ ∨ v = APIC_IPI_IRQ ∨ v = APIC_ERR_IRQ) ∧ 16 ≤ v ∧ v < 256 := by
    intro v
    simp only [platform, pinVectors, Finset.mem_filter, Finset.mem_union, Finset.mem_image,
      Finset.mem_range, Finset.mem_insert, Finset.mem_singleton]
    refine and_congr_left fun _ => or_congr_left ?_
    exact ⟨fun ⟨p, hp, heq⟩ => ⟨p, hp.1, heq⟩,
      fun ⟨p, hp, heq⟩ => ⟨p, ⟨hp, (route_ioapicStart hcount hp).1⟩, heq⟩⟩
  have hvector := fun p (hp : p < c) => vector_ioapicStart h hcount hc hbase hzero hp
  constructor
  · intro hall p hp hpc
    obtain ⟨o, ho, hint, _⟩ | ⟨_, _, hv⟩ | ⟨o, ho, hsrc, _⟩ := hvector p hpc
    · exact ⟨o, ho, hint⟩
    · -- the identity route of the pin is not acknowledged
      have hack := hall (p + 32) ((hmem _).2 ⟨Or.inl ⟨p, hpc, hv⟩, by omega, by omega⟩)
      rw [platform_acked_iff hlow (by omega) (by omega)] at hack
      unfold Acknowledged APIC_TIMER_IRQ APIC_SPURIOUS_IRQ at hack
      omega
    · have := hisa o ho
      omega
  · intro hpins v hv
    obtain ⟨hsource, h16, hlt⟩ := (hmem v).1 hv
    obtain ⟨p, hp, rfl⟩ | hapic := hsource
    · obtain ⟨o, ho, _, hv⟩ | ⟨hno, _, hv⟩ | ⟨_, _, _, hv⟩ := hvector p hp
      · have := hisa o ho
        rw [hv, platform_acked_iff hlow (by omega) (by omega)]
        exact Or.inl (by omega)
      · have hp16 : p < 16 := by
          by_contra hge
          obtain ⟨o, ho, hint⟩ := hpins p (by omega) hp
          exact hno o ho hint
        rw [hv, platform_acked_iff hlow (by omega) (by omega)]
        exact Or.inl (by omega)
      · omega
    · unfold APIC_TIMER_IRQ APIC_IPI_IRQ APIC_ERR_IRQ at hapic
      rw [platform_acked_iff hlow (by omega) hlt]
      unfold Acknowledged APIC_TIMER_IRQ APIC_SPURIOUS_IRQ
      omega

/-- With 24 pins and the one override of the timer that most machines have, an interrupt can stay in
service. -/
theorem pins_acknowledged_small :
    ∃ s, (platform (fun v => 0xC0101000#32 + BitVec.ofNat 32 (16 * v)) 0 0
        (ioapicStart (smallMemory 1 194) smallOverrides resetIoapic) 24).Reachable s ∧
      s.point = .thread ∧ s.lapic.inService ≠ ∅ := by
  have hvalid : ValidOverrides (smallMemory 1 194) smallOverrides [0x104A] 24 := by
    constructor
    · unfold Filled
      decide +kernel
    all_goals decide +kernel
  have hlow : ∀ v ∈ handledVectors,
      (0xC0101000#32 + BitVec.ofNat 32 (16 * v)).setWidth 16 ≠ 0#16 := by decide +kernel
  have hcount : (redirectionEntryCount (resetIoapic.regs 0x01)).toNat = 24 := by decide
  by_contra hnone
  have hall := (pins_acknowledged_iff hvalid hcount (by decide) rfl vector_resetIoapic
    (by decide +kernel) hlow).1
    fun s hs hpoint => by_contra fun hne => hnone ⟨s, hs, hpoint, hne⟩
  obtain ⟨o, ho, hint⟩ := hall 16 (by decide) (by decide)
  have hother : ∀ o ∈ [0x104A], ApicIntOverride.interrupt (smallMemory 1 194) o ≠ 16 := by
    decide +kernel
  exact hother o ho hint

end Pins

end NowOS
