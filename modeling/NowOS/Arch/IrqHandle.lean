import Mathlib.Tactic.IntervalCases

set_option autoImplicit false

/-! # The interrupt handlers (`arch/irq_handle.c`)

What the handlers do that the rest of the system sees: they print, they tell the local APIC that the
interrupt has been handled, they call the handler of the timer, or they stop the processor. The
dispatch of `interrupt_handler` decides which vectors are acknowledged at all. -/

namespace NowOS

/-- `LOG_LEVEL`. -/
inductive Level
  | info
  | warn
  | error
  deriving DecidableEq, Repr

/-- What a handler does next. `timerHandler` is the call of `proc->timer.handler`, if it is set. -/
inductive Act
  | kprint (level : Level) (format : String) (args : List Nat)
  | registerDump
  | lapicEoi
  | timerHandler
  | haltSystem
  | panic (text : String)
  deriving DecidableEq, Repr

/-! ## Exceptions -/

def divideByZeroHandler : List Act :=
  [.kprint .error "Divide by zero interrupt called\n" [], .registerDump, .haltSystem]

def nmiHandler : List Act := [.registerDump, .kprint .warn "NMI interrupt called\n" []]

/-- The handlers that dump the registers, print and stop. -/
def fatalHandler (text : String) : List Act := [.registerDump, .kprint .error text [], .haltSystem]

def overflowHandler : List Act := fatalHandler "Overflow interrupt called\n"

def boundRangeExceededHandler : List Act := fatalHandler "Bound range exceeded interrupt called\n"

def invalidOpcodeHandler : List Act := fatalHandler "Invalid op code interrupt called\n"

def deviceNotAvailableHandler : List Act :=
  [.registerDump, .kprint .warn "Device not available interrupt called\n" []]

def doubleFaultHandler : List Act := fatalHandler "Double fault interrupt called\n"

def invalidTssHandler : List Act := fatalHandler "Invalid TSS handler called\n"

def segmentNotPresentHandler : List Act := fatalHandler "Segment not present handler called\n"

def stackSegmentFaultHandler : List Act := fatalHandler "Stack segment fault handler called\n"

def gpfHandler : List Act := fatalHandler "GPF handler called \n"

def pageFaultHandler (cr2 : Nat) : List Act :=
  [.kprint .error "Page fault handler called\n" [], .registerDump,
    .kprint .info "Faulting addr: %x\n" [cr2], .panic "YEET\n"]

def defaultHandler (intNum : Nat) : List Act :=
  [.kprint .error "Default handler called for interrupt %d\n" [intNum]]

/-! ## Device interrupts -/

/-- The handlers that print and acknowledge. -/
def firedHandler (text : String) : List Act := [.kprint .info text [], .lapicEoi]

def irq0Handler : List Act := [.lapicEoi]

def irq1Handler : List Act := [.kprint .info "IRQ 1 FIRED\n" [], .registerDump, .lapicEoi]

def irq2Handler : List Act := firedHandler "IRQ 2 FIRED\n"

def irq3Handler : List Act := firedHandler "IRQ 3 FIRED\n"

def irq4Handler : List Act := firedHandler "IRQ 4 FIRED\n"

def irq5Handler : List Act := firedHandler "IRQ 5 FIRED\n"

def irq6Handler : List Act := firedHandler "IRQ 6 FIRED\n"

def irq7Handler : List Act := firedHandler "IRQ 7 FIRED\n"

def irq8Handler : List Act := firedHandler "IRQ 8 FIRED\n"

def irq9Handler : List Act := firedHandler "IRQ 9 FIRED\n"

def irq10Handler : List Act := firedHandler "IRQ 10 FIRED\n"

def irq11Handler : List Act := firedHandler "IRQ 11 FIRED\n"

def irq12Handler : List Act := firedHandler "IRQ 12 FIRED\n"

def irq13Handler : List Act := firedHandler "IRQ 13 FIRED\n"

def irq14Handler : List Act := firedHandler "IRQ 14 FIRED\n"

def irq15Handler : List Act := firedHandler "IRQ 15 FIRED\n"

/-! ## Interrupts of the local APIC -/

/-- The handlers that print the number of the processor and acknowledge. -/
def receivedHandler (text : String) (lapicId : Nat) : List Act :=
  [.kprint .warn text [lapicId], .lapicEoi]

def ipiHandler : Nat → List Act := receivedHandler "IPI RECEIVED ON PROCESSOR %d\n"

def apicErrHandler : Nat → List Act := receivedHandler "APIC ERR RECEIVED ON PROCESSOR %d\n"

def spuriousHandler : Nat → List Act := receivedHandler "SPURIOUS INT RECEIVED ON PROCESSOR %d\n"

/-- The interrupt is acknowledged before the handler of the timer is called, which may go on with
another thread. -/
def lapicTimerHandler : List Act := [.lapicEoi, .timerHandler]

def APIC_TIMER_IRQ : Nat := 0xfc
def APIC_IPI_IRQ : Nat := 0xfd
def APIC_ERR_IRQ : Nat := 0xfe
def APIC_SPURIOUS_IRQ : Nat := 0xff

/-- `interrupt_handler`, for the vector `state->int_num` on the processor `lapicId`. -/
def interruptHandler (lapicId cr2 intNum : Nat) : List Act :=
  match intNum with
  | 0 => divideByZeroHandler
  | 2 => nmiHandler
  | 4 => overflowHandler
  | 5 => boundRangeExceededHandler
  | 6 => invalidOpcodeHandler
  | 7 => deviceNotAvailableHandler
  | 8 => doubleFaultHandler
  | 10 => invalidTssHandler
  | 11 => segmentNotPresentHandler
  | 12 => stackSegmentFaultHandler
  | 13 => gpfHandler
  | 14 => pageFaultHandler cr2
  | 32 => irq0Handler
  | 33 => irq1Handler
  | 34 => irq2Handler
  | 35 => irq3Handler
  | 36 => irq4Handler
  | 37 => irq5Handler
  | 38 => irq6Handler
  | 39 => irq7Handler
  | 40 => irq8Handler
  | 41 => irq9Handler
  | 42 => irq10Handler
  | 43 => irq11Handler
  | 44 => irq12Handler
  | 45 => irq13Handler
  | 46 => irq14Handler
  | 47 => irq15Handler
  | n =>
    if n = APIC_IPI_IRQ then ipiHandler lapicId
    else if n = APIC_ERR_IRQ then apicErrHandler lapicId
    else if n = APIC_SPURIOUS_IRQ then spuriousHandler lapicId
    else if n = APIC_TIMER_IRQ then lapicTimerHandler
    else defaultHandler n

/-! ## Which vectors are acknowledged -/

/-- The vectors of the old controllers and those of the local APIC. -/
def Acknowledged (v : Nat) : Prop :=
  (32 ≤ v ∧ v ≤ 47) ∨ (APIC_TIMER_IRQ ≤ v ∧ v ≤ APIC_SPURIOUS_IRQ)

instance : DecidablePred Acknowledged := fun v =>
  inferInstanceAs (Decidable ((32 ≤ v ∧ v ≤ 47) ∨ (APIC_TIMER_IRQ ≤ v ∧ v ≤ APIC_SPURIOUS_IRQ)))

/-- A handler that returns acknowledges its interrupt once or not at all. -/
theorem count_lapicEoi (lapicId cr2 v : Nat) :
    (interruptHandler lapicId cr2 v).count .lapicEoi = if Acknowledged v then 1 else 0 := by
  unfold interruptHandler
  split
  case h_29 n h0 h2 h4 h5 h6 h7 h8 h10 h11 h12 h13 h14 h32 h33 h34 h35 h36 h37 h38 h39 h40 h41 h42
      h43 h44 h45 h46 h47 =>
    -- a vector that is not of the old controllers
    by_cases hipi : v = APIC_IPI_IRQ
    · rw [if_pos hipi, hipi]
      rfl
    by_cases herr : v = APIC_ERR_IRQ
    · rw [if_neg hipi, if_pos herr, herr]
      rfl
    by_cases hspurious : v = APIC_SPURIOUS_IRQ
    · rw [if_neg hipi, if_neg herr, if_pos hspurious, hspurious]
      rfl
    by_cases htimer : v = APIC_TIMER_IRQ
    · rw [if_neg hipi, if_neg herr, if_neg hspurious, if_pos htimer, htimer]
      rfl
    have hnot : ¬ Acknowledged v := by
      unfold APIC_IPI_IRQ at hipi
      unfold APIC_ERR_IRQ at herr
      unfold APIC_SPURIOUS_IRQ at hspurious
      unfold APIC_TIMER_IRQ at htimer
      unfold Acknowledged APIC_TIMER_IRQ APIC_SPURIOUS_IRQ
      rintro (⟨hle, hge⟩ | ⟨hle, hge⟩)
      · interval_cases v <;> contradiction
      · omega
    rw [if_neg hipi, if_neg herr, if_neg hspurious, if_neg htimer, if_neg hnot]
    rfl
  all_goals rfl

/-- Only the handler of the local APIC's timer calls the handler of the timer. -/
theorem timerHandler_mem (lapicId cr2 v : Nat) :
    Act.timerHandler ∉ interruptHandler lapicId cr2 v ∨
      interruptHandler lapicId cr2 v = lapicTimerHandler := by
  unfold interruptHandler
  split
  case h_29 =>
    split_ifs
    · simp [ipiHandler, receivedHandler]
    · simp [apicErrHandler, receivedHandler]
    · simp [spuriousHandler, receivedHandler]
    · exact Or.inr rfl
    · simp [defaultHandler]
  all_goals
    refine Or.inl ?_
    simp [divideByZeroHandler, nmiHandler, overflowHandler, boundRangeExceededHandler,
      invalidOpcodeHandler, deviceNotAvailableHandler, doubleFaultHandler, invalidTssHandler,
      segmentNotPresentHandler, stackSegmentFaultHandler, gpfHandler, fatalHandler,
      pageFaultHandler, irq0Handler, irq1Handler, irq2Handler, irq3Handler, irq4Handler,
      irq5Handler, irq6Handler, irq7Handler, irq8Handler, irq9Handler, irq10Handler,
      irq11Handler, irq12Handler, irq13Handler, irq14Handler, irq15Handler, firedHandler]

/-- It is the last thing that is done. -/
theorem rest_of_timerHandler {lapicId cr2 v : Nat} {rest : List Act}
    (h : Act.timerHandler :: rest <:+ interruptHandler lapicId cr2 v) : rest = [] := by
  have hmem : Act.timerHandler ∈ interruptHandler lapicId cr2 v := h.subset List.mem_cons_self
  have htimer := (timerHandler_mem lapicId cr2 v).resolve_left fun hnot => hnot hmem
  rw [htimer] at h
  obtain ⟨done, hdone⟩ := h
  cases done with
  | nil => cases hdone
  | cons a done =>
      cases done with
      | nil =>
          cases hdone
          rfl
      | cons b done =>
          have hlen := congrArg List.length hdone
          simp [lapicTimerHandler] at hlen

/-- Everything else that does not come from an exception is for the default handler. -/
theorem interruptHandler_default {lapicId cr2 v : Nat} (hv : v = 1 ∨ 16 ≤ v)
    (hack : ¬ Acknowledged v) : interruptHandler lapicId cr2 v = defaultHandler v := by
  unfold Acknowledged APIC_TIMER_IRQ APIC_SPURIOUS_IRQ at hack
  have hipi : v ≠ APIC_IPI_IRQ := by
    unfold APIC_IPI_IRQ
    omega
  have herr : v ≠ APIC_ERR_IRQ := by
    unfold APIC_ERR_IRQ
    omega
  have hspurious : v ≠ APIC_SPURIOUS_IRQ := by
    unfold APIC_SPURIOUS_IRQ
    omega
  have htimer : v ≠ APIC_TIMER_IRQ := by
    unfold APIC_TIMER_IRQ
    omega
  unfold interruptHandler
  split
  case h_29 => rw [if_neg hipi, if_neg herr, if_neg hspurious, if_neg htimer]
  all_goals omega

/-- A handler goes on after this, as it does not stop the processor. -/
def Act.goes : Act → Bool
  | .haltSystem => false
  | .panic _ => false
  | _ => true

/-- The handlers that acknowledge return. -/
theorem goes_of_acknowledged {lapicId cr2 v : Nat} (hack : Acknowledged v) :
    ∀ a ∈ interruptHandler lapicId cr2 v, a.goes = true := by
  unfold Acknowledged APIC_TIMER_IRQ APIC_SPURIOUS_IRQ at hack
  rw [← List.all_eq_true]
  obtain ⟨hle, hge⟩ | ⟨hle, hge⟩ := hack
  · interval_cases v <;> rfl
  · interval_cases v <;> rfl

end NowOS
