import Mathlib.Tactic
import NowOS.Lib.Runs
import NowOS.Lib.Tso

set_option autoImplicit false

/-! # The spin lock (`kernel/lock.c`)

`spin_lock` takes the lock with an atomic exchange, and between two attempts it reads the word until
it is free. `spin_unlock` releases it with a plain store: `mem_barrier` keeps the compiler from
moving accesses over it, but it is no instruction, so on the processor the stores of the critical
section and the releasing store may all be waiting in the store buffer when `spin_unlock` returns.

The processors use the lock and the data that it guards one access at a time, on a memory with store
buffers. The other variable of the state, `last`, is what the same stores would have left in a
memory without them. -/

namespace NowOS

def LOCK_BUSY : UInt32 := 1

def LOCK_FREE : UInt32 := 0

/-- Where a processor is in the code of the lock. -/
inductive LockPoint
  /-- It has not called `spin_lock`, or it has released the lock. -/
  | away
  /-- In `spin_lock`, at `atomic_exchange_32`. -/
  | exchange
  /-- In `spin_lock`, at the condition of the inner loop. -/
  | watch
  /-- It has the lock. -/
  | inside
  deriving DecidableEq, Repr

/-- The processors `ι` with a memory of words at the addresses `L`. -/
structure Spin (ι L : Type) where
  memory : Tso ι L UInt32
  point : ι → LockPoint
  last : L → UInt32

namespace Spin

variable {ι L : Type} [DecidableEq ι] [DecidableEq L]

/-! ## The functions of the source -/

/-- Processor `i` goes on at `p`. -/
def goto (s : Spin ι L) (i : ι) (p : LockPoint) : Spin ι L :=
  { s with point := Function.update s.point i p }

/-- `init_spinlock`, and `SPINLOCK_INIT`: the lock is free and nothing is in a store buffer. -/
def Started (lock : L) (s : Spin ι L) : Prop :=
  s.memory.mem lock = LOCK_FREE ∧ (∀ i, s.memory.buf i = [] ∧ s.point i = .away) ∧
    s.last = s.memory.mem

/-- The exchange of `spin_lock`: it returns, or it goes to the inner loop. -/
def lockExchange (lock : L) (i : ι) (s : Spin ι L) : Option (Spin ι L) :=
  match s.memory.exchange i lock LOCK_BUSY with
  | none => none
  | some (old, memory) =>
      let s := { s with memory := memory }
      if old = LOCK_FREE then some (s.goto i .inside) else some (s.goto i .watch)

/-- A turn of the inner loop of `spin_lock`. -/
def lockWatch (lock : L) (i : ι) (s : Spin ι L) : Spin ι L :=
  if s.memory.read i lock = LOCK_BUSY then s else s.goto i .exchange

/-- `spin_trylock`, with what it returns. -/
def spinTrylock (lock : L) (i : ι) (s : Spin ι L) : Option (UInt32 × Spin ι L) :=
  match s.memory.exchange i lock LOCK_BUSY with
  | none => none
  | some (old, memory) =>
      let s := { s with memory := memory }
      -- a caller that finds the lock free has it
      some (old, if old = LOCK_FREE then s.goto i .inside else s)

/-- A store of the code that uses the lock. -/
def put (i : ι) (l : L) (v : UInt32) (s : Spin ι L) : Spin ι L :=
  { s with memory := s.memory.write i l v, last := Function.update s.last l v }

/-- `spin_unlock`. -/
def spinUnlock (lock : L) (i : ι) (s : Spin ι L) : Spin ι L :=
  (s.put i lock LOCK_FREE).goto i .away

/-- The oldest store in the buffer of processor `i` reaches memory. -/
def drain (i : ι) (s : Spin ι L) : Option (Spin ι L) :=
  match s.memory.flush i with
  | none => none
  | some memory => some { s with memory := memory }

/-! ## Steps -/

/-- What a processor does next. -/
inductive Event (L : Type)
  | spinLock
  | exchange
  | watch
  | trylock
  | store (l : L) (v : UInt32)
  | spinUnlock
  | drain

/-- The step of processor `i`. The code that uses the lock takes and releases it in turns, does not
write to the word of the lock itself, and writes to the addresses in `guarded` only while it has the
lock. -/
def exec (lock : L) (guarded : Set L) [DecidablePred (· ∈ guarded)] :
    ι × Event L → Spin ι L → Option (Spin ι L)
  | (i, .spinLock), s => if s.point i = .away then some (s.goto i .exchange) else none
  | (i, .exchange), s => if s.point i = .exchange then s.lockExchange lock i else none
  | (i, .watch), s => if s.point i = .watch then some (s.lockWatch lock i) else none
  | (i, .trylock), s => if s.point i = .away then (s.spinTrylock lock i).map Prod.snd else none
  | (i, .store l v), s =>
      if l ≠ lock ∧ (l ∈ guarded → s.point i = .inside) then some (s.put i l v) else none
  | (i, .spinUnlock), s => if s.point i = .inside then some (s.spinUnlock lock i) else none
  | (i, .drain), s => s.drain i

def Step (lock : L) (guarded : Set L) [DecidablePred (· ∈ guarded)] (e : ι × Event L)
    (s s' : Spin ι L) : Prop :=
  exec lock guarded e s = some s'

/-! ## The invariant -/

variable {lock : L} {guarded : Set L} {s s' : Spin ι L}

/-- Processor `i` does not have the lock, and neither the word of the lock nor anything that it
guards is in its store buffer. -/
def Aloof (lock : L) (guarded : Set L) (s : Spin ι L) (i : ι) : Prop :=
  s.point i ≠ .inside ∧ ∀ w ∈ s.memory.buf i, w.1 ≠ lock ∧ w.1 ∉ guarded

/-- The lock is free in memory; or a processor has it; or a processor has released it, but the store
that releases it is still in its buffer, behind `pre` and before `post`. In the last two cases that
processor sees all stores to the guarded data. -/
inductive Inv (lock : L) (guarded : Set L) (s : Spin ι L) : Prop
  | free (hword : s.memory.mem lock = LOCK_FREE) (hother : ∀ i, Aloof lock guarded s i)
      (hlast : ∀ l ∈ guarded, s.memory.mem l = s.last l)
  | held (o : ι) (hword : s.memory.mem lock = LOCK_BUSY)
      (hother : ∀ i, i ≠ o → Aloof lock guarded s i)
      (hlast : ∀ l ∈ guarded, s.memory.read o l = s.last l) (hpoint : s.point o = .inside)
      (hbuf : ∀ w ∈ s.memory.buf o, w.1 ≠ lock)
  | released (o : ι) (pre post : List (L × UInt32)) (hword : s.memory.mem lock = LOCK_BUSY)
      (hother : ∀ i, i ≠ o → Aloof lock guarded s i)
      (hlast : ∀ l ∈ guarded, s.memory.read o l = s.last l) (hpoint : s.point o ≠ .inside)
      (hbuf : s.memory.buf o = pre ++ (lock, LOCK_FREE) :: post) (hpre : ∀ w ∈ pre, w.1 ≠ lock)
      (hpost : ∀ w ∈ post, w.1 ≠ lock ∧ w.1 ∉ guarded)

omit [DecidableEq ι] in
theorem inv_started (h : Started lock s) : Inv lock guarded s := by
  obtain ⟨hword, hquiet, hlast⟩ := h
  refine .free hword (fun i => ?_) fun l _ => by rw [hlast]
  rw [Aloof, (hquiet i).1, (hquiet i).2]
  exact ⟨by decide, by simp⟩

omit [DecidableEq L] in
/-- Moving a processor that stays outside. -/
theorem Aloof.goto {i j : ι} {p : LockPoint} (h : Aloof lock guarded s i)
    (hp : p ≠ .inside) : Aloof lock guarded (s.goto j p) i := by
  refine ⟨?_, h.2⟩
  by_cases hij : i = j
  · subst hij
    simpa [Spin.goto] using hp
  · simpa [Spin.goto, hij] using h.1

omit [DecidableEq L] in
theorem Aloof.goto_of_ne {i j : ι} {p : LockPoint} (h : Aloof lock guarded s i) (hij : i ≠ j) :
    Aloof lock guarded (s.goto j p) i := by
  refine ⟨?_, h.2⟩
  simpa [Spin.goto, hij] using h.1

/-- A processor outside goes from one point to another. -/
theorem Inv.goto {i : ι} {p : LockPoint} (h : Inv lock guarded s) (hi : s.point i ≠ .inside)
    (hp : p ≠ .inside) : Inv lock guarded (s.goto i p) := by
  cases h with
  | free hword hother hlast => exact .free hword (fun j => (hother j).goto hp) hlast
  | held o hword hother hlast hpoint hbuf =>
      have ho : o ≠ i := by
        rintro rfl
        exact hi hpoint
      refine .held o hword (fun j hj => (hother j hj).goto hp) hlast ?_ hbuf
      simpa [Spin.goto, ho] using hpoint
  | released o pre post hword hother hlast hpoint hbuf hpre hpost =>
      refine .released o pre post hword (fun j hj => (hother j hj).goto hp) hlast ?_ hbuf hpre hpost
      by_cases ho : o = i
      · subst ho
        simpa [Spin.goto] using hp
      · simpa [Spin.goto, ho] using hpoint

/-! ## Steps keep the invariant -/

/-- The exchange of `spin_lock` and of `spin_trylock`: it takes a free lock, and it does not change
anything else. -/
theorem Inv.exchange {i : ι} {old : UInt32} {memory : Tso ι L UInt32} (h : Inv lock guarded s)
    (hlock : lock ∉ guarded)
    (hex : s.memory.exchange i lock LOCK_BUSY = some (old, memory)) :
    (old = LOCK_FREE ∧ Inv lock guarded ({ s with memory := memory }.goto i .inside)) ∨
      (old ≠ LOCK_FREE ∧ memory = s.memory) := by
  obtain ⟨hbuf, rfl, rfl⟩ := Tso.exchange_eq_some hex
  -- an exchange that finds the lock busy stores what is there
  have hbusy : s.memory.mem lock = LOCK_BUSY → s.memory.mem lock ≠ LOCK_FREE ∧
      { s.memory with mem := Function.update s.memory.mem lock LOCK_BUSY } = s.memory := by
    intro hword
    refine ⟨by rw [hword]; decide, ?_⟩
    rw [← hword, Function.update_eq_self]
  cases h with
  | free hword hother hlast =>
      refine .inl ⟨hword, .held i (Function.update_self _ _ _) ?_ ?_ (by simp [Spin.goto]) ?_⟩
      · intro j hj
        exact Aloof.goto_of_ne (hother j) hj
      · intro l hl
        have hne : l ≠ lock := fun e => hlock (e ▸ hl)
        calc Tso.read ⟨Function.update s.memory.mem lock LOCK_BUSY, s.memory.buf⟩ i l
            = Function.update s.memory.mem lock LOCK_BUSY l :=
              Tso.read_of_nil (m := ⟨Function.update s.memory.mem lock LOCK_BUSY, _⟩) hbuf l
          _ = s.memory.mem l := Function.update_of_ne hne _ _
          _ = s.last l := hlast l hl
      · intro w hw
        have hw : w ∈ s.memory.buf i := hw
        rw [hbuf] at hw
        cases hw
  | held o hword => exact .inr (hbusy hword)
  | released o pre post hword => exact .inr (hbusy hword)

theorem Aloof.put {i j : ι} {l : L} {v : UInt32} (h : Aloof lock guarded s j)
    (hl : j = i → l ≠ lock ∧ l ∉ guarded) : Aloof lock guarded (s.put i l v) j := by
  refine ⟨h.1, fun w hw => ?_⟩
  rcases Tso.mem_buf_write hw with hw | ⟨hj, rfl⟩
  · exact h.2 w hw
  · exact hl hj

/-- What a store does to what processor `o` sees of the guarded data. -/
theorem read_put {i o : ι} {l l' : L} {v : UInt32} (h : s.memory.read o l' = s.last l')
    (ho : o = i ∨ l' ≠ l) : (s.put i l v).memory.read o l' = (s.put i l v).last l' := by
  show (s.memory.write i l v).read o l' = Function.update s.last l v l'
  by_cases hl : l' = l
  · subst hl
    obtain rfl := ho.resolve_right (fun hne => hne rfl)
    rw [Tso.read_write_self, Function.update_self, Function.update_self]
  · rw [Function.update_of_ne hl, ← h]
    by_cases hoi : o = i
    · rw [hoi, Tso.read_write_self, Function.update_of_ne hl]
    · rw [Tso.read_write_of_ne _ hoi]

/-- A store of the code that uses the lock: to the guarded data by the processor that has it, or to
other data by any processor. -/
theorem Inv.put {i : ι} {l : L} {v : UInt32} (h : Inv lock guarded s) (hne : l ≠ lock)
    (hi : l ∈ guarded → s.point i = .inside) : Inv lock guarded (s.put i l v) := by
  have hfree : ∀ j, Aloof lock guarded s j → Aloof lock guarded (s.put i l v) j := by
    intro j hj
    refine hj.put ?_
    rintro rfl
    exact ⟨hne, fun hl => hj.1 (hi hl)⟩
  have hread : ∀ o, (∀ j, j ≠ o → Aloof lock guarded s j) →
      (∀ l ∈ guarded, s.memory.read o l = s.last l) →
      ∀ l' ∈ guarded, (s.put i l v).memory.read o l' = (s.put i l v).last l' := by
    intro o hother hlast l' hl'
    refine read_put (hlast l' hl') ?_
    by_contra hno
    obtain ⟨hoi, hll⟩ := not_or.mp hno
    obtain rfl := not_not.mp hll
    exact (hother i (Ne.symm hoi)).1 (hi hl')
  cases h with
  | free hword hother hlast =>
      refine .free hword (fun j => hfree j (hother j)) fun l' hl' => ?_
      have hll : l' ≠ l := by
        rintro rfl
        exact (hother i).1 (hi hl')
      exact (hlast l' hl').trans (Function.update_of_ne hll _ _).symm
  | held o hword hother hlast hpoint hbuf =>
      refine .held o hword (fun j hj => hfree j (hother j hj)) (hread o hother hlast) hpoint ?_
      intro w hw
      rcases Tso.mem_buf_write hw with hw | ⟨-, rfl⟩
      · exact hbuf w hw
      · exact hne
  | released o pre post hword hother hlast hpoint hbuf hpre hpost =>
      by_cases ho : o = i
      · -- the store goes behind the one that releases the lock
        subst ho
        refine .released o pre (post ++ [(l, v)]) hword (fun j hj => hfree j (hother j hj))
          (hread o hother hlast) hpoint ?_ hpre ?_
        · simp [Spin.put, Tso.write, hbuf]
        · intro w hw
          rcases List.mem_append.mp hw with hw | hw
          · exact hpost w hw
          · obtain rfl := List.mem_singleton.mp hw
            exact ⟨hne, fun hl => hpoint (hi hl)⟩
      · refine .released o pre post hword (fun j hj => hfree j (hother j hj))
          (hread o hother hlast) hpoint ?_ hpre hpost
        exact (Tso.buf_write_of_ne _ ho l v).trans hbuf

theorem Inv.spinUnlock {i : ι} (h : Inv lock guarded s) (hi : s.point i = .inside) :
    Inv lock guarded (s.spinUnlock lock i) := by
  cases h with
  | free hword hother hlast => exact absurd hi (hother i).1
  | released o pre post hword hother hlast hpoint =>
      by_cases ho : i = o
      · exact absurd (ho ▸ hi) hpoint
      · exact absurd hi (hother i ho).1
  | held o hword hother hlast hpoint hbuf =>
      obtain rfl : i = o := by
        by_contra ho
        exact (hother i ho).1 hi
      refine .released i (s.memory.buf i) [] hword ?_ ?_ ?_ ?_ hbuf (by simp)
      · intro j hj
        exact ((hother j hj).put fun hji => absurd hji hj).goto (by decide)
      · intro l hl
        exact read_put (hlast l hl) (.inl rfl)
      · simp [Spin.spinUnlock, Spin.goto]
      · simp [Spin.spinUnlock, Spin.goto, Spin.put, Tso.write]

theorem drain_eq_some {i : ι} (h : s.drain i = some s') :
    ∃ memory, s.memory.flush i = some memory ∧ s' = { s with memory := memory } := by
  unfold drain at h
  split at h
  next => cases h
  next memory hflush => exact ⟨memory, hflush, (Option.some.inj h).symm⟩

/-- A store reaches memory. The lock becomes free when it is the one that releases it, and then all
stores of the critical section have reached memory before. -/
theorem Inv.drain {i : ι} (h : Inv lock guarded s) (hs : s.drain i = some s') :
    Inv lock guarded s' := by
  obtain ⟨memory, hflush, rfl⟩ := drain_eq_some hs
  have haloof : ∀ j, Aloof lock guarded s j → Aloof lock guarded { s with memory := memory } j :=
    fun j hj => ⟨hj.1, fun w hw => hj.2 w (Tso.mem_buf_flush hflush hw)⟩
  have hread : ∀ o, (∀ j, j ≠ o → Aloof lock guarded s j) →
      (∀ l ∈ guarded, s.memory.read o l = s.last l) →
      ∀ l ∈ guarded, memory.read o l = s.last l := by
    intro o hother hlast l hl
    rw [← hlast l hl]
    by_cases hoi : o = i
    · rw [hoi, Tso.read_flush_self hflush]
    · refine Tso.read_flush_of_notMem hflush hoi fun w hw hwl => ?_
      exact ((hother i (Ne.symm hoi)).2 w hw).2 (hwl ▸ hl)
  have hword' : Aloof lock guarded s i → memory.mem lock = s.memory.mem lock :=
    fun hi => Tso.mem_flush_of_notMem hflush fun w hw => (hi.2 w hw).1
  cases h with
  | free hword hother hlast =>
      refine .free ((hword' (hother i)).trans hword) (fun j => haloof j (hother j)) fun l hl => ?_
      refine (Tso.mem_flush_of_notMem hflush fun w hw hwl => ?_).trans (hlast l hl)
      exact ((hother i).2 w hw).2 (hwl ▸ hl)
  | held o hword hother hlast hpoint hbuf =>
      refine .held o ?_ (fun j hj => haloof j (hother j hj)) (hread o hother hlast) hpoint
        fun w hw => hbuf w (Tso.mem_buf_flush hflush hw)
      by_cases ho : i = o
      · subst ho
        exact (Tso.mem_flush_of_notMem hflush hbuf).trans hword
      · exact (hword' (hother i ho)).trans hword
  | released o pre post hword hother hlast hpoint hbuf hpre hpost =>
      have hview := hread o hother hlast
      by_cases ho : i = o
      · subst ho
        obtain ⟨w, ws, hbuf', rfl⟩ := Tso.flush_eq_some hflush
        rw [hbuf] at hbuf'
        cases pre with
        | nil =>
            obtain ⟨rfl, rfl⟩ := List.cons.inj hbuf'
            refine .free (Function.update_self _ _ _) ?_ ?_
            · intro j
              by_cases hj : j = i
              · subst hj
                exact ⟨hpoint, by simpa using hpost⟩
              · exact haloof j (hother j hj)
            · intro l hl
              -- nothing behind the releasing store is guarded, so memory is what `i` sees
              rw [← hview l hl]
              refine (drained_of_notMem (fun w hw hwl => ?_) _).symm
              simp only [Function.update_self] at hw
              exact (hpost w hw).2 (hwl ▸ hl)
        | cons w' pre =>
            obtain ⟨rfl, rfl⟩ := List.cons.inj hbuf'
            refine .released i pre post ?_ (fun j hj => haloof j (hother j hj)) hview hpoint
              (Function.update_self _ _ _) (fun w hw => hpre w (List.mem_cons_of_mem _ hw)) hpost
            exact (Function.update_of_ne (hpre _ List.mem_cons_self).symm _ _).trans hword
      · refine .released o pre post ((hword' (hother i ho)).trans hword)
          (fun j hj => haloof j (hother j hj)) hview hpoint ?_ hpre hpost
        obtain ⟨w, ws, -, rfl⟩ := Tso.flush_eq_some hflush
        exact (Function.update_of_ne (Ne.symm ho) _ _).trans hbuf

/-- What an attempt to take the lock does, in `spin_lock` and in `spin_trylock`. -/
theorem Inv.lockExchange {i : ι} (h : Inv lock guarded s) (hlock : lock ∉ guarded)
    (hi : s.point i = .exchange) (hs : s.lockExchange lock i = some s') : Inv lock guarded s' := by
  unfold Spin.lockExchange at hs
  split at hs
  next => cases hs
  next old memory hmem =>
    dsimp only at hs
    rcases h.exchange hlock hmem with ⟨hold, hinv⟩ | ⟨hold, rfl⟩
    · rw [if_pos hold] at hs
      cases hs
      exact hinv
    · rw [if_neg hold] at hs
      cases hs
      exact h.goto (by rw [hi]; decide) (by decide)

theorem Inv.spinTrylock {i : ι} {result : UInt32} (h : Inv lock guarded s) (hlock : lock ∉ guarded)
    (hs : s.spinTrylock lock i = some (result, s')) : Inv lock guarded s' := by
  unfold Spin.spinTrylock at hs
  split at hs
  next => cases hs
  next old memory hmem =>
    dsimp only at hs
    rcases h.exchange hlock hmem with ⟨hold, hinv⟩ | ⟨hold, rfl⟩
    · rw [if_pos hold] at hs
      cases hs
      exact hinv
    · rw [if_neg hold] at hs
      cases hs
      exact h

variable [DecidablePred (· ∈ guarded)]

theorem Inv.step {e : ι × Event L} (h : Inv lock guarded s) (hlock : lock ∉ guarded)
    (hs : Step lock guarded e s s') : Inv lock guarded s' := by
  obtain ⟨i, e⟩ := e
  cases e with
  | spinLock =>
      obtain ⟨hi, hs⟩ := Option.ite_none_right_eq_some.mp hs
      cases hs
      exact h.goto (by rw [hi]; decide) (by decide)
  | exchange =>
      obtain ⟨hi, hs⟩ := Option.ite_none_right_eq_some.mp hs
      exact h.lockExchange hlock hi hs
  | watch =>
      obtain ⟨hi, hs⟩ := Option.ite_none_right_eq_some.mp hs
      cases hs
      unfold lockWatch
      split
      · exact h
      · exact h.goto (by rw [hi]; decide) (by decide)
  | trylock =>
      obtain ⟨-, hs⟩ := Option.ite_none_right_eq_some.mp hs
      obtain ⟨⟨result, s1⟩, htry, rfl⟩ := Option.map_eq_some_iff.mp hs
      exact h.spinTrylock hlock htry
  | store l v =>
      obtain ⟨⟨hne, hi⟩, hs⟩ := Option.ite_none_right_eq_some.mp hs
      cases hs
      exact h.put hne hi
  | spinUnlock =>
      obtain ⟨hi, hs⟩ := Option.ite_none_right_eq_some.mp hs
      cases hs
      exact h.spinUnlock hi
  | drain => exact h.drain hs

/-- **The lock on a memory with store buffers.** Any number of processors use a lock with
`spin_lock`, `spin_trylock` and `spin_unlock`, in any order and with any delay of their stores. At
most one has the lock; what it reads of the guarded data is what the last store to it wrote, by
whatever processor, as if there were no store buffers; and once nobody has the lock and all stores
have reached memory, the lock is free. -/
theorem spinLock_sequential (hlock : lock ∉ guarded)
    (hr : Reach (Started lock) (Step lock guarded) s) :
    (∀ i j, s.point i = .inside → s.point j = .inside → i = j) ∧
      (∀ i l, s.point i = .inside → l ∈ guarded → s.memory.read i l = s.last l) ∧
      ((∀ i, s.point i ≠ .inside ∧ s.memory.buf i = []) → s.memory.mem lock = LOCK_FREE) := by
  have hinv : Inv lock guarded s :=
    hr.invariant (fun s => inv_started) fun e s s' h hs => h.step hlock hs
  cases hinv with
  | free hword hother =>
      exact ⟨fun i _ hi => absurd hi (hother i).1, fun i _ hi => absurd hi (hother i).1,
        fun _ => hword⟩
  | held o hword hother hlast hpoint =>
      have honly : ∀ i, s.point i = .inside → i = o := by
        intro i hi
        by_contra ho
        exact (hother i ho).1 hi
      refine ⟨fun i j hi hj => (honly i hi).trans (honly j hj).symm, ?_, ?_⟩
      · intro i l hi hl
        rw [honly i hi]
        exact hlast l hl
      · intro hall
        exact absurd hpoint (hall o).1
  | released o pre post hword hother hlast hpoint hbuf =>
      have hnone : ∀ i, s.point i ≠ .inside := by
        intro i
        by_cases ho : i = o
        · rw [ho]
          exact hpoint
        · exact (hother i ho).1
      refine ⟨fun i _ hi => absurd hi (hnone i), fun i _ hi => absurd hi (hnone i), ?_⟩
      intro hall
      have hnil := (hall o).2
      rw [hbuf] at hnil
      exact absurd hnil (by simp)

/-- Processor 0 stores 7 at address 1 in its critical section and releases the lock. Processor 1
spins until the store buffer of the other one is empty; then it has the lock and sees the 7. -/
theorem spinLock_sequential_two :
    ∃ s : Spin (Fin 2) (Fin 2), s.point 1 = .inside ∧ s.memory.read 1 1 = 7 ∧
      s.last 1 = s.memory.read 1 1 := by
  let start : Spin (Fin 2) (Fin 2) := ⟨⟨fun _ => 0, fun _ => []⟩, fun _ => .away, fun _ => 0⟩
  have hrun : ∃ s, runList (exec 0 {1}) [(0, .spinLock), (0, .exchange), (1, .spinLock),
      (1, .exchange), (0, .store 1 7), (1, .watch), (0, .spinUnlock), (1, .watch), (0, .drain),
      (1, .watch), (0, .drain), (1, .watch), (1, .exchange)] start = some s ∧
      s.point 1 = .inside ∧ s.memory.read 1 1 = 7 := ⟨_, rfl, by decide, by decide⟩
  obtain ⟨s, hrun, hin, hread⟩ := hrun
  have hr : Reach (Started 0) (Step 0 {1}) s :=
    reach_runList (fun _ _ _ h => h) (.start ⟨rfl, fun _ => ⟨rfl, rfl⟩, rfl⟩) hrun
  exact ⟨s, hin, hread, ((spinLock_sequential (by simp) hr).2.1 1 1 hin rfl).symm⟩

end Spin

end NowOS
