import Nagoya.Lib.Lts
import Nagoya.Lib.Pool
import Nagoya.Machine
import Nagoya.Sync.WaitQueue

/-!
# `Nagoya.Sync.Semaphore`: `Semaphore` and its futures

The count of permits is an atomic word and the waiters are a queue behind a lock. They are
updated in separate steps. A step here is one load, one compare-exchange, one `fetch_add`, or
one section under the lock.

`try_acquire` is a loop over a weak compare-exchange, which may fail for no reason. The label
of its step says whether it does. `Acquire::poll` tries, registers, and tries again. A release
adds to the count and then owes a `wake_one`. `add_permits(n)` owes `n` of them.

`initial`, `added` and `forgotten` are counts that no step reads. They say what the permits of
the system are made of.
-/

set_option autoImplicit false

namespace Nagoya.Sync

open Nagoya.Lib

variable [Target]

/-- `Semaphore`. -/
structure Semaphore where
  permits : Nat
  waiters : WaitQueue
  deriving DecidableEq, Repr

namespace SemaphoreSystem

/-- The next step of `try_acquire`. -/
inductive TryPc where
  | load
  | compareExchange (current : Nat)
  deriving DecidableEq, Repr

/-- What a step of `try_acquire` leads to. -/
inductive TryNext where
  | again (pc : TryPc)
  | failed
  | taken
  deriving DecidableEq, Repr

/-- The head of the loop of `try_acquire`: the test of `current`. -/
def tryLoop (current : Nat) : TryNext :=
  if current = 0 then .failed else .again (.compareExchange current)

/-- One step of `try_acquire` on the count `permits`. -/
def tryAcquire (permits : Nat) (spurious : Bool) : TryPc → Nat × TryNext
  | .load => (permits, tryLoop permits)
  | .compareExchange current =>
    if permits = current ∧ spurious = false then (current - 1, .taken)
    else (permits, tryLoop permits)

/-- The next step of an `Acquire`. `idle pending` is a future that is not being polled, with
`pending` when its last poll returned `Pending`. `taken` is a poll that holds its permit and
has not removed its registration. `granted` in the second try says that the registration
before it took back a grant. No step reads that flag. -/
inductive Pc where
  | idle (pending : Bool)
  | first (waker : Waker) (pc : TryPc)
  | register (waker : Waker)
  | second (pc : TryPc) (granted : Bool)
  | taken
  | dropLoad
  | dropWake
  | dropped
  deriving DecidableEq, Repr

/-- `Acquire`, with the step it is at. -/
structure Acquire where
  registration : Option Nat
  pc : Pc
  deriving DecidableEq, Repr

/-- One `Semaphore` with its futures. `tries` are the calls of `try_acquire` from outside, and
`none` is one that has returned. `held` counts the permits handed out and not yet dropped or
forgotten. `wakers` are the calls that raised the count, each with the number of `wake_one`
calls it still owes. `wakes` are the wakes handed out by the queue and not yet issued. -/
structure State where
  semaphore : Semaphore
  acquires : List Acquire
  tries : List (Option TryPc)
  held : Nat
  wakers : List Nat
  wakes : List Waker
  initial : Nat
  added : Nat
  forgotten : Nat
  deriving DecidableEq, Repr

/-- One step of one party. -/
inductive Action where
  | acquire
  | poll (i : Nat) (waker : Waker)
  | advance (i : Nat) (spurious : Bool)
  | drop (i : Nat)
  | tryAcquire
  | advanceTry (i : Nat) (spurious : Bool)
  | dropPermit
  | forget
  | addPermits (n : Nat)
  | wakeOne (j : Nat)
  | wake
  deriving DecidableEq, Repr

/-- The future after one step of `try_acquire` in its first or its second try. `again` says how
the try goes on, and `failed` what follows a try that finds no permit. -/
def afterTry (sem : Semaphore) (f : Acquire) (spurious : Bool) (pc : TryPc)
    (again : TryPc → Pc) (failed : Pc) : Semaphore × Acquire :=
  match tryAcquire sem.permits spurious pc with
  | (permits, .again pc) => ({ sem with permits }, { f with pc := again pc })
  | (permits, .failed) => ({ sem with permits }, { f with pc := failed })
  | (permits, .taken) => ({ sem with permits }, { f with pc := .taken })

/-- The next step of the poll or the drop that a future has in progress. The waker is one to
wake. -/
def advance (sem : Semaphore) (f : Acquire) (spurious : Bool) :
    Option (Semaphore × Acquire × Option Waker) :=
  match f.pc with
  | .idle _ => none
  | .dropped => none
  | .first waker pc =>
    let (sem, f) := afterTry sem f spurious pc (.first waker) (.register waker)
    some (sem, f, none)
  | .register waker =>
    match Waiters.register sem.waiters f.registration waker with
    | none => none
    | some (queue, id) =>
      some ({ sem with waiters := queue },
        { registration := some id,
          pc := .second .load (sem.waiters.slotKind f.registration = some .one) }, none)
  | .second pc granted =>
    let (sem, f) := afterTry sem f spurious pc (.second · granted) (.idle true)
    some (sem, f, none)
  -- The kind of the removed slot is not looked at here, as it is in the drop.
  | .taken =>
    match Waiters.remove sem.waiters f.registration with
    | none => none
    | some (queue, _) =>
      some ({ sem with waiters := queue }, { registration := none, pc := .idle false }, none)
  -- The count is read outside the lock.
  | .dropLoad =>
    some (sem, { f with pc := if sem.permits ≠ 0 then .dropWake else .dropped }, none)
  | .dropWake =>
    match Waiters.wakeOne sem.waiters with
    | none => none
    | some (queue, waker) =>
      some ({ sem with waiters := queue }, { f with pc := .dropped }, waker)

/-- The first section of `Drop for Acquire`: a grant that was not used is looked at next. -/
def drop (sem : Semaphore) (f : Acquire) : Option (Semaphore × Acquire) :=
  match Waiters.remove sem.waiters f.registration with
  | none => none
  | some (queue, kind) =>
    some ({ sem with waiters := queue },
      { registration := none, pc := if kind = some .one then .dropLoad else .dropped })

/-- `fetch_add(n)` on the count. -/
def raise (sem : Semaphore) (n : Nat) : Semaphore :=
  { sem with permits := usizeAdd sem.permits n }

/-- The step function. -/
def step (s : State) : Action → Option State
  | .acquire =>
    some { s with acquires := s.acquires ++ [{ registration := none, pc := .idle false }] }
  | .poll i waker =>
    match s.acquires[i]? with
    | some ⟨registration, .idle _⟩ =>
      some { s with acquires := s.acquires.set i ⟨registration, .first waker .load⟩ }
    | _ => none
  | .advance i spurious =>
    match s.acquires[i]? with
    | none => none
    | some f =>
      match advance s.semaphore f spurious with
      | none => none
      | some (semaphore, f', waker) =>
        some { s with
          semaphore
          acquires := s.acquires.set i f'
          held := if f.pc = .taken then s.held + 1 else s.held
          wakes := s.wakes ++ waker.toList }
  | .drop i =>
    match s.acquires[i]? with
    | some ⟨registration, .idle pending⟩ =>
      match drop s.semaphore ⟨registration, .idle pending⟩ with
      | none => none
      | some (semaphore, f) => some { s with semaphore, acquires := s.acquires.set i f }
    | _ => none
  | .tryAcquire => some { s with tries := s.tries ++ [some .load] }
  | .advanceTry i spurious =>
    match s.tries[i]? with
    | some (some pc) =>
      match tryAcquire s.semaphore.permits spurious pc with
      | (permits, .again pc) =>
        some { s with semaphore.permits := permits, tries := s.tries.set i (some pc) }
      | (permits, .failed) =>
        some { s with semaphore.permits := permits, tries := s.tries.set i none }
      | (permits, .taken) =>
        some { s with
          semaphore.permits := permits
          tries := s.tries.set i none
          held := s.held + 1 }
    | _ => none
  | .dropPermit =>
    if s.held = 0 then none
    else some { s with
      semaphore := raise s.semaphore 1
      held := s.held - 1
      wakers := s.wakers ++ [1] }
  -- A permit that is forgotten is never added back.
  | .forget =>
    if s.held = 0 then none
    else some { s with held := s.held - 1, forgotten := s.forgotten + 1 }
  | .addPermits n =>
    if n = 0 then some s
    else some { s with
      semaphore := raise s.semaphore n
      added := s.added + n
      wakers := s.wakers ++ [n] }
  -- A call that added `n` permits makes `n` calls of `wake_one`.
  | .wakeOne j =>
    match s.wakers[j]? with
    | some (n + 1) =>
      match Waiters.wakeOne s.semaphore.waiters with
      | none => none
      | some (queue, waker) =>
        some { s with
          semaphore.waiters := queue
          wakers := s.wakers.set j n
          wakes := s.wakes ++ waker.toList }
    | _ => none
  | .wake =>
    match s.wakes with
    | [] => none
    | _ :: wakes => some { s with wakes }

/-- `Semaphore::new(permits)`. -/
def new (permits : Nat) : State :=
  { semaphore := { permits, waiters := .new }, acquires := [], tries := [], held := 0,
    wakers := [], wakes := [], initial := permits, added := 0, forgotten := 0 }

/-- The system of one `Semaphore`. -/
def system : Lts State Action where
  init s := ∃ permits, permits < usizeModulus ∧ s = new permits
  next := step

/-- The permits ever present fit a machine word. -/
def Bounded (s : State) : Prop := s.initial + s.added < usizeModulus

instance (s : State) : Decidable (Bounded s) := inferInstanceAs (Decidable (_ < _))

end SemaphoreSystem

end Nagoya.Sync
