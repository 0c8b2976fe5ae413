import Nagoya.Lib.Lts
import Nagoya.Lib.Pool
import Nagoya.Machine
import Nagoya.Sync.WaitQueue

/-!
# `Nagoya.Sync.RwLock`: the reader-writer lock and its futures

One word holds the number of readers, or `WRITER`. The waiters are a queue behind a lock. A
step is one load, one compare-exchange, one `fetch_sub`, one store, or one section under the
queue lock.

There are eight ways to a guard: `try_read`, `try_write`, their owned forms, and the futures
`Read`, `Write`, `ReadOwned` and `WriteOwned`. They differ in the mode and in who holds the
`Arc`. An owned future takes its `Arc` into the guard, and polling it again panics.

A guard is outstanding from the compare-exchange that admits it to the step of its drop that
changes the word. The value behind the lock is left out: no step of the lock reads it.
-/

set_option autoImplicit false

namespace Nagoya.Sync

open Nagoya.Lib

variable [Target]

/-- `WRITER`. -/
def writer : Nat := usizeMax

/-- `RwLock`. -/
structure RwLock where
  state : Nat
  waiters : WaitQueue
  deriving DecidableEq, Repr

namespace RwLockSystem

/-- What a guard is for. -/
inductive Mode where
  | read
  | write
  deriving DecidableEq, Repr

/-- The next step of `try_read_raw` or `try_write_raw`. -/
inductive TryPc where
  | readLoad
  | readExchange (current : Nat)
  | writeExchange
  deriving DecidableEq, Repr

/-- What such a step leads to. -/
inductive TryNext where
  | again (pc : TryPc)
  | failed
  | taken
  deriving DecidableEq, Repr

/-- The first step of a try. -/
def tryStart : Mode → TryPc
  | .read => .readLoad
  | .write => .writeExchange

/-- The head of the loop of `try_read_raw`: the test of `current`. -/
def tryReadLoop (current : Nat) : TryNext :=
  if current = writer then .failed else .again (.readExchange current)

/-- One step of `try_read_raw` or `try_write_raw` on the word. The weak compare-exchange of a
reader may fail for no reason, and `spurious` says that it does. -/
def tryRaw (state : Nat) (spurious : Bool) : TryPc → Nat × TryNext
  | .readLoad => (state, tryReadLoop state)
  | .readExchange current =>
    if state = current ∧ spurious = false then (current + 1, .taken)
    else (state, tryReadLoop state)
  | .writeExchange => if state = 0 then (writer, .taken) else (state, .failed)

/-- The next step of an acquisition. `idle pending` is a future that is not being polled, with
`pending` when its last poll returned `Pending`. `taken` has been admitted and has not removed
its registration. -/
inductive Pc where
  | idle (pending : Bool)
  | first (waker : Waker) (pc : TryPc)
  | register (waker : Waker)
  | second (pc : TryPc)
  | taken
  | dropped
  deriving DecidableEq, Repr

/-- `Read`, `Write`, `ReadOwned` or `WriteOwned`. `lock` is whether the future still refers to
its lock: an owned one gives its `Arc` to the guard. -/
structure Future where
  mode : Mode
  owned : Bool
  lock : Bool
  registration : Option Nat
  pc : Pc
  deriving DecidableEq, Repr

/-- A call of `try_read`, `try_write` or an owned form. -/
structure TryCall where
  mode : Mode
  owned : Bool
  pc : TryPc
  deriving DecidableEq, Repr

/-- A guard. -/
structure Guard where
  mode : Mode
  owned : Bool
  deriving DecidableEq, Repr

/-- One lock with its futures, calls and guards. A call that has returned and a guard that was
dropped are `none`. `owed` counts the releases that freed the lock and have not run their
`wake_all`. `wakes` are the wakes handed out by the queue and not yet issued. -/
structure State where
  lock : RwLock
  futures : List Future
  tries : List (Option TryCall)
  guards : List (Option Guard)
  owed : Nat
  wakes : List Waker
  deriving DecidableEq, Repr

/-- One step of one party. -/
inductive Action where
  | acquire (mode : Mode) (owned : Bool)
  | poll (i : Nat) (waker : Waker)
  | advance (i : Nat) (spurious : Bool)
  | drop (i : Nat)
  | tryAcquire (mode : Mode) (owned : Bool)
  | advanceTry (i : Nat) (spurious : Bool)
  | dropGuard (i : Nat)
  | wakeAll
  | wake
  deriving DecidableEq, Repr

/-- The future after one step of a try. -/
def afterTry (lock : RwLock) (f : Future) (spurious : Bool) (pc : TryPc)
    (again : TryPc → Pc) (failed : Pc) : RwLock × Future :=
  match tryRaw lock.state spurious pc with
  | (state, .again pc) => ({ lock with state }, { f with pc := again pc })
  | (state, .failed) => ({ lock with state }, { f with pc := failed })
  | (state, .taken) => ({ lock with state }, { f with pc := .taken })

/-- The next step of the poll that a future has in progress, with the guard it returns. -/
def advance (lock : RwLock) (f : Future) (spurious : Bool) :
    Option (RwLock × Future × Option Guard) :=
  match f.pc with
  | .idle _ => none
  | .dropped => none
  | .first waker pc =>
    let (lock, f) := afterTry lock f spurious pc (.first waker) (.register waker)
    some (lock, f, none)
  -- The lock is looked at once more after the registration, so a release in between is seen.
  | .register waker =>
    match Waiters.register lock.waiters f.registration waker with
    | none => none
    | some (queue, id) =>
      some ({ lock with waiters := queue },
        { f with registration := some id, pc := .second (tryStart f.mode) }, none)
  | .second pc =>
    let (lock, f) := afterTry lock f spurious pc .second (.idle true)
    some (lock, f, none)
  -- An owned future hands its `Arc` to the guard.
  | .taken =>
    match Waiters.remove lock.waiters f.registration with
    | none => none
    | some (queue, _) =>
      some ({ lock with waiters := queue },
        { f with registration := none, lock := !f.owned, pc := .idle false },
        some { mode := f.mode, owned := f.owned })

/-- The drop of a future. An owned one that gave its `Arc` away has nothing to remove. -/
def drop (lock : RwLock) (f : Future) : Option (RwLock × Future) :=
  if f.lock then
    match Waiters.remove lock.waiters f.registration with
    | none => none
    | some (queue, _) =>
      some ({ lock with waiters := queue }, { f with registration := none, pc := .dropped })
  else
    some (lock, { f with pc := .dropped })

/-- The step of `release_read` and `release_write` that changes the word, and whether a
`wake_all` follows. -/
def release (state : Nat) : Mode → Nat × Bool
  -- `fetch_sub` returned 1, so this was the last reader.
  | .read => (usizeSub state 1, state = 1)
  | .write => (0, true)

/-- The step function. -/
def step (s : State) : Action → Option State
  | .acquire mode owned =>
    let f : Future := { mode, owned, lock := true, registration := none, pc := .idle false }
    some { s with futures := s.futures ++ [f] }
  | .poll i waker =>
    -- An owned future that has returned its guard panics when it is polled again.
    match s.futures[i]? with
    | some ⟨mode, owned, true, registration, .idle _⟩ =>
      some { s with
        futures := s.futures.set i ⟨mode, owned, true, registration, .first waker (tryStart mode)⟩ }
    | _ => none
  | .advance i spurious =>
    match s.futures[i]? with
    | none => none
    | some f =>
      match advance s.lock f spurious with
      | none => none
      | some (lock, f, guard) =>
        some { s with
          lock
          futures := s.futures.set i f
          guards := s.guards ++ guard.toList.map some }
  | .drop i =>
    match s.futures[i]? with
    | some ⟨mode, owned, arc, registration, .idle pending⟩ =>
      match drop s.lock ⟨mode, owned, arc, registration, .idle pending⟩ with
      | none => none
      | some (lock, f) => some { s with lock, futures := s.futures.set i f }
    | _ => none
  | .tryAcquire mode owned =>
    some { s with tries := s.tries ++ [some { mode, owned, pc := tryStart mode }] }
  | .advanceTry i spurious =>
    match s.tries[i]? with
    | some (some call) =>
      match tryRaw s.lock.state spurious call.pc with
      | (state, .again pc) =>
        some { s with lock.state := state, tries := s.tries.set i (some { call with pc }) }
      | (state, .failed) => some { s with lock.state := state, tries := s.tries.set i none }
      | (state, .taken) =>
        some { s with
          lock.state := state
          tries := s.tries.set i none
          guards := s.guards ++ [some { mode := call.mode, owned := call.owned }] }
    | _ => none
  | .dropGuard i =>
    match s.guards[i]? with
    | some (some guard) =>
      let (state, wake) := release s.lock.state guard.mode
      some { s with
        lock.state := state
        guards := s.guards.set i none
        owed := if wake then s.owed + 1 else s.owed }
    | _ => none
  | .wakeAll =>
    if s.owed = 0 then none
    else
      match Waiters.wakeAll s.lock.waiters with
      | none => none
      | some (queue, wakers) =>
        some { s with
          lock.waiters := queue
          owed := s.owed - 1
          wakes := s.wakes ++ wakers }
  | .wake =>
    match s.wakes with
    | [] => none
    | _ :: wakes => some { s with wakes }

/-- `RwLock::new`. -/
def new : State :=
  { lock := { state := 0, waiters := .new }, futures := [], tries := [], guards := [], owed := 0,
    wakes := [] }

/-- The system of one lock. -/
def system : Lts State Action where
  init s := s = new
  next := step

end RwLockSystem

end Nagoya.Sync
