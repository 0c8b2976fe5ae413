import Nagoya.Lib.Lts
import Nagoya.Machine
import Nagoya.Sync.WaitQueue

/-!
# `Nagoya.Sync.Notify`: `Notify` and its futures

`Notify` is a stored permit, a broadcast generation, and a wait queue. A section under the
queue lock is one function here. `none` is a panic inside the section.

The system has one `Notify` and any number of `Notified` futures. A call of `poll` or
`enable` runs `ready_or_register`, which is up to three steps: the load of the generation,
the compare-exchange of the permit, and the section under the lock. `Pc` says which of them
is next. A wake that a section hands out is issued after the lock is released.
-/

set_option autoImplicit false

namespace Nagoya.Sync

open Nagoya.Lib

variable [Target]

/-- `Notify`. -/
structure Notify where
  permit : Bool
  generation : Nat
  waiters : WaitQueue
  deriving DecidableEq, Repr

/-- `Notified`. The reference to the `Notify` is left out: the system has one. -/
structure Notified where
  generation : Nat
  registration : Option Nat
  done : Bool
  reservedOne : Bool
  deriving DecidableEq, Repr

namespace Notify

/-- `Notify::new`. -/
def new : Notify := { permit := false, generation := 0, waiters := .new }

/-- `Notify::grant_one`, under the lock. The waker is woken after the lock is released. -/
def grantOne (n : Notify) : Option (Notify × Option Waker) :=
  match n.waiters.grantOne with
  | some (queue, some waker) => some ({ n with waiters := queue }, waker)
  | some (queue, none) => some ({ n with permit := true, waiters := queue }, none)
  | none => none

/-- The section of `Notify::notify_waiters`. -/
def notifyWaiters (n : Notify) : Option (Notify × List Waker) :=
  match n.waiters.grantAll with
  | some (queue, wakers) =>
    some ({ n with generation := usizeAdd n.generation 1, waiters := queue }, wakers)
  | none => none

/-- `Notify::notified`. -/
def notified (n : Notify) : Notified :=
  { generation := n.generation, registration := none, done := false, reservedOne := false }

end Notify

namespace Notified

/-- `assigned`: the grant the slot of this future holds. The outer `none` is a panic. -/
def assigned (f : Notified) (n : Notify) : Option (Option WakeKind) :=
  match f.registration with
  | none => some none
  | some id => (n.waiters.get id).map fun waiter =>
      if waiter.kind ≠ .queued then some waiter.kind else none

/-- `notification`, and the permit after it was looked for: `swap(false)` runs only when there
is no grant and no broadcast. -/
def notification (f : Notified) (n : Notify) (assigned : Option WakeKind) :
    Option WakeKind × Bool :=
  match assigned with
  | some kind => (some kind, n.permit)
  | none =>
    if n.generation ≠ f.generation then (some .all, n.permit)
    else if n.permit then (some .one, false)
    else (none, false)

/-- The section of `ready_or_register` under the queue lock. The flag is its result. -/
def lockSection (f : Notified) (n : Notify) (waker : Option Waker) :
    Option (Notify × Notified × Bool) :=
  match f.assigned n with
  | none => none
  | some assigned =>
    match f.notification n assigned with
    | (some kind, permit) =>
      match n.waiters.remove f.registration with
      | none => none
      | some (queue, _) =>
        some ({ n with permit := permit, waiters := queue },
          { f with registration := none, done := true, reservedOne := kind = .one }, true)
    | (none, permit) =>
      match n.waiters.register f.registration waker with
      | none => none
      | some (queue, id, _) =>
        some ({ n with permit := permit, waiters := queue }, { f with registration := some id },
          false)

/-- `Drop for Notified`. A reserved notification is handed on by `notify_one`, and a granted
one by `grant_one` in the section that removes the slot. -/
def drop (f : Notified) (n : Notify) : Option (Notify × Option Waker) :=
  if f.reservedOne then
    n.grantOne
  else if f.registration.isNone then
    some (n, none)
  else
    match n.waiters.remove f.registration with
    | none => none
    | some (queue, removed) =>
      if removed.map Waiter.kind = some .one then
        Notify.grantOne { n with waiters := queue }
      else
        some ({ n with waiters := queue }, none)

end Notified

namespace NotifySystem

/-- The caller of `ready_or_register`. -/
inductive Call where
  | enable
  | poll (waker : Waker)
  deriving DecidableEq, Repr

/-- The waker a call passes on. -/
def Call.waker : Call → Option Waker
  | .enable => none
  | .poll waker => some waker

/-- The next step of a future: nothing in progress, the load of the generation, the
compare-exchange of the permit, the section under the lock, or the return of `true`. -/
inductive Pc where
  | idle
  | loadGeneration (call : Call)
  | takePermit (call : Call)
  | lock (call : Call)
  | ready (call : Call)
  deriving DecidableEq, Repr

/-- A future of the system. -/
inductive Party where
  | live (future : Notified) (pc : Pc)
  | dropped
  deriving DecidableEq, Repr

/-- One `Notify`, its futures, and the wakes that are handed out and not yet issued. -/
structure State where
  notify : Notify
  futures : List Party
  wakes : List Waker
  deriving DecidableEq, Repr

/-- One step of one party. -/
inductive Action where
  | notified
  | notifyOne
  | notifyWaiters
  | call (i : Nat) (call : Call)
  | advance (i : Nat)
  | drop (i : Nat)
  | wake
  deriving DecidableEq, Repr

/-- Where a call of `ready_or_register` starts: its checks of `done` and `registration` read
only the future. -/
def start (f : Notified) (call : Call) : Pc :=
  if f.done then .ready call
  -- Only a future without a slot looks before it takes the lock.
  else if f.registration.isNone then .loadGeneration call
  else .lock call

/-- The next step of the call that a future has in progress. -/
def advance (n : Notify) (f : Notified) : Pc → Option (Notify × Notified × Pc)
  | .idle => none
  | .loadGeneration call =>
    if n.generation ≠ f.generation then some (n, { f with done := true }, .ready call)
    else some (n, f, .takePermit call)
  | .takePermit call =>
    if n.permit then
      some ({ n with permit := false }, { f with done := true, reservedOne := true },
        .ready call)
    else some (n, f, .lock call)
  | .lock call =>
    match f.lockSection n call.waker with
    | none => none
    | some (n, f, true) => some (n, f, .ready call)
    | some (n, f, false) => some (n, f, .idle)
  -- `enable` keeps a reservation, and a poll hands it to its caller.
  | .ready .enable => some (n, f, .idle)
  | .ready (.poll _) => some (n, { f with reservedOne := false }, .idle)

/-- The step function. -/
def step (s : State) : Action → Option State
  | .notified => some { s with futures := s.futures ++ [.live s.notify.notified .idle] }
  | .notifyOne =>
    match s.notify.grantOne with
    | none => none
    | some (notify, waker) => some { s with notify, wakes := s.wakes ++ waker.toList }
  | .notifyWaiters =>
    match s.notify.notifyWaiters with
    | none => none
    | some (notify, wakers) => some { s with notify, wakes := s.wakes ++ wakers }
  | .call i call =>
    match s.futures[i]? with
    | some (.live f .idle) =>
      some { s with futures := s.futures.set i (.live f (start f call)) }
    | _ => none
  | .advance i =>
    match s.futures[i]? with
    | some (.live f pc) =>
      match advance s.notify f pc with
      | none => none
      | some (notify, f, pc) =>
        some { s with notify, futures := s.futures.set i (.live f pc) }
    | _ => none
  -- A future is dropped between its calls.
  | .drop i =>
    match s.futures[i]? with
    | some (.live f .idle) =>
      match f.drop s.notify with
      | none => none
      | some (notify, waker) =>
        some { notify, futures := s.futures.set i .dropped, wakes := s.wakes ++ waker.toList }
    | _ => none
  | .wake =>
    match s.wakes with
    | [] => none
    | _ :: wakes => some { s with wakes }

/-- The system of one `Notify`. -/
def system : Lts State Action where
  init s := s = { notify := .new, futures := [], wakes := [] }
  next := step

end NotifySystem

end Nagoya.Sync
