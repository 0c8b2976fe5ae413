import Nagoya.Reactor.Descriptors

/-!
# `Nagoya.Reactor.Thread`: the thread of a reactor, its wakes and its end

`run` is the loop that `Reactor::start` puts on a thread. Each pass reads `running`, services the
timers, waits in the poller and dispatches the events. `Poller::wake` interrupts the wait, and a
wake that comes before the wait is kept by the kernel. On epoll it is kept in the counter of an
`eventfd`, which the thread reads when the wait reports it. A full counter refuses a write, and
that is no error. On kqueue it is a user event, which the return of the wait clears.

`stop` stores to `running`, wakes the poller and joins the thread. `shutdown` calls it, and the drop
of the reactor calls it again.

The environment chooses what ends a wait: an event, a timeout, a signal or an error. A wait that
has a pending wake may return without it, when the events of others fill the buffer. A waker that
the thread wakes may panic, and that ends the thread.
-/

set_option autoImplicit false

namespace Nagoya.Reactor.Thread

open Nagoya.Lib
open Nagoya.Reactor.Descriptors (Backend)

/-- The largest value of the counter of an `eventfd`. -/
def eventfdMax : Nat := 2 ^ 64 - 2

/-- `Poller::wake`: what it does to the wake that the kernel keeps. -/
def wake : Backend → Nat → Nat
  -- `EAGAIN` means that the counter is full.
  | .epoll, pending => if pending < eventfdMax then pending + 1 else pending
  | .kqueue, _ => 1

/-- The next step of `run`. -/
inductive RunPc where
  | loadRunning
  | serviceTimers
  /-- Blocked in `Poller::wait`. -/
  | wait
  /-- The wait reported the wake, and the counter is still to be read. -/
  | drain
  | dispatch
  | exited
  deriving DecidableEq, Repr

/-- The next step of `stop`. `again` says that the reactor is dropped afterwards. -/
inductive StopPc where
  | idle
  | storeRunning (again : Bool)
  | wake (again : Bool)
  | join (again : Bool)
  | done
  deriving DecidableEq, Repr

/-- The shared state, the thread and the owner of the reactor. `pending` is the wake that the
kernel keeps, and `handle` says that `thread` holds a `JoinHandle`. `passes` counts the passes of
the loop, and no step reads it. -/
structure State where
  running : Bool
  pending : Nat
  pc : RunPc
  stop : StopPc
  handle : Bool
  passes : Nat
  deriving DecidableEq, Repr

/-- One step of one party. -/
inductive Action where
  /-- The thread goes on, where it has no choice. -/
  | run
  /-- The wait returns and reports the wake. -/
  | wakeReturns
  /-- The wait returns without the wake. -/
  | waitReturns
  /-- The wait fails. -/
  | waitFails
  /-- A waker that the thread wakes panics. -/
  | panics
  /-- Someone calls `Handle::wake`. -/
  | wake
  /-- The reactor is shut down, or dropped. -/
  | stop (shutdown : Bool)
  /-- The next step of `stop`. -/
  | owner
  deriving DecidableEq, Repr

/-- A step of the thread that has no choice. -/
def runStep (s : State) : Option State :=
  match s.pc with
  | .loadRunning =>
    if s.running then some { s with pc := .serviceTimers, passes := s.passes + 1 }
    else some { s with pc := .exited }
  | .serviceTimers => some { s with pc := .wait }
  -- The read leaves the counter at zero.
  | .drain => some { s with pending := 0, pc := .dispatch }
  | .dispatch => some { s with pc := .loadRunning }
  | .wait | .exited => none

/-- The next step of `stop`. -/
def ownerStep (backend : Backend) (s : State) : Option State :=
  match s.stop with
  | .storeRunning again => some { s with running := false, stop := .wake again }
  | .wake again => some { s with pending := wake backend s.pending, stop := .join again }
  | .join again =>
    if s.handle ∧ s.pc ≠ .exited then none
    else some { s with handle := false, stop := if again then .storeRunning false else .done }
  | .idle | .done => none

/-- The step function. -/
def step (backend : Backend) (s : State) : Action → Option State
  | .run => runStep s
  | .wakeReturns =>
    if s.pc = .wait ∧ 0 < s.pending then
      match backend with
      | .epoll => some { s with pc := .drain }
      | .kqueue => some { s with pending := 0, pc := .dispatch }
    else none
  | .waitReturns => if s.pc = .wait then some { s with pc := .dispatch } else none
  | .waitFails => if s.pc = .wait then some { s with pc := .exited } else none
  | .panics =>
    if s.pc = .serviceTimers ∨ s.pc = .dispatch then some { s with pc := .exited } else none
  | .wake => some { s with pending := wake backend s.pending }
  | .stop shutdown =>
    if s.stop = .idle then some { s with stop := .storeRunning shutdown } else none
  | .owner => ownerStep backend s

/-- `Reactor::start` -/
def start : State :=
  { running := true
    pending := 0
    pc := .loadRunning
    stop := .idle
    handle := true
    passes := 0 }

/-- The system of one reactor with a thread. -/
def system (backend : Backend) : Lts State Action where
  init s := s = start
  next := step backend

end Nagoya.Reactor.Thread
