import Nagoya.Reactor.BlockOn

/-!
# `Nagoya.Reactor.PollOnce`: one call of `poll_once_timeout`

`poll_once_timeout` works out how long the poller may block. It asks `service_timers`, which fires
the timers that are due and merges the first deadline that is left with the reactor's cached one.
The result is in nanoseconds, and the poller turns it into what the kernel counts in.

A call is a function here: nobody arms or drops a timer between its steps. `reactorStep` of
`Nagoya.Time.Timers` has the same function step by step, among others that do.
-/

set_option autoImplicit false

namespace Nagoya.Reactor.PollOnce

open Nagoya.Time
open Nagoya.Time.Timers (noDeadline)
open Nagoya.Reactor.BlockOn (pollTimeout)

/-- The pending timers and the reactor's `next_deadline`. -/
structure State where
  registry : Registry
  nextDeadline : Nat

/-- What a call leaves and does: the state after it, the wakers it woke, and the timeout. -/
structure Serviced where
  state : State
  woken : List Waker
  timeout : Option Nat

/-- `service_timers`. Its second result is whether `woken` has a waker. -/
def serviceTimers (s : State) (now : Nat) : Serviced :=
  let deadline := s.nextDeadline
  if deadline ≠ noDeadline ∧ now < deadline then
    { state := s, woken := [], timeout := some (deadline - now) }
  else
    let (registry, due, next) := s.registry.fireDue now
    -- The swap leaves `NO_DEADLINE`, and the `fetch_min` meets it.
    let cached := min noDeadline (next.getD noDeadline)
    { state := { registry, nextDeadline := cached }
      woken := due
      timeout := if cached ≠ noDeadline then some (cached - now) else none }

/-- `Reactor::poll_once_timeout`, up to the wait: `timeout` is what `Poller::wait` is given. -/
def pollOnceTimeout (s : State) (cap : Option Nat) (now : Nat) : Serviced :=
  match cap with
  | some 0 => { state := s, woken := [], timeout := some 0 }
  | cap =>
    let serviced := serviceTimers s now
    { serviced with timeout := pollTimeout cap serviced.timeout (!serviced.woken.isEmpty) }

/-- The milliseconds that `epoll_wait` is given. -/
def epollTimeout : Option Nat → Int
  | none => -1
  | some ns => (min ((ns + 999999) / 1000000) (2 ^ 31 - 1) : Nat)

end Nagoya.Reactor.PollOnce
