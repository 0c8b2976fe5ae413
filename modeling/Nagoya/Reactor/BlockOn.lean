import Nagoya.Time.Timers

/-!
# `Nagoya.Reactor.BlockOn`: one future and its reactor on one thread

`block_on_with` polls its future and waits for the kernel on the same thread. The waker of the
future sets `ready`. A wake that the loop's own thread raises inside `poll_once` does no more. Any
other wake also interrupts the poller.

The system is the loop, and any number of calls of `LocalWaker::wake_by_ref` by any thread. A call
on the loop's own thread is made while that thread runs other code: the poll of the future, or the
wakers that `service_timers` and `dispatch` wake. Then the loop stands still until the call is
over. A waker that is woken there may also call `poll_once_timeout(Some(0))`. The poll of the
future does not drive the reactor itself.

The environment chooses what the code outside the loop does: the readings of the clock, how many
timers are due and when the next one is, what ends a wait, and how many wakers an event has. A
wake of the poller stays pending until a wait returns and takes it. On epoll the return and the
read that takes it are two steps.
-/

set_option autoImplicit false

namespace Nagoya.Reactor.BlockOn

open Nagoya.Lib
open Nagoya.Time.Timers (noDeadline)

/-- The next step of the loop. -/
inductive LoopPc where
  | swapReady
  /-- Inside the poll of the future. `failed` is the poll after a wait that failed. -/
  | poll (failed : Bool)
  | storeWaiting
  -- `service_timers`
  | loadDeadline
  | readClock (deadline : Nat)
  | swapDeadline (now : Nat)
  | fireDue (now : Nat)
  /-- `fire_due` has `left` wakers to wake. -/
  | wakeDue (now left : Nat) (next : Option Nat) (woke : Bool)
  | fetchMin (now : Nat) (next : Option Nat) (woke : Bool)
  | loadCached (now : Nat) (woke : Bool)
  /-- Blocked in `Poller::wait`. -/
  | wait (timeout : Option Nat)
  /-- The wait returned. -/
  | drain (sawWake failed : Bool)
  /-- `dispatch` has `left` wakers to wake. -/
  | dispatch (left : Nat)
  | clearWaiting (failed : Bool)
  | returned
  deriving DecidableEq, Repr

/-- The next step of a call of `wake_by_ref`. -/
inductive WakePc where
  | storeReady
  | loadWaiting
  /-- `self.handle.wake()` -/
  | wakePoller
  | done
  deriving DecidableEq, Repr

/-- A call of `wake_by_ref`. `thread` is the key of the thread that makes it. -/
structure WakeCall where
  thread : Nat
  pc : WakePc
  deriving DecidableEq, Repr

/-- The `LocalWaker`, what the loop uses of the reactor, the loop and the calls. `own` is the call
that the loop's thread is making. `setter` is the call that stored to `ready` last, and no step
reads it. -/
structure State where
  ready : Bool
  waiting : Nat
  nextDeadline : Nat
  wakePending : Bool
  pc : LoopPc
  calls : List WakeCall
  own : Option Nat
  setter : Option Nat
  deriving DecidableEq, Repr

/-- One step of one party. -/
inductive Action where
  /-- The loop goes on, where it has no choice. -/
  | loop
  /-- The poll of the future returns. -/
  | pollReturns (ready : Bool)
  /-- The loop reads the clock. -/
  | clock (now : Nat)
  /-- The lock section of `fire_due`. -/
  | fire (due : Nat) (next : Option Nat)
  /-- The wait returns: an event, the timeout, a signal, a wake or an error. -/
  | waitReturns (sawWake failed : Bool)
  /-- The slots of the events are visited. -/
  | collect (wakers : Nat)
  /-- A waker that the loop's thread wakes calls `poll_once_timeout(Some(0))`. -/
  | reenter (sawWake : Bool)
  /-- A thread calls `wake_by_ref`. -/
  | wake (thread : Nat)
  /-- The next step of the call `j`. -/
  | waker (j : Nat)
  /-- `Handle::timer_armed`, when the deadline is sooner than the cached one. -/
  | timerArmed (deadline : Nat)
  /-- Someone else wakes the poller. -/
  | pollerWake
  deriving DecidableEq, Repr

/-- The match in `poll_once_timeout`, after `service_timers`. -/
def pollTimeout (cap due : Option Nat) (woke : Bool) : Option Nat :=
  if woke then some 0
  else
    match cap, due with
    | some c, some d => some (min c d)
    | some c, none => some c
    | none, d => d

/-- The loop's thread runs wakers that `service_timers` or `dispatch` wakes. -/
def LoopPc.waking : LoopPc → Bool
  | .wakeDue _ left _ _ | .dispatch left => 0 < left
  | _ => false

/-- The loop's thread runs code of others, which may wake the `LocalWaker`. -/
def LoopPc.outside : LoopPc → Bool
  | .poll _ => true
  | pc => pc.waking

/-- A step of the loop that has no choice. -/
def loopStep (key : Nat) (s : State) : Option State :=
  match s.pc with
  | .swapReady =>
    if s.ready then some { s with ready := false, pc := .poll false }
    else some { s with pc := .storeWaiting }
  | .storeWaiting => some { s with waiting := key, pc := .loadDeadline }
  | .loadDeadline => some { s with pc := .readClock s.nextDeadline }
  | .swapDeadline now => some { s with nextDeadline := noDeadline, pc := .fireDue now }
  | .wakeDue now (left + 1) next woke => some { s with pc := .wakeDue now left next woke }
  | .wakeDue now 0 next woke => some { s with pc := .fetchMin now next woke }
  | .fetchMin now next woke =>
    some { s with
      nextDeadline := min s.nextDeadline (next.getD noDeadline), pc := .loadCached now woke }
  | .loadCached now woke =>
    let wait := if s.nextDeadline ≠ noDeadline then some (s.nextDeadline - now) else none
    -- `poll_once` has no cap.
    some { s with pc := .wait (pollTimeout none wait woke) }
  | .dispatch (left + 1) => some { s with pc := .dispatch left }
  | .dispatch 0 => some { s with pc := .clearWaiting false }
  | .clearWaiting failed =>
    some { s with waiting := 0, pc := if failed then .poll true else .swapReady }
  | _ => none

/-- The next step of the call `c` of `wake_by_ref`. -/
def wakeStep (s : State) (j : Nat) (c : WakeCall) : Option State :=
  match c.pc with
  | .storeReady =>
    some { s with
      ready := true, setter := some j, calls := s.calls.set j { c with pc := .loadWaiting } }
  | .loadWaiting =>
    if s.waiting = c.thread then
      some { s with
        calls := s.calls.set j { c with pc := .done }
        own := if s.own = some j then none else s.own }
    else some { s with calls := s.calls.set j { c with pc := .wakePoller } }
  | .wakePoller =>
    some { s with
      wakePending := true
      calls := s.calls.set j { c with pc := .done }
      own := if s.own = some j then none else s.own }
  | .done => none

/-- A step of the loop in which the environment chooses. -/
def choiceStep (s : State) : Action → Option State
  | .pollReturns ready =>
    match s.pc with
    | .poll failed =>
      let pc := if failed then .swapReady else .storeWaiting
      some { s with pc := if ready then .returned else pc }
    | _ => none
  | .clock now =>
    match s.pc with
    | .readClock deadline =>
      if deadline ≠ noDeadline ∧ now < deadline then
        some { s with pc := .wait (pollTimeout none (some (deadline - now)) false) }
      else some { s with pc := .swapDeadline now }
    | _ => none
  | .fire due next =>
    match s.pc with
    | .fireDue now => some { s with pc := .wakeDue now due next (0 < due) }
    | _ => none
  | .waitReturns sawWake failed =>
    match s.pc with
    | .wait _ => some { s with pc := .drain (sawWake && s.wakePending) failed }
    | _ => none
  | .collect wakers =>
    match s.pc with
    | .drain sawWake failed =>
      some { s with
        wakePending := s.wakePending && !sawWake
        pc := if failed then .clearWaiting true else .dispatch wakers }
    | _ => none
  | .reenter sawWake =>
    if s.pc.waking then some { s with wakePending := s.wakePending && !sawWake } else none
  | _ => none

/-- The step function. No key is zero, and only the loop's thread has the key `key`. -/
def step (key : Nat) (s : State) : Action → Option State
  | .loop => if s.own = none then loopStep key s else none
  | .wake thread =>
    if thread = 0 then none
    else if thread = key then
      if s.own = none ∧ s.pc.outside then
        some { s with
          calls := s.calls ++ [{ thread, pc := .storeReady }], own := some s.calls.length }
      else none
    else some { s with calls := s.calls ++ [{ thread, pc := .storeReady }] }
  | .waker j =>
    match s.calls[j]? with
    | some c => wakeStep s j c
    | none => none
  | .timerArmed deadline =>
    if deadline < s.nextDeadline then some { s with nextDeadline := deadline } else none
  | .pollerWake => some { s with wakePending := true }
  | act => if s.own = none then choiceStep s act else none

/-- The start of `block_on_with`, on a reactor that was used before. -/
def new (nextDeadline : Nat) (wakePending : Bool) : State :=
  { ready := true
    waiting := 0
    nextDeadline
    wakePending
    pc := .swapReady
    calls := []
    own := none
    setter := none }

/-- The system of a loop whose thread has the key `key`. -/
def system (key : Nat) : Lts State Action where
  init s := ∃ nextDeadline wakePending, s = new nextDeadline wakePending
  next := step key

end Nagoya.Reactor.BlockOn
