import Nagoya.Lib.Lts

/-!
# `Nagoya.BlockOn`: one future on the thread that asked

`block_on` polls its future and waits for a wake between two polls. The waker of the future stores
to `woken` and unparks the thread. The wait takes `woken`, and parks the thread while there is
nothing to take. Without a `std` it spins. `block_on_with_host` has no `woken`: its waker unparks a
slot of the host, and a return of `Host::park` is followed by a poll.

A thread has one park permit. An unpark sets it, and a park that finds it takes it. Anyone else may
unpark the thread, a park may return without a permit, and the code that the poll runs may park the
same thread, in a `block_on` of its own for example. The slot of a host is dedicated to one caller,
so there the poll does not take the permit.

The system is the loop, and any number of calls of the waker by any threads. `polls` counts the
polls and `wakes` the wakes that have been published. No step reads them.
-/

set_option autoImplicit false

namespace Nagoya.BlockOn

open Nagoya.Lib

/-- The three ways to wait. -/
inductive Build where
  | std
  | noStd
  /-- `block_on_with_host` -/
  | host
  deriving DecidableEq, Repr

/-- The next step of the loop. -/
inductive LoopPc where
  | poll
  | swapWoken
  | park
  | returned
  deriving DecidableEq, Repr

/-- The next step of a call of the waker. -/
inductive WakePc where
  | storeWoken
  | unpark
  | done
  deriving DecidableEq, Repr

/-- The signal, the permit of the thread or of the slot, the loop and the calls. -/
structure State where
  woken : Bool
  permit : Bool
  pc : LoopPc
  calls : List WakePc
  polls : Nat
  wakes : Nat
  deriving DecidableEq, Repr

/-- One step of one party. -/
inductive Action where
  /-- The poll of the future returns. -/
  | pollReturns (ready : Bool)
  /-- `woken.swap(false)` -/
  | swapWoken
  /-- `park` takes the permit and returns. -/
  | parkReturns
  /-- `park` returns without a permit. -/
  | spurious
  /-- A thread calls the waker. -/
  | wake
  /-- The next step of the call `j`. -/
  | waker (j : Nat)
  /-- Someone else unparks the thread. -/
  | unpark
  /-- The code that the poll runs parks the thread and takes the permit. -/
  | takePermit
  deriving DecidableEq, Repr

/-- The first step of the wait after a poll. -/
def Build.wait : Build → LoopPc
  | .host => .park
  | _ => .swapWoken

/-- What the loop does when `park` returns. -/
def afterPark (build : Build) (s : State) : State :=
  match build with
  | .host => { s with pc := .poll, polls := s.polls + 1 }
  | _ => { s with pc := .swapWoken }

/-- `Signal::wake` and `HostWake::wake`, from the first step on. -/
def Build.wakePc : Build → WakePc
  | .host => .unpark
  | _ => .storeWoken

/-- The next step of the call `j`. -/
def wakeStep (build : Build) (s : State) (j : Nat) : WakePc → Option State
  | .storeWoken =>
    -- Without a thread to park, the loop spins on the flag.
    let pc := if build = .std then .unpark else .done
    some { s with woken := true, wakes := s.wakes + 1, calls := s.calls.set j pc }
  | .unpark =>
    let wakes := if build = .host then s.wakes + 1 else s.wakes
    some { s with permit := true, wakes, calls := s.calls.set j .done }
  | .done => none

/-- The step function. -/
def step (build : Build) (s : State) : Action → Option State
  | .pollReturns ready =>
    if s.pc = .poll then some { s with pc := if ready then .returned else build.wait } else none
  | .swapWoken =>
    if s.pc = .swapWoken then
      if s.woken then some { s with woken := false, pc := .poll, polls := s.polls + 1 }
      else some { s with pc := if build = .std then .park else .swapWoken }
    else none
  | .parkReturns =>
    if s.pc = .park ∧ s.permit then some (afterPark build { s with permit := false }) else none
  | .spurious => if s.pc = .park then some (afterPark build s) else none
  | .wake => some { s with calls := s.calls ++ [build.wakePc] }
  | .waker j =>
    match s.calls[j]? with
    | some pc => wakeStep build s j pc
    | none => none
  | .unpark => some { s with permit := true }
  -- A host parks on a slot of its own, which the poll does not reach.
  | .takePermit =>
    if s.pc = .poll ∧ build ≠ .host then some { s with permit := false } else none

/-- The start of `block_on`. The thread may have a permit from before. -/
def new (permit : Bool) : State :=
  { woken := false
    permit
    pc := .poll
    calls := []
    polls := 1
    wakes := 0 }

/-- The system of one call of `block_on`. -/
def system (build : Build) : Lts State Action where
  init s := ∃ permit, s = new permit
  next := step build

end Nagoya.BlockOn
