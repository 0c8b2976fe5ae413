import Nagoya.Lib.Lts
import Nagoya.Machine
import Nagoya.Time.TimerHeap

/-!
# `Nagoya.Time.Timers`: sleeps and the two hosts of the timers

The system is the registry of pending timers, any number of `Sleep`s, and whoever fires them. A
`Sleep` may be polled and dropped by any thread. When one becomes the earliest timer its poll
nudges the host. The host is chosen once: it is a reactor that `set_timer_reactor` names, or
else the dedicated timer thread. Both are here, with every lock section and atomic operation as
one step. Another reactor may fire timers from the same heap at any moment.

Before the first timer `PENDING` is `None`, which every function takes for the empty heap.

The clock moves by a step of its own and never backwards. A reading is the clock in 64 bits, as
`std_clock` gives it.
-/

set_option autoImplicit false

namespace Nagoya.Time

open Nagoya.Lib

/-! ### The registry -/

/-- `Slot`, whose `index` is kept by the heap. -/
structure Slot where
  fired : Bool
  waker : Option Waker
  deriving DecidableEq, Repr

/-- `PENDING`, `SEQ` and the slots. -/
structure Registry where
  heap : TimerHeap
  seq : Nat
  slots : List Slot

namespace Registry

/-- The loop of `fire_due`, with the count of iterations left. `due` are the wakers so far. -/
def fireLoop (now : Nat) : Nat → Registry → List Waker → Registry × List Waker
  | 0, r, due => (r, due)
  | fuel + 1, r, due =>
    match r.heap.peek with
    | none => (r, due)
    | some entry =>
      if now < entry.deadline then (r, due)
      else
        match r.heap.pop with
        -- `expect("peeked")`
        | none => (r, due)
        | some (heap, entry) =>
          match r.slots[entry.slot]? with
          | none => fireLoop now fuel { r with heap } due
          | some slot =>
            fireLoop now fuel
              { r with
                heap
                slots := r.slots.set entry.slot { fired := true, waker := none } }
              (due ++ slot.waker.toList)

/-- The lock section of `fire_due`: the registry after it, the wakers it took, and when the next
timer is due. -/
def fireDue (r : Registry) (now : Nat) : Registry × List Waker × Option Nat :=
  let (r, due) := fireLoop now r.heap.entries.length r []
  (r, due, r.heap.peek.map Entry.deadline)

/-- `arm`, for a slot that the poll has just made. -/
def arm (r : Registry) (deadline : Nat) (waker : Waker) : Registry × Bool :=
  let earliest :=
    match r.heap.peek with
    | none => true
    | some entry => deadline < entry.deadline
  ({ heap := r.heap.push { deadline, seq := r.seq, slot := r.slots.length }
     seq := (r.seq + 1) % 2 ^ 64
     slots := r.slots ++ [{ fired := false, waker := some waker }] },
    earliest)

/-- The lock section of `Drop for Sleep`. A place outside the heap makes it panic. -/
def cancel (r : Registry) (slot : Nat) : Option Registry :=
  match r.heap.index slot with
  | none => some r
  | some index =>
    match r.heap.remove index with
    | none => none
    | some (heap, _) => some { r with heap }

end Registry

/-! ### The parties -/

namespace Timers

/-- `NO_DEADLINE`: no timer is armed, `u64::MAX`. -/
def noDeadline : Nat := 2 ^ 64 - 1

/-- Who drives the timers. -/
inductive Host where
  | dedicated
  | reactor
  deriving DecidableEq, Repr

/-- The next step of the calls on one `Sleep`. -/
inductive SleepPc where
  | idle
  -- `Sleep::poll`, when the sleep is armed
  | loadFired (waker : Waker)
  | storeWaker (waker : Waker)
  | reloadFired
  -- `Sleep::poll`, when it is not
  | readClock (waker : Waker)
  | arm (waker : Waker)
  -- `driver::nudge`: `HOST.get_or_init`
  | nudge
  -- `Handle::timer_armed`
  | loadCache
  | exchange (current : Nat)
  | wakePoller
  -- the dedicated thread: `start`, the flag, `notify_one`
  | start
  | setNudged
  | notify
  -- `Drop for Sleep`, after the lock section
  | takeWaker
  | dropped
  deriving DecidableEq, Repr

/-- A `Sleep`. `slot` is there once it is armed, and `ready` is what its last poll returned. -/
structure Sleep where
  deadline : Nat
  slot : Option Nat
  pc : SleepPc
  ready : Option Bool
  deriving DecidableEq, Repr

/-- The next step of the loop of the reactor that hosts the timers: `run` and
`service_timers`. -/
inductive ReactorPc where
  | loadCache
  | readClock (deadline : Nat)
  | swap (now : Nat)
  | fire (now : Nat)
  | wakeDue (now : Nat) (due : List Waker) (next : Option Nat)
  | fetchMin (now : Nat) (next : Option Nat)
  | load (now : Nat)
  /-- Blocked in `Poller::wait`. -/
  | wait (now : Nat) (bound : Option Nat)
  | drain (sawWake : Bool)
  deriving DecidableEq, Repr

/-- The next step of the dedicated timer thread: `driver::run`. -/
inductive DriverPc where
  | off
  | readClock
  | fire (now : Nat)
  | wakeDue (due : List Waker) (next : Option Nat)
  | lock (next : Option Nat)
  | test (next : Option Nat)
  | readClockAgain (deadline : Nat)
  /-- Blocked in the wait of the condition variable. -/
  | wait (target : Option Nat)
  | relock
  | clear
  deriving DecidableEq, Repr

/-- The driver has the nudge lock. -/
def DriverPc.locked : DriverPc → Bool
  | .test _ | .readClockAgain _ | .clear => true
  | _ => false

/-- The registry, the sleeps, the host with what belongs to it, and the wakers woken so far.
`cache` is the reactor's `next_deadline`. -/
structure State where
  clock : Nat
  registry : Registry
  sleeps : List Sleep
  host : Option Host
  cache : Nat
  wakePending : Bool
  reactor : ReactorPc
  nudged : Bool
  driver : DriverPc
  woken : List Waker

/-- One step of one party. -/
inductive Action where
  | tick
  | sleepUntil (deadline : Nat)
  | setTimerReactor
  /-- Someone polls the sleep `i`. -/
  | poll (i : Nat) (waker : Waker)
  /-- Someone drops the sleep `i`. -/
  | drop (i : Nat)
  /-- The next step of the call on the sleep `i`. A weak exchange may fail spuriously. -/
  | sleep (i : Nat) (spurious : Bool)
  /-- The next step of the hosting reactor. A wait that returns may have seen the wake. -/
  | reactor (sawWake : Bool)
  | driver
  /-- The wait of the condition variable returns: in time, notified or spuriously. -/
  | endWait
  /-- Another reactor calls `fire_due` with a reading of the clock. -/
  | fireElsewhere (now : Nat)
  deriving DecidableEq, Repr

/-- `now_ns` -/
def nowNs (s : State) : Nat := min s.clock (2 ^ 64 - 1)

/-- The sleep at `i` is replaced. -/
def State.put (s : State) (i : Nat) (a : Sleep) : State := { s with sleeps := s.sleeps.set i a }

/-- The next step of a call on the sleep `a`. -/
def sleepStep (s : State) (i : Nat) (a : Sleep) (spurious : Bool) : Option State :=
  match a.pc with
  | .idle | .dropped => none
  | .loadFired waker =>
    match a.slot.bind fun k => s.registry.slots[k]? with
    | none => none
    | some slot =>
      if slot.fired then some (s.put i { a with pc := .idle, ready := some true })
      else some (s.put i { a with pc := .storeWaker waker })
  | .storeWaker waker =>
    match a.slot with
    | none => none
    | some k =>
      match s.registry.slots[k]? with
      | none => none
      | some slot =>
        let slots := s.registry.slots.set k { slot with waker := some waker }
        some ({ s with registry := { s.registry with slots } }.put i { a with pc := .reloadFired })
  | .reloadFired =>
    match a.slot.bind fun k => s.registry.slots[k]? with
    | none => none
    | some slot => some (s.put i { a with pc := .idle, ready := some slot.fired })
  | .readClock waker =>
    if a.deadline ≤ nowNs s then some (s.put i { a with pc := .idle, ready := some true })
    else some (s.put i { a with pc := .arm waker })
  | .arm waker =>
    let (registry, earliest) := s.registry.arm a.deadline waker
    let a := { a with slot := some s.registry.slots.length }
    some ({ s with registry }.put i
      (if earliest then { a with pc := .nudge } else { a with pc := .idle, ready := some false }))
  | .nudge =>
    match s.host.getD .dedicated with
    | .dedicated => some ({ s with host := some .dedicated }.put i { a with pc := .start })
    | .reactor => some ({ s with host := some .reactor }.put i { a with pc := .loadCache })
  | .loadCache =>
    if s.cache ≤ a.deadline then some (s.put i { a with pc := .idle, ready := some false })
    else some (s.put i { a with pc := .exchange s.cache })
  | .exchange current =>
    if s.cache = current ∧ spurious = false then
      some ({ s with cache := a.deadline }.put i { a with pc := .wakePoller })
    -- The exchange failed, and the loop tests what it saw.
    else if s.cache ≤ a.deadline then some (s.put i { a with pc := .idle, ready := some false })
    else some (s.put i { a with pc := .exchange s.cache })
  | .wakePoller =>
    some ({ s with wakePending := true }.put i { a with pc := .idle, ready := some false })
  | .start =>
    match s.driver with
    | .off => some ({ s with driver := .readClock }.put i { a with pc := .setNudged })
    | _ => some (s.put i { a with pc := .setNudged })
  | .setNudged =>
    if s.driver.locked then none
    else some ({ s with nudged := true }.put i { a with pc := .notify })
  | .notify =>
    let s := s.put i { a with pc := .idle, ready := some false }
    match s.driver with
    | .wait _ => some { s with driver := .relock }
    | _ => some s
  | .takeWaker =>
    match a.slot with
    | none => none
    | some k =>
      match s.registry.slots[k]? with
      | none => none
      | some slot =>
        let slots := s.registry.slots.set k { slot with waker := none }
        some ({ s with registry := { s.registry with slots } }.put i { a with pc := .dropped })

/-- The next step of the hosting reactor. -/
def reactorStep (s : State) (sawWake : Bool) : State :=
  match s.reactor with
  | .loadCache => { s with reactor := .readClock s.cache }
  | .readClock deadline =>
    let now := nowNs s
    if deadline ≠ noDeadline ∧ now < deadline then
      { s with reactor := .wait now (some (deadline - now)) }
    else { s with reactor := .swap now }
  | .swap now => { s with cache := noDeadline, reactor := .fire now }
  | .fire now =>
    let (registry, due, next) := s.registry.fireDue now
    { s with registry, reactor := .wakeDue now due next }
  | .wakeDue now [] next => { s with reactor := .fetchMin now next }
  | .wakeDue now (waker :: due) next =>
    { s with woken := s.woken ++ [waker], reactor := .wakeDue now due next }
  | .fetchMin now next =>
    { s with cache := min s.cache (next.getD noDeadline), reactor := .load now }
  | .load now =>
    let bound := if s.cache = noDeadline then none else some (s.cache - now)
    { s with reactor := .wait now bound }
  -- An event, the timeout, a signal or a wake ended the wait.
  | .wait _ _ => { s with reactor := .drain (sawWake && s.wakePending) }
  | .drain sawWake => { s with wakePending := s.wakePending && !sawWake, reactor := .loadCache }

/-- The next step of the dedicated timer thread. -/
def driverStep (s : State) : Option State :=
  match s.driver with
  | .off | .wait _ => none
  | .readClock => some { s with driver := .fire (nowNs s) }
  | .fire now =>
    let (registry, due, next) := s.registry.fireDue now
    some { s with registry, driver := .wakeDue due next }
  | .wakeDue [] next => some { s with driver := .lock next }
  | .wakeDue (waker :: due) next =>
    some { s with woken := s.woken ++ [waker], driver := .wakeDue due next }
  | .lock next => some { s with driver := .test next }
  | .test next =>
    if s.nudged then some { s with nudged := false, driver := .readClock }
    else
      match next with
      | some deadline => some { s with driver := .readClockAgain deadline }
      | none => some { s with driver := .wait none }
  | .readClockAgain deadline =>
    if deadline ≤ nowNs s then some { s with driver := .readClock }
    else some { s with driver := .wait (some deadline) }
  | .relock => some { s with driver := .clear }
  | .clear => some { s with nudged := false, driver := .readClock }

/-- The step function. -/
def step (s : State) : Action → Option State
  | .tick => some { s with clock := s.clock + 1 }
  | .sleepUntil deadline =>
    some { s with sleeps := s.sleeps ++ [{ deadline, slot := none, pc := .idle, ready := none }] }
  | .setTimerReactor =>
    -- `HOST.set` fails when the host has been chosen.
    some { s with host := some (s.host.getD .reactor) }
  | .poll i waker =>
    match s.sleeps[i]? with
    | some a =>
      match a.pc, a.slot with
      | .idle, some _ => some (s.put i { a with pc := .loadFired waker, ready := none })
      | .idle, none => some (s.put i { a with pc := .readClock waker, ready := none })
      | _, _ => none
    | none => none
  | .drop i =>
    match s.sleeps[i]? with
    | some a =>
      match a.pc, a.slot with
      | .idle, none => some (s.put i { a with pc := .dropped })
      | .idle, some k =>
        match s.registry.cancel k with
        | none => none
        | some registry => some ({ s with registry }.put i { a with pc := .takeWaker })
      | _, _ => none
    | none => none
  | .sleep i spurious =>
    match s.sleeps[i]? with
    | some a => sleepStep s i a spurious
    | none => none
  | .reactor sawWake => some (reactorStep s sawWake)
  | .driver => driverStep s
  | .endWait =>
    match s.driver with
    | .wait _ => some { s with driver := .relock }
    | _ => none
  | .fireElsewhere now =>
    if now ≤ nowNs s then
      let (registry, due, _) := s.registry.fireDue now
      some { s with registry, woken := s.woken ++ due }
    else none

/-- No sleep yet, and the reactor at the start of its loop. -/
def new : State :=
  { clock := 0
    registry := { heap := .empty, seq := 0, slots := [] }
    sleeps := []
    host := none
    cache := noDeadline
    wakePending := false
    reactor := .loadCache
    nudged := false
    driver := .off
    woken := [] }

/-- The system of the timers. -/
def system : Lts State Action where
  init s := s = new
  next := step

end Timers

end Nagoya.Time
