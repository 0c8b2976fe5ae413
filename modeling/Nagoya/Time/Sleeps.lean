import Nagoya.Time.Timers

/-!
# `Nagoya.Time.Sleeps`: sleeps and the calls that fire them

`Timers` takes the lock section of `fire_due` as one step. A poll does not need that lock. It
reads `fired` and replaces the waker of its slot while a driver is inside the section. This
system takes the section apart, and every access to a slot is a step of its own. The hosts are
left out. Any number of drivers call `fire_due`, each with a reading of the clock that was taken
at some time before.

`PENDING` is locked by one call at a time. Nobody else sees the heap while it is locked, so the
`pop` of an entry and the store to its `fired` are one step.

Some fields are records that no step reads: the readings of the clock, the result of the last
poll of a sleep, the entries that a call of `fire_due` found and removed, the slot that a due
waker came from, and the wakers that were woken.
-/

set_option autoImplicit false

namespace Nagoya.Time

open Nagoya.Lib

/-- The store to the waker of the slot `k`. -/
def Registry.storeWaker (r : Registry) (k : Nat) (slot : Slot) (waker : Option Waker) : Registry :=
  { r with slots := r.slots.set k { slot with waker } }

namespace Sleeps

/-- The next step of the calls on one `Sleep`. -/
inductive SleepPc where
  | idle
  -- `Sleep::poll`, when the sleep is armed
  | loadFired (waker : Waker)
  | storeWaker (waker : Waker)
  | reloadFired (waker : Waker)
  -- `Sleep::poll`, when it is not
  | readClock (waker : Waker)
  | arm (waker : Waker)
  -- `Drop for Sleep`, after the lock section
  | takeWaker
  | dropped
  deriving DecidableEq, Repr

/-- A `Sleep`. `slot` is there once it is armed. `last` is the waker of the last poll that
returned and whether it returned `Ready`. -/
structure Sleep where
  deadline : Nat
  slot : Option Nat
  pc : SleepPc
  last : Option (Waker × Bool)
  deriving DecidableEq, Repr

/-- The next step of a call of `fire_due`. -/
inductive FirePc where
  | lock
  /-- The head of the loop. -/
  | scan
  /-- The `take` of the waker of a slot that has just been fired. -/
  | takeWaker (slot : Nat)
  /-- The section is over, and the due wakers are woken one by one. -/
  | wake (next : Option Nat) (woke : Bool)
  | returned (next : Option Nat) (woke : Bool)
  deriving DecidableEq, Repr

/-- A call of `fire_due(now)`. `due` has the wakers with their slots. `before` is the heap that the
call found, and `removed` the entries it popped so far. -/
structure FireDue where
  now : Nat
  pc : FirePc
  due : List (Nat × Waker)
  before : List Entry
  removed : List Entry
  deriving DecidableEq, Repr

/-- The registry, the sleeps and the calls of `fire_due`. `holder` is the call that has `PENDING`
locked. -/
structure State where
  clock : Nat
  readings : List Nat
  registry : Registry
  sleeps : List Sleep
  holder : Option Nat
  calls : List FireDue
  woken : List (Nat × Waker)

/-- One step of one party. -/
inductive Action where
  | tick
  /-- A driver reads the clock. -/
  | read
  | sleepUntil (deadline : Nat)
  /-- Someone polls the sleep `i`. -/
  | poll (i : Nat) (waker : Waker)
  /-- Someone drops the sleep `i`. -/
  | drop (i : Nat)
  /-- The next step of the call on the sleep `i`. -/
  | sleep (i : Nat)
  /-- A driver calls `fire_due` with a reading of the clock. -/
  | fireDue (now : Nat)
  /-- The next step of the call `j` of `fire_due`. -/
  | fire (j : Nat)
  deriving DecidableEq, Repr

/-- `now_ns` -/
def nowNs (s : State) : Nat := min s.clock (2 ^ 64 - 1)

/-- The sleep at `i` is replaced. -/
def State.put (s : State) (i : Nat) (a : Sleep) : State := { s with sleeps := s.sleeps.set i a }

/-- The call at `j` is replaced. -/
def State.putCall (s : State) (j : Nat) (c : FireDue) : State :=
  { s with calls := s.calls.set j c }

/-- The poll of `a` with `waker` returns. -/
def Sleep.returns (a : Sleep) (waker : Waker) (ready : Bool) : Sleep :=
  { a with pc := .idle, last := some (waker, ready) }

/-- The next step of a call on the sleep `a`. -/
def sleepStep (s : State) (i : Nat) (a : Sleep) : Option State :=
  match a.pc with
  | .idle | .dropped => none
  | .loadFired waker =>
    match a.slot.bind fun k => s.registry.slots[k]? with
    | none => none
    | some slot =>
      if slot.fired then some (s.put i (a.returns waker true))
      else some (s.put i { a with pc := .storeWaker waker })
  | .storeWaker waker =>
    match a.slot with
    | none => none
    | some k =>
      match s.registry.slots[k]? with
      | none => none
      | some slot =>
        some ({ s with registry := s.registry.storeWaker k slot (some waker) }.put i
          { a with pc := .reloadFired waker })
  | .reloadFired waker =>
    match a.slot.bind fun k => s.registry.slots[k]? with
    | none => none
    | some slot => some (s.put i (a.returns waker slot.fired))
  | .readClock waker =>
    let s := { s with readings := s.readings ++ [nowNs s] }
    if a.deadline ≤ nowNs s then some (s.put i (a.returns waker true))
    else some (s.put i { a with pc := .arm waker })
  | .arm waker =>
    match s.holder with
    | some _ => none
    | none =>
      let (registry, _) := s.registry.arm a.deadline waker
      some ({ s with registry }.put i
        ({ a with slot := some s.registry.slots.length }.returns waker false))
  | .takeWaker =>
    match a.slot with
    | none => none
    | some k =>
      match s.registry.slots[k]? with
      | none => none
      | some slot =>
        some ({ s with registry := s.registry.storeWaker k slot none }.put i
          { a with pc := .dropped })

/-- The next step of a call of `fire_due`. -/
def fireStep (s : State) (j : Nat) (c : FireDue) : Option State :=
  match c.pc with
  | .lock =>
    match s.holder with
    | some _ => none
    | none =>
      some ({ s with holder := some j }.putCall j
        { c with pc := .scan, before := s.registry.heap.entries })
  | .scan =>
    -- The loop breaks, the next deadline is read and the lock is released.
    let unlocked := { s with holder := none }.putCall j
      { c with pc := .wake (s.registry.heap.peek.map Entry.deadline) !c.due.isEmpty }
    match s.registry.heap.peek with
    | none => some unlocked
    | some entry =>
      if c.now < entry.deadline then some unlocked
      else
        match s.registry.heap.pop with
        -- `expect("peeked")`
        | none => none
        | some (heap, entry) =>
          match s.registry.slots[entry.slot]? with
          | none => none
          | some slot =>
            let slots := s.registry.slots.set entry.slot { slot with fired := true }
            some ({ s with registry := { s.registry with heap, slots } }.putCall j
              { c with pc := .takeWaker entry.slot, removed := c.removed ++ [entry] })
  | .takeWaker k =>
    match s.registry.slots[k]? with
    | none => none
    | some slot =>
      some ({ s with registry := s.registry.storeWaker k slot none }.putCall j
        { c with pc := .scan, due := c.due ++ slot.waker.toList.map fun waker => (k, waker) })
  | .wake next woke =>
    match c.due with
    | [] => some (s.putCall j { c with pc := .returned next woke })
    | waker :: due =>
      some ({ s with woken := s.woken ++ [waker] }.putCall j { c with due })
  | .returned _ _ => none

/-- The step function. -/
def step (s : State) : Action → Option State
  | .tick => some { s with clock := s.clock + 1 }
  | .read => some { s with readings := s.readings ++ [nowNs s] }
  | .sleepUntil deadline =>
    some { s with sleeps := s.sleeps ++ [{ deadline, slot := none, pc := .idle, last := none }] }
  | .poll i waker =>
    match s.sleeps[i]? with
    | some a =>
      match a.pc, a.slot with
      | .idle, some _ => some (s.put i { a with pc := .loadFired waker, last := none })
      | .idle, none => some (s.put i { a with pc := .readClock waker, last := none })
      | _, _ => none
    | none => none
  | .drop i =>
    match s.sleeps[i]? with
    | some a =>
      match a.pc, a.slot with
      | .idle, none => some (s.put i { a with pc := .dropped })
      | .idle, some k =>
        match s.holder with
        | some _ => none
        | none =>
          match s.registry.cancel k with
          | none => none
          | some registry => some ({ s with registry }.put i { a with pc := .takeWaker })
      | _, _ => none
    | none => none
  | .sleep i =>
    match s.sleeps[i]? with
    | some a => sleepStep s i a
    | none => none
  | .fireDue now =>
    if now ∈ s.readings then
      some { s with
        calls := s.calls ++ [{ now, pc := .lock, due := [], before := [], removed := [] }] }
    else none
  | .fire j =>
    match s.calls[j]? with
    | some c => fireStep s j c
    | none => none

/-- No sleep yet, and no call of `fire_due`. -/
def new : State :=
  { clock := 0
    readings := []
    registry := { heap := .empty, seq := 0, slots := [] }
    sleeps := []
    holder := none
    calls := []
    woken := [] }

/-- The system of the sleeps. -/
def system : Lts State Action where
  init s := s = new
  next := step

end Sleeps

end Nagoya.Time
