import Nagoya.Lib.Lts
import Nagoya.Reactor.Driver

/-!
# `Nagoya.Process`: waiting for a child process

The system is one child process, the `Child` that owns its `Process`, and the reactor. The owner
polls `wait` futures, drops them at any suspension, calls `try_wait` and `start_kill`, and drops
the `Child`. The drop hands an unreaped process to an `Orphan`, which is its own waker: a wake
of it runs `reap_or_park`, under a lock that one run holds at a time.

A `Watch` carries the exit to a waker. It is a descriptor in the reactor, a thread blocked in
`waitid`, or nothing, when the process was past watching. The kernel queues an event on the
descriptor when the child exits, and at the registration if it has exited already. Every system
call and every lock section is one step, and the label of a step has the kernel's answer.

The number of a reaped process may name another one. `strays` counts the system calls that were
made on the number after it was reaped, `reaps` counts the times that the process was reaped, and
`answers` holds what `wait` and `try_wait` returned. Nothing reads them.
-/

set_option autoImplicit false

namespace Nagoya

open Nagoya.Lib Nagoya.Reactor

namespace Process

/-- The process, as the kernel has it. -/
inductive Proc where
  | running
  | exited (status : Nat)
  | reaped (status : Nat)
  deriving DecidableEq, Repr

/-- How a system call ends, apart from what it finds. -/
inductive Outcome where
  | done
  | interrupted
  | failed (error : Nat)
  deriving DecidableEq, Repr

/-- `Watch`: how the exit reaches a waker. `thread` has the state of `ThreadExit`. -/
inductive Watch where
  | descriptor (slot : Wakers)
  | thread (exited : Bool) (waker : Option Waker)
  | exiting
  deriving DecidableEq, Repr

/-- `Readiness`: what a `Watch` had to say. -/
inductive Said where
  | parked
  | check
  | exiting
  deriving DecidableEq, Repr

/-- `ThreadExit::observed_or_park`. -/
def observedOrPark (exited : Bool) (parked : Option Waker) (waker : Waker) :
    Option Waker × Bool :=
  if exited then (parked, true) else (some waker, false)

/-- `Watch::take_or_park`. -/
def Watch.takeOrPark (w : Watch) (waker : Waker) : Watch × Said :=
  match w with
  | .descriptor slot =>
    match slot.takeReadableOrPark waker with
    | (slot, true) => (.descriptor slot, .check)
    | (slot, false) => (.descriptor slot, .parked)
  | .thread exited parked =>
    match observedOrPark exited parked waker with
    | (parked, true) => (.thread exited parked, .check)
    | (parked, false) => (.thread exited parked, .parked)
  | .exiting => (.exiting, .exiting)

/-- Who has the `Process`. `gone` says that it was dropped, which ends the watch. -/
inductive Holder where
  | child
  | orphan
  | gone
  deriving DecidableEq, Repr

/-- The next step of `poll_exit`. `blockingWait` is the `wait` of a process that was past
watching. -/
inductive Pc where
  | idle
  | tryWait
  | park
  | blockingWait
  deriving DecidableEq, Repr

/-- The `wait` future. -/
inductive Wait where
  | none
  | fresh
  | suspended
  deriving DecidableEq, Repr

/-- What `wait` or `try_wait` returned. -/
inductive Answer where
  | exited (status : Nat)
  | notYet
  | failed (error : Nat)
  | unreachableState
  deriving DecidableEq, Repr

/-- The system. `child` is the status that the `Child` has kept, until the `Child` is dropped.
`waker` and `woken` belong to the task that polled `wait` last. -/
structure State where
  proc : Proc
  watch : Watch
  queued : Bool
  collected : List Readiness
  waking : List Waker
  holder : Holder
  child : Option (Option Nat)
  killOnDrop : Bool
  wait : Wait
  waker : Waker
  woken : Bool
  pc : Pc
  reaps : Nat
  strays : Nat
  answers : List Answer
  deriving DecidableEq, Repr

/-- The waker that an orphan makes of itself. The wakers of tasks are other numbers. -/
def orphanWaker : Waker := 0

/-- The waker of the task `n`. -/
def taskWaker (n : Nat) : Waker := n + 1

/-- One step of one party. -/
inductive Action where
  | exit (status : Nat)
  | collect (writable hangup : Bool)
  | dispatch (i : Nat)
  | observe (failed : Bool)
  | wake (i : Nat)
  | startWait
  | pollWait (task : Nat)
  | advance (outcome : Outcome)
  | dropWait
  | tryWait (outcome : Outcome)
  | startKill
  | dropChild
  deriving DecidableEq, Repr

/-- A system call on the number of the process. -/
def State.touch (s : State) : State :=
  match s.proc with
  | .reaped _ => { s with strays := s.strays + 1 }
  | _ => s

/-- `waitpid` found the process exited, and reaps it. -/
def State.reap (s : State) (status : Nat) : State :=
  { s with proc := .reaped status, reaps := s.reaps + 1 }

/-- The end of `poll_exit` with a status. A `Child` keeps it and drops the process, and an orphan
drops the process. -/
def State.finish (s : State) (status : Nat) : State :=
  match s.holder with
  | .child =>
    { s with
      child := some (some status), holder := .gone, pc := .idle, wait := .none
      answers := s.answers ++ [.exited status] }
  | _ => { s with holder := .gone, pc := .idle }

/-- The end of `poll_exit` with an error. A `Child` returns it, and an orphan gives up. -/
def State.fail (s : State) (error : Nat) : State :=
  match s.holder with
  | .child => { s with pc := .idle, wait := .none, answers := s.answers ++ [.failed error] }
  | _ => { s with holder := .gone, pc := .idle }

/-- The end of `poll_exit` with the waker parked. -/
def State.suspend (s : State) : State :=
  match s.holder with
  | .child => { s with pc := .idle, wait := .suspended }
  | _ => { s with pc := .idle }

/-- `ECHILD`: the number is not a child's. -/
def echild : Nat := 10

/-- The waker that `poll_exit` parks. -/
def State.pollWaker (s : State) : Waker :=
  match s.holder with
  | .child => s.waker
  | _ => orphanWaker

/-- The next step of `poll_exit`. -/
def advance (s : State) (outcome : Outcome) : Option State :=
  match s.pc with
  | .idle => none
  | .tryWait =>
    match outcome with
    | .interrupted => some s.touch
    | .failed error => some (s.touch.fail error)
    | .done =>
      match s.proc with
      | .running => some { s with pc := .park }
      | .exited status => some ((s.reap status).finish status)
      | .reaped _ => some (s.touch.fail echild)
  | .park =>
    match s.watch.takeOrPark s.pollWaker with
    | (watch, .parked) => some ({ s with watch }.suspend)
    -- The watch says that something happened, so `waitpid` is asked again.
    | (watch, .check) => some { s with watch, pc := .tryWait }
    | (watch, .exiting) => some { s with watch, pc := .blockingWait }
  | .blockingWait =>
    match outcome, s.proc with
    | .interrupted, _ | .done, .running => none
    | .failed error, _ => some (s.touch.fail error)
    | .done, .exited status => some ((s.reap status).finish status)
    | .done, .reaped _ => some (s.touch.fail echild)

/-- A poll of `wait`, up to `poll_exit`. -/
def pollWait (s : State) (kept : Option Nat) (task : Nat) : State :=
  match kept with
  | some status => { s with wait := .none, answers := s.answers ++ [.exited status] }
  | none =>
    if s.holder = .child then
      { s with pc := .tryWait, waker := taskWaker task, woken := false }
    else { s with wait := .none, answers := s.answers ++ [.unreachableState] }

/-- `Child::try_wait`. -/
def tryWait (s : State) (kept : Option Nat) (outcome : Outcome) : State :=
  match kept with
  | some status => { s with answers := s.answers ++ [.exited status] }
  | none =>
    if s.holder = .child then
      match outcome, s.proc with
      | .done, .running => { s with answers := s.answers ++ [.notYet] }
      | .done, .exited status => (s.reap status).finish status
      | .done, .reaped _ => s.touch.fail echild
      | .interrupted, _ => s.touch.fail 4
      | .failed error, _ => s.touch.fail error
    else { s with answers := s.answers ++ [.unreachableState] }

/-- The section of `dispatch` for the exit descriptor. Without a process the slot is gone. -/
def dispatchTo (s : State) (event : Readiness) : State :=
  match s.holder, s.watch with
  | .gone, _ => s
  | _, .descriptor slot =>
    { s with
      watch := .descriptor (slot.dispatch event).1
      waking := s.waking ++ (slot.dispatch event).2 }
  | _, _ => s

/-- The step function. -/
def step (s : State) : Action → Option State
  | .exit status =>
    match s.proc, s.watch with
    | .running, .descriptor _ => some { s with proc := .exited status, queued := true }
    | .running, _ => some { s with proc := .exited status }
    | _, _ => none
  | .collect writable hangup =>
    if s.queued then
      some { s with
        queued := false
        collected := s.collected ++ [{ readable := true, writable, hangup }] }
    else none
  | .dispatch i =>
    match s.collected[i]? with
    | none => none
    | some event => some (dispatchTo { s with collected := s.collected.eraseIdx i } event)
  | .observe failed =>
    -- `waitid` returns when the child has exited, and when it fails.
    match s.watch with
    | .thread false waker =>
      if s.proc ≠ .running ∨ failed then
        some { s with watch := .thread true none, waking := s.waking ++ waker.toList }
      else none
    | _ => none
  | .wake i =>
    match s.waking[i]? with
    | none => none
    | some waker =>
      let s := { s with waking := s.waking.eraseIdx i }
      if waker = orphanWaker then
        match s.holder, s.pc with
        | .orphan, .idle => some { s with pc := .tryWait }
        -- The lock is held: the wake waits for it.
        | .orphan, _ => none
        | _, _ => some s
      else if waker = s.waker then some { s with woken := true }
      else some s
  | .startWait =>
    match s.child, s.wait, s.pc with
    | some _, .none, .idle => some { s with wait := .fresh }
    | _, _, _ => none
  | .pollWait task =>
    match s.child, s.wait, s.pc with
    | some kept, .fresh, .idle | some kept, .suspended, .idle => some (pollWait s kept task)
    | _, _, _ => none
  | .advance outcome => advance s outcome
  | .dropWait =>
    match s.wait, s.pc with
    | .fresh, .idle | .suspended, .idle => some { s with wait := .none }
    | _, _ => none
  | .tryWait outcome =>
    match s.child, s.wait, s.pc with
    | some kept, .none, .idle => some (tryWait s kept outcome)
    | _, _, _ => none
  | .startKill =>
    match s.child, s.wait, s.pc with
    | some _, .none, .idle => if s.holder = .child then some s.touch else some s
    | _, _, _ => none
  | .dropChild =>
    match s.child, s.wait, s.pc with
    | some _, .none, .idle =>
      let s := { s with child := none }
      if s.holder = .child then
        let s := if s.killOnDrop then s.touch else s
        -- `Orphan::adopt` runs `reap_or_park`.
        some { s with holder := .orphan, pc := .tryWait }
      else some s
    | _, _, _ => none

/-- A child that was just spawned. It may have exited already, and then its event is queued when
there is a descriptor to queue it on. -/
def new (proc : Proc) (watch : Watch) (killOnDrop : Bool) : State :=
  { proc, watch, killOnDrop
    queued := decide (proc ≠ .running)
    collected := []
    waking := []
    holder := .child
    child := some none
    wait := .none
    waker := taskWaker 0
    woken := false
    pc := .idle
    reaps := 0
    strays := 0
    answers := [] }

/-- The watch that `Watch::new` makes. -/
def Watch.IsNew : Watch → Prop
  | .descriptor slot => slot = .registered
  | .thread exited waker => exited = false ∧ waker = none
  | .exiting => True

/-- The system of one child. -/
def system : Lts State Action where
  init s := ∃ proc watch killOnDrop, (proc = .running ∨ ∃ status, proc = .exited status) ∧
    watch.IsNew ∧ s = new proc watch killOnDrop
  next := step

end Process

end Nagoya
