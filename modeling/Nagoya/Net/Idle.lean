import Nagoya.Lib.Lts
import Nagoya.Reactor.Driver

/-!
# `Nagoya.Net.Idle`: waiting for a connection

Two futures wait for the kernel to settle a connection. `Accept` calls `accept` until there is a
connection, and `Connected` asks `SO_ERROR` and `getpeername` until the handshake is over. Both
park through `poll_readable` or `poll_writable` when there is nothing yet.

The system is one such future, its slot, and the reactor. The future is polled once, and then
again exactly when its waker was woken. Events with any flags are dispatched to the slot at any
time. Every lock section and every system call is one step, and the label of a step has the
kernel's answer.

`polls` and `selfWakes` count the polls that returned and the wakes of the caller by itself.
`events` counts the events that were dispatched, and `writableEvents` those among them that were
writable. Nothing reads them.
-/

set_option autoImplicit false

namespace Nagoya.Net

open Nagoya.Lib Nagoya.Reactor

namespace Idle

/-- The future. -/
inductive Kind where
  | accept
  | connected
  deriving DecidableEq, Repr

/-- How a system call ends. The branches of `poll_accept` tell three errors apart, and any other
error, and every error of `getsockopt` and `getpeername`, is `failed`. -/
inductive Answer where
  | done
  | wouldBlock
  | interrupted
  | transient
  | failed (error : Nat)
  deriving DecidableEq, Repr

/-- The next step of a poll. `park` runs `poll_readable` or `poll_writable`, and `wakeSelf` wakes
the caller that it found ready. -/
inductive Pc where
  | idle
  | accept
  | soError
  | peerAddr
  | park
  | wakeSelf
  deriving DecidableEq, Repr

/-- What the future has returned. -/
inductive Returned where
  | nothing
  | pending
  | ready
  | failed (error : Nat)
  deriving DecidableEq, Repr

/-- The future, its slot, and the wakers that `dispatch` took and has not yet woken. -/
structure State where
  slot : Wakers
  connecting : Bool
  pc : Pc
  waker : Waker
  returned : Returned
  woken : Bool
  waking : List Waker
  polls : Nat
  selfWakes : Nat
  events : Nat
  writableEvents : Nat
  deriving DecidableEq, Repr

/-- One step. -/
inductive Action where
  | poll
  | advance (answer : Answer)
  | dispatch (event : Readiness)
  | wake (i : Nat)
  deriving DecidableEq, Repr

/-- The poll returns. -/
def State.finish (s : State) (returned : Returned) : State :=
  { s with pc := .idle, returned, polls := s.polls + 1 }

/-- The waker of the future is woken. -/
def State.wakeTask (s : State) (waker : Waker) : State :=
  if waker = s.waker then { s with woken := true } else s

/-- The section in which the future parks: `poll_readable` on the listener, and `poll_writable`
on the stream. -/
def Kind.park (kind : Kind) (w : Wakers) (waker : Waker) : Wakers × Bool :=
  match kind with
  | .accept => w.pollReadable waker
  | .connected => w.pollWritable waker

/-- The first step of a poll. `Connected` returns at once when nothing is in flight. -/
def start (kind : Kind) (s : State) : State :=
  match kind with
  | .accept => { s with pc := .accept, woken := false }
  | .connected =>
    if s.connecting then { s with pc := .soError, woken := false }
    else { s with woken := false }.finish .ready

/-- The next step of the poll. -/
def advance (kind : Kind) (s : State) (answer : Answer) : Option State :=
  match s.pc with
  | .idle => none
  | .accept =>
    match answer with
    | .done => some (s.finish .ready)
    | .wouldBlock => some { s with pc := .park }
    -- A signal, or a connection that died in the queue: try the next one.
    | .interrupted | .transient => some s
    | .failed error => some (s.finish (.failed error))
  | .soError =>
    match answer with
    | .done => some { s with pc := .peerAddr }
    | .failed error => some (s.finish (.failed error))
    | _ => none
  | .peerAddr =>
    match answer with
    | .done => some ({ s with connecting := false }.finish .ready)
    -- `getpeername` fails until there is a peer.
    | .failed _ => some { s with pc := .park }
    | _ => none
  | .park =>
    match kind.park s.slot s.waker with
    | (slot, true) => some { s with slot, pc := .wakeSelf }
    | (slot, false) => some ({ s with slot }.finish .pending)
  | .wakeSelf => some ({ s with woken := true, selfWakes := s.selfWakes + 1 }.finish .pending)

/-- The step function. The future is polled first when it is made, and then when it was woken. -/
def step (kind : Kind) (s : State) : Action → Option State
  | .poll =>
    match s.pc, s.returned, s.woken with
    | .idle, .nothing, _ => some (start kind s)
    | .idle, .pending, true => some (start kind s)
    | _, _, _ => none
  | .advance answer => advance kind s answer
  | .dispatch event =>
    let (slot, wakers) := s.slot.dispatch event
    some { s with
      slot
      waking := s.waking ++ wakers
      events := s.events + 1
      writableEvents := s.writableEvents + event.writable.toNat }
  | .wake i =>
    match s.waking[i]? with
    | none => none
    | some waker => some ({ s with waking := s.waking.eraseIdx i }.wakeTask waker)

/-- A listener that was just bound, or a stream from `connect_started` with an IP address, and a
future on it that was not polled yet. -/
def new (waker : Waker) : State :=
  { slot := .registered
    connecting := true
    pc := .idle
    waker
    returned := .nothing
    woken := false
    waking := []
    polls := 0
    selfWakes := 0
    events := 0
    writableEvents := 0 }

/-- The system of one future. -/
def system (kind : Kind) : Lts State Action where
  init s := ∃ waker, s = new waker
  next := step kind

end Idle

end Nagoya.Net
