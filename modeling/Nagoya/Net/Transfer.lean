import Nagoya.Lib.Lts
import Nagoya.Reactor.Driver

/-!
# `Nagoya.Net.Transfer`: the calls that move bytes, and the readiness they leave

Seven calls move bytes through a registered descriptor: `TcpStream::poll_read`,
`poll_read_buf` and `poll_write_vectored`, `UdpSocket::poll_recv_into` and `poll_send_datagram`,
and `Pipe::poll_read` and `poll_write`. Each takes the cached readiness of its direction before
its system call, and decides after it whether readiness is put back.

The system is one slot and the calls of one direction on it, one after the other. Events with any
flags are dispatched between any two steps, and the other direction of the slot may be written in
any way at any time. Every lock section and every system call is one step, and the label of a
system call has the kernel's answer. What a wake does is not part of this system.

`edge` remembers whether an event for the direction was dispatched since a call last took
readiness. Nothing reads it.
-/

set_option autoImplicit false

namespace Nagoya.Net

open Nagoya.Lib Nagoya.Reactor

namespace Transfer

/-- The call. -/
inductive Kind where
  | tcpRead
  | tcpReadBuf
  | tcpWriteVectored
  | udpRecv
  | udpSend
  | pipeRead
  | pipeWrite
  deriving DecidableEq, Repr

namespace Kind

/-- The direction of the slot that the call uses. -/
def direction : Kind → Direction
  | tcpRead | tcpReadBuf | udpRecv | pipeRead => .read
  | tcpWriteVectored | udpSend | pipeWrite => .write

/-- The calls of a UDP socket release the waiter when they are done. -/
def isUdp : Kind → Bool
  | udpRecv | udpSend => true
  | _ => false

/-- The calls of a pipe go back to the slot to try again. -/
def isPipe : Kind → Bool
  | pipeRead | pipeWrite => true
  | _ => false

/-- An empty buffer ends these calls before they look at the slot. -/
def returnsOnEmpty : Kind → Bool
  | tcpReadBuf | pipeRead | pipeWrite => true
  | _ => false

end Kind

/-- A call with its buffer length, the length of both slices for `poll_write_vectored`.
`capacity` is the `send_capacity` of a stream. -/
structure Call where
  kind : Kind
  len : Nat
  capacity : Nat
  deriving DecidableEq, Repr

/-- How the system call ends. `left` is what `FIONREAD` answers after it, for the calls that ask. -/
inductive Answer where
  | moved (n : Nat) (left : Option Nat)
  | wouldBlock
  | interrupted
  | failed (error : Nat)
  deriving DecidableEq, Repr

/-- What the call returns. -/
inductive Result where
  | pending
  | ready (n : Nat)
  | failed (error : Nat)
  deriving DecidableEq, Repr

/-- Whether a call that moved `n` bytes puts readiness back. -/
def Call.restores (c : Call) (n : Nat) (left : Option Nat) : Bool :=
  match c.kind with
  | .tcpRead | .tcpReadBuf => n = c.len ∧ left ≠ some 0
  | .tcpWriteVectored => n = c.len ∧ (c.capacity = 0 ∨ c.len < c.capacity)
  | .udpRecv | .udpSend => true
  | .pipeRead => n = 0 ∨ n = c.len
  | .pipeWrite => true

/-- The next step of the call. `mark` puts readiness back, `release` takes out the waiter, `park`
runs `poll_readable` or `poll_writable`, and `wakeSelf` wakes the caller that it found ready.
`mark none` is followed by another try. -/
inductive Pc where
  | idle
  | take
  | call
  | mark (result : Option Result)
  | release (result : Result)
  | park
  | wakeSelf
  deriving DecidableEq, Repr

/-- The slot and the task that makes the calls. -/
structure State where
  slot : Wakers
  pc : Pc
  current : Call
  waker : Waker
  returned : Option Result
  edge : Bool
  deriving DecidableEq, Repr

/-- One step. `other` is a step of the other direction: it leaves any waker and any flag there. -/
inductive Action where
  | begin (call : Call) (waker : Waker)
  | advance (answer : Answer)
  | dispatch (event : Readiness)
  | other (waker : Option Waker) (flag : Bool)
  deriving DecidableEq, Repr

/-- The call returns. -/
def State.finish (s : State) (result : Result) : State :=
  { s with pc := .idle, returned := some result }

/-- What the call does with the answer of its system call. -/
def answered (s : State) (answer : Answer) : State :=
  match answer with
  | .moved n left =>
    if s.current.restores n left then { s with pc := .mark (some (.ready n)) }
    else s.finish (.ready n)
  | .wouldBlock =>
    -- A pipe goes back through the slot, the sockets park.
    if s.current.kind.isPipe then { s with pc := .take } else { s with pc := .park }
  | .interrupted =>
    -- A pipe puts readiness back and takes it again, the sockets repeat the system call.
    if s.current.kind.isPipe then { s with pc := .mark none } else s
  | .failed error =>
    if s.current.kind.isPipe || s.current.kind.isUdp then
      { s with pc := .mark (some (.failed error)) }
    else s.finish (.failed error)

/-- The next step of the call. -/
def advance (d : Direction) (s : State) (answer : Answer) : Option State :=
  match s.pc with
  | .idle => none
  | .take =>
    match s.slot.takeOrPark d s.waker with
    | (slot, true) => some { s with slot, pc := .call, edge := false }
    | (slot, false) => some ({ s with slot }.finish .pending)
  | .call => some (answered s answer)
  | .mark none => some { s with slot := s.slot.mark d, pc := .take }
  | .mark (some result) =>
    if s.current.kind.isUdp then some { s with slot := s.slot.mark d, pc := .release result }
    else some ({ s with slot := s.slot.mark d }.finish result)
  | .release result => some ({ s with slot := s.slot.cancelWait d }.finish result)
  | .park =>
    match s.slot.pollReady d s.waker with
    | (slot, true) => some { s with slot, pc := .wakeSelf }
    | (slot, false) => some ({ s with slot }.finish .pending)
  | .wakeSelf => some (s.finish .pending)

/-- The event is one for the direction. -/
def isFor (d : Direction) (event : Readiness) : Bool :=
  match d with
  | .read => event.readable || event.hangup
  | .write => event.writable

/-- A write to the other direction of the slot. -/
def writeOther (d : Direction) (w : Wakers) (waker : Option Waker) (flag : Bool) : Wakers :=
  match d with
  | .read => { w with writer := waker, writable := flag }
  | .write => { w with reader := waker, readable := flag }

/-- The step function. -/
def step (d : Direction) (s : State) : Action → Option State
  | .begin call waker =>
    match s.pc with
    | .idle =>
      if call.kind.direction = d then
        let s := { s with current := call, waker, returned := none }
        if call.kind.returnsOnEmpty ∧ call.len = 0 then some (s.finish (.ready 0))
        else some { s with pc := .take }
      else none
    | _ => none
  | .advance answer => advance d s answer
  | .dispatch event =>
    some { s with slot := (s.slot.dispatch event).1, edge := s.edge || isFor d event }
  | .other waker flag => some { s with slot := writeOther d s.slot waker flag }

/-- A descriptor that was just registered. -/
def new : State :=
  { slot := .registered
    pc := .idle
    current := ⟨.tcpRead, 0, 0⟩
    waker := 0
    returned := none
    edge := false }

/-- The system of the calls of one direction. -/
def system (d : Direction) : Lts State Action where
  init s := s = new
  next := step d

end Transfer

end Nagoya.Net
