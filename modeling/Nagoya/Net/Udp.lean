import Nagoya.Lib.Lts
import Nagoya.Reactor.Driver
import Nagoya.Reactor.SocketAddr

/-!
# `Nagoya.Net.Udp`: receiving and sending datagrams

The system is one datagram socket of any family, one task that receives and one that sends. The
kernel's side is the queue of datagrams and an edge: the registration, every arrival and every
error of the socket queue an event, and the flags of the event are those of the socket when it is
collected. Collected events are dispatched in any order.

The receiver makes one future at a time: `recv_from`, `recv_datagram` or `recv_from_buf` with any
room in the buffer. A future is polled with any waker, and dropped at any suspension. A future
that returned is gone: its drop does nothing. The sender's futures are the twins on the write side.
Each lock section of the slot and each system call is one step.

`arrived`, `removed` and `delivered` are a history that nothing reads: the datagrams that came in,
those that `recvmsg` took, and what the calls returned.
-/

set_option autoImplicit false

namespace Nagoya.Net

open Nagoya.Lib Nagoya.Reactor

namespace Udp

variable {os : Os} {e : Endian}

/-- `ENOBUFS`, as Linux numbers it. The value does not matter here. -/
def enobufs : Nat := 105

/-- `EAFNOSUPPORT`, as Linux numbers it. -/
def eafnosupport : Nat := 97

/-- A datagram in the kernel's queue, with what `recvmsg` leaves in the zeroed storage for the name
of its sender. For a Unix sender that is not bound that is nothing. -/
structure Datagram (os : Os) (e : Endian) where
  name : Storage os
  nameLen : Nat
  bytes : List UInt8

/-- `read_from` understands the name of the sender. -/
def Datagram.readable (d : Datagram os e) : Bool := (Addr.readFrom e d.name d.nameLen).isSome

/-- `Datagram` of the source: what a receive returns. -/
structure Packet (os : Os) where
  len : Nat
  source : Addr os
  truncated : Bool
  deriving DecidableEq, Repr

/-- A receive that returned a datagram, with the room it had and the bytes it copied. -/
structure Delivery (os : Os) where
  room : Nat
  packet : Packet os
  data : List UInt8
  deriving DecidableEq, Repr

/-- How the kernel takes a system call. -/
inductive Outcome where
  | done
  | wouldBlock
  | interrupted
  | failed (error : Nat)
  deriving DecidableEq, Repr

/-- `UdpSocket::recv_datagram` of the system's socket, once `recvmsg` has taken the datagram `d`
into a buffer of `room` bytes. -/
def recvDatagram (d : Datagram os e) (room : Nat) : Except Nat (Delivery os) :=
  let received := min d.bytes.length room
  let msgTrunc : Bool := room < d.bytes.length
  match Addr.readFrom e d.name d.nameLen with
  | none => .error eafnosupport
  | some source =>
    .ok { room
          packet := { len := min received room, source, truncated := msgTrunc || room < received }
          data := d.bytes.take received }

/-- The three receive futures. -/
inductive Method where
  | recvFrom
  | recvDatagram
  | recvFromBuf
  deriving DecidableEq, Repr

/-- A receive future. `room` is the length of its slice, or the spare capacity of its buffer.
`since` is the number of datagrams that were taken before it was made, and nothing reads it. -/
structure Future where
  method : Method
  room : Nat
  waiting : Bool
  since : Nat
  deriving DecidableEq, Repr

/-- The next step of a receive. `mark` puts readiness back, `release` runs `cancel_recv` and
returns, `park` runs `poll_readable`, and `wakeSelf` wakes the caller that it found ready. -/
inductive RecvPc (os : Os) where
  | idle
  | take
  | recv
  | mark (result : Except Nat (Delivery os))
  | release (result : Except Nat (Delivery os))
  | park
  | wakeSelf
  deriving DecidableEq

/-- The receiving task. -/
structure Receiver (os : Os) where
  future : Option Future
  pc : RecvPc os
  waker : Waker
  woken : Bool
  deriving DecidableEq

/-- The next step of a send, as in `RecvPc`. -/
inductive SendPc where
  | idle
  | take
  | send
  | mark
  | release
  | park
  | wakeSelf
  deriving DecidableEq, Repr

/-- The sending task. `waiting` is the flag of its future. -/
structure Sender where
  pc : SendPc
  waker : Waker
  waiting : Bool
  woken : Bool
  deriving DecidableEq, Repr

/-- The socket, its slot, the collected events, the wakers that `dispatch` took and has not yet
woken, and the two tasks. -/
structure State (os : Os) (e : Endian) where
  queue : List (Datagram os e)
  queued : Bool
  slot : Wakers
  collected : List Readiness
  waking : List Waker
  receiver : Receiver os
  sender : Sender
  arrived : List (Datagram os e)
  removed : List (Datagram os e)
  delivered : List (Delivery os)

/-- One step of one party. -/
inductive Action (os : Os) (e : Endian) where
  | arrive (d : Datagram os e)
  | notify
  | collect (readable writable hangup : Bool)
  | dispatch (i : Nat)
  | wake (i : Nat)
  | create (method : Method) (room : Nat)
  | poll (waker : Waker)
  | advance (outcome : Outcome)
  | drop
  | sendPoll (waker : Waker)
  | sendAdvance (outcome : Outcome)
  | sendDrop

/-- The poll returns `Pending`. -/
def State.suspend (s : State os e) (f : Future) : State os e :=
  { s with receiver.future := some { f with waiting := true }, receiver.pc := .idle }

/-- The poll returns a result, and the future is gone. -/
def State.complete (s : State os e) (result : Except Nat (Delivery os)) : State os e :=
  { s with
    receiver.future := none
    receiver.pc := .idle
    delivered := match result with
      | .ok delivery => s.delivered ++ [delivery]
      | .error _ => s.delivered }

/-- The answer of `recvmsg`. -/
def received (s : State os e) (f : Future) (outcome : Outcome) : State os e :=
  match outcome, s.queue with
  | .interrupted, _ => s
  | .failed error, _ => { s with receiver.pc := .mark (.error error) }
  | .wouldBlock, _ => { s with receiver.pc := .park }
  | .done, [] => { s with receiver.pc := .park }
  | .done, d :: queue =>
    { s with queue, removed := s.removed ++ [d], receiver.pc := .mark (recvDatagram d f.room) }

/-- The next step of the receiver. -/
def advance (s : State os e) (outcome : Outcome) : Option (State os e) :=
  match s.receiver.future with
  | none => none
  | some f =>
    match s.receiver.pc with
    | .idle => none
    | .take =>
      match s.slot.takeReadableOrPark s.receiver.waker with
      | (slot, true) => some { s with slot, receiver.pc := .recv }
      | (slot, false) => some ({ s with slot }.suspend f)
    | .recv =>
      -- The kernel says that it would block when there is nothing to take.
      if outcome = .wouldBlock ∧ s.queue ≠ [] then none else some (received s f outcome)
    | .mark result => some { s with slot := s.slot.markReadable, receiver.pc := .release result }
    | .release result => some ({ s with slot := s.slot.cancelReadWait }.complete result)
    | .park =>
      match s.slot.pollReadable s.receiver.waker with
      | (slot, true) => some { s with slot, receiver.pc := .wakeSelf }
      | (slot, false) => some ({ s with slot }.suspend f)
    | .wakeSelf => some ({ s with receiver.woken := true }.suspend f)

/-- The first step of a poll. `poll_recv_from_buf` refuses a buffer without room before it looks
at the socket. -/
def startPoll (s : State os e) (f : Future) (waker : Waker) : State os e :=
  let pc := if f.method = .recvFromBuf ∧ f.room = 0 then .release (.error enobufs) else .take
  { s with receiver := { s.receiver with pc, waker, woken := false } }

/-- The next step of the sender. -/
def sendAdvance (s : State os e) (outcome : Outcome) : Option (State os e) :=
  match s.sender.pc with
  | .idle => none
  | .take =>
    match s.slot.takeWritableOrPark s.sender.waker with
    | (slot, true) => some { s with slot, sender.pc := .send }
    | (slot, false) => some { s with slot, sender.pc := .idle, sender.waiting := true }
  | .send =>
    match outcome with
    | .interrupted => some s
    | .wouldBlock => some { s with sender.pc := .park }
    | .done | .failed _ => some { s with sender.pc := .mark }
  | .mark => some { s with slot := s.slot.markWritable, sender.pc := .release }
  | .release =>
    some { s with slot := s.slot.cancelWriteWait, sender.pc := .idle, sender.waiting := false }
  | .park =>
    match s.slot.pollWritable s.sender.waker with
    | (slot, true) => some { s with slot, sender.pc := .wakeSelf }
    | (slot, false) => some { s with slot, sender.pc := .idle, sender.waiting := true }
  | .wakeSelf =>
    some { s with sender.pc := .idle, sender.waiting := true, sender.woken := true }

/-- A wake of `waker`, as the two tasks see it. -/
def State.wakeTasks (s : State os e) (waker : Waker) : State os e :=
  { s with
    receiver.woken := s.receiver.woken || waker == s.receiver.waker
    sender.woken := s.sender.woken || waker == s.sender.waker }

/-- The step function. -/
def step (s : State os e) : Action os e → Option (State os e)
  | .arrive d =>
    some { s with queue := s.queue ++ [d], queued := true, arrived := s.arrived ++ [d] }
  | .notify => some { s with queued := true }
  | .collect readable writable hangup =>
    if s.queued then
      some { s with
        queued := false
        collected := s.collected ++
          [{ readable := readable || !s.queue.isEmpty, writable, hangup }] }
    else none
  | .dispatch i =>
    match s.collected[i]? with
    | none => none
    | some event =>
      let (slot, wakers) := s.slot.dispatch event
      some { s with slot, collected := s.collected.eraseIdx i, waking := s.waking ++ wakers }
  | .wake i =>
    match s.waking[i]? with
    | none => none
    | some waker => some ({ s with waking := s.waking.eraseIdx i }.wakeTasks waker)
  | .create method room =>
    match s.receiver.future with
    | some _ => none
    | none =>
      some { s with
        receiver.future := some { method, room, waiting := false, since := s.removed.length } }
  | .poll waker =>
    match s.receiver.future, s.receiver.pc with
    | some f, .idle => some (startPoll s f waker)
    | _, _ => none
  | .advance outcome => advance s outcome
  | .drop =>
    match s.receiver.future, s.receiver.pc with
    | some f, .idle =>
      -- Only a future that returned `Pending` has a waiter to release.
      some { s with
        slot := if f.waiting then s.slot.cancelReadWait else s.slot
        receiver.future := none }
    | _, _ => none
  | .sendPoll waker =>
    match s.sender.pc with
    | .idle => some { s with sender := { s.sender with pc := .take, waker, woken := false } }
    | _ => none
  | .sendAdvance outcome => sendAdvance s outcome
  | .sendDrop =>
    match s.sender.pc with
    | .idle =>
      some { s with
        slot := if s.sender.waiting then s.slot.cancelWriteWait else s.slot
        sender.waiting := false }
    | _ => none

/-- A socket that was just registered. It may hold datagrams already, and the registration queued
an event. -/
def new (queue : List (Datagram os e)) : State os e :=
  { queue
    queued := true
    slot := .registered
    collected := []
    waking := []
    receiver := { future := none, pc := .idle, waker := 0, woken := false }
    sender := { pc := .idle, waker := 0, waiting := false, woken := false }
    arrived := queue
    removed := []
    delivered := [] }

/-- The system of one socket and its two tasks. -/
def system (os : Os) (e : Endian) : Lts (State os e) (Action os e) where
  init s := ∃ queue, s = new queue
  next := step

end Udp

end Nagoya.Net
