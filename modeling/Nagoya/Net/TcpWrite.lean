import Nagoya.Lib.Lts
import Nagoya.Reactor.Driver

/-!
# `Nagoya.Net.TcpWrite`: writing a TCP stream

The system is one socket with one writer task. The kernel side is a send buffer of some
capacity, which the peer may drain at any time. A writable event is queued for the
registration. After that one is queued only when room appears and a send was refused or
accepted short before.

The writer's call is `TcpStream::poll_write_vectored`. `poll_write` is the call with an empty
first slice. Each lock section of the slot and each send is one step, and the label of a send
says how the kernel answers it.

`sendCapacity` is `SO_SNDBUF` as the kernel reported it when the stream was made, or zero. The
real capacity may be another number.

`full` is a record that no step reads: since the last dispatched writable event some send was
refused or accepted short.
-/

set_option autoImplicit false

namespace Nagoya.Net

open Nagoya.Lib Nagoya.Reactor

namespace TcpWrite

/-- The kernel's side of the socket. `noSpace` is set by a send that was refused or accepted
short, and `queued` is an event that is not collected yet. -/
structure Kernel where
  capacity : Nat
  used : Nat
  noSpace : Bool
  queued : Bool
  deriving DecidableEq, Repr

/-- How the kernel answers a send. -/
inductive Outcome where
  | accepted (n : Nat)
  | refused
  | interrupted
  | failed (error : Nat)
  deriving DecidableEq, Repr

/-- `TcpSocket::send_vectored` of `wanted` bytes. An answer the kernel cannot give has no
result: it accepts no more than it has room for, and something when it accepts at all. -/
def Kernel.send (k : Kernel) (wanted : Nat) : Outcome → Option Kernel
  | .accepted n =>
    if n ≤ wanted ∧ k.used + n ≤ k.capacity ∧ (0 < n ∨ wanted = 0) then
      some { k with used := k.used + n, noSpace := k.noSpace || n < wanted }
    else none
  | .refused => if 0 < wanted then some { k with noSpace := true } else none
  | .interrupted => some k
  | .failed _ => some k

/-- The peer takes `n` bytes. Room appears, and an event is queued if a send was turned away. -/
def Kernel.drain (k : Kernel) (n : Nat) : Option Kernel :=
  if 0 < n ∧ n ≤ k.used then
    some { k with used := k.used - n, noSpace := false, queued := k.queued || k.noSpace }
  else none

/-- The next step of the writer's call. -/
inductive Pc where
  | idle
  | take (wanted : Nat)
  | send (wanted : Nat)
  | mark (n : Nat)
  | park
  | wakeSelf
  deriving DecidableEq, Repr

/-- What the last call of the writer returned. -/
inductive Returned where
  | nothing
  | pending
  | ready (n : Nat)
  | failed (error : Nat)
  deriving DecidableEq, Repr

/-- The writer task. `waker` is the one it passed to its last call. -/
structure Writer where
  pc : Pc
  waker : Waker
  returned : Returned
  woken : Bool
  deriving DecidableEq, Repr

/-- The socket, its slot, the collected events, the wakers that `dispatch` took and has not yet
woken, and the writer. -/
structure State where
  kernel : Kernel
  sendCapacity : Nat
  slot : Wakers
  collected : List Readiness
  waking : List Waker
  writer : Writer
  full : Bool
  deriving DecidableEq, Repr

/-- One step of one party. -/
inductive Action where
  | drain (n : Nat)
  | collect (readable hangup : Bool)
  | dispatch (i : Nat)
  | wake (i : Nat)
  | pollWriteVectored (waker : Waker) (first second : Nat)
  | advance (outcome : Outcome)
  deriving DecidableEq, Repr

/-- `TcpStream::poll_write`. -/
def Action.pollWrite (waker : Waker) (len : Nat) : Action := .pollWriteVectored waker 0 len

/-- A wake of `waker`, as the writer sees it. -/
def Writer.wake (w : Writer) (waker : Waker) : Writer :=
  if waker = w.waker then { w with woken := true } else w

/-- The test for putting readiness back after a send of `wanted` bytes of which `n` were
accepted. -/
def restores (sendCapacity wanted n : Nat) : Bool :=
  n = wanted ∧ (sendCapacity = 0 ∨ wanted < sendCapacity)

/-- The next step of the writer's call. `outcome` is the kernel's answer when the step is a
send. -/
def advance (s : State) (outcome : Outcome) : Option State :=
  match s.writer.pc with
  | .idle => none
  | .take wanted =>
    match s.slot.takeWritableOrPark s.writer.waker with
    | (slot, true) => some { s with slot, writer.pc := .send wanted }
    | (slot, false) => some { s with slot, writer.pc := .idle, writer.returned := .pending }
  | .send wanted =>
    match s.kernel.send wanted outcome with
    | none => none
    | some kernel =>
      match outcome with
      | .accepted n =>
        let full := s.full || n < wanted
        if restores s.sendCapacity wanted n then some { s with kernel, full, writer.pc := .mark n }
        else some { s with kernel, full, writer.pc := .idle, writer.returned := .ready n }
      | .refused => some { s with kernel, full := true, writer.pc := .park }
      | .interrupted => some { s with kernel }
      | .failed error =>
        some { s with kernel, writer.pc := .idle, writer.returned := .failed error }
  | .mark n =>
    some { s with
      slot := s.slot.markWritable
      writer.pc := .idle
      writer.returned := .ready n }
  | .park =>
    match s.slot.pollWritable s.writer.waker with
    | (slot, true) => some { s with slot, writer.pc := .wakeSelf }
    | (slot, false) => some { s with slot, writer.pc := .idle, writer.returned := .pending }
  | .wakeSelf =>
    some { s with
      writer := { s.writer.wake s.writer.waker with pc := .idle, returned := .pending } }

/-- The step function. -/
def step (s : State) : Action → Option State
  | .drain n =>
    match s.kernel.drain n with
    | none => none
    | some kernel => some { s with kernel }
  | .collect readable hangup =>
    -- An event may also be for the reader. It reports room when the write edge is queued.
    some { s with
      kernel.queued := false
      collected := s.collected ++ [{ readable, writable := s.kernel.queued, hangup }] }
  | .dispatch i =>
    match s.collected[i]? with
    | none => none
    | some event =>
      let (slot, wakers) := s.slot.dispatch event
      some { s with
        slot
        collected := s.collected.eraseIdx i
        waking := s.waking ++ wakers
        full := s.full && !event.writable }
  | .wake i =>
    match s.waking[i]? with
    | none => none
    | some waker =>
      some { s with waking := s.waking.eraseIdx i, writer := s.writer.wake waker }
  | .pollWriteVectored waker first second =>
    match s.writer.pc with
    | .idle =>
      some { s with
        writer := { pc := .take (first + second), waker, returned := .nothing, woken := false } }
    | _ => none
  | .advance outcome => advance s outcome

/-- A registered socket with an empty send buffer. The registration queued an event. -/
def new (capacity sendCapacity : Nat) : State :=
  { kernel := { capacity, used := 0, noSpace := false, queued := true }
    sendCapacity
    slot := .registered
    collected := []
    waking := []
    writer := { pc := .idle, waker := 0, returned := .nothing, woken := false }
    full := false }

/-- The system of one socket and its writer. -/
def system : Lts State Action where
  init s := ∃ capacity sendCapacity, s = new capacity sendCapacity
  next := step

end TcpWrite

end Nagoya.Net
