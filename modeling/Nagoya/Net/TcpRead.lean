import Nagoya.Lib.Lts
import Nagoya.Reactor.Driver

/-!
# `Nagoya.Net.TcpRead`: reading a TCP stream

The system is one socket with one reader task. The kernel side is a queue of bytes, an
end-of-stream flag, and an edge: the registration and every later arrival queue an event, and
the flags of the event are those of the socket when it is collected. Collected events are
dispatched in any order.

The reader's call is `TcpStream::poll_read` or `poll_read_buf`. Their bodies are the same. Each
lock section of the slot and each system call is one step. A `recv` may be interrupted or fail
with an error of its own, and `FIONREAD` may fail: the label of the step says so.

`woken` is set when the waker of the last call is woken, and cleared when a call begins.
-/

set_option autoImplicit false

namespace Nagoya.Net

open Nagoya.Lib Nagoya.Reactor

namespace TcpRead

/-- The kernel's side of the socket. `queued` is an event that is not collected yet. -/
structure Kernel where
  data : List UInt8
  eof : Bool
  queued : Bool
  deriving DecidableEq, Repr

/-- How the kernel takes a system call: it carries it out, a signal interrupts it, or it fails
with another error. -/
inductive Outcome where
  | done
  | interrupted
  | failed (error : Nat)
  deriving DecidableEq, Repr

/-- What `recv` returns. -/
inductive Received where
  | bytes (data : List UInt8)
  | wouldBlock
  | interrupted
  | failed (error : Nat)
  deriving DecidableEq, Repr

/-- `recv` into a buffer of `len` bytes. A result shorter than `len` empties the queue. -/
def Kernel.recv (k : Kernel) (len : Nat) : Outcome → Kernel × Received
  | .interrupted => (k, .interrupted)
  | .failed error => (k, .failed error)
  | .done =>
    if k.data = [] ∧ k.eof = false ∧ 0 < len then (k, .wouldBlock)
    -- At end of stream with nothing left, and into an empty buffer, this reads zero bytes.
    else ({ k with data := k.data.drop len }, .bytes (k.data.take len))

/-- `TcpSocket::pending`: the answer of `FIONREAD`, or nothing when it fails. -/
def Kernel.pending (k : Kernel) : Outcome → Option Nat
  | .done => some k.data.length
  | _ => none

/-- The flags of the socket. At end of stream a read would not block. -/
def Kernel.flags (k : Kernel) (writable : Bool) : Readiness :=
  { readable := k.data ≠ [] ∨ k.eof, writable, hangup := k.eof }

/-- The next step of the reader's call. `count` asks `FIONREAD` after a read that filled the
buffer, `mark` restores readiness, `park` runs `poll_readable`, and `wakeSelf` wakes the caller
that it found ready. -/
inductive Pc where
  | idle
  | take (len : Nat)
  | recv (len : Nat)
  | count
  | mark
  | park
  | wakeSelf
  deriving DecidableEq, Repr

/-- What the last call of the reader returned. -/
inductive Returned where
  | nothing
  | pending
  | ready (data : List UInt8)
  | failed (error : Nat)
  deriving DecidableEq, Repr

/-- The reader task. `waker` is the one it passed to its last call, and `filled` holds the bytes
that call received. -/
structure Reader where
  pc : Pc
  waker : Waker
  filled : List UInt8
  returned : Returned
  woken : Bool
  deriving DecidableEq, Repr

/-- The socket, its slot, the collected events, the wakers that `dispatch` took and has not yet
woken, and the reader. -/
structure State where
  kernel : Kernel
  slot : Wakers
  collected : List Readiness
  waking : List Waker
  reader : Reader
  deriving DecidableEq, Repr

/-- Which of the two reading calls is made. -/
inductive ReadCall where
  | pollRead
  | pollReadBuf
  deriving DecidableEq, Repr

/-- One step of one party. -/
inductive Action where
  | arrive (bytes : List UInt8)
  | hangUp
  | collect (writable : Bool)
  | dispatch (i : Nat)
  | wake (i : Nat)
  | call (call : ReadCall) (waker : Waker) (len : Nat)
  | advance (outcome : Outcome)
  deriving DecidableEq, Repr

/-- A wake of `waker`, as the reader sees it. -/
def Reader.wake (r : Reader) (waker : Waker) : Reader :=
  if waker = r.waker then { r with woken := true } else r

/-- The start of a call. `poll_read_buf` returns at once when its buffer has no room, and a
`poll_read` of an empty slice goes on. -/
def Reader.start (r : Reader) (call : ReadCall) (waker : Waker) (len : Nat) : Reader :=
  if call = .pollReadBuf ∧ len = 0 then
    { r with waker, filled := [], returned := .ready [], woken := false }
  else { r with pc := .take len, waker, filled := [], returned := .nothing, woken := false }

/-- The next step of the reader's call. `outcome` is how the kernel takes the system call of a
step that makes one. -/
def advance (s : State) (outcome : Outcome) : Option State :=
  match s.reader.pc with
  | .idle => none
  | .take len =>
    match s.slot.takeReadableOrPark s.reader.waker with
    | (slot, true) => some { s with slot, reader.pc := .recv len }
    | (slot, false) => some { s with slot, reader.pc := .idle, reader.returned := .pending }
  | .recv len =>
    match s.kernel.recv len outcome with
    | (kernel, .interrupted) => some { s with kernel }
    | (kernel, .failed error) =>
      some { s with kernel, reader.pc := .idle, reader.returned := .failed error }
    | (kernel, .wouldBlock) => some { s with kernel, reader.pc := .park }
    | (kernel, .bytes data) =>
      if data.length = len then
        some { s with kernel, reader.pc := .count, reader.filled := data }
      else
        -- A short read emptied the queue, so readiness stays consumed.
        some { s with
          kernel, reader.pc := .idle, reader.filled := data, reader.returned := .ready data }
  | .count =>
    match s.kernel.pending outcome with
    | some 0 => some { s with reader.pc := .idle, reader.returned := .ready s.reader.filled }
    | _ => some { s with reader.pc := .mark }
  | .mark =>
    some { s with
      slot := s.slot.markReadable
      reader.pc := .idle
      reader.returned := .ready s.reader.filled }
  | .park =>
    match s.slot.pollReadable s.reader.waker with
    | (slot, true) => some { s with slot, reader.pc := .wakeSelf }
    | (slot, false) => some { s with slot, reader.pc := .idle, reader.returned := .pending }
  | .wakeSelf =>
    some { s with
      reader := { s.reader.wake s.reader.waker with pc := .idle, returned := .pending } }

/-- The step function. -/
def step (s : State) : Action → Option State
  | .arrive bytes =>
    -- Nothing arrives after the end of the stream, and an arrival has bytes.
    if bytes = [] ∨ s.kernel.eof then none
    else some { s with kernel.data := s.kernel.data ++ bytes, kernel.queued := true }
  | .hangUp =>
    if s.kernel.eof then none
    else some { s with kernel.eof := true, kernel.queued := true }
  | .collect writable =>
    if s.kernel.queued then
      some { s with
        kernel.queued := false
        collected := s.collected ++ [s.kernel.flags writable] }
    else none
  | .dispatch i =>
    match s.collected[i]? with
    | none => none
    | some event =>
      let (slot, wakers) := s.slot.dispatch event
      some { s with slot, collected := s.collected.eraseIdx i, waking := s.waking ++ wakers }
  | .wake i =>
    match s.waking[i]? with
    | none => none
    | some waker =>
      some { s with waking := s.waking.eraseIdx i, reader := s.reader.wake waker }
  | .call call waker len =>
    match s.reader.pc with
    | .idle => some { s with reader := s.reader.start call waker len }
    | _ => none
  | .advance outcome => advance s outcome

/-- A registered socket: it may hold bytes already, and its peer may be gone. The registration
queued an event. -/
def new (data : List UInt8) (eof : Bool) : State :=
  { kernel := { data, eof, queued := true }
    slot := .registered
    collected := []
    waking := []
    reader := { pc := .idle, waker := 0, filled := [], returned := .nothing, woken := false } }

/-- The system of one socket and its reader. -/
def system : Lts State Action where
  init s := ∃ data eof, s = new data eof
  next := step

end TcpRead

end Nagoya.Net
