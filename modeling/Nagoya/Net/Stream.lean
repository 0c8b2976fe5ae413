import Nagoya.Net.TcpRead
import Nagoya.Net.WriteAll

/-!
# `Nagoya.Net.Stream`: a sender and a receiver on one connection

The two ends of a connection, in the direction from the sender to the receiver. The sender is a
task that writes its sources one after the other with `write_all` or `write_all_vectored`. The
receiver is a task that calls `Stream::read_exact` for one length after the other, and each of
its reads is a `TcpStream::read`. The sockets, their slots and the calls are those of
`Nagoya.Net.TcpWrite` and `Nagoya.Net.TcpRead`, and every step of theirs is a step here.

The kernel keeps what it accepted in the send buffer, and the network moves bytes from there into
the receive buffer while that has room. The kernel accepts less than it is offered only when the
send buffer is full afterwards. It may interrupt a call, and `FIONREAD` may fail. No other call
fails and neither end is closed: the runs here are those of a connection that works.

Each end has a reactor, which collects queued events, dispatches them and wakes the tasks. An
executor polls a task that is new or was woken, and may poll it at other times.
-/

set_option autoImplicit false

namespace Nagoya.Net

open Nagoya.Lib Nagoya.Reactor
open Nagoya.Io (StreamError)

namespace Stream

open WriteAll (Source iovecs)

/-- A task. `spawned` is one that was not polled yet, and `calling` is inside the poll of its
current call, or has the answer of it. -/
inductive Task where
  | spawned
  | suspended
  | calling
  | panicked
  | returned (result : Except StreamError Unit)

namespace Task

/-- The executor has a reason to poll the task. -/
def due : Task → Bool → Bool
  | spawned, _ => true
  | suspended, woken => woken
  | _, _ => false

/-- The task may be polled. -/
def waits : Task → Bool
  | spawned | suspended => true
  | _ => false

/-- The task has a call. -/
def isCalling : Task → Bool
  | calling => true
  | _ => false

end Task

/-! ### The sender -/

/-- The sending end: the socket, the bytes in the send buffer, the sources that are not written,
the counter of the first of them, and the task. -/
structure Sender where
  socket : TcpWrite.State
  sent : List UInt8
  sources : List Source
  written : Nat
  task : Task

/-- One step at the sending end. -/
inductive SendAction where
  /-- The executor polls the task, because it is new or was woken. -/
  | poll (waker : Waker)
  | pollAnyway (waker : Waker)
  /-- The next step of the call. `outcome` is the kernel's answer to a send. -/
  | advance (outcome : TcpWrite.Outcome)
  /-- The call has returned, and the loop goes on. -/
  | answer
  /-- The reactor collects the event that is queued. -/
  | collect
  /-- The reactor collects an event that has another reason. -/
  | event (readable hangup : Bool)
  | dispatch (i : Nat)
  | wake (i : Nat)
  deriving DecidableEq

namespace Sender

/-- The loops whose source is written return, and the next source has its turn. -/
def finish : List Source → Nat → List Source × Nat
  | [], _ => ([], 0)
  | source :: rest, written =>
    if written < source.total then (source :: rest, written) else finish rest 0

/-- The loop of `write_all`, up to its next call. -/
def loop (s : Sender) (waker : Waker) : Option Sender :=
  let (sources, written) := finish s.sources s.written
  let s := { s with sources, written }
  match sources with
  | [] => some { s with task := .returned (.ok ()) }
  | source :: _ =>
    match source.slices written with
    | none => some { s with task := .panicked }
    | some (first, second) => do
      let socket ← TcpWrite.step s.socket (.pollWriteVectored waker first.length second.length)
      some { s with socket, task := .calling }

/-- What the call offers to the kernel. -/
def offered (s : Sender) : List UInt8 :=
  match s.sources with
  | [] => []
  | source :: _ =>
    match source.slices s.written with
    | none => []
    | some (first, second) => (iovecs first second).flatten

/-- The answers of the kernel to a send: it is cut short or refused only by a full buffer. -/
def answers (k : TcpWrite.Kernel) (wanted : Nat) : TcpWrite.Outcome → Bool
  | .accepted n => n = wanted ∨ k.used + n = k.capacity
  | .refused => k.used = k.capacity
  | .interrupted => true
  | .failed _ => false

/-- The next step of the call. What a send accepts goes into the send buffer. -/
def advance (s : Sender) (outcome : TcpWrite.Outcome) : Option Sender := do
  let socket ← TcpWrite.step s.socket (.advance outcome)
  match s.socket.writer.pc with
  | .send wanted =>
    if answers s.socket.kernel wanted outcome then
      let accepted :=
        match outcome with
        | .accepted n => s.offered.take n
        | _ => []
      some { s with socket, sent := s.sent ++ accepted }
    else none
  | _ => some { s with socket }

/-- What the loop of `write_all` does with the result of its call. -/
def answer (s : Sender) : Option Sender :=
  match s.socket.writer.returned with
  | .nothing => none
  | .pending => some { s with task := .suspended }
  | .ready n =>
    -- `Ok(0)` ends the loop with `BrokenPipe`.
    if n = 0 then some { s with task := .returned (.error brokenPipe) }
    else loop { s with written := s.written + n } s.socket.writer.waker
  | .failed error => some { s with task := .returned (.error ⟨error⟩) }

/-- A step of the socket alone. -/
def onSocket (s : Sender) (act : TcpWrite.Action) : Option Sender := do
  let socket ← TcpWrite.step s.socket act
  some { s with socket }

/-- The step function. -/
def step (s : Sender) : SendAction → Option Sender
  -- The executor polls a task that is new or was woken. It may also poll one that was not.
  | .poll waker => if s.task.due s.socket.writer.woken then loop s waker else none
  | .pollAnyway waker => if s.task.waits then loop s waker else none
  | .advance outcome => if s.task.isCalling then advance s outcome else none
  | .answer => if s.task.isCalling ∧ s.socket.writer.pc = .idle then answer s else none
  | .collect => if s.socket.kernel.queued then s.onSocket (.collect false false) else none
  | .event readable hangup => s.onSocket (.collect readable hangup)
  | .dispatch i => s.onSocket (.dispatch i)
  | .wake i => s.onSocket (.wake i)

end Sender

/-! ### The receiver -/

/-- The receiving end: the socket, the lengths of the buffers that are not filled, what the first of
these buffers has, the buffers that were filled, and the task. -/
structure Receiver where
  socket : TcpRead.State
  lengths : List Nat
  filled : List UInt8
  received : List (List UInt8)
  task : Task

/-- One step at the receiving end. -/
inductive RecvAction where
  /-- The executor polls the task, because it is new or was woken. -/
  | poll (waker : Waker)
  | pollAnyway (waker : Waker)
  /-- The next step of the call. -/
  | advance (outcome : TcpRead.Outcome)
  /-- The call has returned, and the loop goes on. -/
  | answer
  | collect (writable : Bool)
  | dispatch (i : Nat)
  | wake (i : Nat)
  deriving DecidableEq

namespace Receiver

/-- The loops whose buffer is filled return, and the next buffer has its turn. -/
def finish : List Nat → List UInt8 → List (List UInt8) →
    List Nat × List UInt8 × List (List UInt8)
  | [], _, received => ([], [], received)
  | length :: rest, filled, received =>
    if filled.length < length then (length :: rest, filled, received)
    else finish rest [] (received ++ [filled])

/-- The loop of `read_exact`, up to its next call. -/
def loop (s : Receiver) (waker : Waker) : Option Receiver :=
  let (lengths, filled, received) := finish s.lengths s.filled s.received
  let s := { s with lengths, filled, received }
  match lengths with
  | [] => some { s with task := .returned (.ok ()) }
  | length :: _ => do
    let socket ← TcpRead.step s.socket (.call .pollRead waker (length - filled.length))
    some { s with socket, task := .calling }

/-- A step of the socket alone. -/
def onSocket (s : Receiver) (act : TcpRead.Action) : Option Receiver := do
  let socket ← TcpRead.step s.socket act
  some { s with socket }

/-- The `recv` of a connection that works does not fail. -/
def answers (pc : TcpRead.Pc) (outcome : TcpRead.Outcome) : Bool :=
  match pc, outcome with
  | .recv _, .failed _ => false
  | _, _ => true

/-- What the loop of `read_exact` does with the result of its call. -/
def answer (s : Receiver) : Option Receiver :=
  match s.socket.reader.returned with
  | .nothing => none
  | .pending => some { s with task := .suspended }
  | .ready data =>
    -- An empty read is the end of the stream.
    if data = [] then some { s with task := .returned (.error .unexpectedEof) }
    else loop { s with filled := s.filled ++ data } s.socket.reader.waker
  | .failed error =>
    let error : StreamError := ⟨error⟩
    if error.interrupted then loop s s.socket.reader.waker
    else some { s with task := .returned (.error error) }

/-- The step function. -/
def step (s : Receiver) : RecvAction → Option Receiver
  | .poll waker => if s.task.due s.socket.reader.woken then loop s waker else none
  | .pollAnyway waker => if s.task.waits then loop s waker else none
  | .advance outcome =>
    if s.task.isCalling ∧ answers s.socket.reader.pc outcome then s.onSocket (.advance outcome)
    else none
  | .answer => if s.task.isCalling ∧ s.socket.reader.pc = .idle then answer s else none
  | .collect writable => s.onSocket (.collect writable)
  | .dispatch i => s.onSocket (.dispatch i)
  | .wake i => s.onSocket (.wake i)

end Receiver

/-! ### The connection -/

/-- A connection, and what the two tasks are to do with it. `capacity` and `room` are the sizes of
the send buffer and of the receive buffer, and `sendCapacity` is the first as it was reported. -/
structure Connection where
  sources : List Source
  lengths : List Nat
  capacity : Nat
  sendCapacity : Nat
  room : Nat

/-- The two ends. -/
structure State where
  sender : Sender
  receiver : Receiver

/-- One step of one party. -/
inductive Action where
  | sender (act : SendAction)
  | receiver (act : RecvAction)
  /-- The network moves `n` bytes. -/
  | transmit (n : Nat)
  deriving DecidableEq

/-- The network moves `n` bytes from one end to the other. -/
def transmit (c : Connection) (s : State) (n : Nat) : Option State :=
  -- The network moves what was sent and what there is room for.
  if n ≤ s.sender.sent.length ∧ s.receiver.socket.kernel.data.length + n ≤ c.room then do
    let sender ← s.sender.onSocket (.drain n)
    let receiver ← s.receiver.onSocket (.arrive (s.sender.sent.take n))
    some { sender := { sender with sent := s.sender.sent.drop n }, receiver }
  else none

/-- The step function. -/
def step (c : Connection) (s : State) : Action → Option State
  | .sender act => do
    let sender ← s.sender.step act
    some { s with sender }
  | .receiver act => do
    let receiver ← s.receiver.step act
    some { s with receiver }
  | .transmit n => transmit c s n

/-- A connection with nothing on the way, and two new tasks. -/
def new (c : Connection) : State :=
  { sender :=
      { socket := TcpWrite.new c.capacity c.sendCapacity
        sent := []
        sources := c.sources
        written := 0
        task := .spawned }
    receiver :=
      { socket := TcpRead.new [] false
        lengths := c.lengths
        filled := []
        received := []
        task := .spawned } }

/-- The system of one connection. -/
def system (c : Connection) : Lts State Action where
  init s := s = new c
  next := step c

end Stream

end Nagoya.Net
