import Nagoya.Lib.Lts
import Nagoya.Reactor.Driver

/-!
# `Nagoya.Process.Output`: collecting what a child wrote

The system is one `wait_with_output` future, the two pipes it drains, the child that writes them,
and the reactor. The child writes and closes each pipe when it likes. The kernel queues an event
when bytes come into an empty pipe and when the pipe is closed, and may queue one for any other
write. An event is collected with the flags that the pipe then has, and the events of a pipe are
dispatched in any order. A pipe that the future has let go of has no slot, and its events go
nowhere.

Each lock section of a slot and each system call is one step, and the label of a `read` says how
the kernel takes it. A read hands over what is there, up to the size of the buffer, so a short
read has emptied the pipe. The drains are over when both pipes are at end of file. What the
`wait` after them answers is in its label.

A stream that was not piped, or was taken before, is a pipe that the future does not have.

`written` records the bytes that the child wrote. Nothing reads it.
-/

set_option autoImplicit false

namespace Nagoya

open Nagoya.Lib Nagoya.Reactor

namespace Output

/-- The two streams of the child. -/
inductive Stream where
  | stdout
  | stderr
  deriving DecidableEq, Repr

/-- One pipe: the bytes in it and whether its writer is closed, the events on their way, the slot
of the parent's end, the wakers that `dispatch` took and has not yet woken, whether the future
still has the pipe, and the vector it is drained into. -/
structure Pipe where
  data : List UInt8
  closed : Bool
  queued : Bool
  collected : List Readiness
  slot : Wakers
  waking : List Waker
  held : Bool
  into : List UInt8
  written : List UInt8
  deriving DecidableEq, Repr

/-- The size of the buffer in `drain`. -/
def chunk : Nat := 8192

/-- How the kernel takes a `read`. -/
inductive Outcome where
  | done
  | interrupted
  | failed (error : Nat)
  deriving DecidableEq, Repr

/-- What a `read` returns. -/
inductive Received where
  | bytes (data : List UInt8)
  | wouldBlock
  | interrupted
  | failed (error : Nat)
  deriving DecidableEq, Repr

/-- `read_fd` into the buffer of `drain`. -/
def Pipe.readFd (p : Pipe) : Outcome → Received
  | .interrupted => .interrupted
  | .failed error => .failed error
  | .done => if p.data = [] ∧ p.closed = false then .wouldBlock else .bytes (p.data.take chunk)

/-- What `wait` answers to a poll. -/
inductive Waited where
  | pending
  | exited (status : Nat)
  | failed (error : Nat)
  deriving DecidableEq, Repr

/-- `Output`. -/
structure Collected where
  status : Nat
  stdout : List UInt8
  stderr : List UInt8
  deriving DecidableEq, Repr

/-- The next step of the future. `drain` is the entry of the function of that name, and `mark`
puts readiness back after a read. `suspended` and `waiting` are the two suspensions. -/
inductive Pc where
  | fresh
  | suspended
  | drain (d : Stream)
  | take (d : Stream)
  | read (d : Stream)
  | mark (d : Stream) (received : Received)
  | combine
  | wait
  | waiting
  | returned (result : Except Nat Collected)

/-- The pipes and the future. `drained` has what the two drains of the running poll returned, and
`none` is `Pending`. `waker` is the one of the last poll. -/
structure State where
  pipes : Stream → Pipe
  pc : Pc
  drained : Stream → Option (Except Nat Unit)
  waker : Waker
  woken : Bool

/-- One step of one party. -/
inductive Action where
  | write (d : Stream) (bytes : List UInt8) (notify : Bool)
  | close (d : Stream)
  | collect (d : Stream) (readable writable : Bool)
  | dispatch (d : Stream) (i : Nat)
  | wake (d : Stream) (i : Nat)
  | poll (waker : Waker)
  | advance (outcome : Outcome)
  | wait (answer : Waited)

/-- A change of one pipe. -/
def State.setPipe (s : State) (d : Stream) (p : Pipe) : State :=
  { s with pipes := Function.update s.pipes d p }

/-- A drain returns. -/
def State.finish (s : State) (d : Stream) (result : Option (Except Nat Unit)) : State :=
  { s with
    drained := Function.update s.drained d result
    pc := match d with
      | .stdout => .drain .stderr
      | .stderr => .combine }

/-- `drain` takes `Ok` of a read. At end of file it forgets the pipe. -/
def State.took (s : State) (d : Stream) (data : List UInt8) : State :=
  let p := s.pipes d
  if data = [] then (s.setPipe d { p with held := false }).finish d (some (.ok ()))
  else { s.setPipe d { p with into := p.into ++ data } with pc := .take d }

/-- `Pipe::poll_read` gets the answer of the system call. -/
def State.received (s : State) (d : Stream) (received : Received) : State :=
  match received with
  | .bytes data =>
    let s := s.setPipe d { s.pipes d with data := (s.pipes d).data.drop chunk }
    -- End of file stays end of file, and a full buffer has not shown the pipe empty.
    if data = [] ∨ data.length = chunk then { s with pc := .mark d received }
    else s.took d data
  | .wouldBlock => { s with pc := .take d }
  | .interrupted | .failed _ => { s with pc := .mark d received }

/-- What is left to do when readiness is put back. -/
def State.marked (s : State) (d : Stream) (received : Received) : State :=
  let p := s.pipes d
  let s := s.setPipe d { p with slot := p.slot.markReadable }
  match received with
  | .bytes data => s.took d data
  | .wouldBlock | .interrupted => { s with pc := .take d }
  | .failed error => s.finish d (some (.error error))

/-- The `match` on what the two drains returned. -/
def State.combine (s : State) : State :=
  match s.drained .stdout, s.drained .stderr with
  | some (.error error), _ => { s with pc := .returned (.error error) }
  | _, some (.error error) => { s with pc := .returned (.error error) }
  | some (.ok ()), some (.ok ()) => { s with pc := .wait }
  | _, _ => { s with pc := .suspended }

/-- The next step of the future, up to `wait`. -/
def advance (s : State) (outcome : Outcome) : Option State :=
  match s.pc with
  | .drain d =>
    -- A pipe that was given up before is drained.
    if (s.pipes d).held then some { s with pc := .take d } else some (s.finish d (some (.ok ())))
  | .take d =>
    let p := s.pipes d
    match p.slot.takeReadableOrPark s.waker with
    | (slot, true) => some { s.setPipe d { p with slot } with pc := .read d }
    | (slot, false) => some ((s.setPipe d { p with slot }).finish d none)
  | .read d => some (s.received d ((s.pipes d).readFd outcome))
  | .mark d received => some (s.marked d received)
  | .combine => some s.combine
  | .fresh | .suspended | .wait | .waiting | .returned _ => none

/-- `wait` answers the poll. -/
def waited (s : State) (answer : Waited) : State :=
  match answer with
  | .pending => { s with pc := .waiting }
  | .exited status =>
    let stdout := (s.pipes .stdout).into
    let stderr := (s.pipes .stderr).into
    { s with pc := .returned (.ok { status, stdout, stderr }) }
  | .failed error => { s with pc := .returned (.error error) }

/-- The step function. -/
def step (s : State) : Action → Option State
  | .write d bytes notify =>
    let p := s.pipes d
    if p.closed = false then
      some (s.setPipe d { p with
        data := p.data ++ bytes
        written := p.written ++ bytes
        queued := p.queued || notify || decide (p.data = []) })
    else none
  | .close d => some (s.setPipe d { s.pipes d with closed := true, queued := true })
  | .collect d readable writable =>
    -- Events are collected from what the pipe holds, and hang-up from its other end.
    let p := s.pipes d
    let event := { readable := readable || decide (p.data ≠ []), writable, hangup := p.closed }
    some (s.setPipe d { p with queued := false, collected := p.collected ++ [event] })
  | .dispatch d i =>
    let p := s.pipes d
    match p.collected[i]? with
    | none => none
    | some event =>
      let p := { p with collected := p.collected.eraseIdx i }
      -- The registration of a pipe that was given up is gone.
      if p.held then
        some (s.setPipe d { p with
          slot := (p.slot.dispatch event).1
          waking := p.waking ++ (p.slot.dispatch event).2 })
      else some (s.setPipe d p)
  | .wake d i =>
    let p := s.pipes d
    match p.waking[i]? with
    | none => none
    | some waker =>
      let s := s.setPipe d { p with waking := p.waking.eraseIdx i }
      -- Only the waker of the last poll is the task's.
      some (if waker = s.waker then { s with woken := true } else s)
  | .poll waker =>
    match s.pc with
    -- Both drains are polled again after a suspension, and `wait` alone once they are done.
    | .fresh | .suspended => some { s with pc := .drain .stdout, waker, woken := false }
    | .waiting => some { s with pc := .wait, waker, woken := false }
    | _ => none
  | .advance outcome => advance s outcome
  | .wait answer =>
    match s.pc with
    | .wait => some (waited s answer)
    | _ => none

/-- A pipe that was just registered. The child may have written to it before. -/
def Pipe.new (data : List UInt8) (closed : Bool) : Pipe :=
  { data, closed
    queued := true
    collected := []
    slot := .registered
    waking := []
    held := true
    into := []
    written := data }

/-- A stream that the future has no pipe for. -/
def Pipe.absent : Pipe := { Pipe.new [] true with held := false }

/-- The future, before its first poll. -/
def new (pipes : Stream → Pipe) : State :=
  { pipes, pc := .fresh, drained := fun _ => none, waker := 0, woken := false }

/-- The system of `wait_with_output`. -/
def system : Lts State Action where
  init s := ∃ pipes, (∀ d, pipes d = .absent ∨ ∃ data closed, pipes d = .new data closed) ∧
    s = new pipes
  next := step

end Output

end Nagoya
