import Nagoya.Io
import Nagoya.Lib.Lts
import Nagoya.Net.TcpWrite

/-!
# `Nagoya.Net.WriteAll`: writing a header and a payload to the end

`WriteAllVectored` and `WriteAll` keep one counter across their polls, and each turn of their
loop calls `poll_write_vectored` with what the counter says is left. The two differ in the slices
they pass, and `Source` is that difference. Indexing a slice out of range is a panic.

The system is one slot and one of the two futures. The future may be polled with any waker when
it is not being polled and has not returned. Events with any flags are dispatched between any two
steps, and the reader's half of the slot is written in any way at any time. Every lock section
and every send is one step, and the label of a send has the kernel's answer.

`sends` records what was offered and answered. Nothing reads it.
-/

set_option autoImplicit false

namespace Nagoya.Net

open Nagoya.Lib Nagoya.Reactor
open Nagoya.Io (StreamError WriteCall)

/-- `codes::BROKEN_PIPE`. -/
def brokenPipe : StreamError := ⟨32⟩

namespace WriteAll

/-- What a future writes. -/
inductive Source where
  | vectored (header payload : List UInt8)
  | all (buffer : List UInt8)
  deriving DecidableEq, Repr

/-- `slice[start..]`, which panics when `start` is past the end. -/
def sliceFrom (slice : List UInt8) (start : Nat) : Option (List UInt8) :=
  if start ≤ slice.length then some (slice.drop start) else none

namespace Source

/-- The number of bytes of the loop's test. -/
def total : Source → Nat
  | vectored header payload => header.length + payload.length
  | all buffer => buffer.length

/-- The two slices that `poll_write_vectored` is called with, or nothing for a panic. -/
def slices (written : Nat) : Source → Option (List UInt8 × List UInt8)
  | vectored header payload =>
    if written < header.length then do
      let first ← sliceFrom header written
      some (first, payload)
    else do
      let second ← sliceFrom payload (written - header.length)
      some ([], second)
  | all buffer => do
    -- `poll_write` calls `poll_write_vectored` with an empty first slice.
    let second ← sliceFrom buffer written
    some ([], second)

end Source

/-- The entries that `TcpSocket::send_vectored` hands to the kernel. An empty first slice is
skipped. -/
def iovecs (first second : List UInt8) : List (List UInt8) :=
  let (start, count) := if first.isEmpty then (1, 1) else (0, 2)
  ([first, second].drop start).take count

/-- The next step of the future. `idle` waits for its first poll, and `pending` for another. -/
inductive Pc where
  | idle
  | pending
  | take (first second : List UInt8)
  | send (first second : List UInt8)
  | mark (n : Nat)
  | park
  | wakeSelf
  | returned (result : Except StreamError Unit)
  | panicked
  deriving Repr

/-- The slot, and the future with the waker of its last poll. -/
structure State where
  slot : Wakers
  written : Nat
  pc : Pc
  waker : Waker
  sends : List (WriteCall StreamError)

/-- One step of one party. -/
inductive Action where
  | poll (waker : Waker)
  | dispatch (event : Readiness)
  | reader (waker : Option Waker) (readable hangup : Bool)
  | advance (answer : Except StreamError Nat)

/-- The head of the loop in `poll`. -/
def loop (source : Source) (s : State) : State :=
  if s.written < source.total then
    match source.slices s.written with
    | some (first, second) => { s with pc := .take first second }
    | none => { s with pc := .panicked }
  else { s with pc := .returned (.ok ()) }

/-- `poll_write_vectored` returned `Ready(Ok(n))`. -/
def ready (source : Source) (s : State) (n : Nat) : State :=
  if n = 0 then { s with pc := .returned (.error brokenPipe) }
  else loop source { s with written := s.written + n }

/-- What `poll_write_vectored` does with the kernel's answer. A kernel accepts no more than it was
offered. -/
def answered (source : Source) (sendCapacity : Nat) (s : State) (first second : List UInt8)
    (answer : Except StreamError Nat) : Option State :=
  let offered := (iovecs first second).flatten
  let wanted := first.length + second.length
  let s := { s with sends := s.sends ++ [⟨offered, answer⟩] }
  match answer with
  | .ok n =>
    if n ≤ offered.length then
      if TcpWrite.restores sendCapacity wanted n then some { s with pc := .mark n }
      else some (ready source s n)
    else none
  | .error error =>
    if error.wouldBlock then some { s with pc := .park }
    else if error.interrupted then some s
    else some { s with pc := .returned (.error error) }

/-- The next step of the future. -/
def advance (source : Source) (sendCapacity : Nat) (s : State) (answer : Except StreamError Nat) :
    Option State :=
  match s.pc with
  | .take first second =>
    match s.slot.takeWritableOrPark s.waker with
    | (slot, true) => some { s with slot, pc := .send first second }
    | (slot, false) => some { s with slot, pc := .pending }
  | .send first second => answered source sendCapacity s first second answer
  | .mark n => some (ready source { s with slot := s.slot.markWritable } n)
  | .park =>
    match s.slot.pollWritable s.waker with
    | (slot, true) => some { s with slot, pc := .wakeSelf }
    | (slot, false) => some { s with slot, pc := .pending }
  | .wakeSelf => some { s with pc := .pending }
  | .idle | .pending | .returned _ | .panicked => none

/-- The step function. -/
def step (source : Source) (sendCapacity : Nat) (s : State) : Action → Option State
  | .poll waker =>
    match s.pc with
    | .idle | .pending => some (loop source { s with waker })
    | _ => none
  | .dispatch event => some { s with slot := (s.slot.dispatch event).1 }
  | .reader waker readable hangup =>
    some { s with slot := { s.slot with reader := waker, readable, hangup } }
  | .advance answer => advance source sendCapacity s answer

/-- A future that was just made, on a stream whose slot has any contents. -/
def new (slot : Wakers) : State := { slot, written := 0, pc := .idle, waker := 0, sends := [] }

/-- The system of one stream and one future. -/
def system (source : Source) (sendCapacity : Nat) : Lts State Action where
  init s := ∃ slot, s = new slot
  next := step source sendCapacity

/-- What the future returned. -/
def State.result (s : State) : Option (Except StreamError Unit) :=
  match s.pc with
  | .returned result => some result
  | _ => none

end WriteAll

/-- `TcpStream::write_all_vectored`: the system of its future. -/
def writeAllVectored (header payload : List UInt8) (sendCapacity : Nat) :
    Lts WriteAll.State WriteAll.Action :=
  WriteAll.system (.vectored header payload) sendCapacity

/-- `TcpStream::write_all`: the system of its future. -/
def writeAll (buffer : List UInt8) (sendCapacity : Nat) : Lts WriteAll.State WriteAll.Action :=
  WriteAll.system (.all buffer) sendCapacity

end Nagoya.Net
