import Nagoya.Lib.Pool
import Nagoya.Reactor.Driver
import Mathlib.Data.List.Basic
import Mathlib.Tactic

/-!
# `Nagoya.Proofs.Reactor.Driver`: what an event does to its slot

An event changes each direction of a slot by itself. It raises the flag of a direction it
reports, and takes the waker parked there. The lemmas are per field, and the proofs about
streams use them instead of the definition of `dispatch`.
-/

set_option autoImplicit false

namespace Nagoya.Reactor

/-- The event is one for the reader. -/
def Readiness.forReader (e : Readiness) : Bool := e.readable || e.hangup

namespace Wakers

variable (w : Wakers) (e : Readiness)

@[simp] theorem dispatch_hangup : (w.dispatch e).1.hangup = (w.hangup || e.hangup) := by
  unfold dispatch dispatchWrite dispatchRead
  cases e.readable <;> cases e.writable <;> cases e.hangup <;> simp

@[simp] theorem dispatch_readable : (w.dispatch e).1.readable = (w.readable || e.forReader) := by
  unfold dispatch dispatchWrite dispatchRead Readiness.forReader
  cases e.readable <;> cases e.writable <;> cases e.hangup <;> simp

@[simp] theorem dispatch_reader :
    (w.dispatch e).1.reader = if e.forReader then none else w.reader := by
  unfold dispatch dispatchWrite dispatchRead Readiness.forReader
  cases e.readable <;> cases e.writable <;> cases e.hangup <;> simp

@[simp] theorem dispatch_writable : (w.dispatch e).1.writable = (w.writable || e.writable) := by
  unfold dispatch dispatchWrite dispatchRead
  cases e.readable <;> cases e.writable <;> cases e.hangup <;> simp

@[simp] theorem dispatch_writer :
    (w.dispatch e).1.writer = if e.writable then none else w.writer := by
  unfold dispatch dispatchWrite dispatchRead
  cases e.readable <;> cases e.writable <;> cases e.hangup <;> simp

theorem dispatchRead_taken :
    (w.dispatchRead e).2 = if e.forReader then w.reader.toList else [] := by
  unfold dispatchRead Readiness.forReader
  cases e.readable <;> cases e.hangup <;> simp

theorem dispatchWrite_taken :
    ((w.dispatchRead e).1.dispatchWrite e).2 = if e.writable then w.writer.toList else [] := by
  unfold dispatchWrite dispatchRead
  cases e.readable <;> cases e.writable <;> cases e.hangup <;> simp

/-- Readiness is taken, or the waker is parked with no readiness cached. -/
theorem takeReadableOrPark_cases (waker : Waker) :
    w.takeReadableOrPark waker = ({ w with readable := false }, true) ∨
    (w.readable = false ∧ w.hangup = false ∧
      w.takeReadableOrPark waker = (w.parkReader waker, false)) := by
  unfold takeReadableOrPark
  cases w.readable <;> cases w.hangup <;> simp

/-- The caller is ready, or its waker is parked with no readiness cached. -/
theorem pollReadable_cases (waker : Waker) :
    w.pollReadable waker = (w, true) ∨
    (w.readable = false ∧ w.hangup = false ∧
      w.pollReadable waker = (w.parkReader waker, false)) := by
  unfold pollReadable
  cases w.readable <;> cases w.hangup <;> simp

/-- The write side's twin of `takeReadableOrPark_cases`. -/
theorem takeWritableOrPark_cases (waker : Waker) :
    (w.writable = true ∧ w.takeWritableOrPark waker = ({ w with writable := false }, true)) ∨
    (w.writable = false ∧ w.takeWritableOrPark waker = (w.parkWriter waker, false)) := by
  unfold takeWritableOrPark
  cases w.writable <;> simp

/-- The write side's twin of `pollReadable_cases`. -/
theorem pollWritable_cases (waker : Waker) :
    (w.writable = true ∧ w.pollWritable waker = (w, true)) ∨
    (w.writable = false ∧ w.pollWritable waker = (w.parkWriter waker, false)) := by
  unfold pollWritable
  cases w.writable <;> simp

variable {w e}

/-- An event for the reader takes the waker that is parked. -/
theorem mem_dispatch_of_reader {waker : Waker} (he : e.forReader = true)
    (hw : w.reader = some waker) : waker ∈ (w.dispatch e).2 := by
  revert he
  unfold dispatch dispatchWrite dispatchRead Readiness.forReader
  cases e.readable <;> cases e.writable <;> cases e.hangup <;> simp [hw]

end Wakers

end Nagoya.Reactor
