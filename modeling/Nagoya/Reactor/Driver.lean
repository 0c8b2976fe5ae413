import Nagoya.Machine

/-!
# `Nagoya.Reactor.Driver`: the readiness slot of one descriptor

A registration owns a slot. Under one lock the slot holds the cached readiness of the
descriptor and the wakers parked on it. The reader's and the writer's calls take readiness or
park in one section, and `dispatch` sets readiness and takes the parked waker in one section.

Each function here is one such section. What a section leaves to be woken is part of its
result: a waker runs outside the lock.
-/

set_option autoImplicit false

namespace Nagoya.Reactor

/-- The flags of a poller event. The token is not part of them: it selects the slot. -/
structure Readiness where
  readable : Bool
  writable : Bool
  hangup : Bool
  deriving DecidableEq, Repr

/-- `Wakers`: the slot of one descriptor. -/
structure Wakers where
  reader : Option Waker
  writer : Option Waker
  readable : Bool
  writable : Bool
  hangup : Bool
  deriving DecidableEq, Repr

/-- The two directions of a slot. -/
inductive Direction where
  | read
  | write
  deriving DecidableEq, Repr

namespace Wakers

/-- The slot that `Handle::register` makes. It starts ready in both directions, because the
poller reports edges and an edge before the registration is gone. -/
def registered : Wakers :=
  { reader := none, writer := none, readable := true, writable := true, hangup := false }

/-- Parking a waker for the reader. A waker that wakes the same task stays, which is the same
as writing it again. -/
def parkReader (w : Wakers) (waker : Waker) : Wakers := { w with reader := some waker }

/-- Parking a waker for the writer. -/
def parkWriter (w : Wakers) (waker : Waker) : Wakers := { w with writer := some waker }

/-- `Registration::take_readable_or_park`. The flag says that readiness was taken. -/
def takeReadableOrPark (w : Wakers) (waker : Waker) : Wakers × Bool :=
  -- A descriptor whose peer hung up is worth reading for the rest of its life.
  if w.readable || w.hangup then ({ w with readable := false }, true)
  else (w.parkReader waker, false)

/-- `Registration::mark_readable`. -/
def markReadable (w : Wakers) : Wakers := { w with readable := true }

/-- The section of `Registration::poll_readable`. The flag says that the caller is woken at
once, because an edge came in after the read. -/
def pollReadable (w : Wakers) (waker : Waker) : Wakers × Bool :=
  if w.readable || w.hangup then (w, true) else (w.parkReader waker, false)

/-- `Registration::take_writable_or_park`. -/
def takeWritableOrPark (w : Wakers) (waker : Waker) : Wakers × Bool :=
  if w.writable then ({ w with writable := false }, true) else (w.parkWriter waker, false)

/-- `Registration::mark_writable`. -/
def markWritable (w : Wakers) : Wakers := { w with writable := true }

/-- The section of `Registration::poll_writable`. -/
def pollWritable (w : Wakers) (waker : Waker) : Wakers × Bool :=
  if w.writable then (w, true) else (w.parkWriter waker, false)

/-- `Registration::cancel_read_wait`. The cached readiness stays. -/
def cancelReadWait (w : Wakers) : Wakers := { w with reader := none }

/-- `Registration::cancel_write_wait`. -/
def cancelWriteWait (w : Wakers) : Wakers := { w with writer := none }

/-- The method that takes readiness or parks, in either direction. -/
def takeOrPark (w : Wakers) (d : Direction) (waker : Waker) : Wakers × Bool :=
  match d with
  | .read => w.takeReadableOrPark waker
  | .write => w.takeWritableOrPark waker

/-- The method that puts readiness back, in either direction. -/
def mark (w : Wakers) (d : Direction) : Wakers :=
  match d with
  | .read => w.markReadable
  | .write => w.markWritable

/-- The method that parks after `EWOULDBLOCK`, in either direction. -/
def pollReady (w : Wakers) (d : Direction) (waker : Waker) : Wakers × Bool :=
  match d with
  | .read => w.pollReadable waker
  | .write => w.pollWritable waker

/-- The method that releases a waiter, in either direction. -/
def cancelWait (w : Wakers) (d : Direction) : Wakers :=
  match d with
  | .read => w.cancelReadWait
  | .write => w.cancelWriteWait

/-- `dispatch` of one event to its slot, for the reading direction. -/
def dispatchRead (w : Wakers) (event : Readiness) : Wakers × List Waker :=
  -- The hang-up is latched first, so that a reader woken by this edge sees it too.
  let w := if event.hangup then { w with hangup := true } else w
  if event.readable || event.hangup then
    ({ w with readable := true, reader := none }, w.reader.toList)
  else (w, [])

/-- `dispatch` of one event to its slot, for the writing direction. -/
def dispatchWrite (w : Wakers) (event : Readiness) : Wakers × List Waker :=
  if event.writable then ({ w with writable := true, writer := none }, w.writer.toList)
  else (w, [])

/-- `dispatch` of one event to its slot, with the wakers it takes. -/
def dispatch (w : Wakers) (event : Readiness) : Wakers × List Waker :=
  let (w, readers) := w.dispatchRead event
  let (w, writers) := w.dispatchWrite event
  (w, readers ++ writers)

end Wakers

end Nagoya.Reactor
