import Nagoya.Reactor.Descriptors
import Nagoya.Reactor.Driver

/-!
# `Nagoya.Reactor.Slots`: the slot map, tokens and dispatch

The system is one reactor and any number of calls of `Handle::register`. A call takes an index,
inserts its slot into the map, and asks the poller to watch the descriptor. A poller that
refuses makes the call take its slot out again. A registration is used by its owner until it is
dropped, and the drop tells the poller first and takes the slot out of the map second. Each
atomic operation, system call and lock section is one step.

`dispatch` is given events one at a time. An event here is any token with any flags, so the runs
have every order, repetition and delay of the events that a poller ever reported. A `dispatch` of
a batch holds the lock on the map from its first event to its last. Its steps are these steps,
and the runs here have more interleavings than the lock allows.

`parks` and `takes` are a history that nothing reads: which wakers were parked in which
direction of which slot, and which of them `dispatch` took.
-/

set_option autoImplicit false

namespace Nagoya.Reactor

open Nagoya.Lib

/-- `split_token`: the index and the generation. -/
def splitToken (token : Nat) : Nat × Nat :=
  (token &&& (1 <<< generationShift - 1), token >>> generationShift)

/-- `WAKE_TOKEN` of epoll, and the `udata` of kqueue's wake event: all 64 bits set. -/
def wakeToken : Nat := 2 ^ 64 - 1

/-- `Event`: what the poller reports. -/
structure Event where
  token : Nat
  flags : Readiness
  deriving DecidableEq, Repr

namespace Slots

/-- `Slot`. -/
structure Slot where
  generation : Nat
  wakers : Wakers
  deriving DecidableEq, Repr

/-- How far a call of `register` and the registration it made have come. `claimed` has an index,
`inserted` has its slot in the map, `refused` was turned down by the poller and still has its slot
there, and `removing` is a drop that has told the poller. -/
inductive Phase where
  | claimed
  | inserted
  | refused
  | failed
  | live
  | removing
  | dropped
  deriving DecidableEq, Repr

/-- The slot is in the map: from its insertion to the end of the drop, or of a failed call. -/
def Phase.inMap : Phase → Bool
  | .inserted | .refused | .live | .removing => true
  | .claimed | .failed | .dropped => false

/-- One call of `register`, with the slot it made. -/
structure Call where
  index : Nat
  phase : Phase
  slot : Slot
  deriving DecidableEq, Repr

/-- The token that the call hands to the poller. -/
def Call.token (c : Call) : Nat := makeToken c.index c.slot.generation

/-- A waker parked in one direction of the slot of a call. -/
structure Park where
  call : Nat
  direction : Direction
  waker : Waker
  deriving DecidableEq, Repr

/-- The methods of `Registration` that lock the slot. -/
inductive Use where
  | takeReadableOrPark (waker : Waker)
  | markReadable
  | pollReadable (waker : Waker)
  | takeWritableOrPark (waker : Waker)
  | markWritable
  | pollWritable (waker : Waker)
  | cancelReadWait
  | cancelWriteWait
  deriving DecidableEq, Repr

/-- What a method does to the slot. -/
def Use.apply (w : Wakers) : Use → Wakers
  | .takeReadableOrPark waker => (w.takeReadableOrPark waker).1
  | .markReadable => w.markReadable
  | .pollReadable waker => (w.pollReadable waker).1
  | .takeWritableOrPark waker => (w.takeWritableOrPark waker).1
  | .markWritable => w.markWritable
  | .pollWritable waker => (w.pollWritable waker).1
  | .cancelReadWait => w.cancelReadWait
  | .cancelWriteWait => w.cancelWriteWait

/-- The waker that a method parks in the slot. -/
def Use.parks (w : Wakers) : Use → Option (Direction × Waker)
  | .takeReadableOrPark waker =>
    if (w.takeReadableOrPark waker).2 then none else some (.read, waker)
  | .pollReadable waker => if (w.pollReadable waker).2 then none else some (.read, waker)
  | .takeWritableOrPark waker =>
    if (w.takeWritableOrPark waker).2 then none else some (.write, waker)
  | .pollWritable waker => if (w.pollWritable waker).2 then none else some (.write, waker)
  | .markReadable | .markWritable | .cancelReadWait | .cancelWriteWait => none

/-- The reactor. `slots` maps an index to the call whose slot is there, and `pending` holds the
wakers that `dispatch` took and has not yet woken, with their indices. -/
structure State where
  nextIndex : Nat
  slots : Nat → Option Nat
  calls : List Call
  pending : List (Nat × Waker)
  parks : List Park
  takes : List Park

/-- One step. `r` is the number of a call of `register`. -/
inductive Action where
  | register
  | insert (r : Nat)
  | add (r : Nat) (accepted : Bool)
  | undo (r : Nat)
  | use (r : Nat) (method : Use)
  | deregister (r : Nat)
  | removeSlot (r : Nat)
  | dispatch (event : Event)
  | wake (i : Nat)
  deriving DecidableEq, Repr

/-- The call `r`, when it has come as far as `phase`. -/
def State.at (s : State) (r : Nat) (phase : Phase) : Option Call :=
  (s.calls[r]?).filter (·.phase = phase)

/-- The call `r` moves on. -/
def State.move (s : State) (r : Nat) (c : Call) (phase : Phase) : State :=
  { s with calls := s.calls.set r { c with phase } }

/-- `dispatch` of one event. -/
def dispatch (s : State) (event : Event) : State :=
  match s.slots (splitToken event.token).1 with
  | none => s
  | some r =>
    match s.calls[r]? with
    | none => s
    | some c =>
      -- A stale event: the slot was reused after the event was queued.
      if c.slot.generation ≠ (splitToken event.token).2 then s
      else
        let (w, readers) := c.slot.wakers.dispatchRead event.flags
        let (w, writers) := w.dispatchWrite event.flags
        { s with
          calls := s.calls.set r { c with slot.wakers := w }
          pending := s.pending ++ (readers ++ writers).map fun waker => (c.index, waker)
          takes := s.takes ++
            (readers.map (⟨r, .read, ·⟩) ++ writers.map (⟨r, .write, ·⟩)) }

/-- The step function. -/
def step (s : State) : Action → Option State
  | .register =>
    -- `fetch_add` takes the index. The slot starts with generation one.
    some { s with
      nextIndex := (s.nextIndex + 1) % 2 ^ 64
      calls := s.calls ++
        [{ index := s.nextIndex, phase := .claimed, slot := ⟨1, .registered⟩ }] }
  | .insert r =>
    (s.at r .claimed).map fun c =>
      { s with slots := Function.update s.slots c.index (some r) }.move r c .inserted
  | .add r accepted =>
    (s.at r .inserted).map fun c => s.move r c (if accepted then .live else .refused)
  | .undo r =>
    (s.at r .refused).map fun c =>
      { s with slots := Function.update s.slots c.index none }.move r c .failed
  | .use r method =>
    (s.at r .live).map fun c =>
      { s with
        calls := s.calls.set r { c with slot.wakers := method.apply c.slot.wakers }
        parks := s.parks ++
          ((method.parks c.slot.wakers).map fun p => (⟨r, p.1, p.2⟩ : Park)).toList }
  | .deregister r => (s.at r .live).map fun c => s.move r c .removing
  | .removeSlot r =>
    (s.at r .removing).map fun c =>
      { s with slots := Function.update s.slots c.index none }.move r c .dropped
  | .dispatch event => some (dispatch s event)
  | .wake i => (s.pending[i]?).map fun _ => { s with pending := s.pending.eraseIdx i }

/-- A reactor with nothing registered. -/
def new : State :=
  { nextIndex := 0, slots := fun _ => none, calls := [], pending := [], parks := [], takes := [] }

/-- The system of one reactor and the calls of `register` on it. -/
def system : Lts State Action where
  init s := s = new
  next := step

end Slots

end Nagoya.Reactor
