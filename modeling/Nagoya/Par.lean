import Nagoya.Lib.Lts
import Nagoya.Machine

/-!
# `Nagoya.Par`: a parallel loop

`par_for` runs a body for every index of a range. The first poll of its future hands the whole
range to the pool as one piece. A piece halves its range until it is small enough, gives each
right half to the pool as a piece of its own, and runs the body on what is left. `outstanding`
counts the pieces. The one that brings it to zero sets `finished` and wakes the future.

The system is one loop: its future, its pieces, and the switch that cancels it. Every operation on
shared memory is a step. A piece is there from its count to its end. What the pool does with a
closure is a choice of the environment: it runs the closure on some worker, at any time, or drops
it unrun. It may also panic in `submit_fn`.

The root is the first piece. It is counted from the start and waits for the first poll. When that
poll finds an empty range or a thrown switch it retires the root itself.

Some fields are records that no step reads: the indices the body was called with, the payloads of
the panics, the wakers that were woken, the number of the poll that parked a waker, and whether a
poll has seen the loop finished.
-/

set_option autoImplicit false

namespace Nagoya.Par

open Nagoya.Lib

section

variable [Target]

/-- The range of a loop and the size of its leaves. -/
structure Loop where
  start : Nat
  stop : Nat
  leaf : Nat
  start_le : start ≤ usizeMax
  stop_le : stop ≤ usizeMax
  leaf_pos : 1 ≤ leaf

/-- `PIECES_PER_WORKER` -/
def piecesPerWorker : Nat := 8

/-- `par_for`, on a pool of `workers`. A pool has a worker, and fewer than `usize::MAX / 8`. -/
def parFor (workers start stop : Nat) (hstart : start ≤ usizeMax) (hstop : stop ≤ usizeMax) :
    Loop where
  start := start
  stop := stop
  leaf := max ((stop - start) / (workers * piecesPerWorker)) 1
  start_le := hstart
  stop_le := hstop
  leaf_pos := Nat.le_max_right _ _

/-- `ParFor::leaf` -/
def Loop.withLeaf (l : Loop) (items : Nat) : Loop :=
  { l with leaf := max items 1, leaf_pos := Nat.le_max_right _ _ }

end

/-- A parked waker, with the number of the poll that parked it. -/
abbrev Waiter := Nat × Waker

/-- The next step of a piece. -/
inductive PiecePc where
  /-- The root, before the first poll. -/
  | root
  /-- The closure is with the pool. -/
  | queued
  /-- `Piece::run`: the pool is gone, and the switch is thrown. -/
  | poolGone
  -- `Shared::work`
  | checkCancel
  | split
  /-- The right half, up to `right`, is counted and not yet submitted. -/
  | submit (right : Nat)
  | loop (index : Nat)
  /-- Inside `body(index)`. -/
  | body (index : Nat)
  -- `Piece::run`, when the body panicked
  | caught (payload : Nat)
  | record (payload : Nat)
  -- `Shared::retire`
  | retire
  | storeFinished
  | takeWaiter
  | wake (waiter : Waiter)
  | gone
  deriving DecidableEq, Repr

/-- A piece and what is left of its range. -/
structure Piece where
  start : Nat
  stop : Nat
  pc : PiecePc
  deriving DecidableEq, Repr

/-- What the environment chooses in a step of a piece. -/
inductive Event where
  | advance
  /-- The pool runs the closure. `alive` says that the pool can still be upgraded. -/
  | run (alive : Bool)
  /-- The pool drops the closure unrun. -/
  | drop
  /-- The body returns, or it panics with a payload, or `submit_fn` panics. -/
  | returns (panic : Option Nat)
  deriving DecidableEq, Repr

/-- The next step of the future. -/
inductive FuturePc where
  | unpolled
  /-- The first poll, after it took the state. -/
  | start (waker : Waker)
  /-- `shared.retire()` by the first poll. -/
  | retireRoot
  | submit (waker : Waker)
  | load (waker : Waker)
  | park (waker : Waker)
  | reload (waker : Waker)
  /-- `resume_panic` -/
  | resume
  -- what the last poll did
  | pending (waker : Waker)
  | ready
  | panicked (payload : Nat)
  | dropped
  deriving DecidableEq, Repr

/-- `Shared`, the switch, the pieces and the future. `polls` counts the polls. -/
structure State where
  outstanding : Nat
  finished : Bool
  waiter : Option Waiter
  panic : Option Nat
  cancelled : Bool
  pieces : List Piece
  future : FuturePc
  polls : Nat
  seen : Bool
  ran : List Nat
  panics : List Nat
  woken : List Waiter
  deriving DecidableEq, Repr

/-- One step of one party. -/
inductive Action where
  | poll (waker : Waker)
  /-- The next step of the poll. -/
  | future
  | dropFuture
  /-- Someone throws the switch. -/
  | cancel
  /-- The next step of the piece `i`. -/
  | piece (i : Nat) (event : Event)
  deriving DecidableEq, Repr

/-- The piece at `i` is replaced. -/
def State.put (s : State) (i : Nat) (p : Piece) : State := { s with pieces := s.pieces.set i p }

section

variable [Target]

/-- `range.start + (range.end - range.start) / 2` -/
def middle (start stop : Nat) : Nat := usizeAdd start (usizeSub stop start / 2)

/-- One step of the piece `p`. -/
def pieceStep (l : Loop) (s : State) (i : Nat) (p : Piece) : Event → Option State
  | .run alive =>
    match p.pc with
    | .queued => some (s.put i { p with pc := if alive then .checkCancel else .poolGone })
    | _ => none
  | .drop =>
    match p.pc with
    | .queued => some (s.put i { p with pc := .retire })
    | _ => none
  | .returns panic =>
    match p.pc, panic with
    | .body index, none => some (s.put i { p with pc := .loop (index + 1) })
    | .body _, some payload =>
      some ({ s with panics := s.panics ++ [payload] }.put i { p with pc := .caught payload })
    | .submit right, some payload =>
      -- The closure is dropped on the way out, and the half in it retires.
      let s := { s with panics := s.panics ++ [payload] }.put i { p with pc := .caught payload }
      some { s with pieces := s.pieces ++ [{ start := p.stop, stop := right, pc := .retire }] }
    | _, _ => none
  | .advance =>
    match p.pc with
    | .root | .queued | .body _ | .gone => none
    | .poolGone => some ({ s with cancelled := true }.put i { p with pc := .retire })
    | .checkCancel => some (s.put i { p with pc := if s.cancelled then .retire else .split })
    | .split =>
      -- `range.end.saturating_sub(range.start) > leaf`
      if p.stop - p.start > l.leaf then
        some ({ s with outstanding := usizeAdd s.outstanding 1 }.put i
          { p with stop := middle p.start p.stop, pc := .submit p.stop })
      else some (s.put i { p with pc := .loop p.start })
    | .submit right =>
      let s := s.put i { p with pc := .split }
      some { s with pieces := s.pieces ++ [{ start := p.stop, stop := right, pc := .queued }] }
    | .loop index =>
      if index < p.stop then
        some ({ s with ran := s.ran ++ [index] }.put i { p with pc := .body index })
      else some (s.put i { p with pc := .retire })
    | .caught payload => some ({ s with cancelled := true }.put i { p with pc := .record payload })
    | .record payload =>
      some ({ s with panic := s.panic.or (some payload) }.put i { p with pc := .retire })
    | .retire =>
      some ({ s with outstanding := usizeSub s.outstanding 1 }.put i
        { p with pc := if s.outstanding ≠ 1 then .gone else .storeFinished })
    | .storeFinished => some ({ s with finished := true }.put i { p with pc := .takeWaiter })
    | .takeWaiter =>
      match s.waiter with
      | some waiter => some ({ s with waiter := none }.put i { p with pc := .wake waiter })
      | none => some (s.put i { p with pc := .gone })
    | .wake waiter => some ({ s with woken := s.woken ++ [waiter] }.put i { p with pc := .gone })

/-- The next step of a poll of the future. -/
def futureStep (l : Loop) (s : State) : Option State :=
  match s.future with
  | .unpolled | .pending _ | .ready | .panicked _ | .dropped => none
  | .start waker =>
    if l.stop ≤ l.start ∨ s.cancelled then
      match s.pieces[0]? with
      | some root => some ({ s with future := .retireRoot }.put 0 { root with pc := .retire })
      | none => none
    else some { s with future := .submit waker }
  | .retireRoot =>
    match s.pieces[0]? with
    | some root => if root.pc = .gone then some { s with future := .ready } else none
    | none => none
  | .submit waker =>
    match s.pieces[0]? with
    | some root => some ({ s with future := .load waker }.put 0 { root with pc := .queued })
    | none => none
  | .load waker => some { s with future := if s.finished then .resume else .park waker }
  | .park waker => some { s with waiter := some (s.polls, waker), future := .reload waker }
  | .reload waker => some { s with future := if s.finished then .resume else .pending waker }
  | .resume =>
    match s.panic with
    | some payload => some { s with panic := none, future := .panicked payload, seen := true }
    | none => some { s with future := .ready, seen := true }

/-- The step function. -/
def step (l : Loop) (s : State) : Action → Option State
  | .poll waker =>
    match s.future with
    | .unpolled => some { s with future := .start waker, polls := s.polls + 1 }
    | .pending _ | .ready | .panicked _ =>
      some { s with future := .load waker, polls := s.polls + 1 }
    | _ => none
  | .future => futureStep l s
  | .dropFuture =>
    match s.future with
    | .unpolled | .pending _ | .ready | .panicked _ =>
      some { s with cancelled := true, future := .dropped }
    | _ => none
  | .cancel => some { s with cancelled := true }
  | .piece i event =>
    match s.pieces[i]? with
    | some p => pieceStep l s i p event
    | none => none

/-- A loop that is not polled yet. -/
def new (l : Loop) : State :=
  { outstanding := 1
    finished := false
    waiter := none
    panic := none
    cancelled := false
    pieces := [{ start := l.start, stop := l.stop, pc := .root }]
    future := .unpolled
    polls := 0
    seen := false
    ran := []
    panics := []
    woken := [] }

/-- The system of one loop. -/
def system (l : Loop) : Lts State Action where
  init s := s = new l
  next := step l

/-! ### With an executor -/

/-- One step of a loop whose executor polls it when it has to. -/
inductive Turn where
  /-- The executor polls the future, because it is new or its waker was woken. -/
  | due (waker : Waker)
  | act (act : Action)
  deriving DecidableEq, Repr

/-- The executor has a reason to poll the future: it is new, or the waker that its last poll parked
was woken. -/
def State.isDue (s : State) : Bool :=
  match s.future with
  | .unpolled => true
  | .pending waker => decide ((s.polls, waker) ∈ s.woken)
  | _ => false

/-- The step function. -/
def turn (l : Loop) (s : State) : Turn → Option State
  | .due waker => if s.isDue then step l s (.poll waker) else none
  | .act act => step l s act

/-- The system of one loop and its executor. -/
def awaited (l : Loop) : Lts State Turn where
  init s := s = new l
  next := turn l

end

end Nagoya.Par
