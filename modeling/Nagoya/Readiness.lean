import Nagoya.Lib.Lts
import Nagoya.Sync.Notify

/-!
# `Nagoya.Readiness`: retained wake reasons for one consumer

`ReadyHandle::wake` adds its reasons to a word, and calls `notify_one` when the word was zero. The
one `ReadySource` runs `wait`: it creates a `Notified`, enables it, swaps the word for zero, and
returns what it took, or awaits the `Notified` and goes round. The system has any number of
producers and one consumer, whose `wait` future may be dropped at any suspension. Each atomic
operation and each section under the queue lock is one step.

`signalled` has all the masks that were added. `since` has those that were added after the last swap
that took something, `batches` has the masks between one such swap and the next, and `returned` has
what `wait` returned. They are a record, and no operation depends on them. A producer that is about
to call `notify_one` is known by the batch that its reasons began.
-/

set_option autoImplicit false

namespace Nagoya

open Nagoya.Lib Nagoya.Sync NotifySystem

namespace Readiness

/-- A set of reasons. -/
abbrev Mask := BitVec 64

/-- The union of masks. -/
def union (masks : List Mask) : Mask := masks.foldl (· ||| ·) 0#64

/-- Where the `wait` future is. `looping` is at the top of the loop, `enabling` inside `enable`,
`polling` inside the poll of the `Notified`, and `repeating` and `returning` drop it. -/
inductive Wait where
  | none
  | fresh
  | looping
  | enabling (future : Notified) (pc : Pc)
  | swapping (future : Notified)
  | polling (future : Notified) (pc : Pc)
  | suspended (future : Notified)
  | repeating (future : Notified)
  | returning (future : Notified) (reasons : Mask)
  deriving DecidableEq, Repr

/-- The system. `waker` is the one of the last poll, and `woken` says that it was woken since. -/
structure State where
  reasons : Mask
  notify : Notify
  notifying : List Nat
  wakes : List Waker
  wait : Wait
  waker : Waker
  woken : Bool
  signalled : List Mask
  since : List Mask
  batches : List (List Mask)
  returned : List Mask
  deriving DecidableEq, Repr

/-- One step of one party. -/
inductive Action where
  | fetchOr (reasons : Mask)
  | notifyOne (i : Nat)
  | wake (i : Nat)
  | start
  | poll (waker : Waker)
  | advance
  | drop
  deriving DecidableEq, Repr

/-- `ReadyHandle::wake`, up to the call of `notify_one`. -/
def fetchOr (s : State) (reasons : Mask) : State :=
  if reasons = 0#64 then s
  else
    { s with
      reasons := s.reasons ||| reasons
      notifying := if s.reasons = 0#64 then s.notifying ++ [s.batches.length] else s.notifying
      signalled := s.signalled ++ [reasons]
      since := s.since ++ [reasons] }

/-- The drop of the `Notified`, after which `wait` goes on at `wait`. -/
def dropNotified (s : State) (future : Notified) (wait : Wait) : Option State :=
  match future.drop s.notify with
  | none => none
  | some (notify, waker) => some { s with notify, wait, wakes := s.wakes ++ waker.toList }

/-- The next step of a poll of `wait`. -/
def advance (s : State) : Option State :=
  match s.wait with
  | .none | .fresh | .suspended _ => none
  | .looping =>
    let f := s.notify.notified
    some { s with wait := .enabling f (NotifySystem.start f .enable) }
  | .enabling f pc =>
    match NotifySystem.advance s.notify f pc with
    | none => none
    | some (notify, f, .idle) => some { s with notify, wait := .swapping f }
    | some (notify, f, pc) => some { s with notify, wait := .enabling f pc }
  | .swapping f =>
    if s.reasons = 0#64 then
      some { s with wait := .polling f (NotifySystem.start f (.poll s.waker)) }
    else
      some { s with
        reasons := 0#64
        wait := .returning f s.reasons
        since := []
        batches := s.batches ++ [s.since] }
  | .polling f pc =>
    match pc, NotifySystem.advance s.notify f pc with
    | _, none => none
    -- The call of `poll` returns `Ready`.
    | .ready _, some (notify, f, _) => some { s with notify, wait := .repeating f }
    | _, some (notify, f, .idle) => some { s with notify, wait := .suspended f }
    | _, some (notify, f, pc) => some { s with notify, wait := .polling f pc }
  | .repeating f => dropNotified s f .looping
  | .returning f reasons =>
    dropNotified { s with returned := s.returned ++ [reasons] } f .none

/-- The step function. -/
def step (s : State) : Action → Option State
  | .fetchOr reasons => some (fetchOr s reasons)
  | .notifyOne i =>
    match s.notifying[i]?, s.notify.grantOne with
    | some _, some (notify, waker) =>
      some { s with
        notify
        notifying := s.notifying.eraseIdx i
        wakes := s.wakes ++ waker.toList }
    | _, _ => none
  | .wake i =>
    match s.wakes[i]? with
    | none => none
    | some waker =>
      some { s with
        wakes := s.wakes.eraseIdx i
        woken := s.woken || waker == s.waker }
  | .start => if s.wait = .none then some { s with wait := .fresh } else none
  | .poll waker =>
    match s.wait with
    | .fresh => some { s with wait := .looping, waker, woken := false }
    | .suspended f =>
      some { s with
        wait := .polling f (NotifySystem.start f (.poll waker))
        waker
        woken := false }
    | _ => none
  | .advance => advance s
  | .drop =>
    match s.wait with
    | .fresh => some { s with wait := .none }
    | .suspended f => dropNotified s f .none
    | _ => none

/-- `ReadySource::new`. -/
def new : State :=
  { reasons := 0#64
    notify := .new
    notifying := []
    wakes := []
    wait := .none
    waker := 0
    woken := false
    signalled := []
    since := []
    batches := []
    returned := [] }

/-- The system of one source. -/
def system : Lts State Action where
  init s := s = new
  next := step

/-- A poll of `wait` is under way. -/
def Wait.isBusy : Wait → Bool
  | .none | .fresh | .suspended _ => false
  | _ => true

/-- The reasons that a `wait` has taken and is about to return. -/
def Wait.inHand : Wait → List Mask
  | .returning _ reasons => [reasons]
  | _ => []

end Readiness

end Nagoya
