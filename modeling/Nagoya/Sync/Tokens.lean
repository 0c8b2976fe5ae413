import Nagoya.Lib.Lts
import Nagoya.Sync.WaitQueue

/-!
# `Nagoya.Sync.Tokens`: futures that share one wait queue

Any number of futures use one `WaitQueue`. Each future has a token, which is `None` at first. It
passes its own token to `register` and `remove`, and nobody else does. `grant_one` and
`grant_all` belong to whoever holds the primitive. An operation is one section under the lock, so
a sequence of operations in any order is a run of this system.

An operation that panics has no next state. `trace` holds the operations and what they returned.
-/

set_option autoImplicit false

namespace Nagoya.Sync

open Nagoya.Lib

namespace Tokens

/-- An operation of the queue by the future `i`, or by the owner of the queue. `create` makes a
future. -/
inductive Action where
  | create
  | register (i : Nat) (waker : Option Waker)
  | remove (i : Nat)
  | grantOne
  | grantAll
  deriving DecidableEq, Repr

/-- What an operation returned. A registration leaves its id in the token. -/
inductive Answer where
  | registered (id : Nat)
  | removed (kind : Option WakeKind)
  | granted (waker : Option (Option Waker))
  | grantedAll (wakers : List Waker)
  deriving DecidableEq, Repr

/-- The queue, the token of each future, and the operations so far. -/
structure State where
  queue : WaitQueue
  tokens : List (Option Nat)
  trace : List (Action × Answer)
  deriving DecidableEq, Repr

/-- One operation. -/
def step (s : State) (act : Action) : Option State :=
  match act with
  | .create => some { s with tokens := s.tokens ++ [none] }
  | .register i waker =>
    match s.tokens[i]? with
    | none => none
    | some token =>
      (s.queue.register token waker).map fun (queue, id, _) =>
        { queue
          tokens := s.tokens.set i (some id)
          trace := s.trace ++ [(act, .registered id)] }
  | .remove i =>
    match s.tokens[i]? with
    | none => none
    | some token =>
      (s.queue.remove token).map fun (queue, removed) =>
        { queue
          tokens := s.tokens.set i none
          trace := s.trace ++ [(act, .removed (removed.map Waiter.kind))] }
  | .grantOne =>
    s.queue.grantOne.map fun (queue, waker) =>
      { s with queue, trace := s.trace ++ [(act, .granted waker)] }
  | .grantAll =>
    s.queue.grantAll.map fun (queue, wakers) =>
      { s with queue, trace := s.trace ++ [(act, .grantedAll wakers)] }

/-- A queue that nobody has used. -/
def new : State := { queue := .new, tokens := [], trace := [] }

/-- The system of one queue. -/
def system : Lts State Action where
  init s := s = new
  next := step

/-- The future of an operation exists. -/
def Action.isOwn (s : State) : Action → Bool
  | .register i _ | .remove i => decide (i < s.tokens.length)
  | _ => true

end Tokens

end Nagoya.Sync
