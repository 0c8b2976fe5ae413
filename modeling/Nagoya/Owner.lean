import Nagoya.Lib.Lts

/-!
# `Nagoya.Owner`: exclusive turns on an owned value

`src/owner.rs` keeps one value in a slot behind an admission gate. `dispatch_to` opens the gate
with a compare-exchange, moves the value out of the slot into a `Lease`, asks the budget for a
permit, and submits a future that runs one turn with `&mut T`. `Lease::drop` writes the value
back and then clears the gate.

The system is one owner and the calls of `dispatch_to` made through any of its clones. A call
and the turn it submits are one `Call`, which says what runs next. The environment chooses what
the budget, the permit and the turn do, and when a queued turn is dropped.

The two `expect`s of the source are branches here: a call that fails one ends with
`Exit.duplicateAdmission` or `Exit.noTurnValue`. `Proofs/Owner.lean` shows that none does.
-/

set_option autoImplicit false

namespace Nagoya.Owner

open Nagoya.Lib

variable {T : Type}

/-- `State`: the gate and the slot. -/
structure State (T : Type) where
  admitted : Bool
  value : Option T
  deriving DecidableEq, Repr

/-- `Lease`. The reference to the state is left out: the system has one. -/
structure Lease (T : Type) where
  value : Option T
  deriving DecidableEq, Repr

/-- `DispatchDenied`. -/
inductive DispatchDenied where
  | busy
  | budget
  | worker
  deriving DecidableEq, Repr

/-- How a call or its turn ends. -/
inductive Exit where
  /-- `Err(Rejected { reason, .. })`. -/
  | denied (reason : DispatchDenied)
  /-- `budget.reserve` panicked, and the lease is dropped by unwinding. -/
  | reservePanicked
  /-- The turn returned and its permit was reconciled. -/
  | returned
  /-- The turn or its permit panicked, and the lease is dropped by unwinding. -/
  | panicked
  /-- The queued future was dropped before its first poll. -/
  | cancelled
  /-- `expect("ExclusiveOwnerDuplicateAdmission")` failed. -/
  | duplicateAdmission
  /-- `expect("exclusive turn value")` failed. -/
  | noTurnValue
  deriving DecidableEq, Repr

/-- What a call of `dispatch_to`, or the turn it submitted, runs next. -/
inductive Call (T : Type) where
  /-- The check of the preferred worker. -/
  | checkWorker (worker : Option Nat) (workers : Nat)
  /-- The compare-exchange of the gate. -/
  | exchangeAdmitted
  /-- The move out of the slot. -/
  | take
  /-- The construction of the lease. -/
  | taken (value : T)
  /-- `budget.reserve`. -/
  | reserve (lease : Lease T)
  /-- The first poll of the queued future, which calls `permit.enter`. -/
  | queued (lease : Lease T)
  /-- The `expect` on the lease's value. -/
  | entered (lease : Lease T)
  /-- The turn itself, which has `&mut T`. -/
  | turn (lease : Lease T)
  /-- `permit.finish` and the drop of the permit. -/
  | finish (lease : Lease T)
  /-- The slot write of `Lease::drop`. -/
  | dropWrite (lease : Lease T) (exit : Exit)
  /-- The gate store of `Lease::drop`. -/
  | dropStore (exit : Exit)
  | ended (exit : Exit)
  deriving DecidableEq, Repr

/-- What `budget.reserve` does. -/
inductive Reserve where
  | granted
  | refused
  | panics
  deriving DecidableEq, Repr

/-- One step of a call, with the choice the environment makes in it. -/
inductive Event (T : Type) where
  /-- A step without a choice. -/
  | advance
  | reserve (result : Reserve)
  /-- The queued future is dropped by its handle or by the pool. -/
  | cancel
  | enter (panics : Bool)
  /-- The turn writes through its `&mut T`. -/
  | write (value : T)
  | leave (panics : Bool)
  | finish (panics : Bool)
  deriving DecidableEq, Repr

/-- One step of a call. -/
def stepCall (s : State T) : Call T → Event T → Option (State T × Call T)
  | .checkWorker worker workers, .advance =>
    if worker.any fun id => id ≥ workers then some (s, .ended (.denied .worker))
    else some (s, .exchangeAdmitted)
  | .exchangeAdmitted, .advance =>
    if s.admitted then some (s, .ended (.denied .busy))
    else some ({ s with admitted := true }, .take)
  | .take, .advance =>
    match s.value with
    | some value => some ({ s with value := none }, .taken value)
    | none => some (s, .ended .duplicateAdmission)
  | .taken value, .advance => some (s, .reserve { value := some value })
  -- The lease is dropped when no permit is given, by the return or by unwinding.
  | .reserve lease, .reserve .granted => some (s, .queued lease)
  | .reserve lease, .reserve .refused => some (s, .dropWrite lease (.denied .budget))
  | .reserve lease, .reserve .panics => some (s, .dropWrite lease .reservePanicked)
  -- The queued future may be dropped before it runs. Its lease goes with it.
  | .queued lease, .cancel => some (s, .dropWrite lease .cancelled)
  | .queued lease, .enter false => some (s, .entered lease)
  | .queued lease, .enter true => some (s, .dropWrite lease .panicked)
  | .entered lease, .advance =>
    if lease.value.isSome then some (s, .turn lease)
    else some (s, .dropWrite lease .noTurnValue)
  | .turn _, .write value => some (s, .turn { value := some value })
  | .turn lease, .leave false => some (s, .finish lease)
  | .turn lease, .leave true => some (s, .dropWrite lease .panicked)
  | .finish lease, .finish false => some (s, .dropWrite lease .returned)
  | .finish lease, .finish true => some (s, .dropWrite lease .panicked)
  -- `Lease::drop` writes the value back before it opens the gate.
  | .dropWrite lease exit, .advance => some ({ s with value := lease.value }, .dropStore exit)
  | .dropStore exit, .advance => some ({ s with admitted := false }, .ended exit)
  | _, _ => none

/-- One owner and the calls made through its clones. -/
structure Config (T : Type) where
  state : State T
  calls : List (Call T)
  deriving DecidableEq, Repr

/-- One step of the system. -/
inductive Action (T : Type) where
  | dispatchTo (worker : Option Nat) (workers : Nat)
  | call (i : Nat) (event : Event T)
  deriving DecidableEq, Repr

/-- The step function. -/
def step (s : Config T) : Action T → Option (Config T)
  | .dispatchTo worker workers => some { s with calls := s.calls ++ [.checkWorker worker workers] }
  | .call i event =>
    match s.calls[i]? with
    | some call =>
      (stepCall s.state call event).map fun (state, call) =>
        { state := state, calls := s.calls.set i call }
    | none => none

/-- `Owner::new`. -/
def new (value : T) : Config T :=
  { state := { admitted := false, value := some value }, calls := [] }

/-- The owner of any value, and every interleaving of the calls on it. -/
def system (T : Type) : Lts (Config T) (Action T) where
  init s := ∃ value, s = new value
  next := step

end Nagoya.Owner
