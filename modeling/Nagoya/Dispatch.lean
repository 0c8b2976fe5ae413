import Nagoya.Credits
import Nagoya.Owner

/-!
# `Nagoya.Dispatch`: owners over one account of CPU credit

`Owner::dispatch_to` takes two things before it submits a turn: the value of the owner, by
`Nagoya.Owner`, and a reservation of the account, by `Nagoya.Credits`. `CpuCredits::dispatch`
takes the reservation only. The task that is submitted gives both back, when its turn returns, when
the turn panics, and when it is dropped before it runs.

The system is one account, any number of owners over it, the calls of the two methods, and other
reservations and replenishments of the account. A call and the task it submits are one `Job`. Its
steps on the owner are those of `Owner.stepCall`, and its steps on the account are those of
`Credits.stepWork`, so the calls, the turns and everything else interleave at the loads, the
compare-exchanges and the two stores of `Lease::drop`. The environment chooses what a turn does
and when a queued task is dropped. The broadcasts on `changed` are steps that change nothing here,
and `wait_for` does not change the account.

A task that ends by unwinding or by cancellation drops its permit and its lease in an order that
the source does not fix, and here the steps of the two drops come in any order. The clock of
`CpuCredits` must not panic, so `enter` and `finish` do not.

A callback is a number. `slotLog` and `accountLog` record what the steps of a job did to what it
shares, and `clock` the times that it read. Nothing reads them. What an effect does to the account
is said in the integers, and not through the arithmetic of `Nagoya.Credits`.
-/

set_option autoImplicit false

namespace Nagoya.Dispatch

open Nagoya.Lib
open Nagoya.Owner (DispatchDenied Exit)
open Nagoya.Credits (CreditAccount Work)

variable [Target] {T : Type}

/-! ### Effects on what is shared -/

/-- What a step does to the gate and the slot of an owner. -/
inductive SlotEffect (T : Type) where
  | exchange (owner : Nat)
  | take (owner : Nat) (value : T)
  | put (owner : Nat) (value : Option T)
  | release (owner : Nat)
  deriving DecidableEq, Repr

/-- What a step does to the account. -/
inductive AccountEffect where
  | place
  | unplace
  | debit (reserved : Int)
  | credit (credits : Int)
  deriving DecidableEq, Repr

/-- The owners after an effect. -/
def SlotEffect.apply (owners : List (Owner.State T)) : SlotEffect T → List (Owner.State T)
  | .exchange o => owners.modify o fun s => { s with admitted := true }
  | .take o _ => owners.modify o fun s => { s with value := none }
  | .put o value => owners.modify o fun s => { s with value }
  | .release o => owners.modify o fun s => { s with admitted := false }

/-- The account after an effect. -/
def AccountEffect.apply (a : CreditAccount) : AccountEffect → CreditAccount
  | .place => { a with inFlight := a.inFlight + 1 }
  | .unplace => { a with inFlight := a.inFlight - 1 }
  | .debit reserved => { a with balance := a.balance - reserved }
  -- The capacity is the most, and `i64::MIN` the least that a balance can be.
  | .credit credits => { a with balance := max i64Min (min (a.balance + credits) a.capacity) }

/-- The effect of a step of `dispatch_to` or its turn. -/
def slotEffects (o : Nat) (s : Owner.State T) :
    Owner.Call T → Owner.Event T → List (SlotEffect T)
  | .exchangeAdmitted, .advance => if s.admitted then [] else [.exchange o]
  | .take, .advance =>
    match s.value with
    | some value => [.take o value]
    | none => []
  | .dropWrite lease _, .advance => [.put o lease.value]
  | .dropStore _, .advance => [.release o]
  | _, _ => []

/-- The effect of a step of a reservation. -/
def accountEffects (a : CreditAccount) : Work → Credits.Event → List AccountEffect
  | .countCas _ current, .cas spurious =>
    if a.inFlight = current ∧ spurious = false then [.place] else []
  | .balanceCas reserved current, .cas spurious =>
    if a.balance = current ∧ spurious = false then [.debit reserved] else []
  | .rollback, .advance => [.unplace]
  | .adjustCas credits current _, .cas spurious =>
    if a.balance = current ∧ spurious = false then [.credit credits] else []
  | .release _ _ _, .advance => [.unplace]
  | _, _ => []

/-- The times that a step of a reservation reads off the clock. -/
def readings : Credits.Event → List UInt64
  | .enter now => [now]
  | .clock now => [now]
  | _ => []

/-! ### Jobs -/

/-- What a call of `CpuCredits::dispatch`, or the task it submitted, runs next. -/
inductive Helper where
  | reserve
  /-- The first poll of the queued future. -/
  | queued
  /-- The closure. -/
  | work
  /-- `permit.finish`, and the drop of the permit at the end of the future. -/
  | finish
  | ended (exit : Exit)
  deriving DecidableEq, Repr

/-- One step of a helper. -/
def stepHelper : Helper → Owner.Event T → Option Helper
  | .reserve, .reserve .granted => some .queued
  | .reserve, .reserve .refused => some (.ended (.denied .budget))
  | .queued, .cancel => some (.ended .cancelled)
  -- The clock does not panic, so neither `enter` nor `finish` does.
  | .queued, .enter false => some .work
  | .work, .leave false => some .finish
  | .work, .leave true => some (.ended .panicked)
  | .finish, .finish false => some (.ended .returned)
  | _, _ => none

/-- Which method was called, on which owner. -/
inductive Kind (T : Type) where
  | turn (owner : Nat) (call : Owner.Call T)
  | helper (call : Helper)
  deriving DecidableEq, Repr

/-- Where a job is with its permit. -/
inductive Phase where
  /-- Before `reserve`. -/
  | admission
  | reserve
  /-- `drop(lease)` of a call that got no permit. -/
  | refusing
  | refused (reason : DispatchDenied)
  | queued
  | running
  /-- `permit.finish` and `drop(permit)`. -/
  | finish
  /-- The end of a task after its permit is dropped. -/
  | closing
  /-- Unwinding, or the drop of a future that was not polled. -/
  | unwind (exit : Exit)
  /-- An `expect` failed, or `reserve` panicked. -/
  | broken
  deriving DecidableEq, Repr

/-- The phase of a call whose end is decided. `released` says that its lease is dropped. -/
def exitPhase (released : Bool) : Exit → Phase
  | .denied reason => if released then .refused reason else .refusing
  | .returned => .closing
  | .panicked => .unwind .panicked
  | .cancelled => .unwind .cancelled
  | .reservePanicked | .duplicateAdmission | .noTurnValue => .broken

/-- The phase of a job. -/
def Kind.phase : Kind T → Phase
  | .turn _ call =>
    match call with
    | .checkWorker _ _ | .exchangeAdmitted | .take | .taken _ => .admission
    | .reserve _ => .reserve
    | .queued _ => .queued
    | .entered _ | .turn _ => .running
    | .finish _ => .finish
    | .dropWrite _ exit | .dropStore exit => exitPhase false exit
    | .ended exit => exitPhase true exit
  | .helper call =>
    match call with
    | .reserve => .reserve
    | .queued => .queued
    | .work => .running
    | .finish => .finish
    | .ended exit => exitPhase true exit

/-- What a dispatch returned. A rejection carries the callback. -/
inductive Returned where
  | ok
  | rejected (reason : DispatchDenied) (callback : Nat)
  deriving DecidableEq, Repr

/-- A call and the task it submits. `permit` is its reservation, from the call of `reserve` to the
drop, and `scheduled` the callbacks that were submitted. -/
structure Job (T : Type) where
  kind : Kind T
  credits : UInt64
  callback : Nat
  permit : Option Work
  returned : Option Returned
  scheduled : List Nat
  slotLog : List (SlotEffect T)
  accountLog : List AccountEffect
  clock : List UInt64
  deriving DecidableEq, Repr

/-- A new call. -/
def Job.new (kind : Kind T) (credits : UInt64) (callback : Nat) : Job T :=
  { kind, credits, callback
    permit := none
    returned := none
    scheduled := []
    slotLog := []
    accountLog := []
    clock := [] }

/-- One step of a job, with the choice the environment makes in it. -/
inductive JobEvent (T : Type) where
  /-- A step of the call or its turn that does not touch the permit. -/
  | call (event : Owner.Event T)
  /-- The call of `reserve`. -/
  | ask
  /-- A step of `reserve`, of `settle`, or the call of `finish` or the drop. -/
  | permit (event : Credits.Event)
  /-- A broadcast on `changed`. -/
  | notify
  /-- `reserve` returns. -/
  | answer
  /-- `permit.enter`, at the clock's time. -/
  | enter (now : UInt64)
  deriving DecidableEq, Repr

/-- The steps that a call makes without its permit. `permit.finish` and `drop(permit)` come before
the step that ends a turn. -/
def ownEvent (job : Job T) : Owner.Event T → Bool
  | .reserve _ | .enter _ => false
  | .finish panics =>
    match job.permit with
    | some (.dropped _ _) => !panics
    | _ => false
  -- The drops of an unwinding task and of a future that was not polled wait for nothing.
  | _ => true

/-- The steps of a permit that the phase of its job allows. -/
def permitEvent (phase : Phase) (w : Work) : Credits.Event → Bool
  | .enter _ => false
  | .finish =>
    match phase, w with
    | .finish, .held r _ => !r.done
    | _, _ => false
  | .drop =>
    match phase, w with
    -- The drop after a `finish` finds the reservation settled.
    | .finish, .held r _ => r.done
    | .unwind _, _ => true
    | _, _ => false
  | _ => true

/-- A step of the call of a job. A call that is refused returns the callback. -/
def stepKind (owners : List (Owner.State T)) (job : Job T) (event : Owner.Event T) :
    Option (List (Owner.State T) × Job T) :=
  match job.kind with
  | .turn o call =>
    match owners[o]? with
    | none => none
    | some s =>
      (Owner.stepCall s call event).map fun (s', call') =>
        (owners.set o s',
          { job with
            kind := .turn o call'
            slotLog := job.slotLog ++ slotEffects o s call event })
  | .helper call =>
    (stepHelper call event).map fun call' => (owners, { job with kind := .helper call' })

/-- `return Err(Rejected { .. })`, for a call that has come to it. -/
def Job.reject (job : Job T) : Job T :=
  match job.kind.phase with
  | .refused reason => { job with returned := some (.rejected reason job.callback) }
  | _ => job

/-- One step of a job on the account and the owners. -/
def stepJob (a : CreditAccount) (owners : List (Owner.State T)) (job : Job T) :
    JobEvent T → Option (CreditAccount × List (Owner.State T) × Job T)
  | .call event =>
    if ownEvent job event then
      (stepKind owners job event).map fun (owners, job) => (a, owners, job.reject)
    else none
  | .ask =>
    match job.kind.phase, job.permit with
    | .reserve, none => some (a, owners, { job with permit := some (.reserve job.credits) })
    | _, _ => none
  | .permit event =>
    match job.permit with
    | none => none
    | some w =>
      if permitEvent job.kind.phase w event then
        (Credits.stepWork a w event).map fun (a', w') =>
          (a', owners,
            { job with
              permit := some w'
              accountLog := job.accountLog ++ accountEffects a w event
              clock := job.clock ++ readings event })
      else none
  | .notify =>
    (job.permit.bind Credits.afterNotify).map fun w => (a, owners, { job with permit := some w })
  | .answer =>
    match job.kind.phase, job.permit with
    | .reserve, some .denied =>
      -- `drop(lease)` comes first in `dispatch_to`.
      (stepKind owners job (.reserve .refused)).map fun (owners, job) => (a, owners, job.reject)
    | .reserve, some (.held _ _) =>
      -- `spawn`, and `Ok` of its handle.
      (stepKind owners job (.reserve .granted)).map fun (owners, job) =>
        (a, owners,
          { job with returned := some .ok, scheduled := job.scheduled ++ [job.callback] })
    | _, _ => none
  | .enter now =>
    match job.permit with
    | none => none
    | some w =>
      -- The first poll enters the permit before it calls the turn.
      (Credits.stepWork a w (.enter now)).bind fun (a', w') =>
        (stepKind owners job (.enter false)).map fun (owners, job) =>
          (a', owners,
            { job with permit := some w', clock := job.clock ++ readings (.enter now) })

/-! ### The system -/

/-- The account, the owners over it, the other reservations and replenishments of the account, and
the jobs. -/
structure State (T : Type) where
  account : CreditAccount
  owners : List (Owner.State T)
  others : List Work
  jobs : List (Job T)
  deriving DecidableEq, Repr

/-- One step of one party. -/
inductive Action (T : Type) where
  /-- `Owner::new`. -/
  | newOwner (value : T)
  /-- Another use of the account begins. -/
  | reserve (credits : UInt64)
  | replenish (credits : UInt64)
  /-- Another use of the account goes on. -/
  | other (i : Nat) (event : Credits.Event)
  | otherNotify (i : Nat)
  /-- `Owner::dispatch_to`, on a pool of `workers`. -/
  | dispatchTo (owner : Nat) (worker : Option Nat) (workers : Nat) (credits : UInt64)
      (callback : Nat)
  /-- `CpuCredits::dispatch`. -/
  | dispatch (credits : UInt64) (callback : Nat)
  | job (j : Nat) (event : JobEvent T)
  deriving DecidableEq, Repr

/-- The step function. -/
def step (s : State T) : Action T → Option (State T)
  | .newOwner value =>
    some { s with owners := s.owners ++ [{ admitted := false, value := some value }] }
  | .reserve credits => some { s with others := s.others ++ [.reserve credits] }
  | .replenish credits => some { s with others := s.others ++ [.replenish credits] }
  | .other i event =>
    match s.others[i]? with
    | none => none
    | some w =>
      (Credits.stepWork s.account w event).map fun (account, w) =>
        { s with account, others := s.others.set i w }
  | .otherNotify i =>
    match s.others[i]? with
    | none => none
    | some w => (Credits.afterNotify w).map fun w => { s with others := s.others.set i w }
  | .dispatchTo owner worker workers credits callback =>
    if owner < s.owners.length then
      let job := .new (.turn owner (.checkWorker worker workers)) credits callback
      some { s with jobs := s.jobs ++ [job] }
    else none
  | .dispatch credits callback =>
    some { s with jobs := s.jobs ++ [.new (.helper .reserve) credits callback] }
  | .job j event =>
    match s.jobs[j]? with
    | none => none
    | some job =>
      (stepJob s.account s.owners job event).map fun (account, owners, job) =>
        { s with account, owners, jobs := s.jobs.set j job }

/-- `CreditAccount::new`, with no owner over it yet. -/
def new (capacity : Int) (parallelism : Nat) : State T :=
  { account := { capacity, balance := capacity, inFlight := 0, parallelism }
    owners := []
    others := []
    jobs := [] }

/-- The system of one account. `capacity` is a `NonZeroU64` that is an `i64`, and `parallelism`
a `NonZeroUsize`. -/
def system (T : Type) : Lts (State T) (Action T) where
  init s := ∃ capacity parallelism, 0 < capacity ∧ capacity ≤ i64Max ∧ 0 < parallelism ∧
    parallelism ≤ usizeMax ∧ s = new capacity parallelism
  next := step

end Nagoya.Dispatch
