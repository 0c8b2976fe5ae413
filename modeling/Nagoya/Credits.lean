import Nagoya.Lib.Lts
import Nagoya.Machine
import Nagoya.Sync.Listener

/-!
# `Nagoya.Credits`: CPU credit and its reservations

`src/credits.rs` keeps a balance of CPU nanoseconds and a count of admitted jobs. `reserve` takes
a place in the count, then takes credit from the balance, and gives the place back when there is
not enough. `settle` puts back what was reserved less what was measured, and gives the place
back. `replenish` adds credit. Each of these broadcasts on `changed` after it raised the balance
or lowered the count, and `wait_for` listens there.

The system is one account and any number of calls. `update_i64` and `update_usize` load, compute,
and compare-exchange in a loop; each load and each compare-exchange is a step, and
`compare_exchange_weak` may fail for no reason. A reservation, from the call of `reserve` to its
drop, is one task.

A settled reservation keeps its measured CPU, and a finished `replenish` keeps its credits, so
that the books of the account can be read off the tasks. No step reads them.
-/

set_option autoImplicit false

namespace Nagoya.Credits

open Nagoya.Lib
open Nagoya.Sync (Listen)

variable [Target]

/-- `CreditAccount`. The key and `changed` are left out: the system has one of each. -/
structure CreditAccount where
  capacity : Int
  balance : Int
  inFlight : Nat
  parallelism : Nat
  deriving DecidableEq, Repr

/-- `CpuReservation`. The account and the clock are left out. -/
structure CpuReservation where
  reserved : Int
  started : Option UInt64
  done : Bool
  deriving DecidableEq, Repr

/-- What follows an `adjust`. -/
inductive After where
  /-- The rest of `settle`. `cpu` is the measured CPU, and `drop` says who called. -/
  | settle (r : CpuReservation) (cpu : Nat) (drop : Bool)
  | replenish (credits : UInt64)
  deriving DecidableEq, Repr

/-- What a task runs next. -/
inductive Work where
  /-- `reserve`: the conversion of the request. -/
  | reserve (credits : UInt64)
  /-- `update_usize`: the load of `in_flight`. -/
  | countLoad (reserved : Int)
  /-- `update_usize`: the compare-exchange of `in_flight`. -/
  | countCas (reserved : Int) (current : Nat)
  /-- `update_i64`: the load of `balance`. -/
  | balanceLoad (reserved : Int)
  /-- `update_i64`: the compare-exchange of `balance`. -/
  | balanceCas (reserved current : Int)
  /-- The `fetch_sub` of a reservation that is rolled back. -/
  | rollback
  /-- The broadcast of a reservation that is rolled back. -/
  | rollbackNotify
  /-- `reserve` returned `None`. -/
  | denied
  /-- The reservation is with its owner. `cpu` is what its settling measured. -/
  | held (r : CpuReservation) (cpu : Nat)
  /-- `settle`: the check of `done`. -/
  | settle (r : CpuReservation) (cpu : Nat) (drop : Bool)
  /-- `settle`: the read of the clock. -/
  | measure (r : CpuReservation) (start : UInt64) (drop : Bool)
  /-- `adjust`: the load of `balance`. -/
  | adjustLoad (credits : Int) (after : After)
  /-- `adjust`: the compare-exchange of `balance`. -/
  | adjustCas (credits current : Int) (after : After)
  /-- `settle`: the `fetch_sub` of `in_flight`. -/
  | release (r : CpuReservation) (cpu : Nat) (drop : Bool)
  /-- `settle`: the broadcast. -/
  | settleNotify (r : CpuReservation) (cpu : Nat) (drop : Bool)
  /-- The reservation is gone. -/
  | dropped (r : CpuReservation) (cpu : Nat)
  /-- `replenish`: the conversion of the credits. -/
  | replenish (credits : UInt64)
  /-- `replenish`: the broadcast. -/
  | replenishNotify (credits : UInt64)
  | replenished (credits : UInt64)
  /-- `wait_for`: the check of the request. -/
  | waitFor (credits : UInt64)
  /-- `wait_for`: its loop. The load of `balance` is the first half of the loop's check. -/
  | listening (credits : Int)
  /-- `wait_for`: the load of `in_flight`, after a balance that is enough. -/
  | loadInFlight (credits : Int)
  | tooLarge
  deriving DecidableEq, Repr

/-- One step of a task, with the choice the environment makes in it. -/
inductive Event where
  | advance
  /-- A compare-exchange. `spurious` makes it fail. -/
  | cas (spurious : Bool)
  | enter (now : UInt64)
  | finish
  | drop
  /-- The clock is read. -/
  | clock (now : UInt64)
  deriving DecidableEq, Repr

/-- The closure of the first `update_usize`, at a loaded value. -/
def countNext (a : CreditAccount) (reserved : Int) (current : Nat) : Work :=
  if current < a.parallelism then .countCas reserved current else .denied

/-- The closure of the `update_i64` in `reserve`, at a loaded value. -/
def balanceNext (reserved current : Int) : Work :=
  if current ≥ reserved then .balanceCas reserved current else .rollback

/-- The closure of `adjust`. -/
def adjusted (a : CreditAccount) (balance credits : Int) : Int :=
  min (i64SaturatingAdd balance credits) a.capacity

/-- What follows the compare-exchange of an `adjust`. -/
def After.next : After → Work
  | .settle r cpu drop => .release r cpu drop
  | .replenish credits => .replenishNotify credits

/-- The measured CPU, as `settle` converts it. -/
def actual (cpu : Nat) : Int := if (cpu : Int) ≤ i64Max then cpu else i64Max

/-- The `adjust` of a `settle` that measured `cpu`. -/
def settleAdjust (r : CpuReservation) (cpu : Nat) (drop : Bool) : Work :=
  .adjustLoad (i64SaturatingSub r.reserved (actual cpu)) (.settle r cpu drop)

/-- The end of `settle`. -/
def settled (r : CpuReservation) (cpu : Nat) (drop : Bool) : Work :=
  if drop then .dropped r cpu else .held r cpu

/-- One step of a task on the account. The broadcasts and the loop of `wait_for` are not here. -/
def stepWork (a : CreditAccount) : Work → Event → Option (CreditAccount × Work)
  | .reserve credits, .advance =>
    -- A request of zero, or of more than an `i64` holds, is denied before anything is taken.
    match (i64TryFrom credits).filter (fun value => 0 < value) with
    | some reserved => some (a, .countLoad reserved)
    | none => some (a, .denied)
  | .countLoad reserved, .advance => some (a, countNext a reserved a.inFlight)
  | .countCas reserved current, .cas spurious =>
    if a.inFlight = current ∧ spurious = false then
      some ({ a with inFlight := current + 1 }, .balanceLoad reserved)
    -- A failed exchange goes round with the value that it saw.
    else some (a, countNext a reserved a.inFlight)
  | .balanceLoad reserved, .advance => some (a, balanceNext reserved a.balance)
  | .balanceCas reserved current, .cas spurious =>
    if a.balance = current ∧ spurious = false then
      some ({ a with balance := current - reserved },
        .held { reserved := reserved, started := none, done := false } 0)
    else some (a, balanceNext reserved a.balance)
  | .rollback, .advance => some ({ a with inFlight := usizeSub a.inFlight 1 }, .rollbackNotify)
  | .held r cpu, .enter now =>
    -- The assertion fails on a reservation that was entered or settled, and changes nothing.
    if r.done = false ∧ r.started = none then some (a, .held { r with started := some now } cpu)
    else some (a, .held r cpu)
  | .held r cpu, .finish => some (a, .settle r cpu false)
  | .held r cpu, .drop => some (a, .settle r cpu true)
  | .settle r cpu drop, .advance =>
    -- A second call of `settle` does nothing.
    if r.done then some (a, settled r cpu drop)
    else
      match r.started with
      | some start => some (a, .measure r start drop)
      -- A reservation that was not entered has used no CPU.
      | none => some (a, settleAdjust r 0 drop)
  | .measure r start drop, .clock now => some (a, settleAdjust r (now.toNat - start.toNat) drop)
  | .adjustLoad credits after, .advance => some (a, .adjustCas credits a.balance after)
  | .adjustCas credits current after, .cas spurious =>
    if a.balance = current ∧ spurious = false then
      some ({ a with balance := adjusted a current credits }, after.next)
    else some (a, .adjustCas credits a.balance after)
  | .release r cpu drop, .advance =>
    some ({ a with inFlight := usizeSub a.inFlight 1 },
      .settleNotify { r with done := true } cpu drop)
  | .replenish credits, .advance =>
    -- Credits beyond an `i64` count as its maximum.
    some (a, .adjustLoad ((i64TryFrom credits).getD i64Max) (.replenish credits))
  | _, _ => none

/-- What follows the section of a `notify_waiters`. -/
def afterNotify : Work → Option Work
  | .rollbackNotify => some .denied
  | .settleNotify r cpu drop => some (settled r cpu drop)
  | .replenishNotify credits => some (.replenished credits)
  | _ => none

/-- One account and its tasks. -/
structure State where
  account : CreditAccount
  changed : Sync.NotifySystem.State
  tasks : List (Sync.Task Work)
  deriving DecidableEq, Repr

/-- One step of one party. -/
inductive Action where
  | reserve (credits : UInt64)
  | replenish (credits : UInt64)
  | waitFor (credits : UInt64)
  | work (i : Nat) (event : Event)
  | notifyWaiters (i : Nat)
  /-- `wait_for`: the check of the request. -/
  | start (i : Nat)
  /-- `wait_for`: the load of `balance`. -/
  | loadBalance (i : Nat)
  /-- `wait_for`: the load of `in_flight`. -/
  | loadInFlight (i : Nat)
  /-- `wait_for`: a step of the registration or of a poll, or the drop of a suspended call. -/
  | listen (i : Nat) (event : Listen.Event)
  | wake (i : Nat)
  deriving DecidableEq, Repr

/-- A new call. -/
def spawn (s : State) (work : Work) : State :=
  { s with tasks := s.tasks ++ [{ work := work, listen := .left, wakes := [] }] }

/-- The step function. -/
def step (s : State) : Action → Option State
  | .reserve credits => some (spawn s (.reserve credits))
  | .replenish credits => some (spawn s (.replenish credits))
  | .waitFor credits => if credits = 0 then none else some (spawn s (.waitFor credits))
  | .work i event =>
    match s.tasks[i]? with
    | some task =>
      match stepWork s.account task.work event with
      | some (account, work) =>
        (Sync.Task.workAt s.tasks i work task.listen).map fun tasks => { s with account, tasks }
      | none => none
    | none => none
  | .notifyWaiters i =>
    match s.tasks[i]? with
    | some task =>
      match afterNotify task.work with
      | some work =>
        (Sync.Task.broadcastAt s.changed s.tasks i work).map fun (changed, tasks) =>
          { s with changed, tasks }
      | none => none
    | none => none
  | .start i =>
    match s.tasks[i]? with
    | some { work := .waitFor credits, .. } =>
      match i64TryFrom credits with
      | some credits =>
        if credits > s.account.capacity then
          (Sync.Task.workAt s.tasks i .tooLarge .left).map fun tasks => { s with tasks }
        else
          (Sync.Task.workAt s.tasks i (.listening credits) .create).map fun tasks =>
            { s with tasks }
      | none => (Sync.Task.workAt s.tasks i .tooLarge .left).map fun tasks => { s with tasks }
    | _ => none
  | .loadBalance i =>
    match s.tasks[i]? with
    | some { work := .listening credits, listen := .check future, .. } =>
      if s.account.balance ≥ credits then
        (Sync.Task.workAt s.tasks i (.loadInFlight credits) (.check future)).map fun tasks =>
          { s with tasks }
      else
        (Sync.Task.listenAt s.changed s.tasks i .pass).map fun (changed, tasks) =>
          { s with changed, tasks }
    | _ => none
  | .loadInFlight i =>
    match s.tasks[i]? with
    | some { work := .loadInFlight credits, listen, .. } =>
      -- The two loads are two steps, and the answer is the conjunction of both.
      (Sync.Task.workAt s.tasks i (.listening credits) listen).bind fun tasks =>
        (Sync.Task.listenAt s.changed tasks i
          (if s.account.inFlight < s.account.parallelism then .leave else .pass)).map
            fun (changed, tasks) => { s with changed, tasks }
    | _ => none
  | .listen i event =>
    match s.tasks[i]?, event with
    | some { work := .listening _, .. }, .advance | some { work := .listening _, .. }, .poll _
    | some { work := .listening _, .. }, .cancel =>
      (Sync.Task.listenAt s.changed s.tasks i event).map fun (changed, tasks) =>
        { s with changed, tasks }
    | _, _ => none
  | .wake i => (Sync.Task.wakeAt s.tasks i).map fun tasks => { s with tasks }

/-- `CreditAccount::new`, with a capacity that fits into an `i64`. -/
def new (capacity : Int) (parallelism : Nat) : State :=
  { account := { capacity, balance := capacity, inFlight := 0, parallelism }
    changed := { notify := .new, futures := [], wakes := [] }
    tasks := [] }

/-- The system of one account. `capacity` is a `NonZeroU64` that is an `i64`, and `parallelism`
a `NonZeroUsize`. -/
def system : Lts State Action where
  init s := ∃ capacity parallelism, 0 < capacity ∧ capacity ≤ i64Max ∧ 0 < parallelism ∧
    parallelism ≤ usizeMax ∧ s = new capacity parallelism
  next := step

end Nagoya.Credits
