import Nagoya.Sync.Notify

/-!
# `Nagoya.Sync.Listener`: the register, check, await loop

`Barrier::wait` and `CreditAccount::wait_for` are built on `Notify` in the same way:

    loop {
        let notified = notify.notified();
        pin!(notified).enable();
        if condition { return }
        notified.await;
    }

`Listen` is one such loop. Its steps are those of the `Notify` system, and the condition is left
to the client: at `check` the client takes `leave` or `pass`.

A `Task` is a party of a client: the client's own state, its loop, and the wakes that a section
has handed to it. A task issues these wakes before it does anything else. A wake of a waker
marks every task that is suspended with it.
-/

set_option autoImplicit false

namespace Nagoya.Sync

open Nagoya.Lib

variable [Target]

namespace NotifySystem

/-- One step taken inside a larger system: the state after it, and the wakes it hands out. -/
def issue (s : State) (act : Action) : Option (State × List Waker) :=
  (step { s with wakes := [] } act).map fun s' => ({ s' with wakes := [] }, s'.wakes)

end NotifySystem

open NotifySystem (issue)

/-- Where a loop is. The number is the index of its `Notified`. -/
inductive Listen where
  /-- `notified()` is next. -/
  | create
  /-- `enable` is next. -/
  | created (future : Nat)
  /-- `enable` is in progress. -/
  | enabling (future : Nat)
  /-- The condition is next. -/
  | check (future : Nat)
  /-- The condition did not hold, and the first poll of the future is next. -/
  | await (future : Nat)
  /-- A poll is in progress. -/
  | polling (future : Nat) (waker : Waker)
  /-- The last poll returned `Pending`. `woken` says whether its waker was called since. -/
  | suspended (future : Nat) (waker : Waker) (woken : Bool)
  /-- The future is ready. It is dropped, and the loop starts over. -/
  | again (future : Nat)
  /-- The loop is left. The future is dropped. -/
  | leaving (future : Nat)
  | left
  deriving DecidableEq, Repr

namespace Listen

/-- One step of a loop, with the waker that a poll brings and the client's decisions. -/
inductive Event where
  | advance
  | poll (waker : Waker)
  /-- The condition holds. -/
  | leave
  /-- The condition does not hold. -/
  | pass
  /-- The suspended loop is dropped. -/
  | cancel
  deriving DecidableEq, Repr

/-- The future of a loop is inside a call. -/
def inCall (s : NotifySystem.State) (future : Nat) : Bool :=
  match s.futures[future]? with
  | some (.live _ .idle) => false
  | _ => true

/-- The last call of a future returned `true`. -/
def isDone (s : NotifySystem.State) (future : Nat) : Bool :=
  match s.futures[future]? with
  | some (.live f _) => f.done
  | _ => false

/-- One step of a loop. The last component is the wakes that the step hands out. -/
def step (s : NotifySystem.State) : Listen → Event →
    Option (NotifySystem.State × Listen × List Waker)
  | .create, .advance =>
    (issue s .notified).map fun (s', wakes) => (s', .created s.futures.length, wakes)
  | .created future, .advance =>
    (issue s (.call future .enable)).map fun (s', wakes) => (s', .enabling future, wakes)
  | .enabling future, .advance =>
    (issue s (.advance future)).map fun (s', wakes) =>
      (s', if inCall s' future then .enabling future else .check future, wakes)
  -- The client looks at its condition between `enable` and the first poll.
  | .check future, .leave => some (s, .leaving future, [])
  | .check future, .pass => some (s, .await future, [])
  | .await future, .poll waker | .suspended future _ _, .poll waker =>
    (issue s (.call future (.poll waker))).map fun (s', wakes) =>
      (s', .polling future waker, wakes)
  | .polling future waker, .advance =>
    (issue s (.advance future)).map fun (s', wakes) =>
      (s', if inCall s' future then .polling future waker
        else if isDone s' future then .again future
        else .suspended future waker false, wakes)
  -- The future goes with the loop that is dropped.
  | .suspended future _ _, .cancel => some (s, .leaving future, [])
  | .again future, .advance =>
    (issue s (.drop future)).map fun (s', wakes) => (s', .create, wakes)
  | .leaving future, .advance =>
    (issue s (.drop future)).map fun (s', wakes) => (s', .left, wakes)
  | _, _ => none

/-- `waker` is called. -/
def wake (waker : Waker) : Listen → Listen
  | .suspended future waker' woken => .suspended future waker' (woken || waker' = waker)
  | l => l

end Listen

/-- A party of a client. -/
structure Task (β : Type) where
  work : β
  listen : Listen
  wakes : List Waker
  deriving DecidableEq, Repr

namespace Task

variable {β : Type}

/-- Task `i` takes a step of its loop. -/
def listenAt (s : NotifySystem.State) (tasks : List (Task β)) (i : Nat) (event : Listen.Event) :
    Option (NotifySystem.State × List (Task β)) :=
  match tasks[i]? with
  | some { work, listen, wakes := [] } =>
    (listen.step s event).map fun (s', listen, wakes) => (s', tasks.set i { work, listen, wakes })
  | _ => none

/-- Task `i` runs the section of `notify_waiters`, and goes on as `work`. -/
def broadcastAt (s : NotifySystem.State) (tasks : List (Task β)) (i : Nat) (work : β) :
    Option (NotifySystem.State × List (Task β)) :=
  match tasks[i]? with
  | some { listen, wakes := [], .. } =>
    (issue s .notifyWaiters).map fun (s', wakes) => (s', tasks.set i { work, listen, wakes })
  | _ => none

/-- Task `i` goes on as `work`, with its loop at `listen`. -/
def workAt (tasks : List (Task β)) (i : Nat) (work : β) (listen : Listen) :
    Option (List (Task β)) :=
  match tasks[i]? with
  | some { wakes := [], .. } => some (tasks.set i { work, listen, wakes := [] })
  | _ => none

/-- Task `i` issues the next of its wakes. -/
def wakeAt (tasks : List (Task β)) (i : Nat) : Option (List (Task β)) :=
  match tasks[i]? with
  | some { work, listen, wakes := waker :: wakes } =>
    some ((tasks.set i { work, listen, wakes }).map fun t =>
      { t with listen := t.listen.wake waker })
  | _ => none

end Task

end Nagoya.Sync
