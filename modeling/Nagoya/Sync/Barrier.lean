import Nagoya.Lib.Lts
import Nagoya.Sync.Listener

/-!
# `Nagoya.Sync.Barrier`: the rendezvous of `n` tasks

`Barrier::wait` counts its arrival under the state lock. The arrival that completes a group
starts the next generation, broadcasts, and returns `true`. Every other arrival keeps the
generation it saw and loops: it registers, reads the generation again, and awaits.

The system is one barrier and any number of calls of `wait`. The arrival section, the broadcast,
each step of a registration, each check of the generation, and each wake are steps of their own.
`arrivals` and the number of each arrival are history: no step reads them.

`arrived += 1` is an addition of naturals. `arrived` stays below `n`, which is a `usize`.
-/

set_option autoImplicit false

namespace Nagoya.Sync.Barrier

open Nagoya.Lib

variable [Target]

/-- `BarrierState`. -/
structure BarrierState where
  arrived : Nat
  generation : Nat
  deriving DecidableEq, Repr

/-- One call of `wait`. `number` is the number of its arrival. -/
inductive Wait where
  /-- The section that counts the arrival is next. -/
  | arrive
  /-- The call completed its group, and `notify_waiters` is next. -/
  | leader (number : Nat)
  /-- The leader is inside `notify_waiters` and issues the wakes. -/
  | waking (number : Nat)
  /-- The call is in its loop. -/
  | waiting (generation number : Nat)
  | returned (result : Bool) (number : Nat)
  deriving DecidableEq, Repr

/-- One barrier and its calls. -/
structure State where
  state : BarrierState
  notify : NotifySystem.State
  tasks : List (Task Wait)
  arrivals : Nat
  deriving DecidableEq, Repr

/-- One step of one party. -/
inductive Action where
  | wait
  | arrive (i : Nat)
  | notifyWaiters (i : Nat)
  | advance (i : Nat)
  | check (i : Nat)
  | poll (i : Nat) (waker : Waker)
  | wake (i : Nat)
  | ret (i : Nat)
  deriving DecidableEq, Repr

/-- The section that counts an arrival: the state after it, and how the call goes on. -/
def arrive (n : Nat) (state : BarrierState) (number : Nat) : BarrierState × Wait × Listen :=
  if state.arrived + 1 ≥ n then
    ({ arrived := 0, generation := usizeAdd state.generation 1 }, .leader number, .left)
  else
    ({ state with arrived := state.arrived + 1 }, .waiting state.generation number, .create)

/-- The step function of a barrier of `n`. -/
def step (n : Nat) (s : State) : Action → Option State
  | .wait => some { s with tasks := s.tasks ++ [{ work := .arrive, listen := .left, wakes := [] }] }
  | .arrive i =>
    match s.tasks[i]? with
    | some { work := .arrive, .. } =>
      let (state, work, listen) := arrive n s.state s.arrivals
      (Task.workAt s.tasks i work listen).map fun tasks =>
        { s with state, tasks, arrivals := s.arrivals + 1 }
    | _ => none
  -- The leader wakes the others after it released the lock.
  | .notifyWaiters i =>
    match s.tasks[i]? with
    | some { work := .leader number, .. } =>
      (Task.broadcastAt s.notify s.tasks i (.waking number)).map fun (notify, tasks) =>
        { s with notify, tasks }
    | _ => none
  | .advance i =>
    (Task.listenAt s.notify s.tasks i .advance).map fun (notify, tasks) => { s with notify, tasks }
  | .check i =>
    match s.tasks[i]? with
    | some { work := .waiting generation _, .. } =>
      (Task.listenAt s.notify s.tasks i
        (if s.state.generation ≠ generation then .leave else .pass)).map fun (notify, tasks) =>
          { s with notify, tasks }
    | _ => none
  | .poll i waker =>
    (Task.listenAt s.notify s.tasks i (.poll waker)).map fun (notify, tasks) =>
      { s with notify, tasks }
  | .wake i => (Task.wakeAt s.tasks i).map fun tasks => { s with tasks }
  -- The leader returns `true`.
  | .ret i =>
    match s.tasks[i]? with
    | some { work := .waking number, .. } =>
      (Task.workAt s.tasks i (.returned true number) .left).map fun tasks => { s with tasks }
    | some { work := .waiting _ number, listen := .left, .. } =>
      (Task.workAt s.tasks i (.returned false number) .left).map fun tasks => { s with tasks }
    | _ => none

/-- `Barrier::new`. -/
def new : State :=
  { state := { arrived := 0, generation := 0 }
    notify := { notify := .new, futures := [], wakes := [] }
    tasks := []
    arrivals := 0 }

/-- The system of a barrier of `n`. -/
def system (n : Nat) : Lts State Action where
  init s := s = new
  next := step n

end Nagoya.Sync.Barrier
