import Nagoya.Lib.Lts
import Nagoya.Machine

/-!
# `Nagoya.Reactor.TaskSet`: the ready chain of a task set

The system is one `TaskSet`, the party that owns it and any number of wakes. The owner calls
`push` and `poll`, one at a time. A wake of any task may come from any thread at any moment, and
so may one that a task makes while it is polled. Every atomic operation is one step.

The future of a task is outside the model. When the walk polls it, the label of the step says
whether it is ready. `AtomicWaker` is from another crate. It is a cell with two atomic
operations: `register` stores the waker, and `wake` takes it out and wakes it.

`walks`, and the fields of a slot after `future`, are records that no step reads. A link, a poll
or a finish is recorded with the number of walks that had started by then.
-/

set_option autoImplicit false

namespace Nagoya.Reactor

open Nagoya.Lib

namespace TaskSet

/-- `END`: the end of the ready chain, `u32::MAX`. -/
def chainEnd : Nat := 2 ^ 32 - 1

/-- A `Task` and its `Slot`. `future` says whether the future is still there. -/
structure Slot where
  next : Nat
  queued : Bool
  future : Bool
  links : List Nat
  polls : List Nat
  finished : Option Nat
  wokenSinceClear : Bool
  wokenSincePoll : Bool
  deriving DecidableEq, Repr

/-- The next step of a party that queues a slot. `wakeParent` is reached by wakes only. -/
inductive LinkPc where
  | load
  | store (head : Nat)
  | exchange (head : Nat)
  | wakeParent
  | done
  deriving DecidableEq, Repr

/-- A wake that won the right to queue its slot. -/
structure Linker where
  index : Nat
  pc : LinkPc
  deriving DecidableEq, Repr

/-- The next step of the owner. -/
inductive OwnerPc where
  | idle
  | push (index : Nat) (pc : LinkPc)
  | register (waker : Waker)
  | take
  | next (cursor : Nat)
  | clear (index following : Nat)
  | poll (index following : Nat)
  | polling (index following : Nat)
  /-- `u32::try_from(self.tasks.len()).expect(..)` failed. -/
  | panicked
  deriving DecidableEq, Repr

/-- A `TaskSet` with its `Shared`, and everyone who uses it. `shared` says whether `Shared` is
there, and `ready` is what the last `poll` returned since the last call. -/
structure State where
  shared : Bool
  head : Nat
  parent : Option Waker
  slots : List Slot
  left : Nat
  owner : OwnerPc
  ready : Option Bool
  linkers : List Linker
  walks : Nat
  deriving DecidableEq, Repr

/-- One step of one party. -/
inductive Action where
  /-- The owner calls `TaskSet::push`. -/
  | push
  /-- The owner calls `TaskSet::poll`. -/
  | poll (waker : Waker)
  /-- The owner's next step. A weak exchange may fail spuriously, and a polled task is ready or
  not. -/
  | advance (spurious taskReady : Bool)
  /-- Someone calls `Slot::wake_by_ref`: the swap of `queued`. -/
  | wake (index : Nat)
  /-- The next step of the wake `k`. -/
  | link (k : Nat) (spurious : Bool)
  deriving DecidableEq, Repr

/-- The slot at `i` is replaced by its image under `f`. -/
def State.modify (s : State) (i : Nat) (f : Slot → Slot) : State :=
  match s.slots[i]? with
  | some slot => { s with slots := s.slots.set i (f slot) }
  | none => s

/-- One step of the loop that puts `index` in front of the chain, which `push` and `wake_by_ref`
have in common, and the `parent.wake()` after it. -/
def linkStep (s : State) (index : Nat) (spurious : Bool) : LinkPc → State × LinkPc
  | .load => (s, .store s.head)
  | .store head => (s.modify index fun slot => { slot with next := head }, .exchange head)
  | .exchange head =>
    if s.head = head ∧ spurious = false then
      ({ s with head := index }.modify index fun slot =>
          { slot with links := slot.links ++ [s.walks] },
        .wakeParent)
    else (s, .store s.head)
  | .wakeParent => ({ s with parent := none }, .done)
  | .done => (s, .done)

/-- The task of a fresh slot has never been polled, so it starts queued. -/
def freshSlot : Slot :=
  { next := chainEnd
    queued := true
    future := true
    links := []
    polls := []
    finished := none
    wokenSinceClear := true
    wokenSincePoll := true }

/-- The next step of the owner. -/
def advance (s : State) (spurious taskReady : Bool) : Option State :=
  match s.owner with
  | .idle | .panicked => none
  | .push index pc =>
    match linkStep s index spurious pc with
    -- `push` ends with the exchange.
    | (s, .wakeParent) => some { s with owner := .idle }
    | (s, pc) => some { s with owner := .push index pc }
  | .register waker => some { s with parent := some waker, owner := .take }
  | .take =>
    some { s with head := chainEnd, owner := .next s.head, walks := s.walks + 1 }
  | .next cursor =>
    if cursor = chainEnd then some { s with owner := .idle, ready := some (s.left == 0) }
    else
      match s.slots[cursor]? with
      -- No entry: the walk stops.
      | none => some { s with owner := .idle, ready := some (s.left == 0) }
      | some slot => some { s with owner := .clear cursor slot.next }
  | .clear index following =>
    some ({ s with owner := .poll index following }.modify index fun slot =>
      { slot with queued := false, wokenSinceClear := false })
  | .poll index following =>
    match s.slots[index]? with
    | none => none
    | some slot =>
      if slot.future then
        some ({ s with owner := .polling index following }.modify index fun slot =>
          { slot with polls := slot.polls ++ [s.walks], wokenSincePoll := false })
      else some { s with owner := .next following }
  | .polling index following =>
    if taskReady then
      some ({ s with left := s.left - 1, owner := .next following }.modify index fun slot =>
        { slot with future := false, finished := some s.walks })
    else some { s with owner := .next following }

/-- The step function. -/
def step (s : State) : Action → Option State
  | .push =>
    match s.owner with
    | .idle =>
      if s.slots.length < 2 ^ 32 then
        some { s with
          shared := true
          slots := s.slots ++ [freshSlot]
          left := s.left + 1
          owner := .push s.slots.length .load
          ready := none }
      else some { s with shared := true, owner := .panicked, ready := none }
    | _ => none
  | .poll waker =>
    match s.owner with
    | .idle =>
      if s.shared then some { s with owner := .register waker, ready := none }
      -- It never had a task.
      else some { s with ready := some true }
    | _ => none
  | .advance spurious taskReady => advance s spurious taskReady
  | .wake index =>
    match s.slots[index]? with
    | none => none
    | some slot =>
      let s := s.modify index fun slot =>
        { slot with queued := true, wokenSinceClear := true, wokenSincePoll := true }
      if slot.queued then some s
      else some { s with linkers := s.linkers ++ [{ index, pc := .load }] }
  | .link k spurious =>
    match s.linkers[k]? with
    | none => none
    | some linker =>
      match linker.pc with
      | .done => none
      | pc =>
        let (s, pc) := linkStep s linker.index spurious pc
        some { s with linkers := s.linkers.set k { linker with pc } }

/-- `TaskSet::new` -/
def new : State :=
  { shared := false
    head := chainEnd
    parent := none
    slots := []
    left := 0
    owner := .idle
    ready := none
    linkers := []
    walks := 0 }

/-- The system of one task set. -/
def system : Lts State Action where
  init s := s = new
  next := step

/-! ### With an executor -/

/-- A task set whose executor polls it when it has to. A weak exchange may fail spuriously `spare`
more times. -/
structure Driven where
  set : State
  spare : Nat
  deriving DecidableEq, Repr

/-- One step of a task set with an executor. -/
inductive Turn where
  /-- The executor polls the set, because it is new or its waker was woken. -/
  | due (waker : Waker)
  | act (act : Action)
  deriving DecidableEq, Repr

/-- The exchange of the step may fail spuriously. -/
def Action.spurious : Action → Bool
  | .advance spurious _ | .link _ spurious => spurious
  | _ => false

/-- The step function. `AtomicWaker` has no waker when none was registered yet, or when it was woken
since. At most `u32::MAX - 1` futures are pushed. -/
def turn (s : Driven) : Turn → Option Driven
  | .due waker =>
    if s.set.parent = none ∧ 0 < s.set.left then do
      let set ← step s.set (.poll waker)
      some { s with set }
    else none
  | .act act =>
    if act.spurious = true ∧ s.spare = 0 then none
    else do
      let set ← step s.set act
      if set.slots.length < chainEnd then
        some { set, spare := if act.spurious then s.spare - 1 else s.spare }
      else none

/-- The system of one task set and its executor. -/
def driven : Lts Driven Turn where
  init s := s.set = new
  next := turn

end TaskSet

end Nagoya.Reactor
