import Nagoya.Lib.Lts

/-!
# `Nagoya.Task`: where a wake puts its task

`spawn_on_at` gives a task the closure that is called with its `Runnable` on the first schedule and
on every wake after it. The closure turns the runnable into a job and hands it to a pool, or drops
it. It asks four places for a worker: the caller's preference, the worker scope that the host
reports, the host's `current_worker` or the thread's own, and the route of the reactor.

The system is one task, its pool, and the calls of the closure. A call that has handed over its
runnable may still be on its way out when the next one begins, and they step in any order. A task
has one runnable at a time: the next one is made after the last was run or dropped.

The host's `WorkerContext` is the environment: it may visit any pools with any worker ids, as
often as it likes, and it may answer anything. A visit lends a pool, so the pool is alive then. The
last reference to the task's pool may go at any other time.

What a pool does with a job is not here. A pool is a number, and `Effect` is what it is asked.
-/

set_option autoImplicit false

namespace Nagoya.Task

open Nagoya.Lib

/-- What `spawn_on_at` is called with: the pool and the number of its workers, whether there is a
`WorkerContext`, and the preference for the first queue. Its callers check the preference. -/
structure Config where
  pool : Nat
  workers : Nat
  hasContext : Bool
  firstWorker : Option Nat
  accepted : ∀ w, firstWorker = some w → w < workers

/-- `spawn_on`: there is no preference. -/
def spawnOn (pool workers : Nat) (hasContext : Bool) : Config where
  pool
  workers
  hasContext
  firstWorker := none
  accepted := nofun

/-- `Owner::dispatch_to`: a preference outside the pool is `DispatchDenied::Worker`. -/
def dispatchTo (pool workers : Nat) (hasContext : Bool) (worker : Option Nat) : Option Config :=
  if h : worker.any (fun id => id ≥ workers) then none
  else
    some
      { pool
        workers
        hasContext
        firstWorker := worker
        accepted := by
          rintro w rfl
          simpa using h }

/-- What a call does with its runnable. -/
inductive Effect where
  | submitLocal (pool worker : Nat)
  | submitJob (pool : Nat)
  | drop
  deriving DecidableEq, Repr

/-- `CURRENT` and `ROUTE` of the thread that makes a call. -/
structure ThreadLocals where
  current : Option (Nat × Nat)
  route : Option Nat
  deriving DecidableEq, Repr

/-- The next step of a call. -/
inductive CallPc where
  /-- `first.swap(false)` -/
  | swap
  /-- `weak_pool.upgrade()` with a preference -/
  | upgradeFirst (worker : Nat)
  | submitFirst (worker : Nat)
  /-- Inside `with_current_worker`. `runnable` says whether `local` has not taken it yet. -/
  | visiting (runnable : Bool)
  /-- `weak_pool.upgrade()` without one -/
  | upgrade
  | workerFor
  | submit (worker : Option Nat)
  | returned
  | panicked
  deriving DecidableEq, Repr

/-- A call of the closure. `effects` is what it has done with its runnable, and `preferred` says
that it did so through the preference. No step reads them, but for the rule that the next call
waits for the runnable. -/
structure Call where
  tls : ThreadLocals
  pc : CallPc
  effects : List Effect
  preferred : Bool
  deriving DecidableEq, Repr

/-- The flag of the closure, whether the pool is there, and the calls. -/
structure State where
  first : Bool
  alive : Bool
  calls : List Call
  deriving DecidableEq, Repr

/-- One step of one party. -/
inductive Action where
  /-- A runnable is scheduled on a thread. -/
  | schedule (tls : ThreadLocals)
  /-- The next step of the call `j`, where it leaves no choice. -/
  | advance (j : Nat)
  /-- The host reports a worker to `local`. -/
  | visit (j pool worker : Nat)
  /-- The host's `with_current_worker` returns. -/
  | visitsEnd (j : Nat)
  /-- The host's `current_worker` answers. -/
  | currentWorker (j : Nat) (answer : Option Nat)
  /-- The last reference to the pool goes. -/
  | destroy
  deriving DecidableEq, Repr

variable (cfg : Config)

/-- `local`: the job goes to the visited pool if that is the task's own and the worker exists. -/
def localVisit (runnable : Bool) (pool worker : Nat) : Bool × List Effect :=
  if pool = cfg.pool ∧ worker < cfg.workers then
    -- `runnable.take()`
    if runnable then (false, [.submitLocal pool worker]) else (false, [])
  else (runnable, [])

/-- `task::current_worker` -/
def currentWorker (tls : ThreadLocals) : Option Nat :=
  match tls.current with
  | some (pool, worker) => if pool = cfg.pool then some worker else none
  | none => none

/-- The filter at the end of `worker_for`. -/
def inPool (worker : Option Nat) : Option Nat := worker.filter fun id => id < cfg.workers

/-- The call after the visits: what is left to do depends on the runnable. -/
def Call.visited (c : Call) (runnable : Bool) : Call :=
  { c with pc := if runnable then .upgrade else .returned }

/-- A call ends with an effect. -/
def Call.finish (c : Call) (effect : Effect) (preferred : Bool) : Call :=
  { c with pc := .returned, effects := c.effects ++ [effect], preferred }

/-- A step of the call `c` that leaves no choice: the flag after it, and the call. -/
def advance (s : State) (c : Call) : Option (Bool × Call) :=
  match c.pc with
  | .swap =>
    let pc :=
      match s.first, cfg.firstWorker with
      | true, some worker => .upgradeFirst worker
      | _, _ => .visiting true
    some (false, { c with pc })
  | .upgradeFirst worker =>
    if s.alive then some (s.first, { c with pc := .submitFirst worker })
    -- The closure returns, and the runnable is dropped with its arguments.
    else some (s.first, c.finish .drop true)
  | .submitFirst worker =>
    -- `assert!(worker < pool.workers())`
    if worker < cfg.workers then some (s.first, c.finish (.submitLocal cfg.pool worker) true)
    else some (s.first, { c with pc := .panicked })
  | .visiting runnable =>
    if cfg.hasContext then none
    else
      match c.tls.current with
      | some (pool, worker) =>
        let (runnable, effects) := localVisit cfg runnable pool worker
        some (s.first, { c with effects := c.effects ++ effects }.visited runnable)
      | none => some (s.first, c.visited runnable)
  | .upgrade =>
    if s.alive then some (s.first, { c with pc := .workerFor })
    else some (s.first, c.finish .drop false)
  | .workerFor =>
    if cfg.hasContext then none
    else
      let worker := (currentWorker cfg c.tls).or c.tls.route
      some (s.first, { c with pc := .submit (inPool cfg worker) })
  | .submit worker =>
    let effect :=
      match worker with
      | some worker => .submitLocal cfg.pool worker
      | none => .submitJob cfg.pool
    some (s.first, c.finish effect false)
  | .returned | .panicked => none

/-- A step of the call `c` in which the host chooses. -/
def hostStep (s : State) (c : Call) : Action → Option Call
  | .visit _ pool worker =>
    match c.pc with
    | .visiting runnable =>
      -- What the host lends is alive.
      if cfg.hasContext ∧ (pool = cfg.pool → s.alive = true) then
        let (runnable, effects) := localVisit cfg runnable pool worker
        some { c with pc := .visiting runnable, effects := c.effects ++ effects }
      else none
    | _ => none
  | .visitsEnd _ =>
    match c.pc with
    | .visiting runnable => if cfg.hasContext then some (c.visited runnable) else none
    | _ => none
  | .currentWorker _ answer =>
    match c.pc with
    | .workerFor =>
      if cfg.hasContext then some { c with pc := .submit (inPool cfg answer) } else none
    | _ => none
  | _ => none

/-- The call keeps the pool alive: it has upgraded its reference, or its thread is one of the
pool's workers. -/
def Call.keepsPool (c : Call) : Bool :=
  match c.pc with
  | .submitFirst _ | .workerFor | .submit _ => true
  | .returned | .panicked => false
  | _ => c.tls.current.any fun owner => owner.1 = cfg.pool

/-- The step function. -/
def step (s : State) : Action → Option State
  | .schedule tls =>
    if (∀ c ∈ s.calls, c.effects ≠ []) ∧
        (tls.current.any (fun owner => owner.1 = cfg.pool) → s.alive = true) then
      some { s with
        calls := s.calls ++ [{ tls, pc := .swap, effects := [], preferred := false }] }
    else none
  | .advance j =>
    match s.calls[j]? with
    | some c =>
      match advance cfg s c with
      | some (first, c) => some { s with first, calls := s.calls.set j c }
      | none => none
    | none => none
  | .destroy =>
    if s.calls.any (Call.keepsPool cfg) then none else some { s with alive := false }
  | .visit j pool worker =>
    match s.calls[j]? with
    | some c => (hostStep cfg s c (.visit j pool worker)).map fun c =>
        { s with calls := s.calls.set j c }
    | none => none
  | .visitsEnd j =>
    match s.calls[j]? with
    | some c => (hostStep cfg s c (.visitsEnd j)).map fun c => { s with calls := s.calls.set j c }
    | none => none
  | .currentWorker j answer =>
    match s.calls[j]? with
    | some c => (hostStep cfg s c (.currentWorker j answer)).map fun c =>
        { s with calls := s.calls.set j c }
    | none => none

/-- The task before its first schedule. -/
def new : State := { first := true, alive := true, calls := [] }

/-- The system of one task. -/
def system : Lts State Action where
  init s := s = new
  next := step cfg

end Nagoya.Task
