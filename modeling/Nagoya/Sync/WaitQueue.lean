import Nagoya.Machine
import Mathlib.Data.List.Basic

/-!
# `Nagoya.Sync.WaitQueue`: the slab wait queue of `src/sync.rs`

Every waiter of the module's primitives lives in one slot of a vector. The slot index is the
token a future holds. Queued waiters are linked through `previous` and `next`, free slots
through `WaiterSlot.free`, and a granted slot stays live and unlinked until its future
acknowledges or cancels it.

The source indexes the vector and calls `unreachable!` on a slot of the wrong kind. Both are
panics, and an operation that panics is `none` here. `Proofs/Sync/WaitQueue.lean` shows that
no operation panics on a token that is live.
-/

set_option autoImplicit false

namespace Nagoya.Sync

/-- `WakeKind`: still queued, or granted by a single or a broadcast wake. -/
inductive WakeKind where
  | queued
  | one
  | all
  deriving DecidableEq, Repr

/-- `Waiter`: a live slot. -/
structure Waiter where
  previous : Option Nat
  next : Option Nat
  kind : WakeKind
  waker : Option Waker
  deriving DecidableEq, Repr

/-- `WaiterSlot`: a live waiter, or a link of the free list. -/
inductive WaiterSlot where
  | live (waiter : Waiter)
  | free (next : Option Nat)
  deriving DecidableEq, Repr

/-- `WaitQueue`. -/
structure WaitQueue where
  slots : List WaiterSlot
  free : Option Nat
  head : Option Nat
  tail : Option Nat
  deriving DecidableEq, Repr

namespace WaitQueue

/-- `WaitQueue::new`. -/
def new : WaitQueue := { slots := [], free := none, head := none, tail := none }

/-- `WaitQueue::get`. -/
def get (q : WaitQueue) (id : Nat) : Option Waiter :=
  match q.slots[id]? with
  | some (.live waiter) => some waiter
  | _ => none

/-- The kind of the slot behind a token. -/
def slotKind (q : WaitQueue) (token : Option Nat) : Option WakeKind :=
  (token.bind q.get).map Waiter.kind

/-- A write through `WaitQueue::get_mut`. -/
def getMut (q : WaitQueue) (id : Nat) (write : Waiter → Waiter) : Option WaitQueue :=
  (q.get id).map fun waiter => { q with slots := q.slots.set id (.live (write waiter)) }

/-- The `next` link of a slot, or `head` when there is no slot before. -/
def setNext (q : WaitQueue) (slot next : Option Nat) : Option WaitQueue :=
  match slot with
  | some id => q.getMut id fun waiter => { waiter with next := next }
  | none => some { q with head := next }

/-- The `previous` link of a slot, or `tail` when there is no slot after. -/
def setPrevious (q : WaitQueue) (slot previous : Option Nat) : Option WaitQueue :=
  match slot with
  | some id => q.getMut id fun waiter => { waiter with previous := previous }
  | none => some { q with tail := previous }

/-- `WaitQueue::enqueue`. -/
def enqueue (q : WaitQueue) (id : Nat) : Option WaitQueue := do
  let tail := q.tail
  let q ← q.getMut id fun waiter =>
    { waiter with previous := tail, next := none, kind := .queued }
  let q ← q.setNext tail (some id)
  return { q with tail := some id }

/-- `WaitQueue::unlink`. -/
def unlink (q : WaitQueue) (id : Nat) : Option WaitQueue := do
  let waiter ← q.get id
  let q ← q.setNext waiter.previous waiter.next
  let q ← q.setPrevious waiter.next waiter.previous
  q.getMut id fun waiter => { waiter with previous := none, next := none }

/-- The slot a new registration takes: the head of the free list, or a slot pushed at the
end of the vector. -/
def allocate (q : WaitQueue) (waiter : Waiter) : Option (WaitQueue × Nat) :=
  match q.free with
  | some id =>
    match q.slots[id]? with
    | some (.free next) =>
      some ({ q with free := next, slots := q.slots.set id (.live waiter) }, id)
    | _ => none
  | none => some ({ q with slots := q.slots ++ [.live waiter] }, q.slots.length)

/-- The waker half of `register`: a waker that would wake the same task stays, and any other
is replaced. The second component is the replaced waker. -/
def setWaker (q : WaitQueue) (id : Nat) (waker : Option Waker) :
    Option (WaitQueue × Option Waker) := do
  let waiter ← q.get id
  match waker with
  -- `enable` brings no waker, and the one in the slot stays.
  | none => return (q, none)
  | some waker =>
    if waiter.waker = some waker then
      return (q, none)
    else
      let q ← q.getMut id fun waiter => { waiter with waker := some waker }
      return (q, waiter.waker)

/-- `WaitQueue::register`. The result is the queue, the token, and the replaced waker. -/
def register (q : WaitQueue) (token : Option Nat) (waker : Option Waker) :
    Option (WaitQueue × Nat × Option Waker) := do
  let (q, id) ← match token with
    | some id => do
      let waiter ← q.get id
      -- A slot that was granted is queued again, at the end of the list.
      if waiter.kind ≠ .queued then
        let q ← q.enqueue id
        pure (q, id)
      else
        pure (q, id)
    | none => do
      let (q, id) ← q.allocate { previous := none, next := none, kind := .queued, waker := none }
      let q ← q.enqueue id
      pure (q, id)
  let (q, old) ← q.setWaker id waker
  return (q, id, old)

/-- `WaitQueue::remove`. The token is taken: the caller's is `none` afterwards. -/
def remove (q : WaitQueue) (token : Option Nat) : Option (WaitQueue × Option Waiter) :=
  match token with
  | none => some (q, none)
  | some id => do
    let waiter ← q.get id
    -- A slot that was granted is on no list.
    let q ← if waiter.kind = .queued then q.unlink id else some q
    let old ← q.get id
    return ({ q with slots := q.slots.set id (.free q.free), free := some id }, some old)

/-- `WaitQueue::grant_one`. The inner result is `none` when nobody is queued, and otherwise
the waker of the granted waiter. -/
def grantOne (q : WaitQueue) : Option (WaitQueue × Option (Option Waker)) :=
  match q.head with
  | none => some (q, none)
  | some id => do
    let q ← q.unlink id
    let waiter ← q.get id
    let q ← q.getMut id fun waiter => { waiter with kind := .one, waker := none }
    return (q, some waiter.waker)

/-- The loop of `WaitQueue::grant_all`. `fuel` bounds the rounds, and a loop that is not
finished in `fuel` rounds has no result. -/
def grantAllLoop : Nat → WaitQueue → List Waker → Option (WaitQueue × List Waker)
  | fuel, q, wakers =>
    match q.head with
    | none => some (q, wakers)
    | some id =>
      match fuel with
      | 0 => none
      | fuel + 1 => do
        let q ← q.unlink id
        let waiter ← q.get id
        let q ← q.getMut id fun waiter => { waiter with kind := .all, waker := none }
        grantAllLoop fuel q (wakers ++ waiter.waker.toList)

/-- `WaitQueue::grant_all`. Each round unlinks one slot, so the number of slots bounds the
rounds. -/
def grantAll (q : WaitQueue) : Option (WaitQueue × List Waker) :=
  grantAllLoop q.slots.length q []

end WaitQueue

/-! ### `Waiters`: the queue behind its lock

Each function is one section under the lock. What runs after the lock is released (dropping a
replaced waker, calling `wake`) is left to the caller. -/

namespace Waiters

/-- `Waiters::register`. The result holds the future's token. -/
def register (q : WaitQueue) (token : Option Nat) (waker : Waker) : Option (WaitQueue × Nat) :=
  (q.register token (some waker)).map fun (q, id, _) => (q, id)

/-- `Waiters::remove`. The future's token is `none` afterwards. -/
def remove (q : WaitQueue) (token : Option Nat) : Option (WaitQueue × Option WakeKind) :=
  (q.remove token).map fun (q, removed) => (q, removed.map Waiter.kind)

/-- The section of `Waiters::wake_one`, with the waker to wake. -/
def wakeOne (q : WaitQueue) : Option (WaitQueue × Option Waker) :=
  q.grantOne.map fun (q, waker) => (q, waker.join)

/-- The section of `Waiters::wake_all`, with the wakers to wake. -/
def wakeAll (q : WaitQueue) : Option (WaitQueue × List Waker) := q.grantAll

end Waiters

end Nagoya.Sync
