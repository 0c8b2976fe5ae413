import Nagoya.Lib.Lts

/-!
# `Nagoya.Signal`: waiters for signals, on Linux

`Signal::new` takes four things in turn: the bit of its number in `CLAIMED`, the block of the
signal on the calling thread, the descriptor of the number in `FDS`, and a registration with a
reactor. When one of them is refused it gives back what it took. Each step is a function on the
state of the process, and `new` composes them.

The kernel's answers are an argument: each call may fail with an error of the kernel's choice. A
`Signal` is dropped on any thread. The program may change the masks of its threads itself.

The registration is an answer here. What it does to the poller is in
`Nagoya.Reactor.Descriptors`.
-/

set_option autoImplicit false

namespace Nagoya.Signal

open Nagoya.Lib

/-- The errors of `Signal::new`. `kernel` is one that a system call failed with. -/
inductive Error where
  | einval
  | ebusy
  | kernel (errno : Int)
  deriving DecidableEq, Repr

/-- `Signal`: the number it waits for, which its claim has too, and its descriptor. -/
structure Waiter where
  kind : Int
  fd : Nat
  deriving DecidableEq, Repr

/-- The signals that each thread has blocked, `CLAIMED`, `FDS`, and the waiters that exist. -/
structure Process where
  mask : Nat → Int → Bool
  claimed : BitVec 64
  fds : Int → Option Nat
  waiters : List Waiter

/-- What the kernel answers to the calls of one `Signal::new`. The results of `pthread_sigmask`
are error numbers, and zero is success. -/
structure Answers where
  block : Int
  signalfd : Except Int Nat
  unblock : Int
  register : Except Int Unit
  deriving Repr

/-! ### The claim -/

/-- `1u64 << sig` -/
def bit (sig : Int) : BitVec 64 := 1#64 <<< sig.toNat

/-- The numbers that `Claim::acquire` takes: 1 to 31 without `SIGKILL` and `SIGSTOP`. -/
def valid (sig : Int) : Bool := 1 ≤ sig ∧ sig < 32 ∧ sig ≠ 9 ∧ sig ≠ 19

/-- `Claim::acquire`. The `fetch_or` is made even when the bit is set. -/
def acquire (p : Process) (sig : Int) : Process × Except Error Unit :=
  if !valid sig then (p, .error .einval)
  else
    let previous := p.claimed
    let p := { p with claimed := p.claimed ||| bit sig }
    if previous &&& bit sig ≠ 0 then (p, .error .ebusy) else (p, .ok ())

/-- `Drop for Claim` -/
def release (p : Process) (sig : Int) : Process :=
  { p with claimed := p.claimed &&& ~~~ bit sig }

/-! ### The mask -/

/-- The thread's mask has `sig` blocked, or has it no longer. -/
def setMask (p : Process) (thread : Nat) (sig : Int) (blocked : Bool) : Process :=
  { p with mask := Function.update p.mask thread (Function.update (p.mask thread) sig blocked) }

/-- `block_one`: whether the signal was blocked before. -/
def blockOne (p : Process) (thread : Nat) (sig : Int) (status : Int) :
    Process × Except Error Bool :=
  if status ≠ 0 then (p, .error (.kernel status))
  else (setMask p thread sig true, .ok (p.mask thread sig))

/-- `unblock_one` -/
def unblockOne (p : Process) (thread : Nat) (sig : Int) (status : Int) :
    Process × Except Error Unit :=
  if status ≠ 0 then (p, .error (.kernel status)) else (setMask p thread sig false, .ok ())

/-- `restore_mask` -/
def restoreMask (p : Process) (thread : Nat) (sig : Int) (wasBlocked : Bool) (status : Int) :
    Process × Except Error Unit :=
  if wasBlocked then (p, .ok ()) else unblockOne p thread sig status

/-! ### `platform`, for Linux -/

/-- `create`: a new descriptor, if the kernel has one. -/
def create (answer : Except Int Nat) : Except Error Nat :=
  match answer with
  | .ok fd => .ok fd
  | .error errno => .error (.kernel errno)

/-- `arm` -/
def arm (p : Process) (thread : Nat) (sig : Int) (k : Answers) : Process × Except Error Nat :=
  match blockOne p thread sig k.block with
  | (p, .error e) => (p, .error e)
  | (p, .ok wasBlocked) =>
    match p.fds sig with
    | some existing => (p, .ok existing)
    | none =>
      match create k.signalfd with
      | .ok fd => ({ p with fds := Function.update p.fds sig (some fd) }, .ok fd)
      -- The result of `restore_mask` is ignored.
      | .error e => ((restoreMask p thread sig wasBlocked k.unblock).1, .error e)

/-- `committed`: the signal stays blocked. -/
def committed (_sig : Int) : Except Error Unit := .ok ()

/-- `disarm`: the block outlives the waiter. -/
def disarm (p : Process) (_sig : Int) : Process := p

/-! ### `Signal` -/

/-- `Signal::new`, on the thread `thread`. -/
def new (p : Process) (thread : Nat) (kind : Int) (k : Answers) :
    Process × Except Error Waiter :=
  match acquire p kind with
  | (p, .error e) => (p, .error e)
  | (p, .ok ()) =>
    match arm p thread kind k with
    | (p, .error e) => (release p kind, .error e)
    | (p, .ok fd) =>
      match k.register with
      | .error errno => (release (disarm p kind) kind, .error (.kernel errno))
      | .ok () =>
        match committed kind with
        | .error e => (release (disarm p kind) kind, .error e)
        | .ok () => ({ p with waiters := p.waiters ++ [⟨kind, fd⟩] }, .ok ⟨kind, fd⟩)

/-- `Drop for Signal`, and then the drop of its claim. -/
def drop (p : Process) (i : Nat) : Option Process :=
  match p.waiters[i]? with
  | none => none
  | some waiter =>
    let p := { p with waiters := p.waiters.eraseIdx i }
    some (release (disarm p waiter.kind) waiter.kind)

/-- One thing that happens in the process. -/
inductive Op where
  | new (thread : Nat) (kind : Int) (k : Answers)
  | drop (i : Nat)
  /-- The program blocks or unblocks a signal on a thread. -/
  | mask (thread : Nat) (sig : Int) (blocked : Bool)

/-- The process after an operation. -/
def step (p : Process) : Op → Option Process
  | .new thread kind k => some (new p thread kind k).1
  | .drop i => drop p i
  | .mask thread sig blocked => some (setMask p thread sig blocked)

/-- The runs of a process that starts with no waiter. -/
def system : Lts Process Op where
  init p := ∃ mask, p = { mask, claimed := 0, fds := fun _ => none, waiters := [] }
  next := step

/-- What may happen after `p`. -/
def after (p : Process) : Lts Process Op where
  init p' := p' = p
  next := step

end Nagoya.Signal
