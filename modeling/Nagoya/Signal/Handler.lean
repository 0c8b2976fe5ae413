import Nagoya.Lib.Lts

/-!
# `Nagoya.Signal.Handler`: waiters for signals, on the BSDs

Without `signalfd` a `Signal` is a handler that writes the signal's number into a pipe. The model
is about one number. `Signal::new` builds the pipe, publishes its write end, and puts the handler
in the place of the program's own action. Its drop takes the write end away, goes through `SIG_IGN`
and puts the program's action back. Every atomic access and every call of the kernel is a step of
its own, on the thread that runs the call, but for the flags of a new pipe: its six `fcntl` are one
step, and so are the two `close` when they fail, since nobody else knows the pipe yet. The handler
interrupts a thread between any two of its steps, and may stay inside for as long as it likes. A
call that fails sets `errno`, and that is the error the code reads.

A signal is sent to the process or to one thread, and is pending until a thread that has it
unblocked takes it. The kernel discards what is pending when the action becomes `SIG_IGN`. While it
is `SIG_IGN`, the kernel may discard a signal that is sent or keep it. The kernel gives out any
descriptor number that is not open, and the program opens and closes descriptors of its own.

The program changes its action only while no call and no waiter has the number. The calls whose
result `disarm` ignores succeed, since the kernel took the same number before. The registration
with the reactor is an answer here.
-/

set_option autoImplicit false

namespace Nagoya.Signal.Handler

open Nagoya.Lib

/-- What happens when a thread takes the signal. The program's own actions are numbered. -/
inductive Disposition where
  | program (action : Nat)
  /-- `write_signal` -/
  | handler
  | ignore
  deriving DecidableEq, Repr

/-- What a descriptor number names. -/
inductive File where
  | closed
  | read (pipe : Nat)
  | write (pipe : Nat)
  /-- A file of the program. -/
  | other
  deriving DecidableEq, Repr

/-- The next instruction of `write_signal`. -/
inductive FramePc where
  | load
  | write (fd : Nat)
  | leave
  deriving DecidableEq, Repr

/-- An invocation of `write_signal`, with the `errno` that it saved. -/
structure Frame where
  errno : Int
  pc : FramePc
  deriving DecidableEq, Repr

/-- What `disarm` holds in its locals. `error` is what `Signal::new` will return, when it is the
caller. -/
structure Disarm where
  error : Option Int
  saved : Disposition
  wasBlocked : Bool
  write : Option Nat
  deriving DecidableEq, Repr

/-- The next step of `Signal::new` or of `Drop for Signal`. The numbers are the read end and the
write end. -/
inductive Pc where
  | acquire
  /-- `ensure_pipe` loads the write end. -/
  | ensurePipe
  | pipe
  /-- The calls of `set_nonblock_cloexec`. -/
  | setFlags (read write : Nat)
  /-- The two ends are closed. -/
  | close (read write : Nat) (error : Int)
  | storeRead (read write : Nat)
  | publish (write : Nat)
  | loadRead
  | sigaction (read : Nat)
  | save (read : Nat) (previous : Disposition)
  | register (read : Nat)
  /-- `disarm` takes the saved action. -/
  | take (error : Option Int)
  | block (error : Option Int) (saved : Disposition)
  | swap (d : Disarm)
  | ignore (d : Disarm)
  | unblock (d : Disarm)
  | reblock (d : Disarm)
  | restore (d : Disarm)
  | republish (d : Disarm)
  | restoreMask (d : Disarm)
  /-- `Drop for Claim` -/
  | release (error : Option Int)
  deriving DecidableEq, Repr

/-- A thread: whether it has the signal blocked, its `errno`, a signal that is pending for it, the
invocation of the handler that interrupts it, the call it is in, and what its last `Signal::new`
returned. `ownBlocked` records what the program itself last made of the mask, and `ownErrno` what
the thread's own code, the program's and that of these calls but not the handler's, last made of
`errno`. A pending signal records whether it was sent while the action was the handler. -/
structure Thread where
  blocked : Bool
  ownBlocked : Bool
  errno : Int
  ownErrno : Int
  pending : Option Bool
  frame : Option Frame
  call : Option Pc
  returned : Option (Except Int Nat)
  deriving DecidableEq, Repr

/-- A call of the kernel fails on the thread. -/
def Thread.fail (th : Thread) (errno : Int) : Thread := { th with errno, ownErrno := errno }

/-- What is pending for the thread is discarded. -/
def Thread.discard (th : Thread) : Thread := { th with pending := none }

/-- The state of the process, as far as one signal goes. -/
structure State where
  disposition : Disposition
  /-- The program's own action, as it last set it. -/
  own : Nat
  /-- `PIPES[sig]` -/
  read : Option Nat
  write : Option Nat
  /-- `SAVED[sig]` -/
  saved : Option Disposition
  /-- The bit of the number in `CLAIMED`. -/
  claimed : Bool
  /-- The waiters that exist, each by its descriptor. -/
  waiters : List Nat
  files : Nat → File
  /-- The bytes in each pipe, and how many pipes were made. -/
  pipes : Nat → List UInt8
  made : Nat
  /-- A signal that is pending for the process. -/
  pending : Option Bool
  threads : List Thread
  /-- The actions of the program that were taken, each with the record of its signal. -/
  taken : List (Nat × Bool)
  /-- How many signals the handler took, and what `recv` returned. -/
  handled : Nat
  received : List Int
  /-- The invocations that found no write end, a full pipe, or a descriptor that is no write end of
  a pipe. -/
  gaveUp : Nat
  full : Nat
  stray : Nat

/-- The number of the signal, and how many bytes a pipe holds. -/
structure Config where
  sig : Int
  capacity : Nat

/-- The answer of the kernel, or of the reactor, to a call. -/
inductive Answer where
  | ok
  | failed (errno : Int)
  | ends (read write : Nat)
  deriving DecidableEq, Repr

/-- One step of one party. -/
inductive Action where
  /-- A thread calls `Signal::new`. -/
  | new (t : Nat)
  /-- A thread drops the waiter at `i`. -/
  | drop (t i : Nat)
  /-- The next step of the call that a thread is in. -/
  | advance (t : Nat) (answer : Answer)
  /-- The next instruction of the handler on a thread. -/
  | handler (t : Nat)
  /-- A signal is sent to the process or to a thread. -/
  | send (thread : Option Nat) (kept : Bool)
  /-- A thread takes a pending signal, its own or the one of the process. -/
  | take (t : Nat) (directed : Bool)
  /-- `Recv::poll` of the waiter at `i` reads a byte. -/
  | recv (i : Nat)
  /-- The program sets its own action, a mask, or an `errno`. -/
  | setAction (action : Nat)
  | setMask (t : Nat) (blocked : Bool)
  | setErrno (t : Nat) (errno : Int)
  /-- A thread starts another one, which inherits its mask. -/
  | spawn (t : Nat)
  /-- The program opens or closes a file of its own. -/
  | openFile (fd : Nat)
  | closeFile (fd : Nat)
  deriving DecidableEq, Repr

/-- `EBADF`, `EBUSY`, `EINVAL` and `EAGAIN` -/
def ebadf : Int := 9
def ebusy : Int := 16
def einval : Int := 22
def eagain : Int := 35

/-- The numbers that `Claim::acquire` takes: 1 to 31 without `SIGKILL` and `SIGSTOP`. -/
def valid (sig : Int) : Bool := 1 ≤ sig ∧ sig < 32 ∧ sig ≠ 9 ∧ sig ≠ 17

/-- `sig as u8` -/
def byte (sig : Int) : UInt8 := UInt8.ofNat sig.toNat

namespace State

/-- The thread `t` is now `th`. -/
def setThread (s : State) (t : Nat) (th : Thread) : State :=
  { s with threads := s.threads.set t th }

/-- The descriptor `fd` now names `file`. -/
def setFile (s : State) (fd : Nat) (file : File) : State :=
  { s with files := Function.update s.files fd file }

/-- The pipe `p` now has the bytes `bytes`. -/
def setPipe (s : State) (p : Nat) (bytes : List UInt8) : State :=
  { s with pipes := Function.update s.pipes p bytes }

/-- The thread goes on to `pc` in its call. -/
def goto (s : State) (t : Nat) (th : Thread) (pc : Pc) : State :=
  s.setThread t { th with call := some pc }

/-- The action becomes `SIG_IGN`, and the kernel discards what is pending. -/
def discard (s : State) : State :=
  { s with disposition := .ignore, pending := none, threads := s.threads.map Thread.discard }

/-- The call of the thread is over. -/
def leave (s : State) (t : Nat) (th : Thread) (returned : Option (Except Int Nat)) : State :=
  s.setThread t { th with call := none, returned }

end State

/-! ### The handler -/

/-- The next instruction of `write_signal` on the thread `t`. -/
def writeSignal (c : Config) (s : State) (t : Nat) (th : Thread) (f : Frame) : State :=
  match f.pc with
  | .load =>
    let giveUp :=
      { s with gaveUp := s.gaveUp + 1 }.setThread t
        { th with frame := some { f with pc := .leave } }
    if 1 ≤ c.sig ∧ c.sig < 32 then
      match s.write with
      | some fd => s.setThread t { th with frame := some { f with pc := .write fd } }
      | none => giveUp
    else giveUp
  | .write fd =>
    let left := { th with frame := some { f with pc := .leave } }
    match s.files fd with
    | .write p =>
      if (s.pipes p).length < c.capacity then
        (s.setPipe p (s.pipes p ++ [byte c.sig])).setThread t left
      else { s with full := s.full + 1 }.setThread t { left with errno := eagain }
    | .closed => { s with stray := s.stray + 1 }.setThread t { left with errno := ebadf }
    | _ => { s with stray := s.stray + 1 }.setThread t left
  | .leave => s.setThread t { th with errno := f.errno, frame := none }

/-- A thread takes the signal, and what is to happen does. -/
def dispatch (s : State) (t : Nat) (th : Thread) (record : Bool) : State :=
  match s.disposition with
  | .program action => { s with taken := s.taken ++ [(action, record)] }.setThread t th
  | .handler =>
    { s with handled := s.handled + 1 }.setThread t { th with frame := some ⟨th.errno, .load⟩ }
  | .ignore => s.setThread t th

/-! ### The calls -/

/-- The next step of `Signal::new` or of `Drop for Signal`. -/
def advance (c : Config) (s : State) (t : Nat) (th : Thread) : Pc → Answer → Option State
  | .acquire, .ok =>
    if !valid c.sig then some (s.leave t th (some (.error einval)))
    else if s.claimed then some (s.leave t th (some (.error ebusy)))
    else some ({ s with claimed := true }.goto t th .ensurePipe)
  | .ensurePipe, .ok =>
    match s.write with
    | some existing => some (s.goto t th (.publish existing))
    | none => some (s.goto t th .pipe)
  | .pipe, .ends r w =>
    if s.files r = .closed ∧ s.files w = .closed ∧ r ≠ w then
      some (({ s with made := s.made + 1 }.setPipe s.made [] |>.setFile r (.read s.made)
        |>.setFile w (.write s.made)).goto t th (.setFlags r w))
    else none
  | .pipe, .failed e => some (s.goto t (th.fail e) (.release (some e)))
  | .setFlags r w, .ok => some (s.goto t th (.storeRead r w))
  | .setFlags r w, .failed e => some (s.goto t (th.fail e) (.close r w e))
  | .close r w e, .ok =>
    some ((s.setFile r .closed |>.setFile w .closed).goto t th (.release (some e)))
  | .storeRead r w, .ok => some ({ s with read := some r }.goto t th (.publish w))
  | .publish w, .ok => some ({ s with write := some w }.goto t th .loadRead)
  | .loadRead, .ok =>
    match s.read with
    | some r => some (s.goto t th (.sigaction r))
    | none => some (s.goto t th (.release (some ebadf)))
  | .sigaction r, .ok =>
    some ({ s with disposition := .handler }.goto t th (.save r s.disposition))
  | .sigaction _, .failed e => some (s.goto t (th.fail e) (.release (some e)))
  | .save r previous, .ok => some ({ s with saved := some previous }.goto t th (.register r))
  | .register r, .ok =>
    some ({ s with waiters := s.waiters ++ [r] }.leave t th (some (.ok r)))
  | .register _, .failed e => some (s.goto t (th.fail e) (.take (some e)))
  | .take e, .ok =>
    match s.saved with
    | some saved => some ({ s with saved := none }.goto t th (.block e saved))
    | none => some (s.goto t th (.release e))
  | .block e saved, .ok =>
    some (s.goto t { th with blocked := true } (.swap ⟨e, saved, th.blocked, none⟩))
  -- A block that failed counts as one that was there.
  | .block e saved, .failed errno =>
    some (s.goto t (th.fail errno) (.swap ⟨e, saved, true, none⟩))
  | .swap d, .ok => some ({ s with write := none }.goto t th (.ignore { d with write := s.write }))
  | .ignore d, .ok =>
    some (s.discard.goto t th.discard (if d.wasBlocked then .restore d else .unblock d))
  | .unblock d, .ok => some (s.goto t { th with blocked := false } (.reblock d))
  | .reblock d, .ok => some (s.goto t { th with blocked := true } (.restore d))
  | .restore d, .ok => some ({ s with disposition := d.saved }.goto t th (.republish d))
  | .republish d, .ok =>
    match d.write with
    | some w => some ({ s with write := some w }.goto t th (.restoreMask d))
    | none => some (s.goto t th (.restoreMask d))
  | .restoreMask d, .ok =>
    if d.wasBlocked then some (s.goto t th (.release d.error))
    else some (s.goto t { th with blocked := false } (.release d.error))
  | .release e, .ok =>
    -- A drop returns nothing.
    some ({ s with claimed := false }.leave t th (e.map .error))
  | _, _ => none

/-! ### The process -/

/-- A signal that was pending already takes in another one. -/
def merge (pending : Option Bool) (record : Bool) : Option Bool :=
  some (pending.getD false || record)

/-- A signal is sent. -/
def send (s : State) (thread : Option Nat) (kept : Bool) : Option State :=
  if s.disposition = .ignore ∧ !kept then some s
  else
    let record := decide (s.disposition = .handler)
    match thread with
    | none => some { s with pending := merge s.pending record }
    | some t => do
      let th ← s.threads[t]?
      some (s.setThread t { th with pending := merge th.pending record })

/-- A thread takes a pending signal. It has the signal unblocked, and is not inside the handler,
which runs with the signal blocked. -/
def take (s : State) (t : Nat) (directed : Bool) : Option State := do
  let th ← s.threads[t]?
  if th.blocked = false ∧ th.frame = none then
    if directed then
      let record ← th.pending
      some (dispatch s t { th with pending := none } record)
    else
      let record ← s.pending
      some (dispatch { s with pending := none } t th record)
  else none

/-- `read_one` on the descriptor of a waiter, when there is a byte. -/
def recv (s : State) (i : Nat) : Option State := do
  let fd ← s.waiters[i]?
  match s.files fd with
  | .read p =>
    match s.pipes p with
    | b :: rest => some { s.setPipe p rest with received := s.received ++ [(b.toNat : Int)] }
    | [] => none
  | _ => none

/-- The thread `t`, when the program's code runs on it: the handler does not interrupt it. -/
def running (s : State) (t : Nat) : Option Thread := do
  let th ← s.threads[t]?
  if th.frame = none then some th else none

/-- The thread `t`, when it is in none of the calls. -/
def outside (s : State) (t : Nat) : Option Thread := do
  let th ← running s t
  if th.call = none then some th else none

/-- The step function. -/
def step (c : Config) (s : State) : Action → Option State
  | .new t => do
    let th ← outside s t
    some (s.goto t th .acquire)
  | .drop t i => do
    let th ← outside s t
    let _ ← s.waiters[i]?
    some ({ s with waiters := s.waiters.eraseIdx i }.goto t th (.take none))
  | .advance t answer => do
    let th ← running s t
    let pc ← th.call
    advance c s t th pc answer
  | .handler t => do
    let th ← s.threads[t]?
    let f ← th.frame
    some (writeSignal c s t th f)
  | .send thread kept => send s thread kept
  | .take t directed => take s t directed
  | .recv i => recv s i
  | .setAction action =>
    if s.claimed then none else some { s with disposition := .program action, own := action }
  | .setMask t blocked => do
    let th ← outside s t
    some (s.setThread t { th with blocked, ownBlocked := blocked })
  | .setErrno t errno => do
    let th ← running s t
    some (s.setThread t { th with errno, ownErrno := errno })
  | .spawn t => do
    let th ← outside s t
    some { s with threads := s.threads ++ [{ th with pending := none, returned := none }] }
  | .openFile fd => if s.files fd = .closed then some (s.setFile fd .other) else none
  | .closeFile fd => if s.files fd = .other then some (s.setFile fd .closed) else none

/-- A thread with nothing pending. -/
def Thread.new (blocked : Bool) (errno : Int) : Thread :=
  { blocked, ownBlocked := blocked, errno, ownErrno := errno
    pending := none, frame := none, call := none, returned := none }

/-- A process before any `Signal::new`, with the program's action and files and with threads of any
masks. -/
def new (action : Nat) (files : Nat → File) (threads : List Thread) : State :=
  { disposition := .program action, own := action, read := none, write := none, saved := none
    claimed := false, waiters := [], files, pipes := fun _ => [], made := 0, pending := none
    threads, taken := [], handled := 0, received := [], gaveUp := 0, full := 0, stray := 0 }

/-- The system of one signal. -/
def system (c : Config) : Lts State Action where
  init s := ∃ action files threads, (∀ fd, files fd = .closed ∨ files fd = .other) ∧
    (∀ th ∈ threads, ∃ blocked errno, th = Thread.new blocked errno) ∧
    s = new action files threads
  next := step c

end Nagoya.Signal.Handler
