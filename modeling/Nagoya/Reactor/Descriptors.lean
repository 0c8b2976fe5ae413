import Nagoya.Lib.Lts
import Nagoya.Machine

/-!
# `Nagoya.Reactor.Descriptors`: descriptors, registrations and drops

The system is one reactor and any number of owners of a descriptor: `TcpStream`,
`TcpListener`, `UdpSocket`, the `Pipe` and the `Watch::Descriptor` of a child process, and
`Signal`. Each is made by opening a descriptor and calling `Handle::register`, and each drops
its fields in declaration order. Every system call, atomic operation and lock section is one
step, and the owners step in any order.

The kernel's side is the table of open numbers and the poller's map from a number to a token.
`close` frees the number and takes it out of the map, and any free number may be the next one
opened.

A `Signal` does not own its descriptor. The process keeps one for each signal number in `FDS`,
and `CLAIMED` has a bit for each number that has a waiter.
-/

set_option autoImplicit false

namespace Nagoya.Reactor

open Nagoya.Lib

/-- `GENERATION_SHIFT` -/
def generationShift : Nat := 48

/-- `make_token`, in 64 bits. -/
def makeToken (index generation : Nat) : Nat :=
  (generation <<< generationShift ||| index) % 2 ^ 64

namespace Descriptors

/-- The types that own a registration. A `Signal` has its signal number. -/
inductive Kind where
  | tcpStream
  | tcpListener
  | udpSocket
  | pipe
  | watch
  | signal (number : Nat)
  deriving DecidableEq, Repr

/-- A field of one of these types. `descriptor` closes what it owns when it is dropped, and
`plain` is a number or a flag. -/
inductive Field where
  | descriptor
  | registration
  | handle
  | claim
  | plain
  deriving DecidableEq, Repr

/-- The fields in declaration order, which is the order they are dropped in. -/
def Kind.fields : Kind → List Field
  -- `inner`, `registration`, `connecting`, `send_capacity`
  | .tcpStream => [.descriptor, .registration, .plain, .plain]
  -- `inner`, `registration`, `handle`
  | .tcpListener => [.descriptor, .registration, .handle]
  -- `registration`, then `inner`, `fd` and `_fd`
  | .udpSocket | .pipe | .watch => [.registration, .descriptor]
  -- `kind`, `registration`, `claim`, `fd`
  | .signal _ => [.plain, .registration, .claim, .plain]

/-- One atomic step of a drop. -/
inductive DropStep where
  | close
  | pollerRemove
  | slotsRemove
  | disarm
  | releaseClaim
  deriving DecidableEq, Repr

/-- What the drop of a field does. That of a registration takes the number out of the poller
and then the slot out of the map. -/
def Field.drop : Field → List DropStep
  | .descriptor => [.close]
  | .registration => [.pollerRemove, .slotsRemove]
  | .claim => [.releaseClaim]
  | .handle | .plain => []

/-- A type's own `Drop::drop`, which runs before those of its fields. -/
def Kind.dropSelf : Kind → List DropStep
  | .signal _ => [.disarm]
  | _ => []

/-- The whole drop of an owner. -/
def Kind.drop (kind : Kind) : List DropStep := kind.dropSelf ++ kind.fields.flatMap Field.drop

/-- What is undone when `Handle::register` fails: the socket or pipe is closed, and
`Signal::new` drops its claim. -/
def Kind.unregistered : Kind → List DropStep
  | .signal _ => [.disarm, .releaseClaim]
  | _ => [.close]

/-- How far an owner has come. The constructors up to `inserted` are `Signal::new` and
`Handle::register` on the way, and `live` is an owner with its registration. -/
inductive Phase where
  | claimed
  | created
  | opened
  | indexed
  | inserted
  | live
  | dropping (rest : List DropStep)
  deriving DecidableEq, Repr

/-- An owner. `fd`, `index` and `token` are those of its registration. -/
structure Owner where
  kind : Kind
  fd : Nat
  index : Nat
  token : Nat
  phase : Phase
  deriving DecidableEq, Repr

/-- The kernel's poller. They differ in an `add` of a number that is in the set: `epoll`
refuses it, and `kqueue` replaces the entry. -/
inductive Backend where
  | epoll
  | kqueue
  deriving DecidableEq, Repr

/-- The kernel's side: which numbers are open, and the poller's map. -/
structure Kernel where
  isOpen : Nat → Bool
  interest : Nat → Option Nat

/-- `open`, `socket`, `accept` and the like, with the number that the kernel picks. -/
def Kernel.openAt (k : Kernel) (fd : Nat) : Option Kernel :=
  if k.isOpen fd then none else some { k with isOpen := Function.update k.isOpen fd true }

/-- `close` -/
def Kernel.close (k : Kernel) (fd : Nat) : Kernel :=
  { isOpen := Function.update k.isOpen fd false
    interest := Function.update k.interest fd none }

/-- `Poller::add`. The kernel may refuse it for reasons of its own. -/
def Kernel.add (k : Kernel) (backend : Backend) (fd token : Nat) (refused : Bool) :
    Option Kernel :=
  if refused || !k.isOpen fd || (backend = .epoll && (k.interest fd).isSome) then none
  else some { k with interest := Function.update k.interest fd (some token) }

/-- `Poller::remove`. Its result is ignored by the caller. -/
def Kernel.remove (k : Kernel) (fd : Nat) : Kernel :=
  { k with interest := Function.update k.interest fd none }

/-- The kernel, the reactor's `next_index` and `slots`, the `FDS` and `CLAIMED` of signals, and
the owners. -/
structure State where
  kernel : Kernel
  nextIndex : Nat
  slots : Nat → Bool
  fds : Nat → Option Nat
  claimed : Nat → Bool
  owners : List Owner

/-- The signal numbers that `Claim::acquire` takes: 1 to 31 without `SIGKILL` and `SIGSTOP`. -/
def validSignal (number : Nat) : Bool := 1 ≤ number ∧ number < 32 ∧ number ≠ 9 ∧ number ≠ 19

/-- One step of one party. -/
inductive Action where
  /-- Someone opens a descriptor. -/
  | openAt (kind : Kind) (fd : Nat)
  /-- `Claim::acquire` -/
  | acquire (number : Nat)
  /-- `platform::arm` finds the number in `FDS`. -/
  | arm (i : Nat)
  /-- `platform::arm` finds nothing there and opens a descriptor, or fails to. -/
  | create (i : Nat) (fd : Option Nat)
  /-- The descriptor is dropped before it is registered. -/
  | abandon (i : Nat)
  /-- `Poller::add` of `Handle::register` -/
  | add (i : Nat) (refused : Bool)
  /-- The drop of a live owner begins. -/
  | drop (i : Nat)
  /-- Any other next step of an owner. -/
  | advance (i : Nat)
  deriving DecidableEq, Repr

/-- The owner at `i` is replaced. -/
def State.put (s : State) (i : Nat) (o : Owner) : State := { s with owners := s.owners.set i o }

/-- One step of the drop of `o`. -/
def dropStep (s : State) (o : Owner) : DropStep → State
  | .close => { s with kernel := s.kernel.close o.fd }
  | .pollerRemove => { s with kernel := s.kernel.remove o.fd }
  | .slotsRemove => { s with slots := Function.update s.slots o.index false }
  -- `platform::disarm` changes signal dispositions and masks only.
  | .disarm => s
  | .releaseClaim =>
    match o.kind with
    | .signal number => { s with claimed := Function.update s.claimed number false }
    | _ => s

/-- The next step of an owner that leaves no choice to the kernel. -/
def advance (s : State) (i : Nat) (o : Owner) : Option State :=
  match o.phase with
  | .created =>
    match o.kind with
    | .signal number =>
      some ({ s with fds := Function.update s.fds number (some o.fd) }.put i
        { o with phase := .opened })
    | _ => none
  | .opened =>
    some ({ s with nextIndex := (s.nextIndex + 1) % 2 ^ 64 }.put i
      { o with index := s.nextIndex, token := makeToken s.nextIndex 1, phase := .indexed })
  | .indexed =>
    some ({ s with slots := Function.update s.slots o.index true }.put i
      { o with phase := .inserted })
  | .dropping (step :: rest) => some ((dropStep s o step).put i { o with phase := .dropping rest })
  | _ => none

/-- The step function. -/
def step (backend : Backend) (s : State) : Action → Option State
  | .openAt kind fd =>
    match kind, s.kernel.openAt fd with
    | .signal _, _ | _, none => none
    | kind, some kernel =>
      some { s with
        kernel
        owners := s.owners ++ [{ kind, fd, index := 0, token := 0, phase := .opened }] }
  | .acquire number =>
    if validSignal number ∧ s.claimed number = false then
      some { s with
        claimed := Function.update s.claimed number true
        owners := s.owners ++
          [{ kind := .signal number, fd := 0, index := 0, token := 0, phase := .claimed }] }
    else none
  | .arm i =>
    match s.owners[i]? with
    | some o =>
      match o.phase, o.kind with
      | .claimed, .signal number =>
        match s.fds number with
        | some fd => some (s.put i { o with fd, phase := .opened })
        | none => none
      | _, _ => none
    | none => none
  | .create i fd =>
    match s.owners[i]? with
    | some o =>
      match o.phase, o.kind with
      | .claimed, .signal number =>
        match s.fds number, fd with
        | some _, _ => none
        | none, none => some (s.put i { o with phase := .dropping [.releaseClaim] })
        | none, some fd =>
          match s.kernel.openAt fd with
          | none => none
          | some kernel => some ({ s with kernel }.put i { o with fd, phase := .created })
      | _, _ => none
    | none => none
  | .abandon i =>
    match s.owners[i]? with
    | some o =>
      match o.phase, o.kind with
      | .opened, .signal _ => none
      | .opened, kind => some (s.put i { o with phase := .dropping kind.unregistered })
      | _, _ => none
    | none => none
  | .add i refused =>
    match s.owners[i]? with
    | some o =>
      match o.phase with
      | .inserted =>
        match s.kernel.add backend o.fd o.token refused with
        | some kernel => some ({ s with kernel }.put i { o with phase := .live })
        | none =>
          some (s.put i { o with phase := .dropping (.slotsRemove :: o.kind.unregistered) })
      | _ => none
    | none => none
  | .drop i =>
    match s.owners[i]? with
    | some o =>
      match o.phase with
      | .live => some (s.put i { o with phase := .dropping o.kind.drop })
      | _ => none
    | none => none
  | .advance i =>
    match s.owners[i]? with
    | some o => advance s i o
    | none => none

/-- A reactor with nothing registered. The numbers that are open belong to others. -/
def new (isOpen : Nat → Bool) : State :=
  { kernel := { isOpen, interest := fun _ => none }
    nextIndex := 0
    slots := fun _ => false
    fds := fun _ => none
    claimed := fun _ => false
    owners := [] }

/-- The system of one reactor and its owners. -/
def system (backend : Backend) : Lts State Action where
  init s := ∃ isOpen, s = new isOpen
  next := step backend

end Descriptors

end Nagoya.Reactor
