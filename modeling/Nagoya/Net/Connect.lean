import Nagoya.Lib.Record
import Nagoya.Reactor.Descriptors
import Nagoya.Reactor.Driver
import Nagoya.Reactor.SocketAddr

/-!
# `Nagoya.Net.Connect`: connecting to the first address that answers

`connect_any` tries the addresses of a host one after the other. An attempt is
`TcpStream::connect`: it opens a socket, calls `connect`, turns Nagle off, registers the
descriptor, and waits for the handshake with the future `Connected`. An attempt that fails is
dropped before the next one begins, and its error is kept for the end.

The system is one call, the reactor, the network, and everybody else who opens and registers
descriptors. The reactor's side is that of `Nagoya.Reactor.Descriptors`: an attempt is one of its
owners, and the call opens, registers and drops it by the steps of that system. The others take
any steps of it on their own owners.

Every system call and every lock section is one step, and the label of a step has the kernel's
answer. The kernel keeps the handshake of the attempt. It answers `SO_ERROR` and `getpeername`
from it, and the network moves it. An `AF_UNIX` connect does not go in flight.

A task may be polled again with any waker, when it was woken and also when nobody woke it.

`asked` has the addresses that were given to `connect`. Nothing reads it. The other records are not
in the state. `failures` is what the kernel and the network told the call, read off the labels of a
run, and `ledger` says who changed each number, each entry of the poller and each slot last.
-/

set_option autoImplicit false

namespace Nagoya.Reactor

namespace Os

/-- `EINPROGRESS` -/
def einprogress : Os → Int
  | linux => 115
  | _ => 36

/-- `ECONNREFUSED` -/
def econnrefused : Os → Int
  | linux => 111
  | _ => 61

/-- `ENETUNREACH` -/
def enetunreach : Os → Int
  | linux => 101
  | _ => 51

/-- `EHOSTUNREACH` -/
def ehostunreach : Os → Int
  | linux => 113
  | _ => 65

/-- `EAFNOSUPPORT` -/
def eafnosupport : Os → Int
  | linux => 97
  | _ => 47

end Os

/-- `Addr::family` -/
def Addr.family {os : Os} : Addr os → Nat
  | .v4 .. => Os.afInet
  | .v6 .. | .v6Scoped .. => os.afInet6
  | .path _ => Os.afUnix

/-- `matches!(addr, Addr::Path(_))` -/
def Addr.isPath {os : Os} : Addr os → Bool
  | .path _ => true
  | _ => false

/-- The owner that a step is about. A new owner has no place yet. -/
def Descriptors.Action.owner : Descriptors.Action → Option Nat
  | .openAt .. | .acquire _ => none
  | .arm i | .create i _ | .abandon i | .add i _ | .drop i | .advance i => some i

end Nagoya.Reactor

namespace Nagoya.Net

open Nagoya.Lib Nagoya.Reactor

namespace Connect

/-- `Errno`: the number of an error. -/
abbrev Errno := Int

/-- `unreachable_family`: this machine cannot reach addresses of the family at all. -/
def unreachableFamily (os : Os) (error : Errno) : Bool :=
  error == os.enetunreach || error == os.ehostunreach || error == os.eafnosupport

/-- What the kernel knows of the handshake of the attempt. The error of a failed one waits in
`SO_ERROR` until it is read. -/
inductive Handshake where
  | none
  | inFlight
  | established
  | failed (error : Errno)
  deriving DecidableEq, Repr

/-- What `SO_ERROR` has for a handshake. -/
def Handshake.pending : Handshake → Option Errno
  | .failed error => some error
  | _ => .none

/-- The next step of the call. `closing` drops an attempt that failed, and `dropping` the attempt
of a call that is itself dropped. -/
inductive Pc where
  | unpolled
  | next
  | socket
  | connect
  | nodelay
  | register
  | sendBuffer
  | soError
  | peerAddr
  | park
  | wakeSelf
  | idle
  | closing (error : Errno)
  | done (result : Except Errno Nat)
  | dropping
  | dropped
  deriving DecidableEq, Repr

/-- One call, the reactor, and the kernel's side of the attempt. `fallback` and
`aboutTheService` are the locals of `connect_any`, `tried` says how far its loop is, `owner` is
the attempt's place among the owners, and `slot` is that of its registration. `made` has the places
of all its attempts, and `waker` is that of the last poll. -/
structure State (os : Os) where
  reactor : Descriptors.State
  handshake : Handshake
  slot : Wakers
  fallback : Errno
  aboutTheService : Option Errno
  tried : Nat
  owner : Nat
  connecting : Bool
  sendCapacity : Nat
  pc : Pc
  waker : Waker
  woken : Bool
  waking : List Waker
  asked : List (Addr os)
  made : List Nat

/-- One step. `repoll` is a poll that nobody asked for. `settle` and `reset` are the network's, and
`other` is a step of somebody else. -/
inductive Action where
  | poll (waker : Waker)
  | repoll (waker : Waker)
  | next
  | socket (answer : Except Errno Nat)
  | connect (error : Option Errno)
  | nodelay (error : Option Errno)
  | register
  | add (error : Option Errno)
  | sendBuffer (size : Option Nat)
  | soError (fault : Option Errno)
  | peerAddr
  | park
  | wakeSelf
  | close
  | cancel
  | settle (error : Option Errno)
  | reset (error : Errno)
  | dispatch (event : Readiness)
  | wake (i : Nat)
  | other (act : Descriptors.Action)

section
variable {os : Os}

/-- The call is over: it has returned, or it was dropped. -/
def Pc.over : Pc → Bool
  | .done _ | .dropped => true
  | _ => false

/-- The waker of the task is woken. -/
def State.wakeTask (s : State os) (waker : Waker) : State os :=
  if waker = s.waker then { s with woken := true } else s

/-- What `connect_any` does with the error of an attempt. -/
def State.fail (s : State os) (error : Errno) : State os :=
  let about :=
    if s.aboutTheService.isNone && !unreachableFamily os error then some error
    else s.aboutTheService
  { s with
    aboutTheService := about
    fallback := error
    tried := s.tried + 1
    pc := .next }

/-- The first step of `Connected::poll`: nothing may have been in flight. -/
def State.connected (s : State os) : State os :=
  if s.connecting then { s with pc := .soError } else { s with pc := .done (.ok s.owner) }

/-- A step of the reactor's system that the call takes, and where the call goes on. -/
def State.reactorStep (s : State os) (backend : Descriptors.Backend) (act : Descriptors.Action)
    (pc : Pc) : Option (State os) :=
  match Descriptors.step backend s.reactor act with
  | none => none
  | some reactor => some { s with reactor, pc }

/-- `TcpSocket::connect` after the socket is there. A handshake that goes in flight is not a
failure, and `TCP_NODELAY` is not asked for on an `AF_UNIX` socket. -/
def connect (backend : Descriptors.Backend) (s : State os) (addr : Addr os)
    (error : Option Errno) : Option (State os) :=
  let s := { s with asked := s.asked ++ [addr] }
  let pc := if addr.family ≠ Os.afUnix then .nodelay else .register
  match error with
  | none => some { s with handshake := .established, pc }
  | some error =>
    if error ≠ os.einprogress then s.reactorStep backend (.abandon s.owner) (.closing error)
    -- An `AF_UNIX` connect succeeds or fails at once.
    else if addr.family = Os.afUnix then none
    else some { s with handshake := .inFlight, pc }

/-- The end of `Handle::register`, and what `from_socket` does after it. The poller's answer is
`none` when it takes the descriptor. -/
def add (backend : Descriptors.Backend) (s : State os) (error : Option Errno) :
    Option (State os) :=
  match Descriptors.step backend s.reactor (.add s.owner error.isSome), error with
  | none, _ => none
  | some reactor, some error => some { s with reactor, pc := .closing error }
  | some reactor, none =>
    match reactor.owners[s.owner]? with
    | none => none
    -- The poller refuses a number that is closed or in the set, and says so.
    | some o => if o.phase = .live then some { s with reactor, pc := .sendBuffer } else none

/-- The next step of the drop of the attempt. When there is none left, a failed attempt hands its
error to `connect_any`. -/
def close (backend : Descriptors.Backend) (s : State os) : Option (State os) :=
  match s.reactor.owners[s.owner]? with
  | none => none
  | some o =>
    match s.pc with
    | .closing error =>
      if o.phase = .dropping [] then some (s.fail error)
      else s.reactorStep backend (.advance s.owner) (.closing error)
    | .dropping =>
      if o.phase = .dropping [] then some { s with pc := .dropped }
      else s.reactorStep backend (.advance s.owner) .dropping
    | _ => none

/-- The step function of a call with these addresses. -/
def step (backend : Descriptors.Backend) (addrs : List (Addr os)) (s : State os) :
    Action → Option (State os)
  | .poll waker =>
    match s.pc, s.woken with
    | .unpolled, _ => some { s with waker, woken := false, pc := .next }
    | .idle, true => some { s with waker, woken := false }.connected
    | _, _ => none
  | .repoll waker =>
    match s.pc with
    | .idle => some { s with waker, woken := false }.connected
    | _ => none
  | .next =>
    match s.pc with
    | .next =>
      match addrs[s.tried]? with
      | some _ => some { s with pc := .socket }
      | none => some { s with pc := .done (.error (s.aboutTheService.getD s.fallback)) }
    | _ => none
  | .socket answer =>
    match s.pc, answer with
    | .socket, .error error => some (s.fail error)
    | .socket, .ok fd =>
      let owner := s.reactor.owners.length
      let s' := { s with owner, handshake := .none, made := s.made ++ [owner] }
      s'.reactorStep backend (.openAt .tcpStream fd) .connect
    | _, _ => none
  | .connect error =>
    match s.pc, addrs[s.tried]? with
    | .connect, some addr => connect backend s addr error
    | _, _ => none
  | .nodelay error =>
    match s.pc, error with
    | .nodelay, none => some { s with pc := .register }
    | .nodelay, some error => s.reactorStep backend (.abandon s.owner) (.closing error)
    | _, _ => none
  | .register =>
    match s.pc, s.reactor.owners[s.owner]? with
    | .register, some o =>
      -- The slot is made with the index, and goes into the map in the section after it.
      if o.phase = .inserted then none
      else { s with slot := .registered }.reactorStep backend (.advance s.owner) .register
    | _, _ => none
  | .add error =>
    match s.pc with
    | .register => add backend s error
    | _ => none
  | .sendBuffer size =>
    match s.pc, addrs[s.tried]? with
    | .sendBuffer, some addr =>
      -- `connect_started` sets `connecting` for every address but a path.
      some { s with sendCapacity := size.getD 0, connecting := !addr.isPath }.connected
    | _, _ => none
  | .soError fault =>
    match s.pc with
    | .soError =>
      match fault.or s.handshake.pending with
      | none => some { s with pc := .peerAddr }
      | some error =>
        { s with handshake := .none }.reactorStep backend (.drop s.owner) (.closing error)
    | _ => none
  | .peerAddr =>
    match s.pc with
    | .peerAddr =>
      if s.handshake = .established then
        some { s with connecting := false, pc := .done (.ok s.owner) }
      else some { s with pc := .park }
    | _ => none
  | .park =>
    match s.pc with
    | .park =>
      let (slot, ready) := s.slot.pollWritable s.waker
      some { s with slot, pc := if ready then .wakeSelf else .idle }
    | _ => none
  | .wakeSelf =>
    match s.pc with
    | .wakeSelf => some ({ s with pc := .idle }.wakeTask s.waker)
    | _ => none
  | .close => close backend s
  | .cancel =>
    match s.pc with
    | .unpolled => some { s with pc := .dropped }
    | .idle => s.reactorStep backend (.drop s.owner) .dropping
    | _ => none
  | .settle error =>
    if s.handshake = .inFlight ∧ s.pc.over = false then
      some { s with handshake := error.elim .established .failed }
    else none
  | .reset error =>
    if s.handshake = .established ∧ s.pc.over = false then
      some { s with handshake := .failed error }
    else none
  | .dispatch event =>
    let (slot, wakers) := s.slot.dispatch event
    some { s with slot, waking := s.waking ++ wakers }
  | .wake i =>
    match s.waking[i]? with
    | none => none
    | some waker => some ({ s with waking := s.waking.eraseIdx i }.wakeTask waker)
  | .other act =>
    match act.owner with
    | some i => if i ∈ s.made then none else s.reactorStep backend act s.pc
    | none => s.reactorStep backend act s.pc

/-- A call that was not polled yet, beside the owners of others. -/
def new (os : Os) (reactor : Descriptors.State) : State os :=
  { reactor
    handshake := .none
    slot := .registered
    fallback := os.econnrefused
    aboutTheService := none
    tried := 0
    owner := 0
    connecting := false
    sendCapacity := 0
    pc := .unpolled
    waker := 0
    woken := false
    waking := []
    asked := []
    made := [] }

/-- The system of one call. It is made while the reactor is in any state that it can reach. -/
def system (backend : Descriptors.Backend) (addrs : List (Addr os)) : Lts (State os) Action where
  init s := ∃ reactor, (Descriptors.system backend).Reachable reactor ∧ s = new os reactor
  next := step backend addrs

/-! ### The records of a run -/

/-- What the call was told: the error that waits in `SO_ERROR`, and the errors of its attempts so
far. -/
structure Told where
  pending : Option Errno
  failures : List Errno
  deriving DecidableEq, Repr

/-- An attempt was given an error. -/
def Told.fail (t : Told) (error : Errno) : Told := { t with failures := t.failures ++ [error] }

/-- What a step adds to it. A handshake in flight is no error, and one that fails is told when
`SO_ERROR` is read. -/
def Told.next (os : Os) (t : Told) : Action → Told
  | .socket (.ok _) => { t with pending := none }
  | .socket (.error error) => t.fail error
  | .connect (some error) => if error = os.einprogress then t else t.fail error
  | .nodelay (some error) | .add (some error) => t.fail error
  | .settle (some error) | .reset error => { t with pending := some error }
  | .soError fault =>
    match fault.or t.pending with
    | none => t
    | some error => { t with pending := none }.fail error
  | _ => t

/-- The errors of the attempts in a run with these labels. -/
def failures (os : Os) (labels : List Action) : List Errno :=
  (labels.foldl (Told.next os) { pending := none, failures := [] }).failures

/-- The call, and everybody else on its reactor. -/
inductive Party where
  | call
  | others
  deriving DecidableEq, Repr

/-- Who takes a step. The network changes nothing that a `Ledger` is about. -/
def Action.party : Action → Party
  | .other _ => .others
  | _ => .call

/-- Who changed each descriptor number, each entry of the poller and each slot of the map last. -/
structure Ledger where
  isOpen : Nat → Option Party
  interest : Nat → Option Party
  slots : Nat → Option Party

/-- Nobody has changed anything since the call began. -/
def Ledger.new : Ledger :=
  { isOpen := fun _ => none
    interest := fun _ => none
    slots := fun _ => none }

/-- What a step adds to it. -/
def Ledger.next (l : Ledger) (s : State os) (act : Action) (s' : State os) : Ledger where
  isOpen := lastBy l.isOpen act.party s.reactor.kernel.isOpen s'.reactor.kernel.isOpen
  interest := lastBy l.interest act.party s.reactor.kernel.interest s'.reactor.kernel.interest
  slots := lastBy l.slots act.party s.reactor.slots s'.reactor.slots

/-- The ledger of a run with these labels. -/
def ledger (backend : Descriptors.Backend) (addrs : List (Addr os)) (s : State os)
    (labels : List Action) : Ledger :=
  (system backend addrs).record Ledger.next .new s labels

end

end Connect

end Nagoya.Net
