import Nagoya.Lib.Pool
import Nagoya.Net.Connect

/-!
# `Nagoya.Proofs.Net.Connect.Moves`: the steps of `connect_any`

`step_owners` and the lemmas after it say what a step of the reactor's system does to an owner.
`Move` lists the steps of the call, with what each of them needs, and `step_move` says that there
are no others. The invariants of `connect_any` are proved by cases on it. The first of them is
`Owns`: the owner of the open attempt is as far as the call says.
-/

set_option autoImplicit false

namespace Nagoya.Reactor.Descriptors

open Nagoya.Lib

/-! ### What a step does to the owners -/

theorem dropStep_owners (s : State) (o : Owner) (d : DropStep) :
    (dropStep s o d).owners = s.owners := by
  cases d with
  | releaseClaim =>
    simp only [dropStep]
    split <;> rfl
  | _ => rfl

/-- A step of a registration or of a drop is a step of one owner. -/
theorem advance_owners {s s' : State} {i : Nat} {o : Owner} (hs : advance s i o = some s') :
    ∃ n, s'.owners = s.owners.set i n := by
  unfold advance at hs
  split at hs
  · split at hs <;> cases hs
    exact ⟨_, rfl⟩
  · cases hs
    exact ⟨_, rfl⟩
  · cases hs
    exact ⟨_, rfl⟩
  · rename_i d rest hp
    cases hs
    exact ⟨{ o with phase := .dropping rest }, by simp [State.put, dropStep_owners]⟩
  · cases hs

/-- Every step appends an owner, or replaces the one that it is about. -/
theorem step_owners {s s' : State} {backend : Backend} {act : Action}
    (hs : step backend s act = some s') :
    (∃ o, s'.owners = s.owners ++ [o]) ∨
      ∃ i n, act.owner = some i ∧ s'.owners = s.owners.set i n := by
  cases act with
  | openAt | acquire =>
    simp only [step] at hs
    split at hs <;> cases hs
    exact .inl ⟨_, rfl⟩
  | arm i | create i | abandon i | add i | drop i =>
    -- Whatever the guards of the action are, it puts one owner back.
    simp only [step] at hs
    repeat' split at hs
    all_goals cases hs
    all_goals exact .inr ⟨i, _, rfl, rfl⟩
  | advance i =>
    simp only [step] at hs
    split at hs
    · obtain ⟨n, hn⟩ := advance_owners hs
      exact .inr ⟨i, n, rfl, hn⟩
    · cases hs

/-- A step that is not about an owner leaves it as it is. -/
theorem step_other {s s' : State} {backend : Backend} {act : Action} {j : Nat} {o : Owner}
    (hs : step backend s act = some s') (hj : s.owners[j]? = some o) (hne : act.owner ≠ some j) :
    s'.owners[j]? = some o := by
  rcases step_owners hs with ⟨n, hn⟩ | ⟨i, n, hi, hn⟩
  · rw [hn, List.getElem?_append_left (List.getElem?_eq_some_iff.mp hj).1]
    exact hj
  · have hij : i ≠ j := by
      rintro rfl
      exact hne hi
    rw [hn, List.getElem?_set_ne hij]
    exact hj

/-- What an owner of a stream goes on to, from one phase to the next. -/
inductive Owner.Next : Phase → Phase → Prop where
  | index : Owner.Next .opened .indexed
  | insert : Owner.Next .indexed .inserted
  | drop (d : DropStep) (rest : List DropStep) : Owner.Next (.dropping (d :: rest)) (.dropping rest)

/-- The next step of an owner of a stream. -/
theorem step_advance {s s' : State} {backend : Backend} {i : Nat} {o : Owner}
    (hs : step backend s (.advance i) = some s') (hi : s.owners[i]? = some o)
    (hk : o.kind = .tcpStream) :
    ∃ n, s'.owners = s.owners.set i n ∧ n.kind = .tcpStream ∧ Owner.Next o.phase n.phase := by
  simp only [step, hi, advance] at hs
  split at hs <;> rename_i hp
  · rw [hk] at hs
    cases hs
  · cases hs
    exact ⟨_, rfl, hk, hp ▸ .index⟩
  · cases hs
    exact ⟨_, rfl, hk, hp ▸ .insert⟩
  · rename_i d rest
    cases hs
    exact ⟨{ o with phase := .dropping rest }, by simp [State.put, dropStep_owners], hk,
      hp ▸ .drop d rest⟩
  · cases hs

/-- An owner that still has something to do can do it. -/
theorem exists_advance {s : State} {i : Nat} {o : Owner} {p : Phase} (backend : Backend)
    (hi : s.owners[i]? = some o) (hp : Owner.Next o.phase p) :
    ∃ s', step backend s (.advance i) = some s' := by
  simp only [step, hi, advance]
  cases hphase : o.phase <;> rw [hphase] at hp <;> cases hp <;> exact ⟨_, rfl⟩

/-- The socket of a new stream. -/
theorem step_open {s s' : State} {backend : Backend} {fd : Nat}
    (hs : step backend s (.openAt .tcpStream fd) = some s') :
    s'.owners =
      s.owners ++ [{ kind := .tcpStream, fd, index := 0, token := 0, phase := .opened }] := by
  simp only [step] at hs
  split at hs <;> cases hs
  rfl

theorem Kind.length_drop_le (kind : Kind) : kind.drop.length ≤ 4 := by
  cases kind <;> simp [Kind.drop, Kind.dropSelf, Kind.fields, Field.drop]

theorem Kind.length_unregistered_le (kind : Kind) : kind.unregistered.length ≤ 2 := by
  cases kind <;> simp [Kind.unregistered]

/-- A socket that is dropped before it is registered. -/
theorem step_abandon {s s' : State} {backend : Backend} {i : Nat} {o : Owner}
    (hs : step backend s (.abandon i) = some s') (hi : s.owners[i]? = some o) :
    ∃ n rest, s'.owners = s.owners.set i n ∧ n.kind = o.kind ∧ n.phase = .dropping rest ∧
      rest.length ≤ 4 := by
  simp only [step, hi] at hs
  split at hs <;> cases hs
  exact ⟨_, _, rfl, rfl, rfl, Nat.le_trans o.kind.length_unregistered_le (by decide)⟩

/-- The drop of a registered stream begins. -/
theorem step_drop {s s' : State} {backend : Backend} {i : Nat} {o : Owner}
    (hs : step backend s (.drop i) = some s') (hi : s.owners[i]? = some o) :
    ∃ n rest, s'.owners = s.owners.set i n ∧ n.kind = o.kind ∧ n.phase = .dropping rest ∧
      rest.length ≤ 4 := by
  simp only [step, hi] at hs
  split at hs <;> cases hs
  exact ⟨_, _, rfl, rfl, rfl, o.kind.length_drop_le⟩

/-- The poller's answer to a new descriptor. -/
theorem step_add {s s' : State} {backend : Backend} {i : Nat} {o : Owner} {refused : Bool}
    (hs : step backend s (.add i refused) = some s') (hi : s.owners[i]? = some o) :
    ∃ n, s'.owners = s.owners.set i n ∧ n.kind = o.kind := by
  simp only [step, hi] at hs
  split at hs
  · split at hs <;> cases hs <;> exact ⟨_, rfl, rfl⟩
  · cases hs

/-- The poller refuses the descriptor, and the registration is undone. -/
theorem step_refused {s s' : State} {backend : Backend} {i : Nat} {o : Owner}
    (hs : step backend s (.add i true) = some s') (hi : s.owners[i]? = some o) :
    ∃ n rest, s'.owners = s.owners.set i n ∧ n.kind = o.kind ∧ n.phase = .dropping rest ∧
      rest.length ≤ 4 := by
  simp only [step, hi] at hs
  split at hs
  · simp only [Kernel.add, Bool.true_or, if_true] at hs
    cases hs
    have hle := o.kind.length_unregistered_le
    exact ⟨_, _, rfl, rfl, rfl, by simp only [List.length_cons]; omega⟩
  · cases hs

end Nagoya.Reactor.Descriptors

namespace Nagoya.Net.Connect

open Nagoya.Lib Nagoya.Reactor
open Nagoya.Reactor.Descriptors (Phase Owner)

variable {os : Os} {backend : Descriptors.Backend} {addrs : List (Addr os)} {s s' : State os}

/-! ### What one step does -/

theorem reactorStep_eq {act : Descriptors.Action} {pc : Pc}
    (hs : s.reactorStep backend act pc = some s') :
    ∃ reactor, Descriptors.step backend s.reactor act = some reactor ∧
      s' = { s with reactor, pc } := by
  unfold State.reactorStep at hs
  split at hs <;> cases hs
  exact ⟨_, ‹_›, rfl⟩

/-- The steps of the system, one constructor for each outcome. -/
inductive Move (backend : Descriptors.Backend) (addrs : List (Addr os)) (s : State os) :
    Action → State os → Prop
  | start (waker : Waker) (hpc : s.pc = .unpolled) :
    Move backend addrs s (.poll waker) { s with waker, woken := false, pc := .next }
  | again (waker : Waker) (act : Action) (hact : act = .poll waker ∨ act = .repoll waker)
    (hpc : s.pc = .idle) : Move backend addrs s act { s with waker, woken := false }.connected
  | take (hpc : s.pc = .next) (addr : Addr os) (haddr : addrs[s.tried]? = some addr) :
    Move backend addrs s .next { s with pc := .socket }
  | exhausted (hpc : s.pc = .next) (hnone : addrs[s.tried]? = none) :
    Move backend addrs s .next
      { s with pc := .done (.error (s.aboutTheService.getD s.fallback)) }
  | noSocket (hpc : s.pc = .socket) (error : Errno) :
    Move backend addrs s (.socket (.error error)) (s.fail error)
  | opened (hpc : s.pc = .socket) (fd : Nat) (reactor : Descriptors.State)
    (hr : Descriptors.step backend s.reactor (.openAt .tcpStream fd) = some reactor) :
    Move backend addrs s (.socket (.ok fd))
      { s with
        owner := s.reactor.owners.length, handshake := .none
        made := s.made ++ [s.reactor.owners.length], reactor, pc := .connect }
  | asked (hpc : s.pc = .connect) (error : Option Errno) (addr : Addr os)
    (haddr : addrs[s.tried]? = some addr) (he : error.all (· == os.einprogress) = true)
    (handshake : Handshake) (hh : handshake = .established ∨ handshake = .inFlight) :
    Move backend addrs s (.connect error)
      { s with
        asked := s.asked ++ [addr], handshake
        pc := if addr.family ≠ Os.afUnix then .nodelay else .register }
  | refused (hpc : s.pc = .connect) (error : Errno) (addr : Addr os)
    (haddr : addrs[s.tried]? = some addr) (he : error ≠ os.einprogress)
    (reactor : Descriptors.State)
    (hr : Descriptors.step backend s.reactor (.abandon s.owner) = some reactor) :
    Move backend addrs s (.connect (some error))
      { s with asked := s.asked ++ [addr], reactor, pc := .closing error }
  | nodelay (hpc : s.pc = .nodelay) :
    Move backend addrs s (.nodelay none) { s with pc := .register }
  | noNodelay (hpc : s.pc = .nodelay) (error : Errno) (reactor : Descriptors.State)
    (hr : Descriptors.step backend s.reactor (.abandon s.owner) = some reactor) :
    Move backend addrs s (.nodelay (some error)) { s with reactor, pc := .closing error }
  | register (hpc : s.pc = .register) (o : Owner) (ho : s.reactor.owners[s.owner]? = some o)
    (hp : o.phase ≠ .inserted) (reactor : Descriptors.State)
    (hr : Descriptors.step backend s.reactor (.advance s.owner) = some reactor) :
    Move backend addrs s .register { s with slot := .registered, reactor, pc := .register }
  | added (hpc : s.pc = .register) (reactor : Descriptors.State)
    (hr : Descriptors.step backend s.reactor (.add s.owner false) = some reactor) (o : Owner)
    (ho : reactor.owners[s.owner]? = some o) (hp : o.phase = .live) :
    Move backend addrs s (.add none) { s with reactor, pc := .sendBuffer }
  | notAdded (hpc : s.pc = .register) (error : Errno) (reactor : Descriptors.State)
    (hr : Descriptors.step backend s.reactor (.add s.owner true) = some reactor) :
    Move backend addrs s (.add (some error)) { s with reactor, pc := .closing error }
  | sendBuffer (hpc : s.pc = .sendBuffer) (size : Option Nat) (addr : Addr os)
    (haddr : addrs[s.tried]? = some addr) :
    Move backend addrs s (.sendBuffer size)
      { s with sendCapacity := size.getD 0, connecting := !addr.isPath }.connected
  | noError (hpc : s.pc = .soError) (fault : Option Errno)
    (he : fault.or s.handshake.pending = none) :
    Move backend addrs s (.soError fault) { s with pc := .peerAddr }
  | soError (hpc : s.pc = .soError) (fault : Option Errno) (error : Errno)
    (he : fault.or s.handshake.pending = some error) (reactor : Descriptors.State)
    (hr : Descriptors.step backend s.reactor (.drop s.owner) = some reactor) :
    Move backend addrs s (.soError fault)
      { s with handshake := .none, reactor, pc := .closing error }
  | peer (hpc : s.pc = .peerAddr) (hh : s.handshake = .established) :
    Move backend addrs s .peerAddr { s with connecting := false, pc := .done (.ok s.owner) }
  | noPeer (hpc : s.pc = .peerAddr) (hh : s.handshake ≠ .established) :
    Move backend addrs s .peerAddr { s with pc := .park }
  | park (hpc : s.pc = .park) :
    Move backend addrs s .park
      { s with
        slot := (s.slot.pollWritable s.waker).1
        pc := if (s.slot.pollWritable s.waker).2 then .wakeSelf else .idle }
  | wakeSelf (hpc : s.pc = .wakeSelf) :
    Move backend addrs s .wakeSelf { s with pc := .idle, woken := true }
  | closed (error : Errno) (hpc : s.pc = .closing error) (o : Owner)
    (ho : s.reactor.owners[s.owner]? = some o) (hp : o.phase = .dropping []) :
    Move backend addrs s .close (s.fail error)
  | dropped (hpc : s.pc = .dropping) (o : Owner) (ho : s.reactor.owners[s.owner]? = some o)
    (hp : o.phase = .dropping []) : Move backend addrs s .close { s with pc := .dropped }
  | close (hpc : (∃ error, s.pc = .closing error) ∨ s.pc = .dropping)
    (reactor : Descriptors.State)
    (hr : Descriptors.step backend s.reactor (.advance s.owner) = some reactor) :
    Move backend addrs s .close { s with reactor }
  | cancelNew (hpc : s.pc = .unpolled) : Move backend addrs s .cancel { s with pc := .dropped }
  | cancel (hpc : s.pc = .idle) (reactor : Descriptors.State)
    (hr : Descriptors.step backend s.reactor (.drop s.owner) = some reactor) :
    Move backend addrs s .cancel { s with reactor, pc := .dropping }
  | settle (error : Option Errno) (hh : s.handshake = .inFlight) (hover : s.pc.over = false) :
    Move backend addrs s (.settle error)
      { s with handshake := error.elim .established .failed }
  | reset (error : Errno) (hh : s.handshake = .established) (hover : s.pc.over = false) :
    Move backend addrs s (.reset error) { s with handshake := .failed error }
  | dispatch (event : Readiness) :
    Move backend addrs s (.dispatch event)
      { s with slot := (s.slot.dispatch event).1, waking := s.waking ++ (s.slot.dispatch event).2 }
  | wake (i : Nat) (waker : Waker) (hi : s.waking[i]? = some waker) :
    Move backend addrs s (.wake i) ({ s with waking := s.waking.eraseIdx i }.wakeTask waker)
  | other (act : Descriptors.Action) (hne : ∀ i ∈ s.made, act.owner ≠ some i)
    (reactor : Descriptors.State) (hr : Descriptors.step backend s.reactor act = some reactor) :
    Move backend addrs s (.other act) { s with reactor }

/-- Every step is one of these. -/
theorem step_move {act : Action} (hs : step backend addrs s act = some s') :
    Move backend addrs s act s' := by
  -- Every branch of `step` is one constructor of `Move`.
  cases act with
  | poll waker =>
    simp only [step] at hs
    split at hs <;> cases hs
    · exact .start waker ‹_›
    · exact .again waker _ (.inl rfl) ‹_›
  | repoll waker =>
    simp only [step] at hs
    split at hs <;> cases hs
    exact .again waker _ (.inr rfl) ‹_›
  | next =>
    simp only [step] at hs
    split at hs
    · split at hs <;> cases hs
      · exact .take ‹_› _ ‹_›
      · exact .exhausted ‹_› ‹_›
    · cases hs
  | socket answer =>
    simp only [step] at hs
    split at hs
    · cases hs
      exact .noSocket ‹_› _
    · obtain ⟨reactor, hr, rfl⟩ := reactorStep_eq hs
      exact .opened ‹_› _ reactor hr
    · cases hs
  | connect error =>
    simp only [step] at hs
    split at hs
    · rename_i addr hpc haddr
      simp only [connect] at hs
      split at hs
      · cases hs
        exact .asked hpc _ addr haddr rfl .established (.inl rfl)
      · split at hs
        · rename_i hne
          obtain ⟨reactor, hr, rfl⟩ := reactorStep_eq hs
          exact .refused hpc _ addr haddr hne reactor hr
        · split at hs
          · cases hs
          · -- It is in flight, so it is no path, and the socket has a `TCP_NODELAY`.
            rename_i error he hfamily
            cases hs
            simpa [hfamily] using
              Move.asked hpc (some error) addr haddr (by simpa using he) .inFlight (.inr rfl)
    · cases hs
  | nodelay error =>
    simp only [step] at hs
    split at hs
    · cases hs
      exact .nodelay ‹_›
    · obtain ⟨reactor, hr, rfl⟩ := reactorStep_eq hs
      exact .noNodelay ‹_› _ reactor hr
    · cases hs
  | register =>
    simp only [step] at hs
    split at hs
    · split at hs
      · cases hs
      · obtain ⟨reactor, hr, rfl⟩ := reactorStep_eq hs
        exact .register ‹_› _ ‹_› ‹_› reactor hr
    · cases hs
  | add error =>
    simp only [step] at hs
    split at hs
    · simp only [add] at hs
      split at hs
      · cases hs
      · cases hs
        exact .notAdded ‹_› _ _ ‹_›
      · split at hs
        · cases hs
        · split at hs <;> cases hs
          exact .added ‹_› _ ‹_› _ ‹_› ‹_›
    · cases hs
  | sendBuffer size =>
    simp only [step] at hs
    split at hs <;> cases hs
    exact .sendBuffer ‹_› _ _ ‹_›
  | soError fault =>
    simp only [step] at hs
    split at hs
    · split at hs
      · cases hs
        exact .noError ‹_› _ ‹_›
      · obtain ⟨reactor, hr, rfl⟩ := reactorStep_eq hs
        exact .soError ‹_› _ _ ‹_› reactor hr
    · cases hs
  | peerAddr =>
    simp only [step] at hs
    split at hs
    · split at hs <;> cases hs
      · exact .peer ‹_› ‹_›
      · exact .noPeer ‹_› ‹_›
    · cases hs
  | park =>
    simp only [step] at hs
    split at hs <;> cases hs
    exact .park ‹_›
  | wakeSelf =>
    simp only [step, State.wakeTask] at hs
    split at hs <;> cases hs
    exact .wakeSelf ‹_›
  | close =>
    simp only [step, close] at hs
    split at hs
    · cases hs
    · split at hs
      · -- The attempt is gone, or its drop has another step to make.
        split at hs
        · cases hs
          exact .closed _ ‹_› _ ‹_› ‹_›
        · rename_i hpc _
          obtain ⟨reactor, hr, rfl⟩ := reactorStep_eq hs
          rw [← hpc]
          exact .close (.inl ⟨_, hpc⟩) reactor hr
      · split at hs
        · cases hs
          exact .dropped ‹_› _ ‹_› ‹_›
        · rename_i hpc _
          obtain ⟨reactor, hr, rfl⟩ := reactorStep_eq hs
          rw [← hpc]
          exact .close (.inr hpc) reactor hr
      · cases hs
  | cancel =>
    simp only [step] at hs
    split at hs
    · cases hs
      exact .cancelNew ‹_›
    · obtain ⟨reactor, hr, rfl⟩ := reactorStep_eq hs
      exact .cancel ‹_› reactor hr
    · cases hs
  | settle error =>
    simp only [step] at hs
    split at hs <;> cases hs
    exact .settle error (by simp_all) (by simp_all)
  | reset error =>
    simp only [step] at hs
    split at hs <;> cases hs
    exact .reset error (by simp_all) (by simp_all)
  | dispatch event =>
    simp only [step] at hs
    cases hs
    exact .dispatch event
  | wake i =>
    simp only [step] at hs
    split at hs <;> cases hs
    exact .wake i _ ‹_›
  | other act =>
    simp only [step] at hs
    split at hs
    · rename_i i hi
      split at hs
      · cases hs
      · rename_i hmade
        obtain ⟨reactor, hr, rfl⟩ := reactorStep_eq hs
        refine .other act (fun j hj he => hmade ?_) reactor hr
        rw [hi] at he
        cases he
        exact hj
    · rename_i hi
      obtain ⟨reactor, hr, rfl⟩ := reactorStep_eq hs
      exact .other act (fun j _ he => by rw [hi] at he; cases he) reactor hr

/-! ### The owner of the attempt -/

/-- No attempt is open. -/
def Pc.free : Pc → Bool
  | .unpolled | .next | .socket | .done (.error _) | .dropped => true
  | _ => false

/-- How far the owner of the attempt is at a step of the call. -/
def Pc.Holds (pc : Pc) (p : Phase) : Prop :=
  match pc with
  | .connect | .nodelay => p = .opened
  | .register => p = .opened ∨ p = .indexed ∨ p = .inserted
  | .sendBuffer | .soError | .peerAddr | .park | .wakeSelf | .idle | .done (.ok _) => p = .live
  | .closing _ | .dropping => ∃ rest, p = .dropping rest ∧ rest.length ≤ 4
  | _ => False

/-- The open attempt is an owner of a stream, and as far as the call. -/
structure Owns (s : State os) : Prop where
  attempt : s.pc.free = false → s.owner ∈ s.made ∧ ∃ o, s.reactor.owners[s.owner]? = some o ∧
    o.kind = .tcpStream ∧ s.pc.Holds o.phase

/-- Without an attempt there is nothing to know. -/
theorem Owns.of_free (h : s.pc.free = true) : Owns s where
  attempt hf := by
    rw [h] at hf
    cases hf

/-- A step of the call that the reactor does not see. -/
theorem Owns.goto (h : Owns s) (hr : s'.reactor = s.reactor) (ho : s'.owner = s.owner)
    (hm : s'.made = s.made) (hfree : s'.pc.free = s.pc.free)
    (hholds : ∀ p, s.pc.Holds p → s'.pc.Holds p) : Owns s' where
  attempt hf := by
    rw [hfree] at hf
    obtain ⟨hmem, o, hi, hk, hp⟩ := h.attempt hf
    rw [ho, hm, hr]
    exact ⟨hmem, o, hi, hk, hholds _ hp⟩

/-- A step of the attempt itself. -/
theorem Owns.own (h : Owns s) (ho : s'.owner = s.owner) (hm : s'.made = s.made)
    (hfree : s.pc.free = false)
    (hn : ∀ o, s.reactor.owners[s.owner]? = some o → o.kind = .tcpStream → s.pc.Holds o.phase →
      ∃ n, s'.reactor.owners = s.reactor.owners.set s.owner n ∧ n.kind = .tcpStream ∧
        s'.pc.Holds n.phase) : Owns s' where
  attempt _ := by
    obtain ⟨hmem, o, hi, hk, hp⟩ := h.attempt hfree
    obtain ⟨n, hset, hnk, hnp⟩ := hn o hi hk hp
    refine ⟨ho ▸ hm ▸ hmem, n, ?_, hnk, hnp⟩
    rw [hset, ho, List.getElem?_set_self (List.getElem?_eq_some_iff.mp hi).1]

/-- The owner of the attempt begins to drop what it has. -/
theorem Owns.drop (h : Owns s) (ho : s'.owner = s.owner) (hm : s'.made = s.made)
    (hfree : s.pc.free = false) (hpc : (∃ error, s'.pc = .closing error) ∨ s'.pc = .dropping)
    (hn : ∀ o, s.reactor.owners[s.owner]? = some o → ∃ n rest,
      s'.reactor.owners = s.reactor.owners.set s.owner n ∧ n.kind = o.kind ∧
        n.phase = .dropping rest ∧ rest.length ≤ 4) : Owns s' := by
  refine h.own ho hm hfree fun o hi hk _ => ?_
  obtain ⟨n, rest, hset, hnk, hnp⟩ := hn o hi
  have hholds : s'.pc.Holds n.phase := by
    rcases hpc with ⟨error, hpc⟩ | hpc <;> rw [hpc] <;> exact ⟨rest, hnp⟩
  exact ⟨n, hset, hnk.trans hk, hholds⟩

/-- A step of somebody else. -/
theorem Owns.other (h : Owns s) {act : Descriptors.Action}
    (hs : Descriptors.step backend s.reactor act = some s'.reactor)
    (hne : ∀ i ∈ s.made, act.owner ≠ some i) (ho : s'.owner = s.owner) (hm : s'.made = s.made)
    (hpc : s'.pc = s.pc) : Owns s' where
  attempt hf := by
    rw [hpc] at hf ⊢
    obtain ⟨hmem, o, hi, hk, hp⟩ := h.attempt hf
    rw [ho, hm]
    exact ⟨hmem, o, Descriptors.step_other hs hi (hne _ hmem), hk, hp⟩

/-- A new attempt opens its socket. -/
theorem Owns.opened {fd : Nat}
    (hs : Descriptors.step backend s.reactor (.openAt .tcpStream fd) = some s'.reactor)
    (ho : s'.owner = s.reactor.owners.length) (hm : s'.made = s.made ++ [s.reactor.owners.length])
    (hpc : s'.pc = .connect) : Owns s' where
  attempt _ := by
    rw [hm, ho, hpc, Descriptors.step_open hs]
    exact ⟨by simp, _, List.getElem?_concat_length, rfl, rfl⟩

/-- Every step keeps the owner of the attempt as far as the call. The cases are the moves of the
call: those that the reactor does not see, the steps of the owner itself, and those of others. -/
theorem owns_step {act : Action} (h : Owns s) (hs : step backend addrs s act = some s') :
    Owns s' := by
  cases step_move hs with
  -- The reactor does not see these.
  | nodelay hpc | noError hpc | peer hpc | noPeer hpc | wakeSelf hpc =>
    exact h.goto rfl rfl rfl (by simp [Pc.free, hpc]) (by simp [Pc.Holds, hpc])
  | again waker act hact hpc | sendBuffer hpc =>
    unfold State.connected
    split <;> exact h.goto rfl rfl rfl (by simp [Pc.free, hpc]) (by simp [Pc.Holds, hpc])
  | start | take | exhausted | noSocket | cancelNew | closed | dropped => exact .of_free rfl
  | opened hpc fd reactor hr => exact .opened hr rfl rfl rfl
  | asked hpc =>
    split <;> exact h.goto rfl rfl rfl (by simp [Pc.free, hpc]) (by simp [Pc.Holds, hpc])
  | refused hpc error addr haddr he reactor hr | noNodelay hpc error reactor hr =>
    exact h.drop rfl rfl (by simp [Pc.free, hpc]) (.inl ⟨error, rfl⟩)
      fun _ => Descriptors.step_abandon hr
  | register hpc o ho hp reactor hr =>
    refine h.own rfl rfl (by simp [Pc.free, hpc]) fun o hi hk hholds => ?_
    obtain ⟨n, hset, hnk, hnext⟩ := Descriptors.step_advance hr hi hk
    refine ⟨n, hset, hnk, ?_⟩
    -- `register` is for three phases. The first two go on, and the third waits for `add`.
    simp only [Pc.Holds, hpc] at hholds ⊢
    generalize n.phase = p at hnext ⊢
    rcases hholds with hphase | hphase | hphase <;> rw [hphase] at hnext <;> cases hnext <;> simp
  | added hpc reactor hr n hn hlive =>
    refine h.own rfl rfl (by simp [Pc.free, hpc]) fun o hi hk _ => ?_
    obtain ⟨n', hset, hnk⟩ := Descriptors.step_add hr hi
    -- The call goes by the phase that it finds after the step.
    have hn' : n' = n := by
      rw [hset, List.getElem?_set_self (List.getElem?_eq_some_iff.mp hi).1] at hn
      exact Option.some.inj hn
    subst hn'
    exact ⟨n', hset, hnk.trans hk, hlive⟩
  | notAdded hpc error reactor hr =>
    exact h.drop rfl rfl (by simp [Pc.free, hpc]) (.inl ⟨error, rfl⟩)
      fun _ => Descriptors.step_refused hr
  | soError hpc fault error he reactor hr =>
    exact h.drop rfl rfl (by simp [Pc.free, hpc]) (.inl ⟨error, rfl⟩)
      fun _ => Descriptors.step_drop hr
  | park hpc =>
    refine h.goto rfl rfl rfl ?_ ?_ <;> dsimp only <;> split <;> simp [Pc.free, Pc.Holds, hpc]
  | close hpc reactor hr =>
    have hfree : s.pc.free = false := by
      rcases hpc with ⟨error, hpc⟩ | hpc <;> simp [Pc.free, hpc]
    refine h.own rfl rfl hfree fun o hi hk hholds => ?_
    obtain ⟨n, hset, hnk, hnext⟩ := Descriptors.step_advance hr hi hk
    refine ⟨n, hset, hnk, ?_⟩
    generalize n.phase = p at hnext ⊢
    rcases hpc with ⟨error, hpc⟩ | hpc <;> simp only [Pc.Holds, hpc] at hholds ⊢ <;>
      obtain ⟨rest, hphase, hle⟩ := hholds <;> rw [hphase] at hnext <;> cases hnext <;>
      exact ⟨_, rfl, Nat.le_of_succ_le hle⟩
  | cancel hpc reactor hr =>
    exact h.drop rfl rfl (by simp [Pc.free, hpc]) (.inr rfl) fun _ => Descriptors.step_drop hr
  | settle | reset | dispatch => exact h.goto rfl rfl rfl rfl fun _ => id
  | wake i waker =>
    unfold State.wakeTask
    split <;> exact h.goto rfl rfl rfl rfl fun _ => id
  | other act hne reactor hr => exact h.other hr hne rfl rfl rfl

theorem owns_of_reachable (hr : (system backend addrs).Reachable s) : Owns s := by
  refine hr.invariant ?_ fun _ _ _ h hs => owns_step h hs
  rintro _ ⟨reactor, -, rfl⟩
  exact .of_free rfl

end Nagoya.Net.Connect
