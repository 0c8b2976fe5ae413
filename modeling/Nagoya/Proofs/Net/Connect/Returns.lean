import Nagoya.Lib.Fair
import Nagoya.Proofs.Net.Connect

/-!
# `Nagoya.Proofs.Net.Connect.Returns`: `connect_any` comes to its end

The call returns on every path that is fair to the thread that runs it and polls it when it was
woken, and on which a handshake that is in flight is settled at some time. It needs no event: its
registration starts writable and nothing clears that, so a poll that finds no peer wakes its own
task (`Ready.idle`).

An attempt has three stages. `Before` is up to the call of `connect`, and its steps are counted
by `early`. `InFlight` is left when the network settles the handshake, which can happen at any
time. `Settled` is the rest, counted by `late`: the handshake is settled, and a handshake that
fails late only shortens what is left. At the end of an attempt the call is over or goes on to the
next address (`attempt_ends`), and the list is finite.
-/

set_option autoImplicit false

namespace Nagoya.Net.Connect

open Nagoya.Lib Nagoya.Reactor
open Nagoya.Lib.Lts.Path (leadsTo_of_step leadsTo_of_rank leadsTo_of_imp)
open Nagoya.Reactor.Descriptors (Phase Owner)

variable {os : Os} {backend : Descriptors.Backend} {addrs : List (Addr os)} {s s' : State os}

/-- The steps of the thread that runs the call and polls it when it was woken. A poll that nobody
asked for is none of them. -/
def Action.runs : Action → Bool
  | .repoll _ | .cancel | .settle _ | .reset _ | .dispatch _ | .wake _ | .other _ => false
  | _ => true

/-! ### The call is never left waiting -/

/-- The slot stays writable, so the call wakes itself, and an attempt that was started has a
handshake. -/
structure Ready (s : State os) : Prop where
  writable : s.slot.writable = true
  idle : s.pc = .idle → s.woken = true
  handshake : s.pc.asked = true → s.handshake ≠ .none

/-- No event takes readiness away. -/
theorem writable_dispatch {w : Wakers} (h : w.writable = true) (event : Readiness) :
    (w.dispatch event).1.writable = true := by
  simp only [Wakers.dispatch, Wakers.dispatchRead, Wakers.dispatchWrite]
  repeat' split
  all_goals simp_all

/-- Readiness that is there stays, for the call does not clear it. -/
theorem ready_step {act : Action} (h : Ready s) (hs : step backend addrs s act = some s') :
    Ready s' := by
  have hpark := h.writable
  cases step_move hs with
  | again waker act hact hpc | sendBuffer hpc =>
    unfold State.connected
    split <;> exact ⟨h.writable, by simp, fun _ => h.handshake (by simp [hpc, Pc.asked])⟩
  | park hpc =>
    simp only [Wakers.pollWritable, hpark, if_true]
    exact ⟨h.writable, by simp, fun _ => h.handshake (by simp [hpc, Pc.asked])⟩
  | asked hpc error addr haddr he handshake hh =>
    refine ⟨h.writable, ?_, fun _ => ?_⟩
    · dsimp only
      split <;> simp
    · rcases hh with rfl | rfl <;> simp
  | register hpc =>
    -- The slot is new, and a new slot is writable.
    exact ⟨rfl, by simp, fun _ => h.handshake (by simp [hpc, Pc.asked])⟩
  | nodelay hpc | added hpc | noError hpc | peer hpc | noPeer hpc =>
    exact ⟨h.writable, by simp, fun _ => h.handshake (by simp [hpc, Pc.asked])⟩
  | wakeSelf hpc =>
    exact ⟨h.writable, fun _ => rfl, fun _ => h.handshake (by simp [hpc, Pc.asked])⟩
  | settle error hh =>
    refine ⟨h.writable, h.idle, fun _ => ?_⟩
    cases error <;> simp
  | reset error hh => exact ⟨h.writable, h.idle, by simp⟩
  | dispatch event => exact ⟨writable_dispatch h.writable event, h.idle, h.handshake⟩
  | wake i waker =>
    unfold State.wakeTask
    split
    · exact ⟨h.writable, fun _ => rfl, h.handshake⟩
    · exact ⟨h.writable, h.idle, h.handshake⟩
  | close | other => exact ⟨h.writable, h.idle, h.handshake⟩
  | _ => exact ⟨h.writable, by simp [State.fail], by simp [Pc.asked, State.fail]⟩

theorem ready_of_reachable (hr : (system backend addrs).Reachable s) : Ready s := by
  refine hr.invariant ?_ fun _ _ _ h hs => ready_step h hs
  rintro _ ⟨reactor, -, rfl⟩
  exact ⟨rfl, by simp [new], by simp [new, Pc.asked]⟩

/-- A registration that is under way can go on. -/
theorem register_enabled (h : Owns s) (hpc : s.pc = .register) :
    ∃ act : Action, act.runs = true ∧ (step backend addrs s act).isSome = true := by
  obtain ⟨-, o, ho, -, hholds⟩ := h.attempt (by simp [hpc, Pc.free])
  simp only [Pc.Holds, hpc] at hholds
  by_cases hp : o.phase = .inserted
  · -- The poller can always refuse the descriptor.
    refine ⟨.add (some 12), rfl, ?_⟩
    simp [step, hpc, add, ho, hp, Descriptors.step, Descriptors.Kernel.add]
  · refine ⟨.register, rfl, ?_⟩
    have hnext : ∃ p, Owner.Next o.phase p := by
      rcases hholds with h | h | h
      · exact ⟨.indexed, h ▸ .index⟩
      · exact ⟨.inserted, h ▸ .insert⟩
      · exact absurd h hp
    obtain ⟨p, hnext⟩ := hnext
    obtain ⟨reactor, hreactor⟩ := Descriptors.exists_advance backend ho hnext
    simp [step, hpc, ho, hp, State.reactorStep, hreactor]

/-- A drop that is under way can go on. -/
theorem close_enabled (h : Owns s)
    (hpc : (∃ error, s.pc = .closing error) ∨ s.pc = .dropping) :
    (step backend addrs s .close).isSome = true := by
  have hfree : s.pc.free = false := by
    rcases hpc with ⟨error, hpc⟩ | hpc <;> simp [hpc, Pc.free]
  obtain ⟨-, o, ho, -, hholds⟩ := h.attempt hfree
  have hrest : ∃ rest, o.phase = .dropping rest := by
    rcases hpc with ⟨error, hpc⟩ | hpc <;> rw [hpc] at hholds <;>
      exact hholds.imp fun _ h => h.1
  obtain ⟨rest, hp⟩ := hrest
  cases rest with
  | nil => rcases hpc with ⟨error, hpc⟩ | hpc <;> simp [step, close, ho, hpc, hp]
  | cons d rest =>
    have hnext : Owner.Next o.phase (.dropping rest) := hp ▸ .drop d rest
    obtain ⟨reactor, hreactor⟩ := Descriptors.exists_advance backend ho hnext
    rcases hpc with ⟨error, hpc⟩ | hpc <;>
      simp [step, close, ho, hpc, hp, State.reactorStep, hreactor]

/-- While the call is not over, its thread has a step to take. -/
theorem runs_enabled (hr : (system backend addrs).Reachable s) (hover : s.pc.over = false) :
    (system backend addrs).Enabled (fun act => act.runs = true) s := by
  have howns := owns_of_reachable hr
  have hplace := place_of_reachable hr
  have hlt : s.pc.free = false ∨ s.pc = .socket → (addrs[s.tried]?).isSome = true :=
    fun h => by simpa using hplace.current h
  suffices h : ∃ act : Action, act.runs = true ∧ (step backend addrs s act).isSome = true from h
  cases hpc : s.pc with
  | done | dropped => simp [Pc.over, hpc] at hover
  | unpolled => exact ⟨.poll 0, rfl, by simp [step, hpc]⟩
  | idle => exact ⟨.poll 0, rfl, by simp [step, hpc, (ready_of_reachable hr).idle hpc]⟩
  | next => exact ⟨.next, rfl, by cases h : addrs[s.tried]? <;> simp [step, hpc, h]⟩
  | socket => exact ⟨.socket (.error 24), rfl, by simp [step, hpc]⟩
  | connect =>
    obtain ⟨addr, haddr⟩ := Option.isSome_iff_exists.mp (hlt (.inl (by simp [hpc, Pc.free])))
    exact ⟨.connect none, rfl, by simp [step, hpc, haddr, connect]⟩
  | nodelay => exact ⟨.nodelay none, rfl, by simp [step, hpc]⟩
  | register => exact register_enabled howns hpc
  | sendBuffer =>
    obtain ⟨addr, haddr⟩ := Option.isSome_iff_exists.mp (hlt (.inl (by simp [hpc, Pc.free])))
    exact ⟨.sendBuffer none, rfl, by simp [step, hpc, haddr]⟩
  | soError =>
    obtain ⟨-, o, ho, -, hlive⟩ := howns.attempt (by simp [hpc, Pc.free])
    simp only [Pc.Holds, hpc] at hlive
    refine ⟨.soError none, rfl, ?_⟩
    cases hh : s.handshake.pending <;>
      simp [step, hpc, hh, State.reactorStep, Descriptors.step, ho, hlive]
  | peerAddr =>
    exact ⟨.peerAddr, rfl, by by_cases h : s.handshake = .established <;> simp [step, hpc, h]⟩
  | park => exact ⟨.park, rfl, by simp [step, hpc]⟩
  | wakeSelf => exact ⟨.wakeSelf, rfl, by simp [step, hpc]⟩
  | closing error => exact ⟨.close, rfl, close_enabled howns (.inl ⟨error, hpc⟩)⟩
  | dropping => exact ⟨.close, rfl, close_enabled howns (.inr hpc)⟩

/-! ### The stages of an attempt -/

/-- The attempt number `k` is over, and the call with it or not. -/
def After (k : Nat) (s : State os) : Prop := s.pc.over = true ∨ k < s.tried

/-- The attempt has not called `connect` yet. -/
def Before (k : Nat) (s : State os) : Prop := s.tried = k ∧ s.pc.before = true

/-- The handshake of the attempt is in flight. -/
def InFlight (k : Nat) (s : State os) : Prop :=
  s.tried = k ∧ s.pc.over = false ∧ s.pc.before = false ∧ s.pc.asked = true ∧
    s.handshake = .inFlight

/-- The attempt waits for nothing but its own thread. -/
def Settled (k : Nat) (s : State os) : Prop :=
  s.tried = k ∧ s.pc.over = false ∧ s.pc.before = false ∧
    (s.pc.asked = true → s.handshake ≠ .inFlight)

/-- An attempt that has begun is in one of the stages. -/
theorem stages {k : Nat} (h : k ≤ s.tried) :
    After k s ∨ Before k s ∨ InFlight k s ∨ Settled k s := by
  by_cases hlt : k < s.tried
  · exact .inl (.inr hlt)
  have hk : s.tried = k := by omega
  cases hover : s.pc.over with
  | true => exact .inl (.inl hover)
  | false =>
    cases hbefore : s.pc.before with
    | true => exact .inr (.inl ⟨hk, hbefore⟩)
    | false =>
      by_cases hh : s.pc.asked = true ∧ s.handshake = .inFlight
      · exact .inr (.inr (.inl ⟨hk, hover, hbefore, hh.1, hh.2⟩))
      · exact .inr (.inr (.inr ⟨hk, hover, hbefore, fun ha he => hh ⟨ha, he⟩⟩))

/-- The loop only goes forward, and an attempt does not go back to its start. -/
theorem tried_step {act : Action} (hs : step backend addrs s act = some s') :
    s.tried < s'.tried ∨ s'.tried = s.tried ∧ (s.pc.before = false → s'.pc.before = false) := by
  cases step_move hs with
  | noSocket | closed => exact .inl (Nat.lt_succ_self _)
  | start waker hpc | take hpc | opened hpc => exact .inr ⟨rfl, by simp [hpc, Pc.before]⟩
  | again | sendBuffer =>
    unfold State.connected
    split <;> exact .inr ⟨rfl, fun _ => rfl⟩
  | park | asked =>
    refine .inr ⟨rfl, fun _ => ?_⟩
    dsimp only
    split <;> rfl
  | close | settle | reset | dispatch | other => exact .inr ⟨rfl, id⟩
  | wake =>
    unfold State.wakeTask
    split <;> exact .inr ⟨rfl, id⟩
  | _ => exact .inr ⟨rfl, fun _ => rfl⟩

/-- The steps before the call of `connect` that are left. -/
def early (s : State os) : Nat :=
  match s.pc with
  | .unpolled => 3
  | .next => 2
  | .socket => 1
  | _ => 0

/-- An attempt that is not begun comes closer with every step of the thread, and no other step takes
it back. -/
theorem early_step {act : Action} {k : Nat} (h : Before k s) (h' : Before k s')
    (hs : step backend addrs s act = some s') :
    early s' ≤ early s ∧ (act.runs = true → early s' < early s) := by
  obtain ⟨hk, hbefore⟩ := h
  obtain ⟨hk', hbefore'⟩ := h'
  cases step_move hs with
  | start waker hpc | take hpc | opened hpc => simp [early, hpc]
  | noSocket | closed =>
    simp only [State.fail] at hk'
    omega
  | again | sendBuffer =>
    unfold State.connected at hbefore'
    split at hbefore' <;> cases hbefore'
  | park | asked =>
    dsimp only at hbefore'
    split at hbefore' <;> cases hbefore'
  | close hpc => rcases hpc with ⟨error, hpc⟩ | hpc <;> simp [Pc.before, hpc] at hbefore
  | settle | reset | dispatch | other => exact ⟨Nat.le_refl _, by simp [Action.runs]⟩
  | wake =>
    unfold State.wakeTask
    split <;> exact ⟨Nat.le_refl _, by simp [Action.runs]⟩
  | _ => cases hbefore'

/-- What is left of the owner's registration or of its drop. -/
def left : Phase → Nat
  | .opened => 2
  | .indexed => 1
  | .dropping rest => rest.length
  | _ => 0

/-- What is left for an owner. -/
def leftAt (r : Descriptors.State) (i : Nat) : Nat := (r.owners[i]?).elim 0 fun o => left o.phase

/-- The steps of a settled attempt that are left. A poll that finds the peer is the last one. One
that finds the error of a failed handshake is followed by the drop. -/
def late (s : State os) : Nat :=
  let settled := if s.handshake = .established then 20 else 0
  match s.pc with
  | .nodelay => 60
  | .register => 50 + leftAt s.reactor s.owner
  | .sendBuffer => 40
  | .park => settled + 11
  | .wakeSelf => settled + 10
  | .idle => settled + 9
  | .soError => settled + 8
  | .peerAddr => if s.handshake = .established then 27 else 12
  | .closing _ | .dropping => leftAt s.reactor s.owner
  | _ => 0

theorem left_next {p p' : Phase} (h : Descriptors.Owner.Next p p') : left p' < left p := by
  cases h <;> simp [left]

/-- A step of the owner of the attempt brings it closer to its end. -/
theorem left_advance (h : Owns s) (hfree : s.pc.free = false) {reactor : Descriptors.State}
    (hr : Descriptors.step backend s.reactor (.advance s.owner) = some reactor) :
    leftAt reactor s.owner < leftAt s.reactor s.owner := by
  obtain ⟨-, o, hi, hk, -⟩ := h.attempt hfree
  obtain ⟨n, hset, -, hnext⟩ := Descriptors.step_advance hr hi hk
  have hself : reactor.owners[s.owner]? = some n := by
    rw [hset, List.getElem?_set_self (List.getElem?_eq_some_iff.mp hi).1]
  rw [leftAt, leftAt, hself, hi]
  exact left_next hnext

/-- A step of somebody else leaves the owner of the attempt alone. -/
theorem left_other (h : Owns s) (hfree : s.pc.free = false) {act : Descriptors.Action}
    (hne : ∀ i ∈ s.made, act.owner ≠ some i) {reactor : Descriptors.State}
    (hr : Descriptors.step backend s.reactor act = some reactor) :
    leftAt reactor s.owner = leftAt s.reactor s.owner := by
  obtain ⟨hmem, o, hi, -⟩ := h.attempt hfree
  rw [leftAt, leftAt, Descriptors.step_other hr hi (hne _ hmem), hi]

/-- A drop has at most four steps. -/
theorem left_le (h : Owns s) (hpc : (∃ error, s.pc = .closing error) ∨ s.pc = .dropping) :
    leftAt s.reactor s.owner ≤ 4 := by
  have hfree : s.pc.free = false := by
    rcases hpc with ⟨error, hpc⟩ | hpc <;> simp [hpc, Pc.free]
  obtain ⟨-, o, hi, -, hholds⟩ := h.attempt hfree
  have hrest : ∃ rest, o.phase = .dropping rest ∧ rest.length ≤ 4 := by
    rcases hpc with ⟨error, hpc⟩ | hpc <;> rw [hpc] at hholds <;> exact hholds
  obtain ⟨rest, hp, hle⟩ := hrest
  simpa [leftAt, hi, hp, left] using hle

/-- A settled attempt is open. -/
theorem Settled.free {k : Nat} (h : Settled k s) : s.pc.free = false := by
  obtain ⟨-, hover, hbefore, -⟩ := h
  cases hpc : s.pc with
  | done | dropped => simp [Pc.over, hpc] at hover
  | unpolled | next | socket => simp [Pc.before, hpc] at hbefore
  | _ => rfl

/-- An attempt that was given to `connect` and is settled has succeeded or failed. -/
theorem Settled.handshake {k : Nat} (h : Settled k s) (hready : Ready s)
    (hasked : s.pc.asked = true) :
    s.handshake = .established ∨ ∃ error, s.handshake = .failed error := by
  have hnone := hready.handshake hasked
  have hflight := h.2.2.2 hasked
  cases hh : s.handshake with
  | none => exact absurd hh hnone
  | inFlight => exact absurd hh hflight
  | established => exact .inl rfl
  | failed error => exact .inr ⟨error, rfl⟩

/-- A settled attempt comes closer to its end with every step of the thread, and no other step takes
it back. -/
theorem late_step {act : Action} {k : Nat} (howns : Owns s) (howns' : Owns s') (hready : Ready s)
    (h : Settled k s) (h' : Settled k s') (hs : step backend addrs s act = some s') :
    late s' ≤ late s ∧ (act.runs = true → late s' < late s) := by
  have hfree := h.free
  have hhandshake := h.handshake hready
  obtain ⟨hk, hover, hbefore, hh⟩ := h
  obtain ⟨hk', hover', -, -⟩ := h'
  cases step_move hs with
  | start waker hpc | take hpc | exhausted hpc | opened hpc | cancelNew hpc =>
    simp [Pc.free, hpc] at hfree
  | asked hpc | refused hpc => simp [Pc.before, hpc] at hbefore
  | noSocket | closed =>
    simp only [State.fail] at hk'
    omega
  | peer | dropped => simp [Pc.over] at hover'
  | nodelay hpc =>
    -- Two steps of the registration come before its `add`.
    have hleft : leftAt s.reactor s.owner ≤ 2 := by
      obtain ⟨-, o, hi, -, hholds⟩ := howns.attempt hfree
      simp only [Pc.Holds, hpc] at hholds
      simp [leftAt, hi, hholds, left]
    simp only [late, hpc]
    omega
  | noNodelay hpc error reactor hr =>
    have hle : leftAt reactor s.owner ≤ 4 := left_le howns' (.inl ⟨error, rfl⟩)
    simp only [late, hpc]
    omega
  | register hpc o ho hp reactor hr =>
    have hlt := left_advance howns hfree hr
    simp only [late, hpc]
    omega
  | added hpc =>
    simp only [late, hpc]
    omega
  | notAdded hpc error reactor hr =>
    have hle : leftAt reactor s.owner ≤ 4 := left_le howns' (.inl ⟨error, rfl⟩)
    simp only [late, hpc]
    omega
  | sendBuffer hpc size =>
    unfold State.connected
    split
    · simp only [late, hpc]
      split <;> omega
    · simp only [late, hpc]
      omega
  | again waker act hact hpc =>
    -- A poll that nobody asked for brings the call as far as another.
    unfold State.connected
    split <;> simp only [late, hpc] <;> split <;> omega
  | noError hpc fault hnone =>
    rcases hhandshake (by simp [hpc, Pc.asked]) with hest | ⟨error, hfailed⟩
    · simp only [late, hpc, hest, if_true]
      omega
    · rw [hfailed] at hnone
      cases fault <;> cases hnone
  | soError hpc fault error he reactor hr =>
    -- The error is read once, and the attempt goes on to its drop.
    have hle : leftAt reactor s.owner ≤ 4 := left_le howns' (.inl ⟨error, rfl⟩)
    simp only [late, hpc]
    omega
  | noPeer hpc hne =>
    simp only [late, hpc, if_neg hne]
    omega
  | park hpc =>
    simp only [late, hpc, Wakers.pollWritable, hready.writable, if_true]
    omega
  | wakeSelf hpc =>
    simp only [late, hpc]
    omega
  | close hpc reactor hr =>
    have hlt := left_advance howns hfree hr
    rcases hpc with ⟨error, hpc⟩ | hpc <;> simp only [late, hpc] <;> omega
  | cancel hpc reactor hr =>
    have hle : leftAt reactor s.owner ≤ 4 := left_le howns' (.inr rfl)
    simp only [late, hpc]
    omega
  | settle error hflight =>
    -- Only an attempt that is being dropped can have its handshake in flight.
    have hpc : (∃ error, s.pc = .closing error) ∨ s.pc = .dropping := by
      cases hpc : s.pc <;> simp_all [Pc.asked, Pc.free, Pc.before, Pc.over]
    refine ⟨?_, by simp [Action.runs]⟩
    rcases hpc with ⟨error, hpc⟩ | hpc <;> simp only [late, hpc] <;> omega
  | reset error hest =>
    -- The thread has a shorter way from a handshake that has failed.
    refine ⟨?_, by simp [Action.runs]⟩
    simp only [late, hest]
    split <;> simp
  | dispatch => exact ⟨Nat.le_refl _, by simp [Action.runs]⟩
  | wake =>
    unfold State.wakeTask
    split <;> exact ⟨Nat.le_refl _, by simp [Action.runs]⟩
  | other act hne reactor hr =>
    refine ⟨?_, by simp [Action.runs]⟩
    simp only [late, left_other howns hfree hne hr]
    exact Nat.le_refl _

/-- A handshake goes in flight in the call of `connect` and at no other time. -/
theorem inFlight_step {act : Action} (hbefore : s.pc.before = false)
    (hs : step backend addrs s act = some s') (hasked : s'.pc.asked = true)
    (hh : s'.handshake = .inFlight) : s.pc.asked = true ∧ s.handshake = .inFlight := by
  cases step_move hs with
  | start | take | exhausted | opened | cancelNew | refused | noNodelay | notAdded | soError
  | dropped | cancel => cases hasked
  | noSocket | closed => cases hasked
  | asked hpc => simp [Pc.before, hpc] at hbefore
  | nodelay hpc | register hpc | added hpc | noError hpc | peer hpc | noPeer hpc | park hpc
  | wakeSelf hpc => exact ⟨by simp [hpc, Pc.asked], hh⟩
  | again waker act hact hpc | sendBuffer hpc =>
    unfold State.connected at hh
    split at hh <;> exact ⟨by simp [hpc, Pc.asked], hh⟩
  | settle error => cases error <;> cases hh
  | reset error => cases hh
  | close | dispatch | other => exact ⟨hasked, hh⟩
  | wake =>
    unfold State.wakeTask at hasked hh
    split at hasked <;> rename_i hw
    · rw [if_pos hw] at hh
      exact ⟨hasked, hh⟩
    · rw [if_neg hw] at hh
      exact ⟨hasked, hh⟩

/-- Where a step from a stage after the call of `connect` leads. -/
theorem stage_step {k : Nat} {act : Action} (hk : s.tried = k) (hbefore : s.pc.before = false)
    (hs : step backend addrs s act = some s') : After k s' ∨ InFlight k s' ∨ Settled k s' := by
  rcases tried_step hs with hlt | ⟨ht, hb⟩
  · exact .inl (.inr (hk ▸ hlt))
  · rcases stages (Nat.le_of_eq (ht.trans hk).symm) with h | h | h
    · exact .inl h
    · have hcontra := h.2
      rw [hb hbefore] at hcontra
      cases hcontra
    · exact .inr h

/-! ### The call returns -/

variable {ρ : (system backend addrs).Path}

/-- An attempt comes to its call of `connect`, or is over without it. -/
theorem before_ends (fair : ρ.WeakFair fun act => act.runs = true) (k : Nat) :
    ρ.LeadsTo (Before k) (fun s => After k s ∨ InFlight k s ∨ Settled k s) := by
  have hstep : ∀ s act s', Before k s → step backend addrs s act = some s' →
      (After k s' ∨ InFlight k s' ∨ Settled k s') ∨ Before k s' := by
    intro s act s' h hs
    rcases tried_step hs with hlt | ⟨ht, -⟩
    · exact .inl (.inl (.inr (h.1 ▸ hlt)))
    · rcases stages (Nat.le_of_eq (ht.trans h.1).symm) with hq | hq | hq
      · exact .inl (.inl hq)
      · exact .inr hq
      · exact .inl (.inr hq)
  refine leadsTo_of_rank early fair ?_ ?_ ?_
  · intro s act s' _ h hs
    exact (hstep s act s' h hs).imp id fun h' => ⟨h', (early_step h h' hs).1⟩
  · intro s act s' _ h hruns hs
    exact (hstep s act s' h hs).imp id fun h' => (early_step h h' hs).2 hruns
  · intro s hr h
    refine .inr (runs_enabled hr ?_)
    have hbefore := h.2
    cases hpc : s.pc <;> simp_all [Pc.before, Pc.over]

/-- The network settles a handshake that is in flight, unless the attempt is over before. -/
theorem inFlight_ends (network : ρ.WeakFair fun act => ∃ error, act = .settle error) (k : Nat) :
    ρ.LeadsTo (InFlight k) (fun s => After k s ∨ Settled k s) := by
  refine leadsTo_of_step network ?_ ?_ ?_
  · intro s act s' _ h hs
    rcases stage_step h.1 h.2.2.1 hs with hq | hq | hq
    · exact .inl (.inl hq)
    · exact .inr hq
    · exact .inl (.inr hq)
  · rintro s act s' _ h ⟨error, rfl⟩ hs
    have hs : step backend addrs s (.settle error) = some s' := hs
    rcases stage_step h.1 h.2.2.1 hs with hq | hq | hq
    · exact .inl hq
    · -- The handshake is established or failed now.
      have hflight := hq.2.2.2.2
      cases step_move hs with
      | settle => cases error <;> cases hflight
      | again waker act hact => rcases hact with hact | hact <;> cases hact
    · exact .inr hq
  · intro s _ h
    refine .inr ⟨.settle none, ⟨none, rfl⟩, ?_⟩
    show (step backend addrs s (.settle none)).isSome = true
    simp [step, h.2.2.2.2, h.2.1]

/-- A settled attempt comes to its end. -/
theorem settled_ends (fair : ρ.WeakFair fun act => act.runs = true) (k : Nat) :
    ρ.LeadsTo (Settled k) (After k) := by
  have hstep : ∀ s act s', Settled k s → step backend addrs s act = some s' →
      After k s' ∨ Settled k s' := by
    intro s act s' h hs
    rcases stage_step h.1 h.2.2.1 hs with hq | hq | hq
    · exact .inl hq
    · obtain ⟨hasked, hflight⟩ := inFlight_step h.2.2.1 hs hq.2.2.2.1 hq.2.2.2.2
      exact absurd hflight (h.2.2.2 hasked)
    · exact .inr hq
  have hlate : ∀ s act s', (system backend addrs).Reachable s → Settled k s → Settled k s' →
      step backend addrs s act = some s' →
      late s' ≤ late s ∧ (act.runs = true → late s' < late s) := by
    intro s act s' hr h h' hs
    exact late_step (owns_of_reachable hr) (owns_step (owns_of_reachable hr) hs)
      (ready_of_reachable hr) h h' hs
  refine leadsTo_of_rank late fair ?_ ?_ ?_
  · intro s act s' hr h hs
    exact (hstep s act s' h hs).imp id fun h' => ⟨h', (hlate s act s' hr h h' hs).1⟩
  · intro s act s' hr h hruns hs
    exact (hstep s act s' h hs).imp id fun h' => (hlate s act s' hr h h' hs).2 hruns
  · exact fun s hr h => .inr (runs_enabled hr h.2.1)

/-- An attempt comes to its end. -/
theorem attempt_ends (fair : ρ.WeakFair fun act => act.runs = true)
    (network : ρ.WeakFair fun act => ∃ error, act = .settle error) (k : Nat) :
    ρ.LeadsTo (fun s => s.tried = k) (After k) := by
  have hafter : ρ.LeadsTo (After k) (After k) := leadsTo_of_imp fun _ _ h => h
  have hflight : ρ.LeadsTo (InFlight k) (After k) :=
    (inFlight_ends network k).trans
      (.cases (fun _ _ h => h) hafter (settled_ends fair k))
  have hlater : ρ.LeadsTo (fun s => InFlight k s ∨ Settled k s) (After k) :=
    .cases (fun _ _ h => h) hflight (settled_ends fair k)
  have hbefore : ρ.LeadsTo (Before k) (After k) :=
    (before_ends fair k).trans (.cases (fun _ _ h => h) hafter hlater)
  exact .cases (fun _ _ h => stages (Nat.le_of_eq h.symm)) hafter
    (.cases (fun _ _ h => h) hbefore hlater)

/-- The call comes to its end, when it is at the address number `k`. -/
theorem loop_ends (fair : ρ.WeakFair fun act => act.runs = true)
    (network : ρ.WeakFair fun act => ∃ error, act = .settle error) (n k : Nat)
    (hn : addrs.length + 1 ≤ k + n) :
    ρ.LeadsTo (fun s => s.tried = k) (fun s => s.pc.over = true) := by
  -- `n` is at least the number of the addresses from `k` on, and one more.
  induction n generalizing k with
  | zero =>
    refine leadsTo_of_imp fun s hr hk => ?_
    have hle := (place_of_reachable hr).le
    omega
  | succ n ih =>
    intro m hk
    obtain ⟨m', hm, hover | hlt⟩ := attempt_ends fair network k m hk
    · exact ⟨m', hm, hover⟩
    · obtain ⟨m'', hm', hover⟩ := ih (ρ.state m').tried (by omega) m' rfl
      exact ⟨m'', Nat.le_trans hm hm', hover⟩

/-- The call was dropped. -/
def Pc.cancelled : Pc → Bool
  | .dropping | .dropped => true
  | _ => false

/-- Nothing but the drop of the call makes it a dropped one. -/
theorem cancelled_step {act : Action} (h : s.pc.cancelled = false) (hact : act ≠ .cancel)
    (hs : step backend addrs s act = some s') : s'.pc.cancelled = false := by
  cases step_move hs with
  | cancelNew | cancel => exact absurd rfl hact
  | dropped hpc => simp [hpc, Pc.cancelled] at h
  | again | sendBuffer =>
    unfold State.connected
    split <;> rfl
  | park | asked =>
    dsimp only
    split <;> rfl
  | wake =>
    unfold State.wakeTask
    split <;> exact h
  | close | settle | reset | dispatch | other => exact h
  | _ => rfl

/-- `connect_any` comes to its end on every path that is fair to its own thread and on which no
handshake is in flight for ever: it returns or it is dropped, and it returns when nobody drops
it. -/
theorem connect_any_returns (fair : ρ.WeakFair fun act => act.runs = true)
    (network : ρ.WeakFair fun act => ∃ error, act = .settle error) :
    ρ.LeadsTo (fun _ => True) (fun s => s.pc.over = true) ∧
    ((∀ n, ρ.label n ≠ some .cancel) →
      ρ.LeadsTo (fun _ => True) (fun s => ∃ result, s.pc = .done result)) := by
  have hover : ρ.LeadsTo (fun _ => True) (fun s => s.pc.over = true) := fun n _ =>
    loop_ends fair network (addrs.length + 1) (ρ.state n).tried (Nat.le_add_left _ _) n rfl
  refine ⟨hover, fun hkept n _ => ?_⟩
  have hnot : ∀ m, (ρ.state m).pc.cancelled = false := by
    intro m
    induction m with
    | zero =>
      obtain ⟨reactor, -, h0⟩ := ρ.init
      rw [h0]
      rfl
    | succ m ih =>
      have hnext := ρ.next m
      cases hlabel : ρ.label m with
      | none =>
        rw [hlabel] at hnext
        rw [hnext]
        exact ih
      | some act =>
        rw [hlabel] at hnext
        refine cancelled_step ih ?_ hnext
        rintro rfl
        exact hkept m hlabel
  obtain ⟨m, hm, hend⟩ := hover n trivial
  refine ⟨m, hm, ?_⟩
  have hc := hnot m
  cases hpc : (ρ.state m).pc with
  | done result => exact ⟨result, hpc⟩
  | dropped => simp [hpc, Pc.cancelled] at hc
  | _ => simp [hpc, Pc.over] at hend

/-- A call that is over takes no step. -/
theorem over_stuck {act : Action} (hover : s.pc.over = true) (hruns : act.runs = true) :
    step backend addrs s act = none := by
  cases hs : step backend addrs s act with
  | none => rfl
  | some s' =>
    cases step_move hs with
    | close hpc => rcases hpc with ⟨error, hpc⟩ | hpc <;> simp [Pc.over, hpc] at hover
    | _ => simp_all [Pc.over, Action.runs]

/-- The call parks while the handshake with the first address is in flight, the network settles it,
and the call returns the stream. -/
theorem connect_any_returns_settled :
    ∃ ρ : (system .epoll dualStack).Path,
      (∃ n, (ρ.state n).pc = .idle ∧ (ρ.state n).handshake = .inFlight) ∧
      ρ.LeadsTo (fun _ => True) (fun s => ∃ result, s.pc = .done result) := by
  let labels : List Action := [.poll 5, .next, .socket (.ok 3), .connect (some 115), .nodelay none,
    .register, .register, .add none, .sendBuffer (some 16384), .soError none, .peerAddr, .park,
    .wakeSelf, .settle none, .poll 6, .soError none, .peerAddr]
  obtain ⟨s, hs, hpc⟩ : ∃ s, (system .epoll dualStack).run
      (new .linux (Descriptors.new fun _ => false)) labels = some s ∧
      s.pc = .done (.ok 0) := ⟨_, rfl, rfl⟩
  have hover : s.pc.over = true := by rw [hpc]; rfl
  refine ⟨.ofRun labels init_dualStack hs, ⟨13, rfl, rfl⟩,
    (connect_any_returns ?_ ?_).2 fun n => ?_⟩
  · refine Lts.Path.fair_ofRun ?_
    rintro ⟨act, hruns, hen⟩
    have hstuck : (system .epoll dualStack).next s act = none := over_stuck hover hruns
    rw [hstuck] at hen
    cases hen
  · refine Lts.Path.fair_ofRun ?_
    rintro ⟨_, ⟨error, rfl⟩, hen⟩
    have hstuck : (system .epoll dualStack).next s (.settle error) = none := by
      show step .epoll dualStack s (.settle error) = none
      simp [step, hover]
    rw [hstuck] at hen
    cases hen
  · show labels[n]? ≠ some .cancel
    intro h
    have hmem := List.mem_of_getElem? h
    simp [labels] at hmem

end Nagoya.Net.Connect
