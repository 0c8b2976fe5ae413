import Nagoya.Net.Idle
import Nagoya.Proofs.Reactor.Driver

/-!
# `Nagoya.Proofs.Net.Idle`: an idle wait spins

The slot starts ready in both directions, and neither future ever takes the readiness it waits
for. So the flag that `poll_readable` and `poll_writable` look at stays set for the whole wait,
and every poll wakes its caller. The count of such wakes is the count of polls, whatever events
come in, and the future is never at rest between two polls.
-/

set_option autoImplicit false

namespace Nagoya.Net

open Nagoya.Lib Nagoya.Reactor

namespace Idle

/-- The kernel has nothing yet: `accept` would block, and a handshake is in flight, so that
`SO_ERROR` is zero and `getpeername` fails. -/
def StaysIdle (s : State) : Action → Bool
  | .advance answer =>
    match s.pc with
    | .accept => answer = .wouldBlock
    | .soError => answer = .done
    | .peerAddr => answer ≠ .done
    | _ => true
  | _ => true

/-- The readiness that the future waits for. -/
def Kind.ready (kind : Kind) (w : Wakers) : Bool :=
  match kind with
  | .accept => w.readable
  | .connected => w.writable

/-- The invariant of an idle wait. `ready` is the cause: nobody clears the flag. -/
structure Inv (kind : Kind) (s : State) : Prop where
  ready : kind.ready s.slot = true
  connecting : s.connecting = true
  wakes : s.selfWakes = s.polls
  idle : s.pc = .idle →
    s.returned = .nothing ∧ s.polls = 0 ∨ s.returned = .pending ∧ s.woken = true

variable {kind : Kind} {s s' : State}

theorem inv_new (waker : Waker) : Inv kind (new waker) where
  ready := by cases kind <;> rfl
  connecting := rfl
  wakes := rfl
  idle _ := .inl ⟨rfl, rfl⟩

/-- A future that finds the flag set is woken by itself. -/
theorem park_of_ready {w : Wakers} (h : kind.ready w = true) (waker : Waker) :
    kind.park w waker = (w, true) := by
  cases kind with
  | accept =>
    have hr : w.readable = true := h
    show w.pollReadable waker = (w, true)
    unfold Wakers.pollReadable
    rw [hr]
    rfl
  | connected =>
    have hr : w.writable = true := h
    show w.pollWritable waker = (w, true)
    unfold Wakers.pollWritable
    rw [hr]
    rfl

/-- An event sets flags and clears none. -/
theorem ready_dispatch {w : Wakers} (h : kind.ready w = true) (event : Readiness) :
    kind.ready (w.dispatch event).1 = true := by
  cases kind with
  | accept =>
    have hr : w.readable = true := h
    show (w.dispatch event).1.readable = true
    rw [Wakers.dispatch_readable, hr]
    rfl
  | connected =>
    have hr : w.writable = true := h
    show (w.dispatch event).1.writable = true
    rw [Wakers.dispatch_writable, hr]
    rfl

/-- The beginning of a poll. -/
theorem Inv.start (h : Inv kind s) : Inv kind (start kind s) := by
  cases kind with
  | accept => exact ⟨h.ready, h.connecting, h.wakes, fun hpc => by cases hpc⟩
  | connected =>
    rw [show Idle.start .connected s = { s with pc := .soError, woken := false } from
      if_pos h.connecting]
    exact ⟨h.ready, h.connecting, h.wakes, fun hpc => by cases hpc⟩

/-- The steps of a poll. -/
theorem Inv.advance (h : Inv kind s) {answer : Answer}
    (hok : StaysIdle s (.advance answer) = true) (hs : advance kind s answer = some s') :
    Inv kind s' := by
  unfold Idle.advance at hs
  cases hpc : s.pc with
  | idle => simp [hpc] at hs
  | accept =>
    -- An accept with no connection says `EWOULDBLOCK`, so the call goes on to park.
    simp only [StaysIdle, hpc, decide_eq_true_eq] at hok
    subst hok
    simp only [hpc, Option.some.injEq] at hs
    subst hs
    exact ⟨h.ready, h.connecting, h.wakes, fun hidle => by cases hidle⟩
  | soError =>
    simp only [StaysIdle, hpc, decide_eq_true_eq] at hok
    subst hok
    simp only [hpc, Option.some.injEq] at hs
    subst hs
    exact ⟨h.ready, h.connecting, h.wakes, fun hidle => by cases hidle⟩
  | peerAddr =>
    -- Before a handshake ends `getpeername` only fails.
    simp only [StaysIdle, hpc, decide_eq_true_eq] at hok
    cases answer with
    | done => exact absurd rfl hok
    | failed error =>
      simp only [hpc, Option.some.injEq] at hs
      subst hs
      exact ⟨h.ready, h.connecting, h.wakes, fun hidle => by cases hidle⟩
    | wouldBlock | interrupted | transient => simp [hpc] at hs
  | park =>
    -- The flag is up, so the caller is not parked but wakes itself.
    simp only [hpc, park_of_ready h.ready, Option.some.injEq] at hs
    subst hs
    exact ⟨h.ready, h.connecting, h.wakes, fun hidle => by cases hidle⟩
  | wakeSelf =>
    simp only [hpc, Option.some.injEq] at hs
    subst hs
    refine ⟨h.ready, h.connecting, ?_, fun _ => .inr ⟨rfl, rfl⟩⟩
    show s.selfWakes + 1 = s.polls + 1
    rw [h.wakes]

/-- Every step of an idle wait keeps the invariant. -/
theorem step_inv {act : Action} (h : Inv kind s) (hs : step kind s act = some s')
    (hok : StaysIdle s act = true) : Inv kind s' := by
  cases act with
  | poll =>
    -- A call is polled first when it is made, and then when it was woken.
    simp only [step] at hs
    split at hs
    · cases hs
      exact h.start
    · cases hs
      exact h.start
    · cases hs
  | advance answer => exact h.advance hok hs
  | dispatch event =>
    cases hs
    -- A report only raises flags, and the one that matters is up for good.
    exact ⟨ready_dispatch h.ready event, h.connecting, h.wakes, h.idle⟩
  | wake i =>
    simp only [step] at hs
    split at hs
    · cases hs
    · cases hs
      -- A wakeup that is on its way may be the one of the call itself.
      unfold State.wakeTask
      split
      · exact ⟨h.ready, h.connecting, h.wakes,
          fun hpc => (h.idle hpc).imp_right fun hp => ⟨hp.1, rfl⟩⟩
      · exact ⟨h.ready, h.connecting, h.wakes, h.idle⟩

/-- The invariant holds in every state of an idle wait. -/
theorem inv_of_reach
    (h : (system kind).Reach (fun s act _ => StaysIdle s act = true) s) : Inv kind s :=
  h.invariant (fun _ ⟨waker, h0⟩ => by rw [h0]; exact inv_new waker)
    fun _ _ _ hi hs hok => step_inv hi hs hok

/-! ### Polls without events -/

/-- The steps of one poll that finds nothing. -/
def Kind.onePoll : Kind → List Action
  | .accept => [.poll, .advance .wouldBlock, .advance .done, .advance .done]
  | .connected =>
    [.poll, .advance .done, .advance (.failed 107), .advance .done, .advance .done]

/-- The state after such a poll. -/
def spun (s : State) : State :=
  { s with
    pc := .idle, woken := true, returned := .pending, polls := s.polls + 1
    selfWakes := s.selfWakes + 1 }

/-- Between two polls the future may be polled. -/
theorem Inv.poll_enabled (h : Inv kind s) (hpc : s.pc = .idle) :
    step kind s .poll = some (Idle.start kind s) := by
  unfold step
  rcases h.idle hpc with ⟨hret, -⟩ | ⟨hret, hwoken⟩
  · rw [hpc, hret]
  · rw [hpc, hret, hwoken]

/-- A poll goes from one rest to the next, wakes its caller, and needs no event. -/
theorem Inv.runWhere_onePoll (h : Inv kind s) (hpc : s.pc = .idle) :
    (system kind).runWhere (fun s act _ => StaysIdle s act = true) s kind.onePoll =
      some (spun s) := by
  have hpoll := h.poll_enabled hpc
  have hpark := fun waker => park_of_ready h.ready waker
  cases kind with
  | accept =>
    simp only [Kind.onePoll, Lts.runWhere, system, hpoll]
    simp [Idle.start, step, Idle.advance, StaysIdle, hpark, State.finish, spun]
  | connected =>
    simp only [Kind.onePoll, Lts.runWhere, system, hpoll]
    simp [Idle.start, step, Idle.advance, StaysIdle, hpark, State.finish, spun, h.connecting]

theorem Inv.spun (h : Inv kind s) : Inv kind (spun s) where
  ready := h.ready
  connecting := h.connecting
  wakes := by
    show s.selfWakes + 1 = s.polls + 1
    rw [h.wakes]
  idle _ := .inr ⟨rfl, rfl⟩

/-- Any number of polls follow each other with no event between them. -/
theorem Inv.spins (h : Inv kind s) (hpc : s.pc = .idle) (n : Nat) :
    ∃ s', (system kind).runWhere (fun s act _ => StaysIdle s act = true) s
        (List.replicate n kind.onePoll).flatten = some s' ∧
      s'.selfWakes = s.selfWakes + n ∧ s'.events = s.events ∧
      s'.writableEvents = s.writableEvents := by
  induction n generalizing s with
  | zero => exact ⟨s, rfl, rfl, rfl, rfl⟩
  | succ n ih =>
    obtain ⟨s', hrun, hwakes, hevents⟩ := ih h.spun rfl
    refine ⟨s', ?_, ?_, hevents⟩
    · rw [List.replicate_succ, List.flatten_cons, Lts.runWhere_append, h.runWhere_onePoll hpc]
      exact hrun
    · rw [hwakes]
      show s.selfWakes + 1 + n = s.selfWakes + (n + 1)
      omega

/-- A future that was polled is never at rest: it is woken still. -/
theorem Inv.woken (h : Inv kind s) (hpc : s.pc = .idle) (hpolls : 0 < s.polls) :
    s.woken = true := by
  rcases h.idle hpc with ⟨-, hzero⟩ | ⟨-, hwoken⟩
  · omega
  · exact hwoken

/-- An idle accept spins. In every run of an `Accept` future on a listener that was just bound, in
which `accept` keeps answering that it would block, `poll_accept` wakes its own caller at most
once more than there were events if and only if it was polled no more often than that. It never
comes to rest after a poll, and with no event it goes on for as long as it is polled. -/
theorem accept_self_wakes
    (h : (system .accept).Reach (fun s act _ => StaysIdle s act = true) s) :
    (s.selfWakes ≤ 1 + s.events ↔ s.polls ≤ 1 + s.events) ∧
    (s.pc = .idle → 0 < s.polls → s.woken = true) ∧
    (s.pc = .idle → ∀ n, ∃ s',
      (system .accept).runWhere (fun s act _ => StaysIdle s act = true) s
          (List.replicate n Kind.accept.onePoll).flatten = some s' ∧
        s'.selfWakes = s.selfWakes + n ∧ s'.events = s.events) := by
  have hi := inv_of_reach h
  refine ⟨by rw [hi.wakes], hi.woken, fun hpc n => ?_⟩
  obtain ⟨s', hrun, hwakes, hevents, -⟩ := hi.spins hpc n
  exact ⟨s', hrun, hwakes, hevents⟩

/-- One poll and one event: the bound holds, and the future is not at rest. -/
theorem accept_self_wakes_event :
    ∃ s, (system .accept).Reach (fun s act _ => StaysIdle s act = true) s ∧ s.events = 1 ∧
      s.selfWakes ≤ 1 + s.events ∧ s.woken = true := by
  obtain ⟨s, hr, hp⟩ := Lts.Reach.exists_of_runWhere (M := system .accept) (s := new 5)
    (fun s act _ => StaysIdle s act = true)
    (.dispatch ⟨true, false, false⟩ :: Kind.accept.onePoll)
    (fun s => s.events = 1 ∧ s.polls = 1 ∧ s.pc = .idle) ⟨5, rfl⟩ (by decide)
  obtain ⟨hevents, hpolls, hpc⟩ : s.events = 1 ∧ s.polls = 1 ∧ s.pc = .idle := by simpa using hp
  obtain ⟨hiff, hrest, -⟩ := accept_self_wakes hr
  exact ⟨s, hr, hevents, hiff.mpr (by omega), hrest hpc (by omega)⟩

/-- Two polls with no event wake the caller twice, and it is woken still. -/
theorem accept_spins :
    ∃ s, (system .accept).Reach (fun s act _ => StaysIdle s act = true) s ∧
      s.events = 0 ∧ s.pc = .idle ∧ s.woken = true ∧ ¬ s.selfWakes ≤ 1 + s.events := by
  obtain ⟨s, hr, hp⟩ := Lts.Reach.exists_of_runWhere (M := system .accept) (s := new 5)
    (fun s act _ => StaysIdle s act = true)
    (Kind.accept.onePoll ++ Kind.accept.onePoll)
    (fun s => s.events = 0 ∧ s.pc = .idle ∧ s.woken = true ∧ ¬ s.selfWakes ≤ 1 + s.events)
    ⟨5, rfl⟩ (by decide)
  exact ⟨s, hr, by simpa using hp⟩

/-- Waiting for a connect spins in the same way. In every run of a `Connected` future on a stream
whose handshake is in flight, the bound on the wakes of its own caller holds if and only if the
future was polled no more often than once more than there were writable events. It never comes to
rest after a poll, and with no event of any kind it goes on for as long as it is polled. -/
theorem connected_self_wakes
    (h : (system .connected).Reach (fun s act _ => StaysIdle s act = true) s) :
    (s.selfWakes ≤ 1 + s.writableEvents ↔ s.polls ≤ 1 + s.writableEvents) ∧
    (s.pc = .idle → 0 < s.polls → s.woken = true) ∧
    (s.pc = .idle → ∀ n, ∃ s',
      (system .connected).runWhere (fun s act _ => StaysIdle s act = true) s
          (List.replicate n Kind.connected.onePoll).flatten = some s' ∧
        s'.selfWakes = s.selfWakes + n ∧ s'.events = s.events ∧
        s'.writableEvents = s.writableEvents) := by
  have hi := inv_of_reach h
  exact ⟨by rw [hi.wakes], hi.woken, hi.spins⟩

/-- One poll and one writable event: the bound holds, and the future is not at rest. -/
theorem connected_self_wakes_event :
    ∃ s, (system .connected).Reach (fun s act _ => StaysIdle s act = true) s ∧
      s.writableEvents = 1 ∧ s.selfWakes ≤ 1 + s.writableEvents ∧ s.woken = true := by
  obtain ⟨s, hr, hp⟩ := Lts.Reach.exists_of_runWhere (M := system .connected) (s := new 5)
    (fun s act _ => StaysIdle s act = true)
    (.dispatch ⟨false, true, false⟩ :: Kind.connected.onePoll)
    (fun s => s.writableEvents = 1 ∧ s.polls = 1 ∧ s.pc = .idle) ⟨5, rfl⟩ (by decide)
  obtain ⟨hevents, hpolls, hpc⟩ : s.writableEvents = 1 ∧ s.polls = 1 ∧ s.pc = .idle := by
    simpa using hp
  obtain ⟨hiff, hrest, -⟩ := connected_self_wakes hr
  exact ⟨s, hr, hevents, hiff.mpr (by omega), hrest hpc (by omega)⟩

/-- Two polls of a connect in flight wake the caller twice with no event. -/
theorem connected_spins :
    ∃ s, (system .connected).Reach (fun s act _ => StaysIdle s act = true) s ∧
      s.events = 0 ∧ s.pc = .idle ∧ s.woken = true ∧ ¬ s.selfWakes ≤ 1 + s.writableEvents := by
  obtain ⟨s, hr, hp⟩ := Lts.Reach.exists_of_runWhere (M := system .connected) (s := new 5)
    (fun s act _ => StaysIdle s act = true)
    (Kind.connected.onePoll ++ Kind.connected.onePoll)
    (fun s => s.events = 0 ∧ s.pc = .idle ∧ s.woken = true ∧
      ¬ s.selfWakes ≤ 1 + s.writableEvents)
    ⟨5, rfl⟩ (by decide)
  exact ⟨s, hr, by simpa using hp⟩

end Idle

end Nagoya.Net
