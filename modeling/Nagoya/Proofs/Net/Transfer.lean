import Nagoya.Net.Transfer
import Nagoya.Proofs.Reactor.Driver

/-!
# `Nagoya.Proofs.Net.Transfer`: what a failed call leaves behind

A call that returns an error of its system call has learnt nothing about readiness. The calls of
UDP sockets and of pipes put it back, so the next call looks at the descriptor again. The calls of
TCP streams do not: after an error the flag of the slot is set exactly if an event for the
direction came in since the call took it. `failed_leaves` is the fact for every run, and the two
invariants behind it are that the flag is the edge while a call holds readiness, and that it is
set once a call has put it back.
-/

set_option autoImplicit false

namespace Nagoya.Net

open Nagoya.Lib Nagoya.Reactor

namespace Transfer

/-- The cached readiness of the direction. -/
def flag (d : Direction) (w : Wakers) : Bool :=
  match d with
  | .read => w.readable
  | .write => w.writable

/-- The call puts readiness back when its system call fails. -/
def Kind.restoresOnError (k : Kind) : Bool := k.isPipe || k.isUdp

section Slot

variable (d : Direction) (w : Wakers)

@[simp] theorem flag_mark : flag d (w.mark d) = true := by
  cases d <;> rfl

@[simp] theorem flag_cancelWait : flag d (w.cancelWait d) = flag d w := by
  cases d <;> rfl

@[simp] theorem flag_writeOther (waker : Option Waker) (b : Bool) :
    flag d (writeOther d w waker b) = flag d w := by
  cases d <;> rfl

@[simp] theorem flag_dispatch (event : Readiness) :
    flag d (w.dispatch event).1 = (flag d w || isFor d event) := by
  cases d with
  | read => exact w.dispatch_readable event
  | write => exact w.dispatch_writable event

/-- The next call looks at the descriptor when the flag is set, and a reader also after a
hang-up. -/
theorem takeOrPark_taken (waker : Waker) :
    (w.takeOrPark d waker).2 = (flag d w || (decide (d = .read) && w.hangup)) := by
  cases d with
  | read =>
    show (w.takeReadableOrPark waker).2 = (w.readable || w.hangup)
    unfold Wakers.takeReadableOrPark
    cases w.readable <;> cases w.hangup <;> rfl
  | write =>
    show (w.takeWritableOrPark waker).2 = (w.writable || false)
    unfold Wakers.takeWritableOrPark
    cases w.writable <;> rfl

/-- A call that takes readiness leaves the flag clear. -/
theorem flag_takeOrPark {slot : Wakers} {waker : Waker}
    (h : w.takeOrPark d waker = (slot, true)) : flag d slot = false := by
  cases d with
  | read =>
    have h' : w.takeReadableOrPark waker = (slot, true) := h
    rcases w.takeReadableOrPark_cases waker with hc | ⟨-, -, hc⟩
    · rw [hc] at h'
      cases h'
      rfl
    · rw [hc] at h'
      cases h'
  | write =>
    have h' : w.takeWritableOrPark waker = (slot, true) := h
    rcases w.takeWritableOrPark_cases waker with ⟨-, hc⟩ | ⟨-, hc⟩
    · rw [hc] at h'
      cases h'
      rfl
    · rw [hc] at h'
      cases h'

end Slot

/-- The invariant: while a call holds readiness the flag is the edge that came in since, only a
call of a UDP socket or a pipe puts it back after an error, and it is set after that. -/
structure Inv (d : Direction) (s : State) : Prop where
  held : s.pc = .call → flag d s.slot = s.edge
  marking : ∀ error, s.pc = .mark (some (.failed error)) → s.current.kind.restoresOnError = true
  released : ∀ result, s.pc = .release result →
    flag d s.slot = true ∧ s.current.kind.restoresOnError = true
  failed : ∀ error, s.pc = .idle → s.returned = some (.failed error) →
    if s.current.kind.restoresOnError then flag d s.slot = true else flag d s.slot = s.edge

variable {d : Direction} {s s' : State}

/-- A call is at a place where the invariant asks nothing of the slot. -/
theorem Inv.elsewhere (hcall : s.pc ≠ .call) (hmark : ∀ e, s.pc ≠ .mark (some (.failed e)))
    (hrel : ∀ result, s.pc ≠ .release result)
    (hidle : s.pc = .idle → ∀ e, s.returned ≠ some (.failed e)) : Inv d s where
  held hpc := absurd hpc hcall
  marking error hpc := absurd hpc (hmark error)
  released result hpc := absurd hpc (hrel result)
  failed error hpc hret := absurd hret (hidle hpc error)

theorem inv_new : Inv d new := by
  apply Inv.elsewhere <;> simp [new]

/-- A call that returns something other than an error. -/
theorem Inv.finish {result : Result} (h : ∀ error, result ≠ .failed error) :
    Inv d (s.finish result) := by
  apply Inv.elsewhere
  · simp [State.finish]
  · simp [State.finish]
  · simp [State.finish]
  · intro _ error
    simp [State.finish, h error]

/-- A call that returns an error with the flag as it should be. -/
theorem Inv.finish_failed {error : Nat}
    (h : if s.current.kind.restoresOnError then flag d s.slot = true
      else flag d s.slot = s.edge) : Inv d (s.finish (.failed error)) where
  held hpc := by cases hpc
  marking _ hpc := by cases hpc
  released _ hpc := by cases hpc
  failed _ _ _ := h

/-- A call that returns with the flag set returns as it may. -/
theorem Inv.finish_marked {result : Result} (hflag : flag d s.slot = true)
    (hkind : ∀ error, result = .failed error → s.current.kind.restoresOnError = true) :
    Inv d (s.finish result) := by
  cases result with
  | failed error =>
    apply Inv.finish_failed
    rw [if_pos (hkind error rfl)]
    exact hflag
  | pending => exact .finish (by simp)
  | ready n => exact .finish (by simp)

/-- The answer of the system call. -/
theorem Inv.answered (h : Inv d s) (hpc : s.pc = .call) (answer : Answer) :
    Inv d (answered s answer) := by
  unfold Transfer.answered
  cases answer with
  | moved n left =>
    simp only
    split
    · apply Inv.elsewhere <;> simp
    · exact .finish (by simp)
  | wouldBlock =>
    simp only
    split
    · apply Inv.elsewhere <;> simp
    · apply Inv.elsewhere <;> simp
  | interrupted =>
    simp only
    split
    · apply Inv.elsewhere <;> simp
    · exact h
  | failed error =>
    simp only
    split
    · rename_i hkind
      exact ⟨fun hc => (by cases hc), fun _ _ => hkind, fun _ hc => (by cases hc),
        fun _ hc => (by cases hc)⟩
    · -- A stream returns the error and leaves the flag as it is.
      rename_i hkind
      apply Inv.finish_failed
      rw [if_neg (show ¬ s.current.kind.restoresOnError = true from hkind)]
      exact h.held hpc

/-- The steps of a call. -/
theorem Inv.advance (h : Inv d s) {answer : Answer} (hs : advance d s answer = some s') :
    Inv d s' := by
  unfold Transfer.advance at hs
  cases hpc : s.pc with
  | idle => simp [hpc] at hs
  | take =>
    simp only [hpc] at hs
    split at hs
    · -- Readiness is consumed, and no event came in since.
      rename_i slot htake
      cases hs
      exact ⟨fun _ => flag_takeOrPark d _ htake, fun _ hc => (by cases hc),
        fun _ hc => (by cases hc), fun _ hc => (by cases hc)⟩
    · cases hs
      exact .finish (by simp)
  -- What the kernel answers decides whether readiness comes back.
  | call =>
    simp only [hpc, Option.some.injEq] at hs
    subst hs
    exact h.answered hpc answer
  | mark result =>
    cases result with
    | none =>
      simp only [hpc, Option.some.injEq] at hs
      subst hs
      apply Inv.elsewhere <;> simp
    | some result =>
      simp only [hpc] at hs
      split at hs
      · rename_i hudp
        cases hs
        exact ⟨fun hc => (by cases hc), fun _ hc => (by cases hc),
          fun _ _ => ⟨flag_mark d _, by simp [Kind.restoresOnError, hudp]⟩,
          fun _ hc => (by cases hc)⟩
      · cases hs
        apply Inv.finish_marked (flag_mark d _)
        rintro error rfl
        exact h.marking error hpc
  | release result =>
    simp only [hpc, Option.some.injEq] at hs
    subst hs
    -- `mark` has set the flag, and the release does not clear it.
    obtain ⟨hflag, hkind⟩ := h.released result hpc
    apply Inv.finish_marked
    · show flag d (s.slot.cancelWait d) = true
      rw [flag_cancelWait, hflag]
    · intro _ _
      exact hkind
  | park =>
    simp only [hpc] at hs
    split at hs
    · cases hs
      apply Inv.elsewhere <;> simp
    · cases hs
      exact .finish (by simp)
  | wakeSelf =>
    simp only [hpc, Option.some.injEq] at hs
    subst hs
    exact .finish (by simp)

/-- A step that changes the flag and the edge alike keeps the invariant. -/
theorem Inv.raised (h : Inv d s) {slot : Wakers} {raised : Bool}
    (hflag : flag d slot = (flag d s.slot || raised)) :
    Inv d { s with slot, edge := s.edge || raised } where
  held hpc := by
    show flag d slot = (s.edge || raised)
    rw [hflag, h.held hpc]
  marking := h.marking
  released result hpc := by
    refine ⟨?_, (h.released result hpc).2⟩
    show flag d slot = true
    rw [hflag, (h.released result hpc).1, Bool.true_or]
  failed error hpc hret := by
    have hold := h.failed error hpc hret
    show if s.current.kind.restoresOnError then flag d slot = true
      else flag d slot = (s.edge || raised)
    rw [hflag]
    split at hold
    · rename_i hkind
      rw [if_pos hkind, hold, Bool.true_or]
    · rename_i hkind
      rw [if_neg hkind, hold]

/-- Every step keeps the invariant. -/
theorem step_inv {act : Action} (h : Inv d s) (hs : step d s act = some s') : Inv d s' := by
  cases act with
  | begin call waker =>
    simp only [step] at hs
    split at hs
    · split at hs
      · split at hs
        · cases hs
          exact .finish (by simp)
        · cases hs
          apply Inv.elsewhere <;> simp
      · cases hs
    · cases hs
  | advance answer => exact h.advance hs
  | dispatch event =>
    cases hs
    exact h.raised (flag_dispatch d _ event)
  | other waker b =>
    cases hs
    have hflag : flag d (writeOther d s.slot waker b) = (flag d s.slot || false) := by
      rw [flag_writeOther, Bool.or_false]
    have hraised := h.raised hflag
    rwa [Bool.or_false] at hraised

/-- The invariant holds in every state of every run. -/
theorem inv_of_reachable (h : (system d).Reachable s) : Inv d s :=
  h.invariant (P := Inv d) (fun _ h0 => by rw [show _ = new from h0]; exact inv_new)
    fun _ _ _ hi hs => step_inv hi hs

/-- What a failed transfer does to readiness. After a call that returned the error of its system
call, and in every state up to the next call of the direction, that next call issues its system
call, whatever waker it brings, if and only if the call was one of a UDP socket or a pipe, or an
event for the direction was dispatched since the call took readiness, or it is a read and a
hang-up was dispatched. -/
theorem failed_transfer_readiness {error : Nat} (h : (system d).Reachable s)
    (hpc : s.pc = .idle) (hret : s.returned = some (.failed error)) :
    (∀ waker, (s.slot.takeOrPark d waker).2 = true) ↔
      s.current.kind.isPipe = true ∨ s.current.kind.isUdp = true ∨ s.edge = true ∨
        (d = .read ∧ s.slot.hangup = true) := by
  have hfailed := (inv_of_reachable h).failed error hpc hret
  simp only [takeOrPark_taken, forall_const, Bool.or_eq_true, Bool.and_eq_true, decide_eq_true_eq]
  split at hfailed
  · rename_i hkind
    have hkind' : s.current.kind.isPipe = true ∨ s.current.kind.isUdp = true := by
      simpa [Kind.restoresOnError] using hkind
    simp only [hfailed, true_or, true_iff]
    rcases hkind' with hpipe | hudp
    · exact .inl hpipe
    · exact .inr (.inl hudp)
  · rename_i hkind
    have hpipe : s.current.kind.isPipe = false ∧ s.current.kind.isUdp = false := by
      simpa [Kind.restoresOnError] using hkind
    rw [hfailed, hpipe.1, hpipe.2]
    simp

/-- A datagram that could not be sent leaves the socket writable for the next one. -/
theorem failed_transfer_readiness_udp :
    ∃ s, (system .write).Reachable s ∧ s.returned = some (.failed 90) ∧
      ∀ waker, (s.slot.takeOrPark .write waker).2 = true := by
  obtain ⟨s, hr, hp⟩ := Lts.Reachable.exists_of_run (M := system .write) (s := new)
    [.begin ⟨.udpSend, 4, 0⟩ 7, .advance .wouldBlock, .advance (.failed 90), .advance .wouldBlock,
      .advance .wouldBlock]
    (fun s => s.pc = .idle ∧ s.returned = some (.failed 90) ∧ s.current.kind = .udpSend) rfl
    (by decide)
  obtain ⟨hpc, hret, hkind⟩ : s.pc = .idle ∧ s.returned = some (.failed 90) ∧
      s.current.kind = .udpSend := by
    simpa using hp
  have hudp : s.current.kind.isUdp = true := by
    rw [hkind]
    rfl
  exact ⟨s, hr, hret, (failed_transfer_readiness hr hpc hret).mpr (.inr (.inl hudp))⟩

/-- A reset is dispatched to a stream, and then its write fails with `EPIPE`. The next write parks,
and every event there was has been dispatched. -/
theorem failed_write_parks :
    ∃ s, (system .write).Reachable s ∧ s.current.kind = .tcpWriteVectored ∧ s.pc = .idle ∧
      s.returned = some (.failed 32) ∧ ¬ ∀ waker, (s.slot.takeOrPark .write waker).2 = true := by
  obtain ⟨s, hr, hp⟩ := Lts.Reachable.exists_of_run (M := system .write) (s := new)
    [.dispatch ⟨true, true, true⟩, .begin ⟨.tcpWriteVectored, 4, 0⟩ 7, .advance .wouldBlock,
      .advance (.failed 32)]
    (fun s => s.current.kind = .tcpWriteVectored ∧ s.pc = .idle ∧
      s.returned = some (.failed 32) ∧ (s.slot.takeOrPark .write 7).2 = false) rfl (by decide)
  obtain ⟨hkind, hpc, hret, hparks⟩ : s.current.kind = .tcpWriteVectored ∧ s.pc = .idle ∧
      s.returned = some (.failed 32) ∧ (s.slot.takeOrPark .write 7).2 = false := by
    simpa using hp
  refine ⟨s, hr, hkind, hpc, hret, fun hall => ?_⟩
  rw [hall 7] at hparks
  cases hparks

end Transfer

end Nagoya.Net
