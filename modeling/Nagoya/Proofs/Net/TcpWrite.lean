import Nagoya.Net.TcpWrite
import Nagoya.Proofs.Reactor.Driver

/-!
# `Nagoya.Proofs.Net.TcpWrite`: when a writer parks

A writer that parks waits for an edge, and an edge comes only after a send that was refused or
accepted short. `Inv.known` says that readiness is gone from the slot only after such a send.

Two branches of `poll_write_vectored` break this. A send of at least `SO_SNDBUF` bytes that is
accepted whole is taken for proof that the buffer is full, which it is not when the buffer
holds more than the kernel reported. A send that fails with an error of its own leaves
readiness consumed. `parks_with_room` is a run through the first: the next write parks with
room in the buffer and no event owed.

`parks_only_when_full` is the positive side: it holds in every run that takes neither branch.
-/

set_option autoImplicit false

namespace Nagoya.Net

open Nagoya.Lib Nagoya.Reactor

namespace TcpWrite

/-- The step is neither a send of at least `sendCapacity` bytes that is accepted whole, where
that number is known, nor a send that fails with an error other than would-block and
interrupted. -/
def Careful (s : State) : Action → Bool
  | .advance outcome =>
    match s.writer.pc, outcome with
    | .send wanted, .accepted n => n ≠ wanted ∨ s.sendCapacity = 0 ∨ wanted < s.sendCapacity
    | .send _, .failed _ => false
    | _, _ => true
  | _ => true

/-- The writer took readiness and has not yet put it back or seen the buffer full. -/
def Pc.holds : Pc → Bool
  | .send _ | .mark _ => true
  | _ => false

/-- An event that will make the writer ready is owed by the kernel, queued, or collected. -/
def Owed (s : State) : Prop :=
  s.kernel.noSpace = true ∨ s.kernel.queued = true ∨ ∃ e ∈ s.collected, e.writable = true

/-- The invariant of the system. -/
structure Inv (s : State) : Prop where
  known : s.slot.writable = false → s.writer.pc.holds = false → s.full = true
  owed : s.full = true → Owed s
  parked : s.slot.writer ≠ none → s.slot.writable = false ∧ s.writer.pc.holds = false

theorem inv_init (s : State) (h : system.init s) : Inv s := by
  obtain ⟨capacity, sendCapacity, rfl⟩ := h
  exact ⟨fun hw => by simp [new, Wakers.registered] at hw, fun hf => by simp [new] at hf,
    fun hp => by simp [new, Wakers.registered] at hp⟩

/-- When room appears, an event that was owed is queued. -/
theorem inv_drain {s : State} (h : Inv s) {n : Nat} {kernel : Kernel}
    (hk : s.kernel.drain n = some kernel) : Inv { s with kernel := kernel } := by
  refine ⟨h.known, fun hf => ?_, h.parked⟩
  unfold Kernel.drain at hk
  split at hk
  · cases hk
    rcases h.owed hf with ho | hq | hc
    · exact .inr (.inl (by simp [ho]))
    · exact .inr (.inl (by simp [hq]))
    · exact .inr (.inr hc)
  · cases hk

theorem inv_collect {s : State} (h : Inv s) (readable hangup : Bool) :
    Inv { s with
      kernel.queued := false
      collected := s.collected ++ [{ readable, writable := s.kernel.queued, hangup }] } := by
  refine ⟨h.known, fun hf => ?_, h.parked⟩
  rcases h.owed hf with ho | hq | ⟨e, hmem, he⟩
  · exact .inl ho
  · exact .inr (.inr ⟨⟨readable, s.kernel.queued, hangup⟩, by simp, hq⟩)
  · exact .inr (.inr ⟨e, by simp [hmem], he⟩)

/-- A writable event makes the writer ready and takes its waker. Another event changes nothing
on the write side. -/
theorem inv_dispatch {s : State} (h : Inv s) {i : Nat} {e : Readiness}
    (hi : s.collected[i]? = some e) :
    Inv { s with slot := (s.slot.dispatch e).1
                 collected := s.collected.eraseIdx i
                 waking := s.waking ++ (s.slot.dispatch e).2
                 full := s.full && !e.writable } := by
  cases he : e.writable with
  | true =>
    exact ⟨fun hw => by simp [he] at hw, fun hf => by simp at hf, fun hp => by simp [he] at hp⟩
  | false =>
    refine ⟨fun hw hpc => ?_, fun hf => ?_, fun hp => ?_⟩
    · have hw' : s.slot.writable = false := by simpa [he] using hw
      simpa using h.known hw' hpc
    · rcases h.owed (by simpa using hf) with ho | hq | hdue
      · exact .inl ho
      · exact .inr (.inl hq)
      · exact .inr (.inr (exists_mem_eraseIdx hdue hi (by simp [he])))
    · have hp' : s.slot.writer ≠ none := by simpa [he] using hp
      simpa [he] using h.parked hp'

/-- While the writer holds readiness its waker is not in the slot. -/
theorem Inv.not_parked {s : State} (h : Inv s) (hpc : s.writer.pc.holds = true) :
    s.slot.writer = none := by
  by_contra hp
  have := (h.parked hp).2
  simp [hpc] at this

/-- A send that was turned away, or accepted short, is owed an event. -/
theorem Inv.filled {s : State} {kernel : Kernel} {writer : Writer} (hnone : s.slot.writer = none)
    (hk : kernel.noSpace = true) :
    Inv { s with kernel := kernel, full := true, writer := writer } :=
  ⟨fun _ _ => rfl, fun _ => .inl hk, fun hp => absurd hnone hp⟩

/-- The answers to a send that is `Careful`. Where readiness is not put back, the buffer was
seen full. -/
theorem inv_send {s s' : State} (h : Inv s) {wanted : Nat} (hpc : s.writer.pc = .send wanted)
    {outcome : Outcome} (hok : Careful s (.advance outcome) = true)
    (hs : advance s outcome = some s') : Inv s' := by
  have hnone := h.not_parked (by simp [hpc, Pc.holds])
  simp only [advance, hpc] at hs
  cases outcome with
  | accepted n =>
    simp only [Careful, hpc, decide_eq_true_eq] at hok
    by_cases hfit : n ≤ wanted ∧ s.kernel.used + n ≤ s.kernel.capacity ∧ (0 < n ∨ wanted = 0)
    · simp only [Kernel.send, if_pos hfit] at hs
      by_cases hn : n = wanted
      · -- Accepted whole, and below the capacity that the kernel reported.
        have hres : restores s.sendCapacity wanted n = true := by
          simp only [restores, decide_eq_true_eq]
          exact ⟨hn, hok.resolve_left (not_not_intro hn)⟩
        rw [if_pos hres] at hs
        cases hs
        refine ⟨fun _ hh => by simp [Pc.holds] at hh, fun hf => ?_, fun hp => absurd hnone hp⟩
        have hf' : s.full = true := by simpa [hn] using hf
        rcases h.owed hf' with ho | hq | hc
        · exact .inl (by simp [ho])
        · exact .inr (.inl hq)
        · exact .inr (.inr hc)
      · -- Accepted in part, the send buffer is full, and the poller owes an edge.
        have hshort : n < wanted := by omega
        have hres : ¬ restores s.sendCapacity wanted n = true := by simp [restores, hn]
        rw [if_neg hres] at hs
        cases hs
        simp only [hshort, decide_true, Bool.or_true]
        exact Inv.filled hnone rfl
    · simp [Kernel.send, if_neg hfit] at hs
  | refused =>
    -- The kernel refuses because its buffer is full, and the poller owes an edge.
    by_cases hw : 0 < wanted
    · simp only [Kernel.send, if_pos hw, Option.some.injEq] at hs
      subst hs
      exact Inv.filled hnone rfl
    · simp [Kernel.send, if_neg hw] at hs
  | interrupted =>
    -- The call tries again.
    simp only [Kernel.send, Option.some.injEq] at hs
    subst hs
    exact ⟨h.known, h.owed, h.parked⟩
  | failed error => simp [Careful, hpc] at hok

/-- The writer's own steps. -/
theorem inv_advance {s s' : State} (h : Inv s) {outcome : Outcome}
    (hok : Careful s (.advance outcome) = true) (hs : advance s outcome = some s') : Inv s' := by
  cases hpc : s.writer.pc with
  | idle => simp [advance, hpc] at hs
  | take wanted =>
    rcases s.slot.takeWritableOrPark_cases s.writer.waker with ⟨hw, hc⟩ | ⟨hw, hc⟩ <;>
      simp only [advance, hpc, hc, Option.some.injEq] at hs <;> subst hs
    · -- Readiness was cached, so nobody is parked.
      refine ⟨fun _ hh => by simp [Pc.holds] at hh, h.owed, fun hp => ?_⟩
      have := (h.parked hp).1
      simp [hw] at this
    · exact ⟨fun _ _ => h.known hw (by simp [hpc, Pc.holds]), h.owed, fun _ => ⟨hw, rfl⟩⟩
  | send wanted => exact inv_send h hpc hok hs
  | mark n =>
    simp only [advance, hpc, Option.some.injEq] at hs
    subst hs
    have hnone := h.not_parked (by simp [hpc, Pc.holds])
    exact ⟨fun hw => by simp [Wakers.markWritable] at hw, h.owed, fun hp => absurd hnone hp⟩
  | park =>
    rcases s.slot.pollWritable_cases s.writer.waker with ⟨hw, hc⟩ | ⟨hw, hc⟩ <;>
      simp only [advance, hpc, hc, Option.some.injEq] at hs <;> subst hs
    · -- An edge came in after the send: the caller is woken at once.
      exact ⟨fun hf => by simp [hw] at hf, h.owed, fun hp => by simpa [hw] using (h.parked hp).1⟩
    · exact ⟨fun _ _ => h.known hw (by simp [hpc, Pc.holds]), h.owed, fun _ => ⟨hw, rfl⟩⟩
  | wakeSelf =>
    simp only [advance, hpc, Option.some.injEq] at hs
    subst hs
    exact ⟨fun hw _ => h.known hw (by simp [hpc, Pc.holds]), h.owed,
      fun hp => ⟨(h.parked hp).1, rfl⟩⟩

/-- A wake and the start of a call leave the kernel, the slot and the record alone. -/
theorem Inv.of_same {s s' : State} (h : Inv s) (hk : s'.kernel = s.kernel)
    (hslot : s'.slot = s.slot) (hc : s'.collected = s.collected) (hf : s'.full = s.full)
    (hpc : s'.writer.pc.holds = s.writer.pc.holds) : Inv s' where
  known hw hh := by
    rw [hf]
    exact h.known (by rw [← hslot]; exact hw) (by rw [← hpc]; exact hh)
  owed hfull := by
    rw [Owed, hk, hc]
    exact h.owed (by rw [← hf]; exact hfull)
  parked hp := by
    rw [hslot, hpc]
    exact h.parked (by rw [← hslot]; exact hp)

/-- Every careful step keeps the invariant. -/
theorem step_inv {s s' : State} {act : Action} (h : Inv s) (hs : step s act = some s')
    (hok : Careful s act = true) : Inv s' := by
  cases act with
  | drain n =>
    simp only [step] at hs
    split at hs
    · cases hs
    · rename_i kernel hk
      cases hs
      exact inv_drain h hk
  | collect readable hangup =>
    cases hs
    exact inv_collect h readable hangup
  | dispatch i =>
    simp only [step] at hs
    split at hs
    · cases hs
    · rename_i e hi
      cases hs
      exact inv_dispatch h hi
  | wake i =>
    simp only [step] at hs
    split at hs
    · cases hs
    · cases hs
      refine h.of_same rfl rfl rfl rfl ?_
      simp only [Writer.wake]
      split <;> rfl
  | pollWriteVectored waker first second =>
    simp only [step] at hs
    split at hs
    · rename_i hpc
      cases hs
      exact h.of_same rfl rfl rfl rfl (by simp [hpc, Pc.holds])
    · cases hs
  | advance outcome => exact inv_advance h hok hs

/-- The invariant holds in every state of a careful run. -/
theorem inv_of_reach {s : State} (h : system.Reach (fun s act _ => Careful s act = true) s) :
    Inv s :=
  h.invariant inv_init fun _ _ _ hi hs hok => step_inv hi hs hok

/-- In a careful run a call that leaves its waker parked, as one does that returned `Pending`,
saw the buffer full: since the last dispatched writable event a send was refused or accepted
short, and an event is still owed by the kernel, queued, or collected. -/
theorem parks_only_when_full {s : State}
    (h : system.Reach (fun s act _ => Careful s act = true) s) (hpc : s.writer.pc = .idle)
    (hp : s.slot.writer = some s.writer.waker) :
    s.full = true ∧
      (s.kernel.noSpace = true ∨ s.kernel.queued = true ∨
        ∃ e ∈ s.collected, e.writable = true) := by
  have hi := inv_of_reach h
  have hw := (hi.parked (by simp [hp])).1
  have hfull := hi.known hw (by simp [hpc, Pc.holds])
  exact ⟨hfull, hi.owed hfull⟩

/-- A buffer of ten bytes takes six and then four of the next eight. The third call parks, and
the kernel owes an event. -/
theorem parks_only_when_full_short :
    ∃ s, system.Reach (fun s act _ => Careful s act = true) s ∧
      s.writer.returned = .pending ∧ s.slot.writer = some 7 ∧ s.full = true := by
  obtain ⟨s, hr, hp⟩ := Lts.Reach.exists_of_runWhere (M := system) (s := new 10 20)
    (fun s act _ => Careful s act = true)
    [.collect false false, .dispatch 0,
      .pollWrite 7 6, .advance .interrupted, .advance (.accepted 6), .advance .interrupted,
      .pollWriteVectored 7 3 5, .advance .interrupted, .advance (.accepted 4),
      .pollWrite 7 4, .advance .interrupted]
    (fun s => s.writer.pc = .idle ∧ s.writer.returned = .pending ∧ s.writer.waker = 7 ∧
      s.slot.writer = some 7) ⟨10, 20, rfl⟩ (by decide)
  obtain ⟨hpc, hret, hwaker, hslot⟩ : s.writer.pc = .idle ∧ s.writer.returned = .pending ∧
      s.writer.waker = 7 ∧ s.slot.writer = some 7 := by
    simpa using hp
  exact ⟨s, hr, hret, hslot, (parks_only_when_full hr hpc (by rw [hwaker, hslot])).1⟩

/-- The kernel reported four bytes and has room for ten. A send of four is accepted whole, and
the next call parks. No send was refused or accepted short, no event is owed, queued or
collected, and the buffer has room. -/
theorem parks_with_room :
    ∃ s, system.Reachable s ∧ s.writer.pc = .idle ∧ s.writer.returned = .pending ∧
      s.slot.writer = some s.writer.waker ∧ s.full = false ∧ s.kernel.noSpace = false ∧
      s.kernel.queued = false ∧ s.collected = [] ∧ s.kernel.used < s.kernel.capacity := by
  obtain ⟨s, hr, hp⟩ := Lts.Reachable.exists_of_run (M := system) (s := new 10 4)
    [.collect false false, .dispatch 0,
      .pollWrite 7 4, .advance .interrupted, .advance (.accepted 4),
      .pollWrite 7 1, .advance .interrupted]
    (fun s => s.writer.pc = .idle ∧ s.writer.returned = .pending ∧
      s.slot.writer = some s.writer.waker ∧ s.full = false ∧ s.kernel.noSpace = false ∧
      s.kernel.queued = false ∧ s.collected = [] ∧ s.kernel.used < s.kernel.capacity)
    ⟨10, 4, rfl⟩ (by decide)
  exact ⟨s, hr, by simpa using hp⟩

end TcpWrite

end Nagoya.Net
