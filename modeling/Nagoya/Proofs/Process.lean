import Nagoya.Process
import Nagoya.Proofs.Reactor.Driver

/-!
# `Nagoya.Proofs.Process`: a child is reaped once, and its exit is never missed

There are two invariants. `Owns` follows the `Process`: whoever has it, the child is not reaped,
and a `Child` without it has the status. So `waitpid` and `kill` are never called on a number that
was given back, and a status that was returned once is the one that is returned again.

`Wakes` follows the exit. `poll_exit` asks `waitpid` before it asks the watch. So when it comes to
the watch and the child has exited meanwhile, the watch knows it or an event is on its way, and
when it parks the event is still on its way. The waker in the watch is the waiter's own: a task
that polls, or an orphan that takes over, replaces a stale one under the lock that shows it that
nothing happened.
-/

set_option autoImplicit false

namespace Nagoya

open Nagoya.Lib Nagoya.Reactor

namespace Process

/-! ### Who has the process -/

/-- The child has exited and was not reaped. -/
def Proc.isExited : Proc → Bool
  | .exited _ => true
  | _ => false

/-- How often a process in this state was reaped. -/
def Proc.reaps : Proc → Nat
  | .reaped _ => 1
  | _ => 0

/-- The answers from the first status on are that status. -/
def FirstStatus (answers : List Answer) : Prop :=
  answers.Pairwise fun a b => ∀ status, a = .exited status → b = .exited status

/-- Who has the process, and what was answered. -/
structure Owns (s : State) : Prop where
  unreaped : s.holder ≠ .gone → s.proc.reaps = 0
  reaps : s.reaps = s.proc.reaps
  strays : s.strays = 0
  kept : ∀ kept, s.child = some kept → (kept = none ↔ s.holder = .child)
  status : ∀ status, s.child = some (some status) → s.proc = .reaped status
  dropped : s.child = none → s.holder ≠ .child ∧ s.wait = .none
  polling : s.pc ≠ .idle → s.holder ≠ .gone ∧ (s.holder = .child → s.wait ≠ .none)
  reachable : Answer.unreachableState ∉ s.answers
  told : ∀ status, .exited status ∈ s.answers →
    s.holder = .gone ∧ s.proc = .reaped status ∧
      ∀ kept, s.child = some kept → kept = some status
  first : FirstStatus s.answers

variable {s s' : State}

/-- A system call on a process that was not reaped is none on another's number. -/
theorem touch_of_unreaped (h : s.proc.reaps = 0) : s.touch = s := by
  unfold State.touch
  cases hp : s.proc with
  | reaped status =>
    rw [hp] at h
    cases h
  | running => rfl
  | exited status => rfl

/-- While somebody has the process, no status was answered. -/
theorem Owns.untold (h : Owns s) (hholder : s.holder ≠ .gone) (status : Nat) :
    Answer.exited status ∉ s.answers :=
  fun hmem => hholder (h.told status hmem).1

/-- An orphan's `Child` was dropped. -/
theorem Owns.child_none (h : Owns s) (hholder : s.holder = .orphan) : s.child = none := by
  cases hc : s.child with
  | none => rfl
  | some kept =>
    have hiff := h.kept kept hc
    rw [hholder] at hiff
    cases kept with
    | none => exact absurd (hiff.mp rfl) (by simp)
    | some status =>
      have hzero := h.unreaped (by rw [hholder]; simp)
      rw [h.status status hc] at hzero
      cases hzero

/-- An answer after which there is a status, or before which there was none. -/
theorem FirstStatus.append {answers : List Answer} (h : FirstStatus answers) {a : Answer}
    (ha : ∀ status, .exited status ∈ answers → a = .exited status) :
    FirstStatus (answers ++ [a]) := by
  unfold FirstStatus
  rw [List.pairwise_append]
  refine ⟨h, List.pairwise_singleton _ _, ?_⟩
  intro b hb c hc status hstatus
  rw [List.mem_singleton] at hc
  rw [hc]
  exact ha status (hstatus ▸ hb)

/-! ### The ends of `poll_exit` -/

/-- Somebody who has the process is the `Child` or an orphan. -/
theorem holder_cases (h : s.holder ≠ .gone) : s.holder = .child ∨ s.holder = .orphan := by
  cases hh : s.holder with
  | child => exact .inl rfl
  | orphan => exact .inr rfl
  | gone => exact absurd hh h

theorem fail_child (h : s.holder = .child) (error : Nat) : s.fail error =
    { s with pc := .idle, wait := .none, answers := s.answers ++ [.failed error] } := by
  unfold State.fail
  rw [h]

theorem fail_orphan (h : s.holder = .orphan) (error : Nat) :
    s.fail error = { s with holder := .gone, pc := .idle } := by
  unfold State.fail
  rw [h]

theorem suspend_child (h : s.holder = .child) :
    s.suspend = { s with pc := .idle, wait := .suspended } := by
  unfold State.suspend
  rw [h]

theorem suspend_orphan (h : s.holder = .orphan) : s.suspend = { s with pc := .idle } := by
  unfold State.suspend
  rw [h]

/-- `waitpid` reaps the child, and the process is dropped. -/
theorem Owns.reaped (h : Owns s) {status : Nat} (hproc : s.proc = .exited status)
    (hholder : s.holder ≠ .gone) : Owns ((s.reap status).finish status) := by
  have hreaps := h.reaps
  rw [hproc] at hreaps
  have huntold := h.untold hholder
  unfold State.finish State.reap
  -- The exit is reaped for the `Child`, or for the orphan that it left.
  cases hh : s.holder with
  | gone => exact absurd hh hholder
  | child =>
    refine ⟨fun hg => absurd rfl hg, ?_, h.strays, ?_, ?_, fun hd => (by cases hd),
      fun hpc => absurd rfl hpc, ?_, ?_, ?_⟩
    · show s.reaps + 1 = 1
      rw [hreaps]
      rfl
    · -- A `Child` that is told takes no other status after.
      rintro kept ⟨⟩
      simp
    · rintro st ⟨⟩
      rfl
    · show Answer.unreachableState ∉ s.answers ++ [.exited status]
      simp [h.reachable]
    · intro st hmem
      have hmem' : Answer.exited st ∈ s.answers ++ [.exited status] := hmem
      rw [List.mem_append, List.mem_singleton] at hmem'
      rcases hmem' with hold | hnew
      · exact absurd hold (huntold st)
      · cases hnew
        exact ⟨rfl, rfl, fun kept hk => (by cases hk; rfl)⟩
    · exact h.first.append fun st hst => absurd hst (huntold st)
  | orphan =>
    -- The `Child` is gone, so the status is told to nobody.
    have hnone := h.child_none hh
    refine ⟨fun hg => absurd rfl hg, ?_, h.strays, ?_, ?_, fun _ => ⟨by simp, (h.dropped hnone).2⟩,
      fun hpc => absurd rfl hpc, h.reachable, fun st hmem => absurd hmem (huntold st), h.first⟩
    · show s.reaps + 1 = 1
      rw [hreaps]
      rfl
    · intro kept hk
      have hk' : s.child = some kept := hk
      rw [hnone] at hk'
      cases hk'
    · intro st hk
      have hk' : s.child = some (some st) := hk
      rw [hnone] at hk'
      cases hk'

/-- A step that keeps the process where it is, and the answers. -/
theorem Owns.same (h : Owns s) {watch : Watch} {queued woken : Bool} {collected : List Readiness}
    {waking : List Waker} {waker : Waker} {pc : Pc} {wait : Wait}
    (hwait : s.child = none → wait = .none)
    (hpc : pc ≠ .idle → s.holder ≠ .gone ∧ (s.holder = .child → wait ≠ .none)) :
    Owns { s with watch, queued, collected, waking, waker, woken, pc, wait } where
  unreaped := h.unreaped
  reaps := h.reaps
  strays := h.strays
  kept := h.kept
  status := h.status
  dropped hd := ⟨(h.dropped hd).1, hwait hd⟩
  polling := hpc
  reachable := h.reachable
  told := h.told
  first := h.first

/-- An answer that is no status, from a `Child` that has the process. -/
theorem Owns.answer (h : Owns s) (hholder : s.holder = .child) {a : Answer}
    (hstatus : ∀ status, a ≠ .exited status) (ha : a ≠ .unreachableState) {wait : Wait} {pc : Pc}
    (hwait : s.child = none → wait = .none) (hpc : pc = .idle) :
    Owns { s with wait, pc, answers := s.answers ++ [a] } where
  unreaped := h.unreaped
  reaps := h.reaps
  strays := h.strays
  kept := h.kept
  status := h.status
  dropped hd := ⟨(h.dropped hd).1, hwait hd⟩
  polling hne := absurd hpc hne
  reachable := by
    show Answer.unreachableState ∉ s.answers ++ [a]
    simp [h.reachable, ha.symm]
  told status hmem := by
    have hmem' : Answer.exited status ∈ s.answers ++ [a] := hmem
    rw [List.mem_append, List.mem_singleton] at hmem'
    rcases hmem' with hold | hnew
    · exact absurd hold (h.untold (by rw [hholder]; simp) status)
    · exact absurd hnew.symm (hstatus status)
  first := h.first.append fun status hmem =>
    absurd hmem (h.untold (by rw [hholder]; simp) status)

/-- The status that was kept is answered again. -/
theorem Owns.again (h : Owns s) {status : Nat} (hc : s.child = some (some status)) :
    Owns { s with wait := .none, answers := s.answers ++ [.exited status] } := by
  have hproc := h.status status hc
  -- A status that is kept was reaped, so the process is nobody's any more.
  have hgone : s.holder = .gone := by
    by_contra hne
    have hzero := h.unreaped hne
    rw [hproc] at hzero
    cases hzero
  have hkept : ∀ kept, s.child = some kept → kept = some status := by
    intro kept hk
    rw [hc] at hk
    cases hk
    rfl
  refine ⟨h.unreaped, h.reaps, h.strays, h.kept, h.status, fun hd => ⟨(h.dropped hd).1, rfl⟩,
    fun hpc => absurd hgone (h.polling hpc).1, ?_, ?_, ?_⟩
  · show Answer.unreachableState ∉ s.answers ++ [.exited status]
    simp [h.reachable]
  · intro st hmem
    have hmem' : Answer.exited st ∈ s.answers ++ [.exited status] := hmem
    rw [List.mem_append, List.mem_singleton] at hmem'
    rcases hmem' with hold | hnew
    · exact h.told st hold
    · cases hnew
      exact ⟨hgone, hproc, hkept⟩
  · refine h.first.append fun st hmem => ?_
    have hst := (h.told st hmem).2.1
    rw [hproc] at hst
    cases hst
    rfl

/-- The process is dropped by an orphan that gives up. -/
theorem Owns.abandoned (h : Owns s) (hholder : s.holder = .orphan) :
    Owns { s with holder := .gone, pc := .idle } := by
  have hnone := h.child_none hholder
  refine ⟨fun hg => absurd rfl hg, h.reaps, h.strays, ?_, ?_,
    fun _ => ⟨by simp, (h.dropped hnone).2⟩, fun hpc => absurd rfl hpc, h.reachable,
    fun st hmem => absurd hmem (h.untold (by rw [hholder]; simp) st), h.first⟩
  · intro kept hk
    have hk' : s.child = some kept := hk
    rw [hnone] at hk'
    cases hk'
  · intro st hk
    have hk' : s.child = some (some st) := hk
    rw [hnone] at hk'
    cases hk'

/-- A failed system call leaves the process with a `Child`. -/
theorem Owns.fail (h : Owns s) (hholder : s.holder ≠ .gone) (error : Nat) :
    Owns (s.touch.fail error) := by
  rw [touch_of_unreaped (h.unreaped hholder)]
  rcases holder_cases hholder with hh | hh
  · rw [fail_child hh]
    exact h.answer hh (by simp) (by simp) (fun _ => rfl) rfl
  · rw [fail_orphan hh]
    exact h.abandoned hh

/-- A poll that parks. -/
theorem Owns.suspend (h : Owns s) (hpc : s.pc ≠ .idle) (watch : Watch) :
    Owns ({ s with watch }.suspend) := by
  have hp := h.polling hpc
  rcases holder_cases hp.1 with hh | hh
  · rw [suspend_child (s := { s with watch }) hh]
    exact h.same (fun hd => absurd (h.dropped hd).2 (hp.2 hh)) (fun hne => absurd rfl hne)
  · rw [suspend_orphan (s := { s with watch }) hh]
    exact h.same (fun hd => (h.dropped hd).2) (fun hne => absurd rfl hne)

/-- The steps of `poll_exit`. -/
theorem Owns.advance (h : Owns s) {outcome : Outcome} (hs : advance s outcome = some s') :
    Owns s' := by
  have hbusy := h.polling
  unfold Process.advance at hs
  cases hpc : s.pc with
  | idle => simp [hpc] at hs
  | tryWait =>
    have hp := hbusy (by rw [hpc]; simp)
    cases outcome with
    | interrupted =>
      simp only [hpc, Option.some.injEq] at hs
      subst hs
      -- The process is not reaped yet, so the number that was used is still its own.
      rw [touch_of_unreaped (h.unreaped hp.1)]
      exact h
    | failed error =>
      simp only [hpc, Option.some.injEq] at hs
      subst hs
      exact h.fail hp.1 error
    | done =>
      simp only [hpc] at hs
      -- The child runs on, has exited and is reaped here, or is nobody's any more.
      split at hs
      · cases hs
        exact h.same (fun hd => (h.dropped hd).2) (fun _ => hp)
      · rename_i status hproc
        cases hs
        exact h.reaped hproc hp.1
      · cases hs
        exact h.fail hp.1 echild
  | park =>
    have hne : s.pc ≠ .idle := by
      rw [hpc]
      simp
    have hp := hbusy hne
    simp only [hpc] at hs
    split at hs
    · cases hs
      exact h.suspend hne _
    · cases hs
      exact h.same (fun hd => (h.dropped hd).2) (fun _ => hp)
    · cases hs
      exact h.same (fun hd => (h.dropped hd).2) (fun _ => hp)
  | blockingWait =>
    have hp := hbusy (by rw [hpc]; simp)
    cases outcome with
    | interrupted => simp [hpc] at hs
    | failed error =>
      simp only [hpc, Option.some.injEq] at hs
      subst hs
      exact h.fail hp.1 error
    | done =>
      simp only [hpc] at hs
      split at hs
      · cases hs
      · cases hs
      · cases ‹Outcome.done = Outcome.failed _›
      · rename_i status hout hproc
        cases hs
        exact h.reaped hproc hp.1
      · cases hs
        exact h.fail hp.1 echild

/-! ### The methods of a `Child` -/

/-- A `Child` that has the process asks `waitpid`, and one that has a status returns it. -/
theorem Owns.pollWait (h : Owns s) {kept : Option Nat} (hc : s.child = some kept)
    (hwait : s.wait ≠ .none) (task : Nat) : Owns (pollWait s kept task) := by
  unfold Process.pollWait
  cases kept with
  | some status => exact h.again hc
  | none =>
    have hholder := (h.kept none hc).mp rfl
    show Owns (if s.holder = .child then _ else _)
    rw [if_pos hholder]
    refine h.same (fun hd => ?_) (fun _ => ⟨by rw [hholder]; simp, fun _ => hwait⟩)
    rw [hc] at hd
    cases hd

/-- `try_wait` repeats the status that is kept, or asks the kernel once. -/
theorem Owns.tryWait (h : Owns s) {kept : Option Nat} (hc : s.child = some kept)
    (hwait : s.wait = .none) (hpc : s.pc = .idle) (outcome : Outcome) :
    Owns (tryWait s kept outcome) := by
  unfold Process.tryWait
  cases kept with
  | some status =>
    have hagain := h.again hc
    rw [← hwait] at hagain
    exact hagain
  | none =>
    have hholder := (h.kept none hc).mp rfl
    have hne : s.holder ≠ .gone := by
      rw [hholder]
      simp
    show Owns (if s.holder = .child then _ else _)
    rw [if_pos hholder]
    split
    · exact h.answer hholder (by simp) (by simp) (fun _ => hwait) hpc
    · rename_i status hproc
      exact h.reaped hproc hne
    · exact h.fail hne echild
    · exact h.fail hne 4
    · exact h.fail hne _

/-- A drop hands the process to an orphan, or has none to hand over. -/
theorem Owns.dropChild (h : Owns s) (hwait : s.wait = .none) (hpc : s.pc = .idle) :
    (s.holder = .child → Owns { s with child := none, holder := .orphan, pc := .tryWait }) ∧
    (s.holder ≠ .child → Owns { s with child := none }) := by
  constructor
  · intro hholder
    have hne : s.holder ≠ .gone := by
      rw [hholder]
      simp
    exact ⟨fun _ => h.unreaped hne, h.reaps, h.strays, fun _ hk => (by cases hk),
      fun _ hk => (by cases hk), fun _ => ⟨by simp, hwait⟩,
      fun _ => ⟨by simp, fun ho => (by cases ho)⟩, h.reachable,
      fun st hmem => absurd hmem (h.untold hne st), h.first⟩
  · intro hholder
    refine ⟨h.unreaped, h.reaps, h.strays, fun _ hk => (by cases hk), fun _ hk => (by cases hk),
      fun _ => ⟨hholder, hwait⟩, fun hne => absurd hpc hne, h.reachable, ?_, h.first⟩
    intro st hmem
    obtain ⟨hgone, hproc, -⟩ := h.told st hmem
    exact ⟨hgone, hproc, fun _ hk => (by cases hk)⟩

/-- The child exits. -/
theorem Owns.exit (h : Owns s) (hproc : s.proc = .running) (status : Nat) (queued : Bool) :
    Owns { s with proc := .exited status, queued } := by
  have hreaps := h.reaps
  rw [hproc] at hreaps
  refine ⟨fun _ => rfl, hreaps, h.strays, h.kept, ?_, h.dropped, h.polling, h.reachable, ?_,
    h.first⟩
  · intro st hk
    have hreap := h.status st hk
    rw [hproc] at hreap
    cases hreap
  · intro st hmem
    have hreap := (h.told st hmem).2.1
    rw [hproc] at hreap
    cases hreap

/-- The watch answers that something happened. -/
def Watch.ready : Watch → Bool
  | .descriptor slot => slot.readable || slot.hangup
  | .thread exited _ => exited
  | .exiting => true

/-- The waker in the watch. -/
def Watch.parked : Watch → Option Waker
  | .descriptor slot => slot.reader
  | .thread _ waker => waker
  | .exiting => none

/-- An event for the descriptor is queued, or collected and not yet dispatched. For a thread: it
has not reported yet. -/
def Due (s : State) : Prop :=
  match s.watch with
  | .descriptor _ => s.queued = true ∨ ∃ e ∈ s.collected, e.forReader = true
  | .thread exited _ => exited = false
  | .exiting => False

/-- The waiter sleeps: its waker is in the watch, which knows of nothing, and if the child has
exited then an event is on its way. Or its waker was taken and is about to be woken. -/
def Asleep (s : State) (waker : Waker) : Prop :=
  (s.watch.parked = some waker ∧ s.watch.ready = false ∧ (s.proc.isExited = true → Due s)) ∨
    waker ∈ s.waking

/-- The exit is not missed. -/
structure Wakes (s : State) : Prop where
  asking : s.pc = .park → s.proc.isExited = true → s.watch.ready = true ∨ Due s
  waiting : s.holder = .child → s.wait = .suspended → s.pc = .idle → s.woken = false →
    Asleep s s.waker
  orphaned : s.holder = .orphan → s.pc = .idle → Asleep s orphanWaker
  own : s.waker ≠ orphanWaker

/-- What `take_or_park` says. -/
theorem takeOrPark_cases (w : Watch) (waker : Waker) :
    (∃ w', w.takeOrPark waker = (w', .check)) ∨
    (w.takeOrPark waker = (.exiting, .exiting)) ∨
    (∃ w', w.takeOrPark waker = (w', .parked) ∧ w.ready = false ∧ w'.ready = false ∧
      w'.parked = some waker ∧
      ((∃ slot slot', w = .descriptor slot ∧ w' = .descriptor slot') ∨
        ∃ p p', w = .thread false p ∧ w' = .thread false p')) := by
  cases w with
  | descriptor slot =>
    unfold Watch.takeOrPark
    rcases slot.takeReadableOrPark_cases waker with hc | ⟨hr, hh, hc⟩
    · simp only [hc]
      exact .inl ⟨_, rfl⟩
    · simp only [hc]
      refine .inr (.inr ⟨_, rfl, ?_, ?_, rfl, .inl ⟨_, _, rfl, rfl⟩⟩)
      · simp [Watch.ready, hr, hh]
      · simp [Watch.ready, Wakers.parkReader, hr, hh]
  | thread exited p =>
    cases exited with
    | true => exact .inl ⟨_, rfl⟩
    | false => exact .inr (.inr ⟨_, rfl, rfl, rfl, rfl, .inr ⟨_, _, rfl, rfl⟩⟩)
  | exiting => exact .inr (.inl rfl)

/-- Nobody is asking the watch or asleep on it. -/
theorem Wakes.nobody (hown : s.waker ≠ orphanWaker) (hask : s.pc ≠ .park)
    (hwait : s.holder = .child → s.wait = .suspended → s.pc ≠ .idle)
    (horphan : s.holder = .orphan → s.pc ≠ .idle) : Wakes s where
  asking hpc := absurd hpc hask
  waiting hh hw hpc := absurd hpc (hwait hh hw)
  orphaned hh hpc := absurd hpc (horphan hh)
  own := hown

/-- A step that adds what `Asleep` looks at, or leaves it alone. -/
theorem Wakes.mono (h : Wakes s) (howns : Owns s)
    (hs : s' = { s with
      proc := s'.proc, watch := s'.watch, queued := s'.queued, collected := s'.collected
      waking := s'.waking })
    (hask : s.holder ≠ .gone → (s.proc.isExited = true → s.watch.ready = true ∨ Due s) →
      s'.proc.isExited = true → s'.watch.ready = true ∨ Due s')
    (hasleep : s.holder ≠ .gone → ∀ w, Asleep s w → Asleep s' w) : Wakes s' := by
  have hpc : s'.pc = s.pc := by rw [hs]
  have hholder : s'.holder = s.holder := by rw [hs]
  have hwaker : s'.waker = s.waker := by rw [hs]
  have hwait : s'.wait = s.wait := by rw [hs]
  have hwoken : s'.woken = s.woken := by rw [hs]
  refine ⟨?_, ?_, ?_, ?_⟩
  · rw [hpc]
    intro hp
    exact hask (howns.polling (by rw [hp]; simp)).1 (h.asking hp)
  · rw [hholder, hwait, hpc, hwoken, hwaker]
    intro hh hw hp hwo
    exact hasleep (by rw [hh]; simp) _ (h.waiting hh hw hp hwo)
  · rw [hholder, hpc]
    intro hh hp
    exact hasleep (by rw [hh]; simp) _ (h.orphaned hh hp)
  · rw [hwaker]
    exact h.own

/-- The exit of the child is known to the watch, or queued, or about to be reported. -/
theorem ready_or_due_of_exit (status : Nat) {queued : Bool}
    (hq : ∀ slot, s.watch = .descriptor slot → queued = true) :
    s.watch.ready = true ∨ Due { s with proc := .exited status, queued } := by
  unfold Due
  show s.watch.ready = true ∨ match s.watch with
    | .descriptor _ => queued = true ∨ ∃ e ∈ s.collected, e.forReader = true
    | .thread exited _ => exited = false
    | .exiting => False
  cases hw : s.watch with
  | descriptor slot => exact .inr (.inl (hq slot hw))
  | thread exited waker =>
    cases exited with
    | true => exact .inl rfl
    | false => exact .inr rfl
  | exiting => exact .inl rfl

/-- An exit makes an event of the descriptor due. -/
theorem Wakes.exit (h : Wakes s) (howns : Owns s) {status : Nat} {queued : Bool}
    (hq : ∀ slot, s.watch = .descriptor slot → queued = true) :
    Wakes { s with proc := .exited status, queued } := by
  have hdue := ready_or_due_of_exit status hq
  refine h.mono howns rfl (fun _ _ _ => hdue) ?_
  intro _ w hasleep
  refine hasleep.imp_left ?_
  rintro ⟨hparked, hready, -⟩
  refine ⟨hparked, hready, fun _ => hdue.resolve_left ?_⟩
  rw [hready]
  simp

/-- Only a descriptor hears of the exit through the events of the reactor. -/
theorem Due.events {queued : Bool} {collected : List Readiness}
    (hd : ∀ slot, s.watch = .descriptor slot →
      queued = true ∨ ∃ e ∈ collected, e.forReader = true) (h : Due s) :
    Due { s with queued, collected } := by
  unfold Due at h ⊢
  cases hw : s.watch with
  | descriptor slot => exact hd slot hw
  | thread exited waker =>
    rw [hw] at h
    exact h
  | exiting =>
    rw [hw] at h
    exact h

/-- The poller may collect what is due. -/
theorem Wakes.events (h : Wakes s) (howns : Owns s) {queued : Bool}
    {collected : List Readiness}
    (hd : s.holder ≠ .gone → ∀ slot, s.watch = .descriptor slot →
      queued = true ∨ ∃ e ∈ collected, e.forReader = true) :
    Wakes { s with queued, collected } := by
  refine h.mono howns rfl ?_ ?_
  · intro hholder hask hexited
    exact (hask hexited).imp_right (Due.events (hd hholder))
  · intro hholder w hasleep
    refine hasleep.imp_left ?_
    rintro ⟨hparked, hready, hex⟩
    exact ⟨hparked, hready, fun he => (hex he).events (hd hholder)⟩

theorem Wakes.collect (h : Wakes s) (howns : Owns s) (writable hangup : Bool) :
    Wakes { s with
      queued := false
      collected := s.collected ++ [{ readable := true, writable, hangup }] } := by
  refine h.events howns ?_
  intro _ slot _
  exact .inr ⟨{ readable := true, writable, hangup }, by simp, rfl⟩

/-- An event that is dispatched to the descriptor tells the watch and takes its waker. -/
theorem Wakes.dispatch (h : Wakes s) (howns : Owns s) {i : Nat} {e : Readiness} {slot : Wakers}
    (hi : s.collected[i]? = some e) (hw : s.watch = .descriptor slot) :
    Wakes { s with
      collected := s.collected.eraseIdx i
      watch := .descriptor (slot.dispatch e).1
      waking := s.waking ++ (slot.dispatch e).2 } := by
  have hdue : e.forReader = false → Due s → s.queued = true ∨
      ∃ x ∈ s.collected.eraseIdx i, x.forReader = true := by
    intro he hd
    unfold Due at hd
    rw [hw] at hd
    exact hd.imp_right fun hdue => exists_mem_eraseIdx hdue hi (by simp [he])
  refine h.mono howns rfl ?_ ?_
  · intro _ hask hexited
    have hold := hask hexited
    rw [hw] at hold
    -- An event that a reader hears sets readiness, and any other leaves the slot as it was.
    cases he : e.forReader with
    | true => exact .inl (by simp [Watch.ready, he])
    | false =>
      rcases hold with hready | hd
      · refine .inl ?_
        simp only [Watch.ready, Bool.or_eq_true] at hready
        rcases hready with hr | hh
        · simp [Watch.ready, hr]
        · simp [Watch.ready, hh]
      · exact .inr (hdue he hd)
  · rintro _ w (⟨hparked, hready, hex⟩ | hmem)
    · rw [hw] at hparked hready
      have hreader : slot.reader = some w := hparked
      have hquiet : slot.readable = false ∧ slot.hangup = false := by
        simpa [Watch.ready] using hready
      cases he : e.forReader with
      | true =>
        exact .inr (List.mem_append_right _ (Wakers.mem_dispatch_of_reader he hreader))
      | false =>
        have heh : e.hangup = false := by
          simp only [Readiness.forReader, Bool.or_eq_false_iff] at he
          exact he.2
        refine .inl ⟨?_, ?_, fun hexited => hdue he (hex hexited)⟩
        · show (slot.dispatch e).1.reader = some w
          simp [he, hreader]
        · simp [Watch.ready, hquiet, he, heh]
    · exact .inr (List.mem_append_left _ hmem)

/-- An event for a watch without a descriptor, or without a process, does nothing to anybody who
waits. -/
theorem Wakes.dispatch_other (h : Wakes s) (howns : Owns s) (collected : List Readiness)
    (hw : s.holder = .gone ∨ ∀ slot, s.watch ≠ .descriptor slot) :
    Wakes { s with collected } := by
  refine h.events howns ?_
  intro hholder slot hslot
  exact absurd hslot (hw.resolve_left hholder slot)

/-- The thread reports the exit, and takes the waker. -/
theorem Wakes.observe (h : Wakes s) (howns : Owns s) {waker : Option Waker}
    (hw : s.watch = .thread false waker) :
    Wakes { s with watch := .thread true none, waking := s.waking ++ waker.toList } := by
  refine h.mono howns rfl
    (fun _ _ _ => .inl rfl) ?_
  rintro _ w (⟨hparked, -, -⟩ | hmem)
  · rw [hw] at hparked
    have hwaker : waker = some w := hparked
    exact .inr (by simp [hwaker])
  · exact .inr (List.mem_append_left _ hmem)

/-- A wake of one waker is no wake of another. -/
theorem Asleep.erase {w other : Waker} {i : Nat} (h : Asleep s w)
    (hi : s.waking[i]? = some other) (hne : w ≠ other) :
    Asleep { s with waking := s.waking.eraseIdx i } w := by
  rcases h with ⟨hparked, hready, hex⟩ | hmem
  · exact .inl ⟨hparked, hready, hex⟩
  · exact .inr (mem_eraseIdx_of_ne hmem hi hne)

/-- A wake of a waker that is nobody's. -/
theorem Wakes.wake_other (h : Wakes s) {w : Waker} {i : Nat} (hi : s.waking[i]? = some w)
    (hwaiter : w ≠ s.waker) (horphan : s.holder = .orphan → w ≠ orphanWaker) :
    Wakes { s with waking := s.waking.eraseIdx i } where
  asking := h.asking
  waiting hh hw hpc hwoken := (h.waiting hh hw hpc hwoken).erase hi hwaiter.symm
  orphaned hh hpc := (h.orphaned hh hpc).erase hi (horphan hh).symm
  own := h.own

/-- A wake of the task that waits. -/
theorem Wakes.wake_waiter (h : Wakes s) {w : Waker} {i : Nat} (hi : s.waking[i]? = some w)
    (horphan : w ≠ orphanWaker) :
    Wakes { s with waking := s.waking.eraseIdx i, woken := true } where
  asking := h.asking
  waiting _ _ _ hwoken := (by cases hwoken)
  orphaned hh hpc := (h.orphaned hh hpc).erase hi horphan.symm
  own := h.own

/-! ### The exit through the steps of a waiter -/

/-- A `Child` that was not dropped left no orphan. -/
theorem Owns.not_orphan (h : Owns s) {kept : Option Nat} (hc : s.child = some kept) :
    s.holder ≠ .orphan := by
  intro hholder
  rw [h.child_none hholder] at hc
  cases hc

/-- After the process was reaped nobody waits. -/
theorem Wakes.reaped (hown : s.waker ≠ orphanWaker) (hholder : s.holder ≠ .gone) (status : Nat) :
    Wakes ((s.reap status).finish status) := by
  unfold State.finish State.reap
  rcases holder_cases hholder with hh | hh
  · simp only [hh]
    exact .nobody hown (by simp) (by simp) (by simp)
  · simp only [hh]
    exact .nobody hown (by simp) (by simp) (by simp)

/-- After a failed system call nobody waits. -/
theorem Wakes.fail (hown : s.waker ≠ orphanWaker) (howns : Owns s) (hholder : s.holder ≠ .gone)
    (error : Nat) : Wakes (s.touch.fail error) := by
  rw [touch_of_unreaped (howns.unreaped hholder)]
  rcases holder_cases hholder with hh | hh
  · rw [fail_child hh]
    exact .nobody hown (by simp) (by simp) (by simp [hh])
  · rw [fail_orphan hh]
    exact .nobody hown (by simp) (by simp) (by simp)

/-- The waker is parked in a watch that knows of nothing. What was on its way still is. -/
theorem asleep_of_parked {w' : Watch} {waker : Waker}
    (hask : s.proc.isExited = true → s.watch.ready = true ∨ Due s)
    (hquiet : s.watch.ready = false) (hready : w'.ready = false) (hparked : w'.parked = some waker)
    (hkind : (∃ slot slot', s.watch = .descriptor slot ∧ w' = .descriptor slot') ∨
      ∃ p p', s.watch = .thread false p ∧ w' = .thread false p') :
    Asleep { s with watch := w' } waker := by
  refine .inl ⟨hparked, hready, fun hexited => ?_⟩
  have hdue : Due s := by
    rcases hask hexited with hr | hd
    · rw [hquiet] at hr
      cases hr
    · exact hd
  unfold Due at hdue ⊢
  rcases hkind with ⟨slot, slot', hw, rfl⟩ | ⟨p, p', hw, rfl⟩
  · rw [hw] at hdue
    exact hdue
  · rfl

/-- A poll that parks leaves a waiter that sleeps. -/
theorem Wakes.suspend (h : Wakes s) (howns : Owns s) (hpc : s.pc = .park) {w' : Watch}
    (hquiet : s.watch.ready = false) (hready : w'.ready = false)
    (hparked : w'.parked = some s.pollWaker)
    (hkind : (∃ slot slot', s.watch = .descriptor slot ∧ w' = .descriptor slot') ∨
      ∃ p p', s.watch = .thread false p ∧ w' = .thread false p') :
    Wakes ({ s with watch := w' }.suspend) := by
  have hasleep : Asleep { s with watch := w' } s.pollWaker :=
    asleep_of_parked (h.asking hpc) hquiet hready hparked hkind
  unfold State.pollWaker at hasleep
  rcases holder_cases (howns.polling (by rw [hpc]; simp)).1 with hh | hh
  · rw [@suspend_child { s with watch := w' } hh]
    rw [hh] at hasleep
    exact ⟨fun hp => (by cases hp), fun _ _ _ _ => hasleep,
      fun ho => (by rw [show s.holder = .orphan from ho] at hh; cases hh), h.own⟩
  · rw [@suspend_orphan { s with watch := w' } hh]
    rw [hh] at hasleep
    exact ⟨fun hp => (by cases hp),
      fun ho => (by rw [show s.holder = .child from ho] at hh; cases hh),
      fun _ _ => hasleep, h.own⟩

/-- The steps of `poll_exit`. -/
theorem Wakes.advance (h : Wakes s) (howns : Owns s) {outcome : Outcome}
    (hs : advance s outcome = some s') : Wakes s' := by
  unfold Process.advance at hs
  cases hpc : s.pc with
  | idle => simp [hpc] at hs
  | tryWait =>
    have hholder := (howns.polling (by rw [hpc]; simp)).1
    cases outcome with
    | interrupted =>
      simp only [hpc, Option.some.injEq] at hs
      subst hs
      rw [touch_of_unreaped (howns.unreaped hholder)]
      exact h
    | failed error =>
      simp only [hpc, Option.some.injEq] at hs
      subst hs
      exact .fail h.own howns hholder error
    | done =>
      simp only [hpc] at hs
      split at hs
      · -- The child runs, so an exit from here on finds `asking` true.
        rename_i hproc
        cases hs
        refine ⟨fun _ hexited => ?_, fun _ _ hi => (by cases hi), fun _ hi => (by cases hi), h.own⟩
        rw [show s.proc = .running from hproc] at hexited
        cases hexited
      · cases hs
        exact .reaped h.own hholder _
      · cases hs
        exact .fail h.own howns hholder echild
  | park =>
    simp only [hpc] at hs
    -- Readiness is there, or the waker is parked where the exit finds it.
    rcases takeOrPark_cases s.watch s.pollWaker with
      ⟨w', hw⟩ | hw | ⟨w', hw, hquiet, hready, hparked, hkind⟩
    · simp only [hw, Option.some.injEq] at hs
      subst hs
      exact .nobody h.own (by simp) (by simp) (by simp)
    · simp only [hw, Option.some.injEq] at hs
      subst hs
      exact .nobody h.own (by simp) (by simp) (by simp)
    · simp only [hw, Option.some.injEq] at hs
      subst hs
      exact h.suspend howns hpc hquiet hready hparked hkind
  | blockingWait =>
    have hholder := (howns.polling (by rw [hpc]; simp)).1
    cases outcome with
    | interrupted => simp [hpc] at hs
    | failed error =>
      simp only [hpc, Option.some.injEq] at hs
      subst hs
      exact .fail h.own howns hholder error
    | done =>
      simp only [hpc] at hs
      split at hs
      · cases hs
      · cases hs
      · cases ‹Outcome.done = Outcome.failed _›
      · cases hs
        exact .reaped h.own hholder _
      · cases hs
        exact .fail h.own howns hholder echild

/-- A poll begins with the status, so nobody waits while it runs. -/
theorem Wakes.pollWait (h : Wakes s) (howns : Owns s) {kept : Option Nat}
    (hc : s.child = some kept) (hpc : s.pc = .idle) (task : Nat) :
    Wakes (pollWait s kept task) := by
  have horphan := howns.not_orphan hc
  unfold Process.pollWait
  split
  · exact .nobody h.own (by simp [hpc]) (by simp) (fun ho => absurd ho horphan)
  · split
    · exact .nobody (Nat.succ_ne_zero task) (by simp) (by simp) (fun ho => absurd ho horphan)
    · exact .nobody h.own (by simp [hpc]) (by simp) (fun ho => absurd ho horphan)

/-- `try_wait` is called while nobody waits. -/
theorem Wakes.tryWait (h : Wakes s) (howns : Owns s) {kept : Option Nat}
    (hc : s.child = some kept) (hwait : s.wait = .none) (hpc : s.pc = .idle)
    (outcome : Outcome) : Wakes (tryWait s kept outcome) := by
  have horphan := howns.not_orphan hc
  unfold Process.tryWait
  split
  · exact .nobody h.own (by simp [hpc]) (by simp [hwait]) (fun ho => absurd ho horphan)
  · split
    · rename_i hholder
      have hne : s.holder ≠ .gone := by
        rw [hholder]
        simp
      split
      · exact .nobody h.own (by simp [hpc]) (by simp [hwait]) (fun ho => absurd ho horphan)
      · exact .reaped h.own hne _
      · exact .fail h.own howns hne echild
      · exact .fail h.own howns hne 4
      · exact .fail h.own howns hne _
    · exact .nobody h.own (by simp [hpc]) (by simp [hwait]) (fun ho => absurd ho horphan)

/-- Every step keeps both. -/
theorem step_inv {act : Action} (howns : Owns s) (h : Wakes s) (hs : step s act = some s') :
    Owns s' ∧ Wakes s' := by
  have hwait0 := fun hd : s.child = none => (howns.dropped hd).2
  cases act with
  | exit status =>
    simp only [step] at hs
    split at hs
    · rename_i hproc _
      cases hs
      exact ⟨howns.exit hproc status true, h.exit howns fun _ _ => rfl⟩
    · rename_i hproc hnot
      cases hs
      exact ⟨howns.exit hproc status s.queued, h.exit howns fun slot hw => absurd hw (hnot slot)⟩
    · cases hs
  | collect writable hangup =>
    simp only [step] at hs
    split at hs
    · cases hs
      exact ⟨howns.same hwait0 howns.polling, h.collect howns writable hangup⟩
    · cases hs
  | dispatch i =>
    simp only [step] at hs
    split at hs
    · cases hs
    · rename_i event hi
      cases hs
      unfold dispatchTo
      split
      · rename_i hgone
        exact ⟨howns.same hwait0 howns.polling, h.dispatch_other howns _ (.inl hgone)⟩
      · rename_i slot hw _
        exact ⟨howns.same hwait0 howns.polling, h.dispatch howns hi hw⟩
      · rename_i hgone hnot
        exact ⟨howns.same hwait0 howns.polling, h.dispatch_other howns _ (.inr hnot)⟩
  | observe failed =>
    simp only [step] at hs
    split at hs
    · rename_i waker hw
      split at hs
      · cases hs
        exact ⟨howns.same hwait0 howns.polling, h.observe howns hw⟩
      · cases hs
    · cases hs
  | wake i =>
    simp only [step] at hs
    split at hs
    · cases hs
    · rename_i waker hi
      -- The waker is the orphan's, that of the task that waits, or nobody's.
      split at hs
      · rename_i horphan
        split at hs
        · rename_i hholder _
          have hnot : s.holder ≠ .child := by
            rw [show s.holder = .orphan from hholder]
            simp
          cases hs
          exact ⟨howns.same hwait0 fun _ =>
              ⟨by rw [show s.holder = .orphan from hholder]; simp, fun hc => absurd hc hnot⟩,
            .nobody h.own (by simp) (fun hc => absurd hc hnot) (by simp)⟩
        · cases hs
        · rename_i hnot _
          cases hs
          refine ⟨howns.same hwait0 howns.polling,
            h.wake_other hi ?_ (fun hholder => (hnot hholder).elim)⟩
          rw [horphan]
          exact h.own.symm
      · rename_i hother
        split at hs
        · cases hs
          exact ⟨howns.same hwait0 howns.polling, h.wake_waiter hi hother⟩
        · rename_i hwaiter
          cases hs
          exact ⟨howns.same hwait0 howns.polling, h.wake_other hi hwaiter fun _ => hother⟩
  | startWait =>
    simp only [step] at hs
    split at hs
    · rename_i kept hc _ hpc
      cases hs
      exact ⟨howns.same (fun hd => by rw [hc] at hd; cases hd) (fun hne => absurd hpc hne),
        .nobody h.own (by simp [hpc]) (by simp) fun ho => absurd ho (howns.not_orphan hc)⟩
    · cases hs
  | pollWait task =>
    simp only [step] at hs
    split at hs
    · rename_i kept hc hw hpc
      cases hs
      exact ⟨howns.pollWait hc (by rw [hw]; simp) task, h.pollWait howns hc hpc task⟩
    · rename_i kept hc hw hpc
      cases hs
      exact ⟨howns.pollWait hc (by rw [hw]; simp) task, h.pollWait howns hc hpc task⟩
    · cases hs
  | advance outcome => exact ⟨howns.advance hs, h.advance howns hs⟩
  | dropWait =>
    -- A future borrows the `Child`, so there is no orphan yet.
    have hborrow : s.wait ≠ .none → s.holder ≠ .orphan := fun hw ho =>
      hw (hwait0 (howns.child_none ho))
    simp only [step] at hs
    split at hs
    · rename_i hw hpc
      cases hs
      exact ⟨howns.same (fun _ => rfl) (fun hne => absurd hpc hne),
        .nobody h.own (by simp [hpc]) (by simp) fun ho => absurd ho (hborrow (by simp [hw]))⟩
    · rename_i hw hpc
      cases hs
      exact ⟨howns.same (fun _ => rfl) (fun hne => absurd hpc hne),
        .nobody h.own (by simp [hpc]) (by simp) fun ho => absurd ho (hborrow (by simp [hw]))⟩
    · cases hs
  | tryWait outcome =>
    simp only [step] at hs
    split at hs
    · rename_i kept hc hw hpc
      cases hs
      exact ⟨howns.tryWait hc hw hpc outcome, h.tryWait howns hc hw hpc outcome⟩
    · cases hs
  | startKill =>
    simp only [step] at hs
    split at hs
    · split at hs
      · rename_i hholder
        cases hs
        rw [touch_of_unreaped (howns.unreaped (by rw [hholder]; simp))]
        exact ⟨howns, h⟩
      · cases hs
        exact ⟨howns, h⟩
    · cases hs
  | dropChild =>
    simp only [step] at hs
    split at hs
    · rename_i kept hc hw hpc
      split at hs
      · rename_i hholder
        have hzero := howns.unreaped (by rw [show s.holder = .child from hholder]; simp)
        have htouch : State.touch { s with child := none } = { s with child := none } :=
          touch_of_unreaped hzero
        rw [htouch, ite_self] at hs
        cases hs
        exact ⟨(howns.dropChild hw hpc).1 hholder, .nobody h.own (by simp) (by simp) (by simp)⟩
      · rename_i hholder
        cases hs
        exact ⟨(howns.dropChild hw hpc).2 hholder,
          .nobody h.own (by simp [hpc]) (by simp [hw])
            fun ho => absurd ho (howns.not_orphan hc)⟩
    · cases hs

/-- Somebody asleep when the child has exited is about to be woken, or is in the watch for the
event that will wake it. -/
theorem Asleep.due {w : Waker} (h : Asleep s w) (hexited : s.proc.isExited = true) :
    w ∈ s.waking ∨ s.watch.parked = some w ∧ Due s := by
  rcases h with ⟨hparked, -, hdue⟩ | hmem
  · exact .inr ⟨hparked, hdue hexited⟩
  · exact .inl hmem

end Process

end Nagoya
