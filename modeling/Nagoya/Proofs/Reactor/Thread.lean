import Nagoya.Lib.Fair
import Nagoya.Reactor.Thread

/-!
# `Nagoya.Proofs.Reactor.Thread`: a wake is a new pass, and the thread ends

Only the thread takes the pending wake, and only after a wait. So a wake that comes while the thread
is on its way to the wait is still pending there (`Told`), and the wait returns. The next pass reads
`running` and the deadline again.

`stop` wakes the poller after it has stored to `running`. From then on the thread makes no new
pass, and it does not stay in a wait. It exits, and the join returns.
-/

set_option autoImplicit false

namespace Nagoya.Reactor.Thread

open Nagoya.Lib
open Nagoya.Reactor.Descriptors (Backend)

/-- The steps that the thread takes by itself. A wait returns by itself only for a wake. -/
def Action.ofThread : Action → Prop
  | .run | .wakeReturns => True
  | _ => False

/-- The thread is in a pass and has not waited yet. -/
def RunPc.beforeWait : RunPc → Bool
  | .serviceTimers | .wait => true
  | _ => false

/-- The thread reads `running` again without blocking, or has a wake pending. -/
def State.Told (s : State) : Prop := s.pc.beforeWait = true → 0 < s.pending

/-- The wake of the first `stop` has been made. -/
def State.halted (s : State) : Bool :=
  match s.stop with
  | .idle => false
  | .storeRunning _ | .wake _ => !s.handle
  | .join _ | .done => true

/-- The invariant of a reactor. -/
structure Inv (s : State) : Prop where
  /-- `running` is stored by the first `stop`. -/
  running : s.running = true → s.stop = .idle ∨ ∃ again, s.stop = .storeRunning again
  idle : s.stop = .idle → s.running = true ∧ s.handle = true
  told : s.halted = true → s.running = false ∧ s.Told
  exited : s.handle = false → s.running = false ∧ s.pc = .exited
  done : s.stop = .done → s.handle = false

/-- A wake leaves something to be read. -/
theorem wake_pos (backend : Backend) (pending : Nat) : 0 < wake backend pending := by
  cases backend with
  | epoll =>
    show 0 < if pending < eventfdMax then pending + 1 else pending
    split
    · exact Nat.succ_pos _
    · have : eventfdMax ≤ pending := by omega
      exact Nat.lt_of_lt_of_le (by decide) this
  | kqueue => exact Nat.one_pos

/-- How far the thread is from the read of `running`. -/
def RunPc.rank : RunPc → Nat
  | .serviceTimers => 4
  | .wait => 3
  | .drain => 2
  | .dispatch => 1
  | .loadRunning | .exited => 0

/-- A new pass has begun, or the thread is gone. -/
def State.Passed (k : Nat) (s : State) : Prop := k < s.passes ∨ s.pc = .exited

/-- What a step can do that is not a step of `stop`. -/
structure Moves (act : Action) (s s' : State) : Prop where
  running : s'.running = s.running
  stop : s'.stop = s.stop
  handle : s'.handle = s.handle
  exited : s.pc = .exited → s'.pc = .exited
  /-- A new pass begins where `running` is read as set. -/
  passes : s'.passes = s.passes ∨ s.running = true ∧ s'.passes = s.passes + 1
  told : s.Told → s'.Passed s.passes ∨ s'.Told
  rank : s'.Passed s.passes ∨ s'.pc.rank ≤ s.pc.rank
  closer : act.ofThread → s'.Passed s.passes ∨ s'.pc.rank < s.pc.rank

/-- The thread goes on to `pc`, which is past its wait, and may have taken the pending wake. -/
theorem moves_past {act : Action} {s : State} {pc : RunPc} (pending : Nat)
    (hs : s.pc ≠ .exited) (hpc : pc.beforeWait = false) (hrank : pc.rank < s.pc.rank) :
    Moves act s { s with pc, pending } where
  running := rfl
  stop := rfl
  handle := rfl
  exited h := absurd h hs
  passes := .inl rfl
  told _ := .inr fun h => absurd (hpc.symm.trans h) (by simp)
  rank := .inr hrank.le
  closer _ := .inr hrank

/-- The thread exits. -/
theorem moves_exit (act : Action) (s : State) : Moves act s { s with pc := .exited } where
  running := rfl
  stop := rfl
  handle := rfl
  exited _ := rfl
  passes := .inl rfl
  told _ := .inl (.inr rfl)
  rank := .inl (.inr rfl)
  closer _ := .inl (.inr rfl)

/-- A step of the thread that has no choice. -/
theorem moves_run {s s' : State} (hs : runStep s = some s') : Moves .run s s' := by
  unfold runStep at hs
  -- The loop reads `running`, serves the timers, waits, and reads it again.
  split at hs
  · rename_i hpc
    split at hs <;> rename_i hrun <;> cases hs
    · -- A new pass begins.
      have hpass : ({ s with pc := RunPc.serviceTimers, passes := s.passes + 1 } : State).Passed
          s.passes := .inl (Nat.lt_succ_self _)
      exact ⟨rfl, rfl, rfl, by simp [hpc], .inr ⟨hrun, rfl⟩, fun _ => .inl hpass, .inl hpass,
        fun _ => .inl hpass⟩
    · exact moves_exit _ s
  · rename_i hpc
    cases hs
    have hrank : RunPc.wait.rank < s.pc.rank := by
      rw [hpc]
      decide
    refine ⟨rfl, rfl, rfl, by simp [hpc], .inl rfl, ?_, .inr hrank.le, fun _ => .inr hrank⟩
    intro h
    exact .inr fun _ => h (by rw [hpc]; rfl)
  · rename_i hpc
    cases hs
    exact moves_past 0 (by simp [hpc]) rfl (by rw [hpc]; decide)
  · rename_i hpc
    cases hs
    -- A loop that is back at the read sees `running` for itself.
    have htold : ({ s with pc := RunPc.loadRunning } : State).Told := fun h => by cases h
    refine ⟨rfl, rfl, rfl, by simp [hpc], .inl rfl, fun _ => .inr htold, .inr (Nat.zero_le _),
      fun _ => .inr ?_⟩
    rw [hpc]
    exact Nat.zero_lt_one
  · cases hs
  · cases hs

/-- What a step can do that is not a step of `stop`. -/
theorem moves {backend : Backend} {s s' : State} {act : Action}
    (hs : step backend s act = some s') (howner : act ≠ .owner)
    (hstop : ∀ shutdown, act ≠ .stop shutdown) : Moves act s s' := by
  cases act with
  | run => exact moves_run hs
  | wakeReturns =>
    simp only [step, Option.ite_none_right_eq_some] at hs
    obtain ⟨⟨hpc, -⟩, hs⟩ := hs
    cases backend <;> cases hs <;>
      exact moves_past _ (by simp [hpc]) rfl (by rw [hpc]; decide)
  | waitReturns =>
    simp only [step, Option.ite_none_right_eq_some, Option.some.injEq] at hs
    obtain ⟨hpc, rfl⟩ := hs
    exact moves_past _ (by simp [hpc]) rfl (by rw [hpc]; decide)
  | waitFails =>
    simp only [step, Option.ite_none_right_eq_some, Option.some.injEq] at hs
    obtain ⟨-, rfl⟩ := hs
    exact moves_exit _ s
  | panics =>
    simp only [step, Option.ite_none_right_eq_some, Option.some.injEq] at hs
    obtain ⟨-, rfl⟩ := hs
    exact moves_exit _ s
  | wake =>
    cases hs
    exact ⟨rfl, rfl, rfl, id, .inl rfl, fun _ => .inr fun _ => wake_pos backend s.pending,
      .inr (Nat.le_refl _), False.elim⟩
  | stop shutdown => exact absurd rfl (hstop shutdown)
  | owner => exact absurd rfl howner

/-- A step that is not a step of `stop` keeps the invariant. -/
theorem Inv.moves {act : Action} {s s' : State} (h : Inv s) (hm : Moves act s s') : Inv s' := by
  have hhalted : s'.halted = s.halted := by
    unfold State.halted
    rw [hm.stop, hm.handle]
  refine ⟨?_, ?_, ?_, ?_, ?_⟩
  · rw [hm.running, hm.stop]
    exact h.running
  · rw [hm.stop, hm.running, hm.handle]
    exact h.idle
  · rw [hhalted, hm.running]
    intro hhalt
    obtain ⟨hrun, htold⟩ := h.told hhalt
    refine ⟨hrun, ?_⟩
    rcases hm.told htold with (hlt | hexit) | htold'
    · -- There is no new pass once `running` is not set.
      rcases hm.passes with heq | ⟨hrun', -⟩
      · omega
      · rw [hrun] at hrun'
        cases hrun'
    · intro hb
      rw [hexit] at hb
      cases hb
    · exact htold'
  · rw [hm.handle, hm.running]
    intro hhandle
    obtain ⟨hrun, hexit⟩ := h.exited hhandle
    exact ⟨hrun, hm.exited hexit⟩
  · rw [hm.stop, hm.handle]
    exact h.done

/-- A step of `stop` keeps the invariant. -/
theorem Inv.owner {backend : Backend} {s s' : State} (h : Inv s)
    (hs : ownerStep backend s = some s') : Inv s' := by
  unfold ownerStep at hs
  split at hs
  · rename_i again hstop
    cases hs
    refine ⟨by simp, by simp, ?_, ?_, by simp⟩
    · intro hhalt
      have : s.halted = true := by
        unfold State.halted
        rw [hstop]
        exact hhalt
      exact ⟨rfl, (h.told this).2⟩
    · intro hhandle
      exact ⟨rfl, (h.exited hhandle).2⟩
  · rename_i again hstop
    cases hs
    -- `running` was cleared in the step before.
    have hrun : s.running = false := by
      by_contra hrun
      rcases h.running (by simpa using hrun) with h | ⟨_, h⟩ <;> rw [hstop] at h <;> cases h
    refine ⟨?_, by simp, fun _ => ⟨hrun, fun _ => wake_pos _ _⟩, h.exited, by simp⟩
    intro hrun'
    exact absurd (hrun.symm.trans hrun') (by simp)
  · rename_i again hstop
    split at hs <;> cases hs
    rename_i hjoin
    obtain ⟨hrun, htold⟩ := h.told (by simp [State.halted, hstop])
    -- The join is over when the thread has exited.
    have hexit : s.pc = .exited := by
      by_contra hpc
      cases hhandle : s.handle with
      | false => exact hpc (h.exited hhandle).2
      | true => exact hjoin ⟨hhandle, hpc⟩
    refine ⟨?_, ?_, fun _ => ⟨hrun, htold⟩, fun _ => ⟨hrun, hexit⟩, fun _ => rfl⟩
    · intro hrun'
      exact absurd (hrun.symm.trans hrun') (by simp)
    · cases again <;> simp
  · cases hs
  · cases hs

/-- The reactor starts to be dropped. -/
theorem Inv.stop {s : State} (h : Inv s) (hstop : s.stop = .idle) (shutdown : Bool) :
    Inv { s with stop := .storeRunning shutdown } := by
  have hhandle := (h.idle hstop).2
  refine ⟨fun _ => .inr ⟨shutdown, rfl⟩, by simp, ?_, h.exited, by simp⟩
  intro hhalt
  exact absurd hhalt (by simp [State.halted, hhandle])

/-- Every step keeps the invariant. -/
theorem inv_step {backend : Backend} {s s' : State} {act : Action} (h : Inv s)
    (hs : step backend s act = some s') : Inv s' := by
  by_cases howner : act = .owner
  · subst howner
    exact h.owner hs
  · by_cases hstop : ∃ shutdown, act = .stop shutdown
    · obtain ⟨shutdown, rfl⟩ := hstop
      simp only [step, Option.ite_none_right_eq_some, Option.some.injEq] at hs
      obtain ⟨hidle, rfl⟩ := hs
      exact h.stop hidle shutdown
    · exact h.moves (moves hs howner fun shutdown heq => hstop ⟨shutdown, heq⟩)

/-- The invariant holds in every state of every run. -/
theorem inv_of_reachable {backend : Backend} {s : State} (hr : (system backend).Reachable s) :
    Inv s := by
  refine hr.invariant (P := Inv) ?_ ?_
  · rintro s rfl
    exact ⟨fun _ => .inl rfl, fun _ => ⟨rfl, rfl⟩, by simp [start, State.halted], by simp [start],
      by simp [start]⟩
  · intro s act s' h hs
    exact inv_step h hs

/-! ### What must happen -/

/-- A step of `stop` leaves the thread where it is. -/
theorem owner_frame {backend : Backend} {s s' : State} (hs : ownerStep backend s = some s') :
    s'.pc = s.pc ∧ s'.passes = s.passes ∧ (s.Told → s'.Told) := by
  unfold ownerStep at hs
  split at hs
  · cases hs
    exact ⟨rfl, rfl, id⟩
  · cases hs
    exact ⟨rfl, rfl, fun _ _ => wake_pos backend s.pending⟩
  · split at hs <;> cases hs
    exact ⟨rfl, rfl, id⟩
  · cases hs
  · cases hs

/-- Every step takes a thread that is told to its next pass, or leaves it told and no further from
the pass. -/
theorem told_step {backend : Backend} {s s' : State} {act : Action} (htold : s.Told)
    (hs : step backend s act = some s') :
    s'.Passed s.passes ∨ (s'.Told ∧ s'.passes = s.passes) ∧ s'.pc.rank ≤ s.pc.rank ∧
      (act.ofThread → s'.pc.rank < s.pc.rank) := by
  by_cases howner : act = .owner
  · subst howner
    obtain ⟨hpc, hpasses, hkeep⟩ := owner_frame hs
    exact .inr ⟨⟨hkeep htold, hpasses⟩, by rw [hpc], False.elim⟩
  · by_cases hstop : ∃ shutdown, act = .stop shutdown
    · obtain ⟨shutdown, rfl⟩ := hstop
      simp only [step, Option.ite_none_right_eq_some, Option.some.injEq] at hs
      obtain ⟨-, rfl⟩ := hs
      exact .inr ⟨⟨htold, rfl⟩, Nat.le_refl _, False.elim⟩
    · have hm := moves hs howner fun shutdown heq => hstop ⟨shutdown, heq⟩
      by_cases hpassed : s'.Passed s.passes
      · exact .inl hpassed
      · refine .inr ⟨⟨(hm.told htold).resolve_left hpassed, ?_⟩, hm.rank.resolve_left hpassed,
          fun hact => (hm.closer hact).resolve_left hpassed⟩
        rcases hm.passes with heq | ⟨-, heq⟩
        · exact heq
        · exact absurd (Or.inl (by omega)) hpassed

/-- A thread that is told is not blocked. -/
theorem State.Told.enabled {backend : Backend} {s : State} (htold : s.Told) :
    s.pc = .exited ∨ (system backend).Enabled Action.ofThread s := by
  cases hpc : s.pc with
  | wait =>
    have hpending : 0 < s.pending := htold (by rw [hpc]; rfl)
    refine .inr ⟨.wakeReturns, trivial, ?_⟩
    cases backend <;> simp [system, step, hpc, hpending]
  | exited => exact .inl rfl
  | loadRunning =>
    refine .inr ⟨.run, trivial, ?_⟩
    cases hrun : s.running <;> simp [system, step, runStep, hpc, hrun]
  | serviceTimers | drain | dispatch =>
    exact .inr ⟨.run, trivial, by simp [system, step, runStep, hpc]⟩

/-- A thread that is told begins a new pass, or exits. -/
theorem told_leadsTo {backend : Backend} {ρ : (system backend).Path}
    (hthread : ρ.WeakFair Action.ofThread) (k : Nat) :
    ρ.LeadsTo (fun s => s.Told ∧ s.passes = k) (State.Passed k) := by
  refine Lts.Path.leadsTo_of_rank (fun s => s.pc.rank) hthread ?_ ?_ ?_
  · rintro s act s' _ ⟨htold, rfl⟩ hs
    exact (told_step htold hs).imp id fun ⟨hkeep, hle, _⟩ => ⟨hkeep, hle⟩
  · rintro s act s' _ ⟨htold, rfl⟩ hact hs
    exact (told_step htold hs).imp id fun ⟨_, _, hlt⟩ => hlt hact
  · rintro s _ ⟨htold, -⟩
    exact htold.enabled.imp .inr id

/-- After every `Handle::wake` the thread begins a new pass, which services the timers, or it has
exited. The kernel keeps a wake that comes before the wait, while the counter is read, or when the
counter is full. -/
theorem wake_leadsTo_pass {backend : Backend} {ρ : (system backend).Path}
    (hthread : ρ.WeakFair Action.ofThread) {n : Nat} (hwake : ρ.label n = some .wake) :
    ∃ m, n < m ∧ (ρ.state m).Passed (ρ.state n).passes := by
  have hs := ρ.next n
  rw [hwake] at hs
  have hstate : { ρ.state n with pending := wake backend (ρ.state n).pending } = ρ.state (n + 1) :=
    Option.some.inj hs
  have htold : (ρ.state (n + 1)).Told ∧ (ρ.state (n + 1)).passes = (ρ.state n).passes := by
    rw [← hstate]
    exact ⟨fun _ => wake_pos backend _, rfl⟩
  obtain ⟨m, hm, hp⟩ := told_leadsTo hthread _ (n + 1) htold
  exact ⟨m, hm, hp⟩

/-- The thread waits without a deadline, and then the poller is woken. -/
def wakeRun : List Action := [.run, .run, .wake, .wakeReturns, .run, .run, .run, .panics]

/-- A thread that waits without a deadline begins a new pass when it is woken. -/
theorem wake_leadsTo_pass_waiting :
    ∃ (ρ : (system .epoll).Path) (n m : Nat), n < m ∧ (ρ.state n).pc = .wait ∧
      ρ.label n = some .wake ∧ (ρ.state m).Passed (ρ.state n).passes := by
  have hrun : (system .epoll).run start wakeRun =
      some { start with pc := .exited, passes := 2 } := by decide
  have hstate : (system .epoll).run start (wakeRun.take 2) =
      some { start with pc := .wait, passes := 1 } := by decide
  let ρ : (system .epoll).Path := Lts.Path.ofRun wakeRun rfl hrun
  have hn : ρ.state 2 = { start with pc := .wait, passes := 1 } := Lts.Path.state_ofRun hstate
  have hthread : ρ.WeakFair Action.ofThread := by
    refine Lts.Path.fair_ofRun ?_
    rintro ⟨act, hact, hs⟩
    cases act <;> first | exact hact | simp [system, step, runStep] at hs
  obtain ⟨m, hm, hp⟩ := wake_leadsTo_pass hthread (n := 2) rfl
  exact ⟨ρ, 2, m, hm, by rw [hn], rfl, hp⟩

/-- How far the owner is from the end of `stop`. -/
def StopPc.rank : StopPc → Nat
  | .storeRunning true => 5
  | .wake true => 4
  | .join true => 3
  | .storeRunning false => 2
  | .wake false => 1
  | _ => 0

/-- A step that is not one of the owner's leaves a `stop` that has begun where it is. -/
theorem stop_frame {backend : Backend} {s s' : State} {act : Action} (hstop : s.stop ≠ .idle)
    (hs : step backend s act = some s') (howner : act ≠ .owner) :
    s'.stop = s.stop ∧ s'.handle = s.handle ∧ s'.running = s.running ∧
      (s.pc = .exited → s'.pc = .exited) := by
  have hnot : ∀ shutdown, act ≠ .stop shutdown := by
    rintro shutdown rfl
    simp [step, hstop] at hs
  have hm := moves hs howner hnot
  exact ⟨hm.stop, hm.handle, hm.running, hm.exited⟩

/-- A step of `stop` brings the end closer, and `stop` does not become idle. -/
theorem owner_closer {backend : Backend} {s s' : State} (hs : ownerStep backend s = some s') :
    s'.stop ≠ .idle ∧ (s'.stop = .done ∨ s'.stop.rank < s.stop.rank) := by
  unfold ownerStep at hs
  split at hs
  · rename_i again hstop
    cases hs
    rw [hstop]
    cases again <;> simp [StopPc.rank]
  · rename_i again hstop
    cases hs
    rw [hstop]
    cases again <;> simp [StopPc.rank]
  · rename_i again hstop
    split at hs <;> cases hs
    rw [hstop]
    cases again <;> simp [StopPc.rank]
  · cases hs
  · cases hs

/-- What a reactor keeps once `running` is not set: the thread begins no new pass. -/
structure Ending (k : Nat) (s : State) : Prop where
  stop : s.stop ≠ .idle
  running : s.running = false
  passes : s.passes = k

/-- A thread that has `running` unset begins no pass in any step. -/
theorem ending_step {backend : Backend} {k : Nat} {s s' : State} {act : Action}
    (h : Ending k s) (hs : step backend s act = some s') : Ending k s' := by
  by_cases howner : act = .owner
  · subst howner
    have hrun : s'.running = false := by
      have hrun := h.running
      change ownerStep backend s = some s' at hs
      unfold ownerStep at hs
      split at hs
      · cases hs
        rfl
      · cases hs
        exact hrun
      · split at hs <;> cases hs
        exact hrun
      · cases hs
      · cases hs
    exact ⟨(owner_closer hs).1, hrun, (owner_frame hs).2.1.trans h.passes⟩
  · have hnot : ∀ shutdown, act ≠ .stop shutdown := by
      rintro shutdown rfl
      simp [step, h.stop] at hs
    have hm := moves hs howner hnot
    refine ⟨by rw [hm.stop]; exact h.stop, hm.running.trans h.running, ?_⟩
    rcases hm.passes with heq | ⟨hrun, -⟩
    · exact heq.trans h.passes
    · rw [h.running] at hrun
      cases hrun

/-- The owner stores to `running` and wakes the poller. -/
theorem halts {backend : Backend} {ρ : (system backend).Path}
    (howner : ρ.WeakFair (· = .owner)) :
    ρ.LeadsTo (fun s => s.stop ≠ .idle) (fun s => s.halted = true) := by
  refine Lts.Path.leadsTo_of_rank (fun s => s.stop.rank) howner ?_ ?_ ?_
  · intro s act s' _ hstop hs
    by_cases hact : act = .owner
    · subst hact
      obtain ⟨hstop', hdone | hlt⟩ := owner_closer hs
      · exact .inl (by simp [State.halted, hdone])
      · exact .inr ⟨hstop', hlt.le⟩
    · have hframe := stop_frame hstop hs hact
      exact .inr ⟨by rw [hframe.1]; exact hstop, by rw [hframe.1]⟩
  · rintro s act s' _ _ rfl hs
    obtain ⟨-, hdone | hlt⟩ := owner_closer hs
    · exact .inl (by simp [State.halted, hdone])
    · exact .inr hlt
  · intro s _ hidle
    cases hstop : s.stop with
    | idle => exact absurd hstop hidle
    | storeRunning again | wake again =>
      exact .inr ⟨.owner, rfl, by simp [system, step, ownerStep, hstop]⟩
    | join again | done => exact .inl (by simp [State.halted, hstop])

/-- The thread of a reactor that is told to end exits. -/
theorem exits {backend : Backend} {ρ : (system backend).Path}
    (hthread : ρ.WeakFair Action.ofThread) :
    ρ.LeadsTo (fun s => s.halted = true) (fun s => s.pc = .exited ∧ s.stop ≠ .idle) := by
  have hk : ∀ k, ρ.LeadsTo (fun s => (s.Told ∧ s.passes = k) ∧ Ending k s)
      (fun s => s.pc = .exited ∧ s.stop ≠ .idle) := by
    intro k
    have hpass := (told_leadsTo hthread k).and_stable (R := Ending k)
      fun s act s' _ h hs => ending_step h hs
    refine hpass.trans (Lts.Path.leadsTo_of_imp ?_)
    rintro s _ ⟨hlt | hexit, h⟩
    · exact absurd h.passes (by omega)
    · exact ⟨hexit, h.stop⟩
  intro n hhalt
  have hi := inv_of_reachable (ρ.reachable n)
  obtain ⟨hrun, htold⟩ := hi.told hhalt
  have hstop : (ρ.state n).stop ≠ .idle := by
    intro hidle
    rw [State.halted, hidle] at hhalt
    cases hhalt
  exact hk _ n ⟨⟨htold, rfl⟩, hstop, hrun, rfl⟩

/-- The owner of a reactor whose thread has exited comes to the end of `stop`. -/
theorem joins {backend : Backend} {ρ : (system backend).Path}
    (howner : ρ.WeakFair (· = .owner)) :
    ρ.LeadsTo (fun s => s.pc = .exited ∧ s.stop ≠ .idle)
      (fun s => s.stop = .done ∧ s.pc = .exited) := by
  refine Lts.Path.leadsTo_of_rank (fun s => s.stop.rank) howner ?_ ?_ ?_
  · rintro s act s' _ ⟨hexit, hstop⟩ hs
    by_cases hact : act = .owner
    · subst hact
      have hexit' := (owner_frame hs).1.trans hexit
      obtain ⟨hstop', hdone | hlt⟩ := owner_closer hs
      · exact .inl ⟨hdone, hexit'⟩
      · exact .inr ⟨⟨hexit', hstop'⟩, hlt.le⟩
    · have hframe := stop_frame hstop hs hact
      exact .inr ⟨⟨hframe.2.2.2 hexit, by rw [hframe.1]; exact hstop⟩, by rw [hframe.1]⟩
  · rintro s act s' _ ⟨hexit, -⟩ rfl hs
    have hexit' := (owner_frame hs).1.trans hexit
    obtain ⟨-, hdone | hlt⟩ := owner_closer hs
    · exact .inl ⟨hdone, hexit'⟩
    · exact .inr hlt
  · rintro s _ ⟨hexit, hidle⟩
    cases hstop : s.stop with
    | idle => exact absurd hstop hidle
    | storeRunning again | wake again =>
      exact .inr ⟨.owner, rfl, by simp [system, step, ownerStep, hstop]⟩
    | join again => exact .inr ⟨.owner, rfl, by simp [system, step, ownerStep, hstop, hexit]⟩
    | done => exact .inl ⟨rfl, hexit⟩

/-- A reactor that is shut down or dropped comes to an end: the thread exits and the join returns.
The wait may have no deadline and no event. Once `running` is not set, the thread begins no new
pass. -/
theorem stop_returns {backend : Backend} {ρ : (system backend).Path}
    (hthread : ρ.WeakFair Action.ofThread) (howner : ρ.WeakFair (· = .owner)) :
    ρ.LeadsTo (fun s => s.stop ≠ .idle) (fun s => s.stop = .done ∧ s.pc = .exited) ∧
      ∀ k, ρ.LeadsTo (fun s => s.running = false ∧ s.passes = k)
        (fun s => (s.stop = .done ∧ s.pc = .exited) ∧ s.passes = k) := by
  have hend : ρ.LeadsTo (fun s => s.stop ≠ .idle) (fun s => s.stop = .done ∧ s.pc = .exited) :=
    (halts howner).trans ((exits hthread).trans (joins howner))
  refine ⟨hend, ?_⟩
  rintro k n ⟨hrun, hk⟩
  have hstop : (ρ.state n).stop ≠ .idle := by
    intro hidle
    rw [((inv_of_reachable (ρ.reachable n)).idle hidle).1] at hrun
    cases hrun
  obtain ⟨m, hm, hdone, hending⟩ := hend.and_stable (R := Ending k)
    (fun s act s' _ h hs => ending_step h hs) n ⟨hstop, hstop, hrun, hk⟩
  exact ⟨m, hm, hdone, hending.passes⟩

/-- The reactor is shut down while its thread waits without a deadline. -/
def stopRun : List Action :=
  [.run, .run, .stop true, .owner, .owner, .wakeReturns, .run, .run, .owner, .owner, .owner, .owner]

/-- A reactor is shut down while its thread waits without a deadline. -/
theorem stop_returns_waiting :
    ∃ (ρ : (system .kqueue).Path) (n m : Nat), n ≤ m ∧ (ρ.state n).pc = .wait ∧
      (ρ.state n).stop = .storeRunning true ∧ (ρ.state m).stop = .done ∧
      (ρ.state m).pc = .exited := by
  have hrun : (system .kqueue).run start stopRun = some
      { start with
        running := false, pending := 1, pc := .exited, stop := .done, handle := false,
        passes := 1 } := by
    decide
  have hstate : (system .kqueue).run start (stopRun.take 3) =
      some { start with pc := .wait, stop := .storeRunning true, passes := 1 } := by decide
  let ρ : (system .kqueue).Path := Lts.Path.ofRun stopRun rfl hrun
  have hn : ρ.state 3 = { start with pc := .wait, stop := .storeRunning true, passes := 1 } :=
    Lts.Path.state_ofRun hstate
  have hthread : ρ.WeakFair Action.ofThread := by
    refine Lts.Path.fair_ofRun ?_
    rintro ⟨act, hact, hs⟩
    cases act <;> first | exact hact | simp [system, step, runStep] at hs
  have howner : ρ.WeakFair (· = .owner) := by
    refine Lts.Path.fair_ofRun ?_
    rintro ⟨act, rfl, hs⟩
    simp [system, step, ownerStep] at hs
  obtain ⟨m, hm, hdone, hexit⟩ := (stop_returns hthread howner).1 3 (by rw [hn]; simp)
  exact ⟨ρ, 3, m, hm, by rw [hn], by rw [hn], hdone, hexit⟩

end Nagoya.Reactor.Thread
