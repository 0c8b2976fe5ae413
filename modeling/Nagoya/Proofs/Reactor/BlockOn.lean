import Nagoya.Lib.Pool
import Nagoya.Reactor.BlockOn

/-!
# `Nagoya.Proofs.Reactor.BlockOn`: the loop does not sleep through a wake

A wake is suppressed only on the loop's own thread and only inside `poll_once`. The wakes of
`dispatch` come after the wait, and the loop reads `ready` before it waits again. The wakes of
`service_timers` come before the wait, but then `woke` is set and the wait does not block. So on
the way to a wait that blocks (`LoopPc.blocking`) no wake is suppressed: whoever stored to `ready`
last has woken the poller, or will.
-/

set_option autoImplicit false

namespace Nagoya.Reactor.BlockOn

open Nagoya.Lib
open Nagoya.Time.Timers (noDeadline)

/-- The loop is between the two stores to `waiting`. -/
def LoopPc.inside : LoopPc → Bool
  | .swapReady | .poll _ | .storeWaiting | .returned => false
  | _ => true

/-- The loop is on its way to a wait that may block, and has not read `ready` since the poll. -/
def LoopPc.blocking : LoopPc → Bool
  | .poll failed => !failed
  | .storeWaiting | .loadDeadline | .readClock _ | .swapDeadline _ | .fireDue _ => true
  | .wakeDue _ _ _ woke | .fetchMin _ _ woke | .loadCached _ woke => !woke
  | .wait timeout => timeout ≠ some 0
  | _ => false

/-- The call has stored to `ready` and has not finished. -/
def WakeCall.raised (c : WakeCall) : Prop := c.pc = .loadWaiting ∨ c.pc = .wakePoller

/-- A wake of the poller is pending, or the call that stored to `ready` last has not finished. -/
def State.Covered (s : State) : Prop :=
  s.wakePending = true ∨
    ∃ j c, s.setter = some j ∧ s.calls[j]? = some c ∧ c.raised

/-- The invariant of the loop. -/
structure Inv (key : Nat) (s : State) : Prop where
  threads : ∀ c ∈ s.calls, c.thread ≠ 0
  /-- An unfinished call of the loop's thread is the one that the loop waits for. -/
  own : ∀ (j : Nat) c, s.calls[j]? = some c → c.thread = key → c.pc ≠ .done → s.own = some j
  outside : s.own ≠ none → s.pc.outside = true
  waiting : s.waiting = if s.pc.inside then key else 0
  /-- `woke` is set when a waker is woken. -/
  woke : ∀ now left next, s.pc = .wakeDue now left next false → left = 0
  ready : s.pc.blocking = true → s.ready = true → s.Covered

/-- The loop takes a step while its thread makes no call. What stands in the calls is kept. -/
theorem Inv.moveLoop {key : Nat} {s s' : State} (h : Inv key s) (hown : s.own = none)
    (hcalls : s'.calls = s.calls) (hown' : s'.own = s.own)
    (hwaiting : s'.waiting = if s'.pc.inside then key else 0)
    (hwoke : ∀ now left next, s'.pc = .wakeDue now left next false → left = 0)
    (hready : s'.pc.blocking = true → s'.ready = true → s'.Covered) : Inv key s' := by
  refine ⟨?_, ?_, ?_, hwaiting, hwoke, hready⟩
  · rw [hcalls]
    exact h.threads
  · rw [hcalls, hown']
    exact h.own
  · intro hne
    rw [hown', hown] at hne
    exact absurd rfl hne

/-- The loop goes on and touches nothing that a wake depends on. -/
theorem Inv.advance {key : Nat} {s : State} {pc : LoopPc} {nextDeadline : Nat} (h : Inv key s)
    (hown : s.own = none) (hinside : pc.inside = s.pc.inside)
    (hwoke : ∀ now left next, pc = .wakeDue now left next false → left = 0)
    (hblocking : pc.blocking = true → s.pc.blocking = true) :
    Inv key { s with pc, nextDeadline } := by
  refine h.moveLoop hown rfl rfl ?_ hwoke ?_
  · show s.waiting = if pc.inside then key else 0
    rw [hinside]
    exact h.waiting
  · intro hb hr
    exact h.ready (hblocking hb) hr

/-- A step of the loop that has no choice keeps the invariant. -/
theorem inv_loopStep {key : Nat} {s s' : State} (h : Inv key s) (hown : s.own = none)
    (hs : loopStep key s = some s') : Inv key s' := by
  unfold loopStep at hs
  split at hs
  · rename_i hpc
    have hw : s.waiting = 0 := by
      rw [h.waiting, hpc]
      rfl
    split at hs <;> cases hs
    -- `ready` is taken, and the future is polled.
    · refine h.moveLoop hown rfl rfl hw (by simp) ?_
      intro _ hr
      cases hr
    · rename_i hr
      refine h.moveLoop hown rfl rfl hw (by simp) ?_
      intro _ hr'
      exact absurd hr' hr
  · rename_i hpc
    cases hs
    refine h.moveLoop hown rfl rfl rfl (by simp) ?_
    intro _ hr
    exact h.ready (by rw [hpc]; rfl) hr
  · rename_i hpc
    cases hs
    exact h.advance hown (by rw [hpc]; rfl) (by simp) (by simp [hpc, LoopPc.blocking])
  · rename_i now hpc
    cases hs
    exact h.advance hown (by rw [hpc]; rfl) (by simp) (by simp [hpc, LoopPc.blocking])
  · rename_i now left next woke hpc
    cases hs
    refine h.advance hown (by rw [hpc]; rfl) ?_ (by simp [hpc, LoopPc.blocking])
    intro now' left' next' heq
    cases heq
    -- One of the wakers that were due has just been woken.
    have := h.woke _ _ _ hpc
    omega
  · rename_i now next woke hpc
    cases hs
    exact h.advance hown (by rw [hpc]; rfl) (by simp) (by simp [hpc, LoopPc.blocking])
  · rename_i now next woke hpc
    cases hs
    exact h.advance hown (by rw [hpc]; rfl) (by simp) (by simp [hpc, LoopPc.blocking])
  · rename_i now woke hpc
    cases hs
    refine h.advance hown (by rw [hpc]; rfl) (by simp) ?_
    -- A waker was woken, and then the wait does not block.
    cases woke with
    | true => simp [LoopPc.blocking, pollTimeout]
    | false => simp [hpc, LoopPc.blocking]
  · rename_i left hpc
    cases hs
    exact h.advance hown (by rw [hpc]; rfl) (by simp) (by simp [LoopPc.blocking])
  · rename_i hpc
    cases hs
    exact h.advance hown (by rw [hpc]; rfl) (by simp) (by simp [LoopPc.blocking])
  · rename_i failed hpc
    cases hs
    refine h.moveLoop hown rfl rfl ?_ ?_ ?_
    · cases failed <;> rfl
    · cases failed <;> simp
    · cases failed <;> simp [LoopPc.blocking]
  · cases hs

/-- A step of the loop in which the environment chooses keeps the invariant. -/
theorem inv_choiceStep {key : Nat} {s s' : State} {act : Action} (h : Inv key s)
    (hown : s.own = none) (hs : choiceStep s act = some s') : Inv key s' := by
  cases act with
  | pollReturns ready =>
    simp only [choiceStep] at hs
    split at hs
    · rename_i failed hpc
      cases hs
      refine h.advance hown ?_ ?_ ?_
      · rw [hpc]
        cases ready <;> cases failed <;> rfl
      · cases ready <;> cases failed <;> simp
      · rw [hpc]
        cases ready <;> cases failed <;> simp [LoopPc.blocking]
    · cases hs
  | clock now =>
    simp only [choiceStep] at hs
    split at hs
    · rename_i deadline hpc
      split at hs <;> cases hs
      · exact h.advance hown (by rw [hpc]; rfl) (by simp) (by simp [hpc, LoopPc.blocking])
      · exact h.advance hown (by rw [hpc]; rfl) (by simp) (by simp [hpc, LoopPc.blocking])
    · cases hs
  | fire due next =>
    simp only [choiceStep] at hs
    split at hs
    · rename_i now hpc
      cases hs
      refine h.advance hown (by rw [hpc]; rfl) ?_ (by simp [hpc, LoopPc.blocking])
      intro now' left' next' heq
      simp only [LoopPc.wakeDue.injEq, decide_eq_false_iff_not] at heq
      omega
    · cases hs
  | waitReturns sawWake failed =>
    simp only [choiceStep] at hs
    split at hs
    · rename_i timeout hpc
      cases hs
      exact h.advance hown (by rw [hpc]; rfl) (by simp) (by simp [LoopPc.blocking])
    · cases hs
  | collect wakers =>
    simp only [choiceStep] at hs
    split at hs
    · rename_i sawWake failed hpc
      cases hs
      have hw : s.waiting = key := by
        rw [h.waiting, hpc]
        rfl
      refine h.moveLoop hown rfl rfl ?_ ?_ ?_
      · cases failed <;> exact hw
      · cases failed <;> simp
      · cases failed <;> simp [LoopPc.blocking]
    · cases hs
  | reenter sawWake =>
    simp only [choiceStep] at hs
    split at hs
    · rename_i hwaking
      cases hs
      refine h.moveLoop hown rfl rfl h.waiting h.woke ?_
      -- Wakers are woken, so this is not on the way to a wait that blocks.
      intro hb _
      exfalso
      cases hpc : s.pc with
      | wakeDue now left next woke =>
        rw [hpc] at hwaking
        simp only [LoopPc.waking, decide_eq_true_eq] at hwaking
        have hb : (!woke) = true := by
          rw [hpc] at hb
          exact hb
        cases woke with
        | true => cases hb
        | false =>
          have := h.woke _ _ _ hpc
          omega
      | dispatch left =>
        rw [show State.pc _ = s.pc from rfl, hpc] at hb
        cases hb
      | _ =>
        rw [hpc] at hwaking
        cases hwaking
    · cases hs
  | _ => cases hs

/-- The loop's thread is in a call, and the loop is not on its way to a wait that blocks. Only
inside the first poll it is, and there `waiting` is zero. -/
theorem Inv.own_blocking {key : Nat} {s : State} (h : Inv key s) (hown : s.own ≠ none)
    (hb : s.pc.blocking = true) : s.pc.inside = false := by
  have hout := h.outside hown
  cases hpc : s.pc with
  | poll failed => rfl
  | wakeDue now left next woke =>
    rw [hpc] at hout hb
    have hleft : 0 < left := of_decide_eq_true hout
    cases woke with
    | true => cases hb
    | false =>
      have := h.woke _ _ _ hpc
      omega
  | dispatch left =>
    rw [hpc] at hb
    cases hb
  | _ =>
    rw [hpc] at hout
    cases hout

/-- On the way to a wait that blocks, no call finds its own key in `waiting`. -/
theorem Inv.not_suppressed {key : Nat} {s : State} (h : Inv key s) {j : Nat} {c : WakeCall}
    (hj : s.calls[j]? = some c) (hpc : c.pc ≠ .done) (hb : s.pc.blocking = true) :
    s.waiting ≠ c.thread := by
  intro heq
  cases hin : s.pc.inside with
  | false =>
    rw [h.waiting, hin] at heq
    exact h.threads c (List.mem_of_getElem? hj) heq.symm
  | true =>
    rw [h.waiting, hin] at heq
    have hown := h.own j c hj heq.symm hpc
    rw [h.own_blocking (by simp [hown]) hb] at hin
    cases hin

/-- A call of `wake_by_ref` takes a step, and the cover is shown for what it leaves. -/
theorem Inv.moveCall {key : Nat} {s : State} {j : Nat} {c : WakeCall} {pc : WakePc}
    {ready wakePending : Bool} {own setter : Option Nat} (h : Inv key s)
    (hj : s.calls[j]? = some c) (hpc : c.pc ≠ .done)
    (hown : own = s.own ∨ pc = .done ∧ own = if s.own = some j then none else s.own)
    (hready : s.pc.blocking = true → ready = true →
      State.Covered { s with
        ready, wakePending, own, setter, calls := s.calls.set j { c with pc } }) :
    Inv key { s with ready, wakePending, own, setter, calls := s.calls.set j { c with pc } } := by
  refine ⟨?_, ?_, ?_, h.waiting, h.woke, hready⟩
  · intro d hd
    rcases mem_set_cases hj hd with rfl | ⟨i, -, hi⟩
    · exact h.threads c (List.mem_of_getElem? hj)
    · exact h.threads d (List.mem_of_getElem? hi)
  · intro i d hi hthread hd
    rw [show State.calls _ = s.calls.set j { c with pc } from rfl, getElem?_set_of_some hj] at hi
    show own = some i
    split at hi
    · rename_i hij
      cases hi
      rcases hown with hown | ⟨hdone, -⟩
      · rw [hown, hij]
        exact h.own j c hj hthread hpc
      · exact absurd hdone hd
    · rename_i hij
      have hi' := h.own i d hi hthread hd
      rcases hown with hown | ⟨-, hown⟩
      · rw [hown, hi']
      · rw [hown, hi', if_neg (by simp [hij])]
  · intro hne
    refine h.outside fun hnone => hne ?_
    show own = none
    rcases hown with hown | ⟨-, hown⟩
    · rw [hown, hnone]
    · rw [hown, hnone, if_neg (by simp)]

/-- A step of a call of `wake_by_ref` keeps the invariant. -/
theorem inv_wakeStep {key : Nat} {s s' : State} {j : Nat} {c : WakeCall} (h : Inv key s)
    (hj : s.calls[j]? = some c) (hs : wakeStep s j c = some s') : Inv key s' := by
  have hput : ∀ d, (s.calls.set j d)[j]? = some d := by
    intro d
    rw [getElem?_set_of_some hj, if_pos rfl]
  unfold wakeStep at hs
  cases hpc : c.pc with
  | storeReady =>
    rw [hpc] at hs
    cases hs
    refine h.moveCall hj (by simp [hpc]) (.inl rfl) ?_
    intro _ _
    -- The call has stored `ready` and goes on to raise the poller.
    exact .inr ⟨j, _, rfl, hput _, .inl rfl⟩
  | loadWaiting =>
    simp only [hpc] at hs
    split at hs <;> cases hs
    -- The call finds its own key, so the loop is not on its way to a wait that blocks.
    · rename_i hkey
      refine h.moveCall hj (by simp [hpc]) (.inr ⟨rfl, rfl⟩) ?_
      intro hb _
      exact absurd hkey (h.not_suppressed hj (by simp [hpc]) hb)
    · refine h.moveCall hj (by simp [hpc]) (.inl rfl) ?_
      intro hb hr
      rcases h.ready hb hr with hw | ⟨i, d, hset, hi, hraised⟩
      · exact .inl hw
      · by_cases hij : i = j
        · rw [hij] at hset
          exact .inr ⟨j, _, hset, hput _, .inr rfl⟩
        · refine .inr ⟨i, d, hset, ?_, hraised⟩
          show (s.calls.set j _)[i]? = some d
          rw [getElem?_set_of_some hj, if_neg hij]
          exact hi
  | wakePoller =>
    rw [hpc] at hs
    cases hs
    refine h.moveCall hj (by simp [hpc]) (.inr ⟨rfl, rfl⟩) ?_
    intro _ _
    exact .inl rfl
  | done =>
    rw [hpc] at hs
    cases hs

/-- A thread calls `wake_by_ref`. -/
theorem inv_wake {key : Nat} {s s' : State} {thread : Nat} (h : Inv key s)
    (hs : step key s (.wake thread) = some s') : Inv key s' := by
  -- The call that covers `ready` goes on as before.
  have hcovered : ∀ {own}, s.Covered → State.Covered { s with
      calls := s.calls ++ [{ thread, pc := .storeReady }], own } := by
    intro own hc
    rcases hc with hw | ⟨i, d, hset, hi, hraised⟩
    · exact .inl hw
    · refine .inr ⟨i, d, hset, ?_, hraised⟩
      show (s.calls ++ _)[i]? = some d
      rw [List.getElem?_append_left (List.getElem?_eq_some_iff.mp hi).1]
      exact hi
  have hthreads : thread ≠ 0 → ∀ c ∈ s.calls ++ [{ thread, pc := .storeReady }], c.thread ≠ 0 := by
    intro hne c hc
    rcases List.mem_append.mp hc with hc | hc
    · exact h.threads c hc
    · rw [List.mem_singleton.mp hc]
      exact hne
  simp only [step] at hs
  split at hs
  · cases hs
  · rename_i hne
    split at hs
    · split at hs
      · rename_i hcond
        obtain ⟨hnone, hout⟩ := hcond
        cases hs
        refine ⟨hthreads hne, ?_, fun _ => hout, h.waiting, h.woke, ?_⟩
        · intro i d hi hthread hd
          rcases getElem?_append_singleton hi with hi | ⟨hlast, -⟩
          · have := h.own i d hi hthread hd
            rw [hnone] at this
            cases this
          · rw [hlast]
        · intro hb hr
          exact hcovered (h.ready hb hr)
      · cases hs
    · rename_i hother
      cases hs
      refine ⟨hthreads hne, ?_, h.outside, h.waiting, h.woke, ?_⟩
      · intro i d hi hthread hd
        rcases getElem?_append_singleton hi with hi | ⟨-, rfl⟩
        · exact h.own i d hi hthread hd
        · exact absurd hthread hother
      · intro hb hr
        exact hcovered (h.ready hb hr)

/-- Every step keeps the invariant. -/
theorem inv_step {key : Nat} {s s' : State} {act : Action} (h : Inv key s)
    (hs : step key s act = some s') : Inv key s' := by
  cases act with
  | loop =>
    simp only [step] at hs
    split at hs
    · rename_i hown
      exact inv_loopStep h hown hs
    · cases hs
  | wake thread => exact inv_wake h hs
  | waker j =>
    simp only [step] at hs
    split at hs
    · rename_i c hj
      exact inv_wakeStep h hj hs
    · cases hs
  | timerArmed deadline =>
    simp only [step] at hs
    split at hs <;> cases hs
    exact ⟨h.threads, h.own, h.outside, h.waiting, h.woke, h.ready⟩
  | pollerWake =>
    cases hs
    exact ⟨h.threads, h.own, h.outside, h.waiting, h.woke, fun _ _ => .inl rfl⟩
  | pollReturns | clock | fire | waitReturns | collect | reenter =>
    simp only [step] at hs
    split at hs
    · rename_i hown
      exact inv_choiceStep h hown hs
    · cases hs

/-- The invariant holds in every reachable state. -/
theorem inv_of_reachable {key : Nat} {s : State} (h : (system key).Reachable s) : Inv key s := by
  refine h.invariant ?_ fun _ _ _ hi hs => inv_step hi hs
  rintro s ⟨nextDeadline, wakePending, rfl⟩
  exact ⟨by simp [new], by simp [new], by simp [new], rfl, by simp [new],
    by simp [new, LoopPc.blocking]⟩

/-- The loop does not sleep through a wake. In every reachable state where the loop's thread is
blocked in `Poller::wait` without a timeout or with one that is not zero, and `ready` is set, a
wake of the poller is pending, or the call that set `ready` is about to make one: it is at
`handle.wake`, or before the load of `waiting`, and neither value that `waiting` can have is its
key. -/
theorem never_sleeps_through_wake {key : Nat} {s : State} (h : (system key).Reachable s)
    {timeout : Option Nat} (hpc : s.pc = .wait timeout) (hblocks : timeout ≠ some 0)
    (hready : s.ready = true) :
    s.wakePending = true ∨
      ∃ j c, s.setter = some j ∧ s.calls[j]? = some c ∧
        (c.pc = .wakePoller ∨ c.pc = .loadWaiting ∧ c.thread ≠ 0 ∧ c.thread ≠ key) := by
  have hi := inv_of_reachable h
  have hb : s.pc.blocking = true := by
    rw [hpc]
    exact decide_eq_true hblocks
  rcases hi.ready hb hready with hw | ⟨j, c, hset, hj, hload | hissue⟩
  · exact .inl hw
  · refine .inr ⟨j, c, hset, hj, .inr ⟨hload, hi.threads c (List.mem_of_getElem? hj), ?_⟩⟩
    have hne := hi.not_suppressed hj (by simp [hload]) hb
    rw [hi.waiting, hpc] at hne
    exact fun heq => hne heq.symm
  · exact .inr ⟨j, c, hset, hj, .inl hissue⟩

/-- The loop blocks without a timeout, and another thread sets `ready`. -/
theorem never_sleeps_through_wake_other_thread :
    ∃ s, (system 5).Reachable s ∧ s.pc = .wait none ∧ s.ready = true ∧
      (s.wakePending = true ∨
        ∃ j c, s.setter = some j ∧ s.calls[j]? = some c ∧
          (c.pc = .wakePoller ∨ c.pc = .loadWaiting ∧ c.thread ≠ 0 ∧ c.thread ≠ 5)) := by
  obtain ⟨s, hr, hp⟩ := Lts.Reachable.exists_of_run (M := system 5) (s := new noDeadline false)
    [.loop, .pollReturns false, .loop, .loop, .clock 3, .loop, .fire 0 none, .loop, .loop, .loop,
      .wake 9, .waker 0]
    (fun s => s.pc = .wait none ∧ s.ready = true) ⟨_, _, rfl⟩ (by decide)
  simp only [decide_eq_true_eq] at hp
  exact ⟨s, hr, hp.1, hp.2, never_sleeps_through_wake hr hp.1 (by simp) hp.2⟩

/-- A timer that the loop fires itself wakes the future. The wake is suppressed, nobody wakes the
poller, and the wait does not block. -/
example : ∃ s, (system 5).Reachable s ∧
    (s.pc = .wait (some 0) ∧ s.ready = true ∧ s.wakePending = false : Bool) = true :=
  Lts.Reachable.exists_of_run (M := system 5) (s := new noDeadline false)
    [.loop, .pollReturns false, .loop, .loop, .clock 3, .loop, .fire 1 none, .wake 5, .waker 0,
      .waker 0, .loop, .loop, .loop, .loop] _ ⟨_, _, rfl⟩ (by decide)

end Nagoya.Reactor.BlockOn
