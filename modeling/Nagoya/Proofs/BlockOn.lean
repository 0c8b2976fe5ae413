import Nagoya.Lib.Fair
import Nagoya.Lib.Pool
import Nagoya.BlockOn

/-!
# `Nagoya.Proofs.BlockOn`: a wake is followed by a poll

The loop takes `woken` before it parks, and a wake stores to `woken` before it unparks. So a thread
that is parked while `woken` is set has a permit, or a wake is about to unpark it (`Inv.parked`).
The code that a poll runs may take the permit, but the loop swaps `woken` after the poll and does
not park then.

On a fair path a call of the waker goes through three phases. It publishes the wake
(`publishes`). The thread gets a permit, if it is parked without one (`unparks`). The loop comes
round to a poll (`polls_again`).
-/

set_option autoImplicit false

namespace Nagoya.BlockOn

open Nagoya.Lib

/-- A wake is published, and no poll has begun since. -/
def State.pending (build : Build) (s : State) : Bool :=
  if build = .host then s.permit else s.woken

/-- The steps of the loop. A `park` without a permit is not one of them. -/
def Action.ofLoop : Action → Prop
  | .pollReturns _ | .swapWoken | .parkReturns => True
  | _ => False

/-- The invariant of `block_on`. -/
structure Inv (build : Build) (s : State) : Prop where
  /-- Only the loop of `block_on_with_host` has no swap. -/
  swap : build = .host → s.pc ≠ .swapWoken
  /-- Without a `std` there is nothing to park. -/
  park : build = .noStd → s.pc ≠ .park
  parked : build = .std → s.pc = .park → s.woken = true →
    s.permit = true ∨ ∃ j : Nat, s.calls[j]? = some .unpark
  /-- Each poll but the first took a wake. -/
  polls : build ≠ .host → s.polls + s.woken.toNat ≤ s.wakes + 1

/-- The start of `block_on`. -/
theorem inv_new (build : Build) (permit : Bool) : Inv build (new permit) := by
  refine ⟨?_, ?_, ?_, ?_⟩ <;> simp [new]

/-- A return of `park` keeps the invariant. -/
theorem Inv.unparked {build : Build} {s : State} (h : Inv build s) (hpc : s.pc = .park)
    (permit : Bool) : Inv build (afterPark build { s with permit }) := by
  cases build with
  | host => exact ⟨by simp [afterPark], by simp, by simp, by simp⟩
  | noStd => exact absurd hpc (h.park rfl)
  | std =>
    refine ⟨by simp, by simp, ?_, h.polls⟩
    intro _ hpc'
    cases hpc'

/-- A step of a call keeps the invariant. -/
theorem Inv.waker {build : Build} {s s' : State} (h : Inv build s) {j : Nat} {pc : WakePc}
    (hj : s.calls[j]? = some pc) (hs : wakeStep build s j pc = some s') : Inv build s' := by
  cases pc with
  | storeWoken =>
    cases hs
    refine ⟨h.swap, h.park, ?_, ?_⟩
    · -- The call that stored to `woken` is the one that unparks.
      rintro rfl _ _
      refine .inr ⟨j, ?_⟩
      have hlt : j < s.calls.length := (List.getElem?_eq_some_iff.mp hj).1
      simp [List.getElem?_set_self hlt]
    · intro hb
      have hp := h.polls hb
      show s.polls + 1 ≤ s.wakes + 1 + 1
      omega
  | unpark =>
    cases hs
    refine ⟨h.swap, h.park, fun _ _ _ => .inl rfl, ?_⟩
    intro hb
    simpa [hb] using h.polls hb
  | done => cases hs

/-- Every step keeps the invariant. -/
theorem inv_step {build : Build} {s s' : State} {act : Action} (h : Inv build s)
    (hs : step build s act = some s') : Inv build s' := by
  cases act with
  | pollReturns ready =>
    simp only [step, Option.ite_none_right_eq_some, Option.some.injEq] at hs
    obtain ⟨hpc, rfl⟩ := hs
    cases build <;> cases ready <;>
      exact ⟨by simp [Build.wait], by simp [Build.wait], by simp [Build.wait], h.polls⟩
  | swapWoken =>
    simp only [step, Option.ite_none_right_eq_some] at hs
    obtain ⟨hpc, hs⟩ := hs
    split at hs <;> rename_i hw <;> cases hs
    · refine ⟨by simp, by simp, by simp, ?_⟩
      intro hb
      have hp := h.polls hb
      rw [hw] at hp
      exact hp
    · refine ⟨fun hb => absurd hpc (h.swap hb), ?_, ?_, h.polls⟩
      · rintro rfl
        simp
      · -- `woken` has just been read as unset.
        intro _ _ hw'
        exact absurd hw' hw
  | parkReturns =>
    simp only [step, Option.ite_none_right_eq_some, Option.some.injEq] at hs
    obtain ⟨⟨hpc, -⟩, rfl⟩ := hs
    exact h.unparked hpc false
  | spurious =>
    simp only [step, Option.ite_none_right_eq_some, Option.some.injEq] at hs
    obtain ⟨hpc, rfl⟩ := hs
    exact h.unparked hpc s.permit
  | wake =>
    cases hs
    -- The new call comes after the others, so the one that is to release the park keeps its number.
    refine ⟨h.swap, h.park, ?_, h.polls⟩
    intro hb hpc hw
    refine (h.parked hb hpc hw).imp id ?_
    rintro ⟨j, hj⟩
    exact ⟨j, by rw [List.getElem?_append_left (List.getElem?_eq_some_iff.mp hj).1, hj]⟩
  | waker j =>
    simp only [step] at hs
    split at hs
    · rename_i pc hj
      exact h.waker hj hs
    · cases hs
  | unpark =>
    cases hs
    exact ⟨h.swap, h.park, fun _ _ _ => .inl rfl, h.polls⟩
  | takePermit =>
    simp only [step, Option.ite_none_right_eq_some, Option.some.injEq] at hs
    obtain ⟨⟨hpc, -⟩, rfl⟩ := hs
    refine ⟨h.swap, h.park, ?_, h.polls⟩
    intro _ hpc'
    exact absurd (hpc.symm.trans hpc') (by simp)

/-- The invariant holds in every state of every run. -/
theorem inv_of_reachable {build : Build} {s : State} (hr : (system build).Reachable s) :
    Inv build s := by
  refine hr.invariant (P := Inv build) ?_ ?_
  · rintro s ⟨permit, rfl⟩
    exact inv_new build permit
  · intro s act s' h hs
    exact inv_step h hs

/-- Apart from the first, every poll of `block_on` takes a wake: there are no more polls than wakes
that have been stored, and one. -/
theorem polls_le_wakes {build : Build} {s : State} (hr : (system build).Reachable s)
    (hb : build ≠ .host) : s.polls ≤ s.wakes + 1 :=
  Nat.le_trans (Nat.le_add_right _ _) ((inv_of_reachable hr).polls hb)

/-- Two wakes before the loop looks are one poll. -/
theorem two_wakes_one_poll :
    ∃ s, (system .std).Reachable s ∧ s.polls ≤ s.wakes + 1 ∧ s.polls = 2 ∧ s.wakes = 2 := by
  obtain ⟨s, hr, hs⟩ := Lts.Reachable.exists_of_run (M := system .std)
    [.wake, .wake, .waker 0, .waker 1, .pollReturns false, .swapWoken]
    (fun s => decide (s.polls = 2 ∧ s.wakes = 2)) ⟨false, rfl⟩ (by decide)
  exact ⟨s, hr, polls_le_wakes hr (by decide), of_decide_eq_true hs⟩

/-! ### A wake leads to a poll -/

/-- The future has been polled again, or is done. -/
def PollsAgain (k : Nat) (s : State) : Prop := k < s.polls ∨ s.pc = .returned

/-- A wake is pending after `k` polls, and the loop can go on. -/
structure Due (build : Build) (k : Nat) (s : State) : Prop where
  pending : s.pending build = true
  polls : s.polls = k
  parked : s.pc = .park → s.permit = true

/-- A wake is pending after `k` polls, and the parked thread waits for the call `j` to unpark it. -/
structure Blocked (build : Build) (k j : Nat) (s : State) : Prop where
  std : build = .std
  woken : s.woken = true
  polls : s.polls = k
  parked : s.pc = .park
  permit : s.permit = false
  call : s.calls[j]? = some .unpark

/-- A pending wake is due, or its call is about to unpark the thread. -/
theorem due_or_blocked {build : Build} {k : Nat} {s : State} (h : Inv build s)
    (hp : s.pending build = true) (hk : s.polls = k) :
    Due build k s ∨ ∃ j, Blocked build k j s := by
  by_cases hdue : s.pc = .park → s.permit = true
  · exact .inl ⟨hp, hk, hdue⟩
  · rw [Classical.not_imp, Bool.not_eq_true] at hdue
    obtain ⟨hpc, hpermit⟩ := hdue
    cases build with
    | host => exact absurd hp (by simp [State.pending, hpermit])
    | noStd => exact absurd hpc (h.park rfl)
    | std =>
      have hw : s.woken = true := by simpa [State.pending] using hp
      rcases h.parked rfl hpc hw with h | ⟨j, hj⟩
      · rw [hpermit] at h
        cases h
      · exact .inr ⟨j, rfl, hw, hk, hpc, hpermit, hj⟩

/-- How far the loop is from its next poll. -/
def LoopPc.rank : LoopPc → Nat
  | .poll => 2
  | .park => 1
  | _ => 0

/-- A thread whose wake is due comes back from `park` to the swap, or straight to the poll. -/
theorem Due.unparked {build : Build} {k : Nat} {s : State} (hi : Inv build s)
    (h : Due build k s) (hpc : s.pc = .park) (permit : Bool) :
    PollsAgain k (afterPark build { s with permit }) ∨
      Due build k (afterPark build { s with permit }) ∧
        (afterPark build { s with permit }).pc.rank < s.pc.rank := by
  cases build with
  | host =>
    left
    left
    show k < s.polls + 1
    have := h.polls
    omega
  | noStd => exact absurd hpc (hi.park rfl)
  | std =>
    right
    refine ⟨⟨h.pending, h.polls, ?_⟩, ?_⟩
    · intro hpc'
      cases hpc'
    · rw [hpc]
      exact Nat.zero_lt_one

/-- While a wake is due, every step of the loop brings the poll closer, and no step of anyone else
puts it off. -/
theorem Due.step {build : Build} {k : Nat} {s s' : State} {act : Action} (hi : Inv build s)
    (h : Due build k s) (hs : step build s act = some s') :
    PollsAgain k s' ∨
      Due build k s' ∧ s'.pc.rank ≤ s.pc.rank ∧ (act.ofLoop → s'.pc.rank < s.pc.rank) := by
  cases act with
  | pollReturns ready =>
    simp only [BlockOn.step, Option.ite_none_right_eq_some, Option.some.injEq] at hs
    obtain ⟨hpc, rfl⟩ := hs
    cases ready with
    | true => exact .inl (.inr rfl)
    | false =>
      have hrank : build.wait.rank < s.pc.rank := by
        rw [hpc]
        cases build <;> decide
      refine .inr ⟨⟨h.pending, h.polls, ?_⟩, hrank.le, fun _ => hrank⟩
      -- Only `block_on_with_host` parks at once, and there the pending wake is the permit.
      cases build with
      | host => exact fun _ => h.pending
      | noStd => exact fun hpc' => by cases hpc'
      | std => exact fun hpc' => by cases hpc'
  | swapWoken =>
    simp only [BlockOn.step, Option.ite_none_right_eq_some] at hs
    obtain ⟨hpc, hs⟩ := hs
    have hb : build ≠ .host := fun hb => hi.swap hb hpc
    have hw : s.woken = true := by simpa [State.pending, hb] using h.pending
    rw [if_pos hw] at hs
    cases hs
    left
    left
    show k < s.polls + 1
    have := h.polls
    omega
  | parkReturns =>
    simp only [BlockOn.step, Option.ite_none_right_eq_some, Option.some.injEq] at hs
    obtain ⟨⟨hpc, -⟩, rfl⟩ := hs
    exact (h.unparked hi hpc false).imp id fun ⟨hd, hr⟩ => ⟨hd, hr.le, fun _ => hr⟩
  | spurious =>
    simp only [BlockOn.step, Option.ite_none_right_eq_some, Option.some.injEq] at hs
    obtain ⟨hpc, rfl⟩ := hs
    exact (h.unparked hi hpc s.permit).imp id fun ⟨hd, hr⟩ => ⟨hd, hr.le, fun _ => hr⟩
  | wake =>
    cases hs
    exact .inr ⟨⟨h.pending, h.polls, h.parked⟩, Nat.le_refl _, False.elim⟩
  | waker j =>
    simp only [BlockOn.step] at hs
    split at hs
    · rename_i pc hj
      -- Each half of the wake leaves its own mark: the store is `woken`, the unpark is the permit.
      cases pc with
      | storeWoken =>
        cases hs
        refine .inr ⟨⟨?_, h.polls, h.parked⟩, Nat.le_refl _, False.elim⟩
        cases build
        · rfl
        · rfl
        · exact h.pending
      | unpark =>
        cases hs
        refine .inr ⟨⟨?_, h.polls, fun _ => rfl⟩, Nat.le_refl _, False.elim⟩
        cases build
        · exact h.pending
        · exact h.pending
        · rfl
      | done => cases hs
    · cases hs
  | unpark =>
    cases hs
    refine .inr ⟨⟨?_, h.polls, fun _ => rfl⟩, Nat.le_refl _, False.elim⟩
    cases build
    · exact h.pending
    · exact h.pending
    · rfl
  | takePermit =>
    simp only [BlockOn.step, Option.ite_none_right_eq_some, Option.some.injEq] at hs
    obtain ⟨⟨hpc, hb⟩, rfl⟩ := hs
    -- The loop swaps `woken` before it parks, and does not need the permit.
    refine .inr ⟨⟨?_, h.polls, ?_⟩, Nat.le_refl _, False.elim⟩
    · simpa [State.pending, hb] using h.pending
    · intro hpc'
      exact absurd (hpc.symm.trans hpc') (by simp)

/-- The loop can go on when a wake is due. -/
theorem Due.enabled {build : Build} {k : Nat} {s : State} (h : Due build k s) :
    PollsAgain k s ∨ (system build).Enabled Action.ofLoop s := by
  cases hpc : s.pc with
  | poll => exact .inr ⟨.pollReturns true, trivial, by simp [system, BlockOn.step, hpc]⟩
  | swapWoken =>
    refine .inr ⟨.swapWoken, trivial, ?_⟩
    cases hw : s.woken <;> simp [system, BlockOn.step, hpc, hw]
  | park =>
    have hpermit := h.parked hpc
    exact .inr ⟨.parkReturns, trivial, by simp [system, BlockOn.step, hpc, hpermit]⟩
  | returned => exact .inl (.inr hpc)

/-- When a wake is due, the loop polls. -/
theorem polls_again {build : Build} {ρ : (system build).Path} (hloop : ρ.WeakFair Action.ofLoop)
    (k : Nat) : ρ.LeadsTo (Due build k) (PollsAgain k) := by
  refine Lts.Path.leadsTo_of_rank (fun s => s.pc.rank) hloop ?_ ?_ ?_
  · intro s act s' hr hd hs
    exact (hd.step (inv_of_reachable hr) hs).imp id fun ⟨hd', hle, _⟩ => ⟨hd', hle⟩
  · intro s act s' hr hd hact hs
    exact (hd.step (inv_of_reachable hr) hs).imp id fun ⟨_, _, hlt⟩ => hlt hact
  · intro s _ hd
    exact hd.enabled

/-- A call stands still until its own step. -/
theorem call_kept {build : Build} {s s' : State} {act : Action} {j : Nat} {pc : WakePc}
    (hs : step build s act = some s') (hj : s.calls[j]? = some pc) (hact : act ≠ .waker j) :
    s'.calls[j]? = some pc := by
  have hafter : ∀ s : State, (afterPark build s).calls = s.calls := by
    intro s
    cases build <;> rfl
  cases act with
  | wake =>
    cases hs
    show (s.calls ++ [build.wakePc])[j]? = some pc
    rw [List.getElem?_append_left (List.getElem?_eq_some_iff.mp hj).1, hj]
  | waker i =>
    have hij : i ≠ j := fun h => hact (by rw [h])
    simp only [step] at hs
    split at hs
    · rename_i pc' _
      cases pc' <;> cases hs <;> exact (List.getElem?_set_ne hij).trans hj
    · cases hs
  | swapWoken =>
    simp only [step, Option.ite_none_right_eq_some] at hs
    obtain ⟨-, hs⟩ := hs
    split at hs <;> cases hs <;> exact hj
  | parkReturns | spurious =>
    simp only [step, Option.ite_none_right_eq_some, Option.some.injEq] at hs
    obtain ⟨-, rfl⟩ := hs
    rw [hafter]
    exact hj
  | pollReturns _ | takePermit =>
    simp only [step, Option.ite_none_right_eq_some, Option.some.injEq] at hs
    obtain ⟨-, rfl⟩ := hs
    exact hj
  | unpark =>
    cases hs
    exact hj

/-- The polls are never taken back. -/
theorem polls_mono {build : Build} {s s' : State} {act : Action}
    (hs : step build s act = some s') : s.polls ≤ s'.polls := by
  have hafter : ∀ s : State, s.polls ≤ (afterPark build s).polls := by
    intro s
    cases build <;> simp [afterPark]
  cases act with
  | waker i =>
    simp only [step] at hs
    split at hs
    · rename_i pc' _
      cases pc' <;> cases hs <;> exact Nat.le_refl _
    · cases hs
  | swapWoken =>
    simp only [step, Option.ite_none_right_eq_some] at hs
    obtain ⟨-, hs⟩ := hs
    split at hs <;> cases hs
    · exact Nat.le_succ _
    · exact Nat.le_refl _
  | parkReturns =>
    simp only [step, Option.ite_none_right_eq_some, Option.some.injEq] at hs
    obtain ⟨-, rfl⟩ := hs
    exact hafter { s with permit := false }
  | spurious =>
    simp only [step, Option.ite_none_right_eq_some, Option.some.injEq] at hs
    obtain ⟨-, rfl⟩ := hs
    exact hafter s
  | pollReturns _ | takePermit =>
    simp only [step, Option.ite_none_right_eq_some, Option.some.injEq] at hs
    obtain ⟨-, rfl⟩ := hs
    exact Nat.le_refl _
  | wake | unpark =>
    cases hs
    exact Nat.le_refl _

/-- The thread that a call is about to unpark stays parked until it is unparked, or comes back by
itself. -/
theorem Blocked.step {build : Build} {k j : Nat} {s s' : State} {act : Action}
    (h : Blocked build k j s) (hs : step build s act = some s') :
    Due build k s' ∨ Blocked build k j s' ∧ act ≠ .waker j := by
  obtain ⟨rfl, hw, hk, hpc, hpermit, hj⟩ := h
  cases act with
  | waker i =>
    by_cases hij : i = j
    · -- The call that had stored `woken` before the park unparks now.
      subst hij
      simp only [BlockOn.step, hj] at hs
      cases hs
      exact .inl ⟨hw, hk, fun _ => rfl⟩
    · have hj' := call_kept hs hj (by simpa using hij)
      simp only [BlockOn.step] at hs
      split at hs
      · rename_i pc' _
        cases pc' with
        | storeWoken =>
          cases hs
          exact .inr ⟨⟨rfl, rfl, hk, hpc, hpermit, hj'⟩, by simpa using hij⟩
        | unpark =>
          cases hs
          exact .inl ⟨hw, hk, fun _ => rfl⟩
        | done => cases hs
      · cases hs
  | wake =>
    have hj' := call_kept hs hj (by simp)
    cases hs
    exact .inr ⟨⟨rfl, hw, hk, hpc, hpermit, hj'⟩, by simp⟩
  | unpark =>
    cases hs
    exact .inl ⟨hw, hk, fun _ => rfl⟩
  | spurious =>
    simp only [BlockOn.step, hpc, if_true] at hs
    cases hs
    exact .inl ⟨hw, hk, fun hpc' => by cases hpc'⟩
  -- The loop is parked without a permit, so nothing else of it can happen.
  | parkReturns => simp [BlockOn.step, hpermit] at hs
  | pollReturns _ => simp [BlockOn.step, hpc] at hs
  | swapWoken => simp [BlockOn.step, hpc] at hs
  | takePermit => simp [BlockOn.step, hpc] at hs

/-- A call that is about to unpark the thread does so. -/
theorem unparks {build : Build} {ρ : (system build).Path} (k j : Nat)
    (hcall : ρ.WeakFair (· = .waker j)) : ρ.LeadsTo (Blocked build k j) (Due build k) := by
  refine Lts.Path.leadsTo_of_step hcall ?_ ?_ ?_
  · intro s act s' _ hb hs
    exact (hb.step hs).imp id And.left
  · intro s act s' _ hb hact hs
    exact (hb.step hs).resolve_right fun h => h.2 hact
  · intro s _ hb
    refine .inr ⟨.waker j, rfl, ?_⟩
    show (BlockOn.step build s (.waker j)).isSome = true
    simp only [BlockOn.step, hb.call]
    rfl

/-- A pending wake is followed by a poll. -/
theorem pending_leadsTo {build : Build} {ρ : (system build).Path}
    (hloop : ρ.WeakFair Action.ofLoop) (hcalls : ∀ j, ρ.WeakFair (· = .waker j)) (k : Nat) :
    ρ.LeadsTo (fun s => s.pending build = true ∧ s.polls = k) (PollsAgain k) := by
  refine Lts.Path.LeadsTo.cases (fun s hr h => due_or_blocked (inv_of_reachable hr) h.1 h.2)
    (polls_again hloop k) ?_
  refine Lts.Path.LeadsTo.exists fun j => ?_
  exact (unparks k j (hcalls j)).trans (polls_again hloop k)

/-- The first step of a call publishes its wake. -/
theorem publish_step {build : Build} {s s' : State} {j : Nat}
    (hj : s.calls[j]? = some build.wakePc) (hs : step build s (.waker j) = some s') :
    s'.pending build = true ∧ s'.polls = s.polls := by
  simp only [step, hj] at hs
  cases build <;> cases hs <;> exact ⟨rfl, rfl⟩

/-- A call of the waker publishes its wake, unless the future is polled before. -/
theorem publishes {build : Build} {ρ : (system build).Path} (k j : Nat)
    (hcall : ρ.WeakFair (· = .waker j)) :
    ρ.LeadsTo (fun s => s.calls[j]? = some build.wakePc ∧ s.polls = k)
      (fun s => (s.pending build = true ∧ s.polls = k) ∨ k < s.polls) := by
  refine Lts.Path.leadsTo_of_step hcall ?_ ?_ ?_
  · rintro s act s' _ ⟨hj, hk⟩ hs
    by_cases hact : act = .waker j
    · subst hact
      obtain ⟨hp, hk'⟩ := publish_step hj hs
      exact .inl (.inl ⟨hp, hk'.trans hk⟩)
    · have hle := polls_mono hs
      rcases Nat.lt_or_eq_of_le hle with hlt | heq
      · exact .inl (.inr (hk ▸ hlt))
      · exact .inr ⟨call_kept hs hj hact, heq.symm.trans hk⟩
  · rintro s act s' _ ⟨hj, hk⟩ rfl hs
    obtain ⟨hp, hk'⟩ := publish_step hj hs
    exact .inl ⟨hp, hk'.trans hk⟩
  · rintro s _ ⟨hj, -⟩
    refine .inr ⟨.waker j, rfl, ?_⟩
    show (step build s (.waker j)).isSome = true
    simp only [step, hj]
    cases build <;> rfl

/-- Every call of the waker is followed by a poll of the future, or the future is done. The loop
takes its steps, a poll returns, and a call is carried out. Nothing is assumed of spurious
returns, of other wakes and unparks, or of what the code of the poll does with the permit. -/
theorem wake_leadsTo_poll {build : Build} {ρ : (system build).Path}
    (hloop : ρ.WeakFair Action.ofLoop) (hcalls : ∀ j, ρ.WeakFair (· = .waker j)) (k j : Nat) :
    ρ.LeadsTo (fun s => s.calls[j]? = some build.wakePc ∧ s.polls = k) (PollsAgain k) := by
  refine (publishes k j (hcalls j)).trans ?_
  refine Lts.Path.LeadsTo.cases (fun _ _ h => h) (pending_leadsTo hloop hcalls k) ?_
  exact Lts.Path.leadsTo_of_imp fun _ _ h => .inl h

/-- The thread is parked when the wake comes. -/
def parkedRun : List Action :=
  [.pollReturns false, .swapWoken, .wake, .waker 0, .waker 0, .parkReturns, .swapWoken,
    .pollReturns true]

/-- The thread is parked when the wake comes, and then the future is polled. -/
theorem wake_leadsTo_poll_parked :
    ∃ (ρ : (system .std).Path) (n m : Nat), n ≤ m ∧ (ρ.state n).pc = .park ∧
      (ρ.state n).calls[0]? = some .storeWoken ∧ PollsAgain 1 (ρ.state m) := by
  have hrun : (system .std).run (new false) parkedRun =
      some { new false with pc := .returned, calls := [.done], polls := 2, wakes := 1 } := by
    decide
  have hstate : (system .std).run (new false) (parkedRun.take 3) =
      some { new false with pc := .park, calls := [.storeWoken] } := by decide
  let ρ : (system .std).Path := Lts.Path.ofRun parkedRun ⟨false, rfl⟩ hrun
  have hn : ρ.state 3 = { new false with pc := .park, calls := [.storeWoken] } :=
    Lts.Path.state_ofRun hstate
  have hloop : ρ.WeakFair Action.ofLoop := by
    refine Lts.Path.fair_ofRun ?_
    rintro ⟨act, hact, hs⟩
    cases act <;> first | exact hact | simp [system, step] at hs
  have hcalls : ∀ j, ρ.WeakFair (· = .waker j) := by
    intro j
    refine Lts.Path.fair_ofRun ?_
    rintro ⟨act, rfl, hs⟩
    cases j <;> simp [system, step, wakeStep] at hs
  obtain ⟨m, hm, hp⟩ := wake_leadsTo_poll hloop hcalls 1 0 3 (by rw [hn]; exact ⟨rfl, rfl⟩)
  exact ⟨ρ, 3, m, hm, by rw [hn], by rw [hn]; rfl, hp⟩

end Nagoya.BlockOn
