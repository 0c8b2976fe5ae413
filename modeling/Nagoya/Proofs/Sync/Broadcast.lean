import Nagoya.Proofs.Sync.NotifySlots

/-!
# `Nagoya.Proofs.Sync.Broadcast`: a broadcast reaches exactly the older futures

`History` adds to the `Notify` system what the claim about broadcasts speaks of: how many
broadcasts there were, and how many there had been when each future was made. Nothing in the
system reads it. The section of `notify_waiters` is one step, so "before it took the lock" and
"before it bumped the generation" are the same moment: between the two it touches nothing that
another party can see.

While there are fewer broadcasts than values of `usize`, the generation is their number, and the
generation of a future is its birth. `Inv.queued` is the heart: a queued slot belongs to a future
made after the last broadcast, because a broadcast leaves nobody queued and the section under
the lock checks the generation before it queues.
-/

set_option autoImplicit false

namespace Nagoya.Sync.NotifySystem

open Nagoya.Lib

/-- The system with its broadcasts counted. -/
structure History where
  state : State
  broadcasts : Nat
  /-- For each future, the number of broadcasts before it was made. -/
  born : List Nat

namespace History

section

variable [Target]

/-- One step, recorded. -/
def next (h : History) (act : Action) : Option History :=
  (step h.state act).map fun state =>
    { state := state
      broadcasts := if act = .notifyWaiters then h.broadcasts + 1 else h.broadcasts
      born := if act = .notified then h.born ++ [h.broadcasts] else h.born }

/-- The system of one `Notify`, with its history. -/
def recorded : Lts History Action where
  init h := h = { state := { notify := .new, futures := [], wakes := [] }
                  broadcasts := 0, born := [] }
  next := next

/-- The generation does not come round: there are fewer broadcasts than values of `usize`. -/
def Bounded (_ : History) (_ : Action) (h : History) : Prop := h.broadcasts < usizeModulus

instance (h : History) (act : Action) (h' : History) : Decidable (Bounded h act h') :=
  inferInstanceAs (Decidable (_ < _))

omit [Target] in
/-- The invariant. -/
structure Inv (h : History) (a : AbsQueue) : Prop where
  system : NotifySystem.Inv h.state a
  generation : h.state.notify.generation = h.broadcasts
  length : h.born.length = h.state.futures.length
  born : ∀ (i : Nat) f pc b, h.state.futures[i]? = some (.live f pc) → h.born[i]? = some b →
    f.generation = b ∧ b ≤ h.broadcasts
  queued : ∀ (i : Nat) f pc e, h.state.futures[i]? = some (.live f pc) →
    slot h.state i = some e → e.kind = .queued → f.generation = h.broadcasts
  granted : ∀ (i : Nat) f pc e, h.state.futures[i]? = some (.live f pc) →
    slot h.state i = some e → e.kind = .all → f.generation < h.broadcasts

/-- A new system meets the invariant. -/
theorem inv_init (h : History) (h0 : recorded.init h) : ∃ a, Inv h a := by
  obtain ⟨a, ha⟩ := NotifySystem.inv_init h.state (by rw [h0]; rfl)
  refine ⟨a, ha, by rw [h0]; rfl, by rw [h0]; rfl, ?_, ?_, ?_⟩
  all_goals
    intro i
    rw [h0]
    intros
    simp_all

/-- Every bounded step keeps the invariant. -/
theorem inv_step {h h' : History} {a : AbsQueue} {act : Action} (hi : Inv h a)
    (hs : next h act = some h') (hb : Bounded h act h') : ∃ a', Inv h' a' := by
  unfold next at hs
  obtain ⟨s', hstep, rfl⟩ := Option.map_eq_some_iff.mp hs
  obtain ⟨a', ha'⟩ := (step_spec hi.system hstep).1
  -- Only a broadcast counts the generation up, and the bound keeps it from wrapping.
  have hgen : s'.notify.generation
      = if act = .notifyWaiters then h.broadcasts + 1 else h.broadcasts := by
    rw [step_generation hi.system hstep, hi.generation]
    split
    · rename_i hact
      rw [Bounded, if_pos hact] at hb
      exact usizeAdd_of_lt hb
    · rfl
  have hle : h.broadcasts ≤ if act = .notifyWaiters then h.broadcasts + 1 else h.broadcasts := by
    split <;> omega
  have hlen : (if act = .notified then h.born ++ [h.broadcasts] else h.born).length
      = s'.futures.length := by
    rw [step_length hstep, ← hi.length]
    split <;> simp
  refine ⟨a', ha', hgen, hlen, ?_, ?_, ?_⟩
  · intro i f' pc' b hf hborn
    rcases step_future hi.system hstep hf with ⟨hact, hidx, hfut, -⟩ | ⟨f, pc, hold, hg, -⟩
    · -- The future that `notified` makes is born now.
      rw [if_pos hact] at hborn
      rcases getElem?_append_singleton hborn with hborn | ⟨-, hb'⟩
      · have := (List.getElem?_eq_some_iff.mp hborn).1
        rw [hi.length] at this
        omega
      · subst hb'
        refine ⟨?_, hle⟩
        rw [hfut]
        exact hi.generation
    · -- An older future was born before this step, with the number of broadcasts of then.
      have hborn' : h.born[i]? = some b := by
        by_cases hact : act = .notified
        · rw [if_pos hact] at hborn
          rcases getElem?_append_singleton hborn with hborn | ⟨hidx, -⟩
          · exact hborn
          · have := (List.getElem?_eq_some_iff.mp hold).1
            rw [← hi.length] at this
            omega
        · rwa [if_neg hact] at hborn
      obtain ⟨hfb, hble⟩ := hi.born i f pc b hold hborn'
      exact ⟨hg.trans hfb, hble.trans hle⟩
  · intro i f' pc' e hf hslot hk
    rcases step_future hi.system hstep hf with ⟨-, -, -, hnone⟩ | ⟨f, pc, hold, hg, hcase⟩
    · rw [hnone] at hslot
      cases hslot
    · -- A queued slot was queued before, or the future queued itself in this step. It did so under
      -- the lock, where it saw the generation unchanged.
      rcases hcase with hpass | hnone | ⟨hcur, hact, -⟩
      · rcases hpass with hsame | ⟨waker, -, hgranted, -⟩
        · -- The slot was queued before, so no broadcast came in this step.
          rw [hslot] at hsame
          have hq := hi.queued i f pc e hold hsame.symm hk
          have hact : act ≠ .notifyWaiters := by
            rintro rfl
            obtain ⟨e', he', hk'⟩ := broadcast_slot hi.system hstep hsame.symm
            rw [hslot] at he'
            cases he'
            exact hk' hk
          rw [if_neg hact, hg, hq]
        · rw [hslot] at hgranted
          cases hgranted
          exact absurd hk act.grants_ne
      · rw [hnone] at hslot
        cases hslot
      · rw [hact, if_neg (by simp), hg, ← hcur, hi.generation]
  · intro i f' pc' e hf hslot hk
    rcases step_future hi.system hstep hf with ⟨-, -, -, hnone⟩ | ⟨f, pc, hold, hg, hcase⟩
    · rw [hnone] at hslot
      cases hslot
    · rcases hcase with hpass | hnone | ⟨-, -, waker, hq⟩
      · rcases hpass with hsame | ⟨waker, hwas, hgranted, -⟩
        · rw [hslot] at hsame
          -- A slot that was granted before is that of a future with an older generation.
          rw [hg]
          exact Nat.lt_of_lt_of_le (hi.granted i f pc e hold hsame.symm hk) hle
        · -- A slot that is granted by a broadcast was queued at the generation before it.
          have hq := hi.queued i f pc _ hold hwas rfl
          by_cases hact : act = .notifyWaiters
          · rw [if_pos hact, hg, hq]
            exact Nat.lt_succ_self _
          · rw [hslot] at hgranted
            cases hgranted
            cases act <;> first | exact absurd rfl hact | cases hk
      · rw [hnone] at hslot
        cases hslot
      · rw [hq] at hslot
        cases hslot
        cases hk

/-- The invariant holds along every bounded run. -/
theorem inv_of_reach {h : History} (hr : recorded.Reach Bounded h) : ∃ a, Inv h a :=
  hr.invariant inv_init fun _ _ _ ⟨_, hi⟩ hs hb => inv_step hi hs hb

omit [Target] in
/-- The steps a call has left. -/
def stepsLeft : Pc → Nat
  | .idle => 0
  | .ready _ => 1
  | .lock _ => 2
  | .takePermit _ => 3
  | .loadGeneration _ => 4

/-- A call of an older future does not park: each of its steps leads closer to `Ready`. -/
theorem older_advances {h : History} {a : AbsQueue} (hi : Inv h a) {i : Nat} {f : Notified}
    {pc : Pc} {b : Nat} (hf : h.state.futures[i]? = some (.live f pc)) (hb : h.born[i]? = some b)
    (hold : b < h.broadcasts) (hpc : pc ≠ .idle) :
    ∃ s' f' pc', step h.state (.advance i) = some s' ∧ s'.futures[i]? = some (.live f' pc') ∧
      stepsLeft pc' < stepsLeft pc ∧ (pc' = .idle → ∃ call, pc = .ready call) := by
  -- An older future has another generation than the `Notify`, which is what `loadGeneration` asks.
  have hne : h.state.notify.generation ≠ f.generation := by
    rw [hi.generation, (hi.born i f pc b hf hb).1]
    omega
  obtain ⟨n', f', pc', -, hadv, -⟩ := advance_spec hi.system hf hpc
  have hstep : step h.state (.advance i)
      = some { h.state with notify := n', futures := h.state.futures.set i (.live f' pc') } := by
    simp [step, hf, hadv]
  refine ⟨_, f', pc', hstep, ?_, ?_⟩
  · exact (getElem?_set_of_some hf _ i).trans (if_pos rfl)
  · cases pc with
    | idle => exact absurd rfl hpc
    | loadGeneration call =>
      rw [advance, if_pos hne] at hadv
      cases hadv
      exact ⟨by simp [stepsLeft], by simp⟩
    | takePermit call =>
      -- With or without the permit, the next program point has fewer steps left.
      simp only [advance] at hadv
      split at hadv <;> cases hadv <;> exact ⟨by simp [stepsLeft], by simp⟩
    | lock call =>
      -- The section that would queue the future has seen its generation unchanged.
      rcases (lock_cases hi.system hf hstep).1 with ⟨kind, permit, hc⟩ | hp
      · have hset := congrArg (fun l : List Party => l[i]?) hc.future
        simp only [getElem?_set_of_some hf, if_true] at hset
        cases hset
        exact ⟨by simp [stepsLeft], by simp⟩
      · exact absurd hp.generation.1 hne
    | ready call => cases call <;> cases hadv <;> exact ⟨by simp [stepsLeft], fun _ => ⟨_, rfl⟩⟩

/-- How a future completes: by a single notification from the permit or from its slot, or by a
broadcast that came after it was made. -/
theorem completes_cases {h : History} {a : AbsQueue} (hi : Inv h a) {act : Action} {s' : State}
    (hs : step h.state act = some s') {i : Nat} {f f' : Notified} {pc pc' : Pc} {b : Nat}
    (hf : h.state.futures[i]? = some (.live f pc)) (hf' : s'.futures[i]? = some (.live f' pc'))
    (hb : h.born[i]? = some b) (hd : f.done = false) (hd' : f'.done = true) :
    (f'.reservedOne = true ∧ (h.state.notify.permit = true ∧ s'.notify.permit = false ∨
      h.state.notify.waiters.slotKind f.registration = some .one)) ∨
    (f'.reservedOne = false ∧ b < h.broadcasts ∧
      s'.notify.permit = h.state.notify.permit) := by
  obtain ⟨hgb, hble⟩ := hi.born i f pc b hf hb
  -- A generation that differs is that of an older future.
  have holder : h.state.notify.generation ≠ f.generation → b < h.broadcasts := by
    rw [hi.generation, hgb]
    omega
  have hres := (hi.system.parties i f pc hf).reserved_eq_false hd
  -- A future is completed by a step of its own, in the section or before it.
  by_cases hact : act.actor = some i
  · cases act with
    | notified | notifyOne | notifyWaiters | wake => cases hact
    | call j call =>
      obtain rfl : j = i := Option.some.inj hact
      simp only [step] at hs
      split at hs <;> cases hs
      rename_i f₀ h₀
      rw [hf] at h₀
      cases h₀
      rw [getElem?_set_of_some hf, if_pos rfl] at hf'
      cases hf'
      rw [hd] at hd'
      cases hd'
    | drop j =>
      obtain rfl : j = i := Option.some.inj hact
      simp only [step] at hs
      split at hs
      · split at hs <;> cases hs
        rename_i h₀ _ _ _ _
        rw [getElem?_set_of_some h₀, if_pos rfl] at hf'
        cases hf'
      · cases hs
    | advance j =>
      obtain rfl : j = i := Option.some.inj hact
      by_cases hlock : ∃ call, pc = .lock call
      · obtain ⟨call, rfl⟩ := hlock
        rcases (lock_cases hi.system hf hs).1 with ⟨kind, permit, hc⟩ | hp
        · -- Under the lock, one of the three sources of a notification completes it.
          have hset := congrArg (fun l : List Party => l[j]?) hc.future
          simp only [getElem?_set_of_some hf, if_true, hf'] at hset
          cases hset
          rcases hc.source with ⟨waker, hslot, hkind, rfl⟩ | ⟨hgen, rfl, rfl⟩ | ⟨hperm, rfl, rfl⟩
          · cases kind with
            | queued => exact absurd rfl hkind
            | one =>
              -- A slot that is granted to one waiter was granted by `notify_one` or passed on.
              refine .inl ⟨rfl, .inr ?_⟩
              rw [hi.system.notify.repr.slotKind_eq]
              rw [slot_eq hi.system.notify.repr, attr_of_some Party.token hf] at hslot
              obtain ⟨id, hid, he⟩ := Option.bind_eq_some_iff.mp hslot
              rw [show f.registration = some id from hid]
              simp [AbsQueue.kind, he]
            | all =>
              -- A slot that is granted by a broadcast is that of an older future.
              have := hi.granted j f _ _ hf hslot rfl
              exact .inr ⟨rfl, by omega, hc.permit⟩
          · exact .inr ⟨rfl, holder hgen, hc.permit⟩
          · exact .inl ⟨rfl, .inl ⟨hperm, hc.permit⟩⟩
        · obtain ⟨id, hid⟩ := hp.future
          have hset := congrArg (fun l : List Party => l[j]?) hid
          -- A future that parks is not done.
          simp only [getElem?_set_of_some hf, if_true, hf'] at hset
          cases hset
          have hsame : ({ f with registration := some id } : Notified).done = f.done := rfl
          rw [hsame, hd] at hd'
          cases hd'
      · simp only [step, hf] at hs
        split at hs
        · cases hs
        · rename_i n' f₁ pc₁ hadv
          cases hs
          rw [getElem?_set_of_some hf, if_pos rfl] at hf'
          cases hf'
          cases pc with
          | idle => cases hadv
          | lock call => exact absurd ⟨call, rfl⟩ hlock
          -- Outside the lock, a different generation or the permit completes it.
          | loadGeneration call =>
            simp only [advance] at hadv
            split at hadv
            · rename_i hgen
              cases hadv
              exact .inr ⟨hres, holder hgen, rfl⟩
            · cases hadv
              rw [hd] at hd'
              cases hd'
          | takePermit call =>
            simp only [advance] at hadv
            split at hadv
            · rename_i hperm
              cases hadv
              exact .inl ⟨rfl, .inl ⟨hperm, rfl⟩⟩
            · cases hadv
              rw [hd] at hd'
              cases hd'
          -- A future that is ready was done before.
          | ready call =>
            have hdone : f.done = true := (hi.system.parties j f _ hf).pc
            rw [hd] at hdone
            cases hdone
  · have hsame := (step_others hi.system hs hf hact).1
    -- A step of another party leaves the future as it is.
    rw [hf'] at hsame
    cases hsame
    rw [hd] at hd'
    cases hd'

/-- Broadcasts reach exactly the older futures. In every state of a run with fewer broadcasts
than values of `usize`:

* a call of a future that was made before some broadcast never parks, each of its steps is
  enabled and brings it closer to its return, and it returns `Ready`;
* a future that completes received a single notification, from the permit or in its slot, or
  a broadcast came after it was made; one that a broadcast completes leaves the permit;
* a queued slot belongs to a future of the current generation;
* a broadcast leaves the permit. -/
theorem broadcasts_reach_older {h : History} (hr : recorded.Reach Bounded h) :
    (∀ (i : Nat) f pc b, h.state.futures[i]? = some (.live f pc) → h.born[i]? = some b →
      b < h.broadcasts → pc ≠ .idle →
      ∃ s' f' pc', step h.state (.advance i) = some s' ∧ s'.futures[i]? = some (.live f' pc') ∧
        stepsLeft pc' < stepsLeft pc ∧ (pc' = .idle → ∃ call, pc = .ready call)) ∧
    (∀ act s', step h.state act = some s' → ∀ (i : Nat) f pc f' pc' b,
      h.state.futures[i]? = some (.live f pc) → s'.futures[i]? = some (.live f' pc') →
      h.born[i]? = some b → f.done = false → f'.done = true →
      (f'.reservedOne = true ∧ (h.state.notify.permit = true ∧ s'.notify.permit = false ∨
        h.state.notify.waiters.slotKind f.registration = some .one)) ∨
      (f'.reservedOne = false ∧ b < h.broadcasts ∧
        s'.notify.permit = h.state.notify.permit)) ∧
    (∀ (i : Nat) f pc, h.state.futures[i]? = some (.live f pc) →
      h.state.notify.waiters.slotKind f.registration = some .queued →
      f.generation = h.state.notify.generation) ∧
    (∀ s', step h.state .notifyWaiters = some s' →
      s'.notify.permit = h.state.notify.permit) := by
  obtain ⟨a, hi⟩ := inv_of_reach hr
  have hrepr := hi.system.notify.repr
  refine ⟨?_, ?_, ?_, ?_⟩
  · intro i f pc b hf hb hold hpc
    exact older_advances hi hf hb hold hpc
  · intro act s' hs i f pc f' pc' b hf hf' hb hd hd'
    exact completes_cases hi hs hf hf' hb hd hd'
  · intro i f pc hf hk
    -- The kind of the queue's slot is that of the abstract queue.
    rw [hrepr.slotKind_eq] at hk
    obtain ⟨id, hid, hkind⟩ := Option.bind_eq_some_iff.mp hk
    obtain ⟨e, he, hek⟩ := Option.map_eq_some_iff.mp hkind
    have hslot : slot h.state i = some e := by
      rw [slot_eq hrepr, attr_of_some Party.token hf,
        show Party.token (.live f pc) = some id from hid]
      exact he
    rw [hi.generation]
    exact hi.queued i f pc e hf hslot hek
  · intro s' hs
    obtain ⟨q, hg, -⟩ := Notify.notifyWaiters_queue hrepr
    simp only [step, hg, Option.some.injEq] at hs
    subst hs
    rfl

end

/-- A future is queued, a broadcast comes, and a second future is made. The next poll of the
first future does not park. -/
theorem broadcasts_reach_older_queued :
    ∃ h, (@recorded target64).Reach (@Bounded target64) h ∧ h.born = [0, 1] ∧
      ∃ s' f' pc', @step target64 h.state (.advance 0) = some s' ∧
        s'.futures[0]? = some (.live f' pc') ∧ pc' ≠ .idle := by
  obtain ⟨h, hr, hp⟩ := Lts.Reach.exists_of_runWhere (M := @recorded target64)
    (s := { state := { notify := .new, futures := [], wakes := [] }, broadcasts := 0, born := [] })
    (@Bounded target64)
    [.notified, .call 0 (.poll 7), .advance 0, .advance 0, .advance 0, .notifyWaiters, .notified,
      .call 0 (.poll 7)]
    (fun h => h.born = [0, 1] ∧ h.broadcasts = 1 ∧ h.state.futures[0]? = some
      (.live ⟨0, some 0, false, false⟩ (.lock (.poll 7)))) rfl (by decide)
  simp only [Bool.decide_and, Bool.and_eq_true, decide_eq_true_eq] at hp
  obtain ⟨hborn, hcount, hf⟩ := hp
  refine ⟨h, hr, hborn, ?_⟩
  obtain ⟨s', f', pc', hs, hf', -, hidle⟩ :=
    (@broadcasts_reach_older target64 h hr).1 0 _ _ 0 hf (by simp [hborn]) (by omega) (by simp)
  refine ⟨s', f', pc', hs, hf', fun e => ?_⟩
  obtain ⟨call, hcall⟩ := hidle e
  cases hcall

end History

end Nagoya.Sync.NotifySystem
