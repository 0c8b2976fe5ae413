import Nagoya.Lib.Fair

/-!
# `Nagoya.Lib.Edge`: a task that waits for an edge

A task looks at a resource when a flag says that it is ready, and otherwise parks its waker. An
edge of the resource queues an event. A poller collects the event, and its dispatch sets the flag
and takes the waker, which is then woken. There may be other events and other wakers in front.

`EdgeWait` is what has to be shown of a system with such a task, one step at a time: as long as `P`
lasts, the flag is set, or an event that will set it is on its way. Once the flag is set no step
takes the task further away from its look at the resource. Then `P` leads to `Q` on every path that
is fair to the task, to the poller, to the dispatch and to the wakes (`EdgeWait.leadsTo`).
-/

set_option autoImplicit false

namespace Nagoya.Lib

/-- When another entry is taken out of a queue, an entry moves up or stays. It moves up when the
entry was in front of it. -/
theorem getElem?_eraseIdx_of_ne {α : Type} {l : List α} {i j : Nat} {a : α} (h : l[i]? = some a)
    (hij : j ≠ i) : ∃ k, (l.eraseIdx j)[k]? = some a ∧ k ≤ i ∧ (j < i → k < i) := by
  rcases Nat.lt_or_gt_of_ne hij with hlt | hgt
  · refine ⟨i - 1, ?_, by omega, by omega⟩
    rw [List.getElem?_eraseIdx_of_ge (by omega), Nat.sub_add_cancel (by omega)]
    exact h
  · exact ⟨i, by rw [List.getElem?_eraseIdx_of_lt hgt, h], Nat.le_refl i, by omega⟩

namespace Lts

variable {σ α : Type}

/-- The parts of a system with a task that waits for an edge, and its parties. -/
structure Edge (σ α : Type) where
  /-- The resource has an event that was not collected. -/
  queued : σ → Prop
  /-- An event for the task is at a place of the collected ones. -/
  event : Nat → σ → Prop
  /-- The flag is set, or the task has taken it and still looks. -/
  ready : σ → Prop
  /-- How far the task is from its look at the resource. -/
  place : σ → Nat
  /-- The distance of a task that sleeps. -/
  bed : Nat
  /-- The task's waker is at a place of those that are to be woken. -/
  waking : Nat → σ → Prop
  task : α → Prop
  collect : α → Prop
  dispatch : α → Prop
  wake : α → Prop

/-- The path is fair to the parties of such a system. -/
structure Edge.Fair {M : Lts σ α} (w : Edge σ α) (ρ : M.Path) : Prop where
  task : ρ.WeakFair w.task
  collect : ρ.WeakFair w.collect
  dispatch : ρ.WeakFair w.dispatch
  wake : ρ.WeakFair w.wake

/-- What the steps of such a system do while `P` lasts. -/
structure EdgeWait (M : Lts σ α) (w : Edge σ α) (P Q : σ → Prop) : Prop where
  lasts : ∀ s a s', M.Reachable s → P s → M.next s a = some s' → Q s' ∨ P s'
  cover : ∀ s, M.Reachable s → P s → w.ready s ∨ (∃ i, w.event i s) ∨ w.queued s
  queued_keep : ∀ s a s', M.Reachable s → P s → w.queued s → M.next s a = some s' →
    Q s' ∨ (∃ i, w.event i s') ∨ w.queued s' ∧ ¬w.collect a
  queued_enabled : ∀ s, M.Reachable s → P s → w.queued s → M.Enabled w.collect s
  event_keep : ∀ i s a s', M.Reachable s → P s → w.event i s → M.next s a = some s' →
    Q s' ∨ w.ready s' ∨ ∃ j, w.event j s' ∧ j ≤ i ∧ (w.dispatch a → j < i)
  event_enabled : ∀ i s, M.Reachable s → P s → w.event i s → M.Enabled w.dispatch s
  ready_keep : ∀ s a s', M.Reachable s → P s → w.ready s → M.next s a = some s' →
    Q s' ∨ w.ready s' ∧ w.place s' ≤ w.place s ∧
      (w.task a → w.place s ≠ w.bed → w.place s' < w.place s)
  ready_enabled : ∀ s, M.Reachable s → P s → w.ready s → w.place s ≠ w.bed → M.Enabled w.task s
  asleep : ∀ s, M.Reachable s → P s → w.ready s → w.place s = w.bed → ∃ i, w.waking i s
  waking_keep : ∀ i s a s', M.Reachable s → P s → w.ready s → w.place s = w.bed → w.waking i s →
    M.next s a = some s' →
    Q s' ∨ w.place s' < w.bed ∨ ∃ j, w.waking j s' ∧ j ≤ i ∧ (w.wake a → j < i)
  waking_enabled : ∀ i s, M.Reachable s → P s → w.ready s → w.place s = w.bed → w.waking i s →
    M.Enabled w.wake s

namespace EdgeWait

open Lts.Path

variable {M : Lts σ α} {w : Edge σ α} {P Q : σ → Prop} {ρ : M.Path}

/-- A task that sleeps is woken. -/
theorem wakes (h : EdgeWait M w P Q) (fair : ρ.WeakFair w.wake) :
    ρ.LeadsTo (fun s => P s ∧ w.ready s ∧ w.place s = w.bed)
      (fun s => Q s ∨ P s ∧ w.ready s ∧ w.place s < w.bed) := by
  have hstep : ∀ i s a s', M.Reachable s →
      (P s ∧ w.ready s ∧ w.place s = w.bed) ∧ w.waking i s → M.next s a = some s' →
      (Q s' ∨ P s' ∧ w.ready s' ∧ w.place s' < w.bed) ∨
        ∃ j, ((P s' ∧ w.ready s' ∧ w.place s' = w.bed) ∧ w.waking j s') ∧ j ≤ i ∧
          (w.wake a → j < i) := by
    rintro i s a s' hr ⟨⟨hP, hready, hbed⟩, hi⟩ hn
    -- A step ends the wait, moves the task, or leaves it with a wake that is no further away.
    rcases h.lasts s a s' hr hP hn with hq | hP'
    · exact .inl (.inl hq)
    · rcases h.ready_keep s a s' hr hP hready hn with hq | ⟨hready', hle, -⟩
      · exact .inl (.inl hq)
      · rcases Nat.lt_or_eq_of_le (hbed ▸ hle) with hlt | heq
        · exact .inl (.inr ⟨hP', hready', hlt⟩)
        · rcases h.waking_keep i s a s' hr hP hready hbed hi hn with hq | hlt | ⟨j, hj, hle, hlt⟩
          · exact .inl (.inl hq)
          · exact .inl (.inr ⟨hP', hready', hlt⟩)
          · exact .inr ⟨j, ⟨⟨hP', hready', heq⟩, hj⟩, hle, hlt⟩
  have hplace : ∀ i, ρ.LeadsTo (fun s => (P s ∧ w.ready s ∧ w.place s = w.bed) ∧ w.waking i s)
      (fun s => Q s ∨ P s ∧ w.ready s ∧ w.place s < w.bed) :=
    leadsTo_of_place fair hstep fun i s hr hs =>
      .inr (h.waking_enabled i s hr hs.1.1 hs.1.2.1 hs.1.2.2 hs.2)
  intro n hs
  obtain ⟨i, hi⟩ := h.asleep _ (ρ.reachable n) hs.1 hs.2.1 hs.2.2
  exact hplace i n ⟨hs, hi⟩

/-- A task that has readiness looks at the resource. -/
theorem looks (h : EdgeWait M w P Q) (fair : w.Fair ρ) :
    ρ.LeadsTo (fun s => P s ∧ w.ready s) Q := by
  -- The induction is on the distance. Each distance is left by a step of the task, or by a wake.
  suffices hd : ∀ d, ρ.LeadsTo (fun s => P s ∧ w.ready s ∧ w.place s = d) Q from
    fun n ⟨hP, hready⟩ => hd _ n ⟨hP, hready, rfl⟩
  intro d
  induction d using Nat.strongRecOn with
  | ind d ih =>
    have hcloser : ρ.LeadsTo (fun s => P s ∧ w.ready s ∧ w.place s = d)
        (fun s => Q s ∨ P s ∧ w.ready s ∧ w.place s < d) := by
      -- At its bed the task waits for a wake. Away from it the task takes a step itself.
      by_cases hbed : d = w.bed
      · subst hbed
        exact h.wakes fair.wake
      · have hstep : ∀ s a s', M.Reachable s → P s ∧ w.ready s ∧ w.place s = d →
            M.next s a = some s' →
            (Q s' ∨ P s' ∧ w.ready s' ∧ w.place s' < d) ∨
              (P s' ∧ w.ready s' ∧ w.place s' = d) ∧ ¬w.task a := by
          rintro s a s' hr ⟨hP, hready, rfl⟩ hn
          rcases h.lasts s a s' hr hP hn with hq | hP'
          · exact .inl (.inl hq)
          · rcases h.ready_keep s a s' hr hP hready hn with hq | ⟨hready', hle, hlt⟩
            · exact .inl (.inl hq)
            · rcases Nat.lt_or_eq_of_le hle with hlt' | heq
              · exact .inl (.inr ⟨hP', hready', hlt'⟩)
              · refine .inr ⟨⟨hP', hready', heq⟩, fun ha => ?_⟩
                exact absurd heq (Nat.ne_of_lt (hlt ha hbed))
        refine leadsTo_of_step fair.task ?_ ?_ ?_
        · exact fun s a s' hr hs hn => (hstep s a s' hr hs hn).imp id And.left
        · exact fun s a s' hr hs ha hn => (hstep s a s' hr hs hn).resolve_right fun h => h.2 ha
        · rintro s hr ⟨hP, hready, rfl⟩
          exact .inr (h.ready_enabled s hr hP hready hbed)
    -- The distance has got smaller, and the induction goes on from there.
    intro n hs
    obtain ⟨m, hm, hq | ⟨hP, hready, hlt⟩⟩ := hcloser n hs
    · exact ⟨m, hm, hq⟩
    · obtain ⟨k, hk, hq⟩ := ih _ hlt m ⟨hP, hready, rfl⟩
      exact ⟨k, Nat.le_trans hm hk, hq⟩

/-- An event that was collected is dispatched, and the task looks. -/
theorem dispatches (h : EdgeWait M w P Q) (fair : w.Fair ρ) (i : Nat) :
    ρ.LeadsTo (fun s => P s ∧ w.event i s) Q := by
  have hready : ∀ i, ρ.LeadsTo (fun s => P s ∧ w.event i s) (fun s => Q s ∨ P s ∧ w.ready s) := by
    refine leadsTo_of_place (P := fun i s => P s ∧ w.event i s) fair.dispatch ?_ ?_
    · rintro i s a s' hr ⟨hP, he⟩ hn
      rcases h.lasts s a s' hr hP hn with hq | hP'
      · exact .inl (.inl hq)
      · rcases h.event_keep i s a s' hr hP he hn with hq | hready | ⟨j, hej, hle, hlt⟩
        · exact .inl (.inl hq)
        · exact .inl (.inr ⟨hP', hready⟩)
        · exact .inr ⟨j, ⟨hP', hej⟩, hle, hlt⟩
    · rintro i s hr ⟨hP, he⟩
      exact .inr (h.event_enabled i s hr hP he)
  exact (hready i).trans (LeadsTo.cases (fun _ _ h => h) (leadsTo_of_imp fun _ _ h => h)
    (h.looks fair))

/-- A task that waits for an edge gets what it waits for. -/
theorem leadsTo (h : EdgeWait M w P Q) (fair : w.Fair ρ) : ρ.LeadsTo P Q := by
  have hdispatches : ρ.LeadsTo (fun s => ∃ i, P s ∧ w.event i s) Q :=
    LeadsTo.exists (h.dispatches fair)
  -- The reactor is the one that takes the event out of the queue.
  have hstep : ∀ s a s', M.Reachable s → P s ∧ w.queued s → M.next s a = some s' →
      (Q s' ∨ ∃ i, P s' ∧ w.event i s') ∨ (P s' ∧ w.queued s') ∧ ¬w.collect a := by
    rintro s a s' hr ⟨hP, hqueued⟩ hn
    rcases h.lasts s a s' hr hP hn with hq | hP'
    · exact .inl (.inl hq)
    · rcases h.queued_keep s a s' hr hP hqueued hn with hq | ⟨i, he⟩ | ⟨hqueued', hnot⟩
      · exact .inl (.inl hq)
      · exact .inl (.inr ⟨i, hP', he⟩)
      · exact .inr ⟨⟨hP', hqueued'⟩, hnot⟩
  have hcollects : ρ.LeadsTo (fun s => P s ∧ w.queued s)
      (fun s => Q s ∨ ∃ i, P s ∧ w.event i s) := by
    refine leadsTo_of_step fair.collect ?_ ?_ ?_
    · exact fun s a s' hr hs hn => (hstep s a s' hr hs hn).imp id And.left
    · exact fun s a s' hr hs ha hn => (hstep s a s' hr hs hn).resolve_right fun h => h.2 ha
    · rintro s hr ⟨hP, hqueued⟩
      exact .inr (h.queued_enabled s hr hP hqueued)
  intro n hP
  -- The wait is covered by readiness, by an event in hand or by one in the queue.
  rcases h.cover _ (ρ.reachable n) hP with hready | ⟨i, he⟩ | hqueued
  · exact h.looks fair n ⟨hP, hready⟩
  · exact hdispatches n ⟨i, hP, he⟩
  · exact (hcollects.trans (LeadsTo.cases (fun _ _ h => h) (leadsTo_of_imp fun _ _ h => h)
      hdispatches)) n ⟨hP, hqueued⟩

end EdgeWait

end Lts

end Nagoya.Lib
