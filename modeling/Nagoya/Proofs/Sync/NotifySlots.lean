import Nagoya.Proofs.Sync.Notify

/-!
# `Nagoya.Proofs.Sync.NotifySlots`: what one step does to the slot of a future

A future that waits is a slot with a kind and a waker. `slot s i` is what future `i` can see of
its own slot. The lemmas here are the interface for the primitives that are built on `Notify`:
they say what one step of the system does to the slot of a future that steps, and to the slots
of all others. A client of `Notify` does not look at the queue.

`step_others` is the frame: a step of somebody else keeps a future, and keeps its slot or grants
it and hands out its waker. `broadcast_slot` says that a broadcast grants every queued slot.
`lock_cases` says what the section under the lock does for the future that runs it.
-/

set_option autoImplicit false

namespace Nagoya.Sync

open Nagoya.Lib

open WaitQueue

/-! ### Grants in the abstract queue -/

/-- From `a` to `a'` the entry of `id` stays, or `id` is granted `kind` and its waker is in
`wakes`. -/
def AbsQueue.Passes (kind : WakeKind) (a a' : AbsQueue) (wakes : List Waker) (id : Nat) : Prop :=
  a'.entry id = a.entry id ∨
    ∃ waker, a.entry id = some ⟨.queued, waker⟩ ∧ a'.entry id = some ⟨kind, none⟩ ∧
      ∀ w, waker = some w → w ∈ wakes

/-- A queued id is live, and it is queued. -/
theorem WaitQueue.Repr.entry_of_mem {q : WaitQueue} {a : AbsQueue} (h : q.Repr a) {id : Nat}
    (hid : id ∈ a.fifo) : a.entry id = some ⟨.queued, a.waker id⟩ := by
  have hk := (h.mem_fifo id).mp hid
  unfold AbsQueue.kind at hk
  obtain ⟨⟨kind, waker⟩, he, rfl⟩ := Option.map_eq_some_iff.mp hk
  simp [AbsQueue.waker, he]

/-- A broadcast passes every entry on. -/
theorem WaitQueue.Repr.passes_grantAll {q : WaitQueue} {a : AbsQueue} (h : q.Repr a) (id : Nat) :
    AbsQueue.Passes .all a a.grantAll (a.fifo.filterMap a.waker) id := by
  by_cases hid : id ∈ a.fifo
  · refine .inr ⟨a.waker id, h.entry_of_mem hid, ?_, ?_⟩
    · simp [AbsQueue.grantAll, hid]
    · intro w hw
      exact List.mem_filterMap.mpr ⟨id, hid, hw⟩
  · left
    simp [AbsQueue.grantAll, hid]

/-- The waker a single grant hands out. -/
def AbsQueue.headWaker (a : AbsQueue) : Option Waker := a.fifo.head?.bind a.waker

/-- A single grant passes every entry on. -/
theorem WaitQueue.Repr.passes_wakeOne {q : WaitQueue} {a : AbsQueue} (h : q.Repr a) (id : Nat) :
    AbsQueue.Passes .one a a.wakeOne a.headWaker.toList id := by
  unfold AbsQueue.wakeOne AbsQueue.headWaker
  cases hfifo : a.fifo with
  | nil => exact .inl rfl
  | cons x rest =>
    by_cases hid : id = x
    · subst hid
      refine .inr ⟨a.waker id, h.entry_of_mem (by simp [hfifo]), ?_, ?_⟩
      · simp [AbsQueue.grant, AbsQueue.grantAs]
      · intro w hw
        simp [hw]
    · left
      simp [AbsQueue.grant, AbsQueue.grantAs, hid]

/-- `grantOne` grants the head of the queue and hands out its waker. -/
theorem Notify.grantOne_queue {n : Notify} {a : AbsQueue} (h : n.waiters.Repr a) :
    ∃ n', n.grantOne = some (n', a.headWaker) ∧ n'.waiters.Repr a.wakeOne ∧
      n'.generation = n.generation := by
  unfold AbsQueue.wakeOne AbsQueue.headWaker
  cases hfifo : a.fifo with
  | nil => exact ⟨{ n with permit := true }, by simp [grantOne, grantOne_nil h hfifo], h, rfl⟩
  | cons id rest =>
    obtain ⟨q, hq, hr, -⟩ := grantOne_cons h hfifo
    exact ⟨{ n with waiters := q }, by simp [grantOne, hq], hr, rfl⟩

/-- `notifyWaiters` grants the whole queue and hands out its wakers. -/
theorem Notify.notifyWaiters_queue [Target] {n : Notify} {a : AbsQueue} (h : n.waiters.Repr a) :
    ∃ q, n.notifyWaiters
        = some ({ n with generation := usizeAdd n.generation 1, waiters := q },
          a.fifo.filterMap a.waker) ∧ q.Repr a.grantAll := by
  obtain ⟨q, hq, hr, -⟩ := grantAll_spec h
  exact ⟨q, by simp [notifyWaiters, hq], hr⟩

namespace NotifySystem

/-- What future `i` can see of its slot. -/
def slot (s : State) (i : Nat) : Option Entry :=
  (attr Party.token s.futures i).bind s.notify.waiters.view

/-- The future that takes the step. -/
def Action.actor : Action → Option Nat
  | .call i _ | .advance i | .drop i => some i
  | _ => none

/-- The kind a step grants to the slots of others. -/
def Action.grants : Action → WakeKind
  | .notifyWaiters => .all
  | _ => .one

/-- From `s` to `s'` the slot of future `j` stays, or it is granted `kind` and its waker is
handed out. -/
def SlotPasses (kind : WakeKind) (s s' : State) (j : Nat) : Prop :=
  slot s' j = slot s j ∨
    ∃ waker, slot s j = some ⟨.queued, waker⟩ ∧ slot s' j = some ⟨kind, none⟩ ∧
      ∀ w, waker = some w → w ∈ s'.wakes

/-- The slot of a future, in the abstract queue. -/
theorem slot_eq {s : State} {a : AbsQueue} (h : s.notify.waiters.Repr a) (i : Nat) :
    slot s i = (attr Party.token s.futures i).bind a.entry := by
  unfold slot
  cases attr Party.token s.futures i with
  | none => rfl
  | some id => exact h.view id

/-- The slot of a future that keeps its token moves as its entry does. -/
theorem SlotPasses.of_passes {s s' : State} {a a' : AbsQueue} (h : s.notify.waiters.Repr a)
    (h' : s'.notify.waiters.Repr a') {kind : WakeKind} {j : Nat} {wakes : List Waker}
    (htok : attr Party.token s'.futures j = attr Party.token s.futures j)
    (hp : ∀ id, attr Party.token s.futures j = some id → AbsQueue.Passes kind a a' wakes id)
    (hw : ∀ w ∈ wakes, w ∈ s'.wakes) : SlotPasses kind s s' j := by
  unfold SlotPasses
  rw [slot_eq h, slot_eq h', htok]
  cases hid : attr Party.token s.futures j with
  | none => exact .inl rfl
  | some id =>
    rcases hp id hid with heq | ⟨waker, he, he', hmem⟩
    · exact .inl heq
    · exact .inr ⟨waker, he, he', fun w hw' => hw w (hmem w hw')⟩

/-- The attribute of a future that is not the one replaced. -/
theorem token_set {l : List Party} {i j : Nat} {p : Party} (hi : l[i]? = some p) (p' : Party)
    (hj : j ≠ i) : attr Party.token (l.set i p') j = attr Party.token l j := by
  rw [attr_set Party.token hi, Function.update_of_ne hj]

/-! ### The section under the lock -/

/-- The grant in the slot of a future, from what the future sees. -/
theorem grantOf_eq {s : State} {a : AbsQueue} (h : s.notify.waiters.Repr a) {i : Nat}
    {f : Notified} {pc : Pc} (hi : s.futures[i]? = some (.live f pc)) :
    f.grantOf a = ((slot s i).map Entry.kind).filter (· ≠ .queued) := by
  rw [slot_eq h, attr_of_some Party.token hi]
  unfold Notified.grantOf AbsQueue.kind
  rw [show Party.token (.live f pc) = f.registration from rfl, Option.map_bind]
  rfl

/-- Where the notification of a future that completes in its section comes from: a grant in its
slot, a broadcast since it was made, or the permit. -/
def Source (s : State) (f : Notified) (i : Nat) (kind : WakeKind) (permit : Bool) : Prop :=
  (∃ waker, slot s i = some ⟨kind, waker⟩ ∧ kind ≠ .queued ∧ permit = s.notify.permit) ∨
  (s.notify.generation ≠ f.generation ∧ kind = .all ∧ permit = s.notify.permit) ∨
  (s.notify.permit = true ∧ kind = .one ∧ permit = false)

/-- A future whose section completes it. -/
structure Completes (s s' : State) (i : Nat) (f : Notified) (call : Call) (kind : WakeKind)
    (permit : Bool) : Prop where
  source : Source s f i kind permit
  future : s'.futures = s.futures.set i (.live
    { f with registration := none, done := true, reservedOne := kind = .one } (.ready call))
  permit : s'.notify.permit = permit
  generation : s'.notify.generation = s.notify.generation
  wakes : s'.wakes = s.wakes

/-- A future whose section queues it. -/
structure Parks (s s' : State) (i : Nat) (f : Notified) (call : Call) : Prop where
  future : ∃ id, s'.futures = s.futures.set i (.live { f with registration := some id } .idle)
  slot : slot s' i = some ⟨.queued, call.waker <|> (slot s i).bind Entry.waker⟩
  queued : ∀ e, NotifySystem.slot s i = some e → e.kind = .queued
  noPermit : s.notify.permit = false ∧ s'.notify.permit = false
  generation : s.notify.generation = f.generation ∧ s'.notify.generation = f.generation
  wakes : s'.wakes = s.wakes

/-- What the section under the lock does: it completes the future or queues it, and it leaves
the slots of the others. -/
theorem lock_cases [Target] {s s' : State} {a : AbsQueue} (h : Inv s a) {i : Nat} {f : Notified}
    {call : Call} (hi : s.futures[i]? = some (.live f (.lock call)))
    (hs : step s (.advance i) = some s') :
    ((∃ kind permit, Completes s s' i f call kind permit) ∨ Parks s s' i f call) ∧
      ∀ j, j ≠ i → slot s' j = slot s j := by
  -- No other future has the slot of this one.
  have hrepr := h.notify.repr
  have hother : ∀ j, j ≠ i → ∀ id, attr Party.token s.futures j = some id →
      f.registration ≠ some id := by
    intro j hj id hid hf
    exact hj (h.owned.distinct j i id hid ((attr_of_some Party.token hi).trans hf))
  -- The section finds nothing and parks the future, or it finds a notification and completes it.
  rcases hn : f.notification s.notify (f.grantOf a) with ⟨_ | kind, permit⟩
  · obtain ⟨q, id, hsec, hid, hr, -⟩ :=
      Notified.lockSection_park hrepr (h.live hi) hn call.waker
    obtain ⟨hgrant, hgen, hperm, rfl⟩ := Notified.notification_none hn
    have hs' : s' = { s with
        notify := { s.notify with permit := false, waiters := q }
        futures := s.futures.set i (.live { f with registration := some id } .idle) } := by
      simp only [step, hi, advance, hsec, Option.some.injEq] at hs
      exact hs.symm
    have htok : attr Party.token s'.futures i = some id := by
      rw [hs', attr_of_some Party.token (getElem?_set_of_some hi _ i |>.trans (if_pos rfl))]
      rfl
    have hreprs : s'.notify.waiters.Repr (a.register id call.waker) := by
      rw [hs']
      exact hr
    refine ⟨.inr ⟨⟨id, by rw [hs']⟩, ?_, ?_, ⟨hperm, by rw [hs']⟩, ⟨hgen, by rw [hs']; exact hgen⟩,
      by rw [hs']⟩, ?_⟩
    · -- The waker that stays is the one of the slot the future had before.
      have hwaker : a.waker id = (slot s i).bind Entry.waker := by
        rw [slot_eq hrepr, attr_of_some Party.token hi]
        rcases hid with hid | ⟨hnone, hfree⟩
        · rw [show Party.token (.live f (.lock call)) = some id from hid]
          rfl
        · rw [show Party.token (.live f (.lock call)) = none from hnone]
          simp [AbsQueue.waker, hfree]
      rw [slot_eq hreprs, htok, ← hwaker]
      simp [AbsQueue.register]
    · -- The future had no grant, so its slot was queued.
      intro e he
      rw [grantOf_eq hrepr hi, he] at hgrant
      simpa [Option.filter] using hgrant
    · -- The slot that was given out was this future's own, or it was free.
      intro j hj
      rw [slot_eq hreprs, slot_eq hrepr, hs', token_set hi _ hj]
      cases hidj : attr Party.token s.futures j with
      | none => rfl
      | some x =>
        have hx : x ≠ id := by
          rintro rfl
          rcases hid with hid | ⟨-, hfree⟩
          · exact hother j hj x hidj hid
          · exact h.owned.live j x hidj hfree
        simp [AbsQueue.register, hx]
  · obtain ⟨q, hsec, hr, -⟩ := Notified.lockSection_ready hrepr (h.live hi) hn call.waker
    have hs' : s' = { s with
        notify := { s.notify with permit := permit, waiters := q }
        futures := s.futures.set i (.live
          { f with registration := none, done := true, reservedOne := kind = .one }
          (.ready call)) } := by
      simp only [step, hi, advance, hsec, Option.some.injEq] at hs
      exact hs.symm
    have hreprs : s'.notify.waiters.Repr (a.forget f.registration) := by
      rw [hs']
      exact hr
    refine ⟨.inl ⟨kind, permit, ?_, by rw [hs'], by rw [hs'], by rw [hs'], by rw [hs']⟩, ?_⟩
    · -- The source is the slot's grant, the generation or the permit.
      rcases Notified.notification_some hn with
        ⟨hg, hp⟩ | ⟨-, hgen, hk, hp⟩ | ⟨-, -, hperm, hk, hp⟩
      · left
        rw [grantOf_eq hrepr hi] at hg
        cases he : slot s i with
        | none => simp [he] at hg
        | some e =>
          obtain ⟨k, w⟩ := e
          rw [he] at hg
          obtain ⟨hkind, hq⟩ : k = kind ∧ k ≠ .queued := by
            by_cases hq : k = .queued <;> simp [Option.filter, hq] at hg
            exact ⟨hg, hq⟩
          exact ⟨w, by rw [hkind], hkind ▸ hq, hp⟩
      · exact .inr (.inl ⟨hgen, hk, hp⟩)
      · exact .inr (.inr ⟨hperm, hk, hp⟩)
    · -- The section forgets the slot of this future only.
      intro j hj
      rw [slot_eq hreprs, slot_eq hrepr, hs', token_set hi _ hj]
      cases hidj : attr Party.token s.futures j with
      | none => rfl
      | some x =>
        have hx := hother j hj x hidj
        cases hreg : f.registration with
        | none => rfl
        | some y =>
          have hxy : x ≠ y := by
            rintro rfl
            exact hx hreg
          simp [AbsQueue.forget, AbsQueue.remove, hxy]

/-! ### The frame of a step -/

/-- What a drop does to the queue: the slot of the future goes, and a notification it held is
passed on. -/
theorem drop_queue {s : State} {a : AbsQueue} (h : Inv s a) {i : Nat} {f : Notified} {pc : Pc}
    (hi : s.futures[i]? = some (.live f pc)) {n' : Notify} {waker : Option Waker}
    (hd : f.drop s.notify = some (n', waker)) :
    n'.generation = s.notify.generation ∧
    ∃ a', n'.waiters.Repr a' ∧
      ∀ id, f.registration ≠ some id → AbsQueue.Passes .one a a' waker.toList id := by
  have hrepr := h.notify.repr
  unfold Notified.drop at hd
  split at hd
  · -- A reservation is passed on by `grant_one`.
    obtain ⟨m, hm, hr, hgen⟩ := Notify.grantOne_queue hrepr
    rw [hm] at hd
    cases hd
    exact ⟨hgen, a.wakeOne, hr, fun id _ => hrepr.passes_wakeOne id⟩
  · split at hd
    · -- A future without a slot leaves the queue alone.
      cases hd
      exact ⟨rfl, a, hrepr, fun _ _ => .inl rfl⟩
    · obtain ⟨q, removed, hq, -, hr, -⟩ := remove_spec hrepr (h.live hi)
      -- The others do not see that the slot goes.
      have hforget : ∀ id, f.registration ≠ some id →
          (a.forget f.registration).entry id = a.entry id := by
        intro id hid
        cases hreg : f.registration with
        | none => rfl
        | some x =>
          have hx : id ≠ x := fun e => hid (by rw [hreg, e])
          simp [AbsQueue.forget, AbsQueue.remove, hx]
      simp only [hq] at hd
      split at hd
      · -- The slot was granted to one waiter, so the notification is passed on.
        obtain ⟨m, hm, hrm, hgen⟩ :=
          Notify.grantOne_queue (n := { s.notify with waiters := q }) hr
        rw [hm] at hd
        cases hd
        refine ⟨hgen, _, hrm, fun id hid => ?_⟩
        have hp := WaitQueue.Repr.passes_wakeOne hr id
        unfold AbsQueue.Passes at hp ⊢
        rwa [hforget id hid] at hp
      · -- The slot was queued or granted by a broadcast. Nobody else is granted.
        cases hd
        exact ⟨rfl, _, hr, fun id hid => .inl (hforget id hid)⟩

/-- A step that touches neither the queue nor the tokens. -/
theorem SlotPasses.of_same {s s' : State} {kind : WakeKind} {j : Nat}
    (hq : s'.notify.waiters = s.notify.waiters)
    (htok : attr Party.token s'.futures j = attr Party.token s.futures j) :
    SlotPasses kind s s' j := by
  left
  unfold slot
  rw [hq, htok]

/-- The steps of a call that are outside the lock keep the queue and the registration. -/
theorem advance_outside {n n' : Notify} {f f' : Notified} {pc pc' : Pc}
    (hpc : ∀ call, pc ≠ .lock call) (h : advance n f pc = some (n', f', pc')) :
    n'.waiters = n.waiters ∧ n'.generation = n.generation ∧
      f'.registration = f.registration ∧ f'.generation = f.generation := by
  cases pc with
  | idle => cases h
  | loadGeneration call =>
    simp only [advance] at h
    split at h <;> cases h <;> exact ⟨rfl, rfl, rfl, rfl⟩
  | takePermit call =>
    simp only [advance] at h
    split at h <;> cases h <;> exact ⟨rfl, rfl, rfl, rfl⟩
  | lock call => exact absurd rfl (hpc call)
  | ready call => cases call <;> cases h <;> exact ⟨rfl, rfl, rfl, rfl⟩

/-- A step of a call: it is the section under the lock, or it keeps the queue and the
registration. -/
theorem advance_cases [Target] {s s' : State} {i : Nat} (hs : step s (.advance i) = some s') :
    ∃ f pc f' pc', s.futures[i]? = some (.live f pc) ∧
      s'.futures = s.futures.set i (.live f' pc') ∧
      ((∃ call, pc = .lock call) ∨
        s'.notify.waiters = s.notify.waiters ∧ s'.notify.generation = s.notify.generation ∧
          f'.registration = f.registration ∧ f'.generation = f.generation) := by
  simp only [step] at hs
  split at hs
  · rename_i f pc hi
    split at hs
    · cases hs
    · rename_i n' f' pc' hadv
      cases hs
      refine ⟨f, pc, f', pc', hi, rfl, ?_⟩
      by_cases hlock : ∃ call, pc = .lock call
      · exact .inl hlock
      · exact .inr (advance_outside (fun call e => hlock ⟨call, e⟩) hadv)
  · cases hs

/-- The frame of a step: the futures that do not take it stay as they are, and the slot of each
stays or is granted with its waker handed out. -/
theorem step_others [Target] {s s' : State} {a : AbsQueue} {act : Action} (h : Inv s a)
    (hs : step s act = some s') {j : Nat} {p : Party} (hj : s.futures[j]? = some p)
    (hact : act.actor ≠ some j) : s'.futures[j]? = some p ∧ SlotPasses act.grants s s' j := by
  have hrepr := h.notify.repr
  -- A step grants the slots of others by `grant_one` and `grant_all` only.
  cases act with
  | notified =>
    cases hs
    have hlt : j < s.futures.length := (List.getElem?_eq_some_iff.mp hj).1
    refine ⟨by rw [List.getElem?_append_left hlt]; exact hj, .of_same rfl ?_⟩
    exact congrFun (attr_append_of_none Party.token s.futures (by rfl)) j
  | notifyOne =>
    obtain ⟨n', hg, hr, -⟩ := Notify.grantOne_queue hrepr
    simp only [step, hg, Option.some.injEq] at hs
    subst hs
    exact ⟨hj, .of_passes hrepr hr rfl (fun id _ => hrepr.passes_wakeOne id)
      fun _ => List.mem_append_right _⟩
  | notifyWaiters =>
    obtain ⟨q, hg, hr⟩ := Notify.notifyWaiters_queue hrepr
    simp only [step, hg, Option.some.injEq] at hs
    subst hs
    exact ⟨hj, .of_passes hrepr hr rfl (fun id _ => hrepr.passes_grantAll id)
      fun _ => List.mem_append_right _⟩
  | call i call =>
    have hji : j ≠ i := fun e => hact (by rw [e]; rfl)
    simp only [step] at hs
    split at hs
    · rename_i f hi
      cases hs
      refine ⟨by rw [getElem?_set_of_some hi, if_neg hji]; exact hj, .of_same rfl ?_⟩
      exact token_set hi _ hji
    · cases hs
  | advance i =>
    have hji : j ≠ i := fun e => hact (by rw [e]; rfl)
    obtain ⟨f, pc, f', pc', hi, hfut, hcase⟩ := advance_cases hs
    refine ⟨by rw [hfut, getElem?_set_of_some hi, if_neg hji]; exact hj, ?_⟩
    -- Under the lock the section touches the future's own slot. Outside it, nothing in the queue
    -- changes.
    rcases hcase with ⟨call, rfl⟩ | ⟨hq, -⟩
    · exact .inl ((lock_cases h hi hs).2 j hji)
    · refine .of_same hq ?_
      rw [hfut]
      exact token_set hi _ hji
  | drop i =>
    have hji : j ≠ i := fun e => hact (by rw [e]; rfl)
    simp only [step] at hs
    split at hs
    · rename_i f hi
      split at hs
      · cases hs
      · rename_i n' waker hd
        cases hs
        refine ⟨by rw [getElem?_set_of_some hi, if_neg hji]; exact hj, ?_⟩
        obtain ⟨-, a', hr, hpass⟩ := drop_queue h hi hd
        refine .of_passes hrepr hr (token_set hi _ hji) ?_ fun _ => List.mem_append_right _
        -- Two futures have two slots.
        intro id hid
        refine hpass id fun hf => ?_
        exact hji (h.owned.distinct j i id hid ((attr_of_some Party.token hi).trans hf))
    · cases hs
  | wake =>
    simp only [step] at hs
    split at hs
    · cases hs
    · cases hs
      exact ⟨hj, .of_same rfl rfl⟩

/-- A broadcast grants every queued slot. -/
theorem broadcast_slot [Target] {s s' : State} {a : AbsQueue} (h : Inv s a)
    (hs : step s .notifyWaiters = some s') {j : Nat} {e : Entry} (hj : slot s j = some e) :
    ∃ e', slot s' j = some e' ∧ e'.kind ≠ .queued := by
  have hrepr := h.notify.repr
  obtain ⟨q, hg, hr⟩ := Notify.notifyWaiters_queue hrepr
  simp only [step, hg, Option.some.injEq] at hs
  subst hs
  rw [slot_eq hrepr] at hj
  rw [slot_eq hr]
  obtain ⟨id, hid, he⟩ := Option.bind_eq_some_iff.mp hj
  rw [show attr Party.token s.futures j = some id from hid]
  by_cases hmem : id ∈ a.fifo
  · exact ⟨⟨.all, none⟩, by simp [AbsQueue.grantAll, hmem], by simp⟩
  · refine ⟨e, by simp [AbsQueue.grantAll, hmem, he], fun hk => hmem ?_⟩
    rw [hrepr.mem_fifo]
    simp [AbsQueue.kind, he, hk]

/-- The slot of a registered future is live. -/
theorem slot_isSome {s : State} {a : AbsQueue} (h : Inv s a) {i : Nat} {f : Notified} {pc : Pc}
    (hi : s.futures[i]? = some (.live f pc)) : (slot s i).isSome = f.registration.isSome := by
  rw [slot_eq h.notify.repr, attr_of_some Party.token hi]
  cases hreg : f.registration with
  | none =>
    rw [show Party.token (.live f pc) = none from hreg]
    rfl
  | some id =>
    rw [show Party.token (.live f pc) = some id from hreg]
    exact Option.isSome_iff_ne_none.mpr (h.live hi id hreg)

/-- A slot that is granted is not queued. -/
theorem Action.grants_ne (act : Action) : act.grants ≠ .queued := by
  cases act <;> simp [Action.grants]

/-- Only a broadcast moves the generation. -/
theorem step_generation [Target] {s s' : State} {a : AbsQueue} {act : Action} (h : Inv s a)
    (hs : step s act = some s') :
    s'.notify.generation
      = if act = .notifyWaiters then usizeAdd s.notify.generation 1 else s.notify.generation := by
  have hrepr := h.notify.repr
  -- Only a broadcast counts the generation up.
  cases act with
  | notified =>
    cases hs
    rfl
  | notifyOne =>
    obtain ⟨n', hg, -, hgen⟩ := Notify.grantOne_queue hrepr
    simp only [step, hg, Option.some.injEq] at hs
    subst hs
    exact hgen
  | notifyWaiters =>
    obtain ⟨q, hg, -⟩ := Notify.notifyWaiters_queue hrepr
    simp only [step, hg, Option.some.injEq] at hs
    subst hs
    rfl
  | call i call =>
    simp only [step] at hs
    split at hs <;> cases hs
    rfl
  | advance i =>
    obtain ⟨f, pc, f', pc', hi, -, ⟨call, rfl⟩ | ⟨-, hgen, -⟩⟩ := advance_cases hs
    · rcases (lock_cases h hi hs).1 with ⟨kind, permit, hc⟩ | hp
      · exact hc.generation
      · exact hp.generation.2.trans hp.generation.1.symm
    · exact hgen
  | drop i =>
    simp only [step] at hs
    split at hs
    · rename_i f hi
      split at hs
      · cases hs
      · rename_i n' waker hd
        cases hs
        exact (drop_queue h hi hd).1
    · cases hs
  | wake =>
    simp only [step] at hs
    split at hs <;> cases hs
    rfl

/-- Only `notified` makes a future. -/
theorem step_length [Target] {s s' : State} {act : Action} (hs : step s act = some s') :
    s'.futures.length = s.futures.length + if act = .notified then 1 else 0 := by
  cases act with
  | notified =>
    cases hs
    simp
  | notifyOne | notifyWaiters | call | wake =>
    simp only [step] at hs
    split at hs <;> cases hs
    simp
  | advance | drop =>
    simp only [step] at hs
    split at hs
    · split at hs <;> cases hs
      simp
    · cases hs

/-- How a future came to a step's result: it was made by the step, or it was there before with
the same generation, and its slot passed on, went away, or was queued at the current
generation. -/
theorem step_future [Target] {s s' : State} {a : AbsQueue} {act : Action} (h : Inv s a)
    (hs : step s act = some s') {j : Nat} {f' : Notified} {pc' : Pc}
    (hj : s'.futures[j]? = some (.live f' pc')) :
    (act = .notified ∧ j = s.futures.length ∧ f' = s.notify.notified ∧ slot s' j = none) ∨
    ∃ f pc, s.futures[j]? = some (.live f pc) ∧ f'.generation = f.generation ∧
      (SlotPasses act.grants s s' j ∨ slot s' j = none ∨
        s.notify.generation = f.generation ∧ act = .advance j ∧
          ∃ waker, slot s' j = some ⟨.queued, waker⟩) := by
  by_cases hact : act.actor = some j
  · right
    -- The party of the step is the future itself.
    cases act with
    | notified | notifyOne | notifyWaiters | wake => cases hact
    | call i call =>
      obtain rfl : i = j := Option.some.inj hact
      simp only [step] at hs
      split at hs
      · rename_i f hi
        cases hs
        rw [getElem?_set_of_some hi, if_pos rfl] at hj
        cases hj
        refine ⟨f', .idle, hi, rfl, .inl (.of_same rfl ?_)⟩
        exact congrFun (attr_set_of_eq Party.token hi (b := .live f' (start f' call)) rfl) i
      · cases hs
    | advance i =>
      obtain rfl : i = j := Option.some.inj hact
      obtain ⟨f, pc, f₁, pc₁, hi, hfut, hcase⟩ := advance_cases hs
      refine ⟨f, pc, hi, ?_⟩
      rcases hcase with ⟨call, rfl⟩ | ⟨hq, -, hreg, hgen⟩
      · -- The section has completed the future, which has no slot then, or it has parked it.
        rcases (lock_cases h hi hs).1 with ⟨kind, permit, hc⟩ | hp
        · have hset := getElem?_set_of_some hi (.live
            { f with registration := none, done := true, reservedOne := kind = .one }
            (.ready call)) i
          rw [← hc.future, hj, if_pos rfl] at hset
          cases hset
          refine ⟨rfl, .inr (.inl ?_)⟩
          unfold slot
          rw [attr_of_some Party.token hj]
          rfl
        · obtain ⟨id, hid⟩ := hp.future
          have hset := getElem?_set_of_some hi
            (.live { f with registration := some id } .idle) i
          rw [← hid, hj, if_pos rfl] at hset
          cases hset
          exact ⟨rfl, .inr (.inr ⟨hp.generation.1, rfl, _, hp.slot⟩)⟩
      · -- Outside the lock the slot is as it was.
        rw [hfut, getElem?_set_of_some hi, if_pos rfl] at hj
        cases hj
        refine ⟨hgen, .inl (.of_same hq ?_)⟩
        rw [hfut]
        exact congrFun (attr_set_of_eq Party.token hi (b := .live f' pc') hreg) i
    | drop i =>
      obtain rfl : i = j := Option.some.inj hact
      simp only [step] at hs
      split at hs
      · rename_i f hi
        split at hs
        · cases hs
        · cases hs
          -- A dropped future is not live.
          rw [getElem?_set_of_some hi, if_pos rfl] at hj
          cases hj
      · cases hs
  · -- Somebody else took the step, or it made this future.
    cases hsj : s.futures[j]? with
    | some p =>
      right
      obtain ⟨hj', hpass⟩ := step_others h hs hsj hact
      rw [hj, Option.some.injEq] at hj'
      subst hj'
      exact ⟨f', pc', rfl, rfl, .inl hpass⟩
    -- It was not there before, so it is the one that `notified` has made.
    | none =>
      left
      have hlen := step_length hs
      have hge : s.futures.length ≤ j := List.getElem?_eq_none_iff.mp hsj
      have hlt : j < s'.futures.length := (List.getElem?_eq_some_iff.mp hj).1
      obtain rfl : act = .notified := by
        by_contra hne
        rw [if_neg hne] at hlen
        omega
      cases hs
      rcases getElem?_append_singleton hj with hj₀ | ⟨hlen, hf⟩
      · rw [hsj] at hj₀
        cases hj₀
      · cases hf
        refine ⟨rfl, hlen, rfl, ?_⟩
        unfold slot
        rw [attr_of_some Party.token hj]
        rfl

end NotifySystem

end Nagoya.Sync
