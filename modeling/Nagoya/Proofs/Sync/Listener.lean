import Nagoya.Proofs.Sync.NotifySlots
import Nagoya.Sync.Listener

/-!
# `Nagoya.Proofs.Sync.Listener`: a loop that is not granted has missed nothing

`Listen.Ok` says what the future of a loop looks like in each phase. `Tended` is the invariant
of a pool of tasks: every loop is `Ok`, no two loops share a future, and the waker of a
suspended loop whose slot is granted is with some task that is about to call it.

`Attentive` is what a client proves things about: the loop is past its check and its slot is
still queued, so no broadcast came since it registered. A step of a loop makes nobody attentive
except the loop that has just checked, and a broadcast leaves nobody attentive. So a client has
to show only two things: that its condition fails when a loop passes the check, and that
whoever makes it hold broadcasts afterwards.
-/

set_option autoImplicit false

namespace Nagoya.Sync

open Nagoya.Lib

namespace NotifySystem

/-- From `s` to `s'` the slot of future `j` stays, or it is granted and its waker is in
`wakes`. -/
def HandsOut (s s' : State) (wakes : List Waker) (j : Nat) : Prop :=
  slot s' j = slot s j ∨
    ∃ waker kind, kind ≠ WakeKind.queued ∧ slot s j = some ⟨.queued, waker⟩ ∧
      slot s' j = some ⟨kind, none⟩ ∧ ∀ w, waker = some w → w ∈ wakes

/-- The wakes that are not issued are no part of the invariant. -/
theorem Inv.with_wakes {s : State} {a : AbsQueue} (h : Inv s a) (wakes : List Waker) :
    Inv { s with wakes := wakes } a :=
  ⟨h.notify, h.owned, h.parties⟩

/-- An issued step is a step. -/
theorem issue_step [Target] {s s' : State} {act : Action} {wakes : List Waker}
    (h : issue s act = some (s', wakes)) :
    ∃ s₁, step { s with wakes := [] } act = some s₁ ∧ s' = { s₁ with wakes := [] } ∧
      wakes = s₁.wakes := by
  unfold issue at h
  obtain ⟨s₁, hs, heq⟩ := Option.map_eq_some_iff.mp h
  cases heq
  exact ⟨s₁, hs, rfl, rfl⟩

/-- An issued step keeps the invariant. -/
theorem issue_inv [Target] {s s' : State} {a : AbsQueue} {act : Action} {wakes : List Waker}
    (hi : Inv s a) (h : issue s act = some (s', wakes)) : ∃ a', Inv s' a' := by
  obtain ⟨s₁, hs, rfl, -⟩ := issue_step h
  obtain ⟨a', ha'⟩ := (step_spec (hi.with_wakes []) hs).1
  exact ⟨a', ha'.with_wakes []⟩

/-- The frame of an issued step. -/
theorem issue_others [Target] {s s' : State} {a : AbsQueue} {act : Action} {wakes : List Waker}
    (hi : Inv s a) (h : issue s act = some (s', wakes)) {j : Nat} {p : Party}
    (hj : s.futures[j]? = some p) (hact : act.actor ≠ some j) :
    s'.futures[j]? = some p ∧ HandsOut s s' wakes j := by
  obtain ⟨s₁, hs, rfl, rfl⟩ := issue_step h
  obtain ⟨hj', hpass⟩ := step_others (hi.with_wakes []) hs hj hact
  refine ⟨hj', ?_⟩
  rcases hpass with hsame | ⟨waker, hwas, hnow, hw⟩
  · exact .inl hsame
  · exact .inr ⟨waker, act.grants, act.grants_ne, hwas, hnow, hw⟩

end NotifySystem

open NotifySystem

namespace Listen

/-- The future of a loop. -/
def future : Listen → Option Nat
  | .create | .left => none
  | .created f | .enabling f | .check f | .await f | .polling f _ | .suspended f _ _ | .again f
  | .leaving f => some f

/-- The future of a loop that is past its check. -/
def awaits : Listen → Option Nat
  | .await f | .polling f _ | .suspended f _ _ => some f
  | _ => none

/-- The future of a loop in each phase: who is in a call, and who is registered. -/
def Ok (s : State) : Listen → Prop
  | .create | .left => True
  | .created f => ∃ n, s.futures[f]? = some (.live n .idle)
  | .enabling f => ∃ n pc, s.futures[f]? = some (.live n pc) ∧ pc ≠ .idle
  | .check f | .await f => ∃ n, s.futures[f]? = some (.live n .idle) ∧
      (n.done = true ∨ n.registration.isSome)
  | .polling f w => ∃ n pc, s.futures[f]? = some (.live n pc) ∧
      (pc = .ready (.poll w) ∨ pc = .lock (.poll w) ∧ n.registration.isSome)
  | .suspended f w _ => ∃ n, s.futures[f]? = some (.live n .idle) ∧
      ∃ e, slot s f = some e ∧ (e.kind = .queued → e.waker = some w)
  | .again f | .leaving f => ∃ n, s.futures[f]? = some (.live n .idle)

/-- The loop is past its check, and its slot is still queued. -/
def Attentive (s : State) (l : Listen) : Prop :=
  ∃ f, l.awaits = some f ∧ ∃ waker, slot s f = some ⟨.queued, waker⟩

/-- A future whose slot is handed out is attentive only if it was. -/
theorem Attentive.of_handsOut {s s' : State} {w : List Waker} {l : Listen}
    (h : Attentive s' l) (hf : ∀ f, l.awaits = some f → HandsOut s s' w f) :
    Attentive s l := by
  obtain ⟨f, hl, waker, hslot⟩ := h
  rcases hf f hl with hsame | ⟨w, kind, hkind, -, hnow, -⟩
  · exact ⟨f, hl, waker, by rw [← hsame]; exact hslot⟩
  · rw [hslot] at hnow
    cases hnow
    exact absurd rfl hkind

/-- The awaited future is the loop's future. -/
theorem future_of_awaits {l : Listen} {f : Nat} (h : l.awaits = some f) : l.future = some f := by
  cases l <;> first | exact h | cases h

/-- A loop that has a future has a live one. -/
theorem Ok.exists_future {s : State} {l : Listen} (h : l.Ok s) {f : Nat}
    (hf : l.future = some f) : ∃ p, s.futures[f]? = some p := by
  cases l with
  | create | left => cases hf
  | created x | again x | leaving x =>
    cases hf
    obtain ⟨n, hn⟩ := h
    exact ⟨_, hn⟩
  | check x | await x =>
    cases hf
    obtain ⟨n, hn, -⟩ := h
    exact ⟨_, hn⟩
  | enabling x =>
    cases hf
    obtain ⟨n, pc, hn, -⟩ := h
    exact ⟨_, hn⟩
  | polling x w =>
    cases hf
    obtain ⟨n, pc, hn, -⟩ := h
    exact ⟨_, hn⟩
  | suspended x w woken =>
    cases hf
    obtain ⟨n, hn, -⟩ := h
    exact ⟨_, hn⟩

/-- A loop stays `Ok` when its future stays and its slot is kept or granted. -/
theorem Ok.frame {s s' : State} {wakes : List Waker} {l : Listen} (h : l.Ok s)
    (hf : ∀ f, l.future = some f → s'.futures[f]? = s.futures[f]? ∧ HandsOut s s' wakes f) :
    l.Ok s' := by
  cases l with
  | create | left => trivial
  | created x | enabling x | check x | await x | polling x | again x | leaving x =>
    simp only [Ok, (hf x rfl).1] at h ⊢
    exact h
  | suspended x w woken =>
    obtain ⟨n, hn, e, he, hw⟩ := h
    obtain ⟨hsame, hout⟩ := hf x rfl
    refine ⟨n, hsame.trans hn, ?_⟩
    rcases hout with hslot | ⟨waker, kind, hkind, -, hnow, -⟩
    · exact ⟨e, hslot.trans he, hw⟩
    · exact ⟨_, hnow, fun hq => absurd hq hkind⟩

/-! ### One step of a loop -/

/-- What a step of a loop does. -/
structure Stepped (s s' : State) (l l' : Listen) (e : Event) (wakes : List Waker) : Prop where
  system : ∃ a, Inv s' a
  ok : l'.Ok s'
  /-- The future is kept, given up, or new. -/
  future : ∀ f, l'.future = some f → l.future = some f ∨ f = s.futures.length
  /-- The futures of the others stay, and their slots are kept or granted. -/
  others : ∀ (j : Nat) p, l.future ≠ some j → s.futures[j]? = some p →
    s'.futures[j]? = some p ∧ HandsOut s s' wakes j
  /-- The loop becomes attentive only when it passes its check. -/
  attentive : Attentive s' l' → Attentive s l ∨ e = .pass
  /-- A loop that suspends is queued. -/
  suspended : ∀ f w, l' = .suspended f w false → ∃ waker, slot s' f = some ⟨.queued, waker⟩

/-- The future after a call of it started. -/
theorem issue_call [Target] {s s' : State} {wakes : List Waker} {f : Nat} {call : Call}
    {n : Notified} (hn : s.futures[f]? = some (.live n .idle))
    (h : issue s (.call f call) = some (s', wakes)) :
    s'.futures[f]? = some (.live n (start n call)) ∧ slot s' f = slot s f := by
  obtain ⟨s₁, hs, rfl, -⟩ := issue_step h
  simp only [NotifySystem.step, hn, Option.some.injEq] at hs
  subst hs
  refine ⟨(getElem?_set_of_some hn _ f).trans (if_pos rfl), ?_⟩
  unfold slot
  rw [show attr Party.token (s.futures.set f (.live n (start n call))) = attr Party.token s.futures
    from attr_set_of_eq Party.token hn rfl]

/-- The future after a step of its call: it is still in the call, it is done, or it is queued
with the waker of the call. -/
theorem issue_advance [Target] {s s' : State} {a : AbsQueue} {wakes : List Waker} {f : Nat}
    {n : Notified} {pc : Pc} (hi : Inv s a) (hn : s.futures[f]? = some (.live n pc))
    (h : issue s (.advance f) = some (s', wakes)) :
    ∃ n' pc', s'.futures[f]? = some (.live n' pc') ∧
      ((pc' ≠ .idle ∧ (∀ call, pc ≠ .ready call) ∧ ∀ call, pc = .lock call → pc' = .ready call) ∨
        (pc' = .idle ∧ n'.done = true) ∨
        (pc' = .idle ∧ n'.done = false ∧ ∃ call, pc = .lock call ∧ n'.registration.isSome ∧
          (∀ e, slot s f = some e → e.kind = .queued) ∧
          slot s' f = some ⟨.queued, call.waker <|> (slot s f).bind Entry.waker⟩)) := by
  obtain ⟨s₁, hs, rfl, -⟩ := issue_step h
  have hi := hi.with_wakes []
  have hn' : ({ s with wakes := [] } : State).futures[f]? = some (.live n pc) := hn
  have hok := hi.parties f n pc hn'
  by_cases hlock : ∃ call, pc = .lock call
  · obtain ⟨call, rfl⟩ := hlock
    have hdone : n.done = false := hok.pc
    -- Under the lock, the section completes the future or parks it.
    rcases (lock_cases hi hn' hs).1 with ⟨kind, permit, hc⟩ | hp
    · have hset := congrArg (fun l : List Party => l[f]?) hc.future
      simp only [getElem?_set_of_some hn', if_true] at hset
      refine ⟨_, _, hset, .inl ⟨by simp, by simp, ?_⟩⟩
      rintro _ ⟨⟩
      rfl
    · obtain ⟨id, hid⟩ := hp.future
      have hset := congrArg (fun l : List Party => l[f]?) hid
      simp only [getElem?_set_of_some hn', if_true] at hset
      exact ⟨_, _, hset, .inr (.inr ⟨rfl, hdone, call, rfl, rfl, hp.queued, hp.slot⟩)⟩
  · simp only [NotifySystem.step, hn'] at hs
    -- Outside the lock, the future goes to its next program point or returns.
    split at hs
    · cases hs
    · rename_i m n' pc' hadv
      cases hs
      refine ⟨n', pc', (getElem?_set_of_some hn' _ f).trans (if_pos rfl), ?_⟩
      cases pc with
      | idle => cases hadv
      | lock call => exact absurd ⟨call, rfl⟩ hlock
      | loadGeneration call =>
        simp only [NotifySystem.advance] at hadv
        split at hadv <;> cases hadv <;> exact .inl ⟨by simp, by simp, by simp⟩
      | takePermit call =>
        simp only [NotifySystem.advance] at hadv
        split at hadv <;> cases hadv <;> exact .inl ⟨by simp, by simp, by simp⟩
      | ready call =>
        have hdone : n.done = true := hok.pc
        cases call <;> cases hadv <;> exact .inr (.inl ⟨rfl, hdone⟩)

/-- A future that is not in a call is idle. -/
theorem inCall_eq {s : State} {f : Nat} {n : Notified} {pc : Pc}
    (h : s.futures[f]? = some (.live n pc)) : inCall s f = decide (pc ≠ .idle) := by
  unfold inCall
  rw [h]
  cases pc <;> rfl

/-- A step that starts a poll of an awaited future. -/
theorem stepped_poll [Target] {s s' : State} {a : AbsQueue} {l : Listen} {f : Nat}
    {wakes : List Waker} {waker : Waker} {n : Notified} (hi : Inv s a)
    (hn : s.futures[f]? = some (.live n .idle)) (hreg : n.done = true ∨ n.registration.isSome)
    (hl : l.awaits = some f) (h : issue s (.call f (.poll waker)) = some (s', wakes)) :
    Stepped s s' l (.polling f waker) (.poll waker) wakes := by
  obtain ⟨hn', hslot⟩ := issue_call hn h
  refine ⟨issue_inv hi h, ⟨n, _, hn', ?_⟩, ?_, ?_, ?_, by simp⟩
  · -- A future that is done returns at once; any other holds a slot and goes to the lock.
    unfold start
    cases hd : n.done with
    | true => exact .inl rfl
    | false =>
      have hreg : n.registration.isSome := by simpa [hd] using hreg
      cases hr : n.registration with
      | none => simp [hr] at hreg
      | some id => simp
  · intro x hx
    cases hx
    exact .inl (future_of_awaits hl)
  · intro j p hj hp
    refine issue_others hi h hp ?_
    rintro ⟨⟩
    exact hj (future_of_awaits hl)
  · rintro ⟨x, ⟨⟩, w, hw⟩
    exact .inl ⟨f, hl, w, by rw [← hslot]; exact hw⟩

/-- A step that drops the future. -/
theorem stepped_drop [Target] {s s' : State} {a : AbsQueue} {l l' : Listen} {f : Nat}
    {wakes : List Waker} (hi : Inv s a) (hl : l.future = some f) (hl' : l' = .create ∨ l' = .left)
    (h : issue s (.drop f) = some (s', wakes)) : Stepped s s' l l' .advance wakes := by
  have hnone : l'.future = none ∧ l'.awaits = none ∧ l'.Ok s' := by
    rcases hl' with rfl | rfl <;> exact ⟨rfl, rfl, trivial⟩
  refine ⟨issue_inv hi h, hnone.2.2, ?_, ?_, ?_, ?_⟩
  · intro x hx
    rw [hnone.1] at hx
    cases hx
  · intro j p hj hp
    refine issue_others hi h hp ?_
    rintro ⟨⟩
    exact hj hl
  · rintro ⟨x, hx, -⟩
    rw [hnone.2.1] at hx
    cases hx
  · rintro x w rfl
    cases hnone.1

/-- A step of a loop that leaves the `Notify` alone. -/
theorem stepped_local {s : State} {a : AbsQueue} {l l' : Listen} {e : Event} (hi : Inv s a)
    (hok : l'.Ok s) (hfut : l'.future = l.future)
    (hatt : Attentive s l' → Attentive s l ∨ e = .pass)
    (hsusp : ∀ f w, l' ≠ .suspended f w false) : Stepped s s l l' e [] := by
  refine ⟨⟨a, hi⟩, hok, ?_, ?_, hatt, ?_⟩
  · intro f hf
    exact .inl (hfut ▸ hf)
  · intro j p _ hp
    exact ⟨hp, .inl rfl⟩
  · intro f w hl
    exact absurd hl (hsusp f w)

/-- A step of `enable`. When it returns, the future is done or registered. -/
theorem stepped_enabling [Target] {s s' : State} {a : AbsQueue} {f : Nat} {wakes : List Waker}
    (hi : Inv s a) (hok : (Listen.enabling f).Ok s)
    (h : issue s (.advance f) = some (s', wakes)) :
    Stepped s s' (.enabling f) (if inCall s' f then .enabling f else .check f) .advance wakes := by
  obtain ⟨n, pc, hn, hpc⟩ := hok
  obtain ⟨n', pc', hn', hcase⟩ := issue_advance hi hn h
  have hothers : ∀ (j : Nat) p, some f ≠ some j → s.futures[j]? = some p →
      s'.futures[j]? = some p ∧ HandsOut s s' wakes j := by
    intro j p hj hp
    exact issue_others hi h hp hj
  rw [inCall_eq hn']
  by_cases hidle : pc' = .idle
  · have hreg : n'.done = true ∨ n'.registration.isSome := by
      rcases hcase with ⟨hne, -⟩ | ⟨-, hd⟩ | ⟨-, -, call, -, hr, -⟩
      · exact absurd hidle hne
      · exact .inl hd
      · exact .inr hr
    rw [hidle] at hn' ⊢
    refine ⟨issue_inv hi h, ⟨n', hn', hreg⟩, fun x hx => .inl hx, hothers, ?_, by simp⟩
    rintro ⟨x, hx, -⟩
    cases hx
  · rw [if_pos (by simpa using hidle)]
    refine ⟨issue_inv hi h, ⟨n', pc', hn', hidle⟩, fun x hx => .inl hx, hothers, ?_, by simp⟩
    rintro ⟨x, hx, -⟩
    cases hx

/-- A step of a poll. When it returns `Pending`, the future is queued with the waker of the
poll. -/
theorem stepped_polling [Target] {s s' : State} {a : AbsQueue} {f : Nat} {w : Waker}
    {wakes : List Waker} (hi : Inv s a) (hok : (Listen.polling f w).Ok s)
    (h : issue s (.advance f) = some (s', wakes)) :
    Stepped s s' (.polling f w)
      (if inCall s' f then .polling f w else if isDone s' f then .again f else .suspended f w false)
      .advance wakes := by
  obtain ⟨n, pc, hn, hpc⟩ := hok
  obtain ⟨n', pc', hn', hcase⟩ := issue_advance hi hn h
  have hothers : ∀ (j : Nat) p, some f ≠ some j → s.futures[j]? = some p →
      s'.futures[j]? = some p ∧ HandsOut s s' wakes j := by
    intro j p hj hp
    exact issue_others hi h hp hj
  have hdone : isDone s' f = n'.done := by
    unfold isDone
    rw [hn']
  rw [inCall_eq hn', hdone]
  rcases hcase with ⟨hne, hnready, hlock⟩ | ⟨rfl, hd⟩ | ⟨rfl, hd, call, hcall, -, hqueued, hslot⟩
  · -- The section completed the future, which is about to return.
    obtain ⟨rfl, hr⟩ : pc = .lock (.poll w) ∧ n.registration.isSome :=
      hpc.resolve_left (hnready _)
    rw [if_pos (by simpa using hne)]
    have hpc' := hlock _ rfl
    refine ⟨issue_inv hi h, ⟨n', pc', hn', .inl hpc'⟩, fun x hx => .inl hx, hothers, ?_, by simp⟩
    rintro ⟨x, ⟨⟩, waker, hw⟩
    -- A completed future has no slot.
    obtain ⟨a', ha'⟩ := issue_inv hi h
    have hfut := ha'.parties f n' pc' hn'
    rw [hpc'] at hfut
    have hnoreg := hfut.done hfut.pc
    have hsome := slot_isSome ha' hn'
    rw [hw, hnoreg] at hsome
    cases hsome
  · -- The poll returned `Ready`, so the loop starts again.
    rw [if_neg (by simp), if_pos hd]
    refine ⟨issue_inv hi h, ⟨n', hn'⟩, fun x hx => .inl hx, hothers, ?_, by simp⟩
    rintro ⟨x, hx, -⟩
    cases hx
  · -- `Pending`: the slot was queued before the section, and it is queued with this waker.
    obtain ⟨rfl, hr⟩ : pc = .lock (.poll w) ∧ n.registration.isSome := by
      rcases hpc with hp | hp
      · rw [hp] at hcall
        cases hcall
      · exact hp
    cases hcall
    rw [if_neg (by simp), if_neg (by simp [hd])]
    refine ⟨issue_inv hi h, ⟨n', hn', _, hslot, fun _ => rfl⟩, fun x hx => .inl hx, hothers, ?_, ?_⟩
    · intro _
      have hsome := slot_isSome hi hn
      rw [hr] at hsome
      obtain ⟨⟨kind, waker⟩, he⟩ := Option.isSome_iff_exists.mp hsome
      obtain rfl : kind = .queued := hqueued _ he
      exact .inl ⟨f, rfl, waker, he⟩
    · rintro x w' ⟨⟩
      exact ⟨_, hslot⟩

/-- What one step of a loop does. -/
theorem step_spec [Target] {s s' : State} {a : AbsQueue} {l l' : Listen} {e : Event}
    {wakes : List Waker} (hi : Inv s a) (hok : l.Ok s)
    (h : l.step s e = some (s', l', wakes)) : Stepped s s' l l' e wakes := by
  -- One case per place of the loop, and in it only the event that the place takes.
  cases l with
  | create =>
    cases e <;> simp only [Listen.step, Option.map_eq_some_iff, reduceCtorEq] at h
    obtain ⟨⟨s₁, ws⟩, hs, heq⟩ := h
    cases heq
    obtain ⟨s₂, hs₂, rfl, -⟩ := issue_step hs
    cases hs₂
    -- The number of the new future is the length of the pool before the step.
    refine ⟨issue_inv hi hs, ⟨s.notify.notified, by simp⟩, ?_, ?_, ?_, by simp⟩
    · intro f hf
      cases hf
      exact .inr rfl
    · intro j p _ hp
      exact issue_others hi hs hp (by simp [Action.actor])
    · rintro ⟨f, hf, -⟩
      cases hf
  | created f =>
    obtain ⟨n, hn⟩ := hok
    cases e <;> simp only [Listen.step, Option.map_eq_some_iff, reduceCtorEq] at h
    obtain ⟨⟨s₁, ws⟩, hs, heq⟩ := h
    cases heq
    obtain ⟨hn', -⟩ := issue_call hn hs
    refine ⟨issue_inv hi hs, ⟨n, _, hn', ?_⟩, ?_, ?_, ?_, by simp⟩
    · unfold start
      split
      · simp
      · split <;> simp
    · exact fun x hx => .inl hx
    · intro j p hj hp
      refine issue_others hi hs hp ?_
      rintro ⟨⟩
      exact hj rfl
    · rintro ⟨x, hx, -⟩
      cases hx
  | enabling f =>
    cases e <;> simp only [Listen.step, Option.map_eq_some_iff, reduceCtorEq] at h
    obtain ⟨⟨s₁, ws⟩, hs, heq⟩ := h
    cases heq
    exact stepped_enabling hi hok hs
  | check f =>
    obtain ⟨n, hn, hreg⟩ := hok
    cases e with
    | leave =>
      -- The check is the client's own, and it does not touch the `Notify`.
      cases h
      refine stepped_local hi ⟨n, hn⟩ rfl ?_ (by simp)
      rintro ⟨x, hx, -⟩
      cases hx
    | pass =>
      cases h
      exact stepped_local hi ⟨n, hn, hreg⟩ rfl (fun _ => .inr rfl) (by simp)
    | _ => cases h
  | await f =>
    obtain ⟨n, hn, hreg⟩ := hok
    cases e <;> simp only [Listen.step, Option.map_eq_some_iff, reduceCtorEq] at h
    obtain ⟨⟨s₁, ws⟩, hs, heq⟩ := h
    cases heq
    exact stepped_poll hi hn hreg rfl hs
  | polling f w =>
    cases e <;> simp only [Listen.step, Option.map_eq_some_iff, reduceCtorEq] at h
    obtain ⟨⟨s₁, ws⟩, hs, heq⟩ := h
    cases heq
    exact stepped_polling hi hok hs
  | suspended f w woken =>
    -- A suspended loop is polled again or dropped.
    obtain ⟨n, hn, e', he, -⟩ := hok
    cases e with
    | poll waker =>
      simp only [Listen.step, Option.map_eq_some_iff] at h
      obtain ⟨⟨s₁, ws⟩, hs, heq⟩ := h
      cases heq
      have hsome := slot_isSome hi hn
      rw [he] at hsome
      exact stepped_poll hi hn (.inr hsome.symm) rfl hs
    | cancel =>
      cases h
      refine stepped_local hi ⟨n, hn⟩ rfl ?_ (by simp)
      rintro ⟨x, hx, -⟩
      cases hx
    | _ => cases h
  | again f =>
    cases e <;> simp only [Listen.step, Option.map_eq_some_iff, reduceCtorEq] at h
    obtain ⟨⟨s₁, ws⟩, hs, heq⟩ := h
    cases heq
    exact stepped_drop hi rfl (.inl rfl) hs
  | leaving f =>
    cases e <;> simp only [Listen.step, Option.map_eq_some_iff, reduceCtorEq] at h
    obtain ⟨⟨s₁, ws⟩, hs, heq⟩ := h
    cases heq
    exact stepped_drop hi rfl (.inr rfl) hs
  | left => cases e <;> cases h

/-- The loop is left, or about to be. -/
def out : Listen → Bool
  | .leaving _ | .left => true
  | _ => false

/-- A loop is left after its check or by a drop. -/
theorem step_out [Target] {s s' : State} {l l' : Listen} {e : Event} {wakes : List Waker}
    (h : l.step s e = some (s', l', wakes)) (hout : l'.out = true) :
    l.out = true ∨ e = .leave ∨ e = .cancel := by
  -- Only the check and a drop lead to a place that is out of the loop.
  cases l with
  | leaving f => exact .inl rfl
  | left => exact .inl rfl
  | check f =>
    cases e with
    | leave => exact .inr (.inl rfl)
    | pass =>
      cases h
      cases hout
    | _ => cases h
  | suspended f w woken =>
    cases e with
    | cancel => exact .inr (.inr rfl)
    | poll waker =>
      simp only [Listen.step, Option.map_eq_some_iff] at h
      obtain ⟨r, -, heq⟩ := h
      cases heq
      cases hout
    | _ => cases h
  | create | created | await | again =>
    cases e <;> simp only [Listen.step, Option.map_eq_some_iff, reduceCtorEq] at h
    obtain ⟨r, -, heq⟩ := h
    cases heq
    cases hout
  | enabling f =>
    cases e <;> simp only [Listen.step, Option.map_eq_some_iff, reduceCtorEq] at h
    obtain ⟨r, -, heq⟩ := h
    cases heq
    split at hout <;> cases hout
  | polling f w =>
    cases e <;> simp only [Listen.step, Option.map_eq_some_iff, reduceCtorEq] at h
    obtain ⟨r, -, heq⟩ := h
    cases heq
    split at hout
    · cases hout
    · split at hout <;> cases hout

end Listen

/-! ### A pool of tasks -/

namespace Task

variable {β : Type}

/-- The future of a task's loop. -/
def future (t : Task β) : Option Nat := t.listen.future

/-- The invariant of a pool of tasks. -/
structure Tended (s : State) (tasks : List (Task β)) : Prop where
  system : ∃ a, Inv s a
  ok : ∀ (i : Nat) t, tasks[i]? = some t → t.listen.Ok s
  /-- No two loops share a future. -/
  own : Exclusive (attr future tasks)
  /-- The waker of a suspended loop that is granted is about to be called. -/
  woken : ∀ (i : Nat) t f w e, tasks[i]? = some t → t.listen = .suspended f w false →
    slot s f = some e → e.kind ≠ .queued → ∃ u ∈ tasks, w ∈ u.wakes

/-- The loops of two tasks have different futures. -/
theorem Tended.future_ne {s : State} {tasks : List (Task β)} (h : Tended s tasks) {i j : Nat}
    {t u : Task β} (hi : tasks[i]? = some t) (hj : tasks[j]? = some u) (hij : j ≠ i) {f : Nat}
    (hf : u.future = some f) : t.future ≠ some f := by
  intro ht
  exact hij (h.own j i f ((attr_of_some future hj).trans hf) ((attr_of_some future hi).trans ht))

/-- A task without wakes is not the one that holds a waker. -/
theorem mem_set_of_wakes {tasks : List (Task β)} {i : Nat} {t t' : Task β} {w : Waker}
    (hi : tasks[i]? = some t) (ht : t.wakes = []) (h : ∃ u ∈ tasks, w ∈ u.wakes) :
    ∃ u ∈ tasks.set i t', w ∈ u.wakes := by
  obtain ⟨u, hu, hw⟩ := h
  rcases mem_set_of_mem hi t' hu with rfl | hu
  · rw [ht] at hw
    cases hw
  · exact ⟨u, hu, hw⟩

/-- One task without wakes takes a step. The futures of the others stay, their slots are kept or
granted, and the wakes that are handed out are its own. -/
theorem Tended.replace {s s' : State} {tasks : List (Task β)} (h : Tended s tasks) {i : Nat}
    {t t' : Task β} (hi : tasks[i]? = some t) (ht : t.wakes = []) (hsys : ∃ a, Inv s' a)
    (hok : t'.listen.Ok s')
    (hfut : ∀ f, t'.future = some f → t.future = some f ∨ f = s.futures.length)
    (hothers : ∀ (j : Nat) p, t.future ≠ some j → s.futures[j]? = some p →
      s'.futures[j]? = some p ∧ HandsOut s s' t'.wakes j)
    (hsusp : ∀ f w e, t'.listen = .suspended f w false → slot s' f = some e → e.kind ≠ .queued →
      ∃ u ∈ tasks.set i t', w ∈ u.wakes) : Tended s' (tasks.set i t') := by
  -- The future of another task is there, and it is not this one's.
  have hkept : ∀ (j : Nat) u f, j ≠ i → tasks[j]? = some u → u.future = some f →
      s'.futures[f]? = s.futures[f]? ∧ HandsOut s s' t'.wakes f := by
    intro j u f hj hu hf
    obtain ⟨p, hp⟩ := (h.ok j u hu).exists_future hf
    obtain ⟨hp', hout⟩ := hothers f p (h.future_ne hi hu hj hf) hp
    exact ⟨hp'.trans hp.symm, hout⟩
  refine ⟨hsys, ?_, ?_, ?_⟩
  · intro j u hu
    rw [getElem?_set_of_some hi] at hu
    split at hu
    · cases hu
      exact hok
    · rename_i hj
      exact (h.ok j u hu).frame fun f hf => hkept j u f hj hu hf
  · -- No two tasks have the same future, and a new one has a number that nobody has.
    rw [attr_set future hi]
    cases hf : t'.future with
    | none => exact h.own.update_none i
    | some f =>
      refine h.own.update_some fun j hj hjf => ?_
      obtain ⟨u, hu, huf⟩ := Option.bind_eq_some_iff.mp hjf
      rcases hfut f hf with hsame | hnew
      · exact h.future_ne hi hu hj huf hsame
      · obtain ⟨p, hp⟩ := (h.ok j u hu).exists_future huf
        have := (List.getElem?_eq_some_iff.mp hp).1
        omega
  · -- A suspended loop whose slot was granted has its waker with some task.
    intro j u f w e hu hl he hk
    rw [getElem?_set_of_some hi] at hu
    split at hu
    · cases hu
      exact hsusp f w e hl he hk
    · rename_i hj
      obtain ⟨-, hout⟩ := hkept j u f hj hu (by rw [future, hl]; rfl)
      rcases hout with hsame | ⟨waker, kind, -, hwas, -, hw⟩
      · exact mem_set_of_wakes hi ht (h.woken j u f w e hu hl (hsame ▸ he) hk)
      · -- The slot is granted in this step, and it was queued with `w`.
        have hok := h.ok j u hu
        rw [hl] at hok
        obtain ⟨-, -, e₀, he₀, hwaker⟩ := hok
        rw [hwas] at he₀
        cases he₀
        exact ⟨t', mem_set_of_some hi t', hw w (hwaker rfl)⟩

/-- A step of a loop keeps the pool tended. -/
theorem tended_listenAt [Target] {s s' : State} {tasks tasks' : List (Task β)}
    (h : Tended s tasks) {i : Nat} {e : Listen.Event}
    (hs : listenAt s tasks i e = some (s', tasks')) : Tended s' tasks' := by
  unfold listenAt at hs
  split at hs
  · rename_i work listen hi
    obtain ⟨⟨s₁, l', ws⟩, hstep, heq⟩ := Option.map_eq_some_iff.mp hs
    cases heq
    obtain ⟨a, ha⟩ := h.system
    have hspec := Listen.step_spec ha (h.ok i _ hi) hstep
    refine h.replace hi rfl hspec.system hspec.ok hspec.future hspec.others ?_
    intro f w e hl he hk
    obtain ⟨waker, hslot⟩ := hspec.suspended f w hl
    rw [he] at hslot
    cases hslot
    exact absurd rfl hk
  · cases hs

/-- A broadcast keeps the pool tended. -/
theorem tended_broadcastAt [Target] {s s' : State} {tasks tasks' : List (Task β)}
    (h : Tended s tasks) {i : Nat} {work : β}
    (hs : broadcastAt s tasks i work = some (s', tasks')) : Tended s' tasks' := by
  unfold broadcastAt at hs
  split at hs
  · rename_i work' listen hi
    obtain ⟨⟨s₁, ws⟩, hissue, heq⟩ := Option.map_eq_some_iff.mp hs
    cases heq
    obtain ⟨a, ha⟩ := h.system
    have hothers : ∀ (j : Nat) p, s.futures[j]? = some p →
        s'.futures[j]? = some p ∧ HandsOut s s' ws j :=
      fun j p hp => issue_others ha hissue hp (by simp [Action.actor])
    -- The task that broadcasts has a loop of its own, which is one of those granted.
    have hown : ∀ f, listen.future = some f →
        s'.futures[f]? = s.futures[f]? ∧ HandsOut s s' ws f := by
      intro f hf
      obtain ⟨p, hp⟩ := (h.ok i _ hi).exists_future hf
      exact ⟨(hothers f p hp).1.trans hp.symm, (hothers f p hp).2⟩
    refine h.replace hi rfl (issue_inv ha hissue) ((h.ok i _ hi).frame hown)
      (fun f hf => .inl hf) (fun j p _ hp => hothers j p hp) ?_
    -- The task's own loop is granted as every other is.
    intro f w e hl he hk
    have hfut : listen.future = some f := by rw [show listen = _ from hl]; rfl
    rcases (hown f hfut).2 with hsame | ⟨waker, kind, -, hwas, -, hw⟩
    · exact mem_set_of_wakes hi rfl (h.woken i _ f w e hi hl (hsame ▸ he) hk)
    · have hok := h.ok i _ hi
      rw [show listen = _ from hl] at hok
      obtain ⟨-, -, e₀, he₀, hwaker⟩ := hok
      rw [hwas] at he₀
      cases he₀
      exact ⟨_, mem_set_of_some hi _, hw w (hwaker rfl)⟩
  · cases hs

/-- A client's own step keeps the pool tended, when it keeps the loop or starts one. -/
theorem tended_workAt {s : State} {tasks tasks' : List (Task β)} (h : Tended s tasks) {i : Nat}
    {t : Task β} {work : β} {listen : Listen} (hi : tasks[i]? = some t)
    (hl : listen = t.listen ∨ listen = .create ∨ listen = .left)
    (hs : workAt tasks i work listen = some tasks') : Tended s tasks' := by
  unfold workAt at hs
  split at hs
  · rename_i work' listen' hi'
    rw [hi] at hi'
    cases hi'
    cases hs
    refine h.replace hi rfl h.system ?_ ?_ (fun j p _ hp => ⟨hp, .inl rfl⟩) ?_
    · rcases hl with rfl | rfl | rfl
      · have hok := h.ok i _ hi
        exact hok
      · trivial
      · trivial
    · rcases hl with rfl | rfl | rfl
      · exact fun f hf => .inl hf
      · intro f hf
        cases hf
      · intro f hf
        cases hf
    · intro f w e hsusp he hk
      rcases hl with rfl | rfl | rfl
      · exact mem_set_of_wakes hi rfl (h.woken i _ f w e hi hsusp he hk)
      · cases hsusp
      · cases hsusp
  · cases hs

/-- A new task keeps the pool tended. -/
theorem tended_push {s : State} {tasks : List (Task β)} (h : Tended s tasks) (work : β) :
    Tended s (tasks ++ [{ work, listen := .left, wakes := [] }]) := by
  refine ⟨h.system, ?_, ?_, ?_⟩
  · intro i t ht
    rcases getElem?_append_singleton ht with ht | ⟨-, rfl⟩
    · exact h.ok i t ht
    · trivial
  · rw [attr_append_of_none future tasks (by rfl)]
    exact h.own
  · intro i t f w e ht hl he hk
    rcases getElem?_append_singleton ht with ht | ⟨-, rfl⟩
    · obtain ⟨u, hu, hw⟩ := h.woken i t f w e ht hl he hk
      exact ⟨u, List.mem_append_left _ hu, hw⟩
    · cases hl

/-- A wake says nothing about the future of a loop. -/
theorem wake_future (w : Waker) (l : Listen) :
    (l.wake w).future = l.future ∧ (l.wake w).awaits = l.awaits := by
  cases l <;> exact ⟨rfl, rfl⟩

/-- A loop that is woken stays as it is in the `Notify`. -/
theorem wake_ok {s : State} {l : Listen} (h : l.Ok s) (w : Waker) : (l.wake w).Ok s := by
  cases l <;> exact h

/-- The task that issued a wake, and the wake it issued. -/
theorem wakeAt_eq {tasks tasks' : List (Task β)} {i : Nat} (hs : wakeAt tasks i = some tasks') :
    ∃ work listen w ws, tasks[i]? = some { work, listen, wakes := w :: ws } ∧
      ∀ j : Nat, tasks'[j]? = (tasks.set i { work, listen, wakes := ws })[j]?.map
        fun t : Task β => { t with listen := t.listen.wake w } := by
  unfold wakeAt at hs
  split at hs
  · rename_i work listen w ws hi
    cases hs
    exact ⟨work, listen, w, ws, hi, fun j => List.getElem?_map⟩
  · cases hs

/-- A task after a wake, and the task it was before. -/
theorem wakeAt_task {tasks tasks' : List (Task β)} {i : Nat} (hs : wakeAt tasks i = some tasks')
    {j : Nat} {t' : Task β} (hj : tasks'[j]? = some t') :
    ∃ t w, tasks[j]? = some t ∧ t'.work = t.work ∧ t'.listen = t.listen.wake w := by
  obtain ⟨work, listen, w, ws, hi, heq⟩ := wakeAt_eq hs
  rw [heq, getElem?_set_of_some hi] at hj
  split at hj
  · rename_i hji
    cases hj
    rw [hji]
    exact ⟨_, w, hi, rfl, rfl⟩
  · obtain ⟨t, ht, rfl⟩ := Option.map_eq_some_iff.mp hj
    exact ⟨t, w, ht, rfl, rfl⟩

/-- A wake keeps the pool tended: the loops it does not mark have other wakers. -/
theorem tended_wakeAt {s : State} {tasks tasks' : List (Task β)} (h : Tended s tasks) {i : Nat}
    (hs : wakeAt tasks i = some tasks') : Tended s tasks' := by
  refine ⟨h.system, ?_, ?_, ?_⟩
  · -- A wake marks loops and moves none.
    intro j t' hj
    obtain ⟨t, w, ht, -, hl⟩ := wakeAt_task hs hj
    rw [hl]
    exact wake_ok (h.ok j t ht) w
  · intro j k f hj hk
    obtain ⟨tj, htj, hfj⟩ := Option.bind_eq_some_iff.mp hj
    obtain ⟨tk, htk, hfk⟩ := Option.bind_eq_some_iff.mp hk
    obtain ⟨uj, wj, huj, -, hlj⟩ := wakeAt_task hs htj
    obtain ⟨uk, wk, huk, -, hlk⟩ := wakeAt_task hs htk
    rw [future, hlj, (wake_future _ _).1] at hfj
    rw [future, hlk, (wake_future _ _).1] at hfk
    exact h.own j k f ((attr_of_some future huj).trans hfj) ((attr_of_some future huk).trans hfk)
  · intro j t' f w e hj hl he hk
    obtain ⟨work, listen, w₀, ws, hi, heq⟩ := wakeAt_eq hs
    -- The loop was suspended with `w`, and the wake of `w₀` did not mark it.
    have hold : ∃ t, tasks[j]? = some t ∧ t.listen = .suspended f w false ∧ w ≠ w₀ := by
      have hwas : ∀ l : Listen, l.wake w₀ = .suspended f w false →
          l = .suspended f w false ∧ w ≠ w₀ := by
        intro l hl
        cases l with
        | suspended x y woken =>
          simp only [Listen.wake, Listen.suspended.injEq, Bool.or_eq_false_iff,
            decide_eq_false_iff_not] at hl
          obtain ⟨rfl, rfl, rfl, hne⟩ := hl
          exact ⟨rfl, hne⟩
        | _ => cases hl
      rw [heq, getElem?_set_of_some hi] at hj
      split at hj
      · rename_i hji
        cases hj
        obtain ⟨hl, hne⟩ := hwas listen hl
        exact ⟨_, hji ▸ hi, hl, hne⟩
      · obtain ⟨t, ht, rfl⟩ := Option.map_eq_some_iff.mp hj
        obtain ⟨hl, hne⟩ := hwas t.listen hl
        exact ⟨t, ht, hl, hne⟩
    obtain ⟨t, ht, hlt, hne⟩ := hold
    obtain ⟨u, hu, hw⟩ := h.woken j t f w e ht hlt he hk
    obtain ⟨k, hk⟩ := List.getElem?_of_mem hu
    have hset := heq k
    rw [getElem?_set_of_some hi] at hset
    by_cases hki : k = i
    · -- The task that issued `w₀` holds `w` behind it.
      rw [hki, hi] at hk
      cases hk
      rw [if_pos hki] at hset
      refine ⟨_, List.mem_of_getElem? hset, ?_⟩
      simpa [hne] using hw
    · rw [if_neg hki, hk] at hset
      exact ⟨_, List.mem_of_getElem? hset, hw⟩

/-! ### What the client keeps

The client's own states are the pool `tasks.map Task.work`. -/

/-- A step of a loop is none of the client's. -/
theorem listenAt_works [Target] {s s' : State} {tasks tasks' : List (Task β)} {i : Nat}
    {e : Listen.Event} (hs : listenAt s tasks i e = some (s', tasks')) :
    tasks'.map work = tasks.map work := by
  unfold listenAt at hs
  split at hs
  · rename_i w listen hi
    obtain ⟨⟨s₁, l', ws⟩, -, heq⟩ := Option.map_eq_some_iff.mp hs
    cases heq
    rw [List.map_set]
    exact set_eq_self (by rw [List.getElem?_map, hi]; rfl)
  · cases hs

/-- Neither is a wake. -/
theorem wakeAt_works {tasks tasks' : List (Task β)} {i : Nat}
    (hs : wakeAt tasks i = some tasks') : tasks'.map work = tasks.map work := by
  obtain ⟨w, listen, waker, ws, hi, heq⟩ := wakeAt_eq hs
  refine List.ext_getElem? fun j => ?_
  rw [List.getElem?_map, List.getElem?_map, heq, getElem?_set_of_some hi]
  split
  · rename_i hj
    rw [hj, hi]
    rfl
  · rw [Option.map_map]
    rfl

/-- A broadcast moves the client's state of one task. -/
theorem broadcastAt_works [Target] {s s' : State} {tasks tasks' : List (Task β)} {i : Nat}
    {w : β} (hs : broadcastAt s tasks i w = some (s', tasks')) :
    tasks'.map work = (tasks.map work).set i w := by
  unfold broadcastAt at hs
  split at hs
  · obtain ⟨⟨s₁, ws⟩, -, heq⟩ := Option.map_eq_some_iff.mp hs
    cases heq
    rw [List.map_set]
  · cases hs

/-- A client's own step moves its state of one task. -/
theorem workAt_works {tasks tasks' : List (Task β)} {i : Nat} {w : β} {listen : Listen}
    (hs : workAt tasks i w listen = some tasks') :
    tasks'.map work = (tasks.map work).set i w := by
  unfold workAt at hs
  split at hs
  · cases hs
    rw [List.map_set]
  · cases hs

/-- The task after a client's own step. -/
theorem workAt_task {tasks tasks' : List (Task β)} {i : Nat} {w : β} {listen : Listen}
    (hs : workAt tasks i w listen = some tasks') {j : Nat} {t' : Task β}
    (hj : tasks'[j]? = some t') :
    j = i ∧ t' = { work := w, listen, wakes := [] } ∨ j ≠ i ∧ tasks[j]? = some t' := by
  unfold workAt at hs
  split at hs
  · rename_i w' listen' hi
    cases hs
    rw [getElem?_set_of_some hi] at hj
    split at hj
    · rename_i hji
      cases hj
      exact .inl ⟨hji, rfl⟩
    · rename_i hji
      exact .inr ⟨hji, hj⟩
  · cases hs

/-- The task after a broadcast. -/
theorem broadcastAt_task [Target] {s s' : State} {tasks tasks' : List (Task β)} {i : Nat} {w : β}
    (hs : broadcastAt s tasks i w = some (s', tasks')) {j : Nat} {t' : Task β}
    (hj : tasks'[j]? = some t') :
    (∃ t, j = i ∧ tasks[j]? = some t ∧ t'.work = w ∧ t'.listen = t.listen) ∨
      j ≠ i ∧ tasks[j]? = some t' := by
  unfold broadcastAt at hs
  split at hs
  · rename_i w' listen hi
    obtain ⟨⟨s₁, ws⟩, -, heq⟩ := Option.map_eq_some_iff.mp hs
    cases heq
    rw [getElem?_set_of_some hi] at hj
    split at hj
    · rename_i hji
      cases hj
      rw [hji]
      exact .inl ⟨_, rfl, hi, rfl, rfl⟩
    · rename_i hji
      exact .inr ⟨hji, hj⟩
  · cases hs

/-! ### Attention -/

/-- The tasks after a step of a loop. A task is attentive only if it was, or if it has just
passed its check, and its loop is left only if it was, or if its check or a drop ended it. -/
theorem listenAt_task [Target] {s s' : State} {tasks tasks' : List (Task β)}
    (h : Tended s tasks) {i j : Nat} {e : Listen.Event} {t' : Task β}
    (hs : listenAt s tasks i e = some (s', tasks')) (hj : tasks'[j]? = some t') :
    ∃ t, tasks[j]? = some t ∧ t'.work = t.work ∧ (t.listen = .left → t'.listen = .left) ∧
      (t'.listen.out = true → t.listen.out = true ∨ j = i ∧ (e = .leave ∨ e = .cancel)) ∧
      (t'.listen.Attentive s' → t.listen.Attentive s ∨ j = i ∧ e = .pass) := by
  unfold listenAt at hs
  split at hs
  · rename_i work listen hi
    obtain ⟨⟨s₁, l', ws⟩, hstep, heq⟩ := Option.map_eq_some_iff.mp hs
    cases heq
    obtain ⟨a, ha⟩ := h.system
    have hspec := Listen.step_spec ha (h.ok i _ hi) hstep
    rw [getElem?_set_of_some hi] at hj
    -- The step is that of task `j` itself, or of another one.
    split at hj
    · rename_i hji
      cases hj
      rw [hji]
      refine ⟨_, hi, rfl, ?_, ?_, ?_⟩
      · intro hleft
        rw [show listen = .left from hleft] at hstep
        cases e <;> cases hstep
      · intro hout
        rcases Listen.step_out hstep hout with h | h
        · exact .inl h
        · exact .inr ⟨rfl, h⟩
      · intro hatt
        rcases hspec.attentive hatt with h | h
        · exact .inl h
        · exact .inr ⟨rfl, h⟩
    · -- A task that did not move is attentive only if it was. The step hands its slot out or leaves
      -- it.
      rename_i hji
      refine ⟨t', hj, rfl, id, .inl, fun hatt => .inl ?_⟩
      refine Listen.Attentive.of_handsOut hatt (w := ws) fun f hf => ?_
      have hf := Listen.future_of_awaits hf
      obtain ⟨p, hp⟩ := (h.ok j t' hj).exists_future hf
      exact (hspec.others f p (h.future_ne hi hj hji hf) hp).2
  · cases hs

/-- The tasks that do not take the step of a loop stay as they are. -/
theorem listenAt_other [Target] {s s' : State} {tasks tasks' : List (Task β)} {i j : Nat}
    {e : Listen.Event} {t' : Task β} (hs : listenAt s tasks i e = some (s', tasks'))
    (hji : j ≠ i) (hj : tasks'[j]? = some t') : tasks[j]? = some t' := by
  unfold listenAt at hs
  split at hs
  · rename_i w listen hi
    obtain ⟨⟨s₁, l', ws⟩, -, heq⟩ := Option.map_eq_some_iff.mp hs
    cases heq
    rwa [getElem?_set_of_some hi, if_neg hji] at hj
  · cases hs

/-- After a broadcast, nobody is attentive. -/
theorem not_attentive_broadcastAt [Target] {s s' : State} {tasks tasks' : List (Task β)}
    (h : Tended s tasks) {i : Nat} {work : β}
    (hs : broadcastAt s tasks i work = some (s', tasks')) (l : Listen) : ¬ l.Attentive s' := by
  rintro ⟨f, -, waker, hslot⟩
  unfold broadcastAt at hs
  split at hs
  · obtain ⟨⟨s₁, ws⟩, hissue, heq⟩ := Option.map_eq_some_iff.mp hs
    cases heq
    obtain ⟨a, ha⟩ := h.system
    obtain ⟨s₂, hstep, rfl, -⟩ := issue_step hissue
    -- A slot that is live after a broadcast was live before it, and it is granted.
    have hbefore : ∃ e, slot s f = some e := by
      obtain ⟨q, hg, hr⟩ := Notify.notifyWaiters_queue ha.notify.repr
      simp only [NotifySystem.step, hg, Option.some.injEq] at hstep
      subst hstep
      rw [slot_eq hr] at hslot
      obtain ⟨id, hid, he⟩ := Option.bind_eq_some_iff.mp hslot
      have hlive := (ha.notify.repr.grantAll_live id).not.mp (by simp [he])
      obtain ⟨e, he⟩ := Option.ne_none_iff_exists'.mp hlive
      refine ⟨e, ?_⟩
      rw [slot_eq ha.notify.repr, show attr Party.token s.futures f = some id from hid]
      exact he
    obtain ⟨e, he⟩ := hbefore
    obtain ⟨e', he', hk'⟩ := broadcast_slot (ha.with_wakes []) hstep he
    have hsame : slot s₂ f = some ⟨.queued, waker⟩ := hslot
    rw [hsame] at he'
    cases he'
    exact hk' rfl
  · cases hs

/-- A wake makes nobody attentive, and it ends no loop. -/
theorem attentive_wakeAt {s : State} {tasks tasks' : List (Task β)} {i j : Nat} {t' : Task β}
    (hs : wakeAt tasks i = some tasks') (hj : tasks'[j]? = some t') :
    ∃ t, tasks[j]? = some t ∧ t'.work = t.work ∧ (t.listen = .left → t'.listen = .left) ∧
      (t'.listen.out = true → t.listen.out = true) ∧
      (t'.listen.Attentive s → t.listen.Attentive s) := by
  obtain ⟨t, w, ht, hw, hl⟩ := wakeAt_task hs hj
  refine ⟨t, ht, hw, ?_, ?_, ?_⟩
  · intro hleft
    rw [hl, hleft]
    rfl
  · intro hout
    rw [hl] at hout
    cases h : t.listen <;> rw [h] at hout <;> exact hout
  · rintro ⟨f, hf, hslot⟩
    rw [hl, (wake_future _ _).2] at hf
    exact ⟨f, hf, hslot⟩

/-- A suspended loop whose waker was not called is attentive, or its waker is about to be
called. -/
theorem Tended.suspended_cases {s : State} {tasks : List (Task β)} (h : Tended s tasks) {i : Nat}
    {t : Task β} {f : Nat} {w : Waker} (hi : tasks[i]? = some t)
    (hl : t.listen = .suspended f w false) :
    t.listen.Attentive s ∨ ∃ u ∈ tasks, w ∈ u.wakes := by
  have hok := h.ok i t hi
  rw [hl] at hok ⊢
  obtain ⟨n, -, ⟨kind, waker⟩, he, -⟩ := hok
  by_cases hk : kind = .queued
  · subst hk
    exact .inl ⟨f, rfl, waker, he⟩
  · exact .inr (h.woken i t f w _ hi hl he hk)

end Task

end Nagoya.Sync
