import Nagoya.Sync.Tokens
import Nagoya.Proofs.Sync.WaitQueue

/-!
# `Nagoya.Proofs.Sync.Tokens`: the slab refines a FIFO queue

`Fifo` is the queue as its users think of it: a list of the ids that wait, oldest first, and for
each live id its kind and its waker. A registration without an id takes any id that is not live.
The label of a step carries that id, so the abstract system has no other choice to make.

The refinement is a forward simulation. `Represents` relates a state of the slab to a state of
`Fifo` with the same tokens and the same trace, so each run of the slab is a run of the abstract
queue with the same operations and the same answers. One lemma per operation says that it does
not panic and that the abstract operation matches it.
-/

set_option autoImplicit false

namespace Nagoya.Sync

open Nagoya.Lib

namespace Tokens

/-- The abstract queue, the token of each future, and the operations so far. -/
structure Fifo where
  queue : AbsQueue
  tokens : List (Option Nat)
  trace : List (Action × Answer)

/-- One abstract operation. `id` is the id of a new registration. -/
def Fifo.step (a : Fifo) (act : Action) (id : Nat) : Option Fifo :=
  match act with
  | .create => some { a with tokens := a.tokens ++ [none] }
  | .register i waker =>
    match a.tokens[i]? with
    | none => none
    | some token =>
      if token = some id ∨ token = none ∧ a.queue.entry id = none then
        some {
          queue := a.queue.register id waker
          tokens := a.tokens.set i (some id)
          trace := a.trace ++ [(act, .registered id)] }
      else none
  | .remove i =>
    match a.tokens[i]? with
    | none => none
    | some token =>
      some {
        queue := a.queue.forget token
        tokens := a.tokens.set i none
        trace := a.trace ++ [(act, .removed (token.bind a.queue.kind))] }
  | .grantOne =>
    some { a with
      queue := a.queue.wakeOne
      trace := a.trace ++ [(act, .granted (a.queue.fifo.head?.map a.queue.waker))] }
  | .grantAll =>
    some { a with
      queue := a.queue.grantAll
      trace := a.trace ++ [(act, .grantedAll (a.queue.fifo.filterMap a.queue.waker))] }

/-- The system of one abstract queue. -/
def fifo : Lts Fifo (Action × Nat) where
  init a := a = { queue := .empty, tokens := [], trace := [] }
  next a label := a.step label.1 label.2

/-- The slab represents the abstract queue, and the live ids are the tokens of the futures. -/
structure Represents (s : State) (a : Fifo) : Prop where
  queue : s.queue.Repr a.queue
  owned : Owned a.queue (attr id s.tokens)
  tokens : a.tokens = s.tokens
  trace : a.trace = s.trace

variable {s s' : State} {a : Fifo}

/-! ### The operations -/

/-- `register` gives a future without a token an id that is not live, and keeps the id of one
that has a token. -/
theorem Represents.register (h : Represents s a) {i : Nat} {token : Option Nat}
    (hi : s.tokens[i]? = some token) (waker : Option Waker) :
    ∃ s' id a', step s (.register i waker) = some s' ∧
      a.step (.register i waker) id = some a' ∧ Represents s' a' := by
  have hlive : ∀ id, token = some id → a.queue.entry id ≠ none := h.owned.live_at hi
  obtain ⟨q', id, old, hq, hid, hr, -⟩ := WaitQueue.register_spec h.queue hlive waker
  have hs : step s (.register i waker) = some {
      queue := q'
      tokens := s.tokens.set i (some id)
      trace := s.trace ++ [(.register i waker, .registered id)] } := by
    simp only [step, hi, hq, Option.map_some]
  have ha : a.step (.register i waker) id = some {
      queue := a.queue.register id waker
      tokens := a.tokens.set i (some id)
      trace := a.trace ++ [(.register i waker, .registered id)] } := by
    simp only [Fifo.step, h.tokens, hi, if_pos hid]
  refine ⟨_, id, _, hs, ha, ⟨hr, ?_, ?_, ?_⟩⟩
  · rw [attr_set _ hi]
    exact h.owned.register_at hi hid waker
  · simp only [h.tokens]
  · simp only [h.trace]

/-- `remove` takes the id wherever it is, and reports its kind. -/
theorem Represents.remove (h : Represents s a) {i : Nat} {token : Option Nat}
    (hi : s.tokens[i]? = some token) (id : Nat) :
    ∃ s' a', step s (.remove i) = some s' ∧ a.step (.remove i) id = some a' ∧
      Represents s' a' := by
  have hlive : ∀ id, token = some id → a.queue.entry id ≠ none := h.owned.live_at hi
  obtain ⟨q', removed, hq, hk, hr, -⟩ := WaitQueue.remove_spec h.queue hlive
  have hs : step s (.remove i) = some {
      queue := q'
      tokens := s.tokens.set i none
      trace := s.trace ++ [(.remove i, .removed (token.bind a.queue.kind))] } := by
    simp only [step, hi, hq, hk, Option.map_some]
  have ha : a.step (.remove i) id = some {
      queue := a.queue.forget token
      tokens := a.tokens.set i none
      trace := a.trace ++ [(.remove i, .removed (token.bind a.queue.kind))] } := by
    simp only [Fifo.step, h.tokens, hi]
  refine ⟨_, _, hs, ha, ⟨hr, ?_, ?_, ?_⟩⟩
  · rw [attr_set _ hi]
    exact h.owned.forget_at hi
  · simp only [h.tokens]
  · simp only [h.trace]

/-- `grant_one` pops the oldest id. -/
theorem Represents.grantOne (h : Represents s a) (id : Nat) :
    ∃ s' a', step s .grantOne = some s' ∧ a.step .grantOne id = some a' ∧ Represents s' a' := by
  cases hfifo : a.queue.fifo with
  | nil =>
    -- With nobody queued, neither of the two grants anything.
    have hwake : a.queue.wakeOne = a.queue := by simp [AbsQueue.wakeOne, hfifo]
    have hs : step s .grantOne =
        some { s with trace := s.trace ++ [(.grantOne, .granted none)] } := by
      simp only [step, WaitQueue.grantOne_nil h.queue hfifo, Option.map_some]
    have ha : a.step .grantOne id =
        some { a with trace := a.trace ++ [(.grantOne, .granted none)] } := by
      simp only [Fifo.step, hwake, hfifo, List.head?_nil, Option.map_none]
    exact ⟨_, _, hs, ha, ⟨h.queue, h.owned, h.tokens, by simp only [h.trace]⟩⟩
  -- The oldest id is granted by both, and its waker is the answer of both.
  | cons head rest =>
    obtain ⟨q', hq, hr, -⟩ := WaitQueue.grantOne_cons h.queue hfifo
    have hwake : a.queue.wakeOne = a.queue.grant head := by simp [AbsQueue.wakeOne, hfifo]
    have hs : step s .grantOne = some { s with
        queue := q'
        trace := s.trace ++ [(.grantOne, .granted (some (a.queue.waker head)))] } := by
      simp only [step, hq, Option.map_some]
    have ha : a.step .grantOne id = some { a with
        queue := a.queue.grant head
        trace := a.trace ++ [(.grantOne, .granted (some (a.queue.waker head)))] } := by
      simp only [Fifo.step, hwake, hfifo, List.head?_cons, Option.map_some]
    have hlive := h.queue.grant_live (show head ∈ a.queue.fifo by simp [hfifo])
    exact ⟨_, _, hs, ha, ⟨hr, h.owned.of_live hlive, h.tokens, by simp only [h.trace]⟩⟩

/-- `grant_all` drains the queue and returns the wakers that it held, oldest first. -/
theorem Represents.grantAll (h : Represents s a) (id : Nat) :
    ∃ s' a', step s .grantAll = some s' ∧ a.step .grantAll id = some a' ∧ Represents s' a' := by
  obtain ⟨q', hq, hr, -⟩ := WaitQueue.grantAll_spec h.queue
  have hs : step s .grantAll = some { s with
      queue := q'
      trace := s.trace ++ [(.grantAll, .grantedAll (a.queue.fifo.filterMap a.queue.waker))] } := by
    simp only [step, hq, Option.map_some]
  exact ⟨_, _, hs, rfl,
    ⟨hr, h.owned.of_live h.queue.grantAll_live, h.tokens, by simp only [h.trace]⟩⟩

/-! ### Runs -/

/-- An operation of a future that exists does not panic, and an abstract operation matches it. -/
theorem Represents.step (h : Represents s a) {act : Action} (hown : act.isOwn s = true) :
    ∃ s' id a', step s act = some s' ∧ a.step act id = some a' ∧ Represents s' a' := by
  -- Only `register` uses the id that the slab chooses.
  cases act with
  | create =>
    refine ⟨_, 0, _, rfl, rfl, ⟨h.queue, ?_, ?_, h.trace⟩⟩
    · show Owned _ (attr id (s.tokens ++ [none]))
      rw [attr_append_of_none id s.tokens rfl]
      exact h.owned
    · show a.tokens ++ [none] = s.tokens ++ [none]
      rw [h.tokens]
  | register i waker =>
    have hi : i < s.tokens.length := of_decide_eq_true hown
    exact h.register (List.getElem?_eq_getElem hi) waker
  | remove i =>
    have hi : i < s.tokens.length := of_decide_eq_true hown
    obtain ⟨s', a', hs, ha, hr⟩ := h.remove (List.getElem?_eq_getElem hi) 0
    exact ⟨s', 0, a', hs, ha, hr⟩
  | grantOne =>
    obtain ⟨s', a', hs, ha, hr⟩ := h.grantOne 0
    exact ⟨s', 0, a', hs, ha, hr⟩
  | grantAll =>
    obtain ⟨s', a', hs, ha, hr⟩ := h.grantAll 0
    exact ⟨s', 0, a', hs, ha, hr⟩

/-- A future that does not exist has no operation. -/
theorem isOwn_of_step {act : Action} (hs : Tokens.step s act = some s') :
    act.isOwn s = true := by
  cases act with
  | create => rfl
  | grantOne => rfl
  | grantAll => rfl
  | register i waker =>
    simp only [Tokens.step] at hs
    split at hs
    · cases hs
    · rename_i token hi
      exact decide_eq_true (List.getElem?_eq_some_iff.mp hi).1
  | remove i =>
    simp only [Tokens.step] at hs
    split at hs
    · cases hs
    · rename_i token hi
      exact decide_eq_true (List.getElem?_eq_some_iff.mp hi).1

/-- Every state of a run represents a state of a run of the abstract queue. -/
theorem reachable_represents (h : system.Reachable s) : ∃ a, fifo.Reachable a ∧ Represents s a := by
  refine h.simulate ?_ ?_
  · rintro s rfl
    exact ⟨_, rfl, WaitQueue.repr_new, Owned.empty, rfl, rfl⟩
  · intro s act s' a hr hn
    obtain ⟨s₁, id, a', hs, ha, hr'⟩ := hr.step (isOwn_of_step hn)
    have hsame : s₁ = s' := Option.some.inj (hs.symm.trans hn)
    exact ⟨(act, id), a', ha, hsame ▸ hr'⟩

/-- The slab refines a FIFO queue. Each state that a run reaches represents the state of a run of
the abstract queue with the same operations and the same answers. No two futures have the same
slot. An operation of a future that exists does not panic. A new registration takes a free slot,
and the vector grows only when no slot is free. -/
theorem slab_refines_fifo (h : system.Reachable s) :
    (∃ a, fifo.Reachable a ∧ s.queue.Repr a.queue ∧ a.tokens = s.tokens ∧ a.trace = s.trace) ∧
    (∀ i j id : Nat, s.tokens[i]? = some (some id) → s.tokens[j]? = some (some id) → i = j) ∧
    (∀ act, act.isOwn s = true → ∃ s', step s act = some s') ∧
    (∀ (i : Nat) waker s', s.tokens[i]? = some none → step s (.register i waker) = some s' →
      ∃ id, s'.tokens[i]? = some (some id) ∧
        ((∃ next, s.queue.slots[id]? = some (.free next)) ∧
            s'.queue.slots.length = s.queue.slots.length ∨
          (∀ (j : Nat) next, s.queue.slots[j]? ≠ some (.free next)) ∧
            id = s.queue.slots.length ∧
            s'.queue.slots.length = s.queue.slots.length + 1)) := by
  obtain ⟨a, hreach, hr⟩ := reachable_represents h
  refine ⟨⟨a, hreach, hr.queue, hr.tokens, hr.trace⟩, ?_, ?_, ?_⟩
  · intro i j id hi hj
    exact hr.owned.distinct i j id (attr_of_some _ hi) (attr_of_some _ hj)
  · intro act hown
    obtain ⟨s', id, a', hs, -, -⟩ := hr.step hown
    exact ⟨s', hs⟩
  · -- The slot of a new token comes from `register_none_slots`.
    intro i waker s' hi hs
    obtain ⟨hlt, -⟩ := List.getElem?_eq_some_iff.mp hi
    obtain ⟨q', id, old, hq, -⟩ := WaitQueue.register_none hr.queue waker
    simp only [step, hi, hq, Option.map_some, Option.some.injEq] at hs
    subst hs
    exact ⟨id, by simp [hlt], WaitQueue.register_none_slots hr.queue hq⟩

/-- Three futures register, the one in the middle is removed, the oldest is granted and registers
again behind the third. Then a fourth future takes the slot that is free. -/
theorem slab_refines_fifo_reuse :
    ∃ s s', system.Reachable s ∧ step s (.register 3 none) = some s' ∧
      s'.tokens[3]? = some (some 1) ∧ s'.queue.slots.length = s.queue.slots.length := by
  obtain ⟨s, hr, hp⟩ := Lts.Reachable.exists_of_run (M := system) (s := new)
    [.create, .create, .create, .create, .register 0 (some 7), .register 1 (some 8),
      .register 2 (some 9), .remove 1, .grantOne, .register 0 (some 7)]
    (fun s => s.queue.slots = [.live ⟨some 2, none, .queued, some 7⟩, .free none,
        .live ⟨none, some 0, .queued, some 9⟩] ∧ s.tokens = [some 0, none, some 2, none])
    rfl (by decide)
  obtain ⟨hslots, htokens⟩ : s.queue.slots = [.live ⟨some 2, none, .queued, some 7⟩, .free none,
      .live ⟨none, some 0, .queued, some 9⟩] ∧ s.tokens = [some 0, none, some 2, none] := by
    simpa using hp
  obtain ⟨-, -, hop, hslot⟩ := slab_refines_fifo hr
  obtain ⟨s', hs⟩ := hop (.register 3 none) (by simp [Action.isOwn, htokens])
  obtain ⟨id, hid, ⟨⟨next, hfree⟩, hlen⟩ | ⟨hnone, -⟩⟩ :=
    hslot 3 none s' (by simp [htokens]) hs
  · -- Only slot 1 is free.
    have hone : id = 1 := by
      rw [hslots] at hfree
      rcases id with - | - | - | id
      · cases hfree
      · rfl
      · cases hfree
      · simp at hfree
    exact ⟨s, s', hr, hs, hone ▸ hid, hlen⟩
  · exact absurd (show s.queue.slots[1]? = some (.free none) by rw [hslots]; rfl) (hnone 1 none)

end Tokens

end Nagoya.Sync
