import Nagoya.Lib.Fair
import Nagoya.Proofs.Reactor.TaskSet
import Mathlib.Data.List.Nodup
import Mathlib.Data.List.Perm.Subperm

/-!
# `Nagoya.Proofs.Reactor.TaskSetDriven`: a task that was woken is polled

A wake links its task and then wakes whoever drives the set. On a path that is fair to this wake,
to the owner and to the executor, the walk that starts next ends. By the invariant of the chain the
task is polled in it, or has finished.

Three things come to an end: a walk, for the rest of the chain that it took gets shorter
(`walk_ends`); a push, for every exchange that gets in front of its own puts another slot on the
chain (`push_ends`); and the time in which a woken executor does not poll (`polls`).
-/

set_option autoImplicit false

namespace Nagoya.Reactor

open Nagoya.Lib
open Lts.Path

namespace TaskSet

/-! ### What the steps leave -/

/-- The parts of the state that a step of a wake leaves. -/
structure Besides (s s' : State) : Prop where
  owner : s'.owner = s.owner
  walks : s'.walks = s.walks
  length : s'.slots.length = s.slots.length
  left : s'.left = s.left
  parent : s'.parent = s.parent ∨ s'.parent = none

/-- A step of the linking loop leaves what is not linked. -/
theorem besides_linkStep (s : State) (index : Nat) (spurious : Bool) (pc : LinkPc) :
    Besides s (linkStep s index spurious pc).1 := by
  have hsame := sameParties_linkStep s index spurious pc
  have hrest : (linkStep s index spurious pc).1.walks = s.walks ∧
      ((linkStep s index spurious pc).1.parent = s.parent ∨
        (linkStep s index spurious pc).1.parent = none) := by
    cases pc with
    | load => exact ⟨rfl, .inl rfl⟩
    | store head =>
      refine ⟨modify_walks .., .inl ?_⟩
      simp only [linkStep, State.modify]
      split <;> rfl
    | exchange head =>
      simp only [linkStep]
      split
      · refine ⟨modify_walks .., .inl ?_⟩
        simp only [State.modify]
        split <;> rfl
      · exact ⟨rfl, .inl rfl⟩
    | wakeParent => exact ⟨rfl, .inr rfl⟩
    | done => exact ⟨rfl, .inl rfl⟩
  exact ⟨hsame.owner, hrest.1, hsame.length, hsame.left, hrest.2⟩

/-- A step of a wake leaves the owner where it is. -/
theorem besides_of_wake {s s' : State} {act : Action} (hact : act.ofWake = true)
    (hs : step s act = some s') : Besides s s' := by
  cases act with
  | push | poll _ | advance _ _ => cases hact
  | wake i =>
    simp only [step] at hs
    split at hs
    · cases hs
    · have hmodify : Besides s (s.modify i fun slot =>
          { slot with queued := true, wokenSinceClear := true, wokenSincePoll := true }) := by
        refine ⟨modify_owner .., modify_walks .., modify_length .., modify_left .., .inl ?_⟩
        unfold State.modify
        split <;> rfl
      split at hs <;> cases hs
      · exact hmodify
      · exact ⟨hmodify.owner, hmodify.walks, hmodify.length, hmodify.left, hmodify.parent⟩
  | link k spurious =>
    simp only [step] at hs
    split at hs
    · cases hs
    · rename_i linker _
      split at hs
      · cases hs
      · cases hs
        have h := besides_linkStep s linker.index spurious linker.pc
        exact ⟨h.owner, h.walks, h.length, h.left, h.parent⟩

/-- A slot stays, and so do the records of its links. -/
def Grows (s s' : State) : Prop :=
  ∀ (i : Nat) (slot : Slot), s.slots[i]? = some slot →
    ∃ slot' : Slot, s'.slots[i]? = some slot' ∧ ∀ n ∈ slot.links, n ∈ slot'.links

theorem Grows.of_slots {s s' : State} (h : s'.slots = s.slots) : Grows s s' := by
  intro i slot hi
  exact ⟨slot, by rw [h]; exact hi, fun _ => id⟩

theorem Grows.congr {s t u : State} (h : Grows s t) (hslots : u.slots = t.slots) : Grows s u := by
  intro i slot hi
  rw [hslots]
  exact h i slot hi

/-- A change to one slot that keeps the records of its links. -/
theorem Grows.modify {s s' : State} {j : Nat} {f : Slot → Slot} (h : s'.slots = s.slots)
    (hf : ∀ slot, ∀ n ∈ slot.links, n ∈ (f slot).links) : Grows s (s'.modify j f) := by
  intro i slot hi
  rw [← h] at hi
  unfold State.modify
  split
  · rename_i slot' hj
    by_cases hij : j = i
    · subst hij
      cases hi.symm.trans hj
      refine ⟨f slot, ?_, hf slot⟩
      rw [List.getElem?_set_self (List.getElem?_eq_some_iff.mp hi).1]
    · exact ⟨slot, by rw [List.getElem?_set_ne hij]; exact hi, fun _ => id⟩
  · exact ⟨slot, hi, fun _ => id⟩

/-- A link adds to the records of its slot at most. -/
theorem grows_linkStep (s : State) (index : Nat) (spurious : Bool) (pc : LinkPc) :
    Grows s (linkStep s index spurious pc).1 := by
  cases pc with
  | load | wakeParent | done => exact .of_slots rfl
  | store head => exact .modify rfl fun _ _ => id
  | exchange head =>
    simp only [linkStep]
    split
    · exact .modify rfl fun _ _ hn => List.mem_append_left _ hn
    · exact .of_slots rfl

/-- Every step keeps the records of the links. -/
theorem grows {s s' : State} {act : Action} (hs : step s act = some s') : Grows s s' := by
  cases act with
  | push =>
    simp only [step] at hs
    split at hs
    · split at hs <;> cases hs
      · intro i slot hi
        refine ⟨slot, ?_, fun _ => id⟩
        rw [List.getElem?_append_left (List.getElem?_eq_some_iff.mp hi).1]
        exact hi
      · exact .of_slots rfl
    · cases hs
  | poll waker =>
    simp only [step] at hs
    split at hs
    · split at hs <;> cases hs <;> exact .of_slots rfl
    · cases hs
  | wake i =>
    simp only [step] at hs
    split at hs
    · cases hs
    · have hmodify : Grows s (s.modify i fun slot =>
          { slot with queued := true, wokenSinceClear := true, wokenSincePoll := true }) :=
        .modify rfl fun _ _ => id
      split at hs <;> cases hs <;> exact hmodify.congr rfl
  | link k spurious =>
    simp only [step] at hs
    split at hs
    · cases hs
    · rename_i linker _
      split at hs
      · cases hs
      · cases hs
        exact (grows_linkStep s linker.index spurious linker.pc).congr rfl
  | advance spurious taskReady =>
    simp only [step, advance] at hs
    split at hs
    · cases hs
    · cases hs
    · rename_i index pc _
      have h := grows_linkStep s index spurious pc
      split at hs <;> rename_i hlink <;> rw [hlink] at h <;> cases hs <;> exact h.congr rfl
    · cases hs
      exact .of_slots rfl
    · cases hs
      exact .of_slots rfl
    · split at hs
      · cases hs
        exact .of_slots rfl
      · split at hs <;> cases hs <;> exact .of_slots rfl
    · cases hs
      exact .modify rfl fun _ _ => id
    · split at hs
      · cases hs
      · split at hs <;> cases hs
        · exact .modify rfl fun _ _ => id
        · exact .of_slots rfl
    · split at hs <;> cases hs
      · exact .modify rfl fun _ _ => id
      · exact .of_slots rfl

/-- A step of the owner adds no slot. -/
theorem length_of_advance {s s' : State} {spurious taskReady : Bool}
    (hs : advance s spurious taskReady = some s') : s'.slots.length = s.slots.length := by
  unfold advance at hs
  split at hs
  · cases hs
  · cases hs
  · rename_i index pc _
    have h := (sameParties_linkStep s index spurious pc).length
    split at hs <;> rename_i hlink <;> rw [hlink] at h <;> cases hs <;> exact h
  · cases hs
    rfl
  · cases hs
    rfl
  · split at hs
    · cases hs
      rfl
    · split at hs <;> cases hs <;> rfl
  · cases hs
    exact modify_length ..
  · split at hs
    · cases hs
    · split at hs <;> cases hs
      · exact modify_length ..
      · rfl
  · split at hs <;> cases hs
    · exact modify_length ..
    · rfl

/-! ### The executor -/

/-- What a turn does: a step of the set, which does not end in a panic. -/
structure Turned (d : Driven) (t : Turn) (d' : Driven) (act : Action) : Prop where
  step : TaskSet.step d.set act = some d'.set
  few : d'.set.slots.length < chainEnd
  label : t = .act act ∨ ∃ waker, t = .due waker ∧ act = .poll waker
  spare : d'.spare ≤ d.spare
  spurious : act.spurious = true → d'.spare < d.spare

/-- A turn is a step of the set, or a poll that is due. -/
theorem turned {d d' : Driven} {t : Turn} (hfew : d.set.slots.length < chainEnd)
    (hs : turn d t = some d') : ∃ act, Turned d t d' act := by
  cases t with
  | due waker =>
    simp only [turn, Option.ite_none_right_eq_some, Option.bind_eq_bind, Option.bind_eq_some_iff,
      Option.some.injEq] at hs
    obtain ⟨-, set, hset, rfl⟩ := hs
    refine ⟨.poll waker, hset, ?_, .inr ⟨waker, rfl, rfl⟩, Nat.le_refl _, by simp [Action.spurious]⟩
    simp only [step] at hset
    split at hset
    · split at hset <;> cases hset <;> exact hfew
    · cases hset
  | act act =>
    simp only [turn, Option.ite_none_left_eq_some, Option.bind_eq_bind, Option.bind_eq_some_iff,
      Option.ite_none_right_eq_some, Option.some.injEq] at hs
    obtain ⟨hspare, set, hset, hlen, rfl⟩ := hs
    refine ⟨act, hset, hlen, .inl rfl, ?_, ?_⟩
    · show (if act.spurious then d.spare - 1 else d.spare) ≤ d.spare
      split <;> omega
    · intro hspurious
      show (if act.spurious then d.spare - 1 else d.spare) < d.spare
      rw [if_pos hspurious]
      have hne : d.spare ≠ 0 := fun hzero => hspare ⟨hspurious, hzero⟩
      omega

/-- The step begins a call of the owner. -/
def Action.ofCall : Action → Bool
  | .push | .poll _ => true
  | _ => false

/-- The owner makes one call at a time. -/
theorem idle_of_call {s s' : State} {act : Action} (hs : step s act = some s')
    (hact : act.ofCall = true) : s.owner = .idle := by
  cases act with
  | push | poll _ =>
    simp only [step] at hs
    split at hs
    · rename_i howner
      exact howner
    · cases hs
  | advance _ _ | wake _ | link _ _ => cases hact

/-- The invariant of a driven set. -/
structure DrivenInv (d : Driven) : Prop where
  inv : ∃ H R, Inv d.set H R
  few : d.set.slots.length < chainEnd
  fine : d.set.owner ≠ .panicked

/-- Only a push into a full set panics. -/
theorem not_panicked {s s' : State} {act : Action} (hs : step s act = some s')
    (hfew : s'.slots.length < chainEnd) (hfine : s.owner ≠ .panicked) : s'.owner ≠ .panicked := by
  cases act with
  | push =>
    simp only [step] at hs
    split at hs
    · split at hs <;> cases hs
      · simp
      · rename_i hlarge
        -- The check of the size fails only when the set is full.
        simp only [chainEnd] at hfew
        omega
    · cases hs
  | poll waker =>
    simp only [step] at hs
    split at hs
    · rename_i howner
      split at hs <;> cases hs
      · simp
      · rw [howner]
        simp
    · cases hs
  | wake i =>
    rw [(besides_of_wake (by rfl) hs).owner]
    exact hfine
  | link k spurious =>
    rw [(besides_of_wake (by rfl) hs).owner]
    exact hfine
  | advance spurious taskReady =>
    simp only [step, advance] at hs
    split at hs
    · cases hs
    · cases hs
    · split at hs <;> cases hs <;> simp
    · cases hs
      simp
    · cases hs
      simp
    · split at hs
      · cases hs
        simp
      · split at hs <;> cases hs <;> simp
    · cases hs
      simp
    · split at hs
      · cases hs
      · split at hs <;> cases hs <;> simp
    · split at hs <;> cases hs <;> simp

/-- The invariant of the set holds in every turn. -/
theorem drivenInv_of_reachable {d : Driven} (hr : driven.Reachable d) : DrivenInv d := by
  refine hr.invariant (P := DrivenInv) ?_ ?_
  · intro d (h0 : d.set = new)
    refine ⟨⟨[], [], by rw [h0]; exact inv_init _ rfl⟩, ?_, ?_⟩
    · rw [h0]
      decide
    · rw [h0]
      simp [new]
  · rintro d t d' ⟨⟨H, R, h⟩, hfew, hfine⟩ hs
    obtain ⟨act, hturned⟩ := turned hfew hs
    obtain ⟨H', R', h', -⟩ := step_inv h hturned.step hturned.few.le
    exact ⟨⟨H', R', h'⟩, hturned.few, not_panicked hturned.step hturned.few hfine⟩

/-- The step is the owner's, and no exchange fails spuriously in it. -/
def ofOwner (t : Turn) : Prop := ∃ taskReady, t = .act (.advance false taskReady)

/-- The step is a poll that the executor owes. -/
def ofExecutor (t : Turn) : Prop := ∃ waker, t = .due waker

/-- An owner that is not idle has a next step. -/
theorem owner_enabled {d : Driven} (h : DrivenInv d) (hbusy : d.set.owner ≠ .idle) :
    driven.Enabled ofOwner d := by
  obtain ⟨⟨H, R, hinv⟩, hfew, hfine⟩ := h
  obtain ⟨s', hs'⟩ : ∃ s', advance d.set false false = some s' := by
    have howner := hinv.owner
    unfold advance
    cases ho : d.set.owner with
    | idle => exact absurd ho hbusy
    | panicked => exact absurd ho hfine
    | push index pc =>
      simp only
      split <;> exact ⟨_, rfl⟩
    | register waker | take | clear index following => exact ⟨_, rfl⟩
    | next cursor =>
      simp only
      split
      · exact ⟨_, rfl⟩
      · split <;> exact ⟨_, rfl⟩
    | poll index following =>
      rw [ho] at howner
      simp only [List.getElem?_eq_getElem howner.1]
      split <;> exact ⟨_, rfl⟩
    | polling index following => exact ⟨_, rfl⟩
  refine ⟨.act (.advance false false), ⟨false, rfl⟩, ?_⟩
  have hlen : s'.slots.length < chainEnd := by
    rw [length_of_advance hs']
    exact hfew
  show (turn d (.act (.advance false false))).isSome = true
  simp [turn, Action.spurious, step, hs', hlen]

/-! ### A walk ends -/

/-- How many steps a walk may still take. -/
def walkRank (R : List Nat) : OwnerPc → Nat
  | .clear _ _ => 4 * R.length + 3
  | .poll _ _ => 4 * R.length + 2
  | .polling _ _ => 4 * R.length + 1
  | _ => 4 * R.length

/-- The walk ends, or it goes on and has less to do. -/
theorem Inv.walk_step {s s' : State} {H R : List Nat} (h : Inv s H R)
    (hw : s.owner.walking = true) {spurious taskReady : Bool}
    (hs : advance s spurious taskReady = some s') :
    s'.walks = s.walks ∧ s'.parent = s.parent ∧
      (s'.owner = .idle ∨ s'.owner.walking = true ∧
        ∃ H' R', Inv s' H' R' ∧ walkRank R' s'.owner < walkRank R s.owner) := by
  unfold advance at hs
  cases howner : s.owner with
  | idle | panicked | push _ _ | register _ | take => simp [howner, OwnerPc.walking] at hw
  | next cursor =>
    simp only [howner] at hs
    split at hs
    · cases hs
      exact ⟨rfl, rfl, .inl rfl⟩
    · rename_i hne
      split at hs
      · cases hs
        exact ⟨rfl, rfl, .inl rfl⟩
      · rename_i slot hi
        cases hs
        -- The slot is the first of the rest, which gets shorter.
        obtain ⟨T, rfl, hinv⟩ := inv_enter h howner hne hi
        refine ⟨rfl, rfl, .inr ⟨rfl, H, T, hinv, ?_⟩⟩
        simp only [walkRank, List.length_cons]
        omega
  | clear index following =>
    simp only [howner, Option.some.injEq] at hs
    subst hs
    refine ⟨modify_walks .., ?_, .inr ⟨by simp [OwnerPc.walking], H, R, inv_clear h howner, ?_⟩⟩
    · simp only [State.modify]
      split <;> rfl
    · simp [walkRank]
  | poll index following =>
    simp only [howner] at hs
    split at hs
    · cases hs
    · rename_i slot hi
      split at hs
      · rename_i hf
        cases hs
        refine ⟨modify_walks .., ?_, .inr ⟨by simp [OwnerPc.walking], H, R,
          inv_poll h howner hi hf, ?_⟩⟩
        · simp only [State.modify]
          split <;> rfl
        · simp [walkRank]
      · rename_i hf
        cases hs
        refine ⟨rfl, rfl, .inr ⟨rfl, H, R, inv_skip h howner hi (by simpa using hf), ?_⟩⟩
        simp [walkRank]
  | polling index following =>
    simp only [howner] at hs
    split at hs <;> cases hs
    · refine ⟨modify_walks .., ?_, .inr ⟨by simp [OwnerPc.walking], H, R, inv_finish h howner, ?_⟩⟩
      · simp only [State.modify]
        split <;> rfl
      · simp [walkRank]
    · refine ⟨rfl, rfl, .inr ⟨rfl, H, R, ?_, ?_⟩⟩
      · -- The task is pending.
        exact h.turn (by rw [howner]; rfl) (by rw [howner]; rfl) (by rw [howner]; rfl)
          (by simp [howner, OwnerPc.linking]) (by simp [OwnerPc.linking]) trivial
          fun r hr => absurd hr (h.not_ready (by simp [howner]) r)
      · simp [walkRank]

variable {ρ : driven.Path}

/-- A walk comes to its end. As long as it goes on, nobody registers a waker. -/
theorem walk_ends (fair : ρ.WeakFair ofOwner) (w : Nat) (woken : Prop) :
    ρ.LeadsTo
      (fun d => d.set.owner.walking = true ∧ d.set.walks = w ∧ (woken → d.set.parent = none))
      (fun d => d.set.owner = .idle ∧ d.set.walks = w ∧ (woken → d.set.parent = none)) := by
  let P (n : Nat) (d : Driven) : Prop :=
    d.set.owner.walking = true ∧ d.set.walks = w ∧ (woken → d.set.parent = none) ∧
      ∃ H R, Inv d.set H R ∧ walkRank R d.set.owner = n
  -- The rest of the walk gets shorter with every step of the owner, and stays in every other.
  have hwalk : ∀ n, ρ.LeadsTo (P n)
      (fun d => d.set.owner = .idle ∧ d.set.walks = w ∧ (woken → d.set.parent = none)) := by
    refine leadsTo_of_place fair ?_ ?_
    · rintro n d t d' hr ⟨hw, rfl, hparent, H, R, hinv, rfl⟩ hs
      have hd := drivenInv_of_reachable hr
      obtain ⟨act, hturned⟩ := turned hd.few hs
      have hbusy : d.set.owner ≠ .idle := by
        intro hidle
        rw [hidle] at hw
        cases hw
      cases act with
      | push | poll _ => exact absurd (idle_of_call hturned.step rfl) hbusy
      | wake _ | link _ _ =>
        right
        have hstep := hturned.step
        have hbeside := besides_of_wake (by rfl) hstep
        obtain ⟨H', R', hinv', hkeep⟩ := step_inv hinv hstep hturned.few.le
        obtain ⟨rfl, howner, -⟩ := hkeep rfl
        refine ⟨_, ⟨by rw [howner]; exact hw, hbeside.walks, ?_, H', R', hinv', rfl⟩, ?_, ?_⟩
        · intro hwoken
          rcases hbeside.parent with heq | hnone
          · rw [heq, hparent hwoken]
          · exact hnone
        · rw [howner]
        · rintro ⟨taskReady, rfl⟩
          rcases hturned.label with hlabel | ⟨waker, hlabel, -⟩ <;> cases hlabel
      | advance spurious taskReady =>
        obtain ⟨hwalks, hpar, hidle | ⟨hw', H', R', hinv', hlt⟩⟩ :=
          hinv.walk_step hw hturned.step
        · exact .inl ⟨hidle, hwalks, fun hwoken => by rw [hpar, hparent hwoken]⟩
        · exact .inr ⟨_, ⟨hw', hwalks, fun hwoken => by rw [hpar, hparent hwoken], H', R', hinv',
            rfl⟩, hlt.le, fun _ => hlt⟩
    · rintro n d hr ⟨hw, -⟩
      refine .inr (owner_enabled (drivenInv_of_reachable hr) fun hidle => ?_)
      rw [hidle] at hw
      cases hw
  rintro n ⟨hw, hwalks, hparent⟩
  obtain ⟨H, R, hinv⟩ := (drivenInv_of_reachable (ρ.reachable n)).inv
  exact hwalk _ n ⟨hw, hwalks, hparent, H, R, hinv, rfl⟩

/-! ### A push ends -/

/-- How many steps a push may still take, when nobody else changes the head. A link that is not the
head has to be stored again. -/
def pushRank (head : Nat) : LinkPc → Nat
  | .load => 3
  | .store link => if link = head then 2 else 5
  | .exchange link => if link = head then 1 else 4
  | _ => 0

theorem pushRank_le (head : Nat) (pc : LinkPc) : pushRank head pc ≤ 5 := by
  cases pc <;> simp only [pushRank] <;> first | omega | (split <;> omega)

/-- The list says what the head is. -/
theorem Inv.head_eq {s s' : State} {H R R' : List Nat} (h : Inv s H R) (h' : Inv s' H R') :
    s'.head = s.head := by
  have hchain := h.core.head
  have hchain' := h'.core.head
  cases H with
  | nil =>
    rw [show s.head = chainEnd from hchain]
    exact hchain'
  | cons i rest => rw [hchain.1, hchain'.1]

/-- No slot is on the chain twice. -/
theorem Inv.length_head {s : State} {H R : List Nat} (h : Inv s H R) :
    H.length ≤ s.slots.length := by
  have hlt : ∀ i ∈ H, i < s.slots.length := fun i hi =>
    h.core.lt_of_mem (by simp [hi])
  have hnodup : H.Nodup := by
    rw [List.nodup_iff_count_le_one]
    intro i
    by_cases hi : i ∈ H
    · have hsize := hlt i hi
      have hplace := h.core.place i _ (List.getElem?_eq_getElem hsize)
      have hq := Bool.toNat_le s.slots[i].queued
      omega
    · rw [List.count_eq_zero.mpr hi]
      exact Nat.zero_le 1
  have hsub : H ⊆ List.range s.slots.length := fun i hi => List.mem_range.mpr (hlt i hi)
  have hlen := (hnodup.subperm hsub).length_le
  rwa [List.length_range] at hlen

/-- The push ends, or it goes on and has less to do. An exchange that fails spuriously is made
again. -/
theorem Inv.push_step {s s' : State} {H R : List Nat} (h : Inv s H R) {index : Nat} {pc : LinkPc}
    (howner : s.owner = .push index pc) {spurious taskReady : Bool}
    (hs : advance s spurious taskReady = some s') :
    s'.walks = s.walks ∧ s'.parent = s.parent ∧
      (s'.owner = .idle ∨ ∃ pc', s'.owner = .push index pc' ∧ (∃ H', (H' = H ∨ H' = index :: H) ∧
        Inv s' H' R) ∧ pushRank s'.head pc' ≤ pushRank s.head pc + (if spurious then 1 else 0) ∧
        (spurious = false → pushRank s'.head pc' < pushRank s.head pc)) := by
  have hlinking : pc.linking = true := by
    have := h.owner
    rw [howner] at this
    exact this.2
  simp only [advance, howner] at hs
  cases pc with
  | wakeParent | done => cases hlinking
  | load =>
    have hlink : linkStep s index spurious .load = (s, .store s.head) := rfl
    have hinv := inv_pushStep h howner hlink rfl
    cases hs
    refine ⟨rfl, rfl, .inr ⟨_, rfl, hinv, ?_, fun _ => ?_⟩⟩
    · simp only [pushRank, if_true]
      omega
    · simp [pushRank]
  | store head =>
    have hlink : linkStep s index spurious (.store head) =
        (s.modify index fun slot => { slot with next := head }, .exchange head) := rfl
    have hinv := inv_pushStep h howner hlink rfl
    cases hs
    refine ⟨modify_walks .., ?_, .inr ⟨_, rfl, hinv, ?_, fun _ => ?_⟩⟩
    · simp only [State.modify]
      split <;> rfl
    · simp only [pushRank, modify_head]
      split <;> omega
    · simp only [pushRank, modify_head]
      split <;> omega
  | exchange head =>
    by_cases hwins : s.head = head ∧ spurious = false
    · simp only [linkStep, if_pos hwins, Option.some.injEq] at hs
      subst hs
      refine ⟨modify_walks .., ?_, .inl rfl⟩
      simp only [State.modify]
      split <;> rfl
    · -- The exchange fails by chance, or because the head has moved, and the push begins again.
      have hlink : linkStep s index spurious (.exchange head) = (s, .store s.head) := by
        simp only [linkStep, if_neg hwins]
      have hinv := inv_pushStep h howner hlink rfl
      rw [hlink] at hs
      cases hs
      refine ⟨rfl, rfl, .inr ⟨_, rfl, hinv, ?_, fun hweak => ?_⟩⟩
      · by_cases hhead : head = s.head
        · have hspurious : spurious = true := by
            cases spurious with
            | true => rfl
            | false => exact absurd ⟨hhead.symm, rfl⟩ hwins
          simp [pushRank, hhead, hspurious]
        · simp only [pushRank, if_true, if_neg hhead]
          omega
      · have hne : head ≠ s.head := fun heq => hwins ⟨heq.symm, hweak⟩
        simp [pushRank, hne]

/-- A push comes to its end. -/
theorem push_ends (fair : ρ.WeakFair ofOwner) (w length : Nat) :
    ρ.LeadsTo
      (fun d => (∃ index pc, d.set.owner = .push index pc) ∧ d.set.walks = w ∧
        d.set.parent = none ∧ d.set.slots.length = length)
      (fun d => d.set.owner = .idle ∧ d.set.walks = w ∧ d.set.parent = none ∧
        d.set.slots.length = length) := by
  -- An exchange that gets in front puts a slot on the chain, and there are `length` slots.
  let P (n : Nat) (d : Driven) : Prop :=
    ∃ index pc H R, d.set.owner = .push index pc ∧ d.set.walks = w ∧ d.set.parent = none ∧
      d.set.slots.length = length ∧ Inv d.set H R ∧
      6 * (length - H.length) + 2 * d.spare + pushRank d.set.head pc = n
  have hpush : ∀ n, ρ.LeadsTo (P n)
      (fun d => d.set.owner = .idle ∧ d.set.walks = w ∧ d.set.parent = none ∧
        d.set.slots.length = length) := by
    refine leadsTo_of_place fair ?_ ?_
    · rintro n d t d' hr ⟨index, pc, H, R, howner, rfl, hparent, rfl, hinv, rfl⟩ hs
      have hd := drivenInv_of_reachable hr
      obtain ⟨act, hturned⟩ := turned hd.few hs
      have hspare := hturned.spare
      cases act with
      | push | poll _ =>
        have hidle := idle_of_call hturned.step rfl
        rw [howner] at hidle
        cases hidle
      | wake _ | link _ _ =>
        right
        have hstep := hturned.step
        have hbeside := besides_of_wake (by rfl) hstep
        obtain ⟨H', R', hinv', hkeep⟩ := step_inv hinv hstep hturned.few.le
        obtain ⟨-, howner', hhead⟩ := hkeep rfl
        have hparent' : d'.set.parent = none := by
          rcases hbeside.parent with heq | hnone
          · rw [heq, hparent]
          · exact hnone
        refine ⟨_, ⟨index, pc, H', R', by rw [howner', howner], hbeside.walks, hparent',
          hbeside.length, hinv', rfl⟩, ?_, ?_⟩
        · have hlen := hinv'.length_head
          rw [hbeside.length] at hlen
          rcases hhead with rfl | ⟨i, rfl⟩
          · rw [hinv.head_eq hinv']
            omega
          · -- A slot more on the chain outweighs a link that has to be stored again.
            have hle := pushRank_le d'.set.head pc
            rw [List.length_cons] at hlen ⊢
            omega
        · rintro ⟨taskReady, rfl⟩
          rcases hturned.label with hlabel | ⟨waker, hlabel, -⟩ <;> cases hlabel
      | advance spurious taskReady =>
        have hlength := length_of_advance hturned.step
        obtain ⟨hwalks, hpar, hidle | ⟨pc', howner', ⟨H', hhead, hinv'⟩, hle, hlt⟩⟩ :=
          hinv.push_step howner hturned.step
        · exact .inl ⟨hidle, hwalks, by rw [hpar, hparent], hlength⟩
        · have hmore : H.length ≤ H'.length := by
            rcases hhead with rfl | rfl
            · exact Nat.le_refl _
            · exact Nat.le_succ _
          refine .inr ⟨_, ⟨index, pc', H', R, howner', hwalks, by rw [hpar, hparent], hlength,
            hinv', rfl⟩, ?_, ?_⟩
          · have hcost := hturned.spurious
            simp only [Action.spurious] at hcost
            cases spurious with
            | false =>
              simp only [Bool.false_eq_true, if_false] at hle
              omega
            | true =>
              have := hcost rfl
              simp only [if_true] at hle
              omega
          · rintro ⟨taskReady', rfl⟩
            rcases hturned.label with hlabel | ⟨waker, hlabel, -⟩ <;> cases hlabel
            have := hlt rfl
            omega
    · rintro n d hr ⟨index, pc, H, R, howner, -⟩
      refine .inr (owner_enabled (drivenInv_of_reachable hr) ?_)
      rw [howner]
      simp
  rintro n ⟨⟨index, pc, howner⟩, hwalks, hparent, hlength⟩
  obtain ⟨H, R, hinv⟩ := (drivenInv_of_reachable (ρ.reachable n)).inv
  exact hpush _ n ⟨index, pc, H, R, howner, hwalks, hparent, hlength, hinv, rfl⟩

/-! ### A woken executor polls -/

/-- The owner has been called to poll, and has not taken the chain yet. -/
def OwnerPc.called : OwnerPc → Bool
  | .register _ | .take => true
  | _ => false

/-- A poll that was begun takes the chain. -/
theorem takes (fair : ρ.WeakFair ofOwner) (w : Nat) :
    ρ.LeadsTo (fun d => d.set.owner.called = true ∧ d.set.walks = w)
      (fun d => d.set.owner.walking = true ∧ d.set.walks = w + 1) := by
  -- The waker is registered, and then the chain is taken.
  let rank (d : Driven) : Nat := if d.set.owner = .take then 0 else 1
  have hstep : ∀ d t d', driven.Reachable d →
      d.set.owner.called = true ∧ d.set.walks = w → driven.next d t = some d' →
      (d'.set.owner.walking = true ∧ d'.set.walks = w + 1) ∨
        (d'.set.owner.called = true ∧ d'.set.walks = w) ∧ rank d' ≤ rank d ∧
          (ofOwner t → rank d' < rank d) := by
    rintro d t d' hr ⟨hcalled, rfl⟩ hs
    obtain ⟨act, hturned⟩ := turned (drivenInv_of_reachable hr).few hs
    cases act with
    | push | poll _ =>
      have hidle := idle_of_call hturned.step rfl
      rw [hidle] at hcalled
      cases hcalled
    | wake _ | link _ _ =>
      right
      have hbeside := besides_of_wake (by rfl) hturned.step
      refine ⟨⟨by rw [hbeside.owner]; exact hcalled, hbeside.walks⟩, ?_, ?_⟩
      · simp only [rank, hbeside.owner, Nat.le_refl]
      · rintro ⟨taskReady, rfl⟩
        rcases hturned.label with hlabel | ⟨waker, hlabel, -⟩ <;> cases hlabel
    | advance spurious taskReady =>
      have hadvance : advance d.set spurious taskReady = some d'.set := hturned.step
      unfold advance at hadvance
      cases howner : d.set.owner with
      | register waker =>
        simp only [howner, Option.some.injEq] at hadvance
        right
        simp [← hadvance, OwnerPc.called, rank, howner]
      | take =>
        simp only [howner, Option.some.injEq] at hadvance
        left
        simp [← hadvance, OwnerPc.walking]
      | _ => simp [howner, OwnerPc.called] at hcalled
  refine leadsTo_of_rank rank fair ?_ ?_ ?_
  · exact fun d t d' hr hP hs => (hstep d t d' hr hP hs).imp id fun h => ⟨h.1, h.2.1⟩
  · exact fun d t d' hr hP ht hs => (hstep d t d' hr hP hs).imp id fun h => h.2.2 ht
  · rintro d hr ⟨hcalled, -⟩
    refine .inr (owner_enabled (drivenInv_of_reachable hr) fun hidle => ?_)
    rw [hidle] at hcalled
    cases hcalled

/-- An executor that has to poll polls, unless the owner pushes first. -/
theorem executes (fair : ρ.WeakFair ofExecutor) (w length : Nat) :
    ρ.LeadsTo
      (fun d => d.set.owner = .idle ∧ d.set.walks = w ∧ d.set.parent = none ∧
        d.set.slots.length = length ∧ 0 < d.set.left)
      (fun d => (d.set.owner.called = true ∧ d.set.walks = w) ∨
        (∃ index pc, d.set.owner = .push index pc) ∧ d.set.walks = w ∧ d.set.parent = none ∧
          d.set.slots.length = length + 1) := by
  -- A set that has a task left was pushed to.
  have hshared : ∀ d, driven.Reachable d → 0 < d.set.left → d.set.shared = true := by
    intro d hr hleft
    obtain ⟨H, R, hinv⟩ := (drivenInv_of_reachable hr).inv
    by_contra hnot
    have hnone := hinv.shared (by simpa using hnot)
    rw [hinv.left, hnone] at hleft
    cases hleft
  have hstep : ∀ d t d', driven.Reachable d →
      (d.set.owner = .idle ∧ d.set.walks = w ∧ d.set.parent = none ∧
        d.set.slots.length = length ∧ 0 < d.set.left) → driven.next d t = some d' →
      ((d'.set.owner.called = true ∧ d'.set.walks = w) ∨
        (∃ index pc, d'.set.owner = .push index pc) ∧ d'.set.walks = w ∧ d'.set.parent = none ∧
          d'.set.slots.length = length + 1) ∨
      (d'.set.owner = .idle ∧ d'.set.walks = w ∧ d'.set.parent = none ∧
        d'.set.slots.length = length ∧ 0 < d'.set.left) ∧ ¬ofExecutor t := by
    rintro d t d' hr ⟨hidle, rfl, hparent, rfl, hleft⟩ hs
    obtain ⟨act, hturned⟩ := turned (drivenInv_of_reachable hr).few hs
    have hstep := hturned.step
    cases act with
    | push =>
      left
      right
      simp only [step, hidle] at hstep
      split at hstep
      · rw [← Option.some.inj hstep]
        exact ⟨⟨_, _, rfl⟩, rfl, hparent, by simp⟩
      · have hfew := hturned.few
        rw [← Option.some.inj hstep] at hfew
        simp only [chainEnd] at hfew
        omega
    | poll waker =>
      left
      left
      simp only [step, hidle, hshared d hr hleft, if_true, Option.some.injEq] at hstep
      rw [← hstep]
      exact ⟨rfl, rfl⟩
    | wake _ | link _ _ =>
      right
      have hbeside := besides_of_wake (by rfl) hstep
      refine ⟨⟨by rw [hbeside.owner, hidle], hbeside.walks, ?_, hbeside.length, ?_⟩, ?_⟩
      · rcases hbeside.parent with heq | hnone
        · rw [heq, hparent]
        · exact hnone
      · rw [hbeside.left]
        exact hleft
      · rintro ⟨waker, rfl⟩
        rcases hturned.label with hlabel | ⟨waker', -, hlabel⟩ <;> cases hlabel
    | advance spurious taskReady => simp [step, advance, hidle] at hstep
  refine leadsTo_of_step fair ?_ ?_ ?_
  · exact fun d t d' hr hP hs => (hstep d t d' hr hP hs).imp id And.left
  · exact fun d t d' hr hP ht hs => (hstep d t d' hr hP hs).resolve_right fun h => h.2 ht
  · rintro d hr ⟨hidle, -, hparent, -, hleft⟩
    right
    refine ⟨.due 0, ⟨0, rfl⟩, ?_⟩
    show (turn d (.due 0)).isSome = true
    simp [turn, hparent, hleft, step, hidle, hshared d hr hleft]

/-! ### Every wake -/

/-- The slot `i` was linked when `m` walks had started. -/
def Linked (m i : Nat) (d : Driven) : Prop :=
  ∃ slot, d.set.slots[i]? = some slot ∧ m ∈ slot.links

/-- The task `i` was polled in the walk after the first `m`, or it has finished. -/
def Polled (m i : Nat) (d : Driven) : Prop :=
  ∃ slot, d.set.slots[i]? = some slot ∧ (m + 1 ∈ slot.polls ∨ slot.finished.isSome = true)

theorem linked_stable (m i : Nat) (d : Driven) (t : Turn) (d' : Driven) (hr : driven.Reachable d)
    (h : Linked m i d) (hs : driven.next d t = some d') : Linked m i d' := by
  obtain ⟨act, hturned⟩ := turned (drivenInv_of_reachable hr).few hs
  obtain ⟨slot, hi, hm⟩ := h
  obtain ⟨slot', hi', hkeep⟩ := grows hturned.step i slot hi
  exact ⟨slot', hi', hkeep m hm⟩

/-- When the next walk has ended, the task was polled in it. -/
theorem polled_of_ended {d : Driven} (hd : DrivenInv d) {m i : Nat} (h : Linked m i d)
    (hended : m < walksEnded d.set) : Polled m i d := by
  obtain ⟨⟨H, R, hinv⟩, -, -⟩ := hd
  obtain ⟨slot, hi, hm⟩ := h
  refine ⟨slot, hi, (hinv.core.polled_after_link hi hm hended).imp id ?_⟩
  rintro ⟨n, -, hfinished⟩
  rw [hfinished]
  rfl

/-- When no future is left, the task has finished. -/
theorem polled_of_finished {d : Driven} (hd : DrivenInv d) {m i : Nat} (h : Linked m i d)
    (hleft : d.set.left = 0) : Polled m i d := by
  obtain ⟨⟨H, R, hinv⟩, -, -⟩ := hd
  obtain ⟨slot, hi, -⟩ := h
  refine ⟨slot, hi, .inr ?_⟩
  have hle := le_tally (fun slot : Slot => slot.future.toNat) hi
  have hfuture := (hinv.core.slot i slot hi).future
  rw [← hinv.left, hleft] at hle
  cases hf : slot.finished with
  | some n => rfl
  | none =>
    rw [hf] at hfuture
    rw [hfuture] at hle
    cases hle

/-- A poll that was begun polls what was linked before. -/
theorem called_leadsTo_polled (fair : ρ.WeakFair ofOwner) (m i : Nat) :
    ρ.LeadsTo (fun d => (d.set.owner.called = true ∧ d.set.walks = m) ∧ Linked m i d)
      (Polled m i) := by
  refine (((takes fair m).trans fun n hwalk => ?_).and_stable (linked_stable m i)).trans
    (leadsTo_of_imp (P := fun d => (d.set.owner = .idle ∧ d.set.walks = m + 1 ∧
      (False → d.set.parent = none)) ∧ Linked m i d) ?_)
  · exact walk_ends fair (m + 1) False n ⟨hwalk.1, hwalk.2, False.elim⟩
  · rintro d hr ⟨⟨hidle, hwalks, -⟩, hlinked⟩
    refine polled_of_ended (drivenInv_of_reachable hr) hlinked ?_
    simp only [walksEnded, hidle, OwnerPc.walking, Bool.false_eq_true, if_false, hwalks]
    omega

/-- While the executor has to poll, what was linked is polled. The induction is on the pushes that
the owner may still make first. -/
theorem idle_leadsTo_polled (fowner : ρ.WeakFair ofOwner) (fexecutor : ρ.WeakFair ofExecutor)
    (m i : Nat) (length : Nat) :
    ρ.LeadsTo (fun d => (d.set.owner = .idle ∧ d.set.walks = m ∧ d.set.parent = none ∧
      d.set.slots.length = length) ∧ Linked m i d) (Polled m i) := by
  suffices h : ∀ more length, chainEnd - length ≤ more →
      ρ.LeadsTo (fun d => (d.set.owner = .idle ∧ d.set.walks = m ∧ d.set.parent = none ∧
        d.set.slots.length = length) ∧ Linked m i d) (Polled m i) from h _ length (Nat.le_refl _)
  intro more
  induction more with
  | zero =>
    rintro length hmore n ⟨⟨-, -, -, hlength⟩, -⟩
    have hfew := (drivenInv_of_reachable (ρ.reachable n)).few
    omega
  | succ more ih =>
    rintro length hmore n ⟨⟨hidle, hwalks, hparent, hlength⟩, hlinked⟩
    have hd := drivenInv_of_reachable (ρ.reachable n)
    by_cases hleft : (ρ.state n).set.left = 0
    · exact ⟨n, Nat.le_refl n, polled_of_finished hd hlinked hleft⟩
    · obtain ⟨k, hk, hcalled | hpush, hlinked⟩ :=
        ((executes fexecutor m length).and_stable (linked_stable m i)) n
          ⟨⟨hidle, hwalks, hparent, hlength, Nat.pos_of_ne_zero hleft⟩, hlinked⟩
      · obtain ⟨l, hl, hp⟩ := called_leadsTo_polled fowner m i k ⟨hcalled, hlinked⟩
        exact ⟨l, Nat.le_trans hk hl, hp⟩
      · have hfew := (drivenInv_of_reachable (ρ.reachable n)).few
        obtain ⟨l, hl, hp⟩ := (((push_ends fowner m (length + 1)).and_stable
          (linked_stable m i)).trans (ih (length + 1) (by omega))) k ⟨hpush, hlinked⟩
        exact ⟨l, Nat.le_trans hk hl, hp⟩

/-- When the executor was woken, what was linked is polled. -/
theorem woken_leadsTo_polled (fowner : ρ.WeakFair ofOwner) (fexecutor : ρ.WeakFair ofExecutor)
    (m i : Nat) :
    ρ.LeadsTo (fun d => d.set.parent = none ∧ Linked m i d) (Polled m i) := by
  rintro n ⟨hparent, hlinked⟩
  have hd := drivenInv_of_reachable (ρ.reachable n)
  obtain ⟨⟨H, R, hinv⟩, -, hfine⟩ := id hd
  have hle : m ≤ (ρ.state n).set.walks := by
    obtain ⟨slot, hi, hm⟩ := hlinked
    exact ((hinv.core.slot i slot hi).links m hm).1
  have hidle := idle_leadsTo_polled fowner fexecutor m i
  by_cases hwalking : (ρ.state n).set.owner.walking = true
  · obtain ⟨k, hk, ⟨howner, hwalks, hnone⟩, hlinked⟩ :=
      ((walk_ends fowner _ True).and_stable (linked_stable m i)) n
        ⟨⟨hwalking, rfl, fun _ => hparent⟩, hlinked⟩
    rcases Nat.lt_or_eq_of_le hle with hlt | heq
    · -- The next walk was going on already.
      refine ⟨k, hk, polled_of_ended (drivenInv_of_reachable (ρ.reachable k)) hlinked ?_⟩
      simp only [walksEnded, howner, OwnerPc.walking, Bool.false_eq_true, if_false, hwalks]
      exact hlt
    · obtain ⟨l, hl, hp⟩ := hidle _ k ⟨⟨howner, hwalks.trans heq.symm, hnone trivial, rfl⟩, hlinked⟩
      exact ⟨l, Nat.le_trans hk hl, hp⟩
  · rcases Nat.lt_or_eq_of_le hle with hlt | heq
    · refine ⟨n, Nat.le_refl n, polled_of_ended hd hlinked ?_⟩
      rw [walksEnded, if_neg hwalking]
      exact hlt
    · cases howner : (ρ.state n).set.owner with
      | idle => exact hidle _ n ⟨⟨howner, heq.symm, hparent, rfl⟩, hlinked⟩
      | push index pc =>
        exact (((push_ends fowner m _).and_stable (linked_stable m i)).trans (hidle _)) n
          ⟨⟨⟨index, pc, howner⟩, heq.symm, hparent, rfl⟩, hlinked⟩
      | register waker | take =>
        exact called_leadsTo_polled fowner m i n ⟨⟨by rw [howner]; rfl, heq.symm⟩, hlinked⟩
      | panicked => exact absurd howner hfine
      | _ => simp [howner, OwnerPc.walking] at hwalking

/-- The step is one of the wake `k`. -/
def ofWake (k : Nat) (t : Turn) : Prop := t = .act (.link k false)

/-- A wake stays where it is until its own step. Its last step wakes the executor. -/
theorem linker_kept {s s' : State} {act : Action} {k i : Nat}
    (hk : s.linkers[k]? = some ⟨i, .wakeParent⟩) (hs : step s act = some s') :
    s'.linkers[k]? = some ⟨i, .wakeParent⟩ ∧ (∀ spurious, act ≠ .link k spurious) ∨
      s'.parent = none := by
  have hsame : ∀ {t : State}, t.linkers = s.linkers → t.linkers[k]? = some ⟨i, .wakeParent⟩ := by
    intro t heq
    rw [heq]
    exact hk
  cases act with
  | push =>
    simp only [step] at hs
    split at hs
    · split at hs <;> cases hs <;> exact .inl ⟨hk, by simp⟩
    · cases hs
  | poll waker =>
    simp only [step] at hs
    split at hs
    · split at hs <;> cases hs <;> exact .inl ⟨hk, by simp⟩
    · cases hs
  | wake j =>
    simp only [step] at hs
    split at hs
    · cases hs
    · split at hs <;> cases hs
      · exact .inl ⟨hsame (modify_linkers ..), by simp⟩
      · refine .inl ⟨?_, by simp⟩
        rw [modify_linkers, List.getElem?_append_left (List.getElem?_eq_some_iff.mp hk).1]
        exact hk
  | link j spurious =>
    simp only [step] at hs
    split at hs
    · cases hs
    · rename_i linker hj
      by_cases hjk : j = k
      · -- This call wakes the parent, and takes its waker away.
        subst hjk
        cases hk.symm.trans hj
        cases hs
        exact .inr rfl
      · split at hs
        · cases hs
        · cases hs
          refine .inl ⟨?_, ?_⟩
          · show ((linkStep s linker.index spurious linker.pc).1.linkers.set j _)[k]? = _
            rw [linkStep_linkers, List.getElem?_set_ne hjk]
            exact hk
          · rintro _ ⟨⟩
            exact hjk rfl
  | advance spurious taskReady =>
    refine .inl ⟨?_, by simp⟩
    simp only [step, advance] at hs
    split at hs
    · cases hs
    · cases hs
    · rename_i index pc _
      have h := linkStep_linkers s index spurious pc
      split at hs <;> rename_i hlink <;> rw [hlink] at h <;> cases hs <;> exact hsame h
    · cases hs
      exact hk
    · cases hs
      exact hk
    · split at hs
      · cases hs
        exact hk
      · split at hs <;> cases hs <;> exact hk
    · cases hs
      exact hsame (modify_linkers ..)
    · split at hs
      · cases hs
      · split at hs <;> cases hs
        · exact hsame (modify_linkers ..)
        · exact hk
    · split at hs <;> cases hs
      · exact hsame (modify_linkers ..)
      · exact hk

/-- Every wake is followed by a poll. When a wake has linked its task, and the path is fair to its
last step, to the owner and to the executor, the task is polled in the first walk that starts after
the link, or it has finished, whatever is woken and pushed in between. -/
theorem wake_leadsTo_polled {k : Nat} (fwake : ρ.WeakFair (ofWake k))
    (fowner : ρ.WeakFair ofOwner) (fexecutor : ρ.WeakFair ofExecutor) (m i : Nat) :
    ρ.LeadsTo (fun d => d.set.linkers[k]? = some ⟨i, .wakeParent⟩ ∧ Linked m i d)
      (Polled m i) := by
  have hstep : ∀ d t d', driven.Reachable d → d.set.linkers[k]? = some ⟨i, .wakeParent⟩ →
      driven.next d t = some d' →
      d'.set.parent = none ∨ d'.set.linkers[k]? = some ⟨i, .wakeParent⟩ ∧ ¬ofWake k t := by
    intro d t d' hr hk hs
    obtain ⟨act, hturned⟩ := turned (drivenInv_of_reachable hr).few hs
    rcases linker_kept hk hturned.step with ⟨hk', hnot⟩ | hparent
    · refine .inr ⟨hk', ?_⟩
      rintro rfl
      rcases hturned.label with hlabel | ⟨waker, hlabel, -⟩ <;> cases hlabel
      exact hnot false rfl
    · exact .inl hparent
  have hwakes : ρ.LeadsTo (fun d => d.set.linkers[k]? = some ⟨i, .wakeParent⟩)
      (fun d => d.set.parent = none) := by
    refine leadsTo_of_step fwake ?_ ?_ ?_
    · exact fun d t d' hr hk hs => (hstep d t d' hr hk hs).imp id And.left
    · exact fun d t d' hr hk ht hs => (hstep d t d' hr hk hs).resolve_right fun h => h.2 ht
    · intro d hr hk
      have hfew := (drivenInv_of_reachable hr).few
      refine .inr ⟨.act (.link k false), rfl, ?_⟩
      show (turn d (.act (.link k false))).isSome = true
      simp [turn, Action.spurious, step, hk, linkStep, hfew]
  exact (hwakes.and_stable (linked_stable m i)).trans (woken_leadsTo_polled fowner fexecutor m i)

/-- One task is pushed and polled, is woken after that, and is polled again. -/
def wokenRun : List Turn :=
  [.act .push, .act (.advance false false), .act (.advance true false), .act (.advance true false),
    .act (.advance false false), .act (.advance false false),
    .due 7, .act (.advance false false), .act (.advance false false),
    .act (.advance false false), .act (.advance false false), .act (.advance false false),
    .act (.advance false false), .act (.advance false false),
    .act (.wake 0), .act (.link 0 false), .act (.link 0 false), .act (.link 0 false),
    .act (.link 0 false),
    .due 7, .act (.advance false false), .act (.advance false false),
    .act (.advance false false), .act (.advance false false), .act (.advance false false),
    .act (.advance false false), .act (.advance false false)]

/-- The second poll of that task is in the second walk. -/
theorem wake_leadsTo_polled_again :
    ∃ (ρ : driven.Path) (n m : Nat), n ≤ m ∧
      (ρ.state n).set.linkers = [⟨0, .wakeParent⟩] ∧ (ρ.state n).set.walks = 1 ∧
      Polled 1 0 (ρ.state m) := by
  obtain ⟨t, hrun, hquiet⟩ := Option.map_eq_some_iff.mp
    (show (driven.run ⟨new, 2⟩ wokenRun).map (fun d => decide (d.set.owner = .idle ∧
      d.set.parent = some 7 ∧ d.set.linkers = [⟨0, .done⟩])) = some true by decide)
  obtain ⟨s, hbefore, hlinked⟩ := Option.map_eq_some_iff.mp
    (show (driven.run ⟨new, 2⟩ (wokenRun.take 18)).map (fun d => decide
      (d.set.linkers = [⟨0, .wakeParent⟩] ∧ d.set.walks = 1 ∧
        (d.set.slots.map Slot.links) = [[0, 1]])) = some true by decide)
  obtain ⟨hidle, hparent, hdone⟩ := of_decide_eq_true hquiet
  obtain ⟨hlinkers, hwalks, hlinks⟩ := of_decide_eq_true hlinked
  have h0 : driven.init ⟨new, 2⟩ := rfl
  let ρ : driven.Path := Lts.Path.ofRun wokenRun h0 hrun
  have hs : ρ.state 18 = s := Lts.Path.state_ofRun hbefore
  -- Nobody has anything left to do at the end of the run, so its path is fair.
  have hwake : ρ.WeakFair (ofWake 0) := by
    refine fair_ofRun ?_
    rintro ⟨_, rfl, hen⟩
    simp [driven, turn, step, hdone] at hen
  have howner : ρ.WeakFair ofOwner := by
    refine fair_ofRun ?_
    rintro ⟨_, ⟨taskReady, rfl⟩, hen⟩
    simp [driven, turn, step, advance, hidle] at hen
  have hexecutor : ρ.WeakFair ofExecutor := by
    refine fair_ofRun ?_
    rintro ⟨_, ⟨waker, rfl⟩, hen⟩
    simp [driven, turn, hparent] at hen
  have hslot : Linked 1 0 s := by
    cases hslots : s.set.slots with
    | nil => simp [hslots] at hlinks
    | cons slot rest =>
      rw [hslots, List.map_cons, List.cons.injEq] at hlinks
      exact ⟨slot, by rw [hslots]; rfl, by rw [hlinks.1]; decide⟩
  obtain ⟨m, hm, hp⟩ := wake_leadsTo_polled hwake howner hexecutor 1 0 18
    (by rw [hs]; exact ⟨by rw [hlinkers]; rfl, hslot⟩)
  exact ⟨ρ, 18, m, hm, by rw [hs, hlinkers], by rw [hs, hwalks], hp⟩

end TaskSet

end Nagoya.Reactor
