import Nagoya.Proofs.Reactor.TaskSet

/-!
# `Nagoya.Proofs.Reactor.TaskSetPush`: the last index that a push may give out

`push` numbers a task by the length of the vector and checks that the number is a `u32`. The end
of the chain is a `u32`, too: `u32::MAX`. So the check lets one number through that is no index
for the chain.

A push is over when its exchange succeeds, and then `head` is the new index
(`Pushed.head_eq`). When that index is the end of the chain, every walk from `head` stops at
once. When it is not, the invariant of the chain carries the old entries over: the steps of a push
and of the wakes that come between them only put entries in front (`Inv.front`).
-/

set_option autoImplicit false

namespace Nagoya.Reactor

open Nagoya.Lib

namespace TaskSet

/-! ### One push -/

/-- The owner is in the middle of a push. -/
def OwnerPc.pushing : OwnerPc → Bool
  | .push _ _ => true
  | _ => false

/-- A push that starts in `s`, up to the end of the push. The wakes may take steps between its
own. -/
def pushFrom (s : State) : Lts State Action where
  init s₁ := step s .push = some s₁
  next := step

/-- A push that starts in `s` ends in `s'`. -/
structure Pushed (s s' : State) : Prop where
  reach : (pushFrom s).Reach (fun s₁ _ _ => s₁.owner.pushing = true) s'
  idle : s'.owner = .idle

/-- The push of a new task in `s` fails its size check, or it links the new task under an index
that is not the end of the chain. Then it can run to its end, and when it is over the tasks that
were on the chain and the new one are reachable from `head`. -/
def PushKeepsChain (s : State) : Prop :=
  (∃ s₁, step s .push = some s₁ ∧ s₁.owner = .panicked) ∨
    s.slots.length ≠ chainEnd ∧ (∃ s', Pushed s s') ∧
      ∀ H, Chain (nextOf s) chainEnd s.head H → ∀ s', Pushed s s' →
        ∃ H', Chain (nextOf s') chainEnd s'.head H' ∧ s.slots.length ∈ H' ∧ ∀ i ∈ H, i ∈ H'

/-- The start of a push. -/
theorem step_push {s : State} (hidle : s.owner = .idle) :
    step s .push =
      if s.slots.length < 2 ^ 32 then
        some { s with
          shared := true
          slots := s.slots ++ [freshSlot]
          left := s.left + 1
          owner := .push s.slots.length .load
          ready := none }
      else some { s with shared := true, owner := .panicked, ready := none } := by
  simp only [step, hidle]

/-- The loop of a push ends with the exchange, which leaves the new index in `head`. -/
theorem linkStep_head (s : State) (index : Nat) (spurious : Bool) (pc : LinkPc)
    (h : (linkStep s index spurious pc).2 = .wakeParent) :
    (linkStep s index spurious pc).1.head = index := by
  cases pc with
  | exchange head =>
    simp only [linkStep] at h ⊢
    split at h
    · rename_i hc
      rw [if_pos hc, modify_head]
    · cases h
  | load => cases h
  | store head => cases h
  | wakeParent => cases h
  | done => cases h

/-- What a step does while the owner pushes: a wake moves, or the owner takes a step of the
loop. -/
theorem step_while_pushing {s s' : State} {act : Action} {index : Nat} {pc : LinkPc}
    (howner : s.owner = .push index pc) (hs : step s act = some s') :
    act.ofWake = true ∧ s'.owner = s.owner ∨
      ∃ spurious, s' = { (linkStep s index spurious pc).1 with
        owner := if (linkStep s index spurious pc).2 = .wakeParent then .idle
          else .push index (linkStep s index spurious pc).2 } := by
  cases act with
  | push => simp [step, howner] at hs
  | poll waker => simp [step, howner] at hs
  -- Only the step of the push itself moves the owner on.
  | advance spurious taskReady =>
    right
    refine ⟨spurious, ?_⟩
    simp only [step, advance, howner] at hs
    cases hr : linkStep s index spurious pc with
    | mk s₁ pc₁ =>
      rw [hr] at hs
      cases pc₁ <;> cases hs <;> rfl
  | wake i =>
    left
    simp only [step] at hs
    split at hs
    · cases hs
    · split at hs <;> cases hs <;> exact ⟨rfl, modify_owner ..⟩
  | link k spurious =>
    left
    simp only [step] at hs
    split at hs
    · cases hs
    · split at hs
      · cases hs
      · cases hs
        exact ⟨rfl, (sameParties_linkStep ..).owner⟩

/-- A push goes on with its index, or it is over and that index is the head. -/
theorem Pushed.owner_cases {s s' : State} (hidle : s.owner = .idle)
    (hlt : s.slots.length < 2 ^ 32)
    (h : (pushFrom s).Reach (fun s₁ _ _ => s₁.owner.pushing = true) s') :
    (∃ pc, s'.owner = .push s.slots.length pc) ∨ s'.owner = .idle ∧ s'.head = s.slots.length := by
  refine h.invariant (P := fun s' => (∃ pc, s'.owner = .push s.slots.length pc) ∨
    s'.owner = .idle ∧ s'.head = s.slots.length) ?_ ?_
  · intro s₁ hs₁
    rw [pushFrom, step_push hidle, if_pos hlt] at hs₁
    cases hs₁
    exact .inl ⟨.load, rfl⟩
  · rintro s₁ act s₂ (⟨pc, ho⟩ | ⟨ho, -⟩) hs hpush
    · rcases step_while_pushing ho hs with ⟨-, hsame⟩ | ⟨spurious, rfl⟩
      · exact .inl ⟨pc, hsame.trans ho⟩
      · by_cases hend : (linkStep s₁ s.slots.length spurious pc).2 = .wakeParent
        · exact .inr ⟨if_pos hend, linkStep_head _ _ _ _ hend⟩
        · exact .inl ⟨_, if_neg hend⟩
    · simp [ho, OwnerPc.pushing] at hpush

/-- A push ends with its index in `head`. -/
theorem Pushed.head_eq {s s' : State} (hidle : s.owner = .idle) (hlt : s.slots.length < 2 ^ 32)
    (h : Pushed s s') : s'.head = s.slots.length := by
  rcases Pushed.owner_cases hidle hlt h.reach with ⟨pc, ho⟩ | ⟨-, hhead⟩
  · rw [h.idle] at ho
    cases ho
  · exact hhead

/-- An exchange that nobody interferes with ends the push. -/
theorem step_exchange {s : State} {index : Nat}
    (howner : s.owner = .push index (.exchange s.head)) :
    ∃ s', step s (.advance false false) = some s' ∧ s'.owner = .idle ∧
      s'.slots.length = s.slots.length := by
  have hlink : linkStep s index false (.exchange s.head) =
      ({ s with head := index }.modify index fun slot =>
        { slot with links := slot.links ++ [s.walks] }, .wakeParent) :=
    if_pos ⟨rfl, rfl⟩
  refine ⟨{ { s with head := index }.modify index fun slot =>
    { slot with links := slot.links ++ [s.walks] } with owner := .idle }, ?_, rfl,
    modify_length ..⟩
  simp only [step, advance, howner, hlink]

/-- A push that nobody interferes with. -/
theorem exists_pushed {s : State} (h : system.Reachable s) (hidle : s.owner = .idle)
    (hlt : s.slots.length < 2 ^ 32) :
    ∃ s', system.Reachable s' ∧ Pushed s s' ∧ s'.slots.length = s.slots.length + 1 := by
  -- The push by hand: take the slot, read the head, store it and put the slot in its place.
  let s₁ : State :=
    { s with
      shared := true
      slots := s.slots ++ [freshSlot]
      left := s.left + 1
      owner := .push s.slots.length .load
      ready := none }
  let s₂ : State := { s₁ with owner := .push s.slots.length (.store s.head) }
  let s₃ : State :=
    { s₂.modify s.slots.length (fun slot => { slot with next := s.head }) with
      owner := .push s.slots.length (.exchange s.head) }
  have e₁ : step s .push = some s₁ := by rw [step_push hidle, if_pos hlt]
  have e₂ : step s₁ (.advance false false) = some s₂ := rfl
  have e₃ : step s₂ (.advance false false) = some s₃ := rfl
  have hhead : s₃.head = s.head := modify_head ..
  obtain ⟨s₄, e₄, hidle₄, hlen⟩ := step_exchange (s := s₃) (by rw [hhead])
  have hnext : ∀ {s s' : State} {act : Action}, system.Reachable s → step s act = some s' →
      system.Reachable s' := fun hr hs => Lts.Reachable.next hr hs
  -- The owner is pushing in each state between, so each step extends the run.
  have hpush : ∀ {s₁ s₂ : State} {act : Action},
      (pushFrom s).Reach (fun s₁ _ _ => s₁.owner.pushing = true) s₁ → step s₁ act = some s₂ →
        s₁.owner.pushing = true → (pushFrom s).Reach (fun s₁ _ _ => s₁.owner.pushing = true) s₂ :=
    fun hr hs ho => hr.step hs ho
  refine ⟨s₄, hnext (hnext (hnext (hnext h e₁) e₂) e₃) e₄,
    ⟨hpush (hpush (hpush (.init e₁) e₂ rfl) e₃ rfl) e₄ rfl, hidle₄⟩, hlen.trans ?_⟩
  simp [s₃, s₂, s₁]

/-! ### The number of slots -/

/-- No step takes a slot away. -/
theorem length_step {s s' : State} {act : Action} (hs : step s act = some s') :
    s.slots.length ≤ s'.slots.length := by
  cases act with
  | push =>
    simp only [step] at hs
    split at hs
    · split at hs <;> cases hs <;> simp
    · cases hs
  | poll waker =>
    simp only [step] at hs
    split at hs
    · split at hs <;> cases hs <;> exact Nat.le_refl _
    · cases hs
  | advance spurious taskReady =>
    simp only [step, advance] at hs
    split at hs
    · cases hs
    · cases hs
    · rename_i index pc _
      -- The link of a push changes its slot and adds none.
      have hlen := (sameParties_linkStep s index spurious pc).length
      cases hr : linkStep s index spurious pc with
      | mk s₁ pc₁ =>
        rw [hr] at hs hlen
        cases pc₁ <;> cases hs <;> exact Nat.le_of_eq hlen.symm
    · cases hs
      exact Nat.le_refl _
    · cases hs
      exact Nat.le_refl _
    · split at hs
      · cases hs
        exact Nat.le_refl _
      · split at hs <;> cases hs <;> exact Nat.le_refl _
    · cases hs
      simp
    · split at hs
      · cases hs
      · split at hs <;> cases hs <;> simp
    · split at hs <;> cases hs <;> simp
  | wake i => exact Nat.le_of_eq (length_of_wake rfl hs).symm
  | link k spurious => exact Nat.le_of_eq (length_of_wake rfl hs).symm

/-- The invariant holds as long as every index is below the end of the chain. -/
theorem inv_of_bound {s : State} (h : system.Reachable s) (hb : s.slots.length ≤ chainEnd) :
    ∃ H R, Inv s H R := by
  revert hb
  refine h.invariant (P := fun s => s.slots.length ≤ chainEnd → ∃ H R, Inv s H R)
    (fun s hs _ => ⟨[], [], inv_init s hs⟩) ?_
  intro s act s' ih hs hb
  obtain ⟨H, R, hinv⟩ := ih (Nat.le_trans (length_step hs) hb)
  obtain ⟨H', R', hinv', -⟩ := step_inv hinv hs hb
  exact ⟨H', R', hinv'⟩

/-! ### The chain during a push -/

/-- A step made while the owner pushes leaves the chain as it is, or puts one slot in front. -/
theorem Inv.front {s s' : State} {H R : List Nat} {act : Action} {index : Nat} {pc : LinkPc}
    (h : Inv s H R) (howner : s.owner = .push index pc) (hs : step s act = some s') :
    ∃ H', Inv s' H' R ∧ ∀ i ∈ H, i ∈ H' := by
  rcases step_while_pushing howner hs with ⟨hwake, -⟩ | ⟨spurious, rfl⟩
  · obtain ⟨H', R', hinv, hkeep⟩ := step_inv h hs
      (by rw [length_of_wake hwake hs]; exact h.bound)
    obtain ⟨rfl, -, rfl | ⟨i, rfl⟩⟩ := hkeep hwake
    · exact ⟨_, hinv, fun _ hi => hi⟩
    · exact ⟨_, hinv, fun _ hi => List.mem_cons_of_mem _ hi⟩
  · obtain ⟨H', rfl | rfl, hinv⟩ :=
      inv_pushStep h howner (show linkStep s index spurious pc = (_, _) from rfl) rfl
    · exact ⟨_, hinv, fun _ hi => hi⟩
    · exact ⟨_, hinv, fun _ hi => List.mem_cons_of_mem _ hi⟩

/-- A push whose index is not the end of the chain keeps what was on it. -/
theorem Inv.pushed {s s' : State} {H R : List Nat} (h : Inv s H R) (hidle : s.owner = .idle)
    (hlt : s.slots.length < chainEnd) (hp : Pushed s s') :
    ∃ H', Inv s' H' R ∧ ∀ i ∈ H, i ∈ H' := by
  have hlt32 : s.slots.length < 2 ^ 32 := Nat.lt_trans hlt (by decide)
  have hkeep : (∃ H', Inv s' H' R ∧ ∀ i ∈ H, i ∈ H') := by
    refine (hp.reach.invariant (P := fun s₁ =>
      (pushFrom s).Reach (fun s₁ _ _ => s₁.owner.pushing = true) s₁ ∧
        ∃ H', Inv s₁ H' R ∧ ∀ i ∈ H, i ∈ H') ?_ ?_).2
    · intro s₁ hs₁
      refine ⟨.init hs₁, H, ?_, fun _ hi => hi⟩
      rw [pushFrom, step_push hidle, if_pos hlt32] at hs₁
      cases hs₁
      exact inv_push h hidle hlt
    · rintro s₁ act s₂ ⟨hr, H₁, hinv, hH⟩ hs hpush
      refine ⟨hr.step hs hpush, ?_⟩
      rcases Pushed.owner_cases hidle hlt32 hr with ⟨pc, ho⟩ | ⟨ho, -⟩
      · obtain ⟨H₂, hinv₂, hH₂⟩ := hinv.front ho hs
        exact ⟨H₂, hinv₂, fun i hi => hH₂ i (hH i hi)⟩
      · simp [ho, OwnerPc.pushing] at hpush
  exact hkeep

/-- A push whose index is not the end of the chain does what it should. -/
theorem pushKeepsChain_of_ne {s : State} (h : system.Reachable s) (hidle : s.owner = .idle)
    (hne : s.slots.length ≠ chainEnd) : PushKeepsChain s := by
  by_cases hlt32 : s.slots.length < 2 ^ 32
  · have hlt : s.slots.length < chainEnd := by
      simp only [chainEnd] at hne ⊢
      omega
    obtain ⟨H₀, R, hinv⟩ := inv_of_bound h (Nat.le_of_lt hlt)
    obtain ⟨s₁, -, hp₁, -⟩ := exists_pushed h hidle hlt32
    refine .inr ⟨hne, ⟨s₁, hp₁⟩, fun H hH s' hp => ?_⟩
    obtain rfl : H = H₀ := hH.unique hinv.core.head
    obtain ⟨H', hinv', hkeep⟩ := hinv.pushed hidle hlt hp
    have hchain := hinv'.core.head
    refine ⟨H', hchain, ?_, hkeep⟩
    rw [hp.head_eq hidle hlt32] at hchain
    obtain ⟨n, t, rfl, -, -⟩ := hchain.eq_cons hne
    exact List.mem_cons_self
  · exact .inl ⟨_, by rw [step_push hidle, if_neg hlt32], rfl⟩

/-- The size check lets `u32::MAX` through. -/
theorem not_pushKeepsChain {s : State} (hidle : s.owner = .idle)
    (heq : s.slots.length = chainEnd) : ¬ PushKeepsChain s := by
  rintro (⟨s₁, hs₁, hpanic⟩ | ⟨hne, -⟩)
  · rw [step_push hidle, heq, if_pos (by decide)] at hs₁
    cases hs₁
    cases hpanic
  · exact hne heq

/-- A push whose index is the end of the chain leaves an empty chain, however it runs. -/
theorem Pushed.chain_eq_nil {s s' : State} (hidle : s.owner = .idle)
    (heq : s.slots.length = chainEnd) (hp : Pushed s s') {H' : List Nat}
    (hH' : Chain (nextOf s') chainEnd s'.head H') : H' = [] := by
  rw [hp.head_eq hidle (by rw [heq]; decide), heq] at hH'
  exact hH'.eq_nil

/-- A push does not collide with the end of the chain, unless `u32::MAX` tasks were pushed
before. In every reachable state in which the owner may push, the push fails its size check, or
it links the new task under another index than the end of the chain and keeps the chain, exactly
when the number of tasks pushed so far is not `u32::MAX`. When it is, then however the push runs,
the chain is empty when it is over. -/
theorem push_keeps_chain {s : State} (h : system.Reachable s) (hidle : s.owner = .idle) :
    (PushKeepsChain s ↔ s.slots.length ≠ chainEnd) ∧
      (s.slots.length = chainEnd → ∀ s', Pushed s s' →
        ∀ H', Chain (nextOf s') chainEnd s'.head H' → H' = []) := by
  refine ⟨⟨fun hkeeps heq => ?_, pushKeepsChain_of_ne h hidle⟩, fun heq s' hp H' hH' => ?_⟩
  · exact not_pushKeepsChain hidle heq hkeeps
  · exact hp.chain_eq_nil hidle heq hH'

/-- The third push, onto a chain of two tasks. -/
theorem push_keeps_chain_third :
    ∃ s, system.Reachable s ∧
      (s.head = 1 ∧ nextOf s 1 = some 0 ∧ nextOf s 0 = some chainEnd) ∧ PushKeepsChain s := by
  obtain ⟨s, hr, hp⟩ := Lts.Reachable.exists_of_run (M := system) (s := new)
    [.push, .advance false false, .advance false false, .advance false false,
      .push, .advance false false, .advance false false, .advance false false]
    (fun s => s.owner = .idle ∧ s.slots.length = 2 ∧ s.head = 1 ∧ nextOf s 1 = some 0 ∧
      nextOf s 0 = some chainEnd) rfl rfl
  obtain ⟨hidle, hlen, hchain⟩ := of_decide_eq_true hp
  exact ⟨s, hr, hchain, (push_keeps_chain hr hidle).1.mpr (by rw [hlen]; decide)⟩

/-! ### The push after `u32::MAX` others -/

/-- Every number of pushes up to the size check is reached. -/
theorem exists_length (n : Nat) (hn : n ≤ 2 ^ 32) :
    ∃ s, system.Reachable s ∧ s.owner = .idle ∧ s.slots.length = n := by
  induction n with
  | zero => exact ⟨new, .init rfl, rfl, rfl⟩
  | succ n ih =>
    obtain ⟨s, hr, hidle, hlen⟩ := ih (by omega)
    obtain ⟨s', hr', hp, hlen'⟩ := exists_pushed hr hidle (by omega)
    exact ⟨s', hr', hp.idle, by omega⟩

/-- After `u32::MAX` pushes there are tasks on the chain. One more push is let through, gets the
end of the chain as its index, and empties the chain. -/
theorem push_empties_chain :
    ∃ s, system.Reachable s ∧ s.owner = .idle ∧ s.slots.length = chainEnd ∧
      (∃ H, Chain (nextOf s) chainEnd s.head H ∧ H ≠ []) ∧
      (∃ s', Pushed s s' ∧ Chain (nextOf s') chainEnd s'.head []) ∧ ¬ PushKeepsChain s := by
  obtain ⟨s₀, hr₀, hidle₀, hlen₀⟩ := exists_length (chainEnd - 1) (by decide)
  have hone : chainEnd - 1 + 1 = chainEnd := by decide
  obtain ⟨s, hr, hp, hlen⟩ := exists_pushed hr₀ hidle₀ (by rw [hlen₀]; decide)
  rw [hlen₀, hone] at hlen
  obtain ⟨s', hr', hp', hlen'⟩ := exists_pushed hr hp.idle (by rw [hlen]; decide)
  have hhead : s'.head = chainEnd := (hp'.head_eq hp.idle (by rw [hlen]; decide)).trans hlen
  refine ⟨s, hr, hp.idle, hlen, ?_, ⟨s', hp', hhead⟩, not_pushKeepsChain hp.idle hlen⟩
  -- The last of the pushes before is still on the chain.
  obtain ⟨H₀, R₀, hinv₀⟩ := inv_of_bound hr₀ (by rw [hlen₀]; decide)
  obtain ⟨s₁, hs₁, hpanic⟩ | ⟨-, -, hkeeps⟩ :=
    pushKeepsChain_of_ne hr₀ hidle₀ (by rw [hlen₀]; decide)
  · rw [step_push hidle₀, hlen₀, if_pos (by decide)] at hs₁
    cases hs₁
    cases hpanic
  · obtain ⟨H, hH, hmem, -⟩ := hkeeps H₀ hinv₀.core.head s hp
    exact ⟨H, hH, List.ne_nil_of_mem hmem⟩

end TaskSet

end Nagoya.Reactor
