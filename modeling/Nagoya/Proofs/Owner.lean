import Nagoya.Lib.Pool
import Nagoya.Owner

/-!
# `Nagoya.Proofs.Owner`: the owned value is in one place

`Fits` says which contents of the slot go with each phase of a call. The invariant is that the
gate counts the admitted calls, that every call fits, and that an open gate has the value behind
it. At most one call is admitted, so a step of one call leaves the others as they fit: a call
that is not admitted changes the slot and the gate only by winning the compare-exchange, and it
wins only when no call is admitted.
-/

set_option autoImplicit false

namespace Nagoya.Owner

open Nagoya.Lib

variable {T : Type}

/-- A `Lease`, or a call past its compare-exchange. -/
def Call.admitted : Call T → Bool
  | .checkWorker _ _ | .exchangeAdmitted | .ended _ => false
  | _ => true

/-- The lease of a call or of its turn. -/
def Call.lease : Call T → Option (Lease T)
  | .reserve lease | .queued lease | .entered lease | .turn lease | .finish lease
  | .dropWrite lease _ => some lease
  | .dropStore _ => some { value := none }
  | _ => none

/-- The value a call in progress holds outside a lease. -/
def Call.inHand : Call T → Option T
  | .taken value => some value
  | _ => none

/-- The value a call holds, in its hand or in its lease. -/
def Call.held (c : Call T) : Option T := c.inHand <|> c.lease.bind Lease.value

/-- The turn runs and has `&mut T`. -/
def Call.running : Call T → Bool
  | .turn _ => true
  | _ => false

/-- How a call ends, once that is decided. -/
def Call.exit : Call T → Option Exit
  | .dropWrite _ exit | .dropStore exit | .ended exit => some exit
  | _ => none

/-- Neither `expect` failed. -/
def Call.Sound (c : Call T) : Prop :=
  c.exit ≠ some .duplicateAdmission ∧ c.exit ≠ some .noTurnValue

/-- The number of places that hold a value: the slot, the calls in progress, the leases. -/
def Config.holders (s : Config T) : Nat :=
  s.state.value.isSome.toNat + tally (fun c => c.inHand.isSome.toNat) s.calls
    + tally (fun c => (c.lease.bind Lease.value).isSome.toNat) s.calls

/-- `value` is in the slot or with a call. -/
def Config.Holds (s : Config T) (value : T) : Prop :=
  s.state.value = some value ∨ ∃ c ∈ s.calls, c.held = some value

/-- What a phase says about the slot and the lease. -/
def Fits (s : State T) : Call T → Prop
  | .take => s.value.isSome
  | .taken _ => s.value = none
  | .reserve lease | .queued lease | .entered lease | .turn lease | .finish lease
  | .dropWrite lease _ => s.value = none ∧ lease.value.isSome
  | .dropStore _ => s.value.isSome
  | _ => True

/-- The invariant. -/
structure Inv (s : Config T) : Prop where
  /-- The gate counts the admitted calls. -/
  gate : tally (fun c => c.admitted.toNat) s.calls = s.state.admitted.toNat
  fits : ∀ c ∈ s.calls, Fits s.state c
  sound : ∀ c ∈ s.calls, c.Sound
  /-- An open gate has the value behind it. -/
  slot : s.state.admitted = false → s.state.value.isSome

/-- What one step of a call does, for a call that fits. -/
structure Moved (s s' : State T) (c c' : Call T) : Prop where
  gate : s'.admitted.toNat + c.admitted.toNat = s.admitted.toNat + c'.admitted.toNat
  fits : Fits s' c'
  sound : c'.Sound
  slot : s'.admitted = false → s'.value.isSome
  /-- A call that is not admitted before or after leaves the gate and the slot. -/
  frame : c.admitted = false → c'.admitted = false → s' = s

/-- A step of an admitted call that touches neither the gate nor the slot. -/
theorem Moved.stay {s : State T} {c c' : Call T} (hs : s.admitted = true)
    (hc : c.admitted = true) (hc' : c'.admitted = true) (hfit : Fits s c') (hsound : c'.Sound) :
    Moved s s c c' := by
  refine ⟨by rw [hc, hc'], hfit, hsound, ?_, ?_⟩
  · intro hopen
    simp [hs] at hopen
  · intro _ h
    simp [hc'] at h

/-- One step of a call. -/
theorem stepCall_spec {s s' : State T} {c c' : Call T} {e : Event T} (hfit : Fits s c)
    (hsound : c.Sound) (hslot : s.admitted = false → s.value.isSome)
    (hgate : c.admitted = true → s.admitted = true) (h : stepCall s c e = some (s', c')) :
    Moved s s' c c' := by
  cases c with
  | checkWorker worker workers =>
    cases e <;> simp only [stepCall, reduceCtorEq] at h
    split at h <;> cases h <;>
      exact ⟨rfl, trivial, by simp [Call.Sound, Call.exit], hslot, fun _ _ => rfl⟩
  | exchangeAdmitted =>
    cases e <;> simp only [stepCall, reduceCtorEq] at h
    split at h
    · cases h
      exact ⟨rfl, trivial, by simp [Call.Sound, Call.exit], hslot, fun _ _ => rfl⟩
    · rename_i hopen
      cases h
      -- The gate was open, so the value is in the slot that this call now owns.
      have hopen : s.admitted = false := by simpa using hopen
      refine ⟨by simp [Call.admitted, hopen], hslot hopen, by simp [Call.Sound, Call.exit], ?_, ?_⟩
      · intro h
        cases h
      · intro _ h
        cases h
  | take =>
    -- The call is past the gate, so the slot is its own.
    have hs : s.admitted = true := hgate rfl
    obtain ⟨value, hvalue⟩ := Option.isSome_iff_exists.mp (show s.value.isSome from hfit)
    cases e <;> simp only [stepCall, hvalue, reduceCtorEq] at h
    cases h
    refine ⟨rfl, rfl, by simp [Call.Sound, Call.exit], ?_, ?_⟩
    · intro hopen
      rw [show s.admitted = true from hs] at hopen
      cases hopen
    · intro h
      cases h
  | taken value =>
    cases e <;> simp only [stepCall, reduceCtorEq] at h
    cases h
    exact .stay (hgate rfl) rfl rfl ⟨hfit, rfl⟩ (by simp [Call.Sound, Call.exit])
  | reserve lease =>
    cases e with
    | reserve result =>
      cases result <;> cases h <;>
        exact .stay (hgate rfl) rfl rfl hfit (by simp [Call.Sound, Call.exit])
    | _ => cases h
  | queued lease =>
    cases e with
    | cancel =>
      cases h
      exact .stay (hgate rfl) rfl rfl hfit (by simp [Call.Sound, Call.exit])
    | enter panics =>
      cases panics <;> cases h <;>
        exact .stay (hgate rfl) rfl rfl hfit (by simp [Call.Sound, Call.exit])
    | _ => cases h
  | entered lease =>
    cases e <;> simp only [stepCall, reduceCtorEq] at h
    -- The lease has its value, so the `expect` passes.
    rw [if_pos hfit.2] at h
    cases h
    exact .stay (hgate rfl) rfl rfl hfit (by simp [Call.Sound, Call.exit])
  | turn lease =>
    cases e with
    | write value =>
      cases h
      exact .stay (hgate rfl) rfl rfl ⟨hfit.1, rfl⟩ (by simp [Call.Sound, Call.exit])
    | leave panics =>
      cases panics <;> cases h <;>
        exact .stay (hgate rfl) rfl rfl hfit (by simp [Call.Sound, Call.exit])
    | _ => cases h
  | finish lease =>
    cases e with
    | finish panics =>
      cases panics <;> cases h <;>
        exact .stay (hgate rfl) rfl rfl hfit (by simp [Call.Sound, Call.exit])
    | _ => cases h
  | dropWrite lease exit =>
    have hs : s.admitted = true := hgate rfl
    cases e <;> simp only [stepCall, reduceCtorEq] at h
    cases h
    refine ⟨rfl, hfit.2, hsound, ?_, ?_⟩
    · intro hopen
      rw [show s.admitted = true from hs] at hopen
      cases hopen
    · intro h
      cases h
  | dropStore exit =>
    have hs : s.admitted = true := hgate rfl
    cases e <;> simp only [stepCall, reduceCtorEq] at h
    cases h
    -- The value is back before the gate opens.
    refine ⟨by simp [Call.admitted, hs], trivial, hsound, fun _ => hfit, ?_⟩
    intro h
    cases h
  | ended exit =>
    cases e <;> cases h

/-- An admitted call has the gate closed. -/
theorem Inv.closed {s : Config T} (h : Inv s) {i : Nat} {c : Call T} (hi : s.calls[i]? = some c)
    (hc : c.admitted = true) : s.state.admitted = true := by
  have hle := le_tally (fun c : Call T => c.admitted.toNat) hi
  rw [h.gate, hc] at hle
  cases hs : s.state.admitted with
  | true => rfl
  | false => rw [hs] at hle; simp at hle

/-- No two calls are admitted. -/
theorem Inv.unique {s : Config T} (h : Inv s) {i j : Nat} {c d : Call T}
    (hi : s.calls[i]? = some c) (hj : s.calls[j]? = some d) (hc : c.admitted = true)
    (hd : d.admitted = true) : i = j := by
  by_contra hij
  have hle := add_le_tally (fun c : Call T => c.admitted.toNat) hi hj hij
  rw [h.gate, hc, hd] at hle
  have : s.state.admitted.toNat ≤ 1 := Bool.toNat_le _
  simp only [Bool.toNat_true] at hle
  omega

/-- A new owner meets the invariant. -/
theorem inv_new (value : T) : Inv (new value) :=
  ⟨rfl, by simp [new], by simp [new], fun _ => rfl⟩

/-- What the step of one call keeps. The others fit as before: a step that changes the gate or
the slot is made by the one admitted call, or by the call that wins an open gate. -/
theorem inv_moved {s : Config T} (h : Inv s) {i : Nat} {c c' : Call T} {state : State T}
    (hi : s.calls[i]? = some c) (hm : Moved s.state state c c') :
    Inv { state := state, calls := s.calls.set i c' } := by
  have hothers : ∀ (j : Nat) d, j ≠ i → s.calls[j]? = some d → Fits state d := by
    intro j d hj hd
    have hfit := h.fits d (List.mem_of_getElem? hd)
    by_cases hda : d.admitted = true
    · -- `d` is the one admitted call, so the step is of a call that is not.
      have hc : c.admitted = false := by
        by_contra hc
        exact hj (h.unique hd hi hda (by simpa using hc))
      have hc' : c'.admitted = false := by
        have hg := hm.gate
        rw [hc, h.closed hd hda] at hg
        have : state.admitted.toNat ≤ 1 := Bool.toNat_le _
        simp only [Bool.toNat_true, Bool.toNat_false] at hg
        cases hc' : c'.admitted with
        | false => rfl
        | true => rw [hc'] at hg; simp at hg; omega
      rw [hm.frame hc hc']
      exact hfit
    · cases d <;> first | exact trivial | exact absurd rfl hda
  -- A call of the new list is the one that moved, or another where it was.
  have hmem : ∀ d ∈ s.calls.set i c', d = c' ∨ ∃ j, j ≠ i ∧ s.calls[j]? = some d := by
    intro d hd
    obtain ⟨j, hj⟩ := List.getElem?_of_mem hd
    rw [getElem?_set_of_some hi] at hj
    split at hj
    · exact .inl (Option.some.inj hj).symm
    · rename_i hne
      exact .inr ⟨j, hne, hj⟩
  refine ⟨?_, ?_, ?_, hm.slot⟩
  · have ht := tally_set (fun c : Call T => c.admitted.toNat) hi c'
    have hg := hm.gate
    have := h.gate
    simp only at ht ⊢
    omega
  · intro d hd
    obtain rfl | ⟨j, hne, hj⟩ := hmem d hd
    · exact hm.fits
    · exact hothers j d hne hj
  · intro d hd
    obtain rfl | ⟨j, hne, hj⟩ := hmem d hd
    · exact hm.sound
    · exact h.sound d (List.mem_of_getElem? hj)

/-- Every step keeps the invariant. -/
theorem inv_step {s s' : Config T} {a : Action T} (h : Inv s) (hs : step s a = some s') :
    Inv s' := by
  cases a with
  | dispatchTo worker workers =>
    cases hs
    refine ⟨?_, ?_, ?_, h.slot⟩
    · rw [tally_append]
      exact h.gate
    · intro c hc
      rcases List.mem_append.mp hc with hc | hc
      · exact h.fits c hc
      · rw [List.mem_singleton.mp hc]
        exact trivial
    · intro c hc
      rcases List.mem_append.mp hc with hc | hc
      · exact h.sound c hc
      · rw [List.mem_singleton.mp hc]
        simp [Call.Sound, Call.exit]
  | call i e =>
    simp only [step] at hs
    split at hs
    · rename_i c hi
      rw [Option.map_eq_some_iff] at hs
      obtain ⟨⟨state, c'⟩, hstep, rfl⟩ := hs
      have hmem := List.mem_of_getElem? hi
      exact inv_moved h hi
        (stepCall_spec (h.fits c hmem) (h.sound c hmem) h.slot (h.closed hi) hstep)
    · cases hs

/-- The invariant holds in every reachable state. -/
theorem inv_of_reachable {s : Config T} (h : (system T).Reachable s) : Inv s :=
  h.invariant (fun _ ⟨value, hs⟩ => hs ▸ inv_new value) fun _ _ _ hi hs => inv_step hi hs

/-- A call that is not admitted holds nothing. -/
theorem held_of_not_admitted {c : Call T} (h : c.admitted = false) :
    c.inHand = none ∧ c.lease = none := by
  cases c <;> first | exact ⟨rfl, rfl⟩ | cases h

/-- The one admitted call of a closed gate. -/
theorem Inv.exists_admitted {s : Config T} (h : Inv s) (hs : s.state.admitted = true) :
    ∃ (i : Nat) (c : Call T), s.calls[i]? = some c ∧ c.admitted = true ∧
      ∀ (j : Nat) d, j ≠ i → s.calls[j]? = some d → d.admitted = false := by
  by_contra hnone
  have hzero : tally (fun c : Call T => c.admitted.toNat) s.calls = 0 := by
    refine tally_eq_zero fun c hc => ?_
    obtain ⟨i, hi⟩ := List.getElem?_of_mem hc
    by_contra hca
    have hca : c.admitted = true := by simpa using hca
    refine hnone ⟨i, c, hi, hca, ?_⟩
    intro j d hj hd
    by_contra hda
    exact hj (h.unique hd hi (by simpa using hda) hca)
  rw [h.gate, hs] at hzero
  cases hzero

/-- One place holds the value. -/
theorem Inv.holders_eq {s : Config T} (h : Inv s) : s.holders = 1 := by
  have hnone : ∀ c : Call T, c.admitted = false →
      c.inHand.isSome.toNat = 0 ∧ (c.lease.bind Lease.value).isSome.toNat = 0 := by
    intro c hc
    obtain ⟨h1, h2⟩ := held_of_not_admitted hc
    simp [h1, h2]
  cases hs : s.state.admitted with
  | false =>
    -- Nobody is admitted, and the value is in the slot.
    have hall : ∀ c ∈ s.calls, c.admitted = false := by
      intro c hc
      obtain ⟨i, hi⟩ := List.getElem?_of_mem hc
      by_contra hca
      have := h.closed hi (by simpa using hca)
      simp [hs] at this
    unfold Config.holders
    rw [h.slot hs, tally_eq_zero fun c hc => (hnone c (hall c hc)).1,
      tally_eq_zero fun c hc => (hnone c (hall c hc)).2]
    rfl
  | true =>
    obtain ⟨i, c, hi, hc, hothers⟩ := h.exists_admitted hs
    have hfit := h.fits c (List.mem_of_getElem? hi)
    unfold Config.holders
    rw [tally_eq_single hi fun j d hj hd => (hnone d (hothers j d hj hd)).1,
      tally_eq_single hi fun j d hj hd => (hnone d (hothers j d hj hd)).2]
    -- The phase of the admitted call says where the value is.
    cases c with
    | checkWorker | exchangeAdmitted | ended => cases hc
    | take | dropStore =>
      rw [show s.state.value.isSome = true from hfit]
      rfl
    | taken value =>
      rw [show s.state.value = none from hfit]
      rfl
    | reserve | queued | entered | turn | finish | dropWrite =>
      simp [hfit.1, hfit.2, Call.inHand, Call.lease]

/-- A step that is not a write of the turn moves the value and does not change it. -/
theorem stepCall_held {s s' : State T} {c c' : Call T} {e : Event T} (hfit : Fits s c)
    (h : stepCall s c e = some (s', c')) (he : ∀ value, e ≠ .write value) (value : T) :
    (s'.value = some value ∨ c'.held = some value) ↔
      (s.value = some value ∨ c.held = some value) := by
  cases c with
  | take =>
    -- The value goes from the slot into the hand of the call.
    obtain ⟨v, hv⟩ := Option.isSome_iff_exists.mp (show s.value.isSome from hfit)
    cases e <;> simp only [stepCall, hv, reduceCtorEq] at h
    cases h
    simp [hv, Call.held, Call.inHand, Call.lease]
  | dropWrite lease exit =>
    -- The value goes from the lease back into the slot.
    cases e <;> simp only [stepCall, reduceCtorEq] at h
    cases h
    simp [hfit.1, Call.held, Call.inHand, Call.lease]
  | checkWorker | exchangeAdmitted =>
    cases e <;> simp only [stepCall, reduceCtorEq] at h
    split at h <;> cases h <;> simp [Call.held, Call.inHand, Call.lease]
  | entered lease =>
    cases e <;> simp only [stepCall, reduceCtorEq] at h
    split at h <;> cases h <;> simp [Call.held, Call.inHand, Call.lease]
  | taken | dropStore | ended =>
    cases e <;> simp only [stepCall, reduceCtorEq] at h
    all_goals cases h
    all_goals simp [Call.held, Call.inHand, Call.lease]
  | reserve lease =>
    cases e with
    | reserve result => cases result <;> cases h <;> rfl
    | _ => cases h
  | queued lease =>
    cases e with
    | cancel => cases h; rfl
    | enter panics => cases panics <;> cases h <;> rfl
    | _ => cases h
  | turn lease =>
    cases e with
    | write v => exact absurd rfl (he v)
    | leave panics => cases panics <;> cases h <;> rfl
    | _ => cases h
  | finish lease =>
    cases e with
    | finish panics => cases panics <;> cases h <;> rfl
    | _ => cases h

/-- Replacing one call changes only what that call holds. -/
theorem holds_set {s : Config T} {i : Nat} {c : Call T} (hi : s.calls[i]? = some c)
    (state : State T) (c' : Call T) (value : T) :
    Config.Holds { state := state, calls := s.calls.set i c' } value ↔
      (state.value = some value ∨ c'.held = some value) ∨
        ∃ (j : Nat) (d : Call T), j ≠ i ∧ s.calls[j]? = some d ∧ d.held = some value := by
  constructor
  · rintro (h | ⟨d, hd, hheld⟩)
    · exact .inl (.inl h)
    · obtain ⟨j, hj⟩ := List.getElem?_of_mem hd
      rw [getElem?_set_of_some hi] at hj
      split at hj
      · cases hj
        exact .inl (.inr hheld)
      · rename_i hne
        exact .inr ⟨j, d, hne, hj, hheld⟩
  · rintro ((h | h) | ⟨j, d, hne, hj, hheld⟩)
    · exact .inl h
    · exact .inr ⟨c', mem_set_of_some hi c', h⟩
    · refine .inr ⟨d, List.mem_of_getElem? (i := j) ?_, hheld⟩
      rw [getElem?_set_of_some hi, if_neg hne]
      exact hj

/-- A step of the system that is not a write of a turn keeps the value. -/
theorem step_holds {s s' : Config T} {a : Action T} (h : Inv s) (hs : step s a = some s')
    (ha : ∀ i value, a ≠ .call i (.write value)) (value : T) : s'.Holds value ↔ s.Holds value := by
  cases a with
  | dispatchTo worker workers =>
    cases hs
    simp [Config.Holds, or_and_right, exists_or, Call.held, Call.inHand, Call.lease]
  | call i e =>
    simp only [step] at hs
    split at hs
    · rename_i c hi
      rw [Option.map_eq_some_iff] at hs
      obtain ⟨⟨state, c'⟩, hstep, rfl⟩ := hs
      have he : ∀ v, e ≠ .write v := fun v hv => ha i v (by rw [hv])
      have hself := holds_set hi s.state c value
      rw [set_eq_self hi] at hself
      rw [holds_set hi, hself,
        stepCall_held (h.fits c (List.mem_of_getElem? hi)) hstep he value]
    · cases hs

/-- The value of an owner is never duplicated, lost or shared. In every reachable state one
place holds it: the slot, a dispatch call, or a lease. The gate is closed exactly while there is
a lease or a call past its compare-exchange, and there is at most one of these, so at most one
turn has access to the value. Neither `expect` has failed. When every call and every lease is
gone, the value is in the slot and the gate is open. Only a turn changes the value: every other
step leaves it as it is, wherever it moves. -/
theorem value_held_once {s : Config T} (h : (system T).Reachable s) :
    s.holders = 1 ∧
    (s.state.admitted = true ↔ ∃ c ∈ s.calls, c.admitted = true) ∧
    (∀ (i j : Nat) c d, s.calls[i]? = some c → s.calls[j]? = some d → c.admitted = true →
      d.admitted = true → i = j) ∧
    (∀ (i j : Nat) c d, s.calls[i]? = some c → s.calls[j]? = some d → c.running = true →
      d.running = true → i = j) ∧
    (∀ c ∈ s.calls, c.exit ≠ some .duplicateAdmission ∧ c.exit ≠ some .noTurnValue) ∧
    ((∀ c ∈ s.calls, ∃ exit, c = .ended exit) →
      s.state.value.isSome ∧ s.state.admitted = false) ∧
    ∀ a s', step s a = some s' → (∀ i value, a ≠ .call i (.write value)) →
      ∀ value, s'.Holds value ↔ s.Holds value := by
  have hinv := inv_of_reachable h
  have hrun : ∀ c : Call T, c.running = true → c.admitted = true := by
    intro c hc
    cases c <;> first | rfl | cases hc
  refine ⟨hinv.holders_eq, ⟨?_, ?_⟩, ?_, ?_, hinv.sound, ?_, ?_⟩
  · intro hs
    obtain ⟨i, c, hi, hc, -⟩ := hinv.exists_admitted hs
    exact ⟨c, List.mem_of_getElem? hi, hc⟩
  · rintro ⟨c, hc, hca⟩
    obtain ⟨i, hi⟩ := List.getElem?_of_mem hc
    exact hinv.closed hi hca
  · intro i j c d hi hj hc hd
    exact hinv.unique hi hj hc hd
  · intro i j c d hi hj hc hd
    exact hinv.unique hi hj (hrun c hc) (hrun d hd)
  · intro hended
    have hopen : s.state.admitted = false := by
      by_contra hs
      obtain ⟨i, c, hi, hc, -⟩ := hinv.exists_admitted (by simpa using hs)
      obtain ⟨exit, rfl⟩ := hended c (List.mem_of_getElem? hi)
      cases hc
    exact ⟨hinv.slot hopen, hopen⟩
  · intro a s' hs ha value
    exact step_holds hinv hs ha value

/-- A turn writes, panics, and gives the value back; a call made while it ran was refused, and
the next call is admitted to the value the first turn left. -/
theorem value_held_once_two_turns :
    ∃ s, (system Nat).Reachable s ∧ s.holders = 1 ∧
      s.calls = [.ended .panicked, .ended (.denied .busy), .taken 9] := by
  obtain ⟨s, hr, hp⟩ := Lts.Reachable.exists_of_run (M := system Nat) (s := new 4)
    [.dispatchTo none 2, .dispatchTo (some 1) 2, .call 0 .advance, .call 0 .advance,
      .call 0 .advance, .call 0 .advance, .call 0 (.reserve .granted), .call 0 (.enter false),
      .call 0 .advance, .call 0 (.write 9), .call 1 .advance, .call 1 .advance,
      .call 0 (.leave true), .call 0 .advance, .call 0 .advance, .dispatchTo none 2,
      .call 2 .advance, .call 2 .advance, .call 2 .advance]
    (fun s => s.calls = [.ended .panicked, .ended (.denied .busy), .taken 9]) ⟨4, rfl⟩ (by decide)
  exact ⟨s, hr, (value_held_once hr).1, by simpa using hp⟩

end Nagoya.Owner
