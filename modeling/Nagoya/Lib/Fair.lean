import Nagoya.Lib.Lts

/-!
# `Nagoya.Lib.Fair`: endless runs and what must happen in them

An `Lts.Path` is an endless run. At each time it takes a step or stands still. A party is a set of
labels. A path is weakly fair to a party when the party, once it can step at every later time,
does step at some later time (`Path.WeakFair`). Labels that stand for a choice of the environment
belong to no party, and nothing makes the environment move.

`Path.leadsTo_of_rank` is the rule for one party: while `P` lasts the party can step, no step
raises the rank, and every step of the party lowers it or brings about `Q`. Then `P` leads to `Q`.
`LeadsTo.trans` and `LeadsTo.cases` put such facts together.

`Path.ofRun` makes a path of a finite run, which stands still after its last step. It is fair to
every party that cannot step at its end.
-/

set_option autoImplicit false

namespace Nagoya.Lib

namespace Lts

variable {σ α : Type} {M : Lts σ α}

/-- An endless run of the system. -/
structure Path (M : Lts σ α) where
  state : Nat → σ
  label : Nat → Option α
  init : M.init (state 0)
  next : ∀ n, match label n with
    | none => state (n + 1) = state n
    | some a => M.next (state n) a = some (state (n + 1))

/-- Some step of the party `p` is possible. -/
def Enabled (M : Lts σ α) (p : α → Prop) (s : σ) : Prop := ∃ a, p a ∧ (M.next s a).isSome = true

namespace Path

variable (ρ : M.Path)

/-- The party `p` is not left standing for ever. -/
def WeakFair (p : α → Prop) : Prop :=
  ∀ n, (∀ m, n ≤ m → M.Enabled p (ρ.state m)) → ∃ m, n ≤ m ∧ ∃ a, ρ.label m = some a ∧ p a

/-- Whenever `P` holds, `Q` holds then or later. -/
def LeadsTo (P Q : σ → Prop) : Prop := ∀ n, P (ρ.state n) → ∃ m, n ≤ m ∧ Q (ρ.state m)

variable {ρ} {P Q R : σ → Prop}

/-- A state of a path is a reachable state. -/
theorem reachable (ρ : M.Path) (n : Nat) : M.Reachable (ρ.state n) := by
  induction n with
  | zero => exact .init ρ.init
  | succ n ih =>
    have h := ρ.next n
    split at h
    · rw [h]
      exact ih
    · exact ih.next h

theorem LeadsTo.trans (h : ρ.LeadsTo P Q) (h' : ρ.LeadsTo Q R) : ρ.LeadsTo P R := by
  intro n hP
  obtain ⟨m, hnm, hQ⟩ := h n hP
  obtain ⟨k, hmk, hR⟩ := h' m hQ
  exact ⟨k, Nat.le_trans hnm hmk, hR⟩

/-- What already holds is not waited for. -/
theorem leadsTo_of_imp (h : ∀ s, M.Reachable s → P s → Q s) : ρ.LeadsTo P Q :=
  fun n hP => ⟨n, Nat.le_refl n, h _ (ρ.reachable n) hP⟩

/-- A case distinction in the state where `P` holds. -/
theorem LeadsTo.cases (h : ∀ s, M.Reachable s → P s → Q s ∨ R s) {T : σ → Prop}
    (hQ : ρ.LeadsTo Q T) (hR : ρ.LeadsTo R T) : ρ.LeadsTo P T := by
  intro n hP
  rcases h _ (ρ.reachable n) hP with h | h
  · exact hQ n h
  · exact hR n h

/-- One of many conditions holds, and each of them leads to `Q`. -/
theorem LeadsTo.exists {ι : Type} {P : ι → σ → Prop} (h : ∀ i, ρ.LeadsTo (P i) Q) :
    ρ.LeadsTo (fun s => ∃ i, P i s) Q :=
  fun n ⟨i, hP⟩ => h i n hP

/-- What every step keeps holds from then on. -/
theorem stays (keep : ∀ s a s', M.Reachable s → P s → M.next s a = some s' → P s') {n m : Nat}
    (hm : n ≤ m) (hP : P (ρ.state n)) : P (ρ.state m) := by
  induction hm with
  | refl => exact hP
  | step _ ih =>
    rename_i m _
    have h := ρ.next m
    split at h
    · rw [h]
      exact ih
    · exact keep _ _ _ (ρ.reachable m) ih h

/-- What every step keeps is carried along. -/
theorem LeadsTo.and_stable (h : ρ.LeadsTo P Q)
    (keep : ∀ s a s', M.Reachable s → R s → M.next s a = some s' → R s') :
    ρ.LeadsTo (fun s => P s ∧ R s) (fun s => Q s ∧ R s) := by
  rintro n ⟨hP, hR⟩
  obtain ⟨m, hm, hQ⟩ := h n hP
  exact ⟨m, hm, hQ, stays keep hm hR⟩

/-- `P` lasts until `Q`, and its rank does not rise. -/
theorem lasts {rank : σ → Nat}
    (keep : ∀ s a s', M.Reachable s → P s → M.next s a = some s' →
      Q s' ∨ P s' ∧ rank s' ≤ rank s) {n : Nat} (hP : P (ρ.state n))
    (hQ : ∀ m, n ≤ m → ¬Q (ρ.state m)) {m : Nat} (hm : n ≤ m) :
    P (ρ.state m) ∧ rank (ρ.state m) ≤ rank (ρ.state n) := by
  induction hm with
  | refl => exact ⟨hP, Nat.le_refl _⟩
  | step hm ih =>
    rename_i m
    have hm : n ≤ m := hm
    have h := ρ.next m
    split at h
    · rw [h]
      exact ih
    · rcases keep _ _ _ (ρ.reachable m) ih.1 h with hq | ⟨hp, hr⟩
      · exact absurd hq (hQ (m + 1) (by omega))
      · exact ⟨hp, Nat.le_trans hr ih.2⟩

/-- The rule for one party and a rank. -/
theorem leadsTo_of_rank (rank : σ → Nat) {p : α → Prop} (fair : ρ.WeakFair p)
    (keep : ∀ s a s', M.Reachable s → P s → M.next s a = some s' →
      Q s' ∨ P s' ∧ rank s' ≤ rank s)
    (down : ∀ s a s', M.Reachable s → P s → p a → M.next s a = some s' →
      Q s' ∨ rank s' < rank s)
    (enabled : ∀ s, M.Reachable s → P s → Q s ∨ M.Enabled p s) : ρ.LeadsTo P Q := by
  -- The induction is on a bound of the rank. While `Q` does not come, the party can step at all
  -- times, so it does, and the rank falls below the bound.
  suffices h : ∀ bound n, P (ρ.state n) → rank (ρ.state n) ≤ bound →
      ∃ m, n ≤ m ∧ Q (ρ.state m) from fun n hP => h _ n hP (Nat.le_refl _)
  intro bound
  induction bound using Nat.strongRecOn with
  | ind bound ih =>
    intro n hP hbound
    by_contra hnone
    have hQ : ∀ m, n ≤ m → ¬Q (ρ.state m) := fun m hm hq => hnone ⟨m, hm, hq⟩
    have hlasts : ∀ m, n ≤ m → P (ρ.state m) ∧ rank (ρ.state m) ≤ rank (ρ.state n) :=
      fun m hm => lasts keep hP hQ hm
    obtain ⟨m, hm, a, hlabel, hp⟩ := fair n fun m hm =>
      (enabled _ (ρ.reachable m) (hlasts m hm).1).resolve_left (hQ m hm)
    have hstep := ρ.next m
    rw [hlabel] at hstep
    have hlt : rank (ρ.state (m + 1)) < rank (ρ.state m) :=
      (down _ _ _ (ρ.reachable m) (hlasts m hm).1 hp hstep).resolve_left (hQ (m + 1) (by omega))
    have hle := (hlasts m hm).2
    obtain ⟨k, hk, hq⟩ := ih (rank (ρ.state (m + 1))) (by omega) (m + 1)
      (hlasts (m + 1) (by omega)).1 (Nat.le_refl _)
    exact hQ k (by omega) hq

/-- The rule for one party whose first step brings about `Q`. -/
theorem leadsTo_of_step {p : α → Prop} (fair : ρ.WeakFair p)
    (keep : ∀ s a s', M.Reachable s → P s → M.next s a = some s' → Q s' ∨ P s')
    (step : ∀ s a s', M.Reachable s → P s → p a → M.next s a = some s' → Q s')
    (enabled : ∀ s, M.Reachable s → P s → Q s ∨ M.Enabled p s) : ρ.LeadsTo P Q :=
  leadsTo_of_rank (fun _ => 0) fair
    (fun s a s' hr hP hn => (keep s a s' hr hP hn).imp id fun h => ⟨h, Nat.le_refl _⟩)
    (fun s a s' hr hP hp hn => .inl (step s a s' hr hP hp hn)) enabled

/-- The rule for one party that works through a queue. `P i` says that what is waited for is at the
place `i` of the queue. -/
theorem leadsTo_of_place {P : Nat → σ → Prop} {p : α → Prop} (fair : ρ.WeakFair p)
    (keep : ∀ i s a s', M.Reachable s → P i s → M.next s a = some s' →
      Q s' ∨ ∃ j, P j s' ∧ j ≤ i ∧ (p a → j < i))
    (enabled : ∀ i s, M.Reachable s → P i s → Q s ∨ M.Enabled p s) (i : Nat) :
    ρ.LeadsTo (P i) Q := by
  induction i using Nat.strongRecOn with
  | ind i ih =>
    -- A step keeps the place or lowers it, and those of `p` lower it.
    have hstep : ∀ s a s', M.Reachable s → P i s → M.next s a = some s' →
        (Q s' ∨ ∃ j < i, P j s') ∨ P i s' ∧ ¬p a := by
      intro s a s' hr hP hn
      rcases keep i s a s' hr hP hn with hq | ⟨j, hj, hle, hlt⟩
      · exact .inl (.inl hq)
      · rcases Nat.lt_or_eq_of_le hle with hlt' | rfl
        · exact .inl (.inr ⟨j, hlt', hj⟩)
        · exact .inr ⟨hj, fun ha => Nat.lt_irrefl j (hlt ha)⟩
    have hcloser : ρ.LeadsTo (P i) (fun s => Q s ∨ ∃ j < i, P j s) := by
      refine leadsTo_of_step fair ?_ ?_ ?_
      · exact fun s a s' hr hP hn => (hstep s a s' hr hP hn).imp id And.left
      · exact fun s a s' hr hP ha hn => (hstep s a s' hr hP hn).resolve_right fun h => h.2 ha
      · exact fun s hr hP => (enabled i s hr hP).imp .inl id
    -- The place has got smaller, and the induction goes on from there.
    intro n hP
    obtain ⟨m, hm, hq | ⟨j, hj, hp⟩⟩ := hcloser n hP
    · exact ⟨m, hm, hq⟩
    · obtain ⟨k, hk, hq⟩ := ih j hj m hp
      exact ⟨k, Nat.le_trans hm hk, hq⟩

/-! ### Paths of finite runs -/

/-- One more label of a run that goes through. -/
theorem next_take {s t : σ} {as : List α} (h : M.run s as = some t) (n : Nat) :
    match as[n]? with
    | none => (M.run s (as.take (n + 1))).getD s = (M.run s (as.take n)).getD s
    | some a => M.next ((M.run s (as.take n)).getD s) a =
        some ((M.run s (as.take (n + 1))).getD s) := by
  -- Every prefix of a run is a run.
  have hrun : ∀ k, ∃ u, M.run s (as.take k) = some u := by
    intro k
    rw [← List.take_append_drop k as, run_append, Option.bind_eq_some_iff] at h
    obtain ⟨u, hu, -⟩ := h
    exact ⟨u, hu⟩
  obtain ⟨u, hu⟩ := hrun n
  obtain ⟨v, hv⟩ := hrun (n + 1)
  cases ha : as[n]? with
  | none =>
    have hlen := List.getElem?_eq_none_iff.mp ha
    simp only
    rw [List.take_of_length_le hlen, List.take_of_length_le (Nat.le_succ_of_le hlen)]
  | some a =>
    simp only
    rw [List.take_add_one, ha, Option.toList_some, run_append, hu] at hv
    rw [List.take_add_one, ha, Option.toList_some, run_append, hu]
    simp only [Lts.run, Option.bind_some, Option.getD_some] at hv ⊢
    cases hn : M.next u a with
    | none =>
      rw [hn] at hv
      cases hv
    | some w => rfl

/-- A run taken in order, and then nothing. -/
def ofRun {s t : σ} (as : List α) (h0 : M.init s) (h : M.run s as = some t) : M.Path where
  state n := (M.run s (as.take n)).getD s
  label n := as[n]?
  init := h0
  next := next_take h

/-- A finite run is fair to a party that cannot step at its end. -/
theorem fair_ofRun {s t : σ} {as : List α} {h0 : M.init s} {h : M.run s as = some t}
    {p : α → Prop} (hend : ¬M.Enabled p t) : (ofRun as h0 h).WeakFair p := by
  intro n hen
  refine absurd (hen (max n as.length) (Nat.le_max_left _ _)) ?_
  show ¬M.Enabled p ((M.run s (as.take (max n as.length))).getD s)
  rw [List.take_of_length_le (Nat.le_max_right _ _), h]
  exact hend

/-- The state of a finite run after some of its labels. -/
theorem state_ofRun {s t u : σ} {as : List α} {h0 : M.init s} {h : M.run s as = some t} {n : Nat}
    (hu : M.run s (as.take n) = some u) : (ofRun as h0 h).state n = u := by
  show (M.run s (as.take n)).getD s = u
  rw [hu, Option.getD_some]

end Path

end Lts

end Nagoya.Lib
