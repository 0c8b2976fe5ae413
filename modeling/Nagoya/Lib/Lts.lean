import Mathlib.Data.List.Basic

/-!
# `Nagoya.Lib.Lts`: executable transition systems and their runs

An `Lts` is a set of initial states and a partial step function. A label names the party
that moves and every choice the environment makes, so `next` is a function and an
interleaving is a list of labels. `next s a = none` says that `a` is not enabled in `s`.

`Reach ok` is reachability by steps that all meet the side condition `ok`. A result about
every run uses `Reachable`, which is `Reach` with no condition. A result about the runs that
avoid a step, or that stay inside a bound, uses `Reach` with that condition.

`Reach.invariant` is the induction rule of this development: a property of the initial
states that every step keeps holds in every state reached. `runWhere` runs a list of labels,
and `Reach.of_runWhere` turns a run into reachability. A run is evaluated by the kernel, so
a history can be replayed on a concrete system.
-/

set_option autoImplicit false

namespace Nagoya.Lib

/-- A transition system with states `σ` and labels `α`. -/
structure Lts (σ α : Type) where
  init : σ → Prop
  next : σ → α → Option σ

namespace Lts

variable {σ α : Type} (M : Lts σ α)

/-- The states that a run reaches when each of its steps meets `ok`. -/
inductive Reach (ok : σ → α → σ → Prop) : σ → Prop where
  | init {s : σ} (h : M.init s) : Reach ok s
  | step {s s' : σ} {a : α} (hr : Reach ok s) (hn : M.next s a = some s')
      (hok : ok s a s') : Reach ok s'

/-- The states that some run reaches. -/
def Reachable (s : σ) : Prop := M.Reach (fun _ _ _ => True) s

/-- The state after the labels `as`, taken in order from `s`. The result is `none` when a
label is not enabled or its step does not meet `ok`. -/
def runWhere (ok : σ → α → σ → Prop) [∀ s a s', Decidable (ok s a s')] :
    σ → List α → Option σ
  | s, [] => some s
  | s, a :: as => (M.next s a).bind fun s' => if ok s a s' then runWhere ok s' as else none

/-- The state after the labels `as`, taken in order from `s`. -/
def run : σ → List α → Option σ
  | s, [] => some s
  | s, a :: as => (M.next s a).bind fun s' => run s' as

variable {M}

/-- The induction rule for runs under a side condition. -/
theorem Reach.invariant {ok : σ → α → σ → Prop} {P : σ → Prop} {s : σ}
    (hr : M.Reach ok s) (h0 : ∀ s, M.init s → P s)
    (hs : ∀ s a s', P s → M.next s a = some s' → ok s a s' → P s') : P s := by
  induction hr with
  | init h => exact h0 _ h
  | step _ hn hok ih => exact hs _ _ _ ih hn hok

/-- The induction rule for every run. -/
theorem Reachable.invariant {P : σ → Prop} {s : σ} (hr : M.Reachable s)
    (h0 : ∀ s, M.init s → P s) (hs : ∀ s a s', P s → M.next s a = some s' → P s') : P s :=
  Reach.invariant hr h0 fun s a s' hP hn _ => hs s a s' hP hn

/-- A run under a side condition is a run under a weaker one. -/
theorem Reach.mono {ok ok' : σ → α → σ → Prop} {s : σ} (hr : M.Reach ok s)
    (h : ∀ s a s', ok s a s' → ok' s a s') : M.Reach ok' s := by
  induction hr with
  | init h0 => exact .init h0
  | step _ hn hok ih => exact .step ih hn (h _ _ _ hok)

/-- A run under a side condition is a run. -/
theorem Reach.reachable {ok : σ → α → σ → Prop} {s : σ} (hr : M.Reach ok s) :
    M.Reachable s :=
  hr.mono fun _ _ _ _ => trivial

/-- One more step of a run. -/
theorem Reachable.next {s s' : σ} {a : α} (hr : M.Reachable s) (hn : M.next s a = some s') :
    M.Reachable s' :=
  .step hr hn trivial

/-- Forward simulation. When the other system matches every initial state and every step, each
reachable state is related to a reachable state of the other. -/
theorem Reachable.simulate {τ β : Type} {N : Lts τ β} {R : σ → τ → Prop} {s : σ}
    (hr : M.Reachable s) (h0 : ∀ s, M.init s → ∃ t, N.init t ∧ R s t)
    (hs : ∀ s a s' t, R s t → M.next s a = some s' → ∃ b t', N.next t b = some t' ∧ R s' t') :
    ∃ t, N.Reachable t ∧ R s t := by
  refine hr.invariant (P := fun s => ∃ t, N.Reachable t ∧ R s t) ?_ ?_
  · intro s hi
    obtain ⟨t, ht, hR⟩ := h0 s hi
    exact ⟨t, .init ht, hR⟩
  · rintro s a s' ⟨t, ht, hR⟩ hn
    obtain ⟨b, t', hb, hR'⟩ := hs s a s' t hR hn
    exact ⟨t', ht.next hb, hR'⟩

/-- Two lists of labels, run one after the other. -/
theorem runWhere_append {ok : σ → α → σ → Prop} [∀ s a s', Decidable (ok s a s')]
    (as bs : List α) (s : σ) :
    M.runWhere ok s (as ++ bs) =
      (M.runWhere ok s as).bind fun s' => M.runWhere ok s' bs := by
  induction as generalizing s with
  | nil => rfl
  | cons a as ih =>
    show ((M.next s a).bind fun s' => if ok s a s' then M.runWhere ok s' (as ++ bs) else none) =
      ((M.next s a).bind fun s' => if ok s a s' then M.runWhere ok s' as else none).bind _
    rw [Option.bind_assoc]
    congr 1
    funext s'
    split
    · exact ih s'
    · rfl

/-- Two lists of labels, run one after the other. -/
theorem run_append (as bs : List α) (s : σ) :
    M.run s (as ++ bs) = (M.run s as).bind fun s' => M.run s' bs := by
  induction as generalizing s with
  | nil => rfl
  | cons a as ih =>
    show (M.next s a).bind (fun s' => M.run s' (as ++ bs)) =
      ((M.next s a).bind fun s' => M.run s' as).bind _
    rw [Option.bind_assoc]
    congr 1
    funext s'
    exact ih s'

/-- A list of labels that runs from a reached state reaches its last state. -/
theorem Reach.runWhere {ok : σ → α → σ → Prop} [∀ s a s', Decidable (ok s a s')] {s s' : σ}
    {as : List α} (hr : M.Reach ok s) (h : M.runWhere ok s as = some s') : M.Reach ok s' := by
  induction as generalizing s with
  | nil =>
    cases h
    exact hr
  | cons a as ih =>
    rw [Lts.runWhere, Option.bind_eq_some_iff] at h
    obtain ⟨s₁, hn, h⟩ := h
    split at h
    · rename_i hok
      exact ih (.step hr hn hok) h
    · cases h

/-- A list of labels that runs from an initial state reaches its last state. -/
theorem Reach.of_runWhere {ok : σ → α → σ → Prop} [∀ s a s', Decidable (ok s a s')]
    {s s' : σ} {as : List α} (h0 : M.init s) (h : M.runWhere ok s as = some s') :
    M.Reach ok s' :=
  (Reach.init h0).runWhere h

/-- A list of labels that runs from a reached state reaches its last state. -/
theorem Reachable.run {s s' : σ} {as : List α} (hr : M.Reachable s)
    (h : M.run s as = some s') : M.Reachable s' := by
  induction as generalizing s with
  | nil =>
    cases h
    exact hr
  | cons a as ih =>
    rw [Lts.run, Option.bind_eq_some_iff] at h
    obtain ⟨s₁, hn, h⟩ := h
    exact ih (hr.next hn) h

/-- A list of labels that runs from an initial state reaches its last state. -/
theorem Reachable.of_run {s s' : σ} {as : List α} (h0 : M.init s)
    (h : M.run s as = some s') : M.Reachable s' :=
  Reachable.run (.init h0) h

/-- When a function maps every step of one system to a step of the other under the same label, it
maps every run so. -/
theorem run_map {τ : Type} {N : Lts τ α} {f : σ → τ}
    (hs : ∀ s a, N.next (f s) a = (M.next s a).map f) (as : List α) (s : σ) :
    N.run (f s) as = (M.run s as).map f := by
  induction as generalizing s with
  | nil => rfl
  | cons a as ih =>
    show (N.next (f s) a).bind _ = ((M.next s a).bind _).map f
    rw [hs]
    cases M.next s a with
    | none => rfl
    | some s' => exact ih s'

/-- A run of `as` whose last state passes the check `p` ends in a reachable state where `p`
holds. -/
theorem Reachable.exists_of_run {s : σ} (as : List α) (p : σ → Bool) (h0 : M.init s)
    (h : (M.run s as).map p = some true) : ∃ s', M.Reachable s' ∧ p s' = true := by
  rw [Option.map_eq_some_iff] at h
  obtain ⟨s', hrun, hp⟩ := h
  exact ⟨s', .of_run h0 hrun, hp⟩

/-- A run of `as` under a side condition, whose last state passes the check `p`, ends in a state
reached under that condition where `p` holds. -/
theorem Reach.exists_of_runWhere (ok : σ → α → σ → Prop) [∀ s a s', Decidable (ok s a s')]
    {s : σ} (as : List α) (p : σ → Bool) (h0 : M.init s)
    (h : (M.runWhere ok s as).map p = some true) : ∃ s', M.Reach ok s' ∧ p s' = true := by
  rw [Option.map_eq_some_iff] at h
  obtain ⟨s', hrun, hp⟩ := h
  exact ⟨s', .of_runWhere h0 hrun, hp⟩

end Lts

end Nagoya.Lib
