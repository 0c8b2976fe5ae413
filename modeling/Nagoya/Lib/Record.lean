import Nagoya.Lib.Lts

/-!
# `Nagoya.Lib.Record`: what a run leaves on record

A result about a run may need what its last state does not keep: what the environment answered on
the way, or who changed an entry last. `Lts.record` goes along a run and adds each step to a record.
No step reads it, so a record changes nothing about the runs. `record_invariant` is the induction
rule for a record and a state together.

`lastBy` is the record of who changed each entry of a map last. An entry that `p` changed last, and
that is still on, is one that `p` answers for. Its own steps have to keep this (`Carries`,
`accounted_self`), and those of the others keep it by themselves (`accounted_other`).
-/

set_option autoImplicit false

namespace Nagoya.Lib

namespace Lts

variable {σ α ρ : Type} {M : Lts σ α}

/-- The record of the labels `as`, taken in order from `s`. `keep` adds a step to it. -/
def record (M : Lts σ α) (keep : ρ → σ → α → σ → ρ) : ρ → σ → List α → ρ
  | r, _, [] => r
  | r, s, a :: as =>
    match M.next s a with
    | some s' => record M keep (keep r s a s') s' as
    | none => r

/-- The induction rule for the record of a run. -/
theorem record_invariant {keep : ρ → σ → α → σ → ρ} {P : ρ → σ → Prop} {r : ρ} {s s' : σ}
    {as : List α} (hrun : M.run s as = some s') (h0 : P r s)
    (hs : ∀ r s a s', P r s → M.next s a = some s' → P (keep r s a s') s') :
    P (M.record keep r s as) s' := by
  induction as generalizing r s with
  | nil =>
    cases hrun
    exact h0
  | cons a as ih =>
    rw [Lts.run, Option.bind_eq_some_iff] at hrun
    obtain ⟨s₁, hn, hrun⟩ := hrun
    rw [record, hn]
    exact ih hrun (hs _ _ _ _ h0 hn)

end Lts

/-! ### Who changed an entry last -/

section
variable {ι β π : Type} [DecidableEq β]

/-- Who changed each entry last, after a step of `p` from `before` to `after`. -/
def lastBy (last : ι → Option π) (p : π) (before after : ι → β) : ι → Option π :=
  fun i => if before i = after i then last i else some p

variable {last : ι → Option π} {p q : π} {before after : ι → β}

theorem lastBy_of_eq {i : ι} (h : before i = after i) :
    lastBy last p before after i = last i :=
  if_pos h

theorem lastBy_of_ne {i : ι} (h : before i ≠ after i) :
    lastBy last p before after i = some p :=
  if_neg h

/-- An entry that `p` changed last and that is on is one that `p` answers for. `on` says which
values count, and `has` what `p` answers for. -/
def Accounted (last : ι → Option π) (p : π) (map : ι → β) (on : β → Prop) (has : ι → Prop) :
    Prop :=
  ∀ i, last i = some p → on (map i) → has i

/-- A step that answers for what it turns on, and goes on to answer for what it leaves on. `has` is
what was answered for before the step, and `has'` after it. -/
structure Carries (on : β → Prop) (before after : ι → β) (has has' : ι → Prop) : Prop where
  same : ∀ i, before i = after i → on (after i) → has i → has' i
  new : ∀ i, before i ≠ after i → on (after i) → has' i

omit [DecidableEq β] in
/-- A step that changes nothing. -/
theorem Carries.refl {on : β → Prop} {has has' : ι → Prop} (h : ∀ i, has i → has' i) :
    Carries on before before has has' where
  same i _ _ := h i
  new _ hne := absurd rfl hne

omit [DecidableEq β] in
/-- A step that changes one entry. -/
theorem Carries.update [DecidableEq ι] {on : β → Prop} {has has' : ι → Prop} {k : ι} {v : β}
    (h : ∀ i, i ≠ k → has i → has' i) (hk : on v → has' k) :
    Carries on before (Function.update before k v) has has' where
  same i _ hon hhas := by
    by_cases hi : i = k
    · subst hi
      rw [Function.update_self] at hon
      exact hk hon
    · exact h i hi hhas
  new i hne hon := by
    by_cases hi : i = k
    · subst hi
      rw [Function.update_self] at hon
      exact hk hon
    · rw [Function.update_of_ne hi] at hne
      exact absurd rfl hne

/-- A step of `p` keeps its accounts. -/
theorem accounted_self {on : β → Prop} {has has' : ι → Prop}
    (h : Accounted last p before on has) (hc : Carries on before after has has') :
    Accounted (lastBy last p before after) p after on has' := by
  intro i hlast hon
  by_cases heq : before i = after i
  · rw [lastBy_of_eq heq] at hlast
    exact hc.same i heq hon (h i hlast (heq ▸ hon))
  · exact hc.new i heq hon

/-- A step of somebody else keeps the accounts of `p`: an entry that it changes is no longer one
of `p`. -/
theorem accounted_other {on : β → Prop} {has has' : ι → Prop} (hne : q ≠ p)
    (h : Accounted last p before on has) (hhas : ∀ i, has i → has' i) :
    Accounted (lastBy last q before after) p after on has' := by
  intro i hlast hon
  by_cases heq : before i = after i
  · rw [lastBy_of_eq heq] at hlast
    exact hhas i (h i hlast (heq ▸ hon))
  · rw [lastBy_of_ne heq] at hlast
    cases hlast
    exact absurd rfl hne

/-- An entry that was left alone has the value that it had, or `q` changed it before. -/
theorem stands_of_eq {i : ι} {v : β} (h : before i = v ∨ last i = some q)
    (heq : before i = after i) : after i = v ∨ lastBy last p before after i = some q := by
  rw [lastBy_of_eq heq, ← heq]
  exact h

/-- After a step of `q` an entry has the value that it had, or `q` has changed it. -/
theorem stands_other {i : ι} {v : β} (h : before i = v ∨ last i = some q) :
    after i = v ∨ lastBy last q before after i = some q := by
  by_cases heq : before i = after i
  · exact stands_of_eq h heq
  · exact .inr (lastBy_of_ne heq)

end

end Nagoya.Lib
