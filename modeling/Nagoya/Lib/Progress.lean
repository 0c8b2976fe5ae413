import Mathlib.Data.List.Induction
import Nagoya.Lib.Pool

/-!
# `Nagoya.Lib.Progress`: loops that move things piece by piece

A loop moves things until there are enough of them. It asks for the rest, and each answer is how
many were moved or an error. Zero moved is an error of the loop's own, some errors are asked
again, and every other error ends the loop. The `Policy` says which. After its end the loop takes
no answer.

`Follows R answers p` is what a loop in the state `p` has to do with the answers it took. It
holds at the head of the loop (`follows_resume`) and every answer keeps it (`follows_step`).
From it, `Follows.ended_ok` and `Follows.ended_error` say how a loop ends, whatever the order of
the answers was. `foldl_follows` is the induction rule over the answers taken so far.
-/

set_option autoImplicit false

namespace Nagoya.Lib

variable {ε : Type}

/-- How many things the answers moved. -/
def moved (answers : List (Except ε Nat)) : Nat :=
  tally (fun answer => answer.toOption.getD 0) answers

@[simp] theorem moved_nil : moved ([] : List (Except ε Nat)) = 0 := rfl

@[simp] theorem moved_ok (n : Nat) : moved [(.ok n : Except ε Nat)] = n := rfl

@[simp] theorem moved_error (e : ε) : moved [(.error e : Except ε Nat)] = 0 := rfl

@[simp] theorem moved_append (l k : List (Except ε Nat)) : moved (l ++ k) = moved l + moved k :=
  tally_append _ l k

/-- How far a loop is, and how it ended. -/
@[ext]
structure Progress (ε : Type) where
  done : Nat
  ended : Option (Except ε Unit)

/-- When there are enough things, the error for an answer of zero, and the errors that are asked
again. -/
structure Policy (ε : Type) where
  enough : Nat → Bool
  zero : ε
  retry : ε → Bool

/-- The induction rule for a loop over a list: what is claimed may speak of the part of the list
that is done. -/
theorem foldl_follows {σ α : Type} {f : σ → α → σ} {P : List α → σ → Prop} {s : σ}
    (h0 : P [] s) (hs : ∀ l s a, P l s → P (l ++ [a]) (f s a)) (l : List α) :
    P l (l.foldl f s) := by
  induction l using List.reverseRecOn with
  | nil => exact h0
  | append_singleton l a ih =>
    rw [List.foldl_append]
    exact hs l _ a ih

/-! ### The record of a loop's calls -/

/-- The calls are made one after the other, and the script answers them in order. `answers` says
what a call is, by the calls before it and the answer it gets. -/
def Played {ρ γ : Type} (answers : List γ → ρ → γ → Prop) (script : List ρ) (calls : List γ) :
    Prop :=
  ∀ i c, calls[i]? = some c → ∃ r, script[i]? = some r ∧ answers (calls.take i) r c

namespace Played

variable {ρ γ : Type} {answers : List γ → ρ → γ → Prop} {script : List ρ} {calls : List γ} {r : ρ}
  {c : γ}

theorem nil : Played answers script [] := fun i c h => by simp at h

/-- Answers that are not taken yet do not matter. -/
theorem wait (h : Played answers script calls) : Played answers (script ++ [r]) calls := by
  intro i c hi
  obtain ⟨r', hr', ha⟩ := h i c hi
  refine ⟨r', ?_, ha⟩
  rw [List.getElem?_append_left (List.getElem?_eq_some_iff.mp hr').1]
  exact hr'

/-- One more call takes the next answer. -/
theorem snoc (h : Played answers script calls) (hlen : calls.length = script.length)
    (ha : answers calls r c) : Played answers (script ++ [r]) (calls ++ [c]) := by
  intro i c' hi
  rcases Nat.lt_trichotomy i calls.length with hlt | heq | hgt
  · rw [List.getElem?_append_left hlt] at hi
    rw [List.take_append_of_le_length (Nat.le_of_lt hlt)]
    exact h.wait i c' hi
  · rw [heq, List.getElem?_concat_length] at hi
    cases hi
    refine ⟨r, ?_, ?_⟩
    · rw [heq, hlen, List.getElem?_concat_length]
    · rwa [heq, List.take_left]
  · rw [List.getElem?_eq_none (by simpa using Nat.succ_le_of_lt hgt)] at hi
    cases hi

end Played

namespace Policy

variable (R : Policy ε)

/-- The loop is at its head with `done` things moved. -/
def resume (done : Nat) : Progress ε :=
  if R.enough done then ⟨done, some (.ok ())⟩ else ⟨done, none⟩

/-- The loop takes one answer. -/
def step (p : Progress ε) (answer : Except ε Nat) : Progress ε :=
  match p.ended with
  | some _ => p
  | none =>
    match answer with
    | .ok 0 => { p with ended := some (.error R.zero) }
    | .ok n => R.resume (p.done + n)
    | .error e => if R.retry e then p else { p with ended := some (.error e) }

/-- An answer after which the loop goes on. -/
def GoesOn : Except ε Nat → Prop
  | .ok n => 0 < n
  | .error e => R.retry e = true

/-- An answer that ends the loop with the error `e`. -/
def EndsWith (e : ε) : Except ε Nat → Prop
  | .ok n => n = 0 ∧ e = R.zero
  | .error e' => e' = e ∧ R.retry e = false

/-- What a loop has to do with the answers it took. -/
def Follows (answers : List (Except ε Nat)) (p : Progress ε) : Prop :=
  p.done = moved answers ∧
  match p.ended with
  | none => R.enough (moved answers) = false ∧ ∀ a ∈ answers, R.GoesOn a
  | some (.ok ()) => R.enough (moved answers) = true ∧ ∀ a ∈ answers, R.GoesOn a
  | some (.error e) => R.enough (moved answers) = false ∧
      ∃ before last, answers = before ++ [last] ∧ (∀ a ∈ before, R.GoesOn a) ∧ R.EndsWith e last

variable {R} {answers : List (Except ε Nat)} {p : Progress ε} {a : Except ε Nat}

/-- An answer of zero ends the loop. -/
theorem step_zero (hp : p.ended = none) :
    R.step p (.ok 0) = { p with ended := some (.error R.zero) } := by
  simp only [step, hp]

/-- An answer of more than zero brings the loop to its head. -/
theorem step_succ (hp : p.ended = none) (n : Nat) :
    R.step p (.ok (n + 1)) = R.resume (p.done + (n + 1)) := by
  simp only [step, hp]

/-- An error ends the loop, unless it is asked again. -/
theorem step_error (hp : p.ended = none) (e : ε) :
    R.step p (.error e) = if R.retry e then p else { p with ended := some (.error e) } := by
  simp only [step, hp]

/-- An answer cannot both end the loop and let it go on. -/
theorem EndsWith.not_goesOn {e : ε} (h : R.EndsWith e a) : ¬R.GoesOn a := by
  cases a with
  | ok n =>
    obtain ⟨rfl, -⟩ := h
    exact Nat.lt_irrefl 0
  | error e' =>
    obtain ⟨rfl, h⟩ := h
    exact fun hg => by rw [GoesOn, h] at hg; cases hg

/-- An answer ends the loop with one error at most. -/
theorem EndsWith.unique {e e' : ε} (h : R.EndsWith e a) (h' : R.EndsWith e' a) : e = e' := by
  cases a with
  | ok n => exact h.2.trans h'.2.symm
  | error e'' => exact h.1.symm.trans h'.1

/-- The answers of which one ends the loop with the error `e`. -/
theorem exists_endsWith_iff {e : ε} : (∃ a ∈ answers, R.EndsWith e a) ↔
    (e = R.zero ∧ .ok 0 ∈ answers) ∨ (R.retry e = false ∧ .error e ∈ answers) := by
  constructor
  · rintro ⟨a, ha, h⟩
    cases a with
    | ok n =>
      obtain ⟨rfl, he⟩ := h
      exact .inl ⟨he, ha⟩
    | error e' =>
      obtain ⟨rfl, he⟩ := h
      exact .inr ⟨he, ha⟩
  · rintro (⟨he, ha⟩ | ⟨he, ha⟩)
    · exact ⟨_, ha, rfl, he⟩
    · exact ⟨_, ha, rfl, he⟩

/-- A loop at its head follows answers that let it go on. -/
theorem follows_resume (h : ∀ a ∈ answers, R.GoesOn a) :
    R.Follows answers (R.resume (moved answers)) := by
  unfold resume
  cases hfull : R.enough (moved answers) with
  | true =>
    rw [if_pos rfl]
    exact ⟨rfl, hfull, h⟩
  | false =>
    rw [if_neg Bool.false_ne_true]
    exact ⟨rfl, hfull, h⟩

/-- One answer to a loop that has not ended. -/
theorem follows_step (h : R.Follows answers p) (hp : p.ended = none) :
    R.Follows (answers ++ [a]) (R.step p a) := by
  unfold Follows at h
  rw [hp] at h
  obtain ⟨hdone, hfull, hon⟩ := h
  have snoc (hg : R.GoesOn a) : ∀ b ∈ answers ++ [a], R.GoesOn b := by
    intro b hb
    rcases List.mem_append.mp hb with hb | hb
    · exact hon b hb
    · rw [List.mem_singleton.mp hb]
      exact hg
  -- One case per kind of answer: nothing moved, something moved, an error.
  match a with
  | .ok 0 =>
    have hm : moved (answers ++ [.ok 0]) = moved answers := by simp
    rw [step_zero hp]
    exact ⟨hdone.trans hm.symm, by rwa [hm], answers, .ok 0, rfl, hon, rfl, rfl⟩
  | .ok (n + 1) =>
    have hm : p.done + (n + 1) = moved (answers ++ [.ok (n + 1)]) := by simp [hdone]
    rw [step_succ hp, hm]
    exact follows_resume (snoc (Nat.succ_pos n))
  -- A retried error goes on, and any other one ends the loop.
  | .error e =>
    have hm : moved (answers ++ [.error e]) = moved answers := by simp
    rw [step_error hp]
    cases he : R.retry e with
    | true =>
      rw [if_pos rfl]
      refine ⟨hdone.trans hm.symm, ?_⟩
      rw [hp, hm]
      exact ⟨hfull, snoc he⟩
    | false =>
      rw [if_neg Bool.false_ne_true]
      refine ⟨hdone.trans hm.symm, ?_⟩
      rw [hm]
      exact ⟨hfull, answers, .error e, rfl, hon, rfl, he⟩

namespace Follows

/-- The counter is what was moved. -/
theorem done_eq (h : R.Follows answers p) : p.done = moved answers := h.1

/-- A loop has ended well exactly when enough was moved. -/
theorem ended_ok (h : R.Follows answers p) :
    p.ended = some (.ok ()) ↔ R.enough (moved answers) = true := by
  obtain ⟨-, h⟩ := h
  split at h
  · rename_i hp
    rw [hp, h.1]
    exact ⟨nofun, nofun⟩
  · rename_i hp
    exact ⟨fun _ => h.1, fun _ => hp⟩
  · rename_i e hp
    rw [hp, h.1]
    exact ⟨nofun, nofun⟩

/-- A loop has ended with an error exactly when an answer ends it so. -/
theorem ended_error (h : R.Follows answers p) (e : ε) :
    p.ended = some (.error e) ↔
      (e = R.zero ∧ .ok 0 ∈ answers) ∨ (R.retry e = false ∧ .error e ∈ answers) := by
  rw [← exists_endsWith_iff]
  obtain ⟨-, h⟩ := h
  split at h
  · rename_i hp
    rw [hp]
    exact ⟨nofun, fun ⟨a, ha, he⟩ => absurd (h.2 a ha) he.not_goesOn⟩
  · rename_i hp
    rw [hp]
    exact ⟨nofun, fun ⟨a, ha, he⟩ => absurd (h.2 a ha) he.not_goesOn⟩
  · rename_i e' hp
    obtain ⟨-, before, last, rfl, hon, hlast⟩ := h
    rw [hp]
    constructor
    · intro heq
      cases heq
      exact ⟨last, by simp, hlast⟩
    · rintro ⟨a, ha, he⟩
      -- Only the last answer can have ended the loop.
      rcases List.mem_append.mp ha with ha | ha
      · exact absurd (hon a ha) he.not_goesOn
      · rw [List.mem_singleton.mp ha] at he
        rw [he.unique hlast]

/-- The answers decide how far a loop is. -/
theorem unique {q : Progress ε} (h : R.Follows answers p) (hq : R.Follows answers q) : p = q := by
  have hended : ∀ r, p.ended = some r ↔ q.ended = some r
    | .ok () => h.ended_ok.trans hq.ended_ok.symm
    | .error e => (h.ended_error e).trans (hq.ended_error e).symm
  exact Progress.ext (h.done_eq.trans hq.done_eq.symm) (Option.ext hended)

/-- Every answer but the last let the loop go on. -/
theorem dropLast_goesOn (h : R.Follows answers p) (ha : a ∈ answers.dropLast) :
    a ≠ .ok 0 ∧ ∀ e, a = .error e → R.retry e = true := by
  have hon : R.GoesOn a := by
    obtain ⟨-, h⟩ := h
    split at h
    · exact h.2 a (List.dropLast_subset _ ha)
    · exact h.2 a (List.dropLast_subset _ ha)
    · obtain ⟨-, before, last, rfl, hon, -⟩ := h
      rw [List.dropLast_concat] at ha
      exact hon a ha
  constructor
  · rintro rfl
    exact Nat.lt_irrefl 0 hon
  · rintro e rfl
    exact hon

end Follows

end Policy

end Nagoya.Lib
