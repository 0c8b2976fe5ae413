import Nagoya.Lib.Pool
import Nagoya.Task
import Mathlib.Data.List.Basic

/-!
# `Nagoya.Proofs.Task`: every runnable goes to its own pool, once

`Moves` lists what a call of the closure can do. `Call.Ok` says for each of its points what it has
done with the runnable so far: nothing, until the point where it may return. The host's visits are
the only steps in between, and `local` hands the runnable over at the first visit that names the
task's own pool and one of its workers.

The flag is taken by the first call, since a second runnable exists only after the first was run or
dropped (`Inv.unused`). So no later call can use the preference.
-/

set_option autoImplicit false

namespace Nagoya.Task

open Nagoya.Lib

variable {cfg : Config}

/-! ### What a call does -/

/-- The steps of the call `c`: the flag after it, and the call. -/
inductive Moves (cfg : Config) (s : State) (c : Call) : Bool → Call → Prop where
  | swapFirst (w : Nat) (hpc : c.pc = .swap) (hfirst : s.first = true)
      (hw : cfg.firstWorker = some w) : Moves cfg s c false { c with pc := .upgradeFirst w }
  | swap (hpc : c.pc = .swap) (h : s.first = false ∨ cfg.firstWorker = none) :
      Moves cfg s c false { c with pc := .visiting true }
  | upgradeFirst (w : Nat) (hpc : c.pc = .upgradeFirst w) :
      Moves cfg s c s.first { c with pc := .submitFirst w }
  | submitFirst (w : Nat) (hpc : c.pc = .submitFirst w) (hw : w < cfg.workers) :
      Moves cfg s c s.first (c.finish (.submitLocal cfg.pool w) true)
  | invalid (w : Nat) (hpc : c.pc = .submitFirst w) (hw : ¬ w < cfg.workers) :
      Moves cfg s c s.first { c with pc := .panicked }
  | gone (preferred : Bool) (hpc : c.pc = .upgrade ∧ preferred = false ∨
        (∃ w, c.pc = .upgradeFirst w) ∧ preferred = true) (halive : s.alive = false) :
      Moves cfg s c s.first (c.finish .drop preferred)
  /-- The host reports a worker. -/
  | visit (runnable : Bool) (pool worker : Nat) (hpc : c.pc = .visiting runnable) :
      Moves cfg s c s.first
        { c with
          pc := .visiting (localVisit cfg runnable pool worker).1
          effects := c.effects ++ (localVisit cfg runnable pool worker).2 }
  /-- The visits are over, perhaps with the one of the thread's own worker. -/
  | visited (runnable runnable' : Bool) (effects : List Effect) (hpc : c.pc = .visiting runnable)
      (h : (runnable', effects) = (runnable, []) ∨
        ∃ pool worker, (runnable', effects) = localVisit cfg runnable pool worker) :
      Moves cfg s c s.first ({ c with effects := c.effects ++ effects }.visited runnable')
  | upgrade (hpc : c.pc = .upgrade) : Moves cfg s c s.first { c with pc := .workerFor }
  | workerFor (answer : Option Nat) (hpc : c.pc = .workerFor) :
      Moves cfg s c s.first { c with pc := .submit (inPool cfg answer) }
  | submitLocal (w : Nat) (hpc : c.pc = .submit (some w)) :
      Moves cfg s c s.first (c.finish (.submitLocal cfg.pool w) false)
  | submitJob (hpc : c.pc = .submit none) :
      Moves cfg s c s.first (c.finish (.submitJob cfg.pool) false)

/-- Every step that a call makes by itself is one constructor of `Moves`. -/
theorem advance_moves {s : State} {c c' : Call} {first : Bool}
    (h : advance cfg s c = some (first, c')) : Moves cfg s c first c' := by
  unfold advance at h
  -- One branch of the source for each program point.
  split at h
  · rename_i hpc
    cases h
    split
    · rename_i hfirst hw
      exact .swapFirst _ hpc hfirst hw
    · rename_i hno
      refine .swap hpc ?_
      -- The preference is not used if the flag is gone or if there is none.
      cases hf : s.first with
      | false => exact .inl rfl
      | true =>
        cases hw : cfg.firstWorker with
        | none => exact .inr rfl
        | some w => exact absurd hw (hno w hf)
  · rename_i w hpc
    split at h <;> cases h
    · exact .upgradeFirst w hpc
    · rename_i halive
      exact .gone true (.inr ⟨⟨w, hpc⟩, rfl⟩) (Bool.eq_false_iff.mpr halive)
  · rename_i w hpc
    split at h <;> cases h
    · rename_i hw
      exact .submitFirst w hpc hw
    · rename_i hw
      exact .invalid w hpc hw
  -- The thread's own worker is visited, if it has one.
  · rename_i runnable hpc
    split at h
    · cases h
    · split at h <;> cases h
      · exact .visited runnable _ _ hpc (.inr ⟨_, _, rfl⟩)
      · have hmoves : Moves cfg s c _ _ := .visited runnable runnable [] hpc (.inl rfl)
        rwa [List.append_nil] at hmoves
  · rename_i hpc
    split at h <;> cases h
    · exact .upgrade hpc
    · rename_i halive
      exact .gone false (.inl ⟨hpc, rfl⟩) (Bool.eq_false_iff.mpr halive)
  · rename_i hpc
    split at h <;> cases h
    exact .workerFor _ hpc
  · rename_i worker hpc
    cases h
    cases worker with
    | some w => exact .submitLocal w hpc
    | none => exact .submitJob hpc
  · cases h
  · cases h

/-- Every step in which the host answers is one constructor of `Moves`. -/
theorem hostStep_moves {s : State} {c c' : Call} {act : Action}
    (h : hostStep cfg s c act = some c') : Moves cfg s c s.first c' := by
  unfold hostStep at h
  split at h
  · split at h
    · rename_i runnable hpc
      split at h <;> cases h
      exact .visit runnable _ _ hpc
    · cases h
  · split at h
    · rename_i runnable hpc
      split at h <;> cases h
      have hmoves : Moves cfg s c _ _ := .visited runnable runnable [] hpc (.inl rfl)
      rwa [List.append_nil] at hmoves
    · cases h
  · split at h
    · rename_i hpc
      split at h <;> cases h
      exact .workerFor _ hpc
    · cases h
  · cases h

/-- What a step of the system is: a new call, the end of the pool, or the step of a call. -/
inductive Stepped (cfg : Config) (s : State) : State → Prop where
  | schedule (tls : ThreadLocals) (hdone : ∀ c ∈ s.calls, c.effects ≠ []) :
      Stepped cfg s
        { s with calls := s.calls ++ [{ tls, pc := .swap, effects := [], preferred := false }] }
  | destroy : Stepped cfg s { s with alive := false }
  | call (j : Nat) (c c' : Call) (first : Bool) (hj : s.calls[j]? = some c)
      (hmoves : Moves cfg s c first c') :
      Stepped cfg s { s with first, calls := s.calls.set j c' }

/-- Every step of the system is one constructor of `Stepped`. -/
theorem step_stepped {s s' : State} {act : Action} (h : step cfg s act = some s') :
    Stepped cfg s s' := by
  cases act with
  | schedule tls =>
    simp only [step] at h
    split at h
    · rename_i hguard
      cases h
      exact .schedule tls hguard.1
    · cases h
  | destroy =>
    simp only [step] at h
    split at h
    · cases h
    · cases h
      exact .destroy
  -- Every other action is a step of one call.
  | advance j =>
    simp only [step] at h
    split at h
    · rename_i c hj
      split at h
      · rename_i first c' hadvance
        cases h
        exact .call j c c' first hj (advance_moves hadvance)
      · cases h
    · cases h
  | visit j | visitsEnd j | currentWorker j =>
    simp only [step] at h
    split at h
    · rename_i c hj
      obtain ⟨c', hhost, rfl⟩ := Option.map_eq_some_iff.mp h
      exact .call j c c' s.first hj (hostStep_moves hhost)
    · cases h

/-! ### The invariant -/

/-- The runnable goes to one of the pool's own queues, or it is dropped because the pool is
gone. -/
def Effect.Proper (cfg : Config) (alive : Bool) : Effect → Prop
  | .submitLocal pool worker => pool = cfg.pool ∧ worker < cfg.workers
  | .submitJob pool => pool = cfg.pool
  | .drop => alive = false

/-- The effects are those of a call that has its runnable, or has it no more. -/
def Given (cfg : Config) (alive runnable : Bool) (effects : List Effect) : Prop :=
  if runnable then effects = [] else ∃ e, effects = [e] ∧ e.Proper cfg alive

/-- What a call has done with its runnable. -/
def Call.Ok (cfg : Config) (alive : Bool) (c : Call) : Prop :=
  match c.pc with
  | .swap | .upgrade | .workerFor => c.effects = []
  | .upgradeFirst w | .submitFirst w => c.effects = [] ∧ cfg.firstWorker = some w
  | .submit worker => c.effects = [] ∧ ∀ w, worker = some w → w < cfg.workers
  | .visiting runnable => Given cfg alive runnable c.effects
  | .returned => Given cfg alive false c.effects
  | .panicked => False

/-- The call is on the way of the preference. -/
def Call.prefers (c : Call) : Bool :=
  match c.pc with
  | .upgradeFirst _ | .submitFirst _ => true
  | _ => c.preferred

/-- What the first call makes of a preference: it follows it, and it ends with that worker or with a
drop. -/
def Call.Follows (s : State) (c : Call) (pool w : Nat) : Prop :=
  (c.pc = .swap ∧ s.first = true) ∨ c.pc = .upgradeFirst w ∨ c.pc = .submitFirst w ∨
    c.pc = .returned ∧ (c.effects = [.submitLocal pool w] ∨ c.effects = [.drop])

/-- The invariant of the system. -/
structure Inv (cfg : Config) (s : State) : Prop where
  ok : ∀ c ∈ s.calls, c.Ok cfg s.alive
  /-- As long as the flag is set, there is no call that has passed it. -/
  unused : s.first = true → s.calls = [] ∨ ∃ c, s.calls = [c] ∧ c.pc = .swap
  flag : s.calls = [] → s.first = true
  only : ∀ j c, s.calls[j]? = some c → c.prefers = true → j = 0
  follows : ∀ c w, s.calls[0]? = some c → cfg.firstWorker = some w → c.Follows s cfg.pool w

/-- A runnable that is gone stays gone, and so does the pool. -/
theorem Effect.Proper.mono {alive alive' : Bool} {e : Effect} (h : e.Proper cfg alive)
    (halive : alive = false → alive' = false) : e.Proper cfg alive' := by
  cases e with
  | submitLocal | submitJob => exact h
  | drop => exact halive h

theorem Given.mono {alive alive' runnable : Bool} {effects : List Effect}
    (h : Given cfg alive runnable effects) (halive : alive = false → alive' = false) :
    Given cfg alive' runnable effects := by
  cases runnable with
  | true => exact h
  | false =>
    obtain ⟨e, he, hproper⟩ := h
    exact ⟨e, he, hproper.mono halive⟩

theorem Call.Ok.mono {alive alive' : Bool} {c : Call} (h : c.Ok cfg alive)
    (halive : alive = false → alive' = false) : c.Ok cfg alive' := by
  unfold Call.Ok at h ⊢
  cases hpc : c.pc with
  | visiting | returned =>
    rw [hpc] at h
    exact h.mono halive
  | swap | upgradeFirst | submitFirst | upgrade | workerFor | submit | panicked =>
    rw [hpc] at h
    exact h

/-- `local` takes the runnable once, for the task's own pool and one of its workers. -/
theorem localVisit_cases (cfg : Config) (runnable : Bool) (pool worker : Nat) :
    localVisit cfg runnable pool worker = (runnable, []) ∨
      runnable = true ∧ worker < cfg.workers ∧
        localVisit cfg runnable pool worker = (false, [.submitLocal cfg.pool worker]) := by
  unfold localVisit
  split
  · rename_i h
    cases runnable with
    | true => exact .inr ⟨rfl, h.2, by rw [if_pos rfl, h.1]⟩
    | false => exact .inl rfl
  · exact .inl rfl

/-- A call after a visit, or none, has its runnable or has handed it over. -/
theorem Given.visits {alive runnable runnable' : Bool} {effects effects' : List Effect}
    (h : Given cfg alive runnable effects)
    (hv : (runnable', effects') = (runnable, []) ∨
      ∃ pool worker, (runnable', effects') = localVisit cfg runnable pool worker) :
    Given cfg alive runnable' (effects ++ effects') := by
  have hcases : (runnable', effects') = (runnable, []) ∨
      runnable = true ∧ ∃ worker, worker < cfg.workers ∧
        (runnable', effects') = (false, [.submitLocal cfg.pool worker]) := by
    rcases hv with hv | ⟨pool, worker, hv⟩
    · exact .inl hv
    · rcases localVisit_cases cfg runnable pool worker with hl | ⟨hr, hw, hl⟩
      · exact .inl (hv.trans hl)
      · exact .inr ⟨hr, worker, hw, hv.trans hl⟩
  rcases hcases with heq | ⟨rfl, worker, hw, heq⟩
  · cases heq
    rwa [List.append_nil]
  · cases heq
    rw [show effects = [] from h]
    exact ⟨_, rfl, rfl, hw⟩

/-- A call ends with the one effect it has. -/
theorem Call.Ok.finish {alive : Bool} {c : Call} {e : Effect} {preferred : Bool}
    (hnone : c.effects = []) (he : e.Proper cfg alive) : (c.finish e preferred).Ok cfg alive := by
  show ∃ e', c.effects ++ [e] = [e'] ∧ e'.Proper cfg alive
  rw [hnone]
  exact ⟨e, rfl, he⟩

/-- Every step of a call keeps what it has done in order. -/
theorem Call.Ok.moves {s : State} {c c' : Call} {first : Bool} (h : c.Ok cfg s.alive)
    (hm : Moves cfg s c first c') : c'.Ok cfg s.alive := by
  cases hm with
  -- A step that hands nothing over leaves the runnable with the call.
  | swapFirst w hpc _ hw =>
    rw [Call.Ok, hpc] at h
    exact ⟨h, hw⟩
  | swap hpc _ =>
    rw [Call.Ok, hpc] at h
    exact h
  | upgradeFirst w hpc =>
    rw [Call.Ok, hpc] at h
    exact h
  | submitFirst w hpc hw =>
    rw [Call.Ok, hpc] at h
    exact .finish h.1 ⟨rfl, hw⟩
  | invalid w hpc hw =>
    -- The callers have checked the preference.
    rw [Call.Ok, hpc] at h
    exact absurd (cfg.accepted w h.2) hw
  -- A runnable that finds the pool gone is dropped.
  | gone preferred hpc halive =>
    rcases hpc with ⟨hpc, -⟩ | ⟨⟨w, hpc⟩, -⟩
    · rw [Call.Ok, hpc] at h
      exact .finish h halive
    · rw [Call.Ok, hpc] at h
      exact .finish h.1 halive
  | visit runnable pool worker hpc =>
    rw [Call.Ok, hpc] at h
    exact h.visits (.inr ⟨pool, worker, rfl⟩)
  | visited runnable runnable' effects hpc hv =>
    rw [Call.Ok, hpc] at h
    have hgiven := h.visits hv
    cases runnable' <;> exact hgiven
  | upgrade hpc =>
    rw [Call.Ok, hpc] at h
    exact h
  | workerFor answer hpc =>
    rw [Call.Ok, hpc] at h
    refine ⟨h, fun w hw => ?_⟩
    simpa using (Option.filter_eq_some_iff.mp hw).2
  | submitLocal w hpc =>
    rw [Call.Ok, hpc] at h
    exact .finish h.1 ⟨rfl, h.2 w rfl⟩
  | submitJob hpc =>
    rw [Call.Ok, hpc] at h
    exact .finish h.1 rfl

/-- A call is on the way of the preference only if it was before, or took the flag. -/
theorem Moves.prefers {s : State} {c c' : Call} {first : Bool} (hm : Moves cfg s c first c')
    (h : c'.prefers = true) : c.prefers = true ∨ c.pc = .swap ∧ s.first = true := by
  cases hm with
  | swapFirst w hpc hfirst hw => exact .inr ⟨hpc, hfirst⟩
  | upgradeFirst w hpc => exact .inl (by rw [Call.prefers, hpc])
  | submitFirst w hpc hw => exact .inl (by rw [Call.prefers, hpc])
  | gone preferred hpc halive =>
    rcases hpc with ⟨-, rfl⟩ | ⟨⟨w, hpc⟩, -⟩
    · cases h
    · exact .inl (by rw [Call.prefers, hpc])
  | submitLocal w hpc | submitJob hpc => cases h
  | swap hpc _ | visit _ _ _ hpc | upgrade hpc | workerFor _ hpc =>
    exact .inl (by rw [Call.prefers, hpc]; exact h)
  | invalid w hpc hw => exact .inl (by rw [Call.prefers, hpc])
  | visited runnable runnable' effects hpc hv =>
    refine .inl ?_
    rw [Call.prefers, hpc]
    cases runnable' <;> exact h

/-- The flag falls with the first swap and stays down. -/
theorem Moves.first {s : State} {c c' : Call} {first : Bool} (hm : Moves cfg s c first c') :
    first = false ∧ c.pc = .swap ∨ first = s.first ∧ c.pc ≠ .swap := by
  cases hm with
  | swapFirst w hpc _ _ => exact .inl ⟨rfl, hpc⟩
  | swap hpc _ => exact .inl ⟨rfl, hpc⟩
  | gone preferred hpc halive =>
    rcases hpc with ⟨hpc, -⟩ | ⟨⟨w, hpc⟩, -⟩ <;> exact .inr ⟨rfl, by rw [hpc]; exact nofun⟩
  | upgradeFirst _ hpc | submitFirst _ hpc | invalid _ hpc | visit _ _ _ hpc | visited _ _ _ hpc
  | upgrade hpc | workerFor _ hpc | submitLocal _ hpc | submitJob hpc =>
    exact .inr ⟨rfl, by rw [hpc]; exact nofun⟩

/-- The first call goes on following the preference. -/
theorem Call.Follows.moves {s : State} {c c' : Call} {first : Bool} {w : Nat}
    (hok : c.Ok cfg s.alive) (h : c.Follows s cfg.pool w) (hw : cfg.firstWorker = some w)
    (hm : Moves cfg s c first c') {s' : State} : c'.Follows s' cfg.pool w := by
  -- The first call goes from the swap to its worker, in that order.
  rcases h with ⟨hpc, hfirst⟩ | hpc | hpc | ⟨hpc, -⟩
  · cases hm with
    | swapFirst w' _ _ hw' =>
      rw [hw', Option.some.injEq] at hw
      exact .inr (.inl (by rw [hw]))
    | swap _ hno =>
      rcases hno with hno | hno
      · rw [hfirst] at hno
        cases hno
      · rw [hw] at hno
        cases hno
    | gone _ hpc' =>
      rw [hpc] at hpc'
      simp at hpc'
    | upgradeFirst _ hpc' | submitFirst _ hpc' | invalid _ hpc' | visit _ _ _ hpc'
    | visited _ _ _ hpc' | upgrade hpc' | workerFor _ hpc' | submitLocal _ hpc' | submitJob hpc' =>
      rw [hpc] at hpc'
      cases hpc'
  · rw [Call.Ok, hpc] at hok
    cases hm with
    | upgradeFirst w' hpc' =>
      rw [hpc] at hpc'
      cases hpc'
      exact .inr (.inr (.inl rfl))
    | gone =>
      refine .inr (.inr (.inr ⟨rfl, .inr ?_⟩))
      show c.effects ++ [_] = _
      rw [hok.1]
      rfl
    | swapFirst _ hpc' | submitFirst _ hpc' | invalid _ hpc' | visit _ _ _ hpc'
    | visited _ _ _ hpc' | upgrade hpc' | workerFor _ hpc' | submitLocal _ hpc' | submitJob hpc'
    | swap hpc' =>
      rw [hpc] at hpc'
      cases hpc'
  · rw [Call.Ok, hpc] at hok
    cases hm with
    | submitFirst w' hpc' _ =>
      rw [hpc] at hpc'
      cases hpc'
      refine .inr (.inr (.inr ⟨rfl, .inl ?_⟩))
      show c.effects ++ [_] = _
      rw [hok.1]
      rfl
    | invalid w' hpc' hlt =>
      rw [hpc] at hpc'
      cases hpc'
      exact absurd (cfg.accepted w hok.2) hlt
    | gone _ hpc' =>
      rw [hpc] at hpc'
      simp at hpc'
    | swapFirst _ hpc' | upgradeFirst _ hpc' | visit _ _ _ hpc'
    | visited _ _ _ hpc' | upgrade hpc' | workerFor _ hpc' | submitLocal _ hpc' | submitJob hpc'
    | swap hpc' =>
      rw [hpc] at hpc'
      cases hpc'
  -- A call that has returned takes no step.
  · cases hm with
    | gone _ hpc' =>
      rw [hpc] at hpc'
      simp at hpc'
    | swapFirst _ hpc' | upgradeFirst _ hpc' | submitFirst _ hpc' | invalid _ hpc'
    | visit _ _ _ hpc' | visited _ _ _ hpc' | upgrade hpc' | workerFor _ hpc' | submitLocal _ hpc'
    | submitJob hpc' | swap hpc' =>
      rw [hpc] at hpc'
      cases hpc'

theorem inv_new : Inv cfg new :=
  ⟨nofun, fun _ => .inl rfl, fun _ => rfl, nofun, nofun⟩

/-- With the flag still set, the only call is the first one, and it is about to take it. -/
theorem Inv.alone {s : State} (h : Inv cfg s) (hfirst : s.first = true) {j : Nat} {c : Call}
    (hj : s.calls[j]? = some c) : j = 0 ∧ c.pc = .swap := by
  rcases h.unused hfirst with hnil | ⟨d, hone, hpc⟩
  · rw [hnil] at hj
    cases hj
  · rw [hone, List.getElem?_singleton] at hj
    split at hj
    · rename_i hz
      cases hj
      exact ⟨hz, hpc⟩
    · cases hj

/-- A new runnable is scheduled. -/
theorem Inv.schedule {s : State} (h : Inv cfg s) (tls : ThreadLocals)
    (hdone : ∀ c ∈ s.calls, c.effects ≠ []) :
    Inv cfg { s with
      calls := s.calls ++ [{ tls, pc := .swap, effects := [], preferred := false }] } := by
  -- A call that has the flag before it still has its runnable, so there is none.
  have hnil : s.first = true → s.calls = [] := by
    intro hfirst
    rcases h.unused hfirst with hnil | ⟨c, hone, hpc⟩
    · exact hnil
    · have hmem : c ∈ s.calls := by rw [hone]; exact List.mem_singleton_self c
      have hok := h.ok c hmem
      rw [Call.Ok, hpc] at hok
      exact absurd hok (hdone c hmem)
  refine ⟨fun c hc => ?_, fun hfirst => ?_, fun hcalls => ?_, fun j c hj hc => ?_,
    fun c w hc hw => ?_⟩
  · rcases List.mem_append.mp hc with hc | hc
    · exact h.ok c hc
    · rw [List.mem_singleton.mp hc]
      rfl
  · exact .inr ⟨_, by rw [hnil hfirst]; rfl, rfl⟩
  · exact absurd hcalls (List.append_ne_nil_of_right_ne_nil _ (List.cons_ne_nil _ _))
  · rcases getElem?_append_singleton hj with hj | ⟨-, rfl⟩
    · exact h.only j c hj hc
    · cases hc
  · rcases getElem?_append_singleton hc with hc | ⟨hlen, rfl⟩
    · exact h.follows c w hc hw
    · exact .inl ⟨rfl, h.flag (List.eq_nil_of_length_eq_zero hlen.symm)⟩

/-- A call takes a step. -/
theorem Inv.call {s : State} (h : Inv cfg s) {j : Nat} {c c' : Call} {first : Bool}
    (hj : s.calls[j]? = some c) (hm : Moves cfg s c first c') :
    Inv cfg { s with first, calls := s.calls.set j c' } := by
  have hmem := List.mem_of_getElem? hj
  refine ⟨fun d hd => ?_, fun hfirst => ?_, fun hcalls => ?_, fun i d hi hd => ?_,
    fun d w hd hw => ?_⟩
  · rcases mem_set_cases hj hd with rfl | ⟨i, -, hi⟩
    · exact (h.ok c hmem).moves hm
    · exact h.ok d (List.mem_of_getElem? hi)
  · -- A step leaves the flag set only past the swap, and nobody is there yet.
    rcases hm.first with ⟨hz, -⟩ | ⟨hsame, hpc⟩
    · exact absurd (hz.symm.trans hfirst) Bool.false_ne_true
    · exact absurd (h.alone (hsame.symm.trans hfirst) hj).2 hpc
  · -- A step takes no call away.
    rw [List.set_eq_nil_iff] at hcalls
    rw [hcalls] at hj
    cases hj
  · -- Only the step past the swap makes a call prefer its worker.
    rw [getElem?_set_of_some hj] at hi
    split at hi
    · rename_i hij
      cases hi
      rcases hm.prefers hd with hp | ⟨-, hfirst⟩
      · exact hij.trans (h.only j c hj hp)
      · exact hij.trans (h.alone hfirst hj).1
    · exact h.only i d hi hd
  · -- The call that moved follows by `Follows.moves`, and the others as they did.
    rw [getElem?_set_of_some hj] at hd
    split at hd
    · rename_i hz
      cases hd
      subst hz
      exact (h.follows c w hj hw).moves (h.ok c hmem) hw hm
    · rename_i hz
      rcases h.follows d w hd hw with ⟨-, hfirst⟩ | hrest
      · exact absurd (h.alone hfirst hj).1.symm hz
      · exact .inr hrest

/-- Every step keeps the invariant. -/
theorem inv_step {s s' : State} {act : Action} (h : Inv cfg s) (hs : step cfg s act = some s') :
    Inv cfg s' := by
  cases step_stepped hs with
  | schedule tls hdone => exact h.schedule tls hdone
  | destroy =>
    exact ⟨fun c hc => (h.ok c hc).mono fun _ => rfl, h.unused, h.flag, h.only, h.follows⟩
  | call j c c' first hj hm => exact h.call hj hm

theorem inv_of_reachable {s : State} (h : (system cfg).Reachable s) : Inv cfg s :=
  h.invariant (fun _ hs => hs ▸ inv_new) fun _ _ _ hi hs => inv_step hi hs

/-! ### A call ends -/

/-- How many steps a call has before it, besides visits. -/
def CallPc.rank : CallPc → Nat
  | .swap => 5
  | .visiting _ => 4
  | .upgrade => 3
  | .upgradeFirst _ | .workerFor => 2
  | .submitFirst _ | .submit _ => 1
  | .returned | .panicked => 0

/-- The visits leave the runnable or not, and the call goes on or returns. -/
theorem Call.rank_visited (c : Call) (runnable : Bool) : (c.visited runnable).pc.rank ≤ 3 := by
  cases runnable with
  | true => exact Nat.le_refl 3
  | false => exact Nat.zero_le 3

/-- A step of the call itself that brings it closer to its end. -/
theorem exists_advance {s : State} {j : Nat} {c c' : Call} {first : Bool}
    (hj : s.calls[j]? = some c) (h : advance cfg s c = some (first, c'))
    (hrank : c'.pc.rank < c.pc.rank) :
    ∃ act s' c', step cfg s act = some s' ∧ s'.calls[j]? = some c' ∧ c'.pc.rank < c.pc.rank := by
  refine ⟨.advance j, { s with first, calls := s.calls.set j c' }, c', ?_, ?_, hrank⟩
  · simp only [step, hj, h]
  · show (s.calls.set j c')[j]? = some c'
    rw [getElem?_set_of_some hj, if_pos rfl]

/-- A call that has not returned can go on. It needs the host to return from its visits and to
answer, and nobody else. -/
theorem call_progress {s : State} (h : Inv cfg s) {j : Nat} {c : Call}
    (hj : s.calls[j]? = some c) (hpc : c.pc ≠ .returned) :
    ∃ act s' c', step cfg s act = some s' ∧ s'.calls[j]? = some c' ∧ c'.pc.rank < c.pc.rank := by
  have hok := h.ok c (List.mem_of_getElem? hj)
  have hself : ∀ c' : Call, (s.calls.set j c')[j]? = some c' := fun c' => by
    rw [getElem?_set_of_some hj, if_pos rfl]
  -- Every program point has a step of its own, and it lowers the rank.
  cases hp : c.pc with
  | swap =>
    rw [← hp]
    refine exists_advance hj (by simp only [advance, hp]; rfl) ?_
    rw [hp]
    show CallPc.rank _ < 5
    split
    · show (2 : Nat) < 5
      decide
    · show (4 : Nat) < 5
      decide
  | upgradeFirst w =>
    rw [← hp]
    cases ha : s.alive with
    | true =>
      refine exists_advance hj (by simp only [advance, hp, ha, if_true]; rfl) ?_
      rw [hp]
      exact Nat.lt_succ_self 1
    | false =>
      refine exists_advance hj
        (by simp only [advance, hp, ha, Bool.false_eq_true, if_false]; rfl) ?_
      rw [hp]
      exact Nat.zero_lt_two
  | submitFirst w =>
    rw [← hp]
    rw [Call.Ok, hp] at hok
    refine exists_advance hj
      (by simp only [advance, hp, if_pos (cfg.accepted w hok.2)]; rfl) ?_
    rw [hp]
    exact Nat.one_pos
  -- With a host context, the visits can end at once.
  | visiting runnable =>
    cases hctx : cfg.hasContext with
    | true =>
      refine ⟨.visitsEnd j, { s with calls := s.calls.set j (c.visited runnable) },
        c.visited runnable, ?_, hself _, Nat.lt_succ_of_le (c.rank_visited runnable)⟩
      simp only [step, hj, hostStep, hp, hctx, if_true, Option.map_some]
    | false =>
      rw [← hp]
      cases hcurrent : c.tls.current with
      | none =>
        refine exists_advance hj
          (by simp only [advance, hp, hctx, hcurrent, Bool.false_eq_true, if_false]; rfl) ?_
        rw [hp]
        exact Nat.lt_succ_of_le (Call.rank_visited _ _)
      | some owner =>
        refine exists_advance hj
          (by simp only [advance, hp, hctx, hcurrent, Bool.false_eq_true, if_false]; rfl) ?_
        rw [hp]
        exact Nat.lt_succ_of_le (Call.rank_visited _ _)
  | upgrade =>
    rw [← hp]
    cases ha : s.alive with
    | true =>
      refine exists_advance hj (by simp only [advance, hp, ha, if_true]; rfl) ?_
      rw [hp]
      exact Nat.lt_succ_self 2
    | false =>
      refine exists_advance hj
        (by simp only [advance, hp, ha, Bool.false_eq_true, if_false]; rfl) ?_
      rw [hp]
      exact Nat.zero_lt_succ 2
  | workerFor =>
    cases hctx : cfg.hasContext with
    | true =>
      let c' : Call := { c with pc := .submit (inPool cfg none) }
      refine ⟨.currentWorker j none, { s with calls := s.calls.set j c' }, c', ?_, hself c',
        Nat.lt_succ_self 1⟩
      simp only [step, hj, hostStep, hp, hctx, if_true, Option.map_some]
      rfl
    | false =>
      rw [← hp]
      refine exists_advance hj
        (by simp only [advance, hp, hctx, Bool.false_eq_true, if_false]; rfl) ?_
      rw [hp]
      exact Nat.lt_succ_self 1
  | submit worker =>
    rw [← hp]
    refine exists_advance hj (by simp only [advance, hp]; rfl) ?_
    rw [hp]
    exact Nat.one_pos
  | returned => exact absurd hp hpc
  | panicked =>
    rw [Call.Ok, hp] at hok
    exact hok.elim

/-- What a call has done so far is nothing, or one thing that is right. -/
theorem Call.Ok.effects {alive : Bool} {c : Call} (h : c.Ok cfg alive) :
    c.effects = [] ∨ ∃ e, c.effects = [e] ∧ e.Proper cfg alive := by
  unfold Call.Ok at h
  split at h
  · exact .inl h
  · exact .inl h
  · exact .inl h
  · exact .inl h.1
  · exact .inl h.1
  · exact .inl h.1
  · rename_i runnable _
    cases runnable with
    | true => exact .inl h
    | false => exact .inr h
  · exact .inr h
  · exact h.elim

/-- Every runnable is scheduled exactly once, on its own pool. For every preference that the
callers accept, every behaviour of the host, every thread that a call is made on, and whenever the
pool goes, in every reachable state and for each call of the closure:

* it does at most one thing with its runnable, and exactly one when it has returned;
* that is to hand it to the local queue of a worker of the task's own pool, or to the injector of
  that pool, or to drop it, and the last only when the pool is gone;
* it follows a preference only if it is the first call, and the first call does when there is one;
* it does not panic, and until it has returned there is a step that brings it closer. -/
theorem scheduled_once (cfg : Config) {s : State} (h : (system cfg).Reachable s) {j : Nat}
    {c : Call} (hj : s.calls[j]? = some c) :
    c.effects.length ≤ 1 ∧
    (c.pc = .returned → ∃ e, c.effects = [e]) ∧
    (∀ e ∈ c.effects, (∃ w, w < cfg.workers ∧ e = .submitLocal cfg.pool w) ∨
      e = .submitJob cfg.pool ∨ e = .drop ∧ s.alive = false) ∧
    (c.prefers = true → j = 0) ∧
    (j = 0 → ∀ w, cfg.firstWorker = some w → c.pc = .returned →
      c.effects = [.submitLocal cfg.pool w] ∨ c.effects = [.drop]) ∧
    c.pc ≠ .panicked ∧
    (c.pc ≠ .returned → ∃ act s' c', step cfg s act = some s' ∧ s'.calls[j]? = some c' ∧
      c'.pc.rank < c.pc.rank) := by
  have hinv := inv_of_reachable h
  have hok := hinv.ok c (List.mem_of_getElem? hj)
  refine ⟨?_, fun hpc => ?_, fun e he => ?_, hinv.only j c hj, ?_, fun hpc => ?_,
    call_progress hinv hj⟩
  · rcases hok.effects with hnone | ⟨e, he, -⟩
    · rw [hnone]
      exact Nat.zero_le 1
    · rw [he]
      exact Nat.le_refl 1
  · rw [Call.Ok, hpc] at hok
    obtain ⟨e, he, -⟩ := hok
    exact ⟨e, he⟩
  · rcases hok.effects with hnone | ⟨e', he', hproper⟩
    · rw [hnone] at he
      cases he
    · rw [he', List.mem_singleton] at he
      subst he
      cases e with
      | submitLocal pool w => exact .inl ⟨w, hproper.2, by rw [hproper.1]⟩
      | submitJob pool => exact .inr (.inl (congrArg Effect.submitJob hproper))
      | drop => exact .inr (.inr ⟨rfl, hproper⟩)
  · rintro rfl w hw hpc
    rcases hinv.follows c w hj hw with ⟨hpc', -⟩ | hpc' | hpc' | ⟨-, heffects⟩
    · rw [hpc] at hpc'
      cases hpc'
    · rw [hpc] at hpc'
      cases hpc'
    · rw [hpc] at hpc'
      cases hpc'
    · exact heffects
  · rw [Call.Ok, hpc] at hok
    exact hok

/-- A pool of two workers and a host that reports scopes. -/
def hosted : Config := spawnOn 0 2 true

/-- The host reports a foreign pool, a worker that does not exist, and the right one twice. The job
is handed over once. -/
theorem scheduled_once_hosted :
    ∃ s c, (system hosted).Reachable s ∧ s.calls[0]? = some c ∧ c.pc = .returned ∧
      c.effects = [.submitLocal 0 1] ∧ c.effects.length ≤ 1 := by
  have hrun : (system hosted).run new
      [.schedule ⟨none, none⟩, .advance 0, .visit 0 9 0, .visit 0 0 7, .visit 0 0 1, .visit 0 0 1,
        .visitsEnd 0] =
      some ⟨false, true, [⟨⟨none, none⟩, .returned, [.submitLocal 0 1], false⟩]⟩ := by
    decide
  have hr := Lts.Reachable.of_run rfl hrun
  exact ⟨_, _, hr, rfl, rfl, rfl, (scheduled_once hosted hr (j := 0) rfl).1⟩

end Nagoya.Task
