import Nagoya.Par.Pair
import Nagoya.Proofs.Par

/-!
# `Nagoya.Proofs.Par.Pair`: a loop that is dropped throws the switch of the other

`Drop for ParFor` throws the switch, also when the loop has completed. So of two loops with the
same `Cancel`, the first that is dropped stops what the other has not started. The other loop is
not hurt exactly when none of its pieces has a look at the switch to come (`Settled`): it was
handed over, no closure of it waits in the pool, and no piece of it is going to split.

`Kept` is the accounting of a loop that loses no index. As long as the switch is not thrown it is
the one of an undisturbed run. Once it is thrown, every piece has passed it.
-/

set_option autoImplicit false

namespace Nagoya.Par

open Nagoya.Lib

section

variable [Target]

/-! ### Past the switch -/

/-- The piece does not look at the switch any more, and makes no piece that does. An empty range
is not handed over, so its root does not look either. -/
def Piece.settled (l : Loop) (p : Piece) : Bool :=
  match p.pc with
  | .root => decide (p.stop ≤ p.start)
  | .split => decide (p.stop - p.start ≤ l.leaf)
  | .queued | .poolGone | .checkCancel | .submit _ | .caught _ | .record _ => false
  | .loop _ | .body _ | .retire | .storeFinished | .takeWaiter | .wake _ | .gone => true

/-- No piece of the loop has a look at the switch to come. -/
def Settled (l : Loop) (s : State) : Prop := ∀ p ∈ s.pieces, p.settled l = true

/-- A loop that loses no index. -/
structure Kept (l : Loop) (s : State) : Prop where
  disturbed : ∀ p ∈ s.pieces, p.disturbed = false
  owes : ∀ k, s.ran.count k + tally (Piece.owes k) s.pieces = l.calls k
  settled : s.cancelled = true → Settled l s

/-- While the switch is not thrown, this is the accounting of an undisturbed run. -/
theorem Kept.calm {l : Loop} {s : State} (h : Kept l s) (hc : s.cancelled = false) : Calm l s :=
  ⟨hc, h.disturbed, h.owes⟩

theorem Calm.kept {l : Loop} {s : State} (h : Calm l s) : Kept l s := by
  refine ⟨h.disturbed, h.owes, fun hc => ?_⟩
  rw [h.cancelled] at hc
  cases hc

/-- A piece that is past the switch keeps every index, whether the switch is thrown or not. -/
theorem pieceStep_settled {l : Loop} {s s' : State} {i : Nat} {p : Piece} {event : Event}
    (h : p.settled l = true) (hcalm : event.calm = true)
    (hs : pieceStep l s i p event = some s') :
    ∃ p', s'.pieces = s.pieces.set i p' ∧ s'.cancelled = s.cancelled ∧ p'.settled l = true ∧
      p'.disturbed = false ∧ ∀ k, s'.ran.count k + p'.owes k = s.ran.count k + p.owes k := by
  obtain ⟨start, stop, pc⟩ := p
  cases pc with
  | queued | poolGone | checkCancel | submit | caught | record => cases h
  | root | gone => cases event <;> cases hs
  | body index =>
    cases event with
    | returns panic =>
      cases panic with
      | some payload => cases hcalm
      | none =>
        cases hs
        exact ⟨_, rfl, rfl, rfl, rfl, fun _ => rfl⟩
    | _ => cases hs
  | split =>
    -- A settled piece is small enough, so it is not split again.
    have hsmall : ¬ stop - start > l.leaf := Nat.not_lt.mpr (of_decide_eq_true h)
    cases event with
    | advance =>
      simp only [pieceStep, if_neg hsmall] at hs
      cases hs
      exact ⟨_, rfl, rfl, rfl, rfl, fun _ => rfl⟩
    | _ => cases hs
  | loop index =>
    cases event with
    | advance =>
      simp only [pieceStep] at hs
      split at hs
      · rename_i hlt
        cases hs
        -- The call of the index is in `ran`, and no longer owed.
        refine ⟨_, rfl, rfl, rfl, rfl, fun k => ?_⟩
        show (s.ran ++ [index]).count k + _ = _
        rw [List.count_append, List.count_singleton, Nat.add_assoc]
        simp only [beq_iff_eq]
        exact congrArg _ (owes_call hlt)
      · rename_i hge
        cases hs
        refine ⟨_, rfl, rfl, rfl, rfl, fun k => ?_⟩
        -- At the end of its range the piece owes nothing.
        have hnone : Piece.owes k ⟨start, stop, .loop index⟩ = 0 := by
          refine if_neg fun hk => ?_
          have hk : index ≤ k ∧ k < stop := hk
          have hge : ¬ index < stop := hge
          omega
        rw [hnone]
        rfl
    | _ => cases hs
  | retire =>
    cases event with
    | advance =>
      cases hs
      refine ⟨_, rfl, rfl, ?_, ?_, fun k => ?_⟩ <;> split <;> rfl
    | _ => cases hs
  | storeFinished | wake =>
    cases event with
    | advance =>
      cases hs
      exact ⟨_, rfl, rfl, rfl, rfl, fun _ => rfl⟩
    | _ => cases hs
  | takeWaiter =>
    cases event with
    | advance =>
      simp only [pieceStep] at hs
      split at hs
      · cases hs
        exact ⟨_, rfl, rfl, rfl, rfl, fun _ => rfl⟩
      · cases hs
        exact ⟨_, rfl, rfl, rfl, rfl, fun _ => rfl⟩
    | _ => cases hs

/-- After the switch was thrown, a step of a loop that is past it. -/
theorem Kept.thrown {l : Loop} {s s' : State} {a : Action} (h : Kept l s) (hinv : Inv l s)
    (hc : s.cancelled = true) (hs : step l s a = some s') (hok : Undisturbed s a s') :
    Kept l s' ∧ s'.cancelled = true := by
  have hsettled := h.settled hc
  cases a with
  | dropFuture | cancel => exact hok.elim
  | poll w =>
    simp only [step] at hs
    split at hs <;> cases hs <;> exact ⟨⟨h.disturbed, h.owes, fun _ => hsettled⟩, hc⟩
  | future =>
    obtain ⟨hcancelled, hran, -⟩ := futureStep_cases hs
    rw [hcancelled]
    refine ⟨?_, hc⟩
    rcases hinv.root_moves hs with hsame | ⟨hroot, hmoved⟩
    · refine ⟨?_, ?_, fun _ => ?_⟩
      · rw [hsame]
        exact h.disturbed
      · rw [hran, hsame]
        exact h.owes
      · unfold Settled
        rw [hsame]
        exact hsettled
    · -- The root is past the switch, so the range is empty.
      have hempty : l.stop ≤ l.start := by
        have hpiece := hsettled ⟨l.start, l.stop, .root⟩ (by rw [hroot]; simp)
        exact of_decide_eq_true hpiece
      have hpieces : s'.pieces = [⟨l.start, l.stop, .retire⟩] := by
        rcases hmoved with ⟨hpieces, -⟩ | hpieces
        · exact hpieces
        · have hfits := (inv_step hinv hs).counted.fits ⟨l.start, l.stop, .queued⟩
            (by rw [hpieces]; simp)
          exact absurd hfits.1 (Nat.not_lt.mpr hempty)
      refine ⟨?_, ?_, fun _ => ?_⟩
      · intro p hp
        rw [hpieces, List.mem_singleton] at hp
        rw [hp]
        rfl
      · intro k
        have howes := h.owes k
        have hnone : l.calls k = 0 := if_neg (by omega)
        rw [hran, hpieces]
        rw [hnone] at howes ⊢
        show s.ran.count k + 0 = 0
        omega
      · intro p hp
        rw [hpieces, List.mem_singleton] at hp
        rw [hp]
        rfl
  | piece i event =>
    simp only [step] at hs
    split at hs
    · rename_i p hi
      obtain ⟨p', hpieces, hcancelled, hp', hcalm', howes⟩ :=
        pieceStep_settled (hsettled p (List.mem_of_getElem? hi)) hok hs
      -- The piece was settled before, and still is.
      have hmem : ∀ q ∈ s'.pieces, q = p' ∨ q ∈ s.pieces := by
        intro q hq
        rw [hpieces] at hq
        rcases mem_set_cases hi hq with hself | ⟨j, -, hj⟩
        · exact .inl hself
        · exact .inr (List.mem_of_getElem? hj)
      refine ⟨⟨?_, ?_, fun _ => ?_⟩, by rw [hcancelled, hc]⟩
      · intro q hq
        rcases hmem q hq with rfl | hq
        · exact hcalm'
        · exact h.disturbed q hq
      · intro k
        have hsum := tally_set (Piece.owes k) hi p'
        have hmoved := howes k
        have hold := h.owes k
        rw [hpieces]
        omega
      · intro q hq
        rcases hmem q hq with rfl | hq
        · exact hp'
        · exact hsettled q hq
    · cases hs

/-- A step that throws nothing loses no index, and leaves the switch. -/
theorem Kept.step {l : Loop} {s s' : State} {a : Action} (h : Kept l s) (hinv : Inv l s)
    (hs : step l s a = some s') (hok : Undisturbed s a s') :
    Kept l s' ∧ s'.cancelled = s.cancelled := by
  cases hc : s.cancelled with
  | true => exact h.thrown hinv hc hs hok
  | false =>
    have hcalm := calm_step hinv (h.calm hc) hs hok
    exact ⟨hcalm.kept, hcalm.cancelled⟩

/-- A loop that has finished is past the switch. -/
theorem Counted.settled_of_finished {l : Loop} {s : State} (h : Counted l s)
    (hf : s.finished = true) : Settled l s := by
  intro p hp
  have hlive := h.live_eq_zero (h.zero_of_finished hf) hp
  obtain ⟨start, stop, pc⟩ := p
  cases pc with
  | storeFinished | takeWaiter | wake | gone => rfl
  | _ => cases hlive

/-- Somebody else throws the switch when the loop is past it. -/
theorem Kept.throw {l : Loop} {s : State} (h : Kept l s) (hsettled : Settled l s) :
    Kept l { s with cancelled := true } :=
  ⟨h.disturbed, h.owes, fun _ => hsettled⟩

/-! ### In front of the switch -/

/-- The index `k` was not run and the switch is thrown. Whoever owes `k` has a look at the switch
to come, and `k` is the last of its indices. -/
structure Doomed (l : Loop) (s : State) (k : Nat) : Prop where
  thrown : s.cancelled = true
  unrun : s.ran.count k = 0
  held : ∀ p ∈ s.pieces, p.owes k ≠ 0 → p.settled l = false ∧ p.span.2 = k + 1

/-- The switch is never cleared by a piece. -/
theorem pieceStep_thrown {l : Loop} {s s' : State} {i : Nat} {p : Piece} {event : Event}
    (hs : pieceStep l s i p event = some s') (hc : s.cancelled = true) : s'.cancelled = true := by
  obtain ⟨start, stop, pc⟩ := p
  cases event with
  | run alive =>
    cases pc <;> cases hs
    exact hc
  | drop =>
    cases pc <;> cases hs
    exact hc
  | returns panic => cases pc <;> cases panic <;> cases hs <;> exact hc
  | advance =>
    cases pc with
    | root | queued | body | gone => cases hs
    | split | loop | takeWaiter =>
      simp only [pieceStep] at hs
      split at hs <;> cases hs <;> exact hc
    | poolGone | caught =>
      cases hs
      rfl
    | _ =>
      cases hs
      exact hc

/-- The switch is never cleared. -/
theorem step_thrown {l : Loop} {s s' : State} {a : Action} (hs : step l s a = some s')
    (hc : s.cancelled = true) : s'.cancelled = true := by
  cases a with
  | poll w =>
    simp only [step] at hs
    split at hs <;> cases hs <;> exact hc
  | future => rw [(futureStep_cases hs).1, hc]
  | dropFuture =>
    simp only [step] at hs
    split at hs <;> cases hs <;> rfl
  | cancel =>
    cases hs
    rfl
  | piece i event =>
    simp only [step] at hs
    split at hs
    · exact pieceStep_thrown hs hc
    · cases hs

omit [Target] in
/-- The last index of a piece is owed by it. -/
theorem Piece.owes_eq_one {p : Piece} {k : Nat} (h : p.owes k ≠ 0) :
    p.owes k = 1 ∧ p.span.1 ≤ k ∧ k < p.span.2 := by
  unfold Piece.owes at h ⊢
  split at h
  · rename_i hk
    exact ⟨if_pos hk, hk⟩
  · exact absurd rfl h

/-- A piece that owes its last index and has a look at the switch to come goes on so, gives the
index to the piece it makes, or gives it up. -/
theorem pieceStep_doomed {l : Loop} {s s' : State} {i k : Nat} {p : Piece} {event : Event}
    (hfits : p.Fits l) (howes : p.owes k ≠ 0) (hsettled : p.settled l = false)
    (hlast : p.span.2 = k + 1) (hc : s.cancelled = true)
    (hs : pieceStep l s i p event = some s') :
    ∃ p' extra, s'.pieces = s.pieces.set i p' ++ extra ∧ s'.ran = s.ran ∧
      ∀ q ∈ p' :: extra, q.owes k ≠ 0 → q.settled l = false ∧ q.span.2 = k + 1 := by
  obtain ⟨hone, hge, hlt⟩ := Piece.owes_eq_one howes
  obtain ⟨start, stop, pc⟩ := p
  -- A piece whose range was given up owes nothing.
  have hgiven : ∀ q : Piece, q.span = (0, 0) → q.owes k ≠ 0 →
      q.settled l = false ∧ q.span.2 = k + 1 := by
    intro q hq hne
    have hlt' := (Piece.owes_eq_one hne).2.2
    rw [hq] at hlt'
    exact absurd hlt' (Nat.not_lt_zero k)
  cases pc with
  | root => cases event <;> cases hs
  | poolGone | caught | record | retire | storeFinished | takeWaiter | wake | gone =>
    exact absurd hlt (Nat.not_lt_zero k)
  | loop | body => cases hsettled
  | queued =>
    cases event with
    | run alive =>
      cases alive with
      | true =>
        cases hs
        refine ⟨⟨start, stop, .checkCancel⟩, [], by simp [State.put], rfl, ?_⟩
        intro q hq _
        rw [List.mem_singleton.mp hq]
        exact ⟨rfl, hlast⟩
      | false =>
        cases hs
        refine ⟨⟨start, stop, .poolGone⟩, [], by simp [State.put], rfl, ?_⟩
        intro q hq
        rw [List.mem_singleton.mp hq]
        exact hgiven _ rfl
    | drop =>
      cases hs
      refine ⟨⟨start, stop, .retire⟩, [], by simp [State.put], rfl, ?_⟩
      intro q hq
      rw [List.mem_singleton.mp hq]
      exact hgiven _ rfl
    | returns panic => cases panic <;> cases hs
    | advance => cases hs
  | checkCancel =>
    cases event with
    | advance =>
      simp only [pieceStep, hc, if_true] at hs
      cases hs
      -- The switch is thrown, so the range is given up.
      refine ⟨⟨start, stop, .retire⟩, [], by simp [State.put], rfl, ?_⟩
      intro q hq
      rw [List.mem_singleton.mp hq]
      exact hgiven _ rfl
    | returns panic => cases panic <;> cases hs
    | _ => cases hs
  | split =>
    have hbig : stop - start > l.leaf := Nat.lt_of_not_le (of_decide_eq_false hsettled)
    cases event with
    | advance =>
      simp only [pieceStep, if_pos hbig] at hs
      cases hs
      refine ⟨⟨start, middle start stop, .submit stop⟩, [], by simp [State.put], rfl, ?_⟩
      intro q hq _
      rw [List.mem_singleton.mp hq]
      exact ⟨rfl, hlast⟩
    | returns panic => cases panic <;> cases hs
    | _ => cases hs
  | submit right =>
    obtain ⟨-, hright, -⟩ : start < stop ∧ stop < right ∧ right ≤ l.stop := hfits
    have hlast' : right = k + 1 := hlast
    cases event with
    | advance =>
      cases hs
      -- Both halves are checked again, and the last index is in the right one.
      refine ⟨⟨start, stop, .split⟩, [⟨stop, right, .queued⟩], rfl, rfl, ?_⟩
      intro q hq hne
      rcases List.mem_cons.mp hq with rfl | hq
      · -- The left half ends before the last index.
        have hlt' : k < stop := (Piece.owes_eq_one hne).2.2
        omega
      · rw [List.mem_singleton.mp hq]
        exact ⟨rfl, hlast⟩
    | returns panic =>
      cases panic with
      | none => cases hs
      | some payload =>
        cases hs
        refine ⟨⟨start, stop, .caught payload⟩, [⟨stop, right, .retire⟩], rfl, rfl, ?_⟩
        intro q hq
        rcases List.mem_cons.mp hq with rfl | hq
        · exact hgiven _ rfl
        · rw [List.mem_singleton.mp hq]
          exact hgiven _ rfl
    | _ => cases hs

/-- No step of the loop saves the index. -/
theorem Doomed.step {l : Loop} {s s' : State} {a : Action} {k : Nat} (h : Doomed l s k)
    (hinv : Inv l s) (hs : step l s a = some s') : Doomed l s' k := by
  have hthrown := step_thrown hs h.thrown
  -- A step that leaves the pieces and the calls.
  have hsame : s'.ran = s.ran → s'.pieces = s.pieces → Doomed l s' k := by
    intro hran hpieces
    refine ⟨hthrown, by rw [hran]; exact h.unrun, ?_⟩
    rw [hpieces]
    exact h.held
  cases a with
  | poll | dropFuture | cancel =>
    obtain ⟨-, -, hran, hfuture | hpieces⟩ := step_frame (by simp) hs
    · cases hfuture
    · exact hsame hran hpieces
  | future =>
    obtain ⟨-, hran, -⟩ := futureStep_cases hs
    rcases hinv.root_moves hs with hpieces | ⟨hroot, ⟨hpieces, -⟩ | hpieces⟩
    · exact hsame hran hpieces
    · refine ⟨hthrown, by rw [hran]; exact h.unrun, ?_⟩
      intro q hq hne
      rw [hpieces, List.mem_singleton] at hq
      rw [hq] at hne
      exact absurd (Piece.owes_eq_one hne).2.2 (Nat.not_lt_zero k)
    · refine ⟨hthrown, by rw [hran]; exact h.unrun, ?_⟩
      intro q hq hne
      rw [hpieces, List.mem_singleton] at hq
      rw [hq] at hne ⊢
      exact ⟨rfl, (h.held ⟨l.start, l.stop, .root⟩ (by rw [hroot]; simp) hne).2⟩
  | piece i event =>
    obtain ⟨p, p', extra, hi, hm⟩ := hinv.counted.moved hs
    have hmem := List.mem_of_getElem? hi
    by_cases howes : p.owes k = 0
    · -- The piece has nothing to do with the index.
      have hmoved := hm.owes k
      rw [h.unrun, howes] at hmoved
      refine ⟨hthrown, by omega, ?_⟩
      intro q hq hne
      rcases hm.mem_cases hi hq with rfl | hq | hq
      · exact absurd (by omega) hne
      · exact h.held q hq hne
      · obtain ⟨j, hj⟩ := List.getElem?_of_mem hq
        have hle := le_tally (Piece.owes k) hj
        exact absurd (by omega) hne
    · obtain ⟨hsettled, hlast⟩ := h.held p hmem howes
      simp only [Par.step, hi] at hs
      obtain ⟨p'', extra', hpieces, hran, hheld⟩ := pieceStep_doomed (hinv.counted.fits p hmem)
        howes hsettled hlast h.thrown hs
      refine ⟨hthrown, by rw [hran]; exact h.unrun, ?_⟩
      intro q hq hne
      rw [hpieces, List.mem_append] at hq
      rcases hq with hq | hq
      · rcases mem_set_cases hi hq with rfl | ⟨j, -, hj⟩
        · exact hheld _ List.mem_cons_self hne
        · exact h.held q (List.mem_of_getElem? hj) hne
      · exact hheld q (List.mem_cons_of_mem _ hq) hne

/-- A loop with a piece that has a look at the switch to come loses the last index of that piece
when the switch is thrown. -/
theorem Kept.doomed {l : Loop} {s : State} (h : Kept l s) (hc : Counted l s)
    (hnot : ¬ Settled l s) :
    ∃ k, l.calls k = 1 ∧ Doomed l { s with cancelled := true } k := by
  simp only [Settled, not_forall] at hnot
  obtain ⟨p, hp, hsettled⟩ := hnot
  obtain ⟨i, hi⟩ := List.getElem?_of_mem hp
  have hfits := hc.fits p hp
  have hcalm := h.disturbed p hp
  -- The range of such a piece is not empty.
  have hspan : p.span.1 < p.span.2 := by
    obtain ⟨start, stop, pc⟩ := p
    cases pc with
    | poolGone | caught | record => cases hcalm
    | loop | body | retire | storeFinished | takeWaiter | wake | gone => exact absurd rfl hsettled
    | root => exact Nat.lt_of_not_le fun hle => hsettled (decide_eq_true hle)
    | queued | checkCancel | split => exact hfits.1
    | submit right => exact Nat.lt_trans hfits.1 hfits.2.1
  obtain ⟨k, hk⟩ : ∃ k, p.span.2 = k + 1 := ⟨p.span.2 - 1, by omega⟩
  have hone : p.owes k = 1 := if_pos ⟨by omega, by omega⟩
  have hle := le_tally (Piece.owes k) hi
  have howes := h.owes k
  have hcalls : l.calls k ≤ 1 := by
    unfold Loop.calls
    split <;> omega
  refine ⟨k, by omega, rfl, by show s.ran.count k = 0; omega, ?_⟩
  intro q hq hne
  obtain ⟨j, hj⟩ := List.getElem?_of_mem (show q ∈ s.pieces from hq)
  have hq1 := (Piece.owes_eq_one hne).1
  -- No other piece owes the index.
  have hij : i = j := by
    by_contra hij
    have htwo := add_le_tally (Piece.owes k) hi hj hij
    omega
  rw [← hij, hi] at hj
  cases hj
  exact ⟨by simpa using hsettled, hk⟩

namespace Pair

/-! ### Two loops -/

omit [Target] in
@[simp] theorem get_put (p : Pair) (side : Bool) (s : State) : (p.put side s).get side = s := by
  cases side <;> rfl

omit [Target] in
@[simp] theorem get_put_other (p : Pair) (side : Bool) (s : State) :
    (p.put side s).get (!side) = { p.get (!side) with cancelled := s.cancelled } := by
  cases side <;> rfl

/-- Nobody calls `cancel`, no body panics, the pool takes and runs its closures, and a future is
dropped only after it returned `Ready`. -/
def Polite (p : Pair) (label : Bool × Action) (_ : Pair) : Prop :=
  match label.2 with
  | .cancel => False
  | .dropFuture => (p.get label.1).future = .ready
  | .piece _ event => event.calm = true
  | .poll _ | .future => True

/-- In addition, a future is dropped only when the other loop is past the switch. -/
def Apart (loops : Bool → Loop) (p : Pair) (label : Bool × Action) (p' : Pair) : Prop :=
  Polite p label p' ∧
    (label.2 = .dropFuture → Settled (loops (!label.1)) (p.get (!label.1)))

/-- Two loops with one switch. -/
structure BothInv (loops : Bool → Loop) (p : Pair) : Prop where
  inv : ∀ side, Inv (loops side) (p.get side)
  switch : ∀ side, (p.get (!side)).cancelled = (p.get side).cancelled

/-- Neither loop loses an index. -/
structure BothKept (loops : Bool → Loop) (p : Pair) : Prop extends BothInv loops p where
  kept : ∀ side, Kept (loops side) (p.get side)

variable {loops : Bool → Loop} {p p' : Pair}

omit [Target] in
/-- What holds of one side and of the other holds of each. -/
theorem both_sides {P : Bool → Prop} (side : Bool) (h : P side) (hother : P (!side)) (b : Bool) :
    P b := by
  cases side <;> cases b
  · exact h
  · exact hother
  · exact hother
  · exact h

/-- One side takes a step that does not clear the switch. -/
theorem BothInv.put (h : BothInv loops p) {side : Bool} {s : State}
    (hinv : Inv (loops side) s) (hthrown : (p.get side).cancelled = true → s.cancelled = true) :
    BothInv loops (p.put side s) := by
  refine ⟨both_sides side ?_ ?_, both_sides side ?_ ?_⟩
  · rw [get_put]
    exact hinv
  · rw [get_put_other]
    cases hc : s.cancelled with
    | true => exact inv_cancel (h.inv _) rfl
    | false =>
      have hother : (p.get (!side)).cancelled = false := by
        rw [h.switch side]
        cases hp : (p.get side).cancelled with
        | false => rfl
        | true =>
          rw [hthrown hp] at hc
          cases hc
      rw [← hother]
      exact h.inv _
  · rw [get_put, get_put_other]
  · rw [Bool.not_not, get_put, get_put_other]

/-- A step of either side. -/
theorem BothInv.step {label : Bool × Action} (h : BothInv loops p)
    (hs : step loops p label = some p') : BothInv loops p' := by
  obtain ⟨s, hstep, rfl⟩ := Option.map_eq_some_iff.mp hs
  exact h.put (inv_step (h.inv _) hstep) (step_thrown hstep)

/-- One side takes a step that loses nothing, and the other side sees the switch. -/
theorem BothKept.put (h : BothKept loops p) {side : Bool} {s : State}
    (hboth : BothInv loops (p.put side s)) (hkept : Kept (loops side) s)
    (hother : s.cancelled = (p.get side).cancelled ∨
      s.cancelled = true ∧ Settled (loops (!side)) (p.get (!side))) :
    BothKept loops (p.put side s) := by
  refine ⟨hboth, both_sides side ?_ ?_⟩
  · rw [get_put]
    exact hkept
  · rw [get_put_other]
    rcases hother with hsame | ⟨hthrown, hsettled⟩
    · rw [hsame, ← h.switch side]
      exact h.kept _
    · rw [hthrown]
      exact (h.kept _).throw hsettled

/-- A step under the condition keeps every index of both loops. -/
theorem step_bothKept {label : Bool × Action} (h : BothKept loops p)
    (hs : step loops p label = some p') (hok : Apart loops p label p') : BothKept loops p' := by
  have hboth := h.toBothInv.step hs
  obtain ⟨side, a⟩ := label
  obtain ⟨s, hstep, rfl⟩ := Option.map_eq_some_iff.mp hs
  obtain ⟨hpolite, hsettled⟩ := hok
  cases a with
  | cancel => exact hpolite.elim
  | poll w =>
    obtain ⟨hkept, hsame⟩ := (h.kept side).step (h.inv side) hstep trivial
    exact h.put hboth hkept (.inl hsame)
  | future =>
    obtain ⟨hkept, hsame⟩ := (h.kept side).step (h.inv side) hstep trivial
    exact h.put hboth hkept (.inl hsame)
  | piece i event =>
    obtain ⟨hkept, hsame⟩ := (h.kept side).step (h.inv side) hstep hpolite
    exact h.put hboth hkept (.inl hsame)
  | dropFuture =>
    have hready : (p.get side).future = .ready := hpolite
    have hphase := (h.inv side).phase
    rw [Phase, hready] at hphase
    have hself := (h.inv side).counted.settled_of_finished hphase.1
    simp only [Par.step, hready] at hstep
    cases hstep
    exact h.put hboth ⟨(h.kept side).disturbed, (h.kept side).owes, fun _ => hself⟩
      (.inr ⟨rfl, hsettled rfl⟩)

/-- Two new loops. -/
theorem bothKept_new (loops : Bool → Loop) :
    BothKept loops { first := new (loops false), second := new (loops true) } := by
  have hkept : ∀ l, Kept l (new l) := fun l => (calm_of_reach (.init rfl)).2.kept
  exact ⟨⟨both_sides false (inv_new _) (inv_new _),
    both_sides false rfl rfl⟩, both_sides false (hkept _) (hkept _)⟩

/-- In every run under the condition both loops keep every index. -/
theorem bothKept_of_reach (hr : (system loops).Reach (Apart loops) p) : BothKept loops p := by
  refine hr.invariant (P := BothKept loops) ?_ ?_
  · rintro p rfl
    exact bothKept_new loops
  · intro p label p' h hn hok
    exact step_bothKept h hn hok

/-- What one side lost, no step of either side brings back. -/
theorem doomed_step {label : Bool × Action} {side : Bool} {k : Nat} (h : BothInv loops p)
    (hd : Doomed (loops side) (p.get side) k) (hs : step loops p label = some p') :
    Doomed (loops side) (p'.get side) k := by
  obtain ⟨b, a⟩ := label
  obtain ⟨s, hstep, rfl⟩ := Option.map_eq_some_iff.mp hs
  by_cases hb : b = side
  · subst hb
    rw [get_put]
    exact hd.step (h.inv b) hstep
  · obtain rfl : side = !b := by
      cases b <;> cases side <;> simp_all
    have hthrown : s.cancelled = true := step_thrown hstep (by rw [← h.switch b]; exact hd.thrown)
    rw [get_put_other, hthrown]
    exact ⟨rfl, hd.unrun, hd.held⟩

/-- A future that is dropped while the other loop has a look at the switch to come loses an index
of the other loop, whatever happens then. -/
theorem BothKept.drop_loses (h : BothKept loops p) {side : Bool}
    (hs : step loops p (side, .dropFuture) = some p')
    (hnot : ¬ Settled (loops (!side)) (p.get (!side))) :
    ∃ k, (loops (!side)).calls k = 1 ∧
      ∀ q, ({ system loops with init := fun t => t = p' } : Lts _ _).Reachable q →
        (q.get (!side)).ran.count k = 0 := by
  obtain ⟨k, hcalls, hdoomed⟩ := (h.kept (!side)).doomed (h.inv (!side)).counted hnot
  have hstart : Doomed (loops (!side)) (p'.get (!side)) k := by
    obtain ⟨s, hstep, rfl⟩ := Option.map_eq_some_iff.mp hs
    have hthrown : s.cancelled = true := by
      simp only [Par.step] at hstep
      split at hstep <;> cases hstep <;> rfl
    rw [get_put_other, hthrown]
    exact hdoomed
  refine ⟨k, hcalls, fun q hq => ?_⟩
  have hinv : BothInv loops q ∧ Doomed (loops (!side)) (q.get (!side)) k := by
    refine hq.invariant (P := fun q => BothInv loops q ∧ Doomed (loops (!side)) (q.get (!side)) k)
      ?_ ?_
    · rintro q rfl
      exact ⟨h.toBothInv.step hs, hstart⟩
    · rintro q label q' ⟨hboth, hd⟩ hn
      exact ⟨hboth.step hn, doomed_step hboth hd hn⟩
  exact hinv.2.unrun

/-- In every run under the condition both loops run every index of their ranges: a loop that is
finished has run each of its indices once, a future is ready only then, and both loops come to an
end. And the condition is the weakest. A future that is dropped when the other loop is not past
the switch loses an index of that loop in every continuation. -/
theorem both_run_every_index (hr : (system loops).Reach (Apart loops) p) (side : Bool) :
    ((p.get side).finished = true →
      ∀ k, (p.get side).ran.count k = (loops side).calls k) ∧
    ((p.get side).future = .ready → (p.get side).finished = true) ∧
    Ends (loops side) (p.get side) ∧
    (∀ p', step loops p (side, .dropFuture) = some p' →
      ¬ Settled (loops (!side)) (p.get (!side)) →
      ∃ k, (loops (!side)).calls k = 1 ∧
        ∀ q, ({ system loops with init := fun t => t = p' } : Lts _ _).Reachable q →
          (q.get (!side)).ran.count k = 0) := by
  have h := bothKept_of_reach hr
  have hinv := h.inv side
  refine ⟨?_, ?_, hinv.ends, fun p' hs hnot => h.drop_loses hs hnot⟩
  · intro hf k
    have howes := (h.kept side).owes k
    have hzero := hinv.counted.zero_of_finished hf
    have hnone : tally (Piece.owes k) (p.get side).pieces = 0 :=
      tally_eq_zero fun q hq => (Piece.of_live_zero (hinv.counted.live_eq_zero hzero hq)).2.2 k
    omega
  · intro hready
    have hphase := hinv.phase
    rw [Phase, hready] at hphase
    exact hphase.1

end Pair

end

namespace Pair

/-- A loop over three indices that is one piece. -/
def onePiece : @Loop target64 := @Loop.withLeaf target64 threeItems 3

instance (p : Pair) (label : Bool × Action) (p' : Pair) : Decidable (Polite p label p') :=
  match label with
  | (_, .cancel) => inferInstanceAs (Decidable False)
  | (side, .dropFuture) => inferInstanceAs (Decidable ((p.get side).future = .ready))
  | (_, .piece _ event) => inferInstanceAs (Decidable (event.calm = true))
  | (_, .poll _) | (_, .future) => inferInstanceAs (Decidable True)

instance (loops : Bool → @Loop target64) (p : Pair) (label : Bool × Action) (p' : Pair) :
    Decidable (@Apart target64 loops p label p') :=
  inferInstanceAs (Decidable (_ ∧ (_ → ∀ q ∈ (p.get (!label.1)).pieces,
    @Piece.settled target64 (loops (!label.1)) q = true)))

/-- The steps of such a loop, from its first poll to the first call of its body. -/
def toBody : List Action :=
  [.poll 7, .future, .future, .piece 0 (.run true), .piece 0 .advance, .piece 0 .advance,
    .piece 0 .advance]

/-- The steps from there to `Ready`. -/
def toReady : List Action :=
  [.piece 0 (.returns none), .piece 0 .advance, .piece 0 (.returns none), .piece 0 .advance,
    .piece 0 (.returns none), .piece 0 .advance, .piece 0 .advance, .piece 0 .advance,
    .piece 0 .advance, .future, .future]

/-- One loop completes and is dropped while the body of the other runs. The other completes too. -/
theorem both_run_every_index_overlapping :
    ∃ p, (@system target64 fun _ => onePiece).Reach (@Apart target64 fun _ => onePiece) p ∧
      p.first.future = .dropped ∧ p.second.future = .ready ∧
      ∀ k, p.second.ran.count k = @Loop.calls target64 onePiece k := by
  obtain ⟨p, hr, hp⟩ := Lts.Reach.exists_of_runWhere (M := @system target64 fun _ => onePiece)
    (s := { first := @new target64 onePiece, second := @new target64 onePiece })
    (@Apart target64 fun _ => onePiece)
    (toBody.map (true, ·) ++ toBody.map (false, ·) ++ toReady.map (false, ·) ++
      [(false, .dropFuture)] ++ toReady.map (true, ·))
    (fun p => p.first.future = .dropped ∧ p.second.future = .ready) rfl (by decide)
  obtain ⟨hdropped, hready⟩ : p.first.future = .dropped ∧ p.second.future = .ready := by
    simpa using hp
  obtain ⟨hran, hfinished, -⟩ := @both_run_every_index target64 (fun _ => onePiece) p hr true
  exact ⟨p, hr, hdropped, hready, hran (hfinished hready)⟩

/-- One loop completes and is dropped, and then the other is polled. It is ready, and no index of
it was run. -/
theorem finished_loop_cancels_other :
    ∃ p, (@system target64 fun _ => onePiece).Reach Polite p ∧
      p.first.future = .dropped ∧ p.first.ran = [0, 1, 2] ∧ p.second.future = .ready ∧
      p.second.ran = [] ∧ @Loop.calls target64 onePiece 0 = 1 := by
  obtain ⟨p, hr, hp⟩ := Lts.Reach.exists_of_runWhere (M := @system target64 fun _ => onePiece)
    (s := { first := @new target64 onePiece, second := @new target64 onePiece }) Polite
    (toBody.map (false, ·) ++ toReady.map (false, ·) ++
      [(false, .dropFuture), (true, .poll 8), (true, .future), (true, .piece 0 .advance),
        (true, .piece 0 .advance), (true, .piece 0 .advance), (true, .future)])
    (fun p => p.first.future = .dropped ∧ p.first.ran = [0, 1, 2] ∧ p.second.future = .ready ∧
      p.second.ran = []) rfl (by decide)
  obtain ⟨hdropped, hran, hready, hnone⟩ : p.first.future = .dropped ∧ p.first.ran = [0, 1, 2] ∧
      p.second.future = .ready ∧ p.second.ran = [] := by
    simpa using hp
  exact ⟨p, hr, hdropped, hran, hready, hnone, by decide⟩

end Pair

end Nagoya.Par
