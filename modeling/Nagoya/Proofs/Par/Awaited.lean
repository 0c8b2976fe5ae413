import Nagoya.Lib.Fair
import Nagoya.Proofs.Par

/-!
# `Nagoya.Proofs.Par.Awaited`: a parallel loop that is awaited comes to its end

Every step of a piece uses up what is left, so on a path that is fair to the pieces `finished` is
set (`finishes`). The one that sets it takes the waker that was parked and wakes it, so the executor
polls once more (`wakes`), and a poll that finds `finished` set returns (`returns`).

A body that panics, a closure that the pool drops and a switch that is thrown only make the end
come sooner. Nothing is assumed of the order of the pieces: it is enough that some piece goes on as
long as one can.
-/

set_option autoImplicit false

namespace Nagoya.Par

open Nagoya.Lib
open Lts.Path

/-- The future has returned, has rethrown a panic, or was dropped. -/
def FuturePc.over : FuturePc → Bool
  | .ready | .panicked _ | .dropped => true
  | _ => false

/-- A poll is under way. -/
def FuturePc.polling : FuturePc → Bool
  | .unpolled | .pending _ | .ready | .panicked _ | .dropped => false
  | _ => true

/-- The root was handed over, and the future is not over. -/
def FuturePc.running : FuturePc → Bool
  | .load _ | .park _ | .reload _ | .resume | .pending _ => true
  | _ => false

section

variable [Target] {l : Loop}

/-- The path is fair to the executor, to the poll that it began, and to the pieces as a whole. -/
structure Awaits (ρ : (awaited l).Path) : Prop where
  executor : ρ.WeakFair fun t => ∃ w, t = .due w
  future : ρ.WeakFair (· = .act .future)
  pieces : ρ.WeakFair fun t => ∃ i event, t = .act (.piece i event)

/-- A turn is a step of the loop. -/
theorem turn_step {s s' : State} {t : Turn} (hs : turn l s t = some s') :
    ∃ a, step l s a = some s' ∧ (t = .act a ∨ ∃ w, t = .due w ∧ a = .poll w ∧ s.isDue = true) := by
  cases t with
  | act a => exact ⟨a, hs, .inl rfl⟩
  | due w =>
    simp only [turn] at hs
    split at hs
    · rename_i hdue
      exact ⟨.poll w, hs, .inr ⟨w, rfl, rfl, hdue⟩⟩
    · cases hs

theorem inv_of_awaited {s : State} (hr : (awaited l).Reachable s) : Inv l s := by
  refine hr.invariant (P := Inv l) ?_ ?_
  · rintro s rfl
    exact inv_new l
  · intro s t s' h hs
    obtain ⟨a, hstep, -⟩ := turn_step hs
    exact inv_step h hstep

/-! ### What the steps do to the future -/

/-- A step of a piece leaves the future, and what was woken. -/
theorem piece_frame {s s' : State} {i : Nat} {event : Event} (h : Inv l s)
    (hs : step l s (.piece i event) = some s') :
    s'.future = s.future ∧ s'.polls = s.polls ∧ s.woken ⊆ s'.woken := by
  obtain ⟨p, p', extra, -, hm⟩ := h.counted.moved hs
  refine ⟨hm.frame.1, hm.frame.2.1, ?_⟩
  cases hm.effect with
  | quiet _ _ _ _ _ _ _ _ hwoken =>
    rw [hwoken]
    exact List.Subset.refl _
  | caught _ _ _ _ hs | recorded _ _ _ _ hs | stored _ _ hs | took _ _ _ _ hs =>
    rw [hs]
    exact List.Subset.refl _
  | woke x _ _ hs =>
    rw [hs]
    exact List.subset_append_left _ _

/-- While a poll is under way, only its own steps change the future. -/
theorem future_kept {s s' : State} {t : Turn} (h : Inv l s) (hp : s.future.polling = true)
    (hs : turn l s t = some s') : t = .act .future ∨ s'.future = s.future := by
  obtain ⟨a, hstep, ht⟩ := turn_step hs
  cases a with
  | future =>
    rcases ht with rfl | ⟨w, -, ⟨⟩, -⟩
    exact .inl rfl
  | piece i event => exact .inr (piece_frame h hstep).1
  | cancel =>
    cases hstep
    exact .inr rfl
  | poll | dropFuture =>
    simp only [step] at hstep
    split at hstep <;> rename_i hf <;> first | (rw [hf] at hp; cases hp) | cases hstep

/-- A future that is pending stays so, is polled, or is dropped. -/
theorem pending_step {s s' : State} {t : Turn} {w : Waker} (h : Inv l s)
    (hf : s.future = .pending w) (hs : turn l s t = some s') :
    s'.future = .dropped ∨ (∃ w', s'.future = .load w' ∧ s'.finished = s.finished) ∨
      s'.future = .pending w ∧ s'.polls = s.polls ∧ s.woken ⊆ s'.woken ∧ ¬∃ w, t = .due w := by
  obtain ⟨a, hstep, ht⟩ := turn_step hs
  have hact : (∀ w, a ≠ .poll w) → ¬∃ w, t = .due w := by
    rintro hne ⟨w, rfl⟩
    rcases ht with ht | ⟨w', -, rfl, -⟩
    · cases ht
    · exact hne w' rfl
  cases a with
  | future => simp [step, futureStep, hf] at hstep
  | piece i event =>
    obtain ⟨hfuture, hpolls, hwoken⟩ := piece_frame h hstep
    exact .inr (.inr ⟨hfuture.trans hf, hpolls, hwoken, hact (by simp)⟩)
  | cancel =>
    cases hstep
    exact .inr (.inr ⟨hf, rfl, List.Subset.refl _, hact (by simp)⟩)
  | poll w' =>
    simp only [step, hf] at hstep
    cases hstep
    exact .inr (.inl ⟨w', rfl, rfl⟩)
  | dropFuture =>
    simp only [step, hf] at hstep
    cases hstep
    exact .inl rfl

/-- What the next step of a poll makes of the future, once the root was handed over. -/
theorem poll_step {s s' : State} (hs : step l s .future = some s') :
    match s.future with
    | .load w => s'.future = if s.finished then .resume else .park w
    | .park w => s'.future = .reload w
    | .reload w => s'.future = if s.finished then .resume else .pending w
    | .resume => s'.future.over = true
    | _ => True := by
  simp only [step, futureStep] at hs
  cases hf : s.future with
  | load | park | reload =>
    simp only [hf] at hs ⊢
    cases hs
    rfl
  | resume =>
    simp only [hf] at hs ⊢
    split at hs <;> cases hs <;> rfl
  | _ => trivial

/-- A loop that runs is over or runs after the next step. -/
theorem running_step {s s' : State} {t : Turn} (h : Inv l s) (hrun : s.future.running = true)
    (hs : turn l s t = some s') : s'.future.over = true ∨ s'.future.running = true := by
  cases hf : s.future with
  | pending w =>
    rcases pending_step h hf hs with hd | ⟨w', hload, -⟩ | ⟨hpending, -⟩
    · exact .inl (by rw [hd]; rfl)
    · exact .inr (by rw [hload]; rfl)
    · exact .inr (by rw [hpending]; rfl)
  | load | park | reload | resume =>
    rcases future_kept h (by rw [hf]; rfl) hs with rfl | hsame
    · have hpoll := poll_step hs
      simp only [hf] at hpoll
      first
        | exact .inl hpoll
        | exact .inr (by rw [hpoll]; rfl)
        | exact .inr (by rw [hpoll]; split <;> rfl)
    · exact .inr (by rw [hsame, hf]; rfl)
  | _ =>
    rw [hf] at hrun
    cases hrun

/-- A piece that can go on does, as far as the path is fair to the pieces. -/
theorem enabled_piece {s : State} {p : Piece} (hp : p ∈ s.pieces) (hroot : p.pc ≠ .root)
    (hgone : p.pc ≠ .gone) :
    (awaited l).Enabled (fun t => ∃ i event, t = .act (.piece i event)) s := by
  obtain ⟨i, hi⟩ := List.getElem?_of_mem hp
  obtain ⟨event, -, hsome⟩ := piece_moves hi hroot hgone
  exact ⟨.act (.piece i event), ⟨i, event, rfl⟩, Option.isSome_iff_ne_none.mpr hsome⟩

/-- No turn adds to what is left. -/
theorem left_turn {s s' : State} {t : Turn} (h : Inv l s) (hs : turn l s t = some s') :
    tally Piece.left s'.pieces ≤ tally Piece.left s.pieces := by
  obtain ⟨a, hstep, -⟩ := turn_step hs
  exact left_step h hstep

/-- Once the root was handed over, no piece is the root. -/
theorem Inv.no_root {s : State} (h : Inv l s) (hrun : s.future.running = true) :
    ∀ p ∈ s.pieces, p.pc ≠ .root := by
  have hphase := h.phase
  unfold Phase at hphase
  cases hf : s.future with
  | load | park | reload | pending =>
    rw [hf] at hphase
    exact hphase
  | resume =>
    rw [hf] at hphase
    exact hphase.2
  | _ =>
    rw [hf] at hrun
    cases hrun

/-! ### The way to the end -/

variable {ρ : (awaited l).Path}

/-- A new future is polled. -/
theorem starts (fair : Awaits ρ) :
    ρ.LeadsTo (fun s => s.future = .unpolled)
      (fun s => s.future.over = true ∨ ∃ w, s.future = .start w) := by
  have hstep : ∀ s t s', (awaited l).Reachable s → s.future = .unpolled → turn l s t = some s' →
      (s'.future.over = true ∨ ∃ w, s'.future = .start w) ∨
        s'.future = .unpolled ∧ ¬∃ w, t = .due w := by
    intro s t s' hr hf hs
    obtain ⟨a, hstep, ht⟩ := turn_step hs
    have hact : (∀ w, a ≠ .poll w) → ¬∃ w, t = .due w := by
      rintro hne ⟨w, rfl⟩
      rcases ht with ht | ⟨w', -, rfl, -⟩
      · cases ht
      · exact hne w' rfl
    cases a with
    | future => simp [step, futureStep, hf] at hstep
    | piece i event =>
      exact .inr ⟨(piece_frame (inv_of_awaited hr) hstep).1.trans hf, hact (by simp)⟩
    | cancel =>
      cases hstep
      exact .inr ⟨hf, hact (by simp)⟩
    | poll w =>
      simp only [step, hf] at hstep
      cases hstep
      exact .inl (.inr ⟨w, rfl⟩)
    | dropFuture =>
      simp only [step, hf] at hstep
      cases hstep
      exact .inl (.inl rfl)
  refine leadsTo_of_step fair.executor ?_ ?_ ?_
  · exact fun s t s' hr hf hs => (hstep s t s' hr hf hs).imp id And.left
  · exact fun s t s' hr hf ht hs => (hstep s t s' hr hf hs).resolve_right fun h => h.2 ht
  · intro s _ hf
    refine .inr ⟨.due 0, ⟨0, rfl⟩, ?_⟩
    show (turn l s (.due 0)).isSome = true
    simp [turn, State.isDue, hf, step]

/-- The first poll hands the root over, or retires it. -/
theorem submits (fair : Awaits ρ) :
    ρ.LeadsTo (fun s => ∃ w, s.future = .start w ∨ s.future = .submit w)
      (fun s => s.future = .retireRoot ∨ s.future.running = true) := by
  let rank (s : State) : Nat := match s.future with | .start _ => 1 | _ => 0
  have hstep : ∀ s t s', (awaited l).Reachable s →
      (∃ w, s.future = .start w ∨ s.future = .submit w) → turn l s t = some s' →
      (s'.future = .retireRoot ∨ s'.future.running = true) ∨
        (∃ w, s'.future = .start w ∨ s'.future = .submit w) ∧ rank s' ≤ rank s ∧
          (t = .act .future → rank s' < rank s) := by
    rintro s t s' hr ⟨w, hf⟩ hs
    have hpolling : s.future.polling = true := by rcases hf with hf | hf <;> rw [hf] <;> rfl
    by_cases ht : t = .act .future
    · subst ht
      have hs : futureStep l s = some s' := hs
      rcases hf with hf | hf
      · simp only [futureStep, hf] at hs
        split at hs
        · split at hs <;> cases hs
          exact .inl (.inl rfl)
        · cases hs
          exact .inr ⟨⟨w, .inr rfl⟩, Nat.zero_le _, fun _ => by simp [rank, hf]⟩
      · simp only [futureStep, hf] at hs
        split at hs <;> cases hs
        exact .inl (.inr rfl)
    · have hsame := (future_kept (inv_of_awaited hr) hpolling hs).resolve_left ht
      refine .inr ⟨⟨w, by rw [hsame]; exact hf⟩, ?_, fun h => absurd h ht⟩
      simp only [rank, hsame]
      exact Nat.le_refl _
  refine leadsTo_of_rank rank fair.future ?_ ?_ ?_
  · exact fun s t s' hr hf hs => (hstep s t s' hr hf hs).imp id fun h => ⟨h.1, h.2.1⟩
  · exact fun s t s' hr hf ht hs => (hstep s t s' hr hf hs).imp id fun h => h.2.2 ht
  · rintro s hr ⟨w, hf⟩
    refine .inr ⟨.act .future, rfl, ?_⟩
    have hphase := (inv_of_awaited hr).phase
    unfold Phase at hphase
    show (futureStep l s).isSome = true
    rcases hf with hf | hf <;> rw [hf] at hphase <;> simp only [futureStep, hf, hphase.1]
    · split <;> rfl
    · rfl

/-- A root that the first poll retires goes, and the poll returns. -/
theorem retires (fair : Awaits ρ) :
    ρ.LeadsTo (fun s => s.future = .retireRoot) (fun s => s.future.over = true) := by
  have hroot : ∀ s, (awaited l).Reachable s → s.future = .retireRoot →
      ∃ p, s.pieces = [p] ∧ p.retiring = true := by
    intro s hr hf
    have hphase := (inv_of_awaited hr).phase
    rw [Phase, hf] at hphase
    exact hphase.2
  -- The poll goes on when the root is gone, and returns.
  have hfuture : ∀ s s', s.future = .retireRoot → turn l s (.act .future) = some s' →
      s'.future.over = true := by
    intro s s' hf hs
    have hs : futureStep l s = some s' := hs
    simp only [futureStep, hf] at hs
    split at hs
    · split at hs <;> cases hs
      rfl
    · cases hs
  have hkept : ∀ s t s', (awaited l).Reachable s → s.future = .retireRoot → turn l s t = some s' →
      s'.future.over = true ∨ s'.future = .retireRoot ∧ t ≠ .act .future := by
    intro s t s' hr hf hs
    by_cases ht : t = .act .future
    · subst ht
      exact .inl (hfuture s s' hf hs)
    · have hsame := (future_kept (inv_of_awaited hr) (by rw [hf]; rfl) hs).resolve_left ht
      exact .inr ⟨hsame.trans hf, ht⟩
  -- First the root runs out, and then the poll sees it.
  have hgoes : ρ.LeadsTo (fun s => s.future = .retireRoot)
      (fun s => s.future.over = true ∨
        s.future = .retireRoot ∧ ∃ p, s.pieces = [p] ∧ p.pc = .gone) := by
    refine leadsTo_of_rank (fun s => tally Piece.left s.pieces) fair.pieces ?_ ?_ ?_
    · intro s t s' hr hf hs
      rcases hkept s t s' hr hf hs with hover | ⟨hf', -⟩
      · exact .inl (.inl hover)
      · exact .inr ⟨hf', left_turn (inv_of_awaited hr) hs⟩
    · rintro s t s' hr hf ⟨i, event, rfl⟩ hs
      exact .inr (left_piece (inv_of_awaited hr) hs)
    · intro s hr hf
      obtain ⟨p, hp, hretiring⟩ := hroot s hr hf
      by_cases hgone : p.pc = .gone
      · exact .inl (.inr ⟨hf, p, hp, hgone⟩)
      · refine .inr (enabled_piece (p := p) (by rw [hp]; exact List.mem_cons_self) ?_ hgone)
        intro hpc
        rw [Piece.retiring, hpc] at hretiring
        cases hretiring
  refine hgoes.trans (LeadsTo.cases (fun _ _ h => h) (leadsTo_of_imp fun _ _ h => h) ?_)
  refine leadsTo_of_step fair.future ?_ ?_ ?_
  · rintro s t s' hr ⟨hf, p, hp, hgone⟩ hs
    rcases hkept s t s' hr hf hs with hover | ⟨hf', hne⟩
    · exact .inl hover
    · refine .inr ⟨hf', p, ?_, hgone⟩
      obtain ⟨a, hstep, ht⟩ := turn_step hs
      cases a with
      | future =>
        rcases ht with rfl | ⟨w, -, ⟨⟩, -⟩
        exact absurd rfl hne
      | piece i event =>
        -- A piece that is gone does not move.
        simp only [step, hp] at hstep
        cases i with
        | zero => cases event <;> simp [pieceStep, hgone] at hstep
        | succ i => cases hstep
      | cancel | poll | dropFuture =>
        rcases (step_frame (by simp) hstep).2.2.2 with h | hsame
        · cases h
        · rw [hsame, hp]
  · rintro s t s' hr ⟨hf, -⟩ rfl hs
    exact hfuture s s' hf hs
  · rintro s hr ⟨hf, p, hp, hgone⟩
    refine .inr ⟨.act .future, rfl, ?_⟩
    show (futureStep l s).isSome = true
    simp [futureStep, hf, hp, hgone]

/-- The pieces come to their end, and the last one sets `finished`. -/
theorem finishes (fair : Awaits ρ) :
    ρ.LeadsTo (fun s => s.future.running = true)
      (fun s => s.future.over = true ∨ s.future.running = true ∧ s.finished = true) := by
  refine leadsTo_of_rank (fun s => tally Piece.left s.pieces) fair.pieces ?_ ?_ ?_
  · intro s t s' hr hrun hs
    have h := inv_of_awaited hr
    rcases running_step h hrun hs with hover | hrun'
    · exact .inl (.inl hover)
    · exact .inr ⟨hrun', left_turn h hs⟩
  · rintro s t s' hr hrun ⟨i, event, rfl⟩ hs
    exact .inr (left_piece (inv_of_awaited hr) hs)
  · intro s hr hrun
    have h := inv_of_awaited hr
    by_cases hgone : ∀ p ∈ s.pieces, p.pc = .gone
    · exact .inl (.inr ⟨hrun, (h.counted.all_gone hgone).2⟩)
    · obtain ⟨p, hp, hne⟩ : ∃ p ∈ s.pieces, p.pc ≠ .gone := by simpa using hgone
      exact .inr (enabled_piece hp (h.no_root hrun p hp) hne)

/-- A poll that goes on once `finished` is set returns. -/
theorem returns (fair : Awaits ρ) :
    ρ.LeadsTo (fun s => s.finished = true ∧ s.future.running = true ∧ s.future.polling = true)
      (fun s => s.future.over = true) := by
  -- A poll that finds `finished` set has a park and a load before it at most.
  let rank (s : State) : Nat :=
    match s.future with
    | .park _ => 2
    | .load _ | .reload _ => 1
    | _ => 0
  have hstep : ∀ s t s', (awaited l).Reachable s →
      s.finished = true ∧ s.future.running = true ∧ s.future.polling = true →
      turn l s t = some s' → s'.future.over = true ∨
        (s'.finished = true ∧ s'.future.running = true ∧ s'.future.polling = true) ∧
          rank s' ≤ rank s ∧ (t = .act .future → rank s' < rank s) := by
    rintro s t s' hr ⟨hfin, hrun, hpolling⟩ hs
    have h := inv_of_awaited hr
    obtain ⟨a, hstep, -⟩ := turn_step hs
    have hfin' := (h.after_finished hstep hfin).1
    by_cases ht : t = .act .future
    · subst ht
      have hpoll := poll_step hs
      cases hf : s.future with
      | load | park | reload =>
        simp only [hf, hfin, if_true] at hpoll
        exact .inr ⟨⟨hfin', by rw [hpoll]; rfl, by rw [hpoll]; rfl⟩, by simp [rank, hpoll, hf],
          fun _ => by simp [rank, hpoll, hf]⟩
      | resume =>
        simp only [hf] at hpoll
        exact .inl hpoll
      | _ =>
        rw [hf] at hrun hpolling
        simp [FuturePc.running, FuturePc.polling] at hrun hpolling
    · have hsame := (future_kept h hpolling hs).resolve_left ht
      refine .inr ⟨⟨hfin', by rw [hsame]; exact hrun, by rw [hsame]; exact hpolling⟩, ?_,
        fun h => absurd h ht⟩
      simp only [rank, hsame]
      exact Nat.le_refl _
  refine leadsTo_of_rank rank fair.future ?_ ?_ ?_
  · exact fun s t s' hr hP hs => (hstep s t s' hr hP hs).imp id fun h => ⟨h.1, h.2.1⟩
  · exact fun s t s' hr hP ht hs => (hstep s t s' hr hP hs).imp id fun h => h.2.2 ht
  · rintro s hr ⟨-, hrun, hpolling⟩
    refine .inr ⟨.act .future, rfl, ?_⟩
    show (futureStep l s).isSome = true
    cases hf : s.future with
    | load | park | reload => simp [futureStep, hf]
    | resume =>
      simp only [futureStep, hf]
      split <;> rfl
    | _ =>
      rw [hf] at hrun hpolling
      simp [FuturePc.running, FuturePc.polling] at hrun hpolling

/-- A future that is pending once `finished` is set is polled again. -/
theorem wakes (fair : Awaits ρ) (w : Waker) (k : Nat) :
    ρ.LeadsTo (fun s => s.finished = true ∧ s.future = .pending w ∧ s.polls = k)
      (fun s => s.future.over = true ∨
        s.finished = true ∧ s.future.running = true ∧ s.future.polling = true) := by
  let P (s : State) : Prop := s.finished = true ∧ s.future = .pending w ∧ s.polls = k
  let Q (s : State) : Prop := s.future.over = true ∨
    s.finished = true ∧ s.future.running = true ∧ s.future.polling = true
  have hstep : ∀ s t s', (awaited l).Reachable s → P s → turn l s t = some s' →
      Q s' ∨ P s' ∧ s.woken ⊆ s'.woken ∧ ¬∃ w, t = .due w := by
    rintro s t s' hr ⟨hfin, hf, hk⟩ hs
    have h := inv_of_awaited hr
    obtain ⟨a, hstep, -⟩ := turn_step hs
    have hfin' := (h.after_finished hstep hfin).1
    rcases pending_step h hf hs with hd | ⟨w', hload, -⟩ | ⟨hpending, hpolls, hwoken, hdue⟩
    · exact .inl (.inl (by rw [hd]; rfl))
    · exact .inl (.inr ⟨hfin', by rw [hload]; rfl, by rw [hload]; rfl⟩)
    · exact .inr ⟨⟨hfin', hpending, hpolls.trans hk⟩, hwoken, hdue⟩
  -- The one that set `finished` takes the waker and wakes it.
  have hwoken : ρ.LeadsTo P (fun s => Q s ∨ P s ∧ (k, w) ∈ s.woken) := by
    refine leadsTo_of_rank (fun s => tally Piece.left s.pieces) fair.pieces ?_ ?_ ?_
    · intro s t s' hr hP hs
      rcases hstep s t s' hr hP hs with hq | ⟨hP', -⟩
      · exact .inl (.inl hq)
      · exact .inr ⟨hP', left_turn (inv_of_awaited hr) hs⟩
    · rintro s t s' hr hP ⟨i, event, rfl⟩ hs
      exact .inr (left_piece (inv_of_awaited hr) hs)
    · rintro s hr ⟨hfin, hf, rfl⟩
      rcases (inv_of_awaited hr).wakes.pending w hf with
        ⟨-, hclear | ⟨p, hp, hpc⟩⟩ | ⟨p, hp, hpc⟩ | hw
      · rw [hfin] at hclear
        cases hclear
      · exact .inr (enabled_piece hp (by rw [hpc]; simp) (by rw [hpc]; simp))
      · exact .inr (enabled_piece hp (by rw [hpc]; simp) (by rw [hpc]; simp))
      · exact .inl (.inr ⟨⟨hfin, hf, rfl⟩, hw⟩)
  -- The executor polls a future whose waker was called.
  refine hwoken.trans (LeadsTo.cases (fun _ _ h => h) (leadsTo_of_imp fun _ _ h => h) ?_)
  refine leadsTo_of_step fair.executor ?_ ?_ ?_
  · rintro s t s' hr ⟨hP, hw⟩ hs
    exact (hstep s t s' hr hP hs).imp id fun h => ⟨h.1, h.2.1 hw⟩
  · rintro s t s' hr ⟨hP, -⟩ ht hs
    exact (hstep s t s' hr hP hs).resolve_right fun h => h.2.2 ht
  · rintro s hr ⟨⟨-, hf, rfl⟩, hw⟩
    refine .inr ⟨.due 0, ⟨0, rfl⟩, ?_⟩
    show (turn l s (.due 0)).isSome = true
    simp [turn, State.isDue, hf, hw, step]

/-- A parallel loop that is awaited is over at some time. -/
theorem leadsTo_over (fair : Awaits ρ) :
    ρ.LeadsTo (fun _ => True) (fun s => s.future.over = true) := by
  have hend : ρ.LeadsTo (fun s => s.future.running = true ∧ s.finished = true)
      (fun s => s.future.over = true) := by
    rintro n ⟨hrun, hfin⟩
    cases hpolling : (ρ.state n).future.polling with
    | true => exact returns fair n ⟨hfin, hrun, hpolling⟩
    | false =>
      obtain ⟨w, hf⟩ : ∃ w, (ρ.state n).future = .pending w := by
        cases hf : (ρ.state n).future with
        | pending w => exact ⟨w, rfl⟩
        | _ =>
          rw [hf] at hrun hpolling
          simp [FuturePc.running, FuturePc.polling] at hrun hpolling
      exact ((wakes fair w _).trans (LeadsTo.cases (fun _ _ h => h) (leadsTo_of_imp fun _ _ h => h)
        (returns fair))) n ⟨hfin, hf, rfl⟩
  have hruns := (finishes fair).trans
    (LeadsTo.cases (fun _ _ h => h) (leadsTo_of_imp fun _ _ h => h) hend)
  have hstarted := (submits fair).trans (LeadsTo.cases (fun _ _ h => h) (retires fair) hruns)
  intro n _
  cases hf : (ρ.state n).future with
  | unpolled =>
    refine ((starts fair).trans (LeadsTo.cases (fun _ _ h => h) (leadsTo_of_imp fun _ _ h => h) ?_))
      n hf
    exact LeadsTo.trans (leadsTo_of_imp fun s _ hs => hs.imp fun w hw => .inl hw) hstarted
  | start w => exact hstarted n ⟨w, .inl hf⟩
  | submit w => exact hstarted n ⟨w, .inr hf⟩
  | retireRoot => exact retires fair n hf
  | load | park | reload | resume | pending =>
    have hrun : (ρ.state n).future.running = true := by rw [hf]; rfl
    exact hruns n hrun
  | ready | panicked | dropped =>
    have hover : (ρ.state n).future.over = true := by rw [hf]; rfl
    exact ⟨n, Nat.le_refl n, hover⟩

/-! ### Undisturbed -/

/-- No body has panicked, and the future was not dropped. -/
structure Unharmed (s : State) : Prop where
  panics : s.panics = []
  dropped : s.future ≠ .dropped
  panicked : ∀ payload, s.future ≠ .panicked payload

omit [Target] in
/-- A piece that has caught a panic is disturbed. -/
theorem disturbed_of_payload {p : Piece} {payload : Nat} (h : p.payload = some payload) :
    p.disturbed = true := by
  obtain ⟨start, stop, pc⟩ := p
  cases pc <;> first | rfl | cases h

/-- A step of a piece that runs undisturbed. -/
theorem Unharmed.piece {s s' : State} {i : Nat} {event : Event} (h : Unharmed s) (hinv : Inv l s)
    (hcalm : Calm l s) (hs : step l s (.piece i event) = some s') (hok : event.calm = true) :
    Unharmed s' := by
  obtain ⟨p, p', extra, hi, hm⟩ := hinv.counted.moved hs
  have hfuture := (piece_frame hinv hs).1
  have hpanics : s'.panics = s.panics := by
    cases hm.effect with
    | quiet _ _ _ _ _ hpanics => exact hpanics
    | caught payload _ _ hp' =>
      have hnot := (hm.calm hok (hcalm.disturbed p (List.mem_of_getElem? hi)) hcalm.cancelled).1
      simp [disturbed_of_payload hp'] at hnot
    | recorded _ _ _ _ hs | stored _ _ hs | took _ _ _ _ hs | woke _ _ _ hs => rw [hs]
  exact ⟨by rw [hpanics]; exact h.panics, by rw [hfuture]; exact h.dropped,
    by rw [hfuture]; exact h.panicked⟩

/-- A step of a poll when no panic was recorded. -/
theorem Unharmed.future {s s' : State} (h : Unharmed s) (hinv : Inv l s)
    (hs : step l s .future = some s') : Unharmed s' := by
  simp only [step, futureStep] at hs
  cases hf : s.future with
  | unpolled | pending | ready | panicked | dropped =>
    rw [hf] at hs
    cases hs
  | start w =>
    simp only [hf] at hs
    split at hs
    · split at hs <;> cases hs
      exact ⟨h.panics, (fun hd => by cases hd), (fun _ hp => by cases hp)⟩
    · cases hs
      exact ⟨h.panics, (fun hd => by cases hd), (fun _ hp => by cases hp)⟩
  | retireRoot =>
    simp only [hf] at hs
    split at hs
    · split at hs <;> cases hs
      exact ⟨h.panics, (fun hd => by cases hd), (fun _ hp => by cases hp)⟩
    · cases hs
  | submit w =>
    simp only [hf] at hs
    split at hs <;> cases hs
    exact ⟨h.panics, (fun hd => by cases hd), (fun _ hp => by cases hp)⟩
  | park w =>
    simp only [hf] at hs
    cases hs
    exact ⟨h.panics, (fun hd => by cases hd), (fun _ hp => by cases hp)⟩
  | load w | reload w =>
    simp only [hf] at hs
    cases hs
    refine ⟨h.panics, ?_, ?_⟩ <;> dsimp only <;> split <;> simp
  | resume =>
    simp only [hf] at hs
    split at hs <;> rename_i hpanic <;> cases hs
    · have hmem := hinv.panics.origin _ hpanic
      rw [h.panics] at hmem
      cases hmem
    · exact ⟨h.panics, (fun hd => by cases hd), (fun _ hp => by cases hp)⟩

theorem Unharmed.poll {s s' : State} {w : Waker} (h : Unharmed s)
    (hs : step l s (.poll w) = some s') : Unharmed s' := by
  simp only [step] at hs
  split at hs <;> cases hs <;> exact ⟨h.panics, (fun hd => by cases hd), (fun _ hp => by cases hp)⟩

/-- The states of an undisturbed path. -/
theorem unharmed_path (hcalm : ∀ n a, ρ.label n = some (.act a) →
    Undisturbed (ρ.state n) a (ρ.state (n + 1))) (n : Nat) :
    (system l).Reach Undisturbed (ρ.state n) ∧ Unharmed (ρ.state n) := by
  induction n with
  | zero =>
    have h0 : ρ.state 0 = new l := ρ.init
    rw [h0]
    exact ⟨.init rfl, rfl, by simp [new], by simp [new]⟩
  | succ n ih =>
    obtain ⟨hr, hunharmed⟩ := ih
    have hnext := ρ.next n
    cases hlabel : ρ.label n with
    | none =>
      rw [hlabel] at hnext
      rw [hnext]
      exact ⟨hr, hunharmed⟩
    | some t =>
      rw [hlabel] at hnext
      obtain ⟨a, hstep, ht⟩ := turn_step hnext
      have hok : Undisturbed (ρ.state n) a (ρ.state (n + 1)) := by
        rcases ht with rfl | ⟨w, -, rfl, -⟩
        · exact hcalm n a hlabel
        · exact trivial
      refine ⟨.step hr hstep hok, ?_⟩
      obtain ⟨hinv, hc⟩ := calm_of_reach hr
      cases a with
      | dropFuture | cancel => exact hok.elim
      | piece i event => exact hunharmed.piece hinv hc hstep hok
      | future => exact hunharmed.future hinv hstep
      | poll w => exact hunharmed.poll hstep

/-- A parallel loop that is awaited comes to its end: its future returns, rethrows a panic, or is
dropped, on every path that is fair to the executor, to its poll and to the pieces. When nobody
throws the switch or drops the future, the pool runs what it is given and no body panics, the future
returns, and the body was called once with each index of the range. -/
theorem par_for_returns (fair : Awaits ρ) :
    ρ.LeadsTo (fun _ => True) (fun s => s.future.over = true) ∧
    ((∀ n a, ρ.label n = some (.act a) → Undisturbed (ρ.state n) a (ρ.state (n + 1))) →
      ρ.LeadsTo (fun _ => True) (fun s => s.future = .ready ∧ ∀ k, s.ran.count k = l.calls k)) := by
  refine ⟨leadsTo_over fair, ?_⟩
  intro hcalm n _
  obtain ⟨m, hm, hover⟩ := leadsTo_over fair n trivial
  obtain ⟨hr, hunharmed⟩ := unharmed_path hcalm m
  obtain ⟨hinv, hc⟩ := calm_of_reach hr
  have hready : (ρ.state m).future = .ready := by
    cases hf : (ρ.state m).future with
    | ready => rfl
    | panicked payload => exact absurd hf (hunharmed.panicked payload)
    | dropped => exact absurd hf hunharmed.dropped
    | _ =>
      rw [hf] at hover
      cases hover
  have hphase := hinv.phase
  rw [Phase, hready] at hphase
  exact ⟨m, hm, hready, hc.all_ran hinv.counted (hinv.counted.zero_of_finished hphase.1)⟩

end

/-- The run of a loop over three indices, whose poll parks before the last piece ends. -/
def awaitedRun : List Turn :=
  [.due 7, .act .future, .act .future, .act .future, .act .future, .act .future] ++
    ([.piece 0 (.run true), .piece 0 .advance, .piece 0 .advance, .piece 0 .advance,
      .piece 1 (.run true), .piece 1 .advance, .piece 1 .advance, .piece 1 .advance,
      .piece 2 (.run true), .piece 2 .advance, .piece 2 .advance, .piece 2 .advance,
      .piece 2 (.returns none), .piece 2 .advance, .piece 2 .advance,
      .piece 0 .advance, .piece 0 .advance, .piece 0 (.returns none), .piece 0 .advance,
      .piece 0 .advance, .piece 1 .advance, .piece 1 .advance, .piece 1 (.returns none),
      .piece 1 .advance, .piece 1 .advance, .piece 1 .advance, .piece 1 .advance,
      .piece 1 .advance].map Turn.act) ++
    [.due 7, .act .future, .act .future]

/-- The turn disturbs nothing. -/
def Turn.calm : Turn → Bool
  | .act .cancel | .act .dropFuture => false
  | .act (.piece _ event) => event.calm
  | _ => true

theorem undisturbed_of_calm {a : Action} (h : (Turn.act a).calm = true) (s s' : State) :
    Undisturbed s a s' := by
  cases a with
  | cancel | dropFuture => cases h
  | piece i event => exact h
  | poll | future => exact trivial

/-- The future of that loop returns, and each index was run once. -/
theorem par_for_returns_three : ∃ (ρ : (@awaited target64 threeItems).Path) (m : Nat),
    (ρ.state m).future = .ready ∧
      ∀ k, (ρ.state m).ran.count k = @Loop.calls target64 threeItems k := by
  obtain ⟨t, hrun, hend⟩ := Option.map_eq_some_iff.mp
    (show ((@awaited target64 threeItems).run (@new target64 threeItems) awaitedRun).map
      (fun s => decide (s.future = .ready ∧ ∀ p ∈ s.pieces, p.pc = .gone)) = some true by decide)
  obtain ⟨hready, hgone⟩ := of_decide_eq_true hend
  have h0 : (@awaited target64 threeItems).init (@new target64 threeItems) := rfl
  let ρ : (@awaited target64 threeItems).Path := Lts.Path.ofRun awaitedRun h0 hrun
  have hexecutor : ρ.WeakFair fun t => ∃ w, t = .due w := by
    refine fair_ofRun ?_
    rintro ⟨_, ⟨w, rfl⟩, hen⟩
    simp [awaited, turn, State.isDue, hready] at hen
  have hfuture : ρ.WeakFair (· = .act .future) := by
    refine fair_ofRun ?_
    rintro ⟨_, rfl, hen⟩
    simp [awaited, turn, step, futureStep, hready] at hen
  have hpieces : ρ.WeakFair fun t => ∃ i event, t = .act (.piece i event) := by
    refine fair_ofRun ?_
    rintro ⟨_, ⟨i, event, rfl⟩, hen⟩
    cases hi : t.pieces[i]? with
    | none => simp [awaited, turn, step, hi] at hen
    | some p =>
      have hpc := hgone p (List.mem_of_getElem? hi)
      cases event <;> simp [awaited, turn, step, hi, pieceStep, hpc] at hen
  have hcalm : ∀ t ∈ awaitedRun, t.calm = true := by decide
  obtain ⟨m, -, hm⟩ := (@par_for_returns target64 threeItems ρ
    (@Awaits.mk target64 threeItems ρ hexecutor hfuture hpieces)).2
    (fun n a hlabel => undisturbed_of_calm (hcalm _ (List.mem_of_getElem? hlabel)) _ _) 0 trivial
  exact ⟨ρ, m, hm⟩

end Nagoya.Par
