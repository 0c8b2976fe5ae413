import Nagoya.Proofs.Par.Pieces

/-!
# `Nagoya.Proofs.Par`: a parallel loop counts its pieces and runs every index once

The sums of the weights over all pieces give the accounting (`Counted`). They do not depend on how
the pieces are interleaved, because a step replaces one piece and perhaps adds one. `Phase` says
what the future knows of the pieces, `Panics` where the payload of a panic is, and `Wakes` where
the waker of a pending future is. Together they are the invariant of every run.

`Calm` is the rest of the accounting for a run that nothing disturbs: an index that was not run is
owed by a piece. `Ends` says that a loop comes to an end. No piece waits for another, so a piece
that is not gone can always move, and each of its steps uses up a part of what is left.
-/

set_option autoImplicit false

namespace Nagoya.Par

open Nagoya.Lib

section

variable [Target]

/-! ### The accounting -/

/-- A piece has at least as many indices as it counts for. -/
theorem live_le_size {l : Loop} {p : Piece} (h : p.Fits l) : p.live ≤ p.size := by
  obtain ⟨start, stop, pc⟩ := p
  cases pc with
  | submit right =>
    obtain ⟨hlt, hright, -⟩ : start < stop ∧ stop < right ∧ right ≤ l.stop := h
    show 2 ≤ right - start
    omega
  | storeFinished | takeWaiter | wake | gone => exact Nat.le_refl 0
  | _ => exact Nat.le_max_left _ _

/-- How often the body is to be called with `k`. -/
def Loop.calls (l : Loop) (k : Nat) : Nat := if l.start ≤ k ∧ k < l.stop then 1 else 0

/-- The books of the loop. -/
structure Counted (l : Loop) (s : State) : Prop where
  fits : ∀ p ∈ s.pieces, p.Fits l
  count : s.outstanding = tally Piece.live s.pieces
  size : tally Piece.size s.pieces ≤ max 1 (l.stop - l.start)
  /-- The count is zero when `finished` is set, or when one piece is about to set it. -/
  stored : tally Piece.storing s.pieces + s.finished.toNat = if s.outstanding = 0 then 1 else 0
  /-- An index was run or is owed by one piece, and not both. -/
  owes : ∀ k, s.ran.count k + tally (Piece.owes k) s.pieces ≤ l.calls k

/-- A new loop. -/
theorem counted_new (l : Loop) : Counted l (new l) := by
  refine ⟨?_, rfl, ?_, rfl, ?_⟩
  · intro p hp
    rw [List.mem_singleton.mp hp]
    exact ⟨rfl, rfl⟩
  · exact Nat.le_refl _
  · intro k
    show 0 + (l.calls k + 0) ≤ l.calls k
    omega

/-- The counter has room for the indices of a piece. -/
theorem Counted.room {l : Loop} {s : State} (h : Counted l s) {i : Nat} {p : Piece}
    (hi : s.pieces[i]? = some p) : s.outstanding + p.size ≤ usizeMax + p.live := by
  have hmono := tally_set_mono (f := Piece.live) (g := Piece.size) hi p fun j q _ hj =>
    live_le_size (h.fits q (List.mem_of_getElem? hj))
  rw [set_eq_self hi, ← h.count] at hmono
  have hsize := h.size
  have hstop := l.stop_le
  have hmod := two_lt_usizeModulus
  unfold usizeMax at hstop ⊢
  omega

/-- A piece that is about to set `finished` is the first. -/
theorem Counted.first {l : Loop} {s : State} (h : Counted l s) {i : Nat} {p : Piece}
    (hi : s.pieces[i]? = some p) (hpc : p.pc = .storeFinished) : s.finished = false := by
  have hle := le_tally Piece.storing hi
  have hone : p.storing = 1 := if_pos hpc
  have hstored := h.stored
  cases hf : s.finished with
  | false => rfl
  | true =>
    rw [hf, Bool.toNat_true] at hstored
    split_ifs at hstored
    omega

/-- What a step of a piece moves, in a state whose books are in order. -/
theorem Counted.moved {l : Loop} {s s' : State} {i : Nat} {event : Event} (h : Counted l s)
    (hs : step l s (.piece i event) = some s') :
    ∃ p p' extra, s.pieces[i]? = some p ∧ Moved l s s' i p p' extra event := by
  simp only [step] at hs
  split at hs
  · rename_i p hi
    obtain ⟨p', extra, hm⟩ := pieceStep_moved (h.fits p (List.mem_of_getElem? hi))
      (by rw [h.count]; exact le_tally Piece.live hi) (h.room hi) (h.first hi) hs
    exact ⟨p, p', extra, hi, hm⟩
  · cases hs

/-- A weight over the pieces after a step of one. -/
theorem Moved.tally {l : Loop} {s s' : State} {i : Nat} {p p' : Piece} {extra : List Piece}
    {event : Event} (hm : Moved l s s' i p p' extra event) (hi : s.pieces[i]? = some p)
    (f : Piece → Nat) :
    Lib.tally f s'.pieces + f p = Lib.tally f s.pieces + (f p' + Lib.tally f extra) := by
  have hset := tally_set f hi p'
  rw [hm.pieces, tally_append]
  omega

/-- The pieces after a step: the one that moved, those that were there, and the one it made. -/
theorem Moved.mem_cases {l : Loop} {s s' : State} {i : Nat} {p p' q : Piece} {extra : List Piece}
    {event : Event} (hm : Moved l s s' i p p' extra event) (hi : s.pieces[i]? = some p)
    (hq : q ∈ s'.pieces) : q = p' ∨ q ∈ s.pieces ∨ q ∈ extra := by
  rw [hm.pieces] at hq
  rcases List.mem_append.mp hq with hq | hq
  · rcases mem_set_cases hi hq with hself | ⟨j, -, hj⟩
    · exact .inl hself
    · exact .inr (.inl (List.mem_of_getElem? hj))
  · exact .inr (.inr hq)

/-- A step of a piece keeps the books. -/
theorem counted_moved {l : Loop} {s s' : State} {i : Nat} {p p' : Piece} {extra : List Piece}
    {event : Event} (h : Counted l s) (hi : s.pieces[i]? = some p)
    (hm : Moved l s s' i p p' extra event) : Counted l s' := by
  refine ⟨?_, ?_, ?_, ?_, ?_⟩
  · intro q hq
    rcases hm.mem_cases hi hq with rfl | hq | hq
    · exact hm.fits.1
    · exact h.fits q hq
    · exact hm.fits.2 q hq
  · have hlive := hm.tally hi Piece.live
    have hmoved := hm.live
    have hcount := h.count
    omega
  · have hsize := hm.tally hi Piece.size
    have hmoved := hm.size
    have hle := h.size
    omega
  · have hstoring := hm.tally hi Piece.storing
    have hnone : Lib.tally Piece.storing extra = 0 := by
      exact tally_eq_zero fun q hq => (Piece.of_fresh (hm.fresh q hq)).2.2.1
    have hmoved := hm.stored
    have hstored := h.stored
    omega
  · intro k
    have howes := hm.tally hi (Piece.owes k)
    have hmoved := hm.owes k
    have hle := h.owes k
    omega

/-- The books depend on the count, the pieces, the flag and the indices that were run. -/
theorem Counted.congr {l : Loop} {s s' : State} (h : Counted l s)
    (hout : s'.outstanding = s.outstanding) (hpieces : s'.pieces = s.pieces)
    (hfin : s'.finished = s.finished) (hran : s'.ran = s.ran) : Counted l s' := by
  refine ⟨?_, ?_, ?_, ?_, ?_⟩
  · rw [hpieces]
    exact h.fits
  · rw [hout, hpieces]
    exact h.count
  · rw [hpieces]
    exact h.size
  · rw [hpieces, hfin, hout]
    exact h.stored
  · rw [hran, hpieces]
    exact h.owes

/-- The first poll moves the root. -/
theorem Counted.root {l : Loop} {s s' : State} {pc : PiecePc} (h : Counted l s)
    (hroot : s.pieces = [⟨l.start, l.stop, .root⟩]) (hout : s'.outstanding = s.outstanding)
    (hpieces : s'.pieces = [⟨l.start, l.stop, pc⟩]) (hfin : s'.finished = s.finished)
    (hran : s'.ran = s.ran) (hpc : pc = .retire ∨ pc = .queued ∧ l.start < l.stop) :
    Counted l s' := by
  have hcount := h.count
  have hsize := h.size
  have hstored := h.stored
  rw [hroot] at hcount hsize hstored
  refine ⟨?_, ?_, ?_, ?_, ?_⟩
  · intro p hp
    rw [hpieces, List.mem_singleton] at hp
    rw [hp]
    rcases hpc with rfl | ⟨rfl, hlt⟩
    · trivial
    · exact ⟨hlt, Nat.le_refl _⟩
  · rw [hout, hpieces, hcount]
    rcases hpc with rfl | ⟨rfl, -⟩ <;> rfl
  · rw [hpieces]
    rcases hpc with rfl | ⟨rfl, -⟩ <;> exact hsize
  · rw [hpieces, hfin, hout, ← hstored]
    rcases hpc with rfl | ⟨rfl, -⟩ <;> rfl
  · intro k
    have howes := h.owes k
    rw [hroot] at howes
    rw [hran, hpieces]
    rcases hpc with rfl | ⟨rfl, -⟩
    · exact Nat.le_trans (Nat.add_le_add_left (Nat.zero_le _) _) howes
    · exact howes

/-! ### The phases of the future -/

/-- What the future knows of the pieces. -/
def Phase (l : Loop) (s : State) : Prop :=
  match s.future with
  | .unpolled => s.pieces = [⟨l.start, l.stop, .root⟩] ∧ s.panics = [] ∧ s.polls = 0
  | .start _ => s.pieces = [⟨l.start, l.stop, .root⟩] ∧ s.panics = []
  | .submit _ => s.pieces = [⟨l.start, l.stop, .root⟩] ∧ s.panics = [] ∧ l.start < l.stop
  | .retireRoot => s.panics = [] ∧ ∃ p, s.pieces = [p] ∧ p.retiring = true
  | .resume | .ready | .panicked _ => s.finished = true ∧ ∀ p ∈ s.pieces, p.pc ≠ .root
  | .dropped =>
    s.pieces = [⟨l.start, l.stop, .root⟩] ∧ s.polls = 0 ∨ ∀ p ∈ s.pieces, p.pc ≠ .root
  | _ => ∀ p ∈ s.pieces, p.pc ≠ .root

/-- A step of a piece keeps the phase. -/
theorem phase_moved {l : Loop} {s s' : State} {i : Nat} {p p' : Piece} {extra : List Piece}
    {event : Event} (h : Phase l s) (hi : s.pieces[i]? = some p)
    (hstep : step l s (.piece i event) = some s') (hm : Moved l s s' i p p' extra event)
    (hfin : s.finished = true → s'.finished = true) : Phase l s' := by
  -- The root takes no step.
  have hnone : s.pieces ≠ [⟨l.start, l.stop, .root⟩] := by
    intro hroot
    rw [step, hi] at hstep
    rw [hroot] at hi
    cases i with
    | zero =>
      cases hi
      cases event <;> cases hstep
    | succ i => cases hi
  -- What the step adds are halves of a range, and none of them is the root.
  have hroots : (∀ q ∈ s.pieces, q.pc ≠ .root) → ∀ q ∈ s'.pieces, q.pc ≠ .root := by
    intro hold q hq
    rcases hm.mem_cases hi hq with rfl | hq | hq
    · exact hm.root
    · exact hold q hq
    · exact (Piece.of_fresh (hm.fresh q hq)).1
  unfold Phase at h ⊢
  rw [hm.frame.1]
  cases hf : s.future with
  -- Before the root is submitted there is no other piece that could step.
  | unpolled | start | submit =>
    rw [hf] at h
    exact absurd h.1 hnone
  | retireRoot =>
    rw [hf] at h
    obtain ⟨hpanics, q, hq, hretiring⟩ := h
    rw [hq] at hi
    cases i with
    | zero =>
      cases hi
      obtain ⟨hretiring', hextra⟩ := hm.retiring hretiring
      refine ⟨?_, p', ?_, hretiring'⟩
      · cases hm.effect with
        | quiet _ _ _ _ _ hsame => rw [hsame, hpanics]
        | caught _ _ hpc =>
          rw [hretiring] at hpc
          cases hpc
        | recorded _ _ _ _ hs | stored _ _ hs | took _ _ _ _ hs | woke _ _ _ hs =>
          rw [hs]
          exact hpanics
      · rw [hm.pieces, hextra, hq]
        rfl
    | succ i => cases hi
  | resume | ready | panicked =>
    rw [hf] at h
    exact ⟨hfin h.1, hroots h.2⟩
  | load | park | reload | pending =>
    rw [hf] at h
    exact hroots h
  | dropped =>
    rw [hf] at h
    exact .inr (hroots (h.resolve_left fun h => hnone h.1))

/-- A piece that does not take the step is still there. -/
theorem Moved.mem {l : Loop} {s s' : State} {i : Nat} {p p' q : Piece} {extra : List Piece}
    {event : Event} (hm : Moved l s s' i p p' extra event) (hi : s.pieces[i]? = some p)
    (hq : q ∈ s.pieces) : q = p ∨ q ∈ s'.pieces := by
  rw [hm.pieces]
  rcases mem_set_of_mem hi p' hq with hq | hq
  · exact .inl hq
  · exact .inr (List.mem_append_left _ hq)

/-- The piece after its step. -/
theorem Moved.mem_self {l : Loop} {s s' : State} {i : Nat} {p p' : Piece} {extra : List Piece}
    {event : Event} (hm : Moved l s s' i p p' extra event) (hi : s.pieces[i]? = some p) :
    p' ∈ s'.pieces := by
  rw [hm.pieces]
  exact List.mem_append_left _ (mem_set_of_some hi p')

/-- `finished` is set after the count reached zero. -/
theorem Counted.zero_of_finished {l : Loop} {s : State} (h : Counted l s)
    (hf : s.finished = true) : s.outstanding = 0 := by
  have hstored := h.stored
  rw [hf, Bool.toNat_true] at hstored
  split_ifs at hstored with hzero
  exact hzero

/-- When the count is zero, no piece counts. -/
theorem Counted.live_eq_zero {l : Loop} {s : State} (h : Counted l s) (hzero : s.outstanding = 0)
    {p : Piece} (hp : p ∈ s.pieces) : p.live = 0 := by
  obtain ⟨i, hi⟩ := List.getElem?_of_mem hp
  have hle := le_tally Piece.live hi
  rw [← h.count, hzero] at hle
  exact Nat.le_zero.mp hle

/-! ### The panics -/

/-- The panic of a body is with its piece until it is recorded, and a poll rethrows it. -/
structure Panics (s : State) : Prop where
  origin : ∀ x, s.panic = some x → x ∈ s.panics
  carried : ∀ p ∈ s.pieces, ∀ x, p.payload = some x → x ∈ s.panics
  kept : s.panics ≠ [] → s.seen = false → s.panic ≠ none ∨ ∃ p ∈ s.pieces, p.payload ≠ none
  seen : s.seen = true → s.finished = true
  /-- The first poll retired the root, and no body was called. -/
  early : s.future = .ready → s.seen = false → s.panics = []

/-- A poll that has seen the end saw it for good. -/
theorem Panics.seen_moved {l : Loop} {s s' : State} {i : Nat} {p p' : Piece} {extra : List Piece}
    {event : Event} (h : Panics s) (hm : Moved l s s' i p p' extra event)
    (hseen : s'.seen = true) : s'.finished = true := by
  rw [hm.frame.2.2] at hseen
  exact hm.effect.finished (h.seen hseen)

/-- A step that calls no body keeps a loop without panics so. -/
theorem Panics.early_moved {l : Loop} {s s' : State} {i : Nat} {p p' : Piece}
    {extra : List Piece} {event : Event} (h : Panics s) (hm : Moved l s s' i p p' extra event)
    (hpanics : s'.panics = s.panics) (hf : s'.future = .ready) (hseen : s'.seen = false) :
    s'.panics = [] := by
  rw [hm.frame.1] at hf
  rw [hm.frame.2.2] at hseen
  rw [hpanics]
  exact h.early hf hseen

/-- A step of a piece that leaves the panics. -/
theorem Panics.keep {l : Loop} {s s' : State} {i : Nat} {p p' : Piece} {extra : List Piece}
    {event : Event} (h : Panics s) (hi : s.pieces[i]? = some p)
    (hm : Moved l s s' i p p' extra event) (hpayload : p'.payload = p.payload)
    (hpanic : s'.panic = s.panic) (hpanics : s'.panics = s.panics) : Panics s' := by
  refine ⟨?_, ?_, ?_, ?_, ?_⟩
  · rw [hpanic, hpanics]
    exact h.origin
  · intro q hq x hx
    rw [hpanics]
    rcases hm.mem_cases hi hq with rfl | hq | hq
    · exact h.carried p (List.mem_of_getElem? hi) x (by rw [← hpayload]; exact hx)
    · exact h.carried q hq x hx
    · rw [(Piece.of_fresh (hm.fresh q hq)).2.2.2.1] at hx
      cases hx
  · intro hne hseen
    rw [hpanics] at hne
    rw [hm.frame.2.2] at hseen
    rw [hpanic]
    rcases h.kept hne hseen with hp | ⟨q, hq, hqp⟩
    · exact .inl hp
    · rcases hm.mem hi hq with rfl | hq
      · exact .inr ⟨p', hm.mem_self hi, by rw [hpayload]; exact hqp⟩
      · exact .inr ⟨q, hq, hqp⟩
  · intro hseen
    exact h.seen_moved hm hseen
  · intro hf hseen
    exact h.early_moved hm hpanics hf hseen

/-- A step of a piece keeps the panics. -/
theorem panics_moved {l : Loop} {s s' : State} {i : Nat} {p p' : Piece} {extra : List Piece}
    {event : Event} (hc : Counted l s) (hphase : Phase l s) (h : Panics s)
    (hi : s.pieces[i]? = some p) (hm : Moved l s s' i p p' extra event) : Panics s' := by
  have hmem := List.mem_of_getElem? hi
  cases hm.effect with
  | quiet hpayload _ _ _ hpanic hpanics => exact h.keep hi hm hpayload hpanic hpanics
  | stored hp hp' hs =>
    refine h.keep hi hm ?_ (by rw [hs]) (by rw [hs])
    rw [Piece.payload, Piece.payload, hp, hp']
  | took x _ hp hp' hs =>
    refine h.keep hi hm ?_ (by rw [hs]) (by rw [hs])
    rw [Piece.payload, Piece.payload, hp, hp']
  | woke x hp hp' hs =>
    refine h.keep hi hm ?_ (by rw [hs]) (by rw [hs])
    rw [Piece.payload, Piece.payload, hp, hp']
  | caught x hlive hpc hp' hs =>
    -- A piece that counts is running, so the loop is not finished.
    have hrunning : s.finished = false := by
      cases hf : s.finished with
      | false => rfl
      | true =>
        have := hc.live_eq_zero (hc.zero_of_finished hf) hmem
        omega
    have hpanics : s'.panics = s.panics ++ [x] := by rw [hs]
    refine ⟨?_, ?_, ?_, ?_, ?_⟩
    · intro y hy
      rw [hs] at hy
      rw [hpanics]
      exact List.mem_append_left _ (h.origin y hy)
    · intro q hq y hy
      rw [hpanics]
      rcases hm.mem_cases hi hq with rfl | hq | hq
      · rw [hp'] at hy
        cases hy
        exact List.mem_append_right _ (List.mem_singleton_self _)
      · exact List.mem_append_left _ (h.carried q hq y hy)
      · rw [(Piece.of_fresh (hm.fresh q hq)).2.2.2.1] at hy
        cases hy
    · intro _ _
      exact .inr ⟨p', hm.mem_self hi, by simp [hp']⟩
    · intro hseen
      rw [hm.frame.2.2] at hseen
      rw [h.seen hseen] at hrunning
      cases hrunning
    · intro hf
      rw [hm.frame.1] at hf
      rw [Phase, hf] at hphase
      rw [hphase.1] at hrunning
      cases hrunning
  | recorded x hlive hp hp' hs =>
    -- The first payload is kept, and every later one is let go.
    have hpanics : s'.panics = s.panics := by rw [hs]
    have hpanic : s'.panic = s.panic.or (some x) := by rw [hs]
    have hsome : s'.panic ≠ none := by
      rw [hpanic]
      cases s.panic <;> simp
    refine ⟨?_, ?_, fun _ _ => .inl hsome, ?_, ?_⟩
    · intro y hy
      rw [hpanics]
      rw [hpanic, Option.or_eq_some_iff] at hy
      rcases hy with hy | ⟨-, hy⟩
      · exact h.origin y hy
      · cases hy
        exact h.carried p hmem x hp
    · intro q hq y hy
      rw [hpanics]
      rcases hm.mem_cases hi hq with rfl | hq | hq
      · rw [Piece.payload, hp'] at hy
        cases hy
      · exact h.carried q hq y hy
      · rw [(Piece.of_fresh (hm.fresh q hq)).2.2.2.1] at hy
        cases hy
    · intro hseen
      exact h.seen_moved hm hseen
    · intro hf hseen
      exact h.early_moved hm hpanics hf hseen

/-! ### The waker -/

/-- The waker that a poll parked is in its place and somebody will take it, or it is being woken,
or it was. -/
def Covered (s : State) (x : Waiter) : Prop :=
  (s.waiter = some x ∧ (s.finished = false ∨ ∃ p ∈ s.pieces, p.pc = .takeWaiter)) ∨
    (∃ p ∈ s.pieces, p.pc = .wake x) ∨ x ∈ s.woken

/-- A poll that is about to return `Pending`, or that did, left its waker. -/
structure Wakes (s : State) : Prop where
  taking : ∀ p ∈ s.pieces, p.pc = .takeWaiter → s.finished = true
  reload : ∀ w, s.future = .reload w → s.finished = false → s.waiter = some (s.polls, w)
  pending : ∀ w, s.future = .pending w → Covered s (s.polls, w)

/-- A step of a piece keeps a waker covered. -/
theorem covered_moved {l : Loop} {s s' : State} {i : Nat} {p p' : Piece} {extra : List Piece}
    {event : Event} {x : Waiter} (h : Covered s x) (hi : s.pieces[i]? = some p)
    (hm : Moved l s s' i p p' extra event) : Covered s' x := by
  have hself := hm.mem_self hi
  -- The step leaves the waiter and the flag, and `p` neither takes nor wakes this waker.
  have hsame : s'.waiter = s.waiter → s'.finished = s.finished → s.woken ⊆ s'.woken →
      (s.waiter = some x → p.pc ≠ .takeWaiter) → p.pc ≠ .wake x → Covered s' x := by
    intro hwaiter hfin hwoken htake hwake
    rcases h with ⟨hx, hnext⟩ | ⟨q, hq, hqpc⟩ | hx
    · refine .inl ⟨by rw [hwaiter, hx], ?_⟩
      rcases hnext with hf | ⟨q, hq, hqpc⟩
      · exact .inl (by rw [hfin, hf])
      · rcases hm.mem hi hq with rfl | hq
        · exact absurd hqpc (htake hx)
        · exact .inr ⟨q, hq, hqpc⟩
    · rcases hm.mem hi hq with rfl | hq
      · exact absurd hqpc hwake
      · exact .inr (.inl ⟨q, hq, hqpc⟩)
    · exact .inr (.inr (hwoken hx))
  cases hm.effect with
  | quiet _ _ htake hwake _ _ hfin hwaiter hwoken =>
    refine hsame hwaiter hfin (by rw [hwoken]; exact List.Subset.refl _) ?_ (hwake x)
    intro hx hpc
    rw [htake hpc] at hx
    cases hx
  | caught y hlive _ _ hs | recorded y hlive _ _ hs =>
    refine hsame (by rw [hs]) (by rw [hs]) (by rw [hs]; exact List.Subset.refl _) ?_ ?_
    · intro _ hpc
      exact hlive (by rw [Piece.live, hpc])
    · intro hpc
      exact hlive (by rw [Piece.live, hpc])
  -- The piece that sets the flag takes the waiter next.
  | stored hp hp' hs =>
    rcases h with ⟨hx, -⟩ | ⟨q, hq, hqpc⟩ | hx
    · exact .inl ⟨by rw [hs]; exact hx, .inr ⟨p', hself, hp'⟩⟩
    · rcases hm.mem hi hq with rfl | hq
      · rw [hp] at hqpc
        cases hqpc
      · exact .inr (.inl ⟨q, hq, hqpc⟩)
    · exact .inr (.inr (by rw [hs]; exact hx))
  -- The waker goes from the waiter to the piece, which wakes it next.
  | took y hy hp hp' hs =>
    rcases h with ⟨hx, -⟩ | ⟨q, hq, hqpc⟩ | hx
    · rw [hy, Option.some.injEq] at hx
      exact .inr (.inl ⟨p', hself, by rw [hp', hx]⟩)
    · rcases hm.mem hi hq with rfl | hq
      · rw [hp] at hqpc
        cases hqpc
      · exact .inr (.inl ⟨q, hq, hqpc⟩)
    · exact .inr (.inr (by rw [hs]; exact hx))
  | woke y hp hp' hs =>
    by_cases hxy : y = x
    · refine .inr (.inr ?_)
      rw [hs, hxy]
      exact List.mem_append_right _ (List.mem_singleton_self _)
    · refine hsame (by rw [hs]) (by rw [hs]) ?_ ?_ ?_
      · rw [hs]
        exact List.subset_append_left _ _
      · intro _ hpc
        rw [hp] at hpc
        cases hpc
      · intro hpc
        rw [hp] at hpc
        cases hpc
        exact hxy rfl

/-- A step of a piece keeps the wakers. -/
theorem wakes_moved {l : Loop} {s s' : State} {i : Nat} {p p' : Piece} {extra : List Piece}
    {event : Event} (h : Wakes s) (hi : s.pieces[i]? = some p)
    (hm : Moved l s s' i p p' extra event) : Wakes s' := by
  obtain ⟨hfuture, hpolls, -⟩ := hm.frame
  refine ⟨?_, ?_, ?_⟩
  · -- Only a piece that comes to `takeWaiter` in this step needs an argument.
    intro q hq hqpc
    rcases hm.mem_cases hi hq with rfl | hq | hq
    · cases hm.effect with
      | quiet _ htake' => exact absurd hqpc htake'
      | caught _ _ _ hp' =>
        rw [Piece.payload, hqpc] at hp'
        cases hp'
      | recorded _ _ _ hp' | took _ _ _ hp' | woke _ _ hp' =>
        rw [hqpc] at hp'
        cases hp'
      | stored _ _ hs => rw [hs]
    · exact hm.effect.finished (h.taking q hq hqpc)
    · exact absurd hqpc (Piece.of_fresh (hm.fresh q hq)).2.1
  · intro w hw hfin
    rw [hfuture] at hw
    rw [hpolls]
    -- Nobody takes the waiter before the loop is finished.
    have hunfinished : s.finished = false := by
      cases hf : s.finished with
      | false => rfl
      | true =>
        rw [hm.effect.finished hf] at hfin
        cases hfin
    have hwaiter := h.reload w hw hunfinished
    cases hm.effect with
    | quiet _ _ _ _ _ _ _ hsame => rw [hsame, hwaiter]
    | took _ _ hp =>
      rw [h.taking p (List.mem_of_getElem? hi) hp] at hunfinished
      cases hunfinished
    | caught _ _ _ _ hs | recorded _ _ _ _ hs | stored _ _ hs | woke _ _ _ hs =>
      rw [hs]
      exact hwaiter
  · intro w hw
    rw [hfuture] at hw
    rw [hpolls]
    exact covered_moved (h.pending w hw) hi hm

/-! ### The steps of the future -/

omit [Target] in
/-- A step that leaves the pieces and the panics. -/
theorem Panics.congr {s s' : State} (h : Panics s) (hpieces : s'.pieces = s.pieces)
    (hpanic : s'.panic = s.panic) (hpanics : s'.panics = s.panics) (hseen : s'.seen = s.seen)
    (hfin : s'.finished = s.finished) (hready : s'.future = .ready → s.future = .ready) :
    Panics s' := by
  refine ⟨?_, ?_, ?_, ?_, ?_⟩
  · rw [hpanic, hpanics]
    exact h.origin
  · rw [hpieces, hpanics]
    exact h.carried
  · rw [hpanics, hseen, hpanic, hpieces]
    exact h.kept
  · rw [hseen, hfin]
    exact h.seen
  · rw [hseen, hpanics]
    exact fun hf => h.early (hready hf)

omit [Target] in
/-- A step before the first body is called. -/
theorem Panics.fresh {s s' : State} (h : Panics s) (hnone : s.panics = [])
    (hpieces : ∀ p ∈ s'.pieces, p.payload = none) (hpanic : s'.panic = s.panic)
    (hpanics : s'.panics = s.panics) (hseen : s'.seen = s.seen)
    (hfin : s'.finished = s.finished) : Panics s' := by
  refine ⟨?_, ?_, ?_, ?_, ?_⟩
  · rw [hpanic, hpanics]
    exact h.origin
  · intro p hp x hx
    rw [hpieces p hp] at hx
    cases hx
  · intro hne
    rw [hpanics] at hne
    exact absurd hnone hne
  · rw [hseen, hfin]
    exact h.seen
  · intro _ _
    rw [hpanics, hnone]

omit [Target] in
/-- A step that does not leave the future with its waker parked. -/
theorem Wakes.idle {s s' : State} (h : Wakes s)
    (hpieces : ∀ p ∈ s'.pieces, p.pc = .takeWaiter → p ∈ s.pieces)
    (hfin : s'.finished = s.finished) (hreload : ∀ w, s'.future ≠ .reload w)
    (hpending : ∀ w, s'.future ≠ .pending w) : Wakes s' := by
  refine ⟨?_, ?_, ?_⟩
  · intro p hp hpc
    rw [hfin]
    exact h.taking p (hpieces p hp hpc) hpc
  · intro w hw
    exact absurd hw (hreload w)
  · intro w hw
    exact absurd hw (hpending w)

/-- What holds in every state of a loop. -/
structure Inv (l : Loop) (s : State) : Prop where
  counted : Counted l s
  phase : Phase l s
  panics : Panics s
  wakes : Wakes s

/-- A new loop. -/
theorem inv_new (l : Loop) : Inv l (new l) := by
  refine ⟨counted_new l, ⟨rfl, rfl, rfl⟩, ⟨?_, ?_, ?_, ?_, ?_⟩, ⟨?_, ?_, ?_⟩⟩
  · intro x hx
    cases hx
  · intro p hp x hx
    rw [List.mem_singleton.mp hp] at hx
    cases hx
  · intro hne
    exact absurd rfl hne
  · intro hseen
    cases hseen
  · intro hf
    cases hf
  · intro p hp hpc
    rw [List.mem_singleton.mp hp] at hpc
    cases hpc
  · intro w hw
    cases hw
  · intro w hw
    cases hw

/-- The first poll moves the root. -/
theorem inv_root {l : Loop} {s s' : State} (pc : PiecePc) (h : Inv l s)
    (hroot : s.pieces = [⟨l.start, l.stop, .root⟩]) (hnone : s.panics = [])
    (hpc : pc = .retire ∨ pc = .queued ∧ l.start < l.stop)
    (hs : s' = { s with future := s'.future, pieces := [⟨l.start, l.stop, pc⟩] })
    (hphase : Phase l s') (hreload : ∀ w, s'.future ≠ .reload w)
    (hpending : ∀ w, s'.future ≠ .pending w) : Inv l s' := by
  have hpieces : s'.pieces = [⟨l.start, l.stop, pc⟩] := by rw [hs]
  have hfin : s'.finished = s.finished := by rw [hs]
  refine ⟨?_, hphase, ?_, ?_⟩
  · exact h.counted.root hroot (by rw [hs]) hpieces hfin (by rw [hs]) hpc
  · refine h.panics.fresh hnone ?_ (by rw [hs]) (by rw [hs]) (by rw [hs]) hfin
    intro p hp
    rw [hpieces, List.mem_singleton] at hp
    rw [hp]
    rcases hpc with rfl | ⟨rfl, -⟩ <;> rfl
  · refine h.wakes.idle ?_ hfin hreload hpending
    intro p hp hpc'
    rw [hpieces, List.mem_singleton] at hp
    rw [hp] at hpc'
    rcases hpc with rfl | ⟨rfl, -⟩ <;> cases hpc'

/-- A step of the future, or of nobody, that leaves the pieces, the panics and the flag. -/
theorem inv_turn {l : Loop} {s s' : State} (h : Inv l s)
    (hs : s' = { s with
      future := s'.future, polls := s'.polls, cancelled := s'.cancelled, waiter := s'.waiter })
    (hphase : Phase l s') (hready : s'.future = .ready → s.future = .ready) (hwakes : Wakes s') :
    Inv l s' := by
  refine ⟨?_, hphase, ?_, hwakes⟩
  · exact h.counted.congr (by rw [hs]) (by rw [hs]) (by rw [hs]) (by rw [hs])
  · exact h.panics.congr (by rw [hs]) (by rw [hs]) (by rw [hs]) (by rw [hs]) (by rw [hs]) hready

/-- A step of the future that does not leave its waker parked. -/
theorem inv_leave {l : Loop} {s s' : State} (h : Inv l s)
    (hs : s' = { s with future := s'.future, polls := s'.polls, cancelled := s'.cancelled })
    (hphase : Phase l s') (hready : s'.future ≠ .ready) (hreload : ∀ w, s'.future ≠ .reload w)
    (hpending : ∀ w, s'.future ≠ .pending w) : Inv l s' := by
  have hwaiter : s'.waiter = s.waiter := by rw [hs]
  refine inv_turn h ?_ hphase (fun hf => absurd hf hready) ?_
  · rw [hwaiter]
    exact hs
  · refine h.wakes.idle ?_ (by rw [hs]) hreload hpending
    intro p hp _
    rw [hs] at hp
    exact hp

/-- A poll begins. -/
theorem inv_poll {l : Loop} {s s' : State} {w : Waker} (h : Inv l s)
    (hs : step l s (.poll w) = some s') : Inv l s' := by
  have hphase := h.phase
  unfold Phase at hphase
  simp only [step] at hs
  cases hf : s.future with
  | unpolled =>
    rw [hf] at hs hphase
    cases hs
    exact inv_leave h rfl ⟨hphase.1, hphase.2.1⟩ (by simp) (by simp) (by simp)
  | pending =>
    rw [hf] at hs hphase
    cases hs
    exact inv_leave h rfl hphase (by simp) (by simp) (by simp)
  | ready | panicked =>
    rw [hf] at hs hphase
    cases hs
    exact inv_leave h rfl hphase.2 (by simp) (by simp) (by simp)
  | start | retireRoot | submit | load | park | reload | resume | dropped =>
    rw [hf] at hs
    cases hs

/-- The future is dropped. -/
theorem inv_dropFuture {l : Loop} {s s' : State} (h : Inv l s)
    (hs : step l s .dropFuture = some s') : Inv l s' := by
  have hphase := h.phase
  unfold Phase at hphase
  simp only [step] at hs
  cases hf : s.future with
  | unpolled =>
    rw [hf] at hs hphase
    cases hs
    exact inv_leave h rfl (.inl ⟨hphase.1, hphase.2.2⟩) (by simp) (by simp) (by simp)
  | pending =>
    rw [hf] at hs hphase
    cases hs
    exact inv_leave h rfl (.inr hphase) (by simp) (by simp) (by simp)
  | ready | panicked =>
    rw [hf] at hs hphase
    cases hs
    exact inv_leave h rfl (.inr hphase.2) (by simp) (by simp) (by simp)
  | start | retireRoot | submit | load | park | reload | resume | dropped =>
    rw [hf] at hs
    cases hs

/-- The switch is thrown. -/
theorem inv_cancel {l : Loop} {s s' : State} (h : Inv l s) (hs : step l s .cancel = some s') :
    Inv l s' := by
  cases hs
  exact inv_turn h rfl h.phase id ⟨h.wakes.taking, h.wakes.reload, h.wakes.pending⟩

/-- The count is zero once every piece is past its `fetch_sub`, and `finished` is set once they
are all gone. -/
theorem Counted.all_gone {l : Loop} {s : State} (h : Counted l s)
    (hgone : ∀ p ∈ s.pieces, p.pc = .gone) : s.outstanding = 0 ∧ s.finished = true := by
  have hlive : tally Piece.live s.pieces = 0 := by
    refine tally_eq_zero fun p hp => ?_
    rw [Piece.live, hgone p hp]
  have hstoring : tally Piece.storing s.pieces = 0 := by
    refine tally_eq_zero fun p hp => ?_
    rw [Piece.storing, hgone p hp]
    rfl
  have hzero : s.outstanding = 0 := by rw [h.count, hlive]
  refine ⟨hzero, ?_⟩
  have hstored := h.stored
  rw [hstoring, if_pos hzero, Nat.zero_add] at hstored
  cases hf : s.finished with
  | true => rfl
  | false =>
    rw [hf] at hstored
    cases hstored

/-- The next step of a poll. -/
theorem inv_future {l : Loop} {s s' : State} (h : Inv l s) (hs : step l s .future = some s') :
    Inv l s' := by
  have hphase := h.phase
  unfold Phase at hphase
  simp only [step, futureStep] at hs
  cases hf : s.future with
  | unpolled | pending | ready | panicked | dropped =>
    rw [hf] at hs
    cases hs
  | start w =>
    rw [hf] at hs hphase
    obtain ⟨hroot, hnone⟩ := hphase
    have h0 : s.pieces[0]? = some ⟨l.start, l.stop, .root⟩ := by rw [hroot, List.getElem?_cons_zero]
    simp only [h0] at hs
    split at hs
    -- The poll retires the root itself.
    · cases hs
      have hpieces : s.pieces.set 0 ⟨l.start, l.stop, .retire⟩ = [⟨l.start, l.stop, .retire⟩] := by
        rw [hroot]
        rfl
      refine inv_root .retire h hroot hnone (.inl rfl) ?_ ?_ (by simp [State.put])
        (by simp [State.put])
      · simp [State.put, hpieces]
      · exact ⟨hnone, _, hpieces, rfl⟩
    · rename_i hrun
      cases hs
      exact inv_leave h rfl ⟨hroot, hnone, by omega⟩ (by simp) (by simp) (by simp)
  | retireRoot =>
    rw [hf] at hs hphase
    obtain ⟨hnone, p, hp, -⟩ := hphase
    have h0 : s.pieces[0]? = some p := by rw [hp, List.getElem?_cons_zero]
    simp only [h0] at hs
    split at hs
    · rename_i hgone
      cases hs
      -- The root was the only piece, and it is gone.
      have hall : ∀ q ∈ s.pieces, q.pc = .gone := by
        intro q hq
        rw [hp, List.mem_singleton] at hq
        rw [hq, hgone]
      refine ⟨?_, ⟨?_, ?_⟩, ?_, ?_⟩
      · exact h.counted.congr rfl rfl rfl rfl
      · exact (h.counted.all_gone hall).2
      · intro q hq
        rw [hall q hq]
        simp
      · refine h.panics.fresh hnone ?_ rfl rfl rfl rfl
        intro q hq
        rw [Piece.payload, hall q hq]
      · exact h.wakes.idle (fun q hq _ => hq) rfl (by simp) (by simp)
    · cases hs
  | submit w =>
    rw [hf] at hs hphase
    obtain ⟨hroot, hnone, hlt⟩ := hphase
    have h0 : s.pieces[0]? = some ⟨l.start, l.stop, .root⟩ := by rw [hroot, List.getElem?_cons_zero]
    simp only [h0] at hs
    cases hs
    have hpieces : s.pieces.set 0 ⟨l.start, l.stop, .queued⟩ = [⟨l.start, l.stop, .queued⟩] := by
      rw [hroot]
      rfl
    refine inv_root .queued h hroot hnone (.inr ⟨rfl, hlt⟩) ?_ ?_ (by simp [State.put])
      (by simp [State.put])
    · simp [State.put, hpieces]
    · intro p hp
      have hp : p ∈ s.pieces.set 0 ⟨l.start, l.stop, .queued⟩ := hp
      rw [hpieces, List.mem_singleton] at hp
      rw [hp]
      simp
  | load w =>
    rw [hf] at hs hphase
    by_cases hfin : s.finished = true
    · simp only [if_pos hfin] at hs
      cases hs
      exact inv_leave h rfl ⟨hfin, hphase⟩ (by simp) (by simp) (by simp)
    · simp only [if_neg hfin] at hs
      cases hs
      exact inv_leave h rfl hphase (by simp) (by simp) (by simp)
  -- The caller's own waker is parked, for the poll that is going on.
  | park w =>
    rw [hf] at hs hphase
    cases hs
    refine inv_turn h rfl hphase (by simp) ⟨h.wakes.taking, ?_, by simp⟩
    intro w' hw'
    cases hw'
    exact fun _ => rfl
  | reload w =>
    rw [hf] at hs hphase
    by_cases hfin : s.finished = true
    · simp only [if_pos hfin] at hs
      cases hs
      exact inv_leave h rfl ⟨hfin, hphase⟩ (by simp) (by simp) (by simp)
    · simp only [if_neg hfin] at hs
      cases hs
      -- The flag was clear after the waker was parked: whoever sets it takes the waker.
      refine inv_turn h rfl hphase (by simp) ⟨h.wakes.taking, by simp, ?_⟩
      intro w' hw'
      cases hw'
      have hclear : s.finished = false := by simpa using hfin
      exact .inl ⟨h.wakes.reload w hf hclear, .inl hclear⟩
  -- The payload, if there is one, is thrown here, and nothing else is left to do.
  | resume =>
    rw [hf] at hs hphase
    obtain ⟨hfin, hroots⟩ := hphase
    cases hpanic : s.panic with
    | some payload =>
      rw [hpanic] at hs
      cases hs
      refine ⟨h.counted.congr rfl rfl rfl rfl, ⟨hfin, hroots⟩,
        ⟨by simp, h.panics.carried, by simp, fun _ => hfin, by simp⟩, ?_⟩
      exact h.wakes.idle (fun p hp _ => hp) rfl (by simp) (by simp)
    | none =>
      rw [hpanic] at hs
      cases hs
      refine ⟨h.counted.congr rfl rfl rfl rfl, ⟨hfin, hroots⟩,
        ⟨by simp, h.panics.carried, by simp, fun _ => hfin, by simp⟩, ?_⟩
      exact h.wakes.idle (fun p hp _ => hp) rfl (by simp) (by simp)

/-- Every step keeps the invariant. -/
theorem inv_step {l : Loop} {s s' : State} {a : Action} (h : Inv l s)
    (hs : step l s a = some s') : Inv l s' := by
  cases a with
  | poll w => exact inv_poll h hs
  | future => exact inv_future h hs
  | dropFuture => exact inv_dropFuture h hs
  | cancel => exact inv_cancel h hs
  | piece i event =>
    obtain ⟨p, p', extra, hi, hm⟩ := h.counted.moved hs
    exact ⟨counted_moved h.counted hi hm, phase_moved h.phase hi hs hm hm.effect.finished,
      panics_moved h.counted h.phase h.panics hi hm, wakes_moved h.wakes hi hm⟩

/-- The invariant holds in every state reached. -/
theorem inv_of_reachable {l : Loop} {s : State} (hr : (system l).Reachable s) : Inv l s := by
  refine hr.invariant ?_ ?_
  · intro s hs
    rw [hs]
    exact inv_new l
  · intro s a s' h hn
    exact inv_step h hn

/-! ### An undisturbed run -/

/-- What a poll does to the pieces: it moves the root, or nothing. -/
theorem futureStep_cases {l : Loop} {s s' : State} (hs : step l s .future = some s') :
    s'.cancelled = s.cancelled ∧ s'.ran = s.ran ∧ s'.outstanding = s.outstanding ∧
      s'.finished = s.finished ∧
      (s'.pieces = s.pieces ∨ ∃ w root, s.pieces[0]? = some root ∧
        (s.future = .start w ∧ (l.stop ≤ l.start ∨ s.cancelled = true) ∧
            s'.pieces = s.pieces.set 0 { root with pc := .retire } ∨
          s.future = .submit w ∧ s'.pieces = s.pieces.set 0 { root with pc := .queued })) := by
  simp only [step, futureStep] at hs
  cases hf : s.future with
  | unpolled | pending | ready | panicked | dropped =>
    rw [hf] at hs
    cases hs
  | start w =>
    simp only [hf] at hs
    -- The poll retires the root when the range is empty or the switch is thrown.
    split at hs
    · rename_i hearly
      split at hs
      · rename_i root h0
        cases hs
        exact ⟨rfl, rfl, rfl, rfl, .inr ⟨w, root, h0, .inl ⟨rfl, hearly, rfl⟩⟩⟩
      · cases hs
    · cases hs
      exact ⟨rfl, rfl, rfl, rfl, .inl rfl⟩
  | retireRoot =>
    simp only [hf] at hs
    split at hs
    · split at hs
      · cases hs
        exact ⟨rfl, rfl, rfl, rfl, .inl rfl⟩
      · cases hs
    · cases hs
  | submit w =>
    simp only [hf] at hs
    split at hs
    · rename_i root h0
      cases hs
      exact ⟨rfl, rfl, rfl, rfl, .inr ⟨w, root, h0, .inr ⟨rfl, rfl⟩⟩⟩
    · cases hs
  | load | park | reload =>
    simp only [hf] at hs
    cases hs
    exact ⟨rfl, rfl, rfl, rfl, .inl rfl⟩
  | resume =>
    simp only [hf] at hs
    split at hs <;> cases hs <;> exact ⟨rfl, rfl, rfl, rfl, .inl rfl⟩

/-- A step that is not one of a piece leaves the count, the flag and the calls. -/
theorem step_frame {l : Loop} {s s' : State} {a : Action} (ha : ∀ i event, a ≠ .piece i event)
    (hs : step l s a = some s') :
    s'.outstanding = s.outstanding ∧ s'.finished = s.finished ∧ s'.ran = s.ran ∧
      (a = .future ∨ s'.pieces = s.pieces) := by
  cases a with
  | piece i event => exact absurd rfl (ha i event)
  | future =>
    obtain ⟨-, hran, hout, hfin, -⟩ := futureStep_cases hs
    exact ⟨hout, hfin, hran, .inl rfl⟩
  | cancel =>
    cases hs
    exact ⟨rfl, rfl, rfl, .inr rfl⟩
  | poll | dropFuture =>
    simp only [step] at hs
    split at hs <;> cases hs <;> exact ⟨rfl, rfl, rfl, .inr rfl⟩

/-- What the pieces are after a step of a poll. -/
theorem Inv.root_moves {l : Loop} {s s' : State} (h : Inv l s)
    (hs : step l s .future = some s') :
    s'.pieces = s.pieces ∨ s.pieces = [⟨l.start, l.stop, .root⟩] ∧
      (s'.pieces = [⟨l.start, l.stop, .retire⟩] ∧ (l.stop ≤ l.start ∨ s.cancelled = true) ∨
        s'.pieces = [⟨l.start, l.stop, .queued⟩]) := by
  obtain ⟨-, -, -, -, hsame | ⟨w, root, h0, hmove⟩⟩ := futureStep_cases hs
  · exact .inl hsame
  · have hphase := h.phase
    unfold Phase at hphase
    rcases hmove with ⟨hf, hearly, hpieces⟩ | ⟨hf, hpieces⟩
    · rw [hf] at hphase
      rw [hphase.1] at h0 hpieces
      cases h0
      exact .inr ⟨hphase.1, .inl ⟨hpieces, hearly⟩⟩
    · rw [hf] at hphase
      rw [hphase.1] at h0 hpieces
      cases h0
      exact .inr ⟨hphase.1, .inr hpieces⟩

/-- The switch is not thrown, the future is not dropped, the pool takes and runs its closures, and
no body panics. -/
def Undisturbed (_ : State) (a : Action) (_ : State) : Prop :=
  match a with
  | .cancel | .dropFuture => False
  | .piece _ event => event.calm = true
  | _ => True

/-- In an undisturbed run every index of the range was run or is owed. -/
structure Calm (l : Loop) (s : State) : Prop where
  cancelled : s.cancelled = false
  disturbed : ∀ p ∈ s.pieces, p.disturbed = false
  owes : ∀ k, s.ran.count k + tally (Piece.owes k) s.pieces = l.calls k

/-- A step that leaves the switch, the pieces and the calls. -/
theorem Calm.congr {l : Loop} {s s' : State} (h : Calm l s)
    (hcancelled : s'.cancelled = s.cancelled) (hpieces : s'.pieces = s.pieces)
    (hran : s'.ran = s.ran) : Calm l s' := by
  refine ⟨?_, ?_, ?_⟩
  · rw [hcancelled, h.cancelled]
  · rw [hpieces]
    exact h.disturbed
  · rw [hran, hpieces]
    exact h.owes

/-- The first poll moves the root, and the root owes what it owed. -/
theorem calm_future {l : Loop} {s s' : State} (hinv : Inv l s) (h : Calm l s)
    (hs : step l s .future = some s') : Calm l s' := by
  obtain ⟨hcancelled, hran, -⟩ := futureStep_cases hs
  rcases hinv.root_moves hs with hsame | ⟨hroot, ⟨hpieces, hearly⟩ | hpieces⟩
  · exact h.congr hcancelled hsame hran
  · -- The range is empty: nobody owes anything.
    have hempty : l.stop ≤ l.start := by
      rcases hearly with hempty | hthrown
      · exact hempty
      · rw [h.cancelled] at hthrown
        cases hthrown
    refine ⟨by rw [hcancelled, h.cancelled], ?_, ?_⟩
    · intro p hp
      rw [hpieces, List.mem_singleton] at hp
      rw [hp]
      rfl
    · intro k
      have howes := h.owes k
      have hnone : l.calls k = 0 := if_neg (by omega)
      rw [hran, hpieces]
      rw [hnone] at howes ⊢
      show s.ran.count k + 0 = 0
      omega
  · refine ⟨by rw [hcancelled, h.cancelled], ?_, ?_⟩
    · intro p hp
      rw [hpieces, List.mem_singleton] at hp
      rw [hp]
      rfl
    · intro k
      have howes := h.owes k
      rw [hroot] at howes
      rw [hran, hpieces]
      exact howes

/-- An undisturbed step keeps every index. -/
theorem calm_step {l : Loop} {s s' : State} {a : Action} (hinv : Inv l s) (h : Calm l s)
    (hs : step l s a = some s') (hok : Undisturbed s a s') : Calm l s' := by
  cases a with
  | dropFuture | cancel => exact hok.elim
  | future => exact calm_future hinv h hs
  | poll w =>
    simp only [step] at hs
    split at hs <;> cases hs <;> exact h.congr rfl rfl rfl
  | piece i event =>
    obtain ⟨p, p', extra, hi, hm⟩ := hinv.counted.moved hs
    obtain ⟨hdisturbed, hcancelled, howes⟩ :=
      hm.calm hok (h.disturbed p (List.mem_of_getElem? hi)) h.cancelled
    refine ⟨hcancelled, ?_, ?_⟩
    · intro q hq
      rcases hm.mem_cases hi hq with rfl | hq | hq
      · exact hdisturbed
      · exact h.disturbed q hq
      · exact (Piece.of_fresh (hm.fresh q hq)).2.2.2.2
    · intro k
      have hsum := hm.tally hi (Piece.owes k)
      have hmoved := howes k
      have hold := h.owes k
      omega

/-- An undisturbed run loses no index. -/
theorem calm_of_reach {l : Loop} {s : State} (hr : (system l).Reach Undisturbed s) :
    Inv l s ∧ Calm l s := by
  refine hr.invariant (P := fun s => Inv l s ∧ Calm l s) ?_ ?_
  · intro s hs
    rw [hs]
    refine ⟨inv_new l, rfl, ?_, ?_⟩
    · intro p hp
      rw [List.mem_singleton.mp hp]
      rfl
    · intro k
      show 0 + (l.calls k + 0) = l.calls k
      omega
  · intro s a s' ⟨hinv, h⟩ hn hok
    exact ⟨inv_step hinv hn, calm_step hinv h hn hok⟩

/-! ### The end of a run -/

/-- A piece that is not gone can move, whatever the others do. -/
theorem piece_moves {l : Loop} {s : State} {i : Nat} {p : Piece} (hi : s.pieces[i]? = some p)
    (hroot : p.pc ≠ .root) (hgone : p.pc ≠ .gone) :
    ∃ event, event.calm = true ∧ step l s (.piece i event) ≠ none := by
  simp only [step, hi]
  obtain ⟨start, stop, pc⟩ := p
  cases pc with
  | root => exact absurd rfl hroot
  | gone => exact absurd rfl hgone
  | queued => exact ⟨.run true, rfl, by simp [pieceStep]⟩
  | body index => exact ⟨.returns none, rfl, by simp [pieceStep]⟩
  | split | loop | takeWaiter =>
    refine ⟨.advance, rfl, ?_⟩
    simp only [pieceStep]
    split <;> simp
  | _ => exact ⟨.advance, rfl, by simp [pieceStep]⟩

/-- Neither the poll nor a piece can move. -/
def Still (l : Loop) (s : State) : Prop :=
  step l s .future = none ∧ ∀ i event, event.calm = true → step l s (.piece i event) = none

/-- When nothing can move after the first poll, every piece is gone. -/
theorem Inv.still {l : Loop} {s : State} (h : Inv l s) (hpolled : 1 ≤ s.polls)
    (hstill : Still l s) : ∀ p ∈ s.pieces, p.pc = .gone := by
  obtain ⟨hfuture, hpieces⟩ := hstill
  -- Only a root stands still.
  have hgone : ∀ p ∈ s.pieces, p.pc ≠ .root → p.pc = .gone := by
    intro p hp hroot
    obtain ⟨i, hi⟩ := List.getElem?_of_mem hp
    by_contra hne
    obtain ⟨event, hcalm, hsome⟩ := piece_moves hi hroot hne
    exact hsome (hpieces i event hcalm)
  have hphase := h.phase
  unfold Phase at hphase
  simp only [step, futureStep] at hfuture
  cases hf : s.future with
  | unpolled =>
    rw [hf] at hphase
    have := hphase.2.2
    omega
  -- A poll that has begun can always go on.
  | start w =>
    simp only [hf] at hfuture hphase
    simp only [hphase.1, List.getElem?_cons_zero] at hfuture
    split at hfuture <;> cases hfuture
  | submit w =>
    simp only [hf] at hfuture hphase
    simp only [hphase.1, List.getElem?_cons_zero] at hfuture
    cases hfuture
  | retireRoot =>
    rw [hf] at hphase
    obtain ⟨-, p, hp, hretiring⟩ := hphase
    intro q hq
    refine hgone q hq ?_
    intro hroot
    rw [hp, List.mem_singleton] at hq
    rw [← hq, Piece.retiring, hroot] at hretiring
    cases hretiring
  | resume | ready | panicked =>
    rw [hf] at hphase
    exact fun p hp => hgone p hp (hphase.2 p hp)
  | load | park | reload | pending =>
    rw [hf] at hphase
    exact fun p hp => hgone p hp (hphase p hp)
  | dropped =>
    rw [hf] at hphase
    rcases hphase with ⟨-, hpolls⟩ | hroots
    · omega
    · exact fun p hp => hgone p hp (hroots p hp)

/-- A step of a piece uses up what is left. -/
theorem left_piece {l : Loop} {s s' : State} {i : Nat} {event : Event} (h : Inv l s)
    (hs : step l s (.piece i event) = some s') :
    tally Piece.left s'.pieces < tally Piece.left s.pieces := by
  obtain ⟨p, p', extra, hi, hm⟩ := h.counted.moved hs
  have hsum := hm.tally hi Piece.left
  have hleft := hm.left
  omega

/-- No step adds to what is left. -/
theorem left_step {l : Loop} {s s' : State} {a : Action} (h : Inv l s)
    (hs : step l s a = some s') : tally Piece.left s'.pieces ≤ tally Piece.left s.pieces := by
  cases a with
  | piece i event => exact Nat.le_of_lt (left_piece h hs)
  | poll | dropFuture | cancel =>
    rcases (step_frame (by simp) hs).2.2.2 with hfuture | hsame
    · cases hfuture
    · rw [hsame]
  | future =>
    rcases h.root_moves hs with hsame | ⟨hroot, ⟨hpieces, -⟩ | hpieces⟩
    · rw [hsame]
    · rw [hpieces, hroot]
      show 5 + 0 ≤ 20 * (l.stop - l.start) + 6 + 0
      omega
    · rw [hpieces, hroot]
      show 20 * (l.stop - l.start) - 3 + 0 ≤ 20 * (l.stop - l.start) + 6 + 0
      omega

/-- The pieces come to an end. Each step of a piece uses up what is left and no step adds to it.
When nothing can move after the first poll, the loop is finished. -/
def Ends (l : Loop) (s : State) : Prop :=
  (∀ i event s', step l s (.piece i event) = some s' →
    tally Piece.left s'.pieces < tally Piece.left s.pieces) ∧
  (∀ a s', step l s a = some s' → tally Piece.left s'.pieces ≤ tally Piece.left s.pieces) ∧
  (1 ≤ s.polls → Still l s → s.outstanding = 0 ∧ s.finished = true)

/-- Every loop comes to an end. -/
theorem Inv.ends {l : Loop} {s : State} (h : Inv l s) : Ends l s := by
  refine ⟨?_, ?_, ?_⟩
  · intro i event s' hs
    exact left_piece h hs
  · intro a s' hs
    exact left_step h hs
  · intro hpolled hstill
    exact h.counted.all_gone (h.still hpolled hstill)

omit [Target] in
/-- A piece that does not count has nothing to run and has caught nothing. -/
theorem Piece.of_live_zero {p : Piece} (h : p.live = 0) :
    p.size = 0 ∧ p.payload = none ∧ ∀ k, p.owes k = 0 := by
  obtain ⟨start, stop, pc⟩ := p
  cases pc with
  | storeFinished | takeWaiter | wake | gone => exact ⟨rfl, rfl, fun _ => rfl⟩
  | _ => cases h

/-- The count never leaves zero. -/
theorem Inv.stays_zero {l : Loop} {s s' : State} {a : Action} (h : Inv l s)
    (hs : step l s a = some s') (hzero : s.outstanding = 0) : s'.outstanding = 0 := by
  cases a with
  | poll | future | dropFuture | cancel =>
    obtain ⟨hout, -⟩ := step_frame (by simp) hs
    rw [hout, hzero]
  | piece i event =>
    obtain ⟨p, p', extra, hi, hm⟩ := h.counted.moved hs
    have hplive := h.counted.live_eq_zero hzero (List.mem_of_getElem? hi)
    -- A piece without indices makes no piece that counts.
    have hself := live_le_size hm.fits.1
    have hextra : Lib.tally Piece.live extra ≤ Lib.tally Piece.size extra :=
      tally_le_tally fun q hq => live_le_size (hm.fits.2 q hq)
    have hsize := hm.size
    have hlive := hm.live
    rw [(Piece.of_live_zero hplive).1] at hsize
    omega

/-- No body is called once `finished` is set, and it stays set. -/
theorem Inv.after_finished {l : Loop} {s s' : State} {a : Action} (h : Inv l s)
    (hs : step l s a = some s') (hf : s.finished = true) :
    s'.finished = true ∧ s'.ran = s.ran := by
  cases a with
  | poll | future | dropFuture | cancel =>
    obtain ⟨-, hfin, hran, -⟩ := step_frame (by simp) hs
    exact ⟨by rw [hfin, hf], hran⟩
  | piece i event =>
    obtain ⟨p, p', extra, hi, hm⟩ := h.counted.moved hs
    have hlive := h.counted.live_eq_zero (h.counted.zero_of_finished hf) (List.mem_of_getElem? hi)
    refine ⟨hm.effect.finished hf, ?_⟩
    simp only [step, hi] at hs
    exact pieceStep_ran hlive hs

/-- While the root waits for the first poll, nothing is run. -/
theorem Inv.root_waits {l : Loop} {s : State} (h : Inv l s) {p : Piece} (hp : p ∈ s.pieces)
    (hpc : p.pc = .root) : s.outstanding = 1 ∧ s.finished = false ∧ s.ran = [] := by
  -- A root is there only before it is submitted or retired, and then it is alone.
  have hroot : s.pieces = [⟨l.start, l.stop, .root⟩] := by
    have hphase := h.phase
    unfold Phase at hphase
    cases hf : s.future with
    | unpolled | start | submit =>
      rw [hf] at hphase
      exact hphase.1
    | retireRoot =>
      rw [hf] at hphase
      obtain ⟨-, q, hq, hretiring⟩ := hphase
      rw [hq, List.mem_singleton] at hp
      rw [← hp, Piece.retiring, hpc] at hretiring
      cases hretiring
    | resume | ready | panicked =>
      rw [hf] at hphase
      exact absurd hpc (hphase.2 p hp)
    | load | park | reload | pending =>
      rw [hf] at hphase
      exact absurd hpc (hphase p hp)
    | dropped =>
      rw [hf] at hphase
      rcases hphase with ⟨hroot, -⟩ | hroots
      · exact hroot
      · exact absurd hpc (hroots p hp)
  have hone : s.outstanding = 1 := by
    rw [h.counted.count, hroot]
    rfl
  refine ⟨hone, ?_, ?_⟩
  · cases hf : s.finished with
    | false => rfl
    | true =>
      rw [h.counted.zero_of_finished hf] at hone
      cases hone
  · -- The root owes every index.
    refine List.eq_nil_iff_forall_not_mem.mpr fun k hk => ?_
    have howes := h.counted.owes k
    rw [hroot] at howes
    have hcount : 0 < s.ran.count k := List.count_pos_iff.mpr hk
    have hsum : s.ran.count k + (l.calls k + 0) ≤ l.calls k := howes
    omega

/-- In an undisturbed run the count is zero only when every index was run. -/
theorem Calm.all_ran {l : Loop} {s : State} (h : Calm l s) (hc : Counted l s)
    (hzero : s.outstanding = 0) (k : Nat) : s.ran.count k = l.calls k := by
  have howes := h.owes k
  have hnone : tally (Piece.owes k) s.pieces = 0 :=
    tally_eq_zero fun p hp => (Piece.of_live_zero (hc.live_eq_zero hzero hp)).2.2 k
  omega

/-- A range that is split has a middle, and the counter has room for one more. -/
theorem Counted.splits {l : Loop} {s : State} (h : Counted l s) {p : Piece} (hp : p ∈ s.pieces)
    (hpc : p.pc = .split) (hleaf : l.leaf < p.stop - p.start) :
    p.stop ≤ usizeMax ∧ s.outstanding + 1 ≤ usizeMax ∧
      middle p.start p.stop = p.start + (p.stop - p.start) / 2 ∧
      p.start < middle p.start p.stop ∧ middle p.start p.stop < p.stop := by
  have hpos := l.leaf_pos
  have hstop := l.stop_le
  have hfits := h.fits p hp
  rw [Piece.Fits, hpc] at hfits
  obtain ⟨i, hi⟩ := List.getElem?_of_mem hp
  have hroom := h.room hi
  rw [Piece.size, Piece.live, hpc] at hroom
  have hroom : s.outstanding + max 1 (p.stop - p.start) ≤ usizeMax + 1 := hroom
  exact ⟨by omega, by omega, middle_spec (by omega) (by omega)⟩

/-- The first poll that sees the loop finished rethrows a panic that was recorded. -/
theorem Inv.rethrows {l : Loop} {s : State} (h : Inv l s) (hpanics : s.panics ≠ [])
    (hseen : s.seen = false) (hf : s.future = .resume) :
    ∃ payload s', s.panic = some payload ∧ payload ∈ s.panics ∧
      step l s .future = some s' ∧ s'.future = .panicked payload := by
  have hphase := h.phase
  rw [Phase, hf] at hphase
  have hzero := h.counted.zero_of_finished hphase.1
  have hsome : s.panic ≠ none := by
    rcases h.panics.kept hpanics hseen with hsome | ⟨p, hp, hpayload⟩
    · exact hsome
    · -- A piece that carries a payload still counts.
      exact absurd (Piece.of_live_zero (h.counted.live_eq_zero hzero hp)).2.1 hpayload
  obtain ⟨payload, hpayload⟩ := Option.ne_none_iff_exists'.mp hsome
  refine ⟨payload, { s with panic := none, future := .panicked payload, seen := true }, hpayload,
    h.panics.origin payload hpayload, ?_, rfl⟩
  rw [step, futureStep, hf]
  simp only [hpayload]

/-! ### The results -/

/-- Every index is run once, and the future is ready only afterwards. The loop is any range with
any leaf, so the width of the pool is any too. No index is run twice and none outside the range;
when the count is zero no piece runs and every index was run. A split does not overflow, and the
pieces come to an end. `finished` is set by the one piece that brought the count to zero, and no
body is called after it. The waker of a future that is pending then was woken, or is about to
be. -/
theorem runs_each_index_once {l : Loop} {s : State} (hr : (system l).Reach Undisturbed s) :
    (∀ k, s.ran.count k ≤ l.calls k) ∧
    (s.outstanding = 0 → (∀ p ∈ s.pieces, p.live = 0) ∧ ∀ k, s.ran.count k = l.calls k) ∧
    (∀ p ∈ s.pieces, p.pc = .split → l.leaf < p.stop - p.start →
      p.stop ≤ usizeMax ∧ s.outstanding + 1 ≤ usizeMax ∧
        middle p.start p.stop = p.start + (p.stop - p.start) / 2 ∧
        p.start < middle p.start p.stop ∧ middle p.start p.stop < p.stop) ∧
    Ends l s ∧
    (tally Piece.storing s.pieces + s.finished.toNat = if s.outstanding = 0 then 1 else 0) ∧
    (∀ a s', step l s a = some s' → s.finished = true → s'.finished = true ∧ s'.ran = s.ran) ∧
    (s.future = .ready → s.finished = true) ∧
    (s.finished = true → ∀ w, s.future = .pending w →
      (s.polls, w) ∈ s.woken ∨ (∃ p ∈ s.pieces, p.pc = .wake (s.polls, w)) ∨
        s.waiter = some (s.polls, w) ∧ ∃ p ∈ s.pieces, p.pc = .takeWaiter) := by
  obtain ⟨h, hcalm⟩ := calm_of_reach hr
  refine ⟨?_, ?_, ?_, h.ends, h.counted.stored, ?_, ?_, ?_⟩
  · intro k
    exact Nat.le_trans (Nat.le_add_right _ _) (h.counted.owes k)
  · intro hzero
    exact ⟨fun p hp => h.counted.live_eq_zero hzero hp, hcalm.all_ran h.counted hzero⟩
  · intro p hp hpc hleaf
    exact h.counted.splits hp hpc hleaf
  · intro a s' hs hf
    exact h.after_finished hs hf
  · intro hf
    have hphase := h.phase
    rw [Phase, hf] at hphase
    exact hphase.1
  · intro hfin w hw
    rcases h.wakes.pending w hw with ⟨hwaiter, hnext⟩ | hwaking | hwoken
    · rcases hnext with hclear | htaking
      · rw [hclear] at hfin
        cases hfin
      · exact .inr (.inr ⟨hwaiter, htaking⟩)
    · exact .inr (.inl hwaking)
    · exact .inl hwoken

/-- The accounting holds in every run, with bodies that panic, a split that panics, closures that
are dropped unrun, a pool that is gone, the switch thrown at any time and the future dropped. The
count is the number of pieces that have not retired. It does not leave zero, and `finished` is set
by the one piece that brought it there. After the first poll the pieces come to an end, and then
it is zero. While the root waits for the first poll it is one and nothing is run. No index is run
twice and no body is called after `finished`. When a body panicked, the first poll that sees
`finished` rethrows a payload that was recorded. -/
theorem accounting_survives {l : Loop} {s : State} (hr : (system l).Reachable s) :
    s.outstanding = tally Piece.live s.pieces ∧
    (∀ a s', step l s a = some s' → s.outstanding = 0 → s'.outstanding = 0) ∧
    (tally Piece.storing s.pieces + s.finished.toNat = if s.outstanding = 0 then 1 else 0) ∧
    Ends l s ∧
    (∀ p ∈ s.pieces, p.pc = .root → s.outstanding = 1 ∧ s.finished = false ∧ s.ran = []) ∧
    (∀ k, s.ran.count k ≤ l.calls k) ∧
    (s.finished = true → ∀ p ∈ s.pieces, p.live = 0) ∧
    (∀ a s', step l s a = some s' → s.finished = true → s'.finished = true ∧ s'.ran = s.ran) ∧
    (s.panics ≠ [] → s.seen = false → s.future ≠ .ready ∧
      (s.future = .resume → ∃ payload s', s.panic = some payload ∧ payload ∈ s.panics ∧
        step l s .future = some s' ∧ s'.future = .panicked payload)) := by
  have h := inv_of_reachable hr
  refine ⟨h.counted.count, ?_, h.counted.stored, h.ends, ?_, ?_, ?_, ?_, ?_⟩
  · intro a s' hs hzero
    exact h.stays_zero hs hzero
  · intro p hp hpc
    exact h.root_waits hp hpc
  · intro k
    exact Nat.le_trans (Nat.le_add_right _ _) (h.counted.owes k)
  · intro hf p hp
    exact h.counted.live_eq_zero (h.counted.zero_of_finished hf) hp
  · intro a s' hs hf
    exact h.after_finished hs hf
  · intro hpanics hseen
    refine ⟨?_, h.rethrows hpanics hseen⟩
    intro hready
    exact hpanics (h.panics.early hready hseen)

end

/-- A loop over three indices on a pool of one worker. -/
def threeItems : @Loop target64 := @parFor target64 1 0 3 (by decide) (by decide)

instance (s : State) (a : Action) (s' : State) : Decidable (Undisturbed s a s') :=
  match a with
  | .cancel | .dropFuture => inferInstanceAs (Decidable False)
  | .piece _ event => inferInstanceAs (Decidable (event.calm = true))
  | .poll _ | .future => inferInstanceAs (Decidable True)

/-- Two pieces have split off, all three ran, and the last one has set `finished`. The future is
pending. -/
theorem runs_each_index_once_pending :
    ∃ s, (@system target64 threeItems).Reach Undisturbed s ∧ s.finished = true ∧
      (∀ k, s.ran.count k = @Loop.calls target64 threeItems k) ∧
      ((s.polls, 7) ∈ s.woken ∨ (∃ p ∈ s.pieces, p.pc = .wake (s.polls, 7)) ∨
        s.waiter = some (s.polls, 7) ∧ ∃ p ∈ s.pieces, p.pc = .takeWaiter) := by
  obtain ⟨s, hr, hp⟩ := Lts.Reach.exists_of_runWhere (M := @system target64 threeItems)
    (s := @new target64 threeItems) Undisturbed
    [.poll 7, .future, .future, .piece 0 (.run true), .piece 0 .advance, .piece 0 .advance,
      .piece 0 .advance, .piece 1 (.run true), .piece 1 .advance, .future, .piece 1 .advance,
      .piece 1 .advance, .piece 2 (.run true), .piece 2 .advance, .piece 2 .advance,
      .piece 2 .advance, .piece 2 (.returns none), .piece 2 .advance, .piece 2 .advance, .future,
      .future, .piece 0 .advance, .piece 0 .advance, .piece 0 (.returns none), .piece 0 .advance,
      .piece 0 .advance, .piece 1 .advance, .piece 1 .advance, .piece 1 (.returns none),
      .piece 1 .advance, .piece 1 .advance, .piece 1 .advance]
    (fun s => s.outstanding = 0 ∧ s.finished = true ∧ s.future = .pending 7) rfl (by decide)
  simp only [decide_eq_true_eq] at hp
  obtain ⟨hzero, hfin, hpending⟩ := hp
  obtain ⟨-, hran, -, -, -, -, -, hwoken⟩ := @runs_each_index_once target64 threeItems s hr
  exact ⟨s, hr, hfin, (hran hzero).2, hwoken hfin 7 hpending⟩

/-- A body panics, the pool drops the other half, and the poll sees the loop finished. -/
theorem accounting_survives_panic :
    ∃ s, (@system target64 threeItems).Reachable s ∧ s.ran = [0] ∧ s.outstanding = 0 ∧
      s.outstanding = tally Piece.live s.pieces ∧
      ∃ payload s', s.panic = some payload ∧ payload ∈ s.panics ∧
        @step target64 threeItems s .future = some s' ∧ s'.future = .panicked payload := by
  obtain ⟨s, hr, hp⟩ := Lts.Reachable.exists_of_run (M := @system target64 threeItems)
    (s := @new target64 threeItems)
    [.poll 7, .future, .future, .piece 0 (.run true), .piece 0 .advance, .piece 0 .advance,
      .piece 0 .advance, .piece 0 .advance, .piece 0 .advance, .piece 0 (.returns (some 13)),
      .piece 0 .advance, .piece 0 .advance, .piece 0 .advance, .piece 1 .drop, .piece 1 .advance,
      .piece 1 .advance, .future]
    (fun s => s.ran = [0] ∧ s.outstanding = 0 ∧ s.panics ≠ [] ∧ s.seen = false ∧
      s.future = .resume) rfl (by decide)
  simp only [decide_eq_true_eq] at hp
  obtain ⟨hran, hzero, hpanics, hseen, hresume⟩ := hp
  obtain ⟨hcount, -, -, -, -, -, -, -, hrethrows⟩ := @accounting_survives target64 threeItems s hr
  exact ⟨s, hr, hran, hzero, hcount, (hrethrows hpanics hseen).2 hresume⟩

/-- The future is dropped before its first poll. No step after that is one of a piece, and the
count stays one. -/
theorem dropped_unpolled_counts_one :
    ∃ s, (@system target64 threeItems).Reachable s ∧ s.future = .dropped ∧
      ∀ s', ({ @system target64 threeItems with init := fun t => t = s } : Lts _ _).Reachable s' →
        s'.outstanding = 1 ∧ s'.finished = false := by
  obtain ⟨s, hr, hp⟩ := Lts.Reachable.exists_of_run (M := @system target64 threeItems)
    (s := @new target64 threeItems) [.dropFuture]
    (fun s => s.future = .dropped ∧ s.pieces = [⟨0, 3, .root⟩] ∧ s.outstanding = 1 ∧
      s.finished = false) rfl (by decide)
  simp only [decide_eq_true_eq] at hp
  refine ⟨s, hr, hp.1, fun s' hr' => ?_⟩
  have habandoned : s'.future = .dropped ∧ s'.pieces = [⟨0, 3, .root⟩] ∧ s'.outstanding = 1 ∧
      s'.finished = false := by
    refine hr'.invariant (P := fun t => t.future = .dropped ∧ t.pieces = [⟨0, 3, .root⟩] ∧
      t.outstanding = 1 ∧ t.finished = false) ?_ ?_
    · intro t ht
      rw [ht]
      exact hp
    · intro t a t' ⟨hf, hpieces, hrest⟩ hs
      have hs : @step target64 threeItems t a = some t' := hs
      cases a with
      | poll | dropFuture =>
        simp only [step, hf] at hs
        cases hs
      | future =>
        simp only [step, futureStep, hf] at hs
        cases hs
      | cancel =>
        cases hs
        exact ⟨hf, hpieces, hrest⟩
      | piece i event =>
        -- The root is the only piece, and it does not move by itself.
        simp only [step, hpieces] at hs
        cases i with
        | zero => cases event <;> cases hs
        | succ i => cases hs
  exact habandoned.2.2

end Nagoya.Par
