import Nagoya.Lib.Pool
import Nagoya.Par

/-!
# `Nagoya.Proofs.Par.Pieces`: what one step of a piece moves

A piece has weights, and a step of a piece moves them (`Moved`). `live` is what it counts for in
`outstanding`. `size` is the number of its indices, and bounds `live`: a piece is never empty, so
there are never more pieces than indices and the counter does not wrap. `owes k` says that the
index `k` is still to be run by this piece. `left` bounds the steps it and the pieces it makes can
still take.

`pieceStep_moved` says once what a step of a piece can do. The invariants of the loop are derived
from it.
-/

set_option autoImplicit false

namespace Nagoya.Par

open Nagoya.Lib

/-! ### The weights of a piece -/

/-- What the piece counts for. A half that is counted and not yet submitted counts too. -/
def Piece.live (p : Piece) : Nat :=
  match p.pc with
  | .storeFinished | .takeWaiter | .wake _ | .gone => 0
  | .submit _ => 2
  | _ => 1

/-- The number of indices of the piece. -/
def Piece.size (p : Piece) : Nat :=
  match p.pc with
  | .storeFinished | .takeWaiter | .wake _ | .gone => 0
  | .submit right => right - p.start
  | _ => max 1 (p.stop - p.start)

/-- The indices that the piece has still to run. -/
def Piece.span (p : Piece) : Nat × Nat :=
  match p.pc with
  | .root | .queued | .checkCancel | .split => (p.start, p.stop)
  | .submit right => (p.start, right)
  | .loop index => (index, p.stop)
  | .body index => (index + 1, p.stop)
  | _ => (0, 0)

/-- The piece has still to run the index `k`. -/
def Piece.owes (k : Nat) (p : Piece) : Nat :=
  if p.span.1 ≤ k ∧ k < p.span.2 then 1 else 0

/-- A piece that gives up its range owes nothing. -/
theorem owes_le {p' : Piece} (p : Piece) (h : p'.span = (0, 0)) (n k : Nat) :
    n + p'.owes k ≤ n + p.owes k := by
  have hzero : p'.owes k = 0 := by simp [Piece.owes, h]
  omega

/-- The piece brought the count to zero and is about to set `finished`. -/
def Piece.storing (p : Piece) : Nat := if p.pc = .storeFinished then 1 else 0

/-- A bound on the steps of the piece and of the pieces that it makes. -/
def Piece.left (p : Piece) : Nat :=
  match p.pc with
  | .root => 20 * (p.stop - p.start) + 6
  | .queued => 20 * (p.stop - p.start) - 3
  | .checkCancel => 20 * (p.stop - p.start) - 4
  | .split => 20 * (p.stop - p.start) - 6
  | .submit right => 20 * (right - p.start) - 8
  | .loop index => 2 * (p.stop - index) + 9
  | .body index => 2 * (p.stop - index) + 8
  | .caught _ => 8
  | .record _ => 7
  | .poolGone => 7
  | .retire => 5
  | .storeFinished => 4
  | .takeWaiter => 3
  | .wake _ => 2
  | .gone => 0

/-- Halving a range leaves each index with one half. -/
theorem owes_split {start mid stop k : Nat} (h1 : start < mid) (h2 : mid < stop) :
    ((if start ≤ k ∧ k < mid then 1 else 0) + if mid ≤ k ∧ k < stop then 1 else 0) =
      if start ≤ k ∧ k < stop then 1 else 0 := by
  split_ifs <;> omega

/-- The first index of a range, and the rest. -/
theorem owes_call {index stop k : Nat} (h : index < stop) :
    ((if index = k then 1 else 0) + if index + 1 ≤ k ∧ k < stop then 1 else 0) =
      if index ≤ k ∧ k < stop then 1 else 0 := by
  split_ifs <;> omega

/-- The pool is gone, or the body panicked. -/
def Piece.disturbed (p : Piece) : Bool :=
  match p.pc with
  | .poolGone | .caught _ | .record _ => true
  | _ => false

/-- The payload that the piece has caught and not recorded. -/
def Piece.payload (p : Piece) : Option Nat :=
  match p.pc with
  | .caught payload | .record payload => some payload
  | _ => none

/-- The piece is in `retire`, or past it. -/
def Piece.retiring (p : Piece) : Bool :=
  match p.pc with
  | .retire | .storeFinished | .takeWaiter | .wake _ | .gone => true
  | _ => false

/-- A piece that counts for one is neither storing, taking nor waking. -/
theorem Piece.of_live {p : Piece} (h : p.live = 1) :
    p.size = max 1 (p.stop - p.start) ∧ p.storing = 0 ∧ p.pc ≠ .takeWaiter ∧
      ∀ x, p.pc ≠ .wake x := by
  obtain ⟨start, stop, pc⟩ := p
  cases pc with
  | submit | storeFinished | takeWaiter | wake | gone => cases h
  | _ => exact ⟨rfl, rfl, by simp, by simp⟩

/-- The piece is new: the pool has its closure, or the closure was dropped at once. -/
def Piece.fresh (p : Piece) : Bool :=
  match p.pc with
  | .queued | .retire => true
  | _ => false

/-- A new piece has done nothing yet. -/
theorem Piece.of_fresh {p : Piece} (h : p.fresh = true) :
    p.pc ≠ .root ∧ p.pc ≠ .takeWaiter ∧ p.storing = 0 ∧ p.payload = none ∧
      p.disturbed = false := by
  obtain ⟨start, stop, pc⟩ := p
  cases pc with
  | queued | retire => exact ⟨by simp, by simp, rfl, rfl, rfl⟩
  | _ => cases h

/-- What one step of a piece does to the panics, to `finished` and to the waiter. -/
inductive Effect (s s' : State) (p p' : Piece) : Prop where
  | quiet (hpayload : p'.payload = p.payload) (htake' : p'.pc ≠ .takeWaiter)
      (htake : p.pc = .takeWaiter → s.waiter = none) (hwake : ∀ x, p.pc ≠ .wake x)
      (hpanic : s'.panic = s.panic) (hpanics : s'.panics = s.panics)
      (hfinished : s'.finished = s.finished) (hwaiter : s'.waiter = s.waiter)
      (hwoken : s'.woken = s.woken)
  /-- The body panics, or `submit_fn` does. -/
  | caught (payload : Nat) (hlive : p.live ≠ 0) (hpc : p.retiring = false)
      (hp' : p'.payload = some payload)
      (hs : s' = { s with panics := s.panics ++ [payload], pieces := s'.pieces })
  /-- The payload is recorded. -/
  | recorded (payload : Nat) (hlive : p.live ≠ 0) (hp : p.payload = some payload)
      (hp' : p'.pc = .retire)
      (hs : s' = { s with panic := s.panic.or (some payload), pieces := s'.pieces })
  /-- `finished` is set, and the waiter is taken next. -/
  | stored (hp : p.pc = .storeFinished) (hp' : p'.pc = .takeWaiter)
      (hs : s' = { s with finished := true, pieces := s'.pieces })
  /-- The waiter is taken, and woken next. -/
  | took (x : Waiter) (hx : s.waiter = some x) (hp : p.pc = .takeWaiter) (hp' : p'.pc = .wake x)
      (hs : s' = { s with waiter := none, pieces := s'.pieces })
  | woke (x : Waiter) (hp : p.pc = .wake x) (hp' : p'.pc = .gone)
      (hs : s' = { s with woken := s.woken ++ [x], pieces := s'.pieces })

/-- `finished` is never cleared. -/
theorem Effect.finished {s s' : State} {p p' : Piece} (h : Effect s s' p p')
    (hf : s.finished = true) : s'.finished = true := by
  cases h with
  | quiet _ _ _ _ _ _ hsame => rw [hsame, hf]
  | stored _ _ hs => rw [hs]
  | caught _ _ _ _ hs | recorded _ _ _ _ hs | took _ _ _ _ hs | woke _ _ _ hs =>
    rw [hs]
    exact hf

/-- The pool runs the closure and is there, and nothing panics. -/
def Event.calm : Event → Bool
  | .advance | .run true | .returns none => true
  | _ => false

section

variable [Target]

/-- The range of a piece. It is not empty, except for the root. -/
def Piece.Fits (l : Loop) (p : Piece) : Prop :=
  match p.pc with
  | .root => p.start = l.start ∧ p.stop = l.stop
  | .queued | .poolGone | .checkCancel | .split => p.start < p.stop ∧ p.stop ≤ l.stop
  | .submit right => p.start < p.stop ∧ p.stop < right ∧ right ≤ l.stop
  | .loop index => index ≤ p.stop ∧ p.stop ≤ l.stop
  | .body index => index < p.stop ∧ p.stop ≤ l.stop
  | _ => True

/-- The middle of a range that has one. Nothing overflows. -/
theorem middle_spec {start stop : Nat} (hlt : start + 1 < stop) (hstop : stop ≤ usizeMax) :
    middle start stop = start + (stop - start) / 2 ∧ start < middle start stop ∧
      middle start stop < stop := by
  have hmod := two_lt_usizeModulus
  unfold usizeMax at hstop
  have heq : middle start stop = start + (stop - start) / 2 := by
    unfold middle
    rw [usizeSub_of_le (by omega) (by omega), usizeAdd_of_lt (by omega)]
  refine ⟨heq, ?_, ?_⟩ <;> rw [heq] <;> omega

/-- What one step of a piece moves. `p'` is the piece after the step, and `extra` the piece that
it made. -/
structure Moved (l : Loop) (s s' : State) (i : Nat) (p p' : Piece) (extra : List Piece)
    (event : Event) : Prop where
  pieces : s'.pieces = s.pieces.set i p' ++ extra
  frame : s'.future = s.future ∧ s'.polls = s.polls ∧ s'.seen = s.seen
  effect : Effect s s' p p'
  retiring : p.retiring = true → p'.retiring = true ∧ extra = []
  fits : p'.Fits l ∧ ∀ q ∈ extra, q.Fits l
  fresh : ∀ q ∈ extra, q.fresh = true
  root : p'.pc ≠ .root
  live : s'.outstanding + p.live = s.outstanding + (p'.live + tally Piece.live extra)
  size : p'.size + tally Piece.size extra ≤ p.size
  left : p'.left + tally Piece.left extra < p.left
  stored : p'.storing + s'.finished.toNat + (if s.outstanding = 0 then 1 else 0) =
    p.storing + s.finished.toNat + if s'.outstanding = 0 then 1 else 0
  owes : ∀ k, s'.ran.count k + (p'.owes k + tally (Piece.owes k) extra) ≤ s.ran.count k + p.owes k
  calm : event.calm = true → p.disturbed = false → s.cancelled = false →
    p'.disturbed = false ∧ s'.cancelled = false ∧
      ∀ k, s'.ran.count k + (p'.owes k + tally (Piece.owes k) extra) = s.ran.count k + p.owes k

/-- A step that leaves the count and makes no piece. -/
theorem Moved.stay {l : Loop} {s s' : State} {i : Nat} {p p' : Piece} {event : Event}
    (hpieces : s'.pieces = s.pieces.set i p')
    (hframe : s'.future = s.future ∧ s'.polls = s.polls ∧ s'.seen = s.seen)
    (heffect : Effect s s' p p') (hretiring : p.retiring = true → p'.retiring = true)
    (hfits : p'.Fits l) (hroot : p'.pc ≠ .root) (hout : s'.outstanding = s.outstanding)
    (hfin : s'.finished = s.finished) (hlive : p'.live = p.live) (hsize : p'.size ≤ p.size)
    (hleft : p'.left < p.left) (hstoring : p'.storing = p.storing)
    (howes : ∀ k, s'.ran.count k + p'.owes k ≤ s.ran.count k + p.owes k)
    (hcalm : event.calm = true → p.disturbed = false → s.cancelled = false →
      p'.disturbed = false ∧ s'.cancelled = false ∧
        ∀ k, s'.ran.count k + p'.owes k = s.ran.count k + p.owes k) :
    Moved l s s' i p p' [] event := by
  refine ⟨by simpa using hpieces, hframe, heffect, fun hr => ⟨hretiring hr, rfl⟩, ⟨hfits, by simp⟩,
    by simp, hroot, ?_, ?_, ?_, ?_, ?_, ?_⟩
  · simp [hout, hlive]
  · simpa using hsize
  · simpa using hleft
  · rw [hstoring, hfin, hout]
  · simpa using howes
  · simpa using hcalm

/-- A piece that runs goes to its next step. Besides it the step changes the record of the calls
and the switch at most. -/
theorem Moved.quiet {l : Loop} {s s' : State} {i : Nat} {p : Piece} {pc : PiecePc} {event : Event}
    (hs : s' = { s with
      ran := s'.ran, cancelled := s'.cancelled, pieces := s.pieces.set i { p with pc } })
    (hlive : p.live = 1) (hretiring : p.retiring = false) (hlive' : Piece.live { p with pc } = 1)
    (hroot : pc ≠ .root) (hpayload : Piece.payload { p with pc } = p.payload)
    (hfits : Piece.Fits l { p with pc }) (hleft : Piece.left { p with pc } < p.left)
    (howes : ∀ k, s'.ran.count k + Piece.owes k { p with pc } ≤ s.ran.count k + p.owes k)
    (hcalm : event.calm = true → p.disturbed = false → s.cancelled = false →
      Piece.disturbed { p with pc } = false ∧ s'.cancelled = false ∧
        ∀ k, s'.ran.count k + Piece.owes k { p with pc } = s.ran.count k + p.owes k) :
    Moved l s s' i p { p with pc } [] event := by
  obtain ⟨hsize, hstoring, htake, hwake⟩ := Piece.of_live hlive
  obtain ⟨hsize', hstoring', htake', -⟩ := Piece.of_live hlive'
  refine .stay (by rw [hs]) ⟨by rw [hs], by rw [hs], by rw [hs]⟩ ?_ ?_ hfits hroot (by rw [hs])
    (by rw [hs]) (by rw [hlive', hlive]) ?_ hleft (by rw [hstoring', hstoring]) howes hcalm
  · exact .quiet hpayload htake' (fun h => absurd h htake) hwake (by rw [hs]) (by rw [hs])
      (by rw [hs]) (by rw [hs]) (by rw [hs])
  · intro h
    rw [hretiring] at h
    cases h
  · rw [hsize', hsize]

/-- A step that keeps every index: it is run now, or it is still owed. -/
theorem Moved.keep {l : Loop} {s s' : State} {i : Nat} {p : Piece} {pc : PiecePc} {event : Event}
    (hs : s' = { s with ran := s'.ran, pieces := s.pieces.set i { p with pc } })
    (hlive : p.live = 1) (hretiring : p.retiring = false) (hlive' : Piece.live { p with pc } = 1)
    (hroot : pc ≠ .root) (hpayload : Piece.payload { p with pc } = p.payload)
    (hcalm : Piece.disturbed { p with pc } = false) (hfits : Piece.Fits l { p with pc })
    (hleft : Piece.left { p with pc } < p.left)
    (howes : ∀ k, s'.ran.count k + Piece.owes k { p with pc } = s.ran.count k + p.owes k) :
    Moved l s s' i p { p with pc } [] event := by
  have hcancelled : s'.cancelled = s.cancelled := by rw [hs]
  refine .quiet ?_ hlive hretiring hlive' hroot hpayload hfits hleft
    (fun k => Nat.le_of_eq (howes k)) ?_
  · rw [hcancelled]
    exact hs
  · intro _ _ hc
    exact ⟨hcalm, by rw [hcancelled, hc], howes⟩

/-- A step that gives the rest of the range up. A calm one is not of this kind. -/
theorem Moved.giveUp {l : Loop} {s s' : State} {i : Nat} {p : Piece} {pc : PiecePc}
    {event : Event}
    (hs : s' = { s with cancelled := s'.cancelled, pieces := s.pieces.set i { p with pc } })
    (hlive : p.live = 1) (hretiring : p.retiring = false) (hlive' : Piece.live { p with pc } = 1)
    (hroot : pc ≠ .root) (hpayload : Piece.payload { p with pc } = p.payload)
    (hfits : Piece.Fits l { p with pc }) (hleft : Piece.left { p with pc } < p.left)
    (hspan : Piece.span { p with pc } = (0, 0))
    (hrough : event.calm = true → p.disturbed = false → s.cancelled = false → False) :
    Moved l s s' i p { p with pc } [] event := by
  have hran : s'.ran = s.ran := by rw [hs]
  refine .quiet ?_ hlive hretiring hlive' hroot hpayload hfits hleft ?_ ?_
  · rw [hran]
    exact hs
  · intro k
    rw [hran]
    exact owes_le p hspan _ k
  · intro he hd hc
    exact (hrough he hd hc).elim

/-! ### The steps of a piece -/

/-- `run` of a closure, on a pool that is there or gone. -/
theorem run_moved {l : Loop} {s : State} {i start stop : Nat} {alive : Bool} (hlt : start < stop)
    (hle : stop ≤ l.stop) :
    Moved l s (s.put i ⟨start, stop, if alive then .checkCancel else .poolGone⟩) i
      ⟨start, stop, .queued⟩ ⟨start, stop, if alive then .checkCancel else .poolGone⟩ []
      (.run alive) := by
  cases alive with
  | true =>
    refine .keep rfl rfl rfl rfl (by simp) rfl rfl ⟨hlt, hle⟩ ?_ fun _ => rfl
    show 20 * (stop - start) - 4 < 20 * (stop - start) - 3
    omega
  | false =>
    refine .giveUp rfl rfl rfl rfl (by simp) rfl ⟨hlt, hle⟩ ?_ rfl ?_
    · show 7 < 20 * (stop - start) - 3
      omega
    · intro hcalm
      cases hcalm

/-- `cancel.is_cancelled()` at the entry of `work`. -/
theorem checkCancel_moved {l : Loop} {s : State} {i start stop : Nat} (hlt : start < stop)
    (hle : stop ≤ l.stop) :
    Moved l s (s.put i ⟨start, stop, if s.cancelled then .retire else .split⟩) i
      ⟨start, stop, .checkCancel⟩ ⟨start, stop, if s.cancelled then .retire else .split⟩ []
      .advance := by
  cases hcancel : s.cancelled with
  | true =>
    refine .giveUp rfl rfl rfl rfl (by simp) rfl trivial ?_ rfl ?_
    · show 5 < 20 * (stop - start) - 4
      omega
    · intro _ _ hc
      rw [hcancel] at hc
      cases hc
  | false =>
    refine .keep rfl rfl rfl rfl (by simp) rfl rfl ⟨hlt, hle⟩ ?_ fun _ => rfl
    show 20 * (stop - start) - 6 < 20 * (stop - start) - 4
    omega

/-- The right half is counted. The counter does not wrap, because the range has two indices. -/
theorem split_moved {l : Loop} {s : State} {i start stop : Nat} (hlt : start + 1 < stop)
    (hle : stop ≤ l.stop) (hpos : 1 ≤ s.outstanding)
    (hroom : s.outstanding + max 1 (stop - start) ≤ usizeMax + 1) :
    Moved l s ({ s with outstanding := usizeAdd s.outstanding 1 }.put i
        ⟨start, middle start stop, .submit stop⟩) i
      ⟨start, stop, .split⟩ ⟨start, middle start stop, .submit stop⟩ [] .advance := by
  -- The middle lies strictly inside the range, so both halves are smaller.
  obtain ⟨-, hm1, hm2⟩ := middle_spec hlt (Nat.le_trans hle l.stop_le)
  have hadd : usizeAdd s.outstanding 1 = s.outstanding + 1 := by
    refine usizeAdd_of_lt ?_
    have := two_lt_usizeModulus
    unfold usizeMax at hroom
    omega
  refine ⟨by simp [State.put], ⟨rfl, rfl, rfl⟩,
    .quiet rfl (by simp) (by simp) (by simp) rfl rfl rfl rfl rfl, by simp [Piece.retiring],
    ⟨⟨hm1, hm2, hle⟩, by simp⟩, by simp, by simp, ?_, ?_, ?_, ?_, fun _ => Nat.le_refl _,
    fun _ _ hc => ⟨rfl, hc, fun _ => rfl⟩⟩
  · show usizeAdd s.outstanding 1 + 1 = s.outstanding + (2 + 0)
    rw [hadd]
  · show stop - start + 0 ≤ max 1 (stop - start)
    omega
  · show 20 * (stop - start) - 8 + 0 < 20 * (stop - start) - 6
    omega
  · show 0 + s.finished.toNat + (if s.outstanding = 0 then 1 else 0) =
      0 + s.finished.toNat + if usizeAdd s.outstanding 1 = 0 then 1 else 0
    rw [hadd, if_neg (by omega), if_neg (by omega)]

/-- `submit_fn`: the right half is a piece of its own. -/
theorem submit_moved {l : Loop} {s : State} {i start stop right : Nat} (hlt : start < stop)
    (hright : stop < right) (hle : right ≤ l.stop) :
    Moved l s { s.put i ⟨start, stop, .split⟩ with
        pieces := (s.put i ⟨start, stop, .split⟩).pieces ++ [⟨stop, right, .queued⟩] } i
      ⟨start, stop, .submit right⟩ ⟨start, stop, .split⟩ [⟨stop, right, .queued⟩] .advance := by
  -- The two halves owe between them what the range owed.
  have howes : ∀ k, Piece.owes k ⟨start, stop, .split⟩ +
      tally (Piece.owes k) [⟨stop, right, .queued⟩] =
        Piece.owes k ⟨start, stop, .submit right⟩ := by
    intro k
    exact owes_split hlt hright
  refine ⟨rfl, ⟨rfl, rfl, rfl⟩, .quiet rfl (by simp) (by simp) (by simp) rfl rfl rfl rfl rfl,
    by simp [Piece.retiring], ⟨⟨hlt, Nat.le_trans (Nat.le_of_lt hright) hle⟩, ?_⟩,
    by simp [Piece.fresh], by simp, rfl, ?_, ?_, rfl, ?_, ?_⟩
  · intro q hq
    rw [List.mem_singleton.mp hq]
    exact ⟨hright, hle⟩
  · show max 1 (stop - start) + (max 1 (right - stop) + 0) ≤ right - start
    omega
  · show 20 * (stop - start) - 6 + (20 * (right - stop) - 3 + 0) < 20 * (right - start) - 8
    omega
  · intro k
    rw [howes k]
    exact Nat.le_refl _
  · intro _ _ hc
    refine ⟨rfl, hc, fun k => ?_⟩
    rw [howes k]
    rfl

/-- `submit_fn` panics. The half was counted, and it retires like any other piece. -/
theorem submitPanics_moved {l : Loop} {s : State} {i start stop right payload : Nat}
    (hlt : start < stop) (hright : stop < right) :
    Moved l s { { s with panics := s.panics ++ [payload] }.put i ⟨start, stop, .caught payload⟩ with
        pieces := s.pieces.set i ⟨start, stop, .caught payload⟩ ++ [⟨stop, right, .retire⟩] } i
      ⟨start, stop, .submit right⟩ ⟨start, stop, .caught payload⟩ [⟨stop, right, .retire⟩]
      (.returns (some payload)) := by
  refine ⟨rfl, ⟨rfl, rfl, rfl⟩, .caught payload (by simp [Piece.live]) rfl rfl rfl,
    by simp [Piece.retiring], ⟨trivial, ?_⟩, by simp [Piece.fresh], by simp, rfl, ?_, ?_, rfl,
    ?_, ?_⟩
  · intro q hq
    -- The half whose closure was dropped runs nothing and only has to retire.
    rw [List.mem_singleton.mp hq]
    trivial
  · show max 1 (stop - start) + (max 1 (right - stop) + 0) ≤ right - start
    omega
  · show 8 + (5 + 0) < 20 * (right - start) - 8
    omega
  · intro k
    show s.ran.count k + (0 + (0 + 0)) ≤ _
    omega
  · intro hcalm
    cases hcalm

/-- The body is called with an index that this piece owed. -/
theorem call_moved {l : Loop} {s : State} {i start stop index : Nat} (hlt : index < stop)
    (hle : stop ≤ l.stop) :
    Moved l s ({ s with ran := s.ran ++ [index] }.put i ⟨start, stop, .body index⟩) i
      ⟨start, stop, .loop index⟩ ⟨start, stop, .body index⟩ [] .advance := by
  refine .keep rfl rfl rfl rfl (by simp) rfl rfl ⟨hlt, hle⟩ ?_ ?_
  · show 2 * (stop - index) + 8 < 2 * (stop - index) + 9
    omega
  · intro k
    show (s.ran ++ [index]).count k + _ = _
    rw [List.count_append, List.count_singleton, Nat.add_assoc]
    simp only [beq_iff_eq]
    exact congrArg _ (owes_call hlt)

/-- The range is used up. -/
theorem done_moved {l : Loop} {s : State} {i start stop index : Nat} (hge : stop ≤ index) :
    Moved l s (s.put i ⟨start, stop, .retire⟩) i
      ⟨start, stop, .loop index⟩ ⟨start, stop, .retire⟩ [] .advance := by
  refine .keep rfl rfl rfl rfl (by simp) rfl rfl trivial ?_ ?_
  · show 5 < 2 * (stop - index) + 9
    omega
  · intro k
    have hnone : Piece.owes k ⟨start, stop, .loop index⟩ = 0 := by
      refine if_neg fun hk => ?_
      have hk : index ≤ k ∧ k < stop := hk
      omega
    rw [hnone]
    rfl

/-- `retire`. The last piece goes on to set `finished`. -/
theorem retire_moved {l : Loop} {s : State} {i start stop : Nat} (hpos : 1 ≤ s.outstanding)
    (hroom : s.outstanding + max 1 (stop - start) ≤ usizeMax + 1) :
    Moved l s ({ s with outstanding := usizeSub s.outstanding 1 }.put i
        ⟨start, stop, if s.outstanding ≠ 1 then .gone else .storeFinished⟩) i
      ⟨start, stop, .retire⟩ ⟨start, stop, if s.outstanding ≠ 1 then .gone else .storeFinished⟩ []
      .advance := by
  have hsub : usizeSub s.outstanding 1 = s.outstanding - 1 := by
    refine usizeSub_of_le hpos ?_
    have := two_lt_usizeModulus
    unfold usizeMax at hroom
    omega
  -- The last piece has `finished` to store. Any other is done.
  by_cases hone : s.outstanding = 1
  · rw [if_neg (by simpa using hone)]
    refine ⟨by simp [State.put], ⟨rfl, rfl, rfl⟩,
      .quiet rfl (by simp) (by simp) (by simp) rfl rfl rfl rfl rfl, fun _ => ⟨rfl, rfl⟩,
      ⟨trivial, by simp⟩, by simp, by simp, ?_, Nat.zero_le _, by simp [Piece.left], ?_,
      fun _ => Nat.le_refl _, fun _ _ hc => ⟨rfl, hc, fun _ => rfl⟩⟩
    · show usizeSub s.outstanding 1 + 1 = s.outstanding + (0 + 0)
      rw [hsub]
      omega
    · show 1 + s.finished.toNat + (if s.outstanding = 0 then 1 else 0) =
        0 + s.finished.toNat + if usizeSub s.outstanding 1 = 0 then 1 else 0
      rw [hsub, if_neg (by omega), if_pos (by omega)]
      omega
  · rw [if_pos hone]
    refine ⟨by simp [State.put], ⟨rfl, rfl, rfl⟩,
      .quiet rfl (by simp) (by simp) (by simp) rfl rfl rfl rfl rfl, fun _ => ⟨rfl, rfl⟩,
      ⟨trivial, by simp⟩, by simp, by simp, ?_, Nat.zero_le _, by simp [Piece.left], ?_,
      fun _ => Nat.le_refl _, fun _ _ hc => ⟨rfl, hc, fun _ => rfl⟩⟩
    · show usizeSub s.outstanding 1 + 1 = s.outstanding + (0 + 0)
      rw [hsub]
      omega
    · show 0 + s.finished.toNat + (if s.outstanding = 0 then 1 else 0) =
        0 + s.finished.toNat + if usizeSub s.outstanding 1 = 0 then 1 else 0
      rw [hsub, if_neg (by omega), if_neg (by omega)]

/-- `finished.store(true)`, by the first to do it. -/
theorem storeFinished_moved {l : Loop} {s : State} {i start stop : Nat}
    (hfirst : s.finished = false) :
    Moved l s ({ s with finished := true }.put i ⟨start, stop, .takeWaiter⟩) i
      ⟨start, stop, .storeFinished⟩ ⟨start, stop, .takeWaiter⟩ [] .advance := by
  refine ⟨by simp [State.put], ⟨rfl, rfl, rfl⟩, .stored rfl rfl rfl, fun _ => ⟨rfl, rfl⟩,
    ⟨trivial, by simp⟩, by simp, by simp, rfl, Nat.le_refl _, by simp [Piece.left], ?_,
    fun _ => Nat.le_refl _, fun _ _ hc => ⟨rfl, hc, fun _ => rfl⟩⟩
  show 0 + 1 + _ = 1 + s.finished.toNat + _
  rw [hfirst]
  rfl

/-- A step of a piece, by what it moves. The counter has room for the indices of the piece, and a
piece that is about to set `finished` is the first. -/
theorem pieceStep_moved {l : Loop} {s s' : State} {i : Nat} {p : Piece} {event : Event}
    (hfits : p.Fits l) (hcount : p.live ≤ s.outstanding)
    (hroom : s.outstanding + p.size ≤ usizeMax + p.live)
    (hfirst : p.pc = .storeFinished → s.finished = false)
    (hs : pieceStep l s i p event = some s') :
    ∃ p' extra, Moved l s s' i p p' extra event := by
  have hleaf := l.leaf_pos
  obtain ⟨start, stop, pc⟩ := p
  cases event with
  | run alive =>
    cases pc <;> cases hs
    exact ⟨_, [], run_moved hfits.1 hfits.2⟩
  | drop =>
    cases pc <;> cases hs
    obtain ⟨hlt, hle⟩ : start < stop ∧ stop ≤ l.stop := hfits
    -- What is dropped unrun gives its range up and retires.
    refine ⟨_, [], .giveUp rfl rfl rfl rfl (by simp) rfl trivial ?_ rfl ?_⟩
    · show 5 < 20 * (stop - start) - 3
      omega
    · intro hcalm
      cases hcalm
  | returns panic =>
    cases pc with
    | submit right =>
      cases panic <;> cases hs
      exact ⟨_, _, submitPanics_moved hfits.1 hfits.2.1⟩
    | body index =>
      obtain ⟨hlt, hle⟩ : index < stop ∧ stop ≤ l.stop := hfits
      cases panic with
      | none =>
        cases hs
        refine ⟨_, [], .keep rfl rfl rfl rfl (by simp) rfl rfl ⟨hlt, hle⟩ ?_ fun _ => rfl⟩
        show 2 * (stop - (index + 1)) + 9 < 2 * (stop - index) + 8
        omega
      | some payload =>
        cases hs
        -- The body panicked, so the rest of the range is not run.
        refine ⟨_, [], .stay rfl ⟨rfl, rfl, rfl⟩
          (.caught payload (by simp [Piece.live]) rfl rfl rfl) (by simp [Piece.retiring]) trivial
          (by simp) rfl rfl rfl (Nat.le_refl _) ?_ rfl ?_ ?_⟩
        · show 8 < 2 * (stop - index) + 8
          omega
        · exact fun k => owes_le _ rfl _ k
        · intro hcalm
          cases hcalm
    | _ => cases hs
  | advance =>
    cases pc with
    | root | queued | body | gone => cases hs
    | poolGone =>
      cases hs
      refine ⟨_, [], .giveUp rfl rfl rfl rfl (by simp) rfl trivial (by simp [Piece.left]) rfl ?_⟩
      intro _ hd
      cases hd
    | checkCancel =>
      cases hs
      exact ⟨_, [], checkCancel_moved hfits.1 hfits.2⟩
    | split =>
      obtain ⟨hlt, hle⟩ : start < stop ∧ stop ≤ l.stop := hfits
      simp only [pieceStep] at hs
      split at hs
      · cases hs
        exact ⟨_, [], split_moved (by omega) hle hcount hroom⟩
      · cases hs
        refine ⟨_, [], .keep rfl rfl rfl rfl (by simp) rfl rfl ⟨Nat.le_of_lt hlt, hle⟩ ?_
          fun _ => rfl⟩
        show 2 * (stop - start) + 9 < 20 * (stop - start) - 6
        omega
    | submit right =>
      cases hs
      exact ⟨_, _, submit_moved hfits.1 hfits.2.1 hfits.2.2⟩
    | loop index =>
      simp only [pieceStep] at hs
      split at hs
      · rename_i hlt
        cases hs
        exact ⟨_, [], call_moved hlt hfits.2⟩
      · rename_i hge
        cases hs
        exact ⟨_, [], done_moved (Nat.le_of_not_lt hge)⟩
    | caught payload =>
      cases hs
      refine ⟨_, [], .giveUp rfl rfl rfl rfl (by simp) rfl trivial (by simp [Piece.left]) rfl ?_⟩
      intro _ hd
      cases hd
    | record payload =>
      cases hs
      -- The payload goes to the loop, if it is the first.
      refine ⟨_, [], .stay rfl ⟨rfl, rfl, rfl⟩
        (.recorded payload (by simp [Piece.live]) rfl rfl rfl) (fun _ => rfl) trivial (by simp) rfl
        rfl rfl (Nat.le_refl _) (by simp [Piece.left]) rfl (fun _ => Nat.le_refl _) ?_⟩
      intro _ hd
      cases hd
    | retire =>
      cases hs
      exact ⟨_, [], retire_moved hcount hroom⟩
    | storeFinished =>
      cases hs
      exact ⟨_, [], storeFinished_moved (hfirst rfl)⟩
    | takeWaiter =>
      simp only [pieceStep] at hs
      split at hs
      · rename_i x hx
        cases hs
        exact ⟨_, [], .stay rfl ⟨rfl, rfl, rfl⟩ (.took x hx rfl rfl rfl) (fun _ => rfl) trivial
          (by simp) rfl rfl rfl (Nat.le_refl _) (by simp [Piece.left]) rfl
          (fun _ => Nat.le_refl _) fun _ _ hc => ⟨rfl, hc, fun _ => rfl⟩⟩
      · rename_i hx
        cases hs
        exact ⟨_, [], .stay rfl ⟨rfl, rfl, rfl⟩
          (.quiet rfl (by simp) (fun _ => hx) (by simp) rfl rfl rfl rfl rfl) (fun _ => rfl) trivial
          (by simp) rfl rfl rfl (Nat.le_refl _) (by simp [Piece.left]) rfl
          (fun _ => Nat.le_refl _) fun _ _ hc => ⟨rfl, hc, fun _ => rfl⟩⟩
    | wake waiter =>
      cases hs
      exact ⟨_, [], .stay rfl ⟨rfl, rfl, rfl⟩ (.woke waiter rfl rfl rfl) (fun _ => rfl) trivial
        (by simp) rfl rfl rfl (Nat.le_refl _) (by simp [Piece.left]) rfl (fun _ => Nat.le_refl _)
        fun _ _ hc => ⟨rfl, hc, fun _ => rfl⟩⟩

/-- A piece that does not count calls no body. -/
theorem pieceStep_ran {l : Loop} {s s' : State} {i : Nat} {p : Piece} {event : Event}
    (hlive : p.live = 0) (hs : pieceStep l s i p event = some s') : s'.ran = s.ran := by
  obtain ⟨start, stop, pc⟩ := p
  cases pc with
  | storeFinished | wake =>
    cases event <;> cases hs
    rfl
  | takeWaiter =>
    cases event <;> try cases hs
    simp only [pieceStep] at hs
    split at hs <;> cases hs <;> rfl
  | gone => cases event <;> cases hs
  | _ => cases hlive

end

end Nagoya.Par
