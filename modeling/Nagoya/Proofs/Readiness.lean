import Nagoya.Readiness
import Nagoya.Proofs.Sync.Notify

/-!
# `Nagoya.Proofs.Readiness`: reasons are neither lost nor invented

The consumer is the only waiter of its `Notify`, so the queue holds the slot of one future at most.
`Holds` says that, and what the slot has. The operations of `Notify` have one lemma each over it.

A producer notifies only when the word was zero. The consumer parks after a swap that found zero,
and its slot was queued before that swap. So the first producer after the swap finds the word zero,
and until its `notify_one` grants the slot, it is in `notifying`. `Phase` says this for every point
of the loop. A grant that came too early, or from an earlier batch, only sends the consumer round.
-/

set_option autoImplicit false

namespace Nagoya

open Nagoya.Lib Nagoya.Sync NotifySystem

namespace Readiness

/-! ### A queue with one waiter -/

/-- The queue holds the slot of the registration `reg` and no other. -/
def Holds (q : WaitQueue) (reg : Option Nat) (entry : Option Entry) : Prop :=
  ∃ a, q.Repr a ∧ (∀ id, a.entry id = if reg = some id then entry else none) ∧
    (reg = none ↔ entry = none)

variable {q : WaitQueue} {reg : Option Nat} {e : Option Entry}

theorem holds_new : Holds .new none none :=
  ⟨.empty, WaitQueue.repr_new, fun _ => rfl, by simp⟩

/-- Without a registration there is no slot. -/
theorem Holds.entry_none (h : Holds q none e) : e = none := by
  obtain ⟨a, -, -, hiff⟩ := h
  exact hiff.mp rfl

/-- The registration is live. -/
theorem live_of_entry {a : AbsQueue}
    (hentry : ∀ id, a.entry id = if reg = some id then e else none) (hiff : reg = none ↔ e = none)
    (id : Nat) (hid : reg = some id) : a.entry id ≠ none := by
  rw [hentry, if_pos hid]
  intro he
  rw [hiff.mpr he] at hid
  cases hid

/-- `register` with the token of the one future. -/
theorem Holds.register (h : Holds q reg e) (waker : Option Waker) :
    ∃ q' id old, q.register reg waker = some (q', id, old) ∧
      Holds q' (some id) (some ⟨.queued, waker <|> e.bind Entry.waker⟩) := by
  obtain ⟨a, hr, hentry, hiff⟩ := h
  obtain ⟨q', id, old, hq, hid, hr', -⟩ := WaitQueue.register_spec hr
    (live_of_entry hentry hiff) waker
  have hwaker : a.waker id = e.bind Entry.waker := by
    unfold AbsQueue.waker
    rcases hid with hid | ⟨hnone, hid⟩
    · rw [hentry, if_pos hid]
    · rw [hid, hiff.mp hnone]
  refine ⟨q', id, old, hq, a.register id waker, hr', fun j => ?_, by simp⟩
  by_cases hj : j = id
  · simp [AbsQueue.register, hj, hwaker]
  · have hreg : reg ≠ some j := by
      intro hreg
      rcases hid with hid | ⟨hnone, -⟩
      · exact hj (Option.some.inj (hreg.symm.trans hid))
      · rw [hnone] at hreg
        cases hreg
    have hne : id ≠ j := fun hid => hj hid.symm
    simp [AbsQueue.register, hj, hne, hentry, hreg]

/-- `remove` with the token of the one future. -/
theorem Holds.remove (h : Holds q reg e) :
    ∃ q' removed, q.remove reg = some (q', removed) ∧ Holds q' none none := by
  obtain ⟨a, hr, hentry, hiff⟩ := h
  obtain ⟨q', removed, hq, -, hr', -⟩ :=
    WaitQueue.remove_spec hr (live_of_entry hentry hiff)
  refine ⟨q', removed, hq, a.forget reg, hr', fun j => ?_, by simp⟩
  cases reg with
  | none => simp [AbsQueue.forget, hentry]
  | some id =>
    by_cases hj : j = id
    · simp [AbsQueue.forget, AbsQueue.remove, hj]
    · have hne : id ≠ j := fun hid => hj hid.symm
      simp [AbsQueue.forget, AbsQueue.remove, hj, hne, hentry]

/-- A queued slot is the whole queue, and `grant_one` takes its waker. -/
theorem Holds.grantOne_queued {waker : Option Waker} (h : Holds q reg (some ⟨.queued, waker⟩)) :
    ∃ q', q.grantOne = some (q', some waker) ∧ Holds q' reg (some ⟨.one, none⟩) := by
  obtain ⟨a, hr, hentry, hiff⟩ := h
  obtain ⟨id, rfl⟩ : ∃ id, reg = some id := Option.ne_none_iff_exists'.mp (by simp [hiff])
  have hid : a.entry id = some ⟨.queued, waker⟩ := by rw [hentry, if_pos rfl]
  have hmem : id ∈ a.fifo := (hr.mem_fifo id).mpr (by simp [AbsQueue.kind, hid])
  -- No other id is live, so `id` is the oldest.
  obtain ⟨head, rest, hfifo⟩ := List.exists_cons_of_ne_nil (List.ne_nil_of_mem hmem)
  have hhead : head = id := by
    have hkind := (hr.mem_fifo head).mp (by simp [hfifo])
    by_contra hne
    have hne' : id ≠ head := fun h => hne h.symm
    simp [AbsQueue.kind, hentry, hne'] at hkind
  rw [hhead] at hfifo
  obtain ⟨q', hq, hr', -⟩ := WaitQueue.grantOne_cons hr hfifo
  refine ⟨q', ?_, a.grant id, hr', fun j => ?_, by simp⟩
  · rw [hq]
    simp [AbsQueue.waker, hid]
  · by_cases hj : j = id
    · simp [AbsQueue.grant, AbsQueue.grantAs, hj]
    · have hne : id ≠ j := fun h => hj h.symm
      simp [AbsQueue.grant, AbsQueue.grantAs, hj, hne, hentry]

/-- With no queued slot `grant_one` finds nobody. -/
theorem Holds.grantOne_other (h : Holds q reg e) (hkind : e.map Entry.kind ≠ some .queued) :
    q.grantOne = some (q, none) := by
  obtain ⟨a, hr, hentry, hiff⟩ := h
  refine WaitQueue.grantOne_nil hr (List.eq_nil_iff_forall_not_mem.mpr fun id hmem => ?_)
  have hqueued := (hr.mem_fifo id).mp hmem
  unfold AbsQueue.kind at hqueued
  rw [hentry] at hqueued
  split at hqueued
  · exact hkind hqueued
  · cases hqueued

/-- The slot of the registration. -/
theorem Holds.get {id : Nat} (h : Holds q (some id) e) :
    ∃ waiter, q.get id = some waiter ∧ e = some ⟨waiter.kind, waiter.waker⟩ := by
  obtain ⟨a, hr, hentry, hiff⟩ := h
  obtain ⟨en, rfl⟩ : ∃ en, e = some en :=
    Option.ne_none_iff_exists'.mp fun he => (by cases hiff.mpr he)
  obtain ⟨w, hw, hk, hwk⟩ := hr.get (show a.entry id = some en by rw [hentry, if_pos rfl])
  exact ⟨w, hw, by rw [hk, hwk]⟩

/-! ### The operations of `Notify` -/

variable {n : Notify} {f : Notified}

/-- `notify_one` grants the slot when it is queued, and stores the permit otherwise. -/
theorem grantOne_cases (h : Holds n.waiters reg e) :
    ∃ n' waker e', n.grantOne = some (n', waker) ∧ Holds n'.waiters reg e' ∧
      (e = some ⟨.queued, waker⟩ ∧ e' = some ⟨.one, none⟩ ∨
        e.map Entry.kind ≠ some .queued ∧ waker = none ∧ e' = e) := by
  by_cases hkind : e.map Entry.kind = some .queued
  · obtain ⟨⟨kind, waker⟩, rfl, hk⟩ := Option.map_eq_some_iff.mp hkind
    obtain rfl : kind = .queued := hk
    obtain ⟨q', hq, hh⟩ := h.grantOne_queued
    exact ⟨{ n with waiters := q' }, waker, _, by simp [Notify.grantOne, hq], hh, .inl ⟨rfl, rfl⟩⟩
  · have hq := h.grantOne_other hkind
    exact ⟨{ n with permit := true }, none, e, by simp [Notify.grantOne, hq], h,
      .inr ⟨hkind, rfl, rfl⟩⟩

/-- The section of `ready_or_register` finds a notification and gives the slot back, or it has
none and queues. -/
theorem lockSection_cases (h : Holds n.waiters f.registration e) (waker : Option Waker) :
    (∃ n' reserved, f.lockSection n waker =
        some (n', { f with registration := none, done := true, reservedOne := reserved }, true) ∧
      Holds n'.waiters none none) ∨
    (∃ n' id, f.lockSection n waker = some (n', { f with registration := some id }, false) ∧
      (e = none ∨ e.map Entry.kind = some .queued) ∧
      Holds n'.waiters (some id) (some ⟨.queued, waker <|> e.bind Entry.waker⟩)) := by
  obtain ⟨assigned, ha, hassigned⟩ : ∃ assigned, f.assigned n = some assigned ∧
      (assigned = none → e = none ∨ e.map Entry.kind = some .queued) := by
    unfold Notified.assigned
    cases hreg : f.registration with
    | none =>
      rw [hreg] at h
      exact ⟨none, rfl, fun _ => .inl h.entry_none⟩
    | some id =>
      rw [hreg] at h
      obtain ⟨w, hw, rfl⟩ := h.get
      by_cases hq : w.kind = .queued
      · exact ⟨none, by simp [hw, hq], fun _ => .inr (by simp [hq])⟩
      · exact ⟨some w.kind, by simp [hw, hq], fun hnone => (by cases hnone)⟩
  cases hn : f.notification n assigned with
  | mk found permit =>
    cases found with
    | some kind =>
      obtain ⟨q', removed, hq, hh⟩ := h.remove
      exact .inl ⟨{ n with permit := permit, waiters := q' }, decide (kind = .one),
        by simp [Notified.lockSection, ha, hn, hq], hh⟩
    | none =>
      obtain ⟨q', id, old, hq, hh⟩ := h.register waker
      have hnone : assigned = none := (Notified.notification_none hn).1
      exact .inr ⟨{ n with permit := permit, waiters := q' }, id,
        by simp [Notified.lockSection, ha, hn, hq], hassigned hnone, hh⟩

/-- A reserved notification is not in a slot. -/
def Sound (f : Notified) : Prop := f.reservedOne = true → f.registration = none

/-- The drop of the future gives its slot back. -/
theorem drop_cases (h : Holds n.waiters f.registration e) (hsound : Sound f) :
    ∃ n' waker, f.drop n = some (n', waker) ∧ Holds n'.waiters none none := by
  -- `grant_one` of a queue without the slot leaves it without the slot.
  have hgrant : ∀ n : Notify, ∀ e, Holds n.waiters none e →
      ∃ n' waker, n.grantOne = some (n', waker) ∧ Holds n'.waiters none none := by
    intro n e hn
    obtain ⟨n', waker, e', hg, hh, -⟩ := grantOne_cases hn
    have he' := hh.entry_none
    subst he'
    exact ⟨n', waker, hg, hh⟩
  unfold Notified.drop
  split
  · rename_i hreserved
    rw [hsound hreserved] at h
    exact hgrant n e h
  · split
    · rename_i hnone
      rw [Option.isNone_iff_eq_none.mp hnone] at h
      have he := h.entry_none
      subst he
      exact ⟨n, none, rfl, h⟩
    · obtain ⟨q', removed, hq, hh⟩ := h.remove
      rw [hq]
      dsimp only
      split
      · exact hgrant { n with waiters := q' } none hh
      · exact ⟨{ n with waiters := q' }, none, rfl, hh⟩

/-! ### The loop of `wait` -/

/-- The token of the `Notified` that `wait` has. -/
def Wait.registration : Wait → Option Nat
  | .none | .fresh | .looping => Option.none
  | .enabling f _ | .swapping f | .polling f _ | .suspended f | .repeating f | .returning f _ =>
    f.registration

/-- When there are reasons, the producer that began the batch has not run its `notify_one`. -/
def Asked (s : State) : Prop := s.reasons ≠ 0#64 → s.batches.length ∈ s.notifying

/-- What holds at each point of the loop, where `e` is the slot of the `Notified`. -/
def Phase (s : State) (e : Option Entry) : Wait → Prop
  | .none | .fresh | .looping => True
  | .enabling f pc => match pc with
    | .loadGeneration .enable | .takePermit .enable | .lock .enable =>
      f.registration = none ∧ f.reservedOne = false
    | .ready .enable => Sound f ∧ f.done = true
    | _ => False
  | .swapping f => Sound f ∧ (f.done = true ∨ f.registration ≠ none)
  | .polling f pc => Sound f ∧ match pc with
    | .ready (.poll _) => True
    | .lock (.poll waker) =>
      waker = s.waker ∧ f.registration ≠ none ∧ (e.map Entry.kind = some .queued → Asked s)
    | _ => False
  | .suspended f => Sound f ∧ f.registration ≠ none ∧
    (e = some ⟨.queued, some s.waker⟩ ∧ Asked s ∨
      e = some ⟨.one, none⟩ ∧ (s.woken = true ∨ s.waker ∈ s.wakes))
  | .repeating f | .returning f _ => Sound f

/-- The invariant. -/
structure Inv (s : State) : Prop where
  signalled : s.signalled = s.batches.flatten ++ s.since
  reasons : s.reasons = union s.since
  returned : s.returned ++ s.wait.inHand = s.batches.map union
  nonzero : ∀ m ∈ s.returned ++ s.wait.inHand, m ≠ 0#64
  phase : ∃ e, Holds s.notify.waiters s.wait.registration e ∧ Phase s e s.wait

variable {s s' : State}

/-- A step of another party that keeps what the consumer relies on. -/
theorem Phase.mono {w : Wait} (h : Phase s e w) (hwaker : s'.waker = s.waker)
    (hasked : e.map Entry.kind = some .queued → Asked s → Asked s')
    (hwoken : s.woken = true ∨ s.waker ∈ s.wakes → s'.woken = true ∨ s.waker ∈ s'.wakes) :
    Phase s' e w := by
  cases w with
  | none => trivial
  | fresh => trivial
  | looping => trivial
  | enabling f pc => exact h
  | swapping f => exact h
  | repeating f => exact h
  | returning f reasons => exact h
  | polling f pc =>
    refine ⟨h.1, ?_⟩
    have hpc := h.2
    split at hpc
    · trivial
    · exact ⟨hpc.1.trans hwaker.symm, hpc.2.1, fun hk => hasked hk (hpc.2.2 hk)⟩
    · exact hpc.elim
  | suspended f =>
    obtain ⟨hsound, hreg, ⟨he, ha⟩ | ⟨he, hw⟩⟩ := h
    · exact ⟨hsound, hreg, .inl ⟨by rw [he, hwaker], hasked (by rw [he]; rfl) ha⟩⟩
    · exact ⟨hsound, hreg, .inr ⟨he, by rw [hwaker]; exact hwoken hw⟩⟩

/-- A grant of the queued slot. A consumer that sleeps is about to be woken. -/
theorem Phase.grant {w : Wait} {waker : Option Waker}
    (h : Phase s (some ⟨.queued, waker⟩) w) (hwaker : s'.waker = s.waker)
    (hwakes : s'.wakes = s.wakes ++ waker.toList) : Phase s' (some ⟨.one, none⟩) w := by
  cases w with
  | none => trivial
  | fresh => trivial
  | looping => trivial
  | enabling f pc => exact h
  | swapping f => exact h
  | repeating f => exact h
  | returning f reasons => exact h
  | polling f pc =>
    refine ⟨h.1, ?_⟩
    have hpc := h.2
    split at hpc
    · trivial
    · exact ⟨hpc.1.trans hwaker.symm, hpc.2.1, fun hk => (by cases hk)⟩
    · exact hpc.elim
  | suspended f =>
    obtain ⟨hsound, hreg, ⟨he, -⟩ | ⟨he, -⟩⟩ := h
    · cases he
      exact ⟨hsound, hreg, .inr ⟨rfl, .inr (by simp [hwaker, hwakes])⟩⟩
    · cases he

/-- The union grows by the mask that is added. -/
theorem union_append (masks : List Mask) (m : Mask) : union (masks ++ [m]) = union masks ||| m := by
  simp [union]

/-! ### The producers -/

/-- Reasons are added. The producer that finds none is about to notify. -/
theorem Inv.fetchOr (h : Inv s) (m : Mask) : Inv (fetchOr s m) := by
  unfold Readiness.fetchOr
  split
  · exact h
  · obtain ⟨e, hholds, hphase⟩ := h.phase
    refine ⟨?_, ?_, h.returned, h.nonzero, e, hholds, hphase.mono rfl ?_ id⟩
    · show s.signalled ++ [m] = s.batches.flatten ++ (s.since ++ [m])
      rw [h.signalled, List.append_assoc]
    · show s.reasons ||| m = union (s.since ++ [m])
      rw [union_append, h.reasons]
    · intro _ hasked _
      show s.batches.length ∈ if s.reasons = 0#64 then _ else _
      split
      · simp
      · rename_i hne
        exact hasked hne

/-- A `notify_one` grants the slot of the consumer, or the consumer does not sleep. -/
theorem Inv.notifyOne (h : Inv s) (notifying : List Nat) :
    ∃ n' waker, s.notify.grantOne = some (n', waker) ∧
      Inv { s with notify := n', notifying, wakes := s.wakes ++ waker.toList } := by
  obtain ⟨e, hholds, hphase⟩ := h.phase
  obtain ⟨n', waker, e', hg, hholds', hcases⟩ := grantOne_cases hholds
  refine ⟨n', waker, hg, h.signalled, h.reasons, h.returned, h.nonzero, e', hholds', ?_⟩
  rcases hcases with ⟨rfl, rfl⟩ | ⟨hkind, rfl, rfl⟩
  · exact hphase.grant rfl rfl
  · exact hphase.mono rfl (fun hq => absurd hq hkind) (by simp)

/-- A wake that is issued reaches the consumer when it is for its last waker. -/
theorem Inv.wake (h : Inv s) {i : Nat} {waker : Waker} (hi : s.wakes[i]? = some waker) :
    Inv { s with wakes := s.wakes.eraseIdx i, woken := s.woken || waker == s.waker } := by
  obtain ⟨e, hholds, hphase⟩ := h.phase
  refine ⟨h.signalled, h.reasons, h.returned, h.nonzero, e, hholds,
    hphase.mono rfl (fun _ => id) ?_⟩
  rintro (hw | hmem)
  · exact .inl (by simp [hw])
  · by_cases hsame : waker = s.waker
    · exact .inl (by simp [hsame])
    · exact .inr (mem_eraseIdx_of_ne hmem hi (fun he => hsame he.symm))

/-! ### The consumer -/

/-- A step of the consumer that leaves the reasons alone. -/
theorem Inv.move (h : Inv s) {n' : Notify} {w : Wait} {wakes : List Waker} {waker : Waker}
    {woken : Bool} (hhand : w.inHand = s.wait.inHand)
    (hphase : ∃ e, Holds n'.waiters w.registration e ∧
      Phase { s with notify := n', wait := w, wakes, waker, woken } e w) :
    Inv { s with notify := n', wait := w, wakes, waker, woken } where
  signalled := h.signalled
  reasons := h.reasons
  returned := by
    show s.returned ++ w.inHand = _
    rw [hhand]
    exact h.returned
  nonzero := by
    show ∀ m ∈ s.returned ++ w.inHand, m ≠ 0#64
    rw [hhand]
    exact h.nonzero
  phase := hphase

/-- The call that `enable` or `poll` makes of a future that has a slot or is done. -/
theorem start_cases (f : Notified) (call : Call) (h : f.done = true ∨ f.registration ≠ none) :
    NotifySystem.start f call = .ready call ∨
      NotifySystem.start f call = .lock call ∧ f.registration ≠ none := by
  unfold NotifySystem.start
  split
  · exact .inl rfl
  · rename_i hdone
    have hreg := h.resolve_left hdone
    rw [if_neg (by simpa using hreg)]
    exact .inr ⟨rfl, hreg⟩

/-- A poll of a future that has a slot or is done. -/
theorem phase_polling (hsound : Sound f) (h : f.done = true ∨ f.registration ≠ none)
    (hasked : e.map Entry.kind = some .queued → Asked s) :
    Phase s e (.polling f (NotifySystem.start f (.poll s.waker))) := by
  refine ⟨hsound, ?_⟩
  rcases start_cases f (.poll s.waker) h with hs | ⟨hs, hreg⟩
  · rw [hs]
    trivial
  · rw [hs]
    exact ⟨rfl, hreg, hasked⟩

/-- The top of the loop: a `Notified` without a slot. -/
theorem Inv.advance_looping (h : Inv s) (hw : s.wait = .looping) :
    ∃ s', Readiness.advance s = some s' ∧ Inv s' := by
  obtain ⟨e, hholds, -⟩ := h.phase
  rw [hw] at hholds
  have hadv : Readiness.advance s = some { s with
      wait := .enabling s.notify.notified (.loadGeneration .enable) } := by
    simp only [Readiness.advance, hw]
    rfl
  exact ⟨_, hadv, h.move (by rw [hw]; rfl) ⟨e, hholds, rfl, rfl⟩⟩

/-- `enable` ends with a future that has a slot or is done. -/
theorem Inv.advance_enabling (h : Inv s) {pc : Pc} (hw : s.wait = .enabling f pc) :
    ∃ s', Readiness.advance s = some s' ∧ Inv s' := by
  obtain ⟨e, hholds, hphase⟩ := h.phase
  rw [hw] at hholds hphase
  have hhand : [] = s.wait.inHand := by
    rw [hw]
    rfl
  change Holds s.notify.waiters f.registration e at hholds
  rcases pc with - | (- | w) | (- | w) | (- | w) | (- | w)
  · exact hphase.elim
  · obtain ⟨hreg, hreserved⟩ := hphase
    -- A broadcast since the future was made lets it through at once.
    by_cases hg : s.notify.generation = f.generation
    · have hadv : Readiness.advance s =
          some { s with wait := .enabling f (.takePermit .enable) } := by
        simp [Readiness.advance, hw, NotifySystem.advance, hg]
      exact ⟨_, hadv, h.move hhand ⟨e, hholds, hreg, hreserved⟩⟩
    · have hadv : Readiness.advance s =
          some { s with wait := .enabling { f with done := true } (.ready .enable) } := by
        simp [Readiness.advance, hw, NotifySystem.advance, hg]
      exact ⟨_, hadv, h.move hhand ⟨e, hholds, fun _ => hreg, rfl⟩⟩
  · exact hphase.elim
  · obtain ⟨hreg, hreserved⟩ := hphase
    -- A permit that is stored is taken, and lets the future through.
    by_cases hp : s.notify.permit = true
    · have hadv : Readiness.advance s = some { s with
          notify := { s.notify with permit := false }
          wait := .enabling { f with done := true, reservedOne := true } (.ready .enable) } := by
        simp [Readiness.advance, hw, NotifySystem.advance, hp]
      exact ⟨_, hadv, h.move hhand ⟨e, hholds, fun _ => hreg, rfl⟩⟩
    · have hadv : Readiness.advance s =
          some { s with wait := .enabling f (.lock .enable) } := by
        simp [Readiness.advance, hw, NotifySystem.advance, hp]
      exact ⟨_, hadv, h.move hhand ⟨e, hholds, hreg, hreserved⟩⟩
  · exact hphase.elim
  · obtain ⟨hreg, hreserved⟩ := hphase
    -- Under the lock the future is granted a stored permit, or it is registered.
    rcases lockSection_cases hholds none with ⟨n', reserved, hl, hh⟩ | ⟨n', id, hl, -, hh⟩
    · have hadv : Readiness.advance s = some { s with
          notify := n'
          wait := .enabling { f with registration := none, done := true, reservedOne := reserved }
            (.ready .enable) } := by
        simp [Readiness.advance, hw, NotifySystem.advance, Call.waker, hl]
      exact ⟨_, hadv, h.move hhand ⟨none, hh, fun _ => rfl, rfl⟩⟩
    · have hadv : Readiness.advance s = some { s with
          notify := n', wait := .swapping { f with registration := some id } } := by
        simp [Readiness.advance, hw, NotifySystem.advance, Call.waker, hl]
      refine ⟨_, hadv, h.move hhand ⟨_, hh, fun hr => ?_, .inr (by simp)⟩⟩
      have hr' : f.reservedOne = true := hr
      rw [hreserved] at hr'
      cases hr'
  · exact hphase.elim
  · have hadv : Readiness.advance s = some { s with wait := .swapping f } := by
      simp [Readiness.advance, hw, NotifySystem.advance]
    exact ⟨_, hadv, h.move hhand ⟨e, hholds, hphase.1, .inl hphase.2⟩⟩
  · exact hphase.elim

/-- The swap takes the whole batch, or finds nothing and goes on to the await. -/
theorem Inv.advance_swapping (h : Inv s) (hw : s.wait = .swapping f) :
    ∃ s', Readiness.advance s = some s' ∧ Inv s' := by
  obtain ⟨e, hholds, hphase⟩ := h.phase
  rw [hw] at hholds hphase
  obtain ⟨hsound, hready⟩ := hphase
  have hhand : [] = s.wait.inHand := by
    rw [hw]
    rfl
  have hreturned := h.returned
  have hnonzero := h.nonzero
  rw [← hhand, List.append_nil] at hreturned hnonzero
  by_cases hzero : s.reasons = 0#64
  · have hadv : Readiness.advance s = some { s with
        wait := .polling f (NotifySystem.start f (.poll s.waker)) } := by
      simp [Readiness.advance, hw, hzero]
    refine ⟨_, hadv, h.move hhand ⟨e, hholds, ?_⟩⟩
    exact phase_polling hsound hready fun _ hne => absurd hzero hne
  · have hadv : Readiness.advance s = some { s with
        reasons := 0#64
        wait := .returning f s.reasons
        since := []
        batches := s.batches ++ [s.since] } := by
      simp [Readiness.advance, hw, hzero]
    refine ⟨_, hadv, ?_, rfl, ?_, ?_, e, hholds, hsound⟩
    · show s.signalled = (s.batches ++ [s.since]).flatten ++ []
      simp [h.signalled]
    · show s.returned ++ [s.reasons] = (s.batches ++ [s.since]).map union
      rw [List.map_append, hreturned, h.reasons]
      rfl
    · intro m hm
      have hm' : m ∈ s.returned ++ [s.reasons] := hm
      rw [List.mem_append, List.mem_singleton] at hm'
      rcases hm' with hold | hnew
      · exact hnonzero m hold
      · rw [hnew]
        exact hzero

/-- The poll of the `Notified` is ready, or the consumer parks with its slot queued. -/
theorem Inv.advance_polling (h : Inv s) {pc : Pc} (hw : s.wait = .polling f pc) :
    ∃ s', Readiness.advance s = some s' ∧ Inv s' := by
  obtain ⟨e, hholds, hphase⟩ := h.phase
  rw [hw] at hholds hphase
  have hhand : [] = s.wait.inHand := by
    rw [hw]
    rfl
  change Holds s.notify.waiters f.registration e at hholds
  obtain ⟨hsound, hpc⟩ := hphase
  split at hpc
  · have hadv : Readiness.advance s = some { s with
        wait := .repeating { f with reservedOne := false } } := by
      simp [Readiness.advance, hw, NotifySystem.advance]
    exact ⟨_, hadv, h.move hhand ⟨e, hholds, fun hr => (by cases hr)⟩⟩
  · obtain ⟨rfl, hreg, hasked⟩ := hpc
    have hunreserved : f.reservedOne ≠ true := fun hr => hreg (hsound hr)
    rcases lockSection_cases hholds (some s.waker) with
      ⟨n', reserved, hl, hh⟩ | ⟨n', id, hl, hkind, hh⟩
    · have hadv : Readiness.advance s = some { s with
          notify := n'
          wait := .polling { f with registration := none, done := true, reservedOne := reserved }
            (.ready (.poll s.waker)) } := by
        simp [Readiness.advance, hw, NotifySystem.advance, Call.waker, hl]
      exact ⟨_, hadv, h.move hhand ⟨none, hh, fun _ => rfl, trivial⟩⟩
    · have hadv : Readiness.advance s = some { s with
          notify := n', wait := .suspended { f with registration := some id } } := by
        simp [Readiness.advance, hw, NotifySystem.advance, Call.waker, hl]
      -- The slot was queued since before the swap.
      have hqueued : e.map Entry.kind = some .queued := by
        refine hkind.resolve_left fun he => hreg ?_
        obtain ⟨a, -, -, hiff⟩ := hholds
        exact hiff.mpr he
      exact ⟨_, hadv, h.move hhand
        ⟨_, hh, fun hr => absurd hr hunreserved, by simp, .inl ⟨rfl, hasked hqueued⟩⟩⟩
  · exact hpc.elim

/-- The drop of the `Notified` does not panic, and leaves no slot. -/
theorem Inv.dropNotified (h : Inv s) (hsound : Sound f) {w : Wait}
    (hreg : s.wait.registration = f.registration) (hhand : w.inHand = s.wait.inHand)
    (hw : w.registration = none) (hphase : ∀ s, Phase s none w) :
    ∃ s', Readiness.dropNotified s f w = some s' ∧ Inv s' := by
  obtain ⟨e, hholds, -⟩ := h.phase
  rw [hreg] at hholds
  obtain ⟨n', waker, hd, hh⟩ := drop_cases hholds hsound
  have hdrop : Readiness.dropNotified s f w =
      some { s with notify := n', wait := w, wakes := s.wakes ++ waker.toList } := by
    simp [Readiness.dropNotified, hd]
  rw [← hw] at hh
  exact ⟨_, hdrop, h.move hhand ⟨none, hh, hphase _⟩⟩

theorem Inv.advance_repeating (h : Inv s) (hw : s.wait = .repeating f) :
    ∃ s', Readiness.advance s = some s' ∧ Inv s' := by
  obtain ⟨e, -, hphase⟩ := h.phase
  rw [hw] at hphase
  have hadv : Readiness.advance s = Readiness.dropNotified s f .looping := by
    simp [Readiness.advance, hw]
  rw [hadv]
  exact h.dropNotified hphase (by rw [hw]; rfl) (by rw [hw]; rfl) rfl fun _ => trivial

/-- The reasons that were taken are returned. -/
theorem Inv.advance_returning (h : Inv s) {reasons : Mask} (hw : s.wait = .returning f reasons) :
    ∃ s', Readiness.advance s = some s' ∧ Inv s' := by
  obtain ⟨e, hholds, hphase⟩ := h.phase
  have hreturned := h.returned
  have hnonzero := h.nonzero
  rw [hw] at hphase hholds hreturned hnonzero
  obtain ⟨n', waker, hd, hh⟩ := drop_cases hholds hphase
  have hadv : Readiness.advance s = some { s with
      notify := n'
      wait := .none
      wakes := s.wakes ++ waker.toList
      returned := s.returned ++ [reasons] } := by
    simp [Readiness.advance, hw, Readiness.dropNotified, hd]
  refine ⟨_, hadv, h.signalled, h.reasons, ?_, ?_, none, hh, trivial⟩
  · show (s.returned ++ [reasons]) ++ [] = _
    rw [List.append_nil]
    exact hreturned
  · show ∀ m ∈ (s.returned ++ [reasons]) ++ [], m ≠ 0#64
    rw [List.append_nil]
    exact hnonzero

/-- A poll that is under way does not panic, and keeps the invariant. -/
theorem Inv.advance (h : Inv s) (hbusy : s.wait.isBusy = true) :
    ∃ s', Readiness.advance s = some s' ∧ Inv s' := by
  cases hw : s.wait with
  | none => simp [hw, Wait.isBusy] at hbusy
  | fresh => simp [hw, Wait.isBusy] at hbusy
  | suspended f => simp [hw, Wait.isBusy] at hbusy
  | looping => exact h.advance_looping hw
  | enabling f pc => exact h.advance_enabling hw
  | swapping f => exact h.advance_swapping hw
  | polling f pc => exact h.advance_polling hw
  | repeating f => exact h.advance_repeating hw
  | returning f reasons => exact h.advance_returning hw

/-- A new poll of a future that is not under way. -/
theorem Inv.poll (h : Inv s) {waker : Waker} (hs : step s (.poll waker) = some s') : Inv s' := by
  obtain ⟨e, hholds, hphase⟩ := h.phase
  simp only [step] at hs
  split at hs
  · rename_i hw
    cases hs
    rw [hw] at hholds
    exact h.move (by rw [hw]; rfl) ⟨e, hholds, trivial⟩
  · rename_i f hw
    cases hs
    rw [hw] at hholds hphase
    obtain ⟨hsound, hreg, hslot⟩ := hphase
    refine h.move (by rw [hw]; rfl) ⟨e, hholds, ?_⟩
    refine phase_polling hsound (.inr hreg) fun hkind => ?_
    rcases hslot with ⟨-, hasked⟩ | ⟨rfl, -⟩
    · exact hasked
    · cases hkind
  · cases hs

/-- The drop of a future that is not under way. -/
theorem Inv.drop (h : Inv s) (hs : step s .drop = some s') : Inv s' := by
  obtain ⟨e, hholds, hphase⟩ := h.phase
  simp only [step] at hs
  split at hs
  · rename_i hw
    cases hs
    rw [hw] at hholds
    exact h.move (by rw [hw]; rfl) ⟨e, hholds, trivial⟩
  · rename_i f hw
    rw [hw] at hphase
    obtain ⟨s₁, hd, hi⟩ := h.dropNotified hphase.1 (by rw [hw]; rfl)
      (show Wait.none.inHand = s.wait.inHand by rw [hw]; rfl) rfl fun _ => trivial
    rw [hd] at hs
    cases hs
    exact hi
  · cases hs

/-- Only a poll that is under way has a next step. -/
theorem isBusy_of_advance (hs : Readiness.advance s = some s') : s.wait.isBusy = true := by
  unfold Readiness.advance at hs
  split at hs
  · cases hs
  · cases hs
  · cases hs
  all_goals
    rename_i hw
    rw [hw]
    rfl

/-- Every step keeps the invariant. -/
theorem step_inv {act : Action} (h : Inv s) (hs : step s act = some s') : Inv s' := by
  cases act with
  | fetchOr reasons =>
    cases hs
    exact h.fetchOr reasons
  | notifyOne i =>
    obtain ⟨n', waker, hg, hi⟩ := h.notifyOne (s.notifying.eraseIdx i)
    simp only [step, hg] at hs
    split at hs
    · rename_i heq
      cases heq
      cases hs
      exact hi
    · cases hs
  | wake i =>
    simp only [step] at hs
    split at hs
    · cases hs
    · rename_i waker hi
      cases hs
      exact h.wake hi
  | start =>
    simp only [step] at hs
    split at hs
    · rename_i hw
      cases hs
      obtain ⟨e, hholds, -⟩ := h.phase
      rw [hw] at hholds
      exact h.move (by rw [hw]; rfl) ⟨e, hholds, trivial⟩
    · cases hs
  | poll waker => exact h.poll hs
  | advance =>
    obtain ⟨s₁, hadv, hi⟩ := h.advance (isBusy_of_advance hs)
    have hsame : s₁ = s' := Option.some.inj (hadv.symm.trans hs)
    exact hsame ▸ hi
  | drop => exact h.drop hs

/-- The invariant holds in every state of every run. -/
theorem inv_of_reachable (h : system.Reachable s) : Inv s := by
  refine h.invariant (P := Inv) ?_ fun _ _ _ hi hs => step_inv hi hs
  rintro s rfl
  exact ⟨rfl, rfl, rfl, fun m hm => (by cases hm), none, holds_new, trivial⟩

/-- Reasons are neither lost nor invented. The masks that were added, in order, are batches and a
rest. The rest is what the word has, and each batch is what one `wait` returned, or is about to
return. No `wait` returns zero. When the consumer is suspended and neither woken nor about to be,
there are no reasons or the producer that began the batch has not run its `notify_one`. A poll of
`wait` is never stuck inside. -/
theorem reasons_kept (h : system.Reachable s) :
    s.signalled = s.batches.flatten ++ s.since ∧
    s.reasons = union s.since ∧
    s.returned ++ s.wait.inHand = s.batches.map union ∧
    (∀ m ∈ s.returned, m ≠ 0#64) ∧
    (∀ f, s.wait = .suspended f → s.woken = false → s.waker ∉ s.wakes →
      s.reasons = 0#64 ∨ s.batches.length ∈ s.notifying) ∧
    (s.wait.isBusy = true → ∃ s', step s .advance = some s') := by
  have hi := inv_of_reachable h
  refine ⟨hi.signalled, hi.reasons, hi.returned,
    fun m hm => hi.nonzero m (List.mem_append_left _ hm), ?_, ?_⟩
  · intro f hw hwoken hwakes
    obtain ⟨e, -, hphase⟩ := hi.phase
    rw [hw] at hphase
    rcases hphase.2.2 with ⟨-, hasked⟩ | ⟨-, htold⟩
    · by_cases hzero : s.reasons = 0#64
      · exact .inl hzero
      · exact .inr (hasked hzero)
    · rcases htold with htold | hmem
      · rw [hwoken] at htold
        cases htold
      · exact absurd hmem hwakes
  · intro hbusy
    obtain ⟨s', hadv, -⟩ := hi.advance hbusy
    exact ⟨s', hadv⟩

/-- Two producers signal, and a `wait` takes both and hands the permit that it had reserved back.
The next `wait` goes round once for that permit and parks. Then a producer signals: its
`notify_one` is due. -/
theorem reasons_kept_parked :
    ∃ s, system.Reachable s ∧ s.returned = [5#64] ∧ s.reasons = 2#64 ∧ 1 ∈ s.notifying := by
  obtain ⟨s, hr, hp⟩ := Lts.Reachable.exists_of_run (M := system) (s := new)
    [.fetchOr 1#64, .notifyOne 0, .fetchOr 4#64, .start, .poll 7, .advance, .advance, .advance,
      .advance, .advance, .advance, .start, .poll 7, .advance, .advance, .advance, .advance,
      .advance, .advance, .advance, .advance, .advance, .advance, .advance, .advance, .advance,
      .fetchOr 2#64]
    (fun s => s.wait = .suspended ⟨0, some 0, false, false⟩ ∧ s.woken = false ∧ s.wakes = [] ∧
      s.batches = [[1#64, 4#64]] ∧ s.since = [2#64])
    rfl (by decide)
  obtain ⟨hw, hwoken, hwakes, hbatches, hsince⟩ :
      s.wait = .suspended ⟨0, some 0, false, false⟩ ∧ s.woken = false ∧ s.wakes = [] ∧
        s.batches = [[1#64, 4#64]] ∧ s.since = [2#64] := by
    simpa using hp
  obtain ⟨-, hreasons, hreturned, -, hparked, -⟩ := reasons_kept hr
  have htwo : s.reasons = 2#64 := by
    rw [hreasons, hsince]
    rfl
  refine ⟨s, hr, ?_, htwo, ?_⟩
  · rw [hw, hbatches] at hreturned
    exact (List.append_nil _).symm.trans hreturned
  · rcases hparked _ hw hwoken (by simp [hwakes]) with hzero | hmem
    · rw [htwo] at hzero
      cases hzero
    · rw [hbatches] at hmem
      exact hmem

end Readiness

end Nagoya
