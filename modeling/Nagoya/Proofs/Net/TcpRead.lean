import Nagoya.Net.TcpRead
import Nagoya.Proofs.Reactor.Driver

/-!
# `Nagoya.Proofs.Net.TcpRead`: a reader never parks on data

The invariant has three parts. A hang-up is latched in the slot, or an event that will latch it
is on its way. Unread bytes are known to the slot, or the reader is about to look at the
socket, or an event is on its way. A parked reader has its waker in the slot with no readiness
cached, or a `dispatch` has taken the waker and is about to wake it.

The second part is what the order of the reader's steps is for. Readiness is consumed before
the `recv`, so an event that comes in during the call is kept. It stays consumed only when the
`recv` or `FIONREAD` showed the queue empty. A `recv` that fails with an error other than these
two leaves it consumed as well, so the runs here are those without such a failure.
-/

set_option autoImplicit false

namespace Nagoya.Net

open Nagoya.Lib Nagoya.Reactor

namespace TcpRead

/-- A system call that is carried out, or is interrupted. -/
def Outcome.ok : Outcome → Bool
  | .failed _ => false
  | _ => true

/-- No `recv` fails with an error other than would-block and interrupted. Any other step,
`FIONREAD` included, may go either way. -/
def NoHardError (s : State) : Action → Bool
  | .advance outcome =>
    match s.reader.pc with
    | .recv _ => outcome.ok
    | _ => true
  | _ => true

/-- The reader took readiness and has not yet found the queue empty. -/
def Pc.holds : Pc → Bool
  | .recv _ | .count | .mark => true
  | _ => false

/-- An event for the reader is queued, or collected and not yet dispatched. -/
def Due (s : State) : Prop := s.kernel.queued = true ∨ ∃ e ∈ s.collected, e.forReader = true

/-- The invariant of the system. -/
structure Inv (s : State) : Prop where
  hangup : s.kernel.eof = true →
    s.slot.hangup = true ∨ s.kernel.queued = true ∨ ∃ e ∈ s.collected, e.hangup = true
  unread : s.kernel.data ≠ [] → s.slot.readable = false → s.slot.hangup = false →
    s.reader.pc.holds = false → Due s
  parked : s.reader.pc = .idle → s.reader.returned = .pending → s.reader.woken = false →
    s.slot.reader = some s.reader.waker ∧ s.slot.readable = false ∧ s.slot.hangup = false ∨
      s.reader.waker ∈ s.waking

/-- A hang-up that is not latched has an event on its way. -/
theorem Inv.due_of_eof {s : State} (h : Inv s) (he : s.kernel.eof = true)
    (hs : s.slot.hangup = false) : Due s := by
  rcases h.hangup he with hl | hq | ⟨e, hmem, heh⟩
  · simp [hs] at hl
  · exact .inl hq
  · exact .inr ⟨e, hmem, by simp [Readiness.forReader, heh]⟩

/-! ### The environment's steps -/

theorem inv_init (s : State) (h : system.init s) : Inv s := by
  obtain ⟨data, eof, rfl⟩ := h
  exact ⟨fun _ => .inr (.inl rfl), fun _ hr => by simp [new, Wakers.registered] at hr,
    fun _ hp => by simp [new] at hp⟩

/-- New bytes queue an event. -/
theorem inv_arrive {s : State} (h : Inv s) (bytes : List UInt8) :
    Inv { s with kernel.data := s.kernel.data ++ bytes, kernel.queued := true } :=
  ⟨fun _ => .inr (.inl rfl), fun _ _ _ _ => .inl rfl, h.parked⟩

/-- A hang-up queues an event. -/
theorem inv_hangUp {s : State} (h : Inv s) :
    Inv { s with kernel.eof := true, kernel.queued := true } :=
  ⟨fun _ => .inr (.inl rfl), fun _ _ _ _ => .inl rfl, h.parked⟩

/-- A collected event carries what the socket has to say at that moment. -/
theorem inv_collect {s : State} (h : Inv s) (writable : Bool) :
    Inv { s with kernel.queued := false
                 collected := s.collected ++ [s.kernel.flags writable] } := by
  refine ⟨fun he => ?_, fun hd _ _ _ => ?_, h.parked⟩
  · have he' : s.kernel.eof = true := he
    exact .inr (.inr ⟨s.kernel.flags writable, by simp, by simp [Kernel.flags, he']⟩)
  · have hd' : s.kernel.data ≠ [] := hd
    refine .inr ⟨s.kernel.flags writable, by simp, ?_⟩
    simp [Readiness.forReader, Kernel.flags, hd']

/-- An event that is dispatched raises the flags it reports. One that has nothing for the reader
leaves the others where they are. -/
theorem inv_dispatch {s : State} (h : Inv s) {i : Nat} {e : Readiness}
    (hi : s.collected[i]? = some e) :
    Inv { s with slot := (s.slot.dispatch e).1
                 collected := s.collected.eraseIdx i
                 waking := s.waking ++ (s.slot.dispatch e).2 } := by
  refine ⟨fun he => ?_, fun hd hr hh hpc => ?_, fun hpc hret hw => ?_⟩
  · simp only [Wakers.dispatch_hangup, Bool.or_eq_true]
    rcases h.hangup he with hl | hq | hdue
    · exact .inl (.inl hl)
    · exact .inr (.inl hq)
    · -- Either this is the event, or that event is still there.
      by_cases heh : e.hangup = true
      · exact .inl (.inr heh)
      · exact .inr (.inr (exists_mem_eraseIdx hdue hi heh))
  · simp only [Wakers.dispatch_readable, Wakers.dispatch_hangup, Bool.or_eq_false_iff] at hr hh
    refine (h.unread hd hr.1 hh.1 hpc).imp_right fun hdue => ?_
    exact exists_mem_eraseIdx hdue hi (by simp [hr.2])
  · simp only [Wakers.dispatch_readable, Wakers.dispatch_hangup, Wakers.dispatch_reader,
      List.mem_append]
    rcases h.parked hpc hret hw with ⟨hreader, hr, hh⟩ | hmem
    · cases he : e.forReader with
      | true => exact .inr (.inr (Wakers.mem_dispatch_of_reader he hreader))
      | false =>
        have heh : e.hangup = false := by
          simp only [Readiness.forReader, Bool.or_eq_false_iff] at he
          exact he.2
        exact .inl ⟨by simp [hreader], by simp [hr], by simp [hh, heh]⟩
    · exact .inr (.inl hmem)

/-- A wake reaches the reader when the waker is its own. -/
theorem inv_wake {s : State} (h : Inv s) {i : Nat} {waker : Waker}
    (hi : s.waking[i]? = some waker) :
    Inv { s with waking := s.waking.eraseIdx i, reader := s.reader.wake waker } := by
  unfold Reader.wake
  split
  · exact ⟨h.hangup, h.unread, fun _ _ hw => by simp at hw⟩
  · rename_i hne
    refine ⟨h.hangup, h.unread, fun hpc hret hw => ?_⟩
    refine (h.parked hpc hret hw).imp_right fun hmem => ?_
    exact mem_eraseIdx_of_ne hmem hi (fun he => hne he.symm)

/-! ### The reader's steps -/

/-- A call begins with nothing returned. -/
theorem inv_call {s : State} (h : Inv s) (call : ReadCall) (waker : Waker) (len : Nat)
    (hpc : s.reader.pc = .idle) : Inv { s with reader := s.reader.start call waker len } := by
  unfold Reader.start
  split
  · exact ⟨h.hangup, h.unread, fun _ hret => by simp at hret⟩
  · exact ⟨h.hangup, fun hd hr hh _ => h.unread hd hr hh (by simp [hpc, Pc.holds]),
      fun hidle => by simp at hidle⟩

/-- What a `recv` that does not fail does: it is interrupted, or it finds nothing, or it takes
bytes, and all of them when they do not fill the buffer. -/
theorem recv_cases (k : Kernel) (len : Nat) {outcome : Outcome} (hok : outcome.ok = true) :
    k.recv len outcome = (k, .interrupted) ∨
    (k.data = [] ∧ k.recv len outcome = (k, .wouldBlock)) ∨
    (k.recv len outcome = ({ k with data := k.data.drop len }, .bytes (k.data.take len)) ∧
      ((k.data.take len).length ≠ len → k.data.drop len = [])) := by
  cases outcome with
  | interrupted => exact .inl rfl
  | failed error => simp [Outcome.ok] at hok
  | done =>
    right
    unfold Kernel.recv
    by_cases hnone : k.data = [] ∧ k.eof = false ∧ 0 < len
    · exact .inl ⟨hnone.1, by simp [hnone]⟩
    · refine .inr ⟨by simp only [if_neg hnone], fun hshort => ?_⟩
      rw [List.length_take] at hshort
      exact List.drop_eq_nil_of_le (by omega)

/-- A step that ends with the queue seen empty leaves readiness consumed. -/
theorem Inv.consumed {s : State} (h : Inv s) {kernel : Kernel} {reader : Reader}
    (heof : kernel.eof = s.kernel.eof) (hq : kernel.queued = s.kernel.queued)
    (hempty : kernel.data = []) (hret : reader.returned ≠ .pending ∨ reader.pc ≠ .idle) :
    Inv { s with kernel := kernel, reader := reader } where
  hangup he := by
    have he' : s.kernel.eof = true := by rw [← heof]; exact he
    show _ ∨ kernel.queued = true ∨ _
    rw [hq]
    exact h.hangup he'
  unread hd := absurd hempty hd
  parked hpc hp := absurd hp (hret.resolve_right (not_not_intro hpc))

/-- The reader's own steps. -/
theorem inv_advance {s s' : State} (h : Inv s) {outcome : Outcome}
    (hok : NoHardError s (.advance outcome) = true) (hs : advance s outcome = some s') :
    Inv s' := by
  unfold advance at hs
  -- A step that keeps the data and the slot, from a place that does not hold readiness.
  have hkeep : s.reader.pc.holds = false → s.kernel.data ≠ [] → s.slot.readable = false →
      s.slot.hangup = false → Due s := fun hpc hd hr hh => h.unread hd hr hh hpc
  cases hpc : s.reader.pc with
  | idle => simp [hpc] at hs
  | take len =>
    rw [hpc] at hkeep
    rcases s.slot.takeReadableOrPark_cases s.reader.waker with hc | ⟨hr, hh, hc⟩ <;>
      simp only [hpc, hc, Option.some.injEq] at hs <;> subst hs
    · -- Readiness is taken: the reader now looks at the socket.
      exact ⟨h.hangup, fun _ _ _ hh => by simp [Pc.holds] at hh, fun hidle => by simp at hidle⟩
    · exact ⟨h.hangup, fun hd hr hh _ => hkeep rfl hd hr hh, fun _ _ _ => .inl ⟨rfl, hr, hh⟩⟩
  | recv len =>
    simp only [NoHardError, hpc] at hok
    rcases recv_cases s.kernel len hok with hc | ⟨hnil, hc⟩ | ⟨hc, hshort⟩ <;>
      simp only [hpc, hc] at hs
    · -- Interrupted: the call tries again.
      cases hs
      exact ⟨h.hangup, h.unread, h.parked⟩
    · -- The queue was seen empty, so readiness may stay consumed.
      cases hs
      exact h.consumed rfl rfl hnil (.inr (by simp))
    · split at hs
      · cases hs
        exact ⟨h.hangup, fun _ _ _ hh => by simp [Pc.holds] at hh, fun hidle => by simp at hidle⟩
      · rename_i hlen
        cases hs
        exact h.consumed rfl rfl (hshort hlen) (.inl (by simp))
  | count =>
    simp only [hpc, Kernel.pending] at hs
    split at hs
    · -- `FIONREAD` counted zero bytes.
      rename_i hzero
      cases hs
      have hnil : s.kernel.data = [] := by
        cases outcome with
        | done => simpa using hzero
        | interrupted => simp at hzero
        | failed error => simp at hzero
      exact h.consumed rfl rfl hnil (.inl (by simp))
    · cases hs
      exact ⟨h.hangup, fun _ _ _ hh => by simp [Pc.holds] at hh, fun hidle => by simp at hidle⟩
  | mark =>
    simp only [hpc, Option.some.injEq] at hs
    subst hs
    exact ⟨h.hangup, fun _ hr => by simp [Wakers.markReadable] at hr,
      fun _ hret => by simp at hret⟩
  | park =>
    rw [hpc] at hkeep
    rcases s.slot.pollReadable_cases s.reader.waker with hc | ⟨hr, hh, hc⟩ <;>
      simp only [hpc, hc, Option.some.injEq] at hs <;> subst hs
    · -- An edge came in after the `recv`: the caller is woken at once.
      exact ⟨h.hangup, fun hd hr hh _ => hkeep rfl hd hr hh, fun hidle => by simp at hidle⟩
    · exact ⟨h.hangup, fun hd hr hh _ => hkeep rfl hd hr hh, fun _ _ _ => .inl ⟨rfl, hr, hh⟩⟩
  | wakeSelf =>
    -- The reader has woken itself, so it does not sleep.
    rw [hpc] at hkeep
    simp only [hpc, Option.some.injEq] at hs
    subst hs
    exact ⟨h.hangup, fun hd hr hh _ => hkeep rfl hd hr hh,
      fun _ _ hw => by simp [Reader.wake] at hw⟩

/-- Every step keeps the invariant. -/
theorem step_inv {s s' : State} {act : Action} (h : Inv s) (hs : step s act = some s')
    (hok : NoHardError s act = true) : Inv s' := by
  cases act with
  | arrive bytes =>
    simp only [step] at hs
    split at hs
    · cases hs
    · cases hs
      exact inv_arrive h bytes
  | hangUp =>
    simp only [step] at hs
    split at hs
    · cases hs
    · cases hs
      exact inv_hangUp h
  | collect writable =>
    simp only [step] at hs
    split at hs
    · cases hs
      exact inv_collect h writable
    · cases hs
  | dispatch i =>
    simp only [step] at hs
    split at hs
    · cases hs
    · rename_i e hi
      cases hs
      exact inv_dispatch h hi
  | wake i =>
    simp only [step] at hs
    split at hs
    · cases hs
    · rename_i waker hi
      cases hs
      exact inv_wake h hi
  | call call waker len =>
    simp only [step] at hs
    split at hs
    · rename_i hpc
      cases hs
      exact inv_call h call waker len hpc
    · cases hs
  | advance outcome => exact inv_advance h hok hs

/-- The invariant holds in every state of a run without hard errors. -/
theorem inv_of_reach {s : State} (h : system.Reach (fun s act _ => NoHardError s act = true) s) :
    Inv s :=
  h.invariant inv_init fun _ _ _ hi hs hok => step_inv hi hs hok

/-- The edge-triggered read protocol never parks on data. Whenever the last call returned
`Pending` and its waker has not been woken since, the queue is empty and the peer has not hung
up, or an event for the reader is queued or collected, or the dispatch of one has taken the
reader's waker and has not finished. -/
theorem never_parks_on_data {s : State}
    (h : system.Reach (fun s act _ => NoHardError s act = true) s) (hpc : s.reader.pc = .idle)
    (hret : s.reader.returned = .pending) (hw : s.reader.woken = false) :
    (s.kernel.data = [] ∧ s.kernel.eof = false) ∨ s.kernel.queued = true ∨
      (∃ e ∈ s.collected, e.readable = true ∨ e.hangup = true) ∨
      s.reader.waker ∈ s.waking := by
  have hi := inv_of_reach h
  rcases hi.parked hpc hret hw with ⟨-, hr, hh⟩ | hmem
  · by_cases hquiet : s.kernel.data = [] ∧ s.kernel.eof = false
    · exact .inl hquiet
    · have hdue : Due s := by
        cases heof : s.kernel.eof with
        | true => exact hi.due_of_eof heof hh
        | false =>
          exact hi.unread (fun hd => hquiet ⟨hd, heof⟩) hr hh (by simp [hpc, Pc.holds])
      rcases hdue with hq | ⟨e, hmem, he⟩
      · exact .inr (.inl hq)
      · exact .inr (.inr (.inl ⟨e, hmem, by simpa [Readiness.forReader] using he⟩))
  · exact .inr (.inr (.inr hmem))

/-- A reader drains three bytes with a buffer of two, parks, and then a byte arrives. Its event
is queued. -/
theorem never_parks_on_data_arrival :
    ∃ s, system.Reach (fun s act _ => NoHardError s act = true) s ∧
      s.reader.returned = .pending ∧ s.kernel.data ≠ [] ∧ s.kernel.queued = true := by
  obtain ⟨s, hr, hp⟩ := Lts.Reach.exists_of_runWhere (M := system) (s := new [1, 2, 3] false)
    (fun s act _ => NoHardError s act = true)
    [.collect true, .dispatch 0,
      -- The first read fills the buffer, and `FIONREAD` says that a byte is left.
      .call .pollRead 7 2, .advance .done, .advance .done, .advance .done, .advance .done,
      -- The second is short, and the third parks.
      .call .pollReadBuf 7 2, .advance .done, .advance .done, .call .pollRead 7 2, .advance .done,
      .arrive [4]]
    (fun s => s.reader.pc = .idle ∧ s.reader.returned = .pending ∧ s.reader.woken = false ∧
      s.kernel.data ≠ [] ∧ s.collected = [] ∧ s.waking = []) ⟨[1, 2, 3], false, rfl⟩ (by decide)
  obtain ⟨hpc, hret, hw, hd, hc, hk⟩ : s.reader.pc = .idle ∧ s.reader.returned = .pending ∧
      s.reader.woken = false ∧ s.kernel.data ≠ [] ∧ s.collected = [] ∧ s.waking = [] := by
    simpa using hp
  refine ⟨s, hr, hret, hd, ?_⟩
  rcases never_parks_on_data hr hpc hret hw with ⟨hnil, -⟩ | hq | ⟨e, hmem, -⟩ | hmem
  · exact absurd hnil hd
  · exact hq
  · simp [hc] at hmem
  · simp [hk] at hmem

end TcpRead

end Nagoya.Net
