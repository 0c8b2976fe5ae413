import Nagoya.Net.Udp
import Nagoya.Proofs.Reactor.Driver

/-!
# `Nagoya.Proofs.Net.Udp`: which datagrams a receive loses, and that it leaves no waiter

The history gives the first half. What arrived is what was taken and then what is queued. What was
taken and has a sender that `read_from` understands is, in order, what the calls returned, with one
datagram in flight while a call is between `recvmsg` and its return. A datagram of another sender
was taken all the same, and its call returns `EAFNOSUPPORT`: it is lost (`udp_datagram_lost`). So
no datagram is lost exactly when every sender is understood.

The second half is the edge protocol of `Nagoya.Proofs.Net.TcpRead`, with less to do: a call
that took a datagram or failed always puts readiness back, so readiness stays consumed only after
`recvmsg` found the queue empty. A receive that is over, or was dropped, has no waker in the slot.
-/

set_option autoImplicit false

namespace Nagoya.Net

open Nagoya.Lib Nagoya.Reactor

namespace Udp

variable {os : Os} {e : Endian}

/-- The delivery is the datagram: its sender, its bytes as far as there was room for them, and
the truth about those that were discarded. -/
structure Delivered (x : Delivery os) (d : Datagram os e) : Prop where
  source : Addr.readFrom e d.name d.nameLen = some x.packet.source
  data : x.data = d.bytes.take x.room
  len : x.packet.len = x.data.length
  fits : x.packet.len ≤ x.room
  truncated : x.packet.truncated = true ↔ x.data.length < d.bytes.length

/-- What is delivered has a sender that is understood. -/
theorem Delivered.readable {x : Delivery os} {d : Datagram os e} (h : Delivered x d) :
    d.readable = true := by
  rw [Datagram.readable, h.source]
  rfl

/-- A datagram that `recvmsg` took is delivered, when its sender is understood. -/
theorem recvDatagram_spec {d : Datagram os e} (hd : d.readable = true) (room : Nat) :
    ∃ x, recvDatagram d room = .ok x ∧ Delivered x d := by
  obtain ⟨source, hsource⟩ := Option.isSome_iff_exists.mp hd
  have htake : (d.bytes.take (min d.bytes.length room)).length = min d.bytes.length room := by
    rw [List.length_take]
    omega
  unfold recvDatagram
  rw [hsource]
  refine ⟨_, rfl, hsource, ?_, ?_, ?_, ?_⟩
  · show d.bytes.take (min d.bytes.length room) = d.bytes.take room
    rw [List.take_eq_take_iff]
    omega
  · show min (min d.bytes.length room) room = _
    rw [htake]
    omega
  · show min (min d.bytes.length room) room ≤ room
    omega
  · show ((decide (room < d.bytes.length) || decide (room < min d.bytes.length room)) = true) ↔ _
    rw [htake, Bool.or_eq_true, decide_eq_true_eq, decide_eq_true_eq]
    omega

/-- A datagram of any other sender becomes an error. -/
theorem recvDatagram_unreadable {d : Datagram os e} (hd : d.readable = false) (room : Nat) :
    recvDatagram d room = .error eafnosupport := by
  have hnone : Addr.readFrom e d.name d.nameLen = none := by
    rw [← Option.not_isSome_iff_eq_none, ← Datagram.readable, hd]
    decide
  simp only [recvDatagram, hnone]

/-- The receiver took readiness and has not yet put it back or found the queue empty. -/
def RecvPc.holds : RecvPc os → Bool
  | .recv | .mark _ => true
  | _ => false

/-- The datagram that a call has taken and not yet returned. -/
def RecvPc.inFlight : RecvPc os → List (Delivery os)
  | .mark (.ok x) | .release (.ok x) => [x]
  | _ => []

/-- What the call is about to return. -/
def RecvPc.result : RecvPc os → Option (Except Nat (Delivery os))
  | .mark result | .release result => some result
  | _ => none

/-- What a call has taken since its future was made: nothing until it has a result, and nothing
when that is an error, unless it is the one of a sender that is not understood. -/
def Since (removed : List (Datagram os e)) (f : Future) : Option (Except Nat (Delivery os)) → Prop
  | none => removed.length = f.since
  | some (.ok _) => removed.length = f.since + 1
  | some (.error error) => removed.length = f.since ∨
      error = eafnosupport ∧ ∃ d ∈ removed, d.readable = false

/-- An event for the receiver is queued, or collected and not yet dispatched. -/
def Due (s : State os e) : Prop := s.queued = true ∨ ∃ x ∈ s.collected, x.forReader = true

/-- The receiver's half of the invariant is about these parts of a state. -/
structure Inv (s : State os e) : Prop where
  conserved : s.arrived = s.removed ++ s.queue
  log : List.Forall₂ Delivered (s.delivered ++ s.receiver.pc.inFlight)
    (s.removed.filter Datagram.readable)
  since : ∀ f, s.receiver.future = some f → Since s.removed f s.receiver.pc.result
  gone : s.receiver.future = none → s.receiver.pc = .idle
  quiet : s.receiver.pc = .idle → (∀ f, s.receiver.future = some f → f.waiting = false) →
    s.slot.reader = none
  unread : s.queue ≠ [] → s.slot.readable = false → s.slot.hangup = false →
    s.receiver.pc.holds = false → Due s
  parked : ∀ f, s.receiver.future = some f → f.waiting = true → s.receiver.pc = .idle →
    s.receiver.woken = false →
    s.slot.reader = some s.receiver.waker ∧ s.slot.readable = false ∧ s.slot.hangup = false ∨
      s.receiver.waker ∈ s.waking

variable {s s' : State os e}

theorem inv_new (queue : List (Datagram os e)) : Inv (new queue) where
  conserved := rfl
  log := .nil
  since f h := by cases h
  gone _ := rfl
  quiet _ _ := rfl
  unread _ hr := by cases hr
  parked f h := by cases h

/-! ### The environment's steps -/

/-- A datagram that arrives is the last of the queue. -/
theorem Inv.arrive (h : Inv s) (d : Datagram os e) :
    Inv { s with queue := s.queue ++ [d], queued := true, arrived := s.arrived ++ [d] } where
  conserved := by
    show s.arrived ++ [d] = s.removed ++ (s.queue ++ [d])
    rw [h.conserved, List.append_assoc]
  log := h.log
  since := h.since
  gone := h.gone
  quiet := h.quiet
  unread _ _ _ _ := .inl rfl
  parked := h.parked

theorem Inv.notify (h : Inv s) : Inv { s with queued := true } where
  conserved := h.conserved
  log := h.log
  since := h.since
  gone := h.gone
  quiet := h.quiet
  unread _ _ _ _ := .inl rfl
  parked := h.parked

/-- A collected event says that there is something to read when there is. -/
theorem Inv.collect (h : Inv s) (readable writable hangup : Bool) :
    Inv { s with
      queued := false
      collected := s.collected ++
        [{ readable := readable || !s.queue.isEmpty, writable, hangup }] } where
  conserved := h.conserved
  log := h.log
  since := h.since
  gone := h.gone
  quiet := h.quiet
  unread hq _ _ _ := by
    refine .inr ⟨{ readable := readable || !s.queue.isEmpty, writable, hangup }, by simp, ?_⟩
    have hne : s.queue.isEmpty = false := by
      rw [List.isEmpty_eq_false_iff]
      exact hq
    simp [Readiness.forReader, hne]
  parked := h.parked

/-- An event that is dispatched raises the flags it reports, and takes the waker it finds. -/
theorem Inv.dispatch (h : Inv s) {i : Nat} {x : Readiness} (hi : s.collected[i]? = some x) :
    Inv { s with
      slot := (s.slot.dispatch x).1
      collected := s.collected.eraseIdx i
      waking := s.waking ++ (s.slot.dispatch x).2 } where
  conserved := h.conserved
  log := h.log
  since := h.since
  gone := h.gone
  quiet hpc hf := by
    show (s.slot.dispatch x).1.reader = none
    rw [Wakers.dispatch_reader, h.quiet hpc hf]
    exact ite_self _
  unread hq hr hh hpc := by
    simp only [Wakers.dispatch_readable, Wakers.dispatch_hangup, Bool.or_eq_false_iff] at hr hh
    refine (h.unread hq hr.1 hh.1 hpc).imp_right fun hdue => ?_
    exact exists_mem_eraseIdx hdue hi (by simp [hr.2])
  parked f hf hwait hpc hw := by
    simp only [Wakers.dispatch_readable, Wakers.dispatch_hangup, Wakers.dispatch_reader,
      List.mem_append]
    rcases h.parked f hf hwait hpc hw with ⟨hreader, hr, hh⟩ | hmem
    · cases hx : x.forReader with
      | true => exact .inr (.inr (Wakers.mem_dispatch_of_reader hx hreader))
      | false =>
        have hxh : x.hangup = false := by
          simp only [Readiness.forReader, Bool.or_eq_false_iff] at hx
          exact hx.2
        exact .inl ⟨by simp [hreader], by simp [hr], by simp [hh, hxh]⟩
    · exact .inr (.inl hmem)

/-- A wake reaches the receiver when the waker is its own. -/
theorem Inv.wake (h : Inv s) {i : Nat} {waker : Waker} (hi : s.waking[i]? = some waker) :
    Inv ({ s with waking := s.waking.eraseIdx i }.wakeTasks waker) where
  conserved := h.conserved
  log := h.log
  since := h.since
  gone := h.gone
  quiet := h.quiet
  unread := h.unread
  parked f hf hwait hpc hw := by
    have hw' : (s.receiver.woken || waker == s.receiver.waker) = false := hw
    rw [Bool.or_eq_false_iff, beq_eq_false_iff_ne] at hw'
    refine (h.parked f hf hwait hpc hw'.1).imp_right fun hmem => ?_
    exact mem_eraseIdx_of_ne hmem hi (fun heq => hw'.2 heq.symm)

/-! ### The sender's steps -/

/-- A step of the sender: it writes its own side of the slot, and nothing else of the system. -/
structure SendStep (s s' : State os e) : Prop where
  reader : s'.slot.reader = s.slot.reader
  readable : s'.slot.readable = s.slot.readable
  hangup : s'.slot.hangup = s.slot.hangup
  rest : ∃ slot sender, s' = { s with slot, sender }

/-- The actions of the sender. -/
def Action.isSend : Action os e → Bool
  | .sendPoll _ | .sendAdvance _ | .sendDrop => true
  | _ => false

/-- A send changes the writer's half of the slot, and nothing of the receiver. -/
theorem sendAdvance_spec {outcome : Outcome} (hs : sendAdvance s outcome = some s') :
    SendStep s s' := by
  unfold sendAdvance at hs
  split at hs
  · cases hs
  · split at hs <;> rename_i hc <;> cases hs <;>
      rcases s.slot.takeWritableOrPark_cases s.sender.waker with ⟨-, ht⟩ | ⟨-, ht⟩ <;>
      rw [ht] at hc <;> cases hc <;> exact ⟨rfl, rfl, rfl, _, _, rfl⟩
  · split at hs <;> cases hs <;> exact ⟨rfl, rfl, rfl, _, _, rfl⟩
  · cases hs
    exact ⟨rfl, rfl, rfl, _, _, rfl⟩
  · cases hs
    exact ⟨rfl, rfl, rfl, _, _, rfl⟩
  · split at hs <;> rename_i hc <;> cases hs <;>
      rcases s.slot.pollWritable_cases s.sender.waker with ⟨-, ht⟩ | ⟨-, ht⟩ <;>
      rw [ht] at hc <;> cases hc <;> exact ⟨rfl, rfl, rfl, _, _, rfl⟩
  · cases hs
    exact ⟨rfl, rfl, rfl, _, _, rfl⟩

/-- What a step of the sender does. -/
theorem send_spec {act : Action os e} (hsend : act.isSend = true) (hs : step s act = some s') :
    SendStep s s' := by
  cases act with
  | sendPoll waker =>
    simp only [step] at hs
    split at hs
    · cases hs
      exact ⟨rfl, rfl, rfl, _, _, rfl⟩
    · cases hs
  | sendAdvance outcome => exact sendAdvance_spec hs
  | sendDrop =>
    simp only [step] at hs
    split at hs
    · cases hs
      cases hw : s.sender.waiting <;> exact ⟨rfl, rfl, rfl, _, _, rfl⟩
    · cases hs
  | arrive _ | notify | collect _ _ _ | dispatch _ | wake _ | create _ _ | poll _ | advance _
  | drop => cases hsend

/-- Nothing that the invariant speaks of is touched by the sender. -/
theorem Inv.send (h : Inv s) (hs : SendStep s s') : Inv s' := by
  obtain ⟨hreader, hreadable, hhangup, slot, sender, rfl⟩ := hs
  have hreader' : slot.reader = s.slot.reader := hreader
  have hreadable' : slot.readable = s.slot.readable := hreadable
  have hhangup' : slot.hangup = s.slot.hangup := hhangup
  constructor
  · exact h.conserved
  · exact h.log
  · exact h.since
  · exact h.gone
  · intro hpc hf
    show slot.reader = none
    rw [hreader']
    exact h.quiet hpc hf
  · intro hq hr hh hpc
    exact h.unread hq (hreadable' ▸ hr) (hhangup' ▸ hh) hpc
  · intro f hf hwait hpc hw
    show slot.reader = _ ∧ slot.readable = _ ∧ slot.hangup = _ ∨ _
    rw [hreader', hreadable', hhangup']
    exact h.parked f hf hwait hpc hw

/-! ### The receiver's steps -/

/-- A new future. -/
theorem Inv.create (h : Inv s) (hnone : s.receiver.future = none) (method : Method) (room : Nat) :
    Inv { s with
      receiver.future := some { method, room, waiting := false, since := s.removed.length } } where
  conserved := h.conserved
  log := h.log
  since f hf := by
    cases hf
    show Since s.removed _ s.receiver.pc.result
    rw [h.gone hnone]
    exact rfl
  gone hf := by cases hf
  quiet hpc _ := h.quiet hpc (fun f hf => by rw [hnone] at hf; cases hf)
  unread := h.unread
  parked f hf hwait := by
    cases hf
    cases hwait

/-- A receive in the middle of a poll. What the slot holds does not matter then, unless there is
something to read and nobody is about to look. -/
theorem Inv.running {f : Future} (hf : s.receiver.future = some f) (hpc : s.receiver.pc ≠ .idle)
    (hconserved : s.arrived = s.removed ++ s.queue)
    (hlog : List.Forall₂ Delivered (s.delivered ++ s.receiver.pc.inFlight)
      (s.removed.filter Datagram.readable))
    (hsince : Since s.removed f s.receiver.pc.result)
    (hunread : s.queue ≠ [] → s.slot.readable = false → s.slot.hangup = false →
      s.receiver.pc.holds = false → Due s) : Inv s where
  conserved := hconserved
  log := hlog
  since g hg := by
    rw [hf] at hg
    cases hg
    exact hsince
  gone hg := by
    rw [hf] at hg
    cases hg
  quiet hi := absurd hi hpc
  unread := hunread
  parked _ _ _ hi := absurd hi hpc

/-- The beginning of a poll. -/
theorem Inv.startPoll (h : Inv s) {f : Future} (hf : s.receiver.future = some f)
    (hpc : s.receiver.pc = .idle) (waker : Waker) : Inv (startPoll s f waker) := by
  have hlog := h.log
  have hsince := h.since f hf
  have hunread := h.unread
  rw [hpc] at hlog hsince hunread
  unfold Udp.startPoll
  split
  · exact .running hf (by simp) h.conserved hlog (.inl hsince) hunread
  · exact .running hf (by simp) h.conserved hlog hsince hunread

/-- A receive that suspends with its waker in the slot, or with a wake of its own. -/
theorem Inv.suspend {f : Future} (hconserved : s.arrived = s.removed ++ s.queue)
    (hlog : List.Forall₂ Delivered (s.delivered ++ []) (s.removed.filter Datagram.readable))
    (hsince : s.removed.length = f.since)
    (hunread : s.queue ≠ [] → s.slot.readable = false → s.slot.hangup = false → Due s)
    (hparked : s.receiver.woken = false → s.slot.reader = some s.receiver.waker ∧
      s.slot.readable = false ∧ s.slot.hangup = false) : Inv (s.suspend f) where
  conserved := hconserved
  log := hlog
  since f' hf' := by
    cases hf'
    exact hsince
  gone hg := by cases hg
  quiet _ hf := by
    have hwait := hf _ rfl
    cases hwait
  unread hq hr hh _ := hunread hq hr hh
  parked _ _ _ _ hw := .inl (hparked hw)

/-- A receive that returns has no waker in the slot, and what it took is in its result. -/
theorem Inv.complete {result : Except Nat (Delivery os)}
    (hconserved : s.arrived = s.removed ++ s.queue)
    (hlog : List.Forall₂ Delivered (s.delivered ++ (RecvPc.release result).inFlight)
      (s.removed.filter Datagram.readable))
    (hreader : s.slot.reader = none)
    (hunread : s.queue ≠ [] → s.slot.readable = false → s.slot.hangup = false → Due s) :
    Inv (s.complete result) where
  conserved := hconserved
  log := by
    cases result with
    | ok x =>
      show List.Forall₂ Delivered ((s.delivered ++ [x]) ++ []) (s.removed.filter _)
      rw [List.append_nil]
      exact hlog
    | error error => exact hlog
  since f hf := by cases hf
  gone _ := rfl
  quiet _ _ := hreader
  unread hq hr hh _ := hunread hq hr hh
  parked f hf := by cases hf

/-- The answer of `recvmsg`. -/
theorem Inv.received (h : Inv s) {f : Future} (hf : s.receiver.future = some f)
    (hpc : s.receiver.pc = .recv) {outcome : Outcome}
    (hblock : outcome = .wouldBlock → s.queue = []) : Inv (received s f outcome) := by
  have hlog := h.log
  have hsince := h.since f hf
  rw [hpc] at hlog hsince
  -- With the queue seen empty, readiness may stay consumed.
  have hpark : s.queue = [] → Inv { s with receiver.pc := .park } := fun hnil =>
    .running hf (by simp) h.conserved hlog hsince (fun hq => absurd hnil hq)
  cases outcome with
  | interrupted => exact h
  | failed error =>
    show Inv { s with receiver.pc := .mark (.error error) }
    exact .running hf (by simp) h.conserved hlog (.inl hsince) (fun _ _ _ hh => by cases hh)
  | wouldBlock => exact hpark (hblock rfl)
  | done =>
    cases hqueue : s.queue with
    | nil =>
      have heq : Udp.received s f .done = { s with receiver.pc := .park } := by
        unfold Udp.received
        rw [hqueue]
      rw [heq]
      exact hpark hqueue
    | cons d queue =>
      have heq : Udp.received s f .done =
          { s with
            queue
            removed := s.removed ++ [d]
            receiver.pc := .mark (recvDatagram d f.room) } := by
        unfold Udp.received
        rw [hqueue]
      rw [heq]
      have hconserved : s.arrived = (s.removed ++ [d]) ++ queue := by
        rw [h.conserved, hqueue, List.append_assoc]
        rfl
      cases hd : d.readable with
      | true =>
        -- The datagram is in flight until the call returns.
        obtain ⟨x, hx, hdel⟩ := recvDatagram_spec hd f.room
        rw [hx]
        refine .running hf (by simp) hconserved ?_ ?_ (fun _ _ _ hh => by cases hh)
        · show List.Forall₂ Delivered (s.delivered ++ [x]) ((s.removed ++ [d]).filter _)
          rw [show RecvPc.inFlight (.recv : RecvPc os) = [] from rfl, List.append_nil] at hlog
          rw [List.filter_append, List.filter_cons_of_pos hd]
          exact List.rel_append hlog (.cons hdel .nil)
        · show (s.removed ++ [d]).length = f.since + 1
          have hlen : s.removed.length = f.since := hsince
          rw [List.length_append, hlen]
          rfl
      | false =>
        -- The datagram is gone, and the call returns an error.
        rw [recvDatagram_unreadable hd]
        refine .running hf (by simp) hconserved ?_ ?_ (fun _ _ _ hh => by cases hh)
        · show List.Forall₂ Delivered (s.delivered ++ []) ((s.removed ++ [d]).filter _)
          rw [List.filter_append, List.filter_cons_of_neg (by simp [hd]), List.filter_nil,
            List.append_nil (List.filter _ _)]
          exact hlog
        · exact .inr ⟨rfl, d, List.mem_append_right _ List.mem_cons_self, hd⟩

/-- The receiver's own steps. -/
theorem Inv.advance (h : Inv s) {outcome : Outcome} (hs : advance s outcome = some s') :
    Inv s' := by
  unfold Udp.advance at hs
  cases hf : s.receiver.future with
  | none => simp [hf] at hs
  | some f =>
    have hlog := h.log
    have hsince := h.since f hf
    have hunread := h.unread
    cases hpc : s.receiver.pc with
    | idle => simp [hf, hpc] at hs
    | take =>
      rw [hpc] at hlog hsince hunread
      rcases s.slot.takeReadableOrPark_cases s.receiver.waker with hc | ⟨hr, hh, hc⟩ <;>
        simp only [hf, hpc, hc, Option.some.injEq] at hs <;> subst hs
      · exact .running rfl (by simp) h.conserved hlog hsince (fun _ _ _ hh => by cases hh)
      · exact .suspend h.conserved hlog hsince (fun hq hr hh => hunread hq hr hh rfl)
          (fun _ => ⟨rfl, hr, hh⟩)
    | recv =>
      simp only [hf, hpc] at hs
      split at hs
      · cases hs
      · rename_i hnot
        cases hs
        -- The kernel says `EWOULDBLOCK` only of an empty queue.
        refine h.received hf hpc (fun hb => ?_)
        by_contra hq
        exact hnot ⟨hb, hq⟩
    | mark result =>
      rw [hpc] at hlog hsince
      simp only [hf, hpc, Option.some.injEq] at hs
      subst hs
      -- What the call has in its hands stays the same in the release.
      have hflight : (RecvPc.release result).inFlight = (RecvPc.mark result).inFlight := by
        cases result <;> rfl
      refine .running rfl (by simp) h.conserved ?_ hsince (fun _ hr => by cases hr)
      show List.Forall₂ Delivered (s.delivered ++ (RecvPc.release result).inFlight) _
      rw [hflight]
      exact hlog
    | release result =>
      rw [hpc] at hlog hunread
      simp only [hf, hpc, Option.some.injEq] at hs
      subst hs
      exact .complete h.conserved hlog rfl (fun hq hr hh => hunread hq hr hh rfl)
    | park =>
      rw [hpc] at hlog hsince hunread
      rcases s.slot.pollReadable_cases s.receiver.waker with hc | ⟨hr, hh, hc⟩ <;>
        simp only [hf, hpc, hc, Option.some.injEq] at hs <;> subst hs
      · -- An edge came in after the `recvmsg`: the caller is woken at once.
        exact .running rfl (by simp) h.conserved hlog hsince
          (fun hq hr hh _ => hunread hq hr hh rfl)
      · exact .suspend h.conserved hlog hsince (fun hq hr hh => hunread hq hr hh rfl)
          (fun _ => ⟨rfl, hr, hh⟩)
    | wakeSelf =>
      rw [hpc] at hlog hsince hunread
      simp only [hf, hpc, Option.some.injEq] at hs
      subst hs
      exact .suspend h.conserved hlog hsince (fun hq hr hh => hunread hq hr hh rfl)
        (fun hw => by cases hw)

/-- A future that is dropped takes its waker out of the slot. -/
theorem Inv.drop (h : Inv s) {f : Future} (hf : s.receiver.future = some f)
    (hpc : s.receiver.pc = .idle) :
    Inv { s with
      slot := if f.waiting then s.slot.cancelReadWait else s.slot
      receiver.future := none } ∧
    (if f.waiting then s.slot.cancelReadWait else s.slot).reader = none := by
  have hlog := h.log
  have hreader : (if f.waiting then s.slot.cancelReadWait else s.slot).reader = none := by
    cases hw : f.waiting with
    | true => rfl
    | false =>
      refine h.quiet hpc (fun g hg => ?_)
      rw [hf] at hg
      cases hg
      exact hw
  refine ⟨⟨h.conserved, h.log, fun _ hg => (by cases hg), fun _ => hpc, fun _ _ => hreader, ?_,
    fun _ hg => (by cases hg)⟩, hreader⟩
  intro hq hr hh hholds
  refine h.unread hq ?_ ?_ hholds
  · cases hw : f.waiting <;> simpa [hw, Wakers.cancelReadWait] using hr
  · cases hw : f.waiting <;> simpa [hw, Wakers.cancelReadWait] using hh

/-- Every step keeps the invariant. -/
theorem step_inv {act : Action os e} (h : Inv s) (hs : step s act = some s') : Inv s' := by
  cases act with
  | arrive d =>
    cases hs
    exact h.arrive d
  | notify =>
    cases hs
    exact h.notify
  | collect readable writable hangup =>
    simp only [step] at hs
    split at hs
    · cases hs
      exact h.collect readable writable hangup
    · cases hs
  | dispatch i =>
    simp only [step] at hs
    split at hs
    · cases hs
    · rename_i x hi
      cases hs
      exact h.dispatch hi
  | wake i =>
    simp only [step] at hs
    split at hs
    · cases hs
    · rename_i waker hi
      cases hs
      exact h.wake hi
  | create method room =>
    simp only [step] at hs
    split at hs
    · cases hs
    · rename_i hnone
      cases hs
      exact h.create hnone method room
  | poll waker =>
    simp only [step] at hs
    split at hs
    · rename_i f hf hpc
      cases hs
      exact h.startPoll hf hpc waker
    · cases hs
  | advance outcome => exact h.advance hs
  | drop =>
    simp only [step] at hs
    split at hs
    · rename_i f hf hpc
      cases hs
      exact (h.drop hf hpc).1
    · cases hs
  | sendPoll waker => exact h.send (send_spec rfl hs)
  | sendAdvance outcome => exact h.send (send_spec rfl hs)
  | sendDrop => exact h.send (send_spec rfl hs)

/-- The invariant holds in every state of every run. -/
theorem inv_of_reachable (h : (system os e).Reachable s) : Inv s :=
  h.invariant (P := Inv) (fun _ ⟨queue, h0⟩ => by rw [h0]; exact inv_new queue)
    fun _ _ _ hi hs => step_inv hi hs

/-- A parked receive with something to read has an event on its way. -/
theorem Inv.due_of_parked (h : Inv s) {f : Future} (hf : s.receiver.future = some f)
    (hwait : f.waiting = true) (hpc : s.receiver.pc = .idle) (hw : s.receiver.woken = false) :
    s.queue = [] ∨ Due s ∨ s.receiver.waker ∈ s.waking := by
  rcases h.parked f hf hwait hpc hw with ⟨-, hr, hh⟩ | hmem
  · by_cases hq : s.queue = []
    · exact .inl hq
    · exact .inr (.inl (h.unread hq hr hh (by rw [hpc]; rfl)))
  · exact .inr (.inr hmem)

/-- What is asked of the receives, in one state:

* what arrived is what `recvmsg` took and then what is queued, and between two polls what it took
  is, one for one and in order, what the completed calls returned, with a length inside the
  buffer and `truncated` set exactly when bytes were discarded;
* a future that is suspended, or is about to return an error (`ENOBUFS` among them), has taken
  nothing;
* a future that is dropped takes nothing, and leaves no waker in the read side of the slot;
* the sender's steps leave the read side of the slot alone;
* when a receive is suspended and was not woken, the queue is empty, or an event for the reader is
  queued or collected, or the dispatch of one has taken the waker and has not finished. -/
structure Receives (s : State os e) : Prop where
  conserved : s.arrived = s.removed ++ s.queue
  returned : s.receiver.pc = .idle → List.Forall₂ Delivered s.delivered s.removed
  since : ∀ f, s.receiver.future = some f →
    (s.receiver.pc = .idle ∨ ∃ error, s.receiver.pc = .release (.error error)) →
      s.removed.length = f.since
  dropped : ∀ s', step s .drop = some s' → s'.slot.reader = none ∧ s'.removed = s.removed ∧
    s'.queue = s.queue ∧ s'.delivered = s.delivered
  sends : ∀ act s', act.isSend = true → step s act = some s' →
    s'.slot.reader = s.slot.reader ∧ s'.slot.readable = s.slot.readable ∧
      s'.slot.hangup = s.slot.hangup
  parked : ∀ f, s.receiver.future = some f → f.waiting = true → s.receiver.pc = .idle →
    s.receiver.woken = false →
      s.queue = [] ∨ s.queued = true ∨ (∃ x ∈ s.collected, x.readable = true ∨ x.hangup = true) ∨
        s.receiver.waker ∈ s.waking

/-- While every sender was understood, the receives do what is asked of them. -/
theorem Inv.receives (hi : Inv s) (hread : ∀ d ∈ s.removed, d.readable = true) : Receives s where
  conserved := hi.conserved
  returned hpc := by
    have hlog := hi.log
    rw [hpc, show RecvPc.inFlight (.idle : RecvPc os) = [] from rfl, List.append_nil,
      List.filter_eq_self.mpr hread] at hlog
    exact hlog
  since f hf hpc := by
    have hsince := hi.since f hf
    rcases hpc with hpc | ⟨error, hpc⟩
    · rw [hpc] at hsince
      exact hsince
    · rw [hpc] at hsince
      rcases hsince with hsince | ⟨-, d, hd, hunread⟩
      · exact hsince
      · rw [hread d hd] at hunread
        cases hunread
  dropped s' hs := by
    simp only [step] at hs
    split at hs
    · rename_i f hf hpc
      cases hs
      exact ⟨(hi.drop hf hpc).2, rfl, rfl, rfl⟩
    · cases hs
  sends act s' hsend hs := by
    have hstep := send_spec hsend hs
    exact ⟨hstep.reader, hstep.readable, hstep.hangup⟩
  parked f hf hwait hpc hw := by
    rcases hi.due_of_parked hf hwait hpc hw with hq | (hq | ⟨x, hmem, hx⟩) | hmem
    · exact .inl hq
    · exact .inr (.inl hq)
    · exact .inr (.inr (.inl ⟨x, hmem, by simpa [Readiness.forReader] using hx⟩))
    · exact .inr (.inr (.inr hmem))

/-- What is delivered one for one was understood. -/
theorem readable_of_delivered {l : List (Delivery os)} {removed : List (Datagram os e)}
    (h : List.Forall₂ Delivered l removed) : ∀ d ∈ removed, d.readable = true := by
  induction h with
  | nil => simp
  | cons hd _ ih =>
    intro d hmem
    rcases List.mem_cons.mp hmem with rfl | hmem
    · exact hd.readable
    · exact ih d hmem

/-- Receives lose no datagram and leave no waiter behind, as long as `recvmsg` takes only datagrams
whose sender `read_from` understands, and only so long: once it took another one, that one is
returned by no call. In every run what is returned, between two polls, is what was taken from
senders that are understood, and a call that fails with any other error than `EAFNOSUPPORT`, or is
dropped, took nothing. -/
theorem udp_receives (h : (system os e).Reachable s) :
    ((∀ d ∈ s.removed, d.readable = true) → Receives s) ∧
    (s.receiver.pc = .idle → Receives s → ∀ d ∈ s.removed, d.readable = true) ∧
    (s.receiver.pc = .idle →
      List.Forall₂ Delivered s.delivered (s.removed.filter Datagram.readable)) ∧
    ∀ f, s.receiver.future = some f → (s.receiver.pc = .idle ∨
      ∃ error, error ≠ eafnosupport ∧ s.receiver.pc = .release (.error error)) →
        s.removed.length = f.since := by
  have hi := inv_of_reachable h
  refine ⟨hi.receives, fun hpc hr => readable_of_delivered (hr.returned hpc), fun hpc => ?_, ?_⟩
  · have hlog := hi.log
    rw [hpc, show RecvPc.inFlight (.idle : RecvPc os) = [] from rfl, List.append_nil] at hlog
    exact hlog
  · intro f hf hpc
    have hsince := hi.since f hf
    rcases hpc with hpc | ⟨error, hne, hpc⟩
    · rw [hpc] at hsince
      exact hsince
    · rw [hpc] at hsince
      exact hsince.resolve_right fun hr => hne hr.1

/-- A datagram from `127.0.0.1` on port 9. -/
def localDatagram (bytes : List UInt8) : Datagram .linux .little where
  name := ((Addr.v4 ⟨[127, 0, 0, 1], rfl⟩ 9).writeTo .little (Buffer.fill 128 0)).1
  nameLen := 16
  bytes

/-- A datagram of a Unix sender that is not bound, with no name. -/
def unboundDatagram (bytes : List UInt8) : Datagram .linux .little where
  name := Buffer.fill 128 0
  nameLen := 0
  bytes

/-- A buffer without room takes nothing. An empty datagram and one that is cut short are received,
the third receive parks, and then a datagram arrives: its event is queued. -/
theorem udp_receives_arrival :
    ∃ s, (system .linux .little).Reachable s ∧ s.delivered.map (·.data) = [[], [1, 2]] ∧
      s.queue ≠ [] ∧ s.queued = true := by
  obtain ⟨s, hr, hp⟩ := Lts.Reachable.exists_of_run (M := system .linux .little)
    (s := new [localDatagram [], localDatagram [1, 2, 3]])
    [.collect false true false, .dispatch 0,
      .create .recvFromBuf 0, .poll 7, .advance .done,
      .create .recvDatagram 2, .poll 7, .advance .done, .advance .done, .advance .done,
      .advance .done,
      .create .recvFrom 2, .poll 7, .advance .done, .advance .done, .advance .done, .advance .done,
      -- The kernel says that it would block, and the receive parks.
      .create .recvFrom 2, .poll 7, .advance .done, .advance .done, .advance .done,
      .arrive (localDatagram [4])]
    (fun s => s.delivered.map (·.data) = [[], [1, 2]] ∧ s.queue.isEmpty = false ∧
      s.receiver.future = some ⟨.recvFrom, 2, true, 2⟩ ∧ s.receiver.pc = .idle ∧
      s.receiver.woken = false ∧ s.collected = [] ∧ s.waking = [] ∧
      ∀ d ∈ s.removed, d.readable = true) ⟨_, rfl⟩ (by decide)
  obtain ⟨hdata, hq, hf, hpc, hw, hc, hk, hread⟩ : s.delivered.map (·.data) = [[], [1, 2]] ∧
      s.queue.isEmpty = false ∧ s.receiver.future = some ⟨.recvFrom, 2, true, 2⟩ ∧
      s.receiver.pc = .idle ∧ s.receiver.woken = false ∧ s.collected = [] ∧ s.waking = [] ∧
      ∀ d ∈ s.removed, d.readable = true := by
    simpa using hp
  have hne : s.queue ≠ [] := List.isEmpty_eq_false_iff.mp hq
  refine ⟨s, hr, hdata, hne, ?_⟩
  rcases ((udp_receives hr).1 hread).parked _ hf rfl hpc hw with
    hnil | hqueued | ⟨x, hmem, -⟩ | hmem
  · exact absurd hnil hne
  · exact hqueued
  · simp [hc] at hmem
  · simp [hk] at hmem

/-- A socket that is bound to a path gets a datagram of an unbound sender. `recvmsg` takes it, the
call returns `EAFNOSUPPORT`, and nothing has returned the datagram. -/
theorem udp_datagram_lost :
    ∃ s, (system .linux .little).Reachable s ∧ s.receiver.pc = .idle ∧ s.receiver.future = none ∧
      s.arrived.map (·.bytes) = [[1, 2]] ∧ s.queue.isEmpty ∧ s.delivered = [] ∧ ¬ Receives s := by
  obtain ⟨s, hr, hp⟩ := Lts.Reachable.exists_of_run (M := system .linux .little)
    (s := new [])
    [.arrive (unboundDatagram [1, 2]), .create .recvDatagram 8, .poll 7, .advance .done,
      .advance .done, .advance .done, .advance .done]
    (fun s => s.receiver.pc = .idle ∧ s.receiver.future = none ∧
      s.arrived.map (·.bytes) = [[1, 2]] ∧ s.queue.isEmpty ∧ s.delivered = [] ∧
      s.removed.length = 1) ⟨_, rfl⟩ (by decide)
  obtain ⟨hpc, hf, harrived, hqueue, hdelivered, hremoved⟩ := of_decide_eq_true hp
  refine ⟨s, hr, hpc, hf, harrived, hqueue, hdelivered, fun h => ?_⟩
  have hlen := (h.returned hpc).length_eq
  rw [hdelivered, hremoved] at hlen
  cases hlen

end Udp

end Nagoya.Net
