import Nagoya.Lib.Edge
import Nagoya.Proofs.Net.Stream

/-!
# `Nagoya.Proofs.Net.Stream.Reading`: bytes in the receive buffer are read

While the receive buffer has bytes, readiness is set in the receiver's slot, or held by its call, or
an event for it is on its way. A receiver that has readiness comes to its `recv`, and that takes
bytes. So the receiver is a task that waits for an edge (`readEdge`), and what it waits for comes.
-/

set_option autoImplicit false

namespace Nagoya.Net.Stream

open Nagoya.Lib Nagoya.Reactor

namespace Receiver

variable {c : Connection} {s s' : Receiver}

/-- The step is one of the task. -/
def ofTask : RecvAction → Prop
  | .poll _ | .pollAnyway _ | .advance _ | .answer => True
  | _ => False

/-- The step is one that the executor and the kernel owe to the task. -/
def owed : RecvAction → Prop
  | .poll _ | .advance .done | .answer => True
  | _ => False

theorem ofTask_of_owed {act : RecvAction} (h : owed act) : ofTask act := by
  cases act <;> trivial

/-- How far the task is from its `recv`. -/
def place (s : Receiver) : Nat :=
  match s.task with
  | .calling =>
    match s.socket.reader.pc with
    | .recv _ => 0
    | .take _ => 1
    | .idle => if s.socket.reader.returned = .pending then 6 else 2
    | .mark => 3
    | .count => 4
    | .wakeSelf => 7
    | .park => 8
  | .suspended => if s.socket.reader.woken then 2 else 5
  | _ => 2

/-- Readiness is set, or the call holds it. -/
def ready (s : Receiver) : Prop :=
  s.socket.slot.readable = true ∨ s.socket.reader.pc.holds = true

/-- An event for the reader is at a place of the collected ones. -/
def event (s : Receiver) (i : Nat) : Prop :=
  ∃ e, s.socket.collected[i]? = some e ∧ e.forReader = true

/-- The reader's waker is at a place of those that are to be woken. -/
def waking (s : Receiver) (i : Nat) : Prop :=
  s.socket.waking[i]? = some s.socket.reader.waker

/-- What can happen at the receiving end: a step there, an arrival, or nothing. -/
def Moved (s : Receiver) (act : Option RecvAction) (s' : Receiver) : Prop :=
  match act with
  | some act => s.step act = some s'
  | none => s' = s ∨ ∃ bytes, s.onSocket (.arrive bytes) = some s'

/-- Every step of the connection, as the receiving end sees it. -/
theorem moved_of_step {t t' : State} {act : Action} (hs : Stream.step c t act = some t') :
    ∃ o, Moved t.receiver o t'.receiver ∧ ∀ a, act = .receiver a ↔ o = some a := by
  cases act with
  | sender act =>
    simp only [Stream.step, Option.bind_eq_bind, Option.bind_eq_some_iff, Option.some.injEq] at hs
    obtain ⟨sender, -, rfl⟩ := hs
    exact ⟨none, .inl rfl, by simp⟩
  | receiver act =>
    simp only [Stream.step, Option.bind_eq_bind, Option.bind_eq_some_iff, Option.some.injEq] at hs
    obtain ⟨receiver, hreceiver, rfl⟩ := hs
    exact ⟨some act, hreceiver, by simp⟩
  | transmit n =>
    simp only [Stream.step, Stream.transmit, Option.ite_none_right_eq_some, Option.bind_eq_bind,
      Option.bind_eq_some_iff, Option.some.injEq] at hs
    obtain ⟨-, sender, -, receiver, hreceiver, rfl⟩ := hs
    exact ⟨none, .inr ⟨_, hreceiver⟩, by simp⟩

/-- The start of the next call, or the end of the task. -/
theorem loop_cases {waker : Waker} (hpc : s.socket.reader.pc = .idle)
    (hs : loop s waker = some s') :
    s'.socket.slot = s.socket.slot ∧ s'.socket.kernel = s.socket.kernel ∧
      s'.socket.collected = s.socket.collected ∧ s'.socket.waking = s.socket.waking ∧
      (s'.task = .returned (.ok ()) ∨
        s'.task = .calling ∧ ∃ len, s'.socket.reader.pc = .take len) := by
  unfold loop at hs
  generalize finish s.lengths s.filled s.received = next at hs
  obtain ⟨lengths, filled, received⟩ := next
  cases lengths with
  | nil =>
    cases hs
    exact ⟨rfl, rfl, rfl, rfl, .inl rfl⟩
  | cons length rest =>
    simp only [TcpRead.step, hpc, Option.bind_eq_bind, Option.bind_some] at hs
    cases hs
    refine ⟨rfl, rfl, rfl, rfl, .inr ⟨rfl, ?_⟩⟩
    simp [TcpRead.Reader.start]

/-- The loop always goes on. -/
theorem loop_isSome (waker : Waker) (hpc : s.socket.reader.pc = .idle) :
    (loop s waker).isSome = true := by
  unfold loop
  generalize finish s.lengths s.filled s.received = next
  obtain ⟨lengths, filled, received⟩ := next
  cases lengths with
  | nil => rfl
  | cons length rest => simp [TcpRead.step, hpc]

/-- A receiver that has returned has all its bytes. -/
theorem Inv.length_got (h : Inv c s) {result : Except Nagoya.Io.StreamError Unit}
    (hret : s.task = .returned result) : s.got.length = c.lengths.sum := by
  obtain ⟨-, -, hlengths⟩ : s.socket.reader.pc = .idle ∧ result = .ok () ∧ s.lengths = [] := by
    have := h.task
    rwa [TaskOk, hret] at this
  have hfilled : s.filled = [] := by
    have := h.within
    rwa [hlengths] at this
  have htaken : s.taken = [] := taken_of_not_calling (by rw [hret]; rfl)
  rw [got, hfilled, htaken, List.append_nil, List.append_nil, List.length_flatten, ← h.lengths,
    hlengths, List.append_nil]

/-- A `recv` brings no bytes to the queue. -/
theorem recv_frame (k : TcpRead.Kernel) (len : Nat) (outcome : TcpRead.Outcome) :
    (k.recv len outcome).1.queued = k.queued ∧
      (k.recv len outcome).1.data.length ≤ k.data.length := by
  cases outcome with
  | interrupted | failed _ => exact ⟨rfl, Nat.le_refl _⟩
  | done =>
    by_cases hnone : k.data = [] ∧ k.eof = false ∧ 0 < len
    · have hk : k.recv len .done = (k, .wouldBlock) := if_pos hnone
      rw [hk]
      exact ⟨rfl, Nat.le_refl _⟩
    · have hk : k.recv len .done =
          ({ k with data := k.data.drop len }, .bytes (k.data.take len)) := if_neg hnone
      rw [hk]
      exact ⟨rfl, by simp⟩

/-- A step of a call leaves what the reactor has collected, and brings no bytes. -/
theorem advance_frame {t t' : TcpRead.State} {outcome : TcpRead.Outcome}
    (hs : TcpRead.advance t outcome = some t') :
    t'.collected = t.collected ∧ t'.kernel.queued = t.kernel.queued ∧
      t'.kernel.data.length ≤ t.kernel.data.length := by
  unfold TcpRead.advance at hs
  split at hs
  · cases hs
  · split at hs <;> cases hs <;> exact ⟨rfl, rfl, Nat.le_refl _⟩
  · rename_i len _
    have hrecv := recv_frame t.kernel len outcome
    split at hs <;> rename_i hk <;> rw [hk] at hrecv
    · cases hs
      exact ⟨rfl, hrecv⟩
    · cases hs
      exact ⟨rfl, hrecv⟩
    · cases hs
      exact ⟨rfl, hrecv⟩
    · split at hs <;> cases hs <;> exact ⟨rfl, hrecv⟩
  · split at hs <;> cases hs <;> exact ⟨rfl, rfl, Nat.le_refl _⟩
  · cases hs
    exact ⟨rfl, rfl, Nat.le_refl _⟩
  · split at hs <;> cases hs <;> exact ⟨rfl, rfl, Nat.le_refl _⟩
  · cases hs
    exact ⟨rfl, rfl, Nat.le_refl _⟩

/-- A step of the task leaves what the reactor has collected, and brings no bytes. -/
theorem Inv.task_frame (h : Inv c s) {act : RecvAction} (hact : ofTask act)
    (hs : s.step act = some s') :
    s'.socket.collected = s.socket.collected ∧
      s'.socket.kernel.queued = s.socket.kernel.queued ∧
      s'.socket.kernel.data.length ≤ s.socket.kernel.data.length := by
  -- The loop begins a call at most, and that does not touch the kernel.
  have hloop : ∀ {t : Receiver} {waker : Waker}, loop t waker = some s' →
      t.socket = s.socket → s.socket.reader.pc = .idle →
      s'.socket.collected = s.socket.collected ∧
        s'.socket.kernel.queued = s.socket.kernel.queued ∧
        s'.socket.kernel.data.length ≤ s.socket.kernel.data.length := by
    intro t waker hloop hsocket hpc
    obtain ⟨-, hkernel, hcollected, -⟩ := loop_cases (by rw [hsocket]; exact hpc) hloop
    rw [hkernel, hcollected, hsocket]
    exact ⟨rfl, rfl, Nat.le_refl _⟩
  cases act with
  | poll waker =>
    simp only [Receiver.step, Option.ite_none_right_eq_some] at hs
    exact hloop hs.2 rfl (h.idle_of_waits (Task.waits_of_due hs.1))
  | pollAnyway waker =>
    simp only [Receiver.step, Option.ite_none_right_eq_some] at hs
    exact hloop hs.2 rfl (h.idle_of_waits hs.1)
  | advance outcome =>
    simp only [Receiver.step, onSocket, Option.ite_none_right_eq_some, Option.bind_eq_bind,
      Option.bind_eq_some_iff, Option.some.injEq] at hs
    obtain ⟨-, socket, hadvance, rfl⟩ := hs
    exact advance_frame hadvance
  | answer =>
    simp only [Receiver.step, Receiver.answer, Option.ite_none_right_eq_some] at hs
    obtain ⟨⟨-, hpc⟩, hs⟩ := hs
    have hsame : s.socket.collected = s.socket.collected ∧
        s.socket.kernel.queued = s.socket.kernel.queued ∧
        s.socket.kernel.data.length ≤ s.socket.kernel.data.length := ⟨rfl, rfl, Nat.le_refl _⟩
    split at hs
    · cases hs
    · cases hs
      exact hsame
    · split at hs
      · cases hs
        exact hsame
      · exact hloop hs rfl hpc
    · split at hs
      · exact hloop hs rfl hpc
      · cases hs
        exact hsame
  | collect _ | dispatch _ | wake _ => cases hact

/-- The steps that are not the task's, as the socket sees them. -/
inductive SocketStep (t : TcpRead.State) : Option RecvAction → TcpRead.State → Prop where
  | nothing : SocketStep t none t
  | arrive (bytes : List UInt8) : SocketStep t none
      { t with kernel.data := t.kernel.data ++ bytes, kernel.queued := true }
  | collect (writable : Bool) : SocketStep t (some (.collect writable))
      { t with
        kernel.queued := false
        collected := t.collected ++ [t.kernel.flags writable] }
  | dispatch (i : Nat) (e : Readiness) (hi : t.collected[i]? = some e) :
      SocketStep t (some (.dispatch i))
        { t with
          slot := (t.slot.dispatch e).1
          collected := t.collected.eraseIdx i
          waking := t.waking ++ (t.slot.dispatch e).2 }
  | wake (i : Nat) (waker : Waker) (hi : t.waking[i]? = some waker) :
      SocketStep t (some (.wake i))
        { t with waking := t.waking.eraseIdx i, reader := t.reader.wake waker }

/-- A step is one of the task, or one of the socket alone. -/
theorem task_or_socket {o : Option RecvAction} (hm : Moved s o s') :
    (∃ act, o = some act ∧ ofTask act ∧ s.step act = some s') ∨
      (∀ act, o = some act → ¬ofTask act) ∧
        ∃ socket, s' = { s with socket } ∧ SocketStep s.socket o socket := by
  cases o with
  | none =>
    rcases hm with rfl | ⟨bytes, hs⟩
    · exact .inr ⟨by simp, _, rfl, .nothing⟩
    · simp only [onSocket, TcpRead.step, Option.bind_eq_bind, Option.bind_eq_some_iff,
        Option.some.injEq] at hs
      obtain ⟨socket, hstep, rfl⟩ := hs
      split at hstep <;> cases hstep
      exact .inr ⟨by simp, _, rfl, .arrive bytes⟩
  | some act =>
    have hm : s.step act = some s' := hm
    cases act with
    | poll _ | pollAnyway _ | advance _ | answer => exact .inl ⟨_, rfl, trivial, hm⟩
    | collect writable =>
      simp only [Receiver.step, onSocket, TcpRead.step, Option.bind_eq_bind,
        Option.bind_eq_some_iff, Option.some.injEq] at hm
      obtain ⟨socket, hstep, rfl⟩ := hm
      split at hstep <;> cases hstep
      exact .inr ⟨by rintro _ ⟨⟩ ⟨⟩, _, rfl, .collect writable⟩
    | dispatch i =>
      simp only [Receiver.step, onSocket, TcpRead.step, Option.bind_eq_bind,
        Option.bind_eq_some_iff, Option.some.injEq] at hm
      obtain ⟨socket, hstep, rfl⟩ := hm
      split at hstep <;> cases hstep
      rename_i e hi
      exact .inr ⟨by rintro _ ⟨⟩ ⟨⟩, _, rfl, .dispatch i e hi⟩
    | wake i =>
      simp only [Receiver.step, onSocket, TcpRead.step, Option.bind_eq_bind,
        Option.bind_eq_some_iff, Option.some.injEq] at hm
      obtain ⟨socket, hstep, rfl⟩ := hm
      split at hstep <;> cases hstep
      rename_i waker hi
      exact .inr ⟨by rintro _ ⟨⟩ ⟨⟩, _, rfl, .wake i waker hi⟩

/-- A wake sets `woken`, when it is the reader's. -/
theorem wake_cases (r : TcpRead.Reader) (waker : Waker) :
    waker = r.waker ∧ r.wake waker = { r with woken := true } ∨
      waker ≠ r.waker ∧ r.wake waker = r := by
  by_cases heq : waker = r.waker
  · exact .inl ⟨heq, if_pos heq⟩
  · exact .inr ⟨heq, if_neg heq⟩

/-- What a step that is not one of the task leaves of the task, and what it may add. -/
structure Frame (s s' : Receiver) : Prop where
  task : s'.task = s.task
  pc : s'.socket.reader.pc = s.socket.reader.pc
  returned : s'.socket.reader.returned = s.socket.reader.returned
  waker : s'.socket.reader.waker = s.socket.reader.waker
  woken : s.socket.reader.woken = true → s'.socket.reader.woken = true
  readable : s.socket.slot.readable = true → s'.socket.slot.readable = true
  got : s'.got = s.got
  data : ∃ bytes, s'.socket.kernel.data = s.socket.kernel.data ++ bytes

theorem Frame.ready (h : Frame s s') (hready : s.ready) : s'.ready := by
  refine hready.imp h.readable fun hholds => ?_
  rw [h.pc]
  exact hholds

/-- What goes on around the task does not take it back. -/
theorem Frame.place (h : Frame s s') : s'.place ≤ s.place := by
  unfold Receiver.place
  rw [h.task, h.pc, h.returned]
  cases s.task with
  | suspended =>
    cases hw : s.socket.reader.woken with
    | true => simp [h.woken hw]
    | false => cases s'.socket.reader.woken <;> simp
  | calling | spawned | panicked | returned _ => exact Nat.le_refl _

/-- A step that is not one of the task leaves the task where it is. -/
theorem SocketStep.frame {o : Option RecvAction} {socket : TcpRead.State}
    (hm : SocketStep s.socket o socket) : Frame s { s with socket } := by
  have hsame : ∃ bytes, s.socket.kernel.data = s.socket.kernel.data ++ bytes :=
    ⟨[], (List.append_nil _).symm⟩
  cases hm with
  | nothing => exact ⟨rfl, rfl, rfl, rfl, id, id, rfl, hsame⟩
  | arrive bytes => exact ⟨rfl, rfl, rfl, rfl, id, id, rfl, bytes, rfl⟩
  | collect writable => exact ⟨rfl, rfl, rfl, rfl, id, id, rfl, hsame⟩
  | dispatch i e hi =>
    refine ⟨rfl, rfl, rfl, rfl, id, ?_, rfl, hsame⟩
    intro hr
    simp [hr]
  | wake i waker hi =>
    rcases wake_cases s.socket.reader waker with ⟨-, hwake⟩ | ⟨-, hwake⟩ <;> rw [hwake]
    · exact ⟨rfl, rfl, rfl, rfl, fun _ => rfl, id, rfl, hsame⟩
    · exact ⟨rfl, rfl, rfl, rfl, id, id, rfl, hsame⟩

/-- The receiver gets bytes, or has what it had and the receive buffer has no fewer. -/
theorem Inv.gets (h : Inv c s) {o : Option RecvAction} (hm : Moved s o s') :
    s.got.length < s'.got.length ∨
      s'.got = s.got ∧ ∃ bytes, s'.socket.kernel.data = s.socket.kernel.data ++ bytes := by
  rcases task_or_socket hm with ⟨act, rfl, hact, hm⟩ | ⟨-, socket, rfl, hstep⟩
  · have hle := (h.task_frame hact hm).2.2
    have hbytes := (h.step hm).bytes
    have hlen := congrArg List.length hbytes
    simp only [List.length_append] at hlen
    rcases Nat.lt_or_ge s.got.length s'.got.length with hlt | hge
    · exact .inl hlt
    · obtain ⟨hgot, hdata⟩ := List.append_inj hbytes (by omega)
      exact .inr ⟨hgot, [], by rw [hdata, List.append_nil]⟩
  · exact .inr ⟨hstep.frame.got, hstep.frame.data⟩

/-- While the receive buffer is empty, no step of the receiver gets bytes. -/
theorem Inv.stays_empty (h : Inv c s) (hdata : s.socket.kernel.data = []) {act : RecvAction}
    (hs : s.step act = some s') : s'.got = s.got ∧ s'.socket.kernel.data = [] := by
  have hbytes := congrArg List.length (h.step hs).bytes
  simp only [hdata, List.length_append, List.length_nil] at hbytes
  rcases h.gets (o := some act) hs with hlt | ⟨hgot, -⟩
  · omega
  · refine ⟨hgot, List.length_eq_zero_iff.mp ?_⟩
    rw [hgot] at hbytes
    omega

/-- A call that is ready comes closer to its `recv`, or takes bytes. -/
theorem Inv.advance_closer (h : Inv c s) (hcalling : s.task = .calling) (hready : s.ready)
    (hdata : s.socket.kernel.data ≠ []) {outcome : TcpRead.Outcome}
    (hs : s.step (.advance outcome) = some s') :
    s.got.length < s'.got.length ∨
      s'.ready ∧ s'.place ≤ s.place ∧ (outcome = .done → s'.place < s.place) := by
  have hbytes := (h.step hs).bytes
  obtain ⟨hleft, hcall⟩ : 0 < s.left ∧ CallOk s.left s.socket.reader := by
    have := h.task
    rwa [TaskOk, hcalling] at this
  simp only [Receiver.step, onSocket, Option.ite_none_right_eq_some, Option.bind_eq_bind,
    Option.bind_eq_some_iff, Option.some.injEq] at hs
  obtain ⟨⟨-, hok⟩, socket, hadvance, rfl⟩ := hs
  simp only [TcpRead.step, TcpRead.advance] at hadvance
  rw [CallOk] at hcall
  cases hpc : s.socket.reader.pc with
  | idle => simp [hpc] at hadvance
  | take len =>
    -- The call does not hold readiness yet, so the slot has it.
    have hreadable : s.socket.slot.readable = true := by
      refine hready.resolve_right ?_
      simp [hpc, TcpRead.Pc.holds]
    simp only [hpc, Wakers.takeReadableOrPark, hreadable, Bool.true_or, if_true,
      Option.some.injEq] at hadvance
    subst hadvance
    right
    simp [ready, place, hcalling, hpc, TcpRead.Pc.holds]
  | recv len =>
    cases outcome with
    | failed error =>
      rw [hpc] at hok
      cases hok
    | interrupted =>
      simp only [hpc, TcpRead.Kernel.recv, Option.some.injEq] at hadvance
      subst hadvance
      right
      simp [ready, place, hcalling, hpc, TcpRead.Pc.holds]
    | done =>
      -- The queue has bytes and the buffer has room, so some are taken.
      left
      have hlen : len = s.left := by rwa [hpc] at hcall
      have hsome : ¬(s.socket.kernel.data = [] ∧ s.socket.kernel.eof = false ∧ 0 < len) :=
        fun hnone => hdata hnone.1
      have hdrop : socket.kernel.data = s.socket.kernel.data.drop len := by
        simp only [hpc, TcpRead.Kernel.recv, if_neg hsome] at hadvance
        split at hadvance <;> cases hadvance <;> rfl
      have hpos : 0 < s.socket.kernel.data.length := List.length_pos_iff.mpr hdata
      have hsum := congrArg List.length hbytes
      simp only [List.length_append, hdrop, List.length_drop] at hsum
      omega
  | count =>
    right
    -- Bytes are queued, so `FIONREAD` does not answer zero.
    have hpending : ∀ n, s.socket.kernel.pending outcome = some n → n ≠ 0 := by
      intro n hn
      cases outcome with
      | done =>
        cases hn
        exact fun hzero => hdata (List.length_eq_zero_iff.mp hzero)
      | interrupted | failed _ => cases hn
    simp only [hpc] at hadvance
    split at hadvance <;> cases hadvance
    · rename_i hzero
      exact absurd rfl (hpending 0 hzero)
    · simp [ready, place, hcalling, hpc, TcpRead.Pc.holds]
  | mark =>
    simp only [hpc, Option.some.injEq] at hadvance
    subst hadvance
    right
    simp [ready, place, hcalling, hpc, Wakers.markReadable]
  | park =>
    have hreadable : s.socket.slot.readable = true := by
      refine hready.resolve_right ?_
      simp [hpc, TcpRead.Pc.holds]
    simp only [hpc, Wakers.pollReadable, hreadable, Bool.true_or, if_true,
      Option.some.injEq] at hadvance
    subst hadvance
    right
    simp [ready, place, hcalling, hpc, hreadable]
  | wakeSelf =>
    have hreadable : s.socket.slot.readable = true := by
      refine hready.resolve_right ?_
      simp [hpc, TcpRead.Pc.holds]
    simp only [hpc, Option.some.injEq] at hadvance
    subst hadvance
    right
    simp [ready, place, hcalling, hpc, hreadable]

/-- A task that makes its next call is close to its `recv`, and one that has returned has its
bytes. -/
theorem loop_closer {t : Receiver} {waker : Waker} (hpc : t.socket.reader.pc = .idle)
    (hreadable : t.socket.slot.readable = true) (hs : loop t waker = some s') (hinv : Inv c s') :
    s'.got.length = c.lengths.sum ∨ s'.ready ∧ s'.place = 1 := by
  obtain ⟨hslot, -, -, -, hret | ⟨hcalling, len, htake⟩⟩ := loop_cases hpc hs
  · exact .inl (hinv.length_got hret)
  · refine .inr ⟨.inl (by rw [hslot]; exact hreadable), ?_⟩
    simp [place, hcalling, htake]

/-- A task that waits has a place of its own. -/
theorem place_of_waits (h : s.task.waits = true) :
    s.place = if s.task.due s.socket.reader.woken then 2 else 5 := by
  cases ht : s.task with
  | spawned => simp [place, ht, Task.due]
  | suspended => cases hw : s.socket.reader.woken <;> simp [place, ht, hw, Task.due]
  | calling | panicked | returned _ => simp [ht, Task.waits] at h

/-- While the receive buffer has bytes, every step of a task that is ready brings it closer to its
`recv`, or takes bytes, or ends it with all its bytes. -/
theorem Inv.closer (h : Inv c s) (hready : s.ready) (hdata : s.socket.kernel.data ≠ [])
    {act : RecvAction} (hact : ofTask act) (hs : s.step act = some s') :
    s.got.length < s'.got.length ∨ s'.got.length = c.lengths.sum ∨
      s'.ready ∧ s'.place ≤ s.place ∧
        (owed act ∨ s.task.waits = true → s'.place < s.place) := by
  have hinv := (h.step hs).inv
  -- A call that is not in progress holds nothing, so the slot has the readiness.
  have hidle : s.socket.reader.pc = .idle → s.socket.slot.readable = true := by
    intro hpc
    refine hready.resolve_right ?_
    simp [hpc, TcpRead.Pc.holds]
  have hwaits : ∀ {waker : Waker}, s.task.waits = true → loop s waker = some s' →
      s'.got.length = c.lengths.sum ∨ s'.ready ∧ s'.place < s.place := by
    intro waker hwaits hloop
    have hpc := h.idle_of_waits hwaits
    refine (loop_closer hpc (hidle hpc) hloop hinv).imp id ?_
    rintro ⟨hready', hplace⟩
    refine ⟨hready', ?_⟩
    rw [hplace, place_of_waits hwaits]
    split <;> decide
  cases act with
  | poll waker =>
    simp only [Receiver.step, Option.ite_none_right_eq_some] at hs
    right
    refine (hwaits (Task.waits_of_due hs.1) hs.2).imp id ?_
    rintro ⟨hr, hlt⟩
    exact ⟨hr, hlt.le, fun _ => hlt⟩
  | pollAnyway waker =>
    simp only [Receiver.step, Option.ite_none_right_eq_some] at hs
    right
    refine (hwaits hs.1 hs.2).imp id ?_
    rintro ⟨hr, hlt⟩
    exact ⟨hr, hlt.le, fun _ => hlt⟩
  | advance outcome =>
    have hcalling : s.task = .calling := by
      simp only [Receiver.step, Option.ite_none_right_eq_some] at hs
      exact Task.eq_calling hs.1.1
    rcases h.advance_closer hcalling hready hdata hs with hlt | ⟨hready', hle, hlt⟩
    · exact .inl hlt
    · refine .inr (.inr ⟨hready', hle, ?_⟩)
      rintro (howed | hwaits)
      · cases outcome with
        | done => exact hlt rfl
        | interrupted | failed _ => cases howed
      · rw [hcalling] at hwaits
        cases hwaits
  | answer =>
    right
    simp only [Receiver.step, Option.ite_none_right_eq_some] at hs
    obtain ⟨⟨hcalling, hpc⟩, hs⟩ := hs
    have htask := Task.eq_calling hcalling
    have hcall : CallOk s.left s.socket.reader := by
      have := h.task
      rw [TaskOk, htask] at this
      exact this.2
    rw [CallOk, hpc] at hcall
    unfold Receiver.answer at hs
    cases hret : s.socket.reader.returned with
    | nothing => simp [hret] at hs
    | failed error => simp [hret] at hcall
    | pending =>
      simp only [hret, Option.some.injEq] at hs
      subst hs
      have hlt : ({ s with task := .suspended } : Receiver).place < s.place := by
        have hplace : s.place = 6 := by simp [place, htask, hpc, hret]
        rw [hplace, place_of_waits rfl]
        split <;> decide
      exact .inr ⟨.inl (hidle hpc), hlt.le, fun _ => hlt⟩
    | ready data =>
      simp only [hret] at hcall hs
      rw [if_neg hcall.1] at hs
      have hplace : s.place = 2 := by simp [place, htask, hpc, hret]
      refine (loop_closer (t := { s with filled := s.filled ++ data }) hpc (hidle hpc) hs
        hinv).imp id ?_
      rintro ⟨hready', hplace'⟩
      refine ⟨hready', ?_, fun _ => ?_⟩
      · omega
      · omega
  | collect _ | dispatch _ | wake _ => cases hact

/-- A task that is ready, does not sleep and has not returned has a next step. -/
theorem Inv.enabled (h : Inv c s) (hplace : s.place ≠ 5)
    (hret : ∀ result, s.task ≠ .returned result) :
    ∃ act, owed act ∧ (s.step act).isSome = true := by
  have htask := h.task
  unfold TaskOk at htask
  cases ht : s.task with
  | spawned =>
    simp only [ht] at htask
    refine ⟨.poll 0, trivial, ?_⟩
    simp only [Receiver.step, ht, Task.due, if_true]
    exact loop_isSome 0 htask
  | suspended =>
    simp only [ht] at htask
    -- The one place where the task sleeps is excluded.
    have hwoken : s.socket.reader.woken = true := by
      by_contra hw
      exact hplace (by simp [place, ht, hw])
    refine ⟨.poll 0, trivial, ?_⟩
    simp only [Receiver.step, ht, Task.due, hwoken, if_true]
    exact loop_isSome 0 htask.1
  | calling =>
    simp only [ht] at htask
    obtain ⟨hleft, hcall⟩ := htask
    rw [CallOk] at hcall
    cases hpc : s.socket.reader.pc with
    | idle =>
      rw [hpc] at hcall
      refine ⟨.answer, trivial, ?_⟩
      simp only [Receiver.step, ht, Task.isCalling, hpc, and_self, if_true, Receiver.answer]
      cases hr : s.socket.reader.returned with
      | nothing => simp [hr] at hcall
      | failed error => simp [hr] at hcall
      | pending => rfl
      | ready data =>
        simp only [hr] at hcall ⊢
        rw [if_neg hcall.1]
        exact loop_isSome (s := { s with filled := s.filled ++ data }) _ hpc
    | recv len =>
      refine ⟨.advance .done, trivial, ?_⟩
      simp only [Receiver.step, ht, Task.isCalling, hpc, answers, and_self, if_true, onSocket,
        TcpRead.step, TcpRead.advance, TcpRead.Kernel.recv]
      by_cases hnone : s.socket.kernel.data = [] ∧ s.socket.kernel.eof = false ∧ 0 < len
      · simp [if_pos hnone]
      · simp only [if_neg hnone]
        split <;> rfl
    | take len =>
      refine ⟨.advance .done, trivial, ?_⟩
      simp only [Receiver.step, ht, Task.isCalling, hpc, answers, and_self, if_true, onSocket,
        TcpRead.step, TcpRead.advance]
      rcases s.socket.slot.takeReadableOrPark_cases s.socket.reader.waker with
        hc | ⟨-, -, hc⟩ <;> simp [hc]
    | count =>
      refine ⟨.advance .done, trivial, ?_⟩
      simp only [Receiver.step, ht, Task.isCalling, hpc, answers, and_self, if_true, onSocket,
        TcpRead.step, TcpRead.advance]
      split <;> rfl
    | park =>
      refine ⟨.advance .done, trivial, ?_⟩
      simp only [Receiver.step, ht, Task.isCalling, hpc, answers, and_self, if_true, onSocket,
        TcpRead.step, TcpRead.advance]
      rcases s.socket.slot.pollReadable_cases s.socket.reader.waker with
        hc | ⟨-, -, hc⟩ <;> simp [hc]
    | mark | wakeSelf =>
      refine ⟨.advance .done, trivial, ?_⟩
      simp [Receiver.step, ht, Task.isCalling, hpc, answers, onSocket, TcpRead.step,
        TcpRead.advance]
  | panicked => simp [ht] at htask
  | returned result => exact absurd ht (hret result)

/-- A task that sleeps although it is ready is about to be woken. -/
theorem Inv.waking_of_asleep (h : Inv c s) (hready : s.ready) (hplace : s.place = 5) :
    s.task = .suspended ∧ s.socket.reader.woken = false ∧ ∃ i, s.waking i := by
  have htask := h.task
  unfold TaskOk at htask
  cases ht : s.task with
  | suspended =>
    simp only [ht] at htask
    have hwoken : s.socket.reader.woken = false := by
      cases hw : s.socket.reader.woken with
      | false => rfl
      | true => simp [place, ht, hw] at hplace
    refine ⟨rfl, hwoken, ?_⟩
    rcases h.socket.parked htask.1 htask.2.1 hwoken with ⟨-, hr, -⟩ | hmem
    · rcases hready with hready | hholds
      · rw [hr] at hready
        cases hready
      · simp [htask.1, TcpRead.Pc.holds] at hholds
    · exact List.getElem?_of_mem hmem
  | calling =>
    simp only [place, ht] at hplace
    split at hplace <;> first | omega | skip
    split at hplace <;> omega
  | spawned | panicked | returned _ => simp [place, ht] at hplace

/-- The waker of a task that sleeps moves up, or the task sleeps no longer. `wake 0` does one or
the other. -/
theorem SocketStep.waking {i : Nat} {o : Option RecvAction} {socket : TcpRead.State}
    (hm : SocketStep s.socket o socket) (htask : s.task = .suspended) (hi : s.waking i) :
    ({ s with socket } : Receiver).place < 5 ∨
      ∃ j, ({ s with socket } : Receiver).waking j ∧ j ≤ i ∧ (o = some (.wake 0) → j < i) := by
  cases hm with
  | nothing | arrive _ | collect _ => exact .inr ⟨i, hi, Nat.le_refl i, by simp⟩
  | dispatch j e hj =>
    refine .inr ⟨i, ?_, Nat.le_refl i, by simp⟩
    show (s.socket.waking ++ _)[i]? = _
    rw [List.getElem?_append_left (List.getElem?_eq_some_iff.mp hi).1]
    exact hi
  | wake j waker hj =>
    rcases wake_cases s.socket.reader waker with ⟨-, hwake⟩ | ⟨hne, hwake⟩
    · left
      simp [place, htask, hwake]
    · right
      have hij : j ≠ i := by
        rintro rfl
        exact hne (Option.some.inj (hj.symm.trans hi))
      obtain ⟨k, hk, hle, hlt⟩ := getElem?_eraseIdx_of_ne hi hij
      refine ⟨k, ?_, hle, ?_⟩
      · show (s.socket.waking.eraseIdx j)[k]? = some (s.socket.reader.wake waker).waker
        rw [hwake]
        exact hk
      · intro hwake0
        cases hwake0
        exact hlt (Nat.pos_of_ne_zero fun h => hij h.symm)

/-- An event that waits to be dispatched moves up, or makes the task ready. `dispatch 0` does one or
the other. -/
theorem SocketStep.event_place {i : Nat} {o : Option RecvAction} {socket : TcpRead.State}
    (hm : SocketStep s.socket o socket) (hi : s.event i) :
    ({ s with socket } : Receiver).ready ∨
      ∃ j, ({ s with socket } : Receiver).event j ∧ j ≤ i ∧
        (o = some (.dispatch 0) → j < i) := by
  obtain ⟨e, hi, he⟩ := hi
  cases hm with
  | nothing | arrive _ | wake _ _ _ => exact .inr ⟨i, ⟨e, hi, he⟩, Nat.le_refl i, by simp⟩
  | collect writable =>
    refine .inr ⟨i, ⟨e, ?_, he⟩, Nat.le_refl i, by simp⟩
    show (s.socket.collected ++ _)[i]? = _
    rw [List.getElem?_append_left (List.getElem?_eq_some_iff.mp hi).1]
    exact hi
  | dispatch j e' hj =>
    by_cases hij : j = i
    · subst hij
      cases hi.symm.trans hj
      left
      left
      simp [he]
    · right
      obtain ⟨k, hk, hle, hlt⟩ := getElem?_eraseIdx_of_ne hi hij
      refine ⟨k, ⟨e, hk, he⟩, hle, ?_⟩
      intro hdispatch
      cases hdispatch
      exact hlt (Nat.pos_of_ne_zero fun h => hij h.symm)

/-- A queued event stays, or is collected. While the queue has bytes it is one for the reader. -/
theorem SocketStep.queued {o : Option RecvAction} {socket : TcpRead.State}
    (hm : SocketStep s.socket o socket) (hdata : s.socket.kernel.data ≠ [])
    (hq : s.socket.kernel.queued = true) :
    (∃ i, ({ s with socket } : Receiver).event i) ∨
      socket.kernel.queued = true ∧ ∀ writable, o ≠ some (.collect writable) := by
  cases hm with
  | nothing | dispatch _ _ _ | wake _ _ _ => exact .inr ⟨hq, by simp⟩
  | arrive bytes => exact .inr ⟨rfl, by simp⟩
  | collect writable =>
    left
    refine ⟨s.socket.collected.length, s.socket.kernel.flags writable, ?_, ?_⟩
    · show (s.socket.collected ++ _)[s.socket.collected.length]? = _
      rw [List.getElem?_concat_length]
    · simp [Readiness.forReader, TcpRead.Kernel.flags, hdata]

end Receiver

variable {c : Connection}

/-- The receiver as a task that waits for an edge. -/
def readEdge : Lts.Edge State Action where
  queued s := s.receiver.socket.kernel.queued = true
  event i s := s.receiver.event i
  ready s := s.receiver.ready
  place s := s.receiver.place
  bed := 5
  waking i s := s.receiver.waking i
  task a := ∃ act, a = .receiver act ∧ Receiver.owed act
  collect a := ∃ writable, a = .receiver (.collect writable)
  dispatch a := a = .receiver (.dispatch 0)
  wake a := a = .receiver (.wake 0)

/-- The party of a step that is possible at the receiving end can step. -/
theorem enabled_receiver {s : State} {p : Action → Prop} {act : RecvAction}
    (hp : p (.receiver act)) (h : (s.receiver.step act).isSome = true) :
    (system c).Enabled p s := by
  refine ⟨.receiver act, hp, ?_⟩
  obtain ⟨receiver, hs⟩ := Option.isSome_iff_exists.mp h
  show (Stream.step c s (.receiver act)).isSome = true
  simp [Stream.step, hs]

/-- What the receiver does while the receive buffer has bytes and it does not get them. -/
theorem reading (hfits : c.Fits) {k : Nat} (hk : k < c.lengths.sum) :
    Lts.EdgeWait (system c) readEdge
      (fun s => s.receiver.got.length = k ∧ s.receiver.socket.kernel.data ≠ [])
      (fun s => k < s.receiver.got.length) where
  lasts := by
    rintro s a s' hr ⟨rfl, hdata⟩ hn
    obtain ⟨o, hm, -⟩ := Receiver.moved_of_step hn
    refine ((inv_of_reachable hfits hr).receiver.gets hm).imp id ?_
    rintro ⟨hgot, bytes, hbytes⟩
    exact ⟨by rw [hgot], by simp [hbytes, hdata]⟩
  cover := by
    rintro s hr ⟨rfl, hdata⟩
    have h := (inv_of_reachable hfits hr).receiver
    -- Without readiness the socket owes an event for what is unread.
    by_cases hready : s.receiver.ready
    · exact .inl hready
    · simp only [Receiver.ready, not_or, Bool.not_eq_true] at hready
      rcases h.socket.unread hdata hready.1 h.hangup hready.2 with hq | ⟨e, hmem, he⟩
      · exact .inr (.inr hq)
      · obtain ⟨i, hi⟩ := List.getElem?_of_mem hmem
        exact .inr (.inl ⟨i, e, hi, he⟩)
  queued_keep := by
    rintro s a s' hr ⟨rfl, hdata⟩ hq hn
    have h := (inv_of_reachable hfits hr).receiver
    obtain ⟨o, hm, ha⟩ := Receiver.moved_of_step hn
    right
    -- Only the poller takes the edge, and it makes an event of it.
    rcases Receiver.task_or_socket hm with ⟨act, rfl, hact, hm⟩ | ⟨hnot, socket, hs', hstep⟩
    · refine .inr ⟨(h.task_frame hact hm).2.1.trans hq, ?_⟩
      rintro ⟨writable, rfl⟩
      cases (ha _).mp rfl
      exact hact
    · rcases hstep.queued hdata hq with he | ⟨hq', hnot⟩
      · left
        show ∃ i, s'.receiver.event i
        rw [hs']
        exact he
      · right
        refine ⟨?_, ?_⟩
        · show s'.receiver.socket.kernel.queued = true
          rw [hs']
          exact hq'
        · rintro ⟨writable, rfl⟩
          exact hnot writable ((ha _).mp rfl)
  queued_enabled := by
    rintro s hr - hq
    have hq : s.receiver.socket.kernel.queued = true := hq
    refine enabled_receiver ⟨false, rfl⟩ ?_
    simp [Receiver.step, Receiver.onSocket, TcpRead.step, hq]
  event_keep := by
    rintro i s a s' hr ⟨rfl, -⟩ he hn
    have h := (inv_of_reachable hfits hr).receiver
    obtain ⟨o, hm, ha⟩ := Receiver.moved_of_step hn
    right
    -- The events before this one can only become fewer.
    rcases Receiver.task_or_socket hm with ⟨act, rfl, hact, hm⟩ | ⟨hnot, socket, hs', hstep⟩
    · refine .inr ⟨i, ?_, Nat.le_refl i, ?_⟩
      · show s'.receiver.event i
        rw [Receiver.event, (h.task_frame hact hm).1]
        exact he
      · rintro rfl
        cases (ha _).mp rfl
        exact hact.elim
    · show s'.receiver.ready ∨ ∃ j, s'.receiver.event j ∧ _
      rw [hs']
      refine (hstep.event_place he).imp id ?_
      rintro ⟨j, hj, hle, hlt⟩
      exact ⟨j, hj, hle, fun hdispatch => hlt ((ha _).mp hdispatch)⟩
  event_enabled := by
    rintro i s hr - ⟨e, hi, -⟩
    have hlen := (List.getElem?_eq_some_iff.mp hi).1
    refine enabled_receiver rfl ?_
    simp [Receiver.step, Receiver.onSocket, TcpRead.step,
      List.getElem?_eq_getElem (Nat.zero_lt_of_lt hlen)]
  ready_keep := by
    rintro s a s' hr ⟨rfl, hdata⟩ hready hn
    have h := (inv_of_reachable hfits hr).receiver
    obtain ⟨o, hm, ha⟩ := Receiver.moved_of_step hn
    rcases Receiver.task_or_socket hm with ⟨act, rfl, hact, hm⟩ | ⟨hnot, socket, hs', hstep⟩
    · rcases h.closer hready hdata hact hm with hlt | hall | ⟨hready', hle, hlt⟩
      · exact .inl hlt
      · exact .inl (by omega)
      · refine .inr ⟨hready', hle, ?_⟩
        rintro ⟨act', rfl, howed⟩ -
        cases (ha _).mp rfl
        exact hlt (.inl howed)
    · right
      show s'.receiver.ready ∧ s'.receiver.place ≤ _ ∧ _
      rw [hs']
      refine ⟨hstep.frame.ready hready, hstep.frame.place, ?_⟩
      rintro ⟨act, rfl, howed⟩ -
      exact absurd (Receiver.ofTask_of_owed howed) (hnot act ((ha _).mp rfl))
  ready_enabled := by
    rintro s hr ⟨rfl, -⟩ - hplace
    have h := (inv_of_reachable hfits hr).receiver
    obtain ⟨act, howed, hsome⟩ := h.enabled hplace fun result hret => by
      have := h.length_got hret
      omega
    exact enabled_receiver ⟨act, rfl, howed⟩ hsome
  asleep := fun s hr _ hready hplace =>
    ((inv_of_reachable hfits hr).receiver.waking_of_asleep hready hplace).2.2
  waking_keep := by
    rintro i s a s' hr ⟨rfl, hdata⟩ hready hplace hi hn
    have h := (inv_of_reachable hfits hr).receiver
    obtain ⟨o, hm, ha⟩ := Receiver.moved_of_step hn
    obtain ⟨htask, hwoken, -⟩ := h.waking_of_asleep hready hplace
    rcases Receiver.task_or_socket hm with ⟨act, rfl, hact, hm⟩ | ⟨hnot, socket, hs', hstep⟩
    · -- The executor may poll a task that sleeps.
      rcases h.closer hready hdata hact hm with hlt | hall | ⟨-, -, hlt⟩
      · exact .inl hlt
      · exact .inl (by omega)
      · exact .inr (.inl (hplace ▸ hlt (.inr (by rw [htask]; rfl))))
    · right
      show s'.receiver.place < 5 ∨ ∃ j, s'.receiver.waking j ∧ _
      rw [hs']
      refine (hstep.waking htask hi).imp id ?_
      rintro ⟨j, hj, hle, hlt⟩
      exact ⟨j, hj, hle, fun hwake => hlt ((ha _).mp hwake)⟩
  waking_enabled := by
    rintro i s hr - - - hi
    have hlen := (List.getElem?_eq_some_iff.mp hi).1
    refine enabled_receiver rfl ?_
    simp [Receiver.step, Receiver.onSocket, TcpRead.step,
      List.getElem?_eq_getElem (Nat.zero_lt_of_lt hlen)]

end Nagoya.Net.Stream
