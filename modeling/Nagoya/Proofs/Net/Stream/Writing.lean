import Nagoya.Proofs.Net.Stream.Reading

/-!
# `Nagoya.Proofs.Net.Stream.Writing`: an empty send buffer is filled

While the send buffer is empty no send was turned away since the last writable event, or that event
is on its way. A sender that has readiness comes to its `send`, and an empty buffer accepts some of
it. So the sender, too, is a task that waits for an edge (`writeEdge`).
-/

set_option autoImplicit false

namespace Nagoya.Net.Stream

open Nagoya.Lib Nagoya.Reactor

open WriteAll (Source iovecs)

variable {c : Connection}

/-- Nothing is transmitted from an empty buffer. -/
theorem transmit_empty {s : State} (hsent : s.sender.sent = []) (n : Nat) :
    transmit c s n = none := by
  unfold transmit
  split
  · rename_i hn
    have hzero : n = 0 := by simpa [hsent] using hn.1
    simp [Sender.onSocket, TcpWrite.step, TcpWrite.Kernel.drain, hzero]
  · rfl

namespace Sender

variable {s s' : Sender}

/-- The step is one of the task. -/
def ofTask : SendAction → Prop
  | .poll _ | .pollAnyway _ | .advance _ | .answer => True
  | _ => False

/-- The step is one that the executor and the kernel owe to the task. -/
def owed : SendAction → Prop
  | .poll _ | .advance (.accepted _) | .advance .refused | .answer => True
  | _ => False

theorem ofTask_of_owed {act : SendAction} (h : owed act) : ofTask act := by
  cases act <;> trivial

/-- How far the task is from its `send`. -/
def place (s : Sender) : Nat :=
  match s.task with
  | .calling =>
    match s.socket.writer.pc with
    | .send _ => 0
    | .take _ => 1
    | .idle => if s.socket.writer.returned = .pending then 6 else 2
    | .mark _ => 3
    | .wakeSelf => 7
    | .park => 8
  | .suspended => if s.socket.writer.woken then 2 else 5
  | _ => 2

/-- Readiness is set, or the call holds it. -/
def ready (s : Sender) : Prop :=
  s.socket.slot.writable = true ∨ s.socket.writer.pc.holds = true

/-- An event for the writer is at a place of the collected ones. -/
def event (s : Sender) (i : Nat) : Prop :=
  ∃ e, s.socket.collected[i]? = some e ∧ e.writable = true

/-- The writer's waker is at a place of those that are to be woken. -/
def waking (s : Sender) (i : Nat) : Prop :=
  s.socket.waking[i]? = some s.socket.writer.waker

/-- What can happen at the sending end while the send buffer is empty: a step there, or nothing. -/
def Moved (s : Sender) (act : Option SendAction) (s' : Sender) : Prop :=
  match act with
  | some act => s.step act = some s'
  | none => s' = s

/-- Every step of the connection, as a sending end with an empty buffer sees it. -/
theorem moved_of_step {t t' : State} {act : Action} (hsent : t.sender.sent = [])
    (hs : Stream.step c t act = some t') :
    ∃ o, Moved t.sender o t'.sender ∧ ∀ a, act = .sender a ↔ o = some a := by
  cases act with
  | sender act =>
    simp only [Stream.step, Option.bind_eq_bind, Option.bind_eq_some_iff, Option.some.injEq] at hs
    obtain ⟨sender, hsender, rfl⟩ := hs
    exact ⟨some act, hsender, by simp⟩
  | receiver act =>
    simp only [Stream.step, Option.bind_eq_bind, Option.bind_eq_some_iff, Option.some.injEq] at hs
    obtain ⟨receiver, -, rfl⟩ := hs
    exact ⟨none, rfl, by simp⟩
  | transmit n =>
    cases (transmit_empty hsent n).symm.trans hs

/-- The start of the next call, or the end of the task. -/
theorem loop_cases {waker : Waker} (hpc : s.socket.writer.pc = .idle)
    (hs : loop s waker = some s') :
    s'.socket.slot = s.socket.slot ∧ s'.socket.kernel = s.socket.kernel ∧
      s'.socket.collected = s.socket.collected ∧ s'.sent = s.sent ∧
      (s'.task = .returned (.ok ()) ∨ s'.task = .panicked ∨
        s'.task = .calling ∧ ∃ wanted, s'.socket.writer.pc = .take wanted) := by
  unfold loop at hs
  generalize finish s.sources s.written = next at hs
  obtain ⟨sources, written⟩ := next
  cases sources with
  | nil =>
    cases hs
    exact ⟨rfl, rfl, rfl, rfl, .inl rfl⟩
  | cons source rest =>
    simp only at hs
    split at hs
    · cases hs
      exact ⟨rfl, rfl, rfl, rfl, .inr (.inl rfl)⟩
    · simp only [TcpWrite.step, hpc, Option.bind_eq_bind, Option.bind_some] at hs
      cases hs
      exact ⟨rfl, rfl, rfl, rfl, .inr (.inr ⟨rfl, _, rfl⟩)⟩

/-- The loop always goes on. -/
theorem loop_isSome (waker : Waker) (hpc : s.socket.writer.pc = .idle) :
    (loop s waker).isSome = true := by
  unfold loop
  generalize finish s.sources s.written = next
  obtain ⟨sources, written⟩ := next
  cases sources with
  | nil => rfl
  | cons source rest =>
    simp only
    split
    · rfl
    · simp [TcpWrite.step, hpc]

/-- A sender that has returned has nothing left to send. -/
theorem Inv.unsent_of_returned (h : Inv c s) {result : Except Nagoya.Io.StreamError Unit}
    (hret : s.task = .returned result) : s.unsent = [] := by
  obtain ⟨-, -, hsources⟩ : s.socket.writer.pc = .idle ∧ result = .ok () ∧ s.sources = [] := by
    have := h.task
    rwa [TaskOk, hret] at this
  rw [unsent, hsources, List.flatMap_nil, List.drop_nil]

/-- A step of a call leaves what the reactor has collected. -/
theorem advance_frame {t t' : TcpWrite.State} {outcome : TcpWrite.Outcome}
    (hs : TcpWrite.advance t outcome = some t') :
    t'.collected = t.collected ∧ t'.kernel.queued = t.kernel.queued := by
  unfold TcpWrite.advance at hs
  split at hs
  · cases hs
  · split at hs <;> cases hs <;> exact ⟨rfl, rfl⟩
  · split at hs
    · cases hs
    · rename_i wanted _ _ kernel hk
      have hqueued : kernel.queued = t.kernel.queued := by
        unfold TcpWrite.Kernel.send at hk
        split at hk
        · split at hk <;> cases hk
          rfl
        · split at hk <;> cases hk
          rfl
        · cases hk
          rfl
        · cases hk
          rfl
      split at hs
      · split at hs <;> cases hs <;> exact ⟨rfl, hqueued⟩
      · cases hs
        exact ⟨rfl, hqueued⟩
      · cases hs
        exact ⟨rfl, hqueued⟩
      · cases hs
        exact ⟨rfl, hqueued⟩
  · cases hs
    exact ⟨rfl, rfl⟩
  · split at hs <;> cases hs <;> exact ⟨rfl, rfl⟩
  · cases hs
    exact ⟨rfl, rfl⟩

/-- A step of the task leaves what the reactor has collected, and takes nothing out of the send
buffer. -/
theorem Inv.task_frame (h : Inv c s) {act : SendAction} (hact : ofTask act)
    (hs : s.step act = some s') :
    s'.socket.collected = s.socket.collected ∧
      s'.socket.kernel.queued = s.socket.kernel.queued ∧ ∃ bytes, s'.sent = s.sent ++ bytes := by
  have hsame : ∃ bytes, s.sent = s.sent ++ bytes := ⟨[], (List.append_nil _).symm⟩
  -- The loop begins a call at most, and that does not touch the kernel.
  have hloop : ∀ {t : Sender} {waker : Waker}, loop t waker = some s' →
      t.socket = s.socket → t.sent = s.sent → s.socket.writer.pc = .idle →
      s'.socket.collected = s.socket.collected ∧
        s'.socket.kernel.queued = s.socket.kernel.queued ∧
        ∃ bytes, s'.sent = s.sent ++ bytes := by
    intro t waker hloop hsocket hsent hpc
    obtain ⟨-, hkernel, hcollected, hsent', -⟩ := loop_cases (by rw [hsocket]; exact hpc) hloop
    rw [hkernel, hcollected, hsent', hsocket, hsent]
    exact ⟨rfl, rfl, hsame⟩
  cases act with
  | poll waker =>
    simp only [Sender.step, Option.ite_none_right_eq_some] at hs
    exact hloop hs.2 rfl rfl (h.idle_of_waits (Task.waits_of_due hs.1))
  | pollAnyway waker =>
    simp only [Sender.step, Option.ite_none_right_eq_some] at hs
    exact hloop hs.2 rfl rfl (h.idle_of_waits hs.1)
  | advance outcome =>
    simp only [Sender.step, Sender.advance, Option.ite_none_right_eq_some, Option.bind_eq_bind,
      Option.bind_eq_some_iff] at hs
    obtain ⟨-, socket, hadvance, hs⟩ := hs
    obtain ⟨hcollected, hqueued⟩ := advance_frame hadvance
    split at hs
    · split at hs <;> cases hs
      exact ⟨hcollected, hqueued, _, rfl⟩
    · cases hs
      exact ⟨hcollected, hqueued, hsame⟩
  | answer =>
    simp only [Sender.step, Sender.answer, Option.ite_none_right_eq_some] at hs
    obtain ⟨⟨-, hpc⟩, hs⟩ := hs
    split at hs
    · cases hs
    · cases hs
      exact ⟨rfl, rfl, hsame⟩
    · split at hs
      · cases hs
        exact ⟨rfl, rfl, hsame⟩
      · exact hloop hs rfl rfl hpc
    · cases hs
      exact ⟨rfl, rfl, hsame⟩
  | collect | event _ _ | dispatch _ | wake _ => cases hact

/-- The steps that are not the task's, as the socket sees them. -/
inductive SocketStep (t : TcpWrite.State) : Option SendAction → TcpWrite.State → Prop where
  | nothing : SocketStep t none t
  | collect : SocketStep t (some .collect)
      { t with
        kernel.queued := false
        collected := t.collected ++
          [{ readable := false, writable := t.kernel.queued, hangup := false }] }
  | event (readable hangup : Bool) : SocketStep t (some (.event readable hangup))
      { t with
        kernel.queued := false
        collected := t.collected ++ [{ readable, writable := t.kernel.queued, hangup }] }
  | dispatch (i : Nat) (e : Readiness) (hi : t.collected[i]? = some e) :
      SocketStep t (some (.dispatch i))
        { t with
          slot := (t.slot.dispatch e).1
          collected := t.collected.eraseIdx i
          waking := t.waking ++ (t.slot.dispatch e).2
          full := t.full && !e.writable }
  | wake (i : Nat) (waker : Waker) (hi : t.waking[i]? = some waker) :
      SocketStep t (some (.wake i))
        { t with waking := t.waking.eraseIdx i, writer := t.writer.wake waker }

/-- A step is one of the task, or one of the socket alone. -/
theorem task_or_socket {o : Option SendAction} (hm : Moved s o s') :
    (∃ act, o = some act ∧ ofTask act ∧ s.step act = some s') ∨
      (∀ act, o = some act → ¬ofTask act) ∧
        ∃ socket, s' = { s with socket } ∧ SocketStep s.socket o socket := by
  cases o with
  | none => exact .inr ⟨by simp, _, hm, .nothing⟩
  | some act =>
    have hm : s.step act = some s' := hm
    cases act with
    | poll _ | pollAnyway _ | advance _ | answer => exact .inl ⟨_, rfl, trivial, hm⟩
    | collect =>
      simp only [Sender.step, onSocket, TcpWrite.step, Option.ite_none_right_eq_some,
        Option.bind_eq_bind, Option.bind_some, Option.some.injEq] at hm
      obtain ⟨-, rfl⟩ := hm
      exact .inr ⟨by rintro _ ⟨⟩ ⟨⟩, _, rfl, .collect⟩
    | event readable hangup =>
      cases hm
      exact .inr ⟨by rintro _ ⟨⟩ ⟨⟩, _, rfl, .event _ _⟩
    | dispatch i =>
      simp only [Sender.step, onSocket, TcpWrite.step, Option.bind_eq_bind,
        Option.bind_eq_some_iff, Option.some.injEq] at hm
      obtain ⟨socket, hstep, rfl⟩ := hm
      split at hstep <;> cases hstep
      rename_i e hi
      exact .inr ⟨by rintro _ ⟨⟩ ⟨⟩, _, rfl, .dispatch i e hi⟩
    | wake i =>
      simp only [Sender.step, onSocket, TcpWrite.step, Option.bind_eq_bind,
        Option.bind_eq_some_iff, Option.some.injEq] at hm
      obtain ⟨socket, hstep, rfl⟩ := hm
      split at hstep <;> cases hstep
      rename_i waker hi
      exact .inr ⟨by rintro _ ⟨⟩ ⟨⟩, _, rfl, .wake i waker hi⟩

/-- The sender takes nothing out of the send buffer. -/
theorem Inv.sent_grows (h : Inv c s) {act : SendAction} (hs : s.step act = some s') :
    ∃ bytes, s'.sent = s.sent ++ bytes := by
  rcases task_or_socket (o := some act) hs with ⟨act', -, hact, hs⟩ | ⟨-, socket, rfl, -⟩
  · exact (h.task_frame hact hs).2.2
  · exact ⟨[], (List.append_nil _).symm⟩

/-- A wake sets `woken`, when it is the writer's. -/
theorem wake_cases (w : TcpWrite.Writer) (waker : Waker) :
    waker = w.waker ∧ w.wake waker = { w with woken := true } ∨
      waker ≠ w.waker ∧ w.wake waker = w := by
  by_cases heq : waker = w.waker
  · exact .inl ⟨heq, if_pos heq⟩
  · exact .inr ⟨heq, if_neg heq⟩

/-- What a step that is not one of the task leaves of the task. -/
structure Frame (s s' : Sender) : Prop where
  task : s'.task = s.task
  pc : s'.socket.writer.pc = s.socket.writer.pc
  returned : s'.socket.writer.returned = s.socket.writer.returned
  woken : s.socket.writer.woken = true → s'.socket.writer.woken = true
  writable : s.socket.slot.writable = true → s'.socket.slot.writable = true

theorem Frame.ready (h : Frame s s') (hready : s.ready) : s'.ready := by
  refine hready.imp h.writable fun hholds => ?_
  rw [h.pc]
  exact hholds

/-- What goes on around the task does not take it back. -/
theorem Frame.place (h : Frame s s') : s'.place ≤ s.place := by
  unfold Sender.place
  rw [h.task, h.pc, h.returned]
  cases s.task with
  | suspended =>
    cases hw : s.socket.writer.woken with
    | true => simp [h.woken hw]
    | false => cases s'.socket.writer.woken <;> simp
  | calling | spawned | panicked | returned _ => exact Nat.le_refl _

/-- A step that is not one of the task leaves the task where it is. -/
theorem SocketStep.frame {o : Option SendAction} {socket : TcpWrite.State}
    (hm : SocketStep s.socket o socket) : Frame s { s with socket } := by
  cases hm with
  | nothing | collect | event _ _ => exact ⟨rfl, rfl, rfl, id, id⟩
  | dispatch i e hi =>
    refine ⟨rfl, rfl, rfl, id, ?_⟩
    intro hw
    simp [hw]
  | wake i waker hi =>
    rcases wake_cases s.socket.writer waker with ⟨-, hwake⟩ | ⟨-, hwake⟩ <;> rw [hwake]
    · exact ⟨rfl, rfl, rfl, fun _ => rfl, id⟩
    · exact ⟨rfl, rfl, rfl, id, id⟩

/-- A task that makes its next call is close to its `send`. -/
theorem loop_closer {t : Sender} {waker : Waker} (hpc : t.socket.writer.pc = .idle)
    (hwritable : t.socket.slot.writable = true) (hs : loop t waker = some s') (hinv : Inv c s')
    (hunsent : s'.unsent ≠ []) : s'.ready ∧ s'.place = 1 := by
  obtain ⟨hslot, -, -, -, hret | hpanic | ⟨hcalling, wanted, htake⟩⟩ := loop_cases hpc hs
  · exact absurd (hinv.unsent_of_returned hret) hunsent
  · have := hinv.task
    rw [TaskOk, hpanic] at this
    exact this.elim
  · refine ⟨.inl (by rw [hslot]; exact hwritable), ?_⟩
    simp [place, hcalling, htake]

/-- A task that waits has a place of its own. -/
theorem place_of_waits (h : s.task.waits = true) :
    s.place = if s.task.due s.socket.writer.woken then 2 else 5 := by
  cases ht : s.task with
  | spawned => simp [place, ht, Task.due]
  | suspended => cases hw : s.socket.writer.woken <;> simp [place, ht, hw, Task.due]
  | calling | panicked | returned _ => simp [ht, Task.waits] at h

/-- A call that is ready comes closer to its `send`, or the empty buffer accepts bytes. -/
theorem Inv.advance_closer (h : Inv c s) (hcapacity : 0 < c.capacity) (hsent : s.sent = [])
    (hcalling : s.task = .calling) (hready : s.ready) {outcome : TcpWrite.Outcome}
    (hs : Sender.advance s outcome = some s') :
    s'.sent ≠ [] ∨ s'.ready ∧ s'.place ≤ s.place ∧
      (owed (.advance outcome) → s'.place < s.place) := by
  obtain ⟨hleft, hcall⟩ : 0 < s.left ∧ CallOk s.left s.socket.writer := by
    have := h.task
    rwa [TaskOk, hcalling] at this
  rw [CallOk] at hcall
  -- A call that does not hold the readiness has it in its slot.
  have hwritable : s.socket.writer.pc.holds = false → s.socket.slot.writable = true := by
    intro hholds
    refine hready.resolve_right ?_
    simp [hholds]
  unfold Sender.advance at hs
  simp only [TcpWrite.step, TcpWrite.advance, Option.bind_eq_bind, Option.bind_eq_some_iff] at hs
  obtain ⟨socket, hadvance, hs⟩ := hs
  cases hpc : s.socket.writer.pc with
  | idle => simp [hpc] at hadvance
  | take wanted =>
    have hw := hwritable (by rw [hpc]; rfl)
    simp only [hpc, Wakers.takeWritableOrPark, hw, if_true, Option.some.injEq] at hadvance hs
    subst hadvance hs
    right
    simp [ready, place, hcalling, hpc, TcpWrite.Pc.holds]
  | send wanted =>
    have hused : s.socket.kernel.used = 0 := by rw [h.used, hsent]; rfl
    simp only [hpc] at hadvance hs
    split at hs
    · rename_i hanswers
      cases hs
      cases outcome with
      | failed error => cases hanswers
      | interrupted =>
        simp only [TcpWrite.Kernel.send, Option.some.injEq] at hadvance
        subst hadvance
        right
        simp [ready, place, hcalling, hpc, TcpWrite.Pc.holds, owed]
      | refused =>
        -- A buffer with no bytes is not full.
        have hfull : s.socket.kernel.used = s.socket.kernel.capacity :=
          of_decide_eq_true hanswers
        rw [h.capacity, hused] at hfull
        omega
      | accepted n =>
        left
        have hwanted : wanted = s.left := by rwa [hpc] at hcall
        have hn : 0 < n := by
          have hor : n = wanted ∨ s.socket.kernel.used + n = s.socket.kernel.capacity :=
            of_decide_eq_true hanswers
          rw [h.capacity, hused] at hor
          omega
        rw [← List.length_pos_iff]
        simp only [hsent, List.nil_append, List.length_take, (offered_eq hleft).1]
        omega
    · cases hs
  | mark n =>
    simp only [hpc, Option.some.injEq] at hadvance hs
    subst hadvance hs
    right
    simp [ready, place, hcalling, hpc, Wakers.markWritable]
  | park =>
    have hw := hwritable (by rw [hpc]; rfl)
    simp only [hpc, Wakers.pollWritable, hw, if_true, Option.some.injEq] at hadvance hs
    subst hadvance hs
    right
    simp [ready, place, hcalling, hpc, hw]
  | wakeSelf =>
    have hw := hwritable (by rw [hpc]; rfl)
    simp only [hpc, Option.some.injEq] at hadvance hs
    subst hadvance hs
    right
    simp [ready, place, hcalling, hpc, hw]

/-- While the send buffer is empty and there is something to send, every step of a task that is
ready brings it closer to its `send`, or fills the buffer. -/
theorem Inv.closer (h : Inv c s) (hcapacity : 0 < c.capacity) (hsent : s.sent = [])
    (hunsent : s.unsent ≠ []) (hready : s.ready) {act : SendAction} (hact : ofTask act)
    (hs : s.step act = some s') :
    s'.sent ≠ [] ∨ s'.ready ∧ s'.place ≤ s.place ∧
      (owed act ∨ s.task.waits = true → s'.place < s.place) := by
  have hkept := h.step hs
  by_cases hsent' : s'.sent = []
  swap
  · exact .inl hsent'
  right
  -- Nothing was accepted, so what was unsent still is.
  have hunsent' : s'.unsent ≠ [] := by
    have hbytes := hkept.bytes
    rw [hsent, hsent', List.nil_append, List.nil_append] at hbytes
    rw [hbytes]
    exact hunsent
  have hidle : s.socket.writer.pc = .idle → s.socket.slot.writable = true := by
    intro hpc
    refine hready.resolve_right ?_
    simp [hpc, TcpWrite.Pc.holds]
  have hwaits : ∀ {waker : Waker}, s.task.waits = true → loop s waker = some s' →
      s'.ready ∧ s'.place < s.place := by
    intro waker hwaits hloop
    have hpc := h.idle_of_waits hwaits
    obtain ⟨hready', hplace⟩ := loop_closer hpc (hidle hpc) hloop hkept.inv hunsent'
    refine ⟨hready', ?_⟩
    rw [hplace, place_of_waits hwaits]
    split <;> decide
  cases act with
  | poll waker =>
    simp only [Sender.step, Option.ite_none_right_eq_some] at hs
    obtain ⟨hready', hlt⟩ := hwaits (Task.waits_of_due hs.1) hs.2
    exact ⟨hready', hlt.le, fun _ => hlt⟩
  | pollAnyway waker =>
    simp only [Sender.step, Option.ite_none_right_eq_some] at hs
    obtain ⟨hready', hlt⟩ := hwaits hs.1 hs.2
    exact ⟨hready', hlt.le, fun _ => hlt⟩
  | advance outcome =>
    simp only [Sender.step, Option.ite_none_right_eq_some] at hs
    have hcalling := Task.eq_calling hs.1
    obtain ⟨hready', hle, hlt⟩ :=
      (h.advance_closer hcapacity hsent hcalling hready hs.2).resolve_left (not_not_intro hsent')
    refine ⟨hready', hle, ?_⟩
    rintro (howed | hwaits')
    · exact hlt howed
    · rw [hcalling] at hwaits'
      cases hwaits'
  | answer =>
    simp only [Sender.step, Option.ite_none_right_eq_some] at hs
    obtain ⟨⟨hcalling, hpc⟩, hs⟩ := hs
    have htask := Task.eq_calling hcalling
    have hcall : CallOk s.left s.socket.writer := by
      have := h.task
      rw [TaskOk, htask] at this
      exact this.2
    rw [CallOk, hpc] at hcall
    unfold Sender.answer at hs
    cases hret : s.socket.writer.returned with
    | nothing => simp [hret] at hs
    | failed error => simp [hret] at hcall
    | pending =>
      simp only [hret, Option.some.injEq] at hs
      subst hs
      have hlt : ({ s with task := .suspended } : Sender).place < s.place := by
        have hplace : s.place = 6 := by simp [place, htask, hpc, hret]
        rw [hplace, place_of_waits rfl]
        split <;> decide
      exact ⟨.inl (hidle hpc), hlt.le, fun _ => hlt⟩
    | ready n =>
      simp only [hret] at hcall hs
      rw [if_neg (by omega)] at hs
      have hplace : s.place = 2 := by simp [place, htask, hpc, hret]
      obtain ⟨hready', hplace'⟩ := loop_closer (t := { s with written := s.written + n }) hpc
        (hidle hpc) hs hkept.inv hunsent'
      exact ⟨hready', by omega, fun _ => by omega⟩
  | collect | event _ _ | dispatch _ | wake _ => cases hact

/-- A call has a next step. -/
theorem Inv.advance_enabled (h : Inv c s) (hcapacity : 0 < c.capacity) (hsent : s.sent = [])
    (hcalling : s.task = .calling) (hpc : s.socket.writer.pc ≠ .idle) :
    ∃ outcome, owed (.advance outcome) ∧ (s.step (.advance outcome)).isSome = true := by
  obtain ⟨hleft, hcall⟩ : 0 < s.left ∧ CallOk s.left s.socket.writer := by
    have := h.task
    rwa [TaskOk, hcalling] at this
  rw [CallOk] at hcall
  simp only [Sender.step, hcalling, Task.isCalling, if_true, Sender.advance, TcpWrite.step,
    TcpWrite.advance]
  cases hw : s.socket.writer.pc with
  | idle => exact absurd hw hpc
  | send wanted =>
    -- The kernel accepts as much as there is room for.
    have hwanted : wanted = s.left := by rwa [hw] at hcall
    have hused : s.socket.kernel.used = 0 := by rw [h.used, hsent]; rfl
    have hcap := h.capacity
    refine ⟨.accepted (min wanted c.capacity), trivial, ?_⟩
    have hfit : min wanted c.capacity ≤ wanted ∧
        s.socket.kernel.used + min wanted c.capacity ≤ s.socket.kernel.capacity ∧
        (0 < min wanted c.capacity ∨ wanted = 0) := by
      rw [hused, hcap]
      omega
    have hanswers : answers s.socket.kernel wanted (.accepted (min wanted c.capacity)) = true := by
      simp only [answers, hused, hcap, decide_eq_true_eq]
      omega
    simp only [TcpWrite.Kernel.send, if_pos hfit, hanswers, if_true]
    split <;> rfl
  | take wanted =>
    refine ⟨.refused, trivial, ?_⟩
    simp only
    rcases s.socket.slot.takeWritableOrPark_cases s.socket.writer.waker with
      ⟨-, hc⟩ | ⟨-, hc⟩ <;> simp [hc]
  | park =>
    refine ⟨.refused, trivial, ?_⟩
    simp only
    rcases s.socket.slot.pollWritable_cases s.socket.writer.waker with
      ⟨-, hc⟩ | ⟨-, hc⟩ <;> simp [hc]
  | mark _ | wakeSelf => exact ⟨.refused, trivial, rfl⟩

/-- A task that is ready, does not sleep and has something to send has a next step. -/
theorem Inv.enabled (h : Inv c s) (hcapacity : 0 < c.capacity) (hsent : s.sent = [])
    (hunsent : s.unsent ≠ []) (hplace : s.place ≠ 5) :
    ∃ act, owed act ∧ (s.step act).isSome = true := by
  have htask := h.task
  unfold TaskOk at htask
  cases ht : s.task with
  | spawned =>
    simp only [ht] at htask
    refine ⟨.poll 0, trivial, ?_⟩
    simp only [Sender.step, ht, Task.due, if_true]
    exact loop_isSome 0 htask
  | suspended =>
    simp only [ht] at htask
    have hwoken : s.socket.writer.woken = true := by
      by_contra hw
      exact hplace (by simp [place, ht, hw])
    refine ⟨.poll 0, trivial, ?_⟩
    simp only [Sender.step, ht, Task.due, hwoken, if_true]
    exact loop_isSome 0 htask.1
  | calling =>
    simp only [ht] at htask
    by_cases hpc : s.socket.writer.pc = .idle
    · have hcall := htask.2
      rw [CallOk, hpc] at hcall
      refine ⟨.answer, trivial, ?_⟩
      simp only [Sender.step, ht, Task.isCalling, hpc, and_self, if_true, Sender.answer]
      cases hr : s.socket.writer.returned with
      | nothing => simp [hr] at hcall
      | failed error => simp [hr] at hcall
      | pending => rfl
      | ready n =>
        simp only [hr] at hcall ⊢
        rw [if_neg (by omega)]
        exact loop_isSome (s := { s with written := s.written + n }) _ hpc
    · obtain ⟨outcome, howed, hsome⟩ := h.advance_enabled hcapacity hsent ht hpc
      exact ⟨_, howed, hsome⟩
  | panicked => simp [ht] at htask
  | returned result => exact absurd (h.unsent_of_returned ht) hunsent

/-- A task that sleeps although it is ready is about to be woken. -/
theorem Inv.waking_of_asleep (h : Inv c s) (hready : s.ready) (hplace : s.place = 5) :
    s.task = .suspended ∧ s.socket.writer.woken = false ∧ ∃ i, s.waking i := by
  have htask := h.task
  unfold TaskOk at htask
  cases ht : s.task with
  | suspended =>
    simp only [ht] at htask
    have hwoken : s.socket.writer.woken = false := by
      cases hw : s.socket.writer.woken with
      | false => rfl
      | true => simp [place, ht, hw] at hplace
    refine ⟨rfl, hwoken, ?_⟩
    rcases h.parked htask.1 htask.2.1 hwoken with ⟨-, hw⟩ | hmem
    · rcases hready with hready | hholds
      · rw [hw] at hready
        cases hready
      · simp [htask.1, TcpWrite.Pc.holds] at hholds
    · exact List.getElem?_of_mem hmem
  | calling =>
    simp only [place, ht] at hplace
    split at hplace <;> first | omega | skip
    split at hplace <;> omega
  | spawned | panicked | returned _ => simp [place, ht] at hplace

/-- The waker of a task that sleeps moves up, or the task sleeps no longer. `wake 0` does one or
the other. -/
theorem SocketStep.waking {i : Nat} {o : Option SendAction} {socket : TcpWrite.State}
    (hm : SocketStep s.socket o socket) (htask : s.task = .suspended) (hi : s.waking i) :
    ({ s with socket } : Sender).place < 5 ∨
      ∃ j, ({ s with socket } : Sender).waking j ∧ j ≤ i ∧ (o = some (.wake 0) → j < i) := by
  cases hm with
  | nothing | collect | event _ _ => exact .inr ⟨i, hi, Nat.le_refl i, by simp⟩
  | dispatch j e hj =>
    refine .inr ⟨i, ?_, Nat.le_refl i, by simp⟩
    show (s.socket.waking ++ _)[i]? = _
    rw [List.getElem?_append_left (List.getElem?_eq_some_iff.mp hi).1]
    exact hi
  | wake j waker hj =>
    rcases wake_cases s.socket.writer waker with ⟨-, hwake⟩ | ⟨hne, hwake⟩
    · left
      simp [place, htask, hwake]
    · right
      have hij : j ≠ i := by
        rintro rfl
        exact hne (Option.some.inj (hj.symm.trans hi))
      obtain ⟨k, hk, hle, hlt⟩ := getElem?_eraseIdx_of_ne hi hij
      refine ⟨k, ?_, hle, ?_⟩
      · show (s.socket.waking.eraseIdx j)[k]? = some (s.socket.writer.wake waker).waker
        rw [hwake]
        exact hk
      · intro hwake0
        cases hwake0
        exact hlt (Nat.pos_of_ne_zero fun h => hij h.symm)

/-- An event that waits to be dispatched moves up, or makes the task ready. `dispatch 0` does one or
the other. -/
theorem SocketStep.event_place {i : Nat} {o : Option SendAction} {socket : TcpWrite.State}
    (hm : SocketStep s.socket o socket) (hi : s.event i) :
    ({ s with socket } : Sender).ready ∨
      ∃ j, ({ s with socket } : Sender).event j ∧ j ≤ i ∧ (o = some (.dispatch 0) → j < i) := by
  obtain ⟨e, hi, he⟩ := hi
  have hlen := (List.getElem?_eq_some_iff.mp hi).1
  cases hm with
  | nothing | wake _ _ _ => exact .inr ⟨i, ⟨e, hi, he⟩, Nat.le_refl i, by simp⟩
  | collect | event _ _ =>
    refine .inr ⟨i, ⟨e, ?_, he⟩, Nat.le_refl i, by simp⟩
    show (s.socket.collected ++ _)[i]? = _
    rw [List.getElem?_append_left hlen]
    exact hi
  | dispatch j e' hj =>
    by_cases hij : j = i
    · subst hij
      cases hi.symm.trans hj
      left
      left
      simp [he]
    · right
      obtain ⟨k, hk, hle, hlt⟩ := getElem?_eraseIdx_of_ne hi hij
      refine ⟨k, ⟨e, hk, he⟩, hle, ?_⟩
      intro hdispatch
      cases hdispatch
      exact hlt (Nat.pos_of_ne_zero fun h => hij h.symm)

/-- A queued event stays, or is collected as one for the writer. -/
theorem SocketStep.queued {o : Option SendAction} {socket : TcpWrite.State}
    (hm : SocketStep s.socket o socket) (hq : s.socket.kernel.queued = true) :
    (∃ i, ({ s with socket } : Sender).event i) ∨
      socket.kernel.queued = true ∧ o ≠ some .collect := by
  cases hm with
  | nothing | dispatch _ _ _ | wake _ _ _ => exact .inr ⟨hq, by simp⟩
  | collect | event _ _ =>
    left
    exact ⟨s.socket.collected.length, _, List.getElem?_concat_length, hq⟩

end Sender

/-- The sender as a task that waits for an edge. -/
def writeEdge : Lts.Edge State Action where
  queued s := s.sender.socket.kernel.queued = true
  event i s := s.sender.event i
  ready s := s.sender.ready
  place s := s.sender.place
  bed := 5
  waking i s := s.sender.waking i
  task a := ∃ act, a = .sender act ∧ Sender.owed act
  collect a := a = .sender .collect
  dispatch a := a = .sender (.dispatch 0)
  wake a := a = .sender (.wake 0)

/-- The party of a step that is possible at the sending end can step. -/
theorem enabled_sender {s : State} {p : Action → Prop} {act : SendAction}
    (hp : p (.sender act)) (h : (s.sender.step act).isSome = true) :
    (system c).Enabled p s := by
  refine ⟨.sender act, hp, ?_⟩
  obtain ⟨sender, hs⟩ := Option.isSome_iff_exists.mp h
  show (Stream.step c s (.sender act)).isSome = true
  simp [Stream.step, hs]

/-- While there is nothing on the way, the receiver gets nothing and the rest is with the sender. -/
theorem Inv.unsent_of_empty {s : State} (h : Inv c s) (hsent : s.sender.sent = [])
    (hdata : s.receiver.socket.kernel.data = [])
    (hgot : s.receiver.got.length < c.bytes.length) : s.sender.unsent ≠ [] := by
  intro hnil
  have hlen := congrArg List.length h.stream
  simp only [hsent, hdata, hnil, List.append_nil] at hlen
  omega

/-- While there is nothing on the way, the receiver does not move on. -/
theorem Inv.stays_empty {s s' : State} {a : Action} (h : Inv c s) (hsent : s.sender.sent = [])
    (hdata : s.receiver.socket.kernel.data = []) (hs : step c s a = some s') :
    s'.receiver.got = s.receiver.got ∧ s'.receiver.socket.kernel.data = [] := by
  cases a with
  | sender act =>
    simp only [step, Option.bind_eq_bind, Option.bind_eq_some_iff, Option.some.injEq] at hs
    obtain ⟨sender, -, rfl⟩ := hs
    exact ⟨rfl, hdata⟩
  | receiver act =>
    simp only [step, Option.bind_eq_bind, Option.bind_eq_some_iff, Option.some.injEq] at hs
    obtain ⟨receiver, hreceiver, rfl⟩ := hs
    exact h.receiver.stays_empty hdata hreceiver
  | transmit n => cases (transmit_empty hsent n).symm.trans hs

/-- What the sender does while nothing is on the way and the receiver has only `k` bytes. -/
theorem writing (hfits : c.Fits) (hcapacity : 0 < c.capacity) {k : Nat} (hk : k < c.bytes.length) :
    Lts.EdgeWait (system c) writeEdge
      (fun s => s.sender.sent = [] ∧ s.receiver.socket.kernel.data = [] ∧
        s.receiver.got.length = k)
      (fun s => s.sender.sent ≠ []) where
  lasts := by
    rintro s a s' hr ⟨hsent, hdata, rfl⟩ hn
    obtain ⟨hgot, hdata'⟩ := (inv_of_reachable hfits hr).stays_empty hsent hdata hn
    by_cases hsent' : s'.sender.sent = []
    · exact .inr ⟨hsent', hdata', by rw [hgot]⟩
    · exact .inl hsent'
  cover := by
    rintro s hr ⟨hsent, -, -⟩
    have h := (inv_of_reachable hfits hr).sender
    by_cases hready : s.sender.ready
    · exact .inl hready
    · simp only [Sender.ready, not_or, Bool.not_eq_true] at hready
      rcases h.socket.owed (h.socket.known hready.1 hready.2) with hfull | hq | ⟨e, hmem, he⟩
      · -- An empty buffer is not full.
        have hlen := h.noSpace hfull
        rw [hsent, List.length_nil] at hlen
        omega
      · exact .inr (.inr hq)
      · obtain ⟨i, hi⟩ := List.getElem?_of_mem hmem
        exact .inr (.inl ⟨i, e, hi, he⟩)
  queued_keep := by
    rintro s a s' hr ⟨hsent, -, -⟩ hq hn
    have h := (inv_of_reachable hfits hr).sender
    obtain ⟨o, hm, ha⟩ := Sender.moved_of_step hsent hn
    right
    -- Only the poller takes the edge, and it makes an event of it.
    rcases Sender.task_or_socket hm with ⟨act, rfl, hact, hs⟩ | ⟨-, socket, hs', hstep⟩
    · refine .inr ⟨(h.task_frame hact hs).2.1.trans hq, ?_⟩
      rintro rfl
      cases (ha _).mp rfl
      exact hact
    · rcases hstep.queued hq with he | ⟨hq', hnot⟩
      · left
        show ∃ i, s'.sender.event i
        rw [hs']
        exact he
      · right
        refine ⟨?_, ?_⟩
        · show s'.sender.socket.kernel.queued = true
          rw [hs']
          exact hq'
        · rintro rfl
          exact hnot ((ha _).mp rfl)
  queued_enabled := by
    rintro s hr - hq
    have hq : s.sender.socket.kernel.queued = true := hq
    refine enabled_sender rfl ?_
    simp [Sender.step, Sender.onSocket, TcpWrite.step, hq]
  event_keep := by
    rintro i s a s' hr ⟨hsent, -, -⟩ he hn
    have h := (inv_of_reachable hfits hr).sender
    obtain ⟨o, hm, ha⟩ := Sender.moved_of_step hsent hn
    right
    rcases Sender.task_or_socket hm with ⟨act, rfl, hact, hs⟩ | ⟨-, socket, hs', hstep⟩
    · refine .inr ⟨i, ?_, Nat.le_refl i, ?_⟩
      · show s'.sender.event i
        rw [Sender.event, (h.task_frame hact hs).1]
        exact he
      · rintro rfl
        cases (ha _).mp rfl
        exact hact.elim
    · show s'.sender.ready ∨ ∃ j, s'.sender.event j ∧ _
      rw [hs']
      refine (hstep.event_place he).imp id ?_
      rintro ⟨j, hj, hle, hlt⟩
      exact ⟨j, hj, hle, fun hdispatch => hlt ((ha _).mp hdispatch)⟩
  event_enabled := by
    rintro i s hr - ⟨e, hi, -⟩
    have hlen := (List.getElem?_eq_some_iff.mp hi).1
    refine enabled_sender rfl ?_
    simp [Sender.step, Sender.onSocket, TcpWrite.step,
      List.getElem?_eq_getElem (Nat.zero_lt_of_lt hlen)]
  ready_keep := by
    rintro s a s' hr ⟨hsent, hdata, rfl⟩ hready hn
    have hinv := inv_of_reachable hfits hr
    have hunsent := hinv.unsent_of_empty hsent hdata hk
    obtain ⟨o, hm, ha⟩ := Sender.moved_of_step hsent hn
    rcases Sender.task_or_socket hm with ⟨act, rfl, hact, hs⟩ | ⟨hnot, socket, hs', hstep⟩
    · refine (hinv.sender.closer hcapacity hsent hunsent hready hact hs).imp id ?_
      rintro ⟨hready', hle, hlt⟩
      refine ⟨hready', hle, ?_⟩
      rintro ⟨act', rfl, howed⟩ -
      cases (ha _).mp rfl
      exact hlt (.inl howed)
    · right
      show s'.sender.ready ∧ s'.sender.place ≤ _ ∧ _
      rw [hs']
      refine ⟨hstep.frame.ready hready, hstep.frame.place, ?_⟩
      rintro ⟨act, rfl, howed⟩ -
      exact absurd (Sender.ofTask_of_owed howed) (hnot act ((ha _).mp rfl))
  ready_enabled := by
    rintro s hr ⟨hsent, hdata, rfl⟩ - hplace
    have hinv := inv_of_reachable hfits hr
    obtain ⟨act, howed, hsome⟩ :=
      hinv.sender.enabled hcapacity hsent (hinv.unsent_of_empty hsent hdata hk) hplace
    exact enabled_sender ⟨act, rfl, howed⟩ hsome
  asleep := fun s hr _ hready hplace =>
    ((inv_of_reachable hfits hr).sender.waking_of_asleep hready hplace).2.2
  waking_keep := by
    rintro i s a s' hr ⟨hsent, hdata, rfl⟩ hready hplace hi hn
    have hinv := inv_of_reachable hfits hr
    have hunsent := hinv.unsent_of_empty hsent hdata hk
    obtain ⟨o, hm, ha⟩ := Sender.moved_of_step hsent hn
    obtain ⟨htask, -, -⟩ := hinv.sender.waking_of_asleep hready hplace
    rcases Sender.task_or_socket hm with ⟨act, rfl, hact, hs⟩ | ⟨-, socket, hs', hstep⟩
    · -- The executor may poll a task that sleeps.
      refine (hinv.sender.closer hcapacity hsent hunsent hready hact hs).imp id ?_
      rintro ⟨-, -, hlt⟩
      exact .inl (hplace ▸ hlt (.inr (by rw [htask]; rfl)))
    · right
      show s'.sender.place < 5 ∨ ∃ j, s'.sender.waking j ∧ _
      rw [hs']
      refine (hstep.waking htask hi).imp id ?_
      rintro ⟨j, hj, hle, hlt⟩
      exact ⟨j, hj, hle, fun hwake => hlt ((ha _).mp hwake)⟩
  waking_enabled := by
    rintro i s hr - - - hi
    have hlen := (List.getElem?_eq_some_iff.mp hi).1
    refine enabled_sender rfl ?_
    simp [Sender.step, Sender.onSocket, TcpWrite.step,
      List.getElem?_eq_getElem (Nat.zero_lt_of_lt hlen)]

end Nagoya.Net.Stream
