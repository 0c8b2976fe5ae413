import Nagoya.Net.Stream
import Nagoya.Proofs.Net.TcpRead
import Nagoya.Proofs.Net.TcpWrite
import Nagoya.Proofs.Net.WriteAll

/-!
# `Nagoya.Proofs.Net.Stream`: the bytes on their way

Every byte of the sources is in one place: not accepted yet, in the send buffer, in the receive
buffer, or with the receiver. A step at one end moves bytes within that end and keeps their order
(`Sender.Kept`, `Receiver.Kept`), and the network moves them from one end to the other. So what
the receiver has, what is on the way and what is left spell the sources in order
(`Inv.stream`).

The invariants of the two ends also say where a task waits. A suspended task has its waker in the
slot with no readiness cached, or its waker is about to be woken.
-/

set_option autoImplicit false

namespace Nagoya.Reactor

/-- An event for the writer takes the waker that is parked. -/
theorem Wakers.mem_dispatch_of_writer {w : Wakers} {e : Readiness} {waker : Waker}
    (he : e.writable = true) (hw : w.writer = some waker) : waker ∈ (w.dispatch e).2 := by
  revert he
  unfold dispatch dispatchWrite dispatchRead
  cases e.readable <;> cases e.writable <;> cases e.hangup <;> simp [hw]

end Nagoya.Reactor

namespace Nagoya.Net

open Nagoya.Lib Nagoya.Reactor
open Nagoya.Io (StreamError)

namespace Stream

open WriteAll (Source iovecs)

namespace Task

theorem eq_calling {t : Task} (h : t.isCalling = true) : t = .calling := by
  cases t <;> simp [isCalling] at h
  rfl

theorem waits_of_due {t : Task} {woken : Bool} (h : t.due woken = true) : t.waits = true := by
  cases t <;> simp [due] at h <;> rfl

theorem not_calling_of_waits {t : Task} (h : t.waits = true) : t.isCalling = false := by
  cases t <;> simp [waits] at h <;> rfl

end Task

/-! ### The sender -/

namespace Sender

variable {c : Connection} {s s' : Sender}

/-- The bytes of the first source that its counter has not passed. -/
def left (s : Sender) : Nat :=
  match s.sources with
  | [] => 0
  | source :: _ => source.total - s.written

/-- The bytes that the call got accepted and the counter has not passed. -/
def accepted (s : Sender) : Nat :=
  if s.task.isCalling then
    match s.socket.writer.pc, s.socket.writer.returned with
    | .mark n, _ => n
    | .idle, .ready n => n
    | _, _ => 0
  else 0

/-- The bytes that the kernel has not accepted. -/
def unsent (s : Sender) : List UInt8 :=
  (s.sources.flatMap Source.data).drop (s.written + s.accepted)

/-- The call that writes `left` bytes. -/
def CallOk (left : Nat) (w : TcpWrite.Writer) : Prop :=
  match w.pc with
  | .take wanted | .send wanted => wanted = left
  | .mark n => 0 < n ∧ n ≤ left
  | .park | .wakeSelf => True
  | .idle =>
    match w.returned with
    | .pending => True
    | .ready n => 0 < n ∧ n ≤ left
    | _ => False

/-- The task and the call it has. -/
def TaskOk (s : Sender) : Prop :=
  match s.task with
  | .spawned => s.socket.writer.pc = .idle
  | .suspended =>
    s.socket.writer.pc = .idle ∧ s.socket.writer.returned = .pending ∧ 0 < s.left
  | .calling => 0 < s.left ∧ CallOk s.left s.socket.writer
  | .panicked => False
  | .returned result =>
    s.socket.writer.pc = .idle ∧ result = .ok () ∧ s.sources = []

/-- A suspended writer has its waker in the slot, or is about to be woken. -/
def Parked (s : TcpWrite.State) : Prop :=
  s.writer.pc = .idle → s.writer.returned = .pending → s.writer.woken = false →
    s.slot.writer = some s.writer.waker ∧ s.slot.writable = false ∨ s.writer.waker ∈ s.waking

/-- What holds of the socket, whatever the task does. -/
structure SocketOk (c : Connection) (s : Sender) : Prop where
  socket : TcpWrite.Inv s.socket
  sendCapacity : s.socket.sendCapacity = c.sendCapacity
  capacity : s.socket.kernel.capacity = c.capacity
  used : s.socket.kernel.used = s.sent.length
  /-- A send is refused or cut short by a full buffer, and it is full until the next drain. -/
  noSpace : s.socket.kernel.noSpace = true → s.sent.length = c.capacity
  parked : Parked s.socket

/-- What holds of the sources: none is as large as the buffer that was reported. -/
structure SourcesOk (c : Connection) (s : Sender) : Prop where
  fits : c.sendCapacity = 0 ∨ ∀ source ∈ s.sources, source.total < c.sendCapacity
  within : match s.sources with
    | [] => s.written = 0
    | source :: _ => s.written ≤ source.total

/-- The invariant of the sending end. -/
structure Inv (c : Connection) (s : Sender) : Prop extends SocketOk c s, SourcesOk c s where
  task : TaskOk s

/-- A step of the sending end keeps its invariant, and the bytes in their order. -/
structure Kept (c : Connection) (s s' : Sender) : Prop where
  inv : Inv c s'
  bytes : s'.sent ++ s'.unsent = s.sent ++ s.unsent

/-- The loops that are done are skipped, and no byte with them. -/
theorem finish_spec (sources : List Source) (written : Nat)
    (h : match sources with
      | [] => written = 0
      | source :: _ => written ≤ source.total) :
    ((finish sources written).1.flatMap Source.data).drop (finish sources written).2 =
        (sources.flatMap Source.data).drop written ∧
      (∀ source ∈ (finish sources written).1, source ∈ sources) ∧
      (match (finish sources written).1 with
        | [] => (finish sources written).2 = 0
        | source :: _ => (finish sources written).2 < source.total) := by
  induction sources generalizing written with
  | nil =>
    subst h
    exact ⟨rfl, fun _ => id, rfl⟩
  | cons source rest ih =>
    by_cases hlt : written < source.total
    · rw [finish, if_pos hlt]
      exact ⟨rfl, fun _ => id, hlt⟩
    · have heq : written = source.data.length := by
        rw [Source.length_data]
        exact Nat.le_antisymm h (Nat.le_of_not_lt hlt)
      obtain ⟨hdrop, hmem, hwithin⟩ := ih 0 (by cases rest <;> simp)
      rw [finish, if_neg hlt]
      refine ⟨?_, fun _ h => List.mem_cons_of_mem _ (hmem _ h), hwithin⟩
      rw [hdrop, List.flatMap_cons, heq, List.drop_left, List.drop_zero]

/-- A task that has no call has no accepted bytes. -/
theorem accepted_of_not_calling (h : s.task.isCalling = false) : s.accepted = 0 := by
  simp [accepted, h]

/-- The loop makes the next call, or the task is done. -/
theorem loop_kept {waker : Waker} (hsocket : SocketOk c s) (hsources : SourcesOk c s)
    (hpc : s.socket.writer.pc = .idle) (hs : loop s waker = some s') :
    Inv c s' ∧ s'.sent ++ s'.unsent =
      s.sent ++ (s.sources.flatMap Source.data).drop s.written := by
  obtain ⟨hdrop, hmem, hwithin⟩ := finish_spec s.sources s.written hsources.within
  have hfits : c.sendCapacity = 0 ∨
      ∀ source ∈ (finish s.sources s.written).1, source.total < c.sendCapacity :=
    hsources.fits.imp_right fun h source hsource => h source (hmem source hsource)
  unfold loop at hs
  generalize finish s.sources s.written = next at hs hdrop hwithin hfits
  obtain ⟨sources, written⟩ := next
  cases sources with
  | nil =>
    cases hs
    have hw : written = 0 := hwithin
    subst hw
    refine ⟨{ hsocket with fits := hfits, within := rfl, task := ⟨hpc, rfl, rfl⟩ }, ?_⟩
    rw [← hdrop]
    rfl
  | cons source rest =>
    have hlt : written < source.total := hwithin
    obtain ⟨first, second, hslices, happend⟩ := Source.slices_spec hlt
    have hlen : first.length + second.length = source.total - written := by
      rw [← List.length_append, happend, List.length_drop, Source.length_data]
    simp only [hslices, TcpWrite.step, hpc, Option.bind_eq_bind, Option.bind_some] at hs
    cases hs
    refine ⟨{ hsocket with
      socket := hsocket.socket.of_same rfl rfl rfl rfl (by simp [hpc, TcpWrite.Pc.holds])
      parked := by simp [Parked]
      fits := hfits
      within := hlt.le
      task := ⟨Nat.sub_pos_of_lt hlt, hlen⟩ }, ?_⟩
    rw [← hdrop]
    rfl

/-- A task that waits has no call. -/
theorem Inv.idle_of_waits (h : Inv c s) (hwaits : s.task.waits = true) :
    s.socket.writer.pc = .idle := by
  have htask := h.task
  unfold TaskOk at htask
  cases ht : s.task <;> simp [ht, Task.waits] at hwaits <;> simp only [ht] at htask
  · exact htask
  · exact htask.1

/-- A task that waits is polled. -/
theorem Inv.poll {waker : Waker} (h : Inv c s) (hwaits : s.task.waits = true)
    (hs : loop s waker = some s') : Kept c s s' := by
  obtain ⟨hinv, hbytes⟩ := loop_kept h.toSocketOk h.toSourcesOk (h.idle_of_waits hwaits) hs
  refine ⟨hinv, hbytes.trans ?_⟩
  rw [unsent, accepted_of_not_calling (Task.not_calling_of_waits hwaits), Nat.add_zero]

/-- The loop goes on with the result of its call. -/
theorem Inv.answer (h : Inv c s) (hcalling : s.task.isCalling = true)
    (hpc : s.socket.writer.pc = .idle) (hs : Sender.answer s = some s') : Kept c s s' := by
  have htask := Task.eq_calling hcalling
  obtain ⟨hleft, hcall⟩ : 0 < s.left ∧ CallOk s.left s.socket.writer := by
    have := h.task
    rwa [TaskOk, htask] at this
  rw [CallOk, hpc] at hcall
  unfold Sender.answer at hs
  cases hret : s.socket.writer.returned with
  | nothing => simp [hret] at hs
  | pending =>
    simp only [hret, Option.some.injEq] at hs
    subst hs
    refine ⟨{ h with task := ⟨hpc, hret, hleft⟩ }, ?_⟩
    have hacc : s.accepted = 0 := by simp [accepted, htask, Task.isCalling, hpc, hret]
    rw [unsent, unsent, hacc, accepted_of_not_calling rfl]
  | failed error => simp [hret] at hcall
  | ready n =>
    simp only [hret] at hcall hs
    have hn : n ≠ 0 := by omega
    rw [if_neg hn] at hs
    have hsources : SourcesOk c { s with written := s.written + n } := by
      refine ⟨h.fits, ?_⟩
      have hle := hcall.2
      unfold left at hle hleft
      cases hsrc : s.sources with
      | nil => simp [hsrc] at hleft
      | cons source rest =>
        simp only [hsrc] at hle hleft ⊢
        omega
    obtain ⟨hinv, hbytes⟩ := loop_kept (s := { s with written := s.written + n })
      { h with } hsources hpc hs
    refine ⟨hinv, hbytes.trans ?_⟩
    have hacc : s.accepted = n := by simp [accepted, htask, Task.isCalling, hpc, hret]
    rw [unsent, hacc]

/-- What the call offers is the bytes that are left of its source. -/
theorem offered_eq (hleft : 0 < s.left) :
    s.offered.length = s.left ∧
      ∀ n, n ≤ s.left →
        s.offered.take n ++ (s.sources.flatMap Source.data).drop (s.written + n) =
          (s.sources.flatMap Source.data).drop s.written := by
  unfold left at hleft ⊢
  unfold offered
  cases hsrc : s.sources with
  | nil => simp [hsrc] at hleft
  | cons source rest =>
    simp only [hsrc] at hleft ⊢
    have hlt : s.written < source.total := by omega
    obtain ⟨first, second, hslices, happend⟩ := Source.slices_spec hlt
    simp only [hslices, WriteAll.iovecs_flatten, happend]
    refine ⟨by rw [List.length_drop, Source.length_data], ?_⟩
    intro n hn
    have hle : s.written ≤ source.data.length := by
      rw [Source.length_data]
      exact hlt.le
    have hlen : n ≤ (source.data.drop s.written).length := by
      rw [List.length_drop, Source.length_data]
      exact hn
    have htake : (source.data.drop s.written).take n =
        (source.data.drop s.written ++ rest.flatMap Source.data).take n :=
      (List.take_append_of_le_length hlen).symm
    rw [List.flatMap_cons, ← List.drop_drop, List.drop_append_of_le_length hle, htake,
      List.take_append_drop]

/-- A source of a connection whose buffer is larger than any source is written with care. -/
theorem Inv.careful (h : Inv c s) (hcalling : s.task = .calling) {outcome : TcpWrite.Outcome}
    (hok : ∀ wanted, s.socket.writer.pc = .send wanted →
      answers s.socket.kernel wanted outcome = true) :
    TcpWrite.Careful s.socket (.advance outcome) = true := by
  obtain ⟨hleft, hcall⟩ : 0 < s.left ∧ CallOk s.left s.socket.writer := by
    have := h.task
    rwa [TaskOk, hcalling] at this
  cases hpc : s.socket.writer.pc with
  | send wanted =>
    have hwanted : wanted = s.left := by rwa [CallOk, hpc] at hcall
    have hok := hok wanted hpc
    cases outcome with
    | failed error => cases hok
    | refused | interrupted => simp [TcpWrite.Careful, hpc]
    | accepted n =>
      simp only [TcpWrite.Careful, hpc, decide_eq_true_eq]
      right
      rw [h.sendCapacity]
      refine h.fits.imp_right fun hfits => ?_
      unfold left at hwanted hleft
      cases hsrc : s.sources with
      | nil => simp [hsrc] at hleft
      | cons source rest =>
        have hlt := hfits source (by simp [hsrc])
        simp only [hsrc] at hwanted
        omega
  | idle | take _ | mark _ | park | wakeSelf => cases outcome <;> simp [TcpWrite.Careful, hpc]

/-- The call takes a step that leaves the kernel alone. -/
theorem Inv.moveCall (h : Inv c s) (hcalling : s.task = .calling) {socket : TcpWrite.State}
    (hinv : TcpWrite.Inv socket) (hkernel : socket.kernel = s.socket.kernel)
    (hcapacity : socket.sendCapacity = s.socket.sendCapacity) (hparked : Parked socket)
    (hcall : CallOk s.left socket.writer)
    (haccepted : ({ s with socket } : Sender).accepted = s.accepted) :
    Kept c s { s with socket } := by
  have htask := h.task
  rw [TaskOk, hcalling] at htask
  refine ⟨{ h with
    socket := hinv
    sendCapacity := hcapacity.trans h.sendCapacity
    capacity := by rw [hkernel]; exact h.capacity
    used := by rw [hkernel]; exact h.used
    noSpace := by rw [hkernel]; exact h.noSpace
    parked := hparked
    task := ?_ }, ?_⟩
  · show TaskOk { s with socket }
    rw [TaskOk, hcalling]
    exact ⟨htask.1, hcall⟩
  · rw [unsent, unsent, haccepted]

/-- The kernel accepts `n` bytes of the call. -/
theorem Inv.accept (h : Inv c s) (hcalling : s.task = .calling)
    (hpc : s.socket.writer.pc = .send s.left) {n : Nat} {socket : TcpWrite.State}
    (hinv : TcpWrite.Inv socket)
    (hanswers : n = s.left ∨ s.socket.kernel.used + n = s.socket.kernel.capacity)
    (hs : TcpWrite.advance s.socket (.accepted n) = some socket) :
    Kept c s { s with socket, sent := s.sent ++ s.offered.take n } := by
  obtain ⟨hleft, -⟩ : 0 < s.left ∧ CallOk s.left s.socket.writer := by
    have := h.task
    rwa [TaskOk, hcalling] at this
  obtain ⟨hoffered, htake⟩ := offered_eq hleft
  simp only [TcpWrite.advance, hpc] at hs
  by_cases hfit : n ≤ s.left ∧ s.socket.kernel.used + n ≤ s.socket.kernel.capacity ∧
      (0 < n ∨ s.left = 0)
  · have hle : n ≤ s.left := hfit.1
    have hn : 0 < n := hfit.2.2.resolve_right (by omega)
    simp only [TcpWrite.Kernel.send, if_pos hfit] at hs
    have hlen : (s.sent ++ s.offered.take n).length = s.socket.kernel.used + n := by
      rw [List.length_append, List.length_take, hoffered, h.used, Nat.min_eq_left hle]
    -- A buffer that has room takes all, or is full afterwards.
    have hnoSpace : (s.socket.kernel.noSpace || decide (n < s.left)) = true →
        s.socket.kernel.used + n = c.capacity := by
      rw [Bool.or_eq_true, decide_eq_true_eq]
      rintro (hfull | hshort)
      · have := h.noSpace hfull
        have := h.used
        have := h.capacity
        omega
      · rw [← h.capacity]
        exact hanswers.resolve_left (by omega)
    -- The call is before its `send`, so none of its bytes are accepted yet.
    have hacc : s.accepted = 0 := by simp [accepted, hcalling, Task.isCalling, hpc]
    have hbytes : s.sent ++ s.offered.take n ++
        (s.sources.flatMap Source.data).drop (s.written + n) = s.sent ++ s.unsent := by
      rw [List.append_assoc, htake n hle, unsent, hacc, Nat.add_zero]
    split at hs <;> cases hs
    · refine ⟨{ h with
        socket := hinv
        used := hlen.symm
        noSpace := fun hns => hlen.trans (hnoSpace hns)
        parked := by simp [Parked]
        task := ?_ }, ?_⟩
      · show TaskOk _
        simp only [TaskOk, hcalling]
        exact ⟨hleft, hn, hle⟩
      · rw [← hbytes]
        simp [unsent, accepted, hcalling, Task.isCalling]
    · refine ⟨{ h with
        socket := hinv
        used := hlen.symm
        noSpace := fun hns => hlen.trans (hnoSpace hns)
        parked := by simp [Parked]
        task := ?_ }, ?_⟩
      · show TaskOk _
        simp only [TaskOk, hcalling]
        exact ⟨hleft, hn, hle⟩
      · rw [← hbytes]
        simp [unsent, accepted, hcalling, Task.isCalling]
  · simp [TcpWrite.Kernel.send, if_neg hfit] at hs

/-- The kernel answers the send of the call. -/
theorem Inv.send (h : Inv c s) (hcalling : s.task = .calling) {wanted : Nat}
    (hpc : s.socket.writer.pc = .send wanted) {outcome : TcpWrite.Outcome}
    (hs : Sender.advance s outcome = some s') : Kept c s s' := by
  obtain ⟨hleft, hcall⟩ : 0 < s.left ∧ CallOk s.left s.socket.writer := by
    have := h.task
    rwa [TaskOk, hcalling] at this
  have hwanted : wanted = s.left := by rwa [CallOk, hpc] at hcall
  subst hwanted
  unfold Sender.advance at hs
  simp only [hpc, TcpWrite.step, Option.bind_eq_bind, Option.bind_eq_some_iff] at hs
  obtain ⟨socket, hadvance, hs⟩ := hs
  split at hs
  · rename_i hanswers
    cases hs
    have hinv : TcpWrite.Inv socket := by
      have hstep : TcpWrite.step s.socket (.advance outcome) = some socket := hadvance
      refine TcpWrite.step_inv h.socket hstep ?_
      refine h.careful hcalling ?_
      intro wanted' hpc'
      rw [hpc] at hpc'
      cases hpc'
      exact hanswers
    cases outcome with
    | failed error => cases hanswers
    | interrupted =>
      simp only [TcpWrite.advance, hpc, TcpWrite.Kernel.send, Option.some.injEq] at hadvance
      subst hadvance
      rw [List.append_nil]
      exact h.moveCall hcalling hinv rfl rfl h.parked hcall rfl
    | refused =>
      -- The kernel refuses only when its buffer is full.
      have hfull : s.socket.kernel.used = s.socket.kernel.capacity := of_decide_eq_true hanswers
      simp only [TcpWrite.advance, hpc, TcpWrite.Kernel.send, if_pos hleft,
        Option.some.injEq] at hadvance
      subst hadvance
      rw [List.append_nil]
      refine ⟨{ h with
        socket := hinv
        noSpace := fun _ => by rw [← h.used, hfull, h.capacity]
        parked := by simp [Parked]
        task := ?_ }, ?_⟩
      · show TaskOk _
        simp only [TaskOk, hcalling]
        exact ⟨hleft, trivial⟩
      · simp [unsent, accepted, hpc]
    | accepted n =>
      exact h.accept hcalling hpc hinv (of_decide_eq_true hanswers) hadvance
  · cases hs

/-- The next step of the call. -/
theorem Inv.advance (h : Inv c s) (hcalling : s.task = .calling) {outcome : TcpWrite.Outcome}
    (hs : Sender.advance s outcome = some s') : Kept c s s' := by
  obtain ⟨hleft, hcall⟩ : 0 < s.left ∧ CallOk s.left s.socket.writer := by
    have := h.task
    rwa [TaskOk, hcalling] at this
  -- Only the `send` itself moves bytes.
  by_cases hsend : ∃ wanted, s.socket.writer.pc = .send wanted
  · obtain ⟨wanted, hpc⟩ := hsend
    exact h.send hcalling hpc hs
  · have hnot : ∀ wanted, s.socket.writer.pc ≠ .send wanted := fun wanted heq => hsend ⟨wanted, heq⟩
    have hcareful : TcpWrite.Careful s.socket (.advance outcome) = true :=
      h.careful hcalling fun wanted hpc => absurd hpc (hnot wanted)
    unfold Sender.advance at hs
    simp only [Option.bind_eq_bind, Option.bind_eq_some_iff] at hs
    obtain ⟨socket, hadvance, hs⟩ := hs
    have hinv := TcpWrite.step_inv h.socket hadvance hcareful
    cases hs
    simp only [TcpWrite.step, TcpWrite.advance] at hadvance
    rw [CallOk] at hcall
    cases hpc : s.socket.writer.pc with
    | idle => simp [hpc] at hadvance
    | send wanted => exact absurd hpc (hnot wanted)
    | take wanted =>
      simp only [hpc] at hadvance hcall
      rcases s.socket.slot.takeWritableOrPark_cases s.socket.writer.waker with
        ⟨hw, hc⟩ | ⟨hw, hc⟩ <;> simp only [hc, Option.some.injEq] at hadvance <;> subst hadvance
      · refine h.moveCall hcalling hinv rfl rfl (by simp [Parked]) hcall ?_
        simp [accepted, hpc]
      · refine h.moveCall hcalling hinv rfl rfl ?_ trivial ?_
        · intro _ _ _
          exact .inl ⟨rfl, hw⟩
        · simp [accepted, hpc]
    | mark n =>
      simp only [hpc, Option.some.injEq] at hadvance hcall
      subst hadvance
      refine h.moveCall hcalling hinv rfl rfl (by simp [Parked]) hcall ?_
      simp [accepted, hpc]
    | park =>
      simp only [hpc] at hadvance
      -- Either readiness is there, or the waker is parked where a dispatch finds it.
      rcases s.socket.slot.pollWritable_cases s.socket.writer.waker with
        ⟨hw, hc⟩ | ⟨hw, hc⟩ <;> simp only [hc, Option.some.injEq] at hadvance <;> subst hadvance
      · refine h.moveCall hcalling hinv rfl rfl (by simp [Parked]) trivial ?_
        simp [accepted, hpc]
      · refine h.moveCall hcalling hinv rfl rfl ?_ trivial ?_
        · intro _ _ _
          exact .inl ⟨rfl, hw⟩
        · simp [accepted, hpc]
    | wakeSelf =>
      simp only [hpc, Option.some.injEq] at hadvance
      subst hadvance
      refine h.moveCall hcalling hinv rfl rfl ?_ trivial ?_
      · intro _ _ hwoken
        simp [TcpWrite.Writer.wake] at hwoken
      · simp [accepted, hpc]

/-- What a step of the environment leaves of the socket and of its call. -/
structure Outside (s s' : TcpWrite.State) : Prop where
  pc : s'.writer.pc = s.writer.pc
  returned : s'.writer.returned = s.writer.returned
  sendCapacity : s'.sendCapacity = s.sendCapacity
  capacity : s'.kernel.capacity = s.kernel.capacity

/-- A step of the reactor or of the network. What it does to the buffer is said apart. -/
theorem Inv.outside (h : Inv c s) {socket : TcpWrite.State} {sent : List UInt8}
    (hinv : TcpWrite.Inv socket) (ho : Outside s.socket socket)
    (hused : socket.kernel.used = sent.length)
    (hnoSpace : socket.kernel.noSpace = true → sent.length = c.capacity)
    (hparked : Parked socket) :
    Inv c { s with socket, sent } ∧ ({ s with socket, sent } : Sender).unsent = s.unsent := by
  refine ⟨{ h with
    socket := hinv
    sendCapacity := ho.sendCapacity.trans h.sendCapacity
    capacity := ho.capacity.trans h.capacity
    used := hused
    noSpace := hnoSpace
    parked := hparked
    task := ?_ }, ?_⟩
  · have htask := h.task
    unfold TaskOk CallOk at htask ⊢
    simp only [ho.pc, ho.returned]
    exact htask
  · show (s.sources.flatMap Source.data).drop (s.written + accepted _) = _
    unfold unsent accepted
    rw [ho.pc, ho.returned]

/-- A step of the socket that is not one of the call, nor a drain. -/
theorem Inv.environment (h : Inv c s) {act : TcpWrite.Action}
    (hact : (∃ readable hangup, act = .collect readable hangup) ∨ (∃ i, act = .dispatch i) ∨
      ∃ i, act = .wake i)
    (hs : s.onSocket act = some s') : Kept c s s' := by
  unfold onSocket at hs
  simp only [Option.bind_eq_bind, Option.bind_eq_some_iff, Option.some.injEq] at hs
  obtain ⟨socket, hstep, rfl⟩ := hs
  have hcareful : TcpWrite.Careful s.socket act = true := by
    rcases hact with ⟨_, _, rfl⟩ | ⟨_, rfl⟩ | ⟨_, rfl⟩ <;> rfl
  have hinv := TcpWrite.step_inv h.socket hstep hcareful
  -- The poller takes the edge, an event comes to the slot, or a waker is called.
  rcases hact with ⟨readable, hangup, rfl⟩ | ⟨i, rfl⟩ | ⟨i, rfl⟩
  · cases hstep
    obtain ⟨hinv', hunsent⟩ := h.outside hinv ⟨rfl, rfl, rfl, rfl⟩ h.used h.noSpace h.parked
    exact ⟨hinv', by rw [hunsent]⟩
  · simp only [TcpWrite.step] at hstep
    split at hstep <;> cases hstep
    rename_i e hi
    have hparked : Parked
        { s.socket with
          slot := (s.socket.slot.dispatch e).1
          collected := s.socket.collected.eraseIdx i
          waking := s.socket.waking ++ (s.socket.slot.dispatch e).2
          full := s.socket.full && !e.writable } := by
      -- A waker that the event takes out of the slot is among those to be called.
      intro hpc hret hwoken
      rcases h.parked hpc hret hwoken with ⟨hwriter, hw⟩ | hmem
      · cases he : e.writable with
        | true => exact .inr (List.mem_append_right _ (Wakers.mem_dispatch_of_writer he hwriter))
        | false => exact .inl ⟨by simpa [he] using hwriter, by simpa [he] using hw⟩
      · exact .inr (List.mem_append_left _ hmem)
    obtain ⟨hinv', hunsent⟩ := h.outside hinv ⟨rfl, rfl, rfl, rfl⟩ h.used h.noSpace hparked
    exact ⟨hinv', by rw [hunsent]⟩
  · simp only [TcpWrite.step] at hstep
    split at hstep <;> cases hstep
    rename_i waker hi
    have hwriter : (s.socket.writer.wake waker).pc = s.socket.writer.pc ∧
        (s.socket.writer.wake waker).returned = s.socket.writer.returned ∧
        (s.socket.writer.wake waker).waker = s.socket.writer.waker := by
      unfold TcpWrite.Writer.wake
      split <;> exact ⟨rfl, rfl, rfl⟩
    have hparked : Parked
        { s.socket with
          waking := s.socket.waking.eraseIdx i
          writer := s.socket.writer.wake waker } := by
      intro hpc hret hwoken
      by_cases heq : waker = s.socket.writer.waker
      · -- The wake is the writer's.
        simp [TcpWrite.Writer.wake, heq] at hwoken
      · have hsame : s.socket.writer.wake waker = s.socket.writer := if_neg heq
        simp only [hsame] at hpc hret hwoken ⊢
        refine (h.parked hpc hret hwoken).imp id fun hmem => ?_
        exact mem_eraseIdx_of_ne hmem hi fun h => heq h.symm
    obtain ⟨hinv', hunsent⟩ :=
      h.outside hinv ⟨hwriter.1, hwriter.2.1, rfl, rfl⟩ h.used h.noSpace hparked
    exact ⟨hinv', by rw [hunsent]⟩

/-- The network takes `n` bytes from the send buffer. -/
theorem Inv.drain (h : Inv c s) {n : Nat} (hs : s.onSocket (.drain n) = some s') :
    Inv c { s' with sent := s.sent.drop n } ∧
      ({ s' with sent := s.sent.drop n } : Sender).unsent = s.unsent := by
  unfold onSocket at hs
  simp only [Option.bind_eq_bind, Option.bind_eq_some_iff, Option.some.injEq] at hs
  obtain ⟨socket, hstep, rfl⟩ := hs
  have hinv := TcpWrite.step_inv h.socket hstep rfl
  simp only [TcpWrite.step, TcpWrite.Kernel.drain] at hstep
  split at hstep
  · cases hstep
  · rename_i kernel hdrain
    split at hdrain <;> cases hdrain
    cases hstep
    refine h.outside hinv ⟨rfl, rfl, rfl, rfl⟩ ?_ (by simp) h.parked
    rw [List.length_drop, ← h.used]

/-- Every step at the sending end keeps the invariant and the bytes. -/
theorem Inv.step (h : Inv c s) {act : SendAction} (hs : s.step act = some s') : Kept c s s' := by
  cases act with
  | poll waker =>
    simp only [Sender.step, Option.ite_none_right_eq_some] at hs
    obtain ⟨hdue, hs⟩ := hs
    exact h.poll (Task.waits_of_due hdue) hs
  | pollAnyway waker =>
    simp only [Sender.step, Option.ite_none_right_eq_some] at hs
    exact h.poll hs.1 hs.2
  | advance outcome =>
    simp only [Sender.step, Option.ite_none_right_eq_some] at hs
    exact h.advance (Task.eq_calling hs.1) hs.2
  | answer =>
    simp only [Sender.step, Option.ite_none_right_eq_some] at hs
    exact h.answer hs.1.1 hs.1.2 hs.2
  | collect =>
    simp only [Sender.step, Option.ite_none_right_eq_some] at hs
    exact h.environment (.inl ⟨_, _, rfl⟩) hs.2
  | event readable hangup => exact h.environment (.inl ⟨_, _, rfl⟩) hs
  | dispatch i => exact h.environment (.inr (.inl ⟨i, rfl⟩)) hs
  | wake i => exact h.environment (.inr (.inr ⟨i, rfl⟩)) hs

end Sender

/-! ### The receiver -/

namespace Receiver

variable {c : Connection} {s s' : Receiver}

/-- The bytes that the first buffer has room for. -/
def left (s : Receiver) : Nat :=
  match s.lengths with
  | [] => 0
  | length :: _ => length - s.filled.length

/-- The bytes that the call received and the buffer does not count yet. -/
def taken (s : Receiver) : List UInt8 :=
  if s.task.isCalling then
    match s.socket.reader.pc, s.socket.reader.returned with
    | .count, _ | .mark, _ => s.socket.reader.filled
    | .idle, .ready data => data
    | _, _ => []
  else []

/-- The bytes that the receiver has. -/
def got (s : Receiver) : List UInt8 := s.received.flatten ++ s.filled ++ s.taken

/-- The call that reads at most `left` bytes. -/
def CallOk (left : Nat) (r : TcpRead.Reader) : Prop :=
  match r.pc with
  | .take len | .recv len => len = left
  | .count | .mark => r.filled ≠ [] ∧ r.filled.length ≤ left
  | .park | .wakeSelf => True
  | .idle =>
    match r.returned with
    | .pending => True
    | .ready data => data ≠ [] ∧ data.length ≤ left
    | _ => False

/-- The task and the call it has. -/
def TaskOk (s : Receiver) : Prop :=
  match s.task with
  | .spawned => s.socket.reader.pc = .idle
  | .suspended =>
    s.socket.reader.pc = .idle ∧ s.socket.reader.returned = .pending ∧ 0 < s.left
  | .calling => 0 < s.left ∧ CallOk s.left s.socket.reader
  | .panicked => False
  | .returned result =>
    s.socket.reader.pc = .idle ∧ result = .ok () ∧ s.lengths = []

/-- What holds of the socket, whatever the task does. Nobody hangs up. -/
structure SocketOk (s : TcpRead.State) : Prop where
  socket : TcpRead.Inv s
  eof : s.kernel.eof = false
  hangup : s.slot.hangup = false
  events : ∀ e ∈ s.collected, e.hangup = false

/-- What holds of the buffers. -/
structure BuffersOk (c : Connection) (s : Receiver) : Prop where
  lengths : s.received.map List.length ++ s.lengths = c.lengths
  within : match s.lengths with
    | [] => s.filled = []
    | length :: _ => s.filled.length ≤ length

/-- The invariant of the receiving end. -/
structure Inv (c : Connection) (s : Receiver) : Prop
    extends SocketOk s.socket, BuffersOk c s where
  task : TaskOk s

/-- A step of the receiving end keeps its invariant, and the bytes in their order. -/
structure Kept (c : Connection) (s s' : Receiver) : Prop where
  inv : Inv c s'
  bytes : s'.got ++ s'.socket.kernel.data = s.got ++ s.socket.kernel.data

/-- The loops that are done are skipped, and their buffers are kept. -/
theorem finish_spec (lengths : List Nat) (filled : List UInt8) (received : List (List UInt8))
    (h : match lengths with
      | [] => filled = []
      | length :: _ => filled.length ≤ length) :
    (finish lengths filled received).2.2.flatten ++ (finish lengths filled received).2.1 =
        received.flatten ++ filled ∧
      (finish lengths filled received).2.2.map List.length ++ (finish lengths filled received).1 =
        received.map List.length ++ lengths ∧
      (match (finish lengths filled received).1 with
        | [] => (finish lengths filled received).2.1 = []
        | length :: _ => (finish lengths filled received).2.1.length < length) := by
  induction lengths generalizing filled received with
  | nil =>
    subst h
    exact ⟨rfl, rfl, rfl⟩
  | cons length rest ih =>
    by_cases hlt : filled.length < length
    · rw [finish, if_pos hlt]
      exact ⟨rfl, rfl, hlt⟩
    · have heq : filled.length = length := Nat.le_antisymm h (Nat.le_of_not_lt hlt)
      obtain ⟨hflat, hmap, hwithin⟩ := ih [] (received ++ [filled]) (by cases rest <;> simp)
      rw [finish, if_neg hlt]
      refine ⟨?_, ?_, hwithin⟩
      · rw [hflat]
        simp
      · rw [hmap, ← heq]
        simp

/-- A task that has no call has taken nothing. -/
theorem taken_of_not_calling (h : s.task.isCalling = false) : s.taken = [] := by
  simp [taken, h]

/-- The loop makes the next call, or the task is done. -/
theorem loop_kept {waker : Waker} (hsocket : SocketOk s.socket) (hbuffers : BuffersOk c s)
    (hpc : s.socket.reader.pc = .idle) (hs : loop s waker = some s') :
    Inv c s' ∧ s'.got ++ s'.socket.kernel.data =
      s.received.flatten ++ s.filled ++ s.socket.kernel.data := by
  obtain ⟨hflat, hmap, hwithin⟩ := finish_spec s.lengths s.filled s.received hbuffers.within
  unfold loop at hs
  generalize finish s.lengths s.filled s.received = next at hs hflat hmap hwithin
  obtain ⟨lengths, filled, received⟩ := next
  have hlengths := hmap.trans hbuffers.lengths
  cases lengths with
  | nil =>
    cases hs
    refine ⟨{ hsocket with lengths := hlengths, within := hwithin, task := ⟨hpc, rfl, rfl⟩ }, ?_⟩
    rw [← hflat]
    simp [got, taken, Task.isCalling]
  | cons length rest =>
    have hlt : filled.length < length := hwithin
    simp only [TcpRead.step, hpc, Option.bind_eq_bind, Option.bind_some] at hs
    cases hs
    have hstart : s.socket.reader.start .pollRead waker (length - filled.length) =
        { s.socket.reader with
          pc := .take (length - filled.length), waker, filled := [], returned := .nothing,
          woken := false } := by
      simp [TcpRead.Reader.start]
    refine ⟨{ hsocket with
      socket := TcpRead.inv_call hsocket.socket .pollRead waker _ hpc
      lengths := hlengths
      within := hlt.le
      task := ⟨Nat.sub_pos_of_lt hlt, by rw [hstart]; rfl⟩ }, ?_⟩
    rw [← hflat]
    simp [got, taken, hstart]

/-- A task that waits has no call. -/
theorem Inv.idle_of_waits (h : Inv c s) (hwaits : s.task.waits = true) :
    s.socket.reader.pc = .idle := by
  have htask := h.task
  unfold TaskOk at htask
  cases ht : s.task <;> simp [ht, Task.waits] at hwaits <;> simp only [ht] at htask
  · exact htask
  · exact htask.1

/-- A task that waits is polled. -/
theorem Inv.poll {waker : Waker} (h : Inv c s) (hwaits : s.task.waits = true)
    (hs : loop s waker = some s') : Kept c s s' := by
  obtain ⟨hinv, hbytes⟩ := loop_kept h.toSocketOk h.toBuffersOk (h.idle_of_waits hwaits) hs
  refine ⟨hinv, hbytes.trans ?_⟩
  rw [got, taken_of_not_calling (Task.not_calling_of_waits hwaits), List.append_nil]

/-- The loop goes on with the result of its call. -/
theorem Inv.answer (h : Inv c s) (hcalling : s.task.isCalling = true)
    (hpc : s.socket.reader.pc = .idle) (hs : Receiver.answer s = some s') : Kept c s s' := by
  have htask := Task.eq_calling hcalling
  obtain ⟨hleft, hcall⟩ : 0 < s.left ∧ CallOk s.left s.socket.reader := by
    have := h.task
    rwa [TaskOk, htask] at this
  rw [CallOk, hpc] at hcall
  unfold Receiver.answer at hs
  cases hret : s.socket.reader.returned with
  | nothing => simp [hret] at hs
  | pending =>
    simp only [hret, Option.some.injEq] at hs
    subst hs
    refine ⟨{ h with task := ⟨hpc, hret, hleft⟩ }, ?_⟩
    have htaken : s.taken = [] := by simp [taken, htask, Task.isCalling, hpc, hret]
    rw [got, got, htaken, taken_of_not_calling rfl]
  | failed error => simp [hret] at hcall
  | ready data =>
    simp only [hret] at hcall hs
    rw [if_neg hcall.1] at hs
    have hbuffers : BuffersOk c { s with filled := s.filled ++ data } := by
      refine ⟨h.lengths, ?_⟩
      have hle := hcall.2
      unfold left at hle hleft
      cases hlengths : s.lengths with
      | nil => simp [hlengths] at hleft
      | cons length rest =>
        simp only [hlengths, List.length_append] at hle hleft ⊢
        omega
    obtain ⟨hinv, hbytes⟩ := loop_kept (s := { s with filled := s.filled ++ data })
      h.toSocketOk hbuffers hpc hs
    refine ⟨hinv, hbytes.trans ?_⟩
    have htaken : s.taken = data := by simp [taken, htask, Task.isCalling, hpc, hret]
    rw [got, htaken]
    simp only [List.append_assoc]

/-- The call takes a step that moves bytes from the queue to the call, or none. -/
theorem Inv.moveCall (h : Inv c s) (hcalling : s.task = .calling) {socket : TcpRead.State}
    (hinv : TcpRead.Inv socket) (heof : socket.kernel.eof = s.socket.kernel.eof)
    (hhangup : socket.slot.hangup = s.socket.slot.hangup)
    (hevents : socket.collected = s.socket.collected) (hcall : CallOk s.left socket.reader)
    (hbytes : ({ s with socket } : Receiver).taken ++ socket.kernel.data =
      s.taken ++ s.socket.kernel.data) : Kept c s { s with socket } := by
  have htask := h.task
  rw [TaskOk, hcalling] at htask
  refine ⟨{ h with
    socket := hinv
    eof := heof.trans h.eof
    hangup := hhangup.trans h.hangup
    events := by rw [hevents]; exact h.events
    task := ?_ }, ?_⟩
  · show TaskOk { s with socket }
    rw [TaskOk, hcalling]
    exact ⟨htask.1, hcall⟩
  · rw [got, got, List.append_assoc, hbytes, ← List.append_assoc]

/-- The kernel answers the `recv` of the call. -/
theorem Inv.recv (h : Inv c s) (hcalling : s.task = .calling)
    (hpc : s.socket.reader.pc = .recv s.left) {outcome : TcpRead.Outcome}
    (hok : outcome.ok = true) {socket : TcpRead.State} (hinv : TcpRead.Inv socket)
    (hs : TcpRead.advance s.socket outcome = some socket) :
    Kept c s { s with socket } := by
  have hleft : 0 < s.left := by
    have := h.task
    rw [TaskOk, hcalling] at this
    exact this.1
  have htaken : s.taken = [] := by simp [taken, hpc]
  unfold TcpRead.advance at hs
  cases outcome with
  | failed error => cases hok
  | interrupted =>
    simp only [hpc, TcpRead.Kernel.recv, Option.some.injEq] at hs
    subst hs
    refine h.moveCall hcalling hinv rfl rfl rfl ?_ rfl
    rw [CallOk, hpc]
  | done =>
    -- The queue is empty, or the call takes as much as fits.
    by_cases hdata : s.socket.kernel.data = []
    · have hnone : s.socket.kernel.data = [] ∧ s.socket.kernel.eof = false ∧ 0 < s.left :=
        ⟨hdata, h.eof, hleft⟩
      simp only [hpc, TcpRead.Kernel.recv, if_pos hnone, Option.some.injEq] at hs
      subst hs
      refine h.moveCall hcalling hinv rfl rfl rfl trivial ?_
      rw [htaken]
      simp [taken]
    · have hsome : ¬(s.socket.kernel.data = [] ∧ s.socket.kernel.eof = false ∧ 0 < s.left) :=
        fun hnone => hdata hnone.1
      have hne : s.socket.kernel.data.take s.left ≠ [] := by
        rw [Ne, List.take_eq_nil_iff]
        rintro (hzero | hnil)
        · omega
        · exact hdata hnil
      have hle : (s.socket.kernel.data.take s.left).length ≤ s.left := List.length_take_le _ _
      simp only [hpc, TcpRead.Kernel.recv, if_neg hsome] at hs
      split at hs <;> cases hs
      · refine h.moveCall hcalling hinv rfl rfl rfl ⟨hne, hle⟩ ?_
        rw [htaken]
        simp [taken, hcalling, Task.isCalling]
      · refine h.moveCall hcalling hinv rfl rfl rfl ⟨hne, hle⟩ ?_
        rw [htaken]
        simp [taken, hcalling, Task.isCalling]

/-- The next step of the call. -/
theorem Inv.advance (h : Inv c s) (hcalling : s.task = .calling) {outcome : TcpRead.Outcome}
    (hok : answers s.socket.reader.pc outcome = true)
    (hs : s.onSocket (.advance outcome) = some s') : Kept c s s' := by
  obtain ⟨hleft, hcall⟩ : 0 < s.left ∧ CallOk s.left s.socket.reader := by
    have := h.task
    rwa [TaskOk, hcalling] at this
  unfold onSocket at hs
  simp only [Option.bind_eq_bind, Option.bind_eq_some_iff, Option.some.injEq] at hs
  obtain ⟨socket, hadvance, rfl⟩ := hs
  -- No answer that the task allows is an error.
  have hcareful : TcpRead.NoHardError s.socket (.advance outcome) = true := by
    unfold TcpRead.NoHardError
    cases hpc : s.socket.reader.pc <;> try rfl
    rw [hpc] at hok
    cases outcome <;> first | rfl | cases hok
  have hinv := TcpRead.step_inv h.socket hadvance hcareful
  simp only [TcpRead.step] at hadvance
  rw [CallOk] at hcall
  cases hpc : s.socket.reader.pc with
  | idle => simp [TcpRead.advance, hpc] at hadvance
  | recv len =>
    simp only [hpc] at hcall
    subst hcall
    refine h.recv hcalling hpc ?_ hinv hadvance
    simpa [TcpRead.NoHardError, hpc] using hcareful
  | take len =>
    simp only [hpc] at hcall
    rcases s.socket.slot.takeReadableOrPark_cases s.socket.reader.waker with
      hc | ⟨-, -, hc⟩ <;> simp only [TcpRead.advance, hpc, hc, Option.some.injEq] at hadvance <;>
      subst hadvance
    · exact h.moveCall hcalling hinv rfl rfl rfl hcall (by simp [taken, hpc])
    · exact h.moveCall hcalling hinv rfl rfl rfl trivial (by simp [taken, hpc])
  | count =>
    simp only [hpc] at hcall
    simp only [TcpRead.advance, hpc] at hadvance
    split at hadvance <;> cases hadvance
    · exact h.moveCall hcalling hinv rfl rfl rfl hcall (by simp [taken, hpc])
    · exact h.moveCall hcalling hinv rfl rfl rfl hcall (by simp [taken, hpc])
  | mark =>
    simp only [hpc] at hcall
    simp only [TcpRead.advance, hpc, Option.some.injEq] at hadvance
    subst hadvance
    exact h.moveCall hcalling hinv rfl rfl rfl hcall (by simp [taken, hpc])
  | park =>
    rcases s.socket.slot.pollReadable_cases s.socket.reader.waker with
      hc | ⟨-, -, hc⟩ <;> simp only [TcpRead.advance, hpc, hc, Option.some.injEq] at hadvance <;>
      subst hadvance
    · exact h.moveCall hcalling hinv rfl rfl rfl trivial (by simp [taken, hpc])
    · exact h.moveCall hcalling hinv rfl rfl rfl trivial (by simp [taken, hpc])
  | wakeSelf =>
    simp only [TcpRead.advance, hpc, Option.some.injEq] at hadvance
    subst hadvance
    exact h.moveCall hcalling hinv rfl rfl rfl trivial (by simp [taken, hpc])

/-- A step of the reactor or of the network. -/
theorem Inv.outside (h : Inv c s) {socket : TcpRead.State} (hsocket : SocketOk socket)
    (hpc : socket.reader.pc = s.socket.reader.pc)
    (hreturned : socket.reader.returned = s.socket.reader.returned)
    (hfilled : socket.reader.filled = s.socket.reader.filled) :
    Inv c { s with socket } ∧ ({ s with socket } : Receiver).got = s.got := by
  refine ⟨{ hsocket with lengths := h.lengths, within := h.within, task := ?_ }, ?_⟩
  · have htask := h.task
    unfold TaskOk CallOk at htask ⊢
    simp only [hpc, hreturned, hfilled]
    exact htask
  · unfold got taken
    rw [hpc, hreturned, hfilled]

/-- A step of the socket that is not one of the call, nor an arrival. -/
theorem Inv.environment (h : Inv c s) {act : TcpRead.Action}
    (hact : (∃ writable, act = .collect writable) ∨ (∃ i, act = .dispatch i) ∨ ∃ i, act = .wake i)
    (hs : s.onSocket act = some s') : Kept c s s' := by
  unfold onSocket at hs
  simp only [Option.bind_eq_bind, Option.bind_eq_some_iff, Option.some.injEq] at hs
  obtain ⟨socket, hstep, rfl⟩ := hs
  have hcareful : TcpRead.NoHardError s.socket act = true := by
    rcases hact with ⟨_, rfl⟩ | ⟨_, rfl⟩ | ⟨_, rfl⟩ <;> rfl
  have hinv := TcpRead.step_inv h.socket hstep hcareful
  rcases hact with ⟨writable, rfl⟩ | ⟨i, rfl⟩ | ⟨i, rfl⟩
  · simp only [TcpRead.step, Option.ite_none_right_eq_some, Option.some.injEq] at hstep
    obtain ⟨-, rfl⟩ := hstep
    -- No event says that the other end has closed.
    have hevents : ∀ e ∈ s.socket.collected ++ [s.socket.kernel.flags writable],
        e.hangup = false := by
      intro e he
      rcases List.mem_append.mp he with he | he
      · exact h.events e he
      · rw [List.mem_singleton.mp he]
        exact h.eof
    obtain ⟨hinv', hgot⟩ := h.outside ⟨hinv, h.eof, h.hangup, hevents⟩ rfl rfl rfl
    exact ⟨hinv', by rw [hgot]⟩
  · simp only [TcpRead.step] at hstep
    split at hstep <;> cases hstep
    rename_i e hi
    have hhangup : (s.socket.slot.dispatch e).1.hangup = false := by
      rw [Wakers.dispatch_hangup, h.hangup, h.events e (List.mem_of_getElem? hi)]
      rfl
    obtain ⟨hinv', hgot⟩ := h.outside
      ⟨hinv, h.eof, hhangup, fun e he => h.events e (List.mem_of_mem_eraseIdx he)⟩ rfl rfl rfl
    exact ⟨hinv', by rw [hgot]⟩
  · simp only [TcpRead.step] at hstep
    split at hstep <;> cases hstep
    rename_i waker hi
    have hreader : (s.socket.reader.wake waker).pc = s.socket.reader.pc ∧
        (s.socket.reader.wake waker).returned = s.socket.reader.returned ∧
        (s.socket.reader.wake waker).filled = s.socket.reader.filled := by
      unfold TcpRead.Reader.wake
      split <;> exact ⟨rfl, rfl, rfl⟩
    obtain ⟨hinv', hgot⟩ := h.outside ⟨hinv, h.eof, h.hangup, h.events⟩
      hreader.1 hreader.2.1 hreader.2.2
    exact ⟨hinv', by rw [hgot]⟩

/-- The network brings bytes. -/
theorem Inv.arrive (h : Inv c s) {bytes : List UInt8}
    (hs : s.onSocket (.arrive bytes) = some s') :
    Inv c s' ∧ s'.got ++ s'.socket.kernel.data = s.got ++ s.socket.kernel.data ++ bytes := by
  unfold onSocket at hs
  simp only [Option.bind_eq_bind, Option.bind_eq_some_iff, Option.some.injEq] at hs
  obtain ⟨socket, hstep, rfl⟩ := hs
  have hinv := TcpRead.step_inv h.socket hstep rfl
  simp only [TcpRead.step] at hstep
  split at hstep <;> cases hstep
  obtain ⟨hinv', hgot⟩ := h.outside ⟨hinv, h.eof, h.hangup, h.events⟩ rfl rfl rfl
  exact ⟨hinv', by rw [hgot, List.append_assoc]⟩

/-- Every step at the receiving end keeps the invariant and the bytes. -/
theorem Inv.step (h : Inv c s) {act : RecvAction} (hs : s.step act = some s') : Kept c s s' := by
  cases act with
  | poll waker =>
    simp only [Receiver.step, Option.ite_none_right_eq_some] at hs
    exact h.poll (Task.waits_of_due hs.1) hs.2
  | pollAnyway waker =>
    simp only [Receiver.step, Option.ite_none_right_eq_some] at hs
    exact h.poll hs.1 hs.2
  | advance outcome =>
    simp only [Receiver.step, Option.ite_none_right_eq_some] at hs
    exact h.advance (Task.eq_calling hs.1.1) hs.1.2 hs.2
  | answer =>
    simp only [Receiver.step, Option.ite_none_right_eq_some] at hs
    exact h.answer hs.1.1 hs.1.2 hs.2
  | collect writable => exact h.environment (.inl ⟨writable, rfl⟩) hs
  | dispatch i => exact h.environment (.inr (.inl ⟨i, rfl⟩)) hs
  | wake i => exact h.environment (.inr (.inr ⟨i, rfl⟩)) hs

end Receiver

/-! ### The connection -/

/-- The bytes that the sender is to write, in order. -/
def Connection.bytes (c : Connection) : List UInt8 := c.sources.flatMap Source.data

/-- No source is as large as the send buffer that was reported. A larger one may be taken for proof
that the buffer is full, and then the sender waits for an edge that does not come. -/
def Connection.Fits (c : Connection) : Prop :=
  c.sendCapacity = 0 ∨ ∀ source ∈ c.sources, source.total < c.sendCapacity

/-- The invariant of a connection. -/
structure Inv (c : Connection) (s : State) : Prop where
  sender : Sender.Inv c s.sender
  receiver : Receiver.Inv c s.receiver
  stream : s.receiver.got ++ s.receiver.socket.kernel.data ++ (s.sender.sent ++ s.sender.unsent) =
    c.bytes

variable {c : Connection} {s s' : State}

/-- The two ends of a connection that is new. -/
theorem inv_new (hfits : c.Fits) : Inv c (new c) := by
  refine ⟨?_, ?_, rfl⟩
  · exact {
      socket := TcpWrite.inv_init _ ⟨_, _, rfl⟩
      sendCapacity := rfl
      capacity := rfl
      used := rfl
      noSpace := by simp [new, TcpWrite.new]
      parked := by simp [Sender.Parked, new, TcpWrite.new]
      fits := hfits
      within := by cases h : c.sources <;> simp [new, h]
      task := rfl }
  · exact {
      socket := TcpRead.inv_init _ ⟨_, _, rfl⟩
      eof := rfl
      hangup := rfl
      events := by simp [new, TcpRead.new]
      lengths := rfl
      within := by cases h : c.lengths <;> simp [new, h]
      task := rfl }

/-- The network moves the first bytes of the send buffer to the end of the receive buffer. -/
theorem Inv.transmit (h : Inv c s) {n : Nat} (hs : Stream.transmit c s n = some s') : Inv c s' := by
  unfold Stream.transmit at hs
  simp only [Option.ite_none_right_eq_some, Option.bind_eq_bind, Option.bind_eq_some_iff,
    Option.some.injEq] at hs
  obtain ⟨-, sender, hsender, receiver, hreceiver, rfl⟩ := hs
  obtain ⟨hinv, hunsent⟩ := h.sender.drain hsender
  obtain ⟨hinv', hgot⟩ := h.receiver.arrive hreceiver
  refine ⟨hinv, hinv', ?_⟩
  rw [hgot, hunsent, ← h.stream, List.append_assoc _ (s.sender.sent.take n),
    ← List.append_assoc (s.sender.sent.take n), List.take_append_drop]

/-- Every step keeps the invariant. -/
theorem inv_step {act : Action} (h : Inv c s) (hs : step c s act = some s') : Inv c s' := by
  cases act with
  | sender act =>
    simp only [step, Option.bind_eq_bind, Option.bind_eq_some_iff, Option.some.injEq] at hs
    obtain ⟨sender, hsender, rfl⟩ := hs
    have hkept := h.sender.step hsender
    refine ⟨hkept.inv, h.receiver, ?_⟩
    rw [hkept.bytes]
    exact h.stream
  | receiver act =>
    simp only [step, Option.bind_eq_bind, Option.bind_eq_some_iff, Option.some.injEq] at hs
    obtain ⟨receiver, hreceiver, rfl⟩ := hs
    have hkept := h.receiver.step hreceiver
    refine ⟨h.sender, hkept.inv, ?_⟩
    rw [hkept.bytes]
    exact h.stream
  | transmit n => exact h.transmit hs

/-- The invariant holds in every state of every run. -/
theorem inv_of_reachable (hfits : c.Fits) (hr : (system c).Reachable s) : Inv c s := by
  refine hr.invariant (P := Inv c) ?_ ?_
  · rintro s rfl
    exact inv_new hfits
  · intro s act s' h hs
    exact inv_step h hs

/-- A list of bytes, cut into pieces of these lengths. -/
def pieces : List Nat → List UInt8 → List (List UInt8)
  | [], _ => []
  | length :: rest, bytes => bytes.take length :: pieces rest (bytes.drop length)

/-- Lists that stand at the head of some bytes one after the other are the pieces of their
lengths. -/
theorem pieces_of_flatten {received : List (List UInt8)} {rest : List UInt8} :
    pieces (received.map List.length) (received.flatten ++ rest) = received := by
  induction received with
  | nil => rfl
  | cons piece received ih =>
    simp only [List.map_cons, List.flatten_cons, List.append_assoc, pieces, List.take_left,
      List.drop_left]
    rw [ih]

/-- The buffers that were filled are the first pieces of the sources. -/
theorem Inv.received_eq (h : Inv c s) :
    s.receiver.received = pieces (c.lengths.take s.receiver.received.length) c.bytes := by
  have hmap : c.lengths.take s.receiver.received.length =
      s.receiver.received.map List.length := by
    rw [← h.receiver.lengths, List.take_left' (List.length_map ..)]
  have hstream := h.stream
  unfold Receiver.got at hstream
  rw [hmap, ← hstream]
  simp only [List.append_assoc]
  exact pieces_of_flatten.symm

/-- What `read_exact` reads is what `write_all` wrote: the buffers that are filled are the first
pieces of the sources, in order, whatever the kernel accepts of a write, brings of it at a time and
interrupts, and whatever events and wakes there are. Neither task fails, and the receiver returns
with all its buffers. -/
theorem read_exact_gets_written (hfits : c.Fits) (hr : (system c).Reachable s) :
    s.receiver.received = pieces (c.lengths.take s.receiver.received.length) c.bytes ∧
      (∀ result, s.receiver.task = .returned result →
        result = .ok () ∧ s.receiver.received = pieces c.lengths c.bytes) ∧
      (∀ result, s.sender.task = .returned result → result = .ok ()) ∧
      s.sender.task ≠ .panicked ∧ s.receiver.task ≠ .panicked := by
  have h := inv_of_reachable hfits hr
  refine ⟨h.received_eq, ?_, ?_, ?_, ?_⟩
  · intro result hret
    obtain ⟨-, hok, hlengths⟩ : s.receiver.socket.reader.pc = .idle ∧ result = .ok () ∧
        s.receiver.lengths = [] := by
      have := h.receiver.task
      rwa [Receiver.TaskOk, hret] at this
    refine ⟨hok, ?_⟩
    have hlen : s.receiver.received.length = c.lengths.length := by
      rw [← h.receiver.lengths, hlengths, List.append_nil, List.length_map]
    have heq := h.received_eq
    rwa [hlen, List.take_length] at heq
  · intro result hret
    have := h.sender.task
    rw [Sender.TaskOk, hret] at this
    exact this.2.1
  · intro hret
    have := h.sender.task
    rw [Sender.TaskOk, hret] at this
    exact this
  · intro hret
    have := h.receiver.task
    rw [Receiver.TaskOk, hret] at this
    exact this

/-- Three bytes through buffers of two, read as two and one. -/
def small : Connection where
  sources := [.vectored [1] [2, 3]]
  lengths := [2, 1]
  capacity := 2
  sendCapacity := 4
  room := 2

/-- The sender fills its buffer and sleeps, and so does the receiver between its buffers. -/
def smallRun : List Action :=
  [.sender (.poll 7), .sender (.advance .refused), .sender (.advance (.accepted 2)),
    .sender .answer, .sender (.advance .refused), .sender .answer,
    .receiver (.poll 3), .receiver (.advance .done), .receiver (.advance .done),
    .receiver (.advance .done), .receiver .answer,
    .transmit 2, .receiver (.collect true), .receiver (.dispatch 0), .receiver (.wake 0),
    .receiver (.poll 3), .receiver (.advance .done), .receiver (.advance .done),
    .receiver (.advance .done), .receiver .answer, .receiver (.advance .done), .receiver .answer,
    .sender .collect, .sender (.dispatch 0), .sender (.wake 0), .sender (.poll 7),
    .sender (.advance .refused), .sender (.advance .interrupted), .sender (.advance (.accepted 1)),
    .sender (.advance .refused), .sender .answer,
    .transmit 1, .receiver (.collect false), .receiver (.dispatch 0), .receiver (.wake 0),
    .receiver (.poll 3), .receiver (.advance .done), .receiver (.advance .done),
    .receiver (.advance .done), .receiver .answer]

/-- After half of that run the receiver has its first buffer, and the sender sleeps. -/
theorem read_exact_gets_written_small :
    ∃ s, (system small).Reachable s ∧ s.receiver.received = [[1, 2]] := by
  obtain ⟨s, hr, hlen⟩ := Lts.Reachable.exists_of_run (M := system small) (s := new small)
    (smallRun.take 22) (fun s => s.receiver.received.length = 1) rfl (by decide)
  have h := (read_exact_gets_written (c := small) (.inr (by decide)) hr).1
  rw [of_decide_eq_true hlen] at h
  exact ⟨s, hr, h⟩

end Stream

end Nagoya.Net
