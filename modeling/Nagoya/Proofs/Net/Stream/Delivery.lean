import Nagoya.Proofs.Net.Stream.Writing

/-!
# `Nagoya.Proofs.Net.Stream.Delivery`: every byte is delivered

On a path that is fair to the two tasks, to their reactors and to the network, `read_exact` returns.
The next byte that the receiver lacks is in the receive buffer, in the send buffer, or with the
sender. The first is read (`reading`), the second is transmitted, and the third is written
(`writing`). So the receiver gets one byte after the other (`delivers`), and when it has all that
its buffers have room for, it returns. The sender returns when the receiver has all that it wrote.
-/

set_option autoImplicit false

namespace Nagoya.Net.Stream

open Nagoya.Lib Nagoya.Reactor

open Lts.Path
open WriteAll (Source)

variable {c : Connection} {s s' : State}

/-- The step is one of the network. -/
def ofNetwork : Action → Prop
  | .transmit _ => True
  | _ => False

/-- The path is fair to the two ends and to the network. -/
structure Fair (ρ : (system c).Path) : Prop where
  reader : readEdge.Fair ρ
  writer : writeEdge.Fair ρ
  network : ρ.WeakFair ofNetwork

/-- The receiver keeps what it has got. -/
theorem Inv.got_le (h : Inv c s) {a : Action} (hs : step c s a = some s') :
    s.receiver.got.length ≤ s'.receiver.got.length := by
  obtain ⟨o, hm, -⟩ := Receiver.moved_of_step hs
  rcases h.receiver.gets hm with hlt | ⟨heq, -⟩
  · exact hlt.le
  · rw [heq]

/-- What the receiver has got, it has from then on. -/
theorem got_stable (hfits : c.Fits) (k : Nat) (s : State) (a : Action) (s' : State)
    (hr : (system c).Reachable s) (hk : k ≤ s.receiver.got.length)
    (hs : (system c).next s a = some s') : k ≤ s'.receiver.got.length :=
  Nat.le_trans hk ((inv_of_reachable hfits hr).got_le hs)

/-- The network can move a byte into an empty receive buffer. -/
theorem Inv.transmit_enabled (h : Inv c s) (hroom : 0 < c.room) (hsent : s.sender.sent ≠ [])
    (hdata : s.receiver.socket.kernel.data = []) : (system c).Enabled ofNetwork s := by
  refine ⟨.transmit 1, trivial, ?_⟩
  have hlen : 0 < s.sender.sent.length := List.length_pos_iff.mpr hsent
  have hused := h.sender.used
  have heof := h.receiver.eof
  have hcond : 1 ≤ s.sender.sent.length ∧ s.receiver.socket.kernel.data.length + 1 ≤ c.room := by
    rw [hdata, List.length_nil]
    omega
  have hdrain : 0 < 1 ∧ 1 ≤ s.sender.socket.kernel.used := by omega
  have harrive : ¬(s.sender.sent.take 1 = [] ∨ s.receiver.socket.kernel.eof = true) := by
    simp [hsent, heof]
  show (Stream.transmit c s 1).isSome = true
  simp only [Stream.transmit, if_pos hcond, Sender.onSocket, TcpWrite.step, TcpWrite.Kernel.drain,
    if_pos hdrain, Receiver.onSocket, TcpRead.step, if_neg harrive, Option.bind_eq_bind,
    Option.bind_some, Option.isSome_some]

/-- What is in the send buffer comes to the receive buffer. -/
theorem transmits (hfits : c.Fits) (hroom : 0 < c.room) {ρ : (system c).Path}
    (fair : ρ.WeakFair ofNetwork) (k : Nat) :
    ρ.LeadsTo
      (fun s => s.sender.sent ≠ [] ∧ s.receiver.socket.kernel.data = [] ∧
        s.receiver.got.length = k)
      (fun s => s.receiver.got.length = k ∧ s.receiver.socket.kernel.data ≠ []) := by
  -- Until the network moves, the sender only adds bytes and the receiver finds none.
  have hstep : ∀ s a s', (system c).Reachable s →
      (s.sender.sent ≠ [] ∧ s.receiver.socket.kernel.data = [] ∧ s.receiver.got.length = k) →
      (system c).next s a = some s' →
      (s'.receiver.got.length = k ∧ s'.receiver.socket.kernel.data ≠ []) ∨
        (s'.sender.sent ≠ [] ∧ s'.receiver.socket.kernel.data = [] ∧
          s'.receiver.got.length = k) ∧ ¬ofNetwork a := by
    rintro s a s' hr ⟨hsent, hdata, rfl⟩ hn
    have h := inv_of_reachable hfits hr
    have hn : step c s a = some s' := hn
    cases a with
    | sender act =>
      simp only [step, Option.bind_eq_bind, Option.bind_eq_some_iff, Option.some.injEq] at hn
      obtain ⟨sender, hsender, rfl⟩ := hn
      obtain ⟨bytes, hbytes⟩ := h.sender.sent_grows hsender
      exact .inr ⟨⟨by simp [hbytes, hsent], hdata, rfl⟩, id⟩
    | receiver act =>
      simp only [step, Option.bind_eq_bind, Option.bind_eq_some_iff, Option.some.injEq] at hn
      obtain ⟨receiver, hreceiver, rfl⟩ := hn
      obtain ⟨hgot, hdata'⟩ := h.receiver.stays_empty hdata hreceiver
      exact .inr ⟨⟨hsent, hdata', congrArg List.length hgot⟩, id⟩
    | transmit n =>
      left
      simp only [step, transmit, Option.ite_none_right_eq_some, Option.bind_eq_bind,
        Option.bind_eq_some_iff, Option.some.injEq] at hn
      obtain ⟨-, sender, -, receiver, hreceiver, rfl⟩ := hn
      obtain ⟨-, hbytes⟩ := h.receiver.arrive hreceiver
      simp only [Receiver.onSocket, TcpRead.step, Option.bind_eq_bind, Option.bind_eq_some_iff,
        Option.some.injEq] at hreceiver
      obtain ⟨socket, harrive, rfl⟩ := hreceiver
      split at harrive <;> cases harrive
      rename_i hne
      exact ⟨rfl, fun hnil => hne (.inl (List.append_eq_nil_iff.mp hnil).2)⟩
  refine leadsTo_of_step fair ?_ ?_ ?_
  · exact fun s a s' hr hs hn => (hstep s a s' hr hs hn).imp id And.left
  · exact fun s a s' hr hs ha hn => (hstep s a s' hr hs hn).resolve_right fun h => h.2 ha
  · rintro s hr ⟨hsent, hdata, -⟩
    exact .inr ((inv_of_reachable hfits hr).transmit_enabled hroom hsent hdata)

/-- The receiver gets the next byte. -/
theorem delivers (hfits : c.Fits) (hcapacity : 0 < c.capacity) (hroom : 0 < c.room) {k : Nat}
    (hk : k < c.lengths.sum) (hbytes : k < c.bytes.length) {ρ : (system c).Path} (fair : Fair ρ) :
    ρ.LeadsTo (fun s => s.receiver.got.length = k) (fun s => k < s.receiver.got.length) := by
  have hread := (reading hfits hk).leadsTo fair.reader
  have htransmit := (transmits hfits hroom fair.network k).trans hread
  have hwrite := ((writing hfits hcapacity hbytes).leadsTo fair.writer).and_stable
    (got_stable hfits k)
  -- What the sender wrote may be with the receiver by now.
  have hsent : ρ.LeadsTo (fun s => s.sender.sent ≠ [] ∧ k ≤ s.receiver.got.length)
      (fun s => k < s.receiver.got.length) := by
    rintro n ⟨hsent, hle⟩
    by_cases hlt : k < (ρ.state n).receiver.got.length
    · exact ⟨n, Nat.le_refl n, hlt⟩
    · have hgot : (ρ.state n).receiver.got.length = k := by omega
      by_cases hdata : (ρ.state n).receiver.socket.kernel.data = []
      · exact htransmit n ⟨hsent, hdata, hgot⟩
      · exact hread n ⟨hgot, hdata⟩
  intro n hgot
  by_cases hdata : (ρ.state n).receiver.socket.kernel.data = []
  · by_cases hempty : (ρ.state n).sender.sent = []
    · exact (hwrite.trans hsent) n ⟨⟨hempty, hdata, hgot⟩, hgot.ge⟩
    · exact htransmit n ⟨hempty, hdata, hgot⟩
  · exact hread n ⟨hgot, hdata⟩

/-- The receiver gets all that its buffers have room for. -/
theorem delivers_all (hfits : c.Fits) (hcapacity : 0 < c.capacity) (hroom : 0 < c.room)
    (henough : c.lengths.sum ≤ c.bytes.length) {ρ : (system c).Path} (fair : Fair ρ) {k : Nat}
    (hk : k ≤ c.lengths.sum) :
    ρ.LeadsTo (fun _ => True) (fun s => k ≤ s.receiver.got.length) := by
  induction k with
  | zero => exact leadsTo_of_imp fun _ _ _ => Nat.zero_le _
  | succ k ih =>
    refine (ih (by omega)).trans fun n hle => ?_
    by_cases hlt : k < (ρ.state n).receiver.got.length
    · exact ⟨n, Nat.le_refl n, hlt⟩
    · exact delivers hfits hcapacity hroom (by omega) (by omega) fair n (by omega)

/-! ### The ends of the two tasks -/

/-- A receiver that has all its bytes is new, has returned, or has them in its last call. -/
theorem Receiver.Inv.last {r : Receiver} (h : Receiver.Inv c r)
    (hall : c.lengths.sum ≤ r.got.length) :
    r.task = .spawned ∨ (∃ result, r.task = .returned result) ∨
      r.task = .calling ∧ (r.socket.reader.pc = .count ∨ r.socket.reader.pc = .mark ∨
        r.socket.reader.pc = .idle ∧
          ∃ data, data ≠ [] ∧ r.socket.reader.returned = .ready data) := by
  have hlen :
      r.got.length = (r.received.map List.length).sum + r.filled.length + r.taken.length := by
    rw [Receiver.got, List.length_append, List.length_append, List.length_flatten]
  -- What the call has taken fills the room that is left.
  have htaken : r.left ≤ r.taken.length := by
    have hsum := congrArg List.sum h.lengths
    rw [List.sum_append] at hsum
    have hwithin := h.within
    unfold Receiver.left
    cases hl : r.lengths with
    | nil => simp
    | cons length rest =>
      simp only [hl, List.sum_cons] at hsum hwithin ⊢
      omega
  have htask := h.task
  unfold Receiver.TaskOk at htask
  cases ht : r.task with
  | spawned => exact .inl rfl
  | returned result => exact .inr (.inl ⟨result, rfl⟩)
  | panicked => simp [ht] at htask
  | suspended =>
    -- A suspended call has taken nothing, so its buffer would be full before it was called.
    simp only [ht] at htask
    rw [Receiver.taken_of_not_calling (by rw [ht]; rfl)] at htaken
    have hzero : r.left ≤ 0 := htaken
    omega
  | calling =>
    simp only [ht] at htask
    obtain ⟨hleft, hcall⟩ := htask
    rw [Receiver.CallOk] at hcall
    refine .inr (.inr ⟨rfl, ?_⟩)
    cases hpc : r.socket.reader.pc with
    | count => exact .inl rfl
    | mark => exact .inr (.inl rfl)
    | idle =>
      refine .inr (.inr ⟨rfl, ?_⟩)
      simp only [hpc] at hcall
      cases hr : r.socket.reader.returned with
      | ready data =>
        simp only [hr] at hcall
        exact ⟨data, hcall.1, rfl⟩
      | nothing | failed _ => simp [hr] at hcall
      | pending =>
        simp only [Receiver.taken, ht, hpc, hr, Task.isCalling, if_true, List.length_nil] at htaken
        omega
    | take _ | recv _ | park | wakeSelf =>
      simp only [Receiver.taken, ht, hpc, Task.isCalling, if_true, List.length_nil] at htaken
      omega

/-- The loop of a receiver that has all its bytes returns. -/
theorem Receiver.Inv.loop_last {r r' : Receiver} {waker : Waker} (hinv : Receiver.Inv c r')
    (hall : c.lengths.sum ≤ r'.got.length) (hpc : r.socket.reader.pc = .idle)
    (hs : Receiver.loop r waker = some r') : r'.task = .returned (.ok ()) := by
  obtain ⟨-, -, -, -, hret | ⟨hcalling, len, htake⟩⟩ := Receiver.loop_cases hpc hs
  · exact hret
  · rcases hinv.last hall with ht | ⟨result, ht⟩ | ⟨-, hc | hm | ⟨hi, -⟩⟩
    · rw [hcalling] at ht
      cases ht
    · rw [hcalling] at ht
      cases ht
    · rw [htake] at hc
      cases hc
    · rw [htake] at hm
      cases hm
    · rw [htake] at hi
      cases hi

/-- A step of a receiver that has all its bytes brings it closer to its return. -/
theorem Receiver.Inv.ends {r r' : Receiver} (h : Receiver.Inv c r)
    (hall : c.lengths.sum ≤ r.got.length) {act : RecvAction} (hact : Receiver.ofTask act)
    (hs : r.step act = some r') :
    r'.task = .returned (.ok ()) ∨ r'.place < r.place := by
  have hinv := (h.step hs).inv
  have hall' : c.lengths.sum ≤ r'.got.length := by
    rcases h.gets (o := some act) hs with hlt | ⟨heq, -⟩
    · omega
    · rwa [heq]
  cases act with
  | poll waker =>
    simp only [Receiver.step, Option.ite_none_right_eq_some] at hs
    exact .inl (hinv.loop_last hall' (h.idle_of_waits (Task.waits_of_due hs.1)) hs.2)
  | pollAnyway waker =>
    simp only [Receiver.step, Option.ite_none_right_eq_some] at hs
    exact .inl (hinv.loop_last hall' (h.idle_of_waits hs.1) hs.2)
  | advance outcome =>
    right
    simp only [Receiver.step, Receiver.onSocket, TcpRead.step, TcpRead.advance,
      Option.ite_none_right_eq_some, Option.bind_eq_bind, Option.bind_eq_some_iff,
      Option.some.injEq] at hs
    obtain ⟨⟨hcalling, -⟩, socket, hadvance, rfl⟩ := hs
    have htask := Task.eq_calling hcalling
    -- With all bytes taken the call is past its `recv`.
    rcases h.last hall with ht | ⟨result, ht⟩ | ⟨-, hpc | hpc | ⟨hpc, -⟩⟩
    · rw [htask] at ht
      cases ht
    · rw [htask] at ht
      cases ht
    · simp only [hpc] at hadvance
      split at hadvance <;> cases hadvance <;> simp [Receiver.place, htask, hpc]
    · simp only [hpc, Option.some.injEq] at hadvance
      subst hadvance
      simp [Receiver.place, htask, hpc]
    · simp [hpc] at hadvance
  | answer =>
    left
    simp only [Receiver.step, Receiver.answer, Option.ite_none_right_eq_some] at hs
    obtain ⟨⟨hcalling, hpc⟩, hs⟩ := hs
    have htask := Task.eq_calling hcalling
    -- Here the call has returned, and with bytes.
    rcases h.last hall with ht | ⟨result, ht⟩ | ⟨-, hc | hm | ⟨-, data, hdata, hret⟩⟩
    · rw [htask] at ht
      cases ht
    · rw [htask] at ht
      cases ht
    · rw [hpc] at hc
      cases hc
    · rw [hpc] at hm
      cases hm
    · simp only [hret, if_neg hdata] at hs
      exact hinv.loop_last (r := { r with filled := r.filled ++ data }) hall' hpc hs
  | collect _ | dispatch _ | wake _ => cases hact

/-- A receiver that has all its bytes does not sleep. -/
theorem Receiver.Inv.awake {r : Receiver} (h : Receiver.Inv c r)
    (hall : c.lengths.sum ≤ r.got.length) : r.place ≠ 5 := by
  rcases h.last hall with ht | ⟨result, ht⟩ | ⟨ht, hpc | hpc | ⟨hpc, data, -, hret⟩⟩
  · simp [Receiver.place, ht]
  · simp [Receiver.place, ht]
  · simp [Receiver.place, ht, hpc]
  · simp [Receiver.place, ht, hpc]
  · simp [Receiver.place, ht, hpc, hret]

/-- A receiver that has all its bytes returns. -/
theorem receiver_returns (hfits : c.Fits) {ρ : (system c).Path} (fair : ρ.WeakFair readEdge.task) :
    ρ.LeadsTo (fun s => c.lengths.sum ≤ s.receiver.got.length)
      (fun s => s.receiver.task = .returned (.ok ())) := by
  have hstep : ∀ s a s', (system c).Reachable s → c.lengths.sum ≤ s.receiver.got.length →
      (system c).next s a = some s' →
      s'.receiver.task = .returned (.ok ()) ∨ s'.receiver.place ≤ s.receiver.place ∧
        (readEdge.task a → s'.receiver.place < s.receiver.place) := by
    intro s a s' hr hall hn
    have h := (inv_of_reachable hfits hr).receiver
    obtain ⟨o, hm, ha⟩ := Receiver.moved_of_step hn
    rcases Receiver.task_or_socket hm with ⟨act, rfl, hact, hm⟩ | ⟨hnot, socket, hs', hstep⟩
    · exact (h.ends hall hact hm).imp id fun hlt => ⟨hlt.le, fun _ => hlt⟩
    · right
      refine ⟨by rw [hs']; exact hstep.frame.place, ?_⟩
      rintro ⟨act, rfl, howed⟩
      exact absurd (Receiver.ofTask_of_owed howed) (hnot act ((ha _).mp rfl))
  refine leadsTo_of_rank (fun s => s.receiver.place) fair ?_ ?_ ?_
  · intro s a s' hr hall hn
    exact (hstep s a s' hr hall hn).imp id fun h => ⟨got_stable hfits _ s a s' hr hall hn, h.1⟩
  · intro s a s' hr hall ha hn
    exact (hstep s a s' hr hall hn).imp id fun h => h.2 ha
  · intro s hr hall
    have h := (inv_of_reachable hfits hr).receiver
    by_cases hret : ∃ result, s.receiver.task = .returned result
    · obtain ⟨result, ht⟩ := hret
      left
      have htask := h.task
      rw [Receiver.TaskOk, ht] at htask
      rw [ht, htask.2.1]
    · right
      obtain ⟨act, howed, hsome⟩ := h.enabled (h.awake hall) fun result ht => hret ⟨result, ht⟩
      exact enabled_receiver ⟨act, rfl, howed⟩ hsome

/-- A sender with nothing left to send is new, has returned, or got the rest accepted in its last
call. -/
theorem Sender.Inv.last {w : Sender} (h : Sender.Inv c w) (hunsent : w.unsent = []) :
    w.task = .spawned ∨ (∃ result, w.task = .returned result) ∨
      w.task = .calling ∧ ((∃ n, w.socket.writer.pc = .mark n) ∨
        w.socket.writer.pc = .idle ∧ ∃ n, n ≠ 0 ∧ w.socket.writer.returned = .ready n) := by
  -- What the call got accepted is all that is left of the first source.
  have haccepted : w.left ≤ w.accepted := by
    unfold Sender.unsent at hunsent
    have hlen := List.drop_eq_nil_iff.mp hunsent
    unfold Sender.left
    cases hsrc : w.sources with
    | nil => exact Nat.zero_le _
    | cons source rest =>
      rw [hsrc, List.flatMap_cons, List.length_append, Source.length_data] at hlen
      show source.total - w.written ≤ w.accepted
      omega
  have htask := h.task
  unfold Sender.TaskOk at htask
  cases ht : w.task with
  | spawned => exact .inl rfl
  | returned result => exact .inr (.inl ⟨result, rfl⟩)
  | panicked => simp [ht] at htask
  | suspended =>
    -- A suspended call got nothing accepted, so there would be nothing left to offer.
    simp only [ht] at htask
    rw [Sender.accepted_of_not_calling (by rw [ht]; rfl)] at haccepted
    omega
  | calling =>
    simp only [ht] at htask
    obtain ⟨hleft, hcall⟩ := htask
    rw [Sender.CallOk] at hcall
    refine .inr (.inr ⟨rfl, ?_⟩)
    cases hpc : w.socket.writer.pc with
    | mark n => exact .inl ⟨n, rfl⟩
    | idle =>
      refine .inr ⟨rfl, ?_⟩
      simp only [hpc] at hcall
      cases hr : w.socket.writer.returned with
      | ready n =>
        simp only [hr] at hcall
        exact ⟨n, by omega, rfl⟩
      | nothing | failed _ => simp [hr] at hcall
      | pending =>
        simp only [Sender.accepted, ht, hpc, hr, Task.isCalling, if_true] at haccepted
        omega
    | take _ | send _ | park | wakeSelf =>
      simp only [Sender.accepted, ht, hpc, Task.isCalling, if_true] at haccepted
      omega

/-- The loop of a sender with nothing left to send returns. -/
theorem Sender.Inv.loop_last {w w' : Sender} {waker : Waker} (hinv : Sender.Inv c w')
    (hunsent : w'.unsent = []) (hpc : w.socket.writer.pc = .idle)
    (hs : Sender.loop w waker = some w') : w'.task = .returned (.ok ()) := by
  obtain ⟨-, -, -, -, hret | hpanic | ⟨hcalling, wanted, htake⟩⟩ := Sender.loop_cases hpc hs
  · exact hret
  · have := hinv.task
    rw [Sender.TaskOk, hpanic] at this
    exact this.elim
  · rcases hinv.last hunsent with ht | ⟨result, ht⟩ | ⟨-, ⟨n, hm⟩ | ⟨hi, -⟩⟩
    · rw [hcalling] at ht
      cases ht
    · rw [hcalling] at ht
      cases ht
    · rw [htake] at hm
      cases hm
    · rw [htake] at hi
      cases hi

/-- A step of a sender with nothing left to send brings it closer to its return. -/
theorem Sender.Inv.ends {w w' : Sender} (h : Sender.Inv c w) (hsent : w.sent = [])
    (hunsent : w.unsent = []) {act : SendAction} (hact : Sender.ofTask act)
    (hs : w.step act = some w') : w'.task = .returned (.ok ()) ∨ w'.place < w.place := by
  have hinv := (h.step hs).inv
  have hunsent' : w'.unsent = [] := by
    have hbytes := (h.step hs).bytes
    rw [hsent, hunsent] at hbytes
    exact (List.append_eq_nil_iff.mp hbytes).2
  cases act with
  | poll waker =>
    simp only [Sender.step, Option.ite_none_right_eq_some] at hs
    exact .inl (hinv.loop_last hunsent' (h.idle_of_waits (Task.waits_of_due hs.1)) hs.2)
  | pollAnyway waker =>
    simp only [Sender.step, Option.ite_none_right_eq_some] at hs
    exact .inl (hinv.loop_last hunsent' (h.idle_of_waits hs.1) hs.2)
  | advance outcome =>
    right
    simp only [Sender.step, Sender.advance, TcpWrite.step, TcpWrite.advance,
      Option.ite_none_right_eq_some, Option.bind_eq_bind, Option.bind_eq_some_iff] at hs
    obtain ⟨hcalling, socket, hadvance, hs⟩ := hs
    have htask := Task.eq_calling hcalling
    -- With all bytes accepted the call is past its `send`.
    rcases h.last hunsent with ht | ⟨result, ht⟩ | ⟨-, ⟨n, hpc⟩ | ⟨hpc, -⟩⟩
    · rw [htask] at ht
      cases ht
    · rw [htask] at ht
      cases ht
    · simp only [hpc, Option.some.injEq] at hadvance hs
      subst hadvance hs
      simp [Sender.place, htask, hpc]
    · simp [hpc] at hadvance
  | answer =>
    left
    simp only [Sender.step, Sender.answer, Option.ite_none_right_eq_some] at hs
    obtain ⟨⟨hcalling, hpc⟩, hs⟩ := hs
    have htask := Task.eq_calling hcalling
    rcases h.last hunsent with ht | ⟨result, ht⟩ | ⟨-, ⟨n, hm⟩ | ⟨-, n, hn, hret⟩⟩
    · rw [htask] at ht
      cases ht
    · rw [htask] at ht
      cases ht
    · rw [hpc] at hm
      cases hm
    · simp only [hret, if_neg hn] at hs
      exact hinv.loop_last (w := { w with written := w.written + n }) hunsent' hpc hs
  | collect | event _ _ | dispatch _ | wake _ => cases hact

/-- A sender with nothing left to send has a next step until it has returned. -/
theorem Sender.Inv.last_enabled {w : Sender} (h : Sender.Inv c w) (hunsent : w.unsent = [])
    (hret : ∀ result, w.task ≠ .returned result) :
    ∃ act, Sender.owed act ∧ (w.step act).isSome = true := by
  rcases h.last hunsent with ht | ⟨result, ht⟩ | ⟨ht, ⟨n, hpc⟩ | ⟨hpc, n, hn, hready⟩⟩
  · refine ⟨.poll 0, trivial, ?_⟩
    simp only [Sender.step, ht, Task.due, if_true]
    exact Sender.loop_isSome 0 (h.idle_of_waits (by rw [ht]; rfl))
  · exact absurd ht (hret result)
  · refine ⟨.advance .refused, trivial, ?_⟩
    simp [Sender.step, ht, Task.isCalling, Sender.advance, TcpWrite.step, TcpWrite.advance, hpc]
  · refine ⟨.answer, trivial, ?_⟩
    simp only [Sender.step, ht, Task.isCalling, hpc, and_self, if_true, Sender.answer, hready,
      if_neg hn]
    exact Sender.loop_isSome (s := { w with written := w.written + n }) _ hpc

/-- When the receiver has every byte, nothing is left to send or on its way. -/
theorem Inv.all_got (h : Inv c s) (hall : c.bytes.length ≤ s.receiver.got.length) :
    s.sender.sent = [] ∧ s.sender.unsent = [] := by
  have hlen := congrArg List.length h.stream
  simp only [List.length_append] at hlen
  exact ⟨List.length_eq_zero_iff.mp (by omega), List.length_eq_zero_iff.mp (by omega)⟩

/-- A sender whose bytes are all with the receiver returns. -/
theorem sender_returns (hfits : c.Fits) {ρ : (system c).Path} (fair : ρ.WeakFair writeEdge.task) :
    ρ.LeadsTo (fun s => c.bytes.length ≤ s.receiver.got.length)
      (fun s => s.sender.task = .returned (.ok ())) := by
  have hstep : ∀ s a s', (system c).Reachable s → c.bytes.length ≤ s.receiver.got.length →
      (system c).next s a = some s' →
      s'.sender.task = .returned (.ok ()) ∨ s'.sender.place ≤ s.sender.place ∧
        (writeEdge.task a → s'.sender.place < s.sender.place) := by
    intro s a s' hr hall hn
    have h := inv_of_reachable hfits hr
    obtain ⟨hsent, hunsent⟩ := h.all_got hall
    obtain ⟨o, hm, ha⟩ := Sender.moved_of_step hsent hn
    rcases Sender.task_or_socket hm with ⟨act, rfl, hact, hm⟩ | ⟨hnot, socket, hs', hstep⟩
    · exact (h.sender.ends hsent hunsent hact hm).imp id fun hlt => ⟨hlt.le, fun _ => hlt⟩
    · right
      refine ⟨by rw [hs']; exact hstep.frame.place, ?_⟩
      rintro ⟨act, rfl, howed⟩
      exact absurd (Sender.ofTask_of_owed howed) (hnot act ((ha _).mp rfl))
  refine leadsTo_of_rank (fun s => s.sender.place) fair ?_ ?_ ?_
  · intro s a s' hr hall hn
    exact (hstep s a s' hr hall hn).imp id fun h => ⟨got_stable hfits _ s a s' hr hall hn, h.1⟩
  · intro s a s' hr hall ha hn
    exact (hstep s a s' hr hall hn).imp id fun h => h.2 ha
  · intro s hr hall
    have h := inv_of_reachable hfits hr
    by_cases hret : ∃ result, s.sender.task = .returned result
    · obtain ⟨result, ht⟩ := hret
      left
      have htask := h.sender.task
      rw [Sender.TaskOk, ht] at htask
      rw [ht, htask.2.1]
    · right
      obtain ⟨act, howed, hsome⟩ :=
        h.sender.last_enabled (h.all_got hall).2 fun result ht => hret ⟨result, ht⟩
      exact enabled_sender ⟨act, rfl, howed⟩ hsome

/-- On a fair path `read_exact` returns with all its buffers, when the sender has as many bytes as
they hold, and neither buffer of the connection is of size zero. When it has no more than these, the
sender's `write_all` returns too. -/
theorem read_exact_returns (hfits : c.Fits) (hcapacity : 0 < c.capacity) (hroom : 0 < c.room)
    (henough : c.lengths.sum ≤ c.bytes.length) {ρ : (system c).Path} (fair : Fair ρ) :
    (∃ n, (ρ.state n).receiver.task = .returned (.ok ()) ∧
      (ρ.state n).receiver.received = pieces c.lengths c.bytes) ∧
      (c.lengths.sum = c.bytes.length → ∃ n, (ρ.state n).sender.task = .returned (.ok ())) := by
  have hall := delivers_all hfits hcapacity hroom henough fair (Nat.le_refl c.lengths.sum)
  refine ⟨?_, ?_⟩
  · obtain ⟨n, -, hret⟩ := (hall.trans (receiver_returns hfits fair.reader.task)) 0 trivial
    refine ⟨n, hret, ?_⟩
    have hinv := inv_of_reachable hfits (ρ.reachable n)
    have hlengths : (ρ.state n).receiver.lengths = [] := by
      have := hinv.receiver.task
      rw [Receiver.TaskOk, hret] at this
      exact this.2.2
    have hlength : (ρ.state n).receiver.received.length = c.lengths.length := by
      rw [← hinv.receiver.lengths, hlengths, List.append_nil, List.length_map]
    rw [hinv.received_eq, hlength, List.take_length]
  · intro heq
    rw [heq] at hall
    obtain ⟨n, -, hret⟩ := (hall.trans (sender_returns hfits fair.writer.task)) 0 trivial
    exact ⟨n, hret⟩

/-- The check that no party of a fair path has a step. -/
def quiet (s : State) : Bool :=
  !s.receiver.task.waits && !s.receiver.task.isCalling && !s.receiver.socket.kernel.queued &&
    s.receiver.socket.collected.isEmpty && s.receiver.socket.waking.isEmpty &&
    !s.sender.task.waits && !s.sender.task.isCalling && !s.sender.socket.kernel.queued &&
    s.sender.socket.collected.isEmpty && s.sender.socket.waking.isEmpty && s.sender.sent.isEmpty

/-- A run that ends in a quiet state is a fair path. -/
theorem fair_of_quiet {s t : State} {as : List Action} {h0 : (system c).init s}
    {h : (system c).run s as = some t} (hquiet : quiet t = true) :
    Fair (Lts.Path.ofRun as h0 h) := by
  simp only [quiet, Bool.and_eq_true, Bool.not_eq_true', List.isEmpty_iff] at hquiet
  obtain ⟨⟨⟨⟨⟨⟨⟨⟨⟨⟨hrw, hrc⟩, hrq⟩, hre⟩, hrk⟩, hsw⟩, hsc⟩, hsq⟩, hse⟩, hsk⟩, hsent⟩ := hquiet
  have hrdue : t.receiver.task.due t.receiver.socket.reader.woken = false := by
    by_contra hdue
    exact absurd (Task.waits_of_due (Bool.not_eq_false _ ▸ hdue)) (by simp [hrw])
  have hsdue : t.sender.task.due t.sender.socket.writer.woken = false := by
    by_contra hdue
    exact absurd (Task.waits_of_due (Bool.not_eq_false _ ▸ hdue)) (by simp [hsw])
  refine ⟨⟨?_, ?_, ?_, ?_⟩, ⟨?_, ?_, ?_, ?_⟩, ?_⟩ <;> refine fair_ofRun ?_
  · rintro ⟨_, ⟨act, rfl, howed⟩, hs⟩
    cases act <;> first | exact howed.elim | simp [system, step, Receiver.step, hrdue, hrc] at hs
  · rintro ⟨_, ⟨writable, rfl⟩, hs⟩
    simp [system, step, Receiver.step, Receiver.onSocket, TcpRead.step, hrq] at hs
  · rintro ⟨_, rfl, hs⟩
    simp [system, step, Receiver.step, Receiver.onSocket, TcpRead.step, hre] at hs
  · rintro ⟨_, rfl, hs⟩
    simp [system, step, Receiver.step, Receiver.onSocket, TcpRead.step, hrk] at hs
  · rintro ⟨_, ⟨act, rfl, howed⟩, hs⟩
    cases act <;> first | exact howed.elim | simp [system, step, Sender.step, hsdue, hsc] at hs
  · rintro ⟨_, rfl, hs⟩
    simp [system, step, Sender.step, hsq] at hs
  · rintro ⟨_, rfl, hs⟩
    simp [system, step, Sender.step, Sender.onSocket, TcpWrite.step, hse] at hs
  · rintro ⟨_, rfl, hs⟩
    simp [system, step, Sender.step, Sender.onSocket, TcpWrite.step, hsk] at hs
  · rintro ⟨act, hact, hs⟩
    cases act with
    | sender _ | receiver _ => exact hact
    | transmit n =>
      have hs : (transmit c t n).isSome = true := hs
      rw [transmit_empty hsent] at hs
      cases hs

/-- Both tasks of the small connection return. -/
theorem read_exact_returns_small :
    ∃ ρ : (system small).Path,
      (∃ n, (ρ.state n).receiver.task = .returned (.ok ()) ∧
        (ρ.state n).receiver.received = [[1, 2], [3]]) ∧
      ∃ n, (ρ.state n).sender.task = .returned (.ok ()) := by
  obtain ⟨t, hrun, hquiet⟩ :=
    Option.map_eq_some_iff.mp (show ((system small).run (new small) smallRun).map quiet = some true
      by decide)
  let ρ : (system small).Path := Lts.Path.ofRun smallRun rfl hrun
  have fair : Fair ρ := fair_of_quiet hquiet
  have h := read_exact_returns (c := small) (.inr (by decide)) (by decide) (by decide) (by decide)
    fair
  exact ⟨ρ, h.1, h.2 rfl⟩

end Nagoya.Net.Stream
