import Nagoya.Lib.Progress
import Nagoya.Net.WriteAll
import Nagoya.Proofs.Io
import Nagoya.Proofs.Reactor.Driver

/-!
# `Nagoya.Proofs.Net.WriteAll`: a vectored write is a write of the concatenation

Whatever the slices are, a send of either future offers the bytes that were not accepted yet, so
both are one loop over the bytes (`Inv`). The library says how such a loop ends.

The two futures are also compared step by step. `State.flat` joins the two slices of a vectored
write, and it maps each step of `WriteAllVectored` to the step of `WriteAll` under the same label
(`step_flat`). So every run of the one is a run of the other.
-/

set_option autoImplicit false

namespace Nagoya.Net.WriteAll

open Nagoya.Lib Nagoya.Reactor
open Nagoya.Io (StreamError WriteCall accepted)

/-! ### The slices -/

/-- The bytes that a future writes. -/
def Source.data : Source → List UInt8
  | .vectored header payload => header ++ payload
  | .all buffer => buffer

variable {source : Source} {sendCapacity : Nat} {s s' : State}

theorem Source.length_data : source.data.length = source.total := by
  cases source with
  | vectored header payload => exact List.length_append ..
  | all buffer => rfl

theorem sliceFrom_of_le {slice : List UInt8} {start : Nat} (h : start ≤ slice.length) :
    sliceFrom slice start = some (slice.drop start) := if_pos h

/-- While bytes are left no index is out of range, and the slices are the bytes that are left. -/
theorem Source.slices_spec {written : Nat} (h : written < source.total) :
    ∃ first second, source.slices written = some (first, second) ∧
      first ++ second = source.data.drop written := by
  cases source with
  | vectored header payload =>
    by_cases hw : written < header.length
    · -- The remainder starts inside the header.
      refine ⟨header.drop written, payload, ?_, (List.drop_append_of_le_length hw.le).symm⟩
      show (if written < header.length then _ else _) = _
      rw [if_pos hw, sliceFrom_of_le hw.le]
      rfl
    · have hle : header.length ≤ written := Nat.le_of_not_lt hw
      have hpayload : written - header.length ≤ payload.length := by
        have hlt : written < header.length + payload.length := h
        omega
      refine ⟨[], payload.drop (written - header.length), ?_, ?_⟩
      · show (if written < header.length then _ else _) = _
        rw [if_neg hw, sliceFrom_of_le hpayload]
        rfl
      · show _ = (header ++ payload).drop written
        rw [List.drop_append, List.drop_eq_nil_of_le hle]
  | all buffer =>
    refine ⟨[], buffer.drop written, ?_, rfl⟩
    show (sliceFrom buffer written).bind _ = _
    rw [sliceFrom_of_le (Nat.le_of_lt h)]
    rfl

/-- Skipping an empty first entry takes nothing from what the kernel is offered. -/
theorem iovecs_flatten (first second : List UInt8) :
    (iovecs first second).flatten = first ++ second := by
  cases first with
  | nil => simp [iovecs]
  | cons b first => simp [iovecs]

/-! ### The loop over the bytes -/

/-- Both futures have enough when all bytes are accepted. Zero is a broken pipe, and a send that
would block or was interrupted is made again. -/
def policy (total : Nat) : Policy StreamError :=
  { enough := fun written => !decide (written < total)
    zero := brokenPipe
    retry := fun error => error.wouldBlock || error.interrupted }

/-- The answers of the kernel. -/
def answers (sends : List (WriteCall StreamError)) : List (Except StreamError Nat) :=
  sends.map (·.result)

/-- How far the future is. What a send accepted counts while readiness is still put back. -/
def progress (source : Source) (s : State) : Progress StreamError :=
  match s.pc with
  | .returned result => ⟨s.written, some result⟩
  | .mark n => (policy source.total).resume (s.written + n)
  | .idle => (policy source.total).resume 0
  | _ => ⟨s.written, none⟩

/-- What the program counter says about the counter. -/
def Pc.Ok (source : Source) (written : Nat) : Pc → Prop
  | .idle => written = 0
  | .take first second => written < source.total ∧ first ++ second = source.data.drop written
  | .send first second => written < source.total ∧ first ++ second = source.data.drop written
  | .mark n => 0 < n ∧ written + n ≤ source.total
  | .pending => written < source.total
  | .park => written < source.total
  | .wakeSelf => written < source.total
  | .returned _ => True
  | .panicked => False

/-- The invariant: no index is out of range, each send offered what was not accepted before it
and that was something, the accepted bytes are the first ones, and the counter and the return are
those of the library's loop. -/
structure Inv (source : Source) (s : State) : Prop where
  ok : s.pc.Ok source s.written
  remains : ∀ c ∈ s.sends, c.offered ≠ []
  offers (i : Nat) (c : WriteCall StreamError) : s.sends[i]? = some c →
    c.offered = source.data.drop (accepted (s.sends.take i)).length
  accepts : accepted s.sends = source.data.take (moved (answers s.sends))
  follows : (policy source.total).Follows (answers s.sends) (progress source s)

/-- The head of the loop, with no more bytes written than there are. -/
theorem loop_spec (source : Source) (s : State) :
    (loop source s).sends = s.sends ∧
    (loop source s).pc.Ok source (loop source s).written ∧
    progress source (loop source s) = (policy source.total).resume s.written := by
  unfold loop
  by_cases hlt : s.written < source.total
  · obtain ⟨first, second, hslices, hdata⟩ := Source.slices_spec hlt
    rw [if_pos hlt, hslices]
    refine ⟨rfl, ⟨hlt, hdata⟩, ?_⟩
    simp [progress, Policy.resume, policy, hlt]
  · rw [if_neg hlt]
    refine ⟨rfl, trivial, ?_⟩
    simp [progress, Policy.resume, policy, hlt]

/-- `Ready(Ok(n))`, as the library's loop takes it. -/
theorem ready_spec (source : Source) (s : State) (n : Nat) :
    (ready source s n).sends = s.sends ∧
    (ready source s n).pc.Ok source (ready source s n).written ∧
    progress source (ready source s n) = (policy source.total).step ⟨s.written, none⟩ (.ok n) := by
  cases n with
  | zero => exact ⟨rfl, trivial, rfl⟩
  | succ n => exact loop_spec source { s with written := s.written + (n + 1) }

/-- A step that sends nothing. -/
theorem Inv.of_sends (h : Inv source s) (hsends : s'.sends = s.sends)
    (hok : s'.pc.Ok source s'.written) (hprogress : progress source s' = progress source s) :
    Inv source s' := by
  refine ⟨hok, ?_, ?_, ?_, ?_⟩
  · rw [hsends]
    exact h.remains
  · rw [hsends]
    exact h.offers
  · rw [hsends]
    exact h.accepts
  · rw [hsends, hprogress]
    exact h.follows

/-- A send. What it offers is what was not accepted, and its answer is one for the library. -/
theorem Inv.of_send (h : Inv source s) {first second : List UInt8}
    (hpc : s.pc = .send first second) {answer : Except StreamError Nat}
    (hsends : s'.sends = s.sends ++ [⟨first ++ second, answer⟩])
    (hok : s'.pc.Ok source s'.written)
    (hprogress : progress source s' =
      (policy source.total).step ⟨s.written, none⟩ answer) :
    Inv source s' := by
  have hat := h.ok
  rw [hpc] at hat
  obtain ⟨hlt, hdata⟩ := hat
  have hp : progress source s = ⟨s.written, none⟩ := by rw [progress, hpc]
  have hdone : s.written = moved (answers s.sends) := by
    rw [← h.follows.done_eq, hp]
  -- What was accepted before is what the loop has counted.
  have haccepts : accepted s.sends = source.data.take s.written := by rw [h.accepts, hdone]
  have hlen : (accepted s.sends).length = s.written := by
    rw [haccepts]
    exact List.length_take_of_le (by rw [Source.length_data]; exact hlt.le)
  refine ⟨hok, ?_, ?_, ?_, ?_⟩
  · intro c hc
    rw [hsends] at hc
    rcases List.mem_append.mp hc with hc | hc
    · exact h.remains c hc
    · rw [List.mem_singleton.mp hc]
      show first ++ second ≠ []
      rw [hdata, ne_eq, List.drop_eq_nil_iff, Source.length_data, Nat.not_le]
      exact hlt
  · intro i c hi
    rw [hsends] at hi ⊢
    -- An earlier send, this one, or none.
    rcases Nat.lt_trichotomy i s.sends.length with hi' | hi' | hi'
    · rw [List.getElem?_append_left hi'] at hi
      rw [List.take_append_of_le_length hi'.le]
      exact h.offers i c hi
    · rw [hi', List.getElem?_concat_length] at hi
      cases hi
      rw [hi', List.take_left, hlen, ← hdata]
    · rw [List.getElem?_eq_none (by simpa using Nat.succ_le_of_lt hi')] at hi
      cases hi
  · rw [hsends, Io.WriteAll.accepted_snoc, answers, List.map_append, moved_append]
    show _ = List.take (moved (answers s.sends) + _) _
    rw [← hdone, List.take_add, ← hdata, haccepts]
    cases answer with
    | ok n => rfl
    | error e => rfl
  · rw [hsends, hprogress, ← hp, answers, List.map_append]
    exact Policy.follows_step h.follows (by rw [hp])

theorem inv_new (source : Source) (slot : Wakers) : Inv source (new slot) :=
  ⟨rfl, nofun, nofun, rfl, Policy.follows_resume nofun⟩

/-- The answer of the kernel. -/
theorem Inv.answered (h : Inv source s) {first second : List UInt8}
    (hpc : s.pc = .send first second) {answer : Except StreamError Nat}
    (hs : answered source sendCapacity s first second answer = some s') : Inv source s' := by
  have hat := h.ok
  rw [hpc] at hat
  obtain ⟨hlt, hdata⟩ := hat
  unfold WriteAll.answered at hs
  rw [iovecs_flatten] at hs
  cases answer with
  | ok n =>
    simp only at hs
    split at hs
    · split at hs
      · -- All of it was taken, and readiness is put back before the loop counts it.
        rename_i hrestores
        cases hs
        have hwanted : n = first.length + second.length := by
          simp only [TcpWrite.restores, decide_eq_true_eq] at hrestores
          exact hrestores.1
        have hrest : first.length + second.length = source.total - s.written := by
          rw [← List.length_append, hdata, List.length_drop, Source.length_data]
        have hpos : 0 < n := by omega
        refine h.of_send hpc rfl ⟨hpos, ?_⟩ ?_
        · show s.written + n ≤ source.total
          omega
        · obtain ⟨m, rfl⟩ := Nat.exists_eq_add_of_lt hpos
          rfl
      · cases hs
        obtain ⟨hsends, hok, hprogress⟩ := ready_spec source
          { s with sends := s.sends ++ [⟨first ++ second, .ok n⟩] } n
        exact h.of_send hpc hsends hok hprogress
    · cases hs
  | error error =>
    simp only at hs
    have hstep : (policy source.total).step ⟨s.written, none⟩ (.error error) =
        if error.wouldBlock || error.interrupted then ⟨s.written, none⟩
        else ⟨s.written, some (.error error)⟩ := Policy.step_error rfl error
    split at hs
    · rename_i hblock
      cases hs
      refine h.of_send hpc rfl hlt ?_
      rw [hstep, hblock]
      rfl
    · rename_i hblock
      -- An interrupted send is made again, and every other error is returned.
      split at hs
      · rename_i hintr
        cases hs
        refine h.of_send hpc rfl ?_ ?_
        · show s.pc.Ok source s.written
          rw [hpc]
          exact ⟨hlt, hdata⟩
        · rw [hstep, hintr, Bool.or_true, if_pos rfl]
          show progress source { s with sends := _ } = _
          simp only [progress, hpc]
      · rename_i hintr
        cases hs
        refine h.of_send hpc rfl trivial ?_
        rw [hstep, if_neg (by simp [hblock, hintr])]
        rfl

/-- One step of the future. -/
theorem Inv.advance (h : Inv source s) {answer : Except StreamError Nat}
    (hs : advance source sendCapacity s answer = some s') : Inv source s' := by
  have hat := h.ok
  unfold WriteAll.advance at hs
  cases hpc : s.pc with
  | take first second =>
    rw [hpc] at hat hs
    have hp : progress source s = ⟨s.written, none⟩ := by rw [progress, hpc]
    rcases s.slot.takeWritableOrPark_cases s.waker with ⟨-, heq⟩ | ⟨-, heq⟩
    · simp only [heq] at hs
      cases hs
      exact h.of_sends rfl hat hp.symm
    · simp only [heq] at hs
      cases hs
      exact h.of_sends rfl hat.1 hp.symm
  | send first second =>
    rw [hpc] at hs
    exact h.answered hpc hs
  | mark n =>
    rw [hpc] at hat hs
    cases hs
    obtain ⟨hsends, hok, hprogress⟩ := ready_spec source { s with slot := s.slot.markWritable } n
    refine h.of_sends hsends hok (hprogress.trans ?_)
    obtain ⟨m, rfl⟩ := Nat.exists_eq_add_of_lt hat.1
    simp only [progress, hpc]
    rfl
  | park =>
    rw [hpc] at hat hs
    have hp : progress source s = ⟨s.written, none⟩ := by rw [progress, hpc]
    rcases s.slot.pollWritable_cases s.waker with ⟨-, heq⟩ | ⟨-, heq⟩
    all_goals
      simp only [heq] at hs
      cases hs
      exact h.of_sends rfl hat hp.symm
  | wakeSelf =>
    rw [hpc] at hat hs
    cases hs
    exact h.of_sends rfl hat (by simp only [progress, hpc])
  | idle =>
    rw [hpc] at hs
    cases hs
  | pending =>
    rw [hpc] at hs
    cases hs
  | returned result =>
    rw [hpc] at hs
    cases hs
  | panicked =>
    rw [hpc] at hs
    cases hs

/-- One step of any party. -/
theorem Inv.step (h : Inv source s) {a : Action} (hs : step source sendCapacity s a = some s') :
    Inv source s' := by
  cases a with
  | poll waker =>
    have hat := h.ok
    obtain ⟨hsends, hok, hprogress⟩ := loop_spec source { s with waker }
    simp only [WriteAll.step] at hs
    split at hs
    · rename_i hpc
      cases hs
      rw [hpc] at hat
      refine h.of_sends hsends hok (hprogress.trans ?_)
      have hzero : s.written = 0 := hat
      simp only [progress, hpc, hzero]
    · rename_i hpc
      cases hs
      rw [hpc] at hat
      refine h.of_sends hsends hok (hprogress.trans ?_)
      have hlt : s.written < source.total := hat
      simp [progress, hpc, Policy.resume, policy, hlt]
    · cases hs
  | dispatch event =>
    cases hs
    exact h.of_sends rfl h.ok rfl
  | reader waker readable hangup =>
    cases hs
    exact h.of_sends rfl h.ok rfl
  | advance answer => exact h.advance hs

/-- Every run. -/
theorem inv_of_reachable (h : (system source sendCapacity).Reachable s) : Inv source s :=
  h.invariant (fun s hs => by obtain ⟨slot, rfl⟩ := hs; exact inv_new source slot)
    fun _ _ _ hi hn => hi.step hn

/-! ### How a write ends -/

theorem Inv.prefix (h : Inv source s) : accepted s.sends <+: source.data := by
  rw [h.accepts]
  exact List.take_prefix _ _

/-- All bytes are accepted when the answers moved enough. -/
theorem Inv.enough_iff (h : Inv source s) :
    (policy source.total).enough (moved (answers s.sends)) = true ↔
      accepted s.sends = source.data := by
  rw [h.accepts, List.take_eq_self_iff, Source.length_data]
  simp [policy]

/-- A loop that returns `Ok` has had every byte accepted. -/
theorem Inv.result_ok (h : Inv source s) (hr : s.result = some (.ok ())) :
    accepted s.sends = source.data := by
  rw [← h.enough_iff, ← h.follows.ended_ok]
  unfold State.result at hr
  split at hr
  · rename_i hpc
    cases hr
    simp only [progress, hpc]
  · cases hr

/-- A future whose bytes are all accepted is not suspended. It has returned, or its next step
returns. -/
theorem Inv.returns (h : Inv source s) (hall : accepted s.sends = source.data) :
    s.result = some (.ok ()) ∨
    (s.pc = .idle ∧ ∀ waker, ∃ s', WriteAll.step source sendCapacity s (.poll waker) = some s' ∧
      s'.result = some (.ok ())) ∨
    ∀ answer, ∃ s', WriteAll.step source sendCapacity s (.advance answer) = some s' ∧
      s'.result = some (.ok ()) := by
  have hended := h.follows.ended_ok.mpr (h.enough_iff.mpr hall)
  -- The policy ends with `Ok` only when nothing is left to write.
  have hresume {n : Nat} (hn : ((policy source.total).resume n).ended = some (.ok ())) :
      ¬n < source.total := by
    intro hlt
    simp [Policy.resume, policy, hlt] at hn
  have hloop {t : State} (ht : ¬t.written < source.total) :
      (loop source t).result = some (.ok ()) := by
    rw [loop, if_neg ht]
    rfl
  have hat := h.ok
  cases hpc : s.pc with
  | returned result =>
    simp only [progress, hpc] at hended
    refine .inl ?_
    rw [State.result, hpc]
    exact hended
  | idle =>
    rw [hpc] at hat
    simp only [progress, hpc] at hended
    have hzero : s.written = 0 := hat
    refine .inr (.inl ⟨rfl, fun waker =>
      ⟨loop source { s with waker }, by simp only [WriteAll.step, hpc], ?_⟩⟩)
    exact hloop (t := { s with waker }) (by rw [hzero]; exact hresume hended)
  | mark n =>
    rw [hpc] at hat
    simp only [progress, hpc] at hended
    refine .inr (.inr fun answer => ⟨ready source { s with slot := s.slot.markWritable } n,
      by simp only [WriteAll.step, WriteAll.advance, hpc], ?_⟩)
    rw [ready, if_neg (Nat.ne_of_gt hat.1)]
    exact hloop (hresume hended)
  -- The other places have a send before them, so nothing is over there.
  | take first second => simp [progress, hpc] at hended
  | send first second => simp [progress, hpc] at hended
  | pending => simp [progress, hpc] at hended
  | park => simp [progress, hpc] at hended
  | wakeSelf => simp [progress, hpc] at hended
  | panicked =>
    rw [hpc] at hat
    exact hat.elim

/-- A future returns an error exactly when a send accepted no byte of some, or when the kernel
failed with it. -/
theorem Inv.result_error (h : Inv source s) (e : StreamError) :
    s.result = some (.error e) ↔
      (e = brokenPipe ∧ ∃ c ∈ s.sends, c.result = .ok 0 ∧ c.offered ≠ []) ∨
      (e.wouldBlock = false ∧ e.interrupted = false ∧ ∃ c ∈ s.sends, c.result = .error e) := by
  have hended : s.result = some (.error e) ↔ (progress source s).ended = some (.error e) := by
    have hresume (n : Nat) : ((policy source.total).resume n).ended ≠ some (.error e) := by
      unfold Policy.resume
      split <;> nofun
    unfold State.result progress
    cases s.pc <;> simp [hresume]
  rw [hended, h.follows.ended_error]
  have hzero : .ok 0 ∈ answers s.sends ↔ ∃ c ∈ s.sends, c.result = .ok 0 ∧ c.offered ≠ [] := by
    rw [answers, List.mem_map]
    refine exists_congr fun c => and_congr_right fun hc => ?_
    exact ⟨fun hres => ⟨hres, h.remains c hc⟩, fun hres => hres.1⟩
  have herror : .error e ∈ answers s.sends ↔ ∃ c ∈ s.sends, c.result = .error e := List.mem_map
  rw [hzero, herror]
  simp only [policy, Bool.or_eq_false_iff, and_assoc]

/-! ### The two futures side by side -/

/-- The slices of a call joined into the second one. -/
def Pc.flat : Pc → Pc
  | .take first second => .take [] (first ++ second)
  | .send first second => .send [] (first ++ second)
  | pc => pc

/-- The state of `WriteAll` that a state of `WriteAllVectored` is. -/
def State.flat (s : State) : State := { s with pc := s.pc.flat }

/-- The write of the concatenation. -/
def Source.flat (source : Source) : Source := .all source.data

theorem total_flat : source.flat.total = source.total := Source.length_data

theorem result_flat (s : State) : s.flat.result = s.result := by
  unfold State.result State.flat
  cases s.pc <;> rfl

/-- The loop goes on alike with two slices and with one. -/
theorem loop_flat (source : Source) (s : State) :
    loop source.flat s.flat = (loop source s).flat := by
  unfold loop
  rw [total_flat]
  show (if s.written < source.total then _ else _) = _
  by_cases hlt : s.written < source.total
  · obtain ⟨first, second, hslices, hdata⟩ := Source.slices_spec hlt
    have hflat : source.flat.slices s.flat.written = some ([], first ++ second) := by
      rw [hdata]
      show (sliceFrom source.data s.written).bind _ = _
      rw [sliceFrom_of_le (by rw [Source.length_data]; exact hlt.le)]
      rfl
    rw [if_pos hlt, if_pos hlt, hslices, hflat]
    rfl
  · rw [if_neg hlt, if_neg hlt]
    rfl

theorem ready_flat (source : Source) (s : State) (n : Nat) :
    ready source.flat s.flat n = (ready source s n).flat := by
  unfold ready
  split
  · rfl
  · exact loop_flat source { s with written := s.written + n }

/-- An answer of the kernel is counted alike for two slices and for one. -/
theorem answered_flat (source : Source) (sendCapacity : Nat) (s : State)
    (first second : List UInt8) (answer : Except StreamError Nat) :
    answered source.flat sendCapacity s.flat [] (first ++ second) answer =
      (answered source sendCapacity s first second answer).map State.flat := by
  have hwanted : ([] : List UInt8).length + (first ++ second).length =
      first.length + second.length := by simp
  unfold answered
  rw [iovecs_flatten, iovecs_flatten, List.nil_append, hwanted]
  cases answer with
  | ok n =>
    simp only
    split
    · split
      · rfl
      · exact congrArg some (ready_flat source { s with sends := _ } n)
    · rfl
  | error error =>
    simp only
    split
    · rfl
    · split
      · rfl
      · rfl

/-- Each step of the one future is the step of the other under the same label. -/
theorem step_flat (s : State) (a : Action) :
    step source.flat sendCapacity s.flat a = (step source sendCapacity s a).map State.flat := by
  cases a with
  | poll waker =>
    have hloop := congrArg some (loop_flat source { s with waker })
    unfold step
    cases hpc : s.pc <;> simp only [State.flat, hpc, Pc.flat] at hloop ⊢
    · exact hloop
    · exact hloop
    all_goals rfl
  | dispatch event => rfl
  | reader waker readable hangup => rfl
  | advance answer =>
    show advance source.flat sendCapacity s.flat answer =
      (advance source sendCapacity s answer).map State.flat
    unfold advance
    cases hpc : s.pc with
    | take first second =>
      simp only [State.flat, hpc, Pc.flat]
      rcases s.slot.takeWritableOrPark_cases s.waker with ⟨-, heq⟩ | ⟨-, heq⟩ <;> rw [heq] <;> rfl
    | send first second =>
      have hanswered := answered_flat source sendCapacity s first second answer
      simp only [State.flat, hpc, Pc.flat] at hanswered ⊢
      exact hanswered
    | mark n =>
      have hready := ready_flat source { s with slot := s.slot.markWritable } n
      simp only [State.flat, hpc, Pc.flat] at hready ⊢
      exact congrArg some hready
    | park =>
      simp only [State.flat, hpc, Pc.flat]
      rcases s.slot.pollWritable_cases s.waker with ⟨-, heq⟩ | ⟨-, heq⟩ <;> rw [heq] <;> rfl
    | wakeSelf => simp only [State.flat, hpc, Pc.flat]; rfl
    | idle => simp only [State.flat, hpc, Pc.flat]; rfl
    | pending => simp only [State.flat, hpc, Pc.flat]; rfl
    | returned result => simp only [State.flat, hpc, Pc.flat]; rfl
    | panicked => simp only [State.flat, hpc, Pc.flat]; rfl

/-- Every run of the one future is a run of the other, with the same sends and the same result. -/
theorem run_flat (source : Source) (sendCapacity : Nat) (slot : Wakers) (as : List Action) :
    ((system source.flat sendCapacity).run (new slot) as).map (fun s => (s.sends, s.result)) =
      ((system source sendCapacity).run (new slot) as).map fun s => (s.sends, s.result) := by
  have hrun : (system source.flat sendCapacity).run (new slot) as =
      ((system source sendCapacity).run (new slot) as).map State.flat :=
    Lts.run_map (f := State.flat) step_flat as (new slot)
  rw [hrun, Option.map_map]
  congr 1
  funext s
  show (s.sends, s.flat.result) = _
  rw [result_flat]

theorem progress_of_result {r : Except StreamError Unit} (hr : s.result = some r) :
    (progress source s).ended = some r := by
  unfold State.result at hr
  split at hr
  · rename_i hpc
    simpa only [progress, hpc] using hr
  · cases hr

/-- What the futures did with the same answers of the kernel is the same, however the sends were
spread over polls. -/
theorem Inv.same_answers {source' : Source} {t : State} (h : Inv source s) (ht : Inv source' t)
    (hdata : source.data = source'.data) (hanswers : answers s.sends = answers t.sends) :
    accepted s.sends = accepted t.sends ∧
    ∀ r r', s.result = some r → t.result = some r' → r = r' := by
  refine ⟨by rw [h.accepts, ht.accepts, hdata, hanswers], fun r r' hr hr' => ?_⟩
  have hfollows := ht.follows
  rw [← hanswers, ← Source.length_data, ← hdata, Source.length_data] at hfollows
  have hsame := congrArg Progress.ended (h.follows.unique hfollows)
  rw [progress_of_result hr, progress_of_result hr'] at hsame
  exact Option.some.inj hsame

/-- A kernel that answers `EPIPE` gets its error through, and no send accepted zero bytes. -/
theorem brokenPipe_of_kernel :
    ¬∀ (header payload : List UInt8) (sendCapacity : Nat) (s : State),
      (writeAllVectored header payload sendCapacity).Reachable s →
      (s.result = some (.error brokenPipe) ↔ ∃ c ∈ s.sends, c.result = .ok 0 ∧ c.offered ≠ []) := by
  intro h
  let s : State :=
    { slot := { Wakers.registered with writable := false }
      written := 0
      pc := .returned (.error brokenPipe)
      waker := 0
      sends := [⟨[1, 2], .error brokenPipe⟩] }
  have hrun : (writeAllVectored [1] [2] 0).run (new .registered)
      [.poll 0, .advance (.ok 0), .advance (.error brokenPipe)] = some s := rfl
  have hr : (writeAllVectored [1] [2] 0).Reachable s := .of_run ⟨_, rfl⟩ hrun
  obtain ⟨c, hc, hzero, -⟩ := (h [1] [2] 0 s hr).mp rfl
  rw [List.mem_singleton.mp hc] at hzero
  cases hzero

/-- A vectored write is a write of the concatenation. In every reachable state of
`write_all_vectored`, whatever the kernel answers and however the sends are spread over polls:

* no index is out of range, and each send offered exactly the bytes that were not accepted before
  it, so the accepted bytes are a first part of the header and the payload;
* when it has returned, it returned `Ok` exactly when all bytes were accepted, and when they are
  it has returned or its next step returns;
* it returned an error exactly when that is the broken pipe and a send accepted no byte of some,
  or the kernel failed with it.

`write_all` of the concatenation has the same runs, with the same sends and the same result. And
when the kernel gave both the same answers, in any two runs, they accepted the same bytes and
returned the same. -/
theorem writeAllVectored_exact (header payload : List UInt8) (sendCapacity : Nat) :
    (∀ s, (writeAllVectored header payload sendCapacity).Reachable s →
      s.pc ≠ .panicked ∧
      (∀ i c, s.sends[i]? = some c →
        c.offered = (header ++ payload).drop (accepted (s.sends.take i)).length) ∧
      accepted s.sends <+: header ++ payload ∧
      (s.result = some (.ok ()) → accepted s.sends = header ++ payload) ∧
      (accepted s.sends = header ++ payload →
        s.result = some (.ok ()) ∨
        (s.pc = .idle ∧ ∀ waker, ∃ s',
          (writeAllVectored header payload sendCapacity).next s (.poll waker) = some s' ∧
          s'.result = some (.ok ())) ∨
        ∀ answer, ∃ s',
          (writeAllVectored header payload sendCapacity).next s (.advance answer) = some s' ∧
          s'.result = some (.ok ())) ∧
      ∀ e, s.result = some (.error e) ↔
        (e = brokenPipe ∧ ∃ c ∈ s.sends, c.result = .ok 0 ∧ c.offered ≠ []) ∨
        (e.wouldBlock = false ∧ e.interrupted = false ∧ ∃ c ∈ s.sends, c.result = .error e)) ∧
    (∀ slot as,
      ((writeAll (header ++ payload) sendCapacity).run (new slot) as).map
          (fun s => (s.sends, s.result)) =
        ((writeAllVectored header payload sendCapacity).run (new slot) as).map
          fun s => (s.sends, s.result)) ∧
    ∀ s t capacity, (writeAllVectored header payload sendCapacity).Reachable s →
      (writeAll (header ++ payload) capacity).Reachable t →
      s.sends.map (·.result) = t.sends.map (·.result) →
      accepted s.sends = accepted t.sends ∧
      ∀ r r', s.result = some r → t.result = some r' → r = r' := by
  refine ⟨fun s hs => ?_, run_flat (.vectored header payload) sendCapacity, ?_⟩
  · have h : Inv (.vectored header payload) s := inv_of_reachable hs
    refine ⟨?_, h.offers, h.prefix, h.result_ok, h.returns, h.result_error⟩
    intro hpc
    have hok := h.ok
    rw [hpc] at hok
    exact hok
  · intro s t capacity hs ht hanswers
    have h : Inv (.vectored header payload) s := inv_of_reachable hs
    have h' : Inv (.all (header ++ payload)) t := inv_of_reachable ht
    exact h.same_answers h' rfl hanswers

end Nagoya.Net.WriteAll
