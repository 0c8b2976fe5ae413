import Nagoya.Io
import Nagoya.Lib.Progress
import Mathlib.Tactic

/-!
# `Nagoya.Proofs.Io`: the provided loops move each byte once

Each loop is a `Policy` over the answers of its device: `read_exact` and `write_all` have enough
when the buffer is full or empty, and `read_to_end` never has. The lemmas `resume_progress` say
so, and the library gives how a loop ends.

What is left for each loop is where the bytes are. At its `await` a loop has the bytes that were
delivered at the front of its buffer, and a loop that writes offers exactly what was not accepted
(`Exact` of each loop).
-/

set_option autoImplicit false

namespace Nagoya.Io

open Nagoya.Lib

variable {ε : Type}

/-! ### One call of a device -/

/-- The results of the calls, as the library counts them. -/
def readResults (calls : List (ReadCall ε)) : List (Except ε Nat) := calls.map (·.result)

theorem Reply.read_length (r : Reply ε) (slice : List UInt8) :
    (r.read slice).slice.length = slice.length := by
  show (r.stored.take slice.length ++ slice.drop r.stored.length).length = slice.length
  rw [List.length_append, List.length_take, List.length_drop]
  omega

/-- A read counts no more bytes than the slice has. -/
theorem Reply.read_le {r : Reply ε} {slice : List UInt8} {n : Nat}
    (h : (r.read slice).result = .ok n) : n ≤ slice.length := by
  have hclamp : clamp slice.length r.result = .ok n := h
  unfold clamp at hclamp
  split at hclamp
  · cases hclamp
    exact Nat.min_le_right _ _
  · cases hclamp

theorem ReadCall.delivered_ok {c : ReadCall ε} {n : Nat} (h : c.result = .ok n) :
    c.delivered = c.slice.take n := by
  unfold ReadCall.delivered
  rw [h]

theorem ReadCall.delivered_error {c : ReadCall ε} {e : ε} (h : c.result = .error e) :
    c.delivered = [] := by
  unfold ReadCall.delivered
  rw [h]

@[simp] theorem delivered_nil : delivered ([] : List (ReadCall ε)) = [] := rfl

@[simp] theorem delivered_snoc (calls : List (ReadCall ε)) (c : ReadCall ε) :
    delivered (calls ++ [c]) = delivered calls ++ c.delivered := by
  simp [delivered]

/-! ### `read_exact` -/

namespace ReadExact

variable (unexpectedEof : ε) (interrupted : ε → Bool)

/-- `read_exact` has enough when the buffer of `len` bytes is full. -/
def policy (len : Nat) : Policy ε :=
  { enough := fun filled => !decide (filled < len), zero := unexpectedEof, retry := interrupted }

/-- How far the call is. -/
def progress (s : ReadExact ε) : Progress ε := ⟨s.filled, s.returned⟩

/-- The call did what `read_exact` has to do on a device that answers with `script`:

* each call of the device was a read of the part of the buffer that was not filled, and got the
  next answer, a call that waits has taken every answer, and no call is made after the first zero
  or the first error that is not one to try again;
* the buffer has its length, and starts with the bytes that were delivered;
* it returns `Ok` exactly when these fill the buffer, and an error exactly when the device
  answered zero, or with that error and it is not one to try again. -/
structure Exact (original : List UInt8) (script : List (Reply ε)) (s : ReadExact ε) : Prop where
  played : Played (fun before r c => ∃ slice : List UInt8,
    slice.length = original.length - (delivered before).length ∧ c = r.read slice) script s.calls
  waits : s.returned = none → s.calls.length = script.length
  stops : ∀ c ∈ s.calls.dropLast,
    c.result ≠ .ok 0 ∧ ∀ e, c.result = .error e → interrupted e = true
  length : s.buffer.length = original.length
  data : delivered s.calls <+: s.buffer
  ok_iff : s.returned = some (.ok ()) ↔ (delivered s.calls).length = original.length
  error_iff (e : ε) : s.returned = some (.error e) ↔
    (e = unexpectedEof ∧ ∃ c ∈ s.calls, c.result = .ok 0) ∨
    (interrupted e = false ∧ ∃ c ∈ s.calls, c.result = .error e)

/-- What holds between two answers. -/
structure Inv (original : List UInt8) (script : List (Reply ε)) (s : ReadExact ε) : Prop where
  played : Played (fun before r c => ∃ slice : List UInt8,
    slice.length = original.length - (delivered before).length ∧ c = r.read slice) script s.calls
  waits : s.returned = none → s.calls.length = script.length
  length : s.buffer.length = original.length
  room : s.filled ≤ original.length
  data : s.buffer.take s.filled = delivered s.calls
  follows : (policy unexpectedEof interrupted original.length).Follows (readResults s.calls)
    s.progress

variable {unexpectedEof interrupted} {original : List UInt8} {script : List (Reply ε)}
  {s : ReadExact ε}

theorem loop_cases (s : ReadExact ε) :
    (s.filled < s.buffer.length ∧ s.loop = s) ∨
    (¬s.filled < s.buffer.length ∧ s.loop = { s with returned := some (.ok ()) }) := by
  unfold loop
  by_cases h : s.filled < s.buffer.length
  · exact .inl ⟨h, if_pos h⟩
  · exact .inr ⟨h, if_neg h⟩

@[simp] theorem loop_buffer (s : ReadExact ε) : s.loop.buffer = s.buffer := by
  rcases s.loop_cases with ⟨-, h⟩ | ⟨-, h⟩ <;> rw [h]

@[simp] theorem loop_filled (s : ReadExact ε) : s.loop.filled = s.filled := by
  rcases s.loop_cases with ⟨-, h⟩ | ⟨-, h⟩ <;> rw [h]

@[simp] theorem loop_calls (s : ReadExact ε) : s.loop.calls = s.calls := by
  rcases s.loop_cases with ⟨-, h⟩ | ⟨-, h⟩ <;> rw [h]

/-- The head of the loop is the one of the library. -/
theorem loop_progress (h : s.returned = none) :
    s.loop.progress = (policy unexpectedEof interrupted s.buffer.length).resume s.filled := by
  unfold progress Policy.resume policy
  rcases s.loop_cases with ⟨hlt, heq⟩ | ⟨hlt, heq⟩
  · simp [heq, hlt, h]
  · simp [heq, hlt]

/-- A loop that has made no call has filled nothing. -/
theorem start_inv : Inv unexpectedEof interrupted original [] (start original) := by
  refine ⟨?_, ?_, ?_, ?_, ?_, ?_⟩
  · rw [start, loop_calls]
    exact .nil
  · intro _
    rw [start, loop_calls]
    rfl
  · rw [start, loop_buffer]
  · rw [start, loop_filled]
    exact Nat.zero_le _
  · rw [start, loop_filled, loop_buffer, loop_calls]
    rfl
  · rw [start, loop_progress rfl, loop_calls]
    exact Policy.follows_resume nofun

/-- The call of the device that an answer ends. -/
def call (s : ReadExact ε) (r : Reply ε) : ReadCall ε := r.read (s.buffer.drop s.filled)

/-- The call with the slice that the device left. -/
def took (s : ReadExact ε) (r : Reply ε) : ReadExact ε :=
  { s with
    buffer := s.buffer.take s.filled ++ (s.call r).slice
    calls := s.calls ++ [s.call r] }

theorem took_length (hlt : s.filled < s.buffer.length) (r : Reply ε) :
    (s.took r).buffer.length = s.buffer.length := by
  show (s.buffer.take s.filled ++ (s.call r).slice).length = s.buffer.length
  rw [List.length_append, List.length_take, call, Reply.read_length, List.length_drop]
  omega

variable (unexpectedEof interrupted) in
/-- What one answer does to a call that waits: the device's slice and record are kept, and the
counter and the return are those of the library's loop. -/
theorem resume_spec (h : s.returned = none) (hlt : s.filled < s.buffer.length) (r : Reply ε) :
    let s' := resume unexpectedEof interrupted s r
    s'.buffer = (s.took r).buffer ∧ s'.calls = (s.took r).calls ∧
    s'.filled = s.filled + moved [(s.call r).result] ∧
    s'.progress =
      (policy unexpectedEof interrupted s.buffer.length).step s.progress (s.call r).result := by
  have hcall : r.read (s.buffer.drop s.filled) = s.call r := rfl
  -- The loop tells an error, the end of the input and bytes apart.
  rcases hres : (s.call r).result with e | n
  · have hresume : resume unexpectedEof interrupted s r = if interrupted e then (s.took r).loop
        else { s.took r with returned := some (.error e) } := by
      simp only [resume, h, hcall, hres, took]
    have hstep : (policy unexpectedEof interrupted s.buffer.length).step s.progress (.error e) =
        if interrupted e then s.progress else ⟨s.filled, some (.error e)⟩ := Policy.step_error h e
    rw [hresume, hstep]
    cases interrupted e with
    | true =>
      -- There was room before the call, so the loop goes round to the same `await`.
      have hloop : (s.took r).loop = s.took r := if_pos (by rw [took_length hlt]; exact hlt)
      rw [if_pos rfl, if_pos rfl, hloop]
      exact ⟨rfl, rfl, rfl, rfl⟩
    | false =>
      rw [if_neg Bool.false_ne_true, if_neg Bool.false_ne_true]
      exact ⟨rfl, rfl, rfl, rfl⟩
  · cases n with
    -- A read of 0 bytes of a slice that is not empty is the end of the input.
    | zero =>
      have hresume : resume unexpectedEof interrupted s r =
          { s.took r with returned := some (.error unexpectedEof) } := by
        simp only [resume, h, hcall, hres, took]
      rw [hresume, Policy.step_zero (show s.progress.ended = none from h)]
      exact ⟨rfl, rfl, rfl, rfl⟩
    | succ n =>
      let s₁ : ReadExact ε := { s.took r with filled := s.filled + (n + 1) }
      have hresume : resume unexpectedEof interrupted s r = s₁.loop := by
        simp only [resume, h, hcall, hres, took, s₁]
      have hstep : (policy unexpectedEof interrupted s.buffer.length).step s.progress
          (.ok (n + 1)) =
          (policy unexpectedEof interrupted s.buffer.length).resume (s.filled + (n + 1)) :=
        Policy.step_succ h n
      rw [hresume, hstep]
      refine ⟨loop_buffer s₁, loop_calls s₁, loop_filled s₁, ?_⟩
      rw [loop_progress (s := s₁) h]
      show (policy _ _ (s.took r).buffer.length).resume _ = _
      rw [took_length hlt]

/-- A call that waits has room. -/
theorem Inv.filled_lt (h : Inv unexpectedEof interrupted original script s)
    (hw : s.returned = none) : s.filled < s.buffer.length := by
  have hne := mt h.follows.ended_ok.mpr (by rw [show s.progress.ended = none from hw]; nofun)
  rw [← h.follows.done_eq, Bool.not_eq_true] at hne
  rw [h.length]
  simpa [policy, progress] using hne

/-- The bytes that a call delivered are behind the bytes that were there. -/
theorem take_took (hlt : s.filled < s.buffer.length) (r : Reply ε) :
    (s.took r).buffer.take (s.filled + moved [(s.call r).result]) =
      s.buffer.take s.filled ++ (s.call r).delivered := by
  have hlen : (s.buffer.take s.filled).length = s.filled :=
    List.length_take_of_le (Nat.le_of_lt hlt)
  show (s.buffer.take s.filled ++ (s.call r).slice).take _ = _
  rw [List.take_append, List.take_of_length_le (by omega), hlen, Nat.add_sub_cancel_left]
  rcases hres : (s.call r).result with e | n
  · rw [ReadCall.delivered_error hres]
    rfl
  · rw [ReadCall.delivered_ok hres]
    rfl

/-- One answer. -/
theorem inv_resume (h : Inv unexpectedEof interrupted original script s) (r : Reply ε) :
    Inv unexpectedEof interrupted original (script ++ [r])
      (resume unexpectedEof interrupted s r) := by
  cases hw : s.returned with
  | some result =>
    -- A loop that returned is not resumed, so no reply is used up.
    have hsame : resume unexpectedEof interrupted s r = s := by simp only [resume, hw]
    rw [hsame]
    exact { h with played := h.played.wait, waits := fun hn => by rw [hw] at hn; cases hn }
  | none =>
    have hlt := h.filled_lt hw
    obtain ⟨hbuffer, hcalls, hfilled, hprogress⟩ :=
      resume_spec unexpectedEof interrupted hw hlt r
    -- What is handed to the read is the room that no byte was delivered to.
    have hslice : (s.buffer.drop s.filled).length =
        original.length - (delivered s.calls).length := by
      rw [← h.data, List.length_drop, List.length_take_of_le (Nat.le_of_lt hlt), h.length]
    refine ⟨?_, ?_, ?_, ?_, ?_, ?_⟩
    · rw [hcalls]
      exact h.played.snoc (h.waits hw) ⟨_, hslice, rfl⟩
    · intro _
      rw [hcalls]
      show (s.calls ++ [s.call r]).length = _
      rw [List.length_append, List.length_append, h.waits hw]
      rfl
    · rw [hbuffer, took_length hlt, h.length]
    · have hle : moved [(s.call r).result] ≤ (s.buffer.drop s.filled).length := by
        rcases hres : (s.call r).result with e | n
        · exact Nat.zero_le _
        · exact Reply.read_le hres
      rw [List.length_drop] at hle
      rw [hfilled, ← h.length]
      omega
    · rw [hbuffer, hfilled, take_took hlt, hcalls, h.data]
      exact (delivered_snoc _ _).symm
    · rw [hprogress, hcalls, h.length]
      show Policy.Follows _ (readResults (s.calls ++ [s.call r])) _
      rw [readResults, List.map_append]
      exact Policy.follows_step h.follows hw

/-- Every script. -/
theorem inv_run (original : List UInt8) (script : List (Reply ε)) :
    Inv unexpectedEof interrupted original script
      (run unexpectedEof interrupted original script) :=
  foldl_follows start_inv (fun _ _ r h => inv_resume h r) script

theorem moved_readResults (h : Inv unexpectedEof interrupted original script s) :
    moved (readResults s.calls) = (delivered s.calls).length := by
  rw [← h.follows.done_eq, ← h.data, List.length_take_of_le (h.room.trans h.length.ge)]
  rfl

/-- `read_exact` is exact, whatever the device does. -/
theorem run_exact (original : List UInt8) (script : List (Reply ε)) :
    Exact unexpectedEof interrupted original script
      (run unexpectedEof interrupted original script) := by
  have h : Inv unexpectedEof interrupted original script
      (run unexpectedEof interrupted original script) := inv_run original script
  refine ⟨h.played, h.waits, ?_, h.length, ?_, ?_, ?_⟩
  · intro c hc
    refine h.follows.dropLast_goesOn (a := c.result) ?_
    rw [readResults, ← List.map_dropLast]
    exact List.mem_map_of_mem hc
  · rw [← h.data]
    exact List.take_prefix _ _
  · refine h.follows.ended_ok.trans ?_
    have hle : (delivered (run unexpectedEof interrupted original script).calls).length ≤
        original.length := by
      rw [← h.data, List.length_take]
      exact (Nat.min_le_left _ _).trans h.room
    rw [moved_readResults h]
    simp only [policy, Bool.not_eq_true', decide_eq_false_iff_not, Nat.not_lt]
    exact ⟨fun hge => Nat.le_antisymm hle hge, fun heq => heq.ge⟩
  · intro e
    refine (h.follows.ended_error e).trans ?_
    simp [policy, readResults]

end ReadExact

/-! ### `read_to_end` -/

namespace ReadToEnd

/-- `read_to_end` never has enough. Its own end is an answer of zero, written as no error. -/
def policy : Policy (Option Error) :=
  { enough := fun _ => false, zero := none, retry := fun e => e.any Error.interrupted }

/-- A result of the device, where the end of the device is no error. -/
def lift : Except Error Nat → Except (Option Error) Nat
  | .ok n => .ok n
  | .error e => .error (some e)

/-- How far the call is: the bytes behind the original contents. -/
def progress (s : ReadToEnd) : Progress (Option Error) :=
  { done := s.filled - s.start
    ended := s.returned.map fun result => match result with
      | .ok _ => .error none
      | .error e => .error (some e) }

/-- The call did what `read_to_end` has to do on a device that answers with `script`:

* each call of the device was a read into a chunk, and got the next answer, a call that waits has
  taken every answer, and no call is made after the first zero or the first error that is not one
  to try again;
* when it returns, the vector is the original contents and the bytes that were delivered, and the
  value of `Ok` is their number;
* it returns `Ok` exactly when the device answered zero, and an error exactly when the device
  answered with that error and it is not one to try again. -/
structure Exact (original : List UInt8) (script : List (Reply Error)) (s : ReadToEnd) : Prop where
  played : Played (fun _ r c => ∃ slice : List UInt8, slice.length = chunk ∧ c = r.read slice)
    script s.calls
  waits : s.returned = none → s.calls.length = script.length
  stops : ∀ c ∈ s.calls.dropLast,
    c.result ≠ .ok 0 ∧ ∀ e, c.result = .error e → e.interrupted = true
  data (result : Except Error Nat) : s.returned = some result →
    s.buffer = original ++ delivered s.calls
  count (n : Nat) : s.returned = some (.ok n) → n = (delivered s.calls).length
  ok_iff : (∃ n, s.returned = some (.ok n)) ↔ ∃ c ∈ s.calls, c.result = .ok 0
  error_iff (e : Error) : s.returned = some (.error e) ↔
    e.interrupted = false ∧ ∃ c ∈ s.calls, c.result = .error e

/-- What holds between two answers. A call that waits has one chunk of zeros behind the bytes. -/
structure Inv (original : List UInt8) (script : List (Reply Error)) (s : ReadToEnd) : Prop where
  played : Played (fun _ r c => ∃ slice : List UInt8, slice.length = chunk ∧ c = r.read slice)
    script s.calls
  waits : s.returned = none → s.calls.length = script.length
  start : s.start = original.length
  filled : s.filled = (original ++ delivered s.calls).length
  data : s.buffer = original ++ delivered s.calls ++
    (if s.returned = none then List.replicate chunk 0 else [])
  count (n : Nat) : s.returned = some (.ok n) → n = s.filled - s.start
  follows : policy.Follows ((readResults s.calls).map lift) s.progress

variable {original : List UInt8} {script : List (Reply Error)} {s : ReadToEnd}

/-- A loop that has just begun has taken nothing. -/
theorem begin_inv : Inv original [] (begin original) where
  played := .nil
  waits _ := rfl
  start := rfl
  filled := by simp [begin, loop]
  data := by simp [begin, loop]
  count _ h := nomatch h
  follows := by
    have hprogress : (begin original).progress = policy.resume 0 := by
      simp [begin, loop, progress, policy, Policy.resume]
    rw [hprogress]
    exact Policy.follows_resume nofun

/-- The call of the device that an answer ends. -/
def call (s : ReadToEnd) (r : Reply Error) : ReadCall Error := r.read (s.buffer.drop s.filled)

/-- The call after an answer, with the vector cut behind the bytes that were delivered. -/
def took (s : ReadToEnd) (r : Reply Error) : ReadToEnd :=
  { s with
    buffer := s.buffer.take s.filled ++ (s.call r).delivered
    calls := s.calls ++ [s.call r] }

/-- What one answer does to a call that waits. -/
theorem resume_eq (h : s.returned = none) (hle : s.filled ≤ s.buffer.length) (r : Reply Error) :
    resume s r =
      match (s.call r).result with
      | .ok 0 => { s.took r with returned := some (.ok (s.filled - s.start)) }
      | .ok _ => (s.took r).loop
      | .error e =>
        if e.interrupted then (s.took r).loop
        else { s.took r with returned := some (.error e) } := by
  have hlen : (s.buffer.take s.filled).length = s.filled := List.length_take_of_le hle
  have hcall : r.read (s.buffer.drop s.filled) = s.call r := rfl
  -- Both cuts of the source keep the bytes before the slice.
  have hcut (n : Nat) : (s.buffer.take s.filled ++ (s.call r).slice).take (s.filled + n) =
      s.buffer.take s.filled ++ (s.call r).slice.take n := by
    rw [List.take_append, List.take_of_length_le (by omega), hlen, Nat.add_sub_cancel_left]
  have hcut0 : (s.buffer.take s.filled ++ (s.call r).slice).take s.filled =
      s.buffer.take s.filled := List.take_left' hlen
  rcases hres : (s.call r).result with e | n
  · have hdel := ReadCall.delivered_error hres
    simp only [resume, h, hcall, hres, truncate, hcut0, took, hdel, List.append_nil]
  · have hdel := ReadCall.delivered_ok hres
    cases n with
    | zero =>
      simp only [resume, h, hcall, hres, truncate, hcut0, took, hdel, List.take_zero,
        List.append_nil]
    | succ n => simp only [resume, h, hcall, hres, truncate, hcut, took, hdel]

theorem Inv.start_le (h : Inv original script s) : s.start ≤ s.filled := by
  rw [h.start, h.filled, List.length_append]
  exact Nat.le_add_right _ _

theorem Inv.take_filled (h : Inv original script s) :
    s.buffer.take s.filled = original ++ delivered s.calls := by
  rw [h.data, h.filled, List.take_left]

theorem Inv.filled_le (h : Inv original script s) : s.filled ≤ s.buffer.length := by
  rw [h.filled, h.data]
  exact (List.prefix_append _ _).length_le

theorem Inv.took_buffer (h : Inv original script s) (r : Reply Error) :
    (s.took r).buffer = original ++ delivered (s.took r).calls := by
  show s.buffer.take s.filled ++ (s.call r).delivered =
    original ++ delivered (s.calls ++ [s.call r])
  rw [h.take_filled, delivered_snoc, List.append_assoc]

/-- A read delivers as many bytes as it counts. -/
theorem length_delivered (r : Reply ε) (slice : List UInt8) :
    (r.read slice).delivered.length = moved [(r.read slice).result] := by
  rcases hres : (r.read slice).result with e | n
  · rw [ReadCall.delivered_error hres]
    rfl
  · rw [ReadCall.delivered_ok hres]
    exact List.length_take_of_le ((Reply.read_le hres).trans_eq (r.read_length slice).symm)

theorem Inv.took_length (h : Inv original script s) (r : Reply Error) :
    (s.took r).buffer.length = s.filled + moved [(s.call r).result] := by
  show (s.buffer.take s.filled ++ (s.call r).delivered).length = _
  rw [List.length_append, List.length_take_of_le h.filled_le, call, length_delivered]

/-- What an answer does to a call that waits: its counter moves behind the bytes, and what the
vector has behind them is a new chunk, or nothing when the call returns. -/
structure Resumed (s : ReadToEnd) (r : Reply Error) (s' : ReadToEnd) : Prop where
  calls : s'.calls = (s.took r).calls
  start : s'.start = s.start
  filled : s'.filled = s.filled + moved [(s.call r).result]
  data : s'.buffer = (s.took r).buffer ++
    (if s'.returned = none then List.replicate chunk 0 else [])
  count (n : Nat) : s'.returned = some (.ok n) → n = s'.filled - s'.start
  progress : s'.progress = policy.step s.progress (lift (s.call r).result)

theorem progress_none (hw : s.returned = none) : s.progress = ⟨s.filled - s.start, none⟩ := by
  rw [progress, hw]
  rfl

/-- The call goes round after an answer that lets it go on. -/
theorem Inv.resumed_loop (h : Inv original script s) (hw : s.returned = none) {r : Reply Error}
    (hon : policy.GoesOn (lift (s.call r).result)) : Resumed s r (s.took r).loop := by
  have hlen := h.took_length r
  have hstart := h.start_le
  have hgo : (s.took r).loop.returned = none := hw
  refine ⟨rfl, rfl, hlen, ?_, ?_, ?_⟩
  · rw [if_pos hgo]
    rfl
  · intro n hn
    rw [hgo] at hn
    cases hn
  · rw [progress_none hgo, progress_none hw]
    show (⟨(s.took r).buffer.length - s.start, none⟩ : Progress (Option Error)) = _
    rw [hlen]
    rcases hres : (s.call r).result with e | n
    · rw [hres] at hon
      have hretry : policy.retry (some e) = true := hon
      show _ = if policy.retry (some e) then _ else _
      rw [if_pos hretry]
      rfl
    · rw [hres] at hon
      obtain ⟨n, rfl⟩ := Nat.exists_eq_add_of_lt hon
      show (⟨s.filled + (0 + n + 1) - s.start, none⟩ : Progress (Option Error)) =
        ⟨s.filled - s.start + (0 + n + 1), none⟩
      congr 1
      omega

/-- The call returns after an answer that ends it. -/
theorem resumed_return (hw : s.returned = none) {r : Reply Error} {result : Except Error Nat}
    (hend : ((s.call r).result = .ok 0 ∧ result = .ok (s.filled - s.start)) ∨
      ∃ e, (s.call r).result = .error e ∧ e.interrupted = false ∧ result = .error e) :
    Resumed s r { s.took r with returned := some result } := by
  rcases hend with ⟨hres, rfl⟩ | ⟨e, hres, he, rfl⟩
  · refine ⟨rfl, rfl, ?_, (List.append_nil _).symm, ?_, ?_⟩
    · rw [hres]
      rfl
    · intro n hn
      cases hn
      rfl
    · rw [progress_none hw, hres]
      rfl
  · refine ⟨rfl, rfl, ?_, (List.append_nil _).symm, nofun, ?_⟩
    · rw [hres]
      rfl
    · rw [progress_none hw, hres]
      show _ = if e.interrupted then _ else _
      rw [he]
      rfl

/-- One answer to a call that waits. -/
theorem Inv.resumed (h : Inv original script s) (hw : s.returned = none) (r : Reply Error) :
    Resumed s r (resume s r) := by
  rw [resume_eq hw h.filled_le]
  rcases hres : (s.call r).result with e | n
  · cases he : e.interrupted with
    | true =>
      simp only [he, if_true]
      exact h.resumed_loop hw (by rw [hres]; exact he)
    | false =>
      simp only [he, Bool.false_eq_true, if_false]
      exact resumed_return hw (.inr ⟨e, hres, he, rfl⟩)
  · cases n with
    | zero => exact resumed_return hw (.inl ⟨hres, rfl⟩)
    | succ n => exact h.resumed_loop hw (by rw [hres]; exact Nat.succ_pos n)

/-- One answer. -/
theorem inv_resume (h : Inv original script s) (r : Reply Error) :
    Inv original (script ++ [r]) (resume s r) := by
  cases hw : s.returned with
  | some result =>
    have hsame : resume s r = s := by simp only [resume, hw]
    rw [hsame]
    exact { h with played := h.played.wait, waits := fun hn => by rw [hw] at hn; cases hn }
  | none =>
    have hr := h.resumed hw r
    have hslice : (s.buffer.drop s.filled).length = chunk := by
      rw [h.data, h.filled, List.drop_left, if_pos hw, List.length_replicate]
    refine ⟨?_, ?_, hr.start.trans h.start, ?_, ?_, hr.count, ?_⟩
    · rw [hr.calls]
      exact h.played.snoc (h.waits hw) ⟨_, hslice, rfl⟩
    · intro _
      rw [hr.calls]
      show (s.calls ++ [s.call r]).length = _
      rw [List.length_append, List.length_append, h.waits hw]
      rfl
    · rw [hr.filled, hr.calls, ← h.took_buffer, h.took_length]
    · rw [hr.data, hr.calls, h.took_buffer]
    · rw [hr.progress, hr.calls]
      show Policy.Follows _ ((readResults (s.calls ++ [s.call r])).map lift) _
      rw [readResults, List.map_append, List.map_append]
      exact Policy.follows_step h.follows (by rw [progress_none hw])

/-- Every script. -/
theorem inv_readToEnd (original : List UInt8) (script : List (Reply Error)) :
    Inv original script (Read.readToEnd original script) :=
  foldl_follows begin_inv (fun _ _ r h => inv_resume h r) script

theorem mem_lift_zero {calls : List (ReadCall Error)} :
    .ok 0 ∈ (readResults calls).map lift ↔ ∃ c ∈ calls, c.result = .ok 0 := by
  simp only [readResults, List.map_map, List.mem_map, Function.comp_apply]
  refine exists_congr fun c => and_congr_right fun _ => ?_
  cases c.result <;> simp [lift]

theorem mem_lift_error {calls : List (ReadCall Error)} {e : Error} :
    .error (some e) ∈ (readResults calls).map lift ↔ ∃ c ∈ calls, c.result = .error e := by
  simp only [readResults, List.map_map, List.mem_map, Function.comp_apply]
  refine exists_congr fun c => and_congr_right fun _ => ?_
  cases c.result <;> simp [lift]

theorem error_none_notMem {calls : List (ReadCall Error)} :
    .error none ∉ (readResults calls).map lift := by
  simp only [List.mem_map, not_exists, not_and]
  intro result _
  cases result <;> simp [lift]

theorem ended_none_iff : (∃ n, s.returned = some (.ok n)) ↔
    s.progress.ended = some (.error none) := by
  unfold progress
  rcases s.returned with _ | _ | n <;> simp

theorem ended_some_iff {e : Error} : s.returned = some (.error e) ↔
    s.progress.ended = some (.error (some e)) := by
  unfold progress
  rcases s.returned with _ | _ | n <;> simp

/-- `read_to_end` is exact, whatever the device does. -/
theorem readToEnd_exact (original : List UInt8) (script : List (Reply Error)) :
    Exact original script (Read.readToEnd original script) := by
  have h := inv_readToEnd original script
  refine ⟨h.played, h.waits, ?_, ?_, ?_, ?_, ?_⟩
  · intro c hc
    have hmem : lift c.result ∈
        ((readResults (Read.readToEnd original script).calls).map lift).dropLast := by
      rw [readResults, List.map_map, ← List.map_dropLast]
      exact List.mem_map_of_mem (f := lift ∘ fun c => c.result) hc
    obtain ⟨hzero, herror⟩ := h.follows.dropLast_goesOn hmem
    constructor
    · intro hres
      rw [hres] at hzero
      exact hzero rfl
    · intro e hres
      exact herror (some e) (by rw [hres]; rfl)
  · intro result hr
    rw [h.data, hr, if_neg nofun, List.append_nil]
  · intro n hn
    rw [h.count n hn, h.start, h.filled, List.length_append, Nat.add_sub_cancel_left]
  · rw [ended_none_iff, h.follows.ended_error, mem_lift_zero]
    simp [policy, error_none_notMem]
  · intro e
    rw [ended_some_iff, h.follows.ended_error, mem_lift_error]
    simp [policy]

end ReadToEnd

/-! ### `write_all` -/

namespace WriteAll

/-- `write_all` has enough when all `len` bytes are accepted. -/
def policy (len : Nat) : Policy Error :=
  { enough := fun written => !decide (written < len)
    zero := .new .writeZero
    retry := Error.interrupted }

/-- The results of the calls, as the library counts them. -/
def results (calls : List (WriteCall Error)) : List (Except Error Nat) := calls.map (·.result)

/-- How far the call is. -/
def progress (s : WriteAll) : Progress Error := ⟨s.written, s.returned⟩

/-- The call did what `write_all` has to do on a device that answers with `script`:

* each call of the device offered exactly the bytes that were not accepted before, and got the
  next answer, a call that waits has taken every answer, and no call is made after the first zero
  or the first error that is not one to try again;
* the bytes accepted so far are a first part of the buffer;
* it returns `Ok` exactly when they are all of it, and an error exactly when the device accepted
  none, or answered with that error and it is not one to try again. -/
structure Exact (buffer : List UInt8) (script : List (Except Error Nat)) (s : WriteAll) :
    Prop where
  played : Played (fun before answer c => c.offered = buffer.drop (accepted before).length ∧
    c.result = clamp c.offered.length answer) script s.calls
  waits : s.returned = none → s.calls.length = script.length
  stops : ∀ c ∈ s.calls.dropLast,
    c.result ≠ .ok 0 ∧ ∀ e, c.result = .error e → e.interrupted = true
  accepts : accepted s.calls <+: buffer
  ok_iff : s.returned = some (.ok ()) ↔ accepted s.calls = buffer
  error_iff (e : Error) : s.returned = some (.error e) ↔
    (e = .new .writeZero ∧ ∃ c ∈ s.calls, c.result = .ok 0) ∨
    (e.interrupted = false ∧ ∃ c ∈ s.calls, c.result = .error e)

/-- What holds between two answers. -/
structure Inv (buffer : List UInt8) (script : List (Except Error Nat)) (s : WriteAll) : Prop where
  played : Played (fun before answer c => c.offered = buffer.drop (accepted before).length ∧
    c.result = clamp c.offered.length answer) script s.calls
  waits : s.returned = none → s.calls.length = script.length
  same : s.buffer = buffer
  room : s.written ≤ buffer.length
  data : accepted s.calls = buffer.take s.written
  follows : (policy buffer.length).Follows (results s.calls) s.progress

variable {buffer : List UInt8} {script : List (Except Error Nat)} {s : WriteAll}

@[simp] theorem accepted_snoc (calls : List (WriteCall ε)) (c : WriteCall ε) :
    accepted (calls ++ [c]) = accepted calls ++ c.accepted := by
  simp [accepted]

theorem loop_cases (s : WriteAll) :
    (s.written < s.buffer.length ∧ s.loop = s) ∨
    (¬s.written < s.buffer.length ∧ s.loop = { s with returned := some (.ok ()) }) := by
  unfold loop
  by_cases h : s.written < s.buffer.length
  · exact .inl ⟨h, if_pos h⟩
  · exact .inr ⟨h, if_neg h⟩

@[simp] theorem loop_buffer (s : WriteAll) : s.loop.buffer = s.buffer := by
  rcases s.loop_cases with ⟨-, h⟩ | ⟨-, h⟩ <;> rw [h]

@[simp] theorem loop_written (s : WriteAll) : s.loop.written = s.written := by
  rcases s.loop_cases with ⟨-, h⟩ | ⟨-, h⟩ <;> rw [h]

@[simp] theorem loop_calls (s : WriteAll) : s.loop.calls = s.calls := by
  rcases s.loop_cases with ⟨-, h⟩ | ⟨-, h⟩ <;> rw [h]

/-- The head of the loop is the one of the library. -/
theorem loop_progress (h : s.returned = none) :
    s.loop.progress = (policy s.buffer.length).resume s.written := by
  unfold progress Policy.resume policy
  rcases s.loop_cases with ⟨hlt, heq⟩ | ⟨hlt, heq⟩
  · simp [heq, hlt, h]
  · simp [heq, hlt]

/-- A loop that has made no call has written nothing. -/
theorem start_inv : Inv buffer [] (start buffer) := by
  refine ⟨?_, ?_, ?_, ?_, ?_, ?_⟩
  · rw [start, loop_calls]
    exact .nil
  · intro _
    rw [start, loop_calls]
    rfl
  · rw [start, loop_buffer]
  · rw [start, loop_written]
    exact Nat.zero_le _
  · rw [start, loop_written, loop_calls]
    rfl
  · rw [start, loop_progress rfl, loop_calls]
    exact Policy.follows_resume nofun

/-- The call of the device that `answer` ends. -/
def call (s : WriteAll) (answer : Except Error Nat) : WriteCall Error :=
  { offered := s.buffer.drop s.written
    result := clamp (s.buffer.drop s.written).length answer }

/-- A call accepts as many bytes as it counts. -/
theorem length_accepted_call (s : WriteAll) (answer : Except Error Nat) :
    (s.call answer).accepted =
      (s.buffer.drop s.written).take (moved [(s.call answer).result]) ∧
    moved [(s.call answer).result] ≤ s.buffer.length - s.written := by
  cases answer with
  | error e => exact ⟨rfl, Nat.zero_le _⟩
  | ok n => exact ⟨rfl, (Nat.min_le_right _ _).trans (List.length_drop ..).le⟩

/-- What one answer does to a call that waits. -/
theorem resume_spec (h : s.returned = none) (hlt : s.written < s.buffer.length)
    (answer : Except Error Nat) :
    let s' := resume s answer
    s'.buffer = s.buffer ∧ s'.calls = s.calls ++ [s.call answer] ∧
    s'.written = s.written + moved [(s.call answer).result] ∧
    s'.progress = (policy s.buffer.length).step s.progress (s.call answer).result := by
  let s₁ : WriteAll := { s with calls := s.calls ++ [s.call answer] }
  have hcall : clamp (s.buffer.drop s.written).length answer = (s.call answer).result := rfl
  have heq : ({ offered := s.buffer.drop s.written, result := (s.call answer).result } :
      WriteCall Error) = s.call answer := rfl
  -- The loop tells an error, a write of nothing and bytes apart.
  rcases hres : (s.call answer).result with e | n
  · rw [hres] at hcall heq
    have hresume : resume s answer =
        if e.interrupted then s₁.loop else { s₁ with returned := some (.error e) } := by
      simp only [resume, h, hcall, heq, s₁]
    have hstep : (policy s.buffer.length).step s.progress (.error e) =
        if e.interrupted then s.progress else ⟨s.written, some (.error e)⟩ := Policy.step_error h e
    rw [hresume, hstep]
    cases e.interrupted with
    | true =>
      have hloop : s₁.loop = s₁ := if_pos hlt
      rw [if_pos rfl, if_pos rfl, hloop]
      exact ⟨rfl, rfl, rfl, rfl⟩
    | false =>
      rw [if_neg Bool.false_ne_true, if_neg Bool.false_ne_true]
      exact ⟨rfl, rfl, rfl, rfl⟩
  · rw [hres] at hcall heq
    cases n with
    | zero =>
      have hresume : resume s answer = { s₁ with returned := some (.error (.new .writeZero)) } := by
        simp only [resume, h, hcall, heq, s₁]
      rw [hresume, Policy.step_zero (show s.progress.ended = none from h)]
      exact ⟨rfl, rfl, rfl, rfl⟩
    | succ n =>
      let s₂ : WriteAll := { s₁ with written := s.written + (n + 1) }
      have hresume : resume s answer = s₂.loop := by
        simp only [resume, h, hcall, heq, s₁, s₂]
      have hstep : (policy s.buffer.length).step s.progress (.ok (n + 1)) =
          (policy s.buffer.length).resume (s.written + (n + 1)) := Policy.step_succ h n
      rw [hresume, hstep]
      exact ⟨loop_buffer s₂, loop_calls s₂, loop_written s₂, loop_progress (s := s₂) h⟩

/-- A call that waits has bytes left. -/
theorem Inv.written_lt (h : Inv buffer script s) (hw : s.returned = none) :
    s.written < s.buffer.length := by
  have hne := mt h.follows.ended_ok.mpr (by rw [show s.progress.ended = none from hw]; nofun)
  rw [← h.follows.done_eq, Bool.not_eq_true] at hne
  rw [h.same]
  simpa [policy, progress] using hne

/-- One answer. -/
theorem inv_resume (h : Inv buffer script s) (answer : Except Error Nat) :
    Inv buffer (script ++ [answer]) (resume s answer) := by
  cases hw : s.returned with
  | some result =>
    have hsame : resume s answer = s := by simp only [resume, hw]
    rw [hsame]
    exact { h with played := h.played.wait, waits := fun hn => by rw [hw] at hn; cases hn }
  | none =>
    have hlt := h.written_lt hw
    obtain ⟨hbuffer, hcalls, hwritten, hprogress⟩ := resume_spec hw hlt answer
    obtain ⟨hacc, hle⟩ := s.length_accepted_call answer
    have hlen : (accepted s.calls).length = s.written := by
      rw [h.data, List.length_take_of_le h.room]
    refine ⟨?_, ?_, hbuffer.trans h.same, ?_, ?_, ?_⟩
    · rw [hcalls]
      refine h.played.snoc (h.waits hw) ⟨?_, rfl⟩
      rw [hlen, ← h.same]
      rfl
    · intro _
      rw [hcalls, List.length_append, List.length_append, h.waits hw]
      rfl
    · rw [hwritten, ← h.same]
      omega
    · rw [hcalls, accepted_snoc, hacc, hwritten, h.data, h.same, List.take_add]
    · rw [hprogress, hcalls, h.same, results, List.map_append]
      exact Policy.follows_step h.follows hw

/-- Every script. -/
theorem inv_writeAll (buffer : List UInt8) (script : List (Except Error Nat)) :
    Inv buffer script (Write.writeAll buffer script) :=
  foldl_follows start_inv (fun _ _ answer h => inv_resume h answer) script

/-- `write_all` is exact, whatever the device does. -/
theorem writeAll_exact (buffer : List UInt8) (script : List (Except Error Nat)) :
    Exact buffer script (Write.writeAll buffer script) := by
  have h := inv_writeAll buffer script
  refine ⟨h.played, h.waits, ?_, ?_, ?_, ?_⟩
  · intro c hc
    refine h.follows.dropLast_goesOn (a := c.result) ?_
    rw [results, ← List.map_dropLast]
    exact List.mem_map_of_mem hc
  · rw [h.data]
    exact List.take_prefix _ _
  · refine h.follows.ended_ok.trans ?_
    rw [← h.follows.done_eq, h.data]
    have hroom := h.room
    simp only [policy, progress, Bool.not_eq_true', decide_eq_false_iff_not, Nat.not_lt,
      List.take_eq_self_iff]
  · intro e
    refine (h.follows.ended_error e).trans ?_
    simp [policy, results]

end WriteAll

/-! ### All of them -/

/-- A destination that fails with `WriteZero` by itself gets its error through `write_all`, and no
write accepted zero bytes. -/
theorem writeZero_of_device :
    ¬∀ (buffer : List UInt8) (script : List (Except Error Nat)),
      (Write.writeAll buffer script).returned = some (.error (.new .writeZero)) ↔
        ∃ c ∈ (Write.writeAll buffer script).calls, c.result = .ok 0 := by
  intro h
  have hdevice := (h [1] [.error (.new .writeZero)]).mp rfl
  obtain ⟨c, hc, hres⟩ := hdevice
  rw [show (Write.writeAll [1] [.error (.new .writeZero)]).calls =
    [⟨[1], .error (.new .writeZero)⟩] from rfl, List.mem_singleton] at hc
  rw [hc] at hres
  cases hres

/-- The provided loops are exact for every device. For every buffer and every script of answers,
the two `read_exact`, `read_to_end` and `write_all` are what `Exact` says of each. In particular
`write_all` returns `WriteZero` exactly when a write accepted no bytes, or the device failed with
`WriteZero`. -/
theorem provided_loops_exact :
    (∀ (buffer : List UInt8) (script : List (Reply Error)),
      ReadExact.Exact (.new .unexpectedEof) Error.interrupted buffer script
        (Read.readExact buffer script)) ∧
    (∀ (buffer : List UInt8) (script : List (Reply StreamError)),
      ReadExact.Exact .unexpectedEof StreamError.interrupted buffer script
        (Stream.readExact buffer script)) ∧
    (∀ (buffer : List UInt8) (script : List (Reply Error)),
      ReadToEnd.Exact buffer script (Read.readToEnd buffer script)) ∧
    (∀ (buffer : List UInt8) (script : List (Except Error Nat)),
      WriteAll.Exact buffer script (Write.writeAll buffer script) ∧
      ((Write.writeAll buffer script).returned = some (.error (.new .writeZero)) ↔
        ∃ c ∈ (Write.writeAll buffer script).calls,
          c.result = .ok 0 ∨ c.result = .error (.new .writeZero))) := by
  refine ⟨ReadExact.run_exact, ReadExact.run_exact, ReadToEnd.readToEnd_exact, ?_⟩
  intro buffer script
  have h := WriteAll.writeAll_exact buffer script
  refine ⟨h, (h.error_iff _).trans ?_⟩
  constructor
  · rintro (⟨-, c, hc, hres⟩ | ⟨-, c, hc, hres⟩)
    · exact ⟨c, hc, .inl hres⟩
    · exact ⟨c, hc, .inr hres⟩
  · rintro ⟨c, hc, hres | hres⟩
    · exact .inl ⟨rfl, c, hc, hres⟩
    · exact .inr ⟨rfl, c, hc, hres⟩

/-- A device that is interrupted, stores behind what it counts, and delivers in pieces. -/
example : (Read.readExact [0, 0, 0] [⟨[], .error (.new .interrupted)⟩, ⟨[1, 2, 9], .ok 2⟩,
    ⟨[3], .ok 5⟩]).buffer = [1, 2, 3] := by
  decide

end Nagoya.Io
