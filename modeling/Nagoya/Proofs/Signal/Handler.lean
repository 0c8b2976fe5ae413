import Nagoya.Lib.Pool
import Nagoya.Signal.Handler

/-!
# `Nagoya.Proofs.Signal.Handler`: what a handler that comes and goes leaves

At most one call or waiter has the claim (`Phase.claim`), so only one thread at a time changes the
action, the saved action and the write end. `Held` says what these are before each step of the call
that has it, and `Phase` what they are when no call does: the program's own action without a
waiter, and the handler with one. There is one pipe at most that was ever published, and it stays
open. A handler that has loaded the write end writes into that pipe, however late it does.

A signal that was sent while the handler stood is discarded before the program's action comes back
(`Stamped`). A thread has the signal blocked as the program has it, but for the steps of `disarm`
that block it, and a handler leaves `errno` as it found it (`Thread.Sound`).

Every signal that the handler took is accounted for (`Accounts`): `recv` returned it, it is a byte
in the pipe, its handler still runs, the pipe was full, or the disarm of a drop or of a failed
`Signal::new` had taken the write end away.
-/

set_option autoImplicit false

namespace Nagoya.Signal.Handler

open Nagoya.Lib

/-! ### The steps of a call -/

namespace Pc

/-- The call has the claim. -/
def holds : Pc → Bool
  | .acquire => false
  | _ => true

/-- `disarm` has the signal blocked, and it was not blocked before. -/
def blocks : Pc → Bool
  | .swap d | .ignore d | .restore d | .republish d | .restoreMask d => !d.wasBlocked
  | .unblock _ => true
  | _ => false

/-- `disarm` has taken the write end away. -/
def swapped : Pc → Bool
  | .ignore _ | .unblock _ | .reblock _ | .restore _ | .republish _ => true
  | _ => false

/-- What `disarm` knows of the mask. -/
def Knows (own : Bool) : Pc → Prop
  | .swap d | .ignore d | .restore d | .republish d | .restoreMask d =>
    d.wasBlocked = false → own = false
  | .unblock d | .reblock d => d.wasBlocked = false ∧ own = false
  | _ => True

end Pc

namespace Thread

/-- The thread has the claim. -/
def holds (th : Thread) : Bool := th.call.any Pc.holds

/-- The handler runs on the thread and has not decided about its byte. -/
def writing (th : Thread) : Bool :=
  match th.frame with
  | some ⟨_, .leave⟩ | none => false
  | _ => true

/-- The mask and `errno` of the thread are those of the program, but for what a call or the handler
is about to undo. -/
structure Sound (th : Thread) : Prop where
  mask : th.blocked = (th.ownBlocked || th.call.any Pc.blocks)
  knows : ∀ pc, th.call = some pc → pc.Knows th.ownBlocked
  errno : th.frame = none → th.errno = th.ownErrno
  frame : ∀ f, th.frame = some f → f.errno = th.ownErrno

end Thread

/-- A step that discards nothing. The handler goes away only in the step that puts another action
back. -/
structure Kept (s s' : State) (th th' : Thread) : Prop where
  pending : s'.pending = s.pending ∧ th'.pending = th.pending
  disposition : s'.disposition = s.disposition ∨ s'.disposition = .handler ∨
    ∃ d, th.call = some (.restore d)

/-- A step of a call: one thread goes on, and the other threads lose at most what is pending. -/
structure Advanced (s s' : State) (t : Nat) (th th' : Thread) : Prop where
  threads : s'.threads = s.threads.set t th' ∧ Kept s s' th th' ∨
    s' = s.discard.setThread t th' ∧ th'.pending = none
  frame : th'.frame = th.frame
  ownBlocked : th'.ownBlocked = th.ownBlocked
  own : s'.own = s.own
  taken : s'.taken = s.taken
  handled : s'.handled = s.handled
  received : s'.received = s.received
  lost : s'.gaveUp = s.gaveUp ∧ s'.full = s.full ∧ s'.stray = s.stray
  sound : th.frame = none → th.Sound → th'.Sound

/-- A step that keeps what is pending. -/
theorem advanced_of_set {s s' : State} {t : Nat} {th : Thread} {pc : Pc} {b : Bool}
    {call : Option Pc} {returned : Option (Except Int Nat)} (hcall : th.call = some pc)
    {errno ownErrno : Int}
    (threads : s'.threads =
      s.threads.set t { th with blocked := b, errno, ownErrno, call, returned })
    (kept : th.errno = th.ownErrno → errno = ownErrno)
    (same : (s'.own = s.own ∧ s'.taken = s.taken ∧ s'.handled = s.handled ∧
      s'.received = s.received ∧ s'.gaveUp = s.gaveUp ∧ s'.full = s.full ∧ s'.stray = s.stray) ∧
      s'.pending = s.pending ∧ (s'.disposition = s.disposition ∨ s'.disposition = .handler ∨
        ∃ d, pc = .restore d))
    (mask : th.blocked = (th.ownBlocked || pc.blocks) → pc.Knows th.ownBlocked →
      b = (th.ownBlocked || call.any Pc.blocks) ∧
        ∀ pc', call = some pc' → pc'.Knows th.ownBlocked) :
    ∃ th', Advanced s s' t th th' := by
  obtain ⟨⟨hown, htaken, hhandled, hreceived, hlost⟩, pending, disposition⟩ := same
  have hkept : Kept s s' th { th with blocked := b, errno, ownErrno, call, returned } :=
    ⟨⟨pending, rfl⟩, by rw [hcall]; simpa using disposition⟩
  refine ⟨_, .inl ⟨threads, hkept⟩, rfl, rfl, hown, htaken, hhandled, hreceived, hlost, ?_⟩
  intro hframe h
  have hmask := h.mask
  rw [hcall] at hmask
  obtain ⟨hb, hknows⟩ := mask hmask (h.knows pc hcall)
  refine ⟨hb, hknows, fun _ => kept (h.errno hframe), fun f hf => ?_⟩
  have hf : th.frame = some f := hf
  rw [hframe] at hf
  cases hf

/-- Every step of a call moves one thread. It keeps the thread sound when the handler does not
interrupt it: then the thread's own code makes the `errno` of a call that fails. -/
theorem advanced {c : Config} {s s' : State} {t : Nat} {th : Thread} {pc : Pc} {answer : Answer}
    (hcall : th.call = some pc) (hs : advance c s t th pc answer = some s') :
    ∃ th', Advanced s s' t th th' := by
  cases pc with
  | ignore d =>
    cases answer <;> cases hs
    -- The discard reaches every thread, so this is the second way of `Advanced`.
    refine ⟨_, .inr ⟨rfl, rfl⟩, rfl, rfl, rfl, rfl, rfl, rfl, ⟨rfl, rfl, rfl⟩, ?_⟩
    intro _ h
    have hmask := h.mask
    have hknows := h.knows _ hcall
    rw [hcall] at hmask
    refine ⟨?_, ?_, h.errno, h.frame⟩
    · show th.blocked = (th.ownBlocked || _)
      rw [hmask]
      cases hd : d.wasBlocked <;> simp [Pc.blocks, hd]
    · rintro pc' ⟨⟩
      cases hd : d.wasBlocked
      · exact ⟨hd, hknows hd⟩
      · simp [Pc.Knows, hd, Thread.discard]
  | acquire =>
    cases answer <;> simp only [advance, reduceCtorEq] at hs
    split at hs
    · cases hs
      exact advanced_of_set hcall rfl id (by simp [State.leave, State.setThread])
        (by simp +contextual [Pc.blocks])
    · split at hs <;> cases hs
      · exact advanced_of_set hcall rfl id (by simp [State.leave, State.setThread])
          (by simp +contextual [Pc.blocks])
      · exact advanced_of_set hcall rfl id (by simp [State.goto, State.setThread])
          (by simp +contextual [Pc.blocks, Pc.Knows])
  | ensurePipe | loadRead =>
    cases answer <;> simp only [advance, reduceCtorEq] at hs
    split at hs <;> cases hs <;>
      exact advanced_of_set hcall rfl id (by simp [State.goto, State.setThread])
        (by simp +contextual [Pc.blocks, Pc.Knows])
  | pipe =>
    cases answer <;> simp only [advance, reduceCtorEq] at hs
    · cases hs
      exact advanced_of_set hcall rfl (fun _ => rfl) (by simp [State.goto, State.setThread])
        (by simp +contextual [Pc.blocks, Pc.Knows, Thread.fail])
    · split at hs <;> cases hs
      exact advanced_of_set hcall rfl id
        (by simp [State.goto, State.setThread, State.setPipe, State.setFile])
        (by simp +contextual [Pc.blocks, Pc.Knows])
  | take e =>
    cases answer <;> simp only [advance, reduceCtorEq] at hs
    split at hs <;> cases hs <;>
      exact advanced_of_set hcall rfl id (by simp [State.goto, State.setThread])
        (by simp +contextual [Pc.blocks, Pc.Knows])
  | republish d =>
    cases answer <;> simp only [advance, reduceCtorEq] at hs
    split at hs <;> cases hs <;>
      exact advanced_of_set hcall rfl id (by simp [State.goto, State.setThread])
        (by simp +contextual [Pc.blocks, Pc.Knows])
  | block e saved =>
    cases answer <;> cases hs
    · refine advanced_of_set hcall rfl id (by simp [State.goto, State.setThread]) ?_
      cases th.blocked <;> simp +contextual [Pc.blocks, Pc.Knows]
    · exact advanced_of_set hcall rfl (fun _ => rfl) (by simp [State.goto, State.setThread])
        (by simp +contextual [Pc.blocks, Pc.Knows, Thread.fail])
  | restoreMask d =>
    cases answer <;> simp only [advance, reduceCtorEq] at hs
    split at hs <;> rename_i hd <;> cases hs <;>
      exact advanced_of_set hcall rfl id (by simp [State.goto, State.setThread])
        (by simp +contextual [Pc.blocks, Pc.Knows, hd])
  | unblock d | reblock d =>
    cases answer <;> cases hs
    exact advanced_of_set hcall rfl id (by simp [State.goto, State.setThread])
      (by simp +contextual [Pc.blocks, Pc.Knows])
  | setFlags | sigaction | register =>
    cases answer <;> cases hs
    · exact advanced_of_set hcall rfl id (by simp [State.goto, State.leave, State.setThread])
        (by simp +contextual [Pc.blocks, Pc.Knows])
    · exact advanced_of_set hcall rfl (fun _ => rfl) (by simp [State.goto, State.setThread])
        (by simp +contextual [Pc.blocks, Pc.Knows, Thread.fail])
  | _ =>
    cases answer <;> cases hs
    exact advanced_of_set hcall rfl id
      (by simp [State.goto, State.leave, State.setThread, State.setFile])
      (by simp +contextual [Pc.blocks, Pc.Knows])

/-! ### The masks and `errno` -/

theorem forall_set {l : List Thread} {P : Thread → Prop} {t : Nat} {th : Thread}
    (h : ∀ th ∈ l, P th) (hth : P th) : ∀ th' ∈ l.set t th, P th' := by
  intro th' hmem
  rcases List.mem_or_eq_of_mem_set hmem with hmem | rfl
  · exact h th' hmem
  · exact hth

theorem mem_of_running {s : State} {t : Nat} {th : Thread} (h : running s t = some th) :
    s.threads[t]? = some th ∧ th.frame = none := by
  simp only [running, Option.bind_eq_bind, Option.bind_eq_some_iff] at h
  obtain ⟨th', hth, h⟩ := h
  split at h
  · cases h
    exact ⟨hth, by assumption⟩
  · cases h

/-- A thread that runs the program's code is in no call and in no handler. -/
theorem mem_of_outside {s : State} {t : Nat} {th : Thread} (h : outside s t = some th) :
    s.threads[t]? = some th ∧ th.frame = none ∧ th.call = none := by
  simp only [outside, Option.bind_eq_bind, Option.bind_eq_some_iff] at h
  obtain ⟨th', hth, h⟩ := h
  split at h
  · cases h
    have hrunning := mem_of_running hth
    exact ⟨hrunning.1, hrunning.2, by assumption⟩
  · cases h

namespace Thread

theorem Sound.of_new {blocked : Bool} {errno : Int} : (Thread.new blocked errno).Sound := by
  constructor <;> simp [Thread.new]

/-- What is pending does not matter. -/
theorem Sound.pending {th : Thread} (h : th.Sound) (pending : Option Bool) :
    Sound { th with pending } :=
  ⟨h.mask, h.knows, h.errno, h.frame⟩

/-- A call begins. -/
theorem Sound.begin {th : Thread} (h : th.Sound) (hcall : th.call = none) {pc : Pc}
    (hblocks : pc.blocks = false) (hknows : pc.Knows th.ownBlocked) :
    Sound { th with call := some pc } := by
  refine ⟨?_, ?_, h.errno, h.frame⟩
  · have hmask := h.mask
    rw [hcall] at hmask
    simpa [hblocks] using hmask
  · rintro pc' ⟨⟩
    exact hknows

/-- The handler begins with the `errno` that it finds. -/
theorem Sound.enter {th : Thread} (h : th.Sound) (hframe : th.frame = none) (pc : FramePc) :
    Sound { th with frame := some ⟨th.errno, pc⟩ } := by
  refine ⟨h.mask, h.knows, nofun, ?_⟩
  rintro f ⟨⟩
  exact h.errno hframe

/-- The handler goes on. -/
theorem Sound.stay {th : Thread} (h : th.Sound) {f : Frame} (hframe : th.frame = some f)
    (pc : FramePc) (errno : Int) : Sound { th with errno, frame := some { f with pc } } := by
  refine ⟨h.mask, h.knows, nofun, ?_⟩
  rintro f' ⟨⟩
  exact h.frame f hframe

/-- The handler returns. -/
theorem Sound.leave {th : Thread} (h : th.Sound) {f : Frame} (hframe : th.frame = some f) :
    Sound { th with errno := f.errno, frame := none } :=
  ⟨h.mask, h.knows, fun _ => h.frame f hframe, nofun⟩

end Thread

/-- The handler moves one thread only. -/
theorem threads_writeSignal (c : Config) (s : State) (t : Nat) (th : Thread) (f : Frame) :
    ∃ th', (writeSignal c s t th f).threads = s.threads.set t th' ∧
      th'.pending = th.pending ∧ th'.call = th.call ∧
      (th.frame = some f → th.Sound → th'.Sound) := by
  obtain ⟨errno, pc⟩ := f
  cases pc with
  | load =>
    simp only [writeSignal]
    repeat' split
    all_goals exact ⟨_, rfl, rfl, rfl, fun hframe h => h.stay hframe _ _⟩
  | write fd =>
    simp only [writeSignal]
    repeat' split
    all_goals exact ⟨_, rfl, rfl, rfl, fun hframe h => h.stay hframe _ _⟩
  | leave => exact ⟨_, rfl, rfl, rfl, fun hframe h => h.leave hframe⟩

/-- A thread takes the signal, and only that thread moves. -/
theorem threads_dispatch (s : State) (t : Nat) (th : Thread) (record : Bool) :
    ∃ th', (dispatch s t th record).threads = s.threads.set t th' ∧
      th'.pending = th.pending ∧ th'.call = th.call ∧
      (th.frame = none → th.Sound → th'.Sound) := by
  simp only [dispatch]
  split
  · exact ⟨_, rfl, rfl, rfl, fun _ h => h⟩
  · exact ⟨_, rfl, rfl, rfl, fun hframe h => h.enter hframe _⟩
  · exact ⟨_, rfl, rfl, rfl, fun _ h => h⟩

/-- Every step keeps the threads sound. -/
theorem sound_step {c : Config} {s s' : State} {act : Action} (h : ∀ th ∈ s.threads, th.Sound)
    (hs : step c s act = some s') : ∀ th ∈ s'.threads, th.Sound := by
  have hat : ∀ {t : Nat} {th : Thread}, s.threads[t]? = some th → th.Sound :=
    fun hth => h _ (List.mem_of_getElem? hth)
  cases act with
  | new t =>
    simp only [step, Option.bind_eq_bind, Option.bind_eq_some_iff] at hs
    obtain ⟨th, hth, hs⟩ := hs
    obtain ⟨hth, -, hcall⟩ := mem_of_outside hth
    cases hs
    exact forall_set h ((hat hth).begin hcall rfl trivial)
  | drop t i =>
    simp only [step, Option.bind_eq_bind, Option.bind_eq_some_iff] at hs
    obtain ⟨th, hth, fd, -, hs⟩ := hs
    obtain ⟨hth, -, hcall⟩ := mem_of_outside hth
    cases hs
    exact forall_set h ((hat hth).begin hcall rfl trivial)
  | advance t answer =>
    simp only [step, Option.bind_eq_bind, Option.bind_eq_some_iff] at hs
    obtain ⟨th, hth, pc, hcall, hs⟩ := hs
    obtain ⟨hth, hframe⟩ := mem_of_running hth
    obtain ⟨th', hadv⟩ := advanced hcall hs
    rcases hadv.threads with ⟨hthreads, -⟩ | ⟨rfl, -⟩
    · rw [hthreads]
      exact forall_set h (hadv.sound hframe (hat hth))
    · -- The other threads lose what is pending for them, and nothing else.
      refine forall_set ?_ (hadv.sound hframe (hat hth))
      simp only [State.discard, List.mem_map]
      rintro _ ⟨other, hother, rfl⟩
      exact (h other hother).pending none
  | handler t =>
    simp only [step, Option.bind_eq_bind, Option.bind_eq_some_iff] at hs
    obtain ⟨th, hth, f, hframe, hs⟩ := hs
    cases hs
    obtain ⟨th', hthreads, -, -, hsound⟩ := threads_writeSignal c s t th f
    rw [hthreads]
    exact forall_set h (hsound hframe (hat hth))
  | send thread kept =>
    simp only [step, send] at hs
    split at hs
    · cases hs
      exact h
    · cases thread with
      | none =>
        cases hs
        exact h
      | some t =>
        simp only [Option.bind_eq_bind, Option.bind_eq_some_iff] at hs
        obtain ⟨th, hth, hs⟩ := hs
        cases hs
        exact forall_set h ((hat hth).pending _)
  | take t directed =>
    simp only [step, take, Option.bind_eq_bind, Option.bind_eq_some_iff] at hs
    obtain ⟨th, hth, hs⟩ := hs
    split at hs
    · rename_i hfree
      split at hs <;> simp only [Option.bind_eq_some_iff] at hs <;> obtain ⟨record, -, hs⟩ := hs <;>
        cases hs
      · obtain ⟨th', hthreads, -, -, hsound⟩ :=
          threads_dispatch s t { th with pending := none } record
        rw [hthreads]
        exact forall_set h (hsound hfree.2 ((hat hth).pending none))
      · obtain ⟨th', hthreads, -, -, hsound⟩ :=
          threads_dispatch { s with pending := none } t th record
        rw [hthreads]
        exact forall_set h (hsound hfree.2 (hat hth))
    · cases hs
  | recv i =>
    simp only [step, recv, Option.bind_eq_bind, Option.bind_eq_some_iff] at hs
    obtain ⟨fd, -, hs⟩ := hs
    split at hs
    · split at hs <;> cases hs
      exact h
    · cases hs
  | setAction action =>
    simp only [step] at hs
    split at hs <;> cases hs
    exact h
  | setMask t blocked =>
    simp only [step, Option.bind_eq_bind, Option.bind_eq_some_iff] at hs
    obtain ⟨th, hth, hs⟩ := hs
    obtain ⟨hth, -, hcall⟩ := mem_of_outside hth
    cases hs
    refine forall_set h ⟨?_, ?_, (hat hth).errno, (hat hth).frame⟩ <;> simp [hcall]
  | setErrno t errno =>
    simp only [step, Option.bind_eq_bind, Option.bind_eq_some_iff] at hs
    obtain ⟨th, hth, hs⟩ := hs
    obtain ⟨hth, hframe⟩ := mem_of_running hth
    cases hs
    refine forall_set h ⟨(hat hth).mask, (hat hth).knows, fun _ => rfl, ?_⟩
    intro f hf
    exact absurd (hframe.symm.trans hf) nofun
  | spawn t =>
    simp only [step, Option.bind_eq_bind, Option.bind_eq_some_iff] at hs
    obtain ⟨th, hth, hs⟩ := hs
    obtain ⟨hth, -, -⟩ := mem_of_outside hth
    cases hs
    intro th' hth'
    rcases List.mem_append.mp hth' with hmem | hmem
    · exact h th' hmem
    · obtain rfl := List.mem_singleton.mp hmem
      exact ⟨(hat hth).mask, (hat hth).knows, (hat hth).errno, (hat hth).frame⟩
  | openFile fd | closeFile fd =>
    simp only [step] at hs
    split at hs <;> cases hs
    exact h

/-! ### The action, the saved action and the write end -/

/-- The two ends of the pipe that was published, and the pipe. -/
structure Ends where
  read : Nat
  write : Nat
  pipe : Nat

/-- The program's own action stands. -/
structure Rest (s : State) (e : Option Ends) : Prop where
  disposition : s.disposition = .program s.own
  saved : s.saved = none
  write : s.write = e.map Ends.write

/-- The handler stands, and finds a write end. -/
structure Armed (s : State) (e : Option Ends) (saved : Option Disposition) : Prop where
  disposition : s.disposition = .handler
  saved : s.saved = saved
  write : ∃ x, e = some x ∧ s.write = some x.write

/-- `disarm` holds the program's own action and the write end. -/
structure Swapped (s : State) (e : Option Ends) (d : Disarm) : Prop where
  saved : s.saved = none
  own : d.saved = .program s.own
  write : s.write = none
  ends : ∃ x, e = some x ∧ d.write = some x.write

/-- A pipe that was made and not published. -/
def Made (s : State) (r w : Nat) : Prop :=
  ∃ p, s.files r = .read p ∧ s.files w = .write p ∧ s.pipes p = []

/-- What holds before the steps of the call that has the claim. -/
def Held (s : State) (e : Option Ends) : Pc → Prop
  | .acquire => True
  | .ensurePipe | .release _ | .restoreMask _ => Rest s e
  | .pipe => Rest s e ∧ e = none
  | .setFlags r w | .close r w _ | .storeRead r w => Rest s e ∧ e = none ∧ Made s r w
  | .publish w => Rest s e ∧
      ((∃ x, e = some x ∧ x.write = w) ∨ e = none ∧ ∃ r, s.read = some r ∧ Made s r w)
  | .loadRead => Rest s e ∧ ∃ x, e = some x
  | .sigaction r => Rest s e ∧ ∃ x, e = some x ∧ x.read = r
  | .save r previous =>
    Armed s e none ∧ previous = .program s.own ∧ ∃ x, e = some x ∧ x.read = r
  | .register r => Armed s e (some (.program s.own)) ∧ ∃ x, e = some x ∧ x.read = r
  | .take _ => Armed s e (some (.program s.own))
  | .block _ saved => Armed s e none ∧ saved = .program s.own
  | .swap d => Armed s e none ∧ d.saved = .program s.own
  | .ignore d => s.disposition = .handler ∧ Swapped s e d
  | .unblock d | .reblock d | .restore d => s.disposition = .ignore ∧ Swapped s e d
  | .republish d => s.disposition = .program s.own ∧ Swapped s e d

/-- The bytes in the published pipe. -/
def inPipe (s : State) (e : Option Ends) : List UInt8 :=
  e.elim [] fun x => s.pipes x.pipe

/-- The descriptors of the published pipe are open. -/
structure Opened (s : State) (x : Ends) : Prop where
  read : s.read = some x.read
  reads : s.files x.read = .read x.pipe
  writes : s.files x.write = .write x.pipe

/-- A handler that runs has a pipe to write into. -/
def Framed (e : Option Ends) (th : Thread) : Prop :=
  ∀ f, th.frame = some f → ∃ x, e = some x ∧ ∀ fd, f.pc = .write fd → fd = x.write

/-- The claim, and what its owner finds. -/
structure Phase (c : Config) (s : State) (e : Option Ends) : Prop where
  claim : tally (fun th => th.holds.toNat) s.threads + s.waiters.length = s.claimed.toNat
  valid : s.claimed = true ∨ e.isSome → valid c.sig = true
  opened : ∀ x, e = some x → Opened s x
  free : s.claimed = false → Rest s e
  waits : ∀ fd ∈ s.waiters,
    Armed s e (some (.program s.own)) ∧ ∃ x, e = some x ∧ x.read = fd
  held : ∀ th ∈ s.threads, ∀ pc, th.call = some pc → Held s e pc
  frames : ∀ th ∈ s.threads, Framed e th

/-- What holds at all times. -/
structure View (s : State) (e : Option Ends) : Prop where
  write : ∀ fd, s.write = some fd → ∃ x, e = some x ∧ x.write = fd
  handler : s.disposition = .handler → ∃ x, e = some x
  program : ∀ action, s.disposition = .program action → action = s.own

/-- Without a waiter the program's own action stands. -/
theorem Rest.view {s : State} {e : Option Ends} (h : Rest s e) : View s e := by
  refine ⟨?_, ?_, ?_⟩
  · intro fd hfd
    rw [h.write, Option.map_eq_some_iff] at hfd
    exact hfd
  · intro hd
    exact absurd (h.disposition.symm.trans hd) nofun
  · intro action hd
    cases h.disposition.symm.trans hd
    rfl

/-- With a waiter the handler stands. -/
theorem Armed.view {s : State} {e : Option Ends} {saved : Option Disposition}
    (h : Armed s e saved) : View s e := by
  obtain ⟨x, hx, hwrite⟩ := h.write
  refine ⟨?_, fun _ => ⟨x, hx⟩, ?_⟩
  · intro fd hfd
    cases hwrite.symm.trans hfd
    exact ⟨x, hx, rfl⟩
  · intro action hd
    exact absurd (h.disposition.symm.trans hd) nofun

/-- After the swap no write end is published. -/
theorem Swapped.view {s : State} {e : Option Ends} {d : Disarm} (h : Swapped s e d)
    (hd : s.disposition ≠ .program s.own → ∀ action, s.disposition ≠ .program action) :
    View s e := by
  obtain ⟨x, hx, -⟩ := h.ends
  refine ⟨?_, fun _ => ⟨x, hx⟩, ?_⟩
  · intro fd hfd
    exact absurd (h.write.symm.trans hfd) nofun
  · intro action haction
    by_contra hne
    refine hd ?_ action haction
    rw [haction]
    simpa using hne

/-- Before each step of the call that has the claim. -/
theorem Held.view {s : State} {e : Option Ends} {pc : Pc} (h : Held s e pc)
    (hpc : pc.holds = true) : View s e := by
  cases pc with
  | acquire => cases hpc
  | ensurePipe | release | restoreMask => exact Rest.view h
  | pipe | setFlags | close | storeRead | publish | loadRead | sigaction => exact Rest.view h.1
  | save | register | block | swap => exact Armed.view h.1
  | take => exact Armed.view h
  | ignore | unblock | reblock | restore | republish =>
    refine Swapped.view h.2 ?_
    rw [h.1]
    simp

/-- What `Held` is about is the same. -/
structure Same (s s' : State) (e : Option Ends) : Prop where
  disposition : s'.disposition = s.disposition
  own : s'.own = s.own
  read : s'.read = s.read
  write : s'.write = s.write
  saved : s'.saved = s.saved
  reads : ∀ fd p, s.files fd = .read p → s'.files fd = .read p
  writes : ∀ fd p, s.files fd = .write p → s'.files fd = .write p
  pipes : e = none → s'.pipes = s.pipes

section Same

variable {s s' : State} {e : Option Ends}

theorem Rest.congr (h : Rest s e) (hsame : Same s s' e) : Rest s' e :=
  ⟨by rw [hsame.disposition, hsame.own, h.disposition], by rw [hsame.saved, h.saved],
    by rw [hsame.write, h.write]⟩

theorem Armed.congr {saved : Option Disposition} (h : Armed s e saved) (hsame : Same s s' e) :
    Armed s' e saved :=
  ⟨by rw [hsame.disposition, h.disposition], by rw [hsame.saved, h.saved],
    by rw [hsame.write]; exact h.write⟩

theorem Swapped.congr {d : Disarm} (h : Swapped s e d) (hsame : Same s s' e) : Swapped s' e d :=
  ⟨by rw [hsame.saved, h.saved], by rw [hsame.own, h.own], by rw [hsame.write, h.write], h.ends⟩

theorem Made.congr {r w : Nat} (h : Made s r w) (hsame : Same s s' e) (he : e = none) :
    Made s' r w := by
  obtain ⟨p, hr, hw, hbytes⟩ := h
  exact ⟨p, hsame.reads r p hr, hsame.writes w p hw, by rw [hsame.pipes he, hbytes]⟩

theorem Opened.congr {x : Ends} (h : Opened s x) (hsame : Same s s' e) : Opened s' x :=
  ⟨by rw [hsame.read, h.read], hsame.reads _ _ h.reads, hsame.writes _ _ h.writes⟩

/-- Only what `Same` keeps decides where a call is. -/
theorem Held.congr {pc : Pc} (h : Held s e pc) (hsame : Same s s' e) : Held s' e pc := by
  cases pc with
  | acquire => exact trivial
  | ensurePipe | release | restoreMask => exact Rest.congr h hsame
  | pipe | loadRead | sigaction => exact ⟨h.1.congr hsame, h.2⟩
  | setFlags | close | storeRead => exact ⟨h.1.congr hsame, h.2.1, h.2.2.congr hsame h.2.1⟩
  | publish =>
    refine ⟨h.1.congr hsame, h.2.imp id ?_⟩
    rintro ⟨he, r, hr, hmade⟩
    exact ⟨he, r, by rw [hsame.read, hr], hmade.congr hsame he⟩
  | save => exact ⟨h.1.congr hsame, by rw [hsame.own, h.2.1], h.2.2⟩
  | register => exact ⟨by rw [hsame.own]; exact h.1.congr hsame, h.2⟩
  | take =>
    show Armed s' e (some (.program s'.own))
    rw [hsame.own]
    exact Armed.congr h hsame
  | block | swap => exact ⟨h.1.congr hsame, by rw [hsame.own, h.2]⟩
  | ignore | unblock | reblock | restore =>
    exact ⟨by rw [hsame.disposition, h.1], h.2.congr hsame⟩
  | republish => exact ⟨by rw [hsame.disposition, hsame.own, h.1], h.2.congr hsame⟩

/-- Another thread, and nothing else. -/
theorem Same.setThread (s : State) (e : Option Ends) (t : Nat) (th : Thread) :
    Same s (s.setThread t th) e :=
  ⟨rfl, rfl, rfl, rfl, rfl, fun _ _ => id, fun _ _ => id, fun _ => rfl⟩

end Same

/-- The claim is free, a waiter has it, or a call does. -/
theorem Phase.cases {c : Config} {s : State} {e : Option Ends} (h : Phase c s e) :
    Rest s e ∨ Armed s e (some (.program s.own)) ∨
      ∃ th ∈ s.threads, ∃ pc, th.call = some pc ∧ pc.holds = true ∧ Held s e pc := by
  cases hc : s.claimed with
  | false => exact .inl (h.free hc)
  | true =>
    rcases List.eq_nil_or_concat s.waiters with hw | ⟨_, fd, hw⟩
    · have hclaim := h.claim
      rw [hw, hc] at hclaim
      have hone : tally (fun th => th.holds.toNat) s.threads = 1 := by simpa using hclaim
      obtain ⟨th, hth, hholds⟩ : ∃ th ∈ s.threads, th.holds = true := by
        by_contra hnone
        have := tally_eq_zero (f := fun th : Thread => th.holds.toNat) (l := s.threads)
          fun th hth => by
            cases hh : th.holds with
            | false => rfl
            | true => exact absurd ⟨th, hth, hh⟩ hnone
        omega
      cases hcall : th.call with
      | none => simp [Thread.holds, hcall] at hholds
      | some pc =>
        exact .inr (.inr ⟨th, hth, pc, hcall, by simpa [Thread.holds, hcall] using hholds,
          h.held th hth pc hcall⟩)
    · exact .inr (.inl (h.waits fd (by rw [hw]; simp)).1)

theorem Phase.view {c : Config} {s : State} {e : Option Ends} (h : Phase c s e) : View s e := by
  rcases h.cases with hrest | harmed | ⟨th, -, pc, -, hpc, hheld⟩
  · exact hrest.view
  · exact harmed.view
  · exact hheld.view hpc

/-- A write end that was published is gone only between two steps of `disarm`. -/
theorem Phase.swapped {c : Config} {s : State} {x : Ends} (h : Phase c s (some x))
    (hwrite : s.write = none) :
    ∃ th ∈ s.threads, ∃ pc, th.call = some pc ∧ pc.swapped = true := by
  have hrest : ¬Rest s (some x) := fun hr => absurd (hwrite.symm.trans hr.write) nofun
  have harmed : ∀ saved, ¬Armed s (some x) saved := by
    intro saved ha
    obtain ⟨_, -, hw⟩ := ha.write
    exact absurd (hwrite.symm.trans hw) nofun
  rcases h.cases with hr | ha | ⟨th, hth, pc, hcall, hpc, hheld⟩
  · exact absurd hr hrest
  · exact absurd ha (harmed _)
  · refine ⟨th, hth, pc, hcall, ?_⟩
    cases pc with
    | acquire => cases hpc
    | ensurePipe | release | restoreMask => exact absurd hheld hrest
    | pipe | setFlags | close | storeRead | publish | loadRead | sigaction =>
      exact absurd hheld.1 hrest
    | save | register | block | swap => exact absurd hheld.1 (harmed _)
    | take => exact absurd hheld (harmed _)
    | ignore | unblock | reblock | restore | republish => rfl

/-- While a call has the claim, there is no waiter, and every other call waits for the claim. -/
theorem Phase.alone {c : Config} {s : State} {e : Option Ends} (h : Phase c s e) {t : Nat}
    {th : Thread} {pc : Pc} (ht : s.threads[t]? = some th) (hcall : th.call = some pc)
    (hpc : pc.holds = true) :
    s.claimed = true ∧ s.waiters = [] ∧
      ∀ j other, j ≠ t → s.threads[j]? = some other → other.holds = false := by
  have hholds : th.holds = true := by simpa [Thread.holds, hcall] using hpc
  have hle := le_tally (fun th : Thread => th.holds.toNat) ht
  have hclaim := h.claim
  have hbound := Bool.toNat_le s.claimed
  rw [hholds, Bool.toNat_true] at hle
  refine ⟨?_, List.length_eq_zero_iff.mp (by omega), ?_⟩
  · cases hc : s.claimed with
    | true => rfl
    | false =>
      rw [hc] at hclaim
      simp at hclaim
      omega
  · intro j other hj hother
    have := add_le_tally (fun th : Thread => th.holds.toNat) ht hother (Ne.symm hj)
    rw [hholds, Bool.toNat_true] at this
    cases ho : other.holds with
    | false => rfl
    | true =>
      rw [ho, Bool.toNat_true] at this
      omega

/-- A thread without the claim that has a call waits for the claim. -/
theorem call_of_not_holds {th : Thread} (h : th.holds = false) {pc : Pc}
    (hcall : th.call = some pc) : pc = .acquire := by
  rw [Thread.holds, hcall, Option.any_some] at h
  cases pc with
  | acquire => rfl
  | _ => cases h

/-- While the claim is free, no waiter and no call has it. -/
theorem Phase.nobody {c : Config} {s : State} {e : Option Ends} (h : Phase c s e)
    (hclaimed : s.claimed = false) : s.waiters = [] ∧ ∀ th ∈ s.threads, th.holds = false := by
  have hclaim := h.claim
  rw [hclaimed, Bool.toNat_false, Nat.add_eq_zero_iff] at hclaim
  refine ⟨List.length_eq_zero_iff.mp hclaim.2, ?_⟩
  intro th hth
  obtain ⟨j, hj⟩ := List.getElem?_of_mem hth
  have hle := le_tally (fun th : Thread => th.holds.toNat) hj
  rw [hclaim.1] at hle
  cases hh : th.holds with
  | false => rfl
  | true =>
    rw [hh] at hle
    cases hle

theorem tally_discard (l : List Thread) :
    tally (fun th => th.holds.toNat) (l.map Thread.discard) =
      tally (fun th => th.holds.toNat) l := by
  rw [tally, tally, List.map_map]
  rfl

/-- The call that has the claim takes a step. -/
theorem Phase.advance {c : Config} {s s' : State} {e e' : Option Ends} {t : Nat} {th th' : Thread}
    {pc : Pc} (h : Phase c s e) (ht : s.threads[t]? = some th) (hcall : th.call = some pc)
    (hpc : pc.holds = true) (hadv : Advanced s s' t th th')
    (hclaimed : s'.claimed.toNat = th'.holds.toNat + s'.waiters.length)
    (hends : ∀ x, e = some x → e' = some x) (hopened : ∀ x, e' = some x → Opened s' x)
    (hfree : s'.claimed = false → Rest s' e')
    (hwaits : ∀ fd ∈ s'.waiters,
      Armed s' e' (some (.program s'.own)) ∧ ∃ x, e' = some x ∧ x.read = fd)
    (hheld : ∀ pc', th'.call = some pc' → Held s' e' pc') : Phase c s' e' := by
  obtain ⟨hclaimed₀, hwaiters₀, halone⟩ := h.alone ht hcall hpc
  have hvalid := h.valid (.inl hclaimed₀)
  have hcount := h.claim
  rw [hwaiters₀, hclaimed₀] at hcount
  have hholds : th.holds = true := by simpa [Thread.holds, hcall] using hpc
  have hframed : Framed e' th' := by
    intro f hf
    obtain ⟨x, hx, hfd⟩ := h.frames th (List.mem_of_getElem? ht) f (hadv.frame ▸ hf)
    exact ⟨x, hends x hx, hfd⟩
  -- The other threads are as before, but for what was pending for them.
  have hothers : ∀ th'' ∈ s'.threads, th'' = th' ∨
      ∃ other ∈ s.threads, other.holds = false ∧ th''.call = other.call ∧
        th''.frame = other.frame := by
    intro th'' hmem
    rcases hadv.threads with ⟨hthreads, -⟩ | ⟨rfl, -⟩
    · rw [hthreads] at hmem
      rcases mem_set_cases ht hmem with rfl | ⟨j, hj, hother⟩
      · exact .inl rfl
      · exact .inr ⟨th'', List.mem_of_getElem? hother, halone j th'' hj hother, rfl, rfl⟩
    · have ht' : (s.threads.map Thread.discard)[t]? = some th.discard := by
        rw [List.getElem?_map, ht]
        rfl
      rcases mem_set_cases ht' hmem with rfl | ⟨j, hj, hother⟩
      · exact .inl rfl
      · rw [List.getElem?_map, Option.map_eq_some_iff] at hother
        obtain ⟨other, hother, rfl⟩ := hother
        exact .inr ⟨other, List.mem_of_getElem? hother, halone j other hj hother, rfl, rfl⟩
  refine ⟨?_, fun _ => hvalid, hopened, hfree, hwaits, ?_, ?_⟩
  · -- The claim is counted with this thread alone, before and after.
    have hset : tally (fun th => th.holds.toNat) s'.threads + 1 =
        tally (fun th => th.holds.toNat) s.threads + th'.holds.toNat := by
      rcases hadv.threads with ⟨hthreads, -⟩ | ⟨rfl, -⟩
      · have := tally_set (fun th : Thread => th.holds.toNat) ht th'
        rw [hholds, Bool.toNat_true] at this
        rw [hthreads]
        exact this
      · have ht' : (s.threads.map Thread.discard)[t]? = some th.discard := by
          rw [List.getElem?_map, ht]
          rfl
        have := tally_set (fun th : Thread => th.holds.toNat) ht' th'
        rw [tally_discard, show th.discard.holds = th.holds from rfl, hholds, Bool.toNat_true]
          at this
        exact this
    simp only [List.length_nil, Bool.toNat_true] at hcount
    omega
  · intro th'' hmem pc' hcall'
    rcases hothers th'' hmem with rfl | ⟨other, -, hnot, heq, -⟩
    · exact hheld pc' hcall'
    · cases call_of_not_holds hnot (heq ▸ hcall')
      exact trivial
  · intro th'' hmem
    rcases hothers th'' hmem with rfl | ⟨other, hother, -, -, heq⟩
    · exact hframed
    · intro f hf
      obtain ⟨x, hx, hfd⟩ := h.frames other hother f (heq ▸ hf)
      exact ⟨x, hends x hx, hfd⟩

/-- What the threads do in a step that is not one of a call with the claim. -/
inductive Moves (s : State) (e : Option Ends) : List Thread → Prop where
  | same : Moves s e s.threads
  | set {t : Nat} {th th' : Thread} (ht : s.threads[t]? = some th) (hholds : th'.holds = th.holds)
      (hcall : ∀ pc, th'.call = some pc → th.call = some pc ∨ pc = .acquire)
      (hframed : Framed e th') : Moves s e (s.threads.set t th')
  | spawn {th : Thread} (hcall : th.call = none) (hframe : th.frame = none) :
      Moves s e (s.threads ++ [th])

/-- A thread whose call stays. -/
theorem Moves.keep {s : State} {e : Option Ends} {t : Nat} {th th' : Thread}
    (ht : s.threads[t]? = some th) (hcall : th'.call = th.call) (hframed : Framed e th') :
    Moves s e (s.threads.set t th') :=
  .set ht (by rw [Thread.holds, Thread.holds, hcall]) (fun _ h => .inl (hcall ▸ h)) hframed

/-- A step that is not one of a call with the claim. -/
theorem Phase.beside {c : Config} {s s' : State} {e : Option Ends} (h : Phase c s e)
    (hsame : Same s s' e) (hclaimed : s'.claimed = s.claimed) (hwaiters : s'.waiters = s.waiters)
    (hmoves : Moves s e s'.threads) : Phase c s' e := by
  generalize hthreads : s'.threads = threads at hmoves
  -- No thread gets the claim and none gives it up.
  refine ⟨?_, ?_, ?_, ?_, ?_, ?_, ?_⟩
  · rw [hclaimed, hwaiters, hthreads, ← h.claim, Nat.add_right_cancel_iff]
    cases hmoves with
    | same => rfl
    | set ht hholds => exact tally_set_of_eq _ ht (by rw [hholds])
    | spawn hcall => simp [Thread.holds, hcall]
  · rw [hclaimed]
    exact h.valid
  · exact fun x hx => (h.opened x hx).congr hsame
  · intro hfree
    exact (h.free (hclaimed ▸ hfree)).congr hsame
  · intro fd hfd
    obtain ⟨harmed, hx⟩ := h.waits fd (hwaiters ▸ hfd)
    exact ⟨by rw [hsame.own]; exact harmed.congr hsame, hx⟩
  · intro th' hmem pc hcall
    rw [hthreads] at hmem
    cases hmoves with
    | same => exact (h.held th' hmem pc hcall).congr hsame
    | set ht _ hcalls =>
      rcases mem_set_cases ht hmem with rfl | ⟨j, -, hj⟩
      · rcases hcalls pc hcall with hcall | rfl
        · exact (h.held _ (List.mem_of_getElem? ht) pc hcall).congr hsame
        · exact trivial
      · exact (h.held th' (List.mem_of_getElem? hj) pc hcall).congr hsame
    | spawn hnone =>
      rcases List.mem_append.mp hmem with hmem | hmem
      · exact (h.held th' hmem pc hcall).congr hsame
      · obtain rfl := List.mem_singleton.mp hmem
        exact absurd (hnone.symm.trans hcall) nofun
  · intro th' hmem
    rw [hthreads] at hmem
    cases hmoves with
    | same => exact h.frames th' hmem
    | set ht _ _ hframed =>
      rcases mem_set_cases ht hmem with rfl | ⟨j, -, hj⟩
      · exact hframed
      · exact h.frames th' (List.mem_of_getElem? hj)
    | spawn _ hframe =>
      rcases List.mem_append.mp hmem with hmem | hmem
      · exact h.frames th' hmem
      · obtain rfl := List.mem_singleton.mp hmem
        intro f hf
        exact absurd (hframe.symm.trans hf) nofun

/-- The thread that was replaced. -/
theorem eq_of_set {l l' : List Thread} {t : Nat} {th a b : Thread} (ht : l[t]? = some th)
    (h : l.set t a = l'.set t b) : a = b := by
  have ha : (l.set t a)[t]? = some a := by rw [getElem?_set_of_some ht, if_pos rfl]
  rw [h, List.getElem?_set] at ha
  simp only [if_true] at ha
  split at ha <;> cases ha
  rfl

theorem Advanced.eq {s s₁ : State} {t : Nat} {th th' th₁ : Thread} (ht : s.threads[t]? = some th)
    (h : Advanced s (s₁.setThread t th₁) t th th') : th' = th₁ := by
  rcases h.threads with ⟨hthreads, -⟩ | ⟨hs, -⟩
  · exact eq_of_set ht hthreads.symm
  · have ht' : (s.threads.map Thread.discard)[t]? = some th.discard := by
      rw [List.getElem?_map, ht]
      rfl
    exact eq_of_set ht' (congrArg State.threads hs).symm

/-- The call that has the claim goes on. -/
theorem Phase.goto {c : Config} {s s₁ : State} {e e' : Option Ends} {t : Nat} {th th₁ : Thread}
    {pc pc' : Pc} {answer : Answer} (h : Phase c s e) (ht : s.threads[t]? = some th)
    (hcall : th.call = some pc) (hpc : pc.holds = true)
    (hs : Handler.advance c s t th pc answer = some (s₁.goto t th₁ pc'))
    (hclaimed : s₁.claimed = s.claimed) (hwaiters : s₁.waiters = s.waiters)
    (hpc' : pc'.holds = true) (hends : ∀ x, e = some x → e' = some x)
    (hopened : ∀ x, e' = some x → Opened s₁ x) (hheld : Held s₁ e' pc') :
    Phase c (s₁.goto t th₁ pc') e' := by
  obtain ⟨th', hadv⟩ := advanced hcall hs
  obtain rfl := hadv.eq ht
  obtain ⟨hclaimed₀, hwaiters₀, -⟩ := h.alone ht hcall hpc
  have hholds : Thread.holds { th₁ with call := some pc' } = true := hpc'
  have hnone : s₁.waiters = [] := hwaiters.trans hwaiters₀
  refine h.advance ht hcall hpc hadv ?_ hends ?_ ?_ ?_ ?_
  · rw [hholds]
    show s₁.claimed.toNat = 1 + s₁.waiters.length
    rw [hclaimed, hclaimed₀, hnone]
    rfl
  · exact fun x hx => (hopened x hx).congr (.setThread s₁ e' t _)
  · intro hfree
    exact absurd ((hclaimed.trans hclaimed₀).symm.trans hfree) nofun
  · intro fd hfd
    have hfd : fd ∈ s₁.waiters := hfd
    rw [hnone] at hfd
    cases hfd
  · rintro pc'' ⟨⟩
    exact hheld.congr (.setThread s₁ e' t _)

/-- A call takes the claim. -/
theorem Phase.acquire {c : Config} {s : State} {e : Option Ends} {t : Nat} {th : Thread}
    (h : Phase c s e) (ht : s.threads[t]? = some th) (hcall : th.call = some .acquire)
    (hvalid : Handler.valid c.sig = true) (hclaimed : s.claimed = false) :
    Phase c ({ s with claimed := true }.goto t th .ensurePipe) e := by
  have hrest := h.free hclaimed
  obtain ⟨hwaiters, hnobody⟩ := h.nobody hclaimed
  have hzero : tally (fun th => th.holds.toNat) s.threads = 0 :=
    tally_eq_zero fun th hth => by rw [hnobody th hth]; rfl
  refine ⟨?_, fun _ => hvalid,
    fun x hx => ⟨(h.opened x hx).read, (h.opened x hx).reads, (h.opened x hx).writes⟩, nofun,
    ?_, ?_, forall_set h.frames (h.frames th (List.mem_of_getElem? ht))⟩
  · have hset := tally_set (fun th : Thread => th.holds.toNat) ht
      { th with call := some .ensurePipe }
    have hold : th.holds = false := by simp [Thread.holds, hcall, Pc.holds]
    have hnew : Thread.holds { th with call := some .ensurePipe } = true := rfl
    rw [hold, hnew, Bool.toNat_false, Bool.toNat_true, hzero] at hset
    show tally _ (s.threads.set t _) + s.waiters.length = 1
    rw [hwaiters]
    exact hset
  · intro fd hfd
    have hfd : fd ∈ s.waiters := hfd
    rw [hwaiters] at hfd
    cases hfd
  · intro th' hmem pc' hcall'
    rcases mem_set_cases ht hmem with rfl | ⟨j, -, hj⟩
    · cases hcall'
      exact Rest.mk hrest.disposition hrest.saved hrest.write
    · cases call_of_not_holds (hnobody th' (List.mem_of_getElem? hj)) hcall'
      exact trivial

/-- A waiter is made, and has the claim from then on. -/
theorem Phase.register {c : Config} {s : State} {e : Option Ends} {t r : Nat} {th : Thread}
    (h : Phase c s e) (ht : s.threads[t]? = some th) (hcall : th.call = some (.register r)) :
    Phase c ({ s with waiters := s.waiters ++ [r] }.leave t th (some (.ok r))) e := by
  obtain ⟨harmed, hread⟩ := h.held th (List.mem_of_getElem? ht) _ hcall
  have hs : Handler.advance c s t th (.register r) .ok =
      some ({ s with waiters := s.waiters ++ [r] }.leave t th (some (.ok r))) := rfl
  obtain ⟨th', hadv⟩ := Handler.advanced hcall hs
  obtain rfl := hadv.eq ht
  obtain ⟨hclaimed, hwaiters, -⟩ := h.alone ht hcall rfl
  refine h.advance ht hcall rfl hadv ?_ (fun _ => id) ?_ ?_ ?_ nofun
  · show s.claimed.toNat = 0 + (s.waiters ++ [r]).length
    rw [hclaimed, hwaiters]
    rfl
  · exact fun y hy => ⟨(h.opened y hy).read, (h.opened y hy).reads, (h.opened y hy).writes⟩
  · exact fun hfree => absurd (hclaimed.symm.trans hfree) nofun
  · intro fd hfd
    have hfd : fd ∈ s.waiters ++ [r] := hfd
    rw [hwaiters, List.nil_append, List.mem_singleton] at hfd
    exact ⟨⟨harmed.disposition, harmed.saved, harmed.write⟩, hfd ▸ hread⟩

/-- The claim is released. -/
theorem Phase.release {c : Config} {s : State} {e : Option Ends} {t : Nat} {th : Thread}
    {error : Option Int} (h : Phase c s e) (ht : s.threads[t]? = some th)
    (hcall : th.call = some (.release error)) :
    Phase c ({ s with claimed := false }.leave t th (error.map .error)) e := by
  have hrest := h.held th (List.mem_of_getElem? ht) _ hcall
  have hs : Handler.advance c s t th (.release error) .ok =
      some ({ s with claimed := false }.leave t th (error.map .error)) := rfl
  obtain ⟨th', hadv⟩ := Handler.advanced hcall hs
  obtain rfl := hadv.eq ht
  obtain ⟨hclaimed, hwaiters, -⟩ := h.alone ht hcall rfl
  refine h.advance ht hcall rfl hadv ?_ (fun _ => id) ?_ ?_ ?_ nofun
  · show 0 = 0 + s.waiters.length
    rw [hwaiters]
    rfl
  · exact fun y hy => ⟨(h.opened y hy).read, (h.opened y hy).reads, (h.opened y hy).writes⟩
  · exact fun _ => ⟨hrest.disposition, hrest.saved, hrest.write⟩
  · intro fd hfd
    have hfd : fd ∈ s.waiters := hfd
    rw [hwaiters] at hfd
    cases hfd

/-- A call takes a step, which may publish the ends. -/
theorem Phase.advanced {c : Config} {s s' : State} {e : Option Ends} {t : Nat} {th : Thread}
    {pc : Pc} {answer : Answer} (h : Phase c s e) (ht : s.threads[t]? = some th)
    (hcall : th.call = some pc) (hs : Handler.advance c s t th pc answer = some s') :
    ∃ e', Phase c s' e' ∧ inPipe s' e' = inPipe s e := by
  have hheld := h.held th (List.mem_of_getElem? ht) pc hcall
  -- A step that keeps the published ends.
  have hkeep : ∀ {s₁ : State} {th₁ : Thread} {pc' : Pc}, pc.holds = true → pc'.holds = true →
      Handler.advance c s t th pc answer = some (s₁.goto t th₁ pc') → s₁.claimed = s.claimed →
      s₁.waiters = s.waiters → inPipe s₁ e = inPipe s e →
      (∀ x, e = some x → Opened s x → Opened s₁ x) → Held s₁ e pc' →
      ∃ e', Phase c (s₁.goto t th₁ pc') e' ∧ inPipe (s₁.goto t th₁ pc') e' = inPipe s e := by
    intro s₁ th₁ pc' hpc hpc' hs hclaimed hwaiters hpipe hopened hheld'
    exact ⟨e, h.goto ht hcall hpc hs hclaimed hwaiters hpc' (fun _ => id)
      (fun x hx => hopened x hx (h.opened x hx)) hheld', hpipe⟩
  cases pc with
  | ensurePipe =>
    cases answer <;> simp only [Handler.advance, reduceCtorEq] at hs
    split at hs <;> rename_i hwrite <;> cases hs
    · -- An earlier call has made the pipe, and its end is published again.
      refine hkeep rfl rfl (by simp only [Handler.advance]; rw [hwrite]) rfl rfl rfl
        (fun _ _ => id) ?_
      exact ⟨hheld, .inl ((Rest.view hheld).write _ hwrite)⟩
    · refine hkeep rfl rfl (by simp only [Handler.advance]; rw [hwrite]) rfl rfl rfl
        (fun _ _ => id) ?_
      refine ⟨hheld, ?_⟩
      have := hheld.write
      rw [hwrite] at this
      simpa using this.symm
  | pipe =>
    cases answer <;> simp only [Handler.advance, reduceCtorEq] at hs
    · cases hs
      exact hkeep rfl rfl (by simp only [Handler.advance]) rfl rfl rfl (fun _ _ => id) hheld.1
    · rename_i r w
      split at hs <;> rename_i hfresh <;> cases hs
      obtain ⟨hr, hw, hne⟩ := hfresh
      obtain ⟨hrest, rfl⟩ := hheld
      -- The kernel hands out numbers that nobody has.
      refine hkeep rfl rfl (by simp only [Handler.advance]; rw [if_pos ⟨hr, hw, hne⟩]) rfl rfl rfl
        nofun ?_
      refine ⟨⟨hrest.disposition, hrest.saved, hrest.write⟩, rfl, s.made, ?_, ?_, ?_⟩
      · simp [State.setFile, hne]
      · simp [State.setFile]
      · simp [State.setFile, State.setPipe]
  | setFlags r w =>
    cases answer <;> cases hs <;>
      exact hkeep rfl rfl rfl rfl rfl rfl (fun _ _ => id) hheld
  | close r w error =>
    cases answer <;> cases hs
    obtain ⟨hrest, rfl, -⟩ := hheld
    exact hkeep rfl rfl rfl rfl rfl rfl nofun ⟨hrest.disposition, hrest.saved, hrest.write⟩
  | storeRead r w =>
    cases answer <;> cases hs
    obtain ⟨hrest, rfl, hmade⟩ := hheld
    exact hkeep rfl rfl rfl rfl rfl rfl nofun
      ⟨⟨hrest.disposition, hrest.saved, hrest.write⟩, .inr ⟨rfl, r, rfl, hmade⟩⟩
  | publish w =>
    have hgoto := hs
    cases answer <;> cases hs
    obtain ⟨hrest, ⟨x, rfl, rfl⟩ | ⟨rfl, r, hr, p, hread, hwrite, hbytes⟩⟩ := hheld
    · refine hkeep rfl rfl rfl rfl rfl rfl (fun x _ h => ⟨h.read, h.reads, h.writes⟩) ?_
      exact ⟨⟨hrest.disposition, hrest.saved, rfl⟩, x, rfl⟩
    · -- From here on a handler may find the end of this pipe.
      refine ⟨some ⟨r, w, p⟩, h.goto ht hcall rfl hgoto rfl rfl rfl nofun ?_ ?_, hbytes⟩
      · rintro x ⟨⟩
        exact ⟨hr, hread, hwrite⟩
      · exact ⟨⟨hrest.disposition, hrest.saved, rfl⟩, _, rfl⟩
  | loadRead =>
    obtain ⟨hrest, x, rfl⟩ := hheld
    have hread := (h.opened x rfl).read
    cases answer <;> simp only [Handler.advance, reduceCtorEq] at hs
    rw [hread] at hs
    cases hs
    exact hkeep rfl rfl (by simp only [Handler.advance, hread]) rfl rfl rfl (fun _ _ => id)
      ⟨hrest, x, rfl, rfl⟩
  | sigaction r =>
    obtain ⟨hrest, x, rfl, rfl⟩ := hheld
    cases answer <;> cases hs
    · refine hkeep rfl rfl rfl rfl rfl rfl (fun x _ h => ⟨h.read, h.reads, h.writes⟩) ?_
      exact ⟨⟨rfl, hrest.saved, x, rfl, hrest.write⟩, hrest.disposition, x, rfl, rfl⟩
    · exact hkeep rfl rfl rfl rfl rfl rfl (fun _ _ => id) hrest
  | save r previous =>
    obtain ⟨harmed, rfl, x, rfl, rfl⟩ := hheld
    cases answer <;> cases hs
    refine hkeep rfl rfl rfl rfl rfl rfl (fun x _ h => ⟨h.read, h.reads, h.writes⟩) ?_
    exact ⟨⟨harmed.disposition, rfl, harmed.write⟩, x, rfl, rfl⟩
  | take error =>
    have hsaved := Armed.saved hheld
    cases answer <;> simp only [Handler.advance, reduceCtorEq] at hs
    rw [hsaved] at hs
    cases hs
    refine hkeep rfl rfl (by simp only [Handler.advance, hsaved]) rfl rfl rfl
      (fun x _ h => ⟨h.read, h.reads, h.writes⟩) ?_
    exact ⟨⟨hheld.disposition, rfl, hheld.write⟩, rfl⟩
  | block error saved =>
    cases answer <;> cases hs <;> exact hkeep rfl rfl rfl rfl rfl rfl (fun _ _ => id) hheld
  | swap d =>
    obtain ⟨harmed, hown⟩ := hheld
    cases answer <;> cases hs
    refine hkeep rfl rfl rfl rfl rfl rfl (fun x _ h => ⟨h.read, h.reads, h.writes⟩) ?_
    exact ⟨harmed.disposition, harmed.saved, hown, rfl, harmed.write⟩
  | ignore d =>
    obtain ⟨-, hswapped⟩ := hheld
    cases answer <;> cases hs
    -- The discard takes what is pending, and leaves the ends where they are.
    have hswapped' : s.discard.disposition = .ignore ∧ Swapped s.discard e d :=
      ⟨rfl, hswapped.saved, hswapped.own, hswapped.write, hswapped.ends⟩
    refine hkeep rfl ?_ rfl rfl rfl rfl (fun x _ h => ⟨h.read, h.reads, h.writes⟩) ?_ <;>
      split <;> first | rfl | exact hswapped'
  | unblock d | reblock d =>
    cases answer <;> cases hs
    exact hkeep rfl rfl rfl rfl rfl rfl (fun _ _ => id) hheld
  | restore d =>
    obtain ⟨-, hswapped⟩ := hheld
    cases answer <;> cases hs
    refine hkeep rfl rfl rfl rfl rfl rfl (fun x _ h => ⟨h.read, h.reads, h.writes⟩) ?_
    exact ⟨hswapped.own, hswapped.saved, hswapped.own, hswapped.write, hswapped.ends⟩
  | republish d =>
    obtain ⟨hown, hswapped⟩ := hheld
    obtain ⟨x, rfl, hwrite⟩ := hswapped.ends
    cases answer <;> simp only [Handler.advance, reduceCtorEq] at hs
    rw [hwrite] at hs
    cases hs
    refine hkeep rfl rfl (by simp only [Handler.advance, hwrite]) rfl rfl rfl
      (fun x _ h => ⟨h.read, h.reads, h.writes⟩) ?_
    exact ⟨hown, hswapped.saved, rfl⟩
  | restoreMask d =>
    cases answer <;> simp only [Handler.advance, reduceCtorEq] at hs
    split at hs <;> rename_i hd <;> cases hs
    · exact hkeep rfl rfl (by simp only [Handler.advance, hd, if_true]) rfl rfl rfl (fun _ _ => id)
        hheld
    · exact hkeep rfl rfl (by simp only [Handler.advance, hd]; rfl) rfl rfl rfl (fun _ _ => id)
        hheld
  | acquire =>
    cases answer <;> simp only [Handler.advance, reduceCtorEq] at hs
    have hleave : ∀ returned, Phase c (s.leave t th returned) e := fun returned =>
      h.beside (.setThread s e t _) rfl rfl
        (.set ht (by simp [Thread.holds, hcall, Pc.holds]) nofun
          (h.frames th (List.mem_of_getElem? ht)))
    split at hs
    · cases hs
      exact ⟨e, hleave _, rfl⟩
    · rename_i hvalid
      split at hs <;> rename_i hclaimed <;> cases hs
      · exact ⟨e, hleave _, rfl⟩
      · exact ⟨e, h.acquire ht hcall (by simpa using hvalid) (Bool.not_eq_true _ ▸ hclaimed), rfl⟩
  | register r =>
    cases answer <;> cases hs
    · exact ⟨e, h.register ht hcall, rfl⟩
    · exact hkeep rfl rfl rfl rfl rfl rfl (fun _ _ => id) hheld.1
  | release error =>
    cases answer <;> cases hs
    exact ⟨e, h.release ht hcall, rfl⟩

/-! ### What became of every signal -/

/-- Every signal that the handler took. -/
structure Accounts (c : Config) (s : State) (e : Option Ends) : Prop where
  count : s.handled = s.received.length + (inPipe s e).length +
    tally (fun th => th.writing.toNat) s.threads + s.gaveUp + s.full
  bytes : ∀ b ∈ inPipe s e, b = byte c.sig
  received : ∀ kind ∈ s.received, kind = c.sig
  stray : s.stray = 0

/-- A step that neither takes, writes nor reads. -/
theorem Accounts.congr {c : Config} {s s' : State} {e e' : Option Ends} (h : Accounts c s e)
    (hsame : s'.handled = s.handled ∧ s'.received = s.received ∧ s'.gaveUp = s.gaveUp ∧
      s'.full = s.full ∧ s'.stray = s.stray) (hpipe : inPipe s' e' = inPipe s e)
    (hwriting : tally (fun th => th.writing.toNat) s'.threads =
      tally (fun th => th.writing.toNat) s.threads) : Accounts c s' e' := by
  obtain ⟨hhandled, hreceived, hgave, hfull, hstray⟩ := hsame
  refine ⟨?_, by rw [hpipe]; exact h.bytes, by rw [hreceived]; exact h.received,
    by rw [hstray, h.stray]⟩
  rw [hhandled, hreceived, hgave, hfull, hpipe, hwriting]
  exact h.count

theorem writing_eq {th th' : Thread} (h : th'.frame = th.frame) : th'.writing = th.writing := by
  rw [Thread.writing, Thread.writing, h]

theorem valid_range {sig : Int} (h : valid sig = true) : 1 ≤ sig ∧ sig < 32 := by
  simp only [valid, decide_eq_true_eq] at h
  exact ⟨h.1, h.2.1⟩

theorem toNat_byte {sig : Int} (h : valid sig = true) : ((byte sig).toNat : Int) = sig := by
  have hrange := valid_range h
  simp only [byte, UInt8.toNat_ofNat']
  omega

/-- A call takes a step. -/
theorem Accounts.advanced {c : Config} {s s' : State} {e e' : Option Ends} {t : Nat}
    {th th' : Thread} (h : Accounts c s e) (ht : s.threads[t]? = some th)
    (hadv : Advanced s s' t th th') (hpipe : inPipe s' e' = inPipe s e) : Accounts c s' e' := by
  obtain ⟨hgave, hfull, hstray⟩ := hadv.lost
  refine h.congr ⟨hadv.handled, hadv.received, hgave, hfull, hstray⟩ hpipe ?_
  rcases hadv.threads with ⟨hthreads, -⟩ | ⟨rfl, -⟩
  · rw [hthreads]
    exact tally_set_of_eq _ ht (by rw [writing_eq hadv.frame])
  · have ht' : (s.threads.map Thread.discard)[t]? = some th.discard := by
      rw [List.getElem?_map, ht]
      rfl
    have hwriting : th'.writing = th.discard.writing := writing_eq hadv.frame
    refine (tally_set_of_eq _ ht' (by rw [hwriting])).trans ?_
    rw [tally, tally, List.map_map]
    rfl

/-- The handler takes a step, on a pipe that is open. -/
theorem writeSignal_step {c : Config} {s : State} {e : Option Ends} {t : Nat} {th : Thread}
    {f : Frame} (h : Phase c s e) (ha : Accounts c s e) (ht : s.threads[t]? = some th)
    (hframe : th.frame = some f) :
    (Phase c (writeSignal c s t th f) e ∧ Accounts c (writeSignal c s t th f) e) ∧
      ((writeSignal c s t th f).gaveUp ≠ s.gaveUp → s.write = none ∧ e.isSome) ∧
      ((writeSignal c s t th f).full ≠ s.full → c.capacity ≤ (inPipe s e).length) := by
  obtain ⟨x, rfl, hfd⟩ := h.frames th (List.mem_of_getElem? ht) f hframe
  have hrange := valid_range (h.valid (.inr rfl))
  have hcount := ha.count
  have hold : th.writing = match f.pc with | .leave => false | _ => true := by
    rw [Thread.writing, hframe]
    obtain ⟨errno, pc⟩ := f
    cases pc <;> rfl
  -- The thread weighs one while its invocation has not decided, and nothing afterwards.
  have hleft : f.pc ≠ .leave → ∀ errno, tally (fun th => th.writing.toNat)
      (s.threads.set t { th with errno, frame := some { f with pc := .leave } }) + 1 =
      tally (fun th => th.writing.toNat) s.threads := by
    intro hpc errno
    have hset := tally_set (fun th : Thread => th.writing.toNat) ht
      { th with errno, frame := some { f with pc := .leave } }
    have hone : th.writing = true := by
      rw [hold]
      obtain ⟨errno, pc⟩ := f
      cases pc with
      | leave => exact absurd rfl hpc
      | load | write => rfl
    rw [hone] at hset
    exact hset
  have hframed : ∀ errno,
      Framed (some x) { th with errno, frame := some { f with pc := .leave } } := by
    rintro errno f' ⟨⟩
    exact ⟨x, rfl, nofun⟩
  obtain ⟨errno, pc⟩ := f
  cases pc with
  | load =>
    simp only [writeSignal, if_pos hrange]
    -- The handler finds the write end, or a disarm has taken it away.
    split
    · rename_i fd hwrite
      refine ⟨⟨h.beside (.setThread s _ t _) rfl rfl (.keep ht rfl ?_), ?_⟩, ?_, ?_⟩
      · rintro f' ⟨⟩
        obtain ⟨y, hy, rfl⟩ := h.view.write fd hwrite
        cases hy
        exact ⟨x, rfl, fun fd' hfd' => by cases hfd'; rfl⟩
      · exact ha.congr ⟨rfl, rfl, rfl, rfl, rfl⟩ rfl (tally_set_of_eq _ ht (by rw [hold]; rfl))
      · exact fun hne => absurd rfl hne
      · exact fun hne => absurd rfl hne
    · rename_i hwrite
      refine ⟨⟨h.beside ⟨rfl, rfl, rfl, rfl, rfl, fun _ _ => id, fun _ _ => id, fun _ => rfl⟩ rfl
        rfl (.keep ht rfl (hframed _)), ?_, ha.bytes, ha.received, ha.stray⟩,
        fun _ => ⟨hwrite, rfl⟩, fun hne => absurd rfl hne⟩
      have hset := hleft nofun th.errno
      dsimp only at hset
      show s.handled = s.received.length + (inPipe s (some x)).length +
        tally _ (s.threads.set t _) + (s.gaveUp + 1) + s.full
      omega
  | write fd =>
    obtain rfl := hfd fd rfl
    simp only [writeSignal, (h.opened x rfl).writes]
    -- The pipe has room for the byte, or the write fails and the signal is lost.
    split
    · have hset := hleft nofun th.errno
      dsimp only at hset
      refine ⟨⟨h.beside ⟨rfl, rfl, rfl, rfl, rfl, fun _ _ => id, fun _ _ => id, nofun⟩ rfl rfl
        (.keep ht rfl (hframed _)), ?_, ?_, ha.received, ha.stray⟩, fun hne => absurd rfl hne,
        fun hne => absurd rfl hne⟩
      · have hlen : (inPipe ((s.setPipe x.pipe (s.pipes x.pipe ++ [byte c.sig])).setThread t
            { th with frame := some ⟨errno, .leave⟩ }) (some x)).length =
            (inPipe s (some x)).length + 1 := by
          simp [inPipe, State.setThread, State.setPipe]
        rw [hlen]
        show s.handled = s.received.length + _ + tally _ (s.threads.set t _) + s.gaveUp + s.full
        omega
      · intro b hb
        simp only [inPipe, State.setThread, State.setPipe, Option.elim_some,
          Function.update_self, List.mem_append, List.mem_singleton] at hb
        exact hb.elim (ha.bytes b) id
    · rename_i hfull
      have hset := hleft nofun eagain
      dsimp only at hset
      refine ⟨⟨h.beside ⟨rfl, rfl, rfl, rfl, rfl, fun _ _ => id, fun _ _ => id, fun _ => rfl⟩ rfl
        rfl (.keep ht rfl (hframed _)), ?_, ha.bytes, ha.received, ha.stray⟩,
        fun hne => absurd rfl hne, fun _ => Nat.le_of_not_lt hfull⟩
      show s.handled = s.received.length + (inPipe s (some x)).length +
        tally _ (s.threads.set t _) + s.gaveUp + (s.full + 1)
      omega
  | leave =>
    refine ⟨⟨h.beside (.setThread s _ t _) rfl rfl (.keep ht rfl nofun), ?_⟩,
      fun hne => absurd rfl hne, fun hne => absurd rfl hne⟩
    exact ha.congr ⟨rfl, rfl, rfl, rfl, rfl⟩ rfl (tally_set_of_eq _ ht (by rw [hold]; rfl))

/-- A thread takes the signal. -/
theorem dispatch_step {c : Config} {s : State} {e : Option Ends} {t : Nat} {th : Thread}
    {record : Bool} (h : Phase c s e) (ha : Accounts c s e)
    (ht : ∃ th₀, s.threads[t]? = some th₀ ∧ th₀.call = th.call ∧ th₀.frame = th.frame)
    (hframe : th.frame = none) :
    Phase c (dispatch s t th record) e ∧ Accounts c (dispatch s t th record) e := by
  obtain ⟨th₀, ht, hcall, hframe₀⟩ := ht
  rw [hframe] at hframe₀
  have hidle : th₀.writing = false := by rw [Thread.writing, hframe₀]
  have hplain : Framed e th := fun f hf => absurd (hframe.symm.trans hf) nofun
  have hquiet : tally (fun th => th.writing.toNat) (s.threads.set t th) =
      tally (fun th => th.writing.toNat) s.threads :=
    tally_set_of_eq _ ht (by rw [writing_eq (hframe.trans hframe₀.symm)])
  simp only [dispatch]
  split
  · exact ⟨h.beside ⟨rfl, rfl, rfl, rfl, rfl, fun _ _ => id, fun _ _ => id, fun _ => rfl⟩ rfl rfl
      (.keep ht hcall.symm hplain), ha.congr ⟨rfl, rfl, rfl, rfl, rfl⟩ rfl hquiet⟩
  · rename_i hd
    refine ⟨h.beside ⟨rfl, rfl, rfl, rfl, rfl, fun _ _ => id, fun _ _ => id, fun _ => rfl⟩ rfl rfl
      (.keep ht hcall.symm ?_), ?_, ha.bytes, ha.received, ha.stray⟩
    · rintro f ⟨⟩
      obtain ⟨x, hx⟩ := h.view.handler hd
      exact ⟨x, hx, nofun⟩
    · have hcount := ha.count
      have hset := tally_set (fun th : Thread => th.writing.toNat) ht
        { th with frame := some ⟨th.errno, .load⟩ }
      rw [hidle, show Thread.writing { th with frame := some ⟨th.errno, .load⟩ } = true from rfl]
        at hset
      simp only [Bool.toNat_true, Bool.toNat_false] at hset
      show s.handled + 1 = s.received.length + (inPipe s e).length + tally _ (s.threads.set t _) +
        s.gaveUp + s.full
      omega
  · exact ⟨h.beside (.setThread s e t th) rfl rfl (.keep ht hcall.symm hplain),
      ha.congr ⟨rfl, rfl, rfl, rfl, rfl⟩ rfl hquiet⟩

theorem lost_dispatch (s : State) (t : Nat) (th : Thread) (record : Bool) :
    (dispatch s t th record).gaveUp = s.gaveUp ∧ (dispatch s t th record).full = s.full := by
  simp only [dispatch]
  split <;> exact ⟨rfl, rfl⟩

/-- A waiter reads the first byte of its pipe. -/
theorem recv_step {c : Config} {s s' : State} {e : Option Ends} {i : Nat} (h : Phase c s e)
    (ha : Accounts c s e) (hs : recv s i = some s') :
    Phase c s' e ∧ Accounts c s' e ∧ s'.gaveUp = s.gaveUp ∧ s'.full = s.full := by
  simp only [recv, Option.bind_eq_bind, Option.bind_eq_some_iff] at hs
  obtain ⟨fd, hi, hs⟩ := hs
  obtain ⟨-, x, rfl, rfl⟩ := h.waits fd (List.mem_of_getElem? hi)
  simp only [(h.opened x rfl).reads] at hs
  split at hs <;> rename_i hpipe <;> cases hs
  rename_i b rest
  have hcount := ha.count
  have hbefore : inPipe s (some x) = b :: rest := hpipe
  rw [hbefore] at hcount
  refine ⟨h.beside ⟨rfl, rfl, rfl, rfl, rfl, fun _ _ => id, fun _ _ => id, nofun⟩ rfl rfl .same,
    ⟨?_, ?_, ?_, ha.stray⟩, rfl, rfl⟩
  · have hafter : inPipe (s.setPipe x.pipe rest) (some x) = rest := by
      simp [inPipe, State.setPipe]
    show s.handled = (s.received ++ [(b.toNat : Int)]).length +
      (inPipe (s.setPipe x.pipe rest) (some x)).length + tally _ s.threads + s.gaveUp + s.full
    rw [hafter, List.length_append, List.length_singleton]
    rw [List.length_cons] at hcount
    omega
  · intro b' hb'
    have hb' : b' ∈ rest := by simpa [inPipe, State.setPipe] using hb'
    exact ha.bytes b' (by rw [hbefore]; exact List.mem_cons_of_mem b hb')
  · intro kind hkind
    rcases List.mem_append.mp hkind with hkind | hkind
    · exact ha.received kind hkind
    · obtain rfl := List.mem_singleton.mp hkind
      rw [ha.bytes b (by rw [hbefore]; exact List.mem_cons_self), toNat_byte (h.valid (.inr rfl))]

/-- A waiter is dropped, and the call that drops it has the claim from then on. -/
theorem Phase.drop {c : Config} {s : State} {e : Option Ends} {t i fd : Nat} {th : Thread}
    (h : Phase c s e) (ht : s.threads[t]? = some th) (hcall : th.call = none)
    (hi : s.waiters[i]? = some fd) :
    Phase c ({ s with waiters := s.waiters.eraseIdx i }.goto t th (.take none)) e := by
  obtain ⟨harmed, -⟩ := h.waits fd (List.mem_of_getElem? hi)
  -- The waiter has the claim, so it is the only one.
  have hclaim := h.claim
  have hbound := Bool.toNat_le s.claimed
  have hi := (List.getElem?_eq_some_iff.mp hi).1
  have hlen : (s.waiters.eraseIdx i).length = 0 := by
    rw [List.length_eraseIdx_of_lt hi]
    omega
  have hnone := List.length_eq_zero_iff.mp hlen
  have hclaimed : s.claimed = true := by
    cases hc : s.claimed with
    | true => rfl
    | false =>
      rw [hc, Bool.toNat_false] at hclaim
      omega
  rw [hclaimed, Bool.toNat_true] at hclaim
  refine ⟨?_, h.valid,
    fun x hx => ⟨(h.opened x hx).read, (h.opened x hx).reads, (h.opened x hx).writes⟩,
    fun hfree => absurd (hclaimed.symm.trans hfree) nofun, ?_, ?_,
    forall_set h.frames (h.frames th (List.mem_of_getElem? ht))⟩
  · have hset := tally_set (fun th : Thread => th.holds.toNat) ht
      { th with call := some (.take none) }
    have hold : th.holds = false := by rw [Thread.holds, hcall]; rfl
    have hnew : Thread.holds { th with call := some (.take none) } = true := rfl
    rw [hold, hnew, Bool.toNat_false, Bool.toNat_true] at hset
    show tally _ (s.threads.set t _) + (s.waiters.eraseIdx i).length = s.claimed.toNat
    rw [hlen, hclaimed, Bool.toNat_true]
    omega
  · intro fd' hfd'
    have hfd' : fd' ∈ s.waiters.eraseIdx i := hfd'
    rw [hnone] at hfd'
    cases hfd'
  · intro th' hmem pc hcall'
    rcases mem_set_cases ht hmem with rfl | ⟨j, -, hj⟩
    · cases hcall'
      exact Armed.mk harmed.disposition harmed.saved harmed.write
    · exact (h.held th' (List.mem_of_getElem? hj) pc hcall').congr
        ⟨rfl, rfl, rfl, rfl, rfl, fun _ _ => id, fun _ _ => id, fun _ => rfl⟩

/-- The program sets its own action. -/
theorem Phase.setAction {c : Config} {s : State} {e : Option Ends} (h : Phase c s e)
    (hclaimed : s.claimed = false) (action : Nat) :
    Phase c { s with disposition := .program action, own := action } e := by
  have hrest := h.free hclaimed
  obtain ⟨hwaiters, hnobody⟩ := h.nobody hclaimed
  refine ⟨h.claim, h.valid,
    fun x hx => ⟨(h.opened x hx).read, (h.opened x hx).reads, (h.opened x hx).writes⟩,
    fun _ => ⟨rfl, hrest.saved, hrest.write⟩, ?_, ?_, h.frames⟩
  · intro fd hfd
    have hfd : fd ∈ s.waiters := hfd
    rw [hwaiters] at hfd
    cases hfd
  · intro th hth pc hcall
    cases call_of_not_holds (hnobody th hth) hcall
    exact trivial

/-- The invariant of the claim and of the accounts. -/
def Inv (c : Config) (s : State) : Prop := ∃ e, Phase c s e ∧ Accounts c s e

/-- Nothing has been claimed or handled at first. -/
theorem inv_new {c : Config} {s : State} (hs : (system c).init s) : Inv c s := by
  obtain ⟨action, files, threads, -, hthreads, rfl⟩ := hs
  have hnew : ∀ th ∈ threads, th.call = none ∧ th.frame = none := by
    intro th hth
    obtain ⟨blocked, errno, rfl⟩ := hthreads th hth
    exact ⟨rfl, rfl⟩
  refine ⟨none, ⟨?_, nofun, nofun, fun _ => ⟨rfl, rfl, rfl⟩, nofun, ?_, ?_⟩, ?_, nofun, nofun, rfl⟩
  · show tally _ threads + 0 = 0
    rw [tally_eq_zero]
    intro th hth
    rw [Thread.holds, (hnew th hth).1]
    rfl
  · intro th hth pc hcall
    exact absurd ((hnew th hth).1.symm.trans hcall) nofun
  · intro th hth f hf
    exact absurd ((hnew th hth).2.symm.trans hf) nofun
  · show 0 = 0 + 0 + tally _ threads + 0 + 0
    rw [tally_eq_zero]
    intro th hth
    rw [Thread.writing, (hnew th hth).2]
    rfl

/-- What the last part of the accounts says of one step. -/
structure Losses (c : Config) (s s' : State) : Prop where
  gaveUp : s'.gaveUp ≠ s.gaveUp → ∃ th ∈ s.threads, ∃ pc, th.call = some pc ∧ pc.swapped = true
  full : s'.full ≠ s.full →
    ∃ r p, s.read = some r ∧ s.files r = .read p ∧ c.capacity ≤ (s.pipes p).length

theorem Losses.of_eq {c : Config} {s s' : State} (hgave : s'.gaveUp = s.gaveUp)
    (hfull : s'.full = s.full) : Losses c s s' :=
  ⟨fun h => absurd hgave h, fun h => absurd hfull h⟩

/-- A step that no call, no handler and no reader takes. -/
theorem inv_beside {c : Config} {s s' : State} {e : Option Ends} (h : Phase c s e)
    (ha : Accounts c s e) (hsame : Same s s' e) (hclaimed : s'.claimed = s.claimed)
    (hwaiters : s'.waiters = s.waiters) (hmoves : Moves s e s'.threads)
    (hcounts : s'.handled = s.handled ∧ s'.received = s.received ∧ s'.gaveUp = s.gaveUp ∧
      s'.full = s.full ∧ s'.stray = s.stray) (hpipes : s'.pipes = s.pipes)
    (hwriting : tally (fun th => th.writing.toNat) s'.threads =
      tally (fun th => th.writing.toNat) s.threads) : Inv c s' ∧ Losses c s s' := by
  refine ⟨⟨e, h.beside hsame hclaimed hwaiters hmoves, ha.congr hcounts ?_ hwriting⟩,
    .of_eq hcounts.2.2.1 hcounts.2.2.2.1⟩
  rw [inPipe, inPipe, hpipes]

/-- Every step keeps the claim in one hand, and accounts for the signals that are lost in it. -/
theorem inv_step {c : Config} {s s' : State} {act : Action} (h : Inv c s)
    (hs : step c s act = some s') : Inv c s' ∧ Losses c s s' := by
  obtain ⟨e, h, ha⟩ := h
  -- A thread is replaced by one with the same call and the same frame.
  have hset : ∀ {t : Nat} {th th' : Thread}, s.threads[t]? = some th → th'.call = th.call →
      th'.frame = th.frame → Inv c (s.setThread t th') ∧ Losses c s (s.setThread t th') := by
    intro t th th' ht hcall hframe
    refine inv_beside h ha (.setThread s e t th') rfl rfl (.keep ht hcall ?_)
      ⟨rfl, rfl, rfl, rfl, rfl⟩ rfl (tally_set_of_eq _ ht (by rw [writing_eq hframe]))
    intro f hf
    exact h.frames th (List.mem_of_getElem? ht) f (hframe ▸ hf)
  cases act with
  | new t =>
    simp only [step, Option.bind_eq_bind, Option.bind_eq_some_iff] at hs
    obtain ⟨th, hth, hs⟩ := hs
    obtain ⟨ht, -, hcall⟩ := mem_of_outside hth
    cases hs
    refine inv_beside h ha (.setThread s e t _) rfl rfl (.set ht ?_ ?_ ?_)
      ⟨rfl, rfl, rfl, rfl, rfl⟩ rfl (tally_set_of_eq _ ht rfl)
    · simp [Thread.holds, hcall, Pc.holds]
    · rintro pc ⟨⟩
      exact .inr rfl
    · exact h.frames th (List.mem_of_getElem? ht)
  | drop t i =>
    simp only [step, Option.bind_eq_bind, Option.bind_eq_some_iff] at hs
    obtain ⟨th, hth, fd, hi, hs⟩ := hs
    obtain ⟨ht, -, hcall⟩ := mem_of_outside hth
    cases hs
    exact ⟨⟨e, h.drop ht hcall hi, ha.congr ⟨rfl, rfl, rfl, rfl, rfl⟩ rfl
      (tally_set_of_eq _ ht rfl)⟩, .of_eq rfl rfl⟩
  | advance t answer =>
    simp only [step, Option.bind_eq_bind, Option.bind_eq_some_iff] at hs
    obtain ⟨th, hth, pc, hcall, hs⟩ := hs
    obtain ⟨ht, -⟩ := mem_of_running hth
    obtain ⟨th', hadv⟩ := advanced hcall hs
    obtain ⟨e', hphase, hpipe⟩ := h.advanced ht hcall hs
    obtain ⟨hgave, hfull, -⟩ := hadv.lost
    exact ⟨⟨e', hphase, ha.advanced ht hadv hpipe⟩, .of_eq hgave hfull⟩
  | handler t =>
    simp only [step, Option.bind_eq_bind, Option.bind_eq_some_iff] at hs
    obtain ⟨th, ht, f, hframe, hs⟩ := hs
    cases hs
    obtain ⟨hinv, hgave, hfull⟩ := writeSignal_step h ha ht hframe
    obtain ⟨x, rfl, -⟩ := h.frames th (List.mem_of_getElem? ht) f hframe
    refine ⟨⟨_, hinv⟩, fun hne => h.swapped (hgave hne).1, fun hne => ?_⟩
    have hopened := h.opened x rfl
    exact ⟨x.read, x.pipe, hopened.read, hopened.reads, hfull hne⟩
  | send thread kept =>
    simp only [step, send] at hs
    split at hs
    · cases hs
      exact ⟨⟨e, h, ha⟩, .of_eq rfl rfl⟩
    · cases thread with
      | none =>
        cases hs
        exact inv_beside h ha ⟨rfl, rfl, rfl, rfl, rfl, fun _ _ => id, fun _ _ => id, fun _ => rfl⟩
          rfl rfl .same ⟨rfl, rfl, rfl, rfl, rfl⟩ rfl rfl
      | some t =>
        simp only [Option.bind_eq_bind, Option.bind_eq_some_iff] at hs
        obtain ⟨th, ht, hs⟩ := hs
        cases hs
        exact hset ht rfl rfl
  | take t directed =>
    simp only [step, take, Option.bind_eq_bind, Option.bind_eq_some_iff] at hs
    obtain ⟨th, ht, hs⟩ := hs
    split at hs
    · rename_i hfree
      split at hs <;> simp only [Option.bind_eq_some_iff] at hs <;> obtain ⟨record, -, hs⟩ := hs <;>
        cases hs
      · obtain ⟨hgave, hfull⟩ := lost_dispatch s t { th with pending := none } record
        exact ⟨⟨e, dispatch_step h ha ⟨th, ht, rfl, rfl⟩ hfree.2⟩, .of_eq hgave hfull⟩
      · obtain ⟨hgave, hfull⟩ := lost_dispatch { s with pending := none } t th record
        have h' : Phase c { s with pending := none } e :=
          h.beside ⟨rfl, rfl, rfl, rfl, rfl, fun _ _ => id, fun _ _ => id, fun _ => rfl⟩ rfl rfl
            .same
        exact ⟨⟨e, dispatch_step h' (ha.congr ⟨rfl, rfl, rfl, rfl, rfl⟩ rfl rfl)
          ⟨th, ht, rfl, rfl⟩ hfree.2⟩, .of_eq hgave hfull⟩
    · cases hs
  | recv i =>
    obtain ⟨hphase, haccounts, hgave, hfull⟩ := recv_step h ha hs
    exact ⟨⟨e, hphase, haccounts⟩, .of_eq hgave hfull⟩
  | setAction action =>
    simp only [step] at hs
    split at hs <;> rename_i hclaimed <;> cases hs
    exact ⟨⟨e, h.setAction (Bool.not_eq_true _ ▸ hclaimed) action,
      ha.congr ⟨rfl, rfl, rfl, rfl, rfl⟩ rfl rfl⟩, .of_eq rfl rfl⟩
  | setMask t blocked =>
    simp only [step, Option.bind_eq_bind, Option.bind_eq_some_iff] at hs
    obtain ⟨th, hth, hs⟩ := hs
    cases hs
    exact hset (mem_of_outside hth).1 rfl rfl
  | setErrno t errno =>
    simp only [step, Option.bind_eq_bind, Option.bind_eq_some_iff] at hs
    obtain ⟨th, hth, hs⟩ := hs
    cases hs
    exact hset (mem_of_running hth).1 rfl rfl
  | spawn t =>
    simp only [step, Option.bind_eq_bind, Option.bind_eq_some_iff] at hs
    obtain ⟨th, hth, hs⟩ := hs
    obtain ⟨-, hframe, hcall⟩ := mem_of_outside hth
    cases hs
    refine inv_beside h ha ⟨rfl, rfl, rfl, rfl, rfl, fun _ _ => id, fun _ _ => id, fun _ => rfl⟩
      rfl rfl (.spawn hcall hframe) ⟨rfl, rfl, rfl, rfl, rfl⟩ rfl ?_
    simp [Thread.writing, hframe]
  | openFile fd | closeFile fd =>
    simp only [step] at hs
    split at hs <;> rename_i hfile <;> cases hs
    -- A number that the program opens or closes is not one of the two ends.
    have hother : ∀ fd' file, file ≠ s.files fd → s.files fd' = file → fd' ≠ fd := by
      rintro fd' file hne rfl rfl
      exact hne rfl
    refine inv_beside h ha ⟨rfl, rfl, rfl, rfl, rfl, ?_, ?_, fun _ => rfl⟩ rfl rfl .same
      ⟨rfl, rfl, rfl, rfl, rfl⟩ rfl rfl <;>
      · intro fd' p hp
        have hne := hother fd' _ (by rw [hfile]; nofun) hp
        simpa [State.setFile, hne] using hp

/-! ### Signals that were sent while the handler stood -/

/-- A signal that was sent while the handler stood is pending only as long as it stands, and no
action of the program was taken for one. -/
structure Stamped (s : State) : Prop where
  pending : s.pending = some true → s.disposition = .handler
  threads : ∀ th ∈ s.threads, th.pending = some true → s.disposition = .handler
  taken : ∀ x ∈ s.taken, x.2 = false

/-- A step that sends, takes and changes nothing. -/
theorem Stamped.congr {s s' : State} (h : Stamped s) (hd : s'.disposition = s.disposition)
    (hp : s'.pending = some true → s.pending = some true)
    (hth : ∀ th ∈ s'.threads, th.pending = some true → ∃ th₀ ∈ s.threads, th₀.pending = some true)
    (htaken : s'.taken = s.taken) : Stamped s' := by
  refine ⟨fun hp' => by rw [hd]; exact h.pending (hp hp'), ?_, by rw [htaken]; exact h.taken⟩
  intro th hmem hth'
  obtain ⟨th₀, hmem₀, hth₀⟩ := hth th hmem hth'
  rw [hd]
  exact h.threads th₀ hmem₀ hth₀

/-- A thread is replaced by one for which no more is pending. -/
theorem Stamped.setThread {s : State} (h : Stamped s) {t : Nat} {th th' : Thread}
    (ht : s.threads[t]? = some th) (hp : th'.pending = some true → th.pending = some true) :
    Stamped (s.setThread t th') := by
  refine h.congr rfl id ?_ rfl
  intro th'' hmem hth''
  rcases List.mem_or_eq_of_mem_set hmem with hmem | rfl
  · exact ⟨th'', hmem, hth''⟩
  · exact ⟨th, List.mem_of_getElem? ht, hp hth''⟩

/-- A signal that joins one that is pending. -/
theorem merge_true {pending : Option Bool} {record : Bool}
    (h : merge pending record = some true) : pending = some true ∨ record = true := by
  cases pending with
  | none => exact .inr (by simpa [merge] using h)
  | some b => simpa [merge] using h

/-- A thread takes a signal that was sent while the handler stood only if it still stands. -/
theorem Stamped.dispatch {s : State} (h : Stamped s) {t : Nat} {th th₀ : Thread} {record : Bool}
    (ht : s.threads[t]? = some th₀) (hp : th.pending = some true → th₀.pending = some true)
    (hrecord : record = true → s.disposition = .handler) : Stamped (dispatch s t th record) := by
  have hset := h.setThread ht hp
  simp only [Handler.dispatch]
  split
  · rename_i action hd
    refine ⟨hset.pending, hset.threads, ?_⟩
    intro x hx
    rcases List.mem_append.mp hx with hx | hx
    · exact h.taken x hx
    · obtain rfl := List.mem_singleton.mp hx
      cases record with
      | false => rfl
      | true => exact absurd (hd.symm.trans (hrecord rfl)) nofun
  · have hset : Stamped (s.setThread t { th with frame := some ⟨th.errno, .load⟩ }) :=
      h.setThread ht hp
    exact ⟨hset.pending, hset.threads, hset.taken⟩
  · exact hset

/-- A call takes a step. What is pending is discarded before the handler goes away. -/
theorem Stamped.advance {c : Config} {s s' : State} {e : Option Ends} (h : Stamped s)
    (hphase : Phase c s e) {t : Nat} {th th' : Thread} (ht : s.threads[t]? = some th)
    (hadv : Advanced s s' t th th') : Stamped s' := by
  rcases hadv.threads with ⟨hthreads, hkept⟩ | ⟨rfl, hnone⟩
  · have hstays : s.disposition = .handler → s'.disposition = .handler := by
      intro hd
      rcases hkept.disposition with heq | heq | ⟨d, hcall⟩
      · exact heq.trans hd
      · exact heq
      · have hheld := hphase.held th (List.mem_of_getElem? ht) _ hcall
        exact absurd (hd.symm.trans hheld.1) nofun
    have hset : Stamped (s.setThread t th') :=
      h.setThread ht (by rw [hkept.pending.2]; exact id)
    refine ⟨fun hp => hstays (h.pending (hkept.pending.1 ▸ hp)), ?_,
      by rw [hadv.taken]; exact h.taken⟩
    intro th'' hmem hp
    rw [hthreads] at hmem
    exact hstays (hset.threads th'' hmem hp)
  · refine ⟨nofun, ?_, h.taken⟩
    intro th'' hmem hp
    rcases List.mem_or_eq_of_mem_set hmem with hmem | rfl
    · obtain ⟨other, -, rfl⟩ := List.mem_map.mp hmem
      cases hp
    · exact absurd (hnone.symm.trans hp) nofun

/-- Every step keeps what was sent under the handler from the program's own action. -/
theorem stamped_step {c : Config} {s s' : State} {act : Action} (h : Stamped s) (hinv : Inv c s)
    (hs : step c s act = some s') : Stamped s' := by
  obtain ⟨e, hphase, -⟩ := hinv
  cases act with
  | new t =>
    simp only [step, Option.bind_eq_bind, Option.bind_eq_some_iff] at hs
    obtain ⟨th, hth, hs⟩ := hs
    cases hs
    exact h.setThread (mem_of_outside hth).1 id
  | drop t i =>
    simp only [step, Option.bind_eq_bind, Option.bind_eq_some_iff] at hs
    obtain ⟨th, hth, fd, -, hs⟩ := hs
    cases hs
    have hset : Stamped (s.setThread t { th with call := some (.take none) }) :=
      h.setThread (mem_of_outside hth).1 id
    exact ⟨hset.pending, hset.threads, hset.taken⟩
  | advance t answer =>
    simp only [step, Option.bind_eq_bind, Option.bind_eq_some_iff] at hs
    obtain ⟨th, hth, pc, hcall, hs⟩ := hs
    obtain ⟨th', hadv⟩ := advanced hcall hs
    exact h.advance hphase (mem_of_running hth).1 hadv
  | handler t =>
    simp only [step, Option.bind_eq_bind, Option.bind_eq_some_iff] at hs
    obtain ⟨th, ht, f, -, hs⟩ := hs
    cases hs
    obtain ⟨th', hthreads, hpending, -, -⟩ := threads_writeSignal c s t th f
    have hset : Stamped (s.setThread t th') := h.setThread ht (by rw [hpending]; exact id)
    have hsame : (writeSignal c s t th f).disposition = s.disposition ∧
        (writeSignal c s t th f).pending = s.pending ∧
        (writeSignal c s t th f).taken = s.taken := by
      obtain ⟨errno, pc⟩ := f
      cases pc <;> simp only [writeSignal]
      · repeat' split
        all_goals exact ⟨rfl, rfl, rfl⟩
      · repeat' split
        all_goals exact ⟨rfl, rfl, rfl⟩
      · exact ⟨rfl, rfl, rfl⟩
    obtain ⟨hd, hp, htaken⟩ := hsame
    refine hset.congr hd (by rw [hp]; exact id) ?_ htaken
    rw [hthreads]
    exact fun th'' hmem hth'' => ⟨th'', hmem, hth''⟩
  | send thread kept =>
    simp only [step, send] at hs
    split at hs
    · cases hs
      exact h
    · cases thread with
      | none =>
        cases hs
        refine ⟨?_, h.threads, h.taken⟩
        exact fun hp => (merge_true hp).elim h.pending of_decide_eq_true
      | some t =>
        simp only [Option.bind_eq_bind, Option.bind_eq_some_iff] at hs
        obtain ⟨th, ht, hs⟩ := hs
        cases hs
        refine ⟨h.pending, forall_set h.threads ?_, h.taken⟩
        exact fun hp => (merge_true hp).elim (h.threads th (List.mem_of_getElem? ht))
          of_decide_eq_true
  | take t directed =>
    simp only [step, take, Option.bind_eq_bind, Option.bind_eq_some_iff] at hs
    obtain ⟨th, ht, hs⟩ := hs
    split at hs
    · split at hs <;> simp only [Option.bind_eq_some_iff] at hs <;>
        obtain ⟨record, hrecord, hs⟩ := hs <;> cases hs
      · refine h.dispatch ht nofun ?_
        rintro rfl
        exact h.threads th (List.mem_of_getElem? ht) hrecord
      · have h' : Stamped { s with pending := none } := ⟨nofun, h.threads, h.taken⟩
        refine h'.dispatch ht id ?_
        rintro rfl
        exact h.pending hrecord
    · cases hs
  | recv i =>
    simp only [step, recv, Option.bind_eq_bind, Option.bind_eq_some_iff] at hs
    obtain ⟨fd, -, hs⟩ := hs
    split at hs
    · split at hs <;> cases hs
      exact ⟨h.pending, h.threads, h.taken⟩
    · cases hs
  | setAction action =>
    simp only [step] at hs
    split at hs <;> rename_i hclaimed <;> cases hs
    have hrest := hphase.free (Bool.not_eq_true _ ▸ hclaimed)
    -- Nothing that was sent under the handler is pending, for it does not stand.
    refine ⟨fun hp => ?_, fun th hth hp => ?_, h.taken⟩
    · exact absurd (hrest.disposition.symm.trans (h.pending hp)) nofun
    · exact absurd (hrest.disposition.symm.trans (h.threads th hth hp)) nofun
  | setMask t blocked =>
    simp only [step, Option.bind_eq_bind, Option.bind_eq_some_iff] at hs
    obtain ⟨th, hth, hs⟩ := hs
    cases hs
    exact h.setThread (mem_of_outside hth).1 id
  | setErrno t errno =>
    simp only [step, Option.bind_eq_bind, Option.bind_eq_some_iff] at hs
    obtain ⟨th, hth, hs⟩ := hs
    cases hs
    exact h.setThread (mem_of_running hth).1 id
  | spawn t =>
    simp only [step, Option.bind_eq_bind, Option.bind_eq_some_iff] at hs
    obtain ⟨th, -, hs⟩ := hs
    cases hs
    refine ⟨h.pending, ?_, h.taken⟩
    intro th' hmem hp
    rcases List.mem_append.mp hmem with hmem | hmem
    · exact h.threads th' hmem hp
    · obtain rfl := List.mem_singleton.mp hmem
      cases hp
  | openFile fd | closeFile fd =>
    simp only [step] at hs
    split at hs <;> cases hs
    exact ⟨h.pending, h.threads, h.taken⟩

/-! ### Runs -/

/-- Everything that every step keeps. -/
structure Safe (c : Config) (s : State) : Prop where
  inv : Inv c s
  sound : ∀ th ∈ s.threads, th.Sound
  stamped : Stamped s

/-- All of it holds in every run. -/
theorem safe_of_reachable {c : Config} {s : State} (hr : (system c).Reachable s) : Safe c s := by
  refine hr.invariant ?_ ?_
  · intro s hs
    refine ⟨inv_new hs, ?_, ?_⟩
    · obtain ⟨action, files, threads, -, hthreads, rfl⟩ := hs
      intro th hth
      obtain ⟨blocked, errno, rfl⟩ := hthreads th hth
      exact .of_new
    · obtain ⟨action, files, threads, -, hthreads, rfl⟩ := hs
      refine ⟨nofun, ?_, nofun⟩
      intro th hth hp
      obtain ⟨blocked, errno, rfl⟩ := hthreads th hth
      cases hp
  · intro s act s' h hs
    exact ⟨(inv_step h.inv hs).1, sound_step h.sound hs, stamped_step h.stamped h.inv hs⟩

/-- While a waiter exists the handler stands, and writes into the pipe that the waiter reads. Once
there is no waiter and no call, the program's own action stands and the number is free. No call
leaves its mark on a mask. No handler leaves one on `errno`: when it is gone, `errno` is what the
thread's own code last made it, by a call that failed or otherwise. No signal that was sent while
the handler stood ever makes the program's own action happen. -/
theorem action_put_back {c : Config} {s : State} (hr : (system c).Reachable s) :
    (∀ fd ∈ s.waiters, s.waiters = [fd] ∧ s.disposition = .handler ∧
      ∃ w p, s.write = some w ∧ s.files w = .write p ∧ s.files fd = .read p) ∧
    (s.waiters = [] → (∀ th ∈ s.threads, th.call = none) →
      s.disposition = .program s.own ∧ s.saved = none ∧ s.claimed = false) ∧
    (∀ th ∈ s.threads, th.call = none → th.blocked = th.ownBlocked) ∧
    (∀ th ∈ s.threads, th.frame = none → th.errno = th.ownErrno) ∧
    ∀ x ∈ s.taken, x.2 = false := by
  obtain ⟨⟨e, h, -⟩, hsound, hstamped⟩ := safe_of_reachable hr
  refine ⟨?_, ?_, ?_, fun th hth => (hsound th hth).errno, hstamped.taken⟩
  · intro fd hfd
    obtain ⟨harmed, x, rfl, rfl⟩ := h.waits fd hfd
    obtain ⟨y, hy, hwrite⟩ := harmed.write
    cases hy
    have hopened := h.opened x rfl
    -- There is one claim, so there is one waiter at most.
    have hle : s.waiters.length ≤ 1 := by
      have hclaim := h.claim
      have hbound := Bool.toNat_le s.claimed
      omega
    refine ⟨?_, harmed.disposition, x.write, x.pipe, hwrite, hopened.writes, hopened.reads⟩
    obtain ⟨i, hi⟩ := List.getElem?_of_mem hfd
    match hw : s.waiters, hle with
    | [], _ => simp [hw] at hfd
    | [a], _ => simpa [hw, eq_comm] using hfd
  · intro hw hcalls
    -- Nobody is left who could have the claim.
    have hclaim := h.claim
    rw [hw, tally_eq_zero fun th hth => by rw [Thread.holds, hcalls th hth]; rfl] at hclaim
    have hclaimed : s.claimed = false := by
      cases hc : s.claimed with
      | false => rfl
      | true =>
        rw [hc] at hclaim
        cases hclaim
    have hrest := h.free hclaimed
    exact ⟨hrest.disposition, hrest.saved, hclaimed⟩
  · intro th hth hcall
    have hmask := (hsound th hth).mask
    rw [hcall] at hmask
    simpa using hmask

/-- A process with two threads and the program's action 7. -/
def twoThreads : State :=
  new 7 (fun fd => if fd < 3 then .other else .closed) [.new false 0, .new false 5]

theorem init_twoThreads (c : Config) : (system c).init twoThreads := by
  refine ⟨7, _, _, ?_, ?_, rfl⟩
  · intro fd
    by_cases h : fd < 3 <;> simp [h]
  · intro th hth
    rcases List.mem_pair.mp hth with rfl | rfl
    · exact ⟨false, 0, rfl⟩
    · exact ⟨false, 5, rfl⟩

/-- Thread 0 makes a waiter for `SIGINT`. The signal comes before the registration, and thread 1
runs the handler. -/
def delivered : List Action :=
  [.new 0, .advance 0 .ok, .advance 0 .ok, .advance 0 (.ends 3 4)] ++
    List.replicate 6 (.advance 0 .ok) ++
    [.send none true, .take 1 false, .handler 1, .handler 1, .advance 0 .ok]

/-- The waiter reads and is dropped by thread 1. Thread 0 has begun to run the handler before, and
finds no write end. Another signal is sent to thread 0 meanwhile, and is discarded. -/
def dropped : List Action :=
  [.handler 1, .recv 0, .send none true, .take 0 false, .drop 1 0, .advance 1 .ok,
    .advance 1 .ok, .advance 1 .ok, .send (some 0) true, .handler 0, .handler 0] ++
    List.replicate 7 (.advance 1 .ok)

theorem action_put_back_dropped : ∃ s, (system ⟨2, 4⟩).Reachable s ∧
    s.handled = 2 ∧ s.received = [2] ∧ s.gaveUp = 1 ∧ s.disposition = .program 7 := by
  obtain ⟨s, hr, hp⟩ := Lts.Reachable.exists_of_run (delivered ++ dropped)
    (fun s => s.own = 7 ∧ s.handled = 2 ∧ s.received = [2] ∧ s.gaveUp = 1 ∧ s.waiters = [] ∧
      s.threads.all fun th => th.call.isNone) (init_twoThreads ⟨2, 4⟩) (by decide)
  simp only [decide_eq_true_eq, List.all_eq_true, Option.isNone_iff_eq_none] at hp
  obtain ⟨hown, hhandled, hreceived, hgave, hwaiters, hcalls⟩ := hp
  refine ⟨s, hr, hhandled, hreceived, hgave, ?_⟩
  rw [← hown]
  exact ((action_put_back hr).2.1 hwaiters hcalls).1

/-- Every signal that the handler took is accounted for: `recv` returned its number, it is a byte in
the waiter's pipe, its handler still runs, the pipe was full, or the disarm of a drop or of a failed
`Signal::new` had taken the write end away. The handler never writes anywhere else. -/
theorem recv_accounts {c : Config} {s : State} (hr : (system c).Reachable s) :
    (∀ fd ∈ s.waiters, ∃ p, s.files fd = .read p ∧ (∀ b ∈ s.pipes p, b = byte c.sig) ∧
      s.handled = s.received.length + (s.pipes p).length + s.threads.countP Thread.writing +
        s.gaveUp + s.full) ∧
    (∀ kind ∈ s.received, kind = c.sig) ∧ s.stray = 0 ∧
    ∀ act s', step c s act = some s' →
      (s'.gaveUp ≠ s.gaveUp → ∃ th ∈ s.threads, ∃ pc, th.call = some pc ∧ pc.swapped = true) ∧
      (s'.full ≠ s.full →
        ∃ r p, s.read = some r ∧ s.files r = .read p ∧ c.capacity ≤ (s.pipes p).length) := by
  obtain ⟨hinv, -, -⟩ := safe_of_reachable hr
  obtain ⟨e, h, ha⟩ := hinv
  refine ⟨?_, ha.received, ha.stray, ?_⟩
  · intro fd hfd
    obtain ⟨-, x, rfl, rfl⟩ := h.waits fd hfd
    refine ⟨x.pipe, (h.opened x rfl).reads, ha.bytes, ?_⟩
    rw [← tally_toNat]
    exact ha.count
  · intro act s' hs
    have hlosses := (inv_step ⟨e, h, ha⟩ hs).2
    exact ⟨hlosses.gaveUp, hlosses.full⟩

theorem recv_accounts_delivered : ∃ s p, (system ⟨2, 4⟩).Reachable s ∧ s.waiters = [3] ∧
    s.files 3 = .read p ∧ (s.pipes p).length = 1 := by
  obtain ⟨s, hr, hp⟩ := Lts.Reachable.exists_of_run delivered
    (fun s => s.waiters = [3] ∧ s.handled = 1 ∧ s.received = [] ∧ s.gaveUp = 0 ∧ s.full = 0 ∧
      s.threads.countP Thread.writing = 0) (init_twoThreads ⟨2, 4⟩) (by decide)
  simp only [decide_eq_true_eq] at hp
  obtain ⟨hwaiters, hhandled, hreceived, hgave, hfull, hwriting⟩ := hp
  obtain ⟨p, hfile, -, hcount⟩ :=
    (recv_accounts hr).1 3 (by rw [hwaiters]; exact List.mem_cons_self)
  rw [hhandled, hreceived, hgave, hfull, hwriting] at hcount
  exact ⟨s, p, hr, hwaiters, hfile, by simpa using hcount.symm⟩

end Nagoya.Signal.Handler
