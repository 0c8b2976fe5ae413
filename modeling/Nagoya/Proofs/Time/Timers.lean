import Nagoya.Lib.Pool
import Nagoya.Proofs.Time.TimerHeap
import Nagoya.Time.Timers

/-!
# `Nagoya.Proofs.Time.Timers`: the host never sleeps past a timer

A host that blocks has a limit, and a timer before the limit must be announced. `Covered low
busy` says that every entry of the heap is either not before a limit (`low`) or not before the
deadline of a sleep whose poll is still on its way to announce it (`busy`). An arm keeps this:
one that becomes the earliest announces itself, and one that does not stands behind an entry
that is covered already. Firing and dropping take entries away.

For the reactor the limit is the cached deadline. Between the swap that clears the cache and the
`fetch_min` the limit is what `fire_due` reported. The second half is `Low`: when the cache is
below the deadline that the reactor goes to sleep with, a wake is pending or about to be made.
The wake is not lost, because only the end of a wait consumes it.

For the timer thread the limit is the deadline that it took from the heap, or that the nudged
flag is set. The flag is cleared only on the way back to the heap.
-/

set_option autoImplicit false

namespace Nagoya.Time

open Nagoya.Lib

/-! ### The registry -/

namespace Registry

/-- The invariant of the registry: the heap is in order, and its slots exist. -/
structure Ok (r : Registry) : Prop where
  heap : r.heap.HeapOk
  slots : ∀ e ∈ r.heap.entries, e.slot < r.slots.length

/-- What a drain of the heap leaves: entries that were there, and the next one is not due. -/
structure Drained (now : Nat) (r r' : Registry) : Prop where
  ok : Ok r'
  subset : r'.heap.entries ⊆ r.heap.entries
  later : ∀ e, r'.heap.peek = some e → now < e.deadline

/-- The loop fires the entries that are due, one after the other, until the first that is not. -/
theorem fireLoop_spec (now fuel : Nat) (r : Registry) (due : List Waker) (hok : Ok r)
    (hfuel : r.heap.entries.length ≤ fuel) : Drained now r (fireLoop now fuel r due).1 := by
  induction fuel generalizing r due with
  -- The fuel is the number of entries, so it runs out with the heap.
  | zero =>
    have hnil : r.heap.entries = [] := List.eq_nil_of_length_eq_zero (by omega)
    exact ⟨hok, fun _ he => he, fun e he => by simp [fireLoop, TimerHeap.peek, hnil] at he⟩
  | succ fuel ih =>
    unfold fireLoop
    split
    · rename_i hp
      exact ⟨hok, fun _ he => he, fun e he => by simp [hp] at he⟩
    · rename_i entry hp
      split
      -- The first entry is not due, so none is.
      · rename_i hlt
        refine ⟨hok, fun _ he => he, fun e he => ?_⟩
        rw [hp, Option.some.injEq] at he
        exact he ▸ hlt
      · -- The first entry is due. It is popped, and the loop goes on with what is left.
        obtain ⟨heap, hpop, hheap, hperm⟩ := TimerHeap.pop_spec hok.heap hp
        have hsub : heap.entries ⊆ r.heap.entries := fun e he =>
          hperm.subset (List.mem_cons_of_mem _ he)
        have hlen : heap.entries.length ≤ fuel := by
          have := hperm.length_eq
          rw [List.length_cons] at this
          omega
        simp only [hpop]
        split
        · have hd := ih { r with heap } due ⟨hheap, fun e he => hok.slots e (hsub he)⟩ hlen
          exact ⟨hd.ok, fun e he => hsub (hd.subset he), hd.later⟩
        · rename_i slot _
          have hd := ih { r with
            heap
            slots := r.slots.set entry.slot { fired := true, waker := none } }
            (due ++ slot.waker.toList)
            ⟨hheap, fun e he => by simpa using hok.slots e (hsub he)⟩ hlen
          exact ⟨hd.ok, fun e he => hsub (hd.subset he), hd.later⟩

/-- `fire_due` reports the first deadline that is left, and that is after `now`. -/
theorem fireDue_spec {r : Registry} (hok : Ok r) (now : Nat) :
    Ok (r.fireDue now).1 ∧ (r.fireDue now).1.heap.entries ⊆ r.heap.entries ∧
      (∀ d, (r.fireDue now).2.2 = some d →
        now < d ∧ ∀ e ∈ (r.fireDue now).1.heap.entries, d ≤ e.deadline) ∧
      ((r.fireDue now).2.2 = none → (r.fireDue now).1.heap.entries = []) := by
  have hd := fireLoop_spec now r.heap.entries.length r [] hok (Nat.le_refl _)
  refine ⟨hd.ok, hd.subset, fun d hn => ?_, fun hn => ?_⟩
  · obtain ⟨e, hp, rfl⟩ := Option.map_eq_some_iff.mp hn
    exact ⟨hd.later e hp, hd.ok.heap.peek_le hp⟩
  · exact TimerHeap.peek_eq_none.mp (Option.map_eq_none_iff.mp hn)

/-- `arm` adds one entry. When it is not the earliest, an entry is not after it. -/
theorem arm_spec {r : Registry} (hok : Ok r) (deadline : Nat) (waker : Waker) :
    Ok (r.arm deadline waker).1 ∧
      (∀ e ∈ (r.arm deadline waker).1.heap.entries, e.deadline = deadline ∨ e ∈ r.heap.entries) ∧
      ((r.arm deadline waker).2 = false → ∃ m ∈ r.heap.entries, m.deadline ≤ deadline) := by
  -- The slot is new, so the heap does not have it.
  have hfresh : r.heap.index r.slots.length = none := by
    cases hx : r.heap.index r.slots.length with
    | none => rfl
    | some i =>
      obtain ⟨e, he, hs⟩ := (hok.heap.indexed _ _).mp hx
      have := hok.slots e (List.mem_of_getElem? he)
      omega
  obtain ⟨hheap, hperm⟩ := TimerHeap.push_spec hok.heap
    (e := { deadline, seq := r.seq, slot := r.slots.length }) hfresh
  refine ⟨⟨hheap, fun e he => ?_⟩, fun e he => ?_, fun hearly => ?_⟩
  · rcases List.mem_cons.mp (hperm.subset he) with rfl | he
    · simp [arm]
    · have := hok.slots e he
      simp only [arm, List.length_append, List.length_singleton]
      omega
  · rcases List.mem_cons.mp (hperm.subset he) with rfl | he
    · exact .inl rfl
    · exact .inr he
  -- The entry at the top of the heap is the one that was compared.
  · simp only [arm] at hearly
    split at hearly
    · cases hearly
    · rename_i m hp
      exact ⟨m, TimerHeap.peek_mem hp, by simpa using hearly⟩

/-- A cancelled timer leaves the heap. -/
theorem cancel_spec {r r' : Registry} (hok : Ok r) {slot : Nat} (h : r.cancel slot = some r') :
    Ok r' ∧ r'.heap.entries ⊆ r.heap.entries := by
  unfold cancel at h
  split at h
  · cases h
    exact ⟨hok, fun _ he => he⟩
  · rename_i index hx
    obtain ⟨e, he, -⟩ := (hok.heap.indexed slot index).mp hx
    obtain ⟨heap, hrem, hheap, hperm⟩ := TimerHeap.remove_spec hok.heap he
    have hsub : heap.entries ⊆ r.heap.entries := fun f hf =>
      hperm.subset (List.mem_cons_of_mem _ hf)
    rw [hrem] at h
    cases h
    exact ⟨⟨hheap, fun f hf => hok.slots f (hsub hf)⟩, hsub⟩

end Registry

namespace Timers

/-! ### Covered entries -/

/-- Every entry is not before a limit, or not before a sleep that is on its way to announce
itself. -/
def Covered (low : Nat → Prop) (busy : SleepPc → Bool) (entries : List Entry)
    (sleeps : List Sleep) : Prop :=
  ∀ e ∈ entries, low e.deadline ∨ ∃ a ∈ sleeps, busy a.pc = true ∧ a.deadline ≤ e.deadline

namespace Covered

variable {low low' : Nat → Prop} {busy : SleepPc → Bool} {entries entries' : List Entry}
  {sleeps : List Sleep}

/-- Entries may leave, and the limit may fall. -/
theorem mono (h : Covered low busy entries sleeps) (hsub : entries' ⊆ entries)
    (hlow : ∀ d, low d → low' d) : Covered low' busy entries' sleeps :=
  fun e he => (h e (hsub he)).imp (hlow e.deadline) id

/-- A new sleep changes nothing. -/
theorem append (h : Covered low busy entries sleeps) (b : Sleep) :
    Covered low busy entries (sleeps ++ [b]) := by
  intro e he
  rcases h e he with hl | ⟨a, ha, hbusy⟩
  · exact .inl hl
  · exact .inr ⟨a, List.mem_append_left _ ha, hbusy⟩

/-- One sleep takes a step. If it leaves the announcement, the limit is down to its deadline. -/
theorem move (h : Covered low busy entries sleeps) {i : Nat} {a a' : Sleep}
    (hi : sleeps[i]? = some a) (hd : a'.deadline = a.deadline) (hlow : ∀ d, low d → low' d)
    (hbusy : busy a.pc = true → busy a'.pc = true ∨ ∀ d, a.deadline ≤ d → low' d) :
    Covered low' busy entries (sleeps.set i a') := by
  intro e he
  rcases h e he with hl | ⟨b, hb, hbb, hbd⟩
  · exact .inl (hlow _ hl)
  · rcases mem_set_of_mem hi a' hb with rfl | hb
    · rcases hbusy hbb with hb' | hl
      · exact .inr ⟨a', mem_set_of_some hi a', hb', by omega⟩
      · exact .inl (hl _ hbd)
    · exact .inr ⟨b, hb, hbb, hbd⟩

/-- A sleep is armed. It is the earliest and goes on to announce itself, or an entry is not after
it. In the second case that entry is covered, and so is the new one. -/
theorem arm (h : Covered low busy entries sleeps) (hup : ∀ d d', d ≤ d' → low d → low d')
    {i : Nat} {a a' : Sleep} (hi : sleeps[i]? = some a) (hd : a'.deadline = a.deadline)
    (hidle : busy a.pc = false)
    (hsub : ∀ e ∈ entries', e.deadline = a.deadline ∨ e ∈ entries)
    (hnew : busy a'.pc = true ∨ ∃ m ∈ entries, m.deadline ≤ a.deadline) :
    Covered low busy entries' (sleeps.set i a') := by
  have hold : Covered low busy entries (sleeps.set i a') :=
    h.move hi hd (fun _ hl => hl) fun hb => by simp [hidle] at hb
  intro e he
  rcases hsub e he with hed | he
  · rcases hnew with hb | ⟨m, hm, hmd⟩
    · exact .inr ⟨a', mem_set_of_some hi a', hb, by omega⟩
    · rcases hold m hm with hl | ⟨b, hb, hbb, hbd⟩
      · exact .inl (hup _ _ (by omega) hl)
      · exact .inr ⟨b, hb, hbb, by omega⟩
  · exact hold e he

end Covered

/-! ### What the step of a sleep does -/

/-- The sleep is armed, and its poll has not yet announced it. -/
def SleepPc.announcing : SleepPc → Bool
  | .nudge | .loadCache | .exchange _ | .wakePoller | .start | .setNudged => true
  | _ => false

/-- The steps of the sleep `a` at `i`, by what they change. -/
inductive Moved (s : State) (i : Nat) (a : Sleep) : State → Prop where
  /-- The announcement is not concerned. Only a `notify_one` touches the driver. -/
  | quiet (a' : Sleep) (slots : List Slot) (driver : DriverPc)
      (hslots : slots.length = s.registry.slots.length) (hd : a'.deadline = a.deadline)
      (hpc : a.pc.announcing = false) (hpc' : a'.pc.announcing = false)
      (hdriver : driver = s.driver ∨ driver = .relock ∧ s.driver ≠ .off) :
      Moved s i a
        { s with
          registry := { s.registry with slots }
          sleeps := s.sleeps.set i a'
          driver }
  /-- A drop takes the entry out of the heap. -/
  | cancelled (a' : Sleep) (k : Nat) (registry : Registry) (hd : a'.deadline = a.deadline)
      (hcancel : s.registry.cancel k = some registry) (hpc : a.pc.announcing = false)
      (hpc' : a'.pc.announcing = false) :
      Moved s i a { s with registry, sleeps := s.sleeps.set i a' }
  | armed (a' : Sleep) (waker : Waker) (hd : a'.deadline = a.deadline)
      (hpc : a.pc.announcing = false)
      (hpc' : a'.pc = if (s.registry.arm a.deadline waker).2 then .nudge else .idle) :
      Moved s i a
        { s with
          registry := (s.registry.arm a.deadline waker).1
          sleeps := s.sleeps.set i a' }
  | dedicated (a' : Sleep) (hd : a'.deadline = a.deadline) (hpc : a.pc = .nudge)
      (hpc' : a'.pc = .start) (hhost : s.host ≠ some .reactor) :
      Moved s i a { s with host := some .dedicated, sleeps := s.sleeps.set i a' }
  | hosted (a' : Sleep) (hd : a'.deadline = a.deadline) (hpc : a.pc = .nudge)
      (hpc' : a'.pc = .loadCache) (hhost : s.host = some .reactor) :
      Moved s i a { s with host := some .reactor, sleeps := s.sleeps.set i a' }
  /-- `timer_armed` returns, for the cache is low enough. -/
  | passed (a' : Sleep) (hd : a'.deadline = a.deadline)
      (hpc : a.pc = .loadCache ∨ ∃ current, a.pc = .exchange current) (hpc' : a'.pc = .idle)
      (hcache : s.cache ≤ a.deadline) :
      Moved s i a { s with sleeps := s.sleeps.set i a' }
  /-- `timer_armed` tries the exchange, perhaps again. -/
  | tries (a' : Sleep) (hd : a'.deadline = a.deadline)
      (hpc : a.pc = .loadCache ∨ ∃ current, a.pc = .exchange current)
      (hpc' : a'.pc = .exchange s.cache) (hcache : a.deadline < s.cache) :
      Moved s i a { s with sleeps := s.sleeps.set i a' }
  | lowered (a' : Sleep) (hd : a'.deadline = a.deadline) (hpc : a.pc = .exchange s.cache)
      (hpc' : a'.pc = .wakePoller) :
      Moved s i a { s with cache := a.deadline, sleeps := s.sleeps.set i a' }
  | woke (a' : Sleep) (hd : a'.deadline = a.deadline) (hpc : a.pc = .wakePoller)
      (hpc' : a'.pc = .idle) :
      Moved s i a { s with wakePending := true, sleeps := s.sleeps.set i a' }
  | started (a' : Sleep) (driver : DriverPc) (hd : a'.deadline = a.deadline)
      (hpc : a.pc = .start) (hpc' : a'.pc = .setNudged)
      (hdriver : driver = s.driver ∨ driver = .readClock) :
      Moved s i a { s with sleeps := s.sleeps.set i a', driver }
  | nudged (a' : Sleep) (hd : a'.deadline = a.deadline) (hpc : a.pc = .setNudged)
      (hpc' : a'.pc = .notify) :
      Moved s i a { s with nudged := true, sleeps := s.sleeps.set i a' }

/-- Every step of a call on a sleep is one of these. -/
theorem sleepStep_moved {s s' : State} {i : Nat} {a : Sleep} {spurious : Bool}
    (h : sleepStep s i a spurious = some s') : Moved s i a s' := by
  unfold sleepStep at h
  split at h
  · cases h
  · cases h
  -- A poll of an armed sleep: `fired` is read, the waker stored, and `fired` read again.
  · rename_i waker hpc
    split at h
    · cases h
    · split at h <;> cases h
      · exact .quiet _ _ _ rfl rfl (by rw [hpc]; rfl) rfl (.inl rfl)
      · exact .quiet _ _ _ rfl rfl (by rw [hpc]; rfl) rfl (.inl rfl)
  · rename_i waker hpc
    split at h
    · cases h
    · split at h
      · cases h
      · cases h
        exact .quiet _ _ _ (by simp) rfl (by rw [hpc]; rfl) rfl (.inl rfl)
  · rename_i hpc
    split at h
    · cases h
    · cases h
      exact .quiet _ _ _ rfl rfl (by rw [hpc]; rfl) rfl (.inl rfl)
  -- The first poll: the clock is read, then the sleep is armed.
  · rename_i waker hpc
    split at h <;> cases h
    · exact .quiet _ _ _ rfl rfl (by rw [hpc]; rfl) rfl (.inl rfl)
    · exact .quiet _ _ _ rfl rfl (by rw [hpc]; rfl) rfl (.inl rfl)
  · rename_i waker hpc
    cases h
    exact .armed _ waker ((apply_ite Sleep.deadline _ _ _).trans (ite_self _)) (by rw [hpc]; rfl)
      (apply_ite Sleep.pc _ _ _)
  -- `nudge` asks for the host, and this may be the call that chooses it.
  · rename_i hpc
    split at h <;> cases h
    · rename_i hhost
      exact .dedicated _ rfl hpc rfl fun hr => by simp [hr] at hhost
    · rename_i hhost
      have hr : s.host = some .reactor := by
        cases hs : s.host with
        | none => simp [hs] at hhost
        | some x => simpa [hs] using hhost
      exact .hosted _ rfl hpc rfl hr
  -- `timer_armed`: the first load, the exchanges, the wake.
  · rename_i hpc
    split at h <;> cases h
    · rename_i hle
      exact .passed _ rfl (.inl hpc) rfl hle
    · rename_i hle
      exact .tries _ rfl (.inl hpc) rfl (by omega)
  · rename_i current hpc
    split at h
    · rename_i heq
      cases h
      exact .lowered _ rfl (by rw [hpc, heq.1]) rfl
    · split at h <;> cases h
      · rename_i hle
        exact .passed _ rfl (.inr ⟨_, hpc⟩) rfl hle
      · rename_i hle
        exact .tries _ rfl (.inr ⟨_, hpc⟩) rfl (by omega)
  · rename_i hpc
    cases h
    exact .woke _ rfl hpc rfl
  -- The dedicated thread is started, flagged and notified.
  · rename_i hpc
    split at h <;> cases h
    · exact .started _ _ rfl hpc rfl (.inr rfl)
    · exact .started _ _ rfl hpc rfl (.inl rfl)
  · rename_i hpc
    split at h <;> cases h
    exact .nudged _ rfl hpc rfl
  · rename_i hpc
    simp only [State.put] at h
    split at h <;> cases h
    · rename_i t ht
      exact .quiet _ s.registry.slots .relock rfl rfl (by rw [hpc]; rfl) rfl
        (.inr ⟨rfl, by simp [ht]⟩)
    · exact .quiet _ _ _ rfl rfl (by rw [hpc]; rfl) rfl (.inl rfl)
  -- `Drop for Sleep` takes the waker, outside the lock of the heap.
  · rename_i hpc
    split at h
    · cases h
    · split at h
      · cases h
      · cases h
        exact .quiet _ _ _ (by simp) rfl (by rw [hpc]; rfl) rfl (.inl rfl)

/-- Every action on a sleep is one of these. -/
theorem step_moved {s s' : State} {act : Action} (h : step s act = some s')
    (hact : (∃ i waker, act = .poll i waker) ∨ (∃ i, act = .drop i) ∨
      ∃ i spurious, act = .sleep i spurious) :
    ∃ i a, s.sleeps[i]? = some a ∧ Moved s i a s' := by
  -- A poll and a drop find the sleep idle.
  obtain ⟨i, waker, rfl⟩ | ⟨i, rfl⟩ | ⟨i, spurious, rfl⟩ := hact
  · simp only [step] at h
    split at h
    · rename_i a hi
      split at h
      · rename_i k hpc hslot
        cases h
        exact ⟨i, a, hi, .quiet _ _ _ rfl rfl (by rw [hpc]; rfl) rfl (.inl rfl)⟩
      · rename_i hpc hslot
        cases h
        exact ⟨i, a, hi, .quiet _ _ _ rfl rfl (by rw [hpc]; rfl) rfl (.inl rfl)⟩
      · cases h
    · cases h
  · simp only [step] at h
    split at h
    · rename_i a hi
      split at h
      · rename_i hpc hslot
        cases h
        exact ⟨i, a, hi, .quiet _ _ _ rfl rfl (by rw [hpc]; rfl) rfl (.inl rfl)⟩
      · rename_i k hpc hslot
        split at h
        · cases h
        · -- An armed sleep is taken off the heap by its drop.
          rename_i registry hcancel
          cases h
          exact ⟨i, a, hi, .cancelled _ k registry rfl hcancel (by rw [hpc]; rfl) rfl⟩
      · cases h
    · cases h
  · simp only [step] at h
    split at h
    · rename_i a hi
      exact ⟨i, a, hi, sleepStep_moved h⟩
    · cases h

/-! ### The reactor that hosts the timers -/

/-- The poll will still lower the cache, or find it low. -/
def SleepPc.lowering : SleepPc → Bool
  | .nudge | .loadCache | .exchange _ => true
  | _ => false

namespace ReactorPc

/-- Outside of the cleared cache the entries have a limit. -/
def covered : ReactorPc → Bool
  | .swap _ | .fire _ => false
  | _ => true

/-- The limit is at or before `d`: the cache, or the deadline that is yet to be merged into
it. -/
def low (cache : Nat) (d : Nat) : ReactorPc → Prop
  | .wakeDue _ _ next | .fetchMin _ next => cache ≤ d ∨ next.getD noDeadline ≤ d
  | _ => cache ≤ d

/-- The reactor does not look at the cache again before it sleeps until this time. -/
def threshold : ReactorPc → Nat
  | .readClock deadline => deadline
  | .fire _ | .wakeDue _ _ _ | .fetchMin _ _ => noDeadline
  | .load now => now
  | .wait now (some bound) => now + bound
  | .wait _ none => noDeadline
  | .loadCache | .swap _ | .drain _ => 0

/-- The reading of the clock is not after what is merged into the cache. -/
def Ok : ReactorPc → Prop
  | .swap now | .fire now => now ≤ noDeadline
  | .wakeDue now _ next | .fetchMin now next => now ≤ min noDeadline (next.getD noDeadline)
  | _ => True

/-- The limit holds for all that is later. -/
theorem low_mono {pc : ReactorPc} {cache cache' d d' : Nat} (hc : cache' ≤ cache) (hd : d ≤ d')
    (h : pc.low cache d) : pc.low cache' d' := by
  cases pc <;> simp only [low] at h ⊢ <;> omega

/-- A cache at or before `d` is a limit. -/
theorem low_of_le {pc : ReactorPc} {cache d : Nat} (h : cache ≤ d) : pc.low cache d := by
  cases pc <;> simp only [low] <;> omega

end ReactorPc

/-- What the reactor relies on. Every entry is covered, and a cache below the time that it goes
to sleep for comes with a wake. -/
structure ReactorInv (s : State) : Prop where
  covered : s.reactor.covered = true →
    Covered (s.reactor.low s.cache) SleepPc.lowering s.registry.heap.entries s.sleeps
  wake : s.cache < s.reactor.threshold →
    s.wakePending = true ∨ ∃ a ∈ s.sleeps, a.pc = .wakePoller ∧ a.deadline ≤ s.cache
  ok : s.reactor.Ok

namespace ReactorInv

variable {s s' : State}

/-- Timers may be fired or dropped elsewhere. -/
theorem shrink (h : ReactorInv s) {registry : Registry}
    (hsub : registry.heap.entries ⊆ s.registry.heap.entries) :
    ReactorInv { s with registry } :=
  ⟨fun hc => (h.covered hc).mono hsub fun _ hl => hl, h.wake, h.ok⟩

/-- A sleep takes a step that leaves the cache and the wake alone. It does not leave the loop of
`timer_armed` before the cache is low. -/
theorem move (h : ReactorInv s) {i : Nat} {a a' : Sleep} (hi : s.sleeps[i]? = some a)
    (hd : a'.deadline = a.deadline)
    (hbusy : a.pc.lowering = true → a'.pc.lowering = true ∨ s.cache ≤ a.deadline)
    (hne : a.pc ≠ .wakePoller) : ReactorInv { s with sleeps := s.sleeps.set i a' } := by
  refine ⟨fun hc => ?_, fun hlt => ?_, h.ok⟩
  · refine (h.covered hc).move hi hd (fun _ hl => hl) fun hb => (hbusy hb).imp id ?_
    exact fun hle d hd => ReactorPc.low_of_le (Nat.le_trans hle hd)
  · rcases h.wake hlt with hw | ⟨b, hb, hpc, hbd⟩
    · exact .inl hw
    · rcases mem_set_of_mem hi a' hb with rfl | hb
      · exact absurd hpc hne
      · exact .inr ⟨b, hb, hpc, hbd⟩

/-- A sleep that is not in its announcement is not in the loop of `timer_armed`. -/
theorem quiet (h : ReactorInv s) {i : Nat} {a a' : Sleep} (hi : s.sleeps[i]? = some a)
    (hd : a'.deadline = a.deadline) (hpc : a.pc.announcing = false) :
    ReactorInv { s with sleeps := s.sleeps.set i a' } := by
  refine h.move hi hd (fun hb => ?_) fun hw => ?_
  · cases hp : a.pc <;> simp [hp, SleepPc.lowering, SleepPc.announcing] at hb hpc
  · simp [hw, SleepPc.announcing] at hpc

/-- A sleep is armed. -/
theorem armed (h : ReactorInv s) (hok : s.registry.Ok) {i : Nat} {a a' : Sleep} {waker : Waker}
    (hi : s.sleeps[i]? = some a) (hd : a'.deadline = a.deadline)
    (hpc : a.pc.announcing = false)
    (hpc' : a'.pc = if (s.registry.arm a.deadline waker).2 then .nudge else .idle) :
    ReactorInv { s with
      registry := (s.registry.arm a.deadline waker).1
      sleeps := s.sleeps.set i a' } := by
  obtain ⟨-, hsub, hearly⟩ := Registry.arm_spec hok a.deadline waker
  refine ⟨fun hc => ?_, (h.quiet hi hd hpc).wake, h.ok⟩
  refine (h.covered hc).arm (fun d d' hdd hl => ReactorPc.low_mono (Nat.le_refl _) hdd hl) hi hd
    ?_ hsub ?_
  · cases hp : a.pc <;> simp [hp, SleepPc.lowering, SleepPc.announcing] at hpc ⊢
  · cases he : (s.registry.arm a.deadline waker).2 with
    | true => exact .inl (by simp [hpc', he, SleepPc.lowering])
    | false => exact .inr (hearly he)

/-- The exchange lowers the cache, and a wake will follow. -/
theorem lowered (h : ReactorInv s) {i : Nat} {a a' : Sleep} (hi : s.sleeps[i]? = some a)
    (hd : a'.deadline = a.deadline) (hpc' : a'.pc = .wakePoller) (hlt : a.deadline < s.cache) :
    ReactorInv { s with cache := a.deadline, sleeps := s.sleeps.set i a' } := by
  refine ⟨fun hc => ?_, fun _ => .inr ⟨a', mem_set_of_some hi a', hpc', Nat.le_of_eq hd⟩, h.ok⟩
  refine (h.covered hc).move hi hd (fun d hl => ?_) fun _ => .inr fun d hle => ?_
  · exact ReactorPc.low_mono (Nat.le_of_lt hlt) (Nat.le_refl _) hl
  · exact ReactorPc.low_of_le hle

/-- The wake is made. -/
theorem woke (h : ReactorInv s) {i : Nat} {a a' : Sleep} (hi : s.sleeps[i]? = some a)
    (hd : a'.deadline = a.deadline) (hpc : a.pc = .wakePoller) :
    ReactorInv { s with wakePending := true, sleeps := s.sleeps.set i a' } := by
  refine ⟨fun hc => ?_, fun _ => .inl rfl, h.ok⟩
  exact (h.covered hc).move hi hd (fun _ hl => hl) fun hb => by simp [hpc, SleepPc.lowering] at hb

/-- Every step of a sleep keeps what the reactor relies on, while the timers are not the
dedicated thread's. -/
theorem moved (h : ReactorInv s) (hok : s.registry.Ok) {i : Nat} {a : Sleep}
    (hi : s.sleeps[i]? = some a)
    (hex : ∀ current, a.pc = .exchange current → a.deadline < current)
    (hm : Moved s i a s') (hhost : s'.host ≠ some .dedicated) : ReactorInv s' := by
  cases hm with
  -- One case per kind of move. Those that touch neither the heap nor the cache are quiet.
  | quiet a' slots driver hslots hd hpc hpc' hdriver =>
    have h' := h.quiet hi hd hpc
    exact ⟨h'.covered, h'.wake, h'.ok⟩
  | cancelled a' k registry hd hcancel hpc hpc' =>
    exact (h.quiet hi hd hpc).shrink (Registry.cancel_spec hok hcancel).2
  | armed a' waker hd hpc hpc' => exact h.armed hok hi hd hpc hpc'
  | dedicated a' hd hpc hpc' hh => exact absurd rfl hhost
  | hosted a' hd hpc hpc' hh =>
    have h' := h.move hi hd (fun _ => .inl (by rw [hpc']; rfl)) (by simp [hpc])
    exact ⟨h'.covered, h'.wake, h'.ok⟩
  -- The cache was seen low enough, so nothing is owed for this sleep.
  | passed a' hd hpc hpc' hcache =>
    exact h.move hi hd (fun _ => .inr hcache) (by rcases hpc with hp | ⟨_, hp⟩ <;> simp [hp])
  | tries a' hd hpc hpc' hcache =>
    exact h.move hi hd (fun _ => .inl (by rw [hpc']; rfl))
      (by rcases hpc with hp | ⟨_, hp⟩ <;> simp [hp])
  -- The cache now holds the deadline of this sleep.
  | lowered a' hd hpc hpc' => exact h.lowered hi hd hpc' (hex _ hpc)
  | woke a' hd hpc hpc' => exact h.woke hi hd hpc
  | started a' driver hd hpc hpc' hdriver =>
    have h' : ReactorInv { s with sleeps := s.sleeps.set i a' } :=
      h.move hi hd (by simp [hpc, SleepPc.lowering]) (by simp [hpc])
    exact ⟨h'.covered, h'.wake, h'.ok⟩
  | nudged a' hd hpc hpc' =>
    have h' : ReactorInv { s with sleeps := s.sleeps.set i a' } :=
      h.move hi hd (by simp [hpc, SleepPc.lowering]) (by simp [hpc])
    exact ⟨h'.covered, h'.wake, h'.ok⟩

/-- The lock section of `fire_due` gives the new limit. -/
theorem fired (h : ReactorInv s) (hok : s.registry.Ok) {now : Nat} (hpc : s.reactor = .fire now) :
    ReactorInv { s with
      registry := (s.registry.fireDue now).1
      reactor := .wakeDue now (s.registry.fireDue now).2.1 (s.registry.fireDue now).2.2 } := by
  have hnow : now ≤ noDeadline := by
    have := h.ok
    rwa [hpc] at this
  obtain ⟨-, -, hsome, hnone⟩ := Registry.fireDue_spec hok now
  cases hn : (s.registry.fireDue now).2.2 with
  | none =>
    refine ⟨fun _ e he => ?_, fun hlt => h.wake ?_, Nat.le_min.mpr ⟨hnow, hnow⟩⟩
    · simp [hnone hn] at he
    · rw [hpc]
      exact hlt
  | some d =>
    refine ⟨fun _ e he => .inl (.inr ((hsome d hn).2 e he)), fun hlt => h.wake ?_, ?_⟩
    · rw [hpc]
      exact hlt
    · exact Nat.le_min.mpr ⟨hnow, Nat.le_of_lt (hsome d hn).1⟩

/-- Every step of the reactor keeps what it relies on. -/
theorem reactorStep (h : ReactorInv s) (hok : s.registry.Ok) (sawWake : Bool) :
    ReactorInv (reactorStep s sawWake) := by
  obtain ⟨hcov, hwake, hpcok⟩ := h
  unfold Timers.reactorStep
  split
  -- The cache is loaded, and from here on it must not fall below what was read.
  · rename_i hpc
    rw [hpc] at hcov
    exact ⟨hcov, fun hlt => absurd hlt (Nat.lt_irrefl _), trivial⟩
  -- A deadline ahead goes straight to the wait. Otherwise the heap is asked.
  · rename_i deadline hpc
    rw [hpc] at hcov hwake
    simp only
    split
    · rename_i hlt
      refine ⟨hcov, fun hc => hwake ?_, trivial⟩
      simp only [ReactorPc.threshold] at hc ⊢
      omega
    · exact ⟨fun hc => by simp [ReactorPc.covered] at hc, fun hlt => absurd hlt (Nat.not_lt_zero _),
        Nat.min_le_right _ _⟩
  -- The swap clears the cache: nothing is covered until `fire_due` has run.
  · rename_i now hpc
    rw [hpc] at hpcok
    exact ⟨fun hc => by simp [ReactorPc.covered] at hc, fun hlt => absurd hlt (Nat.lt_irrefl _),
      hpcok⟩
  · rename_i now hpc
    exact fired ⟨hcov, hwake, hpcok⟩ hok hpc
  · rename_i now next hpc
    rw [hpc] at hcov hwake hpcok
    exact ⟨hcov, hwake, hpcok⟩
  · rename_i now waker due next hpc
    rw [hpc] at hcov hwake hpcok
    exact ⟨hcov, hwake, hpcok⟩
  -- `fetch_min` merges what `fire_due` reported with what was announced since the swap.
  · rename_i now next hpc
    rw [hpc] at hcov hwake hpcok
    refine ⟨fun _ => (hcov rfl).mono (fun _ he => he) fun d hl => ?_, fun hlt => ?_, trivial⟩
    · simp only [ReactorPc.low] at hl ⊢
      omega
    · -- What is merged is after `now`, so a cache below `now` was below it before.
      have hmin : min s.cache (next.getD noDeadline) = s.cache := by
        simp only [ReactorPc.threshold, ReactorPc.Ok] at hlt hpcok
        omega
      simp only [hmin, ReactorPc.threshold, ReactorPc.Ok] at hlt hwake hpcok ⊢
      exact hwake (by omega)
  -- The bound is what the last load saw.
  · rename_i now hpc
    rw [hpc] at hcov hwake
    refine ⟨hcov, fun hlt => hwake ?_, trivial⟩
    by_cases hno : s.cache = noDeadline
    · simp [hno, ReactorPc.threshold] at hlt
    · simp only [hno, if_false, ReactorPc.threshold] at hlt ⊢
      omega
  -- The end of a wait takes the wake, and the loop loads the cache next.
  · rename_i now bound hpc
    rw [hpc] at hcov
    exact ⟨hcov, fun hlt => absurd hlt (Nat.not_lt_zero _), trivial⟩
  · rename_i sawWake' hpc
    rw [hpc] at hcov
    exact ⟨hcov, fun hlt => absurd hlt (Nat.not_lt_zero _), trivial⟩

end ReactorInv

/-! ### The dedicated timer thread -/

/-- The poll will still set the flag. -/
def SleepPc.nudging : SleepPc → Bool
  | .nudge | .start | .setNudged => true
  | _ => false

/-- What the thread took from the heap, until it goes back to it. -/
def DriverPc.target : DriverPc → Option (Option Nat)
  | .wakeDue _ next | .lock next | .test next => some next
  | .readClockAgain deadline => some (some deadline)
  | .wait target => some target
  | .off | .readClock | .fire _ | .relock | .clear => none

/-- The flag is set, or the thread has a target at or before `d`. -/
def Nudged (nudged : Bool) (target : Option Nat) (d : Nat) : Prop :=
  nudged = true ∨ ∃ t, target = some t ∧ t ≤ d

/-- What the timer thread relies on: while it has a target, every entry is covered. -/
def DriverInv (s : State) : Prop :=
  ∀ target, s.driver.target = some target →
    Covered (Nudged s.nudged target) SleepPc.nudging s.registry.heap.entries s.sleeps

namespace DriverInv

variable {s s' : State}

/-- Without a target there is nothing to cover. -/
theorem of_none (h : s.driver.target = none) : DriverInv s :=
  fun target ht => by simp [h] at ht

/-- Timers may be fired or dropped elsewhere. -/
theorem shrink (h : DriverInv s) {registry : Registry}
    (hsub : registry.heap.entries ⊆ s.registry.heap.entries) : DriverInv { s with registry } :=
  fun target ht => (h target ht).mono hsub fun _ hl => hl

/-- A sleep takes a step that leaves the flag alone and does not leave the nudge. -/
theorem move (h : DriverInv s) {i : Nat} {a a' : Sleep} (hi : s.sleeps[i]? = some a)
    (hd : a'.deadline = a.deadline) (hbusy : a.pc.nudging = true → a'.pc.nudging = true) :
    DriverInv { s with sleeps := s.sleeps.set i a' } :=
  fun target ht => (h target ht).move hi hd (fun _ hl => hl) fun hb => .inl (hbusy hb)

/-- A sleep that is not in its announcement is not in the nudge. -/
theorem quiet (h : DriverInv s) {i : Nat} {a a' : Sleep} (hi : s.sleeps[i]? = some a)
    (hd : a'.deadline = a.deadline) (hpc : a.pc.announcing = false) :
    DriverInv { s with sleeps := s.sleeps.set i a' } := by
  refine h.move hi hd fun hb => ?_
  cases hp : a.pc <;> simp [hp, SleepPc.nudging, SleepPc.announcing] at hb hpc

/-- A sleep is armed. -/
theorem armed (h : DriverInv s) (hok : s.registry.Ok) {i : Nat} {a a' : Sleep} {waker : Waker}
    (hi : s.sleeps[i]? = some a) (hd : a'.deadline = a.deadline)
    (hpc : a.pc.announcing = false)
    (hpc' : a'.pc = if (s.registry.arm a.deadline waker).2 then .nudge else .idle) :
    DriverInv { s with
      registry := (s.registry.arm a.deadline waker).1
      sleeps := s.sleeps.set i a' } := by
  obtain ⟨-, hsub, hearly⟩ := Registry.arm_spec hok a.deadline waker
  intro target ht
  refine (h target ht).arm (fun d d' hdd hl => ?_) hi hd ?_ hsub ?_
  · exact hl.imp id fun ⟨t, htt, htd⟩ => ⟨t, htt, Nat.le_trans htd hdd⟩
  · cases hp : a.pc <;> simp [hp, SleepPc.nudging, SleepPc.announcing] at hpc ⊢
  · cases he : (s.registry.arm a.deadline waker).2 with
    | true => exact .inl (by simp [hpc', he, SleepPc.nudging])
    | false => exact .inr (hearly he)

/-- Every step of a sleep keeps what the timer thread relies on. -/
theorem moved (h : DriverInv s) (hok : s.registry.Ok)
    (hhost : s.driver ≠ .off → s.host = some .dedicated) {i : Nat} {a : Sleep}
    (hi : s.sleeps[i]? = some a) (hm : Moved s i a s') : DriverInv s' := by
  cases hm with
  | quiet a' slots driver hslots hd hpc hpc' hdriver =>
    -- The thread is where it was, or its wait was ended.
    rcases hdriver with rfl | ⟨rfl, -⟩
    · exact h.quiet hi hd hpc
    · exact of_none rfl
  | cancelled a' k registry hd hcancel hpc hpc' =>
    exact (h.quiet hi hd hpc).shrink (Registry.cancel_spec hok hcancel).2
  | armed a' waker hd hpc hpc' => exact h.armed hok hi hd hpc hpc'
  | dedicated a' hd hpc hpc' hh => exact h.move hi hd fun _ => by rw [hpc']; rfl
  | hosted a' hd hpc hpc' hh =>
    -- The thread has not been started.
    refine of_none ?_
    cases hdr : s.driver with
    | off => rfl
    | _ => simp [hdr, hh] at hhost
  | passed a' hd hpc hpc' hcache =>
    refine h.move hi hd fun hb => ?_
    rcases hpc with hp | ⟨_, hp⟩ <;> simp [hp, SleepPc.nudging] at hb
  | tries a' hd hpc hpc' hcache =>
    refine h.move hi hd fun hb => ?_
    rcases hpc with hp | ⟨_, hp⟩ <;> simp [hp, SleepPc.nudging] at hb
  | lowered a' hd hpc hpc' => exact h.move hi hd fun hb => by simp [hpc, SleepPc.nudging] at hb
  | woke a' hd hpc hpc' => exact h.move hi hd fun hb => by simp [hpc, SleepPc.nudging] at hb
  -- The thread that starts has not waited yet.
  | started a' driver hd hpc hpc' hdriver =>
    rcases hdriver with rfl | rfl
    · exact h.move hi hd fun _ => by rw [hpc']; rfl
    · exact of_none rfl
  -- The flag is set, so the wait ends.
  | nudged a' hd hpc hpc' =>
    exact fun target ht => (h target ht).move hi hd (fun _ _ => .inl rfl) fun _ =>
      .inr fun _ _ => .inl rfl

/-- The lock section of `poll` gives the thread its target. -/
theorem fired (hok : s.registry.Ok) (now : Nat) :
    DriverInv { s with
      registry := (s.registry.fireDue now).1
      driver := .wakeDue (s.registry.fireDue now).2.1 (s.registry.fireDue now).2.2 } := by
  obtain ⟨-, -, hsome, hnone⟩ := Registry.fireDue_spec hok now
  intro target ht e he
  have htarget : (s.registry.fireDue now).2.2 = target := Option.some.inj ht
  cases target with
  | none => simp [hnone htarget] at he
  | some d => exact .inl (.inr ⟨d, rfl, (hsome d htarget).2 e he⟩)

/-- Every step of the timer thread keeps what it relies on. -/
theorem driverStep (h : DriverInv s) (hok : s.registry.Ok) (hs : driverStep s = some s') :
    DriverInv s' := by
  unfold Timers.driverStep at hs
  split at hs
  · cases hs
  · cases hs
  · cases hs
    exact of_none rfl
  · -- The heap was drained at this reading, so what is left is later.
    rename_i now hpc
    cases hs
    exact fired hok now
  · rename_i next hpc
    cases hs
    exact fun target ht => h target (by rw [hpc]; exact ht)
  · rename_i waker due next hpc
    cases hs
    exact fun target ht => h target (by rw [hpc]; exact ht)
  · rename_i next hpc
    cases hs
    exact fun target ht => h target (by rw [hpc]; exact ht)
  -- The flag is set: it is cleared, and the thread goes back to the heap.
  · rename_i next hpc
    split at hs
    · cases hs
      exact of_none rfl
    · split at hs <;> cases hs
      · exact fun target ht => h target (by rw [hpc]; exact ht)
      · exact fun target ht => h target (by rw [hpc]; exact ht)
  · -- The deadline has passed, or the wait goes on until it.
    rename_i deadline hpc
    split at hs <;> cases hs
    · exact of_none rfl
    · exact fun target ht => h target (by rw [hpc]; exact ht)
  -- After a wait the flag is cleared, again on the way back to the heap.
  · cases hs
    exact of_none rfl
  · cases hs
    exact of_none rfl

end DriverInv

/-- The thread touches neither the sleeps nor the host. -/
theorem driverStep_frame {s s' : State} (hok : s.registry.Ok) (hs : driverStep s = some s') :
    s'.registry.Ok ∧ s'.registry.heap.entries ⊆ s.registry.heap.entries ∧
      s'.sleeps = s.sleeps ∧ s'.host = s.host := by
  unfold driverStep at hs
  split at hs
  case h_4 now _ =>
    cases hs
    obtain ⟨hok', hsub, -, -⟩ := Registry.fireDue_spec hok now
    exact ⟨hok', hsub, rfl, rfl⟩
  all_goals repeat' split at hs
  all_goals cases hs
  all_goals exact ⟨hok, fun _ he => he, rfl, rfl⟩

/-- The reactor touches neither the sleeps, nor the host, nor the thread. -/
theorem reactorStep_frame {s : State} (hok : s.registry.Ok) (sawWake : Bool) :
    (reactorStep s sawWake).registry.Ok ∧
      (reactorStep s sawWake).registry.heap.entries ⊆ s.registry.heap.entries ∧
      (reactorStep s sawWake).sleeps = s.sleeps ∧ (reactorStep s sawWake).host = s.host ∧
      (reactorStep s sawWake).driver = s.driver ∧ (reactorStep s sawWake).nudged = s.nudged := by
  unfold reactorStep
  split
  case h_4 now _ =>
    obtain ⟨hok', hsub, -, -⟩ := Registry.fireDue_spec hok now
    exact ⟨hok', hsub, rfl, rfl, rfl, rfl⟩
  case h_2 =>
    simp only
    split <;> exact ⟨hok, fun _ he => he, rfl, rfl, rfl, rfl⟩
  all_goals exact ⟨hok, fun _ he => he, rfl, rfl, rfl, rfl⟩

/-! ### The invariant -/

/-- The invariant of the timers. -/
structure Inv (s : State) : Prop where
  registry : s.registry.Ok
  /-- An exchange is tried only to lower the cache. -/
  exchange : ∀ a ∈ s.sleeps, ∀ current, a.pc = .exchange current → a.deadline < current
  /-- The timer thread is started only when it is the host. -/
  starting : ∀ a ∈ s.sleeps, a.pc = .start → s.host = some .dedicated
  started : s.driver ≠ .off → s.host = some .dedicated
  reactor : s.host ≠ some .dedicated → ReactorInv s
  driver : DriverInv s

/-- The registry is in order after every step of a sleep. -/
theorem Moved.registry_ok {s s' : State} {i : Nat} {a : Sleep} (hm : Moved s i a s')
    (hok : s.registry.Ok) : s'.registry.Ok := by
  cases hm with
  | quiet a' slots driver hslots hd hpc hpc' hdriver =>
    exact ⟨hok.heap, fun e he => hslots ▸ hok.slots e he⟩
  | cancelled a' k registry hd hcancel hpc hpc' => exact (Registry.cancel_spec hok hcancel).1
  | armed a' waker hd hpc hpc' => exact (Registry.arm_spec hok a.deadline waker).1
  | _ => exact hok

/-- A step of a sleep replaces it by one with the same deadline. -/
theorem Moved.sleeps_eq {s s' : State} {i : Nat} {a : Sleep} (hm : Moved s i a s') :
    ∃ a', s'.sleeps = s.sleeps.set i a' ∧ a'.deadline = a.deadline ∧
      (∀ current, a'.pc = .exchange current → a.deadline < current) ∧
      (a'.pc = .start → s'.host = some .dedicated) := by
  cases hm with
  | quiet a' slots driver hslots hd hpc hpc' hdriver =>
    exact ⟨a', rfl, hd, fun c hc => by simp [hc, SleepPc.announcing] at hpc',
      fun hc => by simp [hc, SleepPc.announcing] at hpc'⟩
  | cancelled a' k registry hd hcancel hpc hpc' =>
    exact ⟨a', rfl, hd, fun c hc => by simp [hc, SleepPc.announcing] at hpc',
      fun hc => by simp [hc, SleepPc.announcing] at hpc'⟩
  | armed a' waker hd hpc hpc' =>
    refine ⟨a', rfl, hd, fun c hc => ?_, fun hc => ?_⟩
    · rw [hc] at hpc'
      split at hpc' <;> cases hpc'
    · rw [hc] at hpc'
      split at hpc' <;> cases hpc'
  | dedicated a' hd hpc hpc' hh =>
    exact ⟨a', rfl, hd, fun c hc => by simp [hc] at hpc', fun _ => rfl⟩
  | tries a' hd hpc hpc' hcache =>
    refine ⟨a', rfl, hd, fun c hc => ?_, fun hc => by simp [hc] at hpc'⟩
    rw [hpc', SleepPc.exchange.injEq] at hc
    exact hc ▸ hcache
  | hosted a' hd hpc hpc' _ | passed a' hd hpc hpc' _ | lowered a' hd hpc hpc'
  | woke a' hd hpc hpc' | started a' _ hd hpc hpc' _ | nudged a' hd hpc hpc' =>
    exact ⟨a', rfl, hd, fun c hc => by simp [hc] at hpc', fun hc => by simp [hc] at hpc'⟩

/-- The host, once chosen, stays, and the thread is started only by a sleep of its host. -/
theorem Moved.host_eq {s s' : State} {i : Nat} {a : Sleep} (hm : Moved s i a s') :
    (s.host = some .dedicated → s'.host = some .dedicated) ∧
      (s'.driver ≠ .off → s.driver ≠ .off ∨ a.pc = .start) := by
  cases hm with
  | quiet a' slots driver hslots hd hpc hpc' hdriver =>
    refine ⟨id, fun hoff => .inl ?_⟩
    rcases hdriver with rfl | ⟨rfl, hne⟩
    · exact hoff
    · exact hne
  | dedicated a' hd hpc hpc' hh => exact ⟨fun _ => rfl, .inl⟩
  | hosted a' hd hpc hpc' hh => exact ⟨fun hdd => by simp [hh] at hdd, .inl⟩
  | started a' driver hd hpc hpc' hdriver => exact ⟨id, fun _ => .inr hpc⟩
  | _ => exact ⟨id, .inl⟩

namespace Inv

variable {s s' : State}

/-- Every step of a sleep keeps the invariant. -/
theorem moved (h : Inv s) {i : Nat} {a : Sleep} (hi : s.sleeps[i]? = some a)
    (hm : Moved s i a s') : Inv s' := by
  have ha : a ∈ s.sleeps := List.mem_of_getElem? hi
  obtain ⟨a', hsleeps, hd, hex, hst⟩ := hm.sleeps_eq
  obtain ⟨hhost, hoff⟩ := hm.host_eq
  refine ⟨hm.registry_ok h.registry, ?_, ?_, fun hne => ?_, fun hne => ?_, ?_⟩
  · intro b hb current hpc
    rw [hsleeps] at hb
    rcases List.mem_or_eq_of_mem_set hb with hb | rfl
    · exact h.exchange b hb current hpc
    · rw [hd]
      exact hex current hpc
  · intro b hb hpc
    rw [hsleeps] at hb
    rcases List.mem_or_eq_of_mem_set hb with hb | rfl
    · exact hhost (h.starting b hb hpc)
    · exact hst hpc
  · rcases hoff hne with hne | hpc
    · exact hhost (h.started hne)
    · exact hhost (h.starting a ha hpc)
  · exact (h.reactor fun hh => hne (hhost hh)).moved h.registry hi (h.exchange a ha) hm hne
  · exact h.driver.moved h.registry h.started hi hm

/-- Every step of the timer thread keeps the invariant. -/
theorem driverStep (h : Inv s) (hs : driverStep s = some s') : Inv s' := by
  have hdriver := h.driver.driverStep h.registry hs
  have hhost : s.host = some .dedicated := h.started fun hoff => by
    simp [Timers.driverStep, hoff] at hs
  obtain ⟨hok, -, hsleeps, hhost'⟩ := driverStep_frame h.registry hs
  have hded : s'.host = some .dedicated := hhost'.trans hhost
  exact ⟨hok, hsleeps ▸ h.exchange, fun _ _ _ => hded, fun _ => hded,
    fun hne => absurd hded hne, hdriver⟩

/-- Every step of the reactor keeps the invariant. -/
theorem reactorStep (h : Inv s) (sawWake : Bool) : Inv (reactorStep s sawWake) := by
  obtain ⟨hok, hsub, hsleeps, hhost, hdriver, hnudged⟩ := reactorStep_frame h.registry sawWake
  refine ⟨hok, hsleeps ▸ h.exchange, ?_, ?_, fun hne => ?_, ?_⟩
  · rw [hsleeps, hhost]
    exact h.starting
  · rw [hdriver, hhost]
    exact h.started
  · rw [hhost] at hne
    exact (h.reactor hne).reactorStep h.registry sawWake
  · intro target ht
    rw [hdriver] at ht
    rw [hnudged, hsleeps]
    exact (h.driver target ht).mono hsub fun _ hl => hl

/-- Timers may be fired by another reactor. -/
theorem shrink (h : Inv s) {registry : Registry} (hok : registry.Ok)
    (hsub : registry.heap.entries ⊆ s.registry.heap.entries) : Inv { s with registry } :=
  ⟨hok, h.exchange, h.starting, h.started, fun hne => (h.reactor hne).shrink hsub,
    h.driver.shrink hsub⟩

/-- A new sleep is not armed. -/
theorem sleepUntil (h : Inv s) (deadline : Nat) :
    Inv { s with
      sleeps := s.sleeps ++ [{ deadline, slot := none, pc := .idle, ready := none }] } := by
  refine ⟨h.registry, ?_, ?_, h.started, fun hne => ⟨fun hc => ?_, fun hlt => ?_, ?_⟩, ?_⟩
  · intro b hb current hpc
    rcases List.mem_append.mp hb with hb | hb
    · exact h.exchange b hb current hpc
    · obtain rfl := List.mem_singleton.mp hb
      cases hpc
  · intro b hb hpc
    rcases List.mem_append.mp hb with hb | hb
    · exact h.starting b hb hpc
    · obtain rfl := List.mem_singleton.mp hb
      cases hpc
  · exact ((h.reactor hne).covered hc).append _
  · rcases (h.reactor hne).wake hlt with hw | ⟨a, ha, hpc⟩
    · exact .inl hw
    · exact .inr ⟨a, List.mem_append_left _ ha, hpc⟩
  · exact (h.reactor hne).ok
  · exact fun target ht => (h.driver target ht).append _

/-- The first call of `set_timer_reactor` chooses the host, and the thread is not running. -/
theorem setTimerReactor (h : Inv s) : Inv { s with host := some (s.host.getD .reactor) } := by
  cases hh : s.host with
  | none =>
    refine ⟨h.registry, h.exchange, fun a ha hpc => ?_, fun hne => ?_, fun _ => ?_, h.driver⟩
    · have := h.starting a ha hpc
      simp [hh] at this
    · have := h.started hne
      simp [hh] at this
    · have hr := h.reactor (by simp [hh])
      exact ⟨hr.covered, hr.wake, hr.ok⟩
  | some host =>
    rw [Option.getD_some, ← hh]
    exact h

/-- Every step keeps the invariant. -/
theorem step {act : Action} (h : Inv s) (hs : step s act = some s') : Inv s' := by
  cases act with
  -- The invariant says nothing about the clock.
  | tick =>
    cases hs
    exact ⟨h.registry, h.exchange, h.starting, h.started,
      fun hne => ⟨(h.reactor hne).covered, (h.reactor hne).wake, (h.reactor hne).ok⟩, h.driver⟩
  | sleepUntil deadline =>
    cases hs
    exact h.sleepUntil deadline
  | setTimerReactor =>
    cases hs
    exact h.setTimerReactor
  -- The three actions of a sleep are moves.
  | poll i waker =>
    obtain ⟨i, a, hi, hm⟩ := step_moved hs (.inl ⟨i, waker, rfl⟩)
    exact h.moved hi hm
  | drop i =>
    obtain ⟨i, a, hi, hm⟩ := step_moved hs (.inr (.inl ⟨i, rfl⟩))
    exact h.moved hi hm
  | sleep i spurious =>
    obtain ⟨i, a, hi, hm⟩ := step_moved hs (.inr (.inr ⟨i, spurious, rfl⟩))
    exact h.moved hi hm
  | reactor sawWake =>
    cases hs
    exact h.reactorStep sawWake
  | driver => exact h.driverStep hs
  -- A wait that ends is followed by a look at the heap.
  | endWait =>
    simp only [Timers.step] at hs
    split at hs
    · rename_i target ht
      cases hs
      exact ⟨h.registry, h.exchange, h.starting, fun _ => h.started (by simp [ht]),
        fun hne => ⟨(h.reactor hne).covered, (h.reactor hne).wake, (h.reactor hne).ok⟩,
        .of_none rfl⟩
    · cases hs
  -- A driver of the program's own removes entries and adds none.
  | fireElsewhere now =>
    simp only [Timers.step] at hs
    split at hs
    · cases hs
      obtain ⟨hok, hsub, -, -⟩ := Registry.fireDue_spec h.registry now
      have h' := h.shrink hok hsub
      exact ⟨h'.registry, h'.exchange, h'.starting, h'.started,
        fun hne => ⟨(h'.reactor hne).covered, (h'.reactor hne).wake, (h'.reactor hne).ok⟩,
        h'.driver⟩
    · cases hs

/-- Nothing is armed at the start. -/
theorem new : Inv new := by
  have hsleeps : ∀ a, a ∉ Timers.new.sleeps := fun a ha => by cases ha
  have hentries : ∀ e, e ∉ Timers.new.registry.heap.entries := fun e he => by cases he
  refine ⟨⟨TimerHeap.empty_ok, fun e he => absurd he (hentries e)⟩,
    fun a ha => absurd ha (hsleeps a), fun a ha => absurd ha (hsleeps a),
    fun hne => absurd rfl hne, fun _ => ⟨?_, ?_, trivial⟩, .of_none rfl⟩
  · exact fun _ e he => absurd he (hentries e)
  · exact fun hlt => absurd hlt (Nat.not_lt_zero _)

end Inv

/-- The invariant holds in every state of every run. -/
theorem reachable_inv {s : State} (hr : system.Reachable s) : Inv s := by
  refine hr.invariant (fun s h0 => ?_) fun s a s' h hs => h.step hs
  rw [show s = new from h0]
  exact .new

/-! ### Deadlines below the sentinel -/

/-- The sleeps of a run are for deadlines below `u64::MAX`. -/
def BelowMax (_ : State) (act : Action) (_ : State) : Prop :=
  match act with
  | .sleepUntil deadline => deadline < noDeadline
  | _ => True

instance (s : State) (act : Action) (s' : State) : Decidable (BelowMax s act s') :=
  match act with
  | .sleepUntil deadline => inferInstanceAs (Decidable (deadline < noDeadline))
  | .tick | .setTimerReactor | .poll _ _ | .drop _ | .sleep _ _ | .reactor _ | .driver | .endWait
  | .fireElsewhere _ => isTrue trivial

/-- No deadline is the sentinel. -/
structure Bounded (s : State) : Prop where
  sleeps : ∀ a ∈ s.sleeps, a.deadline < noDeadline
  entries : ∀ e ∈ s.registry.heap.entries, e.deadline < noDeadline

/-- A step of a sleep adds no entry but its own. -/
theorem Moved.entries {s s' : State} {i : Nat} {a : Sleep} (hm : Moved s i a s')
    (hok : s.registry.Ok) (e : Entry) (he : e ∈ s'.registry.heap.entries) :
    e.deadline = a.deadline ∨ e ∈ s.registry.heap.entries := by
  cases hm with
  | cancelled a' k registry hd hcancel hpc hpc' =>
    exact .inr ((Registry.cancel_spec hok hcancel).2 he)
  | armed a' waker hd hpc hpc' => exact (Registry.arm_spec hok a.deadline waker).2.1 e he
  | _ => exact .inr he

namespace Bounded

variable {s s' : State}

/-- Entries may leave. -/
theorem shrink (h : Bounded s) (hsleeps : s'.sleeps = s.sleeps)
    (hsub : s'.registry.heap.entries ⊆ s.registry.heap.entries) : Bounded s' :=
  ⟨hsleeps ▸ h.sleeps, fun e he => h.entries e (hsub he)⟩

/-- A step of a sleep keeps its deadline. -/
theorem moved (h : Bounded s) (hok : s.registry.Ok) {i : Nat} {a : Sleep}
    (hi : s.sleeps[i]? = some a) (hm : Moved s i a s') : Bounded s' := by
  have ha := h.sleeps a (List.mem_of_getElem? hi)
  obtain ⟨a', hsleeps, hd, -, -⟩ := hm.sleeps_eq
  constructor
  · intro b hb
    rw [hsleeps] at hb
    rcases List.mem_or_eq_of_mem_set hb with hb | rfl
    · exact h.sleeps b hb
    · omega
  · intro e he
    rcases hm.entries hok e he with hed | he
    · omega
    · exact h.entries e he

/-- Every step of a run with deadlines below the sentinel keeps them there. -/
theorem step {act : Action} (h : Bounded s) (hok : s.registry.Ok) (hs : step s act = some s')
    (hact : BelowMax s act s') : Bounded s' := by
  cases act with
  | tick | setTimerReactor =>
    cases hs
    exact h.shrink rfl fun _ he => he
  -- The deadline of a new sleep is below the maximum by the side condition.
  | sleepUntil deadline =>
    cases hs
    refine ⟨fun a ha => ?_, h.entries⟩
    rcases List.mem_append.mp ha with ha | ha
    · exact h.sleeps a ha
    · obtain rfl := List.mem_singleton.mp ha
      exact hact
  -- No step of a sleep adds an entry with another deadline than its own.
  | poll i waker =>
    obtain ⟨i, a, hi, hm⟩ := step_moved hs (.inl ⟨i, waker, rfl⟩)
    exact h.moved hok hi hm
  | drop i =>
    obtain ⟨i, a, hi, hm⟩ := step_moved hs (.inr (.inl ⟨i, rfl⟩))
    exact h.moved hok hi hm
  | sleep i spurious =>
    obtain ⟨i, a, hi, hm⟩ := step_moved hs (.inr (.inr ⟨i, spurious, rfl⟩))
    exact h.moved hok hi hm
  | reactor sawWake =>
    cases hs
    obtain ⟨-, hsub, hsleeps, -⟩ := reactorStep_frame hok sawWake
    exact h.shrink hsleeps hsub
  | driver =>
    obtain ⟨-, hsub, hsleeps, -⟩ := driverStep_frame hok hs
    exact h.shrink hsleeps hsub
  | endWait =>
    simp only [Timers.step] at hs
    split at hs <;> cases hs
    exact h.shrink rfl fun _ he => he
  | fireElsewhere now =>
    simp only [Timers.step] at hs
    split at hs <;> cases hs
    exact h.shrink rfl (Registry.fireDue_spec hok now).2.1

end Bounded

/-- In a run with deadlines below the sentinel every entry is below it. -/
theorem reach_bounded {s : State} (hr : system.Reach BelowMax s) : Bounded s := by
  have h : Inv s ∧ Bounded s := by
    refine hr.invariant (P := fun s => Inv s ∧ Bounded s) (fun s h0 => ?_)
      fun s a s' h hs hact => ?_
    · rw [show s = new from h0]
      exact ⟨.new, ⟨by simp [new], by simp [new, TimerHeap.empty]⟩⟩
    · exact ⟨h.1.step hs, h.2.step h.1.registry hs hact⟩
  exact h.2

/-! ### The hosts never sleep past a timer -/

/-- The poll has armed the sleep, and its `timer_armed` call has not finished. -/
def SleepPc.inTimerArmed : SleepPc → Bool
  | .nudge | .loadCache | .exchange _ | .wakePoller => true
  | _ => false

/-- The poll has armed the sleep, and its `nudge` of the timer thread has not finished. -/
def SleepPc.inNudge : SleepPc → Bool
  | .nudge | .start | .setNudged | .notify => true
  | _ => false

/-- While the hosting reactor is blocked, every entry is at or after the end of its wait, or a
wake is pending, or a sleep not after the entry is still in its `timer_armed` call. -/
theorem reactor_wait_covers {s : State} (hr : system.Reach BelowMax s)
    (hhost : s.host = some .reactor) {now : Nat} {bound : Option Nat}
    (hwait : s.reactor = .wait now bound) :
    ∀ e ∈ s.registry.heap.entries,
      (∃ b, bound = some b ∧ now + b ≤ e.deadline) ∨ s.wakePending = true ∨
        ∃ a ∈ s.sleeps, a.pc.inTimerArmed = true ∧ a.deadline ≤ e.deadline := by
  intro e he
  have hinv : ReactorInv s := (reachable_inv hr.reachable).reactor (by simp [hhost])
  have hmax : e.deadline < noDeadline := (reach_bounded hr).entries e he
  obtain ⟨hcov, hwake, -⟩ := hinv
  rw [hwait] at hcov hwake
  rcases hcov rfl e he with hlow | ⟨a, ha, hpc, hle⟩
  · have hlow : s.cache ≤ e.deadline := hlow
    by_cases hlt : s.cache < (ReactorPc.wait now bound).threshold
    · -- The cache was lowered after the reactor read it.
      rcases hwake hlt with hw | ⟨a, ha, hpc, hle⟩
      · exact .inr (.inl hw)
      · exact .inr (.inr ⟨a, ha, by rw [hpc]; rfl, Nat.le_trans hle hlow⟩)
    · cases bound with
      | none =>
        simp only [ReactorPc.threshold] at hlt
        omega
      | some b =>
        simp only [ReactorPc.threshold] at hlt
        exact .inl ⟨b, rfl, by omega⟩
  · refine .inr (.inr ⟨a, ha, ?_, hle⟩)
    cases hp : a.pc <;> simp [hp, SleepPc.lowering, SleepPc.inTimerArmed] at hpc ⊢

/-- A sleep until 5 is announced, and the reactor takes the wake and blocks until 5. A sleep until
3 is armed and not yet announced. -/
theorem reactor_wait_covers_two_sleeps :
    ∃ s, system.Reach BelowMax s ∧ s.reactor = .wait 0 (some 5) ∧ s.wakePending = false ∧
      s.registry.heap.entries.map Entry.deadline = [3, 5] ∧
      ∀ e ∈ s.registry.heap.entries, 5 ≤ e.deadline ∨
        ∃ a ∈ s.sleeps, a.pc.inTimerArmed = true ∧ a.deadline ≤ e.deadline := by
  obtain ⟨s, hr, hp⟩ := Lts.Reach.exists_of_runWhere (M := system) (s := new) BelowMax
    [.setTimerReactor, .sleepUntil 5, .poll 0 7, .sleep 0 false, .sleep 0 false, .sleep 0 false,
      .sleep 0 false, .sleep 0 false, .sleep 0 false,
      .reactor false, .reactor false, .reactor true, .reactor false, .reactor false, .reactor false,
      .sleepUntil 3, .poll 1 8, .sleep 1 false, .sleep 1 false]
    (fun s => s.host = some .reactor ∧ s.reactor = .wait 0 (some 5) ∧ s.wakePending = false ∧
      s.registry.heap.entries.map Entry.deadline = [3, 5]) rfl (by decide)
  obtain ⟨hhost, hwait, hwake, hentries⟩ : s.host = some .reactor ∧
      s.reactor = .wait 0 (some 5) ∧ s.wakePending = false ∧
      s.registry.heap.entries.map Entry.deadline = [3, 5] := by
    simpa using hp
  refine ⟨s, hr, hwait, hwake, hentries, fun e he => ?_⟩
  rcases reactor_wait_covers hr hhost hwait e he with ⟨b, hb, hle⟩ | hw | ha
  · cases hb
    exact .inl (by omega)
  · simp [hwake] at hw
  · exact .inr ha

/-- While the timer thread is blocked and the flag is clear, every entry is at or after its
target, or a sleep not after the entry is still in its nudge. -/
theorem driver_wait_covers {s : State} (hr : system.Reachable s) {target : Option Nat}
    (hwait : s.driver = .wait target) (hnudged : s.nudged = false) :
    ∀ e ∈ s.registry.heap.entries,
      (∃ d, target = some d ∧ d ≤ e.deadline) ∨
        ∃ a ∈ s.sleeps, a.pc.inNudge = true ∧ a.deadline ≤ e.deadline := by
  intro e he
  rcases (reachable_inv hr).driver target (by rw [hwait]; rfl) e he with hlow | ⟨a, ha, hpc, hle⟩
  · rcases hlow with hn | ht
    · simp [hnudged] at hn
    · exact .inl ht
  · refine .inr ⟨a, ha, ?_, hle⟩
    cases hp : a.pc <;> simp [hp, SleepPc.nudging, SleepPc.inNudge] at hpc ⊢

/-- The thread is started by a sleep until 5 and blocks with 5 as its target. A sleep until 3 is
armed and not yet announced. -/
theorem driver_wait_covers_two_sleeps :
    ∃ s, system.Reachable s ∧ s.driver = .wait (some 5) ∧ s.nudged = false ∧
      s.registry.heap.entries.map Entry.deadline = [3, 5] ∧
      ∀ e ∈ s.registry.heap.entries, 5 ≤ e.deadline ∨
        ∃ a ∈ s.sleeps, a.pc.inNudge = true ∧ a.deadline ≤ e.deadline := by
  obtain ⟨s, hr, hp⟩ := Lts.Reachable.exists_of_run (M := system) (s := new)
    [.sleepUntil 5, .poll 0 7, .sleep 0 false, .sleep 0 false, .sleep 0 false, .sleep 0 false,
      .sleep 0 false, .sleep 0 false,
      -- The first pass sees the nudge, and the second blocks.
      .driver, .driver, .driver, .driver, .driver,
      .driver, .driver, .driver, .driver, .driver, .driver,
      .sleepUntil 3, .poll 1 8, .sleep 1 false, .sleep 1 false]
    (fun s => s.driver = .wait (some 5) ∧ s.nudged = false ∧
      s.registry.heap.entries.map Entry.deadline = [3, 5]) rfl (by decide)
  obtain ⟨hwait, hnudged, hentries⟩ : s.driver = .wait (some 5) ∧ s.nudged = false ∧
      s.registry.heap.entries.map Entry.deadline = [3, 5] := by
    simpa using hp
  refine ⟨s, hr, hwait, hnudged, hentries, fun e he => ?_⟩
  rcases driver_wait_covers hr hwait hnudged e he with ⟨d, hd, hle⟩ | ha
  · cases hd
    exact .inl hle
  · exact .inr ha

end Timers

end Nagoya.Time
