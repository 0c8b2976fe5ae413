import Nagoya.Proofs.Time.Timers
import Nagoya.Reactor.PollOnce

/-!
# `Nagoya.Proofs.Reactor.PollOnce`: how long `poll_once_timeout` lets the poller wait

What `fire_due` leaves in the heap is the entries after `now`, and it wakes somebody exactly when
an entry that is due has a waker in its slot (`fireDue_left`, `fireDue_woken`). So everything that
the call computes is a function of the state before it, and the timeout is compared with the one
that was asked for.

The cap is documented in milliseconds and used in nanoseconds. The two agree when there is no cap,
and when the first deadline comes before both of them.
-/

set_option autoImplicit false

namespace Nagoya

open Nagoya.Lib

namespace Time.Registry

/-! ### What `fire_due` leaves and wakes -/

/-- A timer that is due has a waker. -/
def DueWaker (r : Registry) (now : Nat) : Prop :=
  ∃ e ∈ r.heap.entries, e.deadline ≤ now ∧ ∃ slot w, r.slots[e.slot]? = some slot ∧
    slot.waker = some w

/-- The first deadline of the entries. -/
def earliest (entries : List Entry) : Option Nat := (entries.map Entry.deadline).min?

/-- The entries that are not due. -/
def later (r : Registry) (now : Nat) : List Entry :=
  r.heap.entries.filter fun e => now < e.deadline

/-- The top of the heap has the first deadline. -/
theorem earliest_eq_peek {r : Registry} (hok : Ok r) :
    earliest r.heap.entries = r.heap.peek.map Entry.deadline := by
  unfold earliest
  cases hp : r.heap.peek with
  | none => rw [TimerHeap.peek_eq_none.mp hp]; rfl
  | some e =>
    rw [Option.map_some, List.min?_eq_some_iff]
    refine ⟨List.mem_map_of_mem (TimerHeap.peek_mem hp), fun d hd => ?_⟩
    obtain ⟨f, hf, rfl⟩ := List.mem_map.mp hd
    exact hok.heap.peek_le hp f hf

/-- When the first entry is not due, none is. -/
theorem not_due {r : Registry} (now : Nat) (h : ∀ e ∈ r.heap.entries, now < e.deadline) :
    r.later now = r.heap.entries ∧ ¬ r.DueWaker now := by
  constructor
  · exact List.filter_eq_self.mpr fun e he => decide_eq_true (h e he)
  · rintro ⟨e, he, hdue, -⟩
    exact absurd (h e he) (Nat.not_lt.mpr hdue)

/-- The entry that is popped takes its own waker with it, and no other. -/
theorem dueWaker_pop {r : Registry} (hok : Ok r) {now : Nat} {e : Entry}
    (hdue : e.deadline ≤ now) {heap : TimerHeap} (hperm : (e :: heap.entries).Perm r.heap.entries)
    {slot : Slot} (hslot : r.slots[e.slot]? = some slot) :
    r.DueWaker now ↔ slot.waker ≠ none ∨
      DueWaker { r with
        heap, slots := r.slots.set e.slot { fired := true, waker := none } } now := by
  have hnodup : ((e :: heap.entries).map Entry.slot).Nodup :=
    (hperm.map Entry.slot).nodup_iff.mpr hok.heap.indexed.nodup
  rw [List.map_cons, List.nodup_cons] at hnodup
  have hother : ∀ f ∈ heap.entries,
      (r.slots.set e.slot { fired := true, waker := none })[f.slot]? = r.slots[f.slot]? := by
    intro f hf
    have hne : f.slot ≠ e.slot := fun hs => hnodup.1 (hs ▸ List.mem_map_of_mem hf)
    rw [getElem?_set_of_some hslot, if_neg hne]
  constructor
  · rintro ⟨f, hf, hfdue, slot', w, hs, hw⟩
    rcases List.mem_cons.mp (hperm.symm.subset hf) with rfl | hf
    · left
      rw [hslot, Option.some.injEq] at hs
      rw [hs, hw]
      exact Option.some_ne_none w
    · exact .inr ⟨f, hf, hfdue, slot', w, (hother f hf).trans hs, hw⟩
  · rintro (hw | ⟨f, hf, hfdue, slot', w, hs, hw⟩)
    · obtain ⟨w, hw⟩ := Option.ne_none_iff_exists'.mp hw
      exact ⟨e, hperm.subset List.mem_cons_self, hdue, slot, w, hslot, hw⟩
    · exact ⟨f, hperm.subset (List.mem_cons_of_mem _ hf), hfdue, slot', w,
        (hother f hf).symm.trans hs, hw⟩

/-- The loop of `fire_due` leaves the entries that are not due, and it takes a waker when one that
is due has one. -/
theorem fireLoop_exact (now fuel : Nat) (r : Registry) (due : List Waker) (hok : Ok r)
    (hfuel : r.heap.entries.length ≤ fuel) :
    (fireLoop now fuel r due).1.heap.entries.Perm (r.later now) ∧
      ((fireLoop now fuel r due).2 ≠ [] ↔ due ≠ [] ∨ r.DueWaker now) := by
  induction fuel generalizing r due with
  | zero =>
    have hnil : r.heap.entries = [] := List.eq_nil_of_length_eq_zero (by omega)
    obtain ⟨hlater, hnone⟩ := not_due (r := r) now (by rw [hnil]; exact nofun)
    exact ⟨.of_eq hlater.symm, (or_iff_left hnone).symm⟩
  | succ fuel ih =>
    unfold fireLoop
    split
    · rename_i hp
      obtain ⟨hlater, hnone⟩ := not_due (r := r) now
        (by rw [TimerHeap.peek_eq_none.mp hp]; exact nofun)
      exact ⟨.of_eq hlater.symm, (or_iff_left hnone).symm⟩
    · rename_i entry hp
      split
      · rename_i hlt
        obtain ⟨hlater, hnone⟩ := not_due now fun e he =>
          Nat.lt_of_lt_of_le hlt (hok.heap.peek_le hp e he)
        exact ⟨.of_eq hlater.symm, (or_iff_left hnone).symm⟩
      · rename_i hlt
        -- The top is due, so it is popped, and the rest is fired in the same way.
        obtain ⟨heap, hpop, hheap, hperm⟩ := TimerHeap.pop_spec hok.heap hp
        have hsub : heap.entries ⊆ r.heap.entries := fun e he =>
          hperm.subset (List.mem_cons_of_mem _ he)
        have hlen : heap.entries.length ≤ fuel := by
          have := hperm.length_eq
          rw [List.length_cons] at this
          omega
        obtain ⟨slot, hslot⟩ : ∃ slot, r.slots[entry.slot]? = some slot :=
          ⟨_, List.getElem?_eq_getElem (hok.slots entry (TimerHeap.peek_mem hp))⟩
        simp only [hpop, hslot]
        obtain ⟨hleft, hwoken⟩ := ih { r with
          heap
          slots := r.slots.set entry.slot { fired := true, waker := none } }
          (due ++ slot.waker.toList)
          ⟨hheap, fun e he => by simpa using hok.slots e (hsub he)⟩ hlen
        constructor
        · refine hleft.trans ?_
          have hfilter := hperm.filter fun e => now < e.deadline
          rwa [List.filter_cons_of_neg (by simpa using hlt)] at hfilter
        · rw [hwoken, dueWaker_pop hok (Nat.not_lt.mp hlt) hperm hslot, ← or_assoc]
          refine or_congr_left ?_
          cases slot.waker <;> simp

/-- `fire_due` leaves the entries that are not due, and it reports the first deadline of them. -/
theorem fireDue_left {r : Registry} (hok : Ok r) (now : Nat) :
    (r.fireDue now).1.heap.entries.Perm (r.later now) ∧
      (r.fireDue now).2.2 = earliest (r.later now) := by
  have hleft := (fireLoop_exact now r.heap.entries.length r [] hok (Nat.le_refl _)).1
  refine ⟨hleft, ?_⟩
  rw [earliest, ← min_deadline_perm hleft]
  exact (earliest_eq_peek (fireDue_spec hok now).1).symm

/-- `fire_due` wakes somebody exactly when a timer that is due has a waker. -/
theorem fireDue_woken {r : Registry} (hok : Ok r) (now : Nat) :
    (r.fireDue now).2.1 ≠ [] ↔ r.DueWaker now :=
  (fireLoop_exact now r.heap.entries.length r [] hok (Nat.le_refl _)).2.trans
    (or_iff_right (not_not_intro rfl))

end Time.Registry

namespace Reactor.PollOnce

open Nagoya.Time
open Nagoya.Time.Registry (earliest)
open Nagoya.Time.Timers (noDeadline)
open Nagoya.Reactor.BlockOn (pollTimeout)

/-! ### The timeout -/

/-- The state before a call. The deadlines are `u64`, and the cached one is none or the first. -/
structure Valid (s : State) : Prop where
  registry : s.registry.Ok
  deadlines : ∀ e ∈ s.registry.heap.entries, e.deadline ≤ noDeadline
  cached : s.nextDeadline = noDeadline ∨
    earliest s.registry.heap.entries = some s.nextDeadline

/-- The timeout is the one that was asked for. It is zero when the cap is, and when the call
fires a waker. Otherwise it is the lesser of the cap, which counts in milliseconds, and the time
up to the first deadline that the call leaves. -/
def WaitsAsAsked (s : State) (cap : Option Nat) (now : Nat) : Prop :=
  let serviced := pollOnceTimeout s cap now
  serviced.timeout =
    if cap = some 0 ∨ serviced.woken ≠ [] then some 0
    else
      Option.merge min (cap.map fun ms => ms * 1000000)
        ((earliest serviced.state.registry.heap.entries).map fun deadline => deadline - now)

/-- The cap means the same in nanoseconds as in milliseconds, for a wait up to the first of the
later deadlines. A deadline of `u64::MAX` is taken for none. -/
def CapAgrees (cap : Option Nat) (now : Nat) : Option Nat → Prop
  | none => cap = none
  | some deadline =>
    if deadline = noDeadline then cap = some (noDeadline - now)
    else ∀ ns, cap = some ns → deadline - now ≤ ns

/-- When the wait is as asked. -/
def Exact (s : State) (cap : Option Nat) (now : Nat) : Prop :=
  cap = some 0 ∨ s.registry.DueWaker now ∨ CapAgrees cap now (earliest (s.registry.later now))

/-- `service_timers` when the cached deadline is not due. -/
theorem serviceTimers_of_cached {s : State} {now : Nat}
    (h : s.nextDeadline ≠ noDeadline ∧ now < s.nextDeadline) :
    serviceTimers s now =
      { state := s, woken := [], timeout := some (s.nextDeadline - now) } :=
  if_pos h

/-- `service_timers` when there is no cached deadline, or it is due. -/
theorem serviceTimers_of_due {s : State} {now : Nat}
    (h : ¬ (s.nextDeadline ≠ noDeadline ∧ now < s.nextDeadline)) {cached : Nat}
    (hcached : min noDeadline ((s.registry.fireDue now).2.2.getD noDeadline) = cached) :
    serviceTimers s now =
      { state := { registry := (s.registry.fireDue now).1, nextDeadline := cached }
        woken := (s.registry.fireDue now).2.1
        timeout := if cached ≠ noDeadline then some (cached - now) else none } := by
  subst hcached
  exact if_neg h

/-- `service_timers` fires what is due. It returns the time up to the first deadline that is left,
unless that deadline is `u64::MAX`. -/
theorem serviceTimers_spec {s : State} (h : Valid s) (now : Nat) :
    ((serviceTimers s now).woken ≠ [] ↔ s.registry.DueWaker now) ∧
      earliest (serviceTimers s now).state.registry.heap.entries =
        earliest (s.registry.later now) ∧
      (serviceTimers s now).timeout =
        ((earliest (s.registry.later now)).filter (· ≠ noDeadline)).map (· - now) := by
  by_cases hcached : s.nextDeadline ≠ noDeadline ∧ now < s.nextDeadline
  · -- The cached deadline is the first one, so nothing is due.
    have hfirst := h.cached.resolve_left hcached.1
    have hlater : ∀ e ∈ s.registry.heap.entries, now < e.deadline := by
      intro e he
      have hmin := (List.min?_eq_some_iff.mp hfirst).2 _ (List.mem_map_of_mem he)
      exact Nat.lt_of_lt_of_le hcached.2 hmin
    obtain ⟨heq, hnone⟩ := Registry.not_due now hlater
    rw [serviceTimers_of_cached hcached, heq]
    refine ⟨iff_of_false (not_not_intro rfl) hnone, rfl, ?_⟩
    rw [hfirst, Option.filter_some, if_pos (decide_eq_true hcached.1)]
    rfl
  · obtain ⟨hleft, hnext⟩ := Registry.fireDue_left h.registry now
    rw [serviceTimers_of_due hcached rfl, hnext]
    refine ⟨Registry.fireDue_woken h.registry now, min_deadline_perm hleft, ?_⟩
    cases hd : earliest (s.registry.later now) with
    | none => rfl
    | some d =>
      have hle : d ≤ noDeadline := by
        obtain ⟨e, he, rfl⟩ := List.mem_map.mp (List.min?_eq_some_iff.mp hd).1
        exact h.deadlines e (List.mem_filter.mp he).1
      rw [Option.getD_some, Nat.min_eq_right hle, Option.filter_some]
      by_cases hmax : d = noDeadline
      · rw [if_neg (not_not_intro hmax), if_neg (by simpa using hmax)]
        rfl
      · rw [if_pos hmax, if_pos (by simpa using hmax)]
        rfl

/-- The deadlines that are left are after `now`. -/
theorem lt_of_later {r : Registry} {now d : Nat} (h : earliest (r.later now) = some d) :
    now < d := by
  obtain ⟨e, he, rfl⟩ := List.mem_map.mp (List.min?_eq_some_iff.mp h).1
  simpa using (List.mem_filter.mp he).2

/-- The match in `poll_once_timeout` and the one that was asked for, when nothing fired. -/
theorem pollTimeout_eq_iff {cap : Option Nat} (hcap : cap ≠ some 0) {now : Nat}
    {first : Option Nat} (hfirst : ∀ d, first = some d → now < d) :
    pollTimeout cap ((first.filter (· ≠ noDeadline)).map (· - now)) false =
        Option.merge min (cap.map fun ms => ms * 1000000)
          (first.map fun deadline => deadline - now) ↔
      CapAgrees cap now first := by
  cases cap with
  | none =>
    cases first with
    | none => exact iff_of_true rfl rfl
    | some d =>
      by_cases hmax : d = noDeadline
      · simp [pollTimeout, CapAgrees, hmax]
      · simp [pollTimeout, CapAgrees, hmax]
  | some c =>
    have hpos : 0 < c := Nat.pos_of_ne_zero fun hz => hcap (congrArg some hz)
    cases first with
    | none =>
      show some c = some (c * 1000000) ↔ some c = none
      simp only [Option.some.injEq, reduceCtorEq, iff_false]
      omega
    | some d =>
      have hlt := hfirst d rfl
      by_cases hmax : d = noDeadline
      · subst hmax
        show some c = some (min (c * 1000000) (noDeadline - now)) ↔
          some c = some (noDeadline - now)
        simp only [Option.some.injEq]
        omega
      · have hfilter : (some d).filter (· ≠ noDeadline) = some d := by
          rw [Option.filter_some, if_pos (by simpa using hmax)]
        rw [hfilter, CapAgrees, if_neg hmax]
        show some (min c (d - now)) = some (min (c * 1000000) (d - now)) ↔ _
        simp only [Option.some.injEq, forall_eq']
        omega

/-- A call with a cap that is not zero asks `service_timers`. -/
theorem pollOnceTimeout_of_ne {s : State} {cap : Option Nat} (h : cap ≠ some 0) (now : Nat) :
    pollOnceTimeout s cap now =
      { serviceTimers s now with
        timeout := pollTimeout cap (serviceTimers s now).timeout
          (!(serviceTimers s now).woken.isEmpty) } := by
  unfold pollOnceTimeout
  split
  · exact absurd rfl h
  · rfl

/-- When a call of `poll_once_timeout` waits as long as it was asked to. For every heap of pending
timers, every cached deadline that is none or the first one of the heap, every cap and every
reading of the clock, the timeout that the poller is given is the documented one exactly when
`Exact` holds of the state before the call. -/
theorem waitsAsAsked_iff {s : State} (h : Valid s) (cap : Option Nat) (now : Nat) :
    WaitsAsAsked s cap now ↔ Exact s cap now := by
  by_cases hcap : cap = some 0
  · subst hcap
    exact iff_of_true (if_pos (.inl rfl)).symm (.inl rfl)
  · obtain ⟨hwoken, hleft, htimeout⟩ := serviceTimers_spec h now
    unfold WaitsAsAsked Exact
    rw [pollOnceTimeout_of_ne hcap]
    by_cases hdue : s.registry.DueWaker now
    · have hne := hwoken.mpr hdue
      refine iff_of_true ?_ (.inr (.inl hdue))
      show pollTimeout cap _ (!(serviceTimers s now).woken.isEmpty) = _
      rw [if_pos (.inr hne), List.isEmpty_eq_false_iff.mpr hne]
      rfl
    · have hnil : (serviceTimers s now).woken = [] := by
        by_contra hne
        exact hdue (hwoken.mp hne)
      show pollTimeout cap _ (!(serviceTimers s now).woken.isEmpty) = _ ↔ _
      rw [if_neg (by simp [hcap, hnil]), or_iff_right hcap, or_iff_right hdue, hleft, htimeout,
        hnil]
      exact pollTimeout_eq_iff hcap fun d => lt_of_later

/-- One timer, two milliseconds after the start of the clock. -/
def oneTimer : State where
  registry :=
    { heap := TimerHeap.empty.push { deadline := 2000000, seq := 0, slot := 0 }
      seq := 1
      slots := [{ fired := false, waker := some 7 }] }
  nextDeadline := 2000000

/-- A registry with one timer is what the reactor can have. -/
theorem oneTimer_valid : Valid oneTimer := by
  obtain ⟨hheap, hperm⟩ := TimerHeap.push_spec TimerHeap.empty_ok
    (e := { deadline := 2000000, seq := 0, slot := 0 }) rfl
  have hentries : ∀ e ∈ oneTimer.registry.heap.entries, e.slot = 0 ∧ e.deadline = 2000000 := by
    intro e he
    obtain rfl := List.mem_singleton.mp (hperm.subset he)
    exact ⟨rfl, rfl⟩
  refine ⟨⟨hheap, fun e he => ?_⟩, fun e he => ?_, .inr (by decide)⟩
  · rw [(hentries e he).1]
    exact Nat.one_pos
  · rw [(hentries e he).2]
    decide

/-- Without a cap the call waits for the timer. -/
theorem waitsAsAsked_oneTimer : WaitsAsAsked oneTimer none 0 := by
  refine (waitsAsAsked_iff oneTimer_valid none 0).mpr (.inr (.inr ?_))
  intro ns h
  cases h

/-- No timer. -/
def noTimer : State where
  registry := { heap := .empty, seq := 0, slots := [] }
  nextDeadline := noDeadline

/-- A cap of five milliseconds, and no timer: the poller is given five nanoseconds, for which
`epoll_wait` waits one millisecond. -/
theorem cap_in_nanoseconds :
    Valid noTimer ∧ (pollOnceTimeout noTimer (some 5) 0).timeout = some 5 ∧
      epollTimeout (pollOnceTimeout noTimer (some 5) 0).timeout = 1 ∧
      ¬ WaitsAsAsked noTimer (some 5) 0 :=
  ⟨⟨⟨TimerHeap.empty_ok, nofun⟩, nofun, .inl rfl⟩, rfl, rfl, by unfold WaitsAsAsked; decide⟩

/-! ### Below and beside the call -/

/-- `epoll_wait` is given whole milliseconds. They cover the timeout and are less than one
millisecond longer, unless they do not fit in a `c_int`. -/
theorem epollTimeout_covers (ns : Nat) :
    (ns : Int) ≤ epollTimeout (some ns) * 1000000 ∧
        epollTimeout (some ns) * 1000000 < ns + 1000000 ∨
      epollTimeout (some ns) = 2 ^ 31 - 1 := by
  show (ns : Int) ≤ (min ((ns + 999999) / 1000000) (2 ^ 31 - 1) : Nat) * 1000000 ∧
      ((min ((ns + 999999) / 1000000) (2 ^ 31 - 1) : Nat) : Int) * 1000000 < ns + 1000000 ∨
    ((min ((ns + 999999) / 1000000) (2 ^ 31 - 1) : Nat) : Int) = 2 ^ 31 - 1
  omega

/-- The reactor wakes what it took, one waker at a step. -/
theorem reactorStep_wakeDue (s : Timers.State) {now : Nat} {due : List Waker}
    {next : Option Nat} (h : s.reactor = .wakeDue now due next) :
    (Timers.reactorStep · false)^[due.length] s =
      { s with woken := s.woken ++ due, reactor := .wakeDue now [] next } := by
  induction due generalizing s with
  | nil =>
    rw [List.append_nil, ← h]
    rfl
  | cons waker due ih =>
    have hstep : Timers.reactorStep s false =
        { s with woken := s.woken ++ [waker], reactor := .wakeDue now due next } := by
      simp only [Timers.reactorStep, h]
    rw [List.length_cons, Function.iterate_succ_apply, hstep, ih _ rfl, List.append_assoc]
    rfl

/-- The hosting reactor does the same in steps: undisturbed, they take it from the load of the
cached deadline to the wait, with what `service_timers` leaves, wakes and returns. -/
theorem reactorStep_serviceTimers (s : Timers.State) (h : s.reactor = .loadCache) {now : Nat}
    (hnow : Timers.nowNs s = now) {serviced : Serviced}
    (hserviced : serviceTimers ⟨s.registry, s.cache⟩ now = serviced) :
    ∃ n, (Timers.reactorStep · false)^[n] s =
      { s with
        registry := serviced.state.registry
        cache := serviced.state.nextDeadline
        woken := s.woken ++ serviced.woken
        reactor := .wait now serviced.timeout } := by
  subst hnow hserviced
  have hload : Timers.reactorStep s false = { s with reactor := .readClock s.cache } := by
    simp only [Timers.reactorStep, h]
  -- The cached deadline is still ahead, or the loop fires what is due.
  by_cases hcached : s.cache ≠ noDeadline ∧ Timers.nowNs s < s.cache
  · refine ⟨2, ?_⟩
    rw [serviceTimers_of_cached (s := ⟨s.registry, s.cache⟩) hcached]
    show Timers.reactorStep (Timers.reactorStep s false) false =
      { s with woken := s.woken ++ [], reactor := _ }
    rw [hload, List.append_nil]
    exact if_pos hcached
  · rw [serviceTimers_of_due (s := ⟨s.registry, s.cache⟩) hcached rfl]
    have hclock : Timers.reactorStep { s with reactor := .readClock s.cache } false =
        { s with reactor := .swap (Timers.nowNs s) } := if_neg hcached
    -- The swap and the lock section of `fire_due` lead to the wakers, and what they took is woken.
    have hfire : (Timers.reactorStep · false)^[4] s =
        { s with
          registry := (s.registry.fireDue (Timers.nowNs s)).1
          cache := noDeadline
          reactor := .wakeDue (Timers.nowNs s) (s.registry.fireDue (Timers.nowNs s)).2.1
            (s.registry.fireDue (Timers.nowNs s)).2.2 } := by
      show Timers.reactorStep (Timers.reactorStep (Timers.reactorStep
        (Timers.reactorStep s false) false) false) false = _
      rw [hload, hclock]
      rfl
    refine ⟨3 + ((s.registry.fireDue (Timers.nowNs s)).2.1.length + 4), ?_⟩
    rw [Function.iterate_add_apply, Function.iterate_add_apply, hfire,
      reactorStep_wakeDue _ rfl, ite_not]
    rfl

end Reactor.PollOnce

end Nagoya
