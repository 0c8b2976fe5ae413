import Nagoya.Proofs.Sync.WaitQueue
import Nagoya.Sync.Notify

/-!
# `Nagoya.Proofs.Sync.Notify`: single notifications are conserved

A single notification lives in one of three places: a slot that was granted `one`, a future
that reserved it, or the permit. `total` counts all three. `notifyOne` adds one, a poll that
returns `Ready` takes one, and every other step moves a notification or leaves it where it
is. Two notifications merge only in the permit, which holds at most one.

`Inv` is the invariant behind this. It ties each future's registration to a live slot of its
own, and it says that the permit is stored only while nobody is queued.
-/

set_option autoImplicit false

namespace Nagoya.Sync

open Nagoya.Lib

open WaitQueue

/-! ### The sections -/

namespace Notify

/-- The permit is stored and nobody is queued: the next notification merges into it. -/
def saturated (n : Notify) : Bool := n.permit && n.waiters.noneQueued

/-- From `n` to `n'` a notification went to the oldest queued waiter, or to the permit when
nobody was queued. -/
def PassedOn (n n' : Notify) : Prop :=
  match n.waiters.head with
  | some id => n'.waiters.slotKind (some id) = some .one
  | none => n'.permit = true

/-- The queue of a `Notify`, and its permit, which is stored only while nobody is queued. -/
structure Ok (n : Notify) (a : AbsQueue) : Prop where
  repr : n.waiters.Repr a
  permit : n.permit = true → a.fifo = []

/-- The notifications a `Notify` holds. -/
def held (n : Notify) : Nat := n.waiters.grants + n.permit.toNat

/-- What `grantOne` does: it grants the oldest queued waiter or stores the permit, and it adds
one notification unless that merges. -/
theorem grantOne_spec {n : Notify} {a : AbsQueue} (h : n.Ok a) :
    ∃ n' waker a', n.grantOne = some (n', waker) ∧ n'.Ok a' ∧ n.PassedOn n' ∧
      (∀ id, a'.entry id = none ↔ a.entry id = none) ∧
      n'.generation = n.generation ∧
      n'.held + n.saturated.toNat = n.held + 1 := by
  have hhead := h.repr.head_eq
  cases hfifo : a.fifo with
  | nil =>
    have hnone : n.waiters.noneQueued = true := h.repr.noneQueued_iff.mpr hfifo
    refine ⟨{ n with permit := true }, none, a, by simp [grantOne, grantOne_nil h.repr hfifo],
      ⟨h.repr, fun _ => hfifo⟩, ?_, fun _ => Iff.rfl, rfl, ?_⟩
    · simp [PassedOn, hhead, hfifo]
    · cases hp : n.permit <;> simp [held, saturated, hnone, hp]
  | cons id rest =>
    obtain ⟨q, hq, hr, hgr⟩ := grantOne_cons h.repr hfifo
    have hperm : n.permit = false := by
      by_contra hp
      simp [h.permit (by simpa using hp)] at hfifo
    refine ⟨{ n with waiters := q }, a.waker id, a.grant id, by simp [grantOne, hq],
      ⟨hr, by simp [hperm]⟩, ?_, h.repr.grant_live (by simp [hfifo]), rfl, ?_⟩
    · simp [PassedOn, hhead, hfifo, hr.slotKind_eq]
    · simp [held, saturated, hperm, hgr]

end Notify

/-- What `notifyWaiters` does: a broadcast to the queue and a new generation. -/
theorem Notify.notifyWaiters_spec [Target] {n : Notify} {a : AbsQueue} (h : n.waiters.Repr a) :
    ∃ q wakers, n.notifyWaiters
        = some ({ n with generation := usizeAdd n.generation 1, waiters := q }, wakers) ∧
      q.Repr a.grantAll ∧ q.grants = n.waiters.grants := by
  obtain ⟨q, hq, hr, hgr⟩ := grantAll_spec h
  exact ⟨q, a.fifo.filterMap a.waker, by simp [notifyWaiters, hq], hr, hgr⟩

namespace Notified

/-- The grant that the slot of a future holds. -/
def grantOf (f : Notified) (a : AbsQueue) : Option WakeKind :=
  (f.registration.bind a.kind).filter (· ≠ .queued)

/-- `assigned` reads the grant of the future's own slot. -/
theorem assigned_spec {f : Notified} {n : Notify} {a : AbsQueue} (h : n.waiters.Repr a)
    (hlive : ∀ id, f.registration = some id → a.entry id ≠ none) :
    f.assigned n = some (f.grantOf a) := by
  unfold assigned grantOf
  cases hreg : f.registration with
  | none => rfl
  | some id =>
    obtain ⟨e, he⟩ := Option.ne_none_iff_exists'.mp (hlive id hreg)
    obtain ⟨w, hw, hk, -⟩ := h.get he
    have hkind : a.kind id = some e.kind := by simp [AbsQueue.kind, he]
    by_cases hq : e.kind = .queued <;> simp [hw, hkind, hk, hq, Option.filter_some]

/-- The section of a future that finds a notification: it gives its slot back. -/
theorem lockSection_ready {f : Notified} {n : Notify} {a : AbsQueue} {kind : WakeKind}
    {permit : Bool} (h : n.waiters.Repr a)
    (hlive : ∀ id, f.registration = some id → a.entry id ≠ none)
    (hn : f.notification n (f.grantOf a) = (some kind, permit)) (waker : Option Waker) :
    ∃ q, f.lockSection n waker = some ({ n with permit := permit, waiters := q },
        { f with registration := none, done := true, reservedOne := kind = .one }, true) ∧
      q.Repr (a.forget f.registration) ∧
      q.grants + oneWeight (f.registration.bind a.kind) = n.waiters.grants := by
  obtain ⟨q, removed, hq, -, hr, hgr⟩ := remove_spec h hlive
  refine ⟨q, ?_, hr, hgr⟩
  simp [lockSection, assigned_spec h hlive, hn, hq]

/-- The section of a future that finds none: it queues, and there is no permit. -/
theorem lockSection_park {f : Notified} {n : Notify} {a : AbsQueue} {permit : Bool}
    (h : n.waiters.Repr a) (hlive : ∀ id, f.registration = some id → a.entry id ≠ none)
    (hn : f.notification n (f.grantOf a) = (none, permit)) (waker : Option Waker) :
    ∃ q id, f.lockSection n waker = some ({ n with permit := permit, waiters := q },
        { f with registration := some id }, false) ∧
      (f.registration = some id ∨ f.registration = none ∧ a.entry id = none) ∧
      q.Repr (a.register id waker) ∧
      q.grants + oneWeight (f.registration.bind a.kind) = n.waiters.grants := by
  obtain ⟨q, id, old, hq, hid, hr, hgr⟩ := register_spec h hlive waker
  refine ⟨q, id, ?_, hid, hr, hgr⟩
  simp [lockSection, assigned_spec h hlive, hn, hq]

/-- A future that queues has no grant and no permit to take. -/
theorem notification_none {f : Notified} {n : Notify} {grant : Option WakeKind} {permit : Bool}
    (hn : f.notification n grant = (none, permit)) :
    grant = none ∧ n.generation = f.generation ∧ n.permit = false ∧ permit = false := by
  unfold notification at hn
  split at hn
  · simp at hn
  · by_cases hg : n.generation = f.generation <;> by_cases hp : n.permit = true <;>
      simp_all

/-- Where the notification of a future comes from: its slot, a broadcast, or the permit. -/
theorem notification_some {f : Notified} {n : Notify} {grant : Option WakeKind}
    {kind : WakeKind} {permit : Bool} (hn : f.notification n grant = (some kind, permit)) :
    (grant = some kind ∧ permit = n.permit) ∨
    (grant = none ∧ n.generation ≠ f.generation ∧ kind = .all ∧ permit = n.permit) ∨
    (grant = none ∧ n.generation = f.generation ∧ n.permit = true ∧ kind = .one ∧
      permit = false) := by
  unfold notification at hn
  split at hn
  · simp_all
  · by_cases hg : n.generation = f.generation <;> by_cases hp : n.permit = true <;>
      simp_all

end Notified

namespace NotifySystem

/-! ### The invariant -/

/-- The token of a future. -/
def Party.token : Party → Option Nat
  | .live f _ => f.registration
  | .dropped => none

/-- The weight of a future that reserved a notification. -/
def Party.reserved : Party → Nat
  | .live f _ => f.reservedOne.toNat
  | .dropped => 0

/-- The notifications of the system: granted slots, reservations, and the permit. -/
def total (s : State) : Nat :=
  s.notify.waiters.grants + tally Party.reserved s.futures + s.notify.permit.toNat

theorem total_eq (s : State) : total s = s.notify.held + tally Party.reserved s.futures := by
  unfold total Notify.held
  omega

/-- What a future knows about itself. -/
structure FutureOk (f : Notified) (pc : Pc) : Prop where
  reserved : f.reservedOne = true → f.done = true
  done : f.done = true → f.registration = none
  pc : match pc with
    | .idle => True
    | .loadGeneration _ | .takePermit _ => f.done = false ∧ f.registration = none
    | .lock _ => f.done = false
    | .ready _ => f.done = true

/-- The invariant of the system, with the abstract queue it is about. -/
structure Inv (s : State) (a : AbsQueue) : Prop where
  notify : s.notify.Ok a
  owned : Owned a (attr Party.token s.futures)
  parties : ∀ (i : Nat) f pc, s.futures[i]? = some (.live f pc) → FutureOk f pc

/-- A future that is not done has reserved nothing. -/
theorem FutureOk.reserved_eq_false {f : Notified} {pc : Pc} (h : FutureOk f pc)
    (hd : f.done = false) : f.reservedOne = false := by
  by_contra hr
  simp [h.reserved (by simpa using hr)] at hd

/-- The registration of a live future is live. -/
theorem Inv.live {s : State} {a : AbsQueue} (h : Inv s a) {i : Nat} {f : Notified} {pc : Pc}
    (hi : s.futures[i]? = some (.live f pc)) (id : Nat) (hid : f.registration = some id) :
    a.entry id ≠ none :=
  h.owned.live_at hi id hid

/-- The invariant after one future was replaced. -/
theorem Inv.replace {s : State} {a : AbsQueue} (h : Inv s a) {i : Nat} {p x : Party}
    (hi : s.futures[i]? = some p) {n' : Notify} {a' : AbsQueue} (hn : n'.Ok a')
    (ho : Owned a' (Function.update (attr Party.token s.futures) i x.token))
    (hok : ∀ f pc, x = .live f pc → FutureOk f pc) (wakes : List Waker) :
    Inv { notify := n', futures := s.futures.set i x, wakes := wakes } a' where
  notify := hn
  owned := by
    rw [attr_set Party.token hi]
    exact ho
  parties j f pc hj := by
    rw [getElem?_set_of_some hi] at hj
    split at hj
    · exact hok f pc (Option.some.inj hj)
    · exact h.parties j f pc hj

/-- The invariant after a step of one future that keeps its token and the queue. -/
theorem Inv.replace_local {s : State} {a : AbsQueue} (h : Inv s a) {i : Nat} {f f' : Notified}
    {pc pc' : Pc} (hi : s.futures[i]? = some (.live f pc)) {n' : Notify}
    (hq : n'.waiters = s.notify.waiters) (hp : n'.permit = true → s.notify.permit = true)
    (hf : f'.registration = f.registration) (hok : FutureOk f' pc') :
    Inv { s with notify := n', futures := s.futures.set i (.live f' pc') } a := by
  have hn : n'.Ok a := ⟨by rw [hq]; exact h.notify.repr, fun hn => h.notify.permit (hp hn)⟩
  refine h.replace hi hn ?_ ?_ s.wakes
  · have htok : Party.token (.live f' pc') = attr Party.token s.futures i := by
      rw [attr_of_some Party.token hi]
      exact hf
    rw [htok, Function.update_eq_self]
    exact h.owned
  · rintro f pc ⟨⟩
    exact hok

/-! ### What one step does -/

/-- A future holds a single notification: it reserved one, or its slot was granted one. -/
def holdsOne (s : State) (i : Nat) : Bool :=
  match s.futures[i]? with
  | some (.live f _) =>
    f.reservedOne || s.notify.waiters.slotKind f.registration = some .one
  | _ => false

/-- The step returns `Ready` from a `poll` of a future that holds a notification. -/
def delivers (s : State) : Action → Bool
  | .advance i =>
    match s.futures[i]? with
    | some (.live f (.ready (.poll _))) => f.reservedOne
    | _ => false
  | _ => false

/-- The step drops a future that holds a notification. -/
def dropsOne (s : State) : Action → Bool
  | .drop i => holdsOne s i
  | _ => false

/-- The notifications a step adds: one, unless `notifyOne` merges into the permit. -/
def gain (s : State) (act : Action) : Nat :=
  if act = .notifyOne then (!s.notify.saturated).toNat else 0

/-- The notifications a step takes: one that is delivered, or one that is dropped while the
permit is stored and nobody is queued. -/
def loss (s : State) (act : Action) : Nat :=
  (delivers s act).toNat + (dropsOne s act && s.notify.saturated).toNat

/-- A removal from an empty queue leaves it empty. -/
theorem forget_fifo_nil {a : AbsQueue} (h : a.fifo = []) (token : Option Nat) :
    (a.forget token).fifo = [] := by
  cases token <;> simp [AbsQueue.forget, AbsQueue.remove, h]

/-- The weight of a slot is the weight of the grant it holds. -/
theorem oneWeight_grantOf (f : Notified) (a : AbsQueue) :
    oneWeight (f.registration.bind a.kind) = oneWeight (f.grantOf a) := by
  unfold Notified.grantOf
  rcases f.registration.bind a.kind with _ | _ | _ | _ <;> rfl

/-- The section under the lock moves a notification from the slot or the permit to the
future, or queues the future. -/
theorem lock_spec {s : State} {a : AbsQueue} (h : Inv s a) {i : Nat} {f : Notified}
    {call : Call} (hi : s.futures[i]? = some (.live f (.lock call))) :
    ∃ n' f' pc' a', advance s.notify f (.lock call) = some (n', f', pc') ∧
      Inv { s with notify := n', futures := s.futures.set i (.live f' pc') } a' ∧
      n'.held + f'.reservedOne.toNat = s.notify.held + f.reservedOne.toNat := by
  have hok := h.parties i f _ hi
  have hdone : f.done = false := hok.pc
  have hres := hok.reserved_eq_false hdone
  -- The section finds nothing and queues the future, or it finds a notification.
  rcases hn : f.notification s.notify (f.grantOf a) with ⟨_ | kind, permit⟩
  · obtain ⟨q, id, hsec, hid, hr, hgr⟩ :=
      Notified.lockSection_park h.notify.repr (h.live hi) hn call.waker
    obtain ⟨hgrant, -, hperm, rfl⟩ := Notified.notification_none hn
    have hadv : advance s.notify f (.lock call)
        = some ({ s.notify with permit := false, waiters := q },
          { f with registration := some id }, .idle) := by
      simp [advance, hsec]
    refine ⟨_, _, _, _, hadv, h.replace hi ⟨hr, by simp⟩ ?_ ?_ s.wakes, ?_⟩
    · exact h.owned.register_at hi hid call.waker
    · rintro f' pc' ⟨⟩
      exact ⟨fun hr => by simp [hres] at hr, fun hd => by simp [hdone] at hd, trivial⟩
    · -- The slot was queued, so no grant is overwritten.
      rw [oneWeight_grantOf, hgrant] at hgr
      simp only [Notify.held, hperm, oneWeight] at *
      simpa using hgr
  · obtain ⟨q, hsec, hr, hgr⟩ :=
      Notified.lockSection_ready h.notify.repr (h.live hi) hn call.waker
    have hadv : advance s.notify f (.lock call)
        = some ({ s.notify with permit := permit, waiters := q },
          { f with registration := none, done := true, reservedOne := kind = .one },
          .ready call) := by
      simp [advance, hsec]
    refine ⟨_, _, _, _, hadv, h.replace hi ⟨hr, ?_⟩ ?_ ?_ s.wakes, ?_⟩
    · -- A stored permit means that nobody is queued, and a waiter fewer does not change that.
      intro hp
      have : s.notify.permit = true := by
        rcases Notified.notification_some hn with ⟨-, rfl⟩ | ⟨-, -, -, rfl⟩ | ⟨-, -, -, -, rfl⟩
        · exact hp
        · exact hp
        · cases hp
      exact forget_fifo_nil (h.notify.permit this) _
    · exact h.owned.forget_at hi
    · rintro f' pc' ⟨⟩
      exact ⟨fun _ => rfl, fun _ => rfl, rfl⟩
    · -- One of the three sources gives up what the future reserves.
      rw [oneWeight_grantOf] at hgr
      simp only [Notify.held, hres]
      rcases Notified.notification_some hn with
        ⟨hg, rfl⟩ | ⟨hg, -, rfl, rfl⟩ | ⟨hg, -, hp, rfl, rfl⟩
      · rw [hg] at hgr
        cases kind <;> simp [oneWeight] at hgr ⊢ <;> omega
      · simp [hg, oneWeight] at hgr
        simp [hgr]
      · simp [hg, oneWeight] at hgr
        simp [hgr, hp]

/-- What a step of a call in progress does. -/
theorem advance_spec {s : State} {a : AbsQueue} (h : Inv s a) {i : Nat} {f : Notified} {pc : Pc}
    (hi : s.futures[i]? = some (.live f pc)) (hpc : pc ≠ .idle) :
    ∃ n' f' pc' a', advance s.notify f pc = some (n', f', pc') ∧
      Inv { s with notify := n', futures := s.futures.set i (.live f' pc') } a' ∧
      n'.held + f'.reservedOne.toNat + (delivers s (.advance i)).toNat
        = s.notify.held + f.reservedOne.toNat := by
  have hok := h.parties i f pc hi
  cases pc with
  | idle => exact absurd rfl hpc
  | loadGeneration call =>
    obtain ⟨hdone, hreg⟩ := hok.pc
    by_cases hg : s.notify.generation = f.generation
    · have hadv : advance s.notify f (.loadGeneration call)
          = some (s.notify, f, .takePermit call) := by
        simp [advance, hg]
      refine ⟨_, _, _, a, hadv,
        h.replace_local hi rfl id rfl ⟨hok.reserved, hok.done, hdone, hreg⟩, ?_⟩
      simp [delivers, hi]
    -- A broadcast came since the future was made.
    · have hadv : advance s.notify f (.loadGeneration call)
          = some (s.notify, { f with done := true }, .ready call) := by
        simp [advance, hg]
      refine ⟨_, _, _, a, hadv,
        h.replace_local hi rfl id rfl ⟨fun _ => rfl, fun _ => hreg, rfl⟩, ?_⟩
      simp [delivers, hi]
  | takePermit call =>
    obtain ⟨hdone, hreg⟩ := hok.pc
    cases hp : s.notify.permit with
    | false =>
      have hadv : advance s.notify f (.takePermit call) = some (s.notify, f, .lock call) := by
        simp [advance, hp]
      refine ⟨_, _, _, a, hadv,
        h.replace_local hi rfl id rfl ⟨hok.reserved, hok.done, hdone⟩, ?_⟩
      simp [delivers, hi]
    | true =>
      -- The permit becomes the future's reservation.
      have hadv : advance s.notify f (.takePermit call)
          = some ({ s.notify with permit := false }, { f with done := true, reservedOne := true },
            .ready call) := by
        simp [advance, hp]
      refine ⟨_, _, _, a, hadv,
        h.replace_local hi rfl (by simp) rfl ⟨fun _ => rfl, fun _ => hreg, rfl⟩, ?_⟩
      simp [delivers, hi, Notify.held, hp, hok.reserved_eq_false hdone]
  | lock call =>
    obtain ⟨n', f', pc', a', hadv, hinv, hheld⟩ := lock_spec h hi
    exact ⟨n', f', pc', a', hadv, hinv, by simpa [delivers, hi] using hheld⟩
  | ready call =>
    have hdone : f.done = true := hok.pc
    cases call with
    | enable =>
      -- `enable` keeps the reservation for the poll that follows.
      refine ⟨_, _, _, a, rfl, h.replace_local hi rfl id rfl ⟨hok.reserved, hok.done, trivial⟩, ?_⟩
      simp [delivers, hi]
    | poll waker =>
      -- `Ready`: the reservation is delivered.
      refine ⟨_, _, _, a, rfl, h.replace_local hi rfl id rfl
        ⟨fun hr => by simp at hr, hok.done, trivial⟩, ?_⟩
      simp [delivers, hi]

/-- Removing a slot that is not queued leaves the list of queued ids. -/
theorem forget_fifo_of_ne {q : WaitQueue} {a : AbsQueue} (h : q.Repr a) {token : Option Nat}
    (hk : token.bind a.kind ≠ some .queued) : (a.forget token).fifo = a.fifo := by
  cases token with
  | none => rfl
  | some id => exact List.erase_of_not_mem fun hid => hk ((h.mem_fifo id).mp hid)

/-- A future holds what its reservation or its slot holds. -/
theorem Inv.holdsOne_eq {s : State} {a : AbsQueue} (h : Inv s a) {i : Nat} {f : Notified}
    {pc : Pc} (hi : s.futures[i]? = some (.live f pc)) :
    holdsOne s i = (f.reservedOne || decide (f.registration.bind a.kind = some .one)) := by
  simp [holdsOne, hi, h.notify.repr.slotKind_eq]

/-- What a drop does: a notification the future holds goes to the oldest queued waiter or to
the permit. -/
theorem drop_spec {s : State} {a : AbsQueue} (h : Inv s a) {i : Nat} {f : Notified} {pc : Pc}
    (hi : s.futures[i]? = some (.live f pc)) :
    ∃ n' waker a', f.drop s.notify = some (n', waker) ∧
      (∀ wakes, Inv { notify := n', futures := s.futures.set i .dropped, wakes := wakes } a') ∧
      (holdsOne s i = true → s.notify.PassedOn n') ∧
      n'.held + (holdsOne s i && s.notify.saturated).toNat
        = s.notify.held + f.reservedOne.toNat := by
  have hok := h.parties i f pc hi
  have hforget : Owned (a.forget f.registration)
      (Function.update (attr Party.token s.futures) i none) := h.owned.forget_at hi
  -- The parties are as the invariant wants them whenever the queue is.
  have hinv : ∀ n' a', n'.Ok a' → Owned a' (Function.update (attr Party.token s.futures) i none) →
      ∀ wakes, Inv { notify := n', futures := s.futures.set i .dropped, wakes := wakes } a' :=
    fun n' a' hn ho wakes => h.replace (x := .dropped) hi hn ho (by rintro f pc ⟨⟩) wakes
  have hholds := h.holdsOne_eq hi
  cases hres : f.reservedOne with
  | true =>
    -- A reservation is given to the next waiter, and there is no slot to remove.
    have hreg := hok.done (hok.reserved hres)
    obtain ⟨n', waker, a', hg, hn, hpass, hlive, -, hheld⟩ := Notify.grantOne_spec h.notify
    rw [hreg] at hforget
    refine ⟨n', waker, a', by simp [Notified.drop, hres, hg],
      hinv n' a' hn (hforget.of_live hlive), fun _ => hpass, ?_⟩
    simpa [hholds, hres] using hheld
  | false =>
    obtain ⟨q, removed, hq, hkind, hr, hgr⟩ := remove_spec h.notify.repr (h.live hi)
    by_cases hone : f.registration.bind a.kind = some .one
    · -- The slot was granted: the queue is the same without it.
      have hnq : f.registration.bind a.kind ≠ some .queued := by simp [hone]
      have hfifo := forget_fifo_of_ne h.notify.repr hnq
      have hn₁ : Notify.Ok { s.notify with waiters := q } (a.forget f.registration) :=
        ⟨hr, fun hp => hfifo.trans (h.notify.permit hp)⟩
      obtain ⟨n', waker, a', hg, hn, hpass, hlive, -, hheld⟩ := Notify.grantOne_spec hn₁
      have hsome : f.registration.isNone = false := by
        cases hreg : f.registration <;> simp [hreg] at hone ⊢
      -- Whether a notification is lost depends on the fifo, which has not changed.
      have hhead : q.head = s.notify.waiters.head := by
        rw [hr.head_eq, hfifo, h.notify.repr.head_eq]
      have hsat : Notify.saturated { s.notify with waiters := q } = s.notify.saturated := by
        have : q.noneQueued = s.notify.waiters.noneQueued := by
          rw [Bool.eq_iff_iff, hr.noneQueued_iff, h.notify.repr.noneQueued_iff, hfifo]
        simp [Notify.saturated, this]
      refine ⟨n', waker, a', ?_, hinv n' a' hn (hforget.of_live hlive), fun _ => ?_, ?_⟩
      · simp [Notified.drop, hres, hsome, hq, hkind, hone, hg]
      · simpa [Notify.PassedOn, hhead] using hpass
      · rw [hsat] at hheld
        simp only [hholds, hone, hres, Notify.held, oneWeight] at hheld hgr ⊢
        simp at hheld hgr ⊢
        omega
    · -- The future held nothing, and only its slot goes.
      have hw : oneWeight (f.registration.bind a.kind) = 0 := by simp [oneWeight, hone]
      refine ⟨{ s.notify with waiters := q }, none, a.forget f.registration, ?_,
        hinv _ _ ⟨hr, fun hp => forget_fifo_nil (h.notify.permit hp) _⟩ hforget, ?_, ?_⟩
      · cases hreg : f.registration with
        | none =>
          rw [hreg] at hq
          cases hq
          simp [Notified.drop, hres, hreg]
        | some id =>
          rw [hreg] at hq hkind hone
          have hone' : a.kind id ≠ some .one := hone
          simp [Notified.drop, hres, hreg, hq, hkind, hone']
      · simp [hholds, hres, hone]
      · simp only [hholds, hres, Notify.held]
        simp [hone]
        omega

/-- A new system meets the invariant. -/
theorem inv_init [Target] (s : State) (h : system.init s) : ∃ a, Inv s a := by
  rw [h]
  refine ⟨AbsQueue.empty, ⟨⟨repr_new, fun hp => by simp [Notify.new] at hp⟩, ?_, ?_⟩⟩
  · exact Owned.empty
  · intro i f pc hi
    simp at hi

/-- What one step does: the invariant stays, the notifications move by `gain` and `loss`, and
a dropped notification is passed on. -/
theorem step_spec [Target] {s s' : State} {a : AbsQueue} {act : Action} (h : Inv s a)
    (hs : step s act = some s') :
    (∃ a', Inv s' a') ∧ total s' + loss s act = total s + gain s act ∧
      (dropsOne s act = true → s.notify.PassedOn s'.notify) := by
  rw [total_eq, total_eq]
  -- One case per step. The books are kept in each by what its section hands out.
  cases act with
  | notified =>
    cases hs
    refine ⟨⟨a, h.notify, ?_, ?_⟩, ?_, by simp [dropsOne]⟩
    · rw [attr_append_of_none Party.token s.futures (by rfl)]
      exact h.owned
    · intro i f pc hi
      rcases getElem?_append_singleton hi with hi | ⟨-, hf⟩
      · exact h.parties i f pc hi
      · cases hf
        exact ⟨by simp [Notify.notified], by simp [Notify.notified], trivial⟩
    · simp [loss, delivers, dropsOne, gain, Party.reserved, Notify.notified]
  | notifyOne =>
    obtain ⟨n', waker, a', hg, hn, -, hlive, -, hheld⟩ := Notify.grantOne_spec h.notify
    simp only [step, hg, Option.some.injEq] at hs
    subst hs
    refine ⟨⟨a', hn, h.owned.of_live hlive, h.parties⟩, ?_, by simp [dropsOne]⟩
    -- A saturated `Notify` takes the notification into the permit that is already there.
    cases hsat : s.notify.saturated <;> simp [loss, delivers, dropsOne, gain, hsat] at hheld ⊢ <;>
      omega
  | notifyWaiters =>
    obtain ⟨q, wakers, hg, hr, hgr⟩ := Notify.notifyWaiters_spec h.notify.repr
    simp only [step, hg, Option.some.injEq] at hs
    -- A broadcast grants no slot to one waiter, so the total stays.
    subst hs
    refine ⟨⟨a.grantAll, ⟨hr, fun _ => rfl⟩, h.owned.of_live h.notify.repr.grantAll_live,
      h.parties⟩, ?_, by simp [dropsOne]⟩
    simp [loss, delivers, dropsOne, gain, Notify.held, hgr]
  | call i call =>
    simp only [step] at hs
    split at hs
    · rename_i f hi
      cases hs
      have hok := h.parties i f _ hi
      refine ⟨⟨a, h.replace_local hi rfl id rfl ⟨hok.reserved, hok.done, ?_⟩⟩, ?_,
        by simp [dropsOne]⟩
      · -- A call moves the program point only.
        unfold start
        by_cases hd : f.done = true
        · simp [hd]
        · cases hreg : f.registration <;> simp [hd]
      · have := tally_set_of_eq Party.reserved hi (b := .live f (start f call)) rfl
        simp [loss, delivers, dropsOne, gain, this]
    · cases hs
  | advance i =>
    simp only [step] at hs
    split at hs
    · rename_i f pc hi
      have hpc : pc ≠ .idle := by
        rintro rfl
        simp [advance] at hs
      obtain ⟨n', f', pc', a', hadv, hinv, hheld⟩ := advance_spec h hi hpc
      simp only [hadv, Option.some.injEq] at hs
      subst hs
      refine ⟨⟨a', hinv⟩, ?_, by simp [dropsOne]⟩
      -- The reservations of the other futures are as they were.
      have := tally_set Party.reserved hi (.live f' pc')
      simp only [Party.reserved] at this
      simp [loss, dropsOne, gain]
      omega
    · cases hs
  | drop i =>
    simp only [step] at hs
    split at hs
    · rename_i f hi
      obtain ⟨n', waker, a', hd, hinv, hpass, hheld⟩ := drop_spec h hi
      simp only [hd, Option.some.injEq] at hs
      subst hs
      refine ⟨⟨a', hinv _⟩, ?_, hpass⟩
      -- What the future held is passed on, unless the `Notify` was full.
      have := tally_set Party.reserved hi .dropped
      simp only [Party.reserved] at this
      simp [loss, delivers, dropsOne, gain] at hheld ⊢
      omega
    · cases hs
  | wake =>
    simp only [step] at hs
    -- The call of a waker is outside the books.
    split at hs
    · cases hs
    · cases hs
      exact ⟨⟨a, h.notify, h.owned, h.parties⟩, by simp [loss, delivers, dropsOne, gain],
        by simp [dropsOne]⟩

/-- The invariant holds in every reachable state. -/
theorem inv_of_reachable [Target] {s : State} (h : system.Reachable s) : ∃ a, Inv s a :=
  h.invariant inv_init fun _ _ _ ⟨_, hi⟩ hs => (step_spec hi hs).1

/-- No section panics: a call in progress can always take its next step, and so can
`notify_one`, `notify_waiters` and the drop of a future that is not being polled. -/
theorem no_panic [Target] {s : State} (h : system.Reachable s) :
    (step s .notifyOne).isSome ∧ (step s .notifyWaiters).isSome ∧
    (∀ i f pc, s.futures[i]? = some (.live f pc) → pc ≠ .idle → (step s (.advance i)).isSome) ∧
    (∀ (i : Nat) f, s.futures[i]? = some (.live f .idle) → (step s (.drop i)).isSome) := by
  obtain ⟨a, h⟩ := inv_of_reachable h
  refine ⟨?_, ?_, ?_, ?_⟩
  · obtain ⟨n', waker, a', hg, -⟩ := Notify.grantOne_spec h.notify
    simp [step, hg]
  · obtain ⟨q, wakers, hg, -⟩ := Notify.notifyWaiters_spec h.notify.repr
    simp [step, hg]
  · intro i f pc hi hpc
    obtain ⟨n', f', pc', a', hadv, -⟩ := advance_spec h hi hpc
    simp [step, hi, hadv]
  · intro i f hi
    obtain ⟨n', waker, a', hd, -⟩ := drop_spec h hi
    simp [step, hi, hd]

/-- Single notifications are conserved. In every reachable state the permit is stored only
while nobody is queued. Of every step from there: `notifyOne` adds one notification, or none
when it merges into the permit; a `poll` that returns `Ready` from a future that holds one
takes it; the drop of such a future passes it on, and loses it only by a merge; no other step
changes the number, so it falls at these two kinds of step and nowhere else. -/
theorem notifications_conserved [Target] {s : State} (h : system.Reachable s) :
    (s.notify.permit = true → s.notify.waiters.noneQueued = true) ∧
    ∀ act s', step s act = some s' →
      (act = .notifyOne →
        total s' = if s.notify.permit ∧ s.notify.waiters.noneQueued then total s
          else total s + 1) ∧
      (delivers s act = true → total s' + 1 = total s) ∧
      (total s' < total s ↔
        delivers s act = true ∨ dropsOne s act = true ∧ s.notify.saturated = true) ∧
      (dropsOne s act = true → s.notify.PassedOn s'.notify ∧
        total s' + s.notify.saturated.toNat = total s) ∧
      (act ≠ .notifyOne → delivers s act = false → dropsOne s act = false →
        total s' = total s) := by
  obtain ⟨a, hi⟩ := inv_of_reachable h
  refine ⟨fun hp => hi.notify.repr.noneQueued_iff.mpr (hi.notify.permit hp), ?_⟩
  intro act s' hs
  obtain ⟨-, htotal, hpass⟩ := step_spec hi hs
  -- A step is of at most one of the three kinds.
  have hkinds : (act = .notifyOne → delivers s act = false ∧ dropsOne s act = false) ∧
      (delivers s act = true → dropsOne s act = false) := by
    cases act <;> simp [delivers, dropsOne]
  simp only [loss, gain] at htotal
  have hsat : s.notify.saturated = true ↔ s.notify.permit ∧ s.notify.waiters.noneQueued := by
    simp [Notify.saturated]
  simp only [← hsat]
  -- The equation of the books, read for each of the three kinds and for the rest.
  by_cases hone : act = .notifyOne
  · obtain ⟨hd, hdr⟩ := hkinds.1 hone
    cases hs : s.notify.saturated <;> simp [hone, hs] at htotal hd hdr ⊢ <;>
      simp [hd, hdr] at htotal ⊢ <;> omega
  · cases hd : delivers s act
    · cases hdr : dropsOne s act
      · simp [hone, hd, hdr] at htotal ⊢
        omega
      · cases hs : s.notify.saturated <;> simp [hone, hd, hdr, hs, hpass hdr] at htotal ⊢ <;> omega
    · have hdr := hkinds.2 hd
      simp [hone, hd, hdr] at htotal ⊢
      omega

/-- A future polls, queues, and is granted a notification. The next `notify_one` finds nobody
queued and stores the permit, so two notifications are held. -/
theorem notifications_conserved_granted :
    ∃ s, (@system target64).Reachable s ∧ total s = 1 ∧
      ∀ s', @step target64 s .notifyOne = some s' → total s' = 2 := by
  obtain ⟨s, hr, hp⟩ := Lts.Reachable.exists_of_run (M := @system target64)
    (s := { notify := .new, futures := [], wakes := [] })
    [.notified, .call 0 (.poll 7), .advance 0, .advance 0, .advance 0, .notifyOne]
    (fun s => total s = 1 ∧ s.notify.permit = false) rfl (by decide)
  have hp : total s = 1 ∧ s.notify.permit = false := by simpa using hp
  refine ⟨s, hr, hp.1, fun s' hs => ?_⟩
  have hstep := (@notifications_conserved target64 s hr).2 .notifyOne s' hs
  simpa [hp] using hstep.1 rfl

end NotifySystem

end Nagoya.Sync
