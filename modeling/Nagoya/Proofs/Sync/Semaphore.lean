import Nagoya.Proofs.Sync.WaitQueue
import Nagoya.Sync.Semaphore

/-!
# `Nagoya.Proofs.Sync.Semaphore`: permits are conserved, and one wake-up can be lost

The permits of a `Semaphore` are conserved in every run: `Inv.conserved`.

The wake-ups are not. A poll takes its permit with a compare-exchange and removes its
registration in a later section. A `wake_one` between the two grants a waiter that needs no
grant, and `remove` drops the grant without a look at it. `Drop for Acquire` hands such a grant
on, and the two `Ready` paths of `poll` do not. `wake_up_lost` is a run that ends with a free
permit, a parked waiter, and nobody left to wake it.

`permits_and_wake_ups` is the positive side. In every run where no `wake_one` picks a waiter
that has taken its permit already, a free permit is always covered by a granted waiter or by a
`wake_one` that is still owed.

The invariant behind it is per parked waiter. A granted waiter that registers again goes to the
back of the queue and covers a permit only for the waiters ahead of it. `cover a b` is the
weight of a future that covers a permit for the parked waiter `b`.
-/

set_option autoImplicit false

namespace Nagoya.Sync

open Nagoya.Lib

namespace SemaphoreSystem

/-! ### What the claim counts -/

/-- The permit that a poll has taken and not yet returned. -/
def Acquire.inHand (f : Acquire) : Nat := if f.pc = .taken then 1 else 0

/-- The live permits: those handed out and those in the hand of a poll. -/
def livePermits (s : State) : Nat := s.held + tally Acquire.inHand s.acquires

/-- A waiter that was granted and is not yet polled again: the poll that follows its grant has not
returned. A waiter that lost its permit and registers again in that poll counts until it has
finished its second try, though its new slot is queued. -/
def Acquire.granted (q : WaitQueue) (f : Acquire) : Nat :=
  match f.pc with
  | .taken | .dropLoad | .dropWake | .dropped => 0
  | .second _ true => 1
  | _ => if q.slotKind f.registration = some .one then 1 else 0

/-- The granted waiters that have not acted on their grant. -/
def granted (s : State) : Nat := tally (Acquire.granted s.semaphore.waiters) s.acquires

/-- The `wake_one` a dropped waiter owes: it removed a grant and has not found the count at
zero. -/
def Acquire.owed (f : Acquire) : Nat :=
  match f.pc with
  | .dropLoad | .dropWake => 1
  | _ => 0

/-- The `wake_one` calls that are still owed. -/
def owed (s : State) : Nat := s.wakers.sum + tally Acquire.owed s.acquires

/-- The future at `i` has returned `Pending` and is still queued. -/
def parked (s : State) (f : Acquire) : Bool :=
  f.pc = .idle true ∧ s.semaphore.waiters.slotKind f.registration = some .queued

/-- No call is in progress. -/
def idle (s : State) : Bool :=
  s.acquires.all (fun f => match f.pc with | .idle _ | .dropped => true | _ => false) &&
    s.tries.all Option.isNone && s.wakers.all (· = 0)

/-- A free permit is covered while somebody is parked. -/
def Covered (s : State) : Prop :=
  (∃ f ∈ s.acquires, parked s f = true) → s.semaphore.permits ≤ granted s + owed s

instance (s : State) : Decidable (Covered s) := inferInstanceAs (Decidable (_ → _))

/-! ### The step that loses a wake-up -/

/-- The step is a `wake_one`. -/
def wakesOne (s : State) : Action → Bool
  | .wakeOne _ => true
  | .advance i _ => (s.acquires[i]?).map Acquire.pc = some .dropWake
  | _ => false

/-- The oldest queued waiter has already taken its permit. -/
def headTaken (s : State) : Bool :=
  s.acquires.any fun f =>
    f.pc = .taken ∧ f.registration ≠ none ∧ f.registration = s.semaphore.waiters.head

/-- The run condition: the permits fit a word, and no `wake_one` picks a waiter that has taken
its permit. -/
def Careful [Target] (s : State) (act : Action) (s' : State) : Prop :=
  Bounded s' ∧ ¬(wakesOne s act = true ∧ headTaken s = true)

instance [Target] (s : State) (act : Action) (s' : State) : Decidable (Careful s act s') :=
  inferInstanceAs (Decidable (_ ∧ _))

/-! ### The queue under other waiters' steps -/

/-- From `a` to `a'` nothing happens to ids other than `x`: they keep their kind and their
order. -/
structure Keeps (a a' : AbsQueue) (x : Option Nat) : Prop where
  kind : ∀ y, some y ≠ x → a'.kind y = a.kind y
  order : ∀ b y, some b ≠ x → some y ≠ x →
    List.Sublist [b, y] a.fifo → List.Sublist [b, y] a'.fifo

theorem Keeps.refl (a : AbsQueue) (x : Option Nat) : Keeps a a x :=
  ⟨fun _ _ => rfl, fun _ _ _ _ h => h⟩

/-- Erasing one id keeps the order of the others. -/
theorem sublist_erase {l : List Nat} {b y x : Nat} (hb : b ≠ x) (hy : y ≠ x)
    (h : List.Sublist [b, y] l) : List.Sublist [b, y] (l.erase x) := by
  have := h.erase x
  rwa [List.erase_of_not_mem (by simp [hb.symm, hy.symm])] at this

theorem keeps_register (a : AbsQueue) (id : Nat) (waker : Option Waker) :
    Keeps a (a.register id waker) (some id) := by
  refine ⟨fun y hy => ?_, fun b y _ _ h => ?_⟩
  · have : y ≠ id := fun e => hy (by rw [e])
    simp [this]
  · unfold AbsQueue.register
    split
    · exact h
    · exact h.trans (List.sublist_append_left a.fifo [id])

theorem keeps_forget (a : AbsQueue) (token : Option Nat) : Keeps a (a.forget token) token := by
  cases token with
  | none => exact Keeps.refl a none
  | some id =>
    refine ⟨a.kind_forget (some id), fun b y hb hy h => ?_⟩
    exact sublist_erase (fun e => hb (by rw [e])) (fun e => hy (by rw [e])) h

theorem keeps_grant (a : AbsQueue) (id : Nat) : Keeps a (a.grant id) (some id) := by
  refine ⟨fun y hy => ?_, fun b y hb hy h => ?_⟩
  · have : y ≠ id := fun e => hy (by rw [e])
    simp [this]
  · exact sublist_erase (fun e => hb (by rw [e])) (fun e => hy (by rw [e])) h

/-- The weight of a future that covers a permit for the parked waiter `b`: it was granted and
has not acted on it, or it registered again behind `b`. -/
def cover (a : AbsQueue) (b : Nat) (f : Acquire) : Nat :=
  match f.pc with
  | .taken | .dropLoad | .dropWake | .dropped => 0
  | .second _ true =>
    if f.registration.bind a.kind = some .one ∨ ∃ y, f.registration = some y ∧
      List.Sublist [b, y] a.fifo then 1 else 0
  | _ => if f.registration.bind a.kind = some .one then 1 else 0

/-- A future that is not touched covers at least as much. -/
theorem cover_mono {a a' : AbsQueue} {x : Option Nat} (h : Keeps a a' x) {b : Nat}
    (hb : some b ≠ x) {f : Acquire} (hf : f.registration = none ∨ f.registration ≠ x) :
    cover a b f ≤ cover a' b f := by
  -- A token that is not `x` keeps its kind, and its place behind `b`.
  have hkind : f.registration.bind a.kind = some .one →
      f.registration.bind a'.kind = some .one := by
    cases hreg : f.registration with
    | none => simp
    | some y =>
      have hy : some y ≠ x := by
        rw [← hreg]
        exact hf.resolve_left (by simp [hreg])
      simp [h.kind y hy]
  have hbehind : (∃ y, f.registration = some y ∧ List.Sublist [b, y] a.fifo) →
      ∃ y, f.registration = some y ∧ List.Sublist [b, y] a'.fifo := by
    rintro ⟨y, hy, hsub⟩
    have hyx : some y ≠ x := by
      rw [← hy]
      exact hf.resolve_left (by simp [hy])
    exact ⟨y, hy, h.order b y hb hyx hsub⟩
  obtain ⟨registration, pc⟩ := f
  have hle : ∀ {P Q : Prop} [Decidable P] [Decidable Q], (P → Q) →
      (if P then 1 else 0) ≤ if Q then 1 else 0 := by
    intro P Q _ _ hPQ
    by_cases hP : P <;> simp [hP, hPQ]
  -- A granted future in its second try also covers those that it is queued behind.
  cases pc with
  | second pc granted =>
    cases granted with
    | true => exact hle fun hor => hor.imp hkind hbehind
    | false => exact hle hkind
  | idle pending => exact hle hkind
  | first waker pc => exact hle hkind
  | register waker => exact hle hkind
  | taken => exact le_rfl
  | dropLoad => exact le_rfl
  | dropWake => exact le_rfl
  | dropped => exact le_rfl

/-- A future covers at most one permit. -/
theorem cover_le_one (a : AbsQueue) (b : Nat) (f : Acquire) : cover a b f ≤ 1 := by
  unfold cover
  split
  all_goals first | omega | (split <;> omega)

/-! ### The invariant -/

/-- The step of `try_acquire` that a future is at. -/
def Acquire.tryPc (f : Acquire) : Option TryPc :=
  match f.pc with
  | .first _ pc | .second pc _ => some pc
  | _ => none

/-- What a future knows about itself: a compare-exchange never expects zero, so it never takes a
permit from an empty count, and a dropped future has no registration. -/
structure FutureOk (f : Acquire) : Prop where
  expects : f.tryPc ≠ some (.compareExchange 0)
  gone : f.pc = .dropLoad ∨ f.pc = .dropWake ∨ f.pc = .dropped → f.registration = none

/-- The part of the invariant that holds in every run. -/
structure Inv (s : State) (a : AbsQueue) : Prop where
  repr : s.semaphore.waiters.Repr a
  owned : Owned a (attr Acquire.registration s.acquires)
  conserved : s.semaphore.permits + livePermits s + s.forgotten = s.initial + s.added
  futures : ∀ f ∈ s.acquires, FutureOk f
  calls : some (.compareExchange 0) ∉ s.tries

/-- A free permit is covered for the parked waiter `b`. -/
def CoveredFor (s : State) (a : AbsQueue) (b : Nat) : Prop :=
  s.semaphore.permits ≤ tally (cover a b) s.acquires + owed s

/-- The part of the invariant that the bad step breaks: every parked waiter has its cover. -/
def AllCovered (s : State) (a : AbsQueue) : Prop :=
  ∀ (i : Nat) f b, s.acquires[i]? = some f → f.pc = .idle true → f.registration = some b →
    a.kind b = some .queued → CoveredFor s a b

/-- The covers after one future moved. `x` is the id the move is about, which no other future
holds. Either the count is zero, or the move gives up no more cover than it takes permits. -/
theorem AllCovered.move {s s' : State} {a a' : AbsQueue} (hc : AllCovered s a) {i : Nat}
    {f f' : Acquire} (hi : s.acquires[i]? = some f) {x : Option Nat} (hk : Keeps a a' x)
    (hx : ∀ (j : Nat) g, j ≠ i → s.acquires[j]? = some g →
      g.registration = none ∨ g.registration ≠ x)
    (hacq : s'.acquires = s.acquires.set i f') (hwakers : s'.wakers = s.wakers)
    (hself : f'.pc = .idle true → s'.semaphore.permits = 0)
    (hnum : s'.semaphore.permits = 0 ∨ ∀ b, a.kind b = some .queued → some b ≠ x →
      s'.semaphore.permits + cover a b f + f.owed
        ≤ s.semaphore.permits + cover a' b f' + f'.owed) : AllCovered s' a' := by
  intro j g b hj hpc hreg hq
  unfold CoveredFor
  -- Without a free permit there is nothing to cover.
  by_cases hzero : s'.semaphore.permits = 0
  · omega
  rw [hacq, getElem?_set_of_some hi] at hj
  -- A future that parks in this step saw no permit, so `j` is another one.
  have hji : j ≠ i := by
    rintro rfl
    simp only [if_true, Option.some.injEq] at hj
    subst hj
    exact hzero (hself hpc)
  rw [if_neg hji] at hj
  have hbx : some b ≠ x := by
    rw [← hreg]
    exact (hx j g hji hj).resolve_left (by simp [hreg])
  have hq' : a.kind b = some .queued := by rw [← hk.kind b hbx, hq]
  have hold : s.semaphore.permits ≤ tally (cover a b) s.acquires + owed s :=
    hc j g b hj hpc hreg hq'
  -- The covers of the others do not shrink, and this one gives up no more than it takes.
  have hmono := tally_set_mono (f := cover a b) (g := cover a' b) hi f' fun j g hji hj =>
    cover_mono hk hbx (hx j g hji hj)
  have howed := tally_set Acquire.owed hi f'
  have := hnum.resolve_left hzero b hq' hbx
  simp only [owed, hacq, hwakers] at *
  omega

/-! ### The steps -/

/-- What a step of `try_acquire` does: it takes a permit, or it finds the count at zero, or it
goes on with a compare-exchange that expects the count it saw. -/
theorem tryAcquire_spec (permits : Nat) {pc : TryPc} (hpc : pc ≠ .compareExchange 0)
    (spurious : Bool) :
    (∃ n, permits = n + 1 ∧ tryAcquire permits spurious pc = (n, .taken)) ∨
    (permits = 0 ∧ tryAcquire permits spurious pc = (0, .failed)) ∨
    (permits ≠ 0 ∧
      tryAcquire permits spurious pc = (permits, .again (.compareExchange permits))) := by
  have hloop : (permits = 0 ∧ tryLoop permits = .failed) ∨
      (permits ≠ 0 ∧ tryLoop permits = .again (.compareExchange permits)) := by
    by_cases h : permits = 0 <;> simp [tryLoop, h]
  cases pc with
  | load =>
    right
    rcases hloop with ⟨h0, hl⟩ | ⟨h0, hl⟩
    · exact .inl ⟨h0, by rw [tryAcquire, hl, h0]⟩
    · exact .inr ⟨h0, by rw [tryAcquire, hl]⟩
  | compareExchange current =>
    have hc : current ≠ 0 := by
      rintro rfl
      exact hpc rfl
    by_cases hcas : permits = current ∧ spurious = false
    · left
      exact ⟨permits - 1, by omega, by simp [tryAcquire, hcas]⟩
    · right
      rcases hloop with ⟨h0, hl⟩ | ⟨h0, hl⟩
      · refine .inl ⟨h0, ?_⟩
        rw [tryAcquire, if_neg hcas, hl, h0]
      · exact .inr ⟨h0, by rw [tryAcquire, if_neg hcas, hl]⟩

/-- The invariant after one future moved. -/
theorem Inv.move {s : State} {a a' : AbsQueue} (h : Inv s a) {i : Nat} {f n : Acquire}
    (hi : s.acquires[i]? = some f) {m : Semaphore} {d : Nat} (hr : m.waiters.Repr a')
    (ho : Owned a' (Function.update (attr Acquire.registration s.acquires) i n.registration))
    (hnum : m.permits + d + n.inHand = s.semaphore.permits + s.held + f.inHand)
    (hok : FutureOk n) (wakes : List Waker) :
    Inv { s with semaphore := m, acquires := s.acquires.set i n, held := d,
                 wakes := wakes } a' where
  repr := hr
  owned := by
    rw [attr_set Acquire.registration hi]
    exact ho
  conserved := by
    have := tally_set Acquire.inHand hi n
    have := h.conserved
    simp only [livePermits] at *
    omega
  futures g hg := by
    rcases List.mem_or_eq_of_mem_set hg with hg | rfl
    · exact h.futures g hg
    · exact hok
  calls := h.calls

/-- The state after the future at `i` moved. -/
def moved (s : State) (i : Nat) (sem : Semaphore) (f : Acquire) (held : Nat)
    (wakes : List Waker) : State :=
  { s with semaphore := sem, acquires := s.acquires.set i f, held := held, wakes := wakes }

/-- What a move has to establish: the invariant, and the covers unless it is the bad step. -/
def Moves (s : State) (a : AbsQueue) (s' : State) (bad : Prop) : Prop :=
  ∃ a', Inv s' a' ∧ (AllCovered s a → ¬bad → AllCovered s' a')

/-- A move that keeps the token and the queue. -/
theorem move_local {s : State} {a : AbsQueue} (h : Inv s a) {i : Nat} {f n : Acquire}
    (hi : s.acquires[i]? = some f) {m : Semaphore}
    (hq : m.waiters = s.semaphore.waiters) (hreg : n.registration = f.registration)
    (hnum : m.permits + n.inHand = s.semaphore.permits + f.inHand)
    (hok : FutureOk n) (hself : n.pc = .idle true → m.permits = 0)
    (hcover : m.permits = 0 ∨ ∀ b, m.permits + cover a b f + f.owed
      ≤ s.semaphore.permits + cover a b n + n.owed)
    (wakes : List Waker) (bad : Prop) : Moves s a (moved s i m n s.held wakes) bad := by
  refine ⟨a, h.move hi (by rw [hq]; exact h.repr) ?_ (by omega) hok wakes, fun hc _ => ?_⟩
  · rw [hreg]
    exact h.owned.keep_at hi
  · refine hc.move hi (Keeps.refl a f.registration) (h.owned.others hi) rfl rfl hself ?_
    exact hcover.imp_right fun hle b _ _ => hle b

/-- A step of `try_acquire` in a poll. The future keeps its cover while the try goes on. -/
theorem try_moves {s : State} {a : AbsQueue} (h : Inv s a) {i : Nat} {f : Acquire}
    (hi : s.acquires[i]? = some f) {pc : TryPc} (hpc : f.tryPc = some pc) (spurious : Bool)
    (again : TryPc → Pc) (failed : Pc)
    (hagain : ∀ pc, Acquire.tryPc { f with pc := again pc } = some pc ∧
      ∀ b, cover a b { f with pc := again pc } = cover a b f)
    (hfailed : FutureOk { f with pc := failed } ∧ failed ≠ .taken)
    (wakes : List Waker) (bad : Prop) :
    Moves s a (moved s i (afterTry s.semaphore f spurious pc again failed).1
      (afterTry s.semaphore f spurious pc again failed).2 s.held wakes) bad := by
  -- A try never expects zero, since it fails on that count.
  have hnot : pc ≠ .compareExchange 0 := fun e =>
    (h.futures f (List.mem_of_getElem? hi)).expects (by rw [hpc, e])
  have hbase : ∀ g : Acquire, g.tryPc ≠ none → g.inHand = 0 ∧ g.owed = 0 := by
    rintro ⟨registration, pc⟩ hg
    cases pc <;> simp_all [Acquire.tryPc, Acquire.inHand, Acquire.owed]
  obtain ⟨hhand, hno⟩ := hbase f (by simp [hpc])
  rcases tryAcquire_spec s.semaphore.permits hnot spurious with
    ⟨n, hn, ht⟩ | ⟨h0, ht⟩ | ⟨h0, ht⟩
  · -- It takes a permit, and gives up a cover of at most one.
    have he : afterTry s.semaphore f spurious pc again failed
        = ({ s.semaphore with permits := n }, { f with pc := .taken }) := by
      simp [afterTry, ht]
    rw [he]
    refine move_local (n := { f with pc := .taken }) (m := { s.semaphore with permits := n }) h
      hi rfl rfl ?_ ⟨by simp [Acquire.tryPc], by simp⟩ (by simp) (.inr fun b => ?_) wakes bad
    · rw [hhand, hn]
      rfl
    · have := cover_le_one a b f
      rw [hno, hn]
      show n + cover a b f + 0 ≤ n + 1 + 0 + 0
      omega
  · -- The count is zero, and a count of zero needs no cover.
    have he : afterTry s.semaphore f spurious pc again failed
        = ({ s.semaphore with permits := 0 }, { f with pc := failed }) := by
      simp [afterTry, ht]
    rw [he]
    refine move_local (n := { f with pc := failed }) (m := { s.semaphore with permits := 0 }) h
      hi rfl rfl ?_ hfailed.1 (fun _ => rfl) (.inl rfl) wakes bad
    rw [hhand, h0, Acquire.inHand, if_neg hfailed.2]
  · -- The exchange failed, and the try goes on with the count it saw.
    have he : afterTry s.semaphore f spurious pc again failed
        = (s.semaphore, { f with pc := again (.compareExchange s.semaphore.permits) }) := by
      simp [afterTry, ht]
    obtain ⟨htry, hcover⟩ := hagain (.compareExchange s.semaphore.permits)
    obtain ⟨hhand', hno'⟩ := hbase { f with pc := again (.compareExchange s.semaphore.permits) }
      (by simp [htry])
    rw [he]
    refine move_local (n := { f with pc := again (.compareExchange s.semaphore.permits) }) h hi
      rfl rfl (by rw [hhand', hhand]) ⟨by simp [htry, h0], ?_⟩ ?_
      (.inr fun b => by rw [hcover, hno, hno']) wakes bad
    · rintro (e | e | e) <;> simp only at e <;> simp [Acquire.tryPc, e] at htry
    · intro e
      simp only at e
      simp [Acquire.tryPc, e] at htry

/-- `register` puts the future at the back of the queue. A grant it takes back is carried over
into the second try, where it covers a permit for every waiter ahead. -/
theorem register_moves {s : State} {a : AbsQueue} (h : Inv s a) {i : Nat}
    {registration : Option Nat} {waker : Waker}
    (hi : s.acquires[i]? = some ⟨registration, .register waker⟩) :
    ∃ queue id, Waiters.register s.semaphore.waiters registration waker = some (queue, id) ∧
      ∀ wakes bad, Moves s a (moved s i { s.semaphore with waiters := queue }
        ⟨some id, .second .load (s.semaphore.waiters.slotKind registration = some .one)⟩
        s.held wakes) bad := by
  obtain ⟨queue, id, hq, hid, hr⟩ := Waiters.register_spec h.repr (h.owned.live_at hi) waker
  refine ⟨queue, id, hq, fun wakes bad => ⟨a.register id (some waker), ?_, fun hc _ => ?_⟩⟩
  · refine h.move hi hr ?_ (by simp [Acquire.inHand]) ⟨by simp [Acquire.tryPc], by simp⟩ wakes
    exact h.owned.register_at hi hid (some waker)
  · refine hc.move hi (keeps_register a id (some waker)) (h.owned.others_of_register hi hid) rfl
      rfl (by simp) (.inr ?_)
    intro b hb hbid
    -- The future covered a permit before exactly when its slot held a grant.
    rw [h.repr.slotKind_eq]
    by_cases hone : registration.bind a.kind = some .one
    -- It goes to the back, behind every waiter that is parked.
    · have hbehind : List.Sublist [b, id] (a.register id (some waker)).fifo := by
        have hnq : a.kind id ≠ some .queued := by
          rcases hid with rfl | ⟨rfl, -⟩
          · simp at hone
            simp [hone]
          · simp at hone
        simp only [AbsQueue.register, hnq, if_false]
        exact (List.singleton_sublist.mpr ((h.repr.mem_fifo b).mpr hb)).append
          (List.Sublist.refl [id])
      simp [moved, cover, hone, Acquire.owed, hbehind]
    · simp [moved, cover, hone, Acquire.owed]

/-- A poll that took its permit gives its registration back. -/
theorem taken_moves {s : State} {a : AbsQueue} (h : Inv s a) {i : Nat}
    {registration : Option Nat} (hi : s.acquires[i]? = some ⟨registration, .taken⟩) :
    ∃ queue kind, Waiters.remove s.semaphore.waiters registration = some (queue, kind) ∧
      ∀ wakes bad, Moves s a (moved s i { s.semaphore with waiters := queue }
        ⟨none, .idle false⟩ (s.held + 1) wakes) bad := by
  obtain ⟨queue, hq, hr⟩ := Waiters.remove_spec h.repr (h.owned.live_at hi)
  refine ⟨queue, _, hq, fun wakes bad => ⟨a.forget registration, ?_, fun hc _ => ?_⟩⟩
  · refine h.move hi hr ?_ (by simp [Acquire.inHand]; omega) ⟨by simp [Acquire.tryPc], by simp⟩
      wakes
    exact h.owned.forget_at hi
  · refine hc.move hi (keeps_forget a registration) (h.owned.others hi) rfl rfl (by simp) (.inr ?_)
    intro b _ _
    simp [moved, cover, Acquire.owed]

/-- A dropped future gives its registration back. A grant it held becomes a `wake_one` that it
owes. -/
theorem drop_moves {s : State} {a : AbsQueue} (h : Inv s a) {i : Nat}
    {registration : Option Nat} {pending : Bool}
    (hi : s.acquires[i]? = some ⟨registration, .idle pending⟩) :
    ∃ sem f', drop s.semaphore ⟨registration, .idle pending⟩ = some (sem, f') ∧
      ∀ wakes bad, Moves s a (moved s i sem f' s.held wakes) bad := by
  obtain ⟨queue, hq, hr⟩ := Waiters.remove_spec h.repr (h.owned.live_at hi)
  have hdrop : drop s.semaphore ⟨registration, .idle pending⟩
      = some ({ s.semaphore with waiters := queue },
        ⟨none, if registration.bind a.kind = some .one then .dropLoad else .dropped⟩) := by
    simp only [drop, hq]
  refine ⟨_, _, hdrop, fun wakes bad => ⟨a.forget registration, ?_, fun hc _ => ?_⟩⟩
  · refine h.move hi hr ?_ ?_ ?_ wakes
    · exact h.owned.forget_at hi
    · by_cases hone : registration.bind a.kind = some .one <;> simp [Acquire.inHand, hone]
    · by_cases hone : registration.bind a.kind = some .one <;>
        exact ⟨by simp [Acquire.tryPc, hone], fun _ => rfl⟩
  · refine hc.move hi (keeps_forget a registration) (h.owned.others hi) rfl rfl ?_ (.inr ?_)
    · by_cases hone : registration.bind a.kind = some .one <;> simp [hone]
    · intro b _ _
      by_cases hone : registration.bind a.kind = some .one <;>
        simp [moved, cover, Acquire.owed, hone]

/-- A grant to the oldest waiter, which has not taken its permit, is one more cover for every
other queued waiter. -/
theorem grant_cover {s : State} {a : AbsQueue} (h : Inv s a) {id b : Nat} {rest : List Nat}
    (hfifo : a.fifo = id :: rest) (hb : a.kind b = some .queued) (hne : b ≠ id)
    (htaken : headTaken s = false) :
    tally (cover a b) s.acquires + 1 ≤ tally (cover (a.grant id) b) s.acquires := by
  -- The oldest id is queued, so it has an owner.
  have hq : a.kind id = some .queued := (h.repr.mem_fifo id).mp (by simp [hfifo])
  obtain ⟨k, hk⟩ := h.owned.owner id (by
    rw [ne_eq, ← AbsQueue.kind_eq_none, hq]
    simp)
  obtain ⟨f, hf, hreg⟩ := Option.bind_eq_some_iff.mp hk
  have hmem := List.mem_of_getElem? hf
  -- The owner of the oldest id gives no cover now, and gives one once it is granted.
  have hold : cover a b f = 0 := by
    have hone : f.registration.bind a.kind ≠ some .one := by simp [hreg, hq]
    have hbehind : ¬∃ y, f.registration = some y ∧ List.Sublist [b, y] a.fifo := by
      rintro ⟨y, hy, hsub⟩
      obtain rfl : id = y := Option.some.inj (hreg.symm.trans hy)
      rw [hfifo] at hsub
      have hnd := h.repr.nodup
      rw [hfifo, List.nodup_cons] at hnd
      cases hsub with
      | cons _ hsub => exact hnd.1 (hsub.subset (by simp))
      | cons_cons _ hsub => exact hne rfl
    unfold cover
    split <;> simp [hone, hbehind]
  have hnew : cover (a.grant id) b f = 1 := by
    have hone : f.registration.bind (a.grant id).kind = some .one := by simp [hreg]
    -- A future past its try would not take the grant to a permit.
    have hpc : f.pc ≠ .taken := by
      intro e
      have : headTaken s = true := by
        rw [headTaken, List.any_eq_true]
        refine ⟨f, hmem, ?_⟩
        simp [e, hreg, h.repr.head_eq, hfifo]
      simp [htaken] at this
    have hgone := (h.futures f hmem).gone
    unfold cover
    split <;> simp_all
  -- The covers of the others do not shrink.
  have hmono := tally_set_mono (f := cover a b) (g := cover (a.grant id) b) hf f (by
    intro j g hj hg
    refine cover_mono (keeps_grant a id) (by simpa using hne) ?_
    rw [← hreg]
    exact h.owned.others hf _ _ hj hg)
  have hset : s.acquires.set k f = s.acquires := by
    obtain ⟨hlt, rfl⟩ := List.getElem?_eq_some_iff.mp hf
    exact List.set_getElem_self hlt
  rw [hset] at hmono
  omega

/-- A `wake_one` grants the oldest waiter, and the covers make up for the call that is no longer
owed. The call is by a releaser, or by a dropped future. -/
theorem wakeOne_covers {s s' : State} {a : AbsQueue} (h : Inv s a) (hc : AllCovered s a)
    (htaken : headTaken s = false) (hp : s'.semaphore.permits = s.semaphore.permits)
    (howed : owed s' + 1 = owed s)
    (hsame : ∀ b, tally (cover a.wakeOne b) s'.acquires = tally (cover a.wakeOne b) s.acquires)
    (hparked : ∀ (i : Nat) f, s'.acquires[i]? = some f → f.pc = .idle true →
      s.acquires[i]? = some f) : AllCovered s' a.wakeOne := by
  intro i f b hi hpc hreg hq
  unfold CoveredFor
  cases hfifo : a.fifo with
  | nil =>
    -- With nobody queued there is nobody parked.
    have ha : a.wakeOne = a := by simp [AbsQueue.wakeOne, hfifo]
    rw [ha, ← h.repr.mem_fifo, hfifo] at hq
    simp at hq
  | cons id rest =>
    have ha : a.wakeOne = a.grant id := by simp [AbsQueue.wakeOne, hfifo]
    rw [ha, AbsQueue.kind_grant] at hq
    have hne : b ≠ id := by
      rintro rfl
      simp at hq
    rw [if_neg hne] at hq
    have hold : s.semaphore.permits ≤ tally (cover a b) s.acquires + owed s :=
      hc i f b (hparked i f hi hpc) hpc hreg hq
    have := grant_cover h hfifo hq hne htaken
    rw [hsame, ha, hp]
    omega

/-- `wake_one` keeps the live ids. -/
theorem Inv.wakeOne_owned {s : State} {a : AbsQueue} (h : Inv s a) {token : Nat → Option Nat}
    (ho : Owned a token) : Owned a.wakeOne token := by
  cases hfifo : a.fifo with
  | nil => simpa [AbsQueue.wakeOne, hfifo] using ho
  | cons id rest =>
    have ha : a.wakeOne = a.grant id := by simp [AbsQueue.wakeOne, hfifo]
    rw [ha]
    exact ho.of_live (h.repr.grant_live (by simp [hfifo]))

/-- The last step of `Drop for Acquire`: the `wake_one` it owes. -/
theorem dropWake_moves {s : State} {a : AbsQueue} (h : Inv s a) {i : Nat}
    {registration : Option Nat} (hi : s.acquires[i]? = some ⟨registration, .dropWake⟩) :
    ∃ queue waker, Waiters.wakeOne s.semaphore.waiters = some (queue, waker) ∧
      ∀ wakes, Moves s a (moved s i { s.semaphore with waiters := queue }
        ⟨registration, .dropped⟩ s.held wakes) (headTaken s = true) := by
  obtain ⟨queue, waker, hq, hr⟩ := Waiters.wakeOne_spec h.repr
  have hgone := (h.futures _ (List.mem_of_getElem? hi)).gone (.inr (.inl rfl))
  refine ⟨queue, waker, hq, fun wakes => ⟨a.wakeOne, ?_, fun hc htaken => ?_⟩⟩
  · have ho := h.wakeOne_owned (h.owned.keep_at hi)
    exact h.move (n := ⟨registration, .dropped⟩) (m := { s.semaphore with waiters := queue })
      (d := s.held) hi hr ho (by simp [Acquire.inHand])
      ⟨by simp [Acquire.tryPc], fun _ => hgone⟩ wakes
  · refine wakeOne_covers h hc (by simpa using htaken) rfl ?_ ?_ ?_
    · have := tally_set Acquire.owed hi ⟨registration, .dropped⟩
      simp only [Acquire.owed] at this
      simp only [owed, moved]
      omega
    · intro b
      exact tally_set_of_eq (cover a.wakeOne b) hi rfl
    · intro j g hj hpc
      simp only [moved] at hj
      rw [getElem?_set_of_some hi] at hj
      split at hj
      · cases hj
        simp at hpc
      · exact hj

/-- What a step of a poll or a drop in progress does. Only the `wake_one` of a drop can be the
bad step. -/
theorem advance_spec {s : State} {a : AbsQueue} (h : Inv s a) {i : Nat} {f : Acquire}
    (hi : s.acquires[i]? = some f) (hidle : ∀ pending, f.pc ≠ .idle pending)
    (hdropped : f.pc ≠ .dropped) (spurious : Bool) :
    ∃ sem f' waker, advance s.semaphore f spurious = some (sem, f', waker) ∧
      ∀ wakes, Moves s a
        (moved s i sem f' (if f.pc = .taken then s.held + 1 else s.held) wakes)
        (f.pc = .dropWake ∧ headTaken s = true) := by
  obtain ⟨registration, pc⟩ := f
  cases pc with
  | idle pending => exact absurd rfl (hidle pending)
  | dropped => exact absurd rfl hdropped
  | first waker pc =>
    refine ⟨_, _, _, rfl, fun wakes => ?_⟩
    exact try_moves h hi rfl spurious (.first waker) (.register waker)
      (fun _ => ⟨rfl, fun _ => rfl⟩) ⟨⟨by simp [Acquire.tryPc], by simp⟩, by simp⟩ wakes _
  | register waker =>
    obtain ⟨queue, id, hq, hm⟩ := register_moves h hi
    refine ⟨_, _, _, by simp only [advance, hq]; rfl, fun wakes => hm wakes _⟩
  | second pc granted =>
    refine ⟨_, _, _, rfl, fun wakes => ?_⟩
    exact try_moves h hi rfl spurious (.second · granted) (.idle true)
      (fun _ => ⟨rfl, fun _ => by cases granted <;> rfl⟩)
      ⟨⟨by simp [Acquire.tryPc], by simp⟩, by simp⟩ wakes _
  | taken =>
    obtain ⟨queue, kind, hq, hm⟩ := taken_moves h hi
    refine ⟨_, _, _, by simp only [advance, hq]; rfl, fun wakes => hm wakes _⟩
  -- The drop of a granted future hands the grant on when it sees a free permit.
  | dropLoad =>
    refine ⟨_, _, _, rfl, fun wakes => ?_⟩
    -- A future that is being dropped has given its slot back.
    have hgone := (h.futures _ (List.mem_of_getElem? hi)).gone (.inl rfl)
    have hmove := fun f' => move_local (n := f') (m := s.semaphore) h hi rfl
    by_cases h0 : s.semaphore.permits = 0
    · simp only [h0, ne_eq, not_true, if_false]
      exact hmove ⟨registration, .dropped⟩ rfl (by simp [Acquire.inHand])
        ⟨by simp [Acquire.tryPc], fun _ => hgone⟩ (fun _ => h0) (.inl h0) wakes _
    · simp only [ne_eq, h0, not_false_eq_true, if_true]
      exact hmove ⟨registration, .dropWake⟩ rfl (by simp [Acquire.inHand])
        ⟨by simp [Acquire.tryPc], fun _ => hgone⟩ (by simp)
        (.inr fun b => by simp [cover, Acquire.owed]) wakes _
  | dropWake =>
    obtain ⟨queue, waker, hq, hm⟩ := dropWake_moves h hi
    refine ⟨_, _, _, by simp only [advance, hq]; rfl, fun wakes => ?_⟩
    obtain ⟨a', hinv, hcov⟩ := hm wakes
    exact ⟨a', hinv, fun hc hbad => hcov hc fun ht => hbad ⟨rfl, ht⟩⟩

/-- A call that raises the count owes as many `wake_one` calls as it added permits. -/
theorem raise_moves [Target] {s : State} {a : AbsQueue} (h : Inv s a) (n held added : Nat)
    (hnum : held + s.added + n = s.held + added) (hb : s.initial + added < usizeModulus) :
    Moves s a { s with semaphore := raise s.semaphore n, held := held, added := added,
                       wakers := s.wakers ++ [n] } False := by
  have hcons := h.conserved
  -- The permits that exist fit a word, so the addition does not wrap.
  have hadd : usizeAdd s.semaphore.permits n = s.semaphore.permits + n := by
    refine usizeAdd_of_lt ?_
    simp only [livePermits] at hcons
    omega
  refine ⟨a, ⟨h.repr, h.owned, ?_, h.futures, h.calls⟩, fun hc _ => ?_⟩
  · simp only [livePermits, raise, hadd] at hcons ⊢
    omega
  · intro i f b hi hpc hreg hq
    have hold : s.semaphore.permits ≤ tally (cover a b) s.acquires + owed s :=
      hc i f b hi hpc hreg hq
    simp only [CoveredFor, raise, hadd, owed, List.sum_append, List.sum_singleton] at hold ⊢
    omega

/-- A step that leaves the futures, the queue and the owed calls alone, and raises no count. -/
structure Quiet (s s' : State) : Prop where
  waiters : s'.semaphore.waiters = s.semaphore.waiters
  acquires : s'.acquires = s.acquires
  wakers : s'.wakers = s.wakers
  permits : s'.semaphore.permits ≤ s.semaphore.permits
  conserved : s'.semaphore.permits + s'.held + s'.forgotten
    = s.semaphore.permits + s.held + s.forgotten
  initial : s'.initial = s.initial
  added : s'.added = s.added
  calls : some (.compareExchange 0) ∉ s'.tries

/-- A quiet step grants nothing and raises no count. -/
theorem Inv.quiet {s s' : State} {a : AbsQueue} {bad : Prop} (h : Inv s a) (hs : Quiet s s') :
    Moves s a s' bad := by
  have hcons := h.conserved
  have hnum := hs.conserved
  have hle := hs.permits
  refine ⟨a, ⟨by rw [hs.waiters]; exact h.repr, by rw [hs.acquires]; exact h.owned, ?_,
    by rw [hs.acquires]; exact h.futures, hs.calls⟩, fun hc _ => ?_⟩
  · simp only [livePermits, hs.acquires, hs.initial, hs.added] at hcons ⊢
    omega
  · intro i f b hi hpc hreg hq
    rw [hs.acquires] at hi
    have hold : s.semaphore.permits ≤ tally (cover a b) s.acquires + owed s :=
      hc i f b hi hpc hreg hq
    simp only [CoveredFor, owed, hs.acquires, hs.wakers] at hold ⊢
    omega

/-- What one step does. -/
theorem step_spec [Target] {s s' : State} {a : AbsQueue} {act : Action} (h : Inv s a)
    (hs : step s act = some s') (hb : Bounded s') :
    Moves s a s' (wakesOne s act = true ∧ headTaken s = true) := by
  cases act with
  | acquire =>
    cases hs
    have hcons := h.conserved
    refine ⟨a, ⟨h.repr, ?_, ?_, ?_, h.calls⟩, fun hc _ => ?_⟩
    · rw [attr_append_of_none Acquire.registration s.acquires (by rfl)]
      exact h.owned
    · simpa [livePermits, Acquire.inHand] using hcons
    · intro f hf
      rcases List.mem_append.mp hf with hf | hf
      · exact h.futures f hf
      · obtain rfl := List.mem_singleton.mp hf
        exact ⟨by simp [Acquire.tryPc], by simp⟩
    · -- A new future is not parked yet.
      intro i f b hi hpc hreg hq
      rcases getElem?_append_singleton hi with hi | ⟨-, rfl⟩
      · have hold : s.semaphore.permits ≤ tally (cover a b) s.acquires + owed s :=
          hc i f b hi hpc hreg hq
        simp only [CoveredFor, owed, tally_append] at hold ⊢
        omega
      · simp at hpc
  | poll i waker =>
    simp only [step] at hs
    split at hs
    · -- A poll starts with a try, which is outside the lock.
      rename_i registration pending hi
      cases hs
      exact move_local (n := ⟨registration, .first waker .load⟩) h hi rfl rfl
        (by simp [Acquire.inHand]) ⟨by simp [Acquire.tryPc], by simp⟩ (by simp)
        (.inr fun b => by simp [cover, Acquire.owed]) s.wakes _
    · cases hs
  | advance i spurious =>
    simp only [step] at hs
    split at hs
    · cases hs
    · rename_i f hi
      have hidle : ∀ pending, f.pc ≠ .idle pending := by
        intro pending e
        simp [advance, e] at hs
      have hdropped : f.pc ≠ .dropped := by
        intro e
        simp [advance, e] at hs
      obtain ⟨sem, f', waker, hadv, hm⟩ := advance_spec h hi hidle hdropped spurious
      simp only [hadv, Option.some.injEq] at hs
      subst hs
      have hbad : wakesOne s (.advance i spurious) = true ↔ f.pc = .dropWake := by
        simp [wakesOne, hi]
      rw [hbad]
      exact hm _
  | drop i =>
    simp only [step] at hs
    split at hs
    · rename_i registration pending hi
      obtain ⟨sem, f', hd, hm⟩ := drop_moves h hi
      simp only [hd, Option.some.injEq] at hs
      subst hs
      exact hm _ _
    · cases hs
  | tryAcquire =>
    cases hs
    exact h.quiet ⟨rfl, rfl, rfl, le_rfl, rfl, rfl, rfl, by simpa using h.calls⟩
  | advanceTry i spurious =>
    simp only [step] at hs
    split at hs
    · rename_i pc hi
      have hpc : pc ≠ .compareExchange 0 := fun e => h.calls (e ▸ List.mem_of_getElem? hi)
      -- The call writes its own place, and a place other than a compare-exchange of zero.
      have hcalls : ∀ t, t ≠ some (.compareExchange 0) →
          some (.compareExchange 0) ∉ s.tries.set i t := by
        intro t ht hmem
        rcases List.mem_or_eq_of_mem_set hmem with hmem | hmem
        · exact h.calls hmem
        · exact ht hmem.symm
      -- The call takes a permit, finds none, or goes round.
      rcases tryAcquire_spec s.semaphore.permits hpc spurious with
        ⟨n, hn, ht⟩ | ⟨h0, ht⟩ | ⟨h0, ht⟩ <;> simp only [ht] at hs <;> cases hs
      · exact h.quiet ⟨rfl, rfl, rfl, by simp only; omega, by simp only; omega, rfl, rfl,
          hcalls _ (by simp)⟩
      · exact h.quiet ⟨rfl, rfl, rfl, by simp only; omega, by simp only; omega, rfl, rfl,
          hcalls _ (by simp)⟩
      · exact h.quiet ⟨rfl, rfl, rfl, le_rfl, rfl, rfl, rfl, hcalls _ (by simp [h0])⟩
    · cases hs
  | dropPermit =>
    simp only [step] at hs
    split at hs
    · cases hs
    · cases hs
      -- The permit comes back to the count, and a wake is owed for it.
      obtain ⟨a', hinv, hcov⟩ := raise_moves h 1 (s.held - 1) s.added
        (by omega) hb
      exact ⟨a', hinv, fun hc _ => hcov hc not_false⟩
  | forget =>
    simp only [step] at hs
    split at hs
    · cases hs
    · cases hs
      -- A permit that is forgotten leaves the pool for good.
      exact h.quiet ⟨rfl, rfl, rfl, le_rfl, by simp only; omega, rfl, rfl, h.calls⟩
  | addPermits n =>
    simp only [step] at hs
    split at hs
    -- `add_permits(0)` returns at once.
    · cases hs
      exact h.quiet ⟨rfl, rfl, rfl, le_rfl, rfl, rfl, rfl, h.calls⟩
    · cases hs
      obtain ⟨a', hinv, hcov⟩ := raise_moves h n s.held (s.added + n)
        (by omega) hb
      exact ⟨a', hinv, fun hc _ => hcov hc not_false⟩
  | wakeOne j =>
    simp only [step] at hs
    split at hs
    · rename_i n hj
      obtain ⟨queue, waker, hq, hr⟩ := Waiters.wakeOne_spec h.repr
      simp only [hq, Option.some.injEq] at hs
      subst hs
      -- The grant goes to the oldest waiter, and the wake that was owed is paid.
      refine ⟨a.wakeOne, ⟨hr, h.wakeOne_owned h.owned, h.conserved, h.futures, h.calls⟩,
        fun hc hbad => ?_⟩
      refine wakeOne_covers h hc (by simpa [wakesOne] using hbad) rfl ?_ (fun _ => rfl)
        fun _ _ hi _ => hi
      have := tally_set (fun n : Nat => n) hj n
      simp only [tally, List.map_id'] at this
      simp only [owed]
      omega
    · cases hs
  | wake =>
    simp only [step] at hs
    split at hs
    · cases hs
    · cases hs
      exact h.quiet ⟨rfl, rfl, rfl, le_rfl, rfl, rfl, rfl, h.calls⟩

/-! ### Whole runs -/

/-- A new semaphore meets the invariant, and nobody is parked. -/
theorem inv_init [Target] {s : State} (h : system.init s) : ∃ a, Inv s a ∧ AllCovered s a := by
  obtain ⟨permits, -, rfl⟩ := h
  refine ⟨AbsQueue.empty, ⟨WaitQueue.repr_new, Owned.empty, ?_, ?_, ?_⟩, ?_⟩
  · simp [new, livePermits]
  · intro f hf
    simp [new] at hf
  · simp [new]
  · intro i f b hi
    simp [new] at hi

/-- The invariant of every run whose permits fit a word. -/
theorem inv_of_reach [Target] {s : State} (h : system.Reach (fun _ _ s' => Bounded s') s) :
    ∃ a, Inv s a := by
  refine h.invariant (P := fun s => ∃ a, Inv s a) (fun s h0 => ?_)
    fun s act s' ⟨a, hinv⟩ hs hb => ?_
  · obtain ⟨a, hinv, -⟩ := inv_init h0
    exact ⟨a, hinv⟩
  · obtain ⟨a', hinv', -⟩ := step_spec hinv hs hb
    exact ⟨a', hinv'⟩

/-- No section panics: a poll or a drop in progress can always take its next step, and so can a
call that owes a `wake_one`. -/
theorem no_panic [Target] {s : State} (h : system.Reach (fun _ _ s' => Bounded s') s) :
    (∀ i f spurious, s.acquires[i]? = some f → (∀ pending, f.pc ≠ .idle pending) →
      f.pc ≠ .dropped → (step s (.advance i spurious)).isSome) ∧
    (∀ (i : Nat) registration pending, s.acquires[i]? = some ⟨registration, .idle pending⟩ →
      (step s (.drop i)).isSome) ∧
    (∀ j n : Nat, s.wakers[j]? = some (n + 1) → (step s (.wakeOne j)).isSome) := by
  obtain ⟨a, hinv⟩ := inv_of_reach h
  refine ⟨?_, ?_, ?_⟩
  · intro i f spurious hi hidle hdropped
    obtain ⟨sem, f', waker, hadv, -⟩ := advance_spec hinv hi hidle hdropped spurious
    simp [step, hi, hadv]
  · intro i registration pending hi
    obtain ⟨sem, f', hd, -⟩ := drop_moves hinv hi
    simp [step, hi, hd]
  · intro j n hj
    obtain ⟨queue, waker, hq, -⟩ := Waiters.wakeOne_spec hinv.repr
    simp [step, hj, hq]

/-- The permits are conserved in every run: those available, those live and those forgotten are
the initial ones and the added ones. -/
theorem permits_conserved [Target] {s : State}
    (h : system.Reach (fun _ _ s' => Bounded s') s) :
    s.semaphore.permits + livePermits s + s.forgotten = s.initial + s.added := by
  obtain ⟨a, hinv⟩ := inv_of_reach h
  exact hinv.conserved

/-- A future that covers a permit for somebody is a granted one. -/
theorem Inv.cover_le_granted {s : State} {a : AbsQueue} (h : Inv s a) (b : Nat) (f : Acquire) :
    cover a b f ≤ f.granted s.semaphore.waiters := by
  unfold Acquire.granted
  rw [h.repr.slotKind_eq]
  obtain ⟨registration, pc⟩ := f
  cases pc with
  | second pc granted =>
    cases granted with
    | true => exact cover_le_one a b _
    | false => exact le_rfl
  | _ => exact le_rfl

/-- The covers of the parked waiters bound the free permits. -/
theorem Inv.covered {s : State} {a : AbsQueue} (h : Inv s a) (hc : AllCovered s a) :
    Covered s := by
  rintro ⟨f, hf, hparked⟩
  obtain ⟨i, hi⟩ := List.mem_iff_getElem?.mp hf
  simp only [parked, h.repr.slotKind_eq, decide_eq_true_eq] at hparked
  obtain ⟨hpc, hq⟩ := hparked
  obtain ⟨b, hreg, hq⟩ := Option.bind_eq_some_iff.mp hq
  have hcov : s.semaphore.permits ≤ tally (cover a b) s.acquires + owed s :=
    hc i f b hi hpc hreg hq
  have hle := tally_le_tally (f := cover a b) (g := Acquire.granted s.semaphore.waiters)
    (l := s.acquires) fun f _ => h.cover_le_granted b f
  simp only [granted]
  omega

/-- A system with no call in progress owes no `wake_one`. -/
theorem owed_of_idle {s : State} (h : idle s = true) : owed s = 0 := by
  simp only [idle, Bool.and_eq_true, List.all_eq_true] at h
  obtain ⟨⟨hacq, -⟩, hwakers⟩ := h
  have h1 : s.wakers.sum = 0 := List.sum_eq_zero fun n hn => by simpa using hwakers n hn
  have h2 : tally Acquire.owed s.acquires = 0 := by
    refine List.sum_eq_zero fun n hn => ?_
    obtain ⟨f, hf, rfl⟩ := List.mem_map.mp hn
    have := hacq f hf
    obtain ⟨registration, pc⟩ := f
    cases pc <;> simp_all [Acquire.owed]
  simp [owed, h1, h2]

/-- In every run where no `wake_one` picks a waiter that has taken its permit already, the
permits are conserved, and while a waiter is parked a free permit is covered by a granted
waiter or an owed `wake_one`. So an idle system has no free permit and a parked waiter. -/
theorem permits_and_wake_ups [Target] {s : State} (h : system.Reach Careful s) :
    s.semaphore.permits + livePermits s + s.forgotten = s.initial + s.added ∧ Covered s ∧
    (idle s = true → granted s = 0 → (∃ f ∈ s.acquires, parked s f = true) →
      s.semaphore.permits = 0) := by
  obtain ⟨a, hinv, hcov⟩ : ∃ a, Inv s a ∧ AllCovered s a := by
    refine h.invariant (P := fun s => ∃ a, Inv s a ∧ AllCovered s a) (fun s h0 => inv_init h0)
      fun s act s' ⟨a, hinv, hc⟩ hs hok => ?_
    obtain ⟨a', hinv', hc'⟩ := step_spec hinv hs hok.1
    exact ⟨a', hinv', hc' hc hok.2⟩
  have hcovered := hinv.covered hcov
  refine ⟨hinv.conserved, hcovered, fun hidle hgranted hparked => ?_⟩
  have := hcovered hparked
  have := owed_of_idle hidle
  omega

/-- One permit, one waiter: it parks while the permit is out, and it is granted when the permit
comes back. -/
theorem permits_and_wake_ups_granted :
    ∃ s, (@system target64).Reach (@Careful target64) s ∧ s.semaphore.permits = 1 ∧ granted s = 1 ∧
      Covered s := by
  obtain ⟨s, hr, hp⟩ := Lts.Reach.exists_of_runWhere (M := @system target64) (s := new 1)
    (@Careful target64)
    [.tryAcquire, .advanceTry 0 false, .advanceTry 0 false, .acquire, .poll 0 7,
      .advance 0 false, .advance 0 false, .advance 0 false, .dropPermit, .wakeOne 0]
    (fun s => s.semaphore.permits = 1 ∧ granted s = 1) ⟨1, by decide, rfl⟩ (by decide)
  have hp : s.semaphore.permits = 1 ∧ granted s = 1 := by simpa using hp
  exact ⟨s, hr, hp.1, hp.2, (@permits_and_wake_ups target64 s hr).2.1⟩

/-- A lost wake-up. Two permits are out. The first waiter finds the count at zero, a permit
comes back before it registers, and its second try takes that permit. Before it removes its
registration, the second waiter parks behind it and the other permit comes back: the
`wake_one` grants the first waiter, and its `remove` drops the grant. The system is idle, a
permit is free, and the second waiter is parked. -/
theorem wake_up_lost :
    ∃ s, (@system target64).Reach (fun _ _ s' => @Bounded target64 s') s ∧ ¬Covered s ∧
      idle s = true ∧ granted s = 0 ∧ s.semaphore.permits = 1 ∧
      ∃ f ∈ s.acquires, parked s f = true := by
  obtain ⟨s, hr, hp⟩ := Lts.Reach.exists_of_runWhere (M := @system target64) (s := new 2)
    (fun _ _ s' => @Bounded target64 s')
    [.tryAcquire, .advanceTry 0 false, .advanceTry 0 false,
      .tryAcquire, .advanceTry 1 false, .advanceTry 1 false, .acquire, .acquire,
      -- The first try of waiter 0 fails, and then a permit comes back.
      .poll 0 7, .advance 0 false, .dropPermit, .wakeOne 0,
      -- It registers, and its second try takes the permit.
      .advance 0 false, .advance 0 false, .advance 0 false,
      -- Waiter 1 parks behind it.
      .poll 1 8, .advance 1 false, .advance 1 false, .advance 1 false,
      -- The grant for the other permit goes to waiter 0, which drops it.
      .dropPermit, .wakeOne 1, .wake, .advance 0 false]
    (fun s => ¬Covered s ∧ idle s = true ∧ granted s = 0 ∧ s.semaphore.permits = 1 ∧
      ∃ f ∈ s.acquires, parked s f = true) ⟨2, by decide, rfl⟩ (by decide)
  exact ⟨s, hr, by simpa using hp⟩

end SemaphoreSystem

end Nagoya.Sync
