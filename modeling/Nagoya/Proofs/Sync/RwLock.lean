import Nagoya.Proofs.Sync.WaitQueue
import Nagoya.Sync.RwLock

/-!
# `Nagoya.Proofs.Sync.RwLock`: exclusion, and no lost wake-up

`Word state r w` ties the word of the lock to the number of outstanding read and write guards.
Each admission and each release keeps it, so it holds in every reachable state: `exclusion`.
It holds for any number of readers. With `usize::MAX` of them the word equals `WRITER`, and it
is still the number of readers.

`Served` says that a parked future is either blocked by the word or has a `wake_all` coming.
It needs fewer than `usize::MAX` readers. At that number the word reads `WRITER`, and the
release of one of them frees the lock for a reader without waking anybody.
-/

set_option autoImplicit false

namespace Nagoya.Sync

open Nagoya.Lib

namespace RwLockSystem

/-! ### Outstanding guards -/

/-- The weight of a handed out guard of a mode. -/
def guardWeight (mode : Mode) (guard : Option Guard) : Nat :=
  if guard.map Guard.mode = some mode then 1 else 0

/-- The weight of a future that has been admitted and has not returned its guard. -/
def Future.inHand (mode : Mode) (f : Future) : Nat :=
  if f.pc = .taken ∧ f.mode = mode then 1 else 0

/-- The outstanding guards of a mode. -/
def outstanding (mode : Mode) (s : State) : Nat :=
  tally (guardWeight mode) s.guards + tally (Future.inHand mode) s.futures

/-- A future that is not admitted holds no guard. -/
theorem inHand_eq_zero {f : Future} (h : f.pc ≠ .taken) (mode : Mode) : f.inHand mode = 0 := by
  simp [Future.inHand, h]

/-- The state after the future at `i` moved. -/
def moved (s : State) (i : Nat) (lock : RwLock) (f : Future) (guards : List (Option Guard)) :
    State :=
  { s with lock := lock, futures := s.futures.set i f, guards := guards }

/-- The outstanding guards after a move. -/
theorem outstanding_moved {s : State} {i : Nat} {f : Future} (hi : s.futures[i]? = some f)
    (lock : RwLock) (f' : Future) (guards : List (Option Guard)) (mode : Mode) :
    outstanding mode (moved s i lock f' guards) + f.inHand mode
        + tally (guardWeight mode) s.guards
      = outstanding mode s + f'.inHand mode + tally (guardWeight mode) guards := by
  have := tally_set (Future.inHand mode) hi f'
  simp only [outstanding, moved]
  omega

/-- A move of a future that is admitted neither before nor after. -/
theorem outstanding_moved_free {s : State} {i : Nat} {f : Future} (hi : s.futures[i]? = some f)
    (lock : RwLock) {f' : Future} (h : f.pc ≠ .taken) (h' : f'.pc ≠ .taken) (mode : Mode) :
    outstanding mode (moved s i lock f' s.guards) = outstanding mode s := by
  have := outstanding_moved hi lock f' s.guards mode
  rw [inHand_eq_zero h, inHand_eq_zero h'] at this
  omega

section Steps

variable [Target]

/-! ### The word -/

/-- The word `state` with `r` read guards and `w` write guards outstanding. -/
def Word (state r w : Nat) : Prop :=
  (w = 0 ∧ state = r) ∨ (w = 1 ∧ r = 0 ∧ state = writer)

theorem writer_ne_zero : writer ≠ 0 := by
  have := two_lt_usizeModulus
  simp only [writer, usizeMax]
  omega

theorem Word.admitRead {state r w : Nat} (h : Word state r w) (hs : state ≠ writer) :
    Word (state + 1) (r + 1) w := by
  rcases h with ⟨hw, hr⟩ | ⟨-, -, hs'⟩
  · exact .inl ⟨hw, by omega⟩
  · exact absurd hs' hs

theorem Word.admitWrite {r w : Nat} (h : Word 0 r w) : Word writer r (w + 1) := by
  rcases h with ⟨hw, hr⟩ | ⟨-, -, hs⟩
  · exact .inr ⟨by omega, by omega, rfl⟩
  · exact absurd hs.symm writer_ne_zero

theorem Word.releaseRead {state r w : Nat} (h : Word state (r + 1) w)
    (hs : state < usizeModulus) : Word (usizeSub state 1) r w := by
  rcases h with ⟨hw, hr⟩ | ⟨-, hr, -⟩
  · rw [usizeSub_of_le (by omega) hs]
    exact .inl ⟨hw, by omega⟩
  · omega

theorem Word.releaseWrite {state r w : Nat} (h : Word state r (w + 1)) : Word 0 r w := by
  rcases h with ⟨hw, -⟩ | ⟨hw, hr, -⟩
  · omega
  · exact .inl ⟨by omega, by omega⟩

/-! ### The invariant -/

/-- A try is one of the mode it is for, and a reader never expects `WRITER`. -/
def TryOk (mode : Mode) : TryPc → Prop
  | .readLoad => mode = .read
  | .readExchange current => mode = .read ∧ current ≠ writer
  | .writeExchange => mode = .write

/-- What a future knows about itself. A dropped one, and an owned one that gave its `Arc` away,
have no registration, and the latter is never polled again. -/
structure FutureOk (f : Future) : Prop where
  pc : match f.pc with
    | .first _ pc | .second pc => TryOk f.mode pc
    | _ => True
  gone : f.lock = false ∨ f.pc = .dropped → f.registration = none
  polled : f.lock = false → match f.pc with
    | .idle _ | .dropped => True
    | _ => False

/-- The invariant of the system, with the abstract queue it is about. -/
structure Inv (s : State) (a : AbsQueue) : Prop where
  repr : s.lock.waiters.Repr a
  owned : Owned a (attr Future.registration s.futures)
  word : Word s.lock.state (outstanding .read s) (outstanding .write s)
  fits : s.lock.state < usizeModulus
  futures : ∀ f ∈ s.futures, FutureOk f
  calls : ∀ call, some call ∈ s.tries → TryOk call.mode call.pc

/-- The word keeps a future of this mode out. -/
def blocked : Mode → Nat → Prop
  | .read, state => state = writer
  | .write, state => state ≠ 0

/-- Every parked future is kept out by the word, or a `wake_all` is still owed. -/
def Served (s : State) (a : AbsQueue) : Prop :=
  ∀ (i : Nat) f b, s.futures[i]? = some f → f.pc = .idle true → f.registration = some b →
    a.kind b = some .queued → 0 < s.owed ∨ blocked f.mode s.lock.state

/-- What a step has to establish. -/
def Moves (s : State) (a : AbsQueue) (s' : State) : Prop :=
  ∃ a', Inv s' a' ∧ (Served s a → outstanding .read s < usizeMax → Served s' a')

theorem tryStart_ok (mode : Mode) : TryOk mode (tryStart mode) := by
  cases mode <;> exact rfl

/-- What a step of a try does. It admits a reader while the word is not `WRITER`, and a writer
while it is zero. It fails on a word that keeps its mode out. -/
theorem tryRaw_spec {mode : Mode} {pc : TryPc} (hpc : TryOk mode pc) (state : Nat)
    (spurious : Bool) :
    (mode = .read ∧ state ≠ writer ∧ tryRaw state spurious pc = (state + 1, .taken)) ∨
    (mode = .write ∧ state = 0 ∧ tryRaw state spurious pc = (writer, .taken)) ∨
    (blocked mode state ∧ tryRaw state spurious pc = (state, .failed)) ∨
    (∃ pc', TryOk mode pc' ∧ tryRaw state spurious pc = (state, .again pc')) := by
  -- The load of the read loop sees a writer and fails, or it goes on to the exchange.
  have hloop : (state = writer ∧ tryReadLoop state = .failed) ∨
      (state ≠ writer ∧ tryReadLoop state = .again (.readExchange state)) := by
    by_cases h : state = writer <;> simp [tryReadLoop, h]
  cases pc with
  | readLoad =>
    obtain rfl : mode = .read := hpc
    rcases hloop with ⟨hs, hl⟩ | ⟨hs, hl⟩
    · exact .inr (.inr (.inl ⟨hs, by rw [tryRaw, hl]⟩))
    · exact .inr (.inr (.inr ⟨.readExchange state, ⟨rfl, hs⟩, by rw [tryRaw, hl]⟩))
  -- A failed exchange goes round with the word it saw.
  | readExchange current =>
    obtain ⟨rfl, hc⟩ : mode = .read ∧ current ≠ writer := hpc
    by_cases hcas : state = current ∧ spurious = false
    · refine .inl ⟨rfl, by rw [hcas.1]; exact hc, ?_⟩
      rw [tryRaw, if_pos hcas, hcas.1]
    · rcases hloop with ⟨hs, hl⟩ | ⟨hs, hl⟩
      · exact .inr (.inr (.inl ⟨hs, by rw [tryRaw, if_neg hcas, hl]⟩))
      · exact .inr (.inr (.inr ⟨.readExchange state, ⟨rfl, hs⟩,
          by rw [tryRaw, if_neg hcas, hl]⟩))
  | writeExchange =>
    obtain rfl : mode = .write := hpc
    -- The exchange of a write succeeds only on zero, and it is not repeated.
    by_cases hs : state = 0
    · exact .inr (.inl ⟨rfl, hs, by rw [tryRaw, if_pos hs]⟩)
    · exact .inr (.inr (.inl ⟨hs, by rw [tryRaw, if_neg hs]⟩))

/-- An admission of one guard of a mode, seen from the word: the counts, the size of the word,
and who is kept out. -/
theorem admit_spec {mode : Mode} {state state' r w : Nat} (h : Word state r w)
    (hfits : state < usizeModulus)
    (henter : mode = .read ∧ state ≠ writer ∧ state' = state + 1 ∨
      mode = .write ∧ state = 0 ∧ state' = writer) :
    Word state' (r + if mode = .read then 1 else 0) (w + if mode = .write then 1 else 0) ∧
      state' < usizeModulus ∧ ∀ m, blocked m state → blocked m state' := by
  have hmod := two_lt_usizeModulus
  have hw0 := writer_ne_zero
  rcases henter with ⟨rfl, hs, rfl⟩ | ⟨rfl, rfl, rfl⟩
  · refine ⟨by simpa using h.admitRead hs, ?_, ?_⟩
    · simp only [writer, usizeMax] at hs
      omega
    · intro m hm
      cases m with
      | read => exact absurd hm hs
      | write => exact Nat.succ_ne_zero state
  · refine ⟨by simpa using h.admitWrite, ?_, ?_⟩
    · simp only [writer, usizeMax]
      omega
    · intro m hm
      cases m with
      | read => exact absurd hm.symm hw0
      | write => exact absurd rfl hm

/-! ### The steps -/

/-- A move establishes the invariant, and keeps every future served. `x` is the id the move is
about, which no other future holds. -/
theorem Inv.move {s : State} {a a' : AbsQueue} (h : Inv s a) {i : Nat} {f n : Future}
    (hi : s.futures[i]? = some f) {l : RwLock} {guards : List (Option Guard)}
    {x : Option Nat} (hr : l.waiters.Repr a')
    (ho : Owned a' (Function.update (attr Future.registration s.futures) i n.registration))
    (hword : Word l.state (outstanding .read (moved s i l n guards))
      (outstanding .write (moved s i l n guards)))
    (hfits : l.state < usizeModulus) (hok : FutureOk n)
    (hkind : ∀ y, some y ≠ x → a'.kind y = a.kind y)
    (hx : ∀ (j : Nat) g, j ≠ i → s.futures[j]? = some g →
      g.registration = none ∨ g.registration ≠ x)
    (hblocked : ∀ mode, blocked mode s.lock.state → blocked mode l.state)
    (hself : n.pc = .idle true → blocked n.mode l.state) :
    Moves s a (moved s i l n guards) := by
  refine ⟨a', ⟨hr, ?_, hword, hfits, ?_, h.calls⟩, ?_⟩
  · simp only [moved, attr_set Future.registration hi]
    exact ho
  · intro g hg
    rcases List.mem_or_eq_of_mem_set hg with hg | rfl
    · exact h.futures g hg
    · exact hok
  · -- A future that is parked behind the word stays so: nobody else is touched.
    intro hserved _ j g b hj hpc hreg hq
    simp only [moved] at hj ⊢
    rw [getElem?_set_of_some hi] at hj
    by_cases hji : j = i
    · rw [if_pos hji] at hj
      cases hj
      exact .inr (hself hpc)
    · rw [if_neg hji] at hj
      have hbx : some b ≠ x := by
        rw [← hreg]
        exact (hx j g hji hj).resolve_left (by simp [hreg])
      rw [hkind b hbx] at hq
      exact (hserved j g b hj hpc hreg hq).imp_right (hblocked g.mode)

/-- A move that keeps the token and the queue. -/
theorem Inv.moveLocal {s : State} {a : AbsQueue} (h : Inv s a) {i : Nat} {f n : Future}
    (hi : s.futures[i]? = some f) {l : RwLock} (hq : l.waiters = s.lock.waiters)
    (hreg : n.registration = f.registration)
    (hword : Word l.state (outstanding .read (moved s i l n s.guards))
      (outstanding .write (moved s i l n s.guards)))
    (hfits : l.state < usizeModulus) (hok : FutureOk n)
    (hblocked : ∀ mode, blocked mode s.lock.state → blocked mode l.state)
    (hself : n.pc = .idle true → blocked n.mode l.state) :
    Moves s a (moved s i l n s.guards) := by
  refine h.move hi (x := f.registration) (by rw [hq]; exact h.repr) ?_ hword hfits hok
    (fun _ _ => rfl) (h.owned.others hi) hblocked hself
  rw [hreg]
  exact h.owned.keep_at hi

/-- A step of a try in a poll. -/
theorem try_moves {s : State} {a : AbsQueue} (h : Inv s a) {i : Nat} {f : Future}
    (hi : s.futures[i]? = some f) {pc : TryPc} (hpc : TryOk f.mode pc) (hnot : f.pc ≠ .taken)
    (hlock : f.lock = true) (spurious : Bool)
    (again : TryPc → Pc) (failed : Pc)
    (hagain : ∀ pc, again pc ≠ .taken ∧ (TryOk f.mode pc → FutureOk { f with pc := again pc }) ∧
      again pc ≠ .idle true)
    (hfailed : failed ≠ .taken ∧ FutureOk { f with pc := failed }) :
    Moves s a (moved s i (afterTry s.lock f spurious pc again failed).1
      (afterTry s.lock f spurious pc again failed).2 s.guards) := by
  -- A move that admits nobody leaves the word and the counts.
  have hstay : ∀ f' : Future, f'.pc ≠ .taken → f'.mode = f.mode →
      f'.registration = f.registration → FutureOk f' →
      (f'.pc = .idle true → blocked f'.mode s.lock.state) →
      Moves s a (moved s i s.lock f' s.guards) := by
    intro f' hne hmode hreg hok hself
    refine h.moveLocal hi rfl hreg ?_ h.fits hok (fun _ hb => hb) hself
    rw [outstanding_moved_free hi _ hnot hne, outstanding_moved_free hi _ hnot hne]
    exact h.word
  -- A move that admits the future adds one guard of its mode.
  have henter : ∀ state', tryRaw s.lock.state spurious pc = (state', .taken) →
      (f.mode = .read ∧ s.lock.state ≠ writer ∧ state' = s.lock.state + 1 ∨
        f.mode = .write ∧ s.lock.state = 0 ∧ state' = writer) →
      Moves s a (moved s i ⟨state', s.lock.waiters⟩ { f with pc := .taken } s.guards) := by
    intro state' _ hcase
    obtain ⟨hword, hfits, hblocked⟩ := admit_spec h.word h.fits hcase
    refine h.moveLocal (n := { f with pc := .taken }) (l := ⟨state', s.lock.waiters⟩)
      hi rfl rfl ?_ hfits ⟨trivial, by simp [hlock], by simp [hlock]⟩ hblocked (by simp)
    have hout : ∀ mode, outstanding mode
        (moved s i ⟨state', s.lock.waiters⟩ { f with pc := .taken } s.guards)
          = outstanding mode s + if f.mode = mode then 1 else 0 := by
      intro mode
      have := outstanding_moved hi ⟨state', s.lock.waiters⟩ { f with pc := .taken }
        s.guards mode
      rw [inHand_eq_zero hnot] at this
      simp only [Future.inHand, true_and] at this
      omega
    rw [hout, hout]
    exact hword
  rcases tryRaw_spec hpc s.lock.state spurious with
    ⟨hm, hs, ht⟩ | ⟨hm, hs, ht⟩ | ⟨hb, ht⟩ | ⟨pc', hok, ht⟩
  · simp only [afterTry, ht]
    exact henter _ ht (.inl ⟨hm, hs, rfl⟩)
  · simp only [afterTry, ht]
    exact henter _ ht (.inr ⟨hm, hs, rfl⟩)
  · simp only [afterTry, ht]
    exact hstay { f with pc := failed } hfailed.1 rfl rfl hfailed.2 fun _ => hb
  · simp only [afterTry, ht]
    obtain ⟨hne, hf, hidle⟩ := hagain pc'
    exact hstay { f with pc := again pc' } hne rfl rfl (hf hok) fun e => absurd e hidle

/-- `register` puts the future in the queue. -/
theorem register_moves {s : State} {a : AbsQueue} (h : Inv s a) {i : Nat} {f : Future}
    {waker : Waker} (hi : s.futures[i]? = some f) (hpc : f.pc = .register waker)
    (hlock : f.lock = true) :
    ∃ queue id, Waiters.register s.lock.waiters f.registration waker = some (queue, id) ∧
      Moves s a (moved s i ⟨s.lock.state, queue⟩
        { f with registration := some id, pc := .second (tryStart f.mode) } s.guards) := by
  obtain ⟨queue, id, hq, hid, hr⟩ := Waiters.register_spec h.repr (h.owned.live_at hi) waker
  refine ⟨queue, id, hq, ?_⟩
  refine h.move (l := ⟨s.lock.state, queue⟩) (x := some id) hi hr
    (h.owned.register_at hi hid (some waker)) ?_ h.fits
    ⟨tryStart_ok f.mode, by simp [hlock], by simp [hlock]⟩ ?_
    (h.owned.others_of_register hi hid) (fun _ hb => hb) (by simp)
  · rw [outstanding_moved_free hi _ (by simp [hpc]) (by simp),
      outstanding_moved_free hi _ (by simp [hpc]) (by simp)]
    exact h.word
  · intro y hy
    have : y ≠ id := fun e => hy (by rw [e])
    simp [this]

/-- A future that was admitted gives its registration back and returns its guard. -/
theorem taken_moves {s : State} {a : AbsQueue} (h : Inv s a) {i : Nat} {f : Future}
    (hi : s.futures[i]? = some f) (hpc : f.pc = .taken) :
    ∃ queue kind, Waiters.remove s.lock.waiters f.registration = some (queue, kind) ∧
      Moves s a (moved s i ⟨s.lock.state, queue⟩
        { f with registration := none, lock := !f.owned, pc := .idle false }
        (s.guards ++ [some ⟨f.mode, f.owned⟩])) := by
  obtain ⟨queue, hq, hr⟩ := Waiters.remove_spec h.repr (h.owned.live_at hi)
  refine ⟨queue, _, hq, ?_⟩
  have hout : ∀ mode, outstanding mode (moved s i ⟨s.lock.state, queue⟩
      { f with registration := none, lock := !f.owned, pc := .idle false }
      (s.guards ++ [some ⟨f.mode, f.owned⟩])) = outstanding mode s := by
    intro mode
    have := outstanding_moved hi ⟨s.lock.state, queue⟩
      { f with registration := none, lock := !f.owned, pc := .idle false }
      (s.guards ++ [some ⟨f.mode, f.owned⟩]) mode
    rw [inHand_eq_zero (f := { f with registration := none, lock := !f.owned, pc := .idle false })
      (by simp)] at this
    simp only [Future.inHand, hpc, true_and, tally_append, tally_cons, tally_nil, guardWeight,
      Option.map_some, Option.some.injEq] at this
    omega
  refine h.move (l := ⟨s.lock.state, queue⟩) hi hr (h.owned.forget_at hi) ?_ h.fits
    ⟨trivial, fun _ => rfl, fun _ => trivial⟩ (a.kind_forget f.registration) (h.owned.others hi)
    (fun _ hb => hb) (by simp)
  rw [hout, hout]
  exact h.word

/-- A dropped future gives its registration back. -/
theorem drop_moves {s : State} {a : AbsQueue} (h : Inv s a) {i : Nat} {f : Future}
    (hi : s.futures[i]? = some f) {pending : Bool} (hpc : f.pc = .idle pending) :
    ∃ lock f', drop s.lock f = some (lock, f') ∧ Moves s a (moved s i lock f' s.guards) := by
  have hok := h.futures f (List.mem_of_getElem? hi)
  cases hl : f.lock with
  | false =>
    have hgone := hok.gone (.inl hl)
    refine ⟨s.lock, { f with pc := .dropped }, by simp [drop, hl], ?_⟩
    refine h.moveLocal (n := { f with pc := .dropped }) hi rfl rfl ?_ h.fits
      ⟨trivial, fun _ => hgone, fun _ => trivial⟩ (fun _ hb => hb) (by simp)
    rw [outstanding_moved_free hi _ (by simp [hpc]) (by simp),
      outstanding_moved_free hi _ (by simp [hpc]) (by simp)]
    exact h.word
  | true =>
    obtain ⟨queue, hq, hr⟩ := Waiters.remove_spec h.repr (h.owned.live_at hi)
    refine ⟨⟨s.lock.state, queue⟩, { f with registration := none, pc := .dropped },
      by simp [drop, hl, hq], ?_⟩
    refine h.move (l := ⟨s.lock.state, queue⟩) hi hr (h.owned.forget_at hi) ?_ h.fits
      ⟨trivial, fun _ => rfl, fun _ => trivial⟩ (a.kind_forget f.registration)
      (h.owned.others hi) (fun _ hb => hb) (by simp)
    rw [outstanding_moved_free hi _ (by simp [hpc]) (by simp),
      outstanding_moved_free hi _ (by simp [hpc]) (by simp)]
    exact h.word

/-- What a step of a poll in progress does. -/
theorem advance_spec {s : State} {a : AbsQueue} (h : Inv s a) {i : Nat} {f : Future}
    (hi : s.futures[i]? = some f) (hidle : ∀ pending, f.pc ≠ .idle pending)
    (hdropped : f.pc ≠ .dropped) (spurious : Bool) :
    ∃ lock f' guard, advance s.lock f spurious = some (lock, f', guard) ∧
      Moves s a (moved s i lock f' (s.guards ++ guard.toList.map some)) := by
  have hok := h.futures f (List.mem_of_getElem? hi)
  -- A future that gave its `Arc` away is not polled.
  have hlock : f.lock = true := by
    by_contra hl
    have := hok.polled (by simpa using hl)
    split at this
    · rename_i e
      exact hidle _ e
    · rename_i e
      exact hdropped e
    · exact this
  have hpcok := hok.pc
  cases hpc : f.pc with
  | idle pending => exact absurd hpc (hidle pending)
  | dropped => exact absurd hpc hdropped
  -- The first try registers when it fails, and the second one parks.
  | first waker pc =>
    rw [hpc] at hpcok
    refine ⟨_, _, none, by simp only [advance, hpc]; rfl, ?_⟩
    rw [Option.toList_none, List.map_nil, List.append_nil]
    refine try_moves h hi hpcok (by simp [hpc]) hlock spurious (.first waker) (.register waker)
      (fun pc => ⟨by simp, fun hpc => ⟨hpc, ?_, ?_⟩, by simp⟩)
      ⟨by simp, trivial, ?_, ?_⟩ <;> simp [hlock]
  | register waker =>
    obtain ⟨queue, id, hq, hm⟩ := register_moves h hi hpc hlock
    refine ⟨_, _, none, by simp only [advance, hpc, hq]; rfl, ?_⟩
    rw [Option.toList_none, List.map_nil, List.append_nil]
    exact hm
  | second pc =>
    rw [hpc] at hpcok
    refine ⟨_, _, none, by simp only [advance, hpc]; rfl, ?_⟩
    rw [Option.toList_none, List.map_nil, List.append_nil]
    refine try_moves h hi hpcok (by simp [hpc]) hlock spurious .second (.idle true)
      (fun pc => ⟨by simp, fun hpc => ⟨hpc, ?_, ?_⟩, by simp⟩)
      ⟨by simp, trivial, ?_, ?_⟩ <;> simp [hlock]
  -- The guard is made in the step that frees the slot.
  | taken =>
    obtain ⟨queue, kind, hq, hm⟩ := taken_moves h hi hpc
    exact ⟨_, _, some ⟨f.mode, f.owned⟩, by simp only [advance, hpc, hq], hm⟩

/-- The state after the guard at `i` of the mode was dropped. -/
def released (s : State) (i : Nat) (mode : Mode) : State :=
  { s with
    lock := ⟨(release s.lock.state mode).1, s.lock.waiters⟩
    guards := s.guards.set i none
    owed := if (release s.lock.state mode).2 then s.owed + 1 else s.owed }

/-- A read guard leaves. The last one out owes a `wake_all`, and any other leaves the word above
zero. -/
theorem releaseRead_moves {s : State} {a : AbsQueue} (h : Inv s a) {i : Nat} {guard : Guard}
    (hi : s.guards[i]? = some (some guard)) (hmode : guard.mode = .read) :
    Moves s a (released s i .read) := by
  have hset := fun mode => tally_set (guardWeight mode) hi none
  have hword := h.word
  -- One reader fewer, and no writer fewer.
  have hread := hset .read
  have hwrite := hset .write
  simp only [guardWeight, hmode, Option.map_none, Option.map_some] at hread hwrite
  simp at hread hwrite
  obtain ⟨r, hr⟩ : ∃ r, outstanding .read s = r + 1 :=
    ⟨outstanding .read s - 1, by simp only [outstanding]; omega⟩
  rw [hr] at hword
  -- A read guard is outstanding, so the word is the number of readers.
  have hstate : s.lock.state = r + 1 := by
    rcases hword with ⟨-, hs⟩ | ⟨-, hr, -⟩
    · exact hs
    · omega
  refine ⟨a, ⟨h.repr, h.owned, ?_, ?_, h.futures, h.calls⟩, ?_⟩
  · have := hword.releaseRead h.fits
    simp only [released, release, outstanding] at this hr ⊢
    rw [hwrite, show tally (guardWeight .read) (s.guards.set i none)
      + tally (Future.inHand .read) s.futures = r by omega]
    exact this
  · have hfits := h.fits
    simp only [released, release]
    rw [usizeSub_of_le (by omega) hfits]
    omega
  · intro hserved hmax j g b hj hpc hreg hq
    simp only [released, release]
    rw [usizeSub_of_le (by omega) h.fits, hstate]
    -- A waiter that was covered stays so: the last reader owes a broadcast.
    rcases hserved j g b hj hpc hreg hq with howed | hb
    · left
      by_cases hlast : r = 0 <;> simp [hlast, howed]
    · cases hg : g.mode with
      | read =>
        -- A parked reader waits for a writer, and there is none.
        rw [hg] at hb
        have : s.lock.state = writer := hb
        simp only [writer] at this
        omega
      | write =>
        by_cases hlast : r = 0
        · left
          simp [hlast]
        · right
          show r + 1 - 1 ≠ 0
          omega

/-- The write guard leaves, and always owes a `wake_all`. -/
theorem releaseWrite_moves {s : State} {a : AbsQueue} (h : Inv s a) {i : Nat} {guard : Guard}
    (hi : s.guards[i]? = some (some guard)) (hmode : guard.mode = .write) :
    Moves s a (released s i .write) := by
  have hset := fun mode => tally_set (guardWeight mode) hi none
  have hword := h.word
  have hread := hset .read
  have hwrite := hset .write
  simp only [guardWeight, hmode, Option.map_none, Option.map_some] at hread hwrite
  simp at hread hwrite
  obtain ⟨w, hw⟩ : ∃ w, outstanding .write s = w + 1 :=
    ⟨outstanding .write s - 1, by simp only [outstanding]; omega⟩
  rw [hw] at hword
  have hmod := two_lt_usizeModulus
  refine ⟨a, ⟨h.repr, h.owned, ?_, by simp only [released, release]; omega, h.futures, h.calls⟩,
    ?_⟩
  · have := hword.releaseWrite
    simp only [released, release, outstanding] at this hw ⊢
    rw [hread, show tally (guardWeight .write) (s.guards.set i none)
      + tally (Future.inHand .write) s.futures = w by omega]
    exact this
  · intro _ _ j g b _ _ _ _
    left
    simp [released, release]

/-- A `try_read` or `try_write` that is admitted returns its guard at once. -/
theorem enter_moves {s : State} {a : AbsQueue} (h : Inv s a) (call : TryCall) {state' : Nat}
    (hcase : call.mode = .read ∧ s.lock.state ≠ writer ∧ state' = s.lock.state + 1 ∨
      call.mode = .write ∧ s.lock.state = 0 ∧ state' = writer)
    {tries : List (Option TryCall)} (htries : ∀ c, some c ∈ tries → TryOk c.mode c.pc) :
    Moves s a { s with
      lock := ⟨state', s.lock.waiters⟩
      tries := tries
      guards := s.guards ++ [some { mode := call.mode, owned := call.owned }] } := by
  obtain ⟨hword, hfits, hblocked⟩ := admit_spec h.word h.fits hcase
  refine ⟨a, ⟨h.repr, h.owned, ?_, hfits, h.futures, htries⟩,
    fun hserved _ j g b hj hpc hreg hq => ?_⟩
  · have hout : ∀ mode, outstanding mode { s with
        lock := ⟨state', s.lock.waiters⟩
        tries := tries
        guards := s.guards ++ [some { mode := call.mode, owned := call.owned }] }
        = outstanding mode s + if call.mode = mode then 1 else 0 := by
      intro mode
      simp only [outstanding, tally_append, tally_cons, tally_nil, guardWeight,
        Option.map_some, Option.some.injEq]
      omega
    rw [hout, hout]
    exact hword
  · exact (hserved j g b hj hpc hreg hq).imp_right (hblocked g.mode)

/-- A step that leaves the word, the queue, the futures and the guards alone. -/
theorem Inv.quiet {s s' : State} {a : AbsQueue} (h : Inv s a) (hlock : s'.lock = s.lock)
    (hf : s'.futures = s.futures) (hg : s'.guards = s.guards) (ho : s'.owed = s.owed)
    (hcalls : ∀ call, some call ∈ s'.tries → TryOk call.mode call.pc) : Moves s a s' := by
  refine ⟨a, ⟨by rw [hlock]; exact h.repr, by rw [hf]; exact h.owned, ?_,
    by rw [hlock]; exact h.fits, by rw [hf]; exact h.futures, hcalls⟩, fun hserved _ => ?_⟩
  · simp only [outstanding, hlock, hf, hg]
    exact h.word
  · simp only [Served, hlock, hf, ho]
    exact hserved

/-- What one step does. -/
theorem step_spec {s s' : State} {a : AbsQueue} {act : Action} (h : Inv s a)
    (hs : step s act = some s') : Moves s a s' := by
  -- Each step moves one party, so `Moves` is the same argument for all of them.
  cases act with
  | acquire mode owned =>
    cases hs
    refine ⟨a, ⟨h.repr, ?_, ?_, h.fits, ?_, h.calls⟩, fun hserved _ => ?_⟩
    · rw [attr_append_of_none Future.registration s.futures (by rfl)]
      exact h.owned
    · simpa [outstanding, Future.inHand] using h.word
    · intro f hf
      rcases List.mem_append.mp hf with hf | hf
      · exact h.futures f hf
      · obtain rfl := List.mem_singleton.mp hf
        exact ⟨trivial, fun _ => rfl, fun _ => trivial⟩
    · intro i f b hi hpc hreg hq
      rcases getElem?_append_singleton hi with hi | ⟨-, rfl⟩
      · exact hserved i f b hi hpc hreg hq
      · simp at hpc
  | poll i waker =>
    simp only [step] at hs
    split at hs
    · rename_i mode owned registration pending hi
      cases hs
      refine h.moveLocal (n := ⟨mode, owned, true, registration, .first waker (tryStart mode)⟩)
        hi rfl rfl ?_ h.fits ⟨tryStart_ok mode, by simp, by simp⟩ (fun _ hb => hb) (by simp)
      rw [outstanding_moved_free hi _ (by simp) (by simp),
        outstanding_moved_free hi _ (by simp) (by simp)]
      exact h.word
    · cases hs
  | advance i spurious =>
    simp only [step] at hs
    split at hs
    · cases hs
    · rename_i f hi
      -- Only a future in a poll has steps of its own.
      have hidle : ∀ pending, f.pc ≠ .idle pending := by
        intro pending e
        simp [advance, e] at hs
      have hdropped : f.pc ≠ .dropped := by
        intro e
        simp [advance, e] at hs
      obtain ⟨lock, f', guard, hadv, hm⟩ := advance_spec h hi hidle hdropped spurious
      simp only [hadv, Option.some.injEq] at hs
      subst hs
      exact hm
  | drop i =>
    simp only [step] at hs
    split at hs
    · rename_i mode owned arc registration pending hi
      obtain ⟨lock, f', hd, hm⟩ := drop_moves h hi rfl
      simp only [hd, Option.some.injEq] at hs
      subst hs
      exact hm
    · cases hs
  | tryAcquire mode owned =>
    cases hs
    refine h.quiet rfl rfl rfl rfl ?_
    intro call hcall
    rcases List.mem_append.mp hcall with hcall | hcall
    · exact h.calls call hcall
    · simp only [List.mem_singleton, Option.some.injEq] at hcall
      subst hcall
      exact tryStart_ok mode
  | advanceTry i spurious =>
    simp only [step] at hs
    split at hs
    · rename_i call hi
      have hcall := h.calls call (List.mem_of_getElem? hi)
      -- The call writes its own place, and nobody else's.
      have hcalls : ∀ t : Option TryCall, (∀ c, t = some c → TryOk c.mode c.pc) →
          ∀ c, some c ∈ s.tries.set i t → TryOk c.mode c.pc := by
        intro t ht c hc
        rcases List.mem_or_eq_of_mem_set hc with hc | hc
        · exact h.calls c hc
        · exact ht c hc.symm
      -- The try of a call is the one that a future makes.
      rcases tryRaw_spec hcall s.lock.state spurious with
        ⟨hm, hst, ht⟩ | ⟨hm, hst, ht⟩ | ⟨hb, ht⟩ | ⟨pc', hok, ht⟩ <;> simp only [ht] at hs <;>
        cases hs
      · exact enter_moves h call (.inl ⟨hm, hst, rfl⟩) (hcalls none (by simp))
      · exact enter_moves h call (.inr ⟨hm, hst, rfl⟩) (hcalls none (by simp))
      · exact h.quiet rfl rfl rfl rfl (hcalls none (by simp))
      · exact h.quiet rfl rfl rfl rfl (hcalls _ (by
          intro c hc
          cases hc
          exact hok))
    · cases hs
  | dropGuard i =>
    simp only [step] at hs
    split at hs
    · rename_i guard hi
      cases hs
      -- A guard releases what it holds, by its mode.
      cases hmode : guard.mode with
      | read => exact releaseRead_moves h hi hmode
      | write => exact releaseWrite_moves h hi hmode
    · cases hs
  | wakeAll =>
    simp only [step] at hs
    split at hs
    · cases hs
    · obtain ⟨queue, hq, hr⟩ := Waiters.wakeAll_spec h.repr
      simp only [hq, Option.some.injEq] at hs
      subst hs
      refine ⟨a.grantAll, ⟨hr, h.owned.of_live h.repr.grantAll_live, h.word, h.fits, h.futures,
        h.calls⟩, fun _ _ j g b _ _ _ hb => ?_⟩
      -- Nobody is queued after a broadcast.
      have := (hr.mem_fifo b).mpr hb
      simp [AbsQueue.grantAll] at this
  | wake =>
    simp only [step] at hs
    -- The call of a waker is outside the lock.
    split at hs
    · cases hs
    · cases hs
      exact h.quiet rfl rfl rfl rfl h.calls

end Steps

/-! ### Whole runs -/

/-- A new lock meets the invariant, and nobody is parked. -/
theorem inv_init [Target] {s : State} (h : system.init s) : ∃ a, Inv s a ∧ Served s a := by
  obtain rfl : s = new := h
  have hmod := two_lt_usizeModulus
  refine ⟨AbsQueue.empty, ⟨WaitQueue.repr_new, Owned.empty, .inl ⟨rfl, rfl⟩, ?_, ?_, ?_⟩, ?_⟩
  · simp only [new]
    omega
  · intro f hf
    simp [new] at hf
  · intro call hcall
    simp [new] at hcall
  · intro i f b hi
    simp [new] at hi

theorem inv_of_reachable [Target] {s : State} (h : system.Reachable s) : ∃ a, Inv s a := by
  refine h.invariant (P := fun s => ∃ a, Inv s a) (fun s h0 => ?_) fun s act s' ⟨a, hi⟩ hs => ?_
  · obtain ⟨a, hi, -⟩ := inv_init h0
    exact ⟨a, hi⟩
  · obtain ⟨a', hi', -⟩ := step_spec hi hs
    exact ⟨a', hi'⟩

/-- No section panics: a poll in progress, a drop and an owed `wake_all` can always take their
next step. -/
theorem no_panic [Target] {s : State} (h : system.Reachable s) :
    (∀ i f spurious, s.futures[i]? = some f → (∀ pending, f.pc ≠ .idle pending) →
      f.pc ≠ .dropped → (step s (.advance i spurious)).isSome) ∧
    (∀ (i : Nat) mode owned arc registration pending,
      s.futures[i]? = some ⟨mode, owned, arc, registration, .idle pending⟩ →
      (step s (.drop i)).isSome) ∧
    (0 < s.owed → (step s .wakeAll).isSome) := by
  obtain ⟨a, hinv⟩ := inv_of_reachable h
  refine ⟨?_, ?_, ?_⟩
  · intro i f spurious hi hidle hdropped
    obtain ⟨lock, f', guard, hadv, -⟩ := advance_spec hinv hi hidle hdropped spurious
    simp [step, hi, hadv]
  · intro i mode owned arc registration pending hi
    obtain ⟨lock, f', hd, -⟩ := drop_moves hinv hi rfl
    simp [step, hi, hd]
  · intro howed
    obtain ⟨queue, hq, -⟩ := Waiters.wakeAll_spec hinv.repr
    simp [step, hq, show s.owed ≠ 0 by omega]

/-- Exclusion. In every reachable state exactly one of two things holds: no write guard is
outstanding and the word is the number of read guards, or one write guard and no read guard is
outstanding and the word is `WRITER`. So a write guard never coexists with another guard. -/
theorem exclusion [Target] {s : State} (h : system.Reachable s) :
    Xor (outstanding .write s = 0 ∧ s.lock.state = outstanding .read s)
      (outstanding .write s = 1 ∧ outstanding .read s = 0 ∧ s.lock.state = writer) ∧
    (0 < outstanding .write s → outstanding .write s + outstanding .read s = 1) := by
  obtain ⟨a, hi⟩ := inv_of_reachable h
  rcases hi.word with ⟨hw, hs⟩ | ⟨hw, hr, hs⟩
  · exact ⟨.inl ⟨⟨hw, hs⟩, by omega⟩, by omega⟩
  · exact ⟨.inr ⟨⟨hw, hr, hs⟩, by omega⟩, by omega⟩

/-- A writer is admitted by its second try, and the lock is exclusively its own. -/
theorem exclusion_writer :
    ∃ s, (@system target64).Reachable s ∧ 0 < outstanding .write s ∧
      outstanding .write s + outstanding .read s = 1 := by
  obtain ⟨s, hr, hp⟩ := Lts.Reachable.exists_of_run (M := @system target64) (s := new)
    [.tryAcquire .read false, .advanceTry 0 false, .advanceTry 0 false, .acquire .write true,
      .poll 0 7, .advance 0 false, .advance 0 false, .dropGuard 0, .advance 0 false]
    (fun s => 0 < outstanding .write s) rfl (by decide)
  have hp : 0 < outstanding .write s := by simpa using hp
  exact ⟨s, hr, hp, (@exclusion target64 s hr).2 hp⟩

/-- The future has returned `Pending` and is still queued. -/
def parked (s : State) (f : Future) : Bool :=
  f.pc = .idle true ∧ s.lock.waiters.slotKind f.registration = some .queued

/-- No wake-up is lost. In every run with fewer than `usize::MAX` read guards at a time, a
parked reader has `WRITER` in the word or a `wake_all` that is still owed, and a parked writer
has a word other than zero or a `wake_all` that is still owed. -/
theorem wake_ups_not_lost [Target] {s : State}
    (h : system.Reach (fun _ _ s' => outstanding .read s' < usizeMax) s) :
    ∀ f ∈ s.futures, parked s f = true →
      (f.mode = .read → s.lock.state = writer ∨ 0 < s.owed) ∧
      (f.mode = .write → s.lock.state ≠ 0 ∨ 0 < s.owed) := by
  obtain ⟨a, hinv, hserved, -⟩ : ∃ a, Inv s a ∧ Served s a ∧ outstanding .read s < usizeMax := by
    refine h.invariant (P := fun s => ∃ a, Inv s a ∧ Served s a ∧ outstanding .read s < usizeMax)
      (fun s h0 => ?_) fun s act s' ⟨a, hinv, hserved, hmax⟩ hs hok => ?_
    · obtain ⟨a, hinv, hserved⟩ := inv_init h0
      obtain rfl : s = new := h0
      have := two_lt_usizeModulus
      exact ⟨a, hinv, hserved, by simp only [outstanding, new, usizeMax, tally_nil]; omega⟩
    · obtain ⟨a', hinv', hserved'⟩ := step_spec hinv hs
      exact ⟨a', hinv', hserved' hserved hmax, hok⟩
  intro f hf hparked
  obtain ⟨i, hi⟩ := List.mem_iff_getElem?.mp hf
  simp only [parked, hinv.repr.slotKind_eq, decide_eq_true_eq] at hparked
  obtain ⟨hpc, hq⟩ := hparked
  obtain ⟨b, hreg, hq⟩ := Option.bind_eq_some_iff.mp hq
  have := hserved i f b hi hpc hreg hq
  refine ⟨fun hm => ?_, fun hm => ?_⟩
  · rw [hm] at this
    exact this.symm
  · rw [hm] at this
    exact this.symm

/-- A writer parks behind a reader. The reader leaves, and its `wake_all` is owed. -/
theorem wake_ups_not_lost_writer :
    ∃ s, (@system target64).Reach (fun _ _ s' => outstanding .read s' < @usizeMax target64) s ∧
      ∃ f ∈ s.futures, parked s f = true ∧ f.mode = .write ∧ s.lock.state = 0 ∧ 0 < s.owed := by
  obtain ⟨s, hr, hp⟩ := Lts.Reach.exists_of_runWhere (M := @system target64) (s := new)
    (fun _ _ s' => outstanding .read s' < @usizeMax target64)
    [.tryAcquire .read false, .advanceTry 0 false, .advanceTry 0 false, .acquire .write false,
      .poll 0 7, .advance 0 false, .advance 0 false, .advance 0 false, .dropGuard 0]
    (fun s => ∃ f ∈ s.futures, parked s f = true ∧ f.mode = .write ∧ s.lock.state = 0) rfl
    (by decide)
  obtain ⟨f, hf, hparked, hm, hstate⟩ : ∃ f ∈ s.futures, parked s f = true ∧ f.mode = .write ∧
      s.lock.state = 0 := by simpa using hp
  have howed := (@wake_ups_not_lost target64 s hr f hf hparked).2 hm
  exact ⟨s, hr, f, hf, hparked, hm, hstate, howed.resolve_left (fun hne => hne hstate)⟩

end RwLockSystem

end Nagoya.Sync
