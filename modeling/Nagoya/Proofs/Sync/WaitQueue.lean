import Nagoya.Lib.Pool
import Nagoya.Sync.WaitQueue
import Mathlib.Data.List.Nodup
import Mathlib.Tactic

/-!
# `Nagoya.Proofs.Sync.WaitQueue`: the slab is a FIFO queue with grants

`AbsQueue` says what the queue is for: the ids that wait, oldest first, and for each live id
its kind and its waker. `Repr q a` says that the slab `q` represents `a`: the links of the
queued slots spell `a.fifo`, the free list holds exactly the free slots, and every live slot
carries the kind and the waker of `a`.

Each operation of the slab has one lemma here. It states that the operation does not panic on
a live token, and that the result represents the abstract operation. The primitives of
`src/sync.rs` are verified against these lemmas and never look at a link.

`grants` counts the slots that hold a single grant. `Notify` conserves that number together
with its permit, so each lemma also says how `grants` moves.
-/

set_option autoImplicit false

namespace Nagoya.Sync

open Nagoya.Lib

/-- What the owner of a live slot can see: its kind and its waker. -/
structure Entry where
  kind : WakeKind
  waker : Option Waker

/-- The abstract queue: the queued ids, oldest first, and the live ids. -/
structure AbsQueue where
  fifo : List Nat
  entry : Nat → Option Entry

namespace AbsQueue

/-- The kind of a live id. -/
def kind (a : AbsQueue) (id : Nat) : Option WakeKind := (a.entry id).map Entry.kind

/-- The waker of a live id. -/
def waker (a : AbsQueue) (id : Nat) : Option Waker := (a.entry id).bind Entry.waker

/-- The empty queue. -/
def empty : AbsQueue := { fifo := [], entry := fun _ => none }

/-- A registration joins the back of the queue, unless it is queued already. A waker is
replaced when one is given. -/
def register (a : AbsQueue) (id : Nat) (waker : Option Waker) : AbsQueue :=
  { fifo := if a.kind id = some .queued then a.fifo else a.fifo ++ [id]
    entry := Function.update a.entry id (some ⟨.queued, waker <|> a.waker id⟩) }

/-- A removed id is no longer live and no longer queued. -/
def remove (a : AbsQueue) (id : Nat) : AbsQueue :=
  { fifo := a.fifo.erase id, entry := Function.update a.entry id none }

/-- A future without a token has nothing to remove. -/
def forget (a : AbsQueue) : Option Nat → AbsQueue
  | none => a
  | some id => a.remove id

/-- A grant of `id` takes it off the queue and takes its waker. -/
def grantAs (a : AbsQueue) (kind : WakeKind) (id : Nat) : AbsQueue :=
  { fifo := a.fifo.erase id
    entry := Function.update a.entry id (some ⟨kind, none⟩) }

/-- A single grant. -/
def grant (a : AbsQueue) (id : Nat) : AbsQueue := a.grantAs .one id

/-- A broadcast grants every queued id and takes the wakers. -/
def grantAll (a : AbsQueue) : AbsQueue :=
  { fifo := []
    entry := fun id => if id ∈ a.fifo then some ⟨.all, none⟩ else a.entry id }

@[simp] theorem kind_register (a : AbsQueue) (id : Nat) (waker : Option Waker) (j : Nat) :
    (a.register id waker).kind j = if j = id then some .queued else a.kind j := by
  by_cases hj : j = id <;> simp [kind, register, hj]

@[simp] theorem kind_remove (a : AbsQueue) (id j : Nat) :
    (a.remove id).kind j = if j = id then none else a.kind j := by
  by_cases hj : j = id <;> simp [kind, remove, hj]

@[simp] theorem kind_grantAs (a : AbsQueue) (k : WakeKind) (id j : Nat) :
    (a.grantAs k id).kind j = if j = id then some k else a.kind j := by
  by_cases hj : j = id <;> simp [kind, grantAs, hj]

@[simp] theorem kind_grant (a : AbsQueue) (id j : Nat) :
    (a.grant id).kind j = if j = id then some .one else a.kind j :=
  kind_grantAs a .one id j

@[simp] theorem kind_grantAll (a : AbsQueue) (j : Nat) :
    a.grantAll.kind j = if j ∈ a.fifo then some .all else a.kind j := by
  by_cases hj : j ∈ a.fifo <;> simp [kind, grantAll, hj]

/-- A removal says nothing about the other ids. -/
theorem kind_forget (a : AbsQueue) (token : Option Nat) (y : Nat) (hy : some y ≠ token) :
    (a.forget token).kind y = a.kind y := by
  cases token with
  | none => rfl
  | some id =>
    have : y ≠ id := fun e => hy (by rw [e])
    simp [forget, this]

/-- A live id has a kind. -/
theorem kind_eq_none {a : AbsQueue} {id : Nat} : a.kind id = none ↔ a.entry id = none := by
  simp [kind]

end AbsQueue

namespace WaitQueue

/-- What the owner of a slot can see of it. -/
def view (q : WaitQueue) (id : Nat) : Option Entry :=
  (q.get id).map fun waiter => ⟨waiter.kind, waiter.waker⟩

/-- The element before position `i` of a list. -/
def prevAt (l : List Nat) : Nat → Option Nat
  | 0 => none
  | i + 1 => l[i]?

/-- The links of the queued slots spell `fifo`. A queued slot points at its neighbours in
the list, and `head` and `tail` are its ends. -/
structure Links (q : WaitQueue) (fifo : List Nat) : Prop where
  head : q.head = fifo[0]?
  tail : q.tail = prevAt fifo fifo.length
  node : ∀ i id : Nat, fifo[i]? = some id →
    ∃ waiter, q.get id = some waiter ∧ waiter.previous = prevAt fifo i ∧
      waiter.next = fifo[i + 1]?

/-- The free list spells `free`, and it holds every free slot. -/
structure FreeList (q : WaitQueue) (free : List Nat) : Prop where
  head : q.free = free[0]?
  node : ∀ i id : Nat, free[i]? = some id → q.slots[id]? = some (.free free[i + 1]?)
  nodup : free.Nodup
  complete : ∀ (id : Nat) (next : Option Nat), q.slots[id]? = some (.free next) → id ∈ free

/-- The slab `q` represents the abstract queue `a`. -/
structure Repr (q : WaitQueue) (a : AbsQueue) : Prop where
  links : q.Links a.fifo
  free : ∃ free, q.FreeList free
  nodup : a.fifo.Nodup
  mem_fifo : ∀ id, id ∈ a.fifo ↔ a.kind id = some .queued
  view : ∀ id, q.view id = a.entry id

/-- The weight of a slot in `grants`. -/
def slotOne : WaiterSlot → Nat
  | .live waiter => if waiter.kind = .one then 1 else 0
  | .free _ => 0

/-- The number of slots that hold a single grant. -/
def grants (q : WaitQueue) : Nat := tally slotOne q.slots

/-- The weight of a kind in `grants`. -/
def oneWeight (kind : Option WakeKind) : Nat := if kind = some .one then 1 else 0

/-! ### Writing one slot -/

/-- `get` finds the waiters of live slots, and no others. -/
theorem get_eq_some {q : WaitQueue} {id : Nat} {waiter : Waiter} :
    q.get id = some waiter ↔ q.slots[id]? = some (.live waiter) := by
  unfold get
  split
  · rename_i w h
    simp [h]
  · rename_i h
    constructor
    · intro h'
      cases h'
    · intro h'
      exact absurd h' (h waiter)

/-- Reading the slab after a live slot was written. -/
theorem get_set {q : WaitQueue} {id : Nat} {waiter : Waiter} (h : q.get id = some waiter)
    (new : Waiter) (j : Nat) :
    get { q with slots := q.slots.set id (.live new) } j
      = if j = id then some new else q.get j := by
  unfold get
  rw [getElem?_set_of_some (get_eq_some.mp h)]
  by_cases hj : j = id
  · simp [hj]
  · simp [hj]

/-- What writes of live slots leave alone: the free list, its slots, and the length. -/
structure Frame (q q' : WaitQueue) : Prop where
  free : q'.free = q.free
  length : q'.slots.length = q.slots.length
  slot : ∀ (id : Nat) (next : Option Nat),
    q'.slots[id]? = some (.free next) ↔ q.slots[id]? = some (.free next)

theorem Frame.refl (q : WaitQueue) : Frame q q := ⟨rfl, rfl, fun _ _ => Iff.rfl⟩

theorem Frame.trans {q₁ q₂ q₃ : WaitQueue} (h₁ : Frame q₁ q₂) (h₂ : Frame q₂ q₃) :
    Frame q₁ q₃ :=
  ⟨h₂.free.trans h₁.free, h₂.length.trans h₁.length,
    fun id next => (h₂.slot id next).trans (h₁.slot id next)⟩

/-- `head` and `tail` are not part of the frame. -/
theorem Frame.ends {q q' : WaitQueue} (h : Frame q q') (head tail : Option Nat) :
    Frame q { q' with head := head, tail := tail } :=
  ⟨h.free, h.length, h.slot⟩

/-- A write of a live slot has a frame. -/
theorem frame_set {q : WaitQueue} {id : Nat} {waiter : Waiter} (h : q.get id = some waiter)
    (new : Waiter) : Frame q { q with slots := q.slots.set id (.live new) } := by
  refine ⟨rfl, by simp, fun j next => ?_⟩
  have hlive := get_eq_some.mp h
  simp only [getElem?_set_of_some hlive]
  by_cases hj : j = id
  · subst hj
    simp [hlive]
  · simp [hj]

/-- `getMut` on a live slot writes that slot and nothing else. -/
theorem getMut_spec {q : WaitQueue} (id : Nat) (h : (q.get id).isSome)
    (write : Waiter → Waiter) :
    ∃ q', q.getMut id write = some q' ∧ Frame q q' ∧ q'.head = q.head ∧ q'.tail = q.tail ∧
      ∀ j, q'.get j = if j = id then (q.get j).map write else q.get j := by
  obtain ⟨waiter, hw⟩ := Option.isSome_iff_exists.mp h
  refine ⟨{ q with slots := q.slots.set id (.live (write waiter)) }, by simp [getMut, hw],
    frame_set hw _, rfl, rfl, fun j => ?_⟩
  rw [get_set hw]
  by_cases hj : j = id
  · subst hj
    simp [hw]
  · simp [hj]

/-- The free list survives every write of live slots. -/
theorem FreeList.frame {q q' : WaitQueue} {free : List Nat} (h : q.FreeList free)
    (hf : Frame q q') : q'.FreeList free where
  head := hf.free.trans h.head
  node i id hi := (hf.slot _ _).mpr (h.node i id hi)
  nodup := h.nodup
  complete id next hslot := h.complete id next ((hf.slot _ _).mp hslot)

/-! ### The links -/

/-- The end of a longer list. -/
theorem prevAt_append_length (l : List Nat) (x : Nat) :
    prevAt (l ++ [x]) (l ++ [x]).length = some x := by
  simp [prevAt]

/-- Appending changes no predecessor up to the old end. -/
theorem prevAt_append (l : List Nat) (x : Nat) {i : Nat} (hi : i ≤ l.length) :
    prevAt (l ++ [x]) i = prevAt l i := by
  cases i with
  | zero => rfl
  | succ i => exact List.getElem?_append_left (by omega)

/-- The predecessor of a position is the element one place before it. -/
theorem prevAt_eq_some {l : List Nat} {i p : Nat} (h : prevAt l i = some p) :
    ∃ k, i = k + 1 ∧ l[k]? = some p := by
  cases i with
  | zero => cases h
  | succ k => exact ⟨k, rfl, h⟩

/-- `setNext` writes one link, or `head`. -/
theorem setNext_spec {q : WaitQueue} (slot next : Option Nat)
    (h : ∀ id, slot = some id → (q.get id).isSome) :
    ∃ q', q.setNext slot next = some q' ∧ Frame q q' ∧
      q'.head = (if slot = none then next else q.head) ∧ q'.tail = q.tail ∧
      ∀ j, q'.get j = (q.get j).map fun w =>
        { w with next := if some j = slot then next else w.next } := by
  cases slot with
  | none =>
    refine ⟨{ q with head := next }, rfl, (Frame.refl q).ends _ _, by simp, rfl, fun j => ?_⟩
    show q.get j = _
    cases q.get j <;> simp
  | some p =>
    obtain ⟨q', h', hf, hh, ht, hg⟩ := getMut_spec p (h p rfl) fun w => { w with next := next }
    refine ⟨q', h', hf, by simp [hh], ht, fun j => ?_⟩
    rw [hg]
    cases q.get j <;> by_cases hj : j = p <;> simp [hj]

/-- `setPrevious` writes one link, or `tail`. -/
theorem setPrevious_spec {q : WaitQueue} (slot previous : Option Nat)
    (h : ∀ id, slot = some id → (q.get id).isSome) :
    ∃ q', q.setPrevious slot previous = some q' ∧ Frame q q' ∧ q'.head = q.head ∧
      q'.tail = (if slot = none then previous else q.tail) ∧
      ∀ j, q'.get j = (q.get j).map fun w =>
        { w with previous := if some j = slot then previous else w.previous } := by
  cases slot with
  | none =>
    refine ⟨{ q with tail := previous }, rfl, (Frame.refl q).ends _ _, rfl, by simp, fun j => ?_⟩
    show q.get j = _
    cases q.get j <;> simp
  | some n =>
    obtain ⟨q', h', hf, hh, ht, hg⟩ :=
      getMut_spec n (h n rfl) fun w => { w with previous := previous }
    refine ⟨q', h', hf, hh, by simp [ht], fun j => ?_⟩
    rw [hg]
    cases q.get j <;> by_cases hj : j = n <;> simp [hj]

/-- `enqueue` writes the new slot, and the `next` of the old tail. -/
theorem enqueue_eq {q : WaitQueue} (id : Nat) (hid : (q.get id).isSome)
    (htail : ∀ t, q.tail = some t → (q.get t).isSome) :
    ∃ q', q.enqueue id = some q' ∧ Frame q q' ∧ q'.tail = some id ∧
      q'.head = (if q.tail = none then some id else q.head) ∧
      ∀ j, q'.get j = (q.get j).map fun waiter =>
        { waiter with
          previous := if j = id then q.tail else waiter.previous
          next := if some j = q.tail then some id else if j = id then none else waiter.next
          kind := if j = id then .queued else waiter.kind } := by
  obtain ⟨q₁, h₁, hf₁, hh₁, -, hg₁⟩ := getMut_spec id hid fun waiter =>
    { waiter with previous := q.tail, next := none, kind := .queued }
  obtain ⟨q₂, h₂, hf₂, hh₂, -, hg₂⟩ := setNext_spec (q := q₁) q.tail (some id) (by
    intro t ht
    rw [hg₁]
    split
    · simp [htail t ht]
    · exact htail t ht)
  refine ⟨{ q₂ with tail := some id }, ?_, (hf₁.trans hf₂).ends _ _, rfl, ?_, fun j => ?_⟩
  · simp [enqueue, h₁, h₂]
  · show q₂.head = _
    rw [hh₂, hh₁]
  · show q₂.get j = _
    rw [hg₂, hg₁]
    cases q.get j <;> by_cases hj : j = id <;> simp [hj]

/-- A tail of linked slots is live. -/
theorem Links.tail_live {q : WaitQueue} {fifo : List Nat} (hl : q.Links fifo) {t : Nat}
    (ht : q.tail = some t) : (q.get t).isSome := by
  rw [hl.tail] at ht
  obtain ⟨k, -, hk⟩ := prevAt_eq_some ht
  obtain ⟨w, hw, -⟩ := hl.node k t hk
  simp [hw]

/-- `enqueue` appends a live id that is not queued. -/
theorem enqueue_spec {q : WaitQueue} {fifo : List Nat} {id : Nat} {waiter : Waiter}
    (hl : q.Links fifo) (hnd : fifo.Nodup) (hid : id ∉ fifo) (hget : q.get id = some waiter) :
    ∃ q', q.enqueue id = some q' ∧ q'.Links (fifo ++ [id]) ∧ Frame q q' ∧
      ∀ j, q'.view j = if j = id then some ⟨.queued, waiter.waker⟩ else q.view j := by
  obtain ⟨q', h, hf, ht', hh', hg⟩ :=
    enqueue_eq id (by simp [hget]) fun t => hl.tail_live
  -- The old tail is the slot at the last position, and `id` is not that slot.
  have htail : ∀ i j : Nat, fifo[i]? = some j → (some j = q.tail ↔ i + 1 = fifo.length) := by
    intro i j hj
    have hi := (List.getElem?_eq_some_iff.mp hj).1
    rw [hl.tail, eq_comm]
    constructor
    · intro hp
      obtain ⟨k, hk, hkj⟩ := prevAt_eq_some hp
      have := (List.getElem?_inj hi hnd).mp (hj.trans hkj.symm)
      omega
    · intro hlast
      rw [← hlast]
      exact hj
  have hidt : some id ≠ q.tail := by
    rw [hl.tail]
    intro e
    obtain ⟨k, -, hk⟩ := prevAt_eq_some e.symm
    exact hid (List.mem_of_getElem? hk)
  refine ⟨q', h, ⟨?_, ?_, ?_⟩, hf, ?_⟩
  · -- The head changes only when the list was empty.
    rw [hh', hl.tail, hl.head]
    cases fifo <;> simp [prevAt]
  · rw [ht', prevAt_append_length]
  · intro i j hj
    rw [hg]
    by_cases hi : i < fifo.length
    · -- An old slot. Only the one at the end now points at `id`.
      have hj' : fifo[i]? = some j := by rwa [List.getElem?_append_left hi] at hj
      obtain ⟨w, hw, hp, hn⟩ := hl.node i j hj'
      have hjid : j ≠ id := fun e => hid (e ▸ List.mem_of_getElem? hj')
      refine ⟨_, by rw [hw]; rfl, ?_, ?_⟩
      · rw [prevAt_append _ _ (by omega)]
        simp [hjid, hp]
      · by_cases hlast : i + 1 = fifo.length
        · simp [(htail i j hj').mpr hlast, hlast]
        · simp only [(htail i j hj').not.mpr hlast, hjid, if_false, hn]
          rw [List.getElem?_append_left (by omega)]
    · -- The new slot.
      have hlen := (List.getElem?_eq_some_iff.mp hj).1
      simp only [List.length_append, List.length_singleton] at hlen
      obtain rfl : i = fifo.length := by omega
      obtain rfl : id = j := by simpa using hj
      refine ⟨_, by rw [hget]; rfl, ?_, ?_⟩
      · rw [prevAt_append _ _ (by omega)]
        simp [hl.tail]
      · simp [hidt]
  · intro j
    unfold view
    rw [hg]
    by_cases hj : j = id
    · subst hj
      simp [hget]
    · simp [hj]
      rfl

/-- `unlink` writes the two neighbours, and clears the links of the slot. -/
theorem unlink_eq {q : WaitQueue} {id : Nat} {waiter : Waiter} (hget : q.get id = some waiter)
    (hp : ∀ p, waiter.previous = some p → (q.get p).isSome)
    (hn : ∀ n, waiter.next = some n → (q.get n).isSome) :
    ∃ q', q.unlink id = some q' ∧ Frame q q' ∧
      q'.head = (if waiter.previous = none then waiter.next else q.head) ∧
      q'.tail = (if waiter.next = none then waiter.previous else q.tail) ∧
      ∀ j, q'.get j = (q.get j).map fun w =>
        { w with
          previous := if j = id then none else
            if some j = waiter.next then waiter.previous else w.previous
          next := if j = id then none else
            if some j = waiter.previous then waiter.next else w.next } := by
  obtain ⟨q₁, h₁, hf₁, hh₁, ht₁, hg₁⟩ := setNext_spec waiter.previous waiter.next hp
  obtain ⟨q₂, h₂, hf₂, hh₂, ht₂, hg₂⟩ :=
    setPrevious_spec (q := q₁) waiter.next waiter.previous (by
      intro n hnext
      rw [hg₁]
      simp [hn n hnext])
  obtain ⟨q₃, h₃, hf₃, hh₃, ht₃, hg₃⟩ := getMut_spec (q := q₂) id
    (by rw [hg₂, hg₁, hget]; rfl) fun w => { w with previous := none, next := none }
  refine ⟨q₃, ?_, (hf₁.trans hf₂).trans hf₃, by rw [hh₃, hh₂, hh₁], by rw [ht₃, ht₂, ht₁], ?_⟩
  · simp [unlink, hget, h₁, h₂, h₃]
  · intro j
    rw [hg₃, hg₂, hg₁]
    cases q.get j <;> by_cases hj : j = id <;> simp [hj]

/-- The predecessor of a position after one element is taken out. -/
theorem prevAt_eraseIdx (l : List Nat) (k i : Nat) :
    prevAt (l.eraseIdx k) i = if i ≤ k then prevAt l i else prevAt l (i + 1) := by
  cases i with
  | zero => simp [prevAt]
  | succ i =>
    simp only [prevAt, List.getElem?_eraseIdx]
    by_cases h : i < k
    · simp [h]
    · simp [h]

/-- `unlink` takes the queued id at position `k` out of the list. -/
theorem unlink_spec {q : WaitQueue} {fifo : List Nat} {id k : Nat} (hl : q.Links fifo)
    (hnd : fifo.Nodup) (hk : fifo[k]? = some id) :
    ∃ q', q.unlink id = some q' ∧ q'.Links (fifo.eraseIdx k) ∧ Frame q q' ∧
      ∀ j, q'.view j = q.view j := by
  -- The slots beside `k` are live, so their links can be written.
  obtain ⟨waiter, hget, hp, hn⟩ := hl.node k id hk
  have hkl := (List.getElem?_eq_some_iff.mp hk).1
  obtain ⟨q', h, hf, hh, ht, hg⟩ := unlink_eq hget
    (by
      intro p hprev
      rw [hp] at hprev
      obtain ⟨m, -, hm⟩ := prevAt_eq_some hprev
      obtain ⟨w, hw, -⟩ := hl.node m p hm
      simp [hw])
    (by
      intro n hnext
      rw [hn] at hnext
      obtain ⟨w, hw, -⟩ := hl.node (k + 1) n hnext
      simp [hw])
  -- A position names its slot: the neighbours of `k` are the slots at `k - 1` and `k + 1`.
  have hpos : ∀ i j m : Nat, fifo[i]? = some j → fifo[m]? = some j → i = m := fun i j m hi hm =>
    (List.getElem?_inj (List.getElem?_eq_some_iff.mp hi).1 hnd).mp (hi.trans hm.symm)
  refine ⟨q', h, ⟨?_, ?_, ?_⟩, hf, ?_⟩
  · -- The head moves on only when it is the head that goes.
    rw [hh, hp, hn, hl.head, List.getElem?_eraseIdx]
    cases k with
    | zero => simp [prevAt]
    | succ k =>
      have : prevAt fifo (k + 1) ≠ none := by
        simp only [prevAt, ne_eq, List.getElem?_eq_none_iff]
        omega
      simp [this]
  · -- The tail moves back only when it is the tail that goes.
    rw [ht, hp, hn, hl.tail, prevAt_eraseIdx, List.length_eraseIdx_of_lt hkl]
    by_cases hlast : k + 1 = fifo.length
    · have : fifo.length - 1 = k := by omega
      simp [hlast, this]
    · have hne : fifo[k + 1]? ≠ none := by
        rw [ne_eq, List.getElem?_eq_none_iff]
        omega
      rw [if_neg hne, if_neg (by omega), show fifo.length - 1 + 1 = fifo.length by omega]
  · intro i j hj
    -- `m` is the position of `j` before the removal.
    obtain ⟨m, hm, hmi⟩ : ∃ m, fifo[m]? = some j ∧ m = if i < k then i else i + 1 := by
      rw [List.getElem?_eraseIdx] at hj
      by_cases hik : i < k
      · exact ⟨i, by simpa [hik] using hj, by simp [hik]⟩
      · exact ⟨i + 1, by simpa [hik] using hj, by simp [hik]⟩
    obtain ⟨w, hw, hwp, hwn⟩ := hl.node m j hm
    have hjid : j ≠ id := by
      rintro rfl
      have := hpos m j k hm hk
      split at hmi <;> omega
    -- The two neighbours of `k` are the only ones that get a new link.
    have hnext : some j = waiter.next ↔ m = k + 1 := by
      rw [hn]
      exact ⟨fun e => hpos m j _ hm e.symm, fun e => e ▸ hm.symm⟩
    have hprev : some j = waiter.previous ↔ m + 1 = k := by
      rw [hp]
      constructor
      · intro e
        obtain ⟨l, hl', hlj⟩ := prevAt_eq_some e.symm
        have := hpos m j l hm hlj
        omega
      · rintro rfl
        exact hm.symm
    refine ⟨_, by rw [hg, hw]; rfl, ?_, ?_⟩
    · simp only [hjid, if_false, hnext, prevAt_eraseIdx, hp, hwp]
      split at hmi
      · rw [if_neg (by omega), if_pos (by omega), hmi]
      · by_cases hik : i = k
        · rw [if_pos (by omega), if_pos (by omega), hik]
        · rw [if_neg (by omega), if_neg (by omega), hmi]
    · simp only [hjid, if_false, hprev, List.getElem?_eraseIdx, hn, hwn]
      split at hmi
      · by_cases hik : i + 1 = k
        · rw [if_pos (by omega), if_neg (by omega), hik]
        · rw [if_neg (by omega), if_pos (by omega), hmi]
      · rw [if_neg (by omega), if_neg (by omega), hmi]
  · intro j
    unfold view
    rw [hg, Option.map_map]
    rfl

/-! ### The operations -/

/-- A queued id has a position in the list. -/
theorem Repr.position {q : WaitQueue} {a : AbsQueue} (h : q.Repr a) {id : Nat}
    (hid : a.kind id = some .queued) : ∃ k : Nat, a.fifo[k]? = some id :=
  List.mem_iff_getElem?.mp ((h.mem_fifo id).mpr hid)

/-- Taking a position out of a list without duplicates is erasing its element. -/
theorem eraseIdx_eq_erase {l : List Nat} (hnd : l.Nodup) {k id : Nat} (hk : l[k]? = some id) :
    l.eraseIdx k = l.erase id := by
  obtain ⟨hkl, rfl⟩ := List.getElem?_eq_some_iff.mp hk
  exact (List.erase_eq_eraseIdx_of_idxOf (hnd.idxOf_getElem k hkl)).symm

/-- A live slot of the abstract queue is a live slot of the slab. -/
theorem Repr.get {q : WaitQueue} {a : AbsQueue} (h : q.Repr a) {id : Nat} {e : Entry}
    (he : a.entry id = some e) :
    ∃ waiter, q.get id = some waiter ∧ waiter.kind = e.kind ∧ waiter.waker = e.waker := by
  have hv := h.view id
  rw [he] at hv
  unfold WaitQueue.view at hv
  rw [Option.map_eq_some_iff] at hv
  obtain ⟨w, hw, rfl⟩ := hv
  exact ⟨w, hw, rfl, rfl⟩

/-- A live slot is a slot of the vector. -/
theorem lt_length_of_view {q : WaitQueue} {id : Nat} {e : Entry} (h : q.view id = some e) :
    id < q.slots.length := by
  unfold view at h
  rw [Option.map_eq_some_iff] at h
  obtain ⟨w, hw, -⟩ := h
  exact (List.getElem?_eq_some_iff.mp (get_eq_some.mp hw)).1

/-- The empty slab represents the empty queue. -/
theorem repr_new : WaitQueue.new.Repr AbsQueue.empty where
  links := ⟨rfl, rfl, fun i id h => by simp [AbsQueue.empty] at h⟩
  free := ⟨[], rfl, fun i id h => by simp at h, List.nodup_nil, fun id next h => by
    simp [WaitQueue.new] at h⟩
  nodup := List.nodup_nil
  mem_fifo id := by simp [AbsQueue.empty, AbsQueue.kind]
  view id := rfl

/-- A write that keeps the two links of every queued slot keeps the list. -/
theorem Links.write {q q' : WaitQueue} {fifo : List Nat} (hl : q.Links fifo)
    (hh : q'.head = q.head) (ht : q'.tail = q.tail)
    (hg : ∀ j w, j ∈ fifo → q.get j = some w →
      ∃ w', q'.get j = some w' ∧ w'.previous = w.previous ∧ w'.next = w.next) :
    q'.Links fifo where
  head := hh.trans hl.head
  tail := ht.trans hl.tail
  node i id hi := by
    obtain ⟨w, hw, hp, hn⟩ := hl.node i id hi
    obtain ⟨w', hw', hp', hn'⟩ := hg id w (List.mem_of_getElem? hi) hw
    exact ⟨w', hw', hp'.trans hp, hn'.trans hn⟩

/-- A write of the kind and the waker of one live slot. -/
theorem write_spec {q : WaitQueue} {fifo : List Nat} {id : Nat} {waiter : Waiter}
    (hl : q.Links fifo) (hget : q.get id = some waiter) (write : Waiter → Waiter)
    (hwrite : ∀ w, (write w).previous = w.previous ∧ (write w).next = w.next) :
    ∃ q', q.getMut id write = some q' ∧ q'.Links fifo ∧ Frame q q' ∧
      ∀ j, q'.view j = if j = id then some ⟨(write waiter).kind, (write waiter).waker⟩
        else q.view j := by
  obtain ⟨q', h, hf, hh, ht, hg⟩ := getMut_spec (q := q) id (by simp [hget]) write
  refine ⟨q', h, hl.write hh ht fun j w _ hw => ?_, hf, fun j => ?_⟩
  · rw [hg]
    by_cases hj : j = id
    · subst hj
      exact ⟨write w, by simp [hw], hwrite w⟩
    · exact ⟨w, by simp [hj, hw], rfl, rfl⟩
  · unfold view
    rw [hg]
    by_cases hj : j = id
    · simp [hj, hget]
    · simp [hj]

/-- The waker half of `register`: the slot keeps its place and its kind. -/
theorem setWaker_spec {q : WaitQueue} {fifo : List Nat} {id : Nat} {e : Entry}
    (hl : q.Links fifo) (he : q.view id = some e) (waker : Option Waker) :
    ∃ q' old, q.setWaker id waker = some (q', old) ∧ q'.Links fifo ∧ Frame q q' ∧
      ∀ j, q'.view j = if j = id then some ⟨e.kind, waker <|> e.waker⟩ else q.view j := by
  obtain ⟨w, hw, rfl⟩ : ∃ w, q.get id = some w ∧ ⟨w.kind, w.waker⟩ = e := by
    simpa [view, Option.map_eq_some_iff] using he
  cases waker with
  | none =>
    refine ⟨q, none, by simp [setWaker, hw], hl, Frame.refl q, fun j => ?_⟩
    by_cases hj : j = id
    · simp [hj, he]
    · simp [hj]
  | some new =>
    by_cases hsame : w.waker = some new
    · refine ⟨q, none, by simp [setWaker, hw, hsame], hl, Frame.refl q, fun j => ?_⟩
      by_cases hj : j = id
      · simp [hj, he, hsame]
      · simp [hj]
    · obtain ⟨q', h, hl', hf, hv⟩ := write_spec hl hw
        (fun waiter => { waiter with waker := some new }) fun _ => ⟨rfl, rfl⟩
      refine ⟨q', w.waker, by simp [setWaker, hw, hsame, h], hl', hf, fun j => ?_⟩
      rw [hv]
      simp

/-! ### The free list -/

/-- The slots after one is pushed at the end of the vector. -/
private theorem slots_append (slots : List WaiterSlot) (slot : WaiterSlot) (j : Nat) :
    (slots ++ [slot])[j]? = if j = slots.length then some slot else slots[j]? := by
  rw [List.getElem?_append]
  by_cases hj : j < slots.length
  · simp [hj, show j ≠ slots.length by omega]
  · by_cases hj' : j = slots.length
    · simp [hj']
    · rw [if_neg hj, if_neg hj', List.getElem?_eq_none (by simp; omega),
        List.getElem?_eq_none (by omega)]

/-- The head of the free list is a free slot that points at the next. -/
theorem FreeList.head_slot {q : WaitQueue} {id : Nat} {rest : List Nat}
    (h : q.FreeList (id :: rest)) : q.slots[id]? = some (.free rest[0]?) := by
  simpa using h.node 0 id rfl

/-- The head of the free list becomes live. -/
theorem FreeList.pop {q : WaitQueue} {id : Nat} {rest : List Nat} (h : q.FreeList (id :: rest))
    (waiter : Waiter) :
    FreeList { q with free := rest[0]?, slots := q.slots.set id (.live waiter) } rest := by
  obtain ⟨hid, hnd⟩ := List.nodup_cons.mp h.nodup
  have hset : ∀ j : Nat, (q.slots.set id (.live waiter))[j]?
      = if j = id then some (.live waiter) else q.slots[j]? := getElem?_set_of_some h.head_slot _
  refine ⟨rfl, fun i x hx => ?_, hnd, fun x next hx => ?_⟩
  · have hne : x ≠ id := fun e => hid (e ▸ List.mem_of_getElem? hx)
    show (q.slots.set id (.live waiter))[x]? = _
    rw [hset, if_neg hne]
    simpa using h.node (i + 1) x (by simpa using hx)
  · have hx' : (q.slots.set id (.live waiter))[x]? = some (.free next) := hx
    rw [hset] at hx'
    split at hx'
    · cases hx'
    · rename_i hne
      exact (List.mem_cons.mp (h.complete x next hx')).resolve_left hne

/-- A live slot at the end of the vector is not free. -/
theorem FreeList.grow {q : WaitQueue} (h : q.FreeList []) (waiter : Waiter) :
    FreeList { q with slots := q.slots ++ [.live waiter] } [] := by
  refine ⟨h.head, fun i x hx => by simp at hx, List.nodup_nil, fun x next hx => ?_⟩
  have hx' : (q.slots ++ [WaiterSlot.live waiter])[x]? = some (.free next) := hx
  rw [slots_append] at hx'
  split at hx'
  · cases hx'
  · exact h.complete x next hx'

/-- A live slot becomes the head of the free list. -/
theorem FreeList.push {q : WaitQueue} {free : List Nat} {id : Nat} {waiter : Waiter}
    (h : q.FreeList free) (hslot : q.slots[id]? = some (.live waiter)) :
    FreeList { q with slots := q.slots.set id (.free q.free), free := some id } (id :: free) := by
  have hset : ∀ j : Nat, (q.slots.set id (.free q.free))[j]?
      = if j = id then some (.free q.free) else q.slots[j]? := getElem?_set_of_some hslot _
  -- A slot that is live is not on the free list.
  have hid : id ∉ free := by
    intro hm
    obtain ⟨i, hi⟩ := List.mem_iff_getElem?.mp hm
    rw [h.node i id hi] at hslot
    cases hslot
  refine ⟨rfl, fun i x hx => ?_, List.nodup_cons.mpr ⟨hid, h.nodup⟩, fun x next hx => ?_⟩
  · show (q.slots.set id (.free q.free))[x]? = _
    -- The free list grows at its head, and the slots on it keep their links.
    rw [hset]
    cases i with
    | zero =>
      obtain rfl : id = x := by simpa using hx
      simp [h.head]
    | succ i =>
      have hx' : free[i]? = some x := by simpa using hx
      have hne : x ≠ id := fun e => hid (e ▸ List.mem_of_getElem? hx')
      rw [if_neg hne, h.node i x hx']
      simp
  · have hx' : (q.slots.set id (.free q.free))[x]? = some (.free next) := hx
    rw [hset] at hx'
    by_cases hne : x = id
    · simp [hne]
    · rw [if_neg hne] at hx'
      exact List.mem_cons_of_mem _ (h.complete x next hx')

/-- `allocate` takes a slot that is not live: the head of the free list, or a new one. -/
theorem allocate_spec {q : WaitQueue} {a : AbsQueue} (h : q.Repr a) (waiter : Waiter)
    (hq : waiter.kind = .queued) :
    ∃ q' id, q.allocate waiter = some (q', id) ∧ q.view id = none ∧ q'.Links a.fifo ∧
      (∃ free, q'.FreeList free) ∧ q'.get id = some waiter ∧ q'.grants = q.grants ∧
      ∀ j, j ≠ id → q'.view j = q.view j := by
  obtain ⟨free, hf⟩ := h.free
  -- The slab after the allocation reads `waiter` at a slot that was not live.
  have key : ∀ q' : WaitQueue, ∀ id, q.get id = none → q'.head = q.head → q'.tail = q.tail →
      (∀ j, q'.get j = if j = id then some waiter else q.get j) →
      q.view id = none ∧ q'.Links a.fifo ∧ q'.get id = some waiter ∧
        ∀ j, j ≠ id → q'.view j = q.view j := by
    intro q' id hnone hh ht hg
    refine ⟨by simp [view, hnone], h.links.write hh ht fun j w _ hw => ⟨w, ?_, rfl, rfl⟩,
      by simp [hg], fun j hj => by simp [view, hg, hj]⟩
    have hj : j ≠ id := by
      rintro rfl
      rw [hnone] at hw
      cases hw
    rw [hg, if_neg hj, hw]
  cases hfree : q.free with
  -- A free slot is used first, from the head of the free list.
  | some id =>
    obtain ⟨rest, rfl⟩ : ∃ rest, free = id :: rest := by
      have h0 : free[0]? = some id := by rw [← hf.head, hfree]
      cases free with
      | nil => simp at h0
      | cons x rest => exact ⟨rest, by simp at h0; rw [h0]⟩
    have hslot := hf.head_slot
    let q' : WaitQueue := { q with free := rest[0]?, slots := q.slots.set id (.live waiter) }
    obtain ⟨hv, hl, hg, hoff⟩ := key q' id (by simp [get, hslot]) rfl rfl (by
      intro j
      show get q' j = _
      unfold get
      simp only [q', getElem?_set_of_some hslot]
      by_cases hj : j = id <;> simp [hj])
    exact ⟨q', id, by simp [allocate, hfree, hslot, q'], hv, hl, ⟨rest, hf.pop waiter⟩, hg,
      tally_set_of_eq slotOne hslot (by simp [slotOne, hq]), hoff⟩
  -- Without a free slot the slab grows by one.
  | none =>
    have hnil : free = [] := by
      have := hf.head
      rw [hfree] at this
      simpa using this.symm
    subst hnil
    let q' : WaitQueue := { q with slots := q.slots ++ [.live waiter] }
    obtain ⟨hv, hl, hg, hoff⟩ := key q' q.slots.length (by simp [get]) rfl rfl (by
      intro j
      show get q' j = _
      unfold get
      simp only [q', slots_append]
      by_cases hj : j = q.slots.length <;> simp [hj])
    exact ⟨q', q.slots.length, by simp [allocate, hfree, q'], hv, hl, ⟨[], hf.grow waiter⟩, hg,
      by simp [grants, q', slotOne, hq], hoff⟩

/-- The weight of a slot read through `view`. -/
private theorem slotOne_eq_view {q : WaitQueue} {id : Nat} {slot : WaiterSlot}
    (h : q.slots[id]? = some slot) : slotOne slot = oneWeight ((q.view id).map Entry.kind) := by
  cases slot <;> simp [view, get, h, slotOne, oneWeight]

/-- When only the slot `id` changed in kind, `grants` moves by the weight of that slot. -/
theorem grants_of_view {q q' : WaitQueue} (hf : Frame q q') (id : Nat)
    (hid : id < q.slots.length)
    (hoff : ∀ j, j ≠ id → (q'.view j).map Entry.kind = (q.view j).map Entry.kind) :
    q'.grants + oneWeight ((q.view id).map Entry.kind)
      = q.grants + oneWeight ((q'.view id).map Entry.kind) := by
  have hlen := hf.length
  have ha := List.getElem?_eq_getElem hid
  have ha' := List.getElem?_eq_getElem (show id < q'.slots.length by omega)
  -- The kinds change at `id` only.
  have hmap : q'.slots.map slotOne
      = (q.slots.map slotOne).set id (slotOne q'.slots[id]) := by
    apply List.ext_getElem?
    intro j
    have hi : (q.slots.map slotOne)[id]? = some (slotOne q.slots[id]) := by simp [ha]
    rw [getElem?_set_of_some hi, List.getElem?_map]
    by_cases hj : j = id
    · subst hj
      simp [ha']
    · rw [if_neg hj, List.getElem?_map]
      by_cases hjl : j < q.slots.length
      · have hb := List.getElem?_eq_getElem hjl
        have hb' := List.getElem?_eq_getElem (show j < q'.slots.length by omega)
        rw [hb, hb', Option.map_some, Option.map_some, slotOne_eq_view hb, slotOne_eq_view hb',
          hoff j hj]
      · rw [List.getElem?_eq_none (by omega), List.getElem?_eq_none (by omega)]
  -- The count of grants moves by what the kind of that slot counts.
  have hset := tally_set (fun n : Nat => n) (l := q.slots.map slotOne) (i := id)
    (by rw [List.getElem?_map, ha]; rfl) (slotOne q'.slots[id])
  simp only [tally, List.map_id', ← hmap] at hset
  rw [← slotOne_eq_view ha, ← slotOne_eq_view ha']
  exact hset

/-- A registration that joins the back of the queue. The slot is live and not queued, and
the rest of the slab represents `a`. Both a new and a granted token register this way. -/
private theorem join_spec {q : WaitQueue} {a : AbsQueue} {id : Nat} {waiter : Waiter}
    (hl : q.Links a.fifo) (hfree : ∃ free, q.FreeList free) (hnd : a.fifo.Nodup)
    (hmem : ∀ j, j ∈ a.fifo ↔ a.kind j = some .queued) (hid : a.kind id ≠ some .queued)
    (hget : q.get id = some waiter) (hwaker : waiter.waker = a.waker id)
    (hoff : ∀ j, j ≠ id → q.view j = a.entry j) (waker : Option Waker) :
    ∃ q₁ q' old, q.enqueue id = some q₁ ∧ q₁.setWaker id waker = some (q', old) ∧
      Frame q q' ∧ q'.Repr (a.register id waker) := by
  have hnot : id ∉ a.fifo := fun hm => hid ((hmem id).mp hm)
  obtain ⟨q₁, h₁, hl₁, hf₁, hv₁⟩ := enqueue_spec hl hnd hnot hget
  obtain ⟨q', old, h₂, hl₂, hf₂, hv₂⟩ := setWaker_spec hl₁ (by rw [hv₁, if_pos rfl]) waker
  obtain ⟨free, hfree⟩ := hfree
  refine ⟨q₁, q', old, h₁, h₂, hf₁.trans hf₂, ?_, ⟨free, hfree.frame (hf₁.trans hf₂)⟩, ?_, ?_, ?_⟩
  · simpa [AbsQueue.register, hid] using hl₂
  · simp only [AbsQueue.register, hid, if_false]
    exact List.Nodup.append hnd (List.nodup_singleton id) (by simpa using hnot)
  · intro j
    rw [AbsQueue.kind_register]
    simp only [AbsQueue.register, hid, if_false, List.mem_append, List.mem_singleton, hmem j]
    by_cases hj : j = id <;> simp [hj]
  · intro j
    by_cases hj : j = id
    · subst hj
      simp [hv₂, AbsQueue.register, hwaker]
    · simp [hv₂, hv₁, hj, AbsQueue.register, hoff j hj]

/-- `register` of a future with no token: a fresh id joins the back of the queue. -/
theorem register_none {q : WaitQueue} {a : AbsQueue} (h : q.Repr a) (waker : Option Waker) :
    ∃ q' id old, q.register none waker = some (q', id, old) ∧ a.entry id = none ∧
      q'.Repr (a.register id waker) ∧ q'.grants = q.grants := by
  obtain ⟨q₀, id, h₀, hnone, hl, hfree, hget, hgr, hoff⟩ := allocate_spec h
    { previous := none, next := none, kind := .queued, waker := none } rfl
  rw [h.view] at hnone
  obtain ⟨q₁, q', old, h₁, h₂, hf, hr⟩ := join_spec (a := a) hl hfree h.nodup h.mem_fifo
    (by simp [AbsQueue.kind, hnone]) hget (by simp [AbsQueue.waker, hnone])
    (fun j hj => by rw [hoff j hj, h.view]) waker
  refine ⟨q', id, old, by simp [register, h₀, h₁, h₂], hnone, hr, ?_⟩
  have hview : q₀.view id = some ⟨.queued, none⟩ := by simp [view, hget]
  have := grants_of_view hf id (lt_length_of_view hview) (by
    intro j hj
    rw [hr.view, hoff j hj, h.view]
    simp [AbsQueue.register, hj])
  rw [hr.view] at this
  simp [hview, AbsQueue.register, oneWeight] at this
  omega

/-- `allocate` takes a free slot, and pushes one only when no slot is free. -/
theorem allocate_slots {q q' : WaitQueue} {a : AbsQueue} {id : Nat} {waiter : Waiter}
    (h : q.Repr a) (hq : q.allocate waiter = some (q', id)) :
    (∃ next, q.slots[id]? = some (.free next)) ∧ q'.slots.length = q.slots.length ∨
      (∀ (j : Nat) next, q.slots[j]? ≠ some (.free next)) ∧ id = q.slots.length ∧
        q'.slots.length = q.slots.length + 1 := by
  obtain ⟨free, hf⟩ := h.free
  unfold allocate at hq
  split at hq
  · split at hq
    · rename_i next hslot
      cases hq
      exact .inl ⟨⟨next, hslot⟩, List.length_set⟩
    · cases hq
  · rename_i hnone
    cases hq
    refine .inr ⟨fun j next hj => ?_, rfl, by simp⟩
    -- The free list holds every free slot, and it is empty.
    have hmem := hf.complete j next hj
    have hnil : free = [] := by
      have hhead := hf.head
      rw [hnone] at hhead
      simpa using hhead.symm
    rw [hnil] at hmem
    cases hmem

/-- A new registration takes a free slot, and the vector grows only when no slot is free. -/
theorem register_none_slots {q q' : WaitQueue} {a : AbsQueue} {id : Nat} {waker old : Option Waker}
    (h : q.Repr a) (hq : q.register none waker = some (q', id, old)) :
    (∃ next, q.slots[id]? = some (.free next)) ∧ q'.slots.length = q.slots.length ∨
      (∀ (j : Nat) next, q.slots[j]? ≠ some (.free next)) ∧ id = q.slots.length ∧
        q'.slots.length = q.slots.length + 1 := by
  obtain ⟨q₀, id₀, h₀, hnone, hl, hfree, hget, -, hoff⟩ := allocate_spec h
    { previous := none, next := none, kind := .queued, waker := none } rfl
  rw [h.view] at hnone
  obtain ⟨q₁, q₂, old₂, h₁, h₂, hf, -⟩ := join_spec (a := a) hl hfree h.nodup h.mem_fifo
    (by simp [AbsQueue.kind, hnone]) hget (by simp [AbsQueue.waker, hnone])
    (fun j hj => by rw [hoff j hj, h.view]) waker
  have hreg : q.register none waker = some (q₂, id₀, old₂) := by simp [register, h₀, h₁, h₂]
  rw [hreg] at hq
  cases hq
  rw [hf.length]
  exact allocate_slots h h₀

/-- `register` of a future with a live token: a granted id joins the back of the queue, and a
queued one stays in place. -/
theorem register_some {q : WaitQueue} {a : AbsQueue} {id : Nat} {e : Entry} (h : q.Repr a)
    (he : a.entry id = some e) (waker : Option Waker) :
    ∃ q' old, q.register (some id) waker = some (q', id, old) ∧
      q'.Repr (a.register id waker) ∧ q'.grants + oneWeight (some e.kind) = q.grants := by
  obtain ⟨w, hw, hk, hwk⟩ := h.get he
  have hview : q.view id = some e := by rw [h.view, he]
  have hgr : ∀ q', Frame q q' → q'.Repr (a.register id waker) →
      q'.grants + oneWeight (some e.kind) = q.grants := by
    intro q' hf hr
    have := grants_of_view hf id (lt_length_of_view hview) (by
      intro j hj
      rw [hr.view, h.view]
      simp [AbsQueue.register, hj])
    rw [hr.view] at this
    simpa [hview, AbsQueue.register, oneWeight] using this
  -- A queued slot keeps its place. A granted one joins the list again.
  by_cases hq : e.kind = .queued
  · obtain ⟨q', old, h₂, hl, hf, hv⟩ := setWaker_spec h.links hview waker
    have hkind : a.kind id = some .queued := by simp [AbsQueue.kind, he, hq]
    obtain ⟨free, hfree⟩ := h.free
    have hr : q'.Repr (a.register id waker) := by
      refine ⟨by simpa [AbsQueue.register, hkind] using hl, ⟨free, hfree.frame hf⟩,
        by simpa [AbsQueue.register, hkind] using h.nodup, ?_, ?_⟩
      · intro j
        rw [AbsQueue.kind_register]
        simp only [AbsQueue.register, hkind, if_true, h.mem_fifo j]
        by_cases hj : j = id <;> simp [hj, hkind]
      · intro j
        by_cases hj : j = id
        · subst hj
          simp [hv, AbsQueue.register, hq, AbsQueue.waker, he]
        · simp [hv, hj, AbsQueue.register, h.view]
    exact ⟨q', old, by simp [register, hw, hk, hq, h₂], hr, hgr q' hf hr⟩
  · obtain ⟨q₁, q', old, h₁, h₂, hf, hr⟩ := join_spec (a := a) h.links h.free h.nodup h.mem_fifo
      (by simp [AbsQueue.kind, he, hq]) hw (by simp [AbsQueue.waker, he, hwk])
      (fun j _ => h.view j) waker
    exact ⟨q', old, by simp [register, hw, hk, hq, h₁, h₂], hr, hgr q' hf hr⟩

/-- `unlink` of a queued id, seen from the abstract queue: the list loses the id and no slot
changes its kind or its waker. -/
private theorem unlink_queued {q : WaitQueue} {a : AbsQueue} (h : q.Repr a) (id : Nat)
    (hid : a.kind id = some .queued) :
    ∃ q', q.unlink id = some q' ∧ q'.Links (a.fifo.erase id) ∧ Frame q q' ∧
      ∀ j, q'.view j = q.view j := by
  obtain ⟨k, hk⟩ := h.position hid
  rw [← eraseIdx_eq_erase h.nodup hk]
  exact unlink_spec h.links h.nodup hk

/-- `remove` of a live token frees its slot and reports its kind. -/
theorem remove_some {q : WaitQueue} {a : AbsQueue} {id : Nat} {e : Entry} (h : q.Repr a)
    (he : a.entry id = some e) :
    ∃ q' waiter, q.remove (some id) = some (q', some waiter) ∧ waiter.kind = e.kind ∧
      q'.Repr (a.remove id) ∧ q'.grants + oneWeight (some e.kind) = q.grants := by
  obtain ⟨w, hw, hk, -⟩ := h.get he
  -- The slab once the slot is off the list.
  obtain ⟨q₁, h₁, hl, hf, hv⟩ : ∃ q₁,
      (if w.kind = .queued then q.unlink id else some q) = some q₁ ∧
      q₁.Links (a.fifo.erase id) ∧ Frame q q₁ ∧ ∀ j, q₁.view j = q.view j := by
    by_cases hq : w.kind = .queued
    · obtain ⟨q₁, h₁, hl, hf, hv⟩ := unlink_queued h id
        (by simp [AbsQueue.kind, he, ← hk, hq])
      exact ⟨q₁, by simp [hq, h₁], hl, hf, hv⟩
    · have hnot : id ∉ a.fifo := by
        rw [h.mem_fifo]
        simpa [AbsQueue.kind, he, ← hk] using hq
      exact ⟨q, by simp [hq], by rw [List.erase_of_not_mem hnot]; exact h.links, Frame.refl q,
        fun _ => rfl⟩
  obtain ⟨old, hold, hoe⟩ : ∃ old, q₁.get id = some old ∧ (⟨old.kind, old.waker⟩ : Entry) = e := by
    have := hv id
    rw [h.view, he, view, Option.map_eq_some_iff] at this
    exact this
  -- What is left of the slot is its place on the free list.
  have hslot := get_eq_some.mp hold
  let q' : WaitQueue := { q₁ with slots := q₁.slots.set id (.free q₁.free), free := some id }
  have hget' : ∀ j, q'.get j = if j = id then none else q₁.get j := by
    intro j
    unfold get
    simp only [q', getElem?_set_of_some hslot]
    by_cases hj : j = id <;> simp [hj]
  obtain ⟨free, hfree⟩ := h.free
  have hrem : q.remove (some id) = some (q', some old) := by
    by_cases hq : w.kind = .queued
    · rw [if_pos hq] at h₁
      simp [remove, hw, hq, h₁, hold, q']
    · rw [if_neg hq] at h₁
      cases h₁
      obtain rfl : w = old := Option.some.inj (hw.symm.trans hold)
      simp [remove, hw, hq, q']
  refine ⟨q', old, hrem, by rw [← hoe], ⟨?_, ?_, ?_, ?_, ?_⟩, ?_⟩
  · refine hl.write rfl rfl fun j w' hj hw' => ⟨w', ?_, rfl, rfl⟩
    rw [hget', if_neg ((h.nodup.mem_erase_iff).mp hj).1, hw']
  · exact ⟨id :: free, (hfree.frame hf).push hslot⟩
  · exact h.nodup.erase id
  · intro j
    rw [AbsQueue.kind_remove, AbsQueue.remove, h.nodup.mem_erase_iff, h.mem_fifo j]
    by_cases hj : j = id <;> simp [hj]
  · intro j
    unfold view
    rw [hget']
    by_cases hj : j = id
    · simp [hj, AbsQueue.remove]
    · simp only [hj, if_false, AbsQueue.remove, Function.update_of_ne hj, ← h.view j, ← hv j]
      rfl
  · -- The slot counted as a grant when it was granted to one waiter.
    have hfree' := tally_set slotOne hslot (.free q₁.free)
    have hsame := grants_of_view hf id (lt_length_of_view ((h.view id).trans he))
      fun j _ => by rw [hv]
    rw [hv] at hsame
    simp only [slotOne] at hfree'
    have hweight : oneWeight (some e.kind) = if old.kind = .one then 1 else 0 := by
      simp [oneWeight, ← hoe]
    simp only [grants, q'] at *
    omega

/-- `grantOne` with nobody queued changes nothing. -/
theorem grantOne_nil {q : WaitQueue} {a : AbsQueue} (h : q.Repr a) (hnil : a.fifo = []) :
    q.grantOne = some (q, none) := by
  have hhead : q.head = none := by rw [h.links.head, hnil]; rfl
  simp [grantOne, hhead]

/-- Taking the oldest id off the queue and writing its grant. `grantOne` and each round of
`grantAll` are this step. -/
private theorem grant_spec {q : WaitQueue} {a : AbsQueue} {id : Nat} {rest : List Nat}
    (h : q.Repr a) (hcons : a.fifo = id :: rest) (kind : WakeKind) (hkind : kind ≠ .queued) :
    ∃ q₁ waiter q', q.head = some id ∧ q.unlink id = some q₁ ∧ q₁.get id = some waiter ∧
      waiter.waker = a.waker id ∧
      (q₁.getMut id fun waiter => { waiter with kind := kind, waker := none }) = some q' ∧
      Frame q q' ∧ q'.Repr (a.grantAs kind id) ∧
      q'.grants = q.grants + oneWeight (some kind) := by
  -- The oldest id is queued, so its slot is live.
  have hid : a.kind id = some .queued := (h.mem_fifo id).mp (by simp [hcons])
  obtain ⟨e, he, hek⟩ := Option.map_eq_some_iff.mp hid
  obtain ⟨q₁, h₁, hl₁, hf₁, hv₁⟩ := unlink_queued h id hid
  obtain ⟨w, hw, rfl⟩ : ∃ w, q₁.get id = some w ∧ (⟨w.kind, w.waker⟩ : Entry) = e := by
    have := hv₁ id
    rw [h.view, he] at this
    unfold view at this
    exact Option.map_eq_some_iff.mp this
  obtain ⟨q', h₂, hl₂, hf₂, hv₂⟩ := write_spec hl₁ hw
    (fun waiter => { waiter with kind := kind, waker := none }) fun _ => ⟨rfl, rfl⟩
  have hf := hf₁.trans hf₂
  -- Only that slot is written.
  have hv : ∀ j, q'.view j = if j = id then some ⟨kind, none⟩ else a.entry j := by
    intro j
    rw [hv₂, hv₁, h.view]
  obtain ⟨free, hfree⟩ := h.free
  refine ⟨q₁, w, q', by rw [h.links.head, hcons]; rfl, h₁, hw, by simp [AbsQueue.waker, he], h₂,
    hf, ⟨hl₂, ⟨free, hfree.frame hf⟩, h.nodup.erase id, ?_, ?_⟩, ?_⟩
  · intro j
    rw [AbsQueue.kind_grantAs, AbsQueue.grantAs, h.nodup.mem_erase_iff, h.mem_fifo j]
    by_cases hj : j = id <;> simp [hj, hkind]
  · intro j
    rw [hv]
    by_cases hj : j = id <;> simp [hj, AbsQueue.grantAs]
  · have hview : q.view id = some ⟨w.kind, w.waker⟩ := by rw [h.view, he]
    have := grants_of_view hf id (lt_length_of_view hview) (by
      intro j hj
      rw [hv, if_neg hj, h.view])
    have hwq : w.kind = .queued := hek
    simpa [hview, hwq, hv, oneWeight] using this

/-- `grantOne` grants the oldest queued id and hands out its waker. -/
theorem grantOne_cons {q : WaitQueue} {a : AbsQueue} {id : Nat} {rest : List Nat}
    (h : q.Repr a) (hcons : a.fifo = id :: rest) :
    ∃ q', q.grantOne = some (q', some (a.waker id)) ∧ q'.Repr (a.grant id) ∧
      q'.grants = q.grants + 1 := by
  obtain ⟨q₁, w, q', hhead, h₁, hw, hwk, h₂, -, hr, hgr⟩ := grant_spec h hcons .one (by decide)
  exact ⟨q', by simp [grantOne, hhead, h₁, hw, h₂, hwk], hr, hgr⟩

/-- After a broadcast of the oldest id, the broadcast of the rest is left. -/
private theorem grantAll_grantAs {a : AbsQueue} {id : Nat} {rest : List Nat}
    (hcons : a.fifo = id :: rest) : (a.grantAs .all id).grantAll = a.grantAll := by
  simp only [AbsQueue.grantAll, AbsQueue.grantAs, hcons, List.erase_cons_head, List.mem_cons,
    AbsQueue.mk.injEq, true_and]
  funext j
  by_cases hj : j = id <;> simp [hj]

/-- The loop of `grantAll` ends within one round for each queued id, and collects the wakers
in queue order. -/
theorem grantAllLoop_spec {q : WaitQueue} {a : AbsQueue} {fuel : Nat} (h : q.Repr a)
    (hfuel : a.fifo.length ≤ fuel) (wakers : List Waker) :
    ∃ q', grantAllLoop fuel q wakers = some (q', wakers ++ a.fifo.filterMap a.waker) ∧
      q'.Repr a.grantAll ∧ q'.grants = q.grants := by
  -- The induction is on the list of queued ids: each round takes its head.
  induction hfifo : a.fifo generalizing a q fuel wakers with
  | nil =>
    have hhead : q.head = none := by rw [h.links.head, hfifo]; rfl
    refine ⟨q, by cases fuel <;> simp [grantAllLoop, hhead], ?_, rfl⟩
    have : a.grantAll = a := by
      obtain ⟨fifo, entry⟩ := a
      simp only at hfifo
      simp [AbsQueue.grantAll, hfifo]
    rwa [this]
  -- The head is granted, and the rest of the list follows.
  | cons id rest ih =>
    obtain ⟨q₁, w, q₂, hhead, h₁, hw, hwk, h₂, -, hr, hgr⟩ := grant_spec h hfifo .all
      (by decide)
    obtain ⟨fuel, rfl⟩ : ∃ n, fuel = n + 1 := ⟨fuel - 1, by simp [hfifo] at hfuel; omega⟩
    have hrest : (a.grantAs .all id).fifo = rest := by simp [AbsQueue.grantAs, hfifo]
    have hfuel' : (a.grantAs .all id).fifo.length ≤ fuel := by
      rw [hrest]
      simpa [hfifo] using hfuel
    obtain ⟨q', h₃, hr', hgr'⟩ := ih hr hfuel' (wakers ++ w.waker.toList) hrest
    refine ⟨q', ?_, by rwa [grantAll_grantAs hfifo] at hr', hgr'.trans hgr⟩
    have hnot : id ∉ rest := by
      have := h.nodup
      rw [hfifo, List.nodup_cons] at this
      exact this.1
    have hwakers : rest.filterMap (a.grantAs .all id).waker = rest.filterMap a.waker := by
      apply List.filterMap_congr
      intro j hj
      have : j ≠ id := fun e => hnot (e ▸ hj)
      simp [AbsQueue.waker, AbsQueue.grantAs, this]
    have hcollect : w.waker.toList ++ rest.filterMap a.waker = (id :: rest).filterMap a.waker := by
      rw [hwk]
      cases hx : a.waker id <;> simp [hx]
    rw [hwakers, List.append_assoc, hcollect] at h₃
    unfold grantAllLoop
    simp [hhead, h₁, hw, h₂, h₃]

/-- A list of numbers without duplicates below `n` has at most `n` elements. -/
private theorem length_le_of_nodup_lt {l : List Nat} {n : Nat} (hnd : l.Nodup)
    (hlt : ∀ x ∈ l, x < n) : l.length ≤ n := by
  have hsub : l ⊆ List.range n := fun x hx => List.mem_range.mpr (hlt x hx)
  simpa using (hnd.subperm hsub).length_le

/-- `grantAll` grants every queued id and collects the wakers in queue order. -/
theorem grantAll_spec {q : WaitQueue} {a : AbsQueue} (h : q.Repr a) :
    ∃ q', q.grantAll = some (q', a.fifo.filterMap a.waker) ∧ q'.Repr a.grantAll ∧
      q'.grants = q.grants := by
  have hlen : a.fifo.length ≤ q.slots.length := by
    refine length_le_of_nodup_lt h.nodup fun id hid => ?_
    obtain ⟨e, he, -⟩ := Option.map_eq_some_iff.mp ((h.mem_fifo id).mp hid)
    exact lt_length_of_view ((h.view id).trans he)
  obtain ⟨q', h', hr, hgr⟩ := grantAllLoop_spec h hlen []
  exact ⟨q', by simpa [grantAll] using h', hr, hgr⟩

/-! ### Tokens -/

/-- `remove` with the token a future holds. -/
theorem remove_spec {q : WaitQueue} {a : AbsQueue} {token : Option Nat} (h : q.Repr a)
    (hlive : ∀ id, token = some id → a.entry id ≠ none) :
    ∃ q' removed, q.remove token = some (q', removed) ∧
      removed.map Waiter.kind = token.bind a.kind ∧ q'.Repr (a.forget token) ∧
      q'.grants + oneWeight (token.bind a.kind) = q.grants := by
  cases token with
  | none => exact ⟨q, none, rfl, rfl, h, by simp [oneWeight]⟩
  | some id =>
    obtain ⟨e, he⟩ := Option.ne_none_iff_exists'.mp (hlive id rfl)
    obtain ⟨q', w, hq, hk, hr, hgr⟩ := remove_some h he
    have hkind : a.kind id = some e.kind := by simp [AbsQueue.kind, he]
    exact ⟨q', some w, hq, by simp [hkind, hk], hr, by simpa [hkind] using hgr⟩

/-- `register` with the token a future holds. -/
theorem register_spec {q : WaitQueue} {a : AbsQueue} {token : Option Nat} (h : q.Repr a)
    (hlive : ∀ id, token = some id → a.entry id ≠ none) (waker : Option Waker) :
    ∃ q' id old, q.register token waker = some (q', id, old) ∧
      (token = some id ∨ token = none ∧ a.entry id = none) ∧ q'.Repr (a.register id waker) ∧
      q'.grants + oneWeight (token.bind a.kind) = q.grants := by
  cases token with
  | none =>
    obtain ⟨q', id, old, hq, hnone, hr, hgr⟩ := register_none h waker
    exact ⟨q', id, old, hq, .inr ⟨rfl, hnone⟩, hr, by simpa [oneWeight] using hgr⟩
  | some id =>
    obtain ⟨e, he⟩ := Option.ne_none_iff_exists'.mp (hlive id rfl)
    obtain ⟨q', old, hq, hr, hgr⟩ := register_some h he waker
    have hkind : a.kind id = some e.kind := by simp [AbsQueue.kind, he]
    exact ⟨q', id, old, hq, .inl rfl, hr, by simpa [hkind] using hgr⟩

end WaitQueue

/-- The live ids belong to parties: a token is live, no two parties share one, and every
live id is somebody's token. -/
structure Owned (a : AbsQueue) (token : Nat → Option Nat) : Prop where
  live : ∀ i id, token i = some id → a.entry id ≠ none
  distinct : ∀ i j id, token i = some id → token j = some id → i = j
  owner : ∀ id, a.entry id ≠ none → ∃ i, token i = some id

namespace Owned

variable {a : AbsQueue} {token : Nat → Option Nat}

/-- At the start there is nothing to own. -/
theorem empty : Owned AbsQueue.empty fun _ => none where
  live i id h := by cases h
  distinct i j id h := by cases h
  owner id h := absurd rfl h

/-- A registration gives the party its id. -/
theorem register (h : Owned a token) {i id : Nat}
    (hid : token i = some id ∨ token i = none ∧ a.entry id = none) (waker : Option Waker) :
    Owned (a.register id waker) (Function.update token i (some id)) := by
  -- No other party holds `id`.
  have hother : ∀ j, j ≠ i → token j ≠ some id := by
    intro j hj hji
    rcases hid with hid | ⟨-, hnone⟩
    · exact hj (h.distinct j i id hji hid)
    · exact h.live j id hji hnone
  refine ⟨?_, ?_, ?_⟩
  · intro j x hx
    by_cases hxid : x = id
    · simp [AbsQueue.register, hxid]
    · have hj : j ≠ i := by
        rintro rfl
        rw [Function.update_self] at hx
        exact hxid (Option.some.inj hx).symm
      rw [Function.update_of_ne hj] at hx
      simpa [AbsQueue.register, hxid] using h.live j x hx
  · intro j k x hj hk
    by_cases hji : j = i <;> by_cases hki : k = i
    · rw [hji, hki]
    · subst hji
      rw [Function.update_self] at hj
      rw [Function.update_of_ne hki] at hk
      exact absurd (hk.trans hj.symm) (hother k hki)
    · subst hki
      rw [Function.update_self] at hk
      rw [Function.update_of_ne hji] at hj
      exact absurd (hj.trans hk.symm) (hother j hji)
    · rw [Function.update_of_ne hji] at hj
      rw [Function.update_of_ne hki] at hk
      exact h.distinct j k x hj hk
  · intro x hx
    by_cases hxid : x = id
    · exact ⟨i, by simp [hxid]⟩
    · simp only [AbsQueue.register, Function.update_of_ne hxid] at hx
      obtain ⟨j, hj⟩ := h.owner x hx
      have hji : j ≠ i := by
        rintro rfl
        rcases hid with hid | ⟨hid, -⟩
        · exact hxid (Option.some.inj (hj.symm.trans hid))
        · rw [hid] at hj
          cases hj
      exact ⟨j, by rw [Function.update_of_ne hji]; exact hj⟩

/-- A removal takes the party's id away. -/
theorem forget (h : Owned a token) (i : Nat) :
    Owned (a.forget (token i)) (Function.update token i none) := by
  refine ⟨?_, ?_, ?_⟩
  · intro j x hx
    have hji : j ≠ i := by
      rintro rfl
      simp at hx
    rw [Function.update_of_ne hji] at hx
    cases htok : token i with
    | none => exact h.live j x hx
    | some id =>
      have hxid : x ≠ id := fun e => hji (h.distinct j i id (e ▸ hx) htok)
      simpa [AbsQueue.forget, AbsQueue.remove, hxid] using h.live j x hx
  · intro j k x hj hk
    have hji : j ≠ i := by
      rintro rfl
      simp at hj
    have hki : k ≠ i := by
      rintro rfl
      simp at hk
    rw [Function.update_of_ne hji] at hj
    rw [Function.update_of_ne hki] at hk
    exact h.distinct j k x hj hk
  · intro x hx
    have hx' : a.entry x ≠ none ∧ token i ≠ some x := by
      cases htok : token i with
      | none =>
        rw [htok] at hx
        exact ⟨hx, by simp⟩
      | some id =>
        rw [htok] at hx
        by_cases hxid : x = id
        · simp [AbsQueue.forget, AbsQueue.remove, hxid] at hx
        · simp only [AbsQueue.forget, AbsQueue.remove, Function.update_of_ne hxid] at hx
          exact ⟨hx, fun e => hxid (Option.some.inj e).symm⟩
    obtain ⟨j, hj⟩ := h.owner x hx'.1
    have hji : j ≠ i := by
      rintro rfl
      exact hx'.2 hj
    exact ⟨j, by rw [Function.update_of_ne hji]; exact hj⟩

/-- Ownership depends on the live ids only. -/
theorem of_live {a' : AbsQueue} (h : Owned a token)
    (hlive : ∀ id, a'.entry id = none ↔ a.entry id = none) : Owned a' token where
  live i id hi := (hlive id).not.mpr (h.live i id hi)
  distinct := h.distinct
  owner id hid := h.owner id ((hlive id).not.mp hid)

/-! The parties of a system are a pool, and `reg` is the registration of one of them. -/

variable {β : Type} {reg : β → Option Nat} {l : List β} {i id : Nat} {x : β}

/-- The registration of a party is live. -/
theorem live_at (h : Owned a (attr reg l)) (hi : l[i]? = some x) (id : Nat)
    (hid : reg x = some id) : a.entry id ≠ none :=
  h.live i id ((attr_of_some reg hi).trans hid)

/-- The other parties do not hold the registration of this one. -/
theorem others (h : Owned a (attr reg l)) (hi : l[i]? = some x) (j : Nat) (y : β) (hji : j ≠ i)
    (hj : l[j]? = some y) : reg y = none ∨ reg y ≠ reg x := by
  cases hy : reg y with
  | none => exact .inl rfl
  | some id =>
    right
    intro hx
    exact hji (h.distinct j i id ((attr_of_some reg hj).trans hy)
      ((attr_of_some reg hi).trans hx.symm))

/-- The other parties do not hold the id that a registration gives to this one. -/
theorem others_of_register (h : Owned a (attr reg l)) (hi : l[i]? = some x)
    (hid : reg x = some id ∨ reg x = none ∧ a.entry id = none) (j : Nat) (y : β) (hji : j ≠ i)
    (hj : l[j]? = some y) : reg y = none ∨ reg y ≠ some id := by
  rcases hid with hid | ⟨-, hnone⟩
  · rw [← hid]
    exact h.others hi j y hji hj
  · right
    intro hy
    exact h.live_at hj id hy hnone

/-- A party that keeps its registration. -/
theorem keep_at (h : Owned a (attr reg l)) (hi : l[i]? = some x) :
    Owned a (Function.update (attr reg l) i (reg x)) := by
  rw [← attr_of_some reg hi, Function.update_eq_self]
  exact h

/-- A party that registers. -/
theorem register_at (h : Owned a (attr reg l)) (hi : l[i]? = some x)
    (hid : reg x = some id ∨ reg x = none ∧ a.entry id = none) (waker : Option Waker) :
    Owned (a.register id waker) (Function.update (attr reg l) i (some id)) := by
  refine h.register ?_ waker
  rw [attr_of_some reg hi]
  exact hid

/-- A party that gives its registration back. -/
theorem forget_at (h : Owned a (attr reg l)) (hi : l[i]? = some x) :
    Owned (a.forget (reg x)) (Function.update (attr reg l) i none) := by
  rw [← attr_of_some reg hi]
  exact h.forget i

end Owned

namespace WaitQueue

/-- A grant of a queued id keeps the live ids. -/
theorem Repr.grant_live {q : WaitQueue} {a : AbsQueue} (h : q.Repr a) {id : Nat}
    (hid : id ∈ a.fifo) (j : Nat) : (a.grant id).entry j = none ↔ a.entry j = none := by
  rw [← AbsQueue.kind_eq_none, ← AbsQueue.kind_eq_none, AbsQueue.kind_grant]
  by_cases hj : j = id
  · simp [hj, (h.mem_fifo id).mp hid]
  · simp [hj]

/-- A broadcast keeps the live ids. -/
theorem Repr.grantAll_live {q : WaitQueue} {a : AbsQueue} (h : q.Repr a) (j : Nat) :
    a.grantAll.entry j = none ↔ a.entry j = none := by
  rw [← AbsQueue.kind_eq_none, ← AbsQueue.kind_eq_none, AbsQueue.kind_grantAll]
  by_cases hj : j ∈ a.fifo
  · simp [hj, (h.mem_fifo j).mp hj]
  · simp [hj]

/-! ### Reading the queue -/

/-- No slot of the queue is still queued. -/
def noneQueued (q : WaitQueue) : Bool :=
  q.slots.all fun
    | .live waiter => waiter.kind ≠ .queued
    | .free _ => true

/-- Nobody is queued exactly when the abstract queue is empty. -/
theorem Repr.noneQueued_iff {q : WaitQueue} {a : AbsQueue} (h : q.Repr a) :
    q.noneQueued = true ↔ a.fifo = [] := by
  unfold noneQueued
  rw [List.all_eq_true]
  constructor
  · intro hall
    rw [List.eq_nil_iff_forall_not_mem]
    intro id hid
    obtain ⟨e, he, hek⟩ := Option.map_eq_some_iff.mp ((h.mem_fifo id).mp hid)
    obtain ⟨w, hw, hk, -⟩ := h.get he
    have := hall _ (List.mem_of_getElem? (get_eq_some.mp hw))
    simp [hk, hek] at this
  · intro hnil slot hslot
    cases slot with
    | free next => rfl
    | live w =>
      obtain ⟨id, hid⟩ := List.mem_iff_getElem?.mp hslot
      have hview := h.view id
      rw [WaitQueue.view, get_eq_some.mpr hid] at hview
      have hnot : a.kind id ≠ some .queued := by
        rw [ne_eq, ← h.mem_fifo, hnil]
        simp
      simpa [AbsQueue.kind, ← hview] using hnot

/-- The head of the queue is the head of the abstract queue. -/
theorem Repr.head_eq {q : WaitQueue} {a : AbsQueue} (h : q.Repr a) : q.head = a.fifo.head? := by
  rw [h.links.head, List.head?_eq_getElem?]

/-- The kind of a live slot. -/
theorem Repr.kind_eq {q : WaitQueue} {a : AbsQueue} (h : q.Repr a) (id : Nat) :
    (q.get id).map Waiter.kind = a.kind id := by
  unfold AbsQueue.kind
  rw [← h.view]
  unfold WaitQueue.view
  rw [Option.map_map]
  rfl

/-- The kind of the slot behind a token. -/
theorem Repr.slotKind_eq {q : WaitQueue} {a : AbsQueue} (h : q.Repr a) (token : Option Nat) :
    q.slotKind token = token.bind a.kind := by
  cases token with
  | none => rfl
  | some id => simp [slotKind, h.kind_eq]

end WaitQueue

/-! ### The sections of `Waiters` -/

/-- A single wake grants the oldest queued id, when there is one. -/
def AbsQueue.wakeOne (a : AbsQueue) : AbsQueue :=
  match a.fifo with
  | [] => a
  | id :: _ => a.grant id

namespace Waiters

variable {q : WaitQueue} {a : AbsQueue}

theorem register_spec {token : Option Nat} (h : q.Repr a)
    (hlive : ∀ id, token = some id → a.entry id ≠ none) (waker : Waker) :
    ∃ q' id, register q token waker = some (q', id) ∧
      (token = some id ∨ token = none ∧ a.entry id = none) ∧
      q'.Repr (a.register id (some waker)) := by
  obtain ⟨q', id, old, hq, hid, hr, -⟩ := WaitQueue.register_spec h hlive (some waker)
  exact ⟨q', id, by simp [register, hq], hid, hr⟩

theorem remove_spec {token : Option Nat} (h : q.Repr a)
    (hlive : ∀ id, token = some id → a.entry id ≠ none) :
    ∃ q', remove q token = some (q', token.bind a.kind) ∧ q'.Repr (a.forget token) := by
  obtain ⟨q', removed, hq, hk, hr, -⟩ := WaitQueue.remove_spec h hlive
  exact ⟨q', by simp [remove, hq, hk], hr⟩

/-- `wake_one` grants to the first of the queue, and leaves an empty one alone. -/
theorem wakeOne_spec (h : q.Repr a) :
    ∃ q' waker, wakeOne q = some (q', waker) ∧ q'.Repr a.wakeOne := by
  cases hfifo : a.fifo with
  | nil =>
    have ha : a.wakeOne = a := by simp [AbsQueue.wakeOne, hfifo]
    exact ⟨q, none, by simp [wakeOne, WaitQueue.grantOne_nil h hfifo], by rwa [ha]⟩
  | cons id rest =>
    obtain ⟨q', hq, hr, -⟩ := WaitQueue.grantOne_cons h hfifo
    have ha : a.wakeOne = a.grant id := by simp [AbsQueue.wakeOne, hfifo]
    exact ⟨q', a.waker id, by simp [wakeOne, hq], by rwa [ha]⟩

theorem wakeAll_spec (h : q.Repr a) :
    ∃ q', wakeAll q = some (q', a.fifo.filterMap a.waker) ∧ q'.Repr a.grantAll := by
  obtain ⟨q', hq, hr, -⟩ := WaitQueue.grantAll_spec h
  exact ⟨q', hq, hr⟩

end Waiters

end Nagoya.Sync
