import Nagoya.Lib.Lts
import Nagoya.Proofs.Time.TimerHeap
import Mathlib.Data.List.MinMax
import Mathlib.Data.List.Nodup

/-!
# `Nagoya.Proofs.Time.TimerQueue`: the heap is a priority queue with deletion by slot

`Queue` says what the heap is for. A queue is a collection of entries. `push` puts one in, `remove`
takes out the entry of a slot, and `pop` takes out the one that comes first. The order of the list
means nothing.

The heap and a queue take the same operations side by side. `Sound` is what holds between them:
the entries are the same, the heap is in order, and the indices are the places. Every operation
that its caller may make goes through (`step_sound`): the sifts with all their checks have a
result, and it is that of the sifts without (`siftUpChecked_eq`, `siftDownChecked_eq`).
-/

set_option autoImplicit false

namespace Nagoya.Time

open Nagoya.Lib

namespace TimerHeap

/-! ### The sifts stay inside the vector and end -/

/-- A sift up that starts inside the vector stays there, and it is over after as many iterations
as its start says. -/
theorem siftUpChecked_eq (fuel fuel' : Nat) (h : TimerHeap) (index : Nat)
    (hi : index < h.entries.length) (hfuel : index < fuel) (hfuel' : index ≤ fuel') :
    siftUpChecked fuel h index = some (siftUpLoop fuel' h index) := by
  induction fuel generalizing fuel' h index with
  | zero => omega
  | succ fuel ih =>
    by_cases hpos : 0 < index
    · obtain ⟨fuel', rfl⟩ := Nat.exists_eq_succ_of_ne_zero (show fuel' ≠ 0 by omega)
      obtain ⟨e, he⟩ : ∃ e, h.entries[index]? = some e := ⟨_, List.getElem?_eq_getElem hi⟩
      obtain ⟨p, hp⟩ : ∃ p, h.entries[(index - 1) / 2]? = some p :=
        ⟨_, List.getElem?_eq_getElem (by omega)⟩
      simp only [siftUpChecked, siftUpLoop, if_pos hpos, he, hp]
      split
      · rfl
      · rw [swapChecked, if_pos ⟨hi, by omega⟩, Option.bind_some]
        exact ih fuel' _ _ (by rw [swap_entries, length_swapAt]; omega) (by omega) (by omega)
    · obtain rfl : index = 0 := by omega
      cases fuel' with
      | zero => rfl
      | succ fuel' => rfl

/-- A sift down that starts inside the vector stays there, and it is over after as many iterations
as there are places from its start on. -/
theorem siftDownChecked_eq (fuel fuel' : Nat) (h : TimerHeap) (index : Nat)
    (hi : index < h.entries.length) (hfuel : h.entries.length < fuel + index + 1)
    (hfuel' : h.entries.length ≤ fuel' + index) :
    siftDownChecked fuel h index = some (siftDownLoop fuel' h index) := by
  induction fuel generalizing fuel' h index with
  | zero => omega
  | succ fuel ih =>
    obtain ⟨fuel', rfl⟩ := Nat.exists_eq_succ_of_ne_zero (show fuel' ≠ 0 by omega)
    by_cases hhalf : index < h.entries.length / 2
    · obtain ⟨-, hic, hcl, -⟩ := child_spec hhalf
      obtain ⟨e, he⟩ : ∃ e, h.entries[index]? = some e := ⟨_, List.getElem?_eq_getElem hi⟩
      obtain ⟨c, hc⟩ : ∃ c, h.entries[h.child index]? = some c :=
        ⟨_, List.getElem?_eq_getElem hcl⟩
      simp only [siftDownChecked, siftDownLoop, if_pos hhalf, he, hc]
      split
      · rfl
      · have hlen : (h.swap index (h.child index)).entries.length = h.entries.length := by
          rw [swap_entries, length_swapAt]
        rw [swapChecked, if_pos ⟨hi, hcl⟩, Option.bind_some]
        exact ih fuel' _ _ (by omega) (by omega) (by omega)
    · simp only [siftDownChecked, siftDownLoop, if_neg hhalf]

/-- `push` never panics and ends. -/
theorem pushChecked_eq (h : TimerHeap) (e : Entry) : h.pushChecked e = some (h.push e) := by
  refine siftUpChecked_eq _ _ _ _ ?_ (Nat.lt_succ_self _) (Nat.le_refl _)
  rw [storeIndex_entries, List.length_append, List.length_singleton]
  exact Nat.lt_succ_self _

/-- The sift that `remove` chooses ends inside the vector. -/
theorem resiftChecked_eq {h : TimerHeap} {index : Nat} (hi : index < h.entries.length) :
    h.resiftChecked index = some (h.resift index) := by
  obtain ⟨e, he⟩ : ∃ e, h.entries[index]? = some e := ⟨_, List.getElem?_eq_getElem hi⟩
  obtain ⟨p, hp⟩ : ∃ p, h.entries[(index - 1) / 2]? = some p :=
    ⟨_, List.getElem?_eq_getElem (by omega)⟩
  simp only [resiftChecked, resift, he, hp]
  split
  · exact siftUpChecked_eq _ _ _ _ hi (by omega) (Nat.le_refl _)
  · exact siftDownChecked_eq _ _ _ _ hi (by omega) (by omega)

/-- `remove` panics only when the place is outside the vector, and it ends. -/
theorem removeChecked_eq (h : TimerHeap) (index : Nat) :
    h.removeChecked index = h.remove index := by
  unfold removeChecked remove
  split
  · rfl
  · dsimp only
    split
    · rename_i hlt
      rw [resiftChecked_eq (by rw [storeIndex_entries]; exact hlt), Option.map_some]
    · rfl

/-- `pop` panics when `remove` does. -/
theorem popChecked_eq (h : TimerHeap) :
    h.popChecked = if h.entries = [] then some (h, none) else
      h.pop.map fun (h, entry) => (h, some entry) := by
  unfold popChecked pop
  split
  · rfl
  · rw [removeChecked_eq]

end TimerHeap

/-! ### The queue -/

/-- One operation of a caller. `remove` reads the index of the slot first, as the drop of a sleep
does. -/
inductive QueueOp where
  | push (entry : Entry)
  | remove (slot : Nat)
  | pop
  deriving DecidableEq, Repr

namespace Queue

/-- What an operation makes of the entries of a queue, and what it returns. -/
def apply (queue : List Entry) : QueueOp → List Entry × Option Entry
  | .push entry => (entry :: queue, none)
  | .remove slot => (queue.filter (·.slot ≠ slot), queue.find? (·.slot = slot))
  | .pop =>
    match queue.argmin Entry.key with
    | none => (queue, none)
    | some entry => (queue.erase entry, some entry)

/-- The operations that a caller may make: it pushes a slot that is not queued, with a number of
registration that is not in use, and it removes a slot that is queued. -/
def Allowed (queue : List Entry) : QueueOp → Prop
  | .push entry => ∀ e ∈ queue, e.slot ≠ entry.slot ∧ e.seq ≠ entry.seq
  | .remove slot => ∃ e ∈ queue, e.slot = slot
  | .pop => True

end Queue

namespace TimerHeap

/-- An operation on the heap, with all checks: the heap after it and what it returns. -/
def apply (h : TimerHeap) : QueueOp → Option (TimerHeap × Option Entry)
  | .push entry => h.pushChecked entry |>.map fun h => (h, none)
  | .remove slot =>
    (h.index slot).bind fun index => (h.removeChecked index).map fun (h, entry) => (h, some entry)
  | .pop => h.popChecked

end TimerHeap

namespace TimerQueue

/-- The heap, and the queue that takes the same operations. -/
structure State where
  heap : TimerHeap
  queue : List Entry

/-- Both take an operation. There is no step when the heap panics or does not end. -/
def step (s : State) (op : QueueOp) : Option State :=
  (s.heap.apply op).map fun (heap, _) => { heap, queue := (Queue.apply s.queue op).1 }

/-- The runs of operations that callers may make, from the empty heap. -/
def system : Lts State QueueOp where
  init s := s = { heap := .empty, queue := [] }
  next := step

/-- The runs whose every operation is allowed. -/
def Reached (s : State) : Prop := system.Reach (fun s op _ => Queue.Allowed s.queue op) s

/-- What holds between the heap and the queue. -/
structure Sound (s : State) : Prop where
  ok : s.heap.HeapOk
  same : s.heap.entries.Perm s.queue
  seqs : (s.queue.map Entry.seq).Nodup

/-- Entries of one number of registration are one entry. -/
theorem Sound.key_inj {s : State} (h : Sound s) {e f : Entry} (he : e ∈ s.queue) (hf : f ∈ s.queue)
    (hkey : e.key = f.key) : e = f := by
  have hseq : e.seq = f.seq := congrArg (fun k => (ofLex k).2) hkey
  exact List.inj_on_of_nodup_map h.seqs he hf hseq

/-- Entries of one slot are one entry. -/
theorem Sound.slot_inj {s : State} (h : Sound s) {e f : Entry} (he : e ∈ s.queue) (hf : f ∈ s.queue)
    (hslot : e.slot = f.slot) : e = f :=
  List.inj_on_of_nodup_map ((h.same.map Entry.slot).nodup_iff.mp h.ok.indexed.nodup) he hf hslot

/-- An operation that is allowed goes through, returns what it returns on the queue, and leaves the
heap and the queue with the same entries. -/
theorem Sound.apply {s : State} (h : Sound s) {op : QueueOp} (hop : Queue.Allowed s.queue op) :
    ∃ heap, s.heap.apply op = some (heap, (Queue.apply s.queue op).2) ∧
      Sound { heap, queue := (Queue.apply s.queue op).1 } := by
  cases op with
  | push entry =>
    -- The slot is new to the queue, so it has no index.
    have hfresh : s.heap.index entry.slot = none := by
      cases hx : s.heap.index entry.slot with
      | none => rfl
      | some i =>
        obtain ⟨e, he, hs⟩ := (h.ok.indexed _ _).mp hx
        exact absurd hs (hop e (h.same.subset (List.mem_of_getElem? he))).1
    obtain ⟨hok, hperm⟩ := TimerHeap.push_spec h.ok hfresh
    refine ⟨s.heap.push entry, ?_, hok, hperm.trans (h.same.cons entry), ?_⟩
    · simp only [TimerHeap.apply, TimerHeap.pushChecked_eq, Option.map_some]
      rfl
    · refine List.nodup_cons.mpr ⟨fun hmem => ?_, h.seqs⟩
      obtain ⟨e, he, hseq⟩ := List.mem_map.mp hmem
      exact (hop e he).2 hseq
  | remove slot =>
    obtain ⟨e, he, hslot⟩ := hop
    obtain ⟨i, hi⟩ := List.getElem?_of_mem (h.same.symm.subset he)
    have hindex : s.heap.index slot = some i := (h.ok.indexed slot i).mpr ⟨e, hi, hslot⟩
    obtain ⟨heap, hremove, hok, hperm⟩ := TimerHeap.remove_spec h.ok hi
    -- The queue's entry for the slot is the one that the index names.
    have hfind : s.queue.find? (·.slot = slot) = some e := by
      cases hf : s.queue.find? (·.slot = slot) with
      | none => simpa [hslot] using List.find?_eq_none.mp hf e he
      | some f =>
        have hfs : f.slot = slot := by simpa using List.find?_some hf
        rw [h.slot_inj (List.mem_of_find?_eq_some hf) he (hfs.trans hslot.symm)]
    refine ⟨heap, ?_, hok, ?_, h.seqs.sublist (List.filter_sublist.map Entry.seq)⟩
    · show (s.heap.index slot).bind _ = some (heap, s.queue.find? (·.slot = slot))
      rw [hindex, Option.bind_some, TimerHeap.removeChecked_eq, hremove, hfind]
      rfl
    · -- The slot has no other entry.
      have hnodup : ((e :: heap.entries).map Entry.slot).Nodup :=
        (hperm.map Entry.slot).nodup_iff.mpr h.ok.indexed.nodup
      rw [List.map_cons, List.nodup_cons] at hnodup
      have hkeep : heap.entries.filter (·.slot ≠ slot) = heap.entries := by
        refine List.filter_eq_self.mpr fun f hf => ?_
        have hne : f.slot ≠ slot := fun hs =>
          hnodup.1 (hslot.trans hs.symm ▸ List.mem_map_of_mem hf)
        simpa using hne
      have hfilter := (hperm.trans h.same).filter (·.slot ≠ slot)
      rw [List.filter_cons_of_neg (by simpa using hslot), hkeep] at hfilter
      exact hfilter
  | pop =>
    cases hmin : s.queue.argmin Entry.key with
    -- An empty queue has an empty heap, and `pop` returns nothing.
    | none =>
      have hnil : s.queue = [] := List.argmin_eq_none.mp hmin
      have hentries : s.heap.entries = [] := by
        rw [← List.perm_nil, ← hnil]
        exact h.same
      refine ⟨s.heap, ?_, ?_⟩
      · show s.heap.popChecked = some (s.heap, (Queue.apply s.queue .pop).2)
        rw [TimerHeap.popChecked_eq, if_pos hentries, Queue.apply, hmin]
      · rw [Queue.apply, hmin]
        exact h
    | some e =>
      have he : e ∈ s.queue := List.argmin_mem hmin
      cases hp : s.heap.peek with
      | none =>
        rw [TimerHeap.peek_eq_none] at hp
        have := h.same.symm.subset he
        simp [hp] at this
      | some p =>
        -- The top of the heap and the least entry of the queue are not after each other.
        obtain rfl : p = e := by
          have hpq := h.same.subset (TimerHeap.peek_mem hp)
          exact h.key_inj hpq he (le_antisymm
            (h.ok.peek_key_le hp e (h.same.symm.subset he))
            (List.le_of_mem_argmin hpq hmin))
        obtain ⟨heap, hpop, hok, hperm⟩ := TimerHeap.pop_spec h.ok hp
        have hne : s.heap.entries ≠ [] := List.ne_nil_of_mem (TimerHeap.peek_mem hp)
        refine ⟨heap, ?_, hok, ?_, ?_⟩
        · show s.heap.popChecked = some (heap, (Queue.apply s.queue .pop).2)
          rw [TimerHeap.popChecked_eq, if_neg hne, hpop, Queue.apply, hmin]
          rfl
        · rw [Queue.apply, hmin]
          exact List.Perm.cons_inv
            ((hperm.trans h.same).trans (List.perm_cons_erase he))
        · rw [Queue.apply, hmin]
          exact h.seqs.sublist (List.erase_sublist.map Entry.seq)

/-- The heap and the queue agree in every run. -/
theorem sound_of_reached {s : State} (h : Reached s) : Sound s := by
  refine h.invariant (P := Sound) ?_ ?_
  · rintro s rfl
    exact ⟨TimerHeap.empty_ok, .refl _, .nil⟩
  · intro s op s' hs hstep hop
    obtain ⟨heap, happly, hsound⟩ := hs.apply hop
    have hnext : step s op = some { heap, queue := (Queue.apply s.queue op).1 } := by
      rw [step, happly, Option.map_some]
    rw [← Option.some.inj (hnext.symm.trans hstep)]
    exact hsound

/-- What a pop returns on the queue comes before every other entry. -/
theorem Sound.pop_least {s : State} (h : Sound s) {e : Entry}
    (hpop : (Queue.apply s.queue .pop).2 = some e) :
    e ∈ s.queue ∧ ∀ f ∈ s.queue, f ≠ e → e.key < f.key := by
  rw [Queue.apply] at hpop
  cases hmin : s.queue.argmin Entry.key with
  | none =>
    rw [hmin] at hpop
    cases hpop
  | some e' =>
    rw [hmin] at hpop
    obtain rfl : e' = e := Option.some.inj hpop
    have he := List.argmin_mem hmin
    refine ⟨he, fun f hf hne => lt_of_le_of_ne (List.le_of_mem_argmin hf hmin) fun hkey => ?_⟩
    exact hne (h.key_inj hf he hkey.symm)

/-- What a removal returns on the queue is the entry of its slot. -/
theorem Sound.remove_slot {s : State} {slot : Nat} {e : Entry}
    (hremove : (Queue.apply s.queue (.remove slot)).2 = some e) : e ∈ s.queue ∧ e.slot = slot :=
  ⟨List.mem_of_find?_eq_some hremove, by simpa using List.find?_some hremove⟩

/-- The timer heap is a priority queue with deletion by slot. After every sequence of operations
that callers may make, from the empty heap:

* the parent of every entry is not after it by deadline and then by registration;
* the index of every slot in the heap is the place of its entry, and every other slot has none;
* the entries are those of the queue that took the same operations;
* every operation that a caller may make next has a result, with all the checks of the vector and
  in as many iterations as there are entries, and it returns what it returns on the queue;
* a removal returns the entry of the slot whose index it read;
* a pop returns the entry that comes before all others, and nothing when there is none. -/
theorem timer_heap_is_queue {s : State} (h : Reached s) :
    (∀ i parent entry, 0 < i → s.heap.entries[(i - 1) / 2]? = some parent →
      s.heap.entries[i]? = some entry → parent.key ≤ entry.key) ∧
    (∀ i entry, s.heap.entries[i]? = some entry → s.heap.index entry.slot = some i) ∧
    (∀ slot, (∀ e ∈ s.heap.entries, e.slot ≠ slot) → s.heap.index slot = none) ∧
    s.heap.entries.Perm s.queue ∧
    (∀ op, Queue.Allowed s.queue op →
      ∃ heap, s.heap.apply op = some (heap, (Queue.apply s.queue op).2) ∧
        heap.entries.Perm (Queue.apply s.queue op).1) ∧
    (∀ slot heap e, s.heap.apply (.remove slot) = some (heap, some e) →
      e ∈ s.queue ∧ e.slot = slot) ∧
    (∀ heap returned, s.heap.apply .pop = some (heap, returned) →
      (returned = none ↔ s.queue = []) ∧
      ∀ e, returned = some e → e ∈ s.queue ∧ ∀ f ∈ s.queue, f ≠ e → e.key < f.key) := by
  have hs := sound_of_reached h
  refine ⟨fun i parent entry hpos hp he => hs.ok.ordered i hpos parent entry hp he,
    fun i entry he => (hs.ok.indexed entry.slot i).mpr ⟨entry, he, rfl⟩, fun slot hno => ?_,
    hs.same, fun op hop => ?_, fun slot heap e hremove => ?_, fun heap returned hpop => ?_⟩
  · cases hx : s.heap.index slot with
    | none => rfl
    | some i =>
      obtain ⟨e, he, hslot⟩ := (hs.ok.indexed slot i).mp hx
      exact absurd hslot (hno e (List.mem_of_getElem? he))
  · obtain ⟨heap, happly, hsound⟩ := hs.apply hop
    exact ⟨heap, happly, hsound.same⟩
  · -- The slot has an index, so it is in the queue.
    have hqueued : ∃ e ∈ s.queue, e.slot = slot := by
      cases hx : s.heap.index slot with
      | none => simp [TimerHeap.apply, hx] at hremove
      | some i =>
        obtain ⟨e, he, hslot⟩ := (hs.ok.indexed slot i).mp hx
        exact ⟨e, hs.same.subset (List.mem_of_getElem? he), hslot⟩
    obtain ⟨heap', happly, -⟩ := hs.apply (show Queue.Allowed s.queue (.remove slot) from hqueued)
    rw [hremove, Option.some.injEq, Prod.mk.injEq] at happly
    exact Sound.remove_slot happly.2.symm
  · -- What `pop` returns is the least entry of the queue.
    obtain ⟨heap', happly, -⟩ := hs.apply (show Queue.Allowed s.queue .pop from trivial)
    rw [hpop, Option.some.injEq, Prod.mk.injEq] at happly
    rw [happly.2]
    refine ⟨?_, fun e => hs.pop_least⟩
    rw [Queue.apply]
    cases hmin : s.queue.argmin Entry.key with
    | none => exact iff_of_true rfl (List.argmin_eq_none.mp hmin)
    | some e => exact iff_of_false nofun (List.ne_nil_of_mem (List.argmin_mem hmin))

/-- Three entries are pushed, the last one first. The one between goes by its slot, the least by a
pop, and one is left. -/
theorem timer_heap_is_queue_three :
    ∃ s, Reached s ∧ s.queue = [⟨20, 0, 7⟩] ∧ s.heap.entries.Perm s.queue := by
  have h₁ : Reached _ := .step (a := .push ⟨20, 0, 7⟩) (.init rfl) rfl (by simp [Queue.Allowed])
  have h₂ : Reached _ :=
    .step (a := .push ⟨10, 1, 8⟩) h₁ rfl (by simp [Queue.Allowed, Queue.apply])
  have h₃ : Reached _ :=
    .step (a := .push ⟨15, 2, 9⟩) h₂ rfl (by simp [Queue.Allowed, Queue.apply])
  have h₄ : Reached _ := .step (a := .remove 9) h₃ rfl (by simp [Queue.Allowed, Queue.apply])
  have h₅ : Reached _ := .step (a := .pop) h₄ rfl trivial
  exact ⟨_, h₅, rfl, (timer_heap_is_queue h₅).2.2.2.1⟩

end TimerQueue

end Nagoya.Time
