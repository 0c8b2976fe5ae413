import Nagoya.Lib.Chain
import Nagoya.Lib.Pool
import Nagoya.Reactor.TaskSet

/-!
# `Nagoya.Proofs.Reactor.TaskSet`: the ready chain loses no wake

`Core` is the invariant of the chain. The slots linked from `head` are a list `H`, and those of
the taken chain that the walk has not reached are a list `R`. `Core.place` counts, for each
slot, how often it is in `H`, under the walk's hand, in `R`, and with a party that has won the
right to queue it. The sum is one when `queued` is set and zero when it is not. So the places
are disjoint, no slot is in one of them twice, and nothing else is queued.

A party may write the link of a slot only while it is the one that queues it, and then the slot
is in neither list (`Core.store`). This is why the links of the chain that is being walked stand
still.

`SlotOk.links` follows each link from its exchange to the poll: it is linked from `head`
until a walk starts, then it is still ahead of that walk, and then that walk has polled it or
found it finished.
-/

set_option autoImplicit false

namespace Nagoya.Reactor

open Nagoya.Lib

namespace TaskSet

/-! ### Places -/

/-- The link of a slot. -/
def nextOf (s : State) : Nat → Option Nat := attr (fun slot => some slot.next) s.slots

/-- Whether the future of a slot is still there. -/
def futureOf (s : State) : Nat → Option Bool := attr (fun slot => some slot.future) s.slots

/-- The party has won the right to queue its slot and has not linked it yet. -/
def LinkPc.linking : LinkPc → Bool
  | .load | .store _ | .exchange _ => true
  | .wakeParent | .done => false

/-- Whether the wake is about to link the slot `i`, as a number. -/
def Linker.linking (i : Nat) (l : Linker) : Nat := if l.pc.linking ∧ l.index = i then 1 else 0

/-- Whether the owner is about to link the slot `i`, as a number. -/
def OwnerPc.linking (i : Nat) : OwnerPc → Nat
  | .push index pc => if pc.linking ∧ index = i then 1 else 0
  | _ => 0

/-- How many parties are about to link the slot `i`. -/
def linking (s : State) (i : Nat) : Nat :=
  tally (Linker.linking i) s.linkers + s.owner.linking i

/-- Where the walk goes on. -/
def OwnerPc.cursor : OwnerPc → Nat
  | .next cursor => cursor
  | .clear _ following | .poll _ following | .polling _ following => following
  | _ => chainEnd

/-- The entry whose link the walk has read and whose flag it has not cleared. -/
def OwnerPc.entry : OwnerPc → List Nat
  | .clear index _ => [index]
  | _ => []

/-- The entry that the walk has reached and not polled yet. -/
def OwnerPc.visiting : OwnerPc → List Nat
  | .clear index _ | .poll index _ => [index]
  | _ => []

/-- What is true of one slot. -/
structure SlotOk (s : State) (H R : List Nat) (i : Nat) (slot : Slot) : Prop where
  woken : slot.queued = true → slot.wokenSinceClear = true
  future : slot.future = slot.finished.isNone
  past : ∀ m, slot.finished = some m →
    m ≤ s.walks ∧ (m = s.walks → i ∉ s.owner.visiting ++ R)
  links : ∀ n ∈ slot.links, n ≤ s.walks ∧ (n = s.walks → i ∈ H) ∧
    (n < s.walks → n + 1 ∈ slot.polls ∨ (∃ m ≤ n, slot.finished = some m) ∨
      n + 1 = s.walks ∧ i ∈ s.owner.visiting ++ R)

/-- The invariant of the chain, where `L i` parties are about to link the slot `i`. -/
structure Core (s : State) (H R : List Nat) (L : Nat → Nat) : Prop where
  head : Chain (nextOf s) chainEnd s.head H
  rest : Chain (nextOf s) chainEnd s.owner.cursor R
  place : ∀ i slot, s.slots[i]? = some slot →
    H.count i + s.owner.entry.count i + R.count i + L i = slot.queued.toNat
  slot : ∀ i slot, s.slots[i]? = some slot → SlotOk s H R i slot

/-! ### Replacing a slot -/

@[simp] theorem modify_head (s : State) (i : Nat) (f : Slot → Slot) :
    (s.modify i f).head = s.head := by
  unfold State.modify; split <;> rfl

@[simp] theorem modify_left (s : State) (i : Nat) (f : Slot → Slot) :
    (s.modify i f).left = s.left := by
  unfold State.modify; split <;> rfl

@[simp] theorem modify_owner (s : State) (i : Nat) (f : Slot → Slot) :
    (s.modify i f).owner = s.owner := by
  unfold State.modify; split <;> rfl

@[simp] theorem modify_ready (s : State) (i : Nat) (f : Slot → Slot) :
    (s.modify i f).ready = s.ready := by
  unfold State.modify; split <;> rfl

@[simp] theorem modify_shared (s : State) (i : Nat) (f : Slot → Slot) :
    (s.modify i f).shared = s.shared := by
  unfold State.modify; split <;> rfl

@[simp] theorem modify_linkers (s : State) (i : Nat) (f : Slot → Slot) :
    (s.modify i f).linkers = s.linkers := by
  unfold State.modify; split <;> rfl

@[simp] theorem modify_walks (s : State) (i : Nat) (f : Slot → Slot) :
    (s.modify i f).walks = s.walks := by
  unfold State.modify; split <;> rfl

@[simp] theorem modify_length (s : State) (i : Nat) (f : Slot → Slot) :
    (s.modify i f).slots.length = s.slots.length := by
  unfold State.modify; split <;> simp

theorem modify_with_linkers (s : State) (i : Nat) (f : Slot → Slot) :
    { s.modify i f with linkers := s.linkers } = s.modify i f := by
  unfold State.modify; split <;> rfl

theorem modify_slots {s : State} {i : Nat} {slot : Slot} (hi : s.slots[i]? = some slot)
    (f : Slot → Slot) : (s.modify i f).slots = s.slots.set i (f slot) := by
  simp [State.modify, hi]

/-- The slots after a replacement: the changed one, and the others. -/
theorem modify_cases {s : State} {i j : Nat} {slot slot' : Slot} {f : Slot → Slot}
    (hi : s.slots[i]? = some slot) (hj : (s.modify i f).slots[j]? = some slot') :
    j = i ∧ slot' = f slot ∨ j ≠ i ∧ s.slots[j]? = some slot' := by
  rw [modify_slots hi, getElem?_set_of_some hi] at hj
  split at hj
  · rename_i hji
    exact .inl ⟨hji, (Option.some.inj hj).symm⟩
  · rename_i hji
    exact .inr ⟨hji, hj⟩

/-- A replacement changes the link of one slot. -/
theorem nextOf_modify {s : State} {i : Nat} {slot : Slot} (hi : s.slots[i]? = some slot)
    (f : Slot → Slot) :
    nextOf (s.modify i f) = Function.update (nextOf s) i (some (f slot).next) := by
  rw [nextOf, modify_slots hi, attr_set _ hi]
  rfl

/-- A replacement that keeps the link. -/
theorem nextOf_modify_of_eq {s : State} {i : Nat} {f : Slot → Slot}
    (hf : ∀ slot, (f slot).next = slot.next) : nextOf (s.modify i f) = nextOf s := by
  cases hi : s.slots[i]? with
  | none => simp [State.modify, hi]
  | some slot =>
    rw [nextOf, modify_slots hi, attr_set_of_eq _ hi (by rw [hf])]
    rfl

/-- A replacement that keeps the future. -/
theorem futureOf_modify_of_eq {s : State} {i : Nat} {f : Slot → Slot}
    (hf : ∀ slot, (f slot).future = slot.future) : futureOf (s.modify i f) = futureOf s := by
  cases hi : s.slots[i]? with
  | none => simp [State.modify, hi]
  | some slot =>
    rw [futureOf, modify_slots hi, attr_set_of_eq _ hi (by rw [hf])]
    rfl

/-- A replacement that keeps the future keeps the number of futures. -/
theorem tally_modify_of_eq {s : State} {i : Nat} {f : Slot → Slot}
    (hf : ∀ slot, (f slot).future = slot.future) :
    tally (fun slot => slot.future.toNat) (s.modify i f).slots =
      tally (fun slot => slot.future.toNat) s.slots := by
  cases hi : s.slots[i]? with
  | none => simp [State.modify, hi]
  | some slot => rw [modify_slots hi, tally_set_of_eq _ hi (by rw [hf])]

theorem exists_of_nextOf {s : State} {i : Nat} (h : (nextOf s i).isSome = true) :
    ∃ slot, s.slots[i]? = some slot := by
  cases hi : s.slots[i]? with
  | none => simp [nextOf, attr, hi] at h
  | some slot => exact ⟨slot, rfl⟩

/-- The members of both lists exist. -/
theorem Core.exists_of_mem {s : State} {H R : List Nat} {L : Nat → Nat} (h : Core s H R L)
    {i : Nat} (hi : i ∈ H ++ R) : ∃ slot, s.slots[i]? = some slot := by
  rcases List.mem_append.mp hi with hi | hi
  · exact exists_of_nextOf (h.head.isSome_of_mem hi)
  · exact exists_of_nextOf (h.rest.isSome_of_mem hi)

theorem Core.lt_of_mem {s : State} {H R : List Nat} {L : Nat → Nat} (h : Core s H R L) {i : Nat}
    (hi : i ∈ H ++ R) : i < s.slots.length := by
  obtain ⟨slot, hs⟩ := h.exists_of_mem hi
  exact (List.getElem?_eq_some_iff.mp hs).1

/-- A slot that someone is about to link is nowhere else. -/
theorem Core.not_mem_of_linking {s : State} {H R : List Nat} {L : Nat → Nat} (h : Core s H R L)
    {i : Nat} {slot : Slot} (hi : s.slots[i]? = some slot) (hL : 1 ≤ L i) :
    i ∉ H ∧ i ∉ R ∧ slot.queued = true := by
  have hp := h.place i slot hi
  have hq : slot.queued.toNat ≤ 1 := Bool.toNat_le slot.queued
  refine ⟨List.count_eq_zero.mp (by omega), List.count_eq_zero.mp (by omega), ?_⟩
  cases hb : slot.queued with
  | true => rfl
  | false =>
    rw [hb, Bool.toNat_false] at hp
    omega

/-! ### The chain under one change -/

/-- What is left to show when one slot changes and keeps its link. -/
theorem Core.replace {s s' : State} {H R H' R' : List Nat} {L L' : Nat → Nat}
    (h : Core s H R L) {i : Nat} {slot slot' : Slot} (hi : s.slots[i]? = some slot)
    (hs : s'.slots = s.slots.set i slot') (hn : slot'.next = slot.next)
    (hhead : Chain (nextOf s) chainEnd s'.head H')
    (hrest : Chain (nextOf s) chainEnd s'.owner.cursor R')
    (hplace : H'.count i + s'.owner.entry.count i + R'.count i + L' i = slot'.queued.toNat)
    (hplaces : ∀ j, j ≠ i → H'.count j + s'.owner.entry.count j + R'.count j + L' j =
      H.count j + s.owner.entry.count j + R.count j + L j)
    (hslot : SlotOk s' H' R' i slot')
    (hslots : ∀ j x, j ≠ i → SlotOk s H R j x → SlotOk s' H' R' j x) : Core s' H' R' L' := by
  have hnext : nextOf s' = nextOf s := by
    rw [nextOf, hs, attr_set_of_eq _ hi (by rw [hn])]
    rfl
  refine ⟨hnext ▸ hhead, hnext ▸ hrest, fun j x hj => ?_, fun j x hj => ?_⟩ <;>
    rw [hs, getElem?_set_of_some hi] at hj <;> split at hj
  · rename_i hji
    cases hj
    rw [hji]
    exact hplace
  · rename_i hji
    rw [hplaces j hji]
    exact h.place j x hj
  · rename_i hji
    cases hj
    rw [hji]
    exact hslot
  · rename_i hji
    exact hslots j x hji (h.slot j x hj)

/-- What is left to show when no slot changes. -/
theorem Core.keep {s s' : State} {H R H' R' : List Nat} {L : Nat → Nat} (h : Core s H R L)
    (hs : s'.slots = s.slots) (hhead : Chain (nextOf s) chainEnd s'.head H')
    (hrest : Chain (nextOf s) chainEnd s'.owner.cursor R')
    (hplaces : ∀ j, H'.count j + s'.owner.entry.count j + R'.count j =
      H.count j + s.owner.entry.count j + R.count j)
    (hslots : ∀ j x, s.slots[j]? = some x → SlotOk s H R j x → SlotOk s' H' R' j x) :
    Core s' H' R' L := by
  have hnext : nextOf s' = nextOf s := by rw [nextOf, hs]; rfl
  refine ⟨hnext ▸ hhead, hnext ▸ hrest, fun j x hj => ?_, fun j x hj => ?_⟩ <;> rw [hs] at hj
  · rw [hplaces]
    exact h.place j x hj
  · exact hslots j x hj (h.slot j x hj)

/-- A task that has its future has not finished. -/
theorem SlotOk.finished_eq_none {s : State} {H R : List Nat} {i : Nat} {slot : Slot}
    (h : SlotOk s H R i slot) (hfuture : slot.future = true) : slot.finished = none := by
  have hisNone := h.future
  rw [hfuture] at hisNone
  exact Option.isNone_iff_eq_none.mp hisNone.symm

/-- A slot's history depends on the number of walks and on what the walk has ahead. -/
theorem SlotOk.congr {s s' : State} {H R H' R' : List Nat} {i : Nat} {slot : Slot}
    (h : SlotOk s H R i slot) (hw : s'.walks = s.walks) (hH : i ∈ H → i ∈ H')
    (hR : i ∈ s'.owner.visiting ++ R' ↔ i ∈ s.owner.visiting ++ R) : SlotOk s' H' R' i slot where
  woken := h.woken
  future := h.future
  past m hm := by
    rw [hw, hR]
    exact h.past m hm
  links n hn := by
    rw [hw, hR]
    obtain ⟨h1, h2, h3⟩ := h.links n hn
    exact ⟨h1, fun he => hH (h2 he), h3⟩

/-- The party that queues a slot writes its link. -/
theorem Core.store {s : State} {H R : List Nat} {L : Nat → Nat} (h : Core s H R L) {i : Nat}
    {slot : Slot} (hi : s.slots[i]? = some slot) (hL : 1 ≤ L i) (head : Nat) :
    Core (s.modify i fun slot => { slot with next := head }) H R L := by
  obtain ⟨hH, hR, -⟩ := h.not_mem_of_linking hi hL
  refine ⟨?_, ?_, fun j x hj => ?_, fun j x hj => ?_⟩
  · rw [nextOf_modify hi, modify_head]
    exact h.head.update hH _
  · rw [nextOf_modify hi, modify_owner]
    exact h.rest.update hR _
  · rcases modify_cases hi hj with ⟨rfl, rfl⟩ | ⟨-, hj⟩
    · rw [modify_owner]
      exact h.place _ slot hi
    · rw [modify_owner]
      exact h.place j x hj
  · rcases modify_cases hi hj with ⟨rfl, rfl⟩ | ⟨-, hj⟩
    · have hok := h.slot _ slot hi
      refine ⟨hok.woken, hok.future, ?_, ?_⟩ <;> rw [modify_walks, modify_owner]
      · exact hok.past
      · exact hok.links
    · exact (h.slot j x hj).congr (modify_walks ..) id (by rw [modify_owner])

/-- The exchange puts the slot in front of the chain. -/
theorem Core.exchange {s : State} {H R : List Nat} {L L' : Nat → Nat} (h : Core s H R L)
    {i : Nat} {slot : Slot} (hi : s.slots[i]? = some slot) (hne : i ≠ chainEnd)
    (hnext : nextOf s i = some s.head) (hL : ∀ j, L' j + (if j = i then 1 else 0) = L j) :
    Core ({ s with head := i }.modify i fun slot =>
      { slot with links := slot.links ++ [s.walks] }) (i :: H) R L' := by
  have hi' : { s with head := i }.slots[i]? = some slot := hi
  have hLi := hL i
  rw [if_pos rfl] at hLi
  have hpi := h.place i slot hi
  have hok := h.slot i slot hi
  refine h.replace hi (modify_slots hi' _) rfl ?_ ?_ ?_ (fun j hj => ?_) ?_ (fun j x hj hx => ?_)
  · rw [modify_head]
    exact h.head.cons hnext hne
  · rw [modify_owner]
    exact h.rest
  · rw [modify_owner, List.count_cons_self]
    show _ = slot.queued.toNat
    simp only
    omega
  -- The slot moves from its party to the chain, and the others stay where they are.
  · have hLj := hL j
    rw [if_neg hj] at hLj
    rw [modify_owner, List.count_cons_of_ne (Ne.symm hj)]
    simp only
    omega
  · refine ⟨hok.woken, hok.future, ?_, fun n hn => ?_⟩
    · rw [modify_walks, modify_owner]
      exact hok.past
    · rw [modify_walks, modify_owner]
      rcases List.mem_append.mp hn with hn | hn
      · obtain ⟨h1, -, h3⟩ := hok.links n hn
        exact ⟨h1, fun _ => by simp, h3⟩
      · -- The new link: no walk has started since.
        obtain rfl : n = s.walks := by simpa using hn
        exact ⟨Nat.le_refl _, fun _ => by simp, fun hlt => absurd hlt (Nat.lt_irrefl _)⟩
  · exact hx.congr (modify_walks ..) (fun hH => by simp [hH]) (by rw [modify_owner])

/-- A wake of a slot that is queued already is recorded, and changes nothing else. -/
theorem Core.wake {s : State} {H R : List Nat} {L L' : Nat → Nat} (h : Core s H R L) {i : Nat}
    {slot : Slot} (hi : s.slots[i]? = some slot)
    (hL : ∀ j, L' j = L j + (if j = i ∧ slot.queued = false then 1 else 0)) :
    Core (s.modify i fun slot =>
      { slot with queued := true, wokenSinceClear := true, wokenSincePoll := true }) H R L' := by
  have hok := h.slot i slot hi
  have hpi := h.place i slot hi
  refine h.replace hi (modify_slots hi _) rfl ?_ ?_ ?_ (fun j hj => ?_) ?_ (fun j x hj hx => ?_)
  · rw [modify_head]
    exact h.head
  · rw [modify_owner]
    exact h.rest
  · rw [modify_owner, hL i]
    cases hq : slot.queued <;> simp [hq] at hpi ⊢ <;> omega
  · rw [modify_owner, hL j, if_neg (fun hc => hj hc.1)]
    omega
  · refine ⟨fun _ => rfl, hok.future, ?_, ?_⟩ <;> rw [modify_walks, modify_owner]
    · exact hok.past
    · exact hok.links
  · exact hx.congr (modify_walks ..) id (by rw [modify_owner])

/-- A new slot is with the owner, who is about to link it. -/
theorem Core.push {s : State} {H R : List Nat} {L L' : Nat → Nat} (h : Core s H R L)
    (howner : s.owner = .idle) (hL : ∀ j, L' j = L j + (if j = s.slots.length then 1 else 0))
    (hfresh : L s.slots.length = 0) :
    Core { s with
      shared := true
      slots := s.slots ++ [freshSlot]
      left := s.left + 1
      owner := .push s.slots.length .load
      ready := none } H R L' := by
  -- The index was not in use.
  have hnot : s.slots.length ∉ H ++ R := fun hmem => Nat.lt_irrefl _ (h.lt_of_mem hmem)
  have hnext : ∀ i ∈ H ++ R, attr (fun slot => some slot.next) (s.slots ++ [freshSlot]) i =
      nextOf s i := fun i hi => by
    rw [attr_append, Function.update_of_ne (fun he : i = s.slots.length => hnot (he ▸ hi))]
    rfl
  have hrest := h.rest
  simp only [howner, OwnerPc.cursor] at hrest
  refine ⟨h.head.congr fun i hi => hnext i (by simp [hi]),
    hrest.congr fun i hi => hnext i (by simp [hi]), fun j x hj => ?_, fun j x hj => ?_⟩
  · simp only [OwnerPc.entry, List.count_nil]
    rcases getElem?_append_singleton hj with hj | ⟨rfl, rfl⟩
    · have hp := h.place j x hj
      have hlt := (List.getElem?_eq_some_iff.mp hj).1
      simp only [howner, OwnerPc.entry, List.count_nil] at hp
      rw [hL j, if_neg (by omega)]
      exact hp
    · rw [hL, hfresh, if_pos rfl, List.count_eq_zero.mpr fun hm => hnot (by simp [hm]),
        List.count_eq_zero.mpr fun hm => hnot (by simp [hm])]
      rfl
  · rcases getElem?_append_singleton hj with hj | ⟨rfl, rfl⟩
    · refine (h.slot j x hj).congr rfl id ?_
      simp [howner, OwnerPc.visiting]
    · exact ⟨fun _ => rfl, rfl, by simp [freshSlot], by simp [freshSlot]⟩

/-- A walk takes the whole chain. -/
theorem Core.take {s : State} {H R : List Nat} {L : Nat → Nat} (h : Core s H R L)
    (howner : s.owner = .take) :
    Core { s with head := chainEnd, owner := .next s.head, walks := s.walks + 1 } [] H L := by
  have hR : R = [] := by
    have hrest := h.rest
    rw [howner] at hrest
    exact hrest.eq_nil
  subst hR
  refine h.keep rfl rfl h.head (fun j => ?_) (fun j x _ hx => ?_)
  · simp [howner, OwnerPc.entry]
  · refine ⟨hx.woken, hx.future, fun m hm => ?_, fun n hn => ?_⟩
    · have := (hx.past m hm).1
      exact ⟨by simp only; omega, fun he => by simp only at he; omega⟩
    · obtain ⟨h1, h2, h3⟩ := hx.links n hn
      refine ⟨by simp only; omega, fun he => by simp only at he; omega, fun _ => ?_⟩
      rcases Nat.lt_or_eq_of_le h1 with hlt | rfl
      · -- Linked before the previous walk, which is over.
        rcases h3 hlt with hp | hf | ⟨-, hv⟩
        · exact .inl hp
        · exact .inr (.inl hf)
        · simp [howner, OwnerPc.visiting] at hv
      -- Linked since: it is on the chain that the walk takes.
      · exact .inr (.inr ⟨rfl, by simpa [OwnerPc.visiting] using h2 rfl⟩)

/-- The walk reaches the next entry and reads its link. -/
theorem Core.enter {s : State} {H R : List Nat} {L : Nat → Nat} (h : Core s H R L) {cursor : Nat}
    (howner : s.owner = .next cursor) (hne : cursor ≠ chainEnd) :
    ∃ slot T, R = cursor :: T ∧ s.slots[cursor]? = some slot ∧
      Core { s with owner := .clear cursor slot.next } H T L := by
  have hrest : Chain (nextOf s) chainEnd cursor R := by
    have := h.rest
    rwa [howner] at this
  obtain ⟨n, T, rfl, hn, hT⟩ := hrest.eq_cons hne
  obtain ⟨slot, hslot⟩ := exists_of_nextOf (s := s) (i := cursor) (by rw [hn]; rfl)
  rw [nextOf, attr_of_some _ hslot, Option.some.injEq] at hn
  subst hn
  refine ⟨slot, T, rfl, hslot, h.keep rfl h.head hT (fun j => ?_) (fun j x _ hx => ?_)⟩
  · simp only [howner, OwnerPc.entry, List.count_nil, List.count_cons]
    omega
  · exact hx.congr rfl id (by simp [howner, OwnerPc.visiting])

/-- The walk clears the flag of the entry. -/
theorem Core.clear {s : State} {H R : List Nat} {L : Nat → Nat} (h : Core s H R L)
    {i following : Nat} {slot : Slot} (howner : s.owner = .clear i following)
    (hi : s.slots[i]? = some slot) :
    Core ({ s with owner := .poll i following }.modify i fun slot =>
      { slot with queued := false, wokenSinceClear := false }) H R L := by
  have hi' : { s with owner := .poll i following }.slots[i]? = some slot := hi
  have hok := h.slot i slot hi
  have hpi := h.place i slot hi
  have hq : slot.queued.toNat ≤ 1 := Bool.toNat_le slot.queued
  have hrest := h.rest
  rw [howner] at hrest
  have hvis : ∀ j, j ∈ (OwnerPc.poll i following).visiting ++ R ↔ j ∈ s.owner.visiting ++ R := by
    simp [howner, OwnerPc.visiting]
  refine h.replace hi (modify_slots hi' _) rfl ?_ ?_ ?_ (fun j hj => ?_) ?_ (fun j x hj hx => ?_)
  · rw [modify_head]
    exact h.head
  · rw [modify_owner]
    exact hrest
  · rw [modify_owner]
    simp only [howner, OwnerPc.entry, List.count_singleton_self, List.count_nil] at hpi ⊢
    show _ = 0
    omega
  · rw [modify_owner]
    simp [howner, OwnerPc.entry, Ne.symm hj]
  · refine ⟨fun hc => by simp at hc, hok.future, ?_, ?_⟩ <;> rw [modify_walks, modify_owner]
    · intro m hm
      rw [hvis]
      exact hok.past m hm
    · intro n hn
      rw [hvis]
      exact hok.links n hn
  · exact hx.congr (modify_walks ..) id (by rw [modify_owner]; exact hvis j)

/-- The walk calls the future of the entry. -/
theorem Core.poll {s : State} {H R : List Nat} {L : Nat → Nat} (h : Core s H R L)
    {i following : Nat} {slot : Slot} (howner : s.owner = .poll i following)
    (hi : s.slots[i]? = some slot) (hfuture : slot.future = true) :
    Core ({ s with owner := .polling i following }.modify i fun slot =>
      { slot with polls := slot.polls ++ [s.walks], wokenSincePoll := false }) H R L := by
  have hi' : { s with owner := .polling i following }.slots[i]? = some slot := hi
  have hok := h.slot i slot hi
  have hpi := h.place i slot hi
  have hnone := hok.finished_eq_none hfuture
  have hrest := h.rest
  rw [howner] at hrest
  refine h.replace hi (modify_slots hi' _) rfl ?_ ?_ ?_ (fun j hj => ?_) ?_ (fun j x hj hx => ?_)
  · rw [modify_head]
    exact h.head
  · rw [modify_owner]
    exact hrest
  · rw [modify_owner]
    simpa [howner, OwnerPc.entry] using hpi
  · rw [modify_owner]
    simp [howner, OwnerPc.entry]
  · refine ⟨hok.woken, hok.future, fun m hm => by simp [hnone] at hm, fun n hn => ?_⟩
    rw [modify_walks]
    obtain ⟨h1, h2, h3⟩ := hok.links n hn
    refine ⟨h1, h2, fun hlt => .inl ?_⟩
    rcases h3 hlt with hp | ⟨m, -, hm⟩ | ⟨he, -⟩
    · simp [hp]
    · simp [hnone] at hm
    · simp [he]
  · refine hx.congr (modify_walks ..) id ?_
    rw [modify_owner]
    simp [howner, OwnerPc.visiting, hj]

/-- The walk finds that the entry has finished. -/
theorem Core.skip {s : State} {H R : List Nat} {L : Nat → Nat} (h : Core s H R L)
    {i following : Nat} {slot : Slot} (howner : s.owner = .poll i following)
    (hi : s.slots[i]? = some slot) (hfuture : slot.future = false) :
    Core { s with owner := .next following } H R L := by
  have hrest := h.rest
  rw [howner] at hrest
  refine h.keep rfl h.head hrest (fun j => by simp [howner, OwnerPc.entry]) (fun j x hj hx => ?_)
  by_cases hji : j = i
  · subst hji
    rw [hi, Option.some.injEq] at hj
    subst hj
    -- It finished in an earlier walk, because this one had it ahead.
    obtain ⟨m, hm⟩ : ∃ m, slot.finished = some m := by
      have := hx.future
      rw [hfuture] at this
      exact Option.isSome_iff_exists.mp (by cases hf : slot.finished <;> simp [hf] at this ⊢)
    obtain ⟨hle, hne⟩ := hx.past m hm
    have hlt : m < s.walks := by
      rcases Nat.lt_or_eq_of_le hle with hlt | he
      · exact hlt
      · exact absurd (by simp [howner, OwnerPc.visiting]) (hne he)
    refine ⟨hx.woken, hx.future, fun m' hm' => ?_, fun n hn => ?_⟩
    · rw [hm, Option.some.injEq] at hm'
      subst hm'
      exact ⟨hle, fun he => absurd he (Nat.ne_of_lt hlt)⟩
    · obtain ⟨h1, h2, h3⟩ := hx.links n hn
      refine ⟨h1, h2, fun hn => ?_⟩
      rcases h3 hn with hp | hf | ⟨he, -⟩
      · exact .inl hp
      · exact .inr (.inl hf)
      · exact .inr (.inl ⟨m, by omega, hm⟩)
  · exact hx.congr rfl id (by simp [howner, OwnerPc.visiting, hji])

/-- The polled task finishes. -/
theorem Core.finish {s : State} {H R : List Nat} {L : Nat → Nat} (h : Core s H R L)
    {i following : Nat} {slot : Slot} (howner : s.owner = .polling i following)
    (hi : s.slots[i]? = some slot) (hfuture : slot.future = true) (hR : i ∉ R) :
    Core ({ s with left := s.left - 1, owner := .next following }.modify i fun slot =>
      { slot with future := false, finished := some s.walks }) H R L := by
  have hi' : { s with left := s.left - 1, owner := .next following }.slots[i]? = some slot := hi
  have hok := h.slot i slot hi
  have hpi := h.place i slot hi
  have hnone := hok.finished_eq_none hfuture
  have hrest := h.rest
  rw [howner] at hrest
  refine h.replace hi (modify_slots hi' _) rfl ?_ ?_ ?_ (fun j hj => ?_) ?_ (fun j x hj hx => ?_)
  · rw [modify_head]
    exact h.head
  · rw [modify_owner]
    exact hrest
  · rw [modify_owner]
    simpa [howner, OwnerPc.entry] using hpi
  · rw [modify_owner]
    simp [howner, OwnerPc.entry]
  · refine ⟨hok.woken, rfl, fun m hm => ?_, fun n hn => ?_⟩ <;> rw [modify_walks, modify_owner]
    · obtain rfl : s.walks = m := Option.some.inj hm
      exact ⟨Nat.le_refl _, fun _ => by simpa [OwnerPc.visiting] using hR⟩
    · obtain ⟨h1, h2, h3⟩ := hok.links n hn
      refine ⟨h1, h2, fun hlt => ?_⟩
      rcases h3 hlt with hp | ⟨m, -, hm⟩ | ⟨he, hv⟩
      · exact .inl hp
      · simp [hnone] at hm
      · exact .inr (.inr ⟨he, by simpa [howner, OwnerPc.visiting] using hv⟩)
  · refine hx.congr (modify_walks ..) id ?_
    rw [modify_owner]
    simp [howner, OwnerPc.visiting]

/-! ### The parties -/

/-- What is true of a party that queues the slot `index`. -/
structure LinkOk (s : State) (index : Nat) (pc : LinkPc) : Prop where
  exist : index < s.slots.length
  stored : ∀ head, pc = .exchange head → nextOf s index = some head

/-- What is true of the owner. -/
def OwnerOk (s : State) (R : List Nat) : OwnerPc → Prop
  | .push index pc => LinkOk s index pc ∧ pc.linking = true
  | .clear index _ => index < s.slots.length
  | .poll index _ => index < s.slots.length ∧ index ∉ R
  | .polling index _ => index ∉ R ∧ futureOf s index = some true
  | _ => True

/-- The invariant of the system. -/
structure Inv (s : State) (H R : List Nat) : Prop where
  bound : s.slots.length ≤ chainEnd
  core : Core s H R (linking s)
  linker : ∀ (k : Nat) l, s.linkers[k]? = some l → LinkOk s l.index l.pc
  owner : OwnerOk s R s.owner
  left : s.left = tally (fun slot => slot.future.toNat) s.slots
  ready : ∀ r, s.ready = some r → s.owner = .idle ∧ (r = true ↔ s.left = 0)
  shared : s.shared = false → s.slots = []

/-- The chain of an empty set is empty. -/
theorem inv_init (s : State) (h : system.init s) : Inv s [] [] := by
  obtain rfl : s = new := h
  exact
    { bound := by decide
      core := ⟨rfl, rfl, by simp [new], by simp [new]⟩
      linker := by simp [new]
      owner := trivial
      left := rfl
      ready := by simp [new]
      shared := fun _ => rfl }

/-! ### Linking -/

/-- What a step of the linking loop leaves alone. -/
structure SameParties (s s' : State) : Prop where
  owner : s'.owner = s.owner
  ready : s'.ready = s.ready
  shared : s'.shared = s.shared
  left : s'.left = s.left
  length : s'.slots.length = s.slots.length
  future : futureOf s' = futureOf s
  tally : tally (fun slot => slot.future.toNat) s'.slots =
    tally (fun slot => slot.future.toNat) s.slots

theorem SameParties.refl (s : State) : SameParties s s := ⟨rfl, rfl, rfl, rfl, rfl, rfl, rfl⟩

theorem sameParties_modify {s : State} {i : Nat} {f : Slot → Slot}
    (hf : ∀ slot, (f slot).future = slot.future) : SameParties s (s.modify i f) :=
  ⟨modify_owner .., modify_ready .., modify_shared .., modify_left .., modify_length ..,
    futureOf_modify_of_eq hf, tally_modify_of_eq hf⟩

/-- A link is a matter of the slot and of the head. -/
theorem sameParties_linkStep (s : State) (index : Nat) (spurious : Bool) (pc : LinkPc) :
    SameParties s (linkStep s index spurious pc).1 := by
  cases pc with
  | load => exact .refl s
  | store head => exact sameParties_modify fun _ => rfl
  | exchange head =>
    simp only [linkStep]
    split
    · have h := sameParties_modify (s := { s with head := index }) (i := index)
        (f := fun slot => { slot with links := slot.links ++ [s.walks] }) fun _ => rfl
      exact ⟨h.owner, h.ready, h.shared, h.left, h.length, h.future, h.tally⟩
    · exact .refl s
  | wakeParent => exact ⟨rfl, rfl, rfl, rfl, rfl, rfl, rfl⟩
  | done => exact .refl s

theorem linkStep_linkers (s : State) (index : Nat) (spurious : Bool) (pc : LinkPc) :
    (linkStep s index spurious pc).1.linkers = s.linkers := by
  cases pc <;> simp only [linkStep, modify_linkers]
  split <;> simp

/-- The loop ends with the exchange. -/
theorem linkStep_ends (s : State) (index : Nat) (spurious : Bool) {pc : LinkPc}
    (hpc : pc.linking = true) :
    (linkStep s index spurious pc).2.linking = true ∨
      (linkStep s index spurious pc).2 = .wakeParent := by
  cases pc with
  | load => exact .inl rfl
  | store head => exact .inl rfl
  | exchange head =>
    simp only [linkStep]
    split
    · exact .inr rfl
    · exact .inl rfl
  | wakeParent => simp [LinkPc.linking] at hpc
  | done => simp [LinkPc.linking] at hpc

/-- A step of the linking loop writes no link but that of its own slot. -/
theorem nextOf_linkStep (s : State) {index j : Nat} (spurious : Bool) (pc : LinkPc)
    (hj : j ≠ index) : nextOf (linkStep s index spurious pc).1 j = nextOf s j := by
  cases pc with
  | load => rfl
  | store head =>
    simp only [linkStep]
    cases hi : s.slots[index]? with
    | none => simp [State.modify, hi]
    | some slot => rw [nextOf_modify hi, Function.update_of_ne hj]
  | exchange head =>
    simp only [linkStep]
    split
    · exact congrFun (nextOf_modify_of_eq (s := { s with head := index })
        (f := fun slot => { slot with links := slot.links ++ [s.walks] }) fun _ => rfl) j
    · rfl
  | wakeParent => rfl
  | done => rfl

/-- One step of the linking loop. The slot stays with its party, or it goes to the front of the
chain. -/
theorem Core.linkStep {s : State} {H R : List Nat} {L L' : Nat → Nat} (h : Core s H R L)
    {index : Nat} (spurious : Bool) {pc : LinkPc} (hb : s.slots.length ≤ chainEnd)
    (hok : LinkOk s index pc) (hpc : pc.linking = true) (hone : 1 ≤ L index)
    (hL : ∀ j, L' j +
      (if j = index ∧ (linkStep s index spurious pc).2.linking = false then 1 else 0) = L j) :
    ∃ H', (H' = H ∨ H' = index :: H) ∧ Core (TaskSet.linkStep s index spurious pc).1 H' R L' ∧
      LinkOk (TaskSet.linkStep s index spurious pc).1 index
        (TaskSet.linkStep s index spurious pc).2 := by
  obtain ⟨slot, hi⟩ : ∃ slot, s.slots[index]? = some slot :=
    ⟨_, List.getElem?_eq_getElem hok.exist⟩
  -- As long as the party goes on, nothing changes hands.
  have hsame : (TaskSet.linkStep s index spurious pc).2.linking = true → L' = L := fun hl => by
    funext j
    simpa [hl] using hL j
  cases pc with
  | load =>
    rw [hsame rfl]
    exact ⟨H, .inl rfl, h, hok.exist, by simp [TaskSet.linkStep]⟩
  | store head =>
    rw [hsame rfl]
    refine ⟨H, .inl rfl, h.store hi hone head, by simpa [TaskSet.linkStep] using hok.exist, ?_⟩
    intro head' he
    obtain rfl : head = head' := by simpa [TaskSet.linkStep] using he
    simp [TaskSet.linkStep, nextOf_modify hi]
  | exchange head =>
    have hstored := hok.stored head rfl
    -- The exchange succeeds only when the head is still the one that the link was set to.
    by_cases hc : s.head = head ∧ spurious = false
    · simp only [TaskSet.linkStep, if_pos hc] at hL ⊢
      refine ⟨index :: H, .inr rfl, ?_, by simpa using hok.exist, by simp⟩
      have hlt := hok.exist
      refine h.exchange hi (by omega) (by rw [hstored, hc.1]) fun j => ?_
      simpa [LinkPc.linking] using hL j
    · have he : TaskSet.linkStep s index spurious (.exchange head) = (s, .store s.head) := by
        simp [TaskSet.linkStep, if_neg hc]
      rw [he] at hsame ⊢
      rw [hsame rfl]
      exact ⟨H, .inl rfl, h, hok.exist, by simp⟩
  | wakeParent => simp [LinkPc.linking] at hpc
  | done => simp [LinkPc.linking] at hpc

/-- No slot has two parties that are about to link it. -/
theorem Core.le_one {s : State} {H R : List Nat} {L : Nat → Nat} (h : Core s H R L) {i : Nat}
    (hi : i < s.slots.length) : L i ≤ 1 := by
  have hp := h.place i _ (List.getElem?_eq_getElem hi)
  have hq := Bool.toNat_le s.slots[i].queued
  omega

theorem LinkOk.frame {s s' : State} {index : Nat} {pc : LinkPc} (h : LinkOk s index pc)
    (hlen : s'.slots.length = s.slots.length)
    (hnext : pc.linking = true → nextOf s' index = nextOf s index) : LinkOk s' index pc where
  exist := hlen ▸ h.exist
  stored head he := by
    rw [hnext (by simp [he, LinkPc.linking])]
    exact h.stored head he

/-- The owner sees no difference, unless its push waits for a `next` that changed. -/
theorem OwnerOk.frame {s s' : State} {R : List Nat} {o : OwnerPc} (h : OwnerOk s R o)
    (hp : SameParties s s')
    (hnext : ∀ index pc, o = .push index pc → nextOf s' index = nextOf s index) :
    OwnerOk s' R o := by
  cases o with
  | push index pc => exact ⟨h.1.frame hp.length fun _ => hnext index pc rfl, h.2⟩
  | clear index following =>
    show index < s'.slots.length
    rw [hp.length]
    exact h
  | poll index following =>
    show index < s'.slots.length ∧ index ∉ R
    rw [hp.length]
    exact h
  | polling index following =>
    show index ∉ R ∧ futureOf s' index = some true
    rw [hp.future]
    exact h
  | _ => trivial

/-- The chain does not see the list of wakes and the parent. -/
theorem Core.parties {s : State} {H R : List Nat} {L : Nat → Nat} (h : Core s H R L)
    (linkers : List Linker) (parent : Option Waker) :
    Core { s with linkers := linkers, parent := parent } H R L :=
  h.keep rfl h.head h.rest (fun _ => rfl) fun _ _ _ hx => hx.congr rfl id Iff.rfl

/-- The parts of the invariant that a step of the linking loop leaves alone. -/
theorem Inv.sameParties {s s' : State} {H R H' : List Nat} (h : Inv s H R)
    (hp : SameParties s s') (hcore : Core s' H' R (linking s'))
    (hlinker : ∀ (k : Nat) l, s'.linkers[k]? = some l → LinkOk s' l.index l.pc)
    (howner : OwnerOk s' R s'.owner) : Inv s' H' R where
  bound := hp.length ▸ h.bound
  core := hcore
  linker := hlinker
  owner := howner
  left := hp.left.trans (h.left.trans hp.tally.symm)
  ready r hr := by
    rw [hp.left, hp.owner]
    exact h.ready r (hp.ready ▸ hr)
  shared hs := by
    have hlen := hp.length
    rw [h.shared (hp.shared ▸ hs)] at hlen
    exact List.eq_nil_of_length_eq_zero hlen

/-- A step of a wake that has won its slot. -/
theorem inv_link {s s₁ : State} {H R : List Nat} (h : Inv s H R) {k : Nat} {l : Linker}
    (hk : s.linkers[k]? = some l) (hpc : l.pc.linking = true) {spurious : Bool} {pc₁ : LinkPc}
    (hr : linkStep s l.index spurious l.pc = (s₁, pc₁)) :
    ∃ H', (H' = H ∨ H' = l.index :: H) ∧
      Inv { s₁ with linkers := s.linkers.set k { l with pc := pc₁ } } H' R := by
  have hok := h.linker k l hk
  have hp : SameParties s s₁ := by
    have := sameParties_linkStep s l.index spurious l.pc
    rwa [hr] at this
  have hnext : ∀ j, j ≠ l.index → nextOf s₁ j = nextOf s j := fun j hj => by
    have := nextOf_linkStep s spurious l.pc hj
    rwa [hr] at this
  have hle := h.core.le_one hok.exist
  have hown : l.linking l.index = 1 := by simp [Linker.linking, hpc]
  have hmem := le_tally (Linker.linking l.index) hk
  -- The party gives the slot up in the exchange that goes through, and in no other step.
  have hcount : ∀ j, linking { s₁ with linkers := s.linkers.set k { l with pc := pc₁ } } j +
      (if j = l.index ∧ pc₁.linking = false then 1 else 0) = linking s j := by
    intro j
    have hset := tally_set (Linker.linking j) hk { l with pc := pc₁ }
    simp only [linking, hp.owner]
    by_cases hj : j = l.index
    · subst hj
      cases hl : pc₁.linking <;> simp [Linker.linking, hpc, hl] at hset ⊢ <;> omega
    · simp [Linker.linking, hj, Ne.symm hj] at hset ⊢
      omega
  obtain ⟨H', hH, hcore, hok'⟩ := h.core.linkStep spurious h.bound hok hpc
    (by simp only [linking]; omega) (by rw [hr]; exact hcount)
  rw [hr] at hcore hok'
  refine ⟨H', hH, h.sameParties ⟨hp.owner, hp.ready, hp.shared, hp.left, hp.length, hp.future,
    hp.tally⟩ (hcore.parties _ _) (fun k' l' hk' => ?_) ?_⟩
  · rw [getElem?_set_of_some hk] at hk'
    split at hk'
    · cases hk'
      exact ⟨hok'.exist, hok'.stored⟩
    · -- Nobody else is about to link this slot, so nobody else's link is written.
      rename_i hne
      have hf : LinkOk s₁ l'.index l'.pc := by
        refine (h.linker k' l' hk').frame hp.length fun hl => hnext _ fun he => ?_
        have hadd := add_le_tally (Linker.linking l.index) hk hk' (Ne.symm hne)
        have hw : l'.linking l.index = 1 := by simp [Linker.linking, hl, he]
        simp only [linking] at hle
        omega
      exact ⟨hf.exist, hf.stored⟩
  · have ho : OwnerOk s₁ R s₁.owner := by
      rw [hp.owner]
      refine h.owner.frame hp fun index pc ho => hnext _ fun he => ?_
      have hlink : pc.linking = true := by
        have := h.owner
        rw [ho] at this
        exact this.2
      simp [linking, ho, OwnerPc.linking, hlink, he] at hle
      omega
    exact ho.frame ⟨rfl, rfl, rfl, rfl, rfl, rfl, rfl⟩ fun _ _ _ => rfl

/-- A wake that has linked its slot wakes the parent. -/
theorem inv_wakeParent {s : State} {H R : List Nat} (h : Inv s H R) {k : Nat} {l : Linker}
    (hk : s.linkers[k]? = some l) (hpc : l.pc = .wakeParent) :
    Inv { s with parent := none, linkers := s.linkers.set k { l with pc := .done } } H R := by
  have hcount : linking { s with
      parent := none
      linkers := s.linkers.set k { l with pc := .done } } = linking s := by
    funext j
    simp only [linking]
    rw [tally_set_of_eq _ hk (by simp [Linker.linking, LinkPc.linking, hpc])]
  refine h.sameParties ⟨rfl, rfl, rfl, rfl, rfl, rfl, rfl⟩ (hcount ▸ h.core.parties _ _)
    (fun k' l' hk' => ?_) (h.owner.frame ⟨rfl, rfl, rfl, rfl, rfl, rfl, rfl⟩ fun _ _ _ => rfl)
  rw [getElem?_set_of_some hk] at hk'
  split at hk'
  · cases hk'
    exact ⟨(h.linker k l hk).exist, by simp⟩
  · have hf := h.linker k' l' hk'
    exact ⟨hf.exist, hf.stored⟩

/-- The swap of a wake. It wins the slot, or it finds it queued. -/
theorem inv_wake {s : State} {H R : List Nat} (h : Inv s H R) {i : Nat} {slot : Slot}
    (hi : s.slots[i]? = some slot) {linkers : List Linker}
    (hlinkers : linkers = if slot.queued then s.linkers else s.linkers ++ [⟨i, .load⟩]) :
    Inv { s.modify i (fun slot =>
      { slot with queued := true, wokenSinceClear := true, wokenSincePoll := true }) with
        linkers := linkers } H R := by
  have hp : SameParties s (s.modify i fun slot =>
      { slot with queued := true, wokenSinceClear := true, wokenSincePoll := true }) :=
    sameParties_modify fun _ => rfl
  have hnext : nextOf (s.modify i fun slot =>
      { slot with queued := true, wokenSinceClear := true, wokenSincePoll := true }) = nextOf s :=
    nextOf_modify_of_eq fun _ => rfl
  -- A wake that finds the flag unset adds one party that links the slot.
  have hcount : ∀ j, linking { s.modify i (fun slot =>
      { slot with queued := true, wokenSinceClear := true, wokenSincePoll := true }) with
        linkers := linkers } j =
      linking s j + (if j = i ∧ slot.queued = false then 1 else 0) := by
    intro j
    simp only [linking, modify_owner, hlinkers]
    cases slot.queued with
    | true => simp
    | false =>
      by_cases hj : j = i
      · simp [tally_append, Linker.linking, LinkPc.linking, hj]
        omega
      · simp [tally_append, Linker.linking, LinkPc.linking, hj, Ne.symm hj]
  have hlt : i < s.slots.length := (List.getElem?_eq_some_iff.mp hi).1
  refine h.sameParties ⟨hp.owner, hp.ready, hp.shared, hp.left, hp.length, hp.future, hp.tally⟩
    ((h.core.wake hi hcount).parties _ _) (fun k l hk => ?_) ?_
  · have hf : LinkOk s l.index l.pc := by
      simp only [hlinkers] at hk
      split at hk
      · exact h.linker k l hk
      · rcases getElem?_append_singleton hk with hk | ⟨-, rfl⟩
        · exact h.linker k l hk
        · exact ⟨hlt, by simp⟩
    have hf' := hf.frame hp.length fun _ => congrFun hnext l.index
    exact ⟨hf'.exist, hf'.stored⟩
  · have ho : OwnerOk s R (s.modify i fun slot =>
        { slot with queued := true, wokenSinceClear := true, wokenSincePoll := true }).owner := by
      rw [hp.owner]
      exact h.owner
    exact ho.frame ⟨hp.owner, hp.ready, hp.shared, hp.left, hp.length, hp.future, hp.tally⟩
      fun index _ _ => congrFun hnext index

/-- A step of the owner that leaves the links and the wakes alone, and in which it is not
queueing a slot. -/
theorem Inv.walk {s s' : State} {H R H' R' : List Nat} (h : Inv s H R)
    (hlinkers : s'.linkers = s.linkers) (hlen : s'.slots.length = s.slots.length)
    (hnext : nextOf s' = nextOf s) (hcore : Core s' H' R' (linking s))
    (hlinking : ∀ i, s.owner.linking i = 0) (hlinking' : ∀ i, s'.owner.linking i = 0)
    (howner : OwnerOk s' R' s'.owner)
    (hleft : s'.left = tally (fun slot => slot.future.toNat) s'.slots)
    (hready : ∀ r, s'.ready = some r → s'.owner = .idle ∧ (r = true ↔ s'.left = 0))
    (hshared : s'.shared = s.shared) : Inv s' H' R' where
  bound := hlen ▸ h.bound
  core := by
    have : linking s' = linking s := by
      funext j
      simp only [linking, hlinkers, hlinking, hlinking']
    rw [this]
    exact hcore
  linker k l hk := by
    have hf := h.linker k l (hlinkers ▸ hk)
    exact hf.frame hlen fun _ => congrFun hnext l.index
  owner := howner
  left := hleft
  ready := hready
  shared hs := by
    rw [h.shared (hshared ▸ hs)] at hlen
    exact List.eq_nil_of_length_eq_zero hlen

/-- The owner is not ready while it is busy. -/
theorem Inv.not_ready {s : State} {H R : List Nat} (h : Inv s H R) (howner : s.owner ≠ .idle) :
    ∀ r, s.ready ≠ some r :=
  fun r hr => howner (h.ready r hr).1

/-- A step of the owner that links the slot it has pushed. -/
theorem inv_pushStep {s s₁ : State} {H R : List Nat} (h : Inv s H R) {index : Nat} {pc : LinkPc}
    (howner : s.owner = .push index pc) {spurious : Bool} {pc₁ : LinkPc}
    (hr : linkStep s index spurious pc = (s₁, pc₁)) {o : OwnerPc}
    (ho : o = if pc₁ = .wakeParent then .idle else .push index pc₁) :
    ∃ H', (H' = H ∨ H' = index :: H) ∧ Inv { s₁ with owner := o } H' R := by
  have hown : LinkOk s index pc ∧ pc.linking = true := by
    have := h.owner
    rwa [howner] at this
  have hp : SameParties s s₁ := by
    have := sameParties_linkStep s index spurious pc
    rwa [hr] at this
  have hlinkers : s₁.linkers = s.linkers := by
    have := linkStep_linkers s index spurious pc
    rwa [hr] at this
  -- The push goes on, or its slot is on the chain.
  have hends : pc₁.linking = true ∨ pc₁ = .wakeParent := by
    have := linkStep_ends s index spurious hown.2
    rwa [hr] at this
  have hlink : s.owner.linking index = 1 := by simp [howner, OwnerPc.linking, hown.2]
  have hle := h.core.le_one hown.1.exist
  have hcount : ∀ j, linking { s₁ with owner := o } j +
      (if j = index ∧ pc₁.linking = false then 1 else 0) = linking s j := by
    intro j
    simp only [linking, hlinkers, howner]
    rcases hends with hl | rfl
    · have hne : pc₁ ≠ .wakeParent := by
        rintro rfl
        simp [LinkPc.linking] at hl
      simp [ho, hne, OwnerPc.linking, hl, hown.2]
    · by_cases hj : j = index
      · have hlast : LinkPc.wakeParent.linking = false := rfl
        simp [ho, OwnerPc.linking, hlast, hown.2, hj]
      · simp [ho, OwnerPc.linking, hown.2, hj, Ne.symm hj]
  obtain ⟨H', hH, hcore, hok'⟩ := h.core.linkStep spurious h.bound hown.1 hown.2
    (by simp only [linking]; omega) (by rw [hr]; exact hcount)
  rw [hr] at hcore hok'
  have ho' : o.cursor = s₁.owner.cursor ∧ o.entry = s₁.owner.entry ∧
      o.visiting = s₁.owner.visiting := by
    rw [hp.owner, howner, ho]
    split <;> exact ⟨rfl, rfl, rfl⟩
  obtain ⟨hcursor, hentry, hvisiting⟩ := ho'
  refine ⟨H', hH, ?_⟩
  exact
    { bound := hp.length ▸ h.bound
      core := hcore.keep rfl hcore.head (by rw [hcursor]; exact hcore.rest)
        (fun j => by rw [hentry]) fun j x _ hx => hx.congr rfl id (by rw [hvisiting])
      linker := fun k l hk => by
        -- Nobody else is about to link this slot, so nobody else's link is written.
        have hf := (h.linker k l (hlinkers ▸ hk)).frame hp.length fun hl => by
          have hne : l.index ≠ index := fun he => by
            have hmem := le_tally (Linker.linking index) (hlinkers ▸ hk)
            have hw : l.linking index = 1 := by simp [Linker.linking, hl, he]
            simp only [linking] at hle
            omega
          have := nextOf_linkStep s spurious pc hne
          rwa [hr] at this
        exact ⟨hf.exist, hf.stored⟩
      owner := by
        rcases hends with hl | rfl
        · have hne : pc₁ ≠ .wakeParent := by
            rintro rfl
            simp [LinkPc.linking] at hl
          simp only [ho, if_neg hne]
          exact ⟨⟨hok'.exist, hok'.stored⟩, hl⟩
        · simp only [ho, if_pos]
          trivial
      left := hp.left.trans (h.left.trans hp.tally.symm)
      ready := fun r hrd => absurd (hp.ready ▸ hrd) (h.not_ready (by simp [howner]) r)
      shared := fun hs => by
        have hlen := hp.length
        rw [h.shared (hp.shared ▸ hs)] at hlen
        exact List.eq_nil_of_length_eq_zero hlen }

/-- `push` puts the slot into the vector. -/
theorem inv_push {s : State} {H R : List Nat} (h : Inv s H R) (howner : s.owner = .idle)
    (hb : s.slots.length + 1 ≤ chainEnd) :
    Inv { s with
      shared := true
      slots := s.slots ++ [freshSlot]
      left := s.left + 1
      owner := .push s.slots.length .load
      ready := none } H R := by
  -- Every party links a slot that exists.
  have hfresh : ∀ i, s.slots.length ≤ i → linking s i = 0 := by
    intro i hi
    have hz : tally (Linker.linking i) s.linkers = 0 := by
      refine tally_eq_zero fun l hl => ?_
      obtain ⟨k, hk⟩ := List.mem_iff_getElem?.mp hl
      have hlt := (h.linker k l hk).exist
      simp only [Linker.linking]
      exact if_neg fun hc => by omega
    simp [linking, howner, OwnerPc.linking, hz]
  exact
    { bound := by simpa using hb
      core := by
        refine h.core.push howner (fun j => ?_) (hfresh _ (Nat.le_refl _))
        by_cases hj : j = s.slots.length
        · simp [linking, howner, OwnerPc.linking, LinkPc.linking, hj]
        · simp [linking, howner, OwnerPc.linking, hj, Ne.symm hj]
      linker := fun k l hk => by
        have hf := h.linker k l hk
        refine ⟨by simpa using Nat.lt_succ_of_lt hf.exist, fun head he => ?_⟩
        have hlt := hf.exist
        show attr _ (s.slots ++ [freshSlot]) l.index = _
        rw [attr_append, Function.update_of_ne (Nat.ne_of_lt hlt)]
        exact hf.stored head he
      owner := ⟨⟨by simp, by simp⟩, rfl⟩
      left := by simp [h.left, tally_append, freshSlot]
      ready := by simp
      shared := by simp }

/-! ### The walk -/

/-- The chain does not see the owner move from one place outside a walk to another. -/
theorem Core.outside {s s' : State} {H R : List Nat} {L : Nat → Nat} (h : Core s H R L)
    (hs : s'.slots = s.slots) (hhead : s'.head = s.head) (hw : s'.walks = s.walks)
    (hc : s'.owner.cursor = s.owner.cursor) (he : s'.owner.entry = s.owner.entry)
    (hv : s'.owner.visiting = s.owner.visiting) : Core s' H R L :=
  h.keep hs (hhead ▸ h.head) (hc ▸ h.rest) (fun _ => by rw [he]) fun _ _ _ hx =>
    hx.congr hw id (by rw [hv])

/-- The owner goes on, and the chain does not change. -/
theorem Inv.turn {s : State} {H R : List Nat} (h : Inv s H R) {o : OwnerPc}
    {parent : Option Waker} {ready : Option Bool} (hcursor : o.cursor = s.owner.cursor)
    (hentry : o.entry = s.owner.entry) (hvisiting : o.visiting = s.owner.visiting)
    (hlinking : ∀ i, s.owner.linking i = 0) (hlinking' : ∀ i, o.linking i = 0)
    (hok : OwnerOk { s with parent, owner := o, ready } R o)
    (hready : ∀ r, ready = some r → o = .idle ∧ (r = true ↔ s.left = 0)) :
    Inv { s with parent, owner := o, ready } H R :=
  h.walk rfl rfl rfl (h.core.outside rfl rfl rfl hcursor hentry hvisiting) hlinking hlinking'
    hok h.left hready rfl

/-- The walk reaches the next entry. -/
theorem inv_enter {s : State} {H R : List Nat} (h : Inv s H R) {cursor : Nat} {slot : Slot}
    (howner : s.owner = .next cursor) (hne : cursor ≠ chainEnd)
    (hi : s.slots[cursor]? = some slot) :
    ∃ T, R = cursor :: T ∧ Inv { s with owner := .clear cursor slot.next } H T := by
  obtain ⟨slot', T, rfl, hi', hcore⟩ := h.core.enter howner hne
  rw [hi, Option.some.injEq] at hi'
  subst hi'
  have hlt : cursor < s.slots.length := (List.getElem?_eq_some_iff.mp hi).1
  exact ⟨T, rfl, h.walk rfl rfl rfl hcore (by simp [howner, OwnerPc.linking])
    (by simp [OwnerPc.linking]) hlt h.left
    (fun r hr => absurd hr (h.not_ready (by simp [howner]) r)) rfl⟩

/-- The walk clears the flag of its entry, which is then nowhere in the rest. -/
theorem inv_clear {s : State} {H R : List Nat} (h : Inv s H R) {i following : Nat}
    (howner : s.owner = .clear i following) :
    Inv ({ s with owner := .poll i following }.modify i fun slot =>
      { slot with queued := false, wokenSinceClear := false }) H R := by
  have hlt : i < s.slots.length := by
    have := h.owner
    rwa [howner] at this
  have hi : s.slots[i]? = some s.slots[i] := List.getElem?_eq_getElem hlt
  -- A slot is in one place, and the walk has this one in its hand.
  have hR : i ∉ R := by
    have hp := h.core.place i _ hi
    have hq := Bool.toNat_le s.slots[i].queued
    simp only [howner, OwnerPc.entry, List.count_singleton_self] at hp
    exact List.count_eq_zero.mp (by omega)
  have hp := sameParties_modify (s := { s with owner := .poll i following }) (i := i)
    (f := fun slot => { slot with queued := false, wokenSinceClear := false }) fun _ => rfl
  refine h.walk (modify_linkers ..) hp.length ?_ (h.core.clear howner hi)
    (by simp [howner, OwnerPc.linking]) (by rw [hp.owner]; simp [OwnerPc.linking]) ?_
    (hp.left.trans (h.left.trans hp.tally.symm)) (fun r hr => ?_) hp.shared
  · exact nextOf_modify_of_eq (s := { s with owner := .poll i following })
      (f := fun slot => { slot with queued := false, wokenSinceClear := false }) fun _ => rfl
  · rw [hp.owner]
    refine ⟨?_, hR⟩
    rw [hp.length]
    exact hlt
  · exact absurd (hp.ready ▸ hr) (h.not_ready (by simp [howner]) r)

/-- The walk calls the future of its entry, when it is still there. -/
theorem inv_poll {s : State} {H R : List Nat} (h : Inv s H R) {i following : Nat} {slot : Slot}
    (howner : s.owner = .poll i following) (hi : s.slots[i]? = some slot)
    (hfuture : slot.future = true) :
    Inv ({ s with owner := .polling i following }.modify i fun slot =>
      { slot with polls := slot.polls ++ [s.walks], wokenSincePoll := false }) H R := by
  have hR : i ∉ R := by
    have := h.owner
    rw [howner] at this
    exact this.2
  have hp := sameParties_modify (s := { s with owner := .polling i following }) (i := i)
    (f := fun slot => { slot with polls := slot.polls ++ [s.walks], wokenSincePoll := false })
    fun _ => rfl
  refine h.walk (modify_linkers ..) hp.length ?_ (h.core.poll howner hi hfuture)
    (by simp [howner, OwnerPc.linking]) (by rw [hp.owner]; simp [OwnerPc.linking]) ?_
    (hp.left.trans (h.left.trans hp.tally.symm)) (fun r hr => ?_) hp.shared
  · exact nextOf_modify_of_eq (s := { s with owner := .polling i following })
      (f := fun slot => { slot with polls := slot.polls ++ [s.walks], wokenSincePoll := false })
      fun _ => rfl
  · rw [hp.owner]
    refine ⟨hR, ?_⟩
    rw [hp.future]
    show attr _ s.slots i = some true
    rw [attr_of_some _ hi, hfuture]
  · exact absurd (hp.ready ▸ hr) (h.not_ready (by simp [howner]) r)

/-- The walk passes an entry that has finished. -/
theorem inv_skip {s : State} {H R : List Nat} (h : Inv s H R) {i following : Nat} {slot : Slot}
    (howner : s.owner = .poll i following) (hi : s.slots[i]? = some slot)
    (hfuture : slot.future = false) : Inv { s with owner := .next following } H R :=
  h.walk rfl rfl rfl (h.core.skip howner hi hfuture) (by simp [howner, OwnerPc.linking])
    (by simp [OwnerPc.linking]) trivial h.left
    (fun r hr => absurd hr (h.not_ready (by simp [howner]) r)) rfl

/-- The polled task finishes, and one future less is left. -/
theorem inv_finish {s : State} {H R : List Nat} (h : Inv s H R) {i following : Nat}
    (howner : s.owner = .polling i following) :
    Inv ({ s with left := s.left - 1, owner := .next following }.modify i fun slot =>
      { slot with future := false, finished := some s.walks }) H R := by
  obtain ⟨hR, hf⟩ : i ∉ R ∧ futureOf s i = some true := by
    have := h.owner
    rwa [howner] at this
  obtain ⟨slot, hi, hfuture⟩ : ∃ slot, s.slots[i]? = some slot ∧ slot.future = true := by
    cases hi : s.slots[i]? with
    | none => simp [futureOf, attr, hi] at hf
    | some slot => exact ⟨slot, rfl, by simpa [futureOf, attr, hi] using hf⟩
  have hi' : { s with left := s.left - 1, owner := .next following }.slots[i]? = some slot := hi
  refine h.walk (modify_linkers ..) (modify_length ..) ?_
    (h.core.finish howner hi hfuture hR) (by simp [howner, OwnerPc.linking])
    (by rw [modify_owner]; simp [OwnerPc.linking]) (by rw [modify_owner]; trivial) ?_
    (fun r hr => ?_) (modify_shared ..)
  · exact nextOf_modify_of_eq (s := { s with left := s.left - 1, owner := .next following })
      (f := fun slot => { slot with future := false, finished := some s.walks }) fun _ => rfl
  · rw [modify_left, modify_slots hi']
    have hset := tally_set (fun slot : Slot => slot.future.toNat) hi
      { slot with future := false, finished := some s.walks }
    have hle := h.left
    simp only [hfuture, Bool.toNat_true, Bool.toNat_false] at hset
    simp only
    omega
  · rw [modify_ready] at hr
    exact absurd hr (h.not_ready (by simp [howner]) r)

/-! ### Every step -/

/-- The step belongs to a wake. -/
def Action.ofWake : Action → Bool
  | .wake _ | .link _ _ => true
  | _ => false

/-- The owner's steps. -/
theorem inv_advance {s s' : State} {H R : List Nat} (h : Inv s H R) {spurious taskReady : Bool}
    (hs : advance s spurious taskReady = some s') : ∃ H' R', Inv s' H' R' := by
  unfold advance at hs
  cases howner : s.owner with
  | idle => simp [howner] at hs
  | panicked => simp [howner] at hs
  | push index pc =>
    simp only [howner] at hs
    cases hr : linkStep s index spurious pc with
    | mk s₁ pc₁ =>
      have hinv := inv_pushStep h howner hr rfl
      rw [hr] at hs
      cases pc₁ <;> cases hs <;> exact ⟨_, R, hinv.choose_spec.2⟩
  | register waker =>
    simp only [howner, Option.some.injEq] at hs
    subst hs
    exact ⟨H, R, h.turn (by rw [howner]; rfl) (by rw [howner]; rfl) (by rw [howner]; rfl)
      (by simp [howner, OwnerPc.linking]) (by simp [OwnerPc.linking]) trivial
      fun r hr => absurd hr (h.not_ready (by simp [howner]) r)⟩
  | take =>
    simp only [howner, Option.some.injEq] at hs
    subst hs
    -- The chain passes to the walk as a whole, and an empty one is left.
    exact ⟨[], H, h.walk rfl rfl rfl (h.core.take howner) (by simp [howner, OwnerPc.linking])
      (by simp [OwnerPc.linking]) trivial h.left
      (fun r hr => absurd hr (h.not_ready (by simp [howner]) r)) rfl⟩
  | next cursor =>
    simp only [howner] at hs
    split at hs
    · -- The end of the walk.
      rename_i hend
      cases hs
      refine ⟨H, R, h.turn ?_ (by rw [howner]; rfl) (by rw [howner]; rfl)
        (by simp [howner, OwnerPc.linking]) (by simp [OwnerPc.linking]) trivial
        fun r hr => ⟨rfl, ?_⟩⟩
      · rw [howner, hend]
        rfl
      · obtain rfl : (s.left == 0) = r := Option.some.inj hr
        simp
    · rename_i hne
      obtain ⟨slot, T, -, hi, -⟩ := h.core.enter howner hne
      rw [hi] at hs
      cases hs
      obtain ⟨T, -, hinv⟩ := inv_enter h howner hne hi
      exact ⟨H, T, hinv⟩
  | clear index following =>
    simp only [howner, Option.some.injEq] at hs
    subst hs
    exact ⟨H, R, inv_clear h howner⟩
  | poll index following =>
    simp only [howner] at hs
    split at hs
    · cases hs
    · rename_i slot hi
      split at hs
      · rename_i hf
        cases hs
        exact ⟨H, R, inv_poll h howner hi hf⟩
      · rename_i hf
        cases hs
        exact ⟨H, R, inv_skip h howner hi (by simpa using hf)⟩
  | polling index following =>
    simp only [howner] at hs
    split at hs
    · cases hs
      exact ⟨H, R, inv_finish h howner⟩
    · -- The task is pending, and the walk goes on.
      cases hs
      exact ⟨H, R, h.turn (by rw [howner]; rfl) (by rw [howner]; rfl) (by rw [howner]; rfl)
        (by simp [howner, OwnerPc.linking]) (by simp [OwnerPc.linking]) trivial
        fun r hr => absurd hr (h.not_ready (by simp [howner]) r)⟩

/-- Every step keeps the invariant, and a step of a wake leaves what is linked where it is. -/
theorem step_inv {s s' : State} {H R : List Nat} {act : Action} (h : Inv s H R)
    (hs : step s act = some s') (hb : s'.slots.length ≤ chainEnd) :
    ∃ H' R', Inv s' H' R' ∧
      (act.ofWake = true → R' = R ∧ s'.owner = s.owner ∧ (H' = H ∨ ∃ i, H' = i :: H)) := by
  cases act with
  | push =>
    simp only [step] at hs
    split at hs
    · rename_i howner
      split at hs
      · cases hs
        exact ⟨H, R, inv_push h howner (by simpa using hb), by simp [Action.ofWake]⟩
      · -- The set would have to be full already.
        rename_i hbig
        have hbound := h.bound
        simp only [chainEnd] at hbound
        omega
    · cases hs
  | poll waker =>
    simp only [step] at hs
    split at hs
    · rename_i howner
      split at hs
      · cases hs
        exact ⟨H, R, h.turn (by rw [howner]; rfl) (by rw [howner]; rfl) (by rw [howner]; rfl)
          (by simp [howner, OwnerPc.linking]) (by simp [OwnerPc.linking]) trivial (by simp),
          by simp [Action.ofWake]⟩
      · rename_i hsh
        cases hs
        refine ⟨H, R, h.turn rfl rfl rfl (by simp [howner, OwnerPc.linking])
          (by simp [howner, OwnerPc.linking]) (by simp only [howner]; trivial)
          fun r hr => ⟨howner, ?_⟩, by simp [Action.ofWake]⟩
        -- There never was a task.
        obtain rfl : true = r := Option.some.inj hr
        have hleft := h.left
        rw [h.shared (by simpa using hsh)] at hleft
        simpa using hleft
    · cases hs
  | advance spurious taskReady =>
    obtain ⟨H', R', hinv⟩ := inv_advance h hs
    exact ⟨H', R', hinv, by simp [Action.ofWake]⟩
  | wake i =>
    simp only [step] at hs
    split at hs
    · cases hs
    · rename_i slot hi
      have hinv := inv_wake h hi rfl
      -- Only the wake that set the flag goes on to link the slot.
      split at hs <;> cases hs <;> rename_i hq
      · rw [if_pos hq, modify_with_linkers] at hinv
        exact ⟨H, R, hinv, fun _ => ⟨rfl, modify_owner .., .inl rfl⟩⟩
      · rw [if_neg hq] at hinv
        simp only [modify_linkers]
        exact ⟨H, R, hinv, fun _ => ⟨rfl, modify_owner .., .inl rfl⟩⟩
  | link k spurious =>
    simp only [step] at hs
    split at hs
    · cases hs
    · rename_i l hk
      split at hs
      · cases hs
      · rename_i hdone
        cases hs
        by_cases hpc : l.pc.linking = true
        · cases hr : linkStep s l.index spurious l.pc with
          | mk s₁ pc₁ =>
            obtain ⟨H', hH, hinv⟩ := inv_link h hk hpc hr
            have howner := (sameParties_linkStep s l.index spurious l.pc).owner
            have hlinkers := linkStep_linkers s l.index spurious l.pc
            rw [hr] at howner hlinkers
            simp only at howner hlinkers
            simp only [hlinkers]
            exact ⟨H', R, hinv, fun _ => ⟨rfl, howner, hH.imp_right fun he => ⟨_, he⟩⟩⟩
        · -- The slot is linked, and the parent is woken.
          have hlast : l.pc = .wakeParent := by
            cases hl : l.pc <;> simp [hl, LinkPc.linking] at hpc hdone ⊢
          have hinv := inv_wakeParent h hk hlast
          rw [hlast]
          exact ⟨H, R, hinv, fun _ => ⟨rfl, rfl, .inl rfl⟩⟩

/-- A wake adds no slot. -/
theorem length_of_wake {s s' : State} {act : Action} (hact : act.ofWake = true)
    (hs : step s act = some s') : s'.slots.length = s.slots.length := by
  cases act with
  | wake i =>
    simp only [step] at hs
    split at hs
    · cases hs
    · split at hs <;> cases hs <;> exact modify_length ..
  | link k spurious =>
    simp only [step] at hs
    split at hs
    · cases hs
    · split at hs
      · cases hs
      · cases hs
        exact (sameParties_linkStep ..).length
  | push => simp [Action.ofWake] at hact
  | poll waker => simp [Action.ofWake] at hact
  | advance spurious taskReady => simp [Action.ofWake] at hact

/-- Fewer than `u32::MAX` futures have been pushed. -/
def Few (_ : State) (_ : Action) (s' : State) : Prop := s'.slots.length < chainEnd

instance (s : State) (act : Action) (s' : State) : Decidable (Few s act s') :=
  inferInstanceAs (Decidable (s'.slots.length < chainEnd))

/-- The invariant holds in every state of a run with few pushes. -/
theorem inv_of_reach {s : State} (h : system.Reach Few s) : ∃ H R, Inv s H R := by
  refine h.invariant (P := fun s => ∃ H R, Inv s H R)
    (fun s hs => ⟨[], [], inv_init s hs⟩) ?_
  rintro s act s' ⟨H, R, hinv⟩ hs hb
  obtain ⟨H', R', hinv', -⟩ := step_inv hinv hs (Nat.le_of_lt hb)
  exact ⟨H', R', hinv'⟩

/-- The owner is in the middle of a walk. -/
def OwnerPc.walking : OwnerPc → Bool
  | .next _ | .clear _ _ | .poll _ _ | .polling _ _ => true
  | _ => false

/-- How many walks have ended. -/
def walksEnded (s : State) : Nat := if s.owner.walking then s.walks - 1 else s.walks

/-- Outside a walk nothing is ahead of it. -/
theorem Core.rest_eq_nil {s : State} {H R : List Nat} {L : Nat → Nat} (h : Core s H R L)
    (hw : s.owner.walking = false) : s.owner.visiting ++ R = [] := by
  have hrest := h.rest
  cases ho : s.owner <;> rw [ho] at hrest hw <;>
    first | exact hrest.eq_nil | simp [OwnerPc.walking] at hw

/-- Every link is followed by a poll in the first walk that starts after it, when that walk has
ended and the task had not finished before it started. -/
theorem Core.polled_after_link {s : State} {H R : List Nat} {L : Nat → Nat} (h : Core s H R L)
    {i n : Nat} {slot : Slot} (hi : s.slots[i]? = some slot) (hn : n ∈ slot.links)
    (hended : n < walksEnded s) : n + 1 ∈ slot.polls ∨ ∃ m ≤ n, slot.finished = some m := by
  obtain ⟨-, -, hlater⟩ := (h.slot i slot hi).links n hn
  unfold walksEnded at hended
  split at hended
  · rcases hlater (by omega) with hp | hf | ⟨he, -⟩
    · exact .inl hp
    · exact .inr hf
    · omega
  · rename_i hw
    rcases hlater hended with hp | hf | ⟨-, hv⟩
    · exact .inl hp
    · exact .inr hf
    · rw [h.rest_eq_nil (by simpa using hw)] at hv
      cases hv

theorem Inv.lt_of_entry {s : State} {H R : List Nat} (h : Inv s H R) {i : Nat}
    (hi : i ∈ s.owner.entry) : i < s.slots.length := by
  have hown := h.owner
  cases ho : s.owner <;> rw [ho] at hi hown <;> simp [OwnerPc.entry] at hi
  rw [hi]
  exact hown

/-- The entry whose flag the walk is about to clear was pushed or woken since the flag was last
cleared. -/
theorem Inv.woken_of_clear {s : State} {H R : List Nat} (h : Inv s H R) {i following : Nat}
    (howner : s.owner = .clear i following) :
    ∃ slot, s.slots[i]? = some slot ∧ slot.wokenSinceClear = true := by
  have hlt : i < s.slots.length := by
    have := h.owner
    rwa [howner] at this
  have hi : s.slots[i]? = some s.slots[i] := List.getElem?_eq_getElem hlt
  refine ⟨_, hi, (h.core.slot i _ hi).woken ?_⟩
  have hp := h.core.place i _ hi
  simp only [howner, OwnerPc.entry, List.count_singleton_self] at hp
  cases hq : s.slots[i].queued with
  | true => rfl
  | false =>
    rw [hq, Bool.toNat_false] at hp
    omega

/-- The ready chain loses no wake and invents none. In every state of a run with fewer than
`u32::MAX` pushes there are lists `H` and `R`, the slots linked from `head` and the rest of the
taken chain, such that:

* a slot is in one place when it is queued and in none when it is not: in `H`, in the rest of
  the taken chain, or with one party that has won it and not linked it yet;
* a step of a wake, of a finished task or another, leaves both lists as they are, or puts one
  slot in front of `H`;
* every link is followed by a poll in the first walk that starts after it, unless the task had
  finished by then;
* the walk takes an entry off the chain to poll it only when it was pushed or woken since it was
  taken off before;
* `left` is the number of unfinished futures, and a poll returns `Ready` iff that is zero. -/
theorem ready_chain {s : State} (h : system.Reach Few s) :
    ∃ H R, Chain (nextOf s) chainEnd s.head H ∧ Chain (nextOf s) chainEnd s.owner.cursor R ∧
      (∀ i ∈ H ++ (s.owner.entry ++ R), i < s.slots.length) ∧
      (∀ (i : Nat) slot, s.slots[i]? = some slot →
        H.count i + (s.owner.entry ++ R).count i + linking s i = slot.queued.toNat) ∧
      (∀ act s', act.ofWake = true → step s act = some s' → s'.owner = s.owner ∧
        Chain (nextOf s') chainEnd s'.owner.cursor R ∧
        ∃ H', Chain (nextOf s') chainEnd s'.head H' ∧ (H' = H ∨ ∃ i, H' = i :: H)) ∧
      (∀ (i : Nat) slot, s.slots[i]? = some slot → ∀ n ∈ slot.links, n < walksEnded s →
        n + 1 ∈ slot.polls ∨ ∃ m ≤ n, slot.finished = some m) ∧
      (∀ i following, s.owner = .clear i following →
        ∃ slot, s.slots[i]? = some slot ∧ slot.wokenSinceClear = true) ∧
      s.left = s.slots.countP (fun slot => slot.future) ∧
      (∀ r, s.ready = some r →
        (r = true ↔ s.slots.countP (fun slot => slot.future) = 0)) := by
  obtain ⟨H, R, hinv⟩ := inv_of_reach h
  have hleft : s.left = s.slots.countP (fun slot => slot.future) := by
    rw [hinv.left, tally_toNat]
  refine ⟨H, R, hinv.core.head, hinv.core.rest, fun i hi => ?_, fun i slot hi => ?_,
    fun act s' hact hs => ?_, fun i slot hi n hn hended => hinv.core.polled_after_link hi hn hended,
    fun i following ho => hinv.woken_of_clear ho, hleft, fun r hr => ?_⟩
  · rcases List.mem_append.mp hi with hi | hi
    · exact hinv.core.lt_of_mem (by simp [hi])
    · rcases List.mem_append.mp hi with hi | hi
      · exact hinv.lt_of_entry hi
      · exact hinv.core.lt_of_mem (by simp [hi])
  · rw [List.count_append, ← hinv.core.place i slot hi]
    omega
  · obtain ⟨H', R', hinv', hkeep⟩ := step_inv hinv hs
      (by rw [length_of_wake hact hs]; exact hinv.bound)
    obtain ⟨rfl, howner, hH⟩ := hkeep hact
    exact ⟨howner, hinv'.core.rest, H', hinv'.core.head, hH⟩
  · rw [← hleft]
    exact (hinv.ready r hr).2

/-- Two tasks are pushed and polled. The second wakes the first from inside its poll, and
neither finishes. -/
theorem ready_chain_two_tasks :
    ∃ s, system.Reach Few s ∧ s.ready = some false ∧
      s.slots.countP (fun slot => slot.future) ≠ 0 := by
  obtain ⟨s, hr, hp⟩ := Lts.Reach.exists_of_runWhere (M := system) (s := new) Few
    [.push, .advance false false, .advance false false, .advance false false,
      -- The second push loses its first exchange.
      .push, .advance false false, .advance false false, .advance true false,
      .advance false false, .advance false false,
      -- The walk takes the chain `1, 0`, and polls the second task.
      .poll 7, .advance false false, .advance false false, .advance false false,
      .advance false false, .advance false false,
      .wake 0,
      .advance false false, .advance false false, .advance false false, .advance false false,
      .advance false false, .advance false false]
    (fun s => s.ready = some false) rfl (by decide)
  obtain ⟨H, R, -, -, -, -, -, -, -, -, hready⟩ := ready_chain hr
  have hr' : s.ready = some false := by simpa using hp
  refine ⟨s, hr, hr', fun hzero => ?_⟩
  have := (hready false hr').mpr hzero
  simp at this

/-- Two runs at the edges of a poll of the only task. In the first a wake comes between the
clearing of the flag and the call of the future: the next walk polls the task again, though it
was not woken since that call. In the second the task is woken and linked while it is polled,
before it finishes: the first walk that starts after the link ends without a poll of it. -/
theorem wake_around_poll :
    (∃ s, system.Reachable s ∧ s.owner = .poll 0 chainEnd ∧
      ∃ slot ∈ s.slots[0]?, slot.future = true ∧ slot.polls ≠ [] ∧
        slot.wokenSincePoll = false) ∧
    (∃ s, system.Reachable s ∧
      (∃ slot ∈ s.slots[0]?, slot.future = true ∧ s.walks ∈ slot.links) ∧
      ∃ as s', system.run s as = some s' ∧ walksEnded s' = s.walks + 1 ∧
        ∃ slot ∈ s'.slots[0]?, s.walks + 1 ∉ slot.polls) := by
  constructor
  · obtain ⟨s, hr, hp⟩ := Lts.Reachable.exists_of_run (M := system) (s := new)
      [.push, .advance false false, .advance false false, .advance false false,
        .poll 7, .advance false false, .advance false false, .advance false false,
        .advance false false,
        -- The flag is clear, and the future is not called yet.
        .wake 0, .link 0 false, .link 0 false, .link 0 false, .link 0 false,
        .advance false false, .advance false false, .advance false false,
        .poll 7, .advance false false, .advance false false, .advance false false,
        .advance false false]
      (fun s => s.owner = .poll 0 chainEnd ∧
        ∃ slot ∈ s.slots[0]?, slot.future = true ∧ slot.polls ≠ [] ∧
          slot.wokenSincePoll = false) rfl (by decide)
    exact ⟨s, hr, of_decide_eq_true hp⟩
  · obtain ⟨s, hr, hp⟩ := Lts.Reachable.exists_of_run (M := system) (s := new)
      [.push, .advance false false, .advance false false, .advance false false,
        .poll 7, .advance false false, .advance false false, .advance false false,
        .advance false false, .advance false false,
        -- The task is being polled.
        .wake 0, .link 0 false, .link 0 false, .link 0 false]
      (fun s => (∃ slot ∈ s.slots[0]?, slot.future = true ∧ s.walks ∈ slot.links) ∧
        ∃ s' ∈ system.run s [.advance false true, .advance false false,
          .poll 7, .advance false false, .advance false false, .advance false false,
          .advance false false, .advance false false, .advance false false],
          walksEnded s' = s.walks + 1 ∧ ∃ slot ∈ s'.slots[0]?, s.walks + 1 ∉ slot.polls)
      rfl (by decide)
    obtain ⟨hlink, s', hs', hend⟩ := of_decide_eq_true hp
    exact ⟨s, hr, hlink, _, s', hs', hend⟩

end TaskSet

end Nagoya.Reactor
