import Nagoya.Lib.Heap

/-!
# `Nagoya.Time.TimerHeap`: the indexed heap of pending timers

`TimerHeap` is a binary heap of entries in a vector. Each entry belongs to a slot, and the slot
carries the entry's place in the vector, so that a timer can be cancelled by its slot. Every move
of an entry stores the new place. Here `index` is that field of every slot, and `none` is
`NOT_QUEUED`.

A place outside the vector makes the code panic. `remove` has no result then. The sifts never
leave the vector, and their branch for it is not reached.

The loops carry a count of the iterations left. A sift up takes at most as many as the place it
starts at, and a sift down at most as many as there are entries.

The operations are also here with every check of the vector, and with the end of the iterations as
a failure. Those versions have no result where the code would panic or go on.
-/

set_option autoImplicit false

namespace Nagoya.Time

open Nagoya.Lib

/-- A pending timer. `seq` is the order of registration. -/
structure Entry where
  deadline : Nat
  seq : Nat
  slot : Nat
  deriving DecidableEq, Repr

/-- `Ord for Entry`. It is reversed: the greatest entry is the one that fires first. -/
def Entry.cmp (self other : Entry) : Ordering :=
  (compare other.deadline self.deadline).then (compare other.seq self.seq)

/-- `self > other` -/
def Entry.gt (self other : Entry) : Bool := self.cmp other == .gt

/-- The heap and the `index` of every slot. -/
structure TimerHeap where
  entries : List Entry
  index : Nat → Option Nat

namespace TimerHeap

/-- `TimerHeap::default` -/
def empty : TimerHeap := { entries := [], index := fun _ => none }

def peek (h : TimerHeap) : Option Entry := h.entries[0]?

/-- `self.entries[a].slot.index.store(a)` -/
def storeIndex (h : TimerHeap) (a : Nat) : TimerHeap :=
  match h.entries[a]? with
  | some entry => { h with index := Function.update h.index entry.slot (some a) }
  | none => h

def swap (h : TimerHeap) (a b : Nat) : TimerHeap :=
  ({ h with entries := swapAt h.entries a b }.storeIndex a).storeIndex b

/-- The loop of `sift_up`. -/
def siftUpLoop : Nat → TimerHeap → Nat → TimerHeap
  | 0, h, _ => h
  | fuel + 1, h, index =>
    if 0 < index then
      match h.entries[index]?, h.entries[(index - 1) / 2]? with
      | some entry, some parent =>
        -- `self.entries[index] <= self.entries[parent]`
        if entry.gt parent = false then h
        else siftUpLoop fuel (h.swap index ((index - 1) / 2)) ((index - 1) / 2)
      | _, _ => h
    else h

def siftUp (h : TimerHeap) (index : Nat) : TimerHeap := siftUpLoop index h index

/-- The child that `sift_down` compares with: the one that fires first. -/
def child (h : TimerHeap) (index : Nat) : Nat :=
  match h.entries[2 * index + 1]?, h.entries[2 * index + 2]? with
  | some left, some right => if right.gt left then 2 * index + 2 else 2 * index + 1
  | _, _ => 2 * index + 1

/-- The loop of `sift_down`. -/
def siftDownLoop : Nat → TimerHeap → Nat → TimerHeap
  | 0, h, _ => h
  | fuel + 1, h, index =>
    if index < h.entries.length / 2 then
      match h.entries[index]?, h.entries[h.child index]? with
      | some entry, some child =>
        -- `self.entries[index] >= self.entries[child]`
        if child.gt entry = false then h
        else siftDownLoop fuel (h.swap index (h.child index)) (h.child index)
      | _, _ => h
    else h

def siftDown (h : TimerHeap) (index : Nat) : TimerHeap := siftDownLoop h.entries.length h index

def push (h : TimerHeap) (entry : Entry) : TimerHeap :=
  ({ h with entries := h.entries ++ [entry] }.storeIndex h.entries.length).siftUp h.entries.length

/-- The place `index` has a new entry, which is moved to where it belongs. -/
def resift (h : TimerHeap) (index : Nat) : TimerHeap :=
  match h.entries[index]?, h.entries[(index - 1) / 2]? with
  | some entry, some parent =>
    if 0 < index ∧ entry.gt parent then h.siftUp index else h.siftDown index
  | _, _ => h

def remove (h : TimerHeap) (index : Nat) : Option (TimerHeap × Entry) :=
  match h.entries[index]? with
  | none => none
  | some entry =>
    let h' : TimerHeap :=
      { entries := swapRemove h.entries index
        index := Function.update h.index entry.slot none }
    if index < h'.entries.length then some ((h'.storeIndex index).resift index, entry)
    else some (h', entry)

def pop (h : TimerHeap) : Option (TimerHeap × Entry) :=
  if h.entries = [] then none else h.remove 0

/-! ### With the checks of the vector -/

/-- `Vec::swap`, and the stores that go with it. -/
def swapChecked (h : TimerHeap) (a b : Nat) : Option TimerHeap :=
  if a < h.entries.length ∧ b < h.entries.length then some (h.swap a b) else none

/-- The loop of `sift_up`. -/
def siftUpChecked : Nat → TimerHeap → Nat → Option TimerHeap
  | 0, _, _ => none
  | fuel + 1, h, index =>
    if 0 < index then
      match h.entries[index]?, h.entries[(index - 1) / 2]? with
      | some entry, some parent =>
        if entry.gt parent = false then some h
        else
          (h.swapChecked index ((index - 1) / 2)).bind fun h =>
            siftUpChecked fuel h ((index - 1) / 2)
      | _, _ => none
    else some h

/-- The loop of `sift_down`. -/
def siftDownChecked : Nat → TimerHeap → Nat → Option TimerHeap
  | 0, _, _ => none
  | fuel + 1, h, index =>
    if index < h.entries.length / 2 then
      match h.entries[index]?, h.entries[h.child index]? with
      | some entry, some child =>
        if child.gt entry = false then some h
        else
          (h.swapChecked index (h.child index)).bind fun h' =>
            siftDownChecked fuel h' (h.child index)
      | _, _ => none
    else some h

def pushChecked (h : TimerHeap) (entry : Entry) : Option TimerHeap :=
  siftUpChecked (h.entries.length + 1)
    ({ h with entries := h.entries ++ [entry] }.storeIndex h.entries.length) h.entries.length

def resiftChecked (h : TimerHeap) (index : Nat) : Option TimerHeap :=
  match h.entries[index]?, h.entries[(index - 1) / 2]? with
  | some entry, some parent =>
    if 0 < index ∧ entry.gt parent then siftUpChecked (h.entries.length + 1) h index
    else siftDownChecked (h.entries.length + 1) h index
  | _, _ => none

def removeChecked (h : TimerHeap) (index : Nat) : Option (TimerHeap × Entry) :=
  match h.entries[index]? with
  | none => none
  | some entry =>
    let h' : TimerHeap :=
      { entries := swapRemove h.entries index
        index := Function.update h.index entry.slot none }
    if index < h'.entries.length then
      ((h'.storeIndex index).resiftChecked index).map fun h => (h, entry)
    else some (h', entry)

/-- `pop`: the heap after it and what it returns. -/
def popChecked (h : TimerHeap) : Option (TimerHeap × Option Entry) :=
  if h.entries = [] then some (h, none)
  else (h.removeChecked 0).map fun (h, entry) => (h, some entry)

end TimerHeap

end Nagoya.Time
