import Mathlib.Algebra.Order.Ring.Nat
import Mathlib.Data.List.Basic

/-!
# `Nagoya.Lib.Heap`: binary heaps in a list

A binary heap keeps its entries in a list, and the parent of the entry at `i` is at
`(i - 1) / 2`. `HeapOrdered` says that no parent is after its child by `key`.

A sift moves one entry along a path by swaps. While it is on the way one entry may be out of
place. `UpOrdered k` allows the entry at `k` to be before its parent, and `DownOrdered k` allows
it to be after its children. `UpOrdered.swap` and `DownOrdered.swap` are one step of a sift, and
`UpOrdered.finish` and `DownOrdered.finish` are its end. The loops themselves belong to the
program that uses them.
-/

set_option autoImplicit false

namespace Nagoya.Lib

variable {α : Type}

/-! ### Moving entries -/

/-- The entries at `i` and `j` change places. -/
def swapAt (l : List α) (i j : Nat) : List α :=
  match l[i]?, l[j]? with
  | some a, some b => (l.set i b).set j a
  | _, _ => l

/-- The entry at `i` is removed and the last entry takes its place. -/
def swapRemove (l : List α) (i : Nat) : List α :=
  match l.getLast? with
  | some a => (l.set i a).dropLast
  | none => l

theorem swapAt_of_some {l : List α} {i j : Nat} {a b : α} (hi : l[i]? = some a)
    (hj : l[j]? = some b) : swapAt l i j = (l.set i b).set j a := by
  simp [swapAt, hi, hj]

@[simp] theorem length_swapAt (l : List α) (i j : Nat) : (swapAt l i j).length = l.length := by
  unfold swapAt
  split <;> simp

/-- The entries after a swap. -/
theorem getElem?_swapAt {l : List α} {i j : Nat} {a b : α} (hi : l[i]? = some a)
    (hj : l[j]? = some b) (k : Nat) :
    (swapAt l i j)[k]? = if k = j then some a else if k = i then some b else l[k]? := by
  have hli := (List.getElem?_eq_some_iff.mp hi).1
  have hlj := (List.getElem?_eq_some_iff.mp hj).1
  rw [swapAt_of_some hi hj, List.getElem?_set, List.getElem?_set]
  by_cases hkj : k = j
  · subst hkj
    simp [hlj]
  · by_cases hki : k = i
    · subst hki
      simp [hkj, Ne.symm hkj, hli]
    · simp [hkj, hki, Ne.symm hkj, Ne.symm hki]

/-- Replacing an entry, as a statement about the entries. -/
theorem cons_set_perm {l : List α} {i : Nat} {a : α} (hi : l[i]? = some a) (b : α) :
    (a :: l.set i b).Perm (b :: l) := by
  induction l generalizing i with
  | nil => simp at hi
  | cons x l ih =>
    cases i with
    | zero =>
      obtain rfl : x = a := by simpa using hi
      exact .swap b x l
    | succ i =>
      have h := ih (i := i) (by simpa using hi)
      exact (List.Perm.swap x a _).trans ((h.cons x).trans (.swap b x l))

/-- A swap keeps the entries. -/
theorem swapAt_perm (l : List α) (i j : Nat) : (swapAt l i j).Perm l := by
  unfold swapAt
  split
  · rename_i a b hi hj
    by_cases hij : i = j
    · subst hij
      rw [hi, Option.some.injEq] at hj
      subst hj
      rw [List.set_set]
      exact ((cons_set_perm hi a).cons_inv)
    · have hj' : (l.set i b)[j]? = some b := by
        rw [List.getElem?_set_ne hij]
        exact hj
      exact ((cons_set_perm hj' a).trans (cons_set_perm hi b)).cons_inv
  · exact .refl l

/-- The entries after a removal. -/
theorem getElem?_swapRemove {l : List α} {i : Nat} (hi : i < l.length) (k : Nat) :
    (swapRemove l i)[k]? =
      if k < l.length - 1 then (if k = i then l[l.length - 1]? else l[k]?) else none := by
  have hlast : l.getLast? = l[l.length - 1]? := List.getLast?_eq_getElem?
  obtain ⟨a, ha⟩ : ∃ a, l[l.length - 1]? = some a :=
    ⟨_, List.getElem?_eq_getElem (by omega)⟩
  rw [swapRemove, hlast, ha]
  simp only [List.dropLast_eq_take, List.length_set, List.getElem?_take, List.getElem?_set]
  by_cases hk : k < l.length - 1
  · by_cases hki : k = i
    · subst hki
      simp [hk, hi]
    · simp [hk, hki, Ne.symm hki]
  · simp [hk]

@[simp] theorem length_swapRemove (l : List α) (i : Nat) :
    (swapRemove l i).length = l.length - 1 := by
  unfold swapRemove
  split
  · simp
  · rename_i h
    simp [List.getLast?_eq_none_iff.mp h]

/-- A removal takes one entry away. -/
theorem cons_swapRemove_perm {l : List α} {i : Nat} {a : α} (hi : l[i]? = some a) :
    (a :: swapRemove l i).Perm l := by
  have hlt := (List.getElem?_eq_some_iff.mp hi).1
  obtain ⟨z, hz⟩ : ∃ z, l[l.length - 1]? = some z := ⟨_, List.getElem?_eq_getElem (by omega)⟩
  -- The last entry is last after it has been copied to `i`, too.
  have hlast : (l.set i z).getLast? = some z := by
    rw [List.getLast?_eq_getElem?, List.length_set, List.getElem?_set]
    split
    · rfl
    · exact hz
  have hsplit := List.dropLast_append_getLast? z hlast
  have hset := cons_set_perm hi z
  rw [swapRemove, List.getLast?_eq_getElem?, hz]
  rw [← hsplit] at hset
  have hcomm : ((a :: (l.set i z).dropLast) ++ [z]).Perm (z :: a :: (l.set i z).dropLast) :=
    List.perm_append_comm
  exact (hcomm.symm.trans hset).cons_inv

/-! ### Heap order -/

variable {β : Type} [LinearOrder β]

/-- The entry at `p` is not after the entry at `c`, where both are there. -/
def Edge (key : α → β) (l : List α) (p c : Nat) : Prop :=
  ∀ a b, l[p]? = some a → l[c]? = some b → key a ≤ key b

/-- No parent is after its child. -/
def HeapOrdered (key : α → β) (l : List α) : Prop :=
  ∀ i, 0 < i → Edge key l ((i - 1) / 2) i

/-- The order, except that the entry at `k` may be before its parent. -/
structure UpOrdered (key : α → β) (l : List α) (k : Nat) : Prop where
  off : ∀ i, 0 < i → i ≠ k → Edge key l ((i - 1) / 2) i
  grand : 0 < k → ∀ i, 0 < i → (i - 1) / 2 = k → Edge key l ((k - 1) / 2) i

/-- The order, except that the entry at `k` may be after its children. -/
structure DownOrdered (key : α → β) (l : List α) (k : Nat) : Prop where
  off : ∀ i, 0 < i → (i - 1) / 2 ≠ k → Edge key l ((i - 1) / 2) i
  grand : 0 < k → ∀ i, 0 < i → (i - 1) / 2 = k → Edge key l ((k - 1) / 2) i

variable {key : α → β} {l : List α}

/-- The first entry of a heap is not after any other. -/
theorem HeapOrdered.root_le (h : HeapOrdered key l) {a : α} (h0 : l[0]? = some a) {i : Nat}
    {b : α} (hi : l[i]? = some b) : key a ≤ key b := by
  induction i using Nat.strongRecOn generalizing b with
  | ind i ih =>
    rcases Nat.eq_zero_or_pos i with rfl | hpos
    · rw [h0, Option.some.injEq] at hi
      rw [hi]
    · have hlt := (List.getElem?_eq_some_iff.mp hi).1
      obtain ⟨p, hp⟩ : ∃ p, l[(i - 1) / 2]? = some p := ⟨_, List.getElem?_eq_getElem (by omega)⟩
      exact (ih ((i - 1) / 2) (by omega) hp).trans (h i hpos p b hp hi)

/-- A new entry at the end is to be moved up. -/
theorem HeapOrdered.append (h : HeapOrdered key l) (a : α) :
    UpOrdered key (l ++ [a]) l.length where
  off i hi hne x y hx hy := by
    have hlt := (List.getElem?_eq_some_iff.mp hy).1
    rw [List.length_append, List.length_singleton] at hlt
    rw [List.getElem?_append_left (by omega)] at hx hy
    exact h i hi x y hx hy
  grand _ i _ hp x y _ hy := by
    have hlt := (List.getElem?_eq_some_iff.mp hy).1
    rw [List.length_append, List.length_singleton] at hlt
    omega

/-- One step up: the entry at `k` is before its parent and they change places. -/
theorem UpOrdered.swap {k : Nat} (h : UpOrdered key l k) (hk : 0 < k) {x y : α}
    (hx : l[k]? = some x) (hy : l[(k - 1) / 2]? = some y) (hlt : key x < key y) :
    UpOrdered key (swapAt l k ((k - 1) / 2)) ((k - 1) / 2) where
  off i hi hne a b ha hb := by
    rw [getElem?_swapAt hx hy] at ha hb
    have hpk : (k - 1) / 2 ≠ k := by omega
    rw [if_neg hne] at hb
    -- The place `k` holds the parent now, which is after the entry.
    by_cases hik : i = k
    · subst hik
      simp only [if_true, Option.some.injEq] at ha hb
      rw [← ha, ← hb]
      exact hlt.le
    · rw [if_neg hik] at hb
      split at ha
      · -- A sibling of the entry that moves up.
        rename_i hp
        cases ha
        exact hlt.le.trans (h.off i hi hik y b (hp ▸ hy) hb)
      · split at ha
        · -- A child of the place that the parent moves down to.
          rename_i hp
          cases ha
          exact h.grand hk i hi hp y b hy hb
        · exact h.off i hi hik a b ha hb
  -- The grandparent is not after the old parent, and so not after any child.
  grand hpos i hi hp a b ha hb := by
    rw [getElem?_swapAt hx hy] at ha hb
    rw [if_neg (by omega), if_neg (by omega)] at ha
    have hay : key a ≤ key y := h.off ((k - 1) / 2) hpos (by omega) a y ha hy
    rw [if_neg (by omega)] at hb
    split at hb
    · cases hb
      exact hay
    · rename_i hik
      exact hay.trans (h.off i hi hik y b (hp ▸ hy) hb)

/-- The way up ends at the root, or where the parent is not after the entry. -/
theorem UpOrdered.finish {k : Nat} (h : UpOrdered key l k)
    (hk : 0 < k → Edge key l ((k - 1) / 2) k) : HeapOrdered key l := fun i hi => by
  by_cases hik : i = k
  · subst hik
    exact hk hi
  · exact h.off i hi hik

/-- One step down: the entry at `k` is after the first of its children, and they change
places. -/
theorem DownOrdered.swap {k c : Nat} (h : DownOrdered key l k) (hc : 0 < c)
    (hck : (c - 1) / 2 = k) {x y : α} (hx : l[k]? = some x) (hy : l[c]? = some y)
    (hlt : key y < key x) (hmin : ∀ i, 0 < i → (i - 1) / 2 = k → Edge key l c i) :
    DownOrdered key (swapAt l k c) c where
  off i hi hne a b ha hb := by
    rw [getElem?_swapAt hx hy] at ha hb
    rw [if_neg hne] at ha
    -- The place `c` holds the entry now, which is after the child.
    by_cases hic : i = c
    · subst hic
      rw [if_pos hck, Option.some.injEq] at ha
      rw [if_pos rfl, Option.some.injEq] at hb
      rw [← ha, ← hb]
      exact hlt.le
    · rw [if_neg hic] at hb
      by_cases hpk : (i - 1) / 2 = k
      · -- A sibling of the entry that moves up.
        rw [if_pos hpk, Option.some.injEq] at ha
        rw [if_neg (by omega)] at hb
        rw [← ha]
        exact hmin i hi hpk y b hy hb
      · rw [if_neg hpk] at ha
        split at hb
        · -- The place that the child moves up to.
          rename_i hik
          subst hik
          cases hb
          exact h.grand hi c hc hck a y ha hy
        · exact h.off i hi hpk a b ha hb
  -- The children of `c` were not before the child that moved up.
  grand _ i hi hp a b ha hb := by
    rw [getElem?_swapAt hx hy] at ha hb
    rw [hck, if_neg (by omega), if_pos rfl, Option.some.injEq] at ha
    rw [if_neg (by omega), if_neg (by omega)] at hb
    rw [← ha]
    exact h.off i hi (by omega) y b (hp ▸ hy) hb

/-- The way down ends where no child is before the entry. -/
theorem DownOrdered.finish {k : Nat} (h : DownOrdered key l k)
    (hk : ∀ i, 0 < i → (i - 1) / 2 = k → Edge key l k i) : HeapOrdered key l := fun i hi => by
  by_cases hp : (i - 1) / 2 = k
  · rw [hp]
    exact hk i hi hp
  · exact h.off i hi hp

/-- Removing the last entry keeps the order. -/
theorem HeapOrdered.swapRemove_last (h : HeapOrdered key l) {k : Nat} (hk : k < l.length)
    (hlast : l.length - 1 ≤ k) : HeapOrdered key (swapRemove l k) := by
  intro i hi a b ha hb
  rw [getElem?_swapRemove hk] at ha hb
  split at hb
  · rename_i hlt
    rw [if_neg (by omega)] at hb
    rw [if_pos (by omega), if_neg (by omega)] at ha
    exact h i hi a b ha hb
  · cases hb

/-- After a removal the entry that was moved is to be sifted, up when it is before its parent,
and down when it is not. -/
theorem HeapOrdered.swapRemove (h : HeapOrdered key l) {k : Nat} {z : α}
    (hk : k < l.length - 1) (hz : (swapRemove l k)[k]? = some z) :
    (0 < k → (∀ p, (Lib.swapRemove l k)[(k - 1) / 2]? = some p → key z < key p) →
      UpOrdered key (Lib.swapRemove l k) k) ∧
    ((0 < k → Edge key (Lib.swapRemove l k) ((k - 1) / 2) k) →
      DownOrdered key (Lib.swapRemove l k) k) := by
  have hkl : k < l.length := by omega
  obtain ⟨old, hold⟩ : ∃ old, l[k]? = some old := ⟨_, List.getElem?_eq_getElem hkl⟩
  -- Off the place `k` nothing has changed.
  have hsame : ∀ i b, (Lib.swapRemove l k)[i]? = some b → i ≠ k → l[i]? = some b := by
    intro i b hb hne
    rw [getElem?_swapRemove hkl] at hb
    split at hb
    · simpa only [if_neg hne] using hb
    · cases hb
  have hgrand : 0 < k → ∀ i, 0 < i → (i - 1) / 2 = k →
      Edge key (Lib.swapRemove l k) ((k - 1) / 2) i := by
    intro hpos i hi hp a b ha hb
    have hab := h k hpos a old (hsame _ a ha (by omega)) hold
    exact hab.trans (h i hi old b (hp ▸ hold) (hsame i b hb (by omega)))
  -- The moved entry is before its parent or it is not, and the two cases are the two sifts.
  constructor
  · intro hpos hbefore
    refine ⟨fun i hi hne a b ha hb => ?_, fun _ => hgrand hpos⟩
    by_cases hp : (i - 1) / 2 = k
    · -- The moved entry is before its parent, which is not after the children.
      obtain ⟨p, hpp⟩ : ∃ p, (Lib.swapRemove l k)[(k - 1) / 2]? = some p :=
        ⟨_, List.getElem?_eq_getElem (by rw [length_swapRemove]; omega)⟩
      rw [hp, hz, Option.some.injEq] at ha
      rw [← ha]
      exact (hbefore p hpp).le.trans (hgrand hpos i hi hp p b hpp hb)
    · exact h i hi a b (hsame _ a ha hp) (hsame i b hb hne)
  · intro hparent
    refine ⟨fun i hi hp a b ha hb => ?_, hgrand⟩
    by_cases hne : i = k
    · subst hne
      exact hparent hi a b ha hb
    · exact h i hi a b (hsame _ a ha hp) (hsame i b hb hne)

end Nagoya.Lib
