import Mathlib.Data.Prod.Lex
import Nagoya.Time.TimerHeap

/-!
# `Nagoya.Proofs.Time.TimerHeap`: the heap is ordered and indexed

`HeapOk` is what every operation keeps. The entries are in heap order by deadline and then by
registration, so the one that `peek` shows is the first to fire (`HeapOk.peek_le`). A slot's
`index` is the place of its entry, or nothing when it has none. This is one equivalence, and it
also says that no slot has two entries.

`push_perm` and `remove_perm` say what the operations do to the entries as a collection.
-/

set_option autoImplicit false

namespace Nagoya.Time

open Nagoya.Lib

/-- The order in which entries fire. -/
def Entry.key (e : Entry) : Nat ×ₗ Nat := toLex (e.deadline, e.seq)

/-- The greater entry is the one that fires first. -/
theorem Entry.gt_iff (e p : Entry) : e.gt p = true ↔ e.key < p.key := by
  simp only [Entry.gt, beq_iff_eq, Entry.cmp, Entry.key, Prod.Lex.toLex_lt_toLex]
  rw [Ordering.then_eq_gt, Nat.compare_eq_gt, Nat.compare_eq_eq, Nat.compare_eq_gt]
  omega

theorem Entry.gt_eq_false_iff (e p : Entry) : e.gt p = false ↔ p.key ≤ e.key := by
  rw [← not_lt, ← Entry.gt_iff, Bool.not_eq_true]

theorem Entry.deadline_le_of_key_le {e p : Entry} (h : e.key ≤ p.key) :
    e.deadline ≤ p.deadline := by
  rw [Entry.key, Entry.key, Prod.Lex.toLex_le_toLex] at h
  rcases h with h | ⟨h, -⟩
  · exact Nat.le_of_lt h
  · exact Nat.le_of_eq h

/-- The least deadline does not depend on the order of the entries. -/
theorem min_deadline_perm {l l' : List Entry} (h : l.Perm l') :
    (l.map Entry.deadline).min? = (l'.map Entry.deadline).min? := by
  have hperm := h.map Entry.deadline
  cases hm : (l'.map Entry.deadline).min? with
  | none =>
    rw [List.min?_eq_none_iff] at hm ⊢
    rw [hm] at hperm
    exact hperm.eq_nil
  | some d =>
    rw [List.min?_eq_some_iff] at hm ⊢
    exact ⟨hperm.symm.subset hm.1, fun b hb => hm.2 b (hperm.subset hb)⟩

namespace TimerHeap

/-- A slot's index is the place of its entry. -/
def Indexed (h : TimerHeap) : Prop :=
  ∀ slot i, h.index slot = some i ↔ ∃ e, h.entries[i]? = some e ∧ e.slot = slot

/-- The invariant of the heap. -/
structure HeapOk (h : TimerHeap) : Prop where
  ordered : HeapOrdered Entry.key h.entries
  indexed : h.Indexed

@[simp] theorem storeIndex_entries (h : TimerHeap) (a : Nat) :
    (h.storeIndex a).entries = h.entries := by
  unfold storeIndex
  split <;> rfl

theorem storeIndex_index {h : TimerHeap} {a : Nat} {e : Entry} (ha : h.entries[a]? = some e) :
    (h.storeIndex a).index = Function.update h.index e.slot (some a) := by
  simp [storeIndex, ha]

@[simp] theorem swap_entries (h : TimerHeap) (a b : Nat) :
    (h.swap a b).entries = swapAt h.entries a b := by
  simp [swap]

/-- Two entries of one slot are one entry. -/
theorem Indexed.slot_inj {h : TimerHeap} (hx : h.Indexed) {i j : Nat} {e f : Entry}
    (hi : h.entries[i]? = some e) (hj : h.entries[j]? = some f) (hs : e.slot = f.slot) :
    i = j := by
  have h1 := (hx e.slot i).mpr ⟨e, hi, rfl⟩
  have h2 := (hx e.slot j).mpr ⟨f, hj, hs.symm⟩
  rw [h1, Option.some.injEq] at h2
  exact h2

/-- No slot has two entries. -/
theorem Indexed.nodup {h : TimerHeap} (hx : h.Indexed) :
    (h.entries.map Entry.slot).Nodup := by
  rw [List.Nodup, List.pairwise_iff_getElem]
  intro i j hi hj hij heq
  rw [List.length_map] at hi hj
  rw [List.getElem_map, List.getElem_map] at heq
  have := hx.slot_inj (List.getElem?_eq_getElem hi) (List.getElem?_eq_getElem hj) heq
  omega

/-- Entries of different slots are at different places. -/
theorem ne_of_slot {entries : List Entry} {i k : Nat} {e f : Entry} {slot : Nat}
    (he : entries[i]? = some e) (hf : entries[k]? = some f) (hfs : f.slot = slot)
    (hne : slot ≠ e.slot) : k ≠ i := by
  rintro rfl
  rw [he, Option.some.injEq] at hf
  exact hne (hf ▸ hfs).symm

/-- A swap stores the new places. -/
theorem Indexed.swap {h : TimerHeap} (hx : h.Indexed) {a b : Nat} (ha : a < h.entries.length)
    (hb : b < h.entries.length) (hab : a ≠ b) : (h.swap a b).Indexed := by
  obtain ⟨x, hxa⟩ : ∃ x, h.entries[a]? = some x := ⟨_, List.getElem?_eq_getElem ha⟩
  obtain ⟨y, hyb⟩ : ∃ y, h.entries[b]? = some y := ⟨_, List.getElem?_eq_getElem hb⟩
  have hne : x.slot ≠ y.slot := fun he => hab (hx.slot_inj hxa hyb he)
  have hget := getElem?_swapAt hxa hyb
  have hindex : (h.swap a b).index =
      Function.update (Function.update h.index y.slot (some a)) x.slot (some b) := by
    have h1 : (swapAt h.entries a b)[a]? = some y := by rw [hget, if_neg hab, if_pos rfl]
    have h2 : (swapAt h.entries a b)[b]? = some x := by rw [hget, if_pos rfl]
    rw [TimerHeap.swap, storeIndex_index (e := x) (by simpa using h2),
      storeIndex_index (e := y) (by simpa using h1)]
  -- The index agrees with the entries at each slot: those of `x` and `y` have changed places.
  intro slot i
  rw [hindex, swap_entries, hget, Function.update_apply, Function.update_apply]
  by_cases hsx : slot = x.slot
  · rw [if_pos hsx, Option.some.injEq]
    constructor
    · rintro rfl
      exact ⟨x, by simp, hsx.symm⟩
    · rintro ⟨e, he, hs⟩
      split at he
      · rename_i hib
        exact hib.symm
      · split at he
        · cases he
          exact absurd (hsx.symm.trans hs.symm) hne
        · rename_i hia
          exact absurd (hx.slot_inj he hxa (hs.trans hsx)) hia
  · rw [if_neg hsx]
    by_cases hsy : slot = y.slot
    · rw [if_pos hsy, Option.some.injEq]
      constructor
      · rintro rfl
        exact ⟨y, by simp [hab], hsy.symm⟩
      · rintro ⟨e, he, hs⟩
        split at he
        · cases he
          exact absurd hs.symm hsx
        · split at he
          · rename_i hia
            exact hia.symm
          · rename_i hib _
            exact absurd (hx.slot_inj he hyb (hs.trans hsy)) hib
    · -- Another slot: neither place is its own.
      rw [if_neg hsy, hx slot i]
      constructor
      · rintro ⟨e, he, hs⟩
        have hib : i ≠ b := ne_of_slot hyb he hs hsy
        have hia : i ≠ a := ne_of_slot hxa he hs hsx
        exact ⟨e, by rw [if_neg hib, if_neg hia]; exact he, hs⟩
      · rintro ⟨e, he, hs⟩
        split at he
        · cases he
          exact absurd hs.symm hsx
        · split at he
          · cases he
            exact absurd hs.symm hsy
          · exact ⟨e, he, hs⟩

/-! ### The sifts -/

/-- The result of a sift: a heap with the same entries. -/
structure Sifted (h h' : TimerHeap) : Prop where
  ok : HeapOk h'
  perm : h'.entries.Perm h.entries

/-- The entry at `index` moves up to its place. -/
theorem siftUpLoop_spec (fuel : Nat) (h : TimerHeap) (index : Nat)
    (hi : index < h.entries.length) (hfuel : index ≤ fuel) (hx : h.Indexed)
    (ho : UpOrdered Entry.key h.entries index) : Sifted h (siftUpLoop fuel h index) := by
  induction fuel generalizing h index with
  | zero => exact ⟨⟨ho.finish fun hpos => absurd hpos (by omega), hx⟩, .refl _⟩
  | succ fuel ih =>
    unfold siftUpLoop
    split
    · rename_i hpos
      obtain ⟨e, he⟩ : ∃ e, h.entries[index]? = some e := ⟨_, List.getElem?_eq_getElem hi⟩
      obtain ⟨p, hp⟩ : ∃ p, h.entries[(index - 1) / 2]? = some p :=
        ⟨_, List.getElem?_eq_getElem (by omega)⟩
      simp only [he, hp]
      split
      · -- The parent is not after the entry.
        rename_i hle
        rw [Entry.gt_eq_false_iff] at hle
        refine ⟨⟨ho.finish fun _ a b ha hb => ?_, hx⟩, .refl _⟩
        rw [hp, Option.some.injEq] at ha
        rw [he, Option.some.injEq] at hb
        rw [← ha, ← hb]
        exact hle
      · -- The entry is before its parent, and it moves up.
        rename_i hgt
        rw [Bool.not_eq_false, Entry.gt_iff] at hgt
        have hrec := ih (h.swap index ((index - 1) / 2)) ((index - 1) / 2) (by simp; omega)
          (by omega) (hx.swap hi (by omega) (by omega))
          (by rw [swap_entries]; exact ho.swap hpos he hp hgt)
        exact ⟨hrec.ok, hrec.perm.trans (by rw [swap_entries]; exact swapAt_perm ..)⟩
    · exact ⟨⟨ho.finish fun hpos => absurd hpos (by omega), hx⟩, .refl _⟩

/-- The child that the sift compares with is there and not after the other one. -/
theorem child_spec {h : TimerHeap} {index : Nat} (hi : index < h.entries.length / 2) :
    (h.child index - 1) / 2 = index ∧ index < h.child index ∧
      h.child index < h.entries.length ∧
      ∀ i, 0 < i → (i - 1) / 2 = index → Edge Entry.key h.entries (h.child index) i := by
  obtain ⟨l, hl⟩ : ∃ l, h.entries[2 * index + 1]? = some l :=
    ⟨_, List.getElem?_eq_getElem (by omega)⟩
  cases hr : h.entries[2 * index + 2]? with
  | none =>
    -- A parent with one child, which is the first.
    have hc : h.child index = 2 * index + 1 := by simp [child, hl, hr]
    rw [hc]
    refine ⟨by omega, by omega, by omega, fun i hpos hp a b ha hb => ?_⟩
    obtain rfl | rfl : i = 2 * index + 1 ∨ i = 2 * index + 2 := by omega
    · rw [ha, Option.some.injEq] at hb
      exact le_of_eq (by rw [hb])
    · simp [hr] at hb
  | some r =>
    -- With two children, the code takes the one that is not after the other.
    have hlr := (List.getElem?_eq_some_iff.mp hr).1
    by_cases hgt : r.gt l = true
    · have hc : h.child index = 2 * index + 2 := by simp [child, hl, hr, hgt]
      rw [hc]
      refine ⟨by omega, by omega, hlr, fun i hpos hp a b ha hb => ?_⟩
      obtain rfl | rfl : i = 2 * index + 1 ∨ i = 2 * index + 2 := by omega
      · rw [hr, Option.some.injEq] at ha
        rw [hl, Option.some.injEq] at hb
        rw [← ha, ← hb]
        exact ((Entry.gt_iff r l).mp hgt).le
      · rw [ha, Option.some.injEq] at hb
        exact le_of_eq (by rw [hb])
    · have hc : h.child index = 2 * index + 1 := by simp [child, hl, hr, hgt]
      rw [hc]
      refine ⟨by omega, by omega, by omega, fun i hpos hp a b ha hb => ?_⟩
      obtain rfl | rfl : i = 2 * index + 1 ∨ i = 2 * index + 2 := by omega
      · rw [ha, Option.some.injEq] at hb
        exact le_of_eq (by rw [hb])
      · rw [hl, Option.some.injEq] at ha
        rw [hr, Option.some.injEq] at hb
        rw [← ha, ← hb]
        exact (Entry.gt_eq_false_iff r l).mp (by simpa using hgt)

/-- The entry at `index` moves down to its place. -/
theorem siftDownLoop_spec (fuel : Nat) (h : TimerHeap) (index : Nat)
    (hi : index < h.entries.length) (hfuel : h.entries.length ≤ fuel + index) (hx : h.Indexed)
    (ho : DownOrdered Entry.key h.entries index) : Sifted h (siftDownLoop fuel h index) := by
  induction fuel generalizing h index with
  | zero => omega
  | succ fuel ih =>
    unfold siftDownLoop
    split
    · rename_i hhalf
      obtain ⟨hcp, hic, hcl, hmin⟩ := child_spec hhalf
      obtain ⟨e, he⟩ : ∃ e, h.entries[index]? = some e := ⟨_, List.getElem?_eq_getElem hi⟩
      obtain ⟨c, hc⟩ : ∃ c, h.entries[h.child index]? = some c :=
        ⟨_, List.getElem?_eq_getElem hcl⟩
      simp only [he, hc]
      split
      · -- The first child is not before the entry, and so the other is not.
        rename_i hle
        rw [Entry.gt_eq_false_iff] at hle
        refine ⟨⟨ho.finish fun i hpos hp a b ha hb => ?_, hx⟩, .refl _⟩
        rw [he, Option.some.injEq] at ha
        rw [← ha]
        exact hle.trans (hmin i hpos hp c b hc hb)
      · -- The child is before the entry, which moves down.
        rename_i hgt
        rw [Bool.not_eq_false, Entry.gt_iff] at hgt
        have hrec := ih (h.swap index (h.child index)) (h.child index) (by simpa using hcl)
          (by simp; omega) (hx.swap hi hcl (by omega))
          (by rw [swap_entries]; exact ho.swap (by omega) hcp he hc hgt hmin)
        exact ⟨hrec.ok, hrec.perm.trans (by rw [swap_entries]; exact swapAt_perm ..)⟩
    · -- There is no child.
      refine ⟨⟨ho.finish fun i hpos hp a b _ hb => ?_, hx⟩, .refl _⟩
      have := (List.getElem?_eq_some_iff.mp hb).1
      omega

/-! ### The operations -/

theorem empty_ok : HeapOk empty :=
  ⟨fun i _ a b ha => by simp [empty] at ha, fun slot i => by simp [empty]⟩

/-- The entry that `peek` shows is the first to fire. -/
theorem HeapOk.peek_key_le {h : TimerHeap} (hok : HeapOk h) {e : Entry} (hp : h.peek = some e) :
    ∀ f ∈ h.entries, e.key ≤ f.key := by
  intro f hf
  obtain ⟨i, hi⟩ := List.mem_iff_getElem?.mp hf
  exact hok.ordered.root_le hp hi

theorem HeapOk.peek_le {h : TimerHeap} (hok : HeapOk h) {e : Entry} (hp : h.peek = some e) :
    ∀ f ∈ h.entries, e.deadline ≤ f.deadline :=
  fun f hf => Entry.deadline_le_of_key_le (hok.peek_key_le hp f hf)

theorem peek_mem {h : TimerHeap} {e : Entry} (hp : h.peek = some e) : e ∈ h.entries :=
  List.mem_of_getElem? hp

theorem peek_eq_none {h : TimerHeap} : h.peek = none ↔ h.entries = [] := by
  rw [peek, List.getElem?_eq_none_iff]
  exact ⟨fun hl => List.eq_nil_of_length_eq_zero (by omega), fun he => by simp [he]⟩

/-- `push` adds an entry for a slot that has none. -/
theorem push_spec {h : TimerHeap} (hok : HeapOk h) {e : Entry} (hfresh : h.index e.slot = none) :
    HeapOk (h.push e) ∧ (h.push e).entries.Perm (e :: h.entries) := by
  -- The new entry is at the end, and its slot had no index.
  have hget : (h.entries ++ [e])[h.entries.length]? = some e := by simp
  have hx : (storeIndex { h with entries := h.entries ++ [e] } h.entries.length).Indexed := by
    intro slot i
    rw [storeIndex_index hget, storeIndex_entries, Function.update_apply]
    split
    · rename_i hs
      rw [Option.some.injEq]
      constructor
      · rintro rfl
        exact ⟨e, hget, hs.symm⟩
      · rintro ⟨f, hf, hfs⟩
        rw [List.getElem?_append] at hf
        split at hf
        · have := (hok.indexed slot i).mpr ⟨f, hf, hfs⟩
          rw [hs, hfresh] at this
          cases this
        · have := (List.getElem?_eq_some_iff.mp hf).1
          simp at this
          omega
    · rename_i hs
      rw [hok.indexed slot i]
      constructor
      · rintro ⟨f, hf, hfs⟩
        exact ⟨f, by rw [List.getElem?_append_left (List.getElem?_eq_some_iff.mp hf).1]; exact hf,
          hfs⟩
      · rintro ⟨f, hf, hfs⟩
        rw [List.getElem?_append] at hf
        split at hf
        · exact ⟨f, hf, hfs⟩
        · have hlt := (List.getElem?_eq_some_iff.mp hf).1
          simp only [List.length_singleton] at hlt
          rw [show i - h.entries.length = 0 by omega] at hf
          simp only [List.getElem?_cons_zero, Option.some.injEq] at hf
          exact absurd (hf ▸ hfs).symm hs
  have hs := siftUpLoop_spec h.entries.length _ h.entries.length (by simp) (Nat.le_refl _) hx
    (by rw [storeIndex_entries]; exact hok.ordered.append e)
  refine ⟨hs.ok, hs.perm.trans ?_⟩
  rw [storeIndex_entries]
  exact List.perm_append_comm

/-- The moved entry is sifted in the direction it needs. -/
theorem resift_spec {h : TimerHeap} {index : Nat} {z : Entry} (hz : h.entries[index]? = some z)
    (hx : h.Indexed)
    (hup : 0 < index → (∀ p, h.entries[(index - 1) / 2]? = some p → z.key < p.key) →
      UpOrdered Entry.key h.entries index)
    (hdown : (0 < index → Edge Entry.key h.entries ((index - 1) / 2) index) →
      DownOrdered Entry.key h.entries index) : Sifted h (h.resift index) := by
  have hi := (List.getElem?_eq_some_iff.mp hz).1
  obtain ⟨p, hp⟩ : ∃ p, h.entries[(index - 1) / 2]? = some p :=
    ⟨_, List.getElem?_eq_getElem (by omega)⟩
  simp only [resift, hz, hp]
  split
  · rename_i hc
    refine siftUpLoop_spec index h index hi (Nat.le_refl _) hx (hup hc.1 fun q hq => ?_)
    rw [hp, Option.some.injEq] at hq
    rw [← hq]
    exact (Entry.gt_iff z p).mp hc.2
  · rename_i hc
    refine siftDownLoop_spec h.entries.length h index hi (by omega) hx
      (hdown fun hpos a b ha hb => ?_)
    rw [hp, Option.some.injEq] at ha
    rw [hz, Option.some.injEq] at hb
    rw [← ha, ← hb]
    exact (Entry.gt_eq_false_iff z p).mp (by simpa [hpos] using hc)

/-- The indices after `swap_remove` and the stores that go with it. `z` is the entry that takes
the place, when there is one. -/
theorem Indexed.swapRemove {h : TimerHeap} (hx : h.Indexed) {i : Nat} {e : Entry}
    (he : h.entries[i]? = some e) {index : Nat → Option Nat}
    (hmoved : ∀ z, (Lib.swapRemove h.entries i)[i]? = some z →
      index = Function.update (Function.update h.index e.slot none) z.slot (some i))
    (hlast : (Lib.swapRemove h.entries i)[i]? = none →
      index = Function.update h.index e.slot none) :
    Indexed { entries := Lib.swapRemove h.entries i, index := index } := by
  have hi := (List.getElem?_eq_some_iff.mp he).1
  -- Off the place `i` the entries are those of before, without the last.
  have hget := fun k (hk : k ≠ i) => getElem?_swapRemove hi k
  have hold : ∀ k f, (Lib.swapRemove h.entries i)[k]? = some f → k ≠ i →
      h.entries[k]? = some f ∧ k < h.entries.length - 1 := by
    intro k f hf hk
    rw [hget k hk] at hf
    split at hf
    · rename_i hlt
      exact ⟨hf, hlt⟩
    · cases hf
  have hnew : ∀ k f, h.entries[k]? = some f → k ≠ i → k < h.entries.length - 1 →
      (Lib.swapRemove h.entries i)[k]? = some f := by
    intro k f hf hk hlt
    rw [hget k hk, if_pos hlt, if_neg hk]
    exact hf
  intro slot k
  show index slot = some k ↔ ∃ f, (Lib.swapRemove h.entries i)[k]? = some f ∧ f.slot = slot
  cases hz : (Lib.swapRemove h.entries i)[i]? with
  | none =>
    -- The last entry was the one that is removed.
    have hil : i = h.entries.length - 1 := by
      rw [List.getElem?_eq_none_iff, length_swapRemove] at hz
      omega
    rw [hlast hz, Function.update_apply]
    split
    · rename_i hs
      refine ⟨fun hc => (by cases hc), fun ⟨f, hf, hfs⟩ => ?_⟩
      have hk : k ≠ i := by
        rintro rfl
        simp [hz] at hf
      exact absurd (hx.slot_inj (hold k f hf hk).1 he (hfs.trans hs)) hk
    · rename_i hs
      rw [hx slot k]
      refine ⟨fun ⟨f, hf, hfs⟩ => ?_, fun ⟨f, hf, hfs⟩ => ?_⟩
      · have hk : k ≠ i := ne_of_slot he hf hfs hs
        have hlt := (List.getElem?_eq_some_iff.mp hf).1
        exact ⟨f, hnew k f hf hk (by omega), hfs⟩
      · have hk : k ≠ i := by
          rintro rfl
          simp [hz] at hf
        exact ⟨f, (hold k f hf hk).1, hfs⟩
  -- The last entry has moved to the place of the removed one.
  | some z =>
    have hil : i < h.entries.length - 1 := by
      have := (List.getElem?_eq_some_iff.mp hz).1
      rwa [length_swapRemove] at this
    have hzl : h.entries[h.entries.length - 1]? = some z := by
      rw [getElem?_swapRemove hi, if_pos hil, if_pos rfl] at hz
      exact hz
    rw [hmoved z hz, Function.update_apply, Function.update_apply]
    split
    · rename_i hs
      rw [Option.some.injEq]
      constructor
      · rintro rfl
        exact ⟨z, hz, hs.symm⟩
      · rintro ⟨f, hf, hfs⟩
        by_contra hk
        obtain ⟨hf', hlt⟩ := hold k f hf (Ne.symm hk)
        have := hx.slot_inj hf' hzl (hfs.trans hs)
        omega
    · rename_i hsz
      split
      · rename_i hs
        refine ⟨fun hc => (by cases hc), fun ⟨f, hf, hfs⟩ => ?_⟩
        have hk : k ≠ i := ne_of_slot hz hf hfs hsz
        exact absurd (hx.slot_inj (hold k f hf hk).1 he (hfs.trans hs)) hk
      · rename_i hs
        rw [hx slot k]
        refine ⟨fun ⟨f, hf, hfs⟩ => ?_, fun ⟨f, hf, hfs⟩ => ?_⟩
        · have hk : k ≠ i := ne_of_slot he hf hfs hs
          have hkl : k ≠ h.entries.length - 1 := ne_of_slot hzl hf hfs hsz
          have hlt := (List.getElem?_eq_some_iff.mp hf).1
          exact ⟨f, hnew k f hf hk (by omega), hfs⟩
        · have hk : k ≠ i := ne_of_slot hz hf hfs hsz
          exact ⟨f, (hold k f hf hk).1, hfs⟩

/-- `remove` takes out the entry at a place of the heap. -/
theorem remove_spec {h : TimerHeap} (hok : HeapOk h) {i : Nat} {e : Entry}
    (he : h.entries[i]? = some e) :
    ∃ h', h.remove i = some (h', e) ∧ HeapOk h' ∧ (e :: h'.entries).Perm h.entries := by
  have hi := (List.getElem?_eq_some_iff.mp he).1
  have hperm := cons_swapRemove_perm he
  simp only [remove, he]
  split
  · -- The moved entry goes up or down from there.
    rename_i hlt
    simp only [length_swapRemove] at hlt
    obtain ⟨z, hz⟩ : ∃ z, (Lib.swapRemove h.entries i)[i]? = some z :=
      ⟨_, List.getElem?_eq_getElem (by rw [length_swapRemove]; exact hlt)⟩
    obtain ⟨hup, hdown⟩ := hok.ordered.swapRemove hlt hz
    have hx : (storeIndex ⟨Lib.swapRemove h.entries i,
        Function.update h.index e.slot none⟩ i).Indexed := by
      have := hok.indexed.swapRemove he (fun z' hz' => storeIndex_index (e := z')
          (h := ⟨Lib.swapRemove h.entries i, Function.update h.index e.slot none⟩) hz')
        (fun hn => by simp [hz] at hn)
      simpa only [Indexed, storeIndex_entries] using this
    have hs := resift_spec (z := z) (by rw [storeIndex_entries]; exact hz) hx
      (by rw [storeIndex_entries]; exact hup) (by rw [storeIndex_entries]; exact hdown)
    refine ⟨_, rfl, hs.ok, ?_⟩
    have hp := hs.perm
    rw [storeIndex_entries] at hp
    exact (hp.cons e).trans hperm
  · -- The removed entry was the last, so nothing moves.
    rename_i hlt
    simp only [length_swapRemove] at hlt
    refine ⟨_, rfl, ⟨hok.ordered.swapRemove_last hi (by omega), ?_⟩, hperm⟩
    refine hok.indexed.swapRemove he (fun z hz => ?_) fun _ => rfl
    have := (List.getElem?_eq_some_iff.mp hz).1
    rw [length_swapRemove] at this
    omega

/-- `pop` takes out the entry that `peek` shows. -/
theorem pop_spec {h : TimerHeap} (hok : HeapOk h) {e : Entry} (hp : h.peek = some e) :
    ∃ h', h.pop = some (h', e) ∧ HeapOk h' ∧ (e :: h'.entries).Perm h.entries := by
  have hne : h.entries ≠ [] := fun he => by simp [peek, he] at hp
  rw [pop, if_neg hne]
  exact remove_spec hok hp

end TimerHeap

end Nagoya.Time
