import Mathlib.Data.List.Basic
import Mathlib.Logic.Function.Basic

/-!
# `Nagoya.Lib.Chain`: intrusive linked lists

The nodes of an intrusive list carry the links. `next i` is the link of the node `i`, and it is
`none` where there is no node. A list starts at a cursor and ends at the value `stop`, which is
no node of it. `Chain next stop c l` says that following the links from `c` visits the nodes `l`
and then stops.

A write to a node that is not on a chain leaves the chain alone (`Chain.update`).
-/

set_option autoImplicit false

namespace Nagoya.Lib

variable {α : Type}

/-- Following `next` from a cursor visits the nodes of the list, and ends at `stop`. -/
def Chain (next : α → Option α) (stop : α) : α → List α → Prop
  | c, [] => c = stop
  | c, i :: l => c = i ∧ i ≠ stop ∧ ∃ n, next i = some n ∧ Chain next stop n l

namespace Chain

variable {next next' : α → Option α} {stop c i : α} {l : List α}

/-- A chain from `stop` is empty. -/
theorem eq_nil (h : Chain next stop stop l) : l = [] := by
  cases l with
  | nil => rfl
  | cons i l =>
    obtain ⟨rfl, hne, -⟩ := h
    exact absurd rfl hne

/-- A chain from another cursor has that cursor as its first node. -/
theorem eq_cons (h : Chain next stop c l) (hc : c ≠ stop) :
    ∃ n t, l = c :: t ∧ next c = some n ∧ Chain next stop n t := by
  cases l with
  | nil => exact absurd h hc
  | cons i t =>
    obtain ⟨rfl, -, n, hn, ht⟩ := h
    exact ⟨n, t, rfl, hn, ht⟩

/-- The cursor and the links say which nodes a chain has. -/
theorem unique {l' : List α} (h : Chain next stop c l) (h' : Chain next stop c l') : l = l' := by
  induction l generalizing c l' with
  | nil =>
    obtain rfl : c = stop := h
    exact h'.eq_nil.symm
  | cons i t ih =>
    obtain ⟨rfl, hne, n, hn, ht⟩ := h
    obtain ⟨n', t', rfl, hn', ht'⟩ := h'.eq_cons hne
    obtain rfl : n = n' := Option.some.inj (hn.symm.trans hn')
    rw [ih ht ht']

/-- Every node of a chain exists. -/
theorem isSome_of_mem (h : Chain next stop c l) (hi : i ∈ l) : (next i).isSome = true := by
  induction l generalizing c with
  | nil => cases hi
  | cons j t ih =>
    obtain ⟨rfl, -, n, hn, ht⟩ := h
    rcases List.mem_cons.mp hi with rfl | hi
    · simp [hn]
    · exact ih ht hi

/-- A chain depends on the links of its own nodes. -/
theorem congr (h : Chain next stop c l) (hn : ∀ i ∈ l, next' i = next i) :
    Chain next' stop c l := by
  induction l generalizing c with
  | nil => exact h
  | cons i t ih =>
    obtain ⟨rfl, hne, n, hi, ht⟩ := h
    exact ⟨rfl, hne, n, (hn c (by simp)).trans hi, ih ht fun j hj => hn j (by simp [hj])⟩

/-- A write to a node outside the chain. -/
theorem update [DecidableEq α] (h : Chain next stop c l) (hi : i ∉ l) (x : Option α) :
    Chain (Function.update next i x) stop c l :=
  h.congr fun j hj => Function.update_of_ne (fun he : j = i => hi (he ▸ hj)) _ _

/-- A node whose link is the cursor goes to the front. -/
theorem cons (h : Chain next stop c l) (hi : next i = some c) (hne : i ≠ stop) :
    Chain next stop i (i :: l) :=
  ⟨rfl, hne, c, hi, h⟩

end Chain

end Nagoya.Lib
