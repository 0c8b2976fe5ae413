import Mathlib.Algebra.BigOperators.Group.List.Basic
import Mathlib.Algebra.Order.BigOperators.Group.List
import Mathlib.Algebra.Order.Ring.Nat
import Mathlib.Logic.Function.Basic

/-!
# `Nagoya.Lib.Pool`: weights over a pool of processes

A pool is a list of processes. A process keeps its index for life: a step replaces one
entry (`List.set`) and a new process goes to the end. `tally f` adds a weight over the
pool, and `attr f` reads an optional attribute of one process. The lemmas say how one
replacement and one arrival change them. Those about a tally are in the additive form that
`omega` reads.
-/

set_option autoImplicit false

namespace Nagoya.Lib

variable {α : Type}

/-- The sum of the weights `f` over the pool. -/
def tally (f : α → Nat) (l : List α) : Nat := (l.map f).sum

@[simp] theorem tally_nil (f : α → Nat) : tally f [] = 0 := rfl

@[simp] theorem tally_cons (f : α → Nat) (a : α) (l : List α) :
    tally f (a :: l) = f a + tally f l := by
  simp [tally]

@[simp] theorem tally_append (f : α → Nat) (l₁ l₂ : List α) :
    tally f (l₁ ++ l₂) = tally f l₁ + tally f l₂ := by
  simp [tally]

/-- Replacing the entry `a` by `b` moves the tally by `f b - f a`. -/
theorem tally_set (f : α → Nat) {l : List α} {i : Nat} {a : α} (h : l[i]? = some a) (b : α) :
    tally f (l.set i b) + f a = tally f l + f b := by
  induction l generalizing i with
  | nil => simp at h
  | cons x l ih =>
    cases i with
    | zero =>
      simp only [List.getElem?_cons_zero, Option.some.injEq] at h
      subst h
      simp only [List.set_cons_zero, tally_cons]
      omega
    | succ i =>
      have := ih (by simpa using h)
      simp only [List.set_cons_succ, tally_cons]
      omega

/-- A replacement that keeps the weight keeps the tally. -/
theorem tally_set_of_eq (f : α → Nat) {l : List α} {i : Nat} {a b : α} (h : l[i]? = some a)
    (hf : f b = f a) : tally f (l.set i b) = tally f l := by
  have := tally_set f h b
  omega

/-- One entry weighs no more than the pool. -/
theorem le_tally (f : α → Nat) {l : List α} {i : Nat} {a : α} (h : l[i]? = some a) :
    f a ≤ tally f l := by
  induction l generalizing i with
  | nil => simp at h
  | cons x l ih =>
    cases i with
    | zero =>
      simp only [List.getElem?_cons_zero, Option.some.injEq] at h
      subst h
      simp
    | succ i =>
      have := ih (i := i) (by simpa using h)
      simp only [tally_cons]
      omega

/-- Two entries weigh no more than the pool. -/
theorem add_le_tally (f : α → Nat) {l : List α} {i j : Nat} {a b : α} (hi : l[i]? = some a)
    (hj : l[j]? = some b) (hij : i ≠ j) : f a + f b ≤ tally f l := by
  induction l generalizing i j with
  | nil => simp at hi
  | cons x l ih =>
    rw [tally_cons]
    cases i with
    | zero =>
      obtain ⟨j, rfl⟩ := Nat.exists_eq_succ_of_ne_zero (Ne.symm hij)
      have hle := le_tally f (i := j) (by simpa using hj)
      obtain rfl : x = a := by simpa using hi
      omega
    | succ i =>
      cases j with
      | zero =>
        have hle := le_tally f (i := i) (by simpa using hi)
        obtain rfl : x = b := by simpa using hj
        omega
      | succ j =>
        have := ih (i := i) (j := j) (by simpa using hi) (by simpa using hj) (by omega)
        omega

/-- A pool of weights zero. -/
theorem tally_eq_zero {f : α → Nat} {l : List α} (h : ∀ a ∈ l, f a = 0) : tally f l = 0 := by
  induction l with
  | nil => rfl
  | cons a l ih =>
    rw [tally_cons, h a (by simp), ih fun b hb => h b (by simp [hb])]

/-- A pool where one process has all the weight. -/
theorem tally_eq_single {f : α → Nat} {l : List α} {i : Nat} {a : α} (h : l[i]? = some a)
    (hz : ∀ (j : Nat) b, j ≠ i → l[j]? = some b → f b = 0) : tally f l = f a := by
  induction l generalizing i with
  | nil => simp at h
  | cons x l ih =>
    rw [tally_cons]
    cases i with
    | zero =>
      obtain rfl : x = a := by simpa using h
      have hrest : tally f l = 0 := by
        refine tally_eq_zero fun b hb => ?_
        obtain ⟨j, hj⟩ := List.getElem?_of_mem hb
        exact hz (j + 1) b (by omega) (by simpa using hj)
      omega
    | succ i =>
      have hx := hz 0 x (by omega) (by simp)
      have := ih (i := i) (by simpa using h) fun j b hj hb =>
        hz (j + 1) b (by omega) (by simpa using hb)
      omega

/-- The tally of a test counts the entries that pass it. -/
theorem tally_toNat (p : α → Bool) (l : List α) : tally (fun a => (p a).toNat) l = l.countP p := by
  induction l with
  | nil => rfl
  | cons a l ih =>
    rw [tally_cons, ih, List.countP_cons]
    cases p a <;> simp [Nat.add_comm]

/-- A tally of smaller weights is smaller. -/
theorem tally_le_tally {f g : α → Nat} {l : List α} (h : ∀ a ∈ l, f a ≤ g a) :
    tally f l ≤ tally g l := by
  induction l with
  | nil => simp
  | cons a l ih =>
    have h1 := h a (by simp)
    have h2 := ih fun b hb => h b (by simp [hb])
    simp only [tally_cons]
    omega

/-- An element that differs from the one taken out stays. -/
theorem mem_eraseIdx_of_ne {l : List α} {i : Nat} {x y : α} (hx : x ∈ l)
    (hi : l[i]? = some y) (hne : x ≠ y) : x ∈ l.eraseIdx i := by
  obtain ⟨j, hj⟩ := List.mem_iff_getElem?.mp hx
  refine List.mem_eraseIdx_iff_getElem?.mpr ⟨j, ?_, hj⟩
  rintro rfl
  exact hne (Option.some.inj (hj.symm.trans hi))

/-- What is taken out is not the witness, so the witness stays. -/
theorem exists_mem_eraseIdx {P : α → Prop} {l : List α} {i : Nat} {y : α} (h : ∃ x ∈ l, P x)
    (hi : l[i]? = some y) (hy : ¬ P y) : ∃ x ∈ l.eraseIdx i, P x := by
  obtain ⟨x, hx, hP⟩ := h
  exact ⟨x, mem_eraseIdx_of_ne hx hi fun he => hy (he ▸ hP), hP⟩

/-- The entry of a replaced pool at `j`. -/
theorem getElem?_set_of_some {l : List α} {i : Nat} {a : α} (h : l[i]? = some a) (b : α)
    (j : Nat) : (l.set i b)[j]? = if j = i then some b else l[j]? := by
  have hi : i < l.length := (List.getElem?_eq_some_iff.mp h).1
  rw [List.getElem?_set]
  by_cases hij : j = i
  · subst hij
    simp [hi]
  · simp [hij, Ne.symm hij]

/-- A process replaced by itself. -/
theorem set_eq_self {l : List α} {i : Nat} {a : α} (h : l[i]? = some a) : l.set i a = l := by
  refine List.ext_getElem? fun j => ?_
  rw [getElem?_set_of_some h]
  split
  · rename_i hj
    rw [hj, h]
  · rfl

/-- A process that is not the one replaced is still in the pool. -/
theorem mem_set_of_mem {l : List α} {i : Nat} {a b : α} (h : l[i]? = some a) (a' : α)
    (hb : b ∈ l) : b = a ∨ b ∈ l.set i a' := by
  obtain ⟨j, hj⟩ := List.getElem?_of_mem hb
  by_cases hij : j = i
  · subst hij
    rw [h, Option.some.injEq] at hj
    exact .inl hj.symm
  · refine .inr (List.mem_of_getElem? (i := j) ?_)
    rw [getElem?_set_of_some h, if_neg hij]
    exact hj

/-- A process of a replaced pool is the new one, or it stands where it stood. -/
theorem mem_set_cases {l : List α} {i : Nat} {a a' b : α} (h : l[i]? = some a)
    (hb : b ∈ l.set i a') : b = a' ∨ ∃ j, j ≠ i ∧ l[j]? = some b := by
  obtain ⟨j, hj⟩ := List.getElem?_of_mem hb
  rw [getElem?_set_of_some h] at hj
  split at hj
  · exact .inl (Option.some.inj hj).symm
  · rename_i hji
    exact .inr ⟨j, hji, hj⟩

/-- The process that replaces another is in the pool. -/
theorem mem_set_of_some {l : List α} {i : Nat} {a : α} (h : l[i]? = some a) (a' : α) :
    a' ∈ l.set i a' :=
  List.mem_set (List.getElem?_eq_some_iff.mp h).1 a'

/-- When the weight falls at no other process, one replacement moves the tally from `f` to `g`
by at least the change at that process. -/
theorem tally_set_mono {f g : α → Nat} {l : List α} {i : Nat} {a : α} (h : l[i]? = some a)
    (b : α) (hfg : ∀ (j : Nat) c, j ≠ i → l[j]? = some c → f c ≤ g c) :
    tally f l + g b ≤ tally g (l.set i b) + f a := by
  induction l generalizing i with
  | nil => simp at h
  | cons x l ih =>
    cases i with
    | zero =>
      simp only [List.getElem?_cons_zero, Option.some.injEq] at h
      subst h
      have hle : tally f l ≤ tally g l := by
        refine tally_le_tally fun c hc => ?_
        obtain ⟨j, hj⟩ := List.mem_iff_getElem?.mp hc
        exact hfg (j + 1) c (by omega) (by simpa using hj)
      simp only [List.set_cons_zero, tally_cons]
      omega
    | succ i =>
      have hx := hfg 0 x (by omega) (by simp)
      have := ih (by simpa using h) fun j c hj hc => hfg (j + 1) c (by omega) (by simpa using hc)
      simp only [List.set_cons_succ, tally_cons]
      omega

/-- The optional attribute `f` of the process at `i`. -/
def attr {β : Type} (f : α → Option β) (l : List α) (i : Nat) : Option β := l[i]?.bind f

/-- An attribute of a known process. -/
theorem attr_of_some {β : Type} (f : α → Option β) {l : List α} {i : Nat} {a : α}
    (h : l[i]? = some a) : attr f l i = f a := by
  simp [attr, h]

/-- A replacement changes the attribute at one index. -/
theorem attr_set {β : Type} (f : α → Option β) {l : List α} {i : Nat} {a : α}
    (h : l[i]? = some a) (b : α) : attr f (l.set i b) = Function.update (attr f l) i (f b) := by
  funext j
  unfold attr
  rw [getElem?_set_of_some h]
  by_cases hj : j = i
  · subst hj
    simp
  · simp [hj]

/-- A replacement that keeps the attribute changes nothing. -/
theorem attr_set_of_eq {β : Type} (f : α → Option β) {l : List α} {i : Nat} {a b : α}
    (h : l[i]? = some a) (hf : f b = f a) : attr f (l.set i b) = attr f l := by
  rw [attr_set f h, hf, ← attr_of_some f h, Function.update_eq_self]

/-- A process that arrives brings its attribute to the index after the last one. -/
theorem attr_append {β : Type} (f : α → Option β) (l : List α) (a : α) :
    attr f (l ++ [a]) = Function.update (attr f l) l.length (f a) := by
  funext j
  rw [Function.update_apply]
  unfold attr
  rw [List.getElem?_append]
  split
  · rename_i hj
    rw [if_neg (Nat.ne_of_lt hj)]
  · rename_i hj
    by_cases h0 : j = l.length
    · simp [h0]
    · rw [if_neg h0, List.getElem?_eq_none (by simp; omega), List.getElem?_eq_none (by omega)]

/-- A process that arrives without the attribute changes nothing. -/
theorem attr_append_of_none {β : Type} (f : α → Option β) (l : List α) {a : α}
    (hf : f a = none) : attr f (l ++ [a]) = attr f l := by
  have hnone : attr f l l.length = none := by simp [attr]
  rw [attr_append, hf, ← hnone, Function.update_eq_self]

/-- The process at `j` of a pool that grew. -/
theorem getElem?_append_singleton {l : List α} {a b : α} {j : Nat}
    (h : (l ++ [a])[j]? = some b) : l[j]? = some b ∨ j = l.length ∧ b = a := by
  rw [List.getElem?_append] at h
  split at h
  · exact .inl h
  · right
    have hj := (List.getElem?_eq_some_iff.mp h).1
    simp only [List.length_singleton] at hj
    have h0 : j - l.length = 0 := by omega
    rw [h0] at h
    simp only [List.getElem?_cons_zero, Option.some.injEq] at h
    exact ⟨by omega, h.symm⟩

/-! ### Exclusive resources -/

/-- No two holders hold one resource. -/
def Exclusive {ι β : Type} (f : ι → Option β) : Prop :=
  ∀ i j b, f i = some b → f j = some b → i = j

/-- A holder that gives its resource up. -/
theorem Exclusive.update_none {ι β : Type} [DecidableEq ι] {f : ι → Option β}
    (h : Exclusive f) (i : ι) : Exclusive (Function.update f i none) := by
  intro j k b hj hk
  rw [Function.update_apply] at hj hk
  split at hj
  · cases hj
  · split at hk
    · cases hk
    · exact h j k b hj hk

/-- A holder that takes a resource nobody else holds. -/
theorem Exclusive.update_some {ι β : Type} [DecidableEq ι] {f : ι → Option β}
    (h : Exclusive f) {i : ι} {b : β} (hb : ∀ j, j ≠ i → f j ≠ some b) :
    Exclusive (Function.update f i (some b)) := by
  intro j k c hj hk
  rw [Function.update_apply] at hj hk
  split at hj <;> split at hk
  · rename_i hji hki
    rw [hji, hki]
  · rename_i hki
    cases hj
    exact absurd hk (hb k hki)
  · rename_i hji _
    cases hk
    exact absurd hj (hb j hji)
  · exact h j k c hj hk

end Nagoya.Lib
