import Mathlib.Data.List.Infix
import Nagoya.Lib.Pool
import Nagoya.Reactor.Descriptors

/-!
# `Nagoya.Proofs.Reactor.Descriptors`: who is in the poller

A registration is removed from the poller by its number. That is safe while the number is still
held: nobody else can have it. `Inv.kept` says that a number has one keeper, an owner or the
process, and `Inv.fd_ne` that two owners that are attached to their numbers have different
ones.

`TcpStream` and `TcpListener` close the descriptor first and remove the number afterwards. In
between they are stale. `registration_torn_out` is a run where the number is opened and
registered in that window, and the removal takes the new registration out of the poller.

`registrations_kept` is the positive side: it holds in every run that registers no number of
which a stale owner's removal is outstanding.
-/

set_option autoImplicit false

namespace Nagoya.Reactor

open Nagoya.Lib

namespace Descriptors

/-! ### What an owner holds -/

/-- The signal number of a `Signal`. -/
def Kind.number : Kind → Option Nat
  | .signal number => some number
  | _ => none

theorem Kind.number_eq_none {kind : Kind} (h : ∀ n, kind = .signal n → False) :
    kind.number = none := by
  cases kind <;> first | rfl | exact absurd rfl (h _)

/-- What may be left of a drop. -/
def Kind.endings (kind : Kind) : List (List DropStep) :=
  kind.drop.tails ++ (DropStep.slotsRemove :: kind.unregistered).tails

/-- The number that the owner itself keeps open. -/
def Owner.held (o : Owner) : Option Nat :=
  match o.phase with
  | .claimed => none
  | .created => some o.fd
  | .opened | .indexed | .inserted | .live =>
    match o.kind with
    | .signal _ => none
    | _ => some o.fd
  | .dropping rest => if .close ∈ rest then some o.fd else none

/-- The signal whose descriptor in `FDS` the owner has registered or is about to register. -/
def Owner.shared (o : Owner) : Option Nat :=
  match o.phase with
  | .claimed | .created => none
  | .opened | .indexed | .inserted | .live => o.kind.number
  | .dropping rest => if .pollerRemove ∈ rest then o.kind.number else none

/-- The signal number that the owner has claimed. -/
def Owner.claim (o : Owner) : Option Nat :=
  match o.phase with
  | .dropping rest => if .releaseClaim ∈ rest then o.kind.number else none
  | _ => o.kind.number

/-- The owner has closed its descriptor and will still remove the number from the poller. -/
def Owner.stale (o : Owner) : Bool := o.phase = .dropping [.pollerRemove, .slotsRemove]

/-- The owner's number cannot be anyone else's: it keeps the number open, or the process does
for a signal that the owner has claimed. -/
def Owner.Attached (o : Owner) : Prop :=
  o.held = some o.fd ∨ ∃ n, o.shared = some n ∧ o.claim = some n

/-- Who keeps a number open. -/
inductive Holder where
  | owner (i : Nat)
  | process (number : Nat)
  deriving DecidableEq

/-- The number that a holder keeps open. -/
def keeper (s : State) : Holder → Option Nat
  | .owner i => attr Owner.held s.owners i
  | .process number => s.fds number

/-- Replacing an owner changes what that owner keeps. -/
theorem keeper_set {s s' : State} {i : Nat} {o n : Owner} (hi : s.owners[i]? = some o)
    (hs : s'.owners = s.owners.set i n) (hf : s'.fds = s.fds) :
    keeper s' = Function.update (keeper s) (.owner i) n.held := by
  funext x
  cases x with
  | owner j => by_cases hj : j = i <;> simp [keeper, hs, attr_set Owner.held hi, hj]
  | process m => simp [keeper, hf]

/-- A new owner keeps what it brings. -/
theorem keeper_append {s s' : State} {o : Owner} (hs : s'.owners = s.owners ++ [o])
    (hf : s'.fds = s.fds) :
    keeper s' = Function.update (keeper s) (.owner s.owners.length) o.held := by
  funext x
  cases x with
  | owner j =>
    by_cases hj : j = s.owners.length <;> simp [keeper, hs, attr_append Owner.held, hj]
  | process m => simp [keeper, hf]

/-- An owner that is ready to register, or registered, is attached. -/
theorem Owner.attached_of_ready {o : Owner} (h : o.phase = .inserted ∨ o.phase = .live) :
    o.Attached := by
  rcases h with h | h <;> cases hk : o.kind <;>
    simp [Attached, held, shared, claim, Kind.number, h, hk]

/-- What is left of a drop after one of its steps. A signal's descriptor is not closed, its claim
is released after the removal, and only a removal after the close is stale. -/
theorem Kind.endings_cons {kind : Kind} {d : DropStep} {rest : List DropStep}
    (h : d :: rest ∈ kind.endings) :
    rest ∈ kind.endings ∧
    (d = .close → kind.number = none ∧ .close ∉ rest) ∧
    (d = .pollerRemove →
      kind.number = none ∧ .close ∈ rest ∧ .pollerRemove ∉ rest ∨
      kind.number = none ∧ rest = [.slotsRemove] ∨
      kind.number ≠ none ∧ .close ∉ rest ∧ .pollerRemove ∉ rest ∧ .releaseClaim ∈ rest) ∧
    (d = .releaseClaim → rest = []) ∧
    (d ≠ .close → rest ≠ [.pollerRemove, .slotsRemove]) := by
  cases kind with
  | signal number =>
    simp [Kind.endings, Kind.drop, Kind.dropSelf, Kind.fields, Field.drop,
      Kind.unregistered] at h
    rcases h with ⟨rfl, rfl⟩ | ⟨rfl, rfl⟩ | ⟨rfl, rfl⟩ | ⟨rfl, rfl⟩ | ⟨rfl, rfl⟩ | ⟨rfl, rfl⟩ |
      ⟨rfl, rfl⟩ <;>
      simp [Kind.endings, Kind.drop, Kind.dropSelf, Kind.fields, Field.drop, Kind.number,
        Kind.unregistered]
  | _ =>
    simp [Kind.endings, Kind.drop, Kind.dropSelf, Kind.fields, Field.drop, Kind.number,
      Kind.unregistered] at h ⊢
    grind

/-- What is true of one owner. -/
structure OwnerOk (s : State) (o : Owner) : Prop where
  ending : ∀ rest, o.phase = .dropping rest → rest ∈ o.kind.endings
  created : ∀ n, o.phase = .created → o.kind.number = some n → s.fds n = none
  shared : ∀ n, o.shared = some n → s.fds n = some o.fd
  live : o.phase = .live → s.kernel.interest o.fd = some o.token

/-- The invariant of the system. -/
structure Inv (s : State) : Prop where
  opened : ∀ h n, keeper s h = some n → s.kernel.isOpen n = true
  kept : Exclusive (keeper s)
  claims : Exclusive (attr Owner.claim s.owners)
  claimed : ∀ i n, attr Owner.claim s.owners i = some n → s.claimed n = true
  owner : ∀ (i : Nat) o, s.owners[i]? = some o → OwnerOk s o
  stale : ∀ (i j : Nat) o p, s.owners[i]? = some o → s.owners[j]? = some p → o.stale = true →
    p.phase = .live → o.fd ≠ p.fd

/-- Nothing is registered at first. -/
theorem inv_init (s : State) (backend : Backend) (h : (system backend).init s) : Inv s := by
  obtain ⟨isOpen, rfl⟩ := h
  have hnone : ∀ h, keeper (new isOpen) h = none := by
    intro h
    cases h <;> rfl
  exact
    { opened := fun h n hn => by simp [hnone] at hn
      kept := fun h h' n hn => by simp [hnone] at hn
      claims := fun i j n hn => by simp [new, attr] at hn
      claimed := fun i n hn => by simp [new, attr] at hn
      owner := fun i o ho => by simp [new] at ho
      stale := fun i j o p ho => by simp [new] at ho }

/-- Two attached owners have different numbers. -/
theorem Inv.fd_ne {s : State} (h : Inv s) {i j : Nat} {o p : Owner} (hi : s.owners[i]? = some o)
    (hj : s.owners[j]? = some p) (hij : j ≠ i) (ho : o.Attached) (hp : p.Attached) :
    o.fd ≠ p.fd := by
  intro hfd
  have hio := attr_of_some Owner.held hi
  have hjp := attr_of_some Owner.held hj
  -- Each of the two keeps its number open itself, or the process does for its signal.
  rcases ho with ho | ⟨n, ho, hco⟩ <;> rcases hp with hp | ⟨m, hp, hcp⟩
  · have := h.kept (.owner i) (.owner j) o.fd (hio.trans ho) (hjp.trans (hfd ▸ hp))
    cases this
    exact hij rfl
  · have := h.kept (.owner i) (.process m) o.fd (hio.trans ho)
      (hfd ▸ (h.owner j p hj).shared m hp)
    cases this
  · have := h.kept (.process n) (.owner j) o.fd ((h.owner i o hi).shared n ho)
      (hjp.trans (hfd ▸ hp))
    cases this
  · -- One signal number: its claim is held once.
    have := h.kept (.process n) (.process m) o.fd ((h.owner i o hi).shared n ho)
      (hfd ▸ (h.owner j p hj).shared m hp)
    cases this
    exact hij (h.claims j i n ((attr_of_some Owner.claim hj).trans hcp)
      ((attr_of_some Owner.claim hi).trans hco))

/-! ### The steps -/

/-- What is left to show when one owner is replaced. `hopened` to `hclaimed` are about what is
kept and claimed after the step. -/
theorem Inv.replace {s s' : State} (h : Inv s) {i : Nat} {o n : Owner}
    (hi : s.owners[i]? = some o) (hs : s'.owners = s.owners.set i n)
    (hopened : ∀ x m, keeper s' x = some m → s'.kernel.isOpen m = true)
    (hkept : Exclusive (keeper s'))
    (hclaims : Exclusive (Function.update (attr Owner.claim s.owners) i n.claim))
    (hclaimed : ∀ j m, Function.update (attr Owner.claim s.owners) i n.claim j = some m →
      s'.claimed m = true)
    (hown : OwnerOk s' n) (hothers : ∀ (j : Nat) p, j ≠ i → s.owners[j]? = some p → OwnerOk s' p)
    (hstale : ∀ (j : Nat) p, j ≠ i → s.owners[j]? = some p → n.stale = true → p.phase = .live →
      n.fd ≠ p.fd)
    (hlive : ∀ (j : Nat) p, j ≠ i → s.owners[j]? = some p → p.stale = true → n.phase = .live →
      p.fd ≠ n.fd) : Inv s' where
  opened := hopened
  kept := hkept
  claims := by
    rw [hs, attr_set Owner.claim hi]
    exact hclaims
  claimed := by
    rw [hs, attr_set Owner.claim hi]
    exact hclaimed
  owner j p hj := by
    rw [hs, getElem?_set_of_some hi] at hj
    split at hj
    · cases hj
      exact hown
    · rename_i hne
      exact hothers j p hne hj
  stale j k p q hj hk hp hq := by
    rw [hs, getElem?_set_of_some hi] at hj hk
    split at hj <;> split at hk
    · -- The owner itself is not stale and live at once.
      cases hj
      cases hk
      simp [Owner.stale, hq] at hp
    · rename_i hne
      cases hj
      exact hstale k q hne hk hp hq
    · rename_i hne _
      cases hk
      exact hlive j p hne hj hp hq
    · exact h.stale j k p q hj hk hp hq

/-- What is left to show when one owner is replaced and `FDS` stays as it is. -/
theorem Inv.set {s s' : State} (h : Inv s) {i : Nat} {o n : Owner}
    (hi : s.owners[i]? = some o) (hs : s'.owners = s.owners.set i n) (hf : s'.fds = s.fds)
    (hopened : ∀ x m, Function.update (keeper s) (.owner i) n.held x = some m →
      s'.kernel.isOpen m = true)
    (hkept : Exclusive (Function.update (keeper s) (.owner i) n.held))
    (hclaims : Exclusive (Function.update (attr Owner.claim s.owners) i n.claim))
    (hclaimed : ∀ j m, Function.update (attr Owner.claim s.owners) i n.claim j = some m →
      s'.claimed m = true)
    (hown : OwnerOk s' n)
    (hinterest : ∀ (j : Nat) p, j ≠ i → s.owners[j]? = some p → p.phase = .live →
      s'.kernel.interest p.fd = s.kernel.interest p.fd)
    (hstale : ∀ (j : Nat) p, j ≠ i → s.owners[j]? = some p → n.stale = true → p.phase = .live →
      n.fd ≠ p.fd)
    (hlive : ∀ (j : Nat) p, j ≠ i → s.owners[j]? = some p → p.stale = true → n.phase = .live →
      p.fd ≠ n.fd) : Inv s' := by
  refine h.replace hi hs ?_ ?_ hclaims hclaimed hown (fun j p hji hj => ?_) hstale hlive
  · rw [keeper_set hi hs hf]
    exact hopened
  · rw [keeper_set hi hs hf]
    exact hkept
  · have hp := h.owner j p hj
    exact ⟨hp.ending, hf ▸ hp.created, hf ▸ hp.shared,
      fun hl => (hinterest j p hji hj hl).trans (hp.live hl)⟩

/-- An owner that keeps the same number as before. -/
theorem update_keeper_of_eq {s : State} {i : Nat} {o n : Owner}
    (hi : s.owners[i]? = some o) (hheld : n.held = o.held) :
    Function.update (keeper s) (.owner i) n.held = keeper s := by
  rw [hheld, ← attr_of_some Owner.held hi]
  exact Function.update_eq_self (.owner i) (keeper s)

/-- An owner that claims the same number as before. -/
theorem update_claim_of_eq {s : State} {i : Nat} {o n : Owner}
    (hi : s.owners[i]? = some o) (hclaim : n.claim = o.claim) :
    Function.update (attr Owner.claim s.owners) i n.claim = attr Owner.claim s.owners := by
  rw [hclaim, ← attr_of_some Owner.claim hi, Function.update_eq_self]

/-- What is left to show when one owner is replaced by one that keeps and claims the same, and no
number is opened or closed. -/
theorem Inv.setSame {s s' : State} (h : Inv s) {i : Nat} {o n : Owner}
    (hi : s.owners[i]? = some o) (hs : s'.owners = s.owners.set i n)
    (hopen : s'.kernel.isOpen = s.kernel.isOpen) (hf : s'.fds = s.fds)
    (hc : s'.claimed = s.claimed) (hheld : n.held = o.held) (hclaim : n.claim = o.claim)
    (hown : OwnerOk s' n)
    (hinterest : ∀ (j : Nat) p, j ≠ i → s.owners[j]? = some p → p.phase = .live →
      s'.kernel.interest p.fd = s.kernel.interest p.fd)
    (hstale : n.stale = false)
    (hlive : ∀ (j : Nat) p, j ≠ i → s.owners[j]? = some p → p.stale = true → n.phase = .live →
      p.fd ≠ n.fd) : Inv s' := by
  have hkeeper := update_keeper_of_eq hi hheld
  have hclaims := update_claim_of_eq hi hclaim
  refine h.set hi hs hf ?_ ?_ ?_ ?_ hown hinterest (fun _ _ _ _ hp => ?_) hlive
  · rw [hkeeper, hopen]
    exact h.opened
  · rw [hkeeper]
    exact h.kept
  · rw [hclaims]
    exact h.claims
  · rw [hclaims, hc]
    exact h.claimed
  · simp [hstale] at hp

/-- A step that changes one owner and neither the kernel nor what the owner keeps and claims. -/
theorem Inv.put {s s' : State} (h : Inv s) {i : Nat} {o n : Owner} (hi : s.owners[i]? = some o)
    (hs : s'.owners = s.owners.set i n) (hk : s'.kernel = s.kernel) (hf : s'.fds = s.fds)
    (hc : s'.claimed = s.claimed) (hheld : n.held = o.held) (hclaim : n.claim = o.claim)
    (hending : ∀ rest, n.phase = .dropping rest → rest ∈ n.kind.endings)
    (hcreated : n.phase ≠ .created) (hshared : ∀ k, n.shared = some k → s.fds k = some n.fd)
    (hlive : n.phase ≠ .live) (hstale : n.stale = false) : Inv s' :=
  h.setSame hi hs (by rw [hk]) hf hc hheld hclaim
    ⟨hending, fun _ hp => absurd hp hcreated, hf ▸ hshared, fun hp => absurd hp hlive⟩
    (fun _ _ _ _ _ => by rw [hk]) hstale (fun _ _ _ _ _ hp => absurd hp hlive)

/-- What is left to show when an owner arrives. -/
theorem Inv.append {s s' : State} (h : Inv s) {o : Owner} (hs : s'.owners = s.owners ++ [o])
    (hf : s'.fds = s.fds) (hi : s'.kernel.interest = s.kernel.interest)
    (hopened : ∀ x m, Function.update (keeper s) (.owner s.owners.length) o.held x = some m →
      s'.kernel.isOpen m = true)
    (hkept : Exclusive (Function.update (keeper s) (.owner s.owners.length) o.held))
    (hclaims : Exclusive (Function.update (attr Owner.claim s.owners) s.owners.length o.claim))
    (hclaimed : ∀ i m, Function.update (attr Owner.claim s.owners) s.owners.length o.claim i =
      some m → s'.claimed m = true)
    (hphase : o.phase = .claimed ∨ o.phase = .opened ∧ o.kind.number = none) : Inv s' where
  opened := by
    rw [keeper_append hs hf]
    exact hopened
  kept := by
    rw [keeper_append hs hf]
    exact hkept
  claims := by
    rw [hs, attr_append]
    exact hclaims
  claimed := by
    rw [hs, attr_append]
    exact hclaimed
  owner j p hj := by
    rw [hs] at hj
    rcases getElem?_append_singleton hj with hj | ⟨-, rfl⟩
    · have hp := h.owner j p hj
      exact ⟨hp.ending, hf ▸ hp.created, hf ▸ hp.shared, hi ▸ hp.live⟩
    · rcases hphase with hp | ⟨hp, hn⟩
      · exact ⟨by simp [hp], by simp [hp], by simp [Owner.shared, hp], by simp [hp]⟩
      · exact ⟨by simp [hp], by simp [hp], by simp [Owner.shared, hp, hn], by simp [hp]⟩
  stale j k p q hj hk hp hq := by
    rw [hs] at hj hk
    rcases getElem?_append_singleton hj with hj | ⟨-, rfl⟩
    · rcases getElem?_append_singleton hk with hk | ⟨-, rfl⟩
      · exact h.stale j k p q hj hk hp hq
      · rcases hphase with hn | ⟨hn, -⟩ <;> simp [hn] at hq
    · rcases hphase with hn | ⟨hn, -⟩ <;> simp [Owner.stale, hn] at hp

/-- A number that was free goes to one holder. -/
theorem Inv.open_free {s : State} (h : Inv s) {fd : Nat} (hfree : s.kernel.isOpen fd = false)
    (x : Holder) :
    (∀ y n, Function.update (keeper s) x (some fd) y = some n →
      Function.update s.kernel.isOpen fd true n = true) ∧
    Exclusive (Function.update (keeper s) x (some fd)) := by
  constructor
  · intro y n hy
    rw [Function.update_apply] at hy ⊢
    split
    · rfl
    · rename_i hn
      split at hy
      · cases hy
        exact absurd rfl hn
      · exact h.opened y n hy
  · refine h.kept.update_some fun y _ hy => ?_
    have := h.opened y fd hy
    simp [hfree] at this

theorem Kernel.openAt_eq_some {k k' : Kernel} {fd : Nat} (h : k.openAt fd = some k') :
    k.isOpen fd = false ∧ k' = ⟨Function.update k.isOpen fd true, k.interest⟩ := by
  unfold Kernel.openAt at h
  split at h
  · cases h
  · rename_i hfree
    cases h
    exact ⟨by simpa using hfree, rfl⟩

/-- Someone opens a descriptor. -/
theorem inv_openAt {s : State} (h : Inv s) {kind : Kind} {fd : Nat} {kernel : Kernel}
    (hkind : kind.number = none) (hk : s.kernel.openAt fd = some kernel) :
    Inv { s with
      kernel := kernel
      owners := s.owners ++ [{ kind, fd, index := 0, token := 0, phase := .opened }] } := by
  obtain ⟨hfree, rfl⟩ := Kernel.openAt_eq_some hk
  obtain ⟨hopened, hkept⟩ := h.open_free hfree (.owner s.owners.length)
  have hheld : Owner.held { kind, fd, index := 0, token := 0, phase := .opened } = some fd := by
    cases kind <;> first | rfl | simp [Kind.number] at hkind
  have hclaim : Function.update (attr Owner.claim s.owners) s.owners.length kind.number =
      attr Owner.claim s.owners := by
    rw [hkind, Function.update_eq_self_iff]
    simp [attr]
  exact h.append rfl rfl rfl (by rw [hheld]; exact hopened) (by rw [hheld]; exact hkept)
    (by simp only [Owner.claim, hclaim]; exact h.claims)
    (by simp only [Owner.claim, hclaim]; exact h.claimed) (.inr ⟨rfl, hkind⟩)

/-- A waiter for a signal claims its number. -/
theorem inv_acquire {s : State} (h : Inv s) {number : Nat} (hfree : s.claimed number = false) :
    Inv { s with
      claimed := Function.update s.claimed number true
      owners := s.owners ++
        [{ kind := .signal number, fd := 0, index := 0, token := 0, phase := .claimed }] } := by
  have hkeeper : Function.update (keeper s) (.owner s.owners.length) none = keeper s := by
    rw [Function.update_eq_self_iff]
    simp [keeper, attr]
  refine h.append rfl rfl rfl (by simp only [Owner.held, hkeeper]; exact h.opened)
    (by simp only [Owner.held, hkeeper]; exact h.kept) ?_ ?_ (.inl rfl)
  · refine h.claims.update_some fun j _ hj => ?_
    have := h.claimed j number hj
    simp [hfree] at this
  · intro j m hj
    show Function.update s.claimed number true m = true
    rw [Function.update_apply] at hj ⊢
    split
    · rfl
    · rename_i hm
      split at hj
      · simp only [Owner.claim, Kind.number, Option.some.injEq] at hj
        exact absurd hj.symm hm
      · exact h.claimed j m hj

/-- `platform::arm` finds the descriptor that the process has for the signal. -/
theorem inv_arm {s : State} (h : Inv s) {i fd number : Nat} {o : Owner}
    (hi : s.owners[i]? = some o) (hphase : o.phase = .claimed) (hkind : o.kind = .signal number)
    (hfd : s.fds number = some fd) : Inv (s.put i { o with fd, phase := .opened }) := by
  refine h.put hi rfl rfl rfl rfl ?_ ?_ (by simp) (by simp) (fun k hk => ?_) (by simp) rfl
  · simp [Owner.held, hphase, hkind]
  · simp [Owner.claim, hphase]
  · simp only [Owner.shared, hkind, Kind.number, Option.some.injEq] at hk
    rw [← hk]
    exact hfd

/-- `platform::arm` fails, and the claim is all that is given back. -/
theorem inv_createFailed {s : State} (h : Inv s) {i number : Nat} {o : Owner}
    (hi : s.owners[i]? = some o) (hphase : o.phase = .claimed) (hkind : o.kind = .signal number) :
    Inv (s.put i { o with phase := .dropping [.releaseClaim] }) := by
  refine h.put hi rfl rfl rfl rfl ?_ ?_ (fun rest hr => ?_) (by simp) (fun k hk => ?_)
    (by simp) rfl
  · simp [Owner.held, hphase]
  · simp [Owner.claim, hphase]
  · cases hr
    simp [hkind, Kind.endings, Kind.unregistered]
  · simp [Owner.shared] at hk

/-- An owner that is not a signal's gives up before it is registered, and closes its
descriptor. -/
theorem inv_abandon {s : State} (h : Inv s) {i : Nat} {o : Owner} (hi : s.owners[i]? = some o)
    (hphase : o.phase = .opened) (hsig : ∀ number, o.kind = .signal number → False) :
    Inv (s.put i { o with phase := .dropping o.kind.unregistered }) := by
  have hkind : o.kind.unregistered = [.close] := by
    cases hk : o.kind <;> first | rfl | exact absurd hk (hsig _)
  refine h.put hi rfl rfl rfl rfl ?_ ?_ (fun rest hr => ?_) (by simp) (fun k hk => ?_)
    (by simp) ?_
  · cases hk : o.kind <;> simp [Owner.held, hphase, hk, Kind.unregistered]
  · cases hk : o.kind <;> simp [Owner.claim, hphase, hk, Kind.unregistered, Kind.number]
  · cases hr
    simp [Kind.endings, List.mem_tails]
  · simp [Owner.shared, hkind] at hk
  · simp [Owner.stale, hkind]

/-- `platform::arm` opens a descriptor for a signal that has none yet. -/
theorem inv_create {s : State} (h : Inv s) {i fd number : Nat} {o : Owner} {kernel : Kernel}
    (hi : s.owners[i]? = some o) (hphase : o.phase = .claimed) (hkind : o.kind = .signal number)
    (hnone : s.fds number = none) (hk : s.kernel.openAt fd = some kernel) :
    Inv ({ s with kernel := kernel }.put i { o with fd := fd, phase := .created }) := by
  obtain ⟨hfree, rfl⟩ := Kernel.openAt_eq_some hk
  obtain ⟨hopened, hkept⟩ := h.open_free hfree (.owner i)
  have hclaim : Owner.claim { o with fd := fd, phase := .created } = o.claim := by
    simp [Owner.claim, hphase]
  refine h.set hi rfl rfl hopened hkept (by rw [update_claim_of_eq hi hclaim]; exact h.claims)
    (by rw [update_claim_of_eq hi hclaim]; exact h.claimed)
    ⟨by simp, fun m _ hm => ?_, by simp [Owner.shared], by simp⟩ (fun _ _ _ _ _ => rfl)
    (fun _ _ _ _ hn => by simp [Owner.stale] at hn) (fun _ _ _ _ _ hn => by simp at hn)
  simp only [hkind, Kind.number, Option.some.injEq] at hm
  rw [← hm]
  exact hnone

/-- `platform::arm` publishes the descriptor: the process keeps it from here on. -/
theorem inv_store {s : State} (h : Inv s) {i number : Nat} {o : Owner}
    (hi : s.owners[i]? = some o) (hphase : o.phase = .created) (hkind : o.kind = .signal number) :
    Inv ({ s with fds := Function.update s.fds number (some o.fd) }.put i
      { o with phase := .opened }) := by
  have hnumber : o.kind.number = some number := by rw [hkind]; rfl
  have hnone : s.fds number = none := (h.owner i o hi).created number hphase hnumber
  have hheld : keeper s (.owner i) = some o.fd := by
    simp [keeper, attr_of_some Owner.held hi, Owner.held, hphase]
  have hclaim : Owner.claim { o with phase := .opened } = o.claim := by
    simp [Owner.claim, hphase]
  have hclaimed : attr Owner.claim s.owners i = some number := by
    simp [attr_of_some Owner.claim hi, Owner.claim, hphase, hnumber]
  -- The number passes from the owner to the process.
  have hkeeper : keeper ({ s with fds := Function.update s.fds number (some o.fd) }.put i
      { o with phase := .opened }) =
      Function.update (Function.update (keeper s) (.owner i) none) (.process number)
        (some o.fd) := by
    funext x
    cases x with
    | owner j =>
      by_cases hj : j = i <;>
        simp [keeper, State.put, attr_set Owner.held hi, Owner.held, hkind, hj]
    | process m => by_cases hm : m = number <;> simp [keeper, State.put, hm]
  refine h.replace hi rfl ?_ ?_ (by rw [update_claim_of_eq hi hclaim]; exact h.claims)
    (by rw [update_claim_of_eq hi hclaim]; exact h.claimed) ⟨by simp, by simp, ?_, by simp⟩
    (fun j p hji hj => ?_) (fun _ _ _ _ hn => by simp [Owner.stale] at hn)
    (fun _ _ _ _ _ hn => by simp at hn)
  · rw [hkeeper]
    intro x m hx
    rw [Function.update_apply, Function.update_apply] at hx
    split at hx
    · cases hx
      exact h.opened (.owner i) o.fd hheld
    · split at hx
      · cases hx
      · exact h.opened x m hx
  · rw [hkeeper]
    refine (h.kept.update_none _).update_some fun x _ hx => ?_
    rw [Function.update_apply] at hx
    split at hx
    · cases hx
    · rename_i hne
      exact hne (h.kept x (.owner i) o.fd hx hheld)
  · intro m hm
    simp only [Owner.shared, hnumber, Option.some.injEq] at hm
    simp [State.put, hm]
  · have hp := h.owner j p hj
    -- Nobody else has claimed this number.
    have hother : ∀ m, p.claim = some m → m ≠ number := fun m hm he =>
      hji (h.claims j i number ((attr_of_some Owner.claim hj).trans (he ▸ hm)) hclaimed)
    refine ⟨hp.ending, fun m hpm hm => ?_, fun m hm => ?_, hp.live⟩
    · have hne := hother m (by simpa [Owner.claim, hpm] using hm)
      simpa [State.put, hne] using hp.created m hpm hm
    · have hfm := hp.shared m hm
      have hne : m ≠ number := by
        rintro rfl
        simp [hnone] at hfm
      simpa [State.put, hne] using hfm

theorem Kernel.add_eq_some {k k' : Kernel} {backend : Backend} {fd token : Nat} {refused : Bool}
    (h : k.add backend fd token refused = some k') :
    k' = ⟨k.isOpen, Function.update k.interest fd (some token)⟩ := by
  unfold Kernel.add at h
  split at h
  · cases h
  · cases h
    rfl

/-- `Handle::register` puts a number into the poller that no stale owner will remove. -/
theorem inv_add {s : State} (h : Inv s) {i : Nat} {o : Owner} {kernel : Kernel}
    {backend : Backend} {refused : Bool} (hi : s.owners[i]? = some o) (hphase : o.phase = .inserted)
    (hk : s.kernel.add backend o.fd o.token refused = some kernel)
    (hok : ∀ p ∈ s.owners, p.stale = true → p.fd ≠ o.fd) :
    Inv ({ s with kernel := kernel }.put i { o with phase := .live }) := by
  rw [Kernel.add_eq_some hk]
  have hheld : Owner.held { o with phase := .live } = o.held := by simp [Owner.held, hphase]
  have hclaim : Owner.claim { o with phase := .live } = o.claim := by simp [Owner.claim, hphase]
  refine h.setSame hi rfl rfl rfl rfl hheld hclaim
    ⟨by simp, by simp, fun m hm => ?_, fun _ => by simp [State.put]⟩
    (fun j p hji hj hl => ?_) rfl (fun j p _ hj hp _ => hok p (List.mem_of_getElem? hj) hp)
  · exact (h.owner i o hi).shared m (by simpa [Owner.shared, hphase] using hm)
  · -- Another live owner has another number, and keeps its entry.
    have hne := h.fd_ne hi hj hji (Owner.attached_of_ready (.inl hphase))
      (Owner.attached_of_ready (.inr hl))
    simp [State.put, Ne.symm hne]

/-- The owner closes its descriptor, which nobody else is attached to. -/
theorem inv_close {s : State} (h : Inv s) {i : Nat} {o : Owner} {rest : List DropStep}
    (hi : s.owners[i]? = some o) (hphase : o.phase = .dropping (.close :: rest)) :
    Inv ((dropStep s o .close).put i { o with phase := .dropping rest }) := by
  obtain ⟨htail, hclose, -⟩ := Kind.endings_cons ((h.owner i o hi).ending _ hphase)
  obtain ⟨hnumber, hnot⟩ := hclose rfl
  have hheld : o.held = some o.fd := by simp [Owner.held, hphase]
  have hgone : Owner.held { o with phase := .dropping rest } = none := by simp [Owner.held, hnot]
  have hclaim : Owner.claim { o with phase := .dropping rest } = o.claim := by
    simp [Owner.claim, hphase, hnumber]
  have hne : ∀ (j : Nat) p, j ≠ i → s.owners[j]? = some p → p.phase = .live → o.fd ≠ p.fd :=
    fun j p hji hj hl => h.fd_ne hi hj hji (.inl hheld) (Owner.attached_of_ready (.inr hl))
  refine h.set hi rfl rfl (fun x m hx => ?_) (by rw [hgone]; exact h.kept.update_none _)
    (by rw [update_claim_of_eq hi hclaim]; exact h.claims)
    (by rw [update_claim_of_eq hi hclaim]; exact h.claimed)
    ⟨fun r hr => ?_, by simp, by simp [Owner.shared, hnumber], by simp⟩
    (fun j p hji hj hl => ?_) (fun j p hji hj _ hl => hne j p hji hj hl) (by simp)
  · rw [hgone, Function.update_apply] at hx
    split at hx
    · cases hx
    · rename_i hxi
      -- A number that is still kept is not the closed one.
      have hm : m ≠ o.fd := by
        rintro rfl
        exact hxi (h.kept x (.owner i) o.fd hx ((attr_of_some Owner.held hi).trans hheld))
      simpa [dropStep, State.put, Kernel.close, hm] using h.opened x m hx
  · cases hr
    exact htail
  · simp [dropStep, State.put, Kernel.close, Ne.symm (hne j p hji hj hl)]

/-- The owner takes its number out of the poller. It is attached to the number, or stale, and
then nobody that is live has it. -/
theorem inv_pollerRemove {s : State} (h : Inv s) {i : Nat} {o : Owner} {rest : List DropStep}
    (hi : s.owners[i]? = some o) (hphase : o.phase = .dropping (.pollerRemove :: rest)) :
    Inv ((dropStep s o .pollerRemove).put i { o with phase := .dropping rest }) := by
  obtain ⟨htail, -, hremove, -, hstale⟩ := Kind.endings_cons ((h.owner i o hi).ending _ hphase)
  have hheld : Owner.held { o with phase := .dropping rest } = o.held := by
    simp [Owner.held, hphase]
  have hclaim : Owner.claim { o with phase := .dropping rest } = o.claim := by
    simp [Owner.claim, hphase]
  have hne : ∀ (j : Nat) p, j ≠ i → s.owners[j]? = some p → p.phase = .live → o.fd ≠ p.fd := by
    intro j p hji hj hl
    have hp := Owner.attached_of_ready (.inr hl)
    -- The descriptor is still to be closed, or it is closed, or it is a signal's.
    rcases hremove rfl with ⟨-, hc, -⟩ | ⟨-, rfl⟩ | ⟨hn, -, -, hr⟩
    · exact h.fd_ne hi hj hji (.inl (by simp [Owner.held, hphase, hc])) hp
    · exact h.stale i j o p hi hj (by simp [Owner.stale, hphase]) hl
    · obtain ⟨n, hn⟩ := Option.ne_none_iff_exists'.mp hn
      exact h.fd_ne hi hj hji
        (.inr ⟨n, by simp [Owner.shared, hphase, hn], by simp [Owner.claim, hphase, hr, hn]⟩) hp
  have hshared : Owner.shared { o with phase := .dropping rest } = none := by
    rcases hremove rfl with ⟨hn, -⟩ | ⟨hn, -⟩ | ⟨-, -, hr, -⟩
    · simp [Owner.shared, hn]
    · simp [Owner.shared, hn]
    · simp [Owner.shared, hr]
  refine h.setSame hi rfl rfl rfl rfl hheld hclaim
    ⟨fun r hr => ?_, by simp, by simp [hshared], by simp⟩ (fun j p hji hj hl => ?_)
    (by simp [Owner.stale, hstale]) (by simp)
  · cases hr
    exact htail
  · simp [dropStep, State.put, Kernel.remove, Ne.symm (hne j p hji hj hl)]

/-- The claim is released, which is the last step of the drop of a `Signal`. -/
theorem inv_releaseClaim {s : State} (h : Inv s) {i : Nat} {o : Owner} {rest : List DropStep}
    (hi : s.owners[i]? = some o) (hphase : o.phase = .dropping (.releaseClaim :: rest)) :
    Inv ((dropStep s o .releaseClaim).put i { o with phase := .dropping rest }) := by
  -- No drop has a step after its release.
  obtain ⟨htail, -, -, hrelease, -⟩ := Kind.endings_cons ((h.owner i o hi).ending _ hphase)
  have hrest := hrelease rfl
  subst hrest
  have hheld : Owner.held { o with phase := .dropping [] } = o.held := by
    simp [Owner.held, hphase]
  have hclaim : Owner.claim { o with phase := .dropping [] } = none := by simp [Owner.claim]
  have hkernel : (dropStep s o .releaseClaim).kernel = s.kernel := by
    simp only [dropStep]
    split <;> rfl
  have hfds : (dropStep s o .releaseClaim).fds = s.fds := by
    simp only [dropStep]
    split <;> rfl
  have howners : (dropStep s o .releaseClaim).owners = s.owners := by
    simp only [dropStep]
    split <;> rfl
  refine h.set hi (by rw [State.put, howners]) hfds
    (by rw [update_keeper_of_eq hi hheld, State.put, hkernel]; exact h.opened)
    (by rw [update_keeper_of_eq hi hheld]; exact h.kept)
    (by rw [hclaim]; exact h.claims.update_none i) (fun j m hj => ?_)
    ⟨fun r hr => ?_, by simp, by simp [Owner.shared], by simp⟩
    (fun _ _ _ _ _ => by rw [State.put, hkernel]) (by simp [Owner.stale]) (by simp)
  · rw [hclaim, Function.update_apply] at hj
    split at hj
    · cases hj
    · rename_i hji
      have hm := h.claimed j m hj
      simp only [State.put, dropStep]
      split
      · -- The claims of the others are of other numbers.
        rename_i number hkind
        have hne : m ≠ number := by
          rintro rfl
          refine hji (h.claims j i m hj ?_)
          simp [attr_of_some Owner.claim hi, Owner.claim, hphase, hkind, Kind.number]
        simpa [hne] using hm
      · exact hm
  · cases hr
    exact htail

/-- The steps of a drop that neither the kernel nor another owner sees. -/
theorem inv_quiet {s s' : State} (h : Inv s) {i : Nat} {o : Owner} {d : DropStep}
    {rest : List DropStep} (hi : s.owners[i]? = some o) (hphase : o.phase = .dropping (d :: rest))
    (hd : d = .slotsRemove ∨ d = .disarm)
    (hs : s'.owners = s.owners.set i { o with phase := .dropping rest })
    (hk : s'.kernel = s.kernel) (hf : s'.fds = s.fds) (hc : s'.claimed = s.claimed) : Inv s' := by
  have hown := h.owner i o hi
  obtain ⟨htail, -, -, -, hstale⟩ := Kind.endings_cons (hown.ending _ hphase)
  refine h.put hi hs hk hf hc ?_ ?_ (fun r hr => ?_) (by simp) (fun k hk => ?_) (by simp) ?_
  · rcases hd with rfl | rfl <;> simp [Owner.held, hphase]
  · rcases hd with rfl | rfl <;> simp [Owner.claim, hphase]
  · cases hr
    exact htail
  · refine hown.shared k ?_
    rcases hd with rfl | rfl <;> simpa [Owner.shared, hphase] using hk
  · have := hstale (by rcases hd with rfl | rfl <;> simp)
    simp [Owner.stale, this]

/-- An owner on the way to its registration, or at the start of its drop, keeps and claims what
it did before. -/
theorem inv_phase {s s' : State} (h : Inv s) {i : Nat} {o n : Owner} (hi : s.owners[i]? = some o)
    (hs : s'.owners = s.owners.set i n) (hk : s'.kernel = s.kernel) (hf : s'.fds = s.fds)
    (hc : s'.claimed = s.claimed) (hkind : n.kind = o.kind) (hfd : n.fd = o.fd)
    (ho : o.phase = .opened ∨ o.phase = .indexed ∨ o.phase = .inserted ∨ o.phase = .live)
    (hn : n.phase = .indexed ∨ n.phase = .inserted ∨ n.phase = .dropping o.kind.drop ∨
      n.phase = .dropping (.slotsRemove :: o.kind.unregistered)) : Inv s' := by
  have hshared := (h.owner i o hi).shared
  refine h.put hi hs hk hf hc ?_ ?_ (fun rest hr => ?_) ?_ (fun k hk => ?_) ?_ ?_
  · cases hkd : o.kind <;> rcases ho with ho | ho | ho | ho <;>
      rcases hn with hn | hn | hn | hn <;>
      simp [Owner.held, ho, hn, hkind, hkd, hfd, Kind.drop, Kind.dropSelf, Kind.fields, Field.drop,
        Kind.unregistered]
  · cases hkd : o.kind <;> rcases ho with ho | ho | ho | ho <;>
      rcases hn with hn | hn | hn | hn <;>
      simp [Owner.claim, ho, hn, hkind, hkd, Kind.number, Kind.drop, Kind.dropSelf, Kind.fields,
        Field.drop, Kind.unregistered]
  · rw [hkind]
    rcases hn with hn | hn | hn | hn <;> rw [hn] at hr <;> cases hr <;>
      simp [Kind.endings, List.mem_tails]
  · rcases hn with hn | hn | hn | hn <;> simp [hn]
  · rw [hfd]
    refine hshared k ?_
    have hnumber : o.kind.number = some k := by
      rcases hn with hn | hn | hn | hn <;> simp [Owner.shared, hn, hkind] at hk <;>
        first | exact hk | exact hk.2
    rcases ho with ho | ho | ho | ho <;> simp [Owner.shared, ho, hnumber]
  · rcases hn with hn | hn | hn | hn <;> simp [hn]
  · cases hkd : o.kind <;> rcases hn with hn | hn | hn | hn <;>
      simp [Owner.stale, hn, hkd, Kind.drop, Kind.dropSelf, Kind.fields, Field.drop,
        Kind.unregistered]

/-- Whether the step does not put a number into the poller that an owner being dropped has closed
and has still to remove from it. An `add` that the kernel refuses puts nothing in. -/
def Careful (backend : Backend) (s : State) : Action → Bool
  | .add i refused =>
    match s.owners[i]? with
    | some o => (s.kernel.add backend o.fd o.token refused).isNone ||
        s.owners.all fun p => !(p.stale && p.fd = o.fd)
    | none => true
  | _ => true

/-- The steps of an owner that leave no choice to the kernel. -/
theorem inv_advance {s s' : State} (h : Inv s) {i : Nat} {o : Owner} (hi : s.owners[i]? = some o)
    (hs : advance s i o = some s') : Inv s' := by
  unfold advance at hs
  split at hs
  -- `arm` publishes the descriptor, and `Handle::register` takes an index and then a slot.
  · rename_i hphase
    split at hs
    · rename_i number hkind
      cases hs
      exact inv_store h hi hphase hkind
    · cases hs
  · rename_i hphase
    cases hs
    exact inv_phase h hi rfl rfl rfl rfl rfl rfl (.inl hphase) (.inl rfl)
  · rename_i hphase
    cases hs
    exact inv_phase h hi rfl rfl rfl rfl rfl rfl (.inr (.inl hphase)) (.inr (.inl rfl))
  -- One step of a drop.
  · rename_i d rest hphase
    cases hs
    cases d with
    | close => exact inv_close h hi hphase
    | pollerRemove => exact inv_pollerRemove h hi hphase
    | slotsRemove => exact inv_quiet h hi hphase (.inl rfl) rfl rfl rfl rfl
    | disarm => exact inv_quiet h hi hphase (.inr rfl) rfl rfl rfl rfl
    | releaseClaim => exact inv_releaseClaim h hi hphase
  · cases hs

/-- Every careful step keeps the invariant. -/
theorem step_inv {s s' : State} {backend : Backend} {act : Action} (h : Inv s)
    (hs : step backend s act = some s') (hok : Careful backend s act = true) : Inv s' := by
  cases act with
  | openAt kind fd =>
    simp only [step] at hs
    split at hs
    · cases hs
    · cases hs
    · rename_i kernel hsig hk
      cases hs
      exact inv_openAt h (Kind.number_eq_none hsig) hk
  | acquire number =>
    simp only [step] at hs
    split at hs
    · rename_i hfree
      cases hs
      exact inv_acquire h hfree.2
    · cases hs
  | arm i =>
    simp only [step] at hs
    split at hs
    · rename_i o hi
      split at hs
      · rename_i number hphase hkind
        split at hs
        · rename_i fd hfd
          cases hs
          exact inv_arm h hi hphase hkind hfd
        · cases hs
      · cases hs
    · cases hs
  | create i fd =>
    simp only [step] at hs
    split at hs
    · rename_i o hi
      split at hs
      · rename_i number hphase hkind
        split at hs
        · cases hs
        · cases hs
          exact inv_createFailed h hi hphase hkind
        · rename_i fd hnone
          split at hs
          · cases hs
          · rename_i kernel hk
            cases hs
            exact inv_create h hi hphase hkind hnone hk
      · cases hs
    · cases hs
  | abandon i =>
    simp only [step] at hs
    split at hs
    · rename_i o hi
      split at hs
      · cases hs
      · rename_i hphase hsig
        cases hs
        exact inv_abandon h hi hphase hsig
      · cases hs
    · cases hs
  | add i refused =>
    simp only [step] at hs
    split at hs
    · rename_i o hi
      split at hs
      · rename_i hphase
        split at hs
        · rename_i kernel hk
          cases hs
          refine inv_add h hi hphase hk fun p hp hstale => ?_
          simp only [Careful, hi, hk, Option.isNone_some, Bool.false_or, List.all_eq_true] at hok
          simpa [hstale] using hok p hp
        · -- `Poller::add` was refused: the slot is removed and the owner is dropped.
          cases hs
          exact inv_phase h hi rfl rfl rfl rfl rfl rfl (.inr (.inr (.inl hphase)))
            (.inr (.inr (.inr rfl)))
      · cases hs
    · cases hs
  | drop i =>
    simp only [step] at hs
    split at hs
    · rename_i o hi
      split at hs
      · rename_i hphase
        cases hs
        exact inv_phase h hi rfl rfl rfl rfl rfl rfl (.inr (.inr (.inr hphase)))
          (.inr (.inr (.inl rfl)))
      · cases hs
    · cases hs
  | advance i =>
    simp only [step] at hs
    split at hs
    · rename_i o hi
      exact inv_advance h hi hs
    · cases hs

/-- The invariant holds in every state of a careful run. -/
theorem inv_of_reach {s : State} {backend : Backend}
    (h : (system backend).Reach (fun s act _ => Careful backend s act = true) s) : Inv s :=
  h.invariant (fun s hs => inv_init s backend hs) fun _ _ _ hi hs hok => step_inv hi hs hok

/-- In a run that puts no number into the poller whose removal by a closed `TcpStream` or
`TcpListener` is outstanding, every live registration whose owner has not begun to drop is in
the poller's map under its own token. -/
theorem registrations_kept {s : State} {backend : Backend}
    (h : (system backend).Reach (fun s act _ => Careful backend s act = true) s) {i : Nat}
    {o : Owner} (hi : s.owners[i]? = some o) (hlive : o.phase = .live) :
    s.kernel.interest o.fd = some o.token :=
  ((inv_of_reach h).owner i o hi).live hlive

/-- A pipe takes number 3 and a stream number 4. The stream is dropped, a datagram socket takes
its number after the whole drop, and then a waiter for signal 2 takes number 5. All but the
stream are in the poller. -/
theorem registrations_kept_reuse :
    ∃ s, (system .epoll).Reach (fun s act _ => Careful .epoll s act = true) s ∧
      s.kernel.interest 3 = some (makeToken 0 1) ∧ s.kernel.interest 4 = some (makeToken 2 1) ∧
      s.kernel.interest 5 = some (makeToken 3 1) := by
  obtain ⟨s, hr, hp⟩ := Lts.Reach.exists_of_runWhere (M := system .epoll)
    (s := new fun fd => fd < 3) (fun s act _ => Careful .epoll s act = true)
    [.openAt .pipe 3, .advance 0, .advance 0, .add 0 false,
      .openAt .tcpStream 4, .advance 1, .advance 1, .add 1 false,
      .drop 1, .advance 1, .advance 1, .advance 1,
      .openAt .udpSocket 4, .advance 2, .advance 2, .add 2 false,
      .acquire 2, .create 3 (some 5), .advance 3, .advance 3, .advance 3, .add 3 false]
    (fun s => s.owners[0]? = some ⟨.pipe, 3, 0, makeToken 0 1, .live⟩ ∧
      s.owners[2]? = some ⟨.udpSocket, 4, 2, makeToken 2 1, .live⟩ ∧
      s.owners[3]? = some ⟨.signal 2, 5, 3, makeToken 3 1, .live⟩) ⟨_, rfl⟩ (by decide)
  obtain ⟨hpipe, hudp, hsignal⟩ : s.owners[0]? = some ⟨.pipe, 3, 0, makeToken 0 1, .live⟩ ∧
      s.owners[2]? = some ⟨.udpSocket, 4, 2, makeToken 2 1, .live⟩ ∧
      s.owners[3]? = some ⟨.signal 2, 5, 3, makeToken 3 1, .live⟩ := by
    simpa using hp
  exact ⟨s, hr, registrations_kept hr hpipe rfl, registrations_kept hr hudp rfl,
    registrations_kept hr hsignal rfl⟩

/-- A stream with number 3 is dropped. It has closed the descriptor when a datagram socket opens
number 3 and registers it, and then it removes the number from the poller. The socket is live
and not in the poller. -/
theorem registration_torn_out :
    ∃ s, (system .epoll).Reachable s ∧ ∃ o ∈ s.owners, o.phase = .live ∧
      s.kernel.interest o.fd = none := by
  obtain ⟨s, hr, hp⟩ := Lts.Reachable.exists_of_run (M := system .epoll)
    (s := new fun fd => fd < 3)
    [.openAt .tcpStream 3, .advance 0, .advance 0, .add 0 false,
      .drop 0, .advance 0,
      .openAt .udpSocket 3, .advance 1, .advance 1, .add 1 false,
      .advance 0]
    (fun s => ∃ o ∈ s.owners, o.phase = .live ∧ s.kernel.interest o.fd = none) ⟨_, rfl⟩
    (by decide)
  exact ⟨s, hr, by simpa using hp⟩

end Descriptors

end Nagoya.Reactor
