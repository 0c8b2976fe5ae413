import Nagoya.Dispatch
import Nagoya.Proofs.Credits
import Nagoya.Proofs.Owner

/-!
# `Nagoya.Proofs.Dispatch.Job`: what a job did so far

What a step does to an owner and to the account is a list of effects (`stepCall_effects`,
`stepWork_effects`). The invariant of a job reads off the lists it has written where it is:
`SlotOk` reads the one off its call, and `PermitOk` the other off its phase and its reservation.
`Metered` says which times it has read, and `ReturnedOk` what it has returned and submitted.
`JobTurn` is all that a step of a job can do, and `PermitStep` and `OwnerStep` are what the account
and the owners see of it.
-/

set_option autoImplicit false

namespace Nagoya.Dispatch

open Nagoya.Lib
open Nagoya.Owner (DispatchDenied Exit)
open Nagoya.Credits (CreditAccount CpuReservation Work)

variable {T : Type}

/-! ### Effects -/

/-- The compare-exchange of `in_flight` takes a place, or it loads again. -/
theorem countCas_cases [Target] {a a' : CreditAccount} {reserved : Int} {current : Nat}
    {w' : Work} {e : Credits.Event}
    (h : Credits.stepWork a (.countCas reserved current) e = some (a', w')) :
    (a' = { a with inFlight := a.inFlight + 1 } ∧ w' = .balanceLoad reserved ∧
      accountEffects a (.countCas reserved current) e = [.place]) ∨
    (a' = a ∧ w' = Credits.countNext a reserved a.inFlight ∧
      accountEffects a (.countCas reserved current) e = []) := by
  cases e with
  | cas spurious =>
    simp only [Credits.stepWork.eq_def] at h
    split at h
    · rename_i hcas
      cases h
      exact .inl ⟨by rw [hcas.1], rfl, if_pos hcas⟩
    · rename_i hcas
      cases h
      exact .inr ⟨rfl, rfl, if_neg hcas⟩
  | _ => cases h

/-- The compare-exchange of `balance` in `reserve` takes the credit, or it loads again. -/
theorem balanceCas_cases [Target] {a a' : CreditAccount} {reserved current : Int} {w' : Work}
    {e : Credits.Event}
    (h : Credits.stepWork a (.balanceCas reserved current) e = some (a', w')) :
    (a' = { a with balance := a.balance - reserved } ∧ w' = .held ⟨reserved, none, false⟩ 0 ∧
      accountEffects a (.balanceCas reserved current) e = [.debit reserved]) ∨
    (a' = a ∧ w' = Credits.balanceNext reserved a.balance ∧
      accountEffects a (.balanceCas reserved current) e = []) := by
  cases e with
  | cas spurious =>
    simp only [Credits.stepWork.eq_def] at h
    split at h
    · rename_i hcas
      cases h
      exact .inl ⟨by rw [hcas.1], rfl, if_pos hcas⟩
    · rename_i hcas
      cases h
      exact .inr ⟨rfl, rfl, if_neg hcas⟩
  | _ => cases h

/-- `adjust` adds the credit, and stops at the capacity and at `i64::MIN`. The stop of
`saturating_add` at `i64::MAX` is behind the capacity. -/
theorem adjusted_clamps {a : CreditAccount} (hpos : 0 < a.capacity) (hcap : a.capacity ≤ i64Max)
    (balance credits : Int) :
    Credits.adjusted a balance credits = max i64Min (min (balance + credits) a.capacity) := by
  unfold Credits.adjusted i64SaturatingAdd i64Min
  omega

/-- The compare-exchange of an `adjust` adds the credit, or it loads again. -/
theorem adjustCas_cases [Target] {a a' : CreditAccount} {credits current : Int}
    {after : Credits.After} {w' : Work} {e : Credits.Event}
    (h : Credits.stepWork a (.adjustCas credits current after) e = some (a', w')) :
    (a' = { a with balance := Credits.adjusted a a.balance credits } ∧ w' = after.next ∧
      accountEffects a (.adjustCas credits current after) e = [.credit credits]) ∨
    (a' = a ∧ w' = .adjustCas credits a.balance after ∧
      accountEffects a (.adjustCas credits current after) e = []) := by
  cases e with
  | cas spurious =>
    simp only [Credits.stepWork.eq_def] at h
    split at h
    · rename_i hcas
      cases h
      exact .inl ⟨by rw [hcas.1], rfl, if_pos hcas⟩
    · rename_i hcas
      cases h
      exact .inr ⟨rfl, rfl, if_neg hcas⟩
  | _ => cases h

/-- A step of a task does to the account what its effects say. A place that is given back was
held, so the `fetch_sub` does not wrap. -/
theorem stepWork_effects [Target] {a a' : CreditAccount} {w w' : Work} {e : Credits.Event}
    (hle : w.places ≤ a.inFlight) (hcap : a.inFlight ≤ usizeMax)
    (hcapacity : 0 < a.capacity ∧ a.capacity ≤ i64Max)
    (h : Credits.stepWork a w e = some (a', w')) :
    a' = (accountEffects a w e).foldl AccountEffect.apply a := by
  have hsub : 1 ≤ a.inFlight → usizeSub a.inFlight 1 = a.inFlight - 1 := by
    intro hone
    have := two_lt_usizeModulus
    refine usizeSub_of_le hone ?_
    unfold usizeMax at hcap
    omega
  cases w with
  | countCas reserved current =>
    rcases countCas_cases h with ⟨rfl, -, heff⟩ | ⟨rfl, -, heff⟩ <;> rw [heff] <;> rfl
  | balanceCas reserved current =>
    rcases balanceCas_cases h with ⟨rfl, -, heff⟩ | ⟨rfl, -, heff⟩ <;> rw [heff] <;> rfl
  | adjustCas credits current after =>
    rcases adjustCas_cases h with ⟨rfl, -, heff⟩ | ⟨rfl, -, heff⟩ <;> rw [heff]
    · rw [adjusted_clamps hcapacity.1 hcapacity.2]
      rfl
    · rfl
  | rollback =>
    cases e <;> cases h
    show ({ a with inFlight := usizeSub a.inFlight 1 } : CreditAccount) = _
    rw [hsub hle]
    rfl
  | release r cpu drop =>
    cases e <;> cases h
    show ({ a with inFlight := usizeSub a.inFlight 1 } : CreditAccount) = _
    rw [hsub hle]
    rfl
  | _ =>
    -- The other steps only read the account.
    cases Credits.stepWork_turn h <;> rfl

/-- A step of a call does to its owner what its effects say. -/
theorem stepCall_effects {owners : List (Owner.State T)} {o : Nat} {s s' : Owner.State T}
    {call call' : Owner.Call T} {e : Owner.Event T} (ho : owners[o]? = some s)
    (h : Owner.stepCall s call e = some (s', call')) :
    owners.set o s' = (slotEffects o s call e).foldl SlotEffect.apply owners := by
  -- A change to one slot is an update of the list of owners.
  have hmodify (f : Owner.State T → Owner.State T) : owners.modify o f = owners.set o (f s) := by
    refine List.ext_getElem? fun i => ?_
    rw [List.getElem?_modify, getElem?_set_of_some ho]
    by_cases hi : i = o
    · subst hi
      rw [if_pos rfl, ho]
      simp
    · simp [hi, Ne.symm hi]
  have hself : owners.set o s = owners := set_eq_self ho
  cases call with
  | exchangeAdmitted =>
    cases e <;> simp only [Owner.stepCall, reduceCtorEq] at h
    split at h
    · rename_i hs
      cases h
      have heff : slotEffects o s .exchangeAdmitted .advance = [] := if_pos hs
      rw [hself, heff]
      rfl
    · rename_i hs
      cases h
      have heff : slotEffects o s .exchangeAdmitted .advance = [.exchange o] := if_neg hs
      rw [heff]
      exact (hmodify fun s => { s with admitted := true }).symm
  | take =>
    cases e <;> simp only [Owner.stepCall, reduceCtorEq] at h
    cases hv : s.value with
    | none =>
      simp only [hv] at h
      cases h
      simp [slotEffects, hv, hself]
    | some value =>
      simp only [hv] at h
      cases h
      simp only [slotEffects, hv]
      exact (hmodify fun s => { s with value := none }).symm
  | dropWrite lease exit =>
    cases e <;> cases h
    exact (hmodify fun s => { s with value := lease.value }).symm
  | dropStore exit =>
    cases e <;> cases h
    exact (hmodify fun s => { s with admitted := false }).symm
  | checkWorker worker workers =>
    cases e <;> simp only [Owner.stepCall, reduceCtorEq] at h
    split at h <;> cases h <;> exact hself
  | entered lease =>
    cases e <;> simp only [Owner.stepCall, reduceCtorEq] at h
    split at h <;> cases h <;> exact hself
  | reserve lease =>
    cases e with
    | reserve result => cases result <;> cases h <;> exact hself
    | _ => cases h
  | queued lease =>
    cases e with
    | cancel => cases h; exact hself
    | enter panics => cases panics <;> cases h <;> exact hself
    | _ => cases h
  | turn lease =>
    cases e with
    | write value => cases h; exact hself
    | leave panics => cases panics <;> cases h <;> exact hself
    | _ => cases h
  | finish lease =>
    cases e with
    | finish panics => cases panics <;> cases h <;> exact hself
    | _ => cases h
  | taken value =>
    cases e <;> cases h
    exact hself
  | ended exit => cases e <;> cases h

/-! ### The permit of a job -/

/-- What a reservation of `n` gives back that measured `cpu`. `settle` counts the measure in an
`i64`. -/
def refund (n : Int) (cpu : Nat) : Int := n - min (cpu : Int) i64Max

/-- The `saturating_sub` of `settle` does not saturate. -/
theorem settle_refund {n : Int} (h : Credits.Amount n) (cpu : Nat) :
    i64SaturatingSub n (Credits.actual cpu) = refund n cpu := by
  obtain ⟨hpos, hle⟩ := h
  unfold refund i64SaturatingSub Credits.actual i64Max i64Min at *
  split <;> omega

/-- A call of `reserve`, with what it did to the account. -/
def Asking (credits : UInt64) (log : List AccountEffect) : Work → Prop
  | .reserve c => c = credits ∧ log = []
  | .countLoad reserved => reserved = credits.toNat ∧ log = []
  | .countCas reserved _ => reserved = credits.toNat ∧ log = []
  | .balanceLoad reserved => reserved = credits.toNat ∧ log = [.place]
  | .balanceCas reserved _ => reserved = credits.toNat ∧ log = [.place]
  | .rollback => log = [.place]
  | .rollbackNotify => log = [.place, .unplace]
  | .denied => log = [] ∨ log = [.place, .unplace]
  | .held r cpu => r = ⟨credits.toNat, none, false⟩ ∧ cpu = 0 ∧
      log = [.place, .debit credits.toNat]
  | _ => False

/-- A reservation of `n` from the end of its turn to its drop, with what it did to the account.
`entered` says that the turn was. -/
def Settling (n : Int) (entered : Bool) (log : List AccountEffect) : Work → Prop
  | .held r cpu => r.reserved = n ∧ r.started.isSome = entered ∧
      log = if r.done then [.place, .debit n, .credit (refund n cpu), .unplace]
        else [.place, .debit n]
  | .settle r cpu _ => r.reserved = n ∧ r.started.isSome = entered ∧
      log = if r.done then [.place, .debit n, .credit (refund n cpu), .unplace]
        else [.place, .debit n]
  | .measure r _ _ => r.reserved = n ∧ r.started.isSome = entered ∧ log = [.place, .debit n]
  | .adjustLoad credits (.settle r cpu _) => r.reserved = n ∧ r.started.isSome = entered ∧
      credits = refund n cpu ∧ log = [.place, .debit n]
  | .adjustCas credits _ (.settle r cpu _) => r.reserved = n ∧ r.started.isSome = entered ∧
      credits = refund n cpu ∧ log = [.place, .debit n]
  | .release r cpu _ => r.reserved = n ∧ r.started.isSome = entered ∧
      log = [.place, .debit n, .credit (refund n cpu)]
  | .settleNotify r cpu _ => r.reserved = n ∧ r.started.isSome = entered ∧ r.done = true ∧
      log = [.place, .debit n, .credit (refund n cpu), .unplace]
  | .dropped r cpu => r.reserved = n ∧ r.started.isSome = entered ∧
      log = [.place, .debit n, .credit (refund n cpu), .unplace]
  | _ => False

/-- The permit of a job in a phase, and what it did to the account. -/
def PermitOk (credits : UInt64) (log : List AccountEffect) : Phase → Option Work → Prop
  | .admission, permit => permit = none ∧ log = []
  | .reserve, none => log = []
  | .reserve, some w => Asking credits log w
  | .refusing, permit => permit = some .denied ∧ (log = [] ∨ log = [.place, .unplace])
  | .refused .budget, permit => permit = some .denied ∧ (log = [] ∨ log = [.place, .unplace])
  | .refused _, permit => permit = none ∧ log = []
  | .queued, permit => permit = some (.held ⟨credits.toNat, none, false⟩ 0) ∧
      log = [.place, .debit credits.toNat]
  | .running, permit => ∃ now, permit = some (.held ⟨credits.toNat, some now, false⟩ 0) ∧
      log = [.place, .debit credits.toNat]
  | .finish, permit => ∃ w, permit = some w ∧ Settling credits.toNat true log w
  | .closing, permit => ∃ r cpu, permit = some (.dropped r cpu) ∧
      Settling credits.toNat true log (.dropped r cpu)
  | .unwind exit, permit => ∃ w, permit = some w ∧
      Settling credits.toNat (decide (exit = .panicked)) log w
  | .broken, _ => False

/-- The conversion of a request is the request. -/
theorem filter_eq {credits : UInt64} {reserved : Int}
    (h : (i64TryFrom credits).filter (fun value => 0 < value) = some reserved) :
    reserved = credits.toNat := by
  rw [Option.filter_eq_some_iff] at h
  obtain ⟨h, -⟩ := h
  unfold i64TryFrom at h
  split at h
  · cases h
    rfl
  · cases h

/-- A reservation is with its owner until its turn is over. -/
theorem held_stays [Target] {phase : Phase} {r : CpuReservation} {cpu : Nat}
    {a a' : CreditAccount} {w' : Work} {e : Credits.Event}
    (hphase : phase = .reserve ∨ phase = .queued ∨ phase = .running)
    (he : permitEvent phase (.held r cpu) e = true)
    (hs : Credits.stepWork a (.held r cpu) e = some (a', w')) : False := by
  cases e with
  | advance => cases hs
  | cas spurious => cases hs
  | clock now => cases hs
  | enter now => cases he
  | finish => rcases hphase with rfl | rfl | rfl <;> cases he
  | drop => rcases hphase with rfl | rfl | rfl <;> cases he

/-- One step of `reserve`. -/
theorem Asking.step [Target] {credits : UInt64} {log : List AccountEffect} {a a' : CreditAccount}
    {w w' : Work} {e : Credits.Event} (h : Asking credits log w)
    (he : permitEvent .reserve w e = true) (hs : Credits.stepWork a w e = some (a', w')) :
    Asking credits (log ++ accountEffects a w e) w' := by
  -- Both loops try again until their exchange goes through, and log nothing before that.
  have hcount {reserved : Int} {current : Nat} (hr : reserved = credits.toNat) (hlog : log = []) :
      Asking credits log (Credits.countNext a reserved current) := by
    unfold Credits.countNext
    split
    · exact ⟨hr, hlog⟩
    · exact .inl hlog
  have hbalance {reserved current : Int} (hr : reserved = credits.toNat)
      (hlog : log = [.place]) : Asking credits log (Credits.balanceNext reserved current) := by
    unfold Credits.balanceNext
    split
    · exact ⟨hr, hlog⟩
    · exact hlog
  -- A step that does nothing to the account adds nothing to the log.
  have hquiet (heff : accountEffects a w e = []) (hw' : Asking credits log w') :
      Asking credits (log ++ accountEffects a w e) w' := by
    rw [heff, List.append_nil]
    exact hw'
  cases w with
  | reserve c =>
    obtain ⟨rfl, rfl⟩ := h
    cases Credits.stepWork_turn hs with
    | request hf => exact ⟨filter_eq hf, rfl⟩
    | refuse => exact .inl rfl
  | countLoad reserved =>
    cases Credits.stepWork_turn hs
    exact hquiet rfl (hcount h.1 h.2)
  | countCas reserved current =>
    rcases countCas_cases hs with ⟨-, rfl, heff⟩ | ⟨-, rfl, heff⟩
    · rw [heff, h.2]
      exact ⟨h.1, rfl⟩
    · exact hquiet heff (hcount h.1 h.2)
  | balanceLoad reserved =>
    cases Credits.stepWork_turn hs
    exact hquiet rfl (hbalance h.1 h.2)
  | balanceCas reserved current =>
    rcases balanceCas_cases hs with ⟨-, rfl, heff⟩ | ⟨-, rfl, heff⟩
    · rw [heff, h.2, h.1]
      exact ⟨rfl, rfl, rfl⟩
    · exact hquiet heff (hbalance h.1 h.2)
  | rollback =>
    -- The place is taken back after the balance was too low.
    cases Credits.stepWork_turn hs
    have hlog : log = [.place] := h
    rw [hlog]
    rfl
  | held r cpu => exact (held_stays (.inl rfl) he hs).elim
  | rollbackNotify => cases e <;> cases hs
  | denied => cases e <;> cases hs
  | _ => exact h.elim

/-- The broadcast of a reservation that was rolled back. -/
theorem Asking.notify {credits : UInt64} {log : List AccountEffect} {w w' : Work}
    (h : Asking credits log w) (hs : Credits.afterNotify w = some w') : Asking credits log w' := by
  cases w with
  | rollbackNotify =>
    cases hs
    exact .inr h
  | settleNotify => exact h.elim
  | replenishNotify => exact h.elim
  | _ => cases hs

/-- The start of the `adjust` of a `settle`. -/
theorem Settling.adjust {n : Int} {entered : Bool} {log : List AccountEffect}
    {r : CpuReservation} (hamount : Credits.Amount r.reserved) (hr : r.reserved = n)
    (hstarted : r.started.isSome = entered) (hlog : log = [.place, .debit n]) (cpu : Nat)
    (drop : Bool) : Settling n entered log (Credits.settleAdjust r cpu drop) :=
  ⟨hr, hstarted, by rw [settle_refund hamount, hr], hlog⟩

/-- The end of a `settle`. -/
theorem Settling.settled {n : Int} {entered : Bool} {log : List AccountEffect}
    {r : CpuReservation} {cpu : Nat} (hr : r.reserved = n) (hstarted : r.started.isSome = entered)
    (hdone : r.done = true)
    (hlog : log = [.place, .debit n, .credit (refund n cpu), .unplace]) (drop : Bool) :
    Settling n entered log (Credits.settled r cpu drop) := by
  cases drop with
  | true => exact ⟨hr, hstarted, hlog⟩
  | false => exact ⟨hr, hstarted, by rw [hdone]; exact hlog⟩

/-- One step of `settle`, or its call. -/
theorem Settling.step [Target] {n : Int} {entered : Bool} {log : List AccountEffect} {p : Nat}
    {a a' : CreditAccount} {w w' : Work} {e : Credits.Event} (h : Settling n entered log w)
    (hfits : w.Fits p) (he : ∀ now, e ≠ .enter now)
    (hs : Credits.stepWork a w e = some (a', w')) :
    Settling n entered (log ++ accountEffects a w e) w' := by
  -- A step that does nothing to the account adds nothing to the log.
  have hquiet (heff : accountEffects a w e = []) (hw' : Settling n entered log w') :
      Settling n entered (log ++ accountEffects a w e) w' := by
    rw [heff, List.append_nil]
    exact hw'
  cases w with
  | held r cpu =>
    cases Credits.stepWork_turn hs with
    | enter => exact absurd rfl (he _)
    | refuseEnter => exact absurd rfl (he _)
    | finish => exact hquiet rfl h
    | drop => exact hquiet rfl h
  | settle r cpu drop =>
    obtain ⟨hr, hstarted, hlog⟩ := h
    cases Credits.stepWork_turn hs with
    | settledBefore hdone =>
      rw [hdone] at hlog
      exact hquiet rfl (.settled hr hstarted hdone hlog drop)
    | started hdone =>
      rw [hdone] at hlog
      exact hquiet rfl ⟨hr, hstarted, hlog⟩
    | unused hdone =>
      rw [hdone] at hlog
      exact hquiet rfl (.adjust hfits.1.amount hr hstarted hlog 0 drop)
  | measure r start drop =>
    obtain ⟨hr, hstarted, hlog⟩ := h
    cases Credits.stepWork_turn hs
    exact hquiet rfl (.adjust hfits.1.amount hr hstarted hlog _ drop)
  | adjustLoad credits after =>
    cases after with
    | settle r cpu drop =>
      cases Credits.stepWork_turn hs
      exact hquiet rfl h
    | replenish c => exact h.elim
  | adjustCas credits current after =>
    cases after with
    | settle r cpu drop =>
      obtain ⟨hr, hstarted, hcredits, hlog⟩ := h
      -- Only the exchange that goes through moves the balance.
      rcases adjustCas_cases hs with ⟨-, rfl, heff⟩ | ⟨-, rfl, heff⟩
      · rw [heff, hlog, hcredits]
        exact ⟨hr, hstarted, rfl⟩
      · exact hquiet heff ⟨hr, hstarted, hcredits, hlog⟩
    | replenish c => exact h.elim
  | release r cpu drop =>
    obtain ⟨hr, hstarted, hlog⟩ := h
    cases Credits.stepWork_turn hs
    rw [hlog]
    exact ⟨hr, hstarted, rfl, rfl⟩
  | settleNotify r cpu drop => cases e <;> cases hs
  | dropped r cpu => cases e <;> cases hs
  | _ => exact h.elim

/-- The broadcast of a `settle`. -/
theorem Settling.notify {n : Int} {entered : Bool} {log : List AccountEffect} {w w' : Work}
    (h : Settling n entered log w) (hs : Credits.afterNotify w = some w') :
    Settling n entered log w' := by
  cases w with
  | settleNotify r cpu drop =>
    cases hs
    obtain ⟨hr, hstarted, hdone, hlog⟩ := h
    exact .settled hr hstarted hdone hlog drop
  | rollbackNotify => exact h.elim
  | replenishNotify => exact h.elim
  | _ => cases hs

/-- One step of a permit that its phase allows. -/
theorem PermitOk.step [Target] {credits : UInt64} {log : List AccountEffect} {phase : Phase}
    {p : Nat} {a a' : CreditAccount} {w w' : Work} {e : Credits.Event}
    (h : PermitOk credits log phase (some w)) (hfits : w.Fits p)
    (he : permitEvent phase w e = true)
    (hs : Credits.stepWork a w e = some (a', w')) :
    PermitOk credits (log ++ accountEffects a w e) phase (some w') := by
  -- Only the first poll enters a permit, and that is another step.
  have henter : ∀ now, e ≠ .enter now := by
    rintro now rfl
    cases he
  cases phase with
  | admission => cases h.1
  | reserve => exact Asking.step h he hs
  | refusing =>
    cases h.1
    cases e <;> cases hs
  | refused reason =>
    cases reason with
    | budget =>
      cases h.1
      cases e <;> cases hs
    | busy => cases h.1
    | worker => cases h.1
  | queued =>
    cases h.1
    exact (held_stays (.inr (.inl rfl)) he hs).elim
  | running =>
    obtain ⟨now, hw, -⟩ := h
    cases hw
    exact (held_stays (.inr (.inr rfl)) he hs).elim
  | finish =>
    obtain ⟨_, hw, hw'⟩ := h
    cases hw
    exact ⟨w', rfl, hw'.step hfits henter hs⟩
  | closing =>
    obtain ⟨r, cpu, hw, -⟩ := h
    cases hw
    cases e <;> cases hs
  | unwind exit =>
    obtain ⟨_, hw, hw'⟩ := h
    cases hw
    exact ⟨w', rfl, hw'.step hfits henter hs⟩
  | broken => exact h.elim

/-- A broadcast of a permit. -/
theorem PermitOk.notify {credits : UInt64} {log : List AccountEffect} {phase : Phase}
    {w w' : Work} (h : PermitOk credits log phase (some w))
    (hs : Credits.afterNotify w = some w') : PermitOk credits log phase (some w') := by
  cases phase with
  | admission => cases h.1
  | reserve => exact Asking.notify h hs
  | refusing =>
    cases h.1
    cases hs
  | refused reason =>
    cases reason with
    | budget =>
      cases h.1
      cases hs
    | busy => cases h.1
    | worker => cases h.1
  | queued =>
    cases h.1
    cases hs
  | running =>
    obtain ⟨now, hw, -⟩ := h
    cases hw
    cases hs
  | finish =>
    obtain ⟨_, hw, hw'⟩ := h
    cases hw
    exact ⟨w', rfl, hw'.notify hs⟩
  | closing =>
    obtain ⟨r, cpu, hw, -⟩ := h
    cases hw
    cases hs
  | unwind exit =>
    obtain ⟨_, hw, hw'⟩ := h
    cases hw
    exact ⟨w', rfl, hw'.notify hs⟩
  | broken => exact h.elim

/-! ### The clock of a job -/

/-- What a settled reservation measured, from the times that its job read: nothing when it was not
entered. -/
def Measured (clock : List UInt64) (started : Option UInt64) (cpu : Nat) : Prop :=
  match started with
  | none => clock = [] ∧ cpu = 0
  | some start => ∃ stop, clock = [start, stop] ∧ cpu = stop.toNat - start.toNat

/-- The times that a job has read, by its reservation. -/
def Metered (clock : List UInt64) : Work → Prop
  | .held r cpu | .settle r cpu _ =>
    if r.done then Measured clock r.started cpu else clock = r.started.toList
  | .measure r start _ => r.started = some start ∧ clock = [start]
  | .adjustLoad _ (.settle r cpu _) | .adjustCas _ _ (.settle r cpu _) | .release r cpu _
  | .settleNotify r cpu _ | .dropped r cpu => Measured clock r.started cpu
  | _ => clock = []

/-- The end of a `settle` keeps what was measured. -/
theorem Metered.settled {clock : List UInt64} {r : CpuReservation} {cpu : Nat}
    (hdone : r.done = true) (h : Measured clock r.started cpu) (drop : Bool) :
    Metered clock (Credits.settled r cpu drop) := by
  cases drop with
  | true => exact h
  | false =>
    show if r.done then _ else _
    rw [if_pos hdone]
    exact h

/-- One step of a reservation. A reservation is entered once. -/
theorem Metered.step [Target] {clock : List UInt64} {a a' : CreditAccount} {w w' : Work}
    {e : Credits.Event} (h : Metered clock w)
    (he : ∀ now r cpu, e = .enter now → w = .held r cpu → r.done = false ∧ r.started = none)
    (hs : Credits.stepWork a w e = some (a', w')) : Metered (clock ++ readings e) w' := by
  -- Most steps do not read the clock.
  have hquiet (hread : readings e = []) (hw' : Metered clock w') :
      Metered (clock ++ readings e) w' := by
    rw [hread, List.append_nil]
    exact hw'
  have hcount (reserved : Int) (hclock : clock = []) :
      Metered clock (Credits.countNext a reserved a.inFlight) := by
    unfold Credits.countNext
    split <;> exact hclock
  have hbalance (reserved : Int) (hclock : clock = []) :
      Metered clock (Credits.balanceNext reserved a.balance) := by
    unfold Credits.balanceNext
    split <;> exact hclock
  cases Credits.stepWork_turn hs with
  | countLoad => exact hquiet rfl (hcount _ h)
  | countRetry => exact hquiet rfl (hcount _ h)
  | balanceLoad => exact hquiet rfl (hbalance _ h)
  | balanceRetry => exact hquiet rfl (hbalance _ h)
  | @enter r cpu now hdone hstarted =>
    -- The first reading is the start.
    simp only [Metered, hdone, hstarted] at h
    subst h
    simp [Metered, hdone, readings]
  | @refuseEnter r cpu now =>
    obtain ⟨hdone, hstarted⟩ := he now r cpu rfl rfl
    -- The assertion of `enter` holds, so the step is the other one.
    simp only [Credits.stepWork.eq_def, hdone, hstarted, and_self, if_true, Option.some.injEq,
      Prod.mk.injEq, Work.held.injEq, true_and, and_true] at hs
    rw [← hs] at hstarted
    cases hstarted
  | @settledBefore r cpu drop hdone =>
    simp only [Metered, hdone, if_true] at h
    exact hquiet rfl (.settled hdone h drop)
  | @started r cpu drop start hdone hstarted =>
    simp only [Metered, hdone, hstarted] at h
    exact hquiet rfl ⟨hstarted, h⟩
  | @unused r cpu drop hdone hstarted =>
    simp only [Metered, hdone, hstarted] at h
    refine hquiet rfl ?_
    show Measured clock r.started 0
    rw [hstarted]
    exact ⟨h, rfl⟩
  | @measure r start now drop =>
    -- The second reading is the end of what is measured.
    obtain ⟨hstarted, rfl⟩ := h
    show Measured _ r.started _
    rw [hstarted]
    exact ⟨now, rfl, rfl⟩
  | @adjustLoad credits after =>
    cases after <;> exact hquiet rfl h
  | @adjustRetry credits current after spurious =>
    cases after <;> exact hquiet rfl h
  | @adjustCas credits after =>
    cases after <;> exact hquiet rfl h
  | request | refuse | countCas | rollback | release | replenish | finish | drop =>
    exact hquiet rfl h
  | balanceCas => exact hquiet rfl h

/-- A broadcast of a reservation reads no clock. -/
theorem Metered.notify {clock : List UInt64} {w w' : Work} (h : Metered clock w)
    (hdone : ∀ r cpu drop, w = .settleNotify r cpu drop → r.done = true)
    (hs : Credits.afterNotify w = some w') : Metered clock w' := by
  cases w with
  | settleNotify r cpu drop =>
    cases hs
    exact .settled (hdone r cpu drop rfl) h drop
  | rollbackNotify =>
    cases hs
    exact h
  | replenishNotify credits =>
    cases hs
    exact h
  | _ => cases hs

/-! ### A job -/

/-- A call or a task that ends so never had its value in the hands of a turn. -/
def Untouched (exit : Exit) : Prop := exit = .denied .budget ∨ exit = .cancelled

/-- The value of a turn that returned was in its hands. -/
theorem untouched_returned : ¬Untouched .returned := by
  rintro (h | h) <;> cases h

/-- So was that of a turn that panicked. -/
theorem untouched_panicked : ¬Untouched .panicked := by
  rintro (h | h) <;> cases h

/-- How a call ends that took its lease. -/
def Late (exit : Exit) : Prop :=
  exit = .denied .budget ∨ exit = .returned ∨ exit = .panicked ∨ exit = .cancelled

/-- What a job did to its owner, by its call. -/
def SlotOk (log : List (SlotEffect T)) : Kind T → Prop
  | .helper _ => log = []
  | .turn o call =>
    match call with
    | .checkWorker _ _ | .exchangeAdmitted => log = []
    | .take => log = [.exchange o]
    | .taken value => log = [.exchange o, .take o value]
    | .reserve lease | .queued lease =>
      ∃ v, lease.value = some v ∧ log = [.exchange o, .take o v]
    | .entered _ | .turn _ | .finish _ => ∃ v, log = [.exchange o, .take o v]
    | .dropWrite lease exit => Late exit ∧ ∃ v, log = [.exchange o, .take o v] ∧
      (Untouched exit → lease.value = some v)
    | .dropStore exit => Late exit ∧ ∃ v w, log = [.exchange o, .take o v, .put o (some w)] ∧
      (Untouched exit → w = v)
    | .ended exit =>
      ((exit = .denied .worker ∨ exit = .denied .busy) ∧ log = []) ∨
      (Late exit ∧ ∃ v w, log = [.exchange o, .take o v, .put o (some w), .release o] ∧
        (Untouched exit → w = v))

/-- What a job has returned and submitted, by its phase. -/
def ReturnedOk (job : Job T) : Phase → Prop
  | .admission | .reserve | .refusing => job.returned = none ∧ job.scheduled = []
  | .refused reason => job.returned = some (.rejected reason job.callback) ∧ job.scheduled = []
  | .queued | .running | .finish | .closing | .unwind _ =>
    job.returned = some .ok ∧ job.scheduled = [job.callback]
  | .broken => False

/-- The invariant of a job. -/
structure Job.Ok (job : Job T) : Prop where
  permit : PermitOk job.credits job.accountLog job.kind.phase job.permit
  slot : SlotOk job.slotLog job.kind
  returned : ReturnedOk job job.kind.phase

/-- The owner's side of a job fits the owner. -/
def Kind.Fits (owners : List (Owner.State T)) : Kind T → Prop
  | .turn o call => ∀ s, owners[o]? = some s → Owner.Fits s call
  | .helper _ => True

/-- The call has come to a rejection. -/
def Phase.isRefused : Phase → Bool
  | .refused _ => true
  | _ => false

/-- A call that has not come to a rejection goes on. -/
theorem Job.reject_of_ne {job : Job T} (h : job.kind.phase.isRefused = false) :
    job.reject = job := by
  unfold Job.reject
  split
  · rename_i reason hphase
    rw [hphase] at h
    cases h
  · rfl

/-- A call that has come to a rejection hands the callback back. -/
theorem Job.reject_of_eq {job : Job T} {reason : DispatchDenied}
    (h : job.kind.phase = .refused reason) :
    job.reject = { job with returned := some (.rejected reason job.callback) } := by
  unfold Job.reject
  rw [h]

/-- The call of a job goes on, and has not come to a rejection. -/
theorem Job.ok_of_step {job : Job T} {kind : Kind T} {log : List (SlotEffect T)}
    (hphase : kind.phase.isRefused = false)
    (hpermit : PermitOk job.credits job.accountLog kind.phase job.permit)
    (hslot : SlotOk log kind) (hreturned : ReturnedOk job kind.phase) :
    ({ job with kind := kind, slotLog := log } : Job T).reject.Ok := by
  rw [Job.reject_of_ne hphase]
  refine ⟨hpermit, hslot, ?_⟩
  show ReturnedOk _ kind.phase
  unfold ReturnedOk at hreturned ⊢
  exact hreturned

/-- The call of a job comes to a rejection. -/
theorem Job.ok_of_refusal {job : Job T} {kind : Kind T} {log : List (SlotEffect T)}
    {reason : DispatchDenied} (hphase : kind.phase = .refused reason)
    (hpermit : PermitOk job.credits job.accountLog (.refused reason) job.permit)
    (hslot : SlotOk log kind) (hscheduled : job.scheduled = []) :
    ({ job with kind := kind, slotLog := log } : Job T).reject.Ok := by
  rw [Job.reject_of_eq hphase]
  refine ⟨?_, hslot, ?_⟩
  · show PermitOk job.credits job.accountLog kind.phase job.permit
    rw [hphase]
    exact hpermit
  · show ReturnedOk _ kind.phase
    rw [hphase]
    exact ⟨rfl, hscheduled⟩

/-- How the phase of a late end depends on the lease. -/
theorem exitPhase_late {exit : Exit} (h : Late exit) :
    exitPhase false exit = exitPhase true exit ∨
      (exit = .denied .budget ∧ exitPhase false exit = .refusing ∧
        exitPhase true exit = .refused .budget) := by
  rcases h with rfl | rfl | rfl | rfl
  · exact .inr ⟨rfl, rfl, rfl⟩
  · exact .inl rfl
  · exact .inl rfl
  · exact .inl rfl

/-- While the lease is dropped the call has not come to a rejection. -/
theorem exitPhase_isRefused (exit : Exit) : (exitPhase false exit).isRefused = false := by
  cases exit <;> rfl

/-- A reservation that was made and not settled. -/
theorem settling_held (n : Int) (started : Option UInt64) :
    Settling n started.isSome [.place, .debit n] (.held ⟨n, started, false⟩ 0) :=
  ⟨rfl, rfl, rfl⟩

/-- A step of `dispatch_to` or its turn that does not touch the permit. -/
theorem Job.Ok.turn {job : Job T} {o : Nat} {s s' : Owner.State T} {call call' : Owner.Call T}
    {event : Owner.Event T} (h : job.Ok) (hkind : job.kind = .turn o call)
    (hfits : Owner.Fits s call) (hown : ownEvent job event = true)
    (hs : Owner.stepCall s call event = some (s', call')) :
    ({ job with
      kind := .turn o call'
      slotLog := job.slotLog ++ slotEffects o s call event } : Job T).reject.Ok := by
  obtain ⟨hpermit, hslot, hreturned⟩ := h
  rw [hkind] at hpermit hslot hreturned
  cases call with
  | checkWorker worker workers =>
    cases event <;> simp only [Owner.stepCall, reduceCtorEq] at hs
    have hlog : job.slotLog ++ slotEffects o s (.checkWorker worker workers) .advance = [] := by
      rw [show job.slotLog = [] from hslot]
      rfl
    rw [hlog]
    split at hs
    · cases hs
      exact ok_of_refusal rfl hpermit (.inl ⟨.inl rfl, rfl⟩) hreturned.2
    · cases hs
      exact ok_of_step rfl hpermit rfl hreturned
  | exchangeAdmitted =>
    cases event <;> simp only [Owner.stepCall, reduceCtorEq] at hs
    have hnil : job.slotLog = [] := hslot
    rw [hnil]
    -- A call that loses the compare-exchange leaves the gate to the one that has it.
    split at hs
    · rename_i hadmitted
      cases hs
      have heff : slotEffects o s .exchangeAdmitted .advance = [] := if_pos hadmitted
      rw [heff]
      exact ok_of_refusal rfl hpermit (.inl ⟨.inr rfl, rfl⟩) hreturned.2
    · rename_i hadmitted
      cases hs
      have heff : slotEffects o s .exchangeAdmitted .advance = [.exchange o] := if_neg hadmitted
      rw [heff]
      exact ok_of_step rfl hpermit rfl hreturned
  | take =>
    -- The slot has the value, so the `expect` passes.
    obtain ⟨value, hvalue⟩ := Option.isSome_iff_exists.mp (show s.value.isSome from hfits)
    cases event <;> simp only [Owner.stepCall, hvalue, reduceCtorEq] at hs
    cases hs
    have hlog : job.slotLog ++ slotEffects o s .take .advance = [.exchange o, .take o value] := by
      rw [show job.slotLog = [.exchange o] from hslot]
      simp [slotEffects, hvalue]
    rw [hlog]
    exact ok_of_step rfl hpermit rfl hreturned
  | taken value =>
    cases event <;> cases hs
    have hlog : job.slotLog = [.exchange o, .take o value] := hslot
    refine ok_of_step rfl ?_ ⟨value, rfl, (List.append_nil _).trans hlog⟩ hreturned
    show PermitOk _ _ .reserve job.permit
    rw [show job.permit = none from hpermit.1]
    exact hpermit.2
  | reserve lease => cases event <;> first | cases hs | cases hown
  | queued lease =>
    cases event with
    | cancel =>
      -- The future was not polled, so the lease still has what was taken.
      cases hs
      obtain ⟨v, hv, hlog⟩ := hslot
      refine ok_of_step rfl ?_ ⟨.inr (.inr (.inr rfl)), v, (List.append_nil _).trans hlog,
        fun _ => hv⟩ hreturned
      refine ⟨_, hpermit.1, ?_⟩
      rw [hpermit.2]
      exact settling_held _ none
    | enter panics => cases hown
    | _ => cases hs
  | entered lease =>
    cases event <;> simp only [Owner.stepCall, reduceCtorEq] at hs
    -- The lease has the value, so the `expect` passes.
    rw [if_pos hfits.2] at hs
    cases hs
    obtain ⟨v, hlog⟩ := hslot
    exact ok_of_step rfl hpermit ⟨v, (List.append_nil _).trans hlog⟩ hreturned
  | turn lease =>
    obtain ⟨v, hlog⟩ := hslot
    obtain ⟨now, hheld, haccount⟩ := hpermit
    cases event with
    | write value =>
      cases hs
      exact ok_of_step rfl ⟨now, hheld, haccount⟩ ⟨v, (List.append_nil _).trans hlog⟩ hreturned
    | leave panics =>
      cases panics with
      | false =>
        cases hs
        refine ok_of_step rfl ⟨_, hheld, ?_⟩ ⟨v, (List.append_nil _).trans hlog⟩ hreturned
        rw [haccount]
        exact settling_held _ (some now)
      | true =>
        cases hs
        refine ok_of_step rfl ⟨_, hheld, ?_⟩ ⟨.inr (.inr (.inl rfl)), v,
          (List.append_nil _).trans hlog, fun hu => absurd hu untouched_panicked⟩ hreturned
        rw [haccount]
        exact settling_held _ (some now)
    | _ => cases hs
  | finish lease =>
    obtain ⟨v, hlog⟩ := hslot
    obtain ⟨w, hw, hsettling⟩ := hpermit
    cases event with
    | finish panics =>
      cases panics with
      | false =>
        cases hs
        -- The permit was finished and dropped before.
        have hdropped : ∃ r cpu, w = .dropped r cpu := by
          simp only [ownEvent, hw] at hown
          cases w <;> first | exact ⟨_, _, rfl⟩ | cases hown
        obtain ⟨r, cpu, rfl⟩ := hdropped
        exact ok_of_step rfl ⟨r, cpu, hw, hsettling⟩ ⟨.inr (.inl rfl), v,
          (List.append_nil _).trans hlog, fun hu => absurd hu untouched_returned⟩ hreturned
      | true =>
        simp only [ownEvent, hw] at hown
        cases w <;> cases hown
    | _ => cases hs
  | dropWrite lease exit =>
    cases event <;> cases hs
    obtain ⟨hlate, v, hlog, hu⟩ := hslot
    obtain ⟨value, hvalue⟩ := Option.isSome_iff_exists.mp hfits.2
    refine ok_of_step (exitPhase_isRefused exit) hpermit
      ⟨hlate, v, value, ?_, fun hut => ?_⟩ hreturned
    · rw [hlog]
      show _ ++ [SlotEffect.put o lease.value] = _
      rw [hvalue]
      rfl
    · have hsame := hu hut
      rw [hvalue] at hsame
      exact Option.some.inj hsame
  | dropStore exit =>
    cases event <;> cases hs
    obtain ⟨hlate, v, w, hlog, hu⟩ := hslot
    have hslot' : SlotOk (job.slotLog ++ slotEffects o s (.dropStore exit) .advance)
        (.turn o (.ended exit)) := by
      refine .inr ⟨hlate, v, w, ?_, hu⟩
      rw [hlog]
      rfl
    -- The gate is open again: a call without a permit returns, and the others have returned.
    rcases exitPhase_late hlate with hsame | ⟨rfl, -, hrefused⟩
    · have hphase : Kind.phase (.turn o (.dropStore exit) : Kind T) =
          Kind.phase (.turn o (.ended exit) : Kind T) := hsame
      rw [hphase] at hpermit hreturned
      refine ok_of_step ?_ hpermit hslot' hreturned
      rw [← hphase]
      exact exitPhase_isRefused exit
    · exact ok_of_refusal hrefused hpermit hslot' hreturned.2
  | ended exit => cases event <;> cases hs

/-- The two ways the call of a job moves. -/
theorem stepKind_cases {job job' : Job T} {owners owners' : List (Owner.State T)}
    {event : Owner.Event T} (h : stepKind owners job event = some (owners', job')) :
    (∃ o call s s' call', job.kind = .turn o call ∧ owners[o]? = some s ∧
      Owner.stepCall s call event = some (s', call') ∧ owners' = owners.set o s' ∧
      job' = { job with
        kind := .turn o call'
        slotLog := job.slotLog ++ slotEffects o s call event }) ∨
    ∃ call call', job.kind = .helper call ∧ stepHelper call event = some call' ∧
      owners' = owners ∧ job' = { job with kind := .helper call' } := by
  unfold stepKind at h
  split at h
  · rename_i o call hkind
    split at h
    · cases h
    · rename_i s ho
      obtain ⟨⟨s', call'⟩, hstep, heq⟩ := Option.map_eq_some_iff.mp h
      cases heq
      exact .inl ⟨o, call, s, s', call', hkind, ho, hstep, rfl, rfl⟩
  · rename_i call hkind
    obtain ⟨call', hstep, heq⟩ := Option.map_eq_some_iff.mp h
    cases heq
    exact .inr ⟨call, call', hkind, hstep, rfl, rfl⟩

/-- A step of a helper that does not touch the permit. -/
theorem Job.Ok.helper {job : Job T} {call call' : Helper} {event : Owner.Event T} (h : job.Ok)
    (hkind : job.kind = .helper call) (hown : ownEvent job event = true)
    (hs : stepHelper call event = some call') :
    ({ job with kind := .helper call' } : Job T).reject.Ok := by
  obtain ⟨hpermit, hslot, hreturned⟩ := h
  rw [hkind] at hpermit hslot hreturned
  cases call with
  | reserve => cases event <;> first | cases hs | cases hown
  | queued =>
    cases event with
    | cancel =>
      cases hs
      -- The future was not polled, so the permit is as it was granted.
      refine ok_of_step rfl ⟨_, hpermit.1, ?_⟩ hslot hreturned
      rw [hpermit.2]
      exact settling_held _ none
    | enter panics => cases hown
    | _ => cases hs
  | work =>
    obtain ⟨now, hheld, haccount⟩ := hpermit
    cases event with
    | leave panics =>
      cases panics with
      | false =>
        cases hs
        refine ok_of_step rfl ⟨_, hheld, ?_⟩ hslot hreturned
        rw [haccount]
        exact settling_held _ (some now)
      | true =>
        cases hs
        refine ok_of_step rfl ⟨_, hheld, ?_⟩ hslot hreturned
        rw [haccount]
        exact settling_held _ (some now)
    | _ => cases hs
  | finish =>
    obtain ⟨w, hw, hsettling⟩ := hpermit
    cases event with
    | finish panics =>
      -- The task returns after its permit is gone.
      simp only [ownEvent, hw] at hown
      cases w with
      | dropped r cpu =>
        cases panics with
        | false =>
          cases hs
          exact ok_of_step rfl ⟨r, cpu, hw, hsettling⟩ hslot hreturned
        | true => cases hown
      | _ => cases hown
    | _ => cases hs
  | ended exit => cases event <;> cases hs

/-- The answer of `reserve` comes to a turn that holds its lease, or to the helper. -/
theorem stepKind_reserve {job job' : Job T} {owners owners' : List (Owner.State T)}
    {result : Owner.Reserve} (hphase : job.kind.phase = .reserve)
    (hs : stepKind owners job (.reserve result) = some (owners', job')) :
    (∃ o lease s s' call', job.kind = .turn o (.reserve lease) ∧
      Owner.stepCall s (.reserve lease) (.reserve result) = some (s', call') ∧
      job' = { job with
        kind := .turn o call'
        slotLog := job.slotLog ++ slotEffects o s (.reserve lease) (.reserve result) }) ∨
    ∃ call', job.kind = .helper .reserve ∧
      stepHelper .reserve (.reserve result : Owner.Event T) = some call' ∧
      job' = { job with kind := .helper call' } := by
  rcases stepKind_cases hs with ⟨o, call, s, s', call', hkind, -, hstep, -, rfl⟩ |
    ⟨call, call', hkind, hstep, -, rfl⟩
  · rw [hkind] at hphase
    cases call with
    | reserve lease => exact .inl ⟨o, lease, s, s', call', hkind, hstep, rfl⟩
    | dropWrite lease exit => cases hstep
    | dropStore exit => cases hstep
    | ended exit => cases hstep
    | _ => cases hphase
  · rw [hkind] at hphase
    cases call with
    | reserve => exact .inr ⟨call', hkind, hstep, rfl⟩
    | ended exit => cases hstep
    | _ => cases hphase

/-- `reserve` made a reservation, and the future is submitted. -/
theorem Job.Ok.granted {job job' : Job T} {owners owners' : List (Owner.State T)}
    {r : CpuReservation} {cpu : Nat} (h : job.Ok) (hphase : job.kind.phase = .reserve)
    (hheld : job.permit = some (.held r cpu))
    (hs : stepKind owners job (.reserve .granted) = some (owners', job')) :
    ({ job' with
      returned := some .ok
      scheduled := job'.scheduled ++ [job'.callback] } : Job T).Ok := by
  obtain ⟨hpermit, hslot, hreturned⟩ := h
  rw [hphase, hheld] at hpermit
  rw [hphase] at hreturned
  obtain ⟨rfl, rfl, hlog⟩ := hpermit
  have hscheduled : job.scheduled ++ [job.callback] = [job.callback] := by
    rw [hreturned.2]
    rfl
  rcases stepKind_reserve hphase hs with ⟨o, lease, s, s', call', hkind, hstep, rfl⟩ |
    ⟨call', hkind, hstep, rfl⟩
  · rw [hkind] at hslot
    cases hstep
    obtain ⟨v, hv, hl⟩ := hslot
    exact ⟨⟨hheld, hlog⟩, ⟨v, hv, (List.append_nil _).trans hl⟩, rfl, hscheduled⟩
  · rw [hkind] at hslot
    cases hstep
    exact ⟨⟨hheld, hlog⟩, hslot, rfl, hscheduled⟩

/-- `reserve` was refused. -/
theorem Job.Ok.denied {job job' : Job T} {owners owners' : List (Owner.State T)} (h : job.Ok)
    (hphase : job.kind.phase = .reserve) (hdenied : job.permit = some .denied)
    (hs : stepKind owners job (.reserve .refused) = some (owners', job')) : job'.reject.Ok := by
  obtain ⟨hpermit, hslot, hreturned⟩ := h
  rw [hphase, hdenied] at hpermit
  rw [hphase] at hreturned
  rcases stepKind_reserve hphase hs with ⟨o, lease, s, s', call', hkind, hstep, rfl⟩ |
    ⟨call', hkind, hstep, rfl⟩
  · rw [hkind] at hslot
    cases hstep
    obtain ⟨v, hv, hl⟩ := hslot
    exact ok_of_step rfl ⟨hdenied, hpermit⟩
      ⟨.inl rfl, v, (List.append_nil _).trans hl, fun _ => hv⟩ hreturned
  · rw [hkind] at hslot
    cases hstep
    exact ok_of_refusal rfl ⟨hdenied, hpermit⟩ hslot hreturned.2

/-- Only a queued call is entered. -/
theorem phase_of_enter {job job' : Job T} {owners owners' : List (Owner.State T)}
    (hs : stepKind owners job (.enter false) = some (owners', job')) :
    job.kind.phase = .queued := by
  rcases stepKind_cases hs with ⟨o, call, s, s', call', hkind, -, hstep, -, -⟩ |
    ⟨call, call', hkind, hstep, -, -⟩
  · rw [hkind]
    cases call with
    | queued lease => rfl
    | _ => cases hstep
  · rw [hkind]
    cases call with
    | queued => rfl
    | _ => cases hstep

/-- The first poll of a queued future finds a permit that was not entered, so the assertion of
`enter` holds. -/
theorem Job.Ok.entering {job job' : Job T} {owners owners' : List (Owner.State T)} (h : job.Ok)
    (hs : stepKind owners job (.enter false) = some (owners', job')) :
    job.permit = some (.held ⟨job.credits.toNat, none, false⟩ 0) ∧
      job.accountLog = [.place, .debit job.credits.toNat] := by
  have hpermit := h.permit
  rw [phase_of_enter hs] at hpermit
  exact hpermit

/-- The first poll of a queued future. -/
theorem Job.Ok.enter [Target] {job job' : Job T} {owners owners' : List (Owner.State T)}
    {a a' : CreditAccount} {w w' : Work} {now : UInt64} {clock : List UInt64} (h : job.Ok)
    (hw : job.permit = some w) (hwork : Credits.stepWork a w (.enter now) = some (a', w'))
    (hs : stepKind owners job (.enter false) = some (owners', job')) :
    ({ job' with permit := some w', clock := clock } : Job T).Ok := by
  obtain ⟨hheld, hlog⟩ := h.entering hs
  obtain ⟨-, hslot, hreturned⟩ := h
  have hentered : PermitOk job.credits job.accountLog .running (some w') := by
    rw [hw] at hheld
    cases hheld
    cases hwork
    exact ⟨now, rfl, hlog⟩
  rcases stepKind_cases hs with ⟨o, call, s, s', call', hkind, -, hstep, -, rfl⟩ |
    ⟨call, call', hkind, hstep, -, rfl⟩
  · rw [hkind] at hslot hreturned
    cases call with
    | queued lease =>
      cases hstep
      obtain ⟨v, -, hl⟩ := hslot
      exact ⟨hentered, ⟨v, (List.append_nil _).trans hl⟩, hreturned⟩
    | _ => cases hstep
  · rw [hkind] at hslot hreturned
    cases call with
    | queued =>
      cases hstep
      exact ⟨hentered, hslot, hreturned⟩
    | _ => cases hstep

/-- The steps of a job, each with what it checked. -/
inductive JobTurn [Target] (a : CreditAccount) (owners : List (Owner.State T)) (job : Job T) :
    JobEvent T → CreditAccount → List (Owner.State T) → Job T → Prop where
  | call {event : Owner.Event T} {owners' : List (Owner.State T)} {job' : Job T}
      (own : ownEvent job event = true)
      (step : stepKind owners job event = some (owners', job')) :
      JobTurn a owners job (.call event) a owners' job'.reject
  | ask (phase : job.kind.phase = .reserve) (permit : job.permit = none) :
      JobTurn a owners job .ask a owners { job with permit := some (.reserve job.credits) }
  | permit {w w' : Work} {a' : CreditAccount} {event : Credits.Event}
      (permit : job.permit = some w) (allowed : permitEvent job.kind.phase w event = true)
      (step : Credits.stepWork a w event = some (a', w')) :
      JobTurn a owners job (.permit event) a' owners { job with
        permit := some w'
        accountLog := job.accountLog ++ accountEffects a w event
        clock := job.clock ++ readings event }
  | notify {w w' : Work} (permit : job.permit = some w)
      (step : Credits.afterNotify w = some w') :
      JobTurn a owners job .notify a owners { job with permit := some w' }
  | denied {owners' : List (Owner.State T)} {job' : Job T} (phase : job.kind.phase = .reserve)
      (permit : job.permit = some .denied)
      (step : stepKind owners job (.reserve .refused) = some (owners', job')) :
      JobTurn a owners job .answer a owners' job'.reject
  | granted {owners' : List (Owner.State T)} {job' : Job T} {r : CpuReservation} {cpu : Nat}
      (phase : job.kind.phase = .reserve) (permit : job.permit = some (.held r cpu))
      (step : stepKind owners job (.reserve .granted) = some (owners', job')) :
      JobTurn a owners job .answer a owners' { job' with
        returned := some .ok
        scheduled := job'.scheduled ++ [job'.callback] }
  | enter {owners' : List (Owner.State T)} {job' : Job T} {w w' : Work} {a' : CreditAccount}
      {now : UInt64} (permit : job.permit = some w)
      (work : Credits.stepWork a w (.enter now) = some (a', w'))
      (step : stepKind owners job (.enter false) = some (owners', job')) :
      JobTurn a owners job (.enter now) a' owners' { job' with
        permit := some w'
        clock := job'.clock ++ readings (.enter now) }

/-- A step of a job is one of these. -/
theorem stepJob_turn [Target] {a a' : CreditAccount} {owners owners' : List (Owner.State T)}
    {job job' : Job T} {event : JobEvent T}
    (h : stepJob a owners job event = some (a', owners', job')) :
    JobTurn a owners job event a' owners' job' := by
  -- An event that goes through is one constructor of `JobTurn`.
  cases event with
  | call event =>
    simp only [stepJob] at h
    split at h
    · rename_i hown
      obtain ⟨⟨owners₁, job₁⟩, hstep, heq⟩ := Option.map_eq_some_iff.mp h
      cases heq
      exact .call hown hstep
    · cases h
  | ask =>
    simp only [stepJob] at h
    split at h
    · rename_i hphase hnone
      cases h
      exact .ask hphase hnone
    · cases h
  | permit event =>
    simp only [stepJob] at h
    split at h
    · cases h
    · rename_i w hw
      split at h
      · rename_i hallowed
        obtain ⟨⟨a₁, w'⟩, hstep, heq⟩ := Option.map_eq_some_iff.mp h
        cases heq
        exact .permit hw hallowed hstep
      · cases h
  | notify =>
    simp only [stepJob] at h
    obtain ⟨w', hbind, heq⟩ := Option.map_eq_some_iff.mp h
    cases heq
    obtain ⟨w, hw, hnotify⟩ := Option.bind_eq_some_iff.mp hbind
    exact .notify hw hnotify
  | answer =>
    simp only [stepJob] at h
    split at h
    · rename_i hphase hdenied
      obtain ⟨⟨owners₁, job₁⟩, hstep, heq⟩ := Option.map_eq_some_iff.mp h
      cases heq
      exact .denied hphase hdenied hstep
    · rename_i r cpu hphase hheld
      obtain ⟨⟨owners₁, job₁⟩, hstep, heq⟩ := Option.map_eq_some_iff.mp h
      cases heq
      exact .granted hphase hheld hstep
    · cases h
  | enter now =>
    simp only [stepJob] at h
    split at h
    · cases h
    · rename_i w hw
      obtain ⟨⟨a₁, w'⟩, hwork, h⟩ := Option.bind_eq_some_iff.mp h
      obtain ⟨⟨owners₁, job₁⟩, hstep, heq⟩ := Option.map_eq_some_iff.mp h
      cases heq
      exact .enter hw hwork hstep

/-- One step of a job keeps what is known of it. -/
theorem Job.Ok.step [Target] {job job' : Job T} {owners owners' : List (Owner.State T)} {p : Nat}
    {a a' : CreditAccount} {event : JobEvent T} (h : job.Ok) (hfits : job.kind.Fits owners)
    (hwork : ∀ w, job.permit = some w → w.Fits p)
    (hs : stepJob a owners job event = some (a', owners', job')) : job'.Ok := by
  cases stepJob_turn hs with
  | call own step =>
    rcases stepKind_cases step with ⟨o, call, s, s', call', hkind, ho, hcall, -, rfl⟩ |
      ⟨call, call', hkind, hcall, -, rfl⟩
    · rw [hkind] at hfits
      exact h.turn hkind (hfits s ho) own hcall
    · exact h.helper hkind own hcall
  | ask phase permit =>
    obtain ⟨hpermit, hslot, hreturned⟩ := h
    rw [phase, permit] at hpermit
    rw [phase] at hreturned
    refine ⟨?_, hslot, ?_⟩
    · show PermitOk job.credits job.accountLog job.kind.phase (some _)
      rw [phase]
      exact ⟨rfl, hpermit⟩
    · show ReturnedOk _ job.kind.phase
      rw [phase]
      exact hreturned
  | permit permit allowed step =>
    obtain ⟨hpermit, hslot, hreturned⟩ := h
    rw [permit] at hpermit
    refine ⟨hpermit.step (hwork _ permit) allowed step, hslot, ?_⟩
    unfold ReturnedOk at hreturned ⊢
    exact hreturned
  | notify permit step =>
    obtain ⟨hpermit, hslot, hreturned⟩ := h
    rw [permit] at hpermit
    refine ⟨hpermit.notify step, hslot, ?_⟩
    unfold ReturnedOk at hreturned ⊢
    exact hreturned
  | denied phase permit step => exact h.denied phase permit step
  | granted phase permit step => exact h.granted phase permit step
  | enter permit work step => exact h.enter permit work step

/-! ### A step of a job, seen from the account and from the owners -/

/-- What a step of a job does to its permit. -/
inductive PermitStep [Target] (a : CreditAccount) (job : Job T) (a' : CreditAccount)
    (job' : Job T) : Prop where
  | same (account : a' = a) (permit : job'.permit = job.permit)
      (log : job'.accountLog = job.accountLog)
  | ask (account : a' = a) (before : job.permit = none)
      (after : job'.permit = some (.reserve job.credits)) (log : job'.accountLog = job.accountLog)
  | work {w w' : Work} {e : Credits.Event} (before : job.permit = some w)
      (after : job'.permit = some w') (step : Credits.stepWork a w e = some (a', w'))
      (log : job'.accountLog = job.accountLog ++ accountEffects a w e)
  | notify {w w' : Work} (account : a' = a) (before : job.permit = some w)
      (after : job'.permit = some w') (step : Credits.afterNotify w = some w')
      (log : job'.accountLog = job.accountLog)

/-- What a step of a job does to its owner. -/
inductive OwnerStep (owners : List (Owner.State T)) (job : Job T)
    (owners' : List (Owner.State T)) (job' : Job T) : Prop where
  | same (owners : owners' = owners) (kind : job'.kind = job.kind)
      (log : job'.slotLog = job.slotLog)
  | turn {o : Nat} {s s' : Owner.State T} {call call' : Owner.Call T} {e : Owner.Event T}
      (before : job.kind = .turn o call) (after : job'.kind = .turn o call')
      (owner : owners[o]? = some s) (step : Owner.stepCall s call e = some (s', call'))
      (owners : owners' = owners.set o s')
      (log : job'.slotLog = job.slotLog ++ slotEffects o s call e)
  | helper {call call' : Helper} (before : job.kind = .helper call)
      (after : job'.kind = .helper call') (owners : owners' = owners)
      (log : job'.slotLog = job.slotLog)

/-- A rejection touches neither the permit nor the call. -/
theorem Job.reject_frame (job : Job T) :
    job.reject.kind = job.kind ∧ job.reject.slotLog = job.slotLog ∧
      job.reject.permit = job.permit ∧ job.reject.accountLog = job.accountLog ∧
      job.reject.clock = job.clock := by
  unfold Job.reject
  split <;> exact ⟨rfl, rfl, rfl, rfl, rfl⟩

/-- A step of the call of a job touches neither its permit nor what it was given. `next` is what
the caller makes of the job after it. -/
theorem stepKind_spec {job job' : Job T} {owners owners' : List (Owner.State T)}
    {event : Owner.Event T} (h : stepKind owners job event = some (owners', job')) :
    (∀ next : Job T, next.kind = job'.kind → next.slotLog = job'.slotLog →
      OwnerStep owners job owners' next) ∧
    job'.permit = job.permit ∧ job'.accountLog = job.accountLog ∧ job'.clock = job.clock ∧
    job'.credits = job.credits ∧ job'.callback = job.callback := by
  rcases stepKind_cases h with ⟨o, call, s, s', call', hbefore, ho, hstep, rfl, rfl⟩ |
    ⟨call, call', hbefore, hstep, rfl, rfl⟩
  · exact ⟨fun _ hkind hlog => .turn hbefore hkind ho hstep rfl hlog, rfl, rfl, rfl, rfl, rfl⟩
  · exact ⟨fun _ hkind hlog => .helper hbefore hkind rfl hlog, rfl, rfl, rfl, rfl, rfl⟩

/-- The entry of a permit does nothing to the account. -/
theorem accountEffects_enter (a : CreditAccount) (w : Work) (now : UInt64) :
    accountEffects a w (.enter now) = [] := by
  cases w <;> rfl

/-- One step of a job. -/
theorem stepJob_spec [Target] {a a' : CreditAccount} {owners owners' : List (Owner.State T)}
    {job job' : Job T} {e : JobEvent T} (h : stepJob a owners job e = some (a', owners', job')) :
    PermitStep a job a' job' ∧ OwnerStep owners job owners' job' := by
  have hreject {event : Owner.Event T} {job₁ : Job T}
      (hs : stepKind owners job event = some (owners', job₁)) :
      PermitStep a job a job₁.reject ∧ OwnerStep owners job owners' job₁.reject := by
    obtain ⟨hkind, hslot, hpermit, haccount, -⟩ := job₁.reject_frame
    obtain ⟨howner, hsame, hlog, -⟩ := stepKind_spec hs
    exact ⟨.same rfl (hpermit.trans hsame) (haccount.trans hlog), howner _ hkind hslot⟩
  cases stepJob_turn h with
  | call own step => exact hreject step
  | ask phase permit => exact ⟨.ask rfl permit rfl rfl, .same rfl rfl rfl⟩
  | permit permit allowed step => exact ⟨.work permit rfl step rfl, .same rfl rfl rfl⟩
  | notify permit step => exact ⟨.notify rfl permit rfl step rfl, .same rfl rfl rfl⟩
  | denied phase permit step => exact hreject step
  | granted phase permit step =>
    obtain ⟨howner, hsame, hlog, -⟩ := stepKind_spec step
    exact ⟨.same rfl hsame hlog, howner _ rfl rfl⟩
  | enter permit work step =>
    obtain ⟨howner, -, hlog, -⟩ := stepKind_spec step
    refine ⟨.work permit rfl work ?_, howner _ rfl rfl⟩
    rw [accountEffects_enter, List.append_nil]
    exact hlog

/-! ### The clock over a step of a job -/

/-- The times that a step of a job reads. -/
def JobEvent.readings : JobEvent T → List UInt64
  | .permit event => Dispatch.readings event
  | .enter now => [now]
  | _ => []

/-- A step of a job adds to its record the times that it reads. -/
theorem stepJob_clock [Target] {a a' : CreditAccount} {owners owners' : List (Owner.State T)}
    {job job' : Job T} {e : JobEvent T} (h : stepJob a owners job e = some (a', owners', job')) :
    job'.clock = job.clock ++ e.readings := by
  cases stepJob_turn h with
  | @call _ _ job₁ own step =>
    obtain ⟨-, -, -, -, hclock⟩ := job₁.reject_frame
    obtain ⟨-, -, -, hsame, -⟩ := stepKind_spec step
    exact (hclock.trans hsame).trans (List.append_nil _).symm
  | @denied _ job₁ phase permit step =>
    obtain ⟨-, -, -, -, hclock⟩ := job₁.reject_frame
    obtain ⟨-, -, -, hsame, -⟩ := stepKind_spec step
    exact (hclock.trans hsame).trans (List.append_nil _).symm
  | granted phase permit step =>
    obtain ⟨-, -, -, hsame, -⟩ := stepKind_spec step
    exact hsame.trans (List.append_nil _).symm
  | enter permit work step =>
    obtain ⟨-, -, -, hsame, -⟩ := stepKind_spec step
    exact congrArg (· ++ _) hsame
  | permit => rfl
  | ask | notify => exact (List.append_nil _).symm

/-- The record of a job agrees with its permit. -/
def Job.Clocked (job : Job T) : Prop := job.permit.elim (job.clock = []) (Metered job.clock)

/-- One step of a job keeps its record right. -/
theorem Job.Clocked.step [Target] {job job' : Job T} {owners owners' : List (Owner.State T)}
    {p : Nat} {a a' : CreditAccount} {event : JobEvent T} (h : job.Clocked) (hok : job.Ok)
    (hwork : ∀ w, job.permit = some w → w.Fits p)
    (hs : stepJob a owners job event = some (a', owners', job')) : job'.Clocked := by
  have hclock := stepJob_clock hs
  unfold Job.Clocked at h ⊢
  rw [hclock]
  -- A step that touches neither the permit nor the clock.
  have hsame (hpermit : job'.permit = job.permit) (hread : event.readings = []) :
      job'.permit.elim (job.clock ++ event.readings = [])
        (Metered (job.clock ++ event.readings)) := by
    rw [hpermit, hread, List.append_nil]
    exact h
  cases stepJob_turn hs with
  | @call _ _ job₁ own step =>
    obtain ⟨-, -, hpermit, -, -⟩ := job₁.reject_frame
    exact hsame (hpermit.trans (stepKind_spec step).2.1) rfl
  | @denied _ job₁ phase permit step =>
    obtain ⟨-, -, hpermit, -, -⟩ := job₁.reject_frame
    exact hsame (hpermit.trans (stepKind_spec step).2.1) rfl
  | granted phase permit step => exact hsame (stepKind_spec step).2.1 rfl
  | ask phase permit =>
    rw [permit] at h
    exact (List.append_nil _).trans h
  | @notify w w' permit step =>
    rw [permit] at h
    have hdone (r : CpuReservation) (cpu : Nat) (drop : Bool)
        (heq : w = .settleNotify r cpu drop) : r.done = true := by
      subst heq
      exact (hwork _ permit).2
    show Metered (job.clock ++ []) w'
    rw [List.append_nil]
    exact Metered.notify h hdone step
  | @permit w w' _ e permit allowed step =>
    rw [permit] at h
    refine Metered.step h ?_ step
    -- Only the first poll enters a permit, and that is another step.
    rintro now r cpu rfl -
    cases allowed
  | @enter _ job₁ w w' _ now permit work step =>
    rw [permit] at h
    refine Metered.step h ?_ work
    rintro _ r cpu - rfl
    cases permit.symm.trans (hok.entering step).1
    exact ⟨rfl, rfl⟩

end Nagoya.Dispatch
