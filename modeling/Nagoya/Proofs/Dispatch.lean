import Nagoya.Proofs.Dispatch.System

/-!
# `Nagoya.Proofs.Dispatch`: a dispatch takes everything or nothing

At the end of a job its logs are whole. A rejected call gave back what it took, and a task that
ended gave the lease back and settled the reservation, whichever it dropped first. Of a job that is
not over some step lowers `Job.rank`, so the steps of a job alone bring it to its end.
-/

set_option autoImplicit false

namespace Nagoya.Dispatch

open Nagoya.Lib
open Nagoya.Owner (DispatchDenied Exit)
open Nagoya.Credits (CreditAccount CpuReservation Work)

variable {T : Type}

/-! ### The end of a job -/

/-- How a job ends, once its call is over. -/
def Kind.exit : Kind T → Option Exit
  | .turn _ (.ended exit) | .helper (.ended exit) => some exit
  | _ => none

/-- All that a call which took the lease of the value `v`, and left the value `w` in it, does to
its owner. -/
def turnLog (o : Nat) (v w : T) : List (SlotEffect T) :=
  [.exchange o, .take o v, .put o (some w), .release o]

/-- All that a reservation of `n` which measured `cpu` does to the account. -/
def reservationLog (n : Int) (cpu : Nat) : List AccountEffect :=
  [.place, .debit n, .credit (refund n cpu), .unplace]

/-- What a rejected call did is nothing: it did not come to the owner, or it put back the value it
took, and the same for the place in the account. -/
structure NoEffect (job : Job T) : Prop where
  slot : job.slotLog = [] ∨
    ∃ o call v, job.kind = .turn o call ∧ job.slotLog = turnLog o v v
  account : job.accountLog = [] ∨ job.accountLog = [.place, .unplace]
  /-- The owner it took the value from is as it was. -/
  slotNet : ∀ owners, (∀ o v, SlotEffect.take o v ∈ job.slotLog →
    owners[o]? = some { admitted := false, value := some v }) →
    job.slotLog.foldl SlotEffect.apply owners = owners
  accountNet : ∀ a, job.accountLog.foldl AccountEffect.apply a = a

/-- What a submitted task did so far: it took one lease, when it is a turn, and made one
reservation. -/
structure Taken (job : Job T) : Prop where
  slot : match job.kind with
    | .turn o _ => ∃ v w, [.exchange o, .take o v] <+: job.slotLog ∧ job.slotLog <+: turnLog o v w
    | .helper _ => job.slotLog = []
  account : ∃ cpu, [.place, .debit job.credits.toNat] <+: job.accountLog ∧
    job.accountLog <+: reservationLog job.credits.toNat cpu

/-- What a task did that ended and dropped its permit: it gave the lease back once, and settled the
reservation once. A task that was not entered read no clock, and gave back the value and the credit
it took. A task that was entered read the clock then and at its end, and is charged for the time
between. -/
structure Settled (job : Job T) (exit : Exit) : Prop where
  ended : exit = .returned ∨ exit = .panicked ∨ exit = .cancelled
  slot : match job.kind with
    | .turn o _ => ∃ v w, job.slotLog = turnLog o v w ∧ (exit = .cancelled → w = v)
    | .helper _ => job.slotLog = []
  cancelled : exit = .cancelled → job.clock = [] ∧
    job.accountLog = [.place, .debit job.credits.toNat, .credit job.credits.toNat, .unplace]
  entered : exit ≠ .cancelled → ∃ start stop, job.clock = [start, stop] ∧
    job.accountLog = reservationLog job.credits.toNat (stop.toNat - start.toNat)

/-- The job has returned a rejection, or its task ended and dropped its permit. -/
def Job.Over (job : Job T) : Prop :=
  (∃ reason callback, job.returned = some (.rejected reason callback)) ∨
    ∃ exit r cpu, job.kind.exit = some exit ∧ job.permit = some (.dropped r cpu)

/-- A lease that is given back as it was taken. -/
theorem turnLog_net {owners : List (Owner.State T)} {o : Nat} {v : T}
    (h : owners[o]? = some { admitted := false, value := some v }) :
    (turnLog o v v).foldl SlotEffect.apply owners = owners := by
  refine List.ext_getElem? fun i => ?_
  by_cases hi : o = i
  · subst hi
    simp [turnLog, SlotEffect.apply, h]
  · simp [turnLog, SlotEffect.apply, hi]

/-- A call that came to a rejection has ended. -/
theorem Kind.exit_of_refused {kind : Kind T} {reason : DispatchDenied}
    (h : kind.phase = .refused reason) : kind.exit = some (.denied reason) := by
  have hopen (exit : Exit) (h : exitPhase false exit = .refused reason) : False := by
    have hnot := exitPhase_isRefused exit
    rw [h] at hnot
    cases hnot
  cases kind with
  | turn o call =>
    cases call with
    | dropWrite lease exit => exact (hopen exit h).elim
    | dropStore exit => exact (hopen exit h).elim
    | ended exit =>
      cases exit with
      | denied reason' =>
        cases h
        rfl
      | _ => cases h
    | _ => cases h
  | helper call =>
    cases call with
    | ended exit =>
      cases exit with
      | denied reason' =>
        cases h
        rfl
      | _ => cases h
    | _ => cases h

/-- The phase of a call that ended. -/
theorem Kind.phase_of_exit {kind : Kind T} {exit : Exit} (h : kind.exit = some exit) :
    kind.phase = exitPhase true exit := by
  cases kind with
  | turn o call =>
    cases call <;> cases h
    rfl
  | helper call =>
    cases call <;> cases h
    rfl

/-- A call that returned a rejection. -/
theorem Job.Ok.rejected {job : Job T} (h : job.Ok) {reason : DispatchDenied} {callback : Nat}
    (hr : job.returned = some (.rejected reason callback)) :
    callback = job.callback ∧ job.scheduled = [] ∧ NoEffect job := by
  obtain ⟨hpermit, hslot, hreturned⟩ := h
  -- Only a call that was refused returns `rejected`.
  have hphase : job.kind.phase = .refused reason ∧ callback = job.callback := by
    cases hp : job.kind.phase <;> rw [hp] at hreturned
    case refused reason' =>
      cases hreturned.1.symm.trans hr
      exact ⟨rfl, rfl⟩
    case broken => exact hreturned.elim
    all_goals cases hreturned.1.symm.trans hr
  obtain ⟨hphase, hcallback⟩ := hphase
  rw [hphase] at hpermit hreturned
  -- A call that was refused its budget has given its place back, and the others took none.
  have haccount : job.accountLog = [] ∨ job.accountLog = [.place, .unplace] := by
    cases reason with
    | budget => exact hpermit.2
    | busy => exact .inl hpermit.2
    | worker => exact .inl hpermit.2
  -- Only a call that came to `reserve` took the value, and it put the same value back.
  have hslot' : job.slotLog = [] ∨
      ∃ o call v, job.kind = .turn o call ∧ job.slotLog = turnLog o v v := by
    have hexit := Kind.exit_of_refused hphase
    cases hkind : job.kind with
    | helper call =>
      rw [hkind] at hslot
      exact .inl hslot
    | turn o call =>
      rw [hkind] at hslot hexit
      cases call <;> cases hexit
      rcases hslot with ⟨-, hlog⟩ | ⟨hlate, v, w, hlog, hsame⟩
      · exact .inl hlog
      · have hbudget : (.denied reason : Exit) = .denied .budget := by
          rcases hlate with heq | heq | heq | heq <;> first | exact heq | cases heq
        refine .inr ⟨o, _, v, rfl, ?_⟩
        rw [hlog, hsame (.inl hbudget)]
        rfl
  refine ⟨hcallback, hreturned.2, hslot', haccount, ?_, ?_⟩
  · intro owners howners
    rcases hslot' with hlog | ⟨o, call, v, -, hlog⟩
    · rw [hlog]
      rfl
    · rw [hlog] at howners ⊢
      exact turnLog_net (howners o v (by simp [turnLog]))
  · intro a
    rcases haccount with hlog | hlog <;> rw [hlog]
    · rfl
    · simp [AccountEffect.apply]

/-- What a settling reservation did so far. -/
theorem Settling.soFar {n : Int} {entered : Bool} {log : List AccountEffect} {w : Work}
    (h : Settling n entered log w) :
    ∃ cpu, [.place, .debit n] <+: log ∧ log <+: reservationLog n cpu := by
  have hheld (hlog : log = [.place, .debit n]) :
      ∃ cpu, [.place, .debit n] <+: log ∧ log <+: reservationLog n cpu := by
    rw [hlog]
    exact ⟨0, List.prefix_rfl, ⟨_, rfl⟩⟩
  have hwhole {cpu : Nat} (hlog : log = [.place, .debit n, .credit (refund n cpu), .unplace]) :
      ∃ cpu, [.place, .debit n] <+: log ∧ log <+: reservationLog n cpu := by
    rw [hlog]
    exact ⟨cpu, ⟨_, rfl⟩, List.prefix_rfl⟩
  cases w with
  | held r cpu =>
    obtain ⟨-, -, hlog⟩ := h
    split at hlog
    · exact hwhole hlog
    · exact hheld hlog
  | settle r cpu drop =>
    obtain ⟨-, -, hlog⟩ := h
    split at hlog
    · exact hwhole hlog
    · exact hheld hlog
  | measure r start drop => exact hheld h.2.2
  | adjustLoad credits after =>
    cases after with
    | settle r cpu drop => exact hheld h.2.2.2
    | replenish c => exact h.elim
  | adjustCas credits current after =>
    cases after with
    | settle r cpu drop => exact hheld h.2.2.2
    | replenish c => exact h.elim
  | release r cpu drop =>
    rw [h.2.2]
    exact ⟨cpu, ⟨_, rfl⟩,
      ⟨_, rfl⟩⟩
  | settleNotify r cpu drop => exact hwhole h.2.2.2
  | dropped r cpu => exact hwhole h.2.2
  | _ => exact h.elim

/-- What a turn that was submitted did to its owner so far. -/
theorem SlotOk.soFar {log : List (SlotEffect T)} {o : Nat} {call : Owner.Call T}
    (h : SlotOk log (.turn o call))
    (hphase : Kind.phase (.turn o call) ≠ .admission ∧
      ∀ reason, Kind.phase (.turn o call) ≠ .refused reason) :
    ∃ v w, [.exchange o, .take o v] <+: log ∧ log <+: turnLog o v w := by
  have htaken {v : T} (hlog : log = [.exchange o, .take o v]) :
      ∃ v w, [.exchange o, .take o v] <+: log ∧ log <+: turnLog o v w := by
    rw [hlog]
    exact ⟨v, v, List.prefix_rfl, ⟨_, rfl⟩⟩
  cases call with
  | checkWorker | exchangeAdmitted | take | taken => exact absurd rfl hphase.1
  | reserve | queued =>
    obtain ⟨v, -, hlog⟩ := h
    exact htaken hlog
  | entered | turn | finish =>
    obtain ⟨v, hlog⟩ := h
    exact htaken hlog
  | dropWrite lease exit =>
    obtain ⟨-, v, hlog, -⟩ := h
    exact htaken hlog
  | dropStore exit =>
    obtain ⟨-, v, w, hlog, -⟩ := h
    rw [hlog]
    exact ⟨v, w, ⟨_, rfl⟩,
      ⟨_, rfl⟩⟩
  | ended exit =>
    -- A call that ended before the gate was rejected, and submitted nothing.
    rcases h with ⟨hearly, -⟩ | ⟨-, v, w, hlog, -⟩
    · rcases hearly with rfl | rfl
      · exact absurd rfl (hphase.2 .worker)
      · exact absurd rfl (hphase.2 .busy)
    · rw [hlog]
      exact ⟨v, w, ⟨_, rfl⟩, List.prefix_rfl⟩

/-- The phase of a job that was submitted. -/
theorem Job.Ok.submitted {job : Job T} (h : job.Ok) (hok : job.returned = some .ok) :
    job.kind.phase = .queued ∨ job.kind.phase = .running ∨ job.kind.phase = .finish ∨
      job.kind.phase = .closing ∨ ∃ exit, job.kind.phase = .unwind exit := by
  have hreturned := h.returned
  cases hp : job.kind.phase <;> rw [hp] at hreturned
  case queued => exact .inl rfl
  case running => exact .inr (.inl rfl)
  case finish => exact .inr (.inr (.inl rfl))
  case closing => exact .inr (.inr (.inr (.inl rfl)))
  case unwind exit => exact .inr (.inr (.inr (.inr ⟨exit, rfl⟩)))
  case broken => exact hreturned.elim
  all_goals cases hreturned.1.symm.trans hok

/-- A call that returned `Ok`. -/
theorem Job.Ok.taken {job : Job T} (h : job.Ok) (hok : job.returned = some .ok) :
    job.scheduled = [job.callback] ∧ Taken job := by
  obtain ⟨hpermit, hslot, hreturned⟩ := id h
  have hphase := h.submitted hok
  have hscheduled : job.scheduled = [job.callback] := by
    rcases hphase with hp | hp | hp | hp | ⟨exit, hp⟩ <;> rw [hp] at hreturned <;>
      exact hreturned.2
  have haccount : ∃ cpu, [.place, .debit job.credits.toNat] <+: job.accountLog ∧
      job.accountLog <+: reservationLog job.credits.toNat cpu := by
    rcases hphase with hp | hp | hp | hp | ⟨exit, hp⟩ <;> rw [hp] at hpermit
    · rw [hpermit.2]
      exact (settling_held _ none).soFar
    · obtain ⟨now, -, hlog⟩ := hpermit
      rw [hlog]
      exact (settling_held _ (some now)).soFar
    · obtain ⟨w, -, hw⟩ := hpermit
      exact hw.soFar
    · obtain ⟨r, cpu, -, hw⟩ := hpermit
      exact hw.soFar
    · obtain ⟨w, -, hw⟩ := hpermit
      exact hw.soFar
  refine ⟨hscheduled, ?_, haccount⟩
  cases hkind : job.kind with
  | helper call =>
    rw [hkind] at hslot
    exact hslot
  | turn o call =>
    rw [hkind] at hslot hphase
    refine hslot.soFar ⟨?_, fun reason => ?_⟩ <;>
      rcases hphase with hp | hp | hp | hp | ⟨exit, hp⟩ <;> rw [hp] <;> intro h <;> cases h

/-- A task that ended and dropped its permit. -/
theorem Job.Ok.settled {job : Job T} (h : job.Ok) (hclocked : job.Clocked)
    (hok : job.returned = some .ok) {exit : Exit} {r : CpuReservation} {cpu : Nat}
    (hexit : job.kind.exit = some exit) (hdropped : job.permit = some (.dropped r cpu)) :
    Settled job exit := by
  obtain ⟨hpermit, hslot, hreturned⟩ := id h
  have hphase := Kind.phase_of_exit hexit
  rw [hphase, hdropped] at hpermit
  -- Which ends a submitted task has, and what they say of the reservation.
  have hend : (exit = .returned ∨ exit = .panicked ∨ exit = .cancelled) ∧
      Settling job.credits.toNat (decide (exit ≠ .cancelled)) job.accountLog (.dropped r cpu) := by
    have hsubmitted := h.submitted hok
    rw [hphase] at hsubmitted
    cases exit with
    | returned =>
      obtain ⟨_, _, hw, hsettling⟩ := hpermit
      cases hw
      exact ⟨.inl rfl, hsettling⟩
    | panicked =>
      obtain ⟨_, hw, hsettling⟩ := hpermit
      cases hw
      exact ⟨.inr (.inl rfl), hsettling⟩
    | cancelled =>
      obtain ⟨_, hw, hsettling⟩ := hpermit
      cases hw
      exact ⟨.inr (.inr rfl), hsettling⟩
    | denied reason => rcases hsubmitted with hp | hp | hp | hp | ⟨exit, hp⟩ <;> cases hp
    | reservePanicked | duplicateAdmission | noTurnValue => exact hpermit.elim
  obtain ⟨hended, -, hstarted, hlog⟩ := hend
  -- What the permit measured is what lies between the readings of the clock.
  have hmeasured : Measured job.clock r.started cpu := by
    unfold Job.Clocked at hclocked
    rw [hdropped] at hclocked
    exact hclocked
  refine ⟨hended, ?_, fun hc => ?_, fun hc => ?_⟩
  · -- A turn has put a value back, and one that was cancelled the value that it took.
    cases hkind : job.kind with
    | helper call =>
      rw [hkind] at hslot
      exact hslot
    | turn o call =>
      rw [hkind] at hslot hexit
      cases call <;> cases hexit
      rcases hslot with ⟨hearly, -⟩ | ⟨-, v, w, hlog, hsame⟩
      · rcases hearly with rfl | rfl <;> rcases hended with hn | hn | hn <;> cases hn
      · exact ⟨v, w, hlog, fun hc => hsame (.inr hc)⟩
  · -- A reservation that was not entered measured nothing, and all of it goes back.
    have hnone : r.started = none := by
      rw [← Option.not_isSome_iff_eq_none, hstarted]
      simpa using hc
    rw [hnone] at hmeasured
    obtain ⟨hclock, rfl⟩ := hmeasured
    have hrefund : refund job.credits.toNat 0 = job.credits.toNat := by
      unfold refund i64Max
      omega
    exact ⟨hclock, by rw [hlog, hrefund]⟩
  · have hsome : r.started.isSome := by
      rw [hstarted]
      simpa using hc
    obtain ⟨start, hstart⟩ := Option.isSome_iff_exists.mp hsome
    rw [hstart] at hmeasured
    obtain ⟨stop, hclock, rfl⟩ := hmeasured
    exact ⟨start, stop, hclock, hlog⟩

/-! ### Every job comes to its end -/

/-- How far a permit is from its end. A compare-exchange whose value is stale is one further than
one that will succeed. -/
def workRank (a : CreditAccount) : Work → Nat
  | .reserve _ => 19
  | .countLoad _ => 18
  | .countCas _ current => if a.inFlight = current then 16 else 17
  | .balanceLoad _ => 15
  | .balanceCas _ current => if a.balance = current then 13 else 14
  | .rollback => 12
  | .rollbackNotify => 11
  | .held r _ => if r.done then 2 else 10
  | .settle r _ drop => if r.done then (if drop then 1 else 3) else 9
  | .measure _ _ _ => 8
  | .adjustLoad _ _ => 7
  | .adjustCas _ current _ => if a.balance = current then 5 else 6
  | .release _ _ _ => 4
  | .settleNotify _ _ _ => 3
  | _ => 0

/-- How far a call is from its end. -/
def Kind.rank : Kind T → Nat
  | .turn _ call =>
    match call with
    | .checkWorker _ _ => 11
    | .exchangeAdmitted => 10
    | .take => 9
    | .taken _ => 8
    | .reserve _ => 7
    | .queued _ => 6
    | .entered _ => 5
    | .turn _ => 4
    | .finish _ => 3
    | .dropWrite _ _ => 2
    | .dropStore _ => 1
    | .ended _ => 0
  | .helper call =>
    match call with
    | .reserve => 4
    | .queued => 3
    | .work => 2
    | .finish => 1
    | .ended _ => 0

/-- How far a job is from its end. -/
def Job.rank (a : CreditAccount) (job : Job T) : Nat :=
  21 * job.kind.rank + job.permit.elim 20 (workRank a)

/-- A step of the permit brings it closer to its end. -/
def WorkCloser [Target] (a : CreditAccount) (phase : Phase) (w : Work) : Prop :=
  (∃ w', Credits.afterNotify w = some w' ∧ workRank a w' < workRank a w) ∨
    ∃ e a' w', permitEvent phase w e = true ∧ Credits.stepWork a w e = some (a', w') ∧
      workRank a' w' < workRank a w

/-- A step of the job brings it closer to its end. -/
def Closer [Target] (a : CreditAccount) (owners : List (Owner.State T)) (job : Job T) : Prop :=
  ∃ e a' owners' job', stepJob a owners job e = some (a', owners', job') ∧
    job'.rank a' < job.rank a

/-- The closure of `update_usize` compares with what it just read. -/
theorem countNext_rank (a : CreditAccount) (reserved : Int) :
    workRank a (Credits.countNext a reserved a.inFlight) ≤ 16 := by
  unfold Credits.countNext
  split <;> simp [workRank.eq_def]

/-- Nor is that of `update_i64` stale. -/
theorem balanceNext_rank (a : CreditAccount) (reserved : Int) :
    workRank a (Credits.balanceNext reserved a.balance) ≤ 13 := by
  unfold Credits.balanceNext
  split <;> simp [workRank.eq_def]

/-- A call of `reserve` has returned, or it has a step. -/
theorem Asking.closer [Target] {credits : UInt64} {log : List AccountEffect} {w : Work}
    (h : Asking credits log w) (a : CreditAccount) :
    w = .denied ∨ (∃ r cpu, w = .held r cpu) ∨ WorkCloser a .reserve w := by
  cases w with
  | denied => exact .inl rfl
  | held r cpu => exact .inr (.inl ⟨r, cpu, rfl⟩)
  | rollbackNotify => exact .inr (.inr (.inl ⟨_, rfl, by simp [workRank.eq_def]⟩))
  | reserve c =>
    refine .inr (.inr (.inr ⟨.advance, a, ?_⟩))
    cases hf : (i64TryFrom c).filter (fun value => 0 < value) with
    | none => exact ⟨.denied, rfl, by simp [Credits.stepWork.eq_def, hf], by simp [workRank.eq_def]⟩
    | some reserved =>
      exact ⟨.countLoad reserved, rfl, by simp [Credits.stepWork.eq_def, hf],
        by simp [workRank.eq_def]⟩
  | countLoad reserved =>
    refine .inr (.inr (.inr ⟨.advance, a, _, rfl, rfl, ?_⟩))
    exact Nat.lt_of_le_of_lt (countNext_rank a reserved) (by simp [workRank.eq_def])
  | countCas reserved current =>
    refine .inr (.inr (.inr ⟨.cas false, ?_⟩))
    by_cases hcas : a.inFlight = current
    · exact ⟨_, _, rfl, if_pos ⟨hcas, rfl⟩, by simp [workRank.eq_def, hcas]⟩
    · refine ⟨_, _, rfl, if_neg fun h => hcas h.1, ?_⟩
      exact Nat.lt_of_le_of_lt (countNext_rank a reserved) (by simp [workRank.eq_def, hcas])
  | balanceLoad reserved =>
    refine .inr (.inr (.inr ⟨.advance, a, _, rfl, rfl, ?_⟩))
    exact Nat.lt_of_le_of_lt (balanceNext_rank a reserved) (by simp [workRank.eq_def])
  | balanceCas reserved current =>
    refine .inr (.inr (.inr ⟨.cas false, ?_⟩))
    by_cases hcas : a.balance = current
    · exact ⟨_, _, rfl, if_pos ⟨hcas, rfl⟩, by simp [workRank.eq_def, hcas]⟩
    · refine ⟨_, _, rfl, if_neg fun h => hcas h.1, ?_⟩
      exact Nat.lt_of_le_of_lt (balanceNext_rank a reserved) (by simp [workRank.eq_def, hcas])
  | rollback => exact .inr (.inr (.inr ⟨.advance, _, _, rfl, rfl, by simp [workRank.eq_def]⟩))
  | _ => exact h.elim

/-- The end of a `settle` is closer than its broadcast. -/
theorem settled_rank (a : CreditAccount) {r : CpuReservation} (hdone : r.done = true) (cpu : Nat)
    (drop : Bool) : workRank a (Credits.settled r cpu drop) < if drop then 1 else 3 := by
  cases drop <;> simp [Credits.settled, workRank.eq_def, hdone]

/-- A reservation after its turn has been dropped, or it has a step. -/
theorem Settling.closer [Target] {n : Int} {entered : Bool} {log : List AccountEffect} {w : Work}
    (h : Settling n entered log w) (a : CreditAccount) {phase : Phase}
    (hphase : phase = .finish ∨ ∃ exit, phase = .unwind exit) :
    (∃ r cpu, w = .dropped r cpu) ∨ WorkCloser a phase w := by
  cases w with
  | dropped r cpu => exact .inl ⟨r, cpu, rfl⟩
  | held r cpu =>
    right
    right
    -- A held permit is finished after a return, and dropped in an unwind.
    cases hdone : r.done with
    | false =>
      rcases hphase with rfl | ⟨exit, rfl⟩
      · exact ⟨.finish, a, _, by simp [permitEvent.eq_def, hdone], rfl,
          by simp [workRank.eq_def, hdone]⟩
      · exact ⟨.drop, a, _, rfl, rfl, by simp [workRank.eq_def, hdone]⟩
    | true =>
      have hdrop : permitEvent phase (.held r cpu) .drop = true := by
        rcases hphase with rfl | ⟨exit, rfl⟩
        · exact hdone
        · rfl
      exact ⟨.drop, a, _, hdrop, rfl, by simp [workRank.eq_def, hdone]⟩
  | settle r cpu drop =>
    right
    right
    refine ⟨.advance, a, ?_⟩
    cases hdone : r.done with
    | true =>
      -- A second `settle` has nothing to do.
      refine ⟨Credits.settled r cpu drop, rfl, by simp [Credits.stepWork.eq_def, hdone], ?_⟩
      have hlt := settled_rank a hdone cpu drop
      show _ < if r.done then (if drop then 1 else 3) else 9
      rw [hdone]
      exact hlt
    | false =>
      cases hstarted : r.started with
      | none =>
        exact ⟨Credits.settleAdjust r 0 drop, rfl,
          by simp [Credits.stepWork.eq_def, hdone, hstarted],
          by simp [workRank.eq_def, Credits.settleAdjust, hdone]⟩
      | some start =>
        exact ⟨.measure r start drop, rfl, by simp [Credits.stepWork.eq_def, hdone, hstarted],
          by simp [workRank.eq_def, hdone]⟩
  | measure r start drop =>
    exact .inr (.inr ⟨.clock 0, a, _, rfl, rfl, by simp [workRank.eq_def, Credits.settleAdjust]⟩)
  | adjustLoad credits after =>
    exact .inr (.inr ⟨.advance, a, _, rfl, rfl, by simp [workRank.eq_def]⟩)
  | adjustCas credits current after =>
    cases after with
    | replenish c => exact h.elim
    | settle r cpu drop =>
      refine .inr (.inr ⟨.cas false, ?_⟩)
      -- An exchange that sees another balance is closer too, for it goes on with what it saw.
      by_cases hcas : a.balance = current
      · exact ⟨_, _, rfl, if_pos ⟨hcas, rfl⟩, by simp [workRank.eq_def, Credits.After.next, hcas]⟩
      · exact ⟨_, _, rfl, if_neg fun h => hcas h.1, by simp [workRank.eq_def, hcas]⟩
  | release r cpu drop => exact .inr (.inr ⟨.advance, _, _, rfl, rfl, by simp [workRank.eq_def]⟩)
  | settleNotify r cpu drop =>
    refine .inr (.inl ⟨_, rfl, ?_⟩)
    have hlt := settled_rank a h.2.2.1 cpu drop
    show _ < 3
    cases drop with
    | true => exact Nat.lt_trans hlt (by decide)
    | false => exact hlt
  | _ => exact h.elim

/-- A step of the permit is a step of the job. -/
theorem Closer.permit [Target] {a : CreditAccount} {owners : List (Owner.State T)} {job : Job T}
    {w : Work} (hw : job.permit = some w) (h : WorkCloser a job.kind.phase w) :
    Closer a owners job := by
  rcases h with ⟨w', hnotify, hlt⟩ | ⟨e, a', w', he, hstep, hlt⟩
  · refine ⟨.notify, a, owners, { job with permit := some w' }, by simp [stepJob, hw, hnotify], ?_⟩
    simpa [Job.rank, hw] using hlt
  · refine ⟨.permit e, a', owners, { job with
      permit := some w'
      accountLog := job.accountLog ++ accountEffects a w e
      clock := job.clock ++ readings e }, ?_, ?_⟩
    · simp [stepJob, hw, he, hstep]
    · simpa [Job.rank, hw] using hlt

/-- A step of the call of a job is a step of the job. -/
theorem Closer.call [Target] {a : CreditAccount} {owners owners' : List (Owner.State T)}
    {job job' : Job T} {event : Owner.Event T} (hown : ownEvent job event = true)
    (hs : stepKind owners job event = some (owners', job'))
    (hlt : job'.kind.rank < job.kind.rank) : Closer a owners job := by
  have hpermit := (stepKind_spec hs).2.1
  refine ⟨.call event, a, owners', job'.reject, by simp [stepJob, hown, hs], ?_⟩
  obtain ⟨hkind, -, hsame, -⟩ := job'.reject_frame
  unfold Job.rank
  rw [hkind, hsame, hpermit]
  omega

/-- A step of the call of a turn, by that of the call. -/
theorem stepKind_turn {job : Job T} {owners : List (Owner.State T)} {o : Nat}
    {s s' : Owner.State T} {call call' : Owner.Call T} {event : Owner.Event T}
    (hkind : job.kind = .turn o call) (ho : owners[o]? = some s)
    (hs : Owner.stepCall s call event = some (s', call')) :
    stepKind owners job event = some (owners.set o s', { job with
      kind := .turn o call'
      slotLog := job.slotLog ++ slotEffects o s call event }) := by
  simp [stepKind, hkind, ho, hs]

/-- A step of the call of a helper. -/
theorem stepKind_helper {job : Job T} {owners : List (Owner.State T)} {call call' : Helper}
    {event : Owner.Event T} (hkind : job.kind = .helper call)
    (hs : stepHelper call event = some call') :
    stepKind owners job event = some (owners, { job with kind := .helper call' }) := by
  simp [stepKind, hkind, hs]

/-- A job that waits for `reserve` has a step, when its call can go on with either answer. -/
theorem Job.Ok.closer_reserve [Target] {job : Job T} (h : job.Ok) (a : CreditAccount)
    {owners : List (Owner.State T)} (hphase : job.kind.phase = .reserve)
    (hanswer : ∀ result, result ≠ .panics → ∃ owners' job',
      stepKind owners job (.reserve result) = some (owners', job') ∧
        job'.kind.rank < job.kind.rank) : Closer a owners job := by
  have hpermit := h.permit
  rw [hphase] at hpermit
  cases hw : job.permit with
  | none =>
    refine ⟨.ask, a, owners, { job with permit := some (.reserve job.credits) }, ?_, ?_⟩
    · simp [stepJob, hphase, hw]
    · simp [Job.rank, hw, workRank.eq_def]
  | some w =>
    rw [hw] at hpermit
    rcases Asking.closer hpermit a with rfl | ⟨r, cpu, rfl⟩ | hcloser
    · obtain ⟨owners', job', hs, hlt⟩ := hanswer .refused (by decide)
      have hsame := (stepKind_spec hs).2.1
      obtain ⟨hkind, -, hreject, -⟩ := job'.reject_frame
      refine ⟨.answer, a, owners', job'.reject, by simp [stepJob, hphase, hw, hs], ?_⟩
      unfold Job.rank
      rw [hkind, hreject, hsame]
      omega
    · obtain ⟨owners', job', hs, hlt⟩ := hanswer .granted (by decide)
      have hsame := (stepKind_spec hs).2.1
      refine ⟨.answer, a, owners', { job' with
        returned := some .ok
        scheduled := job'.scheduled ++ [job'.callback] }, ?_, ?_⟩
      · simp [stepJob, hphase, hw, hs]
      · show 21 * job'.kind.rank + _ < _
        unfold Job.rank
        rw [hsame]
        omega
    · refine .permit hw ?_
      rw [hphase]
      exact hcloser

/-- A job that drops its permit has a step, until it has. -/
theorem Job.Ok.closer_settle [Target] {job : Job T} (h : job.Ok) (a : CreditAccount)
    (owners : List (Owner.State T))
    (hphase : job.kind.phase = .finish ∨ ∃ exit, job.kind.phase = .unwind exit) :
    (∃ r cpu, job.permit = some (.dropped r cpu)) ∨ Closer a owners job := by
  have hpermit := h.permit
  have hw : ∃ w n entered, job.permit = some w ∧ Settling n entered job.accountLog w := by
    rcases hphase with hp | ⟨exit, hp⟩ <;> rw [hp] at hpermit <;>
      obtain ⟨w, hw, hsettling⟩ := hpermit <;> exact ⟨w, _, _, hw, hsettling⟩
  obtain ⟨w, n, entered, hw, hsettling⟩ := hw
  rcases hsettling.closer a hphase with ⟨r, cpu, rfl⟩ | hcloser
  · exact .inl ⟨r, cpu, hw⟩
  · exact .inr (.permit hw hcloser)

/-- A job whose call has ended is over, or it drops its permit. -/
theorem Job.Ok.closer_ended [Target] {job : Job T} (h : job.Ok) (a : CreditAccount)
    (owners : List (Owner.State T)) {exit : Exit} (hexit : job.kind.exit = some exit) :
    job.Over ∨ Closer a owners job := by
  have hphase := Kind.phase_of_exit hexit
  have hreturned := h.returned
  have hpermit := h.permit
  rw [hphase] at hreturned hpermit
  have hover (hdropped : ∃ r cpu, job.permit = some (.dropped r cpu)) : job.Over := by
    obtain ⟨r, cpu, hw⟩ := hdropped
    exact .inr ⟨exit, r, cpu, hexit, hw⟩
  cases exit with
  | denied reason => exact .inl (.inl ⟨reason, job.callback, hreturned.1⟩)
  | returned =>
    obtain ⟨r, cpu, hw, -⟩ := hpermit
    exact .inl (hover ⟨r, cpu, hw⟩)
  | panicked => exact (h.closer_settle a owners (.inr ⟨.panicked, hphase⟩)).imp_left hover
  | cancelled => exact (h.closer_settle a owners (.inr ⟨.cancelled, hphase⟩)).imp_left hover
  | reservePanicked | duplicateAdmission | noTurnValue => exact hpermit.elim

/-- A turn that is not over has a step that brings it closer to its end. -/
theorem Job.Ok.closer_turn [Target] {job : Job T} (h : job.Ok) (a : CreditAccount)
    {owners : List (Owner.State T)} {o : Nat} {s : Owner.State T} {call : Owner.Call T}
    (hkind : job.kind = .turn o call) (ho : owners[o]? = some s) :
    job.Over ∨ Closer a owners job := by
  -- The call makes its next step alone.
  have hcall (event : Owner.Event T) (hown : ownEvent job event = true)
      (hs : ∃ p, Owner.stepCall s call event = some p ∧
        Kind.rank (.turn o p.2) < Kind.rank (.turn o call)) : job.Over ∨ Closer a owners job := by
    obtain ⟨⟨s', call'⟩, hs, hlt⟩ := hs
    refine .inr (.call hown (stepKind_turn hkind ho hs) ?_)
    rw [hkind]
    exact hlt
  cases call with
  | checkWorker worker workers =>
    refine hcall .advance rfl ?_
    simp only [Owner.stepCall]
    split <;> exact ⟨_, rfl, by simp [Kind.rank]⟩
  | exchangeAdmitted =>
    refine hcall .advance rfl ?_
    simp only [Owner.stepCall]
    split <;> exact ⟨_, rfl, by simp [Kind.rank]⟩
  | take =>
    refine hcall .advance rfl ?_
    simp only [Owner.stepCall]
    split <;> exact ⟨_, rfl, by simp [Kind.rank]⟩
  | taken value => exact hcall .advance rfl ⟨_, rfl, by simp [Kind.rank]⟩
  | reserve lease =>
    have hphase : job.kind.phase = .reserve := by rw [hkind]; rfl
    refine .inr (h.closer_reserve a hphase fun result hresult => ?_)
    cases result with
    | panics => exact absurd rfl hresult
    | granted => exact ⟨_, _, stepKind_turn hkind ho rfl, by rw [hkind]; simp [Kind.rank]⟩
    | refused => exact ⟨_, _, stepKind_turn hkind ho rfl, by rw [hkind]; simp [Kind.rank]⟩
  -- A queued task may always be dropped, which is shorter than its turn.
  | queued lease => exact hcall .cancel rfl ⟨_, rfl, by simp [Kind.rank]⟩
  | entered lease =>
    refine hcall .advance rfl ?_
    simp only [Owner.stepCall]
    split <;> exact ⟨_, rfl, by simp [Kind.rank]⟩
  | turn lease => exact hcall (.leave false) rfl ⟨_, rfl, by simp [Kind.rank]⟩
  | finish lease =>
    have hphase : job.kind.phase = .finish := by rw [hkind]; rfl
    rcases h.closer_settle a owners (.inl hphase) with ⟨r, cpu, hw⟩ | hcloser
    · exact hcall (.finish false) (by simp [ownEvent, hw]) ⟨_, rfl, by simp [Kind.rank]⟩
    · exact .inr hcloser
  | dropWrite lease exit => exact hcall .advance rfl ⟨_, rfl, by simp [Kind.rank]⟩
  | dropStore exit => exact hcall .advance rfl ⟨_, rfl, by simp [Kind.rank]⟩
  | ended exit => exact h.closer_ended a owners (by rw [hkind]; rfl)

/-- A helper that is not over has a step that brings it closer to its end. -/
theorem Job.Ok.closer_helper [Target] {job : Job T} (h : job.Ok) (a : CreditAccount)
    {owners : List (Owner.State T)} {call : Helper} (hkind : job.kind = .helper call) :
    job.Over ∨ Closer a owners job := by
  have hcall (event : Owner.Event T) (hown : ownEvent job event = true)
      (hs : ∃ call', stepHelper call event = some call' ∧
        Kind.rank (.helper call' : Kind T) < Kind.rank (.helper call : Kind T)) :
      job.Over ∨ Closer a owners job := by
    obtain ⟨call', hs, hlt⟩ := hs
    refine .inr (.call hown (stepKind_helper hkind hs) ?_)
    rw [hkind]
    exact hlt
  cases call with
  | reserve =>
    have hphase : job.kind.phase = .reserve := by rw [hkind]; rfl
    refine .inr (h.closer_reserve a hphase fun result hresult => ?_)
    cases result with
    | panics => exact absurd rfl hresult
    | granted => exact ⟨_, _, stepKind_helper hkind rfl, by rw [hkind]; simp [Kind.rank]⟩
    | refused => exact ⟨_, _, stepKind_helper hkind rfl, by rw [hkind]; simp [Kind.rank]⟩
  | queued => exact hcall .cancel rfl ⟨_, rfl, by simp [Kind.rank]⟩
  | work => exact hcall (.leave false) rfl ⟨_, rfl, by simp [Kind.rank]⟩
  | finish =>
    have hphase : job.kind.phase = .finish := by rw [hkind]; rfl
    rcases h.closer_settle a owners (.inl hphase) with ⟨r, cpu, hw⟩ | hcloser
    · exact hcall (.finish false) (by simp [ownEvent, hw]) ⟨_, rfl, by simp [Kind.rank]⟩
    · exact .inr hcloser
  | ended exit => exact h.closer_ended a owners (by rw [hkind]; rfl)

/-- From every reachable state the steps of a job alone bring it to its end. -/
theorem Inv.finishes [Target] {s : State T} (h : Inv s) {j : Nat} {job : Job T}
    (hj : s.jobs[j]? = some job) :
    ∃ (events : List (JobEvent T)) (s' : State T) (job' : Job T),
      (system T).run s (events.map (Action.job j)) = some s' ∧ s'.jobs[j]? = some job' ∧
        job'.Over := by
  -- The rank falls with every step that is chosen.
  induction hn : job.rank s.account using Nat.strong_induction_on generalizing s job with
  | h n ih =>
    have hmem := List.mem_of_getElem? hj
    have hnext : job.Over ∨ Closer s.account s.owners job := by
      cases hkind : job.kind with
      | helper call => exact (h.jobs job hmem).closer_helper s.account hkind
      | turn o call =>
        have hlt := h.owned.range job hmem o call hkind
        exact (h.jobs job hmem).closer_turn s.account hkind (List.getElem?_eq_getElem hlt)
    rcases hnext with hover | ⟨e, a', owners', job', hstep, hlt⟩
    · exact ⟨[], s, job, rfl, hj, hover⟩
    · have hs : step s (.job j e) =
          some { s with account := a', owners := owners', jobs := s.jobs.set j job' } := by
        simp [step, hj, hstep]
      have hj' : (s.jobs.set j job')[j]? = some job' := by
        rw [getElem?_set_of_some hj]
        exact if_pos rfl
      obtain ⟨events, s', job'', hrun, hat, hover⟩ :=
        ih (job'.rank a') (hn ▸ hlt) (inv_step h hs) hj' rfl
      refine ⟨e :: events, s', job'', ?_, hat, hover⟩
      show (step s (.job j e)).bind _ = some s'
      rw [hs]
      exact hrun

/-! ### All or nothing -/

/-- Dispatch is all or nothing across owner and account. In every reachable state:

* A call that returned a rejection handed its callback back, submitted nothing, and did nothing
  that lasts to its owner and the account.
* A call that returned `Ok` submitted its callback once, took one lease and made one reservation of
  its credits. When its task has ended and its permit is dropped, the lease was given back once and
  the reservation settled once. A task that was entered is charged for the time between its two
  readings of the clock, and one that was cancelled before that is charged nothing.
* Neither `expect` failed.
* No two calls hold the lease of one owner.
* The steps of a job alone bring it to its end.
* What a job did is what its logs say, and no other step touches an owner. -/
theorem all_or_nothing [Target] {s : State T} (h : (system T).Reachable s) :
    (∀ job ∈ s.jobs, ∀ reason callback, job.returned = some (.rejected reason callback) →
      callback = job.callback ∧ job.scheduled = [] ∧ NoEffect job) ∧
    (∀ job ∈ s.jobs, job.returned = some .ok → (job.scheduled = [job.callback] ∧ Taken job) ∧
      ∀ exit r cpu, job.kind.exit = some exit → job.permit = some (.dropped r cpu) →
        Settled job exit) ∧
    (∀ job ∈ s.jobs, job.kind.phase ≠ .broken) ∧
    (∀ (i j : Nat) job₁ job₂ o c d, s.jobs[i]? = some job₁ → s.jobs[j]? = some job₂ →
      job₁.kind = .turn o c → job₂.kind = .turn o d → c.admitted = true → d.admitted = true →
      i = j) ∧
    (∀ (j : Nat) job, s.jobs[j]? = some job →
      ∃ (events : List (JobEvent T)) (s' : State T) (job' : Job T),
      (system T).run s (events.map (Action.job j)) = some s' ∧ s'.jobs[j]? = some job' ∧
        job'.Over) ∧
    ∀ act s', step s act = some s' → Logged s act s' := by
  have hinv := inv_of_reachable h
  refine ⟨?_, ?_, ?_, ?_, ?_, ?_⟩
  · intro job hmem reason callback hr
    exact (hinv.jobs job hmem).rejected hr
  · intro job hmem hok
    refine ⟨(hinv.jobs job hmem).taken hok, fun exit r cpu hexit hdropped => ?_⟩
    exact (hinv.jobs job hmem).settled (hinv.clocked job hmem) hok hexit hdropped
  · intro job hmem hphase
    have hpermit := (hinv.jobs job hmem).permit
    rw [hphase] at hpermit
    exact hpermit
  · intro i j job₁ job₂ o c d hi hj hc hd hca hda
    have hlt := hinv.owned.range job₁ (List.mem_of_getElem? hi) o c hc
    have howner := hinv.owned.calls o _ (List.getElem?_eq_getElem hlt)
    have hcall {k : Nat} {job : Job T} {call : Owner.Call T} (hk : s.jobs[k]? = some job)
        (hkind : job.kind = .turn o call) : (s.jobs.map (callFor o))[k]? = some call := by
      rw [List.getElem?_map, hk]
      exact congrArg some (callFor_self hkind)
    exact howner.unique (hcall hi hc) (hcall hj hd) hca hda
  · intro j job hj
    exact hinv.finishes hj
  · intro act s' hs
    exact hinv.logged hs

/-- On an account of 100: a turn that is cancelled in the queue, a call that finds the gate closed
meanwhile, a call that asks for 200, and a helper that measures 2 of its 5. -/
theorem all_or_nothing_run :
    ∃ s, (@system target64 Nat).Reachable s ∧
      (s.account.balance = 98 ∧ s.jobs.map Job.returned = [some .ok, some (.rejected .busy 8),
        some (.rejected .budget 9), some .ok]) ∧
      (∀ job ∈ s.jobs, ∀ reason callback, job.returned = some (.rejected reason callback) →
        callback = job.callback ∧ job.scheduled = [] ∧ NoEffect job) ∧
      (∃ job ∈ s.jobs, job.credits = 3 ∧ Settled job .cancelled) ∧
      ∃ job ∈ s.jobs, job.credits = 5 ∧ Settled job .returned := by
  obtain ⟨s, hr, hp⟩ := Lts.Reachable.exists_of_run (M := @system target64 Nat) (s := new 100 2)
    [.newOwner 4,
      -- Job 0 gets the turn and its credits.
      .dispatchTo 0 none 2 3 7, .job 0 (.call .advance), .job 0 (.call .advance),
      .job 0 (.call .advance), .job 0 (.call .advance), .job 0 .ask, .job 0 (.permit .advance),
      .job 0 (.permit .advance), .job 0 (.permit (.cas false)), .job 0 (.permit .advance),
      .job 0 (.permit (.cas false)), .job 0 .answer,
      -- Job 1 finds the gate closed. Then job 0 is cancelled in the queue.
      .dispatchTo 0 none 2 3 8, .job 1 (.call .advance), .job 1 (.call .advance),
      .job 0 (.call .cancel), .job 0 (.call .advance), .job 0 (.permit .drop),
      .job 0 (.permit .advance), .job 0 (.permit .advance), .job 0 (.permit (.cas false)),
      .job 0 (.call .advance), .job 0 (.permit .advance), .job 0 .notify,
      -- Job 2 asks for more than the balance.
      .dispatchTo 0 none 2 200 9, .job 2 (.call .advance), .job 2 (.call .advance),
      .job 2 (.call .advance), .job 2 (.call .advance), .job 2 .ask, .job 2 (.permit .advance),
      .job 2 (.permit .advance), .job 2 (.permit (.cas false)), .job 2 (.permit .advance),
      .job 2 (.permit .advance), .job 2 .notify, .job 2 .answer, .job 2 (.call .advance),
      .job 2 (.call .advance),
      -- Job 3 runs from 10 to 12 on its clock.
      .dispatch 5 10, .job 3 .ask, .job 3 (.permit .advance), .job 3 (.permit .advance),
      .job 3 (.permit (.cas false)), .job 3 (.permit .advance), .job 3 (.permit (.cas false)),
      .job 3 .answer, .job 3 (.enter 10), .job 3 (.call (.leave false)), .job 3 (.permit .finish),
      .job 3 (.permit .advance), .job 3 (.permit (.clock 12)), .job 3 (.permit .advance),
      .job 3 (.permit (.cas false)), .job 3 (.permit .advance), .job 3 .notify,
      .job 3 (.permit .drop), .job 3 (.permit .advance), .job 3 (.call (.finish false))]
    (fun s => (s.account.balance = 98 ∧ s.jobs.map Job.returned =
        [some .ok, some (.rejected .busy 8), some (.rejected .budget 9), some .ok]) ∧
      (∃ job ∈ s.jobs, job.credits = 3 ∧ job.returned = some .ok ∧
        job.kind.exit = some .cancelled ∧ job.permit = some (.dropped ⟨3, none, true⟩ 0)) ∧
      ∃ job ∈ s.jobs, job.credits = 5 ∧ job.returned = some .ok ∧
        job.kind.exit = some .returned ∧ job.permit = some (.dropped ⟨5, some 10, true⟩ 2))
    ⟨100, 2, by decide⟩ (by decide)
  obtain ⟨hbalance, ⟨turn, hturn, h3, hok, hexit, hdropped⟩,
    ⟨call, hcall, h5, hok', hexit', hdropped'⟩⟩ := of_decide_eq_true hp
  obtain ⟨hrejected, hsubmitted, -⟩ := @all_or_nothing Nat target64 s hr
  exact ⟨s, hr, hbalance, hrejected,
    ⟨turn, hturn, h3, (hsubmitted turn hturn hok).2 _ _ _ hexit hdropped⟩,
    ⟨call, hcall, h5, (hsubmitted call hcall hok').2 _ _ _ hexit' hdropped'⟩⟩

end Nagoya.Dispatch
