import Nagoya.Credits
import Nagoya.Proofs.Sync.Listener

/-!
# `Nagoya.Proofs.Credits`: credit is not minted, and places are given back

The books of an account are sums over its tasks: the places in `in_flight` that tasks hold, the
credit that is reserved, the CPU that settled reservations measured, and the credit that was
added. One step of one task moves these sums and the account together (`Moved`, `Paid`).

The balance may be negative. It never falls below the measured CPU, which stays below `2 ^ 63`,
so `saturating_add` never stops at `i64::MIN`. It may stop at `i64::MAX`, but then the cap is
smaller still.
-/

set_option autoImplicit false

namespace Nagoya.Credits

open Nagoya.Lib
open Nagoya.Sync (Listen)

/-! ### What a task holds -/

/-- A reservation that is with its owner and not settled. -/
def Work.unsettled : Work → Nat
  | .held r _ => if r.done then 0 else 1
  | _ => 0

/-- A call of `reserve` or `settle` that holds a place it has not given back. -/
def Work.holding : Work → Nat
  | .balanceLoad _ | .balanceCas _ _ | .rollback | .measure _ _ _ | .release _ _ _ => 1
  | .settle r _ _ => if r.done then 0 else 1
  | .adjustLoad _ (.settle _ _ _) | .adjustCas _ _ (.settle _ _ _) => 1
  | _ => 0

/-- The places a task holds. -/
def Work.places (w : Work) : Nat := w.unsettled + w.holding

/-- The credit of a reservation that is not settled. -/
def Work.reserved : Work → Nat
  | .held r _ | .settle r _ _ => if r.done then 0 else r.reserved.toNat
  | .measure r _ _ => r.reserved.toNat
  | .adjustLoad _ (.settle r _ _) | .adjustCas _ _ (.settle r _ _) => r.reserved.toNat
  | _ => 0

/-- The CPU that a settled reservation measured. -/
def Work.cpu : Work → Nat
  | .held _ cpu | .settle _ cpu _ | .release _ cpu _ | .settleNotify _ cpu _
  | .dropped _ cpu => cpu
  | _ => 0

/-- The credit that a `replenish` was asked to add, once it added it. -/
def Work.asked : Work → Nat
  | .replenishNotify credits | .replenished credits => credits.toNat
  | _ => 0

/-- The same, as `replenish` converts it. -/
def Work.credited (w : Work) : Nat := min w.asked i64Max.toNat

/-- The reservation of a task. -/
def Work.reservation : Work → Option CpuReservation
  | .held r _ | .settle r _ _ | .measure r _ _ | .release r _ _ | .settleNotify r _ _
  | .dropped r _ | .adjustLoad _ (.settle r _ _) | .adjustCas _ _ (.settle r _ _) => some r
  | _ => none

/-- A request that `reserve` accepts. -/
def Amount (reserved : Int) : Prop := 0 < reserved ∧ reserved ≤ i64Max

/-- A reservation with the CPU it measured so far. -/
structure CpuReservation.Ok (r : CpuReservation) (cpu : Nat) : Prop where
  amount : Amount r.reserved
  /-- A reservation that was not entered measures nothing. -/
  idle : r.started = none → cpu = 0

/-- What a task has computed. -/
def After.Fits (credits : Int) : After → Prop
  | .settle r cpu _ => r.Ok cpu ∧ r.done = false ∧
      credits = i64SaturatingSub r.reserved (actual cpu)
  | .replenish c => credits = (i64TryFrom c).getD i64Max

/-- What a task has computed from values it read before. -/
def Work.Fits (parallelism : Nat) : Work → Prop
  | .countLoad reserved | .balanceLoad reserved => Amount reserved
  | .countCas reserved current => Amount reserved ∧ current < parallelism
  | .balanceCas reserved current => Amount reserved ∧ reserved ≤ current
  | .held r cpu | .settle r cpu _ => r.Ok cpu ∧ (r.done = false → cpu = 0)
  | .measure r start _ => r.Ok 0 ∧ r.done = false ∧ r.started = some start
  | .adjustLoad credits after | .adjustCas credits _ after => after.Fits credits
  | .release r cpu _ => r.Ok cpu ∧ r.done = false
  | .settleNotify r cpu _ => r.Ok cpu ∧ r.done = true
  | .dropped r cpu => r.Ok cpu
  | _ => True

/-! ### The steps of a task -/

/-- The steps of a task on the account, each with what it checked. -/
inductive Turn [Target] (a : CreditAccount) : Work → Event → CreditAccount → Work → Prop where
  -- `reserve`
  | request {credits : UInt64} {reserved : Int}
      (hf : (i64TryFrom credits).filter (fun value => 0 < value) = some reserved) :
      Turn a (.reserve credits) .advance a (.countLoad reserved)
  | refuse {credits : UInt64} : Turn a (.reserve credits) .advance a .denied
  | countLoad {reserved : Int} :
      Turn a (.countLoad reserved) .advance a (countNext a reserved a.inFlight)
  | countRetry {reserved : Int} {current : Nat} {spurious : Bool} :
      Turn a (.countCas reserved current) (.cas spurious) a (countNext a reserved a.inFlight)
  | countCas {reserved : Int} :
      Turn a (.countCas reserved a.inFlight) (.cas false) { a with inFlight := a.inFlight + 1 }
        (.balanceLoad reserved)
  | balanceLoad {reserved : Int} :
      Turn a (.balanceLoad reserved) .advance a (balanceNext reserved a.balance)
  | balanceRetry {reserved current : Int} {spurious : Bool} :
      Turn a (.balanceCas reserved current) (.cas spurious) a (balanceNext reserved a.balance)
  | balanceCas {reserved : Int} :
      Turn a (.balanceCas reserved a.balance) (.cas false)
        { a with balance := a.balance - reserved } (.held ⟨reserved, none, false⟩ 0)
  | rollback :
      Turn a .rollback .advance { a with inFlight := usizeSub a.inFlight 1 } .rollbackNotify
  -- a reservation with its owner
  | enter {r : CpuReservation} {cpu : Nat} {now : UInt64} (hdone : r.done = false)
      (hstarted : r.started = none) :
      Turn a (.held r cpu) (.enter now) a (.held { r with started := some now } cpu)
  | refuseEnter {r : CpuReservation} {cpu : Nat} {now : UInt64} :
      Turn a (.held r cpu) (.enter now) a (.held r cpu)
  | finish {r : CpuReservation} {cpu : Nat} :
      Turn a (.held r cpu) .finish a (.settle r cpu false)
  | drop {r : CpuReservation} {cpu : Nat} : Turn a (.held r cpu) .drop a (.settle r cpu true)
  -- `settle`
  | settledBefore {r : CpuReservation} {cpu : Nat} {drop : Bool} (hdone : r.done = true) :
      Turn a (.settle r cpu drop) .advance a (settled r cpu drop)
  | started {r : CpuReservation} {cpu : Nat} {drop : Bool} {start : UInt64}
      (hdone : r.done = false) (hstarted : r.started = some start) :
      Turn a (.settle r cpu drop) .advance a (.measure r start drop)
  | unused {r : CpuReservation} {cpu : Nat} {drop : Bool} (hdone : r.done = false)
      (hstarted : r.started = none) :
      Turn a (.settle r cpu drop) .advance a (settleAdjust r 0 drop)
  | measure {r : CpuReservation} {start now : UInt64} {drop : Bool} :
      Turn a (.measure r start drop) (.clock now) a
        (settleAdjust r (now.toNat - start.toNat) drop)
  | release {r : CpuReservation} {cpu : Nat} {drop : Bool} :
      Turn a (.release r cpu drop) .advance { a with inFlight := usizeSub a.inFlight 1 }
        (.settleNotify { r with done := true } cpu drop)
  -- `adjust`
  | adjustLoad {credits : Int} {after : After} :
      Turn a (.adjustLoad credits after) .advance a (.adjustCas credits a.balance after)
  | adjustRetry {credits current : Int} {after : After} {spurious : Bool} :
      Turn a (.adjustCas credits current after) (.cas spurious) a
        (.adjustCas credits a.balance after)
  | adjustCas {credits : Int} {after : After} :
      Turn a (.adjustCas credits a.balance after) (.cas false)
        { a with balance := adjusted a a.balance credits } after.next
  | replenish {credits : UInt64} :
      Turn a (.replenish credits) .advance a
        (.adjustLoad ((i64TryFrom credits).getD i64Max) (.replenish credits))

/-- A step of a task is one of these. -/
theorem stepWork_turn [Target] {a a' : CreditAccount} {w w' : Work} {e : Event}
    (h : stepWork a w e = some (a', w')) : Turn a w e a' w' := by
  -- Every branch of `stepWork` is one constructor of `Turn`.
  cases w with
  | reserve credits =>
    cases e <;> simp only [stepWork.eq_def, reduceCtorEq] at h
    split at h
    · rename_i hf
      cases h
      exact .request hf
    · cases h
      exact .refuse
  | countLoad reserved =>
    cases e <;> cases h
    exact .countLoad
  | countCas reserved current =>
    cases e <;> simp only [stepWork.eq_def, reduceCtorEq] at h
    split at h
    · rename_i hcas
      obtain ⟨rfl, rfl⟩ := hcas
      cases h
      exact .countCas
    · cases h
      exact .countRetry
  | balanceLoad reserved =>
    cases e <;> cases h
    exact .balanceLoad
  | balanceCas reserved current =>
    cases e <;> simp only [stepWork.eq_def, reduceCtorEq] at h
    split at h
    · rename_i hcas
      obtain ⟨rfl, rfl⟩ := hcas
      cases h
      exact .balanceCas
    · cases h
      exact .balanceRetry
  | rollback =>
    cases e <;> cases h
    exact .rollback
  | held r cpu =>
    cases e with
    | enter now =>
      simp only [stepWork.eq_def] at h
      split at h
      · rename_i hnew
        cases h
        exact .enter hnew.1 hnew.2
      · cases h
        exact .refuseEnter
    | finish =>
      cases h
      exact .finish
    | drop =>
      cases h
      exact .drop
    | _ => cases h
  | settle r cpu drop =>
    cases e <;> simp only [stepWork.eq_def, reduceCtorEq] at h
    split at h
    · rename_i hdone
      cases h
      exact .settledBefore hdone
    · rename_i hdone
      have hdone : r.done = false := by simpa using hdone
      split at h
      · rename_i start hstarted
        cases h
        exact .started hdone hstarted
      · rename_i hstarted
        cases h
        exact .unused hdone hstarted
  | measure r start drop =>
    cases e <;> cases h
    exact .measure
  | adjustLoad credits after =>
    cases e <;> cases h
    exact .adjustLoad
  | adjustCas credits current after =>
    cases e <;> simp only [stepWork.eq_def, reduceCtorEq] at h
    split at h
    · rename_i hcas
      obtain ⟨rfl, rfl⟩ := hcas
      cases h
      exact .adjustCas
    · cases h
      exact .adjustRetry
  | release r cpu drop =>
    cases e <;> cases h
    exact .release
  | replenish credits =>
    cases e <;> cases h
    exact .replenish
  | rollbackNotify | denied | settleNotify | dropped | replenishNotify | replenished | waitFor
  | listening | loadInFlight | tooLarge => cases e <;> cases h

/-- The places of a task between the load and the compare-exchange of an `adjust`, and after
it. -/
theorem After.places (after : After) (credits current : Int) :
    (Work.adjustCas credits current after).places = (Work.adjustLoad credits after).places ∧
      after.next.places = (Work.adjustLoad credits after).places := by
  cases after <;> exact ⟨rfl, rfl⟩

/-- The end of a `settle` that found the reservation done. -/
theorem settled_places {r : CpuReservation} (hdone : r.done = true) (cpu : Nat) (drop : Bool) :
    (settled r cpu drop).places = (Work.settle r cpu drop).places := by
  cases drop <;> simp [settled, Work.places, Work.unsettled, Work.holding, hdone]

/-- A reservation keeps its place while it is settled. -/
theorem settle_places {r : CpuReservation} (hdone : r.done = false) (cpu : Nat) (drop : Bool) :
    (Work.settle r cpu drop).places = 1 := by
  simp [Work.places, Work.unsettled, Work.holding, hdone]

/-- The call of `settle` takes the place over from the owner. -/
theorem held_places (r : CpuReservation) (cpu : Nat) (drop : Bool) :
    (Work.settle r cpu drop).places = (Work.held r cpu).places := by
  simp [Work.places, Work.unsettled, Work.holding]

/-! ### The count -/

/-- What one step of a task does to the count. -/
structure Moved (a a' : CreditAccount) (w w' : Work) : Prop where
  capacity : a'.capacity = a.capacity
  parallelism : a'.parallelism = a.parallelism
  fits : w'.Fits a.parallelism
  count : a'.inFlight + w.places = a.inFlight + w'.places
  cap : a'.inFlight ≤ a.parallelism

/-- A step that leaves the count and the places of the task. -/
theorem Moved.keep {a a' : CreditAccount} {w w' : Work} (hcap : a.inFlight ≤ a.parallelism)
    (hcapacity : a'.capacity = a.capacity) (hpar : a'.parallelism = a.parallelism)
    (hcount : a'.inFlight = a.inFlight) (hfits : w'.Fits a.parallelism)
    (hplaces : w'.places = w.places) : Moved a a' w w' :=
  ⟨hcapacity, hpar, hfits, by rw [hcount, hplaces], by rw [hcount]; exact hcap⟩

/-- The conversion of a request. -/
theorem amount_of_filter {credits : UInt64} {reserved : Int}
    (h : (i64TryFrom credits).filter (fun value => 0 < value) = some reserved) :
    Amount reserved := by
  rw [Option.filter_eq_some_iff] at h
  obtain ⟨h, hpos⟩ := h
  unfold i64TryFrom at h
  split at h
  · cases h
    exact ⟨by simpa using hpos, by assumption⟩
  · cases h

/-- The result of the closure of `update_usize`. -/
theorem countNext_spec (a : CreditAccount) {reserved : Int} (h : Amount reserved) (current : Nat) :
    (countNext a reserved current).Fits a.parallelism ∧
      (countNext a reserved current).places = 0 := by
  unfold countNext
  split
  · exact ⟨⟨h, by assumption⟩, rfl⟩
  · exact ⟨trivial, rfl⟩

/-- The closure of `update_usize` keeps no books. -/
theorem countNext_books (a : CreditAccount) (reserved : Int) (current : Nat) :
    (countNext a reserved current).reserved = 0 ∧ (countNext a reserved current).cpu = 0 ∧
      (countNext a reserved current).credited = 0 := by
  unfold countNext
  split <;> exact ⟨rfl, rfl, rfl⟩

/-- Nor does that of `update_i64`. -/
theorem balanceNext_books (reserved current : Int) :
    (balanceNext reserved current).reserved = 0 ∧ (balanceNext reserved current).cpu = 0 ∧
      (balanceNext reserved current).credited = 0 := by
  unfold balanceNext
  split <;> exact ⟨rfl, rfl, rfl⟩

/-- The result of the closure of `update_i64` in `reserve`. -/
theorem balanceNext_spec {reserved : Int} (h : Amount reserved) (current : Int)
    (parallelism : Nat) :
    (balanceNext reserved current).Fits parallelism ∧
      (balanceNext reserved current).places = 1 := by
  unfold balanceNext
  split
  · exact ⟨⟨h, by assumption⟩, rfl⟩
  · exact ⟨trivial, rfl⟩

/-- One step of a task, seen from the count. A task that gives a place back holds one, so the
`fetch_sub` does not wrap. -/
theorem stepWork_moved [Target] {a a' : CreditAccount} {w w' : Work} {e : Event}
    (hfits : w.Fits a.parallelism) (hcap : a.inFlight ≤ a.parallelism)
    (hpar : a.parallelism ≤ usizeMax) (hplaces : w.places ≤ a.inFlight)
    (h : stepWork a w e = some (a', w')) : Moved a a' w w' := by
  -- A place that is given back was counted, so the subtraction does not wrap.
  have hsub : 1 ≤ a.inFlight → usizeSub a.inFlight 1 = a.inFlight - 1 := by
    intro hone
    have := two_lt_usizeModulus
    refine usizeSub_of_le hone ?_
    unfold usizeMax at hpar
    omega
  cases stepWork_turn h with
  | request hf => exact .keep hcap rfl rfl rfl (amount_of_filter hf) rfl
  | refuse => exact .keep hcap rfl rfl rfl trivial rfl
  | countLoad =>
    obtain ⟨hf, hp⟩ := countNext_spec a hfits a.inFlight
    exact .keep hcap rfl rfl rfl hf hp
  | countRetry =>
    obtain ⟨hf, hp⟩ := countNext_spec a hfits.1 a.inFlight
    exact .keep hcap rfl rfl rfl hf hp
  | countCas =>
    -- The place is taken below the cap.
    exact ⟨rfl, rfl, hfits.1, rfl, hfits.2⟩
  | balanceLoad =>
    obtain ⟨hf, hp⟩ := balanceNext_spec hfits a.balance a.parallelism
    exact .keep hcap rfl rfl rfl hf hp
  | balanceRetry =>
    obtain ⟨hf, hp⟩ := balanceNext_spec hfits.1 a.balance a.parallelism
    exact .keep hcap rfl rfl rfl hf hp
  | balanceCas => exact .keep hcap rfl rfl rfl ⟨⟨hfits.1, fun _ => rfl⟩, fun _ => rfl⟩ rfl
  | rollback =>
    have hone : 1 ≤ a.inFlight := hplaces
    refine ⟨rfl, rfl, trivial, ?_, ?_⟩
    · show usizeSub a.inFlight 1 + 1 = a.inFlight + 0
      rw [hsub hone]
      omega
    · show usizeSub a.inFlight 1 ≤ a.parallelism
      rw [hsub hone]
      omega
  | enter hdone =>
    -- A reservation that is not done has no CPU on its books yet.
    have h0 := hfits.2 hdone
    exact .keep hcap rfl rfl rfl ⟨⟨hfits.1.amount, fun _ => h0⟩, fun _ => h0⟩ rfl
  | refuseEnter => exact .keep hcap rfl rfl rfl hfits rfl
  | finish | drop => exact .keep hcap rfl rfl rfl hfits (held_places _ _ _)
  | settledBefore hdone =>
    -- A second call of `settle` finds the reservation done.
    refine .keep hcap rfl rfl rfl ?_ (settled_places hdone _ _)
    unfold settled
    split
    · exact hfits.1
    · exact hfits
  | started hdone hstarted =>
    have h0 := hfits.2 hdone
    exact .keep hcap rfl rfl rfl ⟨h0 ▸ hfits.1, hdone, hstarted⟩ (settle_places hdone _ _).symm
  | unused hdone =>
    have h0 := hfits.2 hdone
    exact .keep hcap rfl rfl rfl ⟨h0 ▸ hfits.1, hdone, rfl⟩ (settle_places hdone _ _).symm
  | measure =>
    obtain ⟨hok, hdone, hstart⟩ := hfits
    refine .keep hcap rfl rfl rfl ⟨⟨hok.amount, ?_⟩, hdone, rfl⟩ rfl
    intro hnone
    rw [hstart] at hnone
    cases hnone
  | adjustLoad => exact .keep hcap rfl rfl rfl hfits (After.places _ _ _).1
  | adjustRetry =>
    refine .keep hcap rfl rfl rfl hfits ?_
    rw [(After.places _ _ _).1, (After.places _ _ _).1]
  | @adjustCas credits after =>
    cases after with
    | settle r cpu drop => exact .keep hcap rfl rfl rfl ⟨hfits.1, hfits.2.1⟩ rfl
    | replenish c => exact .keep hcap rfl rfl rfl trivial rfl
  | release =>
    -- The task still holds its place, so there is one to give back.
    have hone : 1 ≤ a.inFlight := hplaces
    refine ⟨rfl, rfl, ⟨⟨hfits.1.amount, hfits.1.idle⟩, rfl⟩, ?_, ?_⟩
    · show usizeSub a.inFlight 1 + 1 = a.inFlight + 0
      rw [hsub hone]
      omega
    · show usizeSub a.inFlight 1 ≤ a.parallelism
      rw [hsub hone]
      omega
  | replenish => exact .keep hcap rfl rfl rfl rfl rfl

/-! ### The balance -/

/-- The step is an `adjust` that the cap truncates: the sum is above the capacity. -/
def truncates (a : CreditAccount) : Work → Event → Bool
  | .adjustCas credits current _, .cas spurious =>
    a.balance = current && !spurious && current + credits > a.capacity
  | _, _ => false

/-- What one step of a task does to the balance, when the CPU of all tasks is `total` after
it. -/
structure Paid (a a' : CreditAccount) (w w' : Work) (total : Nat) (truncated : Bool) : Prop where
  top : a'.balance ≤ a.capacity
  floor : -(total : Int) ≤ a'.balance
  ledger : a'.balance + w'.reserved + w'.cpu + w.credited
    ≤ a.balance + w.reserved + w.cpu + w'.credited
  exact : truncated = false → a'.balance + w'.reserved + w'.cpu + w.credited
    = a.balance + w.reserved + w.cpu + w'.credited

/-- A step that leaves the balance and the books of the task. -/
theorem Paid.keep {a a' : CreditAccount} {w w' : Work} {total : Nat} {truncated : Bool}
    (htop : a.balance ≤ a.capacity) (hfloor : -(total : Int) ≤ a.balance)
    (hbalance : a'.balance = a.balance) (hres : w'.reserved = w.reserved) (hcpu : w'.cpu = w.cpu)
    (hcred : w'.credited = w.credited) : Paid a a' w w' total truncated := by
  refine ⟨by rw [hbalance]; exact htop, by rw [hbalance]; exact hfloor, ?_, fun _ => ?_⟩
  · rw [hbalance, hres, hcpu, hcred]
  · rw [hbalance, hres, hcpu, hcred]

/-- `adjust` adds and caps, as long as the sum does not reach `i64::MIN`. -/
theorem adjusted_eq {a : CreditAccount} (hcap : a.capacity ≤ i64Max) {balance credits : Int}
    (hlow : i64Min ≤ balance + credits) :
    adjusted a balance credits = min (balance + credits) a.capacity := by
  unfold adjusted i64SaturatingAdd
  omega

/-- The refund of a reservation that measured less than `2 ^ 63`. -/
theorem refund_eq {reserved : Int} (h : Amount reserved) {cpu : Nat} (hcpu : (cpu : Int) ≤ i64Max) :
    i64SaturatingSub reserved (actual cpu) = reserved - cpu := by
  obtain ⟨hpos, hle⟩ := h
  unfold i64SaturatingSub actual i64Max i64Min at *
  rw [if_pos hcpu]
  omega

/-- The credit of a `replenish`, as it converts it. -/
theorem credit_eq (credits : UInt64) :
    (i64TryFrom credits).getD i64Max = (min credits.toNat i64Max.toNat : Nat) := by
  unfold i64TryFrom i64Max
  split
  · simp only [Option.getD_some]
    omega
  · simp only [Option.getD_none]
    omega

/-- The compare-exchange of an `adjust`. -/
theorem adjust_paid {a : CreditAccount} {credits : Int} {after : After} {total before : Nat}
    {spurious : Bool} (hfits : after.Fits credits) (hpos : 0 < a.capacity)
    (hcap : a.capacity ≤ i64Max) (hfloor : -(before : Int) ≤ a.balance)
    (htotal : total = before + after.next.cpu) (hbound : (total : Int) ≤ i64Max)
    (hspurious : spurious = false) :
    Paid a { a with balance := adjusted a a.balance credits } (.adjustCas credits a.balance after)
      after.next total (truncates a (.adjustCas credits a.balance after) (.cas spurious)) := by
  -- Both uses of `adjust` bring a sum above `i64::MIN`, and their books move by the same amount.
  have hbooks : -(after.next.cpu : Int) ≤ credits ∧
      credits + after.next.cpu = (Work.adjustCas credits a.balance after).reserved
        + after.next.credited := by
    cases after with
    | settle r cpu drop =>
      obtain ⟨hok, -, hc⟩ := hfits
      have hcpu : (cpu : Int) ≤ i64Max := by
        have : total = before + cpu := htotal
        omega
      have hamount := hok.amount
      rw [refund_eq hamount hcpu] at hc
      obtain ⟨hpos, -⟩ := hamount
      simp only [After.next, Work.cpu, Work.reserved, Work.credited, Work.asked]
      omega
    | replenish c =>
      have hc : credits = (i64TryFrom c).getD i64Max := hfits
      rw [credit_eq] at hc
      simp only [After.next, Work.cpu, Work.reserved, Work.credited, Work.asked]
      omega
  obtain ⟨hlow, heq⟩ := hbooks
  have hnext : after.next.reserved = 0 := by cases after <;> rfl
  have hwas : (Work.adjustCas credits a.balance after).cpu = 0 ∧
      (Work.adjustCas credits a.balance after).credited = 0 := ⟨rfl, rfl⟩
  have hsum : i64Min ≤ a.balance + credits := by
    unfold i64Max at hbound
    unfold i64Min
    omega
  have hadj := adjusted_eq hcap hsum
  refine ⟨?_, ?_, ?_, ?_⟩
  · show adjusted a a.balance credits ≤ a.capacity
    omega
  · show -(total : Int) ≤ adjusted a a.balance credits
    omega
  · show adjusted a a.balance credits + _ + _ + _ ≤ _
    rw [hnext, hwas.1, hwas.2]
    omega
  · intro htrunc
    -- Without truncation the sum is below the cap.
    have hroom : a.balance + credits ≤ a.capacity := by
      simpa [truncates, hspurious] using htrunc
    show adjusted a a.balance credits + _ + _ + _ = _
    rw [hnext, hwas.1, hwas.2]
    omega

/-- One step of a task, seen from the balance. -/
theorem stepWork_paid [Target] {a a' : CreditAccount} {w w' : Work} {e : Event}
    {before total : Nat} (hfits : w.Fits a.parallelism) (hpos : 0 < a.capacity)
    (hcap : a.capacity ≤ i64Max) (htop : a.balance ≤ a.capacity)
    (hfloor : -(before : Int) ≤ a.balance) (htotal : total + w.cpu = before + w'.cpu)
    (hbound : (total : Int) ≤ i64Max) (h : stepWork a w e = some (a', w')) :
    Paid a a' w w' total (truncates a w e) := by
  -- Only a settled reservation adds to the CPU, so the total stays in every other step.
  have hsame : w'.cpu = w.cpu → -(total : Int) ≤ a.balance := by
    intro heq
    omega
  cases stepWork_turn h with
  | countLoad | countRetry =>
    obtain ⟨hres, hcpu, hcred⟩ := countNext_books a _ a.inFlight
    exact .keep htop (hsame hcpu) rfl hres hcpu hcred
  | balanceLoad | balanceRetry =>
    obtain ⟨hres, hcpu, hcred⟩ := balanceNext_books _ a.balance
    exact .keep htop (hsame hcpu) rfl hres hcpu hcred
  | @balanceCas reserved =>
    obtain ⟨⟨hrpos, -⟩, hle⟩ := hfits
    -- The credit moves from the balance to the reservation.
    have hfl := hsame rfl
    have hbooks : ((Work.held ⟨reserved, none, false⟩ 0).reserved : Int) = reserved := by
      show (reserved.toNat : Int) = reserved
      omega
    refine ⟨?_, ?_, ?_, fun _ => ?_⟩
    · show a.balance - reserved ≤ a.capacity
      omega
    · show -(total : Int) ≤ a.balance - reserved
      omega
    · rw [hbooks]
      show a.balance - reserved + reserved + 0 + 0 ≤ a.balance + 0 + 0 + 0
      omega
    · rw [hbooks]
      show a.balance - reserved + reserved + 0 + 0 = a.balance + 0 + 0 + 0
      omega
  | @settledBefore r cpu drop hdone =>
    cases drop with
    | true => exact .keep htop (hsame rfl) rfl (by simp [settled, Work.reserved, hdone]) rfl rfl
    | false => exact .keep htop (hsame rfl) rfl rfl rfl rfl
  | @started r cpu drop start hdone =>
    obtain rfl : cpu = 0 := hfits.2 hdone
    exact .keep htop (hsame rfl) rfl (by simp [Work.reserved, hdone]) rfl rfl
  | @unused r cpu drop hdone =>
    obtain rfl : cpu = 0 := hfits.2 hdone
    exact .keep htop (hsame rfl) rfl (by simp [Work.reserved, settleAdjust, hdone]) rfl rfl
  | @adjustLoad credits after | @adjustRetry credits _ after =>
    exact .keep htop (hsame rfl) rfl (by cases after <;> rfl) rfl rfl
  | adjustCas => exact adjust_paid hfits hpos hcap hfloor htotal hbound rfl
  | request | refuse | countCas | rollback | enter | refuseEnter | finish | drop | measure
  | release | replenish => exact .keep htop (hsame rfl) rfl rfl rfl rfl

/-! ### The books of the system -/

/-- The client's states of the tasks. -/
def State.works (s : State) : List Work := s.tasks.map Sync.Task.work

/-- The credit of the reservations that are not settled. -/
def State.reserved (s : State) : Nat := tally Work.reserved s.works

/-- The CPU that the settled reservations measured. -/
def State.cpu (s : State) : Nat := tally Work.cpu s.works

/-- The credits that were asked of `replenish`. -/
def State.asked (s : State) : Nat := tally Work.asked s.works

/-- The credits that `replenish` added, each at most `i64::MAX`. -/
def State.credited (s : State) : Nat := tally Work.credited s.works

/-- Two states of a task that stand for the same in the books. -/
structure SameBooks (parallelism : Nat) (w w' : Work) : Prop where
  fits : w.Fits parallelism → w'.Fits parallelism
  unsettled : w'.unsettled = w.unsettled
  holding : w'.holding = w.holding
  reserved : w'.reserved = w.reserved
  cpu : w'.cpu = w.cpu
  asked : w'.asked = w.asked

/-- A broadcast is not booked. -/
theorem afterNotify_same (parallelism : Nat) {w w' : Work} (hf : w.Fits parallelism)
    (h : afterNotify w = some w') : SameBooks parallelism w w' := by
  cases w with
  | rollbackNotify =>
    cases h
    exact ⟨fun _ => trivial, rfl, rfl, rfl, rfl, rfl⟩
  | replenishNotify credits =>
    cases h
    exact ⟨fun _ => trivial, rfl, rfl, rfl, rfl, rfl⟩
  | settleNotify r cpu drop =>
    cases h
    obtain ⟨hok, hdone⟩ := hf
    unfold settled
    cases drop with
    | true => exact ⟨fun _ => hok, rfl, rfl, rfl, rfl, rfl⟩
    | false =>
      refine ⟨fun _ => ⟨hok, ?_⟩, by simp [Work.unsettled, hdone], rfl,
        by simp [Work.reserved, hdone], rfl, rfl⟩
      intro h
      rw [hdone] at h
      cases h
  | _ => cases h

/-- What a step does to the account and the tasks. -/
inductive Booked [Target] (s s' : State) (act : Action) : Prop where
  /-- Nothing that is booked. -/
  | same (account : s'.account = s.account) (works : s'.works = s.works)
  /-- A new call. -/
  | call (w : Work) (account : s'.account = s.account) (works : s'.works = s.works ++ [w])
      (books : SameBooks s.account.parallelism .denied w)
  /-- A task goes on without changing the account. -/
  | moves (i : Nat) (w w' : Work) (task : s.works[i]? = some w) (account : s'.account = s.account)
      (works : s'.works = s.works.set i w')
      (books : w.Fits s.account.parallelism → SameBooks s.account.parallelism w w')
  /-- A step on the account. -/
  | steps (i : Nat) (w w' : Work) (e : Event) (label : act = .work i e)
      (task : s.works[i]? = some w) (step : stepWork s.account w e = some (s'.account, w'))
      (works : s'.works = s.works.set i w')

/-- The work of a task is one of the client's states. -/
theorem State.works_of_some {s : State} {i : Nat} {t : Sync.Task Work}
    (hi : s.tasks[i]? = some t) : s.works[i]? = some t.work := by
  unfold State.works
  rw [List.getElem?_map, hi]
  rfl

/-- The states of the tasks after a new call. -/
theorem works_spawn (s : State) (w : Work) : (spawn s w).works = s.works ++ [w] := by
  simp [State.works, spawn]

/-- Every step is booked in one of four ways. -/
theorem step_booked [Target] {s s' : State} {act : Action} (hs : step s act = some s') :
    Booked s s' act := by
  cases act with
  | reserve credits =>
    cases hs
    exact .call (.reserve credits) rfl (works_spawn s _)
      ⟨fun _ => trivial, rfl, rfl, rfl, rfl, rfl⟩
  | replenish credits =>
    cases hs
    exact .call (.replenish credits) rfl (works_spawn s _)
      ⟨fun _ => trivial, rfl, rfl, rfl, rfl, rfl⟩
  | waitFor credits =>
    simp only [step] at hs
    split at hs <;> cases hs
    exact .call (.waitFor credits) rfl (works_spawn s _)
      ⟨fun _ => trivial, rfl, rfl, rfl, rfl, rfl⟩
  | work i e =>
    simp only [step] at hs
    split at hs
    · rename_i t hi
      split at hs
      · rename_i account w' hstep
        obtain ⟨tasks, hw, rfl⟩ := Option.map_eq_some_iff.mp hs
        exact .steps i t.work w' e rfl (State.works_of_some hi) hstep
          (Sync.Task.workAt_works hw)
      · cases hs
    · cases hs
  | notifyWaiters i =>
    simp only [step] at hs
    split at hs
    · rename_i t hi
      split at hs
      · rename_i w' hnext
        obtain ⟨⟨changed, tasks⟩, hcast, rfl⟩ := Option.map_eq_some_iff.mp hs
        exact .moves i t.work w' (State.works_of_some hi) rfl
          (Sync.Task.broadcastAt_works hcast) fun hf => afterNotify_same _ hf hnext
      · cases hs
    · cases hs
  | start i =>
    simp only [step] at hs
    split at hs
    · rename_i credits listen wakes hi
      split at hs
      · split at hs <;> obtain ⟨tasks, hw, rfl⟩ := Option.map_eq_some_iff.mp hs <;>
          exact .moves i _ _ (State.works_of_some hi) rfl (Sync.Task.workAt_works hw) fun _ =>
            ⟨fun _ => trivial, rfl, rfl, rfl, rfl, rfl⟩
      · obtain ⟨tasks, hw, rfl⟩ := Option.map_eq_some_iff.mp hs
        exact .moves i _ _ (State.works_of_some hi) rfl (Sync.Task.workAt_works hw) fun _ =>
          ⟨fun _ => trivial, rfl, rfl, rfl, rfl, rfl⟩
    · cases hs
  | loadBalance i =>
    simp only [step] at hs
    split at hs
    · rename_i credits future wakes hi
      split at hs
      · obtain ⟨tasks, hw, rfl⟩ := Option.map_eq_some_iff.mp hs
        exact .moves i _ _ (State.works_of_some hi) rfl (Sync.Task.workAt_works hw) fun _ =>
          ⟨fun _ => trivial, rfl, rfl, rfl, rfl, rfl⟩
      · obtain ⟨⟨changed, tasks⟩, hl, rfl⟩ := Option.map_eq_some_iff.mp hs
        exact .same rfl (Sync.Task.listenAt_works hl)
    · cases hs
  | loadInFlight i =>
    simp only [step] at hs
    split at hs
    · rename_i credits listen wakes hi
      obtain ⟨tasks₁, hw, hs⟩ := Option.bind_eq_some_iff.mp hs
      obtain ⟨⟨changed, tasks⟩, hl, rfl⟩ := Option.map_eq_some_iff.mp hs
      refine .moves i (.loadInFlight credits) (.listening credits) (State.works_of_some hi) rfl ?_
        fun _ => ⟨fun _ => trivial, rfl, rfl, rfl, rfl, rfl⟩
      exact (Sync.Task.listenAt_works hl).trans (Sync.Task.workAt_works hw)
    · cases hs
  | listen i e =>
    simp only [step] at hs
    split at hs <;> first
      | cases hs
      | obtain ⟨⟨changed, tasks⟩, hl, rfl⟩ := Option.map_eq_some_iff.mp hs
        exact .same rfl (Sync.Task.listenAt_works hl)
  | wake i =>
    simp only [step] at hs
    obtain ⟨tasks, hw, rfl⟩ := Option.map_eq_some_iff.mp hs
    exact .same rfl (Sync.Task.wakeAt_works hw)

/-- What holds of the count in every state. -/
structure Counted [Target] (s : State) : Prop where
  capacity : 0 < s.account.capacity ∧ s.account.capacity ≤ i64Max
  parallelism : s.account.parallelism ≤ usizeMax
  fits : ∀ w ∈ s.works, w.Fits s.account.parallelism
  count : s.account.inFlight = tally Work.places s.works
  cap : s.account.inFlight ≤ s.account.parallelism

/-- The sum of a weight that a moved task keeps. -/
theorem tally_moves {f : Work → Nat} {l : List Work} {i : Nat} {w w' : Work}
    (hi : l[i]? = some w) (h : f w' = f w) : tally f (l.set i w') = tally f l :=
  tally_set_of_eq f hi h

/-- What a replaced pool of tasks has computed. -/
theorem fits_set {p : Nat} {l : List Work} {i : Nat} {w' : Work} (h : ∀ w ∈ l, w.Fits p)
    (hw' : w'.Fits p) : ∀ w ∈ l.set i w', w.Fits p := by
  intro w hw
  rcases List.mem_or_eq_of_mem_set hw with hw | rfl
  · exact h w hw
  · exact hw'

/-- Every step keeps the count. -/
theorem counted_step [Target] {s s' : State} {act : Action} (h : Counted s)
    (hs : step s act = some s') : Counted s' := by
  cases step_booked hs with
  | same account works => exact ⟨account ▸ h.capacity, account ▸ h.parallelism,
      by rw [account, works]; exact h.fits, by rw [account, works]; exact h.count,
      account ▸ h.cap⟩
  | call w account works books =>
    refine ⟨account ▸ h.capacity, account ▸ h.parallelism, ?_, ?_, account ▸ h.cap⟩
    · rw [account, works]
      intro x hx
      rcases List.mem_append.mp hx with hx | hx
      · exact h.fits x hx
      · rw [List.mem_singleton.mp hx]
        exact books.fits trivial
    · -- A new call has not taken a place yet.
      have hzero : w.places = 0 := by
        unfold Work.places
        rw [books.unsettled, books.holding]
        rfl
      rw [account, works, tally_append, h.count]
      simp [hzero]
  | moves i w w' task account works books =>
    have hf := h.fits w (List.mem_of_getElem? task)
    have hb := books hf
    refine ⟨account ▸ h.capacity, account ▸ h.parallelism, ?_, ?_, account ▸ h.cap⟩
    · rw [account, works]
      exact fits_set h.fits (hb.fits hf)
    · rw [account, works, h.count]
      refine (tally_moves task ?_).symm
      unfold Work.places
      rw [hb.unsettled, hb.holding]
  | steps i w w' e label task hstep works =>
    -- The place of this task is one of those counted.
    have hle : w.places ≤ s.account.inFlight := by
      rw [h.count]
      exact le_tally Work.places task
    have hm := stepWork_moved (h.fits w (List.mem_of_getElem? task)) h.cap h.parallelism hle hstep
    refine ⟨hm.capacity ▸ h.capacity, hm.parallelism ▸ h.parallelism, ?_, ?_, ?_⟩
    · rw [hm.parallelism, works]
      exact fits_set h.fits hm.fits
    · have hcount := hm.count
      have htally := tally_set Work.places task w'
      have := h.count
      rw [works]
      omega
    · rw [hm.parallelism]
      exact hm.cap

/-- A new account meets the count. -/
theorem counted_init [Target] (s : State) (h : system.init s) : Counted s := by
  obtain ⟨capacity, parallelism, hpos, hle, hpar, hmax, rfl⟩ := h
  exact ⟨⟨hpos, hle⟩, hmax, by simp [State.works, new], rfl, Nat.zero_le _⟩

/-- The count is right in every reachable state. -/
theorem counted_of_reachable [Target] {s : State} (h : system.Reachable s) : Counted s :=
  h.invariant counted_init fun _ _ _ hi hs => counted_step hi hs

/-- What holds of the balance while the measured CPU stays below `2 ^ 63`. -/
structure Balanced (s : State) : Prop where
  top : s.account.balance ≤ s.account.capacity
  floor : -(s.cpu : Int) ≤ s.account.balance
  ledger : s.account.balance + s.reserved + s.cpu ≤ s.account.capacity + s.credited

/-- Nothing was lost to the cap. -/
def Exact (s : State) : Prop :=
  s.account.balance + s.reserved + s.cpu = s.account.capacity + s.credited

/-- The measured CPU stays below `2 ^ 63`. -/
def Metered (_ : State) (_ : Action) (s : State) : Prop := s.cpu < 2 ^ 63

/-- The step is an `adjust` that the cap truncates. -/
def truncatedAt (s : State) : Action → Bool
  | .work i e => s.works[i]?.any fun w => truncates s.account w e
  | _ => false

/-- The measured CPU stays below `2 ^ 63`, and the cap truncates nothing. -/
def Untruncated (s : State) (act : Action) (s' : State) : Prop :=
  s'.cpu < 2 ^ 63 ∧ truncatedAt s act = false

instance (s : State) (act : Action) (s' : State) : Decidable (Metered s act s') :=
  inferInstanceAs (Decidable (_ < _))

instance (s : State) (act : Action) (s' : State) : Decidable (Untruncated s act s') :=
  inferInstanceAs (Decidable (_ ∧ _))

/-- A step that books nothing keeps the balance. -/
theorem balanced_congr {s s' : State} {act : Action} (h : Balanced s)
    (account : s'.account = s.account)
    (heq : s'.reserved = s.reserved ∧ s'.cpu = s.cpu ∧ s'.credited = s.credited) :
    Balanced s' ∧ (truncatedAt s act = false → Exact s → Exact s') := by
  obtain ⟨hr, hcpu, hcr⟩ := heq
  refine ⟨⟨account ▸ h.top, by rw [account, hcpu]; exact h.floor,
    by rw [account, hr, hcpu, hcr]; exact h.ledger⟩, ?_⟩
  intro _ he
  unfold Exact
  rw [account, hr, hcpu, hcr]
  exact he

/-- A metered step keeps the balance, and it keeps the books exact unless it is truncated. -/
theorem balanced_step [Target] {s s' : State} {act : Action} (hc : Counted s) (h : Balanced s)
    (hs : step s act = some s') (hm : s'.cpu < 2 ^ 63) :
    Balanced s' ∧ (truncatedAt s act = false → Exact s → Exact s') := by
  cases step_booked hs with
  | same account works =>
    have heq : s'.reserved = s.reserved ∧ s'.cpu = s.cpu ∧ s'.credited = s.credited := by
      unfold State.reserved State.cpu State.credited
      rw [works]
      exact ⟨rfl, rfl, rfl⟩
    exact balanced_congr h account heq
  | call w account works books =>
    -- A new call has nothing on the books yet.
    have hzero : w.reserved = 0 ∧ w.cpu = 0 ∧ w.credited = 0 := by
      unfold Work.credited
      rw [books.reserved, books.cpu, books.asked]
      exact ⟨rfl, rfl, rfl⟩
    have heq : s'.reserved = s.reserved ∧ s'.cpu = s.cpu ∧ s'.credited = s.credited := by
      unfold State.reserved State.cpu State.credited
      rw [works]
      simp [hzero]
    exact balanced_congr h account heq
  | moves i w w' task account works books =>
    have hb := books (hc.fits w (List.mem_of_getElem? task))
    have heq : s'.reserved = s.reserved ∧ s'.cpu = s.cpu ∧ s'.credited = s.credited := by
      unfold State.reserved State.cpu State.credited
      rw [works]
      refine ⟨tally_moves task hb.reserved, tally_moves task hb.cpu, tally_moves task ?_⟩
      unfold Work.credited
      rw [hb.asked]
    exact balanced_congr h account heq
  | steps i w w' e label task hstep works =>
    have hle : w.places ≤ s.account.inFlight := by
      rw [hc.count]
      exact le_tally Work.places task
    have hfits := hc.fits w (List.mem_of_getElem? task)
    have hmoved := stepWork_moved hfits hc.cap hc.parallelism hle hstep
    -- The books of the system move by the books of the task.
    have hr : s'.reserved + w.reserved = s.reserved + w'.reserved := by
      unfold State.reserved
      rw [works]
      exact tally_set Work.reserved task w'
    have hcpu : s'.cpu + w.cpu = s.cpu + w'.cpu := by
      unfold State.cpu
      rw [works]
      exact tally_set Work.cpu task w'
    have hcr : s'.credited + w.credited = s.credited + w'.credited := by
      unfold State.credited
      rw [works]
      exact tally_set Work.credited task w'
    have hbound : (s'.cpu : Int) ≤ i64Max := by
      unfold i64Max
      omega
    have hp := stepWork_paid hfits hc.capacity.1 hc.capacity.2 h.top h.floor hcpu hbound hstep
    have hledger := hp.ledger
    have hold := h.ledger
    refine ⟨⟨by rw [hmoved.capacity]; exact hp.top, hp.floor, ?_⟩, ?_⟩
    · rw [hmoved.capacity]
      omega
    · intro htrunc he
      rw [label] at htrunc
      simp only [truncatedAt, task, Option.any_some] at htrunc
      have hexact := hp.exact htrunc
      unfold Exact at he ⊢
      rw [hmoved.capacity]
      omega

/-- A new account is balanced, and its books are exact. -/
theorem balanced_init [Target] (s : State) (h : system.init s) : Balanced s ∧ Exact s := by
  obtain ⟨capacity, parallelism, hpos, -, -, -, rfl⟩ := h
  have hle : (0 : Int) ≤ capacity := Int.le_of_lt hpos
  refine ⟨⟨Int.le_refl _, ?_, ?_⟩, ?_⟩
  · show -((0 : Nat) : Int) ≤ capacity
    omega
  · show capacity + (0 : Nat) + (0 : Nat) ≤ capacity + (0 : Nat)
    omega
  · show capacity + (0 : Nat) + (0 : Nat) = capacity + (0 : Nat)
    omega

/-- The balance is right along every metered run. -/
theorem balanced_of_reach [Target] {s : State} (h : system.Reach Metered s) :
    Counted s ∧ Balanced s := by
  refine h.invariant (P := fun s => Counted s ∧ Balanced s) ?_ ?_
  · exact fun s h0 => ⟨counted_init s h0, (balanced_init s h0).1⟩
  · exact fun s act s' hi hs hm => ⟨counted_step hi.1 hs, (balanced_step hi.1 hi.2 hs hm).1⟩

/-- The books are exact along every metered run without truncation. -/
theorem exact_of_reach [Target] {s : State} (h : system.Reach Untruncated s) : Exact s := by
  refine (h.invariant (P := fun s => Counted s ∧ Balanced s ∧ Exact s) ?_ ?_).2.2
  · exact fun s h0 => ⟨counted_init s h0, balanced_init s h0⟩
  · intro s act s' ⟨hc, hb, he⟩ hs hm
    obtain ⟨hb', he'⟩ := balanced_step hc hb hs hm.1
    exact ⟨counted_step hc hs, hb', he' hm.2 he⟩

/-- What `replenish` added is at most what it was asked for. -/
theorem credited_le_asked (s : State) : s.credited ≤ s.asked :=
  tally_le_tally fun w _ => Nat.min_le_left w.asked i64Max.toNat

/-- A settled or dropped reservation that was not entered measured nothing. -/
theorem cpu_eq_zero {p : Nat} {w : Work} (hf : w.Fits p) {r : CpuReservation}
    (hr : w.reservation = some r) (hstart : r.started = none) : w.cpu = 0 := by
  cases w with
  | held x cpu =>
    cases hr
    exact hf.1.idle hstart
  | settle x cpu drop =>
    cases hr
    exact hf.1.idle hstart
  | release x cpu drop =>
    cases hr
    exact hf.1.idle hstart
  | settleNotify x cpu drop =>
    cases hr
    exact hf.1.idle hstart
  | dropped x cpu =>
    cases hr
    exact hf.idle hstart
  | measure | adjustLoad | adjustCas => rfl
  | _ => cases hr

/-- The compare-exchange that makes a reservation finds the balance it was computed from. -/
theorem stepWork_reserves [Target] {a a' : CreditAccount} {e : Event} {reserved current : Int}
    {r : CpuReservation} {cpu : Nat} (hle : reserved ≤ current)
    (h : stepWork a (.balanceCas reserved current) e = some (a', .held r cpu)) :
    reserved ≤ a.balance := by
  generalize hw : Work.held r cpu = w' at h
  cases stepWork_turn h with
  | balanceCas => exact hle
  | balanceRetry =>
    unfold balanceNext at hw
    split at hw <;> cases hw

/-- A reservation comes into being only when the balance is enough for it. -/
theorem reserves_within_balance [Target] {s s' : State} {act : Action} (hc : Counted s)
    (hs : step s act = some s') {i : Nat} {reserved current : Int}
    (hi : s.works[i]? = some (.balanceCas reserved current))
    (hi' : s'.works[i]? = some (.held ⟨reserved, none, false⟩ 0)) :
    reserved ≤ s.account.balance := by
  -- A task at the exchange does not hold its reservation, so this step is its own.
  have hne : ∀ works : List Work, works[i]? = some (.balanceCas reserved current) →
      works[i]? ≠ some (.held ⟨reserved, none, false⟩ 0) := by
    intro works h
    rw [h]
    simp
  cases step_booked hs with
  | same account works => exact absurd (works ▸ hi') (hne _ hi)
  | call w account works books =>
    rw [works] at hi'
    rcases getElem?_append_singleton hi' with hi' | ⟨hlen, -⟩
    · exact absurd hi' (hne _ hi)
    · have := (List.getElem?_eq_some_iff.mp hi).1
      omega
  | moves j w w' task account works books =>
    rw [works, getElem?_set_of_some task] at hi'
    split at hi'
    · rename_i hij
      rw [← hij, hi] at task
      cases task
      cases hi'
      -- A broadcast or a check does not reserve: the places of the task would change.
      have hb := (books (hc.fits _ (List.mem_of_getElem? hi))).unsettled
      cases hb
    · exact absurd hi' (hne _ hi)
  | steps j w w' e label task hstep works =>
    rw [works, getElem?_set_of_some task] at hi'
    split at hi'
    · rename_i hij
      rw [← hij, hi] at task
      cases task
      cases hi'
      have hfits := hc.fits _ (List.mem_of_getElem? hi)
      exact stepWork_reserves hfits.2 hstep
    · exact absurd hi' (hne _ hi)

/-- CPU credit is never minted. In every state of a run whose measured CPU stays below `2 ^ 63`
the balance is at most the capacity; the balance, the credit of the unsettled reservations and
the CPU of the settled ones are at most the capacity and the credit that was replenished; they
are equal to the capacity and the credit that was replenished, with each `replenish` counted
as at most `i64::MAX`, when the cap truncated no `adjust` of the run; a reservation that was
never entered counts no CPU; and no reservation is made while the balance is below it. -/
theorem credit_never_minted [Target] {s : State} (hr : system.Reach Metered s) :
    s.account.balance ≤ s.account.capacity ∧
    s.account.balance + s.reserved + s.cpu ≤ s.account.capacity + s.asked ∧
    (system.Reach Untruncated s →
      s.account.balance + s.reserved + s.cpu = s.account.capacity + s.credited) ∧
    (∀ w ∈ s.works, ∀ r, w.reservation = some r → r.started = none → w.cpu = 0) ∧
    (∀ act s', step s act = some s' → ∀ (i : Nat) reserved current,
      s.works[i]? = some (.balanceCas reserved current) →
      s'.works[i]? = some (.held ⟨reserved, none, false⟩ 0) →
      reserved ≤ s.account.balance) := by
  obtain ⟨hc, hb⟩ := balanced_of_reach hr
  refine ⟨hb.top, ?_, exact_of_reach, ?_, ?_⟩
  · have hle := credited_le_asked s
    have hledger := hb.ledger
    omega
  · intro w hw r hres hstart
    exact cpu_eq_zero (hc.fits w hw) hres hstart
  · intro act s' hs i reserved current hi hi'
    exact reserves_within_balance hc hs hi hi'

/-- A run of `reserve(3)`, `enter` at 10, `finish` at 15 and `replenish(1)` on an account of 100:
the balance is 96, and 5 nanoseconds were measured. -/
theorem credit_never_minted_one_turn :
    ∃ s, (@system target64).Reach Metered s ∧ s.account.balance = 96 ∧
      s.account.balance + s.reserved + s.cpu = s.account.capacity + s.credited := by
  obtain ⟨s, hr, hp⟩ := Lts.Reach.exists_of_runWhere (M := @system target64)
    (s := new 100 2) Untruncated
    [.reserve 3, .work 0 .advance, .work 0 .advance, .work 0 (.cas false), .work 0 .advance,
      .work 0 (.cas false), .work 0 (.enter 10), .work 0 .finish, .work 0 .advance,
      .work 0 (.clock 15), .work 0 .advance, .work 0 (.cas false), .work 0 .advance,
      .replenish 1, .work 1 .advance, .work 1 .advance, .work 1 (.cas false)]
    (fun s => s.account.balance = 96) ⟨100, 2, by decide⟩ (by decide)
  have hm : (@system target64).Reach Metered s := hr.mono fun _ _ _ h => h.1
  exact ⟨s, hm, of_decide_eq_true hp, (@credit_never_minted target64 s hm).2.2.1 hr⟩

/-- `replenish` counts at most `i64::MAX`. An account of `i64::MAX` is empty, and `2 ^ 63` credits
are added: nothing is truncated by the cap, and one credit is missing. -/
theorem replenish_clamped :
    ∃ s, (@system target64).Reach Metered s ∧ (@system target64).Reach Untruncated s ∧
      s.account.balance + s.reserved + s.cpu ≠ s.account.capacity + s.asked := by
  obtain ⟨s, hr, hp⟩ := Lts.Reach.exists_of_runWhere (M := @system target64)
    (s := new i64Max 2) Untruncated
    [.reserve 9223372036854775807, .work 0 .advance, .work 0 .advance, .work 0 (.cas false),
      .work 0 .advance, .work 0 (.cas false), .replenish 9223372036854775808, .work 1 .advance,
      .work 1 .advance, .work 1 (.cas false)]
    (fun s => s.account.balance + s.reserved + s.cpu ≠ s.account.capacity + s.asked)
    ⟨i64Max, 2, by decide⟩ (by decide)
  exact ⟨s, hr.mono fun _ _ _ h => h.1, hr, of_decide_eq_true hp⟩

/-- A call of `reserve` in progress, or a reservation that is not dropped. -/
def Work.admission : Work → Bool
  | .reserve _ | .countLoad _ | .countCas _ _ | .balanceLoad _ | .balanceCas _ _ | .rollback
  | .rollbackNotify | .held _ _ | .settle _ _ _ | .measure _ _ _ | .release _ _ _
  | .settleNotify _ _ _ | .adjustLoad _ (.settle _ _ _) | .adjustCas _ _ (.settle _ _ _) => true
  | _ => false

/-- A task that is no admission holds no place. -/
theorem places_of_not_admission {w : Work} (h : w.admission = false) : w.places = 0 := by
  cases w with
  | adjustLoad credits after => cases after <;> first | rfl | cases h
  | adjustCas credits current after => cases after <;> first | rfl | cases h
  | denied | dropped | replenish | replenishNotify | replenished | waitFor | listening
  | loadInFlight | tooLarge => rfl
  | _ => cases h

/-- A reservation takes no second place. -/
theorem stepWork_places [Target] {a a' : CreditAccount} {w w' : Work} {e : Event}
    (hres : w.reservation.isSome) (h : stepWork a w e = some (a', w')) :
    w'.places ≤ w.places := by
  cases stepWork_turn h with
  | enter | refuseEnter | measure => exact Nat.le_refl _
  | finish | drop => exact Nat.le_of_eq (held_places _ _ _)
  | settledBefore hdone => exact Nat.le_of_eq (settled_places hdone _ _)
  | started hdone | unused hdone => exact Nat.le_of_eq (settle_places hdone _ _).symm
  | adjustLoad => exact Nat.le_of_eq (After.places _ _ _).1
  | @adjustRetry credits current after =>
    rw [(After.places after credits _).1, (After.places after credits current).1]
  | @adjustCas credits after =>
    rw [(After.places after credits 0).2, (After.places after credits _).1]
  | release => exact Nat.zero_le _
  | request | refuse | countLoad | countRetry | countCas | balanceLoad | balanceRetry | balanceCas
  | rollback | replenish => cases hres

/-- A task after a step, where nothing but the steps of a reservation moves its place. -/
theorem reservation_places [Target] {s s' : State} {act : Action} (hc : Counted s)
    (hs : step s act = some s') {i : Nat} {w w' : Work} (hi : s.works[i]? = some w)
    (hi' : s'.works[i]? = some w') (hres : w.reservation.isSome) : w'.places ≤ w.places := by
  cases step_booked hs with
  | same account works =>
    rw [works, hi] at hi'
    cases hi'
    exact Nat.le_refl _
  | call x account works books =>
    rw [works] at hi'
    rcases getElem?_append_singleton hi' with hi' | ⟨hlen, -⟩
    · rw [hi] at hi'
      cases hi'
      exact Nat.le_refl _
    · have := (List.getElem?_eq_some_iff.mp hi).1
      omega
  | moves j x x' task account works books =>
    rw [works, getElem?_set_of_some task] at hi'
    split at hi'
    · rename_i hij
      rw [← hij, hi] at task
      cases task
      cases hi'
      -- A broadcast or a check leaves the places of its task alone.
      have hb := books (hc.fits _ (List.mem_of_getElem? hi))
      unfold Work.places
      rw [hb.unsettled, hb.holding]
    · rw [hi] at hi'
      cases hi'
      exact Nat.le_refl _
  | steps j x x' e label task hstep works =>
    rw [works, getElem?_set_of_some task] at hi'
    split at hi'
    · rename_i hij
      rw [← hij, hi] at task
      cases task
      cases hi'
      exact stepWork_places hres hstep
    · rw [hi] at hi'
      cases hi'
      exact Nat.le_refl _

/-- The in-flight cap is exact. In every reachable state the count is the number of unsettled
reservations and of calls that hold a place they have not given back, and it is at most the
parallelism. A task that is about to give its place back finds the count positive, so the
`fetch_sub` does not wrap. A reservation that gave its place back takes none again. The count is
zero when no call of `reserve` and no reservation is left. -/
theorem in_flight_exact [Target] {s : State} (h : system.Reachable s) :
    s.account.inFlight = tally Work.unsettled s.works + tally Work.holding s.works ∧
    s.account.inFlight ≤ s.account.parallelism ∧
    (∀ w ∈ s.works, (w = .rollback ∨ ∃ r cpu drop, w = .release r cpu drop) →
      usizeSub s.account.inFlight 1 + 1 = s.account.inFlight) ∧
    (∀ act s', step s act = some s' → ∀ (i : Nat) w w', s.works[i]? = some w →
      s'.works[i]? = some w' → w.reservation.isSome → w.places = 0 → w'.places = 0) ∧
    ((∀ w ∈ s.works, w.admission = false) → s.account.inFlight = 0) := by
  have hc := counted_of_reachable h
  refine ⟨?_, hc.cap, ?_, ?_, ?_⟩
  · rw [hc.count]
    induction s.works with
    | nil => rfl
    | cons w l ih =>
      rw [tally_cons, tally_cons, tally_cons, ih]
      unfold Work.places
      omega
  · intro w hw hgives
    obtain ⟨i, hi⟩ := List.getElem?_of_mem hw
    have hle := le_tally Work.places hi
    have hone : w.places = 1 := by
      rcases hgives with rfl | ⟨r, cpu, drop, rfl⟩ <;> rfl
    rw [← hc.count, hone] at hle
    have hpar := hc.parallelism
    have hcap := hc.cap
    have := two_lt_usizeModulus
    unfold usizeMax at hpar
    rw [usizeSub_of_le hle (by omega)]
    omega
  · intro act s' hs i w w' hi hi' hres hzero
    have := reservation_places hc hs hi hi' hres
    omega
  · intro hnone
    rw [hc.count]
    exact tally_eq_zero fun w hw => places_of_not_admission (hnone w hw)

/-- Two calls of `reserve` against a parallelism of one: the first holds the only place, and the
second is denied. -/
theorem in_flight_exact_full :
    ∃ s, (@system target64).Reachable s ∧ s.works[1]? = some .denied ∧
      1 = tally Work.unsettled s.works + tally Work.holding s.works := by
  obtain ⟨s, hr, hp⟩ := Lts.Reachable.exists_of_run (M := @system target64) (s := new 100 1)
    [.reserve 3, .reserve 4, .work 0 .advance, .work 0 .advance, .work 0 (.cas false),
      .work 0 .advance, .work 1 .advance, .work 1 .advance, .work 0 (.cas false)]
    (fun s => s.works[1]? = some .denied ∧ s.account.inFlight = 1) ⟨100, 1, by decide⟩ (by decide)
  simp only [decide_eq_true_eq] at hp
  obtain ⟨hdenied, hcount⟩ := hp
  refine ⟨s, hr, hdenied, ?_⟩
  rw [← (@in_flight_exact target64 s hr).1, hcount]

/-! ### `wait_for` -/

/-- The task is past the compare-exchange of its `adjust` or past its `fetch_sub`, and its broadcast
is still to come. What the step did to the balance does not matter: after a debt an `adjust` may
lower it, and a `replenish` at the capacity leaves it. -/
def Work.owes : Work → Bool
  | .rollbackNotify | .release _ _ _ | .settleNotify _ _ _ | .replenishNotify _ => true
  | _ => false

/-- A request of `credits` cannot be admitted, or somebody is about to broadcast. -/
def State.Refused (s : State) (credits : Int) : Prop :=
  s.account.balance < credits ∨ s.account.parallelism ≤ s.account.inFlight ∨
    ∃ w ∈ s.works, w.owes = true

/-- A step that makes room for a request is followed by a broadcast, and a task that owes one
owes it until it makes it. -/
theorem stepWork_owes [Target] {a a' : CreditAccount} {w w' : Work} {e : Event}
    (hfits : w.Fits a.parallelism) (h : stepWork a w e = some (a', w')) :
    a'.parallelism = a.parallelism ∧
    (w'.owes = true ∨ a'.balance ≤ a.balance ∧ a.inFlight ≤ a'.inFlight) ∧
      (w.owes = true → w'.owes = true) := by
  have hstay : ∀ w : Work, w.owes = false → a.parallelism = a.parallelism ∧
      (w'.owes = true ∨ a.balance ≤ a.balance ∧ a.inFlight ≤ a.inFlight) ∧
        (w.owes = true → w'.owes = true) := by
    intro w hw
    refine ⟨rfl, .inr ⟨Int.le_refl _, Nat.le_refl _⟩, ?_⟩
    intro howes
    rw [hw] at howes
    cases howes
  cases stepWork_turn h with
  | countCas => exact ⟨rfl, .inr ⟨Int.le_refl _, Nat.le_succ _⟩, by simp [Work.owes]⟩
  | @balanceCas reserved =>
    have hpos := hfits.1.1
    refine ⟨rfl, .inr ⟨?_, Nat.le_refl _⟩, by simp [Work.owes]⟩
    show a.balance - reserved ≤ a.balance
    omega
  | @adjustCas credits after => exact ⟨rfl, .inl (by cases after <;> rfl), by simp [Work.owes]⟩
  | rollback | release => exact ⟨rfl, .inl rfl, fun _ => rfl⟩
  | request | refuse | countLoad | countRetry | balanceLoad | balanceRetry | enter | refuseEnter
  | finish | drop | settledBefore | started | unused | measure | adjustLoad | adjustRetry
  | replenish => exact hstay _ rfl

/-- What holds of the loops of `wait_for`. -/
structure Listened (s : State) : Prop where
  tended : Sync.Task.Tended s.changed s.tasks
  /-- Only `wait_for` is in a loop. -/
  idle : ∀ (i : Nat) t, s.tasks[i]? = some t →
    (∀ c, t.work ≠ .listening c ∧ t.work ≠ .loadInFlight c) → t.listen = .left
  /-- Between the two loads a loop is at its check. -/
  checking : ∀ (i : Nat) t c, s.tasks[i]? = some t → t.work = .loadInFlight c →
    t.listen.awaits = none
  attentive : ∀ (i : Nat) t c, s.tasks[i]? = some t → t.work = .listening c →
    t.listen.Attentive s.changed → s.Refused c

/-- A task that keeps owing keeps the refusal. -/
theorem State.Refused.set {s s' : State} {c : Int} {i : Nat} {w w' : Work} (h : s.Refused c)
    (hi : s.works[i]? = some w) (hw : s'.works = s.works.set i w')
    (hpar : s'.account.parallelism = s.account.parallelism)
    (hroom : w'.owes = true ∨
      s'.account.balance ≤ s.account.balance ∧ s.account.inFlight ≤ s'.account.inFlight)
    (howes : w.owes = true → w'.owes = true) : s'.Refused c := by
  have hmem : w' ∈ s'.works := by
    rw [hw]
    exact mem_set_of_some hi w'
  rcases hroom with hroom | ⟨hbal, hcount⟩
  · exact .inr (.inr ⟨w', hmem, hroom⟩)
  · rcases h with h | h | ⟨x, hx, hxo⟩
    · exact .inl (Int.lt_of_le_of_lt hbal h)
    · refine .inr (.inl ?_)
      rw [hpar]
      exact Nat.le_trans h hcount
    · right
      right
      rcases mem_set_of_mem hi w' hx with rfl | hx
      · exact ⟨w', hmem, howes hxo⟩
      · rw [← hw] at hx
        exact ⟨x, hx, hxo⟩

/-- A loop moves, and the account does not. -/
theorem listened_listen [Target] {s : State} (h : Listened s) {i : Nat} {e : Listen.Event}
    {changed : Sync.NotifySystem.State} {tasks : List (Sync.Task Work)}
    (hs : Sync.Task.listenAt s.changed s.tasks i e = some (changed, tasks))
    (hwork : ∀ t, s.tasks[i]? = some t → ∃ c, t.work = .listening c ∧ (e = .pass → s.Refused c)) :
    Listened { s with changed, tasks } := by
  have hworks : State.works { s with changed, tasks } = s.works := Sync.Task.listenAt_works hs
  have hrefused : ∀ c, State.Refused { s with changed, tasks } c ↔ s.Refused c := by
    intro c
    unfold State.Refused
    rw [hworks]
  refine ⟨Sync.Task.tended_listenAt h.tended hs, ?_, ?_, ?_⟩
  · intro j t' hj hne
    obtain ⟨t, ht, hw, hleft, -, -⟩ := Sync.Task.listenAt_task h.tended hs hj
    exact hleft (h.idle j t ht (by rw [← hw]; exact hne))
  · intro j t' c hj hload
    by_cases hji : j = i
    · obtain ⟨t, ht, hw, -⟩ := Sync.Task.listenAt_task h.tended hs hj
      rw [hji] at ht
      obtain ⟨c', hc', -⟩ := hwork t ht
      rw [hw, hc'] at hload
      cases hload
    · have hsame := Sync.Task.listenAt_other hs hji hj
      exact h.checking j t' c hsame hload
  · intro j t' c hj hlisten hatt
    obtain ⟨t, ht, hw, -, -, hatt'⟩ := Sync.Task.listenAt_task h.tended hs hj
    rw [hw] at hlisten
    rw [hrefused]
    rcases hatt' hatt with ha | ⟨rfl, rfl⟩
    · exact h.attentive j t c ht hlisten ha
    · obtain ⟨c', hc', href⟩ := hwork t ht
      rw [hlisten] at hc'
      cases hc'
      exact href rfl

/-- A task goes on outside its loop. -/
theorem listened_work {s s' : State} (h : Listened s) {i : Nat} {t : Sync.Task Work} {w' : Work}
    {listen : Listen} (hi : s.tasks[i]? = some t)
    (hs : Sync.Task.workAt s.tasks i w' listen = some s'.tasks) (hchanged : s'.changed = s.changed)
    (hl : listen = t.listen ∨ listen = .create ∨ listen = .left)
    (hidle : (∀ c, w' ≠ .listening c ∧ w' ≠ .loadInFlight c) → listen = .left)
    (hawaits : listen.awaits = none)
    (hpar : s'.account.parallelism = s.account.parallelism)
    (hroom : w'.owes = true ∨
      s'.account.balance ≤ s.account.balance ∧ s.account.inFlight ≤ s'.account.inFlight)
    (howes : t.work.owes = true → w'.owes = true) : Listened s' := by
  have hworks : s'.works = s.works.set i w' := Sync.Task.workAt_works hs
  refine ⟨by rw [hchanged]; exact Sync.Task.tended_workAt h.tended hi hl hs, ?_, ?_, ?_⟩
  · intro j t' hj hne
    rcases Sync.Task.workAt_task hs hj with ⟨-, rfl⟩ | ⟨-, hj⟩
    · exact hidle hne
    · exact h.idle j t' hj hne
  · intro j t' c hj hload
    rcases Sync.Task.workAt_task hs hj with ⟨-, rfl⟩ | ⟨-, hj⟩
    · exact hawaits
    · exact h.checking j t' c hj hload
  · intro j t' c hj hlisten hatt
    rcases Sync.Task.workAt_task hs hj with ⟨-, rfl⟩ | ⟨-, hj⟩
    · obtain ⟨f, hf, -⟩ := hatt
      rw [show listen.awaits = some f from hf] at hawaits
      cases hawaits
    · rw [hchanged] at hatt
      exact (h.attentive j t' c hj hlisten hatt).set (State.works_of_some hi) hworks hpar hroom
        howes

/-- A step of `wait_for` outside its loop. It leaves the account. -/
theorem listened_waitFor {s : State} (h : Listened s) {i : Nat} {t : Sync.Task Work} {w' : Work}
    {listen : Listen} {tasks : List (Sync.Task Work)} (hi : s.tasks[i]? = some t)
    (hs : Sync.Task.workAt s.tasks i w' listen = some tasks)
    (hl : listen = t.listen ∨ listen = .create ∨ listen = .left)
    (hidle : (∀ c, w' ≠ .listening c ∧ w' ≠ .loadInFlight c) → listen = .left)
    (hawaits : listen.awaits = none) (howes : t.work.owes = false) :
    Listened { s with tasks } := by
  refine listened_work h hi hs rfl hl hidle hawaits rfl
    (.inr ⟨Int.le_refl _, Nat.le_refl _⟩) ?_
  intro hw
  rw [howes] at hw
  cases hw

/-- A waker is called. -/
theorem listened_wake {s : State} (h : Listened s) {i : Nat} {tasks : List (Sync.Task Work)}
    (hw : Sync.Task.wakeAt s.tasks i = some tasks) : Listened { s with tasks } := by
  have hworks : State.works { s with tasks } = s.works := Sync.Task.wakeAt_works hw
  refine ⟨Sync.Task.tended_wakeAt h.tended hw, ?_, ?_, ?_⟩
  · intro j t' hj hne
    obtain ⟨t, ht, hwork, hleft, -⟩ := Sync.Task.attentive_wakeAt (s := s.changed) hw hj
    exact hleft (h.idle j t ht (by rw [← hwork]; exact hne))
  · intro j t' c hj hload
    obtain ⟨t, w, ht, hwork, hl⟩ := Sync.Task.wakeAt_task hw hj
    rw [hl, (Sync.Task.wake_future _ _).2]
    exact h.checking j t c ht (by rw [← hwork]; exact hload)
  · intro j t' c hj hlisten hatt
    obtain ⟨t, ht, hwork, -, -, hatt'⟩ := Sync.Task.attentive_wakeAt (s := s.changed) hw hj
    unfold State.Refused
    rw [hworks]
    exact h.attentive j t c ht (by rw [← hwork]; exact hlisten) (hatt' hatt)

/-- A step of a task on the account keeps the loops. -/
theorem listened_stepWork [Target] {s s' : State} (hc : Counted s) (h : Listened s) {i : Nat}
    {t : Sync.Task Work} {e : Event} {w' : Work} (hi : s.tasks[i]? = some t)
    (hstep : stepWork s.account t.work e = some (s'.account, w'))
    (hs : Sync.Task.workAt s.tasks i w' t.listen = some s'.tasks)
    (hchanged : s'.changed = s.changed) : Listened s' := by
  have hfits := hc.fits _ (List.mem_of_getElem? (State.works_of_some hi))
  obtain ⟨hpar, hroom, howes⟩ := stepWork_owes hfits hstep
  -- `wait_for` has no such step.
  have hleft : t.listen = .left := by
    refine h.idle i t hi fun c => ⟨?_, ?_⟩ <;> intro heq <;> rw [heq] at hstep <;>
      cases e <;> cases hstep
  refine listened_work h hi hs hchanged (.inl rfl) (fun _ => hleft) ?_ hpar hroom howes
  rw [hleft]
  rfl

/-- A broadcast keeps the loops: afterwards nobody is attentive. -/
theorem listened_broadcast [Target] {s : State} (h : Listened s) {i : Nat} {t : Sync.Task Work}
    {w' : Work} {changed : Sync.NotifySystem.State} {tasks : List (Sync.Task Work)}
    (hi : s.tasks[i]? = some t) (hnext : afterNotify t.work = some w')
    (hs : Sync.Task.broadcastAt s.changed s.tasks i w' = some (changed, tasks)) :
    Listened { s with changed, tasks } := by
  have hleft : t.listen = .left := by
    refine h.idle i t hi fun c => ⟨?_, ?_⟩ <;> intro heq <;> rw [heq] at hnext <;> cases hnext
  refine ⟨Sync.Task.tended_broadcastAt h.tended hs, ?_, ?_, ?_⟩
  · intro j t' hj hne
    rcases Sync.Task.broadcastAt_task hs hj with ⟨t₀, rfl, ht₀, -, hl⟩ | ⟨-, hj⟩
    · rw [hi] at ht₀
      cases ht₀
      rw [hl, hleft]
    · exact h.idle j t' hj hne
  · intro j t' c hj hload
    rcases Sync.Task.broadcastAt_task hs hj with ⟨t₀, rfl, ht₀, -, hl⟩ | ⟨-, hj⟩
    · rw [hi] at ht₀
      cases ht₀
      rw [hl, hleft]
      rfl
    · exact h.checking j t' c hj hload
  · intro j t' c _ _ hatt
    exact absurd hatt (Sync.Task.not_attentive_broadcastAt h.tended hs t'.listen)

/-- A new call keeps the loops. -/
theorem listened_spawn {s : State} (h : Listened s) {w : Work}
    (hw : ∀ c, w ≠ .listening c ∧ w ≠ .loadInFlight c) : Listened (spawn s w) := by
  refine ⟨Sync.Task.tended_push h.tended w, ?_, ?_, ?_⟩
  · intro j t' hj hne
    rcases getElem?_append_singleton hj with hj | ⟨-, rfl⟩
    · exact h.idle j t' hj hne
    · rfl
  · intro j t' c hj hload
    rcases getElem?_append_singleton hj with hj | ⟨-, rfl⟩
    · exact h.checking j t' c hj hload
    · rfl
  · intro j t' c hj hlisten hatt
    rcases getElem?_append_singleton hj with hj | ⟨-, rfl⟩
    · rcases h.attentive j t' c hj hlisten hatt with hr | hr | ⟨x, hx, hxo⟩
      · exact .inl hr
      · exact .inr (.inl hr)
      · refine .inr (.inr ⟨x, ?_, hxo⟩)
        rw [works_spawn]
        exact List.mem_append_left _ hx
    · exact absurd hlisten (hw c).1

/-- Every step keeps the loops. -/
theorem listened_step [Target] {s s' : State} {act : Action} (hc : Counted s) (h : Listened s)
    (hs : step s act = some s') : Listened s' := by
  cases act with
  | reserve credits | replenish credits =>
    cases hs
    exact listened_spawn h (by simp)
  | waitFor credits =>
    simp only [step] at hs
    split at hs <;> cases hs
    exact listened_spawn h (by simp)
  | work i e =>
    simp only [step] at hs
    split at hs
    · rename_i t hi
      split at hs
      · rename_i account w' hstep
        obtain ⟨tasks, hw, rfl⟩ := Option.map_eq_some_iff.mp hs
        exact listened_stepWork hc h hi hstep hw rfl
      · cases hs
    · cases hs
  | notifyWaiters i =>
    simp only [step] at hs
    split at hs
    · rename_i t hi
      split at hs
      · rename_i w' hnext
        obtain ⟨⟨changed, tasks⟩, hcast, rfl⟩ := Option.map_eq_some_iff.mp hs
        exact listened_broadcast h hi hnext hcast
      · cases hs
    · cases hs
  | start i =>
    simp only [step] at hs
    split at hs
    · rename_i credits listen wakes hi
      split at hs
      · split at hs
        · obtain ⟨tasks, hw, rfl⟩ := Option.map_eq_some_iff.mp hs
          exact listened_waitFor h hi hw (.inr (.inr rfl)) (fun _ => rfl) rfl rfl
        · obtain ⟨tasks, hw, rfl⟩ := Option.map_eq_some_iff.mp hs
          refine listened_waitFor h hi hw (.inr (.inl rfl)) ?_ rfl rfl
          intro hne
          exact absurd rfl (hne _).1
      · obtain ⟨tasks, hw, rfl⟩ := Option.map_eq_some_iff.mp hs
        exact listened_waitFor h hi hw (.inr (.inr rfl)) (fun _ => rfl) rfl rfl
    · cases hs
  | loadBalance i =>
    simp only [step] at hs
    split at hs
    · rename_i credits future wakes hi
      split at hs
      · obtain ⟨tasks, hw, rfl⟩ := Option.map_eq_some_iff.mp hs
        refine listened_waitFor h hi hw (.inl rfl) ?_ rfl rfl
        intro hne
        exact absurd rfl (hne _).2
      · rename_i hlow
        obtain ⟨⟨changed, tasks⟩, hl, rfl⟩ := Option.map_eq_some_iff.mp hs
        refine listened_listen h hl fun t ht => ?_
        rw [hi] at ht
        cases ht
        exact ⟨credits, rfl, fun _ => .inl (Int.not_le.mp hlow)⟩
    · cases hs
  | loadInFlight i =>
    simp only [step] at hs
    split at hs
    · rename_i credits listen wakes hi
      obtain ⟨tasks₁, hw, hs⟩ := Option.bind_eq_some_iff.mp hs
      obtain ⟨⟨changed, tasks⟩, hl, rfl⟩ := Option.map_eq_some_iff.mp hs
      -- The task goes back into its loop, and the loop decides by the load.
      have h₁ : Listened { s with tasks := tasks₁ } := by
        refine listened_waitFor h hi hw (.inl rfl) ?_ (h.checking i _ credits hi rfl) rfl
        intro hne
        exact absurd rfl (hne _).1
      refine listened_listen h₁ hl fun t ht => ?_
      rcases Sync.Task.workAt_task hw ht with ⟨-, rfl⟩ | ⟨hne, -⟩
      · refine ⟨credits, rfl, fun he => .inr (.inl ?_)⟩
        by_contra hlt
        have hlt : s.account.inFlight < s.account.parallelism := Nat.not_le.mp hlt
        simp [hlt] at he
      · exact absurd rfl hne
    · cases hs
  | listen i e =>
    have hcase : (∃ c t, s.tasks[i]? = some t ∧ t.work = .listening c) ∧ e ≠ .pass ∧
        ∃ changed tasks, Sync.Task.listenAt s.changed s.tasks i e = some (changed, tasks) ∧
          s' = { s with changed, tasks } := by
      simp only [step] at hs
      split at hs
      · rename_i c listen wakes hi
        obtain ⟨⟨changed, tasks⟩, hl, rfl⟩ := Option.map_eq_some_iff.mp hs
        exact ⟨⟨c, _, hi, rfl⟩, by simp, changed, tasks, hl, rfl⟩
      · rename_i c listen wakes waker hi
        obtain ⟨⟨changed, tasks⟩, hl, rfl⟩ := Option.map_eq_some_iff.mp hs
        exact ⟨⟨c, _, hi, rfl⟩, by simp, changed, tasks, hl, rfl⟩
      · rename_i c listen wakes hi
        obtain ⟨⟨changed, tasks⟩, hl, rfl⟩ := Option.map_eq_some_iff.mp hs
        exact ⟨⟨c, _, hi, rfl⟩, by simp, changed, tasks, hl, rfl⟩
      · cases hs
    obtain ⟨⟨c, t, hi, hlisten⟩, hne, changed, tasks, hl, rfl⟩ := hcase
    refine listened_listen h hl fun t' ht' => ?_
    rw [hi] at ht'
    cases ht'
    exact ⟨c, hlisten, fun he => absurd he hne⟩
  | wake i =>
    simp only [step] at hs
    obtain ⟨tasks, hw, rfl⟩ := Option.map_eq_some_iff.mp hs
    exact listened_wake h hw

/-- A new account has no loops. -/
theorem listened_init [Target] (s : State) (h : system.init s) : Listened s := by
  obtain ⟨capacity, parallelism, -, -, -, -, rfl⟩ := h
  obtain ⟨a, ha⟩ := Sync.NotifySystem.inv_init (new capacity parallelism).changed rfl
  refine ⟨⟨⟨a, ha⟩, by simp [new], ?_, by simp [new]⟩, by simp [new], by simp [new], by simp [new]⟩
  intro i j f hi
  simp [new, attr] at hi

/-- `wait_for` misses no refund. In every reachable state where a call of `wait_for` is suspended
and its waker was not called since, the balance is below the request, or the count is at the
parallelism, or some task has raised the balance or lowered the count and is still before its
`notify_waiters`, or inside one that is about to call this waker. -/
theorem wait_for_misses_nothing [Target] {s : State} (h : system.Reachable s) :
    ∀ (i : Nat) t credits f waker, s.tasks[i]? = some t → t.work = .listening credits →
      t.listen = .suspended f waker false →
      s.account.balance < credits ∨ s.account.parallelism ≤ s.account.inFlight ∨
        ∃ u ∈ s.tasks, u.work.owes = true ∨ waker ∈ u.wakes := by
  have hinv : Counted s ∧ Listened s := by
    refine h.invariant (P := fun s => Counted s ∧ Listened s) ?_ ?_
    · exact fun s h0 => ⟨counted_init s h0, listened_init s h0⟩
    · exact fun s act s' hi hs => ⟨counted_step hi.1 hs, listened_step hi.1 hi.2 hs⟩
  intro i t credits f waker hi hwork hl
  rcases hinv.2.tended.suspended_cases hi hl with hatt | ⟨u, hu, hw⟩
  · rcases hinv.2.attentive i t credits hi hwork hatt with hr | hr | ⟨w, hw, howes⟩
    · exact .inl hr
    · exact .inr (.inl hr)
    · obtain ⟨u, hu, rfl⟩ := List.mem_map.mp hw
      exact .inr (.inr ⟨u, hu, .inl howes⟩)
  · exact .inr (.inr ⟨u, hu, .inr hw⟩)

/-- A call of `wait_for(60)` suspends while 50 of 100 credits are reserved. The reservation is
dropped and its credit is back, and `settle` has still to give the place back and to broadcast. -/
theorem wait_for_misses_nothing_refund :
    ∃ s, (@system target64).Reachable s ∧ s.account.balance = 100 ∧
      ∃ u ∈ s.tasks, u.work.owes = true ∨ 7 ∈ u.wakes := by
  obtain ⟨s, hr, hp⟩ := Lts.Reachable.exists_of_run (M := @system target64) (s := new 100 2)
    [.reserve 50, .work 0 .advance, .work 0 .advance, .work 0 (.cas false), .work 0 .advance,
      .work 0 (.cas false), .waitFor 60, .start 1, .listen 1 .advance, .listen 1 .advance,
      .listen 1 .advance, .listen 1 .advance, .listen 1 .advance, .loadBalance 1,
      .listen 1 (.poll 7), .listen 1 .advance, .work 0 .drop, .work 0 .advance, .work 0 .advance,
      .work 0 (.cas false)]
    (fun s => s.account.balance = 100 ∧ s.account.parallelism = 2 ∧ s.account.inFlight = 1 ∧
      s.tasks[1]? = some ⟨.listening 60, .suspended 0 7 false, []⟩) ⟨100, 2, by decide⟩ (by decide)
  simp only [decide_eq_true_eq] at hp
  obtain ⟨hbalance, hpar, hcount, htask⟩ := hp
  refine ⟨s, hr, hbalance, ?_⟩
  rcases @wait_for_misses_nothing target64 s hr 1 _ 60 0 7 htask rfl rfl with hlow | hfull | howes
  · omega
  · omega
  · exact howes

end Nagoya.Credits
