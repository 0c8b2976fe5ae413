import Nagoya.Lib.Pool
import Nagoya.Proofs.Dispatch.Job

/-!
# `Nagoya.Proofs.Dispatch.System`: the invariant of the account, the owners and the jobs

The count of the account is the places that the jobs and the other uses hold (`Counted`), so no
`fetch_sub` wraps. For each owner, the calls of its jobs are a pool of calls as in
`Nagoya.Proofs.Owner`, and meet the invariant there (`Owned`), so neither `expect` fails. Every
step of the system is in the logs of the job that made it (`Inv.logged`).
-/

set_option autoImplicit false

namespace Nagoya.Dispatch

open Nagoya.Lib
open Nagoya.Credits (CreditAccount Work)

variable {T : Type}

/-! ### The count of the account -/

/-- The places that a job holds. -/
def Job.places (job : Job T) : Nat := job.permit.elim 0 Work.places

/-- The count of the account is the places that the jobs and the others hold. -/
structure Counted [Target] (s : State T) : Prop where
  capacity : 0 < s.account.capacity ∧ s.account.capacity ≤ i64Max
  parallelism : s.account.parallelism ≤ usizeMax
  others : ∀ w ∈ s.others, w.Fits s.account.parallelism
  permits : ∀ job ∈ s.jobs, ∀ w, job.permit = some w → w.Fits s.account.parallelism
  count : s.account.inFlight = tally Work.places s.others + tally Job.places s.jobs
  cap : s.account.inFlight ≤ s.account.parallelism

/-- The permits of a pool of jobs of which one is replaced. -/
theorem permits_set {p : Nat} {jobs : List (Job T)} {j : Nat} {job' : Job T}
    (h : ∀ job ∈ jobs, ∀ w, job.permit = some w → w.Fits p)
    (hjob : ∀ w, job'.permit = some w → w.Fits p) :
    ∀ job ∈ jobs.set j job', ∀ w, job.permit = some w → w.Fits p := by
  intro job hmem
  rcases List.mem_or_eq_of_mem_set hmem with hmem | rfl
  · exact h job hmem
  · exact hjob

/-- A step of a job that keeps the places of its permit. -/
theorem Counted.keep [Target] {s : State T} (h : Counted s) {j : Nat} {job job' : Job T}
    (hj : s.jobs[j]? = some job) (owners : List (Owner.State T))
    (hfits : ∀ w, job'.permit = some w → w.Fits s.account.parallelism)
    (hplaces : job'.places = job.places) :
    Counted { s with owners, jobs := s.jobs.set j job' } := by
  refine ⟨h.capacity, h.parallelism, h.others, permits_set h.permits hfits, ?_, h.cap⟩
  show s.account.inFlight = _ + tally Job.places (s.jobs.set j job')
  rw [tally_set_of_eq Job.places hj hplaces]
  exact h.count

/-- A step of a job keeps the count. -/
theorem Counted.job [Target] {s : State T} (h : Counted s) {j : Nat} {job job' : Job T}
    {a' : CreditAccount} (hj : s.jobs[j]? = some job) (owners : List (Owner.State T))
    (hs : PermitStep s.account job a' job') :
    Counted { s with account := a', owners, jobs := s.jobs.set j job' } := by
  have hmem := List.mem_of_getElem? hj
  cases hs with
  | same account permit log =>
    cases account
    refine h.keep hj owners ?_ ?_
    · rw [permit]
      exact h.permits job hmem
    · unfold Job.places
      rw [permit]
  | ask account before after log =>
    -- A request that has just begun has no place.
    cases account
    refine h.keep hj owners ?_ ?_
    · intro w hw
      rw [after] at hw
      cases hw
      exact trivial
    · unfold Job.places
      rw [before, after]
      rfl
  | notify account before after step log =>
    cases account
    -- A broadcast is not booked.
    have hsame := Credits.afterNotify_same _ (h.permits job hmem _ before) step
    refine h.keep hj owners ?_ ?_
    · intro w hw
      rw [after] at hw
      cases hw
      exact hsame.fits (h.permits job hmem _ before)
    · unfold Job.places
      rw [before, after]
      show Work.places _ = Work.places _
      unfold Work.places
      rw [hsame.unsettled, hsame.holding]
  | @work w w' e before after step log =>
    have hplaces : job.places = w.places := by
      unfold Job.places
      rw [before]
      rfl
    have hplaces' : job'.places = w'.places := by
      unfold Job.places
      rw [after]
      rfl
    have hle : w.places ≤ s.account.inFlight := by
      have := le_tally Job.places hj
      rw [h.count, ← hplaces]
      omega
    -- The permit moves the count by what its places change, as any reservation does.
    have hm := Credits.stepWork_moved (h.permits job hmem w before) h.cap h.parallelism hle step
    have ht := tally_set Job.places hj job'
    have hcount := hm.count
    refine ⟨hm.capacity ▸ h.capacity, hm.parallelism ▸ h.parallelism, hm.parallelism ▸ h.others,
      ?_, ?_, hm.parallelism ▸ hm.cap⟩
    · show ∀ job ∈ s.jobs.set j job', ∀ w, job.permit = some w → w.Fits a'.parallelism
      rw [hm.parallelism]
      refine permits_set h.permits fun x hx => ?_
      rw [after] at hx
      cases hx
      exact hm.fits
    · show a'.inFlight = tally Work.places s.others + tally Job.places (s.jobs.set j job')
      have := h.count
      rw [hplaces, hplaces'] at ht
      omega

/-- A call that begins keeps the count. -/
theorem Counted.begin [Target] {s : State T} (h : Counted s) (kind : Kind T) (credits : UInt64)
    (callback : Nat) :
    Counted { s with jobs := s.jobs ++ [.new kind credits callback] } := by
  refine ⟨h.capacity, h.parallelism, h.others, ?_, ?_, h.cap⟩
  · intro job hmem w hw
    rcases List.mem_append.mp hmem with hmem | hmem
    · exact h.permits job hmem w hw
    · rw [List.mem_singleton.mp hmem] at hw
      cases hw
  · rw [tally_append]
    exact h.count

/-- Another use that begins keeps the count. -/
theorem Counted.beginOther [Target] {s : State T} (h : Counted s) {w : Work}
    (hfits : w.Fits s.account.parallelism) (hplaces : w.places = 0) :
    Counted { s with others := s.others ++ [w] } := by
  refine ⟨h.capacity, h.parallelism, ?_, h.permits, ?_, h.cap⟩
  · intro x hmem
    rcases List.mem_append.mp hmem with hmem | hmem
    · exact h.others x hmem
    · rw [List.mem_singleton.mp hmem]
      exact hfits
  · show s.account.inFlight = tally Work.places (s.others ++ [w]) + _
    rw [tally_append, tally_cons, hplaces]
    exact h.count

/-- Every step keeps the count. -/
theorem counted_step [Target] {s s' : State T} {act : Action T} (h : Counted s)
    (hs : step s act = some s') : Counted s' := by
  cases act with
  | newOwner value =>
    cases hs
    exact ⟨h.capacity, h.parallelism, h.others, h.permits, h.count, h.cap⟩
  | reserve credits =>
    cases hs
    exact h.beginOther trivial rfl
  | replenish credits =>
    cases hs
    exact h.beginOther trivial rfl
  | other i event =>
    simp only [step] at hs
    split at hs
    · cases hs
    · rename_i w hi
      obtain ⟨⟨a', w'⟩, hstep, heq⟩ := Option.map_eq_some_iff.mp hs
      cases heq
      -- The place of this task is one of those counted.
      have hle : w.places ≤ s.account.inFlight := by
        have := le_tally Work.places hi
        rw [h.count]
        omega
      have hm := Credits.stepWork_moved (h.others w (List.mem_of_getElem? hi)) h.cap
        h.parallelism hle hstep
      have ht := tally_set Work.places hi w'
      have hcount := hm.count
      refine ⟨hm.capacity ▸ h.capacity, hm.parallelism ▸ h.parallelism, ?_,
        hm.parallelism ▸ h.permits, ?_, hm.parallelism ▸ hm.cap⟩
      · show ∀ w ∈ s.others.set i w', w.Fits a'.parallelism
        rw [hm.parallelism]
        exact Credits.fits_set h.others hm.fits
      · show a'.inFlight = tally Work.places (s.others.set i w') + tally Job.places s.jobs
        have := h.count
        omega
  | otherNotify i =>
    simp only [step] at hs
    split at hs
    · cases hs
    · rename_i w hi
      obtain ⟨w', hstep, heq⟩ := Option.map_eq_some_iff.mp hs
      cases heq
      have hfits := h.others w (List.mem_of_getElem? hi)
      have hsame := Credits.afterNotify_same _ hfits hstep
      refine ⟨h.capacity, h.parallelism, Credits.fits_set h.others (hsame.fits hfits), h.permits,
        ?_, h.cap⟩
      show s.account.inFlight = tally Work.places (s.others.set i w') + _
      rw [tally_set_of_eq Work.places hi]
      · exact h.count
      · unfold Work.places
        rw [hsame.unsettled, hsame.holding]
  | dispatchTo owner worker workers credits callback =>
    simp only [step] at hs
    split at hs
    · cases hs
      exact h.begin _ credits callback
    · cases hs
  | dispatch credits callback =>
    cases hs
    exact h.begin _ credits callback
  | job j event =>
    simp only [step] at hs
    split at hs
    · cases hs
    · rename_i job hj
      obtain ⟨⟨a', owners', job'⟩, hstep, heq⟩ := Option.map_eq_some_iff.mp hs
      cases heq
      exact h.job hj owners' (stepJob_spec hstep).1

/-! ### The owners -/

/-- The call of a job on the owner `o`. A job of another owner is a call that ended there. -/
def callFor (o : Nat) (job : Job T) : Owner.Call T :=
  match job.kind with
  | .turn o' call => if o' = o then call else .ended .returned
  | .helper _ => .ended .returned

/-- The calls of each owner meet its invariant. -/
structure Owned (s : State T) : Prop where
  range : ∀ job ∈ s.jobs, ∀ o call, job.kind = .turn o call → o < s.owners.length
  calls : ∀ o st, s.owners[o]? = some st → Owner.Inv ⟨st, s.jobs.map (callFor o)⟩

/-- A job of the owner. -/
theorem callFor_self {o : Nat} {job : Job T} {call : Owner.Call T}
    (h : job.kind = .turn o call) : callFor o job = call := by
  unfold callFor
  rw [h]
  exact if_pos rfl

/-- A job of another owner. -/
theorem callFor_other {o o' : Nat} {job : Job T} {call : Owner.Call T}
    (h : job.kind = .turn o' call) (hne : o' ≠ o) : callFor o job = .ended .returned := by
  unfold callFor
  rw [h]
  exact if_neg hne

/-- A helper has no owner. -/
theorem callFor_helper {o : Nat} {job : Job T} {call : Helper} (h : job.kind = .helper call) :
    callFor o job = .ended .returned := by
  unfold callFor
  rw [h]

/-- The call of a job fits its owner. -/
theorem Owned.fits {s : State T} (h : Owned s) {job : Job T} (hmem : job ∈ s.jobs) :
    job.kind.Fits s.owners := by
  cases hkind : job.kind with
  | helper call => exact trivial
  | turn o call =>
    intro st ho
    have hfit := (h.calls o st ho).fits (callFor o job) (List.mem_map_of_mem hmem)
    rw [callFor_self hkind] at hfit
    exact hfit

/-- A job that stays the same call of its owner changes nothing. -/
theorem map_callFor_set {jobs : List (Job T)} {j : Nat} {job job' : Job T} {o : Nat}
    (hj : jobs[j]? = some job) (h : callFor o job' = callFor o job) :
    (jobs.set j job').map (callFor o) = jobs.map (callFor o) := by
  rw [List.map_set, h]
  refine set_eq_self ?_
  rw [List.getElem?_map, hj]
  rfl

/-- The owners that the jobs of a replaced pool name. -/
theorem range_set {n : Nat} {jobs : List (Job T)} {j : Nat} {job job' : Job T}
    (h : ∀ job ∈ jobs, ∀ o call, job.kind = .turn o call → o < n) (hmem : job ∈ jobs)
    (hsame : ∀ o call', job'.kind = .turn o call' → ∃ call, job.kind = .turn o call) :
    ∀ job ∈ jobs.set j job', ∀ o call, job.kind = .turn o call → o < n := by
  intro x hx o call hkind
  rcases List.mem_or_eq_of_mem_set hx with hx | rfl
  · exact h x hx o call hkind
  · obtain ⟨call, hkind⟩ := hsame o call hkind
    exact h job hmem o call hkind

/-- A step of a job keeps the invariant of every owner. -/
theorem Owned.job {s : State T} (h : Owned s) {j : Nat} {job job' : Job T}
    {owners' : List (Owner.State T)} (hj : s.jobs[j]? = some job) (account : CreditAccount)
    (hs : OwnerStep s.owners job owners' job') :
    Owned { s with account, owners := owners', jobs := s.jobs.set j job' } := by
  have hmem := List.mem_of_getElem? hj
  cases hs with
  | same owners kind log =>
    cases owners
    refine ⟨range_set h.range hmem fun o call hk => ⟨call, kind ▸ hk⟩, fun o st ho => ?_⟩
    -- To every owner the call is what it was.
    have hcall : callFor o job' = callFor o job := by
      unfold callFor
      rw [kind]
    show Owner.Inv ⟨st, (s.jobs.set j job').map (callFor o)⟩
    rw [map_callFor_set hj hcall]
    exact h.calls o st ho
  | helper before after owners log =>
    cases owners
    refine ⟨range_set h.range hmem fun o call hk => ?_, fun o st ho => ?_⟩
    · rw [after] at hk
      cases hk
    · -- A helper is not a call of any owner.
      have hcall : callFor o job' = callFor o job :=
        (callFor_helper after).trans (callFor_helper before).symm
      show Owner.Inv ⟨st, (s.jobs.set j job').map (callFor o)⟩
      rw [map_callFor_set hj hcall]
      exact h.calls o st ho
  | @turn o st st' call call' e before after owner step owners log =>
    cases owners
    refine ⟨?_, fun o₁ st₁ ho₁ => ?_⟩
    · show ∀ x ∈ s.jobs.set j job', ∀ o₁ c, x.kind = .turn o₁ c →
        o₁ < (s.owners.set o st').length
      rw [List.length_set]
      refine range_set h.range hmem fun o₁ c hk => ?_
      rw [after] at hk
      cases hk
      exact ⟨call, before⟩
    · change (s.owners.set o st')[o₁]? = some st₁ at ho₁
      rw [getElem?_set_of_some owner] at ho₁
      show Owner.Inv ⟨st₁, (s.jobs.set j job').map (callFor o₁)⟩
      -- The calls of another owner are as they were, and so is its slot.
      by_cases ho : o₁ = o
      · -- The owner of the job makes a step of its own.
        subst ho
        rw [if_pos rfl] at ho₁
        cases ho₁
        have hinv := h.calls o₁ st owner
        have hi : (s.jobs.map (callFor o₁))[j]? = some call := by
          rw [List.getElem?_map, hj]
          exact congrArg some (callFor_self before)
        have hc := List.mem_of_getElem? hi
        rw [List.map_set, callFor_self after]
        exact Owner.inv_moved hinv hi
          (Owner.stepCall_spec (hinv.fits _ hc) (hinv.sound _ hc) hinv.slot (hinv.closed hi) step)
      · rw [if_neg ho] at ho₁
        have hcall : callFor o₁ job' = callFor o₁ job :=
          (callFor_other after (Ne.symm ho)).trans (callFor_other before (Ne.symm ho)).symm
        rw [map_callFor_set hj hcall]
        exact h.calls o₁ st₁ ho₁

/-- A call that begins has not come to the gate. -/
theorem Owned.begin {s : State T} (h : Owned s) (kind : Kind T) (credits : UInt64)
    (callback : Nat) (hrange : ∀ o call, kind = .turn o call → o < s.owners.length)
    (hfirst : ∀ o call, kind = .turn o call →
      ∃ worker workers, call = .checkWorker worker workers) :
    Owned { s with jobs := s.jobs ++ [.new kind credits callback] } := by
  refine ⟨?_, fun o st ho => ?_⟩
  · intro job hmem o call hkind
    rcases List.mem_append.mp hmem with hmem | hmem
    · exact h.range job hmem o call hkind
    · rw [List.mem_singleton.mp hmem] at hkind
      exact hrange o call hkind
  · -- To its owner the new call is at its first check, and to the others it is over.
    have hcall : (callFor o (.new kind credits callback)).admitted = false ∧
        Owner.Fits st (callFor o (.new kind credits callback)) ∧
        (callFor o (.new kind credits callback)).Sound := by
      cases kind with
      | helper call =>
        exact ⟨rfl, trivial, by simp [callFor, Job.new, Owner.Call.Sound, Owner.Call.exit]⟩
      | turn o' call =>
        obtain ⟨worker, workers, rfl⟩ := hfirst o' call rfl
        unfold callFor Job.new
        by_cases ho' : o' = o <;>
          simp [ho', Owner.Call.admitted, Owner.Fits, Owner.Call.Sound, Owner.Call.exit]
    obtain ⟨hadmitted, hfits, hsound⟩ := hcall
    have hinv := h.calls o st ho
    show Owner.Inv ⟨st, (s.jobs ++ [_]).map (callFor o)⟩
    rw [List.map_append]
    refine ⟨?_, ?_, ?_, hinv.slot⟩
    · rw [tally_append]
      simp only [List.map_cons, List.map_nil, tally_cons, tally_nil, hadmitted]
      exact hinv.gate
    · intro c hc
      rcases List.mem_append.mp hc with hc | hc
      · exact hinv.fits c hc
      · rw [List.mem_singleton.mp hc]
        exact hfits
    · intro c hc
      rcases List.mem_append.mp hc with hc | hc
      · exact hinv.sound c hc
      · rw [List.mem_singleton.mp hc]
        exact hsound

/-- A new owner has no calls. -/
theorem Owned.newOwner {s : State T} (h : Owned s) (value : T) :
    Owned { s with owners := s.owners ++ [{ admitted := false, value := some value }] } := by
  have hlength (new : Owner.State T) : (s.owners ++ [new]).length = s.owners.length + 1 :=
    List.length_append
  refine ⟨fun job hmem o call hkind => ?_, fun o st ho => ?_⟩
  · have := h.range job hmem o call hkind
    show o < (s.owners ++ [_]).length
    rw [hlength]
    omega
  · rcases getElem?_append_singleton ho with ho | ⟨rfl, rfl⟩
    · exact h.calls o st ho
    · -- No job names an owner that is not there yet.
      have hended : ∀ job ∈ s.jobs, callFor s.owners.length job = .ended .returned := by
        intro job hmem
        cases hkind : job.kind with
        | helper call => exact callFor_helper hkind
        | turn o call => exact callFor_other hkind (Nat.ne_of_lt (h.range job hmem o call hkind))
      have hcalls : ∀ c ∈ s.jobs.map (callFor s.owners.length), c = .ended .returned := by
        intro c hc
        obtain ⟨job, hmem, rfl⟩ := List.mem_map.mp hc
        exact hended job hmem
      refine ⟨?_, ?_, ?_, fun _ => rfl⟩
      · refine tally_eq_zero fun c hc => ?_
        rw [hcalls c hc]
        rfl
      · intro c hc
        rw [hcalls c hc]
        exact trivial
      · intro c hc
        rw [hcalls c hc]
        simp [Owner.Call.Sound, Owner.Call.exit]

/-! ### The invariant -/

/-- The invariant. -/
structure Inv [Target] (s : State T) : Prop where
  counted : Counted s
  owned : Owned s
  jobs : ∀ job ∈ s.jobs, job.Ok
  clocked : ∀ job ∈ s.jobs, job.Clocked

/-- A new call. -/
theorem Job.ok_new (kind : Kind T) (credits : UInt64) (callback : Nat)
    (h : (∃ o worker workers, kind = .turn o (.checkWorker worker workers)) ∨
      kind = .helper .reserve) : (Job.new kind credits callback).Ok := by
  rcases h with ⟨o, worker, workers, rfl⟩ | rfl
  · exact ⟨⟨rfl, rfl⟩, rfl, rfl, rfl⟩
  · exact ⟨rfl, rfl, rfl, rfl⟩

/-- A call that begins keeps the invariant. -/
theorem Inv.begin [Target] {s : State T} (h : Inv s) {kind : Kind T} (credits : UInt64)
    (callback : Nat)
    (hkind : (∃ o worker workers, kind = .turn o (.checkWorker worker workers) ∧
      o < s.owners.length) ∨ kind = .helper .reserve) :
    Inv { s with jobs := s.jobs ++ [.new kind credits callback] } := by
  refine ⟨h.counted.begin kind credits callback, h.owned.begin kind credits callback ?_ ?_, ?_, ?_⟩
  · rintro o call rfl
    rcases hkind with ⟨_, _, _, heq, hlt⟩ | heq
    · cases heq
      exact hlt
    · cases heq
  · rintro o call rfl
    rcases hkind with ⟨_, worker, workers, heq, -⟩ | heq
    · cases heq
      exact ⟨worker, workers, rfl⟩
    · cases heq
  · intro job hmem
    rcases List.mem_append.mp hmem with hmem | hmem
    · exact h.jobs job hmem
    · rw [List.mem_singleton.mp hmem]
      refine Job.ok_new kind credits callback ?_
      rcases hkind with ⟨o, worker, workers, heq, -⟩ | heq
      · exact .inl ⟨o, worker, workers, heq⟩
      · exact .inr heq
  · intro job hmem
    rcases List.mem_append.mp hmem with hmem | hmem
    · exact h.clocked job hmem
    · rw [List.mem_singleton.mp hmem]
      exact rfl

/-- Every step keeps the invariant. -/
theorem inv_step [Target] {s s' : State T} {act : Action T} (h : Inv s)
    (hs : step s act = some s') : Inv s' := by
  have hcounted := counted_step h.counted hs
  cases act with
  | newOwner value =>
    cases hs
    exact ⟨hcounted, h.owned.newOwner value, h.jobs, h.clocked⟩
  | reserve credits =>
    cases hs
    exact ⟨hcounted, ⟨h.owned.range, h.owned.calls⟩, h.jobs, h.clocked⟩
  | replenish credits =>
    cases hs
    exact ⟨hcounted, ⟨h.owned.range, h.owned.calls⟩, h.jobs, h.clocked⟩
  | other i event =>
    simp only [step] at hs
    split at hs
    · cases hs
    · obtain ⟨⟨a', w'⟩, -, heq⟩ := Option.map_eq_some_iff.mp hs
      cases heq
      exact ⟨hcounted, ⟨h.owned.range, h.owned.calls⟩, h.jobs, h.clocked⟩
  | otherNotify i =>
    simp only [step] at hs
    split at hs
    · cases hs
    · obtain ⟨w', -, heq⟩ := Option.map_eq_some_iff.mp hs
      cases heq
      exact ⟨hcounted, ⟨h.owned.range, h.owned.calls⟩, h.jobs, h.clocked⟩
  | dispatchTo owner worker workers credits callback =>
    simp only [step] at hs
    split at hs
    · rename_i hlt
      cases hs
      exact h.begin credits callback (.inl ⟨owner, worker, workers, rfl, hlt⟩)
    · cases hs
  | dispatch credits callback =>
    cases hs
    exact h.begin credits callback (.inr rfl)
  | job j event =>
    simp only [step] at hs
    split at hs
    · cases hs
    · rename_i job hj
      obtain ⟨⟨a', owners', job'⟩, hstep, heq⟩ := Option.map_eq_some_iff.mp hs
      cases heq
      -- Only this job moves, so what holds of the others still holds.
      have hmem := List.mem_of_getElem? hj
      have howned := h.owned.job hj a' (stepJob_spec hstep).2
      have hwork := h.counted.permits job hmem
      refine ⟨hcounted, howned, ?_, ?_⟩
      · intro x hx
        rcases List.mem_or_eq_of_mem_set hx with hx | rfl
        · exact h.jobs x hx
        · exact (h.jobs job hmem).step (h.owned.fits hmem) hwork hstep
      · intro x hx
        rcases List.mem_or_eq_of_mem_set hx with hx | rfl
        · exact h.clocked x hx
        · exact (h.clocked job hmem).step (h.jobs job hmem) hwork hstep

/-- A new account has neither owners nor jobs. -/
theorem inv_new [Target] {capacity : Int} {parallelism : Nat} (hpos : 0 < capacity)
    (hcap : capacity ≤ i64Max) (h : parallelism ≤ usizeMax) :
    Inv (new capacity parallelism : State T) := by
  refine ⟨?_, ?_, ?_, ?_⟩
  · refine ⟨⟨hpos, hcap⟩, h, ?_, ?_, rfl, Nat.zero_le _⟩
    · intro w hw
      cases hw
    · intro job hmem
      cases hmem
  · refine ⟨?_, ?_⟩
    · intro job hmem
      cases hmem
    · intro o st ho
      cases ho
  · intro job hmem
    cases hmem
  · intro job hmem
    cases hmem

/-- The invariant holds in every reachable state. -/
theorem inv_of_reachable [Target] {s : State T} (h : (system T).Reachable s) : Inv s := by
  refine h.invariant ?_ fun _ _ _ hi hs => inv_step hi hs
  rintro s ⟨capacity, parallelism, hpos, hcap, -, hmax, rfl⟩
  exact inv_new hpos hcap hmax

/-! ### The logs -/

/-- A step of a job keeps what the call was given. -/
theorem stepJob_args [Target] {a a' : CreditAccount} {owners owners' : List (Owner.State T)}
    {job job' : Job T} {e : JobEvent T} (h : stepJob a owners job e = some (a', owners', job')) :
    job'.credits = job.credits ∧ job'.callback = job.callback := by
  have hreject {event : Owner.Event T} {job₁ : Job T}
      (hs : stepKind owners job event = some (owners', job₁)) :
      job₁.reject.credits = job.credits ∧ job₁.reject.callback = job.callback := by
    obtain ⟨-, -, -, -, hcredits, hcallback⟩ := stepKind_spec hs
    unfold Job.reject
    split <;> exact ⟨hcredits, hcallback⟩
  cases stepJob_turn h with
  | call own step => exact hreject step
  | denied phase permit step => exact hreject step
  | granted phase permit step =>
    obtain ⟨-, -, -, -, hcredits, hcallback⟩ := stepKind_spec step
    exact ⟨hcredits, hcallback⟩
  | enter permit work step =>
    obtain ⟨-, -, -, -, hcredits, hcallback⟩ := stepKind_spec step
    exact ⟨hcredits, hcallback⟩
  | ask | permit | notify => exact ⟨rfl, rfl⟩

/-- What a step does to the logs. A step of a job does to the owners and to the account what it
adds to the logs of the job, writes down the times that it reads, and keeps what the call was
given. The other steps touch neither an owner nor a job. -/
def Logged (s : State T) (act : Action T) (s' : State T) : Prop :=
  match act with
  | .job j e => ∃ job job' slot account, s.jobs[j]? = some job ∧ s'.jobs = s.jobs.set j job' ∧
      job'.credits = job.credits ∧ job'.callback = job.callback ∧
      job'.slotLog = job.slotLog ++ slot ∧ job'.accountLog = job.accountLog ++ account ∧
      job'.clock = job.clock ++ e.readings ∧
      s'.owners = slot.foldl SlotEffect.apply s.owners ∧
      s'.account = account.foldl AccountEffect.apply s.account
  | _ => s.owners <+: s'.owners ∧ ∃ calls, s'.jobs = s.jobs ++ calls ∧
      ∀ job ∈ calls, job.slotLog = [] ∧ job.accountLog = [] ∧ job.clock = []

/-- What a step of a job does to its owner is what it writes down. -/
theorem OwnerStep.effects {owners owners' : List (Owner.State T)} {job job' : Job T}
    (h : OwnerStep owners job owners' job') :
    ∃ slot, job'.slotLog = job.slotLog ++ slot ∧
      owners' = slot.foldl SlotEffect.apply owners := by
  cases h with
  | same owners kind log => exact ⟨[], by rw [log, List.append_nil], owners⟩
  | helper before after owners log => exact ⟨[], by rw [log, List.append_nil], owners⟩
  | turn before after owner step owners log =>
    exact ⟨_, log, owners.trans (stepCall_effects owner step)⟩

/-- What a step of a job does to the account is what it writes down. -/
theorem PermitStep.effects [Target] {a a' : CreditAccount} {job job' : Job T}
    (h : PermitStep a job a' job') (hle : job.places ≤ a.inFlight) (hcap : a.inFlight ≤ usizeMax)
    (hcapacity : 0 < a.capacity ∧ a.capacity ≤ i64Max) :
    ∃ account, job'.accountLog = job.accountLog ++ account ∧
      a' = account.foldl AccountEffect.apply a := by
  cases h with
  | same account permit log => exact ⟨[], by rw [log, List.append_nil], account⟩
  | ask account before after log => exact ⟨[], by rw [log, List.append_nil], account⟩
  | notify account before after step log => exact ⟨[], by rw [log, List.append_nil], account⟩
  | work before after step log =>
    unfold Job.places at hle
    rw [before] at hle
    exact ⟨_, log, stepWork_effects hle hcap hcapacity step⟩

/-- Every step is in the logs. -/
theorem Inv.logged [Target] {s s' : State T} {act : Action T} (h : Inv s)
    (hs : step s act = some s') : Logged s act s' := by
  cases act with
  | newOwner value =>
    cases hs
    exact ⟨List.prefix_append _ _, [], (List.append_nil _).symm, List.forall_mem_nil _⟩
  | reserve credits =>
    cases hs
    exact ⟨List.prefix_rfl, [], (List.append_nil _).symm, List.forall_mem_nil _⟩
  | replenish credits =>
    cases hs
    exact ⟨List.prefix_rfl, [], (List.append_nil _).symm, List.forall_mem_nil _⟩
  | other i event =>
    simp only [step] at hs
    split at hs
    · cases hs
    · obtain ⟨⟨a', w'⟩, -, heq⟩ := Option.map_eq_some_iff.mp hs
      cases heq
      exact ⟨List.prefix_rfl, [], (List.append_nil _).symm, List.forall_mem_nil _⟩
  | otherNotify i =>
    simp only [step] at hs
    split at hs
    · cases hs
    · obtain ⟨w', -, heq⟩ := Option.map_eq_some_iff.mp hs
      cases heq
      exact ⟨List.prefix_rfl, [], (List.append_nil _).symm, List.forall_mem_nil _⟩
  | dispatchTo owner worker workers credits callback =>
    simp only [step] at hs
    split at hs
    · cases hs
      refine ⟨List.prefix_rfl, [_], rfl, fun job hmem => ?_⟩
      rw [List.mem_singleton.mp hmem]
      exact ⟨rfl, rfl, rfl⟩
    · cases hs
  | dispatch credits callback =>
    cases hs
    refine ⟨List.prefix_rfl, [_], rfl, fun job hmem => ?_⟩
    rw [List.mem_singleton.mp hmem]
    exact ⟨rfl, rfl, rfl⟩
  | job j event =>
    simp only [step] at hs
    split at hs
    · cases hs
    · rename_i job hj
      obtain ⟨⟨a', owners', job'⟩, hstep, heq⟩ := Option.map_eq_some_iff.mp hs
      cases heq
      obtain ⟨hpermit, howner⟩ := stepJob_spec hstep
      -- The place of this job is one of those counted.
      have hle : job.places ≤ s.account.inFlight := by
        have := le_tally Job.places hj
        rw [h.counted.count]
        omega
      obtain ⟨slot, hslot, howners⟩ := howner.effects
      obtain ⟨account, hlog, haccount⟩ :=
        hpermit.effects hle (h.counted.cap.trans h.counted.parallelism) h.counted.capacity
      obtain ⟨hcredits, hcallback⟩ := stepJob_args hstep
      exact ⟨job, job', slot, account, hj, rfl, hcredits, hcallback, hslot, hlog,
        stepJob_clock hstep, howners, haccount⟩

end Nagoya.Dispatch
