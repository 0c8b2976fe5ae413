import Nagoya.Lib.Pool
import Nagoya.Signal
import Mathlib.Data.List.Nodup

/-!
# `Nagoya.Proofs.Signal`: what a `Signal::new` that fails leaves

A call is one of six (`New`): the number is refused, it is claimed already, the mask call fails,
the kernel has no descriptor, the registration is refused, or the waiter is made. The first four
leave the process as it was, as far as the mask and the claims go: a claim that was taken is
released (`release_acquire`), and a block is undone unless it was there before. The refused
registration does not undo the block, for `disarm` does nothing on Linux.

A bit of `CLAIMED` stays set only as long as a waiter has it (`Claimed.step`). So a call that
failed is never the reason why a later one gets `EBUSY`.
-/

set_option autoImplicit false

namespace Nagoya.Signal

open Nagoya.Lib

/-! ### Bits of `CLAIMED` -/

/-- The bit of `sig` is set. -/
def Process.claims (p : Process) (sig : Int) : Bool := p.claimed.getLsbD sig.toNat

theorem bit_eq (sig : Int) : bit sig = BitVec.twoPow 64 sig.toNat := rfl

/-- The test of `Claim::acquire`. -/
theorem and_bit_ne_zero {claimed : BitVec 64} {sig : Int} (hlt : sig.toNat < 64) :
    claimed &&& bit sig ≠ 0 ↔ claimed.getLsbD sig.toNat = true := by
  rw [bit_eq, BitVec.and_twoPow]
  split
  · rename_i h
    refine iff_of_true (fun hz => ?_) h
    have := congrArg (fun b => b.getLsbD sig.toNat) hz
    simp [hlt] at this
  · rename_i h
    exact iff_of_false (not_not_intro rfl) h

theorem getLsbD_bit (sig : Int) (i : Nat) :
    (bit sig).getLsbD i = (decide (sig.toNat < 64) && decide (sig.toNat = i)) := by
  rw [bit_eq, BitVec.getLsbD_twoPow]

/-- A bit that is set is set once more. -/
theorem or_bit_of_claims {claimed : BitVec 64} {sig : Int}
    (h : claimed.getLsbD sig.toNat = true) : claimed ||| bit sig = claimed := by
  apply BitVec.eq_of_getLsbD_eq
  intro i _
  rw [BitVec.getLsbD_or, getLsbD_bit]
  by_cases hi : sig.toNat = i
  · subst hi
    rw [h, Bool.true_or]
  · simp [hi]

/-- A bit that was clear is set and cleared again. -/
theorem and_not_bit_or {claimed : BitVec 64} {sig : Int}
    (h : claimed.getLsbD sig.toNat = false) : (claimed ||| bit sig) &&& ~~~ bit sig = claimed := by
  apply BitVec.eq_of_getLsbD_eq
  intro i hi
  rw [BitVec.getLsbD_and, BitVec.getLsbD_or, BitVec.getLsbD_not, getLsbD_bit]
  by_cases hsig : sig.toNat = i
  · subst hsig
    simp [h]
  · simp [hsig, hi]

/-- Two numbers that `Claim::acquire` takes have two bits. -/
theorem valid_range {sig : Int} (h : valid sig = true) : 1 ≤ sig ∧ sig < 32 := by
  simp only [valid, decide_eq_true_eq] at h
  exact ⟨h.1, h.2.1⟩

theorem toNat_inj {sig sig' : Int} (h : valid sig = true) (h' : valid sig' = true) :
    sig.toNat = sig'.toNat ↔ sig = sig' := by
  have := valid_range h
  have := valid_range h'
  omega

theorem toNat_lt {sig : Int} (h : valid sig = true) : sig.toNat < 64 := by
  have := valid_range h
  omega

/-! ### The parts of a call -/

theorem acquire_of_invalid {p : Process} {sig : Int} (h : valid sig = false) :
    acquire p sig = (p, .error .einval) := by
  rw [acquire, h]
  rfl

theorem acquire_of_claims {p : Process} {sig : Int} (h : valid sig = true)
    (hc : p.claims sig = true) : acquire p sig = (p, .error .ebusy) := by
  simp only [acquire, h, Bool.not_true, Bool.false_eq_true, if_false]
  rw [if_pos ((and_bit_ne_zero (toNat_lt h)).mpr hc), or_bit_of_claims hc]

theorem acquire_of_free {p : Process} {sig : Int} (h : valid sig = true)
    (hc : p.claims sig = false) :
    acquire p sig = ({ p with claimed := p.claimed ||| bit sig }, .ok ()) := by
  simp only [acquire, h, Bool.not_true, Bool.false_eq_true, if_false]
  rw [if_neg]
  rw [and_bit_ne_zero (toNat_lt h)]
  exact Bool.eq_false_iff.mp hc

/-- A claim that was just taken is released without a trace, whatever else was done in between. -/
theorem release_acquire {p : Process} {sig : Int} (hc : p.claims sig = false)
    (mask : Nat → Int → Bool) (fds : Int → Option Nat) :
    release { p with mask, fds, claimed := p.claimed ||| bit sig } sig = { p with mask, fds } := by
  rw [release, and_not_bit_or hc]

/-- A signal is blocked that was blocked before. -/
theorem setMask_self {p : Process} {thread : Nat} {sig : Int} {blocked : Bool}
    (h : p.mask thread sig = blocked) : setMask p thread sig blocked = p := by
  rw [setMask, ← h, Function.update_eq_self, Function.update_eq_self]

/-- The later of two changes of one bit of a mask counts. -/
theorem setMask_setMask (p : Process) (thread : Nat) (sig : Int) (b c : Bool) :
    setMask (setMask p thread sig b) thread sig c = setMask p thread sig c := by
  simp only [setMask, Function.update_self, Function.update_idem]

/-- The block is undone unless it was there before, or the kernel refuses. -/
theorem restoreMask_block (p : Process) (thread : Nat) (sig : Int) (status : Int) :
    (restoreMask (setMask p thread sig true) thread sig (p.mask thread sig) status).1 =
      if p.mask thread sig = false ∧ status ≠ 0 then setMask p thread sig true else p := by
  cases hm : p.mask thread sig with
  | true => rw [restoreMask, if_pos rfl, if_neg (by simp), setMask_self hm]
  | false =>
    rw [restoreMask, if_neg (by simp), unblockOne]
    by_cases hs : status = 0
    · rw [if_neg (not_not_intro hs), if_neg (by simp [hs]), setMask_setMask, setMask_self hm]
    · rw [if_pos hs, if_pos ⟨rfl, hs⟩]

/-! ### The six ways of a call -/

/-- The claim is taken and the signal is blocked. -/
structure Blocks (p : Process) (kind : Int) (k : Answers) : Prop where
  valid : valid kind = true
  free : p.claims kind = false
  block : k.block = 0

/-- The descriptor that `arm` finds or makes. -/
def Armed (p : Process) (kind : Int) (k : Answers) (fd : Nat) : Prop :=
  p.fds kind = some fd ∨ p.fds kind = none ∧ k.signalfd = .ok fd

/-- How a call ends, and what it leaves. -/
inductive New (p : Process) (thread : Nat) (kind : Int) (k : Answers) :
    Process → Except Error Waiter → Prop where
  | refused (hvalid : valid kind = false) : New p thread kind k p (.error .einval)
  | busy (hvalid : valid kind = true) (hclaims : p.claims kind = true) :
      New p thread kind k p (.error .ebusy)
  | blockFailed (hvalid : valid kind = true) (hfree : p.claims kind = false)
      (hblock : k.block ≠ 0) : New p thread kind k p (.error (.kernel k.block))
  | createFailed (errno : Int) (hb : Blocks p kind k) (hfd : p.fds kind = none)
      (hcreate : k.signalfd = .error errno) :
      New p thread kind k
        (if p.mask thread kind = false ∧ k.unblock ≠ 0 then setMask p thread kind true else p)
        (.error (.kernel errno))
  | registerFailed (fd : Nat) (errno : Int) (hb : Blocks p kind k) (hfd : Armed p kind k fd)
      (hregister : k.register = .error errno) :
      New p thread kind k
        { setMask p thread kind true with fds := Function.update p.fds kind (some fd) }
        (.error (.kernel errno))
  | made (fd : Nat) (hb : Blocks p kind k) (hfd : Armed p kind k fd)
      (hregister : k.register = .ok ()) :
      New p thread kind k
        { setMask p thread kind true with
          fds := Function.update p.fds kind (some fd)
          claimed := p.claimed ||| bit kind
          waiters := p.waiters ++ [⟨kind, fd⟩] }
        (.ok ⟨kind, fd⟩)

/-- `arm` once the signal is blocked, when it has a descriptor. -/
theorem arm_of_armed {p : Process} {thread : Nat} {kind : Int} {k : Answers} {fd : Nat}
    (hblock : k.block = 0) (hfd : Armed p kind k fd) :
    arm p thread kind k =
      ({ setMask p thread kind true with fds := Function.update p.fds kind (some fd) },
        .ok fd) := by
  have hset : (setMask p thread kind true).fds kind = p.fds kind := rfl
  simp only [arm, blockOne, hblock, ne_eq, not_true_eq_false, if_false, hset]
  rcases hfd with hfd | ⟨hnone, hcreate⟩
  · have hself : Function.update p.fds kind (some fd) = p.fds := by
      rw [← hfd, Function.update_eq_self]
    rw [hself, hfd]
    rfl
  · rw [hnone, hcreate]
    rfl

/-- `arm` once the signal is blocked, when the kernel has no descriptor for it. -/
theorem arm_of_createFailed {p : Process} {thread : Nat} {kind : Int} {k : Answers} {errno : Int}
    (hblock : k.block = 0) (hfd : p.fds kind = none) (hcreate : k.signalfd = .error errno) :
    arm p thread kind k =
      (if p.mask thread kind = false ∧ k.unblock ≠ 0 then setMask p thread kind true else p,
        .error (.kernel errno)) := by
  have hset : (setMask p thread kind true).fds kind = p.fds kind := rfl
  simp only [arm, blockOne, hblock, ne_eq, not_true_eq_false, if_false, hset, hfd, hcreate, create]
  rw [restoreMask_block]

section

variable {p p' : Process} {thread : Nat} {kind : Int} {k : Answers} {fd : Nat} {errno : Int}
  (hvalid : valid kind = true) (hfree : p.claims kind = false)

include hvalid hfree

/-- A call whose `arm` fails releases its claim. -/
theorem new_of_arm_error {e : Error}
    (h : arm { p with claimed := p.claimed ||| bit kind } thread kind k = (p', .error e)) :
    new p thread kind k = (release p' kind, .error e) := by
  simp only [new, acquire_of_free hvalid hfree, h]

/-- A call whose registration is refused releases its claim. `disarm` changes nothing. -/
theorem new_of_register_error
    (h : arm { p with claimed := p.claimed ||| bit kind } thread kind k = (p', .ok fd))
    (hregister : k.register = .error errno) :
    new p thread kind k = (release p' kind, .error (.kernel errno)) := by
  simp only [new, acquire_of_free hvalid hfree, h, hregister, disarm]

theorem new_of_register_ok
    (h : arm { p with claimed := p.claimed ||| bit kind } thread kind k = (p', .ok fd))
    (hregister : k.register = .ok ()) :
    new p thread kind k =
      ({ p' with waiters := p'.waiters ++ [⟨kind, fd⟩] }, .ok ⟨kind, fd⟩) := by
  simp only [new, acquire_of_free hvalid hfree, h, hregister, committed]

end

/-- Every call ends in one of the six ways. -/
theorem new_spec (p : Process) (thread : Nat) (kind : Int) (k : Answers) :
    New p thread kind k (new p thread kind k).1 (new p thread kind k).2 := by
  -- The checks of `new` in their order: number, claim, block, descriptor, registration.
  by_cases hvalid : valid kind = true
  · by_cases hclaims : p.claims kind = true
    · rw [new, acquire_of_claims hvalid hclaims]
      exact .busy hvalid hclaims
    · have hfree := Bool.eq_false_iff.mpr hclaims
      -- The process with the claim. Every way from here on but the last gives it back.
      let taken : Process := { p with claimed := p.claimed ||| bit kind }
      by_cases hblock : k.block = 0
      · have hb : Blocks p kind k := ⟨hvalid, hfree, hblock⟩
        by_cases hfd : ∃ fd, Armed p kind k fd
        · obtain ⟨fd, hfd⟩ := hfd
          have harm : arm taken thread kind k = _ := arm_of_armed hblock hfd
          cases hregister : k.register with
          | error errno =>
            rw [new_of_register_error hvalid hfree harm hregister]
            show New p thread kind k (release { p with
              mask := (setMask p thread kind true).mask
              fds := Function.update p.fds kind (some fd)
              claimed := p.claimed ||| bit kind } kind) _
            rw [release_acquire hfree]
            exact .registerFailed fd errno hb hfd hregister
          | ok _ =>
            rw [new_of_register_ok hvalid hfree harm hregister]
            exact .made fd hb hfd hregister
        · obtain ⟨hnone, errno, hcreate⟩ : p.fds kind = none ∧ ∃ e, k.signalfd = .error e := by
            cases hf : p.fds kind with
            | some fd => exact absurd ⟨fd, .inl hf⟩ hfd
            | none =>
              cases hc : k.signalfd with
              | ok fd => exact absurd ⟨fd, .inr ⟨hf, hc⟩⟩ hfd
              | error errno => exact ⟨rfl, errno, rfl⟩
          have harm : arm taken thread kind k = _ := arm_of_createFailed hblock hnone hcreate
          rw [new_of_arm_error hvalid hfree harm]
          have hrelease : release
              (if p.mask thread kind = false ∧ k.unblock ≠ 0 then setMask taken thread kind true
                else taken) kind =
              if p.mask thread kind = false ∧ k.unblock ≠ 0 then setMask p thread kind true
                else p := by
            split
            · exact release_acquire hfree (setMask p thread kind true).mask p.fds
            · exact release_acquire hfree p.mask p.fds
          show New p thread kind k (release _ kind) _
          rw [hrelease]
          exact .createFailed errno hb hnone hcreate
      · have harm : arm taken thread kind k = (taken, .error (.kernel k.block)) := by
          simp only [arm, blockOne, if_pos hblock]
        rw [new_of_arm_error hvalid hfree harm, show release taken kind = p from
          release_acquire hfree p.mask p.fds]
        exact .blockFailed hvalid hfree hblock
  · have hinvalid := Bool.eq_false_iff.mpr hvalid
    rw [new, acquire_of_invalid hinvalid]
    exact .refused hinvalid

/-- `EBUSY` is the answer to a number whose bit is set. -/
theorem busy_iff {p : Process} {thread : Nat} {kind : Int} {k : Answers} :
    (new p thread kind k).2 = .error .ebusy ↔ valid kind = true ∧ p.claims kind = true := by
  constructor
  · intro h
    have hnew := new_spec p thread kind k
    rw [h] at hnew
    generalize (new p thread kind k).1 = p' at hnew
    cases hnew with
    | busy hvalid hclaims => exact ⟨hvalid, hclaims⟩
  · rintro ⟨hvalid, hclaims⟩
    rw [new, acquire_of_claims hvalid hclaims]

/-- A call that fails leaves the claims and the waiters alone, whichever way it fails. -/
theorem claimed_of_failed {p : Process} {thread : Nat} {kind : Int} {k : Answers} {e : Error}
    (h : (new p thread kind k).2 = .error e) :
    (new p thread kind k).1.claimed = p.claimed ∧
      (new p thread kind k).1.waiters = p.waiters := by
  have hnew := new_spec p thread kind k
  rw [h] at hnew
  generalize (new p thread kind k).1 = p' at hnew
  cases hnew with
  | refused | busy | blockFailed | registerFailed => exact ⟨rfl, rfl⟩
  | createFailed => split <;> exact ⟨rfl, rfl⟩

/-! ### Whose the claims are -/

/-- The bit of `kind` is set and no waiter has it. -/
def Stray (p : Process) (kind : Int) : Prop :=
  p.claims kind = true ∧ ∀ w ∈ p.waiters, w.kind ≠ kind

/-- Some waiter has the bit of `kind`. -/
def Process.waits (p : Process) (kind : Int) : Prop := ∃ w ∈ p.waiters, w.kind = kind

/-- A step sets the bit of a number only for a new waiter, and the drop of a waiter clears it. -/
theorem claims_step {p p' : Process} {op : Op} {kind : Int} (hvalid : valid kind = true)
    (hs : step p op = some p') (hclaims : p'.claims kind = true) :
    p'.waits kind ∨ p.claims kind = true ∧ (p.waits kind → p'.waits kind) := by
  cases op with
  | mask thread sig blocked =>
    cases hs
    exact .inr ⟨hclaims, id⟩
  | new thread kind' k =>
    cases hs
    cases he : (new p thread kind' k).2 with
    | error e =>
      -- A call that failed has no claim left.
      obtain ⟨hclaimed, hwaiters⟩ := claimed_of_failed he
      right
      rw [Process.claims, hclaimed] at hclaims
      rw [Process.waits, Process.waits, hwaiters]
      exact ⟨hclaims, id⟩
    | ok w =>
      have hnew := new_spec p thread kind' k
      rw [he] at hnew
      generalize (new p thread kind' k).1 = p' at hnew hclaims
      cases hnew with
      | made fd hb hfd hregister =>
        by_cases heq : kind' = kind
        · subst heq
          exact .inl ⟨_, List.mem_append_right _ (List.mem_singleton_self _), rfl⟩
        · right
          have hne : ¬ kind'.toNat = kind.toNat := fun hz => heq ((toNat_inj hb.valid hvalid).mp hz)
          rw [Process.claims, BitVec.getLsbD_or, getLsbD_bit, decide_eq_false hne,
            Bool.and_false, Bool.or_false] at hclaims
          exact ⟨hclaims, fun ⟨w, hw, hk⟩ => ⟨w, List.mem_append_left _ hw, hk⟩⟩
  | drop i =>
    simp only [step, drop] at hs
    split at hs
    · cases hs
    · rename_i w hi
      cases hs
      simp only [Process.claims, release, disarm, BitVec.getLsbD_and, BitVec.getLsbD_not,
        getLsbD_bit, Bool.and_eq_true, Bool.not_eq_true'] at hclaims
      obtain ⟨hclaims, hlt, hbit⟩ := hclaims
      -- The waiter that goes had another number.
      have hne : w.kind ≠ kind := by
        rintro rfl
        simp [toNat_lt hvalid] at hbit
      exact .inr ⟨hclaims, fun hwaits => exists_mem_eraseIdx hwaits hi hne⟩

/-- After a call that failed, a number is claimed by a waiter, or by nobody since before the
call. -/
theorem waits_of_claims {p p' q : Process} {kind : Int} (hvalid : valid kind = true)
    (hclaimed : p'.claimed = p.claimed) (hwaiters : p'.waiters = p.waiters)
    (hq : (after p').Reachable q) (hclaims : q.claims kind = true) :
    Stray p kind ∨ q.waits kind := by
  revert hclaims
  refine hq.invariant (P := fun q => q.claims kind = true → Stray p kind ∨ q.waits kind) ?_ ?_
  · rintro q rfl hclaims
    rw [Process.claims, hclaimed] at hclaims
    by_cases hwaits : q.waits kind
    · exact .inr hwaits
    · refine .inl ⟨hclaims, fun w hw hk => hwaits ⟨w, ?_, hk⟩⟩
      rwa [hwaiters]
  · intro q op q' ih hs hclaims
    rcases claims_step hvalid hs hclaims with hwaits | ⟨hclaims, hkeep⟩
    · exact .inr hwaits
    · exact (ih hclaims).imp_right hkeep

/-- What holds in every process that started without waiters: each waiter has its bit, and no two
have the same. -/
structure Held (p : Process) : Prop where
  valid : ∀ w ∈ p.waiters, valid w.kind = true
  nodup : (p.waiters.map Waiter.kind).Nodup
  claims : ∀ w ∈ p.waiters, p.claims w.kind = true

/-- A waiter that is made takes a bit that was clear. -/
theorem Held.made {p p' : Process} {kind : Int} {fd : Nat} (h : Held p)
    (hvalid : Signal.valid kind = true) (hfree : p.claims kind = false)
    (hclaimed : p'.claimed = p.claimed ||| bit kind)
    (hwaiters : p'.waiters = p.waiters ++ [⟨kind, fd⟩]) : Held p' := by
  refine ⟨?_, ?_, ?_⟩
  · intro w hw
    rw [hwaiters] at hw
    rcases List.mem_append.mp hw with hw | hw
    · exact h.valid w hw
    · rwa [List.mem_singleton.mp hw]
  · rw [hwaiters, List.map_append, List.nodup_append]
    refine ⟨h.nodup, List.nodup_singleton _, ?_⟩
    rintro _ hk _ hk' rfl
    obtain ⟨w, hw, rfl⟩ := List.mem_map.mp hk
    have hclaims := h.claims w hw
    rw [List.mem_singleton.mp hk', hfree] at hclaims
    cases hclaims
  · intro w hw
    rw [hwaiters] at hw
    rw [Process.claims, hclaimed, BitVec.getLsbD_or, Bool.or_eq_true]
    rcases List.mem_append.mp hw with hw | hw
    · exact .inl (h.claims w hw)
    · rw [List.mem_singleton.mp hw, getLsbD_bit]
      exact .inr (by simpa using toNat_lt hvalid)

/-- The drop of a waiter clears its own bit and no other waiter's. -/
theorem Held.dropped {p : Process} {i : Nat} {w : Waiter} (h : Held p)
    (hi : p.waiters[i]? = some w) :
    Held { p with
      waiters := p.waiters.eraseIdx i, claimed := p.claimed &&& ~~~ bit w.kind } := by
  have hsub : ∀ w' ∈ p.waiters.eraseIdx i, w' ∈ p.waiters := fun w' => List.mem_of_mem_eraseIdx
  refine ⟨fun w' hw' => h.valid w' (hsub w' hw'), ?_, fun w' hw' => ?_⟩
  · exact h.nodup.sublist ((List.eraseIdx_sublist _ _).map _)
  · -- No other waiter has the number of the one that goes.
    have hne : w'.kind ≠ w.kind := by
      intro hk
      obtain ⟨j, hj, hj'⟩ := List.mem_eraseIdx_iff_getElem?.mp hw'
      have hlt : j < (p.waiters.map Waiter.kind).length := by
        rw [List.length_map]
        exact (List.getElem?_eq_some_iff.mp hj').1
      refine hj ((List.getElem?_inj hlt h.nodup).mp ?_)
      rw [List.getElem?_map, List.getElem?_map, hj', hi, Option.map_some, Option.map_some, hk]
    have hbit : ¬ w.kind.toNat = w'.kind.toNat := fun hz =>
      hne ((toNat_inj (h.valid w' (hsub w' hw'))
        (h.valid w (List.mem_of_getElem? hi))).mp hz.symm)
    have hlt := toNat_lt (h.valid w' (hsub w' hw'))
    have hclaims := h.claims w' (hsub w' hw')
    rw [Process.claims] at hclaims ⊢
    rw [BitVec.getLsbD_and, BitVec.getLsbD_not, getLsbD_bit, hclaims, decide_eq_false hbit,
      decide_eq_true hlt]
    simp

/-- The waiters and their bits, in every process. -/
theorem held_of_reachable {p : Process} (h : system.Reachable p) : Held p := by
  refine h.invariant (P := Held) ?_ ?_
  · rintro _ ⟨mask, rfl⟩
    exact ⟨nofun, .nil, nofun⟩
  · intro p op p' hp hs
    cases op with
    | mask thread sig blocked =>
      cases hs
      exact ⟨hp.valid, hp.nodup, hp.claims⟩
    | new thread kind k =>
      cases hs
      have hnew := new_spec p thread kind k
      cases he : (new p thread kind k).2 with
      | error e =>
        obtain ⟨hclaimed, hwaiters⟩ := claimed_of_failed he
        refine ⟨by rw [hwaiters]; exact hp.valid, by rw [hwaiters]; exact hp.nodup, ?_⟩
        rw [hwaiters]
        intro w hw
        rw [Process.claims, hclaimed]
        exact hp.claims w hw
      | ok w =>
        rw [he] at hnew
        generalize (new p thread kind k).1 = p' at hnew ⊢
        cases hnew with
        | made fd hb hfd hregister => exact hp.made hb.valid hb.free rfl rfl
    | drop i =>
      simp only [system, step, drop] at hs
      split at hs
      · cases hs
      · rename_i w hi
        cases hs
        exact hp.dropped hi

/-- No claim is stray in a process that started without claims. -/
theorem waits_of_reachable {p : Process} (h : system.Reachable p) {kind : Int}
    (hvalid : valid kind = true) (hclaims : p.claims kind = true) : p.waits kind := by
  revert hclaims
  refine h.invariant (P := fun p => p.claims kind = true → p.waits kind) ?_ ?_
  · rintro _ ⟨mask, rfl⟩ hclaims
    simp [Process.claims] at hclaims
  · intro p op p' ih hs hclaims
    rcases claims_step hvalid hs hclaims with hwaits | ⟨hclaims, hkeep⟩
    · exact hwaits
    · exact hkeep (ih hclaims)

/-- One waiter for each number: a call gets `EBUSY` exactly when a waiter for its number exists. -/
theorem busy_iff_waits {p : Process} (h : system.Reachable p) (thread : Nat) (kind : Int)
    (k : Answers) : (new p thread kind k).2 = .error .ebusy ↔ p.waits kind := by
  rw [busy_iff]
  constructor
  · rintro ⟨hvalid, hclaims⟩
    exact waits_of_reachable h hvalid hclaims
  · rintro ⟨w, hw, rfl⟩
    have hp := held_of_reachable h
    exact ⟨hp.valid w hw, hp.claims w hw⟩

/-! ### What a call that fails leaves -/

/-- A call for `kind` that took `p` to `p'` changed nothing: the masks and the claims are as
before, and a later call gets `EBUSY` for a waiter that exists then, or for a claim that nobody
had already before. -/
structure Unchanged (p : Process) (kind : Int) (p' : Process) : Prop where
  mask : p'.mask = p.mask
  claimed : p'.claimed = p.claimed
  notBusy : ∀ q, (after p').Reachable q → ∀ thread k, (new q thread kind k).2 = .error .ebusy →
    Stray p kind ∨ q.waits kind

/-- A call that fails leaves its block: it took the claim and the block, the signal was not blocked
before, and either there is a descriptor, and so it is the registration that fails, or the kernel
refuses to lift the block. -/
def LeavesBlock (p : Process) (thread : Nat) (kind : Int) (k : Answers) : Prop :=
  Blocks p kind k ∧ p.mask thread kind = false ∧ ((∃ fd, Armed p kind k fd) ∨ k.unblock ≠ 0)

/-- The mask after a signal was blocked that was not. -/
theorem setMask_ne {p : Process} {thread : Nat} {kind : Int} (h : p.mask thread kind = false) :
    (setMask p thread kind true).mask ≠ p.mask := by
  intro heq
  have hbit := congrArg (fun mask => mask thread kind) heq
  simp [setMask, h] at hbit

/-- The mask after a call that fails is the one before, unless the call leaves its block. -/
theorem mask_iff_of_failed {p : Process} {thread : Nat} {kind : Int} {k : Answers} {e : Error}
    (h : (new p thread kind k).2 = .error e) :
    (new p thread kind k).1.mask = p.mask ↔ ¬ LeavesBlock p thread kind k := by
  have hnew := new_spec p thread kind k
  rw [h] at hnew
  generalize (new p thread kind k).1 = p' at hnew
  cases hnew with
  | refused hvalid =>
    refine iff_of_true rfl fun hl => ?_
    rw [hl.1.valid] at hvalid
    cases hvalid
  | busy hvalid hclaims =>
    refine iff_of_true rfl fun hl => ?_
    rw [hl.1.free] at hclaims
    cases hclaims
  | blockFailed hvalid hfree hblock => exact iff_of_true rfl fun hl => hblock hl.1.block
  | createFailed errno hb hfd hcreate =>
    have hnone : ¬ ∃ fd, Armed p kind k fd := by
      rintro ⟨fd, hf | ⟨-, hf⟩⟩
      · rw [hfd] at hf
        cases hf
      · rw [hcreate] at hf
        cases hf
    split
    · rename_i hkept
      exact iff_of_false (setMask_ne hkept.1) (not_not_intro ⟨hb, hkept.1, .inr hkept.2⟩)
    · rename_i hundone
      exact iff_of_true rfl fun hl => hundone ⟨hl.2.1, hl.2.2.resolve_left hnone⟩
  | registerFailed fd errno hb hfd hregister =>
    cases hm : p.mask thread kind with
    | true =>
      refine iff_of_true ?_ fun hl => ?_
      · show (setMask p thread kind true).mask = p.mask
        rw [setMask_self hm]
      · rw [hl.2.1] at hm
        cases hm
    | false => exact iff_of_false (setMask_ne hm) (not_not_intro ⟨hb, hm, .inl ⟨fd, hfd⟩⟩)

/-- When a `Signal::new` that fails changes nothing. For every state of the process, every thread,
every number and all answers of the kernel, a call that returns an error leaves the masks and the
claims as they were, and is not the reason for a later `EBUSY`, exactly when it does not leave its
block. -/
theorem failed_new_iff {p : Process} {thread : Nat} {kind : Int} {k : Answers} {e : Error}
    (h : (new p thread kind k).2 = .error e) :
    Unchanged p kind (new p thread kind k).1 ↔ ¬ LeavesBlock p thread kind k := by
  obtain ⟨hclaimed, hwaiters⟩ := claimed_of_failed h
  refine ⟨fun hu => (mask_iff_of_failed h).mp hu.mask, fun hl =>
    ⟨(mask_iff_of_failed h).mpr hl, hclaimed, fun q hq thread' k' hbusy => ?_⟩⟩
  obtain ⟨hvalid, hclaims⟩ := busy_iff.mp hbusy
  exact waits_of_claims hvalid hclaimed hwaiters hq hclaims

/-- A process whose first thread has the signals of `blocked` blocked. -/
def startWith (blocked : Int → Bool) : Process where
  mask thread sig := thread = 0 && blocked sig
  claimed := 0
  fds _ := none
  waiters := []

/-- The reactor has no room for one more registration. -/
def noRoom : Answers := { block := 0, signalfd := .ok 5, unblock := 0, register := .error 28 }

/-- The program had `SIGINT` blocked, and it stays blocked. -/
theorem failed_new_blocked_before :
    Unchanged (startWith (· = 2)) 2 (new (startWith (· = 2)) 0 2 noRoom).1 :=
  (failed_new_iff (p := startWith (· = 2)) (k := noRoom) (e := .kernel 28) rfl).mpr fun hl => by
    have := hl.2.1
    simp [startWith] at this

/-- The program had nothing blocked. The registration of its waiter for `SIGINT` is refused, and
`SIGINT` stays blocked on the thread. -/
theorem failed_new_leaves_block :
    system.Reachable (startWith fun _ => false) ∧
      (new (startWith fun _ => false) 0 2 noRoom).2 = .error (.kernel 28) ∧
      (startWith fun _ => false).mask 0 2 = false ∧
      (new (startWith fun _ => false) 0 2 noRoom).1.mask 0 2 = true ∧
      ¬ Unchanged (startWith fun _ => false) 2 (new (startWith fun _ => false) 0 2 noRoom).1 := by
  refine ⟨.init ⟨_, rfl⟩, rfl, rfl, rfl, fun hu => ?_⟩
  have hmask := congrArg (fun mask => mask 0 2) hu.mask
  exact absurd hmask (by decide)

end Nagoya.Signal
