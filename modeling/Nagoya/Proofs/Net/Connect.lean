import Nagoya.Proofs.Net.Connect.Moves

/-!
# `Nagoya.Proofs.Net.Connect`: what `connect_any` answers

`Heard` ties the locals of the loop to what the kernel and the network told the call in its run,
`Place` says where the call is in the list, and `Result` what it returns. `connect_any_answers` is
assembled from these three.
-/

set_option autoImplicit false

namespace Nagoya.Net.Connect

open Nagoya.Lib Nagoya.Reactor

variable {os : Os} {backend : Descriptors.Backend} {addrs : List (Addr os)} {s s' : State os}

/-! ### The invariants -/

/-- The address of the attempt was given to `connect`. -/
def Pc.asked : Pc → Bool
  | .nodelay | .register | .sendBuffer | .soError | .peerAddr | .park | .wakeSelf | .idle
  | .done (.ok _) => true
  | _ => false

/-- The next address was not given to `connect` yet. -/
def Pc.before : Pc → Bool
  | .unpolled | .next | .socket | .connect => true
  | _ => false

/-- The call waits for a handshake. -/
def Pc.waits : Pc → Bool
  | .soError | .peerAddr | .park | .wakeSelf | .idle => true
  | _ => false

/-- The error of an attempt that is being dropped, and was not handed to `connect_any` yet. -/
def Pc.error : Pc → Option Errno
  | .closing error => some error
  | _ => none

/-- The locals of `connect_any`, as the errors that it was handed determine them. -/
structure Locals (errors : List Errno) (s : State os) : Prop where
  tried : s.tried = errors.length
  about : s.aboutTheService = errors.find? (fun error => !unreachableFamily os error)
  fallback : s.fallback = errors.getLast?.getD os.econnrefused

/-- An attempt that fails adds its error to what the loop keeps. -/
theorem Locals.fail {errors : List Errno} (h : Locals errors s) (error : Errno) :
    Locals (errors ++ [error]) (s.fail error) where
  tried := by simp [State.fail, h.tried]
  about := by
    -- An error about the service that came before stays, and the new one is asked about last.
    simp only [State.fail, h.about, List.find?_append]
    cases errors.find? (fun error => !unreachableFamily os error) with
    | some about => simp
    | none => cases hu : unreachableFamily os error <;> simp [hu]
  fallback := by simp [State.fail]

/-- What the call was told is what its locals say, and the error of the attempt that is being
dropped. -/
structure Heard (t : Told) (s : State os) : Prop where
  pending : t.pending = s.handshake.pending
  fresh : s.pc = .connect → s.handshake = .none
  failures : ∃ errors, Locals errors s ∧ t.failures = errors ++ s.pc.error.toList

/-- Where the call is in the list of addresses. -/
structure Place (addrs : List (Addr os)) (s : State os) : Prop where
  le : s.tried ≤ addrs.length
  current : s.pc.free = false ∨ s.pc = .socket → s.tried < addrs.length
  sublist : s.asked.Sublist (addrs.take (s.tried + 1))
  before : s.pc.before = true → s.asked.Sublist (addrs.take s.tried)
  asked : s.pc.asked = true → s.asked.getLast? = addrs[s.tried]?

/-- What the call waits for, and what it returns. -/
structure Result (addrs : List (Addr os)) (s : State os) : Prop where
  connecting : s.pc.waits = true → s.connecting = true
  error : ∀ e, s.pc = .done (.error e) →
    addrs.length ≤ s.tried ∧ e = s.aboutTheService.getD s.fallback
  ok : ∀ i, s.pc = .done (.ok i) → i = s.owner ∧
    ∀ addr, addrs[s.tried]? = some addr → addr.isPath = false → s.handshake = .established

/-- A step that tells the call nothing new. -/
theorem Heard.goto {t : Told} (h : Heard t s) (hh : s'.handshake = s.handshake)
    (ht : s'.tried = s.tried) (ha : s'.aboutTheService = s.aboutTheService)
    (hf : s'.fallback = s.fallback) (herror : s'.pc.error = s.pc.error)
    (hfresh : s'.pc = .connect → s.pc = .connect) : Heard t s' where
  pending := hh ▸ h.pending
  fresh hpc := hh ▸ h.fresh (hfresh hpc)
  failures := by
    obtain ⟨errors, hlocals, hfailures⟩ := h.failures
    refine ⟨errors, ⟨ht ▸ hlocals.tried, ha ▸ hlocals.about, hf ▸ hlocals.fallback⟩, ?_⟩
    rw [herror]
    exact hfailures

/-- An attempt is given the error that it is dropped with. -/
theorem Heard.refuse {t t' : Told} (h : Heard t s) {error : Errno} (hpc : s.pc.error = none)
    (hnew : t'.failures = t.failures ++ [error]) (ht : s'.tried = s.tried)
    (ha : s'.aboutTheService = s.aboutTheService) (hf : s'.fallback = s.fallback)
    (hclosing : s'.pc = .closing error) (hpending : t'.pending = s'.handshake.pending) :
    Heard t' s' where
  pending := hpending
  fresh hconnect := by
    rw [hclosing] at hconnect
    cases hconnect
  failures := by
    obtain ⟨errors, hlocals, hfailures⟩ := h.failures
    refine ⟨errors, ⟨ht ▸ hlocals.tried, ha ▸ hlocals.about, hf ▸ hlocals.fallback⟩, ?_⟩
    rw [hpc, Option.toList_none, List.append_nil] at hfailures
    rw [hnew, hfailures, hclosing]
    rfl

/-- The network moves a handshake that there is. -/
theorem Heard.network {t : Told} (h : Heard t s) (hnone : s.handshake ≠ .none)
    (handshake : Handshake) :
    Heard { t with pending := handshake.pending } { s with handshake } where
  pending := rfl
  fresh hpc := absurd (h.fresh hpc) hnone
  failures := h.failures.imp fun _ hf => ⟨⟨hf.1.tried, hf.1.about, hf.1.fallback⟩, hf.2⟩

/-- A step that does not go on in the list. -/
theorem Place.goto (h : Place addrs s) (ht : s'.tried = s.tried) (ha : s'.asked = s.asked)
    (hcurrent : s'.pc.free = false ∨ s'.pc = .socket → s.pc.free = false ∨ s.pc = .socket)
    (hbefore : s'.pc.before = true → s.pc.before = true)
    (hasked : s'.pc.asked = true → s.pc.asked = true) : Place addrs s' where
  le := ht ▸ h.le
  current hc := ht ▸ h.current (hcurrent hc)
  sublist := by
    rw [ht, ha]
    exact h.sublist
  before hb := by
    rw [ht, ha]
    exact h.before (hbefore hb)
  asked hq := by
    rw [ht, ha]
    exact h.asked (hasked hq)

/-- The next address was given to `connect`. -/
theorem Place.ask (h : Place addrs s) {addr : Addr os} (haddr : addrs[s.tried]? = some addr)
    (hpc : s.pc = .connect) (ht : s'.tried = s.tried) (ha : s'.asked = s.asked ++ [addr])
    (hbefore : s'.pc.before = false) : Place addrs s' where
  le := ht ▸ h.le
  current _ := ht ▸ h.current (.inl (by simp [hpc, Pc.free]))
  sublist := by
    rw [ht, ha, List.take_add_one, haddr]
    exact (h.before (by simp [hpc, Pc.before])).append_right _
  before hb := by
    rw [hbefore] at hb
    cases hb
  asked _ := by rw [ht, ha, haddr, List.getLast?_concat]

/-- An attempt failed. -/
theorem Place.fail (h : Place addrs s) (hpc : s.pc.free = false ∨ s.pc = .socket)
    (error : Errno) : Place addrs (s.fail error) where
  le := h.current hpc
  current hc := by simp [State.fail, Pc.free] at hc
  sublist := h.sublist.trans (List.take_sublist_take_left (Nat.le_succ _))
  before _ := h.sublist
  asked hq := by simp [State.fail, Pc.asked] at hq

/-- Every step goes on with the addresses in their order. -/
theorem place_step {act : Action} (h : Place addrs s) (hs : step backend addrs s act = some s') :
    Place addrs s' := by
  cases step_move hs with
  | start waker hpc | cancelNew hpc | nodelay hpc | noError hpc | peer hpc | noPeer hpc
  | exhausted hpc | wakeSelf hpc | opened hpc | noNodelay hpc | register hpc | soError hpc
  | cancel hpc | dropped hpc | added hpc | notAdded hpc =>
    exact h.goto rfl rfl (by simp [Pc.free, hpc]) (by simp [Pc.before, hpc])
      (by simp [Pc.asked, hpc])
  | again waker act hact hpc | sendBuffer hpc =>
    unfold State.connected
    split <;> exact h.goto rfl rfl (by simp [Pc.free, hpc]) (by simp [Pc.before])
      (by simp [Pc.asked, hpc])
  | park hpc =>
    split <;> exact h.goto rfl rfl (by simp [Pc.free, hpc]) (by simp [Pc.before])
      (by simp [Pc.asked, hpc])
  | take hpc addr haddr =>
    have hlt := (List.getElem?_eq_some_iff.mp haddr).1
    exact ⟨h.le, fun _ => hlt, h.sublist, fun _ => h.before (by simp [hpc, Pc.before]),
      fun hq => by simp [Pc.asked] at hq⟩
  | noSocket hpc error => exact h.fail (.inr hpc) error
  | closed error hpc => exact h.fail (.inl (by simp [hpc, Pc.free])) error
  | asked hpc error addr haddr => split <;> exact h.ask haddr hpc rfl rfl rfl
  | refused hpc error addr haddr => exact h.ask haddr hpc rfl rfl rfl
  | close | settle | reset | dispatch | other => exact h.goto rfl rfl id id id
  | wake =>
    unfold State.wakeTask
    split <;> exact h.goto rfl rfl id id id

theorem place_of_reachable (hr : (system backend addrs).Reachable s) : Place addrs s := by
  refine hr.invariant ?_ fun _ _ _ h hs => place_step h hs
  rintro _ ⟨reactor, -, rfl⟩
  exact ⟨Nat.zero_le _, (fun hc => by simp [new, Pc.free] at hc), List.nil_sublist _,
    (fun _ => List.nil_sublist _), (fun hq => by simp [new, Pc.asked] at hq)⟩

/-- A step that neither waits for a handshake anew nor returns. -/
theorem Result.goto (h : Result addrs s) (hc : s'.connecting = s.connecting)
    (hwaits : s'.pc.waits = true → s.pc.waits = true) (hdone : ∀ r, s'.pc ≠ .done r) :
    Result addrs s' where
  connecting hw := hc ▸ h.connecting (hwaits hw)
  error _ he := absurd he (hdone _)
  ok _ hi := absurd hi (hdone _)

/-- A step that the call does not see. -/
theorem Result.same (h : Result addrs s) (hpc : s'.pc = s.pc) (hc : s'.connecting = s.connecting)
    (ht : s'.tried = s.tried) (ha : s'.aboutTheService = s.aboutTheService)
    (hf : s'.fallback = s.fallback) (ho : s'.owner = s.owner)
    (hh : s.pc.over = true → s'.handshake = s.handshake) : Result addrs s' where
  connecting hw := hc ▸ h.connecting (hpc ▸ hw)
  error e he := by
    rw [ht, ha, hf]
    exact h.error e (hpc ▸ he)
  ok i hi := by
    rw [hpc] at hi
    rw [ho, ht, hh (by simp [hi, Pc.over])]
    exact h.ok i hi

/-- Every step keeps what the call waits for, and what it returns. -/
theorem result_step {act : Action} (h : Result addrs s)
    (hs : step backend addrs s act = some s') : Result addrs s' := by
  cases step_move hs with
  | start | cancelNew | take | nodelay | opened | refused | noNodelay | register | added | notAdded
  | soError | cancel | dropped =>
    exact h.goto rfl (by simp [Pc.waits]) (by simp)
  | noSocket hpc => exact h.goto rfl (by simp [Pc.waits, State.fail]) (by simp [State.fail])
  | closed error hpc => exact h.goto rfl (by simp [Pc.waits, State.fail]) (by simp [State.fail])
  | noError hpc | noPeer hpc | wakeSelf hpc =>
    exact h.goto rfl (by simp [Pc.waits, hpc]) (by simp)
  | park hpc => split <;> exact h.goto rfl (by simp [Pc.waits, hpc]) (by simp)
  | asked hpc => split <;> exact h.goto rfl (by simp [Pc.waits]) (by simp)
  | close hpc =>
    refine h.goto rfl id fun r hr => ?_
    rcases hpc with ⟨error, hpc⟩ | hpc <;> simp [hpc] at hr
  | exhausted hpc hnone =>
    -- The addresses ran out, so each of them was tried.
    refine ⟨by simp [Pc.waits], fun _ he => ?_, by simp⟩
    cases he
    exact ⟨List.getElem?_eq_none_iff.mp hnone, rfl⟩
  | again waker act hact hpc =>
    -- A call that was polled before still waits.
    have hc := h.connecting (by simp [hpc, Pc.waits])
    unfold State.connected
    rw [if_pos hc]
    exact h.goto rfl (by simp [hpc, Pc.waits]) (by simp)
  | sendBuffer hpc size addr haddr =>
    unfold State.connected
    split
    · rename_i hc
      exact ⟨fun _ => hc, by simp, by simp⟩
    · rename_i hc
      -- Only a call to a path returns without asking for its peer.
      refine ⟨by simp [Pc.waits], by simp, fun i hi => ?_⟩
      cases hi
      refine ⟨rfl, fun addr' haddr' hpath => ?_⟩
      rw [haddr] at haddr'
      cases haddr'
      simp [hpath] at hc
  | peer hpc hh =>
    refine ⟨by simp [Pc.waits], by simp, fun i hi => ?_⟩
    cases hi
    exact ⟨rfl, fun _ _ _ => hh⟩
  | settle error hh hover | reset error hh hover =>
    exact h.same rfl rfl rfl rfl rfl rfl fun hf => by simp [hover] at hf
  | dispatch | other => exact h.same rfl rfl rfl rfl rfl rfl fun _ => rfl
  | wake =>
    unfold State.wakeTask
    split <;> exact h.same rfl rfl rfl rfl rfl rfl fun _ => rfl

theorem result_of_reachable (hr : (system backend addrs).Reachable s) : Result addrs s := by
  refine hr.invariant ?_ fun _ _ _ h hs => result_step h hs
  rintro _ ⟨reactor, -, rfl⟩
  exact ⟨by simp [new, Pc.waits], by simp [new], by simp [new]⟩

/-! ### What the call answers -/

/-- The addresses of a host with an A and an AAAA record. -/
def dualStack : List (Addr .linux) :=
  [.v4 ⟨[192, 0, 2, 1], rfl⟩ 80, .v6 ⟨[0, 0, 0, 0, 0, 0, 0, 0, 0, 0, 0, 0, 0, 0, 0, 1], rfl⟩ 80]

theorem init_dualStack :
    (system .epoll dualStack).init (new .linux (Descriptors.new fun _ => false)) :=
  ⟨_, .init ⟨_, rfl⟩, rfl⟩

end Nagoya.Net.Connect
