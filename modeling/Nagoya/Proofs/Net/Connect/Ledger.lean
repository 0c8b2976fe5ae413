import Nagoya.Proofs.Net.Connect
import Nagoya.Proofs.Reactor.Descriptors

/-!
# `Nagoya.Proofs.Net.Connect.Ledger`: what `connect_any` leaves open

The ledger of a run says who changed each descriptor number, each entry of the poller and each slot
last. What the call changed last, and is on, belongs to the open attempt, whose owner has still to
undo it (`Accounts`). `Owner.Step` is what a step of an owner of a stream does to the three tables,
and `Touch` is how a step of the call meets the reactor, so the invariant has a case for each of
these. A call that is over has no open attempt, or a stream to return.
-/

set_option autoImplicit false

namespace Nagoya.Reactor.Descriptors

open Nagoya.Lib

/-! ### What a step of an owner does to the tables -/

/-- What a new socket changes: one number is open that was not. -/
theorem step_open_tables {s s' : State} {backend : Backend} {fd : Nat}
    (hs : step backend s (.openAt .tcpStream fd) = some s') :
    s'.kernel.isOpen = Function.update s.kernel.isOpen fd true ∧
      s'.kernel.interest = s.kernel.interest ∧ s'.slots = s.slots := by
  simp only [step] at hs
  split at hs
  · cases hs
  · cases hs
  · rename_i hopen _
    cases hs
    obtain ⟨-, rfl⟩ := Kernel.openAt_eq_some hopen
    exact ⟨rfl, rfl, rfl⟩

/-- What an owner of a stream still has to undo. -/
def Phase.Has (d : DropStep) : Phase → Prop
  | .opened | .indexed => d = .close
  | .inserted => d = .close ∨ d = .slotsRemove
  | .live => d ∈ Kind.tcpStream.drop
  | .dropping rest => d ∈ rest
  | _ => False

/-- The owner has not begun to drop anything. -/
def Phase.up : Phase → Bool
  | .opened | .indexed | .inserted | .live => true
  | _ => false

/-- What a step of an owner of a stream does. What is on after it in the kernel's tables and in the
map of slots is what it was before, or what the owner has to undo. On its way up the owner gets its
slot and its entry in the poller, and keeps what it got. -/
structure Owner.Step (s s' : State) (o n : Owner) : Prop where
  fd : n.fd = o.fd
  isOpen : Carries (· = true) s.kernel.isOpen s'.kernel.isOpen
    (fun m => o.fd = m ∧ o.phase.Has .close) (fun m => n.fd = m ∧ n.phase.Has .close)
  interest : Carries (· ≠ none) s.kernel.interest s'.kernel.interest
    (fun m => o.fd = m ∧ o.phase.Has .pollerRemove) (fun m => n.fd = m ∧ n.phase.Has .pollerRemove)
  slots : Carries (· = true) s.slots s'.slots
    (fun m => o.index = m ∧ o.phase.Has .slotsRemove)
    (fun m => n.index = m ∧ n.phase.Has .slotsRemove)
  up : n.phase.up = true → o.phase.up = true ∧ s'.kernel.isOpen = s.kernel.isOpen
  inserted : n.phase = .inserted → s'.slots n.index = true
  live : n.phase = .live → s'.kernel.interest n.fd = some n.token ∧
    o.phase = .inserted ∧ n.index = o.index ∧ s'.slots = s.slots

/-- An owner that begins to drop what it has. -/
theorem Owner.Step.dropping {s s' : State} {o : Owner} {rest : List DropStep}
    (hk : s'.kernel = s.kernel) (hs : s'.slots = s.slots)
    (h : ∀ d, o.phase.Has d → d ∈ rest) : Owner.Step s s' o { o with phase := .dropping rest } where
  fd := rfl
  isOpen := hk ▸ .refl fun _ hm => ⟨hm.1, h _ hm.2⟩
  interest := hk ▸ .refl fun _ hm => ⟨hm.1, h _ hm.2⟩
  slots := hs ▸ .refl fun _ hm => ⟨hm.1, h _ hm.2⟩
  up hup := by cases hup
  inserted hp := by cases hp
  live hp := by cases hp

/-- A step of the drop of an owner. -/
theorem Owner.Step.drop {s : State} {i : Nat} {o : Owner} {d : DropStep} {rest : List DropStep}
    (hp : o.phase = .dropping (d :: rest)) :
    Owner.Step s ((dropStep s o d).put i { o with phase := .dropping rest }) o
      { o with phase := .dropping rest } := by
  have hrest {d' : DropStep} (hne : d' ≠ d) (hhas : o.phase.Has d') : d' ∈ rest := by
    rw [hp] at hhas
    exact (List.mem_cons.mp hhas).resolve_left hne
  -- What this step undoes is off after it, and the rest is still to come.
  have hsame {β : Type} {on : β → Prop} {map : Nat → β} {d' : DropStep} (key : Owner → Nat)
      (hne : d' ≠ d) : Carries on map map (fun m => key o = m ∧ o.phase.Has d')
        (fun m => key o = m ∧ d' ∈ rest) := .refl fun _ hm => ⟨hm.1, hrest hne hm.2⟩
  have hoff {β : Type} {on : β → Prop} {map : Nat → β} {key : Nat} {d' : DropStep} {v : β}
      (hv : ¬on v) : Carries on map (Function.update map key v)
        (fun m => key = m ∧ o.phase.Has d') (fun m => key = m ∧ d' ∈ rest) :=
    .update (fun _ hm hhas => absurd hhas.1.symm hm) fun hon => absurd hon hv
  have hdown (s' : State) (isOpen : Carries (· = true) s.kernel.isOpen s'.kernel.isOpen
        (fun m => o.fd = m ∧ o.phase.Has .close) (fun m => o.fd = m ∧ .close ∈ rest))
      (interest : Carries (· ≠ none) s.kernel.interest s'.kernel.interest
        (fun m => o.fd = m ∧ o.phase.Has .pollerRemove) (fun m => o.fd = m ∧ .pollerRemove ∈ rest))
      (slots : Carries (· = true) s.slots s'.slots
        (fun m => o.index = m ∧ o.phase.Has .slotsRemove)
        (fun m => o.index = m ∧ .slotsRemove ∈ rest)) :
      Owner.Step s s' o { o with phase := .dropping rest } :=
    { fd := rfl, isOpen, interest, slots
      up := fun hup => by cases hup
      inserted := fun hi => by cases hi
      live := fun hl => by cases hl }
  cases d with
  | close =>
    exact hdown _ (hoff (by decide)) (hoff (by simp)) (hsame Owner.index (by decide))
  | pollerRemove =>
    exact hdown _ (hsame Owner.fd (by decide)) (hoff (by simp)) (hsame Owner.index (by decide))
  | slotsRemove =>
    exact hdown _ (hsame Owner.fd (by decide)) (hsame Owner.fd (by decide))
      (hoff (by decide))
  | disarm =>
    exact hdown _ (hsame Owner.fd (by decide)) (hsame Owner.fd (by decide))
      (hsame Owner.index (by decide))
  | releaseClaim =>
    -- The claim of a signal is not in any of the three maps.
    have hkernel : (dropStep s o .releaseClaim).kernel = s.kernel ∧
        (dropStep s o .releaseClaim).slots = s.slots := by
      simp only [dropStep]
      split <;> exact ⟨rfl, rfl⟩
    refine hdown _ ?_ ?_ ?_
    · show Carries _ _ (dropStep s o .releaseClaim).kernel.isOpen _ _
      rw [hkernel.1]
      exact hsame Owner.fd (by decide)
    · show Carries _ _ (dropStep s o .releaseClaim).kernel.interest _ _
      rw [hkernel.1]
      exact hsame Owner.fd (by decide)
    · show Carries _ _ (dropStep s o .releaseClaim).slots _ _
      rw [hkernel.2]
      exact hsame Owner.index (by decide)

/-- The owner that a step put back. -/
theorem eq_of_put {s s' : State} {i : Nat} {o n x : Owner} (hi : s.owners[i]? = some o)
    (howners : s'.owners = s.owners) (hn : (s'.put i x).owners[i]? = some n) : n = x := by
  have hlt := (List.getElem?_eq_some_iff.mp hi).1
  rw [show (s'.put i x).owners = s.owners.set i x by rw [← howners]; rfl,
    List.getElem?_set_self hlt] at hn
  exact (Option.some.inj hn).symm

/-- The next step of an owner of a stream, on its way up or in its drop. -/
theorem advance_own {s s' : State} {i : Nat} {o n : Owner} (hs : advance s i o = some s')
    (hi : s.owners[i]? = some o) (hk : o.kind = .tcpStream) (hn : s'.owners[i]? = some n) :
    Owner.Step s s' o n := by
  unfold advance at hs
  split at hs <;> rename_i hp
  · rw [hk] at hs
    cases hs
  · cases hs
    cases eq_of_put hi rfl hn
    have hhas {d : DropStep} (hd : o.phase.Has d) : Phase.Has d .indexed := by
      rw [hp] at hd
      exact hd
    refine ⟨rfl, .refl fun _ h => ⟨h.1, hhas h.2⟩, .refl fun _ h => ⟨h.1, hhas h.2⟩,
      .refl fun _ h => ?_, fun _ => ⟨by rw [hp]; rfl, rfl⟩, (fun h => by cases h),
      (fun h => by cases h)⟩
    -- Without a slot there is none to take out.
    have hno := h.2
    rw [hp] at hno
    cases hno
  · cases hs
    cases eq_of_put hi rfl hn
    have hhas {d : DropStep} (hd : o.phase.Has d) : Phase.Has d .inserted := by
      rw [hp] at hd
      exact .inl hd
    exact ⟨rfl, .refl fun _ h => ⟨h.1, hhas h.2⟩, .refl fun _ h => ⟨h.1, hhas h.2⟩,
      .update (fun _ _ h => ⟨h.1, hhas h.2⟩) fun _ => ⟨rfl, .inr rfl⟩,
      fun _ => ⟨by rw [hp]; rfl, rfl⟩, fun _ => Function.update_self .., (fun h => by cases h)⟩
  · cases hs
    have howners := dropStep_owners s o
    cases eq_of_put hi (howners _) hn
    exact .drop hp
  · cases hs

/-- Every step of an owner of a stream. -/
theorem step_own {s s' : State} {backend : Backend} {act : Action} {i : Nat} {o n : Owner}
    (hs : step backend s act = some s') (hact : act.owner = some i)
    (hi : s.owners[i]? = some o) (hk : o.kind = .tcpStream) (hn : s'.owners[i]? = some n) :
    Owner.Step s s' o n := by
  obtain ⟨kind, fd, index, token, phase⟩ := o
  cases hk
  cases act with
  | openAt | acquire => cases hact
  | arm j | create j =>
    -- These are steps of a signal.
    cases hact
    simp only [step, hi] at hs
    contradiction
  | abandon j =>
    cases hact
    simp only [step, hi] at hs
    split at hs
    · cases hs
    · cases hs
      cases eq_of_put hi rfl hn
      -- The attempt had nothing but its number.
      exact .dropping rfl rfl fun d hd => List.mem_singleton.mpr hd
    · cases hs
  | drop j =>
    cases hact
    simp only [step, hi] at hs
    split at hs
    · cases hs
      cases eq_of_put hi rfl hn
      -- All that a registered stream has is in its drop.
      exact .dropping rfl rfl fun d hd => hd
    · cases hs
  | add j refused =>
    cases hact
    simp only [step, hi] at hs
    split at hs
    · split at hs
      · rename_i kernel hadd
        cases hs
        cases eq_of_put hi rfl hn
        have hkernel := Kernel.add_eq_some hadd
        subst hkernel
        have hhas {d : DropStep} (hd : Phase.Has d .inserted) : Phase.Has d .live := by
          show d ∈ Kind.tcpStream.drop
          rcases hd with rfl | rfl <;> decide
        -- From here on the poller has the entry, and the drop removes it.
        have hremove : Phase.Has .pollerRemove .live :=
          (by decide : DropStep.pollerRemove ∈ Kind.tcpStream.drop)
        exact ⟨rfl, .refl fun _ h => ⟨h.1, hhas h.2⟩,
          .update (fun _ _ h => ⟨h.1, hhas h.2⟩) fun _ => ⟨rfl, hremove⟩,
          .refl fun _ h => ⟨h.1, hhas h.2⟩, fun _ => ⟨rfl, rfl⟩,
          (fun h => by cases h), fun _ => ⟨Function.update_self .., rfl, rfl, rfl⟩⟩
      · cases hs
        cases eq_of_put hi rfl hn
        -- The poller refused the entry, so only the slot and the number are left to undo.
        refine .dropping rfl rfl fun d hd => ?_
        rcases hd with rfl | rfl <;> simp [Kind.unregistered]
    · cases hs
  | advance j =>
    cases hact
    simp only [step, hi] at hs
    exact advance_own hs hi rfl hn

end Nagoya.Reactor.Descriptors

namespace Nagoya.Net.Connect

open Nagoya.Lib Nagoya.Reactor
open Nagoya.Reactor.Descriptors (Owner Phase)

variable {os : Os} {backend : Descriptors.Backend} {addrs : List (Addr os)} {s s' : State os}
  {l l' : Ledger}

/-! ### How a step meets the reactor -/

/-- The owner of the open attempt. -/
def State.attempt (s : State os) : Option Owner :=
  if s.pc.free then none else s.reactor.owners[s.owner]?

theorem attempt_of_free (h : s.pc.free = true) : s.attempt = none := if_pos h

theorem attempt_of_open (h : s.pc.free = false) : s.attempt = s.reactor.owners[s.owner]? :=
  if_neg (by simp [h])

/-- What a step of the call does to the reactor and to the owner of the open attempt. -/
inductive Touch (backend : Descriptors.Backend) (s : State os) (act : Action) (s' : State os) :
    Prop where
  | quiet (reactor : s'.reactor = s.reactor) (attempt : s'.attempt = s.attempt)
  | finish (reactor : s'.reactor = s.reactor) (attempt : s'.attempt = none) (o : Owner)
      (before : s.attempt = some o) (undone : o.phase = .dropping [])
  | opened (fd : Nat) (party : act.party = .call) (before : s.attempt = none)
      (step : Descriptors.step backend s.reactor (.openAt .tcpStream fd) = some s'.reactor)
      (attempt : s'.attempt = s'.reactor.owners[s.reactor.owners.length]?)
  | own (act' : Descriptors.Action) (i : Nat) (party : act.party = .call) (o n : Owner)
      (before : s.attempt = some o) (at_ : s.reactor.owners[i]? = some o)
      (kind : o.kind = .tcpStream) (owner : act'.owner = some i)
      (step : Descriptors.step backend s.reactor act' = some s'.reactor)
      (after : s'.reactor.owners[i]? = some n) (attempt : s'.attempt = some n)
  | other (act' : Descriptors.Action) (party : act.party = .others)
      (step : Descriptors.step backend s.reactor act' = some s'.reactor)
      (attempt : s'.attempt = s.attempt)

/-- A step that leaves the reactor and the attempt alone. -/
theorem Touch.goto {act : Action} (hr : s'.reactor = s.reactor) (ho : s'.owner = s.owner)
    (hfree : s'.pc.free = s.pc.free) : Touch backend s act s' := by
  refine .quiet hr ?_
  unfold State.attempt
  rw [hr, ho, hfree]

/-- A step of the owner of the attempt. -/
theorem Touch.step {act : Action} {act' : Descriptors.Action} (h : Owns s) (h' : Owns s')
    (party : act.party = .call) (hact : act'.owner = some s.owner) (ho : s'.owner = s.owner)
    (hfree : s.pc.free = false) (hfree' : s'.pc.free = false)
    (hr : Descriptors.step backend s.reactor act' = some s'.reactor) : Touch backend s act s' := by
  obtain ⟨-, o, hi, hk, -⟩ := h.attempt hfree
  obtain ⟨-, n, hn, -⟩ := h'.attempt hfree'
  have hn' := (attempt_of_open hfree').trans hn
  rw [ho] at hn
  exact .own act' s.owner party o n ((attempt_of_open hfree).trans hi) hi hk hact hr hn hn'

/-- Every step meets the reactor in one of these ways. -/
theorem step_touch {act : Action} (h : Owns s) (hs : step backend addrs s act = some s') :
    Touch backend s act s' := by
  have h' := owns_step h hs
  cases step_move hs with
  | start waker hpc | take hpc | exhausted hpc | nodelay hpc | noError hpc | peer hpc | noPeer hpc
  | wakeSelf hpc | cancelNew hpc =>
    exact .goto rfl rfl (by simp [Pc.free, hpc])
  | again waker act hact hpc | sendBuffer hpc =>
    unfold State.connected
    split <;> exact .goto rfl rfl (by simp [Pc.free, hpc])
  | noSocket hpc => exact .goto rfl rfl (by simp [Pc.free, State.fail, hpc])
  | asked hpc => split <;> exact .goto rfl rfl (by simp [Pc.free, hpc])
  | park hpc => split <;> exact .goto rfl rfl (by simp [Pc.free, hpc])
  | settle | reset | dispatch => exact .goto rfl rfl rfl
  | wake =>
    unfold State.wakeTask
    split <;> exact .goto rfl rfl rfl
  | opened hpc fd reactor hr =>
    exact .opened fd rfl (attempt_of_free (by simp [Pc.free, hpc])) hr (attempt_of_open rfl)
  | refused hpc error addr haddr he reactor hr | noNodelay hpc error reactor hr
  | register hpc o ho hp reactor hr | added hpc reactor hr | notAdded hpc error reactor hr
  | soError hpc fault error he reactor hr | cancel hpc reactor hr =>
    exact .step h h' rfl rfl rfl (by simp [Pc.free, hpc]) rfl hr
  | close hpc reactor hr =>
    have hfree : s.pc.free = false := by
      rcases hpc with ⟨error, hpc⟩ | hpc <;> simp [Pc.free, hpc]
    exact .step h h' rfl rfl rfl hfree hfree hr
  | closed error hpc o ho hp | dropped hpc o ho hp =>
    have hattempt := attempt_of_open (s := s) (by simp [Pc.free, hpc])
    exact .finish rfl (attempt_of_free rfl) o (hattempt.trans ho) hp
  | other act hne reactor hr =>
    refine .other act rfl hr ?_
    -- The attempt's owner is none of theirs.
    cases hfree : s.pc.free with
    | true => rw [attempt_of_free hfree, attempt_of_free (by exact hfree)]
    | false =>
      obtain ⟨hmem, o, hi, -⟩ := h.attempt hfree
      rw [attempt_of_open hfree, attempt_of_open (by exact hfree), hi]
      exact Descriptors.step_other hr hi (hne _ hmem)

theorem reactor_step {r r' : Descriptors.State} {act : Descriptors.Action}
    (h : (Descriptors.system backend).Reachable r)
    (hr : Descriptors.step backend r act = some r') :
    (Descriptors.system backend).Reachable r' :=
  h.next hr

/-- The reactor is in a state that its own system can reach: the call does nothing to it that is
not a step of that system. -/
theorem reactor_of_reachable (hr : (system backend addrs).Reachable s) :
    (Descriptors.system backend).Reachable s.reactor ∧ Owns s := by
  refine hr.invariant
    (P := fun s => (Descriptors.system backend).Reachable s.reactor ∧ Owns s) ?_ ?_
  · rintro _ ⟨reactor, h, rfl⟩
    exact ⟨h, .of_free rfl⟩
  · rintro s act s' ⟨h, howns⟩ hs
    refine ⟨?_, owns_step howns hs⟩
    cases step_touch howns hs with
    | quiet hreactor => exact hreactor ▸ h
    | finish hreactor => exact hreactor ▸ h
    | opened fd party before step => exact reactor_step h step
    | own act' i party o n before at_ kind owner step => exact reactor_step h step
    | other act' party step => exact reactor_step h step

/-! ### The accounts of the call -/

/-- What the call changed last and is on belongs to this owner, which has still to undo it. -/
structure Leaves (l : Ledger) (r : Descriptors.State) (attempt : Option Owner) : Prop where
  isOpen : Accounted l.isOpen .call r.kernel.isOpen (· = true) fun n =>
    ∃ o, attempt = some o ∧ o.fd = n ∧ o.phase.Has .close
  interest : Accounted l.interest .call r.kernel.interest (· ≠ none) fun n =>
    ∃ o, attempt = some o ∧ o.fd = n ∧ o.phase.Has .pollerRemove
  slots : Accounted l.slots .call r.slots (· = true) fun n =>
    ∃ o, attempt = some o ∧ o.index = n ∧ o.phase.Has .slotsRemove

/-- What an owner got on its way up is there, or somebody else changed it since. -/
structure Stands (l : Ledger) (r : Descriptors.State) (o : Owner) : Prop where
  isOpen : o.phase.up = true → r.kernel.isOpen o.fd = true ∨ l.isOpen o.fd = some .others
  slots : o.phase = .inserted ∨ o.phase = .live →
    r.slots o.index = true ∨ l.slots o.index = some .others
  interest : o.phase = .live →
    r.kernel.interest o.fd = some o.token ∨ l.interest o.fd = some .others

/-- The invariant of the ledger. -/
structure Accounts (l : Ledger) (s : State os) : Prop where
  leaves : Leaves l s.reactor s.attempt
  stands : ∀ o, s.attempt = some o → Stands l s.reactor o

/-- A step that changes nothing in the reactor adds nothing to the ledger. -/
theorem ledger_quiet {act : Action} (hr : s'.reactor = s.reactor) : l.next s act s' = l := by
  have hnone {β : Type} [DecidableEq β] (last : Nat → Option Party) (p : Party) (map : Nat → β) :
      lastBy last p map map = last := funext fun _ => if_pos rfl
  simp only [Ledger.next, hr, hnone]

/-- A new socket. -/
theorem Accounts.opened (h : Accounts l s) {act : Action} {fd : Nat} (party : act.party = .call)
    (hbefore : s.attempt = none)
    (hs : Descriptors.step backend s.reactor (.openAt .tcpStream fd) = some s'.reactor)
    (hattempt : s'.attempt = s'.reactor.owners[s.reactor.owners.length]?) :
    Accounts (l.next s act s') s' := by
  have howners := Descriptors.step_open hs
  obtain ⟨hopen, hinterest, hslots⟩ := Descriptors.step_open_tables hs
  rw [howners, List.getElem?_concat_length] at hattempt
  have hnothing {P : Owner → Prop} (h : ∃ o, s.attempt = some o ∧ P o) : False := by
    obtain ⟨o, ho, -⟩ := h
    rw [hbefore] at ho
    cases ho
  refine ⟨?_, fun o ho => ?_⟩
  · rw [hattempt]
    refine ⟨?_, ?_, ?_⟩ <;> simp only [Ledger.next, party]
    · refine accounted_self h.leaves.isOpen ?_
      rw [hopen]
      exact .update (fun _ _ hhas => (hnothing hhas).elim) fun _ => ⟨_, rfl, rfl, rfl⟩
    · refine accounted_self h.leaves.interest ?_
      rw [hinterest]
      exact .refl fun _ hhas => (hnothing hhas).elim
    · refine accounted_self h.leaves.slots ?_
      rw [hslots]
      exact .refl fun _ hhas => (hnothing hhas).elim
  · rw [hattempt] at ho
    cases ho
    refine ⟨fun _ => .inl ?_, fun hp => ?_, fun hp => ?_⟩
    · rw [hopen]
      exact Function.update_self ..
    · rcases hp with hp | hp <;> cases hp
    · cases hp

/-- A step of the owner of the attempt. -/
theorem Accounts.own (h : Accounts l s) {act : Action} {o n : Owner} (party : act.party = .call)
    (hbefore : s.attempt = some o) (hs : Owner.Step s.reactor s'.reactor o n)
    (hattempt : s'.attempt = some n) : Accounts (l.next s act s') s' := by
  have hstands := h.stands o hbefore
  -- The owner before the step answers for what is its own, and the owner after it does.
  have hcarry {β : Type} {on : β → Prop} {before after : Nat → β} {P Q : Owner → Nat → Prop}
      (hc : Carries on before after (P o) (Q n)) :
      Carries on before after (fun m => ∃ x, s.attempt = some x ∧ P x m)
        (fun m => ∃ x, s'.attempt = some x ∧ Q x m) := by
    refine ⟨fun m heq hon hhas => ?_, fun m hne hon => ⟨n, hattempt, hc.new m hne hon⟩⟩
    obtain ⟨x, hx, hP⟩ := hhas
    cases hbefore.symm.trans hx
    exact ⟨n, hattempt, hc.same m heq hon hP⟩
  refine ⟨⟨?_, ?_, ?_⟩, fun x hx => ?_⟩
  · simp only [Ledger.next, party]
    exact accounted_self h.leaves.isOpen (hcarry hs.isOpen)
  · simp only [Ledger.next, party]
    exact accounted_self h.leaves.interest (hcarry hs.interest)
  · simp only [Ledger.next, party]
    exact accounted_self h.leaves.slots (hcarry hs.slots)
  · cases hattempt.symm.trans hx
    refine ⟨fun hup => ?_, fun hp => ?_, fun hp => .inl (hs.live hp).1⟩
    · obtain ⟨hup', hopen⟩ := hs.up hup
      rw [hs.fd]
      exact stands_of_eq (hstands.isOpen hup') (by rw [hopen])
    · rcases hp with hp | hp
      · exact .inl (hs.inserted hp)
      · obtain ⟨-, hinserted, hindex, hslots⟩ := hs.live hp
        rw [hindex]
        exact stands_of_eq (hstands.slots (.inl hinserted)) (by rw [hslots])

/-- A step of somebody else. -/
theorem Accounts.other (h : Accounts l s) {act : Action} (party : act.party = .others)
    (hattempt : s'.attempt = s.attempt) : Accounts (l.next s act s') s' := by
  have hne : Party.others ≠ Party.call := by decide
  refine ⟨?_, fun o ho => ?_⟩
  · rw [hattempt]
    refine ⟨?_, ?_, ?_⟩ <;> simp only [Ledger.next, party]
    · exact accounted_other hne h.leaves.isOpen fun _ hhas => hhas
    · exact accounted_other hne h.leaves.interest fun _ hhas => hhas
    · exact accounted_other hne h.leaves.slots fun _ hhas => hhas
  · rw [hattempt] at ho
    have hstands := h.stands o ho
    refine ⟨fun hp => ?_, fun hp => ?_, fun hp => ?_⟩ <;> simp only [Ledger.next, party]
    · exact stands_other (hstands.isOpen hp)
    · exact stands_other (hstands.slots hp)
    · exact stands_other (hstands.interest hp)

/-- Every step keeps the account of the attempt. -/
theorem accounts_step {act : Action} (howns : Owns s) (h : Accounts l s)
    (hs : step backend addrs s act = some s') : Accounts (l.next s act s') s' := by
  cases step_touch howns hs with
  | quiet hreactor hattempt =>
    rw [ledger_quiet hreactor]
    refine ⟨?_, fun o ho => ?_⟩
    · rw [hreactor, hattempt]
      exact h.leaves
    · rw [hreactor]
      exact h.stands o (hattempt ▸ ho)
  | finish hreactor hattempt o hbefore hundone =>
    -- The owner has undone everything, so nothing that is on is the call's.
    rw [ledger_quiet hreactor]
    have hnothing {P : Owner → Prop} {d : Descriptors.DropStep}
        (hhas : ∃ x, s.attempt = some x ∧ P x ∧ x.phase.Has d) :
        ∃ x, s'.attempt = some x ∧ P x ∧ x.phase.Has d := by
      obtain ⟨x, hx, -, hd⟩ := hhas
      cases hbefore.symm.trans hx
      rw [hundone] at hd
      cases hd
    refine ⟨⟨?_, ?_, ?_⟩, fun o ho => ?_⟩
    · rw [hreactor]
      exact fun n hn hon => hnothing (h.leaves.isOpen n hn hon)
    · rw [hreactor]
      exact fun n hn hon => hnothing (h.leaves.interest n hn hon)
    · rw [hreactor]
      exact fun n hn hon => hnothing (h.leaves.slots n hn hon)
    · rw [hattempt] at ho
      cases ho
  | opened fd party before step attempt => exact h.opened party before step attempt
  | own act' i party o n before at_ kind owner step after attempt =>
    exact h.own party before (Descriptors.step_own step owner at_ kind after) attempt
  | other act' party step attempt => exact h.other party attempt

/-- The accounts are right in every run. -/
theorem accounts_of_run {s₀ : State os} {labels : List Action}
    (h0 : (system backend addrs).init s₀) (hrun : (system backend addrs).run s₀ labels = some s) :
    Accounts (ledger backend addrs s₀ labels) s := by
  have hinit : Owns s₀ ∧ Accounts .new s₀ := by
    obtain ⟨reactor, -, rfl⟩ := h0
    refine ⟨.of_free rfl, ⟨?_, ?_, ?_⟩, fun o ho => by cases ho⟩ <;> intro n hn <;> cases hn
  refine (Lts.record_invariant (P := fun l s => Owns s ∧ Accounts l s) hrun hinit ?_).2
  rintro l s act s' ⟨howns, h⟩ hs
  exact ⟨owns_step howns hs, accounts_step howns h hs⟩

/-! ### What the call leaves open -/

/-- Whatever the call was the last to change is off: the number is closed, and the poller's entry
and the slot are gone. -/
structure LeavesNothing (l : Ledger) (r : Descriptors.State) : Prop where
  isOpen : ∀ n, l.isOpen n = some .call → r.kernel.isOpen n = false
  interest : ∀ n, l.interest n = some .call → r.kernel.interest n = none
  slots : ∀ n, l.slots n = some .call → r.slots n = false

/-- Whatever the call was the last to change is off, but for the number, the entry and the slot of
this stream. These are there, unless somebody else was the last to change them. -/
structure LeavesStream (l : Ledger) (r : Descriptors.State) (o : Owner) : Prop where
  stream : o.kind = .tcpStream ∧ o.phase = .live
  isOpen : ∀ n, l.isOpen n = some .call → n ≠ o.fd → r.kernel.isOpen n = false
  interest : ∀ n, l.interest n = some .call → n ≠ o.fd → r.kernel.interest n = none
  slots : ∀ n, l.slots n = some .call → n ≠ o.index → r.slots n = false
  opened : r.kernel.isOpen o.fd = true ∨ l.isOpen o.fd = some .others
  registered : r.kernel.interest o.fd = some o.token ∨ l.interest o.fd = some .others
  inserted : r.slots o.index = true ∨ l.slots o.index = some .others

/-- What `connect_any` leaves open, in every run. Its attempts are owners of the reactor's own
system. A call that failed or was dropped leaves nothing that is on, and one that succeeded leaves
the stream that it returns. -/
theorem connect_any_owns {s₀ : State os} {labels : List Action}
    (h0 : (system backend addrs).init s₀) (hrun : (system backend addrs).run s₀ labels = some s) :
    (Descriptors.system backend).Reachable s.reactor ∧
    ((∃ e, s.pc = .done (.error e)) ∨ s.pc = .dropped →
      LeavesNothing (ledger backend addrs s₀ labels) s.reactor) ∧
    (∀ i, s.pc = .done (.ok i) → ∃ o, s.reactor.owners[i]? = some o ∧
      LeavesStream (ledger backend addrs s₀ labels) s.reactor o) := by
  have hr : (system backend addrs).Reachable s := .of_run h0 hrun
  obtain ⟨hreactor, howns⟩ := reactor_of_reachable hr
  obtain ⟨hleaves, hstands⟩ := accounts_of_run h0 hrun
  refine ⟨hreactor, fun hpc => ?_, fun i hi => ?_⟩
  · -- No attempt is left that could answer for what is still on.
    have hfree : s.pc.free = true := by
      rcases hpc with ⟨e, hpc⟩ | hpc <;> simp [hpc, Pc.free]
    have hnothing {P : Owner → Prop} (h : ∃ o, s.attempt = some o ∧ P o) : False := by
      obtain ⟨o, ho, -⟩ := h
      rw [attempt_of_free hfree] at ho
      cases ho
    refine ⟨fun n hn => ?_, fun n hn => ?_, fun n hn => ?_⟩
    · exact Bool.eq_false_iff.mpr fun hon => hnothing (hleaves.isOpen n hn hon)
    · exact not_not.mp fun hon => hnothing (hleaves.interest n hn hon)
    · exact Bool.eq_false_iff.mpr fun hon => hnothing (hleaves.slots n hn hon)
  · -- The only attempt is the stream that the call returned.
    have hfree : s.pc.free = false := by simp [hi, Pc.free]
    obtain ⟨-, o, ho, hk, hlive⟩ := howns.attempt hfree
    obtain ⟨rfl, -⟩ := (result_of_reachable hr).ok i hi
    rw [hi] at hlive
    have hattempt := (attempt_of_open hfree).trans ho
    have hself {P : Owner → Prop} {key : Owner → Nat} {n : Nat}
        (h : ∃ x, s.attempt = some x ∧ key x = n ∧ P x) : n = key o := by
      obtain ⟨x, hx, hkey, -⟩ := h
      cases hattempt.symm.trans hx
      exact hkey.symm
    obtain ⟨hopen, hslots, hinterest⟩ := hstands o hattempt
    have hup : o.phase.up = true := by
      rw [show o.phase = .live from hlive]
      rfl
    refine ⟨o, ho, ⟨hk, hlive⟩, fun n hn hne => ?_, fun n hn hne => ?_, fun n hn hne => ?_,
      hopen hup, hinterest hlive, hslots (.inr hlive)⟩
    · exact Bool.eq_false_iff.mpr fun hon => hne (hself (hleaves.isOpen n hn hon))
    · exact not_not.mp fun hon => hne (hself (hleaves.interest n hn hon))
    · exact Bool.eq_false_iff.mpr fun hon => hne (hself (hleaves.slots n hn hon))

/-- The handshake with the first address fails, and the one with the second is established. The
stream of the second is all that is left open. It has the number that the first had, and somebody
else opened another one meanwhile. -/
theorem connect_any_owns_second :
    ∃ labels s, (system .epoll dualStack).run (new .linux (Descriptors.new fun _ => false)) labels =
        some s ∧ s.pc = .done (.ok 2) ∧
      (s.reactor.kernel.isOpen 3 = true ∧ s.reactor.kernel.interest 3 = some (makeToken 1 1)) ∧
      ∃ o, s.reactor.owners[2]? = some o ∧
        LeavesStream (ledger .epoll dualStack (new .linux (Descriptors.new fun _ => false)) labels)
          s.reactor o := by
  let labels : List Action := [.poll 5, .next, .socket (.ok 3), .connect (some 115), .nodelay none,
    .register, .register, .add none, .sendBuffer (some 16384), .soError none, .peerAddr, .park,
    .wakeSelf, .settle (some 111), .other (.openAt .udpSocket 4), .poll 5, .soError none, .close,
    .close, .close, .close, .next, .socket (.ok 3), .connect (some 115), .nodelay none, .register,
    .register, .add none, .sendBuffer (some 16384), .settle none, .soError none, .peerAddr]
  obtain ⟨s, hs, hpc, hopen, hinterest⟩ : ∃ s, (system .epoll dualStack).run
      (new .linux (Descriptors.new fun _ => false)) labels = some s ∧ s.pc = .done (.ok 2) ∧
      s.reactor.kernel.isOpen 3 = true ∧ s.reactor.kernel.interest 3 = some (makeToken 1 1) :=
    ⟨_, rfl, rfl, rfl, rfl⟩
  exact ⟨labels, s, hs, hpc, ⟨hopen, hinterest⟩, (connect_any_owns init_dualStack hs).2.2 2 hpc⟩

end Nagoya.Net.Connect
