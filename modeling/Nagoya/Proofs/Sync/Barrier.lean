import Nagoya.Proofs.Sync.Listener
import Nagoya.Sync.Barrier

/-!
# `Nagoya.Proofs.Sync.Barrier`: groups of exactly `n`, in order

The arrival with number `k` belongs to group `k / n`, and it is the last of its group when `n`
divides `k + 1`. `Inv` says that the barrier's count and generation are the remainder and the
quotient of the number of arrivals, so the arrival that the code makes a leader is the last of
its group.

A call in its loop has checked the generation after it registered. While its slot is queued, no
broadcast came since. So if its group is complete, the leader that completed it has not
broadcast yet (`Inv.attentive`). Broadcasts of earlier groups wake such a call early; it
registers again and checks again.
-/

set_option autoImplicit false

namespace Nagoya.Sync.Barrier

open Nagoya.Lib

/-- The number of the arrival of a call. -/
def Wait.number : Wait → Option Nat
  | .arrive => none
  | .leader number | .waking number | .waiting _ number | .returned _ number => some number

/-- The client's states of the tasks. -/
def State.works (s : State) : List Wait := s.tasks.map Task.work

/-- What a call knows of its number, when there were `arrivals` in a barrier of `n`. -/
def Wait.Ok (n arrivals : Nat) : Wait → Prop
  | .arrive => True
  | .leader k | .waking k | .returned true k => (k + 1) % n = 0
  | .waiting g k => (k + 1) % n ≠ 0 ∧ g = k / n
  | .returned false k => (k + 1) % n ≠ 0 ∧ k / n < arrivals / n

/-- The leader of group `g` has not broadcast yet. -/
def State.LeaderPending (s : State) (n g : Nat) : Prop :=
  ∃ k, .leader k ∈ s.works ∧ k / n = g

/-- The invariant. -/
structure Inv (n : Nat) (s : State) : Prop where
  tended : Task.Tended s.notify s.tasks
  arrived : s.state.arrived = s.arrivals % n
  generation : s.state.generation = s.arrivals / n
  /-- The calls that have arrived are numbered in order. -/
  number : ∀ k, k < s.arrivals ↔ ∃ i, attr Wait.number s.works i = some k
  distinct : Exclusive (attr Wait.number s.works)
  works : ∀ w ∈ s.works, w.Ok n s.arrivals
  /-- Only a waiting call is in its loop. -/
  idle : ∀ (i : Nat) t, s.tasks[i]? = some t → (∀ g k, t.work ≠ .waiting g k) → t.listen = .left
  /-- A call leaves its loop when its group is complete. -/
  out : ∀ (i : Nat) t g k, s.tasks[i]? = some t → t.work = .waiting g k → t.listen.out = true →
    k / n < s.arrivals / n
  attentive : ∀ (i : Nat) t g k, s.tasks[i]? = some t → t.work = .waiting g k →
    t.listen.Attentive s.notify → k / n < s.arrivals / n → s.LeaderPending n (k / n)

/-- The rendezvous are fewer than the values of `usize`. -/
def Bounded [Target] (n : Nat) (_ : State) (_ : Action) (s : State) : Prop :=
  s.arrivals / n < usizeModulus

instance [Target] (n : Nat) (s : State) (a : Action) (s' : State) :
    Decidable (Bounded n s a s') :=
  inferInstanceAs (Decidable (_ < _))

/-- A new barrier meets the invariant. -/
theorem inv_new [Target] (n : Nat) : Inv n new := by
  obtain ⟨a, ha⟩ := NotifySystem.inv_init new.notify rfl
  refine ⟨⟨⟨a, ha⟩, by simp [new], ?_, by simp [new]⟩, ?_, ?_, ?_, ?_, by simp [State.works, new],
    by simp [new], by simp [new], by simp [new]⟩
  · intro i j f hi
    simp [new, attr] at hi
  · exact (Nat.zero_mod n).symm
  · exact (Nat.zero_div n).symm
  · intro k
    simp [new, State.works, attr]
  · intro i j k hi
    simp [new, State.works, attr] at hi

/-- A step that touches neither the barrier nor the client's states, and no condition. -/
theorem Inv.frame {n : Nat} {s s' : State} (h : Inv n s) (htend : Task.Tended s'.notify s'.tasks)
    (hstate : s'.state = s.state) (harr : s'.arrivals = s.arrivals) (hworks : s'.works = s.works)
    (htask : ∀ (j : Nat) t', s'.tasks[j]? = some t' → ∃ t, s.tasks[j]? = some t ∧
      t'.work = t.work ∧ (t.listen = .left → t'.listen = .left) ∧
      (t'.listen.out = true → t.listen.out = true ∨
        ∀ g k, t.work = .waiting g k → k / n < s.arrivals / n) ∧
      (t'.listen.Attentive s'.notify → t.listen.Attentive s.notify ∨
        ∀ g k, t.work = .waiting g k → k / n = s.arrivals / n)) : Inv n s' := by
  refine ⟨htend, by rw [hstate, harr]; exact h.arrived, by rw [hstate, harr]; exact h.generation,
    by rw [harr, hworks]; exact h.number, by rw [hworks]; exact h.distinct,
    by rw [hworks, harr]; exact h.works, ?_, ?_, ?_⟩
  · intro j t' hj hne
    obtain ⟨t, ht, hw, hleft, -⟩ := htask j t' hj
    exact hleft (h.idle j t ht (by rw [← hw]; exact hne))
  · -- A call is out of its loop only if it was, or if it saw that its group is complete.
    intro j t' g k hj hwait hout
    obtain ⟨t, ht, hw, -, hout', -⟩ := htask j t' hj
    rw [hw] at hwait
    rw [harr]
    rcases hout' hout with hout | hdone
    · exact h.out j t g k ht hwait hout
    · exact hdone g k hwait
  · -- One that has just passed its check is of the group that is still open.
    intro j t' g k hj hwait hatt hcomplete
    obtain ⟨t, ht, hw, -, -, hatt'⟩ := htask j t' hj
    rw [hw] at hwait
    rw [harr] at hcomplete
    unfold State.LeaderPending
    rw [hworks]
    rcases hatt' hatt with hatt | hopen
    · exact h.attentive j t g k ht hwait hatt hcomplete
    · have := hopen g k hwait
      omega

/-- The next arrival completes the group, or it only counts. -/
theorem succ_group {n : Nat} (hn : 1 ≤ n) (a : Nat) :
    (a % n + 1 ≥ n → (a + 1) % n = 0 ∧ (a + 1) / n = a / n + 1) ∧
      (¬ a % n + 1 ≥ n → (a + 1) % n = a % n + 1 ∧ (a + 1) / n = a / n) := by
  have hlt := Nat.mod_lt a hn
  have hdiv := Nat.div_add_mod a n
  constructor
  · intro hfull
    have hsucc : a + 1 = n * (a / n + 1) := by
      rw [Nat.mul_add]
      omega
    exact ⟨by rw [hsucc, Nat.mul_mod_right], by rw [hsucc, Nat.mul_div_cancel_left _ hn]⟩
  · intro hroom
    have hsucc : a + 1 = n * (a / n) + (a % n + 1) := by omega
    have hlt' : a % n + 1 < n := by omega
    constructor
    · rw [hsucc, Nat.mul_add_mod, Nat.mod_eq_of_lt hlt']
    · rw [hsucc, Nat.mul_add_div hn, Nat.div_eq_of_lt hlt', Nat.add_zero]

/-- What a call knows stays true when others arrive. -/
theorem Wait.Ok.mono {n a b : Nat} {w : Wait} (h : w.Ok n a) (hab : a ≤ b) : w.Ok n b := by
  cases w with
  | arrive => trivial
  | leader k | waking k | waiting g k => exact h
  | returned result k =>
    cases result with
    | true => exact h
    | false => exact ⟨h.1, Nat.lt_of_lt_of_le h.2 (Nat.div_le_div_right hab)⟩

/-- A number that was given out is smaller than the number of arrivals. -/
theorem Inv.number_lt {n : Nat} {s : State} (h : Inv n s) {i : Nat} {t : Task Wait} {k : Nat}
    (hi : s.tasks[i]? = some t) (hk : t.work.number = some k) : k < s.arrivals := by
  refine (h.number k).mpr ⟨i, ?_⟩
  unfold attr State.works
  rw [List.getElem?_map, hi]
  exact hk

/-- The work of a task is one of the client's states. -/
theorem State.works_of_some {s : State} {i : Nat} {t : Task Wait} (hi : s.tasks[i]? = some t) :
    s.works[i]? = some t.work := by
  unfold State.works
  rw [List.getElem?_map, hi]
  rfl

/-- A pending leader stays pending when another call moves. -/
theorem State.LeaderPending.set {s s' : State} {n g i : Nat} {w w' : Wait}
    (h : s.LeaderPending n g) (hi : s.works[i]? = some w) (hw : ∀ k, w ≠ .leader k)
    (hs : s'.works = s.works.set i w') : s'.LeaderPending n g := by
  obtain ⟨k, hmem, hk⟩ := h
  refine ⟨k, ?_, hk⟩
  rw [hs]
  rcases mem_set_of_mem hi w' hmem with heq | hmem
  · exact absurd heq.symm (hw k)
  · exact hmem

/-- Every element of a replaced pool is the new one or an old one. -/
theorem works_set_ok {n a b : Nat} {l : List Wait} {i : Nat} {w' : Wait}
    (h : ∀ w ∈ l, w.Ok n a) (hab : a ≤ b) (hw' : w'.Ok n b) : ∀ w ∈ l.set i w', w.Ok n b := by
  intro w hw
  rcases List.mem_or_eq_of_mem_set hw with hw | rfl
  · exact (h w hw).mono hab
  · exact hw'

/-- How one call moves by a step of its own. -/
structure Moves (n : Nat) (s s' : State) (i : Nat) (t : Task Wait) (work : Wait)
    (listen : Listen) : Prop where
  was : s.tasks[i]? = some t
  tasks : Task.workAt s.tasks i work listen = some s'.tasks
  notify : s'.notify = s.notify
  arrived : s'.state.arrived = s'.arrivals % n
  generation : s'.state.generation = s'.arrivals / n
  arrivals : s.arrivals ≤ s'.arrivals
  number : ∀ k, k < s'.arrivals ↔ ∃ j, attr Wait.number (s.works.set i work) j = some k
  distinct : Exclusive (attr Wait.number (s.works.set i work))
  ok : work.Ok n s'.arrivals
  starts : listen = .create ∨ listen = .left
  idle : (∀ g k, work ≠ .waiting g k) → listen = .left
  inside : ∀ g k, work = .waiting g k → listen = .create
  /-- The call is not a leader that owes a broadcast. -/
  owes : ∀ k, t.work ≠ .leader k
  /-- A group that is completed by the step has a leader. -/
  leader : ∀ g, s.arrivals / n ≤ g → g < s'.arrivals / n → s'.LeaderPending n g

/-- A call that moves by a step of its own keeps the invariant. -/
theorem inv_moves {n : Nat} {s s' : State} (h : Inv n s) {i : Nat} {t : Task Wait} {work : Wait}
    {listen : Listen} (hm : Moves n s s' i t work listen) : Inv n s' := by
  -- The calls that did not move keep what they know, since arrivals only grow in number.
  have hwi := State.works_of_some hm.was
  have hworks : s'.works = s.works.set i work := Task.workAt_works hm.tasks
  have hmono : s.arrivals / n ≤ s'.arrivals / n := Nat.div_le_div_right hm.arrivals
  refine ⟨?_, hm.arrived, hm.generation, by rw [hworks]; exact hm.number,
    by rw [hworks]; exact hm.distinct,
    by rw [hworks]; exact works_set_ok h.works hm.arrivals hm.ok, ?_, ?_, ?_⟩
  · rw [hm.notify]
    exact Task.tended_workAt h.tended hm.was (.inr hm.starts) hm.tasks
  · intro j t' hj hne
    rcases Task.workAt_task hm.tasks hj with ⟨-, rfl⟩ | ⟨-, hj⟩
    · exact hm.idle hne
    · exact h.idle j t' hj hne
  · intro j t' g k hj hwait hout
    rcases Task.workAt_task hm.tasks hj with ⟨-, rfl⟩ | ⟨-, hj⟩
    · rw [show listen = .create from hm.inside g k hwait] at hout
      cases hout
    · exact Nat.lt_of_lt_of_le (h.out j t' g k hj hwait hout) hmono
  · intro j t' g k hj hwait hatt hcomplete
    rcases Task.workAt_task hm.tasks hj with ⟨-, rfl⟩ | ⟨-, hj⟩
    · rw [show listen = .create from hm.inside g k hwait] at hatt
      obtain ⟨f, hf, -⟩ := hatt
      cases hf
    · rw [hm.notify] at hatt
      -- The group was complete before this step, or it is the one that the step completes.
      by_cases hbefore : k / n < s.arrivals / n
      · exact (h.attentive j t' g k hj hwait hatt hbefore).set hwi hm.owes hworks
      · exact hm.leader (k / n) (by omega) hcomplete

/-- The section that counts an arrival keeps the invariant. -/
theorem inv_arrive [Target] {n : Nat} (hn : 1 ≤ n) {s s' : State} (h : Inv n s) {i : Nat}
    (hs : step n s (.arrive i) = some s') (hb : Bounded n s (.arrive i) s') : Inv n s' := by
  simp only [step] at hs
  split at hs
  · rename_i listen wakes hi
    obtain ⟨hfull, hroom⟩ := succ_group hn s.arrivals
    have hwi := State.works_of_some hi
    obtain ⟨tasks, hwork, rfl⟩ := Option.map_eq_some_iff.mp hs
    -- The number of the arrival is new, and it goes to this call.
    have hnumber : ∀ work : Wait, work.number = some s.arrivals →
        (∀ k, k < s.arrivals + 1 ↔ ∃ j, attr Wait.number (s.works.set i work) j = some k) ∧
          Exclusive (attr Wait.number (s.works.set i work)) := by
      intro work hk
      rw [attr_set Wait.number hwi, hk]
      constructor
      · intro k
        constructor
        · intro hlt
          -- The new number is that of this call, and the others keep theirs.
          by_cases hlast : k = s.arrivals
          · exact ⟨i, by rw [Function.update_self, hlast]⟩
          · obtain ⟨j, hj⟩ := (h.number k).mp (by omega)
            refine ⟨j, ?_⟩
            rw [Function.update_of_ne, hj]
            rintro rfl
            rw [attr_of_some Wait.number hwi] at hj
            cases hj
        · rintro ⟨j, hj⟩
          rw [Function.update_apply] at hj
          split at hj
          · cases hj
            omega
          · have := (h.number k).mpr ⟨j, hj⟩
            omega
      · refine h.distinct.update_some fun j _ hj => ?_
        have := (h.number s.arrivals).mpr ⟨j, hj⟩
        omega
    unfold arrive at hwork ⊢
    rw [h.arrived] at hwork ⊢
    -- The group is complete with this arrival exactly when the remainder is `n - 1`.
    by_cases hlast : s.arrivals % n + 1 ≥ n
    · -- The arrival completes its group and is its leader.
      simp only [if_pos hlast] at hwork ⊢
      obtain ⟨hmod, hdiv⟩ := hfull hlast
      have hgen : usizeAdd s.state.generation 1 = (s.arrivals + 1) / n := by
        rw [h.generation, hdiv]
        refine usizeAdd_of_lt ?_
        rw [← hdiv]
        exact hb
      obtain ⟨hnum, hdist⟩ := hnumber (.leader s.arrivals) rfl
      refine inv_moves h ⟨hi, hwork, rfl, hmod.symm, hgen, Nat.le_succ _, hnum, hdist, hmod,
        .inr rfl, fun _ => rfl, by simp, by simp, ?_⟩
      intro g hge hlt
      have hlt : g < (s.arrivals + 1) / n := hlt
      refine ⟨s.arrivals, ?_, by omega⟩
      rw [show State.works _ = (s.tasks.map Task.work).set i _ from Task.workAt_works hwork]
      exact mem_set_of_some hwi _
    · -- An arrival that is not the last leaves the generation as it is, and the call is in its
      -- loop.
      simp only [if_neg hlast] at hwork ⊢
      obtain ⟨hmod, hdiv⟩ := hroom hlast
      obtain ⟨hnum, hdist⟩ := hnumber (.waiting s.state.generation s.arrivals) rfl
      have hmod0 : (s.arrivals + 1) % n ≠ 0 := by omega
      refine inv_moves h ⟨hi, hwork, rfl, hmod.symm, h.generation.trans hdiv.symm, Nat.le_succ _,
        hnum, hdist, ⟨hmod0, h.generation⟩, .inl rfl, ?_, fun _ _ _ => rfl, by simp, ?_⟩
      · intro hne
        exact absurd rfl (hne _ _)
      · -- No group is completed by this arrival.
        intro g hge hlt
        have hlt : g < (s.arrivals + 1) / n := hlt
        omega
  · cases hs

/-- A step of a loop keeps the invariant, when the check it takes is right. -/
theorem inv_listen [Target] {n : Nat} {s : State} (h : Inv n s) {i : Nat} {e : Listen.Event}
    {notify : NotifySystem.State} {tasks : List (Task Wait)}
    (hs : Task.listenAt s.notify s.tasks i e = some (notify, tasks)) (hcancel : e ≠ .cancel)
    (hleave : e = .leave → ∀ t g k, s.tasks[i]? = some t → t.work = .waiting g k →
      k / n < s.arrivals / n)
    (hpass : e = .pass → ∀ t g k, s.tasks[i]? = some t → t.work = .waiting g k →
      k / n = s.arrivals / n) : Inv n { s with notify, tasks } := by
  refine h.frame (Task.tended_listenAt h.tended hs) rfl rfl (Task.listenAt_works hs) ?_
  intro j t' hj
  obtain ⟨t, ht, hw, hleft, hout, hatt⟩ := Task.listenAt_task h.tended hs hj
  refine ⟨t, ht, hw, hleft, ?_, ?_⟩
  · intro ho
    -- The loop is left after a check that saw the next generation, since this step is no drop.
    rcases hout ho with ho | ⟨rfl, rfl | rfl⟩
    · exact .inl ho
    · exact .inr fun g k hk => hleave rfl t g k ht hk
    · exact absurd rfl hcancel
  · intro ha
    rcases hatt ha with ha | ⟨rfl, rfl⟩
    · exact .inl ha
    · exact .inr fun g k hk => hpass rfl t g k ht hk

/-- The broadcast of a leader keeps the invariant: afterwards nobody is attentive. -/
theorem inv_broadcast [Target] {n : Nat} {s : State} (h : Inv n s) {i : Nat} {t : Task Wait}
    {k : Nat} {notify : NotifySystem.State} {tasks : List (Task Wait)}
    (hi : s.tasks[i]? = some t) (hwork : t.work = .leader k)
    (hs : Task.broadcastAt s.notify s.tasks i (.waking k) = some (notify, tasks)) :
    Inv n { s with notify, tasks } := by
  have hwi := State.works_of_some hi
  rw [hwork] at hwi
  have hworks : State.works { s with notify, tasks } = s.works.set i (.waking k) :=
    Task.broadcastAt_works hs
  have hattr : attr Wait.number (s.works.set i (.waking k)) = attr Wait.number s.works :=
    attr_set_of_eq Wait.number hwi rfl
  -- The numbers are those of before, since the leader keeps its own.
  refine ⟨Task.tended_broadcastAt h.tended hs, h.arrived, h.generation,
    by rw [hworks, hattr]; exact h.number, by rw [hworks, hattr]; exact h.distinct, ?_, ?_, ?_, ?_⟩
  · have hlast : Wait.Ok n s.arrivals (.leader k) := h.works _ (List.mem_of_getElem? hwi)
    rw [hworks]
    exact works_set_ok h.works (Nat.le_refl _) hlast
  · intro j t' hj hne
    rcases Task.broadcastAt_task hs hj with ⟨t₀, hji, ht₀, hw, hl⟩ | ⟨-, hj⟩
    · rw [hl]
      refine h.idle j t₀ ht₀ fun g k' hk => ?_
      rw [hji, hi] at ht₀
      cases ht₀
      rw [hwork] at hk
      cases hk
    · exact h.idle j t' hj hne
  · intro j t' g k' hj hwait hout
    rcases Task.broadcastAt_task hs hj with ⟨t₀, -, -, hw, -⟩ | ⟨-, hj⟩
    · rw [hw] at hwait
      cases hwait
    · exact h.out j t' g k' hj hwait hout
  · -- Every slot was granted by the broadcast, so nobody is queued.
    intro j t' g k' _ _ hatt
    exact absurd hatt (Task.not_attentive_broadcastAt h.tended hs t'.listen)

/-- The return of a call keeps the invariant. -/
theorem inv_ret {n : Nat} {s : State} (h : Inv n s) {i : Nat} {t : Task Wait} {k : Nat}
    {r : Bool} {tasks : List (Task Wait)} (hi : s.tasks[i]? = some t)
    (hk : t.work.number = some k) (howes : ∀ k, t.work ≠ .leader k)
    (hok : Wait.Ok n s.arrivals (.returned r k))
    (hs : Task.workAt s.tasks i (.returned r k) .left = some tasks) :
    Inv n { s with tasks } := by
  have hattr : attr Wait.number (s.works.set i (.returned r k)) = attr Wait.number s.works :=
    attr_set_of_eq Wait.number (State.works_of_some hi) hk.symm
  refine inv_moves h ⟨hi, hs, rfl, h.arrived, h.generation, Nat.le_refl _, ?_, ?_, hok, .inr rfl,
    fun _ => rfl, by simp, howes, ?_⟩
  · rw [hattr]
    exact h.number
  · rw [hattr]
    exact h.distinct
  · intro g hge hlt
    exact absurd hlt (Nat.not_lt.mpr hge)

/-- A new call keeps the invariant. -/
theorem inv_wait {n : Nat} {s : State} (h : Inv n s) :
    Inv n { s with tasks := s.tasks ++ [{ work := .arrive, listen := .left, wakes := [] }] } := by
  have hworks : State.works
      { s with tasks := s.tasks ++ [{ work := .arrive, listen := .left, wakes := [] }] }
      = s.works ++ [.arrive] := by
    simp [State.works]
  have hattr : attr Wait.number (s.works ++ [.arrive]) = attr Wait.number s.works :=
    attr_append_of_none Wait.number s.works rfl
  refine ⟨Task.tended_push h.tended _, h.arrived, h.generation,
    by rw [hworks, hattr]; exact h.number, by rw [hworks, hattr]; exact h.distinct, ?_, ?_, ?_, ?_⟩
  · rw [hworks]
    intro w hw
    rcases List.mem_append.mp hw with hw | hw
    · exact h.works w hw
    · rw [List.mem_singleton.mp hw]
      trivial
  · intro j t' hj hne
    rcases getElem?_append_singleton hj with hj | ⟨-, rfl⟩
    · exact h.idle j t' hj hne
    · rfl
  · intro j t' g k hj hwait hout
    rcases getElem?_append_singleton hj with hj | ⟨-, rfl⟩
    · exact h.out j t' g k hj hwait hout
    · cases hwait
  · intro j t' g k hj hwait hatt hcomplete
    rcases getElem?_append_singleton hj with hj | ⟨-, rfl⟩
    · obtain ⟨x, hx, hxg⟩ := h.attentive j t' g k hj hwait hatt hcomplete
      refine ⟨x, ?_, hxg⟩
      rw [hworks]
      exact List.mem_append_left _ hx
    · cases hwait

/-- Every bounded step keeps the invariant. -/
theorem inv_step [Target] {n : Nat} (hn : 1 ≤ n) {s s' : State} {act : Action} (h : Inv n s)
    (hs : step n s act = some s') (hb : Bounded n s act s') : Inv n s' := by
  cases act with
  | wait =>
    cases hs
    exact inv_wait h
  | arrive i => exact inv_arrive hn h hs hb
  | notifyWaiters i =>
    simp only [step] at hs
    split at hs
    · rename_i k listen wakes hi
      obtain ⟨⟨notify, tasks⟩, hcast, rfl⟩ := Option.map_eq_some_iff.mp hs
      exact inv_broadcast h hi rfl hcast
    · cases hs
  | advance i =>
    simp only [step] at hs
    obtain ⟨⟨notify, tasks⟩, hl, rfl⟩ := Option.map_eq_some_iff.mp hs
    exact inv_listen h hl (by simp) (by simp) (by simp)
  | poll i waker =>
    simp only [step] at hs
    obtain ⟨⟨notify, tasks⟩, hl, rfl⟩ := Option.map_eq_some_iff.mp hs
    exact inv_listen h hl (by simp) (by simp) (by simp)
  | check i =>
    simp only [step] at hs
    split at hs
    · rename_i g k listen wakes hi
      obtain ⟨⟨notify, tasks⟩, hl, rfl⟩ := Option.map_eq_some_iff.mp hs
      -- The generation the call kept is the number of its group.
      have hok : Wait.Ok n s.arrivals (.waiting g k) :=
        h.works _ (List.mem_of_getElem? (State.works_of_some hi))
      have hk : k < s.arrivals := h.number_lt hi rfl
      have hle : k / n ≤ s.arrivals / n := Nat.div_le_div_right (Nat.le_of_lt hk)
      rw [h.generation, hok.2] at hl
      refine inv_listen h hl (by split <;> simp) ?_ ?_
      · intro he t g' k' ht hwork
        rw [hi] at ht
        cases ht
        cases hwork
        have hne : s.arrivals / n ≠ k / n := by
          intro heq
          simp [heq] at he
        omega
      · intro he t g' k' ht hwork
        rw [hi] at ht
        cases ht
        cases hwork
        by_contra hne
        simp [Ne.symm hne] at he
    · cases hs
  | wake i =>
    simp only [step] at hs
    obtain ⟨tasks, hw, rfl⟩ := Option.map_eq_some_iff.mp hs
    refine h.frame (Task.tended_wakeAt h.tended hw) rfl rfl (Task.wakeAt_works hw) ?_
    intro j t' hj
    obtain ⟨t, ht, hwork, hleft, hout, hatt⟩ := Task.attentive_wakeAt hw hj
    exact ⟨t, ht, hwork, hleft, fun ho => .inl (hout ho), fun ha => .inl (hatt ha)⟩
  | ret i =>
    simp only [step] at hs
    split at hs
    · rename_i k listen wakes hi
      obtain ⟨tasks, hw, rfl⟩ := Option.map_eq_some_iff.mp hs
      have hok : Wait.Ok n s.arrivals (.waking k) :=
        h.works _ (List.mem_of_getElem? (State.works_of_some hi))
      exact inv_ret h hi rfl (by simp) (r := true) hok hw
    · rename_i g k wakes hi
      obtain ⟨tasks, hw, rfl⟩ := Option.map_eq_some_iff.mp hs
      have hok : Wait.Ok n s.arrivals (.waiting g k) :=
        h.works _ (List.mem_of_getElem? (State.works_of_some hi))
      exact inv_ret h hi rfl (by simp) (r := false) ⟨hok.1, h.out i _ g k hi rfl rfl⟩ hw
    · cases hs

/-- The invariant holds along every bounded run. -/
theorem inv_of_reach [Target] {n : Nat} (hn : 1 ≤ n) {s : State}
    (hr : (system n).Reach (Bounded n) s) : Inv n s :=
  hr.invariant (fun _ h0 => h0 ▸ inv_new n) fun _ _ _ hi hs hb => inv_step hn hi hs hb

end Nagoya.Sync.Barrier
