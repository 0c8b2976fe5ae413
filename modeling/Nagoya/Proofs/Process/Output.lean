import Nagoya.Process.Output
import Nagoya.Proofs.Reactor.Driver

/-!
# `Nagoya.Proofs.Process.Output`: nothing that a child wrote is lost

What a child wrote to a pipe is what was collected, then what a read has just handed over, then
what is in the pipe (`PipeInv.bytes`). At end of file the last two are empty.

The edges are those of one reader for each pipe, as in `Nagoya.Proofs.Net.TcpRead`: unread bytes
are known to the slot, or the drain is about to read, or an event is on its way. Both drains run
in each poll, one after the other, so what holds of the first pipe when its drain has parked has
to survive the steps of the second. `Inv.parked` says it for a pipe whose drain is over in this
poll (`Pc.Settled`), and at the suspension that is both.
-/

set_option autoImplicit false

namespace Nagoya

open Nagoya.Lib Nagoya.Reactor

namespace Output

/-! ### The invariant -/

/-- An event for the reader of a pipe is queued, or collected and not yet dispatched. -/
def Due (p : Pipe) : Prop := p.queued = true ∨ ∃ e ∈ p.collected, e.forReader = true

/-- The waker is parked with no readiness cached, or a dispatch has taken it and is about to wake
it. -/
def Parked (p : Pipe) (waker : Waker) : Prop :=
  (p.slot.reader = some waker ∧ p.slot.readable = false ∧ p.slot.hangup = false) ∨
    waker ∈ p.waking

/-- The drain of `d` is running. -/
def Pc.At (d : Stream) : Pc → Prop
  | .drain d' => d' = d
  | .take d' => d' = d
  | .read d' => d' = d
  | .mark d' _ => d' = d
  | _ => False

/-- The drain of `d` took readiness and has not yet found the pipe empty. -/
def Pc.Holds (d : Stream) : Pc → Prop
  | .read d' => d' = d
  | .mark d' _ => d' = d
  | _ => False

/-- The bytes that a read of `d` handed over and that are not collected yet. -/
def Pc.inflight (d : Stream) : Pc → List UInt8
  | .mark d' (.bytes data) => if d' = d then data else []
  | _ => []

/-- The drain of `d` is over in the running poll, or in the last one. -/
def Pc.Settled (d : Stream) : Pc → Prop
  | .suspended => True
  | .combine => True
  | pc => pc.At .stderr ∧ d = .stdout

/-- What holds of one pipe. `holds` and `inflight` are what the future has in its hands. -/
structure PipeInv (p : Pipe) (holds : Prop) (inflight : List UInt8) : Prop where
  bytes : p.written = p.into ++ inflight ++ p.data
  eof : p.held = false → p.closed = true ∧ p.data = []
  hangup : p.held = true → p.closed = true →
    p.slot.hangup = true ∨ p.queued = true ∨ ∃ e ∈ p.collected, e.hangup = true
  unread : p.held = true → p.data ≠ [] → p.slot.readable = false → p.slot.hangup = false →
    ¬holds → Due p

/-- The invariant of the system. -/
structure Inv (s : State) : Prop where
  pipe (d : Stream) : PipeInv (s.pipes d) (s.pc.Holds d) (s.pc.inflight d)
  found (d : Stream) : s.pc = .mark d (.bytes []) →
    (s.pipes d).closed = true ∧ (s.pipes d).data = []
  parked (d : Stream) : s.pc.Settled d → s.drained d = none → s.woken = false →
    (s.pipes d).held = true → Parked (s.pipes d) s.waker
  ended (d : Stream) : s.pc.Settled d → s.drained d = some (.ok ()) → (s.pipes d).held = false
  pending (d : Stream) : s.pc = .suspended → (s.pipes d).held = true → s.drained d = none
  finished (d : Stream) : (s.pc = .wait ∨ s.pc = .waiting ∨ ∃ o, s.pc = .returned (.ok o)) →
    (s.pipes d).held = false
  output (o : Collected) : s.pc = .returned (.ok o) →
    o.stdout = (s.pipes .stdout).into ∧ o.stderr = (s.pipes .stderr).into

variable {s s' : State} {d d' : Stream} {p : Pipe} {pc : Pc} {holds : Prop}
  {inflight : List UInt8}

@[simp] theorem setPipe_self (s : State) (d : Stream) (p : Pipe) : (s.setPipe d p).pipes d = p :=
  Function.update_self ..

theorem setPipe_of_ne (s : State) (p : Pipe) (h : d' ≠ d) :
    (s.setPipe d p).pipes d' = s.pipes d' :=
  Function.update_of_ne h ..

@[simp] theorem setPipe_pipes (s : State) (d : Stream) : s.setPipe d (s.pipes d) = s := by
  unfold State.setPipe
  rw [Function.update_eq_self]

/-! ### The future's hands -/

theorem Pc.At.unique (h : pc.At d) (h' : pc.At d') : d' = d := by
  cases pc <;> simp_all [Pc.At]

theorem Pc.At.of_holds (h : pc.Holds d) : pc.At d := by
  cases pc <;> simp_all [Pc.At, Pc.Holds]

theorem Pc.At.inflight_of_ne (h : pc.At d) (hne : d' ≠ d) : pc.inflight d' = [] := by
  unfold Pc.inflight
  split
  · rename_i d'' data
    have hd : d'' = d := h
    rw [hd, if_neg hne.symm]
  · rfl

/-- While a drain is running the other one is settled exactly when it was the first. -/
theorem Pc.At.settled_iff (h : pc.At d) : pc.Settled d' ↔ d = .stderr ∧ d' = .stdout := by
  have hpc : pc.Settled d' ↔ pc.At .stderr ∧ d' = .stdout := by
    cases pc <;> simp_all [Pc.Settled, Pc.At]
  rw [hpc]
  exact and_congr_left fun _ => ⟨fun h' => (h'.unique h), fun hd => hd ▸ h⟩

/-! ### The environment's steps -/

/-- A change of one pipe that keeps what the future knows of it. -/
theorem Inv.environment (h : Inv s) (hp : PipeInv p (s.pc.Holds d) (s.pc.inflight d))
    (hheld : p.held = (s.pipes d).held) (hinto : p.into = (s.pipes d).into)
    (hfound : (s.pipes d).closed = true ∧ (s.pipes d).data = [] → p.closed = true ∧ p.data = [])
    (hparked : s.woken = false → (s.pipes d).held = true → Parked (s.pipes d) s.waker →
      Parked p s.waker) : Inv (s.setPipe d p) := by
  -- Only this pipe changes, and not in what the program holds or has read of it.
  have hheld' (d' : Stream) : ((s.setPipe d p).pipes d').held = (s.pipes d').held := by
    by_cases hd : d' = d
    · rw [hd, setPipe_self, hheld]
    · rw [setPipe_of_ne s p hd]
  have hinto' (d' : Stream) : ((s.setPipe d p).pipes d').into = (s.pipes d').into := by
    by_cases hd : d' = d
    · rw [hd, setPipe_self, hinto]
    · rw [setPipe_of_ne s p hd]
  refine ⟨fun d' => ?_, fun d' hpc => ?_, fun d' hs hd hw hh => ?_, fun d' hs hd => ?_,
    fun d' hpc hh => ?_, fun d' hpc => ?_, fun o hpc => ?_⟩
  · by_cases hd : d' = d
    · rw [hd, setPipe_self]
      exact hp
    · rw [setPipe_of_ne s p hd]
      exact h.pipe d'
  · have hold := h.found d' hpc
    by_cases hd : d' = d
    · subst hd
      rw [setPipe_self]
      exact hfound hold
    · rw [setPipe_of_ne s p hd]
      exact hold
  · rw [hheld'] at hh
    have hold := h.parked d' hs hd hw hh
    by_cases hd : d' = d
    · subst hd
      rw [setPipe_self]
      exact hparked hw hh hold
    · rw [setPipe_of_ne s p hd]
      exact hold
  · rw [hheld']
    exact h.ended d' hs hd
  · rw [hheld'] at hh
    exact h.pending d' hpc hh
  · rw [hheld']
    exact h.finished d' hpc
  · rw [hinto', hinto']
    exact h.output o hpc

/-- The child writes. Bytes that come into an empty pipe queue an event. -/
theorem Inv.write (h : Inv s) (bytes : List UInt8) (notify : Bool)
    (hopen : (s.pipes d).closed = false) :
    Inv (s.setPipe d { s.pipes d with
      data := (s.pipes d).data ++ bytes
      written := (s.pipes d).written ++ bytes
      queued := (s.pipes d).queued || notify || decide ((s.pipes d).data = []) }) := by
  have hp := h.pipe d
  refine h.environment ⟨?_, ?_, ?_, ?_⟩ rfl rfl ?_ fun _ _ hparked => hparked
  · show (s.pipes d).written ++ bytes = _ ++ ((s.pipes d).data ++ bytes)
    rw [hp.bytes, List.append_assoc]
  · intro hh
    rw [(hp.eof hh).1] at hopen
    cases hopen
  · intro _ hc
    rw [show (s.pipes d).closed = true from hc] at hopen
    cases hopen
  · intro hh _ hr hhang hholds
    by_cases hnil : (s.pipes d).data = []
    · exact .inl (by simp [hnil])
    · rcases hp.unread hh hnil hr hhang hholds with hq | hdue
      · exact .inl (by simp [hq])
      · exact .inr hdue
  · rintro ⟨hc, -⟩
    rw [hc] at hopen
    cases hopen

/-- The child closes a pipe, which queues an event. -/
theorem Inv.close (h : Inv s) (d : Stream) :
    Inv (s.setPipe d { s.pipes d with closed := true, queued := true }) := by
  have hp := h.pipe d
  refine h.environment ⟨hp.bytes, ?_, ?_, ?_⟩ rfl rfl ?_ fun _ _ hparked => hparked
  · exact fun hh => ⟨rfl, (hp.eof hh).2⟩
  · exact fun _ _ => .inr (.inl rfl)
  · exact fun _ _ _ _ _ => .inl rfl
  · exact fun hold => ⟨rfl, hold.2⟩

/-- A collected event has the flags that the pipe has at that moment. -/
theorem Inv.collect (h : Inv s) (d : Stream) (readable writable : Bool) :
    Inv (s.setPipe d { s.pipes d with
      queued := false
      collected := (s.pipes d).collected ++
        [{ readable := readable || decide ((s.pipes d).data ≠ []), writable,
           hangup := (s.pipes d).closed }] }) := by
  have hp := h.pipe d
  refine h.environment ⟨hp.bytes, hp.eof, ?_, ?_⟩ rfl rfl id fun _ _ hparked => hparked
  · intro _ hc
    exact .inr (.inr ⟨_, List.mem_append_right _ List.mem_cons_self, hc⟩)
  · intro _ hd _ _ _
    have hd' : (s.pipes d).data ≠ [] := hd
    refine .inr ⟨_, List.mem_append_right _ List.mem_cons_self, ?_⟩
    simp [Readiness.forReader, hd']

/-- A dispatch raises the flags that its event reports, and takes the waker for them. -/
theorem Inv.dispatch (h : Inv s) {i : Nat} {event : Readiness}
    (hi : (s.pipes d).collected[i]? = some event) :
    Inv (s.setPipe d { s.pipes d with
      collected := (s.pipes d).collected.eraseIdx i
      slot := ((s.pipes d).slot.dispatch event).1
      waking := (s.pipes d).waking ++ ((s.pipes d).slot.dispatch event).2 }) := by
  have hp := h.pipe d
  refine h.environment ⟨hp.bytes, hp.eof, ?_, ?_⟩ rfl rfl id ?_
  · intro hh hc
    simp only [Wakers.dispatch_hangup, Bool.or_eq_true]
    rcases hp.hangup hh hc with hl | hq | hdue
    · exact .inl (.inl hl)
    · exact .inr (.inl hq)
    · by_cases heh : event.hangup = true
      · exact .inl (.inr heh)
      · exact .inr (.inr (exists_mem_eraseIdx hdue hi heh))
  · intro hh hd hr hhang hholds
    simp only [Wakers.dispatch_readable, Wakers.dispatch_hangup, Bool.or_eq_false_iff] at hr hhang
    refine (hp.unread hh hd hr.1 hhang.1 hholds).imp_right fun hdue => ?_
    exact exists_mem_eraseIdx hdue hi (by simp [hr.2])
  · rintro - hh (⟨hreader, hr, hhang⟩ | hmem)
    · cases he : event.forReader with
      | true => exact .inr (List.mem_append_right _ (Wakers.mem_dispatch_of_reader he hreader))
      | false =>
        have heh : event.hangup = false := by
          simp only [Readiness.forReader, Bool.or_eq_false_iff] at he
          exact he.2
        exact .inl ⟨by simp [he, hreader], by simp [hr, he], by simp [hhang, heh]⟩
    · exact .inr (List.mem_append_left _ hmem)

/-- An event of a pipe that the future has let go of goes nowhere. -/
theorem Inv.dispatch_gone (h : Inv s) (i : Nat) (hgone : (s.pipes d).held = false) :
    Inv (s.setPipe d { s.pipes d with collected := (s.pipes d).collected.eraseIdx i }) := by
  have hp := h.pipe d
  refine h.environment ⟨hp.bytes, hp.eof, ?_, ?_⟩ rfl rfl id ?_
  · intro hh
    rw [show (s.pipes d).held = true from hh] at hgone
    cases hgone
  · intro hh
    rw [show (s.pipes d).held = true from hh] at hgone
    cases hgone
  · intro _ hh
    rw [hh] at hgone
    cases hgone

/-- A wake of the task, which may be one of an older waker. -/
theorem Inv.wake (h : Inv s) {i : Nat} {waker : Waker}
    (hi : (s.pipes d).waking[i]? = some waker) :
    Inv (let s' := s.setPipe d { s.pipes d with waking := (s.pipes d).waking.eraseIdx i }
      if waker = s.waker then { s' with woken := true } else s') := by
  have hp := h.pipe d
  by_cases hw : waker = s.waker
  · rw [if_pos hw]
    -- The task is woken, so nothing is said about parked wakers any more.
    have hwoken : Inv { s with woken := true } :=
      { h with parked := fun _ _ _ hn _ => by simp at hn }
    exact hwoken.environment (p := { s.pipes d with waking := (s.pipes d).waking.eraseIdx i })
      ⟨hp.bytes, hp.eof, hp.hangup, hp.unread⟩ rfl rfl id nofun
  · rw [if_neg hw]
    refine h.environment ⟨hp.bytes, hp.eof, hp.hangup, hp.unread⟩ rfl rfl id fun _ _ hparked => ?_
    refine hparked.imp_right fun hmem => ?_
    exact mem_eraseIdx_of_ne hmem hi fun heq => hw heq.symm

/-! ### The future's steps -/

/-- A poll begins. Nothing is settled in it yet. -/
theorem Inv.poll (h : Inv s) (waker : Waker)
    (hpc : s.pc = .fresh ∨ s.pc = .suspended) :
    Inv { s with pc := .drain .stdout, waker, woken := false } := by
  have hpipe (d : Stream) : PipeInv (s.pipes d) False [] := by
    have hp := h.pipe d
    rcases hpc with hpc | hpc <;> rw [hpc] at hp <;> exact hp
  refine ⟨hpipe, nofun, ?_, ?_, nofun, ?_, nofun⟩
  · exact fun d hs => absurd hs.1 nofun
  · exact fun d hs => absurd hs.1 nofun
  · rintro d (hpc | hpc | ⟨o, hpc⟩) <;> cases hpc

/-- A step of the drain of `d` after which the drain goes on. -/
theorem Inv.goesOn (h : Inv s) (pc : Pc) (hat : s.pc.At d) (hat' : pc.At d)
    (hp : PipeInv p (pc.Holds d) (pc.inflight d))
    (hfound : pc = .mark d (.bytes []) → p.closed = true ∧ p.data = []) :
    Inv { s.setPipe d p with pc := pc } := by
  have hpc : pc ≠ .suspended ∧ ¬(pc = .wait ∨ pc = .waiting ∨ ∃ o, pc = .returned (.ok o)) ∧
      ∀ o, pc ≠ .returned (.ok o) := by
    refine ⟨?_, ?_, ?_⟩
    · rintro rfl
      exact hat'
    · rintro (rfl | rfl | ⟨o, rfl⟩) <;> exact hat'
    · rintro o rfl
      exact hat'
  -- A pipe that is settled now is the other one, and was settled before.
  have hsettled (d' : Stream) (hs : pc.Settled d') : d' ≠ d ∧ s.pc.Settled d' := by
    have hs' := hat'.settled_iff.mp hs
    refine ⟨?_, hat.settled_iff.mpr hs'⟩
    rintro rfl
    cases hs'.1.symm.trans hs'.2
  refine ⟨fun d' => ?_, fun d' hm => ?_, fun d' hs hd hw hh => ?_, fun d' hs hd => ?_,
    fun _ hs => absurd hs hpc.1, fun _ hs => absurd hs hpc.2.1, fun o hs => absurd hs (hpc.2.2 o)⟩
  · by_cases hd : d' = d
    · subst hd
      show PipeInv ((s.setPipe d' p).pipes d') _ _
      rw [setPipe_self]
      exact hp
    · show PipeInv ((s.setPipe d p).pipes d') _ _
      rw [setPipe_of_ne s p hd]
      have hp' := h.pipe d'
      rw [hat.inflight_of_ne hd] at hp'
      rw [hat'.inflight_of_ne hd]
      refine ⟨hp'.bytes, hp'.eof, hp'.hangup, fun hh hdata hr hhang _ => ?_⟩
      exact hp'.unread hh hdata hr hhang fun hholds =>
        hd (hat.unique (Pc.At.of_holds hholds))
  · have hm' : pc = .mark d' (.bytes []) := hm
    obtain rfl : d' = d := hat'.unique (by rw [hm']; rfl)
    show ((s.setPipe d' p).pipes d').closed = true ∧ _
    rw [setPipe_self]
    exact hfound hm'
  · obtain ⟨hne, hs'⟩ := hsettled d' hs
    have hpipe : ({ s.setPipe d p with pc := pc } : State).pipes d' = s.pipes d' :=
      setPipe_of_ne s p hne
    rw [hpipe] at hh ⊢
    exact h.parked d' hs' hd hw hh
  · obtain ⟨hne, hs'⟩ := hsettled d' hs
    have hpipe : ({ s.setPipe d p with pc := pc } : State).pipes d' = s.pipes d' :=
      setPipe_of_ne s p hne
    rw [hpipe]
    exact h.ended d' hs' hd

/-- A step after which the drain of `d` is over in this poll. -/
theorem Inv.leaves (h : Inv s) (hat : s.pc.At d) (hp : PipeInv p False [])
    {result : Option (Except Nat Unit)}
    (hpending : result = none → p.held = true → Parked p s.waker)
    (hok : result = some (.ok ()) → p.held = false) :
    Inv ((s.setPipe d p).finish d result) := by
  have hself : ((s.setPipe d p).finish d result).pipes d = p := setPipe_self s d p
  have hother {d' : Stream} (hne : d' ≠ d) :
      ((s.setPipe d p).finish d result).pipes d' = s.pipes d' := setPipe_of_ne s p hne
  have hdrained : ((s.setPipe d p).finish d result).drained d = result := Function.update_self ..
  have hdrained' {d' : Stream} (hne : d' ≠ d) :
      ((s.setPipe d p).finish d result).drained d' = s.drained d' := Function.update_of_ne hne ..
  have hhands (d' : Stream) : ¬((s.setPipe d p).finish d result).pc.Holds d' ∧
      ((s.setPipe d p).finish d result).pc.inflight d' = [] := by
    cases d <;> exact ⟨id, rfl⟩
  -- A pipe that is settled now was settled before, or is the one whose drain is over.
  have hsettled (d' : Stream) (hs : ((s.setPipe d p).finish d result).pc.Settled d')
      (hne : d' ≠ d) : s.pc.Settled d' := by
    refine hat.settled_iff.mpr ?_
    cases d with
    | stdout => exact absurd hs.2 hne
    | stderr =>
      cases d' with
      | stdout => exact ⟨rfl, rfl⟩
      | stderr => exact absurd rfl hne
  have hpc : ((s.setPipe d p).finish d result).pc = .drain .stderr ∨
      ((s.setPipe d p).finish d result).pc = .combine := by
    cases d with
    | stdout => exact .inl rfl
    | stderr => exact .inr rfl
  refine ⟨fun d' => ?_, fun d' hm => ?_, fun d' hs hd hw hh => ?_, fun d' hs hd => ?_,
    fun d' hs => ?_, fun d' hs => ?_, fun o hs => ?_⟩
  · rw [(hhands d').2]
    by_cases hd : d' = d
    · rw [hd, hself]
      exact ⟨hp.bytes, hp.eof, hp.hangup, fun hh hdata hr hhang _ =>
        hp.unread hh hdata hr hhang id⟩
    · rw [hother hd]
      have hp' := h.pipe d'
      rw [hat.inflight_of_ne hd] at hp'
      refine ⟨hp'.bytes, hp'.eof, hp'.hangup, fun hh hdata hr hhang _ => ?_⟩
      exact hp'.unread hh hdata hr hhang fun hholds =>
        hd (hat.unique (Pc.At.of_holds hholds))
  · rcases hpc with hpc | hpc <;> rw [hpc] at hm <;> cases hm
  · by_cases hne : d' = d
    · subst hne
      rw [hdrained] at hd
      rw [hself] at hh ⊢
      exact hpending hd hh
    · rw [hdrained' hne] at hd
      rw [hother hne] at hh ⊢
      exact h.parked d' (hsettled d' hs hne) hd hw hh
  · by_cases hne : d' = d
    · subst hne
      rw [hdrained] at hd
      rw [hself]
      exact hok hd
    · rw [hdrained' hne] at hd
      rw [hother hne]
      exact h.ended d' (hsettled d' hs hne) hd
  · rcases hpc with hpc | hpc <;> rw [hpc] at hs <;> cases hs
  · rcases hpc with hpc | hpc <;> rw [hpc] at hs <;> rcases hs with hs | hs | ⟨o, hs⟩ <;> cases hs
  · rcases hpc with hpc | hpc <;> rw [hpc] at hs <;> cases hs

/-- `drain` gets bytes, or the end of file. -/
theorem Inv.took (h : Inv s) (hat : s.pc.At d) {data : List UInt8}
    (hp : PipeInv p False data) (hend : data = [] → p.closed = true ∧ p.data = []) :
    Inv ((s.setPipe d p).took d data) := by
  unfold State.took
  rw [setPipe_self]
  by_cases hnil : data = []
  · rw [if_pos hnil]
    rw [hnil] at hp
    -- The pipe is forgotten, and what it has left is nothing.
    have hgone : PipeInv { p with held := false } False [] :=
      ⟨hp.bytes, fun _ => hend hnil, nofun, nofun⟩
    have hset : (s.setPipe d p).setPipe d { p with held := false } =
        s.setPipe d { p with held := false } := by
      unfold State.setPipe
      simp
    rw [hset]
    exact h.leaves hat hgone nofun fun _ => rfl
  · rw [if_neg hnil]
    have hset : (s.setPipe d p).setPipe d { p with into := p.into ++ data } =
        s.setPipe d { p with into := p.into ++ data } := by
      unfold State.setPipe
      simp
    rw [hset]
    refine h.goesOn (.take d) hat rfl ⟨?_, hp.eof, hp.hangup, ?_⟩ nofun
    · show p.written = p.into ++ data ++ [] ++ p.data
      rw [List.append_nil]
      exact hp.bytes
    · exact fun hh hd hr hhang _ => hp.unread hh hd hr hhang id

/-- The answer of a read. -/
theorem Inv.received (h : Inv s) (hpc : s.pc = .read d) (outcome : Outcome) :
    Inv (s.received d ((s.pipes d).readFd outcome)) := by
  have hat : s.pc.At d := by rw [hpc]; rfl
  have hp := h.pipe d
  rw [hpc] at hp
  -- A read that moved nothing keeps the pipe, and readiness stays with the future.
  have hkeep (r : Received) (hr : Pc.inflight d (.mark d r) = []) (hne : r ≠ .bytes []) :
      Inv { s with pc := .mark d r } := by
    have hstay := h.goesOn (p := s.pipes d) (.mark d r) hat rfl
      ⟨by rw [hr]; exact hp.bytes, hp.eof, hp.hangup, fun _ _ _ _ hn => absurd rfl hn⟩
      (fun heq => absurd (Pc.mark.inj heq).2 hne)
    rwa [setPipe_pipes] at hstay
  cases outcome with
  | interrupted => exact hkeep _ rfl nofun
  | failed error => exact hkeep _ rfl nofun
  | done =>
    unfold Pipe.readFd
    by_cases hempty : (s.pipes d).data = [] ∧ (s.pipes d).closed = false
    · -- The pipe is empty, so nothing unread is lost with the readiness that was taken.
      rw [if_pos hempty]
      have hgo := h.goesOn (p := s.pipes d) (.take d) hat rfl
        ⟨hp.bytes, hp.eof, hp.hangup, fun _ hd => absurd hempty.1 hd⟩ nofun
      rwa [setPipe_pipes] at hgo
    · rw [if_neg hempty]
      have hbytes : (s.pipes d).written =
          (s.pipes d).into ++ (s.pipes d).data.take chunk ++ (s.pipes d).data.drop chunk := by
        rw [List.append_assoc, List.take_append_drop, hp.bytes]
        show _ ++ [] ++ _ = _
        rw [List.append_nil]
      have heof : (s.pipes d).held = false →
          (s.pipes d).closed = true ∧ (s.pipes d).data.drop chunk = [] := by
        intro hh
        obtain ⟨hc, hd⟩ := hp.eof hh
        exact ⟨hc, by rw [hd]; rfl⟩
      have hend : (s.pipes d).data.take chunk = [] →
          (s.pipes d).closed = true ∧ (s.pipes d).data.drop chunk = [] := by
        intro hnil
        have hd : (s.pipes d).data = [] := by
          rcases List.take_eq_nil_iff.mp hnil with hzero | hd
          · cases hzero
          · exact hd
        refine ⟨?_, by rw [hd]; rfl⟩
        cases hc : (s.pipes d).closed with
        | true => rfl
        | false => exact absurd ⟨hd, hc⟩ hempty
      simp only [State.received]
      split
      · refine h.goesOn (.mark d (.bytes ((s.pipes d).data.take chunk))) hat rfl
          ⟨?_, heof, hp.hangup, fun _ _ _ _ hn => absurd rfl hn⟩ ?_
        · show _ = _ ++ (if d = d then _ else _) ++ _
          rw [if_pos rfl]
          exact hbytes
        · intro heq
          exact hend (Received.bytes.inj (Pc.mark.inj heq).2)
      · -- A short read has emptied the pipe.
        rename_i hshort
        refine h.took hat ⟨hbytes, heof, hp.hangup, fun _ hd => absurd ?_ hd⟩ hend
        have hlen : ((s.pipes d).data.take chunk).length ≠ chunk := fun hl => hshort (.inr hl)
        rw [List.length_take] at hlen
        exact List.drop_eq_nil_of_le (by omega)

/-- Readiness is put back. -/
theorem Inv.marked (h : Inv s) {received : Received} (hpc : s.pc = .mark d received) :
    Inv (s.marked d received) := by
  have hat : s.pc.At d := by rw [hpc]; rfl
  have hp := h.pipe d
  rw [hpc] at hp
  have hready {i : List UInt8}
      (hbytes : (s.pipes d).written = (s.pipes d).into ++ i ++ (s.pipes d).data) :
      PipeInv { s.pipes d with slot := (s.pipes d).slot.markReadable } False i :=
    ⟨hbytes, hp.eof, hp.hangup, fun _ _ hr => nomatch hr⟩
  cases received with
  | bytes data =>
    refine h.took hat (hready ?_) fun hnil => ?_
    · have hb := hp.bytes
      simpa [Pc.inflight] using hb
    · rw [hnil] at hpc
      exact h.found d hpc
  | wouldBlock => exact h.goesOn (.take d) hat rfl (hready hp.bytes) nofun
  | interrupted => exact h.goesOn (.take d) hat rfl (hready hp.bytes) nofun
  | failed error => exact h.leaves hat (hready hp.bytes) nofun nofun

/-- The two drains are over. -/
theorem Inv.combine (h : Inv s) (hpc : s.pc = .combine) : Inv s.combine := by
  have hhands (d : Stream) : PipeInv (s.pipes d) False [] := by
    have hp := h.pipe d
    rw [hpc] at hp
    exact hp
  have hsettled (d : Stream) : s.pc.Settled d := by rw [hpc]; trivial
  -- What is left of the invariant after an error, or when both pipes are gone.
  have hended {pc : Pc} (hfail : (∃ error, pc = .returned (.error error)) ∨
      (pc = .wait ∧ ∀ d, (s.pipes d).held = false)) : Inv { s with pc := pc } := by
    rcases hfail with ⟨error, rfl⟩ | ⟨rfl, hgone⟩
    · refine ⟨hhands, nofun, fun _ hs => absurd hs.1 id, fun _ hs => absurd hs.1 id, nofun, ?_,
        nofun⟩
      rintro d (hs | hs | ⟨o, hs⟩) <;> cases hs
    · exact ⟨hhands, nofun, fun _ hs => absurd hs.1 id, fun _ hs => absurd hs.1 id, nofun,
        fun d _ => hgone d, nofun⟩
  unfold State.combine
  split
  · exact hended (.inl ⟨_, rfl⟩)
  · exact hended (.inl ⟨_, rfl⟩)
  · rename_i hout herr
    refine hended (.inr ⟨rfl, fun d => h.ended d (hsettled d) ?_⟩)
    cases d with
    | stdout => exact hout
    | stderr => exact herr
  · rename_i hout herr hboth
    refine ⟨hhands, nofun, fun d _ => h.parked d (hsettled d), fun d _ => h.ended d (hsettled d),
      fun d _ hh => ?_, ?_, nofun⟩
    · have hended := h.ended d (hsettled d)
      cases hd : s.drained d with
      | none => rfl
      | some result =>
        cases result with
        | ok u => exact absurd (hended hd) (by rw [hh]; exact nofun)
        | error error =>
          cases d with
          | stdout => exact absurd hd (hout error)
          | stderr => exact absurd hd (herr error)
    · rintro d (hs | hs | ⟨o, hs⟩) <;> cases hs

/-- The next step of the future. -/
theorem Inv.advance (h : Inv s) {outcome : Outcome} (hs : advance s outcome = some s') :
    Inv s' := by
  unfold Output.advance at hs
  cases hpc : s.pc with
  | drain d =>
    have hat : s.pc.At d := by rw [hpc]; rfl
    have hp := h.pipe d
    rw [hpc] at hp
    simp only [hpc] at hs
    split at hs
    · cases hs
      have hgo := h.goesOn (p := s.pipes d) (.take d) hat rfl hp nofun
      rwa [setPipe_pipes] at hgo
    · rename_i hh
      cases hs
      have hleave : Inv ((s.setPipe d (s.pipes d)).finish d (some (.ok ()))) :=
        h.leaves hat hp nofun fun _ => Bool.not_eq_true _ ▸ hh
      rwa [setPipe_pipes] at hleave
  | take d =>
    have hat : s.pc.At d := by rw [hpc]; rfl
    have hp := h.pipe d
    rw [hpc] at hp
    simp only [hpc] at hs
    rcases (s.pipes d).slot.takeReadableOrPark_cases s.waker with hc | ⟨hr, hh, hc⟩
    · simp only [hc] at hs
      cases hs
      exact h.goesOn (.read d) hat rfl
        ⟨hp.bytes, hp.eof, hp.hangup, fun _ _ _ _ hn => absurd rfl hn⟩ nofun
    · simp only [hc] at hs
      cases hs
      exact h.leaves (p := { s.pipes d with slot := (s.pipes d).slot.parkReader s.waker })
        hat ⟨hp.bytes, hp.eof, hp.hangup, hp.unread⟩
        (fun _ _ => .inl ⟨rfl, hr, hh⟩) nofun
  | read d =>
    simp only [hpc] at hs
    cases hs
    exact h.received hpc outcome
  | mark d received =>
    simp only [hpc] at hs
    cases hs
    exact h.marked hpc
  | combine =>
    simp only [hpc] at hs
    cases hs
    exact h.combine hpc
  | fresh => simp [hpc] at hs
  | suspended => simp [hpc] at hs
  | wait => simp [hpc] at hs
  | waiting => simp [hpc] at hs
  | returned result => simp [hpc] at hs

/-- `wait` answers. -/
theorem Inv.waited (h : Inv s) (hpc : s.pc = .wait) (answer : Waited) :
    Inv (waited s answer) := by
  have hhands (d : Stream) : PipeInv (s.pipes d) False [] := by
    have hp := h.pipe d
    rw [hpc] at hp
    exact hp
  have hgone (d : Stream) : (s.pipes d).held = false := h.finished d (.inl hpc)
  cases answer with
  | pending =>
    exact ⟨hhands, nofun, fun _ hs => absurd hs.1 id, fun _ hs => absurd hs.1 id, nofun,
      fun d _ => hgone d, nofun⟩
  | exited status =>
    refine ⟨hhands, nofun, fun _ hs => absurd hs.1 id, fun _ hs => absurd hs.1 id, nofun,
      fun d _ => hgone d, ?_⟩
    rintro o ⟨⟩
    exact ⟨rfl, rfl⟩
  | failed error =>
    exact ⟨hhands, nofun, fun _ hs => absurd hs.1 id, fun _ hs => absurd hs.1 id, nofun,
      fun d _ => hgone d, nofun⟩

/-- A poll of `wait`. -/
theorem Inv.pollWait (h : Inv s) (hpc : s.pc = .waiting) (waker : Waker) :
    Inv { s with pc := .wait, waker, woken := false } := by
  refine ⟨fun d => ?_, nofun, fun _ hs => absurd hs.1 id, fun _ hs => absurd hs.1 id, nofun,
    fun d _ => h.finished d (.inr (.inl hpc)), nofun⟩
  have hp := h.pipe d
  rw [hpc] at hp
  exact hp

/-- One step of any party. -/
theorem Inv.step (h : Inv s) {a : Action} (hs : step s a = some s') : Inv s' := by
  cases a with
  | write d bytes notify =>
    simp only [Output.step] at hs
    split at hs
    · rename_i hopen
      cases hs
      exact h.write bytes notify hopen
    · cases hs
  | close d =>
    cases hs
    exact h.close d
  | collect d readable writable =>
    cases hs
    exact h.collect d readable writable
  | dispatch d i =>
    simp only [Output.step] at hs
    split at hs
    · cases hs
    · rename_i event hi
      split at hs
      · cases hs
        exact h.dispatch hi
      · rename_i hgone
        cases hs
        exact h.dispatch_gone i (Bool.not_eq_true _ ▸ hgone)
  | wake d i =>
    simp only [Output.step] at hs
    split at hs
    · cases hs
    · rename_i waker hi
      cases hs
      exact h.wake hi
  | poll waker =>
    simp only [Output.step] at hs
    split at hs
    · rename_i hpc
      cases hs
      exact h.poll waker (.inl hpc)
    · rename_i hpc
      cases hs
      exact h.poll waker (.inr hpc)
    · rename_i hpc
      cases hs
      exact h.pollWait hpc waker
    · cases hs
  | advance outcome => exact h.advance hs
  | wait answer =>
    simp only [Output.step] at hs
    split at hs
    · rename_i hpc
      cases hs
      exact h.waited hpc answer
    · cases hs

/-- Before the first poll. -/
theorem inv_init (s : State) (h : system.init s) : Inv s := by
  obtain ⟨pipes, hpipes, rfl⟩ := h
  refine ⟨fun d => ?_, nofun, fun _ hs => absurd hs.1 id, fun _ hs => absurd hs.1 id, nofun, ?_,
    nofun⟩
  · rcases hpipes d with hd | ⟨data, closed, hd⟩
    · show PipeInv (pipes d) _ _
      rw [hd]
      exact ⟨rfl, fun _ => ⟨rfl, rfl⟩, nofun, nofun⟩
    · show PipeInv (pipes d) _ _
      rw [hd]
      exact ⟨rfl, nofun, fun _ _ => .inr (.inl rfl), fun _ _ _ _ _ => .inl rfl⟩
  · rintro d (hs | hs | ⟨o, hs⟩) <;> cases hs

/-- Every run. -/
theorem inv_of_reachable (h : system.Reachable s) : Inv s :=
  h.invariant inv_init fun _ _ _ hi hs => hi.step hs

/-! ### What is collected -/

/-- `wait_with_output` returns exactly what the child wrote. In every reachable state:

* when the future has returned `Ok`, its two vectors are the bytes that were written to the two
  pipes;
* while it is suspended in its drains and not woken, each pipe that is not at end of file is empty
  with its writer open, or has an event that is queued, or collected, or in a dispatch that has
  taken the future's waker and has not finished. -/
theorem wait_with_output_exact (h : system.Reachable s) :
    (∀ o, s.pc = .returned (.ok o) →
      o.stdout = (s.pipes .stdout).written ∧ o.stderr = (s.pipes .stderr).written) ∧
    (s.pc = .suspended → s.woken = false → ∀ d, (s.pipes d).held = true →
      ((s.pipes d).data = [] ∧ (s.pipes d).closed = false) ∨ (s.pipes d).queued = true ∨
      (∃ e ∈ (s.pipes d).collected, e.readable = true ∨ e.hangup = true) ∨
      s.waker ∈ (s.pipes d).waking) := by
  have hi := inv_of_reachable h
  constructor
  · intro o hpc
    have hwritten (d : Stream) : (s.pipes d).written = (s.pipes d).into := by
      have hp := hi.pipe d
      rw [hpc] at hp
      have hdata := (hp.eof (hi.finished d (.inr (.inr ⟨o, hpc⟩)))).2
      rw [hp.bytes, hdata]
      simp [Pc.inflight]
    rw [hwritten, hwritten]
    exact hi.output o hpc
  · intro hpc hw d hh
    have hp := hi.pipe d
    rw [hpc] at hp
    rcases hi.parked d (by rw [hpc]; trivial) (hi.pending d hpc hh) hw hh with
      ⟨-, hr, hhang⟩ | hmem
    · by_cases hquiet : (s.pipes d).data = [] ∧ (s.pipes d).closed = false
      · exact .inl hquiet
      · have hdue : Due (s.pipes d) := by
          cases hc : (s.pipes d).closed with
          | true =>
            rcases hp.hangup hh hc with hl | hq | ⟨e, hmem, he⟩
            · rw [hhang] at hl
              cases hl
            · exact .inl hq
            · exact .inr ⟨e, hmem, by simp [Readiness.forReader, he]⟩
          | false => exact hp.unread hh (fun hd => hquiet ⟨hd, hc⟩) hr hhang id
        rcases hdue with hq | ⟨e, hmem, he⟩
        · exact .inr (.inl hq)
        · exact .inr (.inr (.inl ⟨e, hmem, by simpa [Readiness.forReader] using he⟩))
    · exact .inr (.inr (.inr hmem))

/-- The child writes after both drains have parked, closes its pipes and exits with status 0. The
future returns what it wrote. -/
theorem wait_with_output_exact_run :
    ∃ s, system.Reachable s ∧ s.pc = .returned (.ok ⟨0, [1, 2], [3]⟩) ∧
      (s.pipes .stdout).written = [1, 2] ∧ (s.pipes .stderr).written = [3] := by
  let go : Action := .advance .done
  obtain ⟨s, hr, hp⟩ := Lts.Reachable.exists_of_run (M := system)
    (s := new fun _ => .new [] false)
    -- Each drain takes readiness, finds its pipe empty, and parks.
    ([.poll 7, go, go, go, go, go, go, go, go, go,
      .write .stdout [1, 2] false, .write .stderr [3] false, .close .stdout, .close .stderr,
      .collect .stdout false false, .collect .stderr false false, .dispatch .stdout 0,
      .dispatch .stderr 0, .wake .stderr 0,
      -- Each drain reads the bytes, then the end of file, and forgets its pipe.
      .poll 7, go, go, go, go, go, go, go, go, go, go, go, go, go, .wait (.exited 0)])
    (fun s => match s.pc with
      | .returned (.ok o) => decide (o = ⟨0, [1, 2], [3]⟩)
      | _ => false)
    ⟨_, fun _ => .inr ⟨[], false, rfl⟩, rfl⟩ (by decide)
  have hpc : s.pc = .returned (.ok ⟨0, [1, 2], [3]⟩) := by
    split at hp
    · rename_i o hpc
      rw [hpc, of_decide_eq_true hp]
    · cases hp
  obtain ⟨hout, herr⟩ := (wait_with_output_exact hr).1 _ hpc
  exact ⟨s, hr, hpc, hout.symm, herr.symm⟩

end Output

end Nagoya
