import Nagoya.Proofs.Time.Timers
import Nagoya.Time.Sleeps

/-!
# `Nagoya.Proofs.Time.Sleeps`: sleeps fire once, not early, and are not forgotten

The invariant has three parts, and each speaks of one party. `EntryOk` ties an entry of the heap
to the sleep that it belongs to. `Sleep.Ok` ties a sleep to its slot: as long as the slot is not
fired it has the waker of the last poll, and once it is fired that waker is on its way
(`Delivered`). `FireDue.Ok` says what a call has popped.

A slot belongs to one sleep, so the step of a sleep leaves the slots of the others. A call of
`fire_due` touches the slot it fires in two steps. Between them the waker is still in the slot,
and a poll may replace it. That poll has not returned then, and it will see the flag.
-/

set_option autoImplicit false

namespace Nagoya.Time

open Nagoya.Lib

/-! ### The registry -/

namespace Registry

/-- A slot with no entry has no index. -/
theorem Ok.index_eq_none {r : Registry} (hok : r.Ok) {k : Nat}
    (h : ∀ e ∈ r.heap.entries, e.slot ≠ k) : r.heap.index k = none := by
  cases hx : r.heap.index k with
  | none => rfl
  | some i =>
    obtain ⟨e, he, hs⟩ := (hok.heap.indexed k i).mp hx
    exact absurd hs (h e (List.mem_of_getElem? he))

/-- `cancel` does not panic, and it takes out the entry of its slot and no other. -/
theorem cancel_exact {r : Registry} (hok : r.Ok) (k : Nat) :
    ∃ r', r.cancel k = some r' ∧ r'.Ok ∧ r'.slots = r.slots ∧ r'.seq = r.seq ∧
      ∀ e, e ∈ r'.heap.entries ↔ e ∈ r.heap.entries ∧ e.slot ≠ k := by
  unfold cancel
  -- Without an index there is no entry with this slot.
  cases hx : r.heap.index k with
  | none =>
    refine ⟨r, rfl, hok, rfl, rfl, fun e => ⟨fun he => ⟨he, fun hs => ?_⟩, fun he => he.1⟩⟩
    obtain ⟨i, hi⟩ := List.getElem?_of_mem he
    rw [(hok.heap.indexed k i).mpr ⟨e, hi, hs⟩] at hx
    cases hx
  | some i =>
    obtain ⟨e, he, hes⟩ := (hok.heap.indexed k i).mp hx
    obtain ⟨heap, hrem, hheap, hperm⟩ := TimerHeap.remove_spec hok.heap he
    -- The slots are distinct, so no other entry has this one.
    have hnodup : ((e :: heap.entries).map Entry.slot).Nodup :=
      (hperm.map Entry.slot).nodup_iff.mpr hok.heap.indexed.nodup
    rw [List.map_cons, List.nodup_cons] at hnodup
    have hmem : ∀ f, f ∈ heap.entries ↔ f ∈ r.heap.entries ∧ f.slot ≠ k := by
      intro f
      constructor
      · intro hf
        refine ⟨hperm.subset (List.mem_cons_of_mem _ hf), fun hfs => hnodup.1 ?_⟩
        rw [hes, ← hfs]
        exact List.mem_map_of_mem hf
      · rintro ⟨hf, hfs⟩
        rcases List.mem_cons.mp (hperm.symm.subset hf) with rfl | hf
        · exact absurd hes hfs
        · exact hf
    simp only [hrem]
    exact ⟨_, rfl, ⟨hheap, fun f hf => hok.slots f ((hmem f).mp hf).1⟩, rfl, rfl, hmem⟩

/-- `arm` adds the entry of the new slot. -/
theorem arm_entries {r : Registry} (hok : r.Ok) (deadline : Nat) (waker : Waker) :
    (r.arm deadline waker).1.heap.entries.Perm
      ({ deadline, seq := r.seq, slot := r.slots.length } :: r.heap.entries) := by
  refine (TimerHeap.push_spec hok.heap (hok.index_eq_none fun e he => ?_)).2
  have := hok.slots e he
  show e.slot ≠ r.slots.length
  omega

end Registry

namespace Sleeps

/-! ### The invariant -/

/-- The drop of the sleep has taken the lock. -/
def Sleep.gone (a : Sleep) : Bool :=
  match a.pc with
  | .takeWaker | .dropped => true
  | _ => false

/-- The clock was read at or after `deadline`. -/
def Passed (s : State) (deadline : Nat) : Prop := ∃ r ∈ s.readings, deadline ≤ r

/-- A call of `fire_due` has fired the slot `k` and takes its waker next. The waker is `w`. -/
def InHand (s : State) (k : Nat) (w : Waker) : Prop :=
  ∃ c ∈ s.calls, c.pc = .takeWaker k ∧ (s.registry.slots[k]?).bind Slot.waker = some w

/-- The waker `w` that the slot `k` had when it was fired is on its way, or it was woken. -/
def Delivered (s : State) (k : Nat) (w : Waker) : Prop :=
  InHand s k w ∨ (∃ c ∈ s.calls, (k, w) ∈ c.due) ∨ (k, w) ∈ s.woken

/-- An entry of the heap belongs to a sleep that is armed, not fired and not dropped. -/
structure EntryOk (s : State) (e : Entry) : Prop where
  seq : e.seq = e.slot % 2 ^ 64
  sleep : ∃ a ∈ s.sleeps, a.slot = some e.slot ∧ a.deadline = e.deadline ∧ a.gone = false
  fired : (s.registry.slots[e.slot]?).map Slot.fired = some false

/-- What a sleep that is armed knows of its slot. -/
structure Sleep.Armed (s : State) (a : Sleep) (k : Nat) (slot : Slot) : Prop where
  passed : slot.fired = true → Passed s a.deadline
  queued : slot.fired = false → a.gone = false → ∃ e ∈ s.registry.heap.entries, e.slot = k
  reload : ∀ w, a.pc = .reloadFired w → slot.fired = false → slot.waker = some w
  waker : ∀ w, a.last = some (w, false) → slot.fired = false → a.gone = false →
    slot.waker = some w
  delivered : ∀ w, a.last = some (w, false) → slot.fired = true → Delivered s k w

/-- What a sleep knows. -/
structure Sleep.Ok (s : State) (a : Sleep) : Prop where
  /-- A poll in progress has no result. -/
  calm : a.last ≠ none → a.pc = .idle ∨ a.gone = true
  ready : ∀ w, a.last = some (w, true) → Passed s a.deadline
  armed : ∀ k, a.slot = some k → ∃ slot, s.registry.slots[k]? = some slot ∧ a.Armed s k slot
  /-- A poll that goes on to arm the sleep. -/
  arming : ∀ w, a.pc = .readClock w ∨ a.pc = .arm w → a.slot = none

/-- The entries that a call has removed, when `rest` are those it left. -/
structure FireDue.Popped (c : FireDue) (rest : List Entry) : Prop where
  all : (c.removed ++ rest).Perm c.before
  due : ∀ e ∈ c.removed, e.deadline ≤ c.now
  order : c.removed.Pairwise fun e f => e.key ≤ f.key
  first : ∀ e ∈ c.removed, ∀ f ∈ rest, e.key ≤ f.key
  distinct : (c.before.map Entry.slot).Nodup

/-- The call has `PENDING` locked. -/
def FirePc.inSection : FirePc → Bool
  | .scan | .takeWaker _ => true
  | _ => false

/-- What the call has reported, once its section is over. -/
def FirePc.next : FirePc → Option (Option Nat)
  | .wake next _ | .returned next _ => some next
  | _ => none

/-- What the call `j` of `fire_due` knows. -/
structure FireDue.Ok (s : State) (j : Nat) (c : FireDue) : Prop where
  reading : c.now ∈ s.readings
  found : ∀ e ∈ c.before, e.seq = e.slot % 2 ^ 64 ∧ e.slot < s.registry.slots.length
  start : c.pc = .lock → c.removed = []
  holds : c.pc.inSection = true → s.holder = some j
  popped : c.pc.inSection = true → c.Popped s.registry.heap.entries
  fired : ∀ k, c.pc = .takeWaker k → (s.registry.slots[k]?).map Slot.fired = some true ∧
    ∃ a ∈ s.sleeps, a.slot = some k ∧ a.gone = false
  finished : ∀ next, c.pc.next = some next → ∃ rest, c.Popped rest ∧
    (∀ f ∈ rest, c.now < f.deadline) ∧ next = (rest.map Entry.deadline).min?

/-- The invariant of the system. -/
structure Inv (s : State) : Prop where
  registry : s.registry.Ok
  seq : s.registry.seq = s.registry.slots.length % 2 ^ 64
  exclusive : Exclusive (attr Sleep.slot s.sleeps)
  entries : ∀ e ∈ s.registry.heap.entries, EntryOk s e
  sleeps : ∀ a ∈ s.sleeps, a.Ok s
  calls : ∀ (j : Nat) c, s.calls[j]? = some c → c.Ok s j

/-! ### What other parties leave -/

/-- A reading stays a reading. -/
theorem Passed.mono {s s' : State} {deadline : Nat} (h : Passed s deadline)
    (hr : s.readings ⊆ s'.readings) : Passed s' deadline := by
  obtain ⟨r, hmem, hle⟩ := h
  exact ⟨r, hr hmem, hle⟩

/-- A step that leaves the slot, its entry and the delivery of its waker keeps a sleep. -/
theorem Sleep.Ok.frame {s s' : State} {a : Sleep} (h : a.Ok s) (hr : s.readings ⊆ s'.readings)
    (hslot : ∀ k, a.slot = some k → s'.registry.slots[k]? = s.registry.slots[k]?)
    (hentry : ∀ k, a.slot = some k → a.gone = false →
      (∃ e ∈ s.registry.heap.entries, e.slot = k) → ∃ e ∈ s'.registry.heap.entries, e.slot = k)
    (hdel : ∀ k w, a.slot = some k → Delivered s k w → Delivered s' k w) : a.Ok s' := by
  refine ⟨h.calm, fun w hw => (h.ready w hw).mono hr, ?_, h.arming⟩
  intro k hk
  obtain ⟨slot, hs, ha⟩ := h.armed k hk
  refine ⟨slot, by rw [hslot k hk]; exact hs, fun hf => (ha.passed hf).mono hr, ?_, ha.reload,
    ha.waker, fun w hw hf => hdel k w hk (ha.delivered w hw hf)⟩
  intro hf hg
  exact hentry k hk hg (ha.queued hf hg)

/-- A sleep whose poll took a step that does not concern its slot. -/
theorem Sleep.Armed.quiet {s s' : State} {a a' : Sleep} {k : Nat} {slot : Slot}
    (h : a.Armed s k slot) (hr : s.readings ⊆ s'.readings)
    (hheap : s'.registry.heap = s.registry.heap) (hd : a'.deadline = a.deadline)
    (hg : a'.gone = a.gone) (hpc : ∀ w, a'.pc ≠ .reloadFired w)
    (hlast : ∀ w, a'.last ≠ some (w, false)) : a'.Armed s' k slot := by
  refine ⟨?_, ?_, fun w hw => absurd hw (hpc w), fun w hw => absurd hw (hlast w),
    fun w hw => absurd hw (hlast w)⟩
  · intro hf
    rw [hd]
    exact (h.passed hf).mono hr
  · intro hf hgone
    rw [hheap]
    exact h.queued hf (by rw [← hg]; exact hgone)

/-- A slot that keeps its flag keeps the flag of its entry. -/
theorem EntryOk.frame {s s' : State} {e : Entry} (h : EntryOk s e)
    (hslot : (s'.registry.slots[e.slot]?).map Slot.fired =
      (s.registry.slots[e.slot]?).map Slot.fired)
    (hsleep : ∀ a ∈ s.sleeps, a.slot = some e.slot → a.gone = false →
      ∃ a' ∈ s'.sleeps, a'.slot = a.slot ∧ a'.deadline = a.deadline ∧ a'.gone = false) :
    EntryOk s' e := by
  obtain ⟨a, ha, hs, hd, hg⟩ := h.sleep
  obtain ⟨a', ha', hs', hd', hg'⟩ := hsleep a ha hs hg
  exact ⟨h.seq, ⟨a', ha', by rw [hs', hs], by rw [hd', hd], hg'⟩, by rw [hslot]; exact h.fired⟩

/-- A step of another party keeps a call of `fire_due`. -/
theorem FireDue.Ok.frame {s s' : State} {j : Nat} {c : FireDue} (h : c.Ok s j)
    (hr : s.readings ⊆ s'.readings)
    (hlen : s.registry.slots.length ≤ s'.registry.slots.length)
    (hholder : c.pc.inSection = true → s'.holder = s.holder)
    (hheap : c.pc.inSection = true → s'.registry.heap = s.registry.heap)
    (hfired : ∀ k, c.pc = .takeWaker k → (s'.registry.slots[k]?).map Slot.fired =
      (s.registry.slots[k]?).map Slot.fired)
    (hsleep : ∀ k, c.pc = .takeWaker k → ∀ a ∈ s.sleeps, a.slot = some k → a.gone = false →
      ∃ a' ∈ s'.sleeps, a'.slot = some k ∧ a'.gone = false) : c.Ok s' j := by
  refine ⟨hr h.reading, ?_, h.start, ?_, ?_, ?_, h.finished⟩
  · intro e he
    have := h.found e he
    exact ⟨this.1, by omega⟩
  · intro hsec
    rw [hholder hsec]
    exact h.holds hsec
  · intro hsec
    rw [hheap hsec]
    exact h.popped hsec
  · intro k hk
    obtain ⟨hf, a, ha, hs, hg⟩ := h.fired k hk
    exact ⟨by rw [hfired k hk]; exact hf, hsleep k hk a ha hs hg⟩

/-- A call that is outside its section reads nothing of the heap. -/
theorem FireDue.Ok.frame_outside {s s' : State} {j : Nat} {c : FireDue} (h : c.Ok s j)
    (hout : c.pc.inSection ≠ true) (hr : s.readings ⊆ s'.readings)
    (hlen : s.registry.slots.length ≤ s'.registry.slots.length) : c.Ok s' j := by
  refine h.frame hr hlen (fun hsec => absurd hsec hout) (fun hsec => absurd hsec hout) ?_ ?_
  · intro k hk
    rw [hk] at hout
    exact absurd rfl hout
  · intro k hk
    rw [hk] at hout
    exact absurd rfl hout

/-- Two sleeps do not share a slot. -/
theorem Inv.slot_ne {s : State} (h : Inv s) {i j : Nat} {a b : Sleep} {k : Nat}
    (hi : s.sleeps[i]? = some a) (hj : s.sleeps[j]? = some b) (hij : j ≠ i)
    (hk : b.slot = some k) : a.slot ≠ some k := by
  intro ha
  refine hij (h.exclusive j i k ?_ ?_)
  · rw [attr_of_some Sleep.slot hj, hk]
  · rw [attr_of_some Sleep.slot hi, ha]

/-- The sleep of a slot is determined by the slot. -/
theorem Inv.slot_inj {s : State} (h : Inv s) {a b : Sleep} {k : Nat} (ha : a ∈ s.sleeps)
    (hb : b ∈ s.sleeps) (hak : a.slot = some k) (hbk : b.slot = some k) : a = b := by
  obtain ⟨i, hi⟩ := List.getElem?_of_mem ha
  obtain ⟨j, hj⟩ := List.getElem?_of_mem hb
  by_cases hij : j = i
  · rw [hij, hi] at hj
    exact Option.some.inj hj
  · exact absurd hak (h.slot_ne hi hj hij hbk)

/-- A delivery that does not depend on the calls on sleeps. -/
theorem Delivered.frame {s s' : State} {k : Nat} {w : Waker} (h : Delivered s k w)
    (hcalls : s'.calls = s.calls) (hwoken : s'.woken = s.woken)
    (hslot : s'.registry.slots[k]? = s.registry.slots[k]?) : Delivered s' k w := by
  unfold Delivered InHand
  rw [hcalls, hwoken, hslot]
  exact h

/-- A delivery while the call `j` of `fire_due` takes a step that is not the `take` of this
slot. -/
theorem Delivered.move {s s' : State} {j k : Nat} {c c' : FireDue} {w : Waker}
    (h : Delivered s k w) (hj : s.calls[j]? = some c) (hcalls : s'.calls = s.calls.set j c')
    (hpc : c.pc ≠ .takeWaker k) (hdue : ∀ d ∈ c.due, d ∈ c'.due ∨ d ∈ s'.woken)
    (hwoken : s.woken ⊆ s'.woken)
    (hslot : s'.registry.slots[k]? = s.registry.slots[k]?) : Delivered s' k w := by
  unfold Delivered InHand
  rw [hcalls, hslot]
  rcases h with ⟨d, hd, hdpc, hw⟩ | ⟨d, hd, hdd⟩ | hwk
  · rcases mem_set_of_mem hj c' hd with rfl | hd'
    · exact absurd hdpc hpc
    · exact .inl ⟨d, hd', hdpc, hw⟩
  · rcases mem_set_of_mem hj c' hd with rfl | hd'
    · rcases hdue _ hdd with hd' | hw
      · exact .inr (.inl ⟨c', mem_set_of_some hj c', hd'⟩)
      · exact .inr (.inr hw)
    · exact .inr (.inl ⟨d, hd', hdd⟩)
  · exact .inr (.inr (hwoken hwk))

/-! ### The steps of a sleep -/

/-- A sleep takes a step that leaves the heap, the lock and the slots of the other sleeps. -/
theorem Inv.moveSleep {s s' : State} (h : Inv s) {i : Nat} {a a' : Sleep}
    (hi : s.sleeps[i]? = some a) (hsleeps : s'.sleeps = s.sleeps.set i a')
    (hcalls : s'.calls = s.calls) (hwoken : s'.woken = s.woken) (hholder : s'.holder = s.holder)
    (hr : s.readings ⊆ s'.readings) (hheap : s'.registry.heap = s.registry.heap)
    (hseq : s'.registry.seq = s.registry.seq)
    (hlen : s'.registry.slots.length = s.registry.slots.length)
    (hslots : ∀ (k : Nat), a.slot ≠ some k → s'.registry.slots[k]? = s.registry.slots[k]?)
    (hfired : ∀ (k : Nat), (s'.registry.slots[k]?).map Slot.fired =
      (s.registry.slots[k]?).map Slot.fired)
    (hslot : a'.slot = a.slot) (hd : a'.deadline = a.deadline)
    (hgone : a'.gone = a.gone ∨ a.slot = none) (hok : a'.Ok s') : Inv s' := by
  -- The sleep of an entry or of a call in its section is still there.
  have hkept : ∀ k, ∀ b ∈ s.sleeps, b.slot = some k → b.gone = false →
      ∃ b' ∈ s'.sleeps, b'.slot = b.slot ∧ b'.deadline = b.deadline ∧ b'.gone = false := by
    intro k b hb hk hg
    rw [hsleeps]
    rcases mem_set_of_mem hi a' hb with rfl | hb
    · refine ⟨a', mem_set_of_some hi a', hslot, hd, ?_⟩
      rcases hgone with hgone | hgone
      · rw [hgone, hg]
      · rw [hgone] at hk
        cases hk
    · exact ⟨b, hb, rfl, rfl, hg⟩
  refine ⟨⟨?_, ?_⟩, ?_, ?_, ?_, ?_, ?_⟩
  · rw [hheap]
    exact h.registry.heap
  · -- The heap and the flags are those of before, so only what this sleep knows can change.
    intro e he
    rw [hheap] at he
    rw [hlen]
    exact h.registry.slots e he
  · rw [hseq, hlen]
    exact h.seq
  · rw [hsleeps, attr_set_of_eq Sleep.slot hi hslot]
    exact h.exclusive
  · intro e he
    rw [hheap] at he
    exact (h.entries e he).frame (hfired _) (hkept e.slot)
  · intro b hb
    rw [hsleeps] at hb
    rcases mem_set_cases hi hb with rfl | ⟨j, hji, hj⟩
    · exact hok
    · -- The other sleeps have other slots.
      refine (h.sleeps b (List.mem_of_getElem? hj)).frame hr ?_ ?_ ?_
      · intro k hk
        exact hslots k (h.slot_ne hi hj hji hk)
      · intro k _ _ he
        rw [hheap]
        exact he
      · intro k w hk hdel
        exact hdel.frame hcalls hwoken (hslots k (h.slot_ne hi hj hji hk))
  · intro j c hj
    rw [hcalls] at hj
    refine (h.calls j c hj).frame hr (by omega) (fun _ => hholder) (fun _ => hheap)
      (fun k _ => hfired k) ?_
    intro k _ b hb hk hg
    obtain ⟨b', hb', hs, -, hg'⟩ := hkept k b hb hk hg
    exact ⟨b', hb', by rw [hs, hk], hg'⟩

/-- A sleep takes a step that leaves the registry. -/
theorem Inv.moveLocal {s : State} (h : Inv s) {i : Nat} {a a' : Sleep} {readings : List Nat}
    (hi : s.sleeps[i]? = some a) (hr : s.readings ⊆ readings) (hslot : a'.slot = a.slot)
    (hd : a'.deadline = a.deadline) (hgone : a'.gone = a.gone ∨ a.slot = none)
    (hok : a'.Ok { s with readings, sleeps := s.sleeps.set i a' }) :
    Inv { s with readings, sleeps := s.sleeps.set i a' } :=
  h.moveSleep hi rfl rfl rfl rfl hr rfl rfl rfl (fun _ _ => rfl) (fun _ => rfl) hslot hd hgone hok

/-- The waker of a slot is stored or taken. Only the slot of this sleep changes. -/
theorem Inv.storeWaker {s : State} (h : Inv s) {i : Nat} {a a' : Sleep} {k : Nat} {slot : Slot}
    {waker : Option Waker} (hi : s.sleeps[i]? = some a) (hk : a.slot = some k)
    (hs : s.registry.slots[k]? = some slot) (hslot : a'.slot = a.slot)
    (hd : a'.deadline = a.deadline) (hgone : a'.gone = a.gone)
    (hok : a'.Ok ({ s with registry := s.registry.storeWaker k slot waker }.put i a')) :
    Inv ({ s with registry := s.registry.storeWaker k slot waker }.put i a') := by
  refine h.moveSleep hi rfl rfl rfl rfl (List.Subset.refl _) rfl rfl ?_ ?_ ?_ hslot hd (.inl hgone)
    hok
  · exact List.length_set
  · intro k' hk'
    show (s.registry.slots.set k { slot with waker })[k']? = s.registry.slots[k']?
    rw [getElem?_set_of_some hs, if_neg (fun heq => hk' (by rw [heq, hk]))]
  · intro k'
    show ((s.registry.slots.set k { slot with waker })[k']?).map Slot.fired = _
    rw [getElem?_set_of_some hs]
    split
    · rename_i heq
      rw [heq, hs]
      rfl
    · rfl

/-- The slot whose waker was stored or taken. -/
theorem getElem?_storeWaker {r : Registry} {k : Nat} {slot : Slot} (hs : r.slots[k]? = some slot)
    (waker : Option Waker) : (r.storeWaker k slot waker).slots[k]? = some { slot with waker } := by
  show (r.slots.set k { slot with waker })[k]? = _
  rw [getElem?_set_of_some hs, if_pos rfl]

/-- What an armed sleep knows of a slot that was read. -/
theorem Sleep.Ok.armed_at {s : State} {a : Sleep} (h : a.Ok s) {k : Nat} {slot : Slot}
    (hk : a.slot = some k) (hslot : s.registry.slots[k]? = some slot) : a.Armed s k slot := by
  obtain ⟨slot', hslot', ha⟩ := h.armed k hk
  rw [hslot, Option.some.injEq] at hslot'
  rw [hslot']
  exact ha

/-- A poll in progress has no result. -/
theorem Sleep.Ok.last_eq_none {s : State} {a : Sleep} (h : a.Ok s) (hpc : a.pc ≠ .idle)
    (hg : a.gone = false) : a.last = none := by
  by_contra hne
  rcases h.calm hne with hidle | hgone
  · exact hpc hidle
  · rw [hg] at hgone
    cases hgone

/-- The poll `a` goes on or returns `Ready`, and its slot is not concerned. -/
theorem Sleep.Ok.quiet {s : State} {a a' : Sleep} {readings : List Nat} {sleeps : List Sleep}
    (h : a.Ok s) (hr : s.readings ⊆ readings) (hslot : a'.slot = a.slot)
    (hd : a'.deadline = a.deadline) (hg : a'.gone = a.gone) (hpc : ∀ w, a'.pc ≠ .reloadFired w)
    (harm : ∀ w, a'.pc = .readClock w ∨ a'.pc = .arm w → a.slot = none)
    (hlast : a'.last = none ∨ a'.pc = .idle ∧ ∃ w, a'.last = some (w, true) ∧
      Passed { s with readings } a.deadline) :
    a'.Ok { s with readings, sleeps } := by
  refine ⟨?_, ?_, ?_, ?_⟩
  · intro hne
    rcases hlast with hlast | ⟨hidle, -⟩
    · exact absurd hlast hne
    · exact .inl hidle
  · intro w hw
    rcases hlast with hlast | ⟨-, w', -, hpassed⟩
    · rw [hlast] at hw
      cases hw
    · rw [hd]
      exact hpassed
  · intro k hk
    obtain ⟨slot, hs, ha⟩ := h.armed k (by rw [← hslot]; exact hk)
    refine ⟨slot, hs, ha.quiet hr rfl hd hg hpc ?_⟩
    intro w hw
    rcases hlast with hlast | ⟨-, w', hlast, -⟩ <;> rw [hlast] at hw <;> cases hw
  · intro w hw
    rw [hslot]
    exact harm w hw

/-- A poll starts. -/
theorem inv_poll {s s' : State} (h : Inv s) {i : Nat} {w : Waker}
    (hs : step s (.poll i w) = some s') : Inv s' := by
  simp only [step] at hs
  split at hs
  · rename_i a hi
    have hok := h.sleeps a (List.mem_of_getElem? hi)
    split at hs
    · rename_i k hpc hk
      cases hs
      refine h.moveLocal hi (List.Subset.refl _) rfl rfl (.inl ?_) ?_
      · simp [Sleep.gone, hpc]
      · exact hok.quiet (List.Subset.refl _) rfl rfl (by simp [Sleep.gone, hpc]) (by simp)
          (by simp) (.inl rfl)
    · rename_i hpc hk
      cases hs
      refine h.moveLocal hi (List.Subset.refl _) rfl rfl (.inl ?_) ?_
      · simp [Sleep.gone, hpc]
      · exact hok.quiet (List.Subset.refl _) rfl rfl (by simp [Sleep.gone, hpc]) (by simp)
          (fun _ _ => hk) (.inl rfl)
    · cases hs
  · cases hs

/-- A section of `PENDING` by a sleep: no call of `fire_due` is inside its own. -/
theorem Inv.not_inSection {s : State} (h : Inv s) (hholder : s.holder = none) {j : Nat}
    {c : FireDue} (hj : s.calls[j]? = some c) : c.pc.inSection ≠ true := by
  intro hsec
  have := (h.calls j c hj).holds hsec
  rw [hholder] at this
  cases this

/-- The calls of `fire_due` while a sleep has the lock. -/
theorem Inv.calls_outside {s s' : State} (h : Inv s) (hholder : s.holder = none)
    (hr : s.readings ⊆ s'.readings)
    (hlen : s.registry.slots.length ≤ s'.registry.slots.length) {j : Nat} {c : FireDue}
    (hj : s.calls[j]? = some c) : c.Ok s' j := by
  exact (h.calls j c hj).frame_outside (h.not_inSection hholder hj) hr hlen

/-- The slot of a sleep exists. -/
theorem Inv.slot_lt {s : State} (h : Inv s) {a : Sleep} (ha : a ∈ s.sleeps) {k : Nat}
    (hk : a.slot = some k) : k < s.registry.slots.length := by
  obtain ⟨slot, hs, -⟩ := (h.sleeps a ha).armed k hk
  exact (List.getElem?_eq_some_iff.mp hs).1

/-- The section of `arm`: a new slot, with an entry of its own. -/
theorem inv_arm {s : State} (h : Inv s) {i : Nat} {a : Sleep} {w : Waker}
    (hi : s.sleeps[i]? = some a) (hpc : a.pc = .arm w) (hholder : s.holder = none) :
    Inv ({ s with registry := (s.registry.arm a.deadline w).1 }.put i
      ({ a with slot := some s.registry.slots.length }.returns w false)) := by
  have hok := h.sleeps a (List.mem_of_getElem? hi)
  have hnone : a.slot = none := hok.arming w (.inr hpc)
  have hperm := Registry.arm_entries h.registry a.deadline w
  -- The slots that were there before are the same.
  have hold : ∀ k, k < s.registry.slots.length →
      (s.registry.arm a.deadline w).1.slots[k]? = s.registry.slots[k]? := by
    intro k hk
    exact List.getElem?_append_left hk
  have hnew : (s.registry.arm a.deadline w).1.slots[s.registry.slots.length]? =
      some { fired := false, waker := some w } := by
    show (s.registry.slots ++ [_])[_]? = _
    simp
  refine ⟨(Registry.arm_spec h.registry a.deadline w).1, ?_, ?_, ?_, ?_, ?_⟩
  · -- The sequence number counts the slots, modulo the width of the counter.
    have hlen : (s.registry.arm a.deadline w).1.slots.length = s.registry.slots.length + 1 := by
      show (s.registry.slots ++ [_]).length = _
      simp
    show (s.registry.seq + 1) % 2 ^ 64 = (s.registry.arm a.deadline w).1.slots.length % 2 ^ 64
    rw [hlen, h.seq, Nat.mod_add_mod]
  · show Exclusive (attr Sleep.slot (s.sleeps.set i _))
    rw [attr_set Sleep.slot hi]
    refine h.exclusive.update_some fun j _ hj => ?_
    obtain ⟨b, hb, hk⟩ := Option.bind_eq_some_iff.mp hj
    have := h.slot_lt (List.mem_of_getElem? hb) hk
    omega
  · intro e he
    -- The new entry is that of this sleep, and the others stay.
    rcases List.mem_cons.mp (hperm.subset he) with rfl | he
    · refine ⟨h.seq, ⟨_, mem_set_of_some hi _, rfl, rfl, rfl⟩, ?_⟩
      show ((s.registry.arm a.deadline w).1.slots[s.registry.slots.length]?).map _ = _
      rw [hnew]
      rfl
    · refine (h.entries e he).frame ?_ ?_
      · show ((s.registry.arm a.deadline w).1.slots[e.slot]?).map _ = _
        rw [hold _ (h.registry.slots e he)]
      · intro b hb hk hg
        rcases mem_set_of_mem hi ({ a with slot := some s.registry.slots.length }.returns w false)
          hb with rfl | hb
        · rw [hnone] at hk
          cases hk
        · exact ⟨b, hb, rfl, rfl, hg⟩
  · intro b hb
    rcases mem_set_cases hi hb with rfl | ⟨j, hji, hj⟩
    · -- The waker was stored with the slot, before the poll returned `Pending`.
      refine ⟨fun _ => .inl rfl, by simp [Sleep.returns], ?_, by simp [Sleep.returns]⟩
      intro k hk
      obtain rfl : s.registry.slots.length = k := Option.some.inj hk
      refine ⟨_, hnew, by simp, fun _ _ => ?_, by simp [Sleep.returns], ?_, by simp⟩
      · exact ⟨_, hperm.symm.subset List.mem_cons_self, rfl⟩
      · intro w' hw _ _
        have hw : some (w, false) = some (w', false) := hw
        cases hw
        rfl
    · have hbmem := List.mem_of_getElem? hj
      refine (h.sleeps b hbmem).frame (List.Subset.refl _) ?_ ?_ ?_
      · intro k hk
        exact hold k (h.slot_lt hbmem hk)
      · rintro k - - ⟨e, he, hek⟩
        exact ⟨e, hperm.symm.subset (List.mem_cons_of_mem _ he), hek⟩
      · intro k w' hk hdel
        exact hdel.frame rfl rfl (hold k (h.slot_lt hbmem hk))
  · intro j c hj
    refine h.calls_outside hholder ?_ ?_ hj
    · exact List.Subset.refl s.readings
    · show s.registry.slots.length ≤ (s.registry.slots ++ [_]).length
      simp

/-- The lock section of a drop: the entry of this sleep is taken out. -/
theorem inv_cancel {s : State} (h : Inv s) {i : Nat} {a : Sleep} {k : Nat} {r : Registry}
    (hi : s.sleeps[i]? = some a) (hpc : a.pc = .idle) (hk : a.slot = some k)
    (hholder : s.holder = none) (hr : s.registry.cancel k = some r) :
    Inv ({ s with registry := r }.put i { a with pc := .takeWaker }) := by
  have hok := h.sleeps a (List.mem_of_getElem? hi)
  obtain ⟨r', hr', hrok, hslots, hseq, hmem⟩ := Registry.cancel_exact h.registry k
  rw [hr] at hr'
  cases hr'
  refine ⟨hrok, ?_, ?_, ?_, ?_, ?_⟩
  · show r.seq = r.slots.length % 2 ^ 64
    rw [hseq, hslots]
    exact h.seq
  · show Exclusive (attr Sleep.slot (s.sleeps.set i _))
    rw [attr_set_of_eq (b := { a with pc := .takeWaker }) Sleep.slot hi rfl]
    exact h.exclusive
  · -- The entries that are left have other slots.
    intro e he
    obtain ⟨he, hne⟩ := (hmem e).mp he
    refine (h.entries e he).frame ?_ ?_
    · show (r.slots[e.slot]?).map _ = _
      rw [hslots]
    · intro b hb hbk hg
      rcases mem_set_of_mem hi { a with pc := .takeWaker } hb with rfl | hb
      · rw [hk, Option.some.injEq] at hbk
        exact absurd hbk.symm hne
      · exact ⟨b, hb, rfl, rfl, hg⟩
  · intro b hb
    rcases mem_set_cases hi hb with rfl | ⟨j, hji, hj⟩
    · refine ⟨fun _ => .inr rfl, hok.ready, ?_, by simp⟩
      intro k' hk'
      obtain ⟨slot, hs, ha⟩ := hok.armed k' hk'
      have hs' : r.slots[k']? = some slot := by
        rw [hslots]
        exact hs
      refine ⟨slot, hs', ha.passed, ?_, by simp, ?_, ?_⟩
      · intro _ hg
        cases hg
      · intro _ _ _ hg
        cases hg
      intro w hw hf
      exact (ha.delivered w hw hf).frame rfl rfl (by rw [← hs] at hs'; exact hs')
    · -- The heap lost no entry of another sleep.
      refine (h.sleeps b (List.mem_of_getElem? hj)).frame (List.Subset.refl _) ?_ ?_ ?_
      · intro k' _
        show r.slots[k']? = _
        rw [hslots]
      · rintro k' hk' - ⟨e, he, hek⟩
        refine ⟨e, (hmem e).mpr ⟨he, fun hne => h.slot_ne hi hj hji hk' ?_⟩, hek⟩
        rw [hk, ← hne, hek]
      · intro k' w _ hdel
        refine hdel.frame rfl rfl ?_
        show r.slots[k']? = _
        rw [hslots]
  · intro j c hj
    refine h.calls_outside hholder ?_ ?_ hj
    · exact List.Subset.refl s.readings
    · show s.registry.slots.length ≤ r.slots.length
      rw [hslots]

/-- A poll stores its waker. -/
theorem inv_storeWaker {s : State} (h : Inv s) {i k : Nat} {a : Sleep} {w : Waker} {slot : Slot}
    (hi : s.sleeps[i]? = some a) (hpc : a.pc = .storeWaker w) (hk : a.slot = some k)
    (hslot : s.registry.slots[k]? = some slot) :
    Inv ({ s with registry := s.registry.storeWaker k slot (some w) }.put i
      { a with pc := .reloadFired w }) := by
  have hok := h.sleeps a (List.mem_of_getElem? hi)
  have hlast : a.last = none := hok.last_eq_none (by simp [hpc]) (by simp [Sleep.gone, hpc])
  have ha := hok.armed_at hk hslot
  refine h.storeWaker hi hk hslot rfl rfl (by simp [Sleep.gone, hpc]) ?_
  refine ⟨fun hne => absurd hlast hne, ?_, ?_, by simp⟩
  · intro w' hw
    rw [show a.last = some (w', true) from hw] at hlast
    cases hlast
  · intro k' hk'
    rw [show a.slot = some k' from hk'] at hk
    cases hk
    -- The waker that is stored is the one that a driver will take.
    refine ⟨_, getElem?_storeWaker hslot (some w), ha.passed, ?_, ?_, ?_, ?_⟩
    · intro hf _
      exact ha.queued hf (by simp [Sleep.gone, hpc])
    · intro w' hw _
      cases hw
      rfl
    · intro w' hw
      rw [show a.last = some (w', false) from hw] at hlast
      cases hlast
    · intro w' hw
      rw [show a.last = some (w', false) from hw] at hlast
      cases hlast

/-- A poll reads the flag again and returns. -/
theorem inv_reloadFired {s : State} (h : Inv s) {i k : Nat} {a : Sleep} {w : Waker} {slot : Slot}
    (hi : s.sleeps[i]? = some a) (hpc : a.pc = .reloadFired w) (hk : a.slot = some k)
    (hslot : s.registry.slots[k]? = some slot) : Inv (s.put i (a.returns w slot.fired)) := by
  have hok := h.sleeps a (List.mem_of_getElem? hi)
  have ha := hok.armed_at hk hslot
  refine h.moveLocal hi (List.Subset.refl _) rfl rfl
    (.inl (by simp [Sleep.gone, Sleep.returns, hpc])) ?_
  refine ⟨fun _ => .inl rfl, ?_, ?_, by simp [Sleep.returns]⟩
  · intro w' hw
    have hw : some (w, slot.fired) = some (w', true) := hw
    simp only [Option.some.injEq, Prod.mk.injEq] at hw
    exact ha.passed hw.2
  · intro k' hk'
    rw [show a.slot = some k' from hk'] at hk
    cases hk
    refine ⟨slot, hslot, ha.passed, ?_, by simp [Sleep.returns], ?_, ?_⟩
    · intro hf _
      exact ha.queued hf (by simp [Sleep.gone, hpc])
    -- The waker was stored before the flag was found clear.
    · intro w' hw hf _
      have hw : some (w, slot.fired) = some (w', false) := hw
      simp only [Option.some.injEq, Prod.mk.injEq] at hw
      rw [← hw.1]
      exact ha.reload w hpc hf
    · intro w' hw hf
      have hw : some (w, slot.fired) = some (w', false) := hw
      rw [hf] at hw
      cases hw

/-- A drop clears the waker of its slot. -/
theorem inv_takeWaker {s : State} (h : Inv s) {i k : Nat} {a : Sleep} {slot : Slot}
    (hi : s.sleeps[i]? = some a) (hpc : a.pc = .takeWaker) (hk : a.slot = some k)
    (hslot : s.registry.slots[k]? = some slot) :
    Inv ({ s with registry := s.registry.storeWaker k slot none }.put i
      { a with pc := .dropped }) := by
  have hok := h.sleeps a (List.mem_of_getElem? hi)
  have hgone : a.gone = true := by simp [Sleep.gone, hpc]
  have ha := hok.armed_at hk hslot
  refine h.storeWaker hi hk hslot rfl rfl (by simp [Sleep.gone, hpc]) ?_
  refine ⟨fun _ => .inr rfl, hok.ready, ?_, by simp⟩
  intro k' hk'
  rw [show a.slot = some k' from hk'] at hk
  cases hk
  refine ⟨_, getElem?_storeWaker hslot none, ha.passed, ?_, by simp, ?_, ?_⟩
  · intro _ hg
    cases hg
  · intro _ _ _ hg
    cases hg
  -- No driver has this waker in hand: the drop took the lock before.
  · intro w hw hf
    rcases ha.delivered w hw hf with ⟨c, hc, hcpc, -⟩ | hdel
    · obtain ⟨j, hj⟩ := List.getElem?_of_mem hc
      obtain ⟨-, b, hb, hbk, hbg⟩ := (h.calls j c hj).fired k hcpc
      obtain rfl : a = b := h.slot_inj (List.mem_of_getElem? hi) hb hk' hbk
      rw [hgone] at hbg
      cases hbg
    · exact .inr hdel

/-- The next step of a call on a sleep keeps the invariant. -/
theorem inv_sleepStep {s s' : State} (h : Inv s) {i : Nat} {a : Sleep}
    (hi : s.sleeps[i]? = some a) (hs : sleepStep s i a = some s') : Inv s' := by
  have hok := h.sleeps a (List.mem_of_getElem? hi)
  have hrefl := List.Subset.refl s.readings
  unfold sleepStep at hs
  cases hpc : a.pc with
  | idle =>
    rw [hpc] at hs
    cases hs
  | dropped =>
    rw [hpc] at hs
    cases hs
  | loadFired w =>
    simp only [hpc] at hs
    have hlast : a.last = none := hok.last_eq_none (by simp [hpc]) (by simp [Sleep.gone, hpc])
    split at hs
    · cases hs
    · rename_i slot hslot
      obtain ⟨k, hk, hslot⟩ := Option.bind_eq_some_iff.mp hslot
      have ha := hok.armed_at hk hslot
      split at hs <;> cases hs
      -- The flag is set, so a driver has read the clock.
      · rename_i hf
        refine h.moveLocal hi hrefl rfl rfl (.inl (by simp [Sleep.gone, Sleep.returns, hpc])) ?_
        exact hok.quiet hrefl rfl rfl (by simp [Sleep.gone, Sleep.returns, hpc])
          (by simp [Sleep.returns]) (by simp [Sleep.returns]) (.inr ⟨rfl, w, rfl, ha.passed hf⟩)
      · refine h.moveLocal hi hrefl rfl rfl (.inl (by simp [Sleep.gone, hpc])) ?_
        exact hok.quiet hrefl rfl rfl (by simp [Sleep.gone, hpc]) (by simp) (by simp) (.inl hlast)
  | storeWaker w =>
    simp only [hpc] at hs
    split at hs
    · cases hs
    · rename_i k hk
      split at hs
      · cases hs
      · rename_i slot hslot
        cases hs
        exact inv_storeWaker h hi hpc hk hslot
  | reloadFired w =>
    simp only [hpc] at hs
    split at hs
    · cases hs
    · rename_i slot hslot
      cases hs
      obtain ⟨k, hk, hslot⟩ := Option.bind_eq_some_iff.mp hslot
      exact inv_reloadFired h hi hpc hk hslot
  | readClock w =>
    simp only [hpc] at hs
    have hlast : a.last = none := hok.last_eq_none (by simp [hpc]) (by simp [Sleep.gone, hpc])
    have hr : s.readings ⊆ s.readings ++ [nowNs s] := List.subset_append_left _ _
    split at hs <;> cases hs
    · -- The deadline has passed by this reading, which is recorded.
      rename_i hle
      refine h.moveLocal hi hr rfl rfl (.inl (by simp [Sleep.gone, Sleep.returns, hpc])) ?_
      refine hok.quiet hr rfl rfl (by simp [Sleep.gone, Sleep.returns, hpc])
        (by simp [Sleep.returns]) (by simp [Sleep.returns]) (.inr ⟨rfl, w, rfl, nowNs s, ?_, hle⟩)
      exact List.mem_append_right _ (List.mem_singleton_self _)
    · -- The clock has not reached the deadline, so the sleep goes on to arm.
      refine h.moveLocal hi hr rfl rfl (.inl (by simp [Sleep.gone, hpc])) ?_
      refine hok.quiet hr rfl rfl (by simp [Sleep.gone, hpc]) (by simp) ?_ (.inl hlast)
      intro _ _
      exact hok.arming w (.inl hpc)
  | arm w =>
    simp only [hpc] at hs
    split at hs
    · cases hs
    · rename_i hholder
      cases hs
      exact inv_arm h hi hpc hholder
  | takeWaker =>
    simp only [hpc] at hs
    split at hs
    · cases hs
    · rename_i k hk
      split at hs
      · cases hs
      · rename_i slot hslot
        cases hs
        exact inv_takeWaker h hi hpc hk hslot

/-- A drop starts: the sleep was never armed, or its entry is taken out. -/
theorem inv_drop {s s' : State} (h : Inv s) {i : Nat} (hs : step s (.drop i) = some s') :
    Inv s' := by
  simp only [step] at hs
  split at hs
  · rename_i a hi
    have hok := h.sleeps a (List.mem_of_getElem? hi)
    split at hs
    · rename_i hpc hk
      cases hs
      refine h.moveLocal hi (List.Subset.refl _) rfl rfl (.inr hk) ?_
      refine ⟨fun _ => .inr rfl, hok.ready, ?_, by simp⟩
      intro k hk'
      rw [show a.slot = some k from hk'] at hk
      cases hk
    · rename_i k hpc hk
      split at hs
      · cases hs
      · rename_i hholder
        split at hs
        · cases hs
        · rename_i r hr
          cases hs
          exact inv_cancel h hi hpc hk hholder hr
    · cases hs
  · cases hs

/-! ### The steps of `fire_due` -/

/-- One more entry is popped. -/
theorem FireDue.Popped.pop {c : FireDue} {rest rest' : List Entry} {e : Entry} {k : Nat}
    (h : c.Popped rest) (hperm : (e :: rest').Perm rest) (hdue : e.deadline ≤ c.now)
    (hmin : ∀ f ∈ rest, e.key ≤ f.key) :
    FireDue.Popped { c with pc := .takeWaker k, removed := c.removed ++ [e] } rest' := by
  have he : e ∈ rest := hperm.subset List.mem_cons_self
  have hsub : ∀ f ∈ rest', f ∈ rest := fun f hf => hperm.subset (List.mem_cons_of_mem _ hf)
  refine ⟨?_, ?_, ?_, ?_, h.distinct⟩
  · show (c.removed ++ [e] ++ rest').Perm c.before
    rw [List.append_assoc]
    exact (hperm.append_left c.removed).trans h.all
  · intro f hf
    rcases List.mem_append.mp hf with hf | hf
    · exact h.due f hf
    · rw [List.mem_singleton.mp hf]
      exact hdue
  · show (c.removed ++ [e]).Pairwise _
    rw [List.pairwise_append]
    refine ⟨h.order, List.pairwise_singleton _ _, ?_⟩
    intro f hf g hg
    rw [List.mem_singleton.mp hg]
    exact h.first f hf e he
  · intro f hf g hg
    rcases List.mem_append.mp hf with hf | hf
    · exact h.first f hf g (hsub g hg)
    · rw [List.mem_singleton.mp hf]
      exact hmin g (hsub g hg)

/-- The deadline that `fire_due` reports is the least that is left. -/
theorem peek_deadline {heap : TimerHeap} (hok : heap.HeapOk) :
    heap.peek.map Entry.deadline = (heap.entries.map Entry.deadline).min? := by
  cases hp : heap.peek with
  | none =>
    rw [TimerHeap.peek_eq_none.mp hp]
    rfl
  | some e =>
    symm
    rw [Option.map_some, List.min?_eq_some_iff]
    refine ⟨List.mem_map_of_mem (TimerHeap.peek_mem hp), ?_⟩
    intro d hd
    obtain ⟨f, hf, rfl⟩ := List.mem_map.mp hd
    exact hok.peek_le hp f hf

/-- A call whose section is over. -/
theorem FireDue.Ok.over {s s' : State} {j : Nat} {c : FireDue} {pc : FirePc}
    {due : List (Nat × Waker)} {next : Option Nat} {rest : List Entry} (h : c.Ok s j)
    (hr : s'.readings = s.readings) (hregistry : s'.registry = s.registry)
    (hpc : pc.next = some next) (hp : c.Popped rest) (hlater : ∀ f ∈ rest, c.now < f.deadline)
    (hnext : next = (rest.map Entry.deadline).min?) : FireDue.Ok s' j { c with pc, due } := by
  have hout : pc ≠ .lock ∧ pc.inSection ≠ true ∧ ∀ k, pc ≠ .takeWaker k := by
    cases pc with
    | lock | scan | takeWaker k => cases hpc
    | wake | returned => simp [FirePc.inSection]
  refine ⟨?_, ?_, fun hl => absurd hl hout.1, fun hs => absurd hs hout.2.1,
    fun hs => absurd hs hout.2.1, fun k hk => absurd hk (hout.2.2 k), ?_⟩
  · rw [hr]
    exact h.reading
  · rw [hregistry]
    exact h.found
  · intro next' hnext'
    rw [show pc.next = some next' from hnext', Option.some.injEq] at hpc
    rw [hpc]
    exact ⟨rest, ⟨hp.all, hp.due, hp.order, hp.first, hp.distinct⟩, hlater, hnext⟩

/-- A call of `fire_due` takes a step that leaves the registry. -/
theorem Inv.moveCall {s : State} (h : Inv s) {j : Nat} {c c' : FireDue} {holder : Option Nat}
    {woken : List (Nat × Waker)} (hj : s.calls[j]? = some c)
    (hholder : ∀ j', j' ≠ j → s.holder = some j' → holder = some j')
    (hpc : ∀ k, c.pc ≠ .takeWaker k)
    (hdue : ∀ d, d ∈ c.due → d ∈ c'.due ∨ d ∈ woken) (hwoken : s.woken ⊆ woken)
    (hok : c'.Ok { s with holder, woken, calls := s.calls.set j c' } j) :
    Inv { s with holder, woken, calls := s.calls.set j c' } := by
  refine ⟨h.registry, h.seq, h.exclusive, ?_, ?_, ?_⟩
  · intro e he
    refine (h.entries e he).frame rfl ?_
    intro a ha _ hg
    exact ⟨a, ha, rfl, rfl, hg⟩
  · -- A waker that was in hand or due stays so, or it is called in this step.
    intro a ha
    refine (h.sleeps a ha).frame (List.Subset.refl _) (fun _ _ => rfl) (fun _ _ _ he => he) ?_
    intro k w _ hdel
    exact hdel.move hj rfl (hpc k) hdue hwoken rfl
  · intro j' d hd
    rw [show State.calls _ = s.calls.set j c' from rfl, getElem?_set_of_some hj] at hd
    split at hd
    · rename_i hjj
      cases hd
      rw [hjj]
      exact hok
    · rename_i hjj
      -- The other calls are outside the section, or they hold it as before.
      refine (h.calls j' d hd).frame (List.Subset.refl _) (Nat.le_refl _) ?_ (fun _ => rfl)
        (fun _ _ => rfl) ?_
      · intro hsec
        have hh := (h.calls j' d hd).holds hsec
        rw [hh]
        exact hholder j' hjj hh
      · intro k _ a ha hk hg
        exact ⟨a, ha, hk, hg⟩

/-- The other calls, while the call `j` is in its section. -/
theorem Inv.other_calls {s s' : State} (h : Inv s) {j j' : Nat} {c d : FireDue}
    (hj : s.calls[j]? = some c) (hsec : c.pc.inSection = true) (hj' : s.calls[j']? = some d)
    (hne : j' ≠ j) (hr : s.readings ⊆ s'.readings)
    (hlen : s.registry.slots.length ≤ s'.registry.slots.length) : d.Ok s' j' := by
  have hout : d.pc.inSection ≠ true := by
    intro hd
    have h1 := (h.calls j c hj).holds hsec
    have h2 := (h.calls j' d hj').holds hd
    rw [h1, Option.some.injEq] at h2
    exact hne h2.symm
  exact (h.calls j' d hj').frame_outside hout hr hlen

/-- An entry that is due is popped, and its slot is fired. -/
theorem inv_pop {s : State} (h : Inv s) {j : Nat} {c : FireDue} {heap : TimerHeap} {e : Entry}
    {slot : Slot} (hj : s.calls[j]? = some c) (hpc : c.pc = .scan)
    (hp : s.registry.heap.peek = some e) (hdue : e.deadline ≤ c.now) (hheap : heap.HeapOk)
    (hperm : (e :: heap.entries).Perm s.registry.heap.entries)
    (hslot : s.registry.slots[e.slot]? = some slot) :
    Inv ({ s with registry :=
      { s.registry with
        heap, slots := s.registry.slots.set e.slot { slot with fired := true } } }.putCall j
      { c with pc := .takeWaker e.slot, removed := c.removed ++ [e] }) := by
  have hcok := h.calls j c hj
  have hsec : c.pc.inSection = true := by rw [hpc]; rfl
  have he : e ∈ s.registry.heap.entries := TimerHeap.peek_mem hp
  have heok := h.entries e he
  have hfired : slot.fired = false := by simpa [hslot] using heok.fired
  -- No entry that is left has this slot.
  have hleft : ∀ f ∈ heap.entries, f ∈ s.registry.heap.entries ∧ f.slot ≠ e.slot := by
    intro f hf
    have hnodup : ((e :: heap.entries).map Entry.slot).Nodup :=
      (hperm.map Entry.slot).nodup_iff.mpr h.registry.heap.indexed.nodup
    rw [List.map_cons, List.nodup_cons] at hnodup
    refine ⟨hperm.subset (List.mem_cons_of_mem _ hf), fun hfs => hnodup.1 ?_⟩
    rw [← hfs]
    exact List.mem_map_of_mem hf
  have hset : ∀ k, k ≠ e.slot →
      (s.registry.slots.set e.slot { slot with fired := true })[k]? = s.registry.slots[k]? := by
    intro k hk
    rw [getElem?_set_of_some hslot, if_neg hk]
  have hself : (s.registry.slots.set e.slot { slot with fired := true })[e.slot]? =
      some { slot with fired := true } := by
    rw [getElem?_set_of_some hslot, if_pos rfl]
  obtain ⟨a, hamem, hak, had, hag⟩ := heok.sleep
  refine ⟨⟨hheap, ?_⟩, ?_, h.exclusive, ?_, ?_, ?_⟩
  · intro f hf
    show f.slot < (s.registry.slots.set e.slot _).length
    rw [List.length_set]
    exact h.registry.slots f (hleft f hf).1
  · -- The slots are as many as before.
    show s.registry.seq = (s.registry.slots.set e.slot _).length % 2 ^ 64
    rw [List.length_set]
    exact h.seq
  · intro f hf
    obtain ⟨hf, hne⟩ := hleft f hf
    refine (h.entries f hf).frame ?_ fun b hb _ hg => ⟨b, hb, rfl, rfl, hg⟩
    show ((s.registry.slots.set e.slot _)[f.slot]?).map Slot.fired = _
    rw [hset _ hne]
  · intro b hb
    have hbok := h.sleeps b hb
    by_cases hbk : b.slot = some e.slot
    -- The sleep of this entry: its slot is fired now, and its waker is in hand.
    · obtain rfl : b = a := h.slot_inj hb hamem hbk hak
      refine ⟨hbok.calm, hbok.ready, ?_, hbok.arming⟩
      intro k hk
      rw [hbk, Option.some.injEq] at hk
      subst hk
      have ha := hbok.armed_at hbk hslot
      refine ⟨_, hself, ?_, by simp, by simp, by simp, ?_⟩
      · intro _
        exact ⟨c.now, hcok.reading, by omega⟩
      · intro w hw _
        refine .inl ⟨_, mem_set_of_some hj _, rfl, ?_⟩
        show ((s.registry.slots.set e.slot _)[e.slot]?).bind Slot.waker = some w
        rw [hself]
        exact ha.waker w hw hfired hag
    · have hother : ∀ k, b.slot = some k → k ≠ e.slot := by
        intro k hk hke
        rw [hke] at hk
        exact hbk hk
      refine hbok.frame (List.Subset.refl _) (fun k hk => hset k (hother k hk)) ?_ ?_
      · rintro k hk - ⟨f, hf, hfk⟩
        rcases List.mem_cons.mp (hperm.symm.subset hf) with rfl | hf
        · exact absurd hfk.symm (hother k hk)
        · exact ⟨f, hf, hfk⟩
      · intro k w hk hdel
        exact hdel.move hj rfl (by simp [hpc]) (fun _ hd => .inl hd) (List.Subset.refl _)
          (hset k (hother k hk))
  · intro j' d hd
    rw [show State.calls _ = s.calls.set j _ from rfl, getElem?_set_of_some hj] at hd
    split at hd
    · rename_i hjj
      cases hd
      rw [hjj]
      refine ⟨hcok.reading, ?_, by simp, fun _ => hcok.holds hsec, ?_, ?_, by simp [FirePc.next]⟩
      · intro f hf
        show _ ∧ f.slot < (s.registry.slots.set e.slot _).length
        rw [List.length_set]
        exact hcok.found f hf
      · intro _
        exact (hcok.popped hsec).pop hperm hdue (h.registry.heap.peek_key_le hp)
      · intro k hk
        cases hk
        refine ⟨?_, a, hamem, hak, hag⟩
        show ((s.registry.slots.set e.slot _)[e.slot]?).map Slot.fired = some true
        rw [hself]
        rfl
    · rename_i hjj
      refine h.other_calls hj hsec hd hjj ?_ ?_
      · exact List.Subset.refl s.readings
      · show _ ≤ (s.registry.slots.set e.slot _).length
        rw [List.length_set]

/-- The waker of the slot that was fired is taken. -/
theorem inv_take {s : State} (h : Inv s) {j k : Nat} {c : FireDue} {slot : Slot}
    (hj : s.calls[j]? = some c) (hpc : c.pc = .takeWaker k)
    (hslot : s.registry.slots[k]? = some slot) :
    Inv ({ s with registry := s.registry.storeWaker k slot none }.putCall j
      { c with pc := .scan, due := c.due ++ slot.waker.toList.map fun waker => (k, waker) }) := by
  have hcok := h.calls j c hj
  have hsec : c.pc.inSection = true := by rw [hpc]; rfl
  have hlen : (s.registry.storeWaker k slot none).slots.length = s.registry.slots.length :=
    List.length_set
  have hother : ∀ k', k' ≠ k →
      (s.registry.storeWaker k slot none).slots[k']? = s.registry.slots[k']? := by
    intro k' hk'
    show (s.registry.slots.set k _)[k']? = _
    rw [getElem?_set_of_some hslot, if_neg hk']
  have hflag : ∀ k' : Nat, ((s.registry.storeWaker k slot none).slots[k']?).map Slot.fired =
      (s.registry.slots[k']?).map Slot.fired := by
    -- Only the waker of the slot is taken, and its flag stays.
    intro k'
    by_cases hk' : k' = k
    · rw [hk', getElem?_storeWaker hslot, hslot]
      rfl
    · rw [hother k' hk']
  have hfired : slot.fired = true := by simpa [hslot] using (hcok.fired k hpc).1
  refine ⟨⟨h.registry.heap, ?_⟩, ?_, h.exclusive, ?_, ?_, ?_⟩
  · intro e he
    show e.slot < (s.registry.storeWaker k slot none).slots.length
    rw [hlen]
    exact h.registry.slots e he
  · show s.registry.seq = (s.registry.storeWaker k slot none).slots.length % 2 ^ 64
    rw [hlen]
    exact h.seq
  · intro e he
    exact (h.entries e he).frame (hflag _) fun b hb _ hg => ⟨b, hb, rfl, rfl, hg⟩
  · intro b hb
    have hbok := h.sleeps b hb
    by_cases hbk : b.slot = some k
    · refine ⟨hbok.calm, hbok.ready, ?_, hbok.arming⟩
      intro k' hk
      rw [hbk, Option.some.injEq] at hk
      subst hk
      have ha := hbok.armed_at hbk hslot
      refine ⟨_, getElem?_storeWaker hslot none, ha.passed, ?_, ?_, ?_, ?_⟩
      · simp [hfired]
      · simp [hfired]
      · simp [hfired]
      -- The waker moves from the slot to the due list.
      · intro w hw hf
        rcases ha.delivered w hw hf with ⟨d, -, -, hwaker⟩ | ⟨d, hd, hdd⟩ | hwk
        · refine .inr (.inl ⟨_, mem_set_of_some hj _, List.mem_append_right _ ?_⟩)
          rw [hslot, Option.bind_some] at hwaker
          rw [hwaker]
          exact List.mem_singleton_self _
        · rcases mem_set_of_mem hj _ hd with rfl | hd'
          · exact .inr (.inl ⟨_, mem_set_of_some hj _, List.mem_append_left _ hdd⟩)
          · exact .inr (.inl ⟨d, hd', hdd⟩)
        · exact .inr (.inr hwk)
    · have hne : ∀ k', b.slot = some k' → k' ≠ k := by
        intro k' hk' heq
        rw [heq] at hk'
        exact hbk hk'
      refine hbok.frame (List.Subset.refl _) (fun k' hk' => hother k' (hne k' hk'))
        (fun _ _ _ he => he) ?_
      intro k' w hk' hdel
      refine hdel.move hj rfl ?_ (fun _ hd => .inl (List.mem_append_left _ hd))
        (List.Subset.refl _) (hother k' (hne k' hk'))
      rw [hpc]
      intro heq
      cases heq
      exact hne k hk' rfl
  · intro j' d hd
    rw [show State.calls _ = s.calls.set j _ from rfl, getElem?_set_of_some hj] at hd
    split at hd
    · rename_i hjj
      cases hd
      rw [hjj]
      have hp := hcok.popped hsec
      refine ⟨hcok.reading, ?_, by simp, fun _ => hcok.holds hsec, ?_, by simp,
        by simp [FirePc.next]⟩
      · intro e he
        show _ ∧ e.slot < (s.registry.storeWaker k slot none).slots.length
        rw [hlen]
        exact hcok.found e he
      · intro _
        exact ⟨hp.all, hp.due, hp.order, hp.first, hp.distinct⟩
    · rename_i hjj
      refine h.other_calls hj hsec hd hjj ?_ ?_
      · exact List.Subset.refl s.readings
      · show _ ≤ (s.registry.storeWaker k slot none).slots.length
        rw [hlen]

/-- The next step of a call of `fire_due` keeps the invariant. -/
theorem inv_fireStep {s s' : State} (h : Inv s) {j : Nat} {c : FireDue}
    (hj : s.calls[j]? = some c) (hs : fireStep s j c = some s') : Inv s' := by
  have hcok := h.calls j c hj
  unfold fireStep at hs
  cases hpc : c.pc with
  -- The section begins, and what the heap holds now is what the call found.
  | lock =>
    simp only [hpc] at hs
    split at hs
    · cases hs
    · rename_i hholder
      cases hs
      have hremoved := hcok.start hpc
      refine h.moveCall hj ?_ (by simp [hpc]) (fun _ hd => .inl hd) (List.Subset.refl _) ?_
      · intro j' _ hj'
        rw [hholder] at hj'
        cases hj'
      · refine ⟨hcok.reading, ?_, by simp, fun _ => rfl, ?_, by simp, by simp [FirePc.next]⟩
        · intro e he
          exact ⟨(h.entries e he).seq, h.registry.slots e he⟩
        -- Nothing is popped yet.
        · intro _
          refine ⟨?_, ?_, ?_, ?_, h.registry.heap.indexed.nodup⟩ <;> simp [hremoved]
  | scan =>
    have hsec : c.pc.inSection = true := by rw [hpc]; rfl
    have hp := hcok.popped hsec
    -- The end of the section, when no entry that is left is due.
    have hunlock : (∀ f ∈ s.registry.heap.entries, c.now < f.deadline) →
        Inv ({ s with holder := none }.putCall j
          { c with pc := .wake (s.registry.heap.peek.map Entry.deadline) !c.due.isEmpty }) := by
      intro hlater
      refine h.moveCall hj ?_ (by simp [hpc]) (fun _ hd => .inl hd) (List.Subset.refl _) ?_
      · intro j' hne hj'
        rw [hcok.holds hsec, Option.some.injEq] at hj'
        exact absurd hj'.symm hne
      · exact hcok.over rfl rfl rfl hp hlater (peek_deadline h.registry.heap)
    simp only [hpc] at hs
    split at hs
    · -- The heap is empty.
      rename_i hpeek
      cases hs
      refine hunlock ?_
      rw [TimerHeap.peek_eq_none.mp hpeek]
      simp
    · rename_i e hpeek
      split at hs
      · -- The first entry is not due, so none is.
        rename_i hlater
        cases hs
        refine hunlock fun f hf => ?_
        have := h.registry.heap.peek_le hpeek f hf
        omega
      · -- The first entry is due, and it is popped.
        rename_i hdue
        obtain ⟨heap, hpop, hheap, hperm⟩ := TimerHeap.pop_spec h.registry.heap hpeek
        simp only [hpop] at hs
        split at hs
        · cases hs
        · rename_i slot hslot
          cases hs
          exact inv_pop h hj hpc hpeek (Nat.not_lt.mp hdue) hheap hperm hslot
  | takeWaker k =>
    simp only [hpc] at hs
    split at hs
    · cases hs
    · rename_i slot hslot
      cases hs
      exact inv_take h hj hpc hslot
  | wake next woke =>
    have hfin := hcok.finished next (by rw [hpc]; rfl)
    obtain ⟨rest, hp, hlater, hnext⟩ := hfin
    simp only [hpc] at hs
    split at hs
    · -- All wakers are called.
      rename_i hnil
      cases hs
      exact h.moveCall hj (fun _ _ hj' => hj') (by simp [hpc]) (fun _ hd => .inl hd)
        (List.Subset.refl _) (hcok.over rfl rfl rfl hp hlater hnext)
    · -- A waker moves from the due list to those that were called.
      rename_i d due hdue
      cases hs
      refine h.moveCall hj (fun _ _ hj' => hj') (by simp [hpc]) ?_ (List.subset_append_left _ _) ?_
      · intro x hx
        rw [hdue] at hx
        rcases List.mem_cons.mp hx with rfl | hx
        · exact .inr (List.mem_append_right _ (List.mem_singleton_self _))
        · exact .inl hx
      · exact hcok.over rfl rfl rfl hp hlater hnext
  | returned next woke =>
    simp only [hpc] at hs
    cases hs

/-! ### The system -/

/-- The clock is read, a sleep is made, or a call of `fire_due` starts. -/
theorem Inv.grow {s s' : State} (h : Inv s) (hregistry : s'.registry = s.registry)
    (hholder : s'.holder = s.holder) (hwoken : s'.woken = s.woken)
    (hr : s.readings ⊆ s'.readings)
    (hsleeps : s'.sleeps = s.sleeps ∨ ∃ deadline, s'.sleeps = s.sleeps ++
      [{ deadline, slot := none, pc := .idle, last := none }])
    (hcalls : s'.calls = s.calls ∨ ∃ now ∈ s.readings, s'.calls = s.calls ++
      [{ now, pc := .lock, due := [], before := [], removed := [] }]) : Inv s' := by
  -- Nothing that was there goes away.
  have hkept : s.sleeps ⊆ s'.sleeps := by
    rcases hsleeps with hs | ⟨_, hs⟩ <;> rw [hs]
    · exact List.Subset.refl _
    · exact List.subset_append_left _ _
  have hcalled : s.calls ⊆ s'.calls := by
    rcases hcalls with hc | ⟨_, _, hc⟩ <;> rw [hc]
    · exact List.Subset.refl _
    · exact List.subset_append_left _ _
  have hold : ∀ a : Sleep, a.Ok s → a.Ok s' := by
    intro a ha
    refine ha.frame hr (fun k _ => by rw [hregistry]) (fun k _ _ he => by rw [hregistry]; exact he)
      ?_
    intro k w _ hdel
    unfold Delivered InHand
    rw [hregistry, hwoken]
    rcases hdel with ⟨c, hc, hpc, hw⟩ | ⟨c, hc, hd⟩ | hw
    · exact .inl ⟨c, hcalled hc, hpc, hw⟩
    · exact .inr (.inl ⟨c, hcalled hc, hd⟩)
    · exact .inr (.inr hw)
  have hcall : ∀ (j : Nat) (c : FireDue), c.Ok s j → c.Ok s' j := by
    intro j c hc
    refine hc.frame hr (by rw [hregistry]) (fun _ => hholder) (fun _ => by rw [hregistry])
      (fun _ _ => by rw [hregistry]) ?_
    intro k _ a ha hk hg
    exact ⟨a, hkept ha, hk, hg⟩
  refine ⟨by rw [hregistry]; exact h.registry, by rw [hregistry]; exact h.seq, ?_, ?_, ?_, ?_⟩
  · rcases hsleeps with hs | ⟨d, hs⟩ <;> rw [hs]
    · exact h.exclusive
    · rw [attr_append_of_none Sleep.slot _ rfl]
      exact h.exclusive
  · intro e he
    rw [hregistry] at he
    exact (h.entries e he).frame (by rw [hregistry]) fun a ha _ hg => ⟨a, hkept ha, rfl, rfl, hg⟩
  · intro a ha
    rcases hsleeps with hs | ⟨d, hs⟩ <;> rw [hs] at ha
    · exact hold a (h.sleeps a ha)
    · -- A new sleep has no slot and has returned nothing.
      rcases List.mem_append.mp ha with ha | ha
      · exact hold a (h.sleeps a ha)
      · rw [List.mem_singleton.mp ha]
        exact ⟨by simp, by simp, by simp, by simp⟩
  · intro j c hj
    rcases hcalls with hc | ⟨now, hnow, hc⟩ <;> rw [hc] at hj
    · exact hcall j c (h.calls j c hj)
    · -- A new call has found nothing yet.
      rcases getElem?_append_singleton hj with hj | ⟨-, rfl⟩
      · exact hcall j c (h.calls j c hj)
      · exact ⟨hr hnow, by simp, by simp, by simp [FirePc.inSection], by simp [FirePc.inSection],
          by simp, by simp [FirePc.next]⟩

/-- Every step keeps the invariant. -/
theorem inv_step {s s' : State} {act : Action} (h : Inv s) (hs : step s act = some s') :
    Inv s' := by
  cases act with
  | tick =>
    cases hs
    exact h.grow rfl rfl rfl (List.Subset.refl _) (.inl rfl) (.inl rfl)
  | read =>
    cases hs
    exact h.grow rfl rfl rfl (List.subset_append_left _ _) (.inl rfl) (.inl rfl)
  | sleepUntil deadline =>
    cases hs
    exact h.grow rfl rfl rfl (List.Subset.refl _) (.inr ⟨deadline, rfl⟩) (.inl rfl)
  | poll i w => exact inv_poll h hs
  | drop i => exact inv_drop h hs
  | sleep i =>
    simp only [step] at hs
    split at hs
    · rename_i a hi
      exact inv_sleepStep h hi hs
    · cases hs
  | fireDue now =>
    simp only [step] at hs
    split at hs
    · rename_i hnow
      cases hs
      exact h.grow rfl rfl rfl (List.Subset.refl _) (.inl rfl) (.inr ⟨now, hnow, rfl⟩)
    · cases hs
  | fire j =>
    simp only [step] at hs
    split at hs
    · rename_i c hj
      exact inv_fireStep h hj hs
    · cases hs

/-- The invariant holds at the start. -/
theorem inv_new : Inv new := by
  refine ⟨⟨TimerHeap.empty_ok, by simp [new, TimerHeap.empty]⟩, rfl, ?_, ?_, ?_, ?_⟩
  · intro i j k hi
    simp [new, attr] at hi
  · simp [new, TimerHeap.empty]
  · simp [new]
  · simp [new]

/-- The invariant holds in every reachable state. -/
theorem inv_of_reachable {s : State} (h : system.Reachable s) : Inv s :=
  h.invariant (fun _ h0 => h0 ▸ inv_new) fun _ _ _ hi hs => inv_step hi hs

/-! ### The end of a section -/

/-- The steps that a call in its section can still take. -/
def State.stepsLeft (s : State) (c : FireDue) : Nat :=
  2 * s.registry.heap.entries.length +
    match c.pc with
    | .takeWaker _ => 1
    | _ => 0

/-- A call in its section is not stuck. Its next step ends the section, or fewer are left. -/
theorem section_step {s : State} (h : Inv s) {j : Nat} {c : FireDue}
    (hj : s.calls[j]? = some c) (hsec : c.pc.inSection = true) :
    ∃ s' c', step s (.fire j) = some s' ∧ s'.calls[j]? = some c' ∧ c'.now = c.now ∧
      c'.before = c.before ∧ (c'.pc.next.isSome ∨ c'.pc.inSection = true ∧
        s'.stepsLeft c' < s.stepsLeft c) := by
  have hput : ∀ c', (s.calls.set j c')[j]? = some c' := by
    intro c'
    rw [getElem?_set_of_some hj, if_pos rfl]
  simp only [step, hj, fireStep]
  cases hpc : c.pc with
  | lock | wake | returned =>
    rw [hpc] at hsec
    cases hsec
  -- A round of the loop pops one entry, or it ends the section.
  | scan =>
    cases hp : s.registry.heap.peek with
    | none => exact ⟨_, _, rfl, hput _, rfl, rfl, .inl rfl⟩
    | some e =>
      by_cases hlater : c.now < e.deadline
      · exact ⟨_, _, if_pos hlater, hput _, rfl, rfl, .inl rfl⟩
      · obtain ⟨heap, hpop, -, hperm⟩ := TimerHeap.pop_spec h.registry.heap hp
        have hlt := h.registry.slots e (TimerHeap.peek_mem hp)
        have hlen : heap.entries.length + 1 = s.registry.heap.entries.length := by
          rw [← hperm.length_eq, List.length_cons]
        simp only [if_neg hlater, hpop, List.getElem?_eq_getElem hlt]
        refine ⟨_, _, rfl, hput _, rfl, rfl, .inr ⟨rfl, ?_⟩⟩
        show 2 * heap.entries.length + 1 < s.stepsLeft c
        unfold State.stepsLeft
        omega
  | takeWaker k =>
    obtain ⟨hf, -⟩ := (h.calls j c hj).fired k hpc
    obtain ⟨slot, hslot, -⟩ := Option.map_eq_some_iff.mp hf
    simp only [hslot]
    refine ⟨_, _, rfl, hput _, rfl, rfl, .inr ⟨rfl, ?_⟩⟩
    show 2 * s.registry.heap.entries.length + 0 < s.stepsLeft c
    rw [State.stepsLeft, hpc]
    exact Nat.lt_succ_self _

/-- A call in its section ends it by its own steps. -/
theorem section_ends {s : State} (h : Inv s) {j : Nat} {c : FireDue}
    (hj : s.calls[j]? = some c) (hsec : c.pc.inSection = true) :
    ∃ n s' c', system.run s (List.replicate n (.fire j)) = some s' ∧ s'.calls[j]? = some c' ∧
      c'.now = c.now ∧ c'.before = c.before ∧ c'.pc.next.isSome := by
  generalize hleft : s.stepsLeft c = left
  induction left using Nat.strongRecOn generalizing s c with
  | ind left ih =>
    obtain ⟨s₁, c₁, hs, hj₁, hnow, hbefore, hdone⟩ := section_step h hj hsec
    rcases hdone with hdone | ⟨hsec₁, hlt⟩
    · refine ⟨1, s₁, c₁, ?_, hj₁, hnow, hbefore, hdone⟩
      simp [Lts.run, system, hs]
    · obtain ⟨n, s', c', hrun, hj', hnow', hbefore', hdone'⟩ :=
        ih _ (by omega) (inv_step h hs) hj₁ hsec₁ rfl
      refine ⟨n + 1, s', c', ?_, hj', by rw [hnow', hnow], by rw [hbefore', hbefore], hdone'⟩
      rw [List.replicate_succ, Lts.run, show system.next s (.fire j) = some s₁ from hs]
      exact hrun

/-- The order of the heap, spelled out. -/
theorem key_le_iff (e f : Entry) :
    e.key ≤ f.key ↔ e.deadline < f.deadline ∨ e.deadline = f.deadline ∧ e.seq ≤ f.seq := by
  unfold Entry.key
  rw [Prod.Lex.toLex_le_toLex]

/-- A call removes entries in the order of their slots at equal deadlines, as long as the numbers
of `SEQ` have not wrapped. The slots are numbered in the order of registration. -/
theorem FireDue.Ok.registration_order {s : State} {j : Nat} {c : FireDue} {rest : List Entry}
    (h : c.Ok s j) (hp : c.Popped rest) (hlen : s.registry.slots.length ≤ 2 ^ 64) :
    c.removed.Pairwise fun e f =>
      e.deadline < f.deadline ∨ e.deadline = f.deadline ∧ e.slot < f.slot := by
  have hnumber : ∀ e ∈ c.removed, e.seq = e.slot := by
    intro e he
    obtain ⟨hseq, hlt⟩ := h.found e (hp.all.subset (List.mem_append_left _ he))
    rw [hseq]
    exact Nat.mod_eq_of_lt (by omega)
  have hne : c.removed.Pairwise fun e f => e.slot ≠ f.slot := by
    have hnodup := (hp.all.map Entry.slot).nodup_iff.mpr hp.distinct
    rw [List.map_append] at hnodup
    exact List.pairwise_map.mp (List.pairwise_append.mp hnodup).1
  refine (hp.order.and hne).imp_of_mem ?_
  intro e f he hf hef
  obtain ⟨hle, hslot⟩ := hef
  have h1 := hnumber e he
  have h2 := hnumber f hf
  rcases (key_le_iff e f).mp hle with hlt | ⟨heq, hseq⟩
  · exact .inl hlt
  · exact .inr ⟨heq, by omega⟩

/-- The entries that a call removed are those that were due, and the rest those that were not. -/
theorem FireDue.Popped.filter {c : FireDue} {rest : List Entry} (h : c.Popped rest)
    (hlater : ∀ f ∈ rest, c.now < f.deadline) :
    c.removed.Perm (c.before.filter fun e => e.deadline ≤ c.now) ∧
      rest.Perm (c.before.filter fun e => c.now < e.deadline) := by
  have hkeep : ∀ (p : Entry → Bool) (l : List Entry), (∀ e ∈ l, p e = true) → l.filter p = l :=
    fun p l hl => List.filter_eq_self.mpr hl
  have hdrop : ∀ (p : Entry → Bool) (l : List Entry), (∀ e ∈ l, p e = false) → l.filter p = [] :=
    fun p l hl => List.filter_eq_nil_iff.mpr fun e he => by simp [hl e he]
  constructor
  · have hperm := h.all.filter fun e => decide (e.deadline ≤ c.now)
    rw [List.filter_append, hkeep _ c.removed, hdrop _ rest, List.append_nil] at hperm
    · exact hperm
    · intro e he
      have := hlater e he
      simpa using this
    · intro e he
      have := h.due e he
      simpa using this
  · have hperm := h.all.filter fun e => decide (c.now < e.deadline)
    rw [List.filter_append, hdrop _ c.removed, hkeep _ rest, List.nil_append] at hperm
    · exact hperm
    · intro e he
      have := hlater e he
      simpa using this
    · intro e he
      have := h.due e he
      simpa using this

/-- Sleeps fire once, not early, and are not forgotten. In every reachable state:

* a sleep whose last poll returned `Ready` has had a reading of the clock at or after its
  deadline;
* the heap has one entry for each sleep that is armed, not fired and not dropped, with its
  deadline, and no other entry;
* if the last poll of a sleep returned `Pending` and its slot is fired, then the waker of that
  poll was woken, or is in the due list of a call of `fire_due`, or is still in the slot, and the
  call that has just fired the slot takes it in its next step;
* a call of `fire_due` that has the lock has taken its entries out of the heap it found, and it
  ends its section by its own steps;
* a call whose section is over has removed the entries that were due, and reports the least
  deadline of the others. It removed them in the order of deadline and number, and this is the
  order of registration as long as at most `2 ^ 64` sleeps were armed. -/
theorem sleeps_fire_once {s : State} (h : system.Reachable s) :
    (∀ a ∈ s.sleeps, ∀ w, a.last = some (w, true) → ∃ r ∈ s.readings, a.deadline ≤ r) ∧
    ((s.registry.heap.entries.map Entry.slot).Nodup ∧
      (∀ k, (∃ e ∈ s.registry.heap.entries, e.slot = k) ↔ ∃ a ∈ s.sleeps, a.slot = some k ∧
        a.gone = false ∧ (s.registry.slots[k]?).map Slot.fired = some false) ∧
      (∀ e ∈ s.registry.heap.entries, ∀ a ∈ s.sleeps, a.slot = some e.slot →
        a.deadline = e.deadline)) ∧
    (∀ a ∈ s.sleeps, ∀ k w, a.slot = some k → a.last = some (w, false) →
      (s.registry.slots[k]?).map Slot.fired = some true →
      (k, w) ∈ s.woken ∨ (∃ c ∈ s.calls, (k, w) ∈ c.due) ∨
        ∃ c ∈ s.calls, c.pc = .takeWaker k ∧ (s.registry.slots[k]?).bind Slot.waker = some w) ∧
    (∀ (j : Nat) c, s.calls[j]? = some c → c.pc.inSection = true →
      (c.removed ++ s.registry.heap.entries).Perm c.before ∧
      ∃ n s' c', system.run s (List.replicate n (.fire j)) = some s' ∧ s'.calls[j]? = some c' ∧
        c'.now = c.now ∧ c'.before = c.before ∧ c'.pc.next.isSome) ∧
    (∀ c ∈ s.calls, ∀ next, c.pc.next = some next →
      c.removed.Perm (c.before.filter fun e => e.deadline ≤ c.now) ∧
      next = ((c.before.filter fun e => c.now < e.deadline).map Entry.deadline).min? ∧
      (c.removed.Pairwise fun e f =>
        e.deadline < f.deadline ∨ e.deadline = f.deadline ∧ e.seq ≤ f.seq) ∧
      (s.registry.slots.length ≤ 2 ^ 64 → c.removed.Pairwise fun e f =>
        e.deadline < f.deadline ∨ e.deadline = f.deadline ∧ e.slot < f.slot)) := by
  have hi := inv_of_reachable h
  refine ⟨?_, ⟨hi.registry.heap.indexed.nodup, ?_, ?_⟩, ?_, ?_, ?_⟩
  · intro a ha w hw
    exact (hi.sleeps a ha).ready w hw
  · intro k
    constructor
    · -- An entry is that of a sleep which is there and was not fired.
      rintro ⟨e, he, rfl⟩
      obtain ⟨a, ha, hk, -, hg⟩ := (hi.entries e he).sleep
      exact ⟨a, ha, hk, hg, (hi.entries e he).fired⟩
    · rintro ⟨a, ha, hk, hg, hf⟩
      obtain ⟨slot, hslot, harmed⟩ := (hi.sleeps a ha).armed k hk
      rw [hslot, Option.map_some, Option.some.injEq] at hf
      exact harmed.queued hf hg
  · intro e he a ha hk
    obtain ⟨b, hb, hbk, hbd, -⟩ := (hi.entries e he).sleep
    rw [hi.slot_inj ha hb hk hbk, hbd]
  · -- The waker of a sleep that fired is in hand, due or called.
    intro a ha k w hk hw hf
    obtain ⟨slot, hslot, harmed⟩ := (hi.sleeps a ha).armed k hk
    rw [hslot, Option.map_some, Option.some.injEq] at hf
    rcases harmed.delivered w hw hf with hhand | hdue | hwoken
    · exact .inr (.inr hhand)
    · exact .inr (.inl hdue)
    · exact .inl hwoken
  · intro j c hj hsec
    exact ⟨((hi.calls j c hj).popped hsec).all, section_ends hi hj hsec⟩
  · -- What a call removed is what it found that was due.
    intro c hc next hnext
    obtain ⟨j, hj⟩ := List.getElem?_of_mem hc
    have hok := hi.calls j c hj
    obtain ⟨rest, hp, hlater, hmin⟩ := hok.finished next hnext
    obtain ⟨hremoved, hrest⟩ := hp.filter hlater
    refine ⟨hremoved, ?_, ?_, hok.registration_order hp⟩
    · rw [hmin]
      exact min_deadline_perm hrest
    · exact hp.order.imp fun hle => (key_le_iff _ _).mp hle

/-- Two sleeps of one deadline are armed, and a call of `fire_due` finds both due. It removes them
in the order of registration, and nothing is left. -/
theorem sleeps_fire_once_two :
    ∃ s, system.Reachable s ∧ ∃ c ∈ s.calls, c.removed.length = 2 ∧
      (c.removed.Pairwise fun e f =>
        e.deadline < f.deadline ∨ e.deadline = f.deadline ∧ e.slot < f.slot) ∧
      c.pc = .wake none true := by
  obtain ⟨s, hr, hp⟩ := Lts.Reachable.exists_of_run (M := system) (s := new)
    [.sleepUntil 1, .sleepUntil 1, .poll 0 7, .sleep 0, .sleep 0, .poll 1 8, .sleep 1, .sleep 1,
      .tick, .read, .fireDue 1, .fire 0, .fire 0, .fire 0, .fire 0, .fire 0, .fire 0]
    (fun s => s.registry.slots.length = 2 ∧
      s.calls.map (fun c => (c.pc, c.removed.length)) = [(.wake none true, 2)]) rfl (by decide)
  simp only [decide_eq_true_eq] at hp
  obtain ⟨hslots, hcalls⟩ := hp
  obtain ⟨c, hc, hpc⟩ : ∃ c ∈ s.calls, (c.pc, c.removed.length) = (.wake none true, 2) := by
    refine List.mem_map.mp ?_
    rw [hcalls]
    exact List.mem_singleton_self _
  obtain ⟨hpc, hlen⟩ := Prod.mk.inj hpc
  refine ⟨s, hr, c, hc, hlen, ?_, hpc⟩
  exact ((sleeps_fire_once hr).2.2.2.2 c hc none (by rw [hpc]; rfl)).2.2.2 (by omega)

/-! ### The edges -/

/-- A sleep is made and armed for time 1, while the clock is at 0. -/
theorem exists_armed {s : State} (hr : system.Reachable s) (hclock : s.clock = 0)
    (hholder : s.holder = none) :
    ∃ s', system.Reachable s' ∧ s'.clock = 0 ∧ s'.holder = none ∧ s'.calls = s.calls ∧
      s'.registry = (s.registry.arm 1 7).1 ∧
      s'.sleeps = s.sleeps ++ [⟨1, some s.registry.slots.length, .idle, some (7, false)⟩] := by
  have hrun : system.run s [.sleepUntil 1, .poll s.sleeps.length 7, .sleep s.sleeps.length,
      .sleep s.sleeps.length] = some { s with
        readings := s.readings ++ [nowNs s]
        registry := (s.registry.arm 1 7).1
        sleeps := s.sleeps ++ [⟨1, some s.registry.slots.length, .idle, some (7, false)⟩] } := by
    simp [Lts.run, system, step, sleepStep, State.put, Sleep.returns, nowNs, hclock, hholder]
  exact ⟨_, hr.run hrun, hclock, hholder, rfl, rfl, rfl⟩

/-- Any number of sleeps may be armed and dropped before time 1. -/
theorem exists_registered (n : Nat) :
    ∃ s, system.Reachable s ∧ s.clock = 0 ∧ s.holder = none ∧ s.calls = [] ∧
      s.registry.slots.length = n ∧ s.registry.heap.entries = [] := by
  induction n with
  | zero => exact ⟨new, .init rfl, rfl, rfl, rfl, rfl, rfl⟩
  | succ n ih =>
    obtain ⟨s, hr, hclock, hholder, hcalls, hslots, hempty⟩ := ih
    obtain ⟨s₁, hr₁, hclock₁, hholder₁, hcalls₁, hregistry, hsleeps⟩ :=
      exists_armed hr hclock hholder
    have hi := inv_of_reachable hr
    have hperm := Registry.arm_entries hi.registry 1 7
    -- The only entry is that of the new slot, and it is dropped.
    obtain ⟨r, hcancel, -, hslots', -, hmem⟩ :=
      Registry.cancel_exact (inv_of_reachable hr₁).registry n
    have hdrop : system.next s₁ (.drop s.sleeps.length) = some ({ s₁ with registry := r }.put
        s.sleeps.length ⟨1, some n, .takeWaker, some (7, false)⟩) := by
      simp [system, step, hsleeps, hslots, hholder₁, hcancel]
    refine ⟨_, hr₁.next hdrop, hclock₁, hholder₁, hcalls₁.trans hcalls, ?_, ?_⟩
    · show r.slots.length = n + 1
      rw [hslots', hregistry]
      show (s.registry.slots ++ [_]).length = n + 1
      simp [hslots]
    · refine List.eq_nil_iff_forall_not_mem.mpr fun e he => ?_
      obtain ⟨he, hne⟩ := (hmem e).mp he
      rw [hregistry] at he
      have he := hperm.subset he
      rw [hempty, List.mem_singleton] at he
      rw [he] at hne
      exact hne hslots

/-- `SEQ` wraps. The last sleep before it does is armed, and then the first one after. Both have
one deadline, and `fire_due` removes the later one first. -/
theorem wrapped_order :
    ∃ s, system.Reachable s ∧ ∃ c ∈ s.calls, ∃ e f, c.removed = [e, f] ∧
      e.deadline = f.deadline ∧ f.slot < e.slot := by
  obtain ⟨s, hr, hclock, hholder, hcalls, hslots, hempty⟩ := exists_registered (2 ^ 64 - 1)
  obtain ⟨s₁, hr₁, hclock₁, hholder₁, hcalls₁, hregistry₁, -⟩ := exists_armed hr hclock hholder
  obtain ⟨s₂, hr₂, hclock₂, hholder₂, hcalls₂, hregistry₂, -⟩ := exists_armed hr₁ hclock₁ hholder₁
  have hperm₁ := Registry.arm_entries (inv_of_reachable hr).registry 1 7
  have hperm₂ := Registry.arm_entries (inv_of_reachable hr₁).registry 1 7
  rw [hempty, ← hregistry₁, hslots, (inv_of_reachable hr).seq, hslots] at hperm₁
  have hslots₁ : s₁.registry.slots.length = 2 ^ 64 := by
    rw [hregistry₁]
    show (s.registry.slots ++ [_]).length = 2 ^ 64
    rw [List.length_append, hslots]
    rfl
  rw [← hregistry₂, hslots₁, (inv_of_reachable hr₁).seq, hslots₁] at hperm₂
  have hperm := hperm₂.trans (hperm₁.cons _)
  -- The clock goes to 1, and a driver fires with that reading.
  have hrun : system.run s₂ [.tick, .read, .fireDue 1, .fire 0] = some { s₂ with
      clock := 1
      readings := s₂.readings ++ [1]
      holder := some 0
      calls := [⟨1, .scan, [], s₂.registry.heap.entries, []⟩] } := by
    simp [Lts.run, system, step, fireStep, State.putCall, nowNs, hclock₂, hholder₂, hcalls₂,
      hcalls₁, hcalls]
  obtain ⟨n, s', c', hrun', hc', hnow, hbefore, hdone⟩ :=
    section_ends (inv_of_reachable (hr₂.run hrun)) (j := 0) rfl rfl
  obtain ⟨next, hnext⟩ := Option.isSome_iff_exists.mp hdone
  have hi := inv_of_reachable ((hr₂.run hrun).run hrun')
  obtain ⟨rest, hp, hlater, -⟩ := (hi.calls 0 c' hc').finished next hnext
  have hremoved : c'.removed.Perm
      [⟨1, 2 ^ 64 % 2 ^ 64, 2 ^ 64⟩, ⟨1, (2 ^ 64 - 1) % 2 ^ 64, 2 ^ 64 - 1⟩] := by
    refine (hp.filter hlater).1.trans ?_
    rw [hnow, hbefore]
    exact hperm.filter _
  -- Both are removed, and the one with the smaller number goes first.
  obtain ⟨e, f, hef⟩ := List.length_eq_two.mp hremoved.length_eq
  have hle : e.key ≤ f.key := by
    have := hp.order
    rw [hef] at this
    exact List.rel_of_pairwise_cons this (List.mem_singleton_self f)
  rw [hef] at hremoved
  have he := hremoved.subset (List.mem_cons_self)
  have hf := hremoved.subset (List.mem_cons_of_mem e (List.mem_singleton_self f))
  simp only [List.mem_cons, List.not_mem_nil, or_false] at he hf
  refine ⟨s', (hr₂.run hrun).run hrun', c', List.mem_of_getElem? hc', e, f, hef, ?_⟩
  have hnodup := hremoved.nodup_iff.mpr (by decide)
  rcases he with rfl | rfl <;> rcases hf with rfl | rfl
  · exact absurd hnodup (by decide)
  · exact ⟨rfl, by decide⟩
  · rw [key_le_iff] at hle
    exact absurd hle (by decide)
  · exact absurd hnodup (by decide)

/-- The two edges. Between the store to `fired` and the `take` the waker of the last poll is not
woken and in no due list; and once `SEQ` has wrapped, a sleep that was armed later is removed
before one of the same deadline that was armed earlier. -/
theorem fired_in_hand_and_wrapped :
    (∃ s, system.Reachable s ∧ ∃ a ∈ s.sleeps, a.slot = some 0 ∧ a.last = some (7, false) ∧
      (s.registry.slots[0]?).map Slot.fired = some true ∧ (0, 7) ∉ s.woken ∧
      ∀ c ∈ s.calls, (0, 7) ∉ c.due) ∧
    ∃ s, system.Reachable s ∧ ∃ c ∈ s.calls, ∃ e f, c.removed = [e, f] ∧
      e.deadline = f.deadline ∧ f.slot < e.slot := by
  refine ⟨?_, wrapped_order⟩
  obtain ⟨s, hr, hp⟩ := Lts.Reachable.exists_of_run (M := system) (s := new)
    [.sleepUntil 1, .poll 0 7, .sleep 0, .sleep 0, .tick, .read, .fireDue 1, .fire 0, .fire 0]
    (fun s => (∃ a ∈ s.sleeps, a.slot = some 0 ∧ a.last = some (7, false)) ∧
      (s.registry.slots[0]?).map Slot.fired = some true ∧ (0, 7) ∉ s.woken ∧
      ∀ c ∈ s.calls, (0, 7) ∉ c.due) rfl (by decide)
  simp only [decide_eq_true_eq] at hp
  obtain ⟨⟨a, ha, hk, hlast⟩, hf, hwoken, hdue⟩ := hp
  exact ⟨s, hr, a, ha, hk, hlast, hf, hwoken, hdue⟩

end Sleeps

end Nagoya.Time
