import Nagoya.Reactor.Slots
import Nagoya.Proofs.Reactor.Driver

/-!
# `Nagoya.Proofs.Reactor.Slots`: stale readiness stays where it belongs

An index is never used twice as long as the counter has not gone round: a call's index is its
number. So the map has a slot under an index exactly while that one call has its slot there, and
a token leads to one call for ever. Events may be as old as they like: an event whose call is gone
finds nothing, and one whose call is there is that call's own.

The history of wakers is an inequality of counts. A waker is in the slot or has been taken only
as often as it was parked.
-/

set_option autoImplicit false

namespace Nagoya.Reactor

open Nagoya.Lib

/-- A token is the generation above the index, as long as both fit. -/
theorem makeToken_eq {index generation : Nat} (hi : index < 2 ^ 48) (hg : generation < 2 ^ 16) :
    makeToken index generation = generation * 2 ^ 48 + index := by
  have hor : generation <<< 48 ||| index = generation * 2 ^ 48 + index := by
    rw [← Nat.shiftLeft_add_eq_or_of_lt hi, Nat.shiftLeft_eq]
  show (generation <<< 48 ||| index) % 2 ^ 64 = _
  rw [hor]
  exact Nat.mod_eq_of_lt (by omega)

/-- `split_token` undoes `make_token`. -/
theorem splitToken_makeToken {index generation : Nat} (hi : index < 2 ^ 48)
    (hg : generation < 2 ^ 16) : splitToken (makeToken index generation) = (index, generation) := by
  have hindex : (generation * 2 ^ 48 + index) &&& (1 <<< 48 - 1) = index := by
    rw [show 1 <<< 48 - 1 = 2 ^ 48 - 1 from rfl, Nat.and_two_pow_sub_one_eq_mod]
    omega
  have hgeneration : (generation * 2 ^ 48 + index) >>> 48 = generation := by
    rw [Nat.shiftRight_eq_div_pow]
    omega
  rw [makeToken_eq hi hg]
  exact Prod.ext hindex hgeneration

/-- A token of a first generation is not the poller's. -/
theorem makeToken_ne_wakeToken {index : Nat} (hi : index < 2 ^ 48) :
    makeToken index 1 ≠ wakeToken := by
  rw [makeToken_eq hi (by decide)]
  show _ ≠ 2 ^ 64 - 1
  omega

namespace Slots

/-- Fewer than `2 ^ 48` calls of `register` are made in all. -/
def FewRegisters (s : State) : Action → Bool
  | .register => s.calls.length + 1 < 2 ^ 48
  | _ => true

/-- The waker parked in one direction. -/
def Slot.parked (slot : Slot) : Direction → Option Waker
  | .read => slot.wakers.reader
  | .write => slot.wakers.writer

/-- The waker of `p` is in the slot it names. -/
def State.holds (s : State) (p : Park) : Bool :=
  match s.calls[p.call]? with
  | some c => c.slot.parked p.direction == some p.waker
  | none => false

/-- The call returned a registration. -/
def Phase.made : Phase → Bool
  | .live | .removing | .dropped => true
  | .claimed | .inserted | .refused | .failed => false

/-- The invariant: a call's index is its number, the map has exactly the slots that were inserted
and not taken out, nothing is parked before there is a registration to park through, and a waker
is held or taken as often as it was parked. -/
structure Inv (s : State) : Prop where
  next : s.nextIndex = s.calls.length
  few : s.calls.length < 2 ^ 48
  index : ∀ (r : Nat) (c : Call), s.calls[r]? = some c → c.index = r ∧ c.slot.generation = 1
  map : ∀ i r : Nat, s.slots i = some r ↔
    i = r ∧ ∃ c : Call, s.calls[r]? = some c ∧ c.phase.inMap = true
  unparked : ∀ (r : Nat) (c : Call), s.calls[r]? = some c → c.phase.made = false →
    ∀ d, c.slot.parked d = none
  once : ∀ p : Park, s.takes.count p + (s.holds p).toNat ≤ s.parks.count p

theorem inv_new : Inv new where
  next := rfl
  few := by decide
  index r c h := by simp [new] at h
  map i r := by simp [new]
  unparked r c h := by simp [new] at h
  once p := by simp [new, State.holds]

variable {s s' : State} {r : Nat} {c : Call}

theorem at_eq_some {phase : Phase} :
    s.at r phase = some c ↔ s.calls[r]? = some c ∧ c.phase = phase := by
  unfold State.at
  rw [Option.filter_eq_some_iff]
  simp

/-- A call's token splits into its number and the first generation. -/
theorem Inv.splitToken_token (h : Inv s) (hc : s.calls[r]? = some c) :
    splitToken c.token = (r, 1) := by
  have hr : r < s.calls.length := (List.getElem?_eq_some_iff.mp hc).1
  have hfew := h.few
  obtain ⟨hindex, hgen⟩ := h.index r c hc
  unfold Call.token
  rw [hindex, hgen]
  exact splitToken_makeToken (by omega) (by decide)

/-- The map has the slot of a call that is there. -/
theorem Inv.slots_eq (h : Inv s) (hc : s.calls[r]? = some c) :
    s.slots r = if c.phase.inMap then some r else none := by
  split
  · rename_i hin
    exact (h.map r r).mpr ⟨rfl, c, hc, hin⟩
  · rename_i hin
    rw [Option.eq_none_iff_forall_ne_some]
    intro x hx
    obtain ⟨rfl, c', hc', hin'⟩ := (h.map r x).mp hx
    rw [hc] at hc'
    cases hc'
    exact hin hin'

/-! ### What an event can do -/

/-- The state after an event that reached the slot of the call `r`. -/
def delivered (s : State) (r : Nat) (c : Call) (flags : Readiness) : State :=
  { s with
    calls := s.calls.set r { c with slot.wakers := (c.slot.wakers.dispatch flags).1 }
    pending := s.pending ++ (c.slot.wakers.dispatch flags).2.map fun waker => (c.index, waker)
    takes := s.takes ++
      ((c.slot.wakers.dispatchRead flags).2.map (⟨r, .read, ·⟩) ++
        ((c.slot.wakers.dispatchRead flags).1.dispatchWrite flags).2.map (⟨r, .write, ·⟩)) }

/-- A token is what it splits into. -/
theorem splitToken_inj {t t' : Nat} (h : splitToken t = splitToken t') : t = t' := by
  have hlow : t &&& (2 ^ 48 - 1) = t' &&& (2 ^ 48 - 1) := congrArg Prod.fst h
  have hhigh : t >>> 48 = t' >>> 48 := congrArg Prod.snd h
  rw [Nat.and_two_pow_sub_one_eq_mod, Nat.and_two_pow_sub_one_eq_mod] at hlow
  rw [Nat.shiftRight_eq_div_pow, Nat.shiftRight_eq_div_pow] at hhigh
  omega

/-- An event changes nothing, or reaches the one call that was issued its token and has its slot
in the map. -/
theorem Inv.dispatch_cases (h : Inv s) (event : Event) :
    dispatch s event = s ∨
    ∃ (r : Nat) (c : Call), s.calls[r]? = some c ∧ c.phase.inMap = true ∧
      c.token = event.token ∧ dispatch s event = delivered s r c event.flags := by
  unfold dispatch
  split
  · exact .inl rfl
  · rename_i r hslot
    obtain ⟨hindex, c, hc, hin⟩ := (h.map _ r).mp hslot
    by_cases hgen : c.slot.generation = (splitToken event.token).2
    · have hgeneration : (splitToken event.token).2 = 1 := by
        rw [← hgen]
        exact (h.index r c hc).2
      refine .inr ⟨r, c, hc, hin, ?_, ?_⟩
      · apply splitToken_inj
        rw [h.splitToken_token hc]
        exact (Prod.ext hindex hgeneration).symm
      · rw [hc]
        exact if_neg (fun hne => hne hgen)
    · refine .inl ?_
      rw [hc]
      exact if_pos hgen

/-! ### The steps -/

/-- What is parked in the slot of a call. -/
theorem holds_eq (hc : s.calls[r]? = some c) (d : Direction) (w : Waker) :
    s.holds ⟨r, d, w⟩ = (c.slot.parked d == some w) := by
  unfold State.holds
  rw [hc]

/-- A waker is held in the slot of the call it names, and nothing else matters. -/
theorem holds_congr {p : Park}
    (h : (s'.calls[p.call]?).map (·.slot) = (s.calls[p.call]?).map (·.slot)) :
    s'.holds p = s.holds p := by
  unfold State.holds
  cases hs : s.calls[p.call]? <;> cases hs' : s'.calls[p.call]? <;>
    simp only [hs, hs', Option.map_none, Option.map_some, Option.some.injEq, reduceCtorEq] at h ⊢
  rw [h]

/-- A call that moves on keeps the invariant, when the map follows its phase. -/
theorem Inv.moved (h : Inv s) (hc : s.calls[r]? = some c) {phase : Phase}
    {slots : Nat → Option Nat} (hmade : phase.made = false → c.phase.made = false)
    (hslots : slots = Function.update s.slots r (if phase.inMap then some r else none)) :
    Inv ({ s with slots }.move r c phase) := by
  have hr : r < s.calls.length := (List.getElem?_eq_some_iff.mp hc).1
  have hcalls : ∀ x : Nat, (s.calls.set r { c with phase })[x]? =
      if r = x then some { c with phase } else s.calls[x]? := by
    intro x
    rw [List.getElem?_set]
    by_cases hx : r = x
    · rw [if_pos hx, if_pos hx, if_pos hr]
    · rw [if_neg hx, if_neg hx]
  constructor
  · show s.nextIndex = (s.calls.set r _).length
    rw [List.length_set]
    exact h.next
  · show (s.calls.set r _).length < 2 ^ 48
    rw [List.length_set]
    exact h.few
  · intro x c' hx
    have hx' : (s.calls.set r { c with phase })[x]? = some c' := hx
    rw [hcalls] at hx'
    split at hx'
    · rename_i heq
      subst heq
      cases hx'
      exact h.index r c hc
    · exact h.index x c' hx'
  · intro i x
    -- The index of a call is its own, so the map changes for this call alone.
    show slots i = some x ↔ i = x ∧ ∃ c' : Call, (s.calls.set r { c with phase })[x]? = some c' ∧ _
    rw [hslots, hcalls]
    by_cases hi : i = r
    · subst hi
      rw [Function.update_self]
      cases hin : phase.inMap with
      | true =>
        constructor
        · rintro ⟨⟩
          exact ⟨rfl, _, if_pos rfl, hin⟩
        · rintro ⟨rfl, -⟩
          rfl
      | false =>
        constructor
        · rintro ⟨⟩
        · rintro ⟨rfl, c', hc', hin'⟩
          rw [if_pos rfl] at hc'
          cases hc'
          rw [hin] at hin'
          cases hin'
    · rw [Function.update_of_ne hi, h.map]
      constructor
      · rintro ⟨rfl, hx⟩
        rw [if_neg (fun hrx => hi hrx.symm)]
        exact ⟨rfl, hx⟩
      · rintro ⟨rfl, hx⟩
        rw [if_neg (fun hrx => hi hrx.symm)] at hx
        exact ⟨rfl, hx⟩
  · intro x c' hx hnot
    have hx' : (s.calls.set r { c with phase })[x]? = some c' := hx
    rw [hcalls] at hx'
    split at hx'
    · cases hx'
      exact h.unparked r c hc (hmade hnot)
    · exact h.unparked x c' hx' hnot
  · intro p
    have hholds : ({ s with slots }.move r c phase).holds p = s.holds p := by
      apply holds_congr
      show ((s.calls.set r { c with phase })[p.call]?).map (·.slot) = _
      rw [hcalls]
      split
      · rename_i heq
        rw [← heq, hc]
        rfl
      · rfl
    rw [hholds]
    exact h.once p

/-- A call whose slot is written keeps the invariant, when the history accounts for what the
write parks and takes. -/
theorem Inv.written (h : Inv s) (hc : s.calls[r]? = some c) {w : Wakers}
    {pending : List (Nat × Waker)} {parks takes : List Park}
    (hunparked : c.phase.made = false → ∀ d, Slot.parked ⟨c.slot.generation, w⟩ d = none)
    (honce : ∀ d waker, takes.count ⟨r, d, waker⟩ +
      (Slot.parked ⟨c.slot.generation, w⟩ d == some waker).toNat ≤
        parks.count ⟨r, d, waker⟩)
    (hothers : ∀ p : Park, p.call ≠ r →
      takes.count p = s.takes.count p ∧ parks.count p = s.parks.count p) :
    Inv { s with calls := s.calls.set r { c with slot.wakers := w }, pending, parks, takes } := by
  have hr : r < s.calls.length := (List.getElem?_eq_some_iff.mp hc).1
  have hself : (s.calls.set r { c with slot.wakers := w })[r]? =
      some { c with slot.wakers := w } := by
    rw [List.getElem?_set_self hr]
  have hother : ∀ x, x ≠ r →
      (s.calls.set r { c with slot.wakers := w })[x]? = s.calls[x]? := by
    intro x hx
    exact List.getElem?_set_ne (fun heq => hx heq.symm)
  constructor
  · show s.nextIndex = (s.calls.set r _).length
    rw [List.length_set]
    exact h.next
  · show (s.calls.set r _).length < 2 ^ 48
    rw [List.length_set]
    exact h.few
  · intro x c' hx
    have hx' : (s.calls.set r { c with slot.wakers := w })[x]? = some c' := hx
    by_cases heq : x = r
    · subst heq
      rw [hself] at hx'
      cases hx'
      exact h.index x c hc
    · rw [hother x heq] at hx'
      exact h.index x c' hx'
  · intro i x
    show s.slots i = some x ↔
      i = x ∧ ∃ c' : Call, (s.calls.set r { c with slot.wakers := w })[x]? = some c' ∧ _
    rw [h.map]
    by_cases heq : x = r
    · -- The phase of the call is what it was.
      subst heq
      rw [hself, hc]
      simp
    · rw [hother x heq]
  · intro x c' hx hnot
    have hx' : (s.calls.set r { c with slot.wakers := w })[x]? = some c' := hx
    by_cases heq : x = r
    · subst heq
      rw [hself] at hx'
      cases hx'
      exact hunparked hnot
    · rw [hother x heq] at hx'
      exact h.unparked x c' hx' hnot
  · intro p
    show takes.count p + _ ≤ parks.count p
    -- Only this call has other parks and takes.
    by_cases heq : p.call = r
    · obtain ⟨call, d, waker⟩ := p
      subst heq
      rw [holds_eq hself d waker]
      exact honce d waker
    · rw [(hothers p heq).1, (hothers p heq).2, holds_congr (s := s)]
      · exact h.once p
      · show ((s.calls.set r { c with slot.wakers := w })[p.call]?).map (·.slot) = _
        rw [hother p.call heq]

/-- A method parks the waker it says, or leaves what is parked, or takes it out. -/
theorem Use.parked_apply {method : Use} {slot : Slot} {d : Direction} {waker : Waker}
    (h : Slot.parked ⟨slot.generation, method.apply slot.wakers⟩ d = some waker) :
    slot.parked d = some waker ∨ method.parks slot.wakers = some (d, waker) := by
  cases method with
  | takeReadableOrPark w =>
    rcases slot.wakers.takeReadableOrPark_cases w with hc | ⟨-, -, hc⟩ <;>
      cases d <;> simp_all [Use.apply, Use.parks, Slot.parked, Wakers.parkReader]
  | pollReadable w =>
    rcases slot.wakers.pollReadable_cases w with hc | ⟨-, -, hc⟩ <;>
      cases d <;> simp_all [Use.apply, Use.parks, Slot.parked, Wakers.parkReader]
  | takeWritableOrPark w =>
    rcases slot.wakers.takeWritableOrPark_cases w with ⟨-, hc⟩ | ⟨-, hc⟩ <;>
      cases d <;> simp_all [Use.apply, Use.parks, Slot.parked, Wakers.parkWriter]
  | pollWritable w =>
    rcases slot.wakers.pollWritable_cases w with ⟨-, hc⟩ | ⟨-, hc⟩ <;>
      cases d <;> simp_all [Use.apply, Use.parks, Slot.parked, Wakers.parkWriter]
  | markReadable | markWritable | cancelReadWait | cancelWriteWait =>
    cases d <;>
      simp_all [Use.apply, Slot.parked, Wakers.markReadable, Wakers.markWritable,
        Wakers.cancelReadWait, Wakers.cancelWriteWait]

/-- A use of a registration parks at most the one waker that it logs. -/
theorem Inv.used (h : Inv s) (hc : s.calls[r]? = some c) (hlive : c.phase = .live)
    (method : Use) :
    Inv { s with
      calls := s.calls.set r { c with slot.wakers := method.apply c.slot.wakers }
      parks := s.parks ++
        ((method.parks c.slot.wakers).map fun p => (⟨r, p.1, p.2⟩ : Park)).toList } := by
  apply h.written hc (w := method.apply c.slot.wakers)
  · intro hnot
    rw [hlive] at hnot
    cases hnot
  · intro d waker
    have hold := h.once ⟨r, d, waker⟩
    rw [holds_eq hc] at hold
    rw [List.count_append]
    by_cases hnew : Slot.parked ⟨c.slot.generation, method.apply c.slot.wakers⟩ d = some waker
    · rw [beq_iff_eq.mpr hnew, Bool.toNat_true]
      rcases Use.parked_apply hnew with hbefore | hpark
      · rw [beq_iff_eq.mpr hbefore, Bool.toNat_true] at hold
        omega
      · -- A fresh park is in the log.
        have hlog : ((method.parks c.slot.wakers).map
            fun p => (⟨r, p.1, p.2⟩ : Park)).toList.count ⟨r, d, waker⟩ = 1 := by
          rw [hpark]
          simp
        omega
    · -- Nothing is parked in this direction, before or after.
      rw [beq_eq_false_iff_ne.mpr hnew, Bool.toNat_false]
      omega
  · intro p hp
    -- A park of another call is not counted here.
    refine ⟨rfl, ?_⟩
    rw [List.count_append]
    apply Nat.add_eq_left.mpr
    apply List.count_eq_zero_of_not_mem
    intro hmem
    rw [Option.mem_toList, Option.map_eq_some_iff] at hmem
    obtain ⟨x, -, rfl⟩ := hmem
    exact hp rfl

/-- The wakers taken out of one direction, as the history has them. -/
theorem count_map_park (l : List Waker) (d d' : Direction) (waker : Waker) :
    (l.map (fun w => (⟨r, d, w⟩ : Park))).count ⟨r, d', waker⟩ =
      if d = d' then l.count waker else 0 := by
  induction l with
  | nil => simp
  | cons w l ih =>
    rw [List.map_cons, List.count_cons, List.count_cons, ih]
    by_cases hd : d = d'
    · subst hd
      simp
    · simp [hd]

theorem count_toList (o : Option Waker) (waker : Waker) :
    o.toList.count waker = (o == some waker).toNat := by
  cases o with
  | none => simp
  | some w =>
    by_cases hw : w = waker
    · simp [hw]
    · have hne : (w == waker) = false := beq_eq_false_iff_ne.mpr hw
      simp [hw, hne]

/-- An event that reaches a slot takes what is parked there, and nothing is parked then. -/
theorem Inv.delivered (h : Inv s) (hc : s.calls[r]? = some c) (flags : Readiness) :
    Inv (delivered s r c flags) := by
  apply h.written hc (w := (c.slot.wakers.dispatch flags).1)
  · intro hnot d
    have hnone := h.unparked r c hc hnot d
    cases d with
    | read =>
      show (c.slot.wakers.dispatch flags).1.reader = none
      rw [Wakers.dispatch_reader, show c.slot.wakers.reader = none from hnone]
      exact ite_self _
    | write =>
      show (c.slot.wakers.dispatch flags).1.writer = none
      rw [Wakers.dispatch_writer, show c.slot.wakers.writer = none from hnone]
      exact ite_self _
  · intro d waker
    have hold := h.once ⟨r, d, waker⟩
    rw [holds_eq hc] at hold
    rw [List.count_append, List.count_append, count_map_park, count_map_park,
      Wakers.dispatchRead_taken, Wakers.dispatchWrite_taken]
    -- A waker that the event takes out of the slot is in the log of the takes.
    cases d with
    | read =>
      simp only [Slot.parked, Wakers.dispatch_reader, if_true, reduceCtorEq, if_false] at hold ⊢
      cases flags.forReader with
      | true => simpa [count_toList] using hold
      | false => simpa using hold
    | write =>
      simp only [Slot.parked, Wakers.dispatch_writer, if_true, reduceCtorEq, if_false] at hold ⊢
      cases flags.writable with
      | true => simpa [count_toList] using hold
      | false => simpa using hold
  · intro p hp
    refine ⟨?_, rfl⟩
    rw [List.count_append]
    apply Nat.add_eq_left.mpr
    apply List.count_eq_zero_of_not_mem
    intro hmem
    rw [List.mem_append, List.mem_map, List.mem_map] at hmem
    obtain ⟨w, -, rfl⟩ | ⟨w, -, rfl⟩ := hmem <;> exact hp rfl

/-- Nothing is parked in a slot that was just made. -/
theorem holds_new {p : Park} (i : Nat) (hge : s.calls.length ≤ p.call) :
    State.holds { s with
      nextIndex := (s.nextIndex + 1) % 2 ^ 64
      calls := s.calls ++ [{ index := i, phase := .claimed, slot := ⟨1, .registered⟩ }] } p =
        false := by
  unfold State.holds
  rw [List.getElem?_append_right hge]
  cases p.call - s.calls.length with
  | zero => cases p.direction <;> rfl
  | succ n => rfl

/-- A call of `register` begins with an index of its own. -/
theorem Inv.registered (h : Inv s) (hfew : s.calls.length + 1 < 2 ^ 48) :
    Inv { s with
      nextIndex := (s.nextIndex + 1) % 2 ^ 64
      calls := s.calls ++
        [{ index := s.nextIndex, phase := .claimed, slot := ⟨1, .registered⟩ }] } := by
  have hnext := h.next
  constructor
  · show (s.nextIndex + 1) % 2 ^ 64 = (s.calls ++ [_]).length
    rw [List.length_append, List.length_singleton, hnext]
    exact Nat.mod_eq_of_lt (by omega)
  · show (s.calls ++ [_]).length < 2 ^ 48
    rw [List.length_append, List.length_singleton]
    exact hfew
  · intro r c hc
    rw [List.getElem?_append] at hc
    split at hc
    · exact h.index r c hc
    · have hlast : r - s.calls.length = 0 := by
        have hlt := (List.getElem?_eq_some_iff.mp hc).1
        rw [List.length_singleton] at hlt
        omega
      rw [hlast] at hc
      cases hc
      refine ⟨?_, rfl⟩
      show s.nextIndex = r
      omega
  · intro i r
    show s.slots i = some r ↔ _
    rw [h.map]
    refine and_congr_right fun _ => ?_
    rw [List.getElem?_append]
    split
    · exact Iff.rfl
    · rename_i hge
      constructor
      · rintro ⟨c, hc, -⟩
        exact absurd (List.getElem?_eq_some_iff.mp hc).1 hge
      · -- The new call has nothing in the map.
        rintro ⟨c, hc, hin⟩
        have hmem := List.mem_of_getElem? hc
        rw [List.mem_singleton] at hmem
        rw [hmem] at hin
        cases hin
  · intro r c hc hnot d
    rw [List.getElem?_append] at hc
    split at hc
    · exact h.unparked r c hc hnot d
    · have hmem := List.mem_of_getElem? hc
      rw [List.mem_singleton] at hmem
      rw [hmem]
      cases d <;> rfl
  · intro p
    have hold := h.once p
    show s.takes.count p + _ ≤ s.parks.count p
    by_cases hlt : p.call < s.calls.length
    · rw [holds_congr (s := s)]
      · exact hold
      · show ((s.calls ++ [_])[p.call]?).map (·.slot) = _
        rw [List.getElem?_append_left hlt]
    · -- Nothing is parked in the new slot.
      rw [holds_new _ (by omega), Bool.toNat_false]
      omega

/-- Every step keeps the invariant. -/
theorem step_inv {act : Action} (h : Inv s) (hs : step s act = some s')
    (hok : FewRegisters s act = true) : Inv s' := by
  cases act with
  | register =>
    cases hs
    exact h.registered (by simpa [FewRegisters] using hok)
  | insert r =>
    obtain ⟨c, hat, rfl⟩ := Option.map_eq_some_iff.mp hs
    obtain ⟨hc, hphase⟩ := at_eq_some.mp hat
    exact h.moved hc (by rw [hphase]; exact id) (by rw [(h.index r c hc).1]; rfl)
  | add r accepted =>
    obtain ⟨c, hat, rfl⟩ := Option.map_eq_some_iff.mp hs
    obtain ⟨hc, hphase⟩ := at_eq_some.mp hat
    have hslot := h.slots_eq hc
    rw [hphase] at hslot
    -- The slot was put into the map before, and stays there.
    refine h.moved hc (fun _ => by rw [hphase]; rfl) ?_
    cases accepted <;> exact (Function.update_eq_self_iff.mpr hslot.symm).symm
  | undo r =>
    obtain ⟨c, hat, rfl⟩ := Option.map_eq_some_iff.mp hs
    obtain ⟨hc, hphase⟩ := at_eq_some.mp hat
    exact h.moved hc (by rw [hphase]; exact id) (by rw [(h.index r c hc).1]; rfl)
  | use r method =>
    obtain ⟨c, hat, rfl⟩ := Option.map_eq_some_iff.mp hs
    obtain ⟨hc, hphase⟩ := at_eq_some.mp hat
    exact h.used hc hphase method
  | deregister r =>
    obtain ⟨c, hat, rfl⟩ := Option.map_eq_some_iff.mp hs
    obtain ⟨hc, hphase⟩ := at_eq_some.mp hat
    have hslot := h.slots_eq hc
    rw [hphase] at hslot
    exact h.moved hc (fun hnot => by cases hnot) (Function.update_eq_self_iff.mpr hslot.symm).symm
  | removeSlot r =>
    obtain ⟨c, hat, rfl⟩ := Option.map_eq_some_iff.mp hs
    obtain ⟨hc, -⟩ := at_eq_some.mp hat
    exact h.moved hc (fun hnot => by cases hnot) (by rw [(h.index r c hc).1]; rfl)
  | dispatch event =>
    cases hs
    rcases h.dispatch_cases event with hsame | ⟨r, c, hc, -, -, hd⟩
    · rw [hsame]
      exact h
    · rw [hd]
      exact h.delivered hc event.flags
  | wake i =>
    obtain ⟨x, -, rfl⟩ := Option.map_eq_some_iff.mp hs
    exact ⟨h.next, h.few, h.index, h.map, h.unparked, h.once⟩

/-- The invariant holds in every state of a run with few calls of `register`. -/
theorem inv_of_reach (h : system.Reach (fun s act _ => FewRegisters s act = true) s) : Inv s :=
  h.invariant (fun _ h0 => by rw [show _ = new from h0]; exact inv_new)
    fun _ _ _ hi hs hok => step_inv hi hs hok

/-- A registration whose slot is in the map is in use, or is being dropped. -/
theorem Phase.owned {phase : Phase} (hin : phase.inMap = true) (hmade : phase.made = true) :
    phase = .live ∨ phase = .removing := by
  revert hin hmade
  cases phase <;> decide

/-- Wakers are taken out of the slot of a registration that its owner still has. -/
theorem Inv.taken_from_owned (h : Inv s) (hc : s.calls[r]? = some c) (hin : c.phase.inMap = true)
    {flags : Readiness} (htaken : (c.slot.wakers.dispatch flags).2 ≠ []) :
    c.phase = .live ∨ c.phase = .removing := by
  have hmade : c.phase.made = true := by
    by_contra hnot
    have hnone := h.unparked r c hc (by simpa using hnot)
    have hreader : c.slot.wakers.reader = none := hnone .read
    have hwriter : c.slot.wakers.writer = none := hnone .write
    apply htaken
    show (c.slot.wakers.dispatchRead flags).2 ++
      ((c.slot.wakers.dispatchRead flags).1.dispatchWrite flags).2 = []
    rw [Wakers.dispatchRead_taken, Wakers.dispatchWrite_taken, hreader, hwriter]
    simp
  exact Phase.owned hin hmade

/-- A slot that is inserted overwrites nothing: its index is not in the map. -/
theorem Inv.insert_fresh (h : Inv s) (hs : step s (.insert r) = some s') :
    ∃ c : Call, s.calls[r]? = some c ∧ s.slots c.index = none ∧
      s'.slots = Function.update s.slots c.index (some r) := by
  obtain ⟨c, hat, rfl⟩ := Option.map_eq_some_iff.mp hs
  obtain ⟨hc, hphase⟩ := at_eq_some.mp hat
  refine ⟨c, hc, ?_, rfl⟩
  rw [(h.index r c hc).1, h.slots_eq hc, hphase]
  rfl

/-- A call of `register` that the poller refuses, without other steps between its own. -/
theorem Inv.refused_run (h : Inv s) :
    (system.run s [.register, .insert s.calls.length, .add s.calls.length false,
      .undo s.calls.length]).map (·.slots) = some s.slots := by
  have hnone : s.slots s.nextIndex = none := by
    rw [Option.eq_none_iff_forall_ne_some]
    intro x hx
    obtain ⟨hix, c, hc, -⟩ := (h.map _ x).mp hx
    have hlt := (List.getElem?_eq_some_iff.mp hc).1
    have hnext := h.next
    omega
  have hback : Function.update (Function.update s.slots s.nextIndex (some s.calls.length))
      s.nextIndex none = s.slots := by
    rw [Function.update_idem, ← hnone, Function.update_eq_self]
  simp [Lts.run, system, step, State.at, State.move, Option.filter, hback]

/-- Stale readiness never reaches another registration. In every state of a run with fewer than
`2 ^ 48` calls of `register`:

* a call's token splits into its index and its generation, is not the poller's wake token, and is
  no other call's;
* an event, whatever its token and however old, changes nothing, or reaches the one call that was
  issued its token and whose slot is in the map, and takes wakers only from a registration whose
  owner still has it;
* `dispatch` took a waker out of a slot at most as often as it was parked there;
* a call that failed has nothing in the map, an insertion overwrites nothing, and a call that is
  refused leaves the map as it was. -/
theorem stale_readiness_contained
    (h : system.Reach (fun s act _ => FewRegisters s act = true) s) :
    (∀ (r : Nat) (c : Call), s.calls[r]? = some c →
      splitToken c.token = (c.index, c.slot.generation) ∧ c.token ≠ wakeToken ∧
      ∀ (r' : Nat) (c' : Call), s.calls[r']? = some c' → c'.token = c.token → r' = r) ∧
    (∀ event : Event, dispatch s event = s ∨
      ∃ (r : Nat) (c : Call), s.calls[r]? = some c ∧ c.phase.inMap = true ∧
        c.token = event.token ∧ dispatch s event = delivered s r c event.flags ∧
        ((c.slot.wakers.dispatch event.flags).2 ≠ [] → c.phase = .live ∨ c.phase = .removing)) ∧
    (∀ p : Park, s.takes.count p ≤ s.parks.count p) ∧
    (∀ (r : Nat) (c : Call), s.calls[r]? = some c → c.phase = .failed →
      s.slots c.index = none) ∧
    (∀ (r : Nat) (s' : State), step s (.insert r) = some s' →
      ∃ c : Call, s.calls[r]? = some c ∧ s.slots c.index = none ∧
        s'.slots = Function.update s.slots c.index (some r)) ∧
    (system.run s [.register, .insert s.calls.length, .add s.calls.length false,
      .undo s.calls.length]).map (·.slots) = some s.slots := by
  have hi := inv_of_reach h
  refine ⟨?_, ?_, ?_, ?_, fun r s' hs => hi.insert_fresh hs, hi.refused_run⟩
  · intro r c hc
    have hsplit := hi.splitToken_token hc
    obtain ⟨hindex, hgen⟩ := hi.index r c hc
    refine ⟨by rw [hsplit, hindex, hgen], ?_, ?_⟩
    · have hlt := (List.getElem?_eq_some_iff.mp hc).1
      have hfew := hi.few
      show makeToken c.index c.slot.generation ≠ wakeToken
      rw [hindex, hgen]
      exact makeToken_ne_wakeToken (by omega)
    · intro r' c' hc' heq
      have hsplit' := hi.splitToken_token hc'
      rw [heq, hsplit] at hsplit'
      exact (congrArg Prod.fst hsplit').symm
  · intro event
    refine (hi.dispatch_cases event).imp_right ?_
    rintro ⟨r, c, hc, hin, htoken, hd⟩
    exact ⟨r, c, hc, hin, htoken, hd, hi.taken_from_owned hc hin⟩
  · intro p
    have honce := hi.once p
    omega
  · intro r c hc hfailed
    rw [(hi.index r c hc).1, hi.slots_eq hc, hfailed]
    rfl

/-- A registration is dropped with a waker parked, and another is made and parks. An event with
the old token comes in late and changes nothing, and one with the new token takes the new
waker. -/
theorem stale_readiness_contained_reuse :
    ∃ s, system.Reach (fun s act _ => FewRegisters s act = true) s ∧
      s.takes = [⟨1, .read, 9⟩] ∧ s.takes.count ⟨0, .read, 8⟩ ≤ s.parks.count ⟨0, .read, 8⟩ ∧
      s.parks.count ⟨0, .read, 8⟩ = 1 := by
  obtain ⟨s, hr, hp⟩ := Lts.Reach.exists_of_runWhere (M := system) (s := new)
    (fun s act _ => FewRegisters s act = true)
    [.register, .insert 0, .add 0 true,
      -- The first registration takes its cached readiness, parks, and is dropped.
      .use 0 (.takeReadableOrPark 8), .use 0 (.takeReadableOrPark 8), .deregister 0, .removeSlot 0,
      .register, .insert 1, .add 1 true,
      .use 1 (.takeReadableOrPark 9), .use 1 (.takeReadableOrPark 9),
      -- The old event is dispatched after all that, and twice.
      .dispatch ⟨makeToken 0 1, true, true, true⟩, .dispatch ⟨makeToken 0 1, true, true, true⟩,
      .dispatch ⟨makeToken 1 1, true, false, false⟩]
    (fun s => s.takes = [⟨1, .read, 9⟩] ∧ s.parks.count ⟨0, .read, 8⟩ = 1) rfl (by decide)
  obtain ⟨htakes, hparks⟩ : s.takes = [⟨1, .read, 9⟩] ∧ s.parks.count ⟨0, .read, 8⟩ = 1 := by
    simpa using hp
  exact ⟨s, hr, htakes, (stale_readiness_contained hr).2.2.1 _, hparks⟩

end Slots

end Nagoya.Reactor
