import Nagoya.Par

/-!
# `Nagoya.Par.Pair`: two parallel loops on one switch

`ParFor::cancel_with` gives a loop a `Cancel` that somebody else made, so two loops may have the
same one. The system is two loops over any ranges. Each takes the steps of a loop of its own, and
the switch is one word: what a step of one loop does to it, the other finds.
-/

set_option autoImplicit false

namespace Nagoya.Par

open Nagoya.Lib

/-- Two loops with the same `Cancel`. -/
structure Pair where
  first : State
  second : State
  deriving DecidableEq, Repr

namespace Pair

/-- The loop on one side. -/
def get (p : Pair) : Bool → State
  | false => p.first
  | true => p.second

/-- One side after a step of it. The other side sees the switch. -/
def put (p : Pair) (side : Bool) (s : State) : Pair :=
  match side with
  | false => { first := s, second := { p.second with cancelled := s.cancelled } }
  | true => { first := { p.first with cancelled := s.cancelled }, second := s }

variable [Target]

/-- A step of the loop on one side. -/
def step (loops : Bool → Loop) (p : Pair) (label : Bool × Action) : Option Pair :=
  (Par.step (loops label.1) (p.get label.1) label.2).map (p.put label.1)

/-- The system of two loops, which nobody has polled yet. -/
def system (loops : Bool → Loop) : Lts Pair (Bool × Action) where
  init p := p = { first := new (loops false), second := new (loops true) }
  next := step loops

end Pair

end Nagoya.Par
