import Mathlib.Algebra.Order.Ring.Nat

/-!
# `Nagoya.Machine`: the machine word and wakers

The library counts with `AtomicUsize`. The width of `usize` is a property of the target, and
every model takes it as a `Target`. The language promises at least 16 bits. A `fetch_add` or
`fetch_sub` wraps.

An `i64` is an integer between `i64Min` and `i64Max`. The operations on it saturate.

A `Waker` is a number. Two wakers are equal when `will_wake` holds between them.
-/

set_option autoImplicit false

namespace Nagoya

/-- A task's waker. `will_wake` is equality. -/
abbrev Waker := Nat

/-- The target a build is for. -/
class Target where
  usizeBits : Nat
  sixteen_le : 16 ≤ usizeBits

/-- The number of values of `usize`. -/
def usizeModulus [Target] : Nat := 2 ^ Target.usizeBits

/-- `usize::MAX`. -/
def usizeMax [Target] : Nat := usizeModulus - 1

/-- The value `fetch_add` leaves. -/
def usizeAdd [Target] (a b : Nat) : Nat := (a + b) % usizeModulus

/-- The value `fetch_sub` leaves. -/
def usizeSub [Target] (a b : Nat) : Nat := (a + usizeModulus - b) % usizeModulus

/-- `i64::MAX`. -/
def i64Max : Int := 9223372036854775807

/-- `i64::MIN`. -/
def i64Min : Int := -9223372036854775808

/-- `i64::saturating_add`. -/
def i64SaturatingAdd (a b : Int) : Int := max i64Min (min i64Max (a + b))

/-- `i64::saturating_sub`. -/
def i64SaturatingSub (a b : Int) : Int := max i64Min (min i64Max (a - b))

/-- `i64::try_from`, of a `u64`. -/
def i64TryFrom (value : UInt64) : Option Int :=
  if (value.toNat : Int) ≤ i64Max then some value.toNat else none

/-- A 64-bit target. -/
@[reducible] def target64 : Target := ⟨64, by decide⟩

theorem two_lt_usizeModulus [Target] : 2 < usizeModulus := by
  have h : 2 ^ 16 ≤ usizeModulus := Nat.pow_le_pow_right (by decide) Target.sixteen_le
  omega

theorem usizeAdd_of_lt [Target] {a b : Nat} (h : a + b < usizeModulus) :
    usizeAdd a b = a + b :=
  Nat.mod_eq_of_lt h

theorem usizeSub_of_le [Target] {a b : Nat} (hb : b ≤ a) (ha : a < usizeModulus) :
    usizeSub a b = a - b := by
  unfold usizeSub
  rw [show a + usizeModulus - b = a - b + usizeModulus by omega, Nat.add_mod_right]
  exact Nat.mod_eq_of_lt (by omega)

end Nagoya
