import Mathlib.Data.List.Basic
import Mathlib.Algebra.Order.Ring.Nat

/-!
# `Nagoya.Lib.Buffer`: fixed-size buffers and the bytes of a machine word

A `Buffer α n` is an array of `n` cells. A field of a record that lies in it is read and written
at its offset. A write carries the proof that it stays inside, so an out-of-bounds write cannot
be expressed. Two lemmas do the work of a proof about layouts: a read that begins where a field
was written sees the field and then the old cells (`read_write_from`), and a read that lies
before or behind it sees the old cells (`read_write_before`, `read_write_after`).

`toBytes` and `ofBytes` are the bytes of a number, the low one first. They are inverse to each
other on the numbers that fit (`ofBytes_toBytes`) and on the byte strings of the right length
(`toBytes_ofBytes`).
-/

set_option autoImplicit false

namespace Nagoya.Lib

/-- An array of `n` cells. -/
@[ext]
structure Buffer (α : Type) (n : Nat) where
  data : List α
  size : data.length = n
  deriving DecidableEq, Repr

namespace Buffer

variable {α : Type} {n : Nat}

/-- A buffer that holds one value everywhere. -/
def fill (n : Nat) (a : α) : Buffer α n := ⟨List.replicate n a, List.length_replicate⟩

/-- The `len` cells from `offset` on, or as many of them as there are. -/
def read (b : Buffer α n) (offset len : Nat) : List α := (b.data.drop offset).take len

/-- The cells of `field` written at `offset`. -/
def write (b : Buffer α n) (offset : Nat) (field : List α) (h : offset + field.length ≤ n) :
    Buffer α n where
  data := b.data.take offset ++ (field ++ b.data.drop (offset + field.length))
  size := by
    have hb := b.size
    simp only [List.length_append, List.length_take, List.length_drop]
    omega

variable (b : Buffer α n) {offset len start : Nat} {field : List α}

theorem length_read : (b.read offset len).length = min len (n - offset) := by
  unfold read
  rw [List.length_take, List.length_drop, b.size]

/-- The cells after a write: those before the field, the field, and those behind it. -/
theorem drop_write (h : offset + field.length ≤ n) :
    (b.write offset field h).data.drop offset = field ++ b.data.drop (offset + field.length) := by
  have hb := b.size
  have hlen : (b.data.take offset).length = offset := by
    rw [List.length_take]
    omega
  show (b.data.take offset ++ (field ++ b.data.drop (offset + field.length))).drop offset = _
  rw [List.drop_append_of_le_length (by omega), List.drop_of_length_le (by omega),
    List.nil_append]

/-- A read that begins where a field was written sees the field, and behind it the old cells. -/
theorem read_write_from (h : offset + field.length ≤ n) (hle : field.length ≤ len) :
    (b.write offset field h).read offset len =
      field ++ b.read (offset + field.length) (len - field.length) := by
  unfold read
  rw [b.drop_write h, List.take_append, List.take_of_length_le hle]

/-- A read of the field that was written gives it back. -/
theorem read_write_self (h : offset + field.length ≤ n) (hlen : field.length = len) :
    (b.write offset field h).read offset len = field := by
  rw [b.read_write_from h (by omega), hlen, Nat.sub_self]
  show field ++ List.take 0 _ = field
  rw [List.take_zero, List.append_nil]

/-- A read that ends before the field sees the cells that were there. -/
theorem read_write_before (h : offset + field.length ≤ n) (hle : start + len ≤ offset) :
    (b.write offset field h).read start len = b.read start len := by
  have hb := b.size
  have hlen : (b.data.take offset).length = offset := by
    rw [List.length_take]
    omega
  unfold read
  show ((b.data.take offset ++ (field ++ b.data.drop (offset + field.length))).drop start).take
    len = _
  rw [List.drop_append_of_le_length (by omega), List.take_append_of_le_length, List.drop_take,
    List.take_take, Nat.min_eq_left (by omega)]
  rw [List.length_drop]
  omega

/-- A read that begins behind the field sees the cells that were there. -/
theorem read_write_after (h : offset + field.length ≤ n) (hle : offset + field.length ≤ start) :
    (b.write offset field h).read start len = b.read start len := by
  have hdrop : (b.write offset field h).data.drop start = b.data.drop start := by
    rw [show start = offset + (start - offset) by omega, ← List.drop_drop, b.drop_write h,
      List.drop_append, List.drop_of_length_le (by omega), List.nil_append, List.drop_drop]
    congr 1
    omega
  unfold read
  rw [hdrop]

/-- A buffer that holds one value reads as that value. -/
theorem read_fill (a : α) (hle : offset + len ≤ n) :
    (fill n a).read offset len = List.replicate len a := by
  show ((List.replicate n a).drop offset).take len = _
  rw [List.drop_replicate, List.take_replicate, Nat.min_eq_left (by omega)]

end Buffer

/-- The `n` low bytes of a number, the lowest first. -/
def toBytes : Nat → Nat → List UInt8
  | 0, _ => []
  | n + 1, v => UInt8.ofNat (v % 256) :: toBytes n (v / 256)

/-- The number that a byte string spells, the lowest byte first. -/
def ofBytes : List UInt8 → Nat
  | [] => 0
  | b :: bytes => b.toNat + 256 * ofBytes bytes

theorem length_toBytes : ∀ n v : Nat, (toBytes n v).length = n := by
  intro n
  induction n with
  | zero => intro v; rfl
  | succ n ih =>
    intro v
    show (toBytes n (v / 256)).length + 1 = n + 1
    rw [ih]

/-- A number that fits in `n` bytes is read back from them. -/
theorem ofBytes_toBytes : ∀ n v : Nat, v < 256 ^ n → ofBytes (toBytes n v) = v := by
  intro n
  induction n with
  | zero =>
    intro v hv
    show 0 = v
    rw [Nat.pow_zero] at hv
    omega
  | succ n ih =>
    intro v hv
    have hquot : v / 256 < 256 ^ n := by
      rw [Nat.pow_succ] at hv
      omega
    show (UInt8.ofNat (v % 256)).toNat + 256 * ofBytes (toBytes n (v / 256)) = v
    rw [ih _ hquot, UInt8.toNat_ofNat']
    omega

/-- A byte string is the bytes of the number it spells. -/
theorem toBytes_ofBytes (bytes : List UInt8) : toBytes bytes.length (ofBytes bytes) = bytes := by
  induction bytes with
  | nil => rfl
  | cons b bytes ih =>
    have hb := b.toNat_lt
    have hlow : (b.toNat + 256 * ofBytes bytes) % 256 = b.toNat := by omega
    have hhigh : (b.toNat + 256 * ofBytes bytes) / 256 = ofBytes bytes := by omega
    show UInt8.ofNat ((b.toNat + 256 * ofBytes bytes) % 256) ::
      toBytes bytes.length ((b.toNat + 256 * ofBytes bytes) / 256) = b :: bytes
    rw [hlow, hhigh, ih, UInt8.ofNat_toNat]

theorem ofBytes_lt (bytes : List UInt8) : ofBytes bytes < 256 ^ bytes.length := by
  induction bytes with
  | nil => decide
  | cons b bytes ih =>
    have hb := b.toNat_lt
    show b.toNat + 256 * ofBytes bytes < 256 ^ (bytes.length + 1)
    rw [Nat.pow_succ]
    omega

end Nagoya.Lib
