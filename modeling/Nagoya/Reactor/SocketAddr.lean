import Nagoya.Lib.Buffer

/-!
# `Nagoya.Reactor.SocketAddr`: socket addresses and the kernel's format for them

An `Addr` is written into a `sockaddr_storage` before `bind` and `connect`, and read out of one
that the kernel filled. The storage is a buffer of bytes. The fields lie at the offsets of
`sockaddr_in`, `sockaddr_in6` and `sockaddr_un`, and a machine word is stored in the byte order
of the target.

The layouts differ between the systems in the family field: two bytes on Linux, and a length
byte, which no caller sets, and one byte on the others. The offsets of the other fields are the
same. `Os` carries the constants that differ.

A `UnixPath` holds the bytes of `sun_path` and how many of them are meaningful. Four facts are
fields of it: the length is inside the array, the padding is zero, a name that begins with a NUL
exists on Linux only, and any other name has no NUL in it. Each constructor proves them.
-/

set_option autoImplicit false

namespace Nagoya.Reactor

open Nagoya.Lib

/-- The systems the reactor is built for. -/
inductive Os where
  | linux
  | macos
  | ios
  | freebsd
  | netbsd
  | openbsd
  | dragonfly
  deriving DecidableEq, Repr

namespace Os

/-- `AF_UNIX`. -/
def afUnix : Nat := 1

/-- `AF_INET`. -/
def afInet : Nat := 2

/-- `AF_INET6`. -/
def afInet6 : Os → Nat
  | linux => 10
  | macos | ios => 30
  | freebsd | dragonfly => 28
  | netbsd | openbsd => 24

/-- `UNIX_PATH_CAPACITY`: the bytes of `sun_path`. -/
def unixPathCapacity : Os → Nat
  | linux => 108
  | _ => 104

/-- Where the family field of an address starts. -/
def familyOffset : Os → Nat
  | linux => 0
  | _ => 1

/-- The bytes of `sa_family_t`. -/
def familyWidth : Os → Nat
  | linux => 2
  | _ => 1

/-- `size_of::<sockaddr_storage>()`. -/
def storageSize : Os → Nat
  | openbsd => 256
  | _ => 128

theorem capacity_le_108 (os : Os) : os.unixPathCapacity ≤ 108 := by
  cases os <;> decide

theorem le_capacity (os : Os) : 104 ≤ os.unixPathCapacity := by
  cases os <;> decide

theorem le_storageSize (os : Os) : 128 ≤ os.storageSize := by
  cases os <;> decide

/-- On every system the family ends where the port and the path begin. -/
theorem family_end (os : Os) : os.familyOffset + os.familyWidth = 2 := by
  cases os <;> decide

end Os

/-- `SUN_PATH_OFFSET`: where `sun_path` starts inside a `sockaddr_un`. -/
def sunPathOffset : Nat := 2

/-- `size_of::<sockaddr_un>()`. -/
def sockaddrUnSize (os : Os) : Nat := sunPathOffset + os.unixPathCapacity

/-- `size_of::<sockaddr_in>()`. -/
def sockaddrInSize : Nat := 16

/-- `size_of::<sockaddr_in6>()`. -/
def sockaddrIn6Size : Nat := 28

/-- The byte order of the target. -/
inductive Endian where
  | little
  | big
  deriving DecidableEq, Repr

namespace Endian

/-- The bytes of a word of `n` bytes as they lie in memory. -/
def bytes (e : Endian) (n v : Nat) : List UInt8 :=
  match e with
  | little => toBytes n v
  | big => (toBytes n v).reverse

/-- The word that bytes in memory hold. -/
def word (e : Endian) (bytes : List UInt8) : Nat :=
  match e with
  | little => ofBytes bytes
  | big => ofBytes bytes.reverse

/-- `u16::to_be`, and `u16::from_be`: the bytes change places on a little-endian target. -/
def be16 (e : Endian) (v : UInt16) : UInt16 :=
  match e with
  | little => UInt16.ofNat (v.toNat % 256 * 256 + v.toNat / 256)
  | big => v

theorem length_bytes (e : Endian) (n v : Nat) : (e.bytes n v).length = n := by
  cases e with
  | little => exact length_toBytes n v
  | big =>
    show (toBytes n v).reverse.length = n
    rw [List.length_reverse, length_toBytes]

end Endian

/-- The errors of the constructors of `UnixPath`. -/
inductive Errno where
  | einval
  | enametoolong
  deriving DecidableEq, Repr

/-- `UnixPath`: the name of a Unix-domain socket, or the absence of one. -/
@[ext]
structure UnixPath (os : Os) where
  bytes : Buffer UInt8 os.unixPathCapacity
  len : UInt8
  fits : len.toNat ≤ os.unixPathCapacity
  padded : bytes.data.drop len.toNat = List.replicate (os.unixPathCapacity - len.toNat) 0
  abstractOnLinux : (bytes.data.take len.toNat).head? = some 0 → os = .linux
  noNul : (bytes.data.take len.toNat).head? ≠ some 0 → 0 ∉ bytes.data.take len.toNat
  deriving DecidableEq, Repr

namespace UnixPath

variable {os : Os}

/-- The array that begins with `name` and is zero behind it. -/
def padWith (os : Os) (name : List UInt8) (h : name.length ≤ os.unixPathCapacity) :
    Buffer UInt8 os.unixPathCapacity :=
  (Buffer.fill os.unixPathCapacity 0).write 0 name (by omega)

theorem data_padWith {name : List UInt8} (h : name.length ≤ os.unixPathCapacity) :
    (padWith os name h).data = name ++ List.replicate (os.unixPathCapacity - name.length) 0 := by
  show [] ++ (name ++ (List.replicate os.unixPathCapacity 0).drop (0 + name.length)) = _
  rw [List.nil_append, Nat.zero_add, List.drop_replicate]

theorem toNat_length {name : List UInt8} (h : name.length ≤ os.unixPathCapacity) :
    (UInt8.ofNat name.length).toNat = name.length := by
  have hcap := os.capacity_le_108
  rw [UInt8.toNat_ofNat']
  omega

/-- A name in its place: the bytes, the padding behind them, and their number. -/
def ofName (os : Os) (name : List UInt8) (h : name.length ≤ os.unixPathCapacity)
    (hlinux : name.head? = some 0 → os = .linux) (hnul : name.head? ≠ some 0 → 0 ∉ name) :
    UnixPath os where
  bytes := padWith os name h
  len := UInt8.ofNat name.length
  fits := by rw [toNat_length h]; exact h
  padded := by rw [toNat_length h, data_padWith, List.drop_left]
  abstractOnLinux := by rw [toNat_length h, data_padWith, List.take_left]; exact hlinux
  noNul := by rw [toNat_length h, data_padWith, List.take_left]; exact hnul

/-- `UnixPath::unnamed`. -/
def unnamed : UnixPath os := ofName os [] (Nat.zero_le _) (by simp) (by simp)

/-- `UnixPath::new`: a filesystem path. -/
def new (path : List UInt8) : Except Errno (UnixPath os) :=
  if h : path = [] ∨ 0 ∈ path then .error .einval
  else if hlong : path.length > os.unixPathCapacity - 1 then .error .enametoolong
  else .ok (ofName os path (by omega)
    (fun hz => absurd (List.mem_of_mem_head? hz) (not_or.mp h).2) (fun _ => (not_or.mp h).2))

/-- `UnixPath::abstract_name`, which Linux has and no other system. -/
def abstractName (name : List UInt8) : Except Errno (UnixPath .linux) :=
  if name = [] then .error .einval
  else if hlong : name.length > Os.linux.unixPathCapacity - 1 then .error .enametoolong
  else .ok (ofName .linux (0 :: name)
    (by have hcap := Os.linux.le_capacity; rw [List.length_cons]; omega)
    (fun _ => rfl) (fun hz => absurd rfl hz))

/-- `UnixPath::encoded`: the meaningful bytes. -/
def encoded (p : UnixPath os) : List UInt8 := p.bytes.data.take p.len.toNat

/-- The name lies inside a `sockaddr_storage`. -/
theorem encoded_fits (p : UnixPath os) : sunPathOffset + p.encoded.length ≤ 128 := by
  have hcap := os.capacity_le_108
  have hfits := p.fits
  show 2 + (p.bytes.data.take p.len.toNat).length ≤ 128
  rw [List.length_take]
  omega

/-- `UnixPath::is_unnamed`. -/
def isUnnamed (p : UnixPath os) : Bool := p.len == 0

/-- `UnixPath::is_abstract`. -/
def isAbstract (p : UnixPath os) : Bool := 0 < p.len && p.bytes.data.head? == some 0

/-- `UnixPath::as_path_bytes`: the filesystem path, if that is what this is. -/
def asPathBytes (p : UnixPath os) : Option (List UInt8) :=
  if p.isUnnamed || p.isAbstract then none else some p.encoded

/-- `UnixPath::sockaddr_len`: a path counts its terminator, and an abstract name has none. -/
def sockaddrLen (p : UnixPath os) : Nat :=
  if p.len = 0 then sunPathOffset
  else if p.bytes.data.head? = some 0 then sunPathOffset + p.len.toNat
  else sunPathOffset + p.len.toNat + 1

/-- How many of the bytes that the kernel reported are the name. -/
def nameLen (os : Os) (reported : List UInt8) : Nat :=
  match reported.head? with
  -- The family and nothing after it: an unbound peer.
  | none => 0
  | some 0 =>
    -- A leading NUL is an abstract name on Linux. Elsewhere it is slack after an unnamed peer.
    if os = .linux then reported.length else 0
  -- `position` of the terminator, or the whole length when the kernel did not count it.
  | some _ => reported.findIdx (· == 0)

/-- A name that begins with another byte than NUL goes up to its terminator. -/
theorem nameLen_cons_of_ne {b : UInt8} {rest : List UInt8} (hb : b ≠ 0) :
    nameLen os (b :: rest) = (b :: rest).findIdx (· == 0) := by
  unfold nameLen
  rw [List.head?_cons]
  split
  · cases ‹some b = none›
  · exact absurd (Option.some.inj ‹some b = some 0›) hb
  · rfl

/-- What is kept begins with a NUL on Linux only. -/
theorem linux_of_head_take (reported : List UInt8)
    (h : (reported.take (nameLen os reported)).head? = some 0) : os = .linux := by
  cases reported with
  | nil => simp at h
  | cons b rest =>
    by_cases hb : b = 0
    · subst hb
      by_contra hos
      simp [nameLen, hos] at h
    · -- A name that begins with another byte keeps that byte first, or keeps nothing.
      rw [List.head?_take] at h
      split at h
      · cases h
      · exact absurd (Option.some.inj h) hb

/-- What is kept has no NUL in it, unless it begins with one. -/
theorem nul_notMem_take (reported : List UInt8)
    (h : (reported.take (nameLen os reported)).head? ≠ some 0) :
    0 ∉ reported.take (nameLen os reported) := by
  cases reported with
  | nil => simp
  | cons b rest =>
    by_cases hb : b = 0
    · subst hb
      by_cases hos : os = .linux
      · simp [nameLen, hos] at h
      · simp [nameLen, hos]
    · rw [nameLen_cons_of_ne hb]
      intro hmem
      obtain ⟨i, hi⟩ := List.mem_iff_getElem?.mp hmem
      rw [List.getElem?_take] at hi
      split at hi
      · rename_i hlt
        obtain ⟨hi', heq⟩ := List.getElem?_eq_some_iff.mp hi
        have := List.not_of_lt_findIdx hlt
        simp [heq] at this
      · cases hi

end UnixPath

/-- `Addr`: a socket address. -/
inductive Addr (os : Os) where
  | v4 (octets : Buffer UInt8 4) (port : UInt16)
  | v6 (octets : Buffer UInt8 16) (port : UInt16)
  | v6Scoped (octets : Buffer UInt8 16) (port : UInt16) (scope : UInt32)
  | path (name : UnixPath os)
  deriving DecidableEq, Repr

/-- A `sockaddr_storage`. -/
abbrev Storage (os : Os) := Buffer UInt8 os.storageSize

namespace Storage

variable {os : Os} (e : Endian) (s : Storage os)

/-- A store to the family field. -/
def setFamily (family : Nat) : Storage os :=
  s.write os.familyOffset (e.bytes os.familyWidth family) (by
    have hsize := os.le_storageSize
    have hend := os.family_end
    rw [e.length_bytes]
    omega)

/-- `ss_family`. -/
def family : Nat := e.word (s.read os.familyOffset os.familyWidth)

/-- A store of bytes at `offset`. -/
def setBytes (offset : Nat) (field : List UInt8) (h : offset + field.length ≤ 128) : Storage os :=
  s.write offset field (Nat.le_trans h os.le_storageSize)

/-- A store of the machine word `v` of `n` bytes at `offset`. -/
def setWord (offset n v : Nat) (h : offset + n ≤ 128) : Storage os :=
  s.setBytes offset (e.bytes n v) (by rw [e.length_bytes]; exact h)

/-- The bytes at `offset`. -/
def getBytes (offset n : Nat) (h : offset + n ≤ 128) : Buffer UInt8 n where
  data := s.read offset n
  size := by
    have hsize := os.le_storageSize
    rw [s.length_read]
    omega

/-- The machine word of `n` bytes at `offset`. -/
def getWord (offset n : Nat) : Nat := e.word (s.read offset n)

end Storage

namespace Addr

variable {os : Os}

/-- What `write_to` does for both kinds of IPv6 address. `sin6_flowinfo` is left alone. -/
def writeV6 (e : Endian) (storage : Storage os) (octets : Buffer UInt8 16) (port : UInt16)
    (scope : UInt32) : Storage os × Nat :=
  let s := storage.setFamily e os.afInet6
  let s := s.setWord e 2 2 (e.be16 port).toNat (by decide)
  let s := s.setBytes 8 octets.data (by rw [octets.size]; decide)
  (s.setWord e 24 4 scope.toNat (by decide), sockaddrIn6Size)

/-- `Addr::write_to`: the storage after it, and the length it returns. -/
def writeTo (e : Endian) (addr : Addr os) (storage : Storage os) : Storage os × Nat :=
  match addr with
  | .v4 octets port =>
    let s := storage.setFamily e Os.afInet
    let s := s.setWord e 2 2 (e.be16 port).toNat (by decide)
    -- `u32::from_ne_bytes`, and the word is stored in the byte order it was made from.
    (s.setWord e 4 4 (e.word octets.data) (by decide), sockaddrInSize)
  | .v6 octets port => writeV6 e storage octets port 0
  | .v6Scoped octets port scope => writeV6 e storage octets port scope
  | .path name =>
    let s := storage.setFamily e Os.afUnix
    (s.setBytes sunPathOffset name.encoded name.encoded_fits, name.sockaddrLen)

/-- The path that `read_from` finds in a `sockaddr_un`. Bytes that are not part of the name are
not kept: the array is zero behind it. -/
def readPath (storage : Storage os) (len : Nat) : UnixPath os :=
  let reported := storage.read sunPathOffset (min (len - sunPathOffset) os.unixPathCapacity)
  .ofName os (reported.take (UnixPath.nameLen os reported)) (by
      have hread : reported.length ≤ os.unixPathCapacity := by
        rw [storage.length_read]
        omega
      rw [List.length_take]
      omega)
    (UnixPath.linux_of_head_take reported) (UnixPath.nul_notMem_take reported)

/-- `Addr::read_from`. The answer is `none` for a family that the crate does not speak. -/
def readFrom (e : Endian) (storage : Storage os) (len : Nat) : Option (Addr os) :=
  if storage.family e = Os.afInet then
    some (.v4 ⟨e.bytes 4 (storage.getWord e 4 4), e.length_bytes 4 _⟩
      (e.be16 (UInt16.ofNat (storage.getWord e 2 2))))
  else if storage.family e = os.afInet6 then
    let octets := storage.getBytes 8 16 (by decide)
    let port := e.be16 (UInt16.ofNat (storage.getWord e 2 2))
    let scope := UInt32.ofNat (storage.getWord e 24 4)
    some (if scope = 0 then .v6 octets port else .v6Scoped octets port scope)
  else if storage.family e = Os.afUnix then some (.path (readPath storage len))
  else none

end Addr

end Nagoya.Reactor
