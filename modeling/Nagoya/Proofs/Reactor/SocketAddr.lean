import Nagoya.Reactor.SocketAddr

/-!
# `Nagoya.Proofs.Reactor.SocketAddr`: an address survives the kernel's format

`round_trip` is the main fact: what `write_to` stores, `read_from` reads back, on every system,
in either byte order, and for every address that the types admit. An address that was read back
is one of them, so the fact can be used again on it.

The IP addresses are a matter of layout. Each field is read where it was written, and the later
writes lie behind it. A path needs more, because `sun_path` means three things. The invariant of
`UnixPath` says which of them the bytes are, and `nameLen` finds the same length again: behind a
path the storage is zero, so the terminator is where the name ends, however much the kernel
reports.
-/

set_option autoImplicit false

namespace Nagoya.Reactor

open Nagoya.Lib

/-! ### Machine words -/

namespace Endian

variable (e : Endian)

/-- A word that fits is read back from its bytes. -/
theorem word_bytes {n v : Nat} (h : v < 256 ^ n) : e.word (e.bytes n v) = v := by
  cases e with
  | little => exact ofBytes_toBytes n v h
  | big =>
    show ofBytes (toBytes n v).reverse.reverse = v
    rw [List.reverse_reverse, ofBytes_toBytes n v h]

/-- Bytes are read back from the word they make. -/
theorem bytes_word {n : Nat} {bytes : List UInt8} (h : bytes.length = n) :
    e.bytes n (e.word bytes) = bytes := by
  subst h
  cases e with
  | little => exact toBytes_ofBytes bytes
  | big =>
    show (toBytes bytes.length (ofBytes bytes.reverse)).reverse = bytes
    rw [← List.length_reverse, toBytes_ofBytes, List.reverse_reverse]

/-- A word of four bytes is a 32-bit number. -/
theorem word_lt {bytes : List UInt8} {n : Nat} (h : bytes.length = n) :
    e.word bytes < 256 ^ n := by
  subst h
  cases e with
  | little => exact ofBytes_lt bytes
  | big =>
    show ofBytes bytes.reverse < _
    rw [← List.length_reverse]
    exact ofBytes_lt _

/-- `from_be` undoes `to_be`. -/
theorem be16_be16 (v : UInt16) : e.be16 (e.be16 v) = v := by
  cases e with
  | big => rfl
  | little =>
    have hv := v.toNat_lt
    have hswap : (UInt16.ofNat (v.toNat % 256 * 256 + v.toNat / 256)).toNat =
        v.toNat % 256 * 256 + v.toNat / 256 := by
      rw [UInt16.toNat_ofNat']
      exact Nat.mod_eq_of_lt (by omega)
    have hlow : (v.toNat % 256 * 256 + v.toNat / 256) % 256 = v.toNat / 256 := by omega
    have hhigh : (v.toNat % 256 * 256 + v.toNat / 256) / 256 = v.toNat % 256 := by omega
    show UInt16.ofNat ((UInt16.ofNat (v.toNat % 256 * 256 + v.toNat / 256)).toNat % 256 * 256 +
      (UInt16.ofNat (v.toNat % 256 * 256 + v.toNat / 256)).toNat / 256) = v
    rw [hswap, hlow, hhigh, show v.toNat / 256 * 256 + v.toNat % 256 = v.toNat by omega,
      UInt16.ofNat_toNat]

end Endian

/-! ### Fields of the storage -/

namespace Storage

variable {os : Os} {e : Endian} {s : Storage os} {offset n v : Nat} {field : List UInt8}

/-- A family that fits in its field is read back. -/
theorem family_setFamily (hv : v < 256) : (s.setFamily e v).family e = v := by
  have hwidth : v < 256 ^ os.familyWidth := by
    cases os <;> exact Nat.lt_of_lt_of_le hv (by decide)
  unfold family setFamily
  rw [s.read_write_self _ (e.length_bytes _ _), e.word_bytes hwidth]

/-- A write behind the family leaves it alone. -/
theorem family_setBytes (h : offset + field.length ≤ 128) (hle : 2 ≤ offset) :
    (s.setBytes offset field h).family e = s.family e := by
  have hend := os.family_end
  unfold family setBytes
  rw [s.read_write_before _ (by omega)]

theorem family_setWord (h : offset + n ≤ 128) (hle : 2 ≤ offset) :
    (s.setWord e offset n v h).family e = s.family e :=
  family_setBytes _ hle

/-- A word is read back where it was stored. -/
theorem getWord_setWord (h : offset + n ≤ 128) (hv : v < 256 ^ n) :
    (s.setWord e offset n v h).getWord e offset n = v := by
  unfold getWord setWord setBytes
  rw [s.read_write_self _ (e.length_bytes n v), e.word_bytes hv]

/-- A write behind a word leaves it alone. -/
theorem getWord_setBytes {start m : Nat} (h : offset + field.length ≤ 128)
    (hle : start + m ≤ offset) :
    (s.setBytes offset field h).getWord e start m = s.getWord e start m := by
  unfold getWord setBytes
  rw [s.read_write_before _ hle]

theorem getWord_setWord_before {start m : Nat} (h : offset + n ≤ 128) (hle : start + m ≤ offset) :
    (s.setWord e offset n v h).getWord e start m = s.getWord e start m :=
  getWord_setBytes _ hle

/-- A write behind bytes leaves them alone. -/
theorem getBytes_setWord_before {start m : Nat} (h : offset + n ≤ 128) (hm : start + m ≤ 128)
    (hle : start + m ≤ offset) :
    (s.setWord e offset n v h).getBytes start m hm = s.getBytes start m hm := by
  unfold setWord setBytes
  apply Buffer.ext
  exact s.read_write_before _ hle

/-- Bytes are read back where they were stored. -/
theorem getBytes_setBytes (b : Buffer UInt8 n) (h : offset + b.data.length ≤ 128)
    (hm : offset + n ≤ 128) : (s.setBytes offset b.data h).getBytes offset n hm = b := by
  apply Buffer.ext
  exact s.read_write_self _ b.size

end Storage

/-! ### The IP addresses -/

theorem ofNat_be16 (e : Endian) (port : UInt16) :
    e.be16 (UInt16.ofNat (e.be16 port).toNat) = port := by
  rw [UInt16.ofNat_toNat, e.be16_be16]

theorem Os.afInet6_ne (os : Os) : os.afInet6 ≠ Os.afInet := by
  cases os <;> decide

theorem Os.afInet6_lt (os : Os) : os.afInet6 < 256 := by
  cases os <;> decide

theorem Os.afUnix_ne (os : Os) : Os.afUnix ≠ os.afInet6 := by
  cases os <;> decide

namespace Addr

variable {os : Os}

/-- The address as `read_from` spells it: an IPv6 address with the scope zero has none. -/
def canonical : Addr os → Addr os
  | .v6Scoped octets port 0 => .v6 octets port
  | addr => addr

/-- An IPv4 address is read back, whatever the storage held and whatever length is reported. -/
theorem readFrom_writeTo_v4 (e : Endian) (octets : Buffer UInt8 4) (port : UInt16)
    (storage : Storage os) (len : Nat) :
    readFrom e (writeTo e (.v4 octets port) storage).1 len = some (.v4 octets port) := by
  have hword : e.word octets.data < 256 ^ 4 := e.word_lt octets.size
  have hport : (e.be16 port).toNat < 256 ^ 2 := (e.be16 port).toNat_lt
  unfold readFrom writeTo
  simp only [Storage.family_setWord _ (Nat.le_refl 2),
    Storage.family_setWord _ (show 2 ≤ 4 by decide),
    Storage.family_setFamily (show Os.afInet < 256 by decide), if_true,
    Storage.getWord_setWord _ hword, Storage.getWord_setWord_before _ (show 2 + 2 ≤ 4 by decide),
    Storage.getWord_setWord _ hport, ofNat_be16]
  congr 2
  exact Buffer.ext (e.bytes_word octets.size)

/-- An IPv6 address is read back with its scope. -/
theorem readFrom_writeV6 (e : Endian) (octets : Buffer UInt8 16) (port : UInt16) (scope : UInt32)
    (storage : Storage os) (len : Nat) :
    readFrom e (writeV6 e storage octets port scope).1 len =
      some (if scope = 0 then .v6 octets port else .v6Scoped octets port scope) := by
  have hscope : scope.toNat < 256 ^ 4 := scope.toNat_lt
  have hport : (e.be16 port).toNat < 256 ^ 2 := (e.be16 port).toNat_lt
  unfold readFrom writeV6
  simp only [Storage.family_setWord _ (show 2 ≤ 24 by decide),
    Storage.family_setBytes _ (show 2 ≤ 8 by decide), Storage.family_setWord _ (Nat.le_refl 2),
    Storage.family_setFamily os.afInet6_lt, if_neg os.afInet6_ne, if_true,
    Storage.getWord_setWord _ hscope,
    Storage.getBytes_setWord_before _ _ (show 8 + 16 ≤ 24 by decide), Storage.getBytes_setBytes,
    Storage.getWord_setWord_before _ (show 2 + 2 ≤ 24 by decide),
    Storage.getWord_setBytes _ (show 2 + 2 ≤ 8 by decide), Storage.getWord_setWord _ hport,
    ofNat_be16, UInt32.ofNat_toNat]

end Addr

/-! ### Unix-domain names -/

/-- A list without a NUL has its first NUL at its end. -/
theorem findIdx_of_notMem {l : List UInt8} (h : 0 ∉ l) : l.findIdx (· == 0) = l.length := by
  rw [List.findIdx_eq_length]
  intro x hx
  simp only [beq_eq_false_iff_ne]
  rintro rfl
  exact h hx

/-- A list of NULs has its first one at its start. -/
theorem findIdx_replicate (k : Nat) : (List.replicate k (0 : UInt8)).findIdx (· == 0) = 0 := by
  cases k with
  | zero => rfl
  | succ k => rw [List.replicate_succ, List.findIdx_cons]; rfl

namespace UnixPath

variable {os : Os} (p : UnixPath os)

theorem length_encoded : p.encoded.length = p.len.toNat := by
  have hfits := p.fits
  unfold encoded
  rw [List.length_take, p.bytes.size]
  omega

/-- The array is the name and the zeros behind it. -/
theorem data_eq : p.bytes.data =
    p.encoded ++ List.replicate (os.unixPathCapacity - p.len.toNat) 0 := by
  rw [← p.padded]
  exact (List.take_append_drop _ _).symm

/-- `PartialEq` compares the meaningful bytes, and they are all there is. -/
theorem eq_iff_encoded {p q : UnixPath os} : p = q ↔ p.encoded = q.encoded := by
  refine ⟨fun h => by rw [h], fun h => ?_⟩
  have hlen : p.len = q.len := by
    apply UInt8.toNat_inj.mp
    rw [← p.length_encoded, ← q.length_encoded, h]
  have hbytes : p.bytes = q.bytes := by
    apply Buffer.ext
    rw [p.data_eq, q.data_eq, h, hlen]
  exact UnixPath.ext hbytes hlen

theorem encoded_ofName {name : List UInt8} (h : name.length ≤ os.unixPathCapacity)
    (hlinux : name.head? = some 0 → os = .linux) (hnul : name.head? ≠ some 0 → 0 ∉ name) :
    (ofName os name h hlinux hnul).encoded = name := by
  show (padWith os name h).data.take (UInt8.ofNat name.length).toNat = name
  rw [toNat_length h, data_padWith, List.take_left]

/-- `UnixPath::new` accepts a path that is not empty, has no NUL and leaves room for its
terminator, and keeps its bytes. -/
theorem new_eq_ok {path : List UInt8} (h : new path = .ok p) :
    p.encoded = path ∧ path ≠ [] ∧ 0 ∉ path ∧ path.length + 1 ≤ os.unixPathCapacity := by
  have hcap := os.le_capacity
  unfold new at h
  split at h
  · cases h
  · rename_i hbad
    split at h
    · cases h
    · rename_i hlong
      cases h
      exact ⟨encoded_ofName _ _ _, (not_or.mp hbad).1, (not_or.mp hbad).2, by omega⟩

/-- A name begins with the first byte of its array. -/
theorem head_encoded (hne : p.encoded ≠ []) : p.encoded.head? = p.bytes.data.head? := by
  rw [p.data_eq, List.head?_append_of_ne_nil _ hne]

/-- The length that goes with a name covers it, and covers its terminator when it is a path. -/
theorem sockaddrLen_cases :
    p.sockaddrLen = p.len.toNat + 2 ∨
    (p.sockaddrLen = p.len.toNat + 3 ∧ p.encoded ≠ [] ∧ 0 ∉ p.encoded) := by
  unfold sockaddrLen
  split
  · rename_i hzero
    exact .inl (by rw [hzero]; rfl)
  · rename_i hzero
    have hpos : p.encoded ≠ [] := by
      intro hnil
      have hlen := p.length_encoded
      rw [hnil] at hlen
      exact hzero (UInt8.toNat_inj.mp hlen.symm)
    split
    · exact .inl (Nat.add_comm _ _)
    · rename_i hhead
      rw [← p.head_encoded hpos] at hhead
      refine .inr ⟨?_, hpos, p.noNul hhead⟩
      show 2 + p.len.toNat + 1 = p.len.toNat + 3
      omega

/-- `nameLen` keeps the whole of a name when the kernel reports no more than the name. -/
theorem take_nameLen_encoded : p.encoded.take (nameLen os p.encoded) = p.encoded := by
  cases henc : p.encoded with
  | nil => rfl
  | cons b rest =>
    by_cases hb : b = 0
    · have hos : os = .linux := by
        apply p.abstractOnLinux
        show p.encoded.head? = some 0
        rw [henc, hb]
        rfl
      subst hb
      show (0 :: rest).take (if os = .linux then (0 :: rest).length else 0) = 0 :: rest
      rw [if_pos hos, List.take_length]
    · have hnul : 0 ∉ b :: rest := by
        rw [← henc]
        exact p.noNul (by rw [← encoded, henc]; simpa using hb)
      rw [nameLen_cons_of_ne hb, findIdx_of_notMem hnul, List.take_length]

/-- `nameLen` finds the end of a path that zeros follow: the first of them is its terminator. -/
theorem take_nameLen_path {k : Nat} (hne : p.encoded ≠ []) (hnul : 0 ∉ p.encoded) :
    (p.encoded ++ List.replicate k 0).take (nameLen os (p.encoded ++ List.replicate k 0)) =
      p.encoded := by
  have hend : (p.encoded ++ List.replicate k 0).findIdx (· == 0) = p.encoded.length := by
    rw [List.findIdx_append, findIdx_of_notMem hnul, if_neg (Nat.lt_irrefl _), findIdx_replicate,
      Nat.zero_add]
  cases henc : p.encoded with
  | nil => exact absurd henc hne
  | cons b rest =>
    rw [henc] at hend hnul
    have hb : b ≠ 0 := fun hz => hnul (by rw [hz]; exact List.mem_cons_self)
    rw [List.cons_append, nameLen_cons_of_ne hb, ← List.cons_append, hend, List.take_left]

end UnixPath

namespace Addr

variable {os : Os}

/-- The storage of a path holds the name, and zeros behind it. -/
theorem read_writeTo_path (e : Endian) (p : UnixPath os) {r : Nat} (hr : p.len.toNat ≤ r)
    (hcap : r ≤ os.unixPathCapacity) :
    (writeTo e (.path p) (Buffer.fill os.storageSize 0)).1.read sunPathOffset r =
      p.encoded ++ List.replicate (r - p.len.toNat) 0 := by
  have hsize := os.le_storageSize
  have hend := os.family_end
  have h108 := os.capacity_le_108
  have hlen := p.length_encoded
  unfold writeTo Storage.setBytes Storage.setFamily
  rw [Buffer.read_write_from _ _ (by omega), hlen]
  congr 1
  rw [Buffer.read_write_after _ _ (by rw [e.length_bytes]; show _ ≤ 2 + _; omega),
    Buffer.read_fill _ (by show 2 + _ + _ ≤ _; omega)]

/-- A path is found again in the storage when the reported length covers the name, and covers
nothing else if the name is not a filesystem path. -/
theorem readPath_writeTo (e : Endian) (p : UnixPath os) {len : Nat}
    (hcover : p.len.toNat + 2 ≤ len)
    (hexact : len = p.len.toNat + 2 ∨ p.encoded ≠ [] ∧ 0 ∉ p.encoded) :
    readPath (writeTo e (.path p) (Buffer.fill os.storageSize 0)).1 len = p := by
  have hfits := p.fits
  have hread := read_writeTo_path e p (r := min (len - sunPathOffset) os.unixPathCapacity)
    (by show _ ≤ min (len - 2) _; omega) (Nat.min_le_right _ _)
  rw [UnixPath.eq_iff_encoded]
  unfold readPath
  rw [UnixPath.encoded_ofName, hread]
  rcases hexact with heq | ⟨hne, hnul⟩
  · have hzero : min (len - sunPathOffset) os.unixPathCapacity - p.len.toNat = 0 := by
      show min (len - 2) _ - _ = 0
      omega
    rw [hzero, List.replicate_zero, List.append_nil, p.take_nameLen_encoded]
  · exact p.take_nameLen_path hne hnul

/-- `read_from` of a storage that holds a path. -/
theorem readFrom_writeTo_path (e : Endian) (p : UnixPath os) (len : Nat) :
    readFrom e (writeTo e (.path p) (Buffer.fill os.storageSize 0)).1 len =
      some (.path (readPath (writeTo e (.path p) (Buffer.fill os.storageSize 0)).1 len)) := by
  have hfamily : (writeTo e (.path p) (Buffer.fill os.storageSize 0)).1.family e = Os.afUnix := by
    unfold writeTo
    exact (Storage.family_setBytes p.encoded_fits (Nat.le_refl 2)).trans
      (Storage.family_setFamily (by decide))
  unfold readFrom
  rw [hfamily, if_neg (by decide), if_neg os.afUnix_ne, if_pos rfl]

/-- Socket addresses survive the kernel's format. Every address that can be built is read back
from zeroed storage at the length that `write_to` returned, an IPv6 address of scope zero
without its scope. A filesystem path is read back at every reported length from the one that
leaves out its terminator up to the size of the storage. -/
theorem round_trip (os : Os) (e : Endian) :
    (∀ addr : Addr os,
      readFrom e (addr.writeTo e (Buffer.fill os.storageSize 0)).1
        (addr.writeTo e (Buffer.fill os.storageSize 0)).2 = some addr.canonical) ∧
    (∀ (path : List UInt8) (p : UnixPath os), UnixPath.new path = .ok p → ∀ len : Nat,
      sunPathOffset + path.length ≤ len → len ≤ os.storageSize →
      readFrom e ((Addr.path p).writeTo e (Buffer.fill os.storageSize 0)).1 len =
        some (.path p)) := by
  constructor
  · intro addr
    cases addr with
    | v4 octets port => exact readFrom_writeTo_v4 e octets port _ _
    | v6 octets port => exact readFrom_writeV6 e octets port 0 _ _
    | v6Scoped octets port scope =>
      have h := readFrom_writeV6 e octets port scope (Buffer.fill os.storageSize 0) sockaddrIn6Size
      -- A scope of zero is read back as none.
      by_cases hs : scope = 0
      · subst hs
        exact h
      · have hcanon : (Addr.v6Scoped octets port scope : Addr os).canonical =
            .v6Scoped octets port scope := by
          unfold canonical
          split
          · rename_i heq
            cases heq
            exact absurd rfl hs
          · rfl
        rw [if_neg hs] at h
        rw [hcanon]
        exact h
    | path p =>
      rw [readFrom_writeTo_path]
      show some (Addr.path (readPath _ p.sockaddrLen)) = some (.path p)
      -- Only a pathname is written with a NUL after it.
      rcases p.sockaddrLen_cases with hlen | ⟨hlen, hne, hnul⟩
      · rw [readPath_writeTo e p (by omega) (.inl hlen)]
      · rw [readPath_writeTo e p (by omega) (.inr ⟨hne, hnul⟩)]
  · intro path p hnew len hlow _
    obtain ⟨henc, hne, hnul, -⟩ := p.new_eq_ok hnew
    have hlen := p.length_encoded
    -- The reported length covers the path, so no byte of it is cut off.
    have hcover : p.len.toNat + 2 ≤ len := by
      rw [henc] at hlen
      have hlow' : 2 + path.length ≤ len := hlow
      omega
    rw [readFrom_writeTo_path, readPath_writeTo e p hcover (.inr (by rw [henc]; exact ⟨hne, hnul⟩))]

/-- The path `/a` on Linux, reported without its terminator and with the whole storage. -/
theorem round_trip_slash_a :
    ∃ p : UnixPath .linux, UnixPath.new [47, 97] = .ok p ∧
      readFrom .little ((Addr.path p).writeTo .little (Buffer.fill 128 0)).1 4 = some (.path p) ∧
      readFrom .little ((Addr.path p).writeTo .little (Buffer.fill 128 0)).1 128 =
        some (.path p) := by
  refine ⟨.ofName .linux [47, 97] (by decide) (by decide) (by decide), rfl, ?_, ?_⟩
  · exact (round_trip .linux .little).2 [47, 97] _ rfl 4 (by decide) (by decide)
  · exact (round_trip .linux .little).2 [47, 97] _ rfl 128 (by decide) (by decide)

end Addr

end Nagoya.Reactor
