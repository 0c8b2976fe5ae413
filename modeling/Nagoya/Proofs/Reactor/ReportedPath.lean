import Nagoya.Proofs.Reactor.SocketAddr

/-!
# `Nagoya.Proofs.Reactor.ReportedPath`: which of the kernel's names can be used again

`read_from` builds a `UnixPath` from what the kernel reported, and not with `UnixPath::new`. What
`new` guarantees is therefore shown here for `read_from`: the four facts about the array
(`Reusable`), the length that goes with the name, and the way back.

Only the room for the terminator can be missing. A name without a NUL that fills `sun_path` is
kept in full (`length_readPath`), and the length that `write_to` returns for it is one more than
the size of the `sockaddr_un`.
-/

set_option autoImplicit false

namespace Nagoya.Reactor

open Nagoya.Lib

variable {os : Os}

namespace UnixPath

variable (p : UnixPath os)

/-- A filesystem path is a name that is not empty and does not begin with a NUL. -/
theorem asPathBytes_eq_some {path : List UInt8} :
    p.asPathBytes = some path ↔
      p.encoded = path ∧ p.encoded ≠ [] ∧ p.encoded.head? ≠ some 0 := by
  have hlen := p.length_encoded
  by_cases hne : p.encoded = []
  · have hzero : p.len = 0 := UInt8.toNat_inj.mp (by rw [← hlen, hne]; rfl)
    have hnone : p.asPathBytes = none := if_pos (by rw [isUnnamed, hzero]; rfl)
    rw [hnone]
    constructor
    · rintro ⟨⟩
    · exact fun h => absurd hne h.2.1
  · have hpos : 0 < p.len.toNat := by
      rw [← hlen]
      exact List.length_pos_of_ne_nil hne
    have hlt : 0 < p.len := UInt8.lt_iff_toNat_lt.mpr hpos
    have hunnamed : p.isUnnamed = false := by
      rw [isUnnamed, beq_eq_false_iff_ne]
      rintro hzero
      rw [hzero] at hpos
      exact absurd hpos (by decide)
    have habstract : p.isAbstract = (p.encoded.head? == some 0) := by
      rw [isAbstract, ← p.head_encoded hne, decide_eq_true hlt,
        Bool.true_and]
    unfold asPathBytes
    rw [hunnamed, habstract, Bool.false_or]
    split
    · rename_i hhead
      constructor
      · rintro ⟨⟩
      · exact fun h => absurd (beq_iff_eq.mp hhead) h.2.2
    · rename_i hhead
      exact ⟨fun h => ⟨Option.some.inj h, hne, fun he => hhead (beq_iff_eq.mpr he)⟩,
        fun h => congrArg some h.1⟩

/-- A filesystem path has no NUL in it. -/
theorem nul_notMem_path {path : List UInt8} (h : p.asPathBytes = some path) : 0 ∉ path := by
  obtain ⟨rfl, -, hhead⟩ := p.asPathBytes_eq_some.mp h
  exact p.noNul hhead

end UnixPath

namespace Addr

/-- What the constructors of `UnixPath` guarantee: the length is inside the array, the bytes past
it are zero, and a filesystem path has no NUL in it and leaves room for its terminator. With them
the name can be handed to the kernel again, in a `sockaddr_un`, and comes back. -/
structure Reusable (e : Endian) (p : UnixPath os) : Prop where
  fits : p.len.toNat ≤ os.unixPathCapacity
  padded : ∀ i, p.len.toNat ≤ i → i < os.unixPathCapacity → p.bytes.data[i]? = some 0
  noNul : ∀ path, p.asPathBytes = some path → 0 ∉ path
  room : ∀ path, p.asPathBytes = some path → path.length + 1 ≤ os.unixPathCapacity
  written : (writeTo e (.path p) (Buffer.fill os.storageSize 0)).2 ≤ sockaddrUnSize os
  readBack : readFrom e (writeTo e (.path p) (Buffer.fill os.storageSize 0)).1
    (writeTo e (.path p) (Buffer.fill os.storageSize 0)).2 = some (.path p)

/-- Every name that `write_to` is given comes back from zeroed storage. -/
theorem readFrom_writeTo_self (e : Endian) (p : UnixPath os) :
    readFrom e (writeTo e (.path p) (Buffer.fill os.storageSize 0)).1
      (writeTo e (.path p) (Buffer.fill os.storageSize 0)).2 = some (.path p) := by
  rw [readFrom_writeTo_path]
  show some (Addr.path (readPath _ p.sockaddrLen)) = _
  rcases p.sockaddrLen_cases with hlen | ⟨hlen, hne, hnul⟩
  · rw [readPath_writeTo e p (by omega) (.inl hlen)]
  · rw [readPath_writeTo e p (by omega) (.inr ⟨hne, hnul⟩)]

/-- A name is reusable when it leaves room for the terminator that it needs. -/
theorem reusable_iff (e : Endian) (p : UnixPath os) :
    Reusable e p ↔ ∀ path, p.asPathBytes = some path → path.length + 1 ≤ os.unixPathCapacity := by
  refine ⟨Reusable.room, fun hroom => ⟨p.fits, fun i hlo hhi => ?_, fun _ => p.nul_notMem_path,
    hroom, ?_, readFrom_writeTo_self e p⟩⟩
  · have hlen := p.length_encoded
    rw [p.data_eq, List.getElem?_append_right (by omega), List.getElem?_replicate,
      if_pos (by omega)]
  · have hfits := p.fits
    show p.sockaddrLen ≤ 2 + os.unixPathCapacity
    rcases p.sockaddrLen_cases with hlen | ⟨hlen, hne, hnul⟩
    · omega
    · have hpath : p.asPathBytes = some p.encoded :=
        p.asPathBytes_eq_some.mpr ⟨rfl, hne, fun hz => hnul (List.mem_of_mem_head? hz)⟩
      have hle := hroom _ hpath
      rw [p.length_encoded] at hle
      omega

/-- What `read_from` finds in a `sockaddr_un`. -/
theorem readFrom_unix {e : Endian} {storage : Storage os} (h : storage.family e = Os.afUnix)
    (len : Nat) : readFrom e storage len = some (.path (readPath storage len)) := by
  unfold readFrom
  rw [h, if_neg (by decide), if_neg os.afUnix_ne, if_pos rfl]

/-- The name that `read_from` keeps of the bytes that were reported. -/
theorem encoded_readPath (storage : Storage os) (len : Nat) {reported : List UInt8}
    (h : storage.read sunPathOffset (min (len - sunPathOffset) os.unixPathCapacity) = reported) :
    (readPath storage len).encoded = reported.take (UnixPath.nameLen os reported) := by
  subst h
  unfold readPath
  rw [UnixPath.encoded_ofName]

/-- `read_from` finds a filesystem path that fills `sun_path` exactly when the reported length
covers all of `sun_path` and there is no NUL in it. -/
theorem full_readPath (storage : Storage os) (len : Nat) :
    (∃ path, (readPath storage len).asPathBytes = some path ∧
      os.unixPathCapacity < path.length + 1) ↔
        sockaddrUnSize os ≤ len ∧ 0 ∉ storage.read sunPathOffset os.unixPathCapacity := by
  have h104 := os.le_capacity
  have h108 := os.capacity_le_108
  have hsize := os.le_storageSize
  have hun : sockaddrUnSize os = 2 + os.unixPathCapacity := rfl
  have hoff : sunPathOffset = 2 := rfl
  obtain ⟨reported, hread⟩ : ∃ reported,
      storage.read sunPathOffset (min (len - sunPathOffset) os.unixPathCapacity) = reported :=
    ⟨_, rfl⟩
  have henc := encoded_readPath storage len hread
  have hreported : reported.length = min (len - 2) os.unixPathCapacity := by
    rw [← hread, storage.length_read]
    omega
  constructor
  · rintro ⟨path, hpath, hfull⟩
    have hnul := UnixPath.nul_notMem_path _ hpath
    obtain ⟨rfl, -, -⟩ := (UnixPath.asPathBytes_eq_some _).mp hpath
    -- The name is as long as what was reported, so it is what was reported.
    have hle := congrArg List.length henc
    rw [List.length_take, hreported] at hle
    have hall : reported.take (UnixPath.nameLen os reported) = reported :=
      List.take_of_length_le (by omega)
    rw [henc, hall] at hnul
    refine ⟨by omega, ?_⟩
    have hmin : min (len - sunPathOffset) os.unixPathCapacity = os.unixPathCapacity := by omega
    rwa [← hmin, hread]
  · rintro ⟨hlen, hnul⟩
    -- The kernel has reported the whole array.
    have hmin : min (len - sunPathOffset) os.unixPathCapacity = os.unixPathCapacity := by omega
    have hnul' : 0 ∉ reported := by
      rwa [← hread, hmin]
    have hne : reported ≠ [] := by
      apply List.ne_nil_of_length_pos
      omega
    have hhead : reported.head? ≠ some 0 := fun hz => hnul' (List.mem_of_mem_head? hz)
    have hname : UnixPath.nameLen os reported = reported.length := by
      obtain ⟨b, rest, hcons⟩ := List.exists_cons_of_ne_nil hne
      rw [hcons] at hhead hnul' ⊢
      rw [UnixPath.nameLen_cons_of_ne (by simpa using hhead), findIdx_of_notMem hnul']
    rw [hname, List.take_length] at henc
    refine ⟨reported, (UnixPath.asPathBytes_eq_some _).mpr ?_, by omega⟩
    rw [henc]
    exact ⟨rfl, hne, hhead⟩

/-- Which addresses of Unix-domain sockets the kernel may report and the reactor use again. For
every storage of that family and every reported length, `read_from` returns a name, and the name
is `Reusable` exactly when it is not the case that the reported length covers all of `sun_path`
and no byte of `sun_path` is a NUL. -/
theorem readFrom_reusable_iff (os : Os) (e : Endian) (storage : Storage os)
    (h : storage.family e = Os.afUnix) (len : Nat) :
    ∃ p, readFrom e storage len = some (.path p) ∧
      (Reusable e p ↔
        ¬ (sockaddrUnSize os ≤ len ∧ 0 ∉ storage.read sunPathOffset os.unixPathCapacity)) := by
  refine ⟨readPath storage len, readFrom_unix h len, ?_⟩
  rw [reusable_iff, ← full_readPath]
  push Not
  rfl

/-- Zeroed storage with the family of a Unix-domain socket, on a little-endian Linux. -/
def unboundStorage : Storage .linux :=
  Storage.setFamily .little (Buffer.fill 128 0) Os.afUnix

/-- The storage of a peer that is bound to `/tmp/s`. -/
def boundStorage : Storage .linux :=
  unboundStorage.setBytes sunPathOffset [47, 116, 109, 112, 47, 115] (by decide)

/-- A peer that is bound to a path, of which the kernel reports the terminator too. -/
theorem readFrom_reusable_iff_bound :
    ∃ p, readFrom .little boundStorage 9 = some (.path p) ∧ (Reusable .little p ↔
      ¬ (sockaddrUnSize .linux ≤ 9 ∧ 0 ∉ boundStorage.read sunPathOffset 108)) := by
  have hfamily : boundStorage.family .little = Os.afUnix :=
    (Storage.family_setBytes (by decide) (Nat.le_refl 2)).trans
      (Storage.family_setFamily (by decide))
  exact readFrom_reusable_iff .linux .little boundStorage hfamily 9

/-- The storage of a peer whose path is 108 times the letter `a`. -/
def fullStorage : Storage .linux :=
  unboundStorage.setBytes sunPathOffset (List.replicate 108 97) (by decide)

/-- The peer's address is read with its 108 bytes, and the length that `write_to` returns for it
is 111, where a `sockaddr_un` has 110 bytes. -/
theorem readFrom_full_not_reusable :
    fullStorage.family .little = Os.afUnix ∧
      ∃ p, readFrom .little fullStorage 110 = some (.path p) ∧ p.len = 108 ∧
        (writeTo .little (.path p) (Buffer.fill 128 0)).2 = 111 ∧ sockaddrUnSize .linux = 110 ∧
        ¬ Reusable .little p := by
  have hfamily : fullStorage.family .little = Os.afUnix :=
    (Storage.family_setBytes (by decide) (Nat.le_refl 2)).trans
      (Storage.family_setFamily (by decide))
  have hread : fullStorage.read sunPathOffset 108 = List.replicate 108 97 :=
    Buffer.read_write_self _ (by decide) rfl
  refine ⟨hfamily, readPath fullStorage 110, readFrom_unix hfamily 110, ?_, ?_, rfl, ?_⟩
  · decide +kernel
  · decide +kernel
  · rw [reusable_iff]
    intro hroom
    obtain ⟨path, hpath, hfull⟩ := (full_readPath fullStorage 110).mpr
      ⟨Nat.le_refl 110, by rw [show Os.unixPathCapacity .linux = 108 from rfl, hread]; decide⟩
    exact absurd (hroom path hpath) (by omega)

end Addr

end Nagoya.Reactor
