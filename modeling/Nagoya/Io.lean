import Mathlib.Data.List.Basic

/-!
# `Nagoya.Io`: the loops that the I/O traits provide

`Read`, `Write` and `Stream` have provided methods that call the required method of the device
again and again. Each is an `async` block, and the machine here is that block: it is suspended at
its `await` of the device, and the answer of the device resumes it up to the next `await` or to
its `return`. A script is the list of the answers, and a run takes them one after the other. After
the return no answer is taken.

A device is given a slice. What it leaves there is its own affair, and a read may write behind
the bytes it counts. It cannot write past the end of the slice, nor count more bytes than the
slice has.

`calls` records what the device was asked and answered. Nothing reads it.
-/

set_option autoImplicit false

namespace Nagoya.Io

/-- `ErrorKind`. -/
inductive ErrorKind where
  | notFound
  | permissionDenied
  | unexpectedEof
  | writeZero
  | interrupted
  | other
  deriving DecidableEq, Repr

/-- `Error`. -/
structure Error where
  kind : ErrorKind
  deriving DecidableEq, Repr

/-- `Error::new`. -/
def Error.new (kind : ErrorKind) : Error := ⟨kind⟩

/-- The test for the errors that a file's loops try again. -/
def Error.interrupted (error : Error) : Bool := error.kind = .interrupted

/-- `StreamError`: the platform's own code, an `i32`. -/
structure StreamError where
  code : Int
  deriving DecidableEq, Repr

/-- `StreamError::INTERRUPTED`. -/
def StreamError.eintr : StreamError := ⟨4⟩

/-- `StreamError::UNEXPECTED_EOF`. -/
def StreamError.unexpectedEof : StreamError := ⟨32⟩

/-- `StreamError::would_block`, under either numbering. -/
def StreamError.wouldBlock (error : StreamError) : Bool := error.code = 11 || error.code = 35

/-- `StreamError::interrupted`. -/
def StreamError.interrupted (error : StreamError) : Bool := error.code = StreamError.eintr.code

variable {ε : Type}

/-- What a device does in one read: what it stores from the start of the slice, and its result. -/
structure Reply (ε : Type) where
  stored : List UInt8
  result : Except ε Nat

/-- A count of a device is at most the length of the slice it was given. -/
def clamp (len : Nat) : Except ε Nat → Except ε Nat
  | .ok n => .ok (min n len)
  | .error error => .error error

/-- One read of a device: the slice as it left it, and its result. -/
structure ReadCall (ε : Type) where
  slice : List UInt8
  result : Except ε Nat

/-- The device answers a read into `slice`. -/
def Reply.read (r : Reply ε) (slice : List UInt8) : ReadCall ε :=
  { slice := r.stored.take slice.length ++ slice.drop r.stored.length
    result := clamp slice.length r.result }

/-- The bytes that a call delivered. -/
def ReadCall.delivered (c : ReadCall ε) : List UInt8 :=
  match c.result with
  | .ok n => c.slice.take n
  | .error _ => []

/-- The bytes that the calls delivered, in order. -/
def delivered (calls : List (ReadCall ε)) : List UInt8 :=
  calls.flatMap ReadCall.delivered

/-! ## `read_exact` -/

/-- `read_exact`, at its `await` or returned. -/
structure ReadExact (ε : Type) where
  buffer : List UInt8
  filled : Nat
  returned : Option (Except ε Unit)
  calls : List (ReadCall ε)

namespace ReadExact

/-- The head of the loop. -/
def loop (s : ReadExact ε) : ReadExact ε :=
  if s.filled < s.buffer.length then s else { s with returned := some (.ok ()) }

/-- The call, up to its first `await`. -/
def start (buffer : List UInt8) : ReadExact ε :=
  loop { buffer, filled := 0, returned := none, calls := [] }

/-- The device answers the read into `&mut buffer[filled..]`. -/
def resume (unexpectedEof : ε) (interrupted : ε → Bool) (s : ReadExact ε) (r : Reply ε) :
    ReadExact ε :=
  match s.returned with
  | some _ => s
  | none =>
    let call := r.read (s.buffer.drop s.filled)
    let s := { s with
      buffer := s.buffer.take s.filled ++ call.slice
      calls := s.calls ++ [call] }
    match call.result with
    | .ok 0 => { s with returned := some (.error unexpectedEof) }
    | .ok n => loop { s with filled := s.filled + n }
    | .error error =>
      if interrupted error then loop s else { s with returned := some (.error error) }

/-- The call on a device that answers with `script`. -/
def run (unexpectedEof : ε) (interrupted : ε → Bool) (buffer : List UInt8)
    (script : List (Reply ε)) : ReadExact ε :=
  script.foldl (resume unexpectedEof interrupted) (start buffer)

end ReadExact

/-- `Read::read_exact`. -/
def Read.readExact : List UInt8 → List (Reply Error) → ReadExact Error :=
  ReadExact.run (.new .unexpectedEof) Error.interrupted

/-- `Stream::read_exact`. -/
def Stream.readExact : List UInt8 → List (Reply StreamError) → ReadExact StreamError :=
  ReadExact.run .unexpectedEof StreamError.interrupted

/-! ## `read_to_end` -/

/-- `CHUNK`. -/
def chunk : Nat := 8192

/-- `read_to_end`, at its `await` or returned. -/
structure ReadToEnd where
  buffer : List UInt8
  start : Nat
  filled : Nat
  returned : Option (Except Error Nat)
  calls : List (ReadCall Error)

namespace ReadToEnd

/-- The head of the loop, up to the `await`: `buffer.resize(filled + CHUNK, 0)`. -/
def loop (s : ReadToEnd) : ReadToEnd :=
  { s with filled := s.buffer.length, buffer := s.buffer ++ List.replicate chunk 0 }

/-- The call, up to its first `await`. -/
def begin (buffer : List UInt8) : ReadToEnd :=
  loop { buffer, start := buffer.length, filled := 0, returned := none, calls := [] }

/-- `Vec::truncate` of the buffer. -/
def truncate (s : ReadToEnd) (len : Nat) : ReadToEnd := { s with buffer := s.buffer.take len }

/-- The device answers the read into `&mut buffer[filled..]`. -/
def resume (s : ReadToEnd) (r : Reply Error) : ReadToEnd :=
  match s.returned with
  | some _ => s
  | none =>
    let call := r.read (s.buffer.drop s.filled)
    let s := { s with
      buffer := s.buffer.take s.filled ++ call.slice
      calls := s.calls ++ [call] }
    match call.result with
    | .ok 0 => { s.truncate s.filled with returned := some (.ok (s.filled - s.start)) }
    | .ok n => loop (s.truncate (s.filled + n))
    | .error error =>
      if error.interrupted then loop (s.truncate s.filled)
      else { s.truncate s.filled with returned := some (.error error) }

end ReadToEnd

/-- `Read::read_to_end`, on a device that answers with `script`. -/
def Read.readToEnd (buffer : List UInt8) (script : List (Reply Error)) : ReadToEnd :=
  script.foldl ReadToEnd.resume (ReadToEnd.begin buffer)

/-! ## `write_all` -/

/-- One write of a device: the slice it was offered, and its result. -/
structure WriteCall (ε : Type) where
  offered : List UInt8
  result : Except ε Nat

/-- The bytes that a call accepted. -/
def WriteCall.accepted (c : WriteCall ε) : List UInt8 :=
  match c.result with
  | .ok n => c.offered.take n
  | .error _ => []

/-- The bytes that the calls accepted, in order. -/
def accepted (calls : List (WriteCall ε)) : List UInt8 :=
  calls.flatMap WriteCall.accepted

/-- `write_all`, at its `await` or returned. -/
structure WriteAll where
  buffer : List UInt8
  written : Nat
  returned : Option (Except Error Unit)
  calls : List (WriteCall Error)

namespace WriteAll

/-- The head of the loop. -/
def loop (s : WriteAll) : WriteAll :=
  if s.written < s.buffer.length then s else { s with returned := some (.ok ()) }

/-- The call, up to its first `await`. -/
def start (buffer : List UInt8) : WriteAll :=
  loop { buffer, written := 0, returned := none, calls := [] }

/-- The device answers the write of `&buffer[written..]`. -/
def resume (s : WriteAll) (answer : Except Error Nat) : WriteAll :=
  match s.returned with
  | some _ => s
  | none =>
    let offered := s.buffer.drop s.written
    let result := clamp offered.length answer
    let s := { s with calls := s.calls ++ [⟨offered, result⟩] }
    match result with
    -- The destination will not accept more, and looping would spin forever.
    | .ok 0 => { s with returned := some (.error (.new .writeZero)) }
    | .ok n => loop { s with written := s.written + n }
    | .error error =>
      if error.interrupted then loop s else { s with returned := some (.error error) }

end WriteAll

/-- `Write::write_all`, on a device that answers with `script`. -/
def Write.writeAll (buffer : List UInt8) (script : List (Except Error Nat)) : WriteAll :=
  script.foldl WriteAll.resume (WriteAll.start buffer)

end Nagoya.Io
