import Cppev.Buffer.Basic
import Cppev.Lib.Wp

/-!
# Nonblocking streams

`nio` and `nstream` of `nio.h`/`nio.cc`: a descriptor with a read and a write buffer, and the
loops that move bytes between the buffers and the kernel.

What the kernel answers is not decided by the program. Each `read` and each `write` takes the next
result of a script; a script that has run out answers `EAGAIN`. All statements are about every
script.
-/

namespace Cppev

/-! ## Errors -/

/-- The `errno` values the code tells apart (`EWOULDBLOCK` is `EAGAIN`), and all others. -/
inductive Errno where
  | EINTR | EAGAIN | ECONNRESET | EPIPE | EBADF | EEXIST | ENOENT
  | other (n : Nat)
  deriving DecidableEq, Repr

/-- What `throw_system_error` and `throw_logic_error` throw. -/
inductive Exn where
  | systemError (what : String) (errno : Errno)
  | logicError (what : String)
  deriving DecidableEq, Repr

/-! ## Objects -/

/-- `class nio`. -/
structure Nio where
  /-- File descriptor. -/
  fd : Int
  /-- Whether closed. -/
  closed : Bool
  /-- Read buffer. -/
  rbuffer : Buffer
  /-- Write buffer. -/
  wbuffer : Buffer
  /-- One nio belongs to one event loop: the name of that loop, once there is one. -/
  evlp : Option Nat
  deriving DecidableEq, Repr

/-- `class nstream`. -/
structure Nstream extends Nio where
  /-- Used by tcp-socket. -/
  reset : Bool
  /-- End Of File: Used by tcp-socket, pipe, fifo, disk-file. -/
  eof : Bool
  /-- Error Of Pipe: Used by tcp-socket, pipe, fifo. -/
  eop : Bool
  deriving DecidableEq, Repr

/-- `nio(int fd)`. -/
def Nio.new (fd : Int) : Nio :=
  { fd, closed := false, rbuffer := Buffer.empty, wbuffer := Buffer.empty, evlp := none }

/-- `nstream(int fd)`. -/
def Nstream.new (fd : Int) : Nstream :=
  { Nio.new fd with reset := false, eof := false, eop := false }

/-! ## The kernel's answers -/

/-- What one `read` answers: bytes (none at all means end of file), or `-1` and an `errno`. -/
inductive ReadResult where
  | bytes (bs : List Byte)
  | err (e : Errno)
  deriving DecidableEq, Repr

/-- What one `write` answers: how many bytes the kernel has room for, or `-1` and an `errno`. -/
inductive WriteResult where
  | count (n : Nat)
  | err (e : Errno)
  deriving DecidableEq, Repr

/-- A stream and the kernel behind its descriptor: the answers to come, and the bytes accepted,
one list for each `write`. -/
structure StreamIO where
  str : Nstream
  reads : List ReadResult
  writes : List WriteResult
  sent : List (List Byte)
  deriving DecidableEq, Repr

abbrev StreamM := Prog Exn StreamIO

/-- `sysconfig::buffer_io_step`, the batch size for IO. -/
def bufferIoStep : Int := 1024

namespace Nstream

/-! ## Reading -/

/-- The loop of `read_chunk`: until `len` bytes are there, or the kernel has none for now. A
result with more bytes than were asked for keeps the rest for the next `read`. -/
def readLoop (s : Nstream) (len : Int) :
    List ReadResult → Except Exn Unit × Nstream × List ReadResult
  | [] => (.ok (), s, [])
  | r :: rest =>
    if len = 0 then (.ok (), s, r :: rest)
    else
      match r with
      | .bytes [] => (.ok (), { s with eof := true }, rest)
      | .bytes bs =>
        if len < bs.length then
          (.ok (), { s with rbuffer := s.rbuffer.store (bs.take len.toNat) },
            .bytes (bs.drop len.toNat) :: rest)
        else readLoop { s with rbuffer := s.rbuffer.store bs } (len - bs.length) rest
      | .err .EINTR => readLoop s len rest
      | .err .EAGAIN => (.ok (), s, rest)
      | .err .ECONNRESET => (.ok (), { s with reset := true }, rest)
      | .err e => (.error (.systemError "read error" e), s, rest)

/-- Read until block or unreadable, at most `len` bytes. Returns the number of bytes that have
been read into `rbuffer`. The sum `offset_ + len` is an `int` in the source and any integer here:
`Buffer.InRange` says when this is the same, and `readAllInt` has no result when it is not. -/
def readChunk (len : Int) : StreamM Int := do
  let io ← get
  let s := { io.str with rbuffer := io.str.rbuffer.resize (io.str.rbuffer.offset + len) }
  let originOffset := s.rbuffer.offset
  let (r, s, rest) := s.readLoop len io.reads
  set { io with str := s, reads := rest }
  match r with
  | .ok () => return s.rbuffer.offset - originOffset
  | .error e => throw e

/-- How many bytes a script of reads can deliver. -/
def readable : List ReadResult → Nat
  | [] => 0
  | .bytes bs :: rest => bs.length + readable rest
  | .err _ :: rest => readable rest

/-- `while (true)` of `read_all`: a chunk that is not full is the last one. The first argument
bounds the number of chunks; each full chunk takes `step` bytes from the kernel. -/
def readAllLoop (step : Int) : Nat → Int → StreamM Int
  | 0, total => return total
  | n + 1, total => do
    let curr ← readChunk step
    let total := total + curr
    if curr ≠ step then return total
    else readAllLoop step n total

/-- Read until block or unreadable, `step` bytes in each loop. -/
def readAll (step : Int) : StreamM Int := do
  let io ← get
  readAllLoop step (readable io.reads + 1) 0

/-! ## Writing -/

/-- What the loop of `write_chunk` leaves: how it ended, the stream, the answers not used, and
what each `write` sent. -/
structure WriteOut where
  result : Except Exn Unit
  str : Nstream
  rest : List WriteResult
  sent : List (List Byte)

/-- The loop of `write_chunk`: until `len` bytes are accepted, or the kernel takes none for now. -/
def writeLoop (s : Nstream) (len : Int) : List WriteResult → WriteOut
  | [] => ⟨.ok (), s, [], []⟩
  | r :: rest =>
    if len = 0 then ⟨.ok (), s, r :: rest, []⟩
    else
      let len := min len s.wbuffer.size
      match r with
      | .count n =>
        let curr := min (n : Int) len
        let accepted := slice s.wbuffer.buffer s.wbuffer.start curr
        let out := writeLoop { s with wbuffer := s.wbuffer.skip curr } (len - curr) rest
        { out with sent := accepted :: out.sent }
      | .err .EINTR => writeLoop s len rest
      | .err .EAGAIN => ⟨.ok (), s, rest, []⟩
      | .err .EPIPE => ⟨.ok (), { s with eop := true }, rest, []⟩
      | .err .ECONNRESET => ⟨.ok (), { s with reset := true }, rest, []⟩
      | .err e => ⟨.error (.systemError "write error" e), s, rest, []⟩

/-- Write until block or unwritable, at most `len` bytes. Returns the number of bytes that have
been written from `wbuffer`. -/
def writeChunk (len : Int) : StreamM Int := do
  let io ← get
  let originStart := io.str.wbuffer.start
  let out := io.str.writeLoop (min len io.str.wbuffer.size) io.writes
  set { io with str := out.str, writes := out.rest, sent := io.sent ++ out.sent }
  match out.result with
  | .error e => throw e
  | .ok () =>
    let currStart := out.str.wbuffer.start
    if out.str.wbuffer.size = 0 then
      modify fun io => { io with str := { io.str with wbuffer := io.str.wbuffer.clear } }
    return currStart - originStart

/-- `while (true)` of `write_all`; each full chunk takes `step` bytes from `wbuffer`. -/
def writeAllLoop (step : Int) : Nat → Int → StreamM Int
  | 0, total => return total
  | n + 1, total => do
    let curr ← writeChunk step
    let total := total + curr
    if curr ≠ step then return total
    else writeAllLoop step n total

/-- Write until block or unwritable, `step` bytes in each loop. -/
def writeAll (step : Int) : StreamM Int := do
  let io ← get
  writeAllLoop step (io.str.wbuffer.size.toNat + 1) 0

end Nstream

end Cppev
