import Cppev.Buffer.Session
import Cppev.Buffer.Terminated
import Cppev.Nio.Move
import Cppev.Nio.Outbox
import Mathlib.Logic.Function.Basic

/-!
# The buffers of a program

A program with streams and with buffers of its own. It calls the operations of `buffer` on all of
them, copies and moves them, and reads and writes with the streams; a stream that is moved is two
moves of buffers. What it reads it uses as C strings.

The positions of a buffer are `int`s. `InInt` says of a call that it can be made within `int`: the
sum `offset_ + len`, and every doubling of `cap_` up to it. A buffer that has been moved from has no
heap block, and nothing but an assignment is possible with it.

* `Inv.step`: whatever a call does, what is behind `offset_` stays zero.
* `cString_iff`: `read_all` leaves a C string, which ends in the block at the first NUL of the bytes
  that are unread or right behind them, if and only if the room for its last chunk is within `int`.
-/

namespace Cppev

/-! ## Programs with buffers -/

/-- There is a heap block. -/
def Buffer.HasBlock (b : Buffer) : Prop := b.buffer ≠ []

instance (b : Buffer) : Decidable b.HasBlock := inferInstanceAs (Decidable (_ ≠ _))

namespace BufferCall

/-- What a call does to its buffer. The size of a string is converted to `int`. -/
def on (b : Buffer) : BufferCall → Buffer
  | .produce ptr len => b.produce ptr len
  | .putString str => b.produce str (toInt str.length)
  | .consume len => b.consume len
  | .getString len remove => (b.getString len remove).2
  | .resize cap => b.resize cap
  | .tiny => b.tiny
  | .clear => b.clear

/-- The length is within the array, and within `size()`. -/
def Within (b : Buffer) : BufferCall → Prop
  | .produce ptr len => len ≤ ptr.length
  | .consume len | .getString len _ => b.Fits len
  | .putString _ | .resize _ | .tiny | .clear => True

instance (b : Buffer) : (c : BufferCall) → Decidable (c.Within b)
  | .produce ptr len => inferInstanceAs (Decidable (len ≤ ptr.length))
  | .consume len | .getString len _ => inferInstanceAs (Decidable (b.Fits len))
  | .putString _ | .resize _ | .tiny | .clear => isTrue trivial

/-- The `int`s that the call computes are `int`s: the end of what is appended, and `cap_`. -/
def InInt (b : Buffer) : BufferCall → Prop
  | .produce _ len => b.InRange len
  | .putString str => b.InRange (toInt str.length)
  | .resize cap => ∀ c ∈ b.capsTaken cap, c ≤ INT_MAX
  | .consume _ | .getString _ _ | .tiny | .clear => True

instance (b : Buffer) : (c : BufferCall) → Decidable (c.InInt b)
  | .produce _ len => inferInstanceAs (Decidable (b.InRange len))
  | .putString str => inferInstanceAs (Decidable (b.InRange (toInt str.length)))
  | .resize cap => inferInstanceAs (Decidable (∀ c ∈ b.capsTaken cap, c ≤ INT_MAX))
  | .consume _ | .getString _ _ | .tiny | .clear => isTrue trivial

end BufferCall

/-- A buffer of a program: one of a stream, or another one. -/
inductive BufferName (ι κ : Type) where
  | rbuffer (i : ι) | wbuffer (i : ι) | other (k : κ)
  deriving DecidableEq, Repr

/-- The streams, and the buffers that the program has of its own. -/
structure Streams (ι κ : Type) where
  streams : ι → Option Nstream
  others : κ → Option Buffer

/-- A call of the program. -/
inductive StreamsLabel (ι κ : Type) where
  /-- `nstream(fd)`. -/
  | openStream (i : ι) (fd : Int)
  /-- `buffer(cap)`. -/
  | construct (k : κ) (cap : Int)
  | call (n : BufferName ι κ) (c : BufferCall)
  /-- `n[pos] = c`. -/
  | put (n : BufferName ι κ) (pos : Int) (c : Byte)
  /-- A construction of `dst` from `src`, or an assignment. -/
  | copy (dst src : BufferName ι κ)
  | move (dst src : BufferName ι κ)
  | readChunk (i : ι) (len : Int) (reads : List ReadResult)
  | readAll (i : ι) (step : Int) (reads : List ReadResult)
  | writeChunk (i : ι) (len : Int) (writes : List WriteResult)
  | writeAll (i : ι) (step : Int) (writes : List WriteResult)

namespace Streams

variable {ι κ : Type}

/-! ### The steps of a program -/

def get (s : Streams ι κ) : BufferName ι κ → Option Buffer
  | .rbuffer i => (s.streams i).map fun str => str.rbuffer
  | .wbuffer i => (s.streams i).map fun str => str.wbuffer
  | .other k => s.others k

/-- The buffer, if it can be used. -/
def block (s : Streams ι κ) (n : BufferName ι κ) : Option Buffer :=
  (s.get n).filter fun b => b.HasBlock

def init : Streams ι κ := ⟨fun _ => none, fun _ => none⟩

/-- The arguments that the calls are meant for. -/
def Admissible (s : Streams ι κ) : StreamsLabel ι κ → Prop
  | .call n c => ∀ b ∈ s.block n, c.Within b
  | .put n pos _ => ∀ b ∈ s.block n, 0 ≤ pos ∧ pos < b.size
  | .readChunk _ len _ | .writeChunk _ len _ => 0 ≤ len
  | .readAll _ step _ | .writeAll _ step _ => 1 ≤ step
  | .openStream _ _ | .construct _ _ | .copy _ _ | .move _ _ => True

instance decidableForallMem {α : Type} (o : Option α) (p : α → Prop) [DecidablePred p] :
    Decidable (∀ x ∈ o, p x) :=
  match o with
  | none => isTrue nofun
  | some a => decidable_of_iff (p a) ⟨fun h => by rintro x ⟨⟩; exact h, fun h => h a rfl⟩

instance (s : Streams ι κ) : (l : StreamsLabel ι κ) → Decidable (s.Admissible l)
  | .call _ _ | .put _ _ _ => inferInstanceAs (Decidable (∀ b ∈ s.block _, _))
  | .readChunk _ len _ | .writeChunk _ len _ => inferInstanceAs (Decidable (0 ≤ len))
  | .readAll _ step _ | .writeAll _ step _ => inferInstanceAs (Decidable (1 ≤ step))
  | .openStream _ _ | .construct _ _ | .copy _ _ | .move _ _ => isTrue trivial

/-- The call stays within `int`. The chunks of a `read_all` make room for `demand step reads` bytes,
one chunk more than the full ones. -/
def InInt (s : Streams ι κ) : StreamsLabel ι κ → Prop
  | .call n c => ∀ b ∈ s.block n, c.InInt b
  | .readChunk i len _ => ∀ b ∈ s.block (.rbuffer i), b.InRange len
  | .readAll i step reads => ∀ b ∈ s.block (.rbuffer i), b.InRange (Nstream.demand step reads)
  | .openStream _ _ | .construct _ _ | .put _ _ _ | .copy _ _ | .move _ _ | .writeChunk _ _ _
  | .writeAll _ _ _ => True

instance (s : Streams ι κ) : (l : StreamsLabel ι κ) → Decidable (s.InInt l)
  | .call _ _ | .readChunk _ _ _ | .readAll _ _ _ => inferInstanceAs (Decidable (∀ b ∈ s.block _, _))
  | .openStream _ _ | .construct _ _ | .put _ _ _ | .copy _ _ | .move _ _ | .writeChunk _ _ _
  | .writeAll _ _ _ => isTrue trivial

section Step

variable [DecidableEq ι] [DecidableEq κ]

def setStream (s : Streams ι κ) (i : ι) (str : Nstream) : Streams ι κ :=
  { s with streams := Function.update s.streams i (some str) }

/-- Nothing happens, if there is no such stream. -/
def set (s : Streams ι κ) (b : Buffer) : BufferName ι κ → Streams ι κ
  | .rbuffer i =>
    match s.streams i with
    | some str => s.setStream i { str with rbuffer := b }
    | none => s
  | .wbuffer i =>
    match s.streams i with
    | some str => s.setStream i { str with wbuffer := b }
    | none => s
  | .other k => { s with others := Function.update s.others k (some b) }

/-- A call of a member function of a stream, which works on the buffer `buf` of it. -/
def perform (s : Streams ι κ) (i : ι) (buf : Nstream → Buffer) (m : StreamM Int)
    (reads : List ReadResult) (writes : List WriteResult) :
    Option (Except Exn Int × Streams ι κ) :=
  match s.streams i with
  | none => none
  | some str =>
    if (buf str).HasBlock then
      let (r, io) := m.exec ⟨str, reads, writes, []⟩
      some (r, s.setStream i io.str)
    else none

def readChunk (s : Streams ι κ) (i : ι) (len : Int) (reads : List ReadResult) :
    Option (Except Exn Int × Streams ι κ) :=
  s.perform i (fun str => str.rbuffer) (Nstream.readChunk len) reads []

def readAll (s : Streams ι κ) (i : ι) (step : Int) (reads : List ReadResult) :
    Option (Except Exn Int × Streams ι κ) :=
  s.perform i (fun str => str.rbuffer) (Nstream.readAll step) reads []

def writeChunk (s : Streams ι κ) (i : ι) (len : Int) (writes : List WriteResult) :
    Option (Except Exn Int × Streams ι κ) :=
  s.perform i (fun str => str.wbuffer) (Nstream.writeChunk len) [] writes

def writeAll (s : Streams ι κ) (i : ι) (step : Int) (writes : List WriteResult) :
    Option (Except Exn Int × Streams ι κ) :=
  s.perform i (fun str => str.wbuffer) (Nstream.writeAll step) [] writes

/-- An exception of a stream is caught, and the program goes on. -/
def step (s : Streams ι κ) : StreamsLabel ι κ → Option (Streams ι κ)
  | .openStream i fd => some (s.setStream i (Nstream.new fd))
  | .construct k cap => (Buffer.new cap).map fun b => s.set b (.other k)
  | .call n c => (s.block n).map fun b => s.set (c.on b) n
  | .put n pos c => (s.block n).map fun b => s.set (b.put pos c) n
  | .copy dst src =>
    if dst = src then some s else (s.block src).map fun b => s.set b.copy dst
  | .move dst src =>
    if dst = src then some s
    else (s.get src).map fun b => (s.set b.move.1 dst).set b.move.2 src
  | .readChunk i len reads => (s.readChunk i len reads).map Prod.snd
  | .readAll i step reads => (s.readAll i step reads).map Prod.snd
  | .writeChunk i len writes => (s.writeChunk i len writes).map Prod.snd
  | .writeAll i step writes => (s.writeAll i step writes).map Prod.snd

end Step

/-! ## What reading and writing keeps

Behind the last byte that was put there, a buffer is zero, up to what has been cleared (`Cleared`).
A `read` writes only where it asks for room, and `resize` clears what it adds. -/

end Streams

namespace Nstream

/-- There are zeroes behind the end of the two buffers, if they have blocks. -/
structure Clean (str : Nstream) : Prop where
  rbuffer : str.rbuffer.HasBlock → str.rbuffer.Cleared
  wbuffer : str.wbuffer.HasBlock → str.wbuffer.Cleared

theorem clean_new (fd : Int) : (Nstream.new fd).Clean :=
  ⟨fun _ => Buffer.terminated_empty.toCleared, fun _ => Buffer.terminated_empty.toCleared⟩

variable {str str' : Nstream} {io : StreamIO}

theorem Clean.read (h : str.Clean)
    (hread : str'.rbuffer.Cleared ∧ str'.wbuffer = str.wbuffer) : str'.Clean :=
  ⟨fun _ => hread.1, fun hblock => hread.2 ▸ h.wbuffer (hread.2 ▸ hblock)⟩

theorem Clean.write (h : str.Clean)
    (hwrite : str'.wbuffer.Cleared ∧ str'.rbuffer = str.rbuffer) : str'.Clean :=
  ⟨fun hblock => hwrite.2 ▸ h.rbuffer (hwrite.2 ▸ hblock), fun _ => hwrite.1⟩

theorem clean_readChunk {len : Int} (hlen : 0 ≤ len) (h : io.str.Clean)
    (hblock : io.str.rbuffer.HasBlock) : ((readChunk len).exec io).2.str.Clean := by
  refine (Prog.wp_always (P := fun io' : StreamIO => io'.str.Clean)).mp ?_
  exact Prog.wp_mono (Buffer.readChunk_wp hlen (h.rbuffer hblock))
    (fun _ _ hread => h.read hread.1) fun _ _ hread => h.read hread

/-- All chunks, by induction on the answers. -/
theorem clean_readAll {step : Int} (hstep : 1 ≤ step) (h : io.str.Clean)
    (hblock : io.str.rbuffer.HasBlock) : ((readAll step).exec io).2.str.Clean := by
  refine (Prog.wp_always (P := fun io' : StreamIO => io'.str.Clean)).mp ?_
  exact Prog.wp_mono (Buffer.readAll_wp hstep (h.rbuffer hblock))
    (fun _ _ hread => h.read ⟨hread.1.toCleared, hread.2⟩) fun _ _ hread => h.read hread

/-- A write takes bytes out, and no more than there are. -/
theorem cleared_writeLoop (script : List WriteResult) (h : str.wbuffer.Cleared) {len : Int}
    (hlen : 0 ≤ len) : (str.writeLoop len script).str.wbuffer.Cleared ∧
      (str.writeLoop len script).str.rbuffer = str.rbuffer := by
  induction script generalizing str len with
  | nil => exact ⟨h, rfl⟩
  | cons r rest ih =>
      have hsize := Buffer.size_nonneg h.wf
      unfold writeLoop
      split
      case isTrue => exact ⟨h, rfl⟩
      case isFalse =>
        cases r with
        | count n =>
            have hskip : (str.wbuffer.skip (min (n : Int) (min len str.wbuffer.size))).Cleared :=
              h.skip (by omega) (by omega)
            have hstr : ({ str with
                wbuffer := str.wbuffer.skip (min (n : Int) (min len str.wbuffer.size)) } :
                Nstream).wbuffer.Cleared := hskip
            exact ih hstr (by omega)
        | err e =>
            cases e with
            | EINTR => exact ih h (by omega)
            | _ => exact ⟨h, rfl⟩

theorem cleared_writeChunk {len : Int} (hlen : 0 ≤ len) (h : io.str.wbuffer.Cleared) :
    ((writeChunk len).exec io).2.str.wbuffer.Cleared ∧
      ((writeChunk len).exec io).2.str.rbuffer = io.str.rbuffer := by
  have hsize := Buffer.size_nonneg h.wf
  obtain ⟨hloop, hrbuffer⟩ := cleared_writeLoop io.writes h (le_min hlen hsize)
  cases hresult : (io.str.writeLoop (min len io.str.wbuffer.size) io.writes).result with
  | error e =>
      rw [exec_writeChunk_error rfl hresult]
      exact ⟨hloop, hrbuffer⟩
  | ok u =>
      rw [exec_writeChunk_ok rfl hresult]
      refine ⟨?_, hrbuffer⟩
      simp only [settled]
      split
      case isTrue => exact hloop.clear
      case isFalse => exact hloop

theorem cleared_writeAllLoop {step : Int} (hstep : 1 ≤ step) (n : Nat) (total : Int)
    (h : io.str.wbuffer.Cleared) :
    ((writeAllLoop step n total).exec io).2.str.wbuffer.Cleared ∧
      ((writeAllLoop step n total).exec io).2.str.rbuffer = io.str.rbuffer := by
  induction n generalizing total io with
  | zero => exact ⟨h, rfl⟩
  | succ n ih =>
      have hchunk := cleared_writeChunk (by omega : 0 ≤ step) h
      simp only [writeAllLoop, Prog.exec_bind]
      rcases hout : (writeChunk step).exec io with ⟨r, io'⟩
      rw [hout] at hchunk
      cases r with
      | error e => exact hchunk
      | ok curr =>
          simp only
          split
          case isTrue => exact hchunk
          case isFalse =>
            rw [← hchunk.2]
            exact ih (total + curr) hchunk.1

theorem clean_writeChunk {len : Int} (hlen : 0 ≤ len) (h : io.str.Clean)
    (hblock : io.str.wbuffer.HasBlock) : ((writeChunk len).exec io).2.str.Clean :=
  h.write (cleared_writeChunk hlen (h.wbuffer hblock))

theorem clean_writeAll {step : Int} (hstep : 1 ≤ step) (h : io.str.Clean)
    (hblock : io.str.wbuffer.HasBlock) : ((writeAll step).exec io).2.str.Clean := by
  unfold writeAll
  rw [Prog.exec_bind_ok (Prog.exec_get io)]
  exact h.write (cleared_writeAllLoop hstep _ 0 (h.wbuffer hblock))

end Nstream

/-! ## What the calls keep

All buffers of a program that can be reached are cleared behind their bytes. -/

namespace Streams

variable {ι κ : Type}

/-- Behind the end of every buffer that has a block, there are zeroes. -/
def Inv (s : Streams ι κ) : Prop := ∀ n b, s.get n = some b → b.HasBlock → b.Cleared

/-! ### The step lemma -/

theorem inv_init : (init : Streams ι κ).Inv := by
  intro n b hb
  cases n <;> cases hb

theorem Inv.of_block {s : Streams ι κ} (hs : s.Inv) {n : BufferName ι κ} {b : Buffer}
    (hb : s.block n = some b) : b.Cleared := by
  obtain ⟨hget, hblock⟩ := Option.filter_eq_some_iff.mp hb
  exact hs n b hget (of_decide_eq_true hblock)

/-- A call within its range. -/
theorem cleared_on {b : Buffer} (h : b.Cleared) {c : BufferCall} (hc : c.Within b) :
    (c.on b).Cleared := by
  cases c with
  | produce ptr len => exact h.produce hc
  | putString str =>
      have hle : toInt str.length ≤ str.length := by
        simp only [toInt, Int.bmod_def]
        omega
      exact h.produce hle
  | consume len => exact h.consume hc
  | getString len remove => exact h.getString hc remove
  | resize cap => exact h.resize cap
  | tiny => exact h.tiny
  | clear => exact h.clear

variable {s t : Streams ι κ} {l : StreamsLabel ι κ}

theorem Inv.stream (hs : s.Inv) {i : ι} {str : Nstream} (hi : s.streams i = some str) :
    str.Clean :=
  ⟨hs (.rbuffer i) str.rbuffer (by simp [get, hi]), hs (.wbuffer i) str.wbuffer (by simp [get, hi])⟩

variable [DecidableEq ι]

theorem get_setStream {i : ι} {str : Nstream} {n : BufferName ι κ} {b : Buffer}
    (h : (s.setStream i str).get n = some b) :
    (n = .rbuffer i ∧ b = str.rbuffer) ∨ (n = .wbuffer i ∧ b = str.wbuffer) ∨
      s.get n = some b := by
  cases n with
  | rbuffer j =>
      by_cases hj : j = i
      · subst hj
        simp only [get, setStream, Function.update_self, Option.map_some, Option.some.injEq] at h
        exact .inl ⟨rfl, h.symm⟩
      · exact .inr (.inr (by simpa [get, setStream, hj] using h))
  | wbuffer j =>
      by_cases hj : j = i
      · subst hj
        simp only [get, setStream, Function.update_self, Option.map_some, Option.some.injEq] at h
        exact .inr (.inl ⟨rfl, h.symm⟩)
      · exact .inr (.inr (by simpa [get, setStream, hj] using h))
  | other k => exact .inr (.inr h)

theorem Inv.setStream (hs : s.Inv) (i : ι) {str : Nstream} (hstr : str.Clean) :
    (s.setStream i str).Inv := by
  intro n b hb
  rcases get_setStream hb with ⟨-, rfl⟩ | ⟨-, rfl⟩ | hb
  · exact hstr.rbuffer
  · exact hstr.wbuffer
  · exact hs n b hb

/-- What a call on a stream is. -/
theorem perform_eq_some {i : ι} {buf : Nstream → Buffer} {m : StreamM Int} {reads : List ReadResult}
    {writes : List WriteResult} {r : Except Exn Int}
    (h : s.perform i buf m reads writes = some (r, t)) :
    ∃ str io', s.streams i = some str ∧ (buf str).HasBlock ∧
      m.exec ⟨str, reads, writes, []⟩ = (r, io') ∧ t = s.setStream i io'.str := by
  unfold perform at h
  split at h
  case h_1 => cases h
  case h_2 str hi =>
    split at h
    case isFalse => cases h
    case isTrue hblock =>
      obtain ⟨rfl, rfl⟩ := Prod.mk.inj (Option.some.inj h)
      exact ⟨str, _, hi, hblock, rfl, rfl⟩

/-- One that keeps the stream clean. -/
theorem Inv.perform (hs : s.Inv) {i : ι} {buf : Nstream → Buffer} {m : StreamM Int}
    {reads : List ReadResult} {writes : List WriteResult}
    (hm : ∀ io : StreamIO, io.str.Clean → (buf io.str).HasBlock → (m.exec io).2.str.Clean)
    (h : (s.perform i buf m reads writes).map Prod.snd = some t) : t.Inv := by
  obtain ⟨⟨r, t⟩, hperform, rfl⟩ := Option.map_eq_some_iff.mp h
  obtain ⟨str, io', hi, hblock, hexec, rfl⟩ := perform_eq_some hperform
  have hclean := hm ⟨str, reads, writes, []⟩ (hs.stream hi) hblock
  rw [hexec] at hclean
  exact hs.setStream i hclean

variable [DecidableEq κ]

theorem Inv.set (hs : s.Inv) {b : Buffer} (hb : b.HasBlock → b.Cleared) (n : BufferName ι κ) :
    (s.set b n).Inv := by
  cases n with
  | rbuffer i =>
      simp only [Streams.set]
      cases hi : s.streams i with
      | none => exact hs
      | some str => exact hs.setStream i ⟨hb, (hs.stream hi).wbuffer⟩
  | wbuffer i =>
      simp only [Streams.set]
      cases hi : s.streams i with
      | none => exact hs
      | some str => exact hs.setStream i ⟨(hs.stream hi).rbuffer, hb⟩
  | other k =>
      intro n c hc
      cases n with
      | rbuffer i => exact hs (.rbuffer i) c hc
      | wbuffer i => exact hs (.wbuffer i) c hc
      | other j =>
          by_cases hj : j = k
          · subst hj
            simp only [Streams.set, get, Function.update_self, Option.some.injEq] at hc
            exact hc ▸ hb
          · exact hs (.other j) c (by simpa [Streams.set, get, hj] using hc)

/-- The step lemma, by the calls of a program. -/
theorem Inv.step (hs : s.Inv) (hl : s.Admissible l) (h : step s l = some t) : t.Inv := by
  cases l with
  | openStream i fd =>
      obtain rfl := Option.some.inj h
      exact hs.setStream i (Nstream.clean_new fd)
  | construct k cap =>
      obtain ⟨b, hb, rfl⟩ := Option.map_eq_some_iff.mp h
      exact hs.set (fun _ => Buffer.cleared_new hb) (.other k)
  | call n c =>
      obtain ⟨b, hb, rfl⟩ := Option.map_eq_some_iff.mp h
      exact hs.set (fun _ => cleared_on (hs.of_block hb) (hl b hb)) n
  | put n pos c =>
      obtain ⟨b, hb, rfl⟩ := Option.map_eq_some_iff.mp h
      exact hs.set (fun _ => (hs.of_block hb).put (hl b hb).2 c) n
  | copy dst src =>
      simp only [Streams.step] at h
      split at h
      case isTrue =>
        obtain rfl := Option.some.inj h
        exact hs
      case isFalse =>
        obtain ⟨b, hb, rfl⟩ := Option.map_eq_some_iff.mp h
        exact hs.set (fun _ => (hs.of_block hb).copy) dst
  | move dst src =>
      simp only [Streams.step] at h
      split at h
      case isTrue =>
        obtain rfl := Option.some.inj h
        exact hs
      case isFalse =>
        obtain ⟨b, hb, rfl⟩ := Option.map_eq_some_iff.mp h
        -- the block changes hands, and `src` has none any more
        exact (hs.set (hs src b hb) dst).set (fun hblock => (hblock rfl).elim) src
  | readChunk i len reads => exact hs.perform (fun _ => Nstream.clean_readChunk hl) h
  | readAll i step reads => exact hs.perform (fun _ => Nstream.clean_readAll hl) h
  | writeChunk i len writes => exact hs.perform (fun _ => Nstream.clean_writeChunk hl) h
  | writeAll i step writes => exact hs.perform (fun _ => Nstream.clean_writeAll hl) h

/-! ## The theorem

The C string is there because the last chunk of `read_all` asks for a byte more than it gets. If the
sum of that request is no `int`, there is nothing to rely on: on a machine on which it wraps around
(`readAllWrapped`) `resize` is asked for less than nothing, and the byte is missing. -/

/-- What `rawbuf()` points to ends in the block: at the first NUL of the unread bytes, or right
behind them if there is none in them. -/
structure IsCString (b : Buffer) : Prop where
  terminated : b.Terminated
  strlen_eq : strlen 0 (b.buffer.drop b.start.toNat) = some (b.unread.idxOf 0)

/-- **When read buffers are C strings.** After every run within `int`, a `read_all` stays within
`int` and leaves a C string when it returns, if and only if the room for its last chunk can be had by
doublings. -/
theorem cString_iff (ls : List (StreamsLabel ι κ)) (s : Streams ι κ)
    (hok : AllSteps step (fun s l => s.Admissible l ∧ s.InInt l) init ls)
    (hrun : run step init ls = some s) (i : ι) (str : Nstream) (hi : s.streams i = some str)
    (hblock : str.rbuffer.HasBlock) {step : Int} (hstep : 1 ≤ step) (reads : List ReadResult) :
    (∃ out, Nstream.readAllInt step ⟨str, reads, [], []⟩ = some out ∧
        s.readAll i step reads = some (out.1, s.setStream i out.2.str) ∧
        ∀ v, out.1 = .ok v → IsCString out.2.str.rbuffer) ↔
      ∃ k : Nat, str.rbuffer.cap * 2 ^ k ≤ INT_MAX ∧
        str.rbuffer.offset + ((deliver reads).bytes.length / step + 1) * step ≤
          str.rbuffer.cap * 2 ^ k := by
  have hs : s.Inv := run_inv Streams.step _ Inv (fun _ _ _ hs hl h => hs.step hl.1 h) inv_init
    hok hrun
  let io : StreamIO := ⟨str, reads, [], []⟩
  have hcleared : io.str.rbuffer.Cleared := (hs.stream hi).rbuffer hblock
  have hwf := hcleared.wf
  have hsome := Nstream.readAllIntLoop_isSome hstep (Nstream.readable io.reads + 1) 0 hwf (by omega)
    (hwf.start_nonneg.trans hwf.start_le)
  refine Iff.trans ?_ hsome
  constructor
  · rintro ⟨out, hout, -⟩
    exact Option.isSome_iff_exists.mpr ⟨out, hout⟩
  · intro hdone
    obtain ⟨out, hout⟩ := Option.isSome_iff_exists.mp hdone
    have hexec : (Nstream.readAll step).exec io = out := Nstream.readAllInt_eq hout
    refine ⟨out, hout, ?_, ?_⟩
    · rw [readAll, perform, hi]
      simp only [if_pos hblock]
      rw [hexec]
    · rintro v hv
      have hret : Nstream.readAllInt step io = some (.ok v, out.2) := by
        rw [← hv]
        exact hout
      have hterminated := Buffer.terminated_readAllInt hstep hcleared hret
      exact ⟨hterminated, hterminated.strlen_rawbuf⟩

/-- A buffer with a byte consumed, which becomes the read buffer of a stream. -/
def movedIn : List (StreamsLabel (Fin 1) (Fin 1)) :=
  let i : Fin 1 := ⟨0, Nat.one_pos⟩
  [.openStream i 5, .construct i 1, .call (.other i) (.produce [97, 98] 2),
    .call (.other i) (.consume 1), .move (.rbuffer i) (.other i), .call (.rbuffer i) .tiny]

/-- A stream that was moved in, with a buffer of one byte. -/
theorem cString_iff_movedIn : ∃ s str, run step init movedIn = some s ∧
    s.streams 0 = some str ∧ str.rbuffer.cap = 2 ∧ str.rbuffer.offset = 1 ∧
      ((∃ out, Nstream.readAllInt 2
            ⟨str, [.bytes [104, 0], .err .EINTR, .bytes [105], .bytes []], [], []⟩ = some out ∧
          s.readAll 0 2 [.bytes [104, 0], .err .EINTR, .bytes [105], .bytes []] =
            some (out.1, s.setStream 0 out.2.str) ∧
          ∀ v, out.1 = .ok v → IsCString out.2.str.rbuffer) ↔
        ∃ k : Nat, str.rbuffer.cap * 2 ^ k ≤ INT_MAX ∧
          str.rbuffer.offset + ((deliver [.bytes [104, 0], .err .EINTR, .bytes [105],
            .bytes []]).bytes.length / 2 + 1) * 2 ≤ str.rbuffer.cap * 2 ^ k) := by
  have hok : AllSteps step (fun s l => s.Admissible l ∧ s.InInt l) init movedIn := by
    decide +kernel
  have hview : ((run step init movedIn).bind fun s => (s.streams 0).map fun str =>
      (str.rbuffer.cap, str.rbuffer.offset, decide str.rbuffer.HasBlock)) =
      some (2, 1, true) := by
    decide +kernel
  obtain ⟨s, hs, hmap⟩ := Option.bind_eq_some_iff.mp hview
  obtain ⟨str, hstr, hfields⟩ := Option.map_eq_some_iff.mp hmap
  obtain ⟨hcap, hrest⟩ := Prod.mk.inj hfields
  obtain ⟨hoffset, hblock⟩ := Prod.mk.inj hrest
  exact ⟨s, str, hs, hstr, hcap, hoffset,
    cString_iff movedIn s hok hs 0 str hstr (of_decide_eq_true hblock) (by decide) _⟩

end Streams

/-! ### A sum that wraps around -/

namespace Nstream

/-- `read_chunk` on a machine on which the sum `offset_ + len` wraps around. -/
def readChunkWrapped (len : Int) : StreamM Int := do
  let io ← get
  let s := { io.str with rbuffer := io.str.rbuffer.resize (toInt (io.str.rbuffer.offset + len)) }
  let originOffset := s.rbuffer.offset
  let (r, s, rest) := s.readLoop len io.reads
  set { io with str := s, reads := rest }
  match r with
  | .ok () => return s.rbuffer.offset - originOffset
  | .error e => throw e

/-- `read_all` in such chunks. -/
def readAllWrapped (step : Int) : Nat → Int → StreamM Int
  | 0, total => return total
  | n + 1, total => do
    let curr ← readChunkWrapped step
    let total := total + curr
    if curr ≠ step then return total
    else readAllWrapped step n total

end Nstream

namespace Streams

/-- A byte that fills the block. -/
def oneByte : List (StreamsLabel (Fin 1) (Fin 1)) :=
  let i : Fin 1 := ⟨0, Nat.one_pos⟩
  [.openStream i 5, .call (.rbuffer i) (.produce [97] 1)]

/-- With the largest `int` as `step`, `offset_ + step` is no `int`. If it wraps around there is no
byte behind `offset_` when `read_all` returns, and no NUL in the block at all. -/
theorem cString_wraps : ∃ s str, run step init oneByte = some s ∧ s.streams 0 = some str ∧
    AllSteps step (fun s l => s.Admissible l ∧ s.InInt l) init oneByte ∧
      Nstream.readAllInt INT_MAX ⟨str, [.err .EAGAIN], [], []⟩ = none ∧
        ∃ str', (Nstream.readAllWrapped INT_MAX 1 0).exec ⟨str, [.err .EAGAIN], [], []⟩ =
            (.ok 0, ⟨str', [], [], []⟩) ∧
          str'.rbuffer.offset = str'.rbuffer.cap ∧ ¬ str'.rbuffer.Terminated ∧
            strlen 0 (str'.rbuffer.buffer.drop str'.rbuffer.start.toNat) = none := by
  have hok : AllSteps step (fun s l => s.Admissible l ∧ s.InInt l) init oneByte := by
    decide +kernel
  let str : Nstream := { Nstream.new 5 with rbuffer := ⟨1, 0, 1, [97]⟩ }
  have hview : ((run step init oneByte).map fun s => s.streams 0) = some (some str) := by
    decide +kernel
  obtain ⟨s, hs, hstr⟩ := Option.map_eq_some_iff.mp hview
  refine ⟨s, str, hs, hstr, hok, ?_, str, ?_, rfl, ?_, by decide⟩
  · have hrange : ¬ str.rbuffer.InRange INT_MAX := by
      rintro ⟨hsum, -⟩
      revert hsum
      decide
    show Nstream.readAllIntLoop INT_MAX (0 + 1) 0 ⟨str, [.err .EAGAIN], [], []⟩ = none
    simp only [Nstream.readAllIntLoop]
    exact if_neg hrange
  · decide +kernel
  · intro hterminated
    exact absurd hterminated.lt_cap (by decide)

end Streams

end Cppev
