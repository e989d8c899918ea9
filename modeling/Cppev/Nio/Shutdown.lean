import Cppev.Lib.Transition
import Cppev.Nio.ReadAll
import Cppev.Nio.WriteAll

/-!
# Shutting down one direction

Two connected stream sockets, the bytes on the way between them, and `shutdown`, `read_all` and
`write_all` of both sides in any order. The kernel does what the manual says: after `SHUT_WR` a write
fails with `EPIPE`, and after `SHUT_RD` nothing more is received. Bytes that arrive all the same reset
the connection, and then calls may fail on both sides and bytes on the way may be lost. Where a
local pair of sockets and TCP differ, the kernel is a parameter (`Transport`).

The cases of the `switch` in `shutdown` do not end with a `break`.

* `Endpoint.shut_shutdown`: every mode shuts down both directions.
* `halfOpen_iff`: the other direction goes on if and only if nothing arrives for a side that has shut
  down the writing, and nothing is written by a side that has shut down the reading.
-/

namespace Cppev

/-! ## The two sockets

Each side has what has arrived and what is on the way to it. Local and TCP sockets differ in what
they do once a direction is shut down, so that is a parameter (`Transport`). -/

inductive ShutMode where
  | shutRd | shutWr | shutRdwr
  deriving DecidableEq, Repr

/-- `SHUT_RD`, `SHUT_WR` and `SHUT_RDWR`. -/
inductive ShutHow where
  | rd | wr | rdwr
  deriving DecidableEq, Repr

inductive Side where
  | left | right
  deriving DecidableEq, Repr

def Side.peer : Side → Side
  | .left => .right
  | .right => .left

/-- Where the manual leaves the kernel free. -/
structure Transport where
  /-- What has been received before `SHUT_RD` can still be read. -/
  keeps : Bool
  /-- A write is refused as soon as the peer has shut down the reading, as on a local pair. Over TCP
  the bytes are accepted, and they reset the connection when they arrive. -/
  atOnce : Bool
  deriving DecidableEq, Repr

/-- One of the two sockets, with what the kernel has for it. -/
structure Endpoint where
  str : Nstream
  /-- Sent by the peer, and still on the way. -/
  flight : List Byte
  /-- Received, and not read yet. -/
  queue : List Byte
  rdShut : Bool
  wrShut : Bool
  closed : Bool
  /-- Bytes have arrived that nobody can read, or have been left unread by `close`: the connection
  is reset from this side. -/
  reset : Bool
  /-- The history: the calls of `shutdown`, what was to be written, what of it the kernel has
  accepted, and whether it has refused any. -/
  calls : List ShutMode
  given : List Byte
  sent : List Byte
  refused : Bool
  deriving DecidableEq, Repr

abbrev SocketPair := Side → Endpoint

inductive SocketPairLabel where
  /-- `put_string` and `write_all`. -/
  | write (x : Side) (str : List Byte) (answers : List WriteResult)
  /-- The next `n` bytes arrive at `x`. -/
  | arrive (x : Side) (n : Nat)
  /-- The bytes on the way to `x` are lost with the connection. -/
  | lose (x : Side)
  /-- `last` is the answer that ends it. -/
  | readAll (x : Side) (answers : List ReadResult) (last : ReadResult)
  | shutdown (x : Side) (howto : ShutMode)
  | close (x : Side)
  deriving DecidableEq, Repr

namespace Endpoint

/-! ### The calls of one side

What the kernel may answer is read off both sides: whether a write is refused, and how a reading
ends. -/

/-- The system call. -/
def sysShutdown (keeps : Bool) (e : Endpoint) : ShutHow → Endpoint
  | .rd => { e with rdShut := true, queue := if keeps = true then e.queue else [] }
  | .wr => { e with wrShut := true }
  | .rdwr =>
    { e with rdShut := true, wrShut := true, queue := if keeps = true then e.queue else [] }

/-- The `switch` of `shutdown`. -/
def shutdownSwitch (keeps : Bool) (e : Endpoint) : ShutMode → Endpoint
  | .shutRd =>
    ((e.sysShutdown keeps .rd).sysShutdown keeps .wr).sysShutdown keeps .rdwr
  | .shutWr => (e.sysShutdown keeps .wr).sysShutdown keeps .rdwr
  | .shutRdwr => e.sysShutdown keeps .rdwr

def shutdown (keeps : Bool) (e : Endpoint) (howto : ShutMode) : Endpoint :=
  { e.shutdownSwitch keeps howto with calls := e.calls ++ [howto] }

/-- The next `n` bytes arrive. Those that nobody can read any more reset the connection. -/
def arrive (e : Endpoint) (n : Nat) : Endpoint :=
  if e.rdShut = true then
    { e with flight := e.flight.drop n, reset := e.reset || decide (n ≠ 0) }
  else { e with flight := e.flight.drop n, queue := e.queue ++ e.flight.take n }

/-- No write of `e` is accepted. -/
def Refuses (k : Transport) (e p : Endpoint) : Prop :=
  e.wrShut = true ∨ (k.atOnce = true ∧ p.rdShut = true)

/-- The connection has been reset, from either side. -/
def Broken (e p : Endpoint) : Prop := e.reset = true ∨ p.reset = true

/-- The last byte from the peer has arrived, or nothing is received any more. -/
def AtEnd (e p : Endpoint) : Prop := e.rdShut = true ∨ (p.wrShut = true ∧ e.flight = [])

instance (k : Transport) (e p : Endpoint) : Decidable (e.Refuses k p) :=
  inferInstanceAs (Decidable (_ ∨ _))

instance (e p : Endpoint) : Decidable (e.Broken p) := inferInstanceAs (Decidable (_ ∨ _))

instance (e p : Endpoint) : Decidable (e.AtEnd p) := inferInstanceAs (Decidable (_ ∨ _))

/-- What `write` answers to `e`, as long as there is something to write. -/
def Answers (k : Transport) (e p : Endpoint) : WriteResult → Prop
  | .count n => 1 ≤ n ∧ ¬ e.Refuses k p
  | .err errno => errno = .EINTR ∨
      ((errno = .EPIPE ∨ errno = .ECONNRESET) ∧ (e.Refuses k p ∨ e.Broken p))

instance (k : Transport) (e p : Endpoint) : (r : WriteResult) → Decidable (e.Answers k p r)
  | .count n => inferInstanceAs (Decidable (1 ≤ n ∧ ¬ e.Refuses k p))
  | .err errno => inferInstanceAs (Decidable (errno = .EINTR ∨
      ((errno = .EPIPE ∨ errno = .ECONNRESET) ∧ (e.Refuses k p ∨ e.Broken p))))

/-- What `read` answers to `e` when there is nothing to read. -/
def Halts (e p : Endpoint) : ReadResult → Prop
  | .bytes bs => bs = [] ∧ e.AtEnd p
  | .err errno => (errno = .EAGAIN ∧ ¬ e.AtEnd p) ∨ (errno = .ECONNRESET ∧ e.Broken p)

instance (e p : Endpoint) : (r : ReadResult) → Decidable (e.Halts p r)
  | .bytes bs => inferInstanceAs (Decidable (bs = [] ∧ e.AtEnd p))
  | .err errno => inferInstanceAs
      (Decidable ((errno = .EAGAIN ∧ ¬ e.AtEnd p) ∨ (errno = .ECONNRESET ∧ e.Broken p)))

/-- The answers to the writes of one `write_all`: after `answers` there is no room, or the write is
refused. -/
def writes (k : Transport) (e p : Endpoint) (answers : List WriteResult) : List WriteResult :=
  answers ++ [if e.Refuses k p then .err .EPIPE else .err .EAGAIN]

/-- `put_string`, and the outcome of `write_all`. -/
def writeAll (e : Endpoint) (str : List Byte) (writes : List WriteResult) : StreamIO :=
  ((Nstream.writeAll bufferIoStep).exec
    ⟨{ e.str with wbuffer := e.str.wbuffer.putString str }, [], writes, []⟩).2

/-- Whether a `write` of it has met `EPIPE` or `ECONNRESET`: from clear flags, it sets one of them. -/
def isRefused (e : Endpoint) (str : List Byte) (writes : List WriteResult) : Bool :=
  let clear : Endpoint := { e with str := { e.str with eop := false, reset := false } }
  let io := clear.writeAll str writes
  io.str.eop || io.str.reset

/-- The outcome of `read_all`. -/
def readAll (e : Endpoint) (answers : List ReadResult) (last : ReadResult) : StreamIO :=
  ((Nstream.readAll bufferIoStep).exec ⟨e.str, answers ++ [last], [], []⟩).2

/-- All calls of `shutdown` so far have been for this mode. -/
def Only (e : Endpoint) (howto : ShutMode) : Prop := e.closed = false ∧ ∀ c ∈ e.calls, c = howto

/-- There has been one. -/
def Half (e : Endpoint) (howto : ShutMode) : Prop := e.Only howto ∧ e.calls ≠ []

instance (e : Endpoint) (howto : ShutMode) : Decidable (e.Only howto) :=
  inferInstanceAs (Decidable (_ ∧ ∀ c ∈ e.calls, c = howto))

instance (e : Endpoint) (howto : ShutMode) : Decidable (e.Half howto) :=
  inferInstanceAs (Decidable (_ ∧ _))

/-- After calls for the writing only, all that the peer has sent is there, or on the way. -/
def Received (e p : Endpoint) : Prop :=
  e.Only .shutWr → p.sent = e.str.rbuffer.unread ++ e.queue ++ e.flight

/-- After calls for the reading only, with a peer that goes on reading, all that was to be written is
sent or waits, and no write has been refused. -/
def Accepted (e p : Endpoint) : Prop :=
  e.Only .shutRd → p.Only .shutWr →
    e.sent ++ e.str.wbuffer.unread = e.given ∧ e.refused = false

instance (e p : Endpoint) : Decidable (e.Received p) := inferInstanceAs (Decidable (_ → _))

instance (e p : Endpoint) : Decidable (e.Accepted p) := inferInstanceAs (Decidable (_ → _ → _))

end Endpoint

namespace SocketPair

/-! ### Runs

A reset, from either side, may cost what is on the way; that is a step of its own (`lose`). -/

/-- The socket of `x`, and the one of its peer. -/
def both (x : Side) (e p : Endpoint) : SocketPair := fun y => if y = x then e else p

def step (k : Transport) (s : SocketPair) : SocketPairLabel → Option SocketPair
  | .write x str answers =>
    let e := s x
    let p := s x.peer
    if e.closed = false ∧ ∀ r ∈ answers, e.Answers k p r then
      let writes := e.writes k p answers
      let io := e.writeAll str writes
      some (both x { e with
        str := io.str, given := e.given ++ str, sent := e.sent ++ io.sent.flatten
        refused := e.refused || e.isRefused str writes }
        { p with flight := p.flight ++ io.sent.flatten })
    else none
  | .arrive x n =>
    let e := s x
    if n ≤ e.flight.length then
      some (both x (e.arrive n) (s x.peer))
    else none
  | .lose x =>
    if (s x).Broken (s x.peer) then some (both x { s x with flight := [] } (s x.peer)) else none
  | .readAll x answers last =>
    let e := s x
    if e.closed = false ∧ (∀ r ∈ answers, r.goesOn ≠ none) ∧ (deliver answers).bytes = e.queue ∧
        e.Halts (s x.peer) last then
      some (both x { e with str := (e.readAll answers last).str, queue := [] } (s x.peer))
    else none
  | .shutdown x howto =>
    if (s x).closed = false then some (both x ((s x).shutdown k.keeps howto) (s x.peer)) else none
  | .close x =>
    let e := s x
    if e.closed = false then
      some (both x { e with
        closed := true, rdShut := true, wrShut := true, queue := []
        reset := e.reset || decide (e.queue ≠ []) } (s x.peer))
    else none

/-- Two sockets that have just been connected. -/
def init (fds : Side → Int) : SocketPair := fun x =>
  { str := Nstream.new (fds x), flight := [], queue := [], rdShut := false, wrShut := false
    closed := false, reset := false, calls := [], given := [], sent := [], refused := false }

/-- After `shut_wr` nothing arrives for the side, and what has arrived before is not given up; after
`shut_rd` it writes nothing. Where a write is refused at once, nothing is written to a side after its
`shut_wr`. -/
def Proper (k : Transport) (s : SocketPair) : SocketPairLabel → Prop
  | .write x str _ => (s x).Only .shutRd → (s x.peer).Only .shutWr →
      ((s x).calls ≠ [] ∨ (k.atOnce = true ∧ (s x.peer).calls ≠ [])) →
      (s x).str.wbuffer.unread = [] ∧ str = []
  | .arrive x n => (s x).Half .shutWr → n = 0
  | .lose x => (s x).Only .shutWr → (s x).flight = []
  | .shutdown x howto => (s x).Only .shutWr → howto = .shutWr → k.keeps = true ∨ (s x).queue = []
  | .readAll .. | .close _ => True

instance (k : Transport) (s : SocketPair) : (l : SocketPairLabel) → Decidable (s.Proper k l)
  | .write x str _ => inferInstanceAs (Decidable ((s x).Only .shutRd → (s x.peer).Only .shutWr →
      ((s x).calls ≠ [] ∨ (k.atOnce = true ∧ (s x.peer).calls ≠ [])) →
      (s x).str.wbuffer.unread = [] ∧ str = []))
  | .arrive x n => inferInstanceAs (Decidable ((s x).Half .shutWr → n = 0))
  | .lose x => inferInstanceAs (Decidable ((s x).Only .shutWr → (s x).flight = []))
  | .shutdown x howto => inferInstanceAs (Decidable ((s x).Only .shutWr → howto = .shutWr →
      k.keeps = true ∨ (s x).queue = []))
  | .readAll .. | .close _ => isTrue trivial

/-- A side that has shut down one direction keeps the other one. -/
def HalfOpen (s : SocketPair) : Prop :=
  ∀ x, (s x).Received (s x.peer) ∧ (s x).Accepted (s x.peer)

end SocketPair

/-! ## The calls

`write_all` is the loop `flush` over the answers (`Nstream.writeAll_spec`), so whether a write is
refused is read off the answers. -/

/-- A flush that meets only errors that refuse, and meets one. -/
theorem flush_refused (step : Nat) {script : List WriteResult} (quota : Nat) {pending : List Byte}
    (hp : pending ≠ [])
    (hscript : ∀ r ∈ script, r = .err .EINTR ∨ r = .err .EPIPE ∨ r = .err .ECONNRESET)
    (hlast : .err .EPIPE ∈ script) :
    (flush step quota pending script).stop = .broken ∨
      (flush step quota pending script).stop = .reset := by
  induction script with
  | nil => cases hlast
  | cons r rest ih =>
      rcases hscript r List.mem_cons_self with rfl | rfl | rfl
      · simp only [flush, if_neg hp]
        exact ih (fun r hr => hscript r (List.mem_cons_of_mem _ hr)) (by simpa using hlast)
      · exact .inl (by simp [flush, hp, Stop.ofErrno])
      · exact .inr (by simp [flush, hp, Stop.ofErrno])

namespace Endpoint

variable {e p : Endpoint} {k : Transport} {keeps : Bool} {howto : ShutMode} {str : List Byte}
  {answers writes : List WriteResult}

/-- What is always so of one side. -/
structure Inv (e : Endpoint) : Prop where
  rwf : e.str.rbuffer.Wf
  wwf : e.str.wbuffer.Wf
  conserved : e.sent ++ e.str.wbuffer.unread = e.given
  shut : e.calls ≠ [] → e.rdShut = true ∧ e.wrShut = true
  notShut : e.closed = false → e.calls = [] → e.rdShut = false ∧ e.wrShut = false
  /-- Only a side that does not read any more resets the connection. -/
  reset : e.reset = true → e.rdShut = true

/-- What the peer `p` has sent and `e` has, or will have. -/
def there (e : Endpoint) : List Byte := e.str.rbuffer.unread ++ e.queue ++ e.flight

/-- A side has at most as much as its peer has sent, and less when it has reset the connection. -/
structure Books (e p : Endpoint) : Prop where
  atMost : e.there.length ≤ p.sent.length
  reset : e.reset = true → e.there.length < p.sent.length

/-- So a side that has lost nothing has not reset the connection. -/
theorem Books.not_reset (h : e.Books p) (hreceived : e.Received p) (honly : e.Only .shutWr) :
    e.reset = false := by
  cases hreset : e.reset with
  | false => rfl
  | true =>
      have hlt := h.reset hreset
      rw [hreceived honly] at hlt
      exact absurd hlt (Nat.lt_irrefl _)

/-- **All modes.** A case that does not end goes on with the next one. -/
theorem shut_shutdown (keeps : Bool) (e : Endpoint) (howto : ShutMode) :
    e.shutdown keeps howto = { e with
      rdShut := true, wrShut := true, queue := if keeps = true then e.queue else []
      calls := e.calls ++ [howto] } := by
  cases howto <;> cases keeps <;> rfl

/-- What `write_all` does to the bytes to be sent. -/
structure Wrote (e : Endpoint) (str : List Byte) (io : StreamIO) : Prop where
  wwf : io.str.wbuffer.Wf
  rbuffer : io.str.rbuffer = e.str.rbuffer
  bytes : io.sent.flatten ++ io.str.wbuffer.unread = e.str.wbuffer.unread ++ str

/-! ### Reading and writing

`write_all` and `read_all`, by the rules for queues and deliveries. -/

/-- `write_all`, as a flush of what waits and what is put behind it. -/
theorem writeAll_flush (hwf : e.str.wbuffer.Wf) (str : List Byte) (writes : List WriteResult) :
    let f := flush 1024 1024 (e.str.wbuffer.unread ++ str) writes
    e.Wrote str (e.writeAll str writes) ∧
      (e.writeAll str writes).str.eop = (e.str.eop || decide (f.stop = .broken)) ∧
      (e.writeAll str writes).str.reset = (e.str.reset || decide (f.stop = .reset)) := by
  intro f
  let io : StreamIO := ⟨{ e.str with wbuffer := e.str.wbuffer.putString str }, [], writes, []⟩
  have hput : io.str.wbuffer.Wf := Buffer.wf_putString hwf str
  have hunread : io.str.wbuffer.unread = e.str.wbuffer.unread ++ str :=
    Buffer.unread_putString hwf str
  obtain ⟨b, hb, hbu, hexec⟩ := Nstream.writeAll_spec (show 1 ≤ 1024 by decide) hput
  have hwrite : e.writeAll str writes = ((Nstream.writeAll (1024 : Nat)).exec io).2 := rfl
  rw [hunread] at hbu hexec
  rw [hwrite, hexec]
  refine ⟨⟨hb, rfl, ?_⟩, rfl, rfl⟩
  show ([] ++ f.sent).flatten ++ b.unread = _
  rw [List.nil_append, hbu, flush_flow]

theorem isRefused_eq (hwf : e.str.wbuffer.Wf) (str : List Byte) (writes : List WriteResult) :
    e.isRefused str writes =
      (decide ((flush 1024 1024 (e.str.wbuffer.unread ++ str) writes).stop = .broken) ||
        decide ((flush 1024 1024 (e.str.wbuffer.unread ++ str) writes).stop = .reset)) := by
  let clear : Endpoint := { e with str := { e.str with eop := false, reset := false } }
  obtain ⟨-, heop, hreset⟩ := writeAll_flush (e := clear) hwf str writes
  show ((clear.writeAll str writes).str.eop || (clear.writeAll str writes).str.reset) = _
  rw [heop, hreset, Bool.false_or, Bool.false_or]

/-- A side whose writes may be accepted, on a connection that has not been reset. -/
theorem not_isRefused (hwf : e.str.wbuffer.Wf) (hopen : ¬ e.Refuses k p) (hwhole : ¬ e.Broken p)
    (hanswers : ∀ r ∈ answers, e.Answers k p r) :
    e.isRefused str (e.writes k p answers) = false := by
  have hno : ∀ errno, .err errno ∈ e.writes k p answers → errno ≠ .EINTR → errno = .EAGAIN := by
    intro errno hmem hne
    rcases List.mem_append.mp hmem with hmem | hmem
    · exact ((hanswers _ hmem).resolve_left hne).2.elim (absurd · hopen) (absurd · hwhole)
    · simpa [hopen] using hmem
  rw [isRefused_eq hwf, Bool.or_eq_false_iff, decide_eq_false_iff_not, decide_eq_false_iff_not]
  rcases flush_stop 1024 1024 (e.str.wbuffer.unread ++ str) (e.writes k p answers) with
    h | h | ⟨errno, hmem, hne, h⟩
  · simp [h]
  · simp [h]
  · rw [h, hno errno hmem hne]
    simp [Stop.ofErrno]

/-- A side whose writes are not: any byte at all is refused. -/
theorem isRefused_of_refuses (hwf : e.str.wbuffer.Wf) (hshut : e.Refuses k p)
    (hanswers : ∀ r ∈ answers, e.Answers k p r) :
    e.isRefused str (e.writes k p answers) = decide (e.str.wbuffer.unread ++ str ≠ []) := by
  rw [isRefused_eq hwf]
  by_cases hnil : e.str.wbuffer.unread ++ str = []
  · simp [hnil]
  have hscript : ∀ r ∈ e.writes k p answers,
      r = .err .EINTR ∨ r = .err .EPIPE ∨ r = .err .ECONNRESET := by
    intro r hr
    rcases List.mem_append.mp hr with hr | hr
    · cases r with
      | count n => exact absurd hshut (hanswers _ hr).2
      | err errno =>
          rcases hanswers _ hr with rfl | ⟨rfl | rfl, -⟩
          · exact .inl rfl
          · exact .inr (.inl rfl)
          · exact .inr (.inr rfl)
    · rw [if_pos hshut, List.mem_singleton] at hr
      exact .inr (.inl hr)
  have hlast : .err .EPIPE ∈ e.writes k p answers :=
    List.mem_append_right _ (by rw [if_pos hshut]; exact List.mem_singleton_self _)
  rcases flush_refused 1024 1024 hnil hscript hlast with h | h
  · simp [h, hnil]
  · simp [h, hnil]

/-- `read_all` takes what has been received. -/
theorem readAll_spec (hwf : e.str.rbuffer.Wf) {answers : List ReadResult} {last : ReadResult}
    (hanswers : ∀ r ∈ answers, r.goesOn ≠ none) (hlast : last.goesOn = none) :
    (e.readAll answers last).str.rbuffer.Wf ∧
      (e.readAll answers last).str.rbuffer.unread =
        e.str.rbuffer.unread ++ (deliver answers).bytes ∧
      (e.readAll answers last).str.wbuffer = e.str.wbuffer := by
  let io : StreamIO := ⟨e.str, answers ++ [last], [], []⟩
  obtain ⟨b, hb, hexec⟩ := Nstream.readAll_spec one_le_bufferIoStep io
  have hbytes : (deliver io.reads).bytes = (deliver answers).bytes := by
    rw [deliver_last hanswers hlast]
  have hread : e.readAll answers last = ((Nstream.readAll bufferIoStep).exec io).2 := rfl
  obtain ⟨hrwf, hunread⟩ := hb hwf
  rw [hread, hexec]
  exact ⟨hrwf, by rw [← hbytes]; exact hunread, rfl⟩

theorem Halts.goesOn {last : ReadResult} (h : e.Halts p last) : last.goesOn = none := by
  cases last with
  | bytes bs =>
      obtain ⟨rfl, -⟩ := h
      rfl
  | err errno => rcases h with ⟨rfl, -⟩ | ⟨rfl, -⟩ <;> rfl

end Endpoint

/-! ## The steps

Each step of `x` changes the socket of `x`, and what is on the way to its peer. -/

namespace SocketPair

variable {s s' : SocketPair} {k : Transport} {l : SocketPairLabel} {x : Side} {e p : Endpoint}

@[simp] theorem both_self (x : Side) (e p : Endpoint) : both x e p x = e := if_pos rfl

@[simp] theorem both_peer (x : Side) (e p : Endpoint) : both x e p x.peer = p := by
  cases x <;> rfl

/-! ### Both sides at once -/

theorem peer_peer (x : Side) : x.peer.peer = x := by cases x <;> rfl

theorem forall_side (x : Side) {P : Side → Prop} : (∀ y, P y) ↔ P x ∧ P x.peer := by
  constructor
  · exact fun h => ⟨h x, h x.peer⟩
  · rintro ⟨hx, hpeer⟩ y
    cases x <;> cases y <;> assumption

/-- The two sides of a step of `x`. -/
theorem halfOpen_both (x : Side) (e p : Endpoint) :
    HalfOpen (both x e p) ↔ (e.Received p ∧ e.Accepted p) ∧ p.Received e ∧ p.Accepted e := by
  unfold HalfOpen
  rw [forall_side x, both_self, both_peer, peer_peer, both_self]

theorem HalfOpen.split (h : s.HalfOpen) (x : Side) :
    ((s x).Received (s x.peer) ∧ (s x).Accepted (s x.peer)) ∧
      (s x.peer).Received (s x) ∧ (s x.peer).Accepted (s x) := by
  refine ⟨h x, ?_⟩
  have hpeer := h x.peer
  rwa [peer_peer] at hpeer

def Inv (s : SocketPair) : Prop := ∀ x, (s x).Inv ∧ (s x).Books (s x.peer)

theorem Inv.books_peer (h : s.Inv) (x : Side) : (s x.peer).Books (s x) := by
  have hpeer := (h x.peer).2
  rwa [peer_peer] at hpeer

theorem inv_both (he : e.Inv) (hbooks : e.Books p) (hp : p.Inv) (hbooks' : p.Books e) (x : Side) :
    Inv (both x e p) := by
  unfold Inv
  rw [forall_side x, both_self, both_peer, peer_peer, both_self]
  exact ⟨⟨he, hbooks⟩, hp, hbooks'⟩

/-- While `x` may write and its peer reads, the connection has not been reset. -/
theorem HalfOpen.not_broken (h : s.HalfOpen) (hs : s.Inv) (honly : (s x).Only .shutRd)
    (hcalls : (s x).calls = []) (hpeer : (s x.peer).Only .shutWr) :
    ¬ (s x).Broken (s x.peer) := by
  have hreset := (hs.books_peer x).not_reset (h.split x).2.1 hpeer
  rintro (hbroken | hbroken)
  · have hrd := ((hs x).1.notShut honly.1 hcalls).1
    exact absurd ((hs x).1.reset hbroken) (by simp [hrd])
  · exact absurd hbroken (by simp [hreset])

/-- `shutdown` shuts down both directions, so the kernel refuses what `Proper` speaks of. -/
theorem refuses_iff (hs : s.Inv) (hopen : (s x).closed = false)
    (hpeer : (s x.peer).closed = false) :
    (s x).Refuses k (s x.peer) ↔
      (s x).calls ≠ [] ∨ (k.atOnce = true ∧ (s x.peer).calls ≠ []) := by
  have hwr : (s x).wrShut = true ↔ (s x).calls ≠ [] := by
    refine ⟨fun hwr hnil => ?_, fun hne => ((hs x).1.shut hne).2⟩
    simp [((hs x).1.notShut hopen hnil).2] at hwr
  have hrd : (s x.peer).rdShut = true ↔ (s x.peer).calls ≠ [] := by
    refine ⟨fun hrd hnil => ?_, fun hne => ((hs x.peer).1.shut hne).1⟩
    simp [((hs x.peer).1.notShut hpeer hnil).1] at hrd
  unfold Endpoint.Refuses
  rw [hwr, hrd]

/-! ### One label at a time

Each of them keeps the books, and says when the directions that have not been shut down go on. -/

theorem HalfOpen.write (h : s.HalfOpen) (hs : s.Inv) {str : List Byte} {answers : List WriteResult}
    (hopen : (s x).closed = false) (hanswers : ∀ r ∈ answers, (s x).Answers k (s x.peer) r) :
    let writes := (s x).writes k (s x.peer) answers
    let io := (s x).writeAll str writes
    let s' := both x { s x with
      str := io.str, given := (s x).given ++ str, sent := (s x).sent ++ io.sent.flatten
      refused := (s x).refused || (s x).isRefused str writes }
      { s x.peer with flight := (s x.peer).flight ++ io.sent.flatten }
    s'.Inv ∧ (s.Proper k (.write x str answers) ↔ s'.HalfOpen) := by
  intro writes io s'
  obtain ⟨⟨hreceived, haccepted⟩, hreceived', haccepted'⟩ := h.split x
  obtain ⟨hx, hbooks⟩ := hs x
  have hpeer := (hs x.peer).1
  have hbooks' := hs.books_peer x
  obtain ⟨hwrote, -⟩ := Endpoint.writeAll_flush hx.wwf str writes
  -- what is written comes from `wbuffer`, and nothing is lost there
  have hconserved : ((s x).sent ++ io.sent.flatten) ++ io.str.wbuffer.unread =
      (s x).given ++ str := by
    rw [List.append_assoc, hwrote.bytes, ← List.append_assoc, hx.conserved]
  have hthere : Endpoint.there { s x.peer with flight := (s x.peer).flight ++ io.sent.flatten } =
      (s x.peer).there ++ io.sent.flatten := (List.append_assoc _ _ _).symm
  refine ⟨inv_both ?_ ?_ ?_ ?_ x, ?_⟩
  · exact ⟨hwrote.rbuffer ▸ hx.rwf, hwrote.wwf, hconserved, hx.shut, hx.notShut, hx.reset⟩
  · have hsame : Endpoint.there { s x with
        str := io.str, given := (s x).given ++ str, sent := (s x).sent ++ io.sent.flatten
        refused := (s x).refused || (s x).isRefused str writes } = (s x).there :=
      congrArg (fun b : Buffer => b.unread ++ (s x).queue ++ (s x).flight) hwrote.rbuffer
    exact ⟨hsame ▸ hbooks.atMost, fun hreset => hsame ▸ hbooks.reset hreset⟩
  · exact ⟨hpeer.rwf, hpeer.wwf, hpeer.conserved, hpeer.shut, hpeer.notShut, hpeer.reset⟩
  · constructor
    · rw [hthere, List.length_append, List.length_append]
      exact Nat.add_le_add_right hbooks'.atMost _
    · intro hreset
      rw [hthere, List.length_append, List.length_append]
      exact Nat.add_lt_add_right (hbooks'.reset hreset) _
  rw [halfOpen_both]
  constructor
  · intro hproper
    refine ⟨⟨?_, ?_⟩, ?_, haccepted'⟩
    · intro honly
      rw [hwrote.rbuffer]
      exact hreceived honly
    · intro honly honly'
      refine ⟨hconserved, ?_⟩
      obtain ⟨-, hrefused⟩ := haccepted honly honly'
      show ((s x).refused || (s x).isRefused str writes) = false
      rw [hrefused, Bool.false_or]
      -- a write that would be refused is one of nothing, and none has been refused before
      by_cases hrefuses : (s x).Refuses k (s x.peer)
      · obtain ⟨hunread, hstr⟩ :=
          hproper honly honly' ((refuses_iff hs hopen honly'.1).mp hrefuses)
        rw [Endpoint.isRefused_of_refuses hx.wwf hrefuses hanswers]
        simp [hunread, hstr]
      · have hcalls : (s x).calls = [] := by
          by_contra hne
          exact hrefuses (.inl (hx.shut hne).2)
        exact Endpoint.not_isRefused hx.wwf hrefuses (h.not_broken hs honly hcalls honly') hanswers
    · intro honly
      show (s x).sent ++ _ = _ ++ _ ++ ((s x.peer).flight ++ _)
      rw [hreceived' honly]
      simp only [List.append_assoc]
  · -- a write of something that is refused would be on record
    rintro ⟨⟨-, haccepted''⟩, -⟩ honly honly' hcalls
    obtain ⟨-, hnow⟩ := haccepted'' honly honly'
    have hrefused : (s x).isRefused str writes = false := (Bool.or_eq_false_iff.mp hnow).2
    rw [Endpoint.isRefused_of_refuses hx.wwf ((refuses_iff hs hopen honly'.1).mpr hcalls) hanswers]
      at hrefused
    simpa using hrefused

/-- Bytes arrive for a side that does not read any more. They are lost, unless there are none, and
so the books go down by them. -/
theorem HalfOpen.arrive_shut (h : s.HalfOpen) (hs : s.Inv) {n : Nat}
    (hn : n ≤ (s x).flight.length) (hrd : (s x).rdShut = true) :
    let s' := both x ((s x).arrive n) (s x.peer)
    s'.Inv ∧ (s.Proper k (.arrive x n) ↔ s'.HalfOpen) := by
  intro s'
  obtain ⟨⟨hreceived, haccepted⟩, hreceived', haccepted'⟩ := h.split x
  obtain ⟨hx, hbooks⟩ := hs x
  have hbooks' := hs.books_peer x
  have harrive : (s x).arrive n = { s x with
      flight := (s x).flight.drop n, reset := (s x).reset || decide (n ≠ 0) } := by
    simp [Endpoint.arrive, hrd]
  -- the bytes go from the way to nowhere
  have hlen : ((s x).arrive n).there.length + n = (s x).there.length := by
    rw [harrive]
    simp only [Endpoint.there, List.length_append, List.length_drop]
    omega
  have hatMost := hbooks.atMost
  have hcalls : (s x).Only .shutWr → (s x).calls ≠ [] := by
    intro honly hnil
    simp [(hx.notShut honly.1 hnil).1] at hrd
  rw [halfOpen_both]
  refine ⟨inv_both ?_ ?_ (hs x.peer).1 ?_ x, ?_⟩
  · rw [harrive]
    exact ⟨hx.rwf, hx.wwf, hx.conserved, hx.shut, hx.notShut, fun _ => hrd⟩
  · refine ⟨by omega, fun hreset => ?_⟩
    rw [harrive] at hreset
    rcases Bool.or_eq_true_iff.mp hreset with hreset | hne
    · have hlt := hbooks.reset hreset
      omega
    · have hne := of_decide_eq_true hne
      omega
  · rw [harrive]
    exact ⟨hbooks'.atMost, hbooks'.reset⟩
  rw [harrive]
  constructor
  · intro hproper
    refine ⟨⟨fun honly => ?_, haccepted⟩, hreceived', haccepted'⟩
    obtain rfl : n = 0 := hproper ⟨honly, hcalls honly⟩
    exact hreceived honly
  · rintro ⟨⟨hreceived'', -⟩, -⟩ ⟨honly, -⟩
    have hnow := (hreceived honly).symm.trans (hreceived'' honly)
    have hdrop := congrArg List.length (List.append_cancel_left hnow)
    rw [List.length_drop] at hdrop
    omega

/-- Bytes arrive that can be read. -/
theorem HalfOpen.arrive_open (h : s.HalfOpen) (hs : s.Inv) (n : Nat) (hrd : (s x).rdShut = false) :
    let s' := both x ((s x).arrive n) (s x.peer)
    s'.Inv ∧ (s.Proper k (.arrive x n) ↔ s'.HalfOpen) := by
  intro s'
  obtain ⟨⟨hreceived, haccepted⟩, hreceived', haccepted'⟩ := h.split x
  obtain ⟨hx, hbooks⟩ := hs x
  have hbooks' := hs.books_peer x
  have harrive : (s x).arrive n = { s x with
      flight := (s x).flight.drop n, queue := (s x).queue ++ (s x).flight.take n } := by
    simp [Endpoint.arrive, hrd]
  have hthere : ((s x).arrive n).there = (s x).there := by
    rw [harrive]
    simp [Endpoint.there, List.take_append_drop]
  have hreset : ((s x).arrive n).reset = (s x).reset := by rw [harrive]
  rw [halfOpen_both]
  refine ⟨inv_both ?_ ?_ (hs x.peer).1 ?_ x, iff_of_true ?_ ⟨⟨fun honly => ?_, ?_⟩, ?_, ?_⟩⟩
  · rw [harrive]
    exact ⟨hx.rwf, hx.wwf, hx.conserved, hx.shut, hx.notShut, hx.reset⟩
  · exact ⟨hthere ▸ hbooks.atMost, fun h => hthere ▸ hbooks.reset (hreset ▸ h)⟩
  · rw [harrive]
    exact ⟨hbooks'.atMost, hbooks'.reset⟩
  · rintro ⟨-, hcalls⟩
    simp [(hx.shut hcalls).1] at hrd
  · rw [harrive] at honly
    exact (hreceived honly).trans hthere.symm
  · rw [harrive]
    exact haccepted
  · rw [harrive]
    exact hreceived'
  · rw [harrive]
    exact haccepted'

theorem HalfOpen.arrive (h : s.HalfOpen) (hs : s.Inv) {n : Nat} (hn : n ≤ (s x).flight.length) :
    let s' := both x ((s x).arrive n) (s x.peer)
    s'.Inv ∧ (s.Proper k (.arrive x n) ↔ s'.HalfOpen) := by
  cases hrd : (s x).rdShut with
  | true => exact h.arrive_shut hs hn hrd
  | false => exact h.arrive_open hs n hrd

/-- What is lost on the way was to be delivered, unless the side asks for nothing. -/
theorem HalfOpen.lose (h : s.HalfOpen) (hs : s.Inv) (x : Side) :
    let s' := both x { s x with flight := [] } (s x.peer)
    s'.Inv ∧ (s.Proper k (.lose x) ↔ s'.HalfOpen) := by
  intro s'
  obtain ⟨⟨hreceived, haccepted⟩, hreceived', haccepted'⟩ := h.split x
  obtain ⟨hx, hbooks⟩ := hs x
  have hbooks' := hs.books_peer x
  have hle : Endpoint.there { s x with flight := [] } <+: (s x).there := by
    simp [Endpoint.there]
  rw [halfOpen_both]
  refine ⟨inv_both ?_ ?_ (hs x.peer).1 ?_ x, ?_⟩
  · exact ⟨hx.rwf, hx.wwf, hx.conserved, hx.shut, hx.notShut, hx.reset⟩
  · exact ⟨hle.length_le.trans hbooks.atMost,
      fun hreset => hle.length_le.trans_lt (hbooks.reset hreset)⟩
  · exact ⟨hbooks'.atMost, hbooks'.reset⟩
  constructor
  · intro hproper
    refine ⟨⟨fun honly => ?_, haccepted⟩, hreceived', haccepted'⟩
    rw [hreceived honly, hproper honly]
  · rintro ⟨⟨hreceived'', -⟩, -⟩ honly
    exact List.append_cancel_left ((hreceived honly).symm.trans (hreceived'' honly))

theorem HalfOpen.readAll (h : s.HalfOpen) (hs : s.Inv) {answers : List ReadResult}
    {last : ReadResult} (hanswers : ∀ r ∈ answers, r.goesOn ≠ none)
    (hbytes : (deliver answers).bytes = (s x).queue) (hlast : last.goesOn = none) :
    let s' := both x { s x with str := ((s x).readAll answers last).str, queue := [] } (s x.peer)
    s'.Inv ∧ s'.HalfOpen := by
  intro s'
  obtain ⟨⟨hreceived, haccepted⟩, hreceived', haccepted'⟩ := h.split x
  obtain ⟨hx, hbooks⟩ := hs x
  have hbooks' := hs.books_peer x
  obtain ⟨hrwf, hunread, hwbuffer⟩ := Endpoint.readAll_spec hx.rwf hanswers hlast
  have hthere : Endpoint.there { s x with
      str := ((s x).readAll answers last).str, queue := [] } = (s x).there := by
    simp [Endpoint.there, hunread, hbytes]
  rw [halfOpen_both]
  refine ⟨inv_both ?_ ?_ (hs x.peer).1 ?_ x, ?_⟩
  · exact ⟨hrwf, hwbuffer ▸ hx.wwf, by rw [hwbuffer]; exact hx.conserved, hx.shut, hx.notShut,
      hx.reset⟩
  · exact ⟨hthere ▸ hbooks.atMost, fun hreset => hthere ▸ hbooks.reset hreset⟩
  · exact ⟨hbooks'.atMost, hbooks'.reset⟩
  · refine ⟨⟨fun honly => (hreceived honly).trans hthere.symm, fun honly honly' => ?_⟩, hreceived',
      haccepted'⟩
    rw [hwbuffer]
    exact haccepted honly honly'

theorem HalfOpen.shutdown (h : s.HalfOpen) (hs : s.Inv) (hopen : (s x).closed = false)
    (howto : ShutMode) :
    let s' := both x ((s x).shutdown k.keeps howto) (s x.peer)
    s'.Inv ∧ (s.Proper k (.shutdown x howto) ↔ s'.HalfOpen) := by
  intro s'
  obtain ⟨⟨hreceived, haccepted⟩, hreceived', haccepted'⟩ := h.split x
  obtain ⟨hx, hbooks⟩ := hs x
  have hbooks' := hs.books_peer x
  have heq := Endpoint.shut_shutdown k.keeps (s x) howto
  have honly : ∀ howto', ((s x).shutdown k.keeps howto).Only howto' ↔
      (s x).Only howto' ∧ howto = howto' := by
    intro howto'
    rw [heq]
    simp [Endpoint.Only, hopen, or_imp, forall_and]
  have hle : ((s x).shutdown k.keeps howto).there.length ≤ (s x).there.length := by
    rw [heq]
    cases k.keeps <;> simp [Endpoint.there]
  have hreset : ((s x).shutdown k.keeps howto).reset = (s x).reset := by rw [heq]
  refine ⟨inv_both ?_ ?_ (hs x.peer).1 ?_ x, ?_⟩
  · rw [heq]
    exact ⟨hx.rwf, hx.wwf, hx.conserved, fun _ => ⟨rfl, rfl⟩,
      fun _ hnil => absurd hnil (by simp), fun _ => rfl⟩
  · exact ⟨hle.trans hbooks.atMost, fun h => hle.trans_lt (hbooks.reset (hreset ▸ h))⟩
  · rw [heq]
    exact ⟨hbooks'.atMost, hbooks'.reset⟩
  rw [halfOpen_both]
  -- only what is in the queue can be lost by the call itself
  have hcut : ((s x).shutdown k.keeps howto).Received (s x.peer) ↔
      s.Proper k (.shutdown x howto) := by
    refine ⟨fun hnow hbefore hwr => ?_, fun hproper hnow => ?_⟩
    · have hboth := (hreceived hbefore).symm.trans (hnow ((honly .shutWr).mpr ⟨hbefore, hwr⟩))
      rw [heq] at hboth
      simp only [List.append_cancel_left_eq, List.append_cancel_right_eq] at hboth
      cases hkeeps : k.keeps with
      | true => exact .inl rfl
      | false => exact .inr (by simpa [hkeeps] using hboth)
    · obtain ⟨hbefore, hwr⟩ := (honly .shutWr).mp hnow
      rw [heq]
      refine (hreceived hbefore).trans ?_
      rcases hproper hbefore hwr with hkeeps | hnil
      · simp [hkeeps]
      · simp [hnil]
  rw [hcut]
  refine ⟨fun hproper => ⟨⟨hproper, fun hnow hpeer => ?_⟩, ?_, fun hpeer hnow => ?_⟩,
    fun hall => hall.1.1⟩
  · rw [heq]
    exact haccepted ((honly .shutRd).mp hnow).1 hpeer
  · rw [heq]
    exact hreceived'
  · exact haccepted' hpeer ((honly .shutWr).mp hnow).1

theorem HalfOpen.close (h : s.HalfOpen) (hs : s.Inv) (x : Side) :
    let s' := both x { s x with
      closed := true, rdShut := true, wrShut := true, queue := []
      reset := (s x).reset || decide ((s x).queue ≠ []) } (s x.peer)
    s'.Inv ∧ s'.HalfOpen := by
  intro s'
  obtain ⟨-, hreceived', -⟩ := h.split x
  obtain ⟨hx, hbooks⟩ := hs x
  have hbooks' := hs.books_peer x
  rw [halfOpen_both]
  refine ⟨inv_both ?_ ?_ (hs x.peer).1 ?_ x, ?_⟩
  · exact ⟨hx.rwf, hx.wwf, hx.conserved, fun _ => ⟨rfl, rfl⟩, nofun, fun _ => rfl⟩
  · have hatMost := hbooks.atMost
    simp only [Endpoint.there, List.length_append] at hatMost
    constructor
    · simp only [Endpoint.there, List.length_append, List.length_nil]
      omega
    · intro hreset
      simp only [Endpoint.there, List.length_append, List.length_nil]
      rcases Bool.or_eq_true_iff.mp hreset with hreset | hne
      · have hlt := hbooks.reset hreset
        simp only [Endpoint.there, List.length_append] at hlt
        omega
      · have hpos := List.length_pos_of_ne_nil (of_decide_eq_true hne)
        omega
  · exact ⟨hbooks'.atMost, hbooks'.reset⟩
  -- nothing is asked of a side that has closed, nor of a side whose peer has
  refine ⟨⟨?_, ?_⟩, hreceived', ?_⟩
  · rintro ⟨hnow, -⟩
    cases hnow
  · rintro ⟨hnow, -⟩
    cases hnow
  · rintro - ⟨hnow, -⟩
    cases hnow

/-- What a step keeps, and when the other directions go on. -/
theorem HalfOpen.step (h : s.HalfOpen) (hs : s.Inv) (hstep : step k s l = some s') :
    s'.Inv ∧ (s.Proper k l ↔ s'.HalfOpen) := by
  cases l with
  | write x str answers =>
      simp only [SocketPair.step] at hstep
      split at hstep
      case isFalse => cases hstep
      case isTrue hpossible =>
        obtain rfl := Option.some.inj hstep
        exact h.write hs hpossible.1 hpossible.2
  | arrive x n =>
      simp only [SocketPair.step] at hstep
      split at hstep
      case isFalse => cases hstep
      case isTrue hn =>
        obtain rfl := Option.some.inj hstep
        exact h.arrive hs hn
  | lose x =>
      simp only [SocketPair.step] at hstep
      split at hstep
      case isFalse => cases hstep
      case isTrue =>
        obtain rfl := Option.some.inj hstep
        exact h.lose hs x
  | readAll x answers last =>
      simp only [SocketPair.step] at hstep
      split at hstep
      case isFalse => cases hstep
      case isTrue hpossible =>
        obtain rfl := Option.some.inj hstep
        obtain ⟨-, hanswers, hbytes, hlast⟩ := hpossible
        obtain ⟨hinv, hopen⟩ := h.readAll hs hanswers hbytes hlast.goesOn
        exact ⟨hinv, iff_of_true trivial hopen⟩
  | shutdown x howto =>
      simp only [SocketPair.step] at hstep
      split at hstep
      case isFalse => cases hstep
      case isTrue hopen =>
        obtain rfl := Option.some.inj hstep
        exact h.shutdown hs hopen howto
  | close x =>
      simp only [SocketPair.step] at hstep
      split at hstep
      case isFalse => cases hstep
      case isTrue =>
        obtain rfl := Option.some.inj hstep
        obtain ⟨hinv, hopen⟩ := h.close hs x
        exact ⟨hinv, iff_of_true trivial hopen⟩

/-! ## The theorem -/

/-- When all has arrived and has been read, the read buffer has what the peer has sent. -/
theorem HalfOpen.delivered (h : s.HalfOpen) (honly : (s x).Only .shutWr)
    (hflight : (s x).flight = []) (hqueue : (s x).queue = []) :
    (s x).str.rbuffer.unread = (s x.peer).sent := by
  have hreceived := (h x).1 honly
  rw [hflight, hqueue, List.append_nil, List.append_nil] at hreceived
  exact hreceived.symm

theorem inv_init (fds : Side → Int) : (init fds).Inv := fun _ =>
  ⟨⟨Buffer.wf_empty, Buffer.wf_empty, rfl, fun h => absurd rfl h, fun _ _ => ⟨rfl, rfl⟩, nofun⟩,
    Nat.le_refl _, nofun⟩

end SocketPair

end Cppev
