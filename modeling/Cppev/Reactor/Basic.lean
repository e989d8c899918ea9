import Cppev.EventLoop

/-!
# The reactor

The handlers of `tcp.cc` that run in the thread of an `iohandler`, the user's callbacks they call,
and the machine that runs them: one event loop with any number of connections, which other threads
(acceptor and connector) hand over.

A handler is a program over the operations of its connection, `iopt->…` in the source and a
parameter `iopt : Iopt M` here. `World.iopt` are the operations as the code performs them.

A label of the machine decides everything the program does not: which events `epoll_wait` reports,
which queued handler comes next, what the kernel answers to each `read` and `write`, and what the
user's callbacks do.
-/

namespace Cppev

/-! ## Names

What a connection is to the loop, and what is recorded of it. -/

/-- The handlers that are registered with an event loop. -/
inductive IoHandler where
  | onReadable | onWritable | onAcptWritable | onContWritable
  deriving DecidableEq, Repr

/-- The callbacks of `tp_shared_data`. -/
inductive Callback where
  | onAccept | onConnect | onReadComplete | onWriteComplete | onClosed
  deriving DecidableEq, Repr

inductive Family where
  | ipv4 | ipv6 | local
  deriving DecidableEq, Repr

/-- What a connector looks a host up by. -/
abbrev Host := String × Int × Family

/-- Where a connection comes from: the thread that hands it over registers it with
`on_acpt_writable` or with `on_cont_writable`. -/
inductive Origin where
  | accepted (f : Family)
  | connecting (peer : Host)
  deriving DecidableEq, Repr

/-- What is kept of the history of a connection. -/
inductive Event where
  | handedOver (origin : Origin)
  | fdRegister
  | fdRemove
  /-- `EPOLL_CTL_ADD` or `EPOLL_CTL_DEL`, and whether the descriptor was in the epoll set. -/
  | ctlAdd (present : Bool)
  | ctlDel (present : Bool)
  /-- Entries of `fds_` removed, and whether one of them belonged to another connection. -/
  | erased (foreign : Bool)
  /-- `safely_close` has returned. -/
  | closed
  /-- A callback of the user begins, with the table as it is for its descriptor. -/
  | called (cb : Callback) (table : List (IoHandler × FdEvent))
  /-- A callback puts bytes into `wbuffer`; the kernel accepts them. -/
  | appended (bs : List Byte)
  | sent (bs : List Byte)
  /-- `read_all` puts bytes into `rbuffer`, and may meet the end; a callback takes them out. -/
  | received (bs : List Byte) (ended : Bool)
  | consumed (bs : List Byte)
  deriving DecidableEq, Repr

/-! ## The handlers

`tcp.cc`, over the operations `iopt` of a connection. Each handler is written once; `World.iopt` and
`Conn.iopt` are two ways to run it. -/

section Handlers

variable {M : Type → Type} [Monad M]

/-- The operations on a connection, `iopt->…` in the source. -/
structure Iopt (M : Type → Type) where
  readAll : M Unit
  writeAll : M Unit
  wbufferSize : M Int
  wbufferPutString : List Byte → M Unit
  /-- `rbuffer().get_string(-1, false)`. -/
  rbufferString : M (List Byte)
  /-- `rbuffer().get_string(n)`, for at most what there is. -/
  rbufferConsume : Nat → M Unit
  rbufferClear : M Unit
  eof : M Bool
  isReset : M Bool
  eop : M Bool
  isClosed : M Bool
  checkConnect : M Bool
  /-- `failures_[connpeer()] += 1` -/
  countFailure : M Unit
  /-- `evlp().fd_register(iop, ev, handler, activate)`. -/
  fdRegister : FdEvent → Option IoHandler → Bool → M Unit
  /-- `evlp().fd_remove(iop, clean, deactivate)`. -/
  fdRemove : Bool → Bool → M Unit
  close : M Unit
  /-- History only: a callback of the user begins. -/
  called : Callback → M Unit
  /-- Not an operation of the connection: meanwhile another thread hands over a new one. -/
  handOver : ConnId → Int → Origin → M Unit

/-- The callbacks of `tp_shared_data`, applied to the connection. -/
structure TpSharedData (M : Type → Type) where
  onAccept : M Unit
  onConnect : M Unit
  onReadComplete : M Unit
  onWriteComplete : M Unit
  onClosed : M Unit

def asyncWrite (iopt : Iopt M) (onWriteComplete : M Unit) : M Unit := do
  iopt.writeAll
  if (← iopt.wbufferSize) = 0 then onWriteComplete
  else do
    iopt.fdRemove false true
    iopt.fdRegister .fdWritable none true

def safelyClose (iopt : Iopt M) : M Unit := do
  -- epoll will remove fd when it's closed
  iopt.fdRemove true false
  iopt.close

def onReadable (iopt : Iopt M) (dp : TpSharedData M) : M Unit := do
  iopt.readAll
  dp.onReadComplete
  iopt.rbufferClear
  if (← iopt.eof) || (← iopt.isReset) then do
    dp.onClosed
    iopt.fdRemove true true
  else pure ()

/-- The branch of `on_writable` for an empty `wbuffer`. -/
def onDrained (iopt : Iopt M) (dp : TpSharedData M) : M Unit := do
  iopt.fdRemove false true
  dp.onWriteComplete
  if !(← iopt.isClosed) then iopt.fdRegister .fdReadable none true else pure ()

def onWritable (iopt : Iopt M) (dp : TpSharedData M) : M Unit := do
  iopt.writeAll
  let size ← iopt.wbufferSize
  (if size = 0 then onDrained iopt dp else pure ())
  if (← iopt.eop) || (← iopt.isReset) then do
    dp.onClosed
    iopt.fdRemove true true
  else pure ()

def onAcptWritable (iopt : Iopt M) (dp : TpSharedData M) : M Unit := do
  iopt.fdRemove true true
  -- The sequence CANNOT be changed, since on_accept may call async_write
  iopt.fdRegister .fdWritable (some .onWritable) false
  dp.onAccept
  iopt.fdRegister .fdReadable (some .onReadable) true

def onContWritable (iopt : Iopt M) (dp : TpSharedData M) : M Unit := do
  iopt.fdRemove true true
  if !(← iopt.checkConnect) then iopt.countFailure
  else do
    -- The sequence CANNOT be changed since on_connect may call async_write
    iopt.fdRegister .fdWritable (some .onWritable) false
    dp.onConnect
    iopt.fdRegister .fdReadable (some .onReadable) true

def IoHandler.run (iopt : Iopt M) (dp : TpSharedData M) : IoHandler → M Unit
  | .onReadable => Cppev.onReadable iopt dp
  | .onWritable => Cppev.onWritable iopt dp
  | .onAcptWritable => Cppev.onAcptWritable iopt dp
  | .onContWritable => Cppev.onContWritable iopt dp

end Handlers

/-! ## The user's callbacks

A callback is a program of a few operations, which is all that it can do to its connection and to
the loop; `Env` is what the user and the kernel do during one call of a handler. -/

/-- What one call of a callback does to its connection. It may look at `rbuffer` before it decides.
The callback that `async_write` calls on the way is part of it. -/
inductive Cb where
  | done
  | append (bs : List Byte) (next : Cb)
  | inspect (next : List Byte → Cb)
  | consume (n : Nat) (next : Cb)
  | asyncWrite (onWriteComplete next : Cb)
  | safelyClose (next : Cb)
  /-- Meanwhile, another thread hands over a new connection. -/
  | handOver (c : ConnId) (fd : Int) (origin : Origin) (next : Cb)

def Cb.exec {M : Type → Type} [Monad M] (iopt : Iopt M) : Cb → M Unit
  | .done => pure ()
  | .append bs next => do
    iopt.wbufferPutString bs
    next.exec iopt
  | .inspect next => do
    let bs ← iopt.rbufferString
    (next bs).exec iopt
  | .consume n next => do
    iopt.rbufferConsume n
    next.exec iopt
  | .asyncWrite wc next => do
    Cppev.asyncWrite iopt (do
      iopt.called .onWriteComplete
      wc.exec iopt)
    next.exec iopt
  | .safelyClose next => do
    Cppev.safelyClose iopt
    next.exec iopt
  | .handOver c fd origin next => do
    iopt.handOver c fd origin
    next.exec iopt

/-- The answers of the kernel on a connection that are still to come. -/
structure Script where
  reads : List ReadResult
  writes : List WriteResult
  soError : Int
  deriving DecidableEq, Repr

/-- What the outside contributes to the run of a handler: the kernel's answers, and what the user's
callbacks do where a handler calls them itself. -/
structure Env where
  script : Script
  onAccept : Cb
  onConnect : Cb
  onReadComplete : Cb
  onWriteComplete : Cb
  onClosed : Cb

def Env.dp {M : Type → Type} [Monad M] (env : Env) (iopt : Iopt M) : TpSharedData M where
  onAccept := do iopt.called .onAccept; env.onAccept.exec iopt
  onConnect := do iopt.called .onConnect; env.onConnect.exec iopt
  onReadComplete := do iopt.called .onReadComplete; env.onReadComplete.exec iopt
  onWriteComplete := do iopt.called .onWriteComplete; env.onWriteComplete.exec iopt
  onClosed := do iopt.called .onClosed; env.onClosed.exec iopt

/-! ## The world

All connections, the loop and the kernel. An operation of a connection reads and changes its own
object, its entries in the tables and the kernel's record of its descriptor. -/

/-- `class nsocktcp`. -/
structure Nsocktcp extends Nstream where
  family : Family
  peer : String × Int
  deriving DecidableEq, Repr

def Nsocktcp.connpeer (s : Nsocktcp) : Host := (s.peer.1, s.peer.2, s.family)

/-- Whether an end of file or a reset has been met between `s` and `s'`. -/
def Nsocktcp.metEnd (s s' : Nsocktcp) : Bool := (s'.eof && !s.eof) || (s'.reset && !s.reset)

/-- A loop with its connections, the kernel behind it, and the history of each connection. -/
structure World where
  nios : ConnId → Nsocktcp
  /-- The connections that exist or have existed. -/
  born : List ConnId
  evl : EventLoop IoHandler
  kern : Kernel
  scripts : ConnId → Script
  /-- Each `failures_[h] += 1`. -/
  failures : List Host
  trace : ConnId → List Event

abbrev LoopM := Prog Exn World

namespace World

def setNio (w : World) (c : ConnId) (s : Nsocktcp) : World :=
  { w with nios := Function.update w.nios c s }

def note (w : World) (c : ConnId) (evs : List Event) : World :=
  { w with trace := Function.update w.trace c (w.trace c ++ evs) }

section Fields

variable (w : World) (c c' : ConnId) (s : Nsocktcp) (evs : List Event)

@[simp] theorem nios_setNio_self : (w.setNio c s).nios c = s := by simp [setNio]

theorem nios_setNio_ne {c c' : ConnId} (h : c' ≠ c) : (w.setNio c s).nios c' = w.nios c' := by
  simp [setNio, h]

@[simp] theorem born_setNio : (w.setNio c s).born = w.born := rfl
@[simp] theorem evl_setNio : (w.setNio c s).evl = w.evl := rfl
@[simp] theorem kern_setNio : (w.setNio c s).kern = w.kern := rfl
@[simp] theorem scripts_setNio : (w.setNio c s).scripts = w.scripts := rfl
@[simp] theorem trace_setNio : (w.setNio c s).trace = w.trace := rfl

@[simp] theorem trace_note_self : (w.note c evs).trace c = w.trace c ++ evs := by simp [note]

theorem trace_note_ne {c c' : ConnId} (h : c' ≠ c) : (w.note c evs).trace c' = w.trace c' := by
  simp [note, h]

@[simp] theorem nios_note : (w.note c evs).nios = w.nios := rfl
@[simp] theorem born_note : (w.note c evs).born = w.born := rfl
@[simp] theorem evl_note : (w.note c evs).evl = w.evl := rfl
@[simp] theorem kern_note : (w.note c evs).kern = w.kern := rfl
@[simp] theorem scripts_note : (w.note c evs).scripts = w.scripts := rfl

end Fields

/-- The table for the descriptor of `c`, while `c` has one. -/
def table (w : World) (c : ConnId) : List (IoHandler × FdEvent) :=
  (w.evl.fds.filter fun e => !(w.nios c).closed && e.fd = (w.nios c).fd).map fun e =>
    (e.handler, e.ev)

/-- The stream of `c` and the kernel behind it. -/
def stream (c : ConnId) (w : World) : StreamIO :=
  ⟨(w.nios c).toNstream, (w.scripts c).reads, (w.scripts c).writes, []⟩

def putStream (c : ConnId) (io : StreamIO) (w : World) : World :=
  ({ w with
      scripts := Function.update w.scripts c
        { w.scripts c with reads := io.reads, writes := io.writes } }.setNio c
      { w.nios c with toNstream := io.str }).note c (io.sent.map .sent)

/-- `epoll_ctl(ev_fd_, EPOLL_CTL_ADD, iop->fd(), &ev)` with its check. -/
def ctlAdd (c : ConnId) (evType : FdEvent) : LoopM Unit := do
  let w ← get
  let fd := (w.nios c).fd
  set (w.note c [.ctlAdd (w.kern.epoll fd).isSome])
  match w.kern.ctlAdd fd (fdMapToSys evType) with
  | .ok kern => modify fun w => { w with kern }
  | .error e => throw (.systemError ("epoll_ctl add error for fd " ++ toString fd) e)

/-- `epoll_ctl(ev_fd_, EPOLL_CTL_DEL, iop->fd(), nullptr)` with its check. -/
def ctlDel (c : ConnId) : LoopM Unit := do
  let w ← get
  let fd := (w.nios c).fd
  set (w.note c [.ctlDel (w.kern.epoll fd).isSome])
  match w.kern.ctlDel fd with
  | .ok kern => modify fun w => { w with kern }
  | .error e => throw (.systemError ("epoll_ctl del error for fd " ++ toString fd) e)

/-- `fds_.emplace(iop->fd(), …)`. -/
def emplace (c : ConnId) (evType : FdEvent) (handler : IoHandler) : LoopM Unit :=
  modify fun w => { w with evl := w.evl.emplace ⟨(w.nios c).fd, .p0, c, handler, evType⟩ }

/-- `fds_.erase(iop->fd())`. -/
def erase (c : ConnId) : LoopM Unit :=
  modify fun w =>
    { w with evl := w.evl.erase (w.nios c).fd }.note c
      [.erased (w.evl.fds.any fun e => e.fd = (w.nios c).fd && e.iop ≠ c)]

/-- `event_loop::fd_register`, with the default priority. -/
def fdRegister (c : ConnId) (evType : FdEvent) (handler : Option IoHandler) (activate : Bool) :
    LoopM Unit := do
  modify fun w => w.note c [.fdRegister]
  modify fun w => w.setNio c { w.nios c with evlp := some w.evl.id }
  (match handler with
    | some h => emplace c evType h
    | none => pure ())
  (if activate then ctlAdd c evType else pure ())

/-- `event_loop::fd_remove`. -/
def fdRemove (c : ConnId) (clean deactivate : Bool) : LoopM Unit := do
  modify fun w => w.note c [.fdRemove]
  (if deactivate then ctlDel c else pure ())
  (if clean then erase c else pure ())

/-- `nio::close`. -/
def closeNio (w : World) (c : ConnId) : World :=
  let s := w.nios c
  { w with kern := if s.fd ≠ -1 then w.kern.close s.fd else w.kern }.setNio c
    { s with closed := true }

end World

/-- The handler with which another thread registers a new connection. -/
def Origin.initHandler : Origin → IoHandler
  | .accepted _ => .onAcptWritable
  | .connecting _ => .onContWritable

/-- `nsocktcp(fd, family)`, with the peer that `connect` has noted. -/
def Nsocktcp.new (fd : Int) : Origin → Nsocktcp
  | .accepted f => { Nstream.new fd with family := f, peer := ("", 0) }
  | .connecting (ip, port, f) => { Nstream.new fd with family := f, peer := (ip, port) }

namespace World

/-! ### Connections that come along -/

/-- A new object for a descriptor that was not in use. -/
def bear (w : World) (c : ConnId) (fd : Int) (origin : Origin) : World :=
  ({ w with born := c :: w.born, kern := w.kern.openFd fd }.setNio c (.new fd origin)).note c
    [.handedOver origin]

/-- Whether `c` can be a new connection on `fd`. -/
def Fresh (w : World) (c : ConnId) (fd : Int) : Prop :=
  c ∉ w.born ∧ w.kern.opened fd = false ∧ 0 ≤ fd

instance (w : World) (c : ConnId) (fd : Int) : Decidable (w.Fresh c fd) :=
  inferInstanceAs (Decidable (_ ∧ _))

/-- What a round of `on_acpt_readable` or `on_pipe_readable` does to the loop it has chosen. -/
def handOver (c : ConnId) (fd : Int) (origin : Origin) : LoopM Unit := do
  let w ← get
  if w.Fresh c fd then do
    set (w.bear c fd origin)
    fdRegister c .fdWritable (some origin.initHandler) true
  else pure ()

/-! ### The operations of a connection -/

/-- A `read` or `write` on the descriptor of `c`: the kernel answers `EBADF` if it is not open.
When the number has been given to a new connection, the answer is whatever that one gets. -/
def onOpenFd (c : ConnId) (what : String) : LoopM Unit := do
  let w ← get
  if w.kern.opened (w.nios c).fd then pure () else throw (.systemError what .EBADF)

/-- Without a byte in `wbuffer` there is no call of `write`. -/
def beforeWrite (c : ConnId) : LoopM Unit := do
  let w ← get
  if (w.nios c).wbuffer.size = 0 then pure () else onOpenFd c "write error"

/-- The operations on connection `c`, as the code performs them. -/
def iopt (c : ConnId) : Iopt LoopM where
  readAll := do
    onOpenFd c "read error"
    let s := (← get).nios c
    let _ ← Prog.zoom (stream c) (putStream c) (Nstream.readAll bufferIoStep)
    modify fun w => w.note c [.received
      ((w.nios c).rbuffer.unread.drop s.rbuffer.unread.length) (s.metEnd (w.nios c))]
  writeAll := do
    beforeWrite c
    let _ ← Prog.zoom (stream c) (putStream c) (Nstream.writeAll bufferIoStep)
    pure ()
  wbufferSize := do return ((← get).nios c).wbuffer.size
  wbufferPutString bs := modify fun w =>
    (w.setNio c { w.nios c with wbuffer := (w.nios c).wbuffer.putString bs }).note c [.appended bs]
  rbufferString := do return (((← get).nios c).rbuffer.getString (-1) false).1
  rbufferConsume n := modify fun w =>
    (w.setNio c { w.nios c with
      rbuffer := (w.nios c).rbuffer.consume (min n (w.nios c).rbuffer.size) }).note c
      [.consumed ((w.nios c).rbuffer.unread.take n)]
  rbufferClear := modify fun w =>
    w.setNio c { w.nios c with rbuffer := (w.nios c).rbuffer.clear }
  eof := do return ((← get).nios c).eof
  isReset := do return ((← get).nios c).reset
  eop := do return ((← get).nios c).eop
  isClosed := do return ((← get).nios c).closed
  checkConnect := do return ((← get).scripts c).soError = 0
  countFailure := modify fun w => { w with failures := w.failures ++ [(w.nios c).connpeer] }
  fdRegister := fdRegister c
  fdRemove := fdRemove c
  close := modify fun w => (w.closeNio c).note c [.closed]
  called cb := modify fun w => w.note c [.called cb (w.table c)]
  handOver := handOver

end World

/-! ## The machine

A step takes a handler off the queue and runs it, lets the poller put handlers into the queue, or
lets another thread hand over a connection. -/

/-- A loop thread; it ends when a handler throws. -/
structure Reactor where
  world : World
  fault : Option Exn

inductive ReactorLabel where
  /-- Another thread hands over connection `c` on descriptor `fd`. -/
  | handOver (c : ConnId) (fd : Int) (origin : Origin)
  /-- `epoll_wait` returns, and its events are collected. -/
  | poll (evs : List (Int × EpollEvents))
  /-- The `i`-th element of the queue comes next. -/
  | dispatch (i : Nat) (env : Env)
  /-- The last pointer to a connection that the loop has let go of goes away. -/
  | destroy (c : ConnId)

namespace Reactor

/-- A loop without connections. -/
def init : Reactor where
  world :=
    { nios := fun _ => .new (-1) (.accepted .ipv4)
      born := []
      evl := ⟨0, [], []⟩
      kern := ⟨fun _ => false, fun _ => none⟩
      scripts := fun _ => ⟨[], [], 0⟩
      failures := []
      trace := fun _ => [] }
  fault := none

/-- Neither the table nor the queue of the loop points to `c`. -/
def Unreferenced (w : World) (c : ConnId) : Prop :=
  (∀ e ∈ w.evl.fds, e.iop ≠ c) ∧ ∀ cb ∈ w.evl.fdCbs, cb.iop ≠ c

instance (w : World) (c : ConnId) : Decidable (Unreferenced w c) :=
  inferInstanceAs (Decidable (_ ∧ _))

/-- The state after a program that the loop thread, or a thread that hands over, has run. -/
def after (out : Except Exn Unit × World) : Reactor where
  world := out.2
  fault :=
    match out.1 with
    | .ok _ => none
    | .error e => some e

/-- The handler `cb` runs, with the contribution `env` of the outside. -/
def runCb (w : World) (cb : FdCb IoHandler) (env : Env) : Except Exn Unit × World :=
  (cb.handler.run (World.iopt cb.iop) (env.dp (World.iopt cb.iop))).exec
    { w with scripts := Function.update w.scripts cb.iop env.script }

def step (s : Reactor) (l : ReactorLabel) : Option Reactor :=
  if s.fault ≠ none then none
  else
    match l with
    | .handOver c fd origin =>
      if s.world.Fresh c fd then some (after ((World.handOver c fd origin).exec s.world)) else none
    | .poll evs =>
      if s.world.evl.fdCbs = [] ∧ EventLoop.Batch s.world.kern evs then
        some { s with world := { s.world with evl := s.world.evl.collect evs } }
      else none
    | .dispatch i env =>
      match s.world.evl.pop i with
      | some (cb, evl) => some (after (runCb { s.world with evl } cb env))
      | none => none
    | .destroy c =>
      if c ∈ s.world.born ∧ (s.world.nios c).closed = false ∧ Unreferenced s.world c then
        some { s with world := s.world.closeNio c }
      else none

end Reactor

end Cppev
