import Cppev.Nio.Inbox
import Cppev.Nio.Outbox
import Cppev.Reactor.Basic

/-!
# One connection on its own

What a connection is, apart from the storage of its buffers, the other connections and the tables
it shares with them: two byte queues, the flags of the stream, the interest epoll has in it, its
own handlers, and its history. The handlers of the reactor run on it as they run on the world.

A connection that has been closed has no descriptor any more. A call of the event loop, or of `read`
or `write`, that would go on using the number ends in `Fault.stray` here; what it does to the world
depends on who has the number now.
-/

namespace Cppev

/-! ## The connection and its operations

The operations are those of `World.iopt`, for one connection. `stray` is the fault that the real
program does not notice: an operation on a descriptor that may be somebody else's. -/

/-- How an operation on a connection can fail: it throws, or it uses the descriptor of a closed
connection. -/
inductive Fault where
  | stray
  | exn (e : Exn)
  deriving DecidableEq, Repr

structure Conn where
  fd : Int
  /-- The unread bytes of `wbuffer` and of `rbuffer`. -/
  out : List Byte
  inp : List Byte
  eof : Bool
  eop : Bool
  reset : Bool
  closed : Bool
  /-- The interest of epoll in the descriptor; none when it is not in the epoll set. -/
  interest : Option EpollEvents
  /-- Its entries of `fds_`, and its elements of `fd_cbs_`. -/
  handlers : List (IoHandler × FdEvent)
  queued : List IoHandler
  script : Script
  trace : List Event
  deriving DecidableEq, Repr

abbrev ConnM := Prog Fault Conn

namespace Conn

@[simps] def note (v : Conn) (evs : List Event) : Conn := { v with trace := v.trace ++ evs }

/-- Only an open connection may go on. -/
def alive : ConnM Unit := do
  let v ← get
  if v.closed then throw .stray else pure ()

/-- What `read_all` leaves. -/
@[simps] def received (v : Conn) : Conn :=
  let d := deliver v.script.reads
  { v with
    inp := v.inp ++ d.bytes
    eof := v.eof || decide (d.halt = .eof)
    reset := v.reset || decide (d.halt = .reset)
    script := { v.script with reads := d.rest } }

/-- Whether `read_all` meets an end of file or a reset, and is the first to do so. -/
def endsHere (v : Conn) : Bool :=
  (v.received.eof && !v.eof) || (v.received.reset && !v.reset)

/-- What `write_all` leaves, step by step of 1024 bytes. -/
@[simps!] def flushed (v : Conn) : Conn :=
  let f := flush 1024 1024 v.out v.script.writes
  { v with
    out := f.pending
    eop := v.eop || decide (f.stop = Stop.broken)
    reset := v.reset || decide (f.stop = Stop.reset)
    script := { v.script with writes := f.rest } }.note (f.sent.map .sent)

/-- How a system call that throws is passed on. -/
def raise : Except Exn Unit → ConnM Unit
  | .ok _ => pure ()
  | .error e => throw (.exn e)

def readAll : ConnM Unit := do
  alive
  let v ← get
  set v.received
  raise (Nstream.readThrown (deliver v.script.reads).halt)
  modify fun v' => v'.note [.received (deliver v.script.reads).bytes v.endsHere]

/-- Without a byte to write there is no call of `write`. -/
def beforeWrite : ConnM Unit := do
  let v ← get
  if v.out = [] then pure () else alive

def writeAll : ConnM Unit := do
  beforeWrite
  let v ← get
  set v.flushed
  raise (Nstream.thrown (flush 1024 1024 v.out v.script.writes).stop)

/-- `EPOLL_CTL_ADD` on an open descriptor. -/
def ctlAdd (evType : FdEvent) : ConnM Unit := do
  alive
  let v ← get
  set (v.note [.ctlAdd v.interest.isSome])
  match v.interest with
  | none => modify fun v => { v with interest := some (fdMapToSys evType) }
  | some _ =>
    throw (.exn (.systemError ("epoll_ctl add error for fd " ++ toString v.fd) .EEXIST))

/-- `EPOLL_CTL_DEL` on an open descriptor. -/
def ctlDel : ConnM Unit := do
  alive
  let v ← get
  set (v.note [.ctlDel v.interest.isSome])
  match v.interest with
  | some _ => modify fun v => { v with interest := none }
  | none =>
    throw (.exn (.systemError ("epoll_ctl del error for fd " ++ toString v.fd) .ENOENT))

def emplace (evType : FdEvent) (handler : IoHandler) : ConnM Unit := do
  alive
  modify fun v => { v with handlers := v.handlers ++ [(handler, evType)] }

def erase : ConnM Unit := do
  alive
  modify fun v => { v with handlers := [] }.note [.erased false]

def fdRegister (evType : FdEvent) (handler : Option IoHandler) (activate : Bool) : ConnM Unit := do
  alive
  modify fun v => v.note [.fdRegister]
  (match handler with
    | some h => emplace evType h
    | none => pure ())
  (if activate then ctlAdd evType else pure ())

def fdRemove (clean deactivate : Bool) : ConnM Unit := do
  alive
  modify fun v => v.note [.fdRemove]
  (if deactivate then ctlDel else pure ())
  (if clean then erase else pure ())

/-- Closing a connection that the table still points to is as stray as closing it twice. -/
def close : ConnM Unit := do
  alive
  let v ← get
  if v.handlers = [] then set ({ v with closed := true, interest := none }.note [.closed])
  else throw .stray

/-- The operations on the connection. -/
def iopt : Iopt ConnM where
  readAll := readAll
  writeAll := writeAll
  wbufferSize := do return ((← get).out.length : Int)
  wbufferPutString bs := modify fun v => { v with out := v.out ++ bs }.note [.appended bs]
  rbufferString := do return (← get).inp
  rbufferConsume n := modify fun v =>
    { v with inp := v.inp.drop n }.note [.consumed (v.inp.take n)]
  rbufferClear := modify fun v => { v with inp := [] }
  eof := do return (← get).eof
  isReset := do return (← get).reset
  eop := do return (← get).eop
  isClosed := do return (← get).closed
  checkConnect := do return (← get).script.soError = 0
  countFailure := pure ()
  fdRegister := fdRegister
  fdRemove := fdRemove
  close := close
  called cb := modify fun v => v.note [.called cb v.handlers]
  handOver _ _ _ := pure ()

/-- The handler `h` runs, with the contribution `env` of the outside. -/
def handle (h : IoHandler) (env : Env) : ConnM Unit := h.run iopt (env.dp iopt)

/-! ## What the operations leave

A name for what each operation leaves, and a `wp` rule for it, so that a handler can be run
symbolically. -/

/-- After a callback has begun. -/
@[simps] def begun (v : Conn) (cb : Callback) : Conn :=
  { v with trace := v.trace ++ [.called cb v.handlers] }

/-- After `read_all`. -/
@[simps!] def filled (v : Conn) : Conn :=
  v.received.note [.received (deliver v.script.reads).bytes v.endsHere]

/-- After `fd_remove(iop, false, true)`, where epoll knows the descriptor. -/
@[simps] def disarmed (v : Conn) : Conn :=
  { v with interest := none, trace := v.trace ++ [.fdRemove, .ctlDel true] }

/-- After `fd_remove(iop, true, true)`, where epoll knows the descriptor. -/
@[simps] def removed (v : Conn) : Conn :=
  { v with
    interest := none
    handlers := []
    trace := v.trace ++ [.fdRemove, .ctlDel true, .erased false] }

/-- After `fd_register(iop, ev_type)`, where epoll does not know the descriptor. -/
@[simps] def armed (v : Conn) (evType : FdEvent) : Conn :=
  { v with
    interest := some (fdMapToSys evType)
    trace := v.trace ++ [.fdRegister, .ctlAdd false] }

/-- After `fd_register(iop, ev_type, handler, false)`. -/
@[simps] def listed (v : Conn) (evType : FdEvent) (h : IoHandler) : Conn :=
  { v with
    handlers := v.handlers ++ [(h, evType)]
    trace := v.trace ++ [.fdRegister] }

/-- After `safely_close`. -/
@[simps] def finished (v : Conn) : Conn :=
  { v with
    closed := true
    interest := none
    handlers := []
    trace := v.trace ++ [.fdRemove, .erased false, .closed] }

/-- What `epoll_ctl` throws for a descriptor that is not in the epoll set. -/
def notPolled (v : Conn) : Fault :=
  .exn (.systemError ("epoll_ctl del error for fd " ++ toString v.fd) .ENOENT)

section Rules

variable {α : Type} {v : Conn} {E : Fault → Conn → Prop}

theorem wp_raise {r : Except Exn Unit} {Q : Unit → Conn → Prop} :
    (raise r).wp Q E v ↔
      match r with
      | .ok _ => Q () v
      | .error e => E (.exn e) v := by
  cases r <;> rfl

variable {Q : Unit → Conn → Prop}

theorem wp_alive (hcl : v.closed = false) : alive.wp Q E v ↔ Q () v := by
  simp [alive, hcl]

theorem wp_alive_closed (hcl : v.closed = true) : alive.wp Q E v ↔ E .stray v := by
  simp [alive, hcl]

theorem wp_readAll (hcl : v.closed = false) :
    Conn.readAll.wp Q E v ↔
      match Nstream.readThrown (deliver v.script.reads).halt with
      | .ok _ => Q () v.filled
      | .error e => E (.exn e) v.received := by
  simp only [Conn.readAll, Prog.wp_bind, wp_alive hcl, Prog.wp_get, Prog.wp_set, wp_raise]
  cases Nstream.readThrown (deliver v.script.reads).halt <;> rfl

theorem wp_writeAll (hopen : v.closed = false ∨ v.out = []) :
    Conn.writeAll.wp Q E v ↔
      match Nstream.thrown (flush 1024 1024 v.out v.script.writes).stop with
      | .ok _ => Q () v.flushed
      | .error e => E (.exn e) v.flushed := by
  have hbefore : ∀ {K : Unit → Conn → Prop}, beforeWrite.wp K E v ↔ K () v := by
    intro K
    simp only [beforeWrite, Prog.wp_bind, Prog.wp_get]
    split
    case isTrue => exact Iff.rfl
    case isFalse hout => exact wp_alive (hopen.resolve_right hout)
  simp only [Conn.writeAll, Prog.wp_bind, hbefore, Prog.wp_get, Prog.wp_set, wp_raise]

theorem wp_writeAll_closed (hcl : v.closed = true) (hout : v.out ≠ []) :
    Conn.writeAll.wp Q E v ↔ E .stray v := by
  simp only [Conn.writeAll, beforeWrite, Prog.wp_bind, Prog.wp_get, if_neg hout,
    wp_alive_closed hcl]

theorem wp_disarm {i : EpollEvents} (hcl : v.closed = false) (hint : v.interest = some i) :
    (Conn.fdRemove false true).wp Q E v ↔ Q () v.disarmed := by
  simp [Conn.fdRemove, ctlDel, wp_alive, hcl, hint, note, disarmed]

theorem wp_remove {i : EpollEvents} (hcl : v.closed = false) (hint : v.interest = some i) :
    (Conn.fdRemove true true).wp Q E v ↔ Q () v.removed := by
  simp [Conn.fdRemove, ctlDel, erase, wp_alive, hcl, hint, note, removed]

theorem wp_fdRemove_notPolled (clean : Bool) (hcl : v.closed = false) (hint : v.interest = none) :
    (Conn.fdRemove clean true).wp Q E v ↔ E v.notPolled (v.note [.fdRemove, .ctlDel false]) := by
  simp [Conn.fdRemove, ctlDel, wp_alive, hcl, hint, note, notPolled]

theorem wp_fdRemove_closed (clean deactivate : Bool) (hcl : v.closed = true) :
    (Conn.fdRemove clean deactivate).wp Q E v ↔ E .stray v := by
  simp [Conn.fdRemove, wp_alive_closed, hcl]

theorem wp_arm (evType : FdEvent) (hcl : v.closed = false) (hint : v.interest = none) :
    (Conn.fdRegister evType none true).wp Q E v ↔ Q () (v.armed evType) := by
  simp [Conn.fdRegister, ctlAdd, wp_alive, hcl, hint, note, armed]

theorem wp_list (evType : FdEvent) (h : IoHandler) (hcl : v.closed = false) :
    (Conn.fdRegister evType (some h) false).wp Q E v ↔ Q () (v.listed evType h) := by
  simp [Conn.fdRegister, emplace, wp_alive, hcl, note, listed]

theorem wp_listArm (evType : FdEvent) (h : IoHandler) (hcl : v.closed = false)
    (hint : v.interest = none) :
    (Conn.fdRegister evType (some h) true).wp Q E v ↔
      Q () { v.listed evType h with
        interest := some (fdMapToSys evType)
        trace := v.trace ++ [.fdRegister, .ctlAdd false] } := by
  simp [Conn.fdRegister, emplace, ctlAdd, wp_alive, hcl, hint, note, listed]

theorem wp_safelyClose (hcl : v.closed = false) :
    (safelyClose Conn.iopt).wp Q E v ↔ Q () v.finished := by
  simp [safelyClose, Conn.iopt, Conn.fdRemove, erase, close, wp_alive, hcl, note, finished]

theorem wp_safelyClose_closed (hcl : v.closed = true) :
    (safelyClose Conn.iopt).wp Q E v ↔ E .stray v := by
  simp [safelyClose, Conn.iopt, wp_fdRemove_closed, hcl]

end Rules

end Conn

end Cppev
