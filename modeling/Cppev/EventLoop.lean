import Mathlib.Logic.Function.Basic
import Cppev.Nio.Basic
import Cppev.Utils

/-!
# The event loop on epoll

The data of `event_loop` and what the two system calls `epoll_ctl` and `close` do to the epoll set,
without the objects that are registered: an entry of `fds_` names its `nio` by an identity, and the
handler stands for itself.

`epoll_wait` is not a function of the state. A batch it may return is a list of descriptors with
events (`EventLoop.Batch`); what `loop_once` does with a batch is `collect`, then `pop` until the
queue is empty.
-/

namespace Cppev

/-- The identity of a `nio`, which the shared pointers to it have in common. -/
abbrev ConnId := Nat

/-- The bits of `fd_event`. -/
structure FdEvent where
  readable : Bool
  writable : Bool
  deriving DecidableEq, Repr

namespace FdEvent

def fdReadable : FdEvent := ⟨true, false⟩

def fdWritable : FdEvent := ⟨false, true⟩

/-- `static_cast<bool>(a & b)`. -/
def meets (a b : FdEvent) : Bool := (a.readable && b.readable) || (a.writable && b.writable)

end FdEvent

/-- The bits of `epoll_event::events` that matter here. -/
structure EpollEvents where
  epollin : Bool
  epollout : Bool
  epollhup : Bool
  epollerr : Bool
  deriving DecidableEq, Repr

def fdMapToSys (ev : FdEvent) : EpollEvents := ⟨ev.readable, ev.writable, false, false⟩

def fdMapToEvent (ev : EpollEvents) : FdEvent := ⟨ev.epollin, ev.epollout⟩

/-- What epoll may report: of the interest any part, and hang-up and error without being asked. -/
def EpollEvents.reportable (interest reported : EpollEvents) : Bool :=
  (!reported.epollin || interest.epollin) && (!reported.epollout || interest.epollout)

/-! ## The kernel's tables -/

/-- The open descriptors, and the epoll set of one loop with the interest in each member. -/
structure Kernel where
  opened : Int → Bool
  epoll : Int → Option EpollEvents

namespace Kernel

/-- `EPOLL_CTL_ADD`. -/
def ctlAdd (k : Kernel) (fd : Int) (ev : EpollEvents) : Except Errno Kernel :=
  if k.opened fd = false then .error .EBADF
  else if (k.epoll fd).isSome then .error .EEXIST
  else .ok { k with epoll := Function.update k.epoll fd (some ev) }

/-- `EPOLL_CTL_DEL`. -/
def ctlDel (k : Kernel) (fd : Int) : Except Errno Kernel :=
  if k.opened fd = false then .error .EBADF
  else if (k.epoll fd).isNone then .error .ENOENT
  else .ok { k with epoll := Function.update k.epoll fd none }

theorem ctlAdd_eq_ok {k k' : Kernel} {fd : Int} {ev : EpollEvents} (h : k.ctlAdd fd ev = .ok k') :
    k' = { k with epoll := Function.update k.epoll fd (some ev) } := by
  unfold ctlAdd at h
  split at h
  case isTrue => cases h
  case isFalse =>
    split at h
    case isTrue => cases h
    case isFalse => exact (Except.ok.inj h).symm

theorem ctlDel_eq_ok {k k' : Kernel} {fd : Int} (h : k.ctlDel fd = .ok k') :
    k' = { k with epoll := Function.update k.epoll fd none } := by
  unfold ctlDel at h
  split at h
  case isTrue => cases h
  case isFalse =>
    split at h
    case isTrue => cases h
    case isFalse => exact (Except.ok.inj h).symm

/-- `close`, which also takes the descriptor out of the epoll set. -/
def close (k : Kernel) (fd : Int) : Kernel :=
  { opened := Function.update k.opened fd false
    epoll := Function.update k.epoll fd none }

/-- A descriptor that the kernel hands out. -/
def openFd (k : Kernel) (fd : Int) : Kernel :=
  { k with opened := Function.update k.opened fd true }

end Kernel

/-! ## The loop's tables -/

/-- An entry of `fds_`. -/
structure Entry (H : Type) where
  fd : Int
  prio : Priority
  iop : ConnId
  handler : H
  ev : FdEvent
  deriving DecidableEq, Repr

/-- An element of `fd_cbs_`. -/
structure FdCb (H : Type) where
  prio : Priority
  iop : ConnId
  handler : H
  deriving DecidableEq, Repr

structure EventLoop (H : Type) where
  /-- Its name, for `set_evlp`. -/
  id : Nat
  fds : List (Entry H)
  fdCbs : List (FdCb H)
  deriving DecidableEq, Repr

def Entry.cb {H : Type} (e : Entry H) : FdCb H := ⟨e.prio, e.iop, e.handler⟩

namespace EventLoop

variable {H : Type}

/-- `fds_.emplace`. -/
def emplace (evl : EventLoop H) (e : Entry H) : EventLoop H := { evl with fds := evl.fds ++ [e] }

/-- `fds_.erase(fd)`. -/
def erase (evl : EventLoop H) (fd : Int) : EventLoop H :=
  { evl with fds := evl.fds.filter fun e => e.fd ≠ fd }

/-- A round of the `for` loop of `loop_once`. -/
def enqueue (evl : EventLoop H) (fd : Int) (events : EpollEvents) : EventLoop H :=
  { evl with
    fdCbs := evl.fdCbs ++
      (evl.fds.filter fun e => e.fd = fd && e.ev.meets (fdMapToEvent events)).map Entry.cb }

/-- The `for` loop of `loop_once`. -/
def collect (evl : EventLoop H) (evs : List (Int × EpollEvents)) : EventLoop H :=
  evs.foldl (fun evl ev => evl.enqueue ev.1 ev.2) evl

/-- A round of the `while` loop of `loop_once`: the queue gives back the `i`-th element. Its order
is by priority; which of several elements of the same priority comes first is left open. -/
def pop (evl : EventLoop H) (i : Nat) : Option (FdCb H × EventLoop H) :=
  match evl.fdCbs[i]? with
  | some cb =>
    if ∀ cb' ∈ evl.fdCbs, cb'.prio.value ≤ cb.prio.value then
      some (cb, { evl with fdCbs := evl.fdCbs.eraseIdx i })
    else none
  | none => none

/-- What `epoll_wait` may return. -/
def Batch (k : Kernel) (evs : List (Int × EpollEvents)) : Prop :=
  (evs.map Prod.fst).Nodup ∧
    ∀ ev ∈ evs, ((k.epoll ev.1).any fun interest => interest.reportable ev.2) = true

instance (k : Kernel) (evs : List (Int × EpollEvents)) : Decidable (Batch k evs) :=
  inferInstanceAs (Decidable (_ ∧ _))

end EventLoop

end Cppev
