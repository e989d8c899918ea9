import Cppev.EventLoop

/-!
# The event loop on two pollers

`event_loop_epoll.cc` and `event_loop_kqueue.cc` differ in what `fd_register` does to activate a
descriptor, in what `fd_remove` does to deactivate it, and in the events that a poll reports. A
`Backend` is these three; the two files are `epoll` and `kqueue`.

The descriptor of a `nio` is given by `fdOf`. What `set_evlp` does to the `nio` is left out.
-/

namespace Cppev

/-- What differs; `K` is the state of the poller, `E` what it reports for a descriptor. An operation
that throws may have changed the state before. -/
structure Backend (K E : Type) where
  activate : K → Int → FdEvent → Except Exn Unit × K
  deactivate : K → Int → Except Exn Unit × K
  toEvent : E → FdEvent
  /-- What a poll may report. -/
  Batch : K → List (Int × E) → Prop
  batchDecidable : ∀ k evs, Decidable (Batch k evs)

/-! ## epoll -/

def epoll : Backend Kernel EpollEvents where
  activate := fun k fd ev =>
    match k.ctlAdd fd (fdMapToSys ev) with
    | .ok k' => (.ok (), k')
    | .error e => (.error (.systemError ("epoll_ctl add error for fd " ++ toString fd) e), k)
  deactivate := fun k fd =>
    match k.ctlDel fd with
    | .ok k' => (.ok (), k')
    | .error e => (.error (.systemError ("epoll_ctl del error for fd " ++ toString fd) e), k)
  toEvent := fdMapToEvent
  Batch := EventLoop.Batch
  batchDecidable := inferInstance

/-! ## kqueue -/

namespace Kqueue

def EVFILT_READ : BitVec 32 := -1

def EVFILT_WRITE : BitVec 32 := -2

/-- `fd_map_to_sys`. -/
def fdMapToSys (ev : FdEvent) : BitVec 32 :=
  let flags : BitVec 32 := 0
  let flags := if ev.meets .fdReadable then flags ||| EVFILT_READ else flags
  if ev.meets .fdWritable then flags ||| EVFILT_WRITE else flags

/-- `fd_map_to_event`. -/
def fdMapToEvent (ev : BitVec 32) : FdEvent :=
  if ev = EVFILT_WRITE then .fdWritable
  else if ev = EVFILT_READ then .fdReadable
  else ⟨false, false⟩

/-- `fd_event a | b`. -/
def union (a b : FdEvent) : FdEvent := ⟨a.readable || b.readable, a.writable || b.writable⟩

/-- A filter as `struct kevent` has it. -/
inductive Filter where
  | read | write
  deriving DecidableEq, Repr

/-- The filter that `EV_SET` stores, of which 16 bits remain. -/
def filterOf (flags : BitVec 32) : Option Filter :=
  if flags.setWidth 16 = -1 then some .read
  else if flags.setWidth 16 = -2 then some .write
  else none

/-- What `fd_map_to_event` is given for a filter. -/
def Filter.toSys : Filter → BitVec 32
  | .read => -1
  | .write => -2

end Kqueue

/-- The open descriptors, the filters of one kqueue, and `fd_events_`. -/
structure Kqueue where
  opened : Int → Bool
  filters : Int → Kqueue.Filter → Bool
  fdEvents : Int → Option FdEvent

namespace Kqueue

def EINVAL : Errno := .other 22

/-- `kevent` with `EV_ADD`, which may name a filter that is there already. -/
def kevAdd (k : Kqueue) (fd : Int) (flags : BitVec 32) : Except Errno Kqueue :=
  match filterOf flags with
  | some f =>
    if k.opened fd = false then .error .EBADF
    else .ok { k with filters := Function.update k.filters fd (Function.update (k.filters fd) f true) }
  | none => .error EINVAL

/-- `kevent` with `EV_DELETE`. -/
def kevDelete (k : Kqueue) (fd : Int) (flags : BitVec 32) : Except Errno Kqueue :=
  match filterOf flags with
  | some f =>
    if k.opened fd = false then .error .EBADF
    else if k.filters fd f = false then .error .ENOENT
    else .ok { k with filters := Function.update k.filters fd (Function.update (k.filters fd) f false) }
  | none => .error EINVAL

/-- The activating part of `fd_register`. -/
def activate (k : Kqueue) (fd : Int) (evType : FdEvent) : Except Exn Unit × Kqueue :=
  let recorded :=
    match k.fdEvents fd with
    | some ev => union ev evType
    | none => evType
  let k := { k with fdEvents := Function.update k.fdEvents fd (some recorded) }
  match k.kevAdd fd (fdMapToSys evType) with
  | .ok k' => (.ok (), k')
  | .error e => (.error (.systemError ("kevent add error for fd " ++ toString fd) e), k)

/-- The loop of `fd_remove` over the events of the descriptor. -/
def deleteEach (fd : Int) (evType : FdEvent) :
    List FdEvent → Kqueue → Except Exn Unit × Kqueue
  | [], k => (.ok (), k)
  | ev :: evs, k =>
    if evType.meets ev then
      match k.kevDelete fd (fdMapToSys ev) with
      | .ok k' => deleteEach fd evType evs k'
      | .error e => (.error (.systemError ("kevent del error for fd " ++ toString fd) e), k)
    else deleteEach fd evType evs k

/-- The deactivating part of `fd_remove`. -/
def deactivate (k : Kqueue) (fd : Int) : Except Exn Unit × Kqueue :=
  let evType := (k.fdEvents fd).getD ⟨false, false⟩
  deleteEach fd evType [.fdReadable, .fdWritable]
    { k with fdEvents := Function.update k.fdEvents fd none }

/-- What `kevent` may report: each filter once. -/
def Batch (k : Kqueue) (evs : List (Int × Filter)) : Prop :=
  evs.Nodup ∧ ∀ ev ∈ evs, k.filters ev.1 ev.2 = true

instance (k : Kqueue) (evs : List (Int × Filter)) : Decidable (k.Batch evs) :=
  inferInstanceAs (Decidable (_ ∧ _))

end Kqueue

def kqueue : Backend Kqueue Kqueue.Filter where
  activate := Kqueue.activate
  deactivate := Kqueue.deactivate
  toEvent := fun f => Kqueue.fdMapToEvent f.toSys
  Batch := Kqueue.Batch
  batchDecidable := inferInstance

/-! ## The loop -/

/-- An event loop with its poller. -/
structure PolledLoop (H K : Type) where
  evl : EventLoop H
  poller : K

namespace Backend

variable {H K E : Type} (b : Backend K E) (fdOf : ConnId → Int)

def fdRegister (s : PolledLoop H K) (iop : ConnId) (evType : FdEvent) (handler : Option H)
    (activate : Bool) (prio : Priority) : Except Exn Unit × PolledLoop H K :=
  let s :=
    match handler with
    | some h => { s with evl := s.evl.emplace ⟨fdOf iop, prio, iop, h, evType⟩ }
    | none => s
  if activate = true then
    let (result, poller) := b.activate s.poller (fdOf iop) evType
    (result, { s with poller })
  else (.ok (), s)

def fdRemove (s : PolledLoop H K) (iop : ConnId) (clean deactivate : Bool) :
    Except Exn Unit × PolledLoop H K :=
  let (result, poller) :=
    if deactivate = true then b.deactivate s.poller (fdOf iop) else (.ok (), s.poller)
  let s := { s with poller }
  match result with
  | .ok () => (.ok (), if clean = true then { s with evl := s.evl.erase (fdOf iop) } else s)
  | .error e => (.error e, s)

/-- A round of the `for` loop of `loop_once`. -/
def enqueue (evl : EventLoop H) (fd : Int) (ev : E) : EventLoop H :=
  { evl with
    fdCbs := evl.fdCbs ++
      (evl.fds.filter fun e => e.fd = fd && e.ev.meets (b.toEvent ev)).map Entry.cb }

/-- The `for` loop of `loop_once`. -/
def collect (evl : EventLoop H) (evs : List (Int × E)) : EventLoop H :=
  evs.foldl (fun evl ev => b.enqueue evl ev.1 ev.2) evl

variable {b} {fdOf}

@[simp] theorem fds_collect (evl : EventLoop H) (evs : List (Int × E)) :
    (b.collect evl evs).fds = evl.fds := by
  induction evs generalizing evl with
  | nil => rfl
  | cons ev evs ih => exact ih (b.enqueue evl ev.1 ev.2)

/-- What is collected comes from the table. -/
theorem mem_collect {evl : EventLoop H} {evs : List (Int × E)} {cb : FdCb H}
    (h : cb ∈ (b.collect evl evs).fdCbs) : cb ∈ evl.fdCbs ∨ ∃ e ∈ evl.fds, e.cb = cb := by
  induction evs generalizing evl with
  | nil => exact .inl h
  | cons ev evs ih =>
      rcases @ih (b.enqueue evl ev.1 ev.2) h with hq | ht
      · rcases List.mem_append.mp hq with hq | hq
        · exact .inl hq
        · obtain ⟨e, he, hcb⟩ := List.mem_map.mp hq
          exact .inr ⟨e, (List.mem_filter.mp he).1, hcb⟩
      · exact .inr ht

/-! ### What the two calls do to the loop's tables -/

theorem fds_fdRegister (s : PolledLoop H K) (iop : ConnId) (evType : FdEvent) (handler : Option H)
    (activate : Bool) (prio : Priority) :
    (b.fdRegister fdOf s iop evType handler activate prio).2.evl.fds =
      s.evl.fds ++ (handler.map fun h => ⟨fdOf iop, prio, iop, h, evType⟩).toList := by
  cases handler <;> cases activate <;> simp [fdRegister, EventLoop.emplace]

theorem fdCbs_fdRegister (s : PolledLoop H K) (iop : ConnId) (evType : FdEvent)
    (handler : Option H) (activate : Bool) (prio : Priority) :
    (b.fdRegister fdOf s iop evType handler activate prio).2.evl.fdCbs = s.evl.fdCbs := by
  cases handler <;> cases activate <;> rfl

/-- `fd_remove` comes to its second part if it does not throw. -/
theorem fds_fdRemove (s : PolledLoop H K) (iop : ConnId) (clean deactivate : Bool) :
    (b.fdRemove fdOf s iop clean deactivate).2.evl.fds =
      if clean = true ∧ (b.fdRemove fdOf s iop clean deactivate).1 = .ok () then
        s.evl.fds.filter fun e => e.fd ≠ fdOf iop
      else s.evl.fds := by
  unfold fdRemove
  generalize (if deactivate = true then b.deactivate s.poller (fdOf iop) else (.ok (), s.poller)) =
    out
  obtain ⟨result, poller⟩ := out
  cases result <;> cases clean <;> simp [EventLoop.erase]

theorem fdCbs_fdRemove (s : PolledLoop H K) (iop : ConnId) (clean deactivate : Bool) :
    (b.fdRemove fdOf s iop clean deactivate).2.evl.fdCbs = s.evl.fdCbs := by
  unfold fdRemove
  generalize (if deactivate = true then b.deactivate s.poller (fdOf iop) else (.ok (), s.poller)) =
    out
  obtain ⟨result, poller⟩ := out
  cases result <;> cases clean <;> rfl

/-! ### What they ask of the poller -/

theorem result_fdRegister (s : PolledLoop H K) (iop : ConnId) (evType : FdEvent)
    (handler : Option H) (activate : Bool) (prio : Priority) :
    (b.fdRegister fdOf s iop evType handler activate prio).1 =
      if activate = true then (b.activate s.poller (fdOf iop) evType).1 else .ok () := by
  cases handler <;> cases activate <;> rfl

theorem poller_fdRegister (s : PolledLoop H K) (iop : ConnId) (evType : FdEvent)
    (handler : Option H) (activate : Bool) (prio : Priority) :
    (b.fdRegister fdOf s iop evType handler activate prio).2.poller =
      if activate = true then (b.activate s.poller (fdOf iop) evType).2 else s.poller := by
  cases handler <;> cases activate <;> rfl

theorem result_fdRemove (s : PolledLoop H K) (iop : ConnId) (clean deactivate : Bool) :
    (b.fdRemove fdOf s iop clean deactivate).1 =
      if deactivate = true then (b.deactivate s.poller (fdOf iop)).1 else .ok () := by
  cases deactivate with
  | false => rfl
  | true =>
      simp only [fdRemove, if_true]
      rcases b.deactivate s.poller (fdOf iop) with ⟨result, poller⟩
      cases result <;> rfl

theorem poller_fdRemove (s : PolledLoop H K) (iop : ConnId) (clean deactivate : Bool) :
    (b.fdRemove fdOf s iop clean deactivate).2.poller =
      if deactivate = true then (b.deactivate s.poller (fdOf iop)).2 else s.poller := by
  cases deactivate with
  | false => cases clean <;> rfl
  | true =>
      simp only [fdRemove, if_true]
      rcases b.deactivate s.poller (fdOf iop) with ⟨result, poller⟩
      cases result <;> cases clean <;> rfl

end Backend

end Cppev
