import Cppev.EventLoop.LoopOnce

/-!
# Stopping a loop

`loop_forever` tests `stop_`, blocks in the poller and dispatches; `stop_loop_forever` sets `stop_`,
makes a pipe, registers its read end and lets go of both ends, which closes the one for writing.
The read end is open as long as somebody holds it: `stop_loop_forever` itself, an entry of `fds_` or
an element of the queue.

* `stop_not_missed`: in no order of the steps is the loop left in the poller with nothing reported
  when `stop_loop_forever` has returned, and it dispatches at most one batch after `stop_` is set.
-/

namespace Cppev

/-! ## The two functions -/

/-- Where `loop_forever` is. -/
inductive LoopAt where
  | notStarted
  | atTest
  /-- `stop_` was not set. -/
  | atPoll
  | blocked
  | dispatching
  | done
  deriving DecidableEq, Repr

/-- Where `stop_loop_forever` is. -/
inductive StopAt where
  | idle
  | stopSet
  | created
  | emplaced
  | activated
  | returned
  | threw
  deriving DecidableEq, Repr

/-- The pipe of `stop_loop_forever`: the `nio` of its read end, and its write end. -/
structure StopPipe where
  iop : ConnId
  wfd : Int
  writer : Bool
  deriving DecidableEq, Repr

/-- The loop, its pipe and the places of the two threads; `batches` counts the dispatched batches
since `stop_` was set. -/
structure Stopping (H : Type) where
  /-- The tables, with the call of `loop_once` that is on while the loop dispatches. -/
  once : LoopOnce H Kernel EpollEvents
  stop : Bool
  loopAt : LoopAt
  stopAt : StopAt
  pipe : Option StopPipe
  /-- What the files behind the other descriptors are ready for. -/
  ready : Int → EpollEvents
  /-- The batches dispatched since `stop_` is set, the one that was on at that time included. -/
  batches : Nat

/-- A step of the loop's thread, of the thread that stops it, or of others. -/
inductive StopLabel (H : Type) where
  /-- The thread of the loop. -/
  | start
  | test
  | enter
  | wake (batch : List (Int × EpollEvents))
  | round (l : LoopOnceLabel H)
  | finish
  /-- The thread that stops it; what the system calls give is in the label. -/
  | setStop
  | getPipes (ends : Option (ConnId × Int))
  | emplace
  | activate
  | closeWrite
  /-- The last holder has let go of the read end. -/
  | release
  /-- What others do with other descriptors. -/
  | other (c : Call H)
  | opened (fd : Int)
  | closed (fd : Int)
  | becomes (fd : Int) (ready : EpollEvents)

/-- The descriptor of a call. -/
def Call.fd {H : Type} (fdOf : ConnId → Int) : Call H → Int
  | .register iop .. => fdOf iop
  | .remove iop .. => fdOf iop

/-- What level-triggered epoll shows of what a file is ready for. -/
def EpollEvents.shown (interest ready : EpollEvents) : EpollEvents :=
  ⟨interest.epollin && ready.epollin, interest.epollout && ready.epollout, ready.epollhup,
    ready.epollerr⟩

namespace Stopping

variable {H : Type}

def kernel (s : Stopping H) : Kernel := s.once.loop.poller

def setKernel (s : Stopping H) (k : Kernel) : Stopping H :=
  { s with once := { s.once with loop := { s.once.loop with poller := k } } }

section

-- What a pipe is ready for when its write end has been closed, the read end of each `nio`, and the
-- handler that `stop_loop_forever` registers.
variable (eof : EpollEvents) (fdOf : ConnId → Int) (handler : H)

/-! ### What the poller reports

The kernel says what is ready; a pipe whose write end is closed is, by the assumption of the
theorem. -/

/-- Nothing is written to the pipe. -/
def readiness (s : Stopping H) (fd : Int) : EpollEvents :=
  match s.pipe with
  | some p =>
    if fdOf p.iop = fd then if p.writer = true then ⟨false, false, false, false⟩ else eof
    else s.ready fd
  | none => s.ready fd

/-- What the poller has to report for a descriptor. -/
def reported (s : Stopping H) (fd : Int) : Option EpollEvents :=
  match s.kernel.epoll fd with
  | some interest =>
    let shown := interest.shown (s.readiness eof fdOf fd)
    if shown = ⟨false, false, false, false⟩ then none else some shown
  | none => none

/-- What a poll may return: some of the descriptors that are ready, or none at the end of the
timeout. -/
def Batch (s : Stopping H) (batch : List (Int × EpollEvents)) : Prop :=
  (batch.map Prod.fst).Nodup ∧ ∀ ev ∈ batch, s.reported eof fdOf ev.1 = some ev.2

instance (s : Stopping H) (batch : List (Int × EpollEvents)) : Decidable (s.Batch eof fdOf batch) :=
  inferInstanceAs (Decidable (_ ∧ _))

/-- A descriptor that is no end of the pipe. -/
def Foreign (s : Stopping H) (fd : Int) : Prop :=
  ∀ p ∈ s.pipe.toList, fdOf p.iop ≠ fd ∧ (p.writer = true → p.wfd ≠ fd)

instance (s : Stopping H) (fd : Int) : Decidable (s.Foreign fdOf fd) :=
  inferInstanceAs (Decidable (∀ p ∈ s.pipe.toList, _))

/-- Somebody holds the read end. -/
def Held (s : Stopping H) (p : StopPipe) : Prop :=
  (s.stopAt ≠ .returned ∧ s.stopAt ≠ .threw) ∨ (∃ e ∈ s.once.loop.evl.fds, e.iop = p.iop) ∨
    ∃ cb ∈ s.once.loop.evl.fdCbs, cb.iop = p.iop

instance (s : Stopping H) (p : StopPipe) : Decidable (s.Held p) :=
  inferInstanceAs (Decidable (_ ∨ _))

/-- The two functions, statement by statement, and what others may do in between. -/
def step (s : Stopping H) : StopLabel H → Option (Stopping H)
  | .start => if s.loopAt = .notStarted then some { s with loopAt := .atTest } else none
  | .test =>
    if s.loopAt = .atTest then
      some { s with loopAt := if s.stop = true then .done else .atPoll }
    else none
  | .enter => if s.loopAt = .atPoll then some { s with loopAt := .blocked } else none
  | .wake batch =>
    if s.loopAt = .blocked ∧ s.Batch eof fdOf batch then
      some { s with
        once := ⟨s.once.loop, batch, [], []⟩
        loopAt := .dispatching
        batches := if s.stop = true then s.batches + 1 else s.batches }
    else none
  | .round l =>
    if s.loopAt = .dispatching then
      match LoopOnce.step epoll fdOf s.once l with
      | some once => some { s with once }
      | none => none
    else none
  | .finish =>
    -- `loop_once` returns when every event and every handler has had its round
    if s.loopAt = .dispatching ∧ s.once.pending.isEmpty = true ∧
        s.once.loop.evl.fdCbs.isEmpty = true then
      some { s with loopAt := .atTest }
    else none
  | .setStop =>
    if s.stopAt = .idle then
      some { s with
        stop := true
        stopAt := .stopSet
        batches := if s.loopAt = .dispatching then 1 else 0 }
    else none
  | .getPipes none => if s.stopAt = .stopSet then some { s with stopAt := .threw } else none
  | .getPipes (some (iop, wfd)) =>
    -- `pipe` gives two descriptors that are not open
    if s.stopAt = .stopSet ∧ s.kernel.opened (fdOf iop) = false ∧ s.kernel.opened wfd = false ∧
        fdOf iop ≠ wfd then
      some { s.setKernel ((s.kernel.openFd (fdOf iop)).openFd wfd) with
        stopAt := .created
        pipe := some ⟨iop, wfd, true⟩ }
    else none
  | .emplace =>
    match s.pipe with
    | some p =>
      if s.stopAt = .created then
        let evl := s.once.loop.evl.emplace ⟨fdOf p.iop, .p6, p.iop, handler, .fdReadable⟩
        some { s with
          once := { s.once with loop := { s.once.loop with evl } }
          stopAt := .emplaced }
      else none
    | none => none
  | .activate =>
    match s.pipe with
    | some p =>
      if s.stopAt = .emplaced then
        match epoll.activate s.kernel (fdOf p.iop) .fdReadable with
        | (.ok (), k) => some { s.setKernel k with stopAt := .activated }
        | (.error _, k) =>
          some { s.setKernel (k.close p.wfd) with
            stopAt := .threw
            pipe := some { p with writer := false } }
      else none
    | none => none
  | .closeWrite =>
    match s.pipe with
    | some p =>
      if s.stopAt = .activated then
        some { s.setKernel (s.kernel.close p.wfd) with
          stopAt := .returned
          pipe := some { p with writer := false } }
      else none
    | none => none
  | .release =>
    match s.pipe with
    | some p =>
      -- the last reference to the reading end goes, and its destructor closes it
      if ¬ s.Held p then some { s.setKernel (s.kernel.close (fdOf p.iop)) with pipe := none }
      else none
    | none => none
  | .other c =>
    if s.Foreign fdOf (c.fd fdOf) then
      some { s with once := { s.once with loop := (epoll.call fdOf s.once.loop c).2 } }
    else none
  | .opened fd =>
    if s.kernel.opened fd = false then some (s.setKernel (s.kernel.openFd fd)) else none
  | .closed fd => if s.Foreign fdOf fd then some (s.setKernel (s.kernel.close fd)) else none
  | .becomes fd ready => some { s with ready := Function.update s.ready fd ready }

/-- Neither thread has begun. The tables are any. -/
structure Start (s : Stopping H) : Prop where
  stop : s.stop = false
  loopAt : s.loopAt = .notStarted
  stopAt : s.stopAt = .idle
  pipe : s.pipe = none
  batches : s.batches = 0

/-- In the poller, with nothing to wake it. -/
def Missed (s : Stopping H) : Prop :=
  s.stopAt = .returned ∧ s.loopAt = .blocked ∧ ∀ fd, s.reported eof fdOf fd = none

end

variable {eof : EpollEvents} {fdOf : ConnId → Int} {handler : H} {s s' : Stopping H}
  {l : StopLabel H}

/-! ## What others leave alone

A call of `fd_register` or `fd_remove` for one descriptor leaves the entries and the interest in any
other one. -/

theorem ctlAdd_epoll_of_ne {k k' : Kernel} {fd fd' : Int} {ev : EpollEvents}
    (h : k.ctlAdd fd ev = .ok k') (hne : fd ≠ fd') : k'.epoll fd' = k.epoll fd' := by
  rw [Kernel.ctlAdd_eq_ok h]
  exact Function.update_of_ne hne.symm _ _

theorem ctlDel_epoll_of_ne {k k' : Kernel} {fd fd' : Int} (h : k.ctlDel fd = .ok k')
    (hne : fd ≠ fd') : k'.epoll fd' = k.epoll fd' := by
  rw [Kernel.ctlDel_eq_ok h]
  exact Function.update_of_ne hne.symm _ _

/-- A call on one descriptor leaves the epoll set for another. -/
theorem epoll_call_of_ne (loop : PolledLoop H Kernel) (c : Call H) {fd : Int}
    (hne : c.fd fdOf ≠ fd) :
    (epoll.call fdOf loop c).2.poller.epoll fd = loop.poller.epoll fd := by
  cases c with
  | register iop evType handler activate prio =>
      rw [Backend.call, Backend.poller_fdRegister]
      split
      · simp only [epoll]
        split
        case h_1 k' hadd => exact ctlAdd_epoll_of_ne hadd hne
        case h_2 => rfl
      · rfl
  | remove iop clean deactivate =>
      rw [Backend.call, Backend.poller_fdRemove]
      split
      · simp only [epoll]
        split
        case h_1 k' hdel => exact ctlDel_epoll_of_ne hdel hne
        case h_2 => rfl
      · rfl

/-- And the entries of the other. -/
theorem mem_fds_call (loop : PolledLoop H Kernel) (c : Call H) {e : Entry H}
    (he : e ∈ loop.evl.fds) (hne : c.fd fdOf ≠ e.fd) :
    e ∈ (epoll.call fdOf loop c).2.evl.fds := by
  cases c with
  | register iop evType handler activate prio =>
      rw [Backend.call, Backend.fds_fdRegister]
      exact List.mem_append_left _ he
  | remove iop clean deactivate =>
      rw [Backend.call, Backend.fds_fdRemove]
      split
      · exact List.mem_filter.mpr ⟨he, decide_eq_true hne.symm⟩
      · exact he

/-! ## The invariant

From the moment the pipe is registered until its handler is in the queue, epoll watches it and the
table has its entry. This holds while the loop blocks, and is why the wake-up cannot be missed. -/

/-- The loop will be, or is, in the poller without another test. -/
def Waiting (s : Stopping H) : Prop := s.loopAt = .atPoll ∨ s.loopAt = .blocked

/-- How far the registration of the pipe has come. -/
structure Registered (fdOf : ConnId → Int) (s : Stopping H) (p : StopPipe) : Prop where
  entry : ∃ e ∈ s.once.loop.evl.fds, e.fd = fdOf p.iop ∧ e.iop = p.iop
  active : s.stopAt ≠ .emplaced → s.kernel.epoll (fdOf p.iop) = some (fdMapToSys .fdReadable)
  hungUp : s.stopAt = .returned → p.writer = false

structure Inv (fdOf : ConnId → Int) (s : Stopping H) : Prop where
  stop : s.stop = true ↔ s.stopAt ≠ .idle
  ends : ∀ p, s.pipe = some p → p.wfd ≠ fdOf p.iop
  /-- Who is in the poller has been on the way there since before `stop_` was set, and has not
  dispatched: nobody has taken the pipe out again. -/
  pipe : s.Waiting → s.stopAt = .emplaced ∨ s.stopAt = .activated ∨ s.stopAt = .returned →
    ∃ p, s.pipe = some p ∧ Registered fdOf s p
  before : s.stop = false → s.batches = 0
  waiting : s.Waiting → s.batches = 0
  atMost : s.batches ≤ 1

theorem Start.inv (h : Start s) : Inv fdOf s where
  stop := by simp [h.stop, h.stopAt]
  ends := by simp [h.pipe]
  pipe := by simp [Waiting, h.loopAt]
  before := fun _ => h.batches
  waiting := fun _ => h.batches
  atMost := by simp [h.batches]

/-! ### Steps that do not matter -/

/-- A step of the loop's thread that does not lead into the poller. -/
theorem Inv.of_not_waiting (hi : Inv fdOf s) (hstop : s'.stop = s.stop)
    (hstopAt : s'.stopAt = s.stopAt) (hpipe : s'.pipe = s.pipe) (hbatches : s'.batches = s.batches)
    (hw : ¬ s'.Waiting) : Inv fdOf s' where
  stop := by rw [hstop, hstopAt]; exact hi.stop
  ends := by rw [hpipe]; exact hi.ends
  pipe := fun h => absurd h hw
  before := by rw [hstop, hbatches]; exact hi.before
  waiting := fun h => absurd h hw
  atMost := by rw [hbatches]; exact hi.atMost

/-- A step of another thread. -/
theorem Inv.of_loopAt (hi : Inv fdOf s) (hloopAt : s'.loopAt = s.loopAt) (hstop : s'.stop = s.stop)
    (hbatches : s'.batches = s.batches) (hidle : s'.stopAt = .idle ↔ s.stopAt = .idle)
    (hends : ∀ p, s'.pipe = some p → p.wfd ≠ fdOf p.iop)
    (hpipe : s.Waiting →
      s'.stopAt = .emplaced ∨ s'.stopAt = .activated ∨ s'.stopAt = .returned →
      ∃ p, s'.pipe = some p ∧ Registered fdOf s' p) : Inv fdOf s' where
  stop := by rw [hstop, Ne, hidle]; exact hi.stop
  ends := hends
  pipe := by rw [Waiting, hloopAt]; exact hpipe
  before := by rw [hstop, hbatches]; exact hi.before
  waiting := by rw [Waiting, hloopAt, hbatches]; exact hi.waiting
  atMost := by rw [hbatches]; exact hi.atMost

/-- One that leaves the pipe's part of the tables. -/
theorem Inv.of_frame (hi : Inv fdOf s) (hloopAt : s'.loopAt = s.loopAt) (hstop : s'.stop = s.stop)
    (hbatches : s'.batches = s.batches) (hstopAt : s'.stopAt = s.stopAt) (hpipe : s'.pipe = s.pipe)
    (hsame : ∀ p, s.pipe = some p → Registered fdOf s p → Registered fdOf s' p) : Inv fdOf s' := by
  refine hi.of_loopAt hloopAt hstop hbatches (by rw [hstopAt]) (by rw [hpipe]; exact hi.ends) ?_
  intro hw hat
  rw [hstopAt] at hat
  obtain ⟨p, hp, hreg⟩ := hi.pipe hw hat
  exact ⟨p, hpipe.trans hp, hsame p hp hreg⟩

theorem foreign_ne {p : StopPipe} {fd : Int} (hp : s.pipe = some p) (h : s.Foreign fdOf fd) :
    fd ≠ fdOf p.iop :=
  (h p (by simp [hp])).1.symm

/-! ### The step lemma -/

/-- The steps of the loop's own thread. -/
theorem Inv.step_loop (hi : Inv fdOf s) (h : step eof fdOf handler s l = some s')
    (hl : l = .start ∨ l = .test ∨ l = .enter ∨ (∃ batch, l = .wake batch) ∨
      (∃ l', l = .round l') ∨ l = .finish) : Inv fdOf s' := by
  rcases hl with rfl | rfl | rfl | ⟨batch, rfl⟩ | ⟨l', rfl⟩ | rfl
  · simp only [step, Option.ite_none_right_eq_some, Option.some.injEq] at h
    obtain ⟨-, rfl⟩ := h
    exact hi.of_not_waiting rfl rfl rfl rfl (by simp [Waiting])
  · simp only [step, Option.ite_none_right_eq_some, Option.some.injEq] at h
    obtain ⟨-, rfl⟩ := h
    by_cases hstop : s.stop = true
    · exact hi.of_not_waiting rfl rfl rfl rfl (by simp [Waiting, hstop])
    · -- the pipe does not exist yet
      have hidle : s.stopAt = .idle := by
        by_contra hne
        exact hstop (hi.stop.mpr hne)
      have hnone : s.batches = 0 := hi.before (by simpa using hstop)
      refine ⟨hi.stop, hi.ends, fun _ hat => ?_, hi.before, fun _ => hnone, hi.atMost⟩
      simp [hidle] at hat
  · simp only [step, Option.ite_none_right_eq_some, Option.some.injEq] at h
    obtain ⟨hat, rfl⟩ := h
    -- the loop blocks with the pipe registered, so it will be woken up
    have hw : s.Waiting := .inl hat
    refine ⟨hi.stop, hi.ends, fun _ hpipe => ?_, hi.before, fun _ => hi.waiting hw, hi.atMost⟩
    obtain ⟨p, hp, hreg⟩ := hi.pipe hw hpipe
    exact ⟨p, hp, hreg.entry, hreg.active, hreg.hungUp⟩
  · simp only [step, Option.ite_none_right_eq_some, Option.some.injEq] at h
    obtain ⟨⟨hat, -⟩, rfl⟩ := h
    have hnone : s.batches = 0 := hi.waiting (.inr hat)
    refine ⟨hi.stop, hi.ends, by simp [Waiting], fun hstop => ?_, by simp [Waiting], ?_⟩
    · show (if s.stop = true then s.batches + 1 else s.batches) = 0
      rw [if_neg (by simpa using hstop), hnone]
    · -- the batch that is counted is the only one
      show (if s.stop = true then s.batches + 1 else s.batches) ≤ 1
      split <;> omega
  · simp only [step, Option.ite_none_right_eq_some] at h
    obtain ⟨hat, h⟩ := h
    split at h
    case h_1 once honce =>
      obtain rfl := Option.some.inj h
      exact hi.of_not_waiting rfl rfl rfl rfl (by simp [Waiting, hat])
    case h_2 => cases h
  · simp only [step, Option.ite_none_right_eq_some, Option.some.injEq] at h
    obtain ⟨-, rfl⟩ := h
    exact hi.of_not_waiting rfl rfl rfl rfl (by simp [Waiting])

/-- What has been activated is watched. -/
theorem activate_ok {k k' : Kernel} {fd : Int} {ev : FdEvent}
    (h : epoll.activate k fd ev = (.ok (), k')) : k'.epoll fd = some (fdMapToSys ev) := by
  simp only [epoll] at h
  split at h
  case h_1 k'' hadd =>
    obtain rfl : k'' = k' := congrArg Prod.snd h
    simp only [Kernel.ctlAdd] at hadd
    split at hadd
    · cases hadd
    · split at hadd
      · cases hadd
      · obtain rfl := Except.ok.inj hadd
        exact Function.update_self ..
  case h_2 => cases congrArg Prod.fst h

/-- The steps of `stop_loop_forever`. -/
theorem Inv.step_stopper (hi : Inv fdOf s) (h : step eof fdOf handler s l = some s')
    (hl : l = .setStop ∨ (∃ ends, l = .getPipes ends) ∨ l = .emplace ∨ l = .activate ∨
      l = .closeWrite) : Inv fdOf s' := by
  rcases hl with rfl | ⟨_ | ⟨iop, wfd⟩, rfl⟩ | rfl | rfl | rfl
  · simp only [step, Option.ite_none_right_eq_some, Option.some.injEq] at h
    obtain ⟨-, rfl⟩ := h
    refine ⟨by simp, hi.ends, by simp, by simp, fun hw => ?_, ?_⟩
    · rcases hw with hat | hat <;> simp only at hat <;> simp [hat]
    · show (if s.loopAt = .dispatching then 1 else 0) ≤ 1
      split <;> omega
  · simp only [step, Option.ite_none_right_eq_some, Option.some.injEq] at h
    obtain ⟨hat, rfl⟩ := h
    exact hi.of_loopAt rfl rfl rfl (by simp [hat]) hi.ends (by simp)
  · simp only [step, Option.ite_none_right_eq_some, Option.some.injEq] at h
    obtain ⟨⟨hat, -, -, hne⟩, rfl⟩ := h
    refine hi.of_loopAt rfl rfl rfl (by simp [hat]) ?_ (by simp)
    intro p hp
    obtain rfl := Option.some.inj hp
    exact hne.symm
  · simp only [step] at h
    split at h
    case h_1 p hp =>
      simp only [Option.ite_none_right_eq_some, Option.some.injEq] at h
      obtain ⟨hat, rfl⟩ := h
      refine hi.of_loopAt rfl rfl rfl (by simp [hat]) hi.ends fun _ _ => ⟨p, hp, ?_, ?_, ?_⟩
      · exact ⟨_, List.mem_append_right _ (List.mem_singleton_self _), rfl, rfl⟩
      · exact fun hne => absurd rfl hne
      · exact fun hreturned => nomatch hreturned
    case h_2 => cases h
  · simp only [step] at h
    split at h
    case h_1 p hp =>
      simp only [Option.ite_none_right_eq_some] at h
      obtain ⟨hat, h⟩ := h
      split at h
      case h_1 k hactivate =>
        obtain rfl := Option.some.inj h
        refine hi.of_loopAt rfl rfl rfl (by simp [hat]) hi.ends fun hw _ => ?_
        obtain ⟨p', hp', hreg⟩ := hi.pipe hw (.inl hat)
        obtain rfl : p = p' := Option.some.inj (hp.symm.trans hp')
        exact ⟨p, hp, hreg.entry, fun _ => activate_ok hactivate, fun hr => nomatch hr⟩
      case h_2 =>
        obtain rfl := Option.some.inj h
        refine hi.of_loopAt rfl rfl rfl (by simp [hat]) ?_ (by simp)
        intro p' hp'
        obtain rfl := Option.some.inj hp'
        exact hi.ends p hp
    case h_2 => cases h
  · simp only [step] at h
    split at h
    case h_1 p hp =>
      simp only [Option.ite_none_right_eq_some, Option.some.injEq] at h
      obtain ⟨hat, rfl⟩ := h
      refine hi.of_loopAt rfl rfl rfl (by simp [hat]) ?_ fun hw _ => ?_
      · intro p' hp'
        obtain rfl := Option.some.inj hp'
        exact hi.ends p hp
      · obtain ⟨p', hp', hreg⟩ := hi.pipe hw (.inr (.inl hat))
        obtain rfl : p = p' := Option.some.inj (hp.symm.trans hp')
        refine ⟨_, rfl, hreg.entry, fun _ => ?_, fun _ => rfl⟩
        -- closing the write end leaves the read end in the epoll set
        have hsame : (s.kernel.close p.wfd).epoll (fdOf p.iop) = s.kernel.epoll (fdOf p.iop) :=
          Function.update_of_ne (hi.ends p hp).symm _ _
        exact hsame.trans (hreg.active (by simp [hat]))
    case h_2 => cases h

/-- What others do, and the end of the pipe. -/
theorem Inv.step_others (hi : Inv fdOf s) (h : step eof fdOf handler s l = some s')
    (hl : l = .release ∨ (∃ c, l = .other c) ∨ (∃ fd, l = .opened fd) ∨ (∃ fd, l = .closed fd) ∨
      ∃ fd ready, l = .becomes fd ready) : Inv fdOf s' := by
  rcases hl with rfl | ⟨c, rfl⟩ | ⟨fd, rfl⟩ | ⟨fd, rfl⟩ | ⟨fd, ready, rfl⟩
  · simp only [step] at h
    split at h
    case h_1 p hp =>
      simp only [Option.ite_none_right_eq_some, Option.some.injEq] at h
      obtain ⟨hfree, rfl⟩ := h
      refine hi.of_loopAt rfl rfl rfl Iff.rfl (by simp) fun hw hat => ?_
      -- the entry would still hold the read end
      obtain ⟨p', hp', hreg⟩ := hi.pipe hw hat
      obtain rfl : p = p' := Option.some.inj (hp.symm.trans hp')
      obtain ⟨e, he, -, hiop⟩ := hreg.entry
      exact absurd (.inr (.inl ⟨e, he, hiop⟩)) hfree
    case h_2 => cases h
  · simp only [step, Option.ite_none_right_eq_some, Option.some.injEq] at h
    obtain ⟨hforeign, rfl⟩ := h
    refine hi.of_frame rfl rfl rfl rfl rfl fun p hp hreg => ?_
    have hne := foreign_ne hp hforeign
    obtain ⟨e, he, hfd, hiop⟩ := hreg.entry
    refine ⟨⟨e, mem_fds_call _ c he (hfd ▸ hne), hfd, hiop⟩, fun hat => ?_, hreg.hungUp⟩
    exact (epoll_call_of_ne _ c hne).trans (hreg.active hat)
  · simp only [step, Option.ite_none_right_eq_some, Option.some.injEq] at h
    obtain ⟨-, rfl⟩ := h
    exact hi.of_frame rfl rfl rfl rfl rfl fun p _ hreg => ⟨hreg.entry, hreg.active, hreg.hungUp⟩
  · simp only [step, Option.ite_none_right_eq_some, Option.some.injEq] at h
    obtain ⟨hforeign, rfl⟩ := h
    refine hi.of_frame rfl rfl rfl rfl rfl fun p hp hreg => ?_
    refine ⟨hreg.entry, fun hat => ?_, hreg.hungUp⟩
    have hsame : (s.kernel.close fd).epoll (fdOf p.iop) = s.kernel.epoll (fdOf p.iop) :=
      Function.update_of_ne (foreign_ne hp hforeign).symm _ _
    exact hsame.trans (hreg.active hat)
  · obtain rfl := Option.some.inj h
    exact hi.of_frame rfl rfl rfl rfl rfl fun p _ hreg => ⟨hreg.entry, hreg.active, hreg.hungUp⟩

theorem Inv.step (hi : Inv fdOf s) (h : Stopping.step eof fdOf handler s l = some s') :
    Inv fdOf s' := by
  cases l with
  | start | test | enter | wake | round | finish => exact hi.step_loop h (by simp)
  | setStop | getPipes | emplace | activate | closeWrite => exact hi.step_stopper h (by simp)
  | release | other | opened | closed | becomes => exact hi.step_others h (by simp)

/-! ## The theorem

A blocked loop has a reason to wake up, and after it one batch is dispatched at most. -/

/-- The pipe is reported. -/
theorem Registered.reported {p : StopPipe} (h : Registered fdOf s p) (hp : s.pipe = some p)
    (hat : s.stopAt = .returned)
    (heof : eof.epollin = true ∨ eof.epollhup = true ∨ eof.epollerr = true) :
    s.reported eof fdOf (fdOf p.iop) ≠ none := by
  have hready : s.readiness eof fdOf (fdOf p.iop) = eof := by
    simp [readiness, hp, h.hungUp hat]
  have hactive := h.active (by simp [hat])
  simp only [Stopping.reported, hactive, hready]
  rw [if_neg]
  · exact Option.some_ne_none _
  · intro hnothing
    simp only [EpollEvents.shown, fdMapToSys, FdEvent.fdReadable, EpollEvents.mk.injEq,
      Bool.true_and, Bool.false_and] at hnothing
    obtain ⟨hin, -, hhup, herr⟩ := hnothing
    simp [hin, hhup, herr] at heof

/-- **Stopping cannot be missed.** If the poller reports a pipe whose write end is closed, in no order
of the steps of the two threads and of others is `loop_forever` in the poller with nothing reported
when `stop_loop_forever` has returned; and once `stop_` is set, what is dispatched is at most one
batch. -/
theorem stop_not_missed
    (heof : eof.epollin = true ∨ eof.epollhup = true ∨ eof.epollerr = true) {s₀ : Stopping H}
    (hstart : s₀.Start) {ls : List (StopLabel H)}
    (hrun : run (Stopping.step eof fdOf handler) s₀ ls = some s) :
    ¬ s.Missed eof fdOf ∧ s.batches ≤ 1 := by
  have hinv : Inv fdOf s :=
    run_inv _ (fun _ _ => True) (Inv fdOf) (fun _ _ _ hi _ hstep => hi.step hstep) hstart.inv
      (allSteps_true ..) hrun
  refine ⟨?_, hinv.atMost⟩
  rintro ⟨hreturned, hblocked, hnothing⟩
  obtain ⟨p, hp, hreg⟩ := hinv.pipe (.inr hblocked) (.inr (.inr hreturned))
  exact hreg.reported hp hreturned heof (hnothing _)

/-- A loop with nothing registered. -/
def idle : Stopping Nat where
  once := ⟨⟨⟨0, [], []⟩, ⟨fun _ => false, fun _ => none⟩⟩, [], [], []⟩
  stop := false
  loopAt := .notStarted
  stopAt := .idle
  pipe := none
  ready := fun _ => ⟨false, false, false, false⟩
  batches := 0

/-- What Linux reports: `EPOLLHUP`. -/
def hangUp : EpollEvents := ⟨false, false, true, false⟩

/-- The loop is in the poller when it is stopped, the pipe wakes it. -/
def stoppedInPoll : List (StopLabel Nat) :=
  [.start, .test, .enter, .setStop, .getPipes (some (5, 6)), .emplace, .activate, .closeWrite]

/-- `stop_` is set while the loop blocks. -/
theorem stop_not_missed_inPoll :
    ∃ s, run (Stopping.step hangUp Int.ofNat 0) idle stoppedInPoll = some s ∧
      s.stopAt = .returned ∧ s.loopAt = .blocked ∧ (¬ s.Missed hangUp Int.ofNat ∧ s.batches ≤ 1) ∧
      run (Stopping.step hangUp Int.ofNat 0) s
        [.wake [(5, hangUp)], .round .scan, .finish, .test] ≠ none := by
  refine ⟨_, rfl, rfl, rfl, ?_, fun h => nomatch h⟩
  exact @stop_not_missed Nat hangUp Int.ofNat 0 _ (.inr (.inl rfl)) idle ⟨rfl, rfl, rfl, rfl, rfl⟩
    stoppedInPoll rfl

end Stopping

end Cppev
