import Mathlib.Data.List.Nodup
import Cppev.EventLoop.LoopOnce

/-!
# What a poll wakes the loop for

epoll reports the end of a pipe whose last writer has gone (`EPOLLHUP`) and errors (`EPOLLERR`)
without being asked, and these alone if there is nothing to read. `fd_map_to_event` knows only
`EPOLLIN` and `EPOLLOUT`. On kqueue the end of a pipe comes with the filter for reading.

* `reaches_iff`: which of the reported events reach a handler of their descriptor, and when the loop
  is woken for ever without invoking one.
* `kqueue_reaches`: on kqueue each of them does.
-/

namespace Cppev

variable {H K E : Type}

/-! ## Rounds of a loop -/

/-- A call of `loop_once` in which the poll has given `batch`, and which ends. Nobody but the
handlers registers or removes before the queue is filled. -/
def Returned (b : Backend K E) (fdOf : ConnId → Int) (loop : PolledLoop H K)
    (batch : List (Int × E)) (ran : List (FdCb H)) (loop' : PolledLoop H K) : Prop :=
  ∃ ls s, run (LoopOnce.step b fdOf) ⟨loop, batch, [], []⟩ ls = some s ∧
    AllSteps (LoopOnce.step b fdOf) LoopOnce.OnlyHandlers ⟨loop, batch, [], []⟩ ls ∧
    s.Done ∧ s.ran = ran ∧ s.loop = loop'

/-- Rounds of `loop_forever`, each with what the poll gave and what was invoked. -/
inductive Rounds (b : Backend K E) (fdOf : ConnId → Int) :
    PolledLoop H K → List (List (Int × E) × List (FdCb H)) → PolledLoop H K → Prop
  | nil (loop : PolledLoop H K) : Rounds b fdOf loop [] loop
  | cons {loop loop' loop'' : PolledLoop H K} {batch : List (Int × E)} {ran : List (FdCb H)}
      {rounds : List (List (Int × E) × List (FdCb H))} (reported : b.Batch loop.poller batch)
      (once : Returned b fdOf loop batch ran loop') (more : Rounds b fdOf loop' rounds loop'') :
      Rounds b fdOf loop ((batch, ran) :: rounds) loop''

/-- The table names each entry's descriptor, and the queue is empty. -/
structure PolledLoop.Between (fdOf : ConnId → Int) (loop : PolledLoop H K) : Prop where
  named : ∀ e ∈ loop.evl.fds, e.fd = fdOf e.iop
  queue : loop.evl.fdCbs = []

/-- The event is for reading and the descriptor has a handler for that, or for writing. -/
def EventLoop.Answers (evl : EventLoop H) (ev : Int × EpollEvents) : Prop :=
  (ev.2.epollin = true ∧ ∃ e ∈ evl.fds, e.fd = ev.1 ∧ e.ev.readable = true) ∨
    (ev.2.epollout = true ∧ ∃ e ∈ evl.fds, e.fd = ev.1 ∧ e.ev.writable = true)

/-- The descriptor has a handler for each event that is active. -/
structure EventLoop.Handles (evl : EventLoop H) (fd : Int) (active : FdEvent) : Prop where
  readable : active.readable = true → ∃ e ∈ evl.fds, e.fd = fd ∧ e.ev.readable = true
  writable : active.writable = true → ∃ e ∈ evl.fds, e.fd = fd ∧ e.ev.writable = true

variable {b : Backend K E} {fdOf : ConnId → Int} {loop loop' : PolledLoop H K}
  {batch : List (Int × E)} {ran : List (FdCb H)}

/-! ## One call

Whatever the batch is, the rounds of `loop_once` come to an end, with all that was found invoked. A
batch that finds nothing leaves the loop exactly as it was, so that the next poll reports the
same. -/

namespace LoopOnce

theorem exists_drained (s : LoopOnce H K E) (hpending : s.pending = []) :
    ∃ ls s', run (step b fdOf) s ls = some s' ∧ s'.Done ∧ ∀ l ∈ ls, l.round = true := by
  induction hlen : s.loop.evl.fdCbs.length generalizing s with
  | zero => exact ⟨[], s, rfl, ⟨hpending, List.length_eq_zero_iff.mp hlen⟩, by simp⟩
  | succ n ih =>
      have hqueue : s.loop.evl.fdCbs ≠ [] := List.ne_nil_of_length_eq_add_one hlen
      obtain ⟨i, cb, evl, hpop⟩ := Dispatch.exists_pop hqueue
      have hstep : step b fdOf s (.invoke i) =
          some { s with loop := { s.loop with evl }, ran := s.ran ++ [cb] } := by
        simp [step, hpending, hpop]
      have hshorter : evl.fdCbs.length = n := by
        obtain ⟨hget, -, -, rfl⟩ := Dispatch.pop_spec hpop
        have hi : i < s.loop.evl.fdCbs.length := (List.getElem?_eq_some_iff.mp hget).1
        rw [List.length_eraseIdx_of_lt hi, hlen]
        rfl
      obtain ⟨ls, s', hrun, hdone, hrounds⟩ :=
        ih { s with loop := { s.loop with evl }, ran := s.ran ++ [cb] } hpending hshorter
      refine ⟨.invoke i :: ls, s', ?_, hdone, List.forall_mem_cons.mpr ⟨rfl, hrounds⟩⟩
      rw [run_cons_of_some hstep]
      exact hrun

theorem exists_done (s : LoopOnce H K E) :
    ∃ ls s', run (step b fdOf) s ls = some s' ∧ s'.Done ∧ ∀ l ∈ ls, l.round = true := by
  induction hpending : s.pending generalizing s with
  | nil => exact exists_drained s hpending
  | cons ev rest ih =>
      let next : LoopOnce H K E := { s with
        loop := { s.loop with evl := b.enqueue s.loop.evl ev.1 ev.2 }
        pending := rest
        seen := s.seen ++ [(ev, s.loop.evl.fds)] }
      have hstep : step b fdOf s .scan = some next := by simp [step, hpending, next]
      obtain ⟨ls, s', hrun, hdone, hrounds⟩ := ih next rfl
      refine ⟨.scan :: ls, s', ?_, hdone, List.forall_mem_cons.mpr ⟨rfl, hrounds⟩⟩
      rw [run_cons_of_some hstep]
      exact hrun

/-- Rounds that find nothing leave the loop as it is. -/
theorem run_unmatched (s : LoopOnce H K E) (hqueue : s.loop.evl.fdCbs = [])
    (h : ∀ ev ∈ s.pending, b.matching s.loop.evl.fds ev = []) :
    ∃ ls s', run (step b fdOf) s ls = some s' ∧ s'.Done ∧ s'.ran = s.ran ∧ s'.loop = s.loop ∧
      ∀ l ∈ ls, l.round = true := by
  induction hpending : s.pending generalizing s with
  | nil => exact ⟨[], s, rfl, ⟨hpending, hqueue⟩, rfl, rfl, by simp⟩
  | cons ev rest ih =>
      rw [hpending] at h
      obtain ⟨hev, hrest⟩ := List.forall_mem_cons.mp h
      have hsame : b.enqueue s.loop.evl ev.1 ev.2 = s.loop.evl := by
        have hfdCbs := fdCbs_enqueue (b := b) s.loop.evl ev
        rw [hev, List.append_nil] at hfdCbs
        simp only [Backend.enqueue] at hfdCbs ⊢
        rw [hfdCbs]
      let next : LoopOnce H K E := { s with
        pending := rest
        seen := s.seen ++ [(ev, s.loop.evl.fds)] }
      have hstep : step b fdOf s .scan = some next := by simp [step, hpending, hsame, next]
      obtain ⟨ls, s', hrun, hdone, hran, hloop, hrounds⟩ := ih next hqueue hrest rfl
      refine ⟨.scan :: ls, s', ?_, hdone, hran, hloop, List.forall_mem_cons.mpr ⟨rfl, hrounds⟩⟩
      rw [run_cons_of_some hstep]
      exact hrun

theorem onlyHandlers_of_rounds {ls : List (LoopOnceLabel H)} (h : ∀ l ∈ ls, l.round = true)
    (s : LoopOnce H K E) : AllSteps (step b fdOf) OnlyHandlers s ls := by
  refine allSteps_of_forall (fun l hl s => ?_) s
  cases l with
  | scan => exact trivial
  | invoke i => exact trivial
  | call c => exact absurd (h _ hl) Bool.false_ne_true

end LoopOnce

/-- `loop_once` returns. -/
theorem exists_returned (b : Backend K E) (fdOf : ConnId → Int) (loop : PolledLoop H K)
    (batch : List (Int × E)) : ∃ ran loop', Returned b fdOf loop batch ran loop' := by
  have hends : ∃ ls s', run (LoopOnce.step b fdOf) ⟨loop, batch, [], []⟩ ls = some s' ∧
      s'.Done ∧ ∀ l ∈ ls, l.round = true := LoopOnce.exists_done _
  obtain ⟨ls, s, hrun, hdone, hrounds⟩ := hends
  exact ⟨s.ran, s.loop, ls, s, hrun, LoopOnce.onlyHandlers_of_rounds hrounds _, hdone, rfl, rfl⟩

/-- What it has invoked then. -/
theorem Returned.perm (hbetween : loop.Between fdOf) (h : Returned b fdOf loop batch ran loop') :
    ran.Perm (batch.flatMap (b.matching loop.evl.fds)) := by
  obtain ⟨ls, s, hrun, hok, hdone, rfl, -⟩ := h
  have hstart : LoopOnce.Start (⟨loop, batch, [], []⟩ : LoopOnce H K E) :=
    ⟨hbetween.queue, rfl, rfl⟩
  have hinv : LoopOnce.Inv b batch s :=
    run_inv _ (fun _ _ => True) (LoopOnce.Inv b batch) (fun _ _ _ hi _ hstep => hi.step hstep)
      hstart.inv (allSteps_true ..) hrun
  have hdispatched := hinv.dispatched hdone
  have huntouched : LoopOnce.Untouched loop.evl.fds s := by
    refine run_inv _ LoopOnce.OnlyHandlers (LoopOnce.Untouched loop.evl.fds)
      (fun _ _ _ hi hl hstep => hi.step hl hstep) ⟨fun _ => rfl, ?_⟩ hok hrun
    simp
  have hran := hdispatched.ran
  rwa [huntouched.due, hdispatched.events] at hran

theorem mem_matching {fds : List (Entry H)} {ev : Int × E} {cb : FdCb H} :
    cb ∈ b.matching fds ev ↔
      ∃ e ∈ fds, e.fd = ev.1 ∧ e.ev.meets (b.toEvent ev.2) = true ∧ e.cb = cb := by
  simp [Backend.matching, and_assoc]

/-- A handler of a descriptor has been invoked if an event of this descriptor found one. -/
theorem Returned.mem_iff (hbetween : loop.Between fdOf) (h : Returned b fdOf loop batch ran loop')
    (fd : Int) : (∃ cb ∈ ran, fdOf cb.iop = fd) ↔
      ∃ ev ∈ batch, ev.1 = fd ∧ b.matching loop.evl.fds ev ≠ [] := by
  have hmem : ∀ cb, cb ∈ ran ↔ ∃ ev ∈ batch, cb ∈ b.matching loop.evl.fds ev := by
    intro cb
    rw [(h.perm hbetween).mem_iff, List.mem_flatMap]
  have hfd : ∀ ev cb, cb ∈ b.matching loop.evl.fds ev → fdOf cb.iop = ev.1 := by
    intro ev cb hcb
    obtain ⟨e, he, hev, -, rfl⟩ := mem_matching.mp hcb
    rw [← hev]
    exact (hbetween.named e he).symm
  constructor
  · rintro ⟨cb, hcb, rfl⟩
    obtain ⟨ev, hev, hmatch⟩ := (hmem cb).mp hcb
    exact ⟨ev, hev, (hfd ev cb hmatch).symm, List.ne_nil_of_mem hmatch⟩
  · rintro ⟨ev, hev, rfl, hne⟩
    obtain ⟨cb, hmatch⟩ := List.exists_mem_of_ne_nil _ hne
    exact ⟨cb, (hmem cb).mpr ⟨ev, hev, hmatch⟩, hfd ev cb hmatch⟩

/-- A batch that finds no handler can come for ever: the loop stays as it is. -/
theorem rounds_of_unmatched (hreported : b.Batch loop.poller batch) (hbetween : loop.Between fdOf)
    (h : ∀ ev ∈ batch, b.matching loop.evl.fds ev = []) (n : Nat) :
    Rounds b fdOf loop (List.replicate n (batch, [])) loop := by
  induction n with
  | zero => exact .nil loop
  | succ n ih =>
      let once : LoopOnce H K E := ⟨loop, batch, [], []⟩
      have hends : ∃ ls s', run (LoopOnce.step b fdOf) once ls = some s' ∧ s'.Done ∧
          s'.ran = [] ∧ s'.loop = loop ∧ ∀ l ∈ ls, l.round = true :=
        LoopOnce.run_unmatched once hbetween.queue h
      obtain ⟨ls, s, hrun, hdone, hran, hloop, hrounds⟩ := hends
      have honce : Returned b fdOf loop batch [] loop :=
        ⟨ls, s, hrun, LoopOnce.onlyHandlers_of_rounds hrounds _, hdone, hran, hloop⟩
      exact .cons hreported honce ih

/-! ## epoll

The bits that `fd_map_to_event` knows decide, if every active event has a handler. -/

theorem epoll_matching_iff {evl : EventLoop H} {ev : Int × EpollEvents} :
    epoll.matching evl.fds ev ≠ [] ↔ evl.Answers ev := by
  have hmeets : ∀ e : Entry H, e.ev.meets (epoll.toEvent ev.2) = true ↔
      (ev.2.epollin = true ∧ e.ev.readable = true) ∨
        (ev.2.epollout = true ∧ e.ev.writable = true) := by
    intro e
    simp [FdEvent.meets, epoll, fdMapToEvent, and_comm]
  constructor
  · intro hne
    obtain ⟨cb, hcb⟩ := List.exists_mem_of_ne_nil _ hne
    obtain ⟨e, he, hfd, hev, -⟩ := mem_matching.mp hcb
    rcases (hmeets e).mp hev with ⟨hin, hr⟩ | ⟨hout, hw⟩
    · exact .inl ⟨hin, e, he, hfd, hr⟩
    · exact .inr ⟨hout, e, he, hfd, hw⟩
  · intro hanswers
    have hentry : ∃ e ∈ evl.fds, e.fd = ev.1 ∧ e.ev.meets (epoll.toEvent ev.2) = true := by
      rcases hanswers with ⟨hin, e, he, hfd, hr⟩ | ⟨hout, e, he, hfd, hw⟩
      · exact ⟨e, he, hfd, (hmeets e).mpr (.inl ⟨hin, hr⟩)⟩
      · exact ⟨e, he, hfd, (hmeets e).mpr (.inr ⟨hout, hw⟩)⟩
    obtain ⟨e, he, hfd, hev⟩ := hentry
    exact List.ne_nil_of_mem (mem_matching.mpr ⟨e, he, hfd, hev, rfl⟩)

/-- If all that is active has a handler, the mask decides. -/
theorem answers_iff {evl : EventLoop H} {k : Kernel} {batch : List (Int × EpollEvents)}
    (hbatch : EventLoop.Batch k batch) {ev : Int × EpollEvents} (hev : ev ∈ batch)
    (hhandles : evl.Handles ev.1 (k.active ev.1)) :
    evl.Answers ev ↔ ev.2.epollin = true ∨ ev.2.epollout = true := by
  obtain ⟨interest, hinterest, hasked⟩ := (Option.any_eq_true _ _).mp (hbatch.2 ev hev)
  have hactive : k.active ev.1 = fdMapToEvent interest := by simp [Kernel.active, hinterest]
  -- what is reported for reading or writing has been asked for
  simp only [EpollEvents.reportable, Bool.and_eq_true, Bool.or_eq_true, Bool.not_eq_true'] at hasked
  constructor
  · rintro (⟨hin, -⟩ | ⟨hout, -⟩)
    · exact .inl hin
    · exact .inr hout
  · rintro (hin | hout)
    · have hasks : interest.epollin = true := by
        rcases hasked.1 with hnot | hasks
        · exact absurd hin (by simp [hnot])
        · exact hasks
      exact .inl ⟨hin, hhandles.readable (by rw [hactive]; exact hasks)⟩
    · have hasks : interest.epollout = true := by
        rcases hasked.2 with hnot | hasks
        · exact absurd hout (by simp [hnot])
        · exact hasks
      exact .inr ⟨hout, hhandles.writable (by rw [hactive]; exact hasks)⟩

/-- **What reaches a handler.** When `loop_once` returns, a handler of a descriptor has been invoked
if and only if the event reported for it is one for reading with a handler for that, or one for
writing; where all that is active has a handler: if and only if the mask has `EPOLLIN` or `EPOLLOUT`.
The loop can be woken by a batch for ever and invoke nothing if and only if no event of it is such a
one. -/
theorem reaches_iff {loop : PolledLoop H Kernel} {batch : List (Int × EpollEvents)}
    (hbetween : loop.Between fdOf) (hbatch : EventLoop.Batch loop.poller batch) :
    (∀ ev ∈ batch,
      (∀ ran loop', Returned epoll fdOf loop batch ran loop' →
        ((∃ cb ∈ ran, fdOf cb.iop = ev.1) ↔ loop.evl.Answers ev)) ∧
      (loop.evl.Handles ev.1 (loop.poller.active ev.1) →
        (loop.evl.Answers ev ↔ ev.2.epollin = true ∨ ev.2.epollout = true))) ∧
    (∃ ran loop', Returned epoll fdOf loop batch ran loop') ∧
    ((∀ n, Rounds epoll fdOf loop (List.replicate n (batch, [])) loop) ↔
      ∀ ev ∈ batch, ¬ loop.evl.Answers ev) := by
  have hreaches : ∀ ev ∈ batch, ∀ ran loop', Returned epoll fdOf loop batch ran loop' →
      ((∃ cb ∈ ran, fdOf cb.iop = ev.1) ↔ loop.evl.Answers ev) := by
    intro ev hev ran loop' hreturned
    rw [hreturned.mem_iff hbetween, ← epoll_matching_iff]
    constructor
    · rintro ⟨ev', hev', hfd, hne⟩
      -- a descriptor is in the batch once
      obtain rfl : ev' = ev := List.inj_on_of_nodup_map hbatch.1 hev' hev hfd
      exact hne
    · intro hne
      exact ⟨ev, hev, rfl, hne⟩
  refine ⟨fun ev hev => ⟨hreaches ev hev, answers_iff hbatch hev⟩, exists_returned .., ?_, ?_⟩
  · intro hrounds ev hev hanswers
    cases hrounds 1 with
    | cons reported once more =>
        obtain ⟨cb, hcb, -⟩ := (hreaches ev hev _ _ once).mpr hanswers
        exact absurd hcb (by simp)
  · intro hnone
    refine rounds_of_unmatched hbatch hbetween fun ev hev => ?_
    by_contra hne
    exact hnone ev hev (epoll_matching_iff.mp hne)

/-- The loop after `stop_loop_forever`, which has registered the read end of a pipe. -/
def stopPipe : PolledLoop Nat Kernel :=
  (epoll.fdRegister Int.ofNat ⟨⟨0, [], []⟩, ⟨fun _ => true, fun _ => none⟩⟩ 5 .fdReadable (some 0)
    true .p6).2

/-- Its write end has been closed. -/
def hungUp : List (Int × EpollEvents) := [(5, ⟨false, false, true, false⟩)]

theorem between_stopPipe : stopPipe.Between Int.ofNat := ⟨by decide, rfl⟩

theorem reaches_iff_readable :
    (∃ ran loop', Returned epoll Int.ofNat stopPipe [(5, ⟨true, false, true, false⟩)] ran loop') ∧
      ¬ ∀ n, Rounds epoll Int.ofNat stopPipe
        (List.replicate n ([(5, ⟨true, false, true, false⟩)], [])) stopPipe := by
  have hbatch : EventLoop.Batch stopPipe.poller [(5, ⟨true, false, true, false⟩)] := by decide
  obtain ⟨-, hreturns, hforever⟩ := reaches_iff between_stopPipe hbatch
  refine ⟨hreturns, fun hrounds => hforever.mp hrounds _ (List.mem_singleton_self _) ?_⟩
  exact .inl ⟨rfl, _, List.mem_singleton_self _, rfl, rfl⟩

theorem woken_for_ever :
    EventLoop.Batch stopPipe.poller hungUp ∧
      stopPipe.evl.Handles 5 (stopPipe.poller.active 5) ∧
      ∀ n, Rounds epoll Int.ofNat stopPipe (List.replicate n (hungUp, [])) stopPipe := by
  have hbatch : EventLoop.Batch stopPipe.poller hungUp := by decide
  refine ⟨hbatch, ⟨fun _ => ⟨_, List.mem_singleton_self _, rfl, rfl⟩, fun h => ?_⟩, fun n => ?_⟩
  · exact absurd h (by decide)
  · exact rounds_of_unmatched hbatch between_stopPipe (by decide) n

/-! ## kqueue

There each event is that of a filter, and a filter is one that has been asked for. -/

/-- On kqueue what is reported has been asked for, the end of a pipe included. -/
theorem kqueue_reaches {loop loop' : PolledLoop H Kqueue} {batch : List (Int × Kqueue.Filter)}
    {ran : List (FdCb H)} (hbetween : loop.Between fdOf) (hbatch : loop.poller.Batch batch)
    {ev : Int × Kqueue.Filter} (hev : ev ∈ batch)
    (hhandles : loop.evl.Handles ev.1 (loop.poller.active ev.1))
    (h : Returned kqueue fdOf loop batch ran loop') : ∃ cb ∈ ran, fdOf cb.iop = ev.1 := by
  have hactive := hbatch.2 ev hev
  refine (h.mem_iff hbetween ev.1).mpr ⟨ev, hev, rfl, ?_⟩
  obtain ⟨fd, f⟩ := ev
  cases f with
  | read =>
      obtain ⟨e, he, hfd, hr⟩ := hhandles.readable hactive
      refine List.ne_nil_of_mem (mem_matching.mpr ⟨e, he, hfd, ?_, rfl⟩)
      simp [FdEvent.meets, kqueue, Kqueue.fdMapToEvent, Kqueue.Filter.toSys, Kqueue.EVFILT_READ,
        Kqueue.EVFILT_WRITE, FdEvent.fdReadable, hr]
  | write =>
      obtain ⟨e, he, hfd, hw⟩ := hhandles.writable hactive
      refine List.ne_nil_of_mem (mem_matching.mpr ⟨e, he, hfd, ?_, rfl⟩)
      simp [FdEvent.meets, kqueue, Kqueue.fdMapToEvent, Kqueue.Filter.toSys, Kqueue.EVFILT_WRITE,
        FdEvent.fdWritable, hw]

end Cppev
