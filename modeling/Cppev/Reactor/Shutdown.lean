import Cppev.Lib.Fairness
import Cppev.Reactor.Threads

/-!
# The end of a shutdown

What has to happen for `run` and `shutdown` to return are the steps of the owner and, while it is in
`join`, those of the thread that it joins. They cannot go on for ever: an order is done after
finitely many of them, since a loop that has been told to stop dispatches at most one batch.

* `shutdown_returns`: one of them is always possible, so `shutdown` returns or throws in every
  execution that takes them.
-/

namespace Cppev

namespace Stopping

variable {H : Type} {eof : EpollEvents} {fdOf : ConnId → Int} {handler : H} {s s' : Stopping H}
  {l : StopLabel H}

/-! ## What the poller need not be told

An acceptor's listening socket and a connector's pipe are registered by `run`. No callback of
another loop touches them. -/

/-- What a front has to register is open and not registered, and no end of the pipe. -/
structure Unheard (fdOf : ConnId → Int) (iop : ConnId) (s : Stopping H) : Prop where
  opened : s.kernel.opened (fdOf iop) = true
  free : s.kernel.epoll (fdOf iop) = none
  apart : ∀ p, s.pipe = some p → fdOf p.iop ≠ fdOf iop ∧ p.wfd ≠ fdOf iop

/-- Activating one descriptor leaves the others alone. -/
theorem activate_frame {k k' : Kernel} {fd : Int} {ev : FdEvent} {r : Except Exn Unit}
    (h : epoll.activate k fd ev = (r, k')) :
    k'.opened = k.opened ∧ ∀ fd', fd' ≠ fd → k'.epoll fd' = k.epoll fd' := by
  simp only [epoll] at h
  split at h
  case h_1 k'' hadd =>
    obtain rfl : k'' = k' := congrArg Prod.snd h
    rw [Kernel.ctlAdd_eq_ok hadd]
    exact ⟨rfl, fun fd' hne => Function.update_of_ne hne _ _⟩
  case h_2 =>
    obtain rfl : k = k' := congrArg Prod.snd h
    exact ⟨rfl, fun _ _ => rfl⟩

/-- Another descriptor is closed. -/
theorem Unheard.close {iop : ConnId} (hi : Unheard fdOf iop s) {fd : Int} (hne : fd ≠ fdOf iop) :
    (s.kernel.close fd).opened (fdOf iop) = true ∧ (s.kernel.close fd).epoll (fdOf iop) = none :=
  ⟨(Function.update_of_ne hne.symm _ _).trans hi.opened,
    (Function.update_of_ne hne.symm _ _).trans hi.free⟩

/-- The ends of a new pipe were not open, and the socket is. -/
theorem Unheard.getPipes {iop : ConnId} (hi : Unheard fdOf iop s) {ends : Option (ConnId × Int)}
    (h : Stopping.step eof fdOf handler s (.getPipes ends) = some s') : Unheard fdOf iop s' := by
  cases ends with
  | none =>
      simp only [Stopping.step, Option.ite_none_right_eq_some, Option.some.injEq] at h
      obtain ⟨-, rfl⟩ := h
      exact ⟨hi.opened, hi.free, hi.apart⟩
  | some ends =>
      simp only [Stopping.step, Option.ite_none_right_eq_some, Option.some.injEq] at h
      obtain ⟨⟨-, hfree, hfree', -⟩, rfl⟩ := h
      refine ⟨?_, hi.free, fun p hp => ?_⟩
      · show Function.update (Function.update s.kernel.opened _ true) _ true (fdOf iop) = true
        simp [Function.update_apply, hi.opened]
      · obtain rfl := Option.some.inj hp
        constructor
        · intro heq
          rw [heq, hi.opened] at hfree
          cases hfree
        · intro heq
          rw [show ends.2 = fdOf iop from heq, hi.opened] at hfree'
          cases hfree'

/-- epoll is told of the pipe, and of nothing else; if that fails, the other end is closed. -/
theorem Unheard.activate {iop : ConnId} (hi : Unheard fdOf iop s)
    (h : Stopping.step eof fdOf handler s .activate = some s') : Unheard fdOf iop s' := by
  simp only [Stopping.step] at h
  split at h
  case h_1 p hp =>
    obtain ⟨hne, hne'⟩ := hi.apart p hp
    simp only [Option.ite_none_right_eq_some] at h
    obtain ⟨-, h⟩ := h
    split at h
    case h_1 k hactivate =>
      obtain rfl := Option.some.inj h
      obtain ⟨hopened, hepoll⟩ := activate_frame hactivate
      exact ⟨(congrFun hopened _).trans hi.opened, (hepoll _ hne.symm).trans hi.free, hi.apart⟩
    case h_2 e k hactivate =>
      obtain rfl := Option.some.inj h
      obtain ⟨hopened, hepoll⟩ := activate_frame hactivate
      refine ⟨?_, ?_, fun p' hp' => ?_⟩
      · exact (Function.update_of_ne hne'.symm _ _).trans ((congrFun hopened _).trans hi.opened)
      · exact (Function.update_of_ne hne'.symm _ _).trans ((hepoll _ hne.symm).trans hi.free)
      · obtain rfl := Option.some.inj hp'
        exact ⟨hne, hne'⟩
  case h_2 => cases h

/-- Until the thread itself registers it, its descriptor is open and epoll does not know it. -/
theorem Unheard.step {iop : ConnId} (hi : Unheard fdOf iop s)
    (h : Stopping.step eof fdOf handler s l = some s')
    (hl : l.ofStop = true ∨ l.ofFiles (some (fdOf iop)) = true) : Unheard fdOf iop s' := by
  cases l with
  | start | test | enter | wake | round | finish | other =>
      simp [StopLabel.ofStop, StopLabel.ofFiles] at hl
  | setStop =>
      simp only [Stopping.step, Option.ite_none_right_eq_some, Option.some.injEq] at h
      obtain ⟨-, rfl⟩ := h
      exact ⟨hi.opened, hi.free, hi.apart⟩
  | getPipes ends => exact hi.getPipes h
  | emplace =>
      simp only [Stopping.step] at h
      split at h
      case h_1 p hp =>
        simp only [Option.ite_none_right_eq_some, Option.some.injEq] at h
        obtain ⟨-, rfl⟩ := h
        exact ⟨hi.opened, hi.free, hi.apart⟩
      case h_2 => cases h
  | activate => exact hi.activate h
  | closeWrite =>
      simp only [Stopping.step] at h
      split at h
      case h_1 p hp =>
        obtain ⟨hne, hne'⟩ := hi.apart p hp
        simp only [Option.ite_none_right_eq_some, Option.some.injEq] at h
        obtain ⟨-, rfl⟩ := h
        obtain ⟨hopened, hfree⟩ := hi.close hne'
        refine ⟨hopened, hfree, fun p' hp' => ?_⟩
        obtain rfl := Option.some.inj hp'
        exact ⟨hne, hne'⟩
      case h_2 => cases h
  | release =>
      simp only [Stopping.step] at h
      split at h
      case h_1 p hp =>
        simp only [Option.ite_none_right_eq_some, Option.some.injEq] at h
        obtain ⟨-, rfl⟩ := h
        obtain ⟨hopened, hfree⟩ := hi.close (hi.apart p hp).1
        exact ⟨hopened, hfree, fun p' hp' => by cases hp'⟩
      case h_2 => cases h
  | opened fd =>
      simp only [Stopping.step, Option.ite_none_right_eq_some, Option.some.injEq] at h
      obtain ⟨-, rfl⟩ := h
      refine ⟨?_, hi.free, hi.apart⟩
      show Function.update s.kernel.opened fd true (fdOf iop) = true
      simp [Function.update_apply, hi.opened]
  | closed fd =>
      simp only [Stopping.step, Option.ite_none_right_eq_some, Option.some.injEq] at h
      obtain ⟨-, rfl⟩ := h
      have hne : fd ≠ fdOf iop := by
        rintro rfl
        simp [StopLabel.ofStop, StopLabel.ofFiles] at hl
      obtain ⟨hopened, hfree⟩ := hi.close hne
      exact ⟨hopened, hfree, hi.apart⟩
  | becomes fd ready =>
      obtain rfl := Option.some.inj h
      exact ⟨hi.opened, hi.free, hi.apart⟩

/-- `fd_register` does not throw. -/
theorem Unheard.fdRegister {iop : ConnId} (hi : Unheard fdOf iop s) (ev : FdEvent) (h : H)
    (prio : Priority) :
    (epoll.fdRegister fdOf s.once.loop iop ev (some h) true prio).1 = .ok () := by
  obtain ⟨hopened, hfree, -⟩ := hi
  unfold Stopping.kernel at hopened hfree
  rw [Backend.result_fdRegister, if_pos rfl]
  simp [epoll, Kernel.ctlAdd, hopened, hfree]

/-- The pipe is there until `stop_loop_forever` returns. -/
def Piped (s : Stopping H) : Prop :=
  s.stopAt = .created ∨ s.stopAt = .emplaced ∨ s.stopAt = .activated → ∃ p, s.pipe = some p

/-- The write end of the pipe, once closed, stays closed. -/
theorem Piped.step (hi : Piped s) (h : Stopping.step eof fdOf handler s l = some s') :
    Piped s' := by
  cases l <;> simp only [Stopping.step] at h <;> grind [Piped, setKernel, Held]

end Stopping

/-! ## The rank

A pair, compared lexicographically: the orders that are left to the owner, with the part of
`stop_loop_forever` it is in, and then the steps of the thread that is being joined. Callbacks run
in between; what they do is not counted and leaves the rank alone. -/

/-- Where `stop_loop_forever` is. -/
def StopAt.rank : StopAt → Nat
  | .idle => 5
  | .stopSet => 4
  | .created => 3
  | .emplaced => 2
  | .activated => 1
  | .returned | .threw => 0

/-- How far the loop is from its end when it has been told to stop. -/
def LoopAt.rank : LoopAt → Nat
  | .notStarted => 7
  | .atPoll => 6
  | .blocked => 5
  | .dispatching => 4
  | .atTest => 3
  | .done => 2

/-- What a thread has still to do before its loop, in it and after it. -/
def Runner.phase {H : Type} (r : Runner H) : Nat :=
  match r.life with
  | .idle | .created => 8
  | .looping => r.loop.loopAt.rank
  | .promised => 1
  | .ended | .joined => 0

/-- Its phase, the events of the batch that are left, and the handlers that are left. -/
def Runner.rank {H : Type} (r : Runner H) : ℕ ×ₗ ℕ ×ₗ ℕ :=
  toLex (r.phase, toLex (r.loop.once.pending.length, r.loop.once.loop.evl.fdCbs.length))

namespace ReactorThreads

variable {H : Type}

/-- What is left of the first order. -/
def orderRank (s : ReactorThreads H) : ℕ ×ₗ ℕ ×ₗ ℕ :=
  match s.orders with
  | .shutdown t :: _ => toLex ((s.runner t).loop.stopAt.rank, toLex (0, 0))
  | .join t :: _ => (s.runner t).rank
  | _ => toLex (0, toLex (0, 0))

/-- The rank of the whole. -/
def rank (s : ReactorThreads H) : ℕ ×ₗ ℕ ×ₗ ℕ ×ₗ ℕ :=
  toLex (s.orders.length + (if s.threw = true then 0 else 1), s.orderRank)

/-- `shutdown` has returned, or an order has thrown. -/
def Goal (s : ReactorThreads H) : Prop := s.orders = [] ∨ s.threw = true

/-- A step that leads on: one of the owner, or one of the thread that it is about to join, what a
callback of this does not counted. -/
def Progress (s : ReactorThreads H) : ReactorThreadsLabel H → Prop
  | .creates _ | .stops _ | .joins => True
  | .begins t | .promises t | .ends t => s.orders.head? = some (.join t)
  | .loops t l => s.orders.head? = some (.join t) ∧ ∀ c, l ≠ .round (.call c)
  | .handsOver _ _ _ | .elsewhere _ _ => False

section

variable {eof : EpollEvents} {fdOf : ConnId → Int} {onStop : H} {sock : Nat → ConnId} {onSock : H}
  {onConn : H} {workers fronts : Nat} {s s' : ReactorThreads H} {l : ReactorThreadsLabel H}

theorem lex_lt {α β : Type} [LT α] [LT β] {a a' : α} {b b' : β}
    (h : a < a' ∨ a = a' ∧ b < b') : (toLex (a, b) : α ×ₗ β) < toLex (a', b') :=
  Prod.Lex.toLex_lt_toLex.mpr h

/-! ### How the steps change it -/

/-- What a callback does leaves the rank alone, every other step of a loop that has been told to stop
brings it down. -/
theorem rank_loops {r : Runner H} {l : StopLabel H} {loop : Stopping H} (hlife : r.life = .looping)
    (hstop : r.loop.stop = true) (hl : l.ofLoop = true)
    (h : Stopping.step eof fdOf onStop r.loop l = some loop) :
    ((∃ c, l = .round (.call c)) ∧ ({ r with loop } : Runner H).rank = r.rank) ∨
      ({ r with loop } : Runner H).rank < r.rank := by
  simp only [Runner.rank, Runner.phase, hlife]
  cases l with
  | test =>
      simp only [Stopping.step, Option.ite_none_right_eq_some, Option.some.injEq, hstop] at h
      obtain ⟨hat, rfl⟩ := h
      exact .inr (lex_lt (.inl (by simp [hat, LoopAt.rank])))
  | enter =>
      simp only [Stopping.step, Option.ite_none_right_eq_some, Option.some.injEq] at h
      obtain ⟨hat, rfl⟩ := h
      exact .inr (lex_lt (.inl (by simp [hat, LoopAt.rank])))
  | wake batch =>
      simp only [Stopping.step, Option.ite_none_right_eq_some, Option.some.injEq] at h
      obtain ⟨⟨hat, -⟩, rfl⟩ := h
      exact .inr (lex_lt (.inl (by simp [hat, LoopAt.rank])))
  | round l' =>
      simp only [Stopping.step, Option.ite_none_right_eq_some] at h
      obtain ⟨hat, h⟩ := h
      split at h
      case h_1 once honce =>
        obtain rfl := Option.some.inj h
        obtain ⟨ev, rest, -, hpending, rfl⟩ | ⟨i, cb, evl, -, hpending, hpop, rfl⟩ | ⟨c, rfl, rfl⟩ :=
          LoopOnce.step_cases honce
        · -- an event less
          exact .inr (lex_lt (.inr ⟨rfl, lex_lt (.inl (by simp [hpending]))⟩))
        · -- a handler less
          obtain ⟨hget, -, -, rfl⟩ := Dispatch.pop_spec hpop
          have hi := (List.getElem?_eq_some_iff.mp hget).1
          have hshorter := List.length_eraseIdx_of_lt hi
          refine .inr (lex_lt (.inr ⟨rfl, lex_lt (.inr ⟨rfl, ?_⟩)⟩))
          simp only [hshorter]
          omega
        · -- what a handler calls puts nothing into the queue
          exact .inl ⟨⟨c, rfl⟩, by simp only [LoopOnce.fdCbs_call]⟩
      case h_2 => cases h
  | finish =>
      simp only [Stopping.step, Option.ite_none_right_eq_some, Option.some.injEq] at h
      obtain ⟨⟨hat, -⟩, rfl⟩ := h
      exact .inr (lex_lt (.inl (by simp [hat, LoopAt.rank])))
  | start | setStop | getPipes | emplace | activate | closeWrite | release | other | opened | closed
  | becomes => cases hl

/-- A step of `stop_loop_forever`. -/
theorem rank_stops {loop loop' : Stopping H} {l : StopLabel H} (hl : l.ofStop = true)
    (h : Stopping.step eof fdOf onStop loop l = some loop') :
    loop'.stopAt.rank < loop.stopAt.rank := by
  cases l <;> simp only [StopLabel.ofStop, reduceCtorEq] at hl <;> simp only [Stopping.step] at h <;>
    grind [StopAt.rank]

/-- What comes before the first order has been done. -/
theorem Inv.not_mem_of_before (hi : Inv fdOf workers fronts s) {a o : Order} {rest : List Order}
    (horders : s.orders = o :: rest) (hbefore : Before (reactorProgram workers fronts) a o)
    (hne : a ≠ o) : a ∉ s.orders := by
  intro hmem
  have hnodup : s.orders.Nodup := hi.suffix.sublist.nodup nodup_program
  have htail := hbefore.mem_tail hi.suffix (hi.suffix.mem (by simp [horders])) hmem hne
  rw [horders] at htail hnodup
  exact (List.nodup_cons.mp hnodup).1 htail

/-- A thread that is being joined has been created and told to stop. -/
theorem Inv.told_of_join (hi : Inv fdOf workers fronts s) {t : ReactorThread} {rest : List Order}
    (horders : s.orders = .join t :: rest) :
    (s.runner t).life ≠ .idle ∧ (s.runner t).loop.stopAt = .returned ∧
      (s.runner t).loop.stop = true := by
  have hjoin : .join t ∈ reactorProgram workers fronts := hi.suffix.mem (by simp [horders])
  obtain ⟨hrun, hshutdown, -⟩ := mem_program (member_of_join hjoin)
  have hcreated : .run t ∉ s.orders := hi.not_mem_of_before horders
    (before_of_stage (by cases t <;> simp [Order.stage])) (by simp)
  have htold : .shutdown t ∉ s.orders := hi.not_mem_of_before horders
    (before_of_stage (by cases t <;> simp [Order.stage])) (by simp)
  have hreturned := (hi.position t).told hshutdown htold
  exact ⟨(hi.position t).begun hrun hcreated, hreturned,
    (hi.loops t).stop.mpr (by simp [hreturned])⟩

/-- A thread's own steps do not move the call that stops it. -/
theorem stopAt_runner {t : ReactorThread} {r r' : Runner H} {held : Option Int}
    (h : RunnerStep eof fdOf onStop held t r l r') : r'.loop.stopAt = r.loop.stopAt := by
  cases h with
  | begins | promises | ends => rfl
  | loops l loop hlife hl hloop =>
      exact Stopping.stopAt_of_not_ofStop hloop (by cases l <;> first | rfl | cases hl)
  | given i j conn l loop hl hstart hheld hloop => exact Stopping.stopAt_of_not_ofStop hloop hl.2
  | files l loop hfiles hloop =>
      exact Stopping.stopAt_of_not_ofStop hloop (ofFiles_others hfiles).1.2

/-- What is done to a loop from outside does not change its rank. -/
theorem rank_others {r : Runner H} {l : StopLabel H} {loop : Stopping H} (hl : l.ofLoop = false)
    (hstart : l ≠ .start) (h : Stopping.step eof fdOf onStop r.loop l = some loop) :
    ({ r with loop } : Runner H).rank = r.rank := by
  obtain ⟨hloopAt, hpending, hqueue⟩ := Stopping.frame_of_not_ofLoop h hl hstart
  simp only [Runner.rank, Runner.phase, hloopAt, hpending, hqueue]

/-- The thread that is being joined. -/
theorem rank_runner {t : ReactorThread} {r r' : Runner H} {held : Option Int}
    (hstop : r.loop.stop = true) (h : RunnerStep eof fdOf onStop held t r l r') :
    r'.rank ≤ r.rank ∧ (s.Progress l → r'.rank < r.rank) := by
  cases h with
  | begins loop hlife =>
      have hlt : (⟨.looping, { r.loop with
          once := { r.loop.once with loop }, loopAt := .atTest }⟩ : Runner H).rank < r.rank :=
        lex_lt (.inl (by simp [Runner.phase, hlife, LoopAt.rank]))
      exact ⟨hlt.le, fun _ => hlt⟩
  | loops l loop hlife hl hloop =>
      rcases rank_loops hlife hstop hl hloop with ⟨⟨c, rfl⟩, heq⟩ | hlt
      · exact ⟨heq.le, fun hprogress => absurd rfl (hprogress.2 c)⟩
      · exact ⟨hlt.le, fun _ => hlt⟩
  | promises hlife hdone =>
      have hlt : ({ r with life := .promised } : Runner H).rank < r.rank :=
        lex_lt (.inl (by simp [Runner.phase, hlife, hdone, LoopAt.rank]))
      exact ⟨hlt.le, fun _ => hlt⟩
  | ends hlife =>
      have hlt : ({ r with life := .ended } : Runner H).rank < r.rank :=
        lex_lt (.inl (by simp [Runner.phase, hlife]))
      exact ⟨hlt.le, fun _ => hlt⟩
  | given i j conn l loop hl hstart hheld hloop =>
      exact ⟨(rank_others hl.1 hstart hloop).le, fun hprogress => hprogress.elim⟩
  | files l loop hfiles hloop =>
      obtain ⟨hl, hstart⟩ := ofFiles_others hfiles
      exact ⟨(rank_others hl.1 hstart hloop).le, fun hprogress => hprogress.elim⟩

/-- A step of a thread that counts is one of the thread that is being joined. -/
theorem head_of_progress {t : ReactorThread} {r r' : Runner H} {held : Option Int}
    (h : RunnerStep eof fdOf onStop held t r l r') (hprogress : s.Progress l) :
    s.orders.head? = some (.join t) := by
  cases h with
  | begins | promises | ends => exact hprogress
  | loops => exact hprogress.1
  | given | files => exact hprogress.elim

/-- A step of a thread that is not being joined does not make the rank larger; one of the thread
that is makes it smaller. -/
theorem Inv.rank_runner (hi : Inv fdOf workers fronts s) {t : ReactorThread} {r : Runner H}
    {held : Option Int} (h : RunnerStep eof fdOf onStop held t (s.runner t) l r) :
    (s.setRunner t r).rank ≤ s.rank ∧ (s.Progress l → (s.setRunner t r).rank < s.rank) := by
  by_cases hhead : s.orders.head? = some (.join t)
  · obtain ⟨rest, horders⟩ := List.head?_eq_some_iff.mp hhead
    obtain ⟨hle, hlt⟩ := ReactorThreads.rank_runner (s := s) (hi.told_of_join horders).2.2 h
    have hafter : (s.setRunner t r).orderRank = r.rank := by
      simp [orderRank, setRunner, horders]
    have hbefore : s.orderRank = (s.runner t).rank := by simp [orderRank, horders]
    simp only [rank, hafter, hbefore]
    refine ⟨Prod.Lex.toLex_le_toLex.mpr (.inr ⟨rfl, hle⟩), fun hprogress => ?_⟩
    exact lex_lt (.inr ⟨rfl, hlt hprogress⟩)
  · -- the first order is about another thread, or about `stopAt`
    have hsame : (s.setRunner t r).orderRank = s.orderRank := by
      have hstopAt := stopAt_runner h
      unfold orderRank
      show (match s.orders with
        | .shutdown t' :: _ => _
        | .join t' :: _ => _
        | _ => _) = _
      split
      case h_1 t' rest _ =>
        by_cases heq : t' = t
        · subst heq
          simp [setRunner, hstopAt]
        · simp [setRunner, Function.update_of_ne heq]
      case h_2 t' rest horders =>
        have hne : t' ≠ t := by
          rintro rfl
          simp [horders] at hhead
        simp [setRunner, Function.update_of_ne hne]
      case h_3 => rfl
    have heq : (s.setRunner t r).rank = s.rank := by
      simp only [rank, hsame]
      rfl
    exact ⟨heq.le, fun hprogress => absurd (head_of_progress h hprogress) hhead⟩

/-- Each step of the owner. -/
theorem rank_owner (h : OwnerStep eof fdOf onStop s l s') : s'.rank < s.rank := by
  cases h with
  | creates t rest horders hthrew =>
      refine lex_lt (.inl ?_)
      simp [horders, hthrew, setLife, setRunner]
  | fails t rest horders hthrew =>
      refine lex_lt (.inl ?_)
      simp [hthrew]
  | stops t rest l loop horders hthrew hl hloop =>
      have hrank := rank_stops hl hloop
      by_cases hreturned : loop.stopAt = .returned
      · refine lex_lt (.inl ?_)
        simp [horders, hthrew, hreturned]
      · by_cases hthrown : loop.stopAt = .threw
        · refine lex_lt (.inl ?_)
          simp [horders, hthrew, hthrown]
        · refine lex_lt (.inr ⟨?_, ?_⟩)
          · simp [hthrew, hreturned, hthrown]
          · simp only [orderRank, horders, hreturned, if_false, setRunner, Function.update_self]
            exact lex_lt (.inl hrank)
  | joins t rest horders hthrew hended =>
      refine lex_lt (.inl ?_)
      simp [horders, hthrew, setLife, setRunner]

/-! ## Never stuck

`Ready` is the invariant that the next step is possible: descriptors are open, and nobody has
registered what the owner is about to register. -/

/-- A front that has not begun. -/
def Quiet (fdOf : ConnId → Int) (sock : Nat → ConnId) (t : ReactorThread) (r : Runner H) : Prop :=
  ∀ i, t = .front i → r.life = .idle ∨ r.life = .created → Stopping.Unheard fdOf (sock i) r.loop

/-- The invariant, with what `emplace` and the first `fd_register` of a front find. -/
structure Ready (fdOf : ConnId → Int) (sock : Nat → ConnId) (workers fronts : Nat)
    (s : ReactorThreads H) : Prop where
  inv : Inv fdOf workers fronts s
  piped : ∀ t, (s.runner t).loop.Piped
  quiet : ∀ t, Quiet fdOf sock t (s.runner t)

theorem Start.ready (h : s.Start fdOf sock workers fronts) : Ready fdOf sock workers fronts s where
  inv := h.inv
  piped t := by simp [Stopping.Piped, (h.loop t).stopAt]
  quiet t i ht _ := ht ▸ ⟨h.opened i, h.unheard i, by simp [(h.loop (.front i)).pipe]⟩

/-- A front that has not begun has its descriptor. -/
theorem held_of_quiet {i : Nat} (h : (s.runner (.front i)).life = .idle ∨
    (s.runner (.front i)).life = .created) :
    s.held fdOf sock (.front i) = some (fdOf (sock i)) := by
  simp only [held, h, if_true]

/-- A pipe that has been closed stays so in the steps of a thread. -/
theorem piped_runner {t : ReactorThread} {r r' : Runner H} {held : Option Int}
    (hi : r.loop.Piped) (h : RunnerStep eof fdOf onStop held t r l r') : r'.loop.Piped := by
  cases h with
  | begins | promises | ends => exact hi
  | loops l loop hlife hl hloop => exact hi.step hloop
  | given i j conn l loop hl hstart hheld hloop => exact hi.step hloop
  | files l loop hfiles hloop => exact hi.step hloop

/-- A thread does not register what is not its own. -/
theorem quiet_runner {t : ReactorThread} {r : Runner H} (hi : Quiet fdOf sock t (s.runner t))
    (h : RunnerStep eof fdOf onStop (s.held fdOf sock t) t (s.runner t) l r) :
    Quiet fdOf sock t r := by
  rintro i rfl hlife'
  cases h with
  | begins | promises | ends => simp at hlife'
  | loops l loop hlife hl hloop => simp [hlife] at hlife'
  | given i' j conn l loop hl hstart hheld hloop => simp [held_of_quiet hlife'] at hheld
  | files l loop hfiles hloop =>
      rw [held_of_quiet hlife'] at hfiles
      exact (hi i rfl hlife').step hloop (.inr hfiles)

theorem Ready.step_owner (hi : Ready fdOf sock workers fronts s)
    (h : OwnerStep eof fdOf onStop s l s') : Ready fdOf sock workers fronts s' := by
  have hinv := hi.inv.step_owner h
  let Piped (_ : ReactorThread) (r : Runner H) := r.loop.Piped
  have hpiped (t t' : ReactorThread) (_ : t' ≠ t) := hi.piped t'
  have hquiet (t t' : ReactorThread) (_ : t' ≠ t) := hi.quiet t'
  cases h with
  | creates t rest horders hthrew =>
      have hidle : (s.runner t).life = .idle := (hi.inv.position t).idle (by simp [horders])
      refine ⟨hinv, forall_setRunner Piped (hi.piped t) (hpiped t), ?_⟩
      refine forall_setRunner (Quiet fdOf sock) ?_ (hquiet t)
      exact fun i ht _ => hi.quiet t i ht (.inl hidle)
  | fails t rest horders hthrew => exact ⟨hinv, hi.piped, hi.quiet⟩
  | stops t rest l loop horders hthrew hl hloop =>
      refine ⟨hinv, forall_setRunner Piped ((hi.piped t).step hloop) (hpiped t), ?_⟩
      refine forall_setRunner (Quiet fdOf sock) ?_ (hquiet t)
      exact fun i ht hlife => (hi.quiet t i ht hlife).step hloop (.inl hl)
  | joins t rest horders hthrew hended =>
      refine ⟨hinv, forall_setRunner Piped (hi.piped t) (hpiped t), ?_⟩
      refine forall_setRunner (Quiet fdOf sock) ?_ (hquiet t)
      exact fun i ht hlife => by simp at hlife

theorem Ready.step (hi : Ready fdOf sock workers fronts s)
    (h : s.step eof fdOf onStop sock onSock onConn workers l = some s') :
    Ready fdOf sock workers fronts s' := by
  rcases step_cases h with howner | ⟨t, r, hrunner, rfl⟩
  · exact hi.step_owner howner
  · refine ⟨hi.inv.step h, ?_, ?_⟩
    · exact forall_setRunner (fun _ r => r.loop.Piped) (piped_runner (hi.piped t) hrunner)
        fun t' _ => hi.piped t'
    · exact forall_setRunner (Quiet fdOf sock) (quiet_runner (hi.quiet t) hrunner)
        fun t' _ => hi.quiet t'

/-! ### Somebody can go on -/

/-- `stop_loop_forever` goes on. -/
theorem exists_stop {loop : Stopping H} (hpiped : loop.Piped) (hreturned : loop.stopAt ≠ .returned)
    (hthrew : loop.stopAt ≠ .threw) :
    ∃ l : StopLabel H, l.ofStop = true ∧
      (Stopping.step eof fdOf onStop loop l).isSome = true := by
  cases hat : loop.stopAt with
  | idle => exact ⟨.setStop, rfl, by simp [Stopping.step, hat]⟩
  | stopSet => exact ⟨.getPipes none, rfl, by simp [Stopping.step, hat]⟩
  | created =>
      obtain ⟨p, hp⟩ := hpiped (.inl hat)
      exact ⟨.emplace, rfl, by simp [Stopping.step, hat, hp]⟩
  | emplaced =>
      obtain ⟨p, hp⟩ := hpiped (.inr (.inl hat))
      refine ⟨.activate, rfl, ?_⟩
      simp only [Stopping.step, hp, hat, if_true]
      split <;> rfl
  | activated =>
      obtain ⟨p, hp⟩ := hpiped (.inr (.inr hat))
      exact ⟨.closeWrite, rfl, by simp [Stopping.step, hat, hp]⟩
  | returned => exact absurd hat hreturned
  | threw => exact absurd hat hthrew

/-- So does `loop_forever` in a thread that has been told to stop, or it is at its end. -/
theorem exists_loop (heof : eof.epollin = true ∨ eof.epollhup = true ∨ eof.epollerr = true)
    {loop : Stopping H} (hi : Stopping.Inv fdOf loop) (hreturned : loop.stopAt = .returned)
    (hstarted : loop.loopAt ≠ .notStarted) (hdone : loop.loopAt ≠ .done) :
    ∃ l : StopLabel H, l.ofLoop = true ∧ (∀ c, l ≠ .round (.call c)) ∧
      (Stopping.step eof fdOf onStop loop l).isSome = true := by
  cases hat : loop.loopAt with
  | notStarted => exact absurd hat hstarted
  | atTest => exact ⟨.test, rfl, by simp, by simp [Stopping.step, hat]⟩
  | atPoll => exact ⟨.enter, rfl, by simp, by simp [Stopping.step, hat]⟩
  | blocked =>
      -- the pipe wakes it
      obtain ⟨p, hp, hreg⟩ := hi.pipe (.inr hat) (.inr (.inr hreturned))
      obtain ⟨ev, hev⟩ := Option.ne_none_iff_exists'.mp (hreg.reported hp hreturned heof)
      refine ⟨.wake [(fdOf p.iop, ev)], rfl, by simp, ?_⟩
      have hbatch : loop.Batch eof fdOf [(fdOf p.iop, ev)] := ⟨by simp, by simpa using hev⟩
      simp [Stopping.step, hat, hbatch]
  | dispatching =>
      by_cases hends : loop.once.Done
      · exact ⟨.finish, rfl, by simp, by simp [Stopping.step, hat, hends.1, hends.2]⟩
      · have hexists : ∃ l : LoopOnceLabel H, l.round = true ∧
            (LoopOnce.step epoll fdOf loop.once l).isSome = true := LoopOnce.exists_round hends
        obtain ⟨l, hround, hsome⟩ := hexists
        obtain ⟨once, honce⟩ := Option.isSome_iff_exists.mp hsome
        refine ⟨.round l, rfl, ?_, by simp [Stopping.step, hat, honce]⟩
        intro c hc
        obtain rfl := StopLabel.round.inj hc
        cases hround
  | done => exact absurd hat hdone

/-- The thread that is being joined can go on, or it can be joined. -/
theorem Ready.enabled_join (heof : eof.epollin = true ∨ eof.epollhup = true ∨ eof.epollerr = true)
    (hi : Ready fdOf sock workers fronts s) {t : ReactorThread} {rest : List Order}
    (hthrew : s.threw = false) (horders : s.orders = .join t :: rest) :
    Enabled (ReactorThreads.step eof fdOf onStop sock onSock onConn workers) Progress s := by
  obtain ⟨hbegun, hreturned, -⟩ := hi.inv.told_of_join horders
  have hhead : s.orders.head? = some (.join t) := by simp [horders]
  have hat := (hi.inv.position t).loopAt
  cases hlife : (s.runner t).life with
  | idle => exact absurd hlife hbegun
  | created =>
      refine ⟨.begins t, hhead, ?_⟩
      have hok : (enterLoop fdOf sock onSock t (s.runner t).loop.once.loop).1 = .ok () := by
        cases t with
        | worker i => rfl
        | front i => exact (hi.quiet (.front i) i rfl (.inr hlife)).fdRegister ..
      simp only [ReactorThreads.step, hlife, if_true]
      split
      case h_1 => rfl
      case h_2 e loop hthrown => simp [hthrown] at hok
  | looping =>
      rw [hlife] at hat
      by_cases hdone : (s.runner t).loop.loopAt = .done
      · exact ⟨.promises t, hhead, by simp [ReactorThreads.step, hlife, hdone]⟩
      · have hexists : ∃ l : StopLabel H, l.ofLoop = true ∧ (∀ c, l ≠ .round (.call c)) ∧
            (Stopping.step eof fdOf onStop (s.runner t).loop l).isSome = true :=
          exists_loop heof (hi.inv.loops t) hreturned hat hdone
        obtain ⟨l, hl, hcall, hsome⟩ := hexists
        obtain ⟨loop, hloop⟩ := Option.isSome_iff_exists.mp hsome
        exact ⟨.loops t l, ⟨hhead, hcall⟩, by simp [ReactorThreads.step, hlife, hl, advance, hloop]⟩
  | promised => exact ⟨.ends t, hhead, by simp [ReactorThreads.step, hlife]⟩
  | ended => exact ⟨.joins, trivial, by simp [ReactorThreads.step, horders, hthrew, hlife]⟩
  | joined => exact absurd hlife ((hi.inv.position t).unjoined (by simp [horders]))

/-- Until the goal the owner can go on, or the thread that it joins can. -/
theorem Ready.enabled (heof : eof.epollin = true ∨ eof.epollhup = true ∨ eof.epollerr = true)
    (hi : Ready fdOf sock workers fronts s) (hgoal : ¬ s.Goal) :
    Enabled (ReactorThreads.step eof fdOf onStop sock onSock onConn workers) Progress s := by
  have hthrew : s.threw = false := by
    by_contra hne
    exact hgoal (.inr (by simpa using hne))
  cases horders : s.orders with
  | nil => exact absurd (.inl horders) hgoal
  | cons o rest =>
      have hhead : s.orders.head? = some o := by simp [horders]
      cases o with
      | run t => exact ⟨.creates true, trivial, by simp [ReactorThreads.step, horders, hthrew]⟩
      | shutdown t =>
          obtain ⟨hreturned, hthrown⟩ := (hi.inv.position t).telling (by simp [horders]) hthrew
          have hexists : ∃ l : StopLabel H, l.ofStop = true ∧
              (Stopping.step eof fdOf onStop (s.runner t).loop l).isSome = true :=
            exists_stop (hi.piped t) hreturned hthrown
          obtain ⟨l, hl, hsome⟩ := hexists
          obtain ⟨loop, hloop⟩ := Option.isSome_iff_exists.mp hsome
          refine ⟨.stops l, trivial, ?_⟩
          simp only [ReactorThreads.step, horders, hthrew, hl, if_true, advance, hloop]
          split <;> rfl
      | join t => exact hi.enabled_join heof hthrew horders

/-! ## The theorem -/

/-- **A shutdown comes to its end.** If the poller reports a pipe whose write end is closed, then
whatever has happened so far the owner can go on, or the thread that it is joining can; and in every
execution in which these are not left out for ever, `run` and `shutdown` return, unless an order
throws. -/
theorem shutdown_returns
    (heof : eof.epollin = true ∨ eof.epollhup = true ∨ eof.epollerr = true) {s₀ : ReactorThreads H}
    (hstart : s₀.Start fdOf sock workers fronts) :
    (∀ ls s, run (step eof fdOf onStop sock onSock onConn workers) s₀ ls = some s → ¬ s.Goal →
      Enabled (step eof fdOf onStop sock onSock onConn workers) Progress s) ∧
      ∀ e : Execution (step eof fdOf onStop sock onSock onConn workers),
        e.state 0 = s₀ → e.WeaklyFair Progress → ∃ n, (e.state n).Goal := by
  refine ⟨fun ls s hrun hgoal => ?_, fun e h0 hfair => ?_⟩
  · have hready : Ready fdOf sock workers fronts s :=
      run_inv _ (fun _ _ => True) (Ready fdOf sock workers fronts)
        (fun _ _ _ hi _ hstep => hi.step hstep) hstart.ready (allSteps_true ..) hrun
    exact hready.enabled heof hgoal
  · have hranked : Ranked (step eof fdOf onStop sock onSock onConn workers)
        (Ready fdOf sock workers fronts) Goal Progress rank := by
      refine ⟨fun s l s' hi hstep => hi.step hstep, fun s hi => hi.enabled heof, ?_, ?_⟩
      · intro s l s' hi _ hstep
        rcases step_cases hstep with howner | ⟨t, r, hrunner, rfl⟩
        · exact (rank_owner howner).le
        · exact (hi.inv.rank_runner hrunner).1
      · intro s l s' hi _ hprogress hstep
        rcases step_cases hstep with howner | ⟨t, r, hrunner, rfl⟩
        · exact rank_owner howner
        · exact (hi.inv.rank_runner hrunner).2 hprogress
    exact hranked.reaches e (h0 ▸ hstart.ready) hfair

end

/-- When all orders are done, nothing that counts is left to do. -/
theorem not_enabled_of_done {eof : EpollEvents} {fdOf : ConnId → Int} {onStop : H}
    {sock : Nat → ConnId} {onSock onConn : H} {workers : Nat} {s : ReactorThreads H}
    (horders : s.orders = []) :
    ¬ Enabled (step eof fdOf onStop sock onSock onConn workers) Progress s := by
  rintro ⟨l, hprogress, hsome⟩
  have hhead : ∀ o, s.orders.head? ≠ some o := by simp [horders]
  cases l with
  | creates ok => simp [ReactorThreads.step, horders] at hsome
  | stops l => simp [ReactorThreads.step, horders] at hsome
  | joins => simp [ReactorThreads.step, horders] at hsome
  | begins t | promises t | ends t => exact hhead _ hprogress
  | loops t l => exact hhead _ hprogress.1
  | handsOver | elsewhere => exact hprogress

/-- The owner is in `join` of the acceptor, which is in the poller; then all goes on to the end. -/
theorem shutdown_returns_single :
    (∃ s, run (step Stopping.hangUp Int.ofNat 0 (fun _ => 3) 1 2 1) single (singleStopped.take 10) =
        some s ∧ ¬ s.Goal ∧
      Enabled (step Stopping.hangUp Int.ofNat 0 (fun _ => 3) 1 2 1) Progress s) ∧
    ∃ e : Execution (step Stopping.hangUp Int.ofNat 0 (fun _ => 3) 1 2 1),
      e.state 0 = single ∧ e.WeaklyFair Progress ∧ ∃ n, (e.state n).Goal := by
  obtain ⟨henabled, hreturns⟩ := @shutdown_returns ℕ Stopping.hangUp Int.ofNat 0 (fun _ => 3) 1 2
    1 1 (.inr (.inl rfl)) single start_single
  have hjoins : (run (step Stopping.hangUp Int.ofNat 0 (fun _ => 3) 1 2 1) single
      (singleStopped.take 10)).map (fun s => (s.orders.length, s.threw)) = some (3, false) := by
    decide +kernel
  have hends : (run (step Stopping.hangUp Int.ofNat 0 (fun _ => 3) 1 2 1) single
      singleStopped).map (·.orders) = some [] := by decide +kernel
  constructor
  · obtain ⟨s, hrun, hat⟩ := Option.map_eq_some_iff.mp hjoins
    have hgoal : ¬ s.Goal := by
      rintro (hnone | hthrew)
      · simp [hnone] at hat
      · simp [hthrew] at hat
    exact ⟨s, hrun, hgoal, henabled _ s hrun hgoal⟩
  · obtain ⟨s, hrun, horders⟩ := Option.map_eq_some_iff.mp hends
    have hfair : (Execution.ofRun hrun).WeaklyFair Progress :=
      Execution.weaklyFair_ofRun hrun (not_enabled_of_done horders)
    exact ⟨Execution.ofRun hrun, rfl, hfair, hreturns (Execution.ofRun hrun) rfl hfair⟩

end ReactorThreads

end Cppev
