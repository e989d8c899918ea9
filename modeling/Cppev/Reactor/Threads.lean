import Mathlib.Data.List.Nodup
import Cppev.EventLoop.Stop

/-!
# The threads of a reactor

A `tcp_server` has workers (`iohandler`) and, in front of them, `acceptor`s; a `tcp_client` has
`connector`s there. Each is a `runnable` with a loop of its own. The one that owns the object calls
`run` and `shutdown`, which are lists of orders to the threads here; a `runnable` does what
`thr_func` does.

Each loop is the machine of `EventLoop/Stop`. The descriptors are those of each loop for itself:
what one loop opens and closes, the others may see or not (`elsewhere`). An exception that leaves
`run_impl` ends the process.

* `shutdown_ordered`: no connection is given to a worker that has been told to stop, and when
  `shutdown` has returned, every thread has come to its end.
-/

namespace Cppev

/-- A worker, or one of those in front: acceptors or connectors. -/
inductive ReactorThread where
  | worker (i : Nat)
  /-- An `acceptor` or a `connector`. -/
  | front (i : Nat)
  deriving DecidableEq, Repr

/-- A call of the owner for one thread. -/
inductive Order where
  | run (t : ReactorThread)
  | shutdown (t : ReactorThread)
  | join (t : ReactorThread)
  deriving DecidableEq, Repr

/-- `tcp_server::run` and `tcp_client::run`. -/
def reactorRun (workers fronts : Nat) : List Order :=
  (List.range workers).map (fun i => .run (.worker i)) ++
    (List.range fronts).map fun i => .run (.front i)

/-- `tcp_server::shutdown` and `tcp_client::shutdown`. -/
def reactorShutdown (workers fronts : Nat) : List Order :=
  (List.range fronts).map (fun i => .shutdown (.front i)) ++
    ((List.range fronts).map (fun i => .join (.front i)) ++
      ((List.range workers).map (fun i => .shutdown (.worker i)) ++
        (List.range workers).map fun i => .join (.worker i)))

/-- All that the owner does. -/
def reactorProgram (workers fronts : Nat) : List Order :=
  reactorRun workers fronts ++ reactorShutdown workers fronts

/-- Which of the six loops of `run` and `shutdown` an order is from. -/
def Order.stage : Order → Nat
  | .run (.worker _) => 0
  | .run (.front _) => 1
  | .shutdown (.front _) => 2
  | .join (.front _) => 3
  | .shutdown (.worker _) => 4
  | .join (.worker _) => 5

/-- How far a `runnable` has come. -/
inductive RunnableLife where
  | idle
  /-- `pthread_create` has returned. -/
  | created
  /-- In `loop_forever`. -/
  | looping
  /-- `prom_` has its value. -/
  | promised
  | ended
  | joined
  deriving DecidableEq, Repr

/-- A `runnable` and its loop. -/
structure Runner (H : Type) where
  life : RunnableLife
  loop : Stopping H

/-- The owner, with the orders that it has still to carry out, and the threads. -/
structure ReactorThreads (H : Type) where
  runner : ReactorThread → Runner H
  /-- What the owner has still to do. -/
  orders : List Order
  /-- An order has thrown. -/
  threw : Bool

/-- The owner carries out an order or a part of one; a thread takes a step. -/
inductive ReactorThreadsLabel (H : Type) where
  /-- The owner: `pthread_create`, a step of `stop_loop_forever`, `pthread_join`. -/
  | creates (ok : Bool)
  | stops (l : StopLabel H)
  | joins
  /-- The thread: `run_impl` up to `loop_forever`, a step of `loop_forever`, and what follows. -/
  | begins (t : ReactorThread)
  | loops (t : ReactorThread) (l : StopLabel H)
  | promises (t : ReactorThread)
  | ends (t : ReactorThread)
  /-- `on_acpt_readable` or `on_pipe_readable` of a front registers a connection with a worker. -/
  | handsOver (front worker : Nat) (conn : ConnId)
  /-- What happens to the descriptors of a loop. -/
  | elsewhere (t : ReactorThread) (l : StopLabel H)

/-- The steps of `loop_forever`. -/
def StopLabel.ofLoop {H : Type} : StopLabel H → Bool
  | .test | .enter | .wake _ | .round _ | .finish => true
  | _ => false

/-- The steps of `stop_loop_forever`. -/
def StopLabel.ofStop {H : Type} : StopLabel H → Bool
  | .setStop | .getPipes _ | .emplace | .activate | .closeWrite => true
  | _ => false

/-- What happens to descriptors. Nobody closes the one that a front has not registered yet. -/
def StopLabel.ofFiles {H : Type} (held : Option Int) : StopLabel H → Bool
  | .release | .opened _ | .becomes _ _ => true
  | .closed fd => held ≠ some fd
  | _ => false

/-! ## What a step of one loop leaves alone

The labels of a loop are those of the thread itself, those of whoever stops it, and those of the
world. Each of the three leaves alone what the other two are about. -/

namespace Stopping

variable {H : Type} {eof : EpollEvents} {fdOf : ConnId → Int} {handler : H} {s s' : Stopping H}
  {l : StopLabel H}

/-- Where the call of `stop_loop_forever` is changes with its own steps only. -/
theorem stopAt_of_not_ofStop (h : step eof fdOf handler s l = some s') (hl : l.ofStop = false) :
    s'.stopAt = s.stopAt := by
  cases l <;> simp only [StopLabel.ofStop, reduceCtorEq] at hl <;> simp only [step] at h <;>
    grind [setKernel]

/-- What the loop is at, and what it has to do, changes with the steps of the thread only. -/
theorem frame_of_not_ofLoop (h : step eof fdOf handler s l = some s') (hl : l.ofLoop = false)
    (hstart : l ≠ .start) :
    s'.loopAt = s.loopAt ∧ s'.once.pending = s.once.pending ∧
      s'.once.loop.evl.fdCbs = s.once.loop.evl.fdCbs := by
  cases l <;> simp only [StopLabel.ofLoop, reduceCtorEq] at hl <;> simp only [step] at h <;>
    grind [setKernel, LoopOnce.fdCbs_call, EventLoop.emplace]

/-- Once it has begun, the loop does not go back. -/
theorem loopAt_ne_notStarted (h : step eof fdOf handler s l = some s') (hl : l.ofLoop = true) :
    s.loopAt ≠ .done ∧ s'.loopAt ≠ .notStarted := by
  cases l <;> simp only [StopLabel.ofLoop, reduceCtorEq] at hl <;> simp only [step] at h <;> grind

end Stopping

namespace ReactorThreads

variable {H : Type}

def setRunner (s : ReactorThreads H) (t : ReactorThread) (r : Runner H) : ReactorThreads H :=
  { s with runner := Function.update s.runner t r }

section

-- As in `EventLoop/Stop`; what each front has to register, the listening socket or the read end of
-- the pipe, with its handler; the handler for a new connection; and how many workers there are.
variable (eof : EpollEvents) (fdOf : ConnId → Int) (onStop : H) (sock : Nat → ConnId) (onSock : H)
  (onConn : H) (workers : Nat)

/-- `run_impl` up to `loop_forever`. -/
def enterLoop (t : ReactorThread) (loop : PolledLoop H Kernel) :
    Except Exn Unit × PolledLoop H Kernel :=
  match t with
  | .worker _ => (.ok (), loop)
  | .front i => epoll.fdRegister fdOf loop (sock i) .fdReadable (some onSock) true .p0

/-- The descriptor that a thread has not registered yet. -/
def held (s : ReactorThreads H) : ReactorThread → Option Int
  | .worker _ => none
  | .front i =>
    if (s.runner (.front i)).life = .idle ∨ (s.runner (.front i)).life = .created then
      some (fdOf (sock i))
    else none

/-- A step of the loop of a thread. -/
def advance (s : ReactorThreads H) (t : ReactorThread) (l : StopLabel H) :
    Option (ReactorThreads H) :=
  match Stopping.step eof fdOf onStop (s.runner t).loop l with
  | some loop => some (s.setRunner t { s.runner t with loop })
  | none => none

def setLife (s : ReactorThreads H) (t : ReactorThread) (life : RunnableLife) : ReactorThreads H :=
  s.setRunner t { s.runner t with life }

def step (s : ReactorThreads H) : ReactorThreadsLabel H → Option (ReactorThreads H)
  | .creates ok =>
    match s.orders, s.threw with
    | .run t :: rest, false =>
      if ok = true then some { s.setLife t .created with orders := rest }
      else some { s with threw := true }
    | _, _ => none
  | .stops l =>
    match s.orders, s.threw with
    | .shutdown t :: rest, false =>
      if l.ofStop = true then
        match s.advance eof fdOf onStop t l with
        | some s' =>
          -- the owner leaves `shutdown` when `stop_loop_forever` returns
          match (s'.runner t).loop.stopAt with
          | .returned => some { s' with orders := rest }
          | .threw => some { s' with threw := true }
          | _ => some s'
        | none => none
      else none
    | _, _ => none
  | .joins =>
    match s.orders, s.threw with
    | .join t :: rest, false =>
      if (s.runner t).life = .ended then some { s.setLife t .joined with orders := rest } else none
    | _, _ => none
  | .begins t =>
    if (s.runner t).life = .created then
      match enterLoop fdOf sock onSock t (s.runner t).loop.once.loop with
      | (.ok (), loop) =>
        some (s.setRunner t
          ⟨.looping, { (s.runner t).loop with
            once := { (s.runner t).loop.once with loop }
            loopAt := .atTest }⟩)
      | (.error _, _) => none
    else none
  | .loops t l =>
    if (s.runner t).life = .looping ∧ l.ofLoop = true then s.advance eof fdOf onStop t l else none
  | .promises t =>
    if (s.runner t).life = .looping ∧ (s.runner t).loop.loopAt = .done then
      some (s.setLife t .promised)
    else none
  | .ends t => if (s.runner t).life = .promised then some (s.setLife t .ended) else none
  | .handsOver i j conn =>
    if (s.runner (.front i)).life = .looping ∧
        (s.runner (.front i)).loop.loopAt = .dispatching ∧ j < workers then
      s.advance eof fdOf onStop (.worker j)
        -- from a handler of the front: the loop of the worker is not its own
        (.other (.register conn .fdWritable (some onConn) true .p0))
    else none
  | .elsewhere t l =>
    if l.ofFiles (s.held fdOf sock t) = true then s.advance eof fdOf onStop t l else none

/-- Nothing has begun. The tables are any; a front has its socket open. -/
structure Start (fronts : Nat) (s : ReactorThreads H) : Prop where
  orders : s.orders = reactorProgram workers fronts
  threw : s.threw = false
  life : ∀ t, (s.runner t).life = .idle
  loop : ∀ t, (s.runner t).loop.Start
  opened : ∀ i, (s.runner (.front i)).loop.kernel.opened (fdOf (sock i)) = true
  unheard : ∀ i, (s.runner (.front i)).loop.kernel.epoll (fdOf (sock i)) = none

end

/-! ## The order of the orders

`run` and `shutdown` are lists. That an order comes before another is a fact about these lists; what
is claimed of a run is then read off how many orders are left. -/

/-- `a` does not come after `b`. -/
def Before (program : List Order) (a b : Order) : Prop :=
  program.Pairwise fun x y => ¬ (x = b ∧ y = a)

/-- While `a` is still to be done, `b` has not been begun. -/
theorem Before.mem_tail {program orders : List Order} {a b : Order} (h : Before program a b)
    (hsuffix : orders <:+ program) (hb : b ∈ program) (ha : a ∈ orders) (hne : a ≠ b) :
    b ∈ orders.tail := by
  obtain ⟨done, rfl⟩ := hsuffix
  obtain ⟨-, horders, hcross⟩ := List.pairwise_append.mp h
  have hmem : b ∈ orders := by
    rcases List.mem_append.mp hb with hb | hb
    · exact absurd ⟨rfl, rfl⟩ (hcross b hb a ha)
    · exact hb
  cases orders with
  | nil => cases ha
  | cons x rest =>
      rcases List.mem_cons.mp hmem with rfl | hrest
      · have harest : a ∈ rest := (List.mem_cons.mp ha).resolve_left hne
        exact absurd ⟨rfl, rfl⟩ ((List.pairwise_cons.mp horders).1 a harest)
      · exact hrest

variable {workers fronts : Nat}

/-- The orders of a program come by stages: fronts are told to stop and joined before a worker is
told anything. -/
theorem pairwise_stage :
    (reactorProgram workers fronts).Pairwise fun x y => x.stage ≤ y.stage := by
  simp only [reactorProgram, reactorRun, reactorShutdown, List.pairwise_append, List.mem_append,
    List.mem_map]
  refine ⟨⟨?_, ?_, ?_⟩, ⟨?_, ⟨?_, ⟨?_, ?_, ?_⟩, ?_⟩, ?_⟩, ?_⟩
  all_goals first
    | (rw [List.pairwise_map]; exact List.pairwise_of_forall fun _ _ => le_rfl)
    | grind [Order.stage]

/-- So an order of an earlier stage comes before. -/
theorem before_of_stage {a b : Order} (h : a.stage < b.stage) :
    Before (reactorProgram workers fronts) a b := by
  refine pairwise_stage.imp ?_
  rintro x y hxy ⟨rfl, rfl⟩
  exact absurd hxy (Nat.not_le.mpr h)

theorem nodup_program : (reactorProgram workers fronts).Nodup := by
  simp only [reactorProgram, reactorRun, reactorShutdown, List.nodup_append, List.mem_append,
    List.mem_map]
  refine ⟨⟨?_, ?_, ?_⟩, ⟨?_, ⟨?_, ⟨?_, ?_, ?_⟩, ?_⟩, ?_⟩, ?_⟩
  all_goals first
    | (refine List.Nodup.map ?_ List.nodup_range; intro i j h; simpa using h)
    | grind

/-- The threads there are. -/
def Member (workers fronts : Nat) : ReactorThread → Prop
  | .worker i => i < workers
  | .front i => i < fronts

/-- Every thread is run, told to stop and joined. -/
theorem mem_program {t : ReactorThread} (h : Member workers fronts t) :
    .run t ∈ reactorProgram workers fronts ∧ .shutdown t ∈ reactorProgram workers fronts ∧
      .join t ∈ reactorProgram workers fronts := by
  cases t <;> simpa [reactorProgram, reactorRun, reactorShutdown, Member] using h

theorem member_of_join {t : ReactorThread} (h : .join t ∈ reactorProgram workers fronts) :
    Member workers fronts t := by
  cases t <;> simpa [reactorProgram, reactorRun, reactorShutdown, Member] using h

/-! ## A step

Everything that can happen, by who does it: `OwnerStep` and `RunnerStep`. -/

section

variable {eof : EpollEvents} {fdOf : ConnId → Int} {onStop : H} {sock : Nat → ConnId} {onSock : H}
  {onConn : H} {s s' : ReactorThreads H} {l : ReactorThreadsLabel H}

/-- A step inside the loop of one thread. -/
theorem advance_eq_some {t : ReactorThread} {l : StopLabel H}
    (h : s.advance eof fdOf onStop t l = some s') :
    ∃ loop, Stopping.step eof fdOf onStop (s.runner t).loop l = some loop ∧
      s' = s.setRunner t { s.runner t with loop } := by
  unfold advance at h
  split at h
  case h_1 loop hloop => exact ⟨loop, hloop, (Option.some.inj h).symm⟩
  case h_2 => cases h

/-- What the owner does. -/
inductive OwnerStep (eof : EpollEvents) (fdOf : ConnId → Int) (onStop : H) (s : ReactorThreads H) :
    ReactorThreadsLabel H → ReactorThreads H → Prop
  | creates (t rest) (horders : s.orders = .run t :: rest) (hthrew : s.threw = false) :
      OwnerStep eof fdOf onStop s (.creates true) { s.setLife t .created with orders := rest }
  | fails (t rest) (horders : s.orders = .run t :: rest) (hthrew : s.threw = false) :
      OwnerStep eof fdOf onStop s (.creates false) { s with threw := true }
  | stops (t rest l loop) (horders : s.orders = .shutdown t :: rest) (hthrew : s.threw = false)
      (hl : l.ofStop = true)
      (hloop : Stopping.step eof fdOf onStop (s.runner t).loop l = some loop) :
      OwnerStep eof fdOf onStop s (.stops l)
        { s.setRunner t { s.runner t with loop } with
          orders := if loop.stopAt = .returned then rest else s.orders
          threw := loop.stopAt = .threw }
  | joins (t rest) (horders : s.orders = .join t :: rest) (hthrew : s.threw = false)
      (hended : (s.runner t).life = .ended) :
      OwnerStep eof fdOf onStop s .joins { s.setLife t .joined with orders := rest }

/-- What happens to a thread and its loop. -/
inductive RunnerStep (eof : EpollEvents) (fdOf : ConnId → Int) (onStop : H) (held : Option Int)
    (t : ReactorThread) (r : Runner H) : ReactorThreadsLabel H → Runner H → Prop
  | begins (loop : PolledLoop H Kernel) (hlife : r.life = .created) :
      RunnerStep eof fdOf onStop held t r (.begins t)
        ⟨.looping, { r.loop with once := { r.loop.once with loop }, loopAt := .atTest }⟩
  | loops (l loop) (hlife : r.life = .looping) (hl : l.ofLoop = true)
      (hloop : Stopping.step eof fdOf onStop r.loop l = some loop) :
      RunnerStep eof fdOf onStop held t r (.loops t l) { r with loop }
  | promises (hlife : r.life = .looping) (hdone : r.loop.loopAt = .done) :
      RunnerStep eof fdOf onStop held t r (.promises t) { r with life := .promised }
  | ends (hlife : r.life = .promised) :
      RunnerStep eof fdOf onStop held t r (.ends t) { r with life := .ended }
  | given (i j conn l loop) (hl : l.ofLoop = false ∧ l.ofStop = false) (hstart : l ≠ .start)
      (hheld : held = none) (hloop : Stopping.step eof fdOf onStop r.loop l = some loop) :
      RunnerStep eof fdOf onStop held t r (.handsOver i j conn) { r with loop }
  | files (l loop) (hl : l.ofFiles held = true)
      (hloop : Stopping.step eof fdOf onStop r.loop l = some loop) :
      RunnerStep eof fdOf onStop held t r (.elsewhere t l) { r with loop }

/-- What the world does is neither the loop's nor the stopper's. -/
theorem ofFiles_others {held : Option Int} {l : StopLabel H} (h : l.ofFiles held = true) :
    (l.ofLoop = false ∧ l.ofStop = false) ∧ l ≠ .start := by
  cases l <;> simp_all [StopLabel.ofFiles, StopLabel.ofLoop, StopLabel.ofStop]

theorem step_cases (h : s.step eof fdOf onStop sock onSock onConn workers l = some s') :
    OwnerStep eof fdOf onStop s l s' ∨
      ∃ t r, RunnerStep eof fdOf onStop (s.held fdOf sock t) t (s.runner t) l r ∧
        s' = s.setRunner t r := by
  cases l with
  | creates ok =>
      simp only [step] at h
      split at h
      case h_1 t rest horders hthrew =>
        cases ok with
        | true =>
            obtain rfl := Option.some.inj h
            exact .inl (.creates t rest horders hthrew)
        | false =>
            obtain rfl := Option.some.inj h
            exact .inl (.fails t rest horders hthrew)
      case h_2 => cases h
  | stops l' =>
      simp only [step] at h
      split at h
      case h_1 t rest horders hthrew =>
        split at h
        case isTrue hl =>
          split at h
          case h_1 s'' hadvance =>
            obtain ⟨loop, hloop, rfl⟩ := advance_eq_some hadvance
            have hstep := OwnerStep.stops t rest l' loop horders hthrew hl hloop
            refine .inl ?_
            -- the owner goes on when `stop_loop_forever` has returned or thrown, and is in it
            -- otherwise
            simp only [setRunner, Function.update_self] at h
            split at h
            case h_1 hreturned =>
              obtain rfl := Option.some.inj h
              simpa [hreturned, hthrew, setRunner] using hstep
            case h_2 hthrown =>
              obtain rfl := Option.some.inj h
              simpa [hthrown, hthrew, setRunner] using hstep
            case h_3 hreturned hthrown =>
              obtain rfl := Option.some.inj h
              simpa [show loop.stopAt ≠ .returned from hreturned,
                show loop.stopAt ≠ .threw from hthrown, hthrew, setRunner] using hstep
          case h_2 => cases h
        case isFalse => cases h
      case h_2 => cases h
  | joins =>
      simp only [step] at h
      split at h
      case h_1 t rest horders hthrew =>
        simp only [Option.ite_none_right_eq_some, Option.some.injEq] at h
        obtain ⟨hended, rfl⟩ := h
        exact .inl (.joins t rest horders hthrew hended)
      case h_2 => cases h
  | begins t =>
      simp only [step, Option.ite_none_right_eq_some] at h
      obtain ⟨hlife, h⟩ := h
      split at h
      case h_1 loop hloop =>
        obtain rfl := Option.some.inj h
        exact .inr ⟨t, _, .begins loop hlife, rfl⟩
      case h_2 => cases h
  | loops t l' =>
      simp only [step, Option.ite_none_right_eq_some] at h
      -- the steps of a runner go on in its own loop only
      obtain ⟨⟨hlife, hl⟩, h⟩ := h
      obtain ⟨loop, hloop, rfl⟩ := advance_eq_some h
      exact .inr ⟨t, _, .loops l' loop hlife hl hloop, rfl⟩
  | promises t =>
      simp only [step, Option.ite_none_right_eq_some, Option.some.injEq] at h
      obtain ⟨⟨hlife, hdone⟩, rfl⟩ := h
      exact .inr ⟨t, _, .promises hlife hdone, rfl⟩
  | ends t =>
      simp only [step, Option.ite_none_right_eq_some, Option.some.injEq] at h
      obtain ⟨hlife, rfl⟩ := h
      exact .inr ⟨t, _, .ends hlife, rfl⟩
  | handsOver i j conn =>
      simp only [step, Option.ite_none_right_eq_some] at h
      obtain ⟨-, h⟩ := h
      obtain ⟨loop, hloop, rfl⟩ := advance_eq_some h
      exact .inr ⟨.worker j, _, .given i j conn _ loop ⟨rfl, rfl⟩ (by simp) rfl hloop, rfl⟩
  | elsewhere t l' =>
      simp only [step, Option.ite_none_right_eq_some] at h
      obtain ⟨hl, h⟩ := h
      obtain ⟨loop, hloop, rfl⟩ := advance_eq_some h
      exact .inr ⟨t, _, .files l' loop hl hloop, rfl⟩

/-! ## The invariant

`Position` ties the state of a thread to the orders that are left: it has been created when its
`run` is gone, it is being stopped while its `shutdown` is first, and it has ended when its `join`
is gone. -/

/-- Where a thread is, given what the owner has still to do. -/
structure Position (program orders : List Order) (threw : Bool) (t : ReactorThread)
    (r : Runner H) : Prop where
  idle : .run t ∈ orders → r.life = .idle
  begun : .run t ∈ program → .run t ∉ orders → r.life ≠ .idle
  untold : .shutdown t ∈ orders.tail → r.loop.stopAt = .idle
  telling : .shutdown t ∈ orders → threw = false →
    r.loop.stopAt ≠ .returned ∧ r.loop.stopAt ≠ .threw
  told : .shutdown t ∈ program → .shutdown t ∉ orders → r.loop.stopAt = .returned
  unjoined : .join t ∈ orders → r.life ≠ .joined
  joined : .join t ∈ program → .join t ∉ orders → r.life = .joined
  loopAt : match r.life with
    | .idle | .created => r.loop.loopAt = .notStarted
    | .looping => r.loop.loopAt ≠ .notStarted
    | .promised | .ended | .joined => r.loop.loopAt = .done

structure Inv (fdOf : ConnId → Int) (workers fronts : Nat) (s : ReactorThreads H) : Prop where
  suffix : s.orders <:+ reactorProgram workers fronts
  loops : ∀ t, Stopping.Inv fdOf (s.runner t).loop
  position : ∀ t, Position (reactorProgram workers fronts) s.orders s.threw t (s.runner t)

theorem Start.inv {fronts : Nat} (h : s.Start fdOf sock workers fronts) :
    Inv fdOf workers fronts s where
  suffix := h.orders ▸ List.suffix_rfl
  loops t := (h.loop t).inv
  position t := by
    have hlife := h.life t
    have hloop := h.loop t
    have horders := h.orders
    refine ⟨fun _ => hlife, ?_, fun _ => hloop.stopAt, ?_, ?_, by simp [hlife], ?_, ?_⟩
    · exact fun hp hno => absurd (horders ▸ hp) hno
    · exact fun _ _ => by simp [hloop.stopAt]
    · exact fun hp hno => absurd (horders ▸ hp) hno
    · exact fun hp hno => absurd (horders ▸ hp) hno
    · simp [hlife, hloop.loopAt]

/-! ### The owner's steps -/

/-- An order for another thread, or another order. -/
theorem Position.pop {program rest : List Order} {o : Order} {threw : Bool} {t : ReactorThread}
    {r : Runner H} (h : Position program (o :: rest) threw t r) (hrun : o ≠ .run t)
    (hshutdown : o ≠ .shutdown t) (hjoin : o ≠ .join t) : Position program rest threw t r where
  idle hmem := h.idle (List.mem_cons_of_mem _ hmem)
  begun hp hno := h.begun hp (by simp [hno, hrun.symm])
  untold hmem := h.untold (List.mem_of_mem_tail hmem)
  telling hmem := h.telling (List.mem_cons_of_mem _ hmem)
  told hp hno := h.told hp (by simp [hno, hshutdown.symm])
  unjoined hmem := h.unjoined (List.mem_cons_of_mem _ hmem)
  joined hp hno := h.joined hp (by simp [hno, hjoin.symm])
  loopAt := h.loopAt

/-- That a call has thrown changes the position of nobody. -/
theorem Position.throws {program orders : List Order} {t : ReactorThread} {r : Runner H}
    (h : Position program orders false t r) (threw : Bool) : Position program orders threw t r :=
  { h with telling := fun hmem _ => h.telling hmem rfl }

/-- What the orders speak of is left alone. -/
theorem Position.of_frame {program orders : List Order} {threw : Bool} {t : ReactorThread}
    {r r' : Runner H} (h : Position program orders threw t r)
    (hidle : r'.life = .idle ↔ r.life = .idle) (hjoined : r'.life = .joined ↔ r.life = .joined)
    (hstopAt : r'.loop.stopAt = r.loop.stopAt)
    (hloopAt : match r'.life with
      | .idle | .created => r'.loop.loopAt = .notStarted
      | .looping => r'.loop.loopAt ≠ .notStarted
      | .promised | .ended | .joined => r'.loop.loopAt = .done) :
    Position program orders threw t r' where
  idle hmem := hidle.mpr (h.idle hmem)
  begun hp hno := mt hidle.mp (h.begun hp hno)
  untold hmem := hstopAt.trans (h.untold hmem)
  telling hmem hno := hstopAt ▸ h.telling hmem hno
  told hp hno := hstopAt.trans (h.told hp hno)
  unjoined hmem := mt hjoined.mp (h.unjoined hmem)
  joined hp hno := hjoined.mpr (h.joined hp hno)
  loopAt := hloopAt

/-! ### The steps of a thread -/

/-- The steps of a thread. -/
theorem Position.step_runner {program orders : List Order} {threw : Bool} {t : ReactorThread}
    {r r' : Runner H} (h : Position program orders threw t r)
    {held : Option Int} (hstep : RunnerStep eof fdOf onStop held t r l r') :
    Position program orders threw t r' := by
  have hat := h.loopAt
  cases hstep with
  | begins loop hlife => exact h.of_frame (by simp [hlife]) (by simp [hlife]) rfl (by simp)
  | loops l loop hlife hl hloop =>
      have hstopAt := Stopping.stopAt_of_not_ofStop hloop (by cases l <;> first | rfl | cases hl)
      refine h.of_frame Iff.rfl Iff.rfl hstopAt ?_
      simp only [hlife]
      exact (Stopping.loopAt_ne_notStarted hloop hl).2
  | promises hlife hdone => exact h.of_frame (by simp [hlife]) (by simp [hlife]) rfl hdone
  | ends hlife =>
      simp only [hlife] at hat
      exact h.of_frame (by simp [hlife]) (by simp [hlife]) rfl hat
  | given i j conn l loop hl hstart hheld hloop =>
      have hstopAt := Stopping.stopAt_of_not_ofStop hloop hl.2
      obtain ⟨hloopAt, -, -⟩ := Stopping.frame_of_not_ofLoop hloop hl.1 hstart
      refine h.of_frame Iff.rfl Iff.rfl hstopAt ?_
      simpa only [hloopAt] using hat
  | files l loop hfiles hloop =>
      obtain ⟨hl, hstart⟩ := ofFiles_others hfiles
      have hstopAt := Stopping.stopAt_of_not_ofStop hloop hl.2
      obtain ⟨hloopAt, -, -⟩ := Stopping.frame_of_not_ofLoop hloop hl.1 hstart
      refine h.of_frame Iff.rfl Iff.rfl hstopAt ?_
      simpa only [hloopAt] using hat

/-- The loop of a thread keeps the invariant of `EventLoop/Stop`. -/
theorem loops_step_runner {t : ReactorThread} {r r' : Runner H} {held : Option Int}
    (h : Stopping.Inv fdOf r.loop) (hstep : RunnerStep eof fdOf onStop held t r l r') :
    Stopping.Inv fdOf r'.loop := by
  cases hstep with
  | begins loop hlife => exact h.of_not_waiting rfl rfl rfl rfl (by simp [Stopping.Waiting])
  | loops l loop hlife hl hloop => exact h.step hloop
  | promises | ends => exact h
  | given i j conn l loop hl hstart hheld hloop => exact h.step hloop
  | files l loop hl hloop => exact h.step hloop

/-- A property of all threads, when one of them changes. -/
theorem forall_setRunner (P : ReactorThread → Runner H → Prop) {t : ReactorThread} {r : Runner H}
    (ht : P t r) (hothers : ∀ t', t' ≠ t → P t' (s.runner t')) :
    ∀ t', P t' ((s.setRunner t r).runner t') :=
  (Function.forall_update_iff s.runner P).mpr ⟨ht, hothers⟩

/-- The owner has created the thread. -/
theorem Position.creates {program rest : List Order} {t : ReactorThread} {r : Runner H}
    (h : Position program (.run t :: rest) false t r) (hfresh : .run t ∉ rest) :
    Position program rest false t { r with life := .created } where
  idle hmem := absurd hmem hfresh
  begun _ _ := by simp
  untold hmem := h.untold (List.mem_of_mem_tail hmem)
  telling hmem := h.telling (List.mem_cons_of_mem _ hmem)
  told hp hno := h.told hp (by simp [hno])
  unjoined _ := by simp
  joined hp hno := by
    have hidle : r.life = .idle := h.idle List.mem_cons_self
    have hjoined : r.life = .joined := h.joined hp (by simp [hno])
    simp [hidle] at hjoined
  loopAt := by
    have hidle : r.life = .idle := h.idle List.mem_cons_self
    have hloopAt := h.loopAt
    rwa [hidle] at hloopAt

/-- The owner has taken a step of `stop_loop_forever` for the thread. -/
theorem Position.stops {program rest : List Order} {t : ReactorThread} {r : Runner H}
    {loop : Stopping H} (h : Position program (.shutdown t :: rest) false t r)
    (hfresh : .shutdown t ∉ rest) (hloopAt : loop.loopAt = r.loop.loopAt) :
    Position program (if loop.stopAt = .returned then rest else .shutdown t :: rest)
      (loop.stopAt = .threw) t { r with loop } := by
  have hat := h.loopAt
  rw [← hloopAt] at hat
  by_cases hreturned : loop.stopAt = .returned
  · rw [if_pos hreturned]
    refine ⟨?_, ?_, ?_, ?_, fun _ _ => hreturned, ?_, ?_, hat⟩
    · exact fun hmem => h.idle (List.mem_cons_of_mem _ hmem)
    · exact fun hp hno => h.begun hp (by simp [hno])
    · exact fun hmem => absurd (List.mem_of_mem_tail hmem) hfresh
    · exact fun hmem => absurd hmem hfresh
    · exact fun hmem => h.unjoined (List.mem_cons_of_mem _ hmem)
    · exact fun hp hno => h.joined hp (by simp [hno])
  · rw [if_neg hreturned]
    refine ⟨h.idle, h.begun, ?_, ?_, ?_, h.unjoined, h.joined, hat⟩
    · exact fun hmem => absurd hmem hfresh
    · exact fun _ hthrew => ⟨hreturned, of_decide_eq_false hthrew⟩
    · exact fun _ hno => absurd List.mem_cons_self hno

/-- The owner has joined the thread. -/
theorem Position.joins {program rest : List Order} {t : ReactorThread} {r : Runner H}
    (h : Position program (.join t :: rest) false t r) (hfresh : .join t ∉ rest)
    (hended : r.life = .ended) : Position program rest false t { r with life := .joined } where
  idle hmem := by
    have hidle : r.life = .idle := h.idle (List.mem_cons_of_mem _ hmem)
    simp [hended] at hidle
  begun _ _ := by simp
  untold hmem := h.untold (List.mem_of_mem_tail hmem)
  telling hmem := h.telling (List.mem_cons_of_mem _ hmem)
  told hp hno := h.told hp (by simp [hno])
  unjoined hmem := absurd hmem hfresh
  joined _ _ := rfl
  loopAt := by
    have hloopAt := h.loopAt
    rwa [hended] at hloopAt

/-! ### All steps -/

/-- The steps of the owner. -/
theorem Inv.step_owner {fronts : Nat} (hi : Inv fdOf workers fronts s)
    (h : OwnerStep eof fdOf onStop s l s') : Inv fdOf workers fronts s' := by
  have hnodup : s.orders.Nodup := hi.suffix.sublist.nodup nodup_program
  have hposition := hi.position
  have hloops (t t' : ReactorThread) (_ : t' ≠ t) := hi.loops t'
  let Loops (_ : ReactorThread) (r : Runner H) := Stopping.Inv fdOf r.loop
  cases h with
  | creates t rest horders hthrew =>
      rw [horders] at hnodup
      simp only [horders, hthrew] at hposition
      have hsuffix : rest <:+ _ := (List.suffix_cons _ rest).trans (horders ▸ hi.suffix)
      refine ⟨hsuffix, forall_setRunner Loops (hi.loops t) (hloops t), ?_⟩
      refine forall_setRunner (Position _ rest s.threw) ?_ fun t' hne => ?_
      · rw [hthrew]
        -- the order for `t` is gone; the orders for the others are where they were
        exact (hposition t).creates (List.nodup_cons.mp hnodup).1
      · rw [hthrew]
        exact (hposition t').pop (by simp [hne.symm]) (by simp) (by simp)
  | fails t rest horders hthrew =>
      simp only [hthrew] at hposition
      exact ⟨hi.suffix, hi.loops, fun t' => (hposition t').throws true⟩
  | stops t rest l' loop horders hthrew hl hloop =>
      rw [horders] at hnodup
      simp only [horders, hthrew] at hposition
      obtain ⟨hloopAt, -, -⟩ := Stopping.frame_of_not_ofLoop hloop
        (by cases l' <;> first | rfl | cases hl) (by rintro rfl; cases hl)
      refine ⟨?_, forall_setRunner Loops ((hi.loops t).step hloop) (hloops t), ?_⟩
      · -- the order is gone only when `stop_loop_forever` has returned
        show (if loop.stopAt = .returned then rest else s.orders) <:+ _
        split
        · exact (List.suffix_cons _ rest).trans (horders ▸ hi.suffix)
        · exact hi.suffix
      · simp only [horders]
        refine forall_setRunner (Position _ _ _) ?_ fun t' hne => ?_
        · exact (hposition t).stops (List.nodup_cons.mp hnodup).1 hloopAt
        · split
          · exact ((hposition t').pop (by simp) (by simp [hne.symm]) (by simp)).throws _
          · exact (hposition t').throws _
  | joins t rest horders hthrew hended =>
      rw [horders] at hnodup
      simp only [horders, hthrew] at hposition
      have hsuffix : rest <:+ _ := (List.suffix_cons _ rest).trans (horders ▸ hi.suffix)
      refine ⟨hsuffix, forall_setRunner Loops (hi.loops t) (hloops t), ?_⟩
      refine forall_setRunner (Position _ rest s.threw) ?_ fun t' hne => ?_
      · rw [hthrew]
        exact (hposition t).joins (List.nodup_cons.mp hnodup).1 hended
      · rw [hthrew]
        exact (hposition t').pop (by simp) (by simp) (by simp [hne.symm])

/-- The steps of the owner and of the threads. -/
theorem Inv.step {fronts : Nat} (hi : Inv fdOf workers fronts s)
    (h : s.step eof fdOf onStop sock onSock onConn workers l = some s') :
    Inv fdOf workers fronts s' := by
  rcases step_cases h with howner | ⟨t, r, hrunner, rfl⟩
  · exact hi.step_owner howner
  · refine ⟨hi.suffix, ?_, ?_⟩
    · exact forall_setRunner (fun _ r => Stopping.Inv fdOf r.loop)
        (loops_step_runner (hi.loops t) hrunner) fun t' _ => hi.loops t'
    · exact forall_setRunner (Position _ s.orders s.threw) ((hi.position t).step_runner hrunner)
        fun t' _ => hi.position t'

theorem Start.inv_of_run {fronts : Nat} {s₀ : ReactorThreads H}
    (hstart : s₀.Start fdOf sock workers fronts) {ls : List (ReactorThreadsLabel H)}
    (hrun : run (step eof fdOf onStop sock onSock onConn workers) s₀ ls = some s) :
    Inv fdOf workers fronts s :=
  run_inv _ (fun _ _ => True) (Inv fdOf workers fronts) (fun _ _ _ hi _ hstep => hi.step hstep)
    hstart.inv (allSteps_true ..) hrun

/-! ## The theorem -/

/-- A worker is told to stop when all fronts have been joined. -/
theorem Inv.joined_of_told {fronts i j : Nat} (hi : Inv fdOf workers fronts s)
    (hfront : Member workers fronts (.front i)) (hworker : Member workers fronts (.worker j))
    (htold : (s.runner (.worker j)).loop.stop = true) :
    (s.runner (.front i)).life = .joined := by
  obtain ⟨-, -, hjoin⟩ := mem_program hfront
  obtain ⟨-, hshutdown, -⟩ := mem_program hworker
  by_cases hmem : .join (.front i) ∈ s.orders
  · have hbefore : Before (reactorProgram workers fronts) (.join (.front i))
        (.shutdown (.worker j)) := before_of_stage (by simp [Order.stage])
    have htail := hbefore.mem_tail hi.suffix hshutdown hmem (by simp)
    have huntold := (hi.position (.worker j)).untold htail
    exact absurd huntold ((hi.loops (.worker j)).stop.mp htold)
  · exact (hi.position (.front i)).joined hjoin hmem

/-- **The order of a shutdown.** In every order of the steps, a worker is told to stop only when each
front has come to its end and has been joined, so no front has a connection for a worker from then
on; what a loop dispatches after it has been told is at most one batch; and when `shutdown` has
returned, each thread has left `loop_forever`, set its promise, come to its end and been joined. -/
theorem shutdown_ordered {fronts : Nat} {s₀ : ReactorThreads H}
    (hstart : s₀.Start fdOf sock workers fronts) {ls : List (ReactorThreadsLabel H)}
    (hrun : run (step eof fdOf onStop sock onSock onConn workers) s₀ ls = some s) :
    (∀ i j, i < fronts → j < workers → (s.runner (.worker j)).loop.stop = true →
      (s.runner (.front i)).life = .joined ∧
        ∀ j' conn, s.step eof fdOf onStop sock onSock onConn workers (.handsOver i j' conn) = none) ∧
      (∀ t, (s.runner t).loop.batches ≤ 1) ∧
      (s.orders = [] → ∀ t, Member workers fronts t →
        (s.runner t).life = .joined ∧ (s.runner t).loop.loopAt = .done) := by
  have hinv := hstart.inv_of_run hrun
  refine ⟨fun i j hfront hworker htold => ?_, fun t => (hinv.loops t).atMost, fun hdone t ht => ?_⟩
  · have hjoined := hinv.joined_of_told hfront hworker htold
    exact ⟨hjoined, fun j' conn => by simp [step, hjoined]⟩
  · have hjoined := (hinv.position t).joined (mem_program ht).2.2 (by simp [hdone])
    have hloopAt := (hinv.position t).loopAt
    rw [hjoined] at hloopAt
    exact ⟨hjoined, hloopAt⟩

end

/-- One worker and one acceptor, whose socket has descriptor 3. -/
def single : ReactorThreads Nat where
  runner _ := ⟨.idle, Stopping.idle.setKernel ⟨fun fd => fd = 3, fun _ => none⟩⟩
  orders := reactorProgram 1 1
  threw := false

/-- The acceptor is stopped in the poller and the worker before its first test. -/
def singleStopped : List (ReactorThreadsLabel Nat) :=
  [.creates true, .creates true, .begins (.front 0), .loops (.front 0) .test,
    .loops (.front 0) .enter, .stops .setStop, .stops (.getPipes (some (5, 6))), .stops .emplace,
    .stops .activate, .stops .closeWrite, .loops (.front 0) (.wake [(5, Stopping.hangUp)]),
    .loops (.front 0) (.round .scan), .loops (.front 0) .finish, .loops (.front 0) .test,
    .promises (.front 0), .ends (.front 0), .joins, .stops .setStop,
    .stops (.getPipes (some (5, 6))), .stops .emplace, .stops .activate, .stops .closeWrite,
    .begins (.worker 0), .loops (.worker 0) .test, .promises (.worker 0), .ends (.worker 0), .joins]

theorem start_single : single.Start Int.ofNat (fun _ => 3) 1 1 :=
  ⟨rfl, rfl, fun _ => rfl, fun _ => ⟨rfl, rfl, rfl, rfl, rfl⟩, fun _ => rfl, fun _ => rfl⟩

/-- Both are created, told to stop and joined. -/
theorem shutdown_ordered_single :
    ∃ s, run (step Stopping.hangUp Int.ofNat 0 (fun _ => 3) 1 2 1) single singleStopped = some s ∧
      s.orders = [] ∧
      (s.runner (.front 0)).life = .joined ∧ (s.runner (.front 0)).loop.loopAt = .done ∧
      (s.runner (.worker 0)).loop.batches ≤ 1 := by
  have hends : (run (step Stopping.hangUp Int.ofNat 0 (fun _ => 3) 1 2 1) single
      singleStopped).map (·.orders) = some [] := by decide +kernel
  obtain ⟨s, hrun, horders⟩ := Option.map_eq_some_iff.mp hends
  obtain ⟨-, hbatches, hended⟩ := shutdown_ordered start_single hrun
  obtain ⟨hjoined, hdone⟩ := hended horders (.front 0) Nat.one_pos
  exact ⟨s, hrun, horders, hjoined, hdone, hbatches _⟩

end ReactorThreads

end Cppev
