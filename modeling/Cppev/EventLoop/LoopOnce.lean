import Cppev.EventLoop.Agreement
import Cppev.EventLoop.Dispatch
import Cppev.Lib.Drain

/-!
# One call of `loop_once`

After the poller has returned, the `for` loop goes through the batch: for each event it takes the
lock, looks at the entries of the descriptor and puts their handlers in the queue. Then the `while`
loop invokes them. Between the rounds other threads register and remove what they like, and between
those of the `while` loop so do the handlers.

* `loopOnce_spec`: what the call has invoked when it returns, in what order, and that it returns.
-/

namespace Cppev

/-! ## Rounds -/

/-- The handlers that an event asks for, given the table. -/
def Backend.matching {H K E : Type} (b : Backend K E) (fds : List (Entry H)) (ev : Int × E) :
    List (FdCb H) :=
  (fds.filter fun e => e.fd = ev.1 && e.ev.meets (b.toEvent ev.2)).map Entry.cb

structure LoopOnce (H K E : Type) where
  loop : PolledLoop H K
  /-- The events that the `for` loop has not come to. -/
  pending : List (Int × E)
  /-- The history: the other events, each with the table that was found, and the handlers that have
  been invoked. -/
  seen : List ((Int × E) × List (Entry H))
  ran : List (FdCb H)

inductive LoopOnceLabel (H : Type) where
  /-- A round of the `for` loop. -/
  | scan
  /-- A round of the `while` loop, for the `i`-th element of the queue. -/
  | invoke (i : Nat)
  /-- What a handler or another thread does. -/
  | call (c : Call H)

/-- A round of one of the two loops. -/
def LoopOnceLabel.round {H : Type} : LoopOnceLabel H → Bool
  | .call _ => false
  | _ => true

namespace LoopOnce

variable {H K E : Type}

def step (b : Backend K E) (fdOf : ConnId → Int) (s : LoopOnce H K E) :
    LoopOnceLabel H → Option (LoopOnce H K E)
  | .scan =>
    match s.pending with
    | ev :: rest =>
      some { s with
        loop := { s.loop with evl := b.enqueue s.loop.evl ev.1 ev.2 }
        pending := rest
        seen := s.seen ++ [(ev, s.loop.evl.fds)] }
    | [] => none
  | .invoke i =>
    if s.pending.isEmpty = true then
      match s.loop.evl.pop i with
      | some (cb, evl) => some { s with loop := { s.loop with evl }, ran := s.ran ++ [cb] }
      | none => none
    else none
  | .call c => some { s with loop := (b.call fdOf s.loop c).2 }

/-- The poller has returned. The table is any. -/
structure Start (s : LoopOnce H K E) : Prop where
  queue : s.loop.evl.fdCbs = []
  seen : s.seen = []
  ran : s.ran = []

/-- Both loops are at their end. -/
def Done (s : LoopOnce H K E) : Prop := s.pending = [] ∧ s.loop.evl.fdCbs = []

/-- The table is left alone until the queue is filled: nobody but the handlers calls. -/
def OnlyHandlers (s : LoopOnce H K E) : LoopOnceLabel H → Prop
  | .call _ => s.pending = []
  | _ => True

/-- What the events so far ask for. -/
def due (b : Backend K E) (s : LoopOnce H K E) : List (FdCb H) :=
  s.seen.flatMap fun scanned => b.matching scanned.2 scanned.1

/-- What has been invoked: for each event of the batch the handlers of the entries that were found
for it, by priority. -/
structure Dispatched (b : Backend K E) (batch : List (Int × E)) (s : LoopOnce H K E) : Prop where
  events : s.seen.map Prod.fst = batch
  ran : s.ran.Perm (s.due b)
  sorted : s.ran.Pairwise fun cb cb' => cb'.prio.value ≤ cb.prio.value
  queue : s.loop.evl.fdCbs = []

variable {b : Backend K E} {fdOf : ConnId → Int} {batch : List (Int × E)} {s s' : LoopOnce H K E}
  {l : LoopOnceLabel H} {ls : List (LoopOnceLabel H)}

theorem fdCbs_enqueue (evl : EventLoop H) (ev : Int × E) :
    (b.enqueue evl ev.1 ev.2).fdCbs = evl.fdCbs ++ b.matching evl.fds ev := rfl

theorem fdCbs_call (loop : PolledLoop H K) (c : Call H) :
    (b.call fdOf loop c).2.evl.fdCbs = loop.evl.fdCbs := by
  cases c with
  | register iop evType handler activate prio => exact Backend.fdCbs_fdRegister ..
  | remove iop clean deactivate => exact Backend.fdCbs_fdRemove ..

/-! ## A step

A round for an event appends the handlers that match it now; a round for a handler takes one of the
greatest priority. In between, handlers and others may change the table. -/

theorem step_cases (h : step b fdOf s l = some s') :
    (∃ ev rest, l = .scan ∧ s.pending = ev :: rest ∧
      s' = { s with
        loop := { s.loop with evl := b.enqueue s.loop.evl ev.1 ev.2 }
        pending := rest
        seen := s.seen ++ [(ev, s.loop.evl.fds)] }) ∨
    (∃ i cb evl, l = .invoke i ∧ s.pending = [] ∧ s.loop.evl.pop i = some (cb, evl) ∧
      s' = { s with loop := { s.loop with evl }, ran := s.ran ++ [cb] }) ∨
    ∃ c, l = .call c ∧ s' = { s with loop := (b.call fdOf s.loop c).2 } := by
  cases l with
  | scan =>
      simp only [step] at h
      split at h
      case h_1 ev rest hpending => exact .inl ⟨ev, rest, rfl, hpending, (Option.some.inj h).symm⟩
      case h_2 => cases h
  | invoke i =>
      simp only [step] at h
      split at h
      case isTrue hempty =>
        split at h
        case h_1 cb evl hpop =>
          have hpending : s.pending = [] := List.isEmpty_iff.mp hempty
          exact .inr (.inl ⟨i, cb, evl, rfl, hpending, hpop, (Option.some.inj h).symm⟩)
        case h_2 => cases h
      case isFalse => cases h
  | call c => exact .inr (.inr ⟨c, rfl, (Option.some.inj h).symm⟩)

/-- The `while` loop starts when the batch is at its end, and takes the queue apart. -/
structure Inv (b : Backend K E) (batch : List (Int × E)) (s : LoopOnce H K E) : Prop where
  events : s.seen.map Prod.fst ++ s.pending = batch
  ran : s.pending ≠ [] → s.ran = []
  queue : Draining (fun cb : FdCb H => cb.prio.value) (s.due b) s.ran s.loop.evl.fdCbs

theorem Inv.step (hi : Inv b batch s) (h : LoopOnce.step b fdOf s l = some s') :
    Inv b batch s' := by
  obtain ⟨ev, rest, -, hpending, rfl⟩ | ⟨i, cb, evl, -, hpending, hpop, rfl⟩ | ⟨c, -, rfl⟩ :=
    step_cases h
  · -- a round of the `for` loop, before any handler has been invoked
    have hran : s.ran = [] := hi.ran (by simp [hpending])
    refine ⟨?_, fun _ => hran, ?_⟩
    · rw [← hi.events, hpending]
      simp
    · have hqueue := hi.queue
      rw [hran] at hqueue
      have hfilled := hqueue.fill (b.matching s.loop.evl.fds ev)
      simpa [due, hran, fdCbs_enqueue] using hfilled
  · obtain ⟨hget, -, hmax, rfl⟩ := Dispatch.pop_spec hpop
    refine ⟨hi.events, fun hne => absurd hpending hne, ?_⟩
    exact hi.queue.pop hget hmax
  · -- a call leaves the queue alone
    refine ⟨hi.events, hi.ran, ?_⟩
    show Draining _ (s.due b) s.ran (b.call fdOf s.loop c).2.evl.fdCbs
    rw [fdCbs_call]
    exact hi.queue

theorem Start.due (h : Start s) : s.due b = [] := by
  simp [LoopOnce.due, h.seen]

theorem Start.inv (h : Start s) : Inv b s.pending s := by
  refine ⟨?_, fun _ => h.ran, ?_⟩
  · simp [h.seen]
  · rw [h.due, h.ran, h.queue]
    exact Draining.start _

theorem Inv.dispatched (hi : Inv b batch s) (hdone : s.Done) : Dispatched b batch s := by
  obtain ⟨hpending, hqueue⟩ := hdone
  have hdrained := hi.queue
  rw [hqueue] at hdrained
  refine ⟨?_, hdrained.perm_of_empty, hdrained.sorted, hqueue⟩
  have hevents := hi.events
  rwa [hpending, List.append_nil] at hevents

/-! ## How many rounds

There are as many rounds for events as the batch has events, and as many for handlers as have been
put into the queue. -/

theorem exists_round (h : ¬ s.Done) :
    ∃ l : LoopOnceLabel H, l.round = true ∧ (LoopOnce.step b fdOf s l).isSome = true := by
  cases hpending : s.pending with
  | cons ev rest => exact ⟨.scan, rfl, by simp [LoopOnce.step, hpending]⟩
  | nil =>
      have hqueue : s.loop.evl.fdCbs ≠ [] := fun hempty => h ⟨hpending, hempty⟩
      obtain ⟨i, cb, evl, hpop⟩ := Dispatch.exists_pop hqueue
      exact ⟨.invoke i, rfl, by simp [LoopOnce.step, hpending, hpop]⟩

theorem countP_step (h : LoopOnce.step b fdOf s l = some s') :
    s'.seen.length + s'.ran.length = s.seen.length + s.ran.length + [l].countP (·.round) := by
  obtain ⟨ev, rest, rfl, -, rfl⟩ | ⟨i, cb, evl, rfl, -, -, rfl⟩ | ⟨c, rfl, rfl⟩ := step_cases h
  · simp [LoopOnceLabel.round]
    omega
  · simp [LoopOnceLabel.round]
    omega
  · simp [LoopOnceLabel.round]

/-- Each round is one for an event, or one for a handler. -/
theorem Start.rounds (h : Start s) (hrun : run (LoopOnce.step b fdOf) s ls = some s') :
    ls.countP (·.round) = s'.seen.length + s'.ran.length := by
  let Counted (hist : List (LoopOnceLabel H)) (s : LoopOnce H K E) : Prop :=
    hist.countP (·.round) = s.seen.length + s.ran.length
  have hstart : Counted [] s := by simp [Counted, h.seen, h.ran]
  refine run_hist (LoopOnce.step b fdOf) Counted ?_ hstart hrun
  intro hist s l s' hcount hstep
  show (hist ++ [l]).countP (·.round) = _
  rw [List.countP_append, hcount, countP_step hstep]

/-! ## When only handlers call

The table is as it was until the first handler runs, so what is due can be read off the table at the
beginning. -/

/-- The table that each event finds is the same. -/
structure Untouched (fds : List (Entry H)) (s : LoopOnce H K E) : Prop where
  now : s.pending ≠ [] → s.loop.evl.fds = fds
  seen : ∀ scanned ∈ s.seen, scanned.2 = fds

theorem Untouched.step {fds : List (Entry H)} (hi : Untouched fds s) (hok : OnlyHandlers s l)
    (h : LoopOnce.step b fdOf s l = some s') : Untouched fds s' := by
  obtain ⟨ev, rest, -, hpending, rfl⟩ | ⟨i, cb, evl, -, hpending, hpop, rfl⟩ | ⟨c, rfl, rfl⟩ :=
    step_cases h
  · have hnow : s.loop.evl.fds = fds := hi.now (by simp [hpending])
    refine ⟨fun _ => hnow, fun scanned hscanned => ?_⟩
    rcases List.mem_append.mp hscanned with hscanned | hscanned
    · exact hi.seen scanned hscanned
    · obtain rfl := List.mem_singleton.mp hscanned
      exact hnow
  · exact ⟨fun hne => absurd hpending hne, hi.seen⟩
  · exact ⟨fun hne => absurd hok hne, hi.seen⟩

theorem Untouched.due {fds : List (Entry H)} (h : Untouched fds s) :
    s.due b = (s.seen.map Prod.fst).flatMap (b.matching fds) := by
  rw [List.flatMap_map]
  refine List.flatMap_congr fun scanned hscanned => ?_
  rw [h.seen scanned hscanned]

/-! ## The theorem

The invariant (`Inv`) keeps the events and the handlers that have had their round. -/

/-- **One call of `loop_once`.** When it returns, it has invoked for each event of the batch exactly
the handlers of the entries that were in the table when its turn came, are of its descriptor and
meet it, once each, and all of them by priority; the queue is empty. If nobody but the handlers
registers and removes, these are the entries from the beginning. And it returns: there is always a
round left to make, and no more rounds than there are events and handlers. -/
theorem loopOnce_spec (b : Backend K E) (fdOf : ConnId → Int) (s₀ : LoopOnce H K E)
    (hstart : s₀.Start) {ls : List (LoopOnceLabel H)} {s : LoopOnce H K E}
    (hrun : run (LoopOnce.step b fdOf) s₀ ls = some s) :
    (s.Done → Dispatched b s₀.pending s) ∧
      (AllSteps (LoopOnce.step b fdOf) OnlyHandlers s₀ ls → s.Done →
        s.due b = s₀.pending.flatMap (b.matching s₀.loop.evl.fds)) ∧
      (¬ s.Done → ∃ l : LoopOnceLabel H,
        l.round = true ∧ (LoopOnce.step b fdOf s l).isSome = true) ∧
      ls.countP (·.round) ≤ s₀.pending.length + (s.due b).length := by
  have hinv : Inv b s₀.pending s :=
    run_inv _ (fun _ _ => True) (Inv b s₀.pending) (fun _ _ _ hi _ hstep => hi.step hstep)
      hstart.inv (allSteps_true ..) hrun
  refine ⟨hinv.dispatched, ?_, exists_round, ?_⟩
  · -- the table of the beginning is the one that every event has found
    intro hok hdone
    have huntouched : Untouched s₀.loop.evl.fds s := by
      refine run_inv _ OnlyHandlers (Untouched s₀.loop.evl.fds)
        (fun _ _ _ hi hl hstep => hi.step hl hstep) ⟨fun _ => rfl, ?_⟩ hok hrun
      simp [hstart.seen]
    rw [huntouched.due, (hinv.dispatched hdone).events]
  · rw [hstart.rounds hrun]
    have hseen : s.seen.length ≤ s₀.pending.length := by
      rw [← hinv.events, List.length_append, List.length_map]
      exact Nat.le_add_right _ _
    have hran : s.ran.length ≤ (s.due b).length := by
      rw [← hinv.queue.length_add]
      exact Nat.le_add_right _ _
    exact Nat.add_le_add hseen hran

/-- Two descriptors are ready, one of them with two handlers. -/
def twoReady : LoopOnce Nat Kernel EpollEvents where
  loop :=
    { evl := ⟨0, [⟨5, .p6, 5, 0, .fdReadable⟩, ⟨5, .p0, 5, 1, ⟨true, true⟩⟩,
        ⟨6, .p3, 6, 2, .fdWritable⟩], []⟩
      poller :=
        ⟨fun _ => true, fun fd => if fd < 7 then some ⟨true, true, false, false⟩ else none⟩ }
  pending := [(5, ⟨true, false, false, false⟩), (6, ⟨true, true, false, false⟩)]
  seen := []
  ran := []

/-- The first handler registers a third descriptor, the second one removes its own. -/
def twoReadyRounds : List (LoopOnceLabel Nat) :=
  [.scan, .scan, .invoke 1, .call (.register 7 .fdReadable (some 3) true .p0), .invoke 1,
    .call (.remove 6 true true), .invoke 0]

theorem loopOnce_spec_twoReady :
    ∃ s, run (LoopOnce.step epoll Int.ofNat) twoReady twoReadyRounds = some s ∧
      Dispatched epoll twoReady.pending s ∧
      s.due epoll = [⟨.p6, 5, 0⟩, ⟨.p0, 5, 1⟩, ⟨.p3, 6, 2⟩] ∧
      twoReadyRounds.countP (·.round) ≤ 2 + (s.due epoll).length := by
  have hends : (run (LoopOnce.step epoll Int.ofNat) twoReady twoReadyRounds).map
      (fun s => s.pending.isEmpty && s.loop.evl.fdCbs.isEmpty) = some true := by decide +kernel
  obtain ⟨s, hrun, hempty⟩ := Option.map_eq_some_iff.mp hends
  have hdone : s.Done := by simpa [Done] using hempty
  have hok : AllSteps (LoopOnce.step epoll Int.ofNat) OnlyHandlers twoReady twoReadyRounds :=
    ⟨trivial, trivial, trivial, rfl, trivial, rfl, trivial, trivial⟩
  obtain ⟨hdispatched, hdue, -, hrounds⟩ :=
    loopOnce_spec epoll Int.ofNat twoReady ⟨rfl, rfl, rfl⟩ hrun
  exact ⟨s, hrun, hdispatched hdone, hdue hok hdone, hrounds⟩

end LoopOnce

end Cppev
