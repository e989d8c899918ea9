import Mathlib.Data.List.MinMax
import Cppev.EventLoop.Backend
import Cppev.Lib.Transition

/-!
# Handlers after removal

`loop_once` on either poller: a poll fills the queue, and then the handlers in the queue are invoked
one after the other, by priority. In between, handlers (and other threads) register and remove.

`fd_remove` with `clean` takes the entries out of `fds_`. It leaves the queue alone.

* `dispatch_spec`: no handler of a removed `nio` is invoked, as long as a `nio` is removed while none
  of its handlers is in the queue; and a handler that is in the queue can still be invoked.
-/

namespace Cppev

/-! ## The queue -/

structure Dispatch (H K : Type) where
  loop : PolledLoop H K
  /-- The history: what has been removed with `clean`, and not been registered since with a handler;
  and whether a handler of such a `nio` has been invoked. -/
  removed : ConnId → Bool
  stale : Bool

inductive DispatchLabel (H E : Type) where
  | poll (evs : List (Int × E))
  /-- The `i`-th element of the queue is invoked. -/
  | invoke (i : Nat)
  | register (iop : ConnId) (evType : FdEvent) (handler : Option H) (activate : Bool)
      (prio : Priority)
  | remove (iop : ConnId) (clean deactivate : Bool)

namespace Dispatch

variable {H K E : Type} {b : Backend K E} {fdOf : ConnId → Int}

def step (b : Backend K E) (fdOf : ConnId → Int) (s : Dispatch H K) :
    DispatchLabel H E → Option (Dispatch H K)
  | .poll evs =>
    have := b.batchDecidable s.loop.poller evs
    if s.loop.evl.fdCbs.isEmpty = true ∧ b.Batch s.loop.poller evs then
      some { s with loop := { s.loop with evl := b.collect s.loop.evl evs } }
    else none
  | .invoke i =>
    match s.loop.evl.pop i with
    | some (cb, evl) =>
      some { s with loop := { s.loop with evl }, stale := s.stale || s.removed cb.iop }
    | none => none
  | .register iop evType handler activate prio =>
    some { s with
      loop := (b.fdRegister fdOf s.loop iop evType handler activate prio).2
      removed := if handler.isSome = true then Function.update s.removed iop false else s.removed }
  | .remove iop clean deactivate =>
    let out := b.fdRemove fdOf s.loop iop clean deactivate
    some { s with
      loop := out.2
      removed :=
        if clean = true ∧ out.1.isOk = true then Function.update s.removed iop true
        else s.removed }

/-- Before a call of `loop_once`, with any table. -/
structure Start (fdOf : ConnId → Int) (s : Dispatch H K) : Prop where
  queue : s.loop.evl.fdCbs = []
  table : ∀ e ∈ s.loop.evl.fds, e.fd = fdOf e.iop
  removed : ∀ c, s.removed c = false
  stale : s.stale = false

/-- A `nio` is removed, with `clean`, while no handler of it is in the queue. -/
def NotQueued (s : Dispatch H K) : DispatchLabel H E → Prop
  | .remove iop true _ => ∀ cb ∈ s.loop.evl.fdCbs, cb.iop ≠ iop
  | _ => True

instance (s : Dispatch H K) (l : DispatchLabel H E) : Decidable (s.NotQueued l) := by
  unfold NotQueued
  split <;> infer_instance

/-- A removed `nio` has no entry left, in the table or in the queue. -/
structure Clean (fdOf : ConnId → Int) (s : Dispatch H K) : Prop where
  table : ∀ e ∈ s.loop.evl.fds, e.fd = fdOf e.iop ∧ s.removed e.iop = false
  queue : ∀ cb ∈ s.loop.evl.fdCbs, s.removed cb.iop = false
  stale : s.stale = false

variable {s s' : Dispatch H K} {l : DispatchLabel H E}

/-! ## Handlers in the queue

A handler is in the queue because its entry was in the table. `NotQueued` asks that none is there
for what is removed; then the queue only holds what the table has. -/

theorem isOk_iff {r : Except Exn Unit} : r.isOk = true ↔ r = .ok () := by
  cases r <;> simp [Except.isOk, Except.toBool]

theorem pop_spec {evl evl' : EventLoop H} {i : Nat} {cb : FdCb H}
    (h : evl.pop i = some (cb, evl')) :
    evl.fdCbs[i]? = some cb ∧ cb ∈ evl.fdCbs ∧
      (∀ cb' ∈ evl.fdCbs, cb'.prio.value ≤ cb.prio.value) ∧
      evl' = { evl with fdCbs := evl.fdCbs.eraseIdx i } := by
  unfold EventLoop.pop at h
  split at h
  case h_1 cb' hget =>
    split at h
    case isTrue hmax =>
      obtain ⟨rfl, rfl⟩ := Prod.mk.inj (Option.some.inj h)
      exact ⟨hget, List.mem_of_getElem? hget, hmax, rfl⟩
    case isFalse => cases h
  case h_2 => cases h

/-- By the kinds of labels: a poll puts in what the table has, and a removal takes away what is not
in the queue. -/
theorem Clean.step (hi : Clean fdOf s) (hok : NotQueued s l)
    (hstep : Dispatch.step b fdOf s l = some s') : Clean fdOf s' := by
  cases l with
  | poll evs =>
      simp only [Dispatch.step] at hstep
      split at hstep
      case isTrue =>
        obtain rfl := Option.some.inj hstep
        refine ⟨fun e he => hi.table e (by simpa using he), fun cb hcb => ?_, hi.stale⟩
        rcases Backend.mem_collect hcb with hq | ⟨e, he, rfl⟩
        · exact hi.queue cb hq
        · exact (hi.table e he).2
      case isFalse => cases hstep
  | invoke i =>
      simp only [Dispatch.step] at hstep
      split at hstep
      case h_1 cb evl hpop =>
        obtain rfl := Option.some.inj hstep
        obtain ⟨-, hmem, -, rfl⟩ := pop_spec hpop
        refine ⟨hi.table, fun cb' hcb => hi.queue cb' (List.mem_of_mem_eraseIdx hcb), ?_⟩
        simp [hi.stale, hi.queue cb hmem]
      case h_2 => cases hstep
  | register iop evType handler activate prio =>
      obtain rfl := Option.some.inj hstep
      -- what is registered again counts as not removed
      have hmono : ∀ c, s.removed c = false →
          (if handler.isSome = true then Function.update s.removed iop false else s.removed) c =
            false := by
        intro c hc
        split
        · by_cases hci : c = iop
          · simp [hci]
          · simpa [hci] using hc
        · exact hc
      refine ⟨fun e he => ?_, fun cb hcb => ?_, hi.stale⟩
      · rw [Backend.fds_fdRegister] at he
        rcases List.mem_append.mp he with he | he
        · exact ⟨(hi.table e he).1, hmono _ (hi.table e he).2⟩
        · cases handler with
          | none => cases he
          | some h =>
              obtain rfl := List.mem_singleton.mp he
              simp
      · rw [Backend.fdCbs_fdRegister] at hcb
        exact hmono _ (hi.queue cb hcb)
  | remove iop clean deactivate =>
      obtain rfl := Option.some.inj hstep
      by_cases hdone : clean = true ∧ (b.fdRemove fdOf s.loop iop clean deactivate).1 = .ok ()
      · obtain ⟨rfl, hret⟩ := hdone
        have hremoved : ∀ c ≠ iop, Function.update s.removed iop true c = s.removed c :=
          fun c hc => Function.update_of_ne hc _ _
        refine ⟨fun e he => ?_, fun cb hcb => ?_, hi.stale⟩
        · simp only [Backend.fds_fdRemove, hret, and_self, if_true] at he
          obtain ⟨hmem, hfd⟩ := List.mem_filter.mp he
          have hne : e.iop ≠ iop := by
            rintro rfl
            simp [(hi.table e hmem).1] at hfd
          simpa [isOk_iff, hret, hremoved _ hne] using hi.table e hmem
        · simp only [Backend.fdCbs_fdRemove] at hcb
          have hne : cb.iop ≠ iop := hok cb hcb
          simpa [isOk_iff, hret, hremoved _ hne] using hi.queue cb hcb
      · -- nothing has been cleaned
        refine ⟨fun e he => ?_, fun cb hcb => ?_, hi.stale⟩
        · simp only [Backend.fds_fdRemove, if_neg hdone] at he
          simpa only [isOk_iff, if_neg hdone] using hi.table e he
        · simp only [Backend.fdCbs_fdRemove] at hcb
          simpa only [isOk_iff, if_neg hdone] using hi.queue cb hcb

theorem Start.clean (h : Start fdOf s) : Clean fdOf s :=
  ⟨fun e he => ⟨h.table e he, h.removed e.iop⟩, fun cb hcb => by simp [h.queue] at hcb, h.stale⟩

/-- As long as the queue is not empty, some element of it can come next. -/
theorem exists_pop {evl : EventLoop H} (hne : evl.fdCbs ≠ []) :
    ∃ i cb evl', evl.pop i = some (cb, evl') := by
  let value : FdCb H → Int := fun cb => cb.prio.value
  obtain ⟨cb, hmax⟩ : ∃ cb, evl.fdCbs.argmax value = some cb :=
    Option.ne_none_iff_exists'.mp (mt List.argmax_eq_none.mp hne)
  obtain ⟨i, hget⟩ := List.mem_iff_getElem?.mp (List.argmax_mem hmax)
  have hle : ∀ cb' ∈ evl.fdCbs, value cb' ≤ value cb :=
    fun cb' hcb' => List.le_of_mem_argmax hcb' hmax
  exact ⟨i, cb, { evl with fdCbs := evl.fdCbs.eraseIdx i }, by
    simpa [EventLoop.pop, hget] using hle⟩

/-! ## The theorem

If a removal leaves a handler in the queue, the rest of the round invokes it: nothing takes it out
again. -/

/-- What has been removed and is in the queue comes out of it: if nothing else happens, the queue is
emptied. -/
theorem exists_stale {cb : FdCb H} (hcb : cb ∈ s.loop.evl.fdCbs) (hrem : s.removed cb.iop = true) :
    ∃ (ls : List (DispatchLabel H E)) (s' : Dispatch H K),
      run (Dispatch.step b fdOf) s ls = some s' ∧ s'.stale = true := by
  -- the induction is on the length of the queue
  induction hn : s.loop.evl.fdCbs.length generalizing s with
  | zero => simp [List.length_eq_zero_iff.mp hn] at hcb
  | succ n ih =>
      obtain ⟨i, cb', evl', hpop⟩ := exists_pop (List.ne_nil_of_mem hcb)
      have hstep : Dispatch.step b fdOf s (.invoke i) =
          some { s with
            loop := { s.loop with evl := evl' }
            stale := s.stale || s.removed cb'.iop } := by
        simp [Dispatch.step, hpop]
      obtain ⟨hget, -, -, rfl⟩ := pop_spec hpop
      by_cases hstale : s.removed cb'.iop = true
      · exact ⟨[.invoke i], _, run_cons_of_some hstep, by simp [hstale]⟩
      · have hleft : cb ∈ s.loop.evl.fdCbs.eraseIdx i := by
          obtain ⟨j, hj⟩ := List.mem_iff_getElem?.mp hcb
          refine List.mem_eraseIdx_iff_getElem?.mpr ⟨j, ?_, hj⟩
          rintro rfl
          exact hstale (Option.some.inj (hj.symm.trans hget) ▸ hrem)
        have hlen : (s.loop.evl.fdCbs.eraseIdx i).length = n := by
          have hlt : i < s.loop.evl.fdCbs.length := (List.getElem?_eq_some_iff.mp hget).1
          rw [List.length_eraseIdx_of_lt hlt, hn]
          rfl
        obtain ⟨ls, s', hrun, hs'⟩ := ih (s := { s with
          loop := { s.loop with evl := { s.loop.evl with fdCbs := s.loop.evl.fdCbs.eraseIdx i } }
          stale := s.stale || s.removed cb'.iop }) hleft hrem hlen
        exact ⟨.invoke i :: ls, s', (run_cons_of_some hstep).trans hrun, hs'⟩

theorem not_notQueued {iop : ConnId} {clean deactivate : Bool}
    (h : ¬ NotQueued s (.remove iop clean deactivate : DispatchLabel H E)) :
    clean = true ∧ ∃ cb ∈ s.loop.evl.fdCbs, cb.iop = iop := by
  cases clean with
  | false => exact absurd trivial h
  | true => simpa [NotQueued] using h

/-- **Handlers of what has been removed.** On either poller: if each call of `fd_remove` with `clean`
comes while no handler of that `nio` is in the queue, no handler is invoked after its `nio` has been
removed; and after a call that returns although there is one, there are steps that invoke it. -/
theorem dispatch_spec (b : Backend K E) (fdOf : ConnId → Int) (s₀ : Dispatch H K)
    (hstart : Start fdOf s₀) :
    (∀ ls s, AllSteps (Dispatch.step b fdOf) NotQueued s₀ ls →
      run (Dispatch.step b fdOf) s₀ ls = some s → s.stale = false) ∧
    ∀ ls s iop clean deactivate s', run (Dispatch.step b fdOf) s₀ ls = some s →
      ¬ NotQueued s (.remove iop clean deactivate : DispatchLabel H E) →
      (b.fdRemove fdOf s.loop iop clean deactivate).1 = .ok () →
      Dispatch.step b fdOf s (.remove iop clean deactivate) = some s' →
      ∃ ls' s'', run (Dispatch.step b fdOf) s' ls' = some s'' ∧ s''.stale = true := by
  refine ⟨fun ls s hok hrun => ?_, fun ls s iop clean deactivate s' _ hqueued hret hstep => ?_⟩
  · exact (run_inv _ _ (Clean fdOf) (fun _ _ _ hi hl hs => hi.step hl hs) hstart.clean hok hrun).stale
  · obtain ⟨rfl, cb, hcb, rfl⟩ := not_notQueued hqueued
    obtain rfl := Option.some.inj hstep
    refine @exists_stale _ _ _ _ _ _ cb ?_ ?_
    · simpa only [Backend.fdCbs_fdRemove] using hcb
    · simp [isOk_iff, hret]

/-- An epoll loop without entries. -/
def empty : Dispatch Nat Kernel :=
  ⟨⟨⟨0, [], []⟩, ⟨fun _ => true, fun _ => none⟩⟩, fun _ => false, false⟩

theorem start_empty : Start Int.ofNat empty :=
  ⟨rfl, fun _ he => absurd he List.not_mem_nil, fun _ => rfl, rfl⟩

/-- Two readable descriptors in one batch, and the first handler is being invoked. -/
def bothReadable : List (DispatchLabel Nat EpollEvents) :=
  [.register 5 .fdReadable (some 0) true .p0, .register 6 .fdReadable (some 0) true .p0,
    .poll [(5, ⟨true, false, false, false⟩), (6, ⟨true, false, false, false⟩)], .invoke 0]

/-- The first handler removes its own `nio`; or it removes the other one. -/
theorem dispatch_spec_both : Start Int.ofNat empty ∧
    (∃ s, run (Dispatch.step epoll Int.ofNat) empty
      (bothReadable ++ [.remove 5 true true, .invoke 0]) = some s ∧ s.stale = false) ∧
    ∃ ls s, run (Dispatch.step epoll Int.ofNat) empty
      (bothReadable ++ [.remove 6 true true] ++ ls) = some s ∧ s.stale = true := by
  refine ⟨start_empty, ?_, ?_⟩
  · have hok : AllSteps (Dispatch.step epoll Int.ofNat) NotQueued empty
        (bothReadable ++ [.remove 5 true true, .invoke 0]) := by decide +kernel
    obtain ⟨s, hs⟩ := Option.isSome_iff_exists.mp
      (show (run (Dispatch.step epoll Int.ofNat) empty
        (bothReadable ++ [.remove 5 true true, .invoke 0])).isSome = true by decide +kernel)
    exact ⟨s, hs, (dispatch_spec epoll Int.ofNat empty start_empty).1 _ s hok hs⟩
  · have hqueued : (run (Dispatch.step epoll Int.ofNat) empty bothReadable).map (fun s => decide
        (¬ NotQueued s (.remove 6 true true : DispatchLabel Nat EpollEvents) ∧
          (epoll.fdRemove Int.ofNat s.loop 6 true true).1.isOk = true)) = some true := by
      decide +kernel
    obtain ⟨s, hs, hd⟩ := Option.map_eq_some_iff.mp hqueued
    obtain ⟨hnot, hret⟩ := of_decide_eq_true hd
    obtain ⟨ls, s', hrun, hstale⟩ := (dispatch_spec epoll Int.ofNat empty start_empty).2
      bothReadable s 6 true true _ hs hnot (isOk_iff.mp hret) rfl
    refine ⟨ls, s', ?_, hstale⟩
    rw [run_append, run_append, hs]
    exact hrun

/-- The first handler removes the other `nio`, whose handler comes next. -/
theorem invoked_after_removal :
    ¬ ∀ (s₀ s : Dispatch Nat Kernel) (ls : List (DispatchLabel Nat EpollEvents)),
      Start Int.ofNat s₀ → run (Dispatch.step epoll Int.ofNat) s₀ ls = some s →
        s.stale = false := by
  intro h
  have hstale : (run (Dispatch.step epoll Int.ofNat) empty
      (bothReadable ++ [.remove 6 true true, .invoke 0])).map Dispatch.stale = some true := by
    decide +kernel
  obtain ⟨s, hs, hs'⟩ := Option.map_eq_some_iff.mp hstale
  simp [h empty s _ start_empty hs] at hs'

end Dispatch

end Cppev
