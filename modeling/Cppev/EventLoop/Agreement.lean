import Cppev.EventLoop.Backend
import Cppev.Lib.Transition
import Cppev.Reactor.Refine

/-!
# The two pollers side by side

A sequence of calls of `fd_register` and `fd_remove` is made on a loop with epoll and on one with
kqueue. A call that throws is followed by the next one all the same.

What they have in common is a table with at most one event for a descriptor (`Interests`). epoll has
it as one mask for each descriptor, kqueue as a set of filters and once more in `fd_events_`.

* `agree_iff`: the two agree on a sequence if and only if it activates one event at a time, of what
  is inactive, and deactivates only what is active.
* `exec_fdRegister`, `exec_fdRemove`, `epoll_collect`: the calls of the reactor are those of the loop
  with epoll.
-/

namespace Cppev

/-- A call of `fd_register` or of `fd_remove`. -/
inductive Call (H : Type) where
  | register (iop : ConnId) (evType : FdEvent) (handler : Option H) (activate : Bool)
      (prio : Priority)
  | remove (iop : ConnId) (clean deactivate : Bool)

def Backend.call {H K E : Type} (b : Backend K E) (fdOf : ConnId → Int) (s : PolledLoop H K) :
    Call H → Except Exn Unit × PolledLoop H K
  | .register iop evType handler activate prio =>
    b.fdRegister fdOf s iop evType handler activate prio
  | .remove iop clean deactivate => b.fdRemove fdOf s iop clean deactivate

/-- The events for which epoll watches a descriptor. -/
def Kernel.active (k : Kernel) (fd : Int) : FdEvent :=
  match k.epoll fd with
  | some interest => fdMapToEvent interest
  | none => ⟨false, false⟩

/-- The events for which the kqueue watches a descriptor. -/
def Kqueue.active (k : Kqueue) (fd : Int) : FdEvent := ⟨k.filters fd .read, k.filters fd .write⟩

/-! ## What is compared

The same table of handlers, the same active events, and exceptions at the same calls. -/

/-- A loop of each kind. -/
structure Loops (H : Type) where
  epoll : PolledLoop H Kernel
  kqueue : PolledLoop H Kqueue

namespace Loops

variable {H : Type}

/-- Without an entry, and nothing is active. -/
def init (opened : Int → Bool) : Loops H :=
  ⟨⟨⟨0, [], []⟩, ⟨opened, fun _ => none⟩⟩, ⟨⟨0, [], []⟩, ⟨opened, fun _ _ => false, fun _ => none⟩⟩⟩

def step (fdOf : ConnId → Int) (s : Loops H) (c : Call H) : Option (Loops H) :=
  some ⟨(Cppev.epoll.call fdOf s.epoll c).2, (Cppev.kqueue.call fdOf s.kqueue c).2⟩

/-- The same table of handlers and the same active events. -/
def SameView (s : Loops H) : Prop :=
  s.epoll.evl.fds = s.kqueue.evl.fds ∧ ∀ fd, s.epoll.poller.active fd = s.kqueue.poller.active fd

/-- Both throw or none of them, and then they look the same. -/
def Agree (fdOf : ConnId → Int) (s : Loops H) (c : Call H) : Prop :=
  (Cppev.epoll.call fdOf s.epoll c).1.isOk = (Cppev.kqueue.call fdOf s.kqueue c).1.isOk ∧
    ∀ s', s.step fdOf c = some s' → s'.SameView

end Loops

namespace Call

variable {H : Type}

/-- It activates only what is inactive, and deactivates only what is active. -/
def Proper (fdOf : ConnId → Int) (active : Int → Bool) : Call H → Prop
  | .register iop _ _ true _ => active (fdOf iop) = false
  | .remove iop _ true => active (fdOf iop) = true
  | _ => True

/-- The descriptors that are active after the call. -/
def after (fdOf : ConnId → Int) (active : Int → Bool) : Call H → Option (Int → Bool)
  | .register iop _ _ true _ => some (Function.update active (fdOf iop) true)
  | .remove iop _ true => some (Function.update active (fdOf iop) false)
  | _ => some active

/-- It is about an open descriptor, and a registration names some event. -/
def OnOpen (opened : Int → Bool) (fdOf : ConnId → Int) : Call H → Prop
  | .register iop evType _ _ _ => opened (fdOf iop) = true ∧ evType ≠ ⟨false, false⟩
  | .remove iop _ _ => opened (fdOf iop) = true

/-- It names one event if it activates it. -/
def Single : Call H → Prop
  | .register _ evType _ true _ => evType = .fdReadable ∨ evType = .fdWritable
  | _ => True

/-- What both pollers take in the same way. -/
def Fits (fdOf : ConnId → Int) (active : Int → Bool) (c : Call H) : Prop :=
  c.Proper fdOf active ∧ c.Single

end Call

/-! ## The table that they have in common

An activation of one event on an inactive descriptor, and a deactivation of an active one, are the
same on both; this table is what they keep. -/

def Kqueue.Filter.event : Kqueue.Filter → FdEvent
  | .read => .fdReadable
  | .write => .fdWritable

/-- The event of each active descriptor, as its filter. -/
abbrev Interests := Int → Option Kqueue.Filter

namespace Interests

/-- As epoll has it. -/
def toEpoll (opened : Int → Bool) (t : Interests) : Kernel :=
  ⟨opened, fun fd => (t fd).map fun f => fdMapToSys f.event⟩

/-- As the kqueue has it, with `fd_events_`. -/
def toKqueue (opened : Int → Bool) (t : Interests) : Kqueue :=
  ⟨opened, fun fd f => decide (t fd = some f), fun fd => (t fd).map Kqueue.Filter.event⟩

def active (t : Interests) (fd : Int) : Bool := (t fd).isSome

variable {opened : Int → Bool} {t : Interests} {fd : Int} {f : Kqueue.Filter}

theorem active_update (o : Option Kqueue.Filter) :
    active (Function.update t fd o) = Function.update (active t) fd o.isSome :=
  Function.comp_update Option.isSome t fd o

theorem toEpoll_update (o : Option Kqueue.Filter) :
    toEpoll opened (Function.update t fd o) =
      { toEpoll opened t with
        epoll := Function.update (toEpoll opened t).epoll fd (o.map fun f => fdMapToSys f.event) } :=
  congrArg (Kernel.mk opened) <|
    Function.comp_update (Option.map fun f => fdMapToSys (Kqueue.Filter.event f)) t fd o

theorem toKqueue_update (o : Option Kqueue.Filter) :
    toKqueue opened (Function.update t fd o) =
      { toKqueue opened t with
        filters := Function.update (toKqueue opened t).filters fd fun f => decide (o = some f)
        fdEvents := Function.update (toKqueue opened t).fdEvents fd (o.map Kqueue.Filter.event) } := by
  have hfilters := Function.comp_update
    (fun (o : Option Kqueue.Filter) f => decide (o = some f)) t fd o
  have hfdEvents := Function.comp_update (Option.map Kqueue.Filter.event) t fd o
  exact congrArg₂ (Kqueue.mk opened) hfilters hfdEvents

theorem kernel_active : (toEpoll opened t).active fd = (toKqueue opened t).active fd := by
  cases ht : t fd with
  | none => simp [Kernel.active, Kqueue.active, toEpoll, toKqueue, ht]
  | some f => cases f <;> simp [Kernel.active, Kqueue.active, toEpoll, toKqueue, ht] <;> rfl

/-! ### epoll on the table -/

theorem epoll_activate (hopen : opened fd = true) (hfree : t fd = none) :
    epoll.activate (toEpoll opened t) fd f.event =
      (.ok (), toEpoll opened (Function.update t fd (some f))) := by
  have hadd : (toEpoll opened t).ctlAdd fd (fdMapToSys f.event) =
      .ok (toEpoll opened (Function.update t fd (some f))) := by
    rw [toEpoll_update]
    simp [Kernel.ctlAdd, toEpoll, hopen, hfree]
  simp [epoll, hadd]

/-- `EEXIST`. -/
theorem epoll_activate_active (hopen : opened fd = true) (hactive : t fd ≠ none) (ev : FdEvent) :
    (epoll.activate (toEpoll opened t) fd ev).1.isOk = false := by
  obtain ⟨f, hf⟩ := Option.ne_none_iff_exists'.mp hactive
  have hadd : (toEpoll opened t).ctlAdd fd (fdMapToSys ev) = .error .EEXIST := by
    simp [Kernel.ctlAdd, toEpoll, hopen, hf]
  simp [epoll, hadd, Except.isOk, Except.toBool]

theorem epoll_deactivate (hopen : opened fd = true) (hactive : t fd ≠ none) :
    epoll.deactivate (toEpoll opened t) fd =
      (.ok (), toEpoll opened (Function.update t fd none)) := by
  obtain ⟨f, hf⟩ := Option.ne_none_iff_exists'.mp hactive
  have hdel : (toEpoll opened t).ctlDel fd =
      .ok (toEpoll opened (Function.update t fd none)) := by
    rw [toEpoll_update]
    simp [Kernel.ctlDel, toEpoll, hopen, hf]
  simp [epoll, hdel]

/-- `ENOENT`. -/
theorem epoll_deactivate_inactive (hopen : opened fd = true) (hfree : t fd = none) :
    (epoll.deactivate (toEpoll opened t) fd).1.isOk = false := by
  have hdel : (toEpoll opened t).ctlDel fd = .error .ENOENT := by
    simp [Kernel.ctlDel, toEpoll, hopen, hfree]
  simp [epoll, hdel, Except.isOk, Except.toBool]

/-! ### kqueue on the table -/

@[simp] theorem filterOf_event (f : Kqueue.Filter) :
    Kqueue.filterOf (Kqueue.fdMapToSys f.event) = some f := by
  cases f <;> decide

/-- A mask of both events is that of reading: the or of two negative filter numbers. -/
theorem filterOf_both : Kqueue.filterOf (Kqueue.fdMapToSys ⟨true, true⟩) = some .read := by decide

theorem exists_filterOf {ev : FdEvent} (h : ev ≠ ⟨false, false⟩) :
    ∃ f, Kqueue.filterOf (Kqueue.fdMapToSys ev) = some f := by
  obtain ⟨readable, writable⟩ := ev
  cases readable <;> cases writable
  · exact absurd rfl h
  · exact ⟨.write, by decide⟩
  · exact ⟨.read, by decide⟩
  · exact ⟨.read, by decide⟩

theorem both_of_not_single {ev : FdEvent} (h : ev ≠ ⟨false, false⟩)
    (hcombined : ¬ (ev = .fdReadable ∨ ev = .fdWritable)) : ev = ⟨true, true⟩ := by
  obtain ⟨readable, writable⟩ := ev
  cases readable <;> cases writable <;> simp_all [FdEvent.fdReadable, FdEvent.fdWritable]

/-- A filter more, whatever is there. -/
theorem kqueue_activate_isOk (hopen : opened fd = true) {ev : FdEvent} (h : ev ≠ ⟨false, false⟩) :
    (kqueue.activate (toKqueue opened t) fd ev).1.isOk = true := by
  obtain ⟨f, hf⟩ := exists_filterOf h
  simp [kqueue, Kqueue.activate, Kqueue.kevAdd, toKqueue, hopen, hf, Except.isOk, Except.toBool]

theorem kqueue_active_combined (hopen : opened fd = true) (hfree : t fd = none) :
    (kqueue.activate (toKqueue opened t) fd ⟨true, true⟩).2.active fd = ⟨true, false⟩ := by
  simp [kqueue, Kqueue.activate, Kqueue.kevAdd, toKqueue, hopen, hfree, filterOf_both,
    Kqueue.active]

theorem epoll_active_combined (hopen : opened fd = true) (hfree : t fd = none) :
    (epoll.activate (toEpoll opened t) fd ⟨true, true⟩).2.active fd = ⟨true, true⟩ := by
  simp [epoll, Kernel.ctlAdd, toEpoll, hopen, hfree, Kernel.active]
  decide

theorem kqueue_activate (hopen : opened fd = true) (hfree : t fd = none) :
    kqueue.activate (toKqueue opened t) fd f.event =
      (.ok (), toKqueue opened (Function.update t fd (some f))) := by
  have hfilters : Function.update (fun f' : Kqueue.Filter => decide (t fd = some f')) f true =
      fun f' => decide (some f = some f') := by
    funext f'
    by_cases hf : f' = f
    · simp [hf]
    · simp [hf, hfree, Ne.symm hf]
  rw [toKqueue_update, ← hfilters]
  simp [kqueue, Kqueue.activate, Kqueue.kevAdd, toKqueue, hopen, hfree]

/-- The loop of `fd_remove` passes over an event that is not one of the mask. -/
theorem deleteEach_skip {evType ev : FdEvent} (h : evType.meets ev = false) (evs : List FdEvent)
    (k : Kqueue) :
    Kqueue.deleteEach fd evType (ev :: evs) k = Kqueue.deleteEach fd evType evs k := by
  rw [Kqueue.deleteEach, h, if_neg (by simp)]

theorem deleteEach_delete {evType ev : FdEvent} (h : evType.meets ev = true) (evs : List FdEvent)
    {k k' : Kqueue} (hk : k.kevDelete fd (Kqueue.fdMapToSys ev) = .ok k') :
    Kqueue.deleteEach fd evType (ev :: evs) k = Kqueue.deleteEach fd evType evs k' := by
  rw [Kqueue.deleteEach, h, if_pos rfl, hk]

/-- Of a single event, the loop of `fd_remove` deletes the filter. -/
theorem deleteEach_event {k k' : Kqueue} (h : k.kevDelete fd (Kqueue.fdMapToSys f.event) = .ok k') :
    Kqueue.deleteEach fd f.event [.fdReadable, .fdWritable] k = (.ok (), k') := by
  cases f with
  | read =>
      have hmeets : (Kqueue.Filter.event .read).meets .fdReadable = true := by decide
      have hskip : (Kqueue.Filter.event .read).meets .fdWritable = false := by decide
      rw [deleteEach_delete hmeets _ h, deleteEach_skip hskip, Kqueue.deleteEach]
  | write =>
      have hskip : (Kqueue.Filter.event .write).meets .fdReadable = false := by decide
      have hmeets : (Kqueue.Filter.event .write).meets .fdWritable = true := by decide
      rw [deleteEach_skip hskip, deleteEach_delete hmeets _ h, Kqueue.deleteEach]

theorem kqueue_deactivate (hopen : opened fd = true) (hactive : t fd ≠ none) :
    kqueue.deactivate (toKqueue opened t) fd =
      (.ok (), toKqueue opened (Function.update t fd none)) := by
  obtain ⟨f, hf⟩ := Option.ne_none_iff_exists'.mp hactive
  have hfilters : Function.update (fun f' : Kqueue.Filter => decide (t fd = some f')) f false =
      fun f' => decide (none = some f') := by
    funext f'
    by_cases hf' : f' = f
    · simp [hf']
    · simp [hf', hf, Ne.symm hf']
  rw [toKqueue_update, ← hfilters]
  -- the entry of `fd_events_` goes first
  have hdel : Kqueue.kevDelete
      { toKqueue opened t with fdEvents := Function.update (toKqueue opened t).fdEvents fd none } fd
      (Kqueue.fdMapToSys f.event) = .ok
      { toKqueue opened t with
        filters := Function.update (toKqueue opened t).filters fd
          (Function.update ((toKqueue opened t).filters fd) f false)
        fdEvents := Function.update (toKqueue opened t).fdEvents fd none } := by
    simp [Kqueue.kevDelete, toKqueue, hopen, hf]
  have hevent : ((toKqueue opened t).fdEvents fd).getD ⟨false, false⟩ = f.event := by
    simp [toKqueue, hf]
  simp only [kqueue, Kqueue.deactivate, hevent]
  exact deleteEach_event hdel

/-- There is nothing to delete. -/
theorem kqueue_deactivate_isOk (hfree : t fd = none) :
    (kqueue.deactivate (toKqueue opened t) fd).1.isOk = true := by
  simp [kqueue, Kqueue.deactivate, Kqueue.deleteEach, toKqueue, hfree, FdEvent.meets, Except.isOk,
    Except.toBool]

end Interests

/-! ## The two loops and the table

A step of both loops is a step of the table, or the two part ways in it. -/

namespace Loops

variable {H : Type} {opened : Int → Bool} {fdOf : ConnId → Int} {t : Interests} {s s' : Loops H}
  {c : Call H}

/-- Both pollers have what the table has. -/
structure Tracks (opened : Int → Bool) (s : Loops H) (t : Interests) : Prop where
  fds : s.epoll.evl.fds = s.kqueue.evl.fds
  epoll : s.epoll.poller = t.toEpoll opened
  kqueue : s.kqueue.poller = t.toKqueue opened

theorem tracks_init : Tracks opened (Loops.init (H := H) opened) fun _ => none :=
  ⟨rfl, rfl, rfl⟩

theorem Tracks.sameView (h : Tracks opened s t) : s.SameView := by
  refine ⟨h.fds, fun fd => ?_⟩
  rw [h.epoll, h.kqueue]
  exact Interests.kernel_active

theorem exists_event {iop : ConnId} {evType : FdEvent} {handler : Option H} {prio : Priority}
    (h : (Call.register iop evType handler true prio).Single) :
    ∃ f : Kqueue.Filter, evType = f.event :=
  h.elim (fun h => ⟨.read, h⟩) fun h => ⟨.write, h⟩

/-- Such a call returns on both, and is one on the table. -/
theorem Tracks.fits (h : Tracks opened s t) (hopen : c.OnOpen opened fdOf)
    (hfits : c.Fits fdOf t.active) :
    (Cppev.epoll.call fdOf s.epoll c).1 = .ok () ∧ (Cppev.kqueue.call fdOf s.kqueue c).1 = .ok () ∧
      ∃ t' : Interests, c.after fdOf t.active = some t'.active ∧
        Tracks opened
          ⟨(Cppev.epoll.call fdOf s.epoll c).2, (Cppev.kqueue.call fdOf s.kqueue c).2⟩ t' := by
  obtain ⟨hproper, hsingle⟩ := hfits
  cases c with
  | register iop evType handler activate prio =>
      simp only [Backend.call, Backend.result_fdRegister]
      cases activate with
      | false =>
          refine ⟨rfl, rfl, t, rfl, ?_, ?_, ?_⟩
          · simp only [Backend.fds_fdRegister, h.fds]
          · exact (Backend.poller_fdRegister ..).trans h.epoll
          · exact (Backend.poller_fdRegister ..).trans h.kqueue
      | true =>
          obtain ⟨f, rfl⟩ := exists_event hsingle
          obtain ⟨hopen, -⟩ := hopen
          -- one event on an inactive descriptor: no `EEXIST`, and no second filter
          have hfree : t (fdOf iop) = none :=
            Option.isNone_iff_eq_none.mp (Option.isSome_eq_false_iff.mp hproper)
          have hepoll := Interests.epoll_activate (f := f) hopen hfree
          have hkqueue := Interests.kqueue_activate (f := f) hopen hfree
          refine ⟨?_, ?_, Function.update t (fdOf iop) (some f), ?_, ?_, ?_, ?_⟩
          · simp [h.epoll, hepoll]
          · simp [h.kqueue, hkqueue]
          · rw [Interests.active_update]
            rfl
          · simp only [Backend.fds_fdRegister, h.fds]
          · simp [Backend.poller_fdRegister, h.epoll, hepoll]
          · simp [Backend.poller_fdRegister, h.kqueue, hkqueue]
  | remove iop clean deactivate =>
      simp only [Backend.call, Backend.result_fdRemove]
      cases deactivate with
      | false =>
          refine ⟨rfl, rfl, t, rfl, ?_, ?_, ?_⟩
          · simp [Backend.fds_fdRemove, Backend.result_fdRemove, h.fds]
          · exact (Backend.poller_fdRemove ..).trans h.epoll
          · exact (Backend.poller_fdRemove ..).trans h.kqueue
      | true =>
          -- on an active one, what epoll deletes is what `fd_events_` says
          have hactive : t (fdOf iop) ≠ none := Option.isSome_iff_ne_none.mp hproper
          have hepoll := Interests.epoll_deactivate hopen hactive
          have hkqueue := Interests.kqueue_deactivate hopen hactive
          refine ⟨?_, ?_, Function.update t (fdOf iop) none, ?_, ?_, ?_, ?_⟩
          · simp [h.epoll, hepoll]
          · simp [h.kqueue, hkqueue]
          · rw [Interests.active_update]
            rfl
          · simp [Backend.fds_fdRemove, Backend.result_fdRemove, h.fds, h.epoll, h.kqueue, hepoll,
              hkqueue]
          · simp [Backend.poller_fdRemove, h.epoll, hepoll]
          · simp [Backend.poller_fdRemove, h.kqueue, hkqueue]

/-- A call that activates what is active, or deactivates what is not, throws on epoll only. -/
theorem Tracks.improper (h : Tracks opened s t) (hopen : c.OnOpen opened fdOf)
    (himproper : ¬ c.Proper fdOf t.active) :
    (Cppev.epoll.call fdOf s.epoll c).1.isOk = false ∧
      (Cppev.kqueue.call fdOf s.kqueue c).1.isOk = true := by
  cases c with
  | register iop evType handler activate prio =>
      cases activate with
      | false => exact absurd trivial himproper
      | true =>
          obtain ⟨hopen, hsome⟩ := hopen
          have hactive : t (fdOf iop) ≠ none := fun hfree =>
            himproper (show (t (fdOf iop)).isSome = false by simp [hfree])
          simp only [Backend.call, Backend.result_fdRegister, if_true, h.epoll, h.kqueue]
          exact ⟨Interests.epoll_activate_active hopen hactive _,
            Interests.kqueue_activate_isOk hopen hsome⟩
  | remove iop clean deactivate =>
      cases deactivate with
      | false => exact absurd trivial himproper
      | true =>
          have hfree : t (fdOf iop) = none := by
            by_contra hactive
            exact himproper (Option.isSome_iff_ne_none.mpr hactive)
          simp only [Backend.call, Backend.result_fdRemove, if_true, h.epoll, h.kqueue]
          exact ⟨Interests.epoll_deactivate_inactive hopen hfree,
            Interests.kqueue_deactivate_isOk hfree⟩

/-- A mask of both events is watched by epoll as it is; for the kqueue it is one filter. -/
theorem Tracks.combined (h : Tracks opened s t) (hopen : c.OnOpen opened fdOf)
    (hproper : c.Proper fdOf t.active) (hcombined : ¬ c.Single) :
    ¬ s.Agree fdOf c := by
  intro hagree
  cases c with
  | remove iop clean deactivate => exact hcombined trivial
  | register iop evType handler activate prio =>
      cases activate with
      | false => exact hcombined trivial
      | true =>
          have hboth : evType = ⟨true, true⟩ := Interests.both_of_not_single hopen.2 hcombined
          subst hboth
          have hfree : t (fdOf iop) = none :=
            Option.isNone_iff_eq_none.mp (Option.isSome_eq_false_iff.mp hproper)
          have hview := (hagree.2 _ rfl).2 (fdOf iop)
          simp only [Backend.call, Backend.poller_fdRegister, if_true, h.epoll, h.kqueue] at hview
          rw [Interests.epoll_active_combined hopen.1 hfree,
            Interests.kqueue_active_combined hopen.1 hfree] at hview
          exact absurd hview (by decide)

/-- The two agree on a call exactly when it fits. -/
theorem Tracks.agree_call (h : Tracks opened s t) (hopen : c.OnOpen opened fdOf) :
    s.Agree fdOf c ↔ c.Fits fdOf t.active := by
  constructor
  · intro hagree
    have hproper : c.Proper fdOf t.active := by
      by_contra himproper
      obtain ⟨hepoll, hkqueue⟩ := h.improper hopen himproper
      simpa [hepoll, hkqueue] using hagree.1
    refine ⟨hproper, ?_⟩
    by_contra hcombined
    exact h.combined hopen hproper hcombined hagree
  · intro hfits
    obtain ⟨hepoll, hkqueue, t', -, htracks⟩ := h.fits hopen hfits
    refine ⟨by rw [hepoll, hkqueue], fun s' hs => ?_⟩
    obtain rfl := Option.some.inj hs
    exact htracks.sameView

/-- **The two pollers agree.** Up to the first call that does not fit, both have the table of
`Interests`: a call that fits is one on the table. One that does not fit throws on epoll only, or
leaves the pollers with different events. -/
theorem agree_iff (opened : Int → Bool) (fdOf : ConnId → Int) (cs : List (Call H))
    (hopen : ∀ c ∈ cs, c.OnOpen opened fdOf) :
    AllSteps (Loops.step fdOf) (Loops.Agree fdOf) (Loops.init opened) cs ↔
      AllSteps (fun active c => Call.after fdOf active c) (Call.Fits fdOf) (fun _ => false) cs := by
  refine allSteps_iff (R := fun s active => ∃ t : Interests, Tracks opened s t ∧ t.active = active)
    ?_ ?_ ⟨fun _ => none, tracks_init, rfl⟩ hopen
  · rintro s _ c ⟨t, ht, rfl⟩ hc
    exact ht.agree_call hc
  · rintro s _ c ⟨t, ht, rfl⟩ hc hagree
    obtain ⟨-, -, t', hafter, ht'⟩ := ht.fits hc ((ht.agree_call hc).mp hagree)
    rw [hafter]
    exact .some ⟨t', ht', rfl⟩

/-- A descriptor waits to be writable, and then to be readable. -/
theorem agree_iff_switched :
    AllSteps (Loops.step Int.ofNat) (Loops.Agree Int.ofNat)
      (Loops.init (H := Nat) fun _ => true)
      [.register 5 .fdWritable (some 0) true .p0, .remove 5 true true,
        .register 5 ⟨true, true⟩ (some 1) false .p0, .register 5 .fdReadable none true .p0] := by
  refine (agree_iff (fun _ => true) Int.ofNat _ ?_).mpr ?_
  · simp [Call.OnOpen, FdEvent.fdReadable, FdEvent.fdWritable]
  · simp [AllSteps, Call.Fits, Call.Proper, Call.Single, Call.after]

/-- A second event of the same descriptor is activated. -/
theorem activated_twice :
    ¬ ∀ (opened : Int → Bool) (fdOf : ConnId → Int) (cs : List (Call Nat)),
      (∀ c ∈ cs, c.OnOpen opened fdOf) →
        AllSteps (Loops.step fdOf) (Loops.Agree fdOf) (Loops.init opened) cs := by
  intro h
  have hagree := h (fun _ => true) Int.ofNat
    [.register 5 .fdReadable none true .p0, .register 5 .fdWritable none true .p0]
    (by simp [Call.OnOpen, FdEvent.fdReadable, FdEvent.fdWritable])
  exact absurd hagree.2.1.1 (by decide +kernel)

end Loops

/-! ## The loop of the reactor

The reactor has epoll built in, with the calls of its program monad. What it does to the tables and
to the poller is what the loop with a `Backend` does for `epoll`. -/

theorem epoll_enqueue {H : Type} (evl : EventLoop H) (fd : Int) (events : EpollEvents) :
    epoll.enqueue evl fd events = evl.enqueue fd events := rfl

/-- The `for` loop of `loop_once` is the same in both. -/
theorem epoll_collect {H : Type} (evl : EventLoop H) (evs : List (Int × EpollEvents)) :
    epoll.collect evl evs = evl.collect evs := by
  simp only [Backend.collect, EventLoop.collect, epoll_enqueue]

theorem World.activate_eq (w : World) (c : ConnId) (evType : FdEvent) :
    ((World.ctlAdd c evType).exec w).1 = (epoll.activate w.kern (w.nios c).fd evType).1 ∧
      ((World.ctlAdd c evType).exec w).2.evl = w.evl ∧
      ((World.ctlAdd c evType).exec w).2.kern = (epoll.activate w.kern (w.nios c).fd evType).2 := by
  rw [exec_ctlAdd]
  simp only [epoll]
  cases w.kern.ctlAdd (w.nios c).fd (fdMapToSys evType) <;> exact ⟨rfl, rfl, rfl⟩

theorem World.deactivate_eq (w : World) (c : ConnId) :
    ((World.ctlDel c).exec w).1 = (epoll.deactivate w.kern (w.nios c).fd).1 ∧
      ((World.ctlDel c).exec w).2.evl = w.evl ∧
      ((World.ctlDel c).exec w).2.nios = w.nios ∧
      ((World.ctlDel c).exec w).2.kern = (epoll.deactivate w.kern (w.nios c).fd).2 := by
  rw [exec_ctlDel]
  simp only [epoll]
  cases w.kern.ctlDel (w.nios c).fd <;> exact ⟨rfl, rfl, rfl, rfl⟩

/-- What `World.fdRegister` does to the loop and the kernel is `fd_register` on epoll. -/
theorem exec_fdRegister (w : World) (c : ConnId) (evType : FdEvent) (handler : Option IoHandler)
    (activate : Bool) :
    let out := (World.fdRegister c evType handler activate).exec w
    let polled := epoll.fdRegister (fun c => (w.nios c).fd) ⟨w.evl, w.kern⟩ c evType handler
      activate .p0
    out.1 = polled.1 ∧ out.2.evl = polled.2.evl ∧ out.2.kern = polled.2.poller := by
  intro out polled
  let noted := (w.note c [.fdRegister]).setNio c { w.nios c with evlp := some w.evl.id }
  have hfd : (noted.nios c).fd = (w.nios c).fd := by simp [noted]
  obtain ⟨w', hw', hnios, hkern, hevl⟩ : ∃ w' : World,
      out = ((if activate then World.ctlAdd c evType else pure ()).exec w') ∧
        w'.nios = noted.nios ∧ w'.kern = w.kern ∧
        w'.evl = handler.elim w.evl fun h =>
          w.evl.emplace ⟨(w.nios c).fd, .p0, c, h, evType⟩ := by
    cases handler with
    | none => exact ⟨noted, rfl, rfl, rfl, rfl⟩
    | some h =>
        refine ⟨{ noted with evl := noted.evl.emplace ⟨(noted.nios c).fd, .p0, c, h, evType⟩ }, rfl,
          rfl, rfl, ?_⟩
        rw [hfd]
        rfl
  obtain ⟨hresult, hevl', hkern'⟩ := World.activate_eq w' c evType
  rw [hnios, hfd, hkern] at hresult hkern'
  rw [hw']
  cases activate with
  | false => cases handler <;> exact ⟨rfl, hevl, hkern⟩
  | true =>
      refine ⟨hresult.trans ?_, (hevl'.trans hevl).trans ?_, hkern'.trans ?_⟩ <;>
        cases handler <;> rfl

/-- What `World.fdRemove` does to the loop and the kernel is `fd_remove` on epoll. -/
theorem exec_fdRemove (w : World) (c : ConnId) (clean deactivate : Bool) :
    let out := (World.fdRemove c clean deactivate).exec w
    let polled := epoll.fdRemove (fun c => (w.nios c).fd) ⟨w.evl, w.kern⟩ c clean deactivate
    out.1 = polled.1 ∧ out.2.evl = polled.2.evl ∧ out.2.kern = polled.2.poller := by
  intro out polled
  cases deactivate with
  | false => cases clean <;> exact ⟨rfl, rfl, rfl⟩
  | true =>
      obtain ⟨hresult, hevl, hnios, hkern⟩ := World.deactivate_eq (w.note c [.fdRemove]) c
      rcases hdel : (World.ctlDel c).exec (w.note c [.fdRemove]) with ⟨result, w'⟩
      rw [hdel] at hresult hevl hnios hkern
      have hpoller : epoll.deactivate w.kern (w.nios c).fd = (result, w'.kern) :=
        Prod.ext hresult.symm hkern.symm
      have hout : out =
          (do World.ctlDel c; if clean then World.erase c else pure () : LoopM Unit).exec
            (w.note c [.fdRemove]) := rfl
      rw [Prog.exec_bind, hdel] at hout
      simp only [hout, polled, Backend.fdRemove, if_true, hpoller]
      cases result with
      | error e => exact ⟨rfl, hevl, rfl⟩
      | ok =>
          cases clean with
          | false => exact ⟨rfl, hevl, rfl⟩
          | true =>
              refine ⟨rfl, ?_, rfl⟩
              show w'.evl.erase (w'.nios c).fd = w.evl.erase (w.nios c).fd
              rw [hevl, hnios]
              rfl

end Cppev
