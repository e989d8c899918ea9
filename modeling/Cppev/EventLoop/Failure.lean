import Cppev.EventLoop.Shadow
import Cppev.Utils.Strings

/-!
# What a call that throws leaves behind

`fd_register` sets the event loop of the `nio`, then puts the entry into `fds_` (with kqueue also
the event into `fd_events_`), and only then asks the poller, which may refuse. `fd_remove` asks
first on epoll; on kqueue it takes the record out of `fd_events_` before.

* `traceless_iff`: after which failed calls all is as before.
-/

namespace Cppev

/-! ## The loop and its connections -/

/-- A loop, and for each `nio` what its `evlp_` points to. -/
structure OwnedLoop (H K : Type) where
  loop : PolledLoop H K
  evlp : ConnId → Option Nat

namespace OwnedLoop

variable {H K E : Type}

/-- `ev_loads`. -/
def evLoads (s : OwnedLoop H K) : Int := toInt s.loop.evl.fds.length

/-- The whole of `fd_register` and of `fd_remove`. -/
def call (b : Backend K E) (fdOf : ConnId → Int) (s : OwnedLoop H K) (c : Call H) :
    Except Exn Unit × OwnedLoop H K :=
  let s :=
    match c with
    | .register iop .. => { s with evlp := Function.update s.evlp iop (some s.loop.evl.id) }
    | .remove .. => s
  let (result, loop) := b.call fdOf s.loop c
  (result, { s with loop })

/-- All is as before. `fd_events_` is read off the poller, which has it in the model. -/
structure Traceless (fdEvents : K → Int → Option FdEvent) (s s' : OwnedLoop H K) : Prop where
  fds : s'.loop.evl.fds = s.loop.evl.fds
  loads : s'.evLoads = s.evLoads
  evlp : s'.evlp = s.evlp
  fdEvents : fdEvents s'.loop.poller = fdEvents s.loop.poller

/-- There is no entry to make, and the `nio` has been here before. -/
def Known (s : OwnedLoop H K) (iop : ConnId) (handler : Option H) : Prop :=
  handler = none ∧ s.evlp iop = some s.loop.evl.id

/-- The event is on record already. -/
def Recorded (k : Kqueue) (fd : Int) (evType : FdEvent) : Prop :=
  ∃ ev, k.fdEvents fd = some ev ∧ Kqueue.union ev evType = ev

variable {b : Backend K E} {fdOf : ConnId → Int}

/-! ## The table and the owner -/

theorem loop_call (s : OwnedLoop H K) (c : Call H) :
    (s.call b fdOf c).2.loop = (b.call fdOf s.loop c).2 := by
  cases c <;> rfl

theorem result_call (s : OwnedLoop H K) (c : Call H) :
    (s.call b fdOf c).1 = (b.call fdOf s.loop c).1 := by
  cases c <;> rfl

theorem evlp_call_iff (s : OwnedLoop H K) (iop : ConnId) (evType : FdEvent) (handler : Option H)
    (activate : Bool) (prio : Priority) :
    (s.call b fdOf (.register iop evType handler activate prio)).2.evlp = s.evlp ↔
      s.evlp iop = some s.loop.evl.id := by
  show Function.update s.evlp iop (some s.loop.evl.id) = s.evlp ↔ _
  rw [Function.update_eq_self_iff, eq_comm]

theorem fds_register_iff (s : OwnedLoop H K) (iop : ConnId) (evType : FdEvent) (handler : Option H)
    (activate : Bool) (prio : Priority) :
    (s.call b fdOf (.register iop evType handler activate prio)).2.loop.evl.fds = s.loop.evl.fds ↔
      handler = none := by
  rw [loop_call, Backend.call, Backend.fds_fdRegister]
  cases handler with
  | none => simp
  | some h => simp

/-- Removing changes the table only at its end. -/
theorem fds_remove_of_throws (s : OwnedLoop H K) (iop : ConnId) (clean deactivate : Bool)
    (h : (s.call b fdOf (.remove iop clean deactivate)).1.isOk = false) :
    (s.call b fdOf (.remove iop clean deactivate)).2.loop.evl.fds = s.loop.evl.fds := by
  rw [loop_call, Backend.call, Backend.fds_fdRemove, if_neg]
  rintro ⟨-, hok⟩
  rw [result_call, Backend.call, hok] at h
  exact Bool.false_ne_true h.symm

/-- A call that throws has asked the poller. -/
theorem activate_of_throws {s : OwnedLoop H K} {iop : ConnId} {evType : FdEvent}
    {handler : Option H} {activate : Bool} {prio : Priority}
    (h : (s.call b fdOf (.register iop evType handler activate prio)).1.isOk = false) :
    activate = true := by
  rw [result_call, Backend.call, Backend.result_fdRegister] at h
  cases activate with
  | true => rfl
  | false => cases h

theorem deactivate_of_throws {s : OwnedLoop H K} {iop : ConnId} {clean deactivate : Bool}
    (h : (s.call b fdOf (.remove iop clean deactivate)).1.isOk = false) :
    deactivate = true ∧ (b.deactivate s.loop.poller (fdOf iop)).1.isOk = false := by
  rw [result_call, Backend.call, Backend.result_fdRemove] at h
  cases deactivate with
  | true => exact ⟨rfl, h⟩
  | false => cases h

/-- The table and the owner are as before if there was nothing to do for them. -/
theorem traceless_register_iff {fdEvents : K → Int → Option FdEvent} (s : OwnedLoop H K)
    (iop : ConnId) (evType : FdEvent) (handler : Option H) (activate : Bool) (prio : Priority) :
    Traceless fdEvents s (s.call b fdOf (.register iop evType handler activate prio)).2 ↔
      s.Known iop handler ∧
        fdEvents (s.call b fdOf (.register iop evType handler activate prio)).2.loop.poller =
          fdEvents s.loop.poller := by
  constructor
  · intro h
    exact ⟨⟨(fds_register_iff ..).mp h.fds, (evlp_call_iff ..).mp h.evlp⟩, h.fdEvents⟩
  · rintro ⟨⟨hhandler, hevlp⟩, hfdEvents⟩
    have hfds : (s.call b fdOf (.register iop evType handler activate prio)).2.loop.evl.fds =
        s.loop.evl.fds := (fds_register_iff ..).mpr hhandler
    refine ⟨hfds, ?_, (evlp_call_iff ..).mpr hevlp, hfdEvents⟩
    rw [evLoads, evLoads, hfds]

theorem traceless_remove_iff {fdEvents : K → Int → Option FdEvent} (s : OwnedLoop H K)
    (iop : ConnId) (clean deactivate : Bool)
    (h : (s.call b fdOf (.remove iop clean deactivate)).1.isOk = false) :
    Traceless fdEvents s (s.call b fdOf (.remove iop clean deactivate)).2 ↔
      fdEvents (b.deactivate s.loop.poller (fdOf iop)).2 = fdEvents s.loop.poller := by
  obtain ⟨rfl, -⟩ := deactivate_of_throws h
  have hpoller : (s.call b fdOf (.remove iop clean true)).2.loop.poller =
      (b.deactivate s.loop.poller (fdOf iop)).2 := by
    rw [loop_call, Backend.call, Backend.poller_fdRemove, if_pos rfl]
  have hfds := fds_remove_of_throws s iop clean true h
  rw [← hpoller]
  constructor
  · exact fun htraceless => htraceless.fdEvents
  · intro hfdEvents
    refine ⟨hfds, ?_, rfl, hfdEvents⟩
    rw [evLoads, evLoads, hfds]

/-! ## `fd_events_` -/

end OwnedLoop

namespace Kqueue

variable {k : Kqueue} {fd : Int}

theorem fdEvents_activate (k : Kqueue) (fd : Int) (evType : FdEvent) :
    (k.activate fd evType).2.fdEvents = Function.update k.fdEvents fd (some (
      match k.fdEvents fd with
      | some ev => union ev evType
      | none => evType)) := by
  simp only [activate, kevAdd]
  cases filterOf (fdMapToSys evType) with
  | none => rfl
  | some f => cases k.opened fd <;> rfl

/-- A registration leaves the record if it adds nothing to it. -/
theorem fdEvents_activate_iff (k : Kqueue) (fd : Int) (evType : FdEvent) :
    (k.activate fd evType).2.fdEvents = k.fdEvents ↔ OwnedLoop.Recorded k fd evType := by
  rw [fdEvents_activate, Function.update_eq_self_iff, OwnedLoop.Recorded]
  cases k.fdEvents fd with
  | none => simp
  | some ev => simp

theorem fdEvents_deleteEach (fd : Int) (evType : FdEvent) (evs : List FdEvent) (k : Kqueue) :
    (deleteEach fd evType evs k).2.fdEvents = k.fdEvents := by
  induction evs generalizing k with
  | nil => rfl
  | cons ev evs ih =>
      rw [deleteEach]
      split
      case isTrue =>
        split
        case h_1 k' hdelete =>
          have hsame : k'.fdEvents = k.fdEvents := by
            simp only [kevDelete] at hdelete
            split at hdelete
            · split at hdelete
              · cases hdelete
              · split at hdelete
                · cases hdelete
                · obtain rfl := Except.ok.inj hdelete
                  rfl
            · cases hdelete
          rw [ih, hsame]
        case h_2 => rfl
      case isFalse => exact ih k

theorem fdEvents_deactivate (k : Kqueue) (fd : Int) :
    (k.deactivate fd).2.fdEvents = Function.update k.fdEvents fd none :=
  fdEvents_deleteEach ..

/-- Without a record `fd_remove` has nothing to ask for. -/
theorem deactivate_isOk (h : k.fdEvents fd = none) : (k.deactivate fd).1.isOk = true := by
  simp [deactivate, deleteEach, FdEvent.meets, h, Except.isOk, Except.toBool]

/-- The record is gone when the kqueue refuses. -/
theorem fdEvents_ne_of_throws (h : (k.deactivate fd).1.isOk = false) :
    (k.deactivate fd).2.fdEvents ≠ k.fdEvents := by
  intro hsame
  have hnone : k.fdEvents fd = none := by
    rw [← hsame, fdEvents_deactivate, Function.update_self]
  rw [deactivate_isOk hnone] at h
  exact Bool.noConfusion h

end Kqueue

namespace OwnedLoop

variable {H : Type}

/-- `fd_events_` on epoll, which has no use for it. -/
def unused (_ : Kernel) (_ : Int) : Option FdEvent := none

/-- The failed calls on epoll that leave no trace. -/
def EpollClean (s : OwnedLoop H Kernel) : Call H → Prop
  | .register iop _ handler _ _ => s.Known iop handler
  | .remove .. => True

/-- The failed calls on kqueue that leave no trace. -/
def KqueueClean (fdOf : ConnId → Int) (s : OwnedLoop H Kqueue) : Call H → Prop
  | .register iop evType handler _ _ =>
    s.Known iop handler ∧ Recorded s.loop.poller (fdOf iop) evType
  | .remove .. => False

/-- **Which failed calls leave no trace.** On epoll those of `fd_remove`, and those of `fd_register`
without a handler for a `nio` that belongs to this loop already. On kqueue the latter too, if the
event is on record already, and none of `fd_remove`. -/
theorem traceless_iff (fdOf : ConnId → Int) (c : Call H) :
    (∀ s : OwnedLoop H Kernel, (s.call epoll fdOf c).1.isOk = false →
      (Traceless unused s (s.call epoll fdOf c).2 ↔ s.EpollClean c)) ∧
    ∀ s : OwnedLoop H Kqueue, (s.call kqueue fdOf c).1.isOk = false →
      (Traceless Kqueue.fdEvents s (s.call kqueue fdOf c).2 ↔ s.KqueueClean fdOf c) := by
  cases c with
  | register iop evType handler activate prio =>
      refine ⟨fun s _ => ?_, fun s h => ?_⟩
      · rw [traceless_register_iff]
        exact and_iff_left rfl
      · obtain rfl := activate_of_throws h
        have hpoller : (s.call kqueue fdOf
            (.register iop evType handler true prio)).2.loop.poller =
              (s.loop.poller.activate (fdOf iop) evType).2 := by
          rw [loop_call, Backend.call, Backend.poller_fdRegister, if_pos rfl]
          rfl
        rw [traceless_register_iff, hpoller, Kqueue.fdEvents_activate_iff]
        rfl
  | remove iop clean deactivate =>
      refine ⟨fun s h => ?_, fun s h => ?_⟩
      · rw [traceless_remove_iff s iop clean deactivate h]
        exact iff_of_true rfl trivial
      · rw [traceless_remove_iff s iop clean deactivate h]
        obtain ⟨-, hthrows⟩ := deactivate_of_throws h
        exact iff_of_false (Kqueue.fdEvents_ne_of_throws hthrows) not_false

/-- Descriptor 5 is active for reading. -/
def oneActive : OwnedLoop Nat Kernel :=
  ((⟨⟨⟨0, [], []⟩, ⟨fun _ => true, fun _ => none⟩⟩, fun _ => none⟩ : OwnedLoop Nat Kernel).call epoll
    Int.ofNat (.register 5 .fdReadable (some 0) true .p0)).2

/-- Activating it once more. -/
def again (handler : Option Nat) : Call Nat := .register 5 .fdWritable handler true .p0

theorem traceless_iff_again :
    Traceless unused oneActive (oneActive.call epoll Int.ofNat (again none)).2 :=
  ((traceless_iff Int.ofNat (again none)).1 oneActive (by decide)).mpr ⟨rfl, rfl⟩

/-- A kqueue whose descriptor 5 has been closed since it was activated. -/
def closedSince : OwnedLoop Nat Kqueue :=
  ⟨⟨⟨0, [], []⟩, ⟨fun _ => false, fun _ _ => false, fun _ => some .fdReadable⟩⟩, fun _ => none⟩

/-- The second handler stays in the table and counts; on the kqueue the record is lost. -/
theorem trace_left :
    ((oneActive.call epoll Int.ofNat (again (some 1))).1.isOk = false ∧
      oneActive.evLoads = 1 ∧ (oneActive.call epoll Int.ofNat (again (some 1))).2.evLoads = 2 ∧
      ¬ Traceless unused oneActive (oneActive.call epoll Int.ofNat (again (some 1))).2) ∧
    ((closedSince.call kqueue Int.ofNat (.remove 5 true true)).1.isOk = false ∧
      ¬ Traceless Kqueue.fdEvents closedSince
        (closedSince.call kqueue Int.ofNat (.remove 5 true true)).2) := by
  refine ⟨⟨by decide, by decide, by decide, fun h => ?_⟩, by decide, fun h => ?_⟩
  · exact absurd h.loads (by decide)
  · exact absurd (congrFun h.fdEvents 5) (by decide)

end OwnedLoop

end Cppev
