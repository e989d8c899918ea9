import Cppev.EventLoop.Agreement

/-!
# `fd_events_` against the kqueue

The loop with a kqueue keeps in `fd_events_` which filters each descriptor has, so that `fd_remove`
can delete them. Here descriptors are closed, too, by `safely_close`, and the kernel hands out their
numbers again.

* `Kqueue.Exact`: `fd_events_` is right. Then `fd_remove` deletes filters that are there
  (`Kqueue.Exact.deactivate`).
* `shadow_iff`: it stays right as long as the calls meet `Recorded`, and no longer.
-/

namespace Cppev

namespace Kqueue

/-! ## The kqueue and the record

`fd_events_` records masks, the kqueue has filters. `Exact` says that the filters of the recorded
masks are those that are there. It fails in two ways: a mask of both events adds one filter, and
`close` takes filters off without telling the record. -/

/-- `close`: the kernel drops the filters of the descriptor. -/
def close (k : Kqueue) (fd : Int) : Kqueue :=
  { k with
    opened := Function.update k.opened fd false
    filters := Function.update k.filters fd fun _ => false }

/-- A descriptor that the kernel hands out. -/
def openFd (k : Kqueue) (fd : Int) : Kqueue :=
  { k with opened := Function.update k.opened fd true }

/-- What `fd_events_` says about a descriptor. -/
def recorded (k : Kqueue) (fd : Int) : FdEvent := (k.fdEvents fd).getD ⟨false, false⟩

/-- `fd_events_` has the filters of each descriptor. -/
def Exact (k : Kqueue) : Prop := ∀ fd, k.recorded fd = k.active fd

/-- Only open descriptors have filters. -/
def Sane (k : Kqueue) : Prop := ∀ fd f, k.filters fd f = true → k.opened fd = true

variable {k : Kqueue} {fd : Int}

theorem meets_event (k : Kqueue) (fd : Int) (f : Filter) :
    (k.active fd).meets f.event = k.filters fd f := by
  cases f <;> simp [active, Filter.event, FdEvent.meets, FdEvent.fdReadable, FdEvent.fdWritable]

/-- A round of the loop of `fd_remove`, for an event whose filter is there if it is recorded. -/
theorem deleteEach_cons (hs : k.Sane) {ev : FdEvent} {f : Filter} (evs : List FdEvent)
    (h : ev.meets f.event = k.filters fd f) :
    deleteEach fd ev (f.event :: evs) k = deleteEach fd ev evs { k with
      filters := Function.update k.filters fd (Function.update (k.filters fd) f false) } := by
  rw [deleteEach, h]
  cases hf : k.filters fd f with
  | true => simp [kevDelete, hf, hs fd f hf]
  | false =>
      have hsame : Function.update (k.filters fd) f false = k.filters fd := by
        rw [← hf, Function.update_eq_self]
      rw [if_neg (by simp), hsame, Function.update_eq_self]

/-- The loop takes off the filters that are there. -/
theorem deleteEach_active (hs : k.Sane) (fd : Int) :
    deleteEach fd (k.active fd) [.fdReadable, .fdWritable] k =
      (.ok (), { k with filters := Function.update k.filters fd fun _ => false }) := by
  show deleteEach fd (k.active fd) [Filter.read.event, Filter.write.event] k = _
  rw [deleteEach_cons hs _ (meets_event k fd .read)]
  -- what the round for reading leaves for the one for writing
  let k' : Kqueue := { k with
    filters := Function.update k.filters fd (Function.update (k.filters fd) .read false) }
  have hs' : k'.Sane := by
    intro fd' f hf
    by_cases hfd : fd' = fd
    · subst hfd
      cases f with
      | read => simp [k'] at hf
      | write => exact hs fd' .write (by simpa [k'] using hf)
    · exact hs fd' f (by simpa [k', hfd] using hf)
  have hmeets : (k.active fd).meets Filter.write.event = k'.filters fd .write := by
    rw [meets_event]
    simp [k']
  have hnone : Function.update (k'.filters fd) .write false = fun _ => false := by
    funext f
    cases f <;> simp [k']
  show deleteEach fd (k.active fd) [Filter.write.event] k' = _
  rw [deleteEach_cons hs' _ hmeets, hnone, deleteEach]
  simp [k']

/-- **No `EV_DELETE` fails** while `fd_events_` is right. -/
theorem Exact.deactivate (h : k.Exact) (hs : k.Sane) (fd : Int) :
    k.deactivate fd = (.ok (), { k with
      filters := Function.update k.filters fd fun _ => false
      fdEvents := Function.update k.fdEvents fd none }) := by
  have hrecorded : (k.fdEvents fd).getD ⟨false, false⟩ = k.active fd := h fd
  rw [Kqueue.deactivate, hrecorded]
  exact @deleteEach_active { k with fdEvents := Function.update k.fdEvents fd none } hs fd

/-! ### What an activation records and adds -/

/-- Of a combined mask, the filter is the one of its readable part. -/
theorem filterOf_fdMapToSys (ev : FdEvent) : filterOf (fdMapToSys ev) =
    if ev.readable = true then some .read else if ev.writable = true then some .write else none := by
  rcases ev with ⟨_ | _, _ | _⟩ <;> decide

theorem recorded_activate (k : Kqueue) (fd fd' : Int) (ev : FdEvent) :
    (k.activate fd ev).2.recorded fd' =
      if fd' = fd then union (k.recorded fd) ev else k.recorded fd' := by
  -- the event is recorded before `kevent` is called, and stays so when that fails
  have hevents : (k.activate fd ev).2.fdEvents = Function.update k.fdEvents fd
      (some ((k.fdEvents fd).elim ev fun e => union e ev)) := by
    simp only [activate, kevAdd]
    cases filterOf (fdMapToSys ev) with
    | none => cases k.fdEvents fd <;> rfl
    | some f => cases k.fdEvents fd <;> cases k.opened fd <;> rfl
  simp only [recorded, hevents]
  by_cases hne : fd' = fd
  · subst hne
    cases hfd : k.fdEvents fd' <;> simp [union]
  · rw [if_neg hne, Function.update_of_ne hne]

theorem filters_activate (k : Kqueue) (fd fd' : Int) (ev : FdEvent) (f : Filter) :
    (k.activate fd ev).2.filters fd' f =
      (k.filters fd' f || (decide (fd' = fd) && k.opened fd &&
        decide (filterOf (fdMapToSys ev) = some f))) := by
  simp only [activate, kevAdd]
  cases hf : filterOf (fdMapToSys ev) with
  | none => simp
  | some f' =>
      cases hopen : k.opened fd with
      | false => simp
      | true =>
          by_cases hfd : fd' = fd
          · subst hfd
            by_cases hff : f = f'
            · simp [hff]
            · simp [hff, Ne.symm hff]
          · simp [hfd]

theorem opened_activate (k : Kqueue) (fd : Int) (ev : FdEvent) :
    (k.activate fd ev).2.opened = k.opened := by
  simp only [activate, kevAdd]
  cases filterOf (fdMapToSys ev) with
  | none => rfl
  | some f => cases k.opened fd <;> rfl

theorem Sane.activate (hs : k.Sane) (fd : Int) (ev : FdEvent) : (k.activate fd ev).2.Sane := by
  intro fd' f hf
  rw [opened_activate]
  rw [filters_activate] at hf
  simp only [Bool.or_eq_true, Bool.and_eq_true, decide_eq_true_eq] at hf
  rcases hf with hold | ⟨⟨rfl, hopen⟩, -⟩
  · exact hs fd' f hold
  · exact hopen

/-- What is recorded is what is there, if the mask is empty, or the descriptor open and the mask not
combined; a combined one only confirms that the descriptor is watched for writing. -/
theorem Exact.activate_iff (h : k.Exact) (hs : k.Sane) (fd : Int) (ev : FdEvent) :
    (k.activate fd ev).2.Exact ↔ ev = ⟨false, false⟩ ∨
      (k.opened fd = true ∧ (ev = ⟨true, true⟩ → k.filters fd .write = true)) := by
  -- the other descriptors keep their records and their filters
  have hat : (k.activate fd ev).2.Exact ↔
      (k.activate fd ev).2.recorded fd = (k.activate fd ev).2.active fd := by
    refine ⟨fun hall => hall fd, fun hfd fd' => ?_⟩
    by_cases hne : fd' = fd
    · exact hne ▸ hfd
    · rw [recorded_activate, if_neg hne, h fd']
      simp [active, filters_activate, hne]
  rw [hat, recorded_activate, if_pos rfl, h fd]
  have hread := hs fd .read
  have hwrite := hs fd .write
  simp only [active, filters_activate, filterOf_fdMapToSys, union]
  -- each mask, on a descriptor that is open or not, with each set of filters
  rcases ev with ⟨_ | _, _ | _⟩ <;> revert hread hwrite <;>
    cases k.opened fd <;> cases k.filters fd .read <;> cases k.filters fd .write <;> simp

theorem Sane.deactivate (hs : k.Sane) (h : k.Exact) (fd : Int) : (k.deactivate fd).2.Sane := by
  rw [h.deactivate hs]
  intro fd' f hf
  by_cases hfd : fd' = fd
  · simp [hfd] at hf
  · exact hs fd' f (by simpa [hfd] using hf)

theorem Exact.deactivate_exact (h : k.Exact) (hs : k.Sane) (fd : Int) :
    (k.deactivate fd).2.Exact := by
  rw [h.deactivate hs]
  intro fd'
  by_cases hfd : fd' = fd
  · simp [recorded, active, hfd]
  · simpa [recorded, active, hfd] using h fd'

theorem Sane.close (hs : k.Sane) (fd : Int) : (k.close fd).Sane := by
  intro fd' f hf
  by_cases hfd : fd' = fd
  · simp [Kqueue.close, hfd] at hf
  · simpa [Kqueue.close, hfd] using hs fd' f (by simpa [Kqueue.close, hfd] using hf)

theorem Exact.close_iff (h : k.Exact) (fd : Int) :
    (k.close fd).Exact ↔ k.active fd = ⟨false, false⟩ := by
  constructor
  · intro hall
    rw [← h fd]
    simpa [Kqueue.close, recorded, active] using hall fd
  · intro hnone fd'
    by_cases hfd : fd' = fd
    · subst hfd
      simpa [Kqueue.close, recorded, active] using (h fd').trans hnone
    · simpa [Kqueue.close, recorded, active, hfd] using h fd'

theorem Sane.openFd (hs : k.Sane) (fd : Int) : (k.openFd fd).Sane := by
  intro fd' f hf
  by_cases hfd : fd' = fd
  · simp [Kqueue.openFd, hfd]
  · simpa [Kqueue.openFd, hfd] using hs fd' f hf

end Kqueue

/-! ## Several connections, one after the other

The same descriptor number for one connection after another is what makes a stale record visible. -/

inductive ShadowLabel (H : Type) where
  | call (c : Call H)
  | safelyClose (iop : ConnId)
  /-- The kernel hands out the number. -/
  | opened (fd : Int)

namespace Shadow

variable {H : Type} {fdOf : ConnId → Int}

def step (fdOf : ConnId → Int) (s : PolledLoop H Kqueue) :
    ShadowLabel H → Option (PolledLoop H Kqueue)
  | .call c => some (kqueue.call fdOf s c).2
  | .safelyClose iop =>
    let s := (kqueue.fdRemove fdOf s iop true false).2
    -- `nio::close` tests `fd_ != -1`
    some (if fdOf iop = -1 then s else { s with poller := s.poller.close (fdOf iop) })
  | .opened fd =>
    if s.poller.opened fd = false then some { s with poller := s.poller.openFd fd } else none

/-- Nothing is activated yet. -/
structure Start (s : PolledLoop H Kqueue) : Prop where
  filters : ∀ fd f, s.poller.filters fd f = false
  fdEvents : ∀ fd, s.poller.fdEvents fd = none

/-- What is activated is open, and a combined mask is not new; what is closed has been deactivated. -/
def Recorded (fdOf : ConnId → Int) (s : PolledLoop H Kqueue) : ShadowLabel H → Prop
  | .call (.register iop evType _ true _) =>
    evType = ⟨false, false⟩ ∨ (s.poller.opened (fdOf iop) = true ∧
      (evType = ⟨true, true⟩ → s.poller.filters (fdOf iop) .write = true))
  | .safelyClose iop => s.poller.active (fdOf iop) = ⟨false, false⟩ ∨ fdOf iop = -1
  | _ => True

instance (fdOf : ConnId → Int) (s : PolledLoop H Kqueue) :
    (l : ShadowLabel H) → Decidable (Recorded fdOf s l)
  | .call (.register _ _ _ true _) => inferInstanceAs (Decidable (_ ∨ _))
  | .safelyClose _ => inferInstanceAs (Decidable (_ ∨ _))
  | .call (.register _ _ _ false _) | .call (.remove ..) | .opened _ => isTrue trivial

/-- `fd_events_` is right, and no `EV_DELETE` of an `fd_remove` would fail. -/
def Right (s : PolledLoop H Kqueue) : Prop :=
  s.poller.Exact ∧ ∀ fd, (kqueue.deactivate s.poller fd).1 = .ok ()

variable {s s' : PolledLoop H Kqueue} {l : ShadowLabel H}

theorem right_iff (hs : s.poller.Sane) : Right s ↔ s.poller.Exact :=
  ⟨fun h => h.1, fun h => ⟨h, fun fd => congrArg Prod.fst (h.deactivate hs fd)⟩⟩

/-- The poller after a step; the rest of the loop has no part in this. -/
theorem poller_step (h : step fdOf s l = some s') : s'.poller =
    match l with
    | .call (.register iop evType _ true _) => (s.poller.activate (fdOf iop) evType).2
    | .call (.remove iop _ true) => (s.poller.deactivate (fdOf iop)).2
    | .safelyClose iop => if fdOf iop = -1 then s.poller else s.poller.close (fdOf iop)
    | .opened fd => s.poller.openFd fd
    | _ => s.poller := by
  cases l with
  | call c =>
      obtain rfl := Option.some.inj h
      cases c with
      | register iop evType handler activate prio =>
          cases activate <;> exact Backend.poller_fdRegister ..
      | remove iop clean deactivate =>
          cases deactivate <;> exact Backend.poller_fdRemove ..
  | safelyClose iop =>
      obtain rfl := Option.some.inj h
      simp only
      split <;> rw [Backend.poller_fdRemove] <;> rfl
  | opened fd =>
      simp only [step] at h
      split at h
      case isTrue => exact Option.some.inj h ▸ rfl
      case isFalse => cases h

/-- One step from a state in which `fd_events_` is right. -/
theorem exact_step (hs : s.poller.Sane) (he : s.poller.Exact) (h : step fdOf s l = some s') :
    s'.poller.Sane ∧ (Recorded fdOf s l ↔ s'.poller.Exact) := by
  have hp := poller_step h
  cases l with
  | call c =>
      cases c with
      | register iop evType handler activate prio =>
          cases activate with
          | false => exact hp ▸ ⟨hs, iff_of_true trivial he⟩
          | true => exact hp ▸ ⟨hs.activate _ _, (he.activate_iff hs _ _).symm⟩
      | remove iop clean deactivate =>
          cases deactivate with
          | false => exact hp ▸ ⟨hs, iff_of_true trivial he⟩
          | true =>
              exact hp ▸ ⟨hs.deactivate he _, iff_of_true trivial (he.deactivate_exact hs _)⟩
  | safelyClose iop =>
      by_cases hfd : fdOf iop = -1
      · rw [show s'.poller = s.poller by simpa [hfd] using hp]
        exact ⟨hs, iff_of_true (.inr hfd) he⟩
      · rw [show s'.poller = s.poller.close (fdOf iop) by simpa [hfd] using hp, he.close_iff]
        exact ⟨hs.close _, or_iff_left hfd⟩
  | opened fd => exact hp ▸ ⟨hs.openFd fd, iff_of_true trivial he⟩

theorem Start.right (h : Start s) : s.poller.Sane ∧ Right s := by
  have hs : s.poller.Sane := fun fd f hf => by simp [h.filters] at hf
  refine ⟨hs, (right_iff hs).mpr fun fd => ?_⟩
  simp [Kqueue.recorded, Kqueue.active, h.filters, h.fdEvents]

/-- **`fd_events_` against the kqueue.** In a run of calls, of `safely_close` and of descriptors
handed out again: `fd_events_` is right in every state, and with it every `EV_DELETE`, if and only if
the steps are as `Recorded` says. -/
theorem shadow_iff (fdOf : ConnId → Int) (s₀ s : PolledLoop H Kqueue) (ls : List (ShadowLabel H))
    (hstart : Start s₀) (hrun : run (step fdOf) s₀ ls = some s) :
    AllSteps (step fdOf) (Recorded fdOf) s₀ ls ↔
      ∀ ls' t, ls' <+: ls → run (step fdOf) s₀ ls' = some t → Right t := by
  obtain ⟨hs, hright⟩ := hstart.right
  refine @allSteps_iff_reached _ _ _ _ (fun s => s.poller.Sane) Right
    (fun _ _ _ hs hr h => (exact_step hs hr.1 h).1) (fun s l s' hs hr h => ?_) _ _ _ hs hright hrun
  obtain ⟨hs', hiff⟩ := exact_step hs hr.1 h
  rw [right_iff hs', hiff]

/-- A loop with a kqueue, in a process without descriptors. -/
def empty : PolledLoop Nat Kqueue :=
  ⟨⟨0, [], []⟩, ⟨fun _ => false, fun _ _ => false, fun _ => none⟩⟩

theorem start_empty : Start empty := ⟨fun _ _ => rfl, fun _ => rfl⟩

/-- A connection gets the number 5 and is watched. -/
def watched (iop : ConnId) (ev : FdEvent) : List (ShadowLabel Nat) :=
  [.opened 5, .call (.register iop ev (some 0) true .p0)]

/-- The first connection is deactivated before `safely_close`, and the second gets its number. -/
theorem shadow_iff_deactivated : ∃ s, run (step fun _ => 5) empty
    (watched 0 .fdReadable ++ [.call (.remove 0 true true), .safelyClose 0] ++
      watched 1 .fdWritable) = some s ∧ Right s := by
  have hok : AllSteps (step fun _ => 5) (Recorded fun _ => 5) empty
      (watched 0 .fdReadable ++ [.call (.remove 0 true true), .safelyClose 0] ++
        watched 1 .fdWritable) := by decide +kernel
  obtain ⟨s, hs⟩ := Option.isSome_iff_exists.mp (show (run (step fun _ => 5) empty
    (watched 0 .fdReadable ++ [.call (.remove 0 true true), .safelyClose 0] ++
      watched 1 .fdWritable)).isSome = true by decide +kernel)
  exact ⟨s, hs, (shadow_iff _ _ _ _ start_empty hs).mp hok _ s List.prefix_rfl hs⟩

/-- It is not; the record of the first connection is taken for one of the second. -/
theorem recorded_before :
    ¬ ∀ (fdOf : ConnId → Int) (s₀ s : PolledLoop Nat Kqueue) (ls : List (ShadowLabel Nat)),
      Start s₀ → run (step fdOf) s₀ ls = some s → Right s := by
  intro h
  have hdel : (run (step fun _ => 5) empty
      (watched 0 .fdReadable ++ [.safelyClose 0] ++ watched 1 .fdWritable)).map
        (fun s => decide ((kqueue.deactivate s.poller 5).1 = .ok ())) = some false := by
    decide +kernel
  obtain ⟨s, hs, hno⟩ := Option.map_eq_some_iff.mp hdel
  exact absurd ((h _ _ s _ start_empty hs).2 5) (of_decide_eq_false hno)

end Shadow

end Cppev
