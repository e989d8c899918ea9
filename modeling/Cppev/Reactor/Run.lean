import Cppev.Lib.Transition
import Cppev.Reactor.Refine

/-!
# Runs, seen from one connection

What a step of the machine does to the view of each connection: nothing, or one of four things
(new events, a handler, destruction, birth). An invariant that each of the four keeps is an
invariant of every run, for every connection, whatever the others do (`run_local`).
-/

namespace Cppev

namespace Conn

/-! ## What the outside does to a connection -/

/-- Epoll reports `ev` for the descriptor. -/
def ready (v : Conn) (ev : EpollEvents) : Conn :=
  { v with
    queued := v.queued ++
      (v.handlers.filter fun h => h.2.meets (fdMapToEvent ev)).map Prod.fst }

/-- The last pointer to the connection goes away. -/
def destroyed (v : Conn) : Conn := { v with closed := true, interest := none }

end Conn

/-! ## Collecting the events of a batch

What the poller reports goes into the queue handler by handler. A connection sees its own events
only, since in a sane world a descriptor is that of one open connection. -/

section Poll

variable {c : ConnId} {w : World}

/-- The world with another loop. -/
abbrev World.withEvl (w : World) (evl : EventLoop IoHandler) : World := { w with evl }

/-- What one event adds to the queue of a connection. -/
def queuedBy (fd : Int) (handlers : List (IoHandler × FdEvent)) (ev : Int × EpollEvents) :
    List IoHandler :=
  if ev.1 = fd then (handlers.filter fun h => h.2.meets (fdMapToEvent ev.2)).map Prod.fst else []

theorem view_enqueue (hs : Sane w) (ev : Int × EpollEvents) :
    view c (w.withEvl (w.evl.enqueue ev.1 ev.2)) =
      { view c w with
        queued := (view c w).queued ++ queuedBy (view c w).fd (view c w).handlers ev } := by
  -- the entries of `c` are under its number
  have hown : ∀ e ∈ w.evl.fds, e.iop = c → e.fd = (view c w).fd := by
    rintro e he rfl
    exact (hs.entries e he).2.2
  have hadd : ((((w.evl.fds.filter fun e => e.fd = ev.1 && e.ev.meets (fdMapToEvent ev.2)).map
      Entry.cb).filter fun cb => cb.iop = c).map fun cb => cb.handler) =
      queuedBy (view c w).fd (view c w).handlers ev := by
    rw [List.filter_map, List.map_map, List.filter_filter, queuedBy]
    split
    case isTrue hfd =>
      simp only [view, List.filter_map, List.map_map, List.filter_filter]
      refine congrArg (List.map _) (List.filter_congr fun e he => ?_)
      by_cases hiop : e.iop = c
      · have := hown e he hiop
        simp [hiop, this, hfd, Entry.cb]
      · simp [hiop, Entry.cb]
    case isFalse hfd =>
      refine List.map_eq_nil_iff.mpr (List.filter_eq_nil_iff.mpr fun e he hcond => ?_)
      simp only [Function.comp_apply, Entry.cb, Bool.and_eq_true, decide_eq_true_eq] at hcond
      exact hfd (hcond.2.1.symm.trans (hown e he (of_decide_eq_true hcond.1)))
  have hq : (view c (w.withEvl (w.evl.enqueue ev.1 ev.2))).queued =
      (view c w).queued ++ queuedBy (view c w).fd (view c w).handlers ev := by
    rw [← hadd]
    simp only [view, EventLoop.enqueue, List.filter_append, List.map_append]
  rw [← hq]
  rfl

/-- The queue holds handlers of the table. -/
theorem sane_enqueue (hs : Sane w) (ev : Int × EpollEvents) :
    Sane (w.withEvl (w.evl.enqueue ev.1 ev.2)) := by
  refine ⟨hs.entries, fun cb hcb => ?_, hs.distinct, hs.opened, hs.polled, hs.buffers, hs.unborn⟩
  rcases List.mem_append.mp hcb with hcb | hcb
  · exact hs.queue cb hcb
  · obtain ⟨e, he, rfl⟩ := List.mem_map.mp hcb
    exact (hs.entries e (List.mem_of_mem_filter he)).1

/-- All events, by induction on the batch. -/
theorem collect_spec (hs : Sane w) (evs : List (Int × EpollEvents)) :
    Sane (w.withEvl (w.evl.collect evs)) ∧ ∀ c,
      view c (w.withEvl (w.evl.collect evs)) = { view c w with
        queued := (view c w).queued ++ evs.flatMap (queuedBy (view c w).fd (view c w).handlers) } := by
  induction evs generalizing w with
  | nil => exact ⟨hs, fun c => by simp [EventLoop.collect]⟩
  | cons ev evs ih =>
      obtain ⟨hs', hview⟩ := ih (sane_enqueue hs ev)
      refine ⟨hs', fun c => (hview c).trans ?_⟩
      rw [view_enqueue hs]
      simp

/-- In a batch, at most one event is for the descriptor of `c`. -/
theorem flatMap_queuedBy {fd : Int} {handlers : List (IoHandler × FdEvent)}
    {evs : List (Int × EpollEvents)} (hnd : (evs.map Prod.fst).Nodup) :
    evs.flatMap (queuedBy fd handlers) = [] ∨
      ∃ ev ∈ evs, ev.1 = fd ∧ evs.flatMap (queuedBy fd handlers) = queuedBy fd handlers ev := by
  induction evs with
  | nil => exact .inl rfl
  | cons ev evs ih =>
      obtain ⟨hnot, hnd'⟩ := List.nodup_cons.mp hnd
      by_cases hfd : ev.1 = fd
      · have hrest : evs.flatMap (queuedBy fd handlers) = [] := by
          refine List.flatMap_eq_nil_iff.mpr fun ev' hev' => if_neg fun h => hnot ?_
          exact List.mem_map.mpr ⟨ev', hev', h.trans hfd.symm⟩
        exact .inr ⟨ev, List.mem_cons_self, hfd, by simp [hrest]⟩
      · have hskip : (ev :: evs).flatMap (queuedBy fd handlers) =
            evs.flatMap (queuedBy fd handlers) := by simp [queuedBy, hfd]
        rw [hskip]
        exact (ih hnd').imp id fun ⟨ev', hev', h⟩ => ⟨ev', List.mem_cons_of_mem _ hev', h⟩

/-- What `epoll_wait` and the collection of its events do to a connection. -/
theorem view_poll (hs : Sane w) {evs : List (Int × EpollEvents)}
    (hbatch : EventLoop.Batch w.kern evs) :
    view c (w.withEvl (w.evl.collect evs)) = view c w ∨
      ∃ interest ev, (view c w).interest = some interest ∧ interest.reportable ev = true ∧
        view c (w.withEvl (w.evl.collect evs)) = (view c w).ready ev := by
  have hview := (collect_spec hs evs).2 c
  have hsame : ∀ q, q = [] → evs.flatMap (queuedBy (view c w).fd (view c w).handlers) = q →
      view c (w.withEvl (w.evl.collect evs)) = view c w := by
    rintro q rfl hnil
    rw [hview, hnil, List.append_nil]
  rcases @flatMap_queuedBy (view c w).fd (view c w).handlers evs hbatch.1 with
    hnil | ⟨ev, hev, hfd, hone⟩
  · exact .inl (hsame _ rfl hnil)
  · cases hcl : (w.nios c).closed with
    -- the event is for whoever has the number now
    | true =>
        have hnone := handlers_of_closed hs hcl
        exact .inl (hsame _ (by simp [queuedBy, hnone]) hone)
    | false =>
        have hrep := hbatch.2 ev hev
        cases hep : w.kern.epoll ev.1 with
        | none => simp [hep] at hrep
        | some interest =>
            have hint : (view c w).interest = some interest := by
              rw [← hep, hfd]
              simp [view, hcl]
            refine .inr ⟨interest, ev.2, hint, by simpa [hep] using hrep, ?_⟩
            rw [hview, hone, queuedBy, if_pos hfd]
            rfl

end Poll

/-! ## Running a handler

Before a handler runs, its element leaves the queue and its script is set. -/

section Dispatch

variable {w : World} {i : Nat} {cb : FdCb IoHandler} {evl : EventLoop IoHandler} {env : Env}

/-- The world in which the handler `cb` begins. -/
def World.started (w : World) (evl : EventLoop IoHandler) (cb : FdCb IoHandler) (env : Env) :
    World :=
  { w with evl, scripts := Function.update w.scripts cb.iop env.script }

/-- What comes before and after it stays. -/
theorem pop_eq_some (h : w.evl.pop i = some (cb, evl)) :
    ∃ pre post, w.evl.fdCbs = pre ++ cb :: post ∧ evl = { w.evl with fdCbs := pre ++ post } := by
  unfold EventLoop.pop at h
  cases hget : w.evl.fdCbs[i]? with
  | none => simp [hget] at h
  | some cb' =>
      simp only [hget] at h
      split at h
      case isFalse => exact nomatch h
      case isTrue =>
        simp only [Option.some.injEq, Prod.mk.injEq] at h
        obtain ⟨rfl, rfl⟩ := h
        obtain ⟨hi, hcb⟩ := List.getElem?_eq_some_iff.mp hget
        refine ⟨w.evl.fdCbs.take i, w.evl.fdCbs.drop (i + 1), ?_, ?_⟩
        · rw [← hcb, List.getElem_cons_drop, List.take_append_drop]
        · rw [List.eraseIdx_eq_take_drop_succ]

theorem sane_started (hs : Sane w) (h : w.evl.pop i = some (cb, evl)) :
    Sane (w.started evl cb env) := by
  obtain ⟨pre, post, hfd, rfl⟩ := pop_eq_some h
  refine ⟨hs.entries, fun cb' hcb' => hs.queue cb' ?_, hs.distinct, hs.opened, hs.polled,
    hs.buffers, hs.unborn⟩
  rw [hfd]
  exact (List.mem_append.mp hcb').elim (List.mem_append_left _)
    fun h => List.mem_append_right _ (List.mem_cons_of_mem _ h)

/-- The connection of the handler loses one element of its queue. -/
theorem view_started_self (h : w.evl.pop i = some (cb, evl)) :
    ∃ pre post, (view cb.iop w).queued = pre ++ cb.handler :: post ∧
      view cb.iop (w.started evl cb env) =
        { view cb.iop w with queued := pre ++ post, script := env.script } := by
  obtain ⟨pre, post, hfd, rfl⟩ := pop_eq_some h
  refine ⟨(pre.filter fun cb' => cb'.iop = cb.iop).map FdCb.handler,
    (post.filter fun cb' => cb'.iop = cb.iop).map FdCb.handler, ?_, ?_⟩
  · show (w.evl.fdCbs.filter fun cb' => cb'.iop = cb.iop).map FdCb.handler = _
    simp [hfd]
  · simp [view, World.started]
    rfl

/-- The other connections see nothing of it. -/
theorem view_started_ne {c : ConnId} (h : w.evl.pop i = some (cb, evl)) (hne : c ≠ cb.iop) :
    view c (w.started evl cb env) = view c w := by
  obtain ⟨pre, post, hfd, rfl⟩ := pop_eq_some h
  have hq : ((pre ++ post).filter fun cb' => cb'.iop = c) =
      w.evl.fdCbs.filter fun cb' => cb'.iop = c := by
    simp [hfd, hne.symm]
  simp only [view, World.started, Function.update_of_ne hne, hq]
  rfl

end Dispatch

/-! ## Invariants of one connection

`LocalInv` asks for a property of one connection that each of the four things keeps. `run_local`
then gives it for all connections and all runs; no proof above this module is about two connections
at a time. -/

/-- What a run may ask of the handlers it runs: `ok` sees the connection before the handler. -/
def Meets (ok : Conn → IoHandler → Env → Prop) (s : Reactor) : ReactorLabel → Prop
  | .dispatch i env =>
    match s.world.evl.pop i with
    | some (cb, _) => ok (view cb.iop s.world) cb.handler env
    | none => True
  | _ => True

instance (ok : Conn → IoHandler → Env → Prop) [∀ v h env, Decidable (ok v h env)] (s : Reactor)
    (l : ReactorLabel) : Decidable (Meets ok s l) :=
  match l with
  | .dispatch i env =>
    match h : s.world.evl.pop i with
    | some (cb, _) =>
      decidable_of_iff (ok (view cb.iop s.world) cb.handler env) (by simp [Meets, h])
    | none => isTrue (by simp [Meets, h])
  | .handOver _ _ _ => isTrue trivial
  | .poll _ => isTrue trivial
  | .destroy _ => isTrue trivial

theorem Meets.and {ok ok' : Conn → IoHandler → Env → Prop} {s : Reactor} {l : ReactorLabel}
    (h : Meets ok s l) (h' : Meets ok' s l) :
    Meets (fun v h env => ok v h env ∧ ok' v h env) s l := by
  cases l with
  | dispatch i env =>
      cases hpop : s.world.evl.pop i with
      | none => simp [Meets, hpop]
      | some p =>
          simp only [Meets, hpop] at h h' ⊢
          exact ⟨h, h'⟩
  | _ => trivial

theorem Meets.mono {ok ok' : Conn → IoHandler → Env → Prop} {s : Reactor} {l : ReactorLabel}
    (hmono : ∀ v h env, ok v h env → ok' v h env) (h : Meets ok s l) : Meets ok' s l := by
  cases l with
  | dispatch i env =>
      cases hpop : s.world.evl.pop i with
      | none => simp [Meets, hpop]
      | some p =>
          simp only [Meets, hpop] at h ⊢
          exact hmono _ _ _ h
  | _ => trivial

/-- A condition on what the outside contributes alone. -/
theorem meets_of_env {ok : Env → Prop} {l : ReactorLabel}
    (h : ∀ i env, l = .dispatch i env → ok env) (s : Reactor) : Meets (fun _ _ env => ok env) s l := by
  cases l with
  | dispatch i env =>
      show match s.world.evl.pop i with
        | some (cb, _) => ok env
        | none => True
      cases s.world.evl.pop i with
      | none => trivial
      | some p => exact h i env rfl
  | _ => trivial

/-- A handler ends with an exception in `F` and leaves its connection in `J`. -/
def Thrown (F : Exn → Prop) (J : Conn → Prop) (f : Fault) (v : Conn) : Prop :=
  ∃ e, f = .exn e ∧ F e ∧ J v

/-- `I` is kept by everything that can happen to a connection. Where a handler throws, the loop ends
with an exception in `F` and the connection is left in `J`. -/
structure LocalInv (ok : Conn → IoHandler → Env → Prop) (I J : Conn → Prop) (F : Exn → Prop) :
    Prop where
  newborn : ∀ v, Newborn v → I v
  ready : ∀ v interest ev, I v → v.queued = [] → v.interest = some interest →
    interest.reportable ev = true → I (v.ready ev)
  handler : ∀ v pre h post env, I v → v.queued = pre ++ h :: post → ok v h env →
    (Conn.handle h env).wp (fun _ v' => I v') (Thrown F J)
      { v with queued := pre ++ post, script := env.script }
  destroyed : ∀ v, I v → v.handlers = [] → v.queued = [] → v.closed = false → I v.destroyed
  weaken : ∀ v, I v → J v

/-- The state of a loop all of whose connections keep an invariant. -/
structure AllLocal (I J : Conn → Prop) (F : Exn → Prop) (s : Reactor) : Prop where
  sane : Sane s.world
  left : ∀ c ∈ s.world.born, J (view c s.world)
  kept : s.fault = none → ∀ c ∈ s.world.born, I (view c s.world)
  thrown : ∀ e, s.fault = some e → F e

section RunLocal

variable {ok : Conn → IoHandler → Env → Prop} {I J : Conn → Prop} {F : Exn → Prop}

/-! ### From one connection to the run -/

theorem AllLocal.intro (hl : LocalInv ok I J F) {w : World} (hs : Sane w)
    (h : ∀ c ∈ w.born, I (view c w)) : AllLocal I J F ⟨w, none⟩ :=
  ⟨hs, fun c hc => hl.weaken _ (h c hc), fun _ => h, fun _ he => nomatch he⟩

/-- Other connections come along, new ones are fine: it is one connection that decides. -/
theorem AllLocal.of_keeps (hl : LocalInv ok I J F) {w w' : World} {c : ConnId}
    {fault : Option Exn} (hkeep : Keeps c w w')
    (hother : ∀ d ∈ w.born, d ≠ c → I (view d w)) (hleft : J (view c w'))
    (hkept : fault = none → I (view c w')) (hthrown : ∀ e, fault = some e → F e) :
    AllLocal I J F ⟨w', fault⟩ := by
  have hrest : ∀ d ∈ w'.born, d ≠ c → I (view d w') := by
    intro d hd hne
    by_cases hdb : d ∈ w.born
    · rw [hkeep.others d hdb hne]
      exact hother d hdb hne
    · exact hl.newborn _ (hkeep.newborn d hd hdb)
  refine ⟨hkeep.sane, fun d hd => ?_, fun hf d hd => ?_, hthrown⟩
  · by_cases hdc : d = c
    · exact hdc ▸ hleft
    · exact hl.weaken _ (hrest d hd hdc)
  · by_cases hdc : d = c
    · exact hdc ▸ hkept hf
    · exact hrest d hd hdc

theorem allLocal_init (hl : LocalInv ok I J F) : AllLocal I J F Reactor.init := by
  refine .intro hl ⟨?_, ?_, ?_, ?_, ?_, ?_, ?_⟩ ?_ <;> simp

variable {w : World} {s s' : Reactor} {l : ReactorLabel}

/-- A connection comes along: it is new, and the others see nothing of it. -/
theorem handOver_local (hl : LocalInv ok I J F) (hs : Sane w) (hI : ∀ d ∈ w.born, I (view d w))
    {c : ConnId} {fd : Int} (origin : Origin) (hfresh : w.Fresh c fd) :
    AllLocal I J F (Reactor.after ((World.handOver c fd origin).exec w)) := by
  obtain ⟨w', hexec, hext⟩ := handOver_spec hs origin hfresh
  rw [hexec]
  refine .intro hl hext.sane fun d hd => ?_
  by_cases hdb : d ∈ w.born
  · rw [hext.kept d hdb]
    exact hI d hdb
  · exact hl.newborn _ (hext.newborn d hd hdb)

/-- A batch: new elements in the queues. -/
theorem poll_local (hl : LocalInv ok I J F) (hs : Sane w) (hI : ∀ d ∈ w.born, I (view d w))
    {evs : List (Int × EpollEvents)} (hq : w.evl.fdCbs = [])
    (hbatch : EventLoop.Batch w.kern evs) :
    AllLocal I J F ⟨w.withEvl (w.evl.collect evs), none⟩ := by
  refine .intro hl (collect_spec hs evs).1 fun d hd => ?_
  have hqd : (view d w).queued = [] := by simp [view, hq]
  rcases view_poll (c := d) hs hbatch with hsame | ⟨interest, ev, hint, hrep, hready⟩
  · exact hsame ▸ hI d hd
  · exact hready ▸ hl.ready _ interest ev (hI d hd) hqd hint hrep

/-- A handler runs on the view of its connection as it does in the world, so what has been shown for
the view is true in the world. -/
theorem dispatch_local (hl : LocalInv ok I J F) (hs : Sane w) (hI : ∀ d ∈ w.born, I (view d w))
    {i : Nat} {cb : FdCb IoHandler} {evl : EventLoop IoHandler} {env : Env}
    (hpop : w.evl.pop i = some (cb, evl)) (hok : ok (view cb.iop w) cb.handler env) :
    AllLocal I J F (Reactor.after (Reactor.runCb { w with evl } cb env)) := by
  obtain ⟨pre, post, hq, hview⟩ := @view_started_self w i cb evl env hpop
  have hsane := @sane_started w i cb evl env hs hpop
  have hc : cb.iop ∈ w.born := by
    obtain ⟨pre, post, hfd, -⟩ := pop_eq_some hpop
    exact hs.queue cb (by simp [hfd])
  have hother : ∀ d ∈ w.born, d ≠ cb.iop → I (view d (w.started evl cb env)) := by
    intro d hd hne
    rw [view_started_ne hpop hne]
    exact hI d hd
  have hwp := hl.handler _ pre cb.handler post env (hI _ hc) hq hok
  have hagree := sim_run cb.handler env _ hsane hc
  rw [hview] at hagree
  unfold Prog.wp at hwp
  show AllLocal I J F (Reactor.after ((cb.handler.run (World.iopt cb.iop)
    (env.dp (World.iopt cb.iop))).exec (w.started evl cb env)))
  rcases hrun : (Conn.handle cb.handler env).exec
    { view cb.iop w with queued := pre ++ post, script := env.script } with ⟨r, v⟩
  rcases hrun' : (cb.handler.run (World.iopt cb.iop) (env.dp (World.iopt cb.iop))).exec
    (w.started evl cb env) with ⟨r', w'⟩
  rw [hrun] at hwp hagree
  rw [hrun'] at hagree
  match r, hwp, hagree with
  | .ok _, hwp, ⟨hr, hkeep, hv⟩ =>
      subst hr hv
      exact .of_keeps hl hkeep hother (hl.weaken _ hwp) (fun _ => hwp) fun _ he => nomatch he
  | .error (.exn e), ⟨e', he', hF, hJ⟩, ⟨hr, hkeep, hv⟩ =>
      -- the loop has ended, and what is left of the connection is as `J` says
      subst hr hv
      obtain rfl : e = e' := by simpa using he'
      refine .of_keeps hl hkeep hother hJ (fun h => nomatch h) fun e'' he => ?_
      obtain rfl : e = e'' := by simpa using he
      exact hF
  | .error .stray, ⟨e', he', _⟩, _ => exact nomatch he'

/-- A connection that nobody refers to is destroyed. -/
theorem destroy_local (hl : LocalInv ok I J F) (hs : Sane w) (hI : ∀ d ∈ w.born, I (view d w))
    {c : ConnId} (hc : c ∈ w.born) (hcl : (w.nios c).closed = false)
    (hnone : Reactor.Unreferenced w c) : AllLocal I J F ⟨w.closeNio c, none⟩ := by
  obtain ⟨hfds, hcbs⟩ := hnone
  obtain ⟨hkeep, hview⟩ := keeps_closeNio hs hc hcl hfds
  have hgone : (view c w).handlers = [] ∧ (view c w).queued = [] := by
    constructor
    · exact List.map_eq_nil_iff.mpr (List.filter_eq_nil_iff.mpr fun e he => by
        simpa using hfds e he)
    · exact List.map_eq_nil_iff.mpr (List.filter_eq_nil_iff.mpr fun cb hcb => by
        simpa using hcbs cb hcb)
  have hIc : I (view c (w.closeNio c)) := by
    rw [hview]
    exact hl.destroyed _ (hI c hc) hgone.1 hgone.2 hcl
  exact .of_keeps hl hkeep (fun d hd _ => hI d hd) (hl.weaken _ hIc) (fun _ => hIc)
    fun _ he => nomatch he

/-- One step of the machine. -/
theorem step_local (hl : LocalInv ok I J F) (hs : AllLocal I J F s) (hok : Meets ok s l)
    (hstep : Reactor.step s l = some s') : AllLocal I J F s' := by
  obtain ⟨w, fault⟩ := s
  unfold Reactor.step at hstep
  split at hstep
  case isTrue => exact nomatch hstep
  case isFalse hfault =>
    obtain rfl : fault = none := not_not.mp hfault
    have hI := hs.kept rfl
    cases l with
    | handOver c fd origin =>
        dsimp only at hstep
        split at hstep
        case isFalse => exact nomatch hstep
        case isTrue hfresh =>
          obtain rfl := Option.some.inj hstep
          exact handOver_local hl hs.sane hI origin hfresh
    | poll evs =>
        dsimp only at hstep
        split at hstep
        case isFalse => exact nomatch hstep
        case isTrue h =>
          obtain rfl := Option.some.inj hstep
          exact poll_local hl hs.sane hI h.1 h.2
    | dispatch i env =>
        unfold Meets at hok
        cases hpop : w.evl.pop i with
        | none => simp [hpop] at hstep
        | some p =>
            simp only [hpop, Option.some.injEq] at hstep hok
            subst hstep
            exact dispatch_local hl hs.sane hI hpop hok
    | destroy c =>
        dsimp only at hstep
        split at hstep
        case isFalse => exact nomatch hstep
        case isTrue h =>
          obtain rfl := Option.some.inj hstep
          exact destroy_local hl hs.sane hI h.1 h.2.1 h.2.2

/-- **What every handler keeps for its own connection holds for every connection in every run.** -/
theorem run_local (hl : LocalInv ok I J F) {ls : List ReactorLabel}
    (hok : AllSteps Reactor.step (Meets ok) Reactor.init ls)
    (hrun : run Reactor.step Reactor.init ls = some s) : AllLocal I J F s :=
  run_inv Reactor.step (Meets ok) (AllLocal I J F) (fun _ _ _ h hm hst => step_local hl h hm hst)
    (allLocal_init hl) hok hrun

end RunLocal

end Cppev
