import Cppev.Reactor.Handler

/-!
# The calls of `epoll_ctl`

Between `fd_remove` and `fd_register`, epoll does not know the descriptor. A callback that runs there
(`on_accept`, `on_connect`, and `on_write_complete` when `on_writable` calls it) may call
`async_write`, which begins with `fd_remove` itself if bytes are left to be written.

* `ctl_consistent`: if no `async_write` in one of these callbacks leaves bytes (`Drains`), every
  descriptor that is added is not in the epoll set, every one that is deleted is, and nothing but
  `read` and `write` makes a handler throw.
* `ctl_inconsistent`: a partial write in `on_accept` ends the loop.
-/

namespace Cppev

/-! ## The history of epoll

No descriptor is added that is in the set, and none is taken out that is not. -/

/-- Each descriptor added was not in the epoll set, each one deleted was. -/
def Consistent (tr : List Event) : Prop := ∀ e ∈ tr, e ≠ .ctlAdd true ∧ e ≠ .ctlDel false

theorem Consistent.append {tr evs : List Event} (h : Consistent tr) (hevs : Consistent evs) :
    Consistent (tr ++ evs) := List.forall_mem_append.mpr ⟨h, hevs⟩

instance (tr : List Event) : Decidable (Consistent tr) := inferInstanceAs (Decidable (∀ e ∈ tr, _))

theorem consistent_sent (xs : List (List Byte)) : Consistent (xs.map .sent) := by
  simp [Consistent]

/-- What `epoll_ctl` throws is not what `write` throws. -/
theorem epollCtl_ne_write (fd : Int) :
    "epoll_ctl del error for fd " ++ toString fd ≠ "write error" := by
  intro h
  have hlist := congrArg String.toList h
  simp at hlist

namespace Conn

/-! ## What the callbacks are asked for

While a greeting or `on_write_complete` runs, the descriptor is not in the set. A partial write then
would take it out once more. -/

/-- A callback that runs while epoll does not know the descriptor does not leave bytes to be
written. -/
def Drains (v : Conn) (h : IoHandler) (env : Env) : Prop :=
  match h with
  | .onReadable => True
  | .onWritable =>
    (v.started env).flushed.out = [] →
      env.onWriteComplete.play false (v.started env).flushed.io ≠ .error .unpolled
  | .onAcptWritable => env.onAccept.play false (v.started env).io ≠ .error .unpolled
  | .onContWritable =>
    env.script.soError = 0 → env.onConnect.play false (v.started env).io ≠ .error .unpolled

instance (v : Conn) (h : IoHandler) (env : Env) : Decidable (Drains v h env) :=
  match h with
  | .onReadable => inferInstanceAs (Decidable True)
  | .onWritable => inferInstanceAs (Decidable (_ → _))
  | .onAcptWritable => inferInstanceAs (Decidable (_ ≠ _))
  | .onContWritable => inferInstanceAs (Decidable (_ → _))

/-- A connection with a consistent history. -/
def Orderly (v : Conn) : Prop := Consistent v.trace

theorem Orderly.more {v v' : Conn} (h : Orderly v) {evs : List Event}
    (htrace : v'.trace = v.trace ++ evs) (hevs : Consistent evs) : Orderly v' := by
  unfold Orderly
  rw [htrace]
  exact h.append hevs

/-- A handler that throws leaves the epoll set as it is to be. -/
abbrev Halts : Fault → Conn → Prop := Thrown Exn.OfStream Orderly

section Callbacks

variable {table : List (IoHandler × FdEvent)} {polled : Bool} {v : Conn} {cb : Cb} {env : Env}

theorem stable_orderly :
    Stable .noClose (fun v => Busy table polled v ∧ Orderly v)
      (fun f v => Halts f v ∨ polled = false ∧ ∃ e, f = .exn e ∧ e.NotPolled) where
  append _ _ _ h := ⟨h.1.congr rfl rfl rfl rfl, h.2.more rfl (by simp [Consistent])⟩
  consume _ _ _ h := ⟨h.1.congr rfl rfl rfl rfl, h.2.more rfl (by simp [Consistent])⟩
  write _ v h := by
    refine (wp_writeAll (.inl h.1.closed)).mpr ?_
    split
    case h_1 => exact ⟨h.1.flushed, h.2.more rfl (consistent_sent _)⟩
    case h_2 e he => exact .inl ⟨e, rfl, ofStream_thrown he, h.2.more rfl (consistent_sent _)⟩
  complete _ v h _ := ⟨h.1.begun _, h.2.more rfl (by simp [Consistent])⟩
  rearm _ v h _ := by
    obtain ⟨h, hord⟩ := h
    cases polled with
    | true =>
        obtain ⟨i, hi⟩ := h.isSome
        refine (wp_disarm h.closed hi).mpr ((wp_arm (v := v.disarmed) _ h.closed rfl).mpr ?_)
        refine ⟨h.disarmed.armed _ (.inr rfl), ?_⟩
        exact hord.more (List.append_assoc _ _ _) (by decide)
    | false =>
        refine (wp_fdRemove_notPolled _ h.closed h.interest).mpr ?_
        exact .inr ⟨rfl, _, rfl, v.fd, rfl⟩
  close h := h.elim

/-- A callback that runs while epoll knows the descriptor. -/
theorem orderly_polled (hcb : cb.Within .noClose) (hb : Busy table true v) (h : Orderly v) :
    (cb.exec Conn.iopt).wp (fun _ v' => Busy table true v' ∧ Orderly v') Halts v :=
  Prog.wp_mono (stable_orderly.exec hcb ⟨hb, h⟩) (fun _ _ h => h) fun _ _ h =>
    h.elim id fun h => nomatch h.1

/-- A callback that runs while epoll does not know the descriptor, and leaves nothing. -/
theorem orderly_unpolled (hcb : cb.Within .noClose) (hb : Busy table false v) (h : Orderly v)
    (hdry : cb.play false v.io ≠ .error .unpolled) :
    (cb.exec Conn.iopt).wp (fun _ v' => Busy table false v' ∧ Orderly v') Halts v := by
  refine Prog.wp_mono (Prog.wp_and (stable_orderly.exec hcb ⟨hb, h⟩)
    (exec_play false cb hb.toPolled)) (fun _ _ h => h.1) fun f v' h => ?_
  obtain ⟨h | ⟨-, e, rfl, fd, rfl⟩, t, hplay, hfails⟩ := h
  · exact h
  · rcases hfails with ⟨-, hwhat⟩ | ⟨rfl, -⟩
    · exact absurd hwhat (epollCtl_ne_write fd)
    · exact absurd hplay hdry

/-- After `on_closed` the connection is let go of. -/
theorem orderly_leaves (hcb : env.onClosed.Within .noClose) (flags : Bool)
    (hb : Busy fullTable true v) (h : Orderly v) :
    Leaves env flags (fun _ v' => ∃ st, At st v' ∧ Orderly v') Halts v := by
  refine Leaves.intro (fun v' => Busy fullTable true v' ∧ Orderly v') (fun _ h => h.1)
    (fun _ => ⟨.live, hb.live, h⟩) (fun _ => ?_) fun v' h => ?_
  · exact orderly_polled hcb (hb.begun _) (h.more rfl (by simp [Consistent]))
  · exact ⟨.gone, h.1.removed, h.2.more rfl (by decide)⟩

end Callbacks

/-! ## The handlers -/

variable {v : Conn} {env : Env}

theorem orderly_onReadable (hb : Busy fullTable true (v.started env)) (h : Orderly v)
    (hl : env.Lasting) :
    (Conn.handle .onReadable env).wp (fun _ v' => ∃ st, At st v' ∧ Orderly v') Halts
      (v.started env) := by
  refine (wp_onReadable hb.closed).mpr ?_
  split
  case h_1 e he => exact ⟨e, rfl, ofStream_readThrown he, h⟩
  case h_2 =>
    have hfilled : Orderly (v.started env).filled := Orderly.more h rfl (by simp [Consistent])
    have hbegun : Orderly ((v.started env).filled.begun .onReadComplete) :=
      hfilled.more rfl (by simp [Consistent])
    refine Prog.wp_mono (orderly_polled hl.onReadComplete (hb.filled.begun _) hbegun)
      (fun _ v' h' => ?_) fun _ _ he => he
    exact orderly_leaves hl.onClosed _ h'.1.cleared h'.2

theorem orderly_onWritable (hb : Busy fullTable true (v.started env)) (h : Orderly v)
    (hl : env.Lasting) (hdry : Drains v .onWritable env) :
    (Conn.handle .onWritable env).wp (fun _ v' => ∃ st, At st v' ∧ Orderly v') Halts
      (v.started env) := by
  have hflushed : Orderly (v.started env).flushed := Orderly.more h rfl (consistent_sent _)
  refine (wp_onWritable hb).mpr ?_
  split
  case h_1 e he => exact ⟨e, rfl, ofStream_thrown he, hflushed⟩
  case h_2 =>
    split
    case isFalse => exact orderly_leaves hl.onClosed _ hb.flushed hflushed
    case isTrue hout =>
      have hdisarmed : Orderly (v.started env).flushed.disarmed := hflushed.more rfl (by decide)
      refine Prog.wp_mono (orderly_unpolled hl.onWriteComplete hb.drained
        (hdisarmed.more rfl (by simp [Consistent])) (hdry hout)) (fun _ v' h' => ?_) fun _ _ he => he
      rw [h'.1.closed]
      refine h'.1.wp_rearm.mpr ?_
      exact orderly_leaves hl.onClosed _ (h'.1.armed _ (.inl rfl)) (h'.2.more rfl (by decide))

theorem orderly_initHandler (origin : Origin)
    (hb : Busy [(origin.initHandler, .fdWritable)] true (v.started env)) (h : Orderly v)
    (hl : env.Lasting) (hdry : Drains v origin.initHandler env) :
    (Conn.handle origin.initHandler env).wp (fun _ v' => ∃ st, At st v' ∧ Orderly v') Halts
      (v.started env) := by
  refine (wp_initHandler origin hb).mpr ?_
  split
  case isTrue => exact ⟨.gone, hb.removed, Orderly.more h rfl (by decide)⟩
  case isFalse href =>
    have hgreet : (env.greet origin).play false ((v.started env).greeted origin).io ≠
        .error .unpolled := by
      cases origin with
      | accepted f => exact hdry
      | connecting peer => exact hdry (not_not.mp href)
    have hgreeted : Orderly ((v.started env).greeted origin) :=
      Orderly.more h (trace_greeted _ origin) (by simp [Consistent])
    refine Prog.wp_mono (orderly_unpolled (hl.greet origin) (hb.greeted origin) hgreeted hgreet)
      (fun _ v' h' => ?_) fun _ _ he => he
    refine h'.1.wp_initialise.mpr ⟨.live, h'.1.initialised.live, h'.2.more rfl (by decide)⟩

theorem stageInv_orderly :
    StageInv (fun v h env => env.Lasting ∧ v.Drains h env) (fun _ => Orderly) Orderly
      Exn.OfStream where
  newborn v h := by
    obtain ⟨origin, -, htrace⟩ := h.origin
    unfold Orderly
    rw [htrace]
    simp [Consistent]
  ready _ _ _ h := h
  destroyed _ h := h
  weaken _ _ h := h
  onReadable _ _ hb _ h hok := orderly_onReadable hb h hok.1
  onWritable _ _ hb _ h hok := orderly_onWritable hb h hok.1 hok.2
  initHandler _ _ origin hb h hok := orderly_initHandler origin hb h hok.1 hok.2

end Conn

/-! ## The theorem -/

/-- **When the calls of `epoll_ctl` fit the epoll set.** -/
theorem ctl_consistent {ls : List ReactorLabel} {s : Reactor}
    (hok : AllSteps Reactor.step (Meets fun v h env => env.Lasting ∧ v.Drains h env)
      Reactor.init ls)
    (hrun : run Reactor.step Reactor.init ls = some s) :
    (∀ c, Consistent (s.world.trace c)) ∧ ∀ e, s.fault = some e → e.OfStream := by
  have hall := run_local Conn.stageInv_orderly.localInv hok hrun
  refine ⟨fun c => ?_, hall.thrown⟩
  by_cases hc : c ∈ s.world.born
  · exact hall.left c hc
  · rw [hall.sane.unborn c hc]
    exact nofun

/-- A connection is greeted with three bytes. -/
def welcome (writes : List WriteResult) : List ReactorLabel :=
  [.handOver 0 5 (.accepted .ipv4), .poll [(5, ⟨false, true, false, false⟩)],
    .dispatch 0 { Env.idle with
      script := ⟨[], writes, 0⟩
      onAccept := .append [7, 8, 9] (.asyncWrite .done .done) }]

theorem lasting_welcome (writes : List WriteResult) :
    AllSteps Reactor.step (Meets fun _ _ env => env.Lasting) Reactor.init (welcome writes) := by
  refine allSteps_of_forall (fun l hl => meets_of_env fun i env heq => ?_) _
  subst heq
  simp only [welcome, List.mem_cons, ReactorLabel.dispatch.injEq, reduceCtorEq, false_or,
    List.not_mem_nil, or_false] at hl
  obtain ⟨-, rfl⟩ := hl
  exact ⟨⟨trivial, trivial, trivial, trivial⟩, trivial, trivial, trivial, trivial⟩

/-- The kernel takes all of them. -/
theorem ctl_consistent_welcome :
    ∃ s, run Reactor.step Reactor.init (welcome [.count 3]) = some s ∧
      (∀ c, Consistent (s.world.trace c)) ∧ ∀ e, s.fault = some e → e.OfStream := by
  have hend : (run Reactor.step Reactor.init (welcome [.count 3])).isSome = true := by
    decide +kernel
  obtain ⟨s, hs⟩ := Option.isSome_iff_exists.mp hend
  have hdrains : AllSteps Reactor.step (Meets fun v h env => v.Drains h env) Reactor.init
      (welcome [.count 3]) := by
    decide +kernel
  have hok := (lasting_welcome [.count 3]).and (fun _ _ h h' => h.and h') hdrains
  exact ⟨s, hs, ctl_consistent hok hs⟩

/-- The kernel takes two: `async_write` deletes a descriptor that is not in the epoll set, and the
exception ends the loop. -/
theorem ctl_inconsistent :
    AllSteps Reactor.step (Meets fun _ _ env => env.Lasting) Reactor.init (welcome [.count 2]) ∧
      ∃ s, run Reactor.step Reactor.init (welcome [.count 2]) = some s ∧
        s.fault = some (.systemError "epoll_ctl del error for fd 5" .ENOENT) ∧
        .ctlDel false ∈ s.world.trace 0 := by
  refine ⟨lasting_welcome _, ?_⟩
  have hend : ((run Reactor.step Reactor.init (welcome [.count 2])).any fun s =>
      s.fault = some (.systemError "epoll_ctl del error for fd 5" .ENOENT) &&
        decide (.ctlDel false ∈ s.world.trace 0)) = true := by
    decide +kernel
  obtain ⟨s, hs, heq⟩ := (Option.any_eq_true ..).mp hend
  simp only [Bool.and_eq_true, decide_eq_true_eq] at heq
  exact ⟨s, hs, heq.1, heq.2⟩

end Cppev
