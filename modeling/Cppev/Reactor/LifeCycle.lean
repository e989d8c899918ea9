import Cppev.Reactor.Handler

/-!
# The life cycle of a connection

The order of the callbacks, as an automaton over the history of a connection (`lifeStep`), with the
table of the loop at each callback.

* `lifecycle`: in every run in which no callback closes its connection and `on_closed` does not
  write, the history of every connection is a word of the automaton.
-/

namespace Cppev

/-! ## The automaton

The history of a connection has more in it than the callbacks: what is sent and appended does not
change the stage of its life. -/

/-- Where a connection is in its life. -/
inductive Life where
  | unborn
  | fresh (origin : Origin)
  /-- The greeting has begun; the connection is initialised when its handlers are registered. -/
  | greeted
  | active
  | over
  deriving DecidableEq, Repr

/-- The callbacks that an initialised connection may see again and again. -/
def Callback.complete : Callback → Bool
  | .onReadComplete | .onWriteComplete => true
  | _ => false

/-- One event in the life of a connection. -/
def lifeStep : Life → Event → Option Life
  | .unborn, .handedOver origin => some (.fresh origin)
  | .unborn, _ => none
  | .fresh origin, .called cb _ => if cb = origin.greeting then some .greeted else none
  | .greeted, .called cb _ => if cb = .onWriteComplete then some .greeted else none
  | .greeted, .fdRegister => some .active
  | .active, .called cb table =>
    if table ≠ fullTable then none
    else if cb.complete then some .active
    else if cb = .onClosed then some .over
    else none
  | .over, .called _ _ => none
  | st, _ => some st

namespace Conn

/-- The life of the connection, if its history is a word of the automaton. -/
def life (v : Conn) : Option Life := run lifeStep .unborn v.trace

theorem life_append {v v' : Conn} {evs : List Event} (h : v'.trace = v.trace ++ evs) {st : Life}
    (hv : v.life = some st) : v'.life = run lifeStep st evs := by
  have hv : run lifeStep .unborn v.trace = some st := hv
  show run lifeStep .unborn v'.trace = _
  rw [h, run_append, hv]
  rfl

/-- Bytes that are sent are not an event in the life of a connection. -/
theorem run_lifeStep_sent {st : Life} (hst : st ≠ .unborn) (xs : List (List Byte)) :
    run lifeStep st (xs.map .sent) = some st := by
  induction xs with
  | nil => rfl
  | cons x xs ih =>
      have hstep : lifeStep st (.sent x) = some st := by
        cases st <;> first | rfl | exact absurd rfl hst
      exact (run_cons_of_some hstep).trans ih

/-! ## Between callbacks

`Living` says where in its life a connection is while a handler runs, `Fallen` what is left when one
has thrown. -/

/-- Within a handler, at the point `st` of its life. -/
structure Living (st : Life) (table : List (IoHandler × FdEvent)) (polled : Bool) (v : Conn) :
    Prop where
  busy : Busy table polled v
  life : v.life = some st

/-- A connection whose handler has thrown. -/
def Fallen (v : Conn) : Prop :=
  ∃ st, v.life = some st ∧ st ≠ .unborn ∧ (st = .active → v.handlers = fullTable)

section Living

variable {st st' : Life} {table table' : List (IoHandler × FdEvent)} {polled polled' : Bool}
  {v v' : Conn}

theorem Living.more (h : Living st table polled v) (hbusy : Busy table' polled' v')
    {evs : List Event} (htrace : v'.trace = v.trace ++ evs) (hrun : run lifeStep st evs = some st') :
    Living st' table' polled' v' :=
  ⟨hbusy, (life_append htrace h.life).trans hrun⟩

/-- A callback begins. -/
theorem Living.begun (h : Living st table polled v) (cb : Callback)
    (hrun : run lifeStep st [.called cb table] = some st') :
    Living st' table polled (v.begun cb) :=
  h.more (h.busy.begun cb) (h.busy.trace_begun cb) hrun

/-- Where the callbacks of the user may run: in the greeting, or once the connection is
initialised. -/
def Hosts (st : Life) (table : List (IoHandler × FdEvent)) (polled : Bool) : Prop :=
  st = .greeted ∧ polled = false ∨ st = .active ∧ table = fullTable

/-- An active connection has both handlers. -/
theorem Hosts.table_eq (h : Hosts st table polled) (hst : st = .active) : table = fullTable := by
  rcases h with ⟨rfl, -⟩ | ⟨-, ht⟩
  · exact nomatch hst
  · exact ht

/-- A callback is called for a connection that is there. -/
theorem Hosts.ne_unborn (h : Hosts st table polled) : st ≠ .unborn := by
  rcases h with ⟨rfl, -⟩ | ⟨rfl, -⟩ <;> exact nofun

/-- An exception leaves the history where it was. -/
theorem Living.fallen (h : Living st table polled v) (hv : v'.handlers = v.handlers)
    (hhost : Hosts st table polled) {evs : List Event} (htrace : v'.trace = v.trace ++ evs)
    (hrun : run lifeStep st evs = some st) : Fallen v' :=
  ⟨st, (life_append htrace h.life).trans hrun, hhost.ne_unborn, fun ha =>
    (hv.trans h.busy.handlers).trans (hhost.table_eq ha)⟩

/-! ### What a callback keeps -/

/-- A callback that does not close the connection does not take it any further in its life. -/
theorem stable_living (h : Hosts st table polled) :
    Stable .noClose (Living st table polled) (Thrown (fun _ => True) Fallen) where
  append _ _ _ hv := hv.more (hv.busy.congr rfl rfl rfl rfl) rfl (by
    rcases h with ⟨rfl, -⟩ | ⟨rfl, -⟩ <;> rfl)
  consume _ _ _ hv := hv.more (hv.busy.congr rfl rfl rfl rfl) rfl (by
    rcases h with ⟨rfl, -⟩ | ⟨rfl, -⟩ <;> rfl)
  write _ v hv := by
    have hrun := run_lifeStep_sent h.ne_unborn (flush 1024 1024 v.out v.script.writes).sent
    refine (wp_writeAll (.inl hv.busy.closed)).mpr ?_
    split
    case h_1 => exact hv.more hv.busy.flushed rfl hrun
    case h_2 e he => exact ⟨e, rfl, trivial, hv.fallen rfl h rfl hrun⟩
  complete _ v hv _ := by
    refine hv.begun _ ?_
    rcases h with ⟨rfl, -⟩ | ⟨rfl, rfl⟩ <;> rfl
  rearm _ v hv _ := by
    have hevs : run lifeStep st [.fdRemove, .ctlDel false] = some st := by
      rcases h with ⟨rfl, -⟩ | ⟨rfl, -⟩ <;> rfl
    cases polled with
    | false =>
        refine (wp_fdRemove_notPolled _ hv.busy.closed hv.busy.interest).mpr ?_
        exact ⟨_, rfl, trivial, hv.fallen rfl h rfl hevs⟩
    | true =>
        rcases h with ⟨-, hpolled⟩ | ⟨rfl, rfl⟩
        · exact nomatch hpolled
        · obtain ⟨i, hi⟩ := hv.busy.isSome
          refine (wp_disarm hv.busy.closed hi).mpr ?_
          refine (wp_arm (v := v.disarmed) _ hv.busy.closed rfl).mpr ?_
          refine hv.more (hv.busy.disarmed.armed _ (.inr rfl)) (List.append_assoc _ _ _) ?_
          rfl
  close h := h.elim

/-- `on_closed`, which does not write. -/
theorem stable_over :
    Stable .noWrite (Living .over fullTable true) (Thrown (fun _ => True) Fallen) where
  append _ _ _ hv := hv.more (hv.busy.congr rfl rfl rfl rfl) rfl rfl
  consume _ _ _ hv := hv.more (hv.busy.congr rfl rfl rfl rfl) rfl rfl
  write h := h.elim
  complete h := h.elim
  rearm h := h.elim
  close h := h.elim

end Living

/-! ## The handlers

The stages of a connection in the loop, and those of its life: each handler takes both a step
further, or neither. -/

/-- The life of a connection in each stage, when control is in the loop. -/
def LifeAt : Stage → Conn → Prop
  | .pending, v => ∃ origin : Origin,
      v.life = some (.fresh origin) ∧ v.handlers = [(origin.initHandler, .fdWritable)]
  | .live, v => v.life = some .active ∧ v.handlers = fullTable
  | .gone, v => v.life = some .over ∨ ∃ peer, v.life = some (.fresh (.connecting peer))

/-- An active connection is alive in the loop. -/
theorem Living.live {v : Conn} (h : Living .active fullTable true v) :
    ∃ st, At st v ∧ LifeAt st v := ⟨.live, h.busy.live, h.life, h.busy.handlers⟩

/-- `on_closed` is the last callback. -/
theorem Living.leaves {env : Env} (hcb : env.onClosed.Within .noWrite) (flags : Bool) {v : Conn}
    (h : Living .active fullTable true v) :
    Leaves env flags (fun _ v' => ∃ st, At st v' ∧ LifeAt st v') (Thrown (fun _ => True) Fallen)
      v := by
  refine Leaves.intro (Living .over fullTable true) (fun _ h => h.busy) (fun _ => h.live)
    (fun _ => ?_) fun v' hv' => ?_
  · exact stable_over.exec hcb (h.begun .onClosed rfl)
  · exact ⟨.gone, hv'.busy.removed, .inl ((life_append rfl hv'.life).trans rfl)⟩

variable {v : Conn} {env : Env}

/-! ### The three handlers -/

/-- `on_readable` calls `on_read_complete`, and then perhaps `on_closed`. -/
theorem lifeAt_onReadable (hb : Busy fullTable true (v.started env)) (h : LifeAt .live v)
    (hl : env.Lasting) (hcl : env.onClosed.Within .noWrite) :
    (Conn.handle .onReadable env).wp (fun _ v' => ∃ st, At st v' ∧ LifeAt st v')
      (Thrown (fun _ => True) Fallen) (v.started env) := by
  have hliv : Living .active fullTable true (v.started env) := ⟨hb, h.1⟩
  refine (wp_onReadable hb.closed).mpr ?_
  split
  case h_1 e he => exact ⟨e, rfl, trivial, .active, h.1, by decide, fun _ => h.2⟩
  case h_2 =>
    have hfilled : Living .active fullTable true (v.started env).filled :=
      hliv.more hb.filled rfl rfl
    refine Prog.wp_mono ((stable_living (.inr ⟨rfl, rfl⟩)).exec hl.onReadComplete
      (hfilled.begun .onReadComplete rfl)) (fun _ v' hv' => ?_) fun _ _ he => he
    have hclear : Living .active fullTable true v'.cleared := ⟨hv'.busy.cleared, hv'.life⟩
    exact hclear.leaves hcl _

/-- `on_writable` calls `on_write_complete` if all has been written, and then perhaps
`on_closed`. -/
theorem lifeAt_onWritable (hb : Busy fullTable true (v.started env)) (h : LifeAt .live v)
    (hl : env.Lasting) (hcl : env.onClosed.Within .noWrite) :
    (Conn.handle .onWritable env).wp (fun _ v' => ∃ st, At st v' ∧ LifeAt st v')
      (Thrown (fun _ => True) Fallen) (v.started env) := by
  have hliv : Living .active fullTable true (v.started env) := ⟨hb, h.1⟩
  have hflushed : Living .active fullTable true (v.started env).flushed :=
    hliv.more hb.flushed rfl (run_lifeStep_sent (by decide) _)
  refine (wp_onWritable hb).mpr ?_
  split
  case h_1 e he => exact ⟨e, rfl, trivial, .active, hflushed.life, by decide, fun _ => h.2⟩
  case h_2 =>
    split
    case isFalse => exact hflushed.leaves hcl _
    case isTrue =>
      have hdisarmed : Living .active fullTable false (v.started env).flushed.disarmed :=
        hflushed.more hflushed.busy.disarmed rfl rfl
      refine Prog.wp_mono ((stable_living (.inr ⟨rfl, rfl⟩)).exec hl.onWriteComplete
        (hdisarmed.begun .onWriteComplete rfl)) (fun _ v' hv' => ?_) fun _ _ he => he
      rw [hv'.busy.closed]
      refine hv'.busy.wp_rearm.mpr ?_
      have harmed : Living .active fullTable true (v'.armed .fdReadable) :=
        hv'.more (hv'.busy.armed _ (.inl rfl)) rfl rfl
      exact harmed.leaves hcl _

/-- The first event calls `on_accept` or `on_connect`. -/
theorem lifeAt_initHandler (origin : Origin)
    (hb : Busy [(origin.initHandler, .fdWritable)] true (v.started env)) (h : LifeAt .pending v)
    (hl : env.Lasting) :
    (Conn.handle origin.initHandler env).wp (fun _ v' => ∃ st, At st v' ∧ LifeAt st v')
      (Thrown (fun _ => True) Fallen) (v.started env) := by
  obtain ⟨origin', hlife, htable⟩ := h
  -- the table tells which of the two handlers it is
  have hsame : origin.initHandler = origin'.initHandler := by
    have : [(origin.initHandler, FdEvent.fdWritable)] = [(origin'.initHandler, .fdWritable)] :=
      hb.handlers.symm.trans htable
    simpa using this
  have hliv : Living (.fresh origin') _ true (v.started env) := ⟨hb, hlife⟩
  refine (wp_initHandler origin hb).mpr ?_
  split
  case isTrue href =>
    refine ⟨.gone, hb.removed, .inr ?_⟩
    cases origin with
    | accepted f => exact href.elim
    | connecting peer =>
        cases origin' with
        | accepted f => exact nomatch hsame
        | connecting peer' => exact ⟨peer', (life_append rfl hliv.life).trans rfl⟩
  case isFalse =>
    have hgreet : origin.greeting = origin'.greeting := by
      cases origin <;> cases origin' <;> first | rfl | exact nomatch hsame
    have hbegun : Living .greeted [(.onWritable, .fdWritable)] false
        ((v.started env).greeted origin) :=
      hliv.more (hb.greeted origin) (trace_greeted _ origin) (by simp [run, lifeStep, hgreet])
    refine Prog.wp_mono ((stable_living (.inl ⟨rfl, rfl⟩)).exec (hl.greet origin) hbegun)
      (fun _ v' hv' => ?_) fun _ _ he => he
    refine hv'.busy.wp_initialise.mpr ?_
    have hinit : Living .active fullTable true v'.initialised :=
      hv'.more hv'.busy.initialised rfl rfl
    exact hinit.live

/-- Control in the loop finds every connection where its stage says. -/
theorem stageInv_life :
    StageInv (fun _ _ env => env.Lasting ∧ env.onClosed.Within .noWrite) LifeAt Fallen
      fun _ => True where
  newborn v h := by
    obtain ⟨origin, htable, htrace⟩ := h.origin
    refine ⟨origin, ?_, htable⟩
    rw [Conn.life, htrace]
    rfl
  ready st v ev h := by cases st <;> exact h
  destroyed _ h := h
  weaken st v h := by
    cases st with
    | pending =>
        obtain ⟨origin, hlife, -⟩ := h
        exact ⟨_, hlife, nofun, nofun⟩
    | live => exact ⟨_, h.1, nofun, fun _ => h.2⟩
    | gone =>
        rcases h with hlife | ⟨peer, hlife⟩
        · exact ⟨_, hlife, nofun, nofun⟩
        · exact ⟨_, hlife, nofun, nofun⟩
  onReadable _ _ hb _ h hok := lifeAt_onReadable hb h hok.1 hok.2
  onWritable _ _ hb _ h hok := lifeAt_onWritable hb h hok.1 hok.2
  initHandler _ _ origin hb h hok := lifeAt_initHandler origin hb h hok.1

end Conn

/-! ## The callbacks in order

A word of the automaton, read off: the greeting first, then reads and writes in any order, then
`on_closed`, and nothing after it. -/

/-- The callbacks of a history. -/
def calls (tr : List Event) : List Callback :=
  tr.filterMap fun
    | .called cb _ => some cb
    | _ => none

@[simp] theorem calls_nil : calls [] = [] := rfl

/-- One event of a history that is a word of the automaton. -/
theorem run_lifeStep_cons {st st' : Life} {e : Event} {tr : List Event}
    (h : run lifeStep st (e :: tr) = some st') :
    ∃ mid, lifeStep st e = some mid ∧ run lifeStep mid tr = some st' := by
  cases hstep : lifeStep st e with
  | none => simp [run, hstep] at h
  | some mid => exact ⟨mid, rfl, by rwa [run_cons_of_some hstep] at h⟩

/-- Nothing is called any more. -/
theorem calls_over {tr : List Event} {st : Life} (h : run lifeStep .over tr = some st) :
    calls tr = [] ∧ st = .over := by
  induction tr with
  | nil => exact ⟨rfl, by simpa using h.symm⟩
  | cons e tr ih =>
      obtain ⟨mid, hstep, hrest⟩ := run_lifeStep_cons h
      cases e with
      | called cb t => exact nomatch hstep
      | _ =>
          obtain rfl : Life.over = mid := by simpa [lifeStep] using hstep
          exact ih hrest

/-- What is called of an initialised connection, and where its life is after it. -/
structure Calls (cbs : List Callback) (st : Life) : Prop where
  shape : ∃ mid last, cbs = mid ++ last ∧ (∀ cb ∈ mid, cb.complete = true) ∧
    (last = [] ∧ st ≠ .over ∨ last = [.onClosed] ∧ st = .over)

theorem Calls.cons {cb : Callback} {cbs : List Callback} {st : Life} (hcb : cb.complete = true)
    (h : Calls cbs st) : Calls (cb :: cbs) st := by
  obtain ⟨mid, last, rfl, hmid, hlast⟩ := h.shape
  exact ⟨cb :: mid, last, rfl, List.forall_mem_cons.mpr ⟨hcb, hmid⟩, hlast⟩

/-! ### From each state of the automaton -/

theorem calls_active {tr : List Event} {st : Life} (h : run lifeStep .active tr = some st) :
    Calls (calls tr) st ∧ (st = .active ∨ st = .over) := by
  induction tr with
  | nil =>
      obtain rfl : Life.active = st := by simpa using h
      exact ⟨⟨[], [], rfl, nofun, .inl ⟨rfl, nofun⟩⟩, .inl rfl⟩
  | cons e tr ih =>
      obtain ⟨mid, hstep, hrest⟩ := run_lifeStep_cons h
      cases e with
      | called cb t =>
          simp only [lifeStep] at hstep
          split at hstep
          case isTrue => exact nomatch hstep
          case isFalse =>
            split at hstep
            case isTrue hcomplete =>
              obtain rfl : Life.active = mid := by simpa using hstep
              exact (ih hrest).imp_left (.cons hcomplete)
            case isFalse =>
              split at hstep
              case isTrue hclosed =>
                obtain rfl : Life.over = mid := by simpa using hstep
                obtain ⟨hnil, rfl⟩ := calls_over hrest
                refine ⟨⟨[], [.onClosed], ?_, nofun, .inr ⟨rfl, rfl⟩⟩, .inr rfl⟩
                show cb :: calls tr = _
                rw [hnil, hclosed]
                rfl
              case isFalse => exact nomatch hstep
      | _ =>
          obtain rfl : Life.active = mid := by simpa [lifeStep] using hstep
          exact ih hrest

theorem calls_greeted {tr : List Event} {st : Life} (h : run lifeStep .greeted tr = some st) :
    Calls (calls tr) st ∧ (st = .greeted ∨ st = .active ∨ st = .over) := by
  induction tr with
  | nil =>
      obtain rfl : Life.greeted = st := by simpa using h
      exact ⟨⟨[], [], rfl, nofun, .inl ⟨rfl, nofun⟩⟩, .inl rfl⟩
  | cons e tr ih =>
      obtain ⟨mid, hstep, hrest⟩ := run_lifeStep_cons h
      cases e with
      | called cb t =>
          simp only [lifeStep] at hstep
          split at hstep
          case isTrue hcb =>
            obtain rfl : Life.greeted = mid := by simpa using hstep
            exact (ih hrest).imp_left (.cons (by rw [hcb]; rfl))
          case isFalse => exact nomatch hstep
      | fdRegister =>
          obtain rfl : Life.active = mid := by simpa [lifeStep] using hstep
          exact (calls_active hrest).imp_right .inr
      | _ =>
          obtain rfl : Life.greeted = mid := by simpa [lifeStep] using hstep
          exact ih hrest

theorem calls_fresh {tr : List Event} {origin : Origin} {st : Life}
    (h : run lifeStep (.fresh origin) tr = some st) :
    calls tr = [] ∧ st = .fresh origin ∨
      ∃ cbs, calls tr = origin.greeting :: cbs ∧ Calls cbs st ∧
        (st = .greeted ∨ st = .active ∨ st = .over) := by
  induction tr with
  | nil => exact .inl ⟨rfl, by simpa using h.symm⟩
  | cons e tr ih =>
      obtain ⟨mid, hstep, hrest⟩ := run_lifeStep_cons h
      cases e with
      | called cb t =>
          simp only [lifeStep] at hstep
          split at hstep
          case isTrue hcb =>
            obtain rfl : Life.greeted = mid := by simpa using hstep
            refine .inr ⟨calls tr, ?_, calls_greeted hrest⟩
            show cb :: calls tr = _
            rw [hcb]
          case isFalse => exact nomatch hstep
      | _ =>
          obtain rfl : Life.fresh origin = mid := by simpa [lifeStep] using hstep
          exact ih hrest

/-- The callbacks a connection from `origin` has seen: a greeting, any number of completions, and
at most one `on_closed`. -/
structure Sequence (origin : Origin) (greeting mid last : List Callback) : Prop where
  greeting : greeting = [] ∧ mid = [] ∧ last = [] ∨ greeting = [origin.greeting]
  mid : ∀ cb ∈ mid, cb = .onReadComplete ∨ cb = .onWriteComplete
  last : last = [] ∨ last = [.onClosed]

theorem calls_unborn {tr : List Event} {st : Life} (h : run lifeStep .unborn tr = some st)
    (hst : st ≠ .unborn) :
    ∃ origin greeting mid last, tr.head? = some (.handedOver origin) ∧
      calls tr = greeting ++ mid ++ last ∧ Sequence origin greeting mid last ∧
      (greeting = [] → st = .fresh origin) ∧
      (greeting ≠ [] → (last = [] ↔ st ≠ .over) ∧ (st = .greeted ∨ st = .active ∨ st = .over)) := by
  cases tr with
  | nil => exact absurd (by simpa using h.symm) hst
  | cons e tr =>
      obtain ⟨mid, hstep, hrest⟩ := run_lifeStep_cons h
      cases e with
      | handedOver origin =>
          obtain rfl : Life.fresh origin = mid := by simpa [lifeStep] using hstep
          rcases calls_fresh hrest with ⟨hnil, rfl⟩ | ⟨cbs, hcbs, hcalls, hat⟩
          · exact ⟨origin, [], [], [], rfl, hnil, ⟨.inl ⟨rfl, rfl, rfl⟩, nofun, .inl rfl⟩,
              fun _ => rfl, fun h => absurd rfl h⟩
          · obtain ⟨mid, last, rfl, hmid, hlast⟩ := hcalls.shape
            refine ⟨origin, [origin.greeting], mid, last, rfl, hcbs, ⟨.inr rfl, fun cb hcb => ?_,
              hlast.imp And.left And.left⟩, nofun, fun _ => ⟨?_, hat⟩⟩
            · have := hmid cb hcb
              cases cb <;> first | exact .inl rfl | exact .inr rfl | exact nomatch this
            · rcases hlast with ⟨rfl, hne⟩ | ⟨rfl, rfl⟩ <;> simp_all
      | _ => exact nomatch hstep

/-! ## The theorem -/

/-- **The life cycle of a connection.** Its history is a word of the automaton, which fixes the order
of its callbacks and the table at each of them; and whenever control is in the loop, the table holds
exactly the two handlers of the connection from its greeting until it is let go of. -/
theorem lifecycle {ls : List ReactorLabel} {s : Reactor}
    (hok : AllSteps Reactor.step
      (Meets fun _ _ env => env.Lasting ∧ env.onClosed.Within .noWrite) Reactor.init ls)
    (hrun : run Reactor.step Reactor.init ls = some s) {c : ConnId} (hc : c ∈ s.world.born) :
    ∃ origin greeting mid last, (s.world.trace c).head? = some (.handedOver origin) ∧
      calls (s.world.trace c) = greeting ++ mid ++ last ∧ Sequence origin greeting mid last ∧
      (∃ st, run lifeStep .unborn (s.world.trace c) = some st) ∧
      (s.fault = none →
        (greeting = [] → s.world.table c = [(origin.initHandler, .fdWritable)] ∨
          (∃ peer, origin = .connecting peer) ∧ s.world.table c = []) ∧
        (greeting ≠ [] → s.world.table c = if last = [] then fullTable else [])) := by
  have hall := run_local Conn.stageInv_life.localInv hok hrun
  obtain ⟨st, hlife, hst, -⟩ := hall.left c hc
  obtain ⟨origin, greeting, mid, last, hhead, hcalls, hseq, hfresh, hactive⟩ :=
    calls_unborn hlife hst
  refine ⟨origin, greeting, mid, last, hhead, hcalls, hseq, ⟨st, hlife⟩, fun hf => ?_⟩
  obtain ⟨stage, hat, hH⟩ := hall.kept hf c hc
  rw [table_eq hall.sane hc]
  cases stage with
  | pending =>
      -- handed over and not greeted yet
      obtain ⟨origin', hlife', htable⟩ := hH
      obtain rfl : st = .fresh origin' := Option.some.inj (hlife.symm.trans hlife')
      refine ⟨fun hg => .inl ?_, fun hg => ?_⟩
      · obtain rfl : origin' = origin := by simpa using hfresh hg
        exact htable
      · exact absurd (hactive hg).2 (by simp)
  | live =>
      obtain ⟨hlife', htable⟩ := hH
      obtain rfl : st = .active := Option.some.inj (hlife.symm.trans hlife')
      refine ⟨fun hg => (nomatch hfresh hg), fun hg => ?_⟩
      rw [if_pos ((hactive hg).1.mpr (by decide))]
      exact htable
  | gone =>
      rw [hat.2.1]
      rcases hH with hlife' | ⟨peer, hlife'⟩
      · obtain rfl : st = .over := Option.some.inj (hlife.symm.trans hlife')
        refine ⟨fun hg => (nomatch hfresh hg), fun hg => ?_⟩
        rw [if_neg fun hl => (hactive hg).1.mp hl rfl]
      · obtain rfl : st = .fresh (.connecting peer) := Option.some.inj (hlife.symm.trans hlife')
        refine ⟨fun hg => .inr ⟨⟨peer, ?_⟩, rfl⟩, fun hg => ?_⟩
        · have := hfresh hg
          injection this with h
          exact h.symm
        · exact absurd (hactive hg).2 (by simp)

/-- A connection that is accepted, receives two bytes and the end of the stream. -/
def shortLife : List ReactorLabel :=
  [.handOver 0 5 (.accepted .ipv4), .poll [(5, ⟨false, true, false, false⟩)], .dispatch 0 .idle,
    .poll [(5, ⟨true, false, false, false⟩)],
    .dispatch 0 { Env.idle with script := ⟨[.bytes [1, 2], .bytes []], [], 0⟩ }]

/-- A connection that is accepted, reads and is closed. -/
theorem lifecycle_shortLife :
    ∃ s, run Reactor.step Reactor.init shortLife = some s ∧
      ∃ origin greeting mid last, calls (s.world.trace 0) = greeting ++ mid ++ last ∧
        Sequence origin greeting mid last := by
  have hborn : ((run Reactor.step Reactor.init shortLife).map fun s => s.world.born) = some [0] := by
    decide +kernel
  obtain ⟨s, hs, hb⟩ := Option.map_eq_some_iff.mp hborn
  have hok : AllSteps Reactor.step
      (Meets fun _ _ env => env.Lasting ∧ env.onClosed.Within .noWrite) Reactor.init shortLife := by
    refine allSteps_of_forall (fun l hl => meets_of_env fun i env heq => ?_) _
    subst heq
    simp only [shortLife, List.mem_cons, ReactorLabel.dispatch.injEq, reduceCtorEq, false_or,
      List.not_mem_nil, or_false] at hl
    rcases hl with ⟨-, rfl⟩ | ⟨-, rfl⟩ <;>
      exact ⟨⟨trivial, trivial, trivial, trivial, trivial⟩, trivial⟩
  obtain ⟨origin, greeting, mid, last, -, hcalls, hseq, -⟩ :=
    lifecycle hok hs (c := 0) (by rw [hb]; decide)
  exact ⟨s, hs, origin, greeting, mid, last, hcalls, hseq⟩

end Cppev
