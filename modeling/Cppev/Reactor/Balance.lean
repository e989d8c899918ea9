import Cppev.Reactor.Accept
import Cppev.Reactor.Loads

/-!
# Load balance

The loops of the workers, and the acceptor that chooses one of them for each connection. A label is
a round of the `for` loop of `on_acpt_readable` (`minloads_get_evlp` and `fd_register`), or a step of
one of the workers; either happens at once.

A worker is chosen by the size of its table, which has one or two entries for each connection, so a
worker that looks no busier than another has at most twice as many connections.

* `run_balanced`: so it is in every state, as long as the sizes of the tables fit into an `int`.
* `narrow_unbalanced`: `ev_loads` is an `int`, and a worker with `2^31` entries has less than none.
-/

namespace Cppev

/-! ## The server

The loops of the workers, as a list. What the acceptor does in one round is one step; the loops take
their steps on their own. -/

/-- The loops of the workers of a `tcp_server`, `evls` in the source. -/
abbrev TcpServer := List Reactor

/-- A new connection for the loop that is chosen, or a step of a loop. -/
inductive TcpServerLabel where
  /-- Connection `c` on descriptor `fd` comes to a worker. -/
  | accept (c : ConnId) (fd : Int) (f : Family)
  /-- A step of the `i`-th worker. -/
  | work (i : Nat) (l : ReactorLabel)

namespace Reactor

/-- What `minloads_get_evlp` sees of a loop. -/
def ioWorker (r : Reactor) : IoWorker := ⟨r.world.evl, r.world.kern.epoll⟩

/-- How many connections have been assigned to the worker. -/
def assigned (r : Reactor) : Nat := r.world.born.length

/-- The `i`-th loop, without connections. -/
def start (i : Nat) : Reactor := { init with world := init.world.withEvl ⟨i, [], []⟩ }

end Reactor

namespace TcpServer

/-- No loop has a connection. -/
def init (n : Nat) : TcpServer := (List.range n).map Reactor.start

/-- Whether `c` can be a new connection on `fd`. -/
def Fresh (p : TcpServer) (c : ConnId) (fd : Int) : Prop :=
  fd ≤ INT_MAX ∧ ∀ r ∈ p, r.world.Fresh c fd

instance (p : TcpServer) (c : ConnId) (fd : Int) : Decidable (p.Fresh c fd) :=
  inferInstanceAs (Decidable (_ ∧ _))

/-- `minloads_get_evlp` over the sizes of the tables. -/
def minloadsGetEvlp (p : TcpServer) : Option Nat :=
  Workers.minloadsLoop 0 INT_MAX none (p.map Reactor.ioWorker)

/-- A step of the `i`-th loop. An exception ends the process. -/
def advance (p : TcpServer) (i : Nat) (l : ReactorLabel) : Option TcpServer :=
  match p[i]? with
  | none => none
  | some r =>
    match r.step l with
    | none => none
    | some r' => if r'.fault = none then some (p.set i r') else none

/-- Nothing follows a null pointer. It is the acceptor alone that hands over connections. -/
def step (p : TcpServer) : TcpServerLabel → Option TcpServer
  | .accept c fd f =>
    if p.Fresh c fd then
      match p.minloadsGetEvlp with
      | some i => p.advance i (.handOver c fd (.accepted f))
      | none => none
    else none
  | .work _ (.handOver _ _ _) => none
  | .work i l => p.advance i l

/-- No disconnects and no closing callbacks. -/
def Undisturbed : TcpServerLabel → Prop
  | .accept _ _ _ => True
  | .work _ l => Reactor.Undisturbed l

/-- When a connection is assigned, the size of each table fits into an `int`. -/
def InRange (p : TcpServer) : TcpServerLabel → Prop
  | .accept _ _ _ => ∀ r ∈ p, (r.world.evl.fds.length : Int) ≤ INT_MAX
  | .work _ _ => True

instance (p : TcpServer) (l : TcpServerLabel) : Decidable (p.InRange l) :=
  match l with
  | .accept _ _ _ =>
    inferInstanceAs (Decidable (∀ r ∈ p, (r.world.evl.fds.length : Int) ≤ INT_MAX))
  | .work _ _ => isTrue trivial

/-- The numbers of connections of any two loops. -/
def Balanced (p : TcpServer) : Prop :=
  ∀ (i j : Nat) (a b : Reactor), p[i]? = some a → p[j]? = some b → b.assigned ≤ 2 * a.assigned + 1

/-! ## One step -/

variable {p p' : TcpServer} {l : TcpServerLabel}

/-- A step of one loop leaves the others alone. -/
theorem advance_eq_some {i : Nat} {l : ReactorLabel} (h : p.advance i l = some p') :
    ∃ r r', p[i]? = some r ∧ r.step l = some r' ∧ r'.fault = none ∧ p' = p.set i r' := by
  unfold advance at h
  split at h
  case h_1 => exact nomatch h
  case h_2 r hr =>
    split at h
    case h_1 => exact nomatch h
    case h_2 r' hr' =>
      split at h
      case isFalse => exact nomatch h
      case isTrue hfault => exact ⟨r, r', hr, hr', hfault, (Option.some.inj h).symm⟩

theorem advance_some {i : Nat} {l : ReactorLabel} {r r' : Reactor} (hr : p[i]? = some r)
    (hstep : r.step l = some r') (hfault : r'.fault = none) :
    p.advance i l = some (p.set i r') := by
  simp [advance, hr, hstep, hfault]

/-- A step is a step of one loop. With a new connection, it is that of a loop with the least load. -/
theorem step_eq_some (h : p.step l = some p') :
    ∃ i r r' l', p[i]? = some r ∧ r.step l' = some r' ∧ r'.fault = none ∧ p' = p.set i r' ∧
      match l with
      | .accept c fd f => l' = .handOver c fd (.accepted f) ∧ p.Fresh c fd ∧
          ∀ v ∈ p, r.ioWorker.evLoads ≤ v.ioWorker.evLoads
      | .work j l'' => i = j ∧ l' = l'' ∧ ∀ c fd origin, l' ≠ .handOver c fd origin := by
  cases l with
  | accept c fd f =>
      simp only [step] at h
      split at h
      case isFalse => exact nomatch h
      case isTrue hfresh =>
        split at h
        case h_2 => exact nomatch h
        case h_1 i hi =>
          obtain ⟨r, r', hr, hstep, hfault, rfl⟩ := advance_eq_some h
          refine ⟨i, r, r', _, hr, hstep, hfault, rfl, rfl, hfresh, ?_⟩
          rcases Workers.minloadsLoop_min (p.map Reactor.ioWorker) 0 INT_MAX none with
            ⟨hres, -⟩ | ⟨j, w, hw, -, hres, hall⟩
          · exact nomatch hi.symm.trans hres
          -- the one that the loop has found is the one that is advanced
          · obtain rfl : j = i := by
              have := hi.symm.trans hres
              simp only [Nat.zero_add, Option.some.injEq] at this
              exact this.symm
            obtain rfl : r.ioWorker = w := by simpa [hr] using hw
            exact fun v hv => hall _ (List.mem_map_of_mem hv)
  | work j l =>
      have hne : ∀ c fd origin, l ≠ .handOver c fd origin := by
        rintro c fd origin rfl
        exact nomatch h
      have hadv : p.advance j l = some p' := by
        cases l with
        | handOver c fd origin => exact absurd rfl (hne c fd origin)
        | _ => exact h
      obtain ⟨r, r', hr, hstep, hfault, hp'⟩ := advance_eq_some hadv
      exact ⟨j, r, r', l, hr, hstep, hfault, hp', rfl, rfl, hne⟩

/-! ## The balance

A loop with `k` connections has between `k` and `2 * k` entries (`Fair`), since each connection has
one entry until its first event and two afterwards. The loop that is chosen has the fewest entries,
which bounds its connections by twice those of any other. -/

theorem sound_start (i : Nat) : (Reactor.start i).Sound := by
  refine ⟨rfl, List.nodup_nil, .intro Conn.stageInv_quiet.localInv ?_ ?_⟩
  · refine ⟨?_, ?_, ?_, ?_, ?_, ?_, ?_⟩ <;> simp [Reactor.init]
  · intro c hc
    exact nomatch hc

/-- What holds between any two of the loops. -/
structure Fair (p : TcpServer) : Prop where
  sound : ∀ r ∈ p, r.Sound
  balanced : ∀ a ∈ p, ∀ b ∈ p, b.assigned ≤ 2 * a.assigned + 1

theorem fair_init (n : Nat) : Fair (init n) := by
  have hstart : ∀ r ∈ init n, ∃ i, r = Reactor.start i := by
    intro r hr
    obtain ⟨i, -, rfl⟩ := List.mem_map.mp hr
    exact ⟨i, rfl⟩
  constructor
  · intro r hr
    obtain ⟨i, rfl⟩ := hstart r hr
    exact sound_start i
  · intro a _ b hb
    obtain ⟨i, rfl⟩ := hstart b hb
    exact Nat.zero_le _

/-- A loop that has not less connections takes the place of another. -/
theorem Fair.set (h : Fair p) {i : Nat} {r r' : Reactor} (hr : p[i]? = some r) (hsound : r'.Sound)
    (hmore : r.assigned ≤ r'.assigned)
    (hleast : ∀ a ∈ p, r'.assigned ≤ 2 * a.assigned + 1) : Fair (p.set i r') := by
  have hmem : r ∈ p := List.mem_of_getElem? hr
  constructor
  · intro v hv
    rcases List.mem_or_eq_of_mem_set hv with hv | rfl
    · exact h.sound v hv
    · exact hsound
  · intro a ha b hb
    rcases List.mem_or_eq_of_mem_set ha with ha | rfl
    · rcases List.mem_or_eq_of_mem_set hb with hb | hb
      · exact h.balanced a ha b hb
      · exact hb ▸ hleast a ha
    · rcases List.mem_or_eq_of_mem_set hb with hb | rfl
      · have := h.balanced r hmem b hb
        omega
      · omega

/-- **The load that is compared is between once and twice the number of connections**, so the loop
with the least has at most twice as many connections as any other. -/
theorem Fair.step (h : Fair p) (hl : Undisturbed l) (hrange : InRange p l)
    (hstep : p.step l = some p') : Fair p' := by
  obtain ⟨i, r, r', l', hr, hrun, hfault, rfl, hspec⟩ := step_eq_some hstep
  have hmem : r ∈ p := List.mem_of_getElem? hr
  have hsound := h.sound r hmem
  cases l with
  | accept c fd f =>
      obtain ⟨rfl, -, hleast⟩ := hspec
      have hquiet : Reactor.Undisturbed (.handOver c fd (.accepted f)) := trivial
      have hborn : r'.assigned = r.assigned + 1 :=
        congrArg (fun w => w.1.length) (hsound.roster_step hquiet hrun)
      refine h.set hr (hsound.step hquiet hrun hfault) (by omega) fun a ha => ?_
      -- within the range, the `int` is the size
      have hload : ∀ v ∈ p, v.ioWorker.evLoads = v.world.evl.fds.length := by
        intro v hv
        have hfit := hrange v hv
        simp only [INT_MAX] at hfit
        have hlt : v.world.evl.fds.length < 2 ^ 31 := by omega
        exact toInt_natCast hlt
      have hle := hleast a ha
      rw [hload r hmem, hload a ha] at hle
      calc r'.assigned = r.assigned + 1 := hborn
        _ ≤ r.world.evl.fds.length + 1 := Nat.add_le_add_right hsound.loads.1 1
        _ ≤ a.world.evl.fds.length + 1 := Nat.add_le_add_right (Int.ofNat_le.mp hle) 1
        _ ≤ 2 * a.assigned + 1 := Nat.add_le_add_right (h.sound a ha).loads.2 1
  | work j l =>
      obtain ⟨rfl, rfl, hne⟩ := hspec
      have hborn : r'.assigned = r.assigned := by
        have hroster := hsound.roster_step hl hrun
        cases l' with
        | handOver c fd origin => exact absurd rfl (hne c fd origin)
        | _ => exact congrArg (fun w => w.1.length) hroster
      refine h.set hr (hsound.step hl hrun hfault) hborn.ge fun a ha => ?_
      rw [hborn]
      exact h.balanced a ha r hmem

/-- **Any two workers are balanced**, in every state of every run that is not disturbed and in which
`ev_loads` does not overflow. -/
theorem run_balanced {n : Nat} {ls : List TcpServerLabel} (hquiet : ∀ l ∈ ls, Undisturbed l)
    (hrange : AllSteps step InRange (init n) ls) (hrun : run step (init n) ls = some p) :
    p.Balanced := by
  have hok : AllSteps step (fun _ l => Undisturbed l) (init n) ls :=
    allSteps_of_forall (fun l hl _ => hquiet l hl) _
  have hfair : Fair p := by
    refine run_inv step (fun p l => Undisturbed l ∧ InRange p l) Fair ?_ (fair_init n) ?_ hrun
    · exact fun _ _ _ h hl hs => h.step hl.1 hl.2 hs
    · exact hok.and (fun _ _ h h' => ⟨h, h'⟩) hrange
  intro i j a b ha hb
  exact hfair.balanced a (List.mem_of_getElem? ha) b (List.mem_of_getElem? hb)

/-- Two connections for two workers; the first is taken over, and the third goes to the other
worker. -/
def threeConns : List TcpServerLabel :=
  [.accept 0 5 .ipv4, .accept 1 6 .ipv4, .work 0 (.poll [(5, fdMapToSys .fdWritable)]),
    .work 0 (.dispatch 0 .idle), .accept 2 7 .ipv4]

theorem run_balanced_threeConns :
    ∃ p, run step (init 2) threeConns = some p ∧ p.map Reactor.assigned = [1, 2] ∧
      p.Balanced := by
  have hassigned : ((run step (init 2) threeConns).map fun p => p.map Reactor.assigned) =
      some [1, 2] := by decide +kernel
  obtain ⟨p, hp, hconns⟩ := Option.map_eq_some_iff.mp hassigned
  have hquiet : ∀ l ∈ threeConns, Undisturbed l := by
    refine List.forall_mem_cons.mpr ⟨trivial, List.forall_mem_cons.mpr ⟨trivial, ?_⟩⟩
    refine List.forall_mem_cons.mpr ⟨trivial, List.forall_mem_cons.mpr ⟨?_, ?_⟩⟩
    · exact Reactor.undisturbed_idle
    · exact List.forall_mem_cons.mpr ⟨trivial, fun _ h => nomatch h⟩
  exact ⟨p, hp, hconns, run_balanced hquiet (by decide +kernel) hp⟩

end TcpServer

/-! ## A table that does not fit

The load is an `int`, so with 2^31 entries a table counts as negative. A run is built that comes
there: connections are taken over by one loop until its load wraps around, and from there on all go
to it. -/

namespace Reactor

/-- What the acceptor does to a loop. -/
theorem ioWorker_handOver {w : World} (hs : Sane w) {c : ConnId} {fd : Int} (f : Family)
    (hf : w.Fresh c fd) :
    (after ((World.handOver c fd (.accepted f)).exec w)).ioWorker =
      Workers.take ⟨w.evl, w.kern.epoll⟩ c fd := by
  have hnone := hs.epoll_fresh hf
  rw [exec_handOver (.accepted f) hf]
  simp [World.fdRegister, World.emplace, World.ctlAdd, Prog.exec_bind, World.bear, Kernel.ctlAdd,
    Kernel.openFd, hnone, Nsocktcp.new, Nstream.new, Nio.new, Origin.initHandler, after, ioWorker,
    Workers.take]

/-- A loop that waits, with `c` connections and `l` entries. Its numbers are below `k`. -/
structure Rest (k c l : Nat) (r : Reactor) : Prop where
  sound : r.Sound
  queue : r.world.evl.fdCbs = []
  ids : ∀ c ∈ r.world.born, c < k
  opened : ∀ fd, r.world.kern.opened fd = true → fd < k
  assigned : r.assigned = c
  entries : r.world.evl.fds.length = l

variable {r : Reactor} {k c l : Nat}

theorem rest_start (i : Nat) : Rest 0 0 0 (start i) where
  sound := TcpServer.sound_start i
  queue := rfl
  ids _ hc := nomatch hc
  opened _ h := nomatch h
  assigned := rfl
  entries := rfl

/-- A loop at rest has room for one number more. -/
theorem Rest.mono (h : r.Rest k c l) : r.Rest (k + 1) c l where
  sound := h.sound
  queue := h.queue
  ids d hd := (h.ids d hd).trans (Nat.lt_succ_self k)
  opened fd hfd := by
    have := h.opened fd hfd
    omega
  assigned := h.assigned
  entries := h.entries

/-- The next connection has a number and a descriptor that are new. -/
theorem Rest.fresh (h : r.Rest k c l) : r.world.Fresh k k := by
  refine ⟨fun hk => Nat.lt_irrefl k (h.ids k hk), ?_, Int.natCast_nonneg k⟩
  cases hk : r.world.kern.opened k with
  | true => exact absurd (h.opened k hk) (lt_irrefl _)
  | false => rfl

/-! ### What a loop at rest does -/

/-- The loop takes a connection. -/
theorem Rest.take (h : r.Rest k c l) (f : Family) :
    ∃ r', r.step (.handOver k k (.accepted f)) = some r' ∧ r'.fault = none ∧
      r'.Rest (k + 1) (c + 1) (l + 1) := by
  have hfresh := h.fresh
  obtain ⟨w', hexec, -⟩ := handOver_spec h.sound.sane (.accepted f) hfresh
  have hstep : r.step (.handOver k k (.accepted f)) = some ⟨w', none⟩ := by
    simp [step, h.sound.running, hfresh, hexec, after]
  have hquiet : Undisturbed (.handOver k k (.accepted f)) := trivial
  have hroster := h.sound.roster_step hquiet hstep
  obtain ⟨hborn, hopened⟩ := Prod.mk.inj hroster
  have hevl : w'.evl = (Workers.take ⟨r.world.evl, r.world.kern.epoll⟩ k k).evl := by
    have := ioWorker_handOver h.sound.sane f hfresh
    rw [hexec] at this
    exact congrArg IoWorker.evl this
  refine ⟨⟨w', none⟩, hstep, rfl, h.sound.step hquiet hstep rfl, ?_, ?_, ?_, ?_, ?_⟩
  · show w'.evl.fdCbs = []
    rw [hevl]
    exact h.queue
  · show ∀ d ∈ w'.born, d < k + 1
    intro d hd
    rw [hborn] at hd
    rcases List.mem_cons.mp hd with rfl | hd
    · exact Nat.lt_succ_self d
    · exact (h.ids d hd).trans (Nat.lt_succ_self k)
  · show ∀ fd, w'.kern.opened fd = true → fd < ((k + 1 : Nat) : Int)
    intro fd hfd
    -- the number of the new connection is `k`
    rw [hopened] at hfd
    by_cases hk : fd = k
    · omega
    · rw [Function.update_of_ne hk] at hfd
      have := h.opened fd hfd
      omega
  · show w'.born.length = c + 1
    rw [hborn, List.length_cons]
    exact congrArg (· + 1) h.assigned
  · show w'.evl.fds.length = l + 1
    rw [hevl, ← h.entries]
    simp [Workers.take, EventLoop.emplace]

/-- Where the table has not two entries for each connection, one of them waits for its handler. -/
theorem Rest.pending (h : r.Rest k c l) (hlt : l < 2 * c) :
    ∃ d ∈ r.world.born, Conn.At .pending (view d r.world) := by
  by_contra hno
  have htwo : ∀ n ∈ r.world.born.map fun d => (view d r.world).handlers.length, 2 ≤ n := by
    intro n hn
    obtain ⟨d, hd, rfl⟩ := List.mem_map.mp hn
    obtain ⟨st, hat, hne, -⟩ := h.sound.kept d hd
    cases st with
    | pending => exact absurd ⟨d, hd, hat⟩ hno
    | live =>
        rw [hat.2.1]
        exact le_rfl
    | gone => exact absurd rfl hne
  have hsum := List.card_nsmul_le_sum _ 2 htwo
  rw [List.length_map, smul_eq_mul, ← length_fds h.sound.sane h.sound.nodup, h.entries] at hsum
  have hconns : r.world.born.length = c := h.assigned
  omega

/-- The queue when epoll has reported that such a connection is writable. -/
theorem collect_pending {w : World} (hs : Sane w) (hq : w.evl.fdCbs = []) {d : ConnId}
    (hd : d ∈ w.born) (hat : Conn.At .pending (view d w)) :
    ∃ (origin : Origin) (cb : FdCb IoHandler), cb.iop = d ∧ cb.handler = origin.initHandler ∧
      Conn.Busy [(origin.initHandler, .fdWritable)] true ((view d w).started .idle) ∧
      EventLoop.Batch w.kern [((w.nios d).fd, fdMapToSys .fdWritable)] ∧
      w.evl.collect [((w.nios d).fd, fdMapToSys .fdWritable)] = { w.evl with fdCbs := [cb] } := by
  obtain ⟨hcl, hint, origin, htable, -⟩ := hat
  have hcl' : (w.nios d).closed = false := hcl
  -- the only entry of the connection
  obtain ⟨e, he, hentry⟩ := List.map_eq_singleton_iff.mp htable
  have hmem : e ∈ w.evl.fds.filter fun e => e.iop = d := by
    rw [he]
    exact List.mem_cons_self
  have hiop : e.iop = d := by simpa using (List.mem_filter.mp hmem).2
  obtain ⟨hhandler, hev⟩ := Prod.mk.inj hentry
  refine ⟨origin, e.cb, hiop, hhandler, ⟨hcl, htable, rfl, .inr hint⟩, ⟨?_, ?_⟩, ?_⟩
  · simp
  · intro ev hev'
    obtain rfl := List.mem_singleton.mp hev'
    have hepoll : w.kern.epoll (w.nios d).fd = forWritable := by simpa [view, hcl'] using hint
    rw [hepoll]
    rfl
  · have hfilter : (w.evl.fds.filter fun x => x.fd = (w.nios d).fd &&
        x.ev.meets (fdMapToEvent (fdMapToSys .fdWritable))) = [e] := by
      rw [← he]
      refine List.filter_congr fun x hx => ?_
      simp only [hs.entries_iff hd hcl' hx]
      by_cases hxd : x.iop = d
      · have hxe : x ∈ w.evl.fds.filter fun e => e.iop = d :=
          List.mem_filter.mpr ⟨hx, by simp [hxd]⟩
        rw [he] at hxe
        rw [List.mem_singleton.mp hxe, hev]
        simp [hiop, FdEvent.meets, fdMapToEvent, fdMapToSys, FdEvent.fdWritable]
      · simp [hxd]
    simp [EventLoop.collect, EventLoop.enqueue, hq, hfilter]

/-- The handler of such a connection puts both handlers into the table. -/
theorem wp_pending {v : Conn} (origin : Origin)
    (h : Conn.Busy [(origin.initHandler, .fdWritable)] true (v.started .idle)) :
    (Conn.handle origin.initHandler .idle).wp
      (fun _ v' => v'.handlers = fullTable ∧ v'.queued = []) (fun _ _ => False)
      (v.started .idle) := by
  have hgood : ¬ origin.refused (v.started .idle).script := by
    cases origin with
    | accepted f => exact not_false
    | connecting peer => exact not_not.mpr rfl
  have hdone : Env.idle.greet origin = .done := by cases origin <;> rfl
  refine (Conn.wp_initHandler origin h).mpr ?_
  rw [if_neg hgood, hdone]
  have hgreeted := h.greeted origin
  exact hgreeted.wp_initialise.mpr ⟨hgreeted.initialised.handlers, hgreeted.initialised.queued⟩

/-- One summand has become larger by one. -/
theorem sum_succ {ds : List ConnId} (hnd : ds.Nodup) {d : ConnId} (hd : d ∈ ds) {f g : ConnId → Nat}
    (hself : g d = f d + 1) (hother : ∀ x ∈ ds, x ≠ d → g x = f x) :
    (ds.map g).sum = (ds.map f).sum + 1 := by
  induction ds with
  | nil => exact nomatch hd
  | cons x ds ih =>
      obtain ⟨hx, hds⟩ := List.nodup_cons.mp hnd
      simp only [List.map_cons, List.sum_cons]
      by_cases hxd : x = d
      · have hsame : ds.map g = ds.map f := by
          refine List.map_congr_left fun y hy => hother y (List.mem_cons_of_mem _ hy) ?_
          rintro rfl
          exact hx (hxd ▸ hy)
        rw [hsame, hxd, hself]
        omega
      · have hd' : d ∈ ds := (List.mem_cons.mp hd).resolve_left fun h => hxd h.symm
        rw [ih hds hd' fun y hy => hother y (List.mem_cons_of_mem _ hy),
          hother x List.mem_cons_self hxd]
        omega

/-- The table gets longer by an entry of one connection. -/
theorem length_fds_succ {w w' : World} (hs : Sane w) (hs' : Sane w') (hnd : w.born.Nodup)
    (hborn : w'.born = w.born) {d : ConnId} (hd : d ∈ w.born)
    (hself : (view d w').handlers.length = (view d w).handlers.length + 1)
    (hother : ∀ x ∈ w.born, x ≠ d → view x w' = view x w) :
    w'.evl.fds.length = w.evl.fds.length + 1 := by
  rw [length_fds hs hnd, length_fds hs' (hborn ▸ hnd), hborn]
  exact sum_succ hnd hd hself fun x hx hne => by rw [hother x hx hne]

/-- The queue is empty if no connection has a callback in it. -/
theorem fdCbs_eq_nil {w : World} (hs : Sane w) (h : ∀ d ∈ w.born, (view d w).queued = []) :
    w.evl.fdCbs = [] := by
  refine List.eq_nil_iff_forall_not_mem.mpr fun cb hcb => ?_
  have hmem : cb ∈ w.evl.fdCbs.filter fun x => x.iop = cb.iop :=
    List.mem_filter.mpr ⟨hcb, by simp⟩
  rw [List.map_eq_nil_iff.mp (h cb.iop (hs.queue cb hcb))] at hmem
  cases hmem

/-- The loop takes over a connection that waits for it. -/
theorem Rest.greet (h : r.Rest k c l) (hlt : l < 2 * c) :
    ∃ evs r₁ r₂, r.step (.poll evs) = some r₁ ∧ r₁.step (.dispatch 0 .idle) = some r₂ ∧
      r₁.fault = none ∧ r₂.fault = none ∧ r₂.Rest k c (l + 1) := by
  obtain ⟨d, hd, hat⟩ := h.pending hlt
  have hs := h.sound.sane
  obtain ⟨origin, cb, rfl, hhandler, hbusy, hbatch, hcollect⟩ := collect_pending hs h.queue hd hat
  obtain ⟨w, fault⟩ := r
  obtain rfl : fault = none := h.sound.running
  let evs : List (Int × EpollEvents) := [((w.nios cb.iop).fd, fdMapToSys .fdWritable)]
  let polled : Reactor := ⟨w.withEvl { w.evl with fdCbs := [cb] }, none⟩
  have hpoll : step ⟨w, none⟩ (.poll evs) = some polled := by
    simp only [step, ne_eq, not_true_eq_false, if_false, if_pos (And.intro h.queue hbatch), evs,
      hcollect, polled, World.withEvl]
  -- the world in which the handler runs has lost nothing but an answer of the kernel
  let w₀ : World := w.started w.evl cb .idle
  have hs₀ : Sane w₀ :=
    ⟨hs.entries, hs.queue, hs.distinct, hs.opened, hs.polled, hs.buffers, hs.unborn⟩
  have hqueue : w.evl.fdCbs = [] := h.queue
  have hview : view cb.iop w₀ = (view cb.iop w).started .idle := by
    simp [view, w₀, World.started, Conn.started, hqueue]
  have hviews : ∀ d, d ≠ cb.iop → view d w₀ = view d w := by
    intro d hne
    simp only [view, w₀, World.started, Function.update_of_ne hne]
  have hwp := wp_pending origin hbusy
  rw [← hview, ← hhandler] at hwp
  obtain ⟨_, w', hexec, hkeep, htable, hempty⟩ := (sim_run cb.handler .idle).ok hs₀ hd hwp
  have hdispatch : step polled (.dispatch 0 .idle) = some ⟨w', none⟩ := by
    have hpop : polled.world.evl.pop 0 = some (cb, w.evl) := by
      have hevl : { w.evl with fdCbs := [] } = w.evl := by rw [← hqueue]
      simp [EventLoop.pop, polled, hevl]
    have hrun : runCb { polled.world with evl := w.evl } cb .idle = (.ok (), w') := hexec
    simp [step, hpop, hrun, after, polled]
  have hquiet₁ : Undisturbed (.poll evs) := trivial
  have hquiet₂ := undisturbed_idle
  have hsound₁ := h.sound.step hquiet₁ hpoll rfl
  have hsound₂ := hsound₁.step hquiet₂ hdispatch rfl
  obtain ⟨hborn, hopened⟩ : w'.born = w.born ∧ w'.kern.opened = w.kern.opened :=
    Prod.mk.inj (hsound₁.roster_step hquiet₂ hdispatch)
  refine ⟨evs, polled, ⟨w', none⟩, hpoll, hdispatch, rfl, rfl, hsound₂, ?_, ?_, ?_, ?_, ?_⟩
  · show w'.evl.fdCbs = []
    refine fdCbs_eq_nil hsound₂.sane fun d hin => ?_
    by_cases hsame : d = cb.iop
    · rw [hsame]
      exact hempty
    · rw [hkeep.others d (hborn ▸ hin) hsame, hviews d hsame]
      simp [view, hqueue]
  · show ∀ d ∈ w'.born, d < k
    exact hborn ▸ h.ids
  · show ∀ fd, w'.kern.opened fd = true → fd < k
    exact hopened ▸ h.opened
  · show w'.born.length = c
    exact hborn ▸ h.assigned
  · show w'.evl.fds.length = l + 1
    rw [← h.entries]
    -- the two entries in place of the one
    refine length_fds_succ h.sound.sane hsound₂.sane h.sound.nodup hborn hd ?_ fun x hx hne => ?_
    · have hone : (view cb.iop w).handlers = [(origin.initHandler, .fdWritable)] := hbusy.handlers
      rw [htable, hone]
      rfl
    · rw [hkeep.others x hx hne, hviews x hne]

end Reactor

namespace TcpServer

/-- Two workers can come to be so, while nothing disturbs them. -/
def Reached (p : TcpServer) : Prop :=
  ∃ ls, (∀ l ∈ ls, Undisturbed l) ∧ run step (init 2) ls = some p

theorem Reached.step {p p' : TcpServer} {l : TcpServerLabel} (h : Reached p) (hl : Undisturbed l)
    (hstep : p.step l = some p') : Reached p' := by
  obtain ⟨ls, hquiet, hrun⟩ := h
  refine ⟨ls ++ [l], fun l' hl' => ?_, ?_⟩
  · rcases List.mem_append.mp hl' with hl' | hl'
    · exact hquiet l' hl'
    · obtain rfl := List.mem_singleton.mp hl'
      exact hl
  · rw [run_append, hrun, Option.bind_some, run_cons_of_some hstep, run_nil]

/-- They can come to wait with `ca` and `cb` connections, and `la` and `lb` entries. -/
def Comes (ca la cb lb : Nat) : Prop :=
  ∃ a b, Reached [a, b] ∧ a.Rest (ca + cb) ca la ∧ b.Rest (ca + cb) cb lb

theorem comes_init : Comes 0 0 0 0 := by
  refine ⟨.start 0, .start 1, ⟨[], ?_, rfl⟩, Reactor.rest_start 0, Reactor.rest_start 1⟩
  exact fun _ h => nomatch h

variable {ca la cb lb : Nat} {a b : Reactor}

/-! ### The run -/

/-- The next connection comes to a worker with the least load. -/
theorem accept_pair (ha : a.Rest (ca + cb) ca la) (hb : b.Rest (ca + cb) cb lb)
    (hfit : ((ca + cb : Nat) : Int) ≤ INT_MAX) {i : Nat}
    (hmin : minloadsGetEvlp [a, b] = some i) :
    step [a, b] (.accept (ca + cb) (ca + cb : Nat) .ipv4) =
      advance [a, b] i (.handOver (ca + cb) (ca + cb : Nat) (.accepted .ipv4)) := by
  have hfresh : Fresh [a, b] (ca + cb) (ca + cb : Nat) := by
    refine ⟨hfit, fun r hr => ?_⟩
    rcases List.mem_cons.mp hr with rfl | hr
    · exact ha.fresh
    · obtain rfl := List.mem_singleton.mp hr
      exact hb.fresh
  rw [step, if_pos hfresh, hmin]

/-- A connection goes to the first worker. -/
theorem Comes.acceptLeft (h : Comes ca la cb lb) (hfit : ((ca + cb : Nat) : Int) ≤ INT_MAX)
    (hload : toInt la < INT_MAX) (hless : toInt la ≤ toInt lb) :
    Comes (ca + 1) (la + 1) cb lb := by
  obtain ⟨a, b, hreach, ha, hb⟩ := h
  have hmin : minloadsGetEvlp [a, b] = some 0 := by
    have hla : a.ioWorker.evLoads = toInt la := by rw [← ha.entries]; rfl
    have hlb : b.ioWorker.evLoads = toInt lb := by rw [← hb.entries]; rfl
    simp [minloadsGetEvlp, Workers.minloadsLoop, hla, hlb, hload, hless]
  obtain ⟨a', hstep, hfault, ha'⟩ := ha.take .ipv4
  have hmove := (accept_pair ha hb hfit hmin).trans (advance_some rfl hstep hfault)
  have hquiet : Undisturbed (.accept (ca + cb) (ca + cb : Nat) .ipv4) := trivial
  have hsum : ca + 1 + cb = ca + cb + 1 := by omega
  exact ⟨a', b, hreach.step hquiet hmove, hsum ▸ ha', hsum ▸ hb.mono⟩

theorem Comes.acceptRight (h : Comes ca la cb lb) (hfit : ((ca + cb : Nat) : Int) ≤ INT_MAX)
    (hload : toInt la < INT_MAX) (hless : toInt lb < toInt la) :
    Comes ca la (cb + 1) (lb + 1) := by
  obtain ⟨a, b, hreach, ha, hb⟩ := h
  have hmin : minloadsGetEvlp [a, b] = some 1 := by
    have hla : a.ioWorker.evLoads = toInt la := by rw [← ha.entries]; rfl
    have hlb : b.ioWorker.evLoads = toInt lb := by rw [← hb.entries]; rfl
    simp [minloadsGetEvlp, Workers.minloadsLoop, hla, hlb, hload, hless]
  obtain ⟨b', hstep, hfault, hb'⟩ := hb.take .ipv4
  have hmove := (accept_pair ha hb hfit hmin).trans (advance_some rfl hstep hfault)
  have hquiet : Undisturbed (.accept (ca + cb) (ca + cb : Nat) .ipv4) := trivial
  exact ⟨a, b', hreach.step hquiet hmove, ha.mono, hb'⟩

/-- The first worker takes over one of its connections. -/
theorem Comes.greetLeft (h : Comes ca la cb lb) (hlt : la < 2 * ca) : Comes ca (la + 1) cb lb := by
  obtain ⟨a, b, hreach, ha, hb⟩ := h
  obtain ⟨evs, a₁, a₂, hpoll, hdispatch, hfault₁, hfault₂, ha₂⟩ := ha.greet hlt
  have hmove₁ : step [a, b] (.work 0 (.poll evs)) = some [a₁, b] :=
    advance_some (p := [a, b]) (i := 0) rfl hpoll hfault₁
  have hmove₂ : step [a₁, b] (.work 0 (.dispatch 0 .idle)) = some [a₂, b] :=
    advance_some (p := [a₁, b]) (i := 0) rfl hdispatch hfault₂
  have hquiet₁ : Undisturbed (.work 0 (.poll evs)) := trivial
  have hquiet₂ : Undisturbed (.work 0 (.dispatch 0 .idle)) := Reactor.undisturbed_idle
  exact ⟨a₂, b, (hreach.step hquiet₁ hmove₁).step hquiet₂ hmove₂, ha₂, hb⟩

theorem Comes.greetRight (h : Comes ca la cb lb) (hlt : lb < 2 * cb) : Comes ca la cb (lb + 1) := by
  obtain ⟨a, b, hreach, ha, hb⟩ := h
  obtain ⟨evs, b₁, b₂, hpoll, hdispatch, hfault₁, hfault₂, hb₂⟩ := hb.greet hlt
  have hmove₁ : step [a, b] (.work 1 (.poll evs)) = some [a, b₁] :=
    advance_some (p := [a, b]) (i := 1) rfl hpoll hfault₁
  have hmove₂ : step [a, b₁] (.work 1 (.dispatch 0 .idle)) = some [a, b₂] :=
    advance_some (p := [a, b₁]) (i := 1) rfl hdispatch hfault₂
  have hquiet₁ : Undisturbed (.work 1 (.poll evs)) := trivial
  have hquiet₂ : Undisturbed (.work 1 (.dispatch 0 .idle)) := Reactor.undisturbed_idle
  exact ⟨a, b₂, (hreach.step hquiet₁ hmove₁).step hquiet₂ hmove₂, ha, hb₂⟩

/-- The first worker takes over nothing, the second all it has: both have the same load, with twice
as many connections on the one side. -/
theorem comes_rounds (n : Nat) (hfit : (3 * n : Int) ≤ INT_MAX) :
    Comes (2 * n) (2 * n) n (2 * n) := by
  induction n with
  | zero => exact comes_init
  | succ n ih =>
      simp only [INT_MAX] at hfit
      have hn : ∀ m : Nat, m ≤ 2 * n + 1 → toInt m = m ∧ toInt m < INT_MAX := by
        intro m hm
        rw [toInt_natCast (by omega)]
        exact ⟨rfl, by simp only [INT_MAX]; omega⟩
      have h₀ := ih (by simp only [INT_MAX]; omega)
      have h₁ := h₀.acceptLeft (by simp only [INT_MAX]; omega) (hn _ (by omega)).2 le_rfl
      have h₂ := h₁.acceptRight (by simp only [INT_MAX]; omega) (hn _ le_rfl).2 (by
        rw [(hn _ le_rfl).1, (hn (2 * n) (by omega)).1]
        omega)
      have h₃ := h₂.acceptLeft (by simp only [INT_MAX]; omega) (hn _ le_rfl).2 le_rfl
      have h₄ := h₃.greetRight (by omega)
      exact h₄

/-- The first worker takes over `m` connections more. -/
theorem Comes.greetMany (h : Comes ca la cb lb) (m : Nat) (hle : la + m ≤ 2 * ca) :
    Comes ca (la + m) cb lb := by
  induction m with
  | zero => exact h
  | succ m ih => exact (ih (by omega)).greetLeft (by omega)

/-- When the first worker has taken over all it has, its load is a negative `int`. -/
theorem comes_overflow : Comes (2 ^ 30 + 2) (2 ^ 31 + 2) (2 ^ 29) (2 ^ 30) := by
  have h₀ : Comes (2 ^ 30) (2 ^ 30) (2 ^ 29) (2 ^ 30) :=
    comes_rounds (2 ^ 29) (by simp only [INT_MAX]; norm_num)
  have h₁ : Comes (2 ^ 30) (2 ^ 31) (2 ^ 29) (2 ^ 30) := h₀.greetMany (2 ^ 30) (by norm_num)
  have h₂ : Comes (2 ^ 30 + 1) (2 ^ 31 + 1) (2 ^ 29) (2 ^ 30) :=
    h₁.acceptLeft (by decide) (by decide) (by decide)
  exact h₂.acceptLeft (by decide) (by decide) (by decide)

/-- **Where the load does not fit into an `int`, the busiest worker is chosen.** -/
theorem narrow_unbalanced :
    ¬ ∀ (n : Nat) (ls : List TcpServerLabel) (p : TcpServer), 0 < n → (∀ l ∈ ls, Undisturbed l) →
      run step (init n) ls = some p → p.Balanced := by
  intro hall
  obtain ⟨a, b, ⟨ls, hquiet, hrun⟩, ha, hb⟩ := comes_overflow
  have hle := hall 2 ls [a, b] (by decide) hquiet hrun 1 0 b a rfl rfl
  rw [ha.assigned, hb.assigned] at hle
  omega

end TcpServer

end Cppev
