import Cppev.Logger.Basic
import Cppev.Reactor.Output
import Cppev.Reactor.Reading

/-!
# The echo server and its client

The callbacks of `examples/tcp_stress`: the server greets each connection it has accepted, and both
sides write back what they have read.

* `echo_spec`: at every moment what a side has sent on a connection is a prefix of its greeting and
  what it has received; while control is in the loop, what it has sent and what is left in `wbuffer`
  are the greeting and all it has received. So nothing is lost, doubled or put in another order,
  however short the writes are.
-/

namespace Cppev

/-! ## The callbacks

`echo` is `on_read_complete` of both programs. What other threads hand over in the meantime
(`Arrivals`) is left open. -/

/-- `iopt->wbuffer().put_string(iopt->rbuffer().get_string())`, then `async_write(iopt)`. -/
def echo : Cb := .inspect fun bs => .consume bs.length (.append bs (.asyncWrite .done .done))

/-- What `on_accept` of `simple_server.cc` puts into `wbuffer`. -/
def helloText : List Byte := bytesOf "Cppev is a C++ event driven library"

/-- `on_accept` of a server that greets with `hello`. -/
def greetWith (hello : List Byte) : Cb := .append hello (.asyncWrite .done .done)

/-- The callback `cb`, while other threads hand over connections. -/
def Cb.meanwhile (arrivals : List (ConnId × Int × Origin)) (cb : Cb) : Cb :=
  arrivals.foldr (fun a cb => .handOver a.1 a.2.1 a.2.2 cb) cb

/-- The connections that come while a callback runs. -/
abbrev Arrivals := Callback → List (ConnId × Int × Origin)

/-- The callbacks of `simple_server.cc`; two of them log only. -/
def simpleServer (arrivals : Arrivals) (script : Script) : Env where
  script := script
  onAccept := .meanwhile (arrivals .onAccept) (greetWith helloText)
  onConnect := .meanwhile (arrivals .onConnect) .done
  onReadComplete := .meanwhile (arrivals .onReadComplete) echo
  onWriteComplete := .meanwhile (arrivals .onWriteComplete) .done
  onClosed := .meanwhile (arrivals .onClosed) .done

/-- The callbacks of `simple_client.cc`. -/
def simpleClient (arrivals : Arrivals) (script : Script) : Env where
  script := script
  onAccept := .meanwhile (arrivals .onAccept) .done
  onConnect := .meanwhile (arrivals .onConnect) .done
  onReadComplete := .meanwhile (arrivals .onReadComplete) echo
  onWriteComplete := .meanwhile (arrivals .onWriteComplete) .done
  onClosed := .meanwhile (arrivals .onClosed) .done

/-- Callbacks that write back what they have read, and greet with `hello` if they greet. -/
structure Env.Echoes (hello : List Byte) (env : Env) : Prop where
  onAccept : ∃ arrivals, env.onAccept = .meanwhile arrivals (greetWith hello) ∨
    hello = [] ∧ env.onAccept = .meanwhile arrivals .done
  onConnect : ∃ arrivals, env.onConnect = .meanwhile arrivals .done
  onReadComplete : ∃ arrivals, env.onReadComplete = .meanwhile arrivals echo
  onWriteComplete : ∃ arrivals, env.onWriteComplete = .meanwhile arrivals .done
  onClosed : ∃ arrivals, env.onClosed = .meanwhile arrivals .done

theorem echoes_simpleServer (arrivals : Arrivals) (script : Script) :
    (simpleServer arrivals script).Echoes helloText :=
  ⟨⟨_, .inl rfl⟩, ⟨_, rfl⟩, ⟨_, rfl⟩, ⟨_, rfl⟩, ⟨_, rfl⟩⟩

/-- The example client, which greets nobody. -/
theorem echoes_simpleClient (arrivals : Arrivals) (script : Script) :
    (simpleClient arrivals script).Echoes [] :=
  ⟨⟨_, .inr ⟨rfl, rfl⟩⟩, ⟨_, rfl⟩, ⟨_, rfl⟩, ⟨_, rfl⟩, ⟨_, rfl⟩⟩

/-- The greetings for which `on_accept` has been called. -/
def greetedBytes (hello : List Byte) (tr : List Event) : List Byte :=
  tr.flatMap fun
    | .called .onAccept _ => hello
    | _ => []

/-- Neither input, nor a greeting, nor anything appended. -/
structure Plain (hello : List Byte) (evs : List Event) : Prop where
  appended : appendedBytes evs = []
  received : receivedBytes evs = []
  greeted : greetedBytes hello evs = []

variable {hello : List Byte}

/-- What is sent is neither a greeting nor input. -/
theorem plain_sent (xs : List (List Byte)) : Plain hello (xs.map .sent) := by
  constructor <;>
  · refine List.flatMap_eq_nil_iff.mpr fun e he => ?_
    obtain ⟨bs, -, rfl⟩ := List.mem_map.mp he
    rfl

/-! ## What is kept

What goes out and what is left is the greeting and what came in (`Even`). In the middle of a handler
less may have been appended than has come in, but never more (`Behind`). -/

namespace Conn

/-- What has been appended, in terms of what came before. -/
def Echoed (hello : List Byte) (v : Conn) : Prop :=
  appendedBytes v.trace = greetedBytes hello v.trace ++ receivedBytes v.trace

/-- Everything received has been written back. -/
structure Even (hello : List Byte) (v : Conn) : Prop where
  balanced : Balanced v
  echoed : Echoed hello v
  inp : v.inp = []
  once : greetedBytes hello v.trace = [] ∨ greetedBytes hello v.trace = hello

/-- Not more than what was received has been written back. -/
structure Behind (hello : List Byte) (v : Conn) : Prop where
  balanced : Balanced v
  echoed : appendedBytes v.trace <+: greetedBytes hello v.trace ++ receivedBytes v.trace
  once : greetedBytes hello v.trace = [] ∨ greetedBytes hello v.trace = hello

theorem Even.behind {v : Conn} (h : Even hello v) : Behind hello v :=
  ⟨h.balanced, h.echoed ▸ List.prefix_rfl, h.once⟩

/-- A step that leaves the account of the input alone. -/
theorem Even.more {v v' : Conn} (h : Even hello v) {evs : List Event}
    (htrace : v'.trace = v.trace ++ evs) (hplain : Plain hello evs)
    (hrun : run ledgerStep v.out evs = some v'.out) (hinp : v'.inp = v.inp) : Even hello v' := by
  have happended : appendedBytes v'.trace = appendedBytes v.trace := by
    rw [htrace, appendedBytes, List.flatMap_append, ← appendedBytes, ← appendedBytes,
      hplain.appended, List.append_nil]
  have hreceived : receivedBytes v'.trace = receivedBytes v.trace := by
    rw [htrace, receivedBytes, List.flatMap_append, ← receivedBytes, ← receivedBytes,
      hplain.received, List.append_nil]
  have hgreeted : greetedBytes hello v'.trace = greetedBytes hello v.trace := by
    rw [htrace, greetedBytes, List.flatMap_append, ← greetedBytes, ← greetedBytes,
      hplain.greeted, List.append_nil]
  refine ⟨h.balanced.more htrace hrun, ?_, hinp.trans h.inp, ?_⟩
  · rw [Echoed, happended, hgreeted, hreceived]
    exact h.echoed
  · rw [hgreeted]
    exact h.once

/-- Bytes that are sent leave the buffer. -/
theorem Even.flushed {v : Conn} (h : Even hello v) : Even hello v.flushed := by
  refine h.more rfl (plain_sent _) ?_ rfl
  have hrun := run_ledgerStep_sent (flush 1024 1024 v.out v.script.writes).sent
    (flush 1024 1024 v.out v.script.writes).pending
  rwa [flush_flow] at hrun

/-- Within a handler that has written back everything. -/
structure Answered (hello : List Byte) (table : List (IoHandler × FdEvent)) (polled : Bool)
    (v : Conn) : Prop where
  busy : Busy table polled v
  even : Even hello v

abbrev Halted (hello : List Byte) : Fault → Conn → Prop := Thrown (fun _ => True) (Behind hello)

/-- What `rbuffer` holds is put into `wbuffer`. -/
@[simps] def answered (v : Conn) : Conn :=
  { v with
    inp := v.inp.drop v.inp.length
    out := v.out ++ v.inp
    trace := (v.trace ++ [.consumed (v.inp.take v.inp.length)]) ++ [.appended v.inp] }

@[simps] def appended (v : Conn) (bs : List Byte) : Conn :=
  { v with out := v.out ++ bs, trace := v.trace ++ [.appended bs] }

/-- The powers of `async_write` alone. -/
def writing : Powers := ⟨False, False, True, False⟩

/-! ## The handlers

Once a callback has answered, it does not read or append any more, which is what `Answered` and
`stable_answered` say of all that may come after it. -/

section Handlers

variable {table : List (IoHandler × FdEvent)} {polled : Bool} {v : Conn} {env : Env}

/-- The operations that are allowed after an answer. -/
theorem stable_answered : Stable writing (Answered hello table polled) (Halted hello) where
  append h := h.elim
  consume h := h.elim
  write _ v hv := by
    refine (wp_writeAll (.inl hv.busy.closed)).mpr ?_
    split
    case h_1 => exact ⟨hv.busy.flushed, hv.even.flushed⟩
    case h_2 e he => exact ⟨e, rfl, trivial, hv.even.flushed.behind⟩
  complete _ v hv hout := by
    refine ⟨hv.busy.begun _, hv.even.more rfl ⟨rfl, rfl, rfl⟩ ?_ rfl⟩
    simp [run, ledgerStep, hout]
  rearm _ v hv _ := by
    cases polled with
    | false =>
        refine (wp_fdRemove_notPolled _ hv.busy.closed hv.busy.interest).mpr ?_
        have hnoted : Even hello (v.note [.fdRemove, .ctlDel false]) :=
          hv.even.more rfl ⟨rfl, rfl, rfl⟩ rfl rfl
        exact ⟨_, rfl, trivial, hnoted.behind⟩
    | true =>
        obtain ⟨i, hi⟩ := hv.busy.isSome
        refine (wp_disarm hv.busy.closed hi).mpr ?_
        refine (wp_arm (v := v.disarmed) _ hv.busy.closed rfl).mpr ?_
        refine ⟨hv.busy.disarmed.armed _ (.inr rfl), ?_⟩
        exact hv.even.more (List.append_assoc _ _ _) ⟨rfl, rfl, rfl⟩ rfl rfl
  close h := h.elim

/-- The connections that come along are others. -/
theorem exec_meanwhile (arrivals : List (ConnId × Int × Origin)) (cb : Cb) :
    (Cb.meanwhile arrivals cb).exec Conn.iopt = cb.exec Conn.iopt := by
  induction arrivals with
  | nil => rfl
  | cons a arrivals ih => exact ih

theorem within_asyncWrite : (Cb.asyncWrite .done .done).Within writing :=
  ⟨trivial, trivial, trivial⟩

/-- An echo is an answer and `async_write`. -/
theorem wp_echo {Q : Unit → Conn → Prop} {E : Fault → Conn → Prop} :
    (echo.exec Conn.iopt).wp Q E v ↔
      ((Cb.asyncWrite .done .done).exec Conn.iopt).wp Q E v.answered := Iff.rfl

/-- `on_read_complete` for the bytes that `read_all` has put into the empty `rbuffer`. -/
theorem exec_echo (hbusy : Busy table polled v) (h : Even hello v) :
    (echo.exec Conn.iopt).wp (fun _ => Answered hello table polled) (Halted hello)
      (v.filled.begun .onReadComplete) := by
  refine wp_echo.mpr (stable_answered.exec within_asyncWrite ⟨hbusy.congr rfl rfl rfl rfl, ?_⟩)
  obtain ⟨hbalanced, hechoed, hinp, honce⟩ := h
  let bs := (deliver v.script.reads).bytes
  have htrace : (v.filled.begun .onReadComplete).answered.trace = v.trace ++
      [.received bs v.endsHere, .called .onReadComplete v.handlers, .consumed bs,
        .appended bs] := by
    simp [hinp, bs]
  refine ⟨?_, ?_, by simp, ?_⟩
  · refine hbalanced.more htrace ?_
    simp [run, ledgerStep, hinp, bs]
  · unfold Echoed at *
    rw [htrace]
    unfold appendedBytes receivedBytes greetedBytes at *
    simp [List.flatMap_append, hechoed]
  · rw [htrace]
    unfold greetedBytes at *
    simpa [List.flatMap_append] using honce

/-- The account in each stage. -/
def EchoAt (hello : List Byte) : Stage → Conn → Prop
  | .pending, v => Even hello v ∧ greetedBytes hello v.trace = [] ∧ receivedBytes v.trace = []
  | .live, v => Even hello v
  | .gone, v => Even hello v

/-- `on_closed` logs only. -/
theorem Answered.leaves (hr : env.Echoes hello) (flags : Bool)
    (h : Answered hello fullTable true v) :
    Leaves env flags (fun _ v' => ∃ st, At st v' ∧ EchoAt hello st v') (Halted hello) v := by
  refine Leaves.intro (Answered hello fullTable true) (fun _ h => h.busy)
    (fun _ => ⟨.live, h.busy.live, h.even⟩) (fun _ => ?_) fun v' hv' => ?_
  · obtain ⟨arrivals, hcb⟩ := hr.onClosed
    rw [hcb, exec_meanwhile]
    exact ⟨h.busy.begun _, h.even.more rfl ⟨rfl, rfl, rfl⟩ rfl rfl⟩
  · exact ⟨.gone, hv'.busy.removed, hv'.even.more rfl ⟨rfl, rfl, rfl⟩ rfl rfl⟩

theorem Even.started (h : Even hello v) : Even hello (v.started env) :=
  ⟨h.balanced, h.echoed, h.inp, h.once⟩

/-- A read is echoed, and the stream may end after it. -/
theorem echoAt_onReadable (hb : Busy fullTable true (v.started env)) (h : Even hello v)
    (hr : env.Echoes hello) :
    (Conn.handle .onReadable env).wp (fun _ v' => ∃ st, At st v' ∧ EchoAt hello st v')
      (Halted hello) (v.started env) := by
  refine (wp_onReadable hb.closed).mpr ?_
  split
  case h_1 e he => exact ⟨e, rfl, trivial, h.balanced, h.behind.echoed, h.once⟩
  case h_2 =>
    obtain ⟨arrivals, hcb⟩ := hr.onReadComplete
    rw [hcb, exec_meanwhile]
    refine Prog.wp_mono (exec_echo hb h.started) (fun _ v' hv' => ?_) fun _ _ he => he
    have hcleared : Answered hello fullTable true v'.cleared := by
      obtain ⟨hbalanced, hechoed, -, honce⟩ := hv'.even
      exact ⟨hv'.busy.cleared, hbalanced, hechoed, rfl, honce⟩
    exact hcleared.leaves hr _

theorem echoAt_onWritable (hb : Busy fullTable true (v.started env)) (h : Even hello v)
    (hr : env.Echoes hello) :
    (Conn.handle .onWritable env).wp (fun _ v' => ∃ st, At st v' ∧ EchoAt hello st v')
      (Halted hello) (v.started env) := by
  have hflushed : Answered hello fullTable true (v.started env).flushed :=
    ⟨hb.flushed, h.started.flushed⟩
  refine (wp_onWritable hb).mpr ?_
  split
  case h_1 e he => exact ⟨e, rfl, trivial, hflushed.even.behind⟩
  case h_2 =>
    split
    case isFalse => exact hflushed.leaves hr _
    case isTrue hout =>
      obtain ⟨arrivals, hcb⟩ := hr.onWriteComplete
      rw [hcb, exec_meanwhile]
      have hdrained : Answered hello fullTable false (v.started env).drained := by
        refine ⟨hb.drained, ?_⟩
        refine hflushed.even.more (List.append_assoc _ _ _) ⟨rfl, rfl, rfl⟩ ?_ rfl
        show run ledgerStep (v.started env).flushed.out _ = some (v.started env).flushed.out
        rw [hout]
        rfl
      show if (v.started env).drained.closed then _ else _
      rw [hdrained.busy.closed]
      refine hdrained.busy.wp_rearm.mpr ?_
      have harmed : Answered hello fullTable true ((v.started env).drained.armed .fdReadable) :=
        ⟨hdrained.busy.armed _ (.inl rfl), hdrained.even.more rfl ⟨rfl, rfl, rfl⟩ rfl rfl⟩
      exact harmed.leaves hr _

/-- The greeting of a connection that has seen nothing yet. -/
theorem Even.greeting {f : Family} (h : Even hello v)
    (hgreeted : greetedBytes hello v.trace = []) (hreceived : receivedBytes v.trace = []) :
    Even hello (((v.started env).greeted (.accepted f)).appended hello) := by
  have htrace : (((v.started env).greeted (.accepted f)).appended hello).trace = v.trace ++
      [.fdRemove, .ctlDel true, .erased false, .fdRegister,
        .called .onAccept [(.onWritable, .fdWritable)], .appended hello] := by
    simp [Origin.greeting]
  have happended : appendedBytes v.trace = [] := by
    rw [h.echoed, hgreeted, hreceived, List.append_nil]
  refine ⟨h.balanced.more htrace rfl, ?_, h.inp, .inr ?_⟩
  · unfold Echoed
    rw [htrace]
    unfold appendedBytes receivedBytes greetedBytes at *
    simp [List.flatMap_append, happended, hgreeted, hreceived]
  · rw [htrace]
    unfold greetedBytes at *
    simp [List.flatMap_append, hgreeted]

/-- `on_accept` and `on_connect`, where epoll does not know the descriptor. -/
theorem exec_greet (origin : Origin)
    (hb : Busy [(origin.initHandler, .fdWritable)] true (v.started env))
    (h : EchoAt hello .pending v) (hr : env.Echoes hello) :
    ((env.greet origin).exec Conn.iopt).wp
      (fun _ => Answered hello [(.onWritable, .fdWritable)] false) (Halted hello)
      ((v.started env).greeted origin) := by
  obtain ⟨heven, hgreeted, hreceived⟩ := h
  have hbusy := hb.greeted origin
  have htrace := trace_greeted (v.started env) origin
  cases origin with
  | connecting peer =>
      show Prog.wp (env.onConnect.exec Conn.iopt) _ _ _
      obtain ⟨arrivals, hcb⟩ := hr.onConnect
      rw [hcb, exec_meanwhile]
      exact ⟨hbusy, heven.more htrace ⟨rfl, rfl, rfl⟩ rfl rfl⟩
  | accepted f =>
      show Prog.wp (env.onAccept.exec Conn.iopt) _ _ _
      obtain ⟨arrivals, hcb | ⟨rfl, hcb⟩⟩ := hr.onAccept
      · rw [hcb, exec_meanwhile]
        show ((Cb.asyncWrite .done .done).exec Conn.iopt).wp _ _
          (((v.started env).greeted (.accepted f)).appended hello)
        exact stable_answered.exec within_asyncWrite
          ⟨hbusy.congr rfl rfl rfl rfl, heven.greeting hgreeted hreceived⟩
      · rw [hcb, exec_meanwhile]
        exact ⟨hbusy, heven.more htrace ⟨rfl, rfl, rfl⟩ rfl rfl⟩

/-- The greeting is appended before anything is read. -/
theorem echoAt_initHandler (origin : Origin)
    (hb : Busy [(origin.initHandler, .fdWritable)] true (v.started env))
    (h : EchoAt hello .pending v) (hr : env.Echoes hello) :
    (Conn.handle origin.initHandler env).wp (fun _ v' => ∃ st, At st v' ∧ EchoAt hello st v')
      (Halted hello) (v.started env) := by
  refine (wp_initHandler origin hb).mpr ?_
  split
  case isTrue => exact ⟨.gone, hb.removed, h.1.more rfl ⟨rfl, rfl, rfl⟩ rfl rfl⟩
  case isFalse =>
    refine Prog.wp_mono (exec_greet origin hb h hr) (fun _ v' hv' => ?_) fun _ _ he => he
    refine hv'.busy.wp_initialise.mpr ⟨.live, hv'.busy.initialised.live, ?_⟩
    exact hv'.even.more rfl ⟨rfl, rfl, rfl⟩ rfl rfl

end Handlers

/-- An invariant of the stages, so one of all runs. -/
theorem stageInv_echo (hello : List Byte) :
    StageInv (fun _ _ env => env.Echoes hello) (EchoAt hello) (Behind hello) fun _ => True where
  newborn v h := by
    obtain ⟨origin, -, htrace⟩ := h.origin
    refine ⟨⟨?_, ?_, h.inp, .inl ?_⟩, ?_, ?_⟩
    · show run ledgerStep [] v.trace = some v.out
      rw [htrace, h.out]
      rfl
    all_goals simp [Echoed, htrace, appendedBytes, greetedBytes, receivedBytes]
  ready st v ev h := by
    have heven : ∀ {v : Conn}, Even hello v → Even hello (v.ready ev) :=
      fun h => ⟨h.balanced, h.echoed, h.inp, h.once⟩
    cases st with
    | pending => exact ⟨heven h.1, h.2⟩
    | live => exact heven h
    | gone => exact heven h
  destroyed v h := ⟨h.balanced, h.echoed, h.inp, h.once⟩
  weaken st v h := by
    cases st with
    | pending => exact h.1.behind
    | live => exact Even.behind h
    | gone => exact Even.behind h
  onReadable v env hb hint h hok := echoAt_onReadable hb h hok
  onWritable v env hb hint h hok := echoAt_onWritable hb h hok
  initHandler v env origin hb h hok := echoAt_initHandler origin hb h hok

theorem Behind.sent {v : Conn} (h : Behind hello v) :
    sentBytes v.trace <+: greetedBytes hello v.trace ++ receivedBytes v.trace :=
  (List.prefix_append _ v.out).trans (ledger_flow h.balanced ▸ h.echoed)

/-- Together with the buffer it is all. -/
theorem Even.flow {v : Conn} (h : Even hello v) :
    sentBytes v.trace ++ v.out = greetedBytes hello v.trace ++ receivedBytes v.trace :=
  (ledger_flow h.balanced).trans h.echoed

end Conn

/-! ## The programs -/

/-- Every connection of the loop is behind; those of a loop that goes on are even. -/
abbrev Reactor.Echoing (hello : List Byte) (s : Reactor) : Prop :=
  AllLocal (fun v => ∃ st, Conn.At st v ∧ Conn.EchoAt hello st v) (Conn.Behind hello)
    (fun _ => True) s

/-- In a loop that goes on, every connection is even. -/
theorem Reactor.Echoing.even {s : Reactor} (h : s.Echoing hello) (hf : s.fault = none) {c : ConnId}
    (hc : c ∈ s.world.born) : Conn.Even hello (view c s.world) := by
  obtain ⟨st, -, heven⟩ := h.kept hf c hc
  cases st with
  | pending => exact heven.1
  | live => exact heven
  | gone => exact heven

/-- **What is read is written back.** What has been sent on a connection is a prefix of the greeting
and the bytes received, and while the loop goes on the rest of them is in `wbuffer` and nothing is
left in `rbuffer`. A connection is greeted at most once. -/
theorem echo_spec {ls : List ReactorLabel} {s : Reactor}
    (hok : AllSteps Reactor.step (Meets fun _ _ env => env.Echoes hello) Reactor.init ls)
    (hrun : run Reactor.step Reactor.init ls = some s) {c : ConnId} (hc : c ∈ s.world.born) :
    sentBytes (s.world.trace c) <+:
        greetedBytes hello (s.world.trace c) ++ receivedBytes (s.world.trace c) ∧
      greetedBytes hello (s.world.trace c) ∈ [[], hello] ∧
      (s.fault = none → (s.world.nios c).rbuffer.unread = [] ∧
        sentBytes (s.world.trace c) ++ (s.world.nios c).wbuffer.unread =
          greetedBytes hello (s.world.trace c) ++ receivedBytes (s.world.trace c)) := by
  have hall : s.Echoing hello := run_local (Conn.stageInv_echo hello).localInv hok hrun
  have hbehind : Conn.Behind hello (view c s.world) := hall.left c hc
  have honce : greetedBytes hello (s.world.trace c) = [] ∨
      greetedBytes hello (s.world.trace c) = hello := hbehind.once
  refine ⟨hbehind.sent, by simpa using honce, fun hf => ?_⟩
  have heven := hall.even hf hc
  exact ⟨heven.inp, heven.flow⟩

/-- A connection is greeted, and sends three bytes, of which the kernel takes back two at once. -/
def greetAndEcho : List ReactorLabel :=
  [.handOver 0 5 (.accepted .ipv4), .poll [(5, ⟨false, true, false, false⟩)],
    .dispatch 0 (simpleServer (fun _ => []) ⟨[], [.count 35], 0⟩),
    .poll [(5, ⟨true, false, false, false⟩)],
    .dispatch 0 (simpleServer (fun _ => []) ⟨[.bytes [7, 8, 9]], [.count 2], 0⟩)]

/-- A connection is greeted, and echoes three bytes, of which one has to wait. -/
theorem echo_spec_greetAndEcho :
    ∃ s, run Reactor.step Reactor.init greetAndEcho = some s ∧
      sentBytes (s.world.trace 0) ++ [9] = helloText ++ [7, 8, 9] := by
  have hend : ((run Reactor.step Reactor.init greetAndEcho).any fun s =>
      s.fault = none && s.world.born = [0] && (s.world.nios 0).wbuffer.unread = [9] &&
        greetedBytes helloText (s.world.trace 0) = helloText &&
          receivedBytes (s.world.trace 0) = [7, 8, 9]) = true := by
    decide +kernel
  obtain ⟨s, hs, heq⟩ := (Option.any_eq_true ..).mp hend
  simp only [Bool.and_eq_true, decide_eq_true_eq] at heq
  obtain ⟨⟨⟨⟨hfault, hborn⟩, hout⟩, hgreeted⟩, hreceived⟩ := heq
  have hok : AllSteps Reactor.step (Meets fun _ _ env => env.Echoes helloText) Reactor.init
      greetAndEcho := by
    refine allSteps_of_forall (fun l hl => meets_of_env fun i env heq => ?_) _
    subst heq
    simp only [greetAndEcho, List.mem_cons, ReactorLabel.dispatch.injEq, reduceCtorEq, false_or,
      List.not_mem_nil, or_false] at hl
    rcases hl with ⟨-, rfl⟩ | ⟨-, rfl⟩ <;> exact echoes_simpleServer _ _
  obtain ⟨-, -, heven⟩ := @echo_spec helloText _ s hok hs 0 (by rw [hborn]; exact .head _)
  obtain ⟨-, hflow⟩ := heven hfault
  rw [hout, hgreeted, hreceived] at hflow
  exact ⟨s, hs, hflow⟩

end Cppev
