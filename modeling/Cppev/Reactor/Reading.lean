import Cppev.Lib.Framing
import Cppev.Reactor.Handler

/-!
# Messages and events

`on_readable` clears `rbuffer` after `on_read_complete`, so an incomplete message that the callback
has left there is lost, and what follows is cut in the wrong place.

* `messages_of_stream`: if at every `on_readable` what was received before is complete
  (`Whole`), the messages taken over a run are those of the stream, however it was cut into events.
* `messages_differ`: one stream, cut in two ways, gives different messages.
-/

namespace Cppev

/-! ## Messages

A framing cuts a stream of bytes into messages. What the callback takes is what the framing finds in
the bytes at hand, and what is left is thrown away by `on_readable`. -/

section History

variable {μ : Type} (fr : Framing Byte μ)

/-- The stream that a connection has received. -/
def receivedBytes (tr : List Event) : List Byte :=
  tr.flatMap fun
    | .received bs _ => bs
    | _ => []

/-- The messages that its callbacks have taken. -/
def messages (tr : List Event) : List μ :=
  tr.flatMap fun
    | .consumed bs => (fr.parse bs).1
    | _ => []

/-- A callback that takes the complete messages, and then does `k` with them. -/
def Framing.reader (k : List μ → Cb) : Cb :=
  .inspect fun bs => .consume (bs.length - (fr.parse bs).2.length) (k (fr.parse bs).1)

/-- `on_read_complete` takes the complete messages; otherwise nobody closes the connection or takes
anything from its input. -/
structure Env.Reads (env : Env) : Prop where
  onAccept : env.onAccept.Within .noConsume
  onConnect : env.onConnect.Within .noConsume
  onReadComplete : ∃ k, env.onReadComplete = fr.reader k ∧ ∀ ms, (k ms).Within .noConsume
  onWriteComplete : env.onWriteComplete.Within .noConsume
  onClosed : env.onClosed.Within .noConsume

theorem Env.Reads.greet {env : Env} (h : env.Reads fr) (origin : Origin) :
    (env.greet origin).Within .noConsume := by
  cases origin with
  | accepted f => exact h.onAccept
  | connecting peer => exact h.onConnect

end History

/-! ## What is kept

Between handlers `rbuffer` is empty, and the messages taken so far are those of the stream so far
(`Parsed`). -/

namespace Conn

variable {μ : Type} {fr : Framing Byte μ}

/-- After a callback has taken `n` bytes of the input. -/
@[simps] def consumed (v : Conn) (n : Nat) : Conn :=
  { v with inp := v.inp.drop n, trace := v.trace ++ [.consumed (v.inp.take n)] }

theorem wp_reader {k : List μ → Cb} {Q : Unit → Conn → Prop} {E : Fault → Conn → Prop} {v : Conn} :
    ((fr.reader k).exec Conn.iopt).wp Q E v ↔
      ((k (fr.parse v.inp).1).exec Conn.iopt).wp Q E
        (v.consumed (v.inp.length - (fr.parse v.inp).2.length)) := Iff.rfl

/-- What the connection has received so far consists of complete messages. -/
def Whole (fr : Framing Byte μ) (v : Conn) : Prop := (fr.parse (receivedBytes v.trace)).2 = []

instance (fr : Framing Byte μ) (v : Conn) : Decidable (Whole fr v) :=
  inferInstanceAs (Decidable (_ = []))

/-- The messages taken are those of the stream. -/
def Parsed (fr : Framing Byte μ) (v : Conn) : Prop :=
  messages fr v.trace = (fr.parse (receivedBytes v.trace)).1

/-- An event that is neither input nor its consumption. -/
def Unread (evs : List Event) : Prop := receivedBytes evs = [] ∧ ∀ bs, .consumed bs ∉ evs

theorem messages_of_unread {evs : List Event} (h : Unread evs) : messages fr evs = [] := by
  refine List.flatMap_eq_nil_iff.mpr fun e he => ?_
  cases e with
  | consumed bs => exact absurd he (h.2 bs)
  | _ => rfl

theorem unread_sent (xs : List (List Byte)) : Unread (xs.map .sent) := by
  constructor
  · exact List.flatMap_eq_nil_iff.mpr fun e he => by
      obtain ⟨bs, -, rfl⟩ := List.mem_map.mp he
      rfl
  · simp

theorem Parsed.more {v v' : Conn} (h : Parsed fr v) {evs : List Event}
    (htrace : v'.trace = v.trace ++ evs) (hevs : Unread evs) : Parsed fr v' := by
  have hmsgs := @messages_of_unread _ fr _ hevs
  unfold Parsed messages receivedBytes at *
  rw [htrace, List.flatMap_append, List.flatMap_append, hmsgs, List.append_nil,
    show evs.flatMap _ = [] from hevs.1, List.append_nil]
  exact h

/-- Within a handler, with the messages taken those of the stream. -/
structure Reader (fr : Framing Byte μ) (table : List (IoHandler × FdEvent)) (polled : Bool)
    (inp : List Byte) (v : Conn) : Prop where
  busy : Busy table polled v
  parsed : Parsed fr v
  inp : v.inp = inp

/-- A handler that throws does not take messages from elsewhere. -/
abbrev Stops (fr : Framing Byte μ) : Fault → Conn → Prop := Thrown (fun _ => True) (Parsed fr)

section Callbacks

variable {table : List (IoHandler × FdEvent)} {polled : Bool} {inp : List Byte} {v : Conn}
  {env : Env}

theorem Reader.more (h : Reader fr table polled inp v) {v' : Conn} (hb : Busy table polled v')
    (hinp : v'.inp = v.inp) {evs : List Event} (htrace : v'.trace = v.trace ++ evs)
    (hevs : Unread evs) : Reader fr table polled inp v' :=
  ⟨hb, h.parsed.more htrace hevs, hinp.trans h.inp⟩

theorem stable_reader : Stable .noConsume (Reader fr table polled inp) (Stops fr) where
  append _ v bs h := h.more (h.busy.congr rfl rfl rfl rfl) rfl rfl ⟨rfl, by simp⟩
  consume h := h.elim
  write _ v h := by
    refine (wp_writeAll (.inl h.busy.closed)).mpr ?_
    split
    case h_1 => exact h.more h.busy.flushed rfl rfl (unread_sent _)
    case h_2 e he => exact ⟨e, rfl, trivial, h.parsed.more rfl (unread_sent _)⟩
  complete _ v h _ := h.more (h.busy.begun _) rfl rfl ⟨rfl, by simp⟩
  rearm _ v h _ := by
    cases polled with
    | true =>
        obtain ⟨i, hi⟩ := h.busy.isSome
        refine (wp_disarm h.busy.closed hi).mpr ?_
        refine (wp_arm (v := v.disarmed) _ h.busy.closed rfl).mpr ?_
        exact h.more (h.busy.disarmed.armed _ (.inr rfl)) rfl (List.append_assoc _ _ _)
          ⟨rfl, by simp⟩
    | false =>
        refine (wp_fdRemove_notPolled _ h.busy.closed h.busy.interest).mpr ?_
        exact ⟨_, rfl, trivial, h.parsed.more rfl ⟨rfl, by simp⟩⟩
  close h := h.elim

/-- After `on_closed` the connection is let go of. -/
theorem Reader.leaves (hcb : env.onClosed.Within .noConsume) (flags : Bool)
    (h : Reader fr fullTable true [] v) :
    Leaves env flags (fun _ v' => ∃ st, At st v' ∧ Parsed fr v' ∧ v'.inp = []) (Stops fr) v := by
  refine Leaves.intro (Reader fr fullTable true []) (fun _ h => h.busy)
    (fun _ => ⟨.live, h.busy.live, h.parsed, h.inp⟩) (fun _ => ?_) fun v' h' => ?_
  · exact stable_reader.exec hcb (h.more (h.busy.begun _) rfl rfl ⟨rfl, by simp⟩)
  · exact ⟨.gone, h'.busy.removed, h'.parsed.more rfl ⟨rfl, by simp⟩, h'.inp⟩

end Callbacks

/-! ## The handlers

Only `on_readable` takes messages. Under `Whole` there is nothing left behind when it clears the
buffer. -/

variable {v : Conn} {env : Env}

/-- The callback takes the messages of what has just been received. -/
theorem parsed_reader {v : Conn} (h : Parsed fr v) (hwhole : Whole fr v) (bs : List Byte)
    (ended : Bool) {v' : Conn} {evs : List Event} (hevs : Unread evs)
    (htrace : v'.trace = v.trace ++ [.received bs ended] ++ evs ++ [.consumed (fr.taken bs)]) :
    Parsed fr v' := by
  have hmsgs := @messages_of_unread _ fr _ hevs
  have hrec := hevs.1
  unfold Parsed Whole messages receivedBytes at *
  rw [htrace]
  simp only [List.flatMap_append, List.flatMap_cons, List.flatMap_nil, List.append_nil, hmsgs, hrec, h]
  rw [fr.parse_append_of_nil hwhole, (fr.taken_append_tail bs).2]

theorem reading_onReadable (hb : Busy fullTable true (v.started env)) (h : Parsed fr v)
    (hinp : v.inp = []) (hr : env.Reads fr) (hwhole : Whole fr v) :
    (Conn.handle .onReadable env).wp (fun _ v' => ∃ st, At st v' ∧ Parsed fr v' ∧ v'.inp = [])
      (Stops fr) (v.started env) := by
  refine (wp_onReadable hb.closed).mpr ?_
  split
  case h_1 e he => exact ⟨e, rfl, trivial, h⟩
  case h_2 =>
    obtain ⟨k, hk, hwithin⟩ := hr.onReadComplete
    rw [hk]
    have hinp' : ((v.started env).filled.begun .onReadComplete).inp =
        (deliver env.script.reads).bytes := by
      show v.inp ++ _ = _
      rw [hinp]
      rfl
    -- after the messages are taken, the rest of the callback does not touch the input
    refine wp_reader.mpr (Prog.wp_mono (stable_reader.exec (hwithin _)
      ⟨(hb.filled.begun .onReadComplete).congr rfl rfl rfl rfl, ?_, rfl⟩) (fun _ v' h' => ?_) fun _ _ he => he)
    · refine parsed_reader h hwhole (deliver env.script.reads).bytes (v.started env).endsHere
        (⟨rfl, by simp⟩ : Unread [.called .onReadComplete v.handlers]) ?_
      rw [consumed_trace, hinp']
      simp [Framing.taken]
    · exact Reader.leaves hr.onClosed _ ⟨h'.busy.cleared, h'.parsed, rfl⟩

theorem reading_onWritable (hb : Busy fullTable true (v.started env)) (h : Parsed fr v)
    (hinp : v.inp = []) (hr : env.Reads fr) :
    (Conn.handle .onWritable env).wp (fun _ v' => ∃ st, At st v' ∧ Parsed fr v' ∧ v'.inp = [])
      (Stops fr) (v.started env) := by
  have hstart : Reader fr fullTable true [] (v.started env) := ⟨hb, h, hinp⟩
  have hflushed : Reader fr fullTable true [] (v.started env).flushed :=
    hstart.more hb.flushed rfl rfl (unread_sent _)
  refine (wp_onWritable hb).mpr ?_
  split
  case h_1 e he => exact ⟨e, rfl, trivial, hflushed.parsed⟩
  case h_2 =>
    split
    case isFalse => exact hflushed.leaves hr.onClosed _
    case isTrue =>
      have hdrained : Reader fr fullTable false [] (v.started env).drained := by
        refine ⟨hb.drained, ?_, hinp⟩
        exact hflushed.parsed.more (List.append_assoc _ _ _) ⟨rfl, by simp⟩
      refine Prog.wp_mono (stable_reader.exec hr.onWriteComplete hdrained) (fun _ v' h' => ?_)
        fun _ _ he => he
      rw [h'.busy.closed]
      refine h'.busy.wp_rearm.mpr ?_
      exact Reader.leaves hr.onClosed _
        ⟨h'.busy.armed _ (.inl rfl), h'.parsed.more rfl ⟨rfl, by simp⟩, h'.inp⟩

theorem reading_initHandler (origin : Origin)
    (hb : Busy [(origin.initHandler, .fdWritable)] true (v.started env)) (h : Parsed fr v)
    (hinp : v.inp = []) (hr : env.Reads fr) :
    (Conn.handle origin.initHandler env).wp
      (fun _ v' => ∃ st, At st v' ∧ Parsed fr v' ∧ v'.inp = []) (Stops fr) (v.started env) := by
  refine (wp_initHandler origin hb).mpr ?_
  split
  case isTrue => exact ⟨.gone, hb.removed, Parsed.more h rfl ⟨rfl, by simp⟩, hinp⟩
  case isFalse =>
    have hgreeted : Reader fr [(.onWritable, .fdWritable)] false []
        ((v.started env).greeted origin) := by
      refine ⟨hb.greeted origin, ?_, hinp⟩
      exact Parsed.more h (trace_greeted _ origin) ⟨rfl, by simp⟩
    refine Prog.wp_mono (stable_reader.exec (hr.greet fr origin) hgreeted) (fun _ v' h' => ?_)
      fun _ _ he => he
    refine h'.busy.wp_initialise.mpr ⟨.live, h'.busy.initialised.live, ?_, h'.inp⟩
    exact h'.parsed.more rfl ⟨rfl, by simp⟩

theorem stageInv_parsed (fr : Framing Byte μ) :
    StageInv (fun v h env => env.Reads fr ∧ (h = .onReadable → v.Whole fr))
      (fun _ v => Parsed fr v ∧ v.inp = []) (Parsed fr) fun _ => True where
  newborn v h := by
    obtain ⟨origin, -, htrace⟩ := h.origin
    refine ⟨?_, h.inp⟩
    unfold Parsed
    rw [htrace]
    exact (congrArg Prod.fst fr.parse_nil).symm
  ready _ _ _ h := h
  destroyed _ h := h
  weaken _ _ h := h.1
  onReadable _ _ hb _ h hok := reading_onReadable hb h.1 h.2 hok.1 (hok.2 rfl)
  onWritable _ _ hb _ h hok := reading_onWritable hb h.1 h.2 hok.1
  initHandler _ _ origin hb h hok := reading_initHandler origin hb h.1 h.2 hok.1

end Conn

/-! ## The stream -/

/-- **Messages do not depend on the events.** If at every `on_readable` everything received before
is complete, the messages that the callbacks take are those of the stream. Two connections that
receive the same stream, in whatever pieces, take the same messages. -/
theorem messages_of_stream {μ : Type} (fr : Framing Byte μ) {ls ls' : List ReactorLabel}
    {s s' : Reactor}
    (hok : AllSteps Reactor.step
      (Meets fun v h env => env.Reads fr ∧ (h = .onReadable → v.Whole fr)) Reactor.init ls)
    (hok' : AllSteps Reactor.step
      (Meets fun v h env => env.Reads fr ∧ (h = .onReadable → v.Whole fr)) Reactor.init ls')
    (hrun : run Reactor.step Reactor.init ls = some s)
    (hrun' : run Reactor.step Reactor.init ls' = some s') {c c' : ConnId}
    (hc : c ∈ s.world.born) (hc' : c' ∈ s'.world.born)
    (hstream : receivedBytes (s.world.trace c) = receivedBytes (s'.world.trace c')) :
    messages fr (s.world.trace c) = (fr.parse (receivedBytes (s.world.trace c))).1 ∧
      messages fr (s.world.trace c) = messages fr (s'.world.trace c') := by
  have h : messages fr (s.world.trace c) = (fr.parse (receivedBytes (s.world.trace c))).1 :=
    (run_local (Conn.stageInv_parsed fr).localInv hok hrun).left c hc
  have h' : messages fr (s'.world.trace c') = (fr.parse (receivedBytes (s'.world.trace c'))).1 :=
    (run_local (Conn.stageInv_parsed fr).localInv hok' hrun').left c' hc'
  refine ⟨h, ?_⟩
  rw [h, h', hstream]

/-- `on_read_complete` takes the complete lines of what has come. -/
def Env.readingLines (bs : List Byte) : Env :=
  { Env.idle with
    script := ⟨[.bytes bs], [], 0⟩
    onReadComplete := (lines (10 : Byte)).reader fun _ => .done }

/-- A connection is accepted, and receives a stream in pieces. -/
def inPieces (pieces : List (List Byte)) : List ReactorLabel :=
  [.handOver 0 5 (.accepted .ipv4), .poll [(5, ⟨false, true, false, false⟩)],
    .dispatch 0 (.readingLines [])] ++
    pieces.flatMap fun bs => [.poll [(5, ⟨true, false, false, false⟩)],
      .dispatch 0 (.readingLines bs)]

theorem reads_inPieces (pieces : List (List Byte)) :
    AllSteps Reactor.step (Meets fun _ _ env => env.Reads (lines (10 : Byte))) Reactor.init
      (inPieces pieces) := by
  refine allSteps_of_forall (fun l hl => meets_of_env fun i env heq => ?_) _
  subst heq
  obtain ⟨bs, rfl⟩ : ∃ bs, env = .readingLines bs := by
    simp only [inPieces, List.mem_append, List.mem_cons, ReactorLabel.dispatch.injEq, reduceCtorEq,
      false_or, List.not_mem_nil, or_false, List.mem_flatMap] at hl
    rcases hl with ⟨-, rfl⟩ | ⟨bs, -, -, rfl⟩
    · exact ⟨[], rfl⟩
    · exact ⟨bs, rfl⟩
  exact ⟨trivial, trivial, ⟨fun _ => .done, rfl, fun _ => trivial⟩, trivial, trivial⟩

set_option maxRecDepth 10000 in
/-- Two lines, once in one piece and once in two. -/
theorem messages_of_stream_inPieces :
    ∃ s s', run Reactor.step Reactor.init (inPieces [[97, 10, 98, 10]]) = some s ∧
      run Reactor.step Reactor.init (inPieces [[97, 10], [98, 10]]) = some s' ∧
      messages (lines (10 : Byte)) (s.world.trace 0) =
        messages (lines (10 : Byte)) (s'.world.trace 0) := by
  have hend : ((run Reactor.step Reactor.init (inPieces [[97, 10, 98, 10]])).any fun s =>
      s.world.born = [0] && receivedBytes (s.world.trace 0) = [97, 10, 98, 10]) = true := by
    decide +kernel
  have hend' : ((run Reactor.step Reactor.init (inPieces [[97, 10], [98, 10]])).any fun s =>
      s.world.born = [0] && receivedBytes (s.world.trace 0) = [97, 10, 98, 10]) = true := by
    decide +kernel
  obtain ⟨s, hs, heq⟩ := (Option.any_eq_true ..).mp hend
  obtain ⟨s', hs', heq'⟩ := (Option.any_eq_true ..).mp hend'
  simp only [Bool.and_eq_true, decide_eq_true_eq] at heq heq'
  have hwhole : AllSteps Reactor.step
      (Meets fun v h _ => h = .onReadable → v.Whole (lines (10 : Byte))) Reactor.init
      (inPieces [[97, 10, 98, 10]]) := by
    decide +kernel
  have hwhole' : AllSteps Reactor.step
      (Meets fun v h _ => h = .onReadable → v.Whole (lines (10 : Byte))) Reactor.init
      (inPieces [[97, 10], [98, 10]]) := by
    decide +kernel
  have hok := (reads_inPieces _).and (fun _ _ h h' => h.and h') hwhole
  have hok' := (reads_inPieces _).and (fun _ _ h h' => h.and h') hwhole'
  refine ⟨s, s', hs, hs', (@messages_of_stream _ (lines (10 : Byte)) _ _ _ _ hok hok'
    hs hs' 0 0 ?_ ?_ ?_).2⟩
  · simp [heq.1]
  · simp [heq'.1]
  · rw [heq.2, heq'.2]

/-- One line, once in one piece and once in two: the second time, the `a` is lost. -/
theorem messages_differ :
    (∀ pieces, AllSteps Reactor.step (Meets fun _ _ env => env.Reads (lines (10 : Byte)))
      Reactor.init (inPieces pieces)) ∧
    ∃ s s', run Reactor.step Reactor.init (inPieces [[97, 10]]) = some s ∧
      run Reactor.step Reactor.init (inPieces [[97], [10]]) = some s' ∧
      receivedBytes (s.world.trace 0) = receivedBytes (s'.world.trace 0) ∧
      messages (lines (10 : Byte)) (s.world.trace 0) = [[97]] ∧
      messages (lines (10 : Byte)) (s'.world.trace 0) = [[]] := by
  have hend : ((run Reactor.step Reactor.init (inPieces [[97, 10]])).any fun s =>
      receivedBytes (s.world.trace 0) = [97, 10] &&
        messages (lines (10 : Byte)) (s.world.trace 0) = [[97]]) = true := by
    decide +kernel
  have hend' : ((run Reactor.step Reactor.init (inPieces [[97], [10]])).any fun s =>
      receivedBytes (s.world.trace 0) = [97, 10] &&
        messages (lines (10 : Byte)) (s.world.trace 0) = [[]]) = true := by
    decide +kernel
  obtain ⟨s, hs, heq⟩ := (Option.any_eq_true ..).mp hend
  obtain ⟨s', hs', heq'⟩ := (Option.any_eq_true ..).mp hend'
  simp only [Bool.and_eq_true, decide_eq_true_eq] at heq heq'
  exact ⟨reads_inPieces, s, s', hs, hs', heq.1.trans heq'.1.symm, heq.2, heq'.2⟩

end Cppev
