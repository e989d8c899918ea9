import Cppev.Reactor.Closing
import Cppev.Reactor.Echo

/-!
# The file server

The callbacks of `examples/file_transfer`: a read that ends in a newline is the name of a file, the
bytes of the file are put into `wbuffer`, and the connection is closed when they have been written.
What the cache gives for a name is a parameter here, and is the subject of `FileCache`.

* `file_server_spec`: at every moment, what a connection has been sent and what is left in its
  `wbuffer` make up the file that it asked for first, or nothing if it has not asked; and it is
  closed by the server only when the whole file has been sent.
-/

namespace Cppev

/-! ## The callbacks, and what they answer

The name is read off the bytes that have been read; the file is put into the write buffer at once.
So the answer of a connection is a function of its history. -/

/-- The file that a read asks for. Of an empty read, `filename[filename.size() - 1]` is a byte
outside of it, `past`. -/
def requested (past : Byte) (filename : List Byte) : Option (List Byte) :=
  if filename.getLastD past ≠ 10 then none else some filename.dropLast

/-- `on_read_complete` of `file_transfer_server.cc`, with what it does in `on_write_complete`. -/
def fileRequest (content : List Byte → List Byte) (past : Byte) : Cb :=
  .inspect fun filename =>
    match requested past filename with
    | none => .done
    | some name =>
      .consume filename.length
        (.append (content name) (.asyncWrite (.safelyClose .done) .done))

/-- The callbacks of the server; those that are not set do nothing. -/
def fileServer (content : List Byte → List Byte) (past : Byte) (arrivals : Arrivals)
    (script : Script) : Env where
  script := script
  onAccept := .meanwhile (arrivals .onAccept) .done
  onConnect := .meanwhile (arrivals .onConnect) .done
  onReadComplete := .meanwhile (arrivals .onReadComplete) (fileRequest content past)
  onWriteComplete := .meanwhile (arrivals .onWriteComplete) (.safelyClose .done)
  onClosed := .meanwhile (arrivals .onClosed) .done

/-- The name in the first read that asks for a file. -/
def request (past : Byte) (tr : List Event) : Option (List Byte) :=
  tr.findSome? fun
    | .received bs _ => requested past bs
    | _ => none

/-- The file that is asked for, or nothing. -/
def answer (content : List Byte → List Byte) (past : Byte) (tr : List Event) : List Byte :=
  ((request past tr).map content).getD []

variable {content : List Byte → List Byte} {past : Byte}

/-- The first read that asks is the one. -/
theorem request_append (tr tr' : List Event) :
    request past (tr ++ tr') = (request past tr).or (request past tr') := List.findSome?_append

/-- Without a request there is no new answer. -/
theorem answer_append (tr tr' : List Event) (h : request past tr' = none) :
    answer content past (tr ++ tr') = answer content past tr := by
  unfold answer
  rw [request_append, h, Option.or_none]

/-- Neither input, nor output, nor the end. -/
def Event.silent : Event → Bool
  | .received _ _ | .appended _ | .closed => false
  | _ => true

/-! ### Events that ask for nothing -/

/-- Events that do not matter to the account. -/
def Silent (evs : List Event) : Prop := evs.all Event.silent = true

/-- Nothing is put into the write buffer. -/
theorem Silent.appended {evs : List Event} (h : Silent evs) : appendedBytes evs = [] := by
  refine List.flatMap_eq_nil_iff.mpr fun e he => ?_
  have hsilent := List.all_eq_true.mp h e he
  cases e <;> first | rfl | cases hsilent

theorem Silent.request {evs : List Event} (h : Silent evs) : request past evs = none := by
  refine List.findSome?_eq_none_iff.mpr fun e he => ?_
  have hsilent := List.all_eq_true.mp h e he
  cases e <;> first | rfl | cases hsilent

theorem Silent.opened {evs : List Event} (h : Silent evs) : .closed ∉ evs := fun he => by
  cases List.all_eq_true.mp h _ he

theorem silent_sent (xs : List (List Byte)) : Silent (xs.map .sent) := by
  refine List.all_eq_true.mpr fun e he => ?_
  obtain ⟨bs, -, rfl⟩ := List.mem_map.mp he
  rfl

/-! ### The callbacks of the server -/

/-- Callbacks that serve files. The file that is asked for is as `content` says; of the others
nothing is known. -/
structure Env.ServesFiles (content : List Byte → List Byte) (past : Byte) (env : Env) : Prop where
  onAccept : ∃ arrivals, env.onAccept = .meanwhile arrivals .done
  onConnect : ∃ arrivals, env.onConnect = .meanwhile arrivals .done
  onReadComplete : ∃ arrivals file,
    env.onReadComplete = .meanwhile arrivals (fileRequest file past) ∧
    ∀ name, requested past (deliver env.script.reads).bytes = some name → file name = content name
  onWriteComplete : ∃ arrivals, env.onWriteComplete = .meanwhile arrivals (.safelyClose .done)
  onClosed : ∃ arrivals, env.onClosed = .meanwhile arrivals .done

/-- The example server, with the files of `content`. -/
theorem servesFiles_fileServer (arrivals : Arrivals) (script : Script) :
    (fileServer content past arrivals script).ServesFiles content past :=
  ⟨⟨_, rfl⟩, ⟨_, rfl⟩, ⟨_, _, rfl, fun _ _ => rfl⟩, ⟨_, rfl⟩, ⟨_, rfl⟩⟩

/-- Connections that come along in the meantime do not concern this one. -/
theorem play_meanwhile (arrivals : List (ConnId × Int × Origin)) (cb : Cb) (polled : Bool) :
    (Cb.meanwhile arrivals cb).play polled = cb.play polled := by
  induction arrivals with
  | nil => rfl
  | cons a arrivals ih => exact ih

namespace Conn

/-! ## What is kept

`Account` is the claim: what has been sent and what is left in the buffer is the answer. `Serving`
adds that a connection that still reads has asked for nothing, so that its buffer is empty. -/

/-- The account of a connection. -/
structure Account (content : List Byte → List Byte) (past : Byte) (v : Conn) : Prop where
  balanced : Balanced v
  answered : appendedBytes v.trace = answer content past v.trace
  closed : .closed ∈ v.trace → v.out = [] ∧ (request past v.trace).isSome = true

/-- That of a connection that the server has not closed. -/
structure Serving (content : List Byte → List Byte) (past : Byte) (v : Conn) : Prop where
  balanced : Balanced v
  answered : appendedBytes v.trace = answer content past v.trace
  opened : .closed ∉ v.trace

/-- The claim is a part of what is kept. -/
theorem Serving.account {v : Conn} (h : Serving content past v) : Account content past v :=
  ⟨h.balanced, h.answered, fun hclosed => absurd hclosed h.opened⟩

/-- What has been put into the buffer, one history after another. -/
theorem appendedBytes_append (tr tr' : List Event) :
    appendedBytes (tr ++ tr') = appendedBytes tr ++ appendedBytes tr' := List.flatMap_append ..

/-- A step that neither asks nor answers. -/
theorem Serving.more {v v' : Conn} (h : Serving content past v) {evs : List Event}
    (htrace : v'.trace = v.trace ++ evs) (hsilent : Silent evs)
    (hrun : run ledgerStep v.out evs = some v'.out) : Serving content past v' := by
  refine ⟨h.balanced.more htrace hrun, ?_, ?_⟩
  · rw [htrace, appendedBytes_append, hsilent.appended, List.append_nil, h.answered,
      answer_append _ _ hsilent.request]
  · rw [htrace, List.mem_append, not_or]
    exact ⟨h.opened, hsilent.opened⟩

/-- Writing moves bytes from the buffer to what has been sent. -/
theorem Serving.flushed {v : Conn} (h : Serving content past v) :
    Serving content past v.flushed := by
  refine h.more rfl (silent_sent _) ?_
  have hrun := run_ledgerStep_sent (flush 1024 1024 v.out v.script.writes).sent
    (flush 1024 1024 v.out v.script.writes).pending
  rwa [flush_flow] at hrun

/-- The beginning of a handler changes neither. -/
theorem Serving.started {v : Conn} {env : Env} (h : Serving content past v) :
    Serving content past (v.started env) := ⟨h.balanced, h.answered, h.opened⟩

/-- The whole file has been sent, and the connection is closed. -/
theorem Serving.finished {v : Conn} (h : Serving content past v) (hout : v.out = [])
    (hrequest : (request past v.trace).isSome = true) : Account content past v.finished := by
  refine ⟨h.balanced.more rfl rfl, ?_, fun _ => ⟨hout, ?_⟩⟩
  · rw [finished_trace, appendedBytes_append, h.answered, answer_append _ _ rfl]
    exact List.append_nil _
  · rw [finished_trace, request_append]
    simp [hrequest]

/-! ## From handler to handler

Two places matter between handlers: a connection that reads, and one whose file is on its way
out. -/

/-- The account in each stage; while epoll waits for input, the connection has not asked yet. -/
def ServeAt (content : List Byte → List Byte) (past : Byte) : Stage → Conn → Prop
  | .pending, v => Serving content past v ∧ v.inp = [] ∧ v.out = [] ∧ request past v.trace = none
  | .live, v => Serving content past v ∧ v.inp = [] ∧
      if v.interest = forReadable then v.out = [] ∧ request past v.trace = none
      else (request past v.trace).isSome = true
  | .gone, v => Account content past v

abbrev Unserved (content : List Byte → List Byte) (past : Byte) : Fault → Conn → Prop :=
  Thrown (fun _ => True) (Account content past)

/-- `rbuffer` goes into the request, and the file into `wbuffer`. -/
@[simps] def asked (v : Conn) (bs : List Byte) : Conn :=
  { v with
    inp := v.inp.drop v.inp.length
    out := v.out ++ bs
    trace := (v.trace ++ [.consumed (v.inp.take v.inp.length)]) ++ [.appended bs] }

/-! ## The handlers

For each of the four: from what is kept before it to what is kept after it. The rules for the two
parts of the callback are proved once, in `Rules`. -/

section Handlers

variable {v : Conn} {env : Env}

/-- `on_read_complete` for a read that asks for nothing. -/
theorem Serving.read (h : Serving content past v) (hnone : request past v.trace = none)
    (hreq : requested past (deliver v.script.reads).bytes = none) :
    Serving content past (v.filled.begun .onReadComplete) ∧
      request past (v.filled.begun .onReadComplete).trace = none := by
  have htrace : (v.filled.begun .onReadComplete).trace = v.trace ++
      [.received (deliver v.script.reads).bytes v.endsHere, .called .onReadComplete v.handlers] := by
    simp
  have hevs : request past [.received (deliver v.script.reads).bytes v.endsHere,
      .called .onReadComplete v.handlers] = none := by
    simp [request, hreq]
  refine ⟨⟨h.balanced.more htrace rfl, ?_, ?_⟩, ?_⟩
  · rw [htrace, appendedBytes_append, h.answered, answer_append _ _ hevs]
    exact List.append_nil _
  · rw [htrace, List.mem_append, not_or]
    exact ⟨h.opened, by simp⟩
  · rw [htrace, request_append, hnone, hevs]
    rfl

/-- Up to `async_write`, for a read that asks for the file `name`. -/
theorem Serving.asked (h : Serving content past v) (hinp : v.inp = [])
    (hnone : request past v.trace = none) {name : List Byte}
    (hreq : requested past (deliver v.script.reads).bytes = some name) :
    Serving content past ((v.filled.begun .onReadComplete).asked (content name)) ∧
      request past ((v.filled.begun .onReadComplete).asked (content name)).trace = some name := by
  let bs := (deliver v.script.reads).bytes
  let evs : List Event := [.received bs v.endsHere, .called .onReadComplete v.handlers,
    .consumed bs, .appended (content name)]
  have htrace : ((v.filled.begun .onReadComplete).asked (content name)).trace = v.trace ++ evs := by
    simp [hinp, bs, evs]
  have hrequest : request past (v.trace ++ evs) = some name := by
    rw [request_append, hnone]
    simp [request, evs, bs, hreq]
  refine ⟨⟨h.balanced.more htrace rfl, ?_, ?_⟩, htrace ▸ hrequest⟩
  · have hbefore : appendedBytes v.trace = [] := by
      rw [h.answered, answer, hnone]
      rfl
    rw [htrace, appendedBytes_append, hbefore, answer, hrequest]
    simp [appendedBytes, evs]
  · rw [htrace, List.mem_append, not_or]
    exact ⟨h.opened, by simp [evs]⟩

/-- `on_closed` does nothing. -/
theorem serveAt_leaves (hr : env.ServesFiles content past) (flags : Bool)
    (hb : Busy fullTable true v) (h : ServeAt content past .live v) :
    Leaves env flags (fun _ v' => ∃ st, At st v' ∧ ServeAt content past st v')
      (Unserved content past) v := by
  refine Leaves.intro (fun v' => Busy fullTable true v' ∧ Serving content past v') (fun _ h => h.1)
    (fun _ => ⟨.live, hb.live, h⟩) (fun _ => ?_) fun v' hv' => ?_
  · obtain ⟨arrivals, hcb⟩ := hr.onClosed
    rw [hcb, exec_meanwhile]
    exact ⟨hb.begun _, h.1.more rfl rfl rfl⟩
  · have hremoved : Serving content past v'.removed := hv'.2.more (removed_trace v') rfl rfl
    exact ⟨.gone, hv'.1.removed, hremoved.account⟩

theorem request_isSome {tr : List Event} (h : (request past tr).isSome = true) (evs : List Event) :
    (request past (tr ++ evs)).isSome = true := by
  rw [request_append]
  simp [h]

/-- The rest of the file goes out, and the connection is closed. -/
theorem Serving.sent (h : Serving content past v) (hsent : v.flushed.out = [])
    (hrequest : (request past v.trace).isSome = true) :
    Account content past (v.flushed.begun .onWriteComplete).finished := by
  have hbegun : Serving content past (v.flushed.begun .onWriteComplete) := by
    refine h.flushed.more (begun_trace _ _) rfl ?_
    show run ledgerStep v.flushed.out _ = some v.flushed.out
    rw [hsent]
    rfl
  refine hbegun.finished hsent ?_
  rw [begun_trace, flushed_trace]
  exact request_isSome (request_isSome hrequest _) _

/-- The rest of the file has to wait. -/
theorem Serving.waits (h : Serving content past v) (hinp : v.inp = [])
    (hrequest : (request past v.trace).isSome = true) :
    ServeAt content past .live (v.flushed.disarmed.armed .fdWritable) := by
  refine ⟨(h.flushed.more (disarmed_trace _) rfl rfl).more (armed_trace _ _) rfl rfl, hinp, ?_⟩
  show if forWritable = forReadable then _ else _
  rw [if_neg (by decide), armed_trace, disarmed_trace, flushed_trace]
  exact request_isSome (request_isSome (request_isSome hrequest _) _) _

section Rules

variable {Q : Unit → Conn → Prop} {E : Fault → Conn → Prop}

/-! ### The callback that answers

Either there is no whole request yet, or the file is written and the connection is closed when it is
out. -/

/-- A read without a request leaves all as it is. -/
theorem wp_fileRequest_none (hreq : requested past v.inp = none) :
    ((fileRequest content past).exec Conn.iopt).wp Q E v ↔ Q () v := by
  show Prog.wp (Cb.exec Conn.iopt (match requested past v.inp with
    | none => .done
    | some name => .consume v.inp.length
        (.append (content name) (.asyncWrite (.safelyClose .done) .done)))) Q E v ↔ _
  rw [hreq]
  rfl

/-- One with a request puts the file into the buffer and writes. -/
theorem wp_fileRequest_some {name : List Byte} (hreq : requested past v.inp = some name) :
    ((fileRequest content past).exec Conn.iopt).wp Q E v ↔
      ((Cb.asyncWrite (.safelyClose .done) .done).exec Conn.iopt).wp Q E
        (v.asked (content name)) := by
  show Prog.wp (Cb.exec Conn.iopt (match requested past v.inp with
    | none => .done
    | some name => .consume v.inp.length
        (.append (content name) (.asyncWrite (.safelyClose .done) .done)))) Q E v ↔ _
  rw [hreq]
  rfl

/-- `async_write` of the file, where epoll knows the descriptor. -/
theorem wp_sendFile {table : List (IoHandler × FdEvent)} (hb : Busy table true v) :
    ((Cb.asyncWrite (.safelyClose .done) .done).exec Conn.iopt).wp Q E v ↔
      match Nstream.thrown (flush 1024 1024 v.out v.script.writes).stop with
      | .error e => E (.exn e) v.flushed
      | .ok _ =>
        if v.flushed.out = [] then Q () (v.flushed.begun .onWriteComplete).finished
        else Q () (v.flushed.disarmed.armed .fdWritable) := by
  obtain ⟨i, hi⟩ := hb.isSome
  refine (Prog.wp_bind _ _).trans ((wp_asyncWrite _).trans ((wp_writeAll (.inl hb.closed)).trans ?_))
  cases Nstream.thrown (flush 1024 1024 v.out v.script.writes).stop with
  | error e => rfl
  | ok _ =>
      show (if v.flushed.out = [] then _ else _) ↔ _
      split
      case isTrue =>
        refine (Prog.wp_bind _ _).trans ?_
        refine (Prog.wp_bind _ _).trans ?_
        exact wp_safelyClose (v := v.flushed.begun .onWriteComplete) hb.closed
      case isFalse =>
        refine (wp_disarm (v := v.flushed) hb.closed hi).trans ?_
        exact wp_arm (v := v.flushed.disarmed) _ hb.closed rfl

end Rules

/-- A connection that is closed by the callback is not let go of as well. -/
theorem flags_of_leavesWell {flags : Bool} {io : Io} (hclosed : io.closed = true)
    (hwell : io.LeavesWell env flags) : flags = false := by
  cases flags with
  | false => rfl
  | true =>
      have hopen := (hwell rfl).1
      rw [hclosed] at hopen
      cases hopen

/-- What the whole callback does when everything can be written at once. -/
theorem play_sendFile (polled : Bool) (hcl : v.closed = false)
    (hthrown : Nstream.thrown (flush 1024 1024 v.out v.script.writes).stop = .ok ())
    (hsent : v.flushed.out = []) :
    (Cb.asyncWrite (.safelyClose .done) .done).play polled v.io =
      .ok (v.flushed.begun .onWriteComplete).finished.io := by
  have hwrite : v.io.write = .ok v.flushed.io := by
    have hopen : ¬ (v.io.closed = true ∧ v.io.out ≠ []) := fun hshut => by
      rw [Conn.io_closed, hcl] at hshut
      exact nomatch hshut.1
    rw [Io.write, if_neg hopen]
    simp only [Conn.io, hthrown]
    rfl
  show (v.io.write.bind fun io' => if io'.out = [] then (Cb.safelyClose .done).play polled io'
    else io'.wait polled).bind (Cb.done.play polled) = _
  rw [hwrite]
  show (if v.flushed.out = [] then _ else _ : Except Trouble Io).bind _ = _
  rw [if_pos hsent]
  show (if v.closed = true then _ else _ : Except Trouble Io).bind _ = _
  rw [hcl]
  rfl

/-! ### Reading and writing -/

/-- Who gets the whole file in answer to a read has not ended the stream. -/
theorem flags_onReadable (hb : Busy fullTable true (v.started env))
    (hr : env.ServesFiles content past) (hwell : ClosesWell v .onReadable env) {name : List Byte}
    {w : Conn} (hw : w = ((v.started env).filled.begun .onReadComplete).asked (content name))
    (hreq : requested past (deliver env.script.reads).bytes = some name)
    (hinp : (v.started env).filled.inp = (deliver env.script.reads).bytes)
    (hthrown : Nstream.thrown (flush 1024 1024 w.out w.script.writes).stop = .ok ())
    (hsent : w.flushed.out = []) : (w.flushed.eof || w.flushed.reset) = false := by
  obtain ⟨arrivals, file, hcb, hfile⟩ := hr.onReadComplete
  have hcl : v.closed = false := hb.closed
  have hplay : (fileRequest file past).play true (v.started env).filled.io =
      .ok (w.flushed.begun .onWriteComplete).finished.io := by
    show Cb.play true (match requested past (v.started env).filled.inp with
      | none => .done
      | some name => .consume (v.started env).filled.inp.length
          (.append (file name) (.asyncWrite (.safelyClose .done) .done)))
        (v.started env).filled.io = _
    rw [hinp, hreq, ← play_sendFile (v := w) true (hw ▸ hcl) hthrown hsent, hw, ← hfile name hreq,
      ← hinp]
    rfl
  have hsafe : Safe _ (env.onReadComplete.play true (v.started env).filled.io) := hwell
  rw [hcb, play_meanwhile, hplay] at hsafe
  have hflags := flags_of_leavesWell rfl hsafe
  subst hw
  exact hflags

/-- `on_readable`: a read asks or does not; if it asks, the file goes out at once or waits for the
socket. -/
theorem serveAt_onReadable (hb : Busy fullTable true (v.started env))
    (hint : v.interest = forReadable) (h : ServeAt content past .live v)
    (hr : env.ServesFiles content past) (hwell : ClosesWell v .onReadable env) :
    (Conn.handle .onReadable env).wp (fun _ v' => ∃ st, At st v' ∧ ServeAt content past st v')
      (Unserved content past) (v.started env) := by
  obtain ⟨hserving, hinp, hasking⟩ := h
  rw [if_pos hint] at hasking
  obtain ⟨hout, hnone⟩ := hasking
  have hw : ((v.started env).filled.begun .onReadComplete).inp =
      (deliver env.script.reads).bytes := by
    simp [hinp]
  refine (wp_onReadable hb.closed).mpr ?_
  split
  case h_1 e he =>
    -- `read_all` has thrown: nothing has been answered
    exact ⟨e, rfl, trivial, hserving.balanced, hserving.answered, hserving.account.closed⟩
  case h_2 =>
    obtain ⟨arrivals, file, hcb, hfile⟩ := hr.onReadComplete
    rw [hcb, exec_meanwhile]
    cases hreq : requested past (deliver env.script.reads).bytes with
    | none =>
        refine (wp_fileRequest_none (hw ▸ hreq)).mpr ?_
        obtain ⟨hread, hstill⟩ := hserving.started.read hnone hreq
        refine serveAt_leaves hr _ ((hb.filled.begun _).cleared) ⟨?_, rfl, ?_⟩
        · exact ⟨hread.balanced, hread.answered, hread.opened⟩
        · show if v.interest = forReadable then _ else _
          rw [if_pos hint]
          exact ⟨hout, hstill⟩
    | some name =>
        obtain ⟨hasked, hrequest⟩ := hserving.started.asked (v := v.started env) hinp hnone hreq
        have hbusy : Busy fullTable true (((v.started env).filled.begun .onReadComplete).asked
            (content name)) := (hb.filled.begun .onReadComplete).congr rfl rfl rfl rfl
        refine (wp_fileRequest_some (hw ▸ hreq)).mpr ?_
        rw [hfile name hreq]
        refine (wp_sendFile hbusy).mpr ?_
        split
        case h_1 e he => exact ⟨e, rfl, trivial, hasked.flushed.account⟩
        case h_2 hthrown =>
          split
          case isTrue hsent =>
            -- all of the file is out, and the callback has closed the connection
            have hflags := flags_onReadable hb hr hwell rfl hreq hw hthrown hsent
            show Leaves env (_ || _) _ _ _
            unfold Leaves
            rw [if_neg]
            · have hdone := hasked.sent hsent (by rw [hrequest]; rfl)
              exact ⟨.gone, ⟨rfl, rfl, hbusy.queued⟩, hdone.balanced, hdone.answered, hdone.closed⟩
            · exact Bool.eq_false_iff.mp hflags
          case isFalse hleft =>
            -- the rest of the file waits for `on_writable`
            have hwaits := hasked.waits (by simp) (by rw [hrequest]; rfl)
            refine serveAt_leaves hr _ ((hbusy.flushed.disarmed.armed _ (.inr rfl)).cleared) ?_
            exact ⟨⟨hwaits.1.balanced, hwaits.1.answered, hwaits.1.opened⟩, rfl, hwaits.2.2⟩

/-- The rest has gone out, and the connection is closed by the callback only. -/
theorem flags_onWritable (hb : Busy fullTable true (v.started env))
    (hr : env.ServesFiles content past) (hwell : ClosesWell v .onWritable env)
    (hsent : (v.started env).flushed.out = []) :
    ((v.started env).flushed.eop || (v.started env).flushed.reset) = false := by
  obtain ⟨arrivals, hcb⟩ := hr.onWriteComplete
  have hcl : (v.started env).flushed.io.closed = false := hb.closed
  have hplay : (Cb.safelyClose .done).play false (v.started env).flushed.io =
      .ok (v.started env).flushed.finished.io := by
    show (if (v.started env).flushed.io.closed = true then _ else _ : Except Trouble Io) = _
    rw [hcl]
    rfl
  have hsafe := hwell.1 hsent
  rw [hcb, play_meanwhile, hplay] at hsafe
  exact flags_of_leavesWell rfl hsafe

/-- `on_writable`: the rest of the file goes out, or some of it. -/
theorem serveAt_onWritable (hb : Busy fullTable true (v.started env))
    (hint : v.interest = forWritable) (h : ServeAt content past .live v)
    (hr : env.ServesFiles content past) (hwell : ClosesWell v .onWritable env) :
    (Conn.handle .onWritable env).wp (fun _ v' => ∃ st, At st v' ∧ ServeAt content past st v')
      (Unserved content past) (v.started env) := by
  obtain ⟨hserving, hinp, hasking⟩ := h
  rw [if_neg (by rw [hint]; decide)] at hasking
  refine (wp_onWritable hb).mpr ?_
  split
  case h_1 e he => exact ⟨e, rfl, trivial, hserving.started.flushed.account⟩
  case h_2 =>
    split
    case isTrue hsent =>
      have hflags := flags_onWritable hb hr hwell hsent
      obtain ⟨arrivals, hcb⟩ := hr.onWriteComplete
      rw [hcb, exec_meanwhile]
      refine (Prog.wp_bind _ _).mpr
        ((wp_safelyClose (v := (v.started env).drained) hb.closed).mpr ((Prog.wp_pure _).mpr ?_))
      have hbegun : Serving content past (v.started env).drained := by
        refine (hserving.started.flushed.more (disarmed_trace _) rfl rfl).more (begun_trace _ _) rfl
          ?_
        show run ledgerStep (v.started env).flushed.out _ = some (v.started env).flushed.out
        rw [hsent]
        rfl
      have hdone : Account content past (v.started env).drained.finished := by
        refine hbegun.finished hsent ?_
        rw [drained_trace]
        exact request_isSome hasking _
      rw [if_pos (finished_closed _)]
      show if ((v.started env).flushed.eop || (v.started env).flushed.reset) = true then _ else _
      rw [if_neg (Bool.eq_false_iff.mp hflags)]
      exact ⟨.gone, ⟨rfl, rfl, hb.queued⟩, hdone⟩
    case isFalse hleft =>
      refine serveAt_leaves hr _ hb.flushed ⟨hserving.started.flushed, hinp, ?_⟩
      show if v.interest = forReadable then _ else _
      rw [if_neg (by rw [hint]; decide), flushed_trace]
      exact request_isSome hasking _

/-- The first event of a connection: nothing has been asked. -/
theorem serveAt_initHandler (origin : Origin)
    (hb : Busy [(origin.initHandler, .fdWritable)] true (v.started env))
    (h : ServeAt content past .pending v) (hr : env.ServesFiles content past) :
    (Conn.handle origin.initHandler env).wp
      (fun _ v' => ∃ st, At st v' ∧ ServeAt content past st v') (Unserved content past)
      (v.started env) := by
  obtain ⟨hserving, hinp, hout, hnone⟩ := h
  have hcb : ∃ arrivals, env.greet origin = .meanwhile arrivals .done := by
    cases origin with
    | accepted f => exact hr.onAccept
    | connecting peer => exact hr.onConnect
  refine (wp_initHandler origin hb).mpr ?_
  split
  case isTrue =>
    have hremoved : Serving content past (v.started env).removed :=
      hserving.started.more (removed_trace _) rfl rfl
    exact ⟨.gone, hb.removed, hremoved.account⟩
  case isFalse =>
    obtain ⟨arrivals, hcb⟩ := hcb
    rw [hcb, exec_meanwhile]
    have hgreeted : Serving content past ((v.started env).greeted origin) := by
      cases origin <;> exact hserving.started.more (trace_greeted _ _) rfl rfl
    have hinp' : ((v.started env).greeted origin).inp = [] := by cases origin <;> exact hinp
    have hout' : ((v.started env).greeted origin).out = [] := by cases origin <;> exact hout
    have hbusy : Busy [(.onWritable, .fdWritable)] false ((v.started env).greeted origin) :=
      hb.greeted origin
    refine hbusy.wp_initialise.mpr ⟨.live, hbusy.initialised.live, ?_⟩
    refine ⟨hgreeted.more (initialised_trace _) rfl rfl, hinp', ?_⟩
    show if forReadable = forReadable then _ else _
    rw [if_pos rfl, initialised_trace, trace_greeted]
    refine ⟨hout', ?_⟩
    rw [request_append, request_append, started_trace, hnone]
    cases origin <;> rfl

/-- So it is an invariant of the stages of a connection, and the library of `Stage` gives it for
whole runs. -/
theorem stageInv_serve (content : List Byte → List Byte) (past : Byte) :
    StageInv (fun v h env => env.ServesFiles content past ∧ ClosesWell v h env)
      (ServeAt content past) (Account content past) fun _ => True where
  newborn v h := by
    obtain ⟨origin, -, htrace⟩ := h.origin
    refine ⟨⟨?_, ?_, ?_⟩, h.inp, h.out, ?_⟩
    · show run ledgerStep [] v.trace = some v.out
      rw [htrace, h.out]
      rfl
    · rw [htrace]
      rfl
    · rw [htrace]
      simp
    · rw [htrace]
      rfl
  ready st v ev h := by
    have hready : ∀ {v : Conn}, Serving content past v → Serving content past (v.ready ev) :=
      fun h => ⟨h.balanced, h.answered, h.opened⟩
    cases st with
    | pending => exact ⟨hready h.1, h.2⟩
    | live => exact ⟨hready h.1, h.2⟩
    | gone => exact ⟨h.balanced, h.answered, h.closed⟩
  destroyed v h := ⟨h.balanced, h.answered, h.closed⟩
  weaken st v h := by
    cases st with
    | pending => exact h.1.account
    | live => exact h.1.account
    | gone => exact h
  onReadable v env hb hint h hok := serveAt_onReadable hb hint h hok.1 hok.2
  onWritable v env hb hint h hok := serveAt_onWritable hb hint h hok.1 hok.2
  initHandler v env origin hb h hok := serveAt_initHandler origin hb h hok.1

end Handlers

end Conn

/-! ## The server -/

theorem Conn.Account.flow {v : Conn} (h : v.Account content past) :
    sentBytes v.trace ++ v.out = answer content past v.trace :=
  (ledger_flow h.balanced).trans h.answered

/-- A connection that the server has closed has been sent all of its answer. -/
theorem Conn.Account.sent {v : Conn} (h : v.Account content past) (hclosed : .closed ∈ v.trace) :
    ∃ name, request past v.trace = some name ∧ sentBytes v.trace = content name := by
  obtain ⟨hout, hasked⟩ := h.closed hclosed
  obtain ⟨name, hname⟩ := Option.isSome_iff_exists.mp hasked
  refine ⟨name, hname, ?_⟩
  have hflow := h.flow
  rw [hout, List.append_nil] at hflow
  rw [hflow, answer, hname]
  rfl

/-- By `stageInv_serve`, for every connection of every run. -/
theorem account_of_run {ls : List ReactorLabel} {s : Reactor}
    (hok : AllSteps Reactor.step
      (Meets fun v h env => env.ServesFiles content past ∧ v.ClosesWell h env) Reactor.init ls)
    (hrun : run Reactor.step Reactor.init ls = some s) {c : ConnId} (hc : c ∈ s.world.born) :
    Conn.Account content past (view c s.world) :=
  (run_local (Conn.stageInv_serve content past).localInv hok hrun).left c hc

/-- **A file for a name.** Where the callbacks close well, what a connection has been sent and what
is left in its `wbuffer` make up the file that it asked for first; it is closed by the server only
when it has asked and the whole file has been sent. -/
theorem file_server_spec (content : List Byte → List Byte) (past : Byte) {ls : List ReactorLabel}
    {s : Reactor}
    (hok : AllSteps Reactor.step
      (Meets fun v h env => env.ServesFiles content past ∧ v.ClosesWell h env) Reactor.init ls)
    (hrun : run Reactor.step Reactor.init ls = some s) {c : ConnId} (hc : c ∈ s.world.born) :
    sentBytes (s.world.trace c) ++ (s.world.nios c).wbuffer.unread =
        answer content past (s.world.trace c) ∧
      (.closed ∈ s.world.trace c → ∃ name, request past (s.world.trace c) = some name ∧
        sentBytes (s.world.trace c) = content name) := by
  have haccount := account_of_run hok hrun hc
  exact ⟨haccount.flow, haccount.sent⟩

/-- The client asks for the file `A`, of which the kernel takes `taken` bytes at first. -/
def askForFile (content : List Byte → List Byte) (taken : Nat) : List ReactorLabel :=
  [.handOver 0 5 (.accepted .ipv4), .poll [(5, ⟨false, true, false, false⟩)],
    .dispatch 0 (fileServer content 0 (fun _ => []) ⟨[], [], 0⟩),
    .poll [(5, ⟨true, false, false, false⟩)],
    .dispatch 0 (fileServer content 0 (fun _ => []) ⟨[.bytes [65, 10]], [.count taken], 0⟩),
    .poll [(5, ⟨false, true, false, false⟩)],
    .dispatch 0 (fileServer content 0 (fun _ => []) ⟨[], [.count 3], 0⟩)]

/-- A client asks for a file, which does not fit into one write. -/
theorem file_server_spec_askForFile :
    ∃ s, run Reactor.step Reactor.init (askForFile (fun name => 1 :: 2 :: name) 2) = some s ∧
      ∃ name, request 0 (s.world.trace 0) = some name ∧
        sentBytes (s.world.trace 0) = 1 :: 2 :: name := by
  have hend : ((run Reactor.step Reactor.init
      (askForFile (fun name => 1 :: 2 :: name) 2)).any fun s =>
      s.world.born = [0] && decide (.closed ∈ s.world.trace 0)) = true := by
    decide +kernel
  obtain ⟨s, hs, heq⟩ := (Option.any_eq_true ..).mp hend
  simp only [Bool.and_eq_true, decide_eq_true_eq] at heq
  obtain ⟨hborn, hclosed⟩ := heq
  have hwell : AllSteps Reactor.step (Meets fun v h env => v.ClosesWell h env) Reactor.init
      (askForFile (fun name => 1 :: 2 :: name) 2) := by
    decide +kernel
  have hserves : AllSteps Reactor.step
      (Meets fun _ _ env => env.ServesFiles (fun name => 1 :: 2 :: name) 0) Reactor.init
      (askForFile (fun name => 1 :: 2 :: name) 2) := by
    refine allSteps_of_forall (fun l hl => meets_of_env fun i env heq => ?_) _
    subst heq
    simp only [askForFile, List.mem_cons, ReactorLabel.dispatch.injEq, reduceCtorEq, false_or,
      List.not_mem_nil, or_false] at hl
    rcases hl with ⟨-, rfl⟩ | ⟨-, rfl⟩ | ⟨-, rfl⟩ <;> exact servesFiles_fileServer _ _
  have hspec := file_server_spec _ 0 (hserves.and (fun _ _ => Meets.and) hwell) hs
    (c := 0) (by rw [hborn]; exact .head _)
  exact ⟨s, hs, hspec.2 hclosed⟩

end Cppev
