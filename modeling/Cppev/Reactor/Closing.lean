import Cppev.Reactor.Handler

/-!
# Closing from a callback

After `safely_close`, the descriptor number belongs to whoever opens it next. `on_writable` asks
`is_closed()` before it registers the connection again; nothing else does. `nio::close` keeps `fd_`,
so a `write_all` with bytes in `wbuffer` still calls `write`.

* `closed_left_alone`: where a callback closes its connection only if neither it nor its handler
  touches it again (`ClosesWell`), the loop is not called for a closed connection and nothing is
  written to it, the table holds no entry of one, no entry of another connection is removed, and no
  handler throws `EBADF`.
* `closed_touched`: `on_readable` lets go of a connection that `on_read_complete` has closed, and
  takes the handler of a new connection with it.
-/

namespace Cppev

/-! ## What it is to touch a connection -/

/-- The calls of the loop and of `epoll_ctl`, and what is written. -/
def Event.UsesFd : Event → Bool
  | .fdRegister | .fdRemove | .ctlAdd _ | .ctlDel _ | .erased _ | .closed | .sent _ => true
  | _ => false

/-- One event, with the connection closed or not: after `safely_close`, nothing is called; and no
entry of another connection is removed. -/
def closeStep : Bool → Event → Option Bool
  | _, .erased true => none
  | false, .closed => some true
  | closed, e => if closed && e.UsesFd then none else some closed

/-- A history in which the descriptor of a closed connection is not used, and no entry of another
connection is removed for this one. -/
structure LeftAlone (tr : List Event) : Prop where
  closed : ∀ pre post, tr = pre ++ .closed :: post → ∀ e ∈ post, e.UsesFd = false
  own : .erased true ∉ tr

theorem run_closeStep_cons {st st' : Bool} {e : Event} {tr : List Event}
    (h : run closeStep st (e :: tr) = some st') :
    ∃ mid, closeStep st e = some mid ∧ run closeStep mid tr = some st' := by
  cases hstep : closeStep st e with
  | none => simp [run, hstep] at h
  | some mid => exact ⟨mid, rfl, by rwa [run_cons_of_some hstep] at h⟩

/-- Once closed, the loop is not called. -/
theorem usesFd_of_run_true {tr : List Event} {st : Bool} (h : run closeStep true tr = some st) :
    ∀ e ∈ tr, e.UsesFd = false := by
  induction tr with
  | nil => exact nofun
  | cons e tr ih =>
      obtain ⟨mid, hstep, hrest⟩ := run_closeStep_cons h
      have hmid : e.UsesFd = false ∧ mid = true := by
        cases e with
        | erased foreign => cases foreign <;> exact nomatch hstep
        | _ => simp_all [closeStep, Event.UsesFd]
      obtain ⟨he, rfl⟩ := hmid
      exact List.forall_mem_cons.mpr ⟨he, ih hrest⟩

/-- What the automaton accepts is left alone: after `closed`, no event of the history uses the
descriptor. -/
theorem LeftAlone.of_run {tr : List Event} {st : Bool} (h : run closeStep false tr = some st) :
    LeftAlone tr := by
  constructor
  · rintro pre post rfl
    rw [run_append] at h
    obtain ⟨mid, -, hpost⟩ := Option.bind_eq_some_iff.mp h
    obtain ⟨mid', hstep, hrest⟩ := run_closeStep_cons hpost
    have hmid : mid' = true := by
      cases mid <;> simp_all [closeStep, Event.UsesFd]
    subst hmid
    exact usesFd_of_run_true hrest
  · intro hmem
    obtain ⟨pre, post, rfl⟩ := List.append_of_mem hmem
    rw [run_append] at h
    obtain ⟨mid, -, hpost⟩ := Option.bind_eq_some_iff.mp h
    obtain ⟨mid', hstep, -⟩ := run_closeStep_cons hpost
    cases mid <;> exact nomatch hstep

/-- Bytes that are sent before that do not matter. -/
theorem run_closeStep_sent (xs : List (List Byte)) :
    run closeStep false (xs.map .sent) = some false := by
  induction xs with
  | nil => rfl
  | cons x xs ih => exact (run_cons_of_some rfl).trans ih

/-! ## What the kernel answers

`EBADF` is the answer for a number that is not open. It is excluded for open ones; that the program
does not ask about others is what is proved. -/

/-- A system call was given a descriptor that is not open. -/
def Exn.BadFd : Exn → Prop
  | .systemError _ errno => errno = .EBADF
  | .logicError _ => False

/-- For an open descriptor the kernel does not answer `EBADF`. -/
structure Script.ForOpenFd (script : Script) : Prop where
  reads : .err .EBADF ∉ script.reads
  writes : .err .EBADF ∉ script.writes

instance (script : Script) : Decidable script.ForOpenFd :=
  decidable_of_iff (.err .EBADF ∉ script.reads ∧ .err .EBADF ∉ script.writes)
    ⟨fun h => ⟨h.1, h.2⟩, fun h => ⟨h.reads, h.writes⟩⟩

/-- What is read off answers without `EBADF` does not end with it. -/
theorem not_badFd_deliver {script : List ReadResult} (h : .err .EBADF ∉ script) :
    (deliver script).halt ≠ .failed .EBADF ∧ .err .EBADF ∉ (deliver script).rest := by
  induction script with
  | nil => exact ⟨nofun, nofun⟩
  | cons r rest ih =>
      obtain ⟨hr, hrest⟩ := not_or.mp (mt List.mem_cons.mpr h)
      match r with
      | .bytes [] => exact ⟨nofun, hrest⟩
      | .bytes (b :: bs) => exact ih hrest
      | .err .EINTR => exact ih hrest
      | .err .EBADF => exact absurd rfl hr
      | .err .EAGAIN | .err .ECONNRESET => exact ⟨nofun, hrest⟩
      | .err .EPIPE | .err .EEXIST | .err .ENOENT | .err (.other _) => exact ⟨nofun, hrest⟩

theorem not_badFd_flush (step quota : Nat) (pending : List Byte) {script : List WriteResult}
    (h : .err .EBADF ∉ script) :
    (flush step quota pending script).stop ≠ .failed .EBADF ∧
      .err .EBADF ∉ (flush step quota pending script).rest := by
  induction script generalizing quota pending with
  | nil =>
      refine ⟨?_, List.not_mem_nil⟩
      simp only [flush]
      split <;> simp
  | cons r rest ih =>
      obtain ⟨hr, hrest⟩ := not_or.mp (mt List.mem_cons.mpr h)
      by_cases hp : pending = []
      · rw [hp, flush_nil]
        exact ⟨by simp, h⟩
      · cases r with
        | count n =>
            simp only [flush, if_neg hp]
            exact ih _ _ hrest
        | err e =>
            cases e with
            | EINTR =>
                simp only [flush, if_neg hp]
                exact ih _ _ hrest
            | EBADF => exact absurd rfl hr
            | _ =>
                simp only [flush, if_neg hp]
                exact ⟨by simp [Stop.ofErrno], hrest⟩

theorem not_badFd_readThrown {halt : Halt} {e : Exn} (hhalt : halt ≠ .failed .EBADF)
    (he : Nstream.readThrown halt = .error e) : ¬ e.BadFd := by
  cases halt with
  | failed n =>
      obtain rfl : Exn.systemError "read error" n = e := by simpa [Nstream.readThrown] using he
      exact fun hbad => hhalt (congrArg Halt.failed hbad)
  | _ => cases he

theorem not_badFd_thrown {stop : Stop} {e : Exn} (hstop : stop ≠ .failed .EBADF)
    (he : Nstream.thrown stop = .error e) : ¬ e.BadFd := by
  cases stop with
  | failed n =>
      obtain rfl : Exn.systemError "write error" n = e := by simpa [Nstream.thrown] using he
      exact fun hbad => hstop (congrArg Stop.failed hbad)
  | _ => cases he

/-! ## When a callback may close

`ClosesWell` looks at the state before the callback: a close must come where nothing is done
afterwards with the connection. That depends on the handler, on what is in the buffers and on the
flags of the stream. -/

/-- The callback ends in `P` or throws; it does not use the descriptor of a connection that it has
closed. -/
def Safe (P : Io → Prop) : Except Trouble Io → Prop
  | .ok io => P io
  | .error .stray => False
  | .error _ => True

instance (P : Io → Prop) [DecidablePred P] : DecidablePred (Safe P)
  | .ok io => inferInstanceAs (Decidable (P io))
  | .error .stray => isFalse id
  | .error .threw => isTrue trivial
  | .error .unpolled => isTrue trivial

/-- If the connection is to be let go of, it has not been closed, and `on_closed` does not close it
either. -/
def Io.LeavesWell (env : Env) (flags : Bool) (io : Io) : Prop :=
  flags = true → io.closed = false ∧ Safe (fun io => io.closed = false) (env.onClosed.play true io)

instance (env : Env) (flags : Bool) (io : Io) : Decidable (io.LeavesWell env flags) :=
  inferInstanceAs (Decidable (_ → _))

namespace Conn

/-- The callbacks of a handler close the connection only where the handler does not touch it
again. -/
def ClosesWell (v : Conn) (h : IoHandler) (env : Env) : Prop :=
  match h with
  | .onReadable =>
    Safe (fun io => { io with inp := [] }.LeavesWell env ((v.started env).filled.eof || io.reset))
      (env.onReadComplete.play true (v.started env).filled.io)
  | .onWritable =>
    ((v.started env).flushed.out = [] →
      Safe (fun io => io.LeavesWell env (io.eop || io.reset))
        (env.onWriteComplete.play false (v.started env).flushed.io)) ∧
    ((v.started env).flushed.out ≠ [] → (v.started env).flushed.io.LeavesWell env
      ((v.started env).flushed.eop || (v.started env).flushed.reset))
  | .onAcptWritable =>
    Safe (fun io => io.closed = false) (env.onAccept.play false (v.started env).io)
  | .onContWritable =>
    env.script.soError = 0 →
      Safe (fun io => io.closed = false) (env.onConnect.play false (v.started env).io)

instance (v : Conn) (h : IoHandler) (env : Env) : Decidable (ClosesWell v h env) :=
  match h with
  | .onReadable => inferInstanceAs (Decidable (Safe _ _))
  | .onWritable => inferInstanceAs (Decidable ((_ → _) ∧ (_ → _)))
  | .onAcptWritable => inferInstanceAs (Decidable (Safe _ _))
  | .onContWritable => inferInstanceAs (Decidable (_ → _))

/-- Within a handler, the connection open or closed by its callback, and left alone in the latter
case. -/
structure Open (table : List (IoHandler × FdEvent)) (polled : Bool) (v : Conn) : Prop where
  state : Busy table polled v ∨ v.closed = true ∧ At .gone v
  history : run closeStep false v.trace = some v.closed
  answers : v.script.ForOpenFd

/-- The history of a connection that has been left alone. -/
def Undisturbed (v : Conn) : Prop := ∃ st, run closeStep false v.trace = some st

/-- What a handler may throw. -/
def Harmless (e : Exn) : Prop := (e.OfStream ∨ e.NotPolled) ∧ ¬ e.BadFd

variable {table : List (IoHandler × FdEvent)} {polled : Bool} {v v' : Conn} {env : Env} {cb : Cb}

/-- An open connection has not been touched after a close. -/
theorem Undisturbed.of_open (h : Open table polled v) : Undisturbed v := ⟨_, h.history⟩

theorem Open.busy (h : Open table polled v) (hcl : v.closed = false) : Busy table polled v :=
  h.state.resolve_right fun hgone => by rw [hcl] at hgone; exact nomatch hgone.1

/-! ### What programs keep -/

/-- More of the history, where the connection is neither opened nor closed. -/
theorem history_more (h : run closeStep false v.trace = some v.closed) {evs : List Event}
    (htrace : v'.trace = v.trace ++ evs) (hcl : v'.closed = v.closed)
    (hrun : run closeStep v.closed evs = some v.closed) :
    run closeStep false v'.trace = some v'.closed := by
  rw [htrace, run_append, h, hcl]
  exact hrun

/-- A change of the private parts. -/
theorem Open.more (h : Open table polled v) (hcl : v'.closed = v.closed)
    (ht : v'.handlers = v.handlers) (hq : v'.queued = v.queued) (hi : v'.interest = v.interest)
    (hs : v'.script = v.script) {evs : List Event} (htrace : v'.trace = v.trace ++ evs)
    (hrun : run closeStep v.closed evs = some v.closed) : Open table polled v' := by
  refine ⟨h.state.imp (fun hb => hb.congr hcl ht hq hi) fun ⟨hc, hgone⟩ => ⟨hcl.trans hc, ?_⟩,
    history_more h.history htrace hcl hrun, hs ▸ h.answers⟩
  exact ⟨hi.trans hgone.1, ht.trans hgone.2.1, hq.trans hgone.2.2⟩

/-- After `write_all`, of an open connection or with nothing to write. -/
theorem Open.flushed (h : Open table polled v) (hopen : v.closed = false ∨ v.out = []) :
    Open table polled v.flushed := by
  have hstate : Busy table polled v.flushed ∨ v.flushed.closed = true ∧ At .gone v.flushed :=
    h.state.imp (fun hb => hb.congr rfl rfl rfl rfl) id
  have hrest := (not_badFd_flush 1024 1024 v.out h.answers.writes).2
  refine ⟨hstate, ?_, h.answers.reads, hrest⟩
  refine history_more h.history rfl rfl ?_
  rcases hopen with hcl | hout
  · rw [hcl]
    exact run_closeStep_sent _
  · rw [hout, flush_nil]
    rfl

/-- What `write_all` throws. -/
theorem Open.thrown (h : Open table polled v) {e : Exn}
    (he : Nstream.thrown (flush 1024 1024 v.out v.script.writes).stop = .error e) : Harmless e :=
  ⟨.inl (ofStream_thrown he), not_badFd_thrown (not_badFd_flush 1024 1024 v.out h.answers.writes).1 he⟩

/-- What every callback keeps, as long as it is `Safe`: the operations one by one. -/
theorem stable_open (eof : Bool) :
    Stable .all (fun v => Open table polled v ∧ v.eof = eof)
      (fun f v => f = .stray ∨ Thrown Harmless Undisturbed f v) where
  append _ v bs h := by
    refine ⟨h.1.more rfl rfl rfl rfl rfl rfl ?_, h.2⟩
    cases v.closed <;> rfl
  consume _ v n h := by
    refine ⟨h.1.more rfl rfl rfl rfl rfl rfl ?_, h.2⟩
    cases v.closed <;> rfl
  write _ v h := by
    by_cases hopen : v.closed = false ∨ v.out = []
    · refine (wp_writeAll hopen).mpr ?_
      split
      case h_1 => exact ⟨h.1.flushed hopen, h.2⟩
      case h_2 e he => exact .inr ⟨e, rfl, h.1.thrown he, .of_open (h.1.flushed hopen)⟩
    · -- bytes are left on a closed connection: that is the stray `write`
      obtain ⟨hcl, hout⟩ := not_or.mp hopen
      exact (wp_writeAll_closed (by simpa using hcl) hout).mpr (.inl rfl)
  complete _ v h _ := by
    refine ⟨h.1.more rfl rfl rfl rfl rfl rfl ?_, h.2⟩
    cases v.closed <;> rfl
  rearm _ v h _ := by
    obtain ⟨⟨hb | ⟨hcl, -⟩, hhist, hans⟩, heof⟩ := h
    · rw [hb.closed] at hhist
      cases polled with
      | true =>
          obtain ⟨i, hi⟩ := hb.isSome
          refine (wp_disarm hb.closed hi).mpr ((wp_arm (v := v.disarmed) _ hb.closed rfl).mpr ?_)
          refine ⟨⟨.inl (hb.disarmed.armed _ (.inr rfl)), ?_, hans⟩, heof⟩
          have hcl : (v.disarmed.armed .fdWritable).closed = false := hb.closed
          rw [armed_trace, disarmed_trace, run_append, run_append, hhist, hcl]
          rfl
      | false =>
          -- epoll throws, and the handler ends with the connection left alone
          refine (wp_fdRemove_notPolled _ hb.closed hb.interest).mpr ?_
          refine .inr ⟨_, rfl, ⟨.inr ⟨v.fd, rfl⟩, nofun⟩, false, ?_⟩
          rw [note_trace, run_append, hhist]
          rfl
    · exact (wp_fdRemove_closed _ _ hcl).mpr (.inl rfl)
  close _ v h := by
    obtain ⟨⟨hb | ⟨hcl, -⟩, hhist, hans⟩, heof⟩ := h
    · rw [hb.closed] at hhist
      refine (wp_safelyClose hb.closed).mpr ⟨⟨.inr ⟨rfl, rfl, rfl, hb.queued⟩, ?_, hans⟩, heof⟩
      rw [finished_trace, run_append, hhist]
      rfl
    · exact (wp_safelyClose_closed hcl).mpr (.inl rfl)

/-- A callback that is safe for its connection. -/
theorem open_exec {P : Io → Prop} (h : Open table polled v) (hb : Busy table polled v)
    (hsafe : Safe P (cb.play polled v.io)) :
    (cb.exec Conn.iopt).wp (fun _ v' => Open table polled v' ∧ v'.eof = v.eof ∧ P v'.io)
      (Thrown Harmless Undisturbed) v := by
  refine Prog.wp_mono (Prog.wp_and ((stable_open v.eof).exec cb.within_all ⟨h, rfl⟩)
    (exec_play polled cb hb.toPolled)) (fun _ v' h' => ?_) fun f v' h' => ?_
  · obtain ⟨⟨hopen, heof⟩, hplay, -⟩ := h'
    rw [hplay] at hsafe
    exact ⟨hopen, heof, hsafe⟩
  · obtain ⟨rfl | hthrown, t, hplay, hfails⟩ := h'
    · -- a stray call is what a safe callback does not make
      obtain rfl : t = .stray := hfails
      rw [hplay] at hsafe
      exact hsafe.elim
    · exact hthrown

/-! ## The handlers

Each handler ends with the connection alive and untouched, or closed and not touched afterwards. -/

/-- The connection in each stage, when control is in the loop. -/
def AloneAt : Stage → Conn → Prop
  | .gone, v => Undisturbed v
  | _, v => run closeStep false v.trace = some false

/-- Letting go of a connection, where that is safe. -/
theorem aloneAt_leaves {flags : Bool} (h : Open fullTable true v)
    (hwell : v.io.LeavesWell env flags) :
    Leaves env flags (fun _ v' => ∃ st, At st v' ∧ AloneAt st v') (Thrown Harmless Undisturbed)
      v := by
  unfold Leaves
  cases flags with
  | false =>
      rcases h.state with hb | ⟨-, hgone⟩
      · refine ⟨.live, hb.live, ?_⟩
        have hhist := h.history
        rwa [hb.closed] at hhist
      · exact ⟨.gone, hgone, .of_open h⟩
  | true =>
      obtain ⟨hcl, hsafe⟩ := hwell rfl
      have hb := (h.busy hcl).begun .onClosed
      have hbegun : Open fullTable true (v.begun .onClosed) := by
        refine h.more rfl rfl rfl rfl rfl rfl ?_
        cases v.closed <;> rfl
      refine Prog.wp_mono (open_exec hbegun hb hsafe) (fun _ v' h' => ?_) fun _ _ he => he
      obtain ⟨hopen, -, hcl'⟩ := h'
      have hb' := hopen.busy hcl'
      obtain ⟨i, hi⟩ := hb'.isSome
      refine (wp_remove hb'.closed hi).mpr ⟨.gone, hb'.removed, false, ?_⟩
      have hhist := hopen.history
      rw [hb'.closed] at hhist
      rw [removed_trace, run_append, hhist]
      rfl

/-- `on_readable` lets go of a connection that has ended or was reset, and the callback must not
have closed it before. -/
theorem aloneAt_onReadable (hb : Busy fullTable true (v.started env)) (h : AloneAt .live v)
    (hwell : ClosesWell v .onReadable env) (hans : env.script.ForOpenFd) :
    (Conn.handle .onReadable env).wp (fun _ v' => ∃ st, At st v' ∧ AloneAt st v')
      (Thrown Harmless Undisturbed) (v.started env) := by
  refine (wp_onReadable hb.closed).mpr ?_
  split
  case h_1 e he =>
    have hbad := not_badFd_readThrown (not_badFd_deliver hans.reads).1 he
    exact ⟨e, rfl, ⟨.inl (ofStream_readThrown he), hbad⟩, false, h⟩
  case h_2 =>
    have hbegun : Open fullTable true ((v.started env).filled.begun .onReadComplete) := by
      refine ⟨.inl (hb.filled.begun _), ?_, (not_badFd_deliver hans.reads).2, hans.writes⟩
      have h : run closeStep false v.trace = some false := h
      have hcl : v.closed = false := hb.closed
      simp [run_append, h, hcl]
      rfl
    refine Prog.wp_mono (open_exec hbegun (hb.filled.begun _) hwell) (fun _ v' h' => ?_)
      fun _ _ he => he
    obtain ⟨hopen, heof, hleaves⟩ := h'
    refine aloneAt_leaves (v := v'.cleared)
      (hopen.more rfl rfl rfl rfl rfl (List.append_nil _).symm rfl) ?_
    rw [heof]
    exact hleaves

/-- `on_writable` asks `is_closed()` before it registers the connection again. -/
theorem aloneAt_onWritable (hb : Busy fullTable true (v.started env)) (h : AloneAt .live v)
    (hwell : ClosesWell v .onWritable env) (hans : env.script.ForOpenFd) :
    (Conn.handle .onWritable env).wp (fun _ v' => ∃ st, At st v' ∧ AloneAt st v')
      (Thrown Harmless Undisturbed) (v.started env) := by
  have hstart : Open fullTable true (v.started env) :=
    ⟨.inl hb, by rw [hb.closed]; exact h, hans⟩
  have hflushed := hstart.flushed (.inl hb.closed)
  refine (wp_onWritable hb).mpr ?_
  split
  case h_1 e he => exact ⟨e, rfl, hstart.thrown he, .of_open hflushed⟩
  case h_2 =>
    split
    case isFalse hout => exact aloneAt_leaves hflushed (hwell.2 hout)
    case isTrue hout =>
      -- `on_write_complete` runs while epoll does not know the descriptor
      have hdrained : Open fullTable false (v.started env).drained := by
        refine ⟨.inl hb.drained, ?_, hflushed.answers⟩
        have hhist := hflushed.history
        rw [hb.flushed.closed] at hhist
        rw [hb.drained.closed]
        simp only [drained, begun_trace, disarmed_trace, run_append, hhist]
        rfl
      refine Prog.wp_mono (open_exec hdrained hb.drained (hwell.1 hout)) (fun _ v' h' => ?_)
        fun _ _ he => he
      obtain ⟨hopen, -, hleaves⟩ := h'
      cases hcl : v'.closed with
      -- closed by the callback: the handler leaves it alone
      | true =>
          have hshut : Open fullTable true v' :=
            ⟨.inr ⟨hcl, (hopen.state.resolve_left fun hb' => by
              rw [hb'.closed] at hcl; exact nomatch hcl).2⟩, hopen.history, hopen.answers⟩
          exact aloneAt_leaves hshut hleaves
      | false =>
          have hb' := hopen.busy hcl
          refine hb'.wp_rearm.mpr ?_
          have harmed : Open fullTable true (v'.armed .fdReadable) := by
            refine ⟨.inl (hb'.armed _ (.inl rfl)), ?_, hopen.answers⟩
            have hhist := hopen.history
            rw [hcl] at hhist
            rw [armed_trace, armed_closed, run_append, hhist, hcl]
            rfl
          exact aloneAt_leaves harmed hleaves

/-- The first event: `on_accept` or `on_connect` must not close. -/
theorem aloneAt_initHandler (origin : Origin)
    (hb : Busy [(origin.initHandler, .fdWritable)] true (v.started env)) (h : AloneAt .pending v)
    (hwell : ClosesWell v origin.initHandler env) (hans : env.script.ForOpenFd) :
    (Conn.handle origin.initHandler env).wp (fun _ v' => ∃ st, At st v' ∧ AloneAt st v')
      (Thrown Harmless Undisturbed) (v.started env) := by
  have h : run closeStep false v.trace = some false := h
  refine (wp_initHandler origin hb).mpr ?_
  split
  case isTrue =>
    refine ⟨.gone, hb.removed, false, ?_⟩
    rw [removed_trace, run_append, started_trace, h]
    rfl
  case isFalse href =>
    have hgreet : Safe (fun io => io.closed = false)
        ((env.greet origin).play false ((v.started env).greeted origin).io) := by
      cases origin with
      | accepted f => exact hwell
      | connecting peer => exact hwell (not_not.mp href)
    have hgreeted : Open [(.onWritable, .fdWritable)] false ((v.started env).greeted origin) := by
      refine ⟨.inl (hb.greeted origin), ?_, hans⟩
      rw [(hb.greeted origin).closed, trace_greeted, run_append, started_trace, h]
      rfl
    refine Prog.wp_mono (open_exec hgreeted (hb.greeted origin) hgreet) (fun _ v' h' => ?_)
      fun _ _ he => he
    obtain ⟨hopen, -, hcl⟩ := h'
    have hb' := hopen.busy hcl
    refine hb'.wp_initialise.mpr ⟨.live, hb'.initialised.live, ?_⟩
    have hhist := hopen.history
    rw [hb'.closed] at hhist
    show run closeStep false (v'.trace ++ _) = some false
    rw [run_append, hhist]
    rfl

/-- So it is an invariant of the stages. -/
theorem stageInv_alone :
    StageInv (fun v h env => ClosesWell v h env ∧ env.script.ForOpenFd) AloneAt Undisturbed
      Harmless where
  newborn v h := by
    obtain ⟨origin, -, htrace⟩ := h.origin
    show run closeStep false v.trace = some false
    rw [htrace]
    rfl
  ready st v ev h := by cases st <;> exact h
  destroyed _ h := h
  weaken st v h := by
    cases st with
    | gone => exact h
    | _ => exact ⟨false, h⟩
  onReadable _ _ hb _ h hok := aloneAt_onReadable hb h hok.1 hok.2
  onWritable _ _ hb _ h hok := aloneAt_onWritable hb h hok.1 hok.2
  initHandler _ _ origin hb h hok := aloneAt_initHandler origin hb h hok.1 hok.2

end Conn

/-! ## The theorem -/

/-- **A closed connection is left alone**, where its callbacks close it well, and the kernel answers
`EBADF` for no descriptor that is open: after `safely_close` the loop is not called for it and nothing
is written, the table holds no entry of a closed connection, no entry of another connection is
removed, and no handler throws `EBADF`; `epoll_ctl` throws for no descriptor but one that epoll does
not know. The invariant, `Open` within a handler, is that a connection is busy or has gone. -/
theorem closed_left_alone {ls : List ReactorLabel} {s : Reactor}
    (hok : AllSteps Reactor.step
      (Meets fun v h env => v.ClosesWell h env ∧ env.script.ForOpenFd) Reactor.init ls)
    (hrun : run Reactor.step Reactor.init ls = some s) :
    (∀ c, LeftAlone (s.world.trace c)) ∧
      (∀ e ∈ s.world.evl.fds, (s.world.nios e.iop).closed = false) ∧
      ∀ e, s.fault = some e → (e.OfStream ∨ e.NotPolled) ∧ ¬ e.BadFd := by
  have hall := run_local Conn.stageInv_alone.localInv hok hrun
  refine ⟨fun c => ?_, fun e he => (hall.sane.entries e he).2.1, hall.thrown⟩
  by_cases hc : c ∈ s.world.born
  · obtain ⟨st, hst⟩ := hall.left c hc
    exact .of_run hst
  · rw [hall.sane.unborn c hc]
    exact @LeftAlone.of_run [] false rfl

/-- A connection is accepted, and its `on_read_complete` runs once. -/
def oneRead (onReadComplete : Cb) (script : Script) : List ReactorLabel :=
  [.handOver 0 5 (.accepted .ipv4), .poll [(5, ⟨false, true, false, false⟩)], .dispatch 0 .idle,
    .poll [(5, ⟨true, false, false, false⟩)],
    .dispatch 0 { Env.idle with script, onReadComplete }]

/-- A connection that is closed when its reply has been sent, as the file server does it. -/
theorem closed_left_alone_oneRead :
    ∃ s, run Reactor.step Reactor.init (oneRead (.append [7] (.asyncWrite (.safelyClose .done) .done))
        ⟨[.bytes [1]], [.count 1], 0⟩) = some s ∧
      (∀ c, LeftAlone (s.world.trace c)) ∧
      (∀ e ∈ s.world.evl.fds, (s.world.nios e.iop).closed = false) ∧
      ∀ e, s.fault = some e → (e.OfStream ∨ e.NotPolled) ∧ ¬ e.BadFd := by
  have hend : (run Reactor.step Reactor.init (oneRead
      (.append [7] (.asyncWrite (.safelyClose .done) .done)) ⟨[.bytes [1]], [.count 1], 0⟩)).isSome =
      true := by
    decide +kernel
  obtain ⟨s, hs⟩ := Option.isSome_iff_exists.mp hend
  exact ⟨s, hs, closed_left_alone (by decide +kernel) hs⟩

/-- A connection that is closed in the `on_readable` that meets the end of the stream, while another
thread hands over a new connection on the same number: `fd_remove` removes the handler of the new
one. -/
theorem closed_touched :
    ∃ s, run Reactor.step Reactor.init
        (oneRead (.safelyClose (.handOver 1 5 (.accepted .ipv4) .done))
          ⟨[.bytes [1], .bytes []], [], 0⟩) = some s ∧
      (s.world.nios 0).closed = true ∧ .erased true ∈ s.world.trace 0 ∧
      1 ∈ s.world.born ∧ (s.world.nios 1).closed = false ∧ s.world.table 1 = [] := by
  have hend : ((run Reactor.step Reactor.init
      (oneRead (.safelyClose (.handOver 1 5 (.accepted .ipv4) .done))
        ⟨[.bytes [1], .bytes []], [], 0⟩)).any fun s =>
      (s.world.nios 0).closed && decide (.erased true ∈ s.world.trace 0) &&
        decide (1 ∈ s.world.born) && !(s.world.nios 1).closed && s.world.table 1 = []) = true := by
    decide +kernel
  obtain ⟨s, hs, heq⟩ := (Option.any_eq_true ..).mp hend
  simp only [Bool.and_eq_true, decide_eq_true_eq, Bool.not_eq_true'] at heq
  obtain ⟨⟨⟨⟨hclosed, herased⟩, hborn⟩, hopen⟩, htable⟩ := heq
  exact ⟨s, hs, hclosed, herased, hborn, hopen, htable⟩

/-- A connection that is closed before its reply is written. -/
example : (run Reactor.step Reactor.init (oneRead
    (.append [7] (.safelyClose (.asyncWrite .done .done))) ⟨[.bytes [1]], [], 0⟩)).map Reactor.fault =
      some (some (.systemError "write error" .EBADF)) := by
  decide +kernel

end Cppev
