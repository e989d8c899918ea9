import Mathlib.Algebra.Group.Action.Defs
import Mathlib.Algebra.Order.BigOperators.Group.List
import Cppev.Reactor.Handler

/-!
# What a loop has to do

`ev_loads` is the number of entries in the table. How it goes with the number of connections, as
long as the outside is quiet: no callback closes a connection, nobody hands over one while a handler
runs, and the kernel reports no end and no failure of a stream.

* `fixes_run`: a handler brings no connection along and opens or closes no descriptor.
* `stageInv_quiet`: a connection stays in the table, with the handler it begins with or with its two.
* `Sound.step`, `Sound.loads`: so the table has one or two entries for each connection.
-/

namespace Cppev

/-! ## What a handler cannot change

Which connections there are and which descriptors are open is changed by accepting, connecting and
closing only. A program made of the other operations fixes both (`Fixes`), by the rules for
programs. -/

/-- The connections there are, and the open descriptors. -/
def World.roster (w : World) : List ConnId × (Int → Bool) := (w.born, w.kern.opened)

namespace World

open Prog

variable {c : ConnId}

/-- The stream of a connection does not matter to it. -/
theorem roster_putStream (io : StreamIO) (w : World) : (putStream c io w).roster = w.roster := rfl

theorem fixes_stream (m : StreamM Int) : Fixes roster (zoom (stream c) (putStream c) m) :=
  fixes_zoom roster_putStream m

theorem fixes_ctlAdd (evType : FdEvent) : Fixes roster (ctlAdd c evType) := by
  refine fixes_get_bind fun w => ?_
  rw [exec_bind_ok (exec_set _ _)]
  cases hadd : w.kern.ctlAdd (w.nios c).fd (fdMapToSys evType) with
  | error e => rfl
  | ok k =>
      show (w.born, k.opened) = (w.born, w.kern.opened)
      rw [Kernel.ctlAdd_eq_ok hadd]

theorem fixes_ctlDel : Fixes roster (ctlDel c) := by
  refine fixes_get_bind fun w => ?_
  rw [exec_bind_ok (exec_set _ _)]
  cases hdel : w.kern.ctlDel (w.nios c).fd with
  | error e => rfl
  | ok k =>
      show (w.born, k.opened) = (w.born, w.kern.opened)
      rw [Kernel.ctlDel_eq_ok hdel]

theorem fixes_fdRegister (evType : FdEvent) (handler : Option IoHandler) (activate : Bool) :
    Fixes roster (fdRegister c evType handler activate) := by
  apply Fixes.bind
  · exact fixes_modify fun _ => rfl
  intro _
  apply Fixes.bind
  · exact fixes_modify fun _ => rfl
  intro _
  apply Fixes.bind
  · cases handler with
    | none => exact fixes_pure ()
    | some h => exact fixes_modify fun _ => rfl
  · intro _
    exact (fixes_ctlAdd evType).ite (fixes_pure ())

theorem fixes_fdRemove (clean deactivate : Bool) :
    Fixes roster (fdRemove c clean deactivate) := by
  apply Fixes.bind
  · exact fixes_modify fun _ => rfl
  intro _
  apply Fixes.bind
  · exact fixes_ctlDel.ite (fixes_pure ())
  · intro _
    exact Fixes.ite (fixes_modify fun _ => rfl) (fixes_pure ())

theorem fixes_onOpenFd (what : String) : Fixes roster (onOpenFd c what) := by
  refine fixes_get_bind fun w => ?_
  split <;> rfl

theorem fixes_beforeWrite : Fixes roster (beforeWrite c) := by
  refine fixes_get_bind fun w => ?_
  split
  · rfl
  · exact fixes_onOpenFd _ w

theorem fixes_readAll : Fixes roster (iopt c).readAll := by
  apply Fixes.bind (fixes_onOpenFd _)
  intro _
  refine fixes_get_bind fun w => ?_
  refine Fixes.bind (f := roster) ?_ (fun _ => ?_) w
  · exact fixes_stream _
  · exact fixes_modify fun _ => rfl

theorem fixes_writeAll : Fixes roster (iopt c).writeAll := by
  apply Fixes.bind fixes_beforeWrite
  intro _
  apply Fixes.bind
  · exact fixes_stream _
  · intro _
    exact fixes_pure ()

/-- `async_write`, with a callback that fixes them. -/
theorem fixes_asyncWrite {onWriteComplete : LoopM Unit} (h : Fixes roster onWriteComplete) :
    Fixes roster (asyncWrite (iopt c) onWriteComplete) := by
  apply Fixes.bind fixes_writeAll
  intro _
  apply Fixes.bind fun _ => rfl
  intro _
  apply Fixes.ite h
  apply Fixes.bind (fixes_fdRemove false true)
  intro _
  exact fixes_fdRegister .fdWritable none true

end World

/-- Nobody hands over a connection meanwhile. -/
def Cb.Alone : Cb → Prop
  | .done => True
  | .append _ next => next.Alone
  | .inspect next => ∀ bs, (next bs).Alone
  | .consume _ next => next.Alone
  | .asyncWrite wc next => wc.Alone ∧ next.Alone
  | .safelyClose next => next.Alone
  | .handOver _ _ _ _ => False

/-- Nor does anybody in one of the callbacks of the handler. -/
structure Env.Alone (env : Env) : Prop where
  onAccept : env.onAccept.Alone
  onConnect : env.onConnect.Alone
  onReadComplete : env.onReadComplete.Alone
  onWriteComplete : env.onWriteComplete.Alone
  onClosed : env.onClosed.Alone

section Roster

open Prog World

variable {c : ConnId}

/-! ### Callbacks and handlers

The rules put together: a callback, and the handler around it. -/

/-- A callback that closes nothing, by induction on what it does. -/
theorem fixes_exec {cb : Cb} (hcb : cb.Within .noClose) (halone : cb.Alone) :
    Fixes roster (cb.exec (World.iopt c)) := by
  induction cb with
  | done => exact fixes_pure ()
  | append bs next ih => exact Fixes.bind (fun _ => rfl) fun _ => ih hcb.2 halone
  | inspect next ih => exact Fixes.bind (fun _ => rfl) fun bs => ih bs (hcb bs) (halone bs)
  | consume n next ih => exact Fixes.bind (fun _ => rfl) fun _ => ih hcb.2 halone
  | asyncWrite wc next ihw ih =>
      apply Fixes.bind
      · apply fixes_asyncWrite
        exact Fixes.bind (fun _ => rfl) fun _ => ihw hcb.2.1 halone.1
      · intro _
        exact ih hcb.2.2 halone.2
  | safelyClose next => exact hcb.1.elim
  | handOver => exact halone.elim

/-- **A handler changes neither which connections there are nor which descriptors are open.** -/
theorem fixes_run {env : Env} (hlast : env.Lasting) (halone : env.Alone) (h : IoHandler) :
    Fixes roster (h.run (World.iopt c) (env.dp (World.iopt c))) := by
  have hcb : ∀ (name : Callback) {cb : Cb}, cb.Within .noClose → cb.Alone →
      Fixes roster (do (World.iopt c).called name; cb.exec (World.iopt c) : LoopM Unit) :=
    fun _ _ hw ha => Fixes.bind (fun _ => rfl) fun _ => fixes_exec hw ha
  have hclosed := hcb .onClosed hlast.onClosed halone.onClosed
  have hread : ∀ f : World → Bool, Fixes roster (do return f (← get) : LoopM Bool) :=
    fun _ _ => rfl
  -- the end of `on_readable` and of `on_writable`
  have hleave : ∀ flags : Bool, Fixes roster (if flags then do
        (env.dp (World.iopt c)).onClosed
        (World.iopt c).fdRemove true true
      else pure () : LoopM Unit) := fun _ =>
    Fixes.ite (hclosed.bind fun _ => fixes_fdRemove true true) (fixes_pure ())
  cases h with
  | onReadable =>
      apply Fixes.bind fixes_readAll
      intro _
      apply Fixes.bind (hcb .onReadComplete hlast.onReadComplete halone.onReadComplete)
      intro _
      apply Fixes.bind fun _ => rfl
      intro _
      apply Fixes.bind (hread _)
      intro _
      apply Fixes.bind (hread _)
      intro _
      exact hleave _
  | onWritable =>
      apply Fixes.bind fixes_writeAll
      intro _
      apply Fixes.bind fun _ => rfl
      intro _
      apply Fixes.bind
      · apply Fixes.ite _ (fixes_pure ())
        apply Fixes.bind (fixes_fdRemove false true)
        intro _
        apply Fixes.bind (hcb .onWriteComplete hlast.onWriteComplete halone.onWriteComplete)
        intro _
        apply Fixes.bind (hread _)
        intro _
        exact Fixes.ite (fixes_fdRegister .fdReadable none true) (fixes_pure ())
      intro _
      apply Fixes.bind (hread _)
      intro _
      apply Fixes.bind (hread _)
      intro _
      exact hleave _
  | onAcptWritable =>
      apply Fixes.bind (fixes_fdRemove true true)
      intro _
      apply Fixes.bind (fixes_fdRegister .fdWritable (some .onWritable) false)
      intro _
      apply Fixes.bind (hcb .onAccept hlast.onAccept halone.onAccept)
      intro _
      exact fixes_fdRegister .fdReadable (some .onReadable) true
  | onContWritable =>
      apply Fixes.bind (fixes_fdRemove true true)
      intro _
      apply Fixes.bind (hread _)
      intro _
      apply Fixes.ite
      · exact fun _ => rfl
      apply Fixes.bind (fixes_fdRegister .fdWritable (some .onWritable) false)
      intro _
      apply Fixes.bind (hcb .onConnect hlast.onConnect halone.onConnect)
      intro _
      exact fixes_fdRegister .fdReadable (some .onReadable) true

end Roster

/-! ## A quiet outside

Without an end of file, a reset or a failure, no branch that closes a connection is taken, so a
connection goes from its first event to its two entries and stays there. -/

/-- The kernel reports neither the end of the stream nor a failure of the connection. -/
structure Script.Quiet (s : Script) : Prop where
  reads : ∀ r ∈ s.reads, r ≠ .bytes [] ∧ r ≠ .err .ECONNRESET
  writes : ∀ r ∈ s.writes, r ≠ .err .EPIPE ∧ r ≠ .err .ECONNRESET
  soError : s.soError = 0

/-- What is read ends because there is no more for now, or by an exception. -/
theorem deliver_quiet {reads : List ReadResult}
    (h : ∀ r ∈ reads, r ≠ .bytes [] ∧ r ≠ .err .ECONNRESET) :
    (deliver reads).halt ≠ .eof ∧ (deliver reads).halt ≠ .reset ∧
      ∀ r ∈ (deliver reads).rest, r ∈ reads := by
  induction reads with
  | nil =>
      refine ⟨?_, ?_, fun r hr => hr⟩
      · exact nofun
      · exact nofun
  | cons r rest ih =>
      obtain ⟨⟨hend, hreset⟩, hrest⟩ := List.forall_mem_cons.mp h
      have hmem : ∀ r' ∈ rest, r' ∈ r :: rest := fun r' hr' => List.mem_cons_of_mem r hr'
      obtain ⟨heof', hreset', hrest'⟩ := ih hrest
      cases r with
      | bytes bs =>
          rw [deliver_split fun hbs => hend (hbs ▸ rfl)]
          exact ⟨heof', hreset', fun r' hr' => hmem r' (hrest' r' hr')⟩
      | err e =>
          cases e with
          | EINTR => exact ⟨heof', hreset', fun r' hr' => hmem r' (hrest' r' hr')⟩
          | ECONNRESET => exact absurd rfl hreset
          | _ => exact ⟨nofun, nofun, hmem⟩

/-- What is written ends because the kernel takes no more for now, or by an exception. -/
theorem flush_quiet {writes : List WriteResult}
    (h : ∀ r ∈ writes, r ≠ .err .EPIPE ∧ r ≠ .err .ECONNRESET) (step quota : Nat)
    (pending : List Byte) :
    (flush step quota pending writes).stop ≠ .broken ∧
      (flush step quota pending writes).stop ≠ .reset ∧
      ∀ r ∈ (flush step quota pending writes).rest, r ∈ writes := by
  induction writes generalizing quota pending with
  | nil =>
      unfold flush
      refine ⟨?_, ?_, fun r hr => hr⟩ <;> split <;> simp
  | cons r rest ih =>
      obtain ⟨⟨hpipe, hreset⟩, hrest⟩ := List.forall_mem_cons.mp h
      have hmem : ∀ r' ∈ rest, r' ∈ r :: rest := fun r' hr' => List.mem_cons_of_mem r hr'
      unfold flush
      split
      case isTrue => exact ⟨by simp, by simp, fun r' hr' => hr'⟩
      case isFalse =>
        cases r with
        -- the quota of the next `write` is `step`, or what is left of this one
        | count n =>
            obtain ⟨hstop, hstop', hrest'⟩ := ih hrest
              (if min n (min quota pending.length) = quota then step
                else quota - min n (min quota pending.length))
              (pending.drop (min n (min quota pending.length)))
            exact ⟨hstop, hstop', fun r' hr' => hmem r' (hrest' r' hr')⟩
        | err e =>
            cases e with
            | EINTR =>
                obtain ⟨hstop, hstop', hrest'⟩ := ih hrest quota pending
                exact ⟨hstop, hstop', fun r' hr' => hmem r' (hrest' r' hr')⟩
            | EPIPE => exact absurd rfl hpipe
            | ECONNRESET => exact absurd rfl hreset
            | _ => exact ⟨by simp [Stop.ofErrno], by simp [Stop.ofErrno], hmem⟩

namespace Conn

/-- No end and no failure has been noticed. -/
def Unbroken (v : Conn) : Prop := v.eof = false ∧ v.eop = false ∧ v.reset = false

/-- And none will be in what is still to come. -/
structure Calm (v : Conn) : Prop where
  unbroken : v.Unbroken
  quiet : v.script.Quiet

theorem Calm.filled {v : Conn} (h : Calm v) : Calm v.filled := by
  obtain ⟨⟨heof, heop, hreset⟩, hq⟩ := h
  obtain ⟨hhalt, hhalt', hrest⟩ := deliver_quiet hq.reads
  refine ⟨⟨?_, heop, ?_⟩, fun r hr => hq.reads r (hrest r hr), hq.writes, hq.soError⟩
  · simp [heof, hhalt]
  · simp [hreset, hhalt']

theorem Calm.flushed {v : Conn} (h : Calm v) : Calm v.flushed := by
  obtain ⟨⟨heof, heop, hreset⟩, hq⟩ := h
  obtain ⟨hstop, hstop', hrest⟩ := flush_quiet hq.writes 1024 1024 v.out
  refine ⟨⟨heof, ?_, ?_⟩, hq.reads, fun r hr => hq.writes r (hrest r hr), hq.soError⟩
  · simp [heop, hstop]
  · simp [hreset, hstop']

variable {table : List (IoHandler × FdEvent)} {polled : Bool}

/-! ### Callbacks and handlers -/

theorem stable_calm :
    Stable .noClose (fun v => Busy table polled v ∧ Calm v)
      (Thrown (fun _ => True) fun _ => True) where
  append _ _ _ h := ⟨h.1.congr rfl rfl rfl rfl, h.2.unbroken, h.2.quiet⟩
  consume _ _ _ h := ⟨h.1.congr rfl rfl rfl rfl, h.2.unbroken, h.2.quiet⟩
  write _ v h := by
    refine (wp_writeAll (.inl h.1.closed)).mpr ?_
    split
    case h_1 => exact ⟨h.1.flushed, h.2.flushed⟩
    case h_2 e _ => exact ⟨e, rfl, trivial, trivial⟩
  complete _ _ h _ := ⟨h.1.begun _, h.2.unbroken, h.2.quiet⟩
  rearm _ v h _ := by
    obtain ⟨h, hcalm⟩ := h
    cases polled with
    | true =>
        obtain ⟨i, hi⟩ := h.isSome
        refine (wp_disarm h.closed hi).mpr ((wp_arm (v := v.disarmed) _ h.closed rfl).mpr ?_)
        exact ⟨h.disarmed.armed _ (.inr rfl), hcalm.unbroken, hcalm.quiet⟩
    | false =>
        refine (wp_fdRemove_notPolled _ h.closed h.interest).mpr ?_
        exact ⟨_, rfl, trivial, trivial⟩
  close h := h.elim

theorem Calm.exec {cb : Cb} (hcb : cb.Within .noClose) {v : Conn} (h : Busy table polled v)
    (hcalm : Calm v) :
    (cb.exec Conn.iopt).wp (fun _ v' => Busy table polled v' ∧ Calm v')
      (Thrown (fun _ => True) fun _ => True) v :=
  stable_calm.exec hcb ⟨h, hcalm⟩

/-- Nobody lets go of the connection at the end of `on_readable` or of `on_writable`. -/
theorem Calm.stays {v : Conn} (h : Busy fullTable true v) (hcalm : Calm v) (env : Env)
    {flags : Bool} (hflags : flags = false) {E : Fault → Conn → Prop} :
    Leaves env flags (fun _ v' => ∃ st, At st v' ∧ st ≠ .gone ∧ v'.Unbroken) E v := by
  subst hflags
  exact ⟨.live, h.live, by decide, hcalm.unbroken⟩

/-- **When the outside is quiet, a connection stays.** -/
theorem stageInv_quiet :
    StageInv (fun _ _ env => env.Lasting ∧ env.script.Quiet)
      (fun st v => st ≠ .gone ∧ v.Unbroken) (fun _ => True) fun _ => True where
  newborn v h := ⟨by decide, h.flags.1, h.flags.2.1, h.flags.2.2.1⟩
  ready _ _ _ h := h
  destroyed _ h := absurd rfl h.1
  weaken _ _ _ := trivial
  onReadable v env hbusy _ hH hok := by
    obtain ⟨hlast, hquiet⟩ := hok
    have hcalm : Calm (v.started env) := ⟨hH.2, hquiet⟩
    refine (wp_onReadable hbusy.closed).mpr ?_
    split
    case h_1 e _ => exact ⟨e, rfl, trivial, trivial⟩
    case h_2 =>
      have hfilled := hcalm.filled
      have hbegun : Calm ((v.started env).filled.begun .onReadComplete) :=
        ⟨hfilled.unbroken, hfilled.quiet⟩
      refine Prog.wp_mono (hbegun.exec hlast.onReadComplete (hbusy.filled.begun _)) ?_ ?_
      · rintro _ v' ⟨hbusy', ⟨hun, hq⟩⟩
        refine Calm.stays (v := v'.cleared) hbusy'.cleared ⟨hun, hq⟩ env ?_
        simp [hun.1, hun.2.2]
      · exact fun _ _ h => h
  onWritable v env hbusy _ hH hok := by
    obtain ⟨hlast, hquiet⟩ := hok
    have hcalm : Calm (v.started env) := ⟨hH.2, hquiet⟩
    have hflushed := hcalm.flushed
    refine (wp_onWritable hbusy).mpr ?_
    split
    case h_1 e _ => exact ⟨e, rfl, trivial, trivial⟩
    case h_2 =>
      split
      case isTrue =>
        have hdrained : Calm (v.started env).drained := ⟨hflushed.unbroken, hflushed.quiet⟩
        refine Prog.wp_mono (hdrained.exec hlast.onWriteComplete hbusy.drained) ?_ ?_
        · rintro _ v' ⟨hbusy', ⟨hun, hq⟩⟩
          rw [if_neg (by simp [hbusy'.closed])]
          refine hbusy'.wp_rearm.mpr ?_
          refine Calm.stays (hbusy'.armed _ (.inl rfl)) ⟨hun, hq⟩ env ?_
          simp [hun.2.1, hun.2.2]
        · exact fun _ _ h => h
      case isFalse =>
        refine Calm.stays hbusy.flushed hflushed env ?_
        rw [hflushed.unbroken.2.1, hflushed.unbroken.2.2]
        rfl
  initHandler v env origin hbusy hH hok := by
    obtain ⟨hlast, hquiet⟩ := hok
    refine (wp_initHandler origin hbusy).mpr ?_
    have hgood : ¬ origin.refused (v.started env).script := by
      cases origin with
      | accepted f => exact not_false
      | connecting peer => exact not_not.mpr hquiet.soError
    rw [if_neg hgood]
    have hgreeted : Calm ((v.started env).greeted origin) := ⟨hH.2, hquiet⟩
    -- the greeting ends with both handlers in the table
    refine Prog.wp_mono (hgreeted.exec (hlast.greet origin) (hbusy.greeted origin)) ?_ ?_
    · rintro _ v' ⟨hbusy', ⟨hun, -⟩⟩
      refine hbusy'.wp_initialise.mpr ?_
      exact ⟨.live, hbusy'.initialised.live, by decide, hun⟩
    · exact fun _ _ h => h

end Conn

/-! ## The size of the table

The entries are counted connection by connection. -/

/-- A list falls into one part for each key. -/
theorem length_eq_sum_filter {α κ : Type} [DecidableEq κ] (key : α → κ) {ks : List κ}
    (hnd : ks.Nodup) {l : List α} (h : ∀ a ∈ l, key a ∈ ks) :
    l.length = (ks.map fun k => (l.filter fun a => key a = k).length).sum := by
  induction ks generalizing l with
  | nil =>
      cases l with
      | nil => rfl
      | cons a l => exact nomatch h a List.mem_cons_self
  | cons k ks ih =>
      obtain ⟨hk, hks⟩ := List.nodup_cons.mp hnd
      -- what is not under `k` is under the other keys
      have hrest := @ih hks (l.filter fun a => !decide (key a = k)) (by
        intro a ha
        obtain ⟨hal, hne⟩ := List.mem_filter.mp ha
        exact (List.mem_cons.mp (h a hal)).resolve_left (by simpa using hne))
      have hparts : ∀ k' ∈ ks,
          ((l.filter fun a => !decide (key a = k)).filter fun a => key a = k').length =
            (l.filter fun a => key a = k').length := by
        intro k' hk'
        rw [List.filter_filter]
        refine congrArg List.length (List.filter_congr fun a _ => ?_)
        have hne : k' ≠ k := fun heq => hk (heq ▸ hk')
        by_cases ha : key a = k' <;> simp [ha, hne]
      rw [List.map_congr_left hparts] at hrest
      rw [List.length_eq_length_filter_add fun a => decide (key a = k), hrest]
      rfl

/-- Every entry belongs to a connection. -/
theorem length_fds {w : World} (hs : Sane w) (hnd : w.born.Nodup) :
    w.evl.fds.length = (w.born.map fun c => (view c w).handlers.length).sum := by
  rw [length_eq_sum_filter Entry.iop hnd fun e he => (hs.entries e he).1]
  simp [view]

/-- A connection that is handed over or taken over, and has met no failure. -/
def Conn.Kept (v : Conn) : Prop := ∃ st, At st v ∧ st ≠ .gone ∧ v.Unbroken

/-- It has the entry it begins with, or its two. -/
theorem Conn.Kept.length {v : Conn} (h : v.Kept) :
    v.handlers.length = 1 ∨ v.handlers.length = 2 := by
  obtain ⟨st, hat, hne, -⟩ := h
  cases st with
  | pending =>
      obtain ⟨-, -, origin, htable, -⟩ := hat
      exact .inl (by rw [htable]; rfl)
  | live => exact .inr (by rw [hat.2.1]; rfl)
  | gone => exact absurd rfl hne

namespace Reactor

/-- A loop that runs, and has kept all its connections. -/
structure Sound (r : Reactor) : Prop where
  running : r.fault = none
  nodup : r.world.born.Nodup
  conns : AllLocal Conn.Kept (fun _ => True) (fun _ => True) r

/-- The tables belong to the connections they name. -/
theorem Sound.sane {r : Reactor} (h : r.Sound) : Sane r.world := h.conns.sane

/-- Each connection has what it should have. -/
theorem Sound.kept {r : Reactor} (h : r.Sound) : ∀ c ∈ r.world.born, (view c r.world).Kept :=
  h.conns.kept h.running

/-- **One or two entries for each connection.** -/
theorem Sound.loads {r : Reactor} (h : r.Sound) :
    r.world.born.length ≤ r.world.evl.fds.length ∧
      r.world.evl.fds.length ≤ 2 * r.world.born.length := by
  let entries := r.world.born.map fun c => (view c r.world).handlers.length
  have hlen : entries.length = r.world.born.length := List.length_map _
  have hbounds : ∀ n ∈ entries, 1 ≤ n ∧ n ≤ 2 := by
    intro n hn
    obtain ⟨c, hc, rfl⟩ := List.mem_map.mp hn
    have := (h.kept c hc).length
    omega
  have hlow := List.card_nsmul_le_sum entries 1 fun n hn => (hbounds n hn).1
  have hhigh := List.sum_le_card_nsmul entries 2 fun n hn => (hbounds n hn).2
  rw [hlen, smul_eq_mul] at hlow hhigh
  rw [length_fds h.sane h.nodup]
  show r.world.born.length ≤ entries.sum ∧ entries.sum ≤ 2 * r.world.born.length
  omega

/-! ## One step

That all connections are kept is an invariant of the loop, and the bounds on its load follow in
every state. -/

/-- The outside is quiet: a handler that runs finds it so. -/
def Undisturbed : ReactorLabel → Prop
  | .dispatch _ env => env.Lasting ∧ env.Alone ∧ env.script.Quiet
  | _ => True

theorem undisturbed_idle : Undisturbed (.dispatch 0 .idle) :=
  ⟨⟨trivial, trivial, trivial, trivial, trivial⟩, ⟨trivial, trivial, trivial, trivial, trivial⟩,
    nofun, nofun, rfl⟩

/-- Handing over is what adds a connection. -/
theorem roster_handOver {w : World} {c : ConnId} {fd : Int} (origin : Origin)
    (hf : w.Fresh c fd) :
    ((World.handOver c fd origin).exec w).2.roster =
      (c :: w.born, Function.update w.kern.opened fd true) := by
  rw [exec_handOver origin hf, World.fixes_fdRegister]
  rfl

variable {r r' : Reactor} {l : ReactorLabel}

/-- Who is in the table has not been let go of. -/
theorem Sound.referenced (h : r.Sound) {c : ConnId} (hc : c ∈ r.world.born) :
    ¬ Unreferenced r.world c := by
  rintro ⟨hfds, -⟩
  have hnil : (view c r.world).handlers = [] :=
    List.map_eq_nil_iff.mpr (List.filter_eq_nil_iff.mpr fun e he => by simpa using hfds e he)
  have := (h.kept c hc).length
  simp [hnil] at this

/-- Connections only come along by being handed over. -/
theorem Sound.roster_step (h : r.Sound) (hl : Undisturbed l) (hstep : step r l = some r') :
    r'.world.roster =
      match l with
      | .handOver c fd _ => (c :: r.world.born, Function.update r.world.kern.opened fd true)
      | _ => r.world.roster := by
  obtain ⟨w, fault⟩ := r
  obtain rfl : fault = none := h.running
  have hruns : ¬ (⟨w, none⟩ : Reactor).fault ≠ none := not_not.mpr rfl
  unfold step at hstep
  rw [if_neg hruns] at hstep
  cases l with
  | handOver c fd origin =>
      dsimp only at hstep
      split at hstep
      case isFalse => exact nomatch hstep
      case isTrue hfresh =>
        obtain rfl := Option.some.inj hstep
        exact roster_handOver origin hfresh
  | poll evs =>
      dsimp only at hstep
      split at hstep
      case isFalse => exact nomatch hstep
      case isTrue =>
        obtain rfl := Option.some.inj hstep
        rfl
  | dispatch i env =>
      obtain ⟨hlast, halone, -⟩ := hl
      cases hpop : w.evl.pop i with
      | none => simp [hpop] at hstep
      | some p =>
          -- the queue has lost an element, and the handler brings nobody along
          obtain rfl : after (runCb { w with evl := p.2 } p.1 env) = r' := by
            simpa [hpop] using hstep
          exact fixes_run hlast halone p.1.handler _
  | destroy c =>
      dsimp only at hstep
      split at hstep
      case isFalse => exact nomatch hstep
      case isTrue hgone => exact absurd hgone.2.2 (h.referenced hgone.1)

/-- **A loop keeps its connections.** -/
theorem Sound.step (h : r.Sound) (hl : Undisturbed l) (hstep : step r l = some r')
    (hfault : r'.fault = none) : r'.Sound := by
  have hroster := h.roster_step hl hstep
  refine ⟨hfault, ?_, ?_⟩
  · cases l with
    | handOver c fd origin =>
        have hborn : r'.world.born = c :: r.world.born := congrArg Prod.fst hroster
        have hfresh : r.world.Fresh c fd := by
          by_contra hno
          simp [Reactor.step, h.running, hno] at hstep
        rw [hborn]
        exact List.nodup_cons.mpr ⟨hfresh.1, h.nodup⟩
    | _ =>
        have hborn : r'.world.born = r.world.born := congrArg Prod.fst hroster
        exact hborn ▸ h.nodup
  · refine step_local Conn.stageInv_quiet.localInv h.conns (meets_of_env ?_ r) hstep
    rintro i env rfl
    exact ⟨hl.1, hl.2.2⟩

end Reactor

end Cppev
