import Mathlib.Data.List.Infix
import Cppev.Logger.Messages
import Cppev.Nio.Basic

/-!
# A logger whose `write` takes less

`run_impl` does not look at what `write` returns, and clears the buffer. Here `write` answers as the
system call can: with a count of bytes, or with an error. What it has accepted is the log as it
stands in the file.

* `committed`: the thread of `run_impl` takes whole messages only.
* `survives_iff`: nothing is lost, and the file is the start of the log, exactly in the runs in which
  every buffer has been accepted whole when it is cleared.
-/

namespace Cppev

/-- How many of `size` bytes `write` has accepted. -/
def WriteResult.accepted (r : WriteResult) (size : Nat) : Nat :=
  match r with
  | .count n => min n size
  | .err _ => 0

theorem WriteResult.accepted_le (r : WriteResult) (size : Nat) : r.accepted size ≤ size := by
  cases r with
  | count n => exact Nat.min_le_right n size
  | err e => exact Nat.zero_le size

namespace AsyncLogger

variable {n : Nat} {level : Int} {tid : LogThread n → List Byte}

/-! ## Whole messages

A first result, without answers of `write`: the buffer that `run_impl` takes ends where a message
ends, as it takes the lock and nobody is inside a chain then. So what is written is always the log
of completed messages. -/

/-- The messages that have their newline, in the order of the lock. -/
def completed (msgs : List (Message n)) : List (Message n) := msgs.filter fun m => m.ended

theorem completed_of_allEnded {a : AsyncLogger n} (h : AllEnded a) : completed a.msgs = a.msgs :=
  List.filter_eq_self.mpr h

/-- What the thread of `run_impl` at `k` has taken, and has not written yet. -/
def takenAt (k : LogPc) (a : AsyncLogger n) : List Byte :=
  match k with
  | .loopUnlock prev | .bufTest prev | .write prev => (a.buffers prev).unread
  | _ => []

/-- What has been written or taken are completed messages. -/
def Committed (level : Int) (tid : LogThread n → List Byte) (k : LogPc) (a : AsyncLogger n) : Prop :=
  a.out ++ takenAt k a <+: log level tid (completed a.msgs)

/-- The further claim of the background thread. -/
def committedHere (level : Int) (tid : LogThread n → List Byte) (i : LogThread n) (k : LogPc)
    (a : AsyncLogger n) : Prop :=
  i = .background → Committed level tid k a

/-- A piece does not complete a message, and `endl` completes one. -/
theorem log_completed_addCall {a : AsyncLogger n} {front : List (Message n)} {m : Message n}
    (hm : a.msgs = front ++ [m]) (hended : m.ended = false) (str : List Byte) (c : LogCall) :
    log level tid (completed a.msgs) <+:
      log level tid (completed ((a.putString str).addCall c).msgs) := by
  have hadd : ((a.putString str).addCall c).msgs = front ++ [m.add c] :=
    addCall_of_open (a := a.putString str) hm c
  have hold : completed a.msgs = completed front := by simp [hm, completed, hended]
  have hnew : completed ((a.putString str).addCall c).msgs =
      completed front ++ completed [m.add c] := by
    rw [hadd]
    exact List.filter_append ..
  rw [hold, hnew, log_append]
  exact List.prefix_append _ _

/-- That `endl` has returned changes nothing. -/
theorem log_completed_endlReturned (a : AsyncLogger n) (i : LogThread n) :
    log level tid (completed (a.endlReturned i).msgs) = log level tid (completed a.msgs) := by
  have hfilter : completed (a.msgs.map (Message.endlReturned i)) =
      (completed a.msgs).map (Message.endlReturned i) := by
    rw [completed, completed, List.filter_map]
    refine congrArg _ (List.filter_congr fun m _ => ?_)
    exact ended_endlReturned i m
  show log level tid (completed (a.msgs.map (Message.endlReturned i))) = _
  rw [hfilter, log_endlReturned]

/-- A writer completes messages, it takes none back. -/
theorem log_completed_of_writer {a : AsyncLogger n} {t : Fin n} {k : LogPc}
    {f : AsyncLogger n → AsyncLogger n × LogPc} (h : writerHere (.writer t) k a)
    (hst : stmt tid (.writer t) k = .act f) :
    log level tid (completed a.msgs) <+: log level tid (completed (f a).1.msgs) := by
  cases k <;> simp only [stmt, reduceCtorEq, Stmt.act.injEq] at hst <;> subst hst
  case header r op =>
    have hsame : completed (a.writeHeader tid (.writer t) op.timestamp).msgs = completed a.msgs := by
      simp [writeHeader, completed]
    rw [hsame]
  case put r op =>
    obtain ⟨-, -, front, m, hm, -, -, hended, -⟩ := h
    exact log_completed_addCall hm hended _ _
  case endlReturn => rw [log_completed_endlReturned]
  case test | readRecur | resetRecur | whileRecur => exact List.prefix_refl _
  all_goals exact h.elim

/-- What writers put does not go into the buffer that has been taken. -/
theorem takenAt_of_grows {a a' : AsyncLogger n} {bs : List Byte} {k : LogPc}
    (hg : Grows level tid a a' bs) (hb : backgroundHere level tid k a) :
    takenAt k a' = takenAt k a := by
  cases k <;> simp only [backgroundHere] at hb <;> simp only [takenAt]
  case loopUnlock | bufTest | write => rw [hb.1, hg.spare]

/-- The thread of `run_impl` takes a buffer while nobody is in a chain of `<<`. -/
theorem committed_own {a : AsyncLogger n} {k : LogPc} (hb : backgroundHere level tid k a)
    (hs : held k ≠ 0 → Settled a) (h : committedHere level tid .background k a) :
    Monitor.ShownToo (committedHere level tid) (committedHere level tid) .background a
      (stmt tid .background k) := by
  have hout : a.out <+: log level tid (completed a.msgs) :=
    (List.prefix_append _ _).trans (h rfl)
  -- where no buffer has been taken, the output alone is to be a beginning of the log
  have hnothing : ∀ k' a', a'.out = a.out → a'.msgs = a.msgs → takenAt k' a' = [] →
      Committed level tid k' a' := by
    intro k' a' ho hm hnil
    rw [Committed, hnil, List.append_nil, ho, hm]
    exact hout
  cases k <;> simp only [backgroundHere] at hb
  case loopTest =>
    by_cases hstop : a.stop = true
    · simp only [stmt, Monitor.ShownToo, hstop, if_true]
      exact fun _ => hnothing _ _ rfl rfl rfl
    · simp only [stmt, Monitor.ShownToo, hstop]
      exact fun _ => hnothing _ _ rfl rfl rfl
  case loopLock | cond => exact fun _ => hnothing _ _ rfl rfl rfl
  case sizeTest =>
    show committedHere level tid .background
      (if 0 = (a.buffers a.curr).size then .predicate else .swap) a
    split <;> exact fun _ => hnothing _ _ rfl rfl rfl
  case predicate =>
    show committedHere level tid .background
      (if (a.buffers a.curr).size ≠ 0 ∨ a.stop = true then .swap else .cond) a
    split <;> exact fun _ => hnothing _ _ rfl rfl rfl
  case swap =>
    intro _
    show a.out ++ (a.buffers a.curr).unread <+: log level tid (completed a.msgs)
    -- under the lock every message has ended, so the buffer is taken with whole messages
    rw [completed_of_allEnded (hs Nat.one_ne_zero).2, hb.2.1]
  case loopUnlock => exact h
  case bufTest prev =>
    show committedHere level tid .background
      (if (a.buffers prev).size ≠ 0 then .write prev else .loopTest) a
    split
    · exact h
    · exact fun _ => hnothing _ _ rfl rfl rfl
  case write prev =>
    intro _
    show a.out ++ (a.buffers prev).unread ++ [] <+: log level tid (completed a.msgs)
    rw [List.append_nil]
    exact h rfl
  case clear => exact fun _ => hnothing _ _ rfl rfl rfl
  case exited => trivial

/-- What the others do. -/
theorem committed_other {a : AsyncLogger n} {i : LogThread n} {k k' : LogPc}
    {f : AsyncLogger n → AsyncLogger n × LogPc} (hne : i ≠ .background)
    (halways : (assertions level tid).always a) (hi : (assertions level tid).here i k a)
    (hb : backgroundHere level tid k' a) (hst : (threads tid).stmt i k = .act f)
    (h : Committed level tid k' a) : Committed level tid k' (f a).1 := by
  cases i with
  | writer t =>
      obtain ⟨bs, hgrows⟩ := grows_of_writer halways hi hst
      rw [Committed, hgrows.out, takenAt_of_grows hgrows hb]
      exact h.trans (log_completed_of_writer hi hst)
  | background => exact (hne rfl).elim
  | destructor =>
      rw [destructor_stops hi hst]
      exact h

/-- The claim can be added to the outline. -/
theorem committed_outline (level : Int) (tid : LogThread n → List Byte) :
    Monitor.Outline (threads tid)
      ((assertions level tid).extend (committedHere level tid) (committedHere level tid)) := by
  refine background_outline ?_ ?_ ?_
  · exact fun i k a hne hi => absurd hi hne
  · exact fun k a _ hhere hcommitted => committed_own hhere.1 hhere.2 hcommitted
  · rintro i k k' f a hne halways hi hb hst hcommitted -
    exact committed_other hne halways hi hb hst (hcommitted rfl)

theorem committed_init (n : Nat) (level : Int) (tid : LogThread n → List Byte) :
    Monitor.Outlined
      ((assertions level tid).extend (committedHere level tid) (committedHere level tid))
      (init n level) := by
  refine (outlined (run_nil _ _)).extend ?_ fun i hm => absurd rfl hm
  rintro i - rfl
  exact List.nil_prefix

/-- **What has been written are completed messages.** -/
theorem prefix_outlined {s : Monitor (LogThread n) (AsyncLogger n) LogPc}
    (ho : Monitor.Outlined
      ((assertions level tid).extend (committedHere level tid) (committedHere level tid)) s) :
    s.data.out <+: log level tid (completed s.data.msgs) := by
  have hcommitted : Committed level tid (s.pc .background) s.data := by
    by_cases hm : s.mode .background = .running
    · exact (ho.here _ hm).2 rfl
    · exact (ho.parked _ hm).2 rfl
  exact (List.prefix_append _ _).trans hcommitted

end AsyncLogger

open AsyncLogger

/-! ## The answers of `write`

The same threads, with the file as further data. Nothing that the threads do depends on it, so all
that has been proved of them is used for the projection. -/

/-- The logger, and the file it writes to. -/
structure ShortWrites (n : Nat) where
  logger : AsyncLogger n
  /-- What the calls of `write` answer, and how many there have been. -/
  answers : Nat → WriteResult
  writes : Nat
  /-- The bytes that `write` has accepted, and how many by the last call. -/
  accepted : List Byte
  flushed : Nat
  /-- The history: the bytes that were cleared and have not been accepted. -/
  discarded : List Byte

namespace ShortWrites

variable {n : Nat} {level : Int} {tid : LogThread n → List Byte}

/-- What the statement at `k` does to the file. -/
def account (k : LogPc) (d : ShortWrites n) : ShortWrites n :=
  match k with
  | .write prev =>
    let buf := d.logger.buffers prev
    let count := (d.answers d.writes).accepted buf.size.toNat
    { d with
      writes := d.writes + 1
      accepted := d.accepted ++ buf.unread.take count
      flushed := count }
  | .clear prev =>
    { d with discarded := d.discarded ++ (d.logger.buffers prev).unread.drop d.flushed }
  | _ => d

/-- What is left when the statement at `k` has left the logger as `a`. -/
def setLogger (k : LogPc) (d : ShortWrites n) (a : AsyncLogger n) : ShortWrites n :=
  { account k d with logger := a }

/-- The program of the logger, over more data. -/
def threads (tid : LogThread n → List Byte) : Threads (LogThread n) (ShortWrites n) LogPc :=
  (AsyncLogger.threads tid).lift logger fun _ => setLogger

/-- An empty file. -/
def init (n : Nat) (level : Int) (answers : Nat → WriteResult) :
    Monitor (LogThread n) (ShortWrites n) LogPc where
  data :=
    { logger := (AsyncLogger.init n level).data, answers := answers, writes := 0
      accepted := [], flushed := 0, discarded := [] }
  owner := none
  depth := 0
  pc := startPc
  mode := fun _ => .running

/-- Whatever `write` answers, the threads do what they do without it. -/
theorem run_logger {answers : Nat → WriteResult} {ls : List (MonitorLabel (LogThread n) LogPc)}
    {s : Monitor (LogThread n) (ShortWrites n) LogPc}
    (hrun : run (Monitor.step (threads tid)) (init n level answers) ls = some s) :
    run (Monitor.step (AsyncLogger.threads tid)) (AsyncLogger.init n level) ls =
      some (s.project logger) :=
  Monitor.run_project (fun _ _ _ _ => rfl) hrun

/-- Whenever the thread of `run_impl` comes to `buf.clear()`, `write` has returned `buf.size()`. -/
def Complete (s : Monitor (LogThread n) (ShortWrites n) LogPc)
    (l : MonitorLabel (LogThread n) LogPc) : Prop :=
  l = .next .background → ∀ prev, s.pc .background = .clear prev →
    (s.data.flushed : Int) = (s.data.logger.buffers prev).size

/-- What is in the buffer that is cleared next, and has not been accepted. -/
def leftAt (k : LogPc) (d : ShortWrites n) : List Byte :=
  match k with
  | .clear prev => (d.logger.buffers prev).unread.drop d.flushed
  | _ => []

/-- The log as it would be, and as it is. -/
structure Kept (level : Int) (tid : LogThread n → List Byte)
    (s : Monitor (LogThread n) (ShortWrites n) LogPc) : Prop where
  outlined : Monitor.Outlined
    ((assertions level tid).extend (committedHere level tid) (committedHere level tid))
    (s.project logger)
  out : s.data.discarded = [] →
    s.data.logger.out = s.data.accepted ++ leftAt (s.pc .background) s.data
  flushed : ∀ prev, s.pc .background = .clear prev →
    (s.data.flushed : Int) ≤ (s.data.logger.buffers prev).size

variable {s s' : Monitor (LogThread n) (ShortWrites n) LogPc}
  {l : MonitorLabel (LogThread n) LogPc} {ls : List (MonitorLabel (LogThread n) LogPc)}

/-! ### What a step does to the file -/

/-- What a step does to the file: `write` and `clear` of `run_impl`, and the others. -/
inductive FileStep (s : Monitor (LogThread n) (ShortWrites n) LogPc) :
    MonitorLabel (LogThread n) LogPc → Monitor (LogThread n) (ShortWrites n) LogPc → Prop
  | write (prev : Fin 2) (s' : Monitor (LogThread n) (ShortWrites n) LogPc)
      (hpc : s.pc .background = .write prev) (hpc' : s'.pc .background = .clear prev)
      (hdata : s'.data =
        setLogger (.write prev) s.data { s.data.logger with
          out := s.data.logger.out ++ (s.data.logger.buffers prev).unread }) :
      FileStep s (.next .background) s'
  | clear (prev : Fin 2) (s' : Monitor (LogThread n) (ShortWrites n) LogPc)
      (hpc : s.pc .background = .clear prev) (hpc' : s'.pc .background = .loopTest)
      (hdiscarded : s'.data.discarded =
        s.data.discarded ++ (s.data.logger.buffers prev).unread.drop s.data.flushed)
      (haccepted : s'.data.accepted = s.data.accepted)
      (hout : s'.data.logger.out = s.data.logger.out) : FileStep s (.next .background) s'
  | other (l : MonitorLabel (LogThread n) LogPc)
      (s' : Monitor (LogThread n) (ShortWrites n) LogPc)
      (hl : l = .next .background → ∀ prev, s.pc .background ≠ .clear prev)
      (hdiscarded : s'.data.discarded = s.data.discarded)
      (haccepted : s'.data.accepted = s.data.accepted)
      (hflushed : s'.data.flushed = s.data.flushed)
      (hout : s'.data.logger.out = s.data.logger.out)
      (hclear : ∀ prev, s'.pc .background = .clear prev ↔ s.pc .background = .clear prev)
      (hbuf : ∀ prev, s.pc .background = .clear prev →
        s'.data.logger.buffers prev = s.data.logger.buffers prev) : FileStep s l s'

theorem stmt_threads (i : LogThread n) (k : LogPc) :
    (threads tid).stmt i k = (stmt tid i k).lift logger (setLogger k) := rfl

/-- Only an `act` comes to `buf.clear()`. -/
theorem after_ne_clear {i : LogThread n} {k next : LogPc}
    (h : ((threads tid).stmt i k).after = some next) (prev : Fin 2) :
    next ≠ .clear prev ∧ k ≠ .clear prev := by
  rw [stmt_threads, Monitor.after_lift] at h
  cases k <;> simp only [stmt, Stmt.after, reduceCtorEq, Option.some.injEq] at h <;>
    subst h <;> exact ⟨by simp, by simp⟩

/-- A thread that goes on without touching the data. -/
theorem FileStep.plain {i : LogThread n} {next : LogPc} {st : Stmt (ShortWrites n) LogPc}
    (hst : (threads tid).stmt i (s.pc i) = st) (h : st.after = some next)
    (hd : s'.data = s.data) (hp : s'.pc = Function.update s.pc i next)
    (hl : l = .next .background → i = .background) : FileStep s l s' := by
  subst hst
  refine .other l s' (fun he prev => ?_) (by rw [hd]) (by rw [hd]) (by rw [hd]) (by rw [hd])
    (fun prev => ?_) fun prev hc => by rw [hd]
  · rw [← hl he]
    exact (after_ne_clear h prev).2
  · rw [hp]
    by_cases hi : LogThread.background = i
    · subst hi
      rw [Function.update_self]
      exact iff_of_false (after_ne_clear h prev).1 (after_ne_clear h prev).2
    · rw [Function.update_of_ne hi]

/-- A writer does not write to the file. -/
theorem setLogger_of_writer {a : AsyncLogger n} {t : Fin n} {k : LogPc}
    (h : writerHere (.writer t) k a) (d : ShortWrites n) (a' : AsyncLogger n) :
    setLogger k d a' = { d with logger := a' } := by
  cases k <;> first | rfl | exact h.elim

theorem setLogger_of_destructor {a : AsyncLogger n} {k : LogPc} (h : destructorHere k a)
    (d : ShortWrites n) (a' : AsyncLogger n) : setLogger k d a' = { d with logger := a' } := by
  cases k <;> first | rfl | exact h.elim

/-- Another thread leaves the file, and the buffer that is written, alone. -/
theorem FileStep.of_spare {i : LogThread n} (hne : i ≠ .background) {a : AsyncLogger n} {k : LogPc}
    {d : ShortWrites n} (hd : d = { s.data with logger := a })
    (hb : backgroundHere level tid (s.pc .background) s.data.logger)
    (hout : a.out = s.data.logger.out)
    (hspare : a.buffers (1 - s.data.logger.curr) =
      s.data.logger.buffers (1 - s.data.logger.curr)) :
    FileStep s (.next i) ((s.setData d).goto i k) := by
  subst hd
  refine .other _ _ (fun he => (hne (MonitorLabel.next.inj he)).elim) rfl rfl rfl hout
    (fun prev => ?_) fun prev hpc => ?_
  · rw [Monitor.goto_pc, Function.update_of_ne hne.symm, Monitor.setData_pc]
  · rw [hpc] at hb
    obtain rfl : prev = 1 - s.data.logger.curr := hb.1
    exact hspare

/-- The thread of `run_impl`, where it leaves the file alone. -/
theorem FileStep.of_same {a : AsyncLogger n} {k : LogPc} {d : ShortWrites n}
    (hd : d = { s.data with logger := a }) (hout : a.out = s.data.logger.out)
    (hpc : ∀ prev, s.pc .background ≠ .clear prev) (hk : ∀ prev, k ≠ .clear prev) :
    FileStep s (.next .background) ((s.setData d).goto .background k) := by
  subst hd
  refine .other _ _ (fun _ => hpc) rfl rfl rfl hout (fun prev => ?_) fun prev hc => ?_
  · rw [Monitor.goto_pc, Function.update_self]
    exact iff_of_false (hk prev) (hpc prev)
  · exact (hpc prev hc).elim

/-- What the thread of `run_impl` does: `write` appends what it accepts, `clear` discards the
rest. -/
theorem FileStep.of_background
    (hb : backgroundHere level tid (s.pc .background) s.data.logger)
    {g : AsyncLogger n → AsyncLogger n × LogPc}
    (hg : stmt tid .background (s.pc .background) = .act g) :
    FileStep s (.next .background)
      ((s.setData (setLogger (s.pc .background) s.data (g s.data.logger).1)).goto .background
        (g s.data.logger).2) := by
  cases hpc : s.pc .background <;> rw [hpc] at hg hb <;>
    simp only [stmt, reduceCtorEq, Stmt.act.injEq] at hg <;> subst hg
  case write prev => exact .write prev _ hpc (by simp) rfl
  case clear prev => exact .clear prev _ hpc (by simp) rfl rfl rfl
  case swap => exact .of_same rfl rfl (by simp [hpc]) (by simp)
  case loopTest =>
    by_cases hstop : s.data.logger.stop = true
    · simp only [hstop, if_true]
      exact .of_same rfl rfl (by simp [hpc]) (by simp)
    · simp only [hstop]
      exact .of_same rfl rfl (by simp [hpc]) (by simp)
  case sizeTest | predicate | bufTest =>
    refine .of_same rfl rfl (by simp [hpc]) fun prev => ?_
    dsimp only
    split <;> simp
  all_goals exact hb.elim

theorem FileStep.of_act (ho : Monitor.Outlined (assertions level tid) (s.project logger))
    {i : LogThread n} {f : ShortWrites n → ShortWrites n × LogPc} (hm : s.mode i = .running)
    (hst : (threads tid).stmt i (s.pc i) = .act f) :
    FileStep s (.next i) ((s.setData (f s.data).1).goto i (f s.data).2) := by
  rw [stmt_threads] at hst
  obtain ⟨g, hg, rfl⟩ := Monitor.lift_eq_act hst
  have hb : backgroundHere level tid (s.pc .background) s.data.logger :=
    backgroundHere_of_outlined ho
  cases i with
  | writer t =>
      have hhere : writerHere (.writer t) (s.pc (.writer t)) s.data.logger := ho.here _ hm
      obtain ⟨bs, hgrows⟩ := grows_of_writer ho.always hhere hg
      exact .of_spare (by simp) (setLogger_of_writer hhere _ _) hb hgrows.out hgrows.spare
  | background => exact .of_background hb hg
  | destructor =>
      have hhere : destructorHere (s.pc .destructor) s.data.logger := ho.here _ hm
      have hstops := destructor_stops hhere hg
      refine .of_spare (by simp) (setLogger_of_destructor hhere _ _) hb ?_ ?_ <;> rw [hstops]

/-- Every step of a run is one of `FileStep`. -/
theorem fileStep (ho : Monitor.Outlined (assertions level tid) (s.project logger))
    (hstep : Monitor.Step (threads tid) s l s') : FileStep s l s' := by
  cases hstep with
  | call i k hm hc =>
      obtain ⟨t, r, op, rfl, hpc, rfl, -⟩ := writer_of_call hc (ho.here i hm)
      exact .other _ _ nofun rfl rfl rfl rfl (fun prev => by simp) fun _ _ => rfl
  | act i f hm hst => exact .of_act ho hm hst
  | await i cond next hm hst hc => exact .plain hst rfl rfl rfl MonitorLabel.next.inj
  | lock i next hm hst hfree => exact .plain hst rfl rfl rfl MonitorLabel.next.inj
  | unlock i next hm hst how => exact .plain hst rfl rfl rfl MonitorLabel.next.inj
  | wait i next hm hst how => exact .plain hst rfl rfl rfl MonitorLabel.next.inj
  | notifyOne i next woken hm hst hw => exact .plain hst rfl rfl rfl nofun
  | notifyAll i next hm hst => exact .plain hst rfl rfl rfl MonitorLabel.next.inj
  | spuriousWakeup i hm => exact .other _ _ nofun rfl rfl rfl rfl (fun _ => Iff.rfl) fun _ _ => rfl
  | reacquire i hm hfree => exact .other _ _ nofun rfl rfl rfl rfl (fun _ => Iff.rfl) fun _ _ => rfl

/-! ### The file and the log

As long as nothing has been discarded, what `out` says has been given to `write` is what the file
has, and what is left in the buffer at `clear`. -/

theorem Kept.base (hk : Kept level tid s) :
    Monitor.Outlined (assertions level tid) (s.project logger) := by
  obtain ⟨h, -, -⟩ := hk
  exact ⟨h.always, fun i hi => (h.here i hi).1, fun i hi => (h.parked i hi).1, h.free, h.depth,
    h.running, h.waiting⟩

/-- The size of a buffer is the number of its bytes. -/
theorem Kept.length_unread (hk : Kept level tid s) (b : Fin 2) :
    ((s.data.logger.buffers b).unread.length : Int) = (s.data.logger.buffers b).size := by
  have halways : (assertions level tid).always s.data.logger := hk.base.always
  exact Buffer.length_unread (halways.2 b)

/-- Bytes are left between `write` and `clear` only. -/
theorem leftAt_of_ne_clear {k : LogPc} (h : ∀ prev, k ≠ .clear prev) (d : ShortWrites n) :
    leftAt k d = [] := by
  cases k <;> first | rfl | exact (h _ rfl).elim

/-- The other steps leave alone what is in the buffer that is cleared next. -/
theorem leftAt_of_other (hflushed : s'.data.flushed = s.data.flushed)
    (hclear : ∀ prev, s'.pc .background = .clear prev ↔ s.pc .background = .clear prev)
    (hbuf : ∀ prev, s.pc .background = .clear prev →
      s'.data.logger.buffers prev = s.data.logger.buffers prev) :
    leftAt (s'.pc .background) s'.data = leftAt (s.pc .background) s.data := by
  by_cases h : ∃ prev, s.pc .background = .clear prev
  · obtain ⟨prev, hpc⟩ := h
    rw [hpc, (hclear prev).mpr hpc]
    show (s'.data.logger.buffers prev).unread.drop s'.data.flushed = _
    rw [hbuf prev hpc, hflushed]
    rfl
  · have hne : ∀ prev, s.pc .background ≠ .clear prev := fun prev hpc => h ⟨prev, hpc⟩
    rw [leftAt_of_ne_clear hne, leftAt_of_ne_clear fun prev hpc => hne prev ((hclear prev).mp hpc)]

/-- What has been given to `write` is in the file, or is still to be discarded. -/
theorem Kept.out_step (hk : Kept level tid s) (hf : FileStep s l s')
    (hnil : s'.data.discarded = []) :
    s'.data.logger.out = s'.data.accepted ++ leftAt (s'.pc .background) s'.data := by
  cases hf with
  | write prev s' hpc hpc' hdata =>
      have hold : s.data.logger.out = s.data.accepted ++ leftAt (s.pc .background) s.data :=
        hk.out (by rw [hdata] at hnil; exact hnil)
      have hnone : leftAt (s.pc .background) s.data = [] := leftAt_of_ne_clear (by simp [hpc]) _
      rw [hnone, List.append_nil] at hold
      rw [hpc', hdata]
      -- what `write` has taken, and what it has left
      have hsplit : ∀ (count : Nat) (bs : List Byte),
          s.data.logger.out ++ bs = s.data.accepted ++ bs.take count ++ bs.drop count := by
        intro count bs
        rw [hold, List.append_assoc, List.take_append_drop]
      exact hsplit _ _
  | clear prev s' hpc hpc' hdiscarded haccepted hout =>
      rw [hdiscarded, List.append_eq_nil_iff] at hnil
      have hold := hk.out hnil.1
      rw [hpc] at hold
      rw [hpc', hout, haccepted, hold]
      show _ ++ List.drop _ _ = _ ++ []
      rw [hnil.2]
  | other l s' hl hdiscarded haccepted hflushed hout hclear hbuf =>
      rw [hout, haccepted, leftAt_of_other hflushed hclear hbuf]
      exact hk.out (hdiscarded ▸ hnil)

/-- `write` does not accept more than there is. -/
theorem Kept.flushed_step (hk : Kept level tid s) (hf : FileStep s l s') {prev : Fin 2}
    (hpc : s'.pc .background = .clear prev) :
    (s'.data.flushed : Int) ≤ (s'.data.logger.buffers prev).size := by
  cases hf with
  | write prev' s' hpc₀ hpc' hdata =>
      obtain rfl : prev' = prev := LogPc.clear.inj (hpc'.symm.trans hpc)
      rw [hdata]
      show (((s.data.answers s.data.writes).accepted _ : Nat) : Int) ≤
        (s.data.logger.buffers prev').size
      have hle := (s.data.answers s.data.writes).accepted_le
        (s.data.logger.buffers prev').size.toNat
      have hlen := hk.length_unread prev'
      omega
  | clear prev' s' hpc₀ hpc' =>
      rw [hpc'] at hpc
      cases hpc
  | other l s' hl hdiscarded haccepted hflushed hout hclear hbuf =>
      have hold := (hclear prev).mp hpc
      rw [hflushed, hbuf prev hold]
      exact hk.flushed prev hold

/-- A step keeps what was said about the file. -/
theorem Kept.step (hk : Kept level tid s) (hstep : Monitor.Step (threads tid) s l s') :
    Kept level tid s' := by
  have hfile := fileStep hk.base hstep
  refine ⟨?_, hk.out_step hfile, fun prev => hk.flushed_step hfile⟩
  exact hk.outlined.step (committed_outline level tid) (hstep.project fun _ _ _ _ => rfl)

/-- A step discards nothing exactly if it meets `Complete`. -/
theorem Kept.complete_iff (hk : Kept level tid s) (hnil : s.data.discarded = [])
    (hstep : Monitor.Step (threads tid) s l s') :
    Complete s l ↔ s'.data.discarded = [] := by
  cases fileStep hk.base hstep with
  | write prev s' hpc hpc' hdata =>
      refine iff_of_true (fun _ prev' hpc₀ => ?_) ?_
      · rw [hpc] at hpc₀
        cases hpc₀
      · rw [hdata]
        exact hnil
  | clear prev s' hpc hpc' hdiscarded =>
      rw [hdiscarded, hnil, List.nil_append, List.drop_eq_nil_iff]
      have hle := hk.flushed prev hpc
      have hlen := hk.length_unread prev
      constructor
      · intro h
        have := h rfl prev hpc
        omega
      · rintro h - prev' hpc₀
        obtain rfl : prev = prev' := LogPc.clear.inj (hpc.symm.trans hpc₀)
        omega
  | other l s' hl hdiscarded =>
      exact iff_of_true (fun he prev hpc => (hl he prev hpc).elim) (hdiscarded.trans hnil)

/-- As long as nothing was discarded, the file is the start of the log. -/
theorem Kept.accepted_prefix (hk : Kept level tid s) (hnil : s.data.discarded = []) :
    s.data.accepted <+: log level tid (completed s.data.logger.msgs) := by
  have hout : s.data.accepted <+: s.data.logger.out := by
    rw [hk.out hnil]
    exact List.prefix_append _ _
  exact hout.trans (prefix_outlined hk.outlined)

theorem kept_init (n : Nat) (level : Int) (tid : LogThread n → List Byte)
    (answers : Nat → WriteResult) : Kept level tid (init n level answers) :=
  ⟨committed_init n level tid, fun _ => rfl, nofun⟩

/-! ### The theorem -/

/-- **The logger survives short writes** exactly in the runs in which every buffer has been accepted
whole when it is cleared: then nothing is discarded, and the file is at every moment the start of
the log of the completed messages. -/
theorem survives_iff (n : Nat) (level : Int) (tid : LogThread n → List Byte)
    (answers : Nat → WriteResult) (ls : List (MonitorLabel (LogThread n) LogPc))
    (s : Monitor (LogThread n) (ShortWrites n) LogPc)
    (hrun : run (Monitor.step (threads tid)) (init n level answers) ls = some s) :
    AllSteps (Monitor.step (threads tid)) Complete (init n level answers) ls ↔
      ∀ ls' t, ls' <+: ls →
        run (Monitor.step (threads tid)) (init n level answers) ls' = some t →
          t.data.discarded = [] ∧
            t.data.accepted <+: log level tid (completed t.data.logger.msgs) := by
  have hprefix : ∀ t, Kept level tid t → (t.data.discarded = [] ↔ t.data.discarded = [] ∧
      t.data.accepted <+: log level tid (completed t.data.logger.msgs)) := by
    intro t hk
    exact ⟨fun hnil => ⟨hnil, hk.accepted_prefix hnil⟩, And.left⟩
  refine allSteps_iff_reached (I := Kept level tid) ?_ ?_ (kept_init n level tid answers)
    ⟨rfl, List.nil_prefix⟩ hrun
  · exact fun s l s' hk _ hs => hk.step (Monitor.step_sound hs)
  · intro s l s' hk hp hs
    have hstep := Monitor.step_sound hs
    rw [hk.complete_iff hp.1 hstep]
    exact hprefix s' (hk.step hstep)

instance (s : Monitor (LogThread n) (ShortWrites n) LogPc)
    (l : MonitorLabel (LogThread n) LogPc) : Decidable (Complete s l) :=
  inferInstanceAs (Decidable (_ → ∀ _, _ → _))

/-- Two messages of thread 0, each of which `run_impl` writes and clears. -/
def twoFlushes : List (MonitorLabel (LogThread 1) LogPc) :=
  let i : Fin 1 := ⟨0, Nat.one_pos⟩
  putsPiece i (bytesOf "a") (bytesOf "now") ++ putsEndl i [] ++
    List.replicate 8 (.next .background) ++ putsPiece i (bytesOf "b") (bytesOf "now") ++
    putsEndl i [] ++ List.replicate 8 (.next .background)

/-- Two flushes that are accepted whole. -/
theorem survives_iff_full :
    ∃ s, run (Monitor.step (threads fun _ => bytesOf "7")) (init 1 1 fun _ => .count 4096)
        twoFlushes = some s ∧
      s.data.discarded = [] ∧
      s.data.accepted <+: log 1 (fun _ => bytesOf "7") (completed s.data.logger.msgs) := by
  have hsome : (run (Monitor.step (threads fun _ => bytesOf "7"))
      (init 1 1 fun _ => .count 4096) twoFlushes).isSome = true := by
    decide +kernel
  obtain ⟨s, hs⟩ := Option.isSome_iff_exists.mp hsome
  have hall : AllSteps (Monitor.step (threads fun _ => bytesOf "7")) Complete
      (init 1 1 fun _ => .count 4096) twoFlushes := by
    decide +kernel
  exact ⟨s, hs, (survives_iff 1 1 (fun _ => bytesOf "7") (fun _ => .count 4096) twoFlushes s hs).mp
    hall twoFlushes s List.prefix_rfl hs⟩

/-- The first `write` answers `EAGAIN`: its message is gone, and the next one is in the file. -/
theorem message_lost :
    ∃ s, run (Monitor.step (threads fun _ => bytesOf "7"))
        (init 1 1 fun k => if k = 0 then .err .EAGAIN else .count 4096) twoFlushes = some s ∧
      s.data.discarded = bytesOf "- [INFO] [now] [LWP 7] a\n" ∧
      ¬ s.data.accepted <+: log 1 (fun _ => bytesOf "7") (completed s.data.logger.msgs) := by
  have hmap : (run (Monitor.step (threads fun _ => bytesOf "7"))
      (init 1 1 fun k => if k = 0 then .err .EAGAIN else .count 4096) twoFlushes).map
      (fun s => (s.data.discarded, decide (s.data.accepted <+:
        log 1 (fun _ => bytesOf "7") (completed s.data.logger.msgs)))) =
      some (bytesOf "- [INFO] [now] [LWP 7] a\n", false) := by
    decide +kernel
  obtain ⟨s, hs, hview⟩ := Option.map_eq_some_iff.mp hmap
  exact ⟨s, hs, congrArg Prod.fst hview, of_decide_eq_false (congrArg Prod.snd hview)⟩

end ShortWrites

end Cppev
