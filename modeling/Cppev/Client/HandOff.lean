import Mathlib.Algebra.BigOperators.Fin
import Mathlib.Algebra.Order.BigOperators.Group.Finset
import Mathlib.Data.List.FinRange
import Cppev.Client.Basic
import Cppev.Lib.Monitor

/-!
# Handing tasks to a connector

`connector::add`, called by any number of threads, and `connector::on_pipe_readable`, statement by
statement. The map of tasks has a lock. The write end of the pipe, with its buffer, has none.

Of the buffer only its two indices matter, of the pipe only how many bytes are in it. `write_all` is
called with 1, so every `write` is one of one byte. The counts in the map are `int`s, and a sum of
them wraps around.

* `handoff_spec`: no task is left with nobody woken, as long as the calls of `add` do not get into
  each other's way in the buffer; and no task is lost, as long as the sums are `int`s.
-/

namespace Cppev

/-! ## The threads and their statements

One consumer, the thread of the connector's event loop, and any number of producers. A place is
named after the statement that comes next, with the values of the locals that are alive there. -/

/-- Those that call `add`, and the one that runs `on_pipe_readable`. -/
inductive HandThread (m : Nat) where
  | producer (p : Fin m)
  | consumer
  deriving DecidableEq, Repr

instance (m : Nat) : Fintype (HandThread m) where
  elems :=
    ⟨((.consumer :: (List.finRange m).map .producer : List (HandThread m)) :), by
      simpa using (List.nodup_finRange m).map fun _ _ h => HandThread.producer.inj h⟩
  complete := fun i => by cases i <;> simp

/-- Where a thread is. -/
inductive HandPc where
  /-- Between two calls of `add`. -/
  | idle
  /-- In `add`: at `if (t == 0)`, at the lock, at `hosts_.count(h)`, at `hosts_[h] += t`, at
  `hosts_[h] = t`, at the end of the block, at `put_string`. -/
  | enter (h : Host) (t : Int)
  | lock (h : Host) (t : Int)
  | count (h : Host) (t : Int)
  | addTo (h : Host) (t : Int)
  | setTo (h : Host) (t : Int)
  | unlock
  | put
  /-- In `write_chunk`: at its first two statements, at `while (len)`, at `len = std::min(..)`, at
  `write`, after it, at `int curr_start = ..`, at `if (0 == wbuffer().size())`, at `clear`. -/
  | chunk
  | whileLen (originStart len : Int)
  | minLen (originStart len : Int)
  | write (originStart len : Int)
  | advance (originStart len curr : Int)
  | currStart (originStart : Int)
  | testEmpty (curr : Int)
  | clear (curr : Int)
  /-- In `write_all`, at `if (curr != step)`. -/
  | testStep (curr : Int)
  /-- In the event loop. -/
  | waiting
  /-- In `on_pipe_readable`: at a `read` of `read_all`, at the lock, at `swap`, at the end of the
  block, at the two loops, in the body of the inner one. -/
  | read
  | lockHosts
  | swapHosts
  | unlockHosts
  | loop
  | connect (h : Host)
  /-- An exception has ended the thread. -/
  | thrown
  deriving DecidableEq, Repr

/-- What the threads share. -/
structure HandOff where
  conn : Connector
  pipe : Nat
  /-- `start_` and `offset_` of the write end's buffer. -/
  start : Int
  offset : Int
  /-- Whether a call of `on_pipe_readable` has thrown. -/
  failed : Bool
  /-- The history: what has been added, and for which hosts it has been tried to connect. -/
  added : Tally Host
  attempts : List Host

namespace HandOff

variable {m : Nat}

/-- `wbuffer().size()`. -/
def size (d : HandOff) : Int := d.offset - d.start

/-- A round of the inner loop of `on_pipe_readable`. -/
def tryConnect (d : HandOff) (h : Host) (sys : Syscalls) : HandOff × HandPc :=
  match connectTask h sys with
  | .ok (_, succeed) =>
    ({ d with conn := d.conn.finish h succeed, attempts := d.attempts ++ [h] }, .loop)
  | .error _ => ({ d with conn := d.conn.unwind, failed := true }, .thrown)

/-- The statements, when the pipe takes `cap` bytes, `order` is the order of `hosts_`, and `script`
gives the answers of the system calls to one task after the other. -/
def stmt (cap : Nat) (order : Tally.Order Host) (script : Nat → Syscalls) :
    HandPc → Stmt HandOff HandPc
  | .idle => .outside
  | .enter h t => .act fun d => (d, if t = 0 then .idle else .lock h t)
  | .lock h t => .lock (.count h t)
  | .count h t => .act fun d => (d, if d.conn.hosts.has h = true then .addTo h t else .setTo h t)
  | .addTo h t => .act fun d =>
      ({ d with
          -- `hosts_[h] += t`, an `int`
          conn := { d.conn with hosts := d.conn.hosts.addWith toInt h t }
          added := d.added ++ [(h, t)] }, .unlock)
  | .setTo h t => .act fun d =>
      ({ d with
          conn := { d.conn with hosts := d.conn.hosts.set h t }
          added := d.added ++ [(h, t)] }, .unlock)
  | .unlock => .unlock .put
  -- from here on without the lock: `put_string("0")` and `write_all(1)`
  | .put => .act fun d => ({ d with offset := d.offset + 1 }, .chunk)
  | .chunk => .act fun d => (d, .whileLen d.start (min 1 d.size))
  | .whileLen originStart len => .act fun d =>
      (d, if len ≠ 0 then .minLen originStart len else .currStart originStart)
  | .minLen originStart len => .act fun d => (d, .write originStart (min len d.size))
  | .write originStart len => .act fun d =>
      if len < 0 then (d, .thrown)
      else if len = 0 then (d, .advance originStart len 0)
      else if d.pipe < cap then ({ d with pipe := d.pipe + 1 }, .advance originStart len 1)
      -- `EAGAIN`: the pipe is full
      else (d, .currStart originStart)
  | .advance originStart len curr => .act fun d =>
      ({ d with start := d.start + curr }, .whileLen originStart (len - curr))
  | .currStart originStart => .act fun d => (d, .testEmpty (d.start - originStart))
  | .testEmpty curr => .act fun d => (d, if 0 = d.size then .clear curr else .testStep curr)
  | .clear curr => .act fun d => ({ d with start := 0, offset := 0 }, .testStep curr)
  | .testStep curr => .act fun d => (d, if curr ≠ 1 then .idle else .chunk)
  -- `on_pipe_readable`, when the pipe has a byte
  | .waiting => .await (fun d => decide (0 < d.pipe)) .read
  | .read => .act fun d =>
      if 0 < d.pipe then ({ d with pipe := d.pipe - 1 }, .read) else (d, .lockHosts)
  | .lockHosts => .lock .swapHosts
  | .swapHosts => .act fun d => ({ d with conn := d.conn.swapHosts order }, .unlockHosts)
  | .unlockHosts => .unlock .loop
  | .loop => .act fun d =>
      match d.conn.task with
      | some h => (d, .connect h)
      | none => if d.conn.taken = [] then (d, .waiting) else ({ d with conn := d.conn.erase }, .loop)
  | .connect h => .act fun d => d.tryConnect h (script d.attempts.length)
  | .thrown => .outside

/-! Nobody waits for a condition variable, and nobody notifies. -/

theorem stmt_ne_wait {cap : Nat} {order : Tally.Order Host} {script : Nat → Syscalls}
    {k next : HandPc} : stmt cap order script k ≠ .wait next := by
  cases k <;> nofun

theorem stmt_ne_notifyOne {cap : Nat} {order : Tally.Order Host} {script : Nat → Syscalls}
    {k next : HandPc} : stmt cap order script k ≠ .notifyOne next := by
  cases k <;> nofun

theorem stmt_ne_notifyAll {cap : Nat} {order : Tally.Order Host} {script : Nat → Syscalls}
    {k next : HandPc} : stmt cap order script k ≠ .notifyAll next := by
  cases k <;> nofun

/-- The threads; a count is an `int`, and not negative. -/
def threads (m cap : Nat) (order : Tally.Order Host) (script : Nat → Syscalls) :
    Threads (HandThread m) HandOff HandPc where
  stmt := fun _ => stmt cap order script
  calls := fun _ k k' =>
    match k, k' with
    | .idle, .enter _ t => decide (0 ≤ t ∧ t ≤ INT_MAX)
    | _, _ => false

def startPc : HandThread m → HandPc
  | .producer _ => .idle
  | .consumer => .waiting

/-- A connector that has just been made. -/
def init (m : Nat) : Monitor (HandThread m) HandOff HandPc where
  data :=
    { conn := { hosts := [], taken := [], i := 0, failures := [] }
      pipe := 0, start := 0, offset := 0, failed := false, added := [], attempts := [] }
  owner := none
  depth := 0
  pc := startPc
  mode := fun _ => .running

variable {cap : Nat} {order : Tally.Order Host} {script : Nat → Syscalls}

/-! ## Where the threads are

A proof outline: what a producer has found out about `hosts_` while it has the lock, and how far
`on_pipe_readable` is with what it has swapped out. -/

def producerHere (k : HandPc) (d : HandOff) : Prop :=
  match k with
  | .enter _ t => 0 ≤ t ∧ t ≤ INT_MAX
  | .lock _ t | .count _ t | .addTo _ t => 0 < t ∧ t ≤ INT_MAX
  | .setTo h t => (0 < t ∧ t ≤ INT_MAX) ∧ d.conn.hosts.has h = false
  | .waiting | .read | .lockHosts | .swapHosts | .unlockHosts | .loop | .connect _ => False
  | _ => True

def consumerHere (k : HandPc) (d : HandOff) : Prop :=
  match k with
  | .waiting | .read | .lockHosts | .swapHosts => d.conn.taken = []
  | .unlockHosts | .loop | .thrown => True
  | .connect h => d.conn.task = some h
  | _ => False

def held : HandPc → Nat
  | .count _ _ | .addTo _ _ | .setTo _ _ | .unlock | .swapHosts | .unlockHosts => 1
  | _ => 0

def assertions : Monitor.Assertions (HandThread m) HandOff HandPc where
  always := fun d => d.conn.Wf
  free := fun _ => True
  here := fun i k d =>
    match i with
    | .producer _ => producerHere k d
    | .consumer => consumerHere k d
  parked := fun _ _ _ => False
  held := fun _ => held

theorem isInt_count {t : Int} (ht : 0 < t ∧ t ≤ INT_MAX) : IsInt t := ⟨by omega, ht.2⟩

/-- A producer in its locked block has the only say over `hosts_`. -/
theorem own_producer {d : HandOff} {p : Fin m} {k : HandPc}
    (hwf : d.conn.Wf) (hhere : producerHere k d) :
    (assertions (m := m)).Shown (.producer p) k d (stmt cap order script k) := by
  -- The cases are the statements; those without an effect on `hosts_` are closed by the outline
  -- itself.
  cases k with
  | idle | thrown => trivial
  | enter h t =>
      refine Monitor.Assertions.shown_test (c := t = 0) rfl hwf (fun _ => ⟨trivial, rfl⟩) fun hne => ?_
      exact ⟨⟨lt_of_le_of_ne hhere.1 (Ne.symm hne), hhere.2⟩, rfl⟩
  | lock h t => exact fun _ => ⟨hhere, rfl⟩
  | count h t =>
      exact Monitor.Assertions.shown_test (c := d.conn.hosts.has h = true) rfl hwf
        (fun _ => ⟨hhere, rfl⟩) fun hnot => ⟨⟨hhere, Bool.eq_false_iff.mpr hnot⟩, rfl⟩
  | addTo h t =>
      exact ⟨hwf.of_hosts (hwf.hosts.addWith isInt_toInt h t), trivial, rfl, nofun⟩
  | setTo h t =>
      exact ⟨hwf.of_hosts (hwf.hosts.set h (isInt_count hhere.1)), trivial, rfl, nofun⟩
  | unlock => exact ⟨trivial, rfl, fun _ => trivial⟩
  | put | chunk | minLen | advance | currStart | clear =>
      exact ⟨hwf, trivial, rfl, fun _ _ => trivial⟩
  | whileLen originStart len =>
      exact Monitor.Assertions.shown_test (c := len ≠ 0) rfl hwf (fun _ => ⟨trivial, rfl⟩)
        fun _ => ⟨trivial, rfl⟩
  | write originStart len =>
      simp only [stmt, Monitor.Assertions.Shown]
      split
      · exact ⟨hwf, trivial, rfl, fun _ _ => trivial⟩
      split
      · exact ⟨hwf, trivial, rfl, fun _ _ => trivial⟩
      split <;> exact ⟨hwf, trivial, rfl, fun _ _ => trivial⟩
  | testEmpty curr =>
      exact Monitor.Assertions.shown_test (c := 0 = d.size) rfl hwf (fun _ => ⟨trivial, rfl⟩)
        fun _ => ⟨trivial, rfl⟩
  | testStep curr =>
      exact Monitor.Assertions.shown_test (c := curr ≠ 1) rfl hwf (fun _ => ⟨trivial, rfl⟩)
        fun _ => ⟨trivial, rfl⟩
  | _ => exact hhere.elim

/-- `on_pipe_readable` works on what it has swapped out, which is its own without the lock. -/
theorem own_consumer {d : HandOff} {k : HandPc} (hwf : d.conn.Wf) (h : consumerHere k d) :
    (assertions (m := m)).Shown .consumer k d (stmt cap order script k) := by
  cases k with
  | waiting => exact fun _ => ⟨h, rfl⟩
  | read =>
      simp only [stmt, Monitor.Assertions.Shown]
      split <;> exact ⟨hwf, h, rfl, fun _ _ => trivial⟩
  | lockHosts => exact fun _ => ⟨h, rfl⟩
  | swapHosts => exact ⟨hwf.swapHosts order, trivial, rfl, fun _ _ => trivial⟩
  | unlockHosts => exact ⟨trivial, rfl, fun _ => trivial⟩
  | loop =>
      simp only [stmt, Monitor.Assertions.Shown]
      split
      case h_1 h' ht => exact ⟨hwf, ht, rfl, fun _ _ => trivial⟩
      case h_2 ht =>
        split
        case isTrue hnil => exact ⟨hwf, hnil, rfl, fun _ _ => trivial⟩
        case isFalse => exact ⟨hwf.erase, trivial, rfl, fun _ _ => trivial⟩
  | connect h' =>
      refine ⟨?_, ?_, ?_, fun _ _ => trivial⟩ <;> (simp only [tryConnect]; split)
      · exact hwf.finish h _
      · exact hwf.unwind
      · trivial
      · trivial
      · rfl
      · rfl
  | thrown => trivial
  | _ => exact h.elim

/-- Producers leave what has been swapped out alone. -/
theorem conn_producer {d : HandOff} {k : HandPc} {f : HandOff → HandOff × HandPc}
    (hhere : producerHere k d) (hst : stmt cap order script k = .act f) :
    (f d).1.conn.taken = d.conn.taken ∧ (f d).1.conn.i = d.conn.i := by
  cases k <;> simp only [stmt, reduceCtorEq, Stmt.act.injEq] at hst <;> subst hst
  case write =>
    dsimp only
    split
    · exact ⟨rfl, rfl⟩
    split
    · exact ⟨rfl, rfl⟩
    split <;> exact ⟨rfl, rfl⟩
  case read | swapHosts | loop | connect => exact hhere.elim
  all_goals exact ⟨rfl, rfl⟩

/-- Without the lock nobody writes to `hosts_`. -/
theorem hosts_of_held_zero {d : HandOff} {k : HandPc} {f : HandOff → HandOff × HandPc}
    (hst : stmt cap order script k = .act f) (hheld : held k = 0) :
    (f d).1.conn.hosts = d.conn.hosts := by
  cases k <;> simp only [stmt, reduceCtorEq, Stmt.act.injEq] at hst <;> subst hst
  case addTo | setTo | swapHosts => exact (Nat.one_ne_zero hheld).elim
  case write =>
    dsimp only
    split
    · rfl
    split
    · rfl
    split <;> rfl
  case read => dsimp only; split <;> rfl
  case loop =>
    dsimp only
    split
    · rfl
    split <;> rfl
  case connect => simp only [tryConnect]; split <;> rfl
  all_goals rfl

/-- What a producer knows about `hosts_` it knows while it has the lock; the others do not touch it
then. -/
theorem producerHere_congr {d d' : HandOff} {k : HandPc} (hhere : producerHere k d)
    (h : held k = 0 ∨ d'.conn.hosts = d.conn.hosts) : producerHere k d' := by
  cases k <;> simp only [producerHere] at hhere ⊢
  case setTo => exact ⟨hhere.1, by rw [h.resolve_left Nat.one_ne_zero]; exact hhere.2⟩
  all_goals exact hhere

/-- What the consumer knows is about `tasks_` and the round it is in. -/
theorem consumerHere_congr {d d' : HandOff} {k : HandPc} (hhere : consumerHere k d)
    (ht : d'.conn.taken = d.conn.taken) (hi : d'.conn.i = d.conn.i) : consumerHere k d' := by
  have htask : d'.conn.task = d.conn.task := by simp only [Connector.task, ht, hi]
  cases k <;> simp only [consumerHere, ht, htask] at hhere ⊢ <;> exact hhere

/-- Only the other threads call, and they call `add`. -/
theorem producer_of_call {i : HandThread m} {k k' : HandPc} {d : HandOff}
    (hc : (threads m cap order script).calls i k k' = true) (hhere : assertions.here i k d) :
    ∃ p h t, i = .producer p ∧ k = .idle ∧ k' = .enter h t ∧ 0 ≤ t ∧ t ≤ INT_MAX := by
  unfold threads at hc
  simp only at hc
  split at hc
  case h_1 h t =>
    cases i with
    | producer p => exact ⟨p, h, t, rfl, rfl, rfl, of_decide_eq_true hc⟩
    | consumer => exact hhere.elim
  case h_2 => cases hc

/-- The outline holds: each statement shows what comes after it, and no statement of another thread
breaks what a thread relies on, by `conn_producer` and `hosts_of_held_zero`. -/
theorem outline (m cap : Nat) (order : Tally.Order Host) (script : Nat → Syscalls) :
    Monitor.Outline (threads m cap order script) assertions where
  calls := fun i k k' d hc _ hhere => by
    obtain ⟨p, h, t, rfl, rfl, rfl, ht⟩ := producer_of_call hc hhere
    exact ⟨ht, rfl⟩
  own := fun i k d halways hhere => by
    cases i with
    | producer p => exact own_producer halways hhere
    | consumer => exact own_consumer halways hhere
  others := fun i j k k' f d hne halways hi hj hst hapart => by
    cases j with
    | producer q =>
        refine producerHere_congr hj (hapart.symm.imp_right fun hk => ?_)
        exact hosts_of_held_zero hst hk
    | consumer =>
        cases i with
        | producer p =>
            obtain ⟨ht, hi'⟩ := conn_producer hi hst
            exact consumerHere_congr hj ht hi'
        | consumer => exact (hne rfl).elim
  waiters := fun i j k k' f d _ _ _ hj => hj.elim
  resume := fun i k d _ _ hparked => hparked.elim

theorem outlined {ls : List (MonitorLabel (HandThread m) HandPc)}
    {s : Monitor (HandThread m) HandOff HandPc}
    (hrun : run (Monitor.step (threads m cap order script)) (init m) ls = some s) :
    Monitor.Outlined assertions s := by
  refine Monitor.Outlined.of_run (outline m cap order script) (.init ?_ rfl rfl ?_ ?_ trivial ?_)
    hrun
  · exact fun _ => rfl
  · intro i
    cases i <;> rfl
  · exact Connector.wf_new
  · intro i
    cases i with
    | producer p => trivial
    | consumer => exact rfl

/-! ## No task is lost

As long as no sum of counts wraps around, all counts in `hosts_` are positive, and the sum of what has
been tried and what is left is kept by every statement. -/

/-- The attempts for a host, and the counts that are left, are what has been added. -/
def AddsUp (d : HandOff) : Prop :=
  ∀ h, (d.attempts.count h : Int) + Tally.total d.conn.hosts h + d.conn.left h =
    Tally.total d.added h

/-- What no statement changes, unless a sum wraps around. -/
structure Kept (d : HandOff) : Prop where
  positive : d.conn.hosts.Positive
  addsUp : d.failed = false → d.AddsUp

/-- What `hosts_[h] += t` gives is an `int`. -/
def SumsInInt (s : Monitor (HandThread m) HandOff HandPc) :
    MonitorLabel (HandThread m) HandPc → Prop
  | .next (.producer p) =>
    match s.pc (.producer p) with
    | .addTo h t => IsInt (s.data.conn.hosts.get h + t)
    | _ => True
  | _ => True

instance (s : Monitor (HandThread m) HandOff HandPc) (l : MonitorLabel (HandThread m) HandPc) :
    Decidable (SumsInInt s l) := by
  unfold SumsInInt
  split
  · split <;> infer_instance
  · infer_instance

/-- `t` tasks for `h` are added to `hosts_`. -/
theorem AddsUp.merge {d : HandOff} (hadds : d.AddsUp) {h : Host} {t : Int} {hosts : Tally Host}
    (hhosts : ∀ h', Tally.total hosts h' = Tally.total d.conn.hosts h' + if h = h' then t else 0) :
    AddsUp { d with conn := { d.conn with hosts := hosts }, added := d.added ++ [(h, t)] } := by
  intro h'
  have hold := hadds h'
  show (d.attempts.count h' : Int) + Tally.total hosts h' + d.conn.left h' =
    Tally.total (d.added ++ [(h, t)]) h'
  rw [hhosts, Tally.total_append, ← hold]
  by_cases hh : h = h' <;> simp [hh]
  omega

/-- Only `hosts_[h] += t` and `hosts_[h] = t` change the map, and the history with it. -/
theorem Kept.producer_act {s : Monitor (HandThread m) HandOff HandPc} (hk : Kept s.data) {p : Fin m}
    (hok : SumsInInt s (.next (.producer p)))
    (hhere : producerHere (s.pc (.producer p)) s.data) {f : HandOff → HandOff × HandPc}
    (hst : stmt cap order script (s.pc (.producer p)) = .act f) : Kept (f s.data).1 := by
  cases hpc : s.pc (.producer p) <;> rw [hpc] at hst hhere <;>
    simp only [stmt, reduceCtorEq, Stmt.act.injEq] at hst <;> subst hst
  -- the task is in `hosts_` and in the history at once
  case addTo h t =>
    have hsum : IsInt (s.data.conn.hosts.get h + t) := by simpa [SumsInInt, hpc] using hok
    have hadd : s.data.conn.hosts.addWith toInt h t = s.data.conn.hosts.add h t :=
      Tally.addWith_eq_add (toInt_of_isInt hsum)
    dsimp only
    rw [hadd]
    exact ⟨hk.positive.add h hhere.1, fun hf => (hk.addsUp hf).merge (Tally.total_add _ _ _)⟩
  case setTo h t =>
    obtain ⟨⟨ht, -⟩, hnew⟩ := hhere
    exact ⟨Tally.Each.set hk.positive h ht, fun hf => (hk.addsUp hf).merge (Tally.total_set hnew _)⟩
  case write originStart len =>
    dsimp only
    split
    · exact ⟨hk.positive, hk.addsUp⟩
    split
    · exact ⟨hk.positive, hk.addsUp⟩
    split <;> exact ⟨hk.positive, hk.addsUp⟩
  case read | swapHosts | loop | connect => exact hhere.elim
  all_goals exact ⟨hk.positive, hk.addsUp⟩

/-- What is left in the map that was swapped out goes down by the attempt that was made. -/
theorem Kept.tryConnect {d : HandOff} (hk : Kept d) {h : Host} (ht : d.conn.task = some h)
    (sys : Syscalls) : Kept (d.tryConnect h sys).1 := by
  unfold HandOff.tryConnect
  split
  case h_1 sock succeed _ =>
    refine ⟨hk.positive, fun hf h' => ?_⟩
    have hold := hk.addsUp hf h'
    show ((d.attempts ++ [h]).count h' : Int) + Tally.total d.conn.hosts h' +
      (d.conn.finish h succeed).left h' = _
    rw [Connector.left_finish ht, ← hold, List.count_append, List.count_singleton]
    by_cases hh : h = h' <;> simp [hh]
    omega
  case h_2 => exact ⟨hk.positive, fun hf => absurd hf (by simp)⟩

/-- The swap moves tasks from one map to the other; after it, only `tryConnect` counts. -/
theorem Kept.consumer_act {s : Monitor (HandThread m) HandOff HandPc} (hk : Kept s.data)
    (hwf : s.data.conn.Wf) (hcons : consumerHere (s.pc .consumer) s.data)
    {f : HandOff → HandOff × HandPc} (hst : stmt cap order script (s.pc .consumer) = .act f) :
    Kept (f s.data).1 := by
  cases hpc : s.pc .consumer <;> rw [hpc] at hst hcons <;>
    simp only [stmt, reduceCtorEq, Stmt.act.injEq] at hst <;> subst hst
  case read =>
    dsimp only
    split <;> exact ⟨hk.positive, hk.addsUp⟩
  case swapHosts =>
    refine ⟨nofun, fun hf h => ?_⟩
    -- the tasks in `hosts_` are the ones left to be tried now
    have hold := hk.addsUp hf h
    rw [Connector.left_of_taken_nil hcons] at hold
    show (s.data.attempts.count h : Int) + 0 + (s.data.conn.swapHosts order).left h = _
    rw [Connector.left_swapHosts, hk.positive.positives_eq, ← hold]
    omega
  case loop =>
    dsimp only
    split
    case h_1 => exact ⟨hk.positive, hk.addsUp⟩
    case h_2 ht =>
      split
      case isTrue => exact ⟨hk.positive, hk.addsUp⟩
      case isFalse =>
        refine ⟨hk.positive, fun hf h => ?_⟩
        show _ + _ + s.data.conn.erase.left h = _
        rw [Connector.left_erase hwf ht]
        exact hk.addsUp hf h
  case connect h => exact hk.tryConnect hcons _
  all_goals exact hcons.elim

/-- One step: an action of a producer, one of the consumer, or one that leaves the data alone. -/
theorem Kept.step {s s' : Monitor (HandThread m) HandOff HandPc}
    {l : MonitorLabel (HandThread m) HandPc} (ho : Monitor.Outlined assertions s)
    (hk : Kept s.data) (hok : SumsInInt s l)
    (hstep : Monitor.Step (threads m cap order script) s l s') : Kept s'.data := by
  cases hstep with
  | act i f hm hst =>
      cases i with
      | producer p => exact hk.producer_act hok (ho.here _ hm) hst
      | consumer => exact hk.consumer_act ho.always (ho.here _ hm) hst
  | _ => exact hk

/-- The bytes that have been written, at `wbuffer().start_ += curr`. -/
def inFlight : HandPc → Int
  | .advance _ _ curr => curr
  | _ => 0

/-- How many bytes of the buffer have not been written. -/
def unwritten (s : Monitor (HandThread m) HandOff HandPc) : Int :=
  s.data.size - ∑ p, inFlight (s.pc (.producer p))

/-- A call of `add` is between its merge and its write, when `u` bytes are to be written. -/
def BeforeWrite (k : HandPc) (u : Int) : Prop :=
  match k with
  | .unlock | .put => True
  | .chunk => 0 < u
  | .whileLen _ len | .minLen _ len | .write _ len => len ≠ 0 ∧ 0 < u
  | _ => False

/-- `on_pipe_readable` is in its drain, or between its drain and its swap. -/
def Draining : HandPc → Prop
  | .read | .lockHosts | .swapHosts => True
  | _ => False

/-- If there are tasks, somebody will see to it. -/
def Noticed (s : Monitor (HandThread m) HandOff HandPc) : Prop :=
  s.data.conn.hosts ≠ [] →
    0 < s.data.pipe ∨ (∃ p, BeforeWrite (s.pc (.producer p)) (unwritten s)) ∨
      Draining (s.pc .consumer)

instance (k : HandPc) (u : Int) : Decidable (BeforeWrite k u) := by
  cases k <;> simp only [BeforeWrite] <;> infer_instance

instance (k : HandPc) : Decidable (Draining k) := by
  cases k <;> simp only [Draining] <;> infer_instance

/-- The bytes in the buffer do not matter: without any of them somebody will see to the tasks. -/
def Dispensable (s : Monitor (HandThread m) HandOff HandPc) : Prop :=
  s.data.conn.hosts ≠ [] →
    0 < s.data.pipe ∨ (∃ p, BeforeWrite (s.pc (.producer p)) 0) ∨ Draining (s.pc .consumer)

instance (s : Monitor (HandThread m) HandOff HandPc) : Decidable (Dispensable s) :=
  inferInstanceAs (Decidable (_ → _))

/-- `clear` finds the buffer as empty as `size` has found it, or throws away bytes that nobody needs
or has written; and what `write` takes has not been written by another thread. -/
def Undisturbed (cap : Nat) (s : Monitor (HandThread m) HandOff HandPc) :
    MonitorLabel (HandThread m) HandPc → Prop
  | .next (.producer p) =>
    match s.pc (.producer p) with
    | .clear _ =>
      s.data.size = 0 ∨ (∀ q, inFlight (s.pc (.producer q)) = 0) ∧ Dispensable s
    | .write _ len => 0 < len → s.data.pipe < cap → 0 < unwritten s
    | _ => True
  | _ => True

instance (s : Monitor (HandThread m) HandOff HandPc) (l : MonitorLabel (HandThread m) HandPc) :
    Decidable (Undisturbed cap s l) := by
  unfold Undisturbed
  split
  · split <;> infer_instance
  · infer_instance

/-- No thread asks for more than a byte, or has written another number than it asked for. -/
def appendHere : HandPc → Prop
  | .whileLen _ len | .minLen _ len | .write _ len => len = 0 ∨ len = 1
  | .advance _ len curr => (len = 0 ∨ len = 1) ∧ curr = len
  | _ => True

/-! ### What is kept -/

/-- The invariant of a run whose calls of `add` do not disturb each other: nobody is about to write
more than there is, and tasks are noticed. -/
structure HandedOver (s : Monitor (HandThread m) HandOff HandPc) : Prop where
  here : ∀ p, appendHere (s.pc (.producer p))
  nonneg : 0 ≤ unwritten s
  noticed : Noticed s

variable {s s' : Monitor (HandThread m) HandOff HandPc} {l : MonitorLabel (HandThread m) HandPc}

/-! ### How the count changes

Every case below is about one producer that goes on; the count is a sum over all of them, so the one
whose place changes is taken out of it first. -/

theorem inFlight_nonneg {k : HandPc} (h : appendHere k) : 0 ≤ inFlight k := by
  cases k <;> simp only [appendHere, inFlight] at h ⊢ <;> omega

/-- What has not been written is in the buffer. -/
theorem HandedOver.unwritten_le (hi : HandedOver s) : unwritten s ≤ s.data.size := by
  have hsum : 0 ≤ ∑ p, inFlight (s.pc (.producer p)) :=
    Finset.sum_nonneg fun p _ => inFlight_nonneg (hi.here p)
  unfold unwritten
  omega

theorem pc_producer_goto (d : HandOff) (p q : Fin m) (k : HandPc) :
    ((s.setData d).goto (.producer p) k).pc (.producer q) =
      if q = p then k else s.pc (.producer q) := by
  by_cases hq : q = p
  · subst hq
    simp
  · have hne : HandThread.producer q ≠ .producer p := fun h => hq (HandThread.producer.inj h)
    simp [hne, hq]

/-- How the number of unwritten bytes changes with a statement of one producer. -/
theorem unwritten_goto (d : HandOff) (p : Fin m) (k : HandPc) :
    unwritten ((s.setData d).goto (.producer p) k) =
      unwritten s + (d.size - s.data.size) - (inFlight k - inFlight (s.pc (.producer p))) := by
  have hsum : ∑ q, inFlight (((s.setData d).goto (.producer p) k).pc (.producer q)) =
      ∑ q, inFlight (s.pc (.producer q)) + (inFlight k - inFlight (s.pc (.producer p))) := by
    have hsplit : ∀ q, inFlight (((s.setData d).goto (.producer p) k).pc (.producer q)) =
        inFlight (s.pc (.producer q)) +
          if q = p then inFlight k - inFlight (s.pc (.producer p)) else 0 := by
      intro q
      rw [pc_producer_goto]
      split
      case isTrue hq => rw [hq]; omega
      case isFalse => rw [Int.add_zero]
    simp only [hsplit, Finset.sum_add_distrib, Finset.sum_ite_eq', Finset.mem_univ, if_true]
  have hdata : ((s.setData d).goto (.producer p) k).data = d := rfl
  unfold unwritten
  rw [hsum, hdata]
  omega

/-- More bytes to write do no harm. -/
theorem BeforeWrite.mono {k : HandPc} {u u' : Int} (h : BeforeWrite k u) (hle : u ≤ u') :
    BeforeWrite k u' := by
  cases k <;> simp only [BeforeWrite] at h ⊢
  case chunk => omega
  case whileLen | minLen | write => exact ⟨h.1, by omega⟩

/-- A statement of a producer that takes no unwritten byte away. -/
theorem HandedOver.producer (hi : HandedOver s) {p : Fin m} {d : HandOff} {k : HandPc}
    (hhere : appendHere k) {u : Int}
    (hu : u = unwritten s + (d.size - s.data.size) - (inFlight k - inFlight (s.pc (.producer p))))
    (hle : unwritten s ≤ u) (hpipe : s.data.pipe ≤ d.pipe)
    (hhosts : d.conn.hosts = s.data.conn.hosts ∨ k = .unlock)
    (hwrite : BeforeWrite (s.pc (.producer p)) (unwritten s) → 0 < d.pipe ∨ BeforeWrite k u) :
    HandedOver ((s.setData d).goto (.producer p) k) := by
  have hun : unwritten ((s.setData d).goto (.producer p) k) = u := by rw [unwritten_goto, hu]
  refine ⟨fun q => ?_, by rw [hun]; exact hi.nonneg.trans hle, fun hne => ?_⟩
  · rw [pc_producer_goto]
    split
    case isTrue => exact hhere
    case isFalse => exact hi.here q
  rw [hun]
  rcases hhosts with hsame | hunlock
  · rcases hi.noticed (hsame ▸ hne) with hp | ⟨q, hq⟩ | hdrain
    · exact .inl (lt_of_lt_of_le hp hpipe)
    · by_cases hqp : q = p
      · subst hqp
        exact (hwrite hq).imp_right fun h => .inl ⟨q, by rwa [pc_producer_goto, if_pos rfl]⟩
      · refine .inr (.inl ⟨q, ?_⟩)
        rw [pc_producer_goto, if_neg hqp]
        exact hq.mono hle
    · exact .inr (.inr (by simpa using hdrain))
  · exact .inr (.inl ⟨p, by rw [pc_producer_goto, if_pos rfl, hunlock]; trivial⟩)

/-- A statement of `on_pipe_readable` does not touch the buffer. -/
theorem HandedOver.consumer (hi : HandedOver s) {d : HandOff} {k : HandPc}
    (hsize : d.size = s.data.size)
    (hnoticed : d.conn.hosts ≠ [] → Draining k ∨ d.conn.hosts = s.data.conn.hosts ∧
      ¬ Draining (s.pc .consumer) ∧ d.pipe = s.data.pipe) :
    HandedOver ((s.setData d).goto .consumer k) := by
  have hother : ∀ q, ((s.setData d).goto .consumer k).pc (.producer q) = s.pc (.producer q) := by
    simp
  have hun : unwritten ((s.setData d).goto .consumer k) = unwritten s := by
    simp [unwritten, hsize]
  refine ⟨fun q => by rw [hother]; exact hi.here q, by rw [hun]; exact hi.nonneg, fun hne => ?_⟩
  rcases hnoticed hne with hk | ⟨hsame, hnot, hpipe⟩
  · exact .inr (.inr (by simpa using hk))
  · rcases hi.noticed (hsame ▸ hne) with hp | ⟨q, hq⟩ | hdrain
    · exact .inl (hpipe ▸ hp)
    · exact .inr (.inl ⟨q, by rwa [hother, hun]⟩)
    · exact (hnot hdrain).elim

/-- The invariant is about the data and the places only. -/
theorem HandedOver.congr {t : Monitor (HandThread m) HandOff HandPc} (hi : HandedOver s)
    (hdata : t.data = s.data) (hpc : t.pc = s.pc) : HandedOver t := by
  have hun : unwritten t = unwritten s := by rw [unwritten, unwritten, hdata, hpc]
  obtain ⟨hhere, hnonneg, hnoticed⟩ := hi
  refine ⟨by rw [hpc]; exact hhere, by rw [hun]; exact hnonneg, ?_⟩
  unfold Noticed
  rw [hpc, hdata, hun]
  exact hnoticed

/-- The statements that only pass a lock or a condition. -/
theorem HandedOver.next (hi : HandedOver s) {i : HandThread m} {next : HandPc}
    {st : Stmt HandOff HandPc} (hhere : assertions.here i (s.pc i) s.data)
    (hst : stmt cap order script (s.pc i) = st) (hafter : st.after = some next) :
    HandedOver (s.goto i next) := by
  subst hst
  cases i with
  | producer p =>
      replace hhere : producerHere (s.pc (.producer p)) s.data := hhere
      cases hpc : s.pc (.producer p) <;> rw [hpc] at hafter hhere <;>
        simp only [stmt, Stmt.after, reduceCtorEq, Option.some.injEq] at hafter <;> subst hafter
      case lock | unlock =>
        exact hi.producer (d := s.data) trivial rfl (by simp [hpc, inFlight]) le_rfl (.inl rfl)
          (by simp [hpc, BeforeWrite])
      all_goals exact hhere.elim
  | consumer =>
      replace hhere : consumerHere (s.pc .consumer) s.data := hhere
      cases hpc : s.pc .consumer <;> rw [hpc] at hafter hhere <;>
        simp only [stmt, Stmt.after, reduceCtorEq, Option.some.injEq] at hafter <;> subst hafter
      case waiting | lockHosts =>
        exact hi.consumer (d := s.data) rfl fun _ => .inl trivial
      case unlockHosts =>
        exact hi.consumer (d := s.data) rfl fun _ => .inr ⟨rfl, by rw [hpc]; exact id, rfl⟩
      all_goals exact hhere.elim

/-! ### The two statements that may disturb -/

/-- `write` takes a byte that is to be written. -/
theorem HandedOver.write (hcap : 0 < cap) (hi : HandedOver s) {p : Fin m} {originStart len : Int}
    (hpc : s.pc (.producer p) = .write originStart len)
    (hok : 0 < len → s.data.pipe < cap → 0 < unwritten s) {f : HandOff → HandOff × HandPc}
    (hst : stmt cap order script (.write originStart len) = .act f) :
    HandedOver ((s.setData (f s.data).1).goto (.producer p) (f s.data).2) := by
  have hlen : len = 0 ∨ len = 1 := by simpa [hpc, appendHere] using hi.here p
  simp only [stmt, Stmt.act.injEq] at hst
  subst hst
  rcases hlen with rfl | rfl
  · exact hi.producer (d := s.data) ⟨.inl rfl, rfl⟩ rfl (by simp [hpc, inFlight]) le_rfl (.inl rfl)
      (by simp [hpc, BeforeWrite])
  dsimp only
  rw [if_neg (by decide), if_neg (by decide)]
  split
  case isTrue hroom =>
    have hun := unwritten_goto (s := s) { s.data with pipe := s.data.pipe + 1 } p
      (.advance originStart 1 1)
    have hsize : HandOff.size { s.data with pipe := s.data.pipe + 1 } = s.data.size := rfl
    have hpos := hok Int.one_pos hroom
    rw [hpc, hsize] at hun
    simp only [inFlight] at hun
    refine ⟨fun q => ?_, hun.ge.trans' (by omega), fun _ => .inl (Nat.succ_pos _)⟩
    rw [pc_producer_goto]
    split
    case isTrue => exact ⟨.inr rfl, rfl⟩
    case isFalse => exact hi.here q
  case isFalse hfull =>
    have hfilled : 0 < s.data.pipe := by omega
    exact hi.producer (d := s.data) trivial rfl (by simp [hpc, inFlight]) le_rfl (.inl rfl)
      fun _ => .inl hfilled

/-- `clear` takes away nothing that somebody waits for. -/
theorem HandedOver.clear (hi : HandedOver s) {p : Fin m} {curr : Int}
    (hpc : s.pc (.producer p) = .clear curr)
    (hok : s.data.size = 0 ∨ (∀ q, inFlight (s.pc (.producer q)) = 0) ∧ Dispensable s) :
    HandedOver ((s.setData { s.data with start := 0, offset := 0 }).goto (.producer p)
      (.testStep curr)) := by
  have hsize : HandOff.size { s.data with start := 0, offset := 0 } = 0 := rfl
  have hun := unwritten_goto (s := s) { s.data with start := 0, offset := 0 } p (.testStep curr)
  rw [hpc, hsize] at hun
  simp only [inFlight, Int.sub_zero] at hun
  rcases hok with hzero | ⟨hnone, hneed⟩
  · exact hi.producer trivial rfl (by rw [hsize, hzero, hpc]; simp [inFlight]) le_rfl (.inl rfl)
      (by simp [hpc, BeforeWrite])
  · have hall : unwritten s = s.data.size := by simp [unwritten, hnone]
    have hnil : unwritten ((s.setData { s.data with start := 0, offset := 0 }).goto (.producer p)
        (.testStep curr)) = 0 := hun.trans (by omega)
    refine ⟨fun q => ?_, hnil.ge, fun hne => ?_⟩
    · rw [pc_producer_goto]
      split
      case isTrue => trivial
      case isFalse => exact hi.here q
    · rw [hnil]
      rcases hneed hne with hp | ⟨q, hq⟩ | hdrain
      · exact .inl hp
      · have hqp : q ≠ p := by
          rintro rfl
          rw [hpc] at hq
          exact hq
        exact .inr (.inl ⟨q, by rwa [pc_producer_goto, if_neg hqp]⟩)
      · exact .inr (.inr (by simpa using hdrain))

/-- The statements of `add` one by one: `put_string` adds a byte to write, `write` takes one,
`clear` none that matters, and the others leave the count alone. -/
theorem HandedOver.producer_act (hcap : 0 < cap) (hi : HandedOver s) {p : Fin m}
    (hok : Undisturbed cap s (.next (.producer p)))
    (hprod : producerHere (s.pc (.producer p)) s.data) {f : HandOff → HandOff × HandPc}
    (hst : stmt cap order script (s.pc (.producer p)) = .act f) :
    HandedOver ((s.setData (f s.data).1).goto (.producer p) (f s.data).2) := by
  have hhere := hi.here p
  have hnonneg : 0 ≤ unwritten s := hi.nonneg
  have hle := hi.unwritten_le
  -- statements that leave the buffer and the pipe alone
  have hstay : ∀ {k}, appendHere k → inFlight k = inFlight (s.pc (.producer p)) →
      (BeforeWrite (s.pc (.producer p)) (unwritten s) → BeforeWrite k (unwritten s)) →
      HandedOver ((s.setData s.data).goto (.producer p) k) :=
    fun hk hfl hw => hi.producer hk (by omega) le_rfl le_rfl (.inl rfl) fun h => .inr (hw h)
  cases hpc : s.pc (.producer p)
  case write originStart len =>
    have hroom : 0 < len → s.data.pipe < cap → 0 < unwritten s := by
      simpa [Undisturbed, hpc] using hok
    exact hi.write hcap hpc hroom (hpc ▸ hst)
  case clear curr =>
    have hcases : s.data.size = 0 ∨
        (∀ q, inFlight (s.pc (.producer q)) = 0) ∧ Dispensable s := by
      simpa [Undisturbed, hpc] using hok
    rw [hpc] at hst
    simp only [stmt, Stmt.act.injEq] at hst
    subst hst
    exact hi.clear hpc hcases
  all_goals
    rw [hpc] at hst hhere hprod hstay
    simp only [stmt, reduceCtorEq, Stmt.act.injEq] at hst
    try subst hst
  case enter h t =>
    dsimp only
    split <;> exact hstay trivial rfl False.elim
  case count h t =>
    dsimp only
    split <;> exact hstay trivial rfl False.elim
  case addTo h t | setTo h t =>
    exact hi.producer trivial rfl (by rw [hpc]; simp [inFlight, HandOff.size]) le_rfl (.inr rfl)
      (by rw [hpc]; exact False.elim)
  case put =>
    have hmore : HandOff.size { s.data with offset := s.data.offset + 1 } = s.data.size + 1 := by
      simp only [HandOff.size]; omega
    have hflight : inFlight .chunk = inFlight .put := rfl
    refine hi.producer (u := unwritten s + 1) (k := .chunk) trivial ?_ (by omega) le_rfl (.inl rfl)
      fun _ => .inr ?_
    · rw [hmore, hpc, hflight]; omega
    · show 0 < unwritten s + 1
      omega
  case chunk =>
    refine hstay ?_ rfl fun h => ?_
    · show min 1 s.data.size = 0 ∨ min 1 s.data.size = 1
      omega
    · have hpos : 0 < unwritten s := h
      exact ⟨by omega, hpos⟩
  case whileLen originStart len =>
    dsimp only
    split
    case isTrue hne => exact hstay hhere rfl id
    case isFalse hzero => exact hstay trivial rfl fun h => (hzero h.1).elim
  case minLen originStart len =>
    replace hhere : len = 0 ∨ len = 1 := hhere
    refine hstay ?_ rfl fun h => ?_
    · show min len s.data.size = 0 ∨ min len s.data.size = 1
      omega
    · obtain ⟨hne, hpos⟩ : len ≠ 0 ∧ 0 < unwritten s := h
      exact ⟨by omega, hpos⟩
  case advance originStart len curr =>
    obtain ⟨hlen, rfl⟩ : (len = 0 ∨ len = 1) ∧ curr = len := hhere
    have hless : HandOff.size { s.data with start := s.data.start + curr } =
        s.data.size - curr := by
      simp only [HandOff.size]; omega
    have hk : appendHere (.whileLen originStart (curr - curr)) := .inl (by omega)
    refine hi.producer (u := unwritten s) hk ?_ le_rfl le_rfl (.inl rfl)
      (by rw [hpc]; exact False.elim)
    rw [hless, hpc]
    simp only [inFlight]
    omega
  case currStart originStart => exact hstay trivial rfl False.elim
  case testEmpty curr =>
    dsimp only
    split <;> exact hstay trivial rfl False.elim
  case testStep curr =>
    dsimp only
    split <;> exact hstay trivial rfl False.elim
  all_goals exact hprod.elim

/-- The statements of `on_pipe_readable`: while it drains and swaps it is the one that sees to the
tasks; the swap leaves none. -/
theorem HandedOver.consumer_act (hi : HandedOver s) {f : HandOff → HandOff × HandPc}
    (hcons : consumerHere (s.pc .consumer) s.data)
    (hst : stmt cap order script (s.pc .consumer) = .act f) :
    HandedOver ((s.setData (f s.data).1).goto .consumer (f s.data).2) := by
  have hstay : ∀ {d k}, d.size = s.data.size → d.conn.hosts = s.data.conn.hosts →
      d.pipe = s.data.pipe → ¬ Draining (s.pc .consumer) →
      HandedOver ((s.setData d).goto .consumer k) :=
    fun hsize hhosts hpipe hnot => hi.consumer hsize fun _ => .inr ⟨hhosts, hnot, hpipe⟩
  cases hpc : s.pc .consumer <;> rw [hpc] at hst hcons hstay <;>
    simp only [stmt, reduceCtorEq, Stmt.act.injEq] at hst <;> subst hst
  case read =>
    dsimp only
    split <;> exact hi.consumer rfl fun _ => .inl trivial
  case swapHosts => exact hi.consumer rfl fun hne => (hne rfl).elim
  case loop =>
    dsimp only
    split
    · exact hstay rfl rfl rfl id
    split <;> exact hstay rfl rfl rfl id
  case connect h =>
    simp only [tryConnect]
    split <;> exact hstay rfl rfl rfl id
  all_goals exact hcons.elim

/-- One step. A condition on the step is needed for `clear` and for `write` only. -/
theorem HandedOver.step (hcap : 0 < cap) (ho : Monitor.Outlined assertions s)
    (hi : HandedOver s) (hok : Undisturbed cap s l)
    (hstep : Monitor.Step (threads m cap order script) s l s') : HandedOver s' := by
  cases hstep with
  | call i k hm hc =>
      obtain ⟨p, h, t, rfl, hpc, rfl, -⟩ := producer_of_call hc (ho.here i hm)
      exact hi.producer (d := s.data) trivial rfl (by simp [hpc, inFlight]) le_rfl (.inl rfl)
        (by simp [hpc, BeforeWrite])
  | act i f hm hst =>
      cases i with
      | producer p => exact hi.producer_act hcap hok (ho.here _ hm) hst
      | consumer => exact hi.consumer_act (ho.here _ hm) hst
  | await i cond next hm hst hc => exact hi.next (ho.here i hm) hst rfl
  | lock i next hm hst hfree =>
      exact (hi.congr (t := s.acquire i) rfl rfl).next (ho.here i hm) hst rfl
  | unlock i next hm hst how =>
      exact (hi.congr (t := s.release) rfl rfl).next (ho.here i hm) hst rfl
  | wait i next hm hst how => exact absurd hst stmt_ne_wait
  | notifyOne i next woken hm hst hw => exact absurd hst stmt_ne_notifyOne
  | notifyAll i next hm hst => exact absurd hst stmt_ne_notifyAll
  | spuriousWakeup i hm => exact (ho.parked i (by simp [hm])).elim
  | reacquire i hm hfree => exact (ho.parked i (by simp [hm])).elim

/-! ## The theorem -/

/-- `k` statements of a call of `add`. -/
def adds (p : Fin m) (h : Host) (k : Nat) : List (MonitorLabel (HandThread m) HandPc) :=
  .call (.producer p) (.enter h 1) :: List.replicate k (.next (.producer p))

end HandOff

end Cppev
