import Cppev.Logger.Basic

/-!
# Messages are logged whole

The stream of a logger is what `write` was given, the buffer that is taken for it, and the current
buffer. In every run it is the log of some messages, and the messages of a thread are the calls it
has made, in order, without the one it is in.

* `Recorded`: the messages of the history against the labels of the run.
* `Intact`: each message is whole, but for the last one, and a thread that has come out of
  `log::endl` does not have the lock. `intact_of_run`: so it is in every run.
-/

namespace Cppev

namespace AsyncLogger

variable {n : Nat} {level : Int} {tid : LogThread n → List Byte}
  {s s' : Monitor (LogThread n) (AsyncLogger n) LogPc} {l : MonitorLabel (LogThread n) LogPc}
  {ls : List (MonitorLabel (LogThread n) LogPc)}

/-! ## The calls of a run

What threads have asked for is read off the labels, and is compared with the messages that the
history has. -/

/-- The call that a label lets thread `t` make. -/
def callOf (t : Fin n) : MonitorLabel (LogThread n) LogPc → Option LogCall
  | .call i (.lock _ op) => if i = .writer t then some op.call else none
  | _ => none

/-- All that thread `t` has put after `<<`, in order. -/
def calls (t : Fin n) (ls : List (MonitorLabel (LogThread n) LogPc)) : List LogCall :=
  ls.filterMap (callOf t)

/-- The call a thread is in, as long as its text is not in the buffer. -/
def inProgress : LogPc → List LogCall
  | .lock _ op | .test _ op | .header _ op | .put _ op => [op.call]
  | _ => []

/-- The calls that have made the messages of `i`. -/
def logged (i : LogThread n) (ms : List (Message n)) : List LogCall :=
  (ms.filter fun m => m.thread = i).flatMap Message.calls

theorem logged_append (i : LogThread n) (ms ms' : List (Message n)) :
    logged i (ms ++ ms') = logged i ms ++ logged i ms' := by
  simp [logged]

theorem logged_singleton (i : LogThread n) (m : Message n) :
    logged i [m] = if m.thread = i then m.calls else [] := by
  by_cases h : m.thread = i <;> simp [logged, h]

theorem calls_add {m : Message n} (h : m.ended = false) (c : LogCall) :
    (m.add c).calls = m.calls ++ [c] := by
  cases c <;> simp [Message.calls, Message.add, h]

theorem thread_add (m : Message n) (c : LogCall) : (m.add c).thread = m.thread := by
  cases c <;> rfl

theorem endlReturned_thread (i : LogThread n) (m : Message n) :
    (m.endlReturned i).thread = m.thread ∧ (m.endlReturned i).calls = m.calls := by
  unfold Message.endlReturned
  split <;> exact ⟨rfl, rfl⟩

theorem logged_endlReturned (i j : LogThread n) (ms : List (Message n)) :
    logged i (ms.map (Message.endlReturned j)) = logged i ms := by
  induction ms with
  | nil => rfl
  | cons m ms ih =>
      have hcons : ∀ (x : Message n) xs, logged i (x :: xs) = logged i [x] ++ logged i xs :=
        fun x xs => logged_append i [x] xs
      rw [List.map_cons, hcons, hcons m, ih, logged_singleton, logged_singleton,
        (endlReturned_thread j m).1, (endlReturned_thread j m).2]

/-! ## The history against the labels

The calls of a thread are those of its messages, and the one it is in. Each statement of a writer
takes a call from the second to the first, or neither. -/

/-- Each thread's messages, and the call it is in, are the calls it has made. -/
structure Recorded (ls : List (MonitorLabel (LogThread n) LogPc))
    (s : Monitor (LogThread n) (AsyncLogger n) LogPc) : Prop where
  calls : ∀ t, logged (.writer t) s.data.msgs ++ inProgress (s.pc (.writer t)) = calls t ls
  writers : ∀ m ∈ s.data.msgs, ∃ t, m.thread = .writer t

/-- A step that is no call, and leaves the messages and the calls in progress as they are. -/
theorem Recorded.same (hi : Recorded ls s) (hl : ∀ t, callOf t l = none)
    (hm : s'.data.msgs = s.data.msgs)
    (hp : ∀ t, inProgress (s'.pc (.writer t)) = inProgress (s.pc (.writer t))) :
    Recorded (ls ++ [l]) s' where
  calls := fun t => by
    rw [hm, hp, hi.calls]
    simp [AsyncLogger.calls, hl]
  writers := by rw [hm]; exact hi.writers

/-- The same for a thread that goes on to `k`. -/
theorem Recorded.goto (hi : Recorded ls s) (hl : ∀ t, callOf t l = none) {i : LogThread n}
    {k : LogPc} (hk : inProgress k = inProgress (s.pc i)) :
    Recorded (ls ++ [l]) (s.goto i k) := by
  refine hi.same hl rfl fun t => ?_
  by_cases ht : LogThread.writer t = i
  · subst ht; simpa using hk
  · simp [ht]

theorem callOf_next (t : Fin n) (i : LogThread n) : callOf t (.next i) = none := rfl

/-- `t` makes a call. -/
theorem Recorded.call (hi : Recorded ls s) {t : Fin n} {r : Nat} {op : LogOp}
    (hpc : s.pc (.writer t) = .idle r) :
    Recorded (ls ++ [.call (.writer t) (.lock r op)]) (s.goto (.writer t) (.lock r op)) where
  calls := fun u => by
    have hcalls := hi.calls u
    by_cases hu : u = t
    · subst hu
      simp only [hpc, inProgress, List.append_nil] at hcalls
      simp [AsyncLogger.calls, callOf, inProgress, hcalls]
    · have hne : LogThread.writer u ≠ .writer t := fun h => hu (LogThread.writer.inj h)
      simp only [Monitor.goto_data, Monitor.goto_pc, Function.update_of_ne hne, hcalls]
      simp [AsyncLogger.calls, callOf, Ne.symm hu]
  writers := hi.writers

/-- A header begins a message without calls. -/
theorem Recorded.writeHeader (hi : Recorded ls s) {t : Fin n} {r : Nat} {op : LogOp}
    (hpc : s.pc (.writer t) = .header r op) :
    Recorded (ls ++ [.next (.writer t)])
      ((s.setData (s.data.writeHeader tid (.writer t) op.timestamp)).goto (.writer t)
        (.put r op)) := by
  have hdata : Recorded ls (s.setData (s.data.writeHeader tid (.writer t) op.timestamp)) := by
    refine ⟨fun u => ?_, fun m hm => ?_⟩
    · rw [← hi.calls u]
      simp [AsyncLogger.writeHeader, logged_append, logged_singleton, Message.calls]
    · rcases List.mem_append.mp hm with hm | hm
      · exact hi.writers m hm
      · obtain rfl := List.mem_singleton.mp hm
        exact ⟨t, rfl⟩
  exact hdata.goto (callOf_next · _) (by simp [hpc, inProgress])

/-- A call is put into the last message, which is the thread's own. -/
theorem Recorded.put (hi : Recorded ls s) {t : Fin n} {r : Nat} {op : LogOp} {k : LogPc}
    {str : List Byte} (hpc : s.pc (.writer t) = .put r op) (ho : Open (.writer t) r s.data)
    (hk : inProgress k = []) :
    Recorded (ls ++ [.next (.writer t)])
      ((s.setData ((s.data.putString str).addCall op.call)).goto (.writer t) k) := by
  obtain ⟨front, m, hm, hthread, -, hended, -⟩ := ho
  have hadd : ((s.data.putString str).addCall op.call).msgs = front ++ [m.add op.call] :=
    addCall_of_open (a := s.data.putString str) hm _
  refine ⟨fun u => ?_, fun x hx => ?_⟩
  · have hcalls := hi.calls u
    have hold : AsyncLogger.calls u (ls ++ [.next (.writer t)]) = AsyncLogger.calls u ls := by
      simp [AsyncLogger.calls, callOf]
    rw [hold, ← hcalls]
    simp only [Monitor.goto_data, Monitor.setData_data, Monitor.goto_pc, hadd, hm,
      logged_append, logged_singleton, thread_add, hthread]
    by_cases hu : u = t
    -- the call in progress becomes the last one of the open message
    · subst hu
      have hput : inProgress (.put r op) = [op.call] := rfl
      simp [hpc, hk, hput, calls_add hended]
    · have hne : LogThread.writer u ≠ .writer t := fun h => hu (LogThread.writer.inj h)
      simp [hne, Ne.symm hu]
  · replace hx : x ∈ front ++ [m.add op.call] := hadd ▸ hx
    rcases List.mem_append.mp hx with hx | hx
    · exact hi.writers x (hm ▸ List.mem_append_left _ hx)
    · obtain rfl := List.mem_singleton.mp hx
      exact ⟨t, (thread_add m _).trans hthread⟩

/-- Only an `act` changes the call that a thread is in. -/
theorem inProgress_next {i : LogThread n} {k next : LogPc} {st : Stmt (AsyncLogger n) LogPc}
    (hst : stmt tid i k = st) (h : st.after = some next) : inProgress next = inProgress k := by
  subst hst
  cases k <;> simp only [stmt, Stmt.after, reduceCtorEq, Option.some.injEq] at h <;>
    subst h <;> rfl

theorem Recorded.writer (ho : Monitor.Outlined (assertions level tid) s) (hi : Recorded ls s)
    {t : Fin n} {f : AsyncLogger n → AsyncLogger n × LogPc} (hm : s.mode (.writer t) = .running)
    (hst : stmt tid (.writer t) (s.pc (.writer t)) = .act f) :
    Recorded (ls ++ [.next (.writer t)]) ((s.setData (f s.data).1).goto (.writer t) (f s.data).2) := by
  have hhere : writerHere (.writer t) (s.pc (.writer t)) s.data := ho.here _ hm
  -- statements that leave the messages alone
  have hsame : ∀ {a k}, a.msgs = s.data.msgs → inProgress k = inProgress (s.pc (.writer t)) →
      Recorded (ls ++ [.next (.writer t)]) ((s.setData a).goto (.writer t) k) := by
    intro a k ha hk
    refine hi.same (callOf_next · _) ha fun u => ?_
    by_cases hu : u = t
    · subst hu; simpa using hk
    · have hne : LogThread.writer u ≠ .writer t := fun h => hu (LogThread.writer.inj h)
      simp [hne]
  cases hpc : s.pc (.writer t) <;> rw [hpc] at hst hhere <;>
    simp only [stmt, reduceCtorEq, Stmt.act.injEq] at hst <;> subst hst
  case test r op =>
    refine hsame rfl ?_
    show inProgress (if 0 = s.data.recurLevel then .header r op else .put r op) = _
    rw [hpc]
    split <;> rfl
  case header r op => exact hi.writeHeader hpc
  case put r op =>
    refine hi.put hpc hhere.2.2 ?_
    show inProgress (if op.call = .endl then .readRecur (r + 1) else .idle (r + 1)) = _
    split <;> rfl
  case readRecur r => exact hsame rfl (by rw [hpc]; rfl)
  case resetRecur r recur => exact hsame rfl (by rw [hpc]; rfl)
  case whileRecur r recur =>
    refine hsame rfl ?_
    show inProgress (if recur = 0 then .notify else .unlockRecur r (recur - 1)) = _
    rw [hpc]
    split <;> rfl
  case endlReturn =>
    have hidle : Recorded ls (s.setData (s.data.endlReturned (.writer t))) := by
      refine ⟨fun u => ?_, fun m hmem => ?_⟩
      · rw [← hi.calls u]
        show logged _ (s.data.msgs.map _) ++ _ = _
        rw [logged_endlReturned]
        rfl
      · obtain ⟨m', hm', rfl⟩ := List.mem_map.mp hmem
        rw [(endlReturned_thread _ m').1]
        exact hi.writers m' hm'
    exact hidle.goto (callOf_next · _) (by simp [hpc, inProgress])
  all_goals exact hhere.elim

theorem Recorded.step (ho : Monitor.Outlined (assertions level tid) s) (hi : Recorded ls s)
    (hstep : Monitor.Step (threads tid) s l s') : Recorded (ls ++ [l]) s' := by
  cases hstep with
  | call i k hm hc =>
      obtain ⟨t, r, op, rfl, hpc, rfl, -⟩ := writer_of_call hc (ho.here i hm)
      exact hi.call hpc
  | act i f hm hst =>
      cases i with
      | writer t => exact hi.writer ho hm hst
      | background =>
          have hback := (ho.here _ hm).1
          exact hi.same (callOf_next · _) (background_keeps hback hst).2.1 fun t => by simp
      | destructor =>
          have hstops := destructor_stops (ho.here _ hm) hst
          refine hi.same (callOf_next · _) ?_ fun t => by simp
          rw [Monitor.goto_data, Monitor.setData_data, hstops]
  | await i cond next hm hst hc =>
      exact hi.goto (callOf_next · _) (inProgress_next hst rfl)
  | lock i next hm hst hfree =>
      have htake : Recorded ls (s.acquire i) := ⟨hi.calls, hi.writers⟩
      exact htake.goto (callOf_next · _) (inProgress_next hst rfl)
  | unlock i next hm hst how =>
      have hgive : Recorded ls s.release := ⟨hi.calls, hi.writers⟩
      exact hgive.goto (callOf_next · _) (inProgress_next hst rfl)
  | wait i next hm hst how =>
      have hgive : Recorded ls s.release := ⟨hi.calls, hi.writers⟩
      have hgo := hgive.goto (callOf_next · i) (inProgress_next hst rfl)
      exact ⟨hgo.calls, hgo.writers⟩
  | notifyOne i next woken hm hst hw =>
      have hwake : Recorded ls (s.wake woken) := ⟨hi.calls, hi.writers⟩
      exact hwake.goto (fun _ => rfl) (inProgress_next hst rfl)
  | notifyAll i next hm hst =>
      have hwake : Recorded ls s.wakeAll := ⟨hi.calls, hi.writers⟩
      exact hwake.goto (callOf_next · _) (inProgress_next hst rfl)
  | spuriousWakeup i hm => exact hi.same (fun _ => rfl) rfl fun _ => rfl
  | reacquire i hm hfree => exact hi.same (fun _ => rfl) rfl fun _ => rfl

/-- The outline and the history hold in every run. -/
theorem recorded (hrun : run (Monitor.step (threads tid)) (init n level) ls = some s) :
    Monitor.Outlined (assertions level tid) s ∧ Recorded ls s := by
  have h0 : Monitor.Outlined (assertions level tid) (init n level) ∧
      Recorded [] (init n level) :=
    ⟨outlined (run_nil _ _), fun _ => rfl, nofun⟩
  have hinv := run_hist (Monitor.step (threads tid))
    (fun hist s => Monitor.Outlined (assertions level tid) s ∧ Recorded hist s)
    (fun hist s l s' hi hs => ⟨hi.1.step (outline level tid) (Monitor.step_sound hs),
      hi.2.step hi.1 (Monitor.step_sound hs)⟩) h0 hrun
  simpa using hinv

/-! ## The stream

What has been written, what has been taken and what is in the current buffer: with the outline, it
is the log of the messages. -/

/-- What the thread of `run_impl` has taken, and has not written yet. -/
def taken (s : Monitor (LogThread n) (AsyncLogger n) LogPc) : List Byte :=
  match s.pc .background with
  | .loopUnlock prev | .bufTest prev | .write prev => (s.data.buffers prev).unread
  | _ => []

/-- What has been written, what has been taken, and the current buffer. -/
def stream (s : Monitor (LogThread n) (AsyncLogger n) LogPc) : List Byte :=
  s.data.out ++ taken s ++ (s.data.buffers s.data.curr).unread

/-- What the outline says of the background thread, wherever it is. -/
theorem backgroundHere_of_outlined (ho : Monitor.Outlined (assertions level tid) s) :
    backgroundHere level tid (s.pc .background) s.data := by
  by_cases hm : s.mode .background = .running
  · exact (ho.here _ hm).1
  · exact (ho.parked _ hm).2.2

theorem stream_eq (ho : Monitor.Outlined (assertions level tid) s) :
    stream s = log level tid s.data.msgs := by
  have hback := backgroundHere_of_outlined ho
  unfold stream taken
  cases hpc : s.pc .background <;> rw [hpc] at hback <;> simp only [backgroundHere] at hback
  case loopTest | loopLock | sizeTest | predicate | cond | swap =>
    rw [List.append_nil]; exact hback.2.1
  case loopUnlock | bufTest | write => exact hback.2.1
  case clear => rw [List.append_nil]; exact hback.2.1
  case exited => rw [List.append_nil]; exact hback.2

/-- Wherever the writer is that has the lock, all messages but the last one are complete. -/
theorem front_ended_of_writerHere {a : AsyncLogger n} {i : LogThread n} {k : LogPc}
    (h : writerHere i k a) (hheld : held k ≠ 0) : ∀ m ∈ a.msgs.dropLast, m.ended = true := by
  have hopen : ∀ {r}, Open i r a → ∀ m ∈ a.msgs.dropLast, m.ended = true := by
    rintro r ⟨front, m, hm, -, -, -, hfront⟩
    simpa [hm] using hfront
  have hall : AllEnded a → ∀ m ∈ a.msgs.dropLast, m.ended = true :=
    fun h m hm => h m (List.dropLast_subset _ hm)
  cases k <;> simp only [writerHere, held] at h hheld
  case idle r => exact hopen (h hheld).2
  case lock r op => exact hopen (h.2 hheld).2
  case test r op =>
    by_cases hr : r = 0
    · exact hall (h.2.2.1 hr)
    · exact hopen (h.2.2.2 hr)
  case header r op => exact hall h.2.2.2
  case put r op => exact hopen h.2.2
  case readRecur r => exact hall h.2.2
  case resetRecur r recur => exact hall h.2.2
  case whileRecur r recur => exact hall (h.2 hheld).2
  case unlockRecur r recur => exact hall h.2.2
  all_goals exact (hheld rfl).elim

/-- All messages but the last one are complete. -/
theorem front_ended (ho : Monitor.Outlined (assertions level tid) s) :
    ∀ m ∈ s.data.msgs.dropLast, m.ended = true := by
  have hsettled : Settled s.data → ∀ m ∈ s.data.msgs.dropLast, m.ended = true :=
    fun h m hm => h.2 m (List.dropLast_subset _ hm)
  cases howner : s.owner with
  | none => exact hsettled (ho.free howner)
  | some i =>
      have hm : s.mode i = .running :=
        Decidable.of_not_not fun hm => (ho.waiting i hm).1 howner
      have hheld : held (s.pc i) ≠ 0 := (ho.owner_iff hm).mp howner
      have hhere := ho.here i hm
      cases i with
      | writer t => exact front_ended_of_writerHere hhere hheld
      | background => exact hsettled (hhere.2 hheld)
      | destructor =>
          cases hpc : s.pc .destructor <;> rw [hpc] at hhere hheld <;>
            first | exact (hheld rfl).elim | exact hhere.elim

/-- A thread in a chain of `<<` has put a piece last. -/
theorem getLast_logged_of_open {i : LogThread n} {r : Nat} {a : AsyncLogger n} (h : Open i r a)
    (hr : r ≠ 0) : (logged i a.msgs).getLast? ≠ some .endl := by
  obtain ⟨front, m, hm, hthread, hlen, hended, -⟩ := h
  have hpieces : m.pieces ≠ [] := fun hnil => hr (by rw [← hlen, hnil]; rfl)
  have hcalls : m.calls = m.pieces.map .piece := by simp [Message.calls, hended]
  rw [hm, logged_append, logged_singleton, if_pos hthread, hcalls]
  simp [List.getLast?_append, hpieces]

/-- After `log::endl` the thread has the lock no more. -/
theorem holds_after_endl (ho : Monitor.Outlined (assertions level tid) s) (hi : Recorded ls s)
    {t : Fin n} {r : Nat} (hpc : s.pc (.writer t) = .idle r)
    (hlast : (calls t ls).getLast? = some .endl) : s.holds (.writer t) = 0 := by
  have hm : s.mode (.writer t) = .running := ho.running_of_not_parked fun h => nomatch h.1
  have hholds : r = s.holds (.writer t) := by simpa [assertions, hpc, held] using ho.running _ hm
  have hhere : writerHere (.writer t) (s.pc (.writer t)) s.data := ho.here _ hm
  rw [hpc] at hhere
  by_contra hne
  have hr : r ≠ 0 := hholds ▸ hne
  have hcalls := hi.calls t
  have hidle : inProgress (.idle r) = [] := rfl
  rw [hpc, hidle, List.append_nil] at hcalls
  exact getLast_logged_of_open (hhere hr).2 hr (hcalls ▸ hlast)

/-- The stream is a log of messages, of which the last one may be under construction; the messages of
a thread are what it has put after `<<`, in order; and the thread does not have the lock after its
`log::endl`. -/
structure Intact (level : Int) (tid : LogThread n → List Byte)
    (ls : List (MonitorLabel (LogThread n) LogPc))
    (s : Monitor (LogThread n) (AsyncLogger n) LogPc) : Prop where
  log : ∃ ms : List (Message n),
    stream s = log level tid ms ∧
    (∀ m ∈ ms.dropLast, m.ended = true) ∧
    (∀ m ∈ ms, ∃ t, m.thread = .writer t) ∧
    ∀ t, logged (.writer t) ms ++ inProgress (s.pc (.writer t)) = calls t ls
  lock : ∀ t r, s.pc (.writer t) = .idle r → (calls t ls).getLast? = some .endl →
    s.holds (.writer t) = 0

/-- **Messages are logged whole**, for any number of threads and every interleaving. The invariant is
the outline of the statements together with the history (`recorded`). -/
theorem intact_of_run (hrun : run (Monitor.step (threads tid)) (init n level) ls = some s) :
    Intact level tid ls s := by
  obtain ⟨ho, hi⟩ := recorded hrun
  exact ⟨⟨s.data.msgs, stream_eq ho, front_ended ho, hi.writers, hi.calls⟩,
    fun t r hpc hlast => holds_after_endl ho hi hpc hlast⟩

/-! ## Runs that log -/

/-- A message of thread `t`, of one piece, up to its piece. -/
def putsPiece (t : Fin n) (str timestamp : List Byte) : List (MonitorLabel (LogThread n) LogPc) :=
  .call (.writer t) (.lock 0 ⟨.piece str, timestamp⟩) :: List.replicate 4 (.next (.writer t))

/-- The rest of it, when the signal wakes `woken`. -/
def putsEndl (t : Fin n) (woken : List (LogThread n)) : List (MonitorLabel (LogThread n) LogPc) :=
  .call (.writer t) (.lock 1 ⟨.endl, []⟩) :: List.replicate 10 (.next (.writer t)) ++
    [.signal (.writer t) woken, .next (.writer t)]

end AsyncLogger

end Cppev
