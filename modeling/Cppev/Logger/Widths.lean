import Cppev.Logger.Messages
import Cppev.Nio.ReadBuffers

/-!
# The logger within `int`

`Logger.Basic` computes without bounds. In the source `put_string` converts the size of its string to
`int`, and `offset_`, `cap_` and `recur_level_` are `int`s. Here the three statements that compute
with them do so within `int`: a string of 2^31 bytes has a negative length then, and nothing of it is
put. Beyond `int` there is no result, and the thread does not go on; it has the lock.

* `run_threads`: a run within `int` is a run without bounds.
* `log_intact`: so messages are logged whole, as long as everything fits.
* `piece_dropped`: a piece that does not fit is missing from its message.
-/

namespace Cppev

/-- `put_string`. `none` is a signed overflow. -/
def Buffer.putStringInt (b : Buffer) (str : List Byte) : Option Buffer :=
  if (BufferCall.putString str).InInt b then some ((BufferCall.putString str).on b) else none

namespace AsyncLogger

variable {n : Nat} {level : Int} {tid : LogThread n → List Byte}
  {s s' : Monitor (LogThread n) (AsyncLogger n) LogPc} {l : MonitorLabel (LogThread n) LogPc}
  {ls : List (MonitorLabel (LogThread n) LogPc)}

/-! ## The statements -/

/-- `buffers_[curr_].put_string(str)`. -/
def putStringInt (a : AsyncLogger n) (str : List Byte) : Option (AsyncLogger n) :=
  ((a.buffers a.curr).putStringInt str).map fun b =>
    { a with buffers := Function.update a.buffers a.curr b }

/-- The statements of `stmt`, within `int`. -/
def stmtInt (tid : LogThread n → List Byte) (i : LogThread n) : LogPc → Stmt (AsyncLogger n) LogPc
  | .test r op => .act fun a =>
      if a.recurLevel + 1 < 2 ^ 31 then
        ({ a with recurLevel := a.recurLevel + 1 },
          if 0 = a.recurLevel then .header r op else .put r op)
      else (a, .test r op)
  | .header r op => .act fun a =>
      match a.putStringInt (headerOf a.level (tid i) op.timestamp) with
      | some a' => ({ a' with msgs := a.msgs ++ [⟨i, op.timestamp, [], false, false⟩] }, .put r op)
      | none => (a, .header r op)
  | .put r op => .act fun a =>
      match a.putStringInt (cStr op.call.str) with
      | some a' =>
        (a'.addCall op.call, if op.call = .endl then .readRecur (r + 1) else .idle (r + 1))
      | none => (a, .put r op)
  | k => stmt tid i k

def threadsInt (tid : LogThread n → List Byte) :
    Threads (LogThread n) (AsyncLogger n) LogPc where
  stmt := stmtInt tid
  calls := (threads tid).calls

/-- The string ends within the first 2^30 bytes of the current buffer, which is as far as a capacity
can be doubled. -/
def Fits (a : AsyncLogger n) (str : List Byte) : Prop :=
  (a.buffers a.curr).offset + str.length ≤ 2 ^ 30

/-- What the statement counts fits: the locks of a chain, or the bytes of a buffer. -/
def CountFits (tid : LogThread n → List Byte) (i : LogThread n) (a : AsyncLogger n) : LogPc → Prop
  | .test _ _ => a.recurLevel + 1 < 2 ^ 31
  | .header _ op => a.Fits (headerOf a.level (tid i) op.timestamp)
  | .put _ op => a.Fits (cStr op.call.str)
  | _ => True

/-- The step stays within `int`. -/
def InInt (tid : LogThread n → List Byte) (s : Monitor (LogThread n) (AsyncLogger n) LogPc) :
    MonitorLabel (LogThread n) LogPc → Prop
  | .next i => CountFits tid i s.data (s.pc i)
  | .call .. | .signal .. | .spuriousWakeup _ | .reacquire _ => True

instance (a : AsyncLogger n) (str : List Byte) : Decidable (a.Fits str) :=
  inferInstanceAs (Decidable (_ ≤ _))

instance (tid : LogThread n → List Byte) (i : LogThread n) (a : AsyncLogger n) :
    (k : LogPc) → Decidable (CountFits tid i a k)
  | .test _ _ => inferInstanceAs (Decidable (a.recurLevel + 1 < 2 ^ 31))
  | .header _ op =>
    inferInstanceAs (Decidable (a.Fits (headerOf a.level (tid i) op.timestamp)))
  | .put _ op => inferInstanceAs (Decidable (a.Fits (cStr op.call.str)))
  | .idle _ | .lock .. | .readRecur _ | .resetRecur .. | .whileRecur .. | .unlockRecur ..
  | .notify | .endlReturn | .loopTest | .loopLock | .sizeTest | .predicate | .cond | .swap
  | .loopUnlock _ | .bufTest _ | .write _ | .clear _ | .exited | .alive | .stopNotify | .join
  | .destroyed => isTrue trivial

instance (tid : LogThread n → List Byte) (s : Monitor (LogThread n) (AsyncLogger n) LogPc) :
    (l : MonitorLabel (LogThread n) LogPc) → Decidable (InInt tid s l)
  | .next i => inferInstanceAs (Decidable (CountFits tid i s.data (s.pc i)))
  | .call .. | .signal .. | .spuriousWakeup _ | .reacquire _ => isTrue trivial

/-! ## Within `int`

A buffer of the logger begins with a capacity of 1, so its capacity is always a power of two, and one
that is an `int`. What fits is then what `grows_iff_of_pow` says, and the statements are those without
bounds. -/

/-- The capacity of a buffer that has been grown within `int` only. -/
def Sized (b : Buffer) : Prop := (∃ j : Nat, b.cap = 2 ^ j) ∧ b.cap ≤ INT_MAX

theorem Sized.putStringInt {b b' : Buffer} (h : Sized b) {str : List Byte}
    (hput : b.putStringInt str = some b') : Sized b' := by
  obtain ⟨⟨j, hj⟩, -⟩ := h
  unfold Buffer.putStringInt at hput
  split at hput
  case isFalse => cases hput
  case isTrue hrange =>
    obtain rfl := Option.some.inj hput
    have hcap : ((BufferCall.putString str).on b).cap =
        (b.resize (b.offset + toInt str.length)).cap := Buffer.cap_produce b str _
    obtain ⟨k, hk⟩ := Buffer.cap_resize_eq_pow (b := b) (by rw [hj]; exact Buffer.one_le_two_pow j)
      (b.offset + toInt str.length)
    refine ⟨⟨j + k, ?_⟩, ?_⟩
    · rw [hcap, hk, hj, pow_add]
    · rw [hcap]
      exact hrange.2 _ (Buffer.cap_resize_mem b _)

/-- A string that fits is put as it is. -/
theorem putStringInt_of_fits {b : Buffer} (hb : Sized b) (hwf : b.Wf) {str : List Byte}
    (hfits : b.offset + str.length ≤ 2 ^ 30) : b.putStringInt str = some (b.putString str) := by
  obtain ⟨⟨j, hj⟩, hmax⟩ := hb
  have hoffset : 0 ≤ b.offset := hwf.start_nonneg.trans hwf.start_le
  have hlen : toInt str.length = str.length := toInt_natCast (by omega)
  have hrange : (BufferCall.putString str).InInt b := by
    have hgrows := (Buffer.grows_iff_of_pow hj hmax (b.offset + str.length)).mpr hfits
    show b.offset + toInt str.length ≤ INT_MAX ∧ _
    rw [hlen]
    exact ⟨hfits.trans (by decide), hgrows.2⟩
  rw [Buffer.putStringInt, if_pos hrange]
  show some (b.produce str (toInt str.length)) = _
  rw [hlen]
  rfl

/-- Both buffers are sized. -/
def AllSized (a : AsyncLogger n) : Prop := ∀ c, Sized (a.buffers c)

theorem AllSized.update {a : AsyncLogger n} (h : AllSized a) (c : Fin 2) {b : Buffer}
    (hb : Sized b) (d : Fin 2) : Sized (Function.update a.buffers c b d) := by
  rw [Function.update_apply]
  split
  · exact hb
  · exact h d

theorem AllSized.putStringInt {a a' : AsyncLogger n} (h : AllSized a) {str : List Byte}
    (hput : a.putStringInt str = some a') : AllSized a' := by
  obtain ⟨b, hb, rfl⟩ := Option.map_eq_some_iff.mp hput
  exact h.update a.curr ((h a.curr).putStringInt hb)

theorem putStringInt_eq {a : AsyncLogger n} (h : AllSized a) (hwf : ∀ c, (a.buffers c).Wf)
    {str : List Byte} (hfits : a.Fits str) : a.putStringInt str = some (a.putString str) := by
  rw [AsyncLogger.putStringInt, putStringInt_of_fits (h a.curr) (hwf a.curr) hfits]
  rfl

/-- What a statement leaves is sized, whether it comes back or not. -/
theorem AllSized.act {a : AsyncLogger n} (h : AllSized a) {i : LogThread n} {k : LogPc}
    {f : AsyncLogger n → AsyncLogger n × LogPc} (hst : stmtInt tid i k = .act f) :
    AllSized (f a).1 := by
  cases k <;> simp only [stmtInt, stmt, reduceCtorEq, Stmt.act.injEq] at hst <;> subst hst
  case test r op =>
    beta_reduce
    split
    · exact h
    · exact h
  case header r op =>
    cases hput : a.putStringInt (headerOf a.level (tid i) op.timestamp) with
    | none =>
        simp only [hput]
        exact h
    | some a' =>
        have h' : AllSized a' := h.putStringInt hput
        simp only [hput]
        exact h'
  case put r op =>
    cases hput : a.putStringInt (cStr op.call.str) with
    | none =>
        simp only [hput]
        exact h
    | some a' =>
        have h' : AllSized a' := h.putStringInt hput
        simp only [hput]
        exact h'
  case loopTest =>
    beta_reduce
    split
    · exact h
    · exact h
  case clear prev => exact h.update prev ⟨(h prev).1, (h prev).2⟩
  all_goals exact h

theorem AllSized.step (h : AllSized s.data) (hstep : Monitor.Step (threadsInt tid) s l s') :
    AllSized s'.data := by
  cases hstep with
  | act i f hm hst => exact h.act hst
  | _ => exact h

/-- A statement that fits does what it does without bounds. -/
theorem exec_stmtInt (h : AllSized s.data) (hwf : ∀ c, (s.data.buffers c).Wf) {i : LogThread n}
    (hfits : CountFits tid i s.data (s.pc i)) :
    s.exec i (stmtInt tid i (s.pc i)) = s.exec i (stmt tid i (s.pc i)) := by
  cases hpc : s.pc i <;> rw [hpc] at hfits <;> simp only [stmtInt, stmt, Monitor.exec]
  case test r op =>
    have hlevel : s.data.recurLevel + 1 < 2 ^ 31 := hfits
    rw [if_pos hlevel]
  case header r op =>
    rw [putStringInt_eq h hwf hfits]
    rfl
  case put r op => rw [putStringInt_eq h hwf hfits]

theorem step_threadsInt (h : AllSized s.data) (hwf : ∀ c, (s.data.buffers c).Wf)
    (hok : InInt tid s l) : s.step (threadsInt tid) l = s.step (threads tid) l := by
  cases l with
  | next i =>
      show (if s.mode i = .running then s.exec i (stmtInt tid i (s.pc i)) else none) = _
      rw [exec_stmtInt h hwf hok]
      rfl
  | signal i woken =>
      simp only [Monitor.step, threadsInt, threads]
      cases s.pc i <;> rfl
  | _ => rfl

theorem allSized_init (n : Nat) (level : Int) : AllSized (init n level).data :=
  fun _ => ⟨⟨0, rfl⟩, show (1 : Int) ≤ INT_MAX by decide⟩

/-- **Within `int` the bounds do not show**: step by step, both machines do the same. -/
theorem run_threads (hok : AllSteps (Monitor.step (threadsInt tid)) (InInt tid) (init n level) ls)
    (hrun : run (Monitor.step (threadsInt tid)) (init n level) ls = some s) :
    run (Monitor.step (threads tid)) (init n level) ls = some s := by
  obtain ⟨t, ht, rfl, -⟩ := run_sim (Monitor.step (threadsInt tid)) (Monitor.step (threads tid))
    (InInt tid)
    (fun s t => s = t ∧ AllSized s.data ∧ Monitor.Outlined (assertions level tid) s)
    (fun s t l s' hR hok hstep => by
      obtain ⟨rfl, hsized, ho⟩ := hR
      have hsame := hstep
      rw [step_threadsInt hsized ho.always.2 hok] at hsame
      exact ⟨s', hsame, rfl, hsized.step (Monitor.step_sound hstep),
        ho.step (outline level tid) (Monitor.step_sound hsame)⟩)
    ⟨rfl, allSized_init n level, outlined (run_nil _ _)⟩ hok hrun
  exact ht

/-! ## The theorem -/

/-- **Messages are logged whole.** For any number of threads and every interleaving within `int`, the
stream is a log of messages, of which the last one may be under construction; the messages of a
thread are what it has put after `<<`, in order; and the thread does not have the lock after its
`log::endl`. -/
theorem log_intact (n : Nat) (level : Int) (tid : LogThread n → List Byte)
    (ls : List (MonitorLabel (LogThread n) LogPc))
    (s : Monitor (LogThread n) (AsyncLogger n) LogPc)
    (hok : AllSteps (Monitor.step (threadsInt tid)) (InInt tid) (init n level) ls)
    (hrun : run (Monitor.step (threadsInt tid)) (init n level) ls = some s) :
    Intact level tid ls s :=
  intact_of_run (run_threads hok hrun)

/-- Thread 0 has logged a message, which `run_impl` has taken; thread 1 is logging. -/
def twoThreads : List (MonitorLabel (LogThread 2) LogPc) :=
  let i : Fin 2 := ⟨0, Nat.zero_lt_two⟩
  let j : Fin 2 := ⟨1, Nat.one_lt_two⟩
  putsPiece i (bytesOf "a") (bytesOf "now") ++ putsEndl i [] ++
    List.replicate 6 (.next .background) ++ putsPiece j (bytesOf "b") (bytesOf "now")

theorem log_intact_two :
    ∃ s, run (Monitor.step (threadsInt fun _ => bytesOf "7")) (init 2 1) twoThreads = some s ∧
      taken s = bytesOf "- [INFO] [now] [LWP 7] a\n" ∧
      Intact 1 (fun _ => bytesOf "7") twoThreads s ∧ s.holds (.writer 0) = 0 := by
  have hok : AllSteps (Monitor.step (threadsInt fun _ => bytesOf "7"))
      (InInt fun _ => bytesOf "7") (init 2 1) twoThreads := by
    decide +kernel
  have hmap : (run (Monitor.step (threadsInt fun _ => bytesOf "7")) (init 2 1) twoThreads).map
      (fun s => (taken s, s.pc (.writer 0))) =
        some (bytesOf "- [INFO] [now] [LWP 7] a\n", .idle 0) := by
    decide +kernel
  obtain ⟨s, hs, hview⟩ := Option.map_eq_some_iff.mp hmap
  have hintact := log_intact 2 1 (fun _ => bytesOf "7") twoThreads s hok hs
  exact ⟨s, hs, congrArg Prod.fst hview, hintact,
    hintact.lock 0 0 (congrArg Prod.snd hview) (by decide)⟩

/-! ## A piece of 2^31 bytes

Its length is negative as an `int`, so `resize` and the loop of `produce` have nothing to do, and
nothing overflows: the call returns, and the piece is not in the buffer. -/

/-- `put_string` of a string whose size is not positive as an `int`. -/
theorem putStringInt_of_nonpos {b : Buffer} (hb : Sized b) (hwf : b.Wf) {str : List Byte}
    (hlen : toInt str.length ≤ 0) : b.putStringInt str = some b := by
  have hcap : b.offset + toInt str.length ≤ b.cap := by
    have hoffset := hwf.offset_le
    omega
  have hrange : (BufferCall.putString str).InInt b := by
    refine ⟨hcap.trans hb.2, fun c hc => ?_⟩
    rw [Buffer.capsTaken, if_pos hcap] at hc
    rw [List.mem_singleton.mp hc]
    exact hb.2
  have hsame : (BufferCall.putString str).on b = b := by
    show b.produce str (toInt str.length) = b
    rw [Buffer.produce, Buffer.resize_of_le hcap, forUpTo_of_le hlen]
  rw [Buffer.putStringInt, if_pos hrange, hsame]

/-- A log is as long as each of its pieces at least. -/
theorem length_piece_le (level : Int) (tid : LogThread n → List Byte) {ms : List (Message n)}
    {m : Message n} (hm : m ∈ ms) {str : List Byte} (hstr : str ∈ m.pieces) : str.length ≤ (log level tid ms).length := by
  have hpiece : str.length ≤ m.pieces.flatten.length :=
    (List.sublist_flatten_of_mem hstr).length_le
  have hbytes : m.pieces.flatten.length ≤ (m.bytes level tid).length := by
    simp only [Message.bytes, List.length_append]
    omega
  have hlog : (m.bytes level tid).length ≤ (log level tid ms).length := by
    rw [log, List.flatMap_def]
    exact (List.sublist_flatten_of_mem (List.mem_map_of_mem hm)).length_le
  exact hpiece.trans (hbytes.trans hlog)

/-- A log that is shorter than a piece is not the log of it. -/
theorem not_intact {t : Fin n} {r : Nat} {str : List Byte} (hpc : s.pc (.writer t) = .idle r)
    (hcalls : calls t ls = [.piece str]) (hshort : (stream s).length < str.length) :
    ¬ Intact level tid ls s := by
  rintro ⟨⟨ms, hms, -, -, hlogged⟩, -⟩
  have hown := hlogged t
  rw [hpc, hcalls, show inProgress (.idle r) = [] from rfl, List.append_nil] at hown
  have hmem : .piece str ∈ logged (.writer t) ms := by
    rw [hown]
    exact List.mem_singleton_self _
  obtain ⟨m, hm, hin⟩ := List.mem_flatMap.mp hmem
  have hpiece : str ∈ m.pieces := by simpa [Message.calls] using hin
  have hle := length_piece_le level tid (List.mem_of_mem_filter hm) hpiece
  rw [← hms] at hle
  omega

/-- Thread `t` is at `k` with the data `a`, and the thread of `run_impl` has not begun. -/
structure Alone (t : Fin n) (k : LogPc) (a : AsyncLogger n)
    (s : Monitor (LogThread n) (AsyncLogger n) LogPc) : Prop where
  mode : s.mode (.writer t) = .running
  pc : s.pc (.writer t) = k
  data : s.data = a
  background : s.pc .background = .loopTest

section Alone

variable {t : Fin n} {k : LogPc} {a : AsyncLogger n} {r : Nat} {op : LogOp}

theorem Alone.goto (h : Alone t k a s) (k' : LogPc) (a' : AsyncLogger n) :
    Alone t k' a' ((s.setData a').goto (.writer t) k') where
  mode := h.mode
  pc := Function.update_self ..
  data := rfl
  background := by simpa using h.background

theorem Alone.act (tid : LogThread n → List Byte) {f : AsyncLogger n → AsyncLogger n × LogPc}
    (h : Alone t k a s) (hst : stmtInt tid (.writer t) k = .act f) :
    ∃ s', s.step (threadsInt tid) (.next (.writer t)) = some s' ∧ Alone t (f a).2 (f a).1 s' := by
  refine ⟨_, Monitor.step_complete (.act (LogThread.writer t) f h.mode ?_), ?_⟩
  · show stmtInt tid (LogThread.writer t) (s.pc (LogThread.writer t)) = _
    rw [h.pc, hst]
  · rw [h.data]
    exact h.goto _ _

theorem Alone.test (tid : LogThread n → List Byte) (h : Alone t (.test r op) a s)
    (hrec : a.recurLevel = 0) :
    ∃ s', s.step (threadsInt tid) (.next (.writer t)) = some s' ∧
      Alone t (.header r op) { a with recurLevel := 1 } s' := by
  obtain ⟨s', hs', h'⟩ := h.act tid rfl
  refine ⟨s', hs', ?_⟩
  simpa [hrec] using h'

theorem Alone.header (tid : LogThread n → List Byte) (h : Alone t (.header r op) a s)
    (hsized : AllSized a) (hwf : ∀ c, (a.buffers c).Wf)
    (hfits : a.Fits (headerOf a.level (tid (.writer t)) op.timestamp)) :
    ∃ s', s.step (threadsInt tid) (.next (.writer t)) = some s' ∧
      Alone t (.put r op) (a.writeHeader tid (.writer t) op.timestamp) s' := by
  obtain ⟨s', hs', h'⟩ := h.act tid rfl
  refine ⟨s', hs', ?_⟩
  simp only [putStringInt_eq hsized hwf hfits] at h'
  exact h'

/-- The piece is not there, and the thread goes on. -/
theorem Alone.put (tid : LogThread n → List Byte) {str timestamp : List Byte}
    (h : Alone t (.put r ⟨.piece str, timestamp⟩) a s) (hsized : AllSized a)
    (hwf : ∀ c, (a.buffers c).Wf) (hnul : 0 ∉ str) (hlen : toInt str.length ≤ 0) :
    ∃ s', s.step (threadsInt tid) (.next (.writer t)) = some s' ∧
      Alone t (.idle (r + 1)) (a.addCall (.piece str)) s' := by
  have hput : a.putStringInt (cStr str) = some a := by
    rw [AsyncLogger.putStringInt, cStr_of_not_mem hnul,
      putStringInt_of_nonpos (hsized _) (hwf _) hlen, Option.map_some, Function.update_eq_self]
  obtain ⟨s', hs', h'⟩ := h.act tid rfl
  refine ⟨s', hs', ?_⟩
  simpa [LogCall.str, hput] using h'

end Alone

theorem unread_writeHeader {a : AsyncLogger n} (tid : LogThread n → List Byte) (i : LogThread n)
    (timestamp : List Byte) (hwf : ∀ c, (a.buffers c).Wf) (c : LogCall) :
    (((a.writeHeader tid i timestamp).addCall c).buffers
      ((a.writeHeader tid i timestamp).addCall c).curr).unread =
        (a.buffers a.curr).unread ++ headerOf a.level (tid i) timestamp :=
  unread_buffers_putString hwf _

/-- A thread begins a message with such a piece. -/
theorem run_putsPiece (level : Int) (tid : LogThread n → List Byte) (t : Fin n) {str : List Byte}
    (hnul : 0 ∉ str) (hlen : toInt str.length ≤ 0) (timestamp : List Byte)
    (hheader : (headerOf level (tid (.writer t)) timestamp).length ≤ 2 ^ 30) :
    ∃ s, run (Monitor.step (threadsInt tid)) (init n level) (putsPiece t str timestamp) = some s ∧
      s.pc (.writer t) = .idle 1 ∧ stream s = headerOf level (tid (.writer t)) timestamp := by
  let op : LogOp := ⟨.piece str, timestamp⟩
  have h₀ : Alone t (.idle 0) (init n level).data (init n level) := ⟨rfl, rfl, rfl, rfl⟩
  -- the call and `lock_.lock()` leave the data alone
  obtain ⟨s₁, hs₁, h₁, hfree⟩ : ∃ s₁,
      (init n level).step (threadsInt tid) (.call (.writer t) (.lock 0 op)) = some s₁ ∧
      Alone t (.lock 0 op) (init n level).data s₁ ∧ s₁.Free (.writer t) := by
    refine ⟨_, Monitor.step_complete (.call _ _ h₀.mode ?_), h₀.goto _ _, .inl rfl⟩
    simp [op, init, startPc, threadsInt, threads, LogCall.str, hnul]
  obtain ⟨s₂, hs₂, h₂⟩ : ∃ s₂, s₁.step (threadsInt tid) (.next (.writer t)) = some s₂ ∧
      Alone t (.test 0 op) (init n level).data s₂ := by
    refine ⟨_, Monitor.step_complete (.lock _ (.test 0 op) h₁.mode ?_ hfree), ?_⟩
    · show stmtInt tid (LogThread.writer t) (s₁.pc (LogThread.writer t)) = _
      rw [h₁.pc]
      rfl
    · exact ⟨h₁.mode, Function.update_self .., h₁.data, by simpa using h₁.background⟩
  obtain ⟨s₃, hs₃, h₃⟩ := h₂.test tid rfl
  have hsized : AllSized { (init n level).data with recurLevel := 1 } := allSized_init n level
  have hwf : ∀ c, (({ (init n level).data with recurLevel := 1 } :
      AsyncLogger n).buffers c).Wf := fun _ => Buffer.wf_empty
  have hfits : Fits { (init n level).data with recurLevel := 1 }
      (headerOf level (tid (.writer t)) timestamp) := by
    show (0 : Int) + (headerOf level (tid (.writer t)) timestamp).length ≤ 2 ^ 30
    omega
  obtain ⟨s₄, hs₄, h₄⟩ := h₃.header tid hsized hwf hfits
  have hgrown := hsized.putStringInt (putStringInt_eq hsized hwf hfits)
  obtain ⟨s₅, hs₅, h₅⟩ := h₄.put tid hgrown (wf_buffers_putString hwf _) hnul hlen
  refine ⟨s₅, ?_, h₅.pc, ?_⟩
  · refine (run_cons_of_some hs₁).trans ((run_cons_of_some hs₂).trans ?_)
    exact (run_cons_of_some hs₃).trans
      ((run_cons_of_some hs₄).trans ((run_cons_of_some hs₅).trans (run_nil _ _)))
  · have htaken : taken s₅ = [] := by simp [taken, h₅.background]
    have hunread := unread_writeHeader tid (.writer t) timestamp hwf (.piece str)
    rw [stream, htaken, h₅.data, hunread]
    rfl

/-- A piece of 2^31 bytes is missing from its message, and the stream is the log of no messages with
that piece. -/
theorem piece_dropped :
    let str : List Byte := List.replicate (2 ^ 31) 97
    ∃ s, run (Monitor.step (threadsInt fun _ => bytesOf "7")) (init 1 1)
        (putsPiece 0 str (bytesOf "now")) = some s ∧
      stream s = bytesOf "- [INFO] [now] [LWP 7] " ∧
      ¬ Intact 1 (fun _ => bytesOf "7") (putsPiece 0 str (bytesOf "now")) s := by
  intro str
  have hnul : 0 ∉ str := fun h => absurd (List.eq_of_mem_replicate h) (by decide)
  have hlength : str.length = 2 ^ 31 := List.length_replicate
  have hlen : toInt str.length ≤ 0 := by
    rw [hlength]
    decide
  obtain ⟨s, hs, hpc, hstream⟩ := run_putsPiece 1 (fun _ => bytesOf "7") (0 : Fin 1) hnul hlen
    (bytesOf "now") (by decide)
  refine ⟨s, hs, hstream.trans (by decide), not_intact hpc rfl ?_⟩
  rw [hstream, hlength]
  decide

end AsyncLogger

end Cppev
