import Mathlib.Data.Fintype.Basic
import Mathlib.Data.List.FinRange
import Mathlib.Data.List.TakeWhile
import Cppev.Buffer.Basic
import Cppev.Lib.Monitor

/-!
# The asynchronous logger

`async_logger` with a level of zero or more, statement by statement: any number of threads that log
with `<<`, the thread of `run_impl`, and the destructor. `write` takes all the bytes it is given.

A thread is in a chain of `<<` from its first piece to `log::endl`, and a control point inside
counts the pieces so far: as often has the thread taken `lock_`, which is recursive. A message of
the history holds what its thread has put into a buffer. Lengths and counts are unbounded here;
`Logger.Widths` has the machine in which they are `int`s, and says when the two agree.

* `outline`: where every thread has the lock, what `recur_level_` is there, and which bytes the two
  buffers hold.
-/

namespace Cppev

/-! ## Strings and pieces -/

/-- The bytes of a text of the source. -/
def bytesOf (s : String) : List Byte := s.toList.map fun c => UInt8.ofNat c.toNat

/-- What a `const char *` gives: the bytes up to the first NUL. -/
def cStr (str : List Byte) : List Byte := str.takeWhile (· ≠ 0)

/-- A string without a null byte is put as it is. -/
theorem cStr_of_not_mem {str : List Byte} (h : 0 ∉ str) : cStr str = str := by
  rw [cStr, List.takeWhile_eq_self_iff]
  intro b hb
  have hne : b ≠ 0 := by
    rintro rfl
    exact h hb
  simp [hne]

/-! ## Where the threads are -/

/-- Those that log, the thread of `run_impl`, and the one that runs the destructor. -/
inductive LogThread (n : Nat) where
  | writer (t : Fin n)
  | background
  | destructor
  deriving DecidableEq, Repr

instance (n : Nat) : Fintype (LogThread n) where
  elems :=
    ⟨((.background :: .destructor :: (List.finRange n).map .writer : List (LogThread n)) :), by
      simpa using (List.nodup_finRange n).map fun _ _ h => LogThread.writer.inj h⟩
  complete := fun i => by cases i <;> simp

/-- What comes after `<<`. -/
inductive LogCall where
  | piece (str : List Byte)
  | endl
  deriving DecidableEq, Repr

/-- What `operator<<(const char *)` is called with. -/
def LogCall.str : LogCall → List Byte
  | .piece str => str
  | .endl => bytesOf "\n"

/-- A call of `operator<<`, and what `timestamp()` gives if it is asked. -/
structure LogOp where
  call : LogCall
  timestamp : List Byte
  deriving DecidableEq, Repr

/-- Where a thread is. In a chain of `<<`, `r` pieces have been put since it began. -/
inductive LogPc where
  /-- Between two calls. -/
  | idle (r : Nat)
  /-- In `operator<<(const char *)`, which `operator<<(const async_logger &)` calls with a newline:
  at `lock_.lock()`, at `if (0 == recur_level_++)`, at `write_header`, at `put_string`. -/
  | lock (r : Nat) (op : LogOp)
  | test (r : Nat) (op : LogOp)
  | header (r : Nat) (op : LogOp)
  | put (r : Nat) (op : LogOp)
  /-- In `operator<<(const async_logger &)`: at `auto recur = recur_level_`, at `recur_level_ = 0`,
  at `while (recur--)`, at `lock_.unlock()`, at `cond_.notify_one()`, at `return`. -/
  | readRecur (r : Nat)
  | resetRecur (r recur : Nat)
  | whileRecur (r recur : Nat)
  | unlockRecur (r recur : Nat)
  | notify
  | endlReturn
  /-- In `run_impl`: at `while (!stop_)`, at the lock, at `if (0 == buffers_[curr_].size())`, at the
  predicate of `cond_.wait`, at the wait in it, at the swap, and at the end of the block. -/
  | loopTest
  | loopLock
  | sizeTest
  | predicate
  | cond
  | swap
  | loopUnlock (prev : Fin 2)
  /-- At `if (buf.size())`, at `write`, at `buf.clear()`. -/
  | bufTest (prev : Fin 2)
  | write (prev : Fin 2)
  | clear (prev : Fin 2)
  | exited
  /-- Before the destructor; in it, at `cond_.notify_one()` and at `join()`; after it. -/
  | alive
  | stopNotify
  | join
  | destroyed
  deriving DecidableEq, Repr

/-! ## Messages -/

/-- A message as far as it has been put into a buffer, and whether its `log::endl` has returned. -/
structure Message (n : Nat) where
  thread : LogThread n
  timestamp : List Byte
  pieces : List (List Byte)
  ended : Bool
  returned : Bool
  deriving DecidableEq, Repr

/-- What the threads share. The last three fields are the history: whether the destructor has got to
its end, what `write` has been given, and the messages. -/
structure AsyncLogger (n : Nat) where
  level : Int
  stop : Bool
  curr : Fin 2
  recurLevel : Nat
  buffers : Fin 2 → Buffer
  /-- Whether the thread of `run_impl` has ended, for `join`. -/
  finished : Bool
  /-- The history: all that `write` was given, and the messages in the order of their headers. -/
  out : List Byte
  msgs : List (Message n)

/-- What `write_header` puts. -/
def headerOf (level : Int) (tid timestamp : List Byte) : List Byte :=
  bytesOf "- [" ++ bytesOf (if level = 1 then "INFO] [" else "ERROR] [") ++ timestamp ++
    bytesOf "] [LWP " ++ tid ++ bytesOf "] "

namespace Message

variable {n : Nat}

/-- The header, the pieces in order, the newline. -/
def bytes (level : Int) (tid : LogThread n → List Byte) (m : Message n) : List Byte :=
  headerOf level (tid m.thread) m.timestamp ++ m.pieces.flatten ++
    if m.ended then bytesOf "\n" else []

/-- The calls that have made the message what it is. -/
def calls (m : Message n) : List LogCall :=
  m.pieces.map .piece ++ if m.ended then [.endl] else []

def add (m : Message n) : LogCall → Message n
  | .piece str => { m with pieces := m.pieces ++ [str] }
  | .endl => { m with ended := true }

/-- The `log::endl` of `i` returns. -/
def endlReturned (i : LogThread n) (m : Message n) : Message n :=
  if m.thread = i ∧ m.ended = true then { m with returned := true } else m

end Message

namespace AsyncLogger

variable {n : Nat}

/-! ## The statements

`stmt` says for each place what is done there. The places in a chain of `<<` carry how many pieces
have been put, since the thread has taken `lock_` as often. -/

/-- `buffers_[curr_].put_string(str)`. -/
def putString (a : AsyncLogger n) (str : List Byte) : AsyncLogger n :=
  { a with buffers := Function.update a.buffers a.curr ((a.buffers a.curr).putString str) }

/-- `write_header(buffers_[curr_])` in thread `i`. -/
def writeHeader (a : AsyncLogger n) (tid : LogThread n → List Byte) (i : LogThread n)
    (timestamp : List Byte) : AsyncLogger n :=
  { a.putString (headerOf a.level (tid i) timestamp) with
    msgs := a.msgs ++ [⟨i, timestamp, [], false, false⟩] }

/-- The last message gets what the call has put. -/
def addCall (a : AsyncLogger n) (c : LogCall) : AsyncLogger n :=
  { a with msgs := a.msgs.dropLast ++ (a.msgs.getLast?.map fun m => m.add c).toList }

def endlReturned (a : AsyncLogger n) (i : LogThread n) : AsyncLogger n :=
  { a with msgs := a.msgs.map (Message.endlReturned i) }

def stmt (tid : LogThread n → List Byte) (i : LogThread n) :
    LogPc → Stmt (AsyncLogger n) LogPc
  | .idle _ => .outside
  | .lock r op => .lock (.test r op)
  | .test r op => .act fun a =>
      ({ a with recurLevel := a.recurLevel + 1 }, if 0 = a.recurLevel then .header r op else .put r op)
  | .header r op => .act fun a => (a.writeHeader tid i op.timestamp, .put r op)
  | .put r op => .act fun a =>
      ((a.putString (cStr op.call.str)).addCall op.call,
        if op.call = .endl then .readRecur (r + 1) else .idle (r + 1))
  | .readRecur r => .act fun a => (a, .resetRecur r a.recurLevel)
  | .resetRecur r recur => .act fun a => ({ a with recurLevel := 0 }, .whileRecur r recur)
  | .whileRecur r recur => .act fun a =>
      (a, if recur = 0 then .notify else .unlockRecur r (recur - 1))
  | .unlockRecur r recur => .unlock (.whileRecur (r - 1) recur)
  | .notify => .notifyOne .endlReturn
  | .endlReturn => .act fun a => (a.endlReturned i, .idle 0)
  | .loopTest => .act fun a =>
      if a.stop = true then ({ a with finished := true }, .exited) else (a, .loopLock)
  | .loopLock => .lock .sizeTest
  | .sizeTest => .act fun a => (a, if 0 = (a.buffers a.curr).size then .predicate else .swap)
  | .predicate => .act fun a =>
      (a, if (a.buffers a.curr).size ≠ 0 ∨ a.stop = true then .swap else .cond)
  | .cond => .wait .predicate
  | .swap => .act fun a => ({ a with curr := 1 - a.curr }, .loopUnlock a.curr)
  | .loopUnlock prev => .unlock (.bufTest prev)
  | .bufTest prev => .act fun a =>
      (a, if (a.buffers prev).size ≠ 0 then .write prev else .loopTest)
  | .write prev => .act fun a => ({ a with out := a.out ++ (a.buffers prev).unread }, .clear prev)
  | .clear prev => .act fun a =>
      ({ a with buffers := Function.update a.buffers prev (a.buffers prev).clear }, .loopTest)
  | .exited => .outside
  | .alive => .act fun a => ({ a with stop := true }, .stopNotify)
  | .stopNotify => .notifyOne .join
  | .join => .await (fun a => a.finished) .destroyed
  | .destroyed => .outside

/-- The threads, when `gettid()` is printed as `tid`. They log pieces without NUL bytes. -/
def threads (tid : LogThread n → List Byte) :
    Threads (LogThread n) (AsyncLogger n) LogPc where
  stmt := stmt tid
  calls := fun _ k k' =>
    match k, k' with
    | .idle r, .lock r' op => r = r' && decide (0 ∉ op.call.str)
    | _, _ => false

/-- Where each thread is when the constructor has returned. -/
def startPc : LogThread n → LogPc
  | .writer _ => .idle 0
  | .background => .loopTest
  | .destructor => .alive

/-- `async_logger(level)`. -/
def init (n : Nat) (level : Int) : Monitor (LogThread n) (AsyncLogger n) LogPc where
  data :=
    { level := level, stop := false, curr := 0, recurLevel := 0, buffers := fun _ => .empty
      finished := false, out := [], msgs := [] }
  owner := none
  depth := 0
  pc := startPc
  mode := fun _ => .running

/-! ## The outline

What is claimed at each place. The background thread's claims are about the two buffers and what has
been written, a writer's about its own message, which is the last one while it has the lock;
`Settled` is what whoever takes the lock finds. -/

variable (level : Int) (tid : LogThread n → List Byte)

/-- The bytes of the messages. -/
def log (msgs : List (Message n)) : List Byte := msgs.flatMap (Message.bytes level tid)

/-- Every message has its newline. -/
def AllEnded (a : AsyncLogger n) : Prop := ∀ m ∈ a.msgs, m.ended = true

/-- The last message is one of `i`, with `r` pieces and no newline yet; all others are complete. -/
def Open (i : LogThread n) (r : Nat) (a : AsyncLogger n) : Prop :=
  ∃ front m, a.msgs = front ++ [m] ∧ m.thread = i ∧ m.pieces.length = r ∧ m.ended = false ∧
    ∀ x ∈ front, x.ended = true

def writerHere (i : LogThread n) (k : LogPc) (a : AsyncLogger n) : Prop :=
  match k with
  | .idle r => r ≠ 0 → a.recurLevel = r ∧ Open i r a
  | .lock r op => 0 ∉ op.call.str ∧ (r ≠ 0 → a.recurLevel = r ∧ Open i r a)
  | .test r op =>
    0 ∉ op.call.str ∧ a.recurLevel = r ∧ (r = 0 → AllEnded a) ∧ (r ≠ 0 → Open i r a)
  | .header r op => 0 ∉ op.call.str ∧ a.recurLevel = r + 1 ∧ r = 0 ∧ AllEnded a
  | .put r op => 0 ∉ op.call.str ∧ a.recurLevel = r + 1 ∧ Open i r a
  | .readRecur r => r ≠ 0 ∧ a.recurLevel = r ∧ AllEnded a
  | .resetRecur r recur => r ≠ 0 ∧ recur = r ∧ AllEnded a
  | .whileRecur r recur => recur = r ∧ (r ≠ 0 → a.recurLevel = 0 ∧ AllEnded a)
  | .unlockRecur r recur => r = recur + 1 ∧ a.recurLevel = 0 ∧ AllEnded a
  | .notify | .endlReturn => True
  | _ => False

/-- The spare buffer is empty, apart from the time between the swap and `buf.clear()`. What has been
written, what has been taken and the current buffer make up the log. -/
def backgroundHere (k : LogPc) (a : AsyncLogger n) : Prop :=
  match k with
  | .loopTest | .loopLock | .sizeTest | .predicate | .cond | .swap =>
    (a.buffers (1 - a.curr)).unread = [] ∧
      a.out ++ (a.buffers a.curr).unread = log level tid a.msgs ∧ a.finished = false
  | .exited =>
    (a.buffers (1 - a.curr)).unread = [] ∧
      a.out ++ (a.buffers a.curr).unread = log level tid a.msgs
  | .loopUnlock prev | .bufTest prev | .write prev =>
    prev = 1 - a.curr ∧
      a.out ++ (a.buffers prev).unread ++ (a.buffers a.curr).unread = log level tid a.msgs ∧
      a.finished = false
  | .clear prev =>
    prev = 1 - a.curr ∧ a.out ++ (a.buffers a.curr).unread = log level tid a.msgs ∧
      a.finished = false
  | _ => False

def destructorHere (k : LogPc) (a : AsyncLogger n) : Prop :=
  match k with
  | .alive => True
  | .stopNotify | .join => a.stop = true
  | .destroyed => a.stop = true ∧ a.finished = true
  | _ => False

/-- How often a thread has taken the lock. -/
def held : LogPc → Nat
  | .idle r | .lock r _ | .readRecur r | .resetRecur r _ | .whileRecur r _ | .unlockRecur r _ => r
  | .test r _ | .header r _ | .put r _ => r + 1
  | .sizeTest | .predicate | .cond | .swap | .loopUnlock _ => 1
  | _ => 0

/-- Nobody is in a chain of `<<`. -/
def Settled (a : AsyncLogger n) : Prop := a.recurLevel = 0 ∧ AllEnded a

def assertions : Monitor.Assertions (LogThread n) (AsyncLogger n) LogPc where
  always := fun a => a.level = level ∧ ∀ b, (a.buffers b).Wf
  free := Settled
  here := fun i k a =>
    match i with
    | .writer _ => writerHere i k a
    | .background => backgroundHere level tid k a ∧ (held k ≠ 0 → Settled a)
    | .destructor => destructorHere k a
  parked := fun i k a => i = .background ∧ k = .predicate ∧ backgroundHere level tid k a
  held := fun _ => held

variable {level tid}

/-- The log of more messages is longer at its end. -/
theorem log_append (ms ms' : List (Message n)) :
    log level tid (ms ++ ms') = log level tid ms ++ log level tid ms' := by
  simp [log]

/-- What is added to a message that has not ended comes after its bytes. -/
theorem Message.bytes_add {m : Message n} (hm : m.ended = false) (c : LogCall) :
    (m.add c).bytes level tid = m.bytes level tid ++ c.str := by
  cases c <;> simp [Message.bytes, Message.add, hm, LogCall.str]

/-! ## What the statements put

`Grows` is the effect of a statement on the stream: the current buffer has `bs` more, and so has the
log. Everything else that a claim speaks of stays. -/

/-- The last message is the one that gets the piece. -/
theorem addCall_of_open {a : AsyncLogger n} {front : List (Message n)} {m : Message n}
    (h : a.msgs = front ++ [m]) (c : LogCall) : (a.addCall c).msgs = front ++ [m.add c] := by
  simp [addCall, h]

/-- The return of `endl` is noted, and adds no bytes. -/
theorem bytes_endlReturned (i : LogThread n) (m : Message n) :
    (m.endlReturned i).bytes level tid = m.bytes level tid := by
  unfold Message.endlReturned
  split <;> rfl

theorem log_endlReturned (i : LogThread n) (ms : List (Message n)) :
    log level tid (ms.map (Message.endlReturned i)) = log level tid ms := by
  simp [log, List.flatMap_map, bytes_endlReturned]

/-- `a'` is `a` with `bs` in the current buffer and at the end of the log. -/
structure Grows (level : Int) (tid : LogThread n → List Byte) (a a' : AsyncLogger n)
    (bs : List Byte) : Prop where
  curr : a'.curr = a.curr
  current : (a'.buffers a.curr).unread = (a.buffers a.curr).unread ++ bs
  spare : a'.buffers (1 - a.curr) = a.buffers (1 - a.curr)
  out : a'.out = a.out
  logged : log level tid a'.msgs = log level tid a.msgs ++ bs
  finished : a'.finished = a.finished

theorem one_sub_ne (c : Fin 2) : 1 - c ≠ c := by
  revert c
  decide

/-- The claims of the background thread survive what writers put, since the current buffer is not
the one it works on. -/
theorem Grows.background {a a' : AsyncLogger n} {bs : List Byte} (h : Grows level tid a a' bs)
    {k : LogPc} (hk : backgroundHere level tid k a) : backgroundHere level tid k a' := by
  obtain ⟨hcurr, hcurrent, hspare, hout, hlog, hfin⟩ := h
  cases k <;> simp only [backgroundHere] at hk ⊢ <;>
    simp only [hcurr, hcurrent, hspare, hout, hlog, hfin]
  case loopTest | loopLock | sizeTest | predicate | cond | swap =>
    exact ⟨hk.1, by rw [← hk.2.1, List.append_assoc], hk.2.2⟩
  case exited => exact ⟨hk.1, by rw [← hk.2, List.append_assoc]⟩
  case loopUnlock | bufTest | write =>
    obtain ⟨rfl, hstream, hf⟩ := hk
    refine ⟨rfl, ?_, hf⟩
    rw [hspare, ← hstream]
    simp
  case clear => exact ⟨hk.1, by rw [← hk.2.1, List.append_assoc], hk.2.2⟩

/-- Data that only differ where the log does not look. -/
theorem Grows.of_eq {a a' : AsyncLogger n} (hc : a'.curr = a.curr) (hb : a'.buffers = a.buffers)
    (ho : a'.out = a.out) (hl : log level tid a'.msgs = log level tid a.msgs)
    (hf : a'.finished = a.finished) : Grows level tid a a' [] :=
  ⟨hc, by simp [hb], by rw [hb], ho, by simp [hl], hf⟩

/-- The current buffer has the string at its end. -/
theorem unread_buffers_putString {a : AsyncLogger n} (hwf : ∀ b, (a.buffers b).Wf)
    (str : List Byte) :
    ((a.putString str).buffers a.curr).unread = (a.buffers a.curr).unread ++ str := by
  simp [putString, hwf]

theorem wf_buffers_putString {a : AsyncLogger n} (hwf : ∀ b, (a.buffers b).Wf)
    (str : List Byte) (b : Fin 2) : ((a.putString str).buffers b).Wf := by
  simp only [putString, Function.update_apply]
  split
  · exact Buffer.wf_putString (hwf _) str
  · exact hwf b

/-! ### The stream grows -/

theorem grows_writeHeader {a : AsyncLogger n} (hwf : ∀ b, (a.buffers b).Wf) (hl : a.level = level)
    (i : LogThread n) (timestamp : List Byte) :
    Grows level tid a (a.writeHeader tid i timestamp) (headerOf level (tid i) timestamp) where
  curr := rfl
  current := by rw [← hl]; exact unread_buffers_putString hwf _
  spare := by simp [writeHeader, putString, one_sub_ne]
  out := rfl
  logged := by
    simp only [writeHeader, log_append]
    simp [log, Message.bytes]
  finished := rfl

/-- A piece, or the new line of `endl`. -/
theorem grows_put {a : AsyncLogger n} (hwf : ∀ b, (a.buffers b).Wf) {i : LogThread n} {r : Nat}
    (ho : Open i r a) (c : LogCall) :
    Grows level tid a ((a.putString c.str).addCall c) c.str where
  curr := rfl
  current := unread_buffers_putString hwf _
  spare := by simp [addCall, putString, one_sub_ne]
  out := rfl
  logged := by
    obtain ⟨front, m, hm, -, -, hended, -⟩ := ho
    rw [addCall_of_open (a := a.putString c.str) hm, hm, log_append, log_append]
    simp [log, Message.bytes_add hended]
  finished := rfl

theorem grows_endlReturned (a : AsyncLogger n) (i : LogThread n) :
    Grows level tid a (a.endlReturned i) [] :=
  .of_eq rfl rfl rfl (log_endlReturned i a.msgs) rfl

/-! ### Open and ended messages -/

/-- After the header the message is open, with no piece. -/
theorem Open.writeHeader {a : AsyncLogger n} (h : AllEnded a) (i : LogThread n)
    (timestamp : List Byte) : Open i 0 (a.writeHeader tid i timestamp) :=
  ⟨a.msgs, ⟨i, timestamp, [], false, false⟩, rfl, rfl, rfl, rfl, h⟩

theorem Open.piece {a : AsyncLogger n} {i : LogThread n} {r : Nat} (h : Open i r a)
    (str str' : List Byte) : Open i (r + 1) ((a.putString str').addCall (.piece str)) := by
  obtain ⟨front, m, hm, hi, hr, hended, hfront⟩ := h
  refine ⟨front, m.add (.piece str), addCall_of_open (a := a.putString str') hm _, hi, ?_, hended,
    hfront⟩
  simp [Message.add, hr]

/-- After `endl` all messages have ended. -/
theorem AllEnded.endl {a : AsyncLogger n} {i : LogThread n} {r : Nat} (h : Open i r a)
    (str : List Byte) : AllEnded ((a.putString str).addCall .endl) := by
  obtain ⟨front, m, hm, -, -, -, hfront⟩ := h
  intro x hx
  rw [addCall_of_open (a := a.putString str) hm] at hx
  rcases List.mem_append.mp hx with hx | hx
  · exact hfront x hx
  · obtain rfl := List.mem_singleton.mp hx
    rfl

theorem ended_endlReturned (i : LogThread n) (m : Message n) :
    (m.endlReturned i).ended = m.ended := by
  unfold Message.endlReturned
  split <;> rfl

theorem AllEnded.endlReturned {a : AsyncLogger n} (h : AllEnded a) (i : LogThread n) :
    AllEnded (a.endlReturned i) := by
  intro x hx
  obtain ⟨m, hm, rfl⟩ := List.mem_map.mp hx
  rw [ended_endlReturned]
  exact h m hm

/-- Another thread's `endl` returns, which says nothing about the message that is open. -/
theorem Open.endlReturned {a : AsyncLogger n} {i : LogThread n} {r : Nat} (h : Open i r a)
    (j : LogThread n) : Open i r (a.endlReturned j) := by
  obtain ⟨front, m, hm, hi, hr, hended, hfront⟩ := h
  refine ⟨front.map (Message.endlReturned j), m, ?_, hi, hr, hended, fun x hx => ?_⟩
  · simp [AsyncLogger.endlReturned, hm, Message.endlReturned, hended]
  · obtain ⟨y, hy, rfl⟩ := List.mem_map.mp hx
    rw [ended_endlReturned]
    exact hfront y hy

/-! ## The statements one by one

For each kind of thread: its statements show what the outline claims at the next place, and leave
alone what the others claim. A claim about the data that is made without the lock has to survive
every statement, which is why there are few of them. -/

/-- A writer's assertions look at `recur_level_` and at the messages only. -/
theorem writerHere_congr {a a' : AsyncLogger n} {i : LogThread n} {k : LogPc}
    (h : writerHere i k a) (hr : a'.recurLevel = a.recurLevel) (hm : a'.msgs = a.msgs) :
    writerHere i k a' := by
  unfold writerHere Open AllEnded at *
  rw [hr, hm]
  exact h

/-- The case that carries the count of locks is `readRecur`: the thread that finds `recur_level_`
above one is still inside its chain. -/
theorem own_writer {a : AsyncLogger n} {t : Fin n} {k : LogPc}
    (halways : (assertions level tid).always a) (h : writerHere (.writer t) k a) :
    (assertions level tid).Shown (.writer t) k a (stmt tid (.writer t) k) := by
  obtain ⟨hlevel, hwf⟩ := halways
  cases k with
  | idle | notify => trivial
  | lock r op =>
      intro hfree
      refine ⟨⟨h.1, ?_, fun hr => (hfree hr).2, fun hr => (h.2 hr).2⟩, rfl⟩
      -- at the first piece of a chain the lock was free, and with it `recur_level_` was 0
      by_cases hr : r = 0
      · rw [hr]; exact (hfree hr).1
      · exact (h.2 hr).1
  | test r op =>
      obtain ⟨hnul, hrec, hzero, hpos⟩ := h
      refine ⟨⟨hlevel, hwf⟩, ?_, ?_, nofun⟩
      · show writerHere (.writer t) (if 0 = a.recurLevel then .header r op else .put r op)
          { a with recurLevel := a.recurLevel + 1 }
        by_cases hr : r = 0
        · rw [if_pos (by omega)]
          exact ⟨hnul, congrArg (· + 1) hrec, hr, hzero hr⟩
        · rw [if_neg (by omega)]
          exact ⟨hnul, congrArg (· + 1) hrec, hpos hr⟩
      · show held (if 0 = a.recurLevel then .header r op else .put r op) = r + 1
        split <;> rfl
  | header r op =>
      obtain ⟨hnul, hrec, rfl, hall⟩ := h
      exact ⟨⟨hlevel, wf_buffers_putString hwf _⟩, ⟨hnul, hrec, .writeHeader hall _ _⟩, rfl, nofun⟩
  | put r op =>
      obtain ⟨hnul, hrec, hopen⟩ := h
      refine ⟨⟨hlevel, wf_buffers_putString hwf _⟩, ?_, ?_, nofun⟩
      · show writerHere (.writer t) (if op.call = .endl then .readRecur (r + 1) else .idle (r + 1))
          ((a.putString (cStr op.call.str)).addCall op.call)
        cases hc : op.call with
        | piece str => exact fun _ => ⟨hrec, hopen.piece str _⟩
        | endl => exact ⟨Nat.succ_ne_zero r, hrec, AllEnded.endl hopen _⟩
      · show held (if op.call = .endl then .readRecur (r + 1) else .idle (r + 1)) = r + 1
        split <;> rfl
  | readRecur r => exact ⟨⟨hlevel, hwf⟩, h, rfl, fun _ hf => hf⟩
  | resetRecur r recur =>
      exact ⟨⟨hlevel, hwf⟩, ⟨h.2.1, fun _ => ⟨rfl, h.2.2⟩⟩, rfl, fun hr => (h.1 hr).elim⟩
  | whileRecur r recur =>
      obtain ⟨rfl, hpos⟩ := h
      refine ⟨⟨hlevel, hwf⟩, ?_, ?_, fun _ hf => hf⟩
      · show writerHere (.writer t)
          (if recur = 0 then .notify else .unlockRecur recur (recur - 1)) a
        by_cases hr : recur = 0
        · rw [if_pos hr]
          trivial
        · rw [if_neg hr]
          exact ⟨by omega, hpos hr⟩
      · show held (if recur = 0 then .notify else .unlockRecur recur (recur - 1)) = recur
        split
        · next hr => exact hr.symm
        · rfl
  | unlockRecur r recur =>
      obtain ⟨rfl, hrec, hall⟩ := h
      exact ⟨⟨rfl, fun _ => ⟨hrec, hall⟩⟩, rfl, fun _ => ⟨hrec, hall⟩⟩
  | endlReturn =>
      exact ⟨⟨hlevel, hwf⟩, fun hr => (hr rfl).elim, rfl, fun _ hf => ⟨hf.1, hf.2.endlReturned _⟩⟩
  | _ => exact h.elim

theorem one_sub_one_sub (c : Fin 2) : 1 - (1 - c) = c := by
  revert c
  decide

/-- From the swap on, the other buffer is the thread's own, until `clear`. What it holds is the part
of the log that has been taken and not been written. -/
theorem own_background {a : AsyncLogger n} {k : LogPc}
    (halways : (assertions level tid).always a) (h : backgroundHere level tid k a)
    (hs : held k ≠ 0 → Settled a) :
    (assertions level tid).Shown .background k a (stmt tid .background k) := by
  obtain ⟨hlevel, hwf⟩ := halways
  cases k with
  | loopTest =>
      obtain ⟨hspare, hlog, hfin⟩ := h
      by_cases hstop : a.stop = true
      · simp only [stmt, Monitor.Assertions.Shown, hstop, if_true]
        exact ⟨⟨hlevel, hwf⟩, ⟨⟨hspare, hlog⟩, fun hne => (hne rfl).elim⟩, rfl, fun _ hf => hf⟩
      · simp only [stmt, Monitor.Assertions.Shown, hstop]
        exact ⟨⟨hlevel, hwf⟩, ⟨⟨hspare, hlog, hfin⟩, fun hne => (hne rfl).elim⟩, rfl, fun _ hf => hf⟩
  | loopLock => exact fun hfree => ⟨⟨h, fun _ => hfree rfl⟩, rfl⟩
  | sizeTest =>
      refine ⟨⟨hlevel, hwf⟩, ⟨?_, fun _ => hs Nat.one_ne_zero⟩, ?_,
        fun hfree => absurd hfree Nat.one_ne_zero⟩
      · show backgroundHere level tid (if 0 = (a.buffers a.curr).size then .predicate else .swap) a
        split <;> exact h
      · show held (if 0 = (a.buffers a.curr).size then .predicate else .swap) = 1
        split <;> rfl
  | predicate =>
      refine ⟨⟨hlevel, hwf⟩, ⟨?_, fun _ => hs Nat.one_ne_zero⟩, ?_,
        fun hfree => absurd hfree Nat.one_ne_zero⟩
      · show backgroundHere level tid
          (if (a.buffers a.curr).size ≠ 0 ∨ a.stop = true then .swap else .cond) a
        split <;> exact h
      · show held (if (a.buffers a.curr).size ≠ 0 ∨ a.stop = true then .swap else .cond) = 1
        split <;> rfl
  | cond => exact ⟨⟨rfl, rfl, h⟩, rfl, rfl, hs Nat.one_ne_zero⟩
  | swap =>
      obtain ⟨hspare, hlog, hfin⟩ := h
      refine ⟨⟨hlevel, hwf⟩, ⟨⟨(one_sub_one_sub _).symm, ?_, hfin⟩, fun _ => hs Nat.one_ne_zero⟩,
        rfl, fun hfree => absurd hfree Nat.one_ne_zero⟩
      show a.out ++ (a.buffers a.curr).unread ++ (a.buffers (1 - a.curr)).unread = _
      rw [hspare, List.append_nil, hlog]
  | loopUnlock prev => exact ⟨⟨h, fun hne => (hne rfl).elim⟩, rfl, fun _ => hs Nat.one_ne_zero⟩
  | bufTest prev =>
      obtain ⟨rfl, hlog, hfin⟩ := h
      have hheld : held (if (a.buffers (1 - a.curr)).size ≠ 0 then .write (1 - a.curr)
          else .loopTest) = 0 := by
        split <;> rfl
      refine ⟨⟨hlevel, hwf⟩, ⟨?_, fun hne => (hne hheld).elim⟩, hheld, fun _ hf => hf⟩
      show backgroundHere level tid
        (if (a.buffers (1 - a.curr)).size ≠ 0 then .write (1 - a.curr) else .loopTest) a
      split
      · exact ⟨rfl, hlog, hfin⟩
      · next hsize =>
          -- an empty buffer has nothing to write
          have hnil : (a.buffers (1 - a.curr)).unread = [] :=
            (Buffer.unread_eq_nil_iff (hwf _)).mpr (not_not.mp hsize)
          refine ⟨hnil, ?_, hfin⟩
          rwa [hnil, List.append_nil] at hlog
  | write prev =>
      obtain ⟨rfl, hlog, hfin⟩ := h
      exact ⟨⟨hlevel, hwf⟩, ⟨⟨rfl, hlog, hfin⟩, fun hne => (hne rfl).elim⟩, rfl, fun _ hf => hf⟩
  | clear prev =>
      obtain ⟨rfl, hlog, hfin⟩ := h
      refine ⟨⟨hlevel, fun b => ?_⟩, ⟨⟨?_, ?_, hfin⟩, fun hne => (hne rfl).elim⟩, rfl, fun _ hf => hf⟩
      · show (Function.update a.buffers (1 - a.curr) _ b).Wf
        rw [Function.update_apply]
        split
        · exact Buffer.wf_clear (hwf _)
        · exact hwf b
      · show (Function.update a.buffers (1 - a.curr) _ (1 - a.curr)).unread = []
        simp
      · show a.out ++ (Function.update a.buffers (1 - a.curr) _ a.curr).unread = _
        rw [Function.update_of_ne (one_sub_ne _).symm, hlog]
  | exited => trivial
  | _ => exact h.elim

/-- The destructor sets `stop_`, notifies and joins. -/
theorem own_destructor {a : AsyncLogger n} {k : LogPc}
    (halways : (assertions level tid).always a) (h : destructorHere k a) :
    (assertions level tid).Shown .destructor k a (stmt tid .destructor k) := by
  cases k with
  | alive => exact ⟨halways, rfl, rfl, fun _ hf => hf⟩
  | stopNotify => exact ⟨h, rfl⟩
  | join => exact fun hfin => ⟨⟨h, hfin⟩, rfl⟩
  | destroyed => trivial
  | _ => exact h.elim

/-! ### What the others claim -/

/-- What a writer does outside the locked blocks, or to the log, leaves the background thread's
assertions alone. -/
theorem grows_of_writer {a : AsyncLogger n} {t : Fin n} {k : LogPc}
    {f : AsyncLogger n → AsyncLogger n × LogPc} (halways : (assertions level tid).always a)
    (h : writerHere (.writer t) k a) (hst : stmt tid (.writer t) k = .act f) :
    ∃ bs, Grows level tid a (f a).1 bs := by
  obtain ⟨hlevel, hwf⟩ := halways
  cases k <;> simp only [stmt, reduceCtorEq, Stmt.act.injEq] at hst <;> subst hst
  case header r op => exact ⟨_, grows_writeHeader hwf hlevel _ _⟩
  case put r op =>
    obtain ⟨hnul, -, hopen⟩ := h
    rw [cStr_of_not_mem hnul]
    exact ⟨_, grows_put hwf hopen _⟩
  case endlReturn => exact ⟨[], grows_endlReturned a _⟩
  case test | readRecur | resetRecur | whileRecur => exact ⟨[], .of_eq rfl rfl rfl rfl rfl⟩
  all_goals exact h.elim

/-- Without the lock a writer changes nothing but which messages have returned. -/
theorem free_writer {a : AsyncLogger n} {t : Fin n} {k : LogPc}
    {f : AsyncLogger n → AsyncLogger n × LogPc} (h : writerHere (.writer t) k a)
    (hst : stmt tid (.writer t) k = .act f) (hheld : held k = 0) :
    (f a).1 = a ∨ (f a).1 = a.endlReturned (.writer t) := by
  cases k <;> simp only [stmt, reduceCtorEq, Stmt.act.injEq] at hst <;> subst hst
  case endlReturn => exact .inr rfl
  case readRecur | whileRecur => exact .inl rfl
  case resetRecur => exact absurd hheld h.1
  case test | header | put => exact absurd hheld (Nat.succ_ne_zero _)
  all_goals exact h.elim

/-- A writer's claim with one more note in the history. -/
theorem writerHere_endlReturned {a : AsyncLogger n} {i : LogThread n} {k : LogPc}
    (h : writerHere i k a) (j : LogThread n) : writerHere i k (a.endlReturned j) := by
  cases k <;> simp only [writerHere] at h ⊢
  case idle r => exact fun hr => ⟨(h hr).1, (h hr).2.endlReturned j⟩
  case lock r op => exact ⟨h.1, fun hr => ⟨(h.2 hr).1, (h.2 hr).2.endlReturned j⟩⟩
  case test r op =>
    exact ⟨h.1, h.2.1, fun hr => (h.2.2.1 hr).endlReturned j, fun hr => (h.2.2.2 hr).endlReturned j⟩
  case header r op => exact ⟨h.1, h.2.1, h.2.2.1, h.2.2.2.endlReturned j⟩
  case put r op => exact ⟨h.1, h.2.1, h.2.2.endlReturned j⟩
  case readRecur r => exact ⟨h.1, h.2.1, h.2.2.endlReturned j⟩
  case resetRecur r recur => exact ⟨h.1, h.2.1, h.2.2.endlReturned j⟩
  case whileRecur r recur => exact ⟨h.1, fun hr => ⟨(h.2 hr).1, (h.2 hr).2.endlReturned j⟩⟩
  case unlockRecur r recur => exact ⟨h.1, h.2.1, h.2.2.endlReturned j⟩

/-- A writer's assertions without the lock do not speak of the data. -/
theorem writerHere_of_held_zero {a a' : AsyncLogger n} {i : LogThread n} {k : LogPc}
    (h : writerHere i k a) (hheld : held k = 0) : writerHere i k a' := by
  cases k <;> simp only [writerHere, held] at h hheld ⊢
  case idle r => exact fun hr => (hr hheld).elim
  case lock r op => exact ⟨h.1, fun hr => (hr hheld).elim⟩
  case readRecur r => exact absurd hheld h.1
  case resetRecur r recur => exact absurd hheld h.1
  case whileRecur r recur => exact ⟨h.1, fun hr => (hr hheld).elim⟩
  case unlockRecur r recur => omega
  all_goals omega

/-- `stop_` is set by the destructor alone. -/
theorem stop_writer {a : AsyncLogger n} {t : Fin n} {k : LogPc}
    {f : AsyncLogger n → AsyncLogger n × LogPc} (h : writerHere (.writer t) k a)
    (hst : stmt tid (.writer t) k = .act f) : (f a).1.stop = a.stop := by
  cases k <;> simp only [stmt, reduceCtorEq, Stmt.act.injEq] at hst <;> subst hst
  case test | header | put | readRecur | resetRecur | whileRecur | endlReturn => rfl
  all_goals exact h.elim

/-- The thread of `run_impl` leaves the messages and the count of locks alone. -/
theorem background_keeps {a : AsyncLogger n} {k : LogPc}
    {f : AsyncLogger n → AsyncLogger n × LogPc} (h : backgroundHere level tid k a)
    (hst : stmt tid .background k = .act f) :
    (f a).1.recurLevel = a.recurLevel ∧ (f a).1.msgs = a.msgs ∧ (f a).1.stop = a.stop ∧
      (a.finished = true → (f a).1.finished = true) := by
  cases k <;> simp only [stmt, reduceCtorEq, Stmt.act.injEq] at hst <;> subst hst
  case loopTest =>
    by_cases hstop : a.stop = true <;> simp [hstop]
  case sizeTest | predicate | swap | bufTest | write | clear => exact ⟨rfl, rfl, rfl, id⟩
  all_goals exact h.elim

/-- And that is all it does to the data. -/
theorem destructor_stops {a : AsyncLogger n} {k : LogPc}
    {f : AsyncLogger n → AsyncLogger n × LogPc} (h : destructorHere k a)
    (hst : stmt tid .destructor k = .act f) : (f a).1 = { a with stop := true } := by
  cases k <;> simp only [stmt, reduceCtorEq, Stmt.act.injEq] at hst <;> subst hst
  case alive => rfl
  all_goals exact h.elim

/-- What the destructor claims is about `stop_`. -/
theorem destructorHere_congr {a a' : AsyncLogger n} {k : LogPc} (h : destructorHere k a)
    (hs : a'.stop = a.stop) (hf : a.finished = true → a'.finished = true) :
    destructorHere k a' := by
  cases k <;> simp only [destructorHere] at h ⊢
  case stopNotify | join => exact hs.trans h
  case destroyed => exact ⟨hs.trans h.1, hf h.2⟩

/-- Only writers call, and they call `<<`. -/
theorem writer_of_call {i : LogThread n} {k k' : LogPc} {a : AsyncLogger n}
    (hc : (threads tid).calls i k k' = true) (hhere : (assertions level tid).here i k a) :
    ∃ t r op, i = .writer t ∧ k = .idle r ∧ k' = .lock r op ∧ 0 ∉ op.call.str := by
  unfold threads at hc
  simp only at hc
  split at hc
  case h_1 r r' op =>
    simp only [Bool.and_eq_true, decide_eq_true_eq] at hc
    obtain ⟨rfl, hnul⟩ := hc
    cases i with
    | writer t => exact ⟨t, r, op, rfl, rfl, rfl, hnul⟩
    | background => exact hhere.1.elim
    | destructor => exact hhere.elim
  case h_2 => cases hc

/-! ### All together -/

/-- The outline holds. The four cases of disjointness, writer and background in both orders, are the
lemmas above. -/
theorem outline (level : Int) (tid : LogThread n → List Byte) :
    Monitor.Outline (threads tid) (assertions level tid) where
  calls := fun i k k' a hc _ hhere => by
    obtain ⟨t, r, op, rfl, rfl, rfl, hnul⟩ := writer_of_call hc hhere
    exact ⟨⟨hnul, hhere⟩, rfl⟩
  own := fun i k a halways hhere => by
    cases i with
    | writer t => exact own_writer halways hhere
    | background => exact own_background halways hhere.1 hhere.2
    | destructor => exact own_destructor halways hhere
  others := fun i j k k' f a hne halways hi hj hst hapart => by
    cases i with
    | writer t =>
        obtain ⟨bs, hgrows⟩ := grows_of_writer halways hi hst
        cases j with
        | writer u =>
            -- without the lock, a writer changes nothing but that its message has returned
            rcases hapart with hk | hk'
            · rcases free_writer hi hst hk with h | h
              · rw [h]; exact hj
              · rw [h]; exact writerHere_endlReturned hj _
            · exact writerHere_of_held_zero hj hk'
        | background =>
            refine ⟨hgrows.background hj.1, fun hk' => ?_⟩
            rcases free_writer hi hst (hapart.resolve_right hk') with h | h
            · rw [h]; exact hj.2 hk'
            · rw [h]; exact ⟨(hj.2 hk').1, (hj.2 hk').2.endlReturned _⟩
        | destructor =>
            exact destructorHere_congr hj (stop_writer hi hst) fun hf => hgrows.finished ▸ hf
    | background =>
        obtain ⟨hrec, hmsgs, hstop, hfin⟩ := background_keeps hi.1 hst
        cases j with
        | writer u => exact writerHere_congr hj hrec hmsgs
        | background => exact (hne rfl).elim
        | destructor => exact destructorHere_congr hj hstop hfin
    | destructor =>
        have hstops := destructor_stops hi hst
        cases j with
        | writer u => rw [hstops]; exact writerHere_congr hj rfl rfl
        | background =>
            rw [hstops]
            exact ⟨Grows.background (.of_eq rfl rfl rfl rfl rfl) hj.1, hj.2⟩
        | destructor => exact (hne rfl).elim
  waiters := fun i j k k' f a hne halways hi hj hst => by
    obtain ⟨rfl, rfl, hback⟩ := hj
    cases i with
    | writer t =>
        obtain ⟨bs, hgrows⟩ := grows_of_writer halways hi hst
        exact ⟨rfl, rfl, hgrows.background hback⟩
    | background => exact (hne rfl).elim
    | destructor =>
        rw [destructor_stops hi hst]
        exact ⟨rfl, rfl, Grows.background (.of_eq rfl rfl rfl rfl rfl) hback⟩
  resume := fun i k a _ hfree hparked => by
    obtain ⟨rfl, rfl, hback⟩ := hparked
    exact ⟨hback, fun _ => hfree⟩

/-- What is to be shown of a further assertion `here`, which is about the thread of `run_impl`
alone. -/
theorem background_outline {here : LogThread n → LogPc → AsyncLogger n → Prop}
    (alone : ∀ i k a, i ≠ .background → here i k a)
    (own : ∀ k a, (assertions level tid).always a → (assertions level tid).here .background k a →
      here .background k a → Monitor.ShownToo here here .background a (stmt tid .background k))
    (others : ∀ i k k' f a, i ≠ .background → (assertions level tid).always a →
      (assertions level tid).here i k a → backgroundHere level tid k' a →
      (threads tid).stmt i k = .act f → here .background k' a → here .background k' (f a).1) :
    Monitor.Outline (threads tid) ((assertions level tid).extend here here) := by
  refine (outline level tid).extend ?_ ?_ ?_ ?_ ?_
  · intro i k k' a hc hhere _
    obtain ⟨t, r, op, rfl, -⟩ := writer_of_call hc hhere
    exact alone _ _ _ nofun
  · intro i k a halways hhere hbackground
    by_cases hi : i = .background
    · subst hi
      exact own k a halways hhere hbackground
    · cases (threads tid).stmt i k with
      | outside => trivial
      | await => exact fun _ => alone _ _ _ hi
      | _ => exact alone _ _ _ hi
  · intro i j k k' f a hne halways hi hj _ hbackground hst _
    by_cases hjb : j = .background
    · subst hjb
      exact others i k k' f a hne halways hi hj.1 hst hbackground
    · exact alone _ _ _ hjb
  · intro i j k k' f a hne halways hi hj _ hbackground hst
    by_cases hjb : j = .background
    · subst hjb
      exact others i k k' f a hne halways hi hj.2.2 hst hbackground
    · exact alone _ _ _ hjb
  · exact fun i k a _ hbackground => hbackground

/-- So every state of a run is as it says. -/
theorem outlined {ls : List (MonitorLabel (LogThread n) LogPc)}
    {s : Monitor (LogThread n) (AsyncLogger n) LogPc}
    (hrun : run (Monitor.step (threads tid)) (init n level) ls = some s) :
    Monitor.Outlined (assertions level tid) s := by
  refine Monitor.Outlined.of_run (outline level tid) (.init ?_ rfl rfl ?_ ?_ ?_ ?_) hrun
  · exact fun _ => rfl
  · intro i
    cases i <;> rfl
  · exact ⟨rfl, fun _ => Buffer.wf_empty⟩
  · exact ⟨rfl, nofun⟩
  · intro i
    cases i with
    | writer t => exact fun hr => (hr rfl).elim
    | background => exact ⟨⟨rfl, rfl, rfl⟩, fun hne => (hne rfl).elim⟩
    | destructor => trivial

end AsyncLogger

end Cppev
