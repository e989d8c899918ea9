import Mathlib.Algebra.BigOperators.Fin
import Cppev.Lib.Settling
import Cppev.Logger.Shutdown

/-!
# The destructor of a logger returns

`shutdown_spec` says that the destructor does not wait for a blocked thread; here it returns, even
if others go on logging meanwhile. The thread of `run_impl` goes round its loop for ever as long as
it finds something to write; each round but the last ones empties a buffer, which some thread has
filled.

* `logger_destructor_returns`: if it notifies in time, and every chain of `<<` is ended, then the
  destructor returns in every weakly fair execution in which finitely many calls come and the thread
  of `run_impl` wakes up by chance finitely often.
-/

namespace Cppev

namespace AsyncLogger

variable {n : Nat} {level : Int} {tid : LogThread n → List Byte}
  {s s' : Monitor (LogThread n) (AsyncLogger n) LogPc} {l : MonitorLabel (LogThread n) LogPc}

/-! ## What is left to do

A cost for each place, and ten more for each buffer with something in it: a text that is put may
cause one more round. With it every statement makes the sum smaller. -/

/-- Whether there is something in the buffer `b`. -/
def filled (a : AsyncLogger n) (b : Fin 2) : Nat := if (a.buffers b).unread = [] then 0 else 1

/-- Each buffer with something in it costs a round of the loop. -/
def rounds (a : AsyncLogger n) : Nat := 10 * ∑ b, filled a b

/-- What the thread of `run_impl` has left to do at its loop test. -/
def roundCost (a : AsyncLogger n) : Nat := if a.stop = true then 1 else 10

/-- What it has left to do `c` statements before the end of a round in which it takes the buffer
`b`; a round in which it takes nothing is followed by the loop test. -/
def flushCost (a : AsyncLogger n) (b : Fin 2) (c : Nat) : Nat :=
  if (a.buffers b).unread = [] then roundCost a + c else c

/-- What the thread of `run_impl` has before it. -/
def backgroundCost (a : AsyncLogger n) : LogPc → Nat
  | .loopTest => roundCost a
  | .loopLock => 9
  | .sizeTest => 8
  | .predicate => 7
  | .cond => 1
  | .swap => flushCost a a.curr 5
  | .loopUnlock prev => flushCost a prev 4
  | .bufTest prev => flushCost a prev 3
  | .write prev => flushCost a prev 2
  | .clear prev => flushCost a prev 1
  | _ => 0

/-- What a `notify_one` costs. -/
def wakeCost (n : Nat) : Nat := (n + 2) * 8

/-- With the round of the loop that a text causes. -/
def writerCost (n : Nat) : LogPc → Nat
  | .lock r _ => wakeCost n + 2 * r + 42
  | .test r _ => wakeCost n + 2 * r + 41
  | .header r _ => wakeCost n + 2 * r + 40
  | .put r _ => wakeCost n + 2 * r + 20
  | .readRecur r => wakeCost n + 2 * r + 5
  | .resetRecur _ recur | .unlockRecur _ recur => wakeCost n + 2 * recur + 4
  | .whileRecur _ recur => wakeCost n + 2 * recur + 3
  | .notify => wakeCost n + 2
  | .endlReturn => 1
  | _ => 0

/-- What the destructor has. -/
def destructorCost (n : Nat) : LogPc → Nat
  | .alive => wakeCost n + 3
  | .stopNotify => wakeCost n + 2
  | .join => 1
  | _ => 0

/-- Who has what. -/
def cost (i : LogThread n) (k : LogPc) (a : AsyncLogger n) : Nat :=
  match i with
  | .writer _ => writerCost n k
  | .background => backgroundCost a k
  | .destructor => destructorCost n k

theorem card_logThread (n : Nat) : Fintype.card (LogThread n) = n + 2 := by
  show List.length _ = _
  simp

theorem filled_le (a : AsyncLogger n) (b : Fin 2) : filled a b ≤ 1 := by
  unfold filled
  split <;> omega

theorem eq_one_sub_of_ne {b c : Fin 2} (h : b ≠ c) : b = 1 - c := by
  revert b c
  decide

/-! ### When the cost goes down -/

theorem rounds_eq (a : AsyncLogger n) (b : Fin 2) :
    rounds a = 10 * (filled a b + filled a (1 - b)) := by
  unfold rounds
  rw [Fin.sum_univ_two]
  revert b
  refine Fin.forall_fin_two.mpr ⟨rfl, ?_⟩
  show 10 * (filled a 0 + filled a 1) = 10 * (filled a 1 + filled a 0)
  omega

/-- A text fills one buffer at most. -/
theorem rounds_grows {a a' : AsyncLogger n} {bs : List Byte} (h : Grows level tid a a' bs) :
    rounds a' ≤ rounds a + 10 := by
  have hspare : filled a' (1 - a.curr) = filled a (1 - a.curr) := by
    unfold filled
    rw [h.spare]
  have hcurrent := filled_le a' a.curr
  rw [rounds_eq a' a.curr, rounds_eq a a.curr, hspare]
  omega

/-- A buffer that is cleared costs no round any more. -/
theorem rounds_clear (a : AsyncLogger n) (b : Fin 2) :
    rounds { a with buffers := Function.update a.buffers b (a.buffers b).clear } + 10 * filled a b =
      rounds a := by
  have hcleared :
      filled { a with buffers := Function.update a.buffers b (a.buffers b).clear } b = 0 := by
    simp [filled]
  have hspare : filled { a with buffers := Function.update a.buffers b (a.buffers b).clear } (1 - b) =
      filled a (1 - b) := by
    simp [filled, one_sub_ne]
  rw [rounds_eq _ b, rounds_eq a b, hcleared, hspare]
  omega

/-- More in the buffers, or `stop_`, leaves no more to do. -/
theorem backgroundCost_anti {a a' : AsyncLogger n} (hcurr : a'.curr = a.curr)
    (hstop : a.stop = true → a'.stop = true)
    (hfilled : ∀ b, (a'.buffers b).unread = [] → (a.buffers b).unread = []) (k : LogPc) :
    backgroundCost a' k ≤ backgroundCost a k := by
  have hround : roundCost a' ≤ roundCost a := by
    unfold roundCost
    split
    · split <;> omega
    · next hrun => rw [if_neg fun h => hrun (hstop h)]
  have hflush : ∀ b c, flushCost a' b c ≤ flushCost a b c := by
    intro b c
    unfold flushCost
    split
    · next hnil =>
        rw [if_pos (hfilled b hnil)]
        exact Nat.add_le_add_right hround c
    · split <;> omega
  cases k
  case loopTest => exact hround
  case swap =>
    show flushCost a' a'.curr 5 ≤ _
    rw [hcurr]
    exact hflush _ _
  case loopUnlock | bufTest | write | clear => exact hflush _ _
  all_goals exact le_rfl

/-! ## Every statement leaves less

By cases on the statements of each kind of thread. The cost of a statement that puts a text includes
the round it may cause. -/

theorem act_writer {a : AsyncLogger n} {t : Fin n} {k : LogPc}
    {f : AsyncLogger n → AsyncLogger n × LogPc} (halways : (assertions level tid).always a)
    (h : writerHere (.writer t) k a) (hst : stmt tid (.writer t) k = .act f) :
    writerCost n (f a).2 + rounds (f a).1 < writerCost n k + rounds a := by
  obtain ⟨bs, hgrows⟩ := grows_of_writer halways h hst
  have hrounds := rounds_grows hgrows
  cases k <;> simp only [stmt, reduceCtorEq, Stmt.act.injEq] at hst <;> subst hst
  case test r op =>
    show writerCost n (if 0 = a.recurLevel then .header r op else .put r op) + rounds a < _
    split <;> simp only [writerCost] <;> omega
  case header r op =>
    simp only [writerCost] at hrounds ⊢
    omega
  case put r op =>
    show writerCost n (if op.call = .endl then .readRecur (r + 1) else .idle (r + 1)) + _ < _
    split <;> simp only [writerCost] at hrounds ⊢ <;> omega
  case readRecur r =>
    obtain ⟨-, hrec, -⟩ := h
    show writerCost n (.resetRecur r a.recurLevel) + rounds a < _
    simp only [writerCost]
    omega
  case resetRecur r recur =>
    show writerCost n (.whileRecur r recur) + rounds a < _
    simp only [writerCost]
    omega
  case whileRecur r recur =>
    show writerCost n (if recur = 0 then .notify else .unlockRecur r (recur - 1)) + rounds a < _
    split <;> simp only [writerCost] <;> omega
  case endlReturn =>
    show writerCost n (.idle 0) + rounds a < _
    simp only [writerCost]
    omega
  all_goals exact h.elim

/-- A round costs something, and at most ten. -/
theorem roundCost_pos (a : AsyncLogger n) : 0 < roundCost a ∧ roundCost a ≤ 10 := by
  unfold roundCost
  split <;> omega

/-- The thread of `run_impl`. Its loop goes round only if it has found something to write, or has to
stop. -/
theorem act_background {a : AsyncLogger n} {k : LogPc}
    {f : AsyncLogger n → AsyncLogger n × LogPc} (halways : (assertions level tid).always a)
    (h : backgroundHere level tid k a) (hst : stmt tid .background k = .act f) :
    backgroundCost (f a).1 (f a).2 + rounds (f a).1 < backgroundCost a k + rounds a := by
  have hround := roundCost_pos a
  have hempty : ∀ b, (a.buffers b).unread = [] ↔ (a.buffers b).size = 0 := fun b =>
    Buffer.unread_eq_nil_iff (halways.2 b)
  cases k <;> simp only [stmt, reduceCtorEq, Stmt.act.injEq] at hst <;> subst hst
  case loopTest =>
    -- with `stop_` set the thread leaves; without it, a round has been paid for by who put bytes
    by_cases hstop : a.stop = true
    · simp only [hstop, if_true]
      show 0 + rounds a < _
      simp only [backgroundCost]
      omega
    · simp [hstop, backgroundCost, roundCost]
  case sizeTest =>
    show backgroundCost a (if 0 = (a.buffers a.curr).size then .predicate else .swap) + _ < _
    split
    · simp [backgroundCost]
    · -- there is something to write, which pays for the round
      next hsize =>
        have hne : (a.buffers a.curr).unread ≠ [] := fun hnil => hsize ((hempty _).mp hnil).symm
        simp [backgroundCost, flushCost, hne]
  case predicate =>
    show backgroundCost a
      (if (a.buffers a.curr).size ≠ 0 ∨ a.stop = true then .swap else .cond) + _ < _
    split
    · next hgo =>
        by_cases hnil : (a.buffers a.curr).unread = []
        · have hstop := hgo.resolve_left (not_not.mpr ((hempty _).mp hnil))
          simp [backgroundCost, flushCost, hnil, roundCost, hstop]
        · simp [backgroundCost, flushCost, hnil]
    · simp [backgroundCost]
  case swap =>
    show flushCost a a.curr 4 + rounds a < flushCost a a.curr 5 + rounds a
    unfold flushCost
    split <;> omega
  case bufTest prev =>
    show backgroundCost a (if (a.buffers prev).size ≠ 0 then .write prev else .loopTest) + _ < _
    split
    · simp only [backgroundCost, flushCost]
      split <;> omega
    · next hsize =>
        have hnil : (a.buffers prev).unread = [] := (hempty _).mpr (not_not.mp hsize)
        simp [backgroundCost, flushCost, hnil]
  case write prev =>
    show flushCost a prev 1 + rounds a < flushCost a prev 2 + rounds a
    unfold flushCost
    split <;> omega
  case clear prev =>
    -- the buffer has been written, so there is one filled buffer less
    have hrounds := rounds_clear a prev
    show roundCost a + rounds { a with buffers := Function.update a.buffers prev _ } <
      flushCost a prev 1 + rounds a
    unfold flushCost
    unfold filled at hrounds
    by_cases hnil : (a.buffers prev).unread = []
    · rw [if_pos hnil] at hrounds ⊢
      omega
    · rw [if_neg hnil] at hrounds ⊢
      omega
  all_goals exact h.elim

theorem act_destructor {a : AsyncLogger n} {k : LogPc}
    {f : AsyncLogger n → AsyncLogger n × LogPc} (h : destructorHere k a)
    (hst : stmt tid .destructor k = .act f) :
    destructorCost n (f a).2 + rounds (f a).1 < destructorCost n k + rounds a := by
  cases k <;> simp only [stmt, reduceCtorEq, Stmt.act.injEq] at hst <;> subst hst
  case alive =>
    show destructorCost n .stopNotify + rounds a < _
    simp only [destructorCost]
    omega
  all_goals exact h.elim

/-! ### The others -/

/-- What one thread does makes nothing dearer for the others, beyond what it has paid for. -/
theorem others_anti {a : AsyncLogger n} {i j : LogThread n} {k : LogPc}
    {f : AsyncLogger n → AsyncLogger n × LogPc} (hne : j ≠ i)
    (halways : (assertions level tid).always a) (hi : (assertions level tid).here i k a)
    (hst : stmt tid i k = .act f) (k' : LogPc) : cost j k' (f a).1 ≤ cost j k' a := by
  cases j with
  | writer u | destructor => exact le_rfl
  | background =>
      cases i with
      | writer t =>
          obtain ⟨bs, hgrows⟩ := grows_of_writer halways hi hst
          refine backgroundCost_anti hgrows.curr (fun h => (stop_writer hi hst).trans h)
            (fun b hnil => ?_) k'
          rcases eq_or_ne b a.curr with rfl | hb
          · rw [hgrows.current] at hnil
            exact (List.append_eq_nil_iff.mp hnil).1
          · obtain rfl : b = 1 - a.curr := eq_one_sub_of_ne hb
            rwa [hgrows.spare] at hnil
      | background => exact absurd rfl hne
      | destructor =>
          rw [destructor_stops hi hst]
          show backgroundCost { a with stop := true } k' ≤ backgroundCost a k'
          apply backgroundCost_anti
          · rfl
          · exact fun _ => rfl
          · exact fun _ h => h

theorem descends (level : Int) (tid : LogThread n → List Byte) :
    Monitor.Descends (threads tid) (assertions level tid) cost rounds 7 where
  act i k a f halways hhere hst := by
    cases i with
    | writer t => exact act_writer halways hhere hst
    | background => exact act_background halways hhere.1 hst
    | destructor => exact act_destructor hhere hst
  others i j k k' a f hne halways hhere hst := others_anti hne halways hhere hst k'
  lock i k next a hhere hst := by
    cases k <;> simp only [threads, stmt, reduceCtorEq, Stmt.lock.injEq] at hst <;> subst hst
    case lock r op =>
      cases i with
      | writer t => exact Nat.lt_succ_self _
      | background => exact hhere.1.elim
      | destructor => exact hhere.elim
    case loopLock =>
      cases i with
      | background => exact Nat.lt_succ_self 8
      | writer t | destructor => exact hhere.elim
  unlock i k next a hhere hst := by
    cases k <;> simp only [threads, stmt, reduceCtorEq, Stmt.unlock.injEq] at hst <;> subst hst
    case unlockRecur r recur =>
      cases i with
      | writer t => exact Nat.lt_succ_self _
      | background => exact hhere.1.elim
      | destructor => exact hhere.elim
    case loopUnlock prev =>
      cases i with
      | background =>
          show flushCost a prev 3 < flushCost a prev 4
          unfold flushCost
          split <;> omega
      | writer t | destructor => exact hhere.elim
  await i k cond next a hhere hst := by
    cases k <;> simp only [threads, stmt, reduceCtorEq, Stmt.await.injEq] at hst
    case join =>
      obtain ⟨-, rfl⟩ := hst
      cases i with
      | destructor => exact Nat.one_pos
      | writer t => exact hhere.elim
      | background => exact hhere.1.elim
  wait i k next a hhere hst := by
    -- only the thread of `run_impl` waits, and a wait costs it one
    obtain rfl := stmt_eq_wait hst
    cases i with
    | background => exact Nat.one_pos
    | writer t | destructor => exact hhere.elim
  notifyOne i k next a hhere hst := by
    rw [card_logThread]
    cases k <;> simp only [threads, stmt, reduceCtorEq, Stmt.notifyOne.injEq] at hst <;> subst hst
    case notify =>
      cases i with
      | writer t =>
          -- the cost of a notification covers every thread that it may wake up
          show 1 + (n + 2) * 8 < (n + 2) * 8 + 2
          omega
      | background => exact hhere.1.elim
      | destructor => exact hhere.elim
    case stopNotify =>
      cases i with
      | destructor =>
          show 1 + (n + 2) * 8 < (n + 2) * 8 + 2
          omega
      | writer t => exact hhere.elim
      | background => exact hhere.1.elim
  notifyAll i k next a hhere hst := by
    cases k <;> cases hst
  parked i k a h := by
    obtain ⟨rfl, rfl, -⟩ := h
    exact le_rfl

/-! ## Who is at rest

When nothing is left to do, every thread is at a place where it rests. The destructor is at its end
then, or the thread of `run_impl` has not been told, which `Awake` excludes. -/

theorem rests_cases {i : LogThread n} {k : LogPc} {a : AsyncLogger n}
    (h : Monitor.Rests (stmt tid i k) a) :
    (∃ r, k = .idle r) ∨ k = .exited ∨ k = .join ∧ a.finished = false ∨ k = .destroyed := by
  cases k
  case idle r => exact .inl ⟨r, rfl⟩
  case exited => exact .inr (.inl rfl)
  case join =>
    obtain h | ⟨cond, next, h, hunfinished⟩ := h
    · cases h
    · cases h
      exact .inr (.inr (.inl ⟨rfl, hunfinished⟩))
  case destroyed => exact .inr (.inr (.inr rfl))
  all_goals
    obtain h | ⟨cond, next, h, -⟩ := h
    · cases h
    · cases h

/-- Where a thread rests with the lock, it is in a chain of `<<`. -/
theorem idle_of_rests {i : LogThread n} {k : LogPc} {a : AsyncLogger n}
    (h : Monitor.Rests (stmt tid i k) a) (hheld : held k ≠ 0) : ∃ r, r ≠ 0 ∧ k = .idle r := by
  rcases rests_cases h with ⟨r, rfl⟩ | rfl | ⟨rfl, -⟩ | rfl
  · exact ⟨r, hheld, rfl⟩
  all_goals exact absurd rfl hheld

theorem exited_of_rests {k : LogPc} {a : AsyncLogger n} (hb : backgroundHere level tid k a)
    (h : Monitor.Rests (stmt tid .background k) a) : k = .exited := by
  rcases rests_cases h with ⟨r, rfl⟩ | rfl | ⟨rfl, -⟩ | rfl
  · exact hb.elim
  · rfl
  · exact hb.elim
  · exact hb.elim

theorem join_of_rests {k : LogPc} {a : AsyncLogger n} (hd : destructorHere k a)
    (h : Monitor.Rests (stmt tid .destructor k) a) :
    k = .destroyed ∨ k = .join ∧ a.finished = false := by
  rcases rests_cases h with ⟨r, rfl⟩ | rfl | ⟨rfl, hunfinished⟩ | rfl
  · exact hd.elim
  · exact hd.elim
  · exact .inr ⟨rfl, hunfinished⟩
  · exact .inl rfl

/-- The thread of `run_impl` has ended only after it has said so. -/
def exitedHere (i : LogThread n) (k : LogPc) (a : AsyncLogger n) : Prop :=
  i = .background → k = .exited → a.finished = true

/-- Once the loop has ended it has been told to. -/
theorem exited_outline (level : Int) (tid : LogThread n → List Byte) :
    Monitor.Outline (threads tid) ((assertions level tid).extend exitedHere exitedHere) := by
  refine background_outline ?_ ?_ ?_
  · exact fun i k a hne hi => absurd hi hne
  · intro k a halways hhere hexited
    cases k <;> simp only [stmt, Monitor.ShownToo, exitedHere]
    case loopTest => by_cases hstop : a.stop = true <;> simp [hstop]
    all_goals grind
  · intro i k k' f a hne halways hi hb hst hexited hbackground hk'
    have hfinished := hexited hbackground hk'
    cases i with
    | writer t =>
        obtain ⟨bs, hgrows⟩ := grows_of_writer halways hi hst
        exact hgrows.finished.trans hfinished
    | background => exact absurd rfl hne
    | destructor =>
        rw [destructor_stops hi hst]
        exact hfinished

/-- What holds all the way, as long as the destructor notifies in time. -/
structure Orderly (level : Int) (tid : LogThread n → List Byte)
    (s : Monitor (LogThread n) (AsyncLogger n) LogPc) : Prop where
  outlined : Monitor.Outlined ((assertions level tid).extend exitedHere exitedHere) s
  awake : Awake s

theorem Orderly.base (h : Orderly level tid s) : Monitor.Outlined (assertions level tid) s :=
  ⟨h.outlined.always, fun i hi => (h.outlined.here i hi).1, fun i hi => (h.outlined.parked i hi).1,
    h.outlined.free, h.outlined.depth, h.outlined.running, h.outlined.waiting⟩

theorem orderly_init (n : Nat) (level : Int) (tid : LogThread n → List Byte) :
    Orderly level tid (init n level) where
  outlined := by
    refine Monitor.Outlined.extend (outlined (run_nil _ _)) ?_ ?_
    · rintro i - rfl hexited
      cases hexited
    · intro i hm
      exact absurd rfl hm
  awake := False.elim

theorem Orderly.step (h : Orderly level tid s) (hok : NotifiesInTime s l)
    (hstep : Monitor.Step (threads tid) s l s') : Orderly level tid s' :=
  ⟨h.outlined.step (exited_outline level tid) hstep, h.awake.step h.base hok hstep⟩

/-- A destructor that rests has returned, unless a thread rests in a chain of `<<`. -/
theorem Orderly.destroyed (h : Orderly level tid s)
    (hrest : Monitor.AtRest (threads tid) s)
    (hchains : ∀ t r, s.pc (.writer t) = .idle r → r = 0) : s.pc .destructor = .destroyed := by
  have hall : ∀ i, Monitor.Settled (threads tid) s i := by
    rcases hrest with hall | ⟨i, hown, hblocked | ⟨hm, hrests⟩⟩
    · exact hall
    · exact absurd hown (h.base.waiting i (by simp [hblocked])).1
    · obtain ⟨r, hr, hpc⟩ := idle_of_rests hrests ((h.base.owner_iff hm).mp hown)
      have hhere := h.base.here i hm
      rw [hpc] at hhere
      cases i with
      | writer t => exact absurd (hchains t r hpc) hr
      | background => exact hhere.1.elim
      | destructor => exact hhere.elim
  have hm : s.mode .destructor = .running := h.base.running_of_not_parked fun hp => nomatch hp.1
  have hhere : destructorHere (s.pc .destructor) s.data := h.base.here _ hm
  have hrests := ((hall .destructor).resolve_left (by simp [hm])).2
  rcases join_of_rests hhere hrests with hdestroyed | ⟨hjoin, hunfinished⟩
  · exact hdestroyed
  · -- the thread of `run_impl` has ended, and `join` would return
    have hawake := h.awake (by rw [hjoin]; trivial)
    obtain ⟨hrunning, hrests⟩ := (hall .background).resolve_left hawake.2
    obtain ⟨hback, hexited⟩ := h.outlined.here .background hrunning
    rw [hexited rfl (exited_of_rests hback.1 hrests)] at hunfinished
    cases hunfinished

/-! ## The theorem -/

/-- **The destructor returns.** In every weakly fair execution in which it does not notify between
the test of the predicate and the wait, in which a thread that has begun a chain of `<<` goes on
with it, and in which finitely many calls come and the thread of `run_impl` wakes up by chance
finitely often. -/
theorem logger_destructor_returns (e : Execution (Monitor.step (threads tid)))
    (h0 : e.state 0 = init n level) (hfair : e.WeaklyFair Monitor.Progress)
    (hintime : ∀ k l, e.label k = some l → NotifiesInTime (e.state k) l)
    (hchains : ∀ k t r, (e.state k).pc (.writer t) = .idle r → r ≠ 0 →
      ∃ k' pc, k ≤ k' ∧ e.label k' = some (.call (.writer t) pc))
    (hquiet : ∃ N, ∀ k l, N ≤ k → e.label k = some l → l.ofThread = true) :
    ∃ k, (e.state k).pc .destructor = .destroyed := by
  have horderly : ∀ k, Orderly level tid (e.state k) := by
    intro k
    refine e.invariant_from (Orderly level tid) (n := 0) (fun k l _ hl hstep hi => ?_) ?_
      (Nat.zero_le k)
    · exact hi.step (hintime k l hl) (Monitor.step_sound hstep)
    · rw [h0]
      exact orderly_init n level tid
  obtain ⟨N, hN⟩ := hquiet
  obtain ⟨k, hk, hrest⟩ := Monitor.settles (descends level tid) (outline level tid) e
    (horderly 0).base hfair ⟨N, hN⟩ N
  refine ⟨k, (horderly k).destroyed hrest fun t r hpc => ?_⟩
  by_contra hr
  obtain ⟨k', pc, hle, hcall⟩ := hchains k t r hpc hr
  exact absurd (hN k' _ (hk.trans hle) hcall) (by simp [MonitorLabel.ofThread])

/-- A message is logged; the destructor begins when the thread of `run_impl` is in its loop. -/
def messageAndEnd : List (MonitorLabel (LogThread 1) LogPc) :=
  oneMessage ++ .next .background :: .next .destructor :: lastRound

def inChain : LogPc → Bool
  | .idle r => r ≠ 0
  | _ => false

def callsWriter : MonitorLabel (LogThread 1) LogPc → Bool
  | .call (.writer _) _ => true
  | _ => false

/-! ### An execution -/

theorem exists_messageAndEnd : ∃ s,
    run (Monitor.step (threads fun _ => bytesOf "7")) (init 1 1) messageAndEnd = some s ∧
      (∀ i, s.mode i = .running) ∧ s.pc (.writer 0) = .idle 0 ∧ s.pc .background = .exited ∧
        s.pc .destructor = .destroyed := by
  have hend : (run (Monitor.step (threads fun _ => bytesOf "7")) (init 1 1) messageAndEnd).any
      (fun s => decide ((∀ i, s.mode i = .running) ∧ s.pc (.writer 0) = .idle 0 ∧
        s.pc .background = .exited ∧ s.pc .destructor = .destroyed)) = true := by
    decide +kernel
  obtain ⟨s, hs, hpcs⟩ := (Option.any_eq_true ..).mp hend
  exact ⟨s, hs, of_decide_eq_true hpcs⟩

/-- The execution that goes on from it with nothing. -/
theorem logger_destructor_returns_oneMessage :
    ∃ e : Execution (Monitor.step (threads (n := 1) fun _ => bytesOf "7")),
      e.state 0 = init 1 1 ∧ ∃ k, (e.state k).pc .destructor = .destroyed := by
  obtain ⟨s, hs, hmode, hwriter, hbackground, hdestructor⟩ := exists_messageAndEnd
  have hintime : AllSteps (Monitor.step (threads fun _ => bytesOf "7")) NotifiesInTime (init 1 1)
      messageAndEnd := by decide +kernel
  have hgoesOn : AllSteps (Monitor.step (threads fun _ => bytesOf "7"))
      (fun s l => inChain (s.pc (.writer 0)) = true → callsWriter l = true) (init 1 1)
      messageAndEnd := by decide +kernel
  refine ⟨Execution.ofRun hs, rfl, logger_destructor_returns (Execution.ofRun hs) rfl ?_ ?_ ?_
    ⟨messageAndEnd.length, fun k l hk hl => ?_⟩⟩
  · refine Execution.weaklyFair_ofRun hs (Monitor.not_enabled_of_settled fun i => ?_)
    refine .inr ⟨hmode i, .inl ?_⟩
    cases i with
    | writer t => rw [Fin.fin_one_eq_zero t, hwriter]; rfl
    | background => rw [hbackground]; rfl
    | destructor => rw [hdestructor]; rfl
  · exact fun k l hl => Execution.ok_of_allSteps hintime hs hl
  · intro k t r hpc hr
    rw [Fin.fin_one_eq_zero t] at hpc ⊢
    have hchain : inChain (((Execution.ofRun hs).state k).pc (.writer 0)) = true := by
      rw [hpc]
      exact decide_eq_true hr
    cases hl : (Execution.ofRun hs).label k with
    | none =>
        have hk : messageAndEnd.length ≤ k := List.getElem?_eq_none_iff.mp hl
        rw [Execution.state_ofRun hs hk, hwriter] at hchain
        cases hchain
    | some l =>
        have hcalls := Execution.ok_of_allSteps hgoesOn hs hl hchain
        unfold callsWriter at hcalls
        split at hcalls
        case h_1 u pc =>
          rw [Fin.fin_one_eq_zero u] at hl
          exact ⟨k, pc, le_rfl, hl⟩
        case h_2 => cases hcalls
  · exact absurd (Execution.lt_of_label hs hl) (Nat.not_lt.mpr hk)

end AsyncLogger

end Cppev
