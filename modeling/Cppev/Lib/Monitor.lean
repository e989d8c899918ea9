import Mathlib.Data.Fintype.Basic
import Mathlib.Tactic.Simps.Basic
import Cppev.Lib.Transition

/-!
# Threads under one lock

Threads that run programs over shared data, with one mutex and one condition variable. A program
gives each control point its statement; a label says which thread moves, whom a `notify_one`
wakes, and which procedure a thread outside calls next. The mutex counts how often its owner has
locked it, so it may be a recursive one.

* `Monitor.step_sound`: what a step can do, one constructor of `Monitor.Step` a kind of statement.
* `Monitor.inv_of_run`: an invariant of every statement is an invariant of every run.
* `Monitor.Outline`: assertions at the control points, in the manner of a proof outline: each
  statement keeps those of its own thread, and those of the other threads where they can interfere.
* `Monitor.Outlined.of_run`: then every state of every run is as the outline says; in particular,
  the lock is held where the outline says so (`Monitor.Outlined.unique`).
* `Monitor.run_project`: threads that keep more data run as they do without.
-/

namespace Cppev

/-! ## Programs and machines

A program is a function from control points to statements, so that the proof about it can be by
cases on the control point. The machine interprets it. -/

/-- A statement; `next` is the control point after it. -/
inductive Stmt (σ κ : Type) where
  /-- Outside every procedure. -/
  | outside
  /-- Reads and writes the shared data, and goes on where that says. -/
  | act (f : σ → σ × κ)
  /-- Goes on once the condition holds. -/
  | await (cond : σ → Bool) (next : κ)
  | lock (next : κ)
  | unlock (next : κ)
  /-- `wait` on the condition variable, without a predicate. -/
  | wait (next : κ)
  | notifyOne (next : κ)
  | notifyAll (next : κ)

/-- Where a statement that leaves the data alone goes on. -/
def Stmt.after {σ κ : Type} : Stmt σ κ → Option κ
  | .await _ next | .lock next | .unlock next | .wait next | .notifyOne next | .notifyAll next =>
    some next
  | .outside | .act _ => none

/-- What the threads run. -/
structure Threads (ι σ κ : Type) where
  stmt : ι → κ → Stmt σ κ
  /-- Where a thread that is `outside` may go, and from where. -/
  calls : ι → κ → κ → Bool

/-- In `wait`, a thread is `blocked` until it is woken up, and `woken` until it has the lock. -/
inductive Mode where
  | running | blocked | woken
  deriving DecidableEq, Repr

/-- The shared data, who has the mutex and how often, and where each thread is. -/
structure Monitor (ι σ κ : Type) where
  data : σ
  owner : Option ι
  depth : Nat
  pc : ι → κ
  mode : ι → Mode

/-- Who moves; for a `notify_one`, who is woken. -/
inductive MonitorLabel (ι κ : Type) where
  /-- `i` goes from outside to `k`. -/
  | call (i : ι) (k : κ)
  /-- The next statement of `i`, if it is no `notify_one`. -/
  | next (i : ι)
  /-- The next statement of `i`, a `notify_one` that wakes the threads `woken`. -/
  | signal (i : ι) (woken : List ι)
  | spuriousWakeup (i : ι)
  /-- The `wait` of `i` returns. -/
  | reacquire (i : ι)
  deriving DecidableEq, Repr

namespace Monitor

variable {ι σ κ : Type} [DecidableEq ι]

/-! ## What threads do to the monitor -/

@[simps] def goto (s : Monitor ι σ κ) (i : ι) (k : κ) : Monitor ι σ κ :=
  { s with pc := Function.update s.pc i k }

@[simps] def setData (s : Monitor ι σ κ) (d : σ) : Monitor ι σ κ := { s with data := d }

@[simps] def acquire (s : Monitor ι σ κ) (i : ι) : Monitor ι σ κ :=
  { s with owner := some i, depth := s.depth + 1 }

@[simps] def release (s : Monitor ι σ κ) : Monitor ι σ κ :=
  { s with owner := if s.depth = 1 then none else s.owner, depth := s.depth - 1 }

@[simps] def setMode (s : Monitor ι σ κ) (i : ι) (m : Mode) : Monitor ι σ κ :=
  { s with mode := Function.update s.mode i m }

@[simps] def wake (s : Monitor ι σ κ) (woken : List ι) : Monitor ι σ κ :=
  { s with mode := fun i => if i ∈ woken then .woken else s.mode i }

@[simps] def wakeAll (s : Monitor ι σ κ) : Monitor ι σ κ :=
  { s with mode := fun i => if s.mode i = .blocked then .woken else s.mode i }

/-- Whether `i` gets the lock if it asks for it now. -/
def Free (s : Monitor ι σ κ) (i : ι) : Prop := s.owner = none ∨ s.owner = some i

instance (s : Monitor ι σ κ) (i : ι) : Decidable (s.Free i) := inferInstanceAs (Decidable (_ ∨ _))

/-- How often `i` has the lock. -/
def holds (s : Monitor ι σ κ) (i : ι) : Nat := if s.owner = some i then s.depth else 0

@[simp] theorem holds_goto (s : Monitor ι σ κ) (i j : ι) (k : κ) :
    (s.goto i k).holds j = s.holds j := rfl

@[simp] theorem holds_setData (s : Monitor ι σ κ) (d : σ) (j : ι) :
    (s.setData d).holds j = s.holds j := rfl

/-- What `notify_one` may do: it wakes waiters, and at least one if there is any. -/
def MayWake (s : Monitor ι σ κ) (woken : List ι) : Prop :=
  (∀ j ∈ woken, s.mode j = .blocked) ∧ (woken = [] → ∀ j, s.mode j ≠ .blocked)

instance [Fintype ι] (s : Monitor ι σ κ) (woken : List ι) : Decidable (s.MayWake woken) :=
  inferInstanceAs (Decidable (_ ∧ _))

/-- A statement of the running thread `i`. -/
def exec (s : Monitor ι σ κ) (i : ι) : Stmt σ κ → Option (Monitor ι σ κ)
  | .outside => none
  | .act f => some ((s.setData (f s.data).1).goto i (f s.data).2)
  | .await cond next => if cond s.data = true then some (s.goto i next) else none
  | .lock next => if s.Free i then some ((s.acquire i).goto i next) else none
  | .unlock next => if s.owner = some i then some (s.release.goto i next) else none
  | .wait next =>
    if s.owner = some i then some ((s.release.goto i next).setMode i .blocked) else none
  | .notifyOne _ => none
  | .notifyAll next => some (s.wakeAll.goto i next)

def step [Fintype ι] (prog : Threads ι σ κ) (s : Monitor ι σ κ) : MonitorLabel ι κ → Option (Monitor ι σ κ)
  | .call i k =>
    if s.mode i = .running ∧ prog.calls i (s.pc i) k = true then some (s.goto i k) else none
  | .next i => if s.mode i = .running then s.exec i (prog.stmt i (s.pc i)) else none
  | .signal i woken =>
    match prog.stmt i (s.pc i) with
    | .notifyOne next =>
      if s.mode i = .running ∧ s.MayWake woken then some ((s.wake woken).goto i next) else none
    | _ => none
  | .spuriousWakeup i => if s.mode i = .blocked then some (s.wake [i]) else none
  | .reacquire i =>
    if s.mode i = .woken ∧ s.Free i then some ((s.acquire i).setMode i .running) else none

/-! ## What a step can do

One constructor for each kind of statement, with what it asks for. Proofs about runs are by cases on
`Step`, and never unfold the machine. -/

/-- One constructor for each kind of statement, with its guard and its effect. -/
inductive Step (prog : Threads ι σ κ) (s : Monitor ι σ κ) :
    MonitorLabel ι κ → Monitor ι σ κ → Prop
  | call (i : ι) (k : κ) (hm : s.mode i = .running) (hc : prog.calls i (s.pc i) k = true) :
      Step prog s (.call i k) (s.goto i k)
  | act (i : ι) (f : σ → σ × κ) (hm : s.mode i = .running) (hst : prog.stmt i (s.pc i) = .act f) :
      Step prog s (.next i) ((s.setData (f s.data).1).goto i (f s.data).2)
  | await (i : ι) (cond : σ → Bool) (next : κ) (hm : s.mode i = .running)
      (hst : prog.stmt i (s.pc i) = .await cond next) (hc : cond s.data = true) :
      Step prog s (.next i) (s.goto i next)
  | lock (i : ι) (next : κ) (hm : s.mode i = .running) (hst : prog.stmt i (s.pc i) = .lock next)
      (ho : s.Free i) : Step prog s (.next i) ((s.acquire i).goto i next)
  | unlock (i : ι) (next : κ) (hm : s.mode i = .running)
      (hst : prog.stmt i (s.pc i) = .unlock next) (ho : s.owner = some i) :
      Step prog s (.next i) (s.release.goto i next)
  | wait (i : ι) (next : κ) (hm : s.mode i = .running) (hst : prog.stmt i (s.pc i) = .wait next)
      (ho : s.owner = some i) :
      Step prog s (.next i) ((s.release.goto i next).setMode i .blocked)
  | notifyOne (i : ι) (next : κ) (woken : List ι) (hm : s.mode i = .running)
      (hst : prog.stmt i (s.pc i) = .notifyOne next) (hw : s.MayWake woken) :
      Step prog s (.signal i woken) ((s.wake woken).goto i next)
  | notifyAll (i : ι) (next : κ) (hm : s.mode i = .running)
      (hst : prog.stmt i (s.pc i) = .notifyAll next) :
      Step prog s (.next i) (s.wakeAll.goto i next)
  | spuriousWakeup (i : ι) (hm : s.mode i = .blocked) :
      Step prog s (.spuriousWakeup i) (s.wake [i])
  | reacquire (i : ι) (hm : s.mode i = .woken) (ho : s.Free i) :
      Step prog s (.reacquire i) ((s.acquire i).setMode i .running)

variable {prog : Threads ι σ κ} {s s' : Monitor ι σ κ}

/-- A statement that is executed is one of them. -/
theorem exec_sound {i : ι} (hm : s.mode i = .running)
    (h : s.exec i (prog.stmt i (s.pc i)) = some s') : Step prog s (.next i) s' := by
  unfold exec at h
  split at h
  case h_1 => cases h
  case h_2 f hst => cases h; exact .act i f hm hst
  case h_3 cond next hst =>
    split at h
    case isTrue hc => cases h; exact .await i cond next hm hst hc
    case isFalse => cases h
  case h_4 next hst =>
    split at h
    case isTrue ho => cases h; exact .lock i next hm hst ho
    case isFalse => cases h
  case h_5 next hst =>
    split at h
    case isTrue ho => cases h; exact .unlock i next hm hst ho
    case isFalse => cases h
  case h_6 next hst =>
    split at h
    case isTrue ho => cases h; exact .wait i next hm hst ho
    case isFalse => cases h
  case h_7 => cases h
  case h_8 next hst => cases h; exact .notifyAll i next hm hst

/-- A step of the machine is one of the statements of `Step`. -/
theorem step_sound [Fintype ι] {l : MonitorLabel ι κ} (h : s.step prog l = some s') :
    Step prog s l s' := by
  cases l with
  | call i k =>
      simp only [step] at h
      split at h
      case isTrue hc => cases h; exact .call i k hc.1 hc.2
      case isFalse => cases h
  | next i =>
      simp only [step] at h
      split at h
      case isTrue hm => exact exec_sound hm h
      case isFalse => cases h
  | signal i woken =>
      simp only [step] at h
      split at h
      case h_1 next hst =>
        split at h
        case isTrue hw => cases h; exact .notifyOne i next woken hw.1 hst hw.2
        case isFalse => cases h
      case h_2 => cases h
  | spuriousWakeup i =>
      simp only [step] at h
      split at h
      case isTrue hm => cases h; exact .spuriousWakeup i hm
      case isFalse => cases h
  | reacquire i =>
      simp only [step] at h
      split at h
      case isTrue hm => cases h; exact .reacquire i hm.1 hm.2
      case isFalse => cases h

/-- What `Step` allows the machine does. -/
theorem step_complete [Fintype ι] {l : MonitorLabel ι κ} (h : Step prog s l s') :
    s.step prog l = some s' := by
  cases h with
  | call i k hm hc => simp [step, hm, hc]
  | act i f hm hst | notifyAll i next hm hst => simp [step, exec, hm, hst]
  | await i cond next hm hst hc => simp [step, exec, hm, hst, hc]
  | lock i next hm hst ho | unlock i next hm hst ho | wait i next hm hst ho =>
      simp [step, exec, hm, hst, ho]
  | notifyOne i next woken hm hst hw => simp [step, hm, hst, hw]
  | spuriousWakeup i hm => simp [step, hm]
  | reacquire i hm ho => simp [step, hm, ho]

/-- An invariant of every statement that meets `ok` is an invariant of every such run. -/
theorem inv_of_allSteps [Fintype ι] (ok : Monitor ι σ κ → MonitorLabel ι κ → Prop)
    (Inv : Monitor ι σ κ → Prop) (hstep : ∀ s l s', Inv s → ok s l → Step prog s l s' → Inv s')
    (h0 : Inv s) {ls : List (MonitorLabel ι κ)} (hok : AllSteps (step prog) ok s ls)
    (hrun : run (step prog) s ls = some s') : Inv s' :=
  run_inv (step prog) ok Inv (fun s l s' hi ho h => hstep s l s' hi ho (step_sound h)) h0 hok hrun

/-- An invariant of every statement is an invariant of every run. -/
theorem inv_of_run [Fintype ι] (Inv : Monitor ι σ κ → Prop)
    (hstep : ∀ s l s', Inv s → Step prog s l s' → Inv s') (h0 : Inv s)
    {ls : List (MonitorLabel ι κ)} (hrun : run (step prog) s ls = some s') : Inv s' :=
  inv_of_allSteps (fun _ _ => True) Inv (fun s l s' hi _ => hstep s l s' hi) h0
    (allSteps_true _ _ ls) hrun

/-! ## Proof outlines

A claim for each thread at each control point, one that always holds and one that holds while the
lock is free. A statement has to show its thread's next claim and to leave the claims of the others
alone; the lock is what makes the second part small. -/

/-- What an outline says about the data, the threads and the lock. -/
structure Assertions (ι σ κ : Type) where
  /-- Holds in every state. -/
  always : σ → Prop
  /-- Holds while nobody has the lock. -/
  free : σ → Prop
  /-- Holds while thread `i` is running at the point. -/
  here : ι → κ → σ → Prop
  /-- Holds while thread `i` is in a `wait` that returns to the point. -/
  parked : ι → κ → σ → Prop
  /-- How often thread `i` has taken the lock at the point. -/
  held : ι → κ → Nat

/-- What the statement of `i` at `k` has to keep. -/
def Assertions.Shown (a : Assertions ι σ κ) (i : ι) (k : κ) (d : σ) : Stmt σ κ → Prop
  | .outside => True
  | .act f =>
    a.always (f d).1 ∧ a.here i (f d).2 (f d).1 ∧ a.held i (f d).2 = a.held i k ∧
      (a.held i k = 0 → a.free d → a.free (f d).1)
  | .await cond next => cond d = true → a.here i next d ∧ a.held i next = a.held i k
  | .lock next =>
    (a.held i k = 0 → a.free d) → a.here i next d ∧ a.held i next = a.held i k + 1
  | .unlock next =>
    a.here i next d ∧ a.held i next + 1 = a.held i k ∧ (a.held i next = 0 → a.free d)
  | .wait next => a.parked i next d ∧ a.held i k = 1 ∧ a.held i next = 1 ∧ a.free d
  | .notifyOne next | .notifyAll next => a.here i next d ∧ a.held i next = a.held i k

omit [DecidableEq ι] in
/-- A test, which leaves the data alone. -/
theorem Assertions.shown_test {a : Assertions ι σ κ} {i : ι} {k yes no : κ} {d : σ} {f : σ → σ × κ}
    {c : Prop} [Decidable c] (hf : f d = (d, if c then yes else no)) (halways : a.always d)
    (hyes : c → a.here i yes d ∧ a.held i yes = a.held i k)
    (hno : ¬ c → a.here i no d ∧ a.held i no = a.held i k) : a.Shown i k d (.act f) := by
  simp only [Assertions.Shown, hf]
  by_cases h : c
  · rw [if_pos h]
    exact ⟨halways, (hyes h).1, (hyes h).2, fun _ hfree => hfree⟩
  · rw [if_neg h]
    exact ⟨halways, (hno h).1, (hno h).2, fun _ hfree => hfree⟩

/-- Every statement keeps the assertions of its own thread, those of the threads that wait, and
those of the running threads unless both would have the lock. -/
structure Outline (prog : Threads ι σ κ) (a : Assertions ι σ κ) : Prop where
  calls : ∀ i k k' d, prog.calls i k k' = true → a.always d → a.here i k d →
    a.here i k' d ∧ a.held i k' = a.held i k
  own : ∀ i k d, a.always d → a.here i k d → a.Shown i k d (prog.stmt i k)
  others : ∀ i j k k' f d, i ≠ j → a.always d → a.here i k d → a.here j k' d →
    prog.stmt i k = .act f → (a.held i k = 0 ∨ a.held j k' = 0) → a.here j k' (f d).1
  waiters : ∀ i j k k' f d, i ≠ j → a.always d → a.here i k d → a.parked j k' d →
    prog.stmt i k = .act f → a.parked j k' (f d).1
  resume : ∀ i k d, a.always d → a.free d → a.parked i k d → a.here i k d

/-- The state is as the outline says. -/
structure Outlined (a : Assertions ι σ κ) (s : Monitor ι σ κ) : Prop where
  always : a.always s.data
  here : ∀ i, s.mode i = .running → a.here i (s.pc i) s.data
  parked : ∀ i, s.mode i ≠ .running → a.parked i (s.pc i) s.data
  free : s.owner = none → a.free s.data
  depth : s.depth = 0 ↔ s.owner = none
  running : ∀ i, s.mode i = .running → a.held i (s.pc i) = s.holds i
  waiting : ∀ i, s.mode i ≠ .running → s.owner ≠ some i ∧ a.held i (s.pc i) = 1

variable {a : Assertions ι σ κ} {i j : ι}

/-- A running thread has the lock where the outline says so. -/
theorem Outlined.owner_iff (h : Outlined a s) (hm : s.mode i = .running) :
    s.owner = some i ↔ a.held i (s.pc i) ≠ 0 := by
  rw [h.running i hm, holds]
  by_cases ho : s.owner = some i
  · have hd : s.depth ≠ 0 := fun hd => by simp [h.depth.mp hd] at ho
    simp [ho, hd]
  · simp [ho]

/-- **Mutual exclusion.** -/
theorem Outlined.unique (h : Outlined a s) (hi : s.mode i = .running)
    (hhi : a.held i (s.pc i) ≠ 0) (hj : s.mode j = .running) (hhj : a.held j (s.pc j) ≠ 0) :
    i = j := by
  have howner : s.owner = some i := (h.owner_iff hi).mpr hhi
  rw [(h.owner_iff hj).mpr hhj] at howner
  exact (Option.some.inj howner).symm

/-- A thread that is at no place to wait is running. -/
theorem Outlined.running_of_not_parked (h : Outlined a s) (hp : ¬ a.parked i (s.pc i) s.data) :
    s.mode i = .running :=
  Decidable.of_not_not fun hm => hp (h.parked i hm)

/-! ### Statements that keep the lock -/

/-- A statement that leaves the data and the lock alone. -/
theorem Outlined.goto (h : Outlined a s) {k : κ} (hm : s.mode i = .running)
    (hk : a.here i k s.data) (hh : a.held i k = a.held i (s.pc i)) : Outlined a (s.goto i k) where
  always := h.always
  here := fun j hj => by
    by_cases hne : j = i
    · subst hne; simpa using hk
    · simpa [hne] using h.here j hj
  parked := fun j hj => by
    have hne : j ≠ i := by rintro rfl; exact hj hm
    simpa [hne] using h.parked j hj
  free := h.free
  depth := h.depth
  running := fun j hj => by
    by_cases hne : j = i
    · subst hne; simpa [hh] using h.running j hm
    · simpa [hne] using h.running j hj
  waiting := fun j hj => by
    have hne : j ≠ i := by rintro rfl; exact hj hm
    simpa [hne] using h.waiting j hj

/-- A statement that changes the data. Its own claim and those of the others are the two conditions
of `Outline`. -/
theorem Outlined.act (ho : Outline prog a) (h : Outlined a s) {f : σ → σ × κ}
    (hm : s.mode i = .running) (hst : prog.stmt i (s.pc i) = .act f) :
    Outlined a ((s.setData (f s.data).1).goto i (f s.data).2) := by
  have hi := h.here i hm
  have hown := ho.own i (s.pc i) s.data h.always hi
  rw [hst] at hown
  obtain ⟨halways, hhere, hheld, hfree⟩ := hown
  refine ⟨halways, fun j hj => ?_, fun j hj => ?_, fun hnone => ?_, h.depth, fun j hj => ?_,
    fun j hj => ?_⟩
  · by_cases hne : j = i
    · subst hne; simpa using hhere
    -- two threads at points with the lock would both be its owner
    · have hapart : a.held i (s.pc i) = 0 ∨ a.held j (s.pc j) = 0 := by
        by_contra hc
        simp only [not_or] at hc
        exact hne (h.unique hj hc.2 hm hc.1)
      simpa [hne] using ho.others i j _ _ f _ (Ne.symm hne) h.always hi (h.here j hj) hst hapart
  · have hne : j ≠ i := by rintro rfl; exact hj hm
    simpa [hne] using ho.waiters i j _ _ f _ (Ne.symm hne) h.always hi (h.parked j hj) hst
  · have hz : a.held i (s.pc i) = 0 := by
      rw [h.running i hm, holds, if_neg]
      simpa using hnone.symm ▸ Option.some_ne_none i |>.symm
    exact hfree hz (h.free hnone)
  · by_cases hne : j = i
    · subst hne; simpa [hheld] using h.running j hm
    · simpa [hne] using h.running j hj
  · have hne : j ≠ i := by rintro rfl; exact hj hm
    simpa [hne] using h.waiting j hj

/-- A wake-up leaves the running threads running. -/
theorem Outlined.wake (h : Outlined a s) {woken : List ι}
    (hw : ∀ j ∈ woken, s.mode j = .blocked) : Outlined a (s.wake woken) := by
  have hmode : ∀ j, (s.wake woken).mode j = .running ↔ s.mode j = .running := by
    intro j
    by_cases hmem : j ∈ woken
    · simp [hmem, hw j hmem]
    · simp [hmem]
  exact ⟨h.always, fun j hj => h.here j ((hmode j).mp hj),
    fun j hj => h.parked j fun hm => hj ((hmode j).mpr hm), h.free, h.depth,
    fun j hj => h.running j ((hmode j).mp hj),
    fun j hj => h.waiting j fun hm => hj ((hmode j).mpr hm)⟩

omit [DecidableEq ι] in
/-- Waking leaves the running threads running, and makes no thread run that has not got the lock. -/
theorem wakeAll_running : s.wakeAll.mode i = .running ↔ s.mode i = .running := by
  cases hm : s.mode i <;> simp [hm]

theorem Outlined.wakeAll (h : Outlined a s) : Outlined a s.wakeAll :=
  ⟨h.always, fun j hj => h.here j (wakeAll_running.mp hj),
    fun j hj => h.parked j fun hm => hj (wakeAll_running.mpr hm), h.free, h.depth,
    fun j hj => h.running j (wakeAll_running.mp hj),
    fun j hj => h.waiting j fun hm => hj (wakeAll_running.mpr hm)⟩

/-! ### The lock is taken and given back -/

/-- `i` has the lock once more, and is running. -/
theorem Outlined.take (h : Outlined a s) {k : κ} (hfree : s.Free i) (hk : a.here i k s.data)
    (hh : a.held i k = s.holds i + 1) :
    Outlined a (((s.acquire i).goto i k).setMode i .running) where
  always := h.always
  here := fun j hj => by
    by_cases hne : j = i
    · subst hne; simpa using hk
    · simpa [hne] using h.here j (by simpa [hne] using hj)
  parked := fun j hj => by
    have hne : j ≠ i := by rintro rfl; simp at hj
    simpa [hne] using h.parked j (by simpa [hne] using hj)
  free := fun hnone => by simp at hnone
  depth := by simp
  running := fun j hj => by
    by_cases hne : j = i
    · subst hne
      rcases hfree with hnone | hown
      · simp [hh, holds, hnone, h.depth.mpr hnone]
      · simp [hh, holds, hown]
    · have hnot : s.owner ≠ some j := by
        rcases hfree with hnone | hown <;> simp_all [Ne.symm hne]
      have hz := h.running j (by simpa [hne] using hj)
      simpa [holds, hne, Ne.symm hne, hnot] using hz
  waiting := fun j hj => by
    have hne : j ≠ i := by rintro rfl; simp at hj
    have hw := h.waiting j (by simpa [hne] using hj)
    exact ⟨by simpa using Ne.symm hne, by simpa [hne] using hw.2⟩

/-- `i` gives the lock back once, and goes on or blocks. -/
theorem Outlined.give (h : Outlined a s) {k : κ} {m : Mode} (ho : s.owner = some i)
    (hfree : s.depth = 1 → a.free s.data)
    (hrun : m = .running → a.here i k s.data ∧ a.held i k + 1 = s.depth)
    (hwait : m ≠ .running → a.parked i k s.data ∧ s.depth = 1 ∧ a.held i k = 1) :
    Outlined a ((s.release.goto i k).setMode i m) where
  always := h.always
  here := fun j hj => by
    by_cases hne : j = i
    · subst hne; simpa using (hrun (by simpa using hj)).1
    · simpa [hne] using h.here j (by simpa [hne] using hj)
  parked := fun j hj => by
    by_cases hne : j = i
    · subst hne; simpa using (hwait (by simpa using hj)).1
    · simpa [hne] using h.parked j (by simpa [hne] using hj)
  free := fun hnone => by
    -- at a greater depth the lock keeps its owner
    refine hfree (by_contra fun hd => ?_)
    simp [hd, ho] at hnone
  depth := by
    have hd : s.depth ≠ 0 := fun hd => by simp [h.depth.mp hd] at ho
    by_cases hone : s.depth = 1
    · simp [hone]
    · simp [hone, ho]; omega
  running := fun j hj => by
    by_cases hne : j = i
    · subst hne
      have hm := (hrun (by simpa using hj)).2
      by_cases hone : s.depth = 1
      · simp [holds, hone]; omega
      · simp [holds, hone, ho]; omega
    · have hz := h.running j (by simpa [hne] using hj)
      simpa [holds, hne, ho, Ne.symm hne] using hz
  waiting := fun j hj => by
    by_cases hne : j = i
    · subst hne
      obtain ⟨-, hone, hheld⟩ := hwait (by simpa using hj)
      exact ⟨by simp [hone], by simpa using hheld⟩
    · have hw := h.waiting j (by simpa [hne] using hj)
      refine ⟨?_, by simpa [hne] using hw.2⟩
      simp [ho, Ne.symm hne]

theorem setMode_self (hm : s.mode i = m) : s.setMode i m = s := by
  cases s
  subst hm
  simp [setMode]

theorem goto_self : s.goto i (s.pc i) = s := by
  cases s
  simp [goto]

/-! ### Every step, every run -/

/-- The step lemma, by the kinds of statements. -/
theorem Outlined.step (ho : Outline prog a) (h : Outlined a s) {l : MonitorLabel ι κ}
    (hstep : Step prog s l s') : Outlined a s' := by
  cases hstep with
  | call i k hm hc =>
      obtain ⟨hhere, hheld⟩ := ho.calls i _ k _ hc h.always (h.here i hm)
      exact h.goto hm hhere hheld
  | act i f hm hst => exact h.act ho hm hst
  | await i cond next hm hst hc =>
      have hown := ho.own i (s.pc i) s.data h.always (h.here i hm)
      rw [hst] at hown
      exact h.goto hm (hown hc).1 (hown hc).2
  | lock i next hm hst hfree =>
      have hown := ho.own i (s.pc i) s.data h.always (h.here i hm)
      rw [hst] at hown
      have hheld := h.running i hm
      -- at a point without the lock, it is free
      have hf : a.held i (s.pc i) = 0 → a.free s.data := by
        refine fun hz => h.free (hfree.resolve_right fun how => ?_)
        exact (h.owner_iff hm).mp how hz
      obtain ⟨hhere, hnext⟩ := hown hf
      have htake := h.take hfree hhere (by rw [hnext, hheld])
      rwa [setMode_self (by simpa using hm)] at htake
  | unlock i next hm hst how =>
      have hown := ho.own i (s.pc i) s.data h.always (h.here i hm)
      rw [hst] at hown
      obtain ⟨hhere, hnext, hfree⟩ := hown
      have hheld : a.held i (s.pc i) = s.depth := by simpa [holds, how] using h.running i hm
      have hgive := h.give (m := .running) how (fun hd => hfree (by omega))
        (fun _ => ⟨hhere, by omega⟩) fun hne => (hne rfl).elim
      rwa [setMode_self (by simpa using hm)] at hgive
  | wait i next hm hst how =>
      have hown := ho.own i (s.pc i) s.data h.always (h.here i hm)
      rw [hst] at hown
      obtain ⟨hparked, hone, hnext, hfree⟩ := hown
      have hheld : a.held i (s.pc i) = s.depth := by simpa [holds, how] using h.running i hm
      exact h.give how (fun _ => hfree) nofun fun _ => ⟨hparked, by omega, hnext⟩
  | notifyOne i next woken hm hst hw =>
      have hown := ho.own i (s.pc i) s.data h.always (h.here i hm)
      rw [hst] at hown
      have hne : i ∉ woken := fun hmem => by simp [hw.1 i hmem] at hm
      exact (h.wake hw.1).goto (by simpa [hne] using hm) hown.1 hown.2
  | notifyAll i next hm hst =>
      have hown := ho.own i (s.pc i) s.data h.always (h.here i hm)
      rw [hst] at hown
      exact h.wakeAll.goto (by simp [hm]) hown.1 hown.2
  | spuriousWakeup i hm => exact h.wake (by simpa using hm)
  | reacquire i hm hfree =>
      obtain ⟨hnot, hheld⟩ := h.waiting i (by simp [hm])
      have hf : a.free s.data := h.free (hfree.resolve_right hnot)
      have hhere := ho.resume i _ _ h.always hf (h.parked i (by simp [hm]))
      have htake := h.take (k := s.pc i) hfree hhere (by simp [holds, hheld, hnot])
      rwa [show (s.acquire i).goto i (s.pc i) = s.acquire i from goto_self (s := s.acquire i)]
        at htake

/-- Before any thread has moved. -/
theorem Outlined.init (hm : ∀ i, s.mode i = .running) (ho : s.owner = none) (hd : s.depth = 0)
    (hheld : ∀ i, a.held i (s.pc i) = 0) (halways : a.always s.data) (hfree : a.free s.data)
    (hhere : ∀ i, a.here i (s.pc i) s.data) : Outlined a s where
  always := halways
  here := fun i _ => hhere i
  parked := fun i h => (h (hm i)).elim
  free := fun _ => hfree
  depth := by simp [ho, hd]
  running := fun i _ => by simp [holds, ho, hheld i]
  waiting := fun i h => (h (hm i)).elim

/-- **Proof outlines.** In every run, every state is as the outline says. -/
theorem Outlined.of_run [Fintype ι] (ho : Outline prog a) (h0 : Outlined a s)
    {ls : List (MonitorLabel ι κ)} (hrun : run (Monitor.step prog) s ls = some s') :
    Outlined a s' :=
  inv_of_run (Outlined a) (fun _ _ _ h => h.step ho) h0 hrun

/-! ## Adding to an outline

A second claim about the same program is proved on top of the first one, and may use it. -/

/-- The outline `a`, with more said about the threads. -/
def Assertions.extend (a : Assertions ι σ κ) (here parked : ι → κ → σ → Prop) :
    Assertions ι σ κ where
  always := a.always
  free := a.free
  here := fun i k d => a.here i k d ∧ here i k d
  parked := fun i k d => a.parked i k d ∧ parked i k d
  held := a.held

/-- What the statement of `i` has to keep of what was added. -/
def ShownToo (here parked : ι → κ → σ → Prop) (i : ι) (d : σ) : Stmt σ κ → Prop
  | .outside => True
  | .act f => here i (f d).2 (f d).1
  | .await cond next => cond d = true → here i next d
  | .wait next => parked i next d
  | .lock next | .unlock next | .notifyOne next | .notifyAll next => here i next d

omit [DecidableEq ι] in
/-- What has been shown of the outline need not be shown again. -/
theorem Outline.extend {here parked : ι → κ → σ → Prop} (ho : Outline prog a)
    (calls : ∀ i k k' d, prog.calls i k k' = true → a.here i k d → here i k d → here i k' d)
    (own : ∀ i k d, a.always d → a.here i k d → here i k d →
      ShownToo here parked i d (prog.stmt i k))
    (others : ∀ i j k k' f d, i ≠ j → a.always d → a.here i k d → a.here j k' d →
      here i k d → here j k' d → prog.stmt i k = .act f →
      (a.held i k = 0 ∨ a.held j k' = 0) → here j k' (f d).1)
    (waiters : ∀ i j k k' f d, i ≠ j → a.always d → a.here i k d → a.parked j k' d →
      here i k d → parked j k' d → prog.stmt i k = .act f → parked j k' (f d).1)
    (resume : ∀ i k d, a.parked i k d → parked i k d → here i k d) :
    Outline prog (a.extend here parked) where
  calls := fun i k k' d hc halways hhere =>
    ⟨⟨(ho.calls i k k' d hc halways hhere.1).1, calls i k k' d hc hhere.1 hhere.2⟩,
      (ho.calls i k k' d hc halways hhere.1).2⟩
  own := fun i k d halways hhere => by
    have hold := ho.own i k d halways hhere.1
    have hnew := own i k d halways hhere.1 hhere.2
    cases hst : prog.stmt i k <;> rw [hst] at hold hnew <;>
      simp only [Assertions.Shown, ShownToo, Assertions.extend] at hold hnew ⊢
    case act f => exact ⟨hold.1, ⟨hold.2.1, hnew⟩, hold.2.2⟩
    case await cond next => exact fun hc => ⟨⟨(hold hc).1, hnew hc⟩, (hold hc).2⟩
    case lock next => exact fun hf => ⟨⟨(hold hf).1, hnew⟩, (hold hf).2⟩
    case unlock next | wait next | notifyOne next | notifyAll next =>
      exact ⟨⟨hold.1, hnew⟩, hold.2⟩
  others := fun i j k k' f d hij halways hhere hthere hst hapart =>
    ⟨ho.others i j k k' f d hij halways hhere.1 hthere.1 hst hapart,
      others i j k k' f d hij halways hhere.1 hthere.1 hhere.2 hthere.2 hst hapart⟩
  waiters := fun i j k k' f d hij halways hhere hparked hst =>
    ⟨ho.waiters i j k k' f d hij halways hhere.1 hparked.1 hst,
      waiters i j k k' f d hij halways hhere.1 hparked.1 hhere.2 hparked.2 hst⟩
  resume := fun i k d halways hfree hparked =>
    ⟨ho.resume i k d halways hfree hparked.1, resume i k d hparked.1 hparked.2⟩

theorem Outlined.extend {here parked : ι → κ → σ → Prop} (h : Outlined a s)
    (hhere : ∀ i, s.mode i = .running → here i (s.pc i) s.data)
    (hparked : ∀ i, s.mode i ≠ .running → parked i (s.pc i) s.data) :
    Outlined (a.extend here parked) s :=
  ⟨h.always, fun i hi => ⟨h.here i hi, hhere i hi⟩, fun i hi => ⟨h.parked i hi, hparked i hi⟩,
    h.free, h.depth, h.running, h.waiting⟩

end Monitor

/-! ## More data

A program over data that are a part of more data does the same there. With this a proof about the
part is used for the whole. -/

section Lift

variable {ι σ τ κ : Type}

/-- The same statement on data of which `get` is a part; what `set` changes besides goes along. -/
def Stmt.lift (get : τ → σ) (set : τ → σ → τ) : Stmt σ κ → Stmt τ κ
  | .outside => .outside
  | .act f => .act fun d => (set d (f (get d)).1, (f (get d)).2)
  | .await cond next => .await (fun d => cond (get d)) next
  | .lock next => .lock next
  | .unlock next => .unlock next
  | .wait next => .wait next
  | .notifyOne next => .notifyOne next
  | .notifyAll next => .notifyAll next

def Threads.lift (prog : Threads ι σ κ) (get : τ → σ) (set : ι → κ → τ → σ → τ) :
    Threads ι τ κ where
  stmt := fun i k => (prog.stmt i k).lift get (set i k)
  calls := prog.calls

namespace Monitor

variable [DecidableEq ι] {prog : Threads ι σ κ} {get : τ → σ} {set : ι → κ → τ → σ → τ}

/-- The monitor with the part of the data. -/
def project (get : τ → σ) (s : Monitor ι τ κ) : Monitor ι σ κ :=
  ⟨get s.data, s.owner, s.depth, s.pc, s.mode⟩

/-- A lifted action is an action of the part. -/
theorem lift_eq_act {st : Stmt σ κ} {set : τ → σ → τ} {f : τ → τ × κ}
    (h : st.lift get set = .act f) :
    ∃ g, st = .act g ∧ f = fun d => (set d (g (get d)).1, (g (get d)).2) := by
  cases st with
  | act g => exact ⟨g, rfl, (Stmt.act.inj h).symm⟩
  | _ => exact nomatch h

/-- A lifted condition is one on the part. -/
theorem lift_eq_await {st : Stmt σ κ} {set : τ → σ → τ} {cond : τ → Bool} {next : κ}
    (h : st.lift get set = .await cond next) :
    ∃ c, st = .await c next ∧ cond = fun d => c (get d) := by
  cases st with
  | await c next' =>
      obtain ⟨hc, rfl⟩ := Stmt.await.inj h
      exact ⟨c, rfl, hc.symm⟩
  | _ => exact nomatch h

omit [DecidableEq ι] in
/-- Where a statement leads does not depend on the data. -/
theorem after_lift (st : Stmt σ κ) (set : τ → σ → τ) : (st.lift get set).after = st.after := by
  cases st <;> rfl

/-- A statement that leaves the data alone is the same one. -/
theorem lift_eq_plain {st : Stmt σ κ} {set : τ → σ → τ} {st' : Stmt τ κ}
    (h : st.lift get set = st') :
    match st' with
    | .lock next => st = .lock next
    | .unlock next => st = .unlock next
    | .wait next => st = .wait next
    | .notifyOne next => st = .notifyOne next
    | .notifyAll next => st = .notifyAll next
    | _ => True := by
  subst h
  cases st with
  | outside | act | await => trivial
  | lock | unlock | wait | notifyOne | notifyAll => rfl

/-- A step with more data is one without. -/
theorem Step.project (hget : ∀ i k d x, get (set i k d x) = x) {s s' : Monitor ι τ κ}
    {l : MonitorLabel ι κ} (h : Step (prog.lift get set) s l s') :
    Step prog (s.project get) l (s'.project get) := by
  cases h with
  | call i k hm hc => exact .call i k hm hc
  | act i f hm hst =>
      obtain ⟨g, hg, rfl⟩ := lift_eq_act hst
      have hstep := Step.act (s := s.project get) i g hm hg
      have hsame : ((s.setData (set i (s.pc i) s.data (g (get s.data)).1)).goto i
          (g (get s.data)).2).project get =
          ((s.project get).setData (g (get s.data)).1).goto i (g (get s.data)).2 := by
        simp [Monitor.project, setData, goto, hget]
      rw [hsame]
      exact hstep
  | await i cond next hm hst hc =>
      obtain ⟨c, hst', rfl⟩ := lift_eq_await hst
      exact .await i c next hm hst' hc
  | lock i next hm hst ho => exact .lock i next hm (lift_eq_plain hst) ho
  | unlock i next hm hst ho => exact .unlock i next hm (lift_eq_plain hst) ho
  | wait i next hm hst ho => exact .wait i next hm (lift_eq_plain hst) ho
  | notifyOne i next woken hm hst hw => exact .notifyOne i next woken hm (lift_eq_plain hst) hw
  | notifyAll i next hm hst => exact .notifyAll i next hm (lift_eq_plain hst)
  | spuriousWakeup i hm => exact .spuriousWakeup i hm
  | reacquire i hm ho => exact .reacquire i hm ho

/-- Every run with more data is a run without. -/
theorem run_project [Fintype ι] (hget : ∀ i k d x, get (set i k d x) = x) {s s' : Monitor ι τ κ}
    {ls : List (MonitorLabel ι κ)} (hrun : run (step (prog.lift get set)) s ls = some s') :
    run (step prog) (s.project get) ls = some (s'.project get) := by
  obtain ⟨t, ht, rfl⟩ := run_sim (step (prog.lift get set)) (step prog) (fun _ _ => True)
    (fun s t => s.project get = t)
    (fun s t l s' hst _ hstep => by
      subst hst
      exact ⟨_, step_complete ((step_sound hstep).project hget), rfl⟩)
    rfl (allSteps_true ..) hrun
  exact ht

end Monitor

end Lift

end Cppev
