import Mathlib.Logic.Function.Basic
import Mathlib.Tactic.Simps.Basic
import Cppev.Lib.Transition

/-!
# Critical sections

Threads that enter critical sections on shared data, each through one lock of any kind: readers and
writers, with calls that wait and calls that give up.

* `Serialised`: the data are as if the sections had run one after the other, in the order in which
  they are left, except for what the threads inside have done of theirs.
* `LockClass.Lawful`: what a lock has to promise for that.
* `Locked.serial_of_run`: what every run under such a lock may be relied on for.
* `Locked.invariant_of_run`: what the sections keep when they run alone, is kept; what they keep as
  a whole only, carries it from one to the next.
-/

namespace Cppev

/-! ## Sections that are serialised

Threads outside have nothing that counts; threads inside have begun some of their actions. If one of
them writes it is alone, so all that the others may have done is to read, which can be put off to
the moment when they leave. -/

/-- A section, action by action, on the shared data and the thread's own. -/
structure CriticalSection (σ τ : Type) where
  writes : Bool
  actions : List (σ × τ → σ × τ)
  reads : writes = false → ∀ f ∈ actions, ∀ d, (f d).1 = d.1

/-- The actions one after the other. -/
def perform {σ τ : Type} (fs : List (σ × τ → σ × τ)) (d : σ × τ) : σ × τ :=
  fs.foldl (fun d f => f d) d

theorem perform_concat {σ τ : Type} (fs : List (σ × τ → σ × τ)) (f : σ × τ → σ × τ) (d : σ × τ) :
    perform (fs ++ [f]) d = f (perform fs d) := by
  simp [perform]

/-- What every action keeps is kept by all of them. -/
theorem perform_inv {σ τ : Type} {P : σ × τ → Prop} {fs : List (σ × τ → σ × τ)}
    (hfs : ∀ f ∈ fs, ∀ d, P d → P (f d)) {d : σ × τ} (h : P d) : P (perform fs d) := by
  induction fs generalizing d with
  | nil => exact h
  | cons f fs ih =>
      obtain ⟨hf, hrest⟩ := List.forall_mem_cons.mp hfs
      exact ih hrest (hf d h)

/-- A section that one thread runs alone, where `Q` holds, keeps `Q`; at every point of it, there is
`P`. -/
structure CriticalSection.Keeps {ι σ τ : Type} [DecidableEq ι] (c : CriticalSection σ τ)
    (Q P : σ → (ι → τ) → Prop) : Prop where
  within : ∀ i shared locals before, before <+: c.actions → Q shared locals →
    P (perform before (shared, locals i)).1
      (Function.update locals i (perform before (shared, locals i)).2)
  whole : ∀ i shared locals, Q shared locals →
    Q (perform c.actions (shared, locals i)).1
      (Function.update locals i (perform c.actions (shared, locals i)).2)

/-- The data, who is inside with what is left of the section, and the sections that have been
left. -/
structure Sections (ι σ τ : Type) where
  shared : σ
  locals : ι → τ
  inside : ι → Option (CriticalSection σ τ × List (σ × τ → σ × τ))
  done : List (ι × CriticalSection σ τ)

namespace Sections

variable {ι σ τ : Type} [DecidableEq ι]

@[simps] def enter (s : Sections ι σ τ) (i : ι) (c : CriticalSection σ τ) : Sections ι σ τ :=
  { s with inside := Function.update s.inside i (some (c, c.actions)) }

/-- The next action of the section `c`, with `rest` after it. -/
@[simps] def act (s : Sections ι σ τ) (i : ι) (c : CriticalSection σ τ) (f : σ × τ → σ × τ)
    (rest : List (σ × τ → σ × τ)) : Sections ι σ τ :=
  { s with
    shared := (f (s.shared, s.locals i)).1
    locals := Function.update s.locals i (f (s.shared, s.locals i)).2
    inside := Function.update s.inside i (some (c, rest)) }

@[simps] def leave (s : Sections ι σ τ) (i : ι) (c : CriticalSection σ τ) : Sections ι σ τ :=
  { s with
    inside := Function.update s.inside i none
    done := s.done ++ [(i, c)] }

@[simps] def init (d : σ × (ι → τ)) : Sections ι σ τ := ⟨d.1, d.2, fun _ => none, []⟩

/-! ### One after the other

The sections that are done, in the order in which they were left. -/

/-- One section after the other. -/
def serially (done : List (ι × CriticalSection σ τ)) (d : σ × (ι → τ)) : σ × (ι → τ) :=
  done.foldl (fun d e =>
    let r := perform e.2.actions (d.1, d.2 e.1)
    (r.1, Function.update d.2 e.1 r.2)) d

theorem serially_concat (done : List (ι × CriticalSection σ τ)) (i : ι) (c : CriticalSection σ τ)
    (d : σ × (ι → τ)) :
    serially (done ++ [(i, c)]) d =
      ((perform c.actions ((serially done d).1, (serially done d).2 i)).1,
        Function.update (serially done d).2 i
          (perform c.actions ((serially done d).1, (serially done d).2 i)).2) := by
  simp [serially]

/-- What every section keeps is kept by all of them. -/
theorem serially_inv {Q P : σ → (ι → τ) → Prop} {d₀ : σ × (ι → τ)} (h0 : Q d₀.1 d₀.2)
    {done : List (ι × CriticalSection σ τ)} (hkeeps : ∀ e ∈ done, e.2.Keeps Q P) :
    Q (serially done d₀).1 (serially done d₀).2 := by
  induction done generalizing d₀ with
  | nil => exact h0
  | cons e done ih =>
      obtain ⟨he, hdone⟩ := List.forall_mem_cons.mp hkeeps
      exact ih (he.whole e.1 d₀.1 d₀.2 h0) hdone

/-- The data, against the sections that have been left. -/
structure Serialised (d₀ : σ × (ι → τ)) (s : Sections ι σ τ) : Prop where
  /-- Two threads inside are readers. -/
  exclusive : ∀ i j c rest c' rest', s.inside i = some (c, rest) → s.inside j = some (c', rest') →
    i ≠ j → c.writes = false
  outside : ∀ i, s.inside i = none → s.locals i = (serially s.done d₀).2 i
  inside : ∀ i c rest, s.inside i = some (c, rest) → ∃ before, c.actions = before ++ rest ∧
    perform before ((serially s.done d₀).1, (serially s.done d₀).2 i) = (s.shared, s.locals i)
  shared : (∀ i c rest, s.inside i = some (c, rest) → c.writes = false) →
    s.shared = (serially s.done d₀).1

variable {s : Sections ι σ τ} {d₀ : σ × (ι → τ)} {i : ι} {c : CriticalSection σ τ}

/-! ### The steps -/

theorem serialised_init (d₀ : σ × (ι → τ)) : Serialised d₀ (init d₀) where
  exclusive i j c rest c' rest' h := by simp at h
  outside _ _ := rfl
  inside i c rest h := by simp at h
  shared _ := rfl

/-- Nobody is inside: everything is as after the sections, one after the other. -/
theorem Serialised.quiet (h : Serialised d₀ s) (hnone : ∀ i, s.inside i = none) :
    (s.shared, s.locals) = serially s.done d₀ := by
  refine Prod.ext (h.shared fun i c rest hi => ?_) (funext fun i => h.outside i (hnone i))
  rw [hnone i] at hi
  cases hi

/-- A thread enters, and has done nothing yet. -/
theorem Serialised.enter (h : Serialised d₀ s) (hi : s.inside i = none)
    (hmay : ∀ j c' rest', s.inside j = some (c', rest') → c.writes = false ∧ c'.writes = false) :
    Serialised d₀ (s.enter i c) := by
  have hshared : s.shared = (serially s.done d₀).1 :=
    h.shared fun j c' rest' hj => (hmay j c' rest' hj).2
  refine ⟨?_, ?_, ?_, fun _ => hshared⟩
  · intro j k a rest b rest' hj hk hne
    rcases eq_or_ne j i with rfl | hji
    · have hk : s.inside k = some (b, rest') := by simpa [hne.symm] using hk
      have ha : a = c := by simpa using (congrArg (Option.map Prod.fst) hj).symm
      rw [ha]
      exact (hmay k b rest' hk).1
    · have hj : s.inside j = some (a, rest) := by simpa [hji] using hj
      exact (hmay j a rest hj).2
  · intro j hj
    rcases eq_or_ne j i with rfl | hji
    · simp at hj
    · exact h.outside j (by simpa [hji] using hj)
  · intro j a rest hj
    rcases eq_or_ne j i with rfl | hji
    · obtain ⟨rfl, rfl⟩ : c = a ∧ c.actions = rest := by simpa using hj
      exact ⟨[], rfl, Prod.ext hshared.symm (h.outside j hi).symm⟩
    · exact h.inside j a rest (by simpa [hji] using hj)

/-- A thread inside takes an action: a writer is alone, and a reader changes nothing that is
shared. -/
theorem Serialised.act (h : Serialised d₀ s) {f : σ × τ → σ × τ} {rest : List (σ × τ → σ × τ)}
    (hi : s.inside i = some (c, f :: rest)) : Serialised d₀ (s.act i c f rest) := by
  obtain ⟨before, hactions, hbefore⟩ := h.inside i c _ hi
  -- a reader leaves the shared data alone, and a writer has no company
  have hkept : c.writes = false → (f (s.shared, s.locals i)).1 = s.shared := fun hreads =>
    c.reads hreads f (by simp [hactions]) _
  have hinside : ∀ j a rest', (s.act i c f rest).inside j = some (a, rest') →
      ∃ rest'', s.inside j = some (a, rest'') := by
    intro j a rest' hj
    rcases eq_or_ne j i with rfl | hji
    · obtain ⟨rfl, rfl⟩ : c = a ∧ rest = rest' := by simpa using hj
      exact ⟨_, hi⟩
    · exact ⟨rest', by simpa [hji] using hj⟩
  refine ⟨?_, ?_, ?_, ?_⟩
  · intro j k a rest' b rest'' hj hk hne
    obtain ⟨r, hj⟩ := hinside j a rest' hj
    obtain ⟨r', hk⟩ := hinside k b rest'' hk
    exact h.exclusive j k a r b r' hj hk hne
  · intro j hj
    rcases eq_or_ne j i with rfl | hji
    · simp at hj
    · have hj : s.inside j = none := by simpa [hji] using hj
      simpa [hji] using h.outside j hj
  · intro j a rest' hj
    rcases eq_or_ne j i with rfl | hji
    · obtain ⟨rfl, rfl⟩ : c = a ∧ rest = rest' := by simpa using hj
      refine ⟨before ++ [f], by simp [hactions], ?_⟩
      have hnext : perform (before ++ [f]) ((serially s.done d₀).1, (serially s.done d₀).2 j) =
          f (s.shared, s.locals j) := by
        rw [perform_concat, hbefore]
      simpa using hnext
    · have hj : s.inside j = some (a, rest') := by simpa [hji] using hj
      obtain ⟨before', hactions', hbefore'⟩ := h.inside j a rest' hj
      refine ⟨before', hactions', ?_⟩
      have hreads := h.exclusive i j c _ a rest' hi hj hji.symm
      simpa [hji, hkept hreads] using hbefore'
  · intro hreaders
    have hreads : c.writes = false := hreaders i c rest (by simp)
    have hall : ∀ j a rest', s.inside j = some (a, rest') → a.writes = false := by
      intro j a rest' hj
      rcases eq_or_ne j i with rfl | hji
      · rw [hi] at hj
        obtain ⟨rfl, -⟩ := Prod.ext_iff.mp (Option.some.inj hj)
        exact hreads
      · exact hreaders j a rest' (by simpa [hji] using hj)
    exact (hkept hreads).trans (h.shared hall)

/-- A thread leaves: its section is the last one now. If it has written, it has been alone; if it
has read, what it has seen is what the sections before it have left. -/
theorem Serialised.leave (h : Serialised d₀ s) (hi : s.inside i = some (c, [])) :
    Serialised d₀ (s.leave i c) := by
  obtain ⟨before, hactions, hbefore⟩ := h.inside i c _ hi
  have hserially : serially (s.done ++ [(i, c)]) d₀ =
      (s.shared, Function.update (serially s.done d₀).2 i (s.locals i)) := by
    rw [serially_concat, hactions, List.append_nil, hbefore]
  have hinside : ∀ j a rest, (s.leave i c).inside j = some (a, rest) →
      j ≠ i ∧ s.inside j = some (a, rest) := by
    intro j a rest hj
    rcases eq_or_ne j i with rfl | hji
    · simp at hj
    · exact ⟨hji, by simpa [hji] using hj⟩
  refine ⟨?_, ?_, ?_, ?_⟩
  · intro j k a rest b rest' hj hk hne
    exact h.exclusive j k a rest b rest' (hinside j a rest hj).2 (hinside k b rest' hk).2 hne
  · intro j hj
    rw [leave_done, hserially]
    rcases eq_or_ne j i with rfl | hji
    · simp
    · have hj : s.inside j = none := by simpa [hji] using hj
      simpa [hji] using h.outside j hj
  · intro j a rest hj
    obtain ⟨hji, hin⟩ := hinside j a rest hj
    obtain ⟨before', hactions', hbefore'⟩ := h.inside j a rest hin
    refine ⟨before', hactions', ?_⟩
    -- `i` and `j` are readers, and so are all the others
    have hall : ∀ k b rest', s.inside k = some (b, rest') → b.writes = false := by
      intro k b rest' hk
      rcases eq_or_ne k i with rfl | hki
      · exact h.exclusive k j b rest' a rest hk hin hji.symm
      · exact h.exclusive k i b rest' c [] hk hi hki
    rw [leave_done, hserially]
    simpa [hji, h.shared hall] using hbefore'
  · intro _
    rw [leave_done, hserially]
    rfl

/-- If everyone inside writes, one thread at most has begun something. -/
theorem Serialised.invariant {Q P : σ → (ι → τ) → Prop} (h : Serialised d₀ s)
    (hin : ∀ i p, s.inside i = some p → p.1.writes = true ∧ p.1.Keeps Q P)
    (hQP : ∀ shared locals, Q shared locals → P shared locals)
    (hdone : Q (serially s.done d₀).1 (serially s.done d₀).2) : P s.shared s.locals := by
  by_cases hnone : ∀ i, s.inside i = none
  · rw [← h.quiet hnone] at hdone
    exact hQP _ _ hdone
  · obtain ⟨i, hi⟩ := not_forall.mp hnone
    obtain ⟨⟨c, rest⟩, hi⟩ := Option.ne_none_iff_exists'.mp hi
    obtain ⟨hwrites, hkeeps⟩ := hin i _ hi
    obtain ⟨before, hactions, hbefore⟩ := h.inside i c rest hi
    -- the others are outside
    have hlocals : s.locals = Function.update (serially s.done d₀).2 i (s.locals i) := by
      funext j
      rcases eq_or_ne j i with rfl | hji
      · rw [Function.update_self]
      · rw [Function.update_of_ne hji]
        refine h.outside j (Option.eq_none_iff_forall_ne_some.mpr ?_)
        intro p hj
        have hreads := h.exclusive i j c rest p.1 p.2 hi hj hji.symm
        rw [hwrites] at hreads
        cases hreads
    have hnow := hkeeps.within i _ _ before ⟨rest, hactions.symm⟩ hdone
    rwa [hbefore, ← hlocals] at hnow

end Sections

/-! ## Locks

What a lock has to promise, and what it gives. A lock is a state with partial operations; `Held`
relates the state to who is inside, and is what the promises are about. -/

/-- A lock in the state `κ`, for readers and writers; a plain lock does not ask which. -/
structure LockClass (ι κ : Type) where
  free : κ
  /-- What an attempt of a thread to get it leads to. -/
  acquire : κ → ι → Bool → Option κ
  release : κ → ι → κ

/-- What a lock promises. `Held k who` says which threads have the lock, and whether for writing. -/
structure LockClass.Lawful {ι κ : Type} [DecidableEq ι] (lock : LockClass ι κ)
    (Held : κ → (ι → Option Bool) → Prop) : Prop where
  free : Held lock.free fun _ => none
  acquire : ∀ k who i w k', Held k who → who i = none → lock.acquire k i w = some k' →
    (∀ j w', who j = some w' → w = false ∧ w' = false) ∧ Held k' (Function.update who i (some w))
  release : ∀ k who i w, Held k who → who i = some w →
    Held (lock.release k i) (Function.update who i none)
  /-- If nobody has the lock, it is free. -/
  idle : ∀ k, Held k (fun _ => none) → k = lock.free
  granted : ∀ i w, (lock.acquire lock.free i w).isSome = true

/-- Sections under a lock, and the calls that have not returned, each with whether it waits. -/
structure Locked (ι κ σ τ : Type) where
  lock : κ
  calls : ι → Option (Bool × CriticalSection σ τ)
  sections : Sections ι σ τ

/-- What a thread does. -/
inductive LockedLabel (ι σ τ : Type) where
  /-- A thread that is outside calls `lock`, if `waits`, or `try_lock`. -/
  | call (i : ι) (waits : Bool) (c : CriticalSection σ τ)
  | attempt (i : ι)
  /-- A call ends without the lock, for a reason of its own. -/
  | refuse (i : ι)
  | act (i : ι)
  | unlock (i : ι)

namespace Locked

variable {ι κ σ τ : Type} [DecidableEq ι]

def init (lock : LockClass ι κ) (d : σ × (ι → τ)) : Locked ι κ σ τ :=
  ⟨lock.free, fun _ => none, .init d⟩

def setCall (s : Locked ι κ σ τ) (i : ι) (call : Option (Bool × CriticalSection σ τ)) :
    Locked ι κ σ τ :=
  { s with calls := Function.update s.calls i call }

def step (lock : LockClass ι κ) (s : Locked ι κ σ τ) : LockedLabel ι σ τ → Option (Locked ι κ σ τ)
  | .call i waits c =>
    if (s.calls i).isNone ∧ (s.sections.inside i).isNone then some (s.setCall i (some (waits, c)))
    else none
  | .attempt i =>
    match s.calls i with
    | none => none
    | some (waits, c) =>
      match lock.acquire s.lock i c.writes with
      | some k => some { s.setCall i none with lock := k, sections := s.sections.enter i c }
      | none => if waits then some s else some (s.setCall i none)
  | .refuse i =>
    if (s.calls i).isSome then some (s.setCall i none) else none
  | .act i =>
    match s.sections.inside i with
    | some (c, f :: rest) => some { s with sections := s.sections.act i c f rest }
    | _ => none
  | .unlock i =>
    match s.sections.inside i with
    | some (c, []) =>
      some { s with lock := lock.release s.lock i, sections := s.sections.leave i c }
    | _ => none

/-- Who is inside, and whether to write. -/
def who (s : Locked ι κ σ τ) (i : ι) : Option Bool := (s.sections.inside i).map fun p => p.1.writes

/-- The lock knows who is inside, and the sections are serialised. -/
structure Inv (Held : κ → (ι → Option Bool) → Prop) (d₀ : σ × (ι → τ)) (s : Locked ι κ σ τ) :
    Prop where
  held : Held s.lock s.who
  serialised : s.sections.Serialised d₀
  calling : ∀ i, (s.calls i).isSome = true → s.sections.inside i = none

variable {lock : LockClass ι κ} {Held : κ → (ι → Option Bool) → Prop} {d₀ : σ × (ι → τ)}
  {s s' : Locked ι κ σ τ} {l : LockedLabel ι σ τ}

/-! ### The invariant -/

theorem inv_init (hlock : lock.Lawful Held) : Inv Held d₀ (init lock d₀) where
  held := hlock.free
  serialised := Sections.serialised_init d₀
  calling i h := by simp [init] at h

/-- A call that does not get the lock. -/
theorem Inv.setCall_none (h : Inv Held d₀ s) (i : ι) : Inv Held d₀ (s.setCall i none) := by
  refine ⟨h.held, h.serialised, fun j hj => h.calling j ?_⟩
  rcases eq_or_ne j i with rfl | hji
  · simp [setCall] at hj
  · simpa [setCall, hji] using hj

theorem who_update {t : Locked ι κ σ τ} {i : ι}
    {p : Option (CriticalSection σ τ × List (σ × τ → σ × τ))}
    (h : t.sections.inside = Function.update s.sections.inside i p) :
    t.who = Function.update s.who i (p.map fun p => p.1.writes) := by
  funext j
  rcases eq_or_ne j i with rfl | hji
  · simp [who, h]
  · simp [who, h, hji]

/-- A thread has got the lock: by `Lawful.acquire` it may be inside with the others. -/
theorem Inv.entered (hlock : lock.Lawful Held) (h : Inv Held d₀ s) {i : ι}
    {c : CriticalSection σ τ} {k : κ} (hout : s.sections.inside i = none)
    (hk : lock.acquire s.lock i c.writes = some k) :
    Inv Held d₀ { s.setCall i none with lock := k, sections := s.sections.enter i c } := by
  have hwho : s.who i = none := by simp [who, hout]
  obtain ⟨hmay, hheld⟩ := hlock.acquire s.lock s.who i c.writes k h.held hwho hk
  refine ⟨?_, ?_, fun j hj => ?_⟩
  · rw [who_update (s := s) (i := i) (p := some (c, c.actions)) rfl]
    exact hheld
  · refine h.serialised.enter hout fun j c' rest' hj => hmay j c'.writes ?_
    simp [who, hj]
  · have hji : j ≠ i := by
      rintro rfl
      simp [setCall] at hj
    have hj : s.sections.inside j = none := h.calling j (by simpa [setCall, hji] using hj)
    simpa [hji] using hj

/-- The call of a thread inside has returned. -/
theorem Inv.not_calling (h : Inv Held d₀ s) {i j : ι}
    {p : CriticalSection σ τ × List (σ × τ → σ × τ)} (hin : s.sections.inside i = some p)
    (hj : (s.calls j).isSome = true) : j ≠ i := by
  rintro rfl
  rw [h.calling j hj] at hin
  cases hin

/-- The step lemma. Only the steps that get the lock or give it back need its promises. -/
theorem Inv.step (hlock : lock.Lawful Held) (h : Inv Held d₀ s) (hstep : s.step lock l = some s') :
    Inv Held d₀ s' := by
  cases l with
  | call i waits c =>
      simp only [Locked.step] at hstep
      split at hstep
      case isFalse => cases hstep
      case isTrue hout =>
        obtain rfl := Option.some.inj hstep
        refine ⟨h.held, h.serialised, fun j hj => ?_⟩
        rcases eq_or_ne j i with rfl | hji
        · exact Option.isNone_iff_eq_none.mp hout.2
        · exact h.calling j (by simpa [setCall, hji] using hj)
  | attempt i =>
      simp only [Locked.step] at hstep
      split at hstep
      case h_1 => cases hstep
      case h_2 waits c hcall =>
        -- who calls is outside, so to get the lock is to enter
        have hout : s.sections.inside i = none := h.calling i (by simp [hcall])
        split at hstep
        case h_1 k hk =>
          obtain rfl := Option.some.inj hstep
          exact h.entered hlock hout hk
        case h_2 =>
          split at hstep
          case isTrue => exact Option.some.inj hstep ▸ h
          case isFalse => exact Option.some.inj hstep ▸ h.setCall_none i
  | refuse i =>
      simp only [Locked.step] at hstep
      split at hstep
      case isTrue => exact Option.some.inj hstep ▸ h.setCall_none i
      case isFalse => cases hstep
  | act i =>
      simp only [Locked.step] at hstep
      split at hstep
      case h_2 => cases hstep
      case h_1 c f rest hin =>
        obtain rfl := Option.some.inj hstep
        refine ⟨?_, h.serialised.act hin, fun j hj => ?_⟩
        · -- who is inside stays inside, and the lock is as it was
          have hsame : Function.update s.who i (some c.writes) = s.who :=
            Function.update_eq_self_iff.mpr (by simp [who, hin])
          rw [who_update (s := s) (i := i) (p := some (c, rest)) rfl, Option.map_some, hsame]
          exact h.held
        · have hji := h.not_calling hin hj
          simpa [hji] using h.calling j hj
  | unlock i =>
      simp only [Locked.step] at hstep
      split at hstep
      case h_2 => cases hstep
      case h_1 c hin =>
        obtain rfl := Option.some.inj hstep
        refine ⟨?_, h.serialised.leave hin, fun j hj => ?_⟩
        · rw [who_update (s := s) (i := i) (p := none) rfl]
          exact hlock.release s.lock s.who i c.writes h.held (by simp [who, hin])
        · have hji := h.not_calling hin hj
          simpa [hji] using h.calling j hj

theorem Inv.of_run (hlock : lock.Lawful Held) {ls : List (LockedLabel ι σ τ)}
    (hrun : run (Locked.step lock) (init lock d₀) ls = some s) : Inv Held d₀ s :=
  run_inv _ (fun _ _ => True) (Inv Held d₀) (fun _ _ _ h _ hs => h.step hlock hs) (inv_init hlock)
    (allSteps_true ..) hrun

/-! ### What follows -/

/-- What can be relied on under a lock: it knows who is inside; the sections are serialised; when
nobody is inside, the data are as after the sections, one after the other, and the lock is free; and
always either the lock can be had, or a thread inside can go on. -/
structure Serial (lock : LockClass ι κ) (Held : κ → (ι → Option Bool) → Prop) (d₀ : σ × (ι → τ))
    (s : Locked ι κ σ τ) : Prop where
  held : Held s.lock s.who
  serialised : s.sections.Serialised d₀
  quiet : (∀ i, s.sections.inside i = none) →
    (s.sections.shared, s.sections.locals) = Sections.serially s.sections.done d₀ ∧
      s.lock = lock.free
  notStuck : ∀ i w, (lock.acquire s.lock i w).isSome = true ∨
    ∃ j, (s.step lock (.act j)).isSome = true ∨ (s.step lock (.unlock j)).isSome = true

/-- With nobody inside, the lock is free. -/
theorem Inv.free (hlock : lock.Lawful Held) (h : Inv Held d₀ s)
    (hnone : ∀ i, s.sections.inside i = none) : s.lock = lock.free := by
  refine hlock.idle s.lock ?_
  have hwho : s.who = fun _ => none := funext fun i => by simp [who, hnone i]
  exact hwho ▸ h.held

/-- If the lock cannot be had, some thread is inside, and that one is not held up. -/
theorem Inv.notStuck (hlock : lock.Lawful Held) (h : Inv Held d₀ s) (i : ι) (w : Bool) :
    (lock.acquire s.lock i w).isSome = true ∨
      ∃ j, (s.step lock (.act j)).isSome = true ∨ (s.step lock (.unlock j)).isSome = true := by
  by_cases hnone : ∀ j, s.sections.inside j = none
  · left
    rw [h.free hlock hnone]
    exact hlock.granted i w
  · obtain ⟨j, hj⟩ := not_forall.mp hnone
    obtain ⟨⟨c, rest⟩, hin⟩ := Option.ne_none_iff_exists'.mp hj
    refine .inr ⟨j, ?_⟩
    cases rest with
    | nil => exact .inr (by simp [Locked.step, hin])
    | cons f rest => exact .inl (by simp [Locked.step, hin])

/-- Every lock that keeps its promises serialises the sections of every run. -/
theorem serial_of_run (hlock : lock.Lawful Held) {ls : List (LockedLabel ι σ τ)}
    (hrun : run (Locked.step lock) (init lock d₀) ls = some s) : Serial lock Held d₀ s := by
  have h := Inv.of_run hlock hrun
  exact ⟨h.held, h.serialised, fun hnone => ⟨h.serialised.quiet hnone, h.free hlock hnone⟩,
    h.notStuck hlock⟩

/-! ## Invariants of the data

If every section keeps a property when it runs alone, every run does. This is what the rest of the
development uses of the locks. -/

/-- Whoever calls, is inside or has been inside runs a section in `C`. -/
structure Within (C : CriticalSection σ τ → Prop) (s : Locked ι κ σ τ) : Prop where
  calls : ∀ i p, s.calls i = some p → C p.2
  inside : ∀ i p, s.sections.inside i = some p → C p.1
  done : ∀ e ∈ s.sections.done, C e.2

variable {C : CriticalSection σ τ → Prop}

theorem Within.setCall (h : Within C s) (i : ι) {call : Option (Bool × CriticalSection σ τ)}
    (hcall : ∀ p, call = some p → C p.2) : Within C (s.setCall i call) := by
  refine ⟨?_, h.inside, h.done⟩
  intro j p hj
  rcases eq_or_ne j i with rfl | hji
  · exact hcall p (by simpa [Locked.setCall] using hj)
  · exact h.calls j p (by simpa [Locked.setCall, hji] using hj)

/-- A section that is run has been called for. -/
theorem Within.step (h : Within C s) (hl : ∀ i w c, l = .call i w c → C c)
    (hstep : s.step lock l = some s') : Within C s' := by
  cases l with
  | call i waits c =>
      simp only [Locked.step] at hstep
      split at hstep
      case isFalse => cases hstep
      case isTrue =>
        obtain rfl := Option.some.inj hstep
        exact h.setCall i fun p hp => Option.some.inj hp ▸ hl i waits c rfl
  | attempt i =>
      simp only [Locked.step] at hstep
      split at hstep
      case h_1 => cases hstep
      case h_2 waits c hcall =>
        -- the call ends, with the lock or without it
        have hnone : Within C (s.setCall i none) := h.setCall i fun p hp => by cases hp
        split at hstep
        case h_1 k hk =>
          obtain rfl := Option.some.inj hstep
          refine ⟨hnone.calls, ?_, h.done⟩
          intro j p hj
          rcases eq_or_ne j i with rfl | hji
          · have hp : (c, c.actions) = p := by simpa using hj
            exact hp ▸ h.calls j _ hcall
          · exact h.inside j p (by simpa [hji] using hj)
        case h_2 =>
          split at hstep
          case isTrue => exact Option.some.inj hstep ▸ h
          case isFalse => exact Option.some.inj hstep ▸ hnone
  | refuse i =>
      simp only [Locked.step] at hstep
      split at hstep
      case isTrue => exact Option.some.inj hstep ▸ h.setCall i fun p hp => by cases hp
      case isFalse => cases hstep
  | act i =>
      simp only [Locked.step] at hstep
      split at hstep
      case h_2 => cases hstep
      case h_1 c f rest hin =>
        obtain rfl := Option.some.inj hstep
        refine ⟨h.calls, ?_, h.done⟩
        intro j p hj
        rcases eq_or_ne j i with rfl | hji
        · have hp : (c, rest) = p := by simpa using hj
          have hc : C c := h.inside j (c, f :: rest) hin
          exact hp ▸ hc
        · exact h.inside j p (by simpa [hji] using hj)
  | unlock i =>
      simp only [Locked.step] at hstep
      split at hstep
      case h_2 => cases hstep
      case h_1 c hin =>
        obtain rfl := Option.some.inj hstep
        refine ⟨h.calls, ?_, ?_⟩
        · intro j p hj
          rcases eq_or_ne j i with rfl | hji
          · simp at hj
          · exact h.inside j p (by simpa [hji] using hj)
        · intro e he
          rcases List.mem_append.mp he with he | he
          · exact h.done e he
          · rw [List.mem_singleton.mp he]
            exact h.inside i _ hin

variable {Q P : σ → (ι → τ) → Prop}

/-- **Mutual exclusion.** What every section keeps when it runs alone, is kept in every run. By
`Serialised.invariant`, since one thread at most is inside. -/
theorem invariant_of_run (hlock : lock.Lawful Held) (hC : ∀ c, C c → c.writes = true ∧ c.Keeps Q P)
    (hQP : ∀ shared locals, Q shared locals → P shared locals) (h0 : Q d₀.1 d₀.2)
    {ls : List (LockedLabel ι σ τ)}
    (hcalls : ∀ i w c, .call i w c ∈ ls → C c)
    (hrun : run (Locked.step lock) (init lock d₀) ls = some s) :
    P s.sections.shared s.sections.locals := by
  have hok : AllSteps (Locked.step lock) (fun _ l => ∀ i w c, l = .call i w c → C c)
      (init lock d₀) ls := by
    refine allSteps_of_forall (fun l hl _ i w c heq => hcalls i w c ?_) _
    rwa [← heq]
  have hwithin : Within C s := by
    refine run_inv _ _ (Within C) (fun _ _ _ h hl hs => h.step hl hs) ⟨?_, ?_, ?_⟩ hok hrun
    · intro i p hp
      simp [init] at hp
    · intro i p hp
      simp [init] at hp
    · intro e he
      simp [init] at he
  exact (Inv.of_run hlock hrun).serialised.invariant (fun i p hi => hC p.1 (hwithin.inside i p hi)) hQP
    (Sections.serially_inv h0 fun e he => (hC e.2 (hwithin.done e he)).2)

end Locked

end Cppev
