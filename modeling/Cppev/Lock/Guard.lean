import Cppev.Lib.Ownership
import Cppev.Lib.Transition

/-!
# Guards of read-write locks

`rdlockguard` and `wrlockguard` over any number of `pshared_rwlock` objects. A guard has a pointer to
its lock, and no member that tells whether it holds it at the moment. Here it is recorded which
guard holds which lock: the one that has locked it, until that one unlocks it or is moved from.

* `balanced_step`: what a step does to the hold counts and to the guards that hold.
* `guards_iff`: in which programs they always agree.
-/

namespace Cppev

/-! ## The lock -/

/-- `class pshared_rwlock`: how many hold the lock for reading, and whether it is held for writing. -/
structure PsharedRwlock where
  readers : Nat
  writer : Bool
  exclusive : writer = true → readers = 0
  deriving DecidableEq

/-- `rdlockguard` or `wrlockguard`. -/
inductive GuardKind where
  | rd | wr
  deriving DecidableEq, Repr

namespace PsharedRwlock

def free : PsharedRwlock := ⟨0, false, by simp⟩

/-- `rdlock`; it blocks while the lock is held for writing. -/
def rdlock (l : PsharedRwlock) : Option PsharedRwlock :=
  if h : l.writer = true then none else some ⟨l.readers + 1, l.writer, fun hw => absurd hw h⟩

/-- `wrlock`; it blocks while the lock is held. -/
def wrlock (l : PsharedRwlock) : Option PsharedRwlock :=
  if h : l.writer = false ∧ l.readers = 0 then some ⟨l.readers, true, fun _ => h.2⟩ else none

/-- `unlock`, whoever calls it. -/
def unlock (l : PsharedRwlock) : PsharedRwlock :=
  if l.writer = true then ⟨l.readers, false, by simp⟩
  else ⟨l.readers - 1, l.writer, fun hw => by simp [l.exclusive hw]⟩

/-- What a guard calls to lock. -/
def acquire (l : PsharedRwlock) : GuardKind → Option PsharedRwlock
  | .rd => l.rdlock
  | .wr => l.wrlock

/-- How often the lock is held. -/
def held (l : PsharedRwlock) : GuardKind → Nat
  | .rd => l.readers
  | .wr => if l.writer = true then 1 else 0

variable {l l' : PsharedRwlock} {k : GuardKind}

/-- Who gets the lock is counted, or noted as the writer. -/
theorem held_acquire (h : l.acquire k = some l') (k' : GuardKind) :
    l'.held k' = l.held k' + if k = k' then 1 else 0 := by
  cases k with
  | rd =>
      simp only [acquire, rdlock] at h
      split at h
      case isTrue => cases h
      case isFalse =>
        obtain rfl := Option.some.inj h
        cases k' <;> simp [held]
  | wr =>
      simp only [acquire, wrlock] at h
      split at h
      case isFalse => cases h
      case isTrue hfree =>
        obtain rfl := Option.some.inj h
        cases k' <;> simp [held, hfree.1]

/-- `unlock` takes back a hold of the kind that there is. -/
theorem held_unlock (h : 0 < l.held k) (k' : GuardKind) :
    l.unlock.held k' + (if k = k' then 1 else 0) = l.held k' := by
  have hexcl := l.exclusive
  cases hw : l.writer with
  | true =>
      cases k with
      | rd => simp [held, hexcl hw] at h
      | wr => cases k' <;> simp [held, unlock, hw]
  | false =>
      cases k with
      | wr => simp [held, hw] at h
      | rd =>
          have hpos : 0 < l.readers := h
          cases k' with
          | rd =>
              simp only [held, unlock, hw]
              simp
              omega
          | wr => simp [held, unlock, hw]

theorem eq_free_of_held (h : ∀ k, l.held k = 0) : l = free := by
  have hrd := h .rd
  have hwr := h .wr
  cases l
  simp_all [held, free]

end PsharedRwlock

abbrev LockId := Nat

/-! ## Programs with guards -/

/-- A guard: its class, and `rwlock_`. -/
structure Guard where
  kind : GuardKind
  rwlock : Option LockId
  deriving DecidableEq, Repr

/-- The locks and the guards; `holds` is ghost. -/
structure Guards where
  locks : LockId → PsharedRwlock
  guards : Addr → Option Guard
  /-- Which guard holds which lock. -/
  holds : Owners Addr (LockId × GuardKind)
  /-- A lock has been unlocked for a guard that did not hold it. -/
  stray : Bool

/-- What a program does. -/
inductive GuardOp where
  | construct (a : Addr) (kind : GuardKind) (l : LockId)
  | moveConstruct (this other : Addr)
  | moveAssign (this other : Addr)
  | lock (a : Addr)
  | unlock (a : Addr)
  | destroy (a : Addr)
  deriving DecidableEq, Repr

namespace Guards

/-- The lock is acquired for the guard. -/
def acquire (s : Guards) (a : Addr) (kind : GuardKind) (l : LockId) : Option Guards :=
  match (s.locks l).acquire kind with
  | some x =>
    some { s with
      locks := Function.update s.locks l x
      holds := s.holds.set a (some (l, kind)) }
  | none => none

/-- The lock is unlocked for the guard. -/
def release (s : Guards) (a : Addr) (l : LockId) : Guards :=
  let s' := { s with
    locks := Function.update s.locks l (s.locks l).unlock
    holds := s.holds.set a none }
  if ((s.holds.of a).map Prod.fst) = some l then s' else { s' with stray := true }

def setGuard (s : Guards) (a : Addr) (g : Option Guard) : Guards :=
  { s with guards := Function.update s.guards a g }

/-- `this->rwlock_ = other.rwlock_; other.rwlock_ = nullptr;`, where both may be the same. -/
def move (s : Guards) (this other : Addr) (g : Guard) : Guards :=
  { s with
    guards := Function.update (Function.update s.guards this (some g)) other
      (some { g with rwlock := none })
    holds := s.holds.transfer this other }

/-- A guard whose pointer is null has no `lock` and `unlock`; the two come in turn, and `lock` is the
one that comes after `unlock`. An operation that blocks has not happened yet. -/
def step (s : Guards) : GuardOp → Option Guards
  | .construct a kind l =>
    match s.guards a with
    | none => (s.setGuard a (some ⟨kind, some l⟩)).acquire a kind l
    | some _ => none
  | .moveConstruct this other =>
    match s.guards this, s.guards other with
    | none, some g => some (s.move this other g)
    | _, _ => none
  | .moveAssign this other =>
    match s.guards this, s.guards other with
    | some mine, some g => if mine.kind = g.kind then some (s.move this other g) else none
    | _, _ => none
  | .lock a =>
    match s.guards a, s.holds.of a with
    | some ⟨kind, some l⟩, none => s.acquire a kind l
    | _, _ => none
  | .unlock a =>
    match s.guards a, s.holds.of a with
    | some ⟨_, some l⟩, some _ => some (s.release a l)
    | _, _ => none
  | .destroy a =>
    match s.guards a with
    | some ⟨_, some l⟩ => some ((s.release a l).setGuard a none)
    | some ⟨_, none⟩ => some (s.setGuard a none)
    | none => none

def init : Guards :=
  { locks := fun _ => .free, guards := fun _ => none, holds := .empty, stray := false }

/-- An assignment is to a guard that does not hold its lock, and what is destroyed holds its lock or
has none. -/
def Proper (s : Guards) : GuardOp → Prop
  | .moveAssign this _ => s.holds.of this = none
  | .destroy a => ∀ g ∈ s.guards a, g.rwlock = none ∨ s.holds.of a ≠ none
  | _ => True

instance (s : Guards) : (op : GuardOp) → Decidable (s.Proper op)
  | .moveAssign this _ => inferInstanceAs (Decidable (s.holds.of this = none))
  | .destroy a =>
    inferInstanceAs (Decidable (∀ g ∈ s.guards a, g.rwlock = none ∨ s.holds.of a ≠ none))
  | .construct .. | .moveConstruct .. | .lock _ | .unlock _ => isTrue trivial

/-- Each lock is held as often as there are guards that hold it, and nothing has been unlocked for
a guard that did not. -/
def Balanced (s : Guards) : Prop :=
  s.stray = false ∧ ∀ l k, (s.locks l).held k = s.holds.count (l, k)

/-- The lock that a guard holds is the one it points to. -/
def Inv (s : Guards) : Prop :=
  ∀ a l k, s.holds.of a = some (l, k) → s.guards a = some ⟨k, some l⟩

variable {s s' : Guards} {a : Addr} {kind : GuardKind} {l : LockId}

theorem Inv.init : Guards.init.Inv := fun _ _ _ h => by simp [Guards.init] at h

theorem balanced_init : Guards.init.Balanced := by
  refine ⟨rfl, fun l k => ?_⟩
  cases k <;> simp [Guards.init, PsharedRwlock.held, PsharedRwlock.free]

/-! ## Acquiring

A guard that locks owns a hold from then on; the lock may refuse, and then nothing happens. -/

theorem acquire_eq_some (h : s.acquire a kind l = some s') :
    ∃ x, (s.locks l).acquire kind = some x ∧ s' = { s with
      locks := Function.update s.locks l x
      holds := s.holds.set a (some (l, kind)) } := by
  simp only [acquire] at h
  split at h
  case h_1 x hx => exact ⟨x, hx, (Option.some.inj h).symm⟩
  case h_2 => cases h

/-- The guard has a pointer to what it holds. -/
theorem Inv.acquire (hi : s.Inv) (hg : s.guards a = some ⟨kind, some l⟩)
    (h : s.acquire a kind l = some s') : s'.Inv := by
  obtain ⟨x, -, rfl⟩ := acquire_eq_some h
  intro b l' k hb
  by_cases hba : b = a
  · subst hba
    obtain ⟨rfl, rfl⟩ : l = l' ∧ kind = k := by simpa using hb
    exact hg
  · exact hi b l' k (by simpa [hba] using hb)

/-- One more holder, and one more hold. -/
theorem Balanced.acquire (hb : s.Balanced) (ha : s.holds.of a = none)
    (h : s.acquire a kind l = some s') : s'.Balanced := by
  obtain ⟨x, hx, rfl⟩ := acquire_eq_some h
  refine ⟨hb.1, fun l' k => ?_⟩
  -- the guards that hold, and the holds of the locks, before and after
  have hset := s.holds.count_set a (some (l, kind)) (l', k)
  have hheld := PsharedRwlock.held_acquire hx k
  have hbal := hb.2 l' k
  simp only [ha, reduceCtorEq, if_false, Option.some.injEq, Prod.mk.injEq] at hset
  by_cases hl : l' = l
  · subst hl
    simp only [Function.update_self, true_and] at hset ⊢
    omega
  · simp only [Function.update_of_ne hl, Ne.symm hl, false_and, if_false] at hset ⊢
    omega

/-! ## Releasing

`unlock` releases a hold of the lock, whoever has it. If the guard has none, another guard's hold is
gone. -/

/-- The guard holds nothing afterwards. -/
theorem Inv.release (hi : s.Inv) (a : Addr) (l : LockId) : (s.release a l).Inv := by
  have hsome : ∀ b r, (s.release a l).holds.of b = some r → s.holds.of b = some r := by
    intro b r hb
    by_cases hba : b = a
    · simp [Guards.release, hba, apply_ite Guards.holds] at hb
    · simpa [Guards.release, hba, apply_ite Guards.holds] using hb
  intro b l' k hb
  have hg := hi b l' k (hsome b _ hb)
  simpa [Guards.release, apply_ite Guards.guards] using hg

/-- Of a lock that the guard does not hold, another hold is released, or none at all. -/
theorem Balanced.release_iff (hi : s.Inv) (hb : s.Balanced)
    (hg : s.guards a = some ⟨kind, some l⟩) :
    (s.release a l).Balanced ↔ s.holds.of a ≠ none := by
  cases hof : s.holds.of a with
  | none =>
      refine iff_of_false (fun h => ?_) (by simp)
      have hstray := h.1
      simp [release, hof] at hstray
  | some r =>
      obtain ⟨l', k⟩ := r
      -- what the guard holds is the lock it points to, so that is the one unlocked
      obtain ⟨rfl, rfl⟩ : kind = k ∧ l = l' := by simpa using hg.symm.trans (hi a l' k hof)
      refine iff_of_true ?_ (by simp)
      have hpos : 0 < (s.locks l).held kind := hb.2 l kind ▸ Owners.count_pos hof
      simp only [release, hof, Option.map_some, if_true]
      refine ⟨hb.1, fun l' k => ?_⟩
      have hset := s.holds.count_set a none (l', k)
      have hheld := PsharedRwlock.held_unlock hpos k
      have hbal := hb.2 l' k
      simp only [hof, reduceCtorEq, if_false, Option.some.injEq, Prod.mk.injEq] at hset
      by_cases hl : l' = l
      · subst hl
        simp only [Function.update_self, true_and] at hset ⊢
        omega
      · simp only [Function.update_of_ne hl, Ne.symm hl, false_and, if_false] at hset ⊢
        omega

/-! ## Moving

A move overwrites the pointer of the target. A target with a hold leaves its lock locked. -/

theorem Inv.move (hi : s.Inv) (this : Addr) {other : Addr} {g : Guard}
    (hg : s.guards other = some g) : (s.move this other g).Inv := by
  intro b l k hb
  simp only [Guards.move, Owners.of_transfer] at hb ⊢
  -- `other` comes first: in a self-move it is also the target, and ends without a pointer
  by_cases hbo : b = other
  · simp [hbo] at hb
  · rw [if_neg hbo] at hb
    rw [Function.update_of_ne hbo]
    by_cases hbt : b = this
    · rw [if_pos hbt] at hb
      rw [hbt, Function.update_self]
      exact hg.symm.trans (hi other l k hb)
    · rw [if_neg hbt] at hb
      rw [Function.update_of_ne hbt]
      exact hi b l k hb

/-- What the target holds stays locked. -/
theorem Balanced.move_iff (hb : s.Balanced) (this other : Addr) (g : Guard) :
    (s.move this other g).Balanced ↔ s.holds.of this = none := by
  have hcount := s.holds.count_transfer this other
  constructor
  · intro h
    cases hof : s.holds.of this with
    | none => rfl
    | some r =>
        -- the target's lock has a holder less, and no hold less
        obtain ⟨l, k⟩ := r
        have htransfer := hcount (l, k)
        have hbefore := hb.2 l k
        have hafter : (s.locks l).held k = (s.holds.transfer this other).count (l, k) := h.2 l k
        rw [if_pos hof] at htransfer
        omega
  · intro hnone
    refine ⟨hb.1, fun l k => ?_⟩
    have htransfer := hcount (l, k)
    rw [hnone, if_neg (by simp)] at htransfer
    exact (hb.2 l k).trans htransfer.symm

/-! ## Steps

For each operation: the counts agree after it if and only if it is `Proper`. -/

theorem Inv.setGuard (hi : s.Inv) (ha : s.holds.of a = none) (g : Option Guard) :
    (s.setGuard a g).Inv := by
  intro b l k hb
  have hba : b ≠ a := by
    rintro rfl
    exact absurd (ha.symm.trans hb) (by simp)
  exact (Function.update_of_ne hba ..).trans (hi b l k hb)

@[simp] theorem balanced_setGuard (g : Option Guard) : (s.setGuard a g).Balanced ↔ s.Balanced :=
  Iff.rfl

theorem holds_release (a : Addr) (l : LockId) : (s.release a l).holds.of a = none := by
  simp [release, apply_ite Guards.holds]

/-- A guard without a lock holds none. -/
theorem Inv.holds_eq_none (hi : s.Inv) (h : ∀ g, s.guards a = some g → g.rwlock = none) :
    s.holds.of a = none := by
  cases hof : s.holds.of a with
  | none => rfl
  | some r => exact absurd (h _ (hi a r.1 r.2 hof)) (by simp)

/-- One step from a state in which the counts agree. -/
theorem balanced_step {op : GuardOp} (hi : s.Inv) (hb : s.Balanced) (h : s.step op = some s') :
    s'.Inv ∧ (s.Proper op ↔ s'.Balanced) := by
  cases op with
  | construct a kind l =>
      simp only [step] at h
      split at h
      case h_2 => cases h
      case h_1 ha =>
        have hnone : s.holds.of a = none := hi.holds_eq_none (by simp [ha])
        -- a guard that is new holds nothing until it has got the lock
        have hb' : (s.setGuard a (some ⟨kind, some l⟩)).Balanced := hb
        refine ⟨(hi.setGuard hnone _).acquire ?_ h, iff_of_true trivial (hb'.acquire hnone h)⟩
        exact Function.update_self ..
  | moveConstruct this other =>
      simp only [step] at h
      split at h
      case h_2 => cases h
      case h_1 g hthis hother =>
        obtain rfl := Option.some.inj h
        have hnone : s.holds.of this = none := hi.holds_eq_none (by simp [hthis])
        exact ⟨hi.move this hother, iff_of_true trivial ((hb.move_iff ..).mpr hnone)⟩
  | moveAssign this other =>
      simp only [step] at h
      split at h
      case h_2 => cases h
      case h_1 mine g hthis hother =>
        split at h
        case isFalse => cases h
        case isTrue =>
          obtain rfl := Option.some.inj h
          -- an assignment forgets what `this` holds
          exact ⟨hi.move this hother, (hb.move_iff ..).symm⟩
  | lock a =>
      simp only [step] at h
      split at h
      case h_2 => cases h
      case h_1 kind l hg hnone =>
        exact ⟨hi.acquire hg h, iff_of_true trivial (hb.acquire hnone h)⟩
  | unlock a =>
      simp only [step] at h
      split at h
      case h_2 => cases h
      case h_1 kind l r hg hof =>
        obtain rfl := Option.some.inj h
        -- `lock` and `unlock` come in turn, so the guard holds the lock
        exact ⟨hi.release a l, iff_of_true trivial ((hb.release_iff hi hg).mpr (by simp [hof]))⟩
  | destroy a =>
      simp only [step] at h
      split at h
      case h_1 kind l hg =>
        obtain rfl := Option.some.inj h
        -- the destructor unlocks in any case, also a lock that is not held
        refine ⟨(hi.release a l).setGuard (holds_release a l) none, ?_⟩
        rw [balanced_setGuard, hb.release_iff hi hg]
        simp [Proper, hg]
      case h_2 kind hg =>
        obtain rfl := Option.some.inj h
        have hnone : s.holds.of a = none := hi.holds_eq_none (by simp [hg])
        exact ⟨hi.setGuard hnone none, iff_of_true (by simp [Proper, hg]) hb⟩
      case h_3 => cases h

/-- Without guards, no lock is held. -/
theorem Balanced.free (hi : s.Inv) (hb : s.Balanced) (hgone : ∀ a, s.guards a = none) (l : LockId) :
    s.locks l = .free := by
  refine PsharedRwlock.eq_free_of_held fun k => ?_
  rw [hb.2 l k, Owners.count_eq_zero_iff]
  intro a
  simp [hi.holds_eq_none (a := a) (by simp [hgone])]

/-! ## The theorem -/

/-- **Guards.** The steps are as `Proper` says if and only if, all the way, each lock is held as often
as there are guards that hold it, and no lock is unlocked for a guard that does not hold it. Then
all locks are free once all guards are gone. -/
theorem guards_iff (ops : List GuardOp) (s : Guards) (hrun : run step init ops = some s) :
    (AllSteps step Proper init ops ↔
      ∀ ops' t, ops' <+: ops → run step init ops' = some t → t.Balanced) ∧
    (AllSteps step Proper init ops → (∀ a, s.guards a = none) → ∀ l, s.locks l = .free) := by
  refine ⟨allSteps_iff_reached (fun _ _ _ hi hb h => (balanced_step hi hb h).1)
    (fun _ _ _ hi hb h => (balanced_step hi hb h).2) Inv.init balanced_init hrun, fun hok => ?_⟩
  obtain ⟨hi, hb⟩ : s.Inv ∧ s.Balanced := run_inv step Proper (fun s => s.Inv ∧ s.Balanced)
    (fun _ _ _ hib hp h => ⟨(balanced_step hib.1 hib.2 h).1, (balanced_step hib.1 hib.2 h).2.mp hp⟩)
    ⟨Inv.init, balanced_init⟩ hok hrun
  exact hb.free hi

/-- A guard is moved to one that has been unlocked before. -/
def movedOn : List GuardOp :=
  [.construct 0 .rd 7, .construct 1 .rd 8, .unlock 1, .moveAssign 1 0, .destroy 0, .destroy 1]

/-- A guard that is moved and then unlocked. -/
theorem guards_iff_movedOn : ∃ s, run step init movedOn = some s ∧ ∀ l, s.locks l = .free := by
  have hok : AllSteps step Proper init movedOn := by decide +kernel
  obtain ⟨s, hs⟩ := Option.isSome_iff_exists.mp
    (show (run step init movedOn).isSome = true by decide +kernel)
  refine ⟨s, hs, (guards_iff movedOn s hs).2 hok fun a => ?_⟩
  have hguards : (run step init movedOn).map (fun s => s.guards a) = some none := by
    match a with
    | 0 | 1 | a + 2 => rfl
  simpa [hs] using hguards

/-- It is moved to one that holds another lock, which stays locked. -/
theorem left_locked :
    ¬ ∀ (ops : List GuardOp) (s : Guards), run step init ops = some s →
      s.Balanced ∧ ((∀ a, s.guards a = none) → ∀ l, s.locks l = .free) := by
  intro h
  let ops : List GuardOp :=
    [.construct 0 .rd 7, .construct 1 .rd 8, .moveAssign 1 0, .destroy 0, .destroy 1]
  have hlocked : (run step init ops).map (fun s => (s.locks 8).readers) = some 1 := by
    decide +kernel
  obtain ⟨s, hs, hone⟩ := Option.map_eq_some_iff.mp hlocked
  have hfree := (h ops s hs).2 fun a => by
    have hguards : (run step init ops).map (fun s => s.guards a) = some none := by
      match a with
      | 0 | 1 | a + 2 => rfl
    simpa [hs] using hguards
  simp [hfree, PsharedRwlock.free] at hone

end Guards

end Cppev
