import Cppev.Lib.Ownership
import Cppev.Lib.Transition

/-!
# Classes that hold a resource

Objects that take a resource when they are constructed, pass it on when they are moved, and release
it when they are destroyed. What an object holds is read off its members, by the destructor
(`Holder.held`), and the laws of `Holder` are about what a move makes of the members.

* `Inv.step`: never more is released or held than has been taken.
* `balanced_iff`: nothing is lost, if and only if no move is to an object that holds something.
-/

namespace Cppev

/-! ## Objects and what they hold

The class is given by four functions on its members. Ownership is ghost, and `Inv` says that what
the members say is what is owned. -/

/-- A class whose objects hold one resource, or nothing. -/
structure Holder (α ρ : Type) where
  /-- What the destructor releases. -/
  held : α → Option ρ
  /-- The move constructor: the new object, and what is left of the other one. -/
  moveNew : α → α × α
  /-- The assignment to the first object, if the two are of one type. -/
  moveTo : α → α → Option (α × α)
  held_moveNew : ∀ other, held (moveNew other).1 = held other ∧ held (moveNew other).2 = none
  held_moveTo : ∀ this other r, moveTo this other = some r →
    held r.1 = held other ∧ held r.2 = none

structure Holding (α ρ : Type) where
  objs : Addr → Option α
  /-- The history: what constructors have taken, and what destructors have released. -/
  taken : List ρ
  released : List ρ
  owner : Owners Addr ρ

inductive HoldingOp (α : Type) where
  /-- A constructor that has taken a resource leaves `x`. -/
  | construct (a : Addr) (x : α)
  | moveConstruct (this other : Addr)
  | moveAssign (this other : Addr)
  | destroy (a : Addr)
  deriving DecidableEq, Repr

namespace Holding

variable {α ρ : Type} [DecidableEq ρ]

def setObj (s : Holding α ρ) (a : Addr) (x : Option α) : Holding α ρ :=
  { s with objs := Function.update s.objs a x }

def moved (s : Holding α ρ) (this other : Addr) (r : α × α) : Holding α ρ :=
  { (s.setObj this (some r.1)).setObj other (some r.2) with owner := s.owner.transfer this other }

def step (c : Holder α ρ) (s : Holding α ρ) : HoldingOp α → Option (Holding α ρ)
  | .construct a x =>
    match s.objs a, c.held x with
    | none, some r =>
      some { s.setObj a (some x) with taken := s.taken ++ [r], owner := s.owner.set a (some r) }
    | _, _ => none
  | .moveConstruct this other =>
    match s.objs this, s.objs other with
    | none, some y => some (s.moved this other (c.moveNew y))
    | _, _ => none
  | .moveAssign this other =>
    match s.objs this, s.objs other with
    | some x, some y =>
      if other = this then some s else (c.moveTo x y).map fun r => s.moved this other r
    | _, _ => none
  | .destroy a =>
    match s.objs a with
    | some x =>
      some { s.setObj a none with
        released := s.released ++ (c.held x).toList, owner := s.owner.set a none }
    | none => none

/-- Before the first object. -/
def init : Holding α ρ := { objs := fun _ => none, taken := [], released := [], owner := .empty }

/-- An assignment is to an object that holds nothing, or to itself. -/
def Proper (c : Holder α ρ) (s : Holding α ρ) : HoldingOp α → Prop
  | .moveAssign this other => other = this ∨ ∀ x ∈ s.objs this, c.held x = none
  | _ => True

instance (c : Holder α ρ) (s : Holding α ρ) : (op : HoldingOp α) → Decidable (s.Proper c op)
  | .moveAssign this other =>
    inferInstanceAs (Decidable (other = this ∨ ∀ x ∈ s.objs this, c.held x = none))
  | .construct .. | .moveConstruct .. | .destroy _ => isTrue trivial

/-- How often a resource was released, and is still held. -/
noncomputable def accounted (s : Holding α ρ) (r : ρ) : Nat :=
  s.released.count r + s.owner.count r

/-- Nothing is lost. -/
def Balanced (s : Holding α ρ) : Prop := ∀ r, s.accounted r = s.taken.count r

/-- The objects say who holds what, and nothing comes from nowhere. -/
structure Inv (c : Holder α ρ) (s : Holding α ρ) : Prop where
  owner : ∀ a, s.owner.of a = (s.objs a).bind c.held
  le : ∀ r, s.accounted r ≤ s.taken.count r

variable {c : Holder α ρ} {s s' : Holding α ρ} {a this other : Addr} {x : α}

theorem Inv.init : (init : Holding α ρ).Inv c :=
  ⟨fun _ => rfl, fun r => by simp [Holding.init, accounted]⟩

theorem balanced_init : (init : Holding α ρ).Balanced := fun r => by
  simp [Holding.init, accounted]

/-! ## A step

For each operation, what it does to the resource: taken, handed on, released, or lost. Only a move
to an object that holds something can lose it. -/

/-- What a step does to the accounts: what has been lost before stays lost, and whether something
is lost depends on the step. -/
structure Stepped (c : Holder α ρ) (s s' : Holding α ρ) (op : HoldingOp α) : Prop where
  owner : ∀ a, s'.owner.of a = (s'.objs a).bind c.held
  le : ∀ r, s'.accounted r + s.taken.count r ≤ s.accounted r + s'.taken.count r
  proper_iff : s.Proper c op ↔
    ∀ r, s'.accounted r + s.taken.count r = s.accounted r + s'.taken.count r

/-- A step that loses nothing. -/
theorem Stepped.of_eq {op : HoldingOp α} (howner : ∀ a, s'.owner.of a = (s'.objs a).bind c.held)
    (hproper : s.Proper c op)
    (heq : ∀ r, s'.accounted r + s.taken.count r = s.accounted r + s'.taken.count r) :
    Stepped c s s' op :=
  ⟨howner, fun r => (heq r).le, iff_of_true hproper heq⟩

theorem Inv.owner_moved (hi : s.Inv c) {y : α} (hy : s.objs other = some y) {r : α × α}
    (hheld : c.held r.1 = c.held y ∧ c.held r.2 = none) (a : Addr) :
    (s.moved this other r).owner.of a = ((s.moved this other r).objs a).bind c.held := by
  simp only [moved, setObj, Owners.of_transfer, Function.update_apply]
  split
  case isTrue => simp [hheld.2]
  case isFalse =>
    split
    case isTrue => simp [hi.owner, hy, hheld.1]
    case isFalse => exact hi.owner a

theorem accounted_moved (s : Holding α ρ) (this other : Addr) (r : α × α) (q : ρ) :
    (s.moved this other r).accounted q + (if s.owner.of this = some q then 1 else 0) =
      s.accounted q := by
  have htransfer := s.owner.count_transfer this other q
  simp only [accounted, moved, setObj]
  omega

/-- What an object holds is replaced together with the object. -/
theorem Inv.owner_set (hi : s.Inv c) (a : Addr) (x : Option α) (b : Addr) :
    (s.owner.set a (x.bind c.held)).of b = ((s.setObj a x).objs b).bind c.held := by
  simp only [setObj, Owners.of_set, Function.update_apply]
  split
  case isTrue => rfl
  case isFalse => exact hi.owner b

theorem Inv.owner_of_some (hi : s.Inv c) (ha : s.objs a = some x) : s.owner.of a = c.held x := by
  rw [hi.owner, ha]
  rfl

theorem Inv.owner_of_none (hi : s.Inv c) (ha : s.objs a = none) : s.owner.of a = none := by
  rw [hi.owner, ha]
  rfl

theorem Inv.stepped_construct (hi : s.Inv c) {r : ρ} (hnew : s.objs a = none)
    (hheld : c.held x = some r) :
    Stepped c s { s.setObj a (some x) with
      taken := s.taken ++ [r], owner := s.owner.set a (some r) } (.construct a x) := by
  refine .of_eq (fun b => ?_) trivial fun q => ?_
  · have howner := hi.owner_set a (some x) b
    rwa [Option.bind_some, hheld] at howner
  · have hset := s.owner.count_set a (some r) q
    simp only [hi.owner_of_none hnew, reduceCtorEq, if_false, Option.some.injEq] at hset
    simp only [accounted, setObj, List.count_append, List.count_singleton, beq_iff_eq]
    omega

theorem Inv.stepped_moveConstruct (hi : s.Inv c) (hthis : s.objs this = none)
    (hother : s.objs other = some x) :
    Stepped c s (s.moved this other (c.moveNew x)) (.moveConstruct this other) := by
  refine .of_eq (hi.owner_moved hother (c.held_moveNew x)) trivial fun q => ?_
  -- a new object has held nothing that could be lost
  have hacc := s.accounted_moved this other (c.moveNew x) q
  simp only [hi.owner_of_none hthis, reduceCtorEq, if_false] at hacc
  exact congrArg (· + s.taken.count q) hacc

theorem Inv.stepped_moveAssign (hi : s.Inv c) {y : α} {r : α × α} (hthis : s.objs this = some x)
    (hother : s.objs other = some y) (hne : other ≠ this) (hr : c.moveTo x y = some r) :
    Stepped c s (s.moved this other r) (.moveAssign this other) := by
  have hacc := s.accounted_moved this other r
  simp only [hi.owner_of_some hthis] at hacc
  have htaken : (s.moved this other r).taken = s.taken := rfl
  refine ⟨hi.owner_moved hother (c.held_moveTo x y r hr), fun q => ?_, ?_⟩
  · have := hacc q
    rw [htaken]
    omega
  -- what the target holds is lost
  · have hproper : s.Proper c (.moveAssign this other) ↔ c.held x = none := by
      simp [Proper, hne, hthis]
    rw [hproper, htaken]
    constructor
    · intro hnone q
      have := hacc q
      simp only [hnone, reduceCtorEq, if_false] at this
      omega
    · intro hall
      cases hheld : c.held x with
      | none => rfl
      | some q =>
          have := hacc q
          rw [if_pos hheld] at this
          have := hall q
          omega

theorem Inv.stepped_destroy (hi : s.Inv c) (hx : s.objs a = some x) :
    Stepped c s { s.setObj a none with
      released := s.released ++ (c.held x).toList, owner := s.owner.set a none } (.destroy a) := by
  refine .of_eq (hi.owner_set a none) trivial fun q => ?_
  have hset := s.owner.count_set a none q
  have hcount : (c.held x).toList.count q = if c.held x = some q then 1 else 0 := by
    cases c.held x with
    | none => rfl
    | some r => simp [List.count_singleton]
  simp only [hi.owner_of_some hx, reduceCtorEq, if_false] at hset
  simp only [accounted, setObj, List.count_append, hcount]
  omega

theorem Inv.stepped {op : HoldingOp α} (hi : s.Inv c) (h : step c s op = some s') :
    Stepped c s s' op := by
  cases op with
  | construct a x =>
      simp only [step] at h
      split at h
      case h_2 => cases h
      case h_1 r hnew hheld =>
        obtain rfl := Option.some.inj h
        exact hi.stepped_construct hnew hheld
  | moveConstruct this other =>
      simp only [step] at h
      split at h
      case h_2 => cases h
      case h_1 y hthis hother =>
        obtain rfl := Option.some.inj h
        exact hi.stepped_moveConstruct hthis hother
  | moveAssign this other =>
      simp only [step] at h
      split at h
      case h_2 => cases h
      case h_1 x y hthis hother =>
        split at h
        case isTrue hsame =>
          obtain rfl := Option.some.inj h
          exact .of_eq hi.owner (.inl hsame) fun _ => rfl
        case isFalse hne =>
          obtain ⟨r, hr, rfl⟩ := Option.map_eq_some_iff.mp h
          exact hi.stepped_moveAssign hthis hother hne hr
  | destroy a =>
      simp only [step] at h
      split at h
      case h_2 => cases h
      case h_1 x hx =>
        obtain rfl := Option.some.inj h
        exact hi.stepped_destroy hx

theorem Inv.step {op : HoldingOp α} (hi : s.Inv c) (h : Holding.step c s op = some s') :
    s'.Inv c := by
  have hstepped := hi.stepped h
  refine ⟨hstepped.owner, fun r => ?_⟩
  have hle := hstepped.le r
  have hold := hi.le r
  omega

/-! ## Runs

The balance of all resources, and the exact condition for it. -/

/-- **Nothing is lost** in a run if and only if its steps are as `Proper` says. -/
theorem balanced_iff (c : Holder α ρ) (ops : List (HoldingOp α)) (s : Holding α ρ)
    (hrun : run (Holding.step c) Holding.init ops = some s) :
    AllSteps (Holding.step c) (Proper c) Holding.init ops ↔ s.Balanced := by
  refine allSteps_iff_last (I := Inv c) (fun _ _ _ hi h => hi.step h) ?_ ?_ .init balanced_init hrun
  · intro s op s' hi hb h
    rw [(hi.stepped h).proper_iff]
    refine forall_congr' fun r => ?_
    have hr := hb r
    omega
  · intro s op s' hi h hb r
    have hle := (hi.stepped h).le r
    have hold := hi.le r
    have hr := hb r
    omega

theorem inv_of_run {ops : List (HoldingOp α)}
    (hrun : run (Holding.step c) Holding.init ops = some s) : s.Inv c :=
  run_inv (Holding.step c) (fun _ _ => True) (Inv c) (fun _ _ _ hi _ h => hi.step h) .init
    (allSteps_true ..) hrun

/-- When all objects are gone, nobody holds anything. -/
theorem Inv.count_eq_zero (hi : s.Inv c) (hgone : ∀ a, s.objs a = none) (r : ρ) :
    s.owner.count r = 0 :=
  (s.owner.count_eq_zero_iff r).mpr fun a => by simp [hi.owner, hgone a]

end Holding

end Cppev
