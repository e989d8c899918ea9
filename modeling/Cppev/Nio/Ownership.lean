import Cppev.Lib.Transition
import Cppev.Nio.Move

/-!
# Who closes a descriptor

Programs that construct `nio` objects from descriptors, move them, close them and destroy them. An
object has no other record of owning its descriptor than `fd_` and `closed_`. Here, the descriptors
handed to objects are told apart even when the kernel hands out the same number again, and it is
recorded which object owns which of them: the one it was handed to, until that object closes it or
the descriptor moves on to another.

* `Inv.step`: `closed_` says whether an object owns a descriptor, in every state.
* `Stepped.proper_iff_owned`: which steps leave every descriptor either closed once or with one owner.
* `ownership_iff`: in which programs each descriptor is closed exactly once, by its owner.
-/

namespace Cppev

namespace Nio

/-- `nio::close`, and the number given to `::close`. -/
def close (n : Nio) : Option Int × Nio :=
  (if n.fd ≠ -1 then some n.fd else none, { n with closed := true })

/-- `~nio`. -/
def destroy (n : Nio) : Option Int := if n.closed = false then n.close.1 else none

end Nio

/-! ## Programs with descriptors -/

/-- The objects, what is open, and who owns which descriptor; `closes` counts how often each has
been closed. -/
structure Descriptors where
  objs : Addr → Option Nio
  opened : Int → Bool
  /-- The numbers handed to objects; a descriptor is named by its place here. -/
  handed : List Int
  owner : Owners Addr Nat
  /-- How often its owner has closed a descriptor. -/
  closes : Nat → Nat
  /-- An object has closed what it did not own. -/
  stray : Bool

/-- What a program does. -/
inductive NioOp where
  | construct (a : Addr) (fd : Int)
  | moveConstruct (this other : Addr)
  | moveAssign (this other : Addr)
  | close (a : Addr)
  | destroy (a : Addr)
  deriving DecidableEq, Repr

namespace Descriptors

/-- A new descriptor for a new object. -/
def handOut (s : Descriptors) (a : Addr) (fd : Int) : Descriptors :=
  { s with
    objs := Function.update s.objs a (some (Nio.new fd))
    opened := Function.update s.opened fd true
    handed := s.handed ++ [fd]
    owner := s.owner.set a (some s.handed.length) }

def moveNio (s : Descriptors) (this other : Addr) (mine n : Nio) : Descriptors :=
  let (mine, left) := mine.move n
  { s with
    objs := Function.update (Function.update s.objs this (some mine)) other (some left)
    owner := s.owner.transfer this other }

/-- The kernel closes what has the number; `a` has called. -/
def sysClose (s : Descriptors) (a : Addr) : Option Int → Descriptors
  | none => s
  | some fd =>
    let s := { s with opened := Function.update s.opened fd false }
    match s.owner.of a with
    | some k =>
      if s.handed[k]? = some fd then
        { s with
          closes := Function.update s.closes k (s.closes k + 1)
          owner := s.owner.set a none }
      else { s with stray := true }
    | none => { s with stray := true }

def setObj (s : Descriptors) (a : Addr) (n : Option Nio) : Descriptors :=
  { s with objs := Function.update s.objs a n }

/-- What is in the memory of a new object does not matter to the move. -/
def step (s : Descriptors) : NioOp → Option Descriptors
  | .construct a fd =>
    if s.objs a = none ∧ 0 ≤ fd ∧ s.opened fd = false then some (s.handOut a fd) else none
  | .moveConstruct this other =>
    match s.objs this, s.objs other with
    | none, some n => some (s.moveNio this other (Nio.new 0) n)
    | _, _ => none
  | .moveAssign this other =>
    match s.objs this, s.objs other with
    | some m, some n => some (if other = this then s else s.moveNio this other m n)
    | _, _ => none
  | .close a =>
    match s.objs a with
    | some n => some ((s.sysClose a n.close.1).setObj a (some n.close.2))
    | none => none
  | .destroy a =>
    match s.objs a with
    | some n => some ((s.sysClose a n.destroy).setObj a none)
    | none => none

/-- Before the first object. -/
def init (opened : Int → Bool) : Descriptors :=
  { objs := fun _ => none, opened, handed := [], owner := .empty, closes := fun _ => 0
    stray := false }

/-- `close` is for objects that are not closed yet, or have no descriptor, and an assignment for a
target that is closed. -/
def Proper (s : Descriptors) : NioOp → Prop
  | .close a => ∀ n ∈ s.objs a, n.closed = false ∨ n.fd = -1
  | .moveAssign this other => other = this ∨ ∀ n ∈ s.objs this, n.closed = true
  | _ => True

instance (s : Descriptors) : (op : NioOp) → Decidable (s.Proper op)
  | .close a => inferInstanceAs (Decidable (∀ n ∈ s.objs a, n.closed = false ∨ n.fd = -1))
  | .moveAssign this other =>
    inferInstanceAs (Decidable (other = this ∨ ∀ n ∈ s.objs this, n.closed = true))
  | .construct .. | .moveConstruct .. | .destroy _ => isTrue trivial

/-- How often a descriptor was closed by its owner, and is still to be closed. -/
noncomputable def accounted (s : Descriptors) (k : Nat) : Nat := s.closes k + s.owner.count k

/-- Each descriptor has been closed once, or has one owner; nothing else has been closed. -/
def Owned (s : Descriptors) : Prop :=
  s.stray = false ∧ ∀ k < s.handed.length, s.accounted k = 1

/-- What `closed_` says, whatever the program does. -/
structure Inv (s : Descriptors) : Prop where
  owned : ∀ a k, s.owner.of a = some k →
    ∃ n, s.objs a = some n ∧ n.closed = false ∧ s.handed[k]? = some n.fd
  owner : ∀ a n, s.objs a = some n → n.closed = false → ∃ k, s.owner.of a = some k
  nonneg : ∀ fd ∈ s.handed, 0 ≤ fd
  once : ∀ k, s.accounted k ≤ if k < s.handed.length then 1 else 0

variable {s s' : Descriptors} {a : Addr} {n : Nio}

theorem Inv.init (opened : Int → Bool) : (Descriptors.init opened).Inv := by
  refine ⟨?_, ?_, ?_, ?_⟩ <;> simp [Descriptors.init, accounted]

theorem owned_init (opened : Int → Bool) : (Descriptors.init opened).Owned := by
  simp [Owned, Descriptors.init]

/-- An object owns a descriptor as long as it is not closed. -/
theorem Inv.owner_eq_none_iff (hi : s.Inv) (hn : s.objs a = some n) :
    s.owner.of a = none ↔ n.closed = true := by
  constructor
  · intro hnone
    cases hclosed : n.closed with
    | true => rfl
    | false =>
        obtain ⟨k, hk⟩ := hi.owner a n hn hclosed
        simp [hnone] at hk
  · intro hclosed
    cases hof : s.owner.of a with
    | none => rfl
    | some k =>
        obtain ⟨m, hm, hopen, -⟩ := hi.owned a k hof
        obtain rfl := Option.some.inj (hn.symm.trans hm)
        simp [hclosed] at hopen

/-- An object that is gone owns nothing. -/
theorem Inv.owner_of_dead (hi : s.Inv) (hn : s.objs a = none) : s.owner.of a = none := by
  cases hof : s.owner.of a with
  | none => rfl
  | some k =>
      obtain ⟨m, hm, -, -⟩ := hi.owned a k hof
      simp [hn] at hm

/-! ## Closing

`close` and the destructor are the only ones that call `::close`. The invariant says when such a
call is for the object's own descriptor: while `closed_` is false and it is the owner. -/

/-- What a call of `::close` by a live object does: it is the owner's, or nothing is closed, or it is
a stray one. -/
theorem Inv.sysClose_cases (hi : s.Inv) (hn : s.objs a = some n) :
    (n.closed = false ∧ ∃ k, s.owner.of a = some k ∧ s.sysClose a n.close.1 = { s with
      opened := Function.update s.opened n.fd false
      closes := Function.update s.closes k (s.closes k + 1)
      owner := s.owner.set a none }) ∨
    (n.closed = true ∧ n.fd = -1 ∧ s.sysClose a n.close.1 = s) ∨
    (n.closed = true ∧ n.fd ≠ -1 ∧ s.sysClose a n.close.1 = { s with
      opened := Function.update s.opened n.fd false, stray := true }) := by
  cases hclosed : n.closed with
  | false =>
      obtain ⟨k, hk⟩ := hi.owner a n hn hclosed
      obtain ⟨m, hm, -, hnum⟩ := hi.owned a k hk
      obtain rfl := Option.some.inj (hn.symm.trans hm)
      -- the kernel never hands out -1, so the owner's call reaches `::close`
      have hfd : n.fd ≠ -1 := by
        have := hi.nonneg n.fd (List.mem_of_getElem? hnum)
        omega
      refine .inl ⟨rfl, k, hk, ?_⟩
      simp [Nio.close, hfd, sysClose, hk, hnum]
  | true =>
      have hnone := (hi.owner_eq_none_iff hn).mpr hclosed
      by_cases hfd : n.fd = -1
      · exact .inr (.inl ⟨rfl, hfd, by simp [Nio.close, hfd, sysClose]⟩)
      · exact .inr (.inr ⟨rfl, hfd, by simp [Nio.close, hfd, sysClose, hnone]⟩)

/-- A descriptor that is closed by its owner is accounted for as before, in another way. -/
theorem accounted_release {k : Nat} (hk : s.owner.of a = some k) (opened : Int → Bool) (r : Nat) :
    accounted { s with
      opened
      closes := Function.update s.closes k (s.closes k + 1)
      owner := s.owner.set a none } r = s.accounted r := by
  have hset := s.owner.count_set a none r
  simp only [reduceCtorEq, if_false, hk, Option.some.injEq] at hset
  simp only [accounted, Function.update_apply]
  by_cases hr : r = k
  · subst hr
    simp only [if_true] at hset ⊢
    omega
  · simp only [if_neg hr, if_neg (Ne.symm hr)] at hset ⊢
    omega

theorem accounted_handOut (hnone : s.owner.of a = none) (fd : Int) (r : Nat) :
    (s.handOut a fd).accounted r = s.accounted r + if r = s.handed.length then 1 else 0 := by
  have hset := s.owner.count_set a (some s.handed.length) r
  simp only [hnone, reduceCtorEq, if_false, Option.some.injEq] at hset
  simp only [accounted, handOut, @eq_comm _ r]
  omega

/-- A move hands over what the source owns, and what the target owned is gone. -/
theorem accounted_moveNio (this other : Addr) (m n : Nio) (r : Nat) :
    (s.moveNio this other m n).accounted r + (if s.owner.of this = some r then 1 else 0) =
      s.accounted r := by
  have htransfer := s.owner.count_transfer this other r
  simp only [accounted, moveNio]
  omega

/-! ## The invariant

An object that is not closed owns the descriptor with its number. -/

theorem Inv.handOut (hi : s.Inv) (ha : s.objs a = none) {fd : Int} (hfd : 0 ≤ fd) :
    (s.handOut a fd).Inv := by
  have hnone := hi.owner_of_dead ha
  refine ⟨fun b k hb => ?_, fun b m hb hopen => ?_, ?_, fun k => ?_⟩
  · by_cases hba : b = a
    -- the new object, with the last descriptor
    · subst hba
      obtain rfl : s.handed.length = k := by simpa [Descriptors.handOut] using hb
      exact ⟨Nio.new fd, by simp [Descriptors.handOut], rfl, by simp [Descriptors.handOut, Nio.new]⟩
    · obtain ⟨m, hm, hopen, hnum⟩ := hi.owned b k (by simpa [Descriptors.handOut, hba] using hb)
      refine ⟨m, by simpa [Descriptors.handOut, hba] using hm, hopen, ?_⟩
      exact List.getElem?_append_left (List.getElem?_eq_some_iff.mp hnum).1 |>.trans hnum
  · by_cases hba : b = a
    · exact ⟨s.handed.length, by simp [Descriptors.handOut, hba]⟩
    · obtain ⟨k, hk⟩ := hi.owner b m (by simpa [Descriptors.handOut, hba] using hb) hopen
      exact ⟨k, by simpa [Descriptors.handOut, hba] using hk⟩
  · simpa [Descriptors.handOut, or_imp, forall_and] using And.intro hi.nonneg hfd
  · have honce := hi.once k
    rw [accounted_handOut hnone]
    simp only [Descriptors.handOut, List.length_append, List.length_singleton]
    split at honce <;> split <;> split <;> omega

/-- After a move the source is closed and owns nothing. -/
theorem Inv.moveNio (hi : s.Inv) {this other : Addr} (m : Nio) (hn : s.objs other = some n)
    (hne : other ≠ this) : (s.moveNio this other m n).Inv := by
  refine ⟨fun b k hb => ?_, fun b x hb hopen => ?_, hi.nonneg, fun k => ?_⟩
  · simp only [Descriptors.moveNio, Owners.of_transfer] at hb
    by_cases hbo : b = other
    · simp [hbo] at hb
    · by_cases hbt : b = this
      -- the target owns what `other` has owned
      · subst hbt
        rw [if_neg hbo, if_pos rfl] at hb
        obtain ⟨x, hx, hopen, hnum⟩ := hi.owned other k hb
        obtain rfl := Option.some.inj (hn.symm.trans hx)
        exact ⟨(m.move n).1, by simp [Descriptors.moveNio, hbo], hopen, hnum⟩
      · rw [if_neg hbo, if_neg hbt] at hb
        obtain ⟨x, hx, hopen, hnum⟩ := hi.owned b k hb
        exact ⟨x, by simpa [Descriptors.moveNio, hbo, hbt] using hx, hopen, hnum⟩
  · by_cases hbo : b = other
    · subst hbo
      obtain rfl : (m.move n).2 = x := by simpa [Descriptors.moveNio] using hb
      simp [Nio.move] at hopen
    · by_cases hbt : b = this
      · subst hbt
        obtain rfl : (m.move n).1 = x := by simpa [Descriptors.moveNio, hbo] using hb
        obtain ⟨k, hk⟩ := hi.owner other n hn hopen
        exact ⟨k, by simpa [Descriptors.moveNio, hbo] using hk⟩
      · obtain ⟨k, hk⟩ := hi.owner b x (by simpa [Descriptors.moveNio, hbo, hbt] using hb) hopen
        exact ⟨k, by simpa [Descriptors.moveNio, hbo, hbt] using hk⟩
  · have hacc := accounted_moveNio (s := s) this other m n k
    have honce := hi.once k
    show (s.moveNio this other m n).accounted k ≤ if k < s.handed.length then 1 else 0
    omega

/-- **`close`.** The object owns nothing afterwards, no descriptor is lost, and the call is a stray
one if the object is closed and still has a number. -/
structure SysClosed (s t : Descriptors) (a : Addr) (n : Nio) : Prop where
  objs : t.objs = s.objs
  handed : t.handed = s.handed
  owner_self : t.owner.of a = none
  owner_of_ne : ∀ b, b ≠ a → t.owner.of b = s.owner.of b
  accounted : ∀ k, t.accounted k = s.accounted k
  stray : t.stray = (s.stray || decide (n.closed = true ∧ n.fd ≠ -1))

theorem Inv.sysClose (hi : s.Inv) (hn : s.objs a = some n) :
    SysClosed s (s.sysClose a n.close.1) a n := by
  obtain ⟨hopen, k, hk, heq⟩ | ⟨hclosed, hfd, heq⟩ | ⟨hclosed, hfd, heq⟩ := hi.sysClose_cases hn <;>
    rw [heq]
  · refine ⟨rfl, rfl, by simp, fun b hb => by simp [hb], accounted_release hk _, ?_⟩
    simp [hopen]
  · have hnone := (hi.owner_eq_none_iff hn).mpr hclosed
    refine ⟨rfl, rfl, hnone, fun _ _ => rfl, fun _ => rfl, ?_⟩
    simp [hfd]
  · have hnone := (hi.owner_eq_none_iff hn).mpr hclosed
    refine ⟨rfl, rfl, hnone, fun _ _ => rfl, fun _ => rfl, ?_⟩
    simp [hclosed, hfd]

/-- `~nio` closes a descriptor that the object owns, and nothing else. -/
theorem Inv.sysClose_destroy (hi : s.Inv) (hn : s.objs a = some n) :
    SysClosed s (s.sysClose a n.destroy) a { n with closed := false } := by
  cases hclosed : n.closed with
  | false =>
      have hdestroy : n.destroy = n.close.1 := if_pos hclosed
      have h := hi.sysClose hn
      exact ⟨hdestroy ▸ h.objs, hdestroy ▸ h.handed, hdestroy ▸ h.owner_self,
        hdestroy ▸ h.owner_of_ne, hdestroy ▸ h.accounted, by simpa [hdestroy, hclosed] using h.stray⟩
  | true =>
      have hdestroy : n.destroy = none := if_neg (by simp [hclosed])
      have hnone := (hi.owner_eq_none_iff hn).mpr hclosed
      rw [hdestroy]
      exact ⟨rfl, rfl, hnone, fun _ _ => rfl, fun _ => rfl, by simp [Descriptors.sysClose]⟩

/-- The object is closed now, or gone. -/
theorem Inv.setObj (hi : s.Inv) {t : Descriptors} (h : SysClosed s t a n) {x : Option Nio}
    (hx : ∀ m, x = some m → m.closed = true) : (t.setObj a x).Inv := by
  have hobjs : ∀ b, b ≠ a → (t.setObj a x).objs b = s.objs b := fun b hb => by
    simp [Descriptors.setObj, hb, h.objs]
  refine ⟨fun b k hb => ?_, fun b m hb hopen => ?_, ?_, fun k => ?_⟩
  · have hne : b ≠ a := by
      rintro rfl
      exact absurd (h.owner_self.symm.trans hb) (by simp)
    obtain ⟨m, hm, hopen, hnum⟩ := hi.owned b k ((h.owner_of_ne b hne).symm.trans hb)
    exact ⟨m, (hobjs b hne).trans hm, hopen, (congrArg (·[k]?) h.handed).trans hnum⟩
  · have hne : b ≠ a := by
      rintro rfl
      have := hx m (by simpa [Descriptors.setObj] using hb)
      simp [this] at hopen
    obtain ⟨k, hk⟩ := hi.owner b m ((hobjs b hne).symm.trans hb) hopen
    exact ⟨k, (h.owner_of_ne b hne).trans hk⟩
  · exact h.handed ▸ hi.nonneg
  · show t.accounted k ≤ if k < t.handed.length then 1 else 0
    rw [h.accounted, h.handed]
    exact hi.once k

/-! ## Steps

`Stepped` is what the theorem needs of a step: the invariant, and whether every descriptor is still
closed once or owned once. -/

/-- What a step does, apart from what it does to the objects: the descriptors that are handed out,
whether a call was a stray one, and what is no longer accounted for. -/
structure Stepped (s s' : Descriptors) (op : NioOp) : Prop where
  inv : s'.Inv
  handed : s.handed.length ≤ s'.handed.length
  fresh : ∀ k, s.handed.length ≤ k → k < s'.handed.length → s'.accounted k = 1
  le : ∀ k < s.handed.length, s'.accounted k ≤ s.accounted k
  stray : s.stray = true → s'.stray = true
  proper_iff : s.stray = false →
    (s.Proper op ↔ s'.stray = false ∧ ∀ k < s.handed.length, s'.accounted k = s.accounted k)

/-- A step that is always proper, and hands nothing out. -/
theorem Stepped.of_same {op : NioOp} (hi : s'.Inv) (hhanded : s'.handed = s.handed)
    (hacc : ∀ k, s'.accounted k = s.accounted k) (hstray : s'.stray = s.stray)
    (hproper : s.Proper op) : Stepped s s' op := by
  refine ⟨hi, (congrArg List.length hhanded).ge, fun k hk hk' => ?_, fun k _ => (hacc k).le,
    hstray.trans, fun h => iff_of_true hproper ⟨hstray.trans h, fun k _ => hacc k⟩⟩
  exact absurd hk' (Nat.not_lt.mpr ((congrArg List.length hhanded).trans_le hk))

/-! ### The operations -/

theorem Inv.stepped_construct (hi : s.Inv) (ha : s.objs a = none) {fd : Int} (hfd : 0 ≤ fd) :
    Stepped s (s.handOut a fd) (.construct a fd) := by
  have hacc := accounted_handOut (hi.owner_of_dead ha) fd
  have hold : ∀ k < s.handed.length, (s.handOut a fd).accounted k = s.accounted k :=
    fun k hk => by rw [hacc, if_neg (by omega), Nat.add_zero]
  refine ⟨hi.handOut ha hfd, ?_, fun k hk hk' => ?_, fun k hk => (hold k hk).le, id, ?_⟩
  · simp [Descriptors.handOut]
  · obtain rfl : k = s.handed.length := by
      simp only [Descriptors.handOut, List.length_append, List.length_singleton] at hk'
      omega
    have honce := hi.once s.handed.length
    rw [if_neg (Nat.lt_irrefl _)] at honce
    rw [hacc, if_pos rfl]
    omega
  · exact fun hstray => iff_of_true trivial ⟨hstray, hold⟩

/-- A new object has owned nothing that could be lost. -/
theorem Inv.stepped_moveConstruct (hi : s.Inv) {this other : Addr} (hthis : s.objs this = none)
    (hother : s.objs other = some n) :
    Stepped s (s.moveNio this other (Nio.new 0) n) (.moveConstruct this other) := by
  have hne : other ≠ this := by
    rintro rfl
    simp [hthis] at hother
  refine .of_same (hi.moveNio _ hother hne) rfl (fun k => ?_) rfl trivial
  have hacc := accounted_moveNio (s := s) this other (Nio.new 0) n k
  simpa [hi.owner_of_dead hthis] using hacc

/-- A target that is not closed owns a descriptor, which has no owner after the move. -/
theorem Inv.stepped_moveAssign (hi : s.Inv) {this other : Addr} {m : Nio}
    (hthis : s.objs this = some m) (hother : s.objs other = some n) (hne : other ≠ this) :
    Stepped s (s.moveNio this other m n) (.moveAssign this other) := by
  have hacc := accounted_moveNio (s := s) this other m n
  refine ⟨hi.moveNio m hother hne, le_rfl, fun k hk hk' => absurd hk' (Nat.not_lt.mpr hk),
    fun k _ => by have := hacc k; omega, id, fun hstray => ?_⟩
  have hproper : s.Proper (.moveAssign this other) ↔ s.owner.of this = none := by
    rw [hi.owner_eq_none_iff hthis]
    simp [Proper, hne, hthis]
  rw [hproper]
  constructor
  · intro hnone
    exact ⟨hstray, fun k _ => by simpa [hnone] using hacc k⟩
  · rintro ⟨-, hold⟩
    cases hof : s.owner.of this with
    | none => rfl
    | some k =>
        obtain ⟨_, -, -, hnum⟩ := hi.owned this k hof
        have hk := hacc k
        rw [hold k (List.getElem?_eq_some_iff.mp hnum).1, if_pos hof] at hk
        omega

/-- A call of a closed object that still has a number is a stray one. -/
theorem Inv.stepped_close (hi : s.Inv) (hn : s.objs a = some n) :
    Stepped s ((s.sysClose a n.close.1).setObj a (some n.close.2)) (.close a) := by
  have hsys := hi.sysClose hn
  refine ⟨hi.setObj hsys ?_, ?_, fun k hk hk' => ?_, fun k _ => (hsys.accounted k).le, ?_,
    fun hstray => ?_⟩
  · rintro m hm
    exact Option.some.inj hm ▸ rfl
  · exact (congrArg List.length hsys.handed).ge
  · exact absurd hk' (Nat.not_lt.mpr ((congrArg List.length hsys.handed).trans_le hk))
  · intro hstray
    exact hsys.stray.trans (by simp [hstray])
  · have hproper : s.Proper (.close a) ↔ (s.sysClose a n.close.1).stray = false := by
      rw [hsys.stray, hstray]
      simp [Proper, hn, or_iff_not_imp_left]
    rw [hproper]
    exact (and_iff_left fun k _ => hsys.accounted k).symm

theorem Inv.step {op : NioOp} (hi : s.Inv) (h : s.step op = some s') : Stepped s s' op := by
  cases op with
  | construct a fd =>
      simp only [Descriptors.step] at h
      split at h
      case isFalse => cases h
      case isTrue hfresh =>
        obtain rfl := Option.some.inj h
        exact hi.stepped_construct hfresh.1 hfresh.2.1
  | moveConstruct this other =>
      simp only [Descriptors.step] at h
      split at h
      case h_2 => cases h
      case h_1 n hthis hother =>
        obtain rfl := Option.some.inj h
        exact hi.stepped_moveConstruct hthis hother
  | moveAssign this other =>
      simp only [Descriptors.step] at h
      split at h
      case h_2 => cases h
      case h_1 m n hthis hother =>
        obtain rfl := Option.some.inj h
        by_cases hne : other = this
        · rw [if_pos hne]
          -- an assignment to itself does nothing
          exact .of_same hi rfl (fun _ => rfl) rfl (.inl hne)
        · rw [if_neg hne]
          exact hi.stepped_moveAssign hthis hother hne
  | close a =>
      simp only [Descriptors.step] at h
      split at h
      case h_2 => cases h
      case h_1 n hn =>
        obtain rfl := Option.some.inj h
        exact hi.stepped_close hn
  | destroy a =>
      simp only [Descriptors.step] at h
      split at h
      case h_2 => cases h
      case h_1 n hn =>
        obtain rfl := Option.some.inj h
        -- a destroyed object has no descriptor that is open
        have hsys := hi.sysClose_destroy hn
        have hsame : (s.sysClose a n.destroy).stray = s.stray := by simpa using hsys.stray
        exact .of_same (hi.setObj hsys (by simp)) hsys.handed hsys.accounted hsame trivial

variable {op : NioOp}

/-- Which steps leave every descriptor closed once or with one owner. -/
theorem Stepped.proper_iff_owned (h : Stepped s s' op) (ho : s.Owned) : s.Proper op ↔ s'.Owned := by
  rw [h.proper_iff ho.1]
  refine and_congr_right fun _ => ⟨fun hsame k hk => ?_, fun hone k hk => ?_⟩
  · rcases Nat.lt_or_ge k s.handed.length with hold | hnew
    · rw [hsame k hold, ho.2 k hold]
    · exact h.fresh k hnew hk
  · rw [ho.2 k hk, hone k (Nat.lt_of_lt_of_le hk h.handed)]

/-- What is lost stays lost. -/
theorem Stepped.owned_of_owned (hi : s.Inv) (h : Stepped s s' op) (ho : s'.Owned) : s.Owned := by
  constructor
  · cases hstray : s.stray with
    | false => rfl
    | true => exact absurd ((h.stray hstray).symm.trans ho.1) (by decide)
  · intro k hk
    have hle := h.le k hk
    have honce := hi.once k
    rw [ho.2 k (Nat.lt_of_lt_of_le hk h.handed)] at hle
    rw [if_pos hk] at honce
    exact Nat.le_antisymm honce hle

/-! ### The theorem -/

/-- **Ownership of descriptors.** The steps are as `Proper` says if and only if no object closes what
it does not own, and each descriptor has been closed once, by its owner, or has one owner. Once all
objects are gone, each descriptor has been closed exactly once. -/
theorem ownership_iff (opened : Int → Bool) (ops : List NioOp) (s : Descriptors)
    (hrun : run step (init opened) ops = some s) :
    (AllSteps step Proper (init opened) ops ↔
      s.stray = false ∧ ∀ k < s.handed.length, s.closes k + s.owner.count k = 1) ∧
    ((∀ a, s.objs a = none) → (AllSteps step Proper (init opened) ops ↔
      s.stray = false ∧ ∀ k < s.handed.length, s.closes k = 1)) := by
  have hinv : ∀ s op s', Inv s → step s op = some s' → Inv s' :=
    fun _ _ _ hi hstep => (hi.step hstep).inv
  have hiff : AllSteps step Proper (init opened) ops ↔ s.Owned :=
    allSteps_iff_last hinv (fun _ _ _ hi ho hstep => (hi.step hstep).proper_iff_owned ho)
      (fun _ _ _ hi hstep ho => (hi.step hstep).owned_of_owned hi ho) (Inv.init opened)
      (owned_init opened) hrun
  refine ⟨hiff, fun hgone => hiff.trans (and_congr_right fun _ => ?_)⟩
  -- without objects there are no owners
  have hi : s.Inv := run_inv step (fun _ _ => True) Inv (fun _ _ _ hi _ => hinv _ _ _ hi)
    (Inv.init opened) (allSteps_true ..) hrun
  have hnone : ∀ k, s.owner.count k = 0 := fun k =>
    (s.owner.count_eq_zero_iff k).mpr fun a => by simp [hi.owner_of_dead (hgone a)]
  simp [accounted, hnone]

/-- An object takes over a descriptor after its own is closed, and the kernel hands out that number
again. -/
def handedOver : List NioOp :=
  [.construct 0 5, .construct 1 6, .close 0, .moveAssign 0 1, .construct 2 5, .destroy 0, .destroy 1,
    .destroy 2]

/-- All three descriptors are closed once. -/
theorem ownership_iff_handedOver : ∃ s, run step (init fun _ => false) handedOver = some s ∧
    s.stray = false ∧ ∀ k < s.handed.length, s.closes k = 1 := by
  have hok : AllSteps step Proper (init fun _ => false) handedOver := by decide +kernel
  obtain ⟨s, hs⟩ := Option.isSome_iff_exists.mp
    (show (run step (init fun _ => false) handedOver).isSome = true by decide +kernel)
  refine ⟨s, hs, ((ownership_iff _ _ s hs).2 fun a => ?_).mp hok⟩
  have hobjs : (run step (init fun _ => false) handedOver).map (fun s => s.objs a) = some none := by
    match a with
    | 0 | 1 | 2 | a + 3 => rfl
  simpa [hs] using hobjs

/-- An object is closed a second time, when its number belongs to another one. -/
theorem closed_again :
    ¬ ∀ (opened : Int → Bool) (ops : List NioOp) (s : Descriptors),
      run step (init opened) ops = some s →
        s.stray = false ∧ ((∀ a, s.objs a = none) → ∀ k < s.handed.length, s.closes k = 1) := by
  intro h
  have hstray : (run step (init fun _ => false)
      [.construct 0 5, .close 0, .construct 1 5, .close 0]).map Descriptors.stray = some true := by
    decide +kernel
  obtain ⟨s, hs, hyes⟩ := Option.map_eq_some_iff.mp hstray
  exact absurd ((h _ _ s hs).1.symm.trans hyes) (by decide)

end Descriptors

end Cppev
