import Cppev.Lib.Ownership
import Cppev.Reactor.Basic

/-!
# Moving I/O objects

The move constructors and move assignments of `nstream`, `nsocktcp` and `nsockudp`. The state of an
object is spread over the virtual base `nio` and the classes over it; each class has its own `move`,
and a flag tells whether the base is moved, too.

`nio::move` fills `wbuffer_` from the read buffer of the other object, which has been moved from just
before.

* `Nio.kept_move_iff`: what that leaves of the state of a `nio`.
* `moves_iff`: the same on each of the six paths.
-/

namespace Cppev

/-! ## Buffers

A buffer has a block or has been moved from, and then there is nothing to read. -/

namespace Buffer

/-- The defaulted move operations of `buffer`: what the target becomes, and what is left of `other`.
The `int` members are copied, the heap block changes hands. -/
def move (other : Buffer) : Buffer × Buffer := (other, { other with buffer := [] })

/-- The bytes from `start` to `offset`, if the heap block has them. -/
def bytes (b : Buffer) : Option (List Byte) :=
  if b.size ≤ 0 then some []
  else if 0 ≤ b.start ∧ b.offset ≤ b.buffer.length then some b.unread
  else none

theorem Wf.bytes {b : Buffer} (h : b.Wf) : b.bytes = some b.unread := by
  unfold Buffer.bytes
  split
  case isTrue hle =>
    have hsize : b.size = 0 := Int.le_antisymm hle (size_nonneg h)
    rw [(unread_eq_nil_iff h).mpr hsize]
  case isFalse =>
    have := h.offset_le
    have := h.length_eq
    rw [if_pos ⟨h.start_nonneg, by omega⟩]

/-- A buffer without a heap block. -/
theorem bytes_left (b : Buffer) : b.move.2.bytes = if b.size ≤ 0 then some [] else none := by
  by_cases hle : b.size ≤ 0
  · exact (if_pos hle).trans (if_pos hle).symm
  · have hnone : ¬ (0 ≤ b.start ∧ b.offset ≤ (([] : List Byte).length : Int)) := by
      simp only [size, List.length_nil] at hle ⊢
      omega
    exact (if_neg hle).trans ((if_neg hnone).trans (if_neg hle).symm)

end Buffer

/-! ## The classes

The virtual base is a part of every object, once. Which `move` of the bases a class calls, and in
which order, is as in the headers. -/

/-- `class nsock`. -/
structure Nsock extends Nio where
  family : Family
  peer : String × Int
  deriving DecidableEq, Repr

/-- `class nsockudp`, which adds no member. -/
abbrev Nsockudp := Nsock

/-- The `nsock` in a `nsocktcp`. -/
def Nsocktcp.toNsock (s : Nsocktcp) : Nsock := { s.toNio with family := s.family, peer := s.peer }

/-- A move of a part of `this` and `other`. -/
def movePart {T P : Type} (part : T → P) (put : T → P → T) (move : P → P → P × P) (this other : T) :
    T × T :=
  let (mine, left) := move (part this) (part other)
  (put this mine, put other left)

/-- `nio::move`. -/
def Nio.move (this other : Nio) : Nio × Nio :=
  let this := { this with fd := other.fd, closed := other.closed }
  let (rbuffer, left) := other.rbuffer.move
  let this := { this with rbuffer }
  let other := { other with rbuffer := left }
  -- `other.rbuffer_` again, not `other.wbuffer_`
  let (wbuffer, left) := other.rbuffer.move
  let this := { this with wbuffer }
  let other := { other with rbuffer := left }
  let this := { this with evlp := other.evlp }
  (this, { other with fd := -1, closed := true, evlp := none })

namespace Nstream

def moveNio : Nstream → Nstream → Nstream × Nstream :=
  movePart toNio (fun s nio => { s with toNio := nio }) Nio.move

/-- `nstream::move`. -/
def move (moveBase : Bool) (this other : Nstream) : Nstream × Nstream :=
  let (this, other) := if moveBase = true then moveNio this other else (this, other)
  ({ this with reset := other.reset, eof := other.eof, eop := other.eop }, other)

/-- `nstream(nstream &&other)`. -/
def moveConstruct (this other : Nstream) : Nstream × Nstream :=
  let (this, other) := moveNio this other
  move false this other

end Nstream

namespace Nsock

def moveNio : Nsock → Nsock → Nsock × Nsock :=
  movePart toNio (fun s nio => { s with toNio := nio }) Nio.move

/-- `nsock::move`. -/
def move (moveBase : Bool) (this other : Nsock) : Nsock × Nsock :=
  let (this, other) := if moveBase = true then moveNio this other else (this, other)
  ({ this with family := other.family, peer := other.peer }, other)

end Nsock

namespace Nsocktcp

def moveNio : Nsocktcp → Nsocktcp → Nsocktcp × Nsocktcp :=
  movePart (fun s => s.toNio) (fun s nio => { s with toNio := nio }) Nio.move

/-- The move of the `nsock`, without its base. -/
def moveNsock : Nsocktcp → Nsocktcp → Nsocktcp × Nsocktcp :=
  movePart toNsock
    (fun s nsock => { s with toNio := nsock.toNio, family := nsock.family, peer := nsock.peer })
    (Nsock.move false)

/-- The move of the `nstream`, without its base. -/
def moveNstream : Nsocktcp → Nsocktcp → Nsocktcp × Nsocktcp :=
  movePart toNstream (fun s nstream => { s with toNstream := nstream }) (Nstream.move false)

/-- `nsocktcp::move`. -/
def move (moveBase : Bool) (this other : Nsocktcp) : Nsocktcp × Nsocktcp :=
  if moveBase = true then
    let (this, other) := moveNio this other
    let (this, other) := moveNsock this other
    moveNstream this other
  else (this, other)

/-- `nsocktcp(nsocktcp &&other)`: the virtual base first, and then the two others, which leave it
alone. -/
def moveConstruct (this other : Nsocktcp) : Nsocktcp × Nsocktcp :=
  let (this, other) := moveNio this other
  let (this, other) := moveNsock this other
  let (this, other) := moveNstream this other
  move false this other

end Nsocktcp

namespace Nsockudp

/-- `nsockudp::move`. -/
def move (moveBase : Bool) (this other : Nsockudp) : Nsockudp × Nsockudp :=
  if moveBase = true then Nsock.move true this other else (this, other)

/-- `nsockudp(nsockudp &&other)`. -/
def moveConstruct (this other : Nsockudp) : Nsockudp × Nsockudp :=
  let (this, other) := Nsock.moveNio this other
  let (this, other) := Nsock.move false this other
  move false this other

end Nsockudp

/-! ## Objects in memory

The six paths, as functions of the two objects. -/

/-- The check of every move operation, `&other == this`. In a constructor, `this` is memory with
whatever is in it. -/
def moveTo {T : Type} (move : T → T → T × T) (objs : Addr → T) (this other : Addr) : Addr → T :=
  if other = this then objs
  else
    let (mine, left) := move (objs this) (objs other)
    Function.update (Function.update objs this mine) other left

/-- A class with a `nio`, and its two move operations. -/
structure IoClass (T R : Type) where
  nio : T → Nio
  /-- The members that the class and its bases other than `nio` have. -/
  rest : T → R
  moveConstruct : T → T → T × T
  moveAssign : T → T → T × T

def nstream : IoClass Nstream (Bool × Bool × Bool) where
  nio := fun s => s.toNio
  rest := fun s => (s.reset, s.eof, s.eop)
  moveConstruct := Nstream.moveConstruct
  moveAssign := Nstream.move true

def nsocktcp : IoClass Nsocktcp ((Bool × Bool × Bool) × Family × String × Int) where
  nio := fun s => s.toNio
  rest := fun s => ((s.reset, s.eof, s.eop), s.family, s.peer)
  moveConstruct := Nsocktcp.moveConstruct
  moveAssign := Nsocktcp.move true

def nsockudp : IoClass Nsockudp (Family × String × Int) where
  nio := fun s => s.toNio
  rest := fun s => (s.family, s.peer)
  moveConstruct := Nsockudp.moveConstruct
  moveAssign := Nsockudp.move true

/-! ## What is kept

A path keeps the connection if the target has all of it afterwards. What decides is the base: its
`move` takes the other's `rbuffer_` for both. -/

/-- The state of a `nio` has been handed over. -/
structure Nio.Kept (old new : Nio) : Prop where
  fd : new.fd = old.fd
  closed : new.closed = old.closed
  evlp : new.evlp = old.evlp
  unread : ∀ bs, old.rbuffer.bytes = some bs → new.rbuffer.bytes = some bs
  unsent : ∀ bs, old.wbuffer.bytes = some bs → new.wbuffer.bytes = some bs

/-- There is nothing unread and nothing unsent, or the write buffer has lost its heap block. -/
def Nio.Idle (n : Nio) : Prop :=
  (n.rbuffer.size ≤ 0 ∧ n.wbuffer.size ≤ 0) ∨ n.wbuffer.bytes = none

/-- The whole state is at `this` now, and the object at `other` has no descriptor. -/
def IoClass.Moved {T R : Type} (c : IoClass T R) (this other : Addr) (objs objs' : Addr → T) :
    Prop :=
  (c.nio (objs other)).Kept (c.nio (objs' this)) ∧ c.rest (objs' this) = c.rest (objs other) ∧
    (c.nio (objs' other)).fd = -1 ∧ (c.nio (objs' other)).closed = true

theorem Buffer.bytes_eq_some_nil_iff (b : Buffer) : b.bytes = some [] ↔ b.size ≤ 0 := by
  unfold Buffer.bytes
  split
  case isTrue hle => exact iff_of_true rfl hle
  case isFalse hpos =>
    refine iff_of_false (fun h => ?_) hpos
    split at h
    case isTrue =>
      have hlen : (b.unread.length : Int) = b.size := by
        simp only [unread, length_slice]
        omega
      simp [Option.some.inj h] at hlen
      omega
    case isFalse => cases h

theorem Nio.kept_move_iff (this other : Nio) :
    other.Kept (this.move other).1 ↔ other.Idle := by
  have hw : (this.move other).1.wbuffer = other.rbuffer.move.2 := rfl
  have hkept : other.Kept (this.move other).1 ↔
      ∀ bs, other.wbuffer.bytes = some bs → other.rbuffer.move.2.bytes = some bs :=
    ⟨fun h => hw ▸ h.unsent, fun h => ⟨rfl, rfl, rfl, fun _ hbs => hbs, hw ▸ h⟩⟩
  rw [hkept, Buffer.bytes_left, Idle, ← Buffer.bytes_eq_some_nil_iff other.wbuffer]
  -- without bytes in `wbuffer_` to be kept, any buffer will do; else only an empty one without block
  cases hbytes : other.wbuffer.bytes with
  | none => simp
  | some ws =>
      by_cases hr : other.rbuffer.size ≤ 0
      · simp [hr, eq_comm]
      · simp [hr]

variable {T R : Type} {c : IoClass T R}

/-- A move that moves the `nio`, once, and copies the rest. -/
theorem IoClass.moved_iff {move : T → T → T × T} {objs : Addr → T} {this other : Addr}
    (hne : this ≠ other)
    (hnio : c.nio (move (objs this) (objs other)).1 =
      ((c.nio (objs this)).move (c.nio (objs other))).1)
    (hleft : c.nio (move (objs this) (objs other)).2 =
      ((c.nio (objs this)).move (c.nio (objs other))).2)
    (hrest : c.rest (move (objs this) (objs other)).1 = c.rest (objs other)) :
    c.Moved this other objs (moveTo move objs this other) ↔ (c.nio (objs other)).Idle := by
  have hthis : moveTo move objs this other this = (move (objs this) (objs other)).1 := by
    simp [moveTo, hne, hne.symm]
  have hother : moveTo move objs this other other = (move (objs this) (objs other)).2 := by
    simp [moveTo, hne.symm]
  rw [Moved, hthis, hother, hnio, hleft, Nio.kept_move_iff]
  exact and_iff_left ⟨hrest, rfl, rfl⟩

/-- Both moves of the class hand over the state of an idle object, and of no other. -/
def IoClass.MovesIdle (c : IoClass T R) (this other : Addr) : Prop :=
  ∀ objs : Addr → T,
    (c.Moved this other objs (moveTo c.moveConstruct objs this other) ↔
      (c.nio (objs other)).Idle) ∧
    (c.Moved this other objs (moveTo c.moveAssign objs this other) ↔
      (c.nio (objs other)).Idle)

/-- **The six paths.** -/
theorem moves_iff (this other : Addr) (hne : this ≠ other) :
    nstream.MovesIdle this other ∧ nsocktcp.MovesIdle this other ∧
      nsockudp.MovesIdle this other := by
  refine ⟨fun objs => ⟨?_, ?_⟩, fun objs => ⟨?_, ?_⟩, fun objs => ⟨?_, ?_⟩⟩
  -- on each path, `nio::move` runs once, and the other members are copied
  all_goals exact IoClass.moved_iff hne rfl rfl rfl

/-- A connection before its first byte is moved to another object. -/
theorem moves_iff_new :
    let objs := fun fd : Addr => (⟨Nstream.new fd, .ipv4, "", 0⟩ : Nsocktcp)
    (1 : Addr) ≠ 2 ∧ nsocktcp.Moved 1 2 objs (moveTo nsocktcp.moveAssign objs 1 2) := by
  refine ⟨by decide, ((moves_iff 1 2 (by decide)).2.1 _).2.mpr (.inl ?_)⟩
  decide

/-- One with a byte to be sent. -/
theorem unsent_lost :
    ¬ ∀ (objs : Addr → Nsocktcp) (this other : Addr), this ≠ other →
      nsocktcp.Moved this other objs (moveTo nsocktcp.moveAssign objs this other) := by
  intro h
  let conn : Nsocktcp := { Nstream.new 5 with
    wbuffer := Buffer.empty.putString [97], family := .ipv4, peer := ("", 0) }
  let objs : Addr → Nsocktcp := fun a => if a = 2 then conn else ⟨Nstream.new 6, .ipv4, "", 0⟩
  have hkept := (h objs 1 2 (by decide)).1
  exact absurd (hkept.unsent [97] (by decide)) (by decide)

end Cppev
