import Mathlib.Data.List.FinRange
import Mathlib.Data.Fintype.Basic

/-!
# The constructor of the thread pool

`thread_pool(thr_num, args...)` forwards the same pack once for each of its threads. What a pack
loses on the way depends on the types: an argument that arrives as an rvalue is moved into a
parameter that is passed by value, and is left to be moved from by one of type `T &&`.

* `construct_iff`: the objects get the values of the caller exactly if nothing but empty strings is
  moved, or there is only one object, and then nothing that is moved into a parameter is passed
  twice.
-/

namespace Cppev

/-! ## Values and types -/

/-- An argument, as far as moving goes: pointers and numbers are copied. -/
inductive ArgValue where
  | string (s : String)
  | scalar (n : Int)
  deriving DecidableEq, Repr

/-- What is left when it has been moved from. -/
def ArgValue.moved : ArgValue → ArgValue
  | .string _ => .string ""
  | .scalar n => .scalar n

@[simp] theorem ArgValue.moved_moved (v : ArgValue) : v.moved.moved = v.moved := by
  cases v <;> rfl

/-- How an argument arrives. -/
inductive ValueCategory where
  | lvalue | constLvalue | xvalue | constXvalue
  deriving DecidableEq, Repr

/-- One of `Args`: `T`, `const T`, `T &`, `const T &`, `T &&`, `const T &&`. -/
inductive ArgType where
  | plain | constPlain | lref | constLref | rref | constRref
  deriving DecidableEq, Repr

/-- What `std::forward<Args>(args)` is. -/
def ArgType.forward : ArgType → ValueCategory
  | .plain | .rref => .xvalue
  | .constPlain | .constRref => .constXvalue
  | .lref => .lvalue
  | .constLref => .constLvalue

/-- A parameter of the constructor of `Runnable`. -/
inductive ParamType where
  | value | lref | constLref | rref | constRref
  deriving DecidableEq, Repr

/-- Whether the parameter can be initialised, as `is_constructible` asks. -/
def ParamType.accepts : ParamType → ValueCategory → Bool
  | .value, _ | .constLref, _ => true
  | .lref, c => c = .lvalue
  | .rref, c => c = .xvalue
  | .constRref, c => c = .xvalue || c = .constXvalue

/-- An argument, with the parameter it is for. Arguments may refer to one object. -/
structure Arg where
  type : ArgType
  param : ParamType
  object : Nat
  accepted : param.accepts type.forward = true

namespace Arg

/-- The parameter is made from the argument by a move. -/
def MovedIn (a : Arg) : Prop := a.param = .value ∧ a.type.forward = .xvalue

/-- The constructor moves from the argument. -/
def MovedFrom (a : Arg) : Prop := a.param = .rref

instance (a : Arg) : Decidable a.MovedIn := inferInstanceAs (Decidable (_ ∧ _))
instance (a : Arg) : Decidable a.MovedFrom := inferInstanceAs (Decidable (_ = _))

end Arg

namespace ThreadPool

variable {k : Nat}

/-! ### The constructor calls -/

/-- The parameters that are passed by value, and all objects. -/
structure Params (k : Nat) where
  copies : Fin k → ArgValue
  objects : Nat → ArgValue

/-- Initialises parameter `i`. -/
def initParam (pack : Fin k → Arg) (p : Params k) (i : Fin k) : Params k :=
  let arg := pack i
  { copies :=
      if arg.param = .value then Function.update p.copies i (p.objects arg.object) else p.copies
    objects :=
      if arg.MovedIn then Function.update p.objects arg.object (p.objects arg.object).moved
      else p.objects }

/-- What the constructor sees in parameter `i`. -/
def received (pack : Fin k → Arg) (p : Params k) (i : Fin k) : ArgValue :=
  if (pack i).param = .value then p.copies i else p.objects (pack i).object

/-- What the constructor leaves. -/
def left (pack : Fin k → Arg) (p : Params k) (o : Nat) : ArgValue :=
  if ∃ i, (pack i).MovedFrom ∧ (pack i).object = o then (p.objects o).moved else p.objects o

/-- All parameters, in the order `order`. -/
def initParams (pack : Fin k → Arg) (order : List (Fin k)) (objects : Nat → ArgValue) : Params k :=
  order.foldl (initParam pack) ⟨fun _ => .scalar 0, objects⟩

/-- The constructor of `thread_pool`. For each thread there is the order in which the compiler has
the parameters initialised; the result is what each object has received. -/
def construct (pack : Fin k → Arg) :
    List (List (Fin k)) → (Nat → ArgValue) → List (Fin k → ArgValue)
  | [], _ => []
  | order :: orders, objects =>
    let p := initParams pack order objects
    received pack p :: construct pack orders (left pack p)

/-- Each parameter is initialised once. -/
def IsOrder (order : List (Fin k)) : Prop := order.Nodup ∧ ∀ i, i ∈ order

/-- What the caller has passed. -/
def passed (pack : Fin k → Arg) (objects : Nat → ArgValue) (i : Fin k) : ArgValue :=
  objects (pack i).object

/-- An argument that is moved, and is no empty string, goes to one object only; if it is moved into
a parameter, no other argument refers to it. -/
def Intact (pack : Fin k → Arg) (objects : Nat → ArgValue) (n : Nat) : Prop :=
  ∀ i, (passed pack objects i).moved ≠ passed pack objects i →
    ((pack i).MovedIn → n = 1 ∧ ∀ j, j ≠ i → (pack j).object ≠ (pack i).object) ∧
      ((pack i).MovedFrom → n = 1)

variable {pack : Fin k → Arg} {p : Params k} {i j : Fin k} {o : Nat}

/-! ## One parameter

A parameter is initialised from its argument; a move changes the object that the argument names. -/

/-- An object is left alone, unless it is moved into the parameter. -/
theorem objects_initParam (h : (pack i).MovedIn → (pack i).object ≠ o) :
    (initParam pack p i).objects o = p.objects o := by
  unfold initParam
  by_cases hm : (pack i).MovedIn
  · simp only [hm, if_true]
    exact Function.update_of_ne (h hm).symm _ _
  · simp only [hm, if_false]

/-- The object of a parameter that is moved in. -/
theorem objects_initParam_self (h : (pack i).MovedIn) :
    (initParam pack p i).objects (pack i).object = (p.objects (pack i).object).moved := by
  simp [initParam, h]

/-- The parameter gets what the object was. -/
theorem copies_initParam_self (h : (pack i).param = .value) :
    (initParam pack p i).copies i = p.objects (pack i).object := by
  simp [initParam, h]

theorem copies_initParam_of_ne (h : j ≠ i) : (initParam pack p i).copies j = p.copies j := by
  unfold initParam
  by_cases hv : (pack i).param = .value
  · simp only [hv, if_true]
    exact Function.update_of_ne h _ _
  · simp only [hv, if_false]

/-- Whatever is moved, an object is as it was, or has been moved from. -/
theorem objects_initParam_or (pack : Fin k → Arg) (p : Params k) (i : Fin k) (o : Nat) :
    (initParam pack p i).objects o = p.objects o ∨
      (initParam pack p i).objects o = (p.objects o).moved := by
  by_cases h : (pack i).MovedIn ∧ (pack i).object = o
  · obtain ⟨hm, rfl⟩ := h
    exact .inr (objects_initParam_self hm)
  · exact .inl (objects_initParam fun hm ho => h ⟨hm, ho⟩)

/-! ## All parameters

In any order. Whether a parameter sees the object as it was depends on the parameters that are
initialised before it. -/

/-- An object that no move changes. -/
theorem objects_foldl_of_moved (pack : Fin k → Arg) (order : List (Fin k)) {p : Params k} {o : Nat}
    (h : (p.objects o).moved = p.objects o) :
    (order.foldl (initParam pack) p).objects o = p.objects o := by
  induction order generalizing p with
  | nil => rfl
  | cons i order ih =>
      have hstep : (initParam pack p i).objects o = p.objects o := by
        rcases objects_initParam_or pack p i o with hs | hs
        · exact hs
        · exact hs.trans h
      rw [List.foldl_cons, ih (by rw [hstep, h]), hstep]

/-- An object that is not moved. -/
theorem objects_foldl_of_not_moved {order : List (Fin k)}
    (h : ∀ i ∈ order, (pack i).MovedIn → (pack i).object ≠ o) :
    (order.foldl (initParam pack) p).objects o = p.objects o := by
  induction order generalizing p with
  | nil => rfl
  | cons i order ih =>
      obtain ⟨hi, horder⟩ := List.forall_mem_cons.mp h
      rw [List.foldl_cons, ih horder, objects_initParam hi]

/-- An object is as it was, or has been moved from. -/
theorem objects_foldl_or (pack : Fin k → Arg) (order : List (Fin k)) (p : Params k) (o : Nat) :
    (order.foldl (initParam pack) p).objects o = p.objects o ∨
      (order.foldl (initParam pack) p).objects o = (p.objects o).moved := by
  induction order generalizing p with
  | nil => exact .inl rfl
  | cons i order ih =>
      rcases objects_initParam_or pack p i o with hs | hs
      · rw [← hs]
        exact ih _
      · have hfix := objects_foldl_of_moved pack order (p := initParam pack p i) (o := o)
          (by rw [hs, ArgValue.moved_moved])
        exact .inr (hfix.trans hs)

/-- Some parameter has been made from it. -/
theorem objects_foldl_movedIn {order : List (Fin k)} (hi : i ∈ order) (hm : (pack i).MovedIn) :
    (order.foldl (initParam pack) p).objects (pack i).object =
      (p.objects (pack i).object).moved := by
  obtain ⟨front, rest, rfl⟩ := List.append_of_mem hi
  rw [List.foldl_append, List.foldl_cons]
  have hself := objects_initParam_self (p := front.foldl (initParam pack) p) hm
  have hmoved : ((front.foldl (initParam pack) p).objects (pack i).object).moved =
      (p.objects (pack i).object).moved := by
    rcases objects_foldl_or pack front p (pack i).object with h | h <;> rw [h]
    exact ArgValue.moved_moved _
  rw [hmoved] at hself
  rw [objects_foldl_of_moved pack rest (by rw [hself, ArgValue.moved_moved]), hself]

/-- A parameter that is not initialised yet. -/
theorem copies_foldl_of_not_mem {order : List (Fin k)} (h : i ∉ order) :
    (order.foldl (initParam pack) p).copies i = p.copies i := by
  induction order generalizing p with
  | nil => rfl
  | cons j order ih =>
      obtain ⟨hj, horder⟩ := List.ne_and_not_mem_of_not_mem_cons h
      rw [List.foldl_cons, ih horder, copies_initParam_of_ne hj]

/-- The constructor sees the object as it was, if moves do not change it, or no other parameter is
made by moving it. -/
theorem received_foldl {order : List (Fin k)} (hn : order.Nodup) (hi : i ∈ order)
    (h : (p.objects (pack i).object).moved = p.objects (pack i).object ∨
      ∀ j, j ≠ i → (pack j).MovedIn → (pack j).object ≠ (pack i).object) :
    received pack (order.foldl (initParam pack) p) i = p.objects (pack i).object := by
  have hkeep : ∀ l : List (Fin k), (∀ j ∈ l, (pack j).MovedIn → j ≠ i) →
      (l.foldl (initParam pack) p).objects (pack i).object = p.objects (pack i).object := by
    intro l hl
    rcases h with h | h
    · exact objects_foldl_of_moved pack l h
    · exact objects_foldl_of_not_moved fun j hj hm => h j (hl j hj hm) hm
  unfold received
  by_cases hv : (pack i).param = .value
  · -- it is read in its turn
    rw [if_pos hv]
    obtain ⟨front, rest, rfl⟩ := List.append_of_mem hi
    obtain ⟨-, hrest, hdisjoint⟩ := List.nodup_append.mp hn
    rw [List.foldl_append, List.foldl_cons, copies_foldl_of_not_mem (List.nodup_cons.mp hrest).1,
      copies_initParam_self hv]
    exact hkeep front fun j hj _ => hdisjoint j hj i List.mem_cons_self
  · -- it is read at the end
    rw [if_neg hv]
    refine hkeep order fun j _ hm => ?_
    rintro rfl
    exact hv hm.1

/-! ## One object after the other

The next object of the pool gets what the first one has left. Everything is as the caller had it, or
some move has a value to take away. -/

variable {objects : Nat → ArgValue} {order : List (Fin k)}

/-- What an object of the pool leaves of an argument that is moved. -/
theorem left_of_moves (ho : IsOrder order) (h : (pack i).MovedIn ∨ (pack i).MovedFrom) :
    left pack (initParams pack order objects) (pack i).object = (passed pack objects i).moved := by
  unfold left
  rcases h with h | h
  · have hmoved := objects_foldl_movedIn (p := ⟨fun _ => .scalar 0, objects⟩) (ho.2 i) h
    split
    · exact (congrArg ArgValue.moved hmoved).trans (ArgValue.moved_moved _)
    · exact hmoved
  · rw [if_pos ⟨i, h, rfl⟩]
    rcases objects_foldl_or pack order ⟨fun _ => .scalar 0, objects⟩ (pack i).object with hs | hs
    · exact congrArg ArgValue.moved hs
    · exact (congrArg ArgValue.moved hs).trans (ArgValue.moved_moved _)

/-- Where all that is moved is empty, nothing changes. -/
theorem left_of_empty (pack : Fin k → Arg) (order : List (Fin k))
    (h : ∀ i, (pack i).MovedIn ∨ (pack i).MovedFrom →
      (passed pack objects i).moved = passed pack objects i) :
    left pack (initParams pack order objects) = objects := by
  funext o
  have hsame : (initParams pack order objects).objects o = objects o := by
    by_cases hm : ∃ i, (pack i).MovedIn ∧ (pack i).object = o
    · obtain ⟨i, hi, rfl⟩ := hm
      exact objects_foldl_of_moved pack order (h i (.inl hi))
    · exact objects_foldl_of_not_moved fun i _ hi ho => hm ⟨i, hi, ho⟩
  unfold left
  split
  case isTrue hf =>
    obtain ⟨i, hi, rfl⟩ := hf
    rw [hsame]
    exact h i (.inr hi)
  case isFalse => exact hsame

/-- An object gets what its arguments are at the time. -/
theorem received_initParams (ho : IsOrder order)
    (h : (passed pack objects i).moved = passed pack objects i ∨
      ∀ j, j ≠ i → (pack j).MovedIn → (pack j).object ≠ (pack i).object) :
    received pack (initParams pack order objects) i = passed pack objects i :=
  received_foldl ho.1 (ho.2 i) h

/-- Nothing is lost where there is nothing to move. -/
theorem construct_of_empty {orders : List (List (Fin k))} (ho : ∀ order ∈ orders, IsOrder order)
    (h : ∀ i, (pack i).MovedIn ∨ (pack i).MovedFrom →
      (passed pack objects i).moved = passed pack objects i) :
    construct pack orders objects = List.replicate orders.length (passed pack objects) := by
  induction orders with
  | nil => rfl
  | cons order orders ih =>
      obtain ⟨horder, horders⟩ := List.forall_mem_cons.mp ho
      have hhead : received pack (initParams pack order objects) = passed pack objects := by
        funext i
        refine received_initParams horder ?_
        by_cases hother : ∃ j, (pack j).MovedIn ∧ (pack j).object = (pack i).object
        · obtain ⟨j, hj, hobject⟩ := hother
          have hempty := h j (.inl hj)
          rw [passed, hobject] at hempty
          exact .inl hempty
        · exact .inr fun j _ hj hobject => hother ⟨j, hj, hobject⟩
      show received pack _ :: construct pack orders _ = _
      rw [hhead, left_of_empty pack order h, ih horders]
      rfl

theorem construct_of_intact {orders : List (List (Fin k))} (ho : ∀ order ∈ orders, IsOrder order)
    (h : Intact pack objects orders.length) :
    construct pack orders objects = List.replicate orders.length (passed pack objects) := by
  by_cases hone : orders.length = 1
  · obtain ⟨order, rfl⟩ := List.length_eq_one_iff.mp hone
    have horder := ho order List.mem_cons_self
    show [received pack (initParams pack order objects)] = [passed pack objects]
    refine congrArg (fun r => [r]) (funext fun i => received_initParams horder ?_)
    -- an object that two arguments refer to is not moved into a parameter
    by_contra hc
    obtain ⟨hmoved, hother⟩ := not_or.mp hc
    push Not at hother
    obtain ⟨j, hj, hm, hobject⟩ := hother
    have hmoved' : (passed pack objects j).moved ≠ passed pack objects j := by
      rwa [passed, hobject]
    exact ((h j hmoved').1 hm).2 i hj.symm hobject.symm
  · refine construct_of_empty ho fun i hm => ?_
    by_contra hmoved
    rcases hm with hm | hm
    · exact hone ((h i hmoved).1 hm).1
    · exact hone ((h i hmoved).2 hm)

theorem isOrder_finRange (k : Nat) : IsOrder (List.finRange k) :=
  ⟨List.nodup_finRange k, List.mem_finRange⟩

/-- `i` first. -/
theorem isOrder_cons (i : Fin k) : IsOrder (i :: (List.finRange k).erase i) := by
  refine ⟨List.nodup_cons.mpr ⟨?_, (List.nodup_finRange k).erase i⟩, fun j => ?_⟩
  · exact (List.nodup_finRange k).not_mem_erase
  · by_cases h : j = i
    · exact h ▸ List.mem_cons_self
    · exact List.mem_cons_of_mem _ ((List.mem_erase_of_ne h).mpr (List.mem_finRange j))

/-- The second object does not get what was moved for the first one. -/
theorem length_eq_one_of_moves {n : Nat} (hn : 1 ≤ n)
    (h : ∀ orders : List (List (Fin k)), orders.length = n → (∀ order ∈ orders, IsOrder order) →
      construct pack orders objects = List.replicate n (passed pack objects))
    (hmoved : (passed pack objects i).moved ≠ passed pack objects i)
    (hm : (pack i).MovedIn ∨ (pack i).MovedFrom) : n = 1 := by
  by_contra hne
  obtain ⟨m, rfl⟩ : ∃ m, n = m + 2 := ⟨n - 2, by omega⟩
  have horder := isOrder_finRange k
  have hall := h (List.replicate (m + 2) (List.finRange k)) List.length_replicate
    fun order hmem => List.eq_of_mem_replicate hmem ▸ horder
  have hsecond := (List.cons.inj (List.cons.inj hall).2).1
  have hleft : passed pack (left pack (initParams pack (List.finRange k) objects)) i =
      (passed pack objects i).moved := left_of_moves horder hm
  have hreceived := congrFun hsecond i
  rw [received_initParams horder (.inl (by rw [hleft, ArgValue.moved_moved])), hleft] at hreceived
  exact hmoved hreceived

/-- Nor does a parameter get what was moved into another one. -/
theorem object_ne_of_movedIn {n : Nat} (hn : 1 ≤ n)
    (h : ∀ orders : List (List (Fin k)), orders.length = n → (∀ order ∈ orders, IsOrder order) →
      construct pack orders objects = List.replicate n (passed pack objects))
    (hmoved : (passed pack objects i).moved ≠ passed pack objects i) (hm : (pack i).MovedIn)
    (hj : j ≠ i) : (pack j).object ≠ (pack i).object := by
  intro hobject
  obtain ⟨m, rfl⟩ : ∃ m, n = m + 1 := ⟨n - 1, by omega⟩
  have hfirst := isOrder_cons i
  have hall := h ((i :: (List.finRange k).erase i) :: List.replicate m (List.finRange k))
    (by simp) (List.forall_mem_cons.mpr
      ⟨hfirst, fun order hmem => List.eq_of_mem_replicate hmem ▸ isOrder_finRange k⟩)
  have hhead := congrFun (List.cons.inj hall).1 j
  have hself := objects_initParam_self (p := ⟨fun _ => .scalar 0, objects⟩) hm
  have hlater : received pack (initParams pack (i :: (List.finRange k).erase i) objects) j =
      (passed pack objects i).moved := by
    rw [initParams, List.foldl_cons, received_foldl (List.nodup_cons.mp hfirst.1).2
      ((List.mem_cons.mp (hfirst.2 j)).resolve_left hj)
      (.inl (by rw [hobject, hself, ArgValue.moved_moved])), hobject]
    exact hself
  have hpassed : passed pack objects j = passed pack objects i := congrArg objects hobject
  exact hmoved (hlater.symm.trans (hhead.trans hpassed))

/-- **The objects of a pool get the values of the caller**, whatever order the compiler has the
parameters initialised in, exactly if a string that is moved goes to one object only, and to one
parameter if it is moved into one; or is empty. -/
theorem construct_iff (k : Nat) (pack : Fin k → Arg) (objects : Nat → ArgValue) (n : Nat)
    (hn : 1 ≤ n) :
    (∀ orders : List (List (Fin k)), orders.length = n → (∀ order ∈ orders, IsOrder order) →
      construct pack orders objects = List.replicate n (passed pack objects)) ↔
    Intact pack objects n := by
  constructor
  · intro h i hmoved
    refine ⟨fun hm => ⟨?_, fun j hj => ?_⟩, fun hm => ?_⟩
    · exact length_eq_one_of_moves hn h hmoved (.inl hm)
    · exact object_ne_of_movedIn hn h hmoved hm hj
    · exact length_eq_one_of_moves hn h hmoved (.inr hm)
  · rintro h orders rfl ho
    exact construct_of_intact ho h

/-- The pack of the unit test: `const std::string &`, `std::string`, `std::string &&` and scalars. -/
def testerPack : Fin 7 → Arg
  | 0 => ⟨.constLref, .constLref, 0, rfl⟩
  | 1 => ⟨.plain, .value, 1, rfl⟩
  | 2 => ⟨.rref, .rref, 2, rfl⟩
  | i => ⟨.plain, .value, i, rfl⟩

def testerObjects (s : String) (o : Nat) : ArgValue := if o < 3 then .string s else .scalar 0

/-- With the arguments of the unit test: empty strings, null pointers, zero. -/
theorem construct_iff_tester :
    1 ≤ 10 ∧ ∀ orders : List (List (Fin 7)), orders.length = 10 →
      (∀ order ∈ orders, IsOrder order) →
      construct testerPack orders (testerObjects "") =
        List.replicate 10 (passed testerPack (testerObjects "")) := by
  refine ⟨by decide, (construct_iff 7 testerPack _ 10 (by decide)).mpr ?_⟩
  unfold Intact
  decide

/-- Two objects and a string that is moved: the second one gets an empty string. -/
theorem construct_moved_twice :
    ¬ ∀ orders : List (List (Fin 7)), orders.length = 2 → (∀ order ∈ orders, IsOrder order) →
      construct testerPack orders (testerObjects "name") =
        List.replicate 2 (passed testerPack (testerObjects "name")) := by
  intro h
  have hall := h (List.replicate 2 (List.finRange 7)) rfl
    fun order hmem => List.eq_of_mem_replicate hmem ▸ isOrder_finRange 7
  have hsecond : (construct testerPack (List.replicate 2 (List.finRange 7))
      (testerObjects "name")).map (fun r => r 1) = [.string "name", .string ""] := by
    decide
  rw [hall] at hsecond
  exact absurd hsecond (by decide)

end ThreadPool

end Cppev
