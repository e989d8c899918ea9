import Cppev.Lib.Tally
import Cppev.Reactor.Basic
import Cppev.Utils.Strings

/-!
# Connecting

What `connector::on_pipe_readable` does with a task, as far as it is one thread's own business: the
socket, the two ways to connect it, and the loop over the map that has been swapped out.

`socket`, `inet_pton` and `connect` answer as a value of `Syscalls` says. The counts in the maps are
`int`s, and sums of them wrap around.
-/

namespace Cppev

/-! ## The values of an `int`

Sums of counts are brought back to an `int`. One that is too large comes back smaller, which is how
tasks get lost. -/

def IsInt (x : Int) : Prop := -2 ^ 31 ≤ x ∧ x ≤ INT_MAX

instance (x : Int) : Decidable (IsInt x) := inferInstanceAs (Decidable (_ ∧ _))

theorem toInt_of_isInt {x : Int} (h : IsInt x) : toInt x = x := by
  obtain ⟨hlow, hhigh⟩ := h
  simp only [INT_MAX] at hhigh
  simp only [toInt, Int.bmod_def]
  omega

theorem isInt_toInt (x : Int) : IsInt (toInt x) := by
  simp only [IsInt, INT_MAX, toInt, Int.bmod_def]
  omega

/-- A sum that is too large wraps around to a smaller one. -/
theorem toInt_lt {x : Int} (h : INT_MAX < x) : toInt x < x := by
  simp only [INT_MAX] at h
  simp only [toInt, Int.bmod_def]
  omega

theorem toInt_le_self {x : Int} (h : -2 ^ 31 ≤ x) : toInt x ≤ x := by
  simp only [toInt, Int.bmod_def]
  omega

theorem isInt_zero : IsInt 0 := by decide

/-- What `t[k] += n` adds, where the counts are `int`s: `n`, or `2 ^ 32` less. -/
def gain {κ : Type} [DecidableEq κ] (t : Tally κ) (k : κ) (n : Int) : Int :=
  toInt (t.get k + n) - t.get k

section Gain

variable {κ : Type} [DecidableEq κ] {t : Tally κ} {k : κ} {n : Int}

theorem gain_eq (h : IsInt (t.get k + n)) : gain t k n = n := by
  rw [gain, toInt_of_isInt h]
  omega

theorem gain_le (hints : t.Each IsInt) (hn : 0 ≤ n) : gain t k n ≤ n := by
  have hlow := (hints.get isInt_zero k).1
  have hle := toInt_le_self (show -2 ^ 31 ≤ t.get k + n by omega)
  unfold gain
  omega

theorem gain_lt (hints : t.Each IsInt) (hn : 0 ≤ n) (h : ¬ IsInt (t.get k + n)) :
    gain t k n < n := by
  have hlow := (hints.get isInt_zero k).1
  have hlarge : INT_MAX < t.get k + n := by
    unfold IsInt at h
    omega
  have hlt := toInt_lt hlarge
  unfold gain
  omega

end Gain

/-! ## One task

`connectTask` is the body of the inner loop: a socket is made, and one of the two ways to connect it
is tried. System calls may throw. -/

/-- What `inet_pton` returns: 1, 0, or -1 with an `errno`. -/
inductive PtonResult where
  | ok
  | invalid
  | err (e : Errno)
  deriving DecidableEq, Repr

/-- What the system calls for one task answer; `EINPROGRESS` is a success of `connect`. -/
structure Syscalls where
  socket : Except Errno Int
  inetPton : PtonResult
  connect : Bool

/-- What a `const char *` of a string gives: the characters up to the first NUL. -/
def cString (s : String) : String := String.ofList (s.toList.takeWhile fun c => c.toNat ≠ 0)

/-- `nio_factory::get_nsocktcp`. -/
def getNsocktcp (f : Family) (sys : Syscalls) : Except Exn Nsocktcp :=
  match sys.socket with
  | .ok fd => .ok { Nstream.new fd with family := f, peer := ("", 0) }
  | .error e => .error (.systemError "socket error" e)

namespace Nsocktcp

/-- `connect(const std::string &, int)`, with `set_ip_port`. -/
def connect (sock : Nsocktcp) (ip : String) (port : Int) (sys : Syscalls) :
    Except Exn (Nsocktcp × Bool) :=
  match sys.inetPton with
  | .ok => .ok ({ sock with peer := (cString ip, port) }, sys.connect)
  | .invalid => .error (.logicError "inet_pton error")
  | .err e => .error (.systemError "inet_pton error" e)

/-- `connect_unix(const std::string &)`. -/
def connectUnix (sock : Nsocktcp) (path : String) (sys : Syscalls) : Nsocktcp × Bool :=
  ({ sock with peer := (cString path, -1) }, sys.connect)

end Nsocktcp

/-- The body of the inner loop of `on_pipe_readable` up to `succeed`: the socket, and whether it is
connected or about to be. -/
def connectTask (h : Host) (sys : Syscalls) : Except Exn (Nsocktcp × Bool) := do
  let (ip, port, f) := h
  let sock ← getNsocktcp f sys
  if f = .local then
    pure (sock.connectUnix ip sys)
  else
    sock.connect ip port sys

/-- What `connpeer` gives for a socket that was made for the host. -/
def connKey : Host → Host
  | (ip, port, f) => (cString ip, if f = .local then -1 else port, f)

/-- Neither `socket` nor `inet_pton` fails for the host. -/
def Syscalls.Accepts (sys : Syscalls) (h : Host) : Prop :=
  sys.socket.isOk = true ∧ (h.2.2 ≠ .local → sys.inetPton = .ok)

instance (sys : Syscalls) (h : Host) : Decidable (sys.Accepts h) :=
  inferInstanceAs (Decidable (_ ∧ _))

/-- A task that does not throw gives a socket for its host. -/
theorem connectTask_spec (h : Host) (sys : Syscalls) :
    match connectTask h sys with
    | .ok (sock, succeed) => sys.Accepts h ∧ succeed = sys.connect ∧ sock.connpeer = connKey h
    | .error _ => ¬ sys.Accepts h := by
  obtain ⟨ip, port, f⟩ := h
  obtain ⟨socket, inetPton, connect⟩ := sys
  cases socket with
  | error e => exact fun ha => nomatch ha.1
  | ok fd =>
      by_cases hf : f = .local
      · subst hf
        exact ⟨⟨rfl, fun hne => (hne rfl).elim⟩, rfl, rfl⟩
      · have hconnect : connectTask (ip, port, f) ⟨.ok fd, inetPton, connect⟩ =
            Nsocktcp.connect { Nstream.new fd with family := f, peer := ("", 0) } ip port
              ⟨.ok fd, inetPton, connect⟩ := by
          cases f <;> first | rfl | exact (hf rfl).elim
        rw [hconnect]
        cases inetPton with
        | ok => exact ⟨⟨rfl, fun _ => rfl⟩, rfl, by simp [Nsocktcp.connpeer, connKey, hf]⟩
        | invalid => exact fun ha => nomatch ha.2 hf
        | err e => exact fun ha => nomatch ha.2 hf

/-! ## The map of tasks

Two maps: `hosts_`, where tasks are added, and the one that the loop goes through. How many tasks
are left is what the first entry has still to be tried and all that comes behind it. -/

/-- The part of a `connector` that its tasks go through; `taken` is what `on_pipe_readable` has
swapped out, from its iterator on, and `i` the counter of its inner loop. -/
structure Connector where
  hosts : Tally Host
  taken : Tally Host
  i : Int
  failures : Tally Host

namespace Connector

/-- `hosts_.swap(hosts)`, when `hosts` is empty, and both loops at their beginning. -/
def swapHosts (c : Connector) (order : Tally.Order Host) : Connector :=
  { c with hosts := [], taken := order.visit c.hosts, i := 0 }

/-- The task at which the loops are, if the inner one goes on. -/
def task (c : Connector) : Option Host :=
  match c.taken with
  | e :: _ => if c.i < e.2 then some e.1 else none
  | [] => none

/-- `iter = hosts.erase(iter)`, and the inner loop at its beginning. -/
def erase (c : Connector) : Connector := { c with taken := c.taken.tail, i := 0 }

/-- The rest of the round: the next one of the inner loop, and a failure if there was one. -/
def finish (c : Connector) (h : Host) (succeed : Bool) : Connector :=
  { c with
    i := c.i + 1
    failures := if succeed = true then c.failures else c.failures.addWith toInt h 1 }

/-- An exception leaves `on_pipe_readable`. -/
def unwind (c : Connector) : Connector := { c with taken := [], i := 0 }

/-- How many tasks for `h` are left of those that have been swapped out. For a count that is negative
the inner loop is not entered. -/
def left (c : Connector) (h : Host) : Int :=
  Tally.positives c.taken h - if c.taken.head?.map Prod.fst = some h then c.i else 0

/-- The counts are `int`s, and the loops are where they can be. -/
structure Wf (c : Connector) : Prop where
  hosts : c.hosts.Each IsInt
  failures : c.failures.Each IsInt
  nonneg : 0 ≤ c.i
  counter : ∀ e ∈ c.taken.head?, c.i ≤ max e.2 0
  done : c.taken = [] → c.i = 0

variable {c : Connector} {h : Host}

theorem task_eq_some (ht : c.task = some h) :
    ∃ n rest, c.taken = (h, n) :: rest ∧ c.i < n := by
  unfold task at ht
  split at ht
  case h_1 e rest htaken =>
    split at ht
    case isTrue hlt => exact ⟨e.2, rest, by rw [htaken, ← Option.some.inj ht], hlt⟩
    case isFalse => cases ht
  case h_2 => cases ht

/-! ### The number of tasks -/

theorem left_swapHosts (order : Tally.Order Host) (h : Host) :
    (c.swapHosts order).left h = Tally.positives c.hosts h := by
  show Tally.positives (order.visit c.hosts) h -
    (if (order.visit c.hosts).head?.map Prod.fst = some h then (0 : Int) else 0) = _
  rw [ite_self, Int.sub_zero, Tally.positives_visit]

theorem left_of_taken_nil (ht : c.taken = []) (h : Host) : c.left h = 0 := by
  simp [left, ht]

/-- An entry that is erased has been worked off. -/
theorem left_erase (hwf : c.Wf) (ht : c.task = none) (h : Host) : c.erase.left h = c.left h := by
  cases htaken : c.taken with
  | nil => simp [left, erase, htaken]
  | cons e rest =>
      have hle : c.i ≤ max e.2 0 := hwf.counter e (by simp [htaken])
      have h0 := hwf.nonneg
      have hnot : ¬ c.i < e.2 := fun hlt => by simp [task, htaken, hlt] at ht
      have hi : c.i = max e.2 0 := by omega
      simp only [left, erase, htaken, List.tail_cons, Tally.positives_cons, hi, List.head?_cons,
        Option.map_some, Option.some.injEq, ite_self]
      omega

theorem left_finish (ht : c.task = some h) (succeed : Bool) (h' : Host) :
    (c.finish h succeed).left h' = c.left h' - if h = h' then 1 else 0 := by
  obtain ⟨n, rest, htaken, -⟩ := task_eq_some ht
  by_cases hh : h = h' <;> simp [left, finish, htaken, hh]
  omega

theorem left_nonneg (hwf : c.Wf) (h : Host) : 0 ≤ c.left h := by
  cases htaken : c.taken with
  | nil => simp [left, htaken]
  | cons e rest =>
      have hle : c.i ≤ max e.2 0 := hwf.counter e (by simp [htaken])
      have hrest := Tally.positives_nonneg rest h
      by_cases hh : e.1 = h <;> simp only [left, htaken, Tally.positives_cons, hh, List.head?_cons,
        Option.map_some, Option.some.injEq, if_true, if_false] <;> omega

theorem left_pos (ht : c.task = some h) : 0 < c.left h := by
  obtain ⟨n, rest, htaken, hlt⟩ := task_eq_some ht
  have hrest := Tally.positives_nonneg rest h
  simp only [left, htaken, Tally.positives_cons, List.head?_cons, Option.map_some, if_true]
  omega

/-! ### The loops stay in their range -/

theorem wf_new : Wf { hosts := [], taken := [], i := 0, failures := [] } :=
  ⟨nofun, nofun, Int.le_refl 0, nofun, fun _ => rfl⟩

theorem Wf.swapHosts (hwf : c.Wf) (order : Tally.Order Host) : (c.swapHosts order).Wf where
  hosts := nofun
  failures := hwf.failures
  nonneg := Int.le_refl 0
  counter := fun _ _ => Int.le_max_right ..
  done := fun _ => rfl

theorem Wf.erase (hwf : c.Wf) : c.erase.Wf where
  hosts := hwf.hosts
  failures := hwf.failures
  nonneg := Int.le_refl 0
  counter := fun _ _ => Int.le_max_right ..
  done := fun _ => rfl

theorem Wf.finish (hwf : c.Wf) (ht : c.task = some h) (succeed : Bool) :
    (c.finish h succeed).Wf := by
  obtain ⟨n, rest, htaken, hlt⟩ := task_eq_some ht
  refine ⟨hwf.hosts, ?_, Int.le_add_one hwf.nonneg, fun e he => ?_, fun hnil => ?_⟩
  · simp only [Connector.finish]
    split
    case isTrue => exact hwf.failures
    case isFalse => exact hwf.failures.addWith isInt_toInt h 1
  · simp only [Connector.finish, htaken, List.head?_cons, Option.mem_def, Option.some.injEq] at he ⊢
    subst he
    simp only
    omega
  · simp only [Connector.finish, htaken] at hnil
    cases hnil

theorem Wf.unwind (hwf : c.Wf) : c.unwind.Wf :=
  ⟨hwf.hosts, hwf.failures, Int.le_refl 0, nofun, fun _ => rfl⟩

/-- More tasks are added. -/
theorem Wf.of_hosts (hwf : c.Wf) {hosts : Tally Host} (hints : hosts.Each IsInt) :
    Wf { c with hosts := hosts } :=
  ⟨hints, hwf.failures, hwf.nonneg, hwf.counter, hwf.done⟩

end Connector

end Cppev
