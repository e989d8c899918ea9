import Mathlib.Algebra.BigOperators.Fin
import Mathlib.Algebra.Order.BigOperators.Group.Finset
import Mathlib.Data.List.TakeWhile
import Cppev.Client.Basic
import Cppev.Lib.Transition

/-!
# The accounts of a client

A `tcp_client` with its connectors and workers. A task goes from a connector's `hosts_` into the map
that `on_pipe_readable` swaps out, from there to a worker as a socket, and ends as a call of
`on_connect` or as a failure in one of the tables.

A label is one of `add`, a round of a connector's loop, or the run of `on_cont_writable` for a socket
that has become writable; it carries what the system calls answer. An exception that leaves
`on_pipe_readable` leaves the thread, and with it the process ends. The counts in the maps are
`int`s: a sum that is none wraps around, and for a negative count no task is tried.

* `accounts_iff`: the accounts agree for every host, in every state of a run, if and only if no task
  threw, each failure that a worker found was one of a host that `connpeer` gives back as it was
  added, and each sum was an `int`.
-/

namespace Cppev

/-- The hosts that `connpeer` gives back as they were added. -/
theorem connKey_eq_iff (ip : String) (port : Int) (f : Family) :
    connKey (ip, port, f) = (ip, port, f) ↔ cString ip = ip ∧ (f = .local → port = -1) := by
  by_cases hf : f = .local <;> simp [connKey, hf, eq_comm]

/-- What has been cut at a null byte has none. -/
theorem cString_cString (s : String) : cString (cString s) = cString s := by
  rw [cString, cString, String.toList_ofList, List.takeWhile_idem]

/-- A host that `connpeer` has given back is given back as it is. -/
theorem connKey_connKey (h : Host) : connKey (connKey h) = connKey h := by
  obtain ⟨ip, port, f⟩ := h
  by_cases hf : f = .local <;> simp [connKey, hf, cString_cString]

/-! ## A worker -/

/-- The part of an `iohandler` that tasks go through: the sockets that are registered with
`on_cont_writable`, each with the host it was made for. -/
structure Worker where
  sockets : List (Nsocktcp × Host)
  failures : Tally Host
  /-- The history: for which hosts `on_connect` has been called. -/
  connected : List Host

namespace Worker

/-- The operations that `on_cont_writable` needs, for the `i`-th socket. -/
def iopt (i : Nat) (sock : Nsocktcp) (soError : Int) : Iopt (StateM Worker) where
  readAll := pure ()
  writeAll := pure ()
  wbufferSize := pure 0
  wbufferPutString _ := pure ()
  rbufferString := pure []
  rbufferConsume _ := pure ()
  rbufferClear := pure ()
  eof := pure false
  isReset := pure false
  eop := pure false
  isClosed := pure false
  checkConnect := pure (soError = 0)
  countFailure := modify fun w => { w with failures := w.failures.addWith toInt sock.connpeer 1 }
  fdRegister _ _ _ := pure ()
  fdRemove _ _ := modify fun w => { w with sockets := w.sockets.eraseIdx i }
  close := pure ()
  called _ := pure ()
  handOver _ _ _ := pure ()

/-- The callbacks for a socket that was made for `h`. -/
def dp (h : Host) : TpSharedData (StateM Worker) where
  onAccept := pure ()
  onConnect := modify fun w => { w with connected := w.connected ++ [h] }
  onReadComplete := pure ()
  onWriteComplete := pure ()
  onClosed := pure ()

/-- `on_cont_writable` runs for the `i`-th socket, and `SO_ERROR` is `soError`. -/
def contWritable (w : Worker) (i : Nat) (sock : Nsocktcp × Host) (soError : Int) : Worker :=
  ((onContWritable (iopt i sock.1 soError) (dp sock.2)).run w).2

/-- The two ways in which the handler ends: the callback is called, or the failure is counted. -/
theorem contWritable_eq (w : Worker) (i : Nat) (sock : Nsocktcp × Host) (soError : Int) :
    w.contWritable i sock soError =
      if soError = 0 then
        { w with sockets := w.sockets.eraseIdx i, connected := w.connected ++ [sock.2] }
      else
        { w with
          sockets := w.sockets.eraseIdx i
          failures := w.failures.addWith toInt sock.1.connpeer 1 } := by
  by_cases h : soError = 0
  · subst h
    rfl
  · have hcheck : (iopt i sock.1 soError).checkConnect = pure false := by simp [iopt, h]
    rw [if_neg h]
    unfold contWritable onContWritable
    simp only [hcheck]
    rfl

/-! ### What a worker owes -/

/-- The tasks of `h` that have come to the worker. -/
def account (w : Worker) (h : Host) : Int :=
  (w.sockets.map Prod.snd).count h + Tally.total w.failures h + w.connected.count h

/-- A socket that is handed to a worker is one more in its account. -/
theorem account_push (w : Worker) (sock : Nsocktcp) (h h' : Host) :
    account { w with sockets := w.sockets ++ [(sock, h)] } h' =
      w.account h' + if h = h' then 1 else 0 := by
  by_cases hh : h = h' <;> simp [account, hh]
  omega

/-- A failure is counted for the host that `connpeer` gives. -/
theorem account_contWritable {w : Worker} {i : Nat} {sock : Nsocktcp × Host}
    (hsock : w.sockets[i]? = some sock) (soError : Int) (h : Host) :
    (w.contWritable i sock soError).account h = w.account h +
      if soError = 0 then 0
      else (if sock.1.connpeer = h then gain w.failures sock.1.connpeer 1 else 0) -
        if sock.2 = h then 1 else 0 := by
  obtain ⟨hi, rfl⟩ := List.getElem?_eq_some_iff.mp hsock
  have hcount : ((w.sockets.eraseIdx i).map Prod.snd).count h +
      (if w.sockets[i].2 = h then 1 else 0) = (w.sockets.map Prod.snd).count h := by
    rw [← ((List.getElem_cons_eraseIdx_perm hi).map Prod.snd).count_eq h, List.map_cons,
      List.count_cons]
    simp
  rw [contWritable_eq]
  by_cases he : soError = 0
  · by_cases hh : w.sockets[i].2 = h <;> simp [account, he, hh] at hcount ⊢ <;> omega
  · simp only [account, if_neg he, Tally.total_addWith, gain]
    by_cases hh : w.sockets[i].2 = h
    · rw [if_pos hh] at hcount ⊢
      omega
    · rw [if_neg hh] at hcount ⊢
      omega

end Worker

/-! ## The client -/

/-- `n` connectors and one more, and `m` workers; the last fields are the history. -/
structure TcpClient (n m : Nat) where
  conts : Fin (n + 1) → Connector
  workers : Fin m → Worker
  /-- An exception has left a thread. -/
  aborted : Bool
  /-- The history: what has been added. -/
  added : Tally Host

/-- What may happen next. -/
inductive ClientLabel (n m : Nat) where
  /-- `add`, or `add_unix` with port 0 and the family `local`. -/
  | add (h : Host) (t : Int)
  /-- `on_pipe_readable` of a connector begins, and swaps. -/
  | swap (j : Fin (n + 1))
  /-- A round of its inner loop; `minloads_get_evlp` chooses worker `k`. -/
  | attempt (j : Fin (n + 1)) (sys : Syscalls) (k : Fin m)
  /-- The end of a round of its outer loop. -/
  | erase (j : Fin (n + 1))
  /-- The `i`-th socket of worker `k` is writable. -/
  | writable (k : Fin m) (i : Nat) (soError : Int)

/-- `connector::add`, as far as `hosts_` goes, with a sum that is any integer. -/
def Connector.add (c : Connector) (h : Host) (t : Int) : Connector :=
  if t = 0 then c
  else { c with hosts := if c.hosts.has h = true then c.hosts.add h t else c.hosts.set h t }

/-- `connector::add`, with a sum that wraps around. -/
def Connector.addWrapped (c : Connector) (h : Host) (t : Int) : Connector :=
  if t = 0 then c
  else
    { c with
      hosts := if c.hosts.has h = true then c.hosts.addWith toInt h t else c.hosts.set h t }

namespace Connector

variable {c : Connector} {h : Host}

/-! ### What a connector owes

The tasks in its two maps and the failures it has counted. A count below zero, which only a sum that
has wrapped around can leave, is no debt of tasks: `left` and `account` count it as none. -/

/-- The tasks of `h` that have come to the connector, and have not gone on to a worker. -/
def account (c : Connector) (h : Host) : Int :=
  Tally.positives c.hosts h + c.left h + Tally.total c.failures h

/-- No count that waits in `hosts_` is negative. -/
def NoDebt (c : Connector) : Prop := c.hosts.Each fun n => 0 ≤ n

/-- A new entry is one that has been added to. -/
theorem addWrapped_eq {t : Int} (ht : IsInt t) (hne : t ≠ 0) :
    c.addWrapped h t = { c with hosts := c.hosts.addWith toInt h t } := by
  simp only [addWrapped, if_neg hne]
  split
  case isTrue => rfl
  case isFalse hnew => rw [Tally.set_eq_addWith (Bool.eq_false_iff.mpr hnew) (toInt_of_isInt ht)]

/-- A request for nothing does nothing. -/
theorem addWrapped_zero : c.addWrapped h 0 = c := if_pos rfl

/-- If the sum is an `int`, the entry is the sum. -/
theorem get_addWrapped {t : Int} (ht : IsInt t) (hsum : IsInt (c.hosts.get h + t)) :
    (c.addWrapped h t).hosts.get h = c.hosts.get h + t := by
  by_cases hne : t = 0
  · rw [hne, addWrapped_zero, Int.add_zero]
  · rw [addWrapped_eq ht hne]
    exact (Tally.get_addWith _ h t).trans (toInt_of_isInt hsum)

/-- What `add` changes in the account of any host, in all cases. -/
theorem account_addWrapped {t : Int} (ht : IsInt t) (h' : Host) :
    (c.addWrapped h t).account h' = c.account h' +
      if h = h' ∧ t ≠ 0 then max (toInt (c.hosts.get h + t)) 0 - max (c.hosts.get h) 0 else 0 := by
  by_cases hne : t = 0
  · simp [hne, addWrapped_zero]
  · rw [addWrapped_eq ht hne]
    have hleft : ∀ hosts, left { c with hosts := hosts } h' = c.left h' := fun _ => rfl
    simp only [account, hleft, Tally.positives_addWith, hne, not_false_iff, and_true, ne_eq]
    omega

/-- A sum that wraps around does not add tasks. -/
theorem account_addWrapped_le (hints : c.hosts.Each IsInt) {t : Int} (h0 : 0 ≤ t) (ht : IsInt t)
    (h' : Host) :
    (c.addWrapped h t).account h' ≤ c.account h' + if h = h' then t else 0 := by
  have hlow := (hints.get isInt_zero h).1
  have hle := toInt_le_self (show -2 ^ 31 ≤ c.hosts.get h + t by omega)
  rw [account_addWrapped ht]
  by_cases hh : h = h'
  · by_cases hne : t = 0
    · simp [hh, hne]
    · simp only [hh, hne, ne_eq, not_false_iff, and_self, if_true] at hle ⊢
      omega
  · simp [hh]

/-- If the sum is an `int`, the account goes up by what was added. -/
theorem account_addWrapped_eq (hdebt : c.NoDebt) {t : Int} (h0 : 0 ≤ t) (ht : IsInt t)
    (hsum : IsInt (c.hosts.get h + t)) (h' : Host) :
    (c.addWrapped h t).account h' = c.account h' + if h = h' then t else 0 := by
  have hget : 0 ≤ c.hosts.get h := Tally.Each.get (p := fun n => 0 ≤ n) (Int.le_refl 0) hdebt h
  rw [account_addWrapped ht, toInt_of_isInt hsum]
  by_cases hh : h = h'
  · by_cases hne : t = 0
    · simp [hh, hne]
    · simp only [hh, hne, ne_eq, not_false_iff, and_self, if_true] at hget ⊢
      omega
  · simp [hh]

/-- If it is not, the account ends below what it should be. -/
theorem account_addWrapped_lt (hdebt : c.NoDebt) {t : Int} (h0 : 0 ≤ t) (ht : IsInt t)
    (hints : c.hosts.Each IsInt) (hsum : ¬ IsInt (c.hosts.get h + t)) :
    (c.addWrapped h t).account h < c.account h + t := by
  have hget : 0 ≤ c.hosts.get h := Tally.Each.get (p := fun n => 0 ≤ n) (Int.le_refl 0) hdebt h
  have hne : t ≠ 0 := by
    rintro rfl
    rw [Int.add_zero] at hsum
    exact hsum (hints.get isInt_zero h)
  have hlarge : INT_MAX < c.hosts.get h + t := by
    unfold IsInt at hsum
    omega
  have hlt := toInt_lt hlarge
  rw [account_addWrapped ht]
  simp only [hne, ne_eq, not_false_iff, and_self, if_true]
  omega

/-- Without a wrapped sum all counts stay positive. -/
theorem noDebt_addWrapped (hdebt : c.NoDebt) {t : Int} (h0 : 0 ≤ t) (ht : IsInt t)
    (hsum : IsInt (c.hosts.get h + t)) : (c.addWrapped h t).NoDebt := by
  by_cases hne : t = 0
  · rw [hne, addWrapped_zero]
    exact hdebt
  · rw [addWrapped_eq ht hne]
    show Tally.Each (fun n => 0 ≤ n) (c.hosts.addWith toInt h t)
    rw [Tally.addWith_eq_add (toInt_of_isInt hsum)]
    exact Tally.Each.add_nonneg hdebt h h0

/-- A swap moves tasks from one map to the other. -/
theorem account_swapHosts (ht : c.taken = []) (order : Tally.Order Host) (h : Host) :
    (c.swapHosts order).account h = c.account h := by
  simp only [account, left_swapHosts, left_of_taken_nil ht]
  simp [swapHosts]

/-- Only a host without tasks is erased. -/
theorem account_erase (hwf : c.Wf) (ht : c.task = none) (h : Host) :
    c.erase.account h = c.account h := by
  simp only [account, left_erase hwf ht]
  rfl

/-- A task that is done is one less to try, and one failure more or none. -/
theorem account_finish (ht : c.task = some h) (succeed : Bool) (h' : Host) :
    (c.finish h succeed).account h' = c.account h' +
      if h = h' then (if succeed = true then 0 else gain c.failures h 1) - 1 else 0 := by
  have hhosts : (c.finish h succeed).hosts = c.hosts := rfl
  rw [account, left_finish ht, hhosts, account]
  cases succeed with
  | true =>
      show _ + Tally.total c.failures h' = _
      rw [if_pos rfl]
      split <;> omega
  | false =>
      show _ + Tally.total (c.failures.addWith toInt h 1) h' = _
      rw [Tally.total_addWith, if_neg Bool.false_ne_true, gain]
      split <;> omega

/-- An exception in `on_pipe_readable` loses what was left of the map that it had swapped out. -/
theorem account_unwind (c : Connector) (h : Host) : c.unwind.account h = c.account h - c.left h := by
  simp only [account, left_of_taken_nil (c := c.unwind) rfl]
  simp [unwind]
  omega

/-- Whatever is added, the entries of the map are `int`s and no host is in it twice. -/
theorem Wf.addWrapped (hwf : c.Wf) (h : Host) {t : Int} (ht : IsInt t) : (c.addWrapped h t).Wf := by
  by_cases hz : t = 0
  · rwa [hz, addWrapped_zero]
  · rw [addWrapped_eq ht hz]
    exact hwf.of_hosts (hwf.hosts.addWith isInt_toInt h t)

end Connector

namespace TcpClient

variable {n m : Nat}

/-- `tcp_client::add`. -/
def add (c : TcpClient n m) (h : Host) (t : Int) : TcpClient n m :=
  let conts :=
    if n + 1 = 1 then Function.update c.conts 0 ((c.conts 0).addWrapped h t)
    else
      let num := t / (n + 1)
      let mod := t % (n + 1)
      let all := fun j => (c.conts j).addWrapped h num
      Function.update all 0 ((all 0).addWrapped h mod)
  { c with conts, added := c.added ++ [(h, t)] }

/-- A round of the inner loop of `on_pipe_readable`, for host `h`. -/
def attempt (c : TcpClient n m) (j : Fin (n + 1)) (h : Host) (sys : Syscalls) (k : Fin m) :
    TcpClient n m :=
  match connectTask h sys with
  | .ok (sock, succeed) =>
    { c with
      conts := Function.update c.conts j ((c.conts j).finish h succeed)
      workers :=
        if succeed = true then
          Function.update c.workers k
            { c.workers k with sockets := (c.workers k).sockets ++ [(sock, h)] }
        else c.workers }
  | .error _ => { c with conts := Function.update c.conts j (c.conts j).unwind, aborted := true }

/-- One step. None if it is not possible now, or the program is gone. -/
def step (order : Tally.Order Host) (c : TcpClient n m) : ClientLabel n m → Option (TcpClient n m)
  | l =>
    if c.aborted = true then none
    else
      match l with
      | .add h t => if 0 < t ∧ t ≤ INT_MAX then some (c.add h t) else none
      | .swap j =>
        if (c.conts j).taken = [] then
          some { c with conts := Function.update c.conts j ((c.conts j).swapHosts order) }
        else none
      | .attempt j sys k =>
        match (c.conts j).task with
        | some h => some (c.attempt j h sys k)
        | none => none
      | .erase j =>
        if (c.conts j).task = none then
          some { c with conts := Function.update c.conts j (c.conts j).erase }
        else none
      | .writable k i soError =>
        match (c.workers k).sockets[i]? with
        | some sock =>
          some { c with
            workers := Function.update c.workers k ((c.workers k).contWritable i sock soError) }
        | none => none

/-- A client that has just been made. -/
def init (n m : Nat) : TcpClient n m where
  conts := fun _ => { hosts := [], taken := [], i := 0, failures := [] }
  workers := fun _ => ⟨[], [], []⟩
  aborted := false
  added := []

/-! ## The balance -/

/-- What has come to the connectors and workers, less what has been added. -/
def balance (c : TcpClient n m) (h : Host) : Int :=
  ∑ j, (c.conts j).account h + ∑ k, (c.workers k).account h - Tally.total c.added h

/-- A sum over all parties of which one has changed. -/
theorem sum_update {α : Type} {n : Nat} (g : α → Int) (s : Fin n → α) (j : Fin n) (x : α) :
    ∑ i, g (Function.update s j x i) = ∑ i, g (s i) + (g x - g (s j)) := by
  have hcomp : (fun i => g (Function.update s j x i)) = Function.update (fun i => g (s i)) j (g x) :=
    funext fun i => Function.apply_update (fun _ => g) s j x i
  rw [hcomp, Finset.sum_update_of_mem (Finset.mem_univ j),
    ← Finset.sum_sdiff (Finset.subset_univ {j}), Finset.sum_singleton]
  omega

variable {c c' : TcpClient n m} {l : ClientLabel n m} {order : Tally.Order Host}

/-- The balance changes with one connector by what its account does. -/
theorem balance_conts (j : Fin (n + 1)) (x : Connector) (h : Host) :
    balance { c with conts := Function.update c.conts j x } h =
      c.balance h + (x.account h - (c.conts j).account h) := by
  simp only [balance, sum_update fun x : Connector => x.account h]
  omega

theorem balance_workers (k : Fin m) (x : Worker) (h : Host) :
    balance { c with workers := Function.update c.workers k x } h =
      c.balance h + (x.account h - (c.workers k).account h) := by
  simp only [balance, sum_update fun x : Worker => x.account h]
  omega

/-! ### The shares of the connectors -/

/-- What the `j`-th connector is given, in one portion or in two. -/
def share (n : Nat) (t : Int) (j : Fin (n + 1)) : Int :=
  t / (n + 1) + if j = 0 then t % (n + 1) else 0

/-- `add` calls `connector::add` on each connector, and once more on the first. -/
theorem conts_add (c : TcpClient n m) (h : Host) (t : Int) (j : Fin (n + 1)) :
    (c.add h t).conts j = ((c.conts j).addWrapped h (t / (n + 1))).addWrapped h
      (if j = 0 then t % (n + 1) else 0) := by
  unfold add
  by_cases hn : n + 1 = 1
  · obtain rfl : n = 0 := by omega
    obtain rfl : j = 0 := Subsingleton.elim (α := Fin 1) j 0
    simp [Connector.addWrapped_zero]
  · simp only [hn, if_false]
    by_cases hj : j = 0
    · subst hj
      simp
    · simp [hj, Connector.addWrapped_zero]

/-- The shares are a partition of what was asked for. -/
theorem sum_share (n : Nat) (t : Int) : ∑ j, share n t j = t := by
  have hsplit : ((n : Int) + 1) * (t / ((n : Int) + 1)) + t % ((n : Int) + 1) = t :=
    Int.mul_ediv_add_emod t _
  simp only [share, Finset.sum_add_distrib, Finset.sum_const, Finset.card_univ, Fintype.card_fin,
    nsmul_eq_mul, Finset.sum_ite_eq', Finset.mem_univ, if_true]
  push_cast
  exact hsplit

/-- The portions are `int`s, and not negative. -/
structure Portions (n : Nat) (t : Int) (j : Fin (n + 1)) : Prop where
  num : 0 ≤ t / ((n : Int) + 1) ∧ IsInt (t / ((n : Int) + 1))
  mod : 0 ≤ (if j = 0 then t % ((n : Int) + 1) else 0) ∧
    IsInt (if j = 0 then t % ((n : Int) + 1) else 0)

/-- Both portions of a share are `int`s that are not negative, and so is their sum. -/
theorem portions {t : Int} (h0 : 0 < t) (ht : t ≤ INT_MAX) (j : Fin (n + 1)) : Portions n t j := by
  have hpos : (0 : Int) < (n : Int) + 1 := by omega
  have hnum : 0 ≤ t / ((n : Int) + 1) := Int.ediv_nonneg h0.le hpos.le
  have hmod : 0 ≤ t % ((n : Int) + 1) := Int.emod_nonneg t hpos.ne'
  have hdiv : t / ((n : Int) + 1) ≤ t := Int.ediv_le_self _ h0.le
  have hrem : t % ((n : Int) + 1) ≤ t := by
    have hsplit := Int.mul_ediv_add_emod t ((n : Int) + 1)
    have hprod : 0 ≤ ((n : Int) + 1) * (t / ((n : Int) + 1)) := Int.mul_nonneg hpos.le hnum
    omega
  refine ⟨⟨hnum, by unfold IsInt; omega⟩, ?_⟩
  split
  case isTrue => exact ⟨hmod, by unfold IsInt; omega⟩
  case isFalse => exact ⟨Int.le_refl 0, isInt_zero⟩

/-- All counts that wait in the connectors stand for tasks. -/
def NoDebt (c : TcpClient n m) : Prop := ∀ j, (c.conts j).NoDebt

/-- No connector owes more than its share, wrapped or not. -/
theorem account_conts_add_le {t : Int} {j : Fin (n + 1)} (hp : Portions n t j)
    (hwf : (c.conts j).Wf) (h h' : Host) :
    ((c.add h t).conts j).account h' ≤
      (c.conts j).account h' + if h = h' then share n t j else 0 := by
  have hfirst := Connector.account_addWrapped_le (h := h) hwf.hosts hp.num.1 hp.num.2 h'
  have hsecond := Connector.account_addWrapped_le (h := h)
    (hwf.addWrapped h hp.num.2).hosts hp.mod.1 hp.mod.2 h'
  rw [conts_add]
  unfold share
  by_cases hh : h = h'
  · rw [if_pos hh] at hfirst hsecond ⊢
    omega
  · rw [if_neg hh] at hfirst hsecond ⊢
    omega

/-- The sum of the first portion is an `int`, if the one of both is. -/
theorem isInt_first {t : Int} {j : Fin (n + 1)} (hp : Portions n t j) {x : Int} (hx : 0 ≤ x)
    (hsum : IsInt (x + share n t j)) : IsInt (x + t / ((n : Int) + 1)) := by
  have hnum := hp.num.1
  have hmod := hp.mod.1
  unfold share at hsum
  unfold IsInt at hsum ⊢
  omega

/-- Without a wrapped sum it owes its share. -/
theorem account_conts_add_eq {t : Int} {j : Fin (n + 1)} (hp : Portions n t j)
    (hdebt : (c.conts j).NoDebt) {h : Host}
    (hsum : IsInt ((c.conts j).hosts.get h + share n t j)) :
    (∀ h', ((c.add h t).conts j).account h' =
      (c.conts j).account h' + if h = h' then share n t j else 0) ∧
    ((c.add h t).conts j).NoDebt := by
  have hget : 0 ≤ (c.conts j).hosts.get h :=
    Tally.Each.get (p := fun n => 0 ≤ n) (Int.le_refl 0) hdebt h
  have hnum := isInt_first hp hget hsum
  have hdebt' := Connector.noDebt_addWrapped hdebt hp.num.1 hp.num.2 hnum
  have hmod : IsInt (((c.conts j).addWrapped h (t / ((n : Int) + 1))).hosts.get h +
      if j = 0 then t % ((n : Int) + 1) else 0) := by
    rw [Connector.get_addWrapped hp.num.2 hnum, Int.add_assoc]
    exact hsum
  rw [conts_add]
  refine ⟨fun h' => ?_, Connector.noDebt_addWrapped hdebt' hp.mod.1 hp.mod.2 hmod⟩
  rw [Connector.account_addWrapped_eq hdebt' hp.mod.1 hp.mod.2 hmod,
    Connector.account_addWrapped_eq hdebt hp.num.1 hp.num.2 hnum]
  unfold share
  split <;> omega

theorem account_conts_add_lt {t : Int} {j : Fin (n + 1)} (hp : Portions n t j)
    (hwf : (c.conts j).Wf) (hdebt : (c.conts j).NoDebt) {h : Host}
    (hsum : ¬ IsInt ((c.conts j).hosts.get h + share n t j)) :
    ((c.add h t).conts j).account h < (c.conts j).account h + share n t j := by
  have hsecond := Connector.account_addWrapped_le (h := h)
    (hwf.addWrapped h hp.num.2).hosts hp.mod.1 hp.mod.2 h
  rw [if_pos rfl] at hsecond
  rw [conts_add]
  -- the first portion wraps around, or it does not and the second one does
  by_cases hnum : IsInt ((c.conts j).hosts.get h + t / ((n : Int) + 1))
  · have hdebt' := Connector.noDebt_addWrapped hdebt hp.num.1 hp.num.2 hnum
    have hmod : ¬ IsInt (((c.conts j).addWrapped h (t / ((n : Int) + 1))).hosts.get h +
        if j = 0 then t % ((n : Int) + 1) else 0) := by
      rw [Connector.get_addWrapped hp.num.2 hnum, Int.add_assoc]
      exact hsum
    have hlt := Connector.account_addWrapped_lt hdebt' hp.mod.1 hp.mod.2
      (hwf.addWrapped h hp.num.2).hosts hmod
    have heq := Connector.account_addWrapped_eq hdebt hp.num.1 hp.num.2 hnum h
    rw [if_pos rfl] at heq
    unfold share
    omega
  · have hlt := Connector.account_addWrapped_lt hdebt hp.num.1 hp.num.2 hwf.hosts hnum
    unfold share
    omega

/-- No exception leaves the round of a connector, a failure that a worker finds is one of a host that
`connpeer` gives back, and a sum in one of the maps is an `int`. -/
def Counted (c : TcpClient n m) : ClientLabel n m → Prop
  | .add h t => ∀ j, IsInt ((c.conts j).hosts.get h + share n t j)
  | .attempt j sys _ =>
    ∀ h ∈ (c.conts j).task,
      sys.Accepts h ∧ (sys.connect = true ∨ IsInt ((c.conts j).failures.get h + 1))
  | .writable k i soError =>
    ∀ sock ∈ (c.workers k).sockets[i]?, soError = 0 ∨
      (connKey sock.2 = sock.2 ∧ IsInt ((c.workers k).failures.get sock.2 + 1))
  | _ => True

instance (c : TcpClient n m) (l : ClientLabel n m) : Decidable (c.Counted l) := by
  cases l <;> simp only [Counted] <;> infer_instance

/-- The maps of the connectors are well formed, and a socket knows the host it was made for. -/
structure Wf (c : TcpClient n m) : Prop where
  conts : ∀ j, (c.conts j).Wf
  failures : ∀ k, (c.workers k).failures.Each IsInt
  sockets : ∀ k, ∀ sock ∈ (c.workers k).sockets, sock.1.connpeer = connKey sock.2

/-- What a step can do, and when. -/
inductive Step (order : Tally.Order Host) (c : TcpClient n m) :
    ClientLabel n m → TcpClient n m → Prop
  | add (h : Host) (t : Int) (ht : 0 < t ∧ t ≤ INT_MAX) : Step order c (.add h t) (c.add h t)
  | swap (j : Fin (n + 1)) (hnil : (c.conts j).taken = []) : Step order c (.swap j)
      { c with conts := Function.update c.conts j ((c.conts j).swapHosts order) }
  | attempt (j : Fin (n + 1)) (sys : Syscalls) (k : Fin m) (h : Host)
      (ht : (c.conts j).task = some h) : Step order c (.attempt j sys k) (c.attempt j h sys k)
  | erase (j : Fin (n + 1)) (hnone : (c.conts j).task = none) : Step order c (.erase j)
      { c with conts := Function.update c.conts j (c.conts j).erase }
  | writable (k : Fin m) (i : Nat) (soError : Int) (sock : Nsocktcp × Host)
      (hsock : (c.workers k).sockets[i]? = some sock) : Step order c (.writable k i soError)
      { c with
        workers := Function.update c.workers k ((c.workers k).contWritable i sock soError) }

/-- All that a step can do, guards included. -/
theorem step_sound (h : step order c l = some c') : c.aborted = false ∧ Step order c l c' := by
  unfold step at h
  split at h
  case isTrue => cases h
  case isFalse ha =>
    refine ⟨Bool.eq_false_iff.mpr ha, ?_⟩
    cases l with
    | add host t =>
        dsimp only at h
        split at h
        case isTrue ht => exact Option.some.inj h ▸ .add host t ht
        case isFalse => cases h
    | swap j =>
        dsimp only at h
        split at h
        case isTrue hnil => exact Option.some.inj h ▸ .swap j hnil
        case isFalse => cases h
    | attempt j sys k =>
        dsimp only at h
        split at h
        case h_1 host ht => exact Option.some.inj h ▸ .attempt j sys k host ht
        case h_2 => cases h
    | erase j =>
        dsimp only at h
        split at h
        case isTrue hnone => exact Option.some.inj h ▸ .erase j hnone
        case isFalse => cases h
    | writable k i soError =>
        dsimp only at h
        split at h
        case h_1 sock hsock => exact Option.some.inj h ▸ .writable k i soError sock hsock
        case h_2 => cases h

/-! ### What a step does to the balance -/

/-- The balance does not go up with an `add`: `account_conts_add_le`, summed over the connectors. -/
theorem balance_add_le (hwf : c.Wf) (h : Host) {t : Int} (h0 : 0 < t) (ht : t ≤ INT_MAX)
    (h' : Host) : (c.add h t).balance h' ≤ c.balance h' := by
  have hsum : ∑ j, ((c.add h t).conts j).account h' ≤
      ∑ j, ((c.conts j).account h' + if h = h' then share n t j else 0) :=
    Finset.sum_le_sum fun j _ => account_conts_add_le (portions h0 ht j) (hwf.conts j) h h'
  have hworkers : (c.add h t).workers = c.workers := rfl
  have hadded : (c.add h t).added = c.added ++ [(h, t)] := rfl
  unfold balance
  rw [hworkers, hadded, Tally.total_append, Tally.total_cons, Tally.total_nil]
  by_cases hh : h = h'
  · simp only [hh, if_true, Finset.sum_add_distrib, sum_share] at hsum ⊢
    omega
  · simp only [hh, if_false, Int.add_zero] at hsum ⊢
    omega

/-- It stays if no connector's sum wraps around. -/
theorem balance_add_eq (h : Host) {t : Int} (h0 : 0 < t) (ht : t ≤ INT_MAX) (hdebt : c.NoDebt)
    (hsums : ∀ j, IsInt ((c.conts j).hosts.get h + share n t j)) :
    (∀ h', (c.add h t).balance h' = c.balance h') ∧ (c.add h t).NoDebt := by
  have hconts := fun j => account_conts_add_eq (portions h0 ht j) (hdebt j) (hsums j)
  refine ⟨fun h' => ?_, fun j => (hconts j).2⟩
  have hsum : ∑ j, ((c.add h t).conts j).account h' =
      ∑ j, ((c.conts j).account h' + if h = h' then share n t j else 0) :=
    Finset.sum_congr rfl fun j _ => (hconts j).1 h'
  have hworkers : (c.add h t).workers = c.workers := rfl
  have hadded : (c.add h t).added = c.added ++ [(h, t)] := rfl
  unfold balance
  rw [hsum, hworkers, hadded, Tally.total_append, Tally.total_cons, Tally.total_nil]
  by_cases hh : h = h'
  · simp only [hh, if_true, Finset.sum_add_distrib, sum_share]
    omega
  · simp only [hh, if_false, Int.add_zero]

/-- It goes down if one does, since no other makes up for it. -/
theorem balance_add_lt (hwf : c.Wf) (h : Host) {t : Int} (h0 : 0 < t) (ht : t ≤ INT_MAX)
    (hdebt : c.NoDebt) {j : Fin (n + 1)}
    (hsum : ¬ IsInt ((c.conts j).hosts.get h + share n t j)) :
    (c.add h t).balance h < c.balance h := by
  have hle : ∀ j ∈ Finset.univ, ((c.add h t).conts j).account h ≤
      (c.conts j).account h + share n t j := by
    intro j _
    have hone := account_conts_add_le (portions h0 ht j) (hwf.conts j) h h
    rwa [if_pos rfl] at hone
  have hlt := Finset.sum_lt_sum hle ⟨j, Finset.mem_univ j,
    account_conts_add_lt (portions h0 ht j) (hwf.conts j) (hdebt j) hsum⟩
  rw [Finset.sum_add_distrib, sum_share] at hlt
  have hworkers : (c.add h t).workers = c.workers := rfl
  have hadded : (c.add h t).added = c.added ++ [(h, t)] := rfl
  unfold balance
  rw [hworkers, hadded, Tally.total_append, Tally.total_cons, Tally.total_nil, if_pos rfl]
  omega

/-- A round of the inner loop: the task goes to a worker or to the failures; or it throws, and all
the tasks that are left go. -/
theorem balance_attempt {j : Fin (n + 1)} {h : Host} (ht : (c.conts j).task = some h)
    (sys : Syscalls) (k : Fin m) (h' : Host) :
    (c.attempt j h sys k).balance h' = c.balance h' +
      if sys.Accepts h then
        if h = h' then (if sys.connect = true then 0 else gain (c.conts j).failures h 1 - 1) else 0
      else - (c.conts j).left h' := by
  have hspec := connectTask_spec h sys
  unfold attempt
  split
  case h_1 sock succeed hok =>
    rw [hok] at hspec
    obtain ⟨haccepts, rfl, -⟩ := hspec
    rw [if_pos haccepts]
    cases hconnect : sys.connect with
    | false =>
        have hb := balance_conts (c := c) j ((c.conts j).finish h false) h'
        rw [Connector.account_finish ht] at hb
        simp only [Bool.false_eq_true, if_false] at hb ⊢
        rw [hb]
        split <;> omega
    | true =>
        have hw := balance_workers
          (c := { c with conts := Function.update c.conts j ((c.conts j).finish h true) }) k
          { c.workers k with sockets := (c.workers k).sockets ++ [(sock, h)] } h'
        rw [balance_conts, Worker.account_push, Connector.account_finish ht] at hw
        simp only [if_true] at hw ⊢
        rw [hw]
        split <;> omega
  case h_2 e herror =>
    rw [herror] at hspec
    have hb := balance_conts (c := c) j (c.conts j).unwind h'
    rw [Connector.account_unwind] at hb
    rw [if_neg hspec]
    show balance { c with conts := Function.update c.conts j (c.conts j).unwind } h' = _
    omega

/-- The handler of a worker changes the balance of two hosts at most: the one the socket was made
for, and the one that the failure is counted for. -/
theorem balance_writable {k : Fin m} {i : Nat} {sock : Nsocktcp × Host}
    (hsock : (c.workers k).sockets[i]? = some sock) (hkey : sock.1.connpeer = connKey sock.2)
    (soError : Int) (h : Host) :
    balance { c with
        workers := Function.update c.workers k ((c.workers k).contWritable i sock soError) } h =
      c.balance h +
        if soError = 0 then 0
        else (if connKey sock.2 = h then gain (c.workers k).failures (connKey sock.2) 1 else 0) -
          if sock.2 = h then 1 else 0 := by
  rw [balance_workers, Worker.account_contWritable hsock, hkey]
  omega

/-- One connector changes, and stays without debt. -/
theorem noDebt_update {j : Fin (n + 1)} {x : Connector} (hdebt : c.NoDebt) (hx : x.NoDebt) :
    NoDebt { c with conts := Function.update c.conts j x } := by
  intro i
  by_cases hi : i = j
  · subst hi
    simpa using hx
  · simpa [hi] using hdebt i

/-- An attempt takes one task away from what is left, which was there. -/
theorem noDebt_attempt (hdebt : c.NoDebt) (j : Fin (n + 1)) (h : Host) (sys : Syscalls)
    (k : Fin m) : (c.attempt j h sys k).NoDebt := by
  unfold attempt
  split
  case h_1 sock succeed hok => exact noDebt_update hdebt (hdebt j)
  case h_2 => exact noDebt_update hdebt (hdebt j)

/-- The accounts after a step that counts no failure for another host. They do not grow; and as long
as there is no debt, they stay as they are if the step is counted, and one gets short if not. -/
structure Settles (c : TcpClient n m) (l : ClientLabel n m) (c' : TcpClient n m) : Prop where
  le : ∀ h, c'.balance h ≤ c.balance h
  counted : c.NoDebt → c.Counted l → c'.NoDebt ∧ ∀ h, c'.balance h = c.balance h
  short : c.NoDebt → ¬ c.Counted l → ∃ h, c'.balance h < c.balance h

/-! ### A step settles

`Settles` says what is to be shown of each step: the balance stays, or from here on an account is
short. The three kinds of steps are taken one by one, and then together. -/

/-- A step that leaves the accounts alone. -/
theorem settles_of_eq (hcounted : c.Counted l) (hdebt : c.NoDebt → c'.NoDebt)
    (heq : ∀ h, c'.balance h = c.balance h) : Settles c l c' :=
  ⟨fun h => (heq h).le, fun hd _ => ⟨hdebt hd, heq⟩, fun _ hnot => absurd hcounted hnot⟩

/-- An `add` settles: `balance_add_eq` or `balance_add_lt`. -/
theorem settles_add (hwf : c.Wf) (h : Host) {t : Int} (h0 : 0 < t) (ht : t ≤ INT_MAX) :
    Settles c (.add h t) (c.add h t) := by
  refine ⟨balance_add_le hwf h h0 ht, fun hdebt hsums => ?_, fun hdebt hnot => ?_⟩
  · obtain ⟨heq, hdebt'⟩ := balance_add_eq h h0 ht hdebt hsums
    exact ⟨hdebt', heq⟩
  · obtain ⟨j, hj⟩ := not_forall.mp hnot
    exact ⟨h, balance_add_lt hwf h h0 ht hdebt hj⟩

/-- A round of the inner loop settles: it keeps the balance, or it has thrown and left a debt. -/
theorem settles_attempt (hwf : c.Wf) {j : Fin (n + 1)} {h : Host}
    (ht : (c.conts j).task = some h) (sys : Syscalls) (k : Fin m) :
    Settles c (.attempt j sys k) (c.attempt j h sys k) := by
  have hgain : gain (c.conts j).failures h 1 ≤ 1 := gain_le (hwf.conts j).failures (by omega)
  have hcounted : c.Counted (.attempt j sys k) ↔
      sys.Accepts h ∧ (sys.connect = true ∨ IsInt ((c.conts j).failures.get h + 1)) := by
    simp [Counted, ht]
  by_cases hacc : sys.Accepts h
  · have hb : ∀ h', (c.attempt j h sys k).balance h' = c.balance h' + if h = h' then
        (if sys.connect = true then 0 else gain (c.conts j).failures h 1 - 1) else 0 := fun h' => by
      rw [balance_attempt ht, if_pos hacc]
    refine ⟨fun h' => ?_, fun hdebt hc => ⟨noDebt_attempt hdebt j h sys k, fun h' => ?_⟩,
      fun _ hnot => ⟨h, ?_⟩⟩
    · rw [hb]
      split
      · split <;> omega
      · omega
    · rcases (hcounted.mp hc).2 with hconnect | hint
      · simp [hb, hconnect]
      · simp [hb, gain_eq hint]
    · obtain ⟨hconnect, hint⟩ := not_or.mp fun hor => hnot (hcounted.mpr ⟨hacc, hor⟩)
      have hlt := gain_lt (hwf.conts j).failures (by omega : (0 : Int) ≤ 1) hint
      rw [hb, if_pos rfl, if_neg hconnect]
      omega
  -- the exception: `h` has at least the task that was to be tried
  · have hb : ∀ h', (c.attempt j h sys k).balance h' =
        c.balance h' + - (c.conts j).left h' := fun h' => by
      rw [balance_attempt ht, if_neg hacc]
    refine ⟨fun h' => ?_, fun _ hc => absurd (hcounted.mp hc).1 hacc, fun _ _ => ⟨h, ?_⟩⟩
    · have hnonneg := Connector.left_nonneg (hwf.conts j) h'
      rw [hb]
      omega
    · have hpos := Connector.left_pos ht
      rw [hb]
      omega

/-- A worker finds out about a socket: if its failure is counted for the host it was made for. -/
theorem settles_writable (hwf : c.Wf) {k : Fin m} {i : Nat} {sock : Nsocktcp × Host} {soError : Int}
    (hsock : (c.workers k).sockets[i]? = some sock) (hgood : soError = 0 ∨ connKey sock.2 = sock.2) :
    Settles c (.writable k i soError) { c with
      workers := Function.update c.workers k ((c.workers k).contWritable i sock soError) } := by
  have hbal := balance_writable hsock (hwf.sockets k sock (List.mem_of_getElem? hsock)) soError
  have hcounted : c.Counted (.writable k i soError) ↔ soError = 0 ∨
      (connKey sock.2 = sock.2 ∧ IsInt ((c.workers k).failures.get sock.2 + 1)) := by
    simp [Counted, hsock]
  rcases hgood with hz | hk
  · refine settles_of_eq (hcounted.mpr (.inl hz)) id fun h => ?_
    rw [hbal, if_pos hz, Int.add_zero]
  · have hgain : gain (c.workers k).failures sock.2 1 ≤ 1 := gain_le (hwf.failures k) (by omega)
    rw [hk] at hbal
    refine ⟨fun h => ?_, fun hdebt hc => ⟨hdebt, fun h => ?_⟩, fun _ hnot => ⟨sock.2, ?_⟩⟩
    · rw [hbal]
      split
      · omega
      · split <;> omega
    · rcases hcounted.mp hc with hz | ⟨-, hint⟩
      · rw [hbal, if_pos hz, Int.add_zero]
      · rw [hbal, gain_eq hint]
        split
        · omega
        · split <;> omega
    · obtain ⟨hz, hint⟩ := not_or.mp fun hor => hnot (hcounted.mpr hor)
      have hlt := gain_lt (hwf.failures k) (by omega : (0 : Int) ≤ 1) fun h => hint ⟨hk, h⟩
      rw [hbal, if_neg hz, if_pos rfl, if_pos rfl]
      omega

/-- What a step does to the balance; or a failure is counted for another host. -/
theorem balance_step (hwf : c.Wf) (hstep : step order c l = some c') :
    Settles c l c' ∨
    ¬ c.Counted l ∧ ∃ h₀, connKey h₀ ≠ h₀ ∧ ∀ h, c'.balance h ≤
      c.balance h + (if connKey h₀ = h then 1 else 0) - if h₀ = h then 1 else 0 := by
  cases (step_sound hstep).2 with
  | add h t ht => exact .inl (settles_add hwf h ht.1 ht.2)
  | swap j hnil =>
      refine .inl (settles_of_eq trivial (fun hdebt => noDebt_update hdebt nofun) fun h => ?_)
      rw [balance_conts, Connector.account_swapHosts hnil]
      omega
  | attempt j sys k h ht => exact .inl (settles_attempt hwf ht sys k)
  | erase j hnone =>
      refine .inl (settles_of_eq trivial (fun hdebt => noDebt_update hdebt (hdebt j)) fun h => ?_)
      rw [balance_conts, Connector.account_erase (hwf.conts j) hnone]
      omega
  | writable k i soError sock hsock =>
      by_cases hgood : soError = 0 ∨ connKey sock.2 = sock.2
      · exact .inl (settles_writable hwf hsock hgood)
      -- the failure is entered under what `connpeer` gives
      · obtain ⟨hz, hk⟩ := not_or.mp hgood
        have hgain : gain (c.workers k).failures (connKey sock.2) 1 ≤ 1 :=
          gain_le (hwf.failures k) (by omega)
        refine .inr ⟨fun hc => hgood ((hc sock hsock).imp_right And.left), sock.2, hk, fun h => ?_⟩
        rw [balance_writable hsock (hwf.sockets k sock (List.mem_of_getElem? hsock)), if_neg hz]
        split <;> omega

/-! ## Runs -/

/-! ### What is well formed

The map of tasks, the position in it and the sockets, in every state of a run. -/

/-- One party changes and keeps what all have. -/
theorem wf_update {α : Type} {n : Nat} {P : α → Prop} {s : Fin n → α} (h : ∀ i, P (s i))
    {j : Fin n} {x : α} (hx : P x) (i : Fin n) : P (Function.update s j x i) := by
  by_cases hi : i = j
  · subst hi
    simpa using hx
  · simpa [hi] using h i

/-- The rounds of the inner loop keep the maps as they should be; a new socket has the host of its
task. -/
theorem Wf.attempt (hwf : c.Wf) {j : Fin (n + 1)} {h : Host} (ht : (c.conts j).task = some h)
    (sys : Syscalls) (k : Fin m) : (c.attempt j h sys k).Wf := by
  have hspec := connectTask_spec h sys
  unfold TcpClient.attempt
  split
  case h_1 sock succeed hok =>
    rw [hok] at hspec
    have hconts := wf_update (j := j) hwf.conts ((hwf.conts j).finish ht succeed)
    cases succeed with
    | false => exact ⟨hconts, hwf.failures, hwf.sockets⟩
    | true =>
        refine ⟨hconts, ?_, ?_⟩
        · exact wf_update (P := fun w : Worker => w.failures.Each IsInt) hwf.failures
            (hwf.failures k)
        · refine wf_update
            (P := fun w : Worker => ∀ sock ∈ w.sockets, sock.1.connpeer = connKey sock.2)
            hwf.sockets fun sock' hs => ?_
          rcases List.mem_append.mp hs with hs | hs
          · exact hwf.sockets k sock' hs
          · obtain rfl := List.mem_singleton.mp hs
            exact hspec.2.2
  case h_2 => exact ⟨wf_update hwf.conts (hwf.conts j).unwind, hwf.failures, hwf.sockets⟩

/-- By `Wf.addWrapped`, connector by connector. -/
theorem Wf.add (hwf : c.Wf) (h : Host) {t : Int} (h0 : 0 < t) (ht : t ≤ INT_MAX) :
    (c.add h t).Wf := by
  refine ⟨fun j => ?_, hwf.failures, hwf.sockets⟩
  have hp := portions (n := n) h0 ht j
  rw [conts_add]
  exact ((hwf.conts j).addWrapped h hp.num.2).addWrapped h hp.mod.2

/-- A socket that is done is taken out. -/
theorem Wf.writable (hwf : c.Wf) {k : Fin m} {i : Nat} {sock : Nsocktcp × Host} {soError : Int} :
    Wf { c with
      workers := Function.update c.workers k ((c.workers k).contWritable i sock soError) } := by
  rw [Worker.contWritable_eq]
  refine ⟨hwf.conts, ?_, ?_⟩
  · refine wf_update (P := fun w : Worker => w.failures.Each IsInt) hwf.failures ?_
    split
    case isTrue => exact hwf.failures k
    case isFalse => exact (hwf.failures k).addWith isInt_toInt _ _
  · refine wf_update (P := fun w : Worker => ∀ sock ∈ w.sockets, sock.1.connpeer = connKey sock.2)
      hwf.sockets fun sock' hs => ?_
    have hmem : sock' ∈ (c.workers k).sockets.eraseIdx i := by
      split at hs <;> exact hs
    exact hwf.sockets k sock' (List.mem_of_mem_eraseIdx hmem)

theorem Wf.step (hwf : c.Wf) (hstep : TcpClient.step order c l = some c') : c'.Wf := by
  cases (step_sound hstep).2 with
  | add h t ht => exact hwf.add h ht.1 ht.2
  | swap j =>
      exact ⟨wf_update hwf.conts ((hwf.conts j).swapHosts order), hwf.failures, hwf.sockets⟩
  | attempt j sys k h ht => exact hwf.attempt ht sys k
  | erase j => exact ⟨wf_update hwf.conts (hwf.conts j).erase, hwf.failures, hwf.sockets⟩
  | writable k i soError sock hsock => exact hwf.writable

/-! ### The audit of a run -/

/-- The steps so far have all been counted, and the accounts agree; or not, and some account is
short. It is one of a host that no failure is counted for any more; or no failure has been counted
for another host so far, so none is over. -/
structure Audited (order : Tally.Order Host) (ls : List (ClientLabel n m)) (c : TcpClient n m) :
    Prop where
  reached : run (TcpClient.step order) (init n m) ls = some c
  wf : c.Wf
  le : ∀ h, connKey h ≠ h → c.balance h ≤ 0
  counted : AllSteps (TcpClient.step order) Counted (init n m) ls →
    c.NoDebt ∧ ∀ h, c.balance h = 0
  lost : ¬ AllSteps (TcpClient.step order) Counted (init n m) ls →
    (∃ h, connKey h ≠ h ∧ c.balance h < 0) ∨
      (∀ h, c.balance h ≤ 0) ∧ ∃ h, c.balance h < 0

/-- A step after which no account is over that was not. -/
theorem Audited.settles {ls : List (ClientLabel n m)} (hi : Audited order ls c)
    (hrun : run (TcpClient.step order) (init n m) (ls ++ [l]) = some c') (hwf : c'.Wf)
    (hs : Settles c l c') : Audited order (ls ++ [l]) c' := by
  have hall := @allSteps_concat _ _ _ Counted _ _ _ hi.reached l
  refine ⟨hrun, hwf, fun h hk => (hs.le h).trans (hi.le h hk), fun h => ?_, fun h => ?_⟩
  · obtain ⟨hold, hc⟩ := hall.mp h
    obtain ⟨hdebt, hzero⟩ := hi.counted hold
    obtain ⟨hdebt', heq⟩ := hs.counted hdebt hc
    exact ⟨hdebt', fun h' => (heq h').trans (hzero h')⟩
  · by_cases hold : AllSteps (TcpClient.step order) Counted (init n m) ls
    · -- the first step that is not counted
      obtain ⟨hdebt, hzero⟩ := hi.counted hold
      obtain ⟨h', hlt⟩ := hs.short hdebt fun hc => h (hall.mpr ⟨hold, hc⟩)
      exact .inr ⟨fun h' => (hs.le h').trans (hzero h').le, h', hlt.trans_le (hzero h').le⟩
    · rcases hi.lost hold with ⟨h', hk, hneg⟩ | ⟨hle, h', hneg⟩
      · exact .inl ⟨h', hk, (hs.le h').trans_lt hneg⟩
      · exact .inr ⟨fun h' => (hs.le h').trans (hle h'), h', (hs.le h').trans_lt hneg⟩

/-- The step lemma of the run: what was over before is over still, and what this step settles is
settled. -/
theorem Audited.step {ls : List (ClientLabel n m)} (hi : Audited order ls c)
    (hstep : TcpClient.step order c l = some c') : Audited order (ls ++ [l]) c' := by
  have hrun : run (TcpClient.step order) (init n m) (ls ++ [l]) = some c' := by
    rw [run_append, hi.reached, Option.bind_some]
    exact run_cons_of_some hstep
  rcases balance_step hi.wf hstep with hs | ⟨hc, h₀, hkey, hmove⟩
  · exact hi.settles hrun (hi.wf.step hstep) hs
  · -- a failure that is counted for another host: the account of its own gets short
    have hto : ∀ h, connKey h ≠ h → connKey h₀ ≠ h := by
      rintro h hk rfl
      exact hk (connKey_connKey h₀)
    have hall := @allSteps_concat _ _ _ Counted _ _ _ hi.reached l
    refine ⟨hrun, hi.wf.step hstep, fun h hk => ?_, fun h => (hc (hall.mp h).2).elim,
      fun _ => .inl ⟨h₀, hkey, ?_⟩⟩
    · have hold := hi.le h hk
      have hnew := hmove h
      rw [if_neg (hto h hk)] at hnew
      split at hnew <;> omega
    · have hold := hi.le h₀ hkey
      have hnew := hmove h₀
      rw [if_neg hkey, if_pos rfl] at hnew
      omega

theorem balance_init (h : Host) : (init n m).balance h = 0 := by
  have hcont : ∀ j, ((init n m).conts j).account h = 0 := fun _ => rfl
  have hworker : ∀ k, ((init n m).workers k).account h = 0 := fun _ => rfl
  have hadded : Tally.total (init n m).added h = 0 := rfl
  simp [balance, hcont, hworker, hadded]

theorem wf_init (n m : Nat) : (init n m).Wf := by
  refine ⟨fun j => ?_, fun k => ?_, fun k => ?_⟩
  · exact Connector.wf_new
  · exact List.forall_mem_nil _
  · exact List.forall_mem_nil _

/-- By induction on the run, from `Audited.step`. -/
theorem audited {ls : List (ClientLabel n m)}
    (hrun : run (TcpClient.step order) (init n m) ls = some c) : Audited order ls c := by
  have h0 : Audited order [] (init n m) := by
    refine ⟨run_nil _ _, wf_init n m, fun h _ => (balance_init h).le,
      fun _ => ⟨fun j => nofun, balance_init⟩, fun h => (h ?_).elim⟩
    exact allSteps_of_forall nofun _
  simpa using run_hist (TcpClient.step order) (Audited order)
    (fun hist s l s' hi hs => hi.step hs) h0 hrun

/-! ## The accounts -/

/-! ### What the user sees -/

/-- How often `on_connect` has been called for a host. -/
def connects (c : TcpClient n m) (h : Host) : Int := ∑ k, ((c.workers k).connected.count h : Int)

/-- The failures in the tables of the connectors and of the workers. -/
def failures (c : TcpClient n m) (h : Host) : Int :=
  ∑ j, Tally.total (c.conts j).failures h + ∑ k, Tally.total (c.workers k).failures h

/-- The tasks that wait in a connector, or in a worker as a socket. A negative count stands for
none. -/
def pending (c : TcpClient n m) (h : Host) : Int :=
  ∑ j, (Tally.positives (c.conts j).hosts h + (c.conts j).left h) +
    ∑ k, (((c.workers k).sockets.map Prod.snd).count h : Int)

/-- All tasks have been processed. -/
def Done (c : TcpClient n m) : Prop :=
  (∀ j, (c.conts j).hosts = [] ∧ (c.conts j).taken = []) ∧ ∀ k, (c.workers k).sockets = []

instance (c : TcpClient n m) : Decidable c.Done := inferInstanceAs (Decidable (_ ∧ _))

theorem balance_eq (c : TcpClient n m) (h : Host) :
    c.balance h = c.connects h + c.failures h + c.pending h - Tally.total c.added h := by
  simp only [balance, connects, failures, pending, Connector.account, Worker.account,
    Finset.sum_add_distrib]
  omega

/-- When all is done, nothing is under way. -/
theorem pending_of_done (hd : c.Done) (h : Host) : c.pending h = 0 := by
  have hconts : ∀ j, Tally.positives (c.conts j).hosts h + (c.conts j).left h = 0 := fun j => by
    rw [(hd.1 j).1, Connector.left_of_taken_nil (hd.1 j).2]
    rfl
  have hworkers : ∀ k, (((c.workers k).sockets.map Prod.snd).count h : Int) = 0 := fun k => by
    rw [hd.2 k]
    rfl
  simp [pending, hconts, hworkers]

/-- **The accounts of a client.** In every state of a run each host has as many calls of
`on_connect`, failures and waiting tasks as have been added, if and only if every step so far was
counted; and when all tasks have been processed, as many calls and failures. The invariant is
`Audited`: what has got short once is never made up for. -/
theorem accounts_iff (n m : Nat) (order : Tally.Order Host) (ls : List (ClientLabel n m))
    (c : TcpClient n m) (hrun : run (TcpClient.step order) (init n m) ls = some c) :
    (AllSteps (TcpClient.step order) Counted (init n m) ls ↔
      ∀ h, Tally.total c.added h = c.connects h + c.failures h + c.pending h) ∧
    (c.Done → (AllSteps (TcpClient.step order) Counted (init n m) ls ↔
      ∀ h, Tally.total c.added h = c.connects h + c.failures h)) := by
  have haudited := audited hrun
  have hall : AllSteps (TcpClient.step order) Counted (init n m) ls ↔ ∀ h, c.balance h = 0 := by
    refine ⟨fun hall => (haudited.counted hall).2, fun hzero => by_contra fun hnot => ?_⟩
    rcases haudited.lost hnot with ⟨h, -, hneg⟩ | ⟨-, h, hneg⟩
    · exact hneg.ne (hzero h)
    · exact hneg.ne (hzero h)
  refine ⟨hall.trans (forall_congr' fun h => ?_), fun hd => hall.trans (forall_congr' fun h => ?_)⟩
  · rw [balance_eq]
    omega
  · rw [balance_eq, pending_of_done hd]
    omega

def server : Host := ("10.0.0.1", 80, .ipv4)

/-- Three tasks on two connectors: one connects, one fails at once, one fails in the end. -/
def threeTasks : List (ClientLabel 1 1) :=
  let i : Fin 2 := ⟨0, Nat.zero_lt_two⟩
  let j : Fin 2 := ⟨1, Nat.one_lt_two⟩
  let w : Fin 1 := ⟨0, Nat.one_pos⟩
  [.add server 3, .swap i, .attempt i ⟨.ok 5, .ok, true⟩ w, .attempt i ⟨.ok 6, .ok, false⟩ w,
    .erase i, .swap j, .attempt j ⟨.ok 7, .ok, true⟩ w, .erase j, .writable w 0 0,
    .writable w 0 111]

theorem accounts_iff_three :
    ∃ c, run (TcpClient.step (.listed Host)) (init 1 1) threeTasks = some c ∧ c.Done ∧
      c.connects server = 1 ∧ ∀ h, Tally.total c.added h = c.connects h + c.failures h := by
  have hmap : (run (TcpClient.step (.listed Host)) (init 1 1) threeTasks).map
      (fun c => decide (c.Done ∧ c.connects server = 1)) = some true := by
    decide +kernel
  obtain ⟨c, hc, hview⟩ := Option.map_eq_some_iff.mp hmap
  obtain ⟨hd, hone⟩ := of_decide_eq_true hview
  exact ⟨c, hc, hd, hone, ((accounts_iff 1 1 (.listed Host) threeTasks c hc).2 hd).mp (by decide +kernel)⟩

/-- A socket of the family `local` whose connection fails in the end. -/
def lateFailure : List (ClientLabel 0 1) :=
  let i : Fin 1 := ⟨0, Nat.one_pos⟩
  [.add ("/tmp/socket", 0, .local) 1, .swap i, .attempt i ⟨.ok 5, .ok, true⟩ i, .erase i,
    .writable i 0 111]

/-- Its failure is counted for port -1, but the host was added with port 0. -/
theorem accounts_short :
    ¬ ∀ (n m : Nat) (order : Tally.Order Host) (ls : List (ClientLabel n m)) (c : TcpClient n m),
      run (TcpClient.step order) (init n m) ls = some c → c.Done →
      ∀ h, Tally.total c.added h = c.connects h + c.failures h := by
  intro hclaim
  have hmap : (run (TcpClient.step (.listed Host)) (init 0 1) lateFailure).map
      (fun c => decide (c.Done ∧ Tally.total c.added ("/tmp/socket", 0, .local) = 1 ∧
        c.connects ("/tmp/socket", 0, .local) = 0 ∧
        c.failures ("/tmp/socket", 0, .local) = 0)) = some true := by
    decide +kernel
  obtain ⟨c, hc, hview⟩ := Option.map_eq_some_iff.mp hmap
  obtain ⟨hd, hadded, hconnects, hfailures⟩ := of_decide_eq_true hview
  have hsum := hclaim 0 1 (.listed Host) lateFailure c hc hd ("/tmp/socket", 0, .local)
  omega

end TcpClient

end Cppev
