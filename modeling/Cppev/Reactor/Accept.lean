import Mathlib.Data.List.Perm.Basic
import Cppev.Reactor.Basic
import Cppev.Utils.Strings

/-!
# Accepting connections

`nsocktcp::accept` and `acceptor::on_acpt_readable`. Each `::accept` of the kernel takes the next
answer of a script; a script that has run out answers `EAGAIN`.

`accept` collects the new connections in a vector. It ends with the batch, at `EAGAIN`, and at every
other error by an exception, which destroys the vector and with it the connections.

* `kept_iff`: every connection that the kernel has returned comes to a worker, unless another error
  than `EAGAIN` follows it in the batch, or the workers have no room for it.
-/

namespace Cppev

/-! ## `accept` -/

/-- What one `::accept` answers. -/
inductive AcceptResult where
  | fd (fd : Int)
  | err (e : Errno)
  deriving DecidableEq, Repr

/-- What a call of `accept` leaves: the vector or an exception, the open descriptors, and the
answers not used. -/
structure AcceptOut where
  result : Except Exn (List Nsocktcp)
  opened : Int → Bool
  rest : List AcceptResult

namespace Nsocktcp

/-- `nsocktcp(sockfd, family_)`, with the path of a local socket. -/
def accepted (s : Nsocktcp) (sockfd : Int) : Nsocktcp :=
  let sock := Nsocktcp.new sockfd (.accepted s.family)
  if s.family = .local then { sock with peer := s.peer } else sock

/-- The descriptors after sockets have been destroyed. -/
def destroyed (opened : Int → Bool) (socks : List Nsocktcp) (fd : Int) : Bool :=
  opened fd && socks.all fun sock => sock.fd ≠ fd

/-- The loop of `accept`, with what it has collected so far. -/
def acceptLoop (s : Nsocktcp) : Nat → List Nsocktcp → (Int → Bool) → List AcceptResult → AcceptOut
  | 0, sockfds, opened, script => ⟨.ok sockfds, opened, script⟩
  | _ + 1, sockfds, opened, [] => ⟨.ok sockfds, opened, []⟩
  | n + 1, sockfds, opened, .fd sockfd :: rest =>
    acceptLoop s n (sockfds ++ [s.accepted sockfd]) (Function.update opened sockfd true) rest
  | _ + 1, sockfds, opened, .err e :: rest =>
    if e = .EAGAIN then ⟨.ok sockfds, opened, rest⟩
    else ⟨.error (.systemError "accept error" e), destroyed opened sockfds, rest⟩

def accept (s : Nsocktcp) (batch : Int) (opened : Int → Bool) (script : List AcceptResult) :
    AcceptOut :=
  s.acceptLoop batch.toNat [] opened script

end Nsocktcp

/-! ## The workers

A worker is a table of handlers and the descriptors in its epoll set. A null pointer where a worker
should be ends the process. -/

/-- A loop of the thread pool, with its epoll set. -/
structure IoWorker where
  evl : EventLoop IoHandler
  epoll : Int → Option EpollEvents

/-- What the acceptor shares with the workers; `next` is the identity of the next connection. -/
structure Workers where
  opened : Int → Bool
  evls : List IoWorker
  next : ConnId

/-- `ev_loads`, the size of the table as an `int`. -/
def IoWorker.evLoads (w : IoWorker) : Int := toInt w.evl.fds.length

namespace Workers

/-- The loop of `minloads_get_evlp`, from the `i`-th worker on. -/
def minloadsLoop (i : Nat) (minloads : Int) (best : Option Nat) : List IoWorker → Option Nat
  | [] => best
  | w :: ws =>
    if w.evLoads < minloads then minloadsLoop (i + 1) w.evLoads (some i) ws
    else minloadsLoop (i + 1) minloads best ws

/-- `none` is the null pointer. -/
def minloadsGetEvlp (p : Workers) : Option Nat := minloadsLoop 0 INT_MAX none p.evls

/-- `fd_register` of a new connection with `on_acpt_writable`. It throws with the entry in the
table. -/
def fdRegister (opened : Int → Bool) (w : IoWorker) (c : ConnId) (fd : Int) :
    Except Exn Unit × IoWorker :=
  let evl := w.evl.emplace ⟨fd, .p0, c, .onAcptWritable, .fdWritable⟩
  match Kernel.ctlAdd ⟨opened, w.epoll⟩ fd (fdMapToSys .fdWritable) with
  | .ok k => (.ok (), ⟨evl, k.epoll⟩)
  | .error e =>
    (.error (.systemError ("epoll_ctl add error for fd " ++ toString fd) e), ⟨evl, w.epoll⟩)

/-- The `for` loop of `on_acpt_readable`. The vector goes when it is left; a connection then stays
open by the entry of a worker. `none` follows a null pointer. -/
def registerAll (p : Workers) : List Nsocktcp → Option (Except Exn Unit × Workers)
  | [] => some (.ok (), p)
  | conn :: conns =>
    match p.minloadsGetEvlp with
    | none => none
    | some i =>
      match p.evls[i]? with
      | none => none
      | some w =>
        let (r, w) := fdRegister p.opened w p.next conn.fd
        let p := { p with evls := p.evls.set i w, next := p.next + 1 }
        match r with
        | .ok () => registerAll p conns
        | .error e => some (.error e, { p with opened := Nsocktcp.destroyed p.opened conns })

/-- `on_acpt_readable`, which calls `accept` with the default batch `INT_MAX`. -/
def onAcptReadable (iopt : Nsocktcp) (batch : Int) (p : Workers) (script : List AcceptResult) :
    Option (Except Exn Unit × Workers) :=
  let out := iopt.accept batch p.opened script
  match out.result with
  | .error e => some (.error e, { p with opened := out.opened })
  | .ok conns => registerAll { p with opened := out.opened } conns

end Workers

/-! ## What arrives

The batch as the kernel gives it: what comes before the first answer that is no descriptor. -/

/-- The descriptors that one call of `accept` gets from the kernel, and the error behind them. -/
def arrivals : Nat → List AcceptResult → List Int × Option Errno
  | 0, _ => ([], none)
  | _ + 1, [] => ([], none)
  | n + 1, .fd fd :: rest => (fd :: (arrivals n rest).1, (arrivals n rest).2)
  | _ + 1, .err e :: _ => ([], some e)

/-- The batch is full, or nothing is left for now. -/
def Settled (stop : Option Errno) : Prop := stop = none ∨ stop = some .EAGAIN

instance (stop : Option Errno) : Decidable (Settled stop) :=
  inferInstanceAs (Decidable (_ ∨ _))

def openAll (opened : Int → Bool) (fds : List Int) (fd : Int) : Bool :=
  opened fd || decide (fd ∈ fds)

@[simp] theorem openAll_nil (opened : Int → Bool) : openAll opened [] = opened := by
  funext fd
  simp [openAll]

theorem openAll_update (opened : Int → Bool) (fd : Int) (fds : List Int) :
    openAll (Function.update opened fd true) fds = openAll opened (fd :: fds) := by
  funext x
  by_cases hx : x = fd
  · simp [openAll, hx]
  · simp [openAll, hx]

namespace Nsocktcp

variable (s : Nsocktcp)

/-- The object has the descriptor it was made for. -/
@[simp] theorem fd_accepted (sockfd : Int) : (s.accepted sockfd).fd = sockfd := by
  unfold accepted
  split <;> rfl

/-- `accept` gives back what has arrived, or throws and closes it. -/
theorem acceptLoop_spec (n : Nat) (sockfds : List Nsocktcp) (opened : Int → Bool)
    (script : List AcceptResult) :
    let a := arrivals n script
    let out := s.acceptLoop n sockfds opened script
    let socks := sockfds ++ a.1.map s.accepted
    (Settled a.2 → out.result = .ok socks ∧ out.opened = openAll opened a.1) ∧
      ∀ e, a.2 = some e → e ≠ .EAGAIN → out.result = .error (.systemError "accept error" e) ∧
        out.opened = destroyed (openAll opened a.1) socks := by
  -- along the batch
  induction n generalizing sockfds opened script with
  | zero =>
      refine ⟨fun _ => ?_, fun e he => nomatch he⟩
      simp [acceptLoop, arrivals]
  | succ n ih =>
      cases script with
      | nil =>
          refine ⟨fun _ => ?_, fun e he => nomatch he⟩
          simp [acceptLoop, arrivals]
      | cons r rest =>
          cases r with
          | fd sockfd =>
              have hrest := ih (sockfds ++ [s.accepted sockfd])
                (Function.update opened sockfd true) rest
              simp only [openAll_update, List.append_assoc] at hrest
              exact hrest
          | err e =>
              constructor
              · intro hsettled
                have hstop : some e = some .EAGAIN := hsettled.resolve_left (by simp [arrivals])
                obtain rfl := Option.some.inj hstop
                simp [acceptLoop, arrivals]
              · intro e' he' hne
                obtain rfl := Option.some.inj he'
                simp [acceptLoop, arrivals, hne]

end Nsocktcp

namespace Workers

/-! ## Handing over to the workers

A connection is registered with the worker that has the least load. There is one, unless all of them
have a load of `INT_MAX`, which is where `minloads` begins. -/

/-- The worker waits for `fd` with the handler of a new connection. -/
structure Serves (w : IoWorker) (fd : Int) : Prop where
  entry : ∃ e ∈ w.evl.fds, e.fd = fd ∧ e.handler = .onAcptWritable ∧ e.ev = .fdWritable
  interest : w.epoll fd = some (fdMapToSys .fdWritable)

def Registered (p : Workers) (fd : Int) : Prop := ∃ w ∈ p.evls, Serves w fd

/-- How many connections the workers can take: `minloads_get_evlp` does not see a worker with
`INT_MAX` entries. -/
def room (p : Workers) : Nat := (p.evls.map fun w => (INT_MAX - w.evLoads).toNat).sum

/-- Either no worker has less than `minloads`, or the loop finds one that has, and none has less. -/
theorem minloadsLoop_min (ws : List IoWorker) (i : Nat) (minloads : Int) (best : Option Nat) :
    (minloadsLoop i minloads best ws = best ∧ ∀ w ∈ ws, minloads ≤ w.evLoads) ∨
      ∃ j w, ws[j]? = some w ∧ w.evLoads < minloads ∧
        minloadsLoop i minloads best ws = some (i + j) ∧ ∀ v ∈ ws, w.evLoads ≤ v.evLoads := by
  induction ws generalizing i minloads best with
  | nil => exact Or.inl ⟨rfl, by simp⟩
  | cons w ws ih =>
      have hshift : ∀ j, i + 1 + j = i + (j + 1) := by omega
      simp only [minloadsLoop]
      by_cases hless : w.evLoads < minloads
      · rw [if_pos hless]
        right
        rcases ih (i + 1) w.evLoads (some i) with ⟨hres, hall⟩ | ⟨j, v, hv, hload, hres, hall⟩
        · exact ⟨0, w, rfl, hless, hres, List.forall_mem_cons.mpr ⟨le_rfl, hall⟩⟩
        · exact ⟨j + 1, v, hv, hload.trans hless, by rw [hres, hshift],
            List.forall_mem_cons.mpr ⟨hload.le, hall⟩⟩
      · rw [if_neg hless]
        rcases ih (i + 1) minloads best with ⟨hres, hall⟩ | ⟨j, v, hv, hload, hres, hall⟩
        · exact Or.inl ⟨hres, List.forall_mem_cons.mpr ⟨Int.not_lt.mp hless, hall⟩⟩
        · have hv' : v.evLoads ≤ w.evLoads := hload.le.trans (Int.not_lt.mp hless)
          exact Or.inr ⟨j + 1, v, hv, hload, by rw [hres, hshift],
            List.forall_mem_cons.mpr ⟨hv', hall⟩⟩

/-- The loop over the workers, from any index on. -/
theorem minloadsLoop_spec (ws : List IoWorker) (i : Nat) (minloads : Int) (best : Option Nat) :
    (minloadsLoop i minloads best ws = best ∧ ∀ w ∈ ws, minloads ≤ w.evLoads) ∨
      ∃ j w, ws[j]? = some w ∧ w.evLoads < minloads ∧
        minloadsLoop i minloads best ws = some (i + j) :=
  (minloadsLoop_min ws i minloads best).imp_right
    fun ⟨j, w, hw, hload, hres, _⟩ => ⟨j, w, hw, hload, hres⟩

/-- It finds a worker if there is room. -/
theorem minloadsGetEvlp_spec (p : Workers) :
    (p.minloadsGetEvlp = none ∧ p.room = 0) ∨
      ∃ i w, p.evls[i]? = some w ∧ w.evLoads < INT_MAX ∧ p.minloadsGetEvlp = some i := by
  rcases minloadsLoop_spec p.evls 0 INT_MAX none with ⟨hnone, hall⟩ | ⟨j, w, hw, hload, hres⟩
  · refine Or.inl ⟨hnone, List.sum_eq_zero_iff_forall_eq_nat.mpr ?_⟩
    intro n hn
    obtain ⟨w, hw, rfl⟩ := List.mem_map.mp hn
    have := hall w hw
    omega
  · exact Or.inr ⟨j, w, hw, hload, by rw [minloadsGetEvlp, hres, Nat.zero_add]⟩

/-! ### A worker that takes a connection -/

/-- The worker with a connection more. -/
def take (w : IoWorker) (c : ConnId) (fd : Int) : IoWorker :=
  ⟨w.evl.emplace ⟨fd, .p0, c, .onAcptWritable, .fdWritable⟩,
    Function.update w.epoll fd (some (fdMapToSys .fdWritable))⟩

/-- The workers when the `i`-th of them has taken a connection. -/
def hand (p : Workers) (i : Nat) (w : IoWorker) (fd : Int) : Workers :=
  { p with evls := p.evls.set i (take w p.next fd), next := p.next + 1 }

/-- A descriptor that is open and new to epoll. -/
theorem fdRegister_ok {opened : Int → Bool} {w : IoWorker} {c : ConnId} {fd : Int}
    (hopen : opened fd = true) (hfree : w.epoll fd = none) :
    fdRegister opened w c fd = (.ok (), take w c fd) := by
  simp [fdRegister, Kernel.ctlAdd, take, hopen, hfree]

/-- The worker serves what it has taken, and what it served before. -/
theorem serves_take (w : IoWorker) (c : ConnId) (fd : Int) {fd' : Int}
    (h : fd' = fd ∨ Serves w fd') : Serves (take w c fd) fd' := by
  by_cases hfd : fd' = fd
  · subst hfd
    exact ⟨⟨_, List.mem_append_right _ List.mem_cons_self, rfl, rfl, rfl⟩,
      Function.update_self _ _ _⟩
  · obtain ⟨⟨e, he, hentry⟩, hinterest⟩ := h.resolve_left hfd
    exact ⟨⟨e, List.mem_append_left _ he, hentry⟩,
      (Function.update_of_ne hfd _ _).trans hinterest⟩

/-- The load goes up by one, as long as it is below `INT_MAX`. -/
theorem toInt_succ {n : Nat} (h : toInt n < INT_MAX) : toInt (n + 1 : Nat) = toInt n + 1 := by
  simp only [toInt, INT_MAX, Int.bmod_def] at h ⊢
  omega

/-- The load of a worker that takes a connection. -/
theorem evLoads_take {w : IoWorker} (h : w.evLoads < INT_MAX) (c : ConnId) (fd : Int) :
    (take w c fd).evLoads = w.evLoads + 1 := by
  have hlen : (take w c fd).evl.fds.length = w.evl.fds.length + 1 := by
    simp [take, EventLoop.emplace]
  rw [IoWorker.evLoads, hlen]
  exact toInt_succ h

variable {p : Workers} {i : Nat} {w : IoWorker} {conn : Nsocktcp} {conns : List Nsocktcp}

/-- There is room for one connection less. -/
theorem room_hand (hw : p.evls[i]? = some w) (hload : w.evLoads < INT_MAX) (fd : Int) :
    p.room = (p.hand i w fd).room + 1 := by
  obtain ⟨hi, rfl⟩ := List.getElem?_eq_some_iff.mp hw
  let left (w : IoWorker) : Nat := (INT_MAX - w.evLoads).toNat
  have hbefore : p.room = left p.evls[i] + ((p.evls.eraseIdx i).map left).sum := by
    rw [← List.sum_cons, ← List.map_cons]
    exact ((List.getElem_cons_eraseIdx_perm hi).symm.map left).sum_nat
  have hafter : (p.hand i p.evls[i] fd).room =
      left (take p.evls[i] p.next fd) + ((p.evls.eraseIdx i).map left).sum := by
    rw [← List.sum_cons, ← List.map_cons]
    exact ((List.set_perm_cons_eraseIdx hi _).map left).sum_nat
  have hone : left p.evls[i] = left (take p.evls[i] p.next fd) + 1 := by
    show (INT_MAX - p.evls[i].evLoads).toNat =
      (INT_MAX - (take p.evls[i] p.next fd).evLoads).toNat + 1
    rw [evLoads_take hload]
    generalize INT_MAX = max at hload ⊢
    omega
  omega

/-- A worker is still there, unless it is the one that has taken the connection. -/
theorem mem_hand (hw : p.evls[i]? = some w) (fd : Int) {v : IoWorker} (hv : v ∈ p.evls) :
    v = w ∨ v ∈ (p.hand i w fd).evls := by
  obtain ⟨j, hj⟩ := List.mem_iff_getElem?.mp hv
  by_cases hij : i = j
  · subst hij
    exact Or.inl (Option.some.inj (hj.symm.trans hw))
  · refine Or.inr (List.mem_iff_getElem?.mpr ⟨j, ?_⟩)
    rw [hand, List.getElem?_set_ne hij, hj]

/-- The worker that has taken it is there. -/
theorem take_mem_hand (hw : p.evls[i]? = some w) (fd : Int) :
    take w p.next fd ∈ (p.hand i w fd).evls :=
  List.mem_set (List.getElem?_eq_some_iff.mp hw).1 _

theorem registered_hand (hw : p.evls[i]? = some w) {fd fd' : Int}
    (h : fd' = fd ∨ p.Registered fd') : (p.hand i w fd).Registered fd' := by
  rcases h with rfl | ⟨v, hv, hserves⟩
  · exact ⟨_, take_mem_hand hw fd', serves_take w _ _ (Or.inl rfl)⟩
  · rcases mem_hand hw fd hv with rfl | hv
    · exact ⟨_, take_mem_hand hw fd, serves_take v _ _ (Or.inr hserves)⟩
    · exact ⟨v, hv, hserves⟩

/-! ### All of them -/

/-- The connections are open, and new to the workers. -/
structure Ready (p : Workers) (conns : List Nsocktcp) : Prop where
  opened : ∀ conn ∈ conns, p.opened conn.fd = true
  nodup : (conns.map (·.fd)).Nodup
  free : ∀ conn ∈ conns, ∀ w ∈ p.evls, w.epoll conn.fd = none

/-- When one is handed over, the others are still new. -/
theorem Ready.hand (h : Ready p (conn :: conns)) (hw : p.evls[i]? = some w) :
    Ready (p.hand i w conn.fd) conns := by
  have hnodup := h.nodup
  rw [List.map_cons, List.nodup_cons] at hnodup
  refine ⟨fun c hc => h.opened c (List.mem_cons_of_mem _ hc), hnodup.2, ?_⟩
  intro c hc v hv
  have hfree := h.free c (List.mem_cons_of_mem _ hc)
  rcases List.mem_or_eq_of_mem_set hv with hv | rfl
  · exact hfree v hv
  · have hne : c.fd ≠ conn.fd := fun heq => hnodup.1 (heq ▸ List.mem_map_of_mem hc)
    exact (Function.update_of_ne hne _ _).trans (hfree w (List.mem_of_getElem? hw))

/-- The first of them, and then the others. -/
theorem registerAll_cons (h : Ready p (conn :: conns)) (hw : p.evls[i]? = some w)
    (hmin : p.minloadsGetEvlp = some i) :
    p.registerAll (conn :: conns) = (p.hand i w conn.fd).registerAll conns := by
  have hok := fdRegister_ok (c := p.next) (h.opened conn List.mem_cons_self)
    (h.free conn List.mem_cons_self w (List.mem_of_getElem? hw))
  rw [registerAll, hmin]
  simp only [hw, hok]
  rfl

/-- Every connection finds a worker if there is room for all of them, and otherwise one meets a null
pointer. -/
theorem registerAll_spec (h : Ready p conns) :
    (conns.length ≤ p.room → ∃ q, p.registerAll conns = some (.ok (), q) ∧ q.opened = p.opened ∧
      ∀ fd, p.Registered fd ∨ fd ∈ conns.map (·.fd) → q.Registered fd) ∧
    (p.room < conns.length → p.registerAll conns = none) := by
  induction conns generalizing p with
  | nil =>
      refine ⟨fun _ => ⟨p, rfl, rfl, ?_⟩, fun hlt => absurd hlt (Nat.not_lt_zero _)⟩
      exact fun fd hfd => hfd.resolve_right List.not_mem_nil
  | cons conn conns ih =>
      rcases minloadsGetEvlp_spec p with ⟨hnone, hroom⟩ | ⟨i, w, hw, hload, hmin⟩
      · refine ⟨fun hle => ?_, fun _ => by rw [registerAll, hnone]⟩
        rw [hroom, List.length_cons] at hle
        exact absurd hle (Nat.not_succ_le_zero _)
      · obtain ⟨henough, hfull⟩ := ih (h.hand hw)
        rw [registerAll_cons h hw hmin, room_hand hw hload conn.fd, List.length_cons]
        constructor
        · intro hle
          obtain ⟨q, hq, hopened, hreg⟩ := henough (Nat.le_of_succ_le_succ hle)
          refine ⟨q, hq, hopened, fun fd hfd => hreg fd ?_⟩
          -- what was registered before, this connection, or one of the others
          rcases hfd with hfd | hfd
          · exact Or.inl (registered_hand hw (Or.inr hfd))
          · rcases List.mem_cons.mp hfd with rfl | hfd
            · exact Or.inl (registered_hand hw (Or.inl rfl))
            · exact Or.inr hfd
        · exact fun hlt => hfull (Nat.lt_of_succ_lt_succ hlt)

/-! ## The theorem

A connection is kept if it is registered and open afterwards; it is closed if the exception of
`accept` destroys the vector. -/

/-- The kernel hands out descriptors that are not in use, each once. -/
structure Fresh (p : Workers) (fds : List Int) : Prop where
  nodup : fds.Nodup
  closed : ∀ fd ∈ fds, p.opened fd = false
  unknown : ∀ fd ∈ fds, ∀ w ∈ p.evls, w.epoll fd = none

/-- What becomes of a connection that the kernel has returned to `accept`: it is given back, open,
and registered with a worker. -/
structure Kept (iopt : Nsocktcp) (batch : Int) (p : Workers) (script : List AcceptResult)
    (q : Workers) (fd : Int) : Prop where
  given : ∃ conns, (iopt.accept batch p.opened script).result = .ok conns ∧
    ∃ conn ∈ conns, conn.fd = fd
  still_open : q.opened fd = true
  registered : q.Registered fd

variable {iopt : Nsocktcp} {batch : Int} {script : List AcceptResult}

theorem map_fd_accepted (iopt : Nsocktcp) (fds : List Int) :
    (fds.map iopt.accepted).map (·.fd) = fds := by
  rw [List.map_map]
  exact List.map_id'' (fun fd => Nsocktcp.fd_accepted iopt fd) fds

theorem Fresh.ready {fds : List Int} (h : p.Fresh fds) (iopt : Nsocktcp) :
    Ready { p with opened := openAll p.opened fds } (fds.map iopt.accepted) := by
  refine ⟨?_, ?_, ?_⟩
  · intro conn hconn
    obtain ⟨fd, hfd, rfl⟩ := List.mem_map.mp hconn
    simp [openAll, hfd]
  · rw [map_fd_accepted]
    exact h.nodup
  · intro conn hconn w hw
    obtain ⟨fd, hfd, rfl⟩ := List.mem_map.mp hconn
    rw [Nsocktcp.fd_accepted]
    exact h.unknown fd hfd w hw

/-- What `accept` gives back is registered. -/
theorem onAcptReadable_settled (hsettled : Settled (arrivals batch.toNat script).2) :
    p.onAcptReadable iopt batch script =
      registerAll { p with opened := openAll p.opened (arrivals batch.toNat script).1 }
        ((arrivals batch.toNat script).1.map iopt.accepted) := by
  obtain ⟨hresult, hopened⟩ :=
    (Nsocktcp.acceptLoop_spec iopt batch.toNat [] p.opened script).1 hsettled
  simp only [onAcptReadable, Nsocktcp.accept, hresult, hopened, List.nil_append]

/-- If `accept` returns and there is room, all are kept. -/
theorem kept_of_settled (hfresh : p.Fresh (arrivals batch.toNat script).1)
    (hsettled : Settled (arrivals batch.toNat script).2)
    (hroom : (arrivals batch.toNat script).1.length ≤ p.room) :
    ∃ q, p.onAcptReadable iopt batch script = some (.ok (), q) ∧
      ∀ fd ∈ (arrivals batch.toNat script).1, Kept iopt batch p script q fd := by
  have hresult :=
    ((Nsocktcp.acceptLoop_spec iopt batch.toNat [] p.opened script).1 hsettled).1
  obtain ⟨q, hq, hqopen, hqreg⟩ := (registerAll_spec (hfresh.ready iopt)).1 (by
    rw [List.length_map]
    exact hroom)
  refine ⟨q, (onAcptReadable_settled hsettled).trans hq, fun fd hfd => ⟨?_, ?_, ?_⟩⟩
  · refine ⟨_, hresult, iopt.accepted fd, ?_, Nsocktcp.fd_accepted iopt fd⟩
    exact List.mem_append_right _ (List.mem_map_of_mem hfd)
  · rw [hqopen]
    simp [openAll, hfd]
  · apply hqreg
    right
    rw [map_fd_accepted]
    exact hfd

/-- The exception closes what has arrived before it. -/
theorem closed_of_thrown {e : Errno} (he : (arrivals batch.toNat script).2 = some e)
    (hne : e ≠ .EAGAIN) :
    ∃ q, p.onAcptReadable iopt batch script = some (.error (.systemError "accept error" e), q) ∧
      ∀ fd ∈ (arrivals batch.toNat script).1, q.opened fd = false := by
  obtain ⟨hresult, hopened⟩ :=
    (Nsocktcp.acceptLoop_spec iopt batch.toNat [] p.opened script).2 e he hne
  refine ⟨_, by simp only [onAcptReadable, Nsocktcp.accept, hresult, hopened]; rfl, ?_⟩
  intro fd hfd
  show (_ && _) = false
  rw [Bool.and_eq_false_iff]
  right
  rw [List.all_eq_false]
  exact ⟨iopt.accepted fd, List.mem_append_right _ (List.mem_map_of_mem hfd), by simp⟩

/-- **When no connection is dropped.** For every batch and every script: if and only if none has
arrived, or no other error than `EAGAIN` comes behind them and the workers have room. -/
theorem kept_iff (hfresh : p.Fresh (arrivals batch.toNat script).1) :
    (∃ r q, p.onAcptReadable iopt batch script = some (r, q) ∧
      ∀ fd ∈ (arrivals batch.toNat script).1, Kept iopt batch p script q fd) ↔
      (arrivals batch.toNat script).1 = [] ∨ (Settled (arrivals batch.toNat script).2 ∧
        (arrivals batch.toNat script).1.length ≤ p.room) := by
  by_cases hsettled : Settled (arrivals batch.toNat script).2
  · by_cases hroom : (arrivals batch.toNat script).1.length ≤ p.room
    · obtain ⟨q, hq, hkept⟩ := @kept_of_settled p iopt batch script hfresh hsettled hroom
      exact iff_of_true ⟨_, q, hq, hkept⟩ (Or.inr ⟨hsettled, hroom⟩)
    · -- a null pointer
      have hnone : p.onAcptReadable iopt batch script = none := by
        rw [onAcptReadable_settled hsettled]
        apply (registerAll_spec (hfresh.ready iopt)).2
        rw [List.length_map]
        exact Nat.not_le.mp hroom
      refine iff_of_false ?_ ?_
      · rintro ⟨r, q, hq, -⟩
        rw [hnone] at hq
        cases hq
      · rintro (hnil | ⟨-, hle⟩)
        · rw [hnil] at hroom
          exact hroom (Nat.zero_le _)
        · exact hroom hle
  · -- an error of `accept` throws, and all that has been accepted is closed with the vector
    obtain ⟨e, he⟩ : ∃ e, (arrivals batch.toNat script).2 = some e :=
      Option.ne_none_iff_exists'.mp fun hnone => hsettled (Or.inl hnone)
    have hne : e ≠ .EAGAIN := fun heq => hsettled (Or.inr (heq ▸ he))
    obtain ⟨q, hq, hclosed⟩ := @closed_of_thrown p iopt batch script e he hne
    constructor
    · rintro ⟨r, q', hq', hkept⟩
      obtain ⟨-, rfl⟩ := Prod.mk.inj (Option.some.inj (hq.symm.trans hq'))
      left
      apply List.eq_nil_iff_forall_not_mem.mpr
      intro fd hfd
      have hopen := (hkept fd hfd).still_open
      rw [hclosed fd hfd] at hopen
      cases hopen
    · intro h
      have hnil := h.resolve_right fun h => hsettled h.1
      refine ⟨_, q, hq, fun fd hfd => ?_⟩
      rw [hnil] at hfd
      cases hfd

/-- A listening socket on descriptor 3, and one worker. -/
def listening : Nsocktcp := Nsocktcp.new 3 (.accepted .ipv4)

def oneWorker : Workers := ⟨fun fd => decide (fd = 3), [⟨⟨0, [], []⟩, fun _ => none⟩], 1⟩

theorem kept_iff_twoArrivals :
    let script : List AcceptResult := [.fd 5, .fd 6, .err .EAGAIN]
    (∃ r q, oneWorker.onAcptReadable listening INT_MAX script = some (r, q) ∧
      ∀ fd ∈ (arrivals INT_MAX.toNat script).1, Kept listening INT_MAX oneWorker script q fd) ↔
      (arrivals INT_MAX.toNat script).1 = [] ∨ (Settled (arrivals INT_MAX.toNat script).2 ∧
        (arrivals INT_MAX.toNat script).1.length ≤ oneWorker.room) :=
  kept_iff ⟨by decide, by decide, by simp [oneWorker]⟩

/-- One connection, and then there are too many open files (`EMFILE`): the connection is closed. -/
theorem accepted_closed :
    ∃ r q, oneWorker.onAcptReadable listening INT_MAX [.fd 5, .err (.other 24)] = some (r, q) ∧
      (arrivals INT_MAX.toNat [.fd 5, .err (.other 24)]).1 = [5] ∧ q.opened 5 = false ∧
      ¬ Kept listening INT_MAX oneWorker [.fd 5, .err (.other 24)] q 5 := by
  refine ⟨_, _, rfl, by decide, by decide, fun h => ?_⟩
  have hopen := h.still_open
  revert hopen
  decide

end Workers

end Cppev
