import Cppev.Nio.Outbox

/-!
# `write_all` against every kernel

The kernel as an endless sequence of answers, of which a run uses the first ones. `write_all` comes
to its end as long as the kernel does not answer `EINTR` for ever: every other answer either is the
last one or takes a byte.

* `flush_prefix`: a flush uses a part of the script, whatever stands behind it.
* `writeAll_total`: what `write_all` does, and that it returns or throws.
-/

namespace Cppev

/-! ## Scripts and kernels

A kernel answers for ever, but a call uses finitely many answers. Which ones is not known before, so
everything is shown for scripts first, whatever stands behind the part that is used. -/

/-- The first `n` answers. -/
def firstAnswers (answers : Nat → WriteResult) (n : Nat) : List WriteResult :=
  (List.range n).map answers

/-- The answers that are not `EINTR`. -/
def effective (script : List WriteResult) : List WriteResult :=
  script.filter fun r => decide (r ≠ .err .EINTR)

/-- The last answer says why a flush ended; one that is drained did not wait for any. -/
def Stop.EndedBy (last : Option WriteResult) : Stop → Prop
  | .drained => True
  | .blocked => last = some (.err .EAGAIN)
  | .broken => last = some (.err .EPIPE)
  | .reset => last = some (.err .ECONNRESET)
  | .failed e => last = some (.err e)

theorem endedBy_ofErrno (e : Errno) : (Stop.ofErrno e).EndedBy (some (.err e)) := by
  cases e <;> exact rfl

/-- An answer before the others does not matter. -/
theorem Stop.EndedBy.cons {stop : Stop} {used : List WriteResult} (r : WriteResult)
    (h : stop.EndedBy used.getLast?) : stop.EndedBy (r :: used).getLast? := by
  cases used with
  | nil =>
      -- without an answer, only a drained queue ends a flush
      cases stop with
      | drained => trivial
      | _ => cases h
  | cons r' used => rwa [List.getLast?_cons_cons]

/-- What a flush of `pending` leaves that uses just the answers `used`. -/
structure Flushes (step quota : Nat) (pending : List Byte) (used : List WriteResult)
    (f : Flush) : Prop where
  flush_eq : ∀ tail, flush step quota pending (used ++ tail) = { f with rest := tail }
  sent_append : f.sent.flatten ++ f.pending = pending
  drained : f.stop = .drained → f.pending = []
  endedBy : f.stop.EndedBy used.getLast?

theorem Flushes.drain (step quota : Nat) : Flushes step quota [] [] ⟨[], [], [], .drained⟩ :=
  ⟨fun tail => flush_nil step quota tail, rfl, fun _ => rfl, trivial⟩

/-- A script is not used up that says `EAGAIN` somewhere, or has more answers than there are bytes,
`EINTR` apart. -/
theorem flush_prefix {step : Nat} (hstep : 1 ≤ step) (script : List WriteResult) (quota : Nat)
    (hquota : 1 ≤ quota) (pending : List Byte) (hcount : ∀ n, .count n ∈ script → 1 ≤ n)
    (henough : .err .EAGAIN ∈ script ∨ pending.length < (effective script).length) :
    ∃ used rest f, script = used ++ rest ∧ Flushes step quota pending used f := by
  -- along the script; each count takes a byte
  induction script generalizing quota pending with
  | nil =>
      rcases henough with hmem | hlt
      · cases hmem
      · exact absurd hlt (Nat.not_lt_zero _)
  | cons r script ih =>
      by_cases hp : pending = []
      · subst hp
        exact ⟨[], r :: script, _, rfl, .drain step quota⟩
      have hrest : ∀ n, .count n ∈ script → 1 ≤ n := fun n hn =>
        hcount n (List.mem_cons_of_mem r hn)
      cases r with
      | count n =>
          obtain ⟨k, hk⟩ : ∃ k, k = min n (min quota pending.length) := ⟨_, rfl⟩
          have hn := hcount n List.mem_cons_self
          have hpos := List.length_pos_of_ne_nil hp
          have hfewer : .err .EAGAIN ∈ script ∨
              (pending.drop k).length < (effective script).length := by
            refine henough.imp (fun hmem => by simpa using hmem) fun hlt => ?_
            have : (effective (.count n :: script)).length = (effective script).length + 1 := rfl
            rw [List.length_drop]
            omega
          obtain ⟨used, rest, f, hsplit, hf⟩ := ih (if k = quota then step else quota - k)
            (by split <;> omega) (pending.drop k) hrest hfewer
          refine ⟨.count n :: used, rest, f.after [pending.take k], by rw [hsplit]; rfl, ?_⟩
          refine ⟨fun tail => ?_, ?_, hf.drained, hf.endedBy.cons _⟩
          · simp only [List.cons_append, flush, if_neg hp, ← hk, hf.flush_eq]
            rfl
          · rw [Flush.sent_after, Flush.pending_after, List.flatten_append, List.append_assoc,
              hf.sent_append, List.flatten_singleton, List.take_append_drop]
      | err e =>
          by_cases he : e = .EINTR
          · -- the same `write` again
            subst he
            have hmore : .err .EAGAIN ∈ script ∨ pending.length < (effective script).length :=
              henough.imp (fun hmem => by simpa using hmem) id
            obtain ⟨used, rest, f, hsplit, hf⟩ := ih quota hquota pending hrest hmore
            refine ⟨.err .EINTR :: used, rest, f, by rw [hsplit]; rfl, ?_⟩
            refine ⟨fun tail => ?_, hf.sent_append, hf.drained, hf.endedBy.cons _⟩
            simp only [List.cons_append, flush, if_neg hp, hf.flush_eq]
          · refine ⟨[.err e], script, ⟨pending, [], [], .ofErrno e⟩, rfl, ?_⟩
            refine ⟨fun tail => ?_, rfl, fun hd => ?_, endedBy_ofErrno e⟩
            · cases e with
              | EINTR => exact absurd rfl he
              | _ => simp only [List.cons_append, List.nil_append, flush, if_neg hp]
            · cases e <;> cases hd

/-- Why a flush ends, in terms of the script. -/
theorem flush_stop (step quota : Nat) (pending : List Byte) (script : List WriteResult) :
    (flush step quota pending script).stop = .drained ∨
      (flush step quota pending script).stop = .blocked ∨
      ∃ e, .err e ∈ script ∧ e ≠ .EINTR ∧ (flush step quota pending script).stop = .ofErrno e := by
  induction script generalizing quota pending with
  | nil =>
      simp only [flush]
      split
      · exact .inl rfl
      · exact .inr (.inl rfl)
  | cons r script ih =>
      by_cases hp : pending = []
      · exact .inl (by simp [hp])
      · have hmore : ∀ e, .err e ∈ script → WriteResult.err e ∈ r :: script := fun e =>
          List.mem_cons_of_mem r
        cases r with
        | count n =>
            simp only [flush, if_neg hp, Flush.stop_after]
            exact (ih _ _).imp_right (.imp_right (Exists.imp fun e h => h.imp_left (hmore e)))
        | err e =>
            by_cases he : e = .EINTR
            · subst he
              simp only [flush, if_neg hp]
              exact (ih quota pending).imp_right
                (.imp_right (Exists.imp fun e h => h.imp_left (hmore e)))
            · refine .inr (.inr ⟨e, List.mem_cons_self, he, ?_⟩)
              cases e with
              | EINTR => exact absurd rfl he
              | _ => simp only [flush, if_neg hp]

/-! ## Endless scripts

A kernel that does not say `EINTR` for ever gives, sooner or later, as many other answers as there
are bytes; with one more of them every flush ends. -/

variable {answers : Nat → WriteResult}

theorem firstAnswers_succ (n : Nat) :
    firstAnswers answers (n + 1) = firstAnswers answers n ++ [answers n] := by
  simp [firstAnswers, List.range_succ]

theorem firstAnswers_add (answers : Nat → WriteResult) (m n : Nat) :
    ∃ tail, firstAnswers answers (m + n) = firstAnswers answers m ++ tail := by
  induction n with
  | zero => exact ⟨[], (List.append_nil _).symm⟩
  | succ n ih =>
      obtain ⟨tail, htail⟩ := ih
      exact ⟨tail ++ [answers (m + n)], by
        rw [← Nat.add_assoc, firstAnswers_succ, htail, List.append_assoc]⟩

/-- A kernel that does not answer `EINTR` for ever gives as many other answers as one likes. -/
theorem exists_effective (hlive : ∀ i, ∃ j, i ≤ j ∧ answers j ≠ .err .EINTR) (k : Nat) :
    ∃ n, k ≤ (effective (firstAnswers answers n)).length := by
  induction k with
  | zero => exact ⟨0, Nat.zero_le _⟩
  | succ k ih =>
      obtain ⟨n, hn⟩ := ih
      obtain ⟨j, hj, hne⟩ := hlive n
      obtain ⟨tail, htail⟩ := firstAnswers_add answers n (j - n)
      rw [show n + (j - n) = j by omega] at htail
      refine ⟨j + 1, ?_⟩
      have hlast : effective [answers j] = [answers j] := by simp [effective, hne]
      have hlen : (effective (firstAnswers answers (j + 1))).length =
          (effective (firstAnswers answers n)).length + (effective tail).length + 1 := by
        rw [firstAnswers_succ, htail, effective, List.filter_append, List.filter_append]
        simp only [List.length_append]
        rw [← effective, ← effective, ← effective, hlast]
        rfl
      omega

/-- The first answers are the first answers of any longer script. -/
theorem firstAnswers_of_append {n : Nat} {used rest : List WriteResult}
    (h : firstAnswers answers n = used ++ rest) : used = firstAnswers answers used.length := by
  have hle : used.length ≤ n := by
    have := congrArg List.length h
    simp only [firstAnswers, List.length_map, List.length_range, List.length_append] at this
    omega
  have htake := congrArg (List.take used.length) h
  rw [List.take_left] at htake
  calc used = (firstAnswers answers n).take used.length := htake.symm
    _ = firstAnswers answers used.length := by
      rw [firstAnswers, ← List.map_take, List.take_range, Nat.min_eq_left hle, firstAnswers]

/-! ## The theorem

The flush, seen through the buffer: the return value, what is left and the flags of the stream. -/

namespace Nstream

/-- What `write_all` leaves of `s`, with the answers `used`, when the kernel has accepted these
bytes. -/
structure WroteAll (s : Nstream) (used : List WriteResult) (accepted : List Byte)
    (r : Except Exn Int) (s' : Nstream) : Prop where
  bytes : accepted ++ s'.wbuffer.unread = s.wbuffer.unread
  returned : ∀ v, r = .ok v → v = accepted.length ∧
    (s'.wbuffer.unread = [] ∨ used.getLast? = some (.err .EAGAIN) ∨
      (used.getLast? = some (.err .EPIPE) ∧ s'.eop = true) ∨
      (used.getLast? = some (.err .ECONNRESET) ∧ s'.reset = true))
  thrown : ∀ e, r = .error e →
    ∃ err, used.getLast? = some (.err err) ∧ e = .systemError "write error" err

theorem WroteAll.of_flushes {step : Nat} {s : Nstream} {used : List WriteResult} {f : Flush}
    {b : Buffer} (hf : Flushes step step s.wbuffer.unread used f) (hb : b.unread = f.pending) :
    WroteAll s used f.sent.flatten
      ((Nstream.thrown f.stop).map fun _ => (s.wbuffer.unread.length : Int) - f.pending.length)
      ({ s with wbuffer := b }.stopped f.stop) := by
  have hend := hf.endedBy
  refine ⟨?_, fun v hv => ?_, fun e he => ?_⟩
  · show f.sent.flatten ++ b.unread = _
    rw [hb, hf.sent_append]
  · have hlen := congrArg List.length hf.sent_append
    rw [List.length_append] at hlen
    have hval : v = (s.wbuffer.unread.length : Int) - f.pending.length := by
      revert hv
      cases Nstream.thrown f.stop with
      | ok u => exact fun hv => (Except.ok.inj hv).symm
      | error e => exact fun hv => nomatch hv
    refine ⟨by omega, ?_⟩
    -- each reason to stop leaves its mark
    cases hstop : f.stop with
    | drained => exact Or.inl (hb.trans (hf.drained hstop))
    | blocked =>
        rw [hstop] at hend
        exact Or.inr (Or.inl hend)
    | broken =>
        rw [hstop] at hend
        exact Or.inr (Or.inr (Or.inl ⟨hend, by simp [stopped]⟩))
    | reset =>
        rw [hstop] at hend
        exact Or.inr (Or.inr (Or.inr ⟨hend, by simp [stopped]⟩))
    | failed e =>
        rw [hstop] at hv
        cases hv
  · cases hstop : f.stop with
    | failed err =>
        rw [hstop] at hend he
        cases he
        exact ⟨err, hend, rfl⟩
    | _ =>
        rw [hstop] at he
        cases he

/-- `write_all` on a script that says `EAGAIN` somewhere. -/
theorem writeAll_wrote {step : Int} (hstep : 1 ≤ step) {io : StreamIO} (h : io.str.wbuffer.Wf)
    (hcount : ∀ n, .count n ∈ io.writes → 1 ≤ n) (hagain : .err .EAGAIN ∈ io.writes) :
    let out := (writeAll step).exec io
    out.2.str.wbuffer.Wf ∧
      ∃ used xs, io.writes = used ++ out.2.writes ∧ out.2.sent = io.sent ++ xs ∧
        WroteAll io.str used xs.flatten out.1 out.2.str ∧
        (∀ e, out.1 = .error e →
          ∃ err failed, .err err ∈ io.writes ∧ err ≠ .EINTR ∧ Stop.ofErrno err = .failed failed) ∧
        (.err .EPIPE ∉ io.writes → out.2.str.eop = io.str.eop) := by
  obtain ⟨step, rfl⟩ : ∃ m : Nat, step = m := ⟨step.toNat, by omega⟩
  obtain ⟨used, rest, f, hsplit, hf⟩ := flush_prefix (by omega : 1 ≤ step) io.writes step
    (by omega) io.str.wbuffer.unread hcount (.inl hagain)
  obtain ⟨b, hb, hbu, hexec⟩ := writeAll_spec (by omega : 1 ≤ step) h
  -- what is behind the answers that are used does not matter
  have hflush : flush step step io.str.wbuffer.unread io.writes = { f with rest := rest } := by
    rw [hsplit, hf.flush_eq]
  have hstop := flush_stop step step io.str.wbuffer.unread io.writes
  rw [hflush] at hbu hexec hstop
  rw [hexec]
  refine ⟨hb, used, f.sent, hsplit, rfl, .of_flushes hf hbu, fun e he => ?_, fun hpipe => ?_⟩
  · rcases hstop with hstop | hstop | ⟨err, hmem, hne, hstop⟩
    · rw [hstop] at he
      cases he
    · rw [hstop] at he
      cases he
    · rw [hstop] at he
      cases hcase : Stop.ofErrno err with
      | failed e' => exact ⟨err, e', hmem, hne, hcase⟩
      | _ =>
          rw [hcase] at he
          cases he
  · -- only `EPIPE` sets `eop_`
    have hbroken : f.stop ≠ .broken := by
      intro hcase
      rcases hstop with hstop | hstop | ⟨err, hmem, -, hstop⟩
      · cases hcase.symm.trans hstop
      · cases hcase.symm.trans hstop
      · have hcut := hcase.symm.trans hstop
        cases err with
        | EPIPE => exact hpipe hmem
        | _ => cases hcut
    simp [stopped, hbroken]

/-- **`write_all` on every stream, for every step and every kernel.** It uses finitely many answers;
what it returns or throws and what it sends does not depend on those behind them. -/
theorem writeAll_total {step : Int} (hstep : 1 ≤ step) {io : StreamIO} (h : io.str.wbuffer.Wf)
    {answers : Nat → WriteResult} (hcount : ∀ i n, answers i = .count n → 1 ≤ n)
    (hlive : ∀ i, ∃ j, i ≤ j ∧ answers j ≠ .err .EINTR) :
    ∃ used xs r, ∀ n, used ≤ n →
      let out := (writeAll step).exec { io with writes := firstAnswers answers n }
      out.1 = r ∧ out.2.writes = (firstAnswers answers n).drop used ∧ out.2.sent = io.sent ++ xs ∧
        WroteAll io.str (firstAnswers answers used) xs.flatten r out.2.str := by
  obtain ⟨step, rfl⟩ : ∃ m : Nat, step = m := ⟨step.toNat, by omega⟩
  obtain ⟨m, hm⟩ := exists_effective hlive (io.str.wbuffer.unread.length + 1)
  have hones : ∀ n, .count n ∈ firstAnswers answers m → 1 ≤ n := by
    intro n hn
    obtain ⟨i, -, hi⟩ := List.mem_map.mp hn
    exact hcount i n hi
  obtain ⟨used, rest, f, hsplit, hf⟩ := flush_prefix (by omega : 1 ≤ step) _ step
    (by omega) io.str.wbuffer.unread hones (.inr hm)
  have hused := firstAnswers_of_append hsplit
  refine ⟨used.length, f.sent, (Nstream.thrown f.stop).map fun _ =>
    (io.str.wbuffer.unread.length : Int) - f.pending.length, fun n hn => ?_⟩
  obtain ⟨tail, htail⟩ := firstAnswers_add answers used.length (n - used.length)
  rw [show used.length + (n - used.length) = n by omega, ← hused] at htail
  obtain ⟨b, -, hb, hexec⟩ := writeAll_spec (by omega : 1 ≤ step)
    (show ({ io with writes := firstAnswers answers n } : StreamIO).str.wbuffer.Wf from h)
  simp only [htail, hf.flush_eq] at hb hexec
  rw [htail, hexec, ← hused]
  exact ⟨rfl, (List.drop_left).symm, rfl, .of_flushes hf hb⟩

/-- A kernel that takes one byte at a time. -/
theorem writeAll_total_hello :
    ∃ used xs r, ∀ n, used ≤ n →
      let io : StreamIO :=
        ⟨{ Nstream.new 5 with wbuffer := ⟨8, 1, 6, [0, 104, 101, 108, 108, 111, 0, 0]⟩ }, [], [], []⟩
      let out := (writeAll 2).exec { io with writes := firstAnswers (fun _ => .count 1) n }
      out.1 = r ∧ out.2.writes = (firstAnswers (fun _ => .count 1) n).drop used ∧
        out.2.sent = io.sent ++ xs ∧
        WroteAll io.str (firstAnswers (fun _ => .count 1) used) xs.flatten r out.2.str :=
  writeAll_total (by decide) ⟨by decide, by decide, by decide, by decide, by decide⟩
    (fun _ n hn => by cases hn; decide) fun i => ⟨i, Nat.le_refl i, by decide⟩

end Nstream

end Cppev
