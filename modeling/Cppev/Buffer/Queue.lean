import Cppev.Buffer.Basic
import Cppev.Lib.Transition

/-!
# A buffer is a byte queue

The purpose of `buffer`, apart from its storage: a first-in first-out queue of bytes. Programs
over any number of buffers (copies included) are run twice, on a `Store` of buffers and on a
`Store` of plain byte queues. `refines_step` is the step lemma; `buffer_refines_queue` carries it
through every sequence of operations.
-/

namespace Cppev

/-- The operations of a program over buffers. A buffer is named by its position in the store; a
copy construction adds one at the end. -/
inductive BufOp where
  | produce (k : Nat) (ptr : List Byte) (len : Int)
  | putString (k : Nat) (str : List Byte)
  | consume (k : Nat) (len : Int)
  | getString (k : Nat) (len : Int) (remove : Bool)
  | resize (k : Nat) (cap : Int)
  | tiny (k : Nat)
  | clear (k : Nat)
  | copyConstruct (src : Nat)
  | copyAssign (dst src : Nat)
  deriving DecidableEq, Repr

/-- The objects of a program, and what its `get_string` calls have returned so far. -/
structure Store (β : Type) where
  cells : List β
  got : List (List Byte)
  deriving DecidableEq, Repr

namespace Store

variable {β γ : Type}

def update (s : Store β) (k : Nat) (f : β → β) : Store β :=
  { s with cells := s.cells.modify k f }

def returned (s : Store β) (str : List Byte) : Store β := { s with got := s.got ++ [str] }

end Store

/-! ## The two programs

The same operations on both stores, with the same results. -/

/-- One operation on buffers; `none` where it names a buffer that does not exist. -/
def bufStep (s : Store Buffer) : BufOp → Option (Store Buffer)
  | .produce k ptr len => s.cells[k]?.map fun _ => s.update k (·.produce ptr len)
  | .putString k str => s.cells[k]?.map fun _ => s.update k (·.putString str)
  | .consume k len => s.cells[k]?.map fun _ => s.update k (·.consume len)
  | .getString k len remove => s.cells[k]?.map fun b =>
      (s.update k fun b => (b.getString len remove).2).returned (b.getString len remove).1
  | .resize k cap => s.cells[k]?.map fun _ => s.update k (·.resize cap)
  | .tiny k => s.cells[k]?.map fun _ => s.update k Buffer.tiny
  | .clear k => s.cells[k]?.map fun _ => s.update k Buffer.clear
  | .copyConstruct src => s.cells[src]?.map fun b => { s with cells := s.cells ++ [b.copy] }
  | .copyAssign dst src => s.cells[src]?.bind fun b => s.cells[dst]?.map fun _ =>
      -- `copy` returns at once when the two are the same object
      if dst = src then s else s.update dst fun _ => b.copy

/-- How many bytes of a queue a length argument asks for: `-1` asks for all. -/
def askFor (q : List Byte) (len : Int) : Nat := if len = -1 then q.length else len.toNat

/-- The same operation on byte queues, which have no storage to resize or compact. -/
def queueStep (s : Store (List Byte)) : BufOp → Option (Store (List Byte))
  | .produce k ptr len => s.cells[k]?.map fun _ => s.update k (· ++ ptr.take len.toNat)
  | .putString k str => s.cells[k]?.map fun _ => s.update k (· ++ str)
  | .consume k len => s.cells[k]?.map fun _ => s.update k fun q => q.drop (askFor q len)
  | .getString k len remove => s.cells[k]?.map fun q =>
      (s.update k fun q => if remove then q.drop (askFor q len) else q).returned
        (q.take (askFor q len))
  | .resize k _ | .tiny k => s.cells[k]?.map fun _ => s
  | .clear k => s.cells[k]?.map fun _ => s.update k fun _ => []
  | .copyConstruct src => s.cells[src]?.map fun q => { s with cells := s.cells ++ [q] }
  | .copyAssign dst src => s.cells[src]?.bind fun q => s.cells[dst]?.map fun _ =>
      s.update dst fun _ => q

/-! ## The domain

The bounds that the claim gives: no capacity above 2^30 is asked for, and lengths are those of the
data. -/

/-- Largest capacity or end position a program asks for. -/
def capLimit : Int := 1073741824

/-- The arguments the operations are meant for: lengths that are not negative and do not exceed
what the array holds, `-1` or at most `size()` bytes to read, and no request above `capLimit`. -/
def BufOp.Admissible (s : Store Buffer) : BufOp → Prop
  | .produce k ptr len => ∃ b ∈ s.cells[k]?,
      0 ≤ len ∧ len ≤ ptr.length ∧ b.offset + len ≤ capLimit
  | .putString k str => ∃ b ∈ s.cells[k]?, b.offset + str.length ≤ capLimit
  | .consume k len => ∃ b ∈ s.cells[k]?, b.Fits len
  | .getString k len _ => ∃ b ∈ s.cells[k]?, b.Fits len
  | .resize k cap => ∃ _b ∈ s.cells[k]?, cap ≤ capLimit
  | .tiny k | .clear k => ∃ _b ∈ s.cells[k]?, True
  | .copyConstruct src => ∃ _b ∈ s.cells[src]?, True
  | .copyAssign dst src => ∃ _b ∈ s.cells[src]?, ∃ _c ∈ s.cells[dst]?, True

instance decidableExistsMem {α : Type} (o : Option α) (p : α → Prop) [DecidablePred p] :
    Decidable (∃ x ∈ o, p x) :=
  match o with
  | none => isFalse (by rintro ⟨x, hx, -⟩; cases hx)
  | some a => decidable_of_iff (p a) ⟨fun h => ⟨a, rfl, h⟩, by rintro ⟨x, hx, h⟩; cases hx; exact h⟩

instance (s : Store Buffer) : (op : BufOp) → Decidable (op.Admissible s)
  | .produce _ _ _ | .putString _ _ | .consume _ _ | .getString _ _ _ | .resize _ _ | .tiny _
  | .clear _ | .copyConstruct _ | .copyAssign _ _ => inferInstanceAs (Decidable (∃ _b ∈ _, _))

/-! ## The refinement

Buffer by buffer: the unread bytes are the queue, the buffer is well formed and its capacity is an
`int`. -/

/-- The buffers hold the bytes of the queues, and the same strings were returned. The bound on
`cap` is the largest value any `int` of the buffer has taken. -/
structure Refines (s : Store Buffer) (q : Store (List Byte)) : Prop where
  cells : s.cells.map Buffer.unread = q.cells
  got : s.got = q.got
  wf : ∀ b ∈ s.cells, b.Wf ∧ b.cap ≤ INT_MAX

namespace Refines

variable {s : Store Buffer} {q : Store (List Byte)}

theorem get {k : Nat} {b : Buffer} (h : Refines s q) (hb : s.cells[k]? = some b) :
    q.cells[k]? = some b.unread ∧ b.Wf ∧ b.cap ≤ INT_MAX := by
  refine ⟨?_, h.wf b (List.mem_of_getElem? hb)⟩
  rw [← h.cells, List.getElem?_map, hb]
  rfl

/-- Two operations that agree on the buffer `k` agree on the stores. -/
theorem update {k : Nat} {b : Buffer} {f : Buffer → Buffer} {g : List Byte → List Byte}
    (h : Refines s q) (hb : s.cells[k]? = some b) (hunread : (f b).unread = g b.unread)
    (hwf : (f b).Wf) (hcap : (f b).cap ≤ INT_MAX) : Refines (s.update k f) (q.update k g) := by
  refine ⟨?_, h.got, ?_⟩
  · apply List.ext_getElem?
    intro i
    simp only [Store.update, List.getElem?_map, List.getElem?_modify, ← h.cells]
    by_cases hik : k = i
    · subst hik
      simp [hb, hunread]
    · simp [hik]
  · intro c hc
    obtain ⟨i, hi⟩ := List.mem_iff_getElem?.mp hc
    simp only [Store.update, List.getElem?_modify] at hi
    by_cases hik : k = i
    · subst hik
      simp only [hb, if_true, Option.map_eq_map, Option.map_some, Option.some.injEq] at hi
      subst hi
      exact ⟨hwf, hcap⟩
    · simp only [hik, if_false, Option.map_eq_map, Option.map_id'] at hi
      exact h.wf c (List.mem_of_getElem? hi)

/-- The operation of a program that does this. -/
theorem updated {k : Nat} {b : Buffer} {f : Buffer → Buffer} {g : List Byte → List Byte}
    {s' : Store Buffer} (h : Refines s q) (hb : s.cells[k]? = some b)
    (hs : (s.cells[k]?.map fun _ => s.update k f) = some s') (hunread : (f b).unread = g b.unread)
    (hwf : (f b).Wf) (hcap : (f b).cap ≤ INT_MAX) :
    ∃ q', (q.cells[k]?.map fun _ => q.update k g) = some q' ∧ Refines s' q' := by
  rw [hb, Option.map_some] at hs
  obtain rfl := Option.some.inj hs
  rw [(h.get hb).1, Option.map_some]
  exact ⟨_, rfl, h.update hb hunread hwf hcap⟩

/-- An operation on the storage only. -/
theorem updated_same {k : Nat} {b : Buffer} {f : Buffer → Buffer} {s' : Store Buffer}
    (h : Refines s q) (hb : s.cells[k]? = some b)
    (hs : (s.cells[k]?.map fun _ => s.update k f) = some s') (hunread : (f b).unread = b.unread)
    (hwf : (f b).Wf) (hcap : (f b).cap ≤ INT_MAX) :
    ∃ q', (q.cells[k]?.map fun _ => q) = some q' ∧ Refines s' q' := by
  have hid : q.update k id = q := by simp [Store.update]
  have hupdated := h.updated (g := id) hb hs hunread hwf hcap
  rwa [hid] at hupdated

theorem returned (h : Refines s q) {str str' : List Byte} (hstr : str = str') :
    Refines (s.returned str) (q.returned str') :=
  ⟨h.cells, by simp [Store.returned, h.got, hstr], h.wf⟩

theorem append (h : Refines s q) {b : Buffer} (hwf : b.Wf) (hcap : b.cap ≤ INT_MAX) :
    Refines { s with cells := s.cells ++ [b] } { q with cells := q.cells ++ [b.unread] } := by
  refine ⟨by simp [h.cells], h.got, ?_⟩
  intro c hc
  rcases List.mem_append.mp hc with hc | hc
  · exact h.wf c hc
  · rw [List.mem_singleton.mp hc]
    exact ⟨hwf, hcap⟩

end Refines

/-! ### Capacities -/

theorem cap_resize_le_max {b : Buffer} (h : b.Wf) (hcap : b.cap ≤ INT_MAX) {cap : Int}
    (hreq : cap ≤ capLimit) : (b.resize cap).cap ≤ INT_MAX := by
  have := Buffer.cap_resize_le h cap
  simp only [capLimit, INT_MAX] at *
  omega

theorem cap_produce_le_max {b : Buffer} (h : b.Wf) (hcap : b.cap ≤ INT_MAX) {ptr : List Byte}
    {len : Int} (h0 : 0 ≤ len) (hlen : len ≤ ptr.length) (hreq : b.offset + len ≤ capLimit) :
    (b.produce ptr len).cap ≤ INT_MAX := by
  rw [Buffer.produce_eq_store h0 hlen]
  exact cap_resize_le_max h hcap hreq

theorem askFor_eq {b : Buffer} (h : b.Wf) (len : Int) :
    askFor b.unread len = (b.request len).toNat := by
  have := Buffer.length_unread h
  unfold askFor Buffer.request
  split <;> omega

/-! ### One operation -/

/-- Every admissible operation takes related stores to related stores. -/
theorem refines_step {s s' : Store Buffer} {q : Store (List Byte)} {op : BufOp}
    (h : Refines s q) (hok : op.Admissible s) (hs : bufStep s op = some s') :
    ∃ q', queueStep q op = some q' ∧ Refines s' q' := by
  cases op with
  | produce k ptr len =>
      obtain ⟨b, hb, h0, hlen, hreq⟩ := hok
      obtain ⟨-, hwf, hcap⟩ := h.get hb
      exact h.updated hb hs (Buffer.unread_produce hwf h0 hlen) (Buffer.wf_produce hwf h0 hlen)
        (cap_produce_le_max hwf hcap h0 hlen hreq)
  | putString k str =>
      obtain ⟨b, hb, hreq⟩ := hok
      obtain ⟨-, hwf, hcap⟩ := h.get hb
      exact h.updated hb hs (Buffer.unread_putString hwf str) (Buffer.wf_putString hwf str)
        (cap_produce_le_max hwf hcap (by omega) (Int.le_refl _) hreq)
  | consume k len =>
      obtain ⟨b, hb, hfit⟩ := hok
      obtain ⟨-, hwf, hcap⟩ := h.get hb
      refine h.updated hb hs ?_ (Buffer.wf_consume hwf hfit) (by rwa [Buffer.cap_consume])
      rw [Buffer.unread_consume hwf hfit, askFor_eq hwf]
  | getString k len remove =>
      obtain ⟨b, hb, hfit⟩ := hok
      obtain ⟨hq, hwf, hcap⟩ := h.get hb
      simp only [bufStep, queueStep, Option.mem_def.mp hb, hq, Option.map_some,
        Option.some.injEq, exists_eq_left'] at hs ⊢
      subst hs
      refine (h.update hb ?_ ?_ ?_).returned ?_
      · rw [Buffer.getString_snd hwf hfit, askFor_eq hwf]
        cases remove
        · rfl
        · exact Buffer.unread_consume hwf hfit
      · rw [Buffer.getString_snd hwf hfit]
        cases remove
        · exact hwf
        · exact Buffer.wf_consume hwf hfit
      · rw [Buffer.getString_snd hwf hfit]
        cases remove
        · exact hcap
        · simpa [Buffer.cap_consume] using hcap
      · rw [Buffer.getString_fst hwf hfit, askFor_eq hwf]
  | resize k cap =>
      obtain ⟨b, hb, hreq⟩ := hok
      obtain ⟨-, hwf, hcap⟩ := h.get hb
      exact h.updated_same hb hs (Buffer.unread_resize hwf cap) (Buffer.wf_resize hwf cap)
        (cap_resize_le_max hwf hcap hreq)
  | tiny k =>
      obtain ⟨b, hb, -⟩ := hok
      obtain ⟨-, hwf, hcap⟩ := h.get hb
      exact h.updated_same hb hs (Buffer.unread_tiny hwf) (Buffer.wf_tiny hwf)
        (by rwa [Buffer.cap_tiny])
  | clear k =>
      obtain ⟨b, hb, -⟩ := hok
      obtain ⟨-, hwf, hcap⟩ := h.get hb
      exact h.updated hb hs (Buffer.unread_clear b) (Buffer.wf_clear hwf) hcap
  | copyConstruct src =>
      obtain ⟨b, hb, -⟩ := hok
      obtain ⟨hq, hwf, hcap⟩ := h.get hb
      simp only [bufStep, queueStep, Option.mem_def.mp hb, hq, Option.map_some,
        Option.some.injEq, exists_eq_left'] at hs ⊢
      subst hs
      rw [← Buffer.unread_copy hwf]
      exact h.append (Buffer.wf_copy hwf) hcap
  | copyAssign dst src =>
      obtain ⟨b, hb, c, hc, -⟩ := hok
      obtain ⟨hq, hwf, hcap⟩ := h.get hb
      obtain ⟨hq', -, -⟩ := h.get hc
      simp only [bufStep, queueStep, Option.mem_def.mp hb, Option.mem_def.mp hc, hq, hq',
        Option.bind_some, Option.map_some, Option.some.injEq, exists_eq_left'] at hs ⊢
      subst hs
      split
      · next heq =>
          -- assigning a buffer to itself: the queue is replaced by itself
          subst heq
          have := h.update (f := id) (g := fun _ => b.unread) hb rfl hwf hcap
          simpa [Store.update] using this
      · exact h.update (b := c) (g := fun _ => b.unread) hc (Buffer.unread_copy hwf)
          (Buffer.wf_copy hwf) hcap

/-! ## Every sequence of operations

The step lemma, and the induction of `run_sim` on top of it. -/

theorem bufStep_isSome {s : Store Buffer} {op : BufOp} (hok : op.Admissible s) :
    (bufStep s op).isSome := by
  cases op with
  | copyAssign dst src =>
      obtain ⟨b, hb, c, hc, -⟩ := hok
      simp [bufStep, Option.mem_def.mp hb, Option.mem_def.mp hc]
  | _ =>
      obtain ⟨b, hb, -⟩ := hok
      simp [bufStep, Option.mem_def.mp hb]

/-- **A buffer refines a byte queue.** Every sequence of admissible operations from a newly
constructed buffer runs to its end; the queues then hold the unread bytes of the buffers, every
`get_string` has returned the bytes the queue gives, and the indices are in order and inside the
storage, whose length is `cap` and fits an `int`. -/
theorem buffer_refines_queue {cap : Int} {b : Buffer} (hnew : Buffer.new cap = some b)
    (hcap : cap ≤ capLimit) {ops : List BufOp}
    (hok : AllSteps bufStep BufOp.Admissible ⟨[b], []⟩ ops) :
    ∃ s q, run bufStep ⟨[b], []⟩ ops = some s ∧ run queueStep ⟨[[]], []⟩ ops = some q ∧
      s.got = q.got ∧ s.cells.map Buffer.unread = q.cells ∧
      ∀ c ∈ s.cells, c.size = c.unread.length ∧
        0 ≤ c.start ∧ c.start ≤ c.offset ∧ c.offset ≤ c.cap ∧ c.cap = c.buffer.length ∧
        c.cap ≤ INT_MAX := by
  obtain ⟨hwf, hnil⟩ := Buffer.wf_new hnew
  have hbcap : b.cap = cap := by
    unfold Buffer.new at hnew
    split at hnew
    · cases hnew
    · cases hnew
      rfl
  have h0 : Refines ⟨[b], []⟩ ⟨[[]], []⟩ := by
    refine ⟨by simp [hnil], rfl, ?_⟩
    intro c hc
    rw [List.mem_singleton.mp hc]
    refine ⟨hwf, ?_⟩
    simp only [capLimit, INT_MAX] at *
    omega
  obtain ⟨s, hs⟩ := Option.isSome_iff_exists.mp
    (run_isSome bufStep BufOp.Admissible (fun _ _ => bufStep_isSome) hok)
  obtain ⟨q, hq, href⟩ := run_sim bufStep queueStep BufOp.Admissible Refines
    (fun _ _ _ _ => refines_step) h0 hok hs
  refine ⟨s, q, hs, hq, href.got, href.cells, ?_⟩
  intro c hc
  obtain ⟨hw, hmax⟩ := href.wf c hc
  exact ⟨(Buffer.length_unread hw).symm, hw.start_nonneg, hw.start_le, hw.offset_le,
    hw.length_eq.symm, hmax⟩

/-- A session of a producer and a consumer that leave bytes unread, a copy that is read apart from
its source, and a compaction. -/
theorem buffer_refines_queue_session :
    ∃ s q, run bufStep ⟨[Buffer.empty], []⟩
        [.produce 0 [99, 0, 112, 101, 118] 4, .getString 0 2 true, .copyConstruct 0, .tiny 0,
          .putString 0 [33], .resize 0 16, .consume 1 (-1), .getString 0 (-1) false,
          .copyAssign 1 0] = some s ∧
      run queueStep ⟨[[]], []⟩
        [.produce 0 [99, 0, 112, 101, 118] 4, .getString 0 2 true, .copyConstruct 0, .tiny 0,
          .putString 0 [33], .resize 0 16, .consume 1 (-1), .getString 0 (-1) false,
          .copyAssign 1 0] = some q ∧
      s.got = q.got ∧ s.cells.map Buffer.unread = q.cells ∧
      ∀ c ∈ s.cells, c.size = c.unread.length ∧
        0 ≤ c.start ∧ c.start ≤ c.offset ∧ c.offset ≤ c.cap ∧ c.cap = c.buffer.length ∧
        c.cap ≤ INT_MAX :=
  buffer_refines_queue (show Buffer.new 1 = some Buffer.empty from rfl) (by decide) (by decide)

end Cppev
