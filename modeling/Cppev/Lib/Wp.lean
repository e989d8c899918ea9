import Mathlib.Tactic.Common

/-!
# Weakest preconditions for programs that keep their state when they throw

`Prog ε σ α` is a program over a state `σ` that returns an `α` or throws an `ε`. A throw does not
undo what was done before it, as in C++. `wp m Q E s` says that `m`, started in `s`, ends in `Q`
when it returns and in `E` when it throws. The postconditions may mention `s`, so a frame
("everything else is unchanged") is stated in the same way as a result.

`Fixes f m` says that `m` leaves the part `f` of the state alone, from wherever it starts.
-/

namespace Cppev

/-- A program over the state `σ` that may throw an `ε`. -/
abbrev Prog (ε σ : Type) (α : Type) := ExceptT ε (StateM σ) α

variable {ε σ τ α β : Type}

namespace Prog

/-- The outcome of `m` from `s`: what it returns or throws, and the state it leaves. -/
def exec (m : Prog ε σ α) (s : σ) : Except ε α × σ := m.run.run s

/-- `m` from `s` ends in `Q` when it returns, in `E` when it throws. -/
def wp (m : Prog ε σ α) (Q : α → σ → Prop) (E : ε → σ → Prop) (s : σ) : Prop :=
  match m.exec s with
  | (.ok a, s') => Q a s'
  | (.error e, s') => E e s'

/-! ## One lemma for each way to build a program -/

@[simp] theorem exec_pure (a : α) (s : σ) : (pure a : Prog ε σ α).exec s = (.ok a, s) := rfl

@[simp] theorem exec_throw (e : ε) (s : σ) : (throw e : Prog ε σ α).exec s = (.error e, s) := rfl

@[simp] theorem exec_get (s : σ) : (get : Prog ε σ σ).exec s = (.ok s, s) := rfl

@[simp] theorem exec_set (s s' : σ) : (set s' : Prog ε σ PUnit).exec s = (.ok ⟨⟩, s') := rfl

@[simp] theorem exec_modify (f : σ → σ) (s : σ) :
    (modify f : Prog ε σ PUnit).exec s = (.ok ⟨⟩, f s) := rfl

theorem exec_bind (m : Prog ε σ α) (k : α → Prog ε σ β) (s : σ) :
    (m >>= k).exec s =
      match m.exec s with
      | (.ok a, s') => (k a).exec s'
      | (.error e, s') => (.error e, s') := by
  show (ExceptT.bindCont k (m.exec s).1) (m.exec s).2 = _
  rcases m.exec s with ⟨r, s'⟩
  cases r <;> rfl

/-- The continuation runs in the state the first program leaves. -/
theorem exec_bind_ok {m : Prog ε σ α} {k : α → Prog ε σ β} {s s' : σ} {a : α}
    (h : m.exec s = (.ok a, s')) : (m >>= k).exec s = (k a).exec s' := by
  rw [exec_bind, h]

theorem exec_bind_error {m : Prog ε σ α} {k : α → Prog ε σ β} {s s' : σ} {e : ε}
    (h : m.exec s = (.error e, s')) : (m >>= k).exec s = (.error e, s') := by
  rw [exec_bind, h]

variable {Q : α → σ → Prop} {E : ε → σ → Prop} {s : σ}

@[simp] theorem wp_pure (a : α) : (pure a : Prog ε σ α).wp Q E s ↔ Q a s := Iff.rfl

@[simp] theorem wp_throw (e : ε) : (throw e : Prog ε σ α).wp Q E s ↔ E e s := Iff.rfl

@[simp] theorem wp_get {Q : σ → σ → Prop} : (get : Prog ε σ σ).wp Q E s ↔ Q s s := Iff.rfl

@[simp] theorem wp_set {Q : PUnit → σ → Prop} (s' : σ) :
    (set s' : Prog ε σ PUnit).wp Q E s ↔ Q ⟨⟩ s' := Iff.rfl

@[simp] theorem wp_modify {Q : PUnit → σ → Prop} (f : σ → σ) :
    (modify f : Prog ε σ PUnit).wp Q E s ↔ Q ⟨⟩ (f s) := Iff.rfl

@[simp] theorem wp_bind (m : Prog ε σ α) (k : α → Prog ε σ β) {Q : β → σ → Prop} :
    (m >>= k).wp Q E s ↔ m.wp (fun a s' => (k a).wp Q E s') E s := by
  unfold wp
  rw [exec_bind]
  rcases m.exec s with ⟨r, s'⟩
  cases r <;> rfl

theorem wp_ite (c : Prop) [Decidable c] (m n : Prog ε σ α) :
    (if c then m else n).wp Q E s ↔ if c then m.wp Q E s else n.wp Q E s := by
  split <;> rfl

/-! ## Consequence -/

theorem wp_mono {m : Prog ε σ α} {Q' : α → σ → Prop} {E' : ε → σ → Prop} (h : m.wp Q E s)
    (hQ : ∀ a s', Q a s' → Q' a s') (hE : ∀ e s', E e s' → E' e s') : m.wp Q' E' s := by
  unfold wp at *
  rcases hm : m.exec s with ⟨r, s'⟩
  rw [hm] at h
  cases r with
  | ok a => exact hQ a s' h
  | error e => exact hE e s' h

theorem wp_and {m : Prog ε σ α} {Q' : α → σ → Prop} {E' : ε → σ → Prop} (h : m.wp Q E s)
    (h' : m.wp Q' E' s) :
    m.wp (fun a s' => Q a s' ∧ Q' a s') (fun e s' => E e s' ∧ E' e s') s := by
  unfold wp at *
  rcases hm : m.exec s with ⟨r, s'⟩
  rw [hm] at h h'
  cases r with
  | ok a => exact ⟨h, h'⟩
  | error e => exact ⟨h, h'⟩

/-- What holds however the program ends. -/
theorem wp_always {m : Prog ε σ α} {P : σ → Prop} :
    m.wp (fun _ => P) (fun _ => P) s ↔ P (m.exec s).2 := by
  unfold wp
  rcases m.exec s with ⟨r, s'⟩
  cases r <;> rfl

/-! ## Working on a part of the state -/

/-- Run a program over `τ` on the part of a state that `view` reads and `put` writes. -/
def zoom (view : σ → τ) (put : τ → σ → σ) (m : Prog ε τ α) : Prog ε σ α :=
  ExceptT.mk fun s =>
    let (r, t) := m.exec (view s)
    (r, put t s)

theorem exec_zoom {view : σ → τ} {put : τ → σ → σ} {m : Prog ε τ α} :
    (zoom view put m).exec s = ((m.exec (view s)).1, put (m.exec (view s)).2 s) := rfl

/-! ## Frames -/

/-- Whether `m` returns or throws, the part `f` of the state is as it was. -/
def Fixes {φ : Type} (f : σ → φ) (m : Prog ε σ α) : Prop := ∀ s, f (m.exec s).2 = f s

section Fixes

variable {φ : Type} {f : σ → φ}

theorem fixes_pure (a : α) : Fixes f (pure a : Prog ε σ α) := fun _ => rfl

theorem fixes_modify {g : σ → σ} (h : ∀ s, f (g s) = f s) :
    Fixes f (modify g : Prog ε σ PUnit) := h

/-- A program that looks at the state first. -/
theorem fixes_get_bind {k : σ → Prog ε σ β} (h : ∀ s, f ((k s).exec s).2 = f s) :
    Fixes f (get >>= k) := h

theorem Fixes.bind {m : Prog ε σ α} {k : α → Prog ε σ β} (hm : Fixes f m)
    (hk : ∀ a, Fixes f (k a)) : Fixes f (m >>= k) := by
  intro s
  have hs := hm s
  rcases hm' : m.exec s with ⟨r, s'⟩
  rw [hm'] at hs
  rw [exec_bind, hm']
  cases r with
  | ok a => exact (hk a s').trans hs
  | error e => exact hs

theorem Fixes.ite {c : Prop} [Decidable c] {m n : Prog ε σ α} (hm : Fixes f m)
    (hn : Fixes f n) : Fixes f (if c then m else n) := by
  split
  · exact hm
  · exact hn

theorem fixes_zoom {view : σ → τ} {put : τ → σ → σ} (h : ∀ t s, f (put t s) = f s)
    (m : Prog ε τ α) : Fixes f (zoom view put m) := fun s => h _ s

end Fixes

end Prog

end Cppev
