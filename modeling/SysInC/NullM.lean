/-
Computations on a state that end with a value or with NULL, as the functions of a recursive
descent parser do. A NULL keeps the state that was reached. A computation may also not end:
its loops carry a count that can run out.

`Ends` is the total correctness of one computation and `Returns` the partial one, with a rule
for each construct. `Follows` compares two computations of which the second may give up where
the first goes on.
-/
import Mathlib.Control.Basic
import Mathlib.Data.Nat.Notation
import Mathlib.Order.Nat
import Mathlib.Tactic.SplitIfs

set_option autoImplicit false

namespace SysInC

/-- A computation on `σ`: it does not end, or it ends with a value or with NULL. -/
abbrev NullM (σ : Type) := OptionT (StateT σ Option)

namespace NullM

variable {σ α β : Type}

def eval (p : NullM σ α) (s : σ) : Option (Option α × σ) := p.run.run s

/-- The computation that does not end. -/
def diverge : NullM σ α := OptionT.mk fun _ => none

@[simp] theorem eval_pure (a : α) (s : σ) : eval (pure a) s = some (some a, s) := rfl

@[simp] theorem eval_null (s : σ) : eval (failure : NullM σ α) s = some (none, s) := rfl

@[simp] theorem eval_get (s : σ) : eval (get : NullM σ σ) s = some (some s, s) := rfl

@[simp] theorem eval_modify (f : σ → σ) (s : σ) :
    eval (modify f : NullM σ PUnit) s = some (some ⟨⟩, f s) := rfl

theorem eval_bind_value {p : NullM σ α} {s s' : σ} {a : α} (f : α → NullM σ β)
    (h : eval p s = some (some a, s')) : eval (p >>= f) s = eval (f a) s' := by
  have hrun : p.run.run s = some (some a, s') := h
  simp only [eval, OptionT.run_bind, Option.elimM, StateT.run_bind, hrun]
  rfl

theorem eval_bind_null {p : NullM σ α} {s s' : σ} (f : α → NullM σ β)
    (h : eval p s = some (none, s')) : eval (p >>= f) s = some (none, s') := by
  have hrun : p.run.run s = some (none, s') := h
  simp only [eval, OptionT.run_bind, Option.elimM, StateT.run_bind, hrun]
  rfl

theorem eval_bind_diverge {p : NullM σ α} {s : σ} (f : α → NullM σ β)
    (h : eval p s = none) : eval (p >>= f) s = none := by
  have hrun : p.run.run s = none := h
  simp only [eval, OptionT.run_bind, Option.elimM, StateT.run_bind, hrun]
  rfl

theorem eval_orElse_value {p q : NullM σ α} {s s' : σ} {a : α}
    (h : eval p s = some (some a, s')) : eval (p <|> q) s = some (some a, s') := by
  have hrun : p.run.run s = some (some a, s') := h
  simp only [eval, OptionT.run_orElse, Option.elimM, StateT.run_bind, hrun]
  rfl

theorem eval_orElse_null {p q : NullM σ α} {s s' : σ}
    (h : eval p s = some (none, s')) : eval (p <|> q) s = eval q s' := by
  have hrun : p.run.run s = some (none, s') := h
  simp only [eval, OptionT.run_orElse, Option.elimM, StateT.run_bind, hrun]
  rfl

theorem eval_orElse_diverge {p q : NullM σ α} {s : σ}
    (h : eval p s = none) : eval (p <|> q) s = none := by
  have hrun : p.run.run s = none := h
  simp only [eval, OptionT.run_orElse, Option.elimM, StateT.run_bind, hrun]
  rfl

theorem eval_optional_value {p : NullM σ α} {s s' : σ} {a : α}
    (h : eval p s = some (some a, s')) : eval (optional p) s = some (some (some a), s') :=
  eval_orElse_value (eval_bind_value _ h)

theorem eval_optional_null {p : NullM σ α} {s s' : σ}
    (h : eval p s = some (none, s')) : eval (optional p) s = some (some none, s') :=
  eval_orElse_null (eval_bind_null _ h)

/-! ## Total correctness -/

/-- From `s` the computation ends, with what satisfies `R`. -/
def Ends (p : NullM σ α) (s : σ) (R : Option α → σ → Prop) : Prop :=
  ∃ r s', eval p s = some (r, s') ∧ R r s'

theorem Ends.mono {p : NullM σ α} {s : σ} {R R' : Option α → σ → Prop} (h : Ends p s R)
    (himp : ∀ r s', R r s' → R' r s') : Ends p s R' := by
  obtain ⟨r, s', heval, hr⟩ := h
  exact ⟨r, s', heval, himp r s' hr⟩

theorem Ends.pure {a : α} {s : σ} {R : Option α → σ → Prop} (h : R (some a) s) :
    Ends (Pure.pure a) s R :=
  ⟨some a, s, rfl, h⟩

theorem Ends.null {s : σ} {R : Option α → σ → Prop} (h : R none s) :
    Ends (failure : NullM σ α) s R :=
  ⟨none, s, rfl, h⟩

/-- What follows starts where the first part left a value. -/
theorem Ends.bind {p : NullM σ α} {f : α → NullM σ β} {s : σ} {R : Option β → σ → Prop}
    {Q : Option α → σ → Prop} (hp : Ends p s Q) (hnull : ∀ s', Q none s' → R none s')
    (hf : ∀ a s', Q (some a) s' → Ends (f a) s' R) : Ends (p >>= f) s R := by
  obtain ⟨r, s', heval, hq⟩ := hp
  cases r with
  | none => exact ⟨none, s', eval_bind_null f heval, hnull s' hq⟩
  | some a =>
      obtain ⟨r', s'', heval', hr⟩ := hf a s' hq
      exact ⟨r', s'', (eval_bind_value f heval).trans heval', hr⟩

theorem Ends.get {f : σ → NullM σ β} {s : σ} {R : Option β → σ → Prop} (h : Ends (f s) s R) :
    Ends (MonadState.get >>= f) s R :=
  h

theorem Ends.modify {g : σ → σ} {p : NullM σ β} {s : σ} {R : Option β → σ → Prop}
    (h : Ends p (g s) R) : Ends (modify g >>= fun _ => p) s R :=
  h

theorem Ends.orElse {p q : NullM σ α} {s : σ} {R : Option α → σ → Prop}
    {Q : Option α → σ → Prop} (hp : Ends p s Q) (hvalue : ∀ a s', Q (some a) s' → R (some a) s')
    (hnull : ∀ s', Q none s' → Ends q s' R) : Ends (p <|> q) s R := by
  obtain ⟨r, s', heval, hq⟩ := hp
  cases r with
  | some a => exact ⟨some a, s', eval_orElse_value heval, hvalue a s' hq⟩
  | none =>
      obtain ⟨r', s'', heval', hr⟩ := hnull s' hq
      exact ⟨r', s'', (eval_orElse_null heval).trans heval', hr⟩

/-! ## Partial correctness -/

/-- Where the computation ends, it ends with a value that satisfies `R`, or with NULL if `fails`. -/
def Returns (fails : Prop) (p : NullM σ α) (s : σ) (R : α → σ → Prop) : Prop :=
  ∀ r s', eval p s = some (r, s') → r.elim fails fun a => R a s'

variable {fails fails' : Prop}

theorem Returns.mono {p : NullM σ α} {s : σ} {R R' : α → σ → Prop} (h : Returns fails p s R)
    (himp : ∀ a s', R a s' → R' a s') : Returns fails p s R' := by
  intro r s' heval
  cases r with
  | none => exact h none s' heval
  | some a => exact himp a s' (h (some a) s' heval)

theorem Returns.weaken {p : NullM σ α} {s : σ} {R : α → σ → Prop} (h : Returns fails p s R)
    (himp : fails → fails') : Returns fails' p s R := by
  intro r s' heval
  cases r with
  | none => exact himp (h none s' heval)
  | some a => exact h (some a) s' heval

theorem Returns.value {p : NullM σ α} {s s' : σ} {R : α → σ → Prop} {a : α}
    (h : Returns fails p s R) (heval : eval p s = some (some a, s')) : R a s' :=
  h (some a) s' heval

theorem Returns.pure {a : α} {s : σ} {R : α → σ → Prop} (h : R a s) :
    Returns fails (Pure.pure a) s R := by
  intro r s' heval
  cases heval
  exact h

theorem Returns.null {s : σ} {R : α → σ → Prop} (h : fails) :
    Returns fails (failure : NullM σ α) s R := by
  intro r s' heval
  cases heval
  exact h

theorem Returns.diverge {s : σ} {R : α → σ → Prop} :
    Returns fails (diverge : NullM σ α) s R := by
  intro r s' heval
  cases heval

theorem Returns.bind {p : NullM σ α} {f : α → NullM σ β} {s : σ} {R : β → σ → Prop}
    {Q : α → σ → Prop} (hp : Returns fails p s Q)
    (hf : ∀ a s', Q a s' → Returns fails (f a) s' R) : Returns fails (p >>= f) s R := by
  intro r s' heval
  rcases hcase : eval p s with _ | ⟨_ | a, s1⟩
  · rw [eval_bind_diverge f hcase] at heval
    cases heval
  · rw [eval_bind_null f hcase] at heval
    cases heval
    exact hp none s' hcase
  · rw [eval_bind_value f hcase] at heval
    exact hf a s1 (hp (some a) s1 hcase) r s' heval

theorem Returns.get {f : σ → NullM σ β} {s : σ} {R : β → σ → Prop}
    (h : Returns fails (f s) s R) : Returns fails (MonadState.get >>= f) s R :=
  h

theorem Returns.modify {g : σ → σ} {p : NullM σ β} {s : σ} {R : β → σ → Prop}
    (h : Returns fails p (g s) R) : Returns fails (modify g >>= fun _ => p) s R :=
  h

/-! ## One computation follows another -/

/-- Where `p` ends with the resource `n` still within `bound`, `q` does the same. The
resource only grows. -/
def Follows (n : σ → ℕ) (bound : ℕ) (p q : NullM σ α) : Prop :=
  ∀ s r s', eval p s = some (r, s') → n s ≤ n s' ∧ (n s' ≤ bound → eval q s = some (r, s'))

variable {n : σ → ℕ} {bound : ℕ}

theorem Follows.pure (a : α) : Follows n bound (Pure.pure a) (Pure.pure a) := by
  rintro s r s' heval
  cases heval
  exact ⟨le_rfl, fun _ => rfl⟩

theorem Follows.null : Follows n bound (failure : NullM σ α) failure := by
  rintro s r s' heval
  cases heval
  exact ⟨le_rfl, fun _ => rfl⟩

theorem Follows.diverge : Follows n bound (diverge : NullM σ α) diverge := by
  rintro s r s' heval
  cases heval

theorem Follows.get : Follows n bound (MonadState.get : NullM σ σ) MonadState.get := by
  rintro s r s' heval
  cases heval
  exact ⟨le_rfl, fun _ => rfl⟩

theorem Follows.modify {g : σ → σ} (hg : ∀ s, n (g s) = n s) :
    Follows n bound (modify g : NullM σ PUnit) (modify g) := by
  rintro s r s' heval
  cases heval
  exact ⟨(hg s).ge, fun _ => rfl⟩

theorem Follows.bind {p q : NullM σ α} {f g : α → NullM σ β} (h : Follows n bound p q)
    (hf : ∀ a, Follows n bound (f a) (g a)) : Follows n bound (p >>= f) (q >>= g) := by
  intro s r s' heval
  rcases hp : eval p s with _ | ⟨_ | a, s1⟩
  · rw [eval_bind_diverge f hp] at heval
    cases heval
  · rw [eval_bind_null f hp] at heval
    cases heval
    exact ⟨(h s _ _ hp).1, fun hle => eval_bind_null g ((h s _ _ hp).2 hle)⟩
  · rw [eval_bind_value f hp] at heval
    have hrest := hf a s1 r s' heval
    refine ⟨(h s _ _ hp).1.trans hrest.1, fun hle => ?_⟩
    rw [eval_bind_value g ((h s _ _ hp).2 (hrest.1.trans hle))]
    exact hrest.2 hle

theorem Follows.orElse {p q p' q' : NullM σ α} (h : Follows n bound p q)
    (h' : Follows n bound p' q') : Follows n bound (p <|> p') (q <|> q') := by
  intro s r s' heval
  rcases hp : eval p s with _ | ⟨_ | a, s1⟩
  · rw [eval_orElse_diverge hp] at heval
    cases heval
  · rw [eval_orElse_null hp] at heval
    have hrest := h' s1 r s' heval
    refine ⟨(h s _ _ hp).1.trans hrest.1, fun hle => ?_⟩
    rw [eval_orElse_null ((h s _ _ hp).2 (hrest.1.trans hle))]
    exact hrest.2 hle
  · rw [eval_orElse_value hp] at heval
    cases heval
    exact ⟨(h s _ _ hp).1, fun hle => eval_orElse_value ((h s _ _ hp).2 hle)⟩

theorem Follows.ite {c : Prop} [Decidable c] {p q p' q' : NullM σ α} (h : Follows n bound p q)
    (h' : Follows n bound p' q') :
    Follows n bound (if c then p else p') (if c then q else q') := by
  split_ifs
  · exact h
  · exact h'

end NullM
end SysInC
