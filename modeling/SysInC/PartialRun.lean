/-
Loops and machines whose steps may fail, and arrays of a fixed length, where the step that fails is
an index out of range.

`Returns p G Q` says of a computation all that a safety proof asks of it: it returns exactly when
`G`, and what it returns satisfies `Q`. The rules follow the ways computations are put together.
-/
import Mathlib.Data.List.Basic
import Mathlib.Algebra.Order.Ring.Nat
import Mathlib.Tactic.Common

set_option autoImplicit false

namespace SysInC.PartialRun

variable {σ ε α β : Type*}

/-- `p` returns exactly when `G`, and then with a `Q`. -/
def Returns (p : Option α) (G : Prop) (Q : α → Prop) : Prop :=
  (G → ∃ a, p = some a) ∧ ∀ a, p = some a → G ∧ Q a

theorem Returns.iff {p : Option α} {G : Prop} {Q : α → Prop} (h : Returns p G Q) :
    (∃ a, p = some a ∧ Q a) ↔ G := by
  constructor
  · rintro ⟨a, ha, -⟩
    exact (h.2 a ha).1
  · intro hG
    obtain ⟨a, ha⟩ := h.1 hG
    exact ⟨a, ha, (h.2 a ha).2⟩

theorem Returns.pure {a : α} {Q : α → Prop} (h : Q a) : Returns (some a) True Q :=
  ⟨fun _ => ⟨a, rfl⟩, fun _ hb => ⟨trivial, Option.some.inj hb ▸ h⟩⟩

theorem Returns.imp {p : Option α} {G H : Prop} {Q R : α → Prop} (h : Returns p G Q)
    (hG : G ↔ H) (hQ : ∀ a, Q a → R a) : Returns p H R :=
  ⟨fun hH => h.1 (hG.mpr hH), fun a ha => ⟨hG.mp (h.2 a ha).1, hQ a (h.2 a ha).2⟩⟩

theorem Returns.congr {p : Option α} {G H : Prop} {Q : α → Prop} (h : Returns p G Q)
    (hG : G ↔ H) : Returns p H Q :=
  h.imp hG fun _ hq => hq

/-- The condition of the second part may not depend on what the first returns. -/
theorem Returns.bind {p : Option α} {f : α → Option β} {G H : Prop} {Q : α → Prop}
    {R : β → Prop} (h : Returns p G Q) (hf : ∀ a, Q a → Returns (f a) H R) :
    Returns (p.bind f) (G ∧ H) R := by
  constructor
  · rintro ⟨hG, hH⟩
    obtain ⟨a, ha⟩ := h.1 hG
    obtain ⟨b, hb⟩ := (hf a (h.2 a ha).2).1 hH
    exact ⟨b, by rw [ha, Option.bind_some, hb]⟩
  · intro b hb
    obtain ⟨a, ha, hb⟩ := Option.bind_eq_some_iff.mp hb
    have hQ := h.2 a ha
    have hR := (hf a hQ.2).2 b hb
    exact ⟨⟨hQ.1, hR.1⟩, hR.2⟩

/-- The first part always returns. -/
theorem Returns.seq {p : Option α} {f : α → Option β} {G : Prop} {Q : α → Prop} {R : β → Prop}
    (h : Returns p True Q) (hf : ∀ a, Q a → Returns (f a) G R) : Returns (p.bind f) G R :=
  (h.bind hf).congr (and_iff_right trivial)

theorem Returns.keep {p : Option α} {G : Prop} {Q : α → Prop} (h : Returns p G Q) :
    Returns p G fun a => G ∧ Q a :=
  ⟨h.1, fun a ha => ⟨(h.2 a ha).1, h.2 a ha⟩⟩

/-- The second part always returns; it may use the condition of the first. -/
theorem Returns.then {p : Option α} {f : α → Option β} {G : Prop} {Q : α → Prop} {R : β → Prop}
    (h : Returns p G Q) (hf : ∀ a, G → Q a → Returns (f a) True R) : Returns (p.bind f) G R :=
  (h.keep.bind fun a ha => hf a ha.1 ha.2).congr (and_iff_left trivial)

theorem returns_of_exists {p : Option α} {Q : α → Prop} (h : ∃ a, p = some a ∧ Q a) :
    Returns p True Q := by
  obtain ⟨a, rfl, ha⟩ := h
  exact Returns.pure ha

theorem Returns.map {p : Option α} {f : α → β} {G : Prop} {Q : α → Prop} {R : β → Prop}
    (h : Returns p G Q) (hf : ∀ a, Q a → R (f a)) : Returns (p.map f) G R := by
  rw [Option.map_eq_bind]
  exact (h.bind fun a ha => Returns.pure (hf a ha)).congr (and_iff_left trivial)

/-- A loop over conditions that its state does not touch: it returns when they all hold. -/
theorem Returns.foldlM {step : σ → ε → Option σ} {G : ε → Prop} {inv : σ → Prop} {es : List ε}
    (h : ∀ e ∈ es, ∀ s, inv s → Returns (step s e) (G e) inv) {s : σ} (hs : inv s) :
    Returns (es.foldlM step s) (∀ e ∈ es, G e) inv := by
  induction es generalizing s with
  | nil => exact (Returns.pure hs).congr (by simp)
  | cons e es ih =>
      rw [List.foldlM_cons]
      rw [List.forall_mem_cons] at h
      refine ((h.1 s hs).bind fun s' hs' => ih h.2 hs').congr ?_
      rw [List.forall_mem_cons]

/-- A loop whose body always returns. -/
theorem Returns.loop {step : σ → ε → Option σ} {inv : σ → Prop} {es : List ε}
    (h : ∀ e ∈ es, ∀ s, inv s → Returns (step s e) True inv) {s : σ} (hs : inv s) :
    Returns (es.foldlM step s) True inv :=
  (Returns.foldlM h hs).congr (iff_of_true (fun _ _ => trivial) trivial)

/-- A loop `for (i = 0; i < n; i++)` whose invariant says how far it has come. -/
theorem Returns.range {step : σ → ℕ → Option σ} {n : ℕ} {G : ℕ → Prop} {inv : ℕ → σ → Prop}
    (h : ∀ k, k < n → ∀ s, inv k s → Returns (step s k) (G k) (inv (k + 1))) {s : σ}
    (hs : inv 0 s) : Returns ((List.range n).foldlM step s) (∀ k, k < n → G k) (inv n) := by
  induction n with
  | zero => exact (Returns.pure hs).congr (iff_of_true trivial fun k hk => absurd hk (Nat.not_lt_zero k))
  | succ n ih =>
      rw [List.range_succ, List.foldlM_append]
      have hfront := ih fun k hk => h k (hk.trans (Nat.lt_succ_self n))
      refine (hfront.bind fun mid hmid => (h n (Nat.lt_succ_self n) mid hmid).bind
        fun last hlast => Returns.pure hlast).congr ?_
      rw [and_true]
      exact Nat.forall_lt_succ_right.symm

/-- What each turn of a loop keeps, where it returns, the loop keeps. -/
theorem foldlM_keeps {step : σ → ε → Option σ} {I : σ → Prop} {es : List ε}
    (h : ∀ e ∈ es, ∀ s s', step s e = some s' → I s → I s') {s t : σ} (hs : I s)
    (ht : es.foldlM step s = some t) : I t := by
  induction es generalizing s with
  | nil => exact Option.some.inj ht ▸ hs
  | cons e es ih =>
      rw [List.forall_mem_cons] at h
      rw [List.foldlM_cons] at ht
      obtain ⟨s', hs', ht⟩ := Option.bind_eq_some_iff.mp ht
      exact ih h.2 (h.1 s s' hs' hs) ht

/-- The same with an invariant that says how far the loop has come. -/
theorem range_keeps {step : σ → ℕ → Option σ} {n : ℕ} {I : ℕ → σ → Prop}
    (h : ∀ k < n, ∀ s s', step s k = some s' → I k s → I (k + 1) s') {s t : σ}
    (hs : I 0 s) (ht : (List.range n).foldlM step s = some t) : I n t := by
  induction n generalizing t with
  | zero => exact Option.some.inj ht ▸ hs
  | succ n ih =>
      rw [List.range_succ, List.foldlM_append] at ht
      obtain ⟨mid, hmid, ht⟩ := Option.bind_eq_some_iff.mp ht
      obtain ⟨last, hlast, ht⟩ := Option.bind_eq_some_iff.mp ht
      obtain rfl := Option.some.inj ht
      exact h n (Nat.lt_succ_self n) mid last hlast
        (ih (fun k hk => h k (hk.trans (Nat.lt_succ_self n))) hmid)

/-- The loop `for (i = 0; i < n; i++)` that breaks at the first `i` with `limit ≤ start + i`. -/
theorem takeWhile_range (start n limit : ℕ) :
    ((List.range n).takeWhile fun i => start + i < limit) = List.range (min n (limit - start)) := by
  induction n with
  | zero => rw [List.range_zero, List.takeWhile_nil, Nat.zero_min, List.range_zero]
  | succ n ih =>
      rw [List.range_succ, List.takeWhile_append, ih, List.length_range, List.length_range]
      by_cases h : start + n < limit
      · have hmin : min n (limit - start) = n := by omega
        have hmin' : min (n + 1) (limit - start) = n + 1 := by omega
        rw [hmin, hmin', if_pos rfl, List.range_succ,
          List.takeWhile_cons_of_pos (by simpa using h), List.takeWhile_nil]
      · have hmin' : min (n + 1) (limit - start) = min n (limit - start) := by omega
        rw [hmin', List.takeWhile_cons_of_neg (by simpa using h), List.append_nil]
        split
        · next hmin => rw [hmin]
        · rfl

/-- `n` places from `a` on are below `limit` when the last of them is. -/
theorem forall_range_lt (a n limit : ℕ) :
    (∀ i ∈ List.range n, a + i < limit) ↔ n = 0 ∨ a + n ≤ limit := by
  constructor
  · intro h
    by_cases hn : n = 0
    · exact Or.inl hn
    · have hlast := h (n - 1) (List.mem_range.mpr (by omega))
      exact Or.inr (by omega)
  · intro h i hi
    have := List.mem_range.mp hi
    omega

/-! ## Runs -/

/-- The condition of each step of a run, on the state that the step starts from. -/
def Along (step : σ → ε → Option σ) (G : σ → ε → Prop) : σ → List ε → Prop
  | _, [] => True
  | s, e :: es => G s e ∧ ∀ s', step s e = some s' → Along step G s' es

/-- A machine whose steps return exactly under `G` runs exactly along `G`. -/
theorem Returns.run {step : σ → ε → Option σ} {G : σ → ε → Prop} {inv : σ → Prop}
    (h : ∀ s e, inv s → Returns (step s e) (G s e) inv) (es : List ε) {s : σ} (hs : inv s) :
    Returns (es.foldlM step s) (Along step G s es) inv := by
  induction es generalizing s with
  | nil => exact Returns.pure hs
  | cons e es ih =>
      rw [List.foldlM_cons]
      constructor
      · rintro ⟨hG, halong⟩
        obtain ⟨s', hs'⟩ := (h s e hs).1 hG
        obtain ⟨t, ht⟩ := (ih ((h s e hs).2 s' hs').2).1 (halong s' hs')
        exact ⟨t, by rw [hs']; exact ht⟩
      · intro t ht
        obtain ⟨s', hs', ht⟩ := Option.bind_eq_some_iff.mp ht
        have hstep := (h s e hs).2 s' hs'
        have hrest := (ih hstep.2).2 t ht
        refine ⟨⟨hstep.1, fun u hu => ?_⟩, hrest.2⟩
        rw [hs'] at hu
        exact Option.some.inj hu ▸ hrest.1

/-- What the condition of a step gives, where an invariant holds that the step keeps. -/
theorem Along.imp {step : σ → ε → Option σ} {G P : σ → ε → Prop} {inv : σ → Prop}
    (h : ∀ s e, inv s → G s e → P s e ∧ ∀ s', step s e = some s' → inv s') {es : List ε} {s : σ}
    (hs : inv s) (hG : Along step G s es) : Along step P s es := by
  induction es generalizing s with
  | nil => trivial
  | cons e es ih =>
      obtain ⟨hP, hnext⟩ := h s e hs hG.1
      exact ⟨hP, fun s' hs' => ih (hnext s' hs') (hG.2 s' hs')⟩

/-- Every step of a run returns, with a state that is in `Q` to the one before. -/
def Always (step : σ → ε → Option σ) (Q : σ → ε → σ → Prop) : σ → List ε → Prop
  | _, [] => True
  | s, e :: es => ∃ s', step s e = some s' ∧ Q s e s' ∧ Always step Q s' es

theorem Always.returns {step : σ → ε → Option σ} {Q : σ → ε → σ → Prop} {es : List ε} {s : σ}
    (h : Always step Q s es) : ∃ t, es.foldlM step s = some t := by
  induction es generalizing s with
  | nil => exact ⟨s, rfl⟩
  | cons e es ih =>
      obtain ⟨s', hs', -, hrest⟩ := h
      obtain ⟨t, ht⟩ := ih hrest
      exact ⟨t, by rw [List.foldlM_cons, hs']; exact ht⟩

/-- What the steps of a machine that returns under `G` do, they do along `G`. -/
theorem always_iff_along {step : σ → ε → Option σ} {G : σ → ε → Prop} {inv : σ → Prop}
    {Q : σ → ε → σ → Prop} (h : ∀ s e, inv s → Returns (step s e) (G s e) fun s' => inv s' ∧ Q s e s')
    (es : List ε) {s : σ} (hs : inv s) : Always step Q s es ↔ Along step G s es := by
  induction es generalizing s with
  | nil => exact Iff.rfl
  | cons e es ih =>
      constructor
      · rintro ⟨s', hs', -, hrest⟩
        have hstep := (h s e hs).2 s' hs'
        refine ⟨hstep.1, fun u hu => ?_⟩
        rw [hs'] at hu
        obtain rfl := Option.some.inj hu
        exact (ih hstep.2.1).mp hrest
      · rintro ⟨hG, halong⟩
        obtain ⟨s', hs'⟩ := (h s e hs).1 hG
        have hstep := (h s e hs).2 s' hs'
        exact ⟨s', hs', hstep.2.2, (ih hstep.2.1).mpr (halong s' hs')⟩

/-- Where the steps return what `Q` asks for exactly under `G`, and go on from there, all states of
a run are in `Q` exactly along `G`. -/
theorem always_iff_along_of {step : σ → ε → Option σ} {G : σ → ε → Prop} {inv Q : σ → Prop}
    (h : ∀ s e, inv s → ((∃ s', step s e = some s' ∧ Q s') ↔ G s e) ∧
      ∀ s', step s e = some s' → Q s' → inv s') (es : List ε) {s : σ} (hs : inv s) :
    Always step (fun _ _ s' => Q s') s es ↔ Along step G s es := by
  induction es generalizing s with
  | nil => exact Iff.rfl
  | cons e es ih =>
      obtain ⟨hiff, hnext⟩ := h s e hs
      constructor
      · rintro ⟨s', hs', hQ, hrest⟩
        refine ⟨hiff.mp ⟨s', hs', hQ⟩, fun u hu => ?_⟩
        rw [hs'] at hu
        obtain rfl := Option.some.inj hu
        exact (ih (hnext s' hs' hQ)).mp hrest
      · rintro ⟨hG, halong⟩
        obtain ⟨s', hs', hQ⟩ := hiff.mpr hG
        exact ⟨s', hs', hQ, (ih (hnext s' hs' hQ)).mpr (halong s' hs')⟩

/-! ## Arrays -/

variable {n : ℕ}

/-- `a[i]` -/
def peek (a : Fin n → α) (i : ℕ) : Option α :=
  if h : i < n then some (a ⟨i, h⟩) else none

/-- `a[i] = v;` -/
def poke (a : Fin n → α) (i : ℕ) (v : α) : Option (Fin n → α) :=
  if h : i < n then some (Function.update a ⟨i, h⟩ v) else none

theorem peek_of_lt {a : Fin n → α} {i : ℕ} (h : i < n) : peek a i = some (a ⟨i, h⟩) :=
  dif_pos h

theorem poke_of_lt {a : Fin n → α} {i : ℕ} (h : i < n) (v : α) :
    poke a i v = some (Function.update a ⟨i, h⟩ v) :=
  dif_pos h

theorem Returns.peek (a : Fin n → α) (i : ℕ) : Returns (peek a i) (i < n) fun _ => True := by
  refine ⟨fun h => ⟨_, peek_of_lt h⟩, fun v hv => ⟨?_, trivial⟩⟩
  by_contra h
  rw [PartialRun.peek, dif_neg h] at hv
  exact nomatch hv

theorem Returns.poke (a : Fin n → α) (i : ℕ) (v : α) :
    Returns (poke a i v) (i < n) fun _ => True := by
  refine ⟨fun h => ⟨_, poke_of_lt h v⟩, fun b hb => ⟨?_, trivial⟩⟩
  by_contra h
  rw [PartialRun.poke, dif_neg h] at hb
  exact nomatch hb

end SysInC.PartialRun
