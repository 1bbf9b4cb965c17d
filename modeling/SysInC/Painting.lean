/-
Painting: what loops of writes leave in a memory.

A turn of such a loop changes the values on a set of places, each by a function of the place and of
the value that stands there. Where the turns do not meet, or where painting a place twice is
painting it once, the loop is one painting of the union.
-/
import Mathlib.Data.Set.Lattice
import Mathlib.Logic.Function.Basic

set_option autoImplicit false

namespace SysInC.Painting

variable {ι α : Type*} {s t : Set ι} {v : ι → α → α} {m : ι → α} {i : ι}

/-! ## One painting -/

open Classical in
/-- The memory `m` with the values on `s` changed by `v`. -/
noncomputable def paint (s : Set ι) (v : ι → α → α) (m : ι → α) : ι → α := fun i =>
  if i ∈ s then v i (m i) else m i

theorem paint_of_mem (h : i ∈ s) : paint s v m i = v i (m i) := if_pos h

theorem paint_of_notMem (h : i ∉ s) : paint s v m i = m i := if_neg h

@[simp] theorem paint_empty : paint ∅ v m = m := by
  funext i
  exact paint_of_notMem (Set.notMem_empty i)

/-- What is painted at a place depends on no other one. -/
theorem paint_apply_congr {m' : ι → α} (h : m i = m' i) : paint s v m i = paint s v m' i := by
  by_cases hi : i ∈ s
  · rw [paint_of_mem hi, paint_of_mem hi, h]
  · rw [paint_of_notMem hi, paint_of_notMem hi, h]

theorem paint_mem_congr (h : i ∈ s ↔ i ∈ t) : paint s v m i = paint t v m i := by
  by_cases hi : i ∈ s
  · rw [paint_of_mem hi, paint_of_mem (h.mp hi)]
  · rw [paint_of_notMem hi, paint_of_notMem fun ht => hi (h.mpr ht)]

/-- A write is a painting of one place. -/
theorem update_eq_paint [DecidableEq ι] {x : α} (h : v i (m i) = x) :
    Function.update m i x = paint {i} v m := by
  subst h
  funext j
  by_cases hj : j = i
  · subst hj
    rw [Function.update_self, paint_of_mem (Set.mem_singleton j)]
  · rw [Function.update_of_ne hj, paint_of_notMem (Set.mem_singleton_iff.not.mpr hj)]

/-! ## One painting after another -/

/-- On a place of both, the second painting changes nothing more. -/
def Settled (v : ι → α → α) (s t : Set ι) : Prop := ∀ i ∈ s, i ∈ t → ∀ x, v i (v i x) = v i x

theorem Settled.of_disjoint (h : ∀ i ∈ s, i ∉ t) : Settled v s t := fun i hs ht =>
  absurd ht (h i hs)

/-- A value that does not depend on the one before is settled. -/
theorem settled_const (u : ι → α) : Settled (fun i _ => u i) s t := fun _ _ _ _ => rfl

theorem paint_paint (h : Settled v s t) : paint t v (paint s v m) = paint (s ∪ t) v m := by
  funext i
  by_cases ht : i ∈ t
  · rw [paint_of_mem ht, paint_of_mem (Set.mem_union_right s ht)]
    by_cases hs : i ∈ s
    · rw [paint_of_mem hs]
      exact h i hs ht (m i)
    · rw [paint_of_notMem hs]
  · rw [paint_of_notMem ht]
    by_cases hs : i ∈ s
    · rw [paint_of_mem hs, paint_of_mem (Set.mem_union_left t hs)]
    · rw [paint_of_notMem hs, paint_of_notMem (by simp [hs, ht])]

/-! ## Loops -/

/-- The places of the first `n` turns. -/
def places (s : ℕ → Set ι) (n : ℕ) : Set ι := {i | ∃ k < n, i ∈ s k}

theorem places_succ (s : ℕ → Set ι) (n : ℕ) : places s (n + 1) = places s n ∪ s n := by
  ext i
  constructor
  · rintro ⟨k, hk, hi⟩
    rcases Nat.lt_succ_iff_lt_or_eq.mp hk with hk | rfl
    · exact Or.inl ⟨k, hk, hi⟩
    · exact Or.inr hi
  · rintro (⟨k, hk, hi⟩ | hi)
    · exact ⟨k, Nat.lt_succ_of_lt hk, hi⟩
    · exact ⟨n, Nat.lt_succ_self n, hi⟩

/-- **A loop of paintings is one painting.** `R s x y` says that `y` is `x` with the places `s`
painted, whatever a state is, and `I` what the turns rely on. -/
theorem foldlM_range_places {σ : Type*} {R : Set ι → σ → σ → Prop} {I : σ → Prop}
    {f : σ → ℕ → Option σ} {s : ℕ → Set ι} {n : ℕ} (hempty : ∀ x, R ∅ x x)
    (hcomp : ∀ k < n, ∀ x y z, R (places s k) x y → R (s k) y z → R (places s k ∪ s k) x z)
    (hf : ∀ k < n, ∀ x, I x → ∃ y, f x k = some y ∧ I y ∧ R (s k) x y) {x : σ} (hx : I x) :
    ∃ y, (List.range n).foldlM f x = some y ∧ I y ∧ R (places s n) x y := by
  induction n with
  | zero =>
      have hnone : places s 0 = ∅ := by simp [places]
      exact ⟨x, rfl, hx, hnone ▸ hempty x⟩
  | succ n ih =>
      obtain ⟨y, hfront, hy, hxy⟩ := ih (fun k hk => hcomp k (Nat.lt_succ_of_lt hk))
        fun k hk => hf k (Nat.lt_succ_of_lt hk)
      obtain ⟨z, hlast, hz, hyz⟩ := hf n (Nat.lt_succ_self n) y hy
      refine ⟨z, ?_, hz, ?_⟩
      · rw [List.range_succ, List.foldlM_append, hfront, Option.bind_eq_bind, Option.bind_some,
          List.foldlM_cons, hlast]
        rfl
      · rw [places_succ]
        exact hcomp n (Nat.lt_succ_self n) x y z hxy hyz

/-- A loop that paints a memory with values of the places. -/
theorem foldlM_range_paint {f : (ι → α) → ℕ → Option (ι → α)} {s : ℕ → Set ι} {n : ℕ}
    {u : ι → α} (hf : ∀ k < n, ∀ m, f m k = some (paint (s k) (fun i _ => u i) m)) (m : ι → α) :
    (List.range n).foldlM f m = some (paint (places s n) (fun i _ => u i) m) := by
  obtain ⟨y, hloop, -, rfl⟩ := foldlM_range_places (n := n) (s := s) (x := m) (I := fun _ => True)
    (R := fun s x y => y = paint s (fun i _ => u i) x) (fun x => paint_empty.symm)
    (fun k _ x y z hxy hyz => by rw [hyz, hxy, paint_paint (settled_const u)])
    (fun k hk x _ => ⟨_, hf k hk x, trivial, rfl⟩) trivial
  exact hloop

end SysInC.Painting
