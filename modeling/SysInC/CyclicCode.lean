/-
Words whose letters are coefficients, by the values of their polynomials, over a commutative ring in
which `1 + 1 = 0`.

A generator is built from its roots, one factor at a time. A register that is fed a message letter
by letter divides by the generator: message and register together are a polynomial that is zero
wherever the generator is.
-/
import Mathlib.Algebra.CharP.Two
import Mathlib.Data.List.GetD
import Mathlib.Tactic.LinearCombination
import Mathlib.Tactic.Ring

set_option autoImplicit false

namespace SysInC.CyclicCode

variable {R : Type*} [CommRing R]

/-! ## Values -/

/-- The polynomial with these coefficients, the highest first, at `x`. -/
def eval (x : R) (cs : List R) : R := cs.foldl (fun v c => v * x + c) 0

@[simp] theorem eval_nil (x : R) : eval x [] = 0 := rfl

theorem eval_concat (x : R) (cs : List R) (c : R) : eval x (cs ++ [c]) = eval x cs * x + c := by
  unfold eval
  rw [List.foldl_append, List.foldl_cons, List.foldl_nil]

theorem eval_append (x : R) (cs ds : List R) :
    eval x (cs ++ ds) = eval x cs * x ^ ds.length + eval x ds := by
  induction ds using List.reverseRecOn with
  | nil => rw [List.append_nil, List.length_nil, pow_zero, mul_one, eval_nil, add_zero]
  | append_singleton ds d ih =>
    rw [← List.append_assoc, eval_concat, ih, eval_concat, List.length_append,
      List.length_singleton, pow_succ]
    ring

theorem eval_cons (x c : R) (cs : List R) :
    eval x (c :: cs) = c * x ^ cs.length + eval x cs := by
  have hone : eval x [c] = c := by
    rw [← List.nil_append [c], eval_concat, eval_nil, zero_mul, zero_add]
  rw [← List.singleton_append, eval_append, hone]

theorem eval_add (x : R) {cs ds : List R} (h : cs.length = ds.length) :
    eval x (List.zipWith (· + ·) cs ds) = eval x cs + eval x ds := by
  induction cs generalizing ds with
  | nil =>
    obtain rfl := List.eq_nil_of_length_eq_zero h.symm
    rw [List.zipWith_nil_left, eval_nil, add_zero]
  | cons c cs ih =>
    obtain ⟨d, ds, rfl⟩ := List.exists_cons_of_length_eq_add_one h.symm
    have hlen : cs.length = ds.length := Nat.succ_injective h
    rw [List.zipWith_cons_cons, eval_cons, ih hlen, List.length_zipWith, hlen, Nat.min_self,
      eval_cons, eval_cons, hlen]
    ring

theorem eval_replicate (x : R) (n : ℕ) : eval x (List.replicate n 0) = 0 := by
  induction n with
  | zero => rfl
  | succ n ih => rw [List.replicate_succ, eval_cons, ih, zero_mul, add_zero]

theorem eval_mul (x r : R) (cs : List R) : eval x (cs.map (r * ·)) = r * eval x cs := by
  induction cs with
  | nil => rw [List.map_nil, eval_nil, mul_zero]
  | cons c cs ih =>
    rw [List.map_cons, eval_cons, ih, List.length_map, eval_cons]
    ring

/-! ## Coefficients -/

theorem getD_zipWith_add {cs ds : List R} (h : cs.length = ds.length) (t : ℕ) :
    (List.zipWith (· + ·) cs ds).getD t 0 = cs.getD t 0 + ds.getD t 0 := by
  induction cs generalizing ds t with
  | nil =>
    obtain rfl := List.eq_nil_of_length_eq_zero h.symm
    rw [List.zipWith_nil_left, List.getD_nil, add_zero]
  | cons c cs ih =>
    obtain ⟨d, ds, rfl⟩ := List.exists_cons_of_length_eq_add_one h.symm
    rw [List.zipWith_cons_cons]
    cases t with
    | zero => rfl
    | succ t => exact ih (Nat.succ_injective h) t

theorem getD_mul (r : R) (cs : List R) (t : ℕ) :
    (cs.map (r * ·)).getD t 0 = r * cs.getD t 0 := by
  have hmap := List.getD_map (l := cs) (d := 0) (n := t) (r * ·)
  rwa [mul_zero] at hmap

theorem getD_concat_zero (cs : List R) (t : ℕ) : (cs ++ [0]).getD t 0 = cs.getD t 0 := by
  induction cs generalizing t with
  | nil => cases t <;> rfl
  | cons c cs ih =>
    cases t with
    | zero => rfl
    | succ t => exact ih t

/-! ## A generator -/

/-- The polynomial times `X + r`. -/
def times_root (cs : List R) (r : R) : List R :=
  List.zipWith (· + ·) (cs ++ [0]) (0 :: cs.map (r * ·))

theorem length_times_root (cs : List R) (r : R) :
    (times_root cs r).length = cs.length + 1 := by
  unfold times_root
  rw [List.length_zipWith, List.length_append, List.length_singleton, List.length_cons,
    List.length_map, Nat.min_self]

theorem getD_times_root (cs : List R) (r : R) (t : ℕ) :
    (times_root cs r).getD t 0 = cs.getD t 0 + if t = 0 then 0 else r * cs.getD (t - 1) 0 := by
  unfold times_root
  rw [getD_zipWith_add, getD_concat_zero]
  · cases t with
    | zero => rw [if_pos rfl, List.getD_cons_zero]
    | succ t =>
      rw [if_neg t.succ_ne_zero, List.getD_cons_succ, getD_mul, Nat.add_sub_cancel]
  · rw [List.length_append, List.length_singleton, List.length_cons, List.length_map]

theorem eval_times_root (x r : R) (cs : List R) :
    eval x (times_root cs r) = eval x cs * (x + r) := by
  unfold times_root
  rw [eval_add, eval_concat, eval_cons, eval_mul]
  · ring
  · rw [List.length_append, List.length_singleton, List.length_cons, List.length_map]

/-- The product of the factors `X + r`. -/
def generator (roots : List R) : List R := roots.foldl times_root [1]

theorem generator_concat (roots : List R) (r : R) :
    generator (roots ++ [r]) = times_root (generator roots) r := by
  unfold generator
  rw [List.foldl_append, List.foldl_cons, List.foldl_nil]

theorem length_generator (roots : List R) : (generator roots).length = roots.length + 1 := by
  induction roots using List.reverseRecOn with
  | nil => rfl
  | append_singleton roots r ih =>
    rw [generator_concat, length_times_root, ih, List.length_append, List.length_singleton]

theorem eval_generator_eq_zero [CharP R 2] {roots : List R} {x : R} (h : x ∈ roots) :
    eval x (generator roots) = 0 := by
  induction roots using List.reverseRecOn with
  | nil => exact absurd h List.not_mem_nil
  | append_singleton roots r ih =>
    rw [generator_concat, eval_times_root]
    obtain h | h := List.mem_append.mp h
    · rw [ih h, zero_mul]
    · rw [List.mem_singleton.mp h, CharTwo.add_self_eq_zero, mul_zero]

theorem head_generator (roots : List R) : ∃ g, generator roots = 1 :: g := by
  induction roots using List.reverseRecOn with
  | nil => exact ⟨[], rfl⟩
  | append_singleton roots r ih =>
    obtain ⟨g, hg⟩ := ih
    rw [generator_concat, hg]
    exact ⟨_, congrArg (· :: _) (add_zero 1)⟩

/-! ## The register -/

/-- The register behind a letter: what it holds moves up, and what falls out is divided. `g` are the
coefficients of the generator behind the leading 1. -/
def feed (g : List R) (reg : List R) (b : R) : List R :=
  List.zipWith (· + ·) (reg.tail ++ [0]) (g.map ((b + reg.headD 0) * ·))

theorem length_feed {g reg : List R} (hlen : reg.length = g.length) (hpos : g ≠ []) (b : R) :
    (feed g reg b).length = g.length := by
  have hlt := List.length_pos_of_ne_nil hpos
  unfold feed
  rw [List.length_zipWith, List.length_append, List.length_tail, List.length_map,
    List.length_singleton]
  omega

theorem getD_feed {g reg : List R} (hlen : reg.length = g.length) (hpos : g ≠ []) (b : R) (t : ℕ) :
    (feed g reg b).getD t 0 = reg.getD (t + 1) 0 + (b + reg.getD 0 0) * g.getD t 0 := by
  obtain ⟨first, reg, rfl⟩ :=
    List.exists_cons_of_length_pos (hlen ▸ List.length_pos_of_ne_nil hpos)
  unfold feed
  rw [List.tail_cons, getD_zipWith_add, getD_concat_zero, getD_mul, List.getD_cons_succ]
  · rfl
  · rw [List.length_append, List.length_singleton, List.length_map, ← hlen, List.length_cons]

/-- What is invariant: message and register are a multiple of the generator. -/
theorem eval_feed [CharP R 2] {g reg message : List R} {x : R} (hlen : reg.length = g.length)
    (hpos : g ≠ []) (hroot : eval x (1 :: g) = 0) (b : R) (h : eval x (message ++ reg) = 0) :
    eval x ((message ++ [b]) ++ feed g reg b) = 0 := by
  obtain ⟨first, reg, rfl⟩ :=
    List.exists_cons_of_length_pos (hlen ▸ List.length_pos_of_ne_nil hpos)
  have hlen' : (reg ++ [0]).length = (g.map ((b + first) * ·)).length := by
    rw [List.length_append, List.length_singleton, List.length_map, ← hlen, List.length_cons]
  rw [eval_append, eval_concat, length_feed hlen hpos]
  unfold feed
  rw [List.tail_cons, List.headD_cons, eval_add x hlen', eval_concat, eval_mul]
  rw [eval_append, eval_cons, List.length_cons, pow_succ] at h
  rw [eval_cons, one_mul] at hroot
  rw [← hlen, List.length_cons, pow_succ] at hroot ⊢
  have htwo : first * (x ^ reg.length * x) + first * (x ^ reg.length * x) = 0 :=
    CharTwo.add_self_eq_zero _
  linear_combination x * h + (b + first) * hroot - htwo

/-- **Division by a register.** A message and the register that it was fed to are zero wherever the
generator is. -/
theorem eval_foldl_feed [CharP R 2] {g : List R} {x : R} (hpos : g ≠ [])
    (hroot : eval x (1 :: g) = 0) (message : List R) :
    eval x (message ++ message.foldl (feed g) (List.replicate g.length 0)) = 0
      ∧ (message.foldl (feed g) (List.replicate g.length 0)).length = g.length := by
  induction message using List.reverseRecOn with
  | nil => exact ⟨eval_replicate x g.length, List.length_replicate⟩
  | append_singleton message b ih =>
    rw [List.foldl_append, List.foldl_cons, List.foldl_nil]
    exact ⟨eval_feed ih.2 hpos hroot b ih.1, length_feed ih.2 hpos b⟩

end SysInC.CyclicCode
