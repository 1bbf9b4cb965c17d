/-
File paths as text: their components, their normal form, and what lies below what.

`.` and empty components stand for nothing, `..` takes back the component before it. What a
relative path leaves in front that cannot be taken back is the number of levels it climbs; a
path joined to a base stays in the base unless it climbs, or comes back the way it went
(`inside_join_iff`).

A path is a list of symbols with a separator; normal forms have the innermost component first.
-/
import Mathlib.Data.List.Basic
import Mathlib.Data.List.Count
import Mathlib.Tactic.SplitIfs
import Mathlib.Tactic.Common

set_option autoImplicit false

namespace SysInC.LexicalPath

variable {α : Type*} [DecidableEq α] (sep dot : α)

/-! ## Normal forms -/

def is_rooted (p : List α) : Bool := p.head? = some sep

/-- One component on what is there so far. -/
def path_step (rooted : Bool) (st : List (List α)) (c : List α) : List (List α) :=
  if c = [] ∨ c = [dot] then st
  else if c = [dot, dot] then
    match st with
    | [] => if rooted then [] else [[dot, dot]]
    | t :: ts => if t = [dot, dot] then [dot, dot] :: t :: ts else ts
  else c :: st

/-- The components of a path, with each `..` worked out. -/
def normal (p : List α) : List (List α) :=
  (p.splitOn sep).foldl (path_step dot (is_rooted sep p)) []

/-- `p` is `base` or below it. -/
def Inside (base p : List α) : Prop :=
  is_rooted sep p = is_rooted sep base
    ∧ ∃ names, normal sep dot p = names ++ normal sep dot base ∧ [dot, dot] ∉ names

/-! ## Climbing -/

/-- Levels climbed and the components behind them, one component further. -/
def climb_step (s : ℕ × List (List α)) (c : List α) : ℕ × List (List α) :=
  if c = [] ∨ c = [dot] then s
  else if c = [dot, dot] then
    match s.2 with
    | [] => (s.1 + 1, [])
    | _ :: ts => (s.1, ts)
  else (s.1, c :: s.2)

/-- How many levels a path climbs, and where it goes from there. -/
def climb (p : List α) : ℕ × List (List α) := (p.splitOn sep).foldl (climb_step dot) (0, [])

/-- A path `p` joined to the base ends up in it: it does not climb, or it comes back through the
components of the base that it left. -/
def Lands (base p : List α) : Prop :=
  (climb sep dot p).1 = 0
    ∨ ((is_rooted sep base = true ∨ (climb sep dot p).1 ≤ (normal sep dot base).length)
      ∧ (normal sep dot base).take (climb sep dot p).1 <:+ (climb sep dot p).2)

/-- `k` times `..`. -/
def go_up (rooted : Bool) : ℕ → List (List α) → List (List α)
  | 0, st => st
  | k + 1, st => path_step dot rooted (go_up rooted k st) [dot, dot]

variable {sep dot}

theorem climb_step_names {s : ℕ × List (List α)} (c : List α) (h : [dot, dot] ∉ s.2) :
    [dot, dot] ∉ (climb_step dot s c).2 := by
  unfold climb_step
  split_ifs with h1 h2
  · exact h
  · split
    · exact List.not_mem_nil
    · rename_i t ts hs
      exact fun hmem => h (hs ▸ List.mem_cons_of_mem _ hmem)
  · exact fun hmem => (List.mem_cons.mp hmem).elim (fun heq => h2 heq.symm) h

theorem path_step_up_name (rooted : Bool) {t : List α} (ts : List (List α)) (h : t ≠ [dot, dot]) :
    path_step dot rooted (t :: ts) [dot, dot] = ts := by
  unfold path_step
  rw [if_neg (by simp), if_pos rfl]
  exact if_neg h

theorem path_step_up_root : path_step dot true [] [dot, dot] = [] := by
  unfold path_step
  rw [if_neg (by simp), if_pos rfl]
  rfl

theorem path_step_up_dots (m : ℕ) :
    path_step dot false (List.replicate m [dot, dot]) [dot, dot]
      = List.replicate (m + 1) [dot, dot] := by
  unfold path_step
  rw [if_neg (by simp), if_pos rfl]
  cases m with
  | zero => rfl
  | succ m =>
      rw [List.replicate_succ]
      exact if_pos rfl

/-- The walk from any place is the climb from there and the components behind it: one step. -/
theorem path_step_eq (rooted : Bool) (st : List (List α)) {s : ℕ × List (List α)} (c : List α)
    (h : [dot, dot] ∉ s.2) :
    path_step dot rooted (s.2 ++ go_up dot rooted s.1 st) c
      = (climb_step dot s c).2 ++ go_up dot rooted (climb_step dot s c).1 st := by
  obtain ⟨k, names⟩ := s
  by_cases h1 : c = [] ∨ c = [dot]
  · unfold path_step
    rw [if_pos h1, climb_step, if_pos h1]
  · by_cases h2 : c = [dot, dot]
    · rw [climb_step, if_neg h1, if_pos h2, h2]
      match names, h with
      | [], _ => rfl
      | t :: ts, h => exact path_step_up_name rooted _ fun heq => h (heq ▸ List.mem_cons_self)
    · unfold path_step
      rw [if_neg h1, if_neg h2, climb_step, if_neg h1, if_neg h2]
      rfl

theorem foldl_path_step (rooted : Bool) (st : List (List α)) (cs : List (List α))
    {s : ℕ × List (List α)} (h : [dot, dot] ∉ s.2) :
    cs.foldl (path_step dot rooted) (s.2 ++ go_up dot rooted s.1 st)
        = (cs.foldl (climb_step dot) s).2
          ++ go_up dot rooted (cs.foldl (climb_step dot) s).1 st
      ∧ [dot, dot] ∉ (cs.foldl (climb_step dot) s).2 := by
  induction cs generalizing s with
  | nil => exact ⟨rfl, h⟩
  | cons c cs ih =>
      rw [List.foldl_cons, List.foldl_cons, path_step_eq rooted st c h]
      exact ih (climb_step_names c h)

variable (sep dot) in
theorem climb_names (p : List α) : [dot, dot] ∉ (climb sep dot p).2 :=
  (foldl_path_step false [] _ (s := (0, [])) List.not_mem_nil).2

/-- What `..` makes of a normal form. -/
theorem go_up_eq (rooted : Bool) {names : List (List α)} (h : [dot, dot] ∉ names) (u k : ℕ)
    (hu : rooted = true → u = 0) :
    go_up dot rooted k (names ++ List.replicate u [dot, dot])
      = if k ≤ names.length then names.drop k ++ List.replicate u [dot, dot]
        else if rooted then [] else List.replicate (u + k - names.length) [dot, dot] := by
  induction k with
  | zero => simp [go_up]
  | succ k ih =>
      rw [go_up, ih]
      by_cases hk : k + 1 ≤ names.length
      · have hne : names[k] ≠ [dot, dot] := fun heq => h (heq ▸ List.getElem_mem _)
        rw [if_pos (by omega), if_pos hk, List.drop_eq_getElem_cons (by omega : k < names.length),
          List.cons_append]
        exact path_step_up_name rooted _ hne
      · rw [if_neg hk]
        -- all names are taken back: `..` is dropped at the root, and else kept
        cases rooted with
        | true =>
            have hrest : (if k ≤ names.length then
                names.drop k ++ List.replicate u [dot, dot] else []) = [] := by
              rw [hu rfl]
              split_ifs
              · simp; omega
              · rfl
            simp only [if_true, hrest]
            exact path_step_up_root
        | false =>
            have hrest : (if k ≤ names.length then names.drop k ++ List.replicate u [dot, dot]
                else List.replicate (u + k - names.length) [dot, dot])
                = List.replicate (u + k - names.length) [dot, dot] := by
              split_ifs with hle
              · rw [List.drop_eq_nil_of_le (by omega), List.nil_append,
                  show u + k - names.length = u by omega]
              · rfl
            simp only [Bool.false_eq_true, if_false, hrest]
            rw [path_step_up_dots, show u + (k + 1) - names.length = u + k - names.length + 1 by omega]

variable (dot) in
theorem go_up_nil (rooted : Bool) (k : ℕ) :
    go_up dot rooted k [] = List.replicate (if rooted then 0 else k) [dot, dot] := by
  have hup := go_up_eq rooted (List.not_mem_nil : [dot, dot] ∉ []) 0 k fun _ => rfl
  simp only [List.replicate_zero, List.append_nil, List.length_nil, Nat.le_zero, List.drop_nil]
    at hup
  rw [hup]
  cases rooted with
  | true => simp
  | false =>
      by_cases hk : k = 0
      · simp [hk]
      · simp [hk]

variable (sep dot) in
theorem normal_eq (p : List α) :
    normal sep dot p = (climb sep dot p).2
      ++ List.replicate (if is_rooted sep p then 0 else (climb sep dot p).1) [dot, dot] := by
  rw [← go_up_nil dot]
  exact (foldl_path_step (is_rooted sep p) [] (p.splitOn sep) (s := (0, []))
    List.not_mem_nil).1

variable (sep dot) in
/-- The shape of a normal form. -/
theorem normal_shape (p : List α) :
    ∃ names u, normal sep dot p = names ++ List.replicate u [dot, dot] ∧ [dot, dot] ∉ names
      ∧ (is_rooted sep p = true → u = 0) :=
  ⟨_, _, normal_eq sep dot p, climb_names sep dot p, fun h => if_pos h⟩

theorem is_rooted_join {base : List α} (hbase : base ≠ []) (p : List α) :
    is_rooted sep (base ++ sep :: p) = is_rooted sep base := by
  cases base with
  | nil => exact absurd rfl hbase
  | cons c cs => rfl

theorem normal_join {base p : List α} (hbase : base ≠ []) :
    normal sep dot (base ++ sep :: p)
      = (climb sep dot p).2
        ++ go_up dot (is_rooted sep base) (climb sep dot p).1 (normal sep dot base) := by
  rw [normal, is_rooted_join hbase, List.splitOn_append_cons_self, List.foldl_append]
  exact (foldl_path_step (is_rooted sep base) (normal sep dot base) (p.splitOn sep)
    (s := (0, [])) List.not_mem_nil).1

/-- **Joining.** -/
theorem inside_join_iff {base p : List α} (hbase : base ≠ []) :
    Inside sep dot base (base ++ sep :: p) ↔ Lands sep dot base p := by
  obtain ⟨names, u, hshape, hnames, hu⟩ := normal_shape sep dot base
  have hclimb := climb_names sep dot p
  rw [Inside, Lands, normal_join hbase, is_rooted_join hbase, hshape, go_up_eq _ hnames u _ hu]
  set k := (climb sep dot p).1
  set rest := (climb sep dot p).2
  by_cases hk : k ≤ names.length
  · -- the path took back `k` components, and what stands below them is still there
    have hsplit : names ++ List.replicate u [dot, dot]
        = names.take k ++ (names.drop k ++ List.replicate u [dot, dot]) := by
      rw [← List.append_assoc, List.take_append_drop]
    rw [if_pos hk, List.take_append_of_le_length hk, hsplit]
    constructor
    · rintro ⟨-, more, heq, -⟩
      simp only [← List.append_assoc, List.append_left_inj] at heq
      exact Or.inr ⟨Or.inr (by simp; omega), more, heq.symm⟩
    · intro hlands
      obtain ⟨more, hmore⟩ : names.take k <:+ rest := by
        rcases hlands with hzero | ⟨-, hsuffix⟩
        · rw [hzero, List.take_zero]
          exact List.nil_suffix
        · exact hsuffix
      refine ⟨rfl, more, ?_, fun hmem => hclimb (hmore ▸ List.mem_append_left _ hmem)⟩
      simp only [← List.append_assoc, hmore]
  · rw [if_neg hk]
    by_cases hrooted : is_rooted sep base = true
    · rw [hu hrooted, List.replicate_zero, List.append_nil, List.take_of_length_le (by omega)]
      simp only [hrooted, if_true, List.append_nil, true_or, true_and]
      constructor
      · rintro ⟨more, heq, -⟩
        exact Or.inr ⟨more, heq.symm⟩
      · rintro (hzero | ⟨more, hmore⟩)
        · omega
        · exact ⟨more, hmore.symm, fun hmem => hclimb (hmore ▸ List.mem_append_left _ hmem)⟩
    · -- more `..` than components: some are left in front of the base's own
      constructor
      · rintro ⟨-, more, heq, hmore⟩
        have hcount := congrArg (List.count [dot, dot]) heq
        simp only [hrooted, Bool.false_eq_true, if_false, List.count_append,
          List.count_replicate_self, List.count_eq_zero_of_not_mem hclimb,
          List.count_eq_zero_of_not_mem hnames, List.count_eq_zero_of_not_mem hmore] at hcount
        omega
      · rintro (hzero | ⟨hlevel, hsuffix⟩)
        · omega
        · have hlong : k ≤ names.length + u := by
            simpa [hrooted] using hlevel
          have hmem : [dot, dot] ∈ (names ++ List.replicate u [dot, dot]).take k := by
            rw [List.take_append, List.take_replicate]
            exact List.mem_append_right _ (List.mem_replicate.mpr ⟨by omega, rfl⟩)
          exact absurd (hsuffix.subset hmem) hclimb

theorem Inside.refl (base : List α) : Inside sep dot base base := ⟨rfl, [], rfl, List.not_mem_nil⟩

/-- A path taken as it is, with `.` for its base. -/
theorem inside_here_iff (hne : dot ≠ sep) {p : List α} :
    Inside sep dot [dot] p ↔ is_rooted sep p = false ∧ Lands sep dot [dot] p := by
  have hrooted : is_rooted sep [dot] = false := by simpa [is_rooted] using hne
  have hclimb : climb sep dot [dot] = (0, []) := by
    rw [climb, List.splitOn_eq_singleton (by simpa using hne.symm)]
    simp [climb_step]
  have hnormal : normal sep dot [dot] = [] := by simp [normal_eq, hclimb]
  rw [Inside, Lands, hrooted, hnormal]
  constructor
  · rintro ⟨hp, names, heq, hnames⟩
    rw [normal_eq, hp, List.append_nil] at heq
    have hzero : (climb sep dot p).1 = 0 := by
      by_contra hk
      apply hnames
      rw [← heq]
      exact List.mem_append_right _ (List.mem_replicate.mpr ⟨hk, rfl⟩)
    exact ⟨hp, Or.inl hzero⟩
  · rintro ⟨hp, hlands⟩
    have hzero : (climb sep dot p).1 = 0 := by simpa using hlands
    refine ⟨hp, (climb sep dot p).2, ?_, climb_names sep dot p⟩
    rw [normal_eq, hp, hzero]
    rfl

end SysInC.LexicalPath
