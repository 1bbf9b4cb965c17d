/-
The grouping loop of `fdup.c`: which duplicates it finds among files that are sorted by size.

The loop takes a run of files of one size, compares its first file with the others, and goes on
behind the run. So of a run it finds the duplicates of the first file, and no others.
-/
import Mathlib.Algebra.BigOperators.Group.Finset.Basic
import Mathlib.Algebra.Order.Ring.Int
import Mathlib.Data.List.Pairwise
import Mathlib.Data.List.TakeWhile
import Mathlib.Tactic.Common

set_option autoImplicit false

namespace SysInC.Fdup

/-! ## The files -/

structure FileEntry where
  size : ℕ
  hash : List UInt8
  group_id : ℤ
  deriving DecidableEq

def compare_by_size (a b : FileEntry) : ℤ :=
  if b.size > a.size then 1 else if b.size < a.size then -1 else 0

/-- What `qsort` may leave, which is not stable. -/
def Sorted (files : List FileEntry) : Prop :=
  files.Pairwise fun a b => compare_by_size a b ≤ 0

/-! ## The loop -/

/-- What a `size_t` wraps at. -/
def SIZE_MOD : ℕ := 2 ^ 64

structure grouping where
  current_group : ℤ
  total_wasted_bytes : ℕ

/-- The loop over `j`: the files of the run behind `f`, which is `files[i]`. All digests are
computed. The flag is `group_found`. -/
def match_run (f : FileEntry) :
    List FileEntry → Bool → grouping → List FileEntry × Bool × grouping
  | [], group_found, g => ([], group_found, g)
  | x :: rest, group_found, g =>
    if x.group_id ≠ -1 then
      let r := match_run f rest group_found g
      (x :: r.1, r.2)
    else if f.hash = x.hash then
      let current_group := if group_found then g.current_group else g.current_group + 1
      let r := match_run f rest true
        ⟨current_group, (g.total_wasted_bytes + f.size) % SIZE_MOD⟩
      ({ x with group_id := current_group } :: r.1, r.2)
    else
      let r := match_run f rest group_found g
      (x :: r.1, r.2)

/-- The loop over `i`, on the files from `i` on. `match_count` files are the first one and those
of its size behind it; the next turn begins behind them. -/
def group_loop : ℕ → List FileEntry → grouping → List FileEntry × grouping
  | 0, files, g => (files, g)
  | _ + 1, [], g => ([], g)
  | fuel + 1, f :: rest, g =>
    if f.group_id ≠ -1 then
      let r := group_loop fuel rest g
      (f :: r.1, r.2)
    else
      let r := match_run f (rest.takeWhile fun x => x.size = f.size) false g
      let after := group_loop fuel (rest.dropWhile fun x => x.size = f.size) r.2.2
      let f := if r.2.1 then { f with group_id := r.2.2.current_group } else f
      (f :: (r.1 ++ after.1), after.2)

/-- The loop over all files. -/
def grouped (files : List FileEntry) : List FileEntry × grouping :=
  group_loop files.length files ⟨0, 0⟩

/-! ## What it should find -/

/-- The files are duplicates of each other. -/
def FileEntry.Same (a b : FileEntry) : Prop := a.size = b.size ∧ a.hash = b.hash

/-- The files are in one group. -/
def FileEntry.Together (a b : FileEntry) : Prop := a.group_id = b.group_id ∧ a.group_id ≠ -1

/-- The numbers of the groups. -/
def groups (files : List FileEntry) : Finset ℤ := (files.map FileEntry.group_id).toFinset.erase (-1)

def members (files : List FileEntry) (n : ℤ) : ℕ := files.countP fun f => f.group_id = n

/-- The size of the files of a group. -/
def group_size (files : List FileEntry) (n : ℤ) : ℕ :=
  ((files.find? fun f => f.group_id = n).map FileEntry.size).getD 0

def wasted (files : List FileEntry) : ℕ :=
  ∑ n ∈ groups files, group_size files n * (members files n - 1)

instance (a b : FileEntry) : Decidable (a.Same b) := inferInstanceAs (Decidable (_ ∧ _))

/-- The duplicates, and no others, are together; a class of them is a group; and the total is that
of the groups. -/
structure Complete (files : List FileEntry) (total : ℕ) : Prop where
  together : files.Pairwise fun a b => a.Together b ↔ a.Same b
  classes : ∀ f ∈ files, 2 ≤ files.countP (fun x => f.Same x) →
    ∃ n, n ≠ -1 ∧ ∀ x ∈ files, x.group_id = n ↔ f.Same x
  total : total = wasted files

/-- Of the files of one size, those that have a duplicate have the digest of the first. -/
def FirstDecides (files : List FileEntry) : Prop :=
  files.Pairwise fun a b => a.Same b → ∀ c,
    (files.find? fun c => c.size = a.size) = some c → c.hash = a.hash

/-- The bytes of the files that have a duplicate behind them. -/
def dup_bytes : List FileEntry → ℕ
  | [] => 0
  | f :: rest => (if ∃ x ∈ rest, f.Same x then f.size else 0) + dup_bytes rest

/-! ## What a turn of the loop does -/

/-- The file, marked if it has the digest of the first. -/
def mark (f : FileEntry) (n : ℤ) (x : FileEntry) : FileEntry :=
  if f.hash = x.hash then { x with group_id := n } else x

/-- The duplicates of the first file in its run. -/
def dups (f : FileEntry) (run : List FileEntry) : ℕ := run.countP fun x => f.hash = x.hash

theorem dups_eq_zero {f : FileEntry} {run : List FileEntry} :
    dups f run = 0 ↔ ∀ x ∈ run, f.hash ≠ x.hash := by
  simp [dups, List.countP_eq_zero]

theorem map_mark_of_no_dups {f : FileEntry} {run : List FileEntry} (n : ℤ) (none : dups f run = 0) :
    run.map (mark f n) = run := by
  refine (List.map_congr_left fun x hx => ?_).trans run.map_id
  exact if_neg (dups_eq_zero.mp none x hx)

theorem match_run_fresh (f : FileEntry) {run : List FileEntry} (fresh : ∀ x ∈ run, x.group_id = -1)
    (group_found : Bool) (g : grouping) (small : g.total_wasted_bytes < SIZE_MOD) :
    match_run f run group_found g =
      let n := if group_found then g.current_group else g.current_group + 1
      (run.map (mark f n), group_found || decide (dups f run ≠ 0),
        ⟨if dups f run = 0 then g.current_group else n,
          (g.total_wasted_bytes + f.size * dups f run) % SIZE_MOD⟩) := by
  induction run generalizing group_found g with
  | nil => simp [match_run, dups, Nat.mod_eq_of_lt small]
  | cons x rest ih =>
    have idle : ¬ x.group_id ≠ -1 := not_not.mpr (fresh x (.head _))
    rw [match_run, if_neg idle]
    replace ih := ih fun y hy => fresh y (.tail _ hy)
    by_cases same : f.hash = x.hash
    · have count : dups f (x :: rest) = dups f rest + 1 :=
        List.countP_cons_of_pos (by simpa using same)
      have wraps : ((g.total_wasted_bytes + f.size) % SIZE_MOD + f.size * dups f rest) % SIZE_MOD =
          (g.total_wasted_bytes + f.size * (dups f rest + 1)) % SIZE_MOD := by
        rw [Nat.mod_add_mod, Nat.mul_succ, Nat.add_assoc, Nat.add_comm f.size]
      rw [if_pos same]
      dsimp only
      rw [ih _ _ (Nat.mod_lt _ (by decide)), count]
      simp [mark, same, wraps]
    · have count : dups f (x :: rest) = dups f rest :=
        List.countP_cons_of_neg (by simpa using same)
      rw [if_neg same]
      dsimp only
      rw [ih _ _ small, count]
      simp [mark, same]

/-- What the loop makes of files that are sorted by size: run after run, the first file of a run
and its duplicates are marked if it has any, and nothing else is. -/
inductive Blocks : grouping → List FileEntry → List FileEntry → grouping → Prop
  | nil (g : grouping) : Blocks g [] [] g
  | single {g g' : grouping} {f : FileEntry} {run after out : List FileEntry}
      (run_size : ∀ x ∈ run, x.size = f.size) (after_size : ∀ x ∈ after, x.size < f.size)
      (none : dups f run = 0) (loop : Blocks g after out g') :
      Blocks g (f :: run ++ after) (f :: run ++ out) g'
  | group {g g' : grouping} {f : FileEntry} {run after out : List FileEntry}
      (run_size : ∀ x ∈ run, x.size = f.size) (after_size : ∀ x ∈ after, x.size < f.size)
      (found : dups f run ≠ 0)
      (loop : Blocks ⟨g.current_group + 1, (g.total_wasted_bytes + f.size * dups f run) % SIZE_MOD⟩
        after out g') :
      Blocks g (f :: run ++ after) ((f :: run).map (mark f (g.current_group + 1)) ++ out) g'

theorem compare_by_size_le {a b : FileEntry} (h : compare_by_size a b ≤ 0) : b.size ≤ a.size := by
  by_contra bigger
  rw [compare_by_size, if_pos (not_le.mp bigger)] at h
  exact absurd h (by decide)

/-- Behind the run all files are smaller. -/
theorem after_run_size {f : FileEntry} {rest : List FileEntry} (order : Sorted (f :: rest)) :
    ∀ x ∈ rest.dropWhile (fun x => x.size = f.size), x.size < f.size := by
  induction rest with
  | nil => nofun
  | cons y rest ih =>
    obtain ⟨first, order'⟩ := List.pairwise_cons.mp order
    by_cases same : y.size = f.size
    · rw [List.dropWhile_cons_of_pos (by simpa using same)]
      exact ih (order.sublist (.cons_cons _ (.cons _ (.refl _))))
    · rw [List.dropWhile_cons_of_neg (by simpa using same)]
      have less : y.size < f.size := lt_of_le_of_ne (compare_by_size_le (first y (.head _))) same
      intro x hx
      rcases List.mem_cons.mp hx with rfl | hx
      · exact less
      · exact lt_of_le_of_lt (compare_by_size_le ((List.pairwise_cons.mp order').1 x hx)) less

theorem group_loop_blocks {fuel : ℕ} {files : List FileEntry} (enough : files.length ≤ fuel)
    (fresh : ∀ x ∈ files, x.group_id = -1) (order : Sorted files) (g : grouping)
    (small : g.total_wasted_bytes < SIZE_MOD) :
    Blocks g files (group_loop fuel files g).1 (group_loop fuel files g).2 := by
  induction fuel generalizing files g with
  | zero =>
    obtain rfl := List.length_eq_zero_iff.mp (Nat.le_zero.mp enough)
    exact .nil g
  | succ fuel ih =>
    cases files with
    | nil => exact .nil g
    | cons f rest =>
      have idle : ¬ f.group_id ≠ -1 := not_not.mpr (fresh f (.head _))
      have split := rest.takeWhile_append_dropWhile (p := fun x => x.size = f.size)
      have run_size : ∀ x ∈ rest.takeWhile (fun x => x.size = f.size), x.size = f.size :=
        fun x hx => by simpa using List.mem_takeWhile_imp hx
      have after_size := after_run_size order
      rw [group_loop, if_neg idle]
      generalize rest.takeWhile (fun x => x.size = f.size) = run at split run_size ⊢
      generalize rest.dropWhile (fun x => x.size = f.size) = after at split after_size ⊢
      subst split
      have fits : after.length ≤ fuel := by
        simp only [List.length_cons, List.length_append] at enough
        omega
      have after_order : Sorted after :=
        (List.pairwise_append.mp (List.pairwise_cons.mp order).2).2.1
      have after_fresh : ∀ x ∈ after, x.group_id = -1 := fun x hx => fresh x (by simp [hx])
      rw [match_run_fresh f (fun x hx => fresh x (by simp [hx])) false g small]
      -- The first file is marked with its duplicates, if it has any.
      by_cases none : dups f run = 0
      · simpa [none, map_mark_of_no_dups, Nat.mod_eq_of_lt small] using
          Blocks.single run_size after_size none (ih fits after_fresh after_order g small)
      · have first : mark f (g.current_group + 1) f = { f with group_id := g.current_group + 1 } :=
          if_pos rfl
        have turn := Blocks.group (g := g) run_size after_size none
          (ih fits after_fresh after_order _ (Nat.mod_lt _ (by decide)))
        simpa [none, first] using turn

/-! ## Which files are together -/

/-- What is compared, which the loop leaves alone. -/
def FileEntry.contents (f : FileEntry) : ℕ × List UInt8 := (f.size, f.hash)

@[simp] theorem mark_contents (f : FileEntry) (n : ℤ) (x : FileEntry) :
    (mark f n x).contents = x.contents := by
  unfold mark
  split <;> rfl

@[simp] theorem mark_size (f : FileEntry) (n : ℤ) (x : FileEntry) : (mark f n x).size = x.size :=
  congrArg Prod.fst (mark_contents f n x)

@[simp] theorem mark_hash (f : FileEntry) (n : ℤ) (x : FileEntry) : (mark f n x).hash = x.hash :=
  congrArg Prod.snd (mark_contents f n x)

theorem mark_group_id (f : FileEntry) (n : ℤ) {x : FileEntry} (fresh : x.group_id = -1) :
    (mark f n x).group_id = if f.hash = x.hash then n else -1 := by
  unfold mark
  split
  · rfl
  · exact fresh

theorem same_iff {a b : FileEntry} : a.Same b ↔ a.contents = b.contents := by
  simp [FileEntry.Same, FileEntry.contents]

theorem not_same_of_size {a b : FileEntry} (less : b.size < a.size) : ¬ a.Same b :=
  fun same => less.ne same.1.symm

theorem not_together_of_fresh {a b : FileEntry} (fresh : a.group_id = -1) : ¬ a.Together b :=
  fun together => together.2 fresh

theorem block_size {f : FileEntry} {run : List FileEntry} (run_size : ∀ x ∈ run, x.size = f.size) :
    ∀ x ∈ f :: run, x.size = f.size := by
  intro x hx
  rcases List.mem_cons.mp hx with rfl | hx
  · rfl
  · exact run_size x hx

theorem Blocks.contents {g g' : grouping} {files out : List FileEntry} (h : Blocks g files out g') :
    out.map FileEntry.contents = files.map FileEntry.contents := by
  induction h with
  | nil => rfl
  | single _ _ _ _ ih => simp only [List.map_append, ih]
  | group _ _ _ _ ih => simp [List.map_append, ih, Function.comp_def]

theorem Blocks.size_lt {g g' : grouping} {files out : List FileEntry} {s : ℕ}
    (h : Blocks g files out g') (less : ∀ x ∈ files, x.size < s) : ∀ x ∈ out, x.size < s := by
  intro x hx
  have kept : x.contents ∈ files.map FileEntry.contents := h.contents ▸ List.mem_map_of_mem hx
  obtain ⟨y, hy, same⟩ := List.mem_map.mp kept
  exact (same_iff.mpr same).1 ▸ less y hy

/-- The groups the loop makes are new. -/
theorem Blocks.group_id {g g' : grouping} {files out : List FileEntry} (h : Blocks g files out g')
    (fresh : ∀ x ∈ files, x.group_id = -1) :
    ∀ x ∈ out, x.group_id = -1 ∨ g.current_group < x.group_id := by
  induction h with
  | nil => nofun
  | single _ _ _ _ ih =>
    intro x hx
    rcases List.mem_append.mp hx with hx | hx
    · exact .inl (fresh x (List.mem_append_left _ hx))
    · exact ih (fun y hy => fresh y (List.mem_append_right _ hy)) x hx
  | group _ _ _ _ ih =>
    intro x hx
    rcases List.mem_append.mp hx with hx | hx
    · obtain ⟨y, hy, rfl⟩ := List.mem_map.mp hx
      rw [mark_group_id _ _ (fresh y (List.mem_append_left _ hy))]
      split
      · exact .inr (Int.lt_succ _)
      · exact .inl rfl
    · refine (ih (fun y hy => fresh y (List.mem_append_right _ hy)) x hx).imp_right fun later => ?_
      exact lt_trans (Int.lt_succ _) later

/-- The group of a run has no file behind the run. -/
theorem Blocks.marked_apart {c : ℤ} {t : ℕ} {g' : grouping} {f : FileEntry}
    {block after out : List FileEntry} (h : Blocks ⟨c, t⟩ after out g')
    (block_fresh : ∀ x ∈ block, x.group_id = -1) (after_fresh : ∀ x ∈ after, x.group_id = -1) :
    ∀ a ∈ block.map (mark f c), ∀ b ∈ out, ¬ a.Together b := by
  rintro a ha b hb ⟨same, marked⟩
  obtain ⟨x, hx, rfl⟩ := List.mem_map.mp ha
  have later := h.group_id after_fresh b hb
  rw [mark_group_id _ _ (block_fresh x hx)] at same marked
  by_cases dup : f.hash = x.hash
  · rw [if_pos dup] at same marked
    rcases later with idle | later
    · exact marked (same.trans idle)
    · exact later.ne same
  · rw [if_neg dup] at marked
    exact marked rfl

/-- The files are together if and only if they are duplicates. -/
def Right (a b : FileEntry) : Prop := a.Together b ↔ a.Same b

/-- Between two runs nothing is to be found, and nothing is. -/
theorem pairwise_right_append {block out : List FileEntry}
    (smaller : ∀ a ∈ block, ∀ b ∈ out, b.size < a.size)
    (apart : ∀ a ∈ block, ∀ b ∈ out, ¬ a.Together b) :
    (block ++ out).Pairwise Right ↔ block.Pairwise Right ∧ out.Pairwise Right := by
  rw [List.pairwise_append, ← and_assoc, and_iff_left]
  exact fun a ha b hb => iff_of_false (apart a ha b hb) (not_same_of_size (smaller a ha b hb))

/-- Within a run only the duplicates of the first file are found. -/
def RunDecides (f : FileEntry) (run : List FileEntry) : Prop :=
  run.Pairwise fun a b => a.hash = b.hash → f.hash = a.hash

theorem firstDecides_append {f : FileEntry} {run after : List FileEntry}
    (run_size : ∀ x ∈ run, x.size = f.size) (after_size : ∀ x ∈ after, x.size < f.size) :
    FirstDecides (f :: run ++ after) ↔ RunDecides f run ∧ FirstDecides after := by
  have behind : ∀ a ∈ after, (f :: run ++ after).find? (fun c => c.size = a.size) =
      after.find? fun c => c.size = a.size := by
    intro a ha
    have skipped : (f :: run).find? (fun c => c.size = a.size) = none := by
      refine List.find?_eq_none.mpr fun x hx => ?_
      have size := block_size run_size x hx
      simpa [size] using (after_size a ha).ne'
    rw [List.find?_append, skipped, Option.none_or]
  have first : ∀ a ∈ run, (f :: run ++ after).find? (fun c => c.size = a.size) = some f :=
    fun a ha => List.find?_cons_of_pos (by simp [run_size a ha])
  unfold FirstDecides
  rw [List.pairwise_append, List.pairwise_cons]
  constructor
  · rintro ⟨⟨_, inner⟩, outer, _⟩
    refine ⟨inner.imp_of_mem fun {a b} ha hb decides same => ?_,
      outer.imp_of_mem fun {a b} ha _ decides same c hc => decides same c ((behind a ha).trans hc)⟩
    exact decides ⟨(run_size a ha).trans (run_size b hb).symm, same⟩ f (first a ha)
  · rintro ⟨inner, outer⟩
    refine ⟨⟨fun b hb same c hc => ?_, inner.imp_of_mem fun {a b} ha _ decides same c hc => ?_⟩,
      outer.imp_of_mem fun {a b} ha _ decides same c hc =>
        decides same c ((behind a ha).symm.trans hc),
      fun a ha b hb same => ?_⟩
    · have this : (f :: run ++ after).find? (fun c => c.size = f.size) = some f :=
        List.find?_cons_of_pos (by simp)
      obtain rfl := Option.some.inj (this.symm.trans hc)
      rfl
    · obtain rfl := Option.some.inj ((first a ha).symm.trans hc)
      exact decides same.2
    · have size := block_size run_size a ha
      exact absurd same (not_same_of_size (size ▸ after_size b hb))

theorem single_right {f : FileEntry} {run : List FileEntry} (run_size : ∀ x ∈ run, x.size = f.size)
    (fresh : ∀ x ∈ f :: run, x.group_id = -1) (none : dups f run = 0) :
    (f :: run).Pairwise Right ↔ RunDecides f run := by
  have first : ∀ x ∈ run, Right f x := fun x hx =>
    iff_of_false (not_together_of_fresh (fresh f (.head _))) fun same =>
      dups_eq_zero.mp none x hx same.2
  rw [List.pairwise_cons, and_iff_right first]
  refine List.Pairwise.iff_of_mem fun {a b} ha hb => ?_
  have apart := not_together_of_fresh (b := b) (fresh a (.tail _ ha))
  have size := (run_size a ha).trans (run_size b hb).symm
  simp [Right, apart, FileEntry.Same, size, dups_eq_zero.mp none a ha]

theorem group_right {f : FileEntry} {run : List FileEntry} (run_size : ∀ x ∈ run, x.size = f.size)
    (fresh : ∀ x ∈ f :: run, x.group_id = -1) {n : ℤ} (new : n ≠ -1) :
    ((f :: run).map (mark f n)).Pairwise Right ↔ RunDecides f run := by
  have marked : ∀ a ∈ f :: run, ∀ b ∈ f :: run, Right (mark f n a) (mark f n b) ↔
      (a.hash = b.hash → f.hash = a.hash) := by
    intro a ha b hb
    have size := block_size run_size
    simp only [Right, FileEntry.Together, FileEntry.Same, mark_group_id f n (fresh a ha),
      mark_group_id f n (fresh b hb), mark_size, mark_hash, size a ha, size b hb, true_and]
    by_cases hfa : f.hash = a.hash <;> by_cases hfb : f.hash = b.hash
    · simp [hfa, new, hfb.symm.trans hfa]
    · simp [hfa, new]
    · simp [hfa]
    · simp [hfa]
  rw [List.pairwise_map, List.Pairwise.iff_of_mem fun {a b} ha hb => marked a ha b hb,
    List.pairwise_cons, and_iff_right fun _ _ _ => rfl, RunDecides]

theorem Blocks.right_iff {g g' : grouping} {files out : List FileEntry} (h : Blocks g files out g')
    (fresh : ∀ x ∈ files, x.group_id = -1) (start : 0 ≤ g.current_group) :
    out.Pairwise Right ↔ FirstDecides files := by
  induction h with
  | nil => simp [FirstDecides]
  | @single g g' f run after out run_size after_size none loop ih =>
    have block_fresh : ∀ x ∈ f :: run, x.group_id = -1 := fun x hx =>
      fresh x (List.mem_append_left _ hx)
    have size := block_size run_size
    rw [firstDecides_append run_size after_size, pairwise_right_append,
      single_right run_size block_fresh none,
      ih (fun x hx => fresh x (List.mem_append_right _ hx)) start]
    · exact fun a ha b hb => size a ha ▸ loop.size_lt after_size b hb
    · exact fun a ha b _ => not_together_of_fresh (block_fresh a ha)
  | @group g g' f run after out run_size after_size found loop ih =>
    have block_fresh : ∀ x ∈ f :: run, x.group_id = -1 := fun x hx =>
      fresh x (List.mem_append_left _ hx)
    have after_fresh : ∀ x ∈ after, x.group_id = -1 := fun x hx =>
      fresh x (List.mem_append_right _ hx)
    have new : g.current_group + 1 ≠ -1 := by omega
    rw [firstDecides_append run_size after_size, pairwise_right_append,
      group_right run_size block_fresh new, ih after_fresh (Int.le_add_one start)]
    · intro a ha b hb
      obtain ⟨x, hx, rfl⟩ := List.mem_map.mp ha
      have size := block_size run_size x hx
      rw [mark_size, size]
      exact loop.size_lt after_size b hb
    · exact loop.marked_apart block_fresh after_fresh

/-- A class is a group when the right files are together. -/
theorem class_of_right {out : List FileEntry} (right : out.Pairwise Right) {f : FileEntry}
    (many : 2 ≤ out.countP fun x => f.Same x) :
    ∃ n, n ≠ -1 ∧ ∀ x ∈ out, x.group_id = n ↔ f.Same x := by
  have symm : Std.Symm Right := ⟨fun a b h => by
    simp only [Right, FileEntry.Together, FileEntry.Same] at h ⊢
    rw [eq_comm (a := b.size), eq_comm (a := b.hash), ← h, eq_comm (a := b.group_id)]
    exact and_congr_right fun same => same ▸ Iff.rfl⟩
  rw [List.countP_eq_length_filter] at many
  obtain ⟨a, b, l, filtered⟩ : ∃ a b l, out.filter (fun x => f.Same x) = a :: b :: l := by
    match hl : out.filter (fun x => f.Same x), many with
    | a :: b :: l, _ => exact ⟨a, b, l, rfl⟩
  have class_mem : ∀ x ∈ a :: b :: l, x ∈ out ∧ f.Same x := fun x hx =>
    (List.mem_filter.mp (filtered ▸ hx)).imp_right of_decide_eq_true
  have ha := class_mem a (.head _)
  have hb := class_mem b (.tail _ (.head _))
  have pair : Right a b := by
    have kept := right.sublist (List.filter_sublist (p := fun x => decide (f.Same x)))
    rw [filtered] at kept
    exact (List.pairwise_cons.mp kept).1 b (.head _)
  have grouped : a.group_id ≠ -1 :=
    (pair.mpr ⟨ha.2.1.symm.trans hb.2.1, ha.2.2.symm.trans hb.2.2⟩).2
  refine ⟨a.group_id, grouped, fun x hx => ?_⟩
  by_cases self : x = a
  · exact iff_of_true (congrArg _ self) (self ▸ ha.2)
  · have other : Right a x := right.forall ha.1 hx (Ne.symm self)
    constructor
    · intro same
      have found := other.mp ⟨same.symm, grouped⟩
      exact ⟨ha.2.1.trans found.1, ha.2.2.trans found.2⟩
    · intro same
      exact (other.mpr ⟨ha.2.1.symm.trans same.1, ha.2.2.symm.trans same.2⟩).1.symm

/-! ## The bytes -/

theorem mem_groups {files : List FileEntry} {n : ℤ} :
    n ∈ groups files ↔ n ≠ -1 ∧ ∃ f ∈ files, f.group_id = n := by
  simp [groups]

theorem find?_group_eq_none {files : List FileEntry} {n : ℤ} (hn : ∀ f ∈ files, f.group_id ≠ n) :
    files.find? (fun f => f.group_id = n) = none :=
  List.find?_eq_none.mpr fun f hf => by simpa using hn f hf

theorem members_eq_zero {files : List FileEntry} {n : ℤ} (hn : ∀ f ∈ files, f.group_id ≠ n) :
    members files n = 0 :=
  List.countP_eq_zero.mpr fun f hf => by simpa using hn f hf

/-- Groups of two parts of the files that share none count for themselves. -/
theorem wasted_append {block out : List FileEntry}
    (apart : ∀ a ∈ block, ∀ b ∈ out, ¬ a.Together b) :
    wasted (block ++ out) = wasted block + wasted out := by
  have union : groups (block ++ out) = groups block ∪ groups out := by
    simp [groups, List.toFinset_append, Finset.erase_union_distrib]
  have disjoint : Disjoint (groups block) (groups out) := by
    rw [Finset.disjoint_left]
    intro n hn hn'
    obtain ⟨grouped, a, ha, rfl⟩ := mem_groups.mp hn
    obtain ⟨_, b, hb, same⟩ := mem_groups.mp hn'
    exact apart a ha b hb ⟨same.symm, grouped⟩
  unfold wasted
  rw [union, Finset.sum_union disjoint]
  congr 1
  · refine Finset.sum_congr rfl fun n hn => ?_
    obtain ⟨grouped, a, ha, rfl⟩ := mem_groups.mp hn
    have others : members out a.group_id = 0 :=
      members_eq_zero fun b hb same => apart a ha b hb ⟨same.symm, grouped⟩
    obtain ⟨first, hfirst⟩ := Option.isSome_iff_exists.mp
      (List.find?_isSome (p := fun f => f.group_id = a.group_id) |>.mpr ⟨a, ha, by simp⟩)
    rw [members, List.countP_append, ← members, ← members, others, Nat.add_zero, group_size,
      List.find?_append, hfirst, Option.some_or, group_size, hfirst]
  · refine Finset.sum_congr rfl fun n hn => ?_
    obtain ⟨grouped, b, hb, rfl⟩ := mem_groups.mp hn
    have others : ∀ a ∈ block, a.group_id ≠ b.group_id := fun a ha same =>
      apart a ha b hb ⟨same, same ▸ grouped⟩
    rw [members, List.countP_append, ← members, ← members, members_eq_zero others, Nat.zero_add,
      group_size, List.find?_append, find?_group_eq_none others, Option.none_or, group_size]

theorem wasted_single {block : List FileEntry} (fresh : ∀ x ∈ block, x.group_id = -1) :
    wasted block = 0 := by
  have empty : groups block = ∅ := Finset.eq_empty_of_forall_notMem fun n hn => by
    obtain ⟨grouped, f, hf, rfl⟩ := mem_groups.mp hn
    exact grouped (fresh f hf)
  rw [wasted, empty, Finset.sum_empty]

theorem wasted_group {f : FileEntry} {run : List FileEntry}
    (fresh : ∀ x ∈ f :: run, x.group_id = -1) {n : ℤ} (new : n ≠ -1) :
    wasted ((f :: run).map (mark f n)) = f.size * dups f run := by
  have first : (mark f n f).group_id = n := by
    rw [mark_group_id f n (fresh f (.head _)), if_pos rfl]
  have only : groups ((f :: run).map (mark f n)) = {n} := by
    ext m
    rw [mem_groups, Finset.mem_singleton]
    constructor
    · rintro ⟨grouped, y, hy, rfl⟩
      obtain ⟨x, hx, rfl⟩ := List.mem_map.mp hy
      rw [mark_group_id f n (fresh x hx)] at grouped ⊢
      split at grouped
      · rw [if_pos ‹_›]
      · exact absurd rfl grouped
    · rintro rfl
      exact ⟨new, _, List.mem_map_of_mem (.head _), first⟩
  have count : members ((f :: run).map (mark f n)) n = dups f run + 1 := by
    rw [List.map_cons, members, List.countP_cons_of_pos (by simpa using first),
      List.countP_map, dups]
    congr 1
    refine List.countP_congr fun x hx => ?_
    simp only [Function.comp_apply, decide_eq_true_eq, mark_group_id f n (fresh x (.tail _ hx))]
    split
    · simp [*]
    · simpa [*] using new.symm
  have size : group_size ((f :: run).map (mark f n)) n = f.size := by
    rw [group_size, List.map_cons, List.find?_cons_of_pos (by simpa using first)]
    exact mark_size f n f
  rw [wasted, only, Finset.sum_singleton, count, size, Nat.add_sub_cancel]

theorem Blocks.total {g g' : grouping} {files out : List FileEntry} (h : Blocks g files out g')
    (fresh : ∀ x ∈ files, x.group_id = -1) (start : 0 ≤ g.current_group)
    (small : g.total_wasted_bytes < SIZE_MOD) :
    g'.total_wasted_bytes = (g.total_wasted_bytes + wasted out) % SIZE_MOD := by
  induction h with
  | nil => exact (Nat.mod_eq_of_lt small).symm
  | @single g g' f run after out _ _ _ loop ih =>
    have block_fresh : ∀ x ∈ f :: run, x.group_id = -1 := fun x hx =>
      fresh x (List.mem_append_left _ hx)
    rw [ih (fun x hx => fresh x (List.mem_append_right _ hx)) start small, wasted_append,
      wasted_single block_fresh, Nat.zero_add]
    exact fun a ha b _ => not_together_of_fresh (block_fresh a ha)
  | @group g g' f run after out _ _ _ loop ih =>
    have block_fresh : ∀ x ∈ f :: run, x.group_id = -1 := fun x hx =>
      fresh x (List.mem_append_left _ hx)
    have after_fresh : ∀ x ∈ after, x.group_id = -1 := fun x hx =>
      fresh x (List.mem_append_right _ hx)
    have new : g.current_group + 1 ≠ -1 := by omega
    rw [ih after_fresh (Int.le_add_one start) (Nat.mod_lt _ (by decide)),
      wasted_append (loop.marked_apart block_fresh after_fresh), wasted_group block_fresh new,
      Nat.mod_add_mod, Nat.add_assoc]

theorem dup_bytes_append {block after : List FileEntry}
    (apart : ∀ a ∈ block, ∀ b ∈ after, ¬ a.Same b) :
    dup_bytes (block ++ after) = dup_bytes block + dup_bytes after := by
  induction block with
  | nil => exact (Nat.zero_add _).symm
  | cons a block ih =>
    have here : (∃ x ∈ block ++ after, a.Same x) ↔ ∃ x ∈ block, a.Same x := by
      constructor
      · rintro ⟨x, hx, same⟩
        have inside := (List.mem_append.mp hx).resolve_right fun h => apart a (.head _) x h same
        exact ⟨x, inside, same⟩
      · rintro ⟨x, hx, same⟩
        exact ⟨x, List.mem_append_left _ hx, same⟩
    rw [List.cons_append, dup_bytes, dup_bytes, ih fun x hx => apart x (.tail _ hx), Nat.add_assoc]
    simp only [here]

/-- In a run whose duplicates have the digest `f.hash`, all but the last of them count. -/
theorem dup_bytes_run {f : FileEntry} {run : List FileEntry} (run_size : ∀ x ∈ run, x.size = f.size)
    (decides : RunDecides f run) : dup_bytes run = f.size * (dups f run - 1) := by
  induction run with
  | nil => rfl
  | cons x rest ih =>
    obtain ⟨first, decides'⟩ := List.pairwise_cons.mp decides
    have size : x.size = f.size := run_size x (.head _)
    have rest_size : ∀ y ∈ rest, y.size = f.size := fun y hy => run_size y (.tail _ hy)
    rw [dup_bytes, ih rest_size decides', size]
    by_cases same : f.hash = x.hash
    · have count : dups f (x :: rest) = dups f rest + 1 :=
        List.countP_cons_of_pos (by simpa using same)
      have again : (∃ y ∈ rest, x.Same y) ↔ dups f rest ≠ 0 := by
        rw [ne_eq, dups_eq_zero]
        push Not
        refine exists_congr fun y => and_congr_right fun hy => ?_
        simp [FileEntry.Same, size, rest_size y hy, same]
      rw [count, Nat.add_sub_cancel]
      by_cases more : dups f rest = 0
      · rw [if_neg (again.not.mpr (not_not.mpr more)), more, Nat.zero_add]
      · rw [if_pos (again.mpr more), Nat.add_comm f.size, ← Nat.mul_succ, Nat.succ_eq_add_one,
          Nat.sub_add_cancel (Nat.one_le_iff_ne_zero.mpr more)]
    · have count : dups f (x :: rest) = dups f rest :=
        List.countP_cons_of_neg (by simpa using same)
      have alone : ¬ ∃ y ∈ rest, x.Same y := fun ⟨y, hy, dup⟩ => same (first y hy dup.2)
      rw [count, if_neg alone, Nat.zero_add]

theorem Blocks.wasted {g g' : grouping} {files out : List FileEntry} (h : Blocks g files out g')
    (fresh : ∀ x ∈ files, x.group_id = -1) (start : 0 ≤ g.current_group)
    (decides : FirstDecides files) : wasted out = dup_bytes files := by
  have first_run : ∀ {f : FileEntry} {run after : List FileEntry}, (∀ x ∈ run, x.size = f.size) →
      (∀ x ∈ after, x.size < f.size) → RunDecides f run →
      dup_bytes (f :: run ++ after) = f.size * dups f run + dup_bytes after := by
    intro f run after run_size after_size decides
    have size := block_size run_size
    have decides' : RunDecides f (f :: run) := List.pairwise_cons.mpr ⟨fun _ _ _ => rfl, decides⟩
    have count : dups f (f :: run) = dups f run + 1 := List.countP_cons_of_pos (by simp)
    rw [dup_bytes_append, dup_bytes_run size decides', count, Nat.add_sub_cancel]
    exact fun a ha b hb => not_same_of_size (size a ha ▸ after_size b hb)
  induction h with
  | nil => rfl
  | @single g g' f run after out run_size after_size none loop ih =>
    have block_fresh : ∀ x ∈ f :: run, x.group_id = -1 := fun x hx =>
      fresh x (List.mem_append_left _ hx)
    obtain ⟨inner, outer⟩ := (firstDecides_append run_size after_size).mp decides
    rw [wasted_append fun a ha b _ => not_together_of_fresh (block_fresh a ha),
      wasted_single block_fresh, first_run run_size after_size inner, none,
      ih (fun x hx => fresh x (List.mem_append_right _ hx)) start outer, Nat.mul_zero]
  | @group g g' f run after out run_size after_size found loop ih =>
    have block_fresh : ∀ x ∈ f :: run, x.group_id = -1 := fun x hx =>
      fresh x (List.mem_append_left _ hx)
    have after_fresh : ∀ x ∈ after, x.group_id = -1 := fun x hx =>
      fresh x (List.mem_append_right _ hx)
    have new : g.current_group + 1 ≠ -1 := by omega
    obtain ⟨inner, outer⟩ := (firstDecides_append run_size after_size).mp decides
    rw [wasted_append (loop.marked_apart block_fresh after_fresh), wasted_group block_fresh new,
      first_run run_size after_size inner, ih after_fresh (Int.le_add_one start) outer]

/-! ## The whole loop -/

/-- The loop finds all duplicates if and only if the first file of each size is a duplicate of the
others that have one, and the bytes fit. -/
theorem grouping_complete_iff {files sorted : List FileEntry} (fresh : ∀ f ∈ files, f.group_id = -1)
    (perm : sorted.Perm files) (order : Sorted sorted) :
    let out := grouped sorted
    out.1.map FileEntry.contents = sorted.map FileEntry.contents ∧
      (Complete out.1 out.2.total_wasted_bytes ↔
        FirstDecides sorted ∧ dup_bytes sorted < SIZE_MOD) := by
  intro out
  have sorted_fresh : ∀ f ∈ sorted, f.group_id = -1 := fun f hf => fresh f (perm.mem_iff.mp hf)
  have blocks : Blocks ⟨0, 0⟩ sorted out.1 out.2 :=
    group_loop_blocks le_rfl sorted_fresh order ⟨0, 0⟩ (by decide)
  have total : out.2.total_wasted_bytes = wasted out.1 % SIZE_MOD := by
    rw [blocks.total sorted_fresh le_rfl (by decide), Nat.zero_add]
  have right := blocks.right_iff sorted_fresh le_rfl
  refine ⟨blocks.contents, fun complete => ?_, fun ⟨decides, fits⟩ => ?_⟩
  · have decides := right.mp complete.together
    refine ⟨decides, ?_⟩
    rw [← blocks.wasted sorted_fresh le_rfl decides, ← complete.total, total]
    exact Nat.mod_lt _ (by decide)
  · have together := right.mpr decides
    refine ⟨together, fun f _ many => class_of_right together many, ?_⟩
    rw [total, blocks.wasted sorted_fresh le_rfl decides, Nat.mod_eq_of_lt fits]

/-- Two files of one digest, which are found, and a smaller one. -/
theorem grouping_complete_pair :
    let sorted : List FileEntry := [⟨5, [1], -1⟩, ⟨5, [1], -1⟩, ⟨3, [2], -1⟩]
    Complete (grouped sorted).1 (grouped sorted).2.total_wasted_bytes := by
  refine (@grouping_complete_iff [⟨3, [2], -1⟩, ⟨5, [1], -1⟩, ⟨5, [1], -1⟩] _ (by decide)
    (by decide) ?_).2.mpr ⟨?_, by decide⟩
  · simp [Sorted, compare_by_size]
  · simp [FirstDecides, FileEntry.Same]

/-- Of three files of one size the first is a file of its own; the other two are duplicates, which
the loop does not see. -/
theorem second_pair_missed :
    ¬ ∀ files sorted : List FileEntry, (∀ f ∈ files, f.group_id = -1) → sorted.Perm files →
      Sorted sorted → Complete (grouped sorted).1 (grouped sorted).2.total_wasted_bytes := by
  intro complete
  have three := complete [⟨5, [1], -1⟩, ⟨5, [2], -1⟩, ⟨5, [2], -1⟩] _ (by decide) (.refl _)
    (by simp [Sorted, compare_by_size])
  have pair := (List.pairwise_cons.mp (List.pairwise_cons.mp three.together).2).1 _ (.head _)
  exact absurd (pair.mpr (by decide)).2 (by decide)

end SysInC.Fdup
