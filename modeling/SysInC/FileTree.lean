/-
A tree of files under names, as POSIX has it, and what `mkdir` and `rename` do to the files in
it.

A rename onto the name of a file takes that name from it. The rules below say what is lost over
a loop of such calls: the files whose names were taken, and nothing else.
-/
import SysInC.PartialRun
import Mathlib.Algebra.BigOperators.Group.List.Basic
import Mathlib.Data.Multiset.OrderedMonoid

set_option autoImplicit false

namespace SysInC.FileTree

open SysInC.PartialRun

variable {Name Path Bytes : Type*}

/-! ## Trees -/

/-- What stands under a name. Files that have the same inode are one file under several names. -/
inductive Node
  | file (ino : ℕ)
  | dir (id : ℕ)
  | other (ino : ℕ)
  deriving DecidableEq

def Node.is_dir : Node → Bool
  | .dir _ => true
  | _ => false

/-- A name in a directory, which is given by its number. -/
abbrev Place (Name : Type*) := ℕ × Name

structure Tree (Name Bytes : Type*) where
  entries : List (Place Name × Node)
  nodup : (entries.map Prod.fst).Nodup
  data : ℕ → Bytes

/-- What a node adds to the contents of the files. -/
def Node.bytes (data : ℕ → Bytes) : Node → Multiset Bytes
  | .file ino => {data ino}
  | .dir _ => 0
  | .other _ => 0

/-- The contents of the files of the tree, name by name. -/
def Tree.contents (t : Tree Name Bytes) : Multiset Bytes :=
  (t.entries.map fun e => e.2.bytes t.data).sum

/-- The number of a new directory. -/
def Tree.fresh (t : Tree Name Bytes) : ℕ :=
  (t.entries.map fun e => match e.2 with
    | .dir id => max e.1.1 id
    | _ => e.1.1).foldr max 0 + 1

/-! ## Losing files -/

/-- `t'` is `t` without the files that were lost, of which there are none exactly if `G`. -/
def Loses (t t' : Tree Name Bytes) (G : Prop) : Prop :=
  ∃ lost, t.contents = lost + t'.contents ∧ (lost = 0 ↔ G)

theorem Loses.refl {t : Tree Name Bytes} {G : Prop} (hG : G) : Loses t t G :=
  ⟨0, (zero_add _).symm, iff_of_true rfl hG⟩

theorem Loses.iff {t t' : Tree Name Bytes} {G : Prop} (h : Loses t t' G) :
    t'.contents = t.contents ↔ G := by
  obtain ⟨lost, sum, none⟩ := h
  rw [← none, sum, eq_comm, add_eq_right]

theorem Loses.trans {t t' t'' : Tree Name Bytes} {G H : Prop} (h : Loses t t' G)
    (h' : Loses t' t'' H) : Loses t t'' (G ∧ H) := by
  obtain ⟨first, sum, none⟩ := h
  obtain ⟨second, sum', none'⟩ := h'
  refine ⟨first + second, ?_, ?_⟩
  · rw [sum, sum', add_assoc]
  · rw [← none, ← none', add_eq_zero]

theorem Loses.congr {t t' : Tree Name Bytes} {G H : Prop} (h : Loses t t' G) (hGH : G ↔ H) :
    Loses t t' H := by
  obtain ⟨lost, sum, none⟩ := h
  exact ⟨lost, sum, none.trans hGH⟩

/-- A loop loses what its turns lose. -/
theorem Loses.loop {ε : Type*} {turn : Tree Name Bytes → ε → Tree Name Bytes}
    {G : Tree Name Bytes → ε → Prop} (h : ∀ t e, Loses t (turn t e) (G t e)) (es : List ε)
    (t : Tree Name Bytes) :
    Loses t (es.foldl turn t) (Along (fun t e => some (turn t e)) G t es) := by
  induction es generalizing t with
  | nil => exact .refl trivial
  | cons e es ih =>
    refine ((h t e).trans (ih (turn t e))).congr (and_congr_right fun _ => ?_)
    simp

/-! ## Places -/

variable [DecidableEq Name]

def Tree.at (t : Tree Name Bytes) (p : Place Name) : Option Node := t.entries.lookup p

def Tree.remove (t : Tree Name Bytes) (p : Place Name) : Tree Name Bytes where
  entries := t.entries.filter fun e => e.1 ≠ p
  nodup := t.nodup.sublist (List.filter_sublist.map Prod.fst)
  data := t.data

def Tree.put (t : Tree Name Bytes) (p : Place Name) (n : Node) : Tree Name Bytes where
  entries := (p, n) :: (t.remove p).entries
  nodup := by
    rw [List.map_cons, List.nodup_cons]
    refine ⟨fun hp => ?_, (t.remove p).nodup⟩
    obtain ⟨e, he, rfl⟩ := List.mem_map.mp hp
    simp [Tree.remove] at he
  data := t.data

/-! ## The calls -/

/-- What the system adds to the tree: which place a path names, as far as there is a directory for
it; whether what stands there is, through links, a regular file; and what it refuses for reasons
that are not in the tree. -/
structure Os (Name Path Bytes : Type*) where
  resolve : Tree Name Bytes → Path → Option (Place Name)
  links_to_file : Tree Name Bytes → Place Name → Bool
  may_create : Tree Name Bytes → Place Name → Bool
  may_rename : Tree Name Bytes → Place Name → Place Name → Bool

/-- `stat(path, &st) == 0 && S_ISREG(st.st_mode)` -/
def Os.is_regular (os : Os Name Path Bytes) (t : Tree Name Bytes) (path : Path) : Bool :=
  match os.resolve t path with
  | none => false
  | some p => match t.at p with
    | some (.file _) => true
    | some (.other _) => os.links_to_file t p
    | _ => false

def Os.mkdir (os : Os Name Path Bytes) (t : Tree Name Bytes) (path : Path) : Tree Name Bytes :=
  match os.resolve t path with
  | none => t
  | some p => if t.at p = none ∧ os.may_create t p = true then t.put p (.dir t.fresh) else t

/-- A rename of what is no directory. Onto a directory it fails; between two names of one file it
does nothing; any other name is taken. -/
def Tree.move (t : Tree Name Bytes) (p q : Place Name) : Tree Name Bytes :=
  match t.at p with
  | none => t
  | some (.dir _) => t
  | some n => match t.at q with
    | some (.dir _) => t
    | m => if p = q ∨ m = some n then t else (t.remove p).put q n

def Os.rename (os : Os Name Path Bytes) (t : Tree Name Bytes) (old new : Path) : Tree Name Bytes :=
  match os.resolve t old, os.resolve t new with
  | some p, some q => if os.may_rename t p q = true then t.move p q else t
  | _, _ => t

/-! ## What is lost -/

/-- The place `q` is not that of another file than the one at `p`. -/
def Tree.Spares (t : Tree Name Bytes) (p q : Place Name) : Prop :=
  ∀ ino, t.at q = some (.file ino) → ∀ n, t.at p = some n → n.is_dir = true ∨ n = .file ino

/-- The rename takes no name from another file. -/
def Os.Spares (os : Os Name Path Bytes) (t : Tree Name Bytes) (old new : Path) : Prop :=
  ∀ p q, os.resolve t old = some p → os.resolve t new = some q → os.may_rename t p q = true →
    t.Spares p q

@[simp] theorem contents_put (t : Tree Name Bytes) (p : Place Name) (n : Node) :
    (t.put p n).contents = n.bytes t.data + (t.remove p).contents := by
  simp [Tree.contents, Tree.put, Tree.remove]

theorem contents_remove {t : Tree Name Bytes} {p : Place Name} {n : Node} (h : t.at p = some n) :
    t.contents = n.bytes t.data + (t.remove p).contents := by
  obtain ⟨before, after, split, -⟩ := List.lookup_eq_some_iff.mp h
  have apart : ∀ e ∈ before ++ after, e.1 ≠ p := by
    have nodup := t.nodup
    rw [split, List.map_append, List.map_cons, List.nodup_middle, ← List.map_append] at nodup
    intro e he same
    exact (List.nodup_cons.mp nodup).1 (List.mem_map.mpr ⟨e, he, same⟩)
  have kept : (t.remove p).entries = before ++ after := by
    simp only [Tree.remove, split, List.filter_append, ne_eq, not_true_eq_false, decide_false,
      Bool.false_eq_true, not_false_eq_true, List.filter_cons_of_neg]
    rw [← List.filter_append]
    exact List.filter_eq_self.mpr fun e he => by simpa using apart e he
  have data : (t.remove p).data = t.data := rfl
  rw [Tree.contents, Tree.contents, kept, split, data]
  simp only [List.map_append, List.map_cons, List.sum_append, List.sum_cons]
  exact add_left_comm _ _ _

theorem contents_remove_none {t : Tree Name Bytes} {p : Place Name} (h : t.at p = none) :
    (t.remove p).contents = t.contents := by
  have kept : (t.remove p).entries = t.entries := List.filter_eq_self.mpr fun e he => by
    have other := List.lookup_eq_none_iff.mp h e he
    exact decide_eq_true fun same => absurd same.symm (by simpa using other)
  rw [Tree.contents, kept]
  rfl

theorem at_remove {t : Tree Name Bytes} {p q : Place Name} (h : p ≠ q) :
    (t.remove p).at q = t.at q := by
  have kept : ∀ entries : List (Place Name × Node),
      (entries.filter fun e => e.1 ≠ p).lookup q = entries.lookup q := by
    intro entries
    induction entries with
    | nil => rfl
    | cons e rest ih =>
      by_cases same : e.1 = p
      · have other : (q == e.1) = false := by simpa [same] using h.symm
        rw [List.filter_cons_of_neg (by simpa using same), ih, List.lookup_cons, other]
      · rw [List.filter_cons_of_pos (by simpa using same), List.lookup_cons, List.lookup_cons, ih]
  exact kept t.entries

theorem mkdir_contents (os : Os Name Path Bytes) (t : Tree Name Bytes) (path : Path) :
    (os.mkdir t path).contents = t.contents := by
  unfold Os.mkdir
  split
  · rfl
  · split
    · rename_i _ _ _ free
      rw [contents_put, contents_remove_none free.1]
      exact zero_add _
    · rfl

theorem move_loses (t : Tree Name Bytes) (p q : Place Name) :
    Loses t (t.move p q) (t.Spares p q) := by
  unfold Tree.move
  split
  · next none => exact .refl fun _ _ n hn => by simp [none] at hn
  · next id isdir =>
    refine .refl fun _ _ n hn => .inl ?_
    obtain rfl := Option.some.inj (isdir.symm.trans hn)
    rfl
  · next n notdir hn =>
    have plain : n.is_dir = false := by
      cases n with
      | dir id => exact absurd rfl (notdir id)
      | _ => rfl
    have spares : t.Spares p q ↔ ∀ ino, t.at q = some (.file ino) → n = .file ino := by
      simp [Tree.Spares, hn, plain]
    refine Loses.congr ?_ spares.symm
    split
    · next id isdir => exact .refl fun ino h => by simp [isdir] at h
    · next m hm =>
      by_cases same : p = q ∨ t.at q = some n
      · rw [if_pos same]
        have here : t.at q = some n := same.elim (fun h => h ▸ hn) id
        exact .refl fun ino h => Option.some.inj (here.symm.trans h)
      · rw [if_neg same]
        obtain ⟨apart, differ⟩ := not_or.mp same
        have moved : ((t.remove p).put q n).contents =
            n.bytes t.data + ((t.remove p).remove q).contents := contents_put _ _ _
        have before := contents_remove hn
        cases hq : t.at q with
        | none =>
          have free : ((t.remove p).remove q).contents = (t.remove p).contents :=
            contents_remove_none ((at_remove apart).trans hq)
          refine ⟨0, ?_, iff_of_true rfl nofun⟩
          rw [moved, free, before, zero_add]
        | some m =>
          -- What stands at `q` is what is lost.
          have taken := contents_remove ((at_remove apart).trans hq)
          refine ⟨m.bytes t.data, ?_, ?_⟩
          · rw [moved, before, taken]
            exact add_left_comm _ _ _
          · cases m with
            | file ino =>
              refine iff_of_false (Multiset.singleton_ne_zero _) fun h => ?_
              exact differ (hq.trans (congrArg some (h ino rfl).symm))
            | _ => exact iff_of_true rfl nofun

theorem rename_loses (os : Os Name Path Bytes) (t : Tree Name Bytes) (old new : Path) :
    Loses t (os.rename t old new) (os.Spares t old new) := by
  unfold Os.rename
  split
  · next p q hp hq =>
    have spares : os.Spares t old new ↔ (os.may_rename t p q = true → t.Spares p q) := by
      simp [Os.Spares, hp, hq]
    refine Loses.congr ?_ spares.symm
    by_cases may : os.may_rename t p q = true
    · rw [if_pos may]
      exact (move_loses t p q).congr (by simp [may])
    · rw [if_neg may]
      exact .refl fun h => absurd h may
  · next unresolved =>
    exact .refl fun p q hp hq => (unresolved p q hp hq).elim

end SysInC.FileTree
