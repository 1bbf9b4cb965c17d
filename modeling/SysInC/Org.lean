/-
The commands of `org.c` that rename the files of a directory: what they lose.

All three go over the entries of the working directory and rename those that match. None of them
asks whether there is a file under the new name, so the file that is there is gone.
-/
import SysInC.CText
import SysInC.FileTree

set_option autoImplicit false

namespace SysInC.Org

open SysInC.PartialRun SysInC.CText SysInC.FileTree

/-! ## The commands -/

abbrev Files := Tree (List UInt8) (List UInt8)

abbrev System := Os (List UInt8) (List UInt8) (List UInt8)

def dot : UInt8 := 46

def slash : UInt8 := 47

def ensure_dot_ext (max_len : ℕ) (input : List UInt8) : List UInt8 :=
  if input.head? = some dot then snprintf max_len input else snprintf max_len (dot :: input)

def ends_with (str suffix : List UInt8) : Bool :=
  if str.length < suffix.length then false
  else strcaseeq (str.drop (str.length - suffix.length)) suffix

/-- What is done with an entry that matches: the directory that is made first, if one is, and the
path that the entry gets. -/
structure rename_to where
  dir : Option (List UInt8)
  path : List UInt8

def rename_to.mkdir (os : System) (t : Files) (r : rename_to) : Files :=
  match r.dir with
  | none => t
  | some dir => os.mkdir t dir

/-- The body of the loops: `entry` is `entry->d_name`. -/
def loop_body (os : System) (rule : List UInt8 → Option rename_to) (t : Files)
    (entry : List UInt8) : Files :=
  if entry = [dot] ∨ entry = [dot, dot] then t
  else if os.is_regular t entry = true then
    match rule entry with
    | none => t
    | some r => os.rename (r.mkdir os t) entry r.path
  else t

/-- `while ((entry = readdir(dir)) != NULL)`. `readdir` gives the names in any order; what is
renamed into the directory while it is read may be among them, and what has left it too. -/
def readdir_loop (os : System) (rule : List UInt8 → Option rename_to) (readdir : List (List UInt8))
    (t : Files) : Files :=
  readdir.foldl (loop_body os rule) t

/-- The files with the extension keep their names, in `dest_dir`. -/
def move_rule (ext_input dest_dir : List UInt8) (entry : List UInt8) : Option rename_to :=
  if ends_with entry (ensure_dot_ext 64 ext_input) = true then
    some ⟨none, snprintf 2048 (dest_dir ++ slash :: entry)⟩
  else none

def filter_and_move (os : System) (ext_input dest_dir : List UInt8) (readdir : List (List UInt8))
    (t : Files) : Files :=
  readdir_loop os (move_rule ext_input dest_dir) readdir (os.mkdir t dest_dir)

/-- The files with the extension get another one. -/
def change_rule (old_ext_in new_ext_in : List UInt8) (entry : List UInt8) : Option rename_to :=
  let old_ext := ensure_dot_ext 64 old_ext_in
  let new_ext := ensure_dot_ext 64 new_ext_in
  if ends_with entry old_ext = true then
    let base_len := entry.length - old_ext.length
    some ⟨none, snprintf 1024 (entry.take base_len ++ new_ext)⟩
  else none

def change_extension (os : System) (old_ext_in new_ext_in : List UInt8)
    (readdir : List (List UInt8)) (t : Files) : Files :=
  readdir_loop os (change_rule old_ext_in new_ext_in) readdir t

/-- The files with a dot behind the first byte go to the directory that is named by what is behind
the last dot. -/
def auto_rule (entry : List UInt8) : Option rename_to :=
  match strrchr entry dot with
  | none => none
  | some i =>
    if i ≠ 0 then
      let ext := entry.drop (i + 1)
      some ⟨some ext, snprintf 2048 (ext ++ slash :: entry)⟩
    else none

def auto_organize_by_extension (os : System) (readdir : List (List UInt8)) (t : Files) : Files :=
  readdir_loop os auto_rule readdir t

/-! ## What is lost -/

/-- If the entry is renamed, its new name is not that of another file. -/
def Spares (os : System) (rule : List UInt8 → Option rename_to) (t : Files) (entry : List UInt8) :
    Prop :=
  entry ≠ [dot] → entry ≠ [dot, dot] → os.is_regular t entry = true → ∀ r, rule entry = some r →
    os.Spares (r.mkdir os t) entry r.path

/-- So for all entries, each in the state in which its turn finds the files. -/
def AllSpared (os : System) (rule : List UInt8 → Option rename_to) (t : Files)
    (readdir : List (List UInt8)) : Prop :=
  Along (fun t entry => some (loop_body os rule t entry)) (Spares os rule) t readdir

theorem mkdir_contents (os : System) (t : Files) (r : rename_to) :
    (r.mkdir os t).contents = t.contents := by
  unfold rename_to.mkdir
  split
  · rfl
  · exact FileTree.mkdir_contents os t _

theorem loop_body_loses (os : System) (rule : List UInt8 → Option rename_to) (t : Files)
    (entry : List UInt8) : Loses t (loop_body os rule t entry) (Spares os rule t entry) := by
  unfold loop_body
  by_cases dots : entry = [dot] ∨ entry = [dot, dot]
  · rw [if_pos dots]
    exact .refl fun not_dot not_dots => (dots.elim not_dot not_dots).elim
  · obtain ⟨not_dot, not_dots⟩ := not_or.mp dots
    rw [if_neg dots]
    by_cases regular : os.is_regular t entry = true
    · rw [if_pos regular]
      cases matched : rule entry with
      | none => exact .refl fun _ _ _ r hr => by simp [matched] at hr
      | some r =>
        have spares : Spares os rule t entry ↔ os.Spares (r.mkdir os t) entry r.path := by
          simp [Spares, not_dot, not_dots, regular, matched]
        obtain ⟨lost, sum, none⟩ := rename_loses os (r.mkdir os t) entry r.path
        rw [mkdir_contents] at sum
        exact ⟨lost, sum, none.trans spares.symm⟩
    · rw [if_neg regular]
      exact .refl fun _ _ h => absurd h regular

theorem readdir_loop_keeps_iff (os : System) (rule : List UInt8 → Option rename_to)
    (readdir : List (List UInt8)) (t : Files) :
    (readdir_loop os rule readdir t).contents = t.contents ↔ AllSpared os rule t readdir :=
  (Loses.loop (loop_body_loses os rule) readdir t).iff

/-- The commands lose no file exactly if no turn of them takes the name of one. -/
theorem organise_keeps_iff (os : System) (readdir : List (List UInt8)) (t : Files) :
    (∀ ext_input dest_dir, (filter_and_move os ext_input dest_dir readdir t).contents = t.contents ↔
        AllSpared os (move_rule ext_input dest_dir) (os.mkdir t dest_dir) readdir) ∧
      (∀ old_ext_in new_ext_in,
        (change_extension os old_ext_in new_ext_in readdir t).contents = t.contents ↔
          AllSpared os (change_rule old_ext_in new_ext_in) t readdir) ∧
      ((auto_organize_by_extension os readdir t).contents = t.contents ↔
        AllSpared os auto_rule t readdir) := by
  refine ⟨fun ext_input dest_dir => ?_, fun _ _ => readdir_loop_keeps_iff _ _ _ _,
    readdir_loop_keeps_iff _ _ _ _⟩
  rw [← FileTree.mkdir_contents os t dest_dir]
  exact readdir_loop_keeps_iff _ _ _ _

/-! ## A file that is lost -/

/-- One directory, whose names are the paths, and no links. -/
def flat : System where
  resolve _ path := some (0, path)
  links_to_file _ _ := false
  may_create _ _ := true
  may_rename _ _ _ := true

/-- `notes.md` and `notes.txt`, with different bytes. -/
def notes : Files where
  entries := [((0, literal "notes.md"), .file 1), ((0, literal "notes.txt"), .file 2)]
  nodup := by decide
  data ino := if ino = 1 then [1] else [2]

/-- The files `.md` become `.txt`, and the old `notes.txt` is gone. -/
theorem notes_replaced :
    ¬ ∀ (os : System) (t : Files) (old_ext new_ext : List UInt8) (readdir : List (List UInt8)),
      (change_extension os old_ext new_ext readdir t).contents = t.contents := by
  intro keeps
  have kept := keeps flat notes (literal ".md") (literal ".txt")
    [literal "notes.txt", literal "notes.md"]
  revert kept
  decide

end SysInC.Org
