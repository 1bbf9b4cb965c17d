/-
The paths of the table of `kdiskfs.c`.

An entry keeps the first 63 bytes of its path, and a call looks for the whole one. A path that is
longer is never found again, and is saved to an entry of its own each time.
-/
import SysInC.KdiskfsFiles
import SysInC.RunStates

set_option autoImplicit false

namespace SysInC.Kdiskfs

open SysInC.Kvfs SysInC.RunStates

/-! ## Runs -/

/-- A call with a path that is a string. -/
inductive path_call where
  | save (path : List UInt8) (data : Option (List UInt8)) (size : ℕ) (type : UInt8) (mode : UInt16)
  | delete (path : List UInt8)

/-- The file system, and the paths that were saved and not deleted since. -/
structure tracked where
  fs : kdiskfs
  saved : List (List UInt8)

def tracked.step (abi : Kmem.Abi) (t : tracked) : path_call → tracked
  | .save path data size type mode =>
    let r := kdiskfs_save_file abi t.fs (some path) data size type mode
    ⟨r.1, if r.2 = 0 then path :: t.saved else t.saved⟩
  | .delete path =>
    let r := kdiskfs_delete_file t.fs (some path)
    ⟨r.1, if r.2 = 0 then t.saved.filter (· ≠ path) else t.saved⟩

/-- The file system as the kernel starts, or formatted. -/
inductive Empty : kdiskfs → Prop
  | start (drive_present : Bool) (disk : Disk) : Empty (.start drive_present disk)
  | format {s : kdiskfs} (h : s.drive_present = true) : Empty (kdiskfs_format s).1

/-! ## The table -/

/-- The stored paths of the entries in use. -/
def stored_paths (s : kdiskfs) : List (List UInt8) :=
  keys_used is_file kdiskfs_entry.path s.disk_entries

/-- The stored paths differ, are counted, and a path that was saved is found. -/
structure Directory (t : tracked) : Prop where
  distinct : (stored_paths t.fs).Nodup
  counted : t.fs.super_block.num_files = (stored_paths t.fs).length
  found : ∀ p ∈ t.saved, (find_slot (is_entry (some p)) t.fs.disk_entries).isSome = true

/-- A path that does not fit an entry is not saved to one: there is no drive, or no entry is
free. -/
def StoresWhole (t : tracked) : path_call → Prop
  | .save path _ _ _ _ =>
    path.length ≤ sizeof_path - 1 ∨ t.fs.drive_present = false
      ∨ find_slot is_vacant t.fs.disk_entries = none
  | .delete _ => True

/-- What a run keeps besides. -/
structure DirectoryOk (t : tracked) : Prop extends Directory t where
  short : ∀ e ∈ t.fs.disk_entries, e.path.length ≤ sizeof_path - 1
  length_le : t.fs.disk_entries.length ≤ KDISKFS_MAX_FILES

variable {abi : Kmem.Abi} {s : kdiskfs} {t : tracked} {p : List UInt8}
  {pre post : List kdiskfs_entry} {e e' : kdiskfs_entry}

/-- A path is found where an entry in use has it. -/
theorem find_entry_iff (entries : List kdiskfs_entry) (p : List UInt8) :
    (find_slot (is_entry (some p)) entries).isSome = true
      ↔ p ∈ keys_used is_file kdiskfs_entry.path entries := by
  rw [← find_slot_any, List.any_eq_true, keys_used, List.mem_map]
  constructor
  · rintro ⟨e, he, htest⟩
    rw [is_entry, Bool.and_eq_true, decide_eq_true_eq, decide_eq_true_eq] at htest
    exact ⟨e, List.mem_filter.mpr ⟨he, is_file_iff.mpr htest.1⟩, Option.some.inj htest.2⟩
  · rintro ⟨e, he, rfl⟩
    obtain ⟨hmem, hused⟩ := List.mem_filter.mp he
    refine ⟨e, hmem, ?_⟩
    rw [is_entry, decide_eq_true (is_file_iff.mp hused), decide_eq_true rfl]
    rfl

theorem find_entry_some {entries : List kdiskfs_entry}
    (h : find_slot (is_entry (some p)) entries = some (pre, e, post)) :
    entries = pre ++ e :: post ∧ is_file e = true ∧ e.path = p := by
  obtain ⟨rfl, htest, -⟩ := find_slot_some h
  rw [is_entry, Bool.and_eq_true, decide_eq_true_eq, decide_eq_true_eq] at htest
  exact ⟨rfl, is_file_iff.mpr htest.1, Option.some.inj htest.2⟩

theorem find_vacant_some {entries : List kdiskfs_entry}
    (h : find_slot is_vacant entries = some (pre, e, post)) :
    entries = pre ++ e :: post ∧ is_file e = false := by
  obtain ⟨rfl, htest, -⟩ := find_slot_some h
  exact ⟨rfl, not_file_iff.mpr (of_decide_eq_true htest)⟩

/-! ## A call -/

/-- The entry that a save writes has the path, as far as it fits. -/
theorem save_entry_entries (abi : Kmem.Abi) (s : kdiskfs) (sb : kdiskfs_super)
    (pre : List kdiskfs_entry) (e : kdiskfs_entry) (post : List kdiskfs_entry) (start_lba : ℕ)
    (p : List UInt8) (data : Option (List UInt8)) (size : ℕ) (type : UInt8) (mode : UInt16) :
    ∃ e', (save_entry abi s sb pre e post start_lba (some p) data size type mode).disk_entries
        = pre ++ e' :: post
      ∧ (save_entry abi s sb pre e post start_lba (some p) data size type mode).super_block = sb
      ∧ e'.path = p.take (sizeof_path - 1) ∧ is_file e' = true :=
  ⟨_, rfl, rfl, rfl, rfl⟩

/-- The entries keep their length, and no path that an entry has is too long for it. -/
theorem short_change (hshort : ∀ o ∈ pre ++ e :: post, o.path.length ≤ sizeof_path - 1)
    (he' : e'.path.length ≤ sizeof_path - 1) :
    ∀ o ∈ pre ++ e' :: post, o.path.length ≤ sizeof_path - 1 := by
  intro o ho
  rcases eq_or_mem_other ho with rfl | ho
  · exact he'
  · exact hshort o (mem_other ho)

theorem length_change : (pre ++ e' :: post).length = (pre ++ e :: post).length := by
  rw [List.length_append, List.length_append, List.length_cons, List.length_cons]

/-- What a save does to the table. -/
inductive Saved (s : kdiskfs) (p : List UInt8) (s' : kdiskfs) (ret : ℤ) : Prop where
  | refused (hs' : s' = s) (hret : ret = -1)
      (hwhy : s.drive_present = false ∨ find_slot is_vacant s.disk_entries = none)
  | again (hret : ret = 0) (hpaths : stored_paths s' = stored_paths s) (hmem : p ∈ stored_paths s)
      (hcount : s'.super_block.num_files = s.super_block.num_files)
  | taken (front behind : List (List UInt8)) (hret : ret = 0) (hnew : p ∉ stored_paths s)
      (hpaths : stored_paths s = front ++ behind)
      (hpaths' : stored_paths s' = front ++ p.take (sizeof_path - 1) :: behind)
      (hcount : s'.super_block.num_files = (s.super_block.num_files + 1) % u32_mod)
      (hdrive : s.drive_present = true) (hvacant : find_slot is_vacant s.disk_entries ≠ none)

section Calls

variable (hshort : ∀ e ∈ s.disk_entries, e.path.length ≤ sizeof_path - 1)
include hshort

theorem save_saved (abi : Kmem.Abi) (p : List UInt8) (data : Option (List UInt8)) (size : ℕ)
    (type : UInt8) (mode : UInt16) :
    (Saved s p (kdiskfs_save_file abi s (some p) data size type mode).1
        (kdiskfs_save_file abi s (some p) data size type mode).2)
      ∧ (∀ e ∈ (kdiskfs_save_file abi s (some p) data size type mode).1.disk_entries,
        e.path.length ≤ sizeof_path - 1)
      ∧ (kdiskfs_save_file abi s (some p) data size type mode).1.disk_entries.length
        = s.disk_entries.length := by
  unfold kdiskfs_save_file
  by_cases hdrive : s.drive_present = true
  swap
  · rw [if_neg hdrive]
    exact ⟨.refused rfl rfl (Or.inl (Bool.eq_false_of_not_eq_true hdrive)), hshort, rfl⟩
  rw [if_pos hdrive]
  cases hfind : find_slot (is_entry (some p)) s.disk_entries with
  | some r =>
      obtain ⟨pre, e, post⟩ := r
      obtain ⟨hentries, hused, rfl⟩ := find_entry_some hfind
      obtain ⟨e', hsaved, hsuper, hpath, hused'⟩ :=
        save_entry_entries abi s s.super_block pre e post
        e.start_lba e.path data size type mode
      have hfits : e.path.length ≤ sizeof_path - 1 := hshort e (hentries ▸ mem_middle)
      rw [List.take_of_length_le hfits] at hpath
      dsimp only
      refine ⟨.again rfl ?_ ?_ (congrArg _ hsuper), ?_, ?_⟩
      · rw [stored_paths, stored_paths, hsaved, hentries, keys_used_of_used hused',
          keys_used_of_used hused, hpath]
      · rw [stored_paths, hentries, keys_used_of_used hused]
        exact List.mem_append_right _ List.mem_cons_self
      · rw [hsaved]
        exact short_change (hentries ▸ hshort) (hpath ▸ hfits)
      · rw [hsaved, hentries, length_change]
  | none =>
      have hnew : p ∉ stored_paths s := by
        rw [stored_paths, ← find_entry_iff, hfind]
        exact Bool.false_ne_true
      dsimp only
      cases hvacant : find_slot is_vacant s.disk_entries with
      | none => exact ⟨.refused rfl rfl (Or.inr hvacant), hshort, rfl⟩
      | some r =>
          obtain ⟨pre, e, post⟩ := r
          obtain ⟨hentries, hfree⟩ := find_vacant_some hvacant
          dsimp only
          generalize hsb : ({ s.super_block with
            next_free_lba := (s.super_block.next_free_lba + sectors_needed abi size) % u32_mod
            num_files := (s.super_block.num_files + 1) % u32_mod } : kdiskfs_super) = sb
          have hcount : sb.num_files = (s.super_block.num_files + 1) % u32_mod := hsb ▸ rfl
          obtain ⟨e', hsaved, hsuper, hpath, hused'⟩ := save_entry_entries abi s sb pre e post
            s.super_block.next_free_lba p data size type mode
          refine ⟨.taken (keys_used is_file kdiskfs_entry.path pre)
            (keys_used is_file kdiskfs_entry.path post) rfl hnew ?_ ?_ ?_ hdrive ?_, ?_, ?_⟩
          · rw [stored_paths, hentries, keys_used_of_free hfree, keys_used, List.filter_append,
              List.map_append, keys_used, keys_used]
          · rw [stored_paths, hsaved, keys_used_of_used hused', hpath]
          · rw [hsuper, hcount]
          · rw [hvacant]
            exact Option.some_ne_none _
          · rw [hsaved]
            refine short_change (hentries ▸ hshort) ?_
            rw [hpath]
            exact List.length_take_le _ _
          · rw [hsaved, hentries, length_change]

theorem delete_deleted (p : List UInt8) :
    ((kdiskfs_delete_file s (some p)).1 = s ∧ (kdiskfs_delete_file s (some p)).2 = -1
      ∨ ∃ front behind, (kdiskfs_delete_file s (some p)).2 = 0
        ∧ stored_paths s = front ++ p :: behind
        ∧ stored_paths (kdiskfs_delete_file s (some p)).1 = front ++ behind
        ∧ (kdiskfs_delete_file s (some p)).1.super_block.num_files
          = s.super_block.num_files - 1)
      ∧ (∀ e ∈ (kdiskfs_delete_file s (some p)).1.disk_entries, e.path.length ≤ sizeof_path - 1)
      ∧ (kdiskfs_delete_file s (some p)).1.disk_entries.length = s.disk_entries.length := by
  unfold kdiskfs_delete_file
  cases hfind : find_slot (is_entry (some p)) s.disk_entries with
  | none => exact ⟨Or.inl ⟨rfl, rfl⟩, hshort, rfl⟩
  | some r =>
      obtain ⟨pre, e, post⟩ := r
      obtain ⟨hentries, hused, rfl⟩ := find_entry_some hfind
      have hfree : is_file { e with is_used := 0 } = false := rfl
      refine ⟨Or.inr ⟨keys_used is_file kdiskfs_entry.path pre,
        keys_used is_file kdiskfs_entry.path post, rfl, ?_, ?_, rfl⟩, ?_, ?_⟩
      · rw [stored_paths, hentries, keys_used_of_used hused]
      · show keys_used is_file kdiskfs_entry.path (pre ++ { e with is_used := 0 } :: post) = _
        rw [keys_used_of_free hfree, keys_used, List.filter_append, List.map_append, keys_used,
          keys_used]
      · exact short_change (hentries ▸ hshort) (hshort e (hentries ▸ mem_middle))
      · rw [hentries]
        exact length_change

end Calls

/-! ## A step -/

theorem stored_length (hshort : ∀ e ∈ s.disk_entries, e.path.length ≤ sizeof_path - 1)
    (h : p ∈ stored_paths s) : p.length ≤ sizeof_path - 1 := by
  obtain ⟨e, he, rfl⟩ := List.mem_map.mp h
  exact hshort e (List.mem_of_mem_filter he)

/-- The paths of a table are at most as many as its entries. -/
theorem stored_paths_length (s : kdiskfs) : (stored_paths s).length ≤ s.disk_entries.length := by
  rw [stored_paths, keys_used, List.length_map]
  exact List.length_filter_le _ _

theorem DirectoryOk.found_iff (h : DirectoryOk t) : ∀ q ∈ t.saved, q ∈ stored_paths t.fs :=
  fun q hq => (find_entry_iff _ q).mp (h.found q hq)

theorem DirectoryOk.save (h : DirectoryOk t) {data : Option (List UInt8)} {size : ℕ} {type : UInt8}
    {mode : UInt16} (hwhole : StoresWhole t (.save p data size type mode)) :
    DirectoryOk (t.step abi (.save p data size type mode)) := by
  obtain ⟨hsaved, hshort', hlength'⟩ := save_saved h.short abi p data size type mode
  rw [tracked.step]
  generalize kdiskfs_save_file abi t.fs (some p) data size type mode = r
    at hsaved hshort' hlength' ⊢
  have hle : r.1.disk_entries.length ≤ KDISKFS_MAX_FILES := hlength' ▸ h.length_le
  rcases hsaved with ⟨hs', hret, -⟩ | ⟨hret, hpaths, hmem, hcount⟩
    | ⟨front, behind, hret, hnew, hpaths, hpaths', hcount, hdrive, hvacant⟩
  · rw [if_neg (by rw [hret]; decide), hs']
    exact h
  · rw [if_pos hret]
    refine ⟨⟨hpaths ▸ h.distinct, ?_, fun q hq => ?_⟩, hshort', hle⟩
    · rw [hcount, hpaths]
      exact h.counted
    · refine (find_entry_iff _ q).mpr ?_
      rw [← stored_paths, hpaths]
      rcases List.mem_cons.mp hq with rfl | hq
      · exact hmem
      · exact h.found_iff q hq
  · have hfits : p.length ≤ sizeof_path - 1 := by
      rcases hwhole with hfits | hno | hno
      · exact hfits
      · exact absurd (hdrive.symm.trans hno) Bool.noConfusion
      · exact absurd hno hvacant
    rw [List.take_of_length_le hfits] at hpaths'
    rw [hpaths] at hnew
    have hdistinct := h.distinct
    have hcounted := h.counted
    rw [hpaths] at hdistinct hcounted
    have hlen : (stored_paths r.1).length = (front ++ behind).length + 1 := by
      rw [hpaths', List.length_append, List.length_append, List.length_cons, Nat.add_assoc]
    rw [if_pos hret]
    refine ⟨⟨?_, ?_, fun q hq => ?_⟩, hshort', hle⟩
    · rw [hpaths', List.nodup_middle, List.nodup_cons]
      exact ⟨hnew, hdistinct⟩
    · -- at most as many files as entries, so the sum of 32 bits is one
      have hbound : (stored_paths r.1).length ≤ KDISKFS_MAX_FILES :=
        (stored_paths_length r.1).trans hle
      have hmod : KDISKFS_MAX_FILES < u32_mod := by decide
      show r.1.super_block.num_files = (stored_paths r.1).length
      rw [hcount, hcounted, ← hlen, Nat.mod_eq_of_lt (hbound.trans_lt hmod)]
    · refine (find_entry_iff _ q).mpr ?_
      rw [← stored_paths, hpaths', List.mem_append, List.mem_cons]
      rcases List.mem_cons.mp hq with rfl | hq
      · exact Or.inr (Or.inl rfl)
      · have hq' := h.found_iff q hq
        rw [hpaths, List.mem_append] at hq'
        exact hq'.imp_right Or.inr

theorem DirectoryOk.delete (h : DirectoryOk t) (p : List UInt8) :
    DirectoryOk (t.step abi (.delete p)) := by
  obtain ⟨hdeleted, hshort', hlength'⟩ := delete_deleted h.short p
  rw [tracked.step]
  generalize kdiskfs_delete_file t.fs (some p) = r at hdeleted hshort' hlength' ⊢
  rcases hdeleted with ⟨hs', hret⟩ | ⟨front, behind, hret, hpaths, hpaths', hcount⟩
  · rw [if_neg (by rw [hret]; decide), hs']
    exact h
  · have hdistinct := h.distinct
    have hcounted := h.counted
    rw [hpaths, List.nodup_middle, List.nodup_cons] at hdistinct
    rw [hpaths, List.length_append, List.length_cons, ← Nat.add_assoc] at hcounted
    rw [if_pos hret]
    refine ⟨⟨hpaths' ▸ hdistinct.2, ?_, fun q hq => ?_⟩, hshort', hlength' ▸ h.length_le⟩
    · show r.1.super_block.num_files = (stored_paths r.1).length
      rw [hcount, hcounted, hpaths', List.length_append, Nat.add_sub_cancel]
    · obtain ⟨hq, hne⟩ := List.mem_filter.mp hq
      have hq' := h.found_iff q hq
      rw [hpaths, List.mem_append, List.mem_cons] at hq'
      refine (find_entry_iff _ q).mpr ?_
      rw [← stored_paths, hpaths', List.mem_append]
      rcases hq' with hq' | rfl | hq'
      · exact Or.inl hq'
      · exact absurd rfl (of_decide_eq_true hne)
      · exact Or.inr hq'

theorem DirectoryOk.step (h : DirectoryOk t) {c : path_call} (hwhole : StoresWhole t c) :
    DirectoryOk (t.step abi c) := by
  cases c with
  | save p data size type mode => exact h.save hwhole
  | delete p => exact h.delete p

/-- A path that is cut off is not found. -/
theorem DirectoryOk.not_directory_step (h : DirectoryOk t) {c : path_call}
    (hwhole : ¬StoresWhole t c) : ¬Directory (t.step abi c) := by
  cases c with
  | delete p => exact absurd trivial hwhole
  | save p data size type mode =>
      obtain ⟨hlong, hroom⟩ := not_or.mp hwhole
      obtain ⟨hsaved, hshort', -⟩ := save_saved h.short abi p data size type mode
      rw [tracked.step]
      generalize kdiskfs_save_file abi t.fs (some p) data size type mode = r at hsaved hshort' ⊢
      rcases hsaved with ⟨-, -, hwhy⟩ | ⟨-, -, hmem, -⟩ | ⟨-, -, hret, -⟩
      · exact absurd hwhy hroom
      · exact absurd (stored_length h.short hmem) hlong
      · intro hdirectory
        rw [if_pos hret] at hdirectory
        have hfound := (find_entry_iff _ p).mp (hdirectory.found p List.mem_cons_self)
        exact hlong (stored_length hshort' hfound)

/-! ## A run -/

theorem Empty.directoryOk (h : Empty s) : DirectoryOk ⟨s, []⟩ := by
  have hempty : keys_used is_file kdiskfs_entry.path
      (List.replicate KDISKFS_MAX_FILES kdiskfs_entry.zero) = [] := rfl
  have hzero : ∀ e ∈ List.replicate KDISKFS_MAX_FILES kdiskfs_entry.zero,
      e.path.length ≤ sizeof_path - 1 := by
    intro e he
    rw [List.eq_of_mem_replicate he]
    exact Nat.zero_le _
  have hfresh : s.disk_entries = List.replicate KDISKFS_MAX_FILES kdiskfs_entry.zero
      ∧ s.super_block.num_files = 0 := by
    cases h with
    | start => exact ⟨rfl, rfl⟩
    | format hdrive =>
        rw [kdiskfs_format, if_pos hdrive]
        exact ⟨rfl, rfl⟩
  obtain ⟨hentries, hcount⟩ := hfresh
  refine ⟨⟨?_, ?_, fun q hq => absurd hq List.not_mem_nil⟩, hentries ▸ hzero, hentries ▸ le_rfl⟩
  · rw [stored_paths, hentries, hempty]
    exact List.nodup_nil
  · rw [stored_paths, hentries, hempty, hcount]
    rfl

/-- **The directory**: in every state of a run from an empty table the stored paths differ, are
counted, and the paths saved are found, exactly where no path of more than 63 bytes is saved to an
entry. -/
theorem directory_iff (abi : Kmem.Abi) (h : Empty s) (calls : List path_call) :
    (∀ u ∈ states (tracked.step abi) ⟨s, []⟩ calls, Directory u)
      ↔ ∀ p ∈ steps (tracked.step abi) ⟨s, []⟩ calls, StoresWhole p.1 p.2 :=
  states_iff (fun _ ht => ht.toDirectory) (fun _ _ ht hwhole => ht.step hwhole)
    (fun _ _ ht hnot => ht.not_directory_step hnot) h.directoryOk calls

/-- A formatted disk. -/
def formatted : kdiskfs := (kdiskfs_format (.start true fun _ => [])).1

theorem directory_iff_a :
    (states (tracked.step .i386) ⟨formatted, []⟩
      [.save (literal "/a") none 0 0 0, .delete []]).Forall Directory := by
  refine List.forall_iff_forall_mem.mpr ((directory_iff .i386 (.format rfl) _).mpr fun p hp => ?_)
  rcases List.mem_pair.mp hp with rfl | rfl
  · exact Or.inl (by decide)
  · trivial

/-- A path of 64 bytes, saved twice: two entries with the same stored path. -/
theorem directory_twice : ¬∀ (abi : Kmem.Abi) (s : kdiskfs) (_ : Empty s) (calls : List path_call),
    ∀ u ∈ states (tracked.step abi) ⟨s, []⟩ calls, Directory u := by
  intro h
  have hlong := h .i386 formatted (.format rfl)
    [.save (List.replicate 64 97) none 0 0 0, .save (List.replicate 64 97) none 0 0 0] _
    (List.mem_cons_of_mem _ (List.mem_cons_of_mem _ List.mem_cons_self))
  exact absurd hlong.distinct (by decide)

end SysInC.Kdiskfs
