/-
What survives a restart: the files that were saved and not deleted, as a map from paths.

`Persisted` runs the calls of `kdiskfs.c` beside that map, as long as each save can come back;
`mount_restores` mounts the disk after a new start.
-/
import SysInC.KdiskfsMount

set_option autoImplicit false

namespace SysInC.Kdiskfs

open SysInC.Kvfs

abbrev file_map := List UInt8 → Option file

/-- What the callers of the disk ask for. -/
def file_map.saved (m : file_map) : disk_call → file_map
  | .kdiskfs_save_file (some p) data size type mode =>
    Function.update m p (some ⟨given data size, size, type, mode⟩)
  | .kdiskfs_delete_file (some p) => Function.update m p none
  | .kdiskfs_save_file none _ _ _ _ | .kdiskfs_delete_file none => m

/-- The replay sets the type and the mode that were saved. -/
def Kept (size : ℕ) (type : UInt8) (mode : UInt16) : Prop :=
  (type = KVFS_TYPE_DIR → mode = mode_0755)
    ∧ (type ≠ KVFS_TYPE_DIR → 0 < size → type = KVFS_TYPE_FILE ∧ mode = mode_0644)

/-- What is saved fits, its path is spelled as the file system spells it, and it has the type
and the mode that the replay sets. -/
def disk_call.Survives (abi : Kmem.Abi) (s : kdiskfs) (c : disk_call) : Prop :=
  c.Fits abi s ∧ match c with
    | .kdiskfs_save_file path _ size type mode =>
      (∀ p ∈ path, Clean KVFS_MAX_PATH p) ∧ Kept size type mode
    | .kdiskfs_delete_file _ => True

/-- The states of a run from a formatted disk on, and what was saved in it. -/
inductive Persisted (abi : Kmem.Abi) : kdiskfs → file_map → Prop
  | format {s : kdiskfs} (h : s.drive_present = true) :
    Persisted abi (kdiskfs_format s).1 fun _ => none
  | step {s : kdiskfs} {m : file_map} {c : disk_call} (h : Persisted abi s m) (hl : c.Legal)
    (hc : c.Survives abi s) : Persisted abi (disk_step abi s c).1 (m.saved c)

structure PersistOk (s : kdiskfs) (m : file_map) : Prop where
  disk : DiskOk s
  paths : (keys_used is_file kdiskfs_entry.path s.disk_entries).Nodup
  clean : ∀ e ∈ s.disk_entries, e.is_used ≠ 0 → Clean KVFS_MAX_PATH e.path
  kept : ∀ e ∈ s.disk_entries, e.is_used ≠ 0 → Kept e.size e.type e.mode
  files : disk_files kdiskfs_entry.path s = m

variable {abi : Kmem.Abi} {s : kdiskfs} {m : file_map}

theorem format_persist (h : s.drive_present = true) :
    PersistOk (kdiskfs_format s).1 fun _ => none := by
  have hok := format_ok h
  have hunused (e : kdiskfs_entry) (he : e ∈ (kdiskfs_format s).1.disk_entries) :
      e.is_used = 0 := by
    rw [kdiskfs_format, if_pos h] at he
    rw [List.eq_of_mem_replicate he]
    rfl
  obtain ⟨hempty, hfiles⟩ := format_files h kdiskfs_entry.path
  refine ⟨hok, ?_, fun e he hu => absurd (hunused e he) hu,
    fun e he hu => absurd (hunused e he) hu, hfiles⟩
  rw [hempty]
  exact List.nodup_nil

theorem entry_file_fields {disk : Disk} {e : kdiskfs_entry} {f : file}
    (h : entry_file disk e = f) : e.size = f.size ∧ e.type = f.type ∧ e.mode = f.mode := by
  rw [← h]
  exact ⟨rfl, rfl, rfl⟩

/-- A save that survives. -/
theorem PersistOk.save (h : PersistOk s m) {path data : Option (List UInt8)} {size : ℕ}
    {type : UInt8} {mode : UInt16}
    (hlegal : (disk_call.kdiskfs_save_file path data size type mode).Legal)
    (hc : (disk_call.kdiskfs_save_file path data size type mode).Survives abi s) :
    PersistOk (kdiskfs_save_file abi s path data size type mode).1
      (m.saved (.kdiskfs_save_file path data size type mode)) := by
  obtain ⟨hfits, hclean, hkept⟩ := hc
  obtain ⟨p, rfl, -⟩ := hfits.2.1
  obtain ⟨hok, pre, e, post, e', hsaves⟩ := kdiskfs_save_file_spec h.disk hlegal hfits
  obtain ⟨hnodup, hfiles⟩ :=
    hsaves.files h.paths (fun _ _ => id) fun o _ _ hsame => hsame.trans hsaves.path
  obtain ⟨hsize, htype, hmode⟩ := entry_file_fields hsaves.written
  have hmem (o : kdiskfs_entry)
      (ho : o ∈ (kdiskfs_save_file abi s (some p) data size type mode).1.disk_entries) :
      o = e' ∨ o ∈ s.disk_entries := by
    rw [hsaves.after] at ho
    rcases eq_or_mem_other ho with heq | hother
    · exact .inl heq
    · exact .inr (by rw [hsaves.before]; exact mem_other hother)
  -- the new entry has what the call gave, and the others are old ones
  refine ⟨hok, hnodup, fun o ho hu => ?_, fun o ho hu => ?_, ?_⟩
  · rcases hmem o ho with rfl | hold
    · rw [hsaves.path]
      exact hclean p rfl
    · exact h.clean o hold hu
  · rcases hmem o ho with rfl | hold
    · rw [hsize, htype, hmode]
      exact hkept
    · exact h.kept o hold hu
  · rw [hfiles, hsaves.path, h.files]
    rfl

theorem PersistOk.delete (h : PersistOk s m) (p : List UInt8) :
    PersistOk (kdiskfs_delete_file s (some p)).1 (m.saved (.kdiskfs_delete_file (some p))) := by
  obtain ⟨hok, hdeletes⟩ := kdiskfs_delete_file_spec h.disk p
  obtain ⟨hnodup, hfiles⟩ := hdeletes.files h.paths
  refine ⟨hok, hnodup, fun o ho hu => h.clean o (hdeletes.mem ho hu) hu,
    fun o ho hu => h.kept o (hdeletes.mem ho hu) hu, ?_⟩
  -- without an entry of the path, `m` has no such file either
  rcases hfiles with ⟨hsame, -, hnot⟩ | ⟨e, -, -, hpath, hgone⟩
  · have hnone : m p = none := by
      rw [← h.files, disk_files, Option.map_eq_none_iff]
      exact slot_of_eq_none fun o ho hused => hnot o ho (is_file_iff.mp hused)
    rw [hsame, h.files]
    exact (Function.update_eq_self_iff.mpr hnone.symm).symm
  · rw [hgone, hpath, h.files]
    rfl

theorem Persisted.ok (h : Persisted abi s m) : PersistOk s m := by
  induction h with
  | format hpresent => exact format_persist hpresent
  | @step s m c h hl hc ih =>
      cases c with
      | kdiskfs_save_file path data size type mode => exact ih.save hl hc
      | kdiskfs_delete_file path =>
          cases path with
          | none =>
              show PersistOk (kdiskfs_delete_file s none).1 m
              rw [kdiskfs_delete_file_null]
              exact ih
          | some p => exact ih.delete p

/-- **Persistence.** After a run whose saves can come back, a new start and a mount into an empty
file system give each path the file that was saved there last, and no other path; these are the
entries in use. -/
theorem mount_restores (h : Persisted abi s m) {kmalloc : Malloc}
    (hgives : ∀ heap n, kmalloc_gives abi heap n (kmalloc heap n)) (heap : Heap)
    (hheap : HeapSuffices abi kmalloc s.disk (.start heap) s.disk_entries) :
    ∃ s' v, kdiskfs_mount abi kmalloc (.start true s.disk) (.start heap) = some (s', v, 0)
      ∧ (∀ k, (v.map k).map entry_as_file = m k)
      ∧ ∀ k, m k = (slot_of is_file kdiskfs_entry.path s.disk_entries k).map (entry_file s.disk) := by
  have hok := h.ok
  obtain ⟨hstart, hempty⟩ := start_ok heap
  -- the paths survive `sanitize_path`, so the keys of the mount are the paths
  have hspelled : ∀ e ∈ s.disk_entries, is_file e = true → entry_key e = e.path := fun e he hu =>
    sanitize_path_of_clean (hok.clean e he (is_file_iff.mp hu))
  have hkeys := keys_used_congr hspelled
  have hslots := slot_of_congr hspelled
  have hroom : (kvfs.start heap).vfs_node_count + table_room ≤ KVFS_MAX_NODES :=
    (by decide : 0 + table_room ≤ KVFS_MAX_NODES)
  obtain ⟨s', v, hmount, -, hmap⟩ :=
    kdiskfs_mount_spec hok.disk (hkeys ▸ hok.paths) hstart hroom hgives hheap
  refine ⟨s', v, hmount, fun k => ?_, fun k => by rw [← hok.files]; rfl⟩
  have hk := hmap k
  rw [hslots] at hk
  rw [← hok.files, disk_files]
  split at hk
  · rename_i hnone
    rw [hk, hnone, hempty]
    rfl
  · rename_i e hsome
    obtain ⟨x, hx, hloads⟩ := hk
    obtain ⟨hmem, hu, -⟩ := slot_of_some hsome
    obtain ⟨hdir, hfile⟩ := hok.kept e hmem (is_file_iff.mp hu)
    rw [hx, hsome, Option.map_some, Option.map_some,
      hloads.fresh (by rw [hempty]; rfl) hdir hfile]

/-- Without files that hold anything, nothing is asked of the heap. -/
theorem heapSuffices_of_empty {kmalloc : Malloc} {disk : Disk} {t : List kdiskfs_entry}
    (h : ∀ e ∈ t, e.size = 0) (v : kvfs) : HeapSuffices abi kmalloc disk v t := by
  induction t generalizing v with
  | nil => trivial
  | cons e t ih =>
      rw [List.forall_mem_cons] at h
      exact ⟨fun _ _ hpos => absurd h.1 hpos.ne', fun v' _ => ih h.2 v'⟩

/-- A heap with room for two blocks. -/
def two_blocks : Malloc := fun heap n =>
  if n % Kmem.Abi.i386.size_mod = 0 then none
  else if heap 16 = none then some (16, List.replicate (n % Kmem.Abi.i386.size_mod) 0)
  else if heap 32 = none then some (32, List.replicate (n % Kmem.Abi.i386.size_mod) 0)
  else none

theorem two_blocks_gives (heap : Heap) (n : ℕ) :
    kmalloc_gives .i386 heap n (two_blocks heap n) := by
  unfold two_blocks
  split_ifs with hzero h16 h32
  · trivial
  · exact ⟨hzero, h16, List.length_replicate⟩
  · exact ⟨hzero, h32, List.length_replicate⟩
  · trivial

/-- Both blocks are free: the buffer and the copy of a file are there. -/
theorem two_blocks_serves {v : kvfs} {disk : Disk} {e : kdiskfs_entry} (h16 : v.heap 16 = none)
    (h32 : v.heap 32 = none) (hrequest : file_request e % Kmem.Abi.i386.size_mod ≠ 0)
    (hcopy : (e.size + 1) % Kmem.Abi.i386.size_mod % Kmem.Abi.i386.size_mod ≠ 0) :
    Served .i386 two_blocks disk v e := by
  refine ⟨16, List.replicate (file_request e % Kmem.Abi.i386.size_mod) 0, ?_, ?_⟩
  · rw [two_blocks, if_neg hrequest, if_pos h16]
  · have htaken (bytes : List UInt8) :
        Function.update v.heap 16 (some bytes) 16 ≠ none := by
      rw [Function.update_self]
      exact Option.some_ne_none bytes
    have hfree (bytes : List UInt8) :
        Function.update v.heap 16 (some bytes) 32 = none := by
      rw [Function.update_of_ne (by decide), h32]
    rw [two_blocks, if_neg hcopy, if_neg (htaken _), if_pos (hfree _)]
    exact Option.some_ne_none _

/-- A disk with one file. -/
def one_file (type : UInt8) (mode : UInt16) : kdiskfs :=
  (kdiskfs_save_file .i386 (kdiskfs_format (.start true blank_disk)).1 (some (literal "/bin/x"))
    (some [7, 8]) 2 type mode).1

theorem mount_restores_one_file :
    ∃ s' v, kdiskfs_mount .i386 two_blocks (.start true (one_file KVFS_TYPE_FILE mode_0644).disk)
        (.start fun _ => none) = some (s', v, 0)
      ∧ (v.map (literal "/bin/x")).map entry_as_file
        = some ⟨[7, 8], 2, KVFS_TYPE_FILE, mode_0644⟩ := by
  have hclean : Clean KVFS_MAX_PATH (literal "/bin/x") := by
    have hspelled : literal "/bin/x" = sanitize_path (some (literal "/bin/x")) KVFS_MAX_PATH := by
      decide
    rw [hspelled]
    exact sanitize_path_clean _ (by decide)
  have hformat : Persisted .i386 (kdiskfs_format (.start true blank_disk)).1 fun _ => none :=
    .format rfl
  have hsaved := hformat.step (c := .kdiskfs_save_file (some (literal "/bin/x")) (some [7, 8]) 2
    KVFS_TYPE_FILE mode_0644)
    ⟨by rintro p ⟨⟩; decide, by rintro src ⟨⟩; decide⟩
    ⟨⟨by decide, ⟨_, rfl, by decide⟩, by decide, by decide,
        fun _ => ⟨[], .zero, _, rfl, by decide⟩⟩,
      by rintro p ⟨⟩; exact hclean, by unfold Kept; decide⟩
  have hheap : HeapSuffices .i386 two_blocks (one_file KVFS_TYPE_FILE mode_0644).disk
      (.start fun _ => none) (one_file KVFS_TYPE_FILE mode_0644).disk_entries := by
    refine ⟨fun _ _ _ => two_blocks_serves rfl rfl (by decide) (by decide),
      fun v' _ => heapSuffices_of_empty ?_ v'⟩
    intro e he
    rw [List.eq_of_mem_replicate (n := 31) he]
    rfl
  obtain ⟨s', v, hmount, hmap, -⟩ := mount_restores hsaved two_blocks_gives (fun _ => none) hheap
  refine ⟨s', v, hmount, ?_⟩
  rw [hmap]
  rfl

set_option maxRecDepth 20000 in
/-- A program that is saved comes back as a file that nobody may run. -/
theorem program_comes_back_as_file :
    (slot_of is_file kdiskfs_entry.path (one_file KVFS_TYPE_BIN mode_0755).disk_entries
        (literal "/bin/x")).map (fun e => (e.type, e.mode)) = some (KVFS_TYPE_BIN, mode_0755)
      ∧ (kdiskfs_mount .i386 two_blocks (.start true (one_file KVFS_TYPE_BIN mode_0755).disk)
        (.start fun _ => none)).map (fun r => (r.2.1.map (literal "/bin/x")).map entry_as_file)
        = some (some ⟨[7, 8], 2, KVFS_TYPE_FILE, mode_0644⟩) := by
  decide

end SysInC.Kdiskfs
