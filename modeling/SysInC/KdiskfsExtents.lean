/-
The extents of `kdiskfs.c`: the sectors of the files on the disk.

A file that is saved again keeps its first sector, whatever its new size is. As long as it has
the room up to the next extent, the extents of a run stay apart; `Room` says so of one call.
-/
import SysInC.Kdiskfs

set_option autoImplicit false

namespace SysInC.Kdiskfs

open SysInC.Kvfs

/-! ## Calls and runs -/

inductive disk_call where
  | kdiskfs_save_file (path data : Option (List UInt8)) (size : ℕ) (type : UInt8) (mode : UInt16)
  | kdiskfs_delete_file (path : Option (List UInt8))

def disk_call.path : disk_call → Option (List UInt8)
  | .kdiskfs_save_file path _ _ _ _ | .kdiskfs_delete_file path => path

def disk_step (abi : Kmem.Abi) (s : kdiskfs) : disk_call → kdiskfs × ℤ
  | .kdiskfs_save_file path data size type mode => kdiskfs_save_file abi s path data size type mode
  | .kdiskfs_delete_file path => kdiskfs_delete_file s path

/-- A file that is on the disk has the sectors it needs, up to the next extent and to the end of
what was given out. A new file ends where an LBA can still name its sectors. -/
def disk_call.Room (abi : Kmem.Abi) (s : kdiskfs) : disk_call → Prop
  | .kdiskfs_save_file path _ size _ _ =>
    match find_slot (is_entry path) s.disk_entries with
    | some (pre, e, post) =>
      e.start_lba + sectors_needed abi size ≤ s.super_block.next_free_lba
        ∧ ∀ o ∈ pre ++ post, o.is_used ≠ 0 → e.start_lba ≤ o.start_lba →
          e.start_lba + sectors_needed abi size ≤ o.start_lba
    | none =>
      find_slot is_vacant s.disk_entries ≠ none →
        s.super_block.next_free_lba + sectors_needed abi size ≤ lba_mod
  | .kdiskfs_delete_file _ => True

instance (abi : Kmem.Abi) (s : kdiskfs) (c : disk_call) : Decidable (c.Room abi s) := by
  unfold disk_call.Room
  split
  · split <;> infer_instance
  · infer_instance

/-- The states of the runs whose calls have room, from a formatted disk on. -/
inductive Reached (abi : Kmem.Abi) : kdiskfs → Prop
  | format {s : kdiskfs} (h : s.drive_present = true) : Reached abi (kdiskfs_format s).1
  | step {s : kdiskfs} {c : disk_call} (h : Reached abi s) (hc : c.Room abi s) :
    Reached abi (disk_step abi s c).1

/-! ## Sectors -/

theorem write_sectors_off {disk : Disk} {lba n l : ℕ} {buffers : ℕ → List UInt8}
    (h : ∀ i < n, l ≠ (lba + i) % lba_mod) : write_sectors disk lba buffers n l = disk l := by
  induction n with
  | zero => rfl
  | succ n ih =>
      rw [write_sectors, kata_write_sector, Function.update_of_ne (h n (Nat.lt_succ_self n))]
      exact ih fun i hi => h i (Nat.lt_succ_of_lt hi)

theorem write_sectors_at {disk : Disk} {lba n i : ℕ} {buffers : ℕ → List UInt8}
    (hfit : lba + n ≤ lba_mod) (hi : i < n) :
    write_sectors disk lba buffers n (lba + i) = buffers i := by
  induction n with
  | zero => omega
  | succ n ih =>
      have hlast : (lba + n) % lba_mod = lba + n := Nat.mod_eq_of_lt (by omega)
      rw [write_sectors, kata_write_sector, hlast]
      by_cases h : i = n
      · rw [h, Function.update_self]
      · rw [Function.update_of_ne (by omega)]
        exact ih (by omega) (by omega)

/-- The superblock and the table lie in front of the files. -/
theorem sync_table_to_disk_off (s : kdiskfs) {l : ℕ} (hl : KDISKFS_DATA_LBA ≤ l) :
    (sync_table_to_disk s).disk l = s.disk l := by
  unfold KDISKFS_DATA_LBA at hl
  have hsuper : l ≠ KDISKFS_SUPER_LBA % lba_mod := by
    unfold KDISKFS_SUPER_LBA lba_mod
    omega
  show kata_write_sector (write_table s.disk s.disk_entries) KDISKFS_SUPER_LBA _ l = s.disk l
  rw [kata_write_sector, Function.update_of_ne hsuper, write_table]
  apply write_sectors_off
  intro i hi
  unfold table_sectors at hi
  unfold KDISKFS_TABLE_LBA lba_mod
  omega

/-! ## Extents -/

def Apart (a b : kdiskfs_entry) : Prop :=
  a.start_lba + a.sector_count ≤ b.start_lba ∨ b.start_lba + b.sector_count ≤ a.start_lba

instance (a b : kdiskfs_entry) : Decidable (Apart a b) := inferInstanceAs (Decidable (_ ∨ _))

theorem Apart.symm {a b : kdiskfs_entry} (h : Apart a b) : Apart b a := Or.symm h

/-- The entries in use. -/
abbrev files (t : List kdiskfs_entry) : List kdiskfs_entry := t.filter fun e => e.is_used ≠ 0

/-- Extents apart from each other, behind the table and below `next`. -/
structure Laid (t : List kdiskfs_entry) (next : ℕ) : Prop where
  apart : (files t).Pairwise Apart
  bounds : ∀ e ∈ t, e.is_used ≠ 0 →
    KDISKFS_DATA_LBA ≤ e.start_lba ∧ e.start_lba + e.sector_count ≤ next

variable {pre post : List kdiskfs_entry} {e e' : kdiskfs_entry} {next next' : ℕ}

theorem pairwise_files :
    (files (pre ++ e :: post)).Pairwise Apart
      ↔ (e.is_used ≠ 0 → ∀ o ∈ pre ++ post, o.is_used ≠ 0 → Apart e o)
        ∧ (files (pre ++ post)).Pairwise Apart := by
  rw [files, List.filter_append, List.filter_cons]
  by_cases he : e.is_used = 0
  · rw [if_neg (by simpa using he), ← List.filter_append]
    exact ⟨fun h => ⟨fun hu => absurd he hu, h⟩, fun h => h.2⟩
  · rw [if_pos (by simpa using he), List.pairwise_middle Apart.symm, List.pairwise_cons,
      ← List.filter_append]
    simp only [List.mem_filter, decide_eq_true_eq, ne_eq, and_imp, he, not_false_eq_true,
      forall_const]

theorem Laid.rest (h : Laid (pre ++ e :: post) next) : Laid (pre ++ post) next :=
  ⟨(pairwise_files.mp h.apart).2, fun o ho => h.bounds o (mem_other ho)⟩

/-- One entry changes. -/
theorem Laid.change (h : Laid (pre ++ e :: post) next) (hnext : next ≤ next')
    (he' : e'.is_used ≠ 0 → KDISKFS_DATA_LBA ≤ e'.start_lba
      ∧ e'.start_lba + e'.sector_count ≤ next' ∧ ∀ o ∈ pre ++ post, o.is_used ≠ 0 → Apart e' o) :
    Laid (pre ++ e' :: post) next' := by
  constructor
  · exact pairwise_files.mpr ⟨fun hu => (he' hu).2.2, h.rest.apart⟩
  · intro o ho hu
    rcases eq_or_mem_other ho with rfl | hother
    · exact ⟨(he' hu).1, (he' hu).2.1⟩
    · obtain ⟨hlo, hhi⟩ := h.rest.bounds o hother hu
      exact ⟨hlo, hhi.trans hnext⟩

/-! ## Steps -/

structure ExtentsOk (s : kdiskfs) : Prop where
  laid : Laid s.disk_entries s.super_block.next_free_lba
  first : KDISKFS_DATA_LBA ≤ s.super_block.next_free_lba
  last : s.super_block.next_free_lba ≤ lba_mod

/-- An entry and its sectors are what they were. -/
def Untouched (s s' : kdiskfs) (o : kdiskfs_entry) : Prop :=
  o ∈ s'.disk_entries ∧ ∀ i < o.sector_count, s'.disk (o.start_lba + i) = s.disk (o.start_lba + i)

variable {abi : Kmem.Abi} {s : kdiskfs}

theorem format_extents (h : s.drive_present = true) : ExtentsOk (kdiskfs_format s).1 := by
  rw [kdiskfs_format, if_pos h]
  have hunused (e : kdiskfs_entry) (he : e ∈ List.replicate KDISKFS_MAX_FILES kdiskfs_entry.zero) :
      ¬ e.is_used ≠ 0 := by
    rw [List.eq_of_mem_replicate he]
    exact not_not.mpr rfl
  have hlast : KDISKFS_DATA_LBA ≤ lba_mod := by decide
  refine ⟨⟨?_, fun e he hu => absurd hu (hunused e he)⟩, le_rfl, hlast⟩
  rw [files, List.filter_eq_nil_iff.mpr fun e he => by simpa using hunused e he]
  exact List.Pairwise.nil

/-- `n` sectors from `start_lba` on may be given to an entry between `pre` and `post`, with `sb`
as the superblock then. -/
structure Spare (s : kdiskfs) (sb : kdiskfs_super) (pre post : List kdiskfs_entry)
    (start_lba n : ℕ) : Prop where
  next : s.super_block.next_free_lba ≤ sb.next_free_lba
  last : sb.next_free_lba ≤ lba_mod
  first : KDISKFS_DATA_LBA ≤ start_lba
  behind : start_lba + n ≤ sb.next_free_lba
  apart : ∀ o ∈ pre ++ post, o.is_used ≠ 0 →
    o.start_lba + o.sector_count ≤ start_lba ∨ start_lba + n ≤ o.start_lba

theorem save_entry_extents (h : ExtentsOk s) (ht : s.disk_entries = pre ++ e :: post)
    (path data : Option (List UInt8)) (size : ℕ) (type : UInt8) (mode : UInt16)
    {sb : kdiskfs_super} {start_lba : ℕ}
    (hspare : Spare s sb pre post start_lba (sectors_needed abi size)) :
    ExtentsOk (save_entry abi s sb pre e post start_lba path data size type mode)
      ∧ ∀ o ∈ pre ++ post, o.is_used ≠ 0 →
        Untouched s (save_entry abi s sb pre e post start_lba path data size type mode) o := by
  have hlaid := h.laid
  rw [ht] at hlaid
  obtain ⟨hnext, hlast, hfirst, hbehind, hapart⟩ := hspare
  constructor
  · refine ⟨hlaid.change hnext fun _ => ⟨hfirst, hbehind, fun o ho hu => ?_⟩,
      h.first.trans hnext, hlast⟩
    exact (hapart o ho hu).symm
  · intro o ho hu
    obtain ⟨hlo, hhi⟩ := hlaid.rest.bounds o ho hu
    refine ⟨mem_other ho, fun i hi => ?_⟩
    rw [save_entry, sync_table_to_disk_off _ (by omega)]
    apply write_sectors_off
    intro j hj
    rw [Nat.mod_eq_of_lt (by omega)]
    rcases hapart o ho hu with hbefore | hbehind
    · omega
    · omega

theorem is_entry_path {path : Option (List UInt8)} (h : is_entry path e = true) :
    e.is_used ≠ 0 ∧ some e.path = path := by
  rw [is_entry, Bool.and_eq_true, decide_eq_true_eq, decide_eq_true_eq] at h
  exact h

/-- The other entries, when a call changes the one that its path names. -/
theorem untouched_of_rest {s' : kdiskfs} {path : Option (List UInt8)}
    (ht : s.disk_entries = pre ++ e :: post) (he : e.is_used ≠ 0 → some e.path = path)
    (h : ∀ o ∈ pre ++ post, o.is_used ≠ 0 → Untouched s s' o) :
    ∀ o ∈ s.disk_entries, o.is_used ≠ 0 → some o.path ≠ path → Untouched s s' o := by
  intro o ho hu hne
  rw [ht] at ho
  rcases eq_or_mem_other ho with rfl | hother
  · exact absurd (he hu) hne
  · exact h o hother hu

/-- What a save with room does: nothing, or it writes one entry, the one of its path or the first
that is vacant. -/
theorem save_cases (h : ExtentsOk s) {path data : Option (List UInt8)} {size : ℕ}
    {type : UInt8} {mode : UInt16}
    (hc : (disk_call.kdiskfs_save_file path data size type mode).Room abi s) :
    (kdiskfs_save_file abi s path data size type mode = (s, -1)
        ∧ (s.drive_present = false ∨ find_slot (is_entry path) s.disk_entries = none
          ∧ find_slot is_vacant s.disk_entries = none))
      ∨ ∃ pre e post sb start_lba, s.disk_entries = pre ++ e :: post
        ∧ kdiskfs_save_file abi s path data size type mode
          = (save_entry abi s sb pre e post start_lba path data size type mode, 0)
        ∧ Spare s sb pre post start_lba (sectors_needed abi size)
        ∧ sb.magic = s.super_block.magic
        ∧ (e.is_used ≠ 0 ∧ some e.path = path ∨ find_slot (is_entry path) s.disk_entries = none
          ∧ find_slot is_vacant s.disk_entries = some (pre, e, post)) := by
  unfold kdiskfs_save_file
  unfold disk_call.Room at hc
  dsimp only at hc ⊢
  by_cases hpresent : s.drive_present = true
  · rw [if_pos hpresent]
    split at hc
    · -- the file keeps its first sector
      rename_i pre e post hfind
      obtain ⟨hend, hroom⟩ := hc
      obtain ⟨ht, he, -⟩ := find_slot_some hfind
      obtain ⟨hused, hpath⟩ := is_entry_path he
      have hlaid := h.laid
      rw [ht] at hlaid
      obtain ⟨hlo, -⟩ := hlaid.bounds e mem_middle hused
      have hapart := (pairwise_files.mp hlaid.apart).1 hused
      rw [hfind]
      refine .inr ⟨pre, e, post, s.super_block, e.start_lba, ht, rfl,
        ⟨le_rfl, h.last, hlo, hend, fun o ho hu => ?_⟩, rfl, .inl ⟨hused, hpath⟩⟩
      rcases Nat.lt_or_ge o.start_lba e.start_lba with hlt | hge
      · rcases hapart o ho hu with hov | hov
        · omega
        · exact .inl hov
      · exact .inr (hroom o ho hu hge)
    · rename_i hfind
      simp only [hfind]
      split
      · -- a new file is put behind all others
        rename_i pre e post hvacant
        obtain ⟨ht, -, -⟩ := find_slot_some hvacant
        have hroom := hc (by rw [hvacant]; exact Option.some_ne_none _)
        let sb := { s.super_block with
          next_free_lba := (s.super_block.next_free_lba + sectors_needed abi size) % u32_mod
          num_files := (s.super_block.num_files + 1) % u32_mod }
        have hnext : sb.next_free_lba = s.super_block.next_free_lba + sectors_needed abi size := by
          apply Nat.mod_eq_of_lt
          unfold lba_mod at hroom
          unfold u32_mod
          omega
        have hlaid := h.laid
        rw [ht] at hlaid
        exact .inr ⟨pre, e, post, sb, s.super_block.next_free_lba, ht, rfl,
          ⟨by omega, by omega, h.first, hnext.ge,
            fun o ho hu => .inl (hlaid.rest.bounds o ho hu).2⟩,
          rfl, .inr ⟨trivial, hvacant⟩⟩
      · rename_i hvacant
        exact .inl ⟨rfl, .inr ⟨trivial, hvacant⟩⟩
  · rw [if_neg hpresent]
    exact .inl ⟨rfl, .inl (Bool.eq_false_iff.mpr hpresent)⟩

theorem vacant_unused {t : List kdiskfs_entry} (h : find_slot is_vacant t = some (pre, e, post)) :
    e.is_used = 0 := by
  obtain ⟨-, he, -⟩ := find_slot_some h
  rwa [is_vacant, decide_eq_true_eq] at he

theorem save_extents (h : ExtentsOk s) {path data : Option (List UInt8)} {size : ℕ}
    {type : UInt8} {mode : UInt16}
    (hc : (disk_call.kdiskfs_save_file path data size type mode).Room abi s) :
    ExtentsOk (kdiskfs_save_file abi s path data size type mode).1
      ∧ ∀ o ∈ s.disk_entries, o.is_used ≠ 0 → some o.path ≠ path →
        Untouched s (kdiskfs_save_file abi s path data size type mode).1 o := by
  rcases save_cases h hc with
    ⟨heq, -⟩ | ⟨pre, e, post, sb, start_lba, ht, heq, hspare, -, hwhich⟩
  · rw [heq]
    exact ⟨h, fun o ho _ _ => ⟨ho, fun _ _ => rfl⟩⟩
  · obtain ⟨hok, hframe⟩ := save_entry_extents h ht path data size type mode hspare
    rw [heq]
    refine ⟨hok, untouched_of_rest ht (fun hu => ?_) hframe⟩
    rcases hwhich with ⟨-, hpath⟩ | ⟨-, hvacant⟩
    · exact hpath
    · exact absurd (vacant_unused hvacant) hu

theorem delete_extents (h : ExtentsOk s) (path : Option (List UInt8)) :
    ExtentsOk (kdiskfs_delete_file s path).1
      ∧ ∀ o ∈ s.disk_entries, o.is_used ≠ 0 → some o.path ≠ path →
        Untouched s (kdiskfs_delete_file s path).1 o := by
  unfold kdiskfs_delete_file
  split
  · rename_i pre e post hfind
    obtain ⟨ht, he, -⟩ := find_slot_some hfind
    have hlaid := h.laid
    rw [ht] at hlaid
    refine ⟨⟨hlaid.change le_rfl fun hu => absurd rfl hu, h.first, h.last⟩,
      untouched_of_rest ht (fun _ => (is_entry_path he).2) fun o ho hu => ⟨mem_other ho, ?_⟩⟩
    intro i hi
    obtain ⟨hlo, -⟩ := hlaid.rest.bounds o ho hu
    exact sync_table_to_disk_off _ (by omega)
  · exact ⟨h, fun o ho _ _ => ⟨ho, fun _ _ => rfl⟩⟩

/-- A call with room keeps the extents apart and leaves the other files alone. -/
theorem step_extents (h : ExtentsOk s) {c : disk_call} (hc : c.Room abi s) :
    ExtentsOk (disk_step abi s c).1 ∧ ∀ o ∈ s.disk_entries, o.is_used ≠ 0 → some o.path ≠ c.path →
      Untouched s (disk_step abi s c).1 o := by
  cases c with
  | kdiskfs_save_file path data size type mode => exact save_extents h hc
  | kdiskfs_delete_file path => exact delete_extents h path

theorem Reached.extents (h : Reached abi s) : ExtentsOk s := by
  induction h with
  | format hpresent => exact format_extents hpresent
  | step h hc ih => exact (step_extents ih hc).1

/-- **Extents.** In every state of a run whose calls have room, the files are apart from each
other, behind the table and below `next_free_lba`, and a call with room changes the sectors of
no other file. -/
theorem extents_never_collide (h : Reached abi s) :
    (files s.disk_entries).Pairwise Apart
      ∧ (∀ e ∈ files s.disk_entries, KDISKFS_DATA_LBA ≤ e.start_lba
        ∧ e.start_lba + e.sector_count ≤ s.super_block.next_free_lba)
      ∧ ∀ c : disk_call, c.Room abi s → ∀ o ∈ files s.disk_entries, some o.path ≠ c.path →
        o ∈ files (disk_step abi s c).1.disk_entries ∧ ∀ i < o.sector_count,
          kata_read_sector (disk_step abi s c).1.disk (o.start_lba + i)
            = kata_read_sector s.disk (o.start_lba + i) := by
  have hok := h.extents
  have hmem {t : List kdiskfs_entry} {e : kdiskfs_entry} :
      e ∈ files t ↔ e ∈ t ∧ e.is_used ≠ 0 := by
    rw [files, List.mem_filter, decide_eq_true_eq]
  refine ⟨hok.laid.apart, fun e he => hok.laid.bounds e (hmem.mp he).1 (hmem.mp he).2, ?_⟩
  intro c hc o ho hne
  obtain ⟨hin, hu⟩ := hmem.mp ho
  obtain ⟨hstays, hsectors⟩ := (step_extents hok hc).2 o hin hu hne
  refine ⟨hmem.mpr ⟨hstays, hu⟩, fun i hi => ?_⟩
  have hlba : (o.start_lba + i) % lba_mod = o.start_lba + i := by
    have hhi := (hok.laid.bounds o hin hu).2
    have hlast := hok.last
    exact Nat.mod_eq_of_lt (by omega)
  rw [kata_read_sector, kata_read_sector, hlba]
  exact hsectors i hi

/-- A disk with zeros on it. -/
def blank_disk : Disk := fun _ => List.replicate ATA_SECTOR_SIZE 0

/-- A disk with two files of two sectors and of one. -/
def two_files : kdiskfs :=
  let s := (kdiskfs_format (.start true blank_disk)).1
  let s := (kdiskfs_save_file .i386 s (some (literal "/a")) (some (List.replicate 600 7)) 600
    KVFS_TYPE_FILE mode_0644).1
  (kdiskfs_save_file .i386 s (some (literal "/b")) (some [8]) 1 KVFS_TYPE_FILE mode_0644).1

/-- The first file is cut to one sector and grows to its two sectors again. -/
theorem extents_never_collide_regrown :
    let cut := (kdiskfs_save_file .i386 two_files (some (literal "/a")) (some [9]) 1
      KVFS_TYPE_FILE mode_0644).1
    let regrown := (kdiskfs_save_file .i386 cut (some (literal "/a")) (some (List.replicate 700 7))
      700 KVFS_TYPE_FILE mode_0644).1
    (files regrown.disk_entries).Pairwise Apart := by
  have hformat : Reached .i386 (kdiskfs_format (.start true blank_disk)).1 := .format rfl
  have ha := hformat.step (c := .kdiskfs_save_file (some (literal "/a"))
    (some (List.replicate 600 7)) 600 KVFS_TYPE_FILE mode_0644) (by decide)
  have hb := ha.step (c := .kdiskfs_save_file (some (literal "/b")) (some [8]) 1 KVFS_TYPE_FILE
    mode_0644) (by decide)
  have hcut := hb.step (c := .kdiskfs_save_file (some (literal "/a")) (some [9]) 1 KVFS_TYPE_FILE
    mode_0644) (by decide)
  have hregrown := hcut.step (c := .kdiskfs_save_file (some (literal "/a"))
    (some (List.replicate 700 7)) 700 KVFS_TYPE_FILE mode_0644) (by decide)
  exact (extents_never_collide hregrown).1

/-- A third sector of the first file is the sector of the second. -/
theorem grown_file_collides :
    ¬ (files (kdiskfs_save_file .i386 two_files (some (literal "/a"))
      (some (List.replicate 1025 7)) 1025 KVFS_TYPE_FILE mode_0644).1.disk_entries).Pairwise
        Apart := by
  decide

end SysInC.Kdiskfs
