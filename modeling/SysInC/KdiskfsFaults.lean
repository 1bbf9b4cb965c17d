/-
`kdiskfs_format` and `kdiskfs_save_file` on a drive whose writes may fail.

`Kdiskfs` has a driver that succeeds. Here the driver answers each write with success or
failure, in any pattern, and a sector whose write fails stays as it was. The two functions are
written again over this driver, statement by statement, and agree with those of `Kdiskfs` when
nothing fails (`save_file_done`, `format_done`). The source looks at the result of one write
only, that of the superblock in `kdiskfs_format`, and there too late: the superblock in memory
has been assigned by then.
-/
import SysInC.Kdiskfs

set_option autoImplicit false

namespace SysInC.Kdiskfs.Faults

open SysInC.Kvfs

/-! ## The driver -/

/-- The file system, and the sector writes that the driver was asked for: where, and whether it
reported success. -/
structure state where
  fs : kdiskfs
  log : List (ℕ × Bool)

/-- `works` says of each write, by its number, whether it succeeds. -/
def kata_write_sector (works : ℕ → Bool) (st : state) (lba : ℕ) (buffer : List UInt8) :
    state × ℤ :=
  if works st.log.length then
    ({ fs := { st.fs with disk := Kdiskfs.kata_write_sector st.fs.disk lba buffer }
       log := st.log ++ [(lba, true)] }, 0)
  else ({ st with log := st.log ++ [(lba, false)] }, -1)

/-- `for (s = 0; s < n; s++) kata_write_sector(lba + s, buffers(s));` -/
def write_sectors (works : ℕ → Bool) (st : state) (lba : ℕ) (buffers : ℕ → List UInt8) :
    ℕ → state
  | 0 => st
  | n + 1 =>
    (kata_write_sector works (write_sectors works st lba buffers n) (lba + n) (buffers n)).1

/-! ## The file system -/

def write_table (works : ℕ → Bool) (st : state) : state :=
  write_sectors works st KDISKFS_TABLE_LBA
    (fun i => ((table_bytes st.fs.disk_entries).drop (i * ATA_SECTOR_SIZE)).take ATA_SECTOR_SIZE)
    table_sectors

def sync_table_to_disk (works : ℕ → Bool) (st : state) : state :=
  let st := write_table works st
  (kata_write_sector works st KDISKFS_SUPER_LBA (sector_buf st.fs.super_block.bytes)).1

/-- The superblock of an empty disk. -/
def fresh_super : kdiskfs_super := ⟨KDISKFS_MAGIC, 0, KDISKFS_DATA_LBA, ATA_SECTOR_SIZE⟩

def kdiskfs_format (works : ℕ → Bool) (s : kdiskfs) : state × ℤ :=
  if s.drive_present then
    let st : state := { fs := { s with super_block := fresh_super }, log := [] }
    let r := kata_write_sector works st KDISKFS_SUPER_LBA (sector_buf fresh_super.bytes)
    if r.2 < 0 then (r.1, -1)
    else
      let st := { r.1 with
        fs := { r.1.fs with disk_entries := List.replicate KDISKFS_MAX_FILES .zero } }
      (write_table works st, 0)
  else ({ fs := s, log := [] }, -1)

/-- What `kdiskfs_save_file` does once it has an entry `e`, with `super_block` as it leaves
it. -/
def save_entry (works : ℕ → Bool) (abi : Kmem.Abi) (s : kdiskfs) (super_block : kdiskfs_super)
    (pre : List kdiskfs_entry) (e : kdiskfs_entry) (post : List kdiskfs_entry) (start_lba : ℕ)
    (path data : Option (List UInt8)) (size : ℕ) (type : UInt8) (mode : UInt16) : state :=
  let needed := sectors_needed abi size
  let st : state := { fs := { s with super_block := super_block }, log := [] }
  let st := write_sectors works st start_lba (data_sector data size) needed
  let e' : kdiskfs_entry :=
    { path := (path.map fun p => kstrncpy p (sizeof_path - 1)).getD e.path,
      size := size % u32_mod, start_lba := start_lba, sector_count := needed, type := type,
      is_used := 1, mode := mode }
  sync_table_to_disk works { st with fs := { st.fs with disk_entries := pre ++ e' :: post } }

def kdiskfs_save_file (works : ℕ → Bool) (abi : Kmem.Abi) (s : kdiskfs)
    (path data : Option (List UInt8)) (size : ℕ) (type : UInt8) (mode : UInt16) : state × ℤ :=
  if s.drive_present then
    match find_slot (is_entry path) s.disk_entries with
    | some (pre, e, post) =>
      (save_entry works abi s s.super_block pre e post e.start_lba path data size type mode, 0)
    | none =>
      match find_slot is_vacant s.disk_entries with
      | some (pre, e, post) =>
        let super_block := { s.super_block with
          next_free_lba := (s.super_block.next_free_lba + sectors_needed abi size) % u32_mod
          num_files := (s.super_block.num_files + 1) % u32_mod }
        (save_entry works abi s super_block pre e post s.super_block.next_free_lba path data size
          type mode, 0)
      | none => ({ fs := s, log := [] }, -1)
  else ({ fs := s, log := [] }, -1)

/-! ## What a number of writes comes to -/

section Writes

variable {works : ℕ → Bool}

/-- All writes so far have been reported as done. -/
def state.AllDone (st : state) : Prop := ∀ w ∈ st.log, w.2 = true

/-- The next `n` writes succeed. -/
def Works (works : ℕ → Bool) (st : state) (n : ℕ) : Prop :=
  ∀ i < n, works (st.log.length + i) = true

/-- Between `st` and `st'` lie `n` writes, which put `f st.fs.disk` on the disk if they all
succeed. -/
structure Wrote (works : ℕ → Bool) (n : ℕ) (f : Disk → Disk) (st st' : state) : Prop where
  length : st'.log.length = st.log.length + n
  frame : st'.fs = { st.fs with disk := st'.fs.disk }
  all : st'.AllDone ↔ st.AllDone ∧ Works works st n
  disk : Works works st n → st'.fs.disk = f st.fs.disk

theorem works_add {st st' : state} {n k : ℕ} (h : st'.log.length = st.log.length + n) :
    Works works st (n + k) ↔ Works works st n ∧ Works works st' k := by
  unfold Works
  rw [h]
  refine ⟨fun hall => ⟨fun i hi => hall i (by omega), fun i hi => ?_⟩, ?_⟩
  · rw [Nat.add_assoc]
    exact hall (n + i) (by omega)
  · rintro ⟨h1, h2⟩ i hi
    by_cases hin : i < n
    · exact h1 i hin
    · have hlast := h2 (i - n) (by omega)
      rwa [show st.log.length + n + (i - n) = st.log.length + i by omega] at hlast

theorem Wrote.trans {n k : ℕ} {f g : Disk → Disk} {st st' st'' : state}
    (h : Wrote works n f st st') (h' : Wrote works k g st' st'') :
    Wrote works (n + k) (fun d => g (f d)) st st'' := by
  refine ⟨?_, ?_, ?_, ?_⟩
  · rw [h'.length, h.length, Nat.add_assoc]
  · rw [h'.frame, h.frame]
  · rw [h'.all, h.all, works_add h.length, and_assoc]
  · intro hw
    obtain ⟨h1, h2⟩ := (works_add h.length).mp hw
    rw [h'.disk h2, h.disk h1]

theorem kata_write_wrote (works : ℕ → Bool) (st : state) (lba : ℕ) (buffer : List UInt8) :
    Wrote works 1 (fun d => Kdiskfs.kata_write_sector d lba buffer) st
      (kata_write_sector works st lba buffer).1 := by
  have hworks : Works works st 1 ↔ works st.log.length = true := by
    refine ⟨fun h => h 0 Nat.one_pos, fun h i hi => ?_⟩
    rw [Nat.lt_one_iff.mp hi]
    exact h
  rw [kata_write_sector]
  split_ifs with hok
  · refine ⟨by simp, rfl, ?_, fun _ => rfl⟩
    rw [hworks]
    simp [state.AllDone, hok, or_imp, forall_and]
  · refine ⟨by simp, rfl, ?_, fun hw => absurd (hworks.mp hw) hok⟩
    rw [hworks]
    simp [state.AllDone, hok, or_imp, forall_and]

theorem write_sectors_wrote (works : ℕ → Bool) (st : state) (lba : ℕ)
    (buffers : ℕ → List UInt8) (n : ℕ) :
    Wrote works n (fun d => Kdiskfs.write_sectors d lba buffers n) st
      (write_sectors works st lba buffers n) := by
  induction n with
  | zero => exact ⟨rfl, rfl, by simp [write_sectors, Works], fun _ => rfl⟩
  | succ n ih => exact ih.trans (kata_write_wrote works _ (lba + n) (buffers n))

theorem write_table_wrote (works : ℕ → Bool) (st : state) :
    Wrote works table_sectors (fun d => Kdiskfs.write_table d st.fs.disk_entries) st
      (write_table works st) :=
  write_sectors_wrote works _ _ _ _

theorem sync_table_wrote (works : ℕ → Bool) (st : state) :
    Wrote works (table_sectors + 1)
      (fun d => (Kdiskfs.sync_table_to_disk { st.fs with disk := d }).disk) st
      (sync_table_to_disk works st) := by
  have htable := write_table_wrote works st
  have hsuper := kata_write_wrote works (write_table works st) KDISKFS_SUPER_LBA
    (sector_buf st.fs.super_block.bytes)
  have hsame : (write_table works st).fs.super_block = st.fs.super_block := by rw [htable.frame]
  unfold sync_table_to_disk
  dsimp only
  rw [hsame]
  exact htable.trans hsuper

end Writes

/-! ## Atomicity -/

/-- What a call is to keep to, when the drive that never fails has it leave `whole`: success
means that all of it is written, and failure leaves the tables in memory as they were. -/
structure Atomic (before whole : kdiskfs) (r : state × ℤ) : Prop where
  done : r.2 = 0 → r.1.AllDone ∧ r.1.fs = whole
  undone : r.2 ≠ 0 → r.1.fs.super_block = before.super_block
    ∧ r.1.fs.disk_entries = before.disk_entries

/-- The writes of `kdiskfs_save_file`: the sectors of the data, those of the table, and the
superblock. A call without a drive or without an entry writes nothing. -/
def save_writes (abi : Kmem.Abi) (s : kdiskfs) (path : Option (List UInt8)) (size : ℕ) : ℕ :=
  if s.drive_present && (s.disk_entries.any (is_entry path) || s.disk_entries.any is_vacant) then
    sectors_needed abi size + (table_sectors + 1)
  else 0

theorem atomic_success {before whole : kdiskfs} {after : state} {p : Prop}
    (h : (after.AllDone ↔ p) ∧ (p → after.fs = whole)) : Atomic before whole (after, 0) ↔ p := by
  refine ⟨fun ha => h.1.mp (ha.done rfl).1, fun hp => ⟨fun _ => ⟨h.1.mpr hp, h.2 hp⟩, ?_⟩⟩
  exact fun hne => absurd rfl hne

theorem atomic_failure (s whole : kdiskfs) : Atomic s whole ({ fs := s, log := [] }, -1) :=
  ⟨fun h => absurd (show (-1 : ℤ) = 0 from h) (by decide), fun _ => ⟨rfl, rfl⟩⟩

section Save

variable {works : ℕ → Bool} {abi : Kmem.Abi} {s : kdiskfs} {super_block : kdiskfs_super}
  {pre post : List kdiskfs_entry} {e : kdiskfs_entry} {start_lba : ℕ}
  {path data : Option (List UInt8)} {size : ℕ} {type : UInt8} {mode : UInt16}

/-- Once there is an entry, everything is a matter of the writes. -/
theorem save_entry_spec :
    let after := save_entry works abi s super_block pre e post start_lba path data size type mode
    let n := sectors_needed abi size + (table_sectors + 1)
    (after.AllDone ↔ ∀ i < n, works i = true)
      ∧ ((∀ i < n, works i = true) → after.fs =
        Kdiskfs.save_entry abi s super_block pre e post start_lba path data size type mode) := by
  intro after n
  have hdata := write_sectors_wrote works ⟨{ s with super_block := super_block }, []⟩
    start_lba (data_sector data size) (sectors_needed abi size)
  set st := write_sectors works ⟨{ s with super_block := super_block }, []⟩ start_lba
    (data_sector data size) (sectors_needed abi size) with hst
  -- the entry is assigned between the writes of the data and those of the table
  set st' : state := { st with fs := { st.fs with disk_entries := pre ++
    { path := (path.map fun p => kstrncpy p (sizeof_path - 1)).getD e.path,
      size := size % u32_mod, start_lba := start_lba, sector_count := sectors_needed abi size,
      type := type, is_used := 1, mode := mode } :: post } } with hst'
  have hsync := sync_table_wrote works st'
  have hafter : after = sync_table_to_disk works st' := rfl
  have hworks : (∀ i < n, works i = true)
      ↔ Works works ⟨{ s with super_block := super_block }, []⟩ n := by
    simp only [Works, List.length_nil, Nat.zero_add]
  rw [hworks, works_add hdata.length, hafter]
  refine ⟨?_, ?_⟩
  · rw [hsync.all]
    refine and_congr_left fun _ => hdata.all.trans (and_iff_right ?_)
    exact fun w hw => absurd hw List.not_mem_nil
  · rintro ⟨h1, h2⟩
    rw [hsync.frame, hsync.disk h2, hst']
    dsimp only
    rw [hdata.disk h1, hdata.frame]
    rfl

/-- **Saving.** `kdiskfs_save_file` is atomic exactly on the patterns in which none of its writes
fails. -/
theorem save_file_atomic_iff :
    Atomic s (Kdiskfs.kdiskfs_save_file abi s path data size type mode).1
      (kdiskfs_save_file works abi s path data size type mode)
      ↔ ∀ i < save_writes abi s path size, works i = true := by
  have hnone : ∀ i < 0, works i = true := fun i hi => absurd hi (Nat.not_lt_zero i)
  unfold kdiskfs_save_file Kdiskfs.kdiskfs_save_file save_writes
  rw [find_slot_any, find_slot_any]
  by_cases hdrive : s.drive_present = true
  · rw [if_pos hdrive, if_pos hdrive, hdrive]
    rcases hentry : find_slot (is_entry path) s.disk_entries with _ | ⟨pre, e, post⟩
    · rcases hvacant : find_slot is_vacant s.disk_entries with _ | ⟨pre, e, post⟩
      · exact iff_of_true (atomic_failure _ _) hnone
      · exact atomic_success save_entry_spec
    · exact atomic_success save_entry_spec
  · rw [if_neg hdrive, if_neg hdrive, Bool.eq_false_iff.mpr hdrive]
    exact iff_of_true (atomic_failure _ _) hnone

end Save

section Format

variable {works : ℕ → Bool} {s : kdiskfs}

/-- The drive patterns that `kdiskfs_format` is up to: no drive, no failing write, or a
superblock that cannot be written and was an empty disk's before. -/
def FormatOk (works : ℕ → Bool) (s : kdiskfs) : Prop :=
  s.drive_present = false ∨ (works 0 = false ∧ s.super_block = fresh_super)
    ∨ ∀ i < 1 + table_sectors, works i = true

/-- **Formatting.** `kdiskfs_format` is atomic exactly there. -/
theorem format_atomic_iff :
    Atomic s (Kdiskfs.kdiskfs_format s).1 (kdiskfs_format works s) ↔ FormatOk works s := by
  unfold kdiskfs_format Kdiskfs.kdiskfs_format FormatOk
  by_cases hdrive : s.drive_present = true
  swap
  · rw [if_neg hdrive, if_neg hdrive]
    exact iff_of_true (atomic_failure _ _) (Or.inl (Bool.eq_false_iff.mpr hdrive))
  rw [if_pos hdrive, if_pos hdrive, or_iff_right (by rw [hdrive]; decide)]
  have hsuper := kata_write_wrote works ⟨{ s with super_block := fresh_super }, []⟩
    KDISKFS_SUPER_LBA (sector_buf fresh_super.bytes)
  have hworks : (∀ i < 1 + table_sectors, works i = true)
      ↔ Works works ⟨{ s with super_block := fresh_super }, []⟩ (1 + table_sectors) := by
    simp only [Works, List.length_nil, Nat.zero_add]
  cases hfirst : works 0 with
  | false =>
      -- the superblock in memory has changed, whatever it was
      have hres : kata_write_sector works ⟨{ s with super_block := fresh_super }, []⟩
          KDISKFS_SUPER_LBA (sector_buf fresh_super.bytes)
          = (⟨{ s with super_block := fresh_super }, [(KDISKFS_SUPER_LBA, false)]⟩, -1) := by
        rw [kata_write_sector, List.length_nil, hfirst]
        rfl
      have hlater : ¬∀ i < 1 + table_sectors, works i = true := by
        intro hall
        have hzero := hall 0 (by decide)
        rw [hfirst] at hzero
        exact Bool.noConfusion hzero
      dsimp only
      rw [hres, if_pos (show (-1 : ℤ) < 0 by decide), or_iff_left hlater, and_iff_right rfl]
      refine ⟨fun ha => (ha.undone (show (-1 : ℤ) ≠ 0 by decide)).1.symm,
        fun heq => ⟨fun h => ?_, fun _ => ?_⟩⟩
      · exact absurd (show (-1 : ℤ) = 0 from h) (by decide)
      · exact ⟨heq.symm, rfl⟩
  | true =>
      have hres : (kata_write_sector works ⟨{ s with super_block := fresh_super }, []⟩
          KDISKFS_SUPER_LBA (sector_buf fresh_super.bytes)).2 = 0 := by
        rw [kata_write_sector, List.length_nil, hfirst]
        rfl
      dsimp only
      rw [hres, if_neg (by decide), or_iff_right (by simp), hworks, works_add hsuper.length]
      set st := (kata_write_sector works ⟨{ s with super_block := fresh_super }, []⟩
        KDISKFS_SUPER_LBA (sector_buf fresh_super.bytes)).1
      have htable := write_table_wrote works
        { st with fs := { st.fs with disk_entries := List.replicate KDISKFS_MAX_FILES .zero } }
      refine atomic_success ⟨?_, ?_⟩
      · rw [htable.all]
        refine and_congr_left fun _ => hsuper.all.trans (and_iff_right ?_)
        exact fun w hw => absurd hw List.not_mem_nil
      · rintro ⟨h1, h2⟩
        rw [htable.frame, htable.disk h2]
        dsimp only
        rw [hsuper.disk h1, hsuper.frame]
        rfl

end Format

/-- **Atomicity.** On which patterns of write failures the two functions succeed only with
everything written, and fail only with the tables in memory as they were. -/
theorem saves_atomic_iff (works : ℕ → Bool) (abi : Kmem.Abi) (s : kdiskfs)
    (path data : Option (List UInt8)) (size : ℕ) (type : UInt8) (mode : UInt16) :
    (Atomic s (Kdiskfs.kdiskfs_save_file abi s path data size type mode).1
        (kdiskfs_save_file works abi s path data size type mode)
      ↔ ∀ i < save_writes abi s path size, works i = true)
    ∧ (Atomic s (Kdiskfs.kdiskfs_format s).1 (kdiskfs_format works s) ↔ FormatOk works s) :=
  ⟨save_file_atomic_iff, format_atomic_iff⟩

/-- A disk as `kdiskfs_format` leaves it. -/
def formatted : kdiskfs := (Kdiskfs.kdiskfs_format (kdiskfs.start true fun _ => [])).1

/-- The sector with the data of a new file is not written, and the call reports success. -/
theorem save_reports_success :
    ¬∀ (works : ℕ → Bool) (s : kdiskfs) (path data : Option (List UInt8)) (size : ℕ)
      (type : UInt8) (mode : UInt16),
      Atomic s (Kdiskfs.kdiskfs_save_file .i386 s path data size type mode).1
        (kdiskfs_save_file works .i386 s path data size type mode) := by
  intro hall
  have hatomic := hall (fun n => n != 0) formatted (some [47, 97]) (some [65]) 1 0 0
  have hvals : (kdiskfs_save_file (fun n => n != 0) .i386 formatted (some [47, 97]) (some [65]) 1
      0 0).2 = 0
      ∧ (KDISKFS_DATA_LBA, false) ∈ (kdiskfs_save_file (fun n => n != 0) .i386 formatted
        (some [47, 97]) (some [65]) 1 0 0).1.log := by
    decide
  have hdone := (hatomic.done hvals.1).1 _ hvals.2
  exact Bool.noConfusion hdone

end SysInC.Kdiskfs.Faults
