/-
The files of a disk, and how a call of `kdiskfs.c` changes them.

`DiskOk` is what holds of a state whose saves all fit (`Fits`): the table stands on the disk as
it stands in memory, in the records that survive, and every file has the sectors for its size.
-/
import SysInC.KdiskfsTable

set_option autoImplicit false

namespace SysInC.Kdiskfs

open SysInC.Kvfs

/-- What a file is to a caller of the file systems. -/
structure file where
  contents : List UInt8
  size : ℕ
  type : UInt8
  mode : UInt16
  deriving DecidableEq

/-- The file that an entry in use stands for. -/
def entry_file (disk : Disk) (e : kdiskfs_entry) : file :=
  ⟨(read_sectors disk e.start_lba e.sector_count).take e.size, e.size, e.type, e.mode⟩

/-- What a caller hands over. The sectors of a NULL `data` are zeros. -/
def given (data : Option (List UInt8)) (size : ℕ) : List UInt8 :=
  (data.getD (List.replicate size 0)).take size

/-! ## Contents and sectors -/

variable {abi : Kmem.Abi} {s : kdiskfs} {pre post : List kdiskfs_entry} {e : kdiskfs_entry}

theorem sectors_needed_eq (abi : Kmem.Abi) {size : ℕ} (h : size + 511 < u32_mod) :
    sectors_needed abi size = max 1 ((size + 511) / 512) := by
  have hmod : u32_mod ≤ abi.size_mod := by cases abi <;> decide
  have hsize : (size + 511) % abi.size_mod = size + 511 := Nat.mod_eq_of_lt (by omega)
  have hdiv : (size + 511) / 512 % u32_mod = (size + 511) / 512 := Nat.mod_eq_of_lt (by omega)
  show (if (size + 511) % abi.size_mod / 512 % u32_mod = 0 then 1
    else (size + 511) % abi.size_mod / 512 % u32_mod) = _
  rw [hsize, hdiv]
  split_ifs
  · omega
  · omega

theorem sectors_needed_bounds (abi : Kmem.Abi) {size : ℕ} (h : size + 511 < u32_mod) :
    size ≤ sectors_needed abi size * 512 ∧ sectors_needed abi size * 512 < u32_mod
      ∧ 0 < sectors_needed abi size := by
  rw [sectors_needed_eq abi h]
  unfold u32_mod at *
  omega

theorem data_sector_eq {data : Option (List UInt8)} {size i : ℕ} (hi : i * 512 < u32_mod) :
    data_sector data size i = sector_buf (((given data size).drop (i * 512)).take 512) := by
  have hoffset : i * ATA_SECTOR_SIZE % u32_mod = i * 512 := Nat.mod_eq_of_lt hi
  unfold data_sector given
  rw [hoffset]
  dsimp only
  cases data with
  | none =>
      have hzeros (n : ℕ) (hn : n ≤ 512) : sector_buf (List.replicate n 0) = sector_buf [] := by
        unfold sector_buf ATA_SECTOR_SIZE
        rw [List.rightpad, List.rightpad, List.replicate_append_replicate, List.length_replicate,
          List.length_nil, List.nil_append]
        congr 1
        omega
      rw [Option.getD_none, List.take_replicate, List.drop_replicate, List.take_replicate]
      exact (hzeros _ (Nat.min_le_left _ _)).symm
  | some src =>
      dsimp only
      rw [Option.getD_some, List.drop_take, List.take_take, Nat.min_comm]
      rfl

theorem read_sectors_congr {disk disk' : Disk} {lba n : ℕ}
    (h : ∀ i < n, kata_read_sector disk' (lba + i) = kata_read_sector disk (lba + i)) :
    read_sectors disk' lba n = read_sectors disk lba n := by
  apply List.flatMap_congr
  intro i hi
  exact h i (List.mem_range.mp hi)

theorem read_write_sectors {disk : Disk} {lba n i : ℕ} {buffers : ℕ → List UInt8}
    (hfit : lba + n ≤ lba_mod) (hi : i < n) :
    kata_read_sector (write_sectors disk lba buffers n) (lba + i) = buffers i := by
  have hlba : (lba + i) % lba_mod = lba + i := Nat.mod_eq_of_lt (by omega)
  show write_sectors disk lba buffers n ((lba + i) % lba_mod) = buffers i
  rw [hlba]
  exact write_sectors_at hfit hi

/-- The sectors that a save writes hold what its caller gave, and zeros. -/
theorem read_written {disk : Disk} {data : Option (List UInt8)} {size lba n : ℕ}
    (hgiven : (given data size).length = size) (hsize : size ≤ n * 512) (hn : n * 512 < u32_mod)
    (hfit : lba + n ≤ lba_mod) :
    read_sectors (write_sectors disk lba (data_sector data size) n) lba n
      = given data size ++ List.replicate (n * 512 - size) 0 := by
  have hpad := flatMap_pad_chunks (given data size) 0 (hgiven.le.trans hsize)
  rw [hgiven] at hpad
  rw [← hpad]
  apply List.flatMap_congr
  intro i hi
  have hlt := List.mem_range.mp hi
  have hlow : i * 512 < u32_mod :=
    (Nat.mul_le_mul_right 512 hlt.le).trans_lt hn
  rw [read_write_sectors hfit hlt]
  exact data_sector_eq hlow

/-! ## States whose saves fit -/

/-- An entry in use has the sectors for its size, and directories are empty. -/
structure Whole (e : kdiskfs_entry) : Prop where
  size_le : e.size ≤ e.sector_count * 512
  count_lt : e.sector_count * 512 < u32_mod
  dir : e.type = KVFS_TYPE_DIR → e.size = 0
  count_pos : 0 < e.sector_count

structure DiskOk (s : kdiskfs) : Prop where
  present : s.drive_present = true
  length : s.disk_entries.length = KDISKFS_MAX_FILES
  extents : ExtentsOk s
  entries : ∀ e ∈ s.disk_entries, EntryOk e
  whole : ∀ e ∈ s.disk_entries, e.is_used ≠ 0 → Whole e
  read : ∀ e ∈ s.disk_entries, e.is_used ≠ 0 →
    (read_sectors s.disk e.start_lba e.sector_count).length = e.sector_count * 512
  early : ∀ e ∈ s.disk_entries.drop table_room, e.is_used = 0
  magic : s.super_block.magic = KDISKFS_MAGIC
  super : kata_read_sector s.disk KDISKFS_SUPER_LBA = sector_buf s.super_block.bytes
  table : ∀ i < table_sectors, kata_read_sector s.disk (KDISKFS_TABLE_LBA + i)
    = ((table_bytes s.disk_entries).drop (i * ATA_SECTOR_SIZE)).take ATA_SECTOR_SIZE

theorem write_table_at (disk : Disk) (t : List kdiskfs_entry) {i : ℕ} (hi : i < table_sectors) :
    kata_read_sector (write_table disk t) (KDISKFS_TABLE_LBA + i)
      = ((table_bytes t).drop (i * ATA_SECTOR_SIZE)).take ATA_SECTOR_SIZE := by
  have hlba : (KDISKFS_TABLE_LBA + i) % lba_mod = KDISKFS_TABLE_LBA + i := by
    apply Nat.mod_eq_of_lt
    unfold table_sectors at hi
    unfold KDISKFS_TABLE_LBA lba_mod
    omega
  rw [kata_read_sector, hlba, write_table]
  exact write_sectors_at (by decide) hi

theorem sync_super (s : kdiskfs) :
    kata_read_sector (sync_table_to_disk s).disk KDISKFS_SUPER_LBA
      = sector_buf s.super_block.bytes := by
  have hdisk : (sync_table_to_disk s).disk = kata_write_sector (write_table s.disk s.disk_entries)
      KDISKFS_SUPER_LBA (sector_buf s.super_block.bytes) := rfl
  rw [hdisk, kata_read_sector, kata_write_sector, Function.update_self]

theorem sync_table (s : kdiskfs) {i : ℕ} (hi : i < table_sectors) :
    kata_read_sector (sync_table_to_disk s).disk (KDISKFS_TABLE_LBA + i)
      = ((table_bytes s.disk_entries).drop (i * ATA_SECTOR_SIZE)).take ATA_SECTOR_SIZE := by
  rw [← write_table_at s.disk s.disk_entries hi]
  unfold kata_read_sector
  apply Function.update_of_ne
  unfold table_sectors at hi
  unfold KDISKFS_TABLE_LBA KDISKFS_SUPER_LBA lba_mod
  omega

theorem format_super (disk : Disk) (t : List kdiskfs_entry) (buffer : List UInt8) :
    kata_read_sector (write_table (kata_write_sector disk KDISKFS_SUPER_LBA buffer) t)
      KDISKFS_SUPER_LBA = buffer := by
  rw [kata_read_sector, write_table, write_sectors_off]
  · rw [kata_write_sector, Function.update_self]
  · intro i hi
    unfold table_sectors at hi
    unfold KDISKFS_TABLE_LBA KDISKFS_SUPER_LBA lba_mod
    omega

theorem entryOk_zero : EntryOk .zero := ⟨by decide, List.not_mem_nil, by decide, by decide, by decide⟩

theorem format_ok (h : s.drive_present = true) : DiskOk (kdiskfs_format s).1 := by
  have hextents := format_extents h
  rw [kdiskfs_format, if_pos h] at *
  have hzero (e : kdiskfs_entry) (he : e ∈ List.replicate KDISKFS_MAX_FILES kdiskfs_entry.zero) :
      e = .zero := List.eq_of_mem_replicate he
  have hunused (e : kdiskfs_entry) (he : e ∈ List.replicate KDISKFS_MAX_FILES kdiskfs_entry.zero) :
      e.is_used = 0 := by rw [hzero e he]; rfl
  refine ⟨h, List.length_replicate, hextents, ?_, fun e he hu => absurd (hunused e he) hu,
    fun e he hu => absurd (hunused e he) hu, ?_, rfl, ?_, fun i hi => write_table_at _ _ hi⟩
  · intro e he
    rw [hzero e he]
    exact entryOk_zero
  · exact fun e he => hunused e (List.mem_of_mem_drop he)
  · exact format_super _ _ _

/-! ## Calls that fit -/

/-- Paths are C strings, and a buffer is as long as its caller says. -/
def disk_call.Legal : disk_call → Prop
  | .kdiskfs_save_file path data size _ _ =>
    (∀ p ∈ path, 0 ∉ p) ∧ ∀ src ∈ data, size ≤ src.length
  | .kdiskfs_delete_file path => ∀ p ∈ path, 0 ∉ p

/-- What is saved has room on the disk and in the record, and the record in the sectors of the
table. -/
def disk_call.Fits (abi : Kmem.Abi) (s : kdiskfs) : disk_call → Prop
  | .kdiskfs_save_file path data size type mode =>
    (disk_call.kdiskfs_save_file path data size type mode).Room abi s
      ∧ (∃ p, path = some p ∧ p.length ≤ sizeof_path - 1)
      ∧ size + 511 < u32_mod
      ∧ (type = KVFS_TYPE_DIR → size = 0)
      ∧ (find_slot (is_entry path) s.disk_entries = none →
        ∃ pre e post, find_slot is_vacant s.disk_entries = some (pre, e, post)
          ∧ pre.length < table_room)
  | .kdiskfs_delete_file _ => True

theorem given_length {data : Option (List UInt8)} {size : ℕ} (h : ∀ src ∈ data, size ≤ src.length) :
    (given data size).length = size := by
  unfold given
  cases data with
  | none => rw [Option.getD_none, List.length_take, List.length_replicate, Nat.min_self]
  | some src => exact List.length_take_of_le (h src rfl)

theorem drop_middle {σ : Type*} {pre post : List σ} {x y : σ} {n : ℕ} (h : pre.length < n) :
    (pre ++ x :: post).drop n = (pre ++ y :: post).drop n := by
  have hsub : n - pre.length = n - pre.length - 1 + 1 := by omega
  rw [List.drop_append, List.drop_append, hsub, List.drop_succ_cons, List.drop_succ_cons]

theorem mem_drop_middle {σ : Type*} {pre post : List σ} {x : σ} {n : ℕ} (h : n ≤ pre.length) :
    x ∈ (pre ++ x :: post).drop n := by
  rw [List.drop_append_of_le_length h]
  exact mem_middle

/-- An entry in use lies in front of `table_room`. -/
theorem DiskOk.index_lt (h : DiskOk s) (ht : s.disk_entries = pre ++ e :: post)
    (hu : e.is_used ≠ 0) : pre.length < table_room := by
  by_contra hge
  refine hu (h.early e ?_)
  rw [ht]
  exact mem_drop_middle (Nat.le_of_not_lt hge)

theorem read_untouched {s' : kdiskfs} {o : kdiskfs_entry} (h : ExtentsOk s)
    (ho : o ∈ s.disk_entries) (hu : o.is_used ≠ 0) (htouch : Untouched s s' o) :
    read_sectors s'.disk o.start_lba o.sector_count
      = read_sectors s.disk o.start_lba o.sector_count := by
  obtain ⟨-, hhi⟩ := h.laid.bounds o ho hu
  have hlast := h.last
  apply read_sectors_congr
  intro i hi
  have hlba : (o.start_lba + i) % lba_mod = o.start_lba + i := Nat.mod_eq_of_lt (by omega)
  rw [kata_read_sector, kata_read_sector, hlba]
  exact htouch.2 i hi

theorem entry_file_congr {disk' : Disk} {o : kdiskfs_entry}
    (h : read_sectors disk' o.start_lba o.sector_count
      = read_sectors s.disk o.start_lba o.sector_count) :
    entry_file disk' o = entry_file s.disk o := by
  rw [entry_file, h, entry_file]

/-- One entry of the table becomes `e'`, and the table is written out. What is to be shown is
about `e'` and about the sectors of the other files. -/
theorem DiskOk.change (h : DiskOk s) (ht : s.disk_entries = pre ++ e :: post)
    (hearly : pre.length < table_room) {s' : kdiskfs} {e' : kdiskfs_entry} (hentry : EntryOk e')
    (hpresent : s'.drive_present = s.drive_present)
    (hmagic : s'.super_block.magic = s.super_block.magic)
    (hafter : s'.disk_entries = pre ++ e' :: post)
    (hextents : ExtentsOk (sync_table_to_disk s'))
    (hnew : e'.is_used ≠ 0 → Whole e' ∧ (read_sectors (sync_table_to_disk s').disk e'.start_lba
      e'.sector_count).length = e'.sector_count * 512)
    (hothers : ∀ o ∈ pre ++ post, o.is_used ≠ 0 →
      read_sectors (sync_table_to_disk s').disk o.start_lba o.sector_count
        = read_sectors s.disk o.start_lba o.sector_count) :
    DiskOk (sync_table_to_disk s') := by
  have hlist : (sync_table_to_disk s').disk_entries = pre ++ e' :: post := hafter
  have hold (o : kdiskfs_entry) (ho : o ∈ pre ++ post) : o ∈ s.disk_entries := by
    rw [ht]
    exact mem_other ho
  -- what is said of all entries is said of `e'` and of the ones that stay
  refine ⟨hpresent.trans h.present, ?_, hextents, ?_, ?_, ?_, ?_, hmagic.trans h.magic,
    sync_super _, fun i hi => sync_table _ hi⟩
  · have hlength := h.length
    rw [ht, List.length_append, List.length_cons] at hlength
    rw [hlist, List.length_append, List.length_cons, hlength]
  · intro o ho
    rw [hlist] at ho
    rcases eq_or_mem_other ho with rfl | hother
    · exact hentry
    · exact h.entries o (hold o hother)
  · intro o ho hu
    rw [hlist] at ho
    rcases eq_or_mem_other ho with rfl | hother
    · exact (hnew hu).1
    · exact h.whole o (hold o hother) hu
  · intro o ho hu
    rw [hlist] at ho
    rcases eq_or_mem_other ho with rfl | hother
    · exact (hnew hu).2
    · rw [hothers o hother hu]
      exact h.read o (hold o hother) hu
  · rw [hlist, drop_middle hearly, ← ht]
    exact h.early

/-- What a save writes is read back. -/
theorem save_entry_read {data : Option (List UInt8)} {size start_lba : ℕ} {sb : kdiskfs_super}
    (hspare : Spare s sb pre post start_lba (sectors_needed abi size))
    (hdata : ∀ src ∈ data, size ≤ src.length) (hsize : size + 511 < u32_mod)
    (path : Option (List UInt8)) (type : UInt8) (mode : UInt16) :
    read_sectors (save_entry abi s sb pre e post start_lba path data size type mode).disk
        start_lba (sectors_needed abi size)
      = given data size ++ List.replicate (sectors_needed abi size * 512 - size) 0 := by
  obtain ⟨hcover, hcount, -⟩ := sectors_needed_bounds abi hsize
  have hlba : start_lba + sectors_needed abi size ≤ lba_mod := hspare.behind.trans hspare.last
  have hfirst := hspare.first
  have hwritten : read_sectors (write_sectors s.disk start_lba (data_sector data size)
      (sectors_needed abi size)) start_lba (sectors_needed abi size) = _ :=
    read_written (given_length hdata) hcover hcount hlba
  rw [← hwritten]
  apply read_sectors_congr
  intro i hi
  have hin : (start_lba + i) % lba_mod = start_lba + i := Nat.mod_eq_of_lt (by omega)
  rw [kata_read_sector, kata_read_sector, hin]
  -- the table ends in front of the file
  exact sync_table_to_disk_off _ (by omega)

/-- One entry becomes a used entry `e'`; the other files are what they were. -/
structure Saves (s s' : kdiskfs) (p : List UInt8) (f : file) (pre : List kdiskfs_entry)
    (e : kdiskfs_entry) (post : List kdiskfs_entry) (e' : kdiskfs_entry) : Prop where
  before : s.disk_entries = pre ++ e :: post
  after : s'.disk_entries = pre ++ e' :: post
  used : e'.is_used ≠ 0
  path : e'.path = p
  written : entry_file s'.disk e' = f
  others : ∀ o ∈ pre ++ post, o.is_used ≠ 0 → entry_file s'.disk o = entry_file s.disk o
  which : e.is_used ≠ 0 ∧ e.path = p
    ∨ e.is_used = 0 ∧ ∀ o ∈ s.disk_entries, o.is_used ≠ 0 → o.path ≠ p

theorem not_entry {t : List kdiskfs_entry} {p : List UInt8}
    (h : find_slot (is_entry (some p)) t = none) : ∀ o ∈ t, o.is_used ≠ 0 → o.path ≠ p := by
  intro o ho hu hpath
  have htest := find_slot_none h o ho
  rw [is_entry, hpath, decide_eq_true hu, decide_eq_true rfl] at htest
  cases htest

theorem kdiskfs_save_file_spec (h : DiskOk s) {p : List UInt8} {data : Option (List UInt8)}
    {size : ℕ} {type : UInt8} {mode : UInt16}
    (hlegal : (disk_call.kdiskfs_save_file (some p) data size type mode).Legal)
    (hfits : (disk_call.kdiskfs_save_file (some p) data size type mode).Fits abi s) :
    DiskOk (kdiskfs_save_file abi s (some p) data size type mode).1
      ∧ ∃ pre e post e', Saves s (kdiskfs_save_file abi s (some p) data size type mode).1 p
        ⟨given data size, size, type, mode⟩ pre e post e' := by
  obtain ⟨htext, hdata⟩ := hlegal
  obtain ⟨hroom, ⟨_, ⟨⟩, hlen⟩, hsize, hdir, hslot⟩ := hfits
  obtain ⟨hcover, hcount, hpos⟩ := sectors_needed_bounds abi hsize
  have hmod : size % u32_mod = size := Nat.mod_eq_of_lt (by omega)
  rcases save_cases h.extents hroom with ⟨-, hnone⟩ |
    ⟨pre, e, post, sb, start_lba, ht, heq, hspare, hmagic, hwhich⟩
  · -- the disk is there, and a new file has a record
    rcases hnone with hpresent | ⟨hentry, hvacant⟩
    · rw [h.present] at hpresent
      cases hpresent
    · obtain ⟨pre, e, post, hsome, -⟩ := hslot hentry
      rw [hvacant] at hsome
      cases hsome
  · obtain ⟨hextents, hframe⟩ := save_entry_extents h.extents ht (some p) data size type mode hspare
    rw [heq]
    have hlba : start_lba + sectors_needed abi size ≤ lba_mod := hspare.behind.trans hspare.last
    have hu32 : lba_mod < u32_mod := by decide
    -- a taken entry lies in front of `table_room`, and `Fits` asks it of a free one
    have hearly : pre.length < table_room := by
      rcases hwhich with ⟨hu, -⟩ | ⟨hentry, hvacant⟩
      · exact h.index_lt ht hu
      · obtain ⟨pre', e', post', hsome, hlt⟩ := hslot hentry
        rw [hvacant] at hsome
        cases hsome
        exact hlt
    let e' : kdiskfs_entry :=
      { path := kstrncpy p (sizeof_path - 1), size := size % u32_mod, start_lba := start_lba,
        sector_count := sectors_needed abi size, type := type, is_used := 1, mode := mode }
    let s' := save_entry abi s sb pre e post start_lba (some p) data size type mode
    have hpath : e'.path = p := List.take_of_length_le hlen
    have hread : read_sectors s'.disk start_lba (sectors_needed abi size)
        = given data size ++ List.replicate (sectors_needed abi size * 512 - size) 0 :=
      save_entry_read hspare hdata hsize (some p) type mode
    -- the sectors of the other files are off the ones written
    have hothers (o : kdiskfs_entry) (ho : o ∈ pre ++ post) (hu : o.is_used ≠ 0) :
        read_sectors s'.disk o.start_lba o.sector_count
          = read_sectors s.disk o.start_lba o.sector_count :=
      read_untouched h.extents (by rw [ht]; exact mem_other ho) hu (hframe o ho hu)
    constructor
    · have hentryok : EntryOk e' :=
        ⟨hpath.symm ▸ hlen, hpath.symm ▸ htext p rfl, Nat.mod_lt _ (by decide),
          (by omega : start_lba < u32_mod), (by omega : sectors_needed abi size < u32_mod)⟩
      refine h.change ht hearly hentryok rfl hmagic rfl hextents (fun _ => ?_) hothers
      refine ⟨⟨hmod.le.trans hcover, hcount, fun hd => hmod.trans (hdir hd), hpos⟩, ?_⟩
      have hlength := congrArg List.length hread
      rw [List.length_append, given_length hdata, List.length_replicate] at hlength
      exact hlength.trans (Nat.add_sub_cancel' hcover)
    · refine ⟨pre, e, post, e', ht, rfl, (by decide : (1 : UInt8) ≠ 0), hpath, ?_, ?_, ?_⟩
      · show (⟨(read_sectors s'.disk start_lba (sectors_needed abi size)).take (size % u32_mod),
          size % u32_mod, type, mode⟩ : file) = _
        rw [hread, hmod, List.take_left' (given_length hdata)]
      · exact fun o ho hu => entry_file_congr (hothers o ho hu)
      · rcases hwhich with ⟨hu, heqp⟩ | ⟨hentry, hvacant⟩
        · exact .inl ⟨hu, Option.some_inj.mp heqp⟩
        · exact .inr ⟨vacant_unused hvacant, not_entry hentry⟩

/-- The entry of the path goes out of use, or there was none. -/
def Deletes (s s' : kdiskfs) (p : List UInt8) : Prop :=
  (s' = s ∧ ∀ o ∈ s.disk_entries, o.is_used ≠ 0 → o.path ≠ p)
    ∨ ∃ pre e post, s.disk_entries = pre ++ e :: post
      ∧ s'.disk_entries = pre ++ { e with is_used := 0 } :: post
      ∧ e.is_used ≠ 0 ∧ e.path = p
      ∧ ∀ o ∈ pre ++ post, o.is_used ≠ 0 → entry_file s'.disk o = entry_file s.disk o

/-- A delete brings no file. -/
theorem Deletes.mem {s' : kdiskfs} {p : List UInt8} (h : Deletes s s' p) {o : kdiskfs_entry}
    (ho : o ∈ s'.disk_entries) (hu : o.is_used ≠ 0) : o ∈ s.disk_entries := by
  rcases h with ⟨rfl, -⟩ | ⟨pre, e, post, hbefore, hafter, -⟩
  · exact ho
  · rw [hafter] at ho
    rcases eq_or_mem_other ho with rfl | hother
    · exact absurd rfl hu
    · rw [hbefore]
      exact mem_other hother

theorem kdiskfs_delete_file_null (s : kdiskfs) : kdiskfs_delete_file s none = (s, -1) := by
  unfold kdiskfs_delete_file
  split
  · rename_i hfind
    obtain ⟨-, he, -⟩ := find_slot_some hfind
    cases (is_entry_path he).2
  · rfl

theorem kdiskfs_delete_file_spec (h : DiskOk s) (p : List UInt8) :
    DiskOk (kdiskfs_delete_file s (some p)).1
      ∧ Deletes s (kdiskfs_delete_file s (some p)).1 p := by
  obtain ⟨hextents, hframe⟩ := delete_extents h.extents (some p)
  unfold kdiskfs_delete_file at *
  split at hextents
  · rename_i pre e post hfind
    rw [hfind] at hframe
    obtain ⟨ht, he, -⟩ := find_slot_some hfind
    obtain ⟨hu, hpath⟩ := is_entry_path he
    have hearly := h.index_lt ht hu
    have hentry : EntryOk { e with is_used := 0 } := by
      obtain ⟨h1, h2, h3, h4, h5⟩ := h.entries e (by rw [ht]; exact mem_middle)
      exact ⟨h1, h2, h3, h4, h5⟩
    let s' := sync_table_to_disk { s with
      super_block := { s.super_block with num_files := s.super_block.num_files - 1 }
      disk_entries := pre ++ { e with is_used := 0 } :: post }
    -- only the table is written, and every file lies behind it
    have hothers (o : kdiskfs_entry) (ho : o ∈ pre ++ post) (hused : o.is_used ≠ 0) :
        read_sectors s'.disk o.start_lba o.sector_count
          = read_sectors s.disk o.start_lba o.sector_count := by
      have hmem : o ∈ s.disk_entries := by rw [ht]; exact mem_other ho
      obtain ⟨hlo, -⟩ := h.extents.laid.bounds o hmem hused
      exact read_untouched h.extents hmem hused
        ⟨mem_other ho, fun i hi => sync_table_to_disk_off _ (by omega)⟩
    constructor
    · exact h.change ht hearly hentry rfl rfl rfl hextents (fun hused => absurd rfl hused)
        hothers
    · exact .inr ⟨pre, e, post, ht, rfl, hu, Option.some_inj.mp hpath, fun o ho hused =>
        entry_file_congr (hothers o ho hused)⟩
  · rename_i hfind
    exact ⟨h, .inl ⟨rfl, not_entry hfind⟩⟩

/-- One sector is always there for a file on the disk. -/
theorem DiskOk.room_of_le (h : DiskOk s) {path data : Option (List UInt8)} {size : ℕ}
    {type : UInt8} {mode : UInt16} (hsize : size ≤ 512)
    (hnew : find_slot (is_entry path) s.disk_entries = none →
      s.super_block.next_free_lba + 1 ≤ lba_mod) :
    (disk_call.kdiskfs_save_file path data size type mode).Room abi s := by
  have hone : sectors_needed abi size = 1 := by
    have hlow : size + 511 < u32_mod := by
      unfold u32_mod
      omega
    rw [sectors_needed_eq abi hlow]
    omega
  unfold disk_call.Room
  dsimp only
  rw [hone]
  split
  · rename_i pre e post hfind
    obtain ⟨ht, he, -⟩ := find_slot_some hfind
    obtain ⟨hu, -⟩ := is_entry_path he
    have hmem : e ∈ s.disk_entries := by rw [ht]; exact mem_middle
    have hpos := (h.whole e hmem hu).count_pos
    have hbounds := h.extents.laid.bounds e hmem hu
    -- one sector is what the entry has at least, and the others are off it
    refine ⟨by omega, fun o ho hou hle => ?_⟩
    have hopos := (h.whole o (by rw [ht]; exact mem_other ho) hou).count_pos
    have hlaid := h.extents.laid
    rw [ht] at hlaid
    rcases (pairwise_files.mp hlaid.apart).1 hu o ho hou with hbefore | hafter
    · omega
    · omega
  · rename_i hfind
    exact fun _ => hnew hfind

/-! ## The files by key -/

def is_file (e : kdiskfs_entry) : Bool := decide (e.is_used ≠ 0)

variable {key : kdiskfs_entry → List UInt8} {s' : kdiskfs} {p : List UInt8} {f : file}
  {e' : kdiskfs_entry}

/-- The files of a disk, under the keys of their entries. -/
def disk_files (key : kdiskfs_entry → List UInt8) (s : kdiskfs) (k : List UInt8) : Option file :=
  (slot_of is_file key s.disk_entries k).map (entry_file s.disk)

theorem is_file_iff : is_file e = true ↔ e.is_used ≠ 0 := decide_eq_true_iff

theorem not_file_iff : is_file e = false ↔ e.is_used = 0 := by
  rw [is_file, decide_eq_false_iff_not, not_not]

/-- A formatted disk has no files. -/
theorem format_files (h : s.drive_present = true) (key : kdiskfs_entry → List UInt8) :
    keys_used is_file key (kdiskfs_format s).1.disk_entries = []
      ∧ disk_files key (kdiskfs_format s).1 = fun _ => none := by
  have hempty : keys_used is_file key (kdiskfs_format s).1.disk_entries = [] := by
    rw [kdiskfs_format, if_pos h, keys_used, List.map_eq_nil_iff, List.filter_eq_nil_iff]
    intro e he hu
    rw [List.eq_of_mem_replicate he] at hu
    cases hu
  refine ⟨hempty, funext fun k => ?_⟩
  rw [disk_files, Option.map_eq_none_iff, slot_of_eq_none_iff, hempty]
  exact List.not_mem_nil

theorem disk_files_change {o : Option kdiskfs_entry} {k : List UInt8}
    (hafter : s'.disk_entries = pre ++ e' :: post)
    (hname : e'.is_used ≠ 0 → key e' = k)
    (hothers : ∀ x ∈ pre ++ post, x.is_used ≠ 0 → entry_file s'.disk x = entry_file s.disk x)
    (hslot : slot_of is_file key s'.disk_entries
      = Function.update (slot_of is_file key s.disk_entries) k o) :
    disk_files key s' = Function.update (disk_files key s) k (o.map (entry_file s'.disk)) := by
  funext j
  rw [disk_files, hslot]
  by_cases hj : j = k
  · rw [hj, Function.update_self, Function.update_self]
  · rw [Function.update_of_ne hj, Function.update_of_ne hj, disk_files]
    apply Option.map_congr
    intro x hx
    have hfound : slot_of is_file key s'.disk_entries j = some x := by
      rw [hslot, Function.update_of_ne hj]
      exact hx
    obtain ⟨hmem, hu, hkey⟩ := slot_of_some hfound
    rw [hafter] at hmem
    rcases eq_or_mem_other hmem with rfl | hother
    · exact absurd (hkey.symm.trans (hname (is_file_iff.mp hu))) hj
    · exact hothers x hother (is_file_iff.mp hu)

/-- A save writes the files at the key of its entry, if the disk has that key under no other
path. -/
theorem Saves.files (h : Saves s s' p f pre e post e')
    (hnodup : (keys_used is_file key s.disk_entries).Nodup)
    (hpaths : ∀ o o' : kdiskfs_entry, o.path = o'.path → key o = key o')
    (hspelling : ∀ o ∈ s.disk_entries, o.is_used ≠ 0 → key o = key e' → o.path = p) :
    (keys_used is_file key s'.disk_entries).Nodup
      ∧ disk_files key s' = Function.update (disk_files key s) (key e') (some f) := by
  have hused' := is_file_iff.mpr h.used
  have hslot : (keys_used is_file key s'.disk_entries).Nodup
      ∧ slot_of is_file key s'.disk_entries
        = Function.update (slot_of is_file key s.disk_entries) (key e') (some e') := by
    rcases h.which with ⟨hu, hpath⟩ | ⟨hu, hnot⟩
    · have heq : key e' = key e := hpaths e' e (h.path.trans hpath.symm)
      rw [h.before] at hnodup ⊢
      rw [h.after, heq]
      exact slot_of_replace hnodup (is_file_iff.mpr hu) hused' heq
    · have hnone : slot_of is_file key s.disk_entries (key e') = none :=
        slot_of_eq_none fun o ho hfile hsame =>
          hnot o ho (is_file_iff.mp hfile) (hspelling o ho (is_file_iff.mp hfile) hsame)
      rw [h.before] at hnodup hnone ⊢
      rw [h.after]
      exact slot_of_take hnodup (not_file_iff.mpr hu) hused' hnone
  refine ⟨hslot.1, ?_⟩
  rw [disk_files_change h.after (fun _ => rfl) h.others hslot.2, Option.map_some, h.written]

/-- A delete takes the file away, if there is one. -/
theorem Deletes.files (h : Deletes s s' p)
    (hnodup : (keys_used is_file key s.disk_entries).Nodup) :
    (keys_used is_file key s'.disk_entries).Nodup
      ∧ ((disk_files key s' = disk_files key s ∧ s' = s
          ∧ ∀ o ∈ s.disk_entries, o.is_used ≠ 0 → o.path ≠ p)
        ∨ ∃ e ∈ s.disk_entries, e.is_used ≠ 0 ∧ e.path = p
          ∧ disk_files key s' = Function.update (disk_files key s) (key e) none) := by
  rcases h with ⟨rfl, hnot⟩ | ⟨pre, e, post, hbefore, hafter, hu, hpath, hothers⟩
  · exact ⟨hnodup, .inl ⟨rfl, rfl, hnot⟩⟩
  · rw [hbefore] at hnodup
    have hgone : is_file { e with is_used := 0 } = false := not_file_iff.mpr rfl
    obtain ⟨hnodup', hslot⟩ := slot_of_release hnodup (is_file_iff.mpr hu) hgone
    rw [← hafter] at hnodup' hslot
    rw [← hbefore] at hslot
    refine ⟨hnodup', .inr ⟨e, by rw [hbefore]; exact mem_middle, hu, hpath, ?_⟩⟩
    exact disk_files_change (o := none) hafter (fun hused => absurd rfl hused) hothers hslot

end SysInC.Kdiskfs
