/-
`freestanding/kdiskfs.c`, the file system on the ATA disk, and what it uses of
`freestanding/kata.c`.

The disk keeps what is written to it: a sector is the 512 bytes last written there, and the
driver's transfers succeed once a drive is present. An LBA is the 28 bits that `kata.c` puts
into its registers. `uint32_t` fields hold numbers below `2 ^ 32`.
-/
import SysInC.Kvfs

set_option autoImplicit false

namespace SysInC.Kdiskfs

open SysInC.Kvfs

def ATA_SECTOR_SIZE : ℕ := 512

def KDISKFS_MAGIC : ℕ := 0x5346534B

def KDISKFS_MAX_FILES : ℕ := 32

def KDISKFS_SUPER_LBA : ℕ := 1
def KDISKFS_TABLE_LBA : ℕ := 2
def KDISKFS_DATA_LBA : ℕ := 6

/-- `UINT32_MAX + 1` -/
def u32_mod : ℕ := 4294967296

/-! ## The disk -/

/-- The sectors that an LBA of 28 bits can name. -/
def lba_mod : ℕ := 268435456

abbrev Disk := ℕ → List UInt8

def kata_write_sector (disk : Disk) (lba : ℕ) (buffer : List UInt8) : Disk :=
  Function.update disk (lba % lba_mod) buffer

def kata_read_sector (disk : Disk) (lba : ℕ) : List UInt8 := disk (lba % lba_mod)

/-- `for (s = 0; s < n; s++) kata_write_sector(lba + s, buffers(s));` -/
def write_sectors (disk : Disk) (lba : ℕ) (buffers : ℕ → List UInt8) : ℕ → Disk
  | 0 => disk
  | n + 1 => kata_write_sector (write_sectors disk lba buffers n) (lba + n) (buffers n)

/-- The sectors from `lba` on, one behind the other. -/
def read_sectors (disk : Disk) (lba n : ℕ) : List UInt8 :=
  (List.range n).flatMap fun s => kata_read_sector disk (lba + s)

/-! ## Records -/

structure kdiskfs_super where
  magic : ℕ
  num_files : ℕ
  next_free_lba : ℕ
  block_size : ℕ

def kdiskfs_super.bytes (sb : kdiskfs_super) : List UInt8 :=
  le_bytes 4 sb.magic ++ (le_bytes 4 sb.num_files
    ++ (le_bytes 4 sb.next_free_lba ++ le_bytes 4 sb.block_size))

def kdiskfs_super.of_bytes (record : List UInt8) : kdiskfs_super where
  magic := le_field record 0 4
  num_files := le_field record 4 4
  next_free_lba := le_field record 8 4
  block_size := le_field record 12 4

/-- `path` is the string in the array. -/
structure kdiskfs_entry where
  path : List UInt8
  size : ℕ
  start_lba : ℕ
  sector_count : ℕ
  type : UInt8
  is_used : UInt8
  mode : UInt16

/-- `sizeof(path)` -/
def sizeof_path : ℕ := 64

/-- `sizeof(kdiskfs_entry_t)`, packed. -/
def sizeof_entry : ℕ := 80

def kdiskfs_entry.bytes (e : kdiskfs_entry) : List UInt8 :=
  e.path.rightpad sizeof_path 0 ++ (le_bytes 4 e.size ++ (le_bytes 4 e.start_lba
    ++ (le_bytes 4 e.sector_count ++ (le_bytes 1 e.type.toNat ++ (le_bytes 1 e.is_used.toNat
    ++ le_bytes 2 e.mode.toNat)))))

def kdiskfs_entry.of_bytes (record : List UInt8) : kdiskfs_entry where
  path := (record.take sizeof_path).takeWhile (· ≠ 0)
  size := le_field record 64 4
  start_lba := le_field record 68 4
  sector_count := le_field record 72 4
  type := UInt8.ofNat (le_field record 76 1)
  is_used := UInt8.ofNat (le_field record 77 1)
  mode := UInt16.ofNat (le_field record 78 2)

/-- An entry after `kmemset(disk_entries, 0, sizeof(disk_entries))`. -/
def kdiskfs_entry.zero : kdiskfs_entry := ⟨[], 0, 0, 0, 0, 0, 0⟩

/-- `disk_entries`, as bytes. -/
def table_bytes (entries : List kdiskfs_entry) : List UInt8 :=
  entries.flatMap kdiskfs_entry.bytes

/-- The entries in `n` records. -/
def entries_of_bytes : ℕ → List UInt8 → List kdiskfs_entry
  | 0, _ => []
  | n + 1, bytes =>
    kdiskfs_entry.of_bytes (bytes.take sizeof_entry)
      :: entries_of_bytes n (bytes.drop sizeof_entry)

/-! ## The state -/

structure kdiskfs where
  drive_present : Bool
  super_block : kdiskfs_super
  disk_entries : List kdiskfs_entry
  disk : Disk

/-- The static variables as the kernel starts, in front of a disk. -/
def kdiskfs.start (drive_present : Bool) (disk : Disk) : kdiskfs where
  drive_present := drive_present
  super_block := ⟨0, 0, 0, 0⟩
  disk_entries := List.replicate KDISKFS_MAX_FILES .zero
  disk := disk

/-- A sector with the bytes in front and zeros behind. -/
def sector_buf (bytes : List UInt8) : List UInt8 := bytes.rightpad ATA_SECTOR_SIZE 0

/-- The sectors of the table that are written: `for (int i = 0; i < 4; i++)`. -/
def table_sectors : ℕ := 4

/-- The loop over `disk_entries` of `sync_table_to_disk` and `kdiskfs_format`. -/
def write_table (disk : Disk) (entries : List kdiskfs_entry) : Disk :=
  write_sectors disk KDISKFS_TABLE_LBA
    (fun i => ((table_bytes entries).drop (i * ATA_SECTOR_SIZE)).take ATA_SECTOR_SIZE)
    table_sectors

def sync_table_to_disk (s : kdiskfs) : kdiskfs :=
  { s with
    disk := kata_write_sector (write_table s.disk s.disk_entries) KDISKFS_SUPER_LBA
      (sector_buf s.super_block.bytes) }

def kdiskfs_format (s : kdiskfs) : kdiskfs × ℤ :=
  if s.drive_present then
    let sb : kdiskfs_super := ⟨KDISKFS_MAGIC, 0, KDISKFS_DATA_LBA, ATA_SECTOR_SIZE⟩
    let entries := List.replicate KDISKFS_MAX_FILES kdiskfs_entry.zero
    let disk := kata_write_sector s.disk KDISKFS_SUPER_LBA (sector_buf sb.bytes)
    ({ s with super_block := sb, disk_entries := entries, disk := write_table disk entries }, 0)
  else (s, -1)

/-! ## Saving and deleting -/

/-- `disk_entries[i].is_used && kstrcmp(disk_entries[i].path, path) == 0`; no string is equal
to NULL. -/
def is_entry (path : Option (List UInt8)) (e : kdiskfs_entry) : Bool :=
  decide (e.is_used ≠ 0) && decide (some e.path = path)

/-- `!disk_entries[i].is_used` -/
def is_vacant (e : kdiskfs_entry) : Bool := decide (e.is_used = 0)

def sectors_needed (abi : Kmem.Abi) (size : ℕ) : ℕ :=
  let n := (size + ATA_SECTOR_SIZE - 1) % abi.size_mod / ATA_SECTOR_SIZE % u32_mod
  if n = 0 then 1 else n

/-- `sector_buf` in turn `s` of the loop of `kdiskfs_save_file`. -/
def data_sector (data : Option (List UInt8)) (size s : ℕ) : List UInt8 :=
  let offset := s * ATA_SECTOR_SIZE % u32_mod
  let bytes_to_copy := min (size - offset) ATA_SECTOR_SIZE
  match data with
  | none => sector_buf []
  | some src => sector_buf ((src.drop offset).take bytes_to_copy)

/-- What `kdiskfs_save_file` does once it has an entry `e`, with `super_block` as it leaves
it. -/
def save_entry (abi : Kmem.Abi) (s : kdiskfs) (super_block : kdiskfs_super)
    (pre : List kdiskfs_entry) (e : kdiskfs_entry) (post : List kdiskfs_entry) (start_lba : ℕ)
    (path data : Option (List UInt8)) (size : ℕ) (type : UInt8) (mode : UInt16) : kdiskfs :=
  let needed := sectors_needed abi size
  let e' : kdiskfs_entry :=
    { path := (path.map fun p => kstrncpy p (sizeof_path - 1)).getD e.path,
      size := size % u32_mod, start_lba := start_lba, sector_count := needed, type := type,
      is_used := 1, mode := mode }
  sync_table_to_disk { s with
    super_block := super_block
    disk_entries := pre ++ e' :: post
    disk := write_sectors s.disk start_lba (data_sector data size) needed }

def kdiskfs_save_file (abi : Kmem.Abi) (s : kdiskfs) (path data : Option (List UInt8))
    (size : ℕ) (type : UInt8) (mode : UInt16) : kdiskfs × ℤ :=
  if s.drive_present then
    match find_slot (is_entry path) s.disk_entries with
    | some (pre, e, post) =>
      (save_entry abi s s.super_block pre e post e.start_lba path data size type mode, 0)
    | none =>
      match find_slot is_vacant s.disk_entries with
      | some (pre, e, post) =>
        let super_block := { s.super_block with
          next_free_lba := (s.super_block.next_free_lba + sectors_needed abi size) % u32_mod
          num_files := (s.super_block.num_files + 1) % u32_mod }
        (save_entry abi s super_block pre e post s.super_block.next_free_lba path data size type
          mode, 0)
      | none => (s, -1)
  else (s, -1)

def kdiskfs_delete_file (s : kdiskfs) (path : Option (List UInt8)) : kdiskfs × ℤ :=
  match find_slot (is_entry path) s.disk_entries with
  | some (pre, e, post) =>
    (sync_table_to_disk { s with
      super_block := { s.super_block with num_files := s.super_block.num_files - 1 }
      disk_entries := pre ++ { e with is_used := 0 } :: post }, 0)
  | none => (s, -1)

/-! ## Mounting -/

/-- What `kmalloc` answers, from the live blocks and the size asked for: NULL, or the address
and the bytes of a block. -/
abbrev Malloc := Heap → ℕ → Option (ℕ × List UInt8)

/-- The size that `kdiskfs_mount` asks for, for the sectors of a file and a NUL. -/
def file_request (e : kdiskfs_entry) : ℕ :=
  (e.sector_count * ATA_SECTOR_SIZE % u32_mod + 1) % u32_mod

/-- `file_data`, once the sectors and the NUL are written to it. -/
def fill_file (disk : Disk) (e : kdiskfs_entry) (bytes : List UInt8) : List UInt8 :=
  (read_sectors disk e.start_lba e.sector_count
    ++ bytes.drop (e.sector_count * ATA_SECTOR_SIZE)).set e.size 0

/-- The file of a used entry that is neither a directory nor empty. `none` writes behind
`file_data`. -/
def load_file (abi : Kmem.Abi) (kmalloc : Malloc) (disk : Disk) (v : kvfs) (e : kdiskfs_entry) :
    Option kvfs :=
  match kmalloc v.heap (file_request e) with
  | none => some v
  | some (file_data, bytes) =>
    if bytes.length < e.sector_count * ATA_SECTOR_SIZE ∨ bytes.length ≤ e.size then none
    else
      let bytes := fill_file disk e bytes
      let heap := Function.update v.heap file_data (some bytes)
      (kvfs_write { v with heap := heap } (kmalloc heap ((e.size + 1) % abi.size_mod))
        (some e.path) (some bytes) e.size).map fun r => r.1

/-- The replay of one entry. -/
def load_entry (abi : Kmem.Abi) (kmalloc : Malloc) (disk : Disk) (v : kvfs) (e : kdiskfs_entry) :
    Option kvfs :=
  if e.is_used ≠ 0 then
    if e.type = KVFS_TYPE_DIR then (kvfs_mkdir v (some e.path)).map fun r => r.1
    else if 0 < e.size then load_file abi kmalloc disk v e
    else (kvfs_create v (some e.path) (.object [0]) 0 e.type e.mode).map fun r => r.1
  else some v

def load_entries (abi : Kmem.Abi) (kmalloc : Malloc) (disk : Disk) :
    kvfs → List kdiskfs_entry → Option kvfs
  | v, [] => some v
  | v, e :: rest =>
    (load_entry abi kmalloc disk v e).bind fun v => load_entries abi kmalloc disk v rest

/-- `disk_entries` after the loop that reads the table: what the disk does not bring stays as it
was. -/
def read_table (s : kdiskfs) : List kdiskfs_entry :=
  entries_of_bytes KDISKFS_MAX_FILES (read_sectors s.disk KDISKFS_TABLE_LBA table_sectors
    ++ (table_bytes s.disk_entries).drop (table_sectors * ATA_SECTOR_SIZE))

def kdiskfs_mount (abi : Kmem.Abi) (kmalloc : Malloc) (s : kdiskfs) (v : kvfs) :
    Option (kdiskfs × kvfs × ℤ) :=
  if s.drive_present then
    let super_block := kdiskfs_super.of_bytes (kata_read_sector s.disk KDISKFS_SUPER_LBA)
    if super_block.magic ≠ KDISKFS_MAGIC then
      let r := kdiskfs_format { s with super_block := super_block }
      some (r.1, v, r.2)
    else
      let s := { s with super_block := super_block, disk_entries := read_table s }
      (load_entries abi kmalloc s.disk v s.disk_entries).map fun v => (s, v, 0)
  else some (s, v, -1)

end SysInC.Kdiskfs
