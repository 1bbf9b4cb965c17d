/-
What `kdiskfs.c` has on the disk: the records of the table, the sectors of the files, and how a
call changes them.

The table is 32 records of 80 bytes, of which four sectors are written and read; `table_room`
records are whole in them.
-/
import SysInC.KdiskfsExtents

set_option autoImplicit false

namespace SysInC.Kdiskfs

open SysInC.Kvfs

/-! ## Sectors one behind the other -/

theorem flatMap_chunks {α : Type*} (l : List α) (k n : ℕ) :
    ((List.range n).flatMap fun i => (l.drop (i * k)).take k) = l.take (n * k) := by
  induction n with
  | zero => rw [Nat.zero_mul, List.take_zero, List.range_zero, List.flatMap_nil]
  | succ n ih =>
      rw [List.range_succ, List.flatMap_append, ih, List.flatMap_singleton, Nat.succ_mul,
        List.take_add]

/-- The chunks of a text that is padded at its end. -/
theorem pad_chunk {α : Type*} (l : List α) (x : α) {k n i : ℕ} (hi : i < n) :
    ((l.drop (i * k)).take k).rightpad k x
      = ((l ++ List.replicate (n * k - l.length) x).drop (i * k)).take k := by
  have hle : (i + 1) * k ≤ n * k := Nat.mul_le_mul_right k hi
  rw [Nat.succ_mul] at hle
  rw [List.rightpad, List.drop_append, List.take_append, List.drop_replicate,
    List.take_replicate, List.length_drop, List.length_take, List.length_drop]
  congr 2
  omega

theorem flatMap_pad_chunks {α : Type*} (l : List α) (x : α) {k n : ℕ} (h : l.length ≤ n * k) :
    ((List.range n).flatMap fun i => ((l.drop (i * k)).take k).rightpad k x)
      = l ++ List.replicate (n * k - l.length) x := by
  have hchunks := flatMap_chunks (l ++ List.replicate (n * k - l.length) x) k n
  rw [List.take_of_length_le (by rw [List.length_append, List.length_replicate]; omega)] at hchunks
  rw [← hchunks]
  apply List.flatMap_congr
  intro i hi
  exact pad_chunk l x (List.mem_range.mp hi)

/-! ## Records -/

structure EntryOk (e : kdiskfs_entry) : Prop where
  path_length : e.path.length ≤ sizeof_path - 1
  path_text : 0 ∉ e.path
  size_lt : e.size < u32_mod
  start_lt : e.start_lba < u32_mod
  count_lt : e.sector_count < u32_mod

theorem entry_bytes_length {e : kdiskfs_entry} (h : EntryOk e) :
    e.bytes.length = sizeof_entry := by
  have hpath := h.path_length
  unfold sizeof_path at hpath
  simp only [kdiskfs_entry.bytes, List.length_append, le_bytes_length, List.length_rightpad,
    sizeof_path, sizeof_entry]
  omega

theorem takeWhile_pad {p : List UInt8} (h : 0 ∉ p) (n : ℕ) :
    (p.rightpad n 0).takeWhile (· ≠ 0) = p := by
  rw [List.rightpad, List.takeWhile_append_of_pos]
  · rw [List.takeWhile_replicate]
    simp
  · intro c hc
    have hne : c ≠ 0 := by
      rintro rfl
      exact h hc
    simpa using hne

/-- A record is read as it was written. -/
theorem entry_of_bytes_bytes {e : kdiskfs_entry} (h : EntryOk e) :
    kdiskfs_entry.of_bytes e.bytes = e := by
  have hpad : (e.path.rightpad sizeof_path 0).length = 64 := by
    have hpath := h.path_length
    unfold sizeof_path at hpath ⊢
    rw [List.length_rightpad]
    omega
  have hsize : e.size < 256 ^ 4 := h.size_lt
  have hstart : e.start_lba < 256 ^ 4 := h.start_lt
  have hcount : e.sector_count < 256 ^ 4 := h.count_lt
  have hbyte (b : UInt8) : b.toNat < 256 ^ 1 := UInt8.toNat_lt b
  have hmode : e.mode.toNat < 256 ^ 2 := UInt16.toNat_lt e.mode
  have hlast := le_field_head hmode []
  rw [List.append_nil] at hlast
  unfold kdiskfs_entry.of_bytes kdiskfs_entry.bytes
  obtain ⟨path, size, start_lba, sector_count, type, is_used, mode⟩ := e
  dsimp only at *
  simp only [kdiskfs_entry.mk.injEq]
  -- field by field: each is found behind the ones in front of it
  refine ⟨?_, ?_, ?_, ?_, ?_, ?_, ?_⟩
  · show List.takeWhile (fun x => decide (x ≠ 0)) (List.take 64 _) = path
    rw [List.take_left' hpad, takeWhile_pad h.path_text]
  · rw [le_field_skip hpad (by omega)]
    exact le_field_head hsize _
  · rw [le_field_skip hpad (by omega), le_field_skip (le_bytes_length 4 _) (by omega)]
    exact le_field_head hstart _
  · rw [le_field_skip hpad (by omega), le_field_skip (le_bytes_length 4 _) (by omega),
      le_field_skip (le_bytes_length 4 _) (by omega)]
    exact le_field_head hcount _
  · rw [le_field_skip hpad (by omega), le_field_skip (le_bytes_length 4 _) (by omega),
      le_field_skip (le_bytes_length 4 _) (by omega), le_field_skip (le_bytes_length 4 _) (by omega)]
    rw [le_field_head (hbyte type), UInt8.ofNat_toNat]
  · rw [le_field_skip hpad (by omega), le_field_skip (le_bytes_length 4 _) (by omega),
      le_field_skip (le_bytes_length 4 _) (by omega), le_field_skip (le_bytes_length 4 _) (by omega),
      le_field_skip (le_bytes_length 1 _) (by omega)]
    rw [le_field_head (hbyte is_used), UInt8.ofNat_toNat]
  · rw [le_field_skip hpad (by omega), le_field_skip (le_bytes_length 4 _) (by omega),
      le_field_skip (le_bytes_length 4 _) (by omega), le_field_skip (le_bytes_length 4 _) (by omega),
      le_field_skip (le_bytes_length 1 _) (by omega), le_field_skip (le_bytes_length 1 _) (by omega)]
    rw [hlast, UInt16.ofNat_toNat]

theorem entries_of_bytes_table {t : List kdiskfs_entry} (h : ∀ e ∈ t, EntryOk e) (n : ℕ)
    (rest : List UInt8) :
    entries_of_bytes (t.length + n) (table_bytes t ++ rest) = t ++ entries_of_bytes n rest := by
  induction t with
  | nil => rw [List.length_nil, Nat.zero_add]; rfl
  | cons e t ih =>
      rw [List.forall_mem_cons] at h
      have hlen := entry_bytes_length h.1
      rw [List.length_cons, Nat.add_right_comm, entries_of_bytes, table_bytes, List.flatMap_cons,
        List.append_assoc, List.take_left' hlen, List.drop_left' hlen, entry_of_bytes_bytes h.1,
        List.cons_append]
      exact congrArg _ (ih h.2)

theorem table_bytes_length {t : List kdiskfs_entry} (h : ∀ e ∈ t, EntryOk e) :
    (table_bytes t).length = t.length * sizeof_entry := by
  induction t with
  | nil => rw [List.length_nil, Nat.zero_mul]; rfl
  | cons e t ih =>
      rw [List.forall_mem_cons] at h
      rw [table_bytes, List.flatMap_cons, List.length_append, entry_bytes_length h.1,
        List.length_cons, Nat.succ_mul, Nat.add_comm]
      exact congrArg (· + sizeof_entry) (ih h.2)

/-! ## Cleared records -/

theorem le_nat_zeros (n : ℕ) : le_nat (List.replicate n 0) = 0 := by
  induction n with
  | zero => rfl
  | succ n ih => rw [List.replicate_succ, le_nat, ih]; rfl

/-- Behind the first bytes of a record nothing but zeros: the record is not in use. -/
theorem unused_of_zeros {bytes : List UInt8} (h : bytes.length ≤ 77) (n : ℕ) :
    (kdiskfs_entry.of_bytes (bytes ++ List.replicate n 0)).is_used = 0 := by
  have hfield : le_field (bytes ++ List.replicate n 0) 77 1 = 0 := by
    rw [le_field_skip rfl h, le_field, List.drop_replicate, List.take_replicate, le_nat_zeros]
  rw [kdiskfs_entry.of_bytes, hfield]
  rfl

theorem entries_of_zeros (n k : ℕ) :
    ∀ e ∈ entries_of_bytes n (List.replicate k 0), e.is_used = 0 := by
  induction n generalizing k with
  | zero => exact fun e he => absurd he List.not_mem_nil
  | succ n ih =>
      have hempty : ([] : List UInt8).length ≤ 77 := Nat.zero_le 77
      rw [entries_of_bytes, List.take_replicate, List.drop_replicate]
      exact List.forall_mem_cons.mpr ⟨unused_of_zeros hempty _, ih _⟩

/-- A record cut off, and cleared ones. -/
theorem entries_unused {bytes : List UInt8} (h : bytes.length ≤ 77) (n k : ℕ) :
    ∀ e ∈ entries_of_bytes (n + 1) (bytes ++ List.replicate k 0), e.is_used = 0 := by
  have hentry : bytes.length ≤ sizeof_entry := h.trans (by decide)
  rw [entries_of_bytes, List.take_append, List.drop_append, List.take_of_length_le hentry,
    List.drop_of_length_le hentry, List.nil_append, List.take_replicate, List.drop_replicate]
  exact List.forall_mem_cons.mpr ⟨unused_of_zeros h _, entries_of_zeros n _⟩

/-! ## The table in its four sectors -/

/-- The records that are whole in the sectors of the table. -/
def table_room : ℕ := 25

theorem table_bytes_zero (n : ℕ) :
    table_bytes (List.replicate n .zero) = List.replicate (n * sizeof_entry) 0 := by
  have hzero : kdiskfs_entry.zero.bytes = List.replicate sizeof_entry 0 := by decide
  induction n with
  | zero => rw [Nat.zero_mul]; rfl
  | succ n ih =>
      rw [List.replicate_succ, table_bytes, List.flatMap_cons, hzero, Nat.succ_mul, Nat.add_comm,
        List.replicate_add]
      exact congrArg _ ih

/-- After the kernel starts anew: of a table on the disk, the first records come back, and the
others are not in use. -/
theorem read_table_start {s : kdiskfs} (present : Bool)
    (hlen : s.disk_entries.length = KDISKFS_MAX_FILES)
    (hok : ∀ e ∈ s.disk_entries, EntryOk e)
    (hsync : ∀ i < table_sectors, kata_read_sector s.disk (KDISKFS_TABLE_LBA + i)
      = ((table_bytes s.disk_entries).drop (i * ATA_SECTOR_SIZE)).take ATA_SECTOR_SIZE) :
    ∃ rest, read_table (.start present s.disk) = s.disk_entries.take table_room ++ rest
      ∧ ∀ e ∈ rest, e.is_used = 0 := by
  -- the driver reads as much of the table as its sectors hold
  have hread : read_sectors s.disk KDISKFS_TABLE_LBA table_sectors
      = (table_bytes s.disk_entries).take (table_sectors * ATA_SECTOR_SIZE) := by
    rw [← flatMap_chunks]
    apply List.flatMap_congr
    intro i hi
    exact hsync i (List.mem_range.mp hi)
  have htake : (s.disk_entries.take table_room).length = table_room := by
    rw [List.length_take, hlen]
    rfl
  have hfirst (e : kdiskfs_entry) (he : e ∈ s.disk_entries.take table_room) : EntryOk e :=
    hok e (List.mem_of_mem_take he)
  have hlast (e : kdiskfs_entry) (he : e ∈ s.disk_entries.drop table_room) : EntryOk e :=
    hok e (List.mem_of_mem_drop he)
  have hsplit : table_bytes s.disk_entries = table_bytes (s.disk_entries.take table_room)
      ++ table_bytes (s.disk_entries.drop table_room) := by
    rw [table_bytes, table_bytes, table_bytes, ← List.flatMap_append, List.take_append_drop]
  have hroom := table_bytes_length hfirst
  rw [htake] at hroom
  have htable : (table_bytes s.disk_entries).take (table_sectors * ATA_SECTOR_SIZE)
      = table_bytes (s.disk_entries.take table_room)
        ++ (table_bytes (s.disk_entries.drop table_room)).take 48 := by
    rw [hsplit, List.take_append, List.take_of_length_le (by rw [hroom]; decide), hroom]
    rfl
  -- behind that, the table in memory still holds zeros
  have hzeros : (table_bytes (kdiskfs.start present s.disk).disk_entries).drop
      (table_sectors * ATA_SECTOR_SIZE) = List.replicate 512 0 := by
    rw [kdiskfs.start, table_bytes_zero, List.drop_replicate]
    rfl
  refine ⟨entries_of_bytes 7 ((table_bytes (s.disk_entries.drop table_room)).take 48
    ++ List.replicate 512 0), ?_, ?_⟩
  · have hentries := entries_of_bytes_table hfirst 7
      ((table_bytes (s.disk_entries.drop table_room)).take 48 ++ List.replicate 512 0)
    rw [htake] at hentries
    rw [read_table, hzeros, ← hentries]
    show entries_of_bytes KDISKFS_MAX_FILES (read_sectors s.disk _ _ ++ _) = _
    rw [hread, htable, List.append_assoc]
    rfl
  -- of the record that the last sector cuts in two, the flag is lost
  · have hbytes : ((table_bytes (s.disk_entries.drop table_room)).take 48).length = 48 := by
      rw [List.length_take, table_bytes_length hlast, List.length_drop, hlen]
      rfl
    exact entries_unused (by rw [hbytes]; decide) 6 512

end SysInC.Kdiskfs
