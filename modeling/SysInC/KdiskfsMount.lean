/-
Mounting: `kdiskfs_mount` replays the table of the disk through the calls of `kvfs.c`.

The replay writes each file at the clean spelling of its path (`load_entries_spec`), whatever the
file system held before; a new path gets type and mode of the replaying call.
-/
import SysInC.KdiskfsFiles
import SysInC.KvfsRefine

set_option autoImplicit false

namespace SysInC.Kdiskfs

open SysInC.Kvfs

/-- An entry of the file system, to its readers: NULL holds no bytes. -/
def entry_as_file (x : entry) : file := ⟨x.contents.getD [], x.size, x.type, x.mode⟩

/-- The key that the replay of an entry names. -/
def entry_key (e : kdiskfs_entry) : List UInt8 := vfs_map.key (some e.path)

/-! ## A replay that the heap can serve -/

/-- Neither the buffer nor the copy of a file is refused. -/
def Served (abi : Kmem.Abi) (kmalloc : Malloc) (disk : Disk) (v : kvfs) (e : kdiskfs_entry) :
    Prop :=
  ∃ file_data bytes, kmalloc v.heap (file_request e) = some (file_data, bytes)
    ∧ kmalloc (Function.update v.heap file_data (some (fill_file disk e bytes)))
      ((e.size + 1) % abi.size_mod) ≠ none

/-- The heap has room for every file of the replay. -/
def HeapSuffices (abi : Kmem.Abi) (kmalloc : Malloc) (disk : Disk) :
    kvfs → List kdiskfs_entry → Prop
  | _, [] => True
  | v, e :: rest =>
    (e.is_used ≠ 0 → e.type ≠ KVFS_TYPE_DIR → 0 < e.size → Served abi kmalloc disk v e)
      ∧ ∀ v' ∈ load_entry abi kmalloc disk v e, HeapSuffices abi kmalloc disk v' rest

variable {abi : Kmem.Abi} {kmalloc : Malloc} {disk : Disk} {v : kvfs} {e : kdiskfs_entry}

/-! ## One entry -/

/-- A block that the file system does not know of. -/
theorem heap_grown (h : Ok v) {p : ℕ} (hp : v.heap p = none) (bytes : List UInt8) :
    Ok { v with heap := Function.update v.heap p (some bytes) }
      ∧ kvfs.map { v with heap := Function.update v.heap p (some bytes) } = v.map := by
  have hkeeps : Keeps v.heap (Function.update v.heap p (some bytes)) v.vfs_table := by
    intro m hm hu q hq
    apply Function.update_of_ne
    rintro rfl
    exact h.owned.live hm hu hq hp
  refine ⟨⟨h.length, h.names, h.count, h.clean, h.owned.of_keeps hkeeps⟩, ?_⟩
  funext k
  apply Option.map_congr
  intro m hm
  obtain ⟨hmem, hu, -⟩ := slot_of_some hm
  exact node_entry_of_keeps (hkeeps m hmem hu)

theorem count_le_of_write {v v' : kvfs} {copy : Option (ℕ × List UInt8)}
    {path data : Option (List UInt8)} {size : ℕ} {c : ℤ}
    (h : kvfs_write v copy path data size = some (v', c)) :
    v'.vfs_node_count ≤ v.vfs_node_count + 1 := by
  unfold kvfs_write at h
  dsimp only at h
  split at h
  · cases h
    exact Nat.le_succ _
  · obtain ⟨bytes, -, h⟩ := Option.bind_eq_some_iff.mp h
    split at h
    · obtain ⟨heap, -, heq⟩ := Option.map_eq_some_iff.mp h
      cases heq
      exact Nat.le_succ _
    · split at h
      · cases h
        exact le_rfl
      · obtain ⟨heap, -, heq⟩ := Option.map_eq_some_iff.mp h
        cases heq
        exact Nat.le_succ _

/-- What the disk holds for an entry in use. -/
structure Stored (disk : Disk) (e : kdiskfs_entry) : Prop where
  whole : Whole e
  read : (read_sectors disk e.start_lba e.sector_count).length = e.sector_count * 512

theorem Stored.fill_take (h : Stored disk e) (bytes : List UInt8) :
    (fill_file disk e bytes).take e.size = (entry_file disk e).contents := by
  have hle : e.size ≤ (read_sectors disk e.start_lba e.sector_count).length :=
    h.whole.size_le.trans h.read.ge
  rw [fill_file, List.take_set_of_le le_rfl, List.take_append_of_le_length hle]
  rfl

theorem Stored.fill_length (h : Stored disk e) {bytes : List UInt8}
    (hbytes : bytes.length = e.sector_count * 512 + 1) :
    (fill_file disk e bytes).length = e.sector_count * 512 + 1 := by
  rw [fill_file, List.length_set, List.length_append, h.read, List.length_drop, hbytes]
  show e.sector_count * 512 + (e.sector_count * 512 + 1 - e.sector_count * 512) = _
  omega

/-- What the replay of an entry leaves at its key: the contents, and for a new key all else that
the replaying call sets as the entry has it. -/
structure Loads (disk : Disk) (old : Option entry) (e : kdiskfs_entry) (x : entry) : Prop where
  contents : x.contents.getD [] = (entry_file disk e).contents
  fresh : old = none → (e.type = KVFS_TYPE_DIR → e.mode = mode_0755) →
    (e.type ≠ KVFS_TYPE_DIR → 0 < e.size → e.type = KVFS_TYPE_FILE ∧ e.mode = mode_0644) →
    entry_as_file x = entry_file disk e

/-- The replay of an entry in use. -/
def LoadsEntry (disk : Disk) (v : kvfs) (e : kdiskfs_entry) (o : Option kvfs) : Prop :=
  ∃ v', o = some v' ∧ Ok v' ∧ v'.vfs_node_count ≤ v.vfs_node_count + 1
    ∧ ∃ x, v'.map = Function.update v.map (entry_key e) (some x)
      ∧ Loads disk (v.map (entry_key e)) e x

theorem entry_file_empty (h : e.size = 0) : (entry_file disk e).contents = [] := by
  rw [entry_file, h, List.take_zero]

/-- A directory, and an empty file. -/
theorem kvfs_create_loads (h : Ok v) (hroom : v.vfs_node_count < KVFS_MAX_NODES)
    {data : node_data} (hdata : ∀ p, data ≠ .block p) {type : UInt8} {mode : UInt16}
    (hempty : (data.contents (fun _ => none) 0).getD [] = []) (hsize : e.size = 0)
    (htype : type = e.type)
    (hmode : (e.type = KVFS_TYPE_DIR → e.mode = mode_0755) → mode = e.mode) :
    LoadsEntry disk v e ((kvfs_create v (some e.path) data 0 type mode).map fun r => r.1) := by
  obtain ⟨v', hcreate, hok, hmap⟩ := kvfs_create_put h e.path hdata 0 type mode hroom
  have hfile : (entry_file disk e).contents = [] := entry_file_empty hsize
  rw [hcreate]
  refine ⟨v', rfl, hok, count_le_of_create hcreate, _, hmap, hempty.trans hfile.symm,
    fun _ hdir _ => ?_⟩
  rw [entry_as_file, hempty, htype, hmode hdir, entry_file, hsize, List.take_zero]

/-- Sectors and a NUL. -/
theorem sectors_succ_lt {n : ℕ} (h : n * 512 < u32_mod) : n * 512 + 1 < u32_mod := by
  have hsplit : u32_mod = 8388608 * 512 := by decide
  rw [hsplit] at h
  have hn : n ≤ 8388607 := Nat.le_of_lt_succ (Nat.lt_of_mul_lt_mul_right h)
  exact (Nat.succ_le_succ (Nat.mul_le_mul_right 512 hn)).trans_lt (by decide)

/-- A file with contents. -/
theorem load_file_spec (h : Ok v) (hroom : v.vfs_node_count < KVFS_MAX_NODES)
    (hgives : ∀ heap n, kmalloc_gives abi heap n (kmalloc heap n)) (he : Stored disk e)
    (hserved : Served abi kmalloc disk v e) (hdir : e.type ≠ KVFS_TYPE_DIR) (hpos : 0 < e.size) :
    LoadsEntry disk v e (load_file abi kmalloc disk v e) := by
  obtain ⟨p, bytes, hfirst, hsecond⟩ := hserved
  obtain ⟨hsize, hcount, -⟩ := he.whole
  have hword : u32_mod ≤ abi.size_mod := by cases abi <;> decide
  have hlow := sectors_succ_lt hcount
  -- the sizes are those of a file on the disk, so no sum of the request wraps
  have hrequest : file_request e = e.sector_count * 512 + 1 := by
    show (e.sector_count * 512 % u32_mod + 1) % u32_mod = _
    rw [Nat.mod_eq_of_lt hcount, Nat.mod_eq_of_lt hlow]
  have hrequest_lt : file_request e < abi.size_mod := hrequest.trans_lt (hlow.trans_le hword)
  have hsucc : e.size + 1 < abi.size_mod :=
    (Nat.succ_le_succ hsize).trans_lt (hlow.trans_le hword)
  have hcopy : (e.size + 1) % abi.size_mod = e.size + 1 := Nat.mod_eq_of_lt hsucc
  have hblock := hgives v.heap (file_request e)
  rw [hfirst] at hblock
  obtain ⟨-, hfree, hbytes⟩ := hblock
  rw [Nat.mod_eq_of_lt hrequest_lt, hrequest] at hbytes
  -- the block for the sectors is new: no node of the file system sees it
  obtain ⟨hok, hmap⟩ := heap_grown h hfree (fill_file disk e bytes)
  rw [hcopy] at hsecond
  obtain ⟨q, hq⟩ := Option.ne_none_iff_exists'.mp hsecond
  have hlegal : (call.kvfs_write (some q) (some e.path) (some (fill_file disk e bytes))
      e.size).Legal abi
        { v with heap := Function.update v.heap p (some (fill_file disk e bytes)) } := by
    refine ⟨Nat.lt_of_succ_lt hsucc, ?_, ?_⟩
    · rintro src ⟨⟩
      rw [he.fill_length hbytes]
      exact hsize.trans (Nat.le_succ _)
    · have hgiven := hgives (Function.update v.heap p (some (fill_file disk e bytes))) (e.size + 1)
      rwa [hq] at hgiven
  obtain ⟨v', c, hwrite, hok', hspec⟩ := kvfs_write_spec hok (some e.path) hlegal
  -- the sectors and the NUL lie inside that block
  have hload : load_file abi kmalloc disk v e = some v' := by
    have hinside : ¬ (bytes.length < e.sector_count * ATA_SECTOR_SIZE ∨ bytes.length ≤ e.size) := by
      rw [hbytes, not_or]
      exact ⟨Nat.not_lt.mpr (Nat.le_succ _), Nat.not_le.mpr (Nat.lt_succ_of_le hsize)⟩
    unfold load_file
    rw [hfirst]
    dsimp only
    rw [if_neg hinside, hcopy, hq, hwrite]
    rfl
  have hnodes := count_le_of_write hwrite
  refine ⟨v', hload, hok', hnodes, ?_⟩
  rw [hmap] at hspec
  unfold vfs_map.write at hspec
  dsimp only at hspec
  rw [Option.getD_some, he.fill_take] at hspec
  split at hspec
  · -- the path is there, and keeps its type and mode
    rename_i y hy
    rw [Prod.mk.injEq] at hspec
    refine ⟨_, hspec.1, rfl, fun hnone => ?_⟩
    rw [entry_key, hy] at hnone
    cases hnone
  · have hnot : ¬ v.map.Full := by
      rw [h.full_iff]
      omega
    rw [if_neg hnot, Prod.mk.injEq] at hspec
    refine ⟨_, hspec.1, rfl, fun _ _ hfile => ?_⟩
    obtain ⟨htype, hmode⟩ := hfile hdir hpos
    rw [entry_as_file, entry_file, htype, hmode]
    rfl

theorem load_entry_spec (h : Ok v) (hroom : v.vfs_node_count < KVFS_MAX_NODES)
    (hgives : ∀ heap n, kmalloc_gives abi heap n (kmalloc heap n)) (he : Stored disk e)
    (hu : e.is_used ≠ 0)
    (hserved : e.type ≠ KVFS_TYPE_DIR → 0 < e.size → Served abi kmalloc disk v e) :
    LoadsEntry disk v e (load_entry abi kmalloc disk v e) := by
  unfold load_entry
  rw [if_pos hu]
  by_cases hdir : e.type = KVFS_TYPE_DIR
  · rw [if_pos hdir]
    exact kvfs_create_loads h hroom (fun p hp => by cases hp) rfl (he.whole.dir hdir) hdir.symm
      fun hmode => (hmode hdir).symm
  · rw [if_neg hdir]
    by_cases hpos : 0 < e.size
    · rw [if_pos hpos]
      exact load_file_spec h hroom hgives he (hserved hdir hpos) hdir hpos
    · rw [if_neg hpos]
      exact kvfs_create_loads h hroom (fun p hp => by cases hp) rfl (Nat.eq_zero_of_not_pos hpos)
        rfl fun _ => rfl

/-! ## The replay -/

/-- Every entry in use is written to its key; the other keys stay. -/
theorem load_entries_spec (hgives : ∀ heap n, kmalloc_gives abi heap n (kmalloc heap n))
    (t : List kdiskfs_entry) (hstored : ∀ e ∈ t, e.is_used ≠ 0 → Stored disk e)
    (hkeys : (keys_used is_file entry_key t).Nodup) (h : Ok v)
    (hroom : v.vfs_node_count + (keys_used is_file entry_key t).length ≤ KVFS_MAX_NODES)
    (hheap : HeapSuffices abi kmalloc disk v t) :
    ∃ v', load_entries abi kmalloc disk v t = some v' ∧ Ok v' ∧ ∀ k,
      match slot_of is_file entry_key t k with
      | none => v'.map k = v.map k
      | some e => ∃ x, v'.map k = some x ∧ Loads disk (v.map k) e x := by
  induction t generalizing v with
  | nil => exact ⟨v, rfl, h, fun k => rfl⟩
  | cons e t ih =>
      rw [List.forall_mem_cons] at hstored
      rw [load_entries]
      -- an entry in use is loaded first, and the induction runs on what it leaves
      by_cases hu : e.is_used = 0
      · have hskip : load_entry abi kmalloc disk v e = some v := if_neg (not_not.mpr hu)
        rw [keys_used_cons_of_free (not_file_iff.mpr hu)] at hkeys hroom
        rw [hskip, Option.bind_some]
        obtain ⟨v', hload, hok, hmap⟩ := ih hstored.2 hkeys h hroom (hheap.2 v hskip)
        refine ⟨v', hload, hok, fun k => ?_⟩
        rw [slot_of_cons_other fun hused => absurd hu (is_file_iff.mp hused)]
        exact hmap k
      · have hused := is_file_iff.mpr hu
        rw [keys_used_cons_of_used hused] at hkeys hroom
        obtain ⟨hnew, hkeys⟩ := List.nodup_cons.mp hkeys
        rw [List.length_cons] at hroom
        obtain ⟨v₁, hentry, hok₁, hcount, x, hmap₁, hloads⟩ :=
          load_entry_spec h (by omega) hgives (hstored.1 hu) hu (hheap.1 hu)
        obtain ⟨v', hload, hok, hmap⟩ := ih hstored.2 hkeys hok₁ (by omega) (hheap.2 v₁ hentry)
        rw [hentry, Option.bind_some]
        refine ⟨v', hload, hok, fun k => ?_⟩
        have hk := hmap k
        rw [hmap₁] at hk
        by_cases hkey : entry_key e = k
        · -- no later entry has this key
          rw [slot_of_cons_self hused hkey]
          rw [← hkey, slot_of_eq_none_iff.mpr hnew, Function.update_self] at hk
          rw [← hkey]
          exact ⟨x, hk, hloads⟩
        · rw [slot_of_cons_other fun _ => hkey]
          rw [Function.update_of_ne (Ne.symm hkey)] at hk
          exact hk

/-! ## Mounting after a new start -/

theorem load_entries_append (t u : List kdiskfs_entry) (v : kvfs) :
    load_entries abi kmalloc disk v (t ++ u)
      = (load_entries abi kmalloc disk v t).bind fun v => load_entries abi kmalloc disk v u := by
  induction t generalizing v with
  | nil => rfl
  | cons e t ih =>
      rw [List.cons_append, load_entries, load_entries, Option.bind_assoc]
      congr 1
      funext v
      exact ih v

theorem load_entries_unused {t : List kdiskfs_entry} (h : ∀ e ∈ t, e.is_used = 0) (v : kvfs) :
    load_entries abi kmalloc disk v t = some v := by
  induction t with
  | nil => rfl
  | cons e t ih =>
      rw [List.forall_mem_cons] at h
      have hskip : load_entry abi kmalloc disk v e = some v := if_neg (not_not.mpr h.1)
      rw [load_entries, hskip, Option.bind_some]
      exact ih h.2

theorem load_entries_front (abi : Kmem.Abi) (kmalloc : Malloc) (disk : Disk)
    (t : List kdiskfs_entry) {u : List kdiskfs_entry}
    (h : ∀ e ∈ u, e.is_used = 0) (v : kvfs) :
    load_entries abi kmalloc disk v (t ++ u) = load_entries abi kmalloc disk v t := by
  rw [load_entries_append]
  simp only [load_entries_unused h]
  exact Option.bind_fun_some _

variable {s : kdiskfs}

theorem DiskOk.read_magic (h : DiskOk s) :
    (kdiskfs_super.of_bytes (kata_read_sector s.disk KDISKFS_SUPER_LBA)).magic = KDISKFS_MAGIC := by
  have hmagic : s.super_block.magic < 256 ^ 4 := by
    rw [h.magic]
    decide
  rw [h.super, kdiskfs_super.of_bytes, sector_buf, List.rightpad, kdiskfs_super.bytes,
    List.append_assoc]
  exact (le_field_head hmagic _).trans h.magic

/-- The mount is the replay of the table. -/
theorem DiskOk.mount_eq (h : DiskOk s) (abi : Kmem.Abi) (kmalloc : Malloc) (v : kvfs) :
    ∃ s', kdiskfs_mount abi kmalloc (.start true s.disk) v
      = (load_entries abi kmalloc s.disk v s.disk_entries).map fun v => (s', v, 0) := by
  obtain ⟨rest, hread, hrest⟩ := read_table_start true h.length h.entries h.table
  have hfront : load_entries abi kmalloc s.disk v s.disk_entries
      = load_entries abi kmalloc s.disk v (s.disk_entries.take table_room) := by
    have hall := load_entries_front abi kmalloc s.disk (s.disk_entries.take table_room) h.early v
    rwa [List.take_append_drop] at hall
  have hmagic : ¬ (kdiskfs_super.of_bytes
      (kata_read_sector (kdiskfs.start true s.disk).disk KDISKFS_SUPER_LBA)).magic
        ≠ KDISKFS_MAGIC := not_not.mpr h.read_magic
  have hpresent : (kdiskfs.start true s.disk).drive_present = true := rfl
  rw [kdiskfs_mount, if_pos hpresent]
  dsimp only
  rw [if_neg hmagic, hread, hfront, ← load_entries_front abi kmalloc s.disk _ hrest]
  exact ⟨_, rfl⟩

/-- The files survive in the first records of the table. -/
theorem DiskOk.keys_length (h : DiskOk s) (key : kdiskfs_entry → List UInt8) :
    (keys_used is_file key s.disk_entries).length ≤ table_room := by
  have hdrop : keys_used is_file key (s.disk_entries.drop table_room) = [] := by
    rw [keys_used, List.map_eq_nil_iff, List.filter_eq_nil_iff]
    intro e he hu
    exact is_file_iff.mp hu (h.early e he)
  have hsplit : keys_used is_file key s.disk_entries
      = keys_used is_file key (s.disk_entries.take table_room) := by
    rw [← List.append_nil (keys_used is_file key (s.disk_entries.take table_room)), ← hdrop,
      keys_used, keys_used, keys_used, ← List.map_append, ← List.filter_append,
      List.take_append_drop]
  rw [hsplit, keys_used, List.length_map]
  exact (List.length_filter_le _ _).trans (List.length_take_le _ _)

theorem DiskOk.stored (h : DiskOk s) : ∀ e ∈ s.disk_entries, e.is_used ≠ 0 → Stored s.disk e :=
  fun e he hu => ⟨h.whole e he hu, h.read e he hu⟩

/-- **Mounting.** Every file of the disk comes to its key, and no other key changes. -/
theorem kdiskfs_mount_spec (h : DiskOk s)
    (hkeys : (keys_used is_file entry_key s.disk_entries).Nodup) (hv : Ok v)
    (hroom : v.vfs_node_count + table_room ≤ KVFS_MAX_NODES)
    (hgives : ∀ heap n, kmalloc_gives abi heap n (kmalloc heap n))
    (hheap : HeapSuffices abi kmalloc s.disk v s.disk_entries) :
    ∃ s' v', kdiskfs_mount abi kmalloc (.start true s.disk) v = some (s', v', 0) ∧ Ok v' ∧ ∀ k,
      match slot_of is_file entry_key s.disk_entries k with
      | none => v'.map k = v.map k
      | some e => ∃ x, v'.map k = some x ∧ Loads s.disk (v.map k) e x := by
  have hlen := h.keys_length entry_key
  obtain ⟨s', hmount⟩ := h.mount_eq abi kmalloc v
  obtain ⟨v', hload, hok, hmap⟩ :=
    load_entries_spec hgives s.disk_entries h.stored hkeys hv (by omega) hheap
  rw [hload] at hmount
  exact ⟨s', v', hmount, hok, hmap⟩

end SysInC.Kdiskfs
