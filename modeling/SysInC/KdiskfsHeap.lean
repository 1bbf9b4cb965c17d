/-
The heap under `kdiskfs_mount`, where `kmalloc` and the sector reads may fail.

What the allocator and the drive answer is part of the call. A sector that cannot be read leaves
its buffer as it was. The mount copies every file twice, into `file_data` and from there into
the block that `kvfs_write` makes, and never frees the first copy: the books of the heap balance
as long as `kmalloc` refuses every `file_data`, and no longer.
-/
import SysInC.Kdiskfs
import SysInC.KvfsLedger

set_option autoImplicit false

namespace SysInC.KdiskfsHeap

open SysInC.Kvfs SysInC.Kdiskfs

/-! ## The mount -/

/-- What a mount is answered: by `kata_read_sector`, where `none` is a failure; by
`kata_write_sector`; by `kmalloc` for the entry `i`, and in the `kvfs_write` for it. -/
structure answers where
  super_read : Option (List UInt8)
  table_read : ℕ → Option (List UInt8)
  super_write : Bool
  file_data : ℕ → Option (ℕ × List UInt8)
  file_read : ℕ → ℕ → Option (List UInt8)
  heap_copy : ℕ → Option (ℕ × List UInt8)

/-- `sizeof(disk_entries)` -/
def sizeof_table : ℕ := KDISKFS_MAX_FILES * sizeof_entry

/-- The static variables of `kdiskfs.c` and `kvfs.c`, with `disk_entries` as its bytes. -/
structure system where
  drive_present : Bool
  super_block : kdiskfs_super
  disk_entries : List UInt8
  vfs : kvfs

def system.start (drive_present : Bool) (heap : Heap) : system where
  drive_present := drive_present
  super_block := ⟨0, 0, 0, 0⟩
  disk_entries := List.replicate sizeof_table 0
  vfs := .start heap

/-- `kdiskfs_format`. What becomes of the writes of the table is not asked. -/
def kdiskfs_format (super_write : Bool) (s : system) : system × ℤ :=
  if s.drive_present then
    let s := { s with super_block := ⟨KDISKFS_MAGIC, 0, KDISKFS_DATA_LBA, ATA_SECTOR_SIZE⟩ }
    if super_write then ({ s with disk_entries := List.replicate sizeof_table 0 }, 0)
    else (s, -1)
  else (s, -1)

/-- `sector_buf` after `i` turns of the loop that reads the table. -/
def sector_buf (a : answers) (sector : List UInt8) : ℕ → List UInt8
  | 0 => sector
  | i + 1 => (a.table_read i).getD (sector_buf a sector i)

/-- `disk_entries` after that loop. -/
def read_table (a : answers) (sector disk_entries : List UInt8) : List UInt8 :=
  ((List.range table_sectors).flatMap fun i => sector_buf a sector (i + 1))
    ++ disk_entries.drop (table_sectors * ATA_SECTOR_SIZE)

/-- `disk_entries[i]`. A path that no NUL ends runs on to the end of the array. -/
def entry_at (table : List UInt8) (i : ℕ) : kdiskfs_entry :=
  { kdiskfs_entry.of_bytes (table.drop (i * sizeof_entry)) with
    path := (table.drop (i * sizeof_entry)).takeWhile (· ≠ 0) }

/-- `kata_read_sector(start_lba + s, file_data + (s * ATA_SECTOR_SIZE))`, with the answer. `none`
writes behind `file_data`. -/
def store_sector (bytes : List UInt8) (s : ℕ) : Option (List UInt8) → Option (List UInt8)
  | none => some bytes
  | some sector =>
    let offset := s * ATA_SECTOR_SIZE % u32_mod
    if bytes.length < offset + ATA_SECTOR_SIZE then none
    else some (bytes.take offset ++ (sector ++ bytes.drop (offset + ATA_SECTOR_SIZE)))

/-- `file_data` after `n` sectors. -/
def read_sectors (reads : ℕ → Option (List UInt8)) (bytes : List UInt8) : ℕ → Option (List UInt8)
  | 0 => some bytes
  | n + 1 => (read_sectors reads bytes n).bind fun bytes => store_sector bytes n (reads n)

/-- `file_data[size] = '\0';` behind the sectors. -/
def fill_file (reads : ℕ → Option (List UInt8)) (e : kdiskfs_entry) (bytes : List UInt8) :
    Option (List UInt8) :=
  (read_sectors reads bytes e.sector_count).bind fun bytes =>
    if bytes.length ≤ e.size then none else some (bytes.set e.size 0)

def load_file (a : answers) (i : ℕ) (e : kdiskfs_entry) (v : kvfs) : Option kvfs :=
  match a.file_data i with
  | none => some v
  | some (file_data, bytes) =>
    (fill_file (a.file_read i) e bytes).bind fun bytes =>
      (kvfs_write { v with heap := Function.update v.heap file_data (some bytes) } (a.heap_copy i)
        (some e.path) (some bytes) e.size).map fun r => r.1

def load_entry (a : answers) (i : ℕ) (e : kdiskfs_entry) (v : kvfs) : Option kvfs :=
  if e.is_used ≠ 0 then
    if e.type = KVFS_TYPE_DIR then (kvfs_mkdir v (some e.path)).map fun r => r.1
    else if 0 < e.size then load_file a i e v
    else (kvfs_create v (some e.path) (.object [0]) 0 e.type e.mode).map fun r => r.1
  else some v

/-- The loop over the entries `indices`. -/
def load_entries (a : answers) (table : List UInt8) : List ℕ → kvfs → Option kvfs
  | [], v => some v
  | i :: rest, v =>
    (load_entry a i (entry_at table i) v).bind fun v => load_entries a table rest v

def kdiskfs_mount (a : answers) (s : system) : Option (system × ℤ) :=
  if s.drive_present then
    match a.super_read with
    | none => some (s, -1)
    | some sector =>
      let s := { s with super_block := kdiskfs_super.of_bytes sector }
      if s.super_block.magic ≠ KDISKFS_MAGIC then some (kdiskfs_format a.super_write s)
      else
        let table := read_table a sector s.disk_entries
        (load_entries a table (List.range KDISKFS_MAX_FILES) s.vfs).map fun v =>
          ({ s with disk_entries := table, vfs := v }, 0)
  else some (s, -1)

/-! ## Runs -/

inductive op where
  | call (c : call)
  | kdiskfs_mount (a : answers)

def step (s : system) : op → Option system
  | .call c => (Kvfs.step s.vfs c).map fun r => { s with vfs := r.1 }
  | .kdiskfs_mount a => (kdiskfs_mount a s).map fun r => r.1

def run : List op → system → Option system
  | [], s => some s
  | o :: rest, s => (step s o).bind fun s => run rest s

/-- The entries that ask for a `file_data`. -/
def is_loaded (e : kdiskfs_entry) : Prop :=
  e.is_used ≠ 0 ∧ e.type ≠ KVFS_TYPE_DIR ∧ 0 < e.size

instance (e : kdiskfs_entry) : Decidable (is_loaded e) :=
  inferInstanceAs (Decidable (e.is_used ≠ 0 ∧ e.type ≠ KVFS_TYPE_DIR ∧ 0 < e.size))

/-- The blocks that the entry `i` gets are new ones of the sizes asked for. -/
def EntryLegal (abi : Kmem.Abi) (a : answers) (i : ℕ) (e : kdiskfs_entry) (v : kvfs) : Prop :=
  is_loaded e → kmalloc_gives abi v.heap (file_request e) (a.file_data i)
    ∧ ∀ p bytes filled, a.file_data i = some (p, bytes) →
      kmalloc_gives abi (Function.update v.heap p (some filled)) (e.size + 1) (a.heap_copy i)

def LoadLegal (abi : Kmem.Abi) (a : answers) (table : List UInt8) : List ℕ → kvfs → Prop
  | [], _ => True
  | i :: rest, v => EntryLegal abi a i (entry_at table i) v
    ∧ ∀ v' ∈ load_entry a i (entry_at table i) v, LoadLegal abi a table rest v'

/-- The table that a mount replays. -/
def Replays (a : answers) (s : system) (table : List UInt8) : Prop :=
  s.drive_present = true ∧ ∃ sector, a.super_read = some sector
    ∧ (kdiskfs_super.of_bytes sector).magic = KDISKFS_MAGIC
    ∧ table = read_table a sector s.disk_entries

def op.Legal (abi : Kmem.Abi) (s : system) : op → Prop
  | .call c => c.Legal abi s.vfs
  | .kdiskfs_mount a => ∀ table, Replays a s table →
    LoadLegal abi a table (List.range KDISKFS_MAX_FILES) s.vfs

def LegalRun (abi : Kmem.Abi) : List op → system → Prop
  | [], _ => True
  | o :: rest, s => o.Legal abi s ∧ ∀ s' ∈ step s o, LegalRun abi rest s'

/-- `kmalloc` answers every request for a `file_data` with NULL. -/
def op.Refused (s : system) : op → Prop
  | .call _ => True
  | .kdiskfs_mount a => ∀ table, Replays a s table →
    ∀ i ∈ List.range KDISKFS_MAX_FILES, is_loaded (entry_at table i) → a.file_data i = none

def RefusedRun : List op → system → Prop
  | [], _ => True
  | o :: rest, s => o.Refused s ∧ ∀ s' ∈ step s o, RefusedRun rest s'

/-- The blocks that came to be and are not freed are the data of the dynamic nodes, each of one
node; other nodes point to no block. -/
structure Exact (heap : Heap) (v : kvfs) : Prop where
  live : ∀ p, v.heap p ≠ none ↔ heap p ≠ none ∨ node_data.block p ∈ owned_data v.vfs_table
  apart : ∀ p, heap p ≠ none → node_data.block p ∉ owned_data v.vfs_table
  once : (owned_data v.vfs_table).Nodup
  static : ∀ n ∈ v.vfs_table, n.is_used = true → n.is_dynamic = false → ∀ p, n.data ≠ .block p

variable {other : ℕ → Prop} {v v' : kvfs} {heap : Heap}

theorem Ledger.exact (h : Ledger (fun p => heap p ≠ none) v) : Exact heap v := by
  refine ⟨h.live, h.apart, h.ok.owned.distinct, fun n hn hu hstatic p hp => ?_⟩
  have hdata := h.ok.owned.data n hn hu
  rw [DataOk, hp] at hdata
  rw [hstatic] at hdata
  cases hdata.1

/-- A block of somebody else that came later is one too many. -/
theorem Ledger.not_exact (h : Ledger other v) {p : ℕ} (hother : other p) (hnew : heap p = none) :
    ¬ Exact heap v := by
  intro hexact
  rcases (hexact.live p).mp ((h.live p).mpr (.inl hother)) with hold | hnode
  · exact hold hnew
  · exact h.apart p hother hnode

/-! ## The books through a mount -/

/-- With `quiet`, the step returns and the books balance as before; without, if it returns, there
is a block more that belongs to no node. -/
structure Outcome {σ : Type} (vfs : σ → kvfs) (other : ℕ → Prop) (quiet : Prop) (o : Option σ) :
    Prop where
  balanced : quiet → ∃ s, o = some s ∧ Ledger other (vfs s)
  lost : ¬ quiet → ∀ s, o = some s → ∃ other', Ledger other' (vfs s) ∧ (∀ p, other p → other' p)
    ∧ ∃ p, other' p ∧ ¬ other p

namespace Outcome

variable {σ τ : Type} {vfs : σ → kvfs} {vfs' : τ → kvfs} {quiet : Prop} {o : Option σ}

theorem of_some {s : σ} (hs : Ledger other (vfs s)) (hquiet : quiet) :
    Outcome vfs other quiet (some s) :=
  ⟨fun _ => ⟨s, rfl, hs⟩, fun hnot => absurd hquiet hnot⟩

/-- Whatever the step does, the books are kept for somebody. -/
theorem ledger (h : Outcome vfs other quiet o) {s : σ} (hs : o = some s) :
    ∃ other', Ledger other' (vfs s) ∧ (∀ p, other p → other' p) := by
  by_cases hquiet : quiet
  · obtain ⟨s', ho, hledger⟩ := h.balanced hquiet
    rw [hs] at ho
    cases ho
    exact ⟨other, hledger, fun _ hp => hp⟩
  · obtain ⟨other', hledger, hsub, -⟩ := h.lost hquiet s hs
    exact ⟨other', hledger, hsub⟩

/-- One step behind the other. -/
theorem bind (h : Outcome vfs other quiet o) {quiet' : σ → Prop} {f : σ → Option τ}
    (hf : ∀ s, o = some s → ∀ other', Ledger other' (vfs s) →
      Outcome vfs' other' (quiet' s) (f s)) :
    Outcome vfs' other (quiet ∧ ∀ s ∈ o, quiet' s) (o.bind f) := by
  constructor
  · rintro ⟨hquiet, hquiet'⟩
    obtain ⟨s, ho, hs⟩ := h.balanced hquiet
    rw [ho, Option.bind_some]
    exact (hf s ho other hs).balanced (hquiet' s ho)
  · intro hnot t ht
    obtain ⟨s, ho, hft⟩ := Option.bind_eq_some_iff.mp ht
    by_cases hquiet : quiet
    · -- the block is lost in the second step
      obtain ⟨s', ho', hs⟩ := h.balanced hquiet
      rw [ho] at ho'
      cases ho'
      refine (hf s ho other hs).lost (fun hquiet' => hnot ⟨hquiet, fun s' hs' => ?_⟩) t hft
      rw [ho] at hs'
      cases hs'
      exact hquiet'
    · -- it was lost in the first, and the second keeps the books on it
      obtain ⟨other₁, hs, hsub, p, hp, hnew⟩ := h.lost hquiet s ho
      obtain ⟨other₂, ht, hsub'⟩ := (hf s ho other₁ hs).ledger hft
      exact ⟨other₂, ht, fun q hq => hsub' q (hsub q hq), p, hsub' p hp, hnew⟩

theorem map (h : Outcome vfs other quiet o) {g : σ → τ} (hg : ∀ s, vfs' (g s) = vfs s) :
    Outcome vfs' other quiet (o.map g) := by
  constructor
  · intro hquiet
    obtain ⟨s, ho, hs⟩ := h.balanced hquiet
    exact ⟨g s, by rw [ho]; rfl, by rwa [hg]⟩
  · intro hnot t ht
    obtain ⟨s, ho, rfl⟩ := Option.map_eq_some_iff.mp ht
    rw [hg]
    exact h.lost hnot s ho

theorem congr {quiet' : Prop} (h : Outcome vfs other quiet o) (hiff : quiet ↔ quiet') :
    Outcome vfs other quiet' o := by rwa [← hiff]

end Outcome

/-! ### One entry -/

theorem fill_file_length {reads : ℕ → Option (List UInt8)} {e : kdiskfs_entry}
    {bytes filled : List UInt8} (h : fill_file reads e bytes = some filled) :
    e.size < filled.length := by
  obtain ⟨b, -, hset⟩ := Option.bind_eq_some_iff.mp h
  split_ifs at hset with hlen
  cases hset
  rw [List.length_set]
  exact Nat.not_le.mp hlen

theorem le_nat_lt (bytes : List UInt8) : le_nat bytes < 256 ^ bytes.length := by
  induction bytes with
  | nil => exact Nat.one_pos
  | cons b bytes ih =>
      have hb := b.toNat_lt
      rw [le_nat, List.length_cons, pow_succ]
      omega

/-- `uint32_t` fits in a `size_t`. -/
theorem entry_size_lt (abi : Kmem.Abi) (table : List UInt8) (i : ℕ) :
    (entry_at table i).size < abi.size_mod := by
  have hfield := le_nat_lt (((table.drop (i * sizeof_entry)).drop 64).take 4)
  have hfour : 256 ^ (((table.drop (i * sizeof_entry)).drop 64).take 4).length ≤ 256 ^ 4 :=
    Nat.pow_le_pow_right (by decide) (List.length_take_le _ _)
  have hword : 256 ^ 4 ≤ abi.size_mod := by cases abi <;> decide
  exact (hfield.trans_le hfour).trans_le hword

variable {abi : Kmem.Abi} {a : answers} {i : ℕ} {e : kdiskfs_entry}

/-- A call of `kvfs.c` in the replay. -/
theorem call_outcome (h : Ledger other v) {c : call} (hlegal : c.Legal abi v) {o : Option kvfs}
    (hcall : o = (Kvfs.step v c).map fun r => r.1) {quiet : Prop} (hquiet : quiet) :
    Outcome id other quiet o := by
  obtain ⟨v', r, hstep, hledger⟩ := h.step hlegal
  rw [hcall, hstep]
  exact .of_some hledger hquiet

theorem load_file_outcome (h : Ledger other v) (hsize : e.size < abi.size_mod)
    (hloaded : is_loaded e) (hlegal : EntryLegal abi a i e v) :
    Outcome id other (a.file_data i = none) (load_file a i e v) := by
  obtain ⟨hgives, hcopy⟩ := hlegal hloaded
  unfold load_file
  cases hdata : a.file_data i with
  | none => exact .of_some h rfl
  | some r =>
      obtain ⟨p, bytes⟩ := r
      rw [hdata] at hgives
      refine ⟨nofun, fun _ v' hv' => ?_⟩
      obtain ⟨filled, hfill, hwrite⟩ := Option.bind_eq_some_iff.mp hv'
      -- `file_data` stays with nobody that would free it
      have hgrown := h.give_away hgives.2.1 filled
      have hfree : ¬ other p := fun hother => (h.live p).mpr (.inl hother) hgives.2.1
      have hcall : (call.kvfs_write (a.heap_copy i) (some e.path) (some filled) e.size).Legal abi
          { v with heap := Function.update v.heap p (some filled) } := by
        refine ⟨hsize, ?_, hcopy p bytes filled hdata⟩
        rintro src ⟨⟩
        exact (fill_file_length hfill).le
      obtain ⟨v₁, r, hstep, hledger⟩ := hgrown.step hcall
      obtain ⟨⟨v₂, c⟩, hwritten, rfl⟩ := Option.map_eq_some_iff.mp hwrite
      rw [Kvfs.step, hwritten] at hstep
      cases hstep
      exact ⟨_, hledger, fun q hq => .inl hq, p, .inr rfl, hfree⟩

theorem load_entry_outcome (h : Ledger other v) (hsize : e.size < abi.size_mod)
    (hlegal : EntryLegal abi a i e v) :
    Outcome id other (is_loaded e → a.file_data i = none) (load_entry a i e v) := by
  unfold load_entry
  by_cases hu : e.is_used ≠ 0
  · rw [if_pos hu]
    by_cases hdir : e.type = KVFS_TYPE_DIR
    · rw [if_pos hdir]
      have hcall : (call.kvfs_mkdir (some e.path)).Legal abi v := trivial
      refine call_outcome h hcall ?_ fun hloaded => absurd hdir hloaded.2.1
      rw [Kvfs.step, Option.map_map]
      rfl
    · rw [if_neg hdir]
      by_cases hpos : 0 < e.size
      · rw [if_pos hpos]
        have hloaded : is_loaded e := ⟨hu, hdir, hpos⟩
        exact (load_file_outcome h hsize hloaded hlegal).congr (imp_iff_right hloaded).symm
      · rw [if_neg hpos]
        have hcall : (call.kvfs_create (some e.path) (some [0]) 0 e.type e.mode).Legal abi v := by
          rintro bytes ⟨⟩
          exact Nat.zero_le _
        refine call_outcome h hcall ?_ fun hloaded => absurd hloaded.2.2 hpos
        rw [Kvfs.step, Option.map_map]
        rfl
  · rw [if_neg hu]
    exact .of_some h fun hloaded => absurd hloaded.1 hu

/-! ### The replay and the mount -/

theorem load_entries_outcome {table : List UInt8} (indices : List ℕ) (h : Ledger other v)
    (hlegal : LoadLegal abi a table indices v) :
    Outcome id other (∀ i ∈ indices, is_loaded (entry_at table i) → a.file_data i = none)
      (load_entries a table indices v) := by
  induction indices generalizing other v with
  | nil => exact .of_some h fun i hi => absurd hi List.not_mem_nil
  | cons i rest ih =>
      rw [load_entries]
      have hfirst := load_entry_outcome h (entry_size_lt abi table i) hlegal.1
      have hboth : Outcome id other ((is_loaded (entry_at table i) → a.file_data i = none)
          ∧ ∀ v' ∈ load_entry a i (entry_at table i) v,
            ∀ j ∈ rest, is_loaded (entry_at table j) → a.file_data j = none)
          ((load_entry a i (entry_at table i) v).bind fun v => load_entries a table rest v) :=
        hfirst.bind fun v' hv' other' hledger => ih hledger (hlegal.2 v' hv')
      refine ⟨fun hquiet => ?_, fun hnot => ?_⟩
      · rw [List.forall_mem_cons] at hquiet
        exact hboth.balanced ⟨hquiet.1, fun _ _ => hquiet.2⟩
      · intro v' hv'
        refine hboth.lost (fun hquiet => hnot ?_) v' hv'
        obtain ⟨v₁, hv₁, -⟩ := Option.bind_eq_some_iff.mp hv'
        exact List.forall_mem_cons.mpr ⟨hquiet.1, hquiet.2 v₁ hv₁⟩

theorem mount_outcome {s : system} (h : Ledger other s.vfs)
    (hlegal : (op.kdiskfs_mount a).Legal abi s) :
    Outcome system.vfs other ((op.kdiskfs_mount a).Refused s) (step s (.kdiskfs_mount a)) := by
  rw [step, kdiskfs_mount]
  by_cases hdrive : s.drive_present = true
  · rw [if_pos hdrive]
    cases hsuper : a.super_read with
    | none =>
        refine .of_some h fun table hreplays => ?_
        obtain ⟨-, sector, hsector, -⟩ := hreplays
        rw [hsuper] at hsector
        cases hsector
    | some sector =>
        dsimp only
        by_cases hmagic : (kdiskfs_super.of_bytes sector).magic ≠ KDISKFS_MAGIC
        · rw [if_pos hmagic]
          refine .of_some ?_ fun table hreplays => ?_
          · unfold kdiskfs_format
            dsimp only
            split_ifs
            · exact h
            · exact h
          · obtain ⟨-, sector', hsector, hmagic', -⟩ := hreplays
            rw [hsuper] at hsector
            cases hsector
            exact absurd hmagic' hmagic
        · rw [if_neg hmagic]
          have hreplays (table : List UInt8) :
              Replays a s table ↔ table = read_table a sector s.disk_entries := by
            rw [Replays, hsuper]
            simp [hdrive, not_not.mp hmagic]
          have hload := load_entries_outcome _ h (hlegal _ ((hreplays _).mpr rfl))
          rw [Option.map_map]
          refine Outcome.congr (hload.map fun v => rfl) ?_
          simp only [op.Refused, hreplays, forall_eq]
  · rw [if_neg hdrive]
    exact .of_some h fun table hreplays => absurd hreplays.1 hdrive

/-! ### Runs -/

theorem run_outcome (ops : List op) {s : system} (h : Ledger other s.vfs)
    (hlegal : LegalRun abi ops s) : Outcome system.vfs other (RefusedRun ops s) (run ops s) := by
  induction ops generalizing other s with
  | nil => exact .of_some h trivial
  | cons o rest ih =>
      have hstep : Outcome system.vfs other (o.Refused s) (step s o) := by
        cases o with
        | call c =>
            obtain ⟨v', r, hcall, hledger⟩ := h.step hlegal.1
            rw [step, hcall]
            exact .of_some hledger trivial
        | kdiskfs_mount a => exact mount_outcome h hlegal.1
      exact hstep.bind fun s' hs' other' hledger => ih hledger (hlegal.2 s' hs')

/-- **Ownership of the heap.** After any calls from the start, whatever `kmalloc` and the drive
answer, the calls have returned and the blocks that came to be and are not freed are the data of
the dynamic nodes, if and only if every `file_data` of a mount was refused. -/
theorem heap_owned_iff (abi : Kmem.Abi) (drive_present : Bool) (heap : Heap) (ops : List op)
    (hlegal : LegalRun abi ops (.start drive_present heap)) :
    (∃ s, run ops (.start drive_present heap) = some s ∧ Exact heap s.vfs)
      ↔ RefusedRun ops (.start drive_present heap) := by
  have hrun := run_outcome ops (start_ledger heap) hlegal
  constructor
  · rintro ⟨s, hs, hexact⟩
    by_contra hnot
    obtain ⟨other', hledger, -, p, hp, hnew⟩ := hrun.lost hnot s hs
    exact Ledger.not_exact hledger hp (not_not.mp hnew) hexact
  · intro hrefused
    obtain ⟨s, hs, hledger⟩ := hrun.balanced hrefused
    exact ⟨s, hs, Ledger.exact hledger⟩

/-! ### One file on the disk -/

/-- Requests that are refused need no block. -/
theorem load_legal_of_refused (abi : Kmem.Abi) {table : List UInt8} (indices : List ℕ) (v : kvfs)
    (h : ∀ i ∈ indices, is_loaded (entry_at table i) → a.file_data i = none) :
    LoadLegal abi a table indices v := by
  induction indices generalizing v with
  | nil => trivial
  | cons i rest ih =>
      rw [List.forall_mem_cons] at h
      refine ⟨fun hloaded => ?_, fun v' _ => ih v' h.2⟩
      rw [h.1 hloaded]
      exact ⟨trivial, nofun⟩

/-- A disk with the file `/a` of one byte, and the blocks at 16 and 1024. -/
def one_file : answers where
  super_read := some (Kdiskfs.sector_buf (le_bytes 4 KDISKFS_MAGIC))
  table_read i :=
    let e : kdiskfs_entry := ⟨literal "/a", 1, 6, 1, KVFS_TYPE_FILE, 1, mode_0644⟩
    some (Kdiskfs.sector_buf (if i = 0 then e.bytes else []))
  super_write := true
  file_data _ := some (16, List.replicate 513 0)
  file_read _ _ := some (List.replicate 512 7)
  heap_copy _ := some (1024, [0, 0])

def one_file_table : List UInt8 :=
  read_table one_file (Kdiskfs.sector_buf (le_bytes 4 KDISKFS_MAGIC))
    (List.replicate sizeof_table 0)

theorem one_file_entries (i : ℕ) (h : i ∈ List.range' 1 31) :
    ¬ is_loaded (entry_at one_file_table i) := by
  have hall : (List.range' 1 31).all (fun i => !decide (is_loaded (entry_at one_file_table i)))
      = true := by decide +kernel
  simpa using List.all_eq_true.mp hall i h

/-- The heap is empty at the start. Two blocks are live after the mount: the one of the node, and
the one that the sectors were read into. -/
theorem one_file_leaks :
    LegalRun .i386 [.kdiskfs_mount one_file] (.start true fun _ => none)
      ∧ (run [.kdiskfs_mount one_file] (.start true fun _ => none)).isSome
      ∧ ¬ ∃ s, run [.kdiskfs_mount one_file] (.start true fun _ => none) = some s
        ∧ Exact (fun _ => none) s.vfs := by
  have hlegal : LegalRun .i386 [.kdiskfs_mount one_file] (.start true fun _ => none) := by
    refine ⟨fun table hreplays => ?_, fun _ _ => trivial⟩
    obtain ⟨-, sector, hsector, -, rfl⟩ := hreplays
    cases hsector
    refine ⟨fun _ => ⟨⟨by decide +kernel, rfl, by decide +kernel⟩, ?_⟩, fun v' _ => ?_⟩
    · rintro p bytes filled ⟨⟩
      exact ⟨by decide, Function.update_of_ne (by decide) _ _, by decide⟩
    · exact load_legal_of_refused .i386 (List.range' 1 31) v'
        fun i hi hloaded => absurd hloaded (one_file_entries i hi)
  refine ⟨hlegal, by decide +kernel, ?_⟩
  rintro ⟨s, hs, hexact⟩
  have hrun := run_outcome _ (start_ledger fun _ => none) hlegal
  have hnot : ¬ RefusedRun [.kdiskfs_mount one_file] (.start true fun _ => none) := by
    intro hrefused
    have hreplays : Replays one_file (.start true fun _ => none) one_file_table :=
      ⟨rfl, _, rfl, by decide, rfl⟩
    have hnull := hrefused.1 one_file_table hreplays 0 (by decide) (by decide)
    cases hnull
  obtain ⟨other', hledger, -, p, hp, hnew⟩ := hrun.lost hnot s hs
  exact Ledger.not_exact hledger hp (not_not.mp hnew) hexact

/-- A file is written, a mount finds no memory, and the file is deleted. -/
theorem heap_owned_iff_no_memory :
    let ops : List op :=
      [.call (.kvfs_write (some (16, [0, 0])) (some (literal "/b")) (some [7]) 1),
        .kdiskfs_mount { one_file with file_data := fun _ => none },
        .call (.kvfs_delete (some (literal "/b")))]
    ∃ s, run ops (.start true fun _ => none) = some s ∧ Exact (fun _ => none) s.vfs := by
  intro ops
  refine (heap_owned_iff .i386 true (fun _ => none) ops ?_).mpr ?_
  · refine ⟨⟨by decide, ?_, by decide, rfl, rfl⟩, fun s _ => ⟨fun table _ => ?_, fun s' _ =>
      ⟨trivial, fun _ _ => trivial⟩⟩⟩
    · rintro src ⟨⟩
      exact le_rfl
    · exact load_legal_of_refused .i386 _ s.vfs fun _ _ _ => rfl
  · exact ⟨trivial, fun s _ => ⟨fun _ _ _ _ _ => rfl, fun s' _ => ⟨trivial, fun _ _ => trivial⟩⟩⟩

end SysInC.KdiskfsHeap
