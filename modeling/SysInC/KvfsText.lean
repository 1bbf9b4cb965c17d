/-
The texts of the files: a reader of `kvfs.c` may take `data` for a C string.

`kvfs_write` puts a NUL behind the bytes it copies, and what the boot creates has a NUL of its own.
So the string ends inside of the data, and is the text of the contents.
-/
import SysInC.KvfsLedger
import Mathlib.Data.List.TakeWhile

set_option autoImplicit false

namespace SysInC.Kvfs

/-- The memory that `data` points to. -/
def node_data.bytes (heap : Heap) : node_data → Option (List UInt8)
  | .null => none
  | .object bytes => some bytes
  | .block p => heap p

/-- The string in front of the first NUL. -/
def text_of (bytes : List UInt8) : List UInt8 := bytes.takeWhile (· ≠ 0)

/-- `(const char *)kvfs_open(path)->data`; `none` where there is no file or no data. -/
def kvfs_text (v : kvfs) (path : List UInt8) : Option (List UInt8) :=
  (kvfs_open v (some path)).bind fun n => (n.data.bytes v.heap).map text_of

/-- There is a NUL behind the contents, if not in them. -/
def Ended (heap : Heap) (n : kvfs_node) : Prop :=
  ∀ bytes, n.data.bytes heap = some bytes → 0 ∈ bytes.take (n.size + 1)

/-- The data of every file ends. -/
def AllEnded (v : kvfs) : Prop := ∀ n ∈ v.vfs_table, n.is_used = true → Ended v.heap n

variable {v v' : kvfs} {heap heap' : Heap} {n n' : kvfs_node} {pre post : List kvfs_node}

/-! ## The contents have the text -/

theorem text_of_take {bytes : List UInt8} {size : ℕ} (h : 0 ∈ bytes.take (size + 1)) :
    text_of bytes = text_of (bytes.take size) := by
  unfold text_of
  induction bytes generalizing size with
  | nil => rw [List.take_nil]
  | cons c bytes ih =>
      by_cases hc : c = 0
      · rw [List.takeWhile_cons_of_neg (by simpa using hc)]
        cases size with
        | zero => rfl
        | succ size =>
            rw [List.take_succ_cons, List.takeWhile_cons_of_neg (by simpa using hc)]
      · have hrest : 0 ∈ bytes.take size :=
          (List.mem_cons.mp h).resolve_left fun hzero => hc hzero.symm
        cases size with
        | zero => exact absurd hrest List.not_mem_nil
        | succ size =>
            rw [List.take_succ_cons, List.takeWhile_cons_of_pos (by simpa using hc),
              List.takeWhile_cons_of_pos (by simpa using hc), ih hrest]

theorem Ended.text (h : Ended heap n) :
    (n.data.bytes heap).map text_of = (n.data.contents heap n.size).map text_of := by
  unfold Ended at h
  unfold node_data.contents
  cases hdata : n.data with
  | null => rfl
  | object bytes =>
      rw [hdata] at h
      exact congrArg some (text_of_take (h bytes rfl))
  | block p =>
      rw [hdata] at h
      show (heap p).map text_of = ((heap p).map (List.take n.size)).map text_of
      cases hp : heap p with
      | none => rfl
      | some bytes => exact congrArg some (text_of_take (h bytes hp))

/-- The text is that of the contents. -/
theorem kvfs_text_eq (h : AllEnded v) (path : List UInt8) :
    kvfs_text v path = (v.map (vfs_map.key (some path))).bind fun e => e.contents.map text_of := by
  have hopen := kvfs_open_spec v (some path)
  rw [Option.bind_some] at hopen
  rw [← hopen, kvfs_text]
  unfold kvfs_open
  cases hfind : find_slot (is_named (sanitize_path (some path) KVFS_MAX_PATH)) v.vfs_table with
  | none => rfl
  | some r =>
      obtain ⟨pre, n, post⟩ := r
      obtain ⟨ht, hn, -⟩ := find_slot_some hfind
      have hmem : n ∈ v.vfs_table := by rw [ht]; exact mem_middle
      exact (h n hmem (used_of_named hn)).text

/-! ## The calls -/

/-- A free takes memory away and writes none. -/
theorem free_data_bytes (h : free_data heap n = some heap') {d : node_data} {bytes : List UInt8}
    (hd : d.bytes heap' = some bytes) : d.bytes heap = some bytes := by
  cases d with
  | null => exact hd
  | object _ => exact hd
  | block p =>
      have hp : heap' p = some bytes := hd
      show heap p = some bytes
      unfold free_data at h
      split_ifs at h
      · split at h
        · exact Option.some.inj h ▸ hp
        · exact nomatch h
        · rename_i q _
          unfold kfree at h
          split_ifs at h
          rw [← Option.some.inj h] at hp
          by_cases hq : p = q
          · rw [hq, Function.update_self] at hp
            exact nomatch hp
          · rwa [Function.update_of_ne hq] at hp
      · exact Option.some.inj h ▸ hp

/-- `heap_copy[size] = '\0';` -/
theorem fill_copy_nul {data : Option (List UInt8)} {size : ℕ} {came bytes : List UInt8}
    (h : fill_copy data size came = some bytes) : 0 ∈ bytes.take (size + 1) := by
  have hnul (front rest : List UInt8) (hfront : front.length = size) :
      0 ∈ (front ++ 0 :: rest).take (size + 1) := by
    rw [← hfront, List.take_length_add_append, List.take_succ_cons]
    exact List.mem_append_right _ List.mem_cons_self
  unfold fill_copy at h
  split_ifs at h with hroom
  rw [Nat.not_le] at hroom
  cases data with
  | none =>
      rw [← Option.some.inj h]
      exact hnul _ _ (List.length_take_of_le hroom.le)
  | some src =>
      dsimp only at h
      split_ifs at h with hsrc
      rw [← Option.some.inj h]
      exact hnul _ _ (List.length_take_of_le (Nat.not_lt.mp hsrc))

/-- One node is written, and the memory of the others is as before, or freed. -/
theorem AllEnded.change (h : AllEnded v) (ht : v.vfs_table = pre ++ n :: post) (count : ℕ)
    (hheap : ∀ m ∈ pre ++ post, m.is_used = true → ∀ bytes, m.data.bytes heap' = some bytes →
      m.data.bytes v.heap = some bytes)
    (hn' : n'.is_used = true → Ended heap' n') : AllEnded ⟨pre ++ n' :: post, count, heap'⟩ := by
  intro m hm hu
  rcases eq_or_mem_other hm with rfl | hother
  · exact hn' hu
  · intro bytes hbytes
    have hmem : m ∈ v.vfs_table := by
      rw [ht]
      exact mem_other hother
    exact h m hmem hu bytes (hheap m hother hu bytes hbytes)

/-- `kvfs_create` of NULL, or of memory of the caller with a NUL in it. -/
theorem AllEnded.kvfs_create (h : AllEnded v) {path : Option (List UInt8)} {data : node_data}
    {size : ℕ} {type : UInt8} {mode : UInt16} {c : ℤ}
    (hdata : ∀ heap bytes, data.bytes heap = some bytes → 0 ∈ bytes.take (size + 1))
    (hcall : kvfs_create v path data size type mode = some (v', c)) : AllEnded v' := by
  unfold Kvfs.kvfs_create at hcall
  dsimp only at hcall
  split_ifs at hcall
  · cases hcall
    exact h
  · split at hcall
    · rename_i pre n post hfind
      obtain ⟨ht, hn, -⟩ := find_slot_some hfind
      obtain ⟨heap, hfree, heq⟩ := Option.map_eq_some_iff.mp hcall
      cases heq
      exact h.change ht _ (fun m _ _ bytes hbytes => free_data_bytes hfree hbytes)
        fun _ bytes hbytes => hdata heap bytes hbytes
    · split at hcall
      · rename_i pre n post hfind
        obtain ⟨ht, hn, -⟩ := find_slot_some hfind
        cases hcall
        exact h.change ht _ (fun m _ _ bytes hbytes => hbytes)
          fun _ bytes hbytes => hdata v.heap bytes hbytes
      · cases hcall
        exact h

theorem AllEnded.kvfs_mkdir (h : AllEnded v) {path : Option (List UInt8)} {c : ℤ}
    (hcall : kvfs_mkdir v path = some (v', c)) : AllEnded v' := by
  have hnull (heap : Heap) (bytes : List UInt8) (hbytes : node_data.null.bytes heap = some bytes) :
      0 ∈ bytes.take (0 + 1) := nomatch hbytes
  exact h.kvfs_create hnull hcall

theorem AllEnded.kvfs_delete (h : AllEnded v) {path : Option (List UInt8)} {c : ℤ}
    (hcall : kvfs_delete v path = some (v', c)) : AllEnded v' := by
  unfold Kvfs.kvfs_delete at hcall
  dsimp only at hcall
  split at hcall
  · rename_i pre n post hfind
    obtain ⟨ht, hn, -⟩ := find_slot_some hfind
    obtain ⟨heap, hfree, heq⟩ := Option.map_eq_some_iff.mp hcall
    cases heq
    exact h.change ht _ (fun m _ _ bytes hbytes => free_data_bytes hfree hbytes)
      fun hu => absurd hu Bool.false_ne_true
  · cases hcall
    exact h

/-- What the nodes in use have is as before a copy is made. -/
theorem bytes_before_copy (hok : Ok v) {q : ℕ} (hq : v.heap q = none) {bytes : List UInt8}
    {m : kvfs_node} (hm : m ∈ v.vfs_table) (hu : m.is_used = true) {b : List UInt8}
    (hb : m.data.bytes (Function.update v.heap q (some bytes)) = some b) :
    m.data.bytes v.heap = some b := by
  cases hdata : m.data with
  | null =>
      rw [hdata] at hb
      exact hb
  | object _ =>
      rw [hdata] at hb
      exact hb
  | block p =>
      rw [hdata] at hb
      have hne : p ≠ q := by
        rintro rfl
        exact hok.owned.live hm hu hdata hq
      exact (Function.update_of_ne hne _ v.heap).symm.trans hb

/-- The copy has its NUL, and no node had the block before. -/
theorem AllEnded.kvfs_write (h : AllEnded v) (hok : Ok v) {copy : Option (ℕ × List UInt8)}
    {path data : Option (List UInt8)} {size : ℕ} {c : ℤ}
    (hcall : kvfs_write v copy path data size = some (v', c))
    (hcopy : ∀ q bytes, copy = some (q, bytes) → v.heap q = none) : AllEnded v' := by
  unfold Kvfs.kvfs_write at hcall
  dsimp only at hcall
  split at hcall
  · cases hcall
    exact h
  · rename_i q came
    have hq := hcopy q came rfl
    obtain ⟨bytes, hfill, hcall⟩ := Option.bind_eq_some_iff.mp hcall
    have hnul : 0 ∈ bytes.take (size + 1) := fill_copy_nul hfill
    split at hcall
    · rename_i pre n post hfind
      obtain ⟨ht, hn, -⟩ := find_slot_some hfind
      obtain ⟨heap, hfree, heq⟩ := Option.map_eq_some_iff.mp hcall
      cases heq
      refine h.change ht _ (fun m hm hu b hb => ?_) fun _ b hb => ?_
      · exact bytes_before_copy hok hq (by rw [ht]; exact mem_other hm) hu
          (free_data_bytes hfree hb)
      · have hcame := free_data_bytes (d := .block q) hfree hb
        rw [node_data.bytes, Function.update_self] at hcame
        exact Option.some.inj hcame ▸ hnul
    · split at hcall
      · rename_i pre n post hfind
        obtain ⟨ht, hn, -⟩ := find_slot_some hfind
        cases hcall
        refine h.change ht _ (fun m hm hu b hb => ?_) fun _ b hb => ?_
        · exact bytes_before_copy hok hq (by rw [ht]; exact mem_other hm) hu hb
        · rw [node_data.bytes, Function.update_self] at hb
          exact Option.some.inj hb ▸ hnul
      · -- the copy is freed again
        obtain ⟨heap, hfree, heq⟩ := Option.map_eq_some_iff.mp hcall
        cases heq
        unfold kfree at hfree
        split_ifs at hfree
        cases hfree
        have hback : Function.update (Function.update v.heap q (some bytes)) q none = v.heap := by
          rw [Function.update_idem, ← hq, Function.update_eq_self]
        rw [hback]
        exact h

/-! ## The start -/

/-- The data of a boot entry ends. -/
def boot_entry.Ended (e : boot_entry) : Prop :=
  ∀ heap bytes, e.data.bytes heap = some bytes → 0 ∈ bytes.take (e.size + 1)

theorem AllEnded.create_all (h : AllEnded v) (entries : List boot_entry)
    (hdata : ∀ e ∈ entries, e.Ended) (hcall : create_all v entries = some v') : AllEnded v' := by
  induction entries generalizing v with
  | nil => exact Option.some.inj hcall ▸ h
  | cons e rest ih =>
      rw [List.forall_mem_cons] at hdata
      obtain ⟨r, hcreate, hcall⟩ := Option.bind_eq_some_iff.mp hcall
      exact ih (h.kvfs_create hdata.1 hcreate) hdata.2 hcall

theorem boot_dir_ended (path : String) : (boot_dir path).Ended :=
  fun _ _ hbytes => nomatch hbytes

/-- A string literal has its NUL. -/
theorem boot_text_ended (type : UInt8) (mode : UInt16) (path text : String) :
    (boot_text type mode path text).Ended := by
  intro heap bytes hbytes
  rw [← Option.some.inj hbytes]
  show 0 ∈ (literal text ++ [0]).take ((literal text).length + 1)
  rw [List.take_length_add_append]
  exact List.mem_append_right _ List.mem_cons_self

/-- The header of the picture has zeros. -/
theorem boot_logo_ended : boot_logo.Ended := by
  intro heap bytes hbytes
  rw [← Option.some.inj hbytes]
  show 0 ∈ generate_sample_bmp.take (generate_sample_bmp.length + 1)
  rw [List.take_of_length_le (Nat.le_succ _)]
  decide

theorem boot_passwd_ended : boot_passwd.Ended := by
  have hlength : etc_passwd_buf.length = 512 := by decide +kernel
  intro heap bytes hbytes
  rw [← Option.some.inj hbytes]
  show 0 ∈ etc_passwd_buf.take (etc_passwd_buf.length - 1 + 1)
  rw [List.take_of_length_le (by rw [hlength])]
  decide

theorem boot_entries_ended : ∀ e ∈ boot_entries, e.Ended := by
  simp only [boot_entries, boot_file, boot_bin, boot_dev, List.forall_mem_cons, boot_dir_ended,
    boot_text_ended, boot_logo_ended, boot_passwd_ended, List.not_mem_nil, IsEmpty.forall_iff,
    implies_true, and_self]

theorem kvfs_init_ended (hcall : kvfs_init v = some v') : AllEnded v' := by
  obtain ⟨heap, -, hcreate⟩ := Option.bind_eq_some_iff.mp hcall
  refine AllEnded.create_all (fun n hn hu => ?_) boot_entries boot_entries_ended hcreate
  obtain ⟨m, -, rfl⟩ := List.mem_map.mp hn
  exact absurd hu Bool.false_ne_true

/-! ## What the calls do to the texts -/

structure Readable (v : kvfs) : Prop where
  ok : Ok v
  ended : AllEnded v

/-- The texts other than that of `path` are as before. -/
structure TextStep (path : List UInt8) (v v' : kvfs) : Prop where
  readable : Readable v'
  frame : ∀ other, vfs_map.key (some other) ≠ vfs_map.key (some path) →
    kvfs_text v' other = kvfs_text v other

theorem Readable.step_of_map (h : Readable v) {path : List UInt8} (h' : Readable v')
    {r : vfs_map × reply} (hkey : v.map.AtKey (vfs_map.key (some path)) r) (hmap : v'.map = r.1) :
    TextStep path v v' := by
  refine ⟨h', fun other hne => ?_⟩
  rw [kvfs_text_eq h'.ended, kvfs_text_eq h.ended, hmap, hkey.frame hne]

theorem Readable.mkdir (h : Readable v) (path : List UInt8) :
    ∃ v' c, kvfs_mkdir v (some path) = some (v', c) ∧ TextStep path v v' := by
  have hnull (p : ℕ) : node_data.null ≠ .block p := fun hp => nomatch hp
  obtain ⟨v', c, hcall, hok, hmap⟩ :=
    kvfs_create_spec h.ok (some path) hnull 0 KVFS_TYPE_DIR mode_0755
  refine ⟨v', c, hcall, h.step_of_map ⟨hok, h.ended.kvfs_mkdir hcall⟩
    (vfs_map.create_at_key v.map (some path) _) (congrArg Prod.fst hmap)⟩

theorem Readable.delete (h : Readable v) (path : List UInt8) :
    ∃ v' c, kvfs_delete v (some path) = some (v', c) ∧ TextStep path v v' := by
  obtain ⟨v', c, hcall, hok, hmap⟩ := kvfs_delete_spec h.ok (some path)
  exact ⟨v', c, hcall, h.step_of_map ⟨hok, h.ended.kvfs_delete hcall⟩
    (vfs_map.delete_at_key v.map (some path)) (congrArg Prod.fst hmap)⟩

/-- There is no memory, or no place for a new file. -/
def Refused (v : kvfs) (copy : Option (ℕ × List UInt8)) (path : List UInt8) : Prop :=
  copy = none ∨ v.map (vfs_map.key (some path)) = none ∧ KVFS_MAX_NODES ≤ v.vfs_node_count

theorem Readable.write (h : Readable v) {abi : Kmem.Abi} {copy : Option (ℕ × List UInt8)}
    (path : List UInt8) {text : List UInt8} (hsize : text.length < abi.size_mod)
    (hgives : kmalloc_gives abi v.heap (text.length + 1) copy) :
    ∃ v' c, kvfs_write v copy (some path) (some text) text.length = some (v', c)
      ∧ TextStep path v v'
      ∧ (Refused v copy path → v'.map = v.map)
      ∧ (¬Refused v copy path → kvfs_text v' path = some (text_of text)) := by
  have hlegal : (call.kvfs_write copy (some path) (some text) text.length).Legal abi v :=
    ⟨hsize, by rintro src ⟨⟩; exact le_rfl, hgives⟩
  obtain ⟨v', c, hcall, hok, hmap⟩ := kvfs_write_spec h.ok (some path) hlegal
  have hended : AllEnded v' := by
    refine h.ended.kvfs_write h.ok hcall fun q bytes hcopy => ?_
    rw [hcopy] at hgives
    exact hgives.2.1
  have hmap : v'.map = (v.map.write copy (some path) (some text) text.length).1 :=
    congrArg Prod.fst hmap
  refine ⟨v', c, hcall, h.step_of_map ⟨hok, hended⟩ (vfs_map.write_at_key _ _ _ _ _) hmap,
    fun hrefused => ?_, fun hrefused => ?_⟩
  · rw [hmap]
    unfold vfs_map.write
    rcases hrefused with rfl | ⟨hnone, hfull⟩
    · rfl
    · cases copy with
      | none => rfl
      | some block =>
          dsimp only
          rw [hnone]
          exact congrArg Prod.fst (if_pos (h.ok.full_iff.mpr hfull))
  · rw [Refused, not_or] at hrefused
    obtain ⟨hcopy, hroom⟩ := hrefused
    obtain ⟨block, rfl⟩ := Option.ne_none_iff_exists'.mp hcopy
    rw [kvfs_text_eq hended, hmap]
    unfold vfs_map.write
    dsimp only
    rw [Option.getD_some, List.take_length]
    cases hold : v.map (vfs_map.key (some path)) with
    | some e =>
        dsimp only
        rw [Function.update_self]
        rfl
    | none =>
        have hnot : ¬v.map.Full := fun hfull => hroom ⟨hold, h.ok.full_iff.mp hfull⟩
        dsimp only
        rw [if_neg hnot]
        dsimp only
        rw [Function.update_self]
        rfl

end SysInC.Kvfs
