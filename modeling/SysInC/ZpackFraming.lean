/-
`extract_archive` reads what `pack_recursive` writes.

Both sides are loops over records, so the round trip is one record at a time. Two things stand
against it: the reader's path buffer has 1024 bytes where the writer's has 2048, and the
encoder can leave its buffer (`archive_round_trip_iff`).
-/
import SysInC.ZpackArchive
import SysInC.ZpackBound
import Mathlib.Data.List.TakeWhile

set_option autoImplicit false

namespace SysInC.Zpack

/-! ## Entries -/

/-- A directory or a regular file, by its stored path. -/
structure archive_entry where
  path : List UInt8
  is_dir : Bool
  mode : ℕ
  data : List UInt8

/-- What the writer can come to: `char rel_path[2048]`, and the fields of `struct stat`. -/
structure archive_entry.Emitted (e : archive_entry) : Prop where
  path_text : 0 ∉ e.path
  path_le : e.path.length ≤ 2047
  mode_lt : e.mode < 2 ^ 32
  size_lt : e.data.length < 2 ^ 63

/-- The bytes for an entry. -/
def archive_entry.write (e : archive_entry) : Option (List UInt8) :=
  if e.is_dir then some (pack_dir e.path e.mode)
  else (pack_file e.path e.mode e.data).map Prod.fst

def write_entries : List archive_entry → Option (List UInt8)
  | [] => some []
  | e :: es => e.write.bind fun out => (write_entries es).map (out ++ ·)

/-- What the reader should make of an entry. -/
def archive_entry.record (e : archive_entry) : extract_record :=
  if e.is_dir then .dir e.path e.mode else .file e.path e.mode e.data true

theorem write_entries_append {es fs : List archive_entry} {out out' : List UInt8}
    (h : write_entries es = some out) (h' : write_entries fs = some out') :
    write_entries (es ++ fs) = some (out ++ out') := by
  induction es generalizing out with
  | nil =>
      obtain rfl := Option.some.inj h
      exact h'
  | cons e es ih =>
      obtain ⟨first, hfirst, hmap⟩ := Option.bind_eq_some_iff.mp h
      obtain ⟨rest, hrest, rfl⟩ := Option.map_eq_some_iff.mp hmap
      rw [List.cons_append, write_entries, hfirst, Option.bind_some, ih hrest, Option.map_some,
        List.append_assoc]

/-! ## The writer writes entries -/

/-- The bytes are those of entries that can be emitted. -/
def Written (out : List UInt8) : Prop :=
  ∃ es, (∀ e ∈ es, archive_entry.Emitted e) ∧ write_entries es = some out

theorem Written.nil : Written [] := ⟨[], by simp, rfl⟩

theorem Written.append {out out' : List UInt8} (h : Written out) (h' : Written out') :
    Written (out ++ out') := by
  obtain ⟨es, hes, hout⟩ := h
  obtain ⟨fs, hfs, hout'⟩ := h'
  exact ⟨es ++ fs, List.forall_mem_append.mpr ⟨hes, hfs⟩, write_entries_append hout hout'⟩

theorem Written.entry {e : archive_entry} (he : e.Emitted) {out : List UInt8}
    (h : e.write = some out) : Written out :=
  ⟨[e], by simpa using he, by simp [write_entries, h]⟩

theorem snprintf_text {size : ℕ} {text : List UInt8} (h : 0 ∉ text) : 0 ∉ snprintf size text :=
  fun hmem => h (List.mem_of_mem_take hmem)

theorem snprintf_2048_length (text : List UInt8) : (snprintf 2048 text).length ≤ 2047 :=
  List.length_take_le _ _

theorem entry_path_text {rel d_name : List UInt8} (hrel : 0 ∉ rel) (hname : 0 ∉ d_name) :
    0 ∉ entry_path rel d_name := by
  unfold entry_path
  split_ifs
  · apply snprintf_text
    rw [List.mem_append, List.mem_cons, not_or, not_or]
    exact ⟨hrel, by decide, hname⟩
  · exact snprintf_text hname

theorem entry_path_length (rel d_name : List UInt8) : (entry_path rel d_name).length ≤ 2047 := by
  unfold entry_path
  split_ifs <;> exact snprintf_2048_length _

/-- One name, when directories below are written as entries. -/
theorem pack_name_written {fs : file_system}
    {recurse : List UInt8 → List UInt8 → pack_totals → Option (List UInt8 × pack_totals)}
    (hrec : ∀ base rel t r, 0 ∉ rel → recurse base rel t = some r → Written r.1)
    {base_dir rel d_name : List UInt8} {t : pack_totals} {r : List UInt8 × pack_totals}
    (hrel : 0 ∉ rel) (hname : 0 ∉ d_name)
    (h : pack_name fs recurse base_dir rel d_name t = some r) : Written r.1 := by
  have htext := entry_path_text hrel hname
  have hlen := entry_path_length rel d_name
  unfold pack_name at h
  by_cases hskip : d_name = [dot] ∨ d_name = [dot, dot]
  · rw [if_pos hskip] at h
    obtain rfl := Option.some.inj h
    exact Written.nil
  · rw [if_neg hskip] at h
    dsimp only at h
    -- a name that `stat` fails on is left out
    split at h
    · obtain rfl := Option.some.inj h
      exact Written.nil
    · rename_i st hst
      have hmode := fs.mode_lt _ st hst
      have hsize := fs.size_lt _ st hst
      split_ifs at h
      -- a directory is an entry, and then what is below it
      · obtain ⟨below, hbelow, rfl⟩ := Option.map_eq_some_iff.mp h
        have hdir : archive_entry.Emitted ⟨entry_path rel d_name, true, st.st_mode, []⟩ :=
          ⟨htext, hlen, hmode, Nat.two_pow_pos 63⟩
        exact (Written.entry hdir rfl).append (hrec _ _ _ _ htext hbelow)
      · obtain ⟨packed, hpacked, rfl⟩ := Option.map_eq_some_iff.mp h
        have hfile : archive_entry.Emitted ⟨entry_path rel d_name, false, st.st_mode,
            fs.orig_buf (snprintf 2048 (base_dir ++ slash :: d_name)) st.st_size⟩ :=
          ⟨htext, hlen, hmode, by rw [fs.orig_buf_length]; exact hsize⟩
        refine Written.entry hfile ?_
        rw [archive_entry.write, if_neg Bool.false_ne_true, hpacked]
        rfl
      · obtain rfl := Option.some.inj h
        exact Written.nil

theorem pack_names_written {fs : file_system}
    {recurse : List UInt8 → List UInt8 → pack_totals → Option (List UInt8 × pack_totals)}
    (hrec : ∀ base rel t r, 0 ∉ rel → recurse base rel t = some r → Written r.1)
    {base_dir rel : List UInt8} (hrel : 0 ∉ rel) {names : List (List UInt8)}
    (hnames : ∀ name ∈ names, 0 ∉ name) {t : pack_totals} {r : List UInt8 × pack_totals}
    (h : pack_names fs recurse base_dir rel names t = some r) : Written r.1 := by
  induction names generalizing t r with
  | nil =>
      obtain rfl := Option.some.inj h
      exact Written.nil
  | cons d_name names ih =>
      obtain ⟨first, hfirst, hmap⟩ := Option.bind_eq_some_iff.mp h
      obtain ⟨rest, hrest, rfl⟩ := Option.map_eq_some_iff.mp hmap
      have hhead := pack_name_written hrec hrel (hnames d_name List.mem_cons_self) hfirst
      exact hhead.append (ih (fun name hmem => hnames name (List.mem_cons_of_mem _ hmem)) hrest)

theorem pack_recursive_written {fs : file_system} {fuel : ℕ} :
    ∀ base rel t r, 0 ∉ rel → pack_recursive fs fuel base rel t = some r → Written r.1 := by
  induction fuel with
  | zero => intro base rel t r _ h; cases h
  | succ fuel ih =>
      intro base rel t r hrel h
      rw [pack_recursive] at h
      split at h
      · obtain rfl := Option.some.inj h
        exact Written.nil
      · rename_i names hnames
        exact pack_names_written ih hrel (fs.names_text base names hnames) h

/-- The archive of a list of entries. -/
def entries_archive (t : pack_totals) (es : List archive_entry) : Option (List UInt8) :=
  (write_entries es).map fun out => (archive_header t).bytes ++ out

/-- Every archive that `create_archive` makes is one of entries. -/
theorem create_archive_written {fs : file_system} {fuel : ℕ} {target archive : List UInt8}
    (htarget : 0 ∉ target) (h : create_archive fs fuel target = some archive) :
    ∃ t es, (∀ e ∈ es, archive_entry.Emitted e) ∧ entries_archive t es = some archive := by
  obtain ⟨st, hst, hpacked⟩ := Option.bind_eq_some_iff.mp h
  obtain ⟨r, hr, rfl⟩ := Option.map_eq_some_iff.mp hpacked
  have hwritten : Written r.1 := by
    split_ifs at hr
    · exact pack_recursive_written _ _ _ _ List.not_mem_nil hr
    · obtain ⟨packed, hpack, rfl⟩ := Option.map_eq_some_iff.mp hr
      have hfile : archive_entry.Emitted
          ⟨base_name target, false, st.st_mode, fs.orig_buf target st.st_size⟩ := by
        refine ⟨fun hmem => htarget ?_, ?_, fs.mode_lt _ st hst, ?_⟩
        · have hrev := (List.takeWhile_sublist _).subset (List.mem_reverse.mp hmem)
          exact List.mem_reverse.mp hrev
        · have hname := fs.name_le target st hst
          exact hname.trans (by decide)
        · rw [fs.orig_buf_length]
          exact fs.size_lt _ st hst
      refine Written.entry hfile ?_
      rw [archive_entry.write, if_neg Bool.false_ne_true, hpack]
      rfl
  obtain ⟨es, hes, hout⟩ := hwritten
  exact ⟨r.2, es, hes, by rw [entries_archive, hout]; rfl⟩

/-! ## The reader reads a record -/

theorem entry_header_length (eh : ZpackEntryHeader) : eh.bytes.length = entry_header_size := by
  simp [ZpackEntryHeader.bytes, entry_header_size]

/-- The fields fit. -/
structure ZpackEntryHeader.InRange (eh : ZpackEntryHeader) : Prop where
  path_len : eh.path_len < 256 ^ 2
  is_dir : eh.is_dir < 256 ^ 1
  mode : eh.mode < 256 ^ 4
  orig_size : eh.orig_size < 256 ^ 8
  comp_size : eh.comp_size < 256 ^ 8
  file_crc : eh.file_crc < 256 ^ 4

theorem of_bytes_bytes {eh : ZpackEntryHeader} (h : eh.InRange) :
    ZpackEntryHeader.of_bytes eh.bytes = eh := by
  obtain ⟨path_len, is_dir, mode, orig_size, comp_size, file_crc⟩ := eh
  obtain ⟨h1, h2, h3, h4, h5, h6⟩ := h
  have hlast := le_field_head h6 []
  rw [List.append_nil] at hlast
  unfold ZpackEntryHeader.of_bytes ZpackEntryHeader.bytes
  simp only [ZpackEntryHeader.mk.injEq]
  refine ⟨?_, ?_, ?_, ?_, ?_, ?_⟩
  · exact le_field_head h1 _
  · rw [le_field_skip (le_bytes_length 2 _) (by omega)]
    exact le_field_head h2 _
  · rw [le_field_skip (le_bytes_length 2 _) (by omega),
      le_field_skip (le_bytes_length 1 _) (by omega)]
    exact le_field_head h3 _
  · rw [le_field_skip (le_bytes_length 2 _) (by omega),
      le_field_skip (le_bytes_length 1 _) (by omega), le_field_skip (le_bytes_length 4 _) (by omega)]
    exact le_field_head h4 _
  · rw [le_field_skip (le_bytes_length 2 _) (by omega),
      le_field_skip (le_bytes_length 1 _) (by omega), le_field_skip (le_bytes_length 4 _) (by omega),
      le_field_skip (le_bytes_length 8 _) (by omega)]
    exact le_field_head h5 _
  · rw [le_field_skip (le_bytes_length 2 _) (by omega),
      le_field_skip (le_bytes_length 1 _) (by omega), le_field_skip (le_bytes_length 4 _) (by omega),
      le_field_skip (le_bytes_length 8 _) (by omega), le_field_skip (le_bytes_length 8 _) (by omega)]
    exact hlast

theorem header_take (eh : ZpackEntryHeader) (rest : List UInt8) :
    (eh.bytes ++ rest).take entry_header_size = eh.bytes := List.take_left' (entry_header_length eh)

theorem header_drop (eh : ZpackEntryHeader) (rest : List UInt8) :
    (eh.bytes ++ rest).drop entry_header_size = rest := List.drop_left' (entry_header_length eh)

theorem fill_eq {uninit : ℕ → UInt8} {n : ℕ} {got : List UInt8} (h : got.length = n) :
    fill uninit n got = got := by simp [fill, h]

theorem c_string_eq {text : List UInt8} (h : 0 ∉ text) : c_string text = text := by
  rw [c_string, List.takeWhile_eq_self_iff]
  intro c hc
  have hne : c ≠ 0 := fun heq => h (heq ▸ hc)
  simpa using hne

section

variable {malloc : ℕ → Bool} {uninit : List UInt8 → ℕ → UInt8}

/-- The path behind a header is read back, if there is room for it. -/
theorem read_record_path {eh : ZpackEntryHeader} (heh : eh.InRange) {path : List UInt8}
    (htext : 0 ∉ path) (hlen : eh.path_len = path.length) (rest : List UInt8) :
    read_record malloc uninit true (eh.bytes ++ (path ++ rest))
      = if 1024 ≤ path.length then none
        else if eh.is_dir ≠ 0 then some (.dir path eh.mode, rest)
        else if malloc ((eh.comp_size + 64) % 2 ^ 64) && malloc ((eh.orig_size + 64) % 2 ^ 64) then
          if 2 ^ 64 ≤ eh.comp_size + 64 ∨ 2 ^ 64 ≤ eh.orig_size + 64 then none
          else
            let comp_buf := fill (uninit rest) eh.comp_size (rest.take eh.comp_size)
            (restore_data uninit true eh comp_buf (rest.drop eh.comp_size)).map fun orig_buf =>
              (.file path eh.mode orig_buf ((calc_crc32 orig_buf 0).toNat = eh.file_crc),
                rest.drop eh.comp_size)
        else some (.refused path, rest) := by
  simp only [read_record, header_take, header_drop, of_bytes_bytes heh, hlen, List.take_left,
    List.drop_left, fill_eq, c_string_eq htext]

theorem read_record_dir {path : List UInt8} (htext : 0 ∉ path) (hlen : path.length ≤ 2047)
    {mode : ℕ} (hmode : mode < 2 ^ 32) (rest : List UInt8) :
    read_record malloc uninit true (pack_dir path mode ++ rest)
      = if path.length ≤ 1023 then some (.dir path mode, rest) else none := by
  have hmod : path.length % 65536 = path.length := Nat.mod_eq_of_lt (by omega)
  unfold pack_dir
  simp only [hmod, List.take_length, List.append_assoc]
  rw [read_record_path ⟨by simp only; omega, (by decide : 1 < 256 ^ 1), hmode, Nat.two_pow_pos 64,
    Nat.two_pow_pos 64, Nat.two_pow_pos 32⟩ htext rfl]
  by_cases hlong : path.length ≤ 1023
  · rw [if_neg (by omega), if_pos Nat.one_ne_zero, if_pos hlong]
  · rw [if_pos (by omega), if_neg hlong]

/-- What stands behind the path of a file. -/
theorem pack_file_payload {path orig_buf : List UInt8} {mode : ℕ} {out : List UInt8 × ℕ}
    (h : pack_file path mode orig_buf = some out) :
    ∃ payload, payload.length ≤ orig_buf.length
      ∧ (payload = orig_buf ∨ (payload.length < orig_buf.length
          ∧ zpack2_decompress payload orig_buf.length = (orig_buf.length, orig_buf)))
      ∧ out.1 = ZpackEntryHeader.bytes
          ⟨path.length % 65536, 0, mode, orig_buf.length, payload.length,
            (calc_crc32 orig_buf 0).toNat⟩ ++ (path.take (path.length % 65536) ++ payload) := by
  simp only [pack_file] at h
  split_ifs at h with hover hstored
  · obtain rfl := Option.some.inj h
    exact ⟨orig_buf, le_rfl, Or.inl rfl, rfl⟩
  · obtain rfl := Option.some.inj h
    rw [not_or, Nat.not_le] at hstored
    exact ⟨_, hstored.2.le, Or.inr ⟨hstored.2, zpack2_decompress_compress orig_buf _ _ (by omega)
      le_rfl⟩, rfl⟩

theorem read_record_file {path orig_buf : List UInt8} {mode : ℕ} {out : List UInt8 × ℕ}
    (htext : 0 ∉ path) (hlen : path.length ≤ 2047) (hmode : mode < 2 ^ 32)
    (hsize : orig_buf.length < 2 ^ 63) (hmalloc : ∀ n ≤ orig_buf.length + 64, malloc n = true)
    (h : pack_file path mode orig_buf = some out) (rest : List UInt8) :
    read_record malloc uninit true (out.1 ++ rest)
      = if path.length ≤ 1023 then some (.file path mode orig_buf true, rest) else none := by
  obtain ⟨payload, hle, hpayload, hout⟩ := pack_file_payload h
  have hmod : path.length % 65536 = path.length := Nat.mod_eq_of_lt (by omega)
  have hcrc : (calc_crc32 orig_buf 0).toNat < 256 ^ 4 := UInt32.toNat_lt _
  rw [hout]
  simp only [hmod, List.take_length, List.append_assoc]
  rw [read_record_path ⟨by simp only; omega, (by decide : 0 < 256 ^ 1), hmode, by simp only; omega,
    by simp only; omega, hcrc⟩ htext rfl]
  by_cases hlong : path.length ≤ 1023
  -- stored as it is, or compressed: both give the buffer back
  · have hdata : restore_data uninit true
        ⟨path.length, 0, mode, orig_buf.length, payload.length, (calc_crc32 orig_buf 0).toNat⟩
        payload rest = some orig_buf := by
      rcases hpayload with rfl | ⟨hlt, hdecode⟩
      · exact if_pos rfl
      · rw [restore_data, if_neg (by simp only; omega), if_pos rfl, hdecode]
        exact congrArg some (fill_eq rfl)
    -- the two sizes that are asked of `malloc` do not wrap
    have hwrap : ∀ n ≤ orig_buf.length, (n + 64) % 2 ^ 64 = n + 64 := by
      intro n hn
      omega
    rw [if_neg (by omega), if_neg (not_not.mpr rfl), if_pos hlong]
    simp only [hwrap _ hle, hwrap _ le_rfl, hmalloc _ (Nat.add_le_add_right hle 64),
      hmalloc _ le_rfl, Bool.and_self, if_true]
    rw [if_neg (by omega)]
    simp only [List.take_left, List.drop_left, fill_eq, hdata, Option.map_some, decide_true]
  · rw [if_pos (by omega), if_neg hlong]

/-- **One record.** An entry comes back as it was, unless its path has no room. -/
theorem read_record_write {e : archive_entry} (he : e.Emitted)
    (hmalloc : ∀ n ≤ e.data.length + 64, malloc n = true) {out : List UInt8}
    (h : e.write = some out) (rest : List UInt8) :
    read_record malloc uninit true (out ++ rest)
      = if e.path.length ≤ 1023 then some (e.record, rest) else none := by
  unfold archive_entry.write at h
  unfold archive_entry.record
  by_cases hdir : e.is_dir = true
  · rw [if_pos hdir] at h ⊢
    obtain rfl := Option.some.inj h
    exact read_record_dir he.path_text he.path_le he.mode_lt rest
  · rw [if_neg hdir] at h ⊢
    obtain ⟨packed, hpacked, rfl⟩ := Option.map_eq_some_iff.mp h
    exact read_record_file he.path_text he.path_le he.mode_lt he.size_lt hmalloc hpacked rest

theorem write_length {e : archive_entry} {out : List UInt8} (h : e.write = some out) :
    entry_header_size ≤ out.length := by
  unfold archive_entry.write at h
  split_ifs at h
  · obtain rfl := Option.some.inj h
    rw [pack_dir, List.length_append, entry_header_length]
    omega
  · obtain ⟨packed, hpacked, rfl⟩ := Option.map_eq_some_iff.mp h
    obtain ⟨payload, -, -, hout⟩ := pack_file_payload hpacked
    rw [hout, List.length_append, entry_header_length]
    omega

/-- All records: they come back, unless one of the paths has no room. -/
theorem read_records_write {es : List archive_entry} (hes : ∀ e ∈ es, archive_entry.Emitted e)
    (hmalloc : ∀ e ∈ es, ∀ n ≤ e.data.length + 64, malloc n = true) {out : List UInt8}
    (h : write_entries es = some out) :
    read_records malloc uninit true out
      = if ∀ e ∈ es, e.path.length ≤ 1023 then some (es.map archive_entry.record) else none := by
  induction es generalizing out with
  | nil =>
      obtain rfl := Option.some.inj h
      rw [read_records, dif_neg (by decide), if_pos (by simp)]
      rfl
  | cons e es ih =>
      obtain ⟨first, hfirst, hmap⟩ := Option.bind_eq_some_iff.mp h
      obtain ⟨rest, hrest, rfl⟩ := Option.map_eq_some_iff.mp hmap
      rw [List.forall_mem_cons] at hes hmalloc
      have hhead : read_record malloc uninit true (first ++ rest)
          = if e.path.length ≤ 1023 then some (e.record, rest) else none :=
        read_record_write hes.1 hmalloc.1 hfirst rest
      have htail := ih hes.2 hmalloc.2 hrest
      have hlen := write_length hfirst
      rw [read_records, dif_pos (by rw [List.length_append]; omega)]
      -- a path without room ends the extraction at its record
      by_cases hroom : e.path.length ≤ 1023
      · rw [if_pos hroom] at hhead
        split
        · rename_i hnone
          rw [hhead] at hnone
          cases hnone
        · rename_i r rest' hsome
          rw [hhead] at hsome
          cases hsome
          rw [htail]
          simp only [List.forall_mem_cons, hroom, true_and]
          split_ifs <;> rfl
      · rw [if_neg hroom] at hhead
        rw [if_neg fun hall => hroom (hall e List.mem_cons_self)]
        split
        · rfl
        · rename_i r rest' hsome
          rw [hhead] at hsome
          cases hsome

theorem archive_header_length (t : pack_totals) : (archive_header t).bytes.length = 32 := by
  simp [archive_header, ZpackArchiveHeader.bytes, ZPACK_MAGIC_V2]

theorem archive_records_entries (t : pack_totals) {es : List archive_entry}
    (hes : ∀ e ∈ es, archive_entry.Emitted e)
    (hmalloc : ∀ e ∈ es, ∀ n ≤ e.data.length + 64, malloc n = true) {archive : List UInt8}
    (h : entries_archive t es = some archive) :
    archive_records malloc uninit archive
      = if ∀ e ∈ es, e.path.length ≤ 1023 then some (es.map archive_entry.record) else none := by
  obtain ⟨out, hout, rfl⟩ := Option.map_eq_some_iff.mp h
  have hlen := archive_header_length t
  have hmagic : ((archive_header t).bytes ++ out).take 8 = ZPACK_MAGIC_V2 := by
    rw [List.take_append_of_le_length (by omega)]
    exact List.take_left' rfl
  have hopens : archive_opens ((archive_header t).bytes ++ out) :=
    ⟨by rw [List.length_append]; omega, Or.inl hmagic⟩
  rw [archive_records, if_pos hopens, hmagic, List.drop_left' hlen, decide_eq_true rfl]
  exact read_records_write hes hmalloc hout

end

/-! ## The round trip -/

/-- The writer writes the entries, and the reader reads them from what was written. -/
def RoundTrips (malloc : ℕ → Bool) (uninit : List UInt8 → ℕ → UInt8) (t : pack_totals)
    (es : List archive_entry) : Prop :=
  ∃ archive, entries_archive t es = some archive
    ∧ archive_records malloc uninit archive = some (es.map archive_entry.record)

/-- The encoder stays in the writer's buffer. -/
def archive_entry.Packs (e : archive_entry) : Prop :=
  e.is_dir = true
    ∨ (zpack2_compress e.data (e.data.length + 2048)).length ≤ e.data.length + 2048

theorem write_isSome_iff (e : archive_entry) : (∃ out, e.write = some out) ↔ e.Packs := by
  unfold archive_entry.write archive_entry.Packs
  by_cases hdir : e.is_dir = true
  · simp [hdir]
  · rw [if_neg hdir, or_iff_right hdir]
    unfold pack_file
    by_cases hover : e.data.length + 2048
        < (zpack2_compress e.data (e.data.length + 2048)).length
    · simp only [if_pos hover, Option.map_none, exists_false, false_iff, reduceCtorEq]
      omega
    · simp only [if_neg hover, Option.map_some, Option.some.injEq, exists_eq', true_iff]
      omega

theorem write_entries_isSome_iff (es : List archive_entry) :
    (∃ out, write_entries es = some out) ↔ ∀ e ∈ es, archive_entry.Packs e := by
  induction es with
  | nil => simp [write_entries]
  | cons e es ih =>
      rw [List.forall_mem_cons, ← ih, ← write_isSome_iff]
      constructor
      · rintro ⟨out, h⟩
        obtain ⟨first, hfirst, hmap⟩ := Option.bind_eq_some_iff.mp h
        obtain ⟨rest, hrest, rfl⟩ := Option.map_eq_some_iff.mp hmap
        exact ⟨⟨first, hfirst⟩, rest, hrest⟩
      · rintro ⟨⟨first, hfirst⟩, rest, hrest⟩
        exact ⟨first ++ rest, by simp [write_entries, hfirst, hrest]⟩

/-- **Framing.** Entries that can be emitted come back, path by path and byte by byte, exactly
when every path fits the reader's buffer and every file is packed within the writer's. -/
theorem archive_round_trip_iff (malloc : ℕ → Bool) (uninit : List UInt8 → ℕ → UInt8)
    (t : pack_totals) (es : List archive_entry) (hes : ∀ e ∈ es, archive_entry.Emitted e)
    (hmalloc : ∀ e ∈ es, ∀ n ≤ e.data.length + 64, malloc n = true) :
    RoundTrips malloc uninit t es ↔ ∀ e ∈ es, e.path.length ≤ 1023 ∧ archive_entry.Packs e := by
  rw [forall₂_and, ← write_entries_isSome_iff]
  constructor
  · rintro ⟨archive, harchive, hread⟩
    obtain ⟨out, hout, -⟩ := Option.map_eq_some_iff.mp harchive
    refine ⟨?_, out, hout⟩
    by_contra hlong
    rw [archive_records_entries t hes hmalloc harchive, if_neg hlong] at hread
    cases hread
  · rintro ⟨hroom, out, hout⟩
    have harchive : entries_archive t es = some ((archive_header t).bytes ++ out) := by
      rw [entries_archive, hout]
      rfl
    exact ⟨_, harchive, by rw [archive_records_entries t hes hmalloc harchive, if_pos hroom]⟩

/-- Files that are not too long are packed in any case. -/
theorem packs_of_length_lt {e : archive_entry} (h : e.data.length < 522000) : e.Packs :=
  Or.inr ((zpack2_compress_length_le e.data _).trans
    ((literal_cost_le_iff (by omega : 2 ≤ 2048)).mpr h))

/-- A directory and a file in it. -/
def small_tree : List archive_entry :=
  [⟨[100], true, 0o040755, []⟩, ⟨[100, 47, 120], false, 0o100644, [1, 2, 3]⟩]

theorem small_tree_emitted : ∀ e ∈ small_tree, archive_entry.Emitted e := by
  intro e he
  simp only [small_tree, List.mem_cons, List.not_mem_nil, or_false] at he
  rcases he with rfl | rfl <;> exact ⟨by decide, by decide, by decide, by decide⟩

theorem small_tree_round_trip :
    RoundTrips (fun _ => true) (fun _ _ => 0) ⟨2, 3, 3⟩ small_tree := by
  refine (archive_round_trip_iff _ _ _ small_tree small_tree_emitted fun _ _ _ _ => rfl).mpr ?_
  intro e he
  simp only [small_tree, List.mem_cons, List.not_mem_nil, or_false] at he
  rcases he with rfl | rfl <;> exact ⟨by decide, packs_of_length_lt (by decide)⟩

/-- Directories in directories, `k` deep, with names of 255 bytes. -/
def deep_path : ℕ → List UInt8
  | 0 => List.replicate 255 97
  | k + 1 => deep_path k ++ slash :: List.replicate 255 97

def deep_tree (k : ℕ) : List archive_entry :=
  (List.range k).map fun i => ⟨deep_path i, true, 0o040755, []⟩

theorem deep_path_length (k : ℕ) : (deep_path k).length = 256 * k + 255 := by
  induction k with
  | zero => exact List.length_replicate
  | succ k ih =>
      rw [deep_path, List.length_append, ih, List.length_cons, List.length_replicate]
      omega

theorem deep_path_text (k : ℕ) : 0 ∉ deep_path k := by
  have hname : (0 : UInt8) ∉ List.replicate 255 (97 : UInt8) :=
    fun hmem => absurd (List.eq_of_mem_replicate hmem) (by decide)
  induction k with
  | zero => exact hname
  | succ k ih =>
      rw [deep_path, List.mem_append, List.mem_cons, not_or, not_or]
      exact ⟨ih, by decide, hname⟩

/-- The path of the fifth directory has 1279 bytes. -/
theorem deep_tree_overruns :
    ¬∀ (malloc : ℕ → Bool) (uninit : List UInt8 → ℕ → UInt8) (t : pack_totals)
      (es : List archive_entry), (∀ e ∈ es, archive_entry.Emitted e) →
      (∀ e ∈ es, ∀ n ≤ e.data.length + 64, malloc n = true) → RoundTrips malloc uninit t es := by
  intro h
  have hes : ∀ e ∈ deep_tree 5, archive_entry.Emitted e := by
    intro e he
    obtain ⟨i, hi, rfl⟩ := List.mem_map.mp he
    rw [List.mem_range] at hi
    have hlen := deep_path_length i
    exact ⟨deep_path_text i, by simp only; omega, by simp only; decide, Nat.two_pow_pos 63⟩
  obtain ⟨archive, harchive, hread⟩ :=
    h (fun _ => true) (fun _ _ => 0) ⟨5, 0, 0⟩ (deep_tree 5) hes fun _ _ _ _ => rfl
  have hlong : ¬∀ e ∈ deep_tree 5, e.path.length ≤ 1023 := by
    intro hall
    have hlast := hall ⟨deep_path 4, true, 0o040755, []⟩
      (List.mem_map.mpr ⟨4, List.mem_range.mpr (by omega), rfl⟩)
    rw [deep_path_length] at hlast
    omega
  rw [archive_records_entries ⟨5, 0, 0⟩ hes (fun _ _ _ _ => rfl) harchive, if_neg hlong] at hread
  cases hread

end SysInC.Zpack
