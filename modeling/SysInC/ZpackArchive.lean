/-
The archives of `zpack.c`: the bytes that `create_archive` and `pack_recursive` write, and what
`extract_archive` does for a stream of bytes.

Reads and writes of regular files transfer all that they are asked for, or what is left of the
file. The writer's allocations succeed; for the reader `malloc` is a parameter, and so is what
stands in memory that nothing was written to (`uninit`, by what was left of the archive when
the memory was taken). `none` is a run that leaves a buffer.
-/
import SysInC.LittleEndian
import SysInC.ZpackLzss

set_option autoImplicit false

namespace SysInC.Zpack

open SysInC.Lz77

def slash : UInt8 := 47
def dot : UInt8 := 46

/-- `"ZPACK01\0"`. -/
def ZPACK_MAGIC_V1 : List UInt8 := [90, 80, 65, 67, 75, 48, 49, 0]

/-- `"ZPACK02\0"`. -/
def ZPACK_MAGIC_V2 : List UInt8 := [90, 80, 65, 67, 75, 48, 50, 0]

/-- What `snprintf` leaves of a text in a buffer of `size` bytes. -/
def snprintf (size : ℕ) (text : List UInt8) : List UInt8 := text.take (size - 1)

/-- The text in a buffer. -/
def c_string (buf : List UInt8) : List UInt8 := buf.takeWhile (· ≠ 0)

/-! ## CRC-32 -/

def crc_bit (crc : UInt32) : UInt32 := (crc >>> 1) ^^^ (0xEDB88320 &&& (0 - (crc &&& 1)))

def crc_byte (crc : UInt32) (b : UInt8) : UInt32 := crc_bit^[8] (crc ^^^ b.toUInt32)

def calc_crc32 (data : List UInt8) (current_crc : UInt32) : UInt32 :=
  ~~~data.foldl crc_byte (~~~current_crc)

/-! ## Headers -/

structure ZpackArchiveHeader where
  magic : List UInt8
  num_entries : ℕ
  total_orig_sz : ℕ
  total_comp_sz : ℕ
  archive_crc : ℕ

def ZpackArchiveHeader.bytes (hdr : ZpackArchiveHeader) : List UInt8 :=
  hdr.magic ++ (le_bytes 4 hdr.num_entries ++ (le_bytes 8 hdr.total_orig_sz
    ++ (le_bytes 8 hdr.total_comp_sz ++ le_bytes 4 hdr.archive_crc)))

structure ZpackEntryHeader where
  path_len : ℕ
  is_dir : ℕ
  mode : ℕ
  orig_size : ℕ
  comp_size : ℕ
  file_crc : ℕ

/-- `sizeof(ZpackEntryHeader)`, packed. -/
def entry_header_size : ℕ := 27

def ZpackEntryHeader.bytes (eh : ZpackEntryHeader) : List UInt8 :=
  le_bytes 2 eh.path_len ++ (le_bytes 1 eh.is_dir ++ (le_bytes 4 eh.mode
    ++ (le_bytes 8 eh.orig_size ++ (le_bytes 8 eh.comp_size ++ le_bytes 4 eh.file_crc))))

def ZpackEntryHeader.of_bytes (record : List UInt8) : ZpackEntryHeader where
  path_len := le_field record 0 2
  is_dir := le_field record 2 1
  mode := le_field record 3 4
  orig_size := le_field record 7 8
  comp_size := le_field record 15 8
  file_crc := le_field record 23 4

/-! ## The writer -/

structure stat where
  st_mode : ℕ
  st_size : ℕ

def S_ISDIR (mode : ℕ) : Bool := mode &&& 0o170000 = 0o040000
def S_ISREG (mode : ℕ) : Bool := mode &&& 0o170000 = 0o100000

/-- What `strrchr(target, '/') + 1` points to, or the whole target. -/
def base_name (target : List UInt8) : List UInt8 :=
  (target.reverse.takeWhile (· ≠ slash)).reverse

/-- The files that are packed. -/
structure file_system where
  lstat : List UInt8 → Option stat
  /-- The names in a directory, where it can be opened. -/
  opendir : List UInt8 → Option (List (List UInt8))
  /-- A buffer of the size after the file was opened and read into it. -/
  orig_buf : List UInt8 → ℕ → List UInt8
  mode_lt : ∀ path st, lstat path = some st → st.st_mode < 2 ^ 32
  size_lt : ∀ path st, lstat path = some st → st.st_size < 2 ^ 63
  /-- `NAME_MAX`. -/
  name_le : ∀ path st, lstat path = some st → (base_name path).length ≤ 255
  names_text : ∀ path names, opendir path = some names → ∀ name ∈ names, 0 ∉ name
  orig_buf_length : ∀ path n, (orig_buf path n).length = n

/-- The counters that end up in the archive's header. -/
structure pack_totals where
  entry_counter : ℕ
  total_orig : ℕ
  total_comp : ℕ

/-- A regular file: its record, and the size of the payload. -/
def pack_file (rel_path : List UInt8) (mode : ℕ) (orig_buf : List UInt8) :
    Option (List UInt8 × ℕ) :=
  let st_size := orig_buf.length
  let comp_buf := zpack2_compress orig_buf (st_size + 2048)
  if st_size + 2048 < comp_buf.length then none
  else
    let payload := if comp_buf.length = 0 ∨ st_size ≤ comp_buf.length then orig_buf else comp_buf
    let eh : ZpackEntryHeader :=
      { path_len := rel_path.length % 65536, is_dir := 0, mode := mode, orig_size := st_size,
        comp_size := payload.length, file_crc := (calc_crc32 orig_buf 0).toNat }
    some (eh.bytes ++ (rel_path.take eh.path_len ++ payload), payload.length)

/-- The header and the path of a directory. -/
def pack_dir (rel_path : List UInt8) (mode : ℕ) : List UInt8 :=
  let eh : ZpackEntryHeader :=
    { path_len := rel_path.length % 65536, is_dir := 1, mode := mode, orig_size := 0,
      comp_size := 0, file_crc := 0 }
  eh.bytes ++ rel_path.take eh.path_len

/-- `rel_path` for a name below the prefix. -/
def entry_path ( rel_prefix d_name : List UInt8) : List UInt8 :=
  if 0 < rel_prefix.length then snprintf 2048 ( rel_prefix ++ slash :: d_name)
  else snprintf 2048 d_name

/-- One name of a directory; `recurse` packs a directory below it. -/
def pack_name (fs : file_system)
    (recurse : List UInt8 → List UInt8 → pack_totals → Option (List UInt8 × pack_totals))
    (base_dir rel_prefix d_name : List UInt8) (t : pack_totals) :
    Option (List UInt8 × pack_totals) :=
  if d_name = [dot] ∨ d_name = [dot, dot] then some ([], t)
  else
    let full_path := snprintf 2048 (base_dir ++ slash :: d_name)
    let rel_path := entry_path rel_prefix d_name
    match fs.lstat full_path with
    | none => some ([], t)
    | some st =>
      if S_ISDIR st.st_mode then
        (recurse full_path rel_path { t with entry_counter := t.entry_counter + 1 }).map
          fun r => (pack_dir rel_path st.st_mode ++ r.1, r.2)
      else if S_ISREG st.st_mode then
        (pack_file rel_path st.st_mode (fs.orig_buf full_path st.st_size)).map fun r =>
          (r.1, { entry_counter := t.entry_counter + 1, total_orig := t.total_orig + st.st_size,
                  total_comp := t.total_comp + r.2 })
      else some ([], t)

/-- The `readdir` loop. -/
def pack_names (fs : file_system)
    (recurse : List UInt8 → List UInt8 → pack_totals → Option (List UInt8 × pack_totals))
    (base_dir rel_prefix : List UInt8) :
    List (List UInt8) → pack_totals → Option (List UInt8 × pack_totals)
  | [], t => some ([], t)
  | d_name :: names, t =>
    (pack_name fs recurse base_dir rel_prefix d_name t).bind fun r =>
      (pack_names fs recurse base_dir rel_prefix names r.2).map fun r' => (r.1 ++ r'.1, r'.2)

/-- The fuel bounds the nesting of directories; what it returns is not looked at. -/
def pack_recursive (fs : file_system) :
    ℕ → List UInt8 → List UInt8 → pack_totals → Option (List UInt8 × pack_totals)
  | 0, _, _, _ => none
  | fuel + 1, base_dir, rel_prefix, t =>
    match fs.opendir base_dir with
    | none => some ([], t)
    | some names => pack_names fs (pack_recursive fs fuel) base_dir rel_prefix names t

/-- The header with its checksum. -/
def archive_header (t : pack_totals) : ZpackArchiveHeader :=
  let hdr : ZpackArchiveHeader := ⟨ZPACK_MAGIC_V2, t.entry_counter, t.total_orig, t.total_comp, 0⟩
  { hdr with archive_crc := (calc_crc32 (hdr.bytes.take 28) 0).toNat }

/-- The archive of a target, where one is made. -/
def create_archive (fs : file_system) (fuel : ℕ) (target : List UInt8) : Option (List UInt8) :=
  (fs.lstat target).bind fun st =>
    let packed :=
      if S_ISDIR st.st_mode then pack_recursive fs fuel target [] ⟨0, 0, 0⟩
      else (pack_file (base_name target) st.st_mode (fs.orig_buf target st.st_size)).map fun r =>
        (r.1, ⟨1, st.st_size, r.2⟩)
    packed.map fun r => (archive_header r.2).bytes ++ r.1

/-! ## The reader -/

/-- `n` bytes of memory after `got` was read into them. -/
def fill (uninit : ℕ → UInt8) (n : ℕ) (got : List UInt8) : List UInt8 :=
  got ++ (List.range' got.length (n - got.length)).map uninit

/-- One turn of the loop of `extract_archive`. -/
inductive extract_record where
  | dir (rel_path : List UInt8) (mode : ℕ)
  | file (rel_path : List UInt8) (mode : ℕ) (orig_buf : List UInt8) (crc_ok : Bool)
  /-- A file for which there is no memory. Its payload is not read. -/
  | refused (rel_path : List UInt8)

section

variable (malloc : ℕ → Bool) (uninit : List UInt8 → ℕ → UInt8)

/-- The contents of `orig_buf`. -/
def restore_data (is_v2 : Bool) (eh : ZpackEntryHeader) (comp_buf rest : List UInt8) :
    Option (List UInt8) :=
  if eh.comp_size = eh.orig_size then some comp_buf
  else if is_v2 then
    some (fill (uninit rest) eh.orig_size (zpack2_decompress comp_buf eh.orig_size).2)
  else
    (lzss1_decompress comp_buf fun i : Fin eh.orig_size => uninit rest i).map fun r =>
      List.ofFn r.2

/-- A record, from its header on. The size of a buffer that passes `2 ^ 64` wraps, and the
buffer is left. -/
def read_record (is_v2 : Bool) (stream : List UInt8) :
    Option (extract_record × List UInt8) :=
  let eh := ZpackEntryHeader.of_bytes (stream.take entry_header_size)
  let stream := stream.drop entry_header_size
  if 1024 ≤ eh.path_len then none
  else
    let rel_path := c_string (fill (uninit stream) eh.path_len (stream.take eh.path_len))
    let stream := stream.drop eh.path_len
    if eh.is_dir ≠ 0 then some (.dir rel_path eh.mode, stream)
    else if malloc ((eh.comp_size + 64) % 2 ^ 64) && malloc ((eh.orig_size + 64) % 2 ^ 64) then
      if 2 ^ 64 ≤ eh.comp_size + 64 ∨ 2 ^ 64 ≤ eh.orig_size + 64 then none
      else
        let comp_buf := fill (uninit stream) eh.comp_size (stream.take eh.comp_size)
        let stream := stream.drop eh.comp_size
        (restore_data uninit is_v2 eh comp_buf stream).map fun orig_buf =>
          (.file rel_path eh.mode orig_buf ((calc_crc32 orig_buf 0).toNat = eh.file_crc), stream)
    else some (.refused rel_path, stream)

theorem read_record_lt {is_v2 : Bool} {stream rest : List UInt8} {r : extract_record}
    (hlen : entry_header_size ≤ stream.length)
    (h : read_record malloc uninit is_v2 stream = some (r, rest)) :
    rest.length < stream.length := by
  have hsize : 0 < entry_header_size := by decide
  simp only [read_record] at h
  split_ifs at h <;> simp only [Option.some.injEq, Option.map_eq_some_iff, Prod.mk.injEq] at h
  on_goal 2 => obtain ⟨orig_buf, -, h⟩ := h
  all_goals
    rw [← h.2]
    simp only [List.length_drop]
    omega

def read_records (is_v2 : Bool) (stream : List UInt8) : Option (List extract_record) :=
  if _hlen : entry_header_size ≤ stream.length then
    match _h : read_record malloc uninit is_v2 stream with
    | none => none
    | some (r, rest) => (read_records is_v2 rest).map (r :: ·)
  else some []
termination_by stream.length
decreasing_by exact read_record_lt malloc uninit _hlen _h

/-- Is there a header, with one of the two magics? -/
def archive_opens (archive : List UInt8) : Prop :=
  32 ≤ archive.length ∧ (archive.take 8 = ZPACK_MAGIC_V2 ∨ archive.take 8 = ZPACK_MAGIC_V1)

instance (archive : List UInt8) : Decidable (archive_opens archive) :=
  inferInstanceAs (Decidable (_ ∧ _))

/-- The records of an archive. -/
def archive_records (archive : List UInt8) : Option (List extract_record) :=
  if archive_opens archive then
    read_records malloc uninit (archive.take 8 = ZPACK_MAGIC_V2) (archive.drop 32)
  else some []

/-! ## What is created -/

/-- A call for a path. A file that was written has its mode set again. -/
inductive effect where
  | mkdir (path : List UInt8) (mode : ℕ)
  | create (path : List UInt8) (data : List UInt8) (mode : ℕ)

def effect.path : effect → List UInt8
  | .mkdir path _ => path
  | .create path _ _ => path

/-- What stands before each slash of `rest`, behind what was passed. -/
def parents (passed : List UInt8) : List UInt8 → List (List UInt8)
  | [] => []
  | c :: rest =>
    if c = slash then passed :: parents (passed ++ [c]) rest else parents (passed ++ [c]) rest

/-- The loop begins behind the first character. -/
def make_parent_dirs (filepath : List UInt8) : List effect :=
  let temp := filepath.take 1023
  (parents (temp.take 1) (temp.drop 1)).map fun p => .mkdir p 0o755

def full_dest (dest_dir rel_path : List UInt8) : List UInt8 :=
  if dest_dir = [dot] then snprintf 2048 rel_path
  else snprintf 2048 (dest_dir ++ slash :: rel_path)

def restore (dest_dir : List UInt8) : extract_record → List effect
  | .dir rel_path mode => [.mkdir (full_dest dest_dir rel_path) mode]
  | .file rel_path mode orig_buf _ =>
    make_parent_dirs (full_dest dest_dir rel_path)
      ++ [.create (full_dest dest_dir rel_path) orig_buf mode]
  | .refused rel_path => make_parent_dirs (full_dest dest_dir rel_path)

def extract_archive (archive dest_dir : List UInt8) : Option (List effect) :=
  if archive_opens archive then
    (archive_records malloc uninit archive).map fun rs =>
      .mkdir dest_dir 0o755 :: rs.flatMap (restore dest_dir)
  else some []

end

end SysInC.Zpack
