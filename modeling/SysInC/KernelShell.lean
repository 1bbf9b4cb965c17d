/-
The commands `write`, `touch`, `mkdir` and `rm` of the shell in `test_os/kernel.c`.

Each names a path, resolves it against the current directory, and changes both file systems; what
they return is not looked at. `kvfs.c` spells the path anew, `kdiskfs.c` takes it as it is.
-/
import SysInC.KdiskfsPersist

set_option autoImplicit false

namespace SysInC.KernelShell

open SysInC.Kvfs SysInC.Kdiskfs

def space : UInt8 := 32

/-! ## `resolve_path` -/

/-- The branch of `..`. A `current_dir` that fills `out` leaves it without a NUL; `none` is a search
for a slash that runs out of it. -/
def resolve_parent (current_dir : List UInt8) (max_len : ℕ) : Option (List UInt8) :=
  if current_dir = literal "/" then some (literal "/")
  else
    let out := kstrncpy current_dir (max_len - 1)
    if slash ∈ out.drop 1 then some (out.take 1 ++ (out.drop 1).takeWhile (· ≠ slash))
    else if out.length < max_len - 1 then some (literal "/")
    else none

def resolve_path (current_dir input_path : List UInt8) (max_len : ℕ) : Option (List UInt8) :=
  if input_path = [] then some (kstrncpy current_dir (max_len - 1))
  else if input_path.head? = some slash then some (kstrncpy input_path (max_len - 1))
  else if input_path = literal "." then some (kstrncpy current_dir (max_len - 1))
  else if input_path = literal ".." then resolve_parent current_dir max_len
  else if current_dir = literal "/" then some ((slash :: input_path).take (max_len - 1))
  else some ((current_dir ++ slash :: input_path).take (max_len - 1))

/-! ## The commands -/

inductive file_command where
  | usage
  | write (target_file text : List UInt8)
  | touch (target : List UInt8)
  | mkdir (target : List UInt8)
  | rm (target : List UInt8)
  deriving DecidableEq

/-- `while (*args == ' ') args++;` -/
def skip_spaces (args : List UInt8) : List UInt8 := args.dropWhile (· = space)

/-- The arguments of `write`. A target that does not fit its buffer is dropped. -/
def file_command.of_args (args : List UInt8) : file_command :=
  match args.dropWhile (· ≠ space) with
  | [] => .usage
  | _ :: text =>
    let target := args.takeWhile (· ≠ space)
    .write (if target.length < KVFS_MAX_PATH then target else []) text

/-- The branches of `execute_cli_command` for the four; `none` is another command. -/
def file_command.of_line (cmd : List UInt8) : Option file_command :=
  if literal "write " <+: cmd then some (.of_args (skip_spaces (cmd.drop 6)))
  else if literal "touch " <+: cmd then some (.touch (skip_spaces (cmd.drop 6)))
  else if literal "mkdir " <+: cmd then some (.mkdir (skip_spaces (cmd.drop 6)))
  else if literal "rm " <+: cmd then some (.rm (skip_spaces (cmd.drop 3)))
  else none

/-- The two file systems. -/
structure shell where
  vfs : kvfs
  ksfs : kdiskfs

/-- `kvfs_write(resolved, text, tlen); kdiskfs_save_file(resolved, text, tlen, …);` -/
def write_file (abi : Kmem.Abi) (copy : Option (ℕ × List UInt8)) (sh : shell)
    (resolved text : List UInt8) : Option shell :=
  (kvfs_write sh.vfs copy (some resolved) (some text) text.length).map fun r =>
    ⟨r.1, (kdiskfs_save_file abi sh.ksfs (some resolved) (some text) text.length KVFS_TYPE_FILE
      mode_0644).1⟩

/-- A command in a directory. `copy` is what the `kmalloc` of its `kvfs_write` gives. -/
def execute (abi : Kmem.Abi) (current_dir : List UInt8) (copy : Option (ℕ × List UInt8))
    (sh : shell) : file_command → Option shell
  | .usage => some sh
  | .write target_file text =>
    (resolve_path current_dir target_file KVFS_MAX_PATH).bind fun resolved =>
      write_file abi copy sh resolved text
  | .touch target =>
    (resolve_path current_dir target KVFS_MAX_PATH).bind fun resolved =>
      write_file abi copy sh resolved []
  | .mkdir target =>
    (resolve_path current_dir target KVFS_MAX_PATH).bind fun resolved =>
      (kvfs_mkdir sh.vfs (some resolved)).map fun r =>
        ⟨r.1, (kdiskfs_save_file abi sh.ksfs (some resolved) none 0 KVFS_TYPE_DIR mode_0755).1⟩
  | .rm target =>
    (resolve_path current_dir target KVFS_MAX_PATH).bind fun resolved =>
      (kvfs_delete sh.vfs (some resolved)).map fun r =>
        ⟨r.1, (kdiskfs_delete_file sh.ksfs (some resolved)).1⟩

/-! ## Runs -/

/-- What the user has made: the contents, by the spelling of `kvfs.c`. -/
abbrev user_files := List UInt8 → Option (List UInt8)

/-- The user has given `target` the contents `o`. -/
def user_files.put (m : user_files) (current_dir target : List UInt8) (o : Option (List UInt8)) :
    user_files :=
  match resolve_path current_dir target KVFS_MAX_PATH with
  | some resolved => Function.update m (vfs_map.key (some resolved)) o
  | none => m

def user_files.after (m : user_files) (current_dir : List UInt8) : file_command → user_files
  | .usage => m
  | .write target_file text => m.put current_dir target_file (some text)
  | .touch target | .mkdir target => m.put current_dir target (some [])
  | .rm target => m.put current_dir target none

/-- The line is a C string in its buffer `cli_input`, the directory a C string, and `kmalloc`
answers NULL or a new block. -/
def LegalLine (abi : Kmem.Abi) (current_dir : List UInt8) (copy : Option (ℕ × List UInt8))
    (sh : shell) (cmd : List UInt8) : Prop :=
  cmd.length < 128 ∧ 0 ∉ cmd ∧ 0 ∉ current_dir
    ∧ match file_command.of_line cmd with
      | some (.write _ text) => kmalloc_gives abi sh.vfs.heap (text.length + 1) copy
      | some (.touch _) => kmalloc_gives abi sh.vfs.heap 1 copy
      | _ => True

/-- The disk knows the file that `kvfs.c` takes `resolved` for by no other spelling. -/
def SameSpelling (sh : shell) (resolved : List UInt8) : Prop :=
  ∀ e ∈ sh.ksfs.disk_entries, e.is_used ≠ 0 → entry_key e = vfs_map.key (some resolved) →
    e.path = resolved

/-- The path fits a record, and a new file has a record in the sectors of the table and a sector
of the disk. -/
def DiskHolds (sh : shell) (resolved : List UInt8) : Prop :=
  resolved.length ≤ sizeof_path - 1
    ∧ (find_slot (is_entry (some resolved)) sh.ksfs.disk_entries = none →
      sh.ksfs.super_block.next_free_lba + 1 ≤ lba_mod
        ∧ ∃ pre e post, find_slot is_vacant sh.ksfs.disk_entries = some (pre, e, post)
          ∧ pre.length < table_room)

/-- Both file systems take the command for the same file, and neither refuses it. -/
def file_command.Taken (current_dir : List UInt8) (copy : Option (ℕ × List UInt8)) (sh : shell) :
    file_command → Prop
  | .usage => True
  | .write target _ | .touch target =>
    ∃ resolved, resolve_path current_dir target KVFS_MAX_PATH = some resolved
      ∧ SameSpelling sh resolved ∧ DiskHolds sh resolved ∧ copy ≠ none
      ∧ (kvfs_open sh.vfs (some resolved) = none → sh.vfs.vfs_node_count < KVFS_MAX_NODES)
  | .mkdir target =>
    ∃ resolved, resolve_path current_dir target KVFS_MAX_PATH = some resolved
      ∧ SameSpelling sh resolved ∧ DiskHolds sh resolved
      ∧ sh.vfs.vfs_node_count < KVFS_MAX_NODES
  | .rm target =>
    ∃ resolved, resolve_path current_dir target KVFS_MAX_PATH = some resolved
      ∧ SameSpelling sh resolved

/-- The runs of the shell whose commands are all taken, from a start with a formatted disk on,
and what the user has made in them. -/
inductive ShellRun (abi : Kmem.Abi) : shell → user_files → Prop
  | boot {heap : Heap} {v : kvfs} {s : kdiskfs} (hinit : kvfs_init (.start heap) = some v)
    (hpresent : s.drive_present = true) : ShellRun abi ⟨v, (kdiskfs_format s).1⟩ fun _ => none
  | step {sh sh' : shell} {m : user_files} {current_dir cmd : List UInt8}
    {copy : Option (ℕ × List UInt8)} {c : file_command} (h : ShellRun abi sh m)
    (hlegal : LegalLine abi current_dir copy sh cmd) (hcmd : file_command.of_line cmd = some c)
    (htaken : c.Taken current_dir copy sh) (hexec : execute abi current_dir copy sh c = some sh') :
    ShellRun abi sh' (m.after current_dir c)

/-- What a reader finds at a key. -/
def contents_at (m : vfs_map) (k : List UInt8) : Option (List UInt8) :=
  (m k).map fun x => x.contents.getD []

/-- Where the user has a file, both file systems hold what was written there; elsewhere the disk
has nothing, and the live system nothing that is not a boot file. -/
structure ShellOk (sh : shell) (m : user_files) : Prop where
  vfs : Ok sh.vfs
  disk : DiskOk sh.ksfs
  names : (keys_used is_file entry_key sh.ksfs.disk_entries).Nodup
  saved : ∀ k, (disk_files entry_key sh.ksfs k).map file.contents = m k
  live : ∀ k, m k ≠ none → contents_at sh.vfs.map k = m k
  rest : ∀ k, m k = none → vfs_map.boot k = none → sh.vfs.map k = none

variable {abi : Kmem.Abi} {sh : shell} {m : user_files} {resolved : List UInt8}

/-- A key becomes the same thing in both file systems. -/
theorem ShellOk.update (h : ShellOk sh m) {v : kvfs} {s : kdiskfs} {k : List UInt8}
    {x : Option entry} {f : Option file} {o : Option (List UInt8)} (hv : Ok v) (hs : DiskOk s)
    (hnames : (keys_used is_file entry_key s.disk_entries).Nodup)
    (hmap : v.map = Function.update sh.vfs.map k x)
    (hfiles : disk_files entry_key s = Function.update (disk_files entry_key sh.ksfs) k f)
    (hx : x.map (fun x => x.contents.getD []) = o) (hf : f.map file.contents = o) :
    ShellOk ⟨v, s⟩ (Function.update m k o) := by
  refine ⟨hv, hs, hnames, fun j => ?_, fun j => ?_, fun j => ?_⟩
  · show (disk_files entry_key s j).map file.contents = _
    rw [hfiles]
    by_cases hj : j = k
    · rw [hj, Function.update_self, Function.update_self, hf]
    · rw [Function.update_of_ne hj, Function.update_of_ne hj]
      exact h.saved j
  · show _ → contents_at v.map j = _
    rw [contents_at, hmap]
    by_cases hj : j = k
    · rw [hj, Function.update_self, Function.update_self]
      exact fun _ => hx
    · rw [Function.update_of_ne hj, Function.update_of_ne hj]
      exact h.live j
  · show _ → _ → v.map j = none
    rw [hmap]
    by_cases hj : j = k
    · rw [hj, Function.update_self, Function.update_self]
      intro hnone _
      exact Option.map_eq_none_iff.mp (hx.trans hnone)
    · rw [Function.update_of_ne hj, Function.update_of_ne hj]
      exact h.rest j

/-! ## The texts of a line -/

theorem skip_spaces_suffix (args : List UInt8) : skip_spaces args <:+ args :=
  List.dropWhile_suffix _

theorem skip_spaces_drop_subset (cmd : List UInt8) (n : ℕ) : skip_spaces (cmd.drop n) ⊆ cmd :=
  ((skip_spaces_suffix _).trans (List.drop_suffix n cmd)).subset

/-- The path that a command names, as it stands in the line. -/
def file_command.target : file_command → List UInt8
  | .usage => []
  | .write target _ | .touch target | .mkdir target | .rm target => target

/-- The arguments of `write` stand one behind the other. -/
theorem of_args_texts (args : List UInt8) :
    (file_command.of_args args).target ⊆ args
      ∧ ∀ target text, file_command.of_args args = .write target text →
        text.length ≤ args.length := by
  unfold file_command.of_args
  split
  · exact ⟨List.nil_subset _, fun _ _ h => by cases h⟩
  · rename_i c text hrest
    constructor
    · show (if (args.takeWhile (· ≠ space)).length < KVFS_MAX_PATH then _ else []) ⊆ args
      split_ifs
      · exact List.takeWhile_subset _
      · exact List.nil_subset _
    · rintro target text' h
      cases h
      have hle := (List.dropWhile_suffix (l := args) fun b => decide (b ≠ space)).length_le
      rw [hrest, List.length_cons] at hle
      omega

theorem of_line_target {cmd : List UInt8} {c : file_command}
    (h : file_command.of_line cmd = some c) : c.target ⊆ cmd := by
  unfold file_command.of_line at h
  split_ifs at h
  · cases h
    exact List.Subset.trans (of_args_texts _).1 (skip_spaces_drop_subset cmd 6)
  · cases h
    exact skip_spaces_drop_subset cmd 6
  · cases h
    exact skip_spaces_drop_subset cmd 6
  · cases h
    exact skip_spaces_drop_subset cmd 3

theorem of_line_text {cmd target text : List UInt8}
    (h : file_command.of_line cmd = some (.write target text)) : text.length ≤ cmd.length := by
  unfold file_command.of_line at h
  split_ifs at h
  · rw [Option.some_inj] at h
    have hle := (of_args_texts _).2 target text h
    exact hle.trans (((skip_spaces_suffix _).trans (List.drop_suffix 6 cmd)).length_le)
  all_goals cases h

theorem kstrncpy_text {src : List UInt8} (n : ℕ) (h : 0 ∉ src) : 0 ∉ kstrncpy src n :=
  fun hmem => h (List.mem_of_mem_take hmem)

theorem resolve_parent_text {current_dir : List UInt8} {max_len : ℕ} (hdir : 0 ∉ current_dir)
    (h : resolve_parent current_dir max_len = some resolved) : 0 ∉ resolved := by
  have hroot : 0 ∉ literal "/" := by decide
  have hout := kstrncpy_text (max_len - 1) hdir
  unfold resolve_parent at h
  dsimp only at h
  split_ifs at h
  · cases h
    exact hroot
  · cases h
    rw [List.mem_append, not_or]
    exact ⟨fun hmem => hout (List.mem_of_mem_take hmem), fun hmem =>
      hout (List.mem_of_mem_drop ((List.takeWhile_subset _) hmem))⟩
  · cases h
    exact hroot

/-- A resolved path is a C string. -/
theorem resolve_path_text {current_dir input_path : List UInt8} {max_len : ℕ}
    (hdir : 0 ∉ current_dir) (hinput : 0 ∉ input_path)
    (h : resolve_path current_dir input_path max_len = some resolved) : 0 ∉ resolved := by
  have hslash : 0 ∉ slash :: input_path := by
    rw [List.mem_cons, not_or]
    exact ⟨by decide, hinput⟩
  unfold resolve_path at h
  split_ifs at h
  · cases h
    exact kstrncpy_text _ hdir
  · cases h
    exact kstrncpy_text _ hinput
  · cases h
    exact kstrncpy_text _ hdir
  · exact resolve_parent_text hdir h
  · cases h
    exact fun hmem => hslash (List.mem_of_mem_take hmem)
  · cases h
    intro hmem
    rcases List.mem_append.mp (List.mem_of_mem_take hmem) with hd | hi
    · exact hdir hd
    · exact hslash hi

/-! ## One command -/

/-- A save under the spelling that the disk knows, or under the first one. -/
theorem ShellOk.save (h : ShellOk sh m) (abi : Kmem.Abi) (hspelling : SameSpelling sh resolved)
    (hholds : DiskHolds sh resolved) (htext : 0 ∉ resolved) (data : Option (List UInt8)) {size : ℕ}
    (type : UInt8) (mode : UInt16) (hdata : ∀ src ∈ data, size ≤ src.length) (hsize : size ≤ 512)
    (hdir : type = KVFS_TYPE_DIR → size = 0) :
    ∃ s f, (kdiskfs_save_file abi sh.ksfs (some resolved) data size type mode).1 = s ∧ DiskOk s
      ∧ (keys_used is_file entry_key s.disk_entries).Nodup
      ∧ disk_files entry_key s = Function.update (disk_files entry_key sh.ksfs)
        (vfs_map.key (some resolved)) (some f)
      ∧ f.contents = given data size := by
  obtain ⟨hlength, hnew⟩ := hholds
  have hlow : size + 511 < u32_mod := by
    unfold u32_mod
    omega
  have hlegal : (disk_call.kdiskfs_save_file (some resolved) data size type mode).Legal :=
    ⟨by rintro p ⟨⟩; exact htext, hdata⟩
  have hfits : (disk_call.kdiskfs_save_file (some resolved) data size type mode).Fits abi sh.ksfs :=
    ⟨h.disk.room_of_le hsize fun hnone => (hnew hnone).1, ⟨resolved, rfl, hlength⟩, hlow, hdir,
      fun hnone => (hnew hnone).2⟩
  obtain ⟨hok, pre, e, post, e', hsaves⟩ := kdiskfs_save_file_spec h.disk hlegal hfits
  have hkey : entry_key e' = vfs_map.key (some resolved) := by rw [entry_key, hsaves.path]
  obtain ⟨hnodup, hfiles⟩ := hsaves.files h.names
    (fun o o' hpath => by rw [entry_key, entry_key, hpath])
    fun o ho hu hsame => hspelling o ho hu (hsame.trans hkey)
  exact ⟨_, _, rfl, hok, hnodup, hkey ▸ hfiles, rfl⟩

theorem ShellOk.write (h : ShellOk sh m) (hspelling : SameSpelling sh resolved)
    (hholds : DiskHolds sh resolved) (htext : 0 ∉ resolved)
    {copy : Option (ℕ × List UInt8)} {text : List UInt8} (hsize : text.length ≤ 512)
    (hgives : kmalloc_gives abi sh.vfs.heap (text.length + 1) copy) (hcopy : copy ≠ none)
    (hroom : kvfs_open sh.vfs (some resolved) = none → sh.vfs.vfs_node_count < KVFS_MAX_NODES) :
    ∃ sh', write_file abi copy sh resolved text = some sh'
      ∧ ShellOk sh' (Function.update m (vfs_map.key (some resolved)) (some text)) := by
  obtain ⟨block, rfl⟩ := Option.ne_none_iff_exists'.mp hcopy
  have hword : 512 < abi.size_mod := by cases abi <;> decide
  have hlegal : (call.kvfs_write (some block) (some resolved) (some text) text.length).Legal abi
      sh.vfs := ⟨hsize.trans_lt hword, by rintro src ⟨⟩; exact le_rfl, hgives⟩
  have hopen := kvfs_open_spec sh.vfs (some resolved)
  rw [Option.bind_some] at hopen
  obtain ⟨v, x, hwrite, hv, hmap, hx⟩ := kvfs_write_put h.vfs (some resolved) hlegal fun hnone =>
    hroom (Option.map_eq_none_iff.mp (hopen.trans hnone))
  obtain ⟨s, f, hs, hdisk, hnames, hfiles, hf⟩ := h.save abi hspelling hholds htext (some text)
    KVFS_TYPE_FILE mode_0644 (by rintro src ⟨⟩; exact le_rfl) hsize (by intro hdir; cases hdir)
  refine ⟨⟨v, s⟩, ?_, h.update hv hdisk hnames hmap hfiles ?_ ?_⟩
  · rw [write_file, hwrite, Option.map_some, hs]
  · rw [Option.map_some, hx, Option.getD_some, Option.getD_some, List.take_length]
  · rw [Option.map_some, hf, given, Option.getD_some, List.take_length]

theorem ShellOk.mkdir (h : ShellOk sh m) (hspelling : SameSpelling sh resolved)
    (hholds : DiskHolds sh resolved) (htext : 0 ∉ resolved)
    (hroom : sh.vfs.vfs_node_count < KVFS_MAX_NODES) :
    ∃ v s, (kvfs_mkdir sh.vfs (some resolved)) = some (v, 0)
      ∧ (kdiskfs_save_file abi sh.ksfs (some resolved) none 0 KVFS_TYPE_DIR mode_0755).1 = s
      ∧ ShellOk ⟨v, s⟩ (Function.update m (vfs_map.key (some resolved)) (some [])) := by
  have hnull (p : ℕ) : node_data.null ≠ .block p := by
    intro hp
    cases hp
  obtain ⟨v, hmkdir, hv, hmap⟩ :=
    kvfs_create_put h.vfs resolved hnull 0 KVFS_TYPE_DIR mode_0755 hroom
  obtain ⟨s, f, hs, hdisk, hnames, hfiles, hf⟩ := h.save abi hspelling hholds htext none
    KVFS_TYPE_DIR mode_0755 (by intro src hsrc; cases hsrc) (Nat.zero_le 512) fun _ => rfl
  exact ⟨v, s, hmkdir, hs, h.update hv hdisk hnames hmap hfiles rfl (congrArg some hf)⟩

/-- The disk has no file of another spelling, so it has none if it finds none. -/
theorem disk_files_none (hspelling : SameSpelling sh resolved)
    (hnot : ∀ o ∈ sh.ksfs.disk_entries, o.is_used ≠ 0 → o.path ≠ resolved) :
    disk_files entry_key sh.ksfs (vfs_map.key (some resolved)) = none := by
  rw [disk_files, Option.map_eq_none_iff]
  refine slot_of_eq_none fun o ho hused hsame => ?_
  have hu := is_file_iff.mp hused
  exact hnot o ho hu (hspelling o ho hu hsame)

theorem delete_map (m : vfs_map) (path : Option (List UInt8)) :
    (m.delete path).1 = Function.update m (vfs_map.key path) none := by
  unfold vfs_map.delete
  split
  · rfl
  · rename_i hnone
    exact (Function.update_eq_self_iff.mpr hnone.symm).symm

theorem ShellOk.rm (h : ShellOk sh m) (hspelling : SameSpelling sh resolved) :
    ∃ v c, kvfs_delete sh.vfs (some resolved) = some (v, c)
      ∧ ShellOk ⟨v, (kdiskfs_delete_file sh.ksfs (some resolved)).1⟩
        (Function.update m (vfs_map.key (some resolved)) none) := by
  obtain ⟨v, c, hdelete, hv, hmap⟩ := kvfs_delete_spec h.vfs (some resolved)
  have hlive : v.map = Function.update sh.vfs.map (vfs_map.key (some resolved)) none :=
    (congrArg Prod.fst hmap).trans (delete_map _ _)
  obtain ⟨hdisk, hdeletes⟩ := kdiskfs_delete_file_spec h.disk resolved
  obtain ⟨hnames, hcases⟩ := hdeletes.files h.names
  have hfiles : disk_files entry_key (kdiskfs_delete_file sh.ksfs (some resolved)).1
      = Function.update (disk_files entry_key sh.ksfs) (vfs_map.key (some resolved)) none := by
    rcases hcases with ⟨hsame, -, hnot⟩ | ⟨e, -, -, hpath, hgone⟩
    · rw [hsame]
      exact (Function.update_eq_self_iff.mpr (disk_files_none hspelling hnot).symm).symm
    · rw [hgone, entry_key, hpath]
  exact ⟨v, c, hdelete, h.update hv hdisk hnames hlive hfiles rfl rfl⟩

/-! ## Runs of commands that are taken -/

theorem user_files.put_eq (m : user_files) {current_dir target : List UInt8}
    (o : Option (List UInt8)) (h : resolve_path current_dir target KVFS_MAX_PATH = some resolved) :
    m.put current_dir target o = Function.update m (vfs_map.key (some resolved)) o := by
  rw [user_files.put, h]

/-- One command that is taken: it returns, and keeps the two file systems together. -/
theorem ShellOk.step (h : ShellOk sh m) {current_dir cmd : List UInt8}
    {copy : Option (ℕ × List UInt8)} {c : file_command}
    (hlegal : LegalLine abi current_dir copy sh cmd)
    (hcmd : file_command.of_line cmd = some c) (htaken : c.Taken current_dir copy sh) :
    ∃ sh', execute abi current_dir copy sh c = some sh' ∧ ShellOk sh' (m.after current_dir c) := by
  obtain ⟨hlength, hline, hdir, hgives⟩ := hlegal
  -- a path without a NUL comes of a line without one
  have htext {r : List UInt8} (hr : resolve_path current_dir c.target KVFS_MAX_PATH = some r) :
      0 ∉ r := resolve_path_text hdir (fun hmem => hline (of_line_target hcmd hmem)) hr
  rw [hcmd] at hgives
  cases c with
  | usage => exact ⟨sh, rfl, h⟩
  | write target text =>
      obtain ⟨r, hr, hspelling, hholds, hcopy, hroom⟩ := htaken
      have hsize : text.length ≤ 512 := by
        have hle := of_line_text hcmd
        omega
      rw [execute, hr, Option.bind_some, user_files.after, m.put_eq _ hr]
      exact h.write hspelling hholds (htext hr) hsize hgives hcopy hroom
  | touch target =>
      obtain ⟨r, hr, hspelling, hholds, hcopy, hroom⟩ := htaken
      rw [execute, hr, Option.bind_some, user_files.after, m.put_eq _ hr]
      exact h.write hspelling hholds (htext hr) (Nat.zero_le 512) hgives hcopy hroom
  | mkdir target =>
      obtain ⟨r, hr, hspelling, hholds, hroom⟩ := htaken
      obtain ⟨v, s, hmkdir, hsave, hok⟩ := h.mkdir hspelling hholds (htext hr) hroom
      rw [execute, hr, Option.bind_some, hmkdir, user_files.after, m.put_eq _ hr]
      exact ⟨_, rfl, hsave.symm ▸ hok⟩
  | rm target =>
      obtain ⟨r, hr, hspelling⟩ := htaken
      obtain ⟨v, code, hdelete, hok⟩ := h.rm hspelling
      rw [execute, hr, Option.bind_some, hdelete, user_files.after, m.put_eq _ hr]
      exact ⟨_, rfl, hok⟩

theorem ShellRun.ok (h : ShellRun abi sh m) : ShellOk sh m := by
  induction h with
  | @boot heap v s hinit hpresent =>
      -- at boot the disk is empty and the live system has the boot files
      obtain ⟨v', hinit', hv, -, hmap⟩ := kvfs_init_spec (start_ok heap).1
      rw [hinit] at hinit'
      cases hinit'
      obtain ⟨hempty, hfiles⟩ := format_files hpresent entry_key
      refine ⟨hv, format_ok hpresent, ?_, fun k => ?_, fun k hk => absurd rfl hk, fun k _ hk => ?_⟩
      · show (keys_used is_file entry_key (kdiskfs_format s).1.disk_entries).Nodup
        rw [hempty]
        exact List.nodup_nil
      · show (disk_files entry_key (kdiskfs_format s).1 k).map file.contents = none
        rw [hfiles]
        rfl
      · show v.map k = none
        rw [hmap, hk]
  | step h hlegal hcmd htaken hexec ih =>
      obtain ⟨sh', hexec', hok⟩ := ih.step hlegal hcmd htaken
      rw [hexec] at hexec'
      cases hexec'
      exact hok

/-! ## A new start -/

/-- `kvfs_init(); kdiskfs_mount();` of a new start in front of the disk. -/
def remount (abi : Kmem.Abi) (kmalloc : Malloc) (heap : Heap) (sh : shell) : Option kvfs :=
  (kvfs_init (.start heap)).bind fun v =>
    (kdiskfs_mount abi kmalloc (.start true sh.ksfs.disk) v).map fun r => r.2.1

theorem ShellOk.remount_spec (h : ShellOk sh m) {kmalloc : Malloc}
    (hgives : ∀ heap n, kmalloc_gives abi heap n (kmalloc heap n)) (heap : Heap)
    (hheap : ∀ v ∈ kvfs_init (.start heap),
      HeapSuffices abi kmalloc sh.ksfs.disk v sh.ksfs.disk_entries) :
    ∃ v', remount abi kmalloc heap sh = some v' ∧ ∀ k,
      match m k with
      | some bytes => contents_at v'.map k = some bytes
      | none => v'.map k = vfs_map.boot k := by
  have hfit : boot_entries.length + table_room ≤ KVFS_MAX_NODES := by decide
  obtain ⟨v, hinit, hv, hcount, hboot⟩ := kvfs_init_spec (start_ok heap).1
  obtain ⟨s', v', hmount, -, hmap⟩ :=
    kdiskfs_mount_spec h.disk h.names hv (by omega) hgives (hheap v hinit)
  refine ⟨v', ?_, fun k => ?_⟩
  · rw [remount, hinit, Option.bind_some, hmount]
    rfl
  · have hk := hmap k
    have hsaved := h.saved k
    rw [disk_files] at hsaved
    -- what boot made stays where the disk has no entry
    split at hk
    · rename_i hnone
      rw [hnone] at hsaved
      rw [← hsaved, ← hboot]
      exact hk
    · rename_i e hsome
      obtain ⟨x, hx, hloads⟩ := hk
      rw [hsome] at hsaved
      rw [← hsaved, contents_at, hx]
      exact congrArg some hloads.contents

/-- **Agreement.** After a run whose commands are all taken, a new start finds each file that the
user has made with the contents that the live system has, and else the boot files; the live
system has no other file that is not a boot file. A further such command returns. -/
theorem file_systems_agree (h : ShellRun abi sh m) :
    (∀ kmalloc : Malloc, (∀ heap n, kmalloc_gives abi heap n (kmalloc heap n)) → ∀ heap,
      (∀ v ∈ kvfs_init (.start heap),
        HeapSuffices abi kmalloc sh.ksfs.disk v sh.ksfs.disk_entries) →
      ∃ v', remount abi kmalloc heap sh = some v' ∧ ∀ k,
        match m k with
        | some bytes => contents_at sh.vfs.map k = some bytes ∧ contents_at v'.map k = some bytes
        | none => v'.map k = vfs_map.boot k ∧ (vfs_map.boot k = none → sh.vfs.map k = none))
      ∧ ∀ current_dir cmd copy c, LegalLine abi current_dir copy sh cmd →
        file_command.of_line cmd = some c → c.Taken current_dir copy sh →
        execute abi current_dir copy sh c ≠ none := by
  have hok := h.ok
  constructor
  · intro kmalloc hgives heap hheap
    obtain ⟨v', hremount, hmap⟩ := hok.remount_spec hgives heap hheap
    refine ⟨v', hremount, fun k => ?_⟩
    have hk := hmap k
    have hlive := hok.live k
    have hrest := hok.rest k
    cases hm : m k with
    | none =>
        rw [hm] at hk
        exact ⟨hk, hrest hm⟩
    | some bytes =>
        rw [hm] at hk hlive
        exact ⟨hlive (Option.some_ne_none _), hk⟩
  · intro current_dir cmd copy c hlegal hcmd htaken
    obtain ⟨sh', hexec, -⟩ := hok.step hlegal hcmd htaken
    rw [hexec]
    exact Option.some_ne_none _

/-- A start with a heap of free blocks. -/
theorem start_free : ∃ v, kvfs_init (.start fun _ => none) = some v ∧ v.heap 16 = none
    ∧ v.heap 32 = none ∧ v.vfs_node_count = 39 := by
  have hboot : (kvfs_init (.start fun _ => none)).map
      (fun v => (v.heap 16, v.heap 32, v.vfs_node_count)) = some (none, none, 39) := by
    decide
  obtain ⟨v, hv, hfields⟩ := Option.map_eq_some_iff.mp hboot
  rw [Prod.mk.injEq, Prod.mk.injEq] at hfields
  exact ⟨v, hv, hfields⟩

/-- `write f hi` in `/home`. -/
theorem file_systems_agree_one_file :
    ∃ sh v', remount .i386 two_blocks (fun _ => none) sh = some v'
      ∧ contents_at sh.vfs.map (literal "/home/f") = some (literal "hi")
      ∧ contents_at v'.map (literal "/home/f") = some (literal "hi") := by
  obtain ⟨v, hinit, h16, h32, hcount⟩ := start_free
  have hboot : ShellRun .i386 ⟨v, (kdiskfs_format (.start true blank_disk)).1⟩ fun _ => none :=
    .boot hinit rfl
  have hcmd : file_command.of_line (literal "write f hi")
      = some (.write (literal "f") (literal "hi")) := by decide
  have hresolve : resolve_path (literal "/home") (literal "f") KVFS_MAX_PATH
      = some (literal "/home/f") := by decide
  have hlegal : LegalLine .i386 (literal "/home") (some (16, [0, 0, 0]))
      ⟨v, (kdiskfs_format (.start true blank_disk)).1⟩ (literal "write f hi") := by
    refine ⟨by decide, by decide, by decide, ?_⟩
    rw [hcmd]
    exact ⟨by decide, h16, rfl⟩
  have htaken : (file_command.write (literal "f") (literal "hi")).Taken (literal "/home")
      (some (16, [0, 0, 0])) ⟨v, (kdiskfs_format (.start true blank_disk)).1⟩ := by
    have hfirst : KDISKFS_DATA_LBA + 1 ≤ lba_mod := by decide
    refine ⟨_, hresolve, ?_, ⟨by decide, fun _ => ⟨hfirst, [], .zero, _, rfl, by decide⟩⟩,
      Option.some_ne_none _, fun _ => by rw [hcount]; decide⟩
    intro e he hu
    rw [List.eq_of_mem_replicate (n := 32) he] at hu
    exact absurd rfl hu
  obtain ⟨sh, hexec, -⟩ := hboot.ok.step hlegal hcmd htaken
  have hrun := hboot.step hlegal hcmd htaken hexec
  have hmade : user_files.after (fun _ => none) (literal "/home")
      (.write (literal "f") (literal "hi")) (literal "/home/f") = some (literal "hi") := by decide
  -- the disk afterwards has one file, of one sector: two requests at the mount
  have hksfs : sh.ksfs = (kdiskfs_save_file .i386 (kdiskfs_format (.start true blank_disk)).1
      (some (literal "/home/f")) (some (literal "hi")) 2 KVFS_TYPE_FILE mode_0644).1 := by
    rw [execute, hresolve, Option.bind_some, write_file] at hexec
    obtain ⟨r, -, rfl⟩ := Option.map_eq_some_iff.mp hexec
    rfl
  have hheap : ∀ v₀ ∈ kvfs_init (.start fun _ => none),
      HeapSuffices .i386 two_blocks sh.ksfs.disk v₀ sh.ksfs.disk_entries := by
    intro v₀ hv₀
    rw [hinit] at hv₀
    cases hv₀
    rw [hksfs]
    refine ⟨fun _ _ _ => two_blocks_serves h16 h32 (by decide) (by decide),
      fun v' _ => heapSuffices_of_empty ?_ v'⟩
    intro e he
    rw [List.eq_of_mem_replicate (n := 31) he]
    rfl
  obtain ⟨v', hremount, hmap⟩ :=
    (file_systems_agree hrun).1 two_blocks two_blocks_gives (fun _ => none) hheap
  have hk := hmap (literal "/home/f")
  rw [hmade] at hk
  exact ⟨sh, v', hremount, hk.1, hk.2⟩

/-- Lines one after the other, each with its directory and what its `kmalloc` gives. -/
def execute_lines (abi : Kmem.Abi) :
    shell → List (List UInt8 × Option (ℕ × List UInt8) × List UInt8) → Option shell
  | sh, [] => some sh
  | sh, (current_dir, copy, cmd) :: rest =>
    (file_command.of_line cmd).bind fun c =>
      (execute abi current_dir copy sh c).bind fun sh => execute_lines abi sh rest

/-- A file is made under one spelling and deleted under another: the next start has it again. -/
theorem other_spelling_comes_back :
    ((kvfs_init (.start fun _ => none)).bind fun v =>
      (execute_lines .i386 ⟨v, (kdiskfs_format (.start true blank_disk)).1⟩
        [(literal "/", some (16, [0, 0]), literal "write /a//b x"),
          (literal "/", none, literal "rm /a/b")]).bind fun sh =>
        (remount .i386 two_blocks (fun _ => none) sh).map fun v' =>
          (contents_at sh.vfs.map (literal "/a/b"), contents_at v'.map (literal "/a/b")))
      = some (none, some (literal "x")) := by
  decide +kernel

end SysInC.KernelShell
