/-
The users of the shell in `test_os/kernel.c`: `execute_cli_command` with what it does to the login.

Of the commands, `su` and `adduser` read `/etc/passwd`, and whatever writes a file may write it.
Who may do what is asked by `adduser` and `format_disk` only.
-/
import SysInC.KernelLogin
import SysInC.KernelShell
import SysInC.KvfsText

set_option autoImplicit false

namespace SysInC.KernelShell

open SysInC.Kvfs SysInC.Kdiskfs

/-! ## The command line -/

inductive cli_command where
  | su (target : List UInt8)
  | adduser (args : List UInt8)
  | file (c : file_command)
  | format_disk
  | cd (target : List UInt8)
  | other
  deriving DecidableEq

/-- `kstrncmp(cmd, word, n) == 0 && (cmd[n] == ' ' || cmd[n] == '\0')` -/
def is_word (word cmd : List UInt8) : Prop :=
  word <+: cmd ∧ (cmd.drop word.length).head?.getD space = space

instance (word cmd : List UInt8) : Decidable (is_word word cmd) :=
  inferInstanceAs (Decidable (_ ∧ _))

/-- The commands of `execute_cli_command` that change a file system, the user or the directory. The
editor and the games open a window of their own, and the rest prints. -/
def cli_command.of_line (line : List UInt8) : cli_command :=
  let cmd := skip_spaces line
  if is_word (literal "su") cmd then .su (skip_spaces (cmd.drop 2))
  else if literal "adduser " <+: cmd then .adduser (skip_spaces (cmd.drop 8))
  else
    match file_command.of_line cmd with
    | some c => .file c
    | none =>
      if cmd = literal "format_disk" then .format_disk
      else if is_word (literal "cd") cmd then .cd (skip_spaces (cmd.drop 2))
      else .other

/-! ## The session -/

structure session where
  sh : shell
  current_dir : List UInt8
  current_user : List UInt8
  is_root : Bool

/-- `verify_user_password` opens it, and `adduser` writes it. -/
def passwd_path : List UInt8 := literal "/etc/passwd"

/-- The string that the file's data is. -/
def passwd_text (s : session) : Option (List UInt8) := kvfs_text s.sh.vfs passwd_path

/-- A name in front of a space. One that does not fit its buffer is dropped. -/
def name_arg (args : List UInt8) : List UInt8 :=
  let name := args.takeWhile (· ≠ space)
  if name.length < 32 then name else []

/-- `user` and `pass` of `su`, from what stands behind the word. -/
def su_login (target : List UInt8) : List UInt8 × List UInt8 :=
  let target := if target = [] then literal "root" else target
  match target.dropWhile (· ≠ space) with
  | [] =>
    let user := kstrncpy target 31
    (user, if user = literal "root" then literal "root" else literal "1234")
  | _ :: rest => (name_arg target, kstrncpy rest 31)

/-- `/home/user`, cut to a buffer. -/
def home_dir (user : List UInt8) (max_len : ℕ) : List UInt8 :=
  (literal "/home/" ++ user).take (max_len - 1)

/-- The login of a user who is not root. -/
def enter_home (s : session) (user : List UInt8) : Option session :=
  let dir := home_dir user KVFS_MAX_PATH
  let s := { s with current_dir := dir, current_user := user, is_root := false }
  match kvfs_open s.sh.vfs (some dir) with
  | some _ => some s
  | none =>
    (kvfs_mkdir s.sh.vfs (some dir)).map fun r => { s with sh := { s.sh with vfs := r.1 } }

def su (s : session) (target : List UInt8) : Option session :=
  let (user, pass) := su_login target
  if verify_user_password (passwd_text s) user pass then
    if user = literal "root" then
      some { s with current_dir := literal "/", current_user := user, is_root := true }
    else enter_home s user
  else some s

/-- `new_entry` -/
def new_entry (user pass : List UInt8) : List UInt8 :=
  (user ++ literal ":" ++ pass ++ literal ":1001:1001:" ++ user ++ literal ":/home/" ++ user
    ++ literal ":/bin/sh\n").take 127

/-- `updated_passwd`, from the string in the file. -/
def updated_passwd (passwd : Option (List UInt8)) (entry : List UInt8) : List UInt8 :=
  let old := kstrncpy (passwd.getD []) 1023
  old ++ entry.take (1024 - old.length - 1)

/-- `adduser` with two arguments. -/
def add_user (abi : Kmem.Abi) (copy : Option (ℕ × List UInt8)) (s : session)
    (user pass : List UInt8) : Option session :=
  (write_file abi copy s.sh passwd_path (updated_passwd (passwd_text s) (new_entry user pass))).bind
    fun sh =>
      let home := home_dir user 64
      (kvfs_mkdir sh.vfs (some home)).map fun r =>
        { s with sh :=
          ⟨r.1, (kdiskfs_save_file abi sh.ksfs (some home) none 0 KVFS_TYPE_DIR mode_0755).1⟩ }

def adduser (abi : Kmem.Abi) (copy : Option (ℕ × List UInt8)) (s : session) (args : List UInt8) :
    Option session :=
  if s.is_root then
    match args.dropWhile (· ≠ space) with
    | [] => some s
    | _ :: rest => add_user abi copy s (name_arg args) (kstrncpy rest 31)
  else some s

def cd (s : session) (target : List UInt8) : Option session :=
  if target = [] ∨ target = literal "/" then some { s with current_dir := literal "/" }
  else
    (resolve_path s.current_dir target KVFS_MAX_PATH).map fun resolved =>
      match kvfs_open s.sh.vfs (some resolved) with
      | some dir =>
        if dir.type = KVFS_TYPE_DIR then
          { s with current_dir := kstrncpy resolved (KVFS_MAX_PATH - 1) }
        else s
      | none => s

/-- `copy` is what the `kmalloc` of the command's `kvfs_write` gives. -/
def execute_cli_command (abi : Kmem.Abi) (copy : Option (ℕ × List UInt8)) (s : session)
    (line : List UInt8) : Option session :=
  match cli_command.of_line line with
  | .su target => su s target
  | .adduser args => adduser abi copy s args
  | .file c => (execute abi s.current_dir copy s.sh c).map fun sh => { s with sh := sh }
  | .format_disk =>
    some (if s.is_root then { s with sh := { s.sh with ksfs := (kdiskfs_format s.sh.ksfs).1 } }
      else s)
  | .cd target => cd s target
  | .other => some s

/-! ## What a command writes -/

/-- The text that the command has `kvfs_write` copy. -/
def written (s : session) : cli_command → Option (List UInt8)
  | .adduser args =>
    if s.is_root then
      match args.dropWhile (· ≠ space) with
      | [] => none
      | _ :: rest =>
        some (updated_passwd (passwd_text s) (new_entry (name_arg args) (kstrncpy rest 31)))
    else none
  | .file (.write _ text) => some text
  | .file (.touch _) => some []
  | _ => none

/-- The line is a C string in its buffer `cli_input`, and `kmalloc` answers NULL or a new block. -/
structure LegalCommand (abi : Kmem.Abi) (copy : Option (ℕ × List UInt8)) (s : session)
    (line : List UInt8) : Prop where
  length : line.length < 128
  text : 0 ∉ line
  gives : ∀ text, written s (.of_line line) = some text →
    kmalloc_gives abi s.sh.vfs.heap (text.length + 1) copy

/-- The path of a file that the command changes. -/
def file_command.path (current_dir : List UInt8) : file_command → Option (List UInt8)
  | .usage => none
  | .write target _ | .touch target | .mkdir target | .rm target =>
    resolve_path current_dir target KVFS_MAX_PATH

/-- The command changes `/etc/passwd`. -/
def WritesPasswd (s : session) : cli_command → Prop
  | .adduser args => s.is_root = true ∧ space ∈ args
  | .file c => (c.path s.current_dir).map (fun path => vfs_map.key (some path))
      = some (vfs_map.key (some passwd_path))
  | _ => False

instance (s : session) : (c : cli_command) → Decidable (WritesPasswd s c)
  | .adduser _ => inferInstanceAs (Decidable (_ ∧ _))
  | .file _ => inferInstanceAs (Decidable (_ = _))
  | .su _ | .format_disk | .cd _ | .other => inferInstanceAs (Decidable False)

variable {abi : Kmem.Abi} {copy : Option (ℕ × List UInt8)} {s s' : session} {line : List UInt8}

theorem updated_passwd_length (passwd : Option (List UInt8)) (entry : List UInt8) :
    (updated_passwd passwd entry).length ≤ 1023 := by
  unfold updated_passwd
  have hold : (kstrncpy (passwd.getD []) 1023).length ≤ 1023 := List.length_take_le _ _
  rw [List.length_append, List.length_take]
  omega

theorem of_line_file {c : file_command} (h : cli_command.of_line line = .file c) :
    file_command.of_line (skip_spaces line) = some c := by
  unfold cli_command.of_line at h
  dsimp only at h
  cases hc : file_command.of_line (skip_spaces line) with
  | some c' =>
      rw [hc] at h
      dsimp only at h
      split_ifs at h
      exact congrArg some (cli_command.file.inj h)
  | none =>
      rw [hc] at h
      dsimp only at h
      split_ifs at h

theorem written_length (hlegal : LegalCommand abi copy s line) {text : List UInt8}
    (h : written s (.of_line line) = some text) : text.length ≤ 1023 := by
  have hline := hlegal.length
  unfold written at h
  split at h
  · split_ifs at h
    split at h
    · cases h
    · rw [← Option.some.inj h]
      exact updated_passwd_length _ _
  · next target text' hc =>
      rw [← Option.some.inj h]
      have htext := of_line_text (of_line_file hc)
      have hskip := (skip_spaces_suffix line).length_le
      omega
  · rw [← Option.some.inj h]
    exact Nat.zero_le _
  · cases h

/-- The second byte of a path stays where it is. -/
theorem key_second {c : UInt8} (hc : c ≠ slash) (rest : List UInt8) :
    (vfs_map.key (some (slash :: c :: rest)))[1]? = some c := by
  have hskip : ¬(c = slash ∧ true = true) := fun h => hc h.1
  have hkey : vfs_map.key (some (slash :: c :: rest))
      = slash :: (c :: (squeeze (c = slash) rest).take 125).rdropWhile (· == slash) := by
    rw [vfs_map.key, sanitize_path_eq _ (by decide), squeeze, if_pos ⟨rfl, rfl⟩, squeeze,
      if_neg hskip]
    rfl
  have hname : (c :: (squeeze (c = slash) rest).take 125).rdropWhile (· == slash) ≠ [] := by
    rw [Ne, List.rdropWhile_eq_nil_iff]
    exact fun hall => hc (beq_iff_eq.mp (hall c List.mem_cons_self))
  rw [hkey, List.getElem?_cons_succ]
  obtain ⟨d, name, heq⟩ := List.exists_cons_of_ne_nil hname
  have hprefix := List.rdropWhile_prefix (· == slash)
    (c :: (squeeze (c = slash) rest).take 125)
  rw [heq] at hprefix ⊢
  rw [(List.cons_prefix_cons.mp hprefix).1]
  rfl

/-- A home is no `/etc/passwd`. -/
theorem home_key (user : List UInt8) {max_len : ℕ} (hlen : 3 ≤ max_len) :
    vfs_map.key (some (home_dir user max_len)) ≠ vfs_map.key (some passwd_path) := by
  obtain ⟨n, rfl⟩ := Nat.exists_eq_add_of_le' hlen
  intro heq
  have hsecond := congrArg (·[1]?) heq
  have hhome : home_dir user (n + 3) = slash :: 104 :: (literal "ome/" ++ user).take n := rfl
  have hpasswd : passwd_path = slash :: 101 :: literal "tc/passwd" := rfl
  rw [hhome, hpasswd, key_second (by decide), key_second (by decide)] at hsecond
  exact absurd hsecond (by decide)

/-! ## One command -/

theorem write_file_spec {sh : shell} (h : Readable sh.vfs) (resolved : List UInt8)
    {text : List UInt8} (hsize : text.length ≤ 1023)
    (hgives : kmalloc_gives abi sh.vfs.heap (text.length + 1) copy) :
    ∃ sh', write_file abi copy sh resolved text = some sh' ∧ TextStep resolved sh.vfs sh'.vfs
      ∧ (Refused sh.vfs copy resolved → sh'.vfs.map = sh.vfs.map)
      ∧ (¬Refused sh.vfs copy resolved → kvfs_text sh'.vfs resolved = some (text_of text)) := by
  have hword : 1023 < abi.size_mod := by cases abi <;> decide
  obtain ⟨v', c, hcall, hspec⟩ := h.write resolved (hsize.trans_lt hword) hgives
  rw [write_file, hcall]
  exact ⟨_, rfl, hspec⟩

/-- A command on a file leaves the texts of the others. -/
theorem execute_spec {sh sh' : shell} (h : Readable sh.vfs) {current_dir : List UInt8}
    {c : file_command} (hexec : execute abi current_dir copy sh c = some sh')
    (hgives : ∀ target text, c = .write target text ∨ c = .touch target ∧ text = [] →
      text.length ≤ 1023 ∧ kmalloc_gives abi sh.vfs.heap (text.length + 1) copy) :
    Readable sh'.vfs ∧ ∀ other,
      (∀ path, c.path current_dir = some path →
        vfs_map.key (some other) ≠ vfs_map.key (some path)) →
      kvfs_text sh'.vfs other = kvfs_text sh.vfs other := by
  have hstep {path : List UInt8} (hpath : c.path current_dir = some path)
      (hstep : TextStep path sh.vfs sh'.vfs) :
      Readable sh'.vfs ∧ ∀ other,
        (∀ path, c.path current_dir = some path →
          vfs_map.key (some other) ≠ vfs_map.key (some path)) →
        kvfs_text sh'.vfs other = kvfs_text sh.vfs other :=
    ⟨hstep.readable, fun other hne => hstep.frame other (hne path hpath)⟩
  cases c with
  | usage =>
      rw [execute, Option.some_inj] at hexec
      rw [← hexec]
      exact ⟨h, fun _ _ => rfl⟩
  | write target text =>
      obtain ⟨path, hpath, hexec⟩ := Option.bind_eq_some_iff.mp hexec
      obtain ⟨hsize, hgives⟩ := hgives target text (Or.inl rfl)
      obtain ⟨sh₁, hwrite, htexts, -⟩ := write_file_spec h path hsize hgives
      obtain rfl := Option.some.inj (hwrite.symm.trans hexec)
      exact hstep hpath htexts
  | touch target =>
      obtain ⟨path, hpath, hexec⟩ := Option.bind_eq_some_iff.mp hexec
      obtain ⟨hsize, hgives⟩ := hgives target [] (Or.inr ⟨rfl, rfl⟩)
      obtain ⟨sh₁, hwrite, htexts, -⟩ := write_file_spec h path hsize hgives
      obtain rfl := Option.some.inj (hwrite.symm.trans hexec)
      exact hstep hpath htexts
  | mkdir target =>
      obtain ⟨path, hpath, hexec⟩ := Option.bind_eq_some_iff.mp hexec
      obtain ⟨v', c, hmkdir, htexts⟩ := h.mkdir path
      rw [hmkdir] at hexec
      obtain rfl := Option.some.inj hexec
      exact hstep hpath htexts
  | rm target =>
      obtain ⟨path, hpath, hexec⟩ := Option.bind_eq_some_iff.mp hexec
      obtain ⟨v', c, hdelete, htexts⟩ := h.delete path
      rw [hdelete] at hexec
      obtain rfl := Option.some.inj hexec
      exact hstep hpath htexts

/-- `su` writes no text, and makes root of nobody but who is let in as root. -/
theorem su_spec (h : Readable s.sh.vfs) {target : List UInt8} (hexec : su s target = some s') :
    Readable s'.sh.vfs ∧ passwd_text s' = passwd_text s
      ∧ (s'.is_root = true → s.is_root = true ∨ (su_login target).1 = literal "root"
        ∧ verify_user_password (passwd_text s) (su_login target).1 (su_login target).2 = true) := by
  unfold su at hexec
  dsimp only at hexec
  split_ifs at hexec with hverify hroot
  · obtain rfl := Option.some.inj hexec
    exact ⟨h, rfl, fun _ => Or.inr ⟨hroot, hverify⟩⟩
  · unfold enter_home at hexec
    dsimp only at hexec
    split at hexec
    · obtain rfl := Option.some.inj hexec
      exact ⟨h, rfl, fun hfalse => nomatch hfalse⟩
    · obtain ⟨v', c, hmkdir, htexts⟩ :=
        h.mkdir (home_dir (su_login target).1 KVFS_MAX_PATH)
      rw [hmkdir] at hexec
      obtain rfl := Option.some.inj hexec
      have hlen : 3 ≤ KVFS_MAX_PATH := by decide
      exact ⟨htexts.readable, htexts.frame passwd_path (home_key _ hlen).symm,
        fun hfalse => nomatch hfalse⟩
  · obtain rfl := Option.some.inj hexec
    exact ⟨h, rfl, Or.inl⟩

/-- `adduser` writes its text or, where the write is refused, none. -/
theorem add_user_spec (h : Readable s.sh.vfs) (user pass : List UInt8) {text : List UInt8}
    (htext : text = updated_passwd (passwd_text s) (new_entry user pass))
    (hgives : kmalloc_gives abi s.sh.vfs.heap (text.length + 1) copy) :
    ∃ s', add_user abi copy s user pass = some s' ∧ Readable s'.sh.vfs
      ∧ s'.is_root = s.is_root
      ∧ (Refused s.sh.vfs copy passwd_path → passwd_text s' = passwd_text s)
      ∧ (¬Refused s.sh.vfs copy passwd_path → passwd_text s' = some (text_of text)) := by
  have hsize : text.length ≤ 1023 := htext ▸ updated_passwd_length _ _
  have hlen : 3 ≤ 64 := by decide
  obtain ⟨sh, hwrite, hstep, hrefused, hmade⟩ := write_file_spec h passwd_path hsize hgives
  obtain ⟨v', c, hmkdir, hhome⟩ := hstep.readable.mkdir (home_dir user 64)
  have hframe := hhome.frame passwd_path (home_key user hlen).symm
  have hsame (hno : Refused s.sh.vfs copy passwd_path) :
      kvfs_text sh.vfs passwd_path = kvfs_text s.sh.vfs passwd_path := by
    rw [kvfs_text_eq hstep.readable.ended, kvfs_text_eq h.ended, hrefused hno]
  rw [add_user, ← htext, hwrite, Option.bind_some]
  dsimp only
  rw [hmkdir]
  exact ⟨_, rfl, hhome.readable, rfl, fun hno => hframe.trans (hsame hno),
    fun hyes => hframe.trans (hmade hyes)⟩

theorem adduser_spec (h : Readable s.sh.vfs) {args : List UInt8}
    (hgives : ∀ text, written s (.adduser args) = some text →
      kmalloc_gives abi s.sh.vfs.heap (text.length + 1) copy)
    (hexec : adduser abi copy s args = some s') :
    Readable s'.sh.vfs ∧ s'.is_root = s.is_root
      ∧ (¬WritesPasswd s (.adduser args) → passwd_text s' = passwd_text s) := by
  unfold adduser at hexec
  unfold written at hgives
  dsimp only at hgives
  by_cases hroot : s.is_root = true
  · rw [if_pos hroot] at hexec hgives
    cases hargs : args.dropWhile (· ≠ space) with
    | nil =>
        rw [hargs] at hexec
        obtain rfl := Option.some.inj hexec
        exact ⟨h, rfl, fun _ => rfl⟩
    | cons c rest =>
        rw [hargs] at hexec hgives
        obtain ⟨s₁, hadd, hreadable, hsame, -⟩ :=
          add_user_spec h (name_arg args) (kstrncpy rest 31) rfl (hgives _ rfl)
        obtain rfl := Option.some.inj (hadd.symm.trans hexec)
        refine ⟨hreadable, hsame, fun hnot => absurd ⟨hroot, ?_⟩ hnot⟩
        by_contra hspace
        have hall : args.dropWhile (· ≠ space) = [] := by
          rw [List.dropWhile_eq_nil_iff]
          intro c hc
          rw [decide_eq_true_iff]
          rintro rfl
          exact hspace hc
        rw [hall] at hargs
        exact nomatch hargs
  · rw [if_neg hroot] at hexec
    obtain rfl := Option.some.inj hexec
    exact ⟨h, rfl, fun _ => rfl⟩

theorem cd_spec {target : List UInt8} (hexec : cd s target = some s') :
    s'.sh = s.sh ∧ s'.is_root = s.is_root := by
  unfold cd at hexec
  split_ifs at hexec
  · obtain rfl := Option.some.inj hexec
    exact ⟨rfl, rfl⟩
  · obtain ⟨resolved, -, rfl⟩ := Option.map_eq_some_iff.mp hexec
    split
    · split_ifs
      · exact ⟨rfl, rfl⟩
      · exact ⟨rfl, rfl⟩
    · exact ⟨rfl, rfl⟩

/-- What a command does to the login and to `/etc/passwd`. -/
structure CommandStep (s : session) (c : cli_command) (s' : session) : Prop where
  readable : Readable s'.sh.vfs
  passwd : ¬WritesPasswd s c → passwd_text s' = passwd_text s
  root : s'.is_root = true → s.is_root = true ∨ ∃ target, c = .su target
    ∧ (su_login target).1 = literal "root"
    ∧ verify_user_password (passwd_text s) (su_login target).1 (su_login target).2 = true

theorem execute_cli_command_spec (h : Readable s.sh.vfs) (hlegal : LegalCommand abi copy s line)
    (hexec : execute_cli_command abi copy s line = some s') :
    CommandStep s (.of_line line) s' := by
  have hgives := hlegal.gives
  have hlength (text : List UInt8) (h : written s (.of_line line) = some text) :=
    written_length hlegal h
  unfold execute_cli_command at hexec
  cases hc : cli_command.of_line line with
  | su target =>
      rw [hc] at hexec
      obtain ⟨hreadable, hpasswd, hroot⟩ := su_spec h hexec
      exact ⟨hreadable, fun _ => hpasswd, fun htrue =>
        (hroot htrue).imp_right fun hlogin => ⟨target, rfl, hlogin⟩⟩
  | adduser args =>
      rw [hc] at hexec hgives
      obtain ⟨hreadable, hsame, hpasswd⟩ := adduser_spec h hgives hexec
      exact ⟨hreadable, hpasswd, fun htrue => Or.inl (hsame ▸ htrue)⟩
  | file c =>
      rw [hc] at hexec hgives hlength
      obtain ⟨sh', hrun, rfl⟩ := Option.map_eq_some_iff.mp hexec
      have htext (target text : List UInt8) (hwrites : c = .write target text
          ∨ c = .touch target ∧ text = []) : written s (.file c) = some text := by
        rcases hwrites with rfl | ⟨rfl, rfl⟩
        · rfl
        · rfl
      obtain ⟨hreadable, hframe⟩ := execute_spec h hrun fun target text hwrites =>
        ⟨hlength text (htext target text hwrites), hgives text (htext target text hwrites)⟩
      refine ⟨hreadable, fun hnot => hframe passwd_path fun path hpath hkey => hnot ?_, Or.inl⟩
      show (c.path s.current_dir).map _ = _
      rw [hpath, hkey]
      rfl
  | format_disk =>
      rw [hc] at hexec
      obtain rfl := Option.some.inj hexec
      split_ifs
      · exact ⟨h, fun _ => rfl, Or.inl⟩
      · exact ⟨h, fun _ => rfl, Or.inl⟩
  | cd target =>
      rw [hc] at hexec
      obtain ⟨hsh, hroot⟩ := cd_spec hexec
      exact ⟨hsh ▸ h, fun _ => by rw [passwd_text, hsh]; rfl, fun htrue => Or.inl (hroot ▸ htrue)⟩
  | other =>
      rw [hc] at hexec
      obtain rfl := Option.some.inj hexec
      exact ⟨h, fun _ => rfl, Or.inl⟩

end SysInC.KernelShell
