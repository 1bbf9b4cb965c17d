/-
`krypt/krypt.c`: vaults.

A file is the bytes that are still to be read from it. What the operating system decides is
part of the input: what it finds at a path, which files it opens, what each `write` stores. Reads
give as much as there is, up to what was asked for.
-/
import SysInC.KryptChacha
import SysInC.LittleEndian

set_option autoImplicit false

namespace SysInC.Krypt

open SysInC.Kvfs (literal slash)

/-- The literal ends in a NUL of its own. -/
def KRYPT_MAGIC : List UInt8 := literal "KRYPT20" ++ [0]

def CHUNK_SZ : ℕ := 65536

def VAULT_TYPE_FILE : UInt8 := 1
def VAULT_TYPE_DIR : UInt8 := 2

/-- The buffers that `while ((n = read(fd, chunk, sizeof(chunk))) > 0)` writes. -/
def copy_chunks (file : List UInt8) : List (List UInt8) :=
  if _h : 0 < file.length then file.take CHUNK_SZ :: copy_chunks (file.drop CHUNK_SZ) else []
termination_by file.length
decreasing_by
  rw [List.length_drop]
  unfold CHUNK_SZ
  omega

/-! ## `pack_directory_tree` -/

/-- A `d_name`: a C string, and not an empty one. -/
structure entry_name where
  bytes : List UInt8
  ne_nil : bytes ≠ []
  no_nul : 0 ∉ bytes

/-- An entry that `readdir` gives, with what the calls on its path give: `lstat` fails, or finds a
directory or another file. `contents` is absent where `open` fails; a directory that `opendir`
fails on has no entries. -/
inductive item where
  | gone (d_name : entry_name)
  | dir (d_name : entry_name) (st_mode : UInt32) (entries : List item)
  | other (d_name : entry_name) (st_mode : UInt32) (st_size : UInt64)
    (contents : Option (List UInt8))

/-- The two calls of `snprintf` for `rel_path`. -/
def child_path ( rel_prefix : List UInt8) (d_name : entry_name) : List UInt8 :=
  if 0 < rel_prefix.length then ( rel_prefix ++ slash :: d_name.bytes).take 2047
  else d_name.bytes.take 2047

/-- `strcmp(de->d_name, ".") == 0 || strcmp(de->d_name, "..") == 0` -/
def is_dots (d_name : entry_name) : Bool :=
  d_name.bytes = literal "." ∨ d_name.bytes = literal ".."

/-- The writes in front of a payload. -/
def header_writes (rel_path : List UInt8) (is_dir : UInt8) (mode : UInt32) (fsize : UInt64) :
    List (List UInt8) :=
  [le_bytes 2 rel_path.length, rel_path, [is_dir], le_bytes 4 mode.toNat, le_bytes 8 fsize.toNat]

mutual

/-- A turn of the loop of `pack_directory_tree`: what it writes. -/
def pack_item ( rel_prefix : List UInt8) : item → List (List UInt8)
  | .gone _ => []
  | .dir d_name st_mode entries =>
    if is_dots d_name then []
    else
      let rel_path := child_path rel_prefix d_name
      header_writes rel_path 1 st_mode 0 ++ pack_directory_tree rel_path entries
  | .other d_name st_mode st_size contents =>
    if is_dots d_name then []
    else
      header_writes (child_path rel_prefix d_name) 0 st_mode st_size
        ++ copy_chunks (contents.getD [])

def pack_directory_tree ( rel_prefix : List UInt8) : List item → List (List UInt8)
  | [] => []
  | x :: entries => pack_item rel_prefix x ++ pack_directory_tree rel_prefix entries

end

/-! ## `encrypt_vault` -/

/-- What `in_target` is. `contents` is absent where `open` fails. -/
inductive target where
  | file (contents : Option (List UInt8))
  | dir (entries : List item)

/-- What is written to `payload_tmp`; `none` where `in_target` cannot be opened. -/
def payload_writes : target → Option (List (List UInt8))
  | .file contents => contents.map fun file => [VAULT_TYPE_FILE] :: copy_chunks file
  | .dir entries => some ([VAULT_TYPE_DIR] :: pack_directory_tree [] entries ++ [le_bytes 2 0])

/-- The loop over `payload_tmp`: the chunks it writes, and `mac_ctx`. -/
def encrypt_loop (key nonce : List UInt8) (counter : UInt32) (mac_ctx : SHA256_CTX)
    (tmp : List UInt8) : List (List UInt8) × SHA256_CTX :=
  if _h : 0 < tmp.length then
    let r := chacha20_crypt key nonce counter (tmp.take CHUNK_SZ)
    let rest := encrypt_loop key nonce r.2 (sha256_update mac_ctx r.1) (tmp.drop CHUNK_SZ)
    (r.1 :: rest.1, rest.2)
  else ([], mac_ctx)
termination_by tmp.length
decreasing_by
  rw [List.length_drop]
  unfold CHUNK_SZ
  omega

abbrev salt_bytes := Vector UInt8 SALT_SIZE
abbrev nonce_bytes := Vector UInt8 NONCE_SIZE

/-- What is written to `out_vault`, from what `payload_tmp` holds. -/
def vault_writes (pass : List UInt8) (salt : salt_bytes) (nonce : nonce_bytes)
    (tmp : List UInt8) : List (List UInt8) :=
  let keys := derive_key pass salt.toList
  let r := encrypt_loop keys.1 nonce.toList 1 (sha256_update sha256_init keys.2) tmp
  [KRYPT_MAGIC, salt.toList, nonce.toList] ++ r.1 ++ [sha256_final r.2]

/-- `rmd_cmd` -/
def rmd_cmd (target_path : List UInt8) : List UInt8 :=
  let arg := literal "rmd -r -f \"" ++ target_path ++ literal "\""
  (literal "./" ++ arg ++ literal " 2>/dev/null || low-utils/" ++ arg
    ++ literal " 2>/dev/null || " ++ arg).take 1023

/-- What a `write` stores of its buffer, by what it returns: -1, or a number of bytes. -/
def stored (r : Option ℕ) (buffer : List UInt8) : List UInt8 := buffer.take (r.getD 0)

/-- What a file holds after the writes from number `i` on. -/
def write_all (writes : ℕ → Option ℕ) : ℕ → List (List UInt8) → List UInt8
  | _, [] => []
  | i, buffer :: buffers => stored (writes i) buffer ++ write_all writes (i + 1) buffers

structure environment where
  target : Option target
  tmp_opens : Bool
  urandom : Option (salt_bytes × nonce_bytes)
  out_opens : Bool
  writes : ℕ → Option ℕ

/-- What `encrypt_vault` returns, leaves in `out_vault` and gives to `system`. -/
structure encrypt_result where
  code : ℤ
  out_vault : Option (List UInt8)
  shred : Option (List UInt8)
  deriving DecidableEq

def encrypt_vault (env : environment) (in_target pass : List UInt8) (auto_shred : Bool) :
    encrypt_result :=
  match env.target with
  | none => ⟨-1, none, none⟩
  | some t =>
    if env.tmp_opens then
      match payload_writes t, env.urandom with
      | some buffers, some (salt, nonce) =>
        let tmp := write_all env.writes 0 buffers
        if env.out_opens then
          let vault := write_all env.writes buffers.length (vault_writes pass salt nonce tmp)
          ⟨0, some vault, if auto_shred then some (rmd_cmd in_target) else none⟩
        else ⟨-1, none, none⟩
      | _, _ => ⟨-1, none, none⟩
    else ⟨-1, none, none⟩

/-! ## `decrypt_vault` -/

inductive vault_error where
  | invalid
  | truncated
  | authentication
  deriving DecidableEq

/-- `(remaining > (off_t)sizeof(chunk)) ? sizeof(chunk) : remaining` -/
def next_read (remaining : ℕ) : ℕ := if remaining > CHUNK_SZ then CHUNK_SZ else remaining

/-- The first loop: `mac_ctx`, and what is left of the file. -/
def mac_loop (mac_ctx : SHA256_CTX) (remaining : ℕ) (file : List UInt8) :
    SHA256_CTX × List UInt8 :=
  let chunk := file.take (next_read remaining)
  if _h : 0 < remaining ∧ 0 < chunk.length then
    mac_loop (sha256_update mac_ctx chunk) (remaining - chunk.length) (file.drop chunk.length)
  else (mac_ctx, file)
termination_by remaining
decreasing_by exact Nat.sub_lt _h.1 _h.2

/-- The second loop: what it writes to `dec_tmp`. -/
def decrypt_loop (key nonce : List UInt8) (counter : UInt32) (remaining : ℕ) (file : List UInt8) :
    List UInt8 :=
  let chunk := file.take (next_read remaining)
  if _h : 0 < remaining ∧ 0 < chunk.length then
    let r := chacha20_crypt key nonce counter chunk
    r.1 ++ decrypt_loop key nonce r.2 (remaining - chunk.length) (file.drop chunk.length)
  else []
termination_by remaining
decreasing_by exact Nat.sub_lt _h.1 _h.2

/-- `8 + SALT_SIZE + NONCE_SIZE` -/
def header_size : ℕ := 8 + SALT_SIZE + NONCE_SIZE

/-- `decrypt_vault` up to `dec_tmp`. -/
def decrypt_payload (in_vault pass : List UInt8) : Except vault_error (List UInt8) :=
  if in_vault.take 8 ≠ KRYPT_MAGIC then .error .invalid
  else
    let salt := (in_vault.drop 8).take SALT_SIZE
    let nonce := (in_vault.drop (8 + SALT_SIZE)).take NONCE_SIZE
    let keys := derive_key pass salt
    if in_vault.length < header_size + 32 then .error .truncated
    else
      let payload_sz := in_vault.length - header_size - 32
      let r := mac_loop (sha256_update sha256_init keys.2) payload_sz (in_vault.drop header_size)
      if sha256_final r.1 ≠ r.2.take 32 then .error .authentication
      else .ok (decrypt_loop keys.1 nonce 1 payload_sz (in_vault.drop header_size))

/-! ## The record loop -/

/-- What a record of a directory vault says, and what is written to its file. -/
structure record where
  rel_path : List UInt8
  is_dir : UInt8
  mode : UInt32
  fsize : UInt64
  payload : List UInt8
  deriving DecidableEq

/-- The loop over `file_rem`: what it writes, and what is left of `dec_tmp`. -/
def restore_loop (file_rem : ℕ) (tmp : List UInt8) : List UInt8 × List UInt8 :=
  let chunk := tmp.take (next_read file_rem)
  if _h : 0 < file_rem ∧ 0 < chunk.length then
    let rest := restore_loop (file_rem - chunk.length) (tmp.drop chunk.length)
    (chunk ++ rest.1, rest.2)
  else ([], tmp)
termination_by file_rem
decreasing_by exact Nat.sub_lt _h.1 _h.2

theorem restore_loop_length (file_rem : ℕ) (tmp : List UInt8) :
    (restore_loop file_rem tmp).2.length ≤ tmp.length := by
  induction file_rem using Nat.strong_induction_on generalizing tmp with
  | _ n ih =>
    rw [restore_loop]
    dsimp only
    split
    · refine (ih _ (by omega) _).trans ?_
      rw [List.length_drop]
      exact Nat.sub_le _ _
    · exact le_rfl

/-- The `while (1)` of a directory vault. `opens` says which of its files it can open, by the turn.
`none` is a path that leaves `rel_path` or is not there to the end. -/
def read_records (opens : ℕ → Bool) (turn : ℕ) (tmp : List UInt8) : Option (List record) :=
  let path_len := le_nat (tmp.take 2)
  if _h : tmp.length = 0 ∨ path_len = 0 then some []
  else if 1024 ≤ path_len ∨ (tmp.drop 2).length < path_len then none
  else
    let fields := (tmp.drop 2).drop path_len
    let is_dir := UInt8.ofNat (le_field fields 0 1)
    let fsize := UInt64.ofNat (le_field fields 5 8)
    let r := if is_dir = 0 ∧ opens turn then restore_loop fsize.toNat (fields.drop 13)
      else ([], fields.drop 13)
    (read_records opens (turn + 1) r.2).map fun rest =>
      { rel_path := ((tmp.drop 2).take path_len).takeWhile (· ≠ 0)
        is_dir := is_dir
        mode := UInt32.ofNat (le_field fields 1 4)
        fsize := fsize
        payload := r.1 } :: rest
termination_by tmp.length
decreasing_by
  have hfields : (((tmp.drop 2).drop path_len).drop 13).length < tmp.length := by
    simp only [List.length_drop]
    omega
  split_ifs
  · exact (restore_loop_length _ _).trans_lt hfields
  · exact hfields

end SysInC.Krypt
