/-
`freestanding/kvfs.c`, the in-memory file system of the kernel.

The heap is kept as the blocks that are live, by address; what `kmalloc` answers is part of a
call, so that every pattern of exhaustion is covered. Memory that the caller owns (the
literals of the boot files, say) is not part of the heap, and stands in a node by its bytes.
`none` is a call that frees what is not a live block or leaves a buffer.
-/
import SysInC.KernelText
import SysInC.Kmem
import SysInC.LittleEndian
import SysInC.SlotTable

set_option autoImplicit false

namespace SysInC.Kvfs

def KVFS_MAX_NODES : ℕ := 64

def KVFS_MAX_PATH : ℕ := 128

/-! ## `kvfs_node_type_t`, the modes -/

def KVFS_TYPE_FILE : UInt8 := 0
def KVFS_TYPE_DIR : UInt8 := 1
def KVFS_TYPE_BIN : UInt8 := 2
def KVFS_TYPE_DEV : UInt8 := 3

def mode_0644 : UInt16 := 0o644
def mode_0660 : UInt16 := 0o660
def mode_0666 : UInt16 := 0o666
def mode_0755 : UInt16 := 0o755

/-! ## Nodes and the heap -/

/-- What a node's `data` points to. -/
inductive node_data where
  | null
  | object (bytes : List UInt8)
  | block (p : ℕ)
  deriving DecidableEq

structure kvfs_node where
  path : List UInt8
  data : node_data
  size : ℕ
  type : UInt8
  mode : UInt16
  is_used : Bool
  is_dynamic : Bool

/-- The live blocks. -/
abbrev Heap := ℕ → Option (List UInt8)

structure kvfs where
  vfs_table : List kvfs_node
  vfs_node_count : ℕ
  heap : Heap

/-- The static variables as the kernel starts. -/
def kvfs.start (heap : Heap) : kvfs where
  vfs_table := List.replicate KVFS_MAX_NODES ⟨[], .null, 0, 0, 0, false, false⟩
  vfs_node_count := 0
  heap := heap

/-- `kfree(p)` on a pointer that is not NULL. -/
def kfree (heap : Heap) (p : ℕ) : Option Heap :=
  if (heap p).isSome then some (Function.update heap p none) else none

/-- `if (n.is_dynamic && n.data) kfree((void *)n.data);` -/
def free_data (heap : Heap) (n : kvfs_node) : Option Heap :=
  if n.is_dynamic then
    match n.data with
    | .null => some heap
    | .object _ => none
    | .block p => kfree heap p
  else some heap

/-- `vfs_table[i].is_used && kstrcmp(vfs_table[i].path, clean_path) == 0` -/
def is_named (clean_path : List UInt8) (n : kvfs_node) : Bool :=
  n.is_used && decide (n.path = clean_path)

/-- `!vfs_table[i].is_used` -/
def is_free (n : kvfs_node) : Bool := !n.is_used

/-! ## The operations -/

def kvfs_create (s : kvfs) (path : Option (List UInt8)) (data : node_data) (size : ℕ)
    (type : UInt8) (mode : UInt16) : Option (kvfs × ℤ) :=
  if path = none ∨ KVFS_MAX_NODES ≤ s.vfs_node_count then some (s, -1)
  else
    let clean_path := sanitize_path path KVFS_MAX_PATH
    match find_slot (is_named clean_path) s.vfs_table with
    | some (pre, n, post) =>
      (free_data s.heap n).map fun heap =>
        let n' := { n with
          data := data, size := size, type := type, mode := mode, is_dynamic := false }
        ({ s with vfs_table := pre ++ n' :: post, heap := heap }, 0)
    | none =>
      match find_slot is_free s.vfs_table with
      | some (pre, _, post) =>
        let n' : kvfs_node :=
          { path := kstrncpy clean_path (KVFS_MAX_PATH - 1), data := data, size := size,
            type := type, mode := mode, is_used := true, is_dynamic := false }
        some ({ s with
          vfs_table := pre ++ n' :: post, vfs_node_count := s.vfs_node_count + 1 }, 0)
      | none => some (s, -1)

def kvfs_mkdir (s : kvfs) (path : Option (List UInt8)) : Option (kvfs × ℤ) :=
  kvfs_create s path .null 0 KVFS_TYPE_DIR mode_0755

/-- `heap_copy` with its bytes, once `data` and the NUL are written to it. A NULL `data`
leaves the bytes that the block came with. -/
def fill_copy (data : Option (List UInt8)) (size : ℕ) (bytes : List UInt8) :
    Option (List UInt8) :=
  if bytes.length ≤ size then none
  else
    match data with
    | none => some (bytes.take size ++ 0 :: bytes.drop (size + 1))
    | some src =>
      if src.length < size then none
      else some (src.take size ++ 0 :: bytes.drop (size + 1))

/-- `copy` is what `kmalloc(size + 1)` gives: a block and the bytes in it, or NULL. -/
def kvfs_write (s : kvfs) (copy : Option (ℕ × List UInt8)) (path : Option (List UInt8))
    (data : Option (List UInt8)) (size : ℕ) : Option (kvfs × ℤ) :=
  let clean_path := sanitize_path path KVFS_MAX_PATH
  match copy with
  | none => some (s, -1)
  | some (heap_copy, bytes) =>
    (fill_copy data size bytes).bind fun bytes =>
      let heap := Function.update s.heap heap_copy (some bytes)
      match find_slot (is_named clean_path) s.vfs_table with
      | some (pre, n, post) =>
        (free_data heap n).map fun heap =>
          let n' := { n with data := .block heap_copy, size := size, is_dynamic := true }
          ({ s with vfs_table := pre ++ n' :: post, heap := heap }, 0)
      | none =>
        match find_slot is_free s.vfs_table with
        | some (pre, _, post) =>
          let n' : kvfs_node :=
            { path := kstrncpy clean_path (KVFS_MAX_PATH - 1), data := .block heap_copy,
              size := size, type := KVFS_TYPE_FILE, mode := mode_0644, is_used := true,
              is_dynamic := true }
          some ({ vfs_table := pre ++ n' :: post, vfs_node_count := s.vfs_node_count + 1,
                  heap := heap }, 0)
        | none => (kfree heap heap_copy).map fun heap => ({ s with heap := heap }, -1)

def kvfs_delete (s : kvfs) (path : Option (List UInt8)) : Option (kvfs × ℤ) :=
  let clean_path := sanitize_path path KVFS_MAX_PATH
  match find_slot (is_named clean_path) s.vfs_table with
  | some (pre, n, post) =>
    (free_data s.heap n).map fun heap =>
      let n' := { n with is_used := false, path := [], data := .null }
      ({ vfs_table := pre ++ n' :: post, vfs_node_count := s.vfs_node_count - 1,
         heap := heap }, 0)
  | none => some (s, -1)

/-- The node found. -/
def kvfs_open (s : kvfs) (path : Option (List UInt8)) : Option kvfs_node :=
  match path with
  | none => none
  | some _ =>
    (find_slot (is_named (sanitize_path path KVFS_MAX_PATH)) s.vfs_table).map fun r => r.2.1

/-! ## `kvfs_init` -/

/-- The frees of the loop of `kvfs_init`. -/
def free_nodes : Heap → List kvfs_node → Option Heap
  | heap, [] => some heap
  | heap, n :: t =>
    (if n.is_used then free_data heap n else some heap).bind fun heap => free_nodes heap t

/-- The assignments of the loop of `kvfs_init`. -/
def reset_node (n : kvfs_node) : kvfs_node :=
  { n with is_used := false, is_dynamic := false, path := [], data := .null, size := 0 }

/-- `sizeof(kbmp_header_t)`, packed. -/
def sizeof_bmp_header : ℕ := 54

/-- `sizeof(sample_bmp_buffer)` -/
def sizeof_sample_bmp : ℕ := sizeof_bmp_header + 32 * 32 * 3

/-- The bytes of the pixel at `(x, y)`. -/
def sample_pixel (x y : ℕ) : List UInt8 :=
  [UInt8.ofNat (x * 8), UInt8.ofNat (y * 8), UInt8.ofNat ((x + y) * 4)]

/-- What `generate_sample_bmp` leaves in `sample_bmp_buffer`. -/
def generate_sample_bmp : List UInt8 :=
  le_bytes 2 0x4D42 ++ le_bytes 4 sizeof_sample_bmp ++ le_bytes 2 0 ++ le_bytes 2 0
    ++ le_bytes 4 sizeof_bmp_header ++ le_bytes 4 40 ++ le_bytes 4 32 ++ le_bytes 4 32
    ++ le_bytes 2 1 ++ le_bytes 2 24 ++ le_bytes 4 0 ++ le_bytes 4 (32 * 32 * 3)
    ++ le_bytes 4 0 ++ le_bytes 4 0 ++ le_bytes 4 0 ++ le_bytes 4 0
    ++ (List.range 32).flatMap fun y => (List.range 32).flatMap fun x => sample_pixel x y

/-- The arguments of a `kvfs_create`. -/
structure boot_entry where
  path : List UInt8
  data : node_data
  size : ℕ
  type : UInt8
  mode : UInt16

/-- `kvfs_mkdir(path)` -/
def boot_dir (path : String) : boot_entry :=
  ⟨literal path, .null, 0, KVFS_TYPE_DIR, mode_0755⟩

/-- `kvfs_create(path, text, sizeof(text) - 1, type, mode)` -/
def boot_text (type : UInt8) (mode : UInt16) (path text : String) : boot_entry :=
  ⟨literal path, .object (literal text ++ [0]), (literal text).length, type, mode⟩

def boot_file : String → String → boot_entry := boot_text KVFS_TYPE_FILE mode_0644
def boot_bin : String → String → boot_entry := boot_text KVFS_TYPE_BIN mode_0755
def boot_dev : UInt16 → String → String → boot_entry := boot_text KVFS_TYPE_DEV

/-- `kvfs_create("/home/logo.bmp", sample_bmp_buffer, sizeof(sample_bmp_buffer), …)` -/
def boot_logo : boot_entry :=
  ⟨literal "/home/logo.bmp", .object generate_sample_bmp, generate_sample_bmp.length,
    KVFS_TYPE_FILE, mode_0644⟩

/-- `etc_passwd_buf`, an array of 512 bytes. -/
def etc_passwd_buf : List UInt8 :=
  (literal "root:root:0:0:root:/root:/bin/sh\nuser:1234:1000:1000:User:/home/user:/bin/sh\n").rightpad
    512 0

/-- `kvfs_create("/etc/passwd", etc_passwd_buf, sizeof(etc_passwd_buf) - 1, …)` -/
def boot_passwd : boot_entry :=
  ⟨literal "/etc/passwd", .object etc_passwd_buf, etc_passwd_buf.length - 1, KVFS_TYPE_FILE,
    mode_0644⟩

/-- The calls that end `kvfs_init`. -/
def boot_entries : List boot_entry :=
  [ boot_dir "/",
    boot_dir "/bin",
    boot_dir "/etc",
    boot_dir "/dev",
    boot_dir "/home",
    boot_dir "/home/user",
    boot_file "/readme.txt"
      "Welcome to utils-in-c OS VFS Root.\nUse 'help' to see all commands.",
    boot_logo,
    boot_bin "/bin/ls" "[BIN] ls [dir] - Lista arquivos\n",
    boot_bin "/bin/cd" "[BIN] cd <dir> - Navega entre pastas\n",
    boot_bin "/bin/pwd" "[BIN] pwd - Diretorio atual\n",
    boot_bin "/bin/cat" "[BIN] cat <path> - Exibe arquivo\n",
    boot_bin "/bin/view" "[BIN] view <arquivo.bmp> - Visualizador de imagens BMP\n",
    boot_bin "/bin/calc_gui" "[BIN] calc_gui - Calculadora visual flutuante\n",
    boot_bin "/bin/snake" "[BIN] snake - Jogo retro Cobrinha\n",
    boot_bin "/bin/beep" "[BIN] beep [freq] [ms] - Emite som no PC Speaker\n",
    boot_bin "/bin/write"
      "[BIN] write <path> <texto> - Cria/escreve arquivo persistente no disco\n",
    boot_bin "/bin/touch" "[BIN] touch <path> - Cria arquivo vazio\n",
    boot_bin "/bin/mkdir" "[BIN] mkdir <path> - Cria diretorio\n",
    boot_bin "/bin/rm" "[BIN] rm <path> - Deleta arquivo do disco\n",
    boot_bin "/bin/whoami" "[BIN] whoami - Exibe o usuario atual\n",
    boot_bin "/bin/su" "[BIN] su <usuario> - Alterna de usuario com senha\n",
    boot_bin "/bin/adduser" "[BIN] adduser <usuario> <senha> - Cria novo usuario\n",
    boot_bin "/bin/mem" "[BIN] mem - Heap KMEM\n",
    boot_bin "/bin/clear" "[BIN] clear - Limpa tela\n",
    boot_bin "/bin/ata" "[BIN] ata [info|0] - Testa disco ATA\n",
    boot_bin "/bin/format_disk" "[BIN] format_disk - Formata disk.img com KSFS\n",
    boot_bin "/bin/exit" "[BIN] exit - Retorna ao GUI\n",
    boot_file "/etc/hostname" "utils-os\n",
    boot_file "/etc/os-release"
      "NAME=\"utils-in-c OS\"\nVERSION=\"2.6\"\nID=utils-os\n",
    boot_passwd,
    boot_file "/etc/kernel.config"
      "KERNEL=Multiboot1\nVIDEO=VBE800x600x32\nVFS=KSFS_ATA_PERSISTENT\n",
    boot_file "/etc/motd"
      "Welcome to utils-in-c OS v2.6!\nReal Persistent ATA Disk & Multi-User System Active.\n",
    boot_dev mode_0666 "/dev/null" "[DEV] Character Device: Null (/dev/null)\n",
    boot_dev mode_0666 "/dev/zero" "[DEV] Character Device: Zero Source (/dev/zero)\n",
    boot_dev mode_0660 "/dev/fb0"
      "[DEV] Video Framebuffer: 800x600x32bpp VBE ARGB at 0xFD000000\n",
    boot_dev mode_0660 "/dev/ps2kbd"
      "[DEV] Input Device: PS/2 Keyboard on Port 0x60 (IRQ 1)\n",
    boot_dev mode_0660 "/dev/ps2mouse"
      "[DEV] Input Device: PS/2 Mouse on Port 0x60 (IRQ 12)\n",
    boot_dev mode_0660 "/dev/ata0"
      "[DEV] Block Device: Primary Master ATA PIO Hard Disk on 0x1F0\n" ]

/-- The calls for `entries`, one after the other. -/
def create_all : kvfs → List boot_entry → Option kvfs
  | s, [] => some s
  | s, e :: rest =>
    (kvfs_create s (some e.path) e.data e.size e.type e.mode).bind fun r => create_all r.1 rest

def kvfs_init (s : kvfs) : Option kvfs :=
  (free_nodes s.heap s.vfs_table).bind fun heap =>
    create_all { vfs_table := s.vfs_table.map reset_node, vfs_node_count := 0, heap := heap }
      boot_entries

end SysInC.Kvfs
