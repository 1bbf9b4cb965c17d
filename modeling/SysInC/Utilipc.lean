/-
`src/libutilipc/utilipc.c`, the memory that the tools share: a history of what they did, the
messages that they sent, and a table of the processes that run.

A function is given by its critical sections, what it does between `lock_shm` and `unlock_shm` on
the data of a process that has mapped it. `none` is a write outside of a field. The clock is read by
the caller, and `kill(pid, 0)` is asked for all processes at once.
-/
import SysInC.CString
import SysInC.CText
import Mathlib.Data.Int.Notation
import Mathlib.Logic.Function.Basic

set_option autoImplicit false

namespace SysInC.Utilipc

open CString

/-! ## The data -/

def UTILIPC_MAX_MSG : ℕ := 256
def UTILIPC_HISTORY_SIZE : ℕ := 16
def UTILIPC_MAX_PROCS : ℕ := 16
def UTILIPC_MEM_CHUNKS : ℕ := 32

inductive MemSlot where
  | FREE
  | KERNEL
  | ACTIVE
  | PINNED
  | CACHE
  deriving DecidableEq

/-- A string that is passed to a function. -/
abbrev Str := { s : List UInt8 // 0 ∉ s }

def unknown : Str := ⟨CText.literal "unknown", by decide⟩
def ipc_client : Str := ⟨CText.literal "ipc_client", by decide⟩
def broadcast : Str := ⟨CText.literal "broadcast", by decide⟩
def proc : Str := ⟨CText.literal "proc", by decide⟩
def system_boot : Str := ⟨CText.literal "system_boot", by decide⟩
def initialized : Str := ⟨CText.literal "IPC Shared Memory Initialized", by decide⟩
def empty : Str := ⟨[], List.not_mem_nil⟩

structure utilipc_comm_entry_t where
  sender_tool : Buf 32
  target_tool : Buf 32
  sender_pid : ℤ
  message : Buf UTILIPC_MAX_MSG
  timestamp : ℤ

structure utilipc_log_entry_t where
  tool : Buf 32
  action : Buf UTILIPC_MAX_MSG
  timestamp : ℤ

structure utilipc_proc_entry_t where
  pid : ℤ
  tool : Buf 32
  start_time : ℤ
  is_active : Bool

structure utilipc_data_t where
  last_action : Buf UTILIPC_MAX_MSG
  last_writer : Buf 32
  last_caller_pid : ℤ
  last_updated : ℤ
  total_ipc_calls : UInt32
  mem_slots : ℕ → MemSlot
  mem_slots_prev : ℕ → MemSlot
  last_slot_update : ℤ
  history : ℕ → utilipc_log_entry_t
  history_head : ℕ
  history_count : ℕ
  comm_log : ℕ → utilipc_comm_entry_t
  comm_head : ℕ
  comm_count : ℕ
  active_procs : ℕ → utilipc_proc_entry_t
  active_proc_count : ℕ

/-- What a process finds out for itself: its number, the time, and the time again when the blocks
of memory are drawn. -/
structure Caller where
  pid : ℤ
  now : ℤ
  later : ℤ

def update_simulated_mem_matrix (later : ℤ) (d : utilipc_data_t) : utilipc_data_t :=
  let active_load := min 28 (d.total_ipc_calls.toNat % 10 + d.active_proc_count * 3)
  { d with
    mem_slots_prev := d.mem_slots
    mem_slots := fun i =>
      if i = 0 then .PINNED
      else if i < 3 then .KERNEL
      else if i < 3 + active_load then if i % 3 = 0 then .CACHE else .ACTIVE
      else .FREE
    last_slot_update := later }

/-- `memset(&shm_ptr->data, 0, sizeof(utilipc_data_t))` -/
def cleared : utilipc_data_t where
  last_action := zeros _
  last_writer := zeros _
  last_caller_pid := 0
  last_updated := 0
  total_ipc_calls := 0
  mem_slots := fun _ => .FREE
  mem_slots_prev := fun _ => .FREE
  last_slot_update := 0
  history := fun _ => ⟨zeros _, zeros _, 0⟩
  history_head := 0
  history_count := 0
  comm_log := fun _ => ⟨zeros _, zeros _, 0, zeros _, 0⟩
  comm_head := 0
  comm_count := 0
  active_procs := fun _ => ⟨0, zeros _, 0, false⟩
  active_proc_count := 0

/-- `utilipc_init` of the process that creates the memory. -/
def utilipc_init (c : Caller) : Option utilipc_data_t := do
  let last_action ← strncpy cleared.last_action initialized.val (UTILIPC_MAX_MSG - 1)
  let last_writer ← strncpy cleared.last_writer system_boot.val 31
  some (update_simulated_mem_matrix c.later
    { cleared with
      last_action := last_action
      last_writer := last_writer
      last_caller_pid := c.pid
      last_updated := c.now })

theorem tool_strncpy {dst : Buf 32} (h : Closed dst) (src : Str) :
    ∃ dst', strncpy dst src.val 31 = some dst' ∧ Closed dst' ∧ text dst' = src.val.take 31 := by
  obtain ⟨dst', hcopy, hclosed, htext⟩ := h.strncpy src.val
  exact ⟨dst', hcopy, hclosed, htext src.property⟩

theorem utilipc_init_some (boot : Caller) :
    ∃ last_action last_writer, utilipc_init boot = some (update_simulated_mem_matrix boot.later
      { cleared with
        last_action := last_action
        last_writer := last_writer
        last_caller_pid := boot.pid
        last_updated := boot.now }) := by
  obtain ⟨last_writer, hwriter⟩ : ∃ b, strncpy cleared.last_writer system_boot.val 31 = some b :=
    (tool_strncpy (closed_zeros 31) system_boot).imp fun _ h => h.1
  obtain ⟨last_action, haction⟩ : ∃ b, strncpy cleared.last_action initialized.val
      (UTILIPC_MAX_MSG - 1) = some b :=
    ((closed_zeros 255).strncpy initialized.val).imp fun _ h => h.1
  exact ⟨last_action, last_writer, by
    simp only [utilipc_init, haction, hwriter, Option.bind_eq_bind, Option.bind_some]⟩

/-! ## The history and the messages -/

/-- `strncpy(dst, src, sizeof(dst) - 1); dst[sizeof(dst) - 1] = '\0';` -/
def copy_field {n : ℕ} (dst : Buf n) (src : Str) : Option (Buf n) := do
  let dst ← strncpy dst src.val (n - 1)
  put dst (n - 1) 0

/-- The same under `if (src)`. -/
def copy_field_if {n : ℕ} (dst : Buf n) : Option Str → Option (Buf n)
  | some src => copy_field dst src
  | none => some dst

/-- The entry at `history[idx]` is written over. -/
def fill_history (c : Caller) (tool action : Option Str) (entry : utilipc_log_entry_t) :
    Option utilipc_log_entry_t := do
  let entry_tool ← copy_field entry.tool (tool.getD unknown)
  let entry_action ← copy_field entry.action (action.getD empty)
  some ⟨entry_tool, entry_action, c.now⟩

def history_idx (d : utilipc_data_t) : ℕ :=
  (d.history_head + d.history_count) % UTILIPC_HISTORY_SIZE

/-- The entry at `history[idx]`, and head and count behind it. -/
def push_history (d : utilipc_data_t) (entry : utilipc_log_entry_t) : utilipc_data_t :=
  { d with
    history := Function.update d.history (history_idx d) entry
    history_head := if d.history_count < UTILIPC_HISTORY_SIZE then d.history_head
      else (d.history_head + 1) % UTILIPC_HISTORY_SIZE
    history_count := if d.history_count < UTILIPC_HISTORY_SIZE then d.history_count + 1
      else d.history_count }

/-- The critical section of `utilipc_log`. -/
def utilipc_log (c : Caller) (tool action : Option Str) (d : utilipc_data_t) :
    Option utilipc_data_t := do
  let entry ← fill_history c tool action (d.history (history_idx d))
  let d := push_history d entry
  let last_writer ← copy_field_if d.last_writer tool
  let last_action ← copy_field_if d.last_action action
  some (update_simulated_mem_matrix c.later
    { d with
      last_writer := last_writer
      last_action := last_action
      last_caller_pid := c.pid
      last_updated := c.now
      total_ipc_calls := d.total_ipc_calls + 1 })

/-- The entry at `comm_log[idx]` is written over, all but the last byte of its fields. -/
def fill_comm (c : Caller) (sender target msg : Option Str) (entry : utilipc_comm_entry_t) :
    Option utilipc_comm_entry_t := do
  let sender_tool ← strncpy entry.sender_tool (sender.getD ipc_client).val 31
  let target_tool ← strncpy entry.target_tool (target.getD broadcast).val 31
  let message ← strncpy entry.message (msg.getD empty).val (UTILIPC_MAX_MSG - 1)
  some ⟨sender_tool, target_tool, c.pid, message, c.now⟩

def comm_idx (d : utilipc_data_t) : ℕ := (d.comm_head + d.comm_count) % UTILIPC_HISTORY_SIZE

def push_comm (d : utilipc_data_t) (entry : utilipc_comm_entry_t) : utilipc_data_t :=
  { d with
    comm_log := Function.update d.comm_log (comm_idx d) entry
    comm_head := if d.comm_count < UTILIPC_HISTORY_SIZE then d.comm_head
      else (d.comm_head + 1) % UTILIPC_HISTORY_SIZE
    comm_count := if d.comm_count < UTILIPC_HISTORY_SIZE then d.comm_count + 1
      else d.comm_count }

/-- The first critical section of `utilipc_send_msg`; the second is that of `utilipc_log`. -/
def utilipc_send_msg (c : Caller) (sender target msg : Option Str) (d : utilipc_data_t) :
    Option utilipc_data_t :=
  (fill_comm c sender target msg (d.comm_log (comm_idx d))).map (push_comm d)

/-! ## The processes -/

/-- The loop of `utilipc_register_process`, with the slot that it has come upon. -/
structure Search where
  active_procs : ℕ → utilipc_proc_entry_t
  active_proc_count : ℕ
  slot : Option ℕ

/-- A slot is no longer in use. -/
def release (procs : ℕ → utilipc_proc_entry_t) (i : ℕ) : ℕ → utilipc_proc_entry_t :=
  Function.update procs i { procs i with is_active := false }

/-- A slot whose process is no more. `no_such_process` is `kill(pid, 0) < 0 && errno == ESRCH`. -/
def reclaim (no_such_process : ℤ → Bool) (s : Search) (i : ℕ) : Search :=
  if (s.active_procs i).is_active = true ∧ no_such_process (s.active_procs i).pid = true then
    { s with
      active_procs := release s.active_procs i
      active_proc_count := if 0 < s.active_proc_count then s.active_proc_count - 1
        else s.active_proc_count }
  else s

/-- The first slot that is free. -/
def note_free (s : Search) (i : ℕ) : Search :=
  if (s.active_procs i).is_active = false ∧ s.slot = none then { s with slot := some i } else s

def search_turn (no_such_process : ℤ → Bool) (s : Search) (i : ℕ) : Search :=
  note_free (reclaim no_such_process s i) i

/-- Behind the loop: the caller takes the slot, if there is one. -/
def take_slot (c : Caller) (tool_name : Option Str) (d : utilipc_data_t) (s : Search) :
    Option utilipc_data_t :=
  match s.slot with
  | none =>
    some { d with active_procs := s.active_procs, active_proc_count := s.active_proc_count }
  | some slot =>
    (strncpy (s.active_procs slot).tool (tool_name.getD proc).val 31).map fun tool => { d with
      active_procs := Function.update s.active_procs slot ⟨c.pid, tool, c.now, true⟩
      active_proc_count := s.active_proc_count + 1 }

def utilipc_register_process (c : Caller) (no_such_process : ℤ → Bool) (tool_name : Option Str)
    (d : utilipc_data_t) : Option utilipc_data_t :=
  take_slot c tool_name d ((List.range UTILIPC_MAX_PROCS).foldl (search_turn no_such_process)
    ⟨d.active_procs, d.active_proc_count, none⟩)

/-- The loop breaks off at the first slot that is the caller's. -/
def utilipc_unregister_process (c : Caller) (d : utilipc_data_t) : utilipc_data_t :=
  let mine := (List.range UTILIPC_MAX_PROCS).find? fun i =>
    (d.active_procs i).is_active && (d.active_procs i).pid == c.pid
  match mine with
  | none => d
  | some i => { d with
      active_procs := release d.active_procs i
      active_proc_count := if 0 < d.active_proc_count then d.active_proc_count - 1
        else d.active_proc_count }

end SysInC.Utilipc
