/-
What the two rings of `src/libutilipc/utilipc.c` hold when any number of processes write to them.

The processes take turns, one critical section a turn, in any order. Each ring, read from its head,
then holds the newest entries in the order in which they were made, and every process has made
those of its calls.
-/
import SysInC.RingQueue
import SysInC.Utilipc

set_option autoImplicit false

namespace SysInC.Utilipc

open CString RingQueue

/-! ## Processes -/

inductive Call where
  | log (tool action : Option Str)
  | send_msg (sender target msg : Option Str)

/-- A critical section, with what the call was given. -/
inductive Section where
  | log (tool action : Option Str)
  | comm (sender target msg : Option Str)

def Section.exec (c : Caller) : Section → utilipc_data_t → Option utilipc_data_t
  | .log tool action => utilipc_log c tool action
  | .comm sender target msg => utilipc_send_msg c sender target msg

def Call.sections : Call → List Section
  | .log tool action => [.log tool action]
  | .send_msg sender target msg => [.comm sender target msg, .log sender msg]

/-- The memory, the critical sections that each process has still in front of it, and those that
were gone through, in order. -/
structure System where
  data : utilipc_data_t
  left : ℤ → List Section
  done : List (Caller × Section)

/-- The caller enters its next critical section, if there is one. -/
def turn (s : System) (c : Caller) : Option System :=
  match s.left c.pid with
  | [] => some s
  | sec :: rest => (sec.exec c s.data).map fun data =>
    { data, left := Function.update s.left c.pid rest, done := s.done ++ [(c, sec)] }

/-- The turns of the callers, from the memory as it is created. -/
def run (boot : Caller) (programs : ℤ → List Call) (callers : List Caller) : Option System :=
  (utilipc_init boot).bind fun data =>
    callers.foldlM turn ⟨data, fun pid => (programs pid).flatMap Call.sections, []⟩

/-! ## Entries -/

structure LogText where
  tool : List UInt8
  action : List UInt8
  timestamp : ℤ
  deriving DecidableEq

structure CommText where
  sender_tool : List UInt8
  target_tool : List UInt8
  sender_pid : ℤ
  message : List UInt8
  timestamp : ℤ
  deriving DecidableEq

def log_text (e : utilipc_log_entry_t) : LogText := ⟨text e.tool, text e.action, e.timestamp⟩

def comm_text (e : utilipc_comm_entry_t) : CommText :=
  ⟨text e.sender_tool, text e.target_tool, e.sender_pid, text e.message, e.timestamp⟩

/-- The history, read from `history_head` on. -/
def read_history (d : utilipc_data_t) : List LogText :=
  (List.range d.history_count).map fun k =>
    log_text (d.history ((d.history_head + k) % UTILIPC_HISTORY_SIZE))

def read_comm (d : utilipc_data_t) : List CommText :=
  (List.range d.comm_count).map fun k =>
    comm_text (d.comm_log ((d.comm_head + k) % UTILIPC_HISTORY_SIZE))

/-- The entry that a critical section is to make in the history, cut to the fields. -/
def logged (e : Caller × Section) : Option LogText :=
  match e.2 with
  | .log tool action =>
    some ⟨(tool.getD unknown).val.take 31, (action.getD empty).val.take 255, e.1.now⟩
  | .comm _ _ _ => none

def sent (e : Caller × Section) : Option CommText :=
  match e.2 with
  | .log _ _ => none
  | .comm sender target msg =>
    some ⟨(sender.getD ipc_client).val.take 31, (target.getD broadcast).val.take 31, e.1.pid,
      (msg.getD empty).val.take 255, e.1.now⟩

/-! ## Fields -/

theorem copy_field_text {n : ℕ} (hn : 0 < n) (dst : Buf n) (src : Str) :
    ∃ b, copy_field dst src = some b ∧ text b = src.val.take (n - 1) := by
  have hlen : (src.val.take (n - 1) ++ List.replicate (n - 1 - src.val.length) 0).length
      = n - 1 := by
    rw [List.length_append, List.length_take, List.length_replicate]
    omega
  obtain ⟨front, hfront, hval⟩ := write_of_le dst
    (src.val.take (n - 1) ++ List.replicate (n - 1 - src.val.length) 0)
    (show 0 + _ ≤ n by rw [hlen]; omega)
  obtain ⟨b, hb, hval'⟩ := write_of_le front [0]
    (show n - 1 + 1 ≤ n by omega)
  refine ⟨b, ?_, ?_⟩
  · unfold copy_field strncpy put
    rw [hfront]
    exact hb
  · have htake : front.val.take (n - 1)
        = src.val.take (n - 1) ++ List.replicate (n - 1 - src.val.length) 0 := by
      rw [hval, List.take_zero, List.nil_append]
      exact List.take_left' hlen
    rw [text, hval', htake, List.append_assoc, List.append_assoc, ← List.append_assoc _ [0],
      ← List.replicate_succ', List.replicate_succ]
    exact text_of_append_zero (fun hmem => src.property (List.mem_of_mem_take hmem)) _

theorem copy_field_if_some {n : ℕ} (hn : 0 < n) (dst : Buf n) (src : Option Str) :
    ∃ b, copy_field_if dst src = some b := by
  cases src with
  | none => exact ⟨dst, rfl⟩
  | some src => exact (copy_field_text hn dst src).imp fun _ h => h.1

theorem fill_history_text (c : Caller) (tool action : Option Str) (entry : utilipc_log_entry_t) :
    ∃ e, fill_history c tool action entry = some e ∧
      some (log_text e) = logged (c, .log tool action) := by
  obtain ⟨entry_tool, htool, htext⟩ := copy_field_text (by decide) entry.tool (tool.getD unknown)
  obtain ⟨entry_action, haction, hatext⟩ :=
    copy_field_text (by decide) entry.action (action.getD empty)
  refine ⟨⟨entry_tool, entry_action, c.now⟩, ?_, ?_⟩
  · rw [fill_history, htool, haction]
    rfl
  · rw [log_text, htext, hatext]
    rfl

/-- What a message relies on: it leaves the last byte of each field as it is. -/
structure EntryClosed (entry : utilipc_comm_entry_t) : Prop where
  sender_tool : Closed entry.sender_tool
  target_tool : Closed entry.target_tool
  message : Closed entry.message

theorem fill_comm_text {entry : utilipc_comm_entry_t} (h : EntryClosed entry) (c : Caller)
    (sender target msg : Option Str) :
    ∃ e, fill_comm c sender target msg entry = some e ∧ EntryClosed e ∧
      some (comm_text e) = sent (c, .comm sender target msg) := by
  obtain ⟨sender_tool, hsender, hsclosed, hstext⟩ := tool_strncpy h.sender_tool
    (sender.getD ipc_client)
  obtain ⟨target_tool, htarget, htclosed, httext⟩ := tool_strncpy h.target_tool
    (target.getD broadcast)
  obtain ⟨message, hmessage, hmclosed, hmtext⟩ := h.message.strncpy (msg.getD empty).val
  refine ⟨⟨sender_tool, target_tool, c.pid, message, c.now⟩, ?_, ⟨hsclosed, htclosed, hmclosed⟩, ?_⟩
  · rw [fill_comm, hsender, htarget, hmessage]
    rfl
  · rw [comm_text, hstext, httext, hmtext (msg.getD empty).property]
    rfl

/-! ## Critical sections -/

structure Tidy (d : utilipc_data_t) : Prop where
  history_count : d.history_count ≤ UTILIPC_HISTORY_SIZE
  comm_count : d.comm_count ≤ UTILIPC_HISTORY_SIZE
  comm_closed : ∀ i, EntryClosed (d.comm_log i)

variable {d : utilipc_data_t}

theorem count_le {n count : ℕ} (h : count ≤ n) : (if count < n then count + 1 else count) ≤ n := by
  split <;> omega

theorem read_history_push (h : Tidy d) (e : utilipc_log_entry_t) :
    read_history (push_history d e) =
      (read_history d ++ [log_text e]).rtake UTILIPC_HISTORY_SIZE := by
  have hpush := contents_push_newest (log_text ∘ d.history) d.history_head h.history_count (log_text e)
  rw [← Function.comp_update] at hpush
  exact hpush

theorem read_comm_push (h : Tidy d) (e : utilipc_comm_entry_t) :
    read_comm (push_comm d e) = (read_comm d ++ [comm_text e]).rtake UTILIPC_HISTORY_SIZE := by
  have hpush := contents_push_newest (comm_text ∘ d.comm_log) d.comm_head h.comm_count (comm_text e)
  rw [← Function.comp_update] at hpush
  exact hpush

/-- What is read of a ring behind a critical section: the entry that it makes comes last. -/
def newest {α : Type*} (l : List α) (x : Option α) : List α :=
  (l ++ x.toList).rtake UTILIPC_HISTORY_SIZE

theorem newest_none {α : Type*} {l : List α} (h : l.length ≤ UTILIPC_HISTORY_SIZE) :
    newest l none = l := by
  rw [newest, Option.toList_none, List.append_nil, List.rtake, Nat.sub_eq_zero_of_le h,
    List.drop_zero]

theorem length_read_history (d : utilipc_data_t) : (read_history d).length = d.history_count := by
  rw [read_history, List.length_map, List.length_range]

theorem length_read_comm (d : utilipc_data_t) : (read_comm d).length = d.comm_count := by
  rw [read_comm, List.length_map, List.length_range]

theorem utilipc_log_spec (h : Tidy d) (c : Caller) (tool action : Option Str) :
    ∃ d', utilipc_log c tool action d = some d' ∧ Tidy d' ∧
      read_history d' = newest (read_history d) (logged (c, .log tool action)) ∧
      read_comm d' = newest (read_comm d) (sent (c, .log tool action)) := by
  obtain ⟨e, he, htext⟩ := fill_history_text c tool action (d.history (history_idx d))
  obtain ⟨last_writer, hwriter⟩ :=
    copy_field_if_some (by decide) (push_history d e).last_writer tool
  obtain ⟨last_action, hlast⟩ :=
    copy_field_if_some (by decide) (push_history d e).last_action action
  have hrun : utilipc_log c tool action d = some (update_simulated_mem_matrix c.later
      { push_history d e with
        last_writer := last_writer
        last_action := last_action
        last_caller_pid := c.pid
        last_updated := c.now
        total_ipc_calls := (push_history d e).total_ipc_calls + 1 }) := by
    simp only [utilipc_log, he, hwriter, hlast, Option.bind_eq_bind, Option.bind_some]
  refine ⟨_, hrun, ⟨count_le h.history_count, h.comm_count, h.comm_closed⟩, ?_, ?_⟩
  · rw [← htext]
    exact read_history_push h e
  · exact (newest_none ((length_read_comm d).le.trans h.comm_count)).symm

theorem utilipc_send_msg_spec (h : Tidy d) (c : Caller) (sender target msg : Option Str) :
    ∃ d', utilipc_send_msg c sender target msg d = some d' ∧ Tidy d' ∧
      read_history d' = newest (read_history d) (logged (c, .comm sender target msg)) ∧
      read_comm d' = newest (read_comm d) (sent (c, .comm sender target msg)) := by
  obtain ⟨e, he, hclosed, htext⟩ :=
    fill_comm_text (h.comm_closed (comm_idx d)) c sender target msg
  refine ⟨push_comm d e, ?_, ⟨h.history_count, count_le h.comm_count, fun i => ?_⟩, ?_, ?_⟩
  · rw [utilipc_send_msg, he, Option.map_some]
  · exact Function.forall_update_iff _ (fun _ entry => EntryClosed entry) |>.mpr
      ⟨hclosed, fun j _ => h.comm_closed j⟩ i
  · exact (newest_none ((length_read_history d).le.trans h.history_count)).symm
  · rw [← htext]
    exact read_comm_push h e

theorem exec_spec (h : Tidy d) (c : Caller) (sec : Section) :
    ∃ d', sec.exec c d = some d' ∧ Tidy d' ∧
      read_history d' = newest (read_history d) (logged (c, sec)) ∧
      read_comm d' = newest (read_comm d) (sent (c, sec)) := by
  cases sec with
  | log tool action => exact utilipc_log_spec h c tool action
  | comm sender target msg => exact utilipc_send_msg_spec h c sender target msg

/-! ## Runs -/

/-- The rings hold the newest of what was made, and what a process has made and has still to make
are the critical sections of its calls. -/
structure Kept (programs : ℤ → List Call) (s : System) : Prop where
  tidy : Tidy s.data
  history : read_history s.data = (s.done.filterMap logged).rtake UTILIPC_HISTORY_SIZE
  comm : read_comm s.data = (s.done.filterMap sent).rtake UTILIPC_HISTORY_SIZE
  order : ∀ pid, (s.done.filter fun e => e.1.pid = pid).map Prod.snd ++ s.left pid =
    (programs pid).flatMap Call.sections

theorem newest_rtake {α β : Type*} (f : α → Option β) (l : List α) (x : α) :
    newest ((l.filterMap f).rtake UTILIPC_HISTORY_SIZE) (f x) =
      ((l ++ [x]).filterMap f).rtake UTILIPC_HISTORY_SIZE := by
  rw [List.filterMap_append, List.filterMap_cons, List.filterMap_nil]
  cases f x with
  | none =>
    rw [List.append_nil]
    refine newest_none ?_
    rw [List.rtake, List.length_drop]
    omega
  | some y => exact rtake_concat_rtake _ _ y

theorem turn_kept {programs : ℤ → List Call} {s : System} (h : Kept programs s) (c : Caller) :
    ∃ s', turn s c = some s' ∧ Kept programs s' := by
  unfold turn
  cases hleft : s.left c.pid with
  | nil => exact ⟨s, rfl, h⟩
  | cons sec rest =>
    obtain ⟨data, hexec, htidy, hhistory, hcomm⟩ := exec_spec h.tidy c sec
    refine ⟨⟨data, Function.update s.left c.pid rest, s.done ++ [(c, sec)]⟩, ?_, htidy, ?_, ?_, ?_⟩
    · dsimp only
      rw [hexec, Option.map_some]
    · rw [hhistory, h.history, newest_rtake]
    · rw [hcomm, h.comm, newest_rtake]
    · intro pid
      dsimp only
      rw [List.filter_append, List.map_append, ← h.order pid]
      obtain rfl | hne := eq_or_ne c.pid pid
      · rw [Function.update_self, hleft, List.append_assoc]
        congr 1
        rw [List.filter_cons_of_pos (by simp)]
        rfl
      · rw [Function.update_of_ne hne.symm, List.filter_cons_of_neg (by simpa using hne)]
        rw [List.filter_nil, List.map_nil, List.append_nil]

theorem utilipc_init_spec (boot : Caller) :
    ∃ d, utilipc_init boot = some d ∧ Tidy d ∧ read_history d = [] ∧ read_comm d = [] := by
  obtain ⟨last_action, last_writer, hrun⟩ := utilipc_init_some boot
  refine ⟨_, hrun, ⟨Nat.zero_le _, Nat.zero_le _, fun _ => ?_⟩, rfl, rfl⟩
  exact ⟨closed_zeros 31, closed_zeros 31, closed_zeros 255⟩

theorem turns_kept {programs : ℤ → List Call} {s : System} (h : Kept programs s)
    (callers : List Caller) : ∃ s', callers.foldlM turn s = some s' ∧ Kept programs s' := by
  induction callers generalizing s with
  | nil => exact ⟨s, rfl, h⟩
  | cons c callers ih =>
    obtain ⟨mid, hturn, hmid⟩ := turn_kept h c
    obtain ⟨s', hrest, hs'⟩ := ih hmid
    exact ⟨s', by rw [List.foldlM_cons, hturn]; exact hrest, hs'⟩

/-- **The newest entries.** Whatever the processes log and send, and whoever is next, no write is
outside of a field, each ring holds the newest entries in their order, and no process has lost or
doubled one. -/
theorem newest_entries (boot : Caller) (programs : ℤ → List Call) (callers : List Caller) :
    ∃ s, run boot programs callers = some s ∧
      read_history s.data = (s.done.filterMap logged).rtake UTILIPC_HISTORY_SIZE ∧
      read_comm s.data = (s.done.filterMap sent).rtake UTILIPC_HISTORY_SIZE ∧
      ∀ pid, (s.done.filter fun e => e.1.pid = pid).map Prod.snd ++ s.left pid =
        (programs pid).flatMap Call.sections := by
  obtain ⟨d, hinit, htidy, hhistory, hcomm⟩ := utilipc_init_spec boot
  have hstart : Kept programs ⟨d, fun pid => (programs pid).flatMap Call.sections, []⟩ :=
    ⟨htidy, hhistory, hcomm, fun _ => rfl⟩
  obtain ⟨s, hrun, hs⟩ := turns_kept hstart callers
  refine ⟨s, ?_, hs.history, hs.comm, hs.order⟩
  rw [run, hinit, Option.bind_some, hrun]

end SysInC.Utilipc
