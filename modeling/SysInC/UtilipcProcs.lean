/-
The table of processes of `src/libutilipc/utilipc.c`, whatever processes register and unregister and
whichever die in between.

The counter is always that of the slots in use, and the slot of a live process is taken by no other.
But `utilipc_unregister_process` breaks off its loop at the first slot that it releases, while
`utilipc_register_process` does not look for a slot that its caller has already: nothing is left of
a process that unregisters exactly when it has one slot at most (`registry_iff`).
-/
import SysInC.Utilipc
import Mathlib.Data.Finset.Card
import Mathlib.Data.Finset.Filter
import Mathlib.Data.Finset.Range

set_option autoImplicit false

namespace SysInC.Utilipc

open PartialRun

/-! ## Runs -/

/-- The memory, and the processes that there are. -/
structure Machine where
  data : utilipc_data_t
  alive : ℤ → Bool

inductive Event where
  | register (c : Caller) (tool_name : Option Str)
  | unregister (c : Caller)
  | die (pid : ℤ)
  /-- A new process, whose number another may have had. -/
  | start (pid : ℤ)

/-- Only live processes do something. -/
def step (m : Machine) : Event → Option Machine
  | .register c tool_name =>
    if m.alive c.pid = true then
      (utilipc_register_process c (fun pid => !m.alive pid) tool_name m.data).map fun data =>
        { m with data }
    else some m
  | .unregister c =>
    some (if m.alive c.pid = true then { m with data := utilipc_unregister_process c m.data }
      else m)
  | .die pid => some { m with alive := Function.update m.alive pid false }
  | .start pid => some { m with alive := Function.update m.alive pid true }

/-- From the memory as it is created, and any processes. -/
def history_of (boot : Caller) (alive : ℤ → Bool) (events : List Event) : Option Machine :=
  (utilipc_init boot).bind fun data => events.foldlM step ⟨data, alive⟩

/-! ## Slots -/

variable {procs : ℕ → utilipc_proc_entry_t}

/-- The slots in use. -/
def active (procs : ℕ → utilipc_proc_entry_t) : Finset ℕ :=
  (Finset.range UTILIPC_MAX_PROCS).filter fun i => (procs i).is_active = true

/-- The slots in use for a process. -/
def slots_of (procs : ℕ → utilipc_proc_entry_t) (pid : ℤ) : Finset ℕ :=
  (active procs).filter fun i => (procs i).pid = pid

theorem mem_active {i : ℕ} :
    i ∈ active procs ↔ i < UTILIPC_MAX_PROCS ∧ (procs i).is_active = true := by
  rw [active, Finset.mem_filter, Finset.mem_range]

theorem mem_slots_of {i : ℕ} {pid : ℤ} :
    i ∈ slots_of procs pid ↔ i ∈ active procs ∧ (procs i).pid = pid := Finset.mem_filter

theorem release_pid (procs : ℕ → utilipc_proc_entry_t) (i j : ℕ) :
    (release procs i j).pid = (procs j).pid := by
  unfold release
  obtain rfl | hne := eq_or_ne j i
  · rw [Function.update_self]
  · rw [Function.update_of_ne hne]

theorem active_release (procs : ℕ → utilipc_proc_entry_t) (i : ℕ) :
    active (release procs i) = (active procs).erase i := by
  ext j
  rw [Finset.mem_erase, mem_active, mem_active, release]
  obtain rfl | hne := eq_or_ne j i
  · rw [Function.update_self]
    simp
  · rw [Function.update_of_ne hne]
    simp [hne]

theorem slots_of_release (procs : ℕ → utilipc_proc_entry_t) (i : ℕ) (pid : ℤ) :
    slots_of (release procs i) pid = (slots_of procs pid).erase i := by
  ext j
  rw [Finset.mem_erase, mem_slots_of, mem_slots_of, active_release, Finset.mem_erase, release_pid,
    and_assoc]

/-- A slot that is not in use is taken. -/
theorem active_take {i : ℕ} (hi : i < UTILIPC_MAX_PROCS) {e : utilipc_proc_entry_t}
    (he : e.is_active = true) :
    active (Function.update procs i e) = insert i (active procs) := by
  ext j
  rw [Finset.mem_insert, mem_active, mem_active]
  obtain rfl | hne := eq_or_ne j i
  · rw [Function.update_self]
    simp [hi, he]
  · rw [Function.update_of_ne hne]
    simp [hne]

/-! ## The counter -/

def Counted (procs : ℕ → utilipc_proc_entry_t) (count : ℕ) : Prop := count = (active procs).card

theorem counted_release {count i : ℕ} (h : Counted procs count) (hi : i ∈ active procs) :
    Counted (release procs i) (if 0 < count then count - 1 else count) := by
  have hpos : 0 < (active procs).card := Finset.card_pos.mpr ⟨i, hi⟩
  unfold Counted at h ⊢
  rw [active_release, Finset.card_erase_of_mem hi, h, if_pos hpos]

/-! ## Registering -/

theorem strncpy_some (dst : CString.Buf 32) (src : Str) :
    ∃ b, CString.strncpy dst src.val 31 = some b := by
  refine (CString.write_of_le dst _ ?_).imp fun _ h => h.1
  rw [List.length_append, List.length_take, List.length_replicate]
  omega

/-- What the loop has changed: slots of processes that are no more. -/
structure Searched (no_such_process : ℤ → Bool) (procs : ℕ → utilipc_proc_entry_t) (s : Search) :
    Prop where
  counted : Counted s.active_procs s.active_proc_count
  pid_eq : ∀ i, (s.active_procs i).pid = (procs i).pid
  subset : active s.active_procs ⊆ active procs
  live : ∀ i ∈ active procs, no_such_process (procs i).pid = false → i ∈ active s.active_procs
  slot : ∀ i, s.slot = some i → i < UTILIPC_MAX_PROCS ∧ i ∉ active s.active_procs

section Search

variable {no_such_process : ℤ → Bool} {s : Search} {i : ℕ}

theorem searched_reclaim (h : Searched no_such_process procs s) (hi : i < UTILIPC_MAX_PROCS) :
    Searched no_such_process procs (reclaim no_such_process s i) := by
  unfold reclaim
  split
  · rename_i hgone
    have hmem : i ∈ active s.active_procs := mem_active.mpr ⟨hi, hgone.1⟩
    refine ⟨counted_release h.counted hmem, fun j => ?_, ?_, fun j hj hlive => ?_,
      fun j hslot => ?_⟩
    · rw [release_pid, h.pid_eq]
    · rw [active_release]
      exact (Finset.erase_subset i _).trans h.subset
    · have hne : j ≠ i := by
        rintro rfl
        rw [h.pid_eq, hlive] at hgone
        exact Bool.false_ne_true hgone.2
      rw [active_release]
      exact Finset.mem_erase.mpr ⟨hne, h.live j hj hlive⟩
    · obtain ⟨hlt, hfree⟩ := h.slot j hslot
      rw [active_release]
      exact ⟨hlt, fun hmem => hfree (Finset.mem_of_mem_erase hmem)⟩
  · exact h

theorem searched_note_free (h : Searched no_such_process procs s) (hi : i < UTILIPC_MAX_PROCS) :
    Searched no_such_process procs (note_free s i) := by
  unfold note_free
  split
  · rename_i hfree
    refine ⟨h.counted, h.pid_eq, h.subset, h.live, fun j hslot => ?_⟩
    obtain rfl := Option.some.inj hslot
    refine ⟨hi, fun hmem => ?_⟩
    rw [(mem_active.mp hmem).2] at hfree
    exact Bool.false_ne_true hfree.1.symm
  · exact h

theorem searched_foldl {is : List ℕ} (his : ∀ i ∈ is, i < UTILIPC_MAX_PROCS)
    (h : Searched no_such_process procs s) :
    Searched no_such_process procs (is.foldl (search_turn no_such_process) s) := by
  induction is generalizing s with
  | nil => exact h
  | cons i is ih =>
    rw [List.forall_mem_cons] at his
    exact ih his.2 (searched_note_free (searched_reclaim h his.1) his.1)

end Search

variable {d : utilipc_data_t}

/-- What a registration does: the slots of live processes stay, and no other process is given
one. -/
structure Registered (c : Caller) (no_such_process : ℤ → Bool) (d d' : utilipc_data_t) : Prop where
  counted : Counted d'.active_procs d'.active_proc_count
  live : ∀ pid, no_such_process pid = false →
    slots_of d.active_procs pid ⊆ slots_of d'.active_procs pid
  others : ∀ pid, pid ≠ c.pid → slots_of d'.active_procs pid ⊆ slots_of d.active_procs pid

theorem take_slot_effects {no_such_process : ℤ → Bool} {s : Search}
    (h : Searched no_such_process d.active_procs s) (c : Caller) (tool_name : Option Str) :
    ∃ d', take_slot c tool_name d s = some d' ∧ Registered c no_such_process d d' := by
  have hlive : ∀ pid, no_such_process pid = false →
      slots_of d.active_procs pid ⊆ slots_of s.active_procs pid := by
    intro pid hpid i hi
    rw [mem_slots_of] at hi ⊢
    exact ⟨h.live i hi.1 (hi.2 ▸ hpid), (h.pid_eq i).trans hi.2⟩
  have hothers : ∀ pid, slots_of s.active_procs pid ⊆ slots_of d.active_procs pid := by
    intro pid i hi
    rw [mem_slots_of] at hi ⊢
    exact ⟨h.subset hi.1, (h.pid_eq i).symm.trans hi.2⟩
  unfold take_slot
  split
  · exact ⟨_, rfl, ⟨h.counted, hlive, fun pid _ => hothers pid⟩⟩
  · rename_i slot hslot
    obtain ⟨hlt, hfree⟩ := h.slot slot hslot
    obtain ⟨tool, htool⟩ := strncpy_some (s.active_procs slot).tool (tool_name.getD proc)
    rw [htool, Option.map_some]
    refine ⟨_, rfl, ⟨?_, fun pid hpid i hi => ?_, fun pid hne i hi => ?_⟩⟩
    -- the slot was free, so that there is one more
    · have hcount := h.counted
      unfold Counted at hcount ⊢
      rw [active_take hlt rfl, Finset.card_insert_of_notMem hfree, hcount]
    · dsimp only
      have hi' := mem_slots_of.mp (hlive pid hpid hi)
      have hne : i ≠ slot := fun heq => hfree (heq ▸ hi'.1)
      rw [mem_slots_of, active_take hlt rfl, Function.update_of_ne hne]
      exact ⟨Finset.mem_insert_of_mem hi'.1, hi'.2⟩
    · dsimp only at hi
      rw [mem_slots_of, active_take hlt rfl] at hi
      have hne' : i ≠ slot := by
        rintro rfl
        rw [Function.update_self] at hi
        exact hne hi.2.symm
      rw [Function.update_of_ne hne'] at hi
      exact hothers pid (mem_slots_of.mpr ⟨Finset.mem_of_mem_insert_of_ne hi.1 hne', hi.2⟩)

theorem register_effects (h : Counted d.active_procs d.active_proc_count) (c : Caller)
    (no_such_process : ℤ → Bool) (tool_name : Option Str) :
    ∃ d', utilipc_register_process c no_such_process tool_name d = some d' ∧
      Registered c no_such_process d d' := by
  have hstart : Searched no_such_process d.active_procs
      ⟨d.active_procs, d.active_proc_count, none⟩ :=
    ⟨h, fun _ => rfl, subset_rfl, fun _ hi _ => hi, fun _ hslot => nomatch hslot⟩
  exact take_slot_effects (searched_foldl (fun i hi => List.mem_range.mp hi) hstart) c tool_name

/-! ## Unregistering -/

theorem unregister_effects (c : Caller) (d : utilipc_data_t)
    (h : Counted d.active_procs d.active_proc_count) :
    Counted (utilipc_unregister_process c d).active_procs
        (utilipc_unregister_process c d).active_proc_count ∧
      (slots_of (utilipc_unregister_process c d).active_procs c.pid).card =
        (slots_of d.active_procs c.pid).card - 1 ∧
      ∀ pid, slots_of (utilipc_unregister_process c d).active_procs pid ⊆
          slots_of d.active_procs pid ∧
        (pid ≠ c.pid → slots_of d.active_procs pid ⊆
          slots_of (utilipc_unregister_process c d).active_procs pid) := by
  unfold utilipc_unregister_process
  dsimp only
  cases hfind : (List.range UTILIPC_MAX_PROCS).find? fun i =>
      (d.active_procs i).is_active && (d.active_procs i).pid == c.pid with
  | none =>
    -- the caller is not registered
    have hempty : slots_of d.active_procs c.pid = ∅ := by
      refine Finset.eq_empty_of_forall_notMem fun i hi => ?_
      obtain ⟨hactive, hpid⟩ := mem_slots_of.mp hi
      obtain ⟨hlt, hactive⟩ := mem_active.mp hactive
      have hnot := List.find?_eq_none.mp hfind i (List.mem_range.mpr hlt)
      rw [hactive, hpid, beq_self_eq_true] at hnot
      exact hnot rfl
    refine ⟨h, ?_, fun pid => ⟨subset_rfl, fun _ => subset_rfl⟩⟩
    rw [hempty]
    rfl
  | some i =>
    have hmine := List.find?_some hfind
    rw [Bool.and_eq_true, beq_iff_eq] at hmine
    have hlt := List.mem_range.mp (List.mem_of_find?_eq_some hfind)
    have hmem : i ∈ active d.active_procs := mem_active.mpr ⟨hlt, hmine.1⟩
    refine ⟨counted_release h hmem, ?_, fun pid => ⟨?_, fun hne j hj => ?_⟩⟩
    · rw [slots_of_release, Finset.card_erase_of_mem (mem_slots_of.mpr ⟨hmem, hmine.2⟩)]
    · rw [slots_of_release]
      exact Finset.erase_subset i _
    · rw [slots_of_release, Finset.mem_erase]
      refine ⟨?_, hj⟩
      rintro rfl
      exact hne ((mem_slots_of.mp hj).2.symm.trans hmine.2)

/-! ## Events -/

variable {m m' : Machine} {e : Event}

/-- The counter is that of the slots in use. -/
def Machine.Counted (m : Machine) : Prop :=
  Utilipc.Counted m.data.active_procs m.data.active_proc_count

/-- The event lets the process lose its slots. -/
def Event.ends (pid : ℤ) : Event → Prop
  | .unregister c => c.pid = pid
  | .die dead => dead = pid
  | _ => False

def Event.registers (pid : ℤ) : Event → Prop
  | .register c _ => c.pid = pid
  | _ => False

/-- What an event does to the table. -/
structure Effects (m : Machine) (e : Event) (m' : Machine) : Prop where
  counted : m'.Counted
  kept : ∀ pid, ¬ e.ends pid → m.alive pid = true → m'.alive pid = true ∧
    slots_of m.data.active_procs pid ⊆ slots_of m'.data.active_procs pid
  free : ∀ pid, ¬ e.registers pid →
    slots_of m'.data.active_procs pid ⊆ slots_of m.data.active_procs pid

theorem step_effects (h : m.Counted) (e : Event) : ∃ m', step m e = some m' ∧ Effects m e m' := by
  have hsame : ∀ e, Effects m e m := fun e =>
    ⟨h, fun _ _ halive => ⟨halive, subset_rfl⟩, fun _ _ => subset_rfl⟩
  cases e with
  | register c tool_name =>
    rw [step]
    split
    · obtain ⟨d', hrun, hd'⟩ := register_effects h c (fun pid => !m.alive pid) tool_name
      refine ⟨{ m with data := d' }, ?_, hd'.counted, fun pid _ halive => ⟨halive, ?_⟩,
        fun pid hne => ?_⟩
      · rw [hrun, Option.map_some]
      · exact hd'.live pid (by rw [halive]; rfl)
      · exact hd'.others pid fun heq => hne heq.symm
    · exact ⟨m, rfl, hsame _⟩
  | unregister c =>
    refine ⟨_, rfl, ?_⟩
    split
    · obtain ⟨hcounted, -, hslots⟩ := unregister_effects c m.data h
      exact ⟨hcounted, fun pid hne halive => ⟨halive, (hslots pid).2 fun heq => hne heq.symm⟩,
        fun pid _ => (hslots pid).1⟩
    · exact hsame _
  | die dead =>
    refine ⟨_, rfl, h, fun pid hne halive => ⟨?_, subset_rfl⟩, fun _ _ => subset_rfl⟩
    exact (Function.update_of_ne (fun heq => hne heq.symm) _ _).trans halive
  | start new =>
    refine ⟨_, rfl, h, fun pid _ halive => ⟨?_, subset_rfl⟩, fun _ _ => subset_rfl⟩
    dsimp only
    obtain rfl | hne := eq_or_ne pid new
    · rw [Function.update_self]
    · rw [Function.update_of_ne hne, halive]

/-! ## Runs -/

variable {boot : Caller} {alive : ℤ → Bool} {events : List Event}

theorem history_of_append (front back : List Event) :
    history_of boot alive (front ++ back) =
      (history_of boot alive front).bind fun m => back.foldlM step m := by
  unfold history_of
  cases utilipc_init boot with
  | none => rfl
  | some d => rw [Option.bind_some, Option.bind_some, List.foldlM_append]; rfl

theorem step_counted (hcount : m.Counted) (hstep : step m e = some m') : Effects m e m' := by
  obtain ⟨u, hu, heffects⟩ := step_effects hcount e
  rw [hu] at hstep
  exact Option.some.inj hstep ▸ heffects

/-- What the events keep, a run keeps. -/
theorem foldlM_effects {I : Machine → Prop} (hI : ∀ m, I m → m.Counted)
    (h : ∀ e ∈ events, ∀ m m', Effects m e m' → I m → I m') (hm : I m)
    (hrun : events.foldlM step m = some m') : I m' :=
  foldlM_keeps (fun e he _ _ hstep hs => h e he _ _ (step_counted (hI _ hs) hstep) hs) hm hrun

theorem history_of_counted (boot : Caller) (alive : ℤ → Bool) (events : List Event) :
    ∃ m, history_of boot alive events = some m ∧ m.Counted := by
  obtain ⟨last_action, last_writer, hinit⟩ := utilipc_init_some boot
  unfold history_of
  rw [hinit, Option.bind_some]
  have hloop : ∀ e ∈ events, ∀ m, Machine.Counted m →
      Returns (step m e) True Machine.Counted := fun e _ m hm =>
    returns_of_exists ((step_effects hm e).imp fun _ hm' => ⟨hm'.1, hm'.2.counted⟩)
  have hstart : Machine.Counted ⟨update_simulated_mem_matrix boot.later
      { cleared with
        last_action := last_action
        last_writer := last_writer
        last_caller_pid := boot.pid
        last_updated := boot.now }, alive⟩ := by
    unfold Machine.Counted Counted active
    rfl
  exact (Returns.loop hloop hstart).iff.mpr trivial

/-- The claim about the table, at every point of a run. -/
structure Registry (boot : Caller) (alive : ℤ → Bool) (events : List Event) : Prop where
  counted : ∀ front, front <+: events → ∃ m, history_of boot alive front = some m ∧
    m.data.active_proc_count = (active m.data.active_procs).card
  kept : ∀ front back m m' pid, front ++ back <+: events →
    history_of boot alive front = some m → m.alive pid = true →
    (∀ e ∈ back, ¬ e.ends pid) → history_of boot alive (front ++ back) = some m' →
    slots_of m.data.active_procs pid ⊆ slots_of m'.data.active_procs pid
  cleared : ∀ front c back m m', front ++ .unregister c :: back <+: events →
    history_of boot alive front = some m → m.alive c.pid = true →
    (∀ e ∈ back, ¬ e.registers c.pid) →
    history_of boot alive (front ++ .unregister c :: back) = some m' →
    slots_of m'.data.active_procs c.pid = ∅

theorem kept_of_foldlM {pid : ℤ} (hcount : m.Counted) (halive : m.alive pid = true)
    (hends : ∀ e ∈ events, ¬ e.ends pid) (hrun : events.foldlM step m = some m') :
    slots_of m.data.active_procs pid ⊆ slots_of m'.data.active_procs pid := by
  let I : Machine → Prop := fun u => u.Counted ∧ u.alive pid = true ∧
    slots_of m.data.active_procs pid ⊆ slots_of u.data.active_procs pid
  have hstep : ∀ e ∈ events, ∀ u u', Effects u e u' → I u → I u' := by
    rintro e he u u' heffects ⟨-, hu, hsubset⟩
    obtain ⟨hu', hmore⟩ := heffects.kept pid (hends e he) hu
    exact ⟨heffects.counted, hu', hsubset.trans hmore⟩
  exact (foldlM_effects (fun _ hu => hu.1) hstep ⟨hcount, halive, subset_rfl⟩ hrun).2.2

theorem free_of_foldlM {pid : ℤ} (hcount : m.Counted)
    (hfree : slots_of m.data.active_procs pid = ∅) (hregs : ∀ e ∈ events, ¬ e.registers pid)
    (hrun : events.foldlM step m = some m') : slots_of m'.data.active_procs pid = ∅ := by
  let I : Machine → Prop := fun u => u.Counted ∧ slots_of u.data.active_procs pid = ∅
  have hstep : ∀ e ∈ events, ∀ u u', Effects u e u' → I u → I u' := fun e he _ _ heffects hu =>
    ⟨heffects.counted, Finset.subset_empty.mp (hu.2 ▸ heffects.free pid (hregs e he))⟩
  exact (foldlM_effects (fun _ hu => hu.1) hstep ⟨hcount, hfree⟩ hrun).2

/-- The caller has lost one slot. -/
theorem card_of_unregister (hcount : m.Counted) {c : Caller} (halive : m.alive c.pid = true)
    (hstep : step m (.unregister c) = some m') :
    m'.Counted ∧ (slots_of m'.data.active_procs c.pid).card =
      (slots_of m.data.active_procs c.pid).card - 1 := by
  obtain ⟨hcounted, hcard, -⟩ := unregister_effects c m.data hcount
  rw [step, if_pos halive] at hstep
  obtain rfl := Option.some.inj hstep
  exact ⟨hcounted, hcard⟩

/-- **The table of processes.** It is what it should be throughout a run exactly if no process has
two slots when it unregisters. -/
theorem registry_iff (boot : Caller) (alive : ℤ → Bool) (events : List Event) :
    Registry boot alive events ↔
      ∀ front c m, front ++ [.unregister c] <+: events → history_of boot alive front = some m →
        m.alive c.pid = true → (slots_of m.data.active_procs c.pid).card ≤ 1 := by
  have hcounted : ∀ front m, history_of boot alive front = some m → m.Counted := by
    intro front m hm
    obtain ⟨u, hu, hcount⟩ := history_of_counted boot alive front
    exact Option.some.inj (hm.symm.trans hu) ▸ hcount
  constructor
  · intro h front c m hprefix hm halive
    obtain ⟨m', hm', -⟩ := history_of_counted boot alive (front ++ [.unregister c])
    have hempty := h.cleared front c [] m m' hprefix hm halive
      (fun e he => absurd he List.not_mem_nil) hm'
    rw [history_of_append, hm, Option.bind_some, List.foldlM_cons] at hm'
    obtain ⟨u, hu, hlast⟩ := Option.bind_eq_some_iff.mp hm'
    obtain rfl : u = m' := Option.some.inj hlast
    have hcard := (card_of_unregister (hcounted front m hm) halive hu).2
    rw [hempty, Finset.card_empty] at hcard
    omega
  · intro h
    refine ⟨fun front _ => history_of_counted boot alive front, ?_, ?_⟩
    · intro front back m m' pid _ hm halive hends hm'
      rw [history_of_append, hm, Option.bind_some] at hm'
      exact kept_of_foldlM (hcounted front m hm) halive hends hm'
    · intro front c back m m' hprefix hm halive hregs hm'
      have hcard := h front c m (List.IsPrefix.trans ⟨back, by simp⟩ hprefix) hm halive
      rw [history_of_append, hm, Option.bind_some, List.foldlM_cons] at hm'
      obtain ⟨u, hu, hrest⟩ := Option.bind_eq_some_iff.mp hm'
      obtain ⟨hcount, hless⟩ := card_of_unregister (hcounted front m hm) halive hu
      have hfree : slots_of u.data.active_procs c.pid = ∅ := by
        rw [← Finset.card_eq_zero, hless]
        omega
      exact free_of_foldlM hcount hfree hregs hrest

/-- A process registers twice and unregisters: its second slot stays. -/
theorem registered_twice :
    ¬ Registry ⟨1, 0, 0⟩ (fun _ => true)
      [.register ⟨7, 0, 0⟩ none, .register ⟨7, 0, 0⟩ none, .unregister ⟨7, 0, 0⟩] := by
  intro h
  obtain ⟨m, hm, halive⟩ := Option.map_eq_some_iff.mp
    (show ((history_of ⟨1, 0, 0⟩ (fun _ => true)
      [.register ⟨7, 0, 0⟩ none, .register ⟨7, 0, 0⟩ none]).map fun m => m.alive 7) = some true by
      decide +kernel)
  obtain ⟨m', hm', hslots⟩ := Option.map_eq_some_iff.mp
    (show ((history_of ⟨1, 0, 0⟩ (fun _ => true)
      [.register ⟨7, 0, 0⟩ none, .register ⟨7, 0, 0⟩ none, .unregister ⟨7, 0, 0⟩]).map fun m =>
        slots_of m.data.active_procs 7) = some {1} by
      decide +kernel)
  have hempty := h.cleared [.register ⟨7, 0, 0⟩ none, .register ⟨7, 0, 0⟩ none] ⟨7, 0, 0⟩ [] m m'
    (List.prefix_refl _) hm halive (fun e he => absurd he List.not_mem_nil) hm'
  rw [hslots] at hempty
  exact absurd hempty (by decide)

end SysInC.Utilipc
