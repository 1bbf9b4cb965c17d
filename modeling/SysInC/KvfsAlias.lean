/-
Which paths are different files to `kvfs.c`.

A node name keeps `KVFS_MAX_PATH - 1` bytes, and `sanitize_path` cuts what is longer. Paths
whose normal forms are cut to the same name are one file, and no other two are.
-/
import SysInC.KvfsRefine

set_option autoImplicit false

namespace SysInC.Kvfs

/-! ## What a caller sees of a path -/

/-- `kvfs_open(path)`, with what the node says. -/
def report (s : kvfs) (path : List UInt8) : Option entry :=
  (kvfs_open s (some path)).map (node_entry s.heap)

/-- The bytes that `kvfs_read(node, buf, offset, count)` copies, on a `buf` with room for them.
`none` is a copy past the end of the file. -/
def kvfs_read (abi : Kmem.Abi) (node : Option entry) (offset count : ℕ) : Option (List UInt8) :=
  match node with
  | none => some []
  | some e =>
    match e.contents with
    | none => some []
    | some bytes =>
      if e.size ≤ offset then some []
      else
        let to_copy := if e.size < (offset + count) % abi.size_mod then e.size - offset else count
        if offset + to_copy ≤ bytes.length then some ((bytes.drop offset).take to_copy) else none

/-- A create, write or delete of `path`. -/
def call.Through (path : List UInt8) : call → Prop
  | .kvfs_create p _ _ _ _ | .kvfs_mkdir p | .kvfs_write _ p _ _ | .kvfs_delete p => p = some path
  | .kvfs_init | .kvfs_open _ => False

/-- In every state that calls lead to from the start, a call through `p` leaves what `kvfs_open`
and `kvfs_read` say of `q`. -/
def Apart (abi : Kmem.Abi) (heap : Heap) (p q : List UInt8) : Prop :=
  ∀ calls s replies, LegalRun abi (.start heap) calls →
    run (.start heap) calls = some (s, replies) →
    ∀ c : call, c.Through p → c.Legal abi s →
      ∃ s' r, step s c = some (s', r) ∧ report s' q = report s q
        ∧ ∀ offset count,
          kvfs_read abi (report s' q) offset count = kvfs_read abi (report s q) offset count

theorem report_eq (s : kvfs) (path : List UInt8) :
    report s path = s.map (vfs_map.key (some path)) := kvfs_open_spec s (some path)

theorem key_eq_cut (path : List UInt8) :
    vfs_map.key (some path) = cut KVFS_MAX_PATH (normal_form path) :=
  sanitize_path_eq_cut path (by decide)

theorem call.Through.path_eq {c : call} {p : List UInt8} (h : c.Through p) :
    c ≠ .kvfs_init ∧ c.path = some p := by
  cases c with
  | kvfs_init => exact h.elim
  | kvfs_create path data size type mode => exact ⟨call.noConfusion, h⟩
  | kvfs_mkdir path => exact ⟨call.noConfusion, h⟩
  | kvfs_write copy path data size => exact ⟨call.noConfusion, h⟩
  | kvfs_delete path => exact ⟨call.noConfusion, h⟩
  | kvfs_open path => exact h.elim

variable {abi : Kmem.Abi} {heap : Heap} {p q : List UInt8}

/-- Different names do not meet. -/
theorem apart_of_key_ne (hkey : vfs_map.key (some p) ≠ vfs_map.key (some q)) :
    Apart abi heap p q := by
  intro calls s replies hlegal hrun c hc hcall
  obtain ⟨s₁, replies₁, hrun₁, hok, -⟩ := run_simulates calls (start_ok heap).1 hlegal
  rw [hrun] at hrun₁
  cases hrun₁
  obtain ⟨s', r, hstep, -, hmap⟩ := simulates hok hcall
  obtain ⟨hinit, hpath⟩ := hc.path_eq
  have hreport : report s' q = report s q := by
    rw [report_eq, report_eq, show s'.map = (s.map.step c).1 from congrArg Prod.fst hmap]
    exact s.map.step_frame hinit (by rw [hpath]; exact hkey.symm)
  exact ⟨s', r, hstep, hreport, fun offset count => by rw [hreport]⟩

/-- A directory made at `p` is there at every path of the same name. -/
theorem mkdir_report (heap : Heap)
    (hkey : vfs_map.key (some p) = vfs_map.key (some q)) :
    report (.start heap) q = none
      ∧ ∃ s' r, step (.start heap) (.kvfs_mkdir (some p)) = some (s', r)
        ∧ report s' q = some ⟨none, 0, KVFS_TYPE_DIR, mode_0755⟩ := by
  obtain ⟨hok, hempty⟩ := start_ok heap
  refine ⟨by rw [report_eq, hempty]; rfl, ?_⟩
  have hnull : ∀ b, node_data.null ≠ .block b := fun _ => node_data.noConfusion
  obtain ⟨s', hcreate, -, hmap⟩ :=
    kvfs_create_put hok p hnull 0 KVFS_TYPE_DIR mode_0755 (Nat.succ_pos 63)
  refine ⟨s', .code 0, ?_, ?_⟩
  · rw [step, kvfs_mkdir, hcreate]
    rfl
  · rw [report_eq, hmap, hkey, Function.update_self]
    rfl

/-- **No aliasing.** Two paths of different normal forms are different files in every state that
the kernel reaches, if and only if the node names that the forms are cut to differ too. -/
theorem paths_apart_iff (abi : Kmem.Abi) (heap : Heap) (p q : List UInt8) :
    (normal_form p ≠ normal_form q → Apart abi heap p q)
      ↔ (cut KVFS_MAX_PATH (normal_form p) = cut KVFS_MAX_PATH (normal_form q)
        → normal_form p = normal_form q) := by
  rw [← key_eq_cut, ← key_eq_cut]
  constructor
  · intro hapart hkey
    by_contra hne
    -- the start state is reached by no call at all, and a directory is made there
    obtain ⟨hnone, s₁, r₁, hmkdir, hsome⟩ := mkdir_report heap hkey
    obtain ⟨s', r, hstep, hreport, -⟩ := hapart hne [] (.start heap) [] trivial rfl
      (.kvfs_mkdir (some p)) rfl trivial
    rw [hmkdir] at hstep
    cases hstep
    rw [hnone, hsome] at hreport
    cases hreport
  · intro hcut hne
    exact apart_of_key_ne fun hkey => hne (hcut hkey)

/-- Nothing but the length counts. -/
theorem apart_of_short (hp : (normal_form p).length < KVFS_MAX_PATH)
    (hq : (normal_form q).length < KVFS_MAX_PATH) (hne : normal_form p ≠ normal_form q) :
    Apart abi heap p q := by
  have hp' : cut KVFS_MAX_PATH (normal_form p) = normal_form p :=
    cut_of_short (Nat.le_pred_of_lt hp)
  have hq' : cut KVFS_MAX_PATH (normal_form q) = normal_form q :=
    cut_of_short (Nat.le_pred_of_lt hq)
  apply apart_of_key_ne
  rw [key_eq_cut, key_eq_cut, hp', hq']
  exact hne

/-- `/` and 126 letters, then one more. -/
def long_path (last : UInt8) : List UInt8 := slash :: List.replicate 126 97 ++ [last]

/-- Two paths of 128 bytes that differ in the last: with one of them made, the other is there. -/
theorem long_paths_alias :
    normal_form (long_path 98) ≠ normal_form (long_path 99)
      ∧ ¬ Apart .i386 (fun _ => none) (long_path 98) (long_path 99) := by
  have hne : normal_form (long_path 98) ≠ normal_form (long_path 99) := by decide
  refine ⟨hne, fun hapart => hne ?_⟩
  have hkey : vfs_map.key (some (long_path 98)) = vfs_map.key (some (long_path 99)) := by decide
  obtain ⟨hnone, s₁, r₁, hmkdir, hsome⟩ := mkdir_report (fun _ => none) hkey
  obtain ⟨s', r, hstep, hreport, -⟩ := hapart [] (.start fun _ => none) [] trivial rfl
    (.kvfs_mkdir (some (long_path 98))) rfl trivial
  rw [hmkdir] at hstep
  cases hstep
  rw [hnone, hsome] at hreport
  cases hreport

end SysInC.Kvfs
