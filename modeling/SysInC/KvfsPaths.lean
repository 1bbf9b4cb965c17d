/-
Paths and listings of `freestanding/kvfs.c`: what `sanitize_path` leaves of a path, whatever
slashes it is spelled with, and what `kvfs_list_dir` calls its callback for.
-/
import SysInC.KvfsRefine

set_option autoImplicit false

namespace SysInC.Kvfs

/-! ## Spellings of a path -/

/-- A slash more, at the front, at the end or next to another one. -/
inductive SlashMore : List UInt8 → List UInt8 → Prop
  | front (p : List UInt8) : SlashMore p (slash :: p)
  | behind (p : List UInt8) : SlashMore p (p ++ [slash])
  | beside (p q : List UInt8) : SlashMore (p ++ slash :: q) (p ++ slash :: slash :: q)

/-- Slashes are inserted and removed. -/
def SameSpelling : List UInt8 → List UInt8 → Prop := Relation.EqvGen SlashMore

variable {max_len : ℕ}

theorem squeeze_beside (p q : List UInt8) (after_slash : Bool) :
    squeeze after_slash (p ++ slash :: slash :: q) = squeeze after_slash (p ++ slash :: q) := by
  induction p generalizing after_slash with
  | nil =>
      have hsecond : squeeze true (slash :: q) = squeeze true q := by
        rw [squeeze, if_pos ⟨rfl, rfl⟩]
      cases after_slash with
      | true =>
          rw [List.nil_append, List.nil_append, squeeze, if_pos ⟨rfl, rfl⟩]
      | false =>
          have hfirst : ∀ q, squeeze false (slash :: q) = slash :: squeeze true q := by
            intro q
            rw [squeeze, if_neg (by simp), decide_eq_true rfl]
          rw [List.nil_append, List.nil_append, hfirst, hfirst, hsecond]
  | cons c p ih =>
      rw [List.cons_append, List.cons_append, squeeze, squeeze, ih, ih]

theorem squeeze_behind (p : List UInt8) (after_slash : Bool) :
    ∃ slashes, (∀ c ∈ slashes, c = slash)
      ∧ squeeze after_slash (p ++ [slash]) = squeeze after_slash p ++ slashes := by
  induction p generalizing after_slash with
  | nil =>
      cases after_slash with
      | true => exact ⟨[], fun c hc => absurd hc List.not_mem_nil, rfl⟩
      | false => exact ⟨[slash], fun c hc => List.mem_singleton.mp hc, rfl⟩
  | cons c p ih =>
      rw [List.cons_append, squeeze, squeeze]
      split
      · exact ih true
      · obtain ⟨slashes, hall, heq⟩ := ih (decide (c = slash))
        exact ⟨slashes, hall, by rw [heq, List.cons_append]⟩

/-- A slash more changes nothing. -/
theorem SlashMore.sanitize {p q : List UInt8} (h : SlashMore p q) (hlen : 2 ≤ max_len) :
    sanitize_path (some p) max_len = sanitize_path (some q) max_len := by
  rw [sanitize_path_eq p hlen, sanitize_path_eq q hlen]
  cases h with
  | front => rw [squeeze, if_pos ⟨rfl, rfl⟩]
  | behind =>
      obtain ⟨slashes, hall, heq⟩ := squeeze_behind p true
      obtain ⟨n, hn⟩ : ∃ n, max_len - 1 = n + 1 := ⟨max_len - 2, by omega⟩
      rw [hn, heq, List.take_succ_cons, List.take_succ_cons, drop_slashes, drop_slashes,
        List.take_append, rdropWhile_append_slashes]
      exact fun c hc => hall c (List.mem_of_mem_take hc)
  | beside p q => rw [squeeze_beside]

/-- **Path normalisation.** What is left of a path is clean: an absolute path in a buffer of
`max_len` bytes, without empty components or a slash at its end. It is its own spelling, and all
spellings of a path leave the same. -/
theorem sanitize_path_canonical (hlen : 2 ≤ max_len) :
    (∀ path, Clean max_len (sanitize_path path max_len)
        ∧ sanitize_path (some (sanitize_path path max_len)) max_len = sanitize_path path max_len)
      ∧ ∀ p q, SameSpelling p q →
        sanitize_path (some p) max_len = sanitize_path (some q) max_len := by
  refine ⟨fun path => ?_, fun p q h => ?_⟩
  · have hclean := sanitize_path_clean path hlen
    exact ⟨hclean, sanitize_path_of_clean hclean⟩
  · induction h with
    | rel p q h => exact h.sanitize hlen
    | refl p => rfl
    | symm p q _ ih => exact ih.symm
    | trans p q r _ _ ihpq ihqr => exact ihpq.trans ihqr

/-- The buffers of the callers. -/
theorem sanitize_path_canonical_callers :
    (∀ path, Clean KVFS_MAX_PATH (sanitize_path path KVFS_MAX_PATH)
        ∧ sanitize_path (some (sanitize_path path KVFS_MAX_PATH)) KVFS_MAX_PATH
          = sanitize_path path KVFS_MAX_PATH)
      ∧ ∀ p q, SameSpelling p q →
        sanitize_path (some p) KVFS_MAX_PATH = sanitize_path (some q) KVFS_MAX_PATH :=
  sanitize_path_canonical (by decide)

/-! ## `kvfs_list_dir` -/

/-- What the callback is called with. -/
structure ls_entry where
  name : List UInt8
  size : ℕ
  type : UInt8
  mode : UInt16

/-- The text from the first `c` on. -/
def kstrchr (str : List UInt8) (c : UInt8) : Option (List UInt8) :=
  match str.dropWhile (· ≠ c) with
  | [] => none
  | found => some found

/-- `sizeof(dname)` -/
def sizeof_dname : ℕ := 32

/-- The calls of the callback for one node. -/
def list_node (target_dir : List UInt8) (n : kvfs_node) : List ls_entry :=
  if n.is_used = false then []
  else if n.path = target_dir then []
  else if target_dir = [slash] then
    let name := n.path.drop 1
    if n.path.head? = some slash ∧ name ≠ [] then
      match kstrchr name slash with
      | none => [⟨name, n.size, n.type, n.mode⟩]
      | some sub =>
        if n.type = KVFS_TYPE_DIR ∧ sub.drop 1 = [] then
          let dlen := name.length - sub.length
          if dlen < sizeof_dname then [⟨kstrncpy name dlen, n.size, n.type, n.mode⟩] else []
        else []
    else []
  else if target_dir.isPrefixOf n.path ∧ (n.path.drop target_dir.length).head? = some slash then
    let item_name := n.path.drop (target_dir.length + 1)
    match kstrchr item_name slash with
    | none => [⟨item_name, n.size, n.type, n.mode⟩]
    | some _ => []
  else []

/-- The calls of a callback that is not NULL, in their order. -/
def kvfs_list_dir (s : kvfs) (dir_path : Option (List UInt8)) : List ls_entry :=
  s.vfs_table.flatMap
    (list_node (sanitize_path (some (dir_path.getD [slash])) KVFS_MAX_PATH))

/-- `path` is the directory followed by one further component. -/
def Child (dir name path : List UInt8) : Prop :=
  name ≠ [] ∧ slash ∉ name ∧ path = (if dir = [slash] then [] else dir) ++ slash :: name

/-- The callback is called with the node's component and with what the node says. -/
def Reported (dir : List UInt8) (n : kvfs_node) (e : ls_entry) : Prop :=
  Child dir e.name n.path ∧ e.size = n.size ∧ e.type = n.type ∧ e.mode = n.mode

variable {dir name path p : List UInt8} {n : kvfs_node}

theorem kstrchr_eq_none {str : List UInt8} : kstrchr str slash = none ↔ slash ∉ str := by
  rw [kstrchr]
  cases h : str.dropWhile (· ≠ slash) with
  | nil =>
      refine iff_of_true rfl fun hmem => ?_
      have hall := List.dropWhile_eq_nil_iff.mp h slash hmem
      exact of_decide_eq_true hall rfl
  | cons c found =>
      refine iff_of_false (by simp) fun hno => ?_
      rw [List.dropWhile_eq_nil_iff.mpr] at h
      · exact absurd h (by simp)
      · exact fun c hc => decide_eq_true fun heq => hno (heq ▸ hc)

/-- Only the root has a slash at its end. -/
theorem Clean.behind_slash {front behind : List UInt8} (h : Clean max_len (front ++ slash :: behind))
    (hroot : front ≠ [] ∨ behind ≠ []) : behind ≠ [] := by
  rintro rfl
  have hfront := hroot.resolve_right fun hne => hne rfl
  rcases h.last with heq | hlast
  · have hlen := congrArg List.length heq
    rw [List.length_append, List.length_singleton] at hlen
    exact hfront (List.length_eq_zero_iff.mp (by omega))
  · exact hlast List.getLast?_concat

theorem kstrchr_some {str sub : List UInt8} (h : kstrchr str slash = some sub) :
    slash ∈ str ∧ ∃ front behind, str = front ++ slash :: behind ∧ sub = slash :: behind := by
  have hmem : slash ∈ str := by
    by_contra hno
    rw [kstrchr_eq_none.mpr hno] at h
    exact absurd h (by simp)
  refine ⟨hmem, str.takeWhile (· ≠ slash), ?_⟩
  rw [kstrchr] at h
  have hsplit := (List.takeWhile_append_dropWhile (p := (· ≠ slash)) (l := str)).symm
  cases hdrop : str.dropWhile (· ≠ slash) with
  | nil =>
      rw [hdrop] at h
      exact absurd h (by simp)
  | cons c behind =>
      have hc := List.head?_dropWhile_not (· ≠ slash) str
      rw [hdrop] at h hsplit hc
      obtain rfl : c = slash := by simpa using hc
      exact ⟨behind, hsplit, (Option.some.inj h).symm⟩

/-- The callback is called once for a child of the directory, and not for another node. -/
theorem list_node_spec (hdir : Clean max_len dir)
    (hn : n.is_used = true → Clean max_len n.path) :
    (∃ e, list_node dir n = [e] ∧ n.is_used = true ∧ Reported dir n e)
      ∨ (list_node dir n = [] ∧ ¬(n.is_used = true ∧ ∃ name, Child dir name n.path)) := by
  rw [list_node]
  by_cases hused : n.is_used = true
  swap
  · exact Or.inr ⟨if_pos (by simpa using hused), fun h => hused h.1⟩
  rw [if_neg (by simp [hused])]
  obtain ⟨rest, hpath⟩ := List.head?_eq_some_iff.mp (hn hused).head
  by_cases hself : n.path = dir
  · rw [if_pos hself]
    refine Or.inr ⟨rfl, ?_⟩
    rintro ⟨-, name, hne, -, heq⟩
    rw [hself] at heq
    split at heq
    · rename_i hroot
      rw [hroot] at heq
      exact hne (List.cons_eq_cons.mp heq).2.symm
    · have hlen := congrArg List.length heq
      rw [List.length_append, List.length_cons] at hlen
      omega
  rw [if_neg hself]
  by_cases hroot : dir = [slash]
  · -- what is behind the first slash is the name, if there is no other slash
    have hrest : rest ≠ [] := fun hnil => hself (by rw [hpath, hnil, hroot])
    have hdrop : n.path.drop 1 = rest := by rw [hpath, List.drop_one, List.tail_cons]
    rw [if_pos hroot, hdrop, if_pos ⟨by rw [hpath]; rfl, hrest⟩]
    cases hsub : kstrchr rest slash with
    | none =>
        refine Or.inl ⟨_, rfl, hused, ⟨hrest, kstrchr_eq_none.mp hsub, ?_⟩, rfl, rfl, rfl⟩
        rw [if_pos hroot, hpath]
        rfl
    | some sub =>
        obtain ⟨hmem, front, behind, hsplit, rfl⟩ := kstrchr_some hsub
        have hclean := hn hused
        rw [hpath, hsplit, ← List.cons_append] at hclean
        have hbehind := hclean.behind_slash (Or.inl (List.cons_ne_nil _ _))
        refine Or.inr ⟨if_neg fun h => hbehind h.2, ?_⟩
        rintro ⟨-, name, -, hno, heq⟩
        rw [if_pos hroot, hpath] at heq
        obtain rfl : rest = name := (List.cons_eq_cons.mp heq).2
        exact hno hmem
  · rw [if_neg hroot]
    have hchild : ∀ name, Child dir name n.path →
        n.path.drop (dir.length + 1) = name ∧ (dir.isPrefixOf n.path = true
          ∧ (n.path.drop dir.length).head? = some slash) := by
      rintro name ⟨-, -, heq⟩
      rw [if_neg hroot] at heq
      rw [heq, List.drop_left, List.isPrefixOf_iff_prefix, ← List.drop_drop, List.drop_left]
      exact ⟨rfl, List.prefix_append _ _, rfl⟩
    by_cases hunder : dir.isPrefixOf n.path = true
        ∧ (n.path.drop dir.length).head? = some slash
    · rw [if_pos hunder]
      obtain ⟨hpre, hhead⟩ := hunder
      obtain ⟨t, ht⟩ := List.isPrefixOf_iff_prefix.mp hpre
      rw [← ht, List.drop_left] at hhead
      obtain ⟨item, rfl⟩ := List.head?_eq_some_iff.mp hhead
      have hitem : n.path.drop (dir.length + 1) = item := by
        rw [← ht, ← List.drop_drop, List.drop_left]
        rfl
      rw [hitem]
      dsimp only
      cases hsub : kstrchr item slash with
      | none =>
          have hclean := hn hused
          rw [← ht] at hclean
          have hdir_ne : dir ≠ [] := by
            rintro rfl
            exact absurd hdir.head (by simp)
          refine Or.inl ⟨_, rfl, hused, ⟨hclean.behind_slash (Or.inl hdir_ne),
            kstrchr_eq_none.mp hsub, ?_⟩, rfl, rfl, rfl⟩
          rw [if_neg hroot, ht]
      | some sub =>
          refine Or.inr ⟨rfl, ?_⟩
          rintro ⟨-, name, h⟩
          have hname := (hchild name h).1
          rw [hitem] at hname
          exact h.2.1 (hname ▸ (kstrchr_some hsub).1)
    · rw [if_neg hunder]
      refine Or.inr ⟨rfl, ?_⟩
      rintro ⟨-, name, h⟩
      exact hunder (hchild name h).2

open Classical in
/-- Over the whole table. -/
theorem list_nodes_spec (hdir : Clean max_len dir) (table : List kvfs_node)
    (htable : ∀ n ∈ table, n.is_used = true → Clean max_len n.path) :
    List.Forall₂ (Reported dir)
      (table.filter fun n => n.is_used = true ∧ ∃ name, Child dir name n.path)
      (table.flatMap (list_node dir)) := by
  induction table with
  | nil => exact List.Forall₂.nil
  | cons n table ih =>
      have hlater := ih fun m hm => htable m (List.mem_cons_of_mem n hm)
      rw [List.flatMap_cons]
      rcases list_node_spec hdir (htable n List.mem_cons_self) with
        ⟨e, he, hused, hreported⟩ | ⟨hnone, hno⟩
      · rw [he, List.filter_cons_of_pos (by simpa using ⟨hused, e.name, hreported.1⟩)]
        exact List.Forall₂.cons hreported hlater
      · rw [hnone, List.filter_cons_of_neg (by simpa using hno)]
        exact hlater

open Classical in
/-- **Directory listings.** In every state that the kernel reaches the callback is called once for
each node whose path is the directory's followed by one further component, with that component and
with what the node says, and for no other node. -/
theorem kvfs_list_dir_exact (abi : Kmem.Abi) (heap : Heap) (calls : List call)
    (hlegal : LegalRun abi (.start heap) calls) :
    ∃ s replies, run (.start heap) calls = some (s, replies)
      ∧ ∀ dir_path : Option (List UInt8),
        List.Forall₂ (Reported (sanitize_path (some (dir_path.getD [slash])) KVFS_MAX_PATH))
          (s.vfs_table.filter fun n => n.is_used = true
            ∧ ∃ name, Child (sanitize_path (some (dir_path.getD [slash])) KVFS_MAX_PATH) name n.path)
          (kvfs_list_dir s dir_path) := by
  obtain ⟨s, replies, hrun, hok, -⟩ := run_simulates calls (start_ok heap).1 hlegal
  refine ⟨s, replies, hrun, fun dir_path => ?_⟩
  exact list_nodes_spec (sanitize_path_clean _ (by decide)) s.vfs_table hok.clean

open Classical in
/-- A directory, a file in it, one with a longer name beside it, and one below. -/
theorem kvfs_list_dir_exact_siblings :
    let calls : List call :=
      [.kvfs_mkdir (some (literal "/etc")), .kvfs_mkdir (some (literal "/etc/init")),
        .kvfs_mkdir (some (literal "/etcetera")), .kvfs_mkdir (some (literal "/etc/init/boot"))]
    ∃ s replies, run (.start fun _ => none) calls = some (s, replies)
      ∧ ∀ dir_path : Option (List UInt8),
        List.Forall₂ (Reported (sanitize_path (some (dir_path.getD [slash])) KVFS_MAX_PATH))
          (s.vfs_table.filter fun n => n.is_used = true
            ∧ ∃ name, Child (sanitize_path (some (dir_path.getD [slash])) KVFS_MAX_PATH) name n.path)
          (kvfs_list_dir s dir_path) :=
  kvfs_list_dir_exact .i386 (fun _ => none) _
    ⟨trivial, fun _ _ => ⟨trivial, fun _ _ => ⟨trivial, fun _ _ => ⟨trivial, fun _ _ => trivial⟩⟩⟩⟩

end SysInC.Kvfs
