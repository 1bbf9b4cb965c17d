/-
Who owns the blocks of the heap: the books that `kvfs.c` keeps through its nodes.

A live block is the data of one dynamic node, or it belongs to somebody else (`Ledger`). Each
call of `kvfs.c` keeps the books: what it allocates goes to a node or back to the heap, what a
node loses is freed, and the blocks of others are never touched.
-/
import SysInC.KvfsRefine

set_option autoImplicit false

namespace SysInC.Kvfs

/-- The live blocks are those of `other` and the data of the dynamic nodes. -/
structure Ledger (other : ℕ → Prop) (v : kvfs) : Prop where
  ok : Ok v
  live : ∀ p, v.heap p ≠ none ↔ other p ∨ node_data.block p ∈ owned_data v.vfs_table
  apart : ∀ p, other p → node_data.block p ∉ owned_data v.vfs_table

variable {other : ℕ → Prop} {v v' : kvfs} {heap heap' : Heap} {pre post : List kvfs_node}
  {n n' : kvfs_node} {p : ℕ}

/-! ## One node changes -/

theorem mem_owned_data {x : node_data} :
    x ∈ owned_data (pre ++ n :: post)
      ↔ (owns n = true ∧ n.data = x) ∨ x ∈ owned_data (pre ++ post) := by
  simp only [owned_data, keys_used, List.mem_map, List.mem_filter, List.mem_append, List.mem_cons]
  constructor
  · rintro ⟨m, ⟨hpre | rfl | hpost, hm⟩, hx⟩
    · exact .inr ⟨m, ⟨.inl hpre, hm⟩, hx⟩
    · exact .inl ⟨hm, hx⟩
    · exact .inr ⟨m, ⟨.inr hpost, hm⟩, hx⟩
  · rintro (⟨hn, hx⟩ | ⟨m, ⟨hpre | hpost, hm⟩, hx⟩)
    · exact ⟨n, ⟨.inr (.inl rfl), hn⟩, hx⟩
    · exact ⟨m, ⟨.inl hpre, hm⟩, hx⟩
    · exact ⟨m, ⟨.inr (.inr hpost), hm⟩, hx⟩

/-- The data of a dynamic node goes, and nothing else. -/
theorem free_data_live (h : free_data heap n = some heap') (p : ℕ) :
    heap' p ≠ none ↔ heap p ≠ none ∧ ¬ (n.is_dynamic = true ∧ n.data = .block p) := by
  unfold free_data at h
  split_ifs at h with hdyn
  · split at h
    · rename_i hnull
      cases h
      rw [hnull]
      simp
    · cases h
    · rename_i q hq
      unfold kfree at h
      split_ifs at h with hlive
      cases h
      rw [hq, hdyn]
      by_cases hp : p = q
      · rw [hp, Function.update_self]
        simp
      · rw [Function.update_of_ne hp, node_data.block.injEq]
        simp [Ne.symm hp]
  · cases h
    simp [hdyn]

/-- The old node gives its block back, and the new node has one that nobody else had. -/
theorem Ledger.change (h : Ledger other v) (ht : v.vfs_table = pre ++ n :: post) {count : ℕ}
    (hok : Ok ⟨pre ++ n' :: post, count, heap'⟩)
    (hheap : ∀ p, heap' p ≠ none ↔ (v.heap p ≠ none ∧ ¬ (owns n = true ∧ n.data = .block p))
      ∨ (owns n' = true ∧ n'.data = .block p))
    (hnew : owns n' = true → ∀ p, n'.data = .block p → v.heap p = none) :
    Ledger other ⟨pre ++ n' :: post, count, heap'⟩ := by
  have howned := h.ok.owned
  rw [ht] at howned
  -- what the old node owned was nobody else's
  have halone (p : ℕ) (hn : owns n = true ∧ n.data = .block p) :
      ¬ other p ∧ node_data.block p ∉ owned_data (pre ++ post) := by
    constructor
    · intro hother
      refine h.apart p hother ?_
      rw [ht]
      exact mem_owned_data.mpr (.inl hn)
    · have hdistinct := howned.distinct
      rw [owned_data, nodup_of_used hn.1, hn.2] at hdistinct
      exact hdistinct.1
  refine ⟨hok, fun p => ?_, fun p hother => ?_⟩
  · have hlive := h.live p
    rw [ht, mem_owned_data] at hlive
    rw [hheap p, hlive, mem_owned_data]
    have := halone p
    tauto
  · rw [mem_owned_data]
    rintro (⟨hn', hp⟩ | hrest)
    · exact absurd (hnew hn' p hp) ((h.live p).mpr (.inl hother))
    · refine h.apart p hother ?_
      rw [ht]
      exact mem_owned_data.mpr (.inr hrest)

theorem owns_of_used (hu : n.is_used = true) : owns n = n.is_dynamic := by
  rw [owns, hu, Bool.true_and]

theorem not_owns_of_static (h : n.is_dynamic = false) : ¬ owns n = true := by
  rw [owns, h, Bool.and_false]
  exact Bool.false_ne_true

theorem not_owns_of_free (h : n.is_used = false) : ¬ owns n = true := by
  rw [owns, h, Bool.false_and]
  exact Bool.false_ne_true

theorem used_of_named {k : List UInt8} (h : is_named k n = true) : n.is_used = true := by
  rw [is_named, Bool.and_eq_true] at h
  exact h.1

theorem unused_of_free (h : is_free n = true) : n.is_used = false := by
  rwa [is_free, Bool.not_eq_true'] at h

/-- A node in use is freed of its data, and what takes its place owns nothing. -/
theorem Ledger.release_data (h : Ledger other v) (ht : v.vfs_table = pre ++ n :: post)
    (hu : n.is_used = true) (hfree : free_data v.heap n = some heap') {count : ℕ}
    (hok : Ok ⟨pre ++ n' :: post, count, heap'⟩) (hn' : ¬ owns n' = true) :
    Ledger other ⟨pre ++ n' :: post, count, heap'⟩ := by
  refine h.change ht hok (fun p => ?_) fun howns => absurd howns hn'
  rw [free_data_live hfree, owns_of_used hu]
  tauto

/-- A free slot gets a node. -/
theorem Ledger.take_slot (h : Ledger other v) (ht : v.vfs_table = pre ++ n :: post)
    (hu : n.is_used = false) {count : ℕ} (hok : Ok ⟨pre ++ n' :: post, count, heap'⟩)
    (hheap : ∀ p, heap' p ≠ none ↔ v.heap p ≠ none ∨ (owns n' = true ∧ n'.data = .block p))
    (hnew : owns n' = true → ∀ p, n'.data = .block p → v.heap p = none) :
    Ledger other ⟨pre ++ n' :: post, count, heap'⟩ := by
  refine h.change ht hok (fun p => ?_) hnew
  have hold := not_owns_of_free hu
  rw [hheap]
  tauto

/-! ## The calls -/

theorem Ledger.kvfs_create (h : Ledger other v) {path : Option (List UInt8)} {data : node_data}
    {size : ℕ} {type : UInt8} {mode : UInt16} {c : ℤ}
    (hcall : kvfs_create v path data size type mode = some (v', c)) (hok : Ok v') :
    Ledger other v' := by
  unfold Kvfs.kvfs_create at hcall
  dsimp only at hcall
  split_ifs at hcall
  · cases hcall
    exact h
  · split at hcall
    · rename_i pre n post hfind
      obtain ⟨ht, hn, -⟩ := find_slot_some hfind
      obtain ⟨heap, hfree, heq⟩ := Option.map_eq_some_iff.mp hcall
      cases heq
      exact h.release_data ht (used_of_named hn) hfree hok (not_owns_of_static rfl)
    · split at hcall
      · rename_i pre n post hfind
        obtain ⟨ht, hn, -⟩ := find_slot_some hfind
        cases hcall
        -- the slot was free, and the new node is static: no block changes hands
        refine h.take_slot ht (unused_of_free hn) hok (fun p => ?_)
          fun howns => absurd howns (not_owns_of_static rfl)
        exact (or_iff_left fun howns => not_owns_of_static rfl howns.1).symm
      · cases hcall
        exact h

theorem Ledger.kvfs_delete (h : Ledger other v) {path : Option (List UInt8)} {c : ℤ}
    (hcall : kvfs_delete v path = some (v', c)) (hok : Ok v') : Ledger other v' := by
  unfold Kvfs.kvfs_delete at hcall
  dsimp only at hcall
  split at hcall
  · rename_i pre n post hfind
    obtain ⟨ht, hn, -⟩ := find_slot_some hfind
    obtain ⟨heap, hfree, heq⟩ := Option.map_eq_some_iff.mp hcall
    cases heq
    exact h.release_data ht (used_of_named hn) hfree hok (not_owns_of_free rfl)
  · cases hcall
    exact h

/-- The copy goes to a node, or back to the heap where there is none. -/
theorem Ledger.kvfs_write (h : Ledger other v) {copy : Option (ℕ × List UInt8)}
    {path data : Option (List UInt8)} {size : ℕ} {c : ℤ}
    (hcall : kvfs_write v copy path data size = some (v', c)) (hok : Ok v')
    (hcopy : ∀ q bytes, copy = some (q, bytes) → v.heap q = none) : Ledger other v' := by
  unfold Kvfs.kvfs_write at hcall
  dsimp only at hcall
  split at hcall
  · cases hcall
    exact h
  · rename_i q came
    have hq := hcopy q came rfl
    have hne (p : ℕ) (hp : v.heap p ≠ none) : p ≠ q := by
      rintro rfl
      exact hp hq
    obtain ⟨bytes, -, hcall⟩ := Option.bind_eq_some_iff.mp hcall
    -- after the copy, `q` is live too
    have hnow (p : ℕ) : Function.update v.heap q (some bytes) p ≠ none
        ↔ v.heap p ≠ none ∨ q = p := by
      by_cases hp : p = q
      · rw [hp, Function.update_self]
        simp
      · rw [Function.update_of_ne hp]
        simp [Ne.symm hp]
    split at hcall
    · rename_i pre n post hfind
      obtain ⟨ht, hn, -⟩ := find_slot_some hfind
      obtain ⟨heap, hfree, heq⟩ := Option.map_eq_some_iff.mp hcall
      cases heq
      have hu := used_of_named hn
      have hold (p : ℕ) (hp : owns n = true ∧ n.data = .block p) : q ≠ p := by
        have hmem : n ∈ v.vfs_table := by rw [ht]; exact mem_middle
        exact (hne p (h.ok.owned.live hmem hu hp.2)).symm
      refine h.change ht hok (fun p => ?_) ?_
      · rw [free_data_live hfree, hnow, ← owns_of_used hu, owns_of_used (n := { n with
          data := .block q, size := size, is_dynamic := true }) hu, node_data.block.injEq]
        have := hold p
        tauto
      · rintro - p hp
        cases hp
        exact hq
    · split at hcall
      · rename_i pre n post hfind
        obtain ⟨ht, hn, -⟩ := find_slot_some hfind
        cases hcall
        refine h.take_slot ht (unused_of_free hn) hok (fun p => ?_) ?_
        · rw [hnow, node_data.block.injEq]
          exact or_congr_right (and_iff_right rfl).symm
        · rintro - p hp
          cases hp
          exact hq
      · -- the copy is freed again
        obtain ⟨heap, hfree, heq⟩ := Option.map_eq_some_iff.mp hcall
        cases heq
        unfold kfree at hfree
        split_ifs at hfree
        cases hfree
        have hback : Function.update (Function.update v.heap q (some bytes)) q none = v.heap := by
          rw [Function.update_idem, ← hq, Function.update_eq_self]
        rw [hback]
        exact h

/-- The loop of `kvfs_init` frees what the nodes own. -/
theorem free_nodes_live {t : List kvfs_node} (h : free_nodes heap t = some heap') (p : ℕ) :
    heap' p ≠ none ↔ heap p ≠ none ∧ node_data.block p ∉ owned_data t := by
  induction t generalizing heap with
  | nil =>
      cases h
      simp [owned_data, keys_used]
  | cons n t ih =>
      rw [free_nodes] at h
      obtain ⟨now, hnow, hrest⟩ := Option.bind_eq_some_iff.mp h
      have hmem : node_data.block p ∈ owned_data (n :: t)
          ↔ (owns n = true ∧ n.data = .block p) ∨ node_data.block p ∈ owned_data t :=
        @mem_owned_data [] t n (.block p)
      rw [ih hrest, hmem]
      cases hu : n.is_used with
      | false =>
          rw [hu] at hnow
          cases hnow
          have hold := not_owns_of_free hu
          tauto
      | true =>
          rw [if_pos hu] at hnow
          rw [free_data_live hnow, owns_of_used hu]
          tauto

theorem Ledger.create_all (h : Ledger other v) (entries : List boot_entry)
    (hstatic : ∀ e ∈ entries, ∀ p, e.data ≠ .block p)
    (hcall : create_all v entries = some v') : Ledger other v' := by
  induction entries generalizing v with
  | nil =>
      cases hcall
      exact h
  | cons e rest ih =>
      rw [Kvfs.create_all] at hcall
      obtain ⟨⟨v₁, c⟩, hcreate, hrest⟩ := Option.bind_eq_some_iff.mp hcall
      obtain ⟨v₂, c₂, hspec, hok, -⟩ := kvfs_create_spec h.ok (some e.path)
        (hstatic e List.mem_cons_self) e.size e.type e.mode
      rw [hcreate] at hspec
      cases hspec
      exact ih (h.kvfs_create hcreate hok) (fun e he => hstatic e (List.mem_cons_of_mem _ he)) hrest

theorem Ledger.kvfs_init (h : Ledger other v) (hcall : kvfs_init v = some v') :
    Ledger other v' := by
  obtain ⟨heap, hfree, hcreate⟩ := Option.bind_eq_some_iff.mp hcall
  have hunused : ∀ n ∈ v.vfs_table.map reset_node, n.is_used = false := by
    intro n hn
    obtain ⟨m, -, rfl⟩ := List.mem_map.mp hn
    rfl
  obtain ⟨hok, -⟩ := ok_of_unused (v.vfs_table.map reset_node) heap
    (by rw [List.length_map, h.ok.length]) hunused
  have hnone : owned_data (v.vfs_table.map reset_node) = [] := by
    rw [owned_data, keys_used, List.map_eq_nil_iff, List.filter_eq_nil_iff]
    exact fun n hn => not_owns_of_free (hunused n hn)
  have hempty : Ledger other ⟨v.vfs_table.map reset_node, 0, heap⟩ := by
    refine ⟨hok, fun p => ?_, fun p _ => ?_⟩
    · have happart := h.apart p
      rw [free_nodes_live hfree, h.live, hnone]
      have := List.not_mem_nil (a := node_data.block p)
      tauto
    · rw [hnone]
      exact List.not_mem_nil
  exact hempty.create_all boot_entries boot_entries_static hcreate

/-- Any call keeps the books. -/
theorem Ledger.step (h : Ledger other v) {abi : Kmem.Abi} {c : call} (hlegal : c.Legal abi v) :
    ∃ v' r, step v c = some (v', r) ∧ Ledger other v' := by
  obtain ⟨v', r, hstep, hok, -⟩ := simulates h.ok hlegal
  refine ⟨v', r, hstep, ?_⟩
  cases c with
  | kvfs_init =>
      obtain ⟨v₁, hcall, heq⟩ := Option.map_eq_some_iff.mp hstep
      cases heq
      exact h.kvfs_init hcall
  | kvfs_create path data size type mode =>
      obtain ⟨⟨v₁, c⟩, hcall, heq⟩ := Option.map_eq_some_iff.mp hstep
      cases heq
      exact h.kvfs_create hcall hok
  | kvfs_mkdir path =>
      obtain ⟨⟨v₁, c⟩, hcall, heq⟩ := Option.map_eq_some_iff.mp hstep
      cases heq
      exact h.kvfs_create hcall hok
  | kvfs_write copy path data size =>
      obtain ⟨⟨v₁, c⟩, hcall, heq⟩ := Option.map_eq_some_iff.mp hstep
      cases heq
      refine h.kvfs_write hcall hok fun q bytes hcopy => ?_
      have hgives := hlegal.2.2
      rw [hcopy] at hgives
      exact hgives.2.1
  | kvfs_delete path =>
      obtain ⟨⟨v₁, c⟩, hcall, heq⟩ := Option.map_eq_some_iff.mp hstep
      cases heq
      exact h.kvfs_delete hcall hok
  | kvfs_open path =>
      cases hstep
      exact h

/-- A block that somebody else gets. -/
theorem Ledger.give_away (h : Ledger other v) (hp : v.heap p = none) (bytes : List UInt8) :
    Ledger (fun q => other q ∨ q = p)
      { v with heap := Function.update v.heap p (some bytes) } := by
  have hkeeps : Keeps v.heap (Function.update v.heap p (some bytes)) v.vfs_table := by
    intro m hm hu q hq
    apply Function.update_of_ne
    rintro rfl
    exact h.ok.owned.live hm hu hq hp
  have hfree : ¬ (other p ∨ node_data.block p ∈ owned_data v.vfs_table) :=
    fun hlive => (h.live p).mpr hlive hp
  refine ⟨⟨h.ok.length, h.ok.names, h.ok.count, h.ok.clean, h.ok.owned.of_keeps hkeeps⟩,
    fun q => ?_, fun q hq => ?_⟩
  · show Function.update v.heap p (some bytes) q ≠ none ↔ _
    by_cases hqp : q = p
    · rw [hqp, Function.update_self]
      simp
    · rw [Function.update_of_ne hqp, h.live q]
      simp [hqp]
  · rcases hq with hother | rfl
    · exact h.apart q hother
    · exact fun hmem => hfree (.inr hmem)

theorem start_ledger (heap : Heap) : Ledger (fun p => heap p ≠ none) (.start heap) := by
  have hnone : owned_data (kvfs.start heap).vfs_table = [] := by
    rw [owned_data, keys_used, List.map_eq_nil_iff, List.filter_eq_nil_iff]
    intro n hn
    rw [List.eq_of_mem_replicate hn]
    exact Bool.false_ne_true
  refine ⟨(start_ok heap).1, fun p => ?_, fun p _ => ?_⟩
  · rw [hnone]
    exact (or_iff_left List.not_mem_nil).symm
  · rw [hnone]
    exact List.not_mem_nil

end SysInC.Kvfs
