/-
The node table of `kvfs.c` implements a finite map from clean paths to entries.

The abstract file system is a map with a bound on its domain; `simulates` is the step, and the
runs follow by induction. What carries it is `Ok`: names are distinct, the counter counts, and
every dynamic node owns a live block that no other node points to.
-/
import SysInC.Kvfs
import Mathlib.Data.Set.Card

set_option autoImplicit false

namespace SysInC.Kvfs

/-! ## Calls -/

inductive call where
  | kvfs_init
  | kvfs_create (path data : Option (List UInt8)) (size : ℕ) (type : UInt8) (mode : UInt16)
  | kvfs_mkdir (path : Option (List UInt8))
  | kvfs_write (copy : Option (ℕ × List UInt8)) (path data : Option (List UInt8)) (size : ℕ)
  | kvfs_delete (path : Option (List UInt8))
  | kvfs_open (path : Option (List UInt8))

/-- What a file is to a caller. `contents` is absent where `data` is NULL. -/
structure entry where
  contents : Option (List UInt8)
  size : ℕ
  type : UInt8
  mode : UInt16
  deriving DecidableEq

inductive reply where
  | done
  | code (c : ℤ)
  | node (e : Option entry)
  deriving DecidableEq

/-- `data` as `kvfs_create` receives it: NULL, or memory of the caller. -/
def node_data.of_caller : Option (List UInt8) → node_data
  | none => .null
  | some bytes => .object bytes

def node_data.contents (heap : Heap) (size : ℕ) : node_data → Option (List UInt8)
  | .null => none
  | .object bytes => some (bytes.take size)
  | .block p => (heap p).map (List.take size)

def node_entry (heap : Heap) (n : kvfs_node) : entry :=
  ⟨n.data.contents heap n.size, n.size, n.type, n.mode⟩

/-- `node` stands for what its caller reads through the pointer returned. -/
def step (s : kvfs) : call → Option (kvfs × reply)
  | .kvfs_init => (kvfs_init s).map fun s => (s, .done)
  | .kvfs_create path data size type mode =>
    (kvfs_create s path (.of_caller data) size type mode).map fun r => (r.1, .code r.2)
  | .kvfs_mkdir path => (kvfs_mkdir s path).map fun r => (r.1, .code r.2)
  | .kvfs_write copy path data size =>
    (kvfs_write s copy path data size).map fun r => (r.1, .code r.2)
  | .kvfs_delete path => (kvfs_delete s path).map fun r => (r.1, .code r.2)
  | .kvfs_open path => some (s, .node ((kvfs_open s path).map (node_entry s.heap)))

/-- What `kmalloc(size)` may answer: NULL, or a new block of that size. -/
def kmalloc_gives (abi : Kmem.Abi) (heap : Heap) (size : ℕ) : Option (ℕ × List UInt8) → Prop
  | none => True
  | some (p, bytes) =>
    size % abi.size_mod ≠ 0 ∧ heap p = none ∧ bytes.length = size % abi.size_mod

/-- Buffers are as long as their callers say. -/
def call.Legal (abi : Kmem.Abi) (s : kvfs) : call → Prop
  | .kvfs_create _ data size _ _ => ∀ bytes ∈ data, size ≤ bytes.length
  | .kvfs_write copy _ data size =>
    size < abi.size_mod ∧ (∀ src ∈ data, size ≤ src.length)
      ∧ kmalloc_gives abi s.heap (size + 1) copy
  | _ => True

/-- The calls one after the other, with what they return. -/
def run : kvfs → List call → Option (kvfs × List reply)
  | s, [] => some (s, [])
  | s, c :: rest =>
    (step s c).bind fun r => (run r.1 rest).map fun r' => (r'.1, r.2 :: r'.2)

/-- Each call is legal where it is made. -/
def LegalRun (abi : Kmem.Abi) : kvfs → List call → Prop
  | _, [] => True
  | s, c :: rest => c.Legal abi s ∧ ∀ r ∈ step s c, LegalRun abi r.1 rest

/-! ## The abstract file system -/

abbrev vfs_map := List UInt8 → Option entry

namespace vfs_map

def empty : vfs_map := fun _ => none

/-- No room for another key. -/
def Full (m : vfs_map) : Prop := KVFS_MAX_NODES ≤ {k | m k ≠ none}.ncard

/-- The key that a path names. -/
def key (path : Option (List UInt8)) : List UInt8 := sanitize_path path KVFS_MAX_PATH

/-- The files of a new system. -/
def boot : vfs_map :=
  boot_entries.foldl (fun m e => Function.update m (key (some e.path))
    (some ⟨e.data.contents (fun _ => none) e.size, e.size, e.type, e.mode⟩)) empty

open Classical in
noncomputable def create (m : vfs_map) (path : Option (List UInt8)) (e : entry) :
    vfs_map × reply :=
  if path = none ∨ m.Full then (m, .code (-1))
  else (Function.update m (key path) (some e), .code 0)

open Classical in
noncomputable def write (m : vfs_map) (copy : Option (ℕ × List UInt8))
    (path data : Option (List UInt8)) (size : ℕ) : vfs_map × reply :=
  match copy with
  | none => (m, .code (-1))
  | some (_, bytes) =>
    let contents := some ((data.getD bytes).take size)
    match m (key path) with
    | some e =>
      (Function.update m (key path) (some { e with contents := contents, size := size }),
        .code 0)
    | none =>
      if m.Full then (m, .code (-1))
      else
        (Function.update m (key path) (some ⟨contents, size, KVFS_TYPE_FILE, mode_0644⟩),
          .code 0)

def delete (m : vfs_map) (path : Option (List UInt8)) : vfs_map × reply :=
  match m (key path) with
  | some _ => (Function.update m (key path) none, .code 0)
  | none => (m, .code (-1))

noncomputable def step (m : vfs_map) : call → vfs_map × reply
  | .kvfs_init => (boot, .done)
  | .kvfs_create path data size type mode =>
    m.create path ⟨data.map (List.take size), size, type, mode⟩
  | .kvfs_mkdir path => m.create path ⟨none, 0, KVFS_TYPE_DIR, mode_0755⟩
  | .kvfs_write copy path data size => m.write copy path data size
  | .kvfs_delete path => m.delete path
  | .kvfs_open path => (m, .node (path.bind fun _ => m (key path)))

noncomputable def run : vfs_map → List call → vfs_map × List reply
  | m, [] => (m, [])
  | m, c :: rest => ((run (m.step c).1 rest).1, (m.step c).2 :: (run (m.step c).1 rest).2)

end vfs_map

/-- The map that a node table stands for. -/
def kvfs.map (s : kvfs) : vfs_map := fun k =>
  (slot_of kvfs_node.is_used kvfs_node.path s.vfs_table k).map (node_entry s.heap)

/-! ## The invariant -/

/-- The node frees its data when it goes. -/
def owns (n : kvfs_node) : Bool := n.is_used && n.is_dynamic

/-- The data of a node in use: only a block of its own is dynamic. -/
def DataOk (heap : Heap) (n : kvfs_node) : Prop :=
  match n.data with
  | .null | .object _ => n.is_dynamic = false
  | .block p => n.is_dynamic = true ∧ heap p ≠ none

abbrev used_names (t : List kvfs_node) : List (List UInt8) :=
  keys_used kvfs_node.is_used kvfs_node.path t

abbrev owned_data (t : List kvfs_node) : List node_data := keys_used owns kvfs_node.data t

/-- Every dynamic node owns a live block, and no two the same. -/
structure Owned (heap : Heap) (t : List kvfs_node) : Prop where
  data : ∀ n ∈ t, n.is_used = true → DataOk heap n
  distinct : (owned_data t).Nodup

structure Ok (s : kvfs) : Prop where
  length : s.vfs_table.length = KVFS_MAX_NODES
  names : (used_names s.vfs_table).Nodup
  count : s.vfs_node_count = (used_names s.vfs_table).length
  clean : ∀ n ∈ s.vfs_table, n.is_used = true → Clean KVFS_MAX_PATH n.path
  owned : Owned s.heap s.vfs_table

variable {s : kvfs} {pre post : List kvfs_node} {n n' : kvfs_node} {heap heap' : Heap}

/-- `heap'` keeps the blocks of the nodes in `t`. -/
def Keeps (heap heap' : Heap) (t : List kvfs_node) : Prop :=
  ∀ m ∈ t, m.is_used = true → ∀ p, m.data = .block p → heap' p = heap p

theorem Keeps.refl (heap : Heap) (t : List kvfs_node) : Keeps heap heap t := fun _ _ _ _ _ => rfl

theorem DataOk.owns_block {p : ℕ} (h : DataOk heap n) (hu : n.is_used = true)
    (hp : n.data = .block p) : owns n = true := by
  rw [DataOk, hp] at h
  rw [owns, hu, h.1]
  rfl

theorem DataOk.of_keeps (h : DataOk heap n) (hk : ∀ p, n.data = .block p → heap' p = heap p) :
    DataOk heap' n := by
  unfold DataOk at *
  split at h
  · exact h
  · exact h
  · rename_i p hp
    rwa [hk p hp]

theorem node_entry_of_keeps (hk : ∀ p, n.data = .block p → heap' p = heap p) :
    node_entry heap' n = node_entry heap n := by
  unfold node_entry node_data.contents
  split
  · rfl
  · rfl
  · rename_i p hp
    rw [hk p hp]

/-- Blocks of nodes in use are live. -/
theorem Owned.live {t : List kvfs_node} (h : Owned heap t) (hn : n ∈ t) (hu : n.is_used = true)
    {p : ℕ} (hp : n.data = .block p) : heap p ≠ none := by
  have hdata := h.data n hn hu
  rw [DataOk, hp] at hdata
  exact hdata.2

/-- Two nodes do not share a block. -/
theorem Owned.apart (h : Owned heap (pre ++ n :: post)) (hn : owns n = true)
    {m : kvfs_node} (hm : m ∈ pre ++ post) (hu : m.is_used = true) {p : ℕ}
    (hp : m.data = .block p) : n.data ≠ .block p := by
  intro heq
  have howns := (h.data m (mem_other hm) hu).owns_block hu hp
  have hdistinct := h.distinct
  rw [owned_data, nodup_of_used hn] at hdistinct
  refine hdistinct.1 (List.mem_map.mpr ⟨m, List.mem_filter.mpr ⟨hm, howns⟩, ?_⟩)
  rw [hp, heq]

theorem Owned.rest (h : Owned heap (pre ++ n :: post)) : Owned heap (pre ++ post) := by
  refine ⟨fun m hm => h.data m (mem_other hm), ?_⟩
  have hdistinct := h.distinct
  rw [owned_data] at hdistinct
  cases hn : owns n with
  | true => exact ((nodup_of_used hn).mp hdistinct).2
  | false => rwa [keys_used_of_free hn] at hdistinct

theorem Owned.of_keeps {t : List kvfs_node} (h : Owned heap t) (hkeeps : Keeps heap heap' t) :
    Owned heap' t :=
  ⟨fun m hm hu => (h.data m hm hu).of_keeps (hkeeps m hm hu), h.distinct⟩

/-- Freeing what a node owns. `now` may have a block more than the table knows of. -/
theorem Owned.free_data_spec {now : Heap} (h : Owned heap (pre ++ n :: post))
    (hu : n.is_used = true) (hnow : ∀ p, heap p ≠ none → now p = heap p) :
    ∃ heap', free_data now n = some heap' ∧ Keeps heap heap' (pre ++ post)
      ∧ ∀ p, heap p = none → heap' p = now p := by
  have hkeeps : Keeps heap now (pre ++ post) := by
    intro m hm hmu p hp
    exact hnow p (h.live (mem_other hm) hmu hp)
  have hdata := h.data n mem_middle hu
  unfold free_data
  by_cases hdyn : n.is_dynamic = true
  · rw [if_pos hdyn]
    cases hp : n.data with
    | null => exact ⟨now, rfl, hkeeps, fun _ _ => rfl⟩
    | object bytes =>
        rw [DataOk, hp] at hdata
        rw [hdyn] at hdata
        cases hdata
    | block q =>
        -- the block is live, so that its free succeeds, and it is no other node's
        have hq := h.live mem_middle hu hp
        have howns : owns n = true := by rw [owns, hu, hdyn]; rfl
        refine ⟨Function.update now q none, ?_, ?_, ?_⟩
        · exact if_pos (by rw [hnow q hq]; exact Option.isSome_iff_ne_none.mpr hq)
        · intro m hm hmu p hmp
          have hne : p ≠ q := by
            rintro rfl
            exact h.apart howns hm hmu hmp hp
          rw [Function.update_of_ne hne, hkeeps m hm hmu p hmp]
        · rintro p hfree
          rw [Function.update_of_ne]
          rintro rfl
          exact hq hfree
  · rw [if_neg hdyn]
    exact ⟨now, rfl, hkeeps, fun _ _ => rfl⟩

/-! ## One node changes -/

/-- The other entries stay as long as their blocks do. -/
theorem map_change (hkeeps : Keeps s.heap heap' (pre ++ post)) {k : List UInt8}
    {o : Option kvfs_node} (hname : n'.is_used = true → n'.path = k) {count : ℕ}
    (hslot : slot_of kvfs_node.is_used kvfs_node.path (pre ++ n' :: post)
      = Function.update (slot_of kvfs_node.is_used kvfs_node.path s.vfs_table) k o) :
    (kvfs.mk (pre ++ n' :: post) count heap').map
      = Function.update s.map k (o.map (node_entry heap')) := by
  funext j
  rw [kvfs.map, hslot]
  by_cases hj : j = k
  · rw [hj, Function.update_self, Function.update_self]
  · rw [Function.update_of_ne hj, Function.update_of_ne hj, kvfs.map]
    refine Option.map_congr fun m hm => node_entry_of_keeps fun p hp => ?_
    obtain ⟨hmem, hu, hkey⟩ := slot_of_some (t := pre ++ n' :: post) (k := j) (n := m)
      (by rw [hslot, Function.update_of_ne hj]; exact hm)
    rcases eq_or_mem_other hmem with rfl | hother
    · exact absurd (hkey.symm.trans (hname hu)) hj
    · exact hkeeps m hother hu p hp

/-- The new node has nothing, or a block that no other node has. -/
theorem Owned.change (h : Owned heap (pre ++ n :: post)) (hkeeps : Keeps heap heap' (pre ++ post))
    (hdata : n'.is_used = true → DataOk heap' n')
    (hown : ∀ p, n'.data = .block p → ∀ m ∈ pre ++ post, m.is_used = true → m.data ≠ .block p) :
    Owned heap' (pre ++ n' :: post) := by
  have hrest := h.rest.of_keeps hkeeps
  constructor
  · intro m hm hu
    rcases eq_or_mem_other hm with rfl | hother
    · exact hdata hu
    · exact hrest.data m hother hu
  · rw [owned_data]
    cases hown' : owns n' with
    | false =>
        rw [keys_used_of_free hown']
        exact hrest.distinct
    | true =>
        refine (nodup_of_used hown').mpr ⟨?_, hrest.distinct⟩
        intro hmem
        obtain ⟨m, hm, heq⟩ := List.mem_map.mp hmem
        obtain ⟨hin, hmo⟩ := List.mem_filter.mp hm
        rw [owns, Bool.and_eq_true] at hown' hmo
        -- a node that owns is dynamic, so what it has is a block
        have hstatic (hdyn : n'.is_dynamic = false) : False := by
          rw [hown'.2] at hdyn
          cases hdyn
        have hok := hdata hown'.1
        unfold DataOk at hok
        split at hok
        · exact hstatic hok
        · exact hstatic hok
        · rename_i p hp
          exact hown p hp m hin hmo.1 (heq.trans hp)

theorem Ok.clean_change (h : Ok s) (ht : s.vfs_table = pre ++ n :: post)
    (hn' : n'.is_used = true → Clean KVFS_MAX_PATH n'.path) :
    ∀ m ∈ pre ++ n' :: post, m.is_used = true → Clean KVFS_MAX_PATH m.path := by
  intro m hm hu
  rcases eq_or_mem_other hm with rfl | hother
  · exact hn' hu
  · exact h.clean m (by rw [ht]; exact mem_other hother) hu

/-- A node is written: one in use again under its name, or a free one under a new name. -/
theorem Ok.put (h : Ok s) (ht : s.vfs_table = pre ++ n :: post) (n' : kvfs_node) (count : ℕ)
    (hkeeps : Keeps s.heap heap' (pre ++ post)) (hn' : n'.is_used = true)
    (hclean : Clean KVFS_MAX_PATH n'.path) (hdata : DataOk heap' n')
    (hown : ∀ p, n'.data = .block p → ∀ m ∈ pre ++ post, m.is_used = true → m.data ≠ .block p)
    (hname : n.is_used = true ∧ n'.path = n.path
      ∨ n.is_used = false ∧ slot_of kvfs_node.is_used kvfs_node.path s.vfs_table n'.path = none)
    (hcount : count = s.vfs_node_count + if n.is_used then 0 else 1) :
    Ok ⟨pre ++ n' :: post, count, heap'⟩
      ∧ (kvfs.mk (pre ++ n' :: post) count heap').map
        = Function.update s.map n'.path (some (node_entry heap' n')) := by
  have howned := h.owned
  have hnames := h.names
  have hlen := h.length
  have hold := h.count
  rw [ht] at hnames hlen hold hname howned
  -- both ways, the name of the slot comes to stand for `n'`
  have hslot : (used_names (pre ++ n' :: post)).Nodup
      ∧ slot_of kvfs_node.is_used kvfs_node.path (pre ++ n' :: post)
        = Function.update (slot_of kvfs_node.is_used kvfs_node.path (pre ++ n :: post)) n'.path
          (some n') := by
    rcases hname with ⟨hu, hpath⟩ | ⟨hu, hpath⟩
    · rw [hpath]
      exact slot_of_replace hnames hu hn' hpath
    · exact slot_of_take hnames hu hn' hpath
  refine ⟨⟨?_, hslot.1, ?_, h.clean_change ht fun _ => hclean,
    howned.change hkeeps (fun _ => hdata) hown⟩, ?_⟩
  · rw [← hlen, List.length_append, List.length_append, List.length_cons, List.length_cons]
  · rw [hcount, hold, used_names, used_names, keys_used_length_of_used hn']
    cases hu : n.is_used with
    | true => rw [keys_used_length_of_used hu]; rfl
    | false => rw [keys_used_of_free hu]; rfl
  · rw [map_change hkeeps (fun _ => rfl) (o := some n') (by rw [hslot.2, ht])]
    rfl

/-- A node in use is released. -/
theorem Ok.release (h : Ok s) (ht : s.vfs_table = pre ++ n :: post) (n' : kvfs_node)
    (hkeeps : Keeps s.heap heap' (pre ++ post)) (hn : n.is_used = true)
    (hn' : n'.is_used = false) (hnull : n'.data = .null) :
    Ok ⟨pre ++ n' :: post, s.vfs_node_count - 1, heap'⟩
      ∧ (kvfs.mk (pre ++ n' :: post) (s.vfs_node_count - 1) heap').map
        = Function.update s.map n.path none := by
  have hnot : n'.is_used ≠ true := by rw [hn']; exact Bool.false_ne_true
  have hown (p : ℕ) (hp : n'.data = .block p) :
      ∀ m ∈ pre ++ post, m.is_used = true → m.data ≠ .block p := by
    rw [hnull] at hp
    cases hp
  have howned := h.owned
  have hnames := h.names
  have hlen := h.length
  have hold := h.count
  rw [ht] at hnames hlen hold howned
  obtain ⟨hnodup, hslot⟩ := slot_of_release hnames hn hn'
  refine ⟨⟨?_, hnodup, ?_, h.clean_change ht fun hu => absurd hu hnot,
    howned.change hkeeps (fun hu => absurd hu hnot) hown⟩, ?_⟩
  · rw [← hlen, List.length_append, List.length_append, List.length_cons, List.length_cons]
  · rw [hold, used_names, used_names, keys_used_length_of_used hn, keys_used_of_free hn',
      Nat.add_sub_cancel]
  · exact map_change (o := none) hkeeps (fun hu => absurd hu hnot) (by rw [hslot, ht])

/-! ## Searching the table -/

theorem Ok.full_iff (h : Ok s) : s.map.Full ↔ KVFS_MAX_NODES ≤ s.vfs_node_count := by
  have hkeys : {k | s.map k ≠ none} = ↑(used_names s.vfs_table).toFinset := by
    ext k
    rw [Set.mem_ofPred_eq, Finset.mem_coe, List.mem_toFinset, kvfs.map, Ne, Option.map_eq_none_iff,
      slot_of_eq_none_iff, not_not]
  rw [vfs_map.Full, hkeys, Set.ncard_coe_finset, List.toFinset_card_of_nodup h.names, h.count]

theorem Ok.named_some (h : Ok s) {k : List UInt8}
    (hfind : find_slot (is_named k) s.vfs_table = some (pre, n, post)) :
    s.vfs_table = pre ++ n :: post ∧ n.is_used = true ∧ n.path = k
      ∧ s.map k = some (node_entry s.heap n) := by
  obtain ⟨ht, hn, -⟩ := find_slot_some hfind
  rw [is_named, Bool.and_eq_true, decide_eq_true_eq] at hn
  refine ⟨ht, hn.1, hn.2, ?_⟩
  have hmem : n ∈ s.vfs_table := by rw [ht]; exact mem_middle
  rw [kvfs.map, ← hn.2, slot_of_mem h.names hmem hn.1]
  rfl

theorem named_none {k : List UInt8} (hfind : find_slot (is_named k) s.vfs_table = none) :
    slot_of kvfs_node.is_used kvfs_node.path s.vfs_table k = none := by
  rw [slot_of, List.find?_eq_none]
  intro n hn
  exact Bool.eq_false_iff.mp (find_slot_none hfind n hn)

theorem map_named_none {k : List UInt8}
    (hfind : find_slot (is_named k) s.vfs_table = none) : s.map k = none := by
  rw [kvfs.map, named_none hfind]
  rfl

theorem Ok.free_some (h : Ok s)
    (hfind : find_slot is_free s.vfs_table = some (pre, n, post)) :
    s.vfs_table = pre ++ n :: post ∧ n.is_used = false ∧ ¬ s.map.Full := by
  obtain ⟨ht, hn, -⟩ := find_slot_some hfind
  have hu : n.is_used = false := by rwa [is_free, Bool.not_eq_true'] at hn
  refine ⟨ht, hu, ?_⟩
  have hlen := h.length
  rw [ht, List.length_append, List.length_cons] at hlen
  rw [h.full_iff, h.count, ht, used_names, keys_used_of_free hu, keys_used, List.length_map]
  have hle := List.length_filter_le kvfs_node.is_used (pre ++ post)
  rw [List.length_append] at hle
  omega

theorem Ok.free_none (h : Ok s) (hfind : find_slot is_free s.vfs_table = none) : s.map.Full := by
  have hall : ∀ n ∈ s.vfs_table, n.is_used = true := fun n hn => by
    have hfree := find_slot_none hfind n hn
    rwa [is_free, Bool.not_eq_false'] at hfree
  rw [h.full_iff, h.count, used_names, keys_used, List.length_map,
    List.filter_eq_self.mpr hall, h.length]

/-! ## The operations -/

theorem key_clean (path : Option (List UInt8)) : Clean KVFS_MAX_PATH (vfs_map.key path) :=
  sanitize_path_clean path (by decide)

theorem kvfs_create_spec (h : Ok s) (path : Option (List UInt8)) {data : node_data}
    (hdata : ∀ p, data ≠ .block p) (size : ℕ) (type : UInt8) (mode : UInt16) :
    ∃ s' c, kvfs_create s path data size type mode = some (s', c) ∧ Ok s'
      ∧ (s'.map, reply.code c)
        = s.map.create path ⟨data.contents (fun _ => none) size, size, type, mode⟩ := by
  have hcontents (heap : Heap) :
      data.contents heap size = data.contents (fun _ => none) size := by
    cases data with
    | null => rfl
    | object bytes => rfl
    | block p => exact absurd rfl (hdata p)
  have hstatic (heap : Heap) (n : kvfs_node) (hd : n.data = data) (hdyn : n.is_dynamic = false) :
      DataOk heap n := by
    unfold DataOk
    -- a node of that path, or the first free one; there is one below the bound
    split
    · exact hdyn
    · exact hdyn
    · rename_i p hp
      exact absurd (hd.symm.trans hp) (hdata p)
  unfold kvfs_create vfs_map.create
  rw [h.full_iff]
  by_cases hrefuse : path = none ∨ KVFS_MAX_NODES ≤ s.vfs_node_count
  · rw [if_pos hrefuse, if_pos hrefuse]
    exact ⟨s, -1, rfl, h, rfl⟩
  · rw [if_neg hrefuse, if_neg hrefuse]
    have hkey := key_clean path
    rw [← vfs_map.key]
    dsimp only
    split
    · rename_i pre n post hfind
      obtain ⟨ht, hu, hpath, -⟩ := h.named_some hfind
      obtain ⟨heap', hfree, hkeeps, -⟩ := (ht ▸ h.owned).free_data_spec hu fun _ _ => rfl
      rw [hfree]
      obtain ⟨hok, hmap⟩ := h.put ht { n with
          data := data, size := size, type := type, mode := mode, is_dynamic := false }
        s.vfs_node_count hkeeps hu (hpath ▸ hkey)
        (hstatic heap' _ rfl rfl) (fun p hp => absurd hp (hdata p)) (.inl ⟨hu, rfl⟩)
        (by rw [hu]; rfl)
      refine ⟨_, _, rfl, hok, ?_⟩
      rw [hmap, node_entry, hcontents, hpath]
    · rename_i hfind
      split
      · rename_i pre n post hfree
        obtain ⟨ht, hu, -⟩ := h.free_some hfree
        have hcopy := kstrncpy_of_clean hkey
        obtain ⟨hok, hmap⟩ := h.put ht {
            path := kstrncpy (vfs_map.key path) (KVFS_MAX_PATH - 1), data := data, size := size,
            type := type, mode := mode, is_used := true, is_dynamic := false }
          (s.vfs_node_count + 1) (.refl s.heap _) rfl
          (by rw [hcopy]; exact hkey) (hstatic s.heap _ rfl rfl)
          (fun p hp => absurd hp (hdata p)) (.inr ⟨hu, by rw [hcopy]; exact named_none hfind⟩)
          (by rw [hu]; rfl)
        refine ⟨_, _, rfl, hok, ?_⟩
        rw [hmap, node_entry, hcontents, hcopy]
      · rename_i hfree
        exact absurd (h.full_iff.mp (h.free_none hfree)) fun hcount => hrefuse (.inr hcount)

theorem fill_copy_spec {data : Option (List UInt8)} {size : ℕ} {bytes : List UInt8}
    (hlen : bytes.length = size + 1) (hdata : ∀ src ∈ data, size ≤ src.length) :
    ∃ filled, fill_copy data size bytes = some filled
      ∧ filled.take size = (data.getD bytes).take size := by
  have htake (src : List UInt8) (h : size ≤ src.length) (rest : List UInt8) :
      (src.take size ++ 0 :: rest).take size = src.take size :=
    List.take_left' (List.length_take_of_le h)
  unfold fill_copy
  rw [if_neg (by omega)]
  cases data with
  | none => exact ⟨_, rfl, htake bytes (by omega) _⟩
  | some src =>
      have hsrc := hdata src rfl
      exact ⟨_, if_neg (by omega), htake src hsrc _⟩

/-- The copy is a block that the file system does not know of. -/
theorem Ok.copy_new (h : Ok s) {p : ℕ} (hp : s.heap p = none) {m : kvfs_node}
    (hm : m ∈ s.vfs_table) (hu : m.is_used = true) : m.data ≠ .block p :=
  fun heq => h.owned.live hm hu heq hp

theorem kvfs_write_spec (h : Ok s) {abi : Kmem.Abi} {copy : Option (ℕ × List UInt8)}
    (path : Option (List UInt8)) {data : Option (List UInt8)} {size : ℕ}
    (hlegal : (call.kvfs_write copy path data size).Legal abi s) :
    ∃ s' c, kvfs_write s copy path data size = some (s', c) ∧ Ok s'
      ∧ (s'.map, reply.code c) = s.map.write copy path data size := by
  obtain ⟨hsize, hdata, hgives⟩ := hlegal
  unfold kvfs_write vfs_map.write
  rw [← vfs_map.key]
  have hkey := key_clean path
  rcases copy with _ | ⟨p, bytes⟩
  · exact ⟨s, -1, rfl, h, rfl⟩
  · obtain ⟨hwrap, hfresh, hlen⟩ := hgives
    have hmod : (size + 1) % abi.size_mod = size + 1 := by
      -- the only `size` whose `size + 1` wraps asks for nothing
      rcases Nat.lt_or_ge (size + 1) abi.size_mod with hlt | hge
      · exact Nat.mod_eq_of_lt hlt
      · exact absurd (by rw [show size + 1 = abi.size_mod by omega, Nat.mod_self]) hwrap
    -- the copy is filled before a node is looked for
    obtain ⟨filled, hfill, htake⟩ := fill_copy_spec (hlen.trans hmod) hdata
    dsimp only
    rw [hfill, Option.bind_some]
    have hheap : ∀ q, s.heap q ≠ none →
        Function.update s.heap p (some filled) q = s.heap q := fun q hq =>
      Function.update_of_ne (by rintro rfl; exact hq hfresh) _ _
    have hentry (heap : Heap) (hp : heap p = some filled) :
        (node_data.block p).contents heap size = some ((data.getD bytes).take size) := by
      rw [node_data.contents, hp, ← htake]
      rfl
    split
    · rename_i pre n post hfind
      obtain ⟨ht, hu, hpath, hold⟩ := h.named_some hfind
      obtain ⟨heap', hfree, hkeeps, hcopy⟩ := (ht ▸ h.owned).free_data_spec hu hheap
      have hp : heap' p = some filled := by rw [hcopy p hfresh, Function.update_self]
      rw [hfree, hold]
      obtain ⟨hok, hmap⟩ := h.put ht { n with
          data := .block p, size := size, is_dynamic := true }
        s.vfs_node_count hkeeps hu (hpath ▸ hkey) ⟨rfl, by rw [hp]; exact Option.some_ne_none _⟩
        (fun q hq m hm hmu => by
          cases hq
          exact h.copy_new hfresh (by rw [ht]; exact mem_other hm) hmu)
        (.inl ⟨hu, rfl⟩) (by rw [hu]; rfl)
      refine ⟨_, _, rfl, hok, ?_⟩
      rw [hmap, node_entry, hentry heap' hp, hpath]
      rfl
    · rename_i hfind
      rw [map_named_none hfind]
      split
      · rename_i pre n post hfree
        obtain ⟨ht, hu, hroom⟩ := h.free_some hfree
        have hcopy := kstrncpy_of_clean hkey
        have hp : Function.update s.heap p (some filled) p = some filled := Function.update_self ..
        obtain ⟨hok, hmap⟩ := h.put ht {
            path := kstrncpy (vfs_map.key path) (KVFS_MAX_PATH - 1), data := .block p,
            size := size, type := KVFS_TYPE_FILE, mode := mode_0644, is_used := true,
            is_dynamic := true }
          (s.vfs_node_count + 1)
          (fun m hm hmu q hq => hheap q (h.owned.live (by rw [ht]; exact mem_other hm) hmu hq)) rfl
          (by rw [hcopy]; exact hkey) ⟨rfl, by rw [hp]; exact Option.some_ne_none _⟩
          (fun q hq m hm hmu => by
            cases hq
            exact h.copy_new hfresh (by rw [ht]; exact mem_other hm) hmu)
          (.inr ⟨hu, by rw [hcopy]; exact named_none hfind⟩) (by rw [hu]; rfl)
        refine ⟨_, _, rfl, hok, ?_⟩
        rw [hmap, node_entry, hentry _ hp, hcopy]
        dsimp only
        rw [if_neg hroom]
      · rename_i hfree
        -- the copy goes, and with it all that the call did
        have hback : kfree (Function.update s.heap p (some filled)) p = some s.heap := by
          rw [kfree, Function.update_self, if_pos Option.isSome_some, Function.update_idem,
            Function.update_eq_self_iff.mpr hfresh.symm]
        rw [hback, Option.map_some]
        refine ⟨s, -1, rfl, h, ?_⟩
        dsimp only
        rw [if_pos (h.free_none hfree)]

/-- A write that gets its copy, to a path that is there or into a table with room. -/
theorem kvfs_write_put (h : Ok s) {abi : Kmem.Abi} {copy : ℕ × List UInt8}
    (path : Option (List UInt8)) {data : Option (List UInt8)} {size : ℕ}
    (hlegal : (call.kvfs_write (some copy) path data size).Legal abi s)
    (hroom : s.map (vfs_map.key path) = none → s.vfs_node_count < KVFS_MAX_NODES) :
    ∃ s' x, kvfs_write s (some copy) path data size = some (s', 0) ∧ Ok s'
      ∧ s'.map = Function.update s.map (vfs_map.key path) (some x)
      ∧ x.contents = some ((data.getD copy.2).take size) := by
  obtain ⟨s', c, hwrite, hok, hmap⟩ := kvfs_write_spec h path hlegal
  unfold vfs_map.write at hmap
  dsimp only at hmap
  split at hmap
  · obtain ⟨hupdate, hcode⟩ := Prod.mk.inj hmap
    cases hcode
    exact ⟨s', _, hwrite, hok, hupdate, rfl⟩
  · rename_i hnone
    have hnot : ¬ s.map.Full := by
      rw [h.full_iff]
      exact Nat.not_le.mpr (hroom hnone)
    rw [if_neg hnot] at hmap
    obtain ⟨hupdate, hcode⟩ := Prod.mk.inj hmap
    cases hcode
    exact ⟨s', _, hwrite, hok, hupdate, rfl⟩

/-- A file or a directory is put into a table with room. -/
theorem kvfs_create_put (h : Ok s) (path : List UInt8) {data : node_data}
    (hdata : ∀ p, data ≠ .block p) (size : ℕ) (type : UInt8) (mode : UInt16)
    (hroom : s.vfs_node_count < KVFS_MAX_NODES) :
    ∃ s', kvfs_create s (some path) data size type mode = some (s', 0) ∧ Ok s'
      ∧ s'.map = Function.update s.map (vfs_map.key (some path))
        (some ⟨data.contents (fun _ => none) size, size, type, mode⟩) := by
  obtain ⟨s', c, hcreate, hok, hmap⟩ := kvfs_create_spec h (some path) hdata size type mode
  have hnot : ¬ (some path = none ∨ s.map.Full) := by
    rw [h.full_iff]
    rintro (hpath | hfull)
    · cases hpath
    · omega
  rw [vfs_map.create, if_neg hnot] at hmap
  obtain ⟨hupdate, hcode⟩ := Prod.mk.inj hmap
  cases hcode
  exact ⟨s', hcreate, hok, hupdate⟩

theorem kvfs_delete_spec (h : Ok s) (path : Option (List UInt8)) :
    ∃ s' c, kvfs_delete s path = some (s', c) ∧ Ok s'
      ∧ (s'.map, reply.code c) = s.map.delete path := by
  unfold kvfs_delete vfs_map.delete
  rw [← vfs_map.key]
  dsimp only
  split
  · rename_i pre n post hfind
    obtain ⟨ht, hu, hpath, hold⟩ := h.named_some hfind
    obtain ⟨heap', hfree, hkeeps, -⟩ := (ht ▸ h.owned).free_data_spec hu fun _ _ => rfl
    rw [hfree, hold]
    obtain ⟨hok, hmap⟩ := h.release ht { n with is_used := false, path := [], data := .null }
      hkeeps hu rfl rfl
    refine ⟨_, _, rfl, hok, ?_⟩
    rw [hmap, hpath]
  · rename_i hfind
    rw [map_named_none hfind]
    exact ⟨s, -1, rfl, h, rfl⟩

theorem kvfs_open_spec (s : kvfs) (path : Option (List UInt8)) :
    (kvfs_open s path).map (node_entry s.heap) = path.bind fun _ => s.map (vfs_map.key path) := by
  cases path with
  | none => rfl
  | some text =>
      unfold kvfs_open
      rw [map_find_slot]
      rfl

/-! ## `kvfs_init` -/

/-- The loop of `kvfs_init` frees every block that a node owns, each once. -/
theorem free_nodes_spec {heap : Heap} {t : List kvfs_node} (h : Owned heap t) :
    ∃ heap', free_nodes heap t = some heap' := by
  induction t generalizing heap with
  | nil => exact ⟨heap, rfl⟩
  | cons n t ih =>
      have hmiddle : Owned heap ([] ++ n :: t) := h
      have hrest : Owned heap t := hmiddle.rest
      rw [free_nodes]
      cases hu : n.is_used with
      | false => exact ih hrest
      | true =>
          obtain ⟨heap', hfree, hkeeps, -⟩ := hmiddle.free_data_spec hu fun _ _ => rfl
          rw [if_pos rfl, hfree, Option.bind_some]
          exact ih (hrest.of_keeps hkeeps)

/-- A table without nodes in use. -/
theorem ok_of_unused (t : List kvfs_node) (heap : Heap) (hlen : t.length = KVFS_MAX_NODES)
    (hfree : ∀ n ∈ t, n.is_used = false) :
    Ok ⟨t, 0, heap⟩ ∧ (kvfs.mk t 0 heap).map = vfs_map.empty := by
  have hnot (n : kvfs_node) (hn : n ∈ t) (hu : n.is_used = true) : False := by
    rw [hfree n hn] at hu
    cases hu
  have hnames : used_names t = [] := by
    rw [used_names, keys_used, List.map_eq_nil_iff, List.filter_eq_nil_iff]
    exact hnot
  have howners : owned_data t = [] := by
    rw [owned_data, keys_used, List.map_eq_nil_iff, List.filter_eq_nil_iff]
    intro n hn hown
    rw [owns, Bool.and_eq_true] at hown
    exact hnot n hn hown.1
  -- no node in use: every list that the invariant speaks of is empty
  constructor
  · refine ⟨hlen, ?_, ?_, fun n hn hu => (hnot n hn hu).elim, ?_, ?_⟩
    · rw [hnames]
      exact List.nodup_nil
    · rw [hnames]
      rfl
    · exact fun n hn hu => (hnot n hn hu).elim
    · rw [howners]
      exact List.nodup_nil
  · funext k
    have hnone : slot_of kvfs_node.is_used kvfs_node.path t k = none := by
      rw [slot_of_eq_none_iff, show keys_used kvfs_node.is_used kvfs_node.path t = [] from hnames]
      exact List.not_mem_nil
    rw [kvfs.map, hnone]
    rfl

theorem start_ok (heap : Heap) : Ok (.start heap) ∧ (kvfs.start heap).map = vfs_map.empty :=
  ok_of_unused _ heap List.length_replicate fun n hn => by rw [List.eq_of_mem_replicate hn]

theorem count_le_of_create {s s' : kvfs} {path : Option (List UInt8)} {data : node_data}
    {size : ℕ} {type : UInt8} {mode : UInt16} {c : ℤ}
    (h : kvfs_create s path data size type mode = some (s', c)) :
    s'.vfs_node_count ≤ s.vfs_node_count + 1 := by
  unfold kvfs_create at h
  dsimp only at h
  split_ifs at h
  · cases h
    exact Nat.le_succ _
  · split at h
    · obtain ⟨heap, -, heq⟩ := Option.map_eq_some_iff.mp h
      cases heq
      exact Nat.le_succ _
    · split at h
      · cases h
        exact le_rfl
      · cases h
        exact Nat.le_succ _

/-- The boot files fit: none of the calls is refused. -/
theorem create_all_spec (entries : List boot_entry)
    (hstatic : ∀ e ∈ entries, ∀ p, e.data ≠ .block p) {s : kvfs} (h : Ok s)
    (hroom : s.vfs_node_count + entries.length ≤ KVFS_MAX_NODES) :
    ∃ s', create_all s entries = some s' ∧ Ok s'
      ∧ s'.vfs_node_count ≤ s.vfs_node_count + entries.length
      ∧ s'.map = entries.foldl (fun m e => Function.update m (vfs_map.key (some e.path))
        (some ⟨e.data.contents (fun _ => none) e.size, e.size, e.type, e.mode⟩)) s.map := by
  induction entries generalizing s with
  | nil => exact ⟨s, rfl, h, le_rfl, rfl⟩
  | cons e rest ih =>
      rw [List.length_cons] at hroom ⊢
      obtain ⟨s', hcreate, hok, hmap⟩ := kvfs_create_put h e.path
        (hstatic e List.mem_cons_self) e.size e.type e.mode (by omega)
      have hcount := count_le_of_create hcreate
      rw [create_all, hcreate, Option.bind_some, List.foldl_cons, ← hmap]
      obtain ⟨s'', hrest, hok', hle, hfold⟩ :=
        ih (fun e he => hstatic e (List.mem_cons_of_mem _ he)) hok (by omega)
      exact ⟨s'', hrest, hok', by omega, hfold⟩

theorem boot_entries_static : ∀ e ∈ boot_entries, ∀ p, e.data ≠ .block p := by
  intro e he p hp
  have hall : boot_entries.all (fun e => match e.data with | .block _ => false | _ => true)
      = true := rfl
  have := List.all_eq_true.mp hall e he
  rw [hp] at this
  cases this

theorem kvfs_init_spec (h : Ok s) :
    ∃ s', kvfs_init s = some s' ∧ Ok s' ∧ s'.vfs_node_count ≤ boot_entries.length
      ∧ s'.map = vfs_map.boot := by
  obtain ⟨heap, hfree⟩ := free_nodes_spec h.owned
  obtain ⟨hok, hempty⟩ := ok_of_unused (s.vfs_table.map reset_node) heap
    (by rw [List.length_map, h.length])
    (by
      intro n hn
      obtain ⟨m, -, rfl⟩ := List.mem_map.mp hn
      rfl)
  rw [kvfs_init, hfree, Option.bind_some, vfs_map.boot, ← hempty]
  have hroom : 0 + boot_entries.length ≤ KVFS_MAX_NODES := by decide
  obtain ⟨s', hcreate, hok', hle, hmap⟩ :=
    create_all_spec boot_entries boot_entries_static hok hroom
  exact ⟨s', hcreate, hok', hle.trans (Nat.zero_add _).le, hmap⟩

/-! ## Steps and runs -/

/-- One call: it returns, and does to the map what the abstract call does. -/
theorem simulates (h : Ok s) {abi : Kmem.Abi} {c : call} (hlegal : c.Legal abi s) :
    ∃ s' r, step s c = some (s', r) ∧ Ok s' ∧ (s'.map, r) = s.map.step c := by
  have hcode {o : Option (kvfs × ℤ)} {spec : vfs_map × reply}
      (hspec : ∃ s' c, o = some (s', c) ∧ Ok s' ∧ (s'.map, reply.code c) = spec) :
      ∃ s' r, o.map (fun r => (r.1, reply.code r.2)) = some (s', r) ∧ Ok s'
        ∧ (s'.map, r) = spec := by
    obtain ⟨s', c, rfl, hok, hmap⟩ := hspec
    exact ⟨s', .code c, rfl, hok, hmap⟩
  cases c with
  | kvfs_init =>
      obtain ⟨s', hinit, hok, -, hmap⟩ := kvfs_init_spec h
      rw [step, hinit]
      exact ⟨s', .done, rfl, hok, by rw [hmap]; rfl⟩
  | kvfs_create path data size type mode =>
      rw [step, vfs_map.step]
      apply hcode
      cases data with
      | none => exact kvfs_create_spec h path (fun p hp => by cases hp) size type mode
      | some bytes => exact kvfs_create_spec h path (fun p hp => by cases hp) size type mode
  | kvfs_mkdir path =>
      exact hcode (kvfs_create_spec h path (fun p hp => by cases hp) 0 KVFS_TYPE_DIR mode_0755)
  | kvfs_write copy path data size => exact hcode (kvfs_write_spec h path hlegal)
  | kvfs_delete path => exact hcode (kvfs_delete_spec h path)
  | kvfs_open path =>
      refine ⟨s, _, rfl, h, ?_⟩
      rw [kvfs_open_spec]
      rfl

theorem run_simulates {abi : Kmem.Abi} (calls : List call) (h : Ok s)
    (hlegal : LegalRun abi s calls) :
    ∃ s' replies, run s calls = some (s', replies) ∧ Ok s'
      ∧ (s'.map, replies) = s.map.run calls := by
  induction calls generalizing s with
  | nil => exact ⟨s, [], rfl, h, rfl⟩
  | cons c rest ih =>
      obtain ⟨s₁, r, hstep, hok, hmap⟩ := simulates h hlegal.1
      obtain ⟨s', replies, hrun, hok', hmap'⟩ := ih hok (hlegal.2 (s₁, r) hstep)
      refine ⟨s', r :: replies, ?_, hok', ?_⟩
      · rw [run, hstep, Option.bind_some, hrun]
        rfl
      · rw [vfs_map.run, ← hmap, ← hmap']

/-! ## What a call can do to the map -/

def call.path : call → Option (List UInt8)
  | .kvfs_init => none
  | .kvfs_create path _ _ _ _ | .kvfs_mkdir path | .kvfs_write _ path _ _ | .kvfs_delete path
  | .kvfs_open path => path

namespace vfs_map

/-- The map is written at the key that the call names, or not at all and with an error. -/
def AtKey (m : vfs_map) (k : List UInt8) (r : vfs_map × reply) : Prop :=
  r = (m, .code (-1)) ∨ ∃ o, r = (Function.update m k o, .code 0)

theorem create_at_key (m : vfs_map) (path : Option (List UInt8)) (e : entry) :
    m.AtKey (key path) (m.create path e) := by
  unfold create
  split_ifs
  · exact .inl rfl
  · exact .inr ⟨_, rfl⟩

theorem write_at_key (m : vfs_map) (copy : Option (ℕ × List UInt8))
    (path data : Option (List UInt8)) (size : ℕ) :
    m.AtKey (key path) (m.write copy path data size) := by
  unfold write
  split
  · exact .inl rfl
  · dsimp only
    split
    · exact .inr ⟨_, rfl⟩
    · split_ifs
      · exact .inl rfl
      · exact .inr ⟨_, rfl⟩

theorem delete_at_key (m : vfs_map) (path : Option (List UInt8)) :
    m.AtKey (key path) (m.delete path) := by
  unfold delete
  split
  · exact .inr ⟨_, rfl⟩
  · exact .inl rfl

variable {m : vfs_map} {k : List UInt8} {r : vfs_map × reply}

theorem AtKey.error (h : m.AtKey k r) (hr : r.2 = .code (-1)) : r.1 = m := by
  rcases h with rfl | ⟨o, rfl⟩
  · rfl
  · exact absurd (reply.code.inj hr) (by decide)

theorem AtKey.frame (h : m.AtKey k r) {j : List UInt8} (hj : j ≠ k) : r.1 j = m j := by
  rcases h with rfl | ⟨o, rfl⟩
  · rfl
  · exact Function.update_of_ne hj o m

theorem step_error (m : vfs_map) (c : call) (h : (m.step c).2 = .code (-1)) :
    (m.step c).1 = m := by
  cases c with
  | kvfs_init => cases h
  | kvfs_create path data size type mode => exact (create_at_key m path _).error h
  | kvfs_mkdir path => exact (create_at_key m path _).error h
  | kvfs_write copy path data size => exact (write_at_key m copy path data size).error h
  | kvfs_delete path => exact (delete_at_key m path).error h
  | kvfs_open path => rfl

theorem step_frame (m : vfs_map) {c : call} (hc : c ≠ .kvfs_init) {j : List UInt8}
    (hj : j ≠ key c.path) : (m.step c).1 j = m j := by
  cases c with
  | kvfs_init => exact absurd rfl hc
  | kvfs_create path data size type mode => exact (create_at_key m path _).frame hj
  | kvfs_mkdir path => exact (create_at_key m path _).frame hj
  | kvfs_write copy path data size => exact (write_at_key m copy path data size).frame hj
  | kvfs_delete path => exact (delete_at_key m path).frame hj
  | kvfs_open path => rfl

end vfs_map

theorem Ok.key_of_map (h : Ok s) {k : List UInt8} (hk : s.map k ≠ none) :
    Clean KVFS_MAX_PATH k := by
  rw [kvfs.map, Ne, Option.map_eq_none_iff] at hk
  obtain ⟨n, hn⟩ := Option.ne_none_iff_exists'.mp hk
  obtain ⟨hmem, hu, hpath⟩ := slot_of_some hn
  rw [← hpath]
  exact h.clean n hmem hu

/-- **The refinement.** Whatever is called, from the start of the kernel: the calls return, the
table is a finite map from clean paths to entries, it is the map that the abstract calls give,
and they gave the same replies. A further call changes the one key it names, and nothing when
it returns an error. -/
theorem vfs_refines_map (abi : Kmem.Abi) (heap : Heap) (calls : List call)
    (hlegal : LegalRun abi (.start heap) calls) :
    ∃ s replies, run (.start heap) calls = some (s, replies)
      ∧ (used_names s.vfs_table).Nodup
      ∧ s.vfs_node_count = (s.vfs_table.filter kvfs_node.is_used).length
      ∧ (∀ k, s.map k ≠ none → sanitize_path (some k) KVFS_MAX_PATH = k)
      ∧ (s.map, replies) = vfs_map.empty.run calls
      ∧ ∀ c : call, c.Legal abi s → ∃ s' r, step s c = some (s', r)
        ∧ (s'.map, r) = s.map.step c
        ∧ (r = .code (-1) → s'.map = s.map)
        ∧ (c ≠ .kvfs_init → ∀ k, k ≠ vfs_map.key c.path → s'.map k = s.map k) := by
  obtain ⟨hstart, hempty⟩ := start_ok heap
  obtain ⟨s, replies, hrun, hok, hmap⟩ := run_simulates calls hstart hlegal
  rw [hempty] at hmap
  refine ⟨s, replies, hrun, hok.names, ?_, fun k hk => sanitize_path_of_clean (hok.key_of_map hk),
    hmap, fun c hc => ?_⟩
  · rw [hok.count, used_names, keys_used, List.length_map]
  · obtain ⟨s', r, hstep, -, hspec⟩ := simulates hok hc
    have hs' : s'.map = (s.map.step c).1 := congrArg Prod.fst hspec
    have hr : r = (s.map.step c).2 := congrArg Prod.snd hspec
    refine ⟨s', r, hstep, hspec, fun herror => ?_, fun hinit k hk => ?_⟩
    · rw [hs']
      exact s.map.step_error c (hr.symm.trans herror)
    · rw [hs']
      exact s.map.step_frame hinit hk

/-- A file is written, written again under another spelling, opened and deleted, twice. -/
theorem vfs_refines_map_two_spellings :
    let calls : List call :=
      [.kvfs_write (some (16, [0, 0, 0])) (some (literal "a//b")) (some [7, 8]) 2,
        .kvfs_write none (some (literal "/a/b/")) (some [9]) 1, .kvfs_open (some (literal "/a/b")),
        .kvfs_mkdir (some (literal "/a/b")), .kvfs_delete (some (literal "/a/b")),
        .kvfs_delete (some (literal "/a/b")), .kvfs_init]
    ∃ s replies, run (.start fun _ => none) calls = some (s, replies)
      ∧ (used_names s.vfs_table).Nodup
      ∧ (s.map, replies) = vfs_map.empty.run calls := by
  intro calls
  have hlegal : LegalRun .i386 (.start fun _ => none) calls := by
    refine ⟨⟨by decide, ?_, by decide, rfl, rfl⟩, fun _ _ => ⟨⟨by decide, ?_, trivial⟩,
      fun _ _ => ⟨trivial, fun _ _ => ⟨trivial, fun _ _ => ⟨trivial, fun _ _ => ⟨trivial,
        fun _ _ => ⟨trivial, fun _ _ => trivial⟩⟩⟩⟩⟩⟩⟩
    · rintro src ⟨⟩
      exact le_rfl
    · rintro src ⟨⟩
      exact le_rfl
  obtain ⟨s, replies, hrun, hnames, -, -, hmap, -⟩ :=
    vfs_refines_map .i386 (fun _ => none) calls hlegal
  exact ⟨s, replies, hrun, hnames, hmap⟩

end SysInC.Kvfs
