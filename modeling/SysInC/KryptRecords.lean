/-
The records of a directory vault: what `pack_directory_tree` writes, and what the record loop of
`decrypt_vault` reads.

The stream is one record behind the other (`pack_flatten`). The loop stays in step with it as long
as each payload has the length that its header announces and is taken from the stream.
-/
import SysInC.KryptVault

set_option autoImplicit false

namespace SysInC.Krypt

open SysInC.Kvfs (literal slash)

/-! ## What is to be written -/

mutual

/-- The records of an entry: its header, and what its reads give. -/
def item_records ( rel_prefix : List UInt8) : item → List record
  | .gone _ => []
  | .dir d_name st_mode entries =>
    if is_dots d_name then []
    else
      let rel_path := child_path rel_prefix d_name
      ⟨rel_path, 1, st_mode, 0, []⟩ :: tree_records rel_path entries
  | .other d_name st_mode st_size contents =>
    if is_dots d_name then []
    else [⟨child_path rel_prefix d_name, 0, st_mode, st_size, contents.getD []⟩]

def tree_records ( rel_prefix : List UInt8) : List item → List record
  | [] => []
  | x :: entries => item_records rel_prefix x ++ tree_records rel_prefix entries

end

def record.header (r : record) : List UInt8 :=
  (header_writes r.rel_path r.is_dir r.mode r.fsize).flatten

def record.bytes (r : record) : List UInt8 := r.header ++ r.payload

/-- What `encrypt_vault` writes behind the type of a directory vault. -/
def packed (entries : List item) : List UInt8 :=
  (pack_directory_tree [] entries ++ [le_bytes 2 0]).flatten

mutual

theorem pack_item_flatten ( rel_prefix : List UInt8) :
    ∀ x : item, (pack_item rel_prefix x).flatten
      = (item_records rel_prefix x).flatMap record.bytes
  | .gone _ => by rw [pack_item, item_records]; rfl
  | .dir d_name st_mode entries => by
      rw [pack_item, item_records]
      split_ifs
      · rfl
      · rw [List.flatten_append, pack_flatten (child_path rel_prefix d_name) entries,
          List.flatMap_cons, record.bytes, List.append_nil]
        rfl
  | .other d_name st_mode st_size contents => by
      rw [pack_item, item_records]
      split_ifs
      · rfl
      · rw [List.flatten_append, copy_chunks_flatten, List.flatMap_singleton]
        rfl

/-- The stream is one record behind the other. -/
theorem pack_flatten ( rel_prefix : List UInt8) :
    ∀ entries : List item, (pack_directory_tree rel_prefix entries).flatten
      = (tree_records rel_prefix entries).flatMap record.bytes
  | [] => by rw [pack_directory_tree, tree_records]; rfl
  | x :: entries => by
      rw [pack_directory_tree, tree_records, List.flatten_append, pack_item_flatten rel_prefix x,
        pack_flatten rel_prefix entries, List.flatMap_append]

end

/-- What every record of a tree has. -/
structure record.Ok (r : record) : Prop where
  ne_nil : r.rel_path ≠ []
  no_nul : 0 ∉ r.rel_path
  length : r.rel_path.length < 65536
  dir : r.is_dir ≠ 0 → r.fsize = 0 ∧ r.payload = []

theorem child_path_ok { rel_prefix : List UInt8} (h : 0 ∉ rel_prefix) (d_name : entry_name) :
    child_path rel_prefix d_name ≠ [] ∧ 0 ∉ child_path rel_prefix d_name
      ∧ (child_path rel_prefix d_name).length < 65536 := by
  have htake (l : List UInt8) (hne : l ≠ []) (hnul : 0 ∉ l) :
      l.take 2047 ≠ [] ∧ 0 ∉ l.take 2047 ∧ (l.take 2047).length < 65536 := by
    refine ⟨?_, fun hmem => hnul (List.mem_of_mem_take hmem), ?_⟩
    · rw [Ne, List.take_eq_nil_iff]
      rintro (hzero | hnil)
      · cases hzero
      · exact hne hnil
    · exact (List.length_take_le _ _).trans_lt (by decide)
  unfold child_path
  split_ifs
  · have hnul : 0 ∉ rel_prefix ++ slash :: d_name.bytes := by
      rw [List.mem_append, List.mem_cons, not_or, not_or]
      exact ⟨h, by decide, d_name.no_nul⟩
    exact htake _ (List.append_ne_nil_of_right_ne_nil _ (List.cons_ne_nil _ _)) hnul
  · exact htake _ d_name.ne_nil d_name.no_nul

mutual

theorem item_records_ok { rel_prefix : List UInt8} (h : 0 ∉ rel_prefix) :
    ∀ x : item, ∀ r ∈ item_records rel_prefix x, r.Ok
  | .gone _ => by
      rw [item_records]
      exact fun r hr => absurd hr List.not_mem_nil
  | .dir d_name st_mode entries => by
      obtain ⟨hne, hnul, hlen⟩ := child_path_ok h d_name
      rw [item_records]
      split_ifs
      · exact fun r hr => absurd hr List.not_mem_nil
      · rw [List.forall_mem_cons]
        exact ⟨⟨hne, hnul, hlen, fun _ => ⟨rfl, rfl⟩⟩, tree_records_ok hnul entries⟩
  | .other d_name st_mode st_size contents => by
      obtain ⟨hne, hnul, hlen⟩ := child_path_ok h d_name
      rw [item_records]
      split_ifs
      · exact fun r hr => absurd hr List.not_mem_nil
      · rw [List.forall_mem_singleton]
        exact ⟨hne, hnul, hlen, fun hdir => absurd rfl hdir⟩

theorem tree_records_ok { rel_prefix : List UInt8} (h : 0 ∉ rel_prefix) :
    ∀ entries : List item, ∀ r ∈ tree_records rel_prefix entries, r.Ok
  | [] => by
      rw [tree_records]
      exact fun r hr => absurd hr List.not_mem_nil
  | x :: entries => by
      rw [tree_records, List.forall_mem_append]
      exact ⟨item_records_ok h x, tree_records_ok h entries⟩

end

/-! ## Reading a record -/

/-- The loop over `file_rem` takes that much, or all there is. -/
theorem restore_loop_eq (n : ℕ) (tmp : List UInt8) :
    restore_loop n tmp = (tmp.take n, tmp.drop n) := by
  induction n using Nat.strong_induction_on generalizing tmp with
  | _ n ih =>
    have hnext : next_read n ≤ n := by
      unfold next_read
      split_ifs
      · omega
      · exact le_rfl
    have hlen : (tmp.take (next_read n)).length ≤ n := (List.length_take_le _ _).trans hnext
    rw [restore_loop]
    dsimp only
    split
    · rename_i hmore
      -- what one turn takes is a piece of the stream, and the rest is one read shorter
      have hchunk : tmp.take (next_read n) = tmp.take (tmp.take (next_read n)).length := by
        rw [List.length_take, List.take_eq_take_min]
      have hsum : (tmp.take (next_read n)).length + (n - (tmp.take (next_read n)).length) = n := by
        omega
      rw [ih _ (Nat.sub_lt hmore.1 hmore.2)]
      dsimp only
      rw [List.drop_drop, hsum]
      nth_rewrite 1 [hchunk]
      rw [← List.take_add, hsum]
    · rename_i hend
      rcases Nat.eq_zero_or_pos n with rfl | hpos
      · rfl
      · -- the stream is at its end
        have hread : 0 < next_read n := by
          unfold next_read
          split_ifs
          · exact (by decide : 0 < CHUNK_SZ)
          · exact hpos
        have hnil : tmp = [] := by
          by_contra hne
          refine hend ⟨hpos, ?_⟩
          rw [List.length_take]
          exact Nat.lt_min.mpr ⟨hread, List.length_pos_of_ne_nil hne⟩
        rw [hnil, List.take_nil, List.drop_nil]

variable {opens : ℕ → Bool} {turn : ℕ} {r : record} {rest : List UInt8}

/-- What the loop takes for the payload of a record. -/
def taken (opens : ℕ → Bool) (turn : ℕ) (r : record) : ℕ :=
  if r.is_dir = 0 ∧ opens turn then r.fsize.toNat else 0

theorem header_eq (r : record) :
    r.header = le_bytes 2 r.rel_path.length ++ (r.rel_path ++ ([r.is_dir]
      ++ (le_bytes 4 r.mode.toNat ++ le_bytes 8 r.fsize.toNat))) := by
  rw [record.header, header_writes]
  simp only [List.flatten_cons, List.flatten_nil, List.append_nil]

theorem header_path_len (h : r.Ok) : le_nat ((r.header ++ rest).take 2) = r.rel_path.length := by
  rw [header_eq, List.append_assoc, List.take_left' (le_bytes_length _ _)]
  exact le_nat_le_bytes (by exact h.length)

theorem header_path (r : record) (rest : List UInt8) :
    (r.header ++ rest).drop 2 = r.rel_path ++ ([r.is_dir]
      ++ (le_bytes 4 r.mode.toNat ++ (le_bytes 8 r.fsize.toNat ++ rest))) := by
  rw [header_eq, List.append_assoc, List.drop_left' (le_bytes_length _ _)]
  simp only [List.append_assoc]

/-- The fields behind the path. -/
theorem header_fields (r : record) {fields : List UInt8}
    (h : fields = [r.is_dir]
      ++ (le_bytes 4 r.mode.toNat ++ (le_bytes 8 r.fsize.toNat ++ rest))) :
    UInt8.ofNat (le_field fields 0 1) = r.is_dir ∧ UInt32.ofNat (le_field fields 1 4) = r.mode
      ∧ UInt64.ofNat (le_field fields 5 8) = r.fsize ∧ fields.drop 13 = rest := by
  have hone : [r.is_dir].length = 1 := rfl
  have hfour := le_bytes_length 4 r.mode.toNat
  have height := le_bytes_length 8 r.fsize.toNat
  subst h
  refine ⟨?_, ?_, ?_, ?_⟩
  · exact UInt8.ofNat_toNat
  · rw [le_field_skip hone le_rfl, Nat.sub_self, le_field_head r.mode.toNat_lt]
    exact UInt32.ofNat_toNat
  · rw [le_field_skip hone (by omega), le_field_skip hfour (by omega),
      le_field_head r.fsize.toNat_lt]
    exact UInt64.ofNat_toNat
  · have hsum : 13 = [r.is_dir].length + ((le_bytes 4 r.mode.toNat).length
        + (le_bytes 8 r.fsize.toNat).length) := by rw [hone, hfour, height]
    rw [hsum, ← List.drop_drop, List.drop_left, ← List.drop_drop, List.drop_left, List.drop_left]

theorem header_more (h : r.Ok) :
    ¬ ((r.header ++ rest).length = 0 ∨ le_nat ((r.header ++ rest).take 2) = 0) := by
  have hpath := List.length_pos_of_ne_nil h.ne_nil
  rw [header_path_len h, header_eq]
  simp only [List.length_append, le_bytes_length]
  omega

/-- A path that leaves `rel_path`. -/
theorem read_records_long (h : r.Ok) (hlong : 1024 ≤ r.rel_path.length) :
    read_records opens turn (r.header ++ rest) = none := by
  rw [read_records, dif_neg (header_more h), header_path_len h, if_pos (Or.inl hlong)]

theorem takeWhile_path (h : r.Ok) : r.rel_path.takeWhile (· ≠ 0) = r.rel_path := by
  rw [List.takeWhile_eq_self_iff]
  intro b hb
  rw [decide_eq_true_eq]
  rintro rfl
  exact h.no_nul hb

/-- A turn of the loop. -/
theorem read_records_header (h : r.Ok) (hlen : r.rel_path.length < 1024) :
    read_records opens turn (r.header ++ rest)
      = (read_records opens (turn + 1) (rest.drop (taken opens turn r))).map fun rs =>
        { r with payload := rest.take (taken opens turn r) } :: rs := by
  have hpath := header_path r rest
  have hinside : ¬ (1024 ≤ r.rel_path.length
      ∨ ((r.header ++ rest).drop 2).length < r.rel_path.length) := by
    rw [hpath, List.length_append]
    omega
  have hfields : ((r.header ++ rest).drop 2).drop r.rel_path.length = [r.is_dir]
      ++ (le_bytes 4 r.mode.toNat ++ (le_bytes 8 r.fsize.toNat ++ rest)) := by
    rw [hpath, List.drop_left]
  obtain ⟨hdir, hmode, hsize, hrest⟩ := header_fields r hfields
  have htaken : (if r.is_dir = 0 ∧ opens turn = true then restore_loop r.fsize.toNat rest
      else ([], rest)) = (rest.take (taken opens turn r), rest.drop (taken opens turn r)) := by
    unfold taken
    split_ifs
    · exact restore_loop_eq _ _
    · rfl
  rw [read_records, dif_neg (header_more h), header_path_len h, if_neg hinside]
  dsimp only
  rw [hdir, hmode, hsize, hrest, htaken, hpath, List.take_left, takeWhile_path h]

/-! ## The round trip -/

/-- The path fits `rel_path`, the reads of a file gave as much as `lstat` announced, and what they
gave can be restored. -/
def InStep (opens : ℕ → Bool) (turn : ℕ) (r : record) : Prop :=
  r.rel_path.length < 1024 ∧ r.payload.length = r.fsize.toNat
    ∧ (r.is_dir = 0 → opens turn = true ∨ r.payload = [])

def AllInStep (opens : ℕ → Bool) : ℕ → List record → Prop
  | _, [] => True
  | turn, r :: rs => InStep opens turn r ∧ AllInStep opens (turn + 1) rs

theorem InStep.taken_eq (h : InStep opens turn r) (hok : r.Ok) :
    taken opens turn r = r.payload.length := by
  obtain ⟨-, hsize, hopens⟩ := h
  unfold taken
  split_ifs with htakes
  · exact hsize.symm
  · by_cases hdir : r.is_dir = 0
    · rcases hopens hdir with hopen | hempty
      · exact absurd ⟨hdir, hopen⟩ htakes
      · rw [hempty]
        rfl
    · rw [(hok.dir hdir).2]
      rfl

theorem read_records_bytes (h : r.Ok) (hlen : r.rel_path.length < 1024) (rest : List UInt8) :
    read_records opens turn (r.bytes ++ rest)
      = (read_records opens (turn + 1)
          ((r.payload ++ rest).drop (taken opens turn r))).map fun rs =>
        { r with payload := (r.payload ++ rest).take (taken opens turn r) } :: rs := by
  rw [record.bytes, List.append_assoc]
  exact read_records_header h hlen

/-- In step, a turn reads one record. -/
theorem read_records_in_step (h : r.Ok) (hstep : InStep opens turn r) (rest : List UInt8) :
    read_records opens turn (r.bytes ++ rest)
      = (read_records opens (turn + 1) rest).map fun rs => r :: rs := by
  rw [read_records_bytes h hstep.1, hstep.taken_eq h, List.drop_left, List.take_left]

/-- Out of step, the record that is read is another one. -/
theorem in_step_of_read (h : r.Ok) (hsize : r.payload.length = r.fsize.toNat) {rs : List record}
    (hread : read_records opens turn (r.bytes ++ rest) = some (r :: rs)) : InStep opens turn r := by
  rcases Nat.lt_or_ge r.rel_path.length 1024 with hlen | hlong
  · refine ⟨hlen, hsize, fun hdir => ?_⟩
    by_contra hnot
    rw [not_or] at hnot
    rw [read_records_bytes h hlen] at hread
    obtain ⟨rs', -, heq⟩ := Option.map_eq_some_iff.mp hread
    have hpayload := congrArg record.payload (List.cons.inj heq).1
    have hzero : taken opens turn r = 0 := if_neg fun htakes => hnot.1 htakes.2
    rw [hzero] at hpayload
    exact hnot.2 hpayload.symm
  · rw [record.bytes, List.append_assoc, read_records_long h hlong] at hread
    cases hread

theorem read_records_iff (rs : List record) (hok : ∀ r ∈ rs, r.Ok) (turn : ℕ) :
    (read_records opens turn (rs.flatMap record.bytes ++ le_bytes 2 0) = some rs
        ∧ ∀ r ∈ rs, r.payload.length = r.fsize.toNat)
      ↔ AllInStep opens turn rs := by
  induction rs generalizing turn with
  | nil =>
      refine ⟨fun _ => trivial, fun _ => ⟨?_, fun r hr => absurd hr List.not_mem_nil⟩⟩
      rw [read_records]
      rfl
  | cons r rs ih =>
      rw [List.forall_mem_cons] at hok
      rw [List.flatMap_cons, List.append_assoc, List.forall_mem_cons, AllInStep,
        ← ih hok.2 (turn + 1)]
      constructor
      · rintro ⟨hread, hsize, hsizes⟩
        have hstep := in_step_of_read hok.1 hsize hread
        rw [read_records_in_step hok.1 hstep] at hread
        obtain ⟨rs', hrest, heq⟩ := Option.map_eq_some_iff.mp hread
        rw [(List.cons.inj heq).2] at hrest
        exact ⟨hstep, hrest, hsizes⟩
      · rintro ⟨hstep, hrest, hsizes⟩
        rw [read_records_in_step hok.1 hstep, hrest]
        exact ⟨rfl, hstep.2.1, hsizes⟩

/-- The record loop reads the records of the tree, and each has the payload that its header
announces. -/
def RoundTrips (opens : ℕ → Bool) (entries : List item) : Prop :=
  read_records opens 0 (packed entries) = some (tree_records [] entries)
    ∧ ∀ r ∈ tree_records [] entries, r.payload.length = r.fsize.toNat

/-- **The round trip.** The stream behind the type of a directory vault is read back exactly when
every record of the tree is in step. -/
theorem records_round_trip_iff (opens : ℕ → Bool) (entries : List item) :
    (payload_writes (.dir entries)).map List.flatten = some (VAULT_TYPE_DIR :: packed entries)
      ∧ (RoundTrips opens entries ↔ AllInStep opens 0 (tree_records [] entries)) := by
  constructor
  · rw [payload_writes, packed]
    simp only [Option.map_some, List.cons_append, List.flatten_cons, List.nil_append]
  · have hnil : (0 : UInt8) ∉ ([] : List UInt8) := List.not_mem_nil
    have hstream : packed entries
        = (tree_records [] entries).flatMap record.bytes ++ le_bytes 2 0 := by
      rw [packed, List.flatten_append, pack_flatten, List.flatten_singleton]
    rw [RoundTrips, hstream]
    exact read_records_iff _ (tree_records_ok hnil entries) 0

/-! ## A link -/

/-- A link named `l` to a file of three bytes, whose own target is one byte long. -/
def link_tree : List item :=
  [.other ⟨literal "l", by decide, by decide⟩ 0o120777 1 (some [1, 2, 3])]

/-- The header announces one byte. The other two are taken for the length of a path that is not
there. -/
theorem link_out_of_step :
    tree_records [] link_tree = [⟨literal "l", 0, 0o120777, 1, [1, 2, 3]⟩]
      ∧ read_records (fun _ => true) 0 (packed link_tree) = none
      ∧ ¬ RoundTrips (fun _ => true) link_tree := by
  have hrecords : tree_records [] link_tree = [⟨literal "l", 0, 0o120777, 1, [1, 2, 3]⟩] := by
    decide
  have hnil : (0 : UInt8) ∉ ([] : List UInt8) := List.not_mem_nil
  have hok := tree_records_ok hnil link_tree
  rw [hrecords, List.forall_mem_singleton] at hok
  have hread : read_records (fun _ => true) 0 (packed link_tree) = none := by
    rw [packed, List.flatten_append, pack_flatten, hrecords, List.flatMap_singleton,
      read_records_bytes hok (by decide)]
    show (read_records (fun _ => true) 1 [2, 3, 0, 0]).map _ = none
    rw [read_records, dif_neg (by decide), if_pos (by decide)]
    rfl
  refine ⟨hrecords, hread, ?_⟩
  rintro ⟨hsome, -⟩
  rw [hread] at hsome
  cases hsome

end SysInC.Krypt
