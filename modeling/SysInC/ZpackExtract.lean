/-
Where `extract_archive` writes.

No check stands between a stored path and the calls that create it, so an extraction stays in
its directory exactly when the stored paths do (`extract_confined_iff`): the path of every
record, and for a file also what stands before its slashes, must not climb out.
-/
import SysInC.LexicalPath
import SysInC.ZpackArchive

set_option autoImplicit false

namespace SysInC.Zpack

open LexicalPath

/-- The destination as `main` passes it: a text in `char out_path[512]`, `.` where none is given. -/
structure DestDir where
  path : List UInt8
  ne_nil : path ≠ []
  length_le : path.length ≤ 511

/-! ## The claim -/

/-- A directory on the way to the destination. -/
def LeadsTo (dest_dir p : List UInt8) : Prop := ∃ rest, dest_dir = p ++ slash :: rest

/-- The call is for a path in the destination. To make the directories that lead there counts as
no escape. -/
def Confined (dest_dir : List UInt8) : effect → Prop
  | .mkdir path _ => Inside slash dot dest_dir path ∨ LeadsTo dest_dir path
  | .create path _ _ => Inside slash dot dest_dir path

/-- The extraction leaves no buffer, and creates nothing outside of the destination. -/
def ExtractsInside (malloc : ℕ → Bool) (uninit : List UInt8 → ℕ → UInt8) (dest : DestDir)
    (archive : List UInt8) : Prop :=
  ∃ effects, extract_archive malloc uninit archive dest.path = some effects
    ∧ ∀ e ∈ effects, Confined dest.path e

/-! ## The condition -/

/-- What of its stored path a record creates: the path, and for a file what stands before a
slash, where `char temp[1024]` holds that much of the joined path. -/
inductive Stored (dest_dir : List UInt8) : extract_record → List UInt8 → Prop where
  | dir (rel_path : List UInt8) (mode : ℕ) : Stored dest_dir (.dir rel_path mode) rel_path
  | file (rel_path : List UInt8) (mode : ℕ) (orig_buf : List UInt8) (crc_ok : Bool) :
      Stored dest_dir (.file rel_path mode orig_buf crc_ok) rel_path
  | file_parent (q rest : List UInt8) (mode : ℕ) (orig_buf : List UInt8) (crc_ok : Bool)
      (h : (full_dest dest_dir q).length < 1023) :
      Stored dest_dir (.file (q ++ slash :: rest) mode orig_buf crc_ok) q
  | refused_parent (q rest : List UInt8) (h : (full_dest dest_dir q).length < 1023) :
      Stored dest_dir (.refused (q ++ slash :: rest)) q

/-- The stored path does not leave the destination: it climbs no level, or comes back through the
destination's own last components; and it does not begin at the root where it is not joined. -/
def Harmless (dest_dir q : List UInt8) : Prop :=
  Lands slash dot dest_dir q ∧ (dest_dir = [dot] → is_rooted slash q = false)

/-! ## Stored paths and created paths -/

/-- The stored path of a record. -/
def extract_record.rel_path : extract_record → List UInt8
  | .dir rel_path _ => rel_path
  | .file rel_path _ _ _ => rel_path
  | .refused rel_path => rel_path

theorem fill_length {uninit : ℕ → UInt8} {n : ℕ} {got : List UInt8} (h : got.length ≤ n) :
    (fill uninit n got).length = n := by
  simp only [fill, List.length_append, List.length_map, List.length_range']
  omega

theorem rel_path_length {malloc : ℕ → Bool} {uninit : List UInt8 → ℕ → UInt8} {is_v2 : Bool}
    {stream rest : List UInt8} {r : extract_record}
    (h : read_record malloc uninit is_v2 stream = some (r, rest)) : r.rel_path.length ≤ 1023 := by
  have hpath : ∀ (u : ℕ → UInt8) (n : ℕ) (s : List UInt8), ¬1024 ≤ n →
      (c_string (fill u n (s.take n))).length ≤ 1023 := by
    intro u n s hn
    have hprefix := (List.takeWhile_prefix (l := fill u n (s.take n)) (· ≠ 0)).length_le
    rw [fill_length (List.length_take_le n s)] at hprefix
    unfold c_string
    omega
  simp only [read_record] at h
  split_ifs at h with hlong
  all_goals
    simp only [Option.some.injEq, Option.map_eq_some_iff, Prod.mk.injEq] at h
  on_goal 2 => obtain ⟨orig_buf, -, h⟩ := h
  all_goals
    rw [← h.1]
    exact hpath _ _ _ hlong

theorem full_dest_eq (dest : DestDir) {q : List UInt8} (h : q.length ≤ 1023) :
    full_dest dest.path q
      = if dest.path = [dot] then q else dest.path ++ slash :: q := by
  have hdest := dest.length_le
  unfold full_dest snprintf
  split_ifs
  · exact List.take_of_length_le (by omega)
  · refine List.take_of_length_le ?_
    rw [List.length_append, List.length_cons]
    omega

theorem inside_full_dest_iff (dest : DestDir) {q : List UInt8} (h : q.length ≤ 1023) :
    Inside slash dot dest.path (full_dest dest.path q) ↔ Harmless dest.path q := by
  rw [full_dest_eq dest h, Harmless]
  split_ifs with hhere
  · rw [hhere, inside_here_iff (by decide)]
    simp [and_comm]
  · rw [inside_join_iff dest.ne_nil]
    simp [hhere]

theorem mem_parents {passed rest q : List UInt8} :
    q ∈ parents passed rest ↔ ∃ pre post, rest = pre ++ slash :: post ∧ q = passed ++ pre := by
  induction rest generalizing passed with
  | nil => simp [parents]
  | cons c rest ih =>
      have htail : q ∈ parents (passed ++ [c]) rest
          ↔ ∃ pre post, c :: rest = (c :: pre) ++ slash :: post ∧ q = passed ++ c :: pre := by
        rw [ih]
        simp
      have hhead : (∃ pre post, c :: rest = pre ++ slash :: post ∧ q = passed ++ pre)
          ↔ (c = slash ∧ q = passed)
            ∨ ∃ pre post, c :: rest = (c :: pre) ++ slash :: post ∧ q = passed ++ c :: pre := by
        constructor
        · rintro ⟨pre, post, heq, hq⟩
          match pre with
          | [] => exact Or.inl ⟨(List.cons.inj heq).1, by simpa using hq⟩
          | d :: pre =>
            obtain ⟨rfl, -⟩ := List.cons.inj heq
            exact Or.inr ⟨pre, post, heq, hq⟩
        · rintro (⟨rfl, rfl⟩ | ⟨pre, post, heq, hq⟩)
          · exact ⟨[], rest, rfl, (List.append_nil q).symm⟩
          · exact ⟨c :: pre, post, heq, hq⟩
      rw [hhead, ← htail, parents]
      split_ifs with hc
      · rw [List.mem_cons, hc]
        simp
      · simp [hc]

theorem mem_make_parent_dirs {filepath : List UInt8} {e : effect} :
    e ∈ make_parent_dirs filepath
      ↔ ∃ p post, e = .mkdir p 0o755 ∧ filepath = p ++ slash :: post ∧ p ≠ [] ∧ p.length < 1023 := by
  simp only [make_parent_dirs, List.mem_map, mem_parents]
  -- the copy in `temp` is cut off at 1023 bytes, the path is not
  constructor
  · rintro ⟨q, ⟨pre, post, hrest, rfl⟩, rfl⟩
    set temp := filepath.take 1023 with htemp
    have hsplit : temp = (temp.take 1 ++ pre) ++ slash :: post := by
      rw [List.append_assoc, ← hrest, List.take_append_drop]
    have hlen : temp.length ≤ 1023 := List.length_take_le _ _
    refine ⟨_, post ++ filepath.drop 1023, rfl, ?_, ?_, ?_⟩
    · rw [← List.cons_append, ← List.append_assoc, ← hsplit, htemp, List.take_append_drop]
    · intro hnil
      have htake : temp.take 1 = [] := (List.append_eq_nil_iff.mp hnil).1
      have hzero : temp = [] := by simpa using htake
      rw [hzero] at hrest
      simp at hrest
    · have hsum := congrArg List.length hsplit
      rw [List.length_append, List.length_cons] at hsum
      omega
  · rintro ⟨p, post, rfl, rfl, hne, hlen⟩
    obtain ⟨c, p, rfl⟩ := List.exists_cons_of_ne_nil hne
    have htake : ((c :: p) ++ slash :: post).take 1023
        = c :: (p ++ slash :: post.take (1022 - (p.length + 1))) := by
      rw [List.length_cons] at hlen
      rw [List.cons_append, List.take_succ_cons, List.take_append,
        List.take_of_length_le (by omega), show 1022 - p.length = 1022 - (p.length + 1) + 1 by omega,
        List.take_succ_cons]
    rw [htake]
    exact ⟨c :: p, ⟨p, _, rfl, rfl⟩, rfl⟩

theorem not_leads_to_full_dest (dest : DestDir) {q : List UInt8} (h : q.length ≤ 1023) :
    ¬LeadsTo dest.path (full_dest dest.path q) := by
  rintro ⟨rest, heq⟩
  rw [full_dest_eq dest h] at heq
  split_ifs at heq with hhere
  · rw [hhere] at heq
    match q with
    | [] => exact absurd (List.cons.inj heq).1 (by decide)
    | _ :: _ => simp at heq
  · have hlen := congrArg List.length heq
    simp only [List.length_append, List.length_cons] at hlen
    omega

theorem confined_full_dest_iff (dest : DestDir) {q : List UInt8} (h : q.length ≤ 1023) (mode : ℕ) :
    Confined dest.path (.mkdir (full_dest dest.path q) mode) ↔ Harmless dest.path q := by
  rw [← inside_full_dest_iff dest h]
  exact or_iff_left (not_leads_to_full_dest dest h)

theorem harmless_nil (dest : DestDir) : Harmless dest.path [] :=
  ⟨Or.inl (by simp [climb, climb_step]), fun _ => rfl⟩

/-- The directories made for a file. -/
theorem parents_confined_iff (dest : DestDir) {rel_path : List UInt8} (h : rel_path.length ≤ 1023) :
    (∀ e ∈ make_parent_dirs (full_dest dest.path rel_path), Confined dest.path e)
      ↔ ∀ q rest, rel_path = q ++ slash :: rest → (full_dest dest.path q).length < 1023 →
          Harmless dest.path q := by
  constructor
  · rintro hall q rest rfl hlen
    have hq : q.length ≤ 1023 := by
      rw [List.length_append] at h
      omega
    by_cases hnil : q = []
    · rw [hnil]
      exact harmless_nil dest
    · rw [← confined_full_dest_iff dest hq 0o755]
      apply hall
      rw [mem_make_parent_dirs]
      refine ⟨_, rest, rfl, ?_, ?_, hlen⟩
      · rw [full_dest_eq dest h, full_dest_eq dest hq]
        split_ifs
        · rfl
        · rw [List.append_assoc, List.cons_append]
      · rw [full_dest_eq dest hq]
        split_ifs
        · exact hnil
        · simp
  · intro hall e he
    obtain ⟨p, post, rfl, hfull, hne, hlen⟩ := mem_make_parent_dirs.mp he
    have hpart : ∀ q, p = full_dest dest.path q → rel_path = q ++ slash :: post →
        Confined dest.path (.mkdir p 0o755) := by
      rintro q rfl hrel
      have hq : q.length ≤ 1023 := by
        rw [hrel, List.length_append] at h
        omega
      rw [confined_full_dest_iff dest hq]
      exact hall q post hrel hlen
    rw [full_dest_eq dest h] at hfull
    by_cases hhere : dest.path = [dot]
    · rw [if_pos hhere] at hfull
      have hp : p.length ≤ 1023 := hlen.le
      exact hpart p (by rw [full_dest_eq dest hp, if_pos hhere]) hfull
    · rw [if_neg hhere] at hfull
      -- the slash is behind the destination, or in it
      rcases List.append_eq_append_iff.mp hfull with ⟨as, rfl, hrest⟩ | ⟨bs, hdest, hrest⟩
      · match as with
        | [] =>
          rw [List.append_nil]
          exact Or.inl (Inside.refl dest.path)
        | a :: q =>
          have hrel : rel_path = q ++ slash :: post := (List.cons.inj hrest).2
          have hq : q.length ≤ 1023 := by
            rw [hrel, List.length_append] at h
            omega
          obtain rfl : slash = a := (List.cons.inj hrest).1
          exact hpart q (by rw [full_dest_eq dest hq, if_neg hhere]) hrel
      · match bs with
        | [] =>
          rw [List.append_nil] at hdest
          rw [← hdest]
          exact Or.inl (Inside.refl dest.path)
        | b :: bs =>
          obtain ⟨rfl, -⟩ := List.cons.inj hrest
          exact Or.inr ⟨bs, hdest⟩

theorem restore_confined_iff (dest : DestDir) {r : extract_record}
    (h : r.rel_path.length ≤ 1023) :
    (∀ e ∈ restore dest.path r, Confined dest.path e)
      ↔ ∀ q, Stored dest.path r q → Harmless dest.path q := by
  cases r with
  | dir rel_path mode =>
      rw [extract_record.rel_path] at h
      rw [restore, List.forall_mem_singleton, confined_full_dest_iff dest h]
      constructor
      · rintro hrel q ⟨⟩
        exact hrel
      · intro hall
        exact hall rel_path (.dir rel_path mode)
  | file rel_path mode orig_buf crc_ok =>
      rw [extract_record.rel_path] at h
      rw [restore, List.forall_mem_append, List.forall_mem_singleton, parents_confined_iff dest h,
        Confined, inside_full_dest_iff dest h]
      constructor
      · rintro ⟨hparents, hrel⟩ q hq
        cases hq with
        | file => exact hrel
        | file_parent _ rest _ _ _ hlen => exact hparents q rest rfl hlen
      · intro hall
        refine ⟨?_, hall rel_path (.file rel_path mode orig_buf crc_ok)⟩
        rintro q rest rfl hlen
        exact hall q (.file_parent q rest mode orig_buf crc_ok hlen)
  | refused rel_path =>
      rw [extract_record.rel_path] at h
      rw [restore, parents_confined_iff dest h]
      constructor
      · rintro hparents q hq
        cases hq with
        | refused_parent _ rest hlen => exact hparents q rest rfl hlen
      · rintro hall q rest rfl hlen
        exact hall q (.refused_parent q rest hlen)

theorem read_records_length {malloc : ℕ → Bool} {uninit : List UInt8 → ℕ → UInt8} {is_v2 : Bool}
    {stream : List UInt8} {rs : List extract_record}
    (h : read_records malloc uninit is_v2 stream = some rs) :
    ∀ r ∈ rs, r.rel_path.length ≤ 1023 := by
  fun_induction read_records malloc uninit is_v2 stream generalizing rs with
  | case1 stream hlen hr => simp at h
  | case2 stream hlen r rest hr ih =>
      obtain ⟨rs', hrest, rfl⟩ := Option.map_eq_some_iff.mp h
      intro r' hmem
      rcases List.mem_cons.mp hmem with rfl | hmem
      · exact rel_path_length hr
      · exact ih hrest r' hmem
  | case3 stream hlen =>
      obtain rfl := Option.some.inj h
      simp

theorem archive_records_length {malloc : ℕ → Bool} {uninit : List UInt8 → ℕ → UInt8}
    {archive : List UInt8} {rs : List extract_record}
    (h : archive_records malloc uninit archive = some rs) :
    ∀ r ∈ rs, r.rel_path.length ≤ 1023 := by
  unfold archive_records at h
  split_ifs at h
  · exact read_records_length h
  · obtain rfl := Option.some.inj h
    simp

/-- **Confinement.** An extraction stays in its destination exactly when no path in the archive
overruns its buffer and every stored path is harmless. -/
theorem extract_confined_iff (malloc : ℕ → Bool) (uninit : List UInt8 → ℕ → UInt8)
    (dest : DestDir) (archive : List UInt8) :
    ExtractsInside malloc uninit dest archive
      ↔ ∃ rs, archive_records malloc uninit archive = some rs
          ∧ ∀ r ∈ rs, ∀ q, Stored dest.path r q → Harmless dest.path q := by
  unfold ExtractsInside extract_archive
  by_cases hopens : archive_opens archive
  · rw [if_pos hopens]
    constructor
    · rintro ⟨effects, heq, hall⟩
      obtain ⟨rs, hrs, rfl⟩ := Option.map_eq_some_iff.mp heq
      refine ⟨rs, hrs, fun r hr => ?_⟩
      rw [← restore_confined_iff dest (archive_records_length hrs r hr)]
      exact fun e he => hall e (List.mem_cons_of_mem _ (List.mem_flatMap.mpr ⟨r, hr, he⟩))
    · rintro ⟨rs, hrs, hall⟩
      refine ⟨_, by rw [hrs]; rfl, fun e he => ?_⟩
      rcases List.mem_cons.mp he with rfl | he
      · exact Or.inl (Inside.refl dest.path)
      · obtain ⟨r, hr, he⟩ := List.mem_flatMap.mp he
        exact (restore_confined_iff dest (archive_records_length hrs r hr)).mpr (hall r hr) e he
  · rw [if_neg hopens]
    have hnone : archive_records malloc uninit archive = some [] := if_neg hopens
    simp [hnone]

/-! ## An escape -/

/-- An archive with the directory `../x`. -/
def escaping_archive : List UInt8 :=
  (archive_header ⟨1, 0, 0⟩).bytes ++ pack_dir [dot, dot, slash, 120] 0o040755

theorem escaping_archive_opens : archive_opens escaping_archive := by decide

theorem escaping_archive_records :
    archive_records (fun _ => true) (fun _ _ => 0) escaping_archive
      = some [.dir [dot, dot, slash, 120] 0o040755] := by
  have hrecord : read_record (fun _ => true) (fun _ _ => 0)
      (escaping_archive.take 8 = ZPACK_MAGIC_V2) (escaping_archive.drop 32)
      = some (.dir [dot, dot, slash, 120] 0o040755, []) := rfl
  have hlong : entry_header_size ≤ (escaping_archive.drop 32).length := by decide
  have hend : ¬entry_header_size ≤ ([] : List UInt8).length := by decide
  rw [archive_records, if_pos escaping_archive_opens, read_records, dif_pos hlong]
  split
  · rename_i hnone
    rw [hrecord] at hnone
    cases hnone
  · rename_i r rest hsome
    rw [hrecord] at hsome
    cases hsome
    rw [read_records, dif_neg hend]
    rfl

/-- The destination `out`. -/
def out_dir : DestDir := ⟨[111, 117, 116], by decide, by decide⟩

/-- `out/../x` is made for `-o out`. -/
theorem extract_escapes :
    ¬∀ (malloc : ℕ → Bool) (uninit : List UInt8 → ℕ → UInt8) (dest : DestDir)
      (archive : List UInt8), ExtractsInside malloc uninit dest archive := by
  intro h
  obtain ⟨effects, heq, hall⟩ := h (fun _ => true) (fun _ _ => 0) out_dir escaping_archive
  rw [extract_archive, if_pos escaping_archive_opens, escaping_archive_records, Option.map_some,
    Option.some.injEq] at heq
  have hmade : .mkdir (full_dest out_dir.path [dot, dot, slash, 120]) 0o040755 ∈ effects := by
    rw [← heq]
    exact List.mem_cons_of_mem _ (List.mem_singleton.mpr rfl)
  have hlands := ((confined_full_dest_iff out_dir (by decide) _).mp (hall _ hmade)).1
  have hclimb : climb slash dot [dot, dot, slash, 120] = (1, [[120]]) := by decide
  have hout : normal slash dot out_dir.path = [[111, 117, 116]] := by decide
  rw [Lands, hclimb, hout] at hlands
  exact absurd hlands (by decide)

end SysInC.Zpack
