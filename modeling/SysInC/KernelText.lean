/-
Texts of the kernel: the functions of `freestanding/kstring.c` that the file systems use, and
`sanitize_path` of `freestanding/kvfs.c`.

A C string is the list of its bytes without the NUL. `kstrcmp` gives 0 exactly on equal
strings, and stands as equality.
-/
import Mathlib.Data.List.Chain
import Mathlib.Data.List.DropRight

set_option autoImplicit false

namespace SysInC.Kvfs

def slash : UInt8 := 47

/-- The bytes of a string literal. -/
def literal (s : String) : List UInt8 := s.toList.map fun c => UInt8.ofNat c.toNat

/-- What `kstrncpy(dest, src, n)` leaves in a `dest` whose byte `n` is NUL. -/
def kstrncpy (src : List UInt8) (n : ℕ) : List UInt8 := src.take n

/-! ## `sanitize_path` -/

/-- The `for` loop, over what is left of `in`; `out` is what was written so far. -/
def copy_path (max_len : ℕ) : List UInt8 → List UInt8 → List UInt8
  | [], out => out
  | c :: rest, out =>
    if out.length < max_len - 1 then
      if c = slash ∧ out.getLast? = some slash then copy_path max_len rest out
      else copy_path max_len rest (out ++ [c])
    else out

/-- `while (j > 1 && out[j - 1] == '/') j--;` -/
def drop_slashes : List UInt8 → List UInt8
  | [] => []
  | c :: rest => c :: rest.rdropWhile (· == slash)

def sanitize_path (path : Option (List UInt8)) (max_len : ℕ) : List UInt8 :=
  match path with
  | none | some [] => [slash]
  | some (c :: rest) =>
    drop_slashes (copy_path max_len (c :: rest) (if c = slash then [] else [slash]))

/-! ## Clean paths -/

/-- Two bytes that are not both slashes. -/
def no_double (a b : UInt8) : Prop := ¬ (a = slash ∧ b = slash)

/-- What `sanitize_path` leaves: an absolute path in a buffer of `max_len` bytes, without
empty components. -/
structure Clean (max_len : ℕ) (p : List UInt8) : Prop where
  head : p.head? = some slash
  chain : p.IsChain no_double
  last : p = [slash] ∨ p.getLast? ≠ some slash
  length : p.length ≤ max_len - 1

variable {max_len : ℕ}

theorem clean_root (h : 2 ≤ max_len) : Clean max_len [slash] :=
  ⟨rfl, List.isChain_singleton _, .inl rfl, by rw [List.length_singleton]; omega⟩

theorem isChain_concat {out : List UInt8} {c : UInt8} (h : out.IsChain no_double)
    (hc : ¬ (c = slash ∧ out.getLast? = some slash)) : (out ++ [c]).IsChain no_double := by
  rw [List.isChain_append]
  refine ⟨h, List.isChain_singleton c, ?_⟩
  rintro x hx y hy ⟨rfl, rfl⟩
  rw [List.head?_cons, Option.mem_some_iff] at hy
  exact hc ⟨hy, hx⟩

/-- The loop's invariant. -/
theorem copy_path_shape (rest out : List UInt8) (h : out.IsChain no_double)
    (hlen : out.length ≤ max_len - 1) :
    out <+: copy_path max_len rest out ∧ (copy_path max_len rest out).IsChain no_double
      ∧ (copy_path max_len rest out).length ≤ max_len - 1 := by
  induction rest generalizing out with
  | nil => exact ⟨List.prefix_rfl, h, hlen⟩
  | cons c rest ih =>
      rw [copy_path]
      split_ifs with hroom hskip
      · exact ih out h hlen
      · obtain ⟨hpre, hrest⟩ := ih (out ++ [c]) (isChain_concat h hskip)
          (by rw [List.length_append, List.length_singleton]; omega)
        exact ⟨(List.prefix_append _ _).trans hpre, hrest⟩
      · exact ⟨List.prefix_rfl, h, hlen⟩

/-- A text with room and without double slashes is copied whole. -/
theorem copy_path_of_chain (rest out : List UInt8) (h : (out ++ rest).IsChain no_double)
    (hlen : (out ++ rest).length ≤ max_len - 1) : copy_path max_len rest out = out ++ rest := by
  induction rest generalizing out with
  | nil => rw [copy_path, List.append_nil]
  | cons c rest ih =>
      have hroom : out.length < max_len - 1 := by
        rw [List.length_append, List.length_cons] at hlen
        omega
      have hskip : ¬ (c = slash ∧ out.getLast? = some slash) := by
        rintro ⟨rfl, hlast⟩
        exact (List.isChain_append.mp h).2.2 slash hlast slash rfl ⟨rfl, rfl⟩
      rw [List.append_cons] at h hlen ⊢
      rw [copy_path, if_pos hroom, if_neg hskip]
      exact ih (out ++ [c]) h hlen

theorem drop_slashes_prefix (p : List UInt8) : drop_slashes p <+: p := by
  cases p with
  | nil => exact List.prefix_rfl
  | cons c rest => exact (List.prefix_cons_inj c).mpr (List.rdropWhile_prefix _ rest)

theorem drop_slashes_clean {p : List UInt8} (hhead : p.head? = some slash)
    (hchain : p.IsChain no_double) (hlen : p.length ≤ max_len - 1) :
    Clean max_len (drop_slashes p) := by
  have hpre := drop_slashes_prefix p
  obtain ⟨rest, rfl⟩ := List.head?_eq_some_iff.mp hhead
  refine ⟨rfl, hchain.prefix hpre, ?_, hpre.length_le.trans hlen⟩
  rw [drop_slashes]
  by_cases hrest : rest.rdropWhile (· == slash) = []
  · exact .inl (by rw [hrest])
  · right
    have hlast := List.rdropWhile_last_not _ rest hrest
    rw [List.getLast?_cons_of_ne_nil hrest, List.getLast?_eq_some_getLast hrest, Ne,
      Option.some_inj]
    simpa using hlast

theorem drop_slashes_of_clean {p : List UInt8} (h : Clean max_len p) : drop_slashes p = p := by
  obtain ⟨rest, rfl⟩ := List.head?_eq_some_iff.mp h.head
  rw [drop_slashes, List.cons_inj_right, List.rdropWhile_eq_self_iff]
  intro hrest
  rcases h.last with hroot | hlast
  · exact absurd (List.cons.inj hroot).2 hrest
  · rw [List.getLast?_cons_of_ne_nil hrest, List.getLast?_eq_some_getLast hrest, Ne,
      Option.some_inj] at hlast
    simpa using hlast

theorem sanitize_path_clean (path : Option (List UInt8)) (h : 2 ≤ max_len) :
    Clean max_len (sanitize_path path max_len) := by
  unfold sanitize_path
  split
  · exact clean_root h
  · exact clean_root h
  · rename_i c rest
    have hroot : [slash].length ≤ max_len - 1 := by rw [List.length_singleton]; omega
    have hstart : copy_path max_len (c :: rest) (if c = slash then [] else [slash])
        = copy_path max_len (if c = slash then rest else c :: rest) [slash] := by
      split_ifs with hc
      · rw [copy_path, if_pos (by rw [List.length_nil]; omega), if_neg (by simp), hc,
          List.nil_append]
      · rfl
    rw [hstart]
    obtain ⟨hpre, hchain, hlen⟩ :=
      copy_path_shape (if c = slash then rest else c :: rest) [slash]
        (List.isChain_singleton _) hroot
    refine drop_slashes_clean ?_ hchain hlen
    obtain ⟨t, ht⟩ := hpre
    rw [← ht, List.singleton_append, List.head?_cons]

/-- A clean path is its own spelling. -/
theorem sanitize_path_of_clean {p : List UInt8} (h : Clean max_len p) :
    sanitize_path (some p) max_len = p := by
  obtain ⟨rest, rfl⟩ := List.head?_eq_some_iff.mp h.head
  rw [sanitize_path, if_pos rfl, copy_path_of_chain _ _ h.chain h.length, List.nil_append,
    drop_slashes_of_clean h]

theorem kstrncpy_of_clean {p : List UInt8} (h : Clean max_len p) :
    kstrncpy p (max_len - 1) = p := List.take_of_length_le h.length

/-! ## Normal forms, without a bound on their length -/

/-- The names between the slashes. -/
def components (p : List UInt8) : List (List UInt8) :=
  (p.splitOn slash).filter (· ≠ [])

/-- Each name behind a slash. -/
def rooted (names : List (List UInt8)) : List UInt8 := names.flatMap (slash :: ·)

/-- The path with a slash in front, single slashes and none at the end. -/
def normal_form (p : List UInt8) : List UInt8 :=
  if components p = [] then [slash] else rooted (components p)

/-- What a name buffer of `max_len` bytes keeps of a normal form. -/
def cut (max_len : ℕ) (p : List UInt8) : List UInt8 := drop_slashes (p.take (max_len - 1))

/-- The text without the slashes that follow a slash. -/
def squeeze : Bool → List UInt8 → List UInt8
  | _, [] => []
  | after_slash, c :: rest =>
    if c = slash ∧ after_slash then squeeze true rest else c :: squeeze (c = slash) rest

/-- The loop writes the squeezed text as far as there is room. -/
theorem copy_path_eq (rest out : List UInt8) (hlen : out.length ≤ max_len - 1) :
    copy_path max_len rest out
      = (out ++ squeeze (out.getLast? = some slash) rest).take (max_len - 1) := by
  induction rest generalizing out with
  | nil => rw [copy_path, squeeze, List.append_nil, List.take_of_length_le hlen]
  | cons c rest ih =>
      rw [copy_path, squeeze]
      by_cases hroom : out.length < max_len - 1
      · rw [if_pos hroom]
        by_cases hskip : c = slash ∧ out.getLast? = some slash
        · rw [if_pos hskip, if_pos (by simpa using hskip), ih out hlen, decide_eq_true hskip.2]
        · have hroom' : (out ++ [c]).length ≤ max_len - 1 := by
            rw [List.length_append, List.length_singleton]
            omega
          rw [if_neg hskip, if_neg (by simpa using hskip), ih (out ++ [c]) hroom',
            List.getLast?_concat, ← List.append_cons]
          simp only [Option.some.injEq]
      · rw [if_neg hroom, List.take_append_of_le_length (by omega),
          List.take_of_length_le hlen]

theorem sanitize_path_eq (p : List UInt8) (h : 2 ≤ max_len) :
    sanitize_path (some p) max_len
      = drop_slashes ((slash :: squeeze true p).take (max_len - 1)) := by
  have hroot : [slash].length ≤ max_len - 1 := by rw [List.length_singleton]; omega
  cases p with
  | nil =>
      rw [squeeze, List.take_of_length_le hroot]
      rfl
  | cons c rest =>
      rw [sanitize_path]
      by_cases hc : c = slash
      · -- the slash is in the text: it comes first, and what follows comes after a slash
        rw [if_pos hc, hc, copy_path, if_pos (by rw [List.length_nil]; omega), if_neg (by simp),
          List.nil_append, copy_path_eq rest [slash] hroot, squeeze, if_pos ⟨rfl, rfl⟩]
        rfl
      · rw [if_neg hc, copy_path_eq (c :: rest) [slash] hroot]
        rfl

/-! ### Trailing slashes -/

theorem rdropWhile_cons (c : UInt8) (p : List UInt8) :
    (c :: p).rdropWhile (· == slash)
      = if p.rdropWhile (· == slash) = [] then (if c = slash then [] else [c])
        else c :: p.rdropWhile (· == slash) := by
  simp only [List.rdropWhile, List.reverse_cons, List.dropWhile_append, List.isEmpty_iff,
    List.reverse_eq_nil_iff]
  split_ifs with hnil hc
  · rw [hc]
    rfl
  · rw [List.dropWhile_cons_of_neg (by simpa using hc)]
    rfl
  · rw [List.reverse_append]
    rfl

theorem rdropWhile_cons_of_ne {c : UInt8} (hc : c ≠ slash) (p : List UInt8) :
    (c :: p).rdropWhile (· == slash) = c :: p.rdropWhile (· == slash) := by
  rw [rdropWhile_cons, if_neg hc]
  split_ifs with hnil
  · rw [hnil]
  · rfl

theorem rdropWhile_append_slashes (p : List UInt8) {slashes : List UInt8}
    (h : ∀ c ∈ slashes, c = slash) :
    (p ++ slashes).rdropWhile (· == slash) = p.rdropWhile (· == slash) := by
  have hall : ∀ c ∈ slashes.reverse, (c == slash) = true := by
    intro c hc
    rw [h c (List.mem_reverse.mp hc)]
    rfl
  rw [List.rdropWhile, List.reverse_append, List.dropWhile_append_of_pos hall, List.rdropWhile]

theorem drop_slashes_eq (p : List UInt8) :
    drop_slashes (slash :: p)
      = if (slash :: p).rdropWhile (· == slash) = [] then [slash]
        else (slash :: p).rdropWhile (· == slash) := by
  rw [drop_slashes, rdropWhile_cons, if_pos rfl]
  split_ifs with hnil hnot hnot
  · rw [hnil]
  · exact absurd rfl hnot
  · cases hnot
  · rfl

/-- A cut does not see slashes at the end. -/
theorem drop_slashes_take (p : List UInt8) (n : ℕ) :
    drop_slashes ((drop_slashes p).take n) = drop_slashes (p.take n) := by
  cases p with
  | nil => rfl
  | cons c rest =>
      cases n with
      | zero => rfl
      | succ n =>
          rw [drop_slashes, List.take_succ_cons, List.take_succ_cons, drop_slashes, drop_slashes,
            List.cons_inj_right]
          conv_rhs =>
            rw [← List.rdropWhile_append_rtakeWhile (p := (· == slash)) (l := rest),
              List.take_append]
          refine (rdropWhile_append_slashes _ fun c hc => ?_).symm
          have hmem := List.mem_of_mem_take hc
          rw [List.rtakeWhile, List.mem_reverse] at hmem
          simpa using List.mem_takeWhile_imp hmem

/-! ### `sanitize_path` cuts the normal form -/

theorem rooted_cons (name : List UInt8) (names : List (List UInt8)) :
    rooted (name :: names) = slash :: name ++ rooted names := rfl

/-- The names and the squeezed text: after a slash, and within the first name. -/
theorem rooted_components (p : List UInt8) :
    (slash :: squeeze true p).rdropWhile (· == slash) = rooted (components p)
      ∧ ∀ name names, p.splitOn slash = name :: names →
        (squeeze false p).rdropWhile (· == slash)
          = name ++ rooted (names.filter (· ≠ [])) := by
  induction p with
  | nil =>
      refine ⟨rfl, fun name names h => ?_⟩
      rw [List.splitOn_nil] at h
      cases h
      rfl
  | cons c rest ih =>
      obtain ⟨name, names, hsplit⟩ := List.exists_cons_of_ne_nil (List.splitOn_ne_nil slash rest)
      have hfirst := ih.2 name names hsplit
      by_cases hc : c = slash
      · -- an empty name in front
        have hcons : (c :: rest).splitOn slash = [] :: rest.splitOn slash := by
          rw [hc, List.splitOn, List.splitOn, List.splitOnP_cons_eq_if_modifyHead, if_pos (by simp)]
        have hnames : components (c :: rest) = components rest := by
          rw [components, hcons, List.filter_cons_of_neg (by simp)]
          rfl
        refine ⟨?_, fun name' names' h => ?_⟩
        · rw [hnames, squeeze, if_pos ⟨hc, rfl⟩]
          exact ih.1
        · rw [hcons] at h
          cases h
          rw [squeeze, if_neg (by simp), hc]
          exact ih.1
      · have hcons : (c :: rest).splitOn slash = (c :: name) :: names := by
          rw [List.splitOn, List.splitOnP_cons_eq_if_modifyHead, if_neg (by simpa using hc)]
          rw [List.splitOn] at hsplit
          rw [hsplit]
          rfl
        have hin (after_slash : Bool) : (squeeze after_slash (c :: rest)).rdropWhile (· == slash)
            = c :: name ++ rooted (names.filter (· ≠ [])) := by
          rw [squeeze, if_neg (by simp [hc]), decide_eq_false hc, rdropWhile_cons_of_ne hc, hfirst]
          rfl
        refine ⟨?_, fun name' names' h => ?_⟩
        · rw [rdropWhile_cons, hin true, if_neg (by simp), components, hcons,
            List.filter_cons_of_pos (by simp)]
          rfl
        · rw [hcons] at h
          cases h
          exact hin false

theorem normal_form_eq (p : List UInt8) :
    normal_form p = drop_slashes (slash :: squeeze true p) := by
  rw [normal_form, drop_slashes_eq, (rooted_components p).1]
  have hnil : rooted (components p) = [] ↔ components p = [] := by
    cases components p with
    | nil => exact ⟨fun _ => rfl, fun _ => rfl⟩
    | cons name names => rw [rooted_cons]; simp
  rw [if_congr hnil rfl rfl]

theorem sanitize_path_eq_cut (p : List UInt8) (h : 2 ≤ max_len) :
    sanitize_path (some p) max_len = cut max_len (normal_form p) := by
  rw [sanitize_path_eq p h, cut, normal_form_eq, drop_slashes_take]

theorem cut_of_short {p : List UInt8} (h : (normal_form p).length ≤ max_len - 1) :
    cut max_len (normal_form p) = normal_form p := by
  have htwice := drop_slashes_take (slash :: squeeze true p) (slash :: squeeze true p).length
  rw [List.take_length, ← normal_form_eq, List.take_of_length_le] at htwice
  · rw [cut, List.take_of_length_le h, htwice]
  · have hpre := drop_slashes_prefix (slash :: squeeze true p)
    rw [normal_form_eq]
    exact hpre.length_le

end SysInC.Kvfs
