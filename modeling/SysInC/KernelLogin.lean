/-
`verify_user_password` of `test_os/kernel.c`, on the text of `/etc/passwd`.

The function looks for `user:password:` at the beginning of the file and behind its newlines. That
is a line with these two fields where the strings have no separator of their own and fit the two
buffers, and where the line has a third field.
-/
import SysInC.Delimited
import SysInC.KernelText

set_option autoImplicit false

namespace SysInC.KernelShell

open SysInC.Kvfs SysInC.Delimited

def colon : UInt8 := 58

def newline : UInt8 := 10

/-! ## The search -/

/-- Whether `kstrstr` finds `needle`, which is not empty. -/
def kstrstr (needle : List UInt8) : List UInt8 → Bool
  | [] => false
  | c :: haystack => needle.isPrefixOf (c :: haystack) || kstrstr needle haystack

/-- What is looked for, before it is cut to its buffer. -/
def searched (user pass : List UInt8) : List UInt8 := user ++ colon :: (pass ++ [colon])

/-- `passwd` is the string that the file's data is, `none` where there is no file or no data. -/
def verify_user_password (passwd : Option (List UInt8)) (user pass : List UInt8) : Bool :=
  match passwd with
  | none => user = literal "root" ∧ pass = literal "root"
  | some data =>
      let target_prefix := (searched user pass).take 63
      let line_prefix := (newline :: searched user pass).take 63
      target_prefix.isPrefixOf data || kstrstr line_prefix data

theorem kstrstr_iff {needle : List UInt8} (h : needle ≠ []) (haystack : List UInt8) :
    kstrstr needle haystack = true ↔ needle <:+: haystack := by
  induction haystack with
  | nil => exact iff_of_false Bool.false_ne_true fun hinfix => h (List.infix_nil.mp hinfix)
  | cons c haystack ih =>
      rw [kstrstr, Bool.or_eq_true, List.isPrefixOf_iff_prefix, ih, List.infix_cons_iff]

/-- The strings stand at the beginning of the file or behind a newline, as far as the buffers hold
them. -/
def Found (data user pass : List UInt8) : Prop :=
  (searched user pass).take 63 <+: data ∨ newline :: (searched user pass).take 62 <:+: data

theorem verify_iff (data user pass : List UInt8) :
    verify_user_password (some data) user pass = true ↔ Found data user pass := by
  unfold verify_user_password Found
  dsimp only
  rw [List.take_succ_cons, Bool.or_eq_true, List.isPrefixOf_iff_prefix,
    kstrstr_iff (List.cons_ne_nil _ _)]

/-! ## The lines -/

/-- A line of the file has the strings as its first two fields. -/
def Listed (passwd : Option (List UInt8)) (user pass : List UInt8) : Prop :=
  ∃ data ∈ passwd, ∃ line ∈ data.splitOn newline,
    (line.splitOn colon)[0]? = some user ∧ (line.splitOn colon)[1]? = some pass

/-- A string that can be a field of a line. -/
def Field (s : List UInt8) : Prop := colon ∉ s ∧ newline ∉ s

theorem listed_iff (data user pass : List UInt8) :
    Listed (some data) user pass ↔ Field user ∧ Field pass ∧
      ∃ line ∈ data.splitOn newline,
        line = user ++ colon :: pass ∨ searched user pass <+: line := by
  constructor
  · rintro ⟨_, hdata, line, hline, hfields⟩
    obtain rfl := Option.some.inj hdata
    obtain ⟨huser, hpass, hshape⟩ := (two_pieces_iff line user pass).mp hfields
    have hnewline := not_mem_of_mem_splitOn data line hline
    have hsub := two_pieces_subset hfields.1 hfields.2
    exact ⟨⟨huser, fun hmem => hnewline (hsub.1 hmem)⟩,
      ⟨hpass, fun hmem => hnewline (hsub.2 hmem)⟩, line, hline, hshape⟩
  · rintro ⟨huser, hpass, line, hline, hshape⟩
    exact ⟨data, rfl, line, hline, (two_pieces_iff line user pass).mpr
      ⟨huser.1, hpass.1, hshape⟩⟩

theorem Field.searched {user pass : List UInt8} (huser : Field user) (hpass : Field pass) :
    newline ∉ searched user pass := by
  unfold KernelShell.searched
  rw [List.mem_append, List.mem_cons, List.mem_append, List.mem_singleton]
  rintro (h | h | h | h)
  · exact huser.2 h
  · exact absurd h (by decide)
  · exact hpass.2 h
  · exact absurd h (by decide)

/-- What is found, line by line: there is one byte less for a line behind a newline. -/
theorem found_iff {user pass : List UInt8} (huser : Field user) (hpass : Field pass)
    (data : List UInt8) : Found data user pass ↔
      (searched user pass).take 63 <+: first newline data ∨
        ∃ line ∈ others newline data, (searched user pass).take 62 <+: line := by
  have hnot (n : ℕ) : newline ∉ (searched user pass).take n :=
    fun hmem => huser.searched hpass (List.mem_of_mem_take hmem)
  rw [Found, prefix_first_iff (hnot 63), infix_others_iff (hnot 62)]

/-! ## When the search finds the lines with the fields -/

/-- When what is found is what is listed. -/
structure SearchDecides (data user pass : List UInt8) : Prop where
  /-- A string with a separator in it is in no field, and should not be found. -/
  separators : ¬(Field user ∧ Field pass) → ¬Found data user pass
  /-- A line that ends behind the password is not found. -/
  third_field : Field user → Field pass → user.length + pass.length ≤ 60 →
    user ++ colon :: pass ∈ data.splitOn newline →
      ∃ line ∈ data.splitOn newline, searched user pass <+: line
  /-- Of strings that do not fit the buffers, a line may have the beginning only. -/
  beginning : Field user → Field pass → 60 < user.length + pass.length → Found data user pass →
    ∃ line ∈ data.splitOn newline, line = user ++ colon :: pass ∨ searched user pass <+: line
  /-- The first line is still asked for its third field when the others are not. -/
  first_line : Field user → Field pass → user.length + pass.length = 61 →
    first newline data = user ++ colon :: pass →
      ∃ line ∈ others newline data, (searched user pass).take 62 <+: line

theorem searched_length (user pass : List UInt8) :
    (searched user pass).length = user.length + pass.length + 2 := by
  rw [searched, List.length_append, List.length_cons, List.length_append, List.length_singleton]
  omega

/-- Without its last byte. -/
theorem searched_take (user pass : List UInt8) {n : ℕ} (h : n ≤ user.length + pass.length + 1) :
    (searched user pass).take n <+: user ++ colon :: pass := by
  have hlength : n ≤ (user ++ colon :: pass).length := by
    rw [List.length_append, List.length_cons]
    omega
  have hconcat : searched user pass = (user ++ colon :: pass) ++ [colon] := by
    rw [searched, List.append_assoc, List.cons_append]
  rw [hconcat, List.take_append_of_le_length hlength]
  exact List.take_prefix _ _

variable {data user pass : List UInt8}

/-- A line with the whole text is found. -/
theorem found_of_line (huser : Field user) (hpass : Field pass) {line : List UInt8}
    (hline : line ∈ data.splitOn newline) (h : searched user pass <+: line) :
    Found data user pass := by
  rw [found_iff huser hpass]
  rw [splitOn_eq] at hline
  rcases List.mem_cons.mp hline with rfl | hline
  · exact Or.inl ((List.take_prefix _ _).trans h)
  · exact Or.inr ⟨line, hline, (List.take_prefix _ _).trans h⟩

/-- Strings that fit the buffers are found in a line with the whole text only. -/
theorem line_of_found (huser : Field user) (hpass : Field pass)
    (hshort : user.length + pass.length ≤ 60) (h : Found data user pass) :
    ∃ line ∈ data.splitOn newline, searched user pass <+: line := by
  have hlength := searched_length user pass
  rw [found_iff huser hpass, List.take_of_length_le (by omega),
    List.take_of_length_le (by omega)] at h
  rw [splitOn_eq]
  rcases h with hfirst | ⟨line, hline, hprefix⟩
  · exact ⟨_, List.mem_cons_self, hfirst⟩
  · exact ⟨line, List.mem_cons_of_mem _ hline, hprefix⟩

theorem found_iff_listed : (Found data user pass ↔ Listed (some data) user pass) ↔
    SearchDecides data user pass := by
  rw [listed_iff]
  constructor
  · intro h
    refine ⟨fun hnot hfound => ?_, fun huser hpass hshort hline => ?_,
      fun huser hpass _ hfound => (h.mp hfound).2.2, fun huser hpass hlength hfirst => ?_⟩
    · obtain ⟨huser, hpass, -⟩ := h.mp hfound
      exact hnot ⟨huser, hpass⟩
    · exact line_of_found huser hpass hshort (h.mpr ⟨huser, hpass, _, hline, Or.inl rfl⟩)
    · have hline : user ++ colon :: pass ∈ data.splitOn newline := by
        rw [splitOn_eq, hfirst]
        exact List.mem_cons_self
      have hfound := (found_iff huser hpass data).mp
        (h.mpr ⟨huser, hpass, _, hline, Or.inl rfl⟩)
      rw [hfirst] at hfound
      refine hfound.resolve_left fun hprefix => ?_
      -- the first buffer holds the whole text, which is a byte longer than the line
      have hle := hprefix.length_le
      rw [List.length_take, searched_length, List.length_append, List.length_cons] at hle
      omega
  · intro h
    constructor
    · intro hfound
      by_cases hfields : Field user ∧ Field pass
      · obtain ⟨huser, hpass⟩ := hfields
        refine ⟨huser, hpass, ?_⟩
        by_cases hshort : user.length + pass.length ≤ 60
        · obtain ⟨line, hline, hprefix⟩ := line_of_found huser hpass hshort hfound
          exact ⟨line, hline, Or.inr hprefix⟩
        · exact h.beginning huser hpass (Nat.not_le.mp hshort) hfound
      · exact absurd hfound (h.separators hfields)
    · rintro ⟨huser, hpass, line, hline, rfl | hprefix⟩
      · by_cases hshort : user.length + pass.length ≤ 60
        · obtain ⟨line, hwhole, hprefix⟩ := h.third_field huser hpass hshort hline
          exact found_of_line huser hpass hwhole hprefix
        · rw [found_iff huser hpass]
          rw [splitOn_eq] at hline
          rcases List.mem_cons.mp hline with hfirst | hother
          · by_cases hlength : user.length + pass.length = 61
            · exact Or.inr (h.first_line huser hpass hlength hfirst.symm)
            · rw [← hfirst]
              exact Or.inl (searched_take user pass (by omega))
          · exact Or.inr ⟨_, hother, searched_take user pass (by omega)⟩
      · exact found_of_line huser hpass hline hprefix

end SysInC.KernelShell
