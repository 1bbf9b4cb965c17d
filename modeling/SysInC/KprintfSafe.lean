/-
The memory safety of `kvsnprintf`.

The buffer is safe on every format. The format is not: a conversion that ends behind its flag or
its width is taken for the default of the `switch`, and the loop goes on behind the NUL. And the
position is returned as an `int`.
-/
import SysInC.KprintfPieces

set_option autoImplicit false

namespace SysInC.Kprintf

open CText

/-! ## The claim and its condition -/

/-- Every access is inside of its array, the buffer ends in a NUL, and what is returned is the
position of that. -/
def Safe (max_len : UInt64) (fmt : c_string) (args : List arg) : Prop :=
  ∃ out rest, kvsnprintf true max_len fmt args = .ok ⟨out ++ [0], out.length, rest⟩
    ∧ out.length < max_len.toNat

/-- Each conversion finds an argument of its type. -/
def Matching (fmt : c_string) (args : List arg) : Prop :=
  ∀ q ∈ calls fmt args, q.1.takes = q.2.map arg.kind

/-- The conversion is finished, and if it is a `%s`, `width - (int)slen` is an `int`. -/
structure Sound (q : piece × Option arg) : Prop where
  finished : ∀ width, q.1 ≠ .unfinished width
  gap : ∀ left_align width chars, q.1 = .conv left_align width .s →
    string_of q.2 = .ok chars → (width : ℤ) - (chars.length : ℤ).bmod (2 ^ 32) < 2 ^ 31

/-! ## Texts -/

section Texts

variable {q : piece × Option arg} {width : ℕ}

theorem padded_isOk (left_align : Bool) {text : List UInt8} (hlen : text.length < 2 ^ 31)
    (hwidth : width < 2 ^ 31) : ∃ full, padded left_align width text = .ok full := by
  rw [padded, padding_of_lt hlen hwidth]
  exact ⟨_, rfl⟩

theorem word_of_kind {a : Option arg} (h : some kind.word = a.map arg.kind) :
    ∃ w, word_of a = .ok w := by
  match a, h with
  | some (.word w), _ => exact ⟨w, rfl⟩

theorem pointer_of_kind {a : Option arg} (h : some kind.pointer = a.map arg.kind) :
    ∃ ptr, pointer_of a = .ok ptr := by
  match a, h with
  | some (.pointer ptr), _ => exact ⟨ptr, rfl⟩

theorem string_of_kind {a : Option arg} (h : some kind.string = a.map arg.kind) :
    ∃ chars, string_of a = .ok chars := by
  match a, h with
  | some (.string none), _ => exact ⟨_, rfl⟩
  | some (.string (some str)), _ => exact ⟨str.chars, rfl⟩

theorem conversion_text_isOk {what : conversion} {a : Option arg} (left_align : Bool)
    (hwidth : width < 2 ^ 31) (hkind : what.takes = a.map arg.kind) (hs : what ≠ .s) :
    ∃ text, what.text left_align width a = .ok text := by
  cases what with
  | percent => exact ⟨_, rfl⟩
  | other ch => exact ⟨_, rfl⟩
  | s => exact absurd rfl hs
  | c =>
      obtain ⟨w, hw⟩ := word_of_kind hkind
      exact ⟨_, by rw [conversion.text, hw, Except.bind]⟩
  | d =>
      obtain ⟨w, hw⟩ := word_of_kind hkind
      have hlen := signed_numeral_length w
      rw [conversion.text, hw, Except.bind]
      exact padded_isOk left_align (by omega) hwidth
  | u =>
      obtain ⟨w, hw⟩ := word_of_kind hkind
      have hlen := numeral_length (n := w.toNat) le_rfl (w.toNat_lt.trans (by decide)) false
      rw [conversion.text, hw, Except.bind]
      exact padded_isOk left_align (by omega) hwidth
  | x =>
      obtain ⟨w, hw⟩ := word_of_kind hkind
      exact ⟨_, by rw [conversion.text, hw, Except.bind]⟩
  | X =>
      obtain ⟨w, hw⟩ := word_of_kind hkind
      exact ⟨_, by rw [conversion.text, hw, Except.bind]⟩
  | p =>
      obtain ⟨ptr, hptr⟩ := pointer_of_kind hkind
      exact ⟨_, by rw [conversion.text, hptr, Except.bind]⟩

theorem padded_isOk_iff (left_align : Bool) (width : ℕ) (chars : List UInt8) :
    (∃ full, padded left_align width chars = .ok full)
      ↔ (width : ℤ) - (chars.length : ℤ).bmod (2 ^ 32) < 2 ^ 31 := by
  rw [padded]
  by_cases hgap : (width : ℤ) - (chars.length : ℤ).bmod (2 ^ 32) < 2 ^ 31
  · rw [padding_ok hgap]
    exact iff_of_true ⟨_, rfl⟩ hgap
  · rw [padding_error hgap]
    refine iff_of_false ?_ hgap
    rintro ⟨full, hfull⟩
    cases hfull

/-- On arguments of the right types, the pieces without a text are those that are not sound. -/
theorem hasText_iff_sound (hwidth : q.1.width < 2 ^ 31) (hkind : q.1.takes = q.2.map arg.kind) :
    HasText q ↔ Sound q := by
  obtain ⟨p, a⟩ := q
  cases p with
  | char c =>
      refine iff_of_true ⟨_, rfl⟩ ⟨fun _ h => (by cases h), ?_⟩
      intro _ _ _ h
      cases h
  | unfinished width =>
      refine iff_of_false ?_ fun h => h.finished width rfl
      rintro ⟨text, h⟩
      cases h
  | conv left_align width what =>
      have htext : piece.text (.conv left_align width what) a = what.text left_align width a :=
        if_pos hwidth
      rw [HasText, htext]
      by_cases hs : what = .s
      · obtain ⟨chars, hchars⟩ := string_of_kind (a := a) (by rw [← hkind, hs]; rfl)
        rw [hs, conversion.text, hchars, Except.bind]
        refine (padded_isOk_iff left_align width chars).trans ⟨fun h => ⟨fun _ h => (by cases h), ?_⟩, ?_⟩
        · intro _ _ chars' hconv hchars'
          cases hconv
          rw [hchars] at hchars'
          cases hchars'
          exact h
        · intro h
          exact h.gap left_align width chars rfl hchars
      · refine iff_of_true (conversion_text_isOk left_align hwidth hkind hs) ⟨fun _ h => (by cases h), ?_⟩
        intro _ _ _ hconv _
        cases hconv
        exact absurd rfl hs

end Texts

/-- `kvsnprintf` is safe exactly when each piece that it comes to is sound, and the length that it
writes is an `int`. -/
theorem safe_iff (max_len : UInt64) (fmt : c_string) (args : List arg) (hlen : 0 < max_len)
    (hwidth : ∀ p ∈ pieces fmt.chars, p.width < 2 ^ 31) (hargs : Matching fmt args) :
    Safe max_len fmt args
      ↔ (∀ q ∈ reached (max_len.toNat - 1) (calls fmt args), Sound q)
        ∧ min (printed (calls fmt args)).length (max_len.toNat - 1) < 2 ^ 31 := by
  have hroom : max_len.toNat - 1 = (max_len - 1).toNat := by
    have := room_succ hlen
    omega
  have hsound : ∀ q ∈ reached (max_len - 1).toNat (calls fmt args), HasText q ↔ Sound q := by
    intro q hq
    have hmem := (reached_prefix_of _ _).subset hq
    have hpiece : q.1 ∈ pieces fmt.chars := by
      rw [← map_fst_assign (pieces fmt.chars) args]
      exact List.mem_map_of_mem hmem
    exact hasText_iff_sound (hwidth q.1 hpiece) (hargs q hmem)
  rw [hroom]
  constructor
  · rintro ⟨out, rest, hok, -⟩
    have htext := hasText_of_ok hlen hok
    refine ⟨fun q hq => (hsound q hq).mp (htext q hq), ?_⟩
    obtain ⟨out', hout', hfills⟩ := kvsnprintf_ok hlen htext
    rw [hout'] at hok
    obtain ⟨hbuf, hret, -⟩ := result.mk.inj (Except.ok.inj hok)
    have hout : out' = out := List.append_cancel_right hbuf
    rw [← hfills.length_eq, hout]
    rw [hout] at hret
    exact (bmod_length_eq_iff _).mp hret
  · rintro ⟨hall, hshort⟩
    obtain ⟨out, hout, hfills⟩ := kvsnprintf_ok hlen fun q hq => (hsound q hq).mpr (hall q hq)
    rw [← hfills.length_eq] at hshort
    have hle := hfills.length_le
    have hlast := room_succ hlen
    rw [(bmod_length_eq_iff _).mpr hshort] at hout
    exact ⟨out, _, hout, by omega⟩

/-! ## A format that ends behind its flag -/

/-- `"%-"` -/
def flag_only : c_string := ⟨literal "%-", by decide⟩

theorem pieces_flag_only : pieces flag_only.chars = [.unfinished 0] := by
  have hrest : (read_flag (literal "-")).2.dropWhile is_digit = [] := by decide
  exact pieces_unfinished (by decide) hrest

theorem not_safe_flag_only :
    ¬ ∀ (max_len : UInt64) (fmt : c_string) (args : List arg), 0 < max_len →
      (∀ p ∈ pieces fmt.chars, p.width < 2 ^ 31) → Matching fmt args → Safe max_len fmt args := by
  intro h
  have hcalls : calls flag_only [] = [(.unfinished 0, none)] := by
    rw [calls, pieces_flag_only]
    rfl
  have hwidth : ∀ p ∈ pieces flag_only.chars, p.width < 2 ^ 31 := by
    rw [pieces_flag_only]
    decide
  have hargs : Matching flag_only [] := by
    rw [Matching, hcalls]
    decide
  obtain ⟨out, rest, hok, -⟩ := h 2 flag_only [] (by decide) hwidth hargs
  have hreached : (piece.unfinished 0, none)
      ∈ reached (2 - 1 : UInt64).toNat (calls flag_only []) := by
    rw [hcalls]
    exact List.mem_cons_self
  obtain ⟨text, htext⟩ := hasText_of_ok (by decide) hok _ hreached
  exact nomatch htext

/-- `"%5s"` -/
def five_s : c_string := ⟨literal "%5s", by decide⟩

theorem pieces_five_s : pieces five_s.chars = [.conv false 5 .s] := by
  have hrest : (read_flag (literal "5s")).2.dropWhile is_digit = 's'.toUInt8 :: [] := by decide
  have hconv := pieces_conv hrest
  rw [pieces_nil] at hconv
  exact hconv

/-- A text that does not fit. -/
theorem safe_five_s : Safe 4 five_s [.string none] := by
  have hcalls : calls five_s [.string none] = [(.conv false 5 .s, some (.string none))] := by
    rw [calls, pieces_five_s]
    rfl
  have hwidth : ∀ p ∈ pieces five_s.chars, p.width < 2 ^ 31 := by
    rw [pieces_five_s]
    decide
  have hargs : Matching five_s [.string none] := by
    rw [Matching, hcalls]
    intro q hq
    rw [List.mem_singleton.mp hq]
    rfl
  refine (safe_iff 4 five_s [.string none] (by decide) hwidth hargs).mpr ⟨?_, ?_⟩
  · rw [hcalls]
    intro q hq
    rw [List.mem_singleton.mp ((reached_prefix_of _ _).subset hq)]
    refine ⟨fun _ => nofun, ?_⟩
    intro left_align width chars hconv hchars
    cases hconv
    cases hchars
    decide
  · exact lt_of_le_of_lt (Nat.min_le_right _ _) (by decide)

end SysInC.Kprintf
