/-
What the decoders accept.

`base64_decode` looks at the length and at nothing else: the `0x80` that marks the characters
outside of the alphabet is never asked for. `base32_decode` does ask, and takes an `=` anywhere
and in any number.
-/
import SysInC.B64RoundTrip

set_option autoImplicit false

namespace SysInC.B64

open OutBuffer

/-- The call returns a block. -/
def Accepts (r : Result) : Prop := ∃ out, r = some (some out)

/-- Characters of the alphabet, and `=` behind them, as many as one of the counts. -/
def Padded (alphabet : UInt8 → Prop) (counts : List ℕ) (t : List UInt8) : Prop :=
  ∃ body k, t = body ++ List.replicate k pad ∧ (∀ c ∈ body, alphabet c) ∧ k ∈ counts

def letter64 (c : UInt8) : Prop := c ∈ b64_table

/-- Without regard to case. -/
def letter32 (c : UInt8) : Prop := c ∈ b32_table ∨ c ∈ b32_table.map tolower

/-- The texts of RFC 4648, in base64 and in base32. -/
def Rfc64 (t : List UInt8) : Prop := t.length % 4 = 0 ∧ Padded letter64 [0, 1, 2] t

def Rfc32 (t : List UInt8) : Prop := t.length % 8 = 0 ∧ Padded letter32 [0, 1, 3, 4, 6] t

/-! ## Base64 -/

variable {malloc : Malloc} {data : List UInt8}

theorem base64_accepts_iff (hmalloc : ∀ n, malloc n ≠ none) (data : List UInt8) :
    Accepts (base64_decode malloc data) ↔ (strip data).length % 4 = 0 := by
  constructor
  · rintro ⟨out, hout⟩
    by_contra hlen
    rw [base64_decode, if_pos hlen] at hout
    cases hout
  · intro hlen
    exact ⟨_, base64_decode_eq hmalloc hlen⟩

/-! ## Base32 -/

theorem quintet_ne_none_iff (c : UInt8) : quintet c ≠ none ↔ c = pad ∨ letter32 c := by
  rw [quintet, d32, letter32]
  split_ifs with hpad hupper hlower
  · simp [hpad]
  · simp [hupper]
  · simp [hlower]
  · simp [hpad, hupper, hlower]

theorem group_value_ne_none_iff (chunk : List UInt8) :
    group_value chunk ≠ none ↔ ∀ c ∈ chunk, quintet c ≠ none := by
  have hfold (n : ℕ) : chunk.foldlM (fun b c => (quintet c).map fun val => (b <<< 5) ||| val) n
      ≠ none ↔ ∀ c ∈ chunk, quintet c ≠ none := by
    induction chunk generalizing n with
    | nil =>
        refine ⟨fun _ c hc => absurd hc List.not_mem_nil, fun _ => Option.some_ne_none _⟩
    | cons c chunk ih =>
        rw [List.foldlM_cons, List.forall_mem_cons]
        cases hc : quintet c with
        | none =>
            refine ⟨fun hne => absurd rfl hne, fun hall => absurd rfl hall.1⟩
        | some v =>
            rw [Option.map_some]
            exact (ih _).trans (and_iff_right (Option.some_ne_none v)).symm
  exact hfold 0

/-- A group without a value ends the loop. -/
theorem base32_decode_loop_null {block : List UInt8} {out_len : ℕ}
    (hroom : out_len < block.length) (cs : List (List UInt8)) (hlen : ∀ c ∈ cs, c.length = 8)
    (h : ∃ c ∈ cs, group_value c = none) (ws : List UInt8) :
    base32_decode_loop out_len cs (filled block out_len ws) = some none := by
  induction cs generalizing ws with
  | nil =>
      obtain ⟨c, hc, -⟩ := h
      exact absurd hc List.not_mem_nil
  | cons c cs ih =>
      rw [List.forall_mem_cons] at hlen
      rw [base32_decode_loop, if_neg (by rw [hlen.1]; decide)]
      cases hvalue : group_value c with
      | none => rfl
      | some b =>
          -- the groups with values before it are written out
          dsimp only
          rw [store_upto_filled hroom, Option.bind_some]
          refine ih hlen.2 ?_ _
          obtain ⟨c', hc', hnone⟩ := h
          rcases List.mem_cons.mp hc' with rfl | hrest
          · rw [hvalue] at hnone
            cases hnone
          · exact ⟨c', hrest, hnone⟩

theorem base32_null (hmalloc : ∀ n, malloc n ≠ none) (hlen : (strip data).length % 8 = 0)
    (h : ∃ c ∈ chunks 8 (strip data), group_value c = none) :
    base32_decode malloc data = some none := by
  obtain ⟨block, hblock⟩ :=
    Option.ne_none_iff_exists'.mp (hmalloc (base32_out_len (strip data) + 1))
  have hroom : base32_out_len (strip data) < block.toList.length := by
    rw [Vector.length_toList]
    exact Nat.lt_succ_self _
  have hloop := base32_decode_loop_null hroom (chunks 8 (strip data))
    (length_of_mem_chunks (by decide) hlen) h []
  rw [filled_nil] at hloop
  unfold base32_decode
  dsimp only
  rw [if_neg (not_not.mpr hlen), hblock]
  dsimp only
  rw [hloop]
  rfl

/-- The characters of the groups are those of the text. -/
theorem forall_mem_chunks_iff {n : ℕ} (hn : 0 < n) (p : UInt8 → Prop) (t : List UInt8) :
    (∀ c ∈ chunks n t, ∀ x ∈ c, p x) ↔ ∀ x ∈ t, p x := by
  conv_rhs => rw [← flatten_chunks hn t]
  exact ⟨fun h x hx => by
    obtain ⟨c, hc, hmem⟩ := List.mem_flatten.mp hx
    exact h c hc x hmem, fun h c hc x hx => h x (List.mem_flatten.mpr ⟨c, hc, hx⟩)⟩

theorem base32_accepts_iff (hmalloc : ∀ n, malloc n ≠ none) (data : List UInt8) :
    Accepts (base32_decode malloc data)
      ↔ (strip data).length % 8 = 0 ∧ ∀ c ∈ strip data, c = pad ∨ letter32 c := by
  have hvalues : (∀ c ∈ chunks 8 (strip data), group_value c ≠ none)
      ↔ ∀ c ∈ strip data, c = pad ∨ letter32 c := by
    simp only [group_value_ne_none_iff, quintet_ne_none_iff]
    exact forall_mem_chunks_iff (by decide) _ _
  rw [← hvalues]
  constructor
  · rintro ⟨out, hout⟩
    have hlen : (strip data).length % 8 = 0 := by
      by_contra hlen
      rw [base32_decode, if_pos hlen] at hout
      cases hout
    refine ⟨hlen, fun c hc hnone => ?_⟩
    rw [base32_null hmalloc hlen ⟨c, hc, hnone⟩] at hout
    cases hout
  · rintro ⟨hlen, hall⟩
    refine ⟨_, base32_decode_eq hmalloc hlen decoded_group fun c hc => ?_⟩
    obtain ⟨b, hb⟩ := Option.ne_none_iff_exists'.mp (hall c hc)
    exact ⟨b, hb, by rw [decoded_group, hb, Option.getD_some]⟩

/-! ## Strictness -/

/-- A padded text is made of its alphabet and of `=`. -/
theorem Padded.mem {alphabet : UInt8 → Prop} {counts : List ℕ} {t : List UInt8}
    (h : Padded alphabet counts t) : ∀ c ∈ t, c = pad ∨ alphabet c := by
  obtain ⟨body, k, rfl, hbody, -⟩ := h
  intro c hc
  rcases List.mem_append.mp hc with hc | hc
  · exact .inr (hbody c hc)
  · exact .inl (List.eq_of_mem_replicate hc)

/-- **Strict decoding.** The decoders accept the texts of the RFC and no others, on a given string,
if and only if: when its length fits base64, it is such a text of base64, and when its length
and its characters fit base32, it is such a text of base32. -/
theorem decoders_strict_iff (hmalloc : ∀ n, malloc n ≠ none) (data : List UInt8) :
    ((Accepts (base64_decode malloc data) ↔ Rfc64 (strip data))
      ∧ (Accepts (base32_decode malloc data) ↔ Rfc32 (strip data)))
    ↔ ((strip data).length % 4 = 0 → Padded letter64 [0, 1, 2] (strip data))
      ∧ ((strip data).length % 8 = 0 → (∀ c ∈ strip data, c = pad ∨ letter32 c) →
        Padded letter32 [0, 1, 3, 4, 6] (strip data)) := by
  rw [base64_accepts_iff hmalloc, base32_accepts_iff hmalloc, Rfc64, Rfc32]
  constructor
  · rintro ⟨h64, h32⟩
    exact ⟨fun hlen => (h64.mp hlen).2, fun hlen hall => (h32.mp ⟨hlen, hall⟩).2⟩
  · rintro ⟨h64, h32⟩
    exact ⟨⟨fun hlen => ⟨hlen, h64 hlen⟩, fun h => h.1⟩,
      ⟨fun h => ⟨h.1, h32 h.1 h.2⟩, fun h => ⟨h.1, h.2.mem⟩⟩⟩

theorem decoders_strict_iff_truncated :
    (Accepts (base64_decode some_memory (ascii "QUJ")) ↔ Rfc64 (strip (ascii "QUJ")))
      ∧ (Accepts (base32_decode some_memory (ascii "QUJ")) ↔ Rfc32 (strip (ascii "QUJ"))) := by
  refine (decoders_strict_iff (fun _ => Option.some_ne_none _) (ascii "QUJ")).mpr
    ⟨fun hlen => ?_, fun hlen => ?_⟩
  · exact absurd hlen (by decide)
  · exact absurd hlen (by decide)

/-- Foreign characters, and an `=` in the middle. -/
theorem decoders_not_strict :
    (Accepts (base64_decode some_memory (ascii "!?!?")) ∧ ¬ Rfc64 (strip (ascii "!?!?")))
      ∧ (Accepts (base32_decode some_memory (ascii "AB=CDEFG"))
        ∧ ¬ Rfc32 (strip (ascii "AB=CDEFG"))) := by
  have hmemory : ∀ n, some_memory n ≠ none := fun _ => Option.some_ne_none _
  refine ⟨⟨(base64_accepts_iff hmemory _).mpr (by decide), ?_⟩,
    (base32_accepts_iff hmemory _).mpr ⟨by decide, ?_⟩, ?_⟩
  · rintro ⟨-, hpadded⟩
    have hmem := hpadded.mem 33 (by decide)
    exact absurd hmem (by unfold letter64; decide)
  · unfold letter32
    decide +kernel
  · -- the text ends in a letter: no `=` is padding, and this one would be a letter
    rintro ⟨-, body, k, heq, hbody, -⟩
    have hstrip : strip (ascii "AB=CDEFG") = ascii "AB=CDEFG" := by decide
    rw [hstrip] at heq
    cases k with
    | zero =>
        rw [List.replicate_zero, List.append_nil] at heq
        have hletter := hbody pad (by rw [← heq]; decide)
        exact absurd hletter (by unfold letter32; decide)
    | succ k =>
        have hlast := congrArg List.getLast? heq
        rw [List.replicate_succ', ← List.append_assoc, List.getLast?_concat] at hlast
        exact absurd hlast (by decide)

end SysInC.B64
