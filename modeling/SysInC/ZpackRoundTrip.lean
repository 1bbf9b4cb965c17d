/-
`zpack2_decompress` undoes `zpack2_compress`.

The two functions meet in the middle, at the list of sequences the encoder has
written. `seq_bytes` is the byte image of one sequence; the encoder side shows that
its loop only ever appends such images, of sequences that rebuild the input up to
`anchor` (`Emitted`), and the decoder side shows that one iteration over such an
image applies the sequence (`decompress_step_seq`). What is left is an induction on
the list.

The hash table needs one fact only: an entry that passes the distance test is a
position strictly behind `in_pos`. Which position the hash selects, and whether it
selects the best one, plays no part.
-/
import SysInC.Zpack
import Mathlib.Tactic.IntervalCases

set_option autoImplicit false

namespace SysInC.Zpack

open SysInC.Lz77 decompress_outcome

/-! ## The byte image of a sequence -/

/-- The extension bytes of a length that leaves `rem` after the nibble. -/
def ext_bytes (rem : ℕ) : List UInt8 :=
  List.replicate (rem / 255) 255 ++ [UInt8.ofNat (rem % 255)]

/-- The bytes a length adds outside its nibble. -/
def len_bytes (n : ℕ) : List UInt8 := if 15 ≤ n then ext_bytes (n - 15) else []

def token_byte (lit_len m_token : ℕ) : UInt8 :=
  UInt8.ofNat (min lit_len 15 * 16 + min m_token 15)

/-- A match sequence as the encoder writes it. -/
def seq_bytes (s : Sequence UInt8) : List UInt8 :=
  token_byte s.lits.length (s.len - 4) :: (len_bytes s.lits.length ++ (s.lits
    ++ (UInt8.ofNat (s.dist % 256) :: UInt8.ofNat (s.dist / 256) :: len_bytes (s.len - 4))))

/-- The final literals as the encoder writes them. -/
def tail_bytes (lits : List UInt8) : List UInt8 :=
  if lits = [] then [] else token_byte lits.length 0 :: (len_bytes lits.length ++ lits)

theorem ext_bytes_ge {rem : ℕ} (h : 255 ≤ rem) :
    ext_bytes rem = 255 :: ext_bytes (rem - 255) := by
  have hdiv : rem / 255 = (rem - 255) / 255 + 1 := by omega
  have hmod : rem % 255 = (rem - 255) % 255 := by omega
  rw [ext_bytes, ext_bytes, hdiv, hmod, List.replicate_succ, List.cons_append]

theorem ext_bytes_lt {rem : ℕ} (h : rem < 255) : ext_bytes rem = [UInt8.ofNat rem] := by
  rw [ext_bytes, Nat.div_eq_of_lt h, Nat.mod_eq_of_lt h]
  rfl

theorem ext_bytes_length (rem : ℕ) : (ext_bytes rem).length = rem / 255 + 1 := by
  simp [ext_bytes]

theorem emit_ext_eq (rem : ℕ) (dst : List UInt8) : emit_ext rem dst = dst ++ ext_bytes rem := by
  fun_induction emit_ext rem dst with
  | case1 rem dst h ih => rw [ih, ext_bytes_ge h, List.append_assoc, List.singleton_append]
  | case2 rem dst h => rw [ext_bytes_lt (by omega)]

/-- The two nibbles of the token are put together without interfering. -/
theorem token_or (a m : ℕ) (ha : a ≤ 15) (hm : m ≤ 15) :
    UInt8.ofNat (a <<< 4) ||| UInt8.ofNat m = UInt8.ofNat (a * 16 + m) := by
  have h : ∀ a < 16, ∀ m < 16,
      UInt8.ofNat (a <<< 4) ||| UInt8.ofNat m = UInt8.ofNat (a * 16 + m) := by decide
  exact h a (by omega) m (by omega)

theorem token_high (a m : ℕ) : (token_byte a m).toNat >>> 4 = min a 15 := by
  have hlt : min a 15 * 16 + min m 15 < 256 := by omega
  rw [token_byte, UInt8.toNat_ofNat', Nat.mod_eq_of_lt hlt, Nat.shiftRight_eq_div_pow]
  omega

theorem token_low (a m : ℕ) : (token_byte a m).toNat &&& 0x0F = min m 15 := by
  have hlt : min a 15 * 16 + min m 15 < 256 := by omega
  rw [token_byte, UInt8.toNat_ofNat', Nat.mod_eq_of_lt hlt]
  rw [show (0x0F : ℕ) = 2 ^ 4 - 1 by norm_num, Nat.and_two_pow_sub_one_eq_mod]
  omega

/-- The offset is read back from its two bytes. -/
theorem offset_bytes (d : ℕ) (hd : d < 65536) :
    ((UInt8.ofNat (d % 256)).toNat ||| ((UInt8.ofNat (d / 256)).toNat <<< 8)) % 65536 = d := by
  have hlo : (UInt8.ofNat (d % 256)).toNat = d % 256 := by
    rw [UInt8.toNat_ofNat']
    omega
  have hhi : (UInt8.ofNat (d / 256)).toNat = d / 256 := by
    rw [UInt8.toNat_ofNat']
    omega
  rw [hlo, hhi, Nat.or_comm, ← Nat.shiftLeft_add_eq_or_of_lt (by omega : d % 256 < 2 ^ 8),
    Nat.shiftLeft_eq]
  omega

/-! ## The encoder writes sequence images -/

theorem emit_match_eq (src : List UInt8) (anchor in_pos ref match_len : ℕ) (dst : List UInt8)
    (hin : in_pos ≤ src.length) (hd : in_pos - ref < 65536) :
    emit_match src anchor in_pos ref match_len dst
      = dst ++ seq_bytes ⟨(src.drop anchor).take (in_pos - anchor), in_pos - ref, match_len⟩ := by
  have hlen : ((src.drop anchor).take (in_pos - anchor)).length = in_pos - anchor := by
    rw [List.length_take, List.length_drop]
    omega
  -- the two nibbles of the token, each cut off at 15
  have htok : (if match_len - 4 < 15 then
        (if in_pos - anchor < 15 then UInt8.ofNat ((in_pos - anchor) <<< 4)
          else UInt8.ofNat (15 <<< 4)) ||| UInt8.ofNat (match_len - 4)
      else (if in_pos - anchor < 15 then UInt8.ofNat ((in_pos - anchor) <<< 4)
          else UInt8.ofNat (15 <<< 4)) ||| 15)
      = token_byte (in_pos - anchor) (match_len - 4) := by
    rw [token_byte, ← token_or _ _ (Nat.min_le_right _ _) (Nat.min_le_right _ _)]
    split_ifs with h1 h2 h2
    · rw [Nat.min_eq_left h1.le, Nat.min_eq_left h2.le]
    · rw [Nat.min_eq_left h1.le, Nat.min_eq_right (by omega)]
    · rw [Nat.min_eq_left h2.le, Nat.min_eq_right (by omega : 15 ≤ match_len - 4)]
      rfl
    · rw [Nat.min_eq_right (by omega : 15 ≤ in_pos - anchor),
        Nat.min_eq_right (by omega : 15 ≤ match_len - 4)]
      rfl
  have hlits : ∀ d : List UInt8,
      (if 0 < in_pos - anchor then d ++ (src.drop anchor).take (in_pos - anchor) else d)
        = d ++ (src.drop anchor).take (in_pos - anchor) := by
    intro d
    split_ifs with h
    · rfl
    · rw [Nat.eq_zero_of_not_pos h, List.take_zero, List.append_nil]
  have hext : ∀ (n : ℕ) (d : List UInt8),
      (if 15 ≤ n then emit_ext (n - 15) d else d) = d ++ len_bytes n := by
    intro n d
    rw [len_bytes]
    split_ifs
    · exact emit_ext_eq _ _
    · rw [List.append_nil]
  have hlo : (in_pos - ref) &&& 0xFF = (in_pos - ref) % 256 := by
    rw [show (0xFF : ℕ) = 2 ^ 8 - 1 by norm_num, Nat.and_two_pow_sub_one_eq_mod]
  have hhi : (in_pos - ref) >>> 8 = (in_pos - ref) / 256 := Nat.shiftRight_eq_div_pow _ _
  simp only [emit_match, htok, hlits, hext, Nat.mod_eq_of_lt hd, hlo, hhi, seq_bytes, hlen]
  simp only [List.append_assoc, List.cons_append, List.nil_append]

theorem emit_tail_eq (src : List UInt8) (anchor : ℕ) (dst : List UInt8) :
    emit_tail src anchor dst = dst ++ tail_bytes (src.drop anchor) := by
  have hlen : (src.drop anchor).length = src.length - anchor := List.length_drop
  by_cases h : 0 < src.length - anchor
  · have hne : src.drop anchor ≠ [] := by
      rw [ne_eq, ← List.length_eq_zero_iff]
      omega
    have htok : (if src.length - anchor < 15 then UInt8.ofNat ((src.length - anchor) <<< 4)
        else UInt8.ofNat (15 <<< 4)) = token_byte (src.length - anchor) 0 := by
      rw [token_byte, ← token_or _ _ (Nat.min_le_right _ _) (Nat.min_le_right _ _)]
      split_ifs with h1
      · rw [Nat.min_eq_left h1.le]
        exact (UInt8.or_zero).symm
      · rw [Nat.min_eq_right (by omega : 15 ≤ src.length - anchor)]
        exact (UInt8.or_zero).symm
    have htake : (src.drop anchor).take (src.length - anchor) = src.drop anchor :=
      List.take_of_length_le hlen.le
    simp only [emit_tail, if_pos h, htok, htake, tail_bytes, if_neg hne, len_bytes, hlen]
    split_ifs
    · rw [emit_ext_eq]
      simp only [List.append_assoc, List.cons_append, List.nil_append]
    · simp only [List.append_assoc, List.cons_append, List.nil_append]
  · have hnil : src.drop anchor = [] := by
      rw [← List.length_eq_zero_iff]
      omega
    simp only [emit_tail, if_neg h, tail_bytes, hnil, if_pos, List.append_nil]

/-! ## The decoder reads sequence images

Every step is stated at a position `i` whose remaining input is known, so that
nothing depends on what the decoder has consumed before. -/

/-- The byte at a position whose remaining input starts with `b`. -/
theorem drop_eq_cons {src : List UInt8} {i : ℕ} {b : UInt8} {rest : List UInt8}
    (h : src.drop i = b :: rest) :
    ∃ hi : i < src.length, src[i] = b ∧ src.drop (i + 1) = rest := by
  have hi : i < src.length := by
    by_contra hge
    rw [List.drop_eq_nil_of_le (by omega)] at h
    exact List.cons_ne_nil _ _ h.symm
  rw [List.drop_eq_getElem_cons hi] at h
  exact ⟨hi, (List.cons.inj h).1, (List.cons.inj h).2⟩

theorem drop_eq_append {src a rest : List UInt8} {i : ℕ} (h : src.drop i = a ++ rest) :
    (src.drop i).take a.length = a ∧ src.drop (i + a.length) = rest := by
  rw [← List.drop_drop, h]
  exact ⟨List.take_left, List.drop_left⟩

theorem read_ext_ext_bytes (src : List UInt8) (rem i n : ℕ) (rest : List UInt8)
    (h : src.drop i = ext_bytes rem ++ rest) :
    read_ext src i n = some (i + (ext_bytes rem).length, n + rem) := by
  induction rem using Nat.strong_induction_on generalizing i n with
  | _ rem ih =>
    by_cases hrem : 255 ≤ rem
    · rw [ext_bytes_ge hrem, List.cons_append] at h
      obtain ⟨hi, hb, hrest⟩ := drop_eq_cons h
      rw [read_ext, dif_pos hi, hb]
      have hsum : n + (255 : UInt8).toNat + (rem - 255) = n + rem := by
        rw [show (255 : UInt8).toNat = 255 by rfl]
        omega
      simp only [if_true]
      rw [ih (rem - 255) (by omega) (i + 1) _ hrest, hsum, ext_bytes_ge hrem, List.length_cons,
        Nat.add_assoc, Nat.add_comm 1]
    · rw [ext_bytes_lt (by omega), List.singleton_append] at h
      obtain ⟨hi, hb, -⟩ := drop_eq_cons h
      have hnat : (UInt8.ofNat rem).toNat = rem := by
        rw [UInt8.toNat_ofNat']
        omega
      have hne : UInt8.ofNat rem ≠ 255 := by
        intro heq
        rw [heq, show (255 : UInt8).toNat = 255 by rfl] at hnat
        omega
      rw [read_ext, dif_pos hi, hb, ext_bytes_lt (by omega)]
      simp only [if_neg hne, hnat, List.length_singleton]

theorem read_len_len_bytes (src : List UInt8) (n i : ℕ) (rest : List UInt8)
    (h : src.drop i = len_bytes n ++ rest) :
    read_len src i (min n 15) = some (i + (len_bytes n).length, n) := by
  rw [read_len]
  by_cases hn : 15 ≤ n
  · rw [len_bytes, if_pos hn] at h
    rw [if_pos (Nat.min_eq_right hn), Nat.min_eq_right hn,
      read_ext_ext_bytes src (n - 15) i 15 rest h, len_bytes, if_pos hn, Nat.add_sub_cancel' hn]
  · rw [if_neg (by omega), len_bytes, if_neg hn, Nat.min_eq_left (by omega)]
    rfl

/-- Sequences that the two-byte offset and the nibble's base length can hold. -/
def Encodable (s : Sequence UInt8) : Prop := s.dist < 65536 ∧ 4 ≤ s.len

/-- **One iteration applies one sequence.** -/
theorem decompress_step_seq (src : List UInt8) (dst_max i : ℕ) (s : Sequence UInt8)
    (out rest : List UInt8) (h : src.drop i = seq_bytes s ++ rest) (he : Encodable s)
    (hr : s.InRange out.length) (hmax : out.length + s.size ≤ dst_max) :
    ∃ hi : i < src.length, decompress_step src dst_max i hi out
      = next (i + (seq_bytes s).length) (s.apply 0 out) := by
  obtain ⟨hdist, hlen⟩ := he
  obtain ⟨hr1, hr2⟩ := hr
  rw [Sequence.size] at hmax
  rw [seq_bytes, List.cons_append] at h
  obtain ⟨hi, htok, h1⟩ := drop_eq_cons h
  rw [List.append_assoc] at h1
  have hlit := read_len_len_bytes src s.lits.length (i + 1) _ h1
  have h2 := (drop_eq_append h1).2
  rw [List.append_assoc] at h2
  obtain ⟨htake, h3⟩ := drop_eq_append h2
  -- `j` is where the offset of the match stands
  set j := i + 1 + (len_bytes s.lits.length).length + s.lits.length with hj
  rw [List.cons_append, List.cons_append] at h3
  obtain ⟨hj0, hb0, h4⟩ := drop_eq_cons h3
  obtain ⟨hj1, hb1, h5⟩ := drop_eq_cons h4
  have hmat := read_len_len_bytes src (s.len - 4) (j + 2) rest h5
  have hoff := offset_bytes s.dist hdist
  refine ⟨hi, ?_⟩
  have hmatch : decompress_match src dst_max (token_byte s.lits.length (s.len - 4)) j
      (out ++ s.lits) = next (j + 2 + (len_bytes (s.len - 4)).length) (s.apply 0 out) := by
    have hlong : ¬ src.length < j + 2 := by omega
    have hin : ¬ (s.dist = 0 ∨ (out ++ s.lits).length < s.dist) := by
      rw [List.length_append]
      omega
    have hroom : ¬ dst_max < (out ++ s.lits).length + s.len := by
      rw [List.length_append]
      omega
    simp only [decompress_match, if_neg (by omega : ¬ src.length ≤ j), dif_neg hlong, hb0, hb1,
      hoff, if_neg hin, token_low, hmat, Nat.sub_add_cancel hlen, if_neg hroom, Sequence.apply]
  have hroom : ¬ (dst_max < out.length + s.lits.length
      ∨ src.length < i + 1 + (len_bytes s.lits.length).length + s.lits.length) := by omega
  simp only [decompress_step, htok, token_high, hlit, if_neg hroom, htake]
  rw [← hj, hmatch, seq_bytes]
  simp only [List.length_cons, List.length_append]
  congr 1
  omega

/-- One iteration ends the output with the final literals. -/
theorem decompress_step_tail (src : List UInt8) (dst_max i : ℕ) (lits out : List UInt8)
    (h : src.drop i = tail_bytes lits) (hne : lits ≠ [])
    (hmax : out.length + lits.length ≤ dst_max) :
    ∃ hi : i < src.length, decompress_step src dst_max i hi out = done (out ++ lits) := by
  rw [tail_bytes, if_neg hne] at h
  obtain ⟨hi, htok, h1⟩ := drop_eq_cons h
  have hlit := read_len_len_bytes src lits.length (i + 1) lits h1
  have h2 := (drop_eq_append h1).2
  set j := i + 1 + (len_bytes lits.length).length with hj
  have hjlen : src.length - j = lits.length := by rw [← List.length_drop, h2]
  have hpos : 0 < lits.length := List.length_pos_iff.mpr hne
  have hroom : ¬ (dst_max < out.length + lits.length ∨ src.length < j + lits.length) := by omega
  refine ⟨hi, ?_⟩
  simp only [decompress_step, htok, token_high, hlit, if_neg hroom, h2, List.take_length,
    decompress_match, if_pos (by omega : src.length ≤ j + lits.length)]

/-- The decoder's loop over a whole stream: the fold of the sequences, then the
final literals. -/
theorem decompress_loop_stream (src : List UInt8) (dst_max : ℕ) (ss : List (Sequence UInt8))
    (lits : List UInt8) (i : ℕ) (out : List UInt8)
    (h : src.drop i = ss.flatMap seq_bytes ++ tail_bytes lits)
    (he : ∀ s ∈ ss, Encodable s) (hr : AllInRange ss out.length)
    (hmax : (expand 0 ss out).length + lits.length ≤ dst_max) :
    decompress_loop src dst_max i out
      = ((expand 0 ss out).length + lits.length, expand 0 ss out ++ lits) := by
  induction ss generalizing i out with
  | nil =>
      rw [List.flatMap_nil, List.nil_append] at h
      rw [expand] at hmax ⊢
      -- the loop ends with the input, or with the last literals
      by_cases hne : lits = []
      · subst hne
        rw [tail_bytes, if_pos rfl] at h
        have hi : src.length ≤ i := List.drop_eq_nil_iff.mp h
        rw [decompress_loop, dif_neg (by omega), List.append_nil, List.length_nil, Nat.add_zero]
      · have hpos : 0 < lits.length := List.length_pos_iff.mpr hne
        obtain ⟨hi, hstep⟩ := decompress_step_tail src dst_max i lits out h hne hmax
        rw [decompress_loop, dif_pos ⟨hi, by omega⟩]
        split <;> rename_i hs <;> rw [hstep] at hs
        · cases hs
        · cases hs
          rw [List.length_append]
        · cases hs
  | cons s ss ih =>
      rw [List.flatMap_cons, List.append_assoc] at h
      have hes := he s List.mem_cons_self
      have hsize : 4 ≤ s.size := by
        rw [Sequence.size]
        exact le_trans hes.2 (Nat.le_add_left _ _)
      have hfit : out.length + s.size + (ss.map Sequence.size).sum + lits.length ≤ dst_max := by
        rw [expand, expand_length, Sequence.apply_length] at hmax
        exact hmax
      obtain ⟨hi, hstep⟩ :=
        decompress_step_seq src dst_max i s out _ h hes hr.1 (by omega)
      rw [decompress_loop, dif_pos ⟨hi, by omega⟩]
      split <;> rename_i hs <;> rw [hstep] at hs
      · cases hs
      · cases hs
      · cases hs
        rw [expand] at hmax ⊢
        refine ih _ _ (drop_eq_append h).2 (fun t ht => he t (List.mem_cons_of_mem _ ht)) ?_ hmax
        rw [Sequence.apply_length]
        exact hr.2

/-! ## The encoder's loop invariant -/

/-- `dst` is the image of sequences that rebuild `src` up to `anchor`, and is at
most one byte in 255 longer than what it rebuilds. -/
def Emitted (src : List UInt8) (anchor : ℕ) (dst : List UInt8) : Prop :=
  ∃ ss : List (Sequence UInt8), dst = ss.flatMap seq_bytes
    ∧ expand 0 ss [] = src.take anchor ∧ AllInRange ss 0 ∧ (∀ s ∈ ss, Encodable s)
    ∧ dst.length ≤ anchor + anchor / 255

/-- The invariant of `compress_loop`. -/
structure CompressInv (src : List UInt8) (st : compress_state) : Prop where
  emitted : Emitted src st.anchor st.dst
  anchor_le : st.anchor ≤ st.in_pos
  in_pos_le : st.in_pos ≤ src.length
  table : ∀ h, st.table h = -1 ∨ ∃ p, p < st.in_pos ∧ st.table h = to_int32 p

theorem compress_init_inv (src : List UInt8) : CompressInv src compress_init where
  emitted := ⟨[], rfl, rfl, trivial, by simp, Nat.zero_le _⟩
  anchor_le := le_rfl
  in_pos_le := Nat.zero_le _
  table := fun _ => Or.inl rfl

/-- An entry that passes the distance test is the position it was made from:
the 32-bit cast only ever moves a position down by multiples of `2 ^ 32`. -/
theorem to_int32_near {in_pos p : ℕ} (hp : p < in_pos)
    (hd : size_le ((in_pos : ℤ) - to_int32 p) MAX_DISTANCE) : to_int32 p = p := by
  obtain ⟨-, hd⟩ := hd
  rw [MAX_DISTANCE] at hd
  have hcast : to_int32 p = p ∨ to_int32 p + 4294967296 ≤ p := by
    rw [to_int32]
    split_ifs <;> omega
  rcases hcast with h | h
  · exact h
  · omega

theorem read32_inj {src : List UInt8} {i j : ℕ} (h : read32 src i = read32 src j) (k : ℕ)
    (hk : k < 4) : byte_at src (i + k) = byte_at src (j + k) := by
  have hlt : ∀ n, (byte_at src n).toNat < 256 := fun n => UInt8.toNat_lt _
  have h0 := hlt i
  have h1 := hlt (i + 1)
  have h2 := hlt (i + 2)
  have h3 := hlt (i + 3)
  have g0 := hlt j
  have g1 := hlt (j + 1)
  have g2 := hlt (j + 2)
  have g3 := hlt (j + 3)
  simp only [read32] at h
  rw [← UInt8.toNat_inj]
  interval_cases k
  · simp only [Nat.add_zero]
    omega
  all_goals omega

/-- What the match-length loop has compared. -/
theorem match_extend_agrees (src : List UInt8) (ref in_pos m : ℕ) (hm : in_pos + m ≤ src.length)
    (ha : ∀ k, k < m → byte_at src (ref + k) = byte_at src (in_pos + k)) :
    in_pos + match_extend src ref in_pos m ≤ src.length
      ∧ ∀ k, k < match_extend src ref in_pos m
        → byte_at src (ref + k) = byte_at src (in_pos + k) := by
  fun_induction match_extend src ref in_pos m with
  | case1 m hc ih =>
      refine ih (by omega) ?_
      intro k hk
      by_cases hkm : k < m
      · exact ha k hkm
      · rw [show k = m by omega]
        exact hc.2
  | case2 m _ => exact ⟨hm, ha⟩

theorem len_bytes_length (n : ℕ) :
    (len_bytes n).length = if 15 ≤ n then (n - 15) / 255 + 1 else 0 := by
  rw [len_bytes]
  split_ifs
  · exact ext_bytes_length _
  · rfl

/-- A sequence costs at most what it produces and one byte in 255 of literals:
the three bytes around a match are paid by its four symbols. -/
theorem seq_bytes_length_le (s : Sequence UInt8) (h : 4 ≤ s.len) :
    (seq_bytes s).length ≤ s.size + s.lits.length / 255 := by
  simp only [seq_bytes, List.length_cons, List.length_append, len_bytes_length, Sequence.size]
  split_ifs <;> omega

/-- Appending one compared match. -/
theorem Emitted.snoc {src : List UInt8} {anchor pos p n : ℕ} {dst : List UInt8}
    (h : Emitted src anchor dst) (ha : anchor ≤ pos) (hp : p < pos) (hd : pos - p < 65536)
    (hn : 4 ≤ n) (hlen : pos + n ≤ src.length)
    (hm : ∀ k, k < n → byte_at src (p + k) = byte_at src (pos + k)) :
    Emitted src (pos + n) (emit_match src anchor pos p n dst) := by
  obtain ⟨ss, hdst, hexp, hrange, henc, hsize⟩ := h
  set s : Sequence UInt8 := ⟨(src.drop anchor).take (pos - anchor), pos - p, n⟩ with hs
  have hlits : s.lits.length = pos - anchor := by
    rw [hs, List.length_take, List.length_drop]
    omega
  have htake : (src.take anchor).length = anchor := by
    rw [List.length_take]
    omega
  -- the sequences so far cover the source up to `anchor`
  have hsum : (ss.map Sequence.size).sum = anchor := by
    have h := expand_length 0 ss ([] : List UInt8)
    rw [hexp, htake, List.length_nil, Nat.zero_add] at h
    exact h.symm
  have hcost := seq_bytes_length_le s hn
  rw [Sequence.size, hlits, show s.len = n from rfl] at hcost
  refine ⟨ss ++ [s], ?_, ?_, ?_, ?_, ?_⟩
  · rw [emit_match_eq src anchor pos p n dst (by omega) hd, hdst, List.flatMap_append,
      List.flatMap_singleton]
  · rw [expand_append, hexp, expand, expand]
    refine apply_take src 0 anchor pos (pos - p) n ha (by omega) (by omega) hlen ?_
    intro k hk
    rw [show pos - (pos - p) + k = p + k by omega]
    exact hm k hk
  · rw [all_in_range_append, hsum]
    refine ⟨hrange, ⟨?_, ?_⟩, trivial⟩
    · show 1 ≤ pos - p
      omega
    · rw [hlits]
      show pos - p ≤ 0 + anchor + (pos - anchor)
      omega
  · intro t ht
    rcases List.mem_append.mp ht with h | h
    · exact henc t h
    · rw [List.mem_singleton.mp h]
      exact ⟨hd, hn⟩
  · rw [emit_match_eq src anchor pos p n dst (by omega) hd, List.length_append, ← hs]
    omega

/-- **The step of the encoder's invariant.** -/
theorem compress_step_inv (src : List UInt8) (st : compress_state) (h : CompressInv src st)
    (hin : st.in_pos + 4 ≤ src.length) : CompressInv src (compress_step src st) := by
  have htab : ∀ pos, st.in_pos < pos → ∀ i, Function.update st.table
      (hash4 (read32 src st.in_pos)) (to_int32 st.in_pos) i = -1
        ∨ ∃ p, p < pos ∧ Function.update st.table (hash4 (read32 src st.in_pos))
          (to_int32 st.in_pos) i = to_int32 p := by
    intro pos hpos i
    by_cases hi : i = hash4 (read32 src st.in_pos)
    · rw [hi, Function.update_self]
      exact Or.inr ⟨st.in_pos, hpos, rfl⟩
    · rw [Function.update_of_ne hi]
      rcases h.table i with h1 | ⟨p, hp, h1⟩
      · exact Or.inl h1
      · exact Or.inr ⟨p, by omega, h1⟩
  have hanchor := h.anchor_le
  rw [compress_step]
  split_ifs with hc
  · obtain ⟨hne, hdist, hread⟩ := hc
    -- an entry that passes the test is near, so it is the position it was stored for
    rcases h.table (hash4 (read32 src st.in_pos)) with h1 | ⟨p, hp, h1⟩
    · exact absurd h1 hne
    · have hnear : to_int32 p = p := to_int32_near hp (h1 ▸ hdist)
      rw [h1, hnear] at hdist hread
      rw [h1, hnear, Int.toNat_natCast] at *
      obtain ⟨hle, hagree⟩ := match_extend_agrees src p st.in_pos 4 hin
        (fun k hk => read32_inj hread k hk)
      have hfour := le_match_extend src p st.in_pos 4
      have hd : st.in_pos - p < 65536 := by
        have := hdist.2
        rw [MAX_DISTANCE] at this
        omega
      exact ⟨h.emitted.snoc hanchor hp hd hfour hle hagree, le_rfl, hle,
        htab _ (by dsimp only; omega)⟩
  · exact ⟨h.emitted, by dsimp only; omega, by dsimp only; omega, htab _ (Nat.lt_succ_self _)⟩

theorem compress_loop_inv (src : List UInt8) (dst_max : ℕ) (st : compress_state)
    (h : CompressInv src st) : CompressInv src (compress_loop src dst_max st) := by
  fun_induction compress_loop src dst_max st with
  | case1 st hc ih => exact ih (compress_step_inv src st h hc.1)
  | case2 => exact h

/-! ## The round trip -/

/-- The room `zpack2_compress` can need: its own admission test, and the extension
bytes of an input without a single match. -/
def zpack2_worst_case (src_len : ℕ) : ℕ := max (src_len + 64) (src_len + src_len / 255 + 2)

theorem tail_bytes_length_le (lits : List UInt8) :
    (tail_bytes lits).length ≤ lits.length + lits.length / 255 + 2 := by
  rw [tail_bytes]
  split_ifs
  · exact Nat.zero_le _
  · simp only [List.length_cons, List.length_append, len_bytes_length]
    split_ifs <;> omega

/-- What the encoder writes, whenever its admission test passes. -/
theorem zpack2_compress_emits (src : List UInt8) (dst_max : ℕ) (hne : src ≠ [])
    (hmax : src.length + 64 ≤ dst_max) :
    ∃ (ss : List (Sequence UInt8)) (anchor : ℕ), anchor ≤ src.length
      ∧ zpack2_compress src dst_max = ss.flatMap seq_bytes ++ tail_bytes (src.drop anchor)
      ∧ expand 0 ss [] = src.take anchor ∧ AllInRange ss 0 ∧ (∀ s ∈ ss, Encodable s)
      ∧ (ss.flatMap seq_bytes).length ≤ anchor + anchor / 255 := by
  have hadm : ¬ (src.length = 0 ∨ dst_max < src.length + 64) := by
    rw [List.length_eq_zero_iff]
    exact fun h => h.elim hne (by omega)
  have hinv := compress_loop_inv src dst_max compress_init (compress_init_inv src)
  set st := compress_loop src dst_max compress_init with hst
  obtain ⟨ss, hdst, hexp, hrange, henc, hsize⟩ := hinv.emitted
  refine ⟨ss, st.anchor, hinv.anchor_le.trans hinv.in_pos_le, ?_, hexp, hrange, henc, ?_⟩
  · rw [zpack2_compress, if_neg hadm, emit_tail_eq, ← hst, hdst]
  · rw [← hdst]
    exact hsize

/-- The decoder undoes the encoder, whatever room the encoder took. -/
theorem zpack2_decompress_compress (src : List UInt8) (dst_max out_max : ℕ)
    (hdst : src.length + 64 ≤ dst_max) (hout : src.length ≤ out_max) :
    zpack2_decompress (zpack2_compress src dst_max) out_max = (src.length, src) := by
  by_cases hne : src = []
  · subst hne
    have hnil : zpack2_compress [] dst_max = [] := if_pos (Or.inl rfl)
    rw [hnil, zpack2_decompress, decompress_loop, dif_neg (by simp)]
  · obtain ⟨ss, anchor, ha, hbytes, hexp, hrange, henc, -⟩ :=
      zpack2_compress_emits src dst_max hne hdst
    have hlen : (src.take anchor).length + (src.drop anchor).length = src.length := by
      rw [List.length_take, List.length_drop]
      omega
    rw [hbytes, zpack2_decompress, decompress_loop_stream _ out_max ss (src.drop anchor) 0 []
      List.drop_zero henc hrange (by rw [hexp]; omega), hexp, hlen, List.take_append_drop]

/-- **LZSS round trip.** With a destination of at least the worst-case size the
encoder stays inside it, and the decoder, given at least the original length,
returns that length and the original bytes. -/
theorem zpack2_round_trip (src : List UInt8) (dst_max out_max : ℕ)
    (hdst : zpack2_worst_case src.length ≤ dst_max) (hout : src.length ≤ out_max) :
    (zpack2_compress src dst_max).length ≤ dst_max
      ∧ zpack2_decompress (zpack2_compress src dst_max) out_max = (src.length, src) := by
  rw [zpack2_worst_case] at hdst
  refine ⟨?_, zpack2_decompress_compress src dst_max out_max (by omega) hout⟩
  by_cases hne : src = []
  · subst hne
    exact Nat.zero_le _
  · obtain ⟨ss, anchor, ha, hbytes, -, -, -, hsize⟩ :=
      zpack2_compress_emits src dst_max hne (by omega)
    have htail := tail_bytes_length_le (src.drop anchor)
    rw [List.length_drop] at htail
    rw [hbytes, List.length_append]
    omega

/-- The round trip of a run that overlaps itself. -/
theorem zpack2_round_trip_run :
    (zpack2_compress [7, 7, 7, 7, 7, 7, 7, 7, 7] 80).length ≤ 80
      ∧ zpack2_decompress (zpack2_compress [7, 7, 7, 7, 7, 7, 7, 7, 7] 80) 9
        = (9, [7, 7, 7, 7, 7, 7, 7, 7, 7]) :=
  zpack2_round_trip [7, 7, 7, 7, 7, 7, 7, 7, 7] 80 9 (by decide) (by decide)

end SysInC.Zpack
