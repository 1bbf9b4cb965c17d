/-
Decoding undoes encoding, in base64 and in base32.

A group of bytes is one number: its characters are the digits of the number in base 64 or 32
(`encode_quad_eq`, `encode_group_eq`), and its bytes are the digits in base 256. A short group is
filled up with zeros; the `=` stand where nothing but those zeros comes out, and count as zeros
on the way back.
-/
import SysInC.B64
import SysInC.Radix

set_option autoImplicit false

namespace SysInC.B64

open OutBuffer Radix

/-! ## Groups -/

/-- The bytes of a group of `g`, with zeros for those that are missing. -/
def octets (g : ℕ) (chunk : List UInt8) : List ℕ :=
  (chunk ++ List.replicate (g - chunk.length) 0).map UInt8.toNat

theorem octets_eq_range {g : ℕ} {chunk : List UInt8} (h : chunk.length ≤ g) :
    octets g chunk = (List.range g).map fun k => (chunk.getD k 0).toNat := by
  rw [octets]
  apply List.ext_getElem
  · simp
    omega
  · intro k h₁ h₂
    rw [List.getElem_map, List.getElem_map, List.getElem_range]
    congr 1
    rw [List.getElem_append]
    split_ifs with hk
    · rw [List.getD_eq_getElem?_getD, List.getElem?_eq_getElem hk, Option.getD_some]
    · rw [List.getElem_replicate, List.getD_eq_getElem?_getD,
        List.getElem?_eq_none (Nat.not_lt.mp hk), Option.getD_none]

theorem octets_length {g : ℕ} {chunk : List UInt8} (h : chunk.length ≤ g) :
    (octets g chunk).length = g := by
  rw [octets_eq_range h, List.length_map, List.length_range]

theorem octets_lt (g : ℕ) (chunk : List UInt8) : ∀ d ∈ octets g chunk, d < 256 := by
  intro d hd
  obtain ⟨b, -, rfl⟩ := List.mem_map.mp hd
  exact b.toNat_lt

/-- The octets as bytes again. -/
theorem octets_ofNat (g : ℕ) (chunk : List UInt8) :
    (octets g chunk).map UInt8.ofNat = chunk ++ List.replicate (g - chunk.length) 0 := by
  rw [octets, List.map_map]
  conv_rhs => rw [← List.map_id (chunk ++ List.replicate (g - chunk.length) 0)]
  apply List.map_congr_left
  intro b _
  exact UInt8.ofNat_toNat

/-- Of a short group the last digits are zeros, and `=` in their place has the same values. -/
theorem padded_values {α : Type} {g k p r base : ℕ} (hbase : 0 < base) {chunk : List UInt8}
    (hpow : 256 ^ (g - chunk.length) = r * base ^ p) {char : ℕ → UInt8} {value : UInt8 → α}
    {val : ℕ → α} (hchar : ∀ v < base, value (char v) = val v) (hpad : value pad = val 0) :
    (((regroup 256 base (k + p) (octets g chunk)).map char).take k
        ++ List.replicate p pad).map value
      = (regroup 256 base (k + p) (octets g chunk)).map val := by
  have hlt (v : ℕ) (hv : v ∈ regroup 256 base (k + p) (octets g chunk)) : v < base :=
    to_digits_lt hbase hv
  obtain ⟨front, hfront, hlen⟩ :
      ∃ front, regroup 256 base (k + p) (octets g chunk) = front ++ List.replicate p 0
        ∧ front.length = k := by
    rw [octets, List.map_append, List.map_replicate]
    exact regroup_short hbase _ hpow
  rw [hfront] at hlt ⊢
  have hchars : (front.map char).length = k := by rw [List.length_map, hlen]
  rw [List.map_append (f := char), List.take_left' hchars, List.map_append, List.map_append,
    List.map_map, List.map_replicate, List.map_replicate, hpad]
  congr 1
  apply List.map_congr_left
  intro v hv
  exact hchar v (hlt v (List.mem_append_left _ hv))

/-! ## Base64: one quad -/

theorem encode_quad_eq {chunk : List UInt8} (h : chunk.length ≤ 3) :
    encode_quad chunk
      = (regroup 256 64 4 (octets 3 chunk)).map fun v => b64_table.getD v 0 := by
  have ha := (chunk.getD 0 0).toNat_lt
  have hb := (chunk.getD 1 0).toNat_lt
  have hc := (chunk.getD 2 0).toNat_lt
  have hlt : ∀ d ∈ octets 3 chunk, d < 2 ^ 8 := octets_lt 3 chunk
  have hnumber : ((chunk.getD 0 0).toNat <<< 16) ||| ((chunk.getD 1 0).toNat <<< 8)
      ||| (chunk.getD 2 0).toNat = of_digits 256 (octets 3 chunk) := by
    have hfold := foldl_shiftLeft_or (octets 3 chunk) hlt
    rw [← show 2 ^ 8 = 256 from rfl, ← hfold, octets_eq_range h]
    simp only [List.range_succ, List.range_zero, List.nil_append, List.map_append,
      List.map_singleton, List.foldl_append, List.foldl_cons, List.foldl_nil, Nat.zero_shiftLeft, Nat.zero_or,
      Nat.shiftLeft_or_distrib, ← Nat.shiftLeft_add]
  rw [regroup, ← hnumber, show 64 = 2 ^ 6 from rfl, to_digits_eq_map]
  rfl

theorem sextet_char {v : ℕ} (h : v < 64) : sextet (b64_table.getD v 0) = v := by
  have hall : (List.range 64).all (fun v => sextet (b64_table.getD v 0) == v) = true := by
    decide
  simpa using List.all_eq_true.mp hall v (List.mem_range.mpr h)

theorem decode_quad_eq {chunk : List UInt8} (hlen : chunk.length = 4)
    (h : ∀ v ∈ chunk.map sextet, v < 64) :
    decode_quad chunk = (regroup 64 256 3 (chunk.map sextet)).map UInt8.ofNat := by
  obtain ⟨a, b, c, d, rfl⟩ := List.length_eq_four.mp hlen
  have hnumber : (sextet a <<< 18) ||| (sextet b <<< 12) ||| (sextet c <<< 6) ||| sextet d
      = of_digits 64 ([a, b, c, d].map sextet) := by
    have hfold := foldl_shiftLeft_or ([a, b, c, d].map sextet) (w := 6) h
    rw [show 64 = 2 ^ 6 from rfl, ← hfold]
    simp only [List.map_cons, List.map_nil, List.foldl_cons, List.foldl_nil, Nat.zero_shiftLeft,
      Nat.zero_or, Nat.shiftLeft_or_distrib, ← Nat.shiftLeft_add]
  have hlt := of_digits_lt h
  rw [List.length_map, hlen] at hlt
  rw [decode_quad, regroup]
  simp only [List.getD_cons_zero, List.getD_cons_succ]
  rw [hnumber, Nat.mod_eq_of_lt (hlt.trans_le (by decide)), show 256 = 2 ^ 8 from rfl,
    to_digits_eq_map]
  rfl

/-- What the encoder leaves of a turn: its last characters are `=` where bytes are missing. -/
def padded_quad (chunk : List UInt8) : List UInt8 :=
  (encode_quad chunk).take (chunk.length + 1) ++ List.replicate (3 - chunk.length) pad

theorem encode_quad_length (chunk : List UInt8) : (encode_quad chunk).length = 4 := rfl

theorem padded_quad_length {chunk : List UInt8} (h : chunk.length ≤ 3) :
    (padded_quad chunk).length = 4 := by
  rw [padded_quad, List.length_append, List.length_take, encode_quad_length, List.length_replicate]
  omega

/-- The digits of the padded quad are those of the group. -/
theorem padded_quad_sextets {chunk : List UInt8} (h : chunk.length ≤ 3) :
    (padded_quad chunk).map sextet = regroup 256 64 4 (octets 3 chunk) := by
  have hpow : 256 ^ (3 - chunk.length) = 4 ^ (3 - chunk.length) * 64 ^ (3 - chunk.length) := by
    rw [← Nat.mul_pow]
  have hvalues := padded_values (k := chunk.length + 1) (by decide) hpow
    (fun v => sextet_char) (rfl : sextet pad = id 0)
  rwa [show chunk.length + 1 + (3 - chunk.length) = 4 by omega, List.map_id', ← encode_quad_eq h]
    at hvalues

/-- **One group**, in base64. -/
theorem decode_padded_quad {chunk : List UInt8} (h : chunk.length ≤ 3) :
    decode_quad (padded_quad chunk) = chunk ++ List.replicate (3 - chunk.length) 0 := by
  have hdigits := padded_quad_sextets h
  rw [decode_quad_eq (padded_quad_length h), hdigits,
    regroup_regroup (by decide) (octets_length h) (octets_lt 3 chunk), octets_ofNat]
  rw [hdigits]
  exact fun v hv => to_digits_lt (by decide) hv

/-! ## Base32: one group -/

theorem encode_group_eq {chunk : List UInt8} (h : chunk.length ≤ 5) :
    encode_group chunk
      = (regroup 256 32 8 (octets 5 chunk)).map fun v => b32_table.getD v 0 := by
  have hlt : ∀ d ∈ octets 5 chunk, d < 2 ^ 8 := octets_lt 5 chunk
  have hfold := foldl_shiftLeft_or (octets 5 chunk) hlt
  rw [octets_eq_range h, List.foldl_map, ← octets_eq_range h] at hfold
  rw [encode_group, regroup, hfold, show 32 = 2 ^ 5 from rfl, to_digits_eq_map, List.map_map]
  rfl

theorem quintet_char {v : ℕ} (h : v < 32) : quintet (b32_table.getD v 0) = some v := by
  have hall : (List.range 32).all (fun v => quintet (b32_table.getD v 0) == some v) = true := by
    decide
  simpa using List.all_eq_true.mp hall v (List.mem_range.mpr h)

/-- A group of alphabet characters and `=`. -/
theorem group_value_eq {chunk : List UInt8} {vs : List ℕ} (h : chunk.map quintet = vs.map some)
    (hlt : ∀ v ∈ vs, v < 32) : group_value chunk = some (of_digits 32 vs) := by
  have hfold (n : ℕ) : chunk.foldlM (fun b c => (quintet c).map fun val => (b <<< 5) ||| val) n
      = some (vs.foldl (fun n d => (n <<< 5) ||| d) n) := by
    induction chunk generalizing vs n with
    | nil =>
        rw [List.map_nil, eq_comm, List.map_eq_nil_iff] at h
        rw [h]
        rfl
    | cons c chunk ih =>
        cases vs with
        | nil => cases h
        | cons v vs =>
            rw [List.map_cons, List.map_cons, List.cons.injEq] at h
            rw [List.foldlM_cons, h.1]
            exact ih h.2 (fun x hx => hlt x (List.mem_cons_of_mem _ hx)) _
  rw [group_value, hfold 0, foldl_shiftLeft_or (w := 5) vs hlt]
  rfl

theorem group_bytes_eq (b : ℕ) : group_bytes b = (to_digits 256 5 b).map UInt8.ofNat := by
  rw [group_bytes, show 256 = 2 ^ 8 from rfl, to_digits_eq_map, List.map_map]
  rfl

/-- What the encoder leaves of a turn. -/
def padded_group (chunk : List UInt8) : List UInt8 :=
  (encode_group chunk).take (8 - padding chunk.length)
    ++ List.replicate (padding chunk.length) pad

theorem encode_group_length (chunk : List UInt8) : (encode_group chunk).length = 8 := rfl

theorem padding_le (m : ℕ) : padding m ≤ 6 := by
  unfold padding
  split_ifs <;> omega

theorem padded_group_length (chunk : List UInt8) : (padded_group chunk).length = 8 := by
  have hle := padding_le chunk.length
  rw [padded_group, List.length_append, List.length_take, encode_group_length,
    List.length_replicate]
  omega

/-- As many digits are zeros as the encoder overwrites. -/
theorem padding_pow {m : ℕ} (h : m ≤ 5) : ∃ r, 256 ^ (5 - m) = r * 32 ^ padding m := by
  match m, h with
  | 0, _ => exact ⟨256 ^ 5, rfl⟩
  | 1, _ => exact ⟨4, rfl⟩
  | 2, _ => exact ⟨16, rfl⟩
  | 3, _ => exact ⟨2, rfl⟩
  | 4, _ => exact ⟨8, rfl⟩
  | 5, _ => exact ⟨1, rfl⟩

theorem padded_group_quintets {chunk : List UInt8} (h : chunk.length ≤ 5) :
    (padded_group chunk).map quintet = (regroup 256 32 8 (octets 5 chunk)).map some := by
  obtain ⟨r, hpow⟩ := padding_pow h
  have hle := padding_le chunk.length
  have hvalues := padded_values (k := 8 - padding chunk.length) (by decide) hpow
    (fun v => quintet_char) (rfl : quintet pad = some 0)
  rwa [show 8 - padding chunk.length + padding chunk.length = 8 by omega, ← encode_group_eq h]
    at hvalues

/-- **One group**, in base32. -/
theorem decode_padded_group {chunk : List UInt8} (h : chunk.length ≤ 5) :
    ∃ b, group_value (padded_group chunk) = some b
      ∧ group_bytes b = chunk ++ List.replicate (5 - chunk.length) 0 := by
  have hlt : ∀ v ∈ regroup 256 32 8 (octets 5 chunk), v < 32 :=
    fun v hv => to_digits_lt (by decide) hv
  refine ⟨_, group_value_eq (padded_group_quintets h) hlt, ?_⟩
  rw [group_bytes_eq, ← regroup, regroup_regroup (by decide) (octets_length h) (octets_lt 5 chunk),
    octets_ofNat]

/-! ## Whole texts: base64 -/

def encode64 (x : List UInt8) : List UInt8 := (chunks 3 x).flatMap padded_quad

theorem base64_encode_loop_eq (cs : List (List UInt8)) (pre : List UInt8) {old : List UInt8}
    (post : List UInt8) (h : old.length = 4 * cs.length) :
    base64_encode_loop cs pre.length (pre ++ (old ++ post))
      = some (pre ++ (cs.flatMap encode_quad ++ post)) := by
  induction cs generalizing pre old with
  | nil =>
      rw [List.eq_nil_of_length_eq_zero h]
      rfl
  | cons c cs ih =>
      rw [List.length_cons] at h
      have hfour : (encode_quad c).length = (old.take 4).length := by
        rw [encode_quad_length, List.length_take_of_le (by omega)]
      have hstore := store_all_append pre (old.drop 4 ++ post) hfour
      rw [← List.append_assoc (old.take 4), List.take_append_drop] at hstore
      have hrest : (old.drop 4).length = 4 * cs.length := by
        rw [List.length_drop]
        omega
      have hnext := ih (pre ++ encode_quad c) hrest
      rw [List.length_append, encode_quad_length, List.append_assoc] at hnext
      rw [base64_encode_loop, hstore, Option.bind_some, hnext, List.flatMap_cons]
      simp only [List.append_assoc]

/-- Whole chunks have no `=`. -/
theorem flatMap_padded_quad {x : List UInt8} (h : x.length % 3 = 0) :
    (chunks 3 x).flatMap encode_quad = encode64 x := by
  rw [encode64, List.flatMap_congr]
  intro c hc
  have hlen := length_of_mem_chunks (by decide) h c hc
  rw [padded_quad, hlen, Nat.sub_self, List.replicate_zero, List.append_nil]
  rfl

/-- The `=` are written over the last characters. -/
theorem patch_quad (front : List UInt8) {chunk : List UInt8} (hpos : 0 < chunk.length)
    (hle : chunk.length ≤ 3) (z : UInt8) :
    (if chunk.length % 3 = 1 then
        (store (front ++ (encode_quad chunk ++ [z])) (front.length + 4 - 1) pad).bind
          fun out => store out (front.length + 4 - 2) pad
      else if chunk.length % 3 = 2 then
        store (front ++ (encode_quad chunk ++ [z])) (front.length + 4 - 1) pad
      else some (front ++ (encode_quad chunk ++ [z])))
      = some (front ++ (padded_quad chunk ++ [z])) := by
  rw [padded_quad]
  obtain ⟨a, b, c, d, hquad⟩ := List.length_eq_four.mp (encode_quad_length chunk)
  have hlast (d b' : UInt8) :
      store (front ++ ([a, b, c, d] ++ [z])) (front.length + 4 - 1) b'
        = some (front ++ [a, b, c, b', z]) := by
    simpa using store_middle (front ++ [a, b, c]) d [z] b'
  have hsecond : store (front ++ [a, b, c, pad, z]) (front.length + 4 - 2) pad
      = some (front ++ [a, b, pad, pad, z]) := by
    simpa using store_middle (front ++ [a, b]) c [pad, z] pad
  rw [hquad, hlast]
  obtain h | h | h : chunk.length = 1 ∨ chunk.length = 2 ∨ chunk.length = 3 := by omega
  · rw [h, if_pos rfl, Option.bind_some, hsecond]
    rfl
  · rw [h, if_neg (by decide), if_pos rfl]
    rfl
  · rw [h, if_neg (by decide), if_neg (by decide)]
    rfl

theorem encode64_length (x : List UInt8) : (encode64 x).length = 4 * ((x.length + 2) / 3) := by
  rw [encode64, length_flatMap_of_forall fun c hc =>
    padded_quad_length (length_le_of_mem_chunks hc), length_chunks]
  rfl

/-- A block of one byte more than `n`. -/
theorem block_split {n : ℕ} (block : Vector UInt8 (n + 1)) :
    ∃ old last, block.toList = old ++ [last] ∧ old.length = n := by
  have hne : block.toList ≠ [] := by
    rw [Ne, ← List.length_eq_zero_iff, Vector.length_toList]
    exact Nat.succ_ne_zero n
  refine ⟨_, _, (List.dropLast_concat_getLast hne).symm, ?_⟩
  rw [List.length_dropLast, Vector.length_toList, Nat.add_sub_cancel]

theorem base64_encode_eq {malloc : Malloc} (hmalloc : ∀ n, malloc n ≠ none) (x : List UInt8) :
    base64_encode malloc x = some (some (encode64 x ++ [0], (encode64 x).length)) := by
  obtain ⟨block, hblock⟩ :=
    Option.ne_none_iff_exists'.mp (hmalloc (4 * ((x.length + 2) / 3) + 1))
  obtain ⟨old, z, hsplit, hold⟩ := block_split block
  have hloop := base64_encode_loop_eq (chunks 3 x) [] [z]
    (hold.trans (by rw [length_chunks]; rfl))
  rw [List.nil_append, List.nil_append, ← hsplit, List.length_nil] at hloop
  have hzero := store_middle (encode64 x) z [] 0
  unfold base64_encode
  dsimp only
  rw [hblock]
  dsimp only
  rw [hloop, Option.bind_some, encode64_length, ← encode64_length]
  by_cases hx : x = []
  · rw [hx]
    rfl
  · -- only the last chunk may be short
    obtain ⟨front, chunk, hxsplit, hwhole, hpos, hle, hchunks⟩ :=
      exists_last_chunk (n := 3) (by decide) hx
    have hmod : x.length % 3 = chunk.length % 3 := by
      rw [hxsplit, List.length_append, Nat.add_mod, hwhole, Nat.zero_add, Nat.mod_mod]
    have hout : encode64 x = encode64 front ++ padded_quad chunk := by
      rw [encode64, hchunks, List.flatMap_append, List.flatMap_singleton]
      rfl
    have hlen : (encode64 x).length = (encode64 front).length + 4 := by
      rw [hout, List.length_append, padded_quad_length hle]
    have hpatch := patch_quad (encode64 front) hpos hle z
    rw [← hmod, ← hlen, ← List.append_assoc, ← List.append_assoc, ← hout] at hpatch
    rw [hchunks, List.flatMap_append, flatMap_padded_quad hwhole, List.flatMap_singleton, hpatch,
      Option.bind_some, hzero]
    rfl

theorem base64_decode_loop_eq {block : List UInt8} {out_len : ℕ} (hroom : out_len < block.length)
    (cs : List (List UInt8)) (h : ∀ c ∈ cs, c.length = 4) (ws : List UInt8) :
    base64_decode_loop out_len cs (filled block out_len ws)
      = some (filled block out_len (ws ++ cs.flatMap decode_quad)) := by
  induction cs generalizing ws with
  | nil => rw [base64_decode_loop, List.flatMap_nil, List.append_nil]
  | cons c cs ih =>
      rw [List.forall_mem_cons] at h
      rw [base64_decode_loop, if_neg (by rw [h.1]; decide), store_upto_filled hroom,
        Option.bind_some, ih h.2, List.flatMap_cons, List.append_assoc]

/-- What the decoder makes of a text of whole quads. -/
theorem base64_decode_eq {malloc : Malloc} (hmalloc : ∀ n, malloc n ≠ none) {data : List UInt8}
    (hlen : (strip data).length % 4 = 0) :
    base64_decode malloc data
      = some (some (((chunks 4 (strip data)).flatMap decode_quad).take (base64_out_len (strip data))
        ++ [0], base64_out_len (strip data))) := by
  obtain ⟨block, hblock⟩ :=
    Option.ne_none_iff_exists'.mp (hmalloc (base64_out_len (strip data) + 1))
  have hblock_length : block.toList.length = base64_out_len (strip data) + 1 :=
    Vector.length_toList
  have hchunks := length_of_mem_chunks (by decide) hlen
  have hroom : base64_out_len (strip data) < block.toList.length := by
    rw [hblock_length]
    exact Nat.lt_succ_self _
  have hloop := base64_decode_loop_eq hroom (chunks 4 (strip data)) hchunks []
  rw [filled_nil, List.nil_append] at hloop
  have hle : base64_out_len (strip data)
      ≤ ((chunks 4 (strip data)).flatMap decode_quad).length := by
    have hbytes : ((chunks 4 (strip data)).flatMap decode_quad).length
        = 3 * ((strip data).length / 4) := by
      rw [length_flatMap_of_forall (m := 3) fun c _ => rfl, length_chunks]
      omega
    rw [hbytes, base64_out_len]
    split_ifs <;> omega
  unfold base64_decode
  dsimp only
  rw [if_neg (not_not.mpr hlen), hblock]
  dsimp only
  rw [hloop, Option.bind_some, store_filled hblock_length hle]
  rfl

/-- No character of a text is one that `strip` takes. -/
theorem strip_eq_self {t : List UInt8} (h : ∀ c ∈ t, is_trailing c = false) : strip t = t := by
  rw [strip, List.rdropWhile_eq_self_iff]
  intro hne htrailing
  rw [h _ (List.getLast_mem hne)] at htrailing
  cases htrailing

theorem is_trailing_char64 {v : ℕ} (h : v < 64) :
    is_trailing (b64_table.getD v 0) = false ∧ b64_table.getD v 0 ≠ pad := by
  have hall : (List.range 64).all (fun v => !is_trailing (b64_table.getD v 0)
      && b64_table.getD v 0 != pad) = true := by decide
  simpa using List.all_eq_true.mp hall v (List.mem_range.mpr h)

theorem mem_encode_quad {chunk : List UInt8} (hle : chunk.length ≤ 3) {c : UInt8}
    (h : c ∈ encode_quad chunk) : is_trailing c = false ∧ c ≠ pad := by
  rw [encode_quad_eq hle] at h
  obtain ⟨v, hv, rfl⟩ := List.mem_map.mp h
  exact is_trailing_char64 (to_digits_lt (by decide) hv)

theorem strip_encode64 (x : List UInt8) : strip (encode64 x) = encode64 x := by
  apply strip_eq_self
  intro c hc
  obtain ⟨chunk, hchunk, hmem⟩ := List.mem_flatMap.mp hc
  rw [padded_quad, List.mem_append] at hmem
  rcases hmem with hchar | hpad
  · exact (mem_encode_quad (length_le_of_mem_chunks hchunk) (List.mem_of_mem_take hchar)).1
  · rw [List.eq_of_mem_replicate hpad]
    rfl

/-- The `=` at the end tell how many bytes the last group has. -/
theorem base64_out_len_encode64 (x : List UInt8) : base64_out_len (encode64 x) = x.length := by
  by_cases hx : x = []
  · rw [hx]
    rfl
  · obtain ⟨front, chunk, hxsplit, hwhole, hpos, hle, hchunks⟩ :=
      exists_last_chunk (n := 3) (by decide) hx
    have hout : encode64 x = encode64 front ++ padded_quad chunk := by
      rw [encode64, hchunks, List.flatMap_append, List.flatMap_singleton]
      rfl
    have hfront : (encode64 front).length = 4 * (front.length / 3) := by
      rw [encode64_length]
      omega
    have hlen : x.length = front.length + chunk.length := by rw [hxsplit, List.length_append]
    have hnot : ∀ c ∈ encode_quad chunk, c ≠ pad := fun c hc => (mem_encode_quad hle hc).2
    rw [hout, padded_quad]
    obtain ⟨a, b, c, d, hquad⟩ := List.length_eq_four.mp (encode_quad_length chunk)
    rw [hquad] at hnot ⊢
    have hc : c ≠ pad := hnot c (by simp)
    have hd : d ≠ pad := hnot d (by simp)
    obtain h | h | h : chunk.length = 1 ∨ chunk.length = 2 ∨ chunk.length = 3 := by omega
    · rw [h]
      simp [base64_out_len, hfront]
      omega
    · rw [h]
      simp [base64_out_len, hfront, hc]
      omega
    · rw [h]
      simp [base64_out_len, hfront, hc, hd]
      omega

/-- The bytes of all quads are the data, and zeros behind. -/
theorem decode_encode64 (x : List UInt8) :
    ((chunks 4 (encode64 x)).flatMap decode_quad).take x.length = x := by
  have hquads : chunks 4 (encode64 x) = (chunks 3 x).map padded_quad := by
    rw [encode64, List.flatMap_def]
    apply chunks_flatten (by decide)
    intro c hc
    obtain ⟨chunk, hchunk, rfl⟩ := List.mem_map.mp hc
    exact padded_quad_length (length_le_of_mem_chunks hchunk)
  obtain ⟨k, hk⟩ := flatMap_chunks_filled (n := 3) (by decide) (0 : UInt8) x
  rw [hquads, List.flatMap_map, List.flatMap_congr fun chunk hchunk =>
    decode_padded_quad (length_le_of_mem_chunks hchunk), hk]
  exact List.take_left

theorem base64_round_trip {malloc malloc' : Malloc} (hmalloc : ∀ n, malloc n ≠ none)
    (hmalloc' : ∀ n, malloc' n ≠ none) (x : List UInt8) :
    ∃ text, base64_encode malloc x = some (some (text ++ [0], text.length))
      ∧ base64_decode malloc' text = some (some (x ++ [0], x.length)) := by
  have hlen : (strip (encode64 x)).length % 4 = 0 := by
    rw [strip_encode64, encode64_length, Nat.mul_mod_right]
  refine ⟨encode64 x, base64_encode_eq hmalloc x, ?_⟩
  rw [base64_decode_eq hmalloc' hlen, strip_encode64, base64_out_len_encode64, decode_encode64]

/-! ## Whole texts: base32 -/

def encode32 (x : List UInt8) : List UInt8 := (chunks 5 x).flatMap padded_group

theorem encode32_length (x : List UInt8) : (encode32 x).length = 8 * ((x.length + 4) / 5) := by
  rw [encode32, length_flatMap_of_forall fun c _ => padded_group_length c, length_chunks]
  rfl

/-- One turn writes the characters, and then `=` over the last of them. -/
theorem store_group (pre : List UInt8) {old : List UInt8} (post chunk : List UInt8)
    (h : old.length = 8) :
    (store_all (pre ++ (old ++ post)) pre.length (encode_group chunk)).bind (fun out =>
        store_all out (pre.length + 8 - padding chunk.length)
          (List.replicate (padding chunk.length) pad))
      = some (pre ++ (padded_group chunk ++ post)) := by
  have hle := padding_le chunk.length
  have hfront : ((encode_group chunk).take (8 - padding chunk.length)).length
      = 8 - padding chunk.length := by
    rw [List.length_take_of_le]
    rw [encode_group_length]
    omega
  have hback : (List.replicate (padding chunk.length) pad).length
      = ((encode_group chunk).drop (8 - padding chunk.length)).length := by
    rw [List.length_replicate, List.length_drop, encode_group_length]
    omega
  have hpatch := store_all_append (pre ++ (encode_group chunk).take (8 - padding chunk.length)) post
    hback
  rw [List.length_append, hfront, ← Nat.add_sub_assoc (by omega), List.append_assoc,
    ← List.append_assoc (List.take _ _), List.take_append_drop] at hpatch
  rw [store_all_append pre post ((encode_group_length chunk).trans h.symm), Option.bind_some,
    hpatch, padded_group, List.append_assoc, List.append_assoc]

theorem base32_encode_loop_eq (cs : List (List UInt8)) (pre : List UInt8) {old : List UInt8}
    (post : List UInt8) (h : old.length = 8 * cs.length) :
    base32_encode_loop cs pre.length (pre ++ (old ++ post))
      = some (pre.length + 8 * cs.length, pre ++ (cs.flatMap padded_group ++ post)) := by
  induction cs generalizing pre old with
  | nil =>
      rw [List.eq_nil_of_length_eq_zero h]
      rfl
  | cons c cs ih =>
      rw [List.length_cons] at h
      have height : (old.take 8).length = 8 := List.length_take_of_le (by omega)
      have hturn := store_group pre (old.drop 8 ++ post) c height
      rw [← List.append_assoc (old.take 8), List.take_append_drop] at hturn
      have hrest : (old.drop 8).length = 8 * cs.length := by
        rw [List.length_drop]
        omega
      have hnext := ih (pre ++ padded_group c) hrest
      rw [List.length_append, padded_group_length, List.append_assoc] at hnext
      rw [base32_encode_loop, ← Option.bind_assoc, hturn, Option.bind_some, hnext,
        List.flatMap_cons, List.length_cons, Nat.mul_succ]
      simp only [List.append_assoc, Nat.add_assoc, Nat.add_comm 8]

theorem base32_encode_eq {malloc : Malloc} (hmalloc : ∀ n, malloc n ≠ none) (x : List UInt8) :
    base32_encode malloc x = some (some (encode32 x ++ [0], (encode32 x).length)) := by
  obtain ⟨block, hblock⟩ :=
    Option.ne_none_iff_exists'.mp (hmalloc ((x.length + 4) / 5 * 8 + 1))
  obtain ⟨old, z, hsplit, hold⟩ := block_split block
  have hcount : (chunks 5 x).length = (x.length + 4) / 5 := length_chunks 5 x
  have hloop := base32_encode_loop_eq (chunks 5 x) [] [z] (by rw [hold, hcount, Nat.mul_comm])
  rw [List.nil_append, List.nil_append, ← hsplit, List.length_nil, Nat.zero_add, hcount,
    ← encode32_length] at hloop
  have hlen : (x.length + 4) / 5 * 8 = (encode32 x).length := by
    rw [encode32_length, Nat.mul_comm]
  unfold base32_encode
  dsimp only
  rw [hblock]
  dsimp only
  rw [hloop, hlen, Option.bind_some]
  exact congrArg (Option.map _) (store_middle (encode32 x) z [] 0)

theorem base32_decode_loop_eq {block : List UInt8} {out_len : ℕ} (hroom : out_len < block.length)
    (cs : List (List UInt8)) (decoded : List UInt8 → List UInt8)
    (h : ∀ c ∈ cs, c.length = 8 ∧ ∃ b, group_value c = some b ∧ group_bytes b = decoded c)
    (ws : List UInt8) :
    base32_decode_loop out_len cs (filled block out_len ws)
      = some (some (filled block out_len (ws ++ cs.flatMap decoded))) := by
  induction cs generalizing ws with
  | nil => rw [base32_decode_loop, List.flatMap_nil, List.append_nil]
  | cons c cs ih =>
      rw [List.forall_mem_cons] at h
      obtain ⟨⟨hlen, b, hvalue, hbytes⟩, hrest⟩ := h
      rw [base32_decode_loop, if_neg (by rw [hlen]; decide), hvalue]
      dsimp only
      rw [hbytes, store_upto_filled hroom, Option.bind_some, ih hrest, List.flatMap_cons,
        List.append_assoc]

/-- What the decoder makes of a text of whole groups with values. -/
theorem base32_decode_eq {malloc : Malloc} (hmalloc : ∀ n, malloc n ≠ none) {data : List UInt8}
    (hlen : (strip data).length % 8 = 0) (decoded : List UInt8 → List UInt8)
    (h : ∀ c ∈ chunks 8 (strip data), ∃ b, group_value c = some b ∧ group_bytes b = decoded c) :
    base32_decode malloc data
      = some (some (((chunks 8 (strip data)).flatMap decoded).take (base32_out_len (strip data))
        ++ [0], base32_out_len (strip data))) := by
  obtain ⟨block, hblock⟩ :=
    Option.ne_none_iff_exists'.mp (hmalloc (base32_out_len (strip data) + 1))
  have hblock_length : block.toList.length = base32_out_len (strip data) + 1 :=
    Vector.length_toList
  have hroom : base32_out_len (strip data) < block.toList.length := by
    rw [hblock_length]
    exact Nat.lt_succ_self _
  have hchunks := length_of_mem_chunks (by decide) hlen
  have hloop := base32_decode_loop_eq hroom (chunks 8 (strip data)) decoded
    (fun c hc => ⟨hchunks c hc, h c hc⟩) []
  rw [filled_nil, List.nil_append] at hloop
  have hle : base32_out_len (strip data) ≤ ((chunks 8 (strip data)).flatMap decoded).length := by
    have hbytes : ((chunks 8 (strip data)).flatMap decoded).length
        = 5 * ((strip data).length / 8) := by
      rw [length_flatMap_of_forall (m := 5), length_chunks]
      · omega
      · intro c hc
        obtain ⟨b, -, hbytes⟩ := h c hc
        rw [← hbytes]
        rfl
    rw [hbytes, base32_out_len]
    split_ifs <;> omega
  unfold base32_decode
  dsimp only
  rw [if_neg (not_not.mpr hlen), hblock]
  dsimp only
  rw [hloop, Option.bind_some]
  dsimp only
  rw [store_filled hblock_length hle]
  rfl

theorem is_trailing_char32 {v : ℕ} (h : v < 32) :
    is_trailing (b32_table.getD v 0) = false ∧ b32_table.getD v 0 ≠ pad := by
  have hall : (List.range 32).all (fun v => !is_trailing (b32_table.getD v 0)
      && b32_table.getD v 0 != pad) = true := by decide
  simpa using List.all_eq_true.mp hall v (List.mem_range.mpr h)

theorem mem_encode_group {chunk : List UInt8} (hle : chunk.length ≤ 5) {c : UInt8}
    (h : c ∈ encode_group chunk) : is_trailing c = false ∧ c ≠ pad := by
  rw [encode_group_eq hle] at h
  obtain ⟨v, hv, rfl⟩ := List.mem_map.mp h
  exact is_trailing_char32 (to_digits_lt (by decide) hv)

theorem strip_encode32 (x : List UInt8) : strip (encode32 x) = encode32 x := by
  apply strip_eq_self
  intro c hc
  obtain ⟨chunk, hchunk, hmem⟩ := List.mem_flatMap.mp hc
  rw [padded_group, List.mem_append] at hmem
  rcases hmem with hchar | hpad
  · exact (mem_encode_group (length_le_of_mem_chunks hchunk) (List.mem_of_mem_take hchar)).1
  · rw [List.eq_of_mem_replicate hpad]
    rfl

/-- The `=` behind a character of the alphabet are counted. -/
theorem pad_count_append {front : List UInt8} (hne : front ≠ []) (h : ∀ c ∈ front, c ≠ pad)
    {p : ℕ} (hp : p ≤ 6) (pre : List UInt8) :
    pad_count (pre ++ (front ++ List.replicate p pad)) = p := by
  have hfront : (pre ++ front).reverse = front.getLast hne :: (pre ++ front.dropLast).reverse := by
    conv_lhs => rw [← List.dropLast_concat_getLast hne]
    rw [← List.append_assoc, List.reverse_append]
    rfl
  rw [pad_count, List.rtakeWhile, ← List.append_assoc, List.reverse_append, List.reverse_replicate,
    List.takeWhile_append_of_pos (by
      intro c hc
      rw [List.eq_of_mem_replicate hc]
      rfl), hfront, List.takeWhile_cons_of_neg (by
      have hlast := h _ (List.getLast_mem hne)
      simpa using hlast), List.append_nil, List.length_reverse, List.length_replicate,
    Nat.min_eq_right hp]

theorem base32_out_len_encode32 (x : List UInt8) : base32_out_len (encode32 x) = x.length := by
  by_cases hx : x = []
  · rw [hx]
    rfl
  · obtain ⟨front, chunk, hxsplit, hwhole, hpos, hle, hchunks⟩ :=
      exists_last_chunk (n := 5) (by decide) hx
    have hout : encode32 x = encode32 front ++ padded_group chunk := by
      rw [encode32, hchunks, List.flatMap_append, List.flatMap_singleton]
      rfl
    have hlen : x.length = front.length + chunk.length := by rw [hxsplit, List.length_append]
    have hcount : pad_count (encode32 x) = padding chunk.length := by
      have hpad := padding_le chunk.length
      rw [hout, padded_group]
      refine pad_count_append ?_ (fun c hc => ?_) hpad _
      · rw [Ne, ← List.length_eq_zero_iff, List.length_take, encode_group_length]
        omega
      · exact (mem_encode_group hle (List.mem_of_mem_take hc)).2
    rw [base32_out_len, hcount, encode32_length]
    obtain h | h | h | h | h : chunk.length = 1 ∨ chunk.length = 2 ∨ chunk.length = 3
        ∨ chunk.length = 4 ∨ chunk.length = 5 := by omega
    all_goals
      rw [h]
      simp [padding]
      omega

/-- The bytes of a group, where its characters have values. -/
def decoded_group (chunk : List UInt8) : List UInt8 := group_bytes ((group_value chunk).getD 0)

theorem decoded_padded_group {chunk : List UInt8} (h : chunk.length ≤ 5) :
    decoded_group (padded_group chunk) = chunk ++ List.replicate (5 - chunk.length) 0 := by
  obtain ⟨b, hvalue, hbytes⟩ := decode_padded_group h
  rw [decoded_group, hvalue, Option.getD_some, hbytes]

theorem chunks_encode32 (x : List UInt8) :
    chunks 8 (encode32 x) = (chunks 5 x).map padded_group := by
  rw [encode32, List.flatMap_def]
  apply chunks_flatten (by decide)
  intro c hc
  obtain ⟨chunk, -, rfl⟩ := List.mem_map.mp hc
  exact padded_group_length chunk

theorem decode_encode32 (x : List UInt8) :
    ((chunks 8 (encode32 x)).flatMap decoded_group).take x.length = x := by
  obtain ⟨k, hk⟩ := flatMap_chunks_filled (n := 5) (by decide) (0 : UInt8) x
  rw [chunks_encode32, List.flatMap_map, List.flatMap_congr fun chunk hchunk =>
    decoded_padded_group (length_le_of_mem_chunks hchunk), hk]
  exact List.take_left

theorem base32_round_trip {malloc malloc' : Malloc} (hmalloc : ∀ n, malloc n ≠ none)
    (hmalloc' : ∀ n, malloc' n ≠ none) (x : List UInt8) :
    ∃ text, base32_encode malloc x = some (some (text ++ [0], text.length))
      ∧ base32_decode malloc' text = some (some (x ++ [0], x.length)) := by
  have hlen : (strip (encode32 x)).length % 8 = 0 := by
    rw [strip_encode32, encode32_length, Nat.mul_mod_right]
  have hgroups : ∀ c ∈ chunks 8 (strip (encode32 x)),
      ∃ b, group_value c = some b ∧ group_bytes b = decoded_group c := by
    intro c hc
    rw [strip_encode32, chunks_encode32] at hc
    obtain ⟨chunk, hchunk, rfl⟩ := List.mem_map.mp hc
    have hle := length_le_of_mem_chunks hchunk
    obtain ⟨b, hvalue, hbytes⟩ := decode_padded_group hle
    exact ⟨b, hvalue, hbytes.trans (decoded_padded_group hle).symm⟩
  refine ⟨encode32 x, base32_encode_eq hmalloc x, ?_⟩
  rw [base32_decode_eq hmalloc' hlen decoded_group hgroups, strip_encode32,
    base32_out_len_encode32, decode_encode32]

/-- **Round trips.** With memory for their results, the encoders return a text, the decoders take
it back to the data, and all that is written is inside of the blocks. -/
theorem decode_encode {malloc malloc' : Malloc} (hmalloc : ∀ n, malloc n ≠ none)
    (hmalloc' : ∀ n, malloc' n ≠ none) (x : List UInt8) :
    (∃ text, base64_encode malloc x = some (some (text ++ [0], text.length))
      ∧ base64_decode malloc' text = some (some (x ++ [0], x.length)))
    ∧ ∃ text, base32_encode malloc x = some (some (text ++ [0], text.length))
      ∧ base32_decode malloc' text = some (some (x ++ [0], x.length)) :=
  ⟨base64_round_trip hmalloc hmalloc' x, base32_round_trip hmalloc hmalloc' x⟩

/-- Memory that is never short. -/
def some_memory : Malloc := fun n => some (Vector.replicate n 0xAA)

theorem decode_encode_hello :
    ∃ text, base64_encode some_memory (ascii "hello") = some (some (text ++ [0], text.length))
      ∧ base64_decode some_memory text = some (some (ascii "hello" ++ [0], 5)) :=
  (decode_encode (fun _ => Option.some_ne_none _) (fun _ => Option.some_ne_none _)
    (ascii "hello")).1

end SysInC.B64
