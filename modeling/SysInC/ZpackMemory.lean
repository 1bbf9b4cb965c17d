/-
`zpack2_decompress` of `zpack.c`, over the buffer it writes and with the sums of `size_t`.

The lengths are added up in 64 bits, from as many bytes as a stream has. They stay below `2 ^ 64`
where both buffers lie in one address space (`read_ext_eq`), and the run is then that of the decoder
on lists, whatever stands in `dst` (`refines_list`).
-/
import SysInC.LzBuffer
import SysInC.Zpack

set_option autoImplicit false

namespace SysInC.ZpackMemory

open LzBuffer Zpack

/-! ## The source -/

/-- The result of an operation on `size_t`. -/
def size_t (n : ℕ) : ℕ := n % 2 ^ 64

/-- The `do … while (s == 255)` loop; `none` is its `return 0`. -/
def read_ext (src : List UInt8) (in_pos len : ℕ) : Option (ℕ × ℕ) :=
  if h : in_pos < src.length then
    let s := src[in_pos]
    if s = 255 then read_ext src (in_pos + 1) (size_t (len + s.toNat))
    else some (in_pos + 1, size_t (len + s.toNat))
  else none
termination_by src.length - in_pos

def read_len (src : List UInt8) (in_pos nibble : ℕ) : Option (ℕ × ℕ) :=
  if nibble = 15 then read_ext src in_pos nibble else some (in_pos, nibble)

variable {dst_max : ℕ}

/-- How an iteration ends. -/
inductive outcome (dst_max : ℕ) where
  /-- `return` -/
  | ret (n : ℕ) (dst : Fin dst_max → UInt8)
  | next (in_pos out_pos : ℕ) (dst : Fin dst_max → UInt8)

theorem low_lt {src : List UInt8} {in_pos : ℕ} (h : ¬src.length < in_pos + 2) :
    in_pos < src.length := Nat.lt_of_succ_lt (Nat.le_of_not_lt h)

theorem high_lt {src : List UInt8} {in_pos : ℕ} (h : ¬src.length < in_pos + 2) :
    in_pos + 1 < src.length := Nat.le_of_not_lt h

/-- The second half of an iteration, from the test for the end of `src` on. -/
def decompress_match (src : List UInt8) (token : UInt8) (in_pos out_pos : ℕ)
    (dst : Fin dst_max → UInt8) : Option (outcome dst_max) :=
  if src.length ≤ in_pos then some (.ret out_pos dst)
  else if h : src.length < in_pos + 2 then some (.ret 0 dst)
  else
    have hlow := low_lt h
    have hhigh := high_lt h
    let offset := (src[in_pos].toNat ||| (src[in_pos + 1].toNat <<< 8)) % 65536
    if offset = 0 ∨ out_pos < offset then some (.ret 0 dst)
    else
      match read_len src (in_pos + 2) (token.toNat &&& 0x0F) with
      | none => some (.ret 0 dst)
      | some (in_pos, match_len) =>
        let match_len := size_t (match_len + 4)
        if dst_max < size_t (out_pos + match_len) then some (.ret 0 dst)
        else
          (copy_within offset match_len out_pos dst).map fun dst =>
            .next in_pos (out_pos + match_len) dst

def decompress_step (src : List UInt8) (in_pos : ℕ) (h : in_pos < src.length) (out_pos : ℕ)
    (dst : Fin dst_max → UInt8) : Option (outcome dst_max) :=
  let token := src[in_pos]
  match read_len src (in_pos + 1) (token.toNat >>> 4) with
  | none => some (.ret 0 dst)
  | some (in_pos, lit_len) =>
    if dst_max < size_t (out_pos + lit_len) ∨ src.length < size_t (in_pos + lit_len) then
      some (.ret 0 dst)
    else
      (copy_from src lit_len in_pos out_pos dst).bind fun dst =>
        decompress_match src token (in_pos + lit_len) (out_pos + lit_len) dst

/-! ## The lengths -/

theorem size_t_add (m n : ℕ) : size_t (size_t m + n) = size_t (m + n) := Nat.mod_add_mod m _ n

/-- The loop on lists adds up the same length, before it wraps. -/
theorem read_ext_eq (src : List UInt8) (in_pos len : ℕ) :
    read_ext src in_pos (size_t len)
      = (Zpack.read_ext src in_pos len).map (Prod.map id size_t) := by
  fun_induction Zpack.read_ext src in_pos len with
  | case1 in_pos len h s hs ih =>
      rw [read_ext, dif_pos h, ← ih]
      simp only [size_t_add]
      exact if_pos hs
  | case2 in_pos len h s hs =>
      rw [read_ext, dif_pos h]
      simp only [size_t_add]
      exact if_neg hs
  | case3 in_pos len h =>
      rw [read_ext, dif_neg h]
      rfl

theorem read_len_eq (src : List UInt8) (in_pos : ℕ) {nibble : ℕ} (h : nibble < 2 ^ 64) :
    read_len src in_pos nibble
      = (Zpack.read_len src in_pos nibble).map (Prod.map id size_t) := by
  have hsize : size_t nibble = nibble := Nat.mod_eq_of_lt h
  rw [read_len, Zpack.read_len]
  split
  · rw [← read_ext_eq, hsize]
  · rw [Option.map_some, Prod.map_apply, hsize, id]

/-- Each byte of a length that goes on adds at most 255. -/
theorem read_ext_le {src : List UInt8} {i n j m : ℕ} (h : Zpack.read_ext src i n = some (j, m)) :
    j ≤ src.length ∧ m ≤ n + 255 * (j - i) := by
  fun_induction Zpack.read_ext src i n with
  | case1 i n hi s hs ih =>
      have hlt := lt_read_ext h
      have hbyte : s.toNat < 256 := UInt8.toNat_lt s
      obtain ⟨hj, hm⟩ := ih h
      exact ⟨hj, by omega⟩
  | case2 i n hi s hs =>
      obtain ⟨rfl, rfl⟩ := Prod.mk.inj (Option.some.inj h)
      have hbyte : s.toNat < 256 := UInt8.toNat_lt s
      exact ⟨hi, by omega⟩
  | case3 => cases h

theorem read_len_le {src : List UInt8} {i n j m : ℕ} (hi : i ≤ src.length)
    (h : Zpack.read_len src i n = some (j, m)) :
    j ≤ src.length ∧ m ≤ n + 255 * src.length := by
  rw [Zpack.read_len] at h
  split at h
  · obtain ⟨hj, hm⟩ := read_ext_le h
    exact ⟨hj, by omega⟩
  · cases h
    exact ⟨hi, Nat.le_add_right _ _⟩

/-! ## The loop -/

theorem lt_of_decompress_match {src : List UInt8} {token : UInt8} {in_pos out_pos i p : ℕ}
    {dst dst' : Fin dst_max → UInt8}
    (h : decompress_match src token in_pos out_pos dst = some (.next i p dst')) : in_pos < i := by
  simp only [decompress_match, read_len_eq src (in_pos + 2)
    (show token.toNat &&& 0x0F < 2 ^ 64 from Nat.and_lt_two_pow _ (by decide))] at h
  split_ifs at h
  · simp at h
  · simp at h
  · simp at h
  · split at h
    · simp at h
    · next pos len hlen =>
      obtain ⟨r, hr, heq⟩ := Option.map_eq_some_iff.mp hlen
      have hle := le_read_len hr
      split_ifs at h
      · simp at h
      · obtain ⟨buf, -, hnext⟩ := Option.map_eq_some_iff.mp h
        cases heq
        cases hnext
        simp only [id]
        omega

theorem lt_of_decompress_step {src : List UInt8} {in_pos out_pos i p : ℕ} {h : in_pos < src.length}
    {dst dst' : Fin dst_max → UInt8}
    (hstep : decompress_step src in_pos h out_pos dst = some (.next i p dst')) : in_pos < i := by
  simp only [decompress_step, read_len_eq src (in_pos + 1)
    (show src[in_pos].toNat >>> 4 < 2 ^ 64 by have := UInt8.toNat_lt src[in_pos]; omega)] at hstep
  split at hstep
  · simp at hstep
  · next pos len hlen =>
    obtain ⟨r, hr, heq⟩ := Option.map_eq_some_iff.mp hlen
    have hle := le_read_len hr
    split_ifs at hstep
    · simp at hstep
    · obtain ⟨mid, -, hmatch⟩ := Option.bind_eq_some_iff.mp hstep
      have hlt := lt_of_decompress_match hmatch
      cases heq
      simp only [id] at hlt
      omega

def decompress_loop (src : List UInt8) (in_pos out_pos : ℕ) (dst : Fin dst_max → UInt8) :
    Option (ℕ × (Fin dst_max → UInt8)) :=
  if h : in_pos < src.length ∧ out_pos < dst_max then
    match _hs : decompress_step src in_pos h.1 out_pos dst with
    | none => none
    | some (.ret n dst) => some (n, dst)
    | some (.next in_pos out_pos dst) => decompress_loop src in_pos out_pos dst
  else some (out_pos, dst)
termination_by src.length - in_pos
decreasing_by
  have := lt_of_decompress_step _hs
  omega

/-- The value returned, and `dst` after the run. `none` is a read that is not below `src_len`, or
one or a write that is not below `dst_max`. -/
def zpack2_decompress (src : List UInt8) (dst : Fin dst_max → UInt8) :
    Option (ℕ × (Fin dst_max → UInt8)) :=
  decompress_loop src 0 0 dst

/-! ## The decoder on lists -/

/-- Two buffers of one program, whose addresses have at most 56 bits. -/
def InMemory (src_len dst_max : ℕ) : Prop := src_len + dst_max < 2 ^ 56

instance (src_len dst_max : ℕ) : Decidable (InMemory src_len dst_max) :=
  inferInstanceAs (Decidable (_ < _))

/-- An iteration over the buffer ends as one over the list of what is written. -/
def Simulates : outcome dst_max → decompress_outcome → Prop
  | .ret n dst, .fail out => n = 0 ∧ Written dst out
  | .ret n dst, .done out => n = out.length ∧ Written dst out
  | .next i p dst, .next j out => i = j ∧ p = out.length ∧ Written dst out
  | _, _ => False

variable {src out : List UInt8} {dst : Fin dst_max → UInt8}

/-- A length that is read does not wrap, nor does a position behind so many bytes. -/
theorem size_t_of_read_len (hmem : InMemory src.length dst_max) {i nibble j m : ℕ}
    (hi : i ≤ src.length) (hnibble : nibble < 16) (h : Zpack.read_len src i nibble = some (j, m))
    {pos : ℕ} (hpos : pos ≤ src.length ∨ pos ≤ dst_max) {extra : ℕ} (hextra : extra ≤ 4) :
    size_t (pos + (m + extra)) = pos + (m + extra) := by
  obtain ⟨-, hm⟩ := read_len_le hi h
  unfold InMemory at hmem
  refine Nat.mod_eq_of_lt ?_
  omega

theorem match_simulates (hmem : InMemory src.length dst_max) (hdst : Written dst out)
    (token : UInt8) (in_pos : ℕ) :
    ∃ o, decompress_match src token in_pos out.length dst = some o
      ∧ Simulates o (Zpack.decompress_match src dst_max token in_pos out) := by
  have hnibble : token.toNat &&& 0x0F < 16 := Nat.and_lt_two_pow _ (by decide : 15 < 2 ^ 4)
  unfold decompress_match Zpack.decompress_match
  by_cases hend : src.length ≤ in_pos
  · rw [if_pos hend, if_pos hend]
    exact ⟨_, rfl, rfl, hdst⟩
  rw [if_neg hend, if_neg hend]
  by_cases hshort : src.length < in_pos + 2
  · rw [dif_pos hshort, dif_pos hshort]
    exact ⟨_, rfl, rfl, hdst⟩
  rw [dif_neg hshort, dif_neg hshort]
  dsimp only
  generalize (src[in_pos].toNat ||| src[in_pos + 1].toNat <<< 8) % 65536 = offset
  by_cases hoffset : offset = 0 ∨ out.length < offset
  · rw [if_pos hoffset, if_pos hoffset]
    exact ⟨_, rfl, rfl, hdst⟩
  rw [if_neg hoffset, if_neg hoffset, read_len_eq src _ (by omega)]
  cases hlen : Zpack.read_len src (in_pos + 2) (token.toNat &&& 0x0F) with
  | none => exact ⟨_, rfl, rfl, hdst⟩
  | some r =>
    obtain ⟨j, m⟩ := r
    have hlength := size_t_of_read_len hmem (by omega) hnibble hlen (Or.inl (Nat.zero_le _)) le_rfl
    have hsum := size_t_of_read_len hmem (by omega) hnibble hlen (Or.inr hdst.length_le) le_rfl
    rw [Nat.zero_add] at hlength
    simp only [Option.map_some, Prod.map_apply, id, size_t_add, hlength, hsum]
    by_cases hroom : dst_max < out.length + (m + 4)
    · rw [if_pos hroom, if_pos hroom]
      exact ⟨_, rfl, rfl, hdst⟩
    · rw [if_neg hroom, if_neg hroom]
      obtain ⟨buf, hbuf, hwritten⟩ := copy_within_written hdst 0 offset (m + 4) (by omega)
        (by omega) (by omega)
      rw [hbuf]
      exact ⟨_, rfl, rfl, by rw [Lz77.copy_back_length], hwritten⟩

theorem step_simulates (hmem : InMemory src.length dst_max) (hdst : Written dst out) {in_pos : ℕ}
    (h : in_pos < src.length) :
    ∃ o, decompress_step src in_pos h out.length dst = some o
      ∧ Simulates o (Zpack.decompress_step src dst_max in_pos h out) := by
  have hnibble : src[in_pos].toNat >>> 4 < 16 := by
    have := UInt8.toNat_lt src[in_pos]
    omega
  unfold decompress_step Zpack.decompress_step
  dsimp only
  rw [read_len_eq src _ (by omega)]
  cases hlen : Zpack.read_len src (in_pos + 1) (src[in_pos].toNat >>> 4) with
  | none => exact ⟨_, rfl, rfl, hdst⟩
  | some r =>
    obtain ⟨j, m⟩ := r
    have hj := (read_len_le h hlen).1
    have hlength := size_t_of_read_len hmem h hnibble hlen (Or.inl (Nat.zero_le _)) (Nat.zero_le _)
    have hout := size_t_of_read_len hmem h hnibble hlen (Or.inr hdst.length_le) (Nat.zero_le _)
    have hin := size_t_of_read_len hmem h hnibble hlen (Or.inl hj) (Nat.zero_le _)
    rw [Nat.zero_add] at hlength
    rw [Nat.add_zero] at hlength hout hin
    simp only [Option.map_some, Prod.map_apply, id, hlength, hout, hin]
    by_cases hroom : dst_max < out.length + m ∨ src.length < j + m
    · rw [if_pos hroom, if_pos hroom]
      exact ⟨_, rfl, rfl, hdst⟩
    · rw [if_neg hroom, if_neg hroom]
      obtain ⟨buf, hbuf, hwritten⟩ := copy_from_written hdst src j m (by omega) (by omega)
      have hlen' : (out ++ (src.drop j).take m).length = out.length + m := by
        rw [List.length_append, List.length_take, List.length_drop]
        omega
      rw [hbuf, Option.bind_some, ← hlen']
      exact match_simulates hmem hwritten _ _

theorem loop_ret {in_pos out_pos n : ℕ} {dst' : Fin dst_max → UInt8}
    (h : in_pos < src.length ∧ out_pos < dst_max)
    (hstep : decompress_step src in_pos h.1 out_pos dst = some (.ret n dst')) :
    decompress_loop src in_pos out_pos dst = some (n, dst') := by
  rw [decompress_loop, dif_pos h]
  split
  · next heq =>
    rw [hstep] at heq
    cases heq
  · next heq =>
    rw [hstep] at heq
    cases heq
    rfl
  · next heq =>
    rw [hstep] at heq
    cases heq

theorem loop_next {in_pos out_pos i p : ℕ} {dst' : Fin dst_max → UInt8}
    (h : in_pos < src.length ∧ out_pos < dst_max)
    (hstep : decompress_step src in_pos h.1 out_pos dst = some (.next i p dst')) :
    decompress_loop src in_pos out_pos dst = decompress_loop src i p dst' := by
  rw [decompress_loop, dif_pos h]
  split
  · next heq =>
    rw [hstep] at heq
    cases heq
  · next heq =>
    rw [hstep] at heq
    cases heq
  · next heq =>
    rw [hstep] at heq
    cases heq
    rfl

/-- **Refinement.** Over a buffer the decoder returns what the one on lists does, and the buffer
begins with what that one has written. -/
theorem refines_list (hmem : InMemory src.length dst_max) (in_pos : ℕ) (hdst : Written dst out) :
    ∃ dst', decompress_loop src in_pos out.length dst
        = some ((Zpack.decompress_loop src dst_max in_pos out).1, dst')
      ∧ Written dst' (Zpack.decompress_loop src dst_max in_pos out).2 := by
  fun_induction Zpack.decompress_loop src dst_max in_pos out generalizing dst with
  | case1 in_pos out h out' hs =>
      obtain ⟨o, ho, hsim⟩ := step_simulates hmem hdst h.1
      rw [hs] at hsim
      cases o with
      | ret n dst' =>
        obtain ⟨rfl, hwritten⟩ := hsim
        exact ⟨dst', loop_ret h ho, hwritten⟩
      | next => cases hsim
  | case2 in_pos out h out' hs =>
      obtain ⟨o, ho, hsim⟩ := step_simulates hmem hdst h.1
      rw [hs] at hsim
      cases o with
      | ret n dst' =>
        obtain ⟨rfl, hwritten⟩ := hsim
        exact ⟨dst', loop_ret h ho, hwritten⟩
      | next => cases hsim
  | case3 in_pos out h in_pos' out' hs ih =>
      obtain ⟨o, ho, hsim⟩ := step_simulates hmem hdst h.1
      rw [hs] at hsim
      cases o with
      | ret => cases hsim
      | next i p mid =>
        obtain ⟨rfl, rfl, hwritten⟩ := hsim
        rw [loop_next h ho]
        exact ih hwritten
  | case4 in_pos out h =>
      rw [decompress_loop, dif_neg h]
      exact ⟨dst, rfl, hdst⟩

theorem list_length_le (src : List UInt8) (dst_max in_pos : ℕ) (out : List UInt8) :
    (Zpack.decompress_loop src dst_max in_pos out).1
      ≤ (Zpack.decompress_loop src dst_max in_pos out).2.length := by
  fun_induction Zpack.decompress_loop src dst_max in_pos out with
  | case1 => exact Nat.zero_le _
  | case2 => exact le_rfl
  | case3 _ _ _ _ _ _ ih => exact ih
  | case4 => exact le_rfl

/-- **The decoder.** Every stream is decoded within `src` and `dst_max`, to a length and bytes that
do not depend on what was in `dst`. -/
theorem zpack2_decompress_determined (src : List UInt8) (dst_max : ℕ)
    (hmem : InMemory src.length dst_max) :
    Determined fun dst : Fin dst_max → UInt8 => zpack2_decompress src dst :=
  determined_of_written (list_length_le src dst_max 0 []) fun dst =>
    refines_list hmem 0 (written_nil dst)

/-- A literal, and a reference to it that overlaps what it writes. -/
theorem determined_overlap :
    InMemory 4 8 ∧ Determined fun dst : Fin 8 → UInt8 => zpack2_decompress [0x10, 65, 1, 0] dst :=
  ⟨by decide, zpack2_decompress_determined [0x10, 65, 1, 0] 8 (by decide)⟩

end SysInC.ZpackMemory
