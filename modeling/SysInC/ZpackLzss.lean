/-
`lzss1_decompress` of `zpack.c`, over the buffer it writes.

Every index is in range, and all that a run does not write itself it can only see through a back
reference of distance 0: `dist > (int)out_pos` lets that one pass, and it leaves the old bytes among
the output. Without one, a run is a function of `src` and `dst_max` (`lzss1_determined_iff`).
-/
import SysInC.LzBuffer
import SysInC.Zpack

set_option autoImplicit false

namespace SysInC.Zpack

open LzBuffer

/-! ## The source -/

/-- A turn of the inner loop up to its write: the position behind what is read of `src`, and what
is written. Without the latter the loop ends, through its condition or a `break`. -/
def lzss1_item (src : List UInt8) (dst_max : ℕ) (flags : UInt8) (bit in_pos out_pos : ℕ) :
    ℕ × Option (Item UInt8) :=
  if h : in_pos < src.length ∧ out_pos < dst_max then
    if flags.toNat &&& 1 <<< bit ≠ 0 then
      if h1 : in_pos + 1 < src.length then
        let token := (src[in_pos].toNat <<< 8 ||| src[in_pos + 1].toNat) % 65536
        let dist := token >>> 4 &&& 0x0FFF
        let len := (token &&& 0x0F) + 3
        if to_int32 out_pos < dist ∨ dst_max < out_pos + len then (in_pos + 2, none)
        else (in_pos + 2, some (.reference dist len))
      else (in_pos, none)
    else (in_pos + 1, some (.literal src[in_pos]))
  else (in_pos, none)

variable {dst_max : ℕ}

/-- The last turns of the inner loop; `out_pos` and `dst` are a pair. -/
def lzss1_bits (src : List UInt8) (flags : UInt8) :
    ℕ → ℕ → ℕ × (Fin dst_max → UInt8) → Option (ℕ × ℕ × (Fin dst_max → UInt8))
  | 0, in_pos, s => some (in_pos, s)
  | left + 1, in_pos, s =>
    match lzss1_item src dst_max flags (7 - left) in_pos s.1 with
    | (in_pos, none) => some (in_pos, s)
    | (in_pos, some item) => (put s item).bind fun s => lzss1_bits src flags left in_pos s

theorem le_lzss1_item (src : List UInt8) (dst_max : ℕ) (flags : UInt8) (bit in_pos out_pos : ℕ) :
    in_pos ≤ (lzss1_item src dst_max flags bit in_pos out_pos).1 := by
  simp only [lzss1_item]
  split_ifs <;> simp only <;> omega

theorem le_lzss1_bits {src : List UInt8} {flags : UInt8} {left in_pos in_pos' : ℕ}
    {s s' : ℕ × (Fin dst_max → UInt8)}
    (h : lzss1_bits src flags left in_pos s = some (in_pos', s')) :
    in_pos ≤ in_pos' := by
  induction left generalizing in_pos s with
  | zero =>
      cases h
      exact le_rfl
  | succ left ih =>
      have hle := le_lzss1_item src dst_max flags (7 - left) in_pos s.1
      rw [lzss1_bits] at h
      split at h
      · next pos hitem =>
        rw [hitem] at hle
        cases h
        exact hle
      · next pos item hitem =>
        rw [hitem] at hle
        obtain ⟨mid, -, h⟩ := Option.bind_eq_some_iff.mp h
        exact hle.trans (ih h)

def lzss1_loop (src : List UInt8) (in_pos : ℕ) (s : ℕ × (Fin dst_max → UInt8)) :
    Option (ℕ × (Fin dst_max → UInt8)) :=
  if h : in_pos < src.length ∧ s.1 < dst_max then
    match _hs : lzss1_bits src src[in_pos] 8 (in_pos + 1) s with
    | none => none
    | some (in_pos, s) => lzss1_loop src in_pos s
  else some s
termination_by src.length - in_pos
decreasing_by
  have := le_lzss1_bits _hs
  omega

/-- The value returned, and `dst` after the run. `dst` has `dst_max` places, so that `none` is a
write that is not below `dst_max`, or a read. -/
def lzss1_decompress (src : List UInt8) (dst : Fin dst_max → UInt8) :
    Option (ℕ × (Fin dst_max → UInt8)) :=
  lzss1_loop src 0 (0, dst)

/-! ## The items of a stream

Where the loops go next does not depend on what is in `dst`. -/

/-- What the last turns of the inner loop write, and where they end in `src`. -/
def bits_items (src : List UInt8) (dst_max : ℕ) (flags : UInt8) :
    ℕ → ℕ → ℕ → ℕ × List (Item UInt8)
  | 0, in_pos, _ => (in_pos, [])
  | left + 1, in_pos, out_pos =>
    match lzss1_item src dst_max flags (7 - left) in_pos out_pos with
    | (in_pos, none) => (in_pos, [])
    | (in_pos, some item) =>
      let r := bits_items src dst_max flags left in_pos (out_pos + item.size)
      (r.1, item :: r.2)

theorem le_bits_items (src : List UInt8) (dst_max : ℕ) (flags : UInt8) (left in_pos out_pos : ℕ) :
    in_pos ≤ (bits_items src dst_max flags left in_pos out_pos).1 := by
  induction left generalizing in_pos out_pos with
  | zero => exact le_rfl
  | succ left ih =>
      have hle := le_lzss1_item src dst_max flags (7 - left) in_pos out_pos
      rw [bits_items]
      split
      · next hitem =>
        rw [hitem] at hle
        exact hle
      · next item hitem =>
        rw [hitem] at hle
        exact hle.trans (ih _ _)

/-- The literals and the references that are followed, from a position on. -/
def items_from (src : List UInt8) (dst_max in_pos out_pos : ℕ) : List (Item UInt8) :=
  if h : in_pos < src.length ∧ out_pos < dst_max then
    let r := bits_items src dst_max src[in_pos] 8 (in_pos + 1) out_pos
    r.2 ++ items_from src dst_max r.1 (out_pos + total r.2)
  else []
termination_by src.length - in_pos
decreasing_by
  have := le_bits_items src dst_max src[in_pos] 8 (in_pos + 1) out_pos
  omega

def lzss1_items (src : List UInt8) (dst_max : ℕ) : List (Item UInt8) := items_from src dst_max 0 0

theorem to_int32_le (n : ℕ) : to_int32 n ≤ n := by
  unfold to_int32
  split
  · omega
  · omega

/-- The checks of a turn. The distance 0 passes them. -/
theorem fits_of_lzss1_item {src : List UInt8} {flags : UInt8} {bit in_pos in_pos' out_pos : ℕ}
    {item : Item UInt8}
    (h : lzss1_item src dst_max flags bit in_pos out_pos = (in_pos', some item)) :
    item.Fits dst_max out_pos := by
  have hcast := to_int32_le out_pos
  simp only [lzss1_item] at h
  split_ifs at h with hloop hflag hread hcheck
  · simp at h
  · simp only [Prod.mk.injEq, Option.some.injEq] at h
    rw [← h.2]
    refine ⟨Nat.succ_pos _, ?_, ?_⟩
    · omega
    · omega
  · simp at h
  · simp only [Prod.mk.injEq, Option.some.injEq] at h
    rw [← h.2]
    exact hloop.2
  · simp at h

theorem bits_fit (src : List UInt8) (flags : UInt8) (left in_pos out_pos : ℕ) :
    AllFit dst_max out_pos (bits_items src dst_max flags left in_pos out_pos).2 := by
  induction left generalizing in_pos out_pos with
  | zero => trivial
  | succ left ih =>
      rw [bits_items]
      split
      · trivial
      · next hitem => exact ⟨fits_of_lzss1_item hitem, ih _ _⟩

theorem items_fit (src : List UInt8) (in_pos out_pos : ℕ) :
    AllFit dst_max out_pos (items_from src dst_max in_pos out_pos) := by
  fun_induction items_from src dst_max in_pos out_pos with
  | case1 in_pos out_pos h r ih => exact (bits_fit src src[in_pos] 8 (in_pos + 1) out_pos).append ih
  | case2 in_pos out_pos h => trivial

/-! ## The runs are those of the items -/

theorem bits_eq (src : List UInt8) (flags : UInt8) (left in_pos : ℕ)
    (s : ℕ × (Fin dst_max → UInt8)) :
    lzss1_bits src flags left in_pos s
      = ((bits_items src dst_max flags left in_pos s.1).2.foldlM put s).map
          (Prod.mk (bits_items src dst_max flags left in_pos s.1).1) := by
  induction left generalizing in_pos s with
  | zero => rfl
  | succ left ih =>
      rw [lzss1_bits, bits_items]
      split
      · rfl
      · next pos item hitem =>
        rw [List.foldlM_cons]
        cases hput : put s item with
        | none => rfl
        | some s' =>
          rw [Option.bind_some, ih, put_fst hput]
          rfl

theorem loop_eq (src : List UInt8) (in_pos : ℕ) (s : ℕ × (Fin dst_max → UInt8)) :
    lzss1_loop src in_pos s = (items_from src dst_max in_pos s.1).foldlM put s := by
  fun_induction lzss1_loop src in_pos s with
  | case1 in_pos s h hbits =>
      rw [bits_eq, Option.map_eq_none_iff] at hbits
      rw [items_from, dif_pos h, List.foldlM_append, hbits]
      rfl
  | case2 in_pos s h in_pos' s' hbits ih =>
      rw [bits_eq, Option.map_eq_some_iff] at hbits
      obtain ⟨mid, hmid, heq⟩ := hbits
      obtain ⟨hpos, rfl⟩ := Prod.mk.inj heq
      rw [items_from, dif_pos h, List.foldlM_append, hmid, ih, run_fst hmid, ← hpos]
      rfl
  | case3 in_pos s h =>
      rw [items_from, dif_neg h]
      rfl

/-- Every run returns, with the length of what its items write. -/
theorem lzss1_decompress_returns (src : List UInt8) (dst : Fin dst_max → UInt8) :
    ∃ r, lzss1_decompress src dst = some (total (lzss1_items src dst_max), r) := by
  obtain ⟨r, hr, -⟩ := run_outside dst (items_fit src 0 0)
  rw [Nat.zero_add] at hr
  exact ⟨r, by rw [lzss1_decompress, loop_eq]; exact hr⟩

instance nontrivial_uint8 : Nontrivial UInt8 := ⟨0, 1, by decide⟩

/-- **The legacy decoder.** A run stays within `src` and `dst_max` and gives the same for every
content of `dst` exactly when no back reference that is followed has the distance 0. -/
theorem lzss1_determined_iff (src : List UInt8) (dst_max : ℕ) :
    Determined (fun dst : Fin dst_max → UInt8 => lzss1_decompress src dst)
      ↔ ∀ item ∈ lzss1_items src dst_max, ¬item.Stale := by
  unfold lzss1_decompress
  simp only [loop_eq]
  exact determined_iff (items_fit src 0 0)

/-- A flag byte, and a reference of distance 0 and length 3. -/
def stale_stream : List UInt8 := [1, 0, 0]

theorem stale_items : lzss1_items stale_stream 3 = [.reference 0 3] := by
  have hbits : bits_items stale_stream 3 1 8 1 0 = (3, [.reference 0 3]) := rfl
  have hend : ¬(3 < stale_stream.length ∧ 0 + total [Item.reference (α := UInt8) 0 3] < 3) := by
    decide
  have hbegin : 0 < stale_stream.length ∧ 0 < 3 := by decide
  have hflags : stale_stream[0] = 1 := rfl
  rw [lzss1_items, items_from, dif_pos hbegin, hflags, hbits]
  dsimp only
  rw [items_from, dif_neg hend, List.append_nil]

/-- Its three bytes are returned as they were. -/
theorem not_determined_stale : ¬∀ (src : List UInt8) (dst_max : ℕ),
    Determined fun dst : Fin dst_max → UInt8 => lzss1_decompress src dst := by
  intro hall
  have hdet := hall stale_stream 3
  unfold lzss1_decompress at hdet
  simp only [loop_eq] at hdet
  have hfresh := (determined_iff (items_fit stale_stream 0 0)).mp hdet
  rw [← lzss1_items, stale_items] at hfresh
  exact hfresh (.reference 0 3) (List.mem_singleton.mpr rfl) rfl

end SysInC.Zpack
