/-
The order in which `generate_qr_code` fills its modules.

The loop visits the pairs of columns as a reader does. A module that is not reserved takes the next
bit of the codewords, and no module is visited twice, so that the bits can be read off again in
that order.
-/
import SysInC.QrStandard
import Mathlib.Data.List.Nodup

set_option autoImplicit false

namespace SysInC.Qr

/-! ## The order -/

def fill_at (codewords : List ℕ) (reserved : Grid) (s : Filling) (p : ℕ × ℕ) : Filling :=
  fill_module codewords reserved s p.1 p.2

def column_modules (size c r : ℕ) (up : Bool) : List (ℕ × ℕ) :=
  (List.range size).flatMap fun i => (List.range 2).map fun col_offset =>
    (if up = true then r - i else r + i, c - col_offset)

/-- The modules that the loop visits. -/
def loop_modules (size : ℕ) : ℕ → ℕ → ℕ → Bool → List (ℕ × ℕ)
  | 0, _, _, _ => []
  | fuel + 1, c, r, up =>
      if c = 0 then []
      else
        let c := if c = 6 then c - 1 else c
        column_modules size c r up ++
          loop_modules size fuel (c - 2) (if up = true then 0 else size - 1) (!up)

theorem fill_columns_eq (codewords : List ℕ) (reserved : Grid) (size c r : ℕ) (up : Bool)
    (s : Filling) : fill_columns codewords reserved size c r up s =
      (column_modules size c r up).foldl (fill_at codewords reserved) s := by
  rw [column_modules, List.foldl_flatMap]
  rfl

theorem fill_loop_eq (codewords : List ℕ) (reserved : Grid) (size fuel c r : ℕ) (up : Bool)
    (s : Filling) : fill_loop codewords reserved size fuel c r up s =
      (loop_modules size fuel c r up).foldl (fill_at codewords reserved) s := by
  induction fuel generalizing c r up s with
  | zero => rfl
  | succ fuel ih =>
      rw [fill_loop, loop_modules]
      split
      · rfl
      · dsimp only
        rw [ih, fill_columns_eq, List.foldl_append]

/-- All modules in a reader's order, those of the function patterns included. -/
def all_modules (size : ℕ) : List (ℕ × ℕ) :=
  (List.range ((size - 1) / 2)).flatMap (pair_modules size)

/-- **The loop visits the modules in a reader's order.** -/
theorem loop_modules_eq {v : QRVersionInfo} (hv : v ∈ qr_versions) :
    loop_modules v.size v.size (v.size - 1) (v.size - 1) true = all_modules v.size := by
  revert v
  decide +kernel

/-! ## No module twice -/

theorem pair_column_gap {size k k' : ℕ} (hlt : k < k') (hk : k' < (size - 1) / 2) :
    pair_column size k' < pair_column size k - 1 ∧ 0 < pair_column size k' := by
  unfold pair_column
  split
  · split
    · omega
    · omega
  · split
    · omega
    · omega

theorem mem_pair_modules {size k : ℕ} {p : ℕ × ℕ} (h : p ∈ pair_modules size k) :
    p.1 < size ∧ (p.2 = pair_column size k ∨ p.2 = pair_column size k - 1) := by
  obtain ⟨i, hi, hp⟩ := List.mem_flatMap.mp h
  rw [List.mem_range] at hi
  have hrow : (if k % 2 = 0 then size - 1 - i else i) < size := by
    split
    · omega
    · exact hi
  rcases List.mem_cons.mp hp with rfl | hp
  · exact ⟨hrow, Or.inl rfl⟩
  · rw [List.mem_singleton.mp hp]
    exact ⟨hrow, Or.inr rfl⟩

theorem pair_modules_nodup {size k : ℕ} (hk : k < (size - 1) / 2) :
    (pair_modules size k).Nodup := by
  have hcolumn : pair_column size k ≠ pair_column size k - 1 := by
    unfold pair_column
    split
    · omega
    · omega
  refine List.nodup_flatMap.mpr ⟨fun i _ => ?_, ?_⟩
  · rw [List.nodup_cons, List.mem_singleton]
    exact ⟨fun h => hcolumn (congrArg Prod.snd h), List.nodup_singleton _⟩
  · refine List.Pairwise.imp_of_mem (fun {i j} hi hj hne => ?_) List.nodup_range
    rw [List.mem_range] at hi hj
    intro p hp hp'
    have hrow : (if k % 2 = 0 then size - 1 - i else i) = if k % 2 = 0 then size - 1 - j else j := by
      have hfst : ∀ {a : ℕ}, p ∈ [(a, pair_column size k), (a, pair_column size k - 1)] →
          p.1 = a := by
        intro a hmem
        rcases List.mem_cons.mp hmem with rfl | hmem
        · rfl
        · rw [List.mem_singleton.mp hmem]
      exact (hfst hp).symm.trans (hfst hp')
    split at hrow
    · omega
    · exact hne hrow

theorem all_modules_nodup (size : ℕ) : (all_modules size).Nodup := by
  refine List.nodup_flatMap.mpr ⟨fun k hk => pair_modules_nodup (List.mem_range.mp hk), ?_⟩
  refine List.Pairwise.imp_of_mem (fun {k k'} hk hk' hlt => ?_)
    (List.pairwise_lt_range (n := (size - 1) / 2))
  intro p hp hp'
  have hgap := pair_column_gap hlt (List.mem_range.mp hk')
  have hcol := (mem_pair_modules hp).2
  have hcol' := (mem_pair_modules hp').2
  omega

/-! ## The bits of the modules -/

/-- The bit that the `i`-th free module gets, and none behind the last codeword. -/
def filled_bit (codewords : List ℕ) (i : ℕ) : Bool :=
  if i < codewords.length * 8 then codeword_bit codewords i else false

theorem fill_at_reserved {codewords : List ℕ} {reserved : Grid} {s : Filling} {p : ℕ × ℕ}
    (h : reserved p.1 p.2 = true) : fill_at codewords reserved s p = s := if_pos h

/-- Modules that are reserved are passed over. -/
theorem fill_filter (codewords : List ℕ) (reserved : Grid) (modules : List (ℕ × ℕ))
    (s : Filling) : modules.foldl (fill_at codewords reserved) s =
      (modules.filter fun p => !reserved p.1 p.2).foldl (fill_at codewords reserved) s := by
  induction modules generalizing s with
  | nil => rfl
  | cons p modules ih =>
      rw [List.foldl_cons, List.filter_cons]
      split
      · rw [List.foldl_cons, ih]
      · next h =>
          rw [Bool.not_eq_true, Bool.not_eq_false'] at h
          rw [fill_at_reserved h, ih]

theorem fill_at_free {codewords : List ℕ} {reserved : Grid} {s : Filling} {p : ℕ × ℕ}
    (h : reserved p.1 p.2 = false) (hidx : s.bit_idx ≤ codewords.length * 8) :
    (fill_at codewords reserved s p).grid = put s.grid p.1 p.2
        (filled_bit codewords s.bit_idx ^^ decide ((p.1 + p.2) % 2 = 0)) ∧
      (fill_at codewords reserved s p).bit_idx = min (s.bit_idx + 1) (codewords.length * 8) := by
  unfold fill_at fill_module filled_bit
  rw [h, if_neg Bool.false_ne_true]
  split
  · next hlt => exact ⟨rfl, (Nat.min_eq_left hlt).symm⟩
  · next hge => exact ⟨rfl, by dsimp only; omega⟩

/-- What is not visited stays. -/
theorem fill_other {codewords : List ℕ} {reserved : Grid} {modules : List (ℕ × ℕ)}
    {p : ℕ × ℕ} (h : p ∉ modules) (s : Filling) :
    (modules.foldl (fill_at codewords reserved) s).grid p.1 p.2 = s.grid p.1 p.2 := by
  induction modules generalizing s with
  | nil => rfl
  | cons q modules ih =>
      rw [List.mem_cons, not_or] at h
      rw [List.foldl_cons, ih h.2]
      have hput (b : Bool) : put s.grid q.1 q.2 b p.1 p.2 = s.grid p.1 p.2 :=
        if_neg fun hsame => h.1 (Prod.ext hsame.1 hsame.2)
      unfold fill_at fill_module
      split
      · rfl
      split
      · exact hput _
      · exact hput _

/-- **Each free module holds its bit.** -/
theorem fill_value {codewords : List ℕ} {reserved : Grid} {modules : List (ℕ × ℕ)}
    (hnodup : modules.Nodup) (hfree : ∀ p ∈ modules, reserved p.1 p.2 = false) {s : Filling}
    (hidx : s.bit_idx ≤ codewords.length * 8) {i : ℕ} {p : ℕ × ℕ} (hp : modules[i]? = some p) :
    (modules.foldl (fill_at codewords reserved) s).grid p.1 p.2 =
      (filled_bit codewords (s.bit_idx + i) ^^ decide ((p.1 + p.2) % 2 = 0)) := by
  induction modules generalizing s i with
  | nil => exact nomatch hp
  | cons q modules ih =>
      rw [List.nodup_cons] at hnodup
      rw [List.forall_mem_cons] at hfree
      obtain ⟨hgrid, hnext⟩ := fill_at_free hfree.1 hidx
      rw [List.foldl_cons]
      cases i with
      | zero =>
          obtain rfl := Option.some.inj hp
          rw [fill_other hnodup.1, hgrid, put, if_pos ⟨rfl, rfl⟩, Nat.add_zero]
      | succ i =>
          have hlast : (fill_at codewords reserved s q).bit_idx ≤ codewords.length * 8 := by
            rw [hnext]
            exact Nat.min_le_right _ _
          rw [ih hnodup.2 hfree.2 hlast hp, hnext]
          congr 1
          unfold filled_bit
          split
          · next hlt =>
              rw [if_pos (by omega)]
              congr 1
              omega
          · next hge => rw [if_neg (by omega)]

/-! ## The indicator of the mode -/

/-- The first four bits are those of the byte mode. -/
def ByteMode (codewords : List ℕ) : Prop := ∀ i < 4, codeword_bit codewords i = decide (i = 1)

/-- The bit stream behind the indicator. -/
structure Begun (s : BitStream) : Prop where
  past : 4 ≤ s.bit_pos
  room : s.data_bytes.length = 128
  mode : ByteMode s.data_bytes

theorem codeword_bit_set {codewords : List ℕ} {k b i : ℕ}
    (h : k = 0 → b.testBit (7 - i) = codeword_bit codewords i) (hi : i < 4) :
    codeword_bit (codewords.set k b) i = codeword_bit codewords i := by
  have hbyte : i / 8 = 0 := by omega
  have hbit : i % 8 = i := by omega
  unfold codeword_bit at h ⊢
  rw [hbyte, hbit] at h ⊢
  by_cases hk : k = 0
  · subst hk
    cases codewords with
    | nil => rfl
    | cons c codewords => exact h rfl
  · rw [List.getD_eq_getElem?_getD, List.getD_eq_getElem?_getD, List.getElem?_set_ne hk]

theorem write_bit_begun {s : BitStream} (h : Begun s) (bit : Bool) : Begun (write_bit bit s) := by
  have hpast := h.past
  refine ⟨Nat.le_succ_of_le h.past, ?_, fun i hi => ?_⟩
  · unfold write_bit
    split
    · rw [List.length_set, h.room]
    · exact h.room
  · rw [← h.mode i hi]
    unfold write_bit
    split
    · refine codeword_bit_set (fun hfirst => ?_) hi
      -- the bit that is set lies below the indicator
      have hbelow : decide (7 - s.bit_pos % 8 = 7 - i) = false := by
        rw [decide_eq_false_iff_not]
        omega
      have hbyte : i / 8 = 0 := by omega
      have hbit : i % 8 = i := by omega
      rw [Nat.testBit_or, Nat.one_shiftLeft, Nat.testBit_two_pow, hfirst, hbelow,
        Bool.or_false, codeword_bit, hbyte, hbit]
    · rfl

theorem write_bits_begun {s : BitStream} (h : Begun s) (val count : ℕ) :
    Begun (write_bits val count s) := by
  induction count generalizing s with
  | zero => exact h
  | succ count ih => exact ih (write_bit_begun h _)

theorem write_bits_bit_pos (val count : ℕ) (s : BitStream) :
    (write_bits val count s).bit_pos = s.bit_pos + count := by
  induction count generalizing s with
  | zero => rfl
  | succ count ih =>
      rw [write_bits, ih, write_bit]
      dsimp only
      omega

theorem write_text_begun (text : List UInt8) (data_cw_count : ℕ) :
    Begun (write_text text data_cw_count) ∧ 12 ≤ (write_text text data_cw_count).bit_pos := by
  -- what holds behind the length holds after any further bits
  have hkeep {s : BitStream} (h : Begun s ∧ 12 ≤ s.bit_pos) (val count : ℕ) :
      Begun (write_bits val count s) ∧ 12 ≤ (write_bits val count s).bit_pos := by
    refine ⟨write_bits_begun h.1 val count, ?_⟩
    rw [write_bits_bit_pos]
    exact Nat.le_add_right_of_le h.2
  have hmode : Begun (write_bits 0x4 4 ⟨List.replicate 128 0, 0⟩) :=
    ⟨by decide, rfl, by unfold ByteMode; decide⟩
  have hlength : Begun (write_bits text.length 8 (write_bits 0x4 4 ⟨List.replicate 128 0, 0⟩)) ∧
      12 ≤ (write_bits text.length 8 (write_bits 0x4 4 ⟨List.replicate 128 0, 0⟩)).bit_pos := by
    have hpos : (write_bits text.length 8 (write_bits 0x4 4 ⟨List.replicate 128 0, 0⟩)).bit_pos = 12 :=
      (write_bits_bit_pos _ 8 _).trans (congrArg (· + 8) (write_bits_bit_pos _ 4 _))
    exact ⟨write_bits_begun hmode _ _, Nat.le_of_eq hpos.symm⟩
  have hbytes : ∀ (text : List UInt8) (s : BitStream), Begun s ∧ 12 ≤ s.bit_pos →
      Begun (text.foldl (fun s c => write_bits c.toNat 8 s) s) ∧
        12 ≤ (text.foldl (fun s c => write_bits c.toNat 8 s) s).bit_pos := by
    intro text
    induction text with
    | nil => exact fun s h => h
    | cons c text ih => exact fun s h => ih _ (hkeep h _ _)
  unfold write_text
  dsimp only
  split
  · exact hkeep (hkeep (hbytes text _ hlength) _ _) _ _
  · exact hkeep (hbytes text _ hlength) _ _

theorem pad_bytes_mode {s : BitStream} (h : Begun s) (hpos : 12 ≤ s.bit_pos)
    (data_cw_count : ℕ) : ByteMode (pad_bytes data_cw_count s) ∧
      (pad_bytes data_cw_count s).length = 128 := by
  unfold pad_bytes
  dsimp only
  generalize hpositions : List.range' (s.bit_pos / 8) (data_cw_count - s.bit_pos / 8) = positions
  have hbehind : ∀ i ∈ positions, 1 ≤ i := by
    intro i hi
    rw [← hpositions, List.mem_range'_1] at hi
    omega
  clear hpositions
  have hmode := h.mode
  have hroom := h.room
  generalize s.data_bytes = data_bytes at hmode hroom
  induction positions generalizing data_bytes with
  | nil => exact ⟨hmode, hroom⟩
  | cons k positions ih =>
      rw [List.forall_mem_cons] at hbehind
      refine ih hbehind.2 _ (fun i hi => ?_) (by rw [List.length_set, hroom])
      rw [codeword_bit_set (fun hk => absurd hbehind.1 (by omega)) hi, hmode i hi]

theorem all_codewords_mode (text : List UInt8) {v : QRVersionInfo} (hv : v ∈ qr_versions) :
    ByteMode (all_codewords text v) ∧ 0 < (all_codewords text v).length := by
  have hdata : ∀ v ∈ qr_versions, 0 < v.data_cw := by decide
  obtain ⟨hbegun, hpos⟩ := write_text_begun text v.data_cw
  obtain ⟨hmode, hlength⟩ := pad_bytes_mode hbegun hpos v.data_cw
  unfold all_codewords
  generalize pad_bytes v.data_cw (write_text text v.data_cw) = data at hmode hlength
  obtain ⟨c, data, rfl⟩ := List.exists_cons_of_length_eq_add_one hlength
  obtain ⟨n, hn⟩ := Nat.exists_eq_add_one_of_ne_zero (Nat.ne_of_gt (hdata v hv))
  rw [hn, List.take_succ_cons]
  refine ⟨fun i hi => ?_, Nat.zero_lt_succ _⟩
  have hbyte : i / 8 = 0 := by omega
  rw [← hmode i hi, codeword_bit, codeword_bit, hbyte]
  rfl

/-! ## What a reader finds -/

/-- The modules that the generator fills, in its order. -/
def free_modules (v : QRVersionInfo) : List (ℕ × ℕ) :=
  (all_modules v.size).filter fun p => !(draw_function_modules v).reserved p.1 p.2

theorem fill_data_apply (codewords : List ℕ) {v : QRVersionInfo} (hv : v ∈ qr_versions) {i : ℕ}
    {p : ℕ × ℕ} (hp : (free_modules v)[i]? = some p) :
    fill_data codewords v.size (draw_function_modules v) p.1 p.2 =
      (filled_bit codewords i ^^ decide ((p.1 + p.2) % 2 = 0)) := by
  have hfree : ∀ p ∈ free_modules v, (draw_function_modules v).reserved p.1 p.2 = false := by
    intro p hp
    have hnot := (List.mem_filter.mp hp).2
    rwa [Bool.not_eq_true'] at hnot
  rw [fill_data, fill_loop_eq, loop_modules_eq hv, fill_filter]
  have hvalue := fill_value ((all_modules_nodup v.size).filter _) hfree
    (s := ⟨(draw_function_modules v).grid, 0⟩) (Nat.zero_le (codewords.length * 8)) hp
  rwa [Nat.zero_add] at hvalue

/-- The first four modules, the same ones for the generator and for a reader. -/
def first_modules (size : ℕ) : List (ℕ × ℕ) :=
  [(size - 1, size - 1), (size - 1, size - 2), (size - 2, size - 1), (size - 2, size - 2)]

theorem free_modules_take : ∀ v ∈ qr_versions, (free_modules v).take 4 = first_modules v.size := by
  decide +kernel

theorem data_modules_take : ∀ v ∈ qr_versions,
    (data_modules v.size).take 4 = first_modules v.size := by
  decide

theorem draw_symbol_first (text : List UInt8) {v : QRVersionInfo} (hv : v ∈ qr_versions) {i : ℕ}
    (hi : i < 4) {p : ℕ × ℕ} (hp : (first_modules v.size)[i]? = some p) :
    draw_symbol text v p.1 p.2 = (decide (i = 1) ^^ decide ((p.1 + p.2) % 2 = 0)) := by
  obtain ⟨hmode, hlength⟩ := all_codewords_mode text hv
  have hunwritten : ∀ v ∈ qr_versions, ∀ p ∈ first_modules v.size,
      (format_writes v.size).lookup p = none := by
    decide
  have hfree : (free_modules v)[i]? = some p := by
    rw [← hp, ← free_modules_take v hv, List.getElem?_take_of_lt hi]
  rw [draw_symbol, write_format_apply, hunwritten v hv p (List.mem_of_getElem? hp),
    Option.getD_none, fill_data_apply _ hv hfree, filled_bit, if_pos (by omega), hmode i hi]

/-- The indicator of the byte mode under mask 0. -/
theorem first_modules_read (text : List UInt8) {v : QRVersionInfo} (hv : v ∈ qr_versions) :
    (first_modules v.size).map (fun p => draw_symbol text v p.1 p.2) =
      [true, true, false, true] := by
  have hparity : ∀ v ∈ qr_versions, (first_modules v.size).map (fun p =>
      decide ((p.1 + p.2) % 2 = 0)) = [true, false, false, true] := by
    decide
  have hmodules := hparity v hv
  simp only [first_modules, List.map_cons, List.map_nil, List.cons.injEq, and_true] at hmodules ⊢
  obtain ⟨h0, h1, h2, h3⟩ := hmodules
  refine ⟨?_, ?_, ?_, ?_⟩
  · rw [draw_symbol_first text hv (by decide : 0 < 4) rfl, h0]
    rfl
  · rw [draw_symbol_first text hv (by decide : 1 < 4) rfl, h1]
    rfl
  · rw [draw_symbol_first text hv (by decide : 2 < 4) rfl, h2]
    rfl
  · rw [draw_symbol_first text hv (by decide : 3 < 4) rfl, h3]
    rfl

/-- Mask 1, which the uncorrected format information names, makes the mode number 1 of it. -/
theorem read_segment_none (text : List UInt8) {v : QRVersionInfo} (hv : v ∈ qr_versions) :
    read_segment (read_modules 1 (draw_symbol text v) (data_modules v.size)) = none := by
  have hflips : ∀ v ∈ qr_versions, (first_modules v.size).map (fun p => mask_flips 1 p.1 p.2) =
      [true, true, false, false] := by
    decide
  have hbits : (read_modules 1 (draw_symbol text v) (data_modules v.size)).take 4 =
      [false, false, false, true] := by
    have hmodules := first_modules_read text hv
    have hmask := hflips v hv
    unfold read_modules
    rw [← List.map_take, data_modules_take v hv]
    simp only [first_modules, List.map_cons, List.map_nil, List.cons.injEq, and_true]
      at hmodules hmask ⊢
    obtain ⟨h0, h1, h2, h3⟩ := hmodules
    obtain ⟨m0, m1, m2, m3⟩ := hmask
    rw [h0, h1, h2, h3, m0, m1, m2, m3]
    exact ⟨rfl, rfl, rfl, rfl⟩
  unfold read_segment
  rw [hbits]
  exact if_neg fun hmode => absurd hmode.1 (by decide)

theorem read_corrected_none (text : List UInt8) {v : QRVersionInfo} (hv : v ∈ qr_versions) :
    read_symbol corrected_mask v.size (draw_symbol text v) = none := by
  have hsides := sides_word (fill_data (all_codewords text v) v.size (draw_function_modules v)) hv
  rw [read_symbol, draw_symbol, corner_word _ hv, corrected_mask_none (Or.inr rfl),
    corrected_mask_none hsides]
  rfl

theorem read_plain_none (text : List UInt8) {v : QRVersionInfo} (hv : v ∈ qr_versions) :
    read_symbol plain_mask v.size (draw_symbol text v) = none := by
  have hword : format_word standard_corner (draw_symbol text v) = 0x11F7 := corner_word _ hv
  have hplain : plain_mask 0x11F7 = some 1 := by decide
  rw [read_symbol, hword, hplain, Option.some_or, Option.bind_some, read_segment_none text hv]

/-- **No reader recovers a text**, whether it corrects the format information or not. -/
theorem unreadable {text : List UInt8} {v : QRVersionInfo} {grid : Grid}
    (h : generate_qr_code text = some (v, grid)) :
    read_symbol corrected_mask v.size grid ≠ some text ∧
      read_symbol plain_mask v.size grid ≠ some text := by
  obtain ⟨v', hv', hdrawn⟩ := Option.map_eq_some_iff.mp h
  obtain ⟨rfl, rfl⟩ := Prod.mk.inj hdrawn
  have hv : v' ∈ qr_versions := List.mem_of_find?_eq_some hv'
  rw [read_corrected_none text hv, read_plain_none text hv]
  exact ⟨(Option.some_ne_none text).symm, (Option.some_ne_none text).symm⟩

theorem unreadable_letter : (∃ grid, generate_qr_code [65] = some (⟨1, 21, 19, 7, 0⟩, grid)) ∧
    read_symbol corrected_mask 21 (draw_symbol [65] ⟨1, 21, 19, 7, 0⟩) ≠ some [65] ∧
      read_symbol plain_mask 21 (draw_symbol [65] ⟨1, 21, 19, 7, 0⟩) ≠ some [65] :=
  ⟨⟨_, rfl⟩, @unreadable [65] ⟨1, 21, 19, 7, 0⟩ _ rfl⟩

/-- The letter `A` is lost. -/
theorem letter_lost : ¬ ∀ (text : List UInt8) (v : QRVersionInfo) (grid : Grid),
    generate_qr_code text = some (v, grid) →
      read_symbol corrected_mask v.size grid = some text := by
  intro h
  have hread := h [65] ⟨1, 21, 19, 7, 0⟩ _ rfl
  rw [read_corrected_none [65] (by decide)] at hread
  exact Option.some_ne_none _ hread.symm

end SysInC.Qr
