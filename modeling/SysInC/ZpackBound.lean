/-
How much of its buffer `zpack2_compress` needs.

An input without a repetition is the worst case: it comes out as one run of literals, whose
extension bytes grow with its length (`literal_cost`). The admission test asks for 64 bytes
beyond the input and the callers give 2048; both are passed by long inputs.

`counters` is an input without a repetition in the window, of any length: blocks of four
bytes with a number in base 64, where every byte shows its place in the block.
-/
import SysInC.ZpackRoundTrip

set_option autoImplicit false

namespace SysInC.Zpack

open SysInC.Lz77

/-- The bytes that an input without repetitions takes. -/
def literal_cost (n : ℕ) : ℕ := if n = 0 then 0 else 1 + (len_bytes n).length + n

theorem tail_bytes_length (lits : List UInt8) :
    (tail_bytes lits).length = literal_cost lits.length := by
  by_cases h : lits = []
  · rw [h]
    rfl
  · rw [tail_bytes, if_neg h, literal_cost, if_neg (by simpa using h), List.length_cons,
      List.length_append]
    omega

/-- Matches are paid by what they save: nothing costs more than the literals alone. -/
theorem literal_cost_ge {anchor n : ℕ} (h : anchor ≤ n) :
    anchor + anchor / 255 + literal_cost (n - anchor) ≤ literal_cost n ∨ n = anchor := by
  simp only [literal_cost, len_bytes_length]
  split_ifs <;> omega

theorem zpack2_compress_length_le (src : List UInt8) (dst_max : ℕ) :
    (zpack2_compress src dst_max).length ≤ literal_cost src.length := by
  by_cases hadm : src.length = 0 ∨ dst_max < src.length + 64
  · rw [zpack2_compress, if_pos hadm]
    exact Nat.zero_le _
  · rw [not_or] at hadm
    obtain ⟨ss, anchor, ha, hbytes, -, -, -, hsize⟩ :=
      zpack2_compress_emits src dst_max (by simpa using hadm.1) (by omega)
    rw [hbytes, List.length_append, tail_bytes_length, List.length_drop]
    rcases literal_cost_ge ha with h | h
    · omega
    · rw [h, Nat.sub_self]
      simp only [literal_cost, len_bytes_length]
      split_ifs <;> omega

/-! ## An input without repetitions -/

/-- Byte `i` of the numbers 0, 1, 2, ... in blocks of four bytes. -/
def counter_byte (i : ℕ) : UInt8 :=
  if i % 4 = 0 then UInt8.ofNat (i / 4 % 64)
  else if i % 4 = 1 then UInt8.ofNat (64 + i / 256 % 64)
  else if i % 4 = 2 then UInt8.ofNat (128 + i / 16384 % 64)
  else 192

def counters (n : ℕ) : List UInt8 := (List.range n).map counter_byte

theorem counters_length (n : ℕ) : (counters n).length = n := by simp [counters]

theorem byte_at_counters {n i : ℕ} (h : i < n) : byte_at (counters n) i = counter_byte i := by
  rw [byte_at, List.getD_eq_getElem _ _ (by rwa [counters_length])]
  simp [counters]

/-- The digit that the byte holds. -/
def counter_digit (i : ℕ) : ℕ :=
  if i % 4 = 0 then i / 4 % 64 else if i % 4 = 1 then i / 256 % 64
  else if i % 4 = 2 then i / 16384 % 64 else 0

theorem counter_digit_lt (i : ℕ) : counter_digit i < 64 := by
  unfold counter_digit
  split_ifs <;> omega

theorem counter_byte_toNat (i : ℕ) : (counter_byte i).toNat = i % 4 * 64 + counter_digit i := by
  unfold counter_byte counter_digit
  split_ifs with h0 h1 h2
  · rw [UInt8.toNat_ofNat']
    omega
  · rw [UInt8.toNat_ofNat']
    omega
  · rw [UInt8.toNat_ofNat']
    omega
  · have h3 : i % 4 = 3 := by omega
    rw [h3]
    rfl

theorem number_inj {a b : ℕ} (hab : a < b) (hnear : b - a < 262144) (h0 : a % 64 = b % 64)
    (h1 : a / 64 % 64 = b / 64 % 64) (h2 : a / 4096 % 64 = b / 4096 % 64) : False := by
  have hlow : a % 4096 = b % 4096 := by omega
  omega

/-- Four bytes in a row tell the position, within the window and far beyond. -/
theorem counter_window_inj {i j : ℕ} (hij : i < j) (hnear : j - i ≤ MAX_DISTANCE)
    (h : ∀ k, k < 4 → counter_byte (i + k) = counter_byte (j + k)) : False := by
  rw [MAX_DISTANCE] at hnear
  have hdigit : ∀ k, k < 4 →
      (i + k) % 4 = (j + k) % 4 ∧ counter_digit (i + k) = counter_digit (j + k) := by
    intro k hk
    have hnat := congrArg UInt8.toNat (h k hk)
    rw [counter_byte_toNat, counter_byte_toNat] at hnat
    have hi := counter_digit_lt (i + k)
    have hj := counter_digit_lt (j + k)
    omega
  obtain ⟨a, r, hr, rfl⟩ : ∃ a r, r < 4 ∧ i = 4 * a + r := ⟨i / 4, i % 4, by omega, by omega⟩
  have hplace := (hdigit 0 (by omega)).1
  obtain ⟨b, rfl⟩ : ∃ b, j = 4 * b + r := ⟨j / 4, by omega⟩
  -- the digits of the block that is begun, and of the next one
  have hfirst : ∀ k, r ≤ k → k < 4 → counter_digit (4 * a + k) = counter_digit (4 * b + k) := by
    intro k hrk hk
    have hd := (hdigit (k - r) (by omega)).2
    rwa [show 4 * a + r + (k - r) = 4 * a + k by omega,
      show 4 * b + r + (k - r) = 4 * b + k by omega] at hd
  have hnext : ∀ k, k < r →
      counter_digit (4 * (a + 1) + k) = counter_digit (4 * (b + 1) + k) := by
    intro k hk
    have hd := (hdigit (4 + k - r) (by omega)).2
    rwa [show 4 * a + r + (4 + k - r) = 4 * (a + 1) + k by omega,
      show 4 * b + r + (4 + k - r) = 4 * (b + 1) + k by omega] at hd
  have hzero (c : ℕ) : counter_digit (4 * c + 0) = c % 64 := by
    rw [counter_digit, if_pos (by omega)]
    omega
  have hone (c : ℕ) : counter_digit (4 * c + 1) = c / 64 % 64 := by
    rw [counter_digit, if_neg (by omega), if_pos (by omega)]
    omega
  have htwo (c : ℕ) : counter_digit (4 * c + 2) = c / 4096 % 64 := by
    rw [counter_digit, if_neg (by omega), if_neg (by omega), if_pos (by omega)]
    omega
  rcases (by omega : r = 0 ∨ r = 1 ∨ r = 2 ∨ r = 3) with rfl | rfl | rfl | rfl
  · have h0 := hfirst 0 (by omega) (by omega)
    have h1 := hfirst 1 (by omega) (by omega)
    have h2 := hfirst 2 (by omega) (by omega)
    rw [hzero, hzero] at h0
    rw [hone, hone] at h1
    rw [htwo, htwo] at h2
    exact number_inj (by omega) (by omega) h0 h1 h2
  · have h0 := hnext 0 (by omega)
    have h1 := hfirst 1 (by omega) (by omega)
    have h2 := hfirst 2 (by omega) (by omega)
    rw [hzero, hzero] at h0
    rw [hone, hone] at h1
    rw [htwo, htwo] at h2
    exact number_inj (by omega) (by omega) (by omega) h1 h2
  · have h0 := hnext 0 (by omega)
    have h1 := hnext 1 (by omega)
    have h2 := hfirst 2 (by omega) (by omega)
    rw [hzero, hzero] at h0
    rw [hone, hone] at h1
    rw [htwo, htwo] at h2
    have hlow : (a + 1) % 4096 = (b + 1) % 4096 := by omega
    exact number_inj (by omega) (by omega) (by omega) (by omega) h2
  · have h0 := hnext 0 (by omega)
    have h1 := hnext 1 (by omega)
    have h2 := hnext 2 (by omega)
    rw [hzero, hzero] at h0
    rw [hone, hone] at h1
    rw [htwo, htwo] at h2
    exact number_inj (by omega) (by omega) h0 h1 h2

/-- No entry of the table matches. -/
theorem compress_step_counters {n : ℕ} {st : compress_state} (h : CompressInv (counters n) st)
    (hin : st.in_pos + 4 ≤ n) :
    (compress_step (counters n) st).anchor = st.anchor
      ∧ (compress_step (counters n) st).dst = st.dst := by
  rw [compress_step]
  split_ifs with hc
  · obtain ⟨hne, hdist, hread⟩ := hc
    rcases h.table (hash4 (read32 (counters n) st.in_pos)) with h1 | ⟨p, hp, h1⟩
    · exact absurd h1 hne
    · have hnear : to_int32 p = p := to_int32_near hp (h1 ▸ hdist)
      rw [h1, hnear] at hdist hread
      refine (counter_window_inj hp ?_ fun k hk => ?_).elim
      · have hd := hdist.2
        omega
      · have hbyte := read32_inj hread k hk
        rwa [Int.toNat_natCast, byte_at_counters (by omega), byte_at_counters (by omega)] at hbyte
  · exact ⟨rfl, rfl⟩

theorem compress_loop_counters {n : ℕ} (dst_max : ℕ) (st : compress_state)
    (h : CompressInv (counters n) st) :
    (compress_loop (counters n) dst_max st).anchor = st.anchor
      ∧ (compress_loop (counters n) dst_max st).dst = st.dst := by
  fun_induction compress_loop (counters n) dst_max st with
  | case1 st hc ih =>
      have hlen := counters_length n
      have hstep := compress_step_counters h (by omega)
      have hrest := ih (compress_step_inv (counters n) st h hc.1)
      exact ⟨hrest.1.trans hstep.1, hrest.2.trans hstep.2⟩
  | case2 => exact ⟨rfl, rfl⟩

/-- The worst case is reached. -/
theorem zpack2_compress_counters {n dst_max : ℕ} (hmax : n + 64 ≤ dst_max) :
    (zpack2_compress (counters n) dst_max).length = literal_cost n := by
  by_cases hn : n = 0
  · rw [hn]
    rfl
  · have hadm : ¬((counters n).length = 0 ∨ dst_max < (counters n).length + 64) := by
      rw [counters_length]
      omega
    obtain ⟨hanchor, hdst⟩ :=
      compress_loop_counters dst_max compress_init (compress_init_inv (counters n))
    rw [zpack2_compress, if_neg hadm]
    simp only [hanchor, hdst]
    rw [emit_tail_eq, List.length_append, tail_bytes_length, List.length_drop, counters_length]
    exact Nat.zero_add _

/-! ## The bound -/

/-- How long an input a fixed slack covers. -/
theorem literal_cost_le_iff {n slack : ℕ} (h : 2 ≤ slack) :
    literal_cost n ≤ n + slack ↔ n < 255 * (slack - 1) + 15 := by
  unfold literal_cost
  rw [len_bytes_length]
  split_ifs <;> omega

/-- **The output bound.** For a length and a buffer that pass the admission test: all inputs of
that length stay inside the buffer exactly when literals alone do. -/
theorem zpack2_compress_within_iff (n dst_max : ℕ) (hmax : n + 64 ≤ dst_max) :
    (∀ src : List UInt8, src.length = n → (zpack2_compress src dst_max).length ≤ dst_max)
      ↔ literal_cost n ≤ dst_max := by
  constructor
  · intro h
    have hworst := h (counters n) (counters_length n)
    rwa [zpack2_compress_counters hmax] at hworst
  · rintro h src rfl
    exact (zpack2_compress_length_le src dst_max).trans h

/-- The longest inputs that 64 bytes of slack cover. -/
theorem zpack2_compress_within_16079 :
    literal_cost 16079 ≤ 16143
      ∧ ∀ src : List UInt8, src.length = 16079 → (zpack2_compress src 16143).length ≤ 16143 := by
  have hcost : literal_cost 16079 ≤ 16143 :=
    (literal_cost_le_iff (by omega : 2 ≤ 64)).mpr (by omega)
  exact ⟨hcost, (zpack2_compress_within_iff 16079 16143 (by omega)).mpr hcost⟩

/-- 522000 bytes without a repetition overrun the 2048 bytes that the callers add. -/
theorem zpack2_compress_overruns :
    ¬∀ (src : List UInt8) (dst_max : ℕ), src.length + 64 ≤ dst_max →
      (zpack2_compress src dst_max).length ≤ dst_max := by
  intro h
  have hlen := counters_length 522000
  have hworst := h (counters 522000) (522000 + 2048) (by omega)
  rw [zpack2_compress_counters (by omega)] at hworst
  have hshort := (literal_cost_le_iff (by omega : 2 ≤ 2048)).mp hworst
  omega

end SysInC.Zpack
