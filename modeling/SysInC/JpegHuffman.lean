/-
`njBuildHuff` of `src/imgview/imgview.c`: the table of a Huffman code by its next 16 bits.

The codes of one length stand side by side, and the first one of the next length behind them, twice
as long; so what a level has used of the table is what the levels before it have, and
`counts[i - 1]` times the places of one code. The writes stay in the table exactly when all levels
together do, which is Kraft's inequality.
-/
import SysInC.PartialRun
import Mathlib.Algebra.BigOperators.Group.Finset.Basic
import Mathlib.Algebra.Order.BigOperators.Group.Finset
import Mathlib.Tactic.Ring

set_option autoImplicit false

namespace SysInC.Jpeg

open PartialRun Finset

/-! ## The source -/

structure nj_vlc_t where
  bits : ℕ
  code : UInt8
  deriving DecidableEq

/-- `vlctab` -/
abbrev Tables := Fin 4 → Fin 65536 → nj_vlc_t

/-- The table while it is built, with `k` and `code`. -/
structure Build where
  tab : Fin 65536 → nj_vlc_t
  k : ℕ
  code : ℕ

/-- `tab[c].bits = (uint8_t)i; tab[c].code = values[k];` for the place `c` of a code. -/
def write_place (values : Fin 256 → UInt8) (i k start : ℕ) (tab : Fin 65536 → nj_vlc_t) (c : ℕ) :
    Option (Fin 65536 → nj_vlc_t) :=
  (peek values k).bind fun v => poke tab (start + c) ⟨i, v⟩

/-- The places of the next code of length `i`, `1 << n` of them. -/
def write_code (values : Fin 256 → UInt8) (i : ℕ) (b : Build) (_j : ℕ) : Option Build :=
  let n := 16 - i
  ((List.range (1 <<< n)).foldlM (write_place values i b.k (b.code <<< n)) b.tab).map fun tab =>
    ⟨tab, b.k + 1, b.code + 1⟩

/-- The codes of length `r + 1`. -/
def write_level (counts : Fin 16 → UInt8) (values : Fin 256 → UInt8) (b : Build) (r : ℕ) :
    Option Build :=
  let i := r + 1
  (peek counts (i - 1)).bind fun count =>
    ((List.range count.toNat).foldlM (write_code values i) b).map fun b =>
      { b with code := b.code <<< 1 }

def njBuildHuff (vlctab : Tables) (idx : ℕ) (counts : Fin 16 → UInt8) (values : Fin 256 → UInt8) :
    Option Tables :=
  (poke vlctab idx fun _ => ⟨0, 0⟩).bind fun vlctab =>
    ((List.range 16).foldlM (write_level counts values) ⟨fun _ => ⟨0, 0⟩, 0, 0⟩).bind fun b =>
      poke vlctab idx b.tab

/-! ## How much of the table a code takes -/

/-- The codes of the first `r` lengths, `n l` of length `l + 1`. -/
def codes (n : ℕ → ℕ) (r : ℕ) : ℕ := ∑ l ∈ range r, n l

/-- The places that they take, a code of length `l + 1` as many as there are ways to go on from it
to 16 bits. -/
def code_space (n : ℕ → ℕ) (r : ℕ) : ℕ := ∑ l ∈ range r, n l * 2 ^ (15 - l)

variable {n : ℕ → ℕ}

theorem codes_succ (r : ℕ) : codes n (r + 1) = codes n r + n r := sum_range_succ _ r

theorem code_space_succ (r : ℕ) :
    code_space n (r + 1) = code_space n r + n r * 2 ^ (15 - r) := sum_range_succ _ r

theorem codes_mono {r s : ℕ} (h : r ≤ s) : codes n r ≤ codes n s := by
  apply sum_le_sum_of_subset
  exact range_subset_range.mpr h

theorem code_space_mono {r s : ℕ} (h : r ≤ s) : code_space n r ≤ code_space n s := by
  apply sum_le_sum_of_subset
  exact range_subset_range.mpr h

/-- Each level that has a code fits when the last one does. -/
theorem levels_fit_iff (n : ℕ → ℕ) :
    (∀ r < 16, n r = 0 ∨ code_space n (r + 1) ≤ 65536 ∧ codes n (r + 1) ≤ 256) ↔
      code_space n 16 ≤ 65536 ∧ codes n 16 ≤ 256 := by
  constructor
  · intro h
    have hall : ∀ r ≤ 16, code_space n r ≤ 65536 ∧ codes n r ≤ 256 := by
      intro r hr
      induction r with
      | zero => exact ⟨by rw [code_space, range_zero, sum_empty]; omega,
          by rw [codes, range_zero, sum_empty]; omega⟩
      | succ r ih =>
        rcases h r hr with hzero | hfits
        · -- a level without codes takes nothing
          rw [code_space_succ, codes_succ, hzero, Nat.zero_mul]
          exact ih (by omega)
        · exact hfits
    exact hall 16 le_rfl
  · rintro ⟨hspace, hcodes⟩ r hr
    exact Or.inr ⟨(code_space_mono (by omega)).trans hspace, (codes_mono (by omega)).trans hcodes⟩

/-! ## The loops -/

theorem returns_place (values : Fin 256 → UInt8) (i k start c : ℕ) (tab : Fin 65536 → nj_vlc_t) :
    Returns (write_place values i k start tab c) (k < 256 ∧ start + c < 65536) fun _ => True := by
  unfold write_place
  exact (Returns.peek values k).bind fun v _ => Returns.poke tab (start + c) ⟨i, v⟩

theorem returns_code (values : Fin 256 → UInt8) {r : ℕ} (j : ℕ) (b : Build) :
    Returns (write_code values (r + 1) b j)
      (b.k < 256 ∧ b.code * 2 ^ (15 - r) + 2 ^ (15 - r) ≤ 65536)
      fun b' => b'.k = b.k + 1 ∧ b'.code = b.code + 1 := by
  unfold write_code
  have hplaces : Returns ((List.range (1 <<< (16 - (r + 1)))).foldlM
      (write_place values (r + 1) b.k (b.code <<< (16 - (r + 1)))) b.tab)
      (∀ c ∈ List.range (1 <<< (16 - (r + 1))),
        b.k < 256 ∧ b.code <<< (16 - (r + 1)) + c < 65536) fun _ => True :=
    Returns.foldlM (fun c _ tab _ => returns_place values (r + 1) b.k _ c tab) trivial
  refine (hplaces.map fun tab _ => ⟨rfl, rfl⟩).congr ?_
  rw [show 16 - (r + 1) = 15 - r by omega, Nat.one_shiftLeft, Nat.shiftLeft_eq]
  have hpos : 0 < 2 ^ (15 - r) := Nat.two_pow_pos _
  constructor
  · intro h
    have hlast := h (2 ^ (15 - r) - 1) (List.mem_range.mpr (by omega))
    omega
  · intro h c hc
    have := List.mem_range.mp hc
    omega

/-- The `m` codes of a length are in the table when the last of them is. -/
theorem returns_codes (values : Fin 256 → UInt8) {r : ℕ} (m : ℕ) (b : Build) :
    Returns ((List.range m).foldlM (write_code values (r + 1)) b)
      (m = 0 ∨ (b.code + m) * 2 ^ (15 - r) ≤ 65536 ∧ b.k + m ≤ 256)
      fun b' => b'.k = b.k + m ∧ b'.code = b.code + m := by
  have hturn : ∀ j, j < m → ∀ b' : Build, (b'.k = b.k + j ∧ b'.code = b.code + j) →
      Returns (write_code values (r + 1) b' j)
        (b.k + j < 256 ∧ (b.code + j) * 2 ^ (15 - r) + 2 ^ (15 - r) ≤ 65536)
        fun b'' => b''.k = b.k + (j + 1) ∧ b''.code = b.code + (j + 1) := by
    intro j _ b' hb'
    have hstep := returns_code values (r := r) j b'
    rw [hb'.1, hb'.2] at hstep
    apply hstep.imp Iff.rfl
    intro b'' h
    exact ⟨by omega, by omega⟩
  refine (Returns.range hturn ⟨rfl, rfl⟩).congr ⟨fun h => ?_, fun h j hj => ?_⟩
  · rcases Nat.eq_zero_or_pos m with hm | hm
    · exact Or.inl hm
    · obtain ⟨hk, hspace⟩ := h (m - 1) (by omega)
      rw [← Nat.succ_mul, show (b.code + (m - 1)).succ = b.code + m by omega] at hspace
      exact Or.inr ⟨hspace, by omega⟩
  · rcases h with rfl | ⟨hspace, hk⟩
    · exact absurd hj (Nat.not_lt_zero j)
    · have hle := Nat.mul_le_mul_right (2 ^ (15 - r)) (show b.code + j + 1 ≤ b.code + m by omega)
      rw [Nat.succ_mul] at hle
      exact ⟨by omega, by omega⟩

theorem returns_level {counts : Fin 16 → UInt8} (values : Fin 256 → UInt8) {r : ℕ} (hr : r < 16)
    (hcount : (counts ⟨r, hr⟩).toNat = n r) {b : Build} (hk : b.k = codes n r)
    (hcode : b.code * 2 ^ (15 - r) = code_space n r) :
    Returns (write_level counts values b r)
      (n r = 0 ∨ code_space n (r + 1) ≤ 65536 ∧ codes n (r + 1) ≤ 256)
      fun b' => b'.k = codes n (r + 1) ∧
        (r + 1 < 16 → b'.code * 2 ^ (15 - (r + 1)) = code_space n (r + 1)) := by
  unfold write_level
  dsimp only
  rw [Nat.add_sub_cancel, peek_of_lt hr, Option.bind_some, hcount]
  have hspace : (b.code + n r) * 2 ^ (15 - r) = code_space n (r + 1) := by
    rw [Nat.add_mul, hcode, code_space_succ]
  have hlevel := returns_codes values (r := r) (n r) b
  rw [hspace, hk, ← codes_succ] at hlevel
  refine hlevel.map ?_
  rintro b' ⟨hk', hcode'⟩
  refine ⟨hk', fun hnext => ?_⟩
  -- twice the code, and half the places for each
  have hpow : 2 ^ (15 - r) = 2 * 2 ^ (15 - (r + 1)) := by
    rw [← pow_succ', show 15 - (r + 1) + 1 = 15 - r by omega]
  rw [← hspace, hpow, hcode', Nat.shiftLeft_eq, pow_one, Nat.mul_assoc]

/-- **The table.** It is built within its 65536 places, and from the 256 values that there are,
exactly when the codes satisfy Kraft's inequality and are at most 256. -/
theorem returns_njBuildHuff (vlctab : Tables) (idx : ℕ) {counts : Fin 16 → UInt8}
    (values : Fin 256 → UInt8) (hcounts : ∀ r (hr : r < 16), (counts ⟨r, hr⟩).toNat = n r) :
    Returns (njBuildHuff vlctab idx counts values)
      (idx < 4 ∧ code_space n 16 ≤ 65536 ∧ codes n 16 ≤ 256) fun _ => True := by
  unfold njBuildHuff
  have hlevel : ∀ r, r < 16 → ∀ b : Build,
      (b.k = codes n r ∧ (r < 16 → b.code * 2 ^ (15 - r) = code_space n r)) →
      Returns (write_level counts values b r)
        (n r = 0 ∨ code_space n (r + 1) ≤ 65536 ∧ codes n (r + 1) ≤ 256)
        fun b' => b'.k = codes n (r + 1) ∧
          (r + 1 < 16 → b'.code * 2 ^ (15 - (r + 1)) = code_space n (r + 1)) := by
    intro r hr b hb
    exact returns_level values hr (hcounts r hr) hb.1 (hb.2 hr)
  have htable : Returns ((List.range 16).foldlM (write_level counts values)
      ⟨fun _ => ⟨0, 0⟩, 0, 0⟩) _ _ :=
    (Returns.range hlevel ⟨rfl, fun _ => Nat.zero_mul _⟩).congr (levels_fit_iff n)
  refine ((Returns.poke vlctab idx _).bind fun cleared _ => htable.bind fun b _ =>
    Returns.poke cleared idx b.tab).congr ?_
  constructor
  · rintro ⟨hidx, hfits, -⟩
    exact ⟨hidx, hfits⟩
  · rintro ⟨hidx, hfits⟩
    exact ⟨hidx, hfits, hidx⟩

end SysInC.Jpeg
