/-
What `njBuildHuff` puts into its table: a decoder of the canonical code.

The table has one entry for each 16 bits. The entries of a code word are those of the windows that
start with it, which is the interval that the code has in the order of the codes; so a look at 16
bits finds the code word that they start with, however short it is, or that there is none.
-/
import SysInC.BitStream
import SysInC.JpegHuffman
import SysInC.Painting
import Mathlib.Algebra.BigOperators.Ring.Finset

set_option autoImplicit false

namespace SysInC.Jpeg

open PartialRun BitStream Painting

/-! ## Code words -/

/-- How many codes there are of length `r + 1`. -/
def count_of (counts : Fin 16 → UInt8) (r : ℕ) : ℕ :=
  if h : r < 16 then (counts ⟨r, h⟩).toNat else 0

theorem count_of_lt (counts : Fin 16 → UInt8) {r : ℕ} (hr : r < 16) :
    count_of counts r = (counts ⟨r, hr⟩).toNat := dif_pos hr

/-- The code word of the symbol `j` of length `r + 1`: the codes are counted through, and a zero is
put behind the next one where the length grows. -/
def code_word (n : ℕ → ℕ) (r j : ℕ) : List Bool := bits (r + 1) (code_space n r / 2 ^ (15 - r) + j)

/-- The windows that start with the code word. -/
def InCode (n : ℕ → ℕ) (r j w : ℕ) : Prop :=
  code_space n r + j * 2 ^ (15 - r) ≤ w ∧ w < code_space n r + (j + 1) * 2 ^ (15 - r)

variable {n : ℕ → ℕ} {r j : ℕ}

/-- The codes before a length take whole places of it. -/
theorem dvd_code_space (hr : r < 16) : 2 ^ (15 - r) ∣ code_space n r := by
  apply Finset.dvd_sum
  intro l hl
  have hlt := Finset.mem_range.mp hl
  exact (pow_dvd_pow 2 (by omega)).mul_left (n l)

theorem code_lt (hr : r < 16) (hj : j < n r) (hfits : code_space n 16 ≤ 65536) :
    code_space n r / 2 ^ (15 - r) + j < 2 ^ (r + 1) := by
  obtain ⟨first, hfirst⟩ := dvd_code_space (n := n) hr
  have hpos : 0 < 2 ^ (15 - r) := Nat.two_pow_pos _
  have hspace : code_space n r + n r * 2 ^ (15 - r) ≤ 65536 :=
    (code_space_succ r).symm.le.trans ((code_space_mono hr).trans hfits)
  rw [hfirst, Nat.mul_div_cancel_left _ hpos]
  apply Nat.lt_of_mul_lt_mul_left (a := 2 ^ (15 - r))
  calc 2 ^ (15 - r) * (first + j) < 2 ^ (15 - r) * first + n r * 2 ^ (15 - r) := by
        rw [mul_add, mul_comm (n r)]
        exact Nat.add_lt_add_left (Nat.mul_lt_mul_of_pos_left hj hpos) _
    _ ≤ 2 ^ 16 := hfirst ▸ hspace
    _ = 2 ^ (15 - r) * 2 ^ (r + 1) := by rw [← pow_add, show 15 - r + (r + 1) = 16 by omega]

/-- A window starts with a code word when it is in its interval. -/
theorem take_eq_code_word_iff (hr : r < 16) (hj : j < n r) (hfits : code_space n 16 ≤ 65536)
    (s : Stream' Bool) : s.take (r + 1) = code_word n r j ↔ InCode n r j (window s 16) := by
  obtain ⟨first, hfirst⟩ := dvd_code_space (n := n) hr
  have hpos : 0 < 2 ^ (15 - r) := Nat.two_pow_pos _
  have hcode := code_lt hr hj hfits
  have hsplit : window s 16
      = window s (r + 1) * 2 ^ (15 - r) + window (s.drop (r + 1)) (15 - r) := by
    rw [← window_add, show r + 1 + (15 - r) = 16 by omega]
  have hlow := window_lt (s.drop (r + 1)) (15 - r)
  have hword : s.take (r + 1) = code_word n r j ↔ window s (r + 1) = first + j := by
    rw [hfirst, Nat.mul_div_cancel_left _ hpos] at hcode
    rw [code_word, hfirst, Nat.mul_div_cancel_left _ hpos]
    constructor
    · intro h
      rw [window, h, value_bits_of_lt hcode]
    · intro h
      rw [← h, window]
      conv_lhs => rw [← bits_value (s.take (r + 1)), Stream'.length_take]
  rw [hword, InCode, hsplit, hfirst, mul_comm (2 ^ (15 - r)) first, ← add_mul, ← add_mul,
    ← add_assoc]
  constructor
  · intro h
    rw [h, add_mul (first + j) 1, one_mul]
    omega
  · rintro ⟨hle, hlt⟩
    have h1 : first + j < window s (r + 1) + 1 := by
      apply Nat.lt_of_mul_lt_mul_right (a := 2 ^ (15 - r))
      rw [add_mul (window s (r + 1)), one_mul]
      omega
    have h2 : window s (r + 1) < first + j + 1 := by
      apply Nat.lt_of_mul_lt_mul_right (a := 2 ^ (15 - r))
      omega
    omega

/-- Each window in the space of the code starts with a code word. -/
theorem exists_inCode {w : ℕ} (hw : w < code_space n 16) : ∃ r < 16, ∃ j < n r, InCode n r j w := by
  have hlevel : ∀ m, w < code_space n m → ∃ r < m, ∃ j < n r, InCode n r j w := by
    intro m hm
    induction m with
    | zero => exact absurd hm (Nat.not_lt_zero w)
    | succ m ih =>
      by_cases hbelow : w < code_space n m
      · obtain ⟨r, hr, j, hj, hin⟩ := ih hbelow
        exact ⟨r, hr.trans (Nat.lt_succ_self m), j, hj, hin⟩
      · have hpos : 0 < 2 ^ (15 - m) := Nat.two_pow_pos _
        rw [code_space_succ] at hm
        have hj : (w - code_space n m) / 2 ^ (15 - m) < n m := by
          rw [Nat.div_lt_iff_lt_mul hpos]
          omega
        have hle := Nat.div_mul_le_self (w - code_space n m) (2 ^ (15 - m))
        have hlt := Nat.lt_div_mul_add hpos (a := w - code_space n m)
        exact ⟨m, Nat.lt_succ_self m, _, hj, by omega, by rw [add_mul, one_mul]; omega⟩
  exact hlevel 16 hw

/-! ## The table while it is built -/

variable {values : Fin 256 → UInt8}

theorem write_places {i k start m : ℕ} {tab tab' : Fin 65536 → nj_vlc_t}
    (h : (List.range m).foldlM (write_place values i k start) tab = some tab') (w : Fin 65536) :
    (start ≤ w.val ∧ w.val < start + m → ∀ v, peek values k = some v → tab' w = ⟨i, v⟩)
      ∧ (¬(start ≤ w.val ∧ w.val < start + m) → tab' w = tab w) := by
  refine range_keeps (I := fun m tab' =>
    (start ≤ w.val ∧ w.val < start + m → ∀ v, peek values k = some v → tab' w = ⟨i, v⟩)
      ∧ (¬(start ≤ w.val ∧ w.val < start + m) → tab' w = tab w)) ?_ ⟨?_, fun _ => rfl⟩ h
  · intro c _ tab tab' hturn hinv
    obtain ⟨v, hv, hpoke⟩ := Option.bind_eq_some_iff.mp hturn
    obtain ⟨hlt, -⟩ := (Returns.poke tab (start + c) ⟨i, v⟩).2 tab' hpoke
    rw [poke_of_lt hlt] at hpoke
    obtain rfl := Option.some.inj hpoke
    by_cases hw : w = ⟨start + c, hlt⟩
    · subst hw
      rw [Function.update_self]
      refine ⟨fun _ v' hv' => ?_, fun hout => absurd ⟨?_, ?_⟩ hout⟩
      · rw [hv] at hv'
        rw [Option.some.inj hv']
      · exact Nat.le_add_right start c
      · exact Nat.lt_succ_self (start + c)
    · have hne : w.val ≠ start + c := fun h => hw (Fin.ext h)
      rw [Function.update_of_ne hw]
      exact ⟨fun hin => hinv.1 (by omega), fun hout => hinv.2 (by omega)⟩
  · intro hin
    omega

/-- The symbols before the `j`-th of length `r + 1`. -/
def Before (n : ℕ → ℕ) (r j r' j' : ℕ) : Prop := (r' < r ∧ j' < n r') ∨ (r' = r ∧ j' < j)

/-- The table with the symbols before the `j`-th of length `r + 1`. -/
structure Built (n : ℕ → ℕ) (values : Fin 256 → UInt8) (r j : ℕ) (b : Build) : Prop where
  k : b.k = codes n r + j
  code : r < 16 → b.code * 2 ^ (15 - r) = code_space n r + j * 2 ^ (15 - r)
  entry : ∀ r' j', Before n r j r' j' → ∀ w : Fin 65536, InCode n r' j' w →
    ∀ v, peek values (codes n r' + j') = some v → b.tab w = ⟨r' + 1, v⟩
  clear : ∀ w : Fin 65536, code_space n r + j * 2 ^ (15 - r) ≤ w.val → b.tab w = ⟨0, 0⟩

/-- What was written is below what is written next. -/
theorem Before.lt {r' j' w : ℕ} (h : Before n r j r' j') (hw : InCode n r' j' w) :
    w < code_space n r + j * 2 ^ (15 - r) := by
  rcases h with ⟨hr, hj⟩ | ⟨rfl, hj⟩
  · have hle : (j' + 1) * 2 ^ (15 - r') ≤ n r' * 2 ^ (15 - r') := Nat.mul_le_mul_right _ hj
    have hspace := code_space_mono (n := n) (Nat.succ_le_of_lt hr)
    rw [Nat.succ_eq_add_one, code_space_succ] at hspace
    exact hw.2.trans_le (by omega)
  · have hle : (j' + 1) * 2 ^ (15 - r') ≤ j * 2 ^ (15 - r') := Nat.mul_le_mul_right _ hj
    exact hw.2.trans_le (by omega)

theorem before_succ {r' j' : ℕ} (h : Before n r (j + 1) r' j') :
    Before n r j r' j' ∨ r' = r ∧ j' = j := by
  rcases h with h | ⟨hr, hj⟩
  · exact Or.inl (Or.inl h)
  · rcases Nat.lt_succ_iff_lt_or_eq.mp hj with hlt | heq
    · exact Or.inl (Or.inr ⟨hr, hlt⟩)
    · exact Or.inr ⟨hr, heq⟩

theorem write_code_built {b b' : Build} (hr : r < 16) (hb : Built n values r j b)
    (h : write_code values (r + 1) b j = some b') : Built n values r (j + 1) b' := by
  obtain ⟨tab, hplaces, rfl⟩ := Option.map_eq_some_iff.mp h
  rw [show 16 - (r + 1) = 15 - r by omega, Nat.one_shiftLeft, Nat.shiftLeft_eq,
    hb.code hr] at hplaces
  have hnext : code_space n r + j * 2 ^ (15 - r) + 2 ^ (15 - r)
      = code_space n r + (j + 1) * 2 ^ (15 - r) := by ring
  have hw := write_places hplaces
  rw [hnext, hb.k] at hw
  constructor
  · dsimp only
    rw [hb.k]
    exact Nat.add_assoc _ _ _
  · intro _
    dsimp only
    rw [add_mul, hb.code hr, one_mul, hnext]
  · intro r' j' hbefore w hin v hv
    rcases before_succ hbefore with hold | ⟨rfl, rfl⟩
    · -- an entry from before
      have hlt := hold.lt hin
      exact ((hw w).2 (by omega)).trans (hb.entry r' j' hold w hin v hv)
    · exact (hw w).1 hin v hv
  · intro w hle
    have hpos : 0 < 2 ^ (15 - r) := Nat.two_pow_pos _
    exact ((hw w).2 (by omega)).trans (hb.clear w (by omega))

/-- The next length: twice the code, and half the places for each. -/
theorem built_next {b : Build} (hr : r < 16) (hb : Built n values r (n r) b) :
    Built n values (r + 1) 0 { b with code := b.code <<< 1 } := by
  constructor
  · exact hb.k.trans (codes_succ r).symm
  · intro hnext
    have hpow : 2 ^ (15 - r) = 2 * 2 ^ (15 - (r + 1)) := by
      rw [← pow_succ', show 15 - (r + 1) + 1 = 15 - r by omega]
    dsimp only
    rw [code_space_succ, zero_mul, add_zero, ← hb.code hr, hpow, Nat.shiftLeft_eq, pow_one,
      mul_assoc]
  · intro r' j' hbefore w hin v hv
    refine hb.entry r' j' ?_ w hin v hv
    rcases hbefore with ⟨hlt, hj⟩ | ⟨-, hj⟩
    · rcases Nat.lt_succ_iff_lt_or_eq.mp hlt with hlt | rfl
      · exact Or.inl ⟨hlt, hj⟩
      · exact Or.inr ⟨rfl, hj⟩
    · exact absurd hj (Nat.not_lt_zero j')
  · intro w hle
    refine hb.clear w ?_
    rw [code_space_succ, zero_mul, add_zero] at hle
    exact hle

theorem write_level_built {counts : Fin 16 → UInt8} {b b' : Build} (hr : r < 16)
    (hb : Built (count_of counts) values r 0 b) (h : write_level counts values b r = some b') :
    Built (count_of counts) values (r + 1) 0 b' := by
  rw [write_level, Nat.add_sub_cancel, peek_of_lt hr, Option.bind_some, ← count_of_lt] at h
  obtain ⟨last, hcodes, rfl⟩ := Option.map_eq_some_iff.mp h
  apply built_next hr
  exact range_keeps (fun j _ _ _ hturn hbuilt => write_code_built hr hbuilt hturn) hb hcodes

/-- What `njBuildHuff` leaves. -/
theorem njBuildHuff_built {vlctab vlctab' : Tables} {idx : Fin 4} {counts : Fin 16 → UInt8}
    (h : njBuildHuff vlctab idx counts values = some vlctab') :
    (∃ b, Built (count_of counts) values 16 0 b ∧ vlctab' idx = b.tab)
      ∧ ∀ t ≠ idx, vlctab' t = vlctab t := by
  rw [njBuildHuff, poke_of_lt idx.isLt, Option.bind_some] at h
  obtain ⟨b, hlevels, hpoke⟩ := Option.bind_eq_some_iff.mp h
  rw [poke_of_lt idx.isLt] at hpoke
  have hstart : Built (count_of counts) values 0 0 ⟨fun _ => ⟨0, 0⟩, 0, 0⟩ := by
    refine ⟨by rw [codes]; rfl, fun _ => ?_, ?_, fun _ _ => rfl⟩
    · rw [code_space, Finset.range_zero, Finset.sum_empty, Nat.zero_mul]
    · rintro r' j' (⟨hr, -⟩ | ⟨-, hj⟩)
      · exact absurd hr (Nat.not_lt_zero r')
      · exact absurd hj (Nat.not_lt_zero j')
  have hbuilt : Built (count_of counts) values 16 0 b :=
    range_keeps (I := fun r b => Built (count_of counts) values r 0 b)
      (fun r hr _ _ hturn hbuilt => write_level_built hr hbuilt hturn) hstart hlevels
  obtain rfl := Option.some.inj hpoke
  refine ⟨⟨b, hbuilt, Function.update_self _ _ _⟩, fun t ht => ?_⟩
  rw [Function.update_of_ne ht, Function.update_of_ne ht]

/-! ## Decoding -/

/-- A Huffman table of a file whose code satisfies Kraft's inequality. -/
structure huff where
  counts : Fin 16 → UInt8
  values : Fin 256 → UInt8
  space_le : code_space (count_of counts) 16 ≤ 65536
  codes_le : codes (count_of counts) 16 ≤ 256

/-- The `k`-th symbol and its code word. -/
def huff.Code (h : huff) (symbol : UInt8) (w : List Bool) : Prop :=
  ∃ r < 16, ∃ j < count_of h.counts r,
    peek h.values (codes (count_of h.counts) r + j) = some symbol
      ∧ w = code_word (count_of h.counts) r j

/-- The table finds the symbol in every window that starts with the word. -/
structure Finds (tab : Fin 65536 → nj_vlc_t) (symbol : UInt8) (w : List Bool) : Prop where
  length_pos : 0 < w.length
  length_le : w.length ≤ 16
  entry : ∀ s : Stream' Bool,
    tab ⟨window (w ++ₛ s) 16, window_lt _ _⟩ = ⟨w.length, symbol⟩

/-- The table of `h`. -/
def huff.BuiltIn (h : huff) (tab : Fin 65536 → nj_vlc_t) : Prop :=
  ∃ vlctab vlctab' idx, njBuildHuff vlctab (idx : Fin 4) h.counts h.values = some vlctab'
    ∧ tab = vlctab' idx

theorem huff.BuiltIn.finds {h : huff} {tab : Fin 65536 → nj_vlc_t} (htab : h.BuiltIn tab)
    {symbol : UInt8} {w : List Bool} (hw : h.Code symbol w) : Finds tab symbol w := by
  obtain ⟨vlctab, vlctab', idx, hbuild, rfl⟩ := htab
  obtain ⟨⟨b, hbuilt, htab⟩, -⟩ := njBuildHuff_built hbuild
  obtain ⟨r, hr, j, hj, hsymbol, rfl⟩ := hw
  have hlen : (code_word (count_of h.counts) r j).length = r + 1 := bits_length _ _
  refine ⟨by omega, by omega, fun s => ?_⟩
  rw [htab, hlen]
  apply hbuilt.entry r j (Or.inl ⟨hr, hj⟩) _ _ _ hsymbol
  apply (take_eq_code_word_iff hr hj h.space_le _).mp
  rw [← hlen, Stream'.take_append_of_le_length _ _ _ le_rfl, List.take_length]

/-- **The table decodes the canonical code.** It is built where the code satisfies Kraft's
inequality; then a look at the next 16 bits gives the length and the symbol of the code word that
they start with, and the length 0 exactly where they start with none. -/
theorem njBuildHuff_decodes (h : huff) (vlctab : Tables) (idx : Fin 4) :
    ∃ vlctab', njBuildHuff vlctab idx h.counts h.values = some vlctab' ∧
      (∀ t ≠ idx, vlctab' t = vlctab t) ∧
      ∀ s : Stream' Bool,
        (∃ symbol n, h.Code symbol (s.take n)
          ∧ vlctab' idx ⟨window s 16, window_lt s 16⟩ = ⟨n, symbol⟩ ∧ 0 < n)
        ∨ ((∀ symbol n, ¬h.Code symbol (s.take n))
          ∧ vlctab' idx ⟨window s 16, window_lt s 16⟩ = ⟨0, 0⟩) := by
  obtain ⟨vlctab', hbuild⟩ :=
    (returns_njBuildHuff vlctab idx h.values fun r hr => (count_of_lt h.counts hr).symm).1
      ⟨idx.isLt, h.space_le, h.codes_le⟩
  obtain ⟨⟨b, hbuilt, htab⟩, hothers⟩ := njBuildHuff_built hbuild
  refine ⟨vlctab', hbuild, hothers, fun s => ?_⟩
  rw [htab]
  by_cases hspace : window s 16 < code_space (count_of h.counts) 16
  · left
    obtain ⟨r, hr, j, hj, hin⟩ := exists_inCode hspace
    have hk : codes (count_of h.counts) r + j < 256 := by
      have hle := codes_mono (n := count_of h.counts) (Nat.succ_le_of_lt hr)
      rw [Nat.succ_eq_add_one, codes_succ] at hle
      exact (Nat.add_lt_add_left hj _).trans_le (hle.trans h.codes_le)
    refine ⟨_, r + 1, ⟨r, hr, j, hj, peek_of_lt hk, ?_⟩, ?_, Nat.succ_pos r⟩
    · exact (take_eq_code_word_iff hr hj h.space_le s).mpr hin
    · exact hbuilt.entry r j (Or.inl ⟨hr, hj⟩) _ hin _ (peek_of_lt hk)
  · right
    constructor
    · rintro symbol n ⟨r, hr, j, hj, -, hword⟩
      have hn : n = r + 1 := by
        have hlen := congrArg List.length hword
        rwa [Stream'.length_take, code_word, bits_length] at hlen
      subst hn
      -- a code word would be within the space of the code
      have hin := (take_eq_code_word_iff hr hj h.space_le s).mp hword
      have hlt := Before.lt (j := 0) (Or.inl ⟨hr, hj⟩) hin
      rw [zero_mul, add_zero] at hlt
      exact hspace hlt
    · apply hbuilt.clear
      rw [zero_mul, add_zero]
      exact Nat.le_of_not_lt hspace

end SysInC.Jpeg
