/-
`njGetVLC` and the coefficients of `njDecodeBlock` of `src/imgview/imgview.c`: what is read from the
code of a block is the block.

The code of a block is told as its grammar, whatever the encoder: a symbol of the DC table and the
bits of the difference; then, for each run of zeros and the coefficient behind it, a symbol of the
AC table and the bits of the coefficient; at the end a symbol 0, unless the last coefficient was
coded.
-/
import SysInC.CInt
import SysInC.JpegBits
import SysInC.JpegTable
import Mathlib.Data.Fin.VecNotation
import Mathlib.Data.Nat.Size

set_option autoImplicit false

namespace SysInC.Jpeg

open PartialRun BitStream CInt

/-! ## The source -/

/-- The value, `*code` and the context. Where no code word is found `*code` is left as it was. -/
def njGetVLC (raw : List UInt8) (ctx : nj_bits_t) (tab : Fin 65536 → nj_vlc_t) (code : UInt8) :
    Option (ℤ × UInt8 × nj_bits_t) :=
  (njShowBits raw ctx 16).bind fun (value, ctx) => (peek tab value).bind fun entry =>
    if entry.bits = 0 then some (0, code, ctx)
    else
      (njSkipBits raw ctx entry.bits).bind fun ctx =>
        let bits := entry.code.toNat &&& 15
        if bits = 0 then some (0, entry.code, ctx)
        else
          (njGetBits raw ctx bits).map fun (value, ctx) =>
            (if value < 1 <<< (bits - 1) then (value : ℤ) + (-(2 ^ bits) + 1) else value,
              entry.code, ctx)

/-- The place of a coefficient in the block, by its place in the scan. -/
def njZZ : Fin 64 → Fin 64 :=
  ![0, 1, 8, 16, 9, 2, 3, 10, 17, 24, 32, 25, 18, 11, 4, 5,
    12, 19, 26, 33, 40, 48, 41, 34, 27, 20, 13, 6, 7, 14, 21, 28,
    35, 42, 49, 56, 57, 50, 43, 36, 29, 22, 15, 23, 30, 37, 44, 51,
    58, 59, 52, 45, 38, 31, 39, 46, 53, 60, 61, 54, 47, 55, 62, 63]

/-- The locals of the loop over the AC coefficients, with `ctx->block`. -/
structure ac_state where
  coef : ℕ
  code : UInt8
  block : Fin 64 → ℤ
  ctx : nj_bits_t

/-- `do { ... } while (coef < 63);`, of which each turn makes `coef` greater. -/
def ac_loop (raw : List UInt8) (tab : Fin 65536 → nj_vlc_t) (qtab : Fin 64 → UInt8) :
    ℕ → ac_state → Option ac_state
  | 0, s => some s
  | fuel + 1, s =>
    (njGetVLC raw s.ctx tab s.code).bind fun (value, code, ctx) =>
      if code = 0 ∨ code &&& 0x0F = 0 ∧ code ≠ 0xF0 then some { s with code, ctx }
      else
        let coef := s.coef + ((code >>> 4).toNat + 1)
        if h : 63 < coef then some { s with coef, code, ctx }
        else
          let k : Fin 64 := ⟨coef, by omega⟩
          (int (value * (qtab k).toNat)).bind fun v =>
            let s := ⟨coef, code, Function.update s.block (njZZ k) v, ctx⟩
            if coef < 63 then ac_loop raw tab qtab fuel s else some s

/-- `njDecodeBlock` up to the transform: the block, `c->dcpred` and the context. -/
def read_coefficients (raw : List UInt8) (dctab actab : Fin 65536 → nj_vlc_t)
    (qtab : Fin 64 → UInt8) (dcpred : ℤ) (ctx : nj_bits_t) :
    Option ((Fin 64 → ℤ) × ℤ × nj_bits_t) :=
  (njGetVLC raw ctx dctab 0).bind fun (value, _, ctx) => (int (dcpred + value)).bind fun dcpred =>
    (int (dcpred * (qtab 0).toNat)).bind fun v =>
      (ac_loop raw actab qtab 63 ⟨0, 0, Function.update (fun _ => 0) 0 v, ctx⟩).map fun s =>
        (s.block, dcpred, s.ctx)

/-! ## The code of a block -/

/-- How many bits a value has besides its symbol. -/
def category (v : ℤ) : ℕ := v.natAbs.size

/-- The bits of a value: those of a negative one are those of the value less one. -/
def value_bits (v : ℤ) : List Bool :=
  bits (category v) (if 0 < v then v.toNat else (v + 2 ^ category v - 1).toNat)

/-- The symbol of a run of zeros and of the category of the coefficient behind them. -/
def run_symbol (run category : ℕ) : UInt8 := UInt8.ofNat (run * 16 + category)

/-- The code of the coefficients behind the `k`-th, in the order of the scan; `code` are the code
words of the AC symbols. -/
inductive AcCode (code : UInt8 → List Bool → Prop) (z : ℕ → ℤ) : ℕ → List Bool → Prop where
  | full : AcCode code z 63 []
  | eob {k : ℕ} {w : List Bool} (hk : k < 63) (hw : code 0 w)
      (hz : ∀ i, k < i → i < 64 → z i = 0) : AcCode code z k w
  | zrl {k : ℕ} {w w' : List Bool} (hk : k + 16 ≤ 63) (hw : code 0xF0 w)
      (hz : ∀ i, k < i → i ≤ k + 16 → z i = 0) (h : AcCode code z (k + 16) w') :
      AcCode code z k (w ++ w')
  | coefficient {k run : ℕ} {w w' : List Bool} (hrun : run < 16) (hk : k + run + 1 ≤ 63)
      (hz : ∀ i, k < i → i ≤ k + run → z i = 0) (hne : z (k + run + 1) ≠ 0)
      (hcategory : category (z (k + run + 1)) < 16)
      (hw : code (run_symbol run (category (z (k + run + 1)))) w)
      (h : AcCode code z (k + run + 1) w') :
      AcCode code z k (w ++ (value_bits (z (k + run + 1)) ++ w'))

/-- The code of a block behind one whose DC coefficient was `dcpred`. -/
inductive BlockCode (dc ac : UInt8 → List Bool → Prop) (dcpred : ℤ) (z : ℕ → ℤ) :
    List Bool → Prop where
  | mk {w w' : List Bool} {symbol : UInt8} (hw : dc symbol w)
      (hsymbol : symbol.toNat &&& 15 = category (z 0 - dcpred)) (h : AcCode ac z 0 w') :
      BlockCode dc ac dcpred z (w ++ (value_bits (z 0 - dcpred) ++ w'))

/-! ## A value -/

variable {raw : List UInt8} {s : Stream' Bool} {ctx : nj_bits_t} {tab : Fin 65536 → nj_vlc_t}
  {qtab : Fin 64 → UInt8} {z : ℕ → ℤ}

theorem category_bounds (v : ℤ) : v.natAbs < 2 ^ category v ∧
    (category v ≠ 0 → 2 ^ (category v - 1) ≤ v.natAbs) := by
  refine ⟨Nat.lt_size_self _, fun h => Nat.lt_size.mp ?_⟩
  exact Nat.sub_one_lt h

/-- What the bits of a value are made of. -/
theorem extend_value_bits {v : ℤ} (hv : category v ≠ 0) (s : Stream' Bool) :
    let u := window (value_bits v ++ₛ s) (category v)
    (if u < 1 <<< (category v - 1) then (u : ℤ) + (-(2 ^ category v) + 1) else u) = v := by
  obtain ⟨hlt, hle⟩ := category_bounds v
  have hle := hle hv
  have hpow : 2 ^ category v = 2 * 2 ^ (category v - 1) := by
    rw [← pow_succ', Nat.sub_add_cancel (Nat.one_le_iff_ne_zero.mpr hv)]
  intro u
  have hpow' : (2 : ℤ) ^ category v = ((2 ^ category v : ℕ) : ℤ) := by norm_cast
  by_cases hpos : 0 < v
  · have hu : u = v.toNat := by
      unfold u value_bits
      rw [if_pos hpos, window_bits (by omega)]
    rw [hu, Nat.one_shiftLeft, if_neg (by omega)]
    omega
  · have hu : u = (v + 2 ^ category v - 1).toNat := by
      unfold u value_bits
      rw [if_neg hpos, window_bits (by omega)]
    rw [hu, Nat.one_shiftLeft, if_pos (by omega)]
    omega

/-- **A value is read.** A code word is found by its window and passed over, and the bits behind it
give the value. -/
theorem njGetVLC_reads {symbol : UInt8} {w : List Bool} {v : ℤ} (code : UInt8)
    (hw : Finds tab symbol w) (hv : symbol.toNat &&& 15 = category v)
    (h : Reads raw (w ++ₛ (value_bits v ++ₛ s)) ctx) :
    ∃ ctx', njGetVLC raw ctx tab code = some (v, symbol, ctx') ∧ Reads raw s ctx' := by
  obtain ⟨ctx₁, hshow, h₁, -⟩ := njShowBits_reads (n := 16) le_rfl h
  obtain ⟨ctx₂, hskip, h₂⟩ := njSkipBits_reads hw.length_le h₁
  have hsmall : category v ≤ 15 := hv ▸ Nat.and_le_right
  rw [Stream'.drop_append_stream] at h₂
  unfold njGetVLC
  rw [hshow, Option.bind_some]
  dsimp only
  have hwindow : window (w ++ₛ (value_bits v ++ₛ s)) 16 < 65536 := window_lt _ 16
  rw [peek_of_lt hwindow, Option.bind_some, hw.entry, if_neg hw.length_pos.ne', hskip,
    Option.bind_some]
  dsimp only
  rw [hv]
  by_cases hzero : category v = 0
  · have hv0 : v = 0 := Int.natAbs_eq_zero.mp (Nat.size_eq_zero.mp hzero)
    subst hv0
    rw [if_pos hzero]
    exact ⟨ctx₂, rfl, h₂⟩
  · obtain ⟨ctx₃, hget, h₃⟩ := njGetBits_reads (n := category v) (by omega) h₂
    rw [if_neg hzero, hget, Option.map_some]
    dsimp only
    rw [extend_value_bits hzero s]
    refine ⟨ctx₃, rfl, ?_⟩
    have hdrop := drop_bits (category v)
      (if 0 < v then v.toNat else (v + 2 ^ category v - 1).toNat) s
    unfold value_bits at h₃
    rwa [hdrop] at h₃

/-! ## A block -/

/-- The block has the first `k` coefficients behind the DC one, and zeros for the others. -/
structure Upto (qtab : Fin 64 → UInt8) (z : ℕ → ℤ) (k : ℕ) (block : Fin 64 → ℤ) : Prop where
  coded : ∀ i : Fin 64, i.val ≤ k → block (njZZ i) = z i * (qtab i).toNat
  zero : ∀ i : Fin 64, k < i.val → block (njZZ i) = 0

/-- The place in the scan of a coefficient of the block. -/
def scan_place (i : Fin 64) : Fin 64 := ((List.finRange 64).find? fun k => njZZ k = i).getD 0

/-- The block of the coefficients, times their quanta. -/
def dequantised (qtab : Fin 64 → UInt8) (z : ℕ → ℤ) (i : Fin 64) : ℤ :=
  z (scan_place i) * (qtab (scan_place i)).toNat

theorem njZZ_injective : Function.Injective njZZ := by
  decide +kernel

theorem njZZ_scan_place : ∀ i, njZZ (scan_place i) = i := by
  decide +kernel

variable {block : Fin 64 → ℤ} {k : ℕ}

theorem Upto.zeros (h : Upto qtab z k block) (k' : ℕ) (hk : k ≤ k')
    (hz : ∀ i, k < i → i ≤ k' → z i = 0) : Upto qtab z k' block := by
  refine ⟨fun i hi => ?_, fun i hi => h.zero i (by omega)⟩
  by_cases hold : i.val ≤ k
  · exact h.coded i hold
  · rw [h.zero i (by omega), hz i (by omega) hi, zero_mul]

theorem Upto.update (h : Upto qtab z k block) (hk : k + 1 < 64) {v : ℤ}
    (hv : v = z (k + 1) * (qtab ⟨k + 1, hk⟩).toNat) :
    Upto qtab z (k + 1) (Function.update block (njZZ ⟨k + 1, hk⟩) v) := by
  constructor
  · intro i hi
    by_cases hlast : i = ⟨k + 1, hk⟩
    · subst hlast
      rw [Function.update_self, hv]
    · rw [Function.update_of_ne (njZZ_injective.ne hlast)]
      have hne : i.val ≠ k + 1 := fun h => hlast (Fin.ext h)
      exact h.coded i (by omega)
  · intro i hi
    have hne : i ≠ ⟨k + 1, hk⟩ := fun h => absurd (congrArg Fin.val h) (Nat.ne_of_gt hi)
    rw [Function.update_of_ne (njZZ_injective.ne hne)]
    exact h.zero i (by omega)

theorem Upto.dequantised (h : Upto qtab z 63 block) : block = dequantised qtab z := by
  funext i
  have hi := h.coded (scan_place i) (Nat.le_of_lt_succ (scan_place i).isLt)
  rwa [njZZ_scan_place] at hi

/-- The loop where it is entered only below 63. -/
def ac_next (raw : List UInt8) (tab : Fin 65536 → nj_vlc_t) (qtab : Fin 64 → UInt8) (fuel : ℕ)
    (s : ac_state) : Option ac_state :=
  if s.coef < 63 then ac_loop raw tab qtab fuel s else some s

theorem run_symbol_eq {run c : ℕ} (hrun : run < 16) (hc : c < 16) :
    (run_symbol run c >>> 4).toNat = run ∧ (run_symbol run c).toNat &&& 15 = c
      ∧ (c ≠ 0 → run_symbol run c ≠ 0 ∧ run_symbol run c &&& 0x0F ≠ 0) := by
  have hall : ∀ run < 16, ∀ c < 16,
      (run_symbol run c >>> 4).toNat = run ∧ (run_symbol run c).toNat &&& 15 = c
        ∧ (c ≠ 0 → run_symbol run c ≠ 0 ∧ run_symbol run c &&& 0x0F ≠ 0) := by decide +kernel
  exact hall run hrun c hc

theorem isInt_quantum {v : ℤ} (hv : v.natAbs < 32768) (q : UInt8) : IsInt (v * q.toNat) := by
  have hprod : (v * q.toNat).natAbs ≤ 32767 * 255 := by
    rw [Int.natAbs_mul, Int.natAbs_natCast]
    exact Nat.mul_le_mul (Nat.le_of_lt_succ hv) (Nat.le_of_lt_succ q.toNat_lt)
  rw [isInt_iff]
  omega

section

-- the equations of the loop are made here, and not by each proof anew
attribute [local simp] njGetVLC ac_loop ac_next

end

/-- A turn that does not leave the loop: its value is put behind a run of zeros. -/
theorem ac_loop_turn {s : ac_state} {symbol : UInt8} {v : ℤ} {ctx : nj_bits_t} {fuel : ℕ}
    (hvlc : njGetVLC raw s.ctx tab s.code = some (v, symbol, ctx))
    (hgo : ¬(symbol = 0 ∨ symbol &&& 0x0F = 0 ∧ symbol ≠ 0xF0))
    (hk : k + 1 < 64) (hcoef : s.coef + ((symbol >>> 4).toNat + 1) = k + 1)
    (hv : v.natAbs < 32768) :
    ac_loop raw tab qtab (fuel + 1) s = ac_next raw tab qtab fuel
      ⟨k + 1, symbol,
        Function.update s.block (njZZ ⟨k + 1, hk⟩) (v * (qtab ⟨k + 1, hk⟩).toNat), ctx⟩ := by
  rw [ac_loop, hvlc, Option.bind_some]
  dsimp only
  rw [if_neg hgo]
  simp only [hcoef]
  rw [dif_neg (by omega), int_of (isInt_quantum hv _), Option.bind_some]
  rfl

/-- The induction follows the code; each coefficient is put in its place, and the zeros between
stand there already. -/
theorem ac_next_reads {code : UInt8 → List Bool → Prop}
    (htab : ∀ symbol w, code symbol w → Finds tab symbol w) {w : List Bool}
    (h : AcCode code z k w) {fuel : ℕ} {st : ac_state}
    (hcoef : st.coef = k) (hfuel : 63 ≤ fuel + k) (hblock : Upto qtab z k st.block)
    (hreads : Reads raw (w ++ₛ s) st.ctx) :
    ∃ st', ac_next raw tab qtab fuel st = some st' ∧ st'.block = dequantised qtab z
      ∧ Reads raw s st'.ctx := by
  induction h generalizing fuel st with
  | full =>
    rw [ac_next, if_neg (by omega)]
    exact ⟨st, rfl, hblock.dequantised, hreads⟩
  | eob hk hw hz =>
    obtain ⟨fuel, rfl⟩ := Nat.exists_eq_succ_of_ne_zero (show fuel ≠ 0 by omega)
    obtain ⟨ctx, hvlc, hctx⟩ := njGetVLC_reads (v := 0) st.code (htab _ _ hw) (by decide) hreads
    rw [ac_next, if_pos (by omega), ac_loop, hvlc, Option.bind_some]
    dsimp only
    rw [if_pos (Or.inl rfl)]
    refine ⟨_, rfl, ?_, hctx⟩
    exact (hblock.zeros 63 (by omega) fun i hi hle => hz i hi (by omega)).dequantised
  | @zrl k w w' hk hw hz h ih =>
    obtain ⟨fuel, rfl⟩ := Nat.exists_eq_succ_of_ne_zero (show fuel ≠ 0 by omega)
    rw [Stream'.append_append_stream] at hreads
    obtain ⟨ctx, hvlc, hctx⟩ := njGetVLC_reads (v := 0) st.code (htab _ _ hw) (by decide) hreads
    rw [ac_next, if_pos (by omega),
      ac_loop_turn (k := k + 15) hvlc (by decide) (by omega) (by rw [hcoef]; rfl) (by decide)]
    apply ih rfl (by omega) _ hctx
    have hfront := hblock.zeros (k + 15) (by omega) fun i hi hle => hz i hi (by omega)
    refine hfront.update (by omega) ?_
    rw [hz (k + 15 + 1) (by omega) (by omega)]
  | @coefficient k run w w' hrun hk hz hne hcategory hw h ih =>
    obtain ⟨fuel, rfl⟩ := Nat.exists_eq_succ_of_ne_zero (show fuel ≠ 0 by omega)
    obtain ⟨hzeros, hbits, hmore⟩ := run_symbol_eq hrun hcategory
    have hcat0 : category (z (k + run + 1)) ≠ 0 := fun h0 =>
      hne (Int.natAbs_eq_zero.mp (Nat.size_eq_zero.mp h0))
    obtain ⟨hsym, hlow⟩ := hmore hcat0
    rw [Stream'.append_append_stream, Stream'.append_append_stream] at hreads
    obtain ⟨ctx, hvlc, hctx⟩ := njGetVLC_reads st.code (htab _ _ hw) hbits hreads
    have hsmall : (z (k + run + 1)).natAbs < 32768 := by
      have hlt := (category_bounds (z (k + run + 1))).1
      have hpow : 2 ^ category (z (k + run + 1)) ≤ 2 ^ 15 :=
        Nat.pow_le_pow_right (by decide) (by omega)
      omega
    have hgo : ¬(run_symbol run (category (z (k + run + 1))) = 0
        ∨ run_symbol run (category (z (k + run + 1))) &&& 0x0F = 0
          ∧ run_symbol run (category (z (k + run + 1))) ≠ 0xF0) := by
      rintro (h0 | ⟨h0, -⟩)
      · exact hsym h0
      · exact hlow h0
    rw [ac_next, if_pos (by omega),
      ac_loop_turn (k := k + run) hvlc hgo (by omega) (by rw [hcoef, hzeros]; omega) hsmall]
    apply ih rfl (by omega) _ hctx
    exact (hblock.zeros (k + run) (by omega) hz).update (by omega) rfl

variable (qtab) in
/-- **A block is read.** -/
theorem read_coefficients_reads {dctab actab : Fin 65536 → nj_vlc_t}
    {dc ac : UInt8 → List Bool → Prop} (hdctab : ∀ symbol w, dc symbol w → Finds dctab symbol w)
    (hactab : ∀ symbol w, ac symbol w → Finds actab symbol w) {dcpred : ℤ} {w : List Bool}
    (h : BlockCode dc ac dcpred z w) (hdc : (z 0).natAbs < 32768)
    (hreads : Reads raw (w ++ₛ s) ctx) :
    ∃ ctx', read_coefficients raw dctab actab qtab dcpred ctx
      = some (dequantised qtab z, z 0, ctx') ∧ Reads raw s ctx' := by
  obtain ⟨hw, hsymbol, hac⟩ := h
  rw [Stream'.append_append_stream, Stream'.append_append_stream] at hreads
  obtain ⟨ctx₁, hvlc, h₁⟩ := njGetVLC_reads 0 (hdctab _ _ hw) hsymbol hreads
  have hsum : dcpred + (z 0 - dcpred) = z 0 := by omega
  have hint : IsInt (z 0) := by
    rw [isInt_iff]
    omega
  have hstart : Upto qtab z 0 (Function.update (fun _ => 0) 0 (z 0 * (qtab 0).toNat)) := by
    constructor
    · intro i hi
      obtain rfl : i = 0 := Fin.ext (Nat.le_zero.mp hi)
      rfl
    · intro i hi
      have hne : njZZ i ≠ 0 := fun h0 =>
        absurd (njZZ_injective (h0.trans (show (0 : Fin 64) = njZZ 0 from rfl))) (Fin.ne_of_gt hi)
      rw [Function.update_of_ne hne]
  have hrun : ∃ st, ac_next raw actab qtab 63
      ⟨0, 0, Function.update (fun _ => 0) 0 (z 0 * (qtab 0).toNat), ctx₁⟩ = some st
      ∧ st.block = dequantised qtab z ∧ Reads raw s st.ctx :=
    ac_next_reads hactab hac rfl le_rfl hstart h₁
  obtain ⟨st, hloop, hblock, hctx⟩ := hrun
  refine ⟨st.ctx, ?_, hctx⟩
  rw [ac_next, if_pos (show 0 < 63 by decide)] at hloop
  unfold read_coefficients
  rw [hvlc, Option.bind_some]
  dsimp only
  rw [hsum, int_of hint, Option.bind_some, int_of (isInt_quantum hdc _), Option.bind_some, hloop,
    Option.map_some, hblock]

end SysInC.Jpeg
