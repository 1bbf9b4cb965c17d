/-
The instructions of `0x8000` that set the flag register, against the arithmetic of the two operands.

The source writes `VF` first and the result behind it, and reads the operands of the result anew.
Where the result goes to `VF` the flag is lost; where `VF` is the second operand the result is that
of the flag. `8xy4` alone has its sum in a variable before either is written.
-/
import SysInC.Chip8Safe

set_option autoImplicit false

namespace SysInC.Chip8

instance : NeZero V_REG_COUNT := ⟨by decide⟩

/-! ## The arithmetic -/

/-- `8xy4`, `8xy5`, `8xy6`, `8xy7` and `8xyE`. -/
inductive FlagOp where
  | add | sub | shr | subn | shl
deriving DecidableEq

def FlagOp.nibble : FlagOp → ℕ
  | .add => 0x4
  | .sub => 0x5
  | .shr => 0x6
  | .subn => 0x7
  | .shl => 0xE

/-- The result modulo 256. -/
def FlagOp.result : FlagOp → UInt8 → UInt8 → ℕ
  | .add, vx, vy => (vx.toNat + vy.toNat) % 256
  | .sub, vx, vy => (vx.toNat + 256 - vy.toNat) % 256
  | .shr, vx, _ => vx.toNat / 2
  | .subn, vx, vy => (vy.toNat + 256 - vx.toNat) % 256
  | .shl, vx, _ => vx.toNat * 2 % 256

/-- Carry, not borrow, or the bit that is shifted out. -/
def FlagOp.flag : FlagOp → UInt8 → UInt8 → ℕ
  | .add, vx, vy => if 256 ≤ vx.toNat + vy.toNat then 1 else 0
  | .sub, vx, vy => if vy.toNat ≤ vx.toNat then 1 else 0
  | .shr, vx, _ => vx.toNat % 2
  | .subn, vx, vy => if vx.toNat ≤ vy.toNat then 1 else 0
  | .shl, vx, _ => vx.toNat / 128

/-- `VF` has the flag, and `Vx` the result unless it is `VF`. -/
def FlagsRight (op : FlagOp) (x y : Fin V_REG_COUNT) (cpu cpu' : Chip8) : Prop :=
  (cpu'.V 15).toNat = op.flag (cpu.V x) (cpu.V y)
    ∧ (x ≠ 15 → (cpu'.V x).toNat = op.result (cpu.V x) (cpu.V y))

/-- The operation reads its second operand behind the flag. -/
def FlagOp.Rereads (op : FlagOp) : Prop := op = .sub ∨ op = .subn

/-- Where the flag and the result do not get into each other's way: neither register is `VF`, or the
values are such that it does not show. -/
def FlagsApart (op : FlagOp) (x y : Fin V_REG_COUNT) (V : Fin V_REG_COUNT → UInt8) : Prop :=
  if x = 15 then
    match op with
    | .add => (V 15 = 0 ∧ V y = 0) ∨ (V 15).toNat + (V y).toNat = 257
    | .sub => y ≠ 15 ∧ V y = 0
    | .shr => (V 15).toNat % 2 = 0
    | .subn => y ≠ 15 ∧ ((V y = 2 ∧ V 15 ≤ 2) ∨ (V y = 0 ∧ V 15 ≠ 0))
    | .shl => (V 15).toNat < 128
  else y = 15 → op.Rereads → (V 15).toNat = op.flag (V x) (V 15)

/-! ## Bytes -/

theorem bit_toNat (p : Prop) [Decidable p] :
    (if p then (1 : UInt8) else 0).toNat = if p then 1 else 0 := by
  split
  · rfl
  · rfl

theorem no_borrow_toNat (a b : UInt8) :
    (if b ≤ a then (1 : UInt8) else 0).toNat = if b.toNat ≤ a.toNat then 1 else 0 :=
  (bit_toNat _).trans (if_congr UInt8.le_iff_toNat_le rfl rfl)

theorem sum_toNat (a b : UInt8) : (a.toUInt16 + b.toUInt16).toNat = a.toNat + b.toNat := by
  have ha := a.toNat_lt
  have hb := b.toNat_lt
  rw [UInt16.toNat_add, UInt8.toNat_toUInt16, UInt8.toNat_toUInt16]
  omega

theorem carry_iff (a b : UInt8) : 255 < a.toUInt16 + b.toUInt16 ↔ 256 ≤ a.toNat + b.toNat := by
  rw [UInt16.lt_iff_toNat_lt, sum_toNat]
  exact Iff.rfl

theorem low_sum_toNat (a b : UInt8) :
    ((a.toUInt16 + b.toUInt16) &&& 0xFF).toUInt8.toNat = (a.toNat + b.toNat) % 256 := by
  have hand : (a.toNat + b.toNat) &&& 255 = (a.toNat + b.toNat) % 256 :=
    Nat.and_two_pow_sub_one_eq_mod _ 8
  rw [UInt16.toNat_toUInt8, UInt16.toNat_and, sum_toNat]
  change ((a.toNat + b.toNat) &&& 255) % 256 = _
  rw [hand, Nat.mod_mod]

theorem sub_toNat (a b : UInt8) : (a - b).toNat = (a.toNat + 256 - b.toNat) % 256 := by
  have hb := b.toNat_lt
  rw [UInt8.toNat_sub]
  omega

theorem low_bit_toNat (a : UInt8) : (a &&& 1).toNat = a.toNat % 2 := by
  rw [UInt8.toNat_and]
  exact Nat.and_one_is_mod _

theorem half_toNat (a : UInt8) : (a >>> 1).toNat = a.toNat / 2 := by
  rw [UInt8.toNat_shiftRight]
  exact Nat.shiftRight_eq_div_pow _ 1

theorem high_bit_toNat (a : UInt8) : ((a >>> 7) &&& 1).toNat = a.toNat / 128 := by
  have ha := a.toNat_lt
  have hshift : (a >>> 7).toNat = a.toNat / 128 := by
    rw [UInt8.toNat_shiftRight]
    exact Nat.shiftRight_eq_div_pow _ 7
  rw [low_bit_toNat, hshift]
  omega

theorem double_toNat (a : UInt8) : (a <<< 1).toNat = a.toNat * 2 % 256 := by
  have hshift : a.toNat <<< ((1 : UInt8).toNat % 8) = a.toNat * 2 := Nat.shiftLeft_eq _ 1
  rw [UInt8.toNat_shiftLeft, hshift]

/-! ## What is written -/

/-- The registers that the result is made from: those behind the flag, but for a sum. -/
def FlagOp.operands (op : FlagOp) (f : UInt8) (cpu : Chip8) : Chip8 :=
  if op = .add then cpu else set_V cpu 15 f

/-- The flag of the old operands goes to `VF`, and then the result to `Vx`. -/
theorem exec_alu_writes (op : FlagOp) (x y : Fin V_REG_COUNT) (cpu : Chip8) :
    ∃ f r, exec_alu op.nibble x y cpu = set_V (set_V cpu 15 f) x r
      ∧ f.toNat = op.flag (cpu.V x) (cpu.V y)
      ∧ r.toNat = op.result ((op.operands f cpu).V x) ((op.operands f cpu).V y) := by
  cases op with
  | add =>
    refine ⟨_, _, rfl, ?_, low_sum_toNat _ _⟩
    rw [bit_toNat]
    simp only [carry_iff]
    rfl
  | sub => exact ⟨_, _, rfl, no_borrow_toNat _ _, sub_toNat _ _⟩
  | shr => exact ⟨_, _, rfl, low_bit_toNat _, half_toNat _⟩
  | subn => exact ⟨_, _, rfl, no_borrow_toNat _ _, sub_toNat _ _⟩
  | shl => exact ⟨_, _, rfl, high_bit_toNat _, double_toNat _⟩

/-! ## When both are right -/

theorem sub_inj {a b c : ℕ} (hb : b < 256) (hc : c < 256) :
    (a + 256 - b) % 256 = (a + 256 - c) % 256 ↔ c = b := by
  omega

theorem sub_left_inj {a b c : ℕ} (ha : a < 256) (hb : b < 256) (hc : c < 256) :
    (b + 256 - a) % 256 = (c + 256 - a) % 256 ↔ c = b := by
  omega

/-- The result goes elsewhere: it is right unless it is made from the flag. -/
theorem flags_right_of_ne {op : FlagOp} {x y : Fin V_REG_COUNT} (cpu : Chip8) (hx : x ≠ 15) :
    FlagsRight op x y cpu (exec_alu op.nibble x y cpu)
      ↔ (y = 15 → op.Rereads → (cpu.V 15).toNat = op.flag (cpu.V x) (cpu.V 15)) := by
  obtain ⟨f, r, hexec, hf, hr⟩ := exec_alu_writes op x y cpu
  have hright : FlagsRight op x y cpu (exec_alu op.nibble x y cpu)
      ↔ op.result ((op.operands f cpu).V x) ((op.operands f cpu).V y)
        = op.result (cpu.V x) (cpu.V y) := by
    rw [hexec, FlagsRight, set_V_other _ _ hx.symm, set_V_same, set_V_same, hr]
    exact ⟨fun h => h.2 hx, fun h => ⟨hf, fun _ => h⟩⟩
  have hfx : (set_V cpu 15 f).V x = cpu.V x := set_V_other cpu f hx
  rw [hright]
  by_cases hy : y = 15
  · subst hy
    have hfy : (set_V cpu 15 f).V 15 = f := set_V_same cpu 15 f
    have hflt := f.toNat_lt
    have hylt := (cpu.V 15).toNat_lt
    have hxlt := (cpu.V x).toNat_lt
    cases op with
    | add => exact iff_of_true rfl fun _ h => h.elim nofun nofun
    | sub =>
      rw [FlagOp.operands, if_neg nofun, hfx, hfy, ← hf]
      exact (sub_inj hflt hylt).trans ⟨fun h _ _ => h, fun h => h rfl (Or.inl rfl)⟩
    | shr =>
      rw [FlagOp.operands, if_neg nofun, hfx]
      exact iff_of_true rfl fun _ h => h.elim nofun nofun
    | subn =>
      rw [FlagOp.operands, if_neg nofun, hfx, hfy, ← hf]
      exact (sub_left_inj hxlt hflt hylt).trans ⟨fun h _ _ => h, fun h => h rfl (Or.inr rfl)⟩
    | shl =>
      rw [FlagOp.operands, if_neg nofun, hfx]
      exact iff_of_true rfl fun _ h => h.elim nofun nofun
  · -- no operand is `VF`
    refine iff_of_true ?_ fun h => absurd h hy
    unfold FlagOp.operands
    split
    · rfl
    · rw [hfx, set_V_other cpu f hy]

/-- The result goes to `VF`. -/
theorem flags_right_flag {op : FlagOp} {y : Fin V_REG_COUNT} (cpu : Chip8) :
    FlagsRight op 15 y cpu (exec_alu op.nibble 15 y cpu) ↔ FlagsApart op 15 y cpu.V := by
  obtain ⟨f, r, hexec, hf, hr⟩ := exec_alu_writes op 15 y cpu
  have hright : FlagsRight op 15 y cpu (exec_alu op.nibble 15 y cpu)
      ↔ op.result ((op.operands f cpu).V 15) ((op.operands f cpu).V y)
        = op.flag (cpu.V 15) (cpu.V y) := by
    rw [hexec, FlagsRight, set_V_same, hr]
    exact and_iff_left fun h => absurd rfl h
  have hfx : (set_V cpu 15 f).V 15 = f := set_V_same cpu 15 f
  have hflt := f.toNat_lt
  have hylt := (cpu.V y).toNat_lt
  have hxlt := (cpu.V 15).toNat_lt
  have heq (a b : UInt8) : a = b ↔ a.toNat = b.toNat := UInt8.toNat_inj.symm
  unfold FlagsApart
  rw [hright, if_pos rfl]
  cases op with
  | add =>
    rw [FlagOp.operands, if_pos rfl]
    simp only [FlagOp.result, FlagOp.flag, heq, UInt8.toNat_zero]
    split
    · omega
    · omega
  | sub =>
    rw [FlagOp.operands, if_neg nofun, hfx]
    simp only [FlagOp.result, FlagOp.flag, heq, UInt8.toNat_zero] at hf ⊢
    by_cases hy : y = 15
    · subst hy
      rw [if_pos le_rfl] at hf ⊢
      rw [hfx, hf]
      exact iff_of_false (by decide) fun h => h.1 rfl
    · rw [set_V_other cpu f hy, ← hf, and_iff_right hy]
      split at hf
      · omega
      · omega
  | shr =>
    rw [FlagOp.operands, if_neg nofun, hfx]
    simp only [FlagOp.result, FlagOp.flag] at hf ⊢
    omega
  | subn =>
    rw [FlagOp.operands, if_neg nofun, hfx]
    simp only [FlagOp.result, FlagOp.flag, heq, ne_eq, UInt8.le_iff_toNat_le, UInt8.toNat_zero]
      at hf ⊢
    have htwo : (2 : UInt8).toNat = 2 := rfl
    rw [htwo]
    by_cases hy : y = 15
    · subst hy
      rw [if_pos le_rfl] at hf ⊢
      rw [hfx, hf]
      exact iff_of_false (by decide) fun h => h.1 rfl
    · rw [set_V_other cpu f hy, ← hf, and_iff_right hy]
      split at hf
      · omega
      · omega
  | shl =>
    rw [FlagOp.operands, if_neg nofun, hfx]
    simp only [FlagOp.result, FlagOp.flag] at hf ⊢
    omega

theorem flags_right_iff (op : FlagOp) (x y : Fin V_REG_COUNT) (cpu : Chip8) :
    FlagsRight op x y cpu (exec_alu op.nibble x y cpu) ↔ FlagsApart op x y cpu.V := by
  by_cases hx : x = 15
  · subst hx
    exact flags_right_flag cpu
  · unfold FlagsApart
    rw [if_neg hx]
    exact flags_right_of_ne cpu hx

/-! ## The cycle -/

variable {cpu : Chip8} {op : FlagOp} {opcode : UInt16}

theorem chip8_cycle_alu (rand : UInt8) (hfetch : fetch cpu = some opcode)
    (hgroup : (opcode &&& 0xF000).toNat = 0x8000) (hn : opcode_n opcode = op.nibble) :
    chip8_cycle rand cpu = some (exec_alu op.nibble (opcode_x opcode) (opcode_y opcode)
      { cpu with pc := cpu.pc + 2 }) := by
  rw [chip8_cycle, hfetch, Option.bind_some]
  unfold execute
  rw [hgroup, hn]
  rfl

/-- **Arithmetic with flags.** After `8xy4`, `8xy5`, `8xy6`, `8xy7` or `8xyE` the flag and the
result are those of the old registers exactly if neither got into the other's way. -/
theorem flags_iff (rand : UInt8) (cpu : Chip8) (op : FlagOp) (opcode : UInt16)
    (hfetch : fetch cpu = some opcode) (hgroup : (opcode &&& 0xF000).toNat = 0x8000)
    (hn : opcode_n opcode = op.nibble) :
    (∃ cpu', chip8_cycle rand cpu = some cpu'
        ∧ FlagsRight op (opcode_x opcode) (opcode_y opcode) cpu cpu')
      ↔ FlagsApart op (opcode_x opcode) (opcode_y opcode) cpu.V := by
  have hcycle := chip8_cycle_alu rand hfetch hgroup hn
  have hright := flags_right_iff op (opcode_x opcode) (opcode_y opcode)
    { cpu with pc := cpu.pc + 2 }
  constructor
  · rintro ⟨cpu', hcpu', h⟩
    obtain rfl := Option.some.inj (hcycle.symm.trans hcpu')
    exact hright.mp h
  · intro h
    exact ⟨_, hcycle, hright.mpr h⟩

/-- `SUB V0, V1` -/
theorem flags_sub : ∃ cpu', chip8_cycle 0 (loaded [0x80, 0x15]) = some cpu'
    ∧ FlagsRight .sub 0 1 (loaded [0x80, 0x15]) cpu' :=
  (flags_iff 0 (loaded [0x80, 0x15]) .sub 0x8015 rfl rfl rfl).mpr fun h => absurd h (by decide)

/-- `SUB V0, VF`: the flag is 1, and it is what is taken from `V0`. -/
theorem flags_not_apart : ¬∀ (rand : UInt8) (cpu : Chip8) (op : FlagOp) (opcode : UInt16),
    fetch cpu = some opcode → (opcode &&& 0xF000).toNat = 0x8000 → opcode_n opcode = op.nibble →
      ∃ cpu', chip8_cycle rand cpu = some cpu'
        ∧ FlagsRight op (opcode_x opcode) (opcode_y opcode) cpu cpu' := by
  intro h
  obtain ⟨cpu', hcpu', hright⟩ := h 0 (loaded [0x80, 0xF5]) .sub 0x80F5 rfl rfl rfl
  have hcycle := @chip8_cycle_alu (loaded [0x80, 0xF5]) .sub 0x80F5 0 rfl rfl rfl
  obtain rfl := Option.some.inj (hcycle.symm.trans hcpu')
  exact absurd ((flags_right_iff .sub 0 15 _).mp hright rfl (Or.inl rfl)) (by decide)

end SysInC.Chip8
