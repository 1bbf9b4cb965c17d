/-
What `DXYN` does to the display: it toggles the cells under the set bits of a sprite that is cut off
at the right and the bottom edge, tells in `VF` whether one of them was lit, and undoes itself.

`Toggled P` relates two machines that differ in the cells of `P` only. Such relations compose when
their cells are apart, and the pixels of a sprite are.
-/
import SysInC.Chip8Safe
import Mathlib.Data.Nat.Bitwise

set_option autoImplicit false

namespace SysInC.Chip8

open SysInC.PartialRun

abbrev Cell := Fin (GFX_WIDTH * GFX_HEIGHT)

/-! ## Toggled cells -/

/-- The cells of `P` are toggled; `VF` is 1 if one of them was lit, else as it was; all else is the
same. -/
structure Toggled (P : Cell → Prop) (s s' : Chip8) : Prop where
  on : ∀ i, P i → s'.gfx i = s.gfx i ^^^ 1
  off : ∀ i, ¬P i → s'.gfx i = s.gfx i
  hit : (∃ i, P i ∧ s.gfx i = 1) → s'.V 15 = 1
  miss : (¬∃ i, P i ∧ s.gfx i = 1) → s'.V 15 = s.V 15
  memory : s'.memory = s.memory
  I : s'.I = s.I
  V : ∀ x, x ≠ 15 → s'.V x = s.V x

variable {P Q : Cell → Prop} {s s' s'' : Chip8}

theorem Toggled.none (h : ∀ i, ¬P i) (s : Chip8) : Toggled P s s where
  on i hi := absurd hi (h i)
  off _ _ := rfl
  hit := fun ⟨i, hi, _⟩ => absurd hi (h i)
  miss _ := rfl
  memory := rfl
  I := rfl
  V _ _ := rfl

theorem Toggled.congr (h : Toggled P s s') (hPQ : ∀ i, P i ↔ Q i) : Toggled Q s s' := by
  obtain rfl : P = Q := funext fun i => propext (hPQ i)
  exact h

theorem Toggled.trans (h : Toggled P s s') (h' : Toggled Q s' s'') (hPQ : ∀ i, P i → ¬Q i) :
    Toggled (fun i => P i ∨ Q i) s s'' := by
  have hQ (i : Cell) (hi : Q i) : s'.gfx i = s.gfx i := h.off i fun hP => hPQ i hP hi
  constructor
  · rintro i (hi | hi)
    · rw [h'.off i (hPQ i hi), h.on i hi]
    · rw [h'.on i hi, hQ i hi]
  · intro i hi
    rw [h'.off i fun hq => hi (Or.inr hq), h.off i fun hp => hi (Or.inl hp)]
  · rintro ⟨i, hi | hi, hlit⟩
    · -- `VF` is 1 already, and stays so
      have hfirst := h.hit ⟨i, hi, hlit⟩
      by_cases hsecond : ∃ i, Q i ∧ s'.gfx i = 1
      · exact h'.hit hsecond
      · rw [h'.miss hsecond, hfirst]
    · exact h'.hit ⟨i, hi, by rw [hQ i hi, hlit]⟩
  · intro hno
    rw [h'.miss, h.miss]
    · exact fun ⟨i, hi, hlit⟩ => hno ⟨i, Or.inl hi, hlit⟩
    · rintro ⟨i, hi, hlit⟩
      exact hno ⟨i, Or.inr hi, by rw [← hQ i hi, hlit]⟩
  · rw [h'.memory, h.memory]
  · rw [h'.I, h.I]
  · intro x hx
    rw [h'.V x hx, h.V x hx]

/-- A loop each turn of which toggles cells of its own. -/
theorem foldlM_toggled (cells : ℕ → Cell → Prop) (s : Chip8) {step : Chip8 → ℕ → Option Chip8}
    {es : List ℕ} (hstep : ∀ e ∈ es, ∀ t, t.memory = s.memory → t.I = s.I →
      ∃ t', step t e = some t' ∧ Toggled (cells e) t t')
    (hapart : es.Pairwise fun e e' => ∀ i, cells e i → ¬cells e' i) :
    ∃ s', es.foldlM step s = some s' ∧ Toggled (fun i => ∃ e ∈ es, cells e i) s s' := by
  suffices h : ∀ t, t.memory = s.memory → t.I = s.I →
      ∃ s', es.foldlM step t = some s' ∧ Toggled (fun i => ∃ e ∈ es, cells e i) t s' from
    h s rfl rfl
  induction es with
  | nil => exact fun t _ _ => ⟨t, rfl, Toggled.none (fun i hi => by simp at hi) t⟩
  | cons e es ih =>
    intro t hmemory hI
    rw [List.forall_mem_cons] at hstep
    rw [List.pairwise_cons] at hapart
    obtain ⟨t', ht', hfirst⟩ := hstep.1 t hmemory hI
    obtain ⟨s', hs', hrest⟩ := ih hstep.2 hapart.2 t' (by rw [hfirst.memory, hmemory])
      (by rw [hfirst.I, hI])
    refine ⟨s', by rw [List.foldlM_cons, ht']; exact hs', ?_⟩
    refine (hfirst.trans hrest fun i hi => ?_).congr fun i => ?_
    · rintro ⟨e', he', hi'⟩
      exact hapart.1 e' he' i hi hi'
    · simp

/-! ## The sprite -/

def row_of (i : Cell) : ℕ := i / GFX_WIDTH

def col_of (i : Cell) : ℕ := i % GFX_WIDTH

/-- The cell has a set bit of a row of the sprite on it. -/
def UnderRow (vx r : ℕ) (sprite_byte : UInt8) (i : Cell) : Prop :=
  row_of i = r ∧ vx ≤ col_of i ∧ col_of i < vx + 8
    ∧ sprite_byte.toNat.testBit (7 - (col_of i - vx)) = true

/-- The cell has a set bit of the sprite on it: its `n` rows stand at `I`, and the first begins in
row `vy` and column `vx`. -/
def Under (cpu : Chip8) (n vx vy : ℕ) (i : Cell) : Prop :=
  ∃ row < n, ∃ sprite_byte, peek cpu.memory (cpu.I.toNat + row) = some sprite_byte
    ∧ UnderRow vx (vy + row) sprite_byte i

theorem eq_cell_iff {r c : ℕ} (hc : c < GFX_WIDTH) (i : Cell) :
    i.val = r * GFX_WIDTH + c ↔ row_of i = r ∧ col_of i = c := by
  unfold row_of col_of
  dsimp only [GFX_WIDTH] at *
  omega

theorem bit_iff (b : ℕ) {col : ℕ} (hcol : col < 8) :
    b &&& (0x80 >>> col) ≠ 0 ↔ b.testBit (7 - col) = true := by
  have hmask : 0x80 >>> col = 2 ^ (7 - col) := by
    have hdiv : 2 ^ 7 / 2 ^ col = 2 ^ (7 - col) := Nat.pow_div (by omega) (by decide)
    exact (Nat.shiftRight_eq_div_pow _ _).trans hdiv
  rw [hmask, Nat.and_two_pow]
  cases b.testBit (7 - col) with
  | false => simp
  | true => simp

/-- A column of a row of the sprite. -/
theorem draw_pixel_toggled {vx vy row col : ℕ} (hrow : vy + row < GFX_HEIGHT)
    (hcol : vx + col < GFX_WIDTH) (hwidth : col < 8) (sprite_byte : UInt8) (s : Chip8) :
    ∃ s', draw_pixel vx vy row sprite_byte s col = some s'
      ∧ Toggled (fun i => col_of i = vx + col ∧ UnderRow vx (vy + row) sprite_byte i) s s' := by
  have hidx : (vy + row) * GFX_WIDTH + (vx + col) < GFX_WIDTH * GFX_HEIGHT := by
    dsimp only [GFX_WIDTH, GFX_HEIGHT] at *
    omega
  -- a column has one cell, which is under the sprite if the bit is set
  have hunder (i : Cell) : (col_of i = vx + col ∧ UnderRow vx (vy + row) sprite_byte i)
      ↔ i = ⟨_, hidx⟩ ∧ sprite_byte.toNat.testBit (7 - col) = true := by
    rw [Fin.ext_iff, eq_cell_iff hcol]
    constructor
    · rintro ⟨hc, hr, -, -, hbit⟩
      rw [hc, Nat.add_sub_cancel_left] at hbit
      exact ⟨⟨hr, hc⟩, hbit⟩
    · rintro ⟨⟨hr, hc⟩, hbit⟩
      refine ⟨hc, hr, by omega, by omega, ?_⟩
      rw [hc, Nat.add_sub_cancel_left]
      exact hbit
  unfold draw_pixel
  by_cases hbit : sprite_byte.toNat.testBit (7 - col) = true
  · rw [if_pos ((bit_iff _ hwidth).mpr hbit)]
    dsimp only
    rw [peek_of_lt hidx, Option.bind_some, poke_of_lt hidx, Option.bind_some]
    refine ⟨_, rfl, Toggled.congr (P := fun i => i = ⟨_, hidx⟩) ?_ fun i => by
      rw [hunder, and_iff_left hbit]⟩
    constructor
    · rintro i rfl
      exact Function.update_self _ _ s.gfx
    · intro i hi
      exact Function.update_of_ne hi _ s.gfx
    · rintro ⟨i, rfl, hlit⟩
      rw [if_pos hlit]
      exact set_V_same s 15 1
    · intro hno
      rw [if_neg fun hlit => hno ⟨_, rfl, hlit⟩]
    · dsimp only
      split <;> rfl
    · dsimp only
      split <;> rfl
    · intro x hx
      dsimp only
      split
      · exact set_V_other s 1 hx
      · rfl
  · rw [if_neg fun h => hbit ((bit_iff _ hwidth).mp h)]
    exact ⟨s, rfl, Toggled.none (fun i hi => hbit ((hunder i).mp hi).2) s⟩

theorem range_apart {cells : ℕ → Cell → Prop} (place : Cell → ℕ) {start : ℕ}
    (h : ∀ k i, cells k i → place i = start + k) (n : ℕ) :
    (List.range n).Pairwise fun k k' => ∀ i, cells k i → ¬cells k' i := by
  refine List.pairwise_lt_range.imp fun hlt i hk hk' => ?_
  have heq := (h _ i hk).symm.trans (h _ i hk')
  omega

theorem draw_row_toggled (vx : ℕ) {vy row : ℕ} (hrow : vy + row < GFX_HEIGHT) {sprite_byte : UInt8}
    {s : Chip8} (hbyte : peek s.memory (s.I.toNat + row) = some sprite_byte) :
    ∃ s', draw_row vx vy s row = some s'
      ∧ Toggled (UnderRow vx (vy + row) sprite_byte) s s' := by
  rw [draw_row, hbyte, Option.bind_some, takeWhile_range]
  have hlt (col : ℕ) (hmem : col ∈ List.range (min 8 (GFX_WIDTH - vx))) :
      col < 8 ∧ vx + col < GFX_WIDTH := by
    have := List.mem_range.mp hmem
    omega
  obtain ⟨s', hs', htoggled⟩ := foldlM_toggled _ s
    (fun col hmem t _ _ => draw_pixel_toggled hrow (hlt col hmem).2 (hlt col hmem).1 sprite_byte t)
    (range_apart col_of (fun _ _ hi => hi.1) _)
  refine ⟨s', hs', htoggled.congr fun i => ?_⟩
  constructor
  · rintro ⟨col, -, hi⟩
    exact hi.2
  · intro hi
    have hcol : col_of i < GFX_WIDTH := Nat.mod_lt _ (by decide)
    have hleft := hi.2.1
    have hright := hi.2.2.1
    exact ⟨col_of i - vx, List.mem_range.mpr (by omega), by omega, hi⟩

/-- The rows that are drawn are in memory, and so the cells under the sprite are toggled. -/
theorem exec_draw_toggled {n : ℕ} {x y : Fin V_REG_COUNT} {s : Chip8}
    (hmem : CellsInMemory s (draw_reach n (s.V y))) :
    ∃ s', exec_draw n x y s = some s'
      ∧ Toggled (Under s n ((s.V x).toNat % GFX_WIDTH) ((s.V y).toNat % GFX_HEIGHT))
        (set_V s 0xF 0) s' := by
  rw [exec_draw, takeWhile_range]
  rw [CellsInMemory, draw_reach, ← forall_range_lt] at hmem
  generalize (s.V x).toNat % GFX_WIDTH = vx
  generalize (s.V y).toNat % GFX_HEIGHT = vy at hmem ⊢
  have hturn (row : ℕ) (hrange : row ∈ List.range (min n (GFX_HEIGHT - vy))) (t : Chip8)
      (hmemory : t.memory = s.memory) (hI : t.I = s.I) :
      ∃ t', draw_row vx vy t row = some t' ∧ Toggled (fun i => ∃ sprite_byte,
        peek s.memory (s.I.toNat + row) = some sprite_byte
          ∧ UnderRow vx (vy + row) sprite_byte i) t t' := by
    have hbyte := peek_of_lt (a := s.memory) (hmem row hrange)
    have hlt : vy + row < GFX_HEIGHT := by
      have := List.mem_range.mp hrange
      omega
    obtain ⟨t', ht', htoggled⟩ :=
      draw_row_toggled vx hlt (s := t) (by rw [hmemory, hI]; exact hbyte)
    refine ⟨t', ht', htoggled.congr fun i => ?_⟩
    rw [hbyte]
    simp
  have hrow (row : ℕ) (i : Cell) (hi : ∃ sprite_byte, peek s.memory (s.I.toNat + row) =
      some sprite_byte ∧ UnderRow vx (vy + row) sprite_byte i) : row_of i = vy + row := by
    obtain ⟨_, -, hi⟩ := hi
    exact hi.1
  obtain ⟨s', hs', htoggled⟩ :=
    foldlM_toggled _ (set_V s 0xF 0) hturn (range_apart row_of hrow _)
  refine ⟨{ s' with draw_flag := true }, by rw [hs']; rfl, ?_⟩
  have hunder (i : Cell) : (∃ row ∈ List.range (min n (GFX_HEIGHT - vy)), ∃ sprite_byte,
      peek s.memory (s.I.toNat + row) = some sprite_byte ∧ UnderRow vx (vy + row) sprite_byte i)
      ↔ Under s n vx vy i := by
    constructor
    · rintro ⟨row, hrange, h⟩
      exact ⟨row, by have := List.mem_range.mp hrange; omega, h⟩
    · rintro ⟨row, hlt, sprite_byte, hbyte, hi⟩
      have hlow : row_of i < GFX_HEIGHT :=
        (Nat.div_lt_iff_lt_mul (by decide)).mpr (i.isLt.trans_eq (Nat.mul_comm _ _))
      have hplace := hi.1
      exact ⟨row, List.mem_range.mpr (by omega), sprite_byte, hbyte, hi⟩
  obtain ⟨hon, hoff, hhit, hmiss, hmemory, hI, hV⟩ := htoggled.congr hunder
  exact ⟨hon, hoff, hhit, hmiss, hmemory, hI, hV⟩

/-! ## The cycle -/

/-- The cell is under a set bit of the sprite of `DXYN`. -/
def OnSprite (cpu : Chip8) (opcode : UInt16) : Cell → Prop :=
  Under cpu (opcode_n opcode) ((cpu.V (opcode_x opcode)).toNat % GFX_WIDTH)
    ((cpu.V (opcode_y opcode)).toNat % GFX_HEIGHT)

/-- The cells of `P`, and no others, are toggled, and `VF` tells whether one of them was lit. -/
structure Drawn (P : Cell → Prop) (cpu cpu' : Chip8) : Prop where
  toggled : ∀ i, P i → cpu'.gfx i = 1 - cpu.gfx i
  kept : ∀ i, ¬P i → cpu'.gfx i = cpu.gfx i
  lit : cpu'.V 15 = 1 ↔ ∃ i, P i ∧ cpu.gfx i = 1
  dark : cpu'.V 15 = 0 ↔ ¬∃ i, P i ∧ cpu.gfx i = 1

theorem Toggled.drawn {P : Cell → Prop} {cpu cpu' : Chip8}
    (hcells : ∀ i, cpu.gfx i = 0 ∨ cpu.gfx i = 1) (h : Toggled P (set_V cpu 0xF 0) cpu') :
    Drawn P cpu cpu' := by
  have hzero : (set_V cpu 0xF 0).V 15 = 0 := set_V_same cpu 15 0
  have hflag : (∃ i, P i ∧ cpu.gfx i = 1) ∧ cpu'.V 15 = 1
      ∨ (¬∃ i, P i ∧ cpu.gfx i = 1) ∧ cpu'.V 15 = 0 := by
    by_cases hlit : ∃ i, P i ∧ cpu.gfx i = 1
    · exact Or.inl ⟨hlit, h.hit hlit⟩
    · exact Or.inr ⟨hlit, (h.miss hlit).trans hzero⟩
  constructor
  · intro i hi
    have hxor := h.on i hi
    change cpu'.gfx i = cpu.gfx i ^^^ 1 at hxor
    rw [hxor]
    obtain hcell | hcell := hcells i
    · rw [hcell]
      rfl
    · rw [hcell]
      rfl
  · exact h.off
  · obtain ⟨hlit, hV⟩ | ⟨hlit, hV⟩ := hflag
    · exact iff_of_true hV hlit
    · rw [hV]
      exact iff_of_false (by decide) hlit
  · obtain ⟨hlit, hV⟩ | ⟨hlit, hV⟩ := hflag
    · rw [hV]
      exact iff_of_false (by decide) (not_not_intro hlit)
    · exact iff_of_true hV hlit

theorem chip8_cycle_draw {cpu : Chip8} {opcode : UInt16} (rand : UInt8)
    (hfetch : fetch cpu = some opcode) (hgroup : (opcode &&& 0xF000).toNat = 0xD000)
    (hmem : CellsInMemory cpu (reach cpu opcode)) :
    ∃ cpu', chip8_cycle rand cpu = some cpu'
      ∧ Toggled (OnSprite cpu opcode) (set_V cpu 0xF 0) cpu' := by
  rw [reach, if_pos hgroup] at hmem
  obtain ⟨cpu', hcpu', htoggled⟩ := exec_draw_toggled (s := { cpu with pc := cpu.pc + 2 })
    (x := opcode_x opcode) hmem
  obtain ⟨hon, hoff, hhit, hmiss, hmemory, hI, hV⟩ := htoggled
  refine ⟨cpu', ?_, ⟨hon, hoff, hhit, hmiss, hmemory, hI, hV⟩⟩
  rw [chip8_cycle, hfetch, Option.bind_some, ← hcpu']
  unfold execute
  rw [hgroup]
  rfl

theorem fetch_congr (cpu cpu' : Chip8) (hmemory : cpu'.memory = cpu.memory)
    (hpc : cpu'.pc = cpu.pc) : fetch cpu' = fetch cpu := by
  unfold fetch
  rw [hmemory, hpc]

theorem onSprite_congr {cpu cpu' : Chip8} {opcode : UInt16} (hmemory : cpu'.memory = cpu.memory)
    (hI : cpu'.I = cpu.I) (hx : cpu'.V (opcode_x opcode) = cpu.V (opcode_x opcode))
    (hy : cpu'.V (opcode_y opcode) = cpu.V (opcode_y opcode)) :
    OnSprite cpu' opcode = OnSprite cpu opcode := by
  unfold OnSprite Under
  rw [hmemory, hI, hx, hy]

theorem xor_one_twice (v : UInt8) : v ^^^ 1 ^^^ 1 = v := by
  rw [UInt8.xor_assoc, UInt8.xor_self, UInt8.xor_zero]

/-- **Sprites.** `DXYN` toggles the cells under the set bits of its sprite, which begins at
(`Vx` mod 64, `Vy` mod 32) and ends at the edges; `VF` tells whether one of them was lit; and the
same instruction again restores the display, unless `Vx` or `Vy` is `VF`. -/
theorem draw_toggles (rand rand' : UInt8) (cpu : Chip8) (opcode : UInt16)
    (hcells : ∀ i, cpu.gfx i = 0 ∨ cpu.gfx i = 1) (hfetch : fetch cpu = some opcode)
    (hgroup : (opcode &&& 0xF000).toNat = 0xD000) (hmem : CellsInMemory cpu (reach cpu opcode)) :
    ∃ cpu', chip8_cycle rand cpu = some cpu' ∧ Drawn (OnSprite cpu opcode) cpu cpu'
      ∧ (opcode_x opcode ≠ 15 → opcode_y opcode ≠ 15 →
        ∃ cpu'', chip8_cycle rand' { cpu' with pc := cpu.pc } = some cpu''
          ∧ cpu''.gfx = cpu.gfx) := by
  obtain ⟨cpu', hcpu', htoggled⟩ := chip8_cycle_draw rand hfetch hgroup hmem
  refine ⟨cpu', hcpu', htoggled.drawn hcells, fun hx hy => ?_⟩
  -- what the instruction reads is as it was
  have hmemory : cpu'.memory = cpu.memory := htoggled.memory
  have hI : cpu'.I = cpu.I := htoggled.I
  have hVx := (htoggled.V _ hx).trans (set_V_other _ 0 hx)
  have hVy := (htoggled.V _ hy).trans (set_V_other _ 0 hy)
  have hsprite : OnSprite { cpu' with pc := cpu.pc } opcode = OnSprite cpu opcode :=
    onSprite_congr hmemory hI hVx hVy
  have hagain : fetch { cpu' with pc := cpu.pc } = some opcode :=
    (fetch_congr cpu { cpu' with pc := cpu.pc } hmemory rfl).trans hfetch
  have hmem' : CellsInMemory { cpu' with pc := cpu.pc }
      (reach { cpu' with pc := cpu.pc } opcode) := by
    rw [reach, if_pos hgroup] at hmem ⊢
    unfold CellsInMemory
    rw [hVy, hI]
    exact hmem
  obtain ⟨cpu'', hcpu'', htoggled'⟩ := chip8_cycle_draw rand' hagain hgroup hmem'
  rw [hsprite] at htoggled'
  refine ⟨cpu'', hcpu'', funext fun i => ?_⟩
  by_cases hi : OnSprite cpu opcode i
  · rw [htoggled'.on i hi]
    exact (congrArg (· ^^^ 1) (htoggled.on i hi)).trans (xor_one_twice (cpu.gfx i))
  · exact (htoggled'.off i hi).trans (htoggled.off i hi)

/-- Two rows at the top of the ROM itself, from the corner on. -/
theorem draw_toggles_corner : ∃ cpu', chip8_cycle 0 (loaded [0xD0, 0x02]) = some cpu'
    ∧ Drawn (OnSprite (loaded [0xD0, 0x02]) 0xD002) (loaded [0xD0, 0x02]) cpu'
    ∧ ((0 : Fin V_REG_COUNT) ≠ 15 → (0 : Fin V_REG_COUNT) ≠ 15 →
      ∃ cpu'', chip8_cycle 0 { cpu' with pc := 0x200 } = some cpu''
        ∧ cpu''.gfx = (loaded [0xD0, 0x02]).gfx) :=
  draw_toggles 0 0 (loaded [0xD0, 0x02]) 0xD002 (fun _ => Or.inl rfl) rfl rfl (Or.inr (by decide))

end SysInC.Chip8
