/-
The CHIP-8 interpreter (`src/chip8/chip8.c`): the machine, the ROM loader and one fetch, decode and
execute cycle.

The arrays of `Chip8` are functions from their indices. Indices that are computed go through `peek`
and `poke`, for which an index behind the end of the array is `none`. An address such as
`cpu.pc + 1` or `cpu.I + row` is an `int` in the source and does not wrap; `cpu.pc += 2` does.
-/
import SysInC.PartialRun

set_option autoImplicit false

namespace SysInC.Chip8

open SysInC.PartialRun

abbrev MEMORY_SIZE : ℕ := 4096
abbrev V_REG_COUNT : ℕ := 16
abbrev STACK_SIZE : ℕ := 16
abbrev GFX_WIDTH : ℕ := 64
abbrev GFX_HEIGHT : ℕ := 32
abbrev KEY_COUNT : ℕ := 16
abbrev FONTSET_START : ℕ := 0x50
abbrev PROGRAM_START : ℕ := 0x200

def chip8_fontset : List UInt8 :=
  [0xF0, 0x90, 0x90, 0x90, 0xF0, 0x20, 0x60, 0x20, 0x20, 0x70,
   0xF0, 0x10, 0xF0, 0x80, 0xF0, 0xF0, 0x10, 0xF0, 0x10, 0xF0,
   0x90, 0x90, 0xF0, 0x10, 0x10, 0xF0, 0x80, 0xF0, 0x10, 0xF0,
   0xF0, 0x80, 0xF0, 0x90, 0xF0, 0xF0, 0x10, 0x20, 0x40, 0x40,
   0xF0, 0x90, 0xF0, 0x90, 0xF0, 0xF0, 0x90, 0xF0, 0x10, 0xF0,
   0xF0, 0x90, 0xF0, 0x90, 0x90, 0xE0, 0x90, 0xE0, 0x90, 0xE0,
   0xF0, 0x80, 0x80, 0x80, 0xF0, 0xE0, 0x90, 0x90, 0x90, 0xE0,
   0xF0, 0x80, 0xF0, 0x80, 0xF0, 0xF0, 0x80, 0xF0, 0x80, 0x80]

structure Chip8 where
  memory : Fin MEMORY_SIZE → UInt8
  V : Fin V_REG_COUNT → UInt8
  I : UInt16
  pc : UInt16
  gfx : Fin (GFX_WIDTH * GFX_HEIGHT) → UInt8
  delay_timer : UInt8
  sound_timer : UInt8
  stack : Fin STACK_SIZE → UInt16
  sp : UInt16
  key : Fin KEY_COUNT → UInt8
  draw_flag : Bool

/-- `memcpy(&memory[start], bytes, ..)`, where the bytes fit. -/
def copy_in (memory : Fin MEMORY_SIZE → UInt8) (start : ℕ) (bytes : List UInt8) :
    Fin MEMORY_SIZE → UInt8 := fun a =>
  if start ≤ a ∧ a < start + bytes.length then bytes.getD (a - start) 0 else memory a

def chip8_init : Chip8 where
  memory := copy_in (fun _ => 0) FONTSET_START chip8_fontset
  V := fun _ => 0
  I := 0
  pc := PROGRAM_START.toUInt16
  gfx := fun _ => 0
  delay_timer := 0
  sound_timer := 0
  stack := fun _ => 0
  sp := 0
  key := fun _ => 0
  draw_flag := true

/-- The ROM file's bytes behind `PROGRAM_START`; `none` is the error return, for an empty file and
for one that does not fit. -/
def chip8_load_rom (cpu : Chip8) (file : List UInt8) : Option Chip8 :=
  if file.length = 0 ∨ MEMORY_SIZE - PROGRAM_START < file.length then none
  else some { cpu with memory := copy_in cpu.memory PROGRAM_START file }

/-! ## The operands of an opcode -/

def opcode_nnn (opcode : UInt16) : UInt16 := opcode &&& 0x0FFF
def opcode_n (opcode : UInt16) : ℕ := (opcode &&& 0x000F).toNat
def opcode_x (opcode : UInt16) : Fin V_REG_COUNT :=
  Fin.ofNat V_REG_COUNT ((opcode &&& 0x0F00) >>> 8).toNat
def opcode_y (opcode : UInt16) : Fin V_REG_COUNT :=
  Fin.ofNat V_REG_COUNT ((opcode &&& 0x00F0) >>> 4).toNat
def opcode_kk (opcode : UInt16) : UInt8 := (opcode &&& 0x00FF).toUInt8

/-! ## The instructions -/

def set_V (cpu : Chip8) (x : Fin V_REG_COUNT) (v : UInt8) : Chip8 :=
  { cpu with V := Function.update cpu.V x v }

theorem set_V_same (cpu : Chip8) (x : Fin V_REG_COUNT) (v : UInt8) : (set_V cpu x v).V x = v := by
  unfold set_V
  exact Function.update_self x v cpu.V

theorem set_V_other (cpu : Chip8) {x z : Fin V_REG_COUNT} (v : UInt8) (h : z ≠ x) :
    (set_V cpu x v).V z = cpu.V z := by
  unfold set_V
  exact Function.update_of_ne h v cpu.V

/-- `if (c) cpu.pc += 2;` -/
def skip_if (c : Bool) (cpu : Chip8) : Chip8 :=
  if c then { cpu with pc := cpu.pc + 2 } else cpu

/-- `0x0000`: CLS and RET. -/
def exec_sys (opcode : UInt16) (cpu : Chip8) : Option Chip8 :=
  if opcode = 0x00E0 then some { cpu with gfx := fun _ => 0, draw_flag := true }
  else if opcode = 0x00EE then
    if 0 < cpu.sp then
      (peek cpu.stack (cpu.sp - 1).toNat).bind fun pc =>
      some { cpu with sp := cpu.sp - 1, pc := pc }
    else some cpu
  else some cpu

/-- `0x2000`: CALL. -/
def exec_call (nnn : UInt16) (cpu : Chip8) : Option Chip8 :=
  if cpu.sp.toNat < STACK_SIZE then
    (poke cpu.stack cpu.sp.toNat cpu.pc).bind fun stack =>
    some { cpu with stack := stack, sp := cpu.sp + 1, pc := nnn }
  else some cpu

/-- `0x8000`: register arithmetic. The flag register is written before the result. -/
def exec_alu (n : ℕ) (x y : Fin V_REG_COUNT) (cpu : Chip8) : Chip8 :=
  match n with
  | 0x0 => set_V cpu x (cpu.V y)
  | 0x1 => set_V cpu x (cpu.V x ||| cpu.V y)
  | 0x2 => set_V cpu x (cpu.V x &&& cpu.V y)
  | 0x3 => set_V cpu x (cpu.V x ^^^ cpu.V y)
  | 0x4 =>
      let sum : UInt16 := (cpu.V x).toUInt16 + (cpu.V y).toUInt16
      set_V (set_V cpu 0xF (if 255 < sum then 1 else 0)) x (sum &&& 0xFF).toUInt8
  | 0x5 =>
      let cpu := set_V cpu 0xF (if cpu.V y ≤ cpu.V x then 1 else 0)
      set_V cpu x (cpu.V x - cpu.V y)
  | 0x6 =>
      let cpu := set_V cpu 0xF (cpu.V x &&& 1)
      set_V cpu x (cpu.V x >>> 1)
  | 0x7 =>
      let cpu := set_V cpu 0xF (if cpu.V x ≤ cpu.V y then 1 else 0)
      set_V cpu x (cpu.V y - cpu.V x)
  | 0xE =>
      let cpu := set_V cpu 0xF ((cpu.V x >>> 7) &&& 1)
      set_V cpu x (cpu.V x <<< 1)
  | _ => cpu

/-- One column of a sprite row: `if (sprite_byte & (0x80 >> col)) ..` -/
def draw_pixel (vx vy row : ℕ) (sprite_byte : UInt8) (cpu : Chip8) (col : ℕ) : Option Chip8 :=
  if sprite_byte.toNat &&& (0x80 >>> col) ≠ 0 then
    let idx := (vy + row) * GFX_WIDTH + (vx + col)
    (peek cpu.gfx idx).bind fun lit =>
    (poke cpu.gfx idx (lit ^^^ 1)).bind fun gfx =>
    some { (if lit = 1 then set_V cpu 0xF 1 else cpu) with gfx := gfx }
  else some cpu

/-- One row of the sprite; the columns stop at the right edge. -/
def draw_row (vx vy : ℕ) (cpu : Chip8) (row : ℕ) : Option Chip8 :=
  (peek cpu.memory (cpu.I.toNat + row)).bind fun sprite_byte =>
  ((List.range 8).takeWhile fun col => vx + col < GFX_WIDTH).foldlM
    (draw_pixel vx vy row sprite_byte) cpu

/-- `0xD000`: DRW. The rows stop at the bottom edge. -/
def exec_draw (n : ℕ) (x y : Fin V_REG_COUNT) (cpu : Chip8) : Option Chip8 :=
  let vx := (cpu.V x).toNat % GFX_WIDTH
  let vy := (cpu.V y).toNat % GFX_HEIGHT
  (((List.range n).takeWhile fun row => vy + row < GFX_HEIGHT).foldlM (draw_row vx vy)
    (set_V cpu 0xF 0)).map fun cpu => { cpu with draw_flag := true }

/-- `0xE000`: SKP and SKNP. -/
def exec_key (x : Fin V_REG_COUNT) (kk : UInt8) (cpu : Chip8) : Chip8 :=
  let pressed := cpu.key (Fin.ofNat KEY_COUNT (cpu.V x &&& 0xF).toNat) != 0
  if kk = 0x9E then skip_if pressed cpu
  else if kk = 0xA1 then skip_if (!pressed) cpu
  else cpu

/-- The first key that is held, `-1` for none. -/
def key_pressed (cpu : Chip8) : Option (Fin KEY_COUNT) :=
  (List.finRange KEY_COUNT).find? fun k => cpu.key k != 0

def store_bcd (v : UInt8) (cpu : Chip8) : Option Chip8 :=
  (poke cpu.memory cpu.I.toNat (v / 100)).bind fun memory =>
  (poke memory (cpu.I.toNat + 1) (v / 10 % 10)).bind fun memory =>
  (poke memory (cpu.I.toNat + 2) (v % 10)).bind fun memory =>
  some { cpu with memory := memory }

/-- `cpu.memory[cpu.I + k] = cpu.V[k];` -/
def store_reg (cpu : Chip8) (k : ℕ) : Option Chip8 :=
  (peek cpu.V k).bind fun v =>
  (poke cpu.memory (cpu.I.toNat + k) v).bind fun memory =>
  some { cpu with memory := memory }

/-- `cpu.V[k] = cpu.memory[cpu.I + k];` -/
def load_reg (cpu : Chip8) (k : ℕ) : Option Chip8 :=
  (peek cpu.memory (cpu.I.toNat + k)).bind fun v =>
  (poke cpu.V k v).bind fun V =>
  some { cpu with V := V }

/-- `0xF000`: timers, keys and memory transfers. -/
def exec_misc (x : Fin V_REG_COUNT) (kk : UInt8) (cpu : Chip8) : Option Chip8 :=
  match kk.toNat with
  | 0x07 => some (set_V cpu x cpu.delay_timer)
  | 0x0A =>
      match key_pressed cpu with
      | some k => some (set_V cpu x k.val.toUInt8)
      | none => some { cpu with pc := cpu.pc - 2 }
  | 0x15 => some { cpu with delay_timer := cpu.V x }
  | 0x18 => some { cpu with sound_timer := cpu.V x }
  | 0x1E => some { cpu with I := cpu.I + (cpu.V x).toUInt16 }
  | 0x29 => some { cpu with I := (FONTSET_START + (cpu.V x).toNat * 5).toUInt16 }
  | 0x33 => store_bcd (cpu.V x) cpu
  | 0x55 => (List.range (x + 1)).foldlM store_reg cpu
  | 0x65 => (List.range (x + 1)).foldlM load_reg cpu
  | _ => some cpu

/-! ## The cycle -/

/-- `(cpu.memory[cpu.pc] << 8) | cpu.memory[cpu.pc + 1]` -/
def fetch (cpu : Chip8) : Option UInt16 :=
  (peek cpu.memory cpu.pc.toNat).bind fun hi =>
  (peek cpu.memory (cpu.pc.toNat + 1)).bind fun lo =>
  some ((hi.toUInt16 <<< 8) ||| lo.toUInt16)

/-- `switch (opcode & 0xF000)`; `rand` is `rand() % 256`. -/
def execute (rand : UInt8) (opcode : UInt16) (cpu : Chip8) : Option Chip8 :=
  let nnn := opcode_nnn opcode
  let n := opcode_n opcode
  let x := opcode_x opcode
  let y := opcode_y opcode
  let kk := opcode_kk opcode
  match (opcode &&& 0xF000).toNat with
  | 0x0000 => exec_sys opcode cpu
  | 0x1000 => some { cpu with pc := nnn }
  | 0x2000 => exec_call nnn cpu
  | 0x3000 => some (skip_if (cpu.V x == kk) cpu)
  | 0x4000 => some (skip_if (cpu.V x != kk) cpu)
  | 0x5000 => some (skip_if (cpu.V x == cpu.V y) cpu)
  | 0x6000 => some (set_V cpu x kk)
  | 0x7000 => some (set_V cpu x (cpu.V x + kk))
  | 0x8000 => some (exec_alu n x y cpu)
  | 0x9000 => some (skip_if (cpu.V x != cpu.V y) cpu)
  | 0xA000 => some { cpu with I := nnn }
  | 0xB000 => some { cpu with pc := nnn + (cpu.V 0).toUInt16 }
  | 0xC000 => some (set_V cpu x (rand &&& kk))
  | 0xD000 => exec_draw n x y cpu
  | 0xE000 => some (exec_key x kk cpu)
  | 0xF000 => exec_misc x kk cpu
  | _ => some cpu

def chip8_cycle (rand : UInt8) (cpu : Chip8) : Option Chip8 :=
  (fetch cpu).bind fun opcode => execute rand opcode { cpu with pc := cpu.pc + 2 }

/-! ## The main loop -/

/-- The key of a character, `-1` for none. -/
def key_of (c : Char) : Option (Fin KEY_COUNT) :=
  match c with
  | '1' => some 0x1
  | '2' => some 0x2
  | '3' => some 0x3
  | '4' => some 0xC
  | 'q' | 'Q' => some 0x4
  | 'w' | 'W' => some 0x5
  | 'e' | 'E' => some 0x6
  | 'r' | 'R' => some 0xD
  | 'a' | 'A' => some 0x7
  | 's' | 'S' => some 0x8
  | 'd' | 'D' => some 0x9
  | 'f' | 'F' => some 0xE
  | 'z' | 'Z' => some 0xA
  | 'x' | 'X' => some 0x0
  | 'c' | 'C' => some 0xB
  | 'v' | 'V' => some 0xF
  | _ => none

/-- `map_key(c, 1);` -/
def map_key (cpu : Chip8) (c : Char) : Chip8 :=
  match key_of c with
  | some k => { cpu with key := Function.update cpu.key k 1 }
  | none => cpu

/-- `if (timer > 0) timer--;` -/
def count_down (timer : UInt8) : UInt8 := if 0 < timer then timer - 1 else timer

/-- What the loop of `main` does to the machine: a cycle, an update of the timers, the screen, and
the keys of the characters that were typed. -/
inductive Event where
  | cycle (rand : UInt8)
  | timers
  | render_screen
  | keys (typed : List Char)

def step (cpu : Chip8) : Event → Option Chip8
  | .cycle rand => chip8_cycle rand cpu
  | .timers => some { cpu with
      delay_timer := count_down cpu.delay_timer, sound_timer := count_down cpu.sound_timer }
  | .render_screen => some { cpu with draw_flag := false }
  | .keys typed => some (typed.foldl map_key { cpu with key := fun _ => 0 })

def run (cpu : Chip8) (events : List Event) : Option Chip8 := events.foldlM step cpu

end SysInC.Chip8
