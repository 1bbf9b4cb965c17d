/-
The mouse of `test_os/ps2.c`: three bytes a packet, and the cursor on a screen of 800 by 600.

A movement is a number of 9 bits, the sign in the first byte and the rest in a byte of its own. The
handler keeps that byte in an `int8_t`, which has a sign already: a movement of 128 or more to the
right or upwards comes out as one the other way (`mouse_iff`).
-/
import SysInC.RunStates
import Mathlib.Algebra.Order.Ring.Int
import Mathlib.Data.Fin.VecNotation
import Mathlib.Data.Fintype.Basic
import Mathlib.Logic.Function.Basic
import Mathlib.Tactic.FinCases

set_option autoImplicit false

namespace SysInC.Ps2Mouse

open SysInC.RunStates

/-! ## The source -/

inductive kgfx_cursor_type_t where
  | KGFX_CURSOR_NORMAL
  | KGFX_CURSOR_CLICKABLE
  | KGFX_CURSOR_TEXT
  deriving DecidableEq

structure kgfx_mouse_t where
  x : ℤ
  y : ℤ
  buttons : UInt8
  type : kgfx_cursor_type_t

/-- The static variables of the mouse. -/
structure mouse where
  mouse_state : kgfx_mouse_t
  mouse_cycle : UInt8
  mouse_packet : Fin 3 → Int8

def boot : mouse where
  mouse_state := { x := 400, y := 300, buttons := 0, type := .KGFX_CURSOR_NORMAL }
  mouse_cycle := 0
  mouse_packet := fun _ => 0

/-- `int rel = (int)byte; if (flags & bit) rel |= 0xFFFFFF00;` -/
def relative (byte : Int8) (flags bit : UInt8) : Int32 :=
  if flags &&& bit ≠ 0 then byte.toInt32 ||| (0xFFFFFF00 : UInt32).toInt32 else byte.toInt32

/-- `if (v < 0) v = 0; if (v >= size) v = size - 1;` -/
def limited (size v : ℤ) : ℤ :=
  let v := if v < 0 then 0 else v
  if v ≥ size then size - 1 else v

/-- What is done with a whole packet. -/
def use_packet (mouse_state : kgfx_mouse_t) (mouse_packet : Fin 3 → Int8) : kgfx_mouse_t :=
  let flags := (mouse_packet 0).toUInt8
  let rel_x := relative (mouse_packet 1) flags 0x10
  let rel_y := relative (mouse_packet 2) flags 0x20
  if flags &&& 0xC0 ≠ 0 then mouse_state
  else
    let buttons := flags &&& 0x07
    { x := limited 800 (mouse_state.x + rel_x.toInt)
      y := limited 600 (mouse_state.y - rel_y.toInt)
      buttons := buttons
      type := if buttons &&& 1 ≠ 0 then .KGFX_CURSOR_CLICKABLE else .KGFX_CURSOR_NORMAL }

/-- `status` and `data` are what the ports `0x64` and `0x60` give. -/
def ps2_mouse_handler (s : mouse) (status data : UInt8) : mouse :=
  if status &&& 1 = 0 then s
  else if s.mouse_cycle = 0 then
    if data &&& 0x08 ≠ 0 then
      { s with
        mouse_packet := Function.update s.mouse_packet 0 data.toInt8
        mouse_cycle := 1 }
    else s
  else if s.mouse_cycle = 1 then
    { s with
      mouse_packet := Function.update s.mouse_packet 1 data.toInt8
      mouse_cycle := 2 }
  else if s.mouse_cycle = 2 then
    let mouse_packet := Function.update s.mouse_packet 2 data.toInt8
    { mouse_packet := mouse_packet
      mouse_cycle := 0
      mouse_state := use_packet s.mouse_state mouse_packet }
  else s

/-! ## Any bytes -/

/-- A call of the handler. -/
def call (s : mouse) (ports : UInt8 × UInt8) : mouse := ps2_mouse_handler s ports.1 ports.2

def OnScreen (s : mouse) : Prop :=
  (0 ≤ s.mouse_state.x ∧ s.mouse_state.x ≤ 799) ∧ 0 ≤ s.mouse_state.y ∧ s.mouse_state.y ≤ 599

theorem limited_eq {size : ℤ} (h : 0 < size) (v : ℤ) :
    limited size v = max 0 (min (size - 1) v) := by
  unfold limited
  dsimp only
  split_ifs
  all_goals omega

theorem limited_mem {size : ℤ} (h : 0 < size) (v : ℤ) :
    0 ≤ limited size v ∧ limited size v ≤ size - 1 := by
  rw [limited_eq h]
  omega

theorem onScreen_call (s : mouse) (ports : UInt8 × UInt8) (h : OnScreen s) :
    OnScreen (call s ports) := by
  unfold call ps2_mouse_handler
  split_ifs
  · exact h
  · exact h
  · exact h
  · exact h
  · unfold OnScreen use_packet
    dsimp only
    split
    · exact h
    · exact ⟨limited_mem (by decide) _, limited_mem (by decide) _⟩
  · exact h

/-! ## Packets -/

/-- A packet as the mouse sends it: its first byte has bit 3 set. -/
structure packet where
  flags : UInt8
  dx : UInt8
  dy : UInt8
  aligned : flags &&& 0x08 ≠ 0

def packet.bytes (p : packet) : List UInt8 := [p.flags, p.dx, p.dy]

/-- The three calls for a packet. -/
def take (s : mouse) (p : packet) : mouse :=
  p.bytes.foldl (fun s data => ps2_mouse_handler s 1 data) s

def packet.Overflow (p : packet) : Prop := p.flags &&& 0xC0 ≠ 0

instance (p : packet) : Decidable p.Overflow := inferInstanceAs (Decidable (_ ≠ _))

def packet.x_sign (p : packet) : Bool := p.flags &&& 0x10 ≠ 0

def packet.y_sign (p : packet) : Bool := p.flags &&& 0x20 ≠ 0

/-- A sign and a magnitude as a number of 9 bits in two's complement. -/
def delta (sign : Bool) (magnitude : UInt8) : ℤ := (BitVec.cons sign magnitude.toBitVec).toInt

/-- The position behind a packet; the screen counts downwards, the mouse upwards. -/
def packet.target (p : packet) (x y : ℤ) : ℤ × ℤ :=
  (max 0 (min 799 (x + delta p.x_sign p.dx)), max 0 (min 599 (y - delta p.y_sign p.dy)))

/-- What a packet has to do with the position. -/
def Moves (s : mouse) (p : packet) : Prop :=
  let s' := take s p
  (p.Overflow → (s'.mouse_state.x, s'.mouse_state.y) = (s.mouse_state.x, s.mouse_state.y))
    ∧ (¬p.Overflow →
      (s'.mouse_state.x, s'.mouse_state.y) = p.target s.mouse_state.x s.mouse_state.y)

/-- No magnitude of 128 or more stands beside a positive sign. -/
def packet.Readable (p : packet) : Prop :=
  p.Overflow ∨ ((p.x_sign = true ∨ p.dx.toNat < 128) ∧ (p.y_sign = true ∨ p.dy.toNat < 128))

/-! ## Signs -/

/-- The signs of all bytes: with the flag, in the `int8_t` alone, and in 9 bits. -/
theorem byte_signs : ∀ n < 256,
    ((UInt8.ofNat n).toInt8.toInt32 ||| (0xFFFFFF00 : UInt32).toInt32).toInt = (n : ℤ) - 256
      ∧ (UInt8.ofNat n).toInt8.toInt32.toInt = (if n < 128 then (n : ℤ) else n - 256)
      ∧ delta true (UInt8.ofNat n) = (n : ℤ) - 256 ∧ delta false (UInt8.ofNat n) = (n : ℤ) := by
  decide +kernel

/-- With the same sign the handler takes the movement as it is. -/
theorem relative_eq {b flags bit : UInt8} (h : flags &&& bit ≠ 0 ∨ b.toNat < 128) :
    (relative b.toInt8 flags bit).toInt = delta (flags &&& bit ≠ 0) b := by
  have hbyte := byte_signs b.toNat b.toNat_lt
  rw [UInt8.ofNat_toNat] at hbyte
  unfold relative
  by_cases hsign : flags &&& bit ≠ 0
  · rw [if_pos hsign, decide_eq_true hsign, hbyte.2.2.1]
    exact hbyte.1
  · rw [if_neg hsign, decide_eq_false hsign, hbyte.2.2.2, hbyte.2.1,
      if_pos (h.resolve_left hsign)]

/-- Else it takes the movement for one of 256 less. -/
theorem relative_lost {b flags bit : UInt8} (h : ¬(flags &&& bit ≠ 0 ∨ b.toNat < 128)) :
    (relative b.toInt8 flags bit).toInt = delta (flags &&& bit ≠ 0) b - 256
      ∧ 128 ≤ delta (flags &&& bit ≠ 0) b ∧ delta (flags &&& bit ≠ 0) b ≤ 255 := by
  obtain ⟨hsign, hhigh⟩ := not_or.mp h
  have hbyte := byte_signs b.toNat b.toNat_lt
  have hlt := b.toNat_lt
  rw [UInt8.ofNat_toNat] at hbyte
  unfold relative
  rw [if_neg hsign, decide_eq_false hsign, hbyte.2.2.2, hbyte.2.1, if_neg hhigh]
  omega

/-- On a screen of more than 256 places the difference shows. -/
theorem limited_ne {size v d : ℤ} (hsize : 257 ≤ size) (hv : 0 ≤ v ∧ v ≤ size - 1)
    (hd : 128 ≤ d ∧ d ≤ 255) :
    limited size (v + (d - 256)) ≠ max 0 (min (size - 1) (v + d))
      ∧ limited size (v - (d - 256)) ≠ max 0 (min (size - 1) (v - d)) := by
  rw [limited_eq (by omega), limited_eq (by omega)]
  omega

/-! ## A packet -/

variable {s : mouse} {p : packet}

/-- The array behind a packet. -/
def packet.stored (p : packet) : Fin 3 → Int8 := ![p.flags.toInt8, p.dx.toInt8, p.dy.toInt8]

theorem take_eq (hcycle : s.mouse_cycle = 0) (p : packet) :
    take s p = { mouse_state := use_packet s.mouse_state p.stored, mouse_cycle := 0,
                 mouse_packet := p.stored } := by
  have hstored : Function.update (Function.update (Function.update s.mouse_packet 0
      p.flags.toInt8) 1 p.dx.toInt8) 2 p.dy.toInt8 = p.stored := by
    funext i
    fin_cases i <;> rfl
  have h1 : ps2_mouse_handler s 1 p.flags = { s with
      mouse_packet := Function.update s.mouse_packet 0 p.flags.toInt8
      mouse_cycle := 1 } := by
    unfold ps2_mouse_handler
    rw [if_neg (by decide), if_pos hcycle, if_pos p.aligned]
  show ps2_mouse_handler (ps2_mouse_handler (ps2_mouse_handler s 1 p.flags) 1 p.dx) 1 p.dy = _
  rw [h1, ← hstored]
  rfl

/-- The handler's position behind a packet. -/
theorem take_position (hcycle : s.mouse_cycle = 0) (p : packet) :
    ((take s p).mouse_state.x, (take s p).mouse_state.y)
      = if p.Overflow then (s.mouse_state.x, s.mouse_state.y)
        else (limited 800 (s.mouse_state.x + (relative p.dx.toInt8 p.flags 0x10).toInt),
          limited 600 (s.mouse_state.y - (relative p.dy.toInt8 p.flags 0x20).toInt)) := by
  have hflags : (p.stored 0).toUInt8 = p.flags := UInt8.toUInt8_toInt8 p.flags
  rw [take_eq hcycle]
  unfold use_packet
  rw [hflags]
  dsimp only
  by_cases hover : p.Overflow
  · rw [if_pos hover]
    exact congrArg (fun m : kgfx_mouse_t => (m.x, m.y)) (if_pos hover)
  · rw [if_neg hover]
    exact congrArg (fun m : kgfx_mouse_t => (m.x, m.y)) (if_neg hover)

/-- On either axis the handler is right exactly where it finds the same sign. -/
theorem axis_iff {size v : ℤ} (b flags bit : UInt8) (hsize : 257 ≤ size)
    (hv : 0 ≤ v ∧ v ≤ size - 1) :
    (limited size (v + (relative b.toInt8 flags bit).toInt)
        = max 0 (min (size - 1) (v + delta (flags &&& bit ≠ 0) b))
      ↔ flags &&& bit ≠ 0 ∨ b.toNat < 128)
    ∧ (limited size (v - (relative b.toInt8 flags bit).toInt)
        = max 0 (min (size - 1) (v - delta (flags &&& bit ≠ 0) b))
      ↔ flags &&& bit ≠ 0 ∨ b.toNat < 128) := by
  by_cases h : flags &&& bit ≠ 0 ∨ b.toNat < 128
  · rw [relative_eq h]
    exact ⟨iff_of_true (limited_eq (by omega) _) h, iff_of_true (limited_eq (by omega) _) h⟩
  · obtain ⟨hlost, hrange⟩ := relative_lost h
    have hne := limited_ne hsize hv hrange
    rw [hlost]
    exact ⟨iff_of_false hne.1 h, iff_of_false hne.2 h⟩

theorem moves_iff (hcycle : s.mouse_cycle = 0) (h : OnScreen s) (p : packet) :
    Moves s p ↔ p.Readable := by
  have hx := (axis_iff p.dx p.flags 0x10 (show (257 : ℤ) ≤ 800 by decide) h.1).1
  have hy := (axis_iff p.dy p.flags 0x20 (show (257 : ℤ) ≤ 600 by decide) h.2).2
  unfold Moves packet.Readable packet.target packet.x_sign packet.y_sign
  dsimp only
  rw [take_position hcycle]
  by_cases hover : p.Overflow
  · rw [if_pos hover]
    exact iff_of_true ⟨fun _ => rfl, fun h => absurd hover h⟩ (Or.inl hover)
  · rw [if_neg hover, or_iff_right hover, decide_eq_true_eq, decide_eq_true_eq, ← hx, ← hy]
    constructor
    · intro hmoves
      exact Prod.mk.inj (hmoves.2 hover)
    · intro hboth
      exact ⟨fun h => absurd h hover, fun _ => Prod.ext hboth.1 hboth.2⟩

/-! ## Streams -/

/-- Between two packets. -/
def Waiting (s : mouse) : Prop := s.mouse_cycle = 0 ∧ OnScreen s

theorem waiting_boot : Waiting boot := ⟨rfl, by decide, by decide⟩

theorem waiting_take (s : mouse) (p : packet) (h : Waiting s) : Waiting (take s p) := by
  have hscreen (s : mouse) (hs : OnScreen s) (data : UInt8) :
      OnScreen (ps2_mouse_handler s 1 data) := onScreen_call s (1, data) hs
  refine ⟨by rw [take_eq h.1], ?_⟩
  exact hscreen _ (hscreen _ (hscreen s h.2 _) _) _

/-- **The mouse**: the cursor stays on the screen whatever the handler reads, and every packet of a
stream moves it as the mouse says, or not at all for an overflow, exactly if no packet without an
overflow has a magnitude of 128 or more beside a positive sign. -/
theorem mouse_iff (calls : List (UInt8 × UInt8)) (packets : List packet) :
    ((∀ s ∈ states call boot calls, OnScreen s) ∧ ∀ q ∈ steps take boot packets, Moves q.1 q.2)
      ↔ ∀ p ∈ packets, p.Readable := by
  have hscreen := states_keep onScreen_call waiting_boot.2 calls
  have hwait := steps_keep waiting_take waiting_boot packets
  rw [and_iff_right hscreen]
  conv_rhs => rw [← map_steps take boot packets]
  rw [List.forall_mem_map]
  constructor
  · intro hmoves q hq
    exact (moves_iff (hwait q hq).1 (hwait q hq).2 q.2).mp (hmoves q hq)
  · intro hread q hq
    exact (moves_iff (hwait q hq).1 (hwait q hq).2 q.2).mpr (hread q hq)

/-- 200 places to the right. -/
def right_200 : packet := ⟨0x08, 200, 0, by decide⟩

/-- The cursor goes 56 places to the left. -/
theorem not_moves_right : ¬∀ (packets : List packet), ∀ q ∈ steps take boot packets,
    Moves q.1 q.2 := by
  intro h
  have hmoves := h [right_200] (boot, right_200) (List.mem_singleton_self _)
  have hposition := hmoves.2 (by unfold packet.Overflow; decide)
  exact absurd hposition (by decide)

end SysInC.Ps2Mouse
