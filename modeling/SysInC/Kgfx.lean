/-
The framebuffer of `freestanding/kgfx.c` and its pixels, on the 32-bit machine of `test_os`.
-/
import SysInC.CInt
import Mathlib.Logic.Function.Basic

set_option autoImplicit false

namespace SysInC.Kgfx

/-- `buffer` is absent where the pointer is `NULL`. -/
structure kgfx_fb_t where
  buffer : Option (ℕ → UInt32)
  width : UInt32
  height : UInt32
  pitch : UInt32

/-- The index is computed in `uint32_t`. -/
def kgfx_draw_pixel (fb : kgfx_fb_t) (x y : ℤ) (color : UInt32) : kgfx_fb_t :=
  match fb.buffer with
  | none => fb
  | some buffer =>
    if x < 0 ∨ (fb.width.toNat : ℤ) ≤ x ∨ y < 0 ∨ (fb.height.toNat : ℤ) ≤ y then fb
    else
      { fb with
        buffer := some (Function.update buffer (CInt.to_uint (y * fb.pitch.toNat + x)) color) }

end SysInC.Kgfx
