/-
`calc_crc32` of `zpack.c` as the register of a cyclic redundancy check.

A byte is its eight bits, the lowest first, and the checksum that of the bits of the file. So a
checksum is taken in parts, and no difference within 32 bits escapes it (`crc_laws`).
-/
import SysInC.CrcRegister
import SysInC.ZpackArchive

set_option autoImplicit false

namespace SysInC.Zpack

open CrcRegister

/-- `0xEDB88320` -/
def polynomial : BitVec 32 := 0xEDB88320#32

/-! ## Bits -/

def byte_bits (b : UInt8) : List Bool := (List.range 8).map b.toBitVec.getLsbD

/-- The bits of a file, those of a byte from the lowest on. -/
def bits (data : List UInt8) : List Bool := data.flatMap byte_bits

theorem bits_cons (b : UInt8) (data : List UInt8) :
    bits (b :: data) = byte_bits b ++ bits data :=
  List.flatMap_cons

theorem byte_bits_length (b : UInt8) : (byte_bits b).length = 8 := by
  rw [byte_bits, List.length_map, List.length_range]

theorem bits_append (xs ys : List UInt8) : bits (xs ++ ys) = bits xs ++ bits ys :=
  List.flatMap_append

theorem bits_length (data : List UInt8) : (bits data).length = 8 * data.length := by
  induction data with
  | nil => rfl
  | cons b data ih =>
      rw [bits_cons, List.length_append, byte_bits_length, ih, List.length_cons]
      omega

theorem pack_byte_bits (b : UInt8) : (pack (byte_bits b) : BitVec 32) = b.toUInt32.toBitVec := by
  apply BitVec.eq_of_getLsbD_eq
  intro i hi
  rw [getLsbD_pack, UInt8.toBitVec_toUInt32, BitVec.getLsbD_setWidth, byte_bits]
  congr 1
  rcases Nat.lt_or_ge i 8 with hlt | hge
  · rw [List.getD_eq_getElem _ _ (by simpa using hlt)]
    simp
  · rw [List.getD_eq_default _ _ (by simpa using hge), BitVec.getLsbD_of_ge _ _ hge]

theorem byte_bits_injective : Function.Injective byte_bits := by
  intro a b h
  apply UInt8.toBitVec_inj.mp
  apply BitVec.eq_of_getLsbD_eq
  intro i hi
  exact List.map_inj_left.mp h i (List.mem_range.mpr hi)

theorem bits_injective : Function.Injective bits := by
  intro xs
  induction xs with
  | nil =>
      intro ys h
      cases ys with
      | nil => rfl
      | cons b ys => cases h
  | cons a xs ih =>
      intro ys h
      cases ys with
      | nil => cases h
      | cons b ys =>
        rw [bits_cons, bits_cons] at h
        obtain ⟨hhead, htail⟩ := List.append_inj h (by rw [byte_bits_length, byte_bits_length])
        rw [byte_bits_injective hhead, ih htail]

/-! ## The register -/

theorem and_one (crc : UInt32) :
    crc &&& 1 = if crc.toBitVec.getLsbD 0 then 1 else 0 := by
  apply UInt32.toBitVec_inj.mp
  rw [UInt32.toBitVec_and]
  refine BitVec.and_one_eq_setWidth_ofBool_getLsbD.trans ?_
  cases crc.toBitVec.getLsbD 0 <;> rfl

theorem crc_bit_toBitVec (crc : UInt32) :
    (crc_bit crc).toBitVec = step polynomial crc.toBitVec := by
  rw [crc_bit, and_one, step, UInt32.toBitVec_xor]
  cases crc.toBitVec.getLsbD 0 <;> rfl

theorem crc_byte_toBitVec (crc : UInt32) (b : UInt8) :
    (crc_byte crc b).toBitVec = run polynomial crc.toBitVec (byte_bits b) := by
  have hword : ∀ k c, (crc_bit^[k] c).toBitVec = (step polynomial)^[k] c.toBitVec := by
    intro k
    induction k with
    | zero => exact fun c => rfl
    | succ k ih =>
        intro c
        rw [Function.iterate_succ_apply, Function.iterate_succ_apply, ih, crc_bit_toBitVec]
  rw [run_eq_steps _ _ (by rw [byte_bits_length]; decide), byte_bits_length, pack_byte_bits,
    crc_byte, hword, UInt32.toBitVec_xor]

theorem crc_bytes_toBitVec (crc : UInt32) (data : List UInt8) :
    (data.foldl crc_byte crc).toBitVec = run polynomial crc.toBitVec (bits data) := by
  induction data generalizing crc with
  | nil => rfl
  | cons b data ih =>
      rw [List.foldl_cons, ih, crc_byte_toBitVec, bits_cons, run_append]

/-- Two checksums are the same where the registers are. -/
theorem calc_crc32_inj {xs ys : List UInt8} {crc : UInt32}
    (h : calc_crc32 xs crc = calc_crc32 ys crc) :
    run polynomial (~~~crc).toBitVec (bits xs) = run polynomial (~~~crc).toBitVec (bits ys) := by
  rw [← crc_bytes_toBitVec, ← crc_bytes_toBitVec]
  exact congrArg UInt32.toBitVec (UInt32.not_inj.mp h)

theorem calc_crc32_append (xs ys : List UInt8) (crc : UInt32) :
    calc_crc32 (xs ++ ys) crc = calc_crc32 ys (calc_crc32 xs crc) := by
  rw [calc_crc32, calc_crc32, calc_crc32, List.foldl_append, UInt32.not_not]

/-- Files that differ in as many bits as the register has. -/
theorem calc_crc32_ne_of_window {xs ys : List UInt8} (hne : xs ≠ ys)
    {front us vs back : List Bool} (hxs : bits xs = front ++ (us ++ back))
    (hys : bits ys = front ++ (vs ++ back)) (hlen : us.length = vs.length) (hle : us.length ≤ 32)
    (crc : UInt32) : calc_crc32 xs crc ≠ calc_crc32 ys crc := by
  intro hcrc
  have hwindow : us ≠ vs := by
    rintro rfl
    exact hne (bits_injective (hxs.trans hys.symm))
  have hrun := calc_crc32_inj hcrc
  rw [hxs, hys] at hrun
  exact run_ne_of_window (by decide) _ front back hlen hle hwindow hrun

theorem calc_crc32_ne_of_bits {xs ys : List UInt8} (hne : xs ≠ ys) {i : ℕ}
    (h : DifferWithin i 32 (bits xs) (bits ys)) (crc : UInt32) :
    calc_crc32 xs crc ≠ calc_crc32 ys crc := by
  obtain ⟨front, us, vs, back, hxs, hys, hlen, hle⟩ := h.split
  exact calc_crc32_ne_of_window hne hxs hys hlen hle crc

/-- Four bytes are 32 bits. -/
theorem calc_crc32_ne_of_bytes {xs ys : List UInt8} (hne : xs ≠ ys) {i : ℕ}
    (h : DifferWithin i 4 xs ys) (crc : UInt32) : calc_crc32 xs crc ≠ calc_crc32 ys crc := by
  obtain ⟨front, us, vs, back, hxs, hys, hlen, hle⟩ := h.split
  have hbits : ∀ ws, bits (front ++ (ws ++ back)) = bits front ++ (bits ws ++ bits back) := by
    intro ws
    rw [bits_append, bits_append]
  refine calc_crc32_ne_of_window hne (hxs ▸ hbits us) (hys ▸ hbits vs) ?_ ?_ crc
  · rw [bits_length, bits_length, hlen]
  · rw [bits_length]
    omega

/-- **The checksum.** It is taken in parts, from any value on; and files of one length that differ,
but only within four consecutive bytes, or within 32 consecutive bits, have different ones. -/
theorem crc_laws :
    (∀ (a b : List UInt8) (crc : UInt32),
        calc_crc32 (a ++ b) crc = calc_crc32 b (calc_crc32 a crc))
      ∧ (∀ (a b : List UInt8) (i : ℕ) (crc : UInt32), a ≠ b → DifferWithin i 4 a b →
          calc_crc32 a crc ≠ calc_crc32 b crc)
      ∧ ∀ (a b : List UInt8) (i : ℕ) (crc : UInt32), a ≠ b → DifferWithin i 32 (bits a) (bits b) →
          calc_crc32 a crc ≠ calc_crc32 b crc :=
  ⟨calc_crc32_append,
    fun _ _ _ crc hne h => calc_crc32_ne_of_bytes hne h crc,
    fun _ _ _ crc hne h => calc_crc32_ne_of_bits hne h crc⟩

end SysInC.Zpack
