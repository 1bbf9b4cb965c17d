/-
Which passwords `derive_key` of `krypt/krypt.c` tells apart.

It hashes the first 64 characters of a password with the salt behind them. As a salt has 16 bytes,
that says where the password ends, and nothing else is lost (`first_input_eq_iff`). The prompt
takes 127 characters: those from the 65th on do not count, and a vault opens without them
(`decrypt_payload_of_first_input`).
-/
import SysInC.CString
import SysInC.CText
import SysInC.Krypt

set_option autoImplicit false

namespace SysInC.Krypt

open CString (text_of)
open CText (fgets)

/-! ## The prompt -/

/-- `sizeof(pass)` -/
def sizeof_pass : ℕ := 128

/-- What `get_hidden_password` leaves in `out_pass` of what is typed; at the end of the input that
is the empty string. -/
def get_hidden_password (max_len : ℕ) (stdin : List UInt8) : List UInt8 :=
  ((text_of (fgets max_len stdin).1).reverse.dropWhile fun c => c = 13 ∨ c = 10).reverse

/-- A string that the prompt has room for. -/
@[ext] structure password where
  text : List UInt8
  length_le : text.length ≤ 127
  no_nul : 0 ∉ text
  deriving DecidableEq

theorem hidden_password_sublist (max_len : ℕ) (stdin : List UInt8) :
    (get_hidden_password max_len stdin).Sublist (text_of (fgets max_len stdin).1) := by
  have hsuffix := (List.dropWhile_suffix (l := (text_of (fgets max_len stdin).1).reverse)
    fun c => c = 13 ∨ c = 10).sublist.reverse
  rwa [List.reverse_reverse] at hsuffix

/-- The prompt of `main`. -/
def typed_password (stdin : List UInt8) : password where
  text := get_hidden_password sizeof_pass stdin
  length_le := by
    have hpass := (hidden_password_sublist sizeof_pass stdin).length_le
    have htext := (List.takeWhile_prefix (l := (fgets sizeof_pass stdin).1) (· != 0)).length_le
    have hread : (fgets sizeof_pass stdin).1.length ≤ 127 := by
      unfold fgets
      dsimp only
      rw [List.length_take, sizeof_pass]
      omega
    exact hpass.trans (htext.trans hread)
  no_nul := fun h => CString.zero_notMem_text_of _ ((hidden_password_sublist _ _).subset h)

/-! ## The first hash -/

/-- The bytes of `buffer` that the first `sha256_update` of `derive_key` is given. -/
def first_input (password salt : List UInt8) : List UInt8 :=
  let pass_len := if 64 < password.length then 64 else password.length
  password.take pass_len ++ salt

theorem first_input_eq (password salt : List UInt8) :
    first_input password salt = password.take 64 ++ salt := by
  unfold first_input
  dsimp only
  split
  · rfl
  · next hshort => rw [List.take_length, List.take_of_length_le (Nat.not_lt.mp hshort)]

/-- The keys see of a password what the first hash does. -/
theorem derive_key_of_first_input {p₁ p₂ salt : List UInt8}
    (h : first_input p₁ salt = first_input p₂ salt) : derive_key p₁ salt = derive_key p₂ salt := by
  rw [first_input_eq, first_input_eq] at h
  unfold derive_key
  rw [h]

/-- So does a vault. -/
theorem decrypt_payload_of_first_input {p₁ p₂ : List UInt8} (in_vault : List UInt8)
    (h : ∀ salt, first_input p₁ salt = first_input p₂ salt) :
    decrypt_payload in_vault p₁ = decrypt_payload in_vault p₂ := by
  have hkeys : ∀ salt, derive_key p₁ salt = derive_key p₂ salt := fun salt =>
    derive_key_of_first_input (h salt)
  unfold decrypt_payload
  simp only [hkeys]

/-- The passwords and the salts that the first hash does not tell apart. -/
theorem first_input_eq_iff (p₁ p₂ : List UInt8) (s₁ s₂ : salt_bytes) :
    first_input p₁ s₁.toList = first_input p₂ s₂.toList ↔ p₁.take 64 = p₂.take 64 ∧ s₁ = s₂ := by
  rw [first_input_eq, first_input_eq]
  constructor
  · intro h
    -- a salt has a fixed length, which is what is behind the password
    obtain ⟨hpass, hsalt⟩ := List.append_inj' h (by rw [Vector.length_toList, Vector.length_toList])
    exact ⟨hpass, Vector.toList_inj.mp hsalt⟩
  · rintro ⟨hpass, rfl⟩
    rw [hpass]

/-- **Separation.** Two passwords and salts give the first hash the same bytes exactly when the
salts are the same and the passwords are, up to the 64th character; so passwords that are no longer
are told apart. -/
theorem passwords_separated (p₁ p₂ : password) (s₁ s₂ : salt_bytes) :
    (first_input p₁.text s₁.toList = first_input p₂.text s₂.toList
        ↔ p₁.text.take 64 = p₂.text.take 64 ∧ s₁ = s₂)
      ∧ (p₁.text.length ≤ 64 → p₂.text.length ≤ 64 →
          first_input p₁.text s₁.toList = first_input p₂.text s₂.toList → p₁ = p₂ ∧ s₁ = s₂) := by
  refine ⟨first_input_eq_iff p₁.text p₂.text s₁ s₂, fun h₁ h₂ heq => ?_⟩
  obtain ⟨htake, hsalt⟩ := (first_input_eq_iff p₁.text p₂.text s₁ s₂).mp heq
  rw [List.take_of_length_le h₁, List.take_of_length_le h₂] at htake
  exact ⟨password.ext htake, hsalt⟩

/-- A line of 65 characters at the prompt. -/
def long_line (last : UInt8) : List UInt8 := List.replicate 64 97 ++ [last, 10]

/-- Two that differ in the last one give the same bytes, and open the same vaults. -/
theorem not_separated_long : ¬∀ (p₁ p₂ : password) (s₁ s₂ : salt_bytes),
    first_input p₁.text s₁.toList = first_input p₂.text s₂.toList → p₁ = p₂ ∧ s₁ = s₂ := by
  intro hall
  let salt : salt_bytes := Vector.replicate SALT_SIZE 0
  have heq := hall (typed_password (long_line 97)) (typed_password (long_line 98)) salt salt
    (by decide)
  exact absurd heq.1 (by decide)

end SysInC.Krypt
