/-
Shredding: when `encrypt_vault` destroys its source, is the payload in the vault?

No result of a `write` is looked at, of the temporary file or of the vault. The vault is whole
exactly when each of them stores its whole buffer: a file is at most as long as the buffers that
were written to it, and as long only if nothing is missing.
-/
import SysInC.KryptVault

set_option autoImplicit false

namespace SysInC.Krypt

open SysInC.Kvfs (literal)

/-! ## Writes -/

/-- The writes from number `i` on store their whole buffers. -/
def AllStored (writes : ℕ → Option ℕ) : ℕ → List (List UInt8) → Prop
  | _, [] => True
  | i, buffer :: buffers => buffer.length ≤ (writes i).getD 0 ∧ AllStored writes (i + 1) buffers

variable {writes : ℕ → Option ℕ}

section

-- the equations of these are made here, and not by each proof anew
attribute [local simp] AllStored write_all encrypt_vault copy_chunks

end

theorem allStored_append (i : ℕ) (a b : List (List UInt8)) :
    AllStored writes i (a ++ b) ↔ AllStored writes i a ∧ AllStored writes (i + a.length) b := by
  induction a generalizing i with
  | nil =>
      rw [List.nil_append, List.length_nil, Nat.add_zero, AllStored, true_and]
  | cons buffer a ih =>
      rw [List.cons_append, AllStored, AllStored, ih, and_assoc, List.length_cons, Nat.add_assoc,
        Nat.add_comm 1]

theorem write_all_of_stored {i : ℕ} {buffers : List (List UInt8)} (h : AllStored writes i buffers) :
    write_all writes i buffers = buffers.flatten := by
  induction buffers generalizing i with
  | nil => rfl
  | cons buffer buffers ih =>
      rw [write_all, stored, List.take_of_length_le h.1, ih h.2, List.flatten_cons]

theorem write_all_length_le (writes : ℕ → Option ℕ) (i : ℕ) (buffers : List (List UInt8)) :
    (write_all writes i buffers).length ≤ buffers.flatten.length := by
  induction buffers generalizing i with
  | nil => exact le_rfl
  | cons buffer buffers ih =>
      rw [write_all, List.flatten_cons, List.length_append, List.length_append]
      exact Nat.add_le_add (List.length_take_le' _ _) (ih (i + 1))

/-- As long as its buffers, only if nothing is missing. -/
theorem stored_of_length {i : ℕ} {buffers : List (List UInt8)}
    (h : buffers.flatten.length ≤ (write_all writes i buffers).length) :
    AllStored writes i buffers := by
  induction buffers generalizing i with
  | nil => trivial
  | cons buffer buffers ih =>
      have hrest := write_all_length_le writes (i + 1) buffers
      have hfirst : (stored (writes i) buffer).length = min ((writes i).getD 0) buffer.length :=
        List.length_take
      rw [write_all, List.flatten_cons, List.length_append, List.length_append] at h
      refine ⟨?_, ih ?_⟩
      · omega
      · omega

/-- Nothing is stored by writes that fail. -/
theorem write_all_of_failed {i : ℕ} (h : ∀ j, i ≤ j → writes j = none)
    (buffers : List (List UInt8)) : write_all writes i buffers = [] := by
  induction buffers generalizing i with
  | nil => rfl
  | cons buffer buffers ih =>
      rw [write_all, h i le_rfl, ih fun j hj => h j (Nat.le_of_succ_le hj)]
      rfl

/-! ## The vault -/

/-- `encrypt_vault` comes as far as its vault, and would write these buffers. -/
structure Starts (env : environment) (buffers : List (List UInt8)) (salt : salt_bytes)
    (nonce : nonce_bytes) : Prop where
  target : ∃ t, env.target = some t ∧ payload_writes t = some buffers
  tmp_opens : env.tmp_opens = true
  urandom : env.urandom = some (salt, nonce)
  out_opens : env.out_opens = true

/-- Every write of the payload and of the vault stores its whole buffer. -/
def environment.StoresAll (env : environment) (pass : List UInt8) : Prop :=
  ∀ buffers salt nonce, Starts env buffers salt nonce →
    AllStored env.writes 0 (buffers ++ vault_writes pass salt nonce buffers.flatten)

/-- Where the source is shredded, the vault is whole, and decrypts to the payload. -/
def ShredsSafely (env : environment) (in_target pass : List UInt8) (auto_shred : Bool) : Prop :=
  (encrypt_vault env in_target pass auto_shred).shred ≠ none →
    ∃ buffers salt nonce, Starts env buffers salt nonce
      ∧ (encrypt_vault env in_target pass auto_shred).out_vault
        = some (vault_writes pass salt nonce buffers.flatten).flatten
      ∧ decrypt_payload (vault_writes pass salt nonce buffers.flatten).flatten pass
        = .ok buffers.flatten

variable {env : environment} {in_target pass : List UInt8} {auto_shred : Bool}
  {buffers : List (List UInt8)} {salt : salt_bytes} {nonce : nonce_bytes}

theorem encrypt_vault_eq (h : Starts env buffers salt nonce) :
    encrypt_vault env in_target pass auto_shred
      = ⟨0, some (write_all env.writes buffers.length
          (vault_writes pass salt nonce (write_all env.writes 0 buffers))),
        if auto_shred then some (rmd_cmd in_target) else none⟩ := by
  obtain ⟨t, ht, hbuffers⟩ := h.target
  rw [encrypt_vault, ht]
  dsimp only
  rw [if_pos h.tmp_opens, hbuffers, h.urandom]
  dsimp only
  rw [if_pos h.out_opens]

theorem encrypt_vault_stops (h : ∀ buffers salt nonce, ¬ Starts env buffers salt nonce) :
    encrypt_vault env in_target pass auto_shred = ⟨-1, none, none⟩ := by
  unfold encrypt_vault
  split
  · rfl
  · rename_i t ht
    by_cases htmp : env.tmp_opens = true
    · rw [if_pos htmp]
      split
      · rename_i buffers salt nonce hbuffers hrandom
        by_cases hout : env.out_opens = true
        · exact absurd ⟨⟨t, ht, hbuffers⟩, htmp, hrandom, hout⟩ (h buffers salt nonce)
        · exact if_neg hout
      · rfl
    · exact if_neg htmp

/-- The source is shredded with `-s`, once the vault is written. -/
theorem shreds_iff :
    (encrypt_vault env in_target pass auto_shred).shred ≠ none
      ↔ auto_shred = true ∧ ∃ buffers salt nonce, Starts env buffers salt nonce := by
  by_cases hstarts : ∃ buffers salt nonce, Starts env buffers salt nonce
  · obtain ⟨buffers, salt, nonce, h⟩ := hstarts
    have hshred : (encrypt_vault env in_target pass auto_shred).shred
        = if auto_shred then some (rmd_cmd in_target) else none := by rw [encrypt_vault_eq h]
    rw [hshred]
    constructor
    · intro hne
      refine ⟨?_, buffers, salt, nonce, h⟩
      by_contra hoff
      exact hne (if_neg hoff)
    · rintro ⟨hon, -⟩
      rw [if_pos hon]
      exact Option.some_ne_none _
  · have hstops : encrypt_vault env in_target pass auto_shred = ⟨-1, none, none⟩ :=
      encrypt_vault_stops fun buffers salt nonce h => hstarts ⟨buffers, salt, nonce, h⟩
    rw [hstops]
    constructor
    · intro hne
      exact absurd rfl hne
    · intro h
      exact absurd h.2 hstarts

theorem Starts.unique {buffers' : List (List UInt8)} {salt' : salt_bytes} {nonce' : nonce_bytes}
    (h : Starts env buffers salt nonce) (h' : Starts env buffers' salt' nonce') :
    buffers' = buffers ∧ salt' = salt ∧ nonce' = nonce := by
  obtain ⟨t, ht, hbuffers⟩ := h.target
  obtain ⟨t', ht', hbuffers'⟩ := h'.target
  rw [ht] at ht'
  cases ht'
  rw [hbuffers] at hbuffers'
  cases hbuffers'
  have hrandom := h'.urandom
  rw [h.urandom] at hrandom
  cases hrandom
  exact ⟨rfl, rfl, rfl⟩

/-- The vault is whole exactly when nothing is missing, of the payload and of the vault. -/
theorem vault_whole_iff :
    write_all writes buffers.length (vault_writes pass salt nonce (write_all writes 0 buffers))
        = (vault_writes pass salt nonce buffers.flatten).flatten
      ↔ AllStored writes 0 (buffers ++ vault_writes pass salt nonce buffers.flatten) := by
  rw [allStored_append, Nat.zero_add]
  constructor
  · intro heq
    have hlength := congrArg List.length heq
    have hvault := write_all_length_le writes buffers.length
      (vault_writes pass salt nonce (write_all writes 0 buffers))
    rw [hlength, vault_length, vault_length] at hvault
    have hpayload : AllStored writes 0 buffers := stored_of_length (by omega)
    rw [write_all_of_stored hpayload] at hlength
    exact ⟨hpayload, stored_of_length hlength.ge⟩
  · rintro ⟨hpayload, hvault⟩
    rw [write_all_of_stored hpayload, write_all_of_stored hvault]

/-- **Shredding.** It is safe exactly when every write stores its whole buffer, or `-s` is not
given, or `encrypt_vault` gives up before its vault is open. -/
theorem shreds_safely_iff :
    ShredsSafely env in_target pass auto_shred ↔ (auto_shred = true → env.StoresAll pass) := by
  constructor
  · intro hsafe hshred buffers salt nonce hstarts
    obtain ⟨buffers', salt', nonce', hstarts', hvault, -⟩ :=
      hsafe (shreds_iff.mpr ⟨hshred, buffers, salt, nonce, hstarts⟩)
    obtain ⟨rfl, rfl, rfl⟩ := hstarts.unique hstarts'
    rw [encrypt_vault_eq hstarts] at hvault
    exact vault_whole_iff.mp (Option.some_inj.mp hvault)
  · intro hstored hshreds
    obtain ⟨hshred, buffers, salt, nonce, hstarts⟩ := shreds_iff.mp hshreds
    refine ⟨buffers, salt, nonce, hstarts, ?_, ?_⟩
    · rw [encrypt_vault_eq hstarts]
      exact congrArg some (vault_whole_iff.mpr (hstored hshred buffers salt nonce hstarts))
    · exact (decrypt_encrypt pass salt nonce buffers.flatten).2.2.2

/-! ## A full disk -/

/-- A file of one byte, on a disk that is full once the payload is copied. -/
def full_disk : environment where
  target := some (.file (some [7]))
  tmp_opens := true
  urandom := some (Vector.replicate SALT_SIZE 0, Vector.replicate NONCE_SIZE 0)
  out_opens := true
  writes i := if i < 2 then some 1 else none

/-- The vault is empty, and the source is shredded. -/
theorem full_disk_shreds :
    encrypt_vault full_disk (literal "x") (literal "pw") true
        = ⟨0, some [], some (rmd_cmd (literal "x"))⟩
      ∧ decrypt_payload [] (literal "pw") = .error .invalid
      ∧ ¬ ShredsSafely full_disk (literal "x") (literal "pw") true := by
  have hchunks : copy_chunks [7] = [[7]] := by
    rw [copy_chunks, dif_pos (by decide), copy_chunks]
    rfl
  have hbuffers : payload_writes (.file (some [7])) = some [[VAULT_TYPE_FILE], [7]] := by
    rw [payload_writes, Option.map_some, hchunks]
  have hstarts : Starts full_disk [[VAULT_TYPE_FILE], [7]] (Vector.replicate SALT_SIZE 0)
      (Vector.replicate NONCE_SIZE 0) := ⟨⟨_, rfl, hbuffers⟩, rfl, rfl, rfl⟩
  have hfull : ∀ j, [[VAULT_TYPE_FILE], [(7 : UInt8)]].length ≤ j → full_disk.writes j = none :=
    fun j hj => if_neg (Nat.not_lt.mpr hj)
  have hvault : encrypt_vault full_disk (literal "x") (literal "pw") true
      = ⟨0, some [], some (rmd_cmd (literal "x"))⟩ := by
    rw [encrypt_vault_eq hstarts, write_all_of_failed hfull]
    rfl
  refine ⟨hvault, rfl, fun hsafe => ?_⟩
  have hshreds : (encrypt_vault full_disk (literal "x") (literal "pw") true).shred ≠ none := by
    rw [hvault]
    exact Option.some_ne_none _
  obtain ⟨buffers, salt, nonce, -, hempty, -⟩ := hsafe hshreds
  rw [hvault] at hempty
  have hlength := vault_length (literal "pw") salt nonce buffers.flatten
  rw [← Option.some_inj.mp hempty, List.length_nil] at hlength
  omega

end SysInC.Krypt
