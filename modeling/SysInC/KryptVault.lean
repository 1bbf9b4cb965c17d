/-
Encrypting and decrypting: `decrypt_payload` gives back what `vault_writes` was given.

The three loops go over the same chunks. Each leaves the block counter where the next chunk
begins, so that the chunks together are XORed with one key stream from its first byte on, and
hashed as one text.
-/
import SysInC.Krypt

set_option autoImplicit false

namespace SysInC.Krypt

/-! ## Chunks -/

/-- A text is empty, or a chunk and a shorter text. -/
theorem chunks_induction {P : List UInt8 → Prop} (nil : P [])
    (step : ∀ data, 0 < data.length → P (data.drop CHUNK_SZ) → P data) (data : List UInt8) :
    P data := by
  induction hn : data.length using Nat.strong_induction_on generalizing data with
  | _ n ih =>
    subst hn
    rcases Nat.eq_zero_or_pos data.length with hzero | hpos
    · rw [List.eq_nil_of_length_eq_zero hzero]
      exact nil
    · apply step data hpos
      apply ih _ _ _ rfl
      rw [List.length_drop]
      unfold CHUNK_SZ
      omega

theorem copy_chunks_flatten (file : List UInt8) : (copy_chunks file).flatten = file := by
  induction file using chunks_induction with
  | nil => rw [copy_chunks]; rfl
  | step file hpos ih =>
      rw [copy_chunks, dif_pos hpos, List.flatten_cons, ih, List.take_append_drop]

variable {c rest : List UInt8}

/-- A read from a file of which `c` is left to be read. -/
theorem read_take : (c ++ rest).take (next_read c.length) = c.take CHUNK_SZ := by
  unfold next_read
  split_ifs with hmore
  · exact List.take_append_of_le_length (Nat.le_of_lt hmore)
  · rw [List.take_left, List.take_of_length_le (Nat.le_of_not_lt hmore)]

theorem read_left : c.length - (c.take CHUNK_SZ).length = (c.drop CHUNK_SZ).length := by
  rw [List.length_take, List.length_drop]
  omega

theorem read_drop : (c ++ rest).drop (c.take CHUNK_SZ).length = c.drop CHUNK_SZ ++ rest := by
  rw [List.length_take]
  rcases Nat.le_total CHUNK_SZ c.length with hmore | hlast
  · rw [Nat.min_eq_left hmore, List.drop_append_of_le_length hmore]
  · rw [Nat.min_eq_right hlast, List.drop_left, List.drop_of_length_le hlast, List.nil_append]

theorem read_pos (h : 0 < c.length) : 0 < (c.take CHUNK_SZ).length := by
  rw [List.length_take]
  exact Nat.lt_min.mpr ⟨by decide, h⟩

/-! ## The key stream over the chunks -/

/-- The counter behind a chunk is that of the block where the rest begins. -/
theorem xor_stream_chunk (stream : ℕ → UInt8) (j : ℕ) (data : List UInt8) :
    xor_stream stream (64 * j) data
      = xor_stream stream (64 * j) (data.take CHUNK_SZ)
        ++ xor_stream stream (64 * (j + ((data.take CHUNK_SZ).length + 63) / 64))
          (data.drop CHUNK_SZ) := by
  rcases Nat.lt_or_ge data.length CHUNK_SZ with hlast | hmore
  · rw [List.drop_of_length_le hlast.le, List.take_of_length_le hlast.le, xor_stream,
      List.append_nil]
  · have hpos : 64 * (j + (CHUNK_SZ + 63) / 64) = 64 * j + CHUNK_SZ := by
      unfold CHUNK_SZ
      omega
    rw [List.length_take_of_le hmore, hpos]
    exact xor_stream_take_drop _ hmore

variable (key nonce : List UInt8)

/-- `encrypt_vault` XORs what it reads with the key stream, and hashes what it writes. -/
theorem encrypt_loop_eq (tmp : List UInt8) (j : ℕ) (mac_ctx : SHA256_CTX) :
    (encrypt_loop key nonce (1 + UInt32.ofNat j) mac_ctx tmp).1.flatten
        = xor_stream (key_stream key nonce) (64 * j) tmp
      ∧ (encrypt_loop key nonce (1 + UInt32.ofNat j) mac_ctx tmp).2
        = sha256_update mac_ctx (xor_stream (key_stream key nonce) (64 * j) tmp) := by
  induction tmp using chunks_induction generalizing j mac_ctx with
  | nil =>
      rw [encrypt_loop]
      exact ⟨rfl, rfl⟩
  | step tmp hpos ih =>
      rw [encrypt_loop, dif_pos hpos, chacha20_crypt_eq]
      obtain ⟨hout, hmac⟩ := ih (j + ((tmp.take CHUNK_SZ).length + 63) / 64)
        (sha256_update mac_ctx (xor_stream (key_stream key nonce) (64 * j) (tmp.take CHUNK_SZ)))
      dsimp only
      rw [xor_stream_chunk _ j tmp]
      constructor
      · rw [List.flatten_cons, hout]
      · rw [hmac, sha256_update_append]

/-- The first loop of `decrypt_vault` hashes what it reads, and leaves the tag. -/
theorem mac_loop_eq (c rest : List UInt8) (mac_ctx : SHA256_CTX) :
    mac_loop mac_ctx c.length (c ++ rest) = (sha256_update mac_ctx c, rest) := by
  induction c using chunks_induction generalizing mac_ctx with
  | nil =>
      rw [mac_loop]
      rfl
  | step c hpos ih =>
      rw [mac_loop]
      simp only [read_take]
      rw [dif_pos ⟨hpos, read_pos hpos⟩, read_left, read_drop, ih, ← sha256_update_append,
        List.take_append_drop]

/-- The second loop XORs what it reads with the key stream. -/
theorem decrypt_loop_eq (c rest : List UInt8) (j : ℕ) :
    decrypt_loop key nonce (1 + UInt32.ofNat j) c.length (c ++ rest)
      = xor_stream (key_stream key nonce) (64 * j) c := by
  induction c using chunks_induction generalizing j with
  | nil =>
      rw [decrypt_loop]
      rfl
  | step c hpos ih =>
      rw [decrypt_loop]
      simp only [read_take]
      rw [dif_pos ⟨hpos, read_pos hpos⟩, read_left, read_drop, chacha20_crypt_eq, ih,
        ← xor_stream_chunk]

/-! ## Vaults -/

/-- `encrypt_vault` XORs the payload with the key stream from byte 0 on. -/
def ciphertext (pass : List UInt8) (salt : salt_bytes) (nonce : nonce_bytes)
    (payload : List UInt8) : List UInt8 :=
  xor_stream (key_stream (derive_key pass salt.toList).1 nonce.toList) 0 payload

/-- The tag is the hash of `mac_key` and a ciphertext. -/
def tag (pass : List UInt8) (salt : salt_bytes) (text : List UInt8) : List UInt8 :=
  sha256_final (sha256_update sha256_init ((derive_key pass salt.toList).2 ++ text))

variable (pass : List UInt8) (salt : salt_bytes) (nonce : nonce_bytes) (payload : List UInt8)

theorem vault_eq :
    (vault_writes pass salt nonce payload).flatten
      = KRYPT_MAGIC ++ salt.toList ++ nonce.toList ++ (ciphertext pass salt nonce payload
        ++ tag pass salt (ciphertext pass salt nonce payload)) := by
  obtain ⟨hout, hmac⟩ := encrypt_loop_eq (derive_key pass salt.toList).1 nonce.toList payload 0
    (sha256_update sha256_init (derive_key pass salt.toList).2)
  have hone : (1 : UInt32) + UInt32.ofNat 0 = 1 := rfl
  rw [hone, Nat.mul_zero] at hout hmac
  rw [vault_writes, hmac, ← sha256_update_append, List.flatten_append, List.flatten_append, hout,
    ciphertext, tag]
  simp only [List.flatten_cons, List.flatten_nil, List.append_nil, List.append_assoc]

theorem vault_length :
    (vault_writes pass salt nonce payload).flatten.length = header_size + payload.length + 32 := by
  have hmagic : KRYPT_MAGIC.length = 8 := rfl
  rw [vault_eq]
  simp only [List.length_append, hmagic, Vector.length_toList, ciphertext, xor_stream_length, tag,
    sha256_final_length, header_size]
  omega

/-- `decrypt_vault` finds each part where it looks for it. -/
theorem vault_fields {vault text : List UInt8}
    (h : vault = KRYPT_MAGIC ++ salt.toList ++ nonce.toList ++ text) :
    vault.take 8 = KRYPT_MAGIC ∧ (vault.drop 8).take SALT_SIZE = salt.toList
      ∧ (vault.drop (8 + SALT_SIZE)).take NONCE_SIZE = nonce.toList
      ∧ vault.drop header_size = text := by
  have hmagic : KRYPT_MAGIC.length = 8 := rfl
  have hsalt : (KRYPT_MAGIC ++ salt.toList).length = 8 + SALT_SIZE := by
    rw [List.length_append, hmagic, Vector.length_toList]
  have hnonce : (KRYPT_MAGIC ++ salt.toList ++ nonce.toList).length = header_size := by
    rw [List.length_append, hsalt, Vector.length_toList, header_size]
  subst h
  refine ⟨?_, ?_, ?_, ?_⟩
  · rw [List.append_assoc, List.append_assoc]
    exact List.take_left' hmagic
  · rw [List.append_assoc, List.append_assoc, ← hmagic, List.drop_left]
    exact List.take_left' Vector.length_toList
  · rw [List.append_assoc, ← hsalt, List.drop_left]
    exact List.take_left' Vector.length_toList
  · rw [← hnonce, List.drop_left]

/-- `decrypt_vault` accepts the tag of a ciphertext and no other, and XORs the ciphertext with the
key stream from byte 0 on. -/
theorem decrypt_payload_eq {vault text mac : List UInt8} (hmac : mac.length = 32)
    (h : vault = KRYPT_MAGIC ++ salt.toList ++ nonce.toList ++ (text ++ mac)) :
    decrypt_payload vault pass
      = if tag pass salt text = mac then .ok (ciphertext pass salt nonce text)
        else .error .authentication := by
  obtain ⟨hmagic, hsalt, hnonce, hrest⟩ := vault_fields salt nonce h
  have hlength : vault.length = header_size + (text.length + 32) := by
    have hfront : KRYPT_MAGIC.length = 8 := rfl
    rw [h, List.length_append, List.length_append, List.length_append, List.length_append, hfront,
      Vector.length_toList, Vector.length_toList, hmac, header_size]
  have hsize : vault.length - header_size - 32 = text.length := by omega
  have hread : mac.take 32 = mac := List.take_of_length_le hmac.le
  have hxor := decrypt_loop_eq (derive_key pass salt.toList).1 nonce.toList text mac 0
  rw [decrypt_payload, if_neg (not_not.mpr hmagic)]
  dsimp only
  rw [if_neg (by omega), hsalt, hnonce, hrest, hsize, mac_loop_eq, ← sha256_update_append]
  have hbranch (calc_hmac payload : List UInt8) :
      (if calc_hmac ≠ mac.take 32 then Except.error vault_error.authentication else .ok payload)
        = if calc_hmac = mac then .ok payload else .error .authentication := by
    rw [hread, ite_not]
  exact (hbranch _ _).trans
    (congrArg (fun o => if tag pass salt text = mac then Except.ok o else _) hxor)

/-- **The way back.** Byte `i` of the payload is XORed with byte `i` of the key stream, and the tag
is over this ciphertext. `decrypt_vault` hashes and XORs the same bytes at the same positions: it
accepts the tag, and gives back the payload. -/
theorem decrypt_encrypt (pass : List UInt8) (salt : salt_bytes) (nonce : nonce_bytes)
    (payload : List UInt8) :
    (vault_writes pass salt nonce payload).flatten
        = KRYPT_MAGIC ++ salt.toList ++ nonce.toList ++ (ciphertext pass salt nonce payload
          ++ tag pass salt (ciphertext pass salt nonce payload))
      ∧ mac_loop (sha256_update sha256_init (derive_key pass salt.toList).2)
          (ciphertext pass salt nonce payload).length
          (ciphertext pass salt nonce payload
            ++ tag pass salt (ciphertext pass salt nonce payload))
        = (sha256_update sha256_init ((derive_key pass salt.toList).2
            ++ ciphertext pass salt nonce payload),
          tag pass salt (ciphertext pass salt nonce payload))
      ∧ decrypt_loop (derive_key pass salt.toList).1 nonce.toList 1
          (ciphertext pass salt nonce payload).length
          (ciphertext pass salt nonce payload
            ++ tag pass salt (ciphertext pass salt nonce payload))
        = xor_stream (key_stream (derive_key pass salt.toList).1 nonce.toList) 0
          (ciphertext pass salt nonce payload)
      ∧ decrypt_payload (vault_writes pass salt nonce payload).flatten pass = .ok payload := by
  have hvault := vault_eq pass salt nonce payload
  have htag (text : List UInt8) : (tag pass salt text).length = 32 := sha256_final_length _
  refine ⟨hvault, ?_, ?_, ?_⟩
  · rw [mac_loop_eq, sha256_update_append]
  · exact decrypt_loop_eq _ nonce.toList (ciphertext pass salt nonce payload) _ 0
  · rw [decrypt_payload_eq pass salt nonce (htag _) hvault, if_pos rfl]
    exact congrArg Except.ok (xor_stream_twice 0 payload)

end SysInC.Krypt
