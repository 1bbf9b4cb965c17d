/-
C strings in byte buffers of a fixed size, and the functions of `string.h` on them. `none` is a
read or a write outside of a buffer.

The string of a buffer is what stands in front of the first NUL. A buffer whose last byte is NUL
is closed: a string starts at every offset in it, and it stays closed when bytes are written in
front of the last one, or up to it when they end in NUL.
-/
import SysInC.PartialRun

set_option autoImplicit false

namespace SysInC.CString

open SysInC.PartialRun

variable {n m : ℕ}

/-- `char b[n];` -/
def Buf (n : ℕ) := { b : List UInt8 // b.length = n }

def zeros (n : ℕ) : Buf n := ⟨List.replicate n 0, List.length_replicate⟩

/-- The bytes in front of the first NUL. -/
def text_of (bytes : List UInt8) : List UInt8 := bytes.takeWhile (· != 0)

def text (b : Buf n) : List UInt8 := text_of b.val

/-- The string that starts at `&b[off]`; `none` when it is not terminated in the buffer. -/
def c_str (b : Buf n) (off : ℕ) : Option (List UInt8) :=
  if 0 ∈ b.val.drop off then some (text_of (b.val.drop off)) else none

def strlen (b : Buf n) : Option ℕ := (c_str b 0).map List.length

/-- The bytes at `&b[off]`, all inside of the buffer. -/
def write (b : Buf n) (off : ℕ) (bytes : List UInt8) : Option (Buf n) :=
  if h : off + bytes.length ≤ n then
    some ⟨b.val.take off ++ bytes ++ b.val.drop (off + bytes.length), by
      rw [List.length_append, List.length_append, List.length_take, List.length_drop, b.property]
      omega⟩
  else none

/-- `b[off] = c;` -/
def put (b : Buf n) (off : ℕ) (c : UInt8) : Option (Buf n) := write b off [c]

/-- `memmove(&b[dst], &b[src], len)` -/
def memmove (b : Buf n) (dst src len : ℕ) : Option (Buf n) :=
  if src + len ≤ n then write b dst ((b.val.drop src).take len) else none

/-- `strcpy(dst, src)` -/
def strcpy (dst : Buf n) (src : List UInt8) : Option (Buf n) := write dst 0 (src ++ [0])

/-- `strncpy(dst, src, k)`: `k` bytes, the string and NULs, or the front of the string. -/
def strncpy (dst : Buf n) (src : List UInt8) (k : ℕ) : Option (Buf n) :=
  write dst 0 (src.take k ++ List.replicate (k - src.length) 0)

/-- `strcat(dst, src)` -/
def strcat (dst : Buf n) (src : List UInt8) : Option (Buf n) :=
  (strlen dst).bind fun len => write dst len (src ++ [0])

/-- `a - b` of two `size_t`. -/
def size_sub (a b : ℕ) : ℕ := (a + 2 ^ 64 - b) % 2 ^ 64

theorem size_sub_of_le {a b : ℕ} (h : b ≤ a) (ha : a < 2 ^ 64) : size_sub a b = a - b := by
  rw [size_sub, Nat.add_comm a, Nat.add_sub_assoc h, Nat.add_mod_left]
  exact Nat.mod_eq_of_lt (by omega)

/-- A length that has wrapped reaches out of every buffer. -/
theorem add_size_sub_le_iff {a b n : ℕ} (ha : a ≤ n) (hb : b ≤ n) (hn : n < 2 ^ 63) :
    b + size_sub a b ≤ n ↔ b ≤ a := by
  unfold size_sub
  omega

/-! ## Strings -/

theorem length_val (b : Buf n) : b.val.length = n := b.property

theorem text_of_append {front : List UInt8} (h : 0 ∉ front) (rest : List UInt8) :
    text_of (front ++ rest) = front ++ text_of rest := by
  refine List.takeWhile_append_of_pos fun c hc => ?_
  rw [bne_iff_ne]
  rintro rfl
  exact h hc

theorem text_of_append_zero {bytes : List UInt8} (h : 0 ∉ bytes) (rest : List UInt8) :
    text_of (bytes ++ 0 :: rest) = bytes := by
  rw [text_of_append h, text_of, List.takeWhile_cons_of_neg (by simp), List.append_nil]

theorem zero_notMem_text_of (bytes : List UInt8) : 0 ∉ text_of bytes := by
  intro h
  have hne := List.all_eq_true.mp List.all_takeWhile 0 h
  exact absurd hne (by decide)

theorem zero_notMem_text (b : Buf n) : 0 ∉ text b := zero_notMem_text_of b.val

theorem text_of_length_lt {bytes : List UInt8} (h : 0 ∈ bytes) :
    (text_of bytes).length < bytes.length := by
  refine lt_of_le_of_ne (List.takeWhile_prefix _).length_le fun heq => ?_
  have hall := (List.takeWhile_prefix (p := (· != 0)) (l := bytes)).eq_of_length heq
  exact zero_notMem_text_of bytes (by rw [text_of, hall]; exact h)

theorem c_str_some {b : Buf n} {off : ℕ} {s : List UInt8} (h : c_str b off = some s) :
    s = text_of (b.val.drop off) := by
  unfold c_str at h
  split at h
  · exact (Option.some.inj h).symm
  · exact nomatch h

theorem strlen_some {b : Buf n} {l : ℕ} (h : strlen b = some l) : l = (text b).length := by
  obtain ⟨s, hs, rfl⟩ := Option.map_eq_some_iff.mp h
  rw [c_str_some hs, List.drop_zero, text]

/-! ## Closed buffers -/

/-- The last byte is NUL. -/
def Closed (b : Buf n) : Prop := ∃ front, b.val = front ++ [0]

theorem closed_zeros (n : ℕ) : Closed (zeros (n + 1)) := ⟨List.replicate n 0, List.replicate_succ'⟩

theorem Closed.length_front {b : Buf n} {front : List UInt8} (h : b.val = front ++ [0]) :
    front.length + 1 = n := by
  rw [← length_val b, h, List.length_append, List.length_singleton]

theorem Closed.zero_mem_drop {b : Buf n} (h : Closed b) {off : ℕ} (hoff : off < n) :
    0 ∈ b.val.drop off := by
  obtain ⟨front, hb⟩ := h
  have hlen := Closed.length_front hb
  rw [hb, List.drop_append_of_le_length (by omega)]
  exact List.mem_append_right _ (List.mem_singleton_self 0)

theorem Closed.zero_mem {b : Buf n} (h : Closed b) : 0 ∈ b.val := by
  obtain ⟨front, hb⟩ := h
  rw [hb]
  exact List.mem_append_right _ (List.mem_singleton_self 0)

theorem Closed.c_str {b : Buf n} (h : Closed b) {off : ℕ} (hoff : off < n) :
    c_str b off = some (text_of (b.val.drop off)) :=
  if_pos (h.zero_mem_drop hoff)

theorem Closed.pos {b : Buf n} (h : Closed b) : 0 < n := by
  obtain ⟨front, hb⟩ := h
  have := Closed.length_front hb
  omega

theorem Closed.c_str_zero {b : Buf n} (h : Closed b) : CString.c_str b 0 = some (text b) :=
  h.c_str h.pos

theorem Closed.strlen {b : Buf n} (h : Closed b) : strlen b = some (text b).length := by
  rw [CString.strlen, h.c_str_zero, Option.map_some]

theorem Closed.text_length_lt {b : Buf n} (h : Closed b) : (text b).length < n := by
  have := text_of_length_lt (h.zero_mem_drop h.pos)
  rwa [List.drop_zero, length_val] at this

/-! ## Writes -/

theorem write_of_le (b : Buf n) {off : ℕ} (bytes : List UInt8) (h : off + bytes.length ≤ n) :
    ∃ b', write b off bytes = some b' ∧
      b'.val = b.val.take off ++ bytes ++ b.val.drop (off + bytes.length) :=
  ⟨_, dif_pos h, rfl⟩

theorem write_some {b b' : Buf n} {off : ℕ} {bytes : List UInt8}
    (h : write b off bytes = some b') :
    off + bytes.length ≤ n ∧
      b'.val = b.val.take off ++ bytes ++ b.val.drop (off + bytes.length) := by
  by_cases hle : off + bytes.length ≤ n
  · rw [write, dif_pos hle] at h
    exact ⟨hle, by rw [← Option.some.inj h]⟩
  · rw [write, dif_neg hle] at h
    exact nomatch h

/-- What is behind the bytes stays as it was. -/
theorem write_drop {b b' : Buf n} {off k : ℕ} {bytes : List UInt8}
    (h : write b off bytes = some b') (hk : off + bytes.length ≤ k) :
    b'.val.drop k = b.val.drop k := by
  obtain ⟨hle, hval⟩ := write_some h
  have hlen : (b.val.take off ++ bytes).length = off + bytes.length := by
    rw [List.length_append, List.length_take, length_val]
    omega
  rw [hval, List.drop_append, List.drop_eq_nil_of_le (by omega), List.nil_append, hlen,
    List.drop_drop]
  congr 1
  omega

theorem write_take {b b' : Buf n} {off : ℕ} {bytes : List UInt8}
    (h : write b off bytes = some b') : b'.val.take off = b.val.take off := by
  obtain ⟨hle, hval⟩ := write_some h
  have hlen : (b.val.take off).length = off := by
    rw [List.length_take, length_val]
    omega
  rw [hval, List.append_assoc]
  exact List.take_left' hlen

/-- A write that leaves the last byte alone. -/
theorem Closed.write_front {b b' : Buf n} (h : Closed b) {off : ℕ} {bytes : List UInt8}
    (hlt : off + bytes.length < n) (hw : write b off bytes = some b') : Closed b' := by
  obtain ⟨front, hb⟩ := h
  have hlen := Closed.length_front hb
  refine ⟨b.val.take off ++ bytes ++ front.drop (off + bytes.length), ?_⟩
  rw [(write_some hw).2, List.append_assoc, List.append_assoc, List.append_assoc, hb,
    List.drop_append_of_le_length (by omega)]

/-- A write whose last byte is NUL. -/
theorem Closed.write_zero {b b' : Buf n} (h : Closed b) {off : ℕ} (bytes : List UInt8)
    (hw : write b off (bytes ++ [0]) = some b') : Closed b' := by
  have hle := (write_some hw).1
  rcases Nat.lt_or_ge (off + (bytes ++ [0]).length) n with hlt | hge
  · exact h.write_front hlt hw
  · refine ⟨b.val.take off ++ bytes, ?_⟩
    rw [(write_some hw).2, List.drop_eq_nil_of_le (by rw [length_val]; exact hge),
      List.append_nil, List.append_assoc]

theorem write_returns (b : Buf n) (off : ℕ) (bytes : List UInt8) :
    Returns (write b off bytes) (off + bytes.length ≤ n) fun b' => write b off bytes = some b' :=
  ⟨fun h => ⟨_, dif_pos h⟩, fun _ hb' => ⟨(write_some hb').1, hb'⟩⟩

/-! ## The functions on closed buffers -/

theorem Closed.put {b b' : Buf n} (h : Closed b) {off : ℕ} {c : UInt8} (hlt : off + 1 < n)
    (hp : put b off c = some b') : Closed b' :=
  h.write_front hlt hp

theorem Closed.put_zero {b : Buf n} (h : Closed b) {off : ℕ} (hlt : off < n) :
    ∃ b', CString.put b off 0 = some b' ∧ Closed b' := by
  obtain ⟨b', hb', -⟩ := write_of_le b [0] hlt
  exact ⟨b', hb', h.write_zero [] hb'⟩

/-- A move inside of a closed buffer that does not reach its last byte. -/
theorem Closed.memmove_returns {b : Buf n} (h : Closed b) {dst src len : ℕ}
    (hlt : src + len ≤ n → dst + len < n) :
    Returns (memmove b dst src len) (src + len ≤ n) Closed := by
  unfold memmove
  split
  · next hsrc =>
      have hlen : ((b.val.drop src).take len).length = len := by
        rw [List.length_take, List.length_drop, length_val]
        omega
      refine ((write_returns b dst _).imp (iff_of_true ?_ hsrc) fun _ hb' => ?_)
      · rw [hlen]
        exact (hlt hsrc).le
      · exact h.write_front (by rw [hlen]; exact hlt hsrc) hb'
  · next hsrc => exact ⟨fun hG => absurd hG hsrc, fun b' hb' => nomatch hb'⟩

/-- `memmove(&b[dst], &b[src], strlen(b) - src + 1)`, the string from `src` on with its NUL. It is
in the buffer unless its length has wrapped. -/
theorem Closed.move_tail_returns {b : Buf n} (h : Closed b) {dst src : ℕ} (hn : n < 2 ^ 63)
    (hsrc : src ≤ n)
    (hdst : src ≤ (text b).length + 1 → dst + ((text b).length + 1 - src) < n) :
    Returns (memmove b dst src (size_sub ((text b).length + 1) src))
      (src ≤ (text b).length + 1) Closed := by
  have hlen := h.text_length_lt
  have hiff : src + size_sub ((text b).length + 1) src ≤ n ↔ src ≤ (text b).length + 1 :=
    add_size_sub_le_iff hlen hsrc hn
  refine (h.memmove_returns fun hle => ?_).congr hiff
  rw [size_sub_of_le (hiff.mp hle) (by omega)]
  exact hdst (hiff.mp hle)

/-- The copy of a string that fits. -/
theorem Closed.strcpy {dst : Buf n} (h : Closed dst) {src : List UInt8} (hlt : src.length < n) :
    ∃ dst', strcpy dst src = some dst' ∧ Closed dst' := by
  have hlen : 0 + (src ++ [0]).length ≤ n := by
    rw [List.length_append, List.length_singleton]
    omega
  obtain ⟨dst', hdst', -⟩ := write_of_le dst _ hlen
  exact ⟨dst', hdst', h.write_zero src hdst'⟩

/-- `strncpy` up to the last byte, which it leaves alone: the string it is given, cut there. -/
theorem Closed.strncpy {dst : Buf n} (h : Closed dst) (src : List UInt8) :
    ∃ dst', strncpy dst src (n - 1) = some dst' ∧ Closed dst' ∧
      (0 ∉ src → text dst' = src.take (n - 1)) := by
  obtain ⟨front, hb⟩ := h
  have hfront := Closed.length_front hb
  have hlen : (src.take (n - 1) ++ List.replicate (n - 1 - src.length) 0).length = n - 1 := by
    rw [List.length_append, List.length_take, List.length_replicate]
    omega
  obtain ⟨dst', hdst', hval⟩ := write_of_le dst
    (src.take (n - 1) ++ List.replicate (n - 1 - src.length) 0)
    (show 0 + _ ≤ n by rw [hlen]; omega)
  rw [List.take_zero, List.nil_append, Nat.zero_add, hlen, hb,
    List.drop_append_of_le_length (by omega), List.drop_eq_nil_of_le (by omega),
    List.nil_append] at hval
  refine ⟨dst', hdst', ⟨_, hval⟩, fun hsrc => ?_⟩
  rw [text, hval, List.append_assoc, ← List.replicate_succ', List.replicate_succ]
  exact text_of_append_zero (fun hmem => hsrc (List.mem_of_mem_take hmem)) _

/-- `strcat` returns when the two strings fit, and makes one of them. -/
theorem Closed.strcat_returns {dst : Buf n} (h : Closed dst) {src : List UInt8} (hsrc : 0 ∉ src) :
    Returns (strcat dst src) ((text dst).length + src.length < n)
      fun dst' => Closed dst' ∧ text dst' = text dst ++ src := by
  rw [strcat, h.strlen, Option.bind_some]
  refine (write_returns dst _ _).imp ?_ fun dst' hdst' => ⟨h.write_zero src hdst', ?_⟩
  · rw [List.length_append, List.length_singleton]
    omega
  · have htake : dst.val.take (text dst).length = text dst :=
      List.prefix_iff_eq_take.mp (List.takeWhile_prefix _) |>.symm
    rw [text, (write_some hdst').2, htake, List.append_assoc, List.append_assoc,
      List.singleton_append, ← List.append_assoc]
    refine text_of_append_zero (fun hmem => ?_) _
    rcases List.mem_append.mp hmem with hmem | hmem
    · exact zero_notMem_text_of _ hmem
    · exact hsrc hmem

/-! ## The strings that are left -/

/-- The text, its NUL and what stands behind. -/
theorem text_split {b : Buf n} (h : 0 ∈ b.val) : ∃ rest, b.val = text b ++ 0 :: rest := by
  have hsplit := (List.takeWhile_append_dropWhile (p := (· != 0)) (l := b.val)).symm
  cases hdrop : b.val.dropWhile (· != 0) with
  | nil =>
      rw [hdrop, List.append_nil] at hsplit
      rw [hsplit] at h
      exact absurd h (zero_notMem_text b)
  | cons c rest =>
      have hc : c = 0 := by
        have hhead := List.head_dropWhile_not (p := (· != 0)) (l := b.val)
          (by rw [hdrop]; exact List.cons_ne_nil _ _)
        simpa [hdrop] using hhead
      rw [hdrop, hc] at hsplit
      exact ⟨rest, hsplit⟩

/-- The move of a tail, as an equation between bytes. -/
theorem memmove_tail {b b' : Buf n} {s rest : List UInt8} (hb : b.val = s ++ 0 :: rest)
    {dst src : ℕ} (hsrc : src ≤ s.length)
    (hm : memmove b dst src (s.length + 1 - src) = some b') :
    ∃ behind, b'.val = b.val.take dst ++ (s.drop src ++ 0 :: behind) := by
  unfold memmove at hm
  split at hm
  · have htail : (b.val.drop src).take (s.length + 1 - src) = s.drop src ++ [0] := by
      rw [hb, List.drop_append_of_le_length hsrc, List.take_append, List.take_of_length_le,
        List.length_drop, show s.length + 1 - src - (s.length - src) = 1 by omega]
      · rfl
      · rw [List.length_drop]
        omega
    refine ⟨b.val.drop (dst + (s.drop src ++ [0]).length), ?_⟩
    rw [(write_some hm).2, htail]
    simp only [List.append_assoc, List.singleton_append]
  · exact nomatch hm

/-- A byte is written in front of the tail that has made room for it. -/
theorem text_insert {b b₁ b₂ : Buf n} (h : 0 ∈ b.val) {col : ℕ} {c : UInt8} (hc : c ≠ 0)
    (hcol : col ≤ (text b).length)
    (hm : memmove b (col + 1) col ((text b).length + 1 - col) = some b₁)
    (hp : put b₁ col c = some b₂) :
    text b₂ = (text b).take col ++ c :: (text b).drop col := by
  obtain ⟨rest, hb⟩ := text_split h
  obtain ⟨behind, hb₁⟩ := memmove_tail hb hcol hm
  have hlen : (b.val.take (col + 1)).length = col + 1 := by
    rw [List.length_take, hb, List.length_append, List.length_cons]
    omega
  have htake : b₁.val.take col = (text b).take col := by
    rw [hb₁, List.take_append_of_le_length (by omega), List.take_take,
      Nat.min_eq_left (Nat.le_succ col), hb, List.take_append_of_le_length hcol]
  have hdrop : b₁.val.drop (col + 1) = (text b).drop col ++ 0 :: behind := by
    rw [hb₁, List.drop_append_of_le_length hlen.ge, List.drop_of_length_le hlen.le,
      List.nil_append]
  rw [text, (write_some hp).2, htake, List.length_singleton, hdrop, List.append_assoc,
    List.singleton_append, ← List.cons_append, ← List.append_assoc]
  refine text_of_append_zero (fun hmem => ?_) _
  rcases List.mem_append.mp hmem with hmem | hmem
  · exact zero_notMem_text b (List.mem_of_mem_take hmem)
  · rcases List.mem_cons.mp hmem with hzero | hmem
    · exact hc hzero.symm
    · exact zero_notMem_text b (List.mem_of_mem_drop hmem)

/-- The tail closes up over the byte in front of it. -/
theorem text_delete {b b' : Buf n} (h : 0 ∈ b.val) {dst src : ℕ} (hle : dst ≤ src)
    (hsrc : src ≤ (text b).length)
    (hm : memmove b dst src ((text b).length + 1 - src) = some b') :
    text b' = (text b).take dst ++ (text b).drop src := by
  obtain ⟨rest, hb⟩ := text_split h
  obtain ⟨behind, hb'⟩ := memmove_tail hb hsrc hm
  rw [text, hb', hb, List.take_append_of_le_length (hle.trans hsrc), ← List.append_assoc]
  refine text_of_append_zero (fun hmem => ?_) _
  rcases List.mem_append.mp hmem with hmem | hmem
  · exact zero_notMem_text b (List.mem_of_mem_take hmem)
  · exact zero_notMem_text b (List.mem_of_mem_drop hmem)

theorem text_strcpy {dst dst' : Buf n} {src : List UInt8} (hsrc : 0 ∉ src)
    (h : strcpy dst src = some dst') : text dst' = src := by
  rw [text, (write_some h).2, List.take_zero, List.nil_append, List.append_assoc]
  exact text_of_append_zero hsrc _

end SysInC.CString
