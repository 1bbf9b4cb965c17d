/-
Arrays of a fixed length that texts are copied to, with a terminator behind each.

`Holds b s` says of an array that it begins with `s`; an array holds a string when it begins with it
and the terminator. A loop that compares its index with a limit in front of each write keeps to the
first `limit` places, and what is there is the front of all that it was given.
-/
import SysInC.PartialRun
import Mathlib.Data.List.OfFn
import Mathlib.Data.List.TakeWhile

set_option autoImplicit false

namespace SysInC.TextBuffer

open PartialRun

variable {α : Type*} {n : ℕ}

theorem peek_eq (b : Fin n → α) (i : ℕ) : peek b i = (List.ofFn b)[i]? := by
  unfold peek
  split
  · next h => rw [List.getElem?_eq_getElem (by simpa using h), List.getElem_ofFn]
  · next h => rw [List.getElem?_eq_none (by simpa using h)]

/-! ## What an array begins with -/

/-- The array begins with `s`. -/
def Holds (b : Fin n → α) (s : List α) : Prop := s <+: List.ofFn b

theorem holds_nil (b : Fin n → α) : Holds b [] := List.nil_prefix

theorem Holds.length_le {b : Fin n → α} {s : List α} (h : Holds b s) : s.length ≤ n := by
  have := List.IsPrefix.length_le h
  rwa [List.length_ofFn] at this

theorem Holds.peek {b : Fin n → α} {s : List α} (h : Holds b s) {i : ℕ} (hi : i < s.length) :
    PartialRun.peek b i = s[i]? := by
  obtain ⟨rest, hrest⟩ := h
  rw [peek_eq, ← hrest, List.getElem?_append_left hi]

theorem ofFn_poke {b b' : Fin n → α} {i : ℕ} {v : α} (h : poke b i v = some b') :
    List.ofFn b' = (List.ofFn b).set i v := by
  have hi := ((Returns.poke b i v).2 b' h).1
  rw [poke_of_lt hi] at h
  obtain rfl := Option.some.inj h
  apply List.ext_getElem
  · simp
  · intro j hj hj'
    rw [List.getElem_ofFn, List.getElem_set, List.getElem_ofFn, Function.update_apply]
    simp only [Fin.ext_iff, eq_comm]

theorem Holds.poke {b : Fin n → α} {s : List α} (h : Holds b s) (v : α) :
    Returns (poke b s.length v) (s.length < n) fun b' => Holds b' (s ++ [v]) := by
  refine ⟨(Returns.poke b s.length v).1, fun b' hb' => ?_⟩
  have hlt := ((Returns.poke b s.length v).2 b' hb').1
  obtain ⟨rest, hrest⟩ := h
  refine ⟨hlt, ?_⟩
  change s ++ [v] <+: List.ofFn b'
  rw [ofFn_poke hb', ← hrest, List.set_append_right _ _ le_rfl, Nat.sub_self]
  cases rest with
  | nil =>
    have hlen := congrArg List.length hrest
    rw [List.append_nil, List.length_ofFn] at hlen
    omega
  | cons c rest =>
    rw [List.set_cons_zero]
    exact ⟨rest, by rw [List.append_assoc, List.singleton_append]⟩

/-! ## Loops that copy -/

/-- `while (*k && o < limit) b[o++] = *k++;` -/
def copy_while (limit : ℕ) : List α → (Fin n → α) × ℕ → Option ((Fin n → α) × ℕ)
  | [], s => some s
  | c :: cs, s =>
    if s.2 < limit then (poke s.1 s.2 c).bind fun b => copy_while limit cs (b, s.2 + 1) else some s

/-- The array with `t` copied to it, and the index behind. -/
def Copied (t : List α) (s : (Fin n → α) × ℕ) : Prop := Holds s.1 t ∧ s.2 = t.length

theorem copied_nil (b : Fin n → α) : Copied [] (b, 0) := ⟨holds_nil b, rfl⟩

theorem Copied.poke {t : List α} {s : (Fin n → α) × ℕ} (h : Copied t s) (v : α) :
    Returns (PartialRun.poke s.1 s.2 v) (t.length < n) fun b => Copied (t ++ [v]) (b, s.2 + 1) := by
  rw [h.2]
  apply (h.1.poke v).imp Iff.rfl
  intro b hb
  exact ⟨hb, by rw [List.length_append, List.length_singleton]⟩

theorem Copied.copy_while {limit : ℕ} (hlimit : limit ≤ n) (cs : List α) {t : List α}
    (ht : t.length ≤ limit) {s : (Fin n → α) × ℕ} (h : Copied t s) :
    Returns (copy_while limit cs s) True (Copied ((t ++ cs).take limit)) := by
  induction cs generalizing t s with
  | nil =>
    rw [List.append_nil, List.take_of_length_le ht]
    exact Returns.pure h
  | cons c cs ih =>
    rw [TextBuffer.copy_while, h.2]
    split
    · next hlt =>
      rw [← h.2]
      refine ((h.poke c).congr (iff_of_true (by omega) trivial)).seq fun b hb => ?_
      have hrest := ih (by rw [List.length_append, List.length_singleton]; omega) hb
      rwa [List.append_assoc, List.singleton_append] at hrest
    · next hge =>
      rw [List.take_left' (by omega)]
      exact Returns.pure h

/-! ## Copies of a known length -/

/-- `memcpy(b, s, ..)` -/
def write (b : Fin n → α) (s : List α) : Option (Fin n → α) :=
  if s.length ≤ n then some fun i => (s[i.val]?).getD (b i) else none

theorem write_returns (b : Fin n → α) (s : List α) :
    Returns (write b s) (s.length ≤ n) fun b' => List.ofFn b' = s ++ (List.ofFn b).drop s.length := by
  refine ⟨fun h => ⟨_, if_pos h⟩, fun b' hb' => ?_⟩
  unfold write at hb'
  split at hb'
  · next hle =>
    obtain rfl := Option.some.inj hb'
    refine ⟨hle, List.ext_getElem ?_ fun i hi hi' => ?_⟩
    · rw [List.length_append, List.length_drop, List.length_ofFn, List.length_ofFn]
      omega
    · rw [List.getElem_ofFn, List.getElem_append]
      split
      · next hlt => rw [List.getElem?_eq_getElem hlt, Option.getD_some]
      · next hge =>
        rw [List.getElem?_eq_none (Nat.le_of_not_lt hge), Option.getD_none, List.getElem_drop,
          List.getElem_ofFn]
        congr
        omega
  · cases hb'

/-! ## Strings -/

variable [DecidableEq α] (nul : α)

/-- The string that starts at `&b[off]`; `none` where it has no terminator in the array. -/
def string (b : Fin n → α) (off : ℕ) : Option (List α) :=
  if nul ∈ (List.ofFn b).drop off then
    some (((List.ofFn b).drop off).takeWhile fun c => decide (c ≠ nul))
  else none

variable {nul}

theorem string_of {b : Fin n → α} {s rest : List α} (h : List.ofFn b = s ++ nul :: rest)
    (hs : nul ∉ s) : string nul b 0 = some s := by
  unfold string
  rw [List.drop_zero, h, if_pos (List.mem_append_right s List.mem_cons_self)]
  rw [List.takeWhile_append_of_pos, List.takeWhile_cons_of_neg (by simp), List.append_nil]
  intro c hc
  rw [decide_eq_true_eq]
  rintro rfl
  exact hs hc

theorem Holds.string {b : Fin n → α} {s : List α} (h : Holds b (s ++ [nul])) (hs : nul ∉ s) :
    string nul b 0 = some s := by
  obtain ⟨rest, hrest⟩ := h
  rw [List.append_assoc, List.singleton_append] at hrest
  exact string_of hrest.symm hs

/-- In front of a terminator a string starts everywhere. -/
theorem string_of_le {b : Fin n → α} {i : ℕ} (hi : i < n) (hnul : b ⟨i, hi⟩ = nul) {off : ℕ}
    (hoff : off ≤ i) : ∃ s, string nul b off = some s := by
  refine ⟨_, if_pos ?_⟩
  rw [List.mem_iff_getElem]
  refine ⟨i - off, by rw [List.length_drop, List.length_ofFn]; omega, ?_⟩
  rw [List.getElem_drop, List.getElem_ofFn]
  simp only [Nat.add_sub_cancel' hoff, hnul]

/-! ## `strncpy` and `snprintf` -/

variable (nul)

/-- `strncpy(dst, src, k)`: `k` places, the string and terminators, or the front of the string. -/
def strncpy (dst : Fin n → α) (src : List α) (k : ℕ) : Option (Fin n → α) :=
  write dst (src.take k ++ List.replicate (k - src.length) nul)

/-- `snprintf(dst, size, ..)` of what is printed. -/
def snprintf (dst : Fin n → α) (size : ℕ) (printed : List α) : Option (Fin n → α) :=
  write dst (printed.take (size - 1) ++ [nul])

variable {nul}

theorem returns_snprintf (dst : Fin (n + 1) → α) {printed : List α} (h : nul ∉ printed) :
    Returns (snprintf nul dst (n + 1) printed) True
      fun b => string nul b 0 = some (printed.take n) := by
  refine (write_returns dst _).imp (iff_of_true ?_ trivial) fun b hb => ?_
  · rw [List.length_append, List.length_take, List.length_singleton]
    omega
  · rw [Nat.add_sub_cancel, List.append_assoc, List.singleton_append] at hb
    exact string_of hb fun hmem => h (List.mem_of_mem_take hmem)

omit [DecidableEq α] in
theorem ofFn_strncpy {dst b : Fin (n + 1) → α} {src : List α}
    (h : strncpy nul dst src n = some b) :
    List.ofFn b = src.take n ++ (List.replicate (n - src.length) nul ++ [dst (Fin.last n)]) := by
  have hval := ((write_returns dst _).2 b h).2
  have hlen : (src.take n ++ List.replicate (n - src.length) nul).length = n := by
    rw [List.length_append, List.length_take, List.length_replicate]
    omega
  rw [hval, hlen, List.append_assoc, List.ofFn_succ_last, List.drop_left' (List.length_ofFn)]

/-- `strncpy` up to the last place, and the terminator there: the string, or its front. -/
theorem returns_strncpy_nul (dst : Fin (n + 1) → α) {src : List α} (h : nul ∉ src) :
    Returns ((strncpy nul dst src n).bind fun b => poke b n nul) True
      fun b => string nul b 0 = some (src.take n) := by
  have hcopy : Returns (strncpy nul dst src n) True
      fun b => strncpy nul dst src n = some b := by
    refine ⟨fun _ => (write_returns dst _).1 ?_, fun b hb => ⟨trivial, hb⟩⟩
    rw [List.length_append, List.length_take, List.length_replicate]
    omega
  refine hcopy.seq fun b hb => ?_
  refine ⟨fun _ => (Returns.poke b n nul).1 (Nat.lt_succ_self n), fun b' hb' => ⟨trivial, ?_⟩⟩
  have hlen : (src.take n ++ List.replicate (n - src.length) nul).length = n := by
    rw [List.length_append, List.length_take, List.length_replicate]
    omega
  have hall : List.ofFn b' = src.take n ++ (List.replicate (n - src.length) nul ++ [nul]) := by
    rw [ofFn_poke hb', ofFn_strncpy hb, ← List.append_assoc, List.set_append_right _ _ hlen.le, hlen,
      Nat.sub_self, List.set_cons_zero, List.append_assoc]
  -- the terminators in front of the last place are the same one
  rw [← List.replicate_succ', List.replicate_succ] at hall
  exact string_of hall fun hmem => h (List.mem_of_mem_take hmem)

/-- Without it the copy is terminated where the string is shorter, or by what was there before. -/
theorem returns_strncpy (dst : Fin (n + 1) → α) {src : List α} (h : nul ∉ src) :
    Returns ((strncpy nul dst src n).bind fun b => string nul b 0)
      (src.length < n ∨ dst (Fin.last n) = nul) fun s => s = src.take n := by
  have hle : (src.take n ++ List.replicate (n - src.length) nul).length ≤ n + 1 := by
    rw [List.length_append, List.length_take, List.length_replicate]
    omega
  obtain ⟨b, hb⟩ := (write_returns dst (src.take n ++ List.replicate (n - src.length) nul)).1 hle
  have hsplit := ofFn_strncpy hb
  change Returns ((write dst _).bind _) _ _
  rw [hb, Option.bind_some]
  have hfront : nul ∉ src.take n := fun hmem => h (List.mem_of_mem_take hmem)
  by_cases hend : src.length < n ∨ dst (Fin.last n) = nul
  · have hstring : string nul b 0 = some (src.take n) := by
      rcases hend with hlt | hlast
      · rw [show n - src.length = n - src.length - 1 + 1 by omega, List.replicate_succ,
          List.cons_append] at hsplit
        exact string_of hsplit hfront
      · rw [hlast, ← List.replicate_succ', List.replicate_succ] at hsplit
        exact string_of hsplit hfront
    rw [hstring]
    exact (Returns.pure (Q := fun s => s = src.take n) rfl).congr (iff_of_true trivial hend)
  · have hnone : string nul b 0 = none := by
      rw [not_or, Nat.not_lt] at hend
      refine if_neg fun hmem => ?_
      rw [List.drop_zero, hsplit, Nat.sub_eq_zero_of_le hend.1, List.replicate_zero,
        List.nil_append, List.mem_append, List.mem_singleton] at hmem
      rcases hmem with hmem | heq
      · exact hfront hmem
      · exact hend.2 heq.symm
    rw [hnone]
    refine ⟨fun h => absurd h hend, fun s hs => ?_⟩
    cases hs

end SysInC.TextBuffer
