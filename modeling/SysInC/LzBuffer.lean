/-
Back references in a buffer of a fixed length, whose first places are written and whose others hold
what was there before.

Two views of the same copies. Where a distance leads into what is written, a copy is `copy_back` on
the list of what is written, and nothing else of the buffer matters (`copy_within_written`). With
the distance 0 every place gets what it holds (`copy_within_zero`), and that is old. A list of
literals and references is then a function of nothing but itself exactly when no distance is 0
(`determined_iff`).
-/
import SysInC.Lz77
import SysInC.PartialRun

set_option autoImplicit false

namespace SysInC.LzBuffer

open Lz77 PartialRun

variable {α : Type*} {n : ℕ}

/-! ## Copies -/

/-- `buf[pos - dist]`; a place in front of the buffer is none of its places. -/
def peek_back (buf : Fin n → α) (pos dist : ℕ) : Option α :=
  if pos < dist then none else peek buf (pos - dist)

/-- Places from `pos` on, each from the place `dist` in front of it. -/
def copy_within (dist : ℕ) : ℕ → ℕ → (Fin n → α) → Option (Fin n → α)
  | 0, _, buf => some buf
  | len + 1, pos, buf =>
    (peek_back buf pos dist).bind fun a =>
      (poke buf pos a).bind fun buf => copy_within dist len (pos + 1) buf

/-- Places from `pos` on, from those of `src` from `from_pos` on. -/
def copy_from (src : List α) : ℕ → ℕ → ℕ → (Fin n → α) → Option (Fin n → α)
  | 0, _, _, buf => some buf
  | len + 1, from_pos, pos, buf =>
    (src[from_pos]?).bind fun a =>
      (poke buf pos a).bind fun buf => copy_from src len (from_pos + 1) (pos + 1) buf

/-! ## What is written -/

/-- The buffer begins with `out`. -/
def Written (buf : Fin n → α) (out : List α) : Prop :=
  ∀ i (h : i < out.length), peek buf i = some out[i]

theorem written_nil (buf : Fin n → α) : Written buf [] := by
  intro i h
  exact absurd h (Nat.not_lt_zero i)

theorem Written.length_le {buf : Fin n → α} {out : List α} (h : Written buf out) :
    out.length ≤ n := by
  by_contra hlong
  have hlast := h n (Nat.lt_of_not_le hlong)
  rw [peek, dif_neg (Nat.lt_irrefl n)] at hlast
  cases hlast

/-- A buffer that begins with `out` holds it. -/
theorem Written.apply {buf : Fin n → α} {out : List α} (h : Written buf out) (i : Fin n)
    (hi : i < out.length) : buf i = out[(i : ℕ)] := by
  have hat := h i hi
  rw [peek_of_lt i.isLt] at hat
  exact Option.some.inj hat

/-- The next place. -/
theorem Written.poke {buf : Fin n → α} {out : List α} (h : Written buf out)
    (hroom : out.length < n) (a : α) :
    ∃ buf', poke buf out.length a = some buf' ∧ Written buf' (out ++ [a]) := by
  refine ⟨_, poke_of_lt hroom a, ?_⟩
  intro i hi
  rw [List.length_append, List.length_singleton] at hi
  have hin : i < n := by omega
  rw [peek_of_lt hin]
  rcases Nat.lt_or_ge i out.length with hlt | hge
  · have hne : (⟨i, hin⟩ : Fin n) ≠ ⟨out.length, hroom⟩ := by
      intro heq
      have := Fin.mk.inj heq
      omega
    rw [Function.update_of_ne hne, List.getElem_append_left hlt, h.apply ⟨i, hin⟩ hlt]
  · obtain rfl : i = out.length := by omega
    rw [Function.update_self, List.getElem_concat_length rfl]

theorem Written.peek_back {buf : Fin n → α} {out : List α} (h : Written buf out) (z : α)
    {dist : ℕ} (hpos : 0 < dist) (hle : dist ≤ out.length) :
    peek_back buf out.length dist = some (out.getD (out.length - dist) z) := by
  rw [LzBuffer.peek_back, if_neg (Nat.not_lt.mpr hle), h _ (by omega),
    List.getD_eq_getElem _ _ (by omega)]

/-- A copy from what is written writes what `copy_back` appends. -/
theorem copy_within_written {buf : Fin n → α} {out : List α} (h : Written buf out) (z : α)
    (dist len : ℕ) (hpos : 0 < dist) (hle : dist ≤ out.length) (hroom : out.length + len ≤ n) :
    ∃ buf', copy_within dist len out.length buf = some buf'
      ∧ Written buf' (copy_back z dist len out) := by
  induction len generalizing buf out with
  | zero => exact ⟨buf, rfl, h⟩
  | succ len ih =>
      obtain ⟨buf', hpoke, hbuf'⟩ := h.poke (show out.length < n by omega)
        (out.getD (out.length - dist) z)
      have hlen : (out ++ [out.getD (out.length - dist) z]).length = out.length + 1 := by
        rw [List.length_append, List.length_singleton]
      obtain ⟨buf'', hrest, hwritten⟩ := ih hbuf' (by omega) (by omega)
      refine ⟨buf'', ?_, hwritten⟩
      rw [hlen] at hrest
      rw [copy_within, h.peek_back z hpos hle, Option.bind_some, hpoke, Option.bind_some, hrest]

theorem copy_from_written {buf : Fin n → α} {out : List α} (h : Written buf out) (src : List α)
    (from_pos len : ℕ) (hsrc : from_pos + len ≤ src.length) (hroom : out.length + len ≤ n) :
    ∃ buf', copy_from src len from_pos out.length buf = some buf'
      ∧ Written buf' (out ++ (src.drop from_pos).take len) := by
  induction len generalizing buf out from_pos with
  | zero => exact ⟨buf, rfl, by rwa [List.take_zero, List.append_nil]⟩
  | succ len ih =>
      have hfrom : from_pos < src.length := by omega
      obtain ⟨buf', hpoke, hbuf'⟩ := h.poke (show out.length < n by omega) src[from_pos]
      have hlen : (out ++ [src[from_pos]]).length = out.length + 1 := by
        rw [List.length_append, List.length_singleton]
      obtain ⟨buf'', hrest, hwritten⟩ := ih hbuf' (from_pos + 1) (by omega) (by omega)
      refine ⟨buf'', ?_, ?_⟩
      · rw [hlen] at hrest
        rw [copy_from, List.getElem?_eq_getElem hfrom, Option.bind_some, hpoke, Option.bind_some,
          hrest]
      · rw [List.drop_eq_getElem_cons hfrom, List.take_succ_cons]
        rwa [List.append_assoc, List.singleton_append] at hwritten

/-! ## What is not -/

/-- `buf'` is `buf` in front of `pos` and from `upto` on. -/
def SameOutside (pos upto : ℕ) (buf buf' : Fin n → α) : Prop :=
  ∀ i : Fin n, ↑i < pos ∨ upto ≤ ↑i → buf' i = buf i

theorem copy_within_outside (buf : Fin n → α) {dist len pos : ℕ} (hle : dist ≤ pos)
    (hroom : pos + len ≤ n) :
    ∃ buf', copy_within dist len pos buf = some buf' ∧ SameOutside pos (pos + len) buf buf' := by
  induction len generalizing buf pos with
  | zero => exact ⟨buf, rfl, fun i _ => rfl⟩
  | succ len ih =>
      have hpos : pos < n := by omega
      have hback : pos - dist < n := by omega
      have hpeek : peek_back buf pos dist = some (buf ⟨pos - dist, hback⟩) := by
        rw [peek_back, if_neg (Nat.not_lt.mpr hle), peek_of_lt hback]
      obtain ⟨buf', hrest, hsame⟩ := ih (Function.update buf ⟨pos, hpos⟩ (buf ⟨pos - dist, hback⟩))
        (show dist ≤ pos + 1 by omega) (by omega)
      refine ⟨buf', ?_, fun i hi => ?_⟩
      · rw [copy_within, hpeek, Option.bind_some, poke_of_lt hpos, Option.bind_some, hrest]
      · have hne : i ≠ ⟨pos, hpos⟩ := by
          rintro rfl
          dsimp only at hi
          omega
        rw [hsame i (by omega), Function.update_of_ne hne]

/-- With the distance 0 a place gets what it holds. -/
theorem copy_within_zero {buf : Fin n → α} {len pos : ℕ} (hroom : pos + len ≤ n) :
    copy_within 0 len pos buf = some buf := by
  induction len generalizing pos with
  | zero => rfl
  | succ len ih =>
      have hpos : pos < n := by omega
      rw [copy_within, peek_back, if_neg (Nat.not_lt_zero pos), Nat.sub_zero, peek_of_lt hpos,
        Option.bind_some, poke_of_lt hpos, Option.bind_some, Function.update_eq_self,
        ih (by omega)]

/-! ## Runs that do not depend on the buffer -/

/-- A run that returns for every buffer, with a length that the buffer has room for; the length and
what stands in front of it are the same for all buffers. -/
def Determined (run : (Fin n → α) → Option (ℕ × (Fin n → α))) : Prop :=
  ∀ buf₁ buf₂, ∃ k r₁ r₂, run buf₁ = some (k, r₁) ∧ run buf₂ = some (k, r₂) ∧ k ≤ n
    ∧ ∀ i : Fin n, ↑i < k → r₁ i = r₂ i

theorem determined_of_written {run : (Fin n → α) → Option (ℕ × (Fin n → α))} {k : ℕ}
    {out : List α} (hk : k ≤ out.length)
    (h : ∀ buf, ∃ r, run buf = some (k, r) ∧ Written r out) : Determined run := by
  intro buf₁ buf₂
  obtain ⟨r₁, hr₁, hw₁⟩ := h buf₁
  obtain ⟨r₂, hr₂, hw₂⟩ := h buf₂
  refine ⟨k, r₁, r₂, hr₁, hr₂, hk.trans hw₁.length_le, fun i hi => ?_⟩
  rw [hw₁.apply i (by omega), hw₂.apply i (by omega)]

/-! ## Literals and references -/

/-- What a stream asks for, one by one. -/
inductive Item (α : Type*) where
  | literal (a : α)
  | reference (dist len : ℕ)

/-- The places that are written. -/
def Item.size : Item α → ℕ
  | literal _ => 1
  | reference _ len => len

/-- The item has its places in a buffer of `n` behind `pos`; a reference is not empty and leads
into the buffer. -/
def Item.Fits (n pos : ℕ) : Item α → Prop
  | literal _ => pos < n
  | reference dist len => 0 < len ∧ dist ≤ pos ∧ pos + len ≤ n

/-- The distance 0. -/
def Item.Stale : Item α → Prop
  | literal _ => False
  | reference dist _ => dist = 0

/-- What an item appends. -/
def Item.append (z : α) (out : List α) : Item α → List α
  | literal a => out ++ [a]
  | reference dist len => copy_back z dist len out

/-- An item at a position, and the position behind it. -/
def put (s : ℕ × (Fin n → α)) : Item α → Option (ℕ × (Fin n → α))
  | .literal a => (poke s.2 s.1 a).map fun buf => (s.1 + 1, buf)
  | .reference dist len => (copy_within dist len s.1 s.2).map fun buf => (s.1 + len, buf)

/-- The items fit one behind the other. -/
def AllFit (n : ℕ) : ℕ → List (Item α) → Prop
  | _, [] => True
  | pos, item :: items => item.Fits n pos ∧ AllFit n (pos + item.size) items

theorem Item.append_length (z : α) (out : List α) (item : Item α) :
    (item.append z out).length = out.length + item.size := by
  cases item with
  | literal a => rw [append, size, List.length_append, List.length_singleton]
  | reference dist len => rw [append, size, copy_back_length]

theorem put_written {buf : Fin n → α} {out : List α} (h : Written buf out) (z : α)
    {item : Item α} (hfits : item.Fits n out.length) (hfresh : ¬item.Stale) :
    ∃ buf', put (out.length, buf) item = some ((item.append z out).length, buf')
      ∧ Written buf' (item.append z out) := by
  rw [item.append_length]
  cases item with
  | literal a =>
    obtain ⟨buf', hbuf', hwritten⟩ := h.poke hfits a
    exact ⟨buf', by rw [put, hbuf']; rfl, hwritten⟩
  | reference dist len =>
    obtain ⟨-, hle, hroom⟩ := hfits
    obtain ⟨buf', hbuf', hwritten⟩ := copy_within_written h z dist len
      (Nat.pos_of_ne_zero hfresh) hle hroom
    exact ⟨buf', by rw [put, hbuf']; rfl, hwritten⟩

/-- Without the distance 0 the items write the same in every buffer. -/
theorem run_written (z : α) {items : List (Item α)} {out : List α} {buf : Fin n → α}
    (h : Written buf out) (hfit : AllFit n out.length items)
    (hfresh : ∀ item ∈ items, ¬item.Stale) :
    ∃ buf', items.foldlM put (out.length, buf)
        = some ((items.foldl (Item.append z) out).length, buf')
      ∧ Written buf' (items.foldl (Item.append z) out) := by
  induction items generalizing out buf with
  | nil => exact ⟨buf, rfl, h⟩
  | cons item items ih =>
      rw [List.forall_mem_cons] at hfresh
      obtain ⟨hfits, hrest⟩ := hfit
      obtain ⟨mid, hmid, hwritten⟩ := put_written h z hfits hfresh.1
      rw [← item.append_length z] at hrest
      obtain ⟨buf', hbuf', hwritten'⟩ := ih hwritten hrest hfresh.2
      exact ⟨buf', by rw [List.foldlM_cons, hmid]; exact hbuf', hwritten'⟩

theorem put_outside (buf : Fin n → α) {pos : ℕ} {item : Item α} (hfits : item.Fits n pos) :
    ∃ buf', put (pos, buf) item = some (pos + item.size, buf')
      ∧ SameOutside pos (pos + item.size) buf buf' := by
  cases item with
  | literal a =>
    refine ⟨Function.update buf ⟨pos, hfits⟩ a, by rw [put, poke_of_lt hfits]; rfl, ?_⟩
    intro i hi
    refine Function.update_of_ne ?_ _ _
    rintro rfl
    simp only [Item.size] at hi
    omega
  | reference dist len =>
    obtain ⟨-, hle, hroom⟩ := hfits
    obtain ⟨buf', hbuf', hsame⟩ := copy_within_outside buf hle hroom
    exact ⟨buf', by rw [put, hbuf']; rfl, hsame⟩

theorem put_fst {s s' : ℕ × (Fin n → α)} {item : Item α} (h : put s item = some s') :
    s'.1 = s.1 + item.size := by
  cases item with
  | literal a =>
    obtain ⟨buf, -, rfl⟩ := Option.map_eq_some_iff.mp h
    rfl
  | reference dist len =>
    obtain ⟨buf, -, rfl⟩ := Option.map_eq_some_iff.mp h
    rfl

/-- The places that all items write. -/
def total (items : List (Item α)) : ℕ := (items.map Item.size).sum

theorem total_cons (item : Item α) (items : List (Item α)) :
    total (item :: items) = item.size + total items := by
  rw [total, List.map_cons, List.sum_cons]
  rfl

theorem run_fst {items : List (Item α)} {s s' : ℕ × (Fin n → α)}
    (h : items.foldlM put s = some s') : s'.1 = s.1 + total items := by
  induction items generalizing s with
  | nil =>
      cases h
      rfl
  | cons item items ih =>
      rw [List.foldlM_cons] at h
      obtain ⟨mid, hmid, h⟩ := Option.bind_eq_some_iff.mp h
      rw [ih h, put_fst hmid, total_cons, Nat.add_assoc]

theorem AllFit.append {pos : ℕ} {xs ys : List (Item α)} (hxs : AllFit n pos xs)
    (hys : AllFit n (pos + total xs) ys) : AllFit n pos (xs ++ ys) := by
  induction xs generalizing pos with
  | nil => exact hys
  | cons item xs ih =>
      rw [total_cons, ← Nat.add_assoc] at hys
      exact ⟨hxs.1, ih hxs.2 hys⟩

/-- The items leave what is in front of them. -/
theorem run_outside {items : List (Item α)} {pos : ℕ} (buf : Fin n → α)
    (hfit : AllFit n pos items) :
    ∃ buf', items.foldlM put (pos, buf) = some (pos + total items, buf')
      ∧ ∀ i : Fin n, ↑i < pos → buf' i = buf i := by
  induction items generalizing pos buf with
  | nil => exact ⟨buf, rfl, fun i _ => rfl⟩
  | cons item items ih =>
      obtain ⟨mid, hmid, hsame⟩ := put_outside buf hfit.1
      obtain ⟨buf', hbuf', hfront⟩ := ih mid hfit.2
      refine ⟨buf', ?_, fun i hi => ?_⟩
      · rw [List.foldlM_cons, hmid, total_cons, ← Nat.add_assoc]
        exact hbuf'
      · rw [hfront i (by omega), hsame i (Or.inl hi)]

/-- A reference of the distance 0 leaves an old symbol among what is written. -/
theorem run_stale {items : List (Item α)} {pos : ℕ} (hfit : AllFit n pos items)
    (hstale : ∃ item ∈ items, item.Stale) :
    ∃ j : Fin n, pos ≤ j ∧ ↑j < pos + total items ∧ ∀ buf : Fin n → α,
      ∃ buf', items.foldlM put (pos, buf) = some (pos + total items, buf') ∧ buf' j = buf j := by
  induction items generalizing pos with
  | nil => simp at hstale
  | cons item items ih =>
      obtain ⟨hfits, hrest⟩ := hfit
      have htotal : pos + total (item :: items) = pos + item.size + total items := by
        rw [total_cons, Nat.add_assoc]
      rw [htotal]
      by_cases hitem : item.Stale
      · -- the place where it stands keeps its symbol
        cases item with
        | literal a => exact hitem.elim
        | reference dist len =>
          obtain rfl : dist = 0 := hitem
          obtain ⟨hlen, -, hroom⟩ := hfits
          have hput : ∀ buf : Fin n → α,
              put (pos, buf) (.reference 0 len) = some (pos + len, buf) := by
            intro buf
            rw [put, copy_within_zero hroom]
            rfl
          refine ⟨⟨pos, by omega⟩, le_rfl, ?_, fun buf => ?_⟩
          · simp only [Item.size]
            omega
          · obtain ⟨buf', hbuf', hfront⟩ := run_outside buf hrest
            exact ⟨buf', by rw [List.foldlM_cons, hput]; exact hbuf',
              hfront _ (Nat.lt_add_of_pos_right hlen)⟩
      · have hlater : ∃ item ∈ items, item.Stale := by
          obtain ⟨other, hmem, hother⟩ := hstale
          rcases List.mem_cons.mp hmem with rfl | hmem
          · exact absurd hother hitem
          · exact ⟨other, hmem, hother⟩
        obtain ⟨j, hj, hjtotal, hkeep⟩ := ih hrest hlater
        refine ⟨j, by omega, hjtotal, fun buf => ?_⟩
        obtain ⟨mid, hmid, hsame⟩ := put_outside buf hfits
        obtain ⟨buf', hbuf', hj'⟩ := hkeep mid
        exact ⟨buf', by rw [List.foldlM_cons, hmid]; exact hbuf', by rw [hj', hsame j (Or.inr hj)]⟩

/-- Items that fit are a function of nothing but themselves exactly when no distance is 0. -/
theorem determined_iff [Nontrivial α] {items : List (Item α)} (hfit : AllFit n 0 items) :
    Determined (fun buf : Fin n → α => items.foldlM put (0, buf))
      ↔ ∀ item ∈ items, ¬item.Stale := by
  obtain ⟨a, b, hab⟩ := exists_pair_ne α
  constructor
  · intro hdet item hmem hstale
    obtain ⟨j, -, hj, hkeep⟩ := run_stale hfit ⟨item, hmem, hstale⟩
    obtain ⟨k, r₁, r₂, hr₁, hr₂, -, hsame⟩ := hdet (fun _ => a) fun _ => b
    obtain ⟨buf₁, hbuf₁, hj₁⟩ := hkeep fun _ => a
    obtain ⟨buf₂, hbuf₂, hj₂⟩ := hkeep fun _ => b
    dsimp only at hr₁ hr₂
    rw [hbuf₁] at hr₁
    rw [hbuf₂] at hr₂
    cases hr₁
    cases hr₂
    exact hab (by rw [← hj₁, ← hj₂, hsame j hj])
  · intro hfresh
    exact determined_of_written le_rfl fun buf =>
      run_written a (written_nil buf) hfit hfresh

end SysInC.LzBuffer
