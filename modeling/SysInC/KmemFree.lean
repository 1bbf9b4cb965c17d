/-
What `kfree` does to the block list.

Both merges of the source are one operation, a block taking in the one behind it
(`absorb`): the first with the freed block on the left, the second with the freed block on
the right. `absorb_spec` says it once, for memory; `merge_next_eq` and `merge_prev_eq` read
each merge's assignments back to it.

Neither merge asks whether the two blocks touch. The list neighbours of one region
always do, those of two regions need not, so `kfree_spec` asks it as a hypothesis.
-/
import SysInC.KmemList

set_option autoImplicit false

namespace SysInC.Kmem

open SysInC.ByteMem

variable {abi : Abi}

/-! ## One block takes in the next -/

/-- `x` with `y`, the block behind it, taken in. -/
def absorb (abi : Abi) (x y : blk) : blk := { x with size := x.size + 4 * abi.sizeof_ptr + y.size }

/-- The three stores of a merge, of known values. -/
def absorb_mem (abi : Abi) (m : Mem) (x size next : ℕ) : Mem :=
  let m := set abi m x .size size
  let m := set abi m x .next next
  if next ≠ 0 then set abi m next .prev x else m

/-- The stores of a merge: in the header of the block that grows, and one `prev` word. -/
theorem absorb_mem_frame {m : Mem} {x size next i : ℕ}
    (hx : i < x ∨ x + 4 * abi.sizeof_ptr ≤ i)
    (hn : next = 0 ∨ i < next ∨ next + 4 * abi.sizeof_ptr ≤ i) :
    absorb_mem abi m x size next i = m i := by
  unfold absorb_mem
  split_ifs with h
  · rw [set_of_not_header (hn.resolve_left h), set_of_not_header hx, set_of_not_header hx]
  · rw [set_of_not_header hx, set_of_not_header hx]

/-- The header of the block that grew. -/
theorem absorb_mem_header {m : Mem} {x : blk} {p n size next : ℕ} (hx : Header abi m x p n)
    (hsize : size < abi.size_mod) (hnext : next < abi.size_mod)
    (hapart : next = 0 ∨ HeaderApart abi next x.addr) :
    Header abi (absorb_mem abi m x.addr size next) { x with size := size } p next := by
  have hlast : ∀ (m' : Mem) (f : field),
      get abi (if next ≠ 0 then set abi m' next .prev x.addr else m') x.addr f
        = get abi m' x.addr f := by
    intro m' f
    split_ifs with h
    · exact get_set_apart (hapart.resolve_left h)
    · rfl
  unfold absorb_mem
  refine ⟨?_, ?_, ?_, ?_⟩
  · rw [hlast, get_set_field (by decide), get_set_word (by decide) hsize]
  · rw [hlast, get_set_field (by decide), get_set_field (by decide), hx.is_free]
  · rw [hlast, get_set_word (by decide) hnext]
  · rw [hlast, get_set_field (by decide), get_set_field (by decide), hx.prev]

/-- The header behind the two blocks: only its `prev` moves. -/
theorem absorb_mem_header_next {m : Mem} {c : blk} {x p n size : ℕ} (hc : Header abi m c p n)
    (hpos : c.addr ≠ 0) (hx : x < abi.size_mod) (hapart : HeaderApart abi x c.addr) :
    Header abi (absorb_mem abi m x size c.addr) c x n := by
  simp only [absorb_mem, if_pos hpos]
  refine ⟨?_, ?_, ?_, ?_⟩
  · rw [get_set_field (by decide), get_set_apart hapart, get_set_apart hapart, hc.size]
  · rw [get_set_field (by decide), get_set_apart hapart, get_set_apart hapart, hc.is_free]
  · rw [get_set_field (by decide), get_set_apart hapart, get_set_apart hapart, hc.next]
  · exact get_set_word (by decide) hx

/-- **What a merge does.** Of two blocks that touch, the first takes the second in. -/
theorem absorb_spec {m : Mem} {pre post : List blk} {x y : blk}
    (hl : Linked abi m 0 (pre ++ x :: y :: post) 0) (hp : Placed abi (pre ++ x :: y :: post))
    (hadj : x.stop abi = y.addr) :
    Linked abi (absorb_mem abi m x.addr (absorb abi x y).size (first post 0)) 0
        (pre ++ absorb abi x y :: post) 0
      ∧ Placed abi (pre ++ absorb abi x y :: post) := by
  have h4 := abi.four_le
  have hx := hp.bounds x (by simp)
  have hy := hp.bounds y (by simp)
  have hxs : ∀ c, c ∈ pre ∨ c ∈ post → x.stop abi ≤ c.addr ∨ c.stop abi ≤ x.addr :=
    fun c hc => hp.apart_of_mem (hc.imp id (List.mem_cons_of_mem _))
  have hpy : Placed abi ((pre ++ [x]) ++ y :: post) := by simpa using hp
  have hys : ∀ c, c ∈ pre ∨ c ∈ post → y.stop abi ≤ c.addr ∨ c.stop abi ≤ y.addr :=
    fun c hc => hpy.apart_of_mem (hc.imp (List.mem_append_left _) id)
  simp only [blk.stop] at hx hy hxs hys hadj
  -- what stays lies off both blocks, and so off the space between the two ends
  have hoff : ∀ c, c ∈ pre ∨ c ∈ post →
      y.addr + 4 * abi.sizeof_ptr + y.size ≤ c.addr
        ∨ c.addr + 4 * abi.sizeof_ptr + c.size ≤ x.addr := by
    intro c hc
    have h1 := hxs c hc
    have h2 := hys c hc
    omega
  refine ⟨?_, ?_⟩
  · have hlx := ((linked_append m 0 pre (x :: y :: post) 0).mp hl).2.1
    refine Linked.splice [x, y] [absorb abi x y] hl hp (fun n => rfl) ?_ ?_ ?_
    · refine ⟨absorb_mem_header hlx (by simp only [absorb]; omega) hpy.first_behind.2 ?_, trivial⟩
      cases post with
      | nil => exact Or.inl rfl
      | cons c post =>
          have hc := hoff c (Or.inr List.mem_cons_self)
          refine Or.inr ?_
          simp only [first, HeaderApart]
          omega
    · intro c hc n hcm
      obtain ⟨post, rfl⟩ : ∃ post', post = c :: post' := by
        cases post with
        | nil => cases hc
        | cons d post => exact ⟨post, by rw [Option.some.inj hc]⟩
      have hoffc := hoff c (Or.inr List.mem_cons_self)
      have hc0 := (hp.bounds c (by simp)).1
      refine absorb_mem_header_next hcm (by omega) (by omega) ?_
      rw [HeaderApart]
      omega
    · intro i hi hn
      have hix := hi x List.mem_cons_self
      rw [blk.stop] at hix
      exact absorb_mem_frame (by omega) hn
  · refine hp.replace [x, y] [absorb abi x y] ⟨?_, ?_⟩ ?_
    · intro b hb
      obtain rfl := List.mem_singleton.mp hb
      simp only [blk.stop, absorb]
      omega
    · exact List.pairwise_singleton _ _
    · intro c hc b hb
      obtain rfl := List.mem_singleton.mp hb
      have hoffc := hoff c hc
      simp only [blk.stop, absorb]
      omega

/-! ## The two merges -/

/-- The list behind a block that was freed. -/
def join_next (abi : Abi) (b : blk) : List blk → List blk
  | [] => [b]
  | c :: post => if c.free then absorb abi b c :: post else b :: c :: post

/-- The list with its part from a freed block on, `bs`, joined to the part before it. -/
def join_prev (abi : Abi) (pre : List blk) : List blk → List blk
  | [] => pre
  | b :: post =>
    match pre.getLast? with
    | some a => if a.free then pre.dropLast ++ absorb abi a b :: post else pre ++ b :: post
    | none => b :: post

@[simp] theorem join_prev_nil (b : blk) (post : List blk) :
    join_prev abi [] (b :: post) = b :: post := rfl

@[simp] theorem join_prev_concat (pre : List blk) (a b : blk) (post : List blk) :
    join_prev abi (pre ++ [a]) (b :: post)
      = if a.free then pre ++ absorb abi a b :: post else pre ++ a :: b :: post := by
  simp [join_prev]

/-- `merge_next`, when it merges: the header of `block` is not overwritten before the
source reads it again. -/
theorem merge_next_eq {m : Mem} {b c : blk} {p n : ℕ} (hb : Header abi m b p c.addr)
    (hc : Header abi m c b.addr n) (hfree : c.free = true) (hpos : c.addr ≠ 0)
    (hapart : HeaderApart abi b.addr c.addr) (hn : n < abi.size_mod)
    (hsum : b.size + 4 * abi.sizeof_ptr + c.size < abi.size_mod) :
    merge_next abi m b.addr = absorb_mem abi m b.addr (absorb abi b c).size n := by
  have hcfree : get abi m c.addr .is_free ≠ 0 := by
    rw [hc.is_free, hfree]
    decide
  rw [merge_next, hb.next, if_pos ⟨hpos, hcfree⟩]
  simp only [absorb_mem, absorb, BLOCK_HEADER_SIZE_eq, hb.size, hc.size,
    Nat.mod_eq_of_lt hsum, get_set_field (show field.size ≠ field.next by decide), hb.next,
    get_set_apart hapart, hc.next, get_set_word (show field.next ≠ .is_free by decide) hn]

/-- `merge_prev`, when it merges. -/
theorem merge_prev_eq {m : Mem} {a b : blk} {p n : ℕ} (ha : Header abi m a p b.addr)
    (hb : Header abi m b a.addr n) (hfree : a.free = true) (hpos : a.addr ≠ 0)
    (hapart : HeaderApart abi a.addr b.addr)
    (hsum : a.size + 4 * abi.sizeof_ptr + b.size < abi.size_mod) :
    merge_prev abi m b.addr = absorb_mem abi m a.addr (absorb abi a b).size n := by
  have hafree : get abi m a.addr .is_free ≠ 0 := by
    rw [ha.is_free, hfree]
    decide
  rw [merge_prev, hb.prev, if_pos ⟨hpos, hafree⟩]
  simp only [absorb_mem, absorb, BLOCK_HEADER_SIZE_eq, ha.size, hb.size,
    Nat.mod_eq_of_lt hsum, get_set_apart hapart, hb.next, hb.prev]

/-- The part of memory that `kfree` writes. -/
def InHeader (abi : Abi) (bs : List blk) (i : ℕ) : Prop :=
  ∃ b ∈ bs, b.addr ≤ i ∧ i < b.addr + 4 * abi.sizeof_ptr

theorem InHeader.of_addr {bs bs' : List blk} {i : ℕ} (hi : InHeader abi bs i)
    (h : ∀ b ∈ bs, ∃ b' ∈ bs', b'.addr = b.addr) : InHeader abi bs' i := by
  obtain ⟨b, hb, h1, h2⟩ := hi
  obtain ⟨b', hb', haddr⟩ := h b hb
  exact ⟨b', hb', by omega, by omega⟩

/-- Outside a header a byte lies off that header. -/
theorem off_header {bs : List blk} {b : blk} {i : ℕ} (hi : ¬InHeader abi bs i) (hb : b ∈ bs) :
    i < b.addr ∨ b.addr + 4 * abi.sizeof_ptr ≤ i := by
  by_contra hin
  exact hi ⟨b, hb, by omega, by omega⟩

/-- A merge writes headers only. -/
theorem absorb_mem_off_headers {m : Mem} {pre post : List blk} {x y : blk} {size i : ℕ}
    (hi : ¬InHeader abi (pre ++ x :: y :: post) i) :
    absorb_mem abi m x.addr size (first post 0) i = m i := by
  apply absorb_mem_frame (off_header hi (by simp))
  cases post with
  | nil => exact Or.inl rfl
  | cons d post => exact Or.inr (off_header hi (by simp))

/-- **`merge_next`**, on the list. -/
theorem merge_next_spec {m : Mem} {pre post : List blk} {b : blk}
    (hl : Linked abi m 0 (pre ++ b :: post) 0) (hp : Placed abi (pre ++ b :: post))
    (hadj : ∀ c ∈ post.head?, c.free = true → b.stop abi = c.addr) :
    Linked abi (merge_next abi m b.addr) 0 (pre ++ join_next abi b post) 0
      ∧ Placed abi (pre ++ join_next abi b post)
      ∧ ∀ i, ¬InHeader abi (pre ++ b :: post) i → merge_next abi m b.addr i = m i := by
  have hlb := ((linked_append m 0 pre (b :: post) 0).mp hl).2
  cases post with
  | nil =>
      have hstay : merge_next abi m b.addr = m := by
        rw [merge_next, hlb.1.next, if_neg (fun h => h.1 rfl)]
      rw [hstay]
      exact ⟨hl, hp, fun i _ => rfl⟩
  | cons c post =>
      -- a used neighbour is left alone
      by_cases hfree : c.free = true
      · have hb := hp.bounds b (by simp)
        have hc := hp.bounds c (by simp)
        have hbc := hadj c rfl hfree
        simp only [blk.stop] at hb hc hbc
        have hn : first post 0 < abi.size_mod := by
          have hpc : Placed abi ((pre ++ [b]) ++ c :: post) := by simpa using hp
          exact hpc.first_behind.2
        have hmerge := merge_next_eq hlb.1 hlb.2.1 hfree (by omega) (Or.inl (by omega)) hn
          (by omega)
        obtain ⟨hlink, hplaced⟩ := absorb_spec hl hp (hadj c rfl hfree)
        rw [hmerge, join_next, if_pos hfree]
        exact ⟨hlink, hplaced, fun i hi => absorb_mem_off_headers hi⟩
      · have hcfree : get abi m c.addr .is_free = 0 := by
          rw [hlb.2.1.is_free, Bool.eq_false_iff.mpr hfree]
          rfl
        have hstay : merge_next abi m b.addr = m := by
          rw [merge_next, hlb.1.next, if_neg (fun h => h.2 hcfree)]
        rw [hstay, join_next, if_neg hfree]
        exact ⟨hl, hp, fun i _ => rfl⟩

/-- **`merge_prev`**, on the list. -/
theorem merge_prev_spec {m : Mem} {pre post : List blk} {b : blk}
    (hl : Linked abi m 0 (pre ++ b :: post) 0) (hp : Placed abi (pre ++ b :: post))
    (hadj : ∀ a ∈ pre.getLast?, a.free = true → a.stop abi = b.addr) :
    Linked abi (merge_prev abi m b.addr) 0 (join_prev abi pre (b :: post)) 0
      ∧ Placed abi (join_prev abi pre (b :: post))
      ∧ ∀ i, ¬InHeader abi (pre ++ b :: post) i → merge_prev abi m b.addr i = m i := by
  rcases List.eq_nil_or_concat' pre with rfl | ⟨pre, a, rfl⟩
  · have hstay : merge_prev abi m b.addr = m := by
      rw [merge_prev, hl.1.prev, if_neg (fun h => h.1 rfl)]
    rw [hstay]
    exact ⟨hl, hp, fun i _ => rfl⟩
  · rw [List.append_assoc, List.singleton_append] at hl hp
    rw [List.append_assoc, List.singleton_append, join_prev_concat]
    have hla := ((linked_append m 0 pre (a :: b :: post) 0).mp hl).2
    -- a used neighbour is left alone
    by_cases hfree : a.free = true
    · have ha := hp.bounds a (by simp)
      have hb := hp.bounds b (by simp)
      have hab := hadj a (by simp) hfree
      simp only [blk.stop] at ha hb hab
      have hmerge := merge_prev_eq hla.1 hla.2.1 hfree (by omega) (Or.inl (by omega)) (by omega)
      obtain ⟨hlink, hplaced⟩ := absorb_spec hl hp (hadj a (by simp) hfree)
      rw [hmerge, if_pos hfree]
      exact ⟨hlink, hplaced, fun i hi => absorb_mem_off_headers hi⟩
    · have hafree : get abi m a.addr .is_free = 0 := by
        rw [hla.1.is_free, Bool.eq_false_iff.mpr hfree]
        rfl
      have hstay : merge_prev abi m b.addr = m := by
        rw [merge_prev, hla.2.1.prev, if_neg (fun h => h.2 hafree)]
      rw [hstay, if_neg hfree]
      exact ⟨hl, hp, fun i _ => rfl⟩

/-! ## `kfree` -/

/-- The list after the block `b` was freed. -/
def release (abi : Abi) (pre : List blk) (b : blk) (post : List blk) : List blk :=
  join_prev abi pre (join_next abi { b with free := true } post)

theorem join_next_eq_cons (abi : Abi) (b : blk) (post : List blk) :
    ∃ b' post', join_next abi b post = b' :: post' ∧ b'.addr = b.addr ∧ b'.free = b.free
      ∧ post' ⊆ post := by
  cases post with
  | nil => exact ⟨b, [], rfl, rfl, rfl, List.Subset.refl _⟩
  | cons c post =>
      by_cases hfree : c.free = true
      · exact ⟨absorb abi b c, post, if_pos hfree, rfl, rfl, List.subset_cons_self _ _⟩
      · exact ⟨b, c :: post, if_neg hfree, rfl, rfl, List.Subset.refl _⟩

/-- The list keeps its head's address. -/
theorem first_release (pre : List blk) (b : blk) (post : List blk) (n : ℕ) :
    first (release abi pre b post) n = first (pre ++ b :: post) n := by
  obtain ⟨b', post', hjoin, haddr, -⟩ :=
    join_next_eq_cons abi { b with free := true } post
  rw [release, hjoin]
  rcases List.eq_nil_or_concat' pre with rfl | ⟨pre, a, rfl⟩
  · exact haddr
  · rw [join_prev_concat, List.append_assoc]
    split_ifs <;> simp only [first_append] <;> rfl

/-- A released list comes about by marking one block and merging blocks that touch, so it
has every property that these steps keep. -/
theorem release_induction {P : List blk → Prop} {pre : List blk} {b : blk} {post : List blk}
    (hmark : P (pre ++ { b with free := true } :: post))
    (habsorb : ∀ pre x y post, x.stop abi = y.addr → P (pre ++ x :: y :: post) →
      P (pre ++ absorb abi x y :: post))
    (hnext : ∀ c ∈ post.head?, c.free = true → b.stop abi = c.addr)
    (hprev : ∀ a ∈ pre.getLast?, a.free = true → a.stop abi = b.addr) :
    P (release abi pre b post) := by
  have hjoin : P (pre ++ join_next abi { b with free := true } post) := by
    cases post with
    | nil => exact hmark
    | cons c post =>
        rw [join_next]
        split_ifs with hfree
        · exact habsorb _ _ _ _ (hnext c rfl hfree) hmark
        · exact hmark
  obtain ⟨b', post', hcons, haddr, -⟩ :=
    join_next_eq_cons abi { b with free := true } post
  rw [hcons] at hjoin
  rw [release, hcons]
  rcases List.eq_nil_or_concat' pre with rfl | ⟨pre, a, rfl⟩
  · exact hjoin
  · rw [List.append_assoc] at hjoin
    rw [join_prev_concat]
    split_ifs with hfree
    · refine habsorb _ _ _ _ ?_ hjoin
      rw [haddr]
      exact hprev a (by simp) hfree
    · exact hjoin

/-- The first store of `kfree`. -/
theorem set_free_spec {m : Mem} {pre post : List blk} {b : blk}
    (hl : Linked abi m 0 (pre ++ b :: post) 0) (hp : Placed abi (pre ++ b :: post)) :
    Linked abi (set abi m b.addr .is_free 1) 0 (pre ++ { b with free := true } :: post) 0
      ∧ Placed abi (pre ++ { b with free := true } :: post) := by
  have hlb := ((linked_append m 0 pre (b :: post) 0).mp hl).2.1
  refine ⟨?_, ?_⟩
  · refine Linked.splice [b] [{ b with free := true }] hl hp (fun n => rfl)
      ⟨⟨?_, ?_, ?_, ?_⟩, trivial⟩ ?_ ?_
    · rw [get_set_field (by decide), hlb.size]
    · exact get_set_flag le_rfl
    · rw [get_set_field (by decide), hlb.next]
      rfl
    · rw [get_set_field (by decide), hlb.prev]
    · intro c hc n hcm
      apply hcm.congr
      intro i h1 h2
      have hbc := hp.apart_of_mem (Or.inr (List.mem_of_mem_head? hc))
      simp only [blk.stop] at hbc
      exact set_of_not_header (by omega)
    · intro i hi _
      have hib := hi b List.mem_cons_self
      rw [blk.stop] at hib
      exact set_of_not_header (by omega)
  · refine hp.replace [b] [{ b with free := true }] ⟨?_, ?_⟩ ?_
    · intro c hc
      obtain rfl := List.mem_singleton.mp hc
      exact hp.bounds b (by simp)
    · exact List.pairwise_singleton _ _
    · intro c hc x hx
      obtain rfl := List.mem_singleton.mp hx
      exact hp.apart_of_mem hc

/-- **What `kfree` does**, to a pointer whose back pointer names the block `b`: the list is
the released one, and only headers are written. -/
theorem kfree_spec {s : kheap} {pre post : List blk} {b : blk} {ptr : ℕ}
    (hr : Represents abi s (pre ++ b :: post)) (hp : Placed abi (pre ++ b :: post))
    (hptr : ptr ≠ 0) (hown : load s.mem (back_slot abi ptr) abi.sizeof_ptr = b.addr)
    (hnext : ∀ c ∈ post.head?, c.free = true → b.stop abi = c.addr)
    (hprev : ∀ a ∈ pre.getLast?, a.free = true → a.stop abi = b.addr) :
    Represents abi (kfree abi s ptr) (release abi pre b post)
      ∧ Placed abi (release abi pre b post)
      ∧ ∀ i, ¬InHeader abi (pre ++ b :: post) i → (kfree abi s ptr).mem i = s.mem i := by
  have hpos : b.addr ≠ 0 := by
    have := hp.bounds b (by simp)
    omega
  -- the flag, the merge with what is behind, the merge with what is in front
  obtain ⟨hl0, hp0⟩ := set_free_spec hr.2 hp
  obtain ⟨hl1, hp1, hf1⟩ := merge_next_spec hl0 hp0 hnext
  obtain ⟨b', post', hjoin, haddr, -, hpost⟩ :=
    join_next_eq_cons abi { b with free := true } post
  have hrel : release abi pre b post = join_prev abi pre (b' :: post') := by rw [release, hjoin]
  dsimp only at hl1 hf1 haddr
  rw [hjoin] at hl1 hp1
  obtain ⟨hl2, hp2, hf2⟩ := merge_prev_spec hl1 hp1 (by rw [haddr]; exact hprev)
  rw [haddr] at hl2 hf2
  have hkfree : kfree abi s ptr = { s with
      mem := merge_prev abi (merge_next abi (set abi s.mem b.addr .is_free 1) b.addr) b.addr } := by
    rw [kfree, if_neg hptr, hown, if_neg hpos]
  rw [hkfree]
  refine ⟨⟨?_, ?_⟩, ?_, ?_⟩
  · rw [first_release]
    exact hr.1
  · rw [hrel]
    exact hl2
  · rw [hrel]
    exact hp2
  · -- the headers the merges may write are those of the list they start from
    have hmarked : ∀ c ∈ pre ++ { b with free := true } :: post,
        ∃ d ∈ pre ++ b :: post, d.addr = c.addr := by
      intro c hc
      simp only [List.mem_append, List.mem_cons] at hc
      rcases hc with hc | rfl | hc
      · exact ⟨c, by simp [hc], rfl⟩
      · exact ⟨b, by simp, rfl⟩
      · exact ⟨c, by simp [hc], rfl⟩
    have hmerged : ∀ c ∈ pre ++ b' :: post', ∃ d ∈ pre ++ b :: post, d.addr = c.addr := by
      intro c hc
      simp only [List.mem_append, List.mem_cons] at hc
      rcases hc with hc | rfl | hc
      · exact ⟨c, by simp [hc], rfl⟩
      · exact ⟨b, by simp, haddr.symm⟩
      · exact ⟨c, by simp [hpost hc], rfl⟩
    intro i hi
    dsimp only
    rw [hf2 i (fun h => hi (h.of_addr hmerged)), hf1 i (fun h => hi (h.of_addr hmarked)),
      set_of_not_header (off_header hi (by simp))]

end SysInC.Kmem
