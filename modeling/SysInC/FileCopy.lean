/-
The copies of `low-utils`: `cross_device_move` of `mv.c` and `copy_single_file` of `cp.c`.

Both have the same loop. A turn tries `copy_file_range`, then `sendfile`, then a `read` and a
`write`, and counts what the last of them has moved; a turn that moves nothing ends the loop,
and what comes after it does not ask how it ended.
-/
import Mathlib.Algebra.Order.Ring.Nat
import Mathlib.Data.List.Basic
import Mathlib.Data.List.TakeDrop
import Mathlib.Tactic.Common

set_option autoImplicit false

namespace SysInC.FileCopy

/-! ## The loop -/

/-- What the calls of a turn answer: a count, or `none` for an error. A call moves as much of the
count as it was asked for and as the file has. -/
structure turn where
  copy_file_range : Option ℕ
  sendfile : Option ℕ
  read : Option ℕ
  write : Option ℕ

/-- The offset of `fd_in`, what was written to `fd_out`, and the counter `copied`. -/
structure copying where
  pos : ℕ
  out : List UInt8
  copied : ℕ

/-- What a call moves. An error and a 0 are the same to the loop: `ret <= 0`. -/
def moved (answer : Option ℕ) (room : ℕ) : ℕ := min (answer.getD 0) room

/-- `sizeof(buf)` -/
def sizeof_buf : ℕ := 65536

/-- `n` bytes go from file to file. -/
def copying.advance (content : List UInt8) (c : copying) (n : ℕ) : copying :=
  ⟨c.pos + n, c.out ++ (content.drop c.pos).take n, c.copied + n⟩

/-- `r = read(fd_in, buf, sizeof(buf)); … ret = write(fd_out, buf, r);`, and the `break`s behind
them. -/
def read_write (content : List UInt8) (c : copying) (t : turn) : Option copying :=
  let r := moved t.read (min sizeof_buf (content.length - c.pos))
  if r = 0 then none
  else
    let w := moved t.write r
    if w = 0 then none
    else some ⟨c.pos + r, c.out ++ (content.drop c.pos).take w, c.copied + w⟩

/-- The body of the loop, which asks for `chunk` bytes of `content`; `none` is a `break`. -/
def loop_body (content : List UInt8) (chunk : ℕ) (c : copying) (t : turn) : Option copying :=
  let room := content.length - c.pos
  let range := moved t.copy_file_range (min chunk room)
  let sent := moved t.sendfile (min chunk room)
  if 0 < range then some (c.advance content range)
  else if 0 < sent then some (c.advance content sent)
  else read_write content c t

/-- `while (copied < total)`, from the turn `k` on. `chunk` is what is asked for of what is left. -/
def copy_loop (chunk : ℕ → ℕ) (io : ℕ → turn) (content : List UInt8) (total : ℕ) :
    ℕ → ℕ → copying → copying
  | 0, _, c => c
  | fuel + 1, k, c =>
    if c.copied < total then
      match loop_body content (chunk (total - c.copied)) c (io k) with
      | some c' => copy_loop chunk io content total fuel (k + 1) c'
      | none => c
    else c

/-- What the loop leaves in a new file. The size of a file is the length of its content, and no more
turns than that move a byte. -/
def copied_bytes (chunk : ℕ → ℕ) (io : ℕ → turn) (content : List UInt8) : List UInt8 :=
  (copy_loop chunk io content content.length content.length 0 ⟨0, [], 0⟩).out

variable {chunk : ℕ → ℕ} {io : ℕ → turn} {content : List UInt8} {c c' : copying} {t : turn}

theorem moved_le (answer : Option ℕ) (room : ℕ) : moved answer room ≤ room := Nat.min_le_right _ _

/-- A turn that goes on has counted something. -/
theorem copied_lt {n : ℕ} (h : loop_body content n c t = some c') : c.copied < c'.copied := by
  unfold loop_body read_write at h
  dsimp only at h
  split_ifs at h with hrange hsent hread hwrite
  · obtain rfl := Option.some.inj h
    exact Nat.lt_add_of_pos_right hrange
  · obtain rfl := Option.some.inj h
    exact Nat.lt_add_of_pos_right hsent
  · obtain rfl := Option.some.inj h
    exact Nat.lt_add_of_pos_right (Nat.pos_of_ne_zero hwrite)

/-- The loop has come to its end when the fuel has: more of it changes nothing. -/
theorem copy_loop_fuel {total fuel : ℕ} {k : ℕ} (h : total ≤ c.copied + fuel) (more : ℕ) :
    copy_loop chunk io content total (fuel + more) k c
      = copy_loop chunk io content total fuel k c := by
  induction fuel generalizing k c with
  | zero =>
      have hdone : ¬c.copied < total := by omega
      cases more with
      | zero => rfl
      | succ more =>
          rw [Nat.zero_add, copy_loop, copy_loop, if_neg hdone]
  | succ fuel ih =>
      rw [Nat.add_right_comm, copy_loop, copy_loop]
      by_cases hlt : c.copied < total
      · rw [if_pos hlt, if_pos hlt]
        cases hbody : loop_body content (chunk (total - c.copied)) c (io k) with
        | none => rfl
        | some c' =>
            have hcount := copied_lt hbody
            exact ih (by omega)
      · rw [if_neg hlt, if_neg hlt]

/-! ## What has to be moved -/

/-- From the turn `k` on the calls move all of a file from `pos` on: in every turn one of them does,
and a `write` takes all that was read. -/
inductive Carried (chunk : ℕ → ℕ) (io : ℕ → turn) (total : ℕ) : ℕ → ℕ → Prop
  | all (k : ℕ) : Carried chunk io total k total
  | copy_file_range {k pos : ℕ} (hpos : pos < total)
    (hmoves : 0 < (io k).copy_file_range.getD 0)
    (hrest : Carried chunk io total (k + 1)
      (pos + min ((io k).copy_file_range.getD 0) (chunk (total - pos)))) :
    Carried chunk io total k pos
  | sendfile {k pos : ℕ} (hpos : pos < total) (hnone : (io k).copy_file_range.getD 0 = 0)
    (hmoves : 0 < (io k).sendfile.getD 0)
    (hrest : Carried chunk io total (k + 1)
      (pos + min ((io k).sendfile.getD 0) (chunk (total - pos)))) :
    Carried chunk io total k pos
  | read_write {k pos r : ℕ} (hpos : pos < total) (hnone : (io k).copy_file_range.getD 0 = 0)
    (hnone' : (io k).sendfile.getD 0 = 0) (hmoves : 0 < (io k).read.getD 0)
    (hread : r = min ((io k).read.getD 0) (min sizeof_buf (total - pos)))
    (hwhole : r ≤ (io k).write.getD 0) (hrest : Carried chunk io total (k + 1) (pos + r)) :
    Carried chunk io total k pos

section Carried

variable {total k pos : ℕ}

theorem carried_copy_file_range_iff (hpos : pos < total)
    (hmoves : 0 < (io k).copy_file_range.getD 0) :
    Carried chunk io total k pos ↔ Carried chunk io total (k + 1)
      (pos + min ((io k).copy_file_range.getD 0) (chunk (total - pos))) := by
  refine ⟨fun h => ?_, .copy_file_range hpos hmoves⟩
  cases h with
  | all => exact absurd hpos (lt_irrefl _)
  | copy_file_range _ _ hrest => exact hrest
  | sendfile _ hnone => exact absurd hnone hmoves.ne'
  | read_write _ hnone => exact absurd hnone hmoves.ne'

theorem carried_sendfile_iff (hpos : pos < total) (hnone : (io k).copy_file_range.getD 0 = 0)
    (hmoves : 0 < (io k).sendfile.getD 0) :
    Carried chunk io total k pos ↔ Carried chunk io total (k + 1)
      (pos + min ((io k).sendfile.getD 0) (chunk (total - pos))) := by
  refine ⟨fun h => ?_, .sendfile hpos hnone hmoves⟩
  cases h with
  | all => exact absurd hpos (lt_irrefl _)
  | copy_file_range _ hmoves' => exact absurd hnone hmoves'.ne'
  | sendfile _ _ _ hrest => exact hrest
  | read_write _ _ hnone' => exact absurd hnone' hmoves.ne'

theorem carried_read_write_iff (hpos : pos < total) (hnone : (io k).copy_file_range.getD 0 = 0)
    (hnone' : (io k).sendfile.getD 0 = 0) {r : ℕ}
    (hread : r = min ((io k).read.getD 0) (min sizeof_buf (total - pos))) :
    Carried chunk io total k pos
      ↔ 0 < r ∧ r ≤ (io k).write.getD 0 ∧ Carried chunk io total (k + 1) (pos + r) := by
  have hbuf : 0 < sizeof_buf := by decide
  constructor
  · intro h
    cases h with
    | all => exact absurd hpos (lt_irrefl _)
    | copy_file_range _ hmoves => exact absurd hnone hmoves.ne'
    | sendfile _ _ hmoves => exact absurd hnone' hmoves.ne'
    | read_write _ _ _ hmoves hread' hwhole hrest =>
        obtain rfl := hread.trans hread'.symm
        exact ⟨by omega, hwhole, hrest⟩
  · rintro ⟨hr, hwhole, hrest⟩
    exact .read_write hpos hnone hnone' (by omega) hread hwhole hrest

end Carried

/-! ## When everything arrives -/

/-- What is written is what was passed over. -/
structure Even (content : List UInt8) (c : copying) : Prop where
  copied : c.copied = c.pos
  out : c.out = content.take c.pos
  le : c.pos ≤ content.length

/-- Some of what was passed over is not written. -/
structure Behind (content : List UInt8) (c : copying) : Prop where
  lt : c.out.length < c.pos
  le : c.pos ≤ content.length

theorem Even.advance (h : Even content c) {n : ℕ} (hn : n ≤ content.length - c.pos) :
    Even content (c.advance content n) := by
  have hle := h.le
  refine ⟨congrArg (· + n) h.copied, ?_, show c.pos + n ≤ _ by omega⟩
  show c.out ++ (content.drop c.pos).take n = content.take (c.pos + n)
  rw [h.out, List.take_add]

theorem Behind.advance (h : Behind content c) {n : ℕ} (hn : n ≤ content.length - c.pos) :
    Behind content (c.advance content n) := by
  have hle := h.le
  have hlt := h.lt
  have hwritten : ((content.drop c.pos).take n).length ≤ n := List.length_take_le _ _
  refine ⟨?_, show c.pos + n ≤ _ by omega⟩
  show (c.out ++ (content.drop c.pos).take n).length < c.pos + n
  rw [List.length_append]
  omega

/-- What was lost does not come back. -/
theorem Behind.body (h : Behind content c) {n : ℕ} (hbody : loop_body content n c t = some c') :
    Behind content c' := by
  have hle := h.le
  have hlt := h.lt
  have hroom (answer : Option ℕ) : moved answer (min n (content.length - c.pos))
      ≤ content.length - c.pos := (moved_le _ _).trans (Nat.min_le_right _ _)
  unfold loop_body read_write at hbody
  dsimp only at hbody
  split_ifs at hbody
  · obtain rfl := Option.some.inj hbody
    exact h.advance (hroom _)
  · obtain rfl := Option.some.inj hbody
    exact h.advance (hroom _)
  · have hr := moved_le t.read (min sizeof_buf (content.length - c.pos))
    have hw := moved_le t.write (moved t.read (min sizeof_buf (content.length - c.pos)))
    have hbuf := Nat.min_le_right sizeof_buf (content.length - c.pos)
    have hwritten := List.length_take_le
      (moved t.write (moved t.read (min sizeof_buf (content.length - c.pos))))
      (content.drop c.pos)
    obtain rfl := Option.some.inj hbody
    refine ⟨?_, show c.pos + _ ≤ _ by omega⟩
    show (c.out ++ _).length < c.pos + _
    rw [List.length_append]
    omega

theorem Behind.loop (h : Behind content c) (total fuel k : ℕ) :
    (copy_loop chunk io content total fuel k c).out.length < content.length := by
  induction fuel generalizing k c with
  | zero => exact h.lt.trans_le h.le
  | succ fuel ih =>
      rw [copy_loop]
      by_cases hlt : c.copied < total
      · rw [if_pos hlt]
        cases hbody : loop_body content (chunk (total - c.copied)) c (io k) with
        | none => exact h.lt.trans_le h.le
        | some c' => exact ih (h.body hbody) (k + 1)
      · rw [if_neg hlt]
        exact h.lt.trans_le h.le

/-- What is asked for is part of what is left, and not nothing. -/
def Asks (chunk : ℕ → ℕ) : Prop := ∀ n, 0 < n → 0 < chunk n ∧ chunk n ≤ n

theorem take_ne_content {pos : ℕ} (h : pos < content.length) : content.take pos ≠ content := by
  intro heq
  have hlength := congrArg List.length heq
  rw [List.length_take_of_le h.le] at hlength
  exact h.ne hlength

/-- A turn in which neither `copy_file_range` nor `sendfile` moves anything, and the rest of the
loop. -/
theorem read_write_iff (h : Even content c) {fuel k : ℕ} (hpos : c.pos < content.length)
    (hnone : (io k).copy_file_range.getD 0 = 0) (hnone' : (io k).sendfile.getD 0 = 0)
    (hnext : ∀ c', Even content c' → c.copied < c'.copied →
      ((copy_loop chunk io content content.length fuel (k + 1) c').out = content
        ↔ Carried chunk io content.length (k + 1) c'.pos)) :
    (match read_write content c (io k) with
      | some c' => copy_loop chunk io content content.length fuel (k + 1) c'
      | none => c).out = content ↔ Carried chunk io content.length k c.pos := by
  unfold read_write
  dsimp only
  generalize hread : moved (io k).read (min sizeof_buf (content.length - c.pos)) = r
  generalize hwrite : moved (io k).write r = w
  have hr : r ≤ content.length - c.pos := by
    rw [← hread]
    exact (moved_le _ _).trans (Nat.min_le_right _ _)
  have hwr : w ≤ r := hwrite ▸ moved_le _ _
  rw [carried_read_write_iff hpos hnone hnone' hread.symm]
  have hbroken : c.out ≠ content := h.out ▸ take_ne_content hpos
  by_cases hzero : r = 0
  · rw [if_pos hzero]
    exact iff_of_false hbroken fun hcarried => hcarried.1.ne' hzero
  · rw [if_neg hzero]
    by_cases hnot : w = 0
    · rw [if_pos hnot]
      refine iff_of_false hbroken fun hcarried => ?_
      rw [moved] at hwrite
      have := hcarried.2.1
      omega
    · rw [if_neg hnot]
      dsimp only
      by_cases hwhole : w = r
      · have heven := h.advance hr
        have hsame : r ≤ (io k).write.getD 0 := by
          rw [moved] at hwrite
          omega
        have hiff := hnext _ heven (show c.copied < c.copied + r by omega)
        rw [hwhole]
        refine hiff.trans ⟨fun hrest => ⟨Nat.pos_of_ne_zero hzero, hsame, hrest⟩, fun hcarried =>
          hcarried.2.2⟩
      · -- a short write
        have hle := h.le
        have hbehind : Behind content ⟨c.pos + r, c.out ++ (content.drop c.pos).take w,
            c.copied + w⟩ := by
          have hwritten := List.length_take_le w (content.drop c.pos)
          have hout : c.out.length = c.pos := by rw [h.out, List.length_take_of_le hle]
          refine ⟨?_, show c.pos + r ≤ _ by omega⟩
          show (c.out ++ _).length < c.pos + r
          rw [List.length_append]
          omega
        have hshort : (copy_loop chunk io content content.length fuel (k + 1) _).out.length
          < content.length := hbehind.loop _ _ _
        refine iff_of_false (fun heq => ?_) fun hcarried => hwhole ?_
        · rw [heq] at hshort
          exact lt_irrefl _ hshort
        · rw [← hwrite, moved, Nat.min_eq_right hcarried.2.1]

theorem copy_loop_iff (hchunk : Asks chunk) (h : Even content c) {fuel k : ℕ}
    (hfuel : content.length ≤ c.copied + fuel) :
    (copy_loop chunk io content content.length fuel k c).out = content
      ↔ Carried chunk io content.length k c.pos := by
  have hcopied := h.copied
  have hle := h.le
  induction fuel generalizing k c with
  | zero =>
      have hpos : c.pos = content.length := by omega
      rw [copy_loop, h.out, hpos, List.take_length]
      exact iff_of_true rfl (.all k)
  | succ fuel ih =>
      rw [copy_loop]
      by_cases hlt : c.pos < content.length
      · rw [if_pos (hcopied ▸ hlt), hcopied]
        obtain ⟨hasks, hpart⟩ := hchunk _ (Nat.sub_pos_of_lt hlt)
        have hask : min (chunk (content.length - c.pos)) (content.length - c.pos)
            = chunk (content.length - c.pos) := Nat.min_eq_left hpart
        unfold loop_body
        dsimp only
        rw [hask]
        -- the first of the calls that moves something decides
        by_cases hrange : 0 < (io k).copy_file_range.getD 0
        · have hmoved : 0 < moved (io k).copy_file_range (chunk (content.length - c.pos)) :=
            Nat.lt_min.mpr ⟨hrange, hasks⟩
          have hroom := (moved_le (io k).copy_file_range _).trans hpart
          rw [if_pos hmoved, carried_copy_file_range_iff hlt hrange]
          refine ih (h.advance hroom) ?_ (h.advance hroom).copied (h.advance hroom).le
          show _ ≤ c.copied + _ + fuel
          omega
        · have hnone : (io k).copy_file_range.getD 0 = 0 := Nat.eq_zero_of_not_pos hrange
          rw [moved, hnone, Nat.zero_min, if_neg (lt_irrefl 0)]
          by_cases hsend : 0 < (io k).sendfile.getD 0
          · have hmoved : 0 < moved (io k).sendfile (chunk (content.length - c.pos)) :=
              Nat.lt_min.mpr ⟨hsend, hasks⟩
            have hroom := (moved_le (io k).sendfile _).trans hpart
            rw [if_pos hmoved, carried_sendfile_iff hlt hnone hsend]
            refine ih (h.advance hroom) ?_ (h.advance hroom).copied (h.advance hroom).le
            show _ ≤ c.copied + _ + fuel
            omega
          · have hnone' : (io k).sendfile.getD 0 = 0 := Nat.eq_zero_of_not_pos hsend
            rw [moved, hnone', Nat.zero_min, if_neg (lt_irrefl 0)]
            exact read_write_iff h hlt hnone hnone' fun c' heven hcount =>
              ih heven (by omega) heven.copied heven.le
      · have hpos : c.pos = content.length := by omega
        rw [if_neg (hcopied ▸ hlt), h.out, hpos, List.take_length]
        exact iff_of_true rfl (.all k)

theorem copied_bytes_iff (hchunk : Asks chunk) (io : ℕ → turn) (content : List UInt8) :
    copied_bytes chunk io content = content ↔ Carried chunk io content.length 0 0 :=
  copy_loop_iff hchunk ⟨rfl, rfl, Nat.zero_le _⟩ (Nat.le_add_left _ _)

/-! ## `cross_device_move` -/

/-- What there is at a path. -/
inductive file where
  | regular (content : List UInt8)
  | symlink (target : List UInt8)
  deriving DecidableEq

/-- Which of its calls succeed, and the turns of its loop. -/
structure move_answers where
  readlink : Bool
  unlink_dest : Bool
  symlink : Bool
  open_src : Bool
  open_dest : Bool
  turns : ℕ → turn
  unlink_src : Bool

/-- What a call returns, and what it leaves at the two paths. -/
structure outcome where
  ret : ℤ
  src : Option file
  dest : Option file

/-- `total - copied` -/
def all_left (rest : ℕ) : ℕ := rest

def cross_device_move (a : move_answers) (src : file) (dest : Option file) : outcome :=
  let left := if a.unlink_src then none else some src
  match src with
  | .symlink target =>
    if a.readlink then
      if a.symlink then ⟨0, left, some (.symlink (target.take 1023))⟩
      else ⟨-1, some src, if a.unlink_dest then none else dest⟩
    else ⟨-1, some src, dest⟩
  | .regular content =>
    if a.open_src ∧ a.open_dest then
      ⟨0, left, some (.regular (copied_bytes all_left a.turns content))⟩
    else ⟨-1, some src, dest⟩

/-- Where the source is gone or the move is reported, the destination is the source. -/
def outcome.Lossless (o : outcome) (src : file) : Prop :=
  o.src = none ∨ o.ret = 0 → o.dest = some src

/-- A link has a target that fits its buffer, and a file is carried over. -/
def Moves (a : move_answers) : file → Prop
  | .symlink target => a.readlink = true → a.symlink = true → target.length ≤ 1023
  | .regular content => a.open_src = true → a.open_dest = true →
    Carried all_left a.turns content.length 0 0

theorem all_left_asks : Asks all_left := fun _ hn => ⟨hn, le_rfl⟩

/-- A move that fails leaves the source. -/
theorem lossless_of_failed (src : file) (dest : Option file) :
    (outcome.mk (-1) (some src) dest).Lossless src := by
  rintro (hgone | hret)
  · exact nomatch hgone
  · exact nomatch hret

/-- A move that is reported has to have made the source again. -/
theorem lossless_iff_of_done {src dest : file} (left : Option file) :
    (outcome.mk 0 left (some dest)).Lossless src ↔ dest = src :=
  ⟨fun h => Option.some.inj (h (Or.inr rfl)), fun h _ => congrArg some h⟩

theorem cross_device_move_iff (a : move_answers) (src : file) (dest : Option file) :
    (cross_device_move a src dest).Lossless src ↔ Moves a src := by
  cases src with
  | symlink target =>
      unfold cross_device_move Moves
      dsimp only
      by_cases hread : a.readlink = true
      · rw [if_pos hread]
        by_cases hlink : a.symlink = true
        · rw [if_pos hlink, lossless_iff_of_done, file.symlink.injEq, List.take_eq_self_iff]
          exact ⟨fun h _ _ => h, fun h => h hread hlink⟩
        · rw [if_neg hlink]
          exact iff_of_true (lossless_of_failed _ _) fun _ hlink' => absurd hlink' hlink
      · rw [if_neg hread]
        exact iff_of_true (lossless_of_failed _ _) fun hread' => absurd hread' hread
  | regular content =>
      unfold cross_device_move Moves
      dsimp only
      by_cases hopen : a.open_src = true ∧ a.open_dest = true
      · rw [if_pos hopen, lossless_iff_of_done, file.regular.injEq,
          copied_bytes_iff all_left_asks]
        exact ⟨fun h _ _ => h, fun h => h hopen.1 hopen.2⟩
      · rw [if_neg hopen]
        exact iff_of_true (lossless_of_failed _ _) fun hsrc hdest => absurd ⟨hsrc, hdest⟩ hopen

/-! ## `copy_single_file` -/

/-- Which of its calls succeed, the turns of its loop, and of each file how many bytes its
`compute_file_sha256` reads; `none` is a file that it cannot open. -/
structure copy_answers where
  open_src : Bool
  open_dest : Bool
  turns : ℕ → turn
  hash_src : Option ℕ
  hash_dest : Option ℕ

/-- `chunk` -/
def part_left (rest : ℕ) : ℕ := if rest > 2 * 1024 * 1024 then 2 * 1024 * 1024 else rest

/-- The copy of a file, from the opening of the source on: what is returned, and the destination. -/
def copy_single_file (sha256 : List UInt8 → List UInt8) (verify : Bool) (a : copy_answers)
    (content : List UInt8) (dest : Option (List UInt8)) : ℤ × Option (List UInt8) :=
  if a.open_src ∧ a.open_dest then
    let out := copied_bytes part_left a.turns content
    if verify then
      match a.hash_src, a.hash_dest with
      | some n, some m =>
        (if sha256 (content.take n) = sha256 (out.take m) then 0 else -1, some out)
      | _, _ => (0, some out)
    else (0, some out)
  else (-1, dest)

/-- `-V` compares two digests, which are not the same. -/
def Mismatch (sha256 : List UInt8 → List UInt8) (verify : Bool) (a : copy_answers)
    (content : List UInt8) : Prop :=
  verify = true ∧ ∃ n m, a.hash_src = some n ∧ a.hash_dest = some m
    ∧ sha256 (content.take n) ≠ sha256 ((copied_bytes part_left a.turns content).take m)

theorem part_left_asks : Asks part_left := by
  intro n hn
  unfold part_left
  split_ifs with hlarge
  · exact ⟨by decide, hlarge.le⟩
  · exact ⟨hn, le_rfl⟩

theorem copy_single_file_dest (sha256 : List UInt8 → List UInt8) (verify : Bool) (a : copy_answers)
    (content : List UInt8) (dest : Option (List UInt8)) (hopen : a.open_src ∧ a.open_dest) :
    (copy_single_file sha256 verify a content dest).2
        = some (copied_bytes part_left a.turns content)
      ∧ ((copy_single_file sha256 verify a content dest).1 = 0
        ↔ ¬Mismatch sha256 verify a content) := by
  unfold copy_single_file Mismatch
  rw [if_pos hopen]
  dsimp only
  cases verify with
  | false => exact ⟨rfl, iff_of_true rfl fun h => Bool.false_ne_true h.1⟩
  | true =>
      rw [if_pos rfl]
      split
      · next n m hsrc hdest =>
          refine ⟨rfl, ?_⟩
          dsimp only
          split_ifs with hsame
          · refine iff_of_true rfl ?_
            rintro ⟨-, n', m', hsrc', hdest', hne⟩
            obtain rfl := Option.some.inj (hsrc.symm.trans hsrc')
            obtain rfl := Option.some.inj (hdest.symm.trans hdest')
            exact hne hsame
          · exact iff_of_false (by decide) fun h => h ⟨rfl, n, m, hsrc, hdest, hsame⟩
      · next hnot =>
          refine ⟨rfl, iff_of_true rfl ?_⟩
          rintro ⟨-, n, m, hsrc, hdest, -⟩
          exact hnot n m hsrc hdest

theorem copy_single_file_iff (sha256 : List UInt8 → List UInt8) (verify : Bool) (a : copy_answers)
    (content : List UInt8) (dest : Option (List UInt8)) :
    ((copy_single_file sha256 verify a content dest).1 = 0 →
      (copy_single_file sha256 verify a content dest).2 = some content)
      ↔ (a.open_src = true → a.open_dest = true → ¬Mismatch sha256 verify a content →
        Carried part_left a.turns content.length 0 0) := by
  by_cases hopen : a.open_src = true ∧ a.open_dest = true
  · obtain ⟨hdest, hret⟩ := copy_single_file_dest sha256 verify a content dest hopen
    rw [hdest, hret, ← copied_bytes_iff part_left_asks, Option.some_inj]
    exact ⟨fun h _ _ => h, fun h => h hopen.1 hopen.2⟩
  · have hfails : copy_single_file sha256 verify a content dest = (-1, dest) := if_neg hopen
    rw [hfails]
    exact iff_of_true (fun h => nomatch h) fun hsrc hdest => absurd ⟨hsrc, hdest⟩ hopen

/-- **When nothing is lost**, in the move and in the copy. -/
theorem copies_lossless_iff (m : move_answers) (src : file) (dest : Option file)
    (sha256 : List UInt8 → List UInt8) (verify : Bool) (a : copy_answers) (content : List UInt8)
    (old : Option (List UInt8)) :
    ((cross_device_move m src dest).Lossless src ↔ Moves m src)
      ∧ (((copy_single_file sha256 verify a content old).1 = 0 →
        (copy_single_file sha256 verify a content old).2 = some content)
        ↔ (a.open_src = true → a.open_dest = true → ¬Mismatch sha256 verify a content →
          Carried part_left a.turns content.length 0 0)) :=
  ⟨cross_device_move_iff m src dest, copy_single_file_iff sha256 verify a content old⟩

/-- A disk that is full: `read` gives the bytes and no other call moves any. -/
def full_disk : move_answers where
  readlink := false
  unlink_dest := true
  symlink := false
  open_src := true
  open_dest := true
  turns := fun _ => ⟨none, none, some 2, none⟩
  unlink_src := true

/-- The only copy of a file is deleted. -/
theorem full_disk_loses :
    ¬∀ (a : move_answers) (src : file) (dest : Option file),
      (cross_device_move a src dest).Lossless src := by
  intro h
  have hdest := h full_disk (.regular [1, 2]) none (Or.inr rfl)
  have hempty : (cross_device_move full_disk (.regular [1, 2]) none).dest
      = some (.regular []) := rfl
  rw [hempty] at hdest
  exact nomatch file.regular.inj (Option.some.inj hdest)

end SysInC.FileCopy
