/-
What the stage parser reads, without the buffer. A string that begins at a position of the buffer
is what the parser passes over from there on, up to the first NUL that it writes; so what is read
from a text depends on the text and on the number of arguments in front of it alone.
-/
import SysInC.LshStage

set_option autoImplicit false

namespace SysInC.Lsh

/-- The operators `<`, `>` and `>>`. -/
inductive Op where
  | inp
  | out
  | app
deriving DecidableEq

def Op.chars : Op → List Char
  | .inp => ['<']
  | .out => ['>']
  | .app => ['>', '>']

/-- What ends the name of its file, besides a blank. -/
def Op.stop : Op → Char
  | .inp => '>'
  | .out => '<'
  | .app => '<'

/-- A redirection in front of what is read behind it, which goes before it. -/
def Run.redirect (run : Run) (op : Op) (file : List Char) : Run :=
  match op with
  | .inp => { run with infile := run.infile.or (some file) }
  | .out => { run with outfile := run.outfile.or (some (file, false)) }
  | .app => { run with outfile := run.outfile.or (some (file, true)) }

/-- Up to the NUL. -/
def upto (cs : List Char) : List Char := cs.takeWhile (· != '\x00')

/-- A file name, the NUL behind it, and what is behind that. -/
def ends_target (stop : Char) (p : List Char) : List Char × List Char × List Char :=
  let name := p.takeWhile fun c => !(is_blank c || c == stop)
  match p.drop name.length with
  | [] => (name, [], [])
  | _ :: q => (name, ['\x00'], q)

/-- A word, the NUL behind it, and what is behind that. -/
def ends_word (p : List Char) : List Char × List Char × List Char :=
  let word := p.takeWhile fun c => !(is_blank c || c == '>' || c == '<')
  match p.drop word.length with
  | [] => (word, [], [])
  | b :: q => if is_blank b = true then (word, ['\x00'], q) else (word, [], b :: q)

/-- What is behind an operator, where `rest` is what is read behind the name of the file. -/
def read_redirect (op : Op) (p : List Char) (rest : List Char → List Char × Run) :
    List Char × Run :=
  let e := ends_target op.stop (p.dropWhile is_blank)
  let tail := e.1 ++ e.2.1 ++ (rest e.2.2).1
  (op.chars ++ p.takeWhile is_blank ++ tail, (rest e.2.2).2.redirect op (upto tail))

/-- The same for a word. -/
def read_word (p : List Char) (rest : List Char → List Char × Run) : List Char × Run :=
  let e := ends_word p
  let tail := e.1 ++ e.2.1 ++ (rest e.2.2).1
  (tail, { (rest e.2.2).2 with args := upto tail :: (rest e.2.2).2.args })

/-- What no blank is in front of. There are `k` arguments before. -/
def read_item (k : ℕ) (rest : ℕ → List Char → List Char × Run) : List Char → List Char × Run
  | [] => ([], ⟨[], none, none⟩)
  | '>' :: '>' :: p => read_redirect .app p (rest k)
  | '>' :: p => read_redirect .out p (rest k)
  | '<' :: p => read_redirect .inp p (rest k)
  | c :: p =>
    if k < MAX_ARGS - 1 then read_word (c :: p) (rest (k + 1))
    else (c :: (rest k p).1, (rest k p).2)

/-- What the parser leaves in the buffer for a text, and the command that it reads from it. -/
def reads : ℕ → ℕ → List Char → List Char × Run
  | 0, _, _ => ([], ⟨[], none, none⟩)
  | n + 1, k, p =>
    let r := read_item k (reads n) (p.dropWhile is_blank)
    (p.takeWhile is_blank ++ r.1, r.2)

/-! ## The parser reads this -/

theorem string_at_append (buf cs : List Char) : string_at (buf ++ cs) buf.length = upto cs := by
  rw [string_at, List.drop_left, upto]

theorem read_target_eq (stop : Char) (p buf : List Char) :
    read_target stop p buf =
      ((buf ++ p.takeWhile is_blank).length, (ends_target stop (p.dropWhile is_blank)).2.2,
        buf ++ p.takeWhile is_blank ++ (ends_target stop (p.dropWhile is_blank)).1 ++
          (ends_target stop (p.dropWhile is_blank)).2.1) := by
  unfold read_target ends_target
  dsimp only
  generalize p.dropWhile is_blank = q
  cases q.drop (q.takeWhile fun c => !(is_blank c || c == stop)).length with
  | nil => exact Prod.ext rfl (Prod.ext rfl (List.append_nil _).symm)
  | cons b q => rfl

/-- What a parser that has `st` behind it makes of what is read. -/
def Stage.joins (st : Stage) (r : List Char × Run) : Run where
  args := st.args.map (string_at (st.buf ++ r.1)) ++ r.2.args
  infile := r.2.infile.or (st.infile.map (string_at (st.buf ++ r.1)))
  outfile := r.2.outfile.or
    (st.outfile.map fun pos => (string_at (st.buf ++ r.1) pos, st.append_out))

section

variable (st : Stage)

theorem joins_front (front : List Char) (r : List Char × Run) :
    ({ st with buf := st.buf ++ front } : Stage).joins r = st.joins (front ++ r.1, r.2) := by
  unfold Stage.joins
  dsimp only
  rw [List.append_assoc]

/-- The buffer with a redirection behind it, from the name of the file and as a whole. -/
theorem buf_file (buf op gap name sep rest : List Char) :
    string_at (buf ++ op ++ gap ++ name ++ sep ++ rest) (buf ++ op ++ gap).length =
        upto (name ++ sep ++ rest) ∧
      buf ++ op ++ gap ++ name ++ sep ++ rest = buf ++ (op ++ gap ++ (name ++ sep ++ rest)) := by
  have hbuf : buf ++ op ++ gap ++ name ++ sep ++ rest =
      buf ++ op ++ gap ++ (name ++ sep ++ rest) := by
    simp only [List.append_assoc]
  refine ⟨by rw [hbuf, string_at_append], ?_⟩
  rw [hbuf]
  simp only [List.append_assoc]

theorem joins_outfile (op gap name sep : List Char) (r : List Char × Run) (append : Bool) :
    ({ st with
        buf := st.buf ++ op ++ gap ++ name ++ sep
        outfile := some (st.buf ++ op ++ gap).length
        append_out := append } : Stage).joins r =
      st.joins (op ++ gap ++ (name ++ sep ++ r.1),
        { r.2 with outfile := r.2.outfile.or (some (upto (name ++ sep ++ r.1), append)) }) := by
  obtain ⟨hfile, hbuf⟩ := buf_file st.buf op gap name sep r.1
  unfold Stage.joins
  dsimp only
  rw [Option.map_some, hfile, hbuf, Option.or_assoc, Option.some_or]

theorem joins_infile (op gap name sep : List Char) (r : List Char × Run) :
    ({ st with
        buf := st.buf ++ op ++ gap ++ name ++ sep
        infile := some (st.buf ++ op ++ gap).length } : Stage).joins r =
      st.joins (op ++ gap ++ (name ++ sep ++ r.1),
        { r.2 with infile := r.2.infile.or (some (upto (name ++ sep ++ r.1))) }) := by
  obtain ⟨hfile, hbuf⟩ := buf_file st.buf op gap name sep r.1
  unfold Stage.joins
  dsimp only
  rw [Option.map_some, hfile, hbuf, Option.or_assoc, Option.some_or]

theorem joins_arg (name sep : List Char) (r : List Char × Run) :
    ({ st with
        buf := st.buf ++ name ++ sep
        args := st.args ++ [st.buf.length] } : Stage).joins r =
      st.joins (name ++ sep ++ r.1,
        { r.2 with args := upto (name ++ sep ++ r.1) :: r.2.args }) := by
  unfold Stage.joins
  dsimp only
  rw [List.append_assoc st.buf name, List.append_assoc st.buf, List.map_append,
    List.map_singleton, string_at_append, List.append_assoc, List.singleton_append]

end

theorem parse_run (n : ℕ) (p : List Char) (st : Stage) :
    (parse n p st).run = st.joins (reads n st.args.length p) := by
  induction n generalizing p st with
  | zero =>
    rw [parse, reads, Stage.run, Stage.joins, List.append_nil, List.append_nil, Option.none_or,
      Option.none_or]
  | succ n ih =>
    -- what is read behind the blanks, by a parser that has passed over them
    rw [reads, ← joins_front, parse]
    generalize hblank : ({ st with buf := st.buf ++ p.takeWhile is_blank } : Stage) = st'
    have hbuf : st.buf ++ p.takeWhile is_blank = st'.buf := by rw [← hblank]
    have hargs : st.args = st'.args := by rw [← hblank]
    have hin : st.infile = st'.infile := by rw [← hblank]
    have hout : st.outfile = st'.outfile := by rw [← hblank]
    have happ : st.append_out = st'.append_out := by rw [← hblank]
    rw [hbuf, hargs, hin, hout, happ]
    generalize p.dropWhile is_blank = q
    dsimp only
    split
    · rw [read_item, Stage.run, Stage.joins, List.append_nil, List.append_nil, Option.none_or,
        Option.none_or]
    · rw [read_target_eq, ih, read_item]
      exact joins_outfile st' _ _ _ _ _ true
    · rename_i hnot
      rw [read_target_eq, ih, read_item]
      · exact joins_outfile st' _ _ _ _ _ false
      · exact hnot
    · rw [read_target_eq, ih, read_item]
      exact joins_infile st' _ _ _ _ _
    · rename_i c q happ hgt hlt
      rw [read_item]
      · split
        · have hlen : (st'.args ++ [st'.buf.length]).length = st'.args.length + 1 :=
            List.length_append
          unfold read_word ends_word
          dsimp only
          generalize (c :: q).takeWhile (fun c => !(is_blank c || c == '>' || c == '<')) = word
          -- the byte that ends the word is overwritten unless it is an operator
          cases (c :: q).drop word.length with
          | nil =>
            rw [ih, hlen, ← List.append_nil (st'.buf ++ word)]
            exact joins_arg st' word [] _
          | cons b p =>
            dsimp only
            split
            · rw [ih, hlen]
              exact joins_arg st' word ['\x00'] _
            · rw [ih, hlen, ← List.append_nil (st'.buf ++ word)]
              exact joins_arg st' word [] _
        -- there is no room: the byte is passed over
        · rw [ih]
          exact joins_front st' [c] _
      · exact happ
      · exact hgt
      · exact hlt

theorem parse_stage_eq (cmd : List Char) : parse_stage cmd = (reads cmd.length 0 cmd).2 := by
  rw [parse_stage, parse_run, Stage.joins, List.map_nil, List.nil_append, Option.map_none,
    Option.or_none, Option.map_none, Option.or_none]
  rfl

end SysInC.Lsh
