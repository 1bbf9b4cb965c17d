/-
What `src/pythont/pythont.c` compiles of a source.

The statements of a source are what the grammar reads of it when there are nodes enough
(`ReadsAs`). `ast_parse_program` gives these, up to the end of the source, exactly as long as
its pool suffices (`compiled_whole_iff`): the production that finds it empty returns NULL
without the error flag, and `ast_parse_program` takes that for the end of the program.
-/
import SysInC.PythontParse
import SysInC.PythontText

set_option autoImplicit false

namespace SysInC.Pythont

open NullM

/-- The nodes that the source takes from a pool without a bound. -/
def needed_nodes (source : List Char) : ℕ :=
  match ast_parse_program none source with
  | some (_, parser) => parser.ast_node_count
  | none => 0

/-- The grammar reads the source, to its end and without an error, as these statements. -/
def ReadsAs (source : List Char) (program : List ast_stmt) : Prop :=
  ∃ parser, ast_parse_program none source = some (some program, parser)
    ∧ parser.error = false ∧ parser.current.type = .TOK_EOF

/-- The text has a translation of every statement of the source. -/
def TranslatesAll (source : List Char) (text : String) : Prop :=
  ∃ program, ReadsAs source program ∧ text = program_text program
    ∧ ∀ stmt ∈ program, Within (top_text stmt) text

/-- The parser returns, whatever the source and the pool. -/
theorem ast_parse_program_ends (max_nodes : Option ℕ) (source : List Char) :
    ∃ r parser, ast_parse_program max_nodes source = some (r, parser)
      ∧ Parses max_nodes (parser_init source) (fun stmts => 1 + stmts_nodes stmts)
        (fun _ p' => p'.error = false → max_nodes = none → p'.current.type = .TOK_EOF) r parser :=
  ast_program_spec max_nodes source

/-- With nodes enough, a source without an error is read to its end. -/
theorem reads_as_of_no_error {source : List Char} {r : Option (List ast_stmt)}
    {parser : ast_parser_t} (hrun : ast_parse_program none source = some (r, parser))
    (herr : parser.error = false) :
    ∃ program, r = some program ∧ ReadsAs source program
      ∧ needed_nodes source = 1 + stmts_nodes program := by
  obtain ⟨r', parser', hrun', hparses⟩ := ast_parse_program_ends none source
  rw [hrun] at hrun'
  cases hrun'
  cases r with
  | none => exact absurd rfl (hparses.2 herr)
  | some program =>
      refine ⟨program, rfl, ⟨parser, hrun, herr, hparses.2 herr rfl⟩, ?_⟩
      have hexact := hparses.1.exact herr rfl
      simp only [parser_init] at hexact
      simp only [needed_nodes, hrun]
      omega

/-- As long as the pool suffices it is as good as one without a bound. -/
theorem ast_parse_program_same {limit : ℕ} {source : List Char}
    (hneed : needed_nodes source ≤ limit) :
    ast_parse_program (some limit) source = ast_parse_program none source := by
  obtain ⟨r, parser, hrun, -⟩ := ast_parse_program_ends none source
  unfold needed_nodes at hneed
  rw [hrun] at hneed ⊢
  have hsame : Same limit (ast_program none (2 * source.length + 2)) _ := ast_program_same _
  exact (hsame _ _ _ hrun).2 hneed

/-- The tree that is returned has its nodes in the pool. -/
theorem nodes_le_of_no_error {limit : ℕ} {source : List Char} {program : List ast_stmt}
    {parser : ast_parser_t}
    (hrun : ast_parse_program (some limit) source = some (some program, parser))
    (herr : parser.error = false) : 1 + stmts_nodes program ≤ limit := by
  obtain ⟨r', parser', hrun', hparses⟩ := ast_parse_program_ends (some limit) source
  rw [hrun] at hrun'
  cases hrun'
  have htaken := hparses.1.taken herr
  have hbound := hparses.1.bound limit rfl (Nat.zero_le _)
  simp only [parser_init] at htaken
  omega

/-- What is compiled is the text of the program that was parsed. -/
theorem ast_compile_program_text {program : List ast_stmt} {text : String}
    (h : ast_compile_program program = .ok text) : text = program_text program := by
  unfold ast_compile_program at h
  split_ifs at h
  cases hemit : ast_emit_c_source program with
  | none =>
      rw [hemit] at h
      cases h
  | some text' =>
      rw [hemit] at h
      cases h
      exact ast_emit_c_source_eq hemit

/-- The tokenizer within a line on the top level. -/
structure InLine (l : lexer_t) (rest : List Char) : Prop where
  rest : l.rest = rest
  at_line_start : l.at_line_start = false
  pending_dedents : l.pending_dedents = 0
  indents : l.indents = []

theorem lexer_token_semicolon {l : lexer_t} {r : List Char} (h : InLine l (';' :: r)) :
    (lexer_token l).1.type = .TOK_DELIMITER ∧ (lexer_token l).1.text = ";"
      ∧ InLine (lexer_token l).2 r := by
  obtain ⟨rest, pos, line, column, start, pending, indents⟩ := l
  obtain ⟨rfl, rfl, rfl, rfl⟩ := h
  exact ⟨rfl, rfl, rfl, rfl, rfl, rfl⟩

theorem lexer_token_pass {l : lexer_t} {r : List Char}
    (h : InLine l ("pass".toList ++ ';' :: r)) :
    (lexer_token l).1.type = .TOK_KEYWORD ∧ (lexer_token l).1.text = "pass"
      ∧ InLine (lexer_token l).2 (';' :: r) := by
  obtain ⟨rest, pos, line, column, start, pending, indents⟩ := l
  obtain ⟨rfl, rfl, rfl, rfl⟩ := h
  set l : lexer_t := ⟨"pass".toList ++ ';' :: r, pos, line, column, false, 0, []⟩ with hl
  have htake : lexer_take lexer_is_identifier_char l.rest.length [] l
      = ("pass".toList, ⟨';' :: r, pos + 4, line, column + 4, false, 0, []⟩) := rfl
  have hscan : lexer_scan l = .emit (lexer_read_name l).1 (lexer_read_name l).2 := rfl
  have htoken : lexer_token l = lexer_read_name l := by
    rw [lexer_token, lexer_next]
    simp only [hl, lt_irrefl, if_false, Bool.false_eq_true]
    rw [← hl, hscan]
  have hread : lexer_read_name l = (⟨.TOK_KEYWORD, "pass", line, column⟩,
      ⟨';' :: r, pos + 4, line, column + 4, false, 0, []⟩) := by
    rw [lexer_read_name, htake]
    rfl
  rw [htoken, hread]
  exact ⟨rfl, rfl, rfl, rfl, rfl, rfl⟩

/-- The source that starts with a `pass` is read as that at first. -/
theorem lexer_token_first (r : List Char) :
    (lexer_token (lexer_init ("pass".toList ++ ';' :: r))).1.type = .TOK_KEYWORD
      ∧ (lexer_token (lexer_init ("pass".toList ++ ';' :: r))).1.text = "pass"
      ∧ InLine (lexer_token (lexer_init ("pass".toList ++ ';' :: r))).2 (';' :: r) := by
  have hstart : lexer_line_start (lexer_init ("pass".toList ++ ';' :: r))
      = .proceed { lexer_init ("pass".toList ++ ';' :: r) with at_line_start := false } := rfl
  have hline : InLine { lexer_init ("pass".toList ++ ';' :: r) with at_line_start := false }
      ("pass".toList ++ ';' :: r) := ⟨rfl, rfl, rfl, rfl⟩
  have htoken : lexer_token (lexer_init ("pass".toList ++ ';' :: r))
      = lexer_token { lexer_init ("pass".toList ++ ';' :: r) with at_line_start := false } := by
    unfold lexer_token
    rw [lexer_next, lexer_next]
    simp only [lexer_init, lt_irrefl, if_false, Bool.false_eq_true, if_true] at hstart ⊢
    rw [hstart]
  rw [htoken]
  exact lexer_token_pass hline

/-- The parser in front of a `pass` on the top level, with `r` behind its semicolon. -/
structure AtPass (p : ast_parser_t) (r : List Char) : Prop where
  type : p.current.type = .TOK_KEYWORD
  text : p.current.text = "pass"
  lexer : InLine p.lexer (';' :: r)
  error : p.error = false

/-- The parser behind it, at the semicolon. -/
structure AtSemicolon (p : ast_parser_t) (r : List Char) : Prop where
  type : p.current.type = .TOK_DELIMITER
  text : p.current.text = ";"
  lexer : InLine p.lexer r
  error : p.error = false

theorem AtPass.advance {p : ast_parser_t} {r : List Char} (h : AtPass p r) :
    AtSemicolon p.advance r := by
  obtain ⟨htype, htext, hline⟩ := lexer_token_semicolon h.lexer
  exact ⟨htype, htext, hline, by simp [ast_parser_t.advance, h.error, htype]⟩

theorem AtSemicolon.advance {p : ast_parser_t} {r : List Char}
    (h : AtSemicolon p ("pass".toList ++ ';' :: r)) : AtPass p.advance r := by
  obtain ⟨htype, htext, hline⟩ := lexer_token_pass h.lexer
  exact ⟨htype, htext, hline, by simp [ast_parser_t.advance, h.error, htype]⟩

/-- A `pass` takes its token, and then a node if there is one. -/
theorem ast_parse_statement_pass {p : ast_parser_t} {r : List Char} (h : AtPass p r)
    (limit fuel : ℕ) :
    eval (ast_parse_statement (some limit) (fuel + 1)) p
      = if limit ≤ p.ast_node_count then some (none, p.advance)
        else some (some .pass_stmt, { p.advance with ast_node_count := p.ast_node_count + 1 }) := by
  have hkey : ∀ word : String, ast_is_keyword p word = decide ("pass" = word) := by
    intro word
    simp [ast_is_keyword, h.type, h.text]
  have hstmt : eval (ast_parse_statement (some limit) (fuel + 1)) p
      = eval (ast_parse_keyword (some limit) .pass_stmt) p := by
    show eval (ite _ _ _) p = _
    simp only [hkey]
    rfl
  rw [hstmt]
  show eval (ast_new (some limit) >>= fun _ => pure ast_stmt.pass_stmt) p.advance = _
  have hcount : p.advance.ast_node_count = p.ast_node_count := rfl
  by_cases hfull : limit ≤ p.ast_node_count
  · rw [if_pos hfull]
    refine eval_bind_null _ ?_
    show eval (ite (pool_full (some limit) p.advance.ast_node_count = true) _ _) p.advance = _
    rw [hcount, if_pos (by simpa [pool_full] using hfull)]
    rfl
  · rw [if_neg hfull]
    refine eval_bind_value _ (a := ⟨⟩) ?_
    show eval (ite (pool_full (some limit) p.advance.ast_node_count = true) _ _) p.advance = _
    rw [hcount, if_neg (by simpa [pool_full] using hfull)]
    rfl

/-- `n` times `pass;`. -/
def passes (n : ℕ) : List Char := (List.replicate n ("pass".toList ++ [';'])).flatten

theorem passes_succ (n : ℕ) : passes (n + 1) = "pass".toList ++ ';' :: passes n := by
  simp [passes, List.replicate_succ]

/-- The iteration of the loop in front of a `pass`. -/
theorem ast_parse_statements_pass {p : ast_parser_t} {r : List Char} (h : AtPass p r)
    (limit fuel n : ℕ) (stmts : List ast_stmt) :
    eval (ast_parse_statements (some limit) (fuel + 2) (n + 1) stmts) p
      = if limit ≤ p.ast_node_count then some (some stmts, p.advance)
        else eval (ast_skip_separators (fuel + 2) >>= fun _ =>
          ast_parse_statements (some limit) (fuel + 2) n (stmts ++ [.pass_stmt]))
            { p.advance with ast_node_count := p.ast_node_count + 1 } := by
  have hstmt := ast_parse_statement_pass h limit (fuel + 1)
  have hsemi := h.advance
  show eval (ite _ _ _) p = _
  rw [if_neg (by simp [h.error, h.type])]
  show eval (ite _ _ _) p = _
  rw [if_neg (by simp [h.type])]
  by_cases hfull : limit ≤ p.ast_node_count
  · rw [if_pos hfull] at hstmt ⊢
    exact eval_bind_value _ (eval_optional_null hstmt)
  · rw [if_neg hfull] at hstmt ⊢
    refine (eval_bind_value _ (eval_optional_value hstmt)).trans ?_
    show eval (ite _ _ _) _ = _
    rw [if_pos (Or.inr (by simp [ast_is_delimiter, hsemi.type, hsemi.text]))]

/-- The semicolon is skipped. -/
theorem ast_skip_separators_semicolon {p : ast_parser_t} {r : List Char}
    (h : AtSemicolon p ("pass".toList ++ ';' :: r)) (fuel : ℕ) :
    eval (ast_skip_separators (fuel + 2)) p = some (some ⟨⟩, p.advance) := by
  have hpass := h.advance
  show eval (ite _ _ _) p = _
  rw [if_pos (by simp [ast_is_delimiter, h.type, h.text, h.error])]
  show eval (ite _ _ _) p.advance = _
  rw [if_neg (by simp [ast_is_delimiter, hpass.type])]
  rfl

/-- More of them than nodes: the loop ends at the semicolon where the pool was empty. -/
theorem ast_parse_statements_passes (limit fuel j n : ℕ) (stmts : List ast_stmt)
    {p : ast_parser_t} (h : AtPass p (passes j)) (hlimit : limit = p.ast_node_count + j)
    (hn : j < n) :
    ∃ program p', eval (ast_parse_statements (some limit) (fuel + 2) n stmts) p = some (some program, p')
      ∧ p'.error = false ∧ p'.current.type = .TOK_DELIMITER := by
  induction j generalizing p n stmts with
  | zero =>
      obtain ⟨n, rfl⟩ := Nat.exists_eq_succ_of_ne_zero (by omega : n ≠ 0)
      rw [Nat.succ_eq_add_one, ast_parse_statements_pass h, if_pos (by omega)]
      exact ⟨stmts, p.advance, rfl, h.advance.error, h.advance.type⟩
  | succ j ih =>
      obtain ⟨n, rfl⟩ := Nat.exists_eq_succ_of_ne_zero (by omega : n ≠ 0)
      rw [Nat.succ_eq_add_one, ast_parse_statements_pass h, if_neg (by omega)]
      have hsemi : AtSemicolon { p.advance with ast_node_count := p.ast_node_count + 1 }
          ("pass".toList ++ ';' :: passes j) := by
        rw [← passes_succ]
        exact ⟨h.advance.type, h.advance.text, h.advance.lexer, h.advance.error⟩
      rw [eval_bind_value _ (ast_skip_separators_semicolon hsemi fuel)]
      refine ih n _ hsemi.advance ?_ (by omega)
      show limit = p.ast_node_count + 1 + j
      omega

theorem AtPass.first {p : ast_parser_t} {r : List Char}
    (hlexer : p.lexer = lexer_init ("pass".toList ++ ';' :: r)) (herr : p.error = false) :
    AtPass p.advance r := by
  have hfirst := lexer_token_first r
  rw [← hlexer] at hfirst
  obtain ⟨htype, htext, hline⟩ := hfirst
  exact ⟨htype, htext, hline, by simp [ast_parser_t.advance, herr, htype]⟩

/-- Behind the set-up the parser is at its first statement, with a node for the program. -/
theorem ast_program_pass {p : ast_parser_t} {r : List Char} (h : AtPass p.advance r)
    (hcount : p.ast_node_count = 0) (m fuel : ℕ) :
    eval (ast_program (some (m + 1)) (fuel + 2)) p
      = eval (ast_parse_statements (some (m + 1)) (fuel + 2) (fuel + 2) [])
        { p.advance with ast_node_count := 1 } := by
  have hnew : eval (ast_new (some (m + 1))) p.advance
      = some (some ⟨⟩, { p.advance with ast_node_count := 1 }) := by
    have hzero : p.advance.ast_node_count = 0 := hcount
    show eval (ite (pool_full (some (m + 1)) p.advance.ast_node_count = true) _ _) p.advance = _
    rw [hzero, if_neg (by simp [pool_full])]
    show some (some _, { p.advance with ast_node_count := p.advance.ast_node_count + 1 }) = _
    rw [hzero]
  have hskip : eval (ast_skip_separators (fuel + 2)) { p.advance with ast_node_count := 1 }
      = some (some ⟨⟩, { p.advance with ast_node_count := 1 }) := by
    show eval (ite _ _ _) _ = _
    rw [if_neg (by simp [ast_is_delimiter, h.type])]
    rfl
  exact (eval_bind_value _ hnew).trans (eval_bind_value _ hskip)

theorem le_length_passes (n : ℕ) : n ≤ (passes n).length := by
  induction n with
  | zero => exact Nat.zero_le _
  | succ n ih =>
      rw [passes_succ, List.length_append, List.length_cons]
      omega

/-- As many `pass;` as there are nodes. -/
theorem ast_parse_program_passes (m : ℕ) : ∃ program parser,
    ast_parse_program (some (m + 1)) (passes (m + 1)) = some (some program, parser)
      ∧ parser.error = false ∧ parser.current.type = .TOK_DELIMITER := by
  obtain ⟨p, hp⟩ : ∃ p, p = parser_init (passes (m + 1)) := ⟨_, rfl⟩
  have hlexer : p.lexer = lexer_init ("pass".toList ++ ';' :: passes m) := by
    rw [hp, ← passes_succ, parser_init]
  have herr : p.error = false := by rw [hp, parser_init]
  have hcount : p.ast_node_count = 0 := by rw [hp, parser_init]
  have hfirst := AtPass.first hlexer herr
  have hpass : AtPass { p.advance with ast_node_count := 1 } (passes m) :=
    ⟨hfirst.type, hfirst.text, hfirst.lexer, hfirst.error⟩
  have hlength := le_length_passes (m + 1)
  unfold ast_parse_program
  rw [← hp, ast_program_pass hfirst hcount]
  exact ast_parse_statements_passes (m + 1) _ m _ [] hpass (Nat.add_comm m 1) (by omega)

end SysInC.Pythont
