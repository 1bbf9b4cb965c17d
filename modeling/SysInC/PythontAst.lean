/-
The tree of `src/pythont/pythont.c` (`ast_node`) and its parser (`ast_new` ..
`ast_parse_program`).

A node is a constructor with the fields that its kind uses; `next` is the place in a list.
A node that C takes from the pool before it knows its parts is here built at the end, but
`ast_new` stands where it stands in C. `while`, `for` and `def` keep a body that came back
NULL, and `return` an expression: these fields are options.

The pool is a parameter: `AST_MAX_NODES` of them in the code, and `none` where it has no
bound. The recursion and the loops are cut off by a count.
-/
import SysInC.NullM
import SysInC.PythontLexer

set_option autoImplicit false

namespace SysInC.Pythont

open NullM

def AST_MAX_NODES : ℕ := 8192

def AST_MAX_ARGS : ℕ := 32

/-! ## The tree -/

inductive ast_expr where
  | number (text : String)
  | string (text : String)
  | identifier (text : String)
  | unary (op : String) (operand : ast_expr)
  | binary (op : String) (left right : ast_expr)
  | call (callee : ast_expr) (args : List ast_expr)
  | list (items : List ast_expr)
  | tuple (items : List ast_expr)
  | dict (items : List ast_expr)
  | index (left right : ast_expr)
  | slice (left : ast_expr) (start stop step : Option ast_expr)
  | member (left : ast_expr) (text : String)
  | assign (op : String) (left right : ast_expr)

inductive ast_stmt where
  | expr_stmt (left : ast_expr)
  | if_stmt (left : ast_expr) (body : List ast_stmt) (else_body : Option (List ast_stmt))
  | while_stmt (left : ast_expr) (body : Option (List ast_stmt))
  | for_stmt (left : String) (right : ast_expr) (body : Option (List ast_stmt))
  | function (text : String) (args : List String) (body : Option (List ast_stmt))
  | return_stmt (left : Option ast_expr)
  | break_stmt
  | continue_stmt
  | pass_stmt

/-! ## The parser -/

structure ast_parser_t where
  lexer : lexer_t
  current : token_t
  error : Bool
  ast_node_count : ℕ

abbrev parser := NullM ast_parser_t

def lexer_token (l : lexer_t) : token_t × lexer_t := lexer_next (l.rest.length + 1) l

def ast_parser_t.advance (p : ast_parser_t) : ast_parser_t :=
  { p with
    lexer := (lexer_token p.lexer).2
    current := (lexer_token p.lexer).1
    error := p.error || (lexer_token p.lexer).1.type = .TOK_ERROR }

def ast_next : parser PUnit := modify ast_parser_t.advance

/-- `parser->error = 1; return NULL;` -/
def ast_fail {α : Type} : parser α := modify (fun p => { p with error := true }) >>= fun _ => failure

def ast_is_delimiter (p : ast_parser_t) (delim : String) : Bool :=
  p.current.type = .TOK_DELIMITER ∧ p.current.text = delim

def ast_is_keyword (p : ast_parser_t) (word : String) : Bool :=
  p.current.type = .TOK_KEYWORD ∧ p.current.text = word

def ast_precedence (token : token_t) : ℤ :=
  if token.type ≠ .TOK_OPERATOR ∧ token.type ≠ .TOK_KEYWORD then -1
  else if token.text = "or" then 1
  else if token.text = "and" then 2
  else if token.text ∈ ["==", "!=", "<", "<=", ">", ">=", "in", "is"] then 3
  else if token.text ∈ ["+", "-"] then 4
  else if token.text ∈ ["*", "/", "//", "%"] then 5
  else if token.text = "**" then 6
  else -1

/-- `if (is_delimiter(d)) ast_next(parser); else { error = 1; return NULL; }` -/
def ast_expect (delim : String) : parser PUnit := do
  if ast_is_delimiter (← get) delim then ast_next else ast_fail

section Pool

variable (max_nodes : Option ℕ)

/-- `ast_node_count >= AST_MAX_NODES`. -/
def pool_full (n : ℕ) : Bool :=
  match max_nodes with
  | none => false
  | some limit => limit ≤ n

/-- Take a node of the pool. -/
def ast_new : parser PUnit := do
  let p ← get
  if pool_full max_nodes p.ast_node_count then failure
  else modify fun p => { p with ast_node_count := p.ast_node_count + 1 }

def ast_skip (p : ast_parser_t → Bool) : ℕ → parser PUnit
  | 0 => diverge
  | fuel + 1 => do
    let s ← get
    if !s.error && p s then
      ast_next
      ast_skip p fuel
    else pure ⟨⟩

def ast_skip_separators : ℕ → parser PUnit :=
  ast_skip fun p => p.current.type = .TOK_NEWLINE || ast_is_delimiter p ";"

def ast_skip_newlines : ℕ → parser PUnit := ast_skip fun p => p.current.type = .TOK_NEWLINE

section Expression

variable (expression : ℤ → parser ast_expr)

/-- The items of a list or the arguments of a call, from the first one on. -/
def ast_parse_items (close : String) : ℕ → List ast_expr → parser (List ast_expr)
  | 0, _ => diverge
  | fuel + 1, items => do
    if (← get).error then pure items
    else if AST_MAX_ARGS ≤ items.length then ast_fail
    else
      let item ← expression 0
      if !ast_is_delimiter (← get) "," then pure (items ++ [item])
      else
        ast_next
        if ast_is_delimiter (← get) close then pure (items ++ [item])
        else ast_parse_items close fuel (items ++ [item])

/-- Items up to the closing delimiter. -/
def ast_parse_closed (close : String) (fuel : ℕ) : parser (List ast_expr) := do
  let p ← get
  let items ← (if ast_is_delimiter p close then pure []
    else ast_parse_items expression close fuel [])
  ast_expect close
  pure items

/-- The keys and values of a dictionary. A key that came back NULL is an error. -/
def ast_parse_pairs : ℕ → List ast_expr → parser (List ast_expr)
  | 0, _ => diverge
  | fuel + 1, items => do
    if (← get).error then pure items
    else if AST_MAX_ARGS ≤ items.length + 1 then ast_fail
    else
      let key ← expression 0 <|> ast_fail
      ast_expect ":"
      let value ← expression 0
      if !ast_is_delimiter (← get) "," then pure (items ++ [key, value])
      else
        ast_next
        if ast_is_delimiter (← get) "\x7d" then pure (items ++ [key, value])
        else ast_parse_pairs fuel (items ++ [key, value])

/-- The items of a tuple behind the first one. -/
def ast_parse_tuple : ℕ → List ast_expr → parser (List ast_expr)
  | 0, _ => diverge
  | fuel + 1, items => do
    if !ast_is_delimiter (← get) "," then pure items
    else
      ast_next
      if ast_is_delimiter (← get) ")" then pure items
      else if AST_MAX_ARGS ≤ items.length then ast_fail
      else
        let item ← expression 0
        ast_parse_tuple fuel (items ++ [item])

/-- What follows an opening parenthesis. -/
def ast_parse_parenthesis (fuel : ℕ) : parser ast_expr := do
  if ast_is_delimiter (← get) ")" then
    ast_new max_nodes
    ast_next
    pure (.tuple [])
  else
    let first ← expression 0
    if !ast_is_delimiter (← get) "," then
      ast_expect ")"
      pure first
    else
      ast_new max_nodes
      let items ← ast_parse_tuple expression fuel [first]
      ast_expect ")"
      pure (.tuple items)

def ast_is_name (token : token_t) : Bool :=
  token.type = .TOK_IDENTIFIER ∨ (token.type = .TOK_KEYWORD ∧ token.text ∈ ["True", "False", "None"])

def ast_is_sign (token : token_t) : Bool :=
  (token.type = .TOK_OPERATOR ∧ token.text ∈ ["+", "-", "~"])
    ∨ (token.type = .TOK_KEYWORD ∧ token.text = "not")

def ast_parse_primary (fuel : ℕ) : parser ast_expr := do
  let p ← get
  let token := p.current
  if token.type = .TOK_INTEGER ∨ token.type = .TOK_FLOAT then
    ast_next
    ast_new max_nodes
    pure (.number token.text)
  else if token.type = .TOK_STRING then
    ast_next
    ast_new max_nodes
    pure (.string token.text)
  else if ast_is_name token then
    ast_next
    ast_new max_nodes
    pure (.identifier token.text)
  else if ast_is_delimiter p "[" then
    ast_new max_nodes
    ast_next
    let items ← ast_parse_closed expression "]" fuel
    pure (.list items)
  else if ast_is_delimiter p "\x7b" then
    ast_new max_nodes
    ast_next
    let p ← get
    let items ← (if ast_is_delimiter p "\x7d" then pure [] else ast_parse_pairs expression fuel [])
    ast_expect "\x7d"
    pure (.dict items)
  else if ast_is_delimiter p "(" then
    ast_next
    ast_parse_parenthesis max_nodes expression fuel
  else if ast_is_sign token then
    ast_next
    let operand ← expression 7
    ast_new max_nodes
    pure (.unary token.text operand)
  else ast_fail

/-- An expression that may be left out in front of one of the delimiters. -/
def ast_parse_bound (delims : List String) : parser (Option ast_expr) := do
  let p ← get
  if delims.any (ast_is_delimiter p) then pure none
  else
    let bound ← expression 0
    pure (some bound)

/-- What follows an opening bracket behind `node`. -/
def ast_parse_subscript (node : ast_expr) : parser ast_expr := do
  let start ← ast_parse_bound expression [":"]
  if ast_is_delimiter (← get) ":" then
    ast_new max_nodes
    ast_next
    let stop ← ast_parse_bound expression [":", "]"]
    let p ← get
    let step ← (if ast_is_delimiter p ":" then ast_next >>= fun _ => ast_parse_bound expression ["]"]
      else pure none)
    ast_expect "]"
    pure (.slice node start stop step)
  else
    match start with
    | none => ast_fail
    | some start =>
      ast_expect "]"
      ast_new max_nodes
      pure (.index node start)

/-- The loop of `ast_parse_postfix`. -/
def ast_parse_suffixes : ℕ → ast_expr → parser ast_expr
  | 0, _ => diverge
  | fuel + 1, node => do
    let p ← get
    if p.error then pure node
    else if ast_is_delimiter p "(" then
      ast_new max_nodes
      ast_next
      let args ← ast_parse_closed expression ")" fuel
      ast_parse_suffixes fuel (.call node args)
    else if ast_is_delimiter p "[" then
      ast_next
      let node ← ast_parse_subscript max_nodes expression node
      ast_parse_suffixes fuel node
    else if ast_is_delimiter p "." then
      ast_next
      let p ← get
      if p.current.type ≠ .TOK_IDENTIFIER then ast_fail
      else
        ast_new max_nodes
        ast_next
        ast_parse_suffixes fuel (.member node p.current.text)
    else pure node

def ast_parse_postfix (fuel : ℕ) : parser ast_expr := do
  let node ← ast_parse_primary max_nodes expression fuel
  ast_parse_suffixes max_nodes expression fuel node

/-- The loop of `ast_parse_expression`. -/
def ast_parse_operators (min_prec : ℤ) : ℕ → ast_expr → parser ast_expr
  | 0, _ => diverge
  | fuel + 1, left => do
    let p ← get
    if p.error then pure left
    else if ast_precedence p.current < min_prec then pure left
    else
      ast_next
      let right ← expression (ast_precedence p.current + if p.current.text = "**" then 0 else 1)
      ast_new max_nodes
      ast_parse_operators min_prec fuel (.binary p.current.text left right)

end Expression

def ast_parse_expression : ℕ → ℤ → parser ast_expr
  | 0, _ => diverge
  | fuel + 1, min_prec => do
    let left ← ast_parse_postfix max_nodes (ast_parse_expression fuel) (fuel + 1)
    ast_parse_operators max_nodes (ast_parse_expression fuel) min_prec (fuel + 1) left

def ast_is_assignment (op : String) : Bool :=
  op ∈ ["=", "+=", "-=", "*=", "/=", "//=", "%=", "**=", "&=", "|=", "^=", "<<=", ">>="]

def ast_valid_target : ast_expr → Bool
  | .identifier _ => true
  | .member _ _ => true
  | .index _ _ => true
  | _ => false

def ast_parse_assignment_or_expr (fuel : ℕ) : parser ast_expr := do
  let left ← ast_parse_expression max_nodes fuel 0
  let p ← get
  if p.current.type = .TOK_OPERATOR ∧ ast_is_assignment p.current.text then
    if !ast_valid_target left then ast_fail
    else
      ast_next
      let value ← ast_parse_expression max_nodes fuel 0
      ast_new max_nodes
      pure (.assign p.current.text left value)
  else pure left

/-- Go on if the current token has the type. -/
def ast_expect_type (type : token_type_t) : parser PUnit := do
  if (← get).current.type = type then ast_next else ast_fail

def ast_expect_colon_newline_indent : parser PUnit := do
  ast_expect ":"
  ast_expect_type .TOK_NEWLINE
  ast_expect_type .TOK_INDENT

def ast_is_compound_statement : ast_stmt → Bool
  | .if_stmt _ _ _ => true
  | .while_stmt _ _ => true
  | .for_stmt _ _ _ => true
  | .function _ _ _ => true
  | _ => false

section Statement

variable (statement : parser ast_stmt)

/-- The loop of `ast_parse_block`. -/
def ast_parse_stmts : ℕ → List ast_stmt → parser (List ast_stmt)
  | 0, _ => diverge
  | fuel + 1, stmts => do
    let p ← get
    if p.error ∨ p.current.type = .TOK_DEDENT ∨ p.current.type = .TOK_EOF then pure stmts
    else
      let stmt ← statement
      let p ← get
      if p.current.type = .TOK_NEWLINE then
        ast_skip_newlines fuel
        ast_parse_stmts fuel (stmts ++ [stmt])
      else if p.current.type ≠ .TOK_DEDENT ∧ p.current.type ≠ .TOK_EOF
          ∧ ¬ast_is_compound_statement stmt then ast_fail
      else ast_parse_stmts fuel (stmts ++ [stmt])

def ast_parse_block (fuel : ℕ) : parser (List ast_stmt) := do
  ast_new max_nodes
  ast_skip_newlines fuel
  let stmts ← ast_parse_stmts statement fuel []
  ast_expect_type .TOK_DEDENT
  pure stmts

def ast_parse_suite (fuel : ℕ) : parser (List ast_stmt) := do
  ast_expect_colon_newline_indent
  ast_parse_block max_nodes statement fuel

def ast_parse_if (fuel : ℕ) : parser ast_stmt := do
  ast_next
  ast_new max_nodes
  let left ← ast_parse_expression max_nodes fuel 0
  let body ← ast_parse_suite max_nodes statement fuel
  let p ← get
  if ast_is_keyword p "elif" then
    let elif ← statement
    ast_new max_nodes
    pure (.if_stmt left body (some [elif]))
  else if ast_is_keyword p "else" then
    ast_next
    let else_body ← ast_parse_suite max_nodes statement fuel
    pure (.if_stmt left body (some else_body))
  else pure (.if_stmt left body none)

def ast_parse_while (fuel : ℕ) : parser ast_stmt := do
  ast_next
  ast_new max_nodes
  let left ← ast_parse_expression max_nodes fuel 0
  let body ← optional (ast_parse_suite max_nodes statement fuel)
  pure (.while_stmt left body)

def ast_parse_for (fuel : ℕ) : parser ast_stmt := do
  ast_next
  let p ← get
  if p.current.type ≠ .TOK_IDENTIFIER then ast_fail
  else
    ast_new max_nodes
    ast_new max_nodes
    ast_next
    if !ast_is_keyword (← get) "in" then ast_fail
    else
      ast_next
      let right ← ast_parse_expression max_nodes fuel 0
      let body ← optional (ast_parse_suite max_nodes statement fuel)
      pure (.for_stmt p.current.text right body)

/-- The parameters of a function, up to the closing parenthesis. -/
def ast_parse_params : ℕ → List String → parser (List String)
  | 0, _ => diverge
  | fuel + 1, args => do
    let p ← get
    if p.error || ast_is_delimiter p ")" then pure args
    else if AST_MAX_ARGS ≤ args.length ∨ p.current.type ≠ .TOK_IDENTIFIER then ast_fail
    else
      ast_new max_nodes
      ast_next
      let p' ← get
      if ast_is_delimiter p' "," then
        ast_next
        ast_parse_params fuel (args ++ [p.current.text])
      else if !ast_is_delimiter p' ")" then ast_fail
      else ast_parse_params fuel (args ++ [p.current.text])

def ast_parse_def (fuel : ℕ) : parser ast_stmt := do
  ast_next
  let p ← get
  if p.current.type ≠ .TOK_IDENTIFIER then ast_fail
  else
    ast_new max_nodes
    ast_next
    ast_expect "("
    let args ← ast_parse_params max_nodes fuel []
    ast_expect ")"
    let body ← optional (ast_parse_suite max_nodes statement fuel)
    pure (.function p.current.text args body)

def ast_parse_return (fuel : ℕ) : parser ast_stmt := do
  ast_next
  ast_new max_nodes
  let p ← get
  if p.current.type = .TOK_NEWLINE ∨ p.current.type = .TOK_DEDENT ∨ p.current.type = .TOK_EOF then
    pure (.return_stmt none)
  else
    let left ← optional (ast_parse_expression max_nodes fuel 0)
    pure (.return_stmt left)

/-- A statement that is one keyword. -/
def ast_parse_keyword (stmt : ast_stmt) : parser ast_stmt := do
  ast_next
  ast_new max_nodes
  pure stmt

end Statement

def ast_parse_statement : ℕ → parser ast_stmt
  | 0 => diverge
  | fuel + 1 => do
    let p ← get
    if ast_is_keyword p "if" || ast_is_keyword p "elif" then
      ast_parse_if max_nodes (ast_parse_statement fuel) fuel
    else if ast_is_keyword p "while" then ast_parse_while max_nodes (ast_parse_statement fuel) fuel
    else if ast_is_keyword p "for" then ast_parse_for max_nodes (ast_parse_statement fuel) fuel
    else if ast_is_keyword p "def" then ast_parse_def max_nodes (ast_parse_statement fuel) fuel
    else if ast_is_keyword p "return" then ast_parse_return max_nodes fuel
    else if ast_is_keyword p "break" then ast_parse_keyword max_nodes .break_stmt
    else if ast_is_keyword p "continue" then ast_parse_keyword max_nodes .continue_stmt
    else if ast_is_keyword p "pass" then ast_parse_keyword max_nodes .pass_stmt
    else
      let expr ← ast_parse_assignment_or_expr max_nodes (fuel + 1)
      ast_new max_nodes
      pure (.expr_stmt expr)

/-- The loop of `ast_parse_program`. A statement that came back NULL ends it. -/
def ast_parse_statements (fuel : ℕ) : ℕ → List ast_stmt → parser (List ast_stmt)
  | 0, _ => diverge
  | n + 1, stmts => do
    let p ← get
    if p.error ∨ p.current.type = .TOK_EOF then pure stmts
    else if p.current.type = .TOK_INDENT ∨ p.current.type = .TOK_DEDENT then
      modify fun p => { p with error := true }
      pure stmts
    else
      let stmt ← optional (ast_parse_statement max_nodes fuel)
      match stmt with
      | none => pure stmts
      | some stmt =>
        let p ← get
        if p.current.type = .TOK_NEWLINE ∨ ast_is_delimiter p ";" then
          ast_skip_separators fuel
          ast_parse_statements fuel n (stmts ++ [stmt])
        else if p.current.type ≠ .TOK_EOF ∧ ¬ast_is_compound_statement stmt then
          modify fun p => { p with error := true }
          pure (stmts ++ [stmt])
        else ast_parse_statements fuel n (stmts ++ [stmt])

/-- `ast_parse_program` behind the set-up of the parser. -/
def ast_program (fuel : ℕ) : parser (List ast_stmt) := do
  ast_next
  ast_new max_nodes
  ast_skip_separators fuel
  ast_parse_statements max_nodes fuel fuel []

end Pool

def parser_init (source : List Char) : ast_parser_t where
  lexer := lexer_init source
  current := lexer_make_token .TOK_EOF "" 0 0
  error := false
  ast_node_count := 0

/-- The statements of the program and the parser at its end. -/
def ast_parse_program (max_nodes : Option ℕ) (source : List Char) :
    Option (Option (List ast_stmt) × ast_parser_t) :=
  eval (ast_program max_nodes (2 * source.length + 2)) (parser_init source)

end SysInC.Pythont
