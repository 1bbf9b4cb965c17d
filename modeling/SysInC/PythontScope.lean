/-
Where the program that `src/pythont/pythont.c` emits declares its variables.

`main` declares what `ast_cgen_collect_globals` finds: the first `MAX_GLOBALS` names, the first 63
characters of each, and a name that is longer once for every assignment. A function declares its
parameters, and a loop over a range its variable, up to the end of the loop. Nothing else is a
declaration. What a word means to C besides, as a keyword or in a header, is not part of this.
-/
import SysInC.PythontProgram
import SysInC.Scopes

set_option autoImplicit false

namespace SysInC.Pythont

open Scopes

/-! ## The emitted program -/

/-- The names of the emitted program. -/
inductive c_name where
  | var (text : String)
  | func (text : String)
  deriving DecidableEq

mutual

/-- What `ast_cgen_expr` writes of names. -/
def expr_uses : ast_expr → List c_name
  | .identifier text => if text ∈ ["True", "False", "None"] then [] else [.var text]
  | .unary _ operand => expr_uses operand
  | .binary _ left right => expr_uses left ++ expr_uses right
  | .call (.identifier text) args => .func text :: args_uses args
  | .call callee args => expr_uses callee ++ args_uses args
  | .index left right => expr_uses left ++ expr_uses right
  | .member left _ => expr_uses left
  | _ => []

def args_uses : List ast_expr → List c_name
  | [] => []
  | arg :: args => expr_uses arg ++ args_uses args

end

def expr_stmt_uses : ast_expr → List c_name
  | .assign _ left right => expr_uses left ++ expr_uses right
  | .call (.identifier "print") args => args_uses args
  | e => expr_uses e

/-- The step of a range is not written. -/
def range_uses (args : List ast_expr) : List c_name :=
  args_uses (args.take (if args.length = 1 then 1 else 2))

mutual

/-- What `ast_cgen_stmt` writes. The variable of a loop is declared in front of its first value. -/
def c_stmt : ast_stmt → List (Item c_name)
  | .expr_stmt left => (expr_stmt_uses left).map .use
  | .if_stmt left body else_body =>
    (expr_uses left).map .use ++ [.block (c_block body), .block (c_body else_body)]
  | .while_stmt left body => (expr_uses left).map .use ++ [.block (c_body body)]
  | .for_stmt v (.call (.identifier "range") args) body =>
    [.block (.declare (.var v) :: ((range_uses args ++ [c_name.var v]).map .use
      ++ [.block (c_body body)]))]
  | .return_stmt (some left) => (expr_uses left).map .use
  | _ => []

def c_block : List ast_stmt → List (Item c_name)
  | [] => []
  | .function _ _ _ :: stmts => c_block stmts
  | stmt :: stmts => c_stmt stmt ++ c_block stmts

def c_body : Option (List ast_stmt) → List (Item c_name)
  | none => []
  | some stmts => c_block stmts

end

def declarations (names : List String) : List (Item c_name) :=
  (names.map c_name.var).map .declare

/-- The functions that `ast_emit_c_source` writes. -/
def emitted_functions (program : List ast_stmt) : List c_name :=
  program.filterMap fun stmt =>
    match stmt with
    | .function text _ _ => some (.func text)
    | _ => none

/-- In every function and in `main`, what is used is declared around, nothing is declared twice in
a scope, and the functions that are called are there. -/
structure ScopeClosed (program : List ast_stmt) : Prop where
  functions : ∀ text args body, .function text args body ∈ program →
    Resolves (declarations args ++ c_body body) (emitted_functions program) []
  main : Resolves (declarations (ast_cgen_collect_block program []) ++ c_block program)
    (emitted_functions program) []

/-! ## The source -/

mutual

/-- The names used outside the loops over them. -/
def loose_stmt : ast_stmt → List c_name
  | .expr_stmt left => expr_stmt_uses left
  | .if_stmt left body else_body => expr_uses left ++ (loose_block body ++ loose_body else_body)
  | .while_stmt left body => expr_uses left ++ loose_body body
  | .for_stmt v (.call (.identifier "range") args) body =>
    (range_uses args ++ loose_body body).filter (· ≠ .var v)
  | .return_stmt (some left) => expr_uses left
  | _ => []

def loose_block : List ast_stmt → List c_name
  | [] => []
  | .function _ _ _ :: stmts => loose_block stmts
  | stmt :: stmts => loose_stmt stmt ++ loose_block stmts

def loose_body : Option (List ast_stmt) → List c_name
  | none => []
  | some stmts => loose_block stmts

end

mutual

/-- The names that are assigned, in the order of the text and as often as they are. -/
def assigned_stmt : ast_stmt → List String
  | .expr_stmt (.assign _ (.identifier text) _) => [text]
  | .if_stmt _ body else_body => assigned_block body ++ assigned_body else_body
  | .while_stmt _ body => assigned_body body
  | .for_stmt _ _ body => assigned_body body
  | _ => []

def assigned_block : List ast_stmt → List String
  | [] => []
  | stmt :: stmts => assigned_stmt stmt ++ assigned_block stmts

def assigned_body : Option (List ast_stmt) → List String
  | none => []
  | some stmts => assigned_block stmts

end

/-- The assignments in front of which there are fewer than `MAX_GLOBALS` names, told apart by their
first 63 characters. -/
def early (seen : List String) : List String → List String
  | [] => []
  | text :: texts =>
    if MAX_GLOBALS ≤ seen.length then []
    else text :: early
      (if truncate_name text ∈ seen then seen else seen ++ [truncate_name text]) texts

/-- The second name is a short one if the first 63 characters are the same. -/
def ShortAgain (text text' : String) : Prop :=
  truncate_name text = truncate_name text' → truncate_name text' = text'

/-- A variable is one of these, a function one of those that are emitted. -/
def Known (names : List String) (program : List ast_stmt) : c_name → Prop
  | .var text => text ∈ names
  | .func text => .func text ∈ emitted_functions program

/-- What the source must be like: outside the loops over them, a function uses only its parameters,
and the statements on the top level only names of up to 63 characters that are among the first
`MAX_GLOBALS` ones assigned; no longer name is assigned behind one that begins as it does; and what
is called is defined on the top level. -/
structure Declarable (program : List ast_stmt) : Prop where
  params : ∀ text args body, .function text args body ∈ program →
    args.Nodup ∧ ∀ name ∈ loose_body body, Known args program name
  short : (early [] (assigned_block program)).Pairwise ShortAgain
  assigned : ∀ name ∈ loose_block program,
    Known ((early [] (assigned_block program)).map truncate_name) program name

/-! ## The table of names -/

theorem truncate_name_twice (text : String) :
    truncate_name (truncate_name text) = truncate_name text := by
  simp [truncate_name, List.take_take]

theorem add_global_full (text : String) {names : List String}
    (full : MAX_GLOBALS ≤ names.length) : ast_cgen_add_global text names = names := by
  rw [ast_cgen_add_global, if_pos full]

theorem add_global_of_mem {text : String} {names : List String} (here : text ∈ names) :
    ast_cgen_add_global text names = names := by
  rw [ast_cgen_add_global, if_pos here, ite_self]

theorem add_global_of_not_mem {text : String} {names : List String}
    (room : ¬MAX_GLOBALS ≤ names.length) (absent : text ∉ names) :
    ast_cgen_add_global text names = names ++ [truncate_name text] := by
  rw [ast_cgen_add_global, if_neg room, if_neg absent]

/-- The table when these are assigned, one after the other. -/
def collected (names texts : List String) : List String :=
  texts.foldl (fun names text => ast_cgen_add_global text names) names

theorem collected_cons (names : List String) (text : String) (texts : List String) :
    collected names (text :: texts) = collected (ast_cgen_add_global text names) texts := rfl

theorem prefix_collected (names texts : List String) : names <+: collected names texts := by
  induction texts generalizing names with
  | nil => exact List.prefix_rfl
  | cons text texts ih =>
    refine List.IsPrefix.trans ?_ (ih (ast_cgen_add_global text names))
    by_cases full : MAX_GLOBALS ≤ names.length
    · exact ⟨[], by rw [add_global_full text full, List.append_nil]⟩
    by_cases here : text ∈ names
    · exact ⟨[], by rw [add_global_of_mem here, List.append_nil]⟩
    · rw [add_global_of_not_mem full here]
      exact List.prefix_append _ _

theorem not_nodup_collected {names : List String} (texts : List String) (twice : ¬names.Nodup) :
    ¬(collected names texts).Nodup :=
  fun nodup => twice (nodup.sublist (prefix_collected names texts).sublist)

theorem collected_full (texts : List String) {names : List String}
    (full : MAX_GLOBALS ≤ names.length) : collected names texts = names := by
  induction texts with
  | nil => rfl
  | cons text texts ih => rw [collected_cons, add_global_full text full, ih]

/-- What begins as a name of the table does is one if it is short. -/
theorem shortAgain_iff_of_mem {names : List String} {text : String}
    (short : ∀ name ∈ names, truncate_name name = name) :
    (∀ name ∈ names, ShortAgain name text) ↔ (truncate_name text ∈ names → text ∈ names) := by
  constructor
  · intro again here
    have same := again _ here (truncate_name_twice text)
    rwa [same] at here
  · intro enters name here same
    rw [short name here] at same
    subst same
    exact short text (enters here)

/-- The table names every assignment once exactly when no long name is entered again, and then it
has the names of all the early ones. -/
theorem collected_iff (texts : List String) {names : List String} (nodup : names.Nodup)
    (short : ∀ name ∈ names, truncate_name name = name) :
    ((collected names texts).Nodup ↔
        (∀ text ∈ early names texts, ∀ name ∈ names, ShortAgain name text) ∧
          (early names texts).Pairwise ShortAgain) ∧
      ((collected names texts).Nodup → ∀ name, name ∈ collected names texts ↔
        name ∈ names ∨ name ∈ (early names texts).map truncate_name) := by
  induction texts generalizing names with
  | nil => simp [early, collected, nodup]
  | cons text texts ih =>
    rw [collected_cons, early]
    by_cases full : MAX_GLOBALS ≤ names.length
    · rw [if_pos full, add_global_full text full, collected_full texts full]
      simp [nodup]
    rw [if_neg full]
    by_cases known : truncate_name text ∈ names
    · rw [if_pos known]
      by_cases here : text ∈ names
      · -- a short name that is there
        obtain ⟨nodup_iff, mem_iff⟩ := ih nodup short
        rw [add_global_of_mem here]
        have first : ∀ name ∈ names, ShortAgain name text :=
          (shortAgain_iff_of_mem short).mpr fun _ => here
        refine ⟨nodup_iff.trans ⟨?_, ?_⟩, fun once name => (mem_iff once name).trans ?_⟩
        · rintro ⟨again, pairs⟩
          exact ⟨List.forall_mem_cons.mpr ⟨first, again⟩,
            List.pairwise_cons.mpr ⟨fun text' later => again text' later text here, pairs⟩⟩
        · rintro ⟨again, pairs⟩
          exact ⟨(List.forall_mem_cons.mp again).2, (List.pairwise_cons.mp pairs).2⟩
        · rw [List.map_cons, List.mem_cons]
          constructor
          · exact Or.imp_right Or.inr
          · rintro (old | rfl | new)
            exacts [.inl old, .inl known, .inr new]
      · -- a long one, entered beside a name that begins as it does
        rw [add_global_of_not_mem full here]
        have twice : ¬(names ++ [truncate_name text]).Nodup := by
          simp [List.nodup_append, known]
        have never := not_nodup_collected texts twice
        refine ⟨iff_of_false never ?_, fun once => absurd once never⟩
        rintro ⟨again, -⟩
        exact here ((shortAgain_iff_of_mem short).mp
          (again text (List.mem_cons_self ..)) known)
    · -- a new name
      have absent : text ∉ names := fun here => known ((short text here).symm ▸ here)
      rw [if_neg known, add_global_of_not_mem full absent]
      have nodup' : (names ++ [truncate_name text]).Nodup := by
        rw [← List.concat_eq_append]
        exact nodup.concat known
      have short' : ∀ name ∈ names ++ [truncate_name text], truncate_name name = name := by
        simpa [or_imp, forall_and, truncate_name_twice] using short
      obtain ⟨nodup_iff, mem_iff⟩ := ih nodup' short'
      have first : ∀ name ∈ names, ShortAgain name text :=
        (shortAgain_iff_of_mem short).mpr fun here => absurd here known
      have begins : ∀ text', ShortAgain (truncate_name text) text' ↔ ShortAgain text text' :=
        fun text' => by rw [ShortAgain, truncate_name_twice, ShortAgain]
      refine ⟨nodup_iff.trans ?_, fun once name => (mem_iff once name).trans ?_⟩
      · simp only [List.mem_append, List.mem_singleton, or_imp, forall_and, forall_eq, begins,
          List.forall_mem_cons, List.pairwise_cons]
        tauto
      · simp only [List.mem_append, List.map_cons, List.mem_cons, List.not_mem_nil, false_or,
          or_assoc]

mutual

theorem collect_globals_eq : ∀ (stmt : ast_stmt) (names : List String),
    ast_cgen_collect_globals stmt names = collected names (assigned_stmt stmt)
  | .expr_stmt left, names => by
    unfold ast_cgen_collect_globals assigned_stmt
    split <;> simp_all [collected]
  | .if_stmt _ body else_body, names => by
    rw [ast_cgen_collect_globals, assigned_stmt, collect_block_eq body, collect_body_eq else_body,
      collected, collected, collected, List.foldl_append]
  | .while_stmt _ body, names => by
    rw [ast_cgen_collect_globals, assigned_stmt, collect_body_eq body]
  | .for_stmt _ _ body, names => by
    rw [ast_cgen_collect_globals, assigned_stmt, collect_body_eq body]
  | .function _ _ _, _ => rfl
  | .return_stmt _, _ => rfl
  | .break_stmt, _ => rfl
  | .continue_stmt, _ => rfl
  | .pass_stmt, _ => rfl

theorem collect_block_eq : ∀ (stmts : List ast_stmt) (names : List String),
    ast_cgen_collect_block stmts names = collected names (assigned_block stmts)
  | [], _ => rfl
  | stmt :: stmts, names => by
    rw [ast_cgen_collect_block, assigned_block, collect_globals_eq stmt, collect_block_eq stmts,
      collected, collected, collected, List.foldl_append]

theorem collect_body_eq : ∀ (body : Option (List ast_stmt)) (names : List String),
    ast_cgen_collect_body body names = collected names (assigned_body body)
  | none, _ => rfl
  | some stmts, names => collect_block_eq stmts names

end

/-! ## The names that have to be declared around -/

theorem c_stmt_undeclared (stmt : ast_stmt) : Undeclared (c_stmt stmt) := by
  have uses := @undeclared_uses c_name
  have blocks := @undeclared_blocks c_name
  unfold c_stmt
  split
  · exact uses _
  · exact (uses _).append (blocks [_, _])
  · exact (uses _).append (blocks [_])
  · exact blocks [_]
  · exact uses _
  · exact List.forall_mem_nil _

/-- A function among the statements of a block is not written. -/
theorem c_block_cons (stmt : ast_stmt) (stmts : List ast_stmt) :
    c_block (stmt :: stmts) = c_stmt stmt ++ c_block stmts := by
  cases stmt <;> rfl

theorem loose_block_cons (stmt : ast_stmt) (stmts : List ast_stmt) :
    loose_block (stmt :: stmts) = loose_stmt stmt ++ loose_block stmts := by
  cases stmt <;> rfl

theorem c_block_undeclared (stmts : List ast_stmt) : Undeclared (c_block stmts) := by
  induction stmts with
  | nil => exact List.forall_mem_nil _
  | cons stmt stmts ih =>
    rw [c_block_cons]
    exact (c_stmt_undeclared stmt).append ih

theorem range_or_not (right : ast_expr) :
    (∃ args, right = .call (.identifier "range") args) ∨
      ∀ args, right ≠ .call (.identifier "range") args := by
  by_cases h : ∃ args, right = .call (.identifier "range") args
  · exact .inl h
  · exact .inr fun args same => h ⟨args, same⟩

/-- A loop over anything else is not written. -/
theorem c_for_other (v : String) {right : ast_expr} (body : Option (List ast_stmt))
    (other : ∀ args, right ≠ .call (.identifier "range") args) :
    c_stmt (.for_stmt v right body) = [] := by
  rw [c_stmt] <;> simp_all

theorem loose_for_other (v : String) {right : ast_expr} (body : Option (List ast_stmt))
    (other : ∀ args, right ≠ .call (.identifier "range") args) :
    loose_stmt (.for_stmt v right body) = [] := by
  rw [loose_stmt] <;> simp_all

/-- What a loop over a range uses from outside. -/
theorem mem_free_loop (v : c_name) (uses : List c_name) (body : List (Item c_name))
    (name : c_name) :
    name ∈ free [.block (.declare v :: ((uses ++ [v]).map .use ++ [.block body]))] ↔
      (name ∈ uses ∨ name ∈ free body) ∧ name ≠ v := by
  have inside := (undeclared_uses (uses ++ [v])).mem_free_append [.block body] name
  rw [free_uses, free_block, List.mem_append, List.mem_singleton] at inside
  rw [free_block, free, Item.free, Item.declared, List.nil_append, List.mem_filter, inside,
    decide_eq_true_eq, List.mem_singleton]
  tauto

mutual

theorem mem_free_stmt : ∀ (stmt : ast_stmt) (name : c_name),
    name ∈ free (c_stmt stmt) ↔ name ∈ loose_stmt stmt
  | .expr_stmt left, name => by rw [c_stmt, loose_stmt, free_uses]
  | .if_stmt left body else_body, name => by
    have blocks := free_blocks [c_block body, c_body else_body]
    rw [List.map_cons, List.map_singleton, List.flatMap_cons, List.flatMap_singleton] at blocks
    rw [c_stmt, loose_stmt, (undeclared_uses _).mem_free_append, free_uses, blocks]
    simp only [List.mem_append, mem_free_block body, mem_free_body else_body]
  | .while_stmt left body, name => by
    rw [c_stmt, loose_stmt, (undeclared_uses _).mem_free_append, free_uses, free_block,
      List.mem_append, mem_free_body body]
  | .for_stmt v right body, name => by
    have inside := mem_free_body body name
    rcases range_or_not right with ⟨args, rfl⟩ | other
    · rw [c_stmt, loose_stmt, mem_free_loop, List.mem_filter, List.mem_append, inside,
        decide_eq_true_eq]
    · rw [c_for_other v body other, loose_for_other v body other]
      rfl
  | .return_stmt left, name => by
    cases left with
    | none => rfl
    | some left => rw [c_stmt, loose_stmt, free_uses]
  | .function _ _ _, _ => Iff.rfl
  | .break_stmt, _ => Iff.rfl
  | .continue_stmt, _ => Iff.rfl
  | .pass_stmt, _ => Iff.rfl

theorem mem_free_block : ∀ (stmts : List ast_stmt) (name : c_name),
    name ∈ free (c_block stmts) ↔ name ∈ loose_block stmts
  | [], _ => Iff.rfl
  | stmt :: stmts, name => by
    rw [c_block_cons, loose_block_cons, (c_stmt_undeclared stmt).mem_free_append,
      List.mem_append, mem_free_stmt stmt, mem_free_block stmts]

theorem mem_free_body : ∀ (body : Option (List ast_stmt)) (name : c_name),
    name ∈ free (c_body body) ↔ name ∈ loose_body body
  | none, _ => Iff.rfl
  | some stmts, name => mem_free_block stmts name

end

mutual

theorem once_stmt : ∀ (stmt : ast_stmt) (inner : List c_name), Once (c_stmt stmt) inner
  | .expr_stmt left, inner => by
    rw [c_stmt]
    exact once_uses _ inner
  | .if_stmt left body else_body, inner => by
    rw [c_stmt, (undeclared_uses _).once_append]
    exact ⟨once_uses _ inner, once_block body [], once_body else_body [], trivial⟩
  | .while_stmt left body, inner => by
    rw [c_stmt, (undeclared_uses _).once_append]
    exact ⟨once_uses _ inner, once_body body [], trivial⟩
  | .for_stmt v right body, inner => by
    have inside := once_body body []
    rcases range_or_not right with ⟨args, rfl⟩ | other
    · rw [c_stmt]
      refine ⟨⟨List.not_mem_nil, ?_⟩, trivial⟩
      rw [(undeclared_uses _).once_append]
      exact ⟨once_uses _ _, inside, trivial⟩
    · rw [c_for_other v body other]
      trivial
  | .return_stmt left, inner => by
    cases left with
    | none => trivial
    | some left =>
      rw [c_stmt]
      exact once_uses _ inner
  | .function _ _ _, _ => trivial
  | .break_stmt, _ => trivial
  | .continue_stmt, _ => trivial
  | .pass_stmt, _ => trivial

theorem once_block : ∀ (stmts : List ast_stmt) (inner : List c_name), Once (c_block stmts) inner
  | [], _ => trivial
  | stmt :: stmts, inner => by
    rw [c_block_cons, (c_stmt_undeclared stmt).once_append]
    exact ⟨once_stmt stmt inner, once_block stmts inner⟩

theorem once_body : ∀ (body : Option (List ast_stmt)) (inner : List c_name),
    Once (c_body body) inner
  | none, _ => trivial
  | some stmts, inner => once_block stmts inner

end

/-! ## When the scopes are closed -/

theorem mem_emitted_functions {name : c_name} {program : List ast_stmt}
    (h : name ∈ emitted_functions program) : ∃ text, name = .func text := by
  obtain ⟨stmt, -, found⟩ := List.mem_filterMap.mp h
  split at found
  · exact ⟨_, (Option.some.inj found).symm⟩
  · exact absurd found.symm (Option.some_ne_none _)

theorem known_iff (names : List String) (program : List ast_stmt) (name : c_name) :
    name ∈ (names.map c_name.var).reverse ∨ name ∈ emitted_functions program ↔
      Known names program name := by
  cases name with
  | var text =>
    have never : c_name.var text ∉ emitted_functions program := by
      intro h
      obtain ⟨_, wrong⟩ := mem_emitted_functions h
      cases wrong
    simp [Known, never]
  | func text => simp [Known]

/-- The declarations of `names`, and items behind them that use the names in `loose`. -/
theorem resolves_declarations {names : List String} {items : List (Item c_name)}
    {loose : List c_name} (program : List ast_stmt) (once : ∀ inner, Once items inner)
    (free_iff : ∀ name, name ∈ free items ↔ name ∈ loose) :
    Resolves (declarations names ++ items) (emitted_functions program) [] ↔
      names.Nodup ∧ ∀ name ∈ loose, Known names program name := by
  have nodup_iff : (names.map c_name.var).Nodup ↔ names.Nodup :=
    List.nodup_map_iff fun _ _ => c_name.var.inj
  rw [declarations, resolves_declare, resolves_iff, nodup_iff, List.append_nil]
  simp only [known_iff, free_iff, once, and_true, List.not_mem_nil, not_false_eq_true,
    implies_true, true_and]

theorem known_congr {names names' : List String} (same : ∀ text, text ∈ names ↔ text ∈ names')
    (program : List ast_stmt) (name : c_name) :
    Known names program name ↔ Known names' program name := by
  cases name with
  | var text => exact same text
  | func text => exact Iff.rfl

/-- **Scopes.** What the emitted program uses is declared around, once in a scope, exactly when the
source is like this. -/
theorem scope_closed_iff (program : List ast_stmt) : ScopeClosed program ↔ Declarable program := by
  have function_iff : ∀ args body, _ := fun args body =>
    @resolves_declarations args (c_body body) _ program (once_body body) (mem_free_body body)
  have main_iff := @resolves_declarations (ast_cgen_collect_block program []) _ _ program
    (once_block program) (mem_free_block program)
  obtain ⟨nodup_iff, mem_iff⟩ := collected_iff (assigned_block program) List.nodup_nil
    (List.forall_mem_nil _)
  rw [← collect_block_eq] at nodup_iff mem_iff
  simp only [List.not_mem_nil, false_or, IsEmpty.forall_iff, implies_true, true_and]
    at nodup_iff mem_iff
  constructor
  · intro closed
    obtain ⟨nodup, known⟩ := main_iff.mp closed.main
    exact {
      params := fun text args body here =>
        (function_iff args body).mp (closed.functions text args body here)
      short := nodup_iff.mp nodup
      assigned := fun name here => (known_congr (mem_iff nodup) program name).mp (known name here) }
  · intro declarable
    have nodup := nodup_iff.mpr declarable.short
    exact {
      functions := fun text args body here =>
        (function_iff args body).mpr (declarable.params text args body here)
      main := main_iff.mpr ⟨nodup, fun name here =>
        (known_congr (mem_iff nodup) program name).mpr (declarable.assigned name here)⟩ }

/-! ## Assigned before it is used -/

def reads (e : ast_expr) : List (Item String) :=
  (expr_uses e).filterMap fun name =>
    match name with
    | .var text => some (.use text)
    | .func _ => none

/-- The variable that an assignment binds. -/
def target : ast_expr → List (Item String)
  | .identifier text => [.declare text]
  | _ => []

mutual

/-- What a statement reads and binds, in the order of the text. A function has variables of its
own. -/
def py_stmt : ast_stmt → List (Item String)
  | .expr_stmt (.assign op left right) =>
    reads right ++ (if op = "=" then [] else reads left) ++ target left
  | .expr_stmt left => reads left
  | .if_stmt left body else_body => reads left ++ (py_block body ++ py_body else_body)
  | .while_stmt left body => reads left ++ py_body body
  | .for_stmt v right body => reads right ++ .declare v :: py_body body
  | .return_stmt (some left) => reads left
  | _ => []

def py_block : List ast_stmt → List (Item String)
  | [] => []
  | stmt :: stmts => py_stmt stmt ++ py_block stmts

def py_body : Option (List ast_stmt) → List (Item String)
  | none => []
  | some stmts => py_block stmts

end

def bound (items : List (Item String)) : List String := items.flatMap Item.declared

mutual

/-- In the functions inside: a variable that is read is a parameter or was bound before it, or it is
one of those around the function and not of its own. -/
def functions_read (around : List String) : ast_stmt → Bool
  | .function _ args body =>
    (free (args.map .declare ++ py_body body)).all
        (fun text => text ∈ around ∧ text ∉ bound (py_body body))
      && functions_read_body (args ++ bound (py_body body) ++ around) body
  | .if_stmt _ body else_body =>
    functions_read_block around body && functions_read_body around else_body
  | .while_stmt _ body => functions_read_body around body
  | .for_stmt _ _ body => functions_read_body around body
  | _ => true

def functions_read_block (around : List String) : List ast_stmt → Bool
  | [] => true
  | stmt :: stmts => functions_read around stmt && functions_read_block around stmts

def functions_read_body (around : List String) : Option (List ast_stmt) → Bool
  | none => true
  | some stmts => functions_read_block around stmts

end

/-- Every variable is assigned, or a parameter or the variable of a loop, before it is used. -/
def AssignedFirst (program : List ast_stmt) : Prop :=
  free (py_block program) = [] ∧ functions_read_block (bound (py_block program)) program = true

/-- `def f(): x=1` -/
def local_program : List ast_stmt :=
  [.function "f" [] (some [.expr_stmt (.assign "=" (.identifier "x") (.number "1"))])]

set_option maxRecDepth 4096 in
theorem local_program_read : ∃ parser,
    ast_parse_program (some AST_MAX_NODES) "def f():\n x=1\n".toList
      = some (some local_program, parser) := ⟨_, rfl⟩

theorem local_program_compiled : ∃ text,
    ast_compile_source "def f():\n x=1\n".toList = .ok text := by
  have ok : (ast_compile_source "def f():\n x=1\n".toList).isOk = true := by decide +kernel
  cases emitted : ast_compile_source "def f():\n x=1\n".toList with
  | error code =>
    rw [emitted] at ok
    cases ok
  | ok text => exact ⟨text, rfl⟩

/-- Its `x` is not declared. -/
theorem local_not_declared :
    ¬ ∀ (source : List Char) (program : List ast_stmt) (parser : ast_parser_t) (text : String),
      ast_parse_program (some AST_MAX_NODES) source = some (some program, parser) →
        ast_compile_source source = .ok text → AssignedFirst program → ScopeClosed program := by
  intro all
  obtain ⟨parser, read⟩ := local_program_read
  obtain ⟨text, compiled⟩ := local_program_compiled
  have first : AssignedFirst local_program := ⟨by decide, by decide⟩
  have closed := all _ _ _ _ read compiled first
  have here := (closed.functions "f" [] _ (List.mem_singleton_self _)).1
  exact here.elim List.not_mem_nil (by decide)

end SysInC.Pythont
