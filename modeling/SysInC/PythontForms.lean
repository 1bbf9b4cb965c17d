/-
The calls, indexes and slices in the expressions of the line translator of
`src/pythont/pythont.c` (`transform_advanced_expressions`).

A name is looked up behind which one of the forms stands, and a call of the run-time library is
appended for it. How far an argument goes is left to `readers`, as the copying loops of the source
are not the only ones who have a say in it. Characters stand for bytes.
-/
import SysInC.PythontRewrite
import SysInC.Tokens
import Mathlib.Data.List.Infix

set_option autoImplicit false

namespace SysInC.PythontForms

open PythontRewrite (symbol_t var_type_t find_symbol)
open Tokens

/-! ## Names -/

def is_first (c : Char) : Bool := c.isAlpha || c == '_'

def is_word (c : Char) : Bool := c.isAlphanum || c == '_'

/-- `sizeof(ident)` and `sizeof(method_name)` -/
def sizeof_ident : ℕ := 64

/-- The name at the beginning of a text, as far as the buffer holds it. -/
def ident (s : List Char) : List Char := (s.takeWhile is_word).take (sizeof_ident - 1)

def type_of (symbols : List symbol_t) (name : List Char) : Option var_type_t :=
  (find_symbol symbols name).map symbol_t.type

/-! ## The calls that are generated -/

/-- The loop of `normalize_quotes_in_str`, with `qc` where `in_s` is set. -/
def normalize_from : Option Char → List Char → List Char
  | _, [] => []
  | some qc, '\\' :: c :: s => '\\' :: c :: normalize_from (some qc) s
  | some qc, c :: s =>
    if c = qc then (if qc = '\'' then '"' else c) :: normalize_from none s
    else c :: normalize_from (some qc) s
  | none, c :: s =>
    if c = '"' then c :: normalize_from (some '"') s
    else if c = '\'' then '"' :: normalize_from (some '\'') s
    else c :: normalize_from none s

def normalize_quotes_in_str (str : List Char) : List Char := normalize_from none str

/-- A form, with what its branch has read of it. -/
inductive form_t where
  /-- A method without arguments; the text of the call goes up to the name. -/
  | method (call : String) (name : List Char)
  /-- A method with an argument, of the text that stands for the receiver. -/
  | method_with (call : String) (receiver arg : List Char)
  | get (name args : List Char)
  | object (class_type method_name name args : List Char)
  | index (name key : List Char)
  | slice (name content : List Char)
  deriving DecidableEq

/-- `snprintf` to a buffer of this size -/
def snprintf (size : ℕ) (pieces : List (List Char)) : List Char := pieces.flatten.take (size - 1)

/-- The arguments of `.get(`, cut at the commas; `%s` writes a missing one as `(null)`. -/
def get_call (name args : List Char) : List Char :=
  match strtok_r (normalize_quotes_in_str args) [','] with
  | none => snprintf 512 ["py_dict_get_val(&".toList, name, ", (null))".toList]
  | some (key, rest) =>
    match strtok_r rest [','] with
    | none => snprintf 512 ["py_dict_get_val(&".toList, name, ", ".toList, key, ")".toList]
    | some (default, _) =>
      snprintf 512 ["py_dict_get_default(&".toList, name, ", ".toList, key, ", ".toList,
        default.dropWhile (· = ' '), ")".toList]

/-- One of `s_start`, `s_end` and `s_step`: 32 bytes, set where there is a text for it. -/
def bound (default : String) (text : List Char) : List Char :=
  if text = [] then default.toList else snprintf 32 [text]

/-- The bounds and the step of a slice. They keep their defaults unless there are two colons. -/
def slice_bounds (content : List Char) : List Char × List Char × List Char :=
  let behind := (content.dropWhile (· ≠ ':')).tail
  if ':' ∈ behind then
    (bound "0" (content.takeWhile (· ≠ ':')), bound "999999" (behind.takeWhile (· ≠ ':')),
      bound "1" (behind.dropWhile (· ≠ ':')).tail)
  else ("0".toList, "999999".toList, "1".toList)

/-- What is appended to `out` for a form. -/
def form_t.text : form_t → List Char
  | .method call name => snprintf 256 [call.toList, name, ")".toList]
  | .method_with call receiver arg =>
    snprintf 512 [call.toList, receiver, ", ".toList, normalize_quotes_in_str arg, ")".toList]
  | .get name args => get_call name args
  | .object class_type method_name name args =>
    let callee := class_type ++ '_' :: method_name
    if args = [] then snprintf 1024 [callee, "(&".toList, name, ")".toList]
    else snprintf 1024 [callee, "(&".toList, name, ", ".toList, args, ")".toList]
  | .index name key =>
    snprintf 512 ["py_dict_get_val(&".toList, name, ", ".toList, normalize_quotes_in_str key,
      ")".toList]
  | .slice name content =>
    let (s_start, s_end, s_step) := slice_bounds content
    snprintf 512 ["py_str_slice(".toList, name, ", ".toList, s_start, ", ".toList, s_end,
      ", ".toList, s_step, ")".toList]

/-! ## The forms -/

/-- How far arguments go: each reader gives the argument and what is left behind it. -/
structure readers where
  /-- Of a method, with the size of the buffer. -/
  argument : ℕ → List Char → List Char × List Char
  /-- Of a method of an object. -/
  arguments : List Char → List Char × List Char
  key : List Char → List Char × List Char
  /-- Between the brackets of a slice, where there is a colon. -/
  slice : List Char → Option (List Char × List Char)
  argument_suffix : ∀ size s, (argument size s).2 <:+ s
  arguments_suffix : ∀ s, (arguments s).2 <:+ s
  key_suffix : ∀ s, (key s).2 <:+ s
  slice_suffix : ∀ s p, slice s = some p → p.2 <:+ s

/-- Methods of strings, with the beginning of their calls. -/
def string_methods : List (String × String) :=
  [(".upper()", "py_str_upper("), (".lower()", "py_str_lower("), (".strip()", "py_str_strip("),
    (".title()", "py_str_title("), (".capitalize()", "py_str_capitalize(")]

/-- Methods of strings with arguments, with the sizes of their buffers. -/
def string_methods_with : List (String × ℕ × String) :=
  [(".startswith(", 128, "py_str_startswith("), (".endswith(", 128, "py_str_endswith("),
    (".count(", 128, "py_str_count("), (".replace(", 256, "py_str_replace(")]

/-- `strncmp(expr + i, "…", n) == 0` -/
def here (text : String) (s : List Char) : Bool := text.toList.isPrefixOf s

def behind (text : String) (s : List Char) : List Char := s.drop text.length

section Forms

variable (R : readers) (symbols : List symbol_t) (name after : List Char)

def string_form : Option (form_t × List Char) :=
  match string_methods.find? (here ·.1 after) with
  | some (method, call) => some (.method call name, behind method after)
  | none =>
    match string_methods_with.find? (here ·.1 after) with
    | some (method, size, call) =>
      let (arg, left) := R.argument size (behind method after)
      -- `.count(` is a method of lists too
      if method = ".count(" ∧ type_of symbols name = some .VAR_LIST then
        some (.method_with "py_list_count(" (name ++ ", len_".toList ++ name) arg, left)
      else some (.method_with call name arg, left)
    | none => none

def dict_form : Option (form_t × List Char) :=
  if type_of symbols name ≠ some .VAR_DICT then none
  else if here ".keys()" after then some (.method "py_dict_keys(&" name, behind ".keys()" after)
  else if here ".values()" after then
    some (.method "py_dict_values(&" name, behind ".values()" after)
  else if here ".get(" after then
    let (args, left) := R.argument 256 (behind ".get(" after)
    some (.get name args, left)
  else none

/-- A method of an object. Where no parenthesis follows it is an attribute. -/
def object_form : Option (form_t × List Char) :=
  match find_symbol symbols name with
  | none => none
  | some sym =>
    let method_name := ident after.tail
    let rest := after.tail.drop method_name.length
    if sym.type = .VAR_OBJ ∧ after.head? = some '.' ∧ rest.head? = some '(' then
      let (args, left) := R.arguments rest.tail
      some (.object sym.class_type method_name name args, left)
    else none

def file_form : Option (form_t × List Char) :=
  if type_of symbols name = some .VAR_FILE ∧ here ".read()" after then
    some (.method "py_file_read(&" name, behind ".read()" after)
  else none

def index_form : Option (form_t × List Char) :=
  if type_of symbols name = some .VAR_DICT ∧ after.head? = some '[' then
    let (key, left) := R.key after.tail
    some (.index name key, left)
  else none

def slice_form : Option (form_t × List Char) :=
  if type_of symbols name = some .VAR_STR ∧ after.head? = some '[' then
    (R.slice after.tail).map fun p => (.slice name p.1, p.2)
  else none

/-- The form of a name, by what comes after it. -/
def form : Option (form_t × List Char) :=
  (string_form R symbols name after).or <| (dict_form R symbols name after).or <|
    (object_form R symbols name after).or <| (file_form symbols name after).or <|
    (index_form R symbols name after).or (slice_form R symbols name after)

/-- What is copied behind the name of an object, where no method follows. -/
def f_access : List Char :=
  if type_of symbols name = some .VAR_OBJ ∧ after.head? = some '.' then '.' :: ident after.tail
  else []

end Forms

/-- The form of the name at the beginning of a text. -/
def form_at (R : readers) (symbols : List symbol_t) (s : List Char) : Option (form_t × List Char) :=
  form R symbols (ident s) (s.drop (ident s).length)

/-- What is copied of a name that has no form. -/
def word (symbols : List symbol_t) (s : List Char) : List Char :=
  ident s ++ f_access symbols (ident s) (s.drop (ident s).length)

/-! ## The copying loops -/

/-- Up to a closing bracket, as far as the buffer holds it, and over the bracket. -/
def copy_until (close : Char) (size : ℕ) (s : List Char) : List Char × List Char :=
  let arg := (s.takeWhile (· ≠ close)).take (size - 1)
  let left := s.drop arg.length
  (arg, if left.head? = some close then left.tail else left)

/-- The arguments of a method of an object, with the parentheses counted in `p_depth`. -/
def copy_args : ℕ → ℕ → List Char → List Char × List Char
  | 0, _, s => ([], s)
  | _ + 1, _, [] => ([], [])
  | room + 1, p_depth, c :: s =>
    if c = ')' ∧ p_depth = 1 then ([], s)
    else
      let rest := copy_args room
        (if c = '(' then p_depth + 1 else if c = ')' then p_depth - 1 else p_depth) s
      (c :: rest.1, rest.2)

/-- The content of a slice. The loop stays in front of the bracket. -/
def copy_slice (s : List Char) : Option (List Char × List Char) :=
  if ':' ∈ s.takeWhile (· ≠ ']') then
    let content := (s.takeWhile (· ≠ ']')).take 127
    some (content, s.drop content.length)
  else none

theorem copy_until_suffix (close : Char) (size : ℕ) (s : List Char) :
    (copy_until close size s).2 <:+ s := by
  unfold copy_until
  dsimp only
  split
  · exact (List.tail_suffix _).trans (List.drop_suffix _ s)
  · exact List.drop_suffix _ s

theorem copy_args_suffix (room p_depth : ℕ) (s : List Char) :
    (copy_args room p_depth s).2 <:+ s := by
  induction s generalizing room p_depth with
  | nil => cases room <;> exact List.suffix_refl []
  | cons c s ih =>
      cases room with
      | zero => exact List.suffix_refl _
      | succ room =>
          rw [copy_args]
          split
          · exact List.suffix_cons c s
          · exact (ih _ _).trans (List.suffix_cons c s)

theorem copy_slice_suffix (s : List Char) (p : List Char × List Char) (h : copy_slice s = some p) :
    p.2 <:+ s := by
  unfold copy_slice at h
  split at h
  · obtain rfl := Option.some.inj h
    exact List.drop_suffix _ s
  · cases h

def c_readers : readers where
  argument := copy_until ')'
  arguments := copy_args 511 1
  key := copy_until ']' 128
  slice := copy_slice
  argument_suffix := copy_until_suffix ')'
  arguments_suffix := copy_args_suffix 511 1
  key_suffix := copy_until_suffix ']' 128
  slice_suffix := copy_slice_suffix

/-! ## `transform_advanced_expressions` -/

/-- What is appended to `out` at once. -/
inductive piece_t where
  | form (f : form_t)
  | char (c : Char)
  deriving DecidableEq

def piece_t.text : piece_t → List Char
  | .form f => f.text
  | .char c => [c]

/-- Characters that are copied, each with the number of characters that were left when it was
read; `rest` stands behind them. -/
def copied : List Char → List Char → List (ℕ × piece_t)
  | [], _ => []
  | c :: s, rest => ((c :: s).length + rest.length, .char c) :: copied s rest

/-- The branch ends with `i--`. -/
def form_t.steps_back : form_t → Bool
  | .object .. => true
  | .index .. => true
  | _ => false

/-- Where the loop goes on behind a form, its own `i++` included. -/
def next (p : form_t × List Char) : List Char := if p.1.steps_back then p.2 else p.2.tail

/-- The loop, for what is left of `expr`. -/
def loop (symbols : List symbol_t) : ℕ → List Char → List (ℕ × piece_t)
  | 0, _ => []
  | _ + 1, [] => []
  | fuel + 1, c :: s =>
    if is_first c then
      match form_at c_readers symbols (c :: s) with
      | some p => ((c :: s).length, .form p.1) :: loop symbols fuel (next p)
      | none =>
        let rest := (c :: s).drop (word symbols (c :: s)).length
        copied (word symbols (c :: s)) rest ++ loop symbols fuel rest
    else ((c :: s).length, .char c) :: loop symbols fuel s

def text (ps : List (ℕ × piece_t)) : List Char := ps.flatMap fun p => p.2.text

/-- What the function appends to `out`, of 4096 bytes; `none` where that does not suffice and
`expr` stays as it is. -/
def transform_advanced_expressions (symbols : List symbol_t) (expr : List Char) :
    Option (List (ℕ × piece_t)) :=
  let out := loop symbols expr.length expr
  if (text out).length < 4096 then some out else none

/-- `expr` behind the call. -/
def transformed (symbols : List symbol_t) (expr : List Char) : List Char :=
  ((transform_advanced_expressions symbols expr).map text).getD expr

end SysInC.PythontForms
