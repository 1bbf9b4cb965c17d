/-
JSON texts, byte for byte, as derivations of the grammar of RFC 8259: the white space, the spelling
of every number and the contents of every string between its quotation marks are kept.

Characters that are not ASCII stand as the bytes of their encoding, each at least 128.
-/
import Mathlib.Algebra.Order.Ring.Nat
import Mathlib.Data.UInt
import Mathlib.Tactic.Common

set_option autoImplicit false

namespace SysInC.JsonText

/-! ## White space, strings and numbers -/

/-- Blank, tab, line feed or carriage return. -/
def is_ws (c : UInt8) : Bool := c == 32 || c == 9 || c == 10 || c == 13

abbrev Ws := { w : List UInt8 // ∀ c ∈ w, is_ws c = true }

def is_hex (c : UInt8) : Bool := (48 ≤ c && c ≤ 57) || (65 ≤ c && c ≤ 70) || (97 ≤ c && c ≤ 102)

/-- `"`, `\`, `/`, `b`, `f`, `n`, `r` or `t`. -/
def is_escape (c : UInt8) : Bool :=
  c == 34 || c == 92 || c == 47 || c == 98 || c == 102 || c == 110 || c == 114 || c == 116

/-- One character of a string, as it is written. -/
inductive Piece where
  | unescaped (c : UInt8) (h : 32 ≤ c ∧ c ≠ 34 ∧ c ≠ 92)
  | escape (c : UInt8) (h : is_escape c = true)
  | unicode (digits : List UInt8) (h : digits.length = 4 ∧ ∀ c ∈ digits, is_hex c = true)

def Piece.text : Piece → List UInt8
  | .unescaped c _ => [c]
  | .escape c _ => [92, c]
  | .unicode digits _ => 92 :: 117 :: digits

/-- What stands between the quotation marks. -/
def contents (pieces : List Piece) : List UInt8 := pieces.flatMap Piece.text

def quoted (pieces : List Piece) : List UInt8 := 34 :: (contents pieces ++ [34])

abbrev Digits := { ds : List (Fin 10) // ds ≠ [] }

def Digits.text (ds : Digits) : List UInt8 := ds.val.map fun d => UInt8.ofNat (48 + d.val)

/-- Several digits do not start with a zero. -/
abbrev Integer := { ds : Digits // ds.val.length = 1 ∨ ds.val.head? ≠ some 0 }

inductive ExponentSign where
  | none
  | plus
  | minus

def ExponentSign.text : ExponentSign → List UInt8
  | .none => []
  | .plus => [43]
  | .minus => [45]

structure Exponent where
  uppercase : Bool
  sign : ExponentSign
  digits : Digits

def Exponent.text (e : Exponent) : List UInt8 :=
  (if e.uppercase then 69 else 101) :: (e.sign.text ++ e.digits.text)

structure Number where
  minus : Bool
  int : Integer
  frac : Option Digits
  exp : Option Exponent

def Number.text (n : Number) : List UInt8 :=
  (if n.minus then [45] else []) ++ (n.int.val.text ++
    ((n.frac.elim [] fun ds => 46 :: ds.text) ++ n.exp.elim [] Exponent.text))

/-! ## Values -/

mutual

inductive Value where
  | null
  | true
  | false
  | number (n : Number)
  | string (s : List Piece)
  | empty_array (w : Ws)
  | array (w : Ws) (elements : Elements)
  | empty_object (w : Ws)
  | object (w : Ws) (members : Members)

/-- At least one element, each with the white space behind it, up to the bracket. -/
inductive Elements where
  | last (v : Value) (w : Ws)
  | more (v : Value) (w after_comma : Ws) (rest : Elements)

/-- At least one member, up to the brace. -/
inductive Members where
  | last (key : List Piece) (w after_colon : Ws) (v : Value) (after_value : Ws)
  | more (key : List Piece) (w after_colon : Ws) (v : Value) (after_value after_comma : Ws)
      (rest : Members)

end

mutual

def Value.text : Value → List UInt8
  | .null => [110, 117, 108, 108]
  | .true => [116, 114, 117, 101]
  | .false => [102, 97, 108, 115, 101]
  | .number n => n.text
  | .string s => quoted s
  | .empty_array w => 91 :: (w.val ++ [93])
  | .array w es => 91 :: (w.val ++ es.text)
  | .empty_object w => 123 :: (w.val ++ [125])
  | .object w ms => 123 :: (w.val ++ ms.text)

def Elements.text : Elements → List UInt8
  | .last v w => v.text ++ (w.val ++ [93])
  | .more v w w' rest => v.text ++ (w.val ++ (44 :: (w'.val ++ rest.text)))

def Members.text : Members → List UInt8
  | .last key w w' v w'' =>
    quoted key ++ (w.val ++ (58 :: (w'.val ++ (v.text ++ (w''.val ++ [125])))))
  | .more key w w' v w'' w₃ rest =>
    quoted key ++ (w.val ++ (58 :: (w'.val ++ (v.text ++ (w''.val ++ (44 :: (w₃.val ++ rest.text)))))))

end

mutual

/-- The strings of a text, its keys included. -/
def Value.strings : Value → List (List Piece)
  | .null => []
  | .true => []
  | .false => []
  | .number _ => []
  | .string s => [s]
  | .empty_array _ => []
  | .array _ es => es.strings
  | .empty_object _ => []
  | .object _ ms => ms.strings

def Elements.strings : Elements → List (List Piece)
  | .last v _ => v.strings
  | .more v _ _ rest => v.strings ++ rest.strings

def Members.strings : Members → List (List Piece)
  | .last key _ _ v _ => key :: v.strings
  | .more key _ _ v _ _ rest => key :: (v.strings ++ rest.strings)

end

def Value.is_container : Value → Bool
  | .empty_array _ => Bool.true
  | .array _ _ => Bool.true
  | .empty_object _ => Bool.true
  | .object _ _ => Bool.true
  | _ => Bool.false

/-- A text, with the white space around its value. -/
structure Text where
  before : Ws
  value : Value
  behind : Ws

def Text.bytes (t : Text) : List UInt8 := t.before.val ++ (t.value.text ++ t.behind.val)

end SysInC.JsonText
