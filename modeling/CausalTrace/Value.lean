import CausalTrace.Text.Blank
import CausalTrace.Number.Notation
import CausalTrace.Number.Reader

/-!
# Runtime values

What a tracepoint observes, a template computes and baggage carries. Equality is
structural: an integer is never equal to a float, and floats are equal if all of
their bits are, so values can be the keys of a group. The two zeros differ then, and
so do NaNs of different sign or payload.
-/

namespace CausalTrace

/-- A single observed, derived or unpacked value. -/
inductive Value where
  /-- What was not supplied. -/
  | null
  | bool (b : Bool)
  | int (n : Int64)
  | float (x : Number.Binary64)
  | str (s : String)
deriving DecidableEq, Inhabited

/-- The kinds of values, as evaluation failures name them. -/
inductive Value.Kind where
  | null
  | bool
  | int
  | float
  | string
deriving DecidableEq, Repr

def Value.Kind.text : Value.Kind → String
  | .null => "null"
  | .bool => "bool"
  | .int => "int"
  | .float => "float"
  | .string => "string"

/-- One row of values. -/
abbrev Row := List Value

namespace Value

def kind : Value → Kind
  | .null => .null
  | .bool _ => .bool
  | .int _ => .int
  | .float _ => .float
  | .str _ => .string

/-- The text of a value for people; a string stands for itself. -/
def text : Value → String
  | .null => "null"
  | .bool b => if b then "true" else "false"
  | .int n => Number.intText n.toInt
  | .float x => Number.Notation.plain.text x
  | .str s => s

/-- The nearest 64-bit integer of an integer. -/
def saturate (n : Int) : Int64 :=
  Int64.ofInt (max Int64.minValue.toInt (min Int64.maxValue.toInt n))

/-- The integer an aggregation makes of a value. A finite float loses its
fraction, a string has to be an integer numeral. -/
def toInt64? : Value → Option Int64
  | .int n => some n
  | .float x => (Number.Binary.ofFloat? x).map fun b => saturate b.truncate
  | .str s => Number.readInt64 (Text.trimChars s.toList)
  | .null => none
  | .bool _ => none

/-- The number a value is, without reading text. -/
def toFloat? : Value → Option Float
  | .int n => some (Float.ofInt n.toInt)
  | .float x => some x
  | .null => none
  | .bool _ => none
  | .str _ => none

/-- What a bare placeholder sees: a string that looks like a number is that
number, an integer before a float. -/
def numeric : Value → Value
  | .str s =>
      let cs := Text.trimChars s.toList
      match Number.readInt64 cs with
      | some n => .int n
      | none =>
          match Number.readFloat cs with
          | some x => if Number.isFinite x then .float x else .str s
          | none => .str s
  | v => v

end Value

end CausalTrace
