import CausalTrace.Number.Numeral

/-!
# Decimal literals

A decimal literal is a sign, the digits before and after the point, and a power
of ten. It has one text, and one float nearest to its value.
-/

namespace CausalTrace.Number

/-- A decimal numeral, digit by digit. -/
structure Literal where
  negative : Bool
  whole : List Char
  fraction : List Char
  exponent : Option Int
deriving DecidableEq

namespace Literal

/-- A literal without point and exponent. -/
def ofInt (n : Int) : Literal := ⟨n < 0, natDigits n.natAbs, [], none⟩

/-- The text of a literal: the point only before digits, the exponent after `e`.
`signed` asks for a sign also before an exponent that is not negative. -/
def chars (signed : Bool) (l : Literal) : List Char :=
  (if l.negative then ['-'] else []) ++ l.whole
    ++ (if l.fraction.isEmpty then [] else '.' :: l.fraction)
    ++ (match l.exponent with
      | none => []
      | some e => 'e' :: (if signed && decide (0 ≤ e) then ['+'] else []) ++ intDigits e)

/-- Neither a point nor an exponent. -/
def isInteger (l : Literal) : Bool := l.fraction.isEmpty && l.exponent.isNone

/-- The integer that the digits before the point stand for. -/
def toInt (l : Literal) : Int :=
  if l.negative then -(digitsValue l.whole : Int) else digitsValue l.whole

/-- The float nearest to `m * 10 ^ e`, a tie going to the even significand.
Beyond `10 ^ 400` and below `10 ^ -400` the answer is known without the power. -/
def scaled (m : Nat) (e : Int) : Float :=
  let size : Int := (natDigits m).length + e
  if m = 0 ∨ size < -400 then 0.0
  else if size > 400 then Float.ofBits 0x7FF0000000000000
  else Float.ofScientific m (e < 0) e.natAbs

/-- The float nearest to the value of the literal. -/
def nearest (l : Literal) : Float :=
  let m := digitsValue (l.whole ++ l.fraction)
  let x := scaled m (l.exponent.getD 0 - l.fraction.length)
  if l.negative then -x else x

end Literal

end CausalTrace.Number
