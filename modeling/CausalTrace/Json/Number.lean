import CausalTrace.Number.Binary
import CausalTrace.Number.Reader
import CausalTrace.Json.Basic

/-!
# What a JSON number means

A number without point and exponent is an integer as long as 64 bits hold it.
Every other number is a float: the first digits that 64 bits hold make an integer,
which is then multiplied or divided by a power of ten. That is one rounding more
than the nearest float needs, and every reader has to make the same one.
-/

namespace CausalTrace.Json

inductive Numeric where
  | int (n : Int)
  | float (x : Float)
deriving DecidableEq

/-- Reads digits into a significand while it stays below `2 ^ 64`; the rest of
the digits is given back. -/
def accumulate (m : Nat) : List Char → Nat × List Char
  | [] => (m, [])
  | d :: ds =>
      if 10 * m + Number.digitValue d < Number.pow2 64 then
        accumulate (10 * m + Number.digitValue d) ds
      else (m, d :: ds)

/-- `m * 10 ^ e` by one multiplication or division; too large a number has no
meaning. -/
def scale (m : Nat) (e : Int) : Option Float :=
  let x := Number.Literal.scaled m 0
  if m = 0 then some x
  else if e < -616 then some 0.0
  else if e < -308 then some (x / Number.Literal.scaled 1 308 / Number.Literal.scaled 1 (-e - 308))
  else if e < 0 then some (x / Number.Literal.scaled 1 (-e))
  else if e ≤ 308 then
    let y := x * Number.Literal.scaled 1 e
    if Number.isFinite y then some y else none
  else none

/-- The integer a number is written as, if 64 bits hold it; minus zero is none. -/
def integer? (l : Number.Literal) : Option Int :=
  let n := l.toInt
  let fits := if l.negative then Int64.minValue.toInt ≤ n ∧ n < 0 else n < (Number.pow2 64 : Int)
  if l.isInteger ∧ fits then some n else none

/-- The float a number is read as. -/
def float? (l : Number.Literal) : Option Float :=
  let (whole, beyond) := accumulate 0 l.whole
  let (m, ignored) := accumulate whole l.fraction
  let e : Int := beyond.length - (l.fraction.length - ignored.length : Nat) + l.exponent.getD 0
  (scale m e).map fun x => if l.negative then -x else x

def numeric? (l : Number.Literal) : Option Numeric :=
  match integer? l with
  | some n => some (.int n)
  | none => (float? l).map .float

end CausalTrace.Json
