import CausalTrace.Number.Literal
import CausalTrace.Number.Shortest

/-!
# Laying out a float

A notation decides which sizes are written positionally, whether a whole number
keeps a point, and which way a tie between two shortest forms goes. The digits
themselves come from `Binary.shortest`.
-/

namespace CausalTrace.Number

/-- The decisions of one way to write floats. -/
structure Notation where
  /-- Leading-digit exponents written positionally, as bounds `low ≤ e < high`;
  without bounds all are. -/
  positional : Option (Int × Int)
  /-- Whether a whole number is written `12.0`. -/
  keepPoint : Bool
  tie : Tie

namespace Notation

/-- For people: never an exponent, whole numbers bare. -/
def plain : Notation := ⟨none, false, .upward⟩

/-- For messages about source text: a float always looks like one. -/
def source : Notation := ⟨some (-4, 16), true, .upward⟩

/-- For documents: a float reads back as a float. -/
def document : Notation := ⟨some (-5, 16), true, .toEven⟩

/-- The literal of a positional number: the point after, inside or before the
digits. -/
def layPositional (keepPoint : Bool) (negative : Bool) (ds : List Char) (e : Int) : Literal :=
  let whole :=
    if e ≥ 0 then ds ++ List.replicate e.toNat '0'
    else if (ds.length : Int) + e > 0 then ds.take ((ds.length : Int) + e).toNat
    else ['0']
  let fraction :=
    if e ≥ 0 then (if keepPoint then ['0'] else [])
    else if (ds.length : Int) + e > 0 then ds.drop ((ds.length : Int) + e).toNat
    else List.replicate (-((ds.length : Int) + e)).toNat '0' ++ ds
  ⟨negative, whole, fraction, none⟩

/-- The literal of a finite float. -/
def literal (f : Notation) (x : Binary) : Literal :=
  let d := x.shortest f.tie
  let ds := natDigits d.digits
  let lead := (ds.length : Int) - 1 + d.exponent
  let isPositional := match f.positional with
    | none => true
    | some (low, high) => d.digits == 0 || (low ≤ lead && lead < high)
  if isPositional then layPositional f.keepPoint x.negative ds d.exponent
  else ⟨x.negative, ds.take 1, ds.drop 1, some lead⟩

/-- The text of a float; the infinities and NaN have names. -/
def text (f : Notation) (x : Float) : String :=
  match Binary.ofFloat? x with
  | some b => String.ofList ((f.literal b).chars false)
  | none => if x.isNaN then "NaN" else if x < 0 then "-inf" else "inf"

end Notation

end CausalTrace.Number
