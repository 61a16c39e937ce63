import CausalTrace.Number.Literal

/-!
# Reading numbers from text

An integer is an optional sign and digits, within 64 bits. A float is an optional
sign and either a name of infinity or NaN, or digits with an optional point and
exponent, at least one digit among those around the point.
-/

namespace CausalTrace.Number

/-! ## Integers -/

/-- The 64-bit integer of this value, if there is one. -/
def fit? (n : Int) : Option Int64 :=
  if Int64.minValue.toInt ≤ n ∧ n ≤ Int64.maxValue.toInt then some (Int64.ofInt n) else none

theorem toInt_of_fit? {n : Int} {i : Int64} (h : fit? n = some i) : i.toInt = n := by
  unfold fit? at h
  split at h
  · next hn =>
      cases h
      exact Int64.toInt_ofInt_of_le hn.1 (by
        have : Int64.maxValue.toInt = 2 ^ 63 - 1 := by decide
        omega)
  · simp at h

/-- Splits off a leading sign; the flag says whether it is a minus. -/
def takeSign : List Char → Bool × List Char
  | '-' :: cs => (true, cs)
  | '+' :: cs => (false, cs)
  | cs => (false, cs)

/-- The integer a text of an optional sign and digits stands for. -/
def readInt64 (cs : List Char) : Option Int64 :=
  let (negative, ds) := takeSign cs
  if ds.isEmpty || !ds.all Char.isDigit then none
  else fit? (if negative then -(digitsValue ds : Int) else digitsValue ds)

/-! ## Literals at the start of a text -/

/-- The digits at the start of a text, and the rest. -/
def takeDigits (cs : List Char) : List Char × List Char :=
  (cs.takeWhile Char.isDigit, cs.dropWhile Char.isDigit)

/-- The fraction digits at the start of a text, if it starts with a point. -/
def takeFraction : List Char → Option (List Char × List Char)
  | '.' :: cs => some (takeDigits cs)
  | _ => none

/-- The exponent at the start of a text, if it starts with a complete one. -/
def takeExponent : List Char → Option (Int × List Char)
  | c :: cs =>
      if c = 'e' ∨ c = 'E' then
        let (negative, ds) := takeSign cs
        match takeDigits ds with
        | ([], _) => none
        | (ds, rest) => some (if negative then -(digitsValue ds : Int) else digitsValue ds, rest)
      else none
  | [] => none

/-! ## Floats -/

/-- The float a text stands for. -/
def readFloat (cs : List Char) : Option Float :=
  let (negative, body) := takeSign cs
  let signed (x : Float) : Float := if negative then -x else x
  let name := body.map Char.toLower
  if name = ['i', 'n', 'f'] ∨ name = ['i', 'n', 'f', 'i', 'n', 'i', 't', 'y'] then
    some (signed (Float.ofBits 0x7FF0000000000000))
  else if name = ['n', 'a', 'n'] then some (Float.ofBits 0x7FF8000000000000)
  else
    let (whole, afterWhole) := takeDigits body
    let (fraction, afterFraction) := (takeFraction afterWhole).getD ([], afterWhole)
    if whole.isEmpty && fraction.isEmpty then none
    else match afterFraction with
      | [] => some (Literal.nearest ⟨negative, whole, fraction, none⟩)
      | rest =>
          match takeExponent rest with
          | some (e, []) => some (Literal.nearest ⟨negative, whole, fraction, some e⟩)
          | _ => none

end CausalTrace.Number
