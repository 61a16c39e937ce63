import CausalTrace.Number.Binary

/-!
# The fewest digits that read back

The decimals that round to a given float form an interval around it. The
shortest form is the decimal of fewest digits inside that interval; of two with
equally many digits the nearer one. All comparisons are between natural numbers.
-/

namespace CausalTrace.Number

/-- Which of two equally near decimals of one length is taken. -/
inductive Tie where
  | toEven
  | upward
deriving DecidableEq

/-- A decimal magnitude `digits * 10 ^ exponent`. -/
structure Decimal where
  digits : Nat
  exponent : Int
deriving DecidableEq, Repr

/-- How `a * 10 ^ i` compares with `n * 2 ^ j`. -/
def compareScaled (a : Nat) (i : Int) (n : Nat) (j : Int) : Ordering :=
  compare (a * pow10 i.toNat * pow2 (-j).toNat) (n * pow2 j.toNat * pow10 (-i).toNat)

/-- Whether a decimal lies among the reals that round to the magnitude of `x`.
The ends of the interval belong to it when the significand is even. -/
def Binary.readsBack (x : Binary) (d : Decimal) : Bool :=
  let low := if x.narrowBelow then 4 * x.significand - 1 else 4 * x.significand - 2
  let high := 4 * x.significand + 2
  let closed := x.significand % 2 == 0
  let below := compareScaled d.digits d.exponent low (x.exponent - 2)
  let above := compareScaled d.digits d.exponent high (x.exponent - 2)
  (below == .gt || (closed && below == .eq)) && (above == .lt || (closed && above == .eq))

/-- The least `k` with the magnitude of `x` below `10 ^ k`, found near the
estimate that the binary size gives. -/
def Binary.decimalSize (x : Binary) : Int :=
  let guess := ((x.significand.log2 : Int) + x.exponent) * 1233 / 4096
  if compareScaled 1 guess x.significand x.exponent == .gt then guess
  else if compareScaled 1 (guess + 1) x.significand x.exponent == .gt then guess + 1
  else guess + 2

/-- The magnitude of `x` in units of `10 ^ g`, rounded down. -/
def Binary.floorAt (x : Binary) (g : Int) : Nat :=
  (x.significand * pow2 x.exponent.toNat * pow10 (-g).toNat)
    / (pow2 (-x.exponent).toNat * pow10 g.toNat)

/-- The better of the two neighbours of `x` on the grid of `10 ^ g` that read
back, if one does. -/
def Binary.onGrid? (x : Binary) (tie : Tie) (g : Int) : Option Decimal :=
  let n := x.floorAt g
  let down : Decimal := ⟨n, g⟩
  let up : Decimal := ⟨n + 1, g⟩
  match x.readsBack down, x.readsBack up with
  | false, false => none
  | true, false => some down
  | false, true => some up
  | true, true =>
      match compareScaled (2 * n + 1) g (2 * x.significand) x.exponent, tie with
      | .gt, _ => some down
      | .lt, _ => some up
      | .eq, .upward => some up
      | .eq, .toEven => some (if n % 2 = 0 then down else up)

/-- Moves the factors of ten of the digits into the exponent, at most `n` of
them. -/
def Decimal.strip : Nat → Decimal → Decimal
  | 0, d => d
  | n + 1, d =>
      if d.digits ≠ 0 ∧ d.digits % 10 = 0 then Decimal.strip n ⟨d.digits / 10, d.exponent + 1⟩
      else d

/-- The magnitude of `x` as a decimal, digit by digit. -/
def Binary.exact (x : Binary) : Decimal :=
  ⟨x.significand * pow2 x.exponent.toNat * Nat.pow 5 (-x.exponent).toNat, min x.exponent 0⟩

/-- The shortest decimal of a magnitude. Seventeen digits always read back. -/
def Binary.shortest (x : Binary) (tie : Tie) : Decimal :=
  if x.significand = 0 then ⟨0, 0⟩
  else
    let size := x.decimalSize
    match (List.range 17).findSome? fun (n : Nat) => x.onGrid? tie (size - (n + 1)) with
    | some d => d.strip 17
    | none => x.exact

end CausalTrace.Number
