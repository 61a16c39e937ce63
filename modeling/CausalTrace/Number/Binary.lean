import CausalTrace.Number.Numeral

/-!
# Binary floating-point numbers as exact integers

A finite float is a sign and a magnitude `significand * 2 ^ exponent`. Truncation
and remainder are computed on that form, where they are exact.

What is kept and compared of a float are its bits. They tell NaNs apart by sign and
payload, which `Float` does not.
-/

namespace CausalTrace.Number

/-- A float, by its bits. -/
structure Binary64 where
  toBits : UInt64
deriving DecidableEq, Inhabited

namespace Binary64

/-- The bits of a float that was read or computed. For NaN they are always the same:
which NaN an operation gives is left to the platform. -/
@[coe] def ofFloat (x : Float) : Binary64 := ⟨x.toBits⟩

@[coe] def toFloat (x : Binary64) : Float := .ofBits x.toBits

instance : Coe Float Binary64 := ⟨ofFloat⟩

instance : Coe Binary64 Float := ⟨toFloat⟩

def isNaN (x : Binary64) : Bool := x.toFloat.isNaN

/-- The float with the sign flipped, NaN or not. -/
def neg (x : Binary64) : Binary64 := ⟨x.toBits ^^^ (1 : UInt64) <<< 63⟩

end Binary64

/-- A finite float, taken apart. -/
structure Binary where
  negative : Bool
  significand : Nat
  exponent : Int
  /-- The gap to the next smaller magnitude is half the gap to the next larger. -/
  narrowBelow : Bool

namespace Binary

/-- The parts of a finite float; an infinity and NaN have none. -/
def ofFloat? (x : Float) : Option Binary :=
  let bits := x.toBits
  let negative := bits >>> 63 == 1
  let e := ((bits >>> 52) &&& 0x7FF).toNat
  let f := (bits &&& 0xFFFFFFFFFFFFF).toNat
  if e = 0x7FF then none
  else if e = 0 then some ⟨negative, f, -1074, false⟩
  else some ⟨negative, pow2 52 + f, (e : Int) - 1075, f == 0 && e > 1⟩

/-- The float with the given sign and magnitude `m * 2 ^ q`, for a magnitude that
is a float: `m` below `2 ^ 53` and `q` at least `-1074`. -/
def toFloat (negative : Bool) (m : Nat) (q : Int) : Float :=
  let sign : UInt64 := if negative then (1 : UInt64) <<< 63 else 0
  if m = 0 then Float.ofBits sign
  else
    let shift := min (52 - m.log2) (q + 1074).toNat
    let m' := m <<< shift
    let q' := q - shift
    let bits := if m' < pow2 52 then m' else (q' + 1075).toNat <<< 52 + (m' - pow2 52)
    Float.ofBits (sign ||| UInt64.ofNat bits)

/-- The integer part of the magnitude, with the sign. -/
def truncate (x : Binary) : Int :=
  let n := (x.significand <<< x.exponent.toNat) >>> (-x.exponent).toNat
  if x.negative then -(n : Int) else n

/-- The magnitude left when the magnitude of `y` is taken from that of `x` as
often as it fits, with the sign of `x`. -/
def remainder (x y : Binary) : Float :=
  let q := min x.exponent y.exponent
  let a := x.significand <<< (x.exponent - q).toNat
  let b := y.significand <<< (y.exponent - q).toNat
  toFloat x.negative (a % b) q

end Binary

/-- Neither an infinity nor NaN. -/
def isFinite (x : Float) : Bool := (Binary.ofFloat? x).isSome

def nan : Float := Float.ofBits 0x7FF8000000000000

/-- The remainder of a division truncated toward zero, computed exactly. It is
NaN for an infinite dividend and for a zero divisor, and the dividend itself for
an infinite divisor. -/
def remainder (x y : Float) : Float :=
  if x.isNaN || y.isNaN then nan
  else match Binary.ofFloat? x, Binary.ofFloat? y with
    | none, _ => nan
    | some _, none => x
    | some a, some b => if b.significand = 0 then nan else a.remainder b

end CausalTrace.Number
