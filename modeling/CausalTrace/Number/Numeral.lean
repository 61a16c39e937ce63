/-!
# Decimal numerals

The decimal digits of a natural number and of an integer, and the number that a
run of digits stands for.
-/

namespace CausalTrace.Number

/-- A power of two. -/
def pow2 (n : Nat) : Nat := Nat.pow 2 n

/-- A power of ten. -/
def pow10 (n : Nat) : Nat := Nat.pow 10 n

/-- The digit character of a number below ten. -/
def digitChar (d : Nat) : Char := Char.ofNat (48 + d)

/-- The number a digit character stands for. -/
def digitValue (c : Char) : Nat := c.toNat - 48

/-- The digits of a natural number, without a leading zero. -/
def natDigits (n : Nat) : List Char :=
  if n < 10 then [digitChar n] else natDigits (n / 10) ++ [digitChar (n % 10)]

/-- The number a run of digits stands for. -/
def digitsValue (cs : List Char) : Nat :=
  cs.foldl (fun n c => 10 * n + digitValue c) 0

/-- The digits of an integer, with a minus sign if it is negative. -/
def intDigits : Int → List Char
  | .ofNat n => natDigits n
  | .negSucc n => '-' :: natDigits (n + 1)

def natText (n : Nat) : String := String.ofList (natDigits n)

def intText (n : Int) : String := String.ofList (intDigits n)

theorem digitValue_digitChar {d : Nat} (h : d < 10) : digitValue (digitChar d) = d := by
  have all : ∀ d < 10, digitValue (digitChar d) = d := by decide
  exact all d h

theorem digitsValue_snoc (cs : List Char) (c : Char) :
    digitsValue (cs ++ [c]) = 10 * digitsValue cs + digitValue c := by
  simp [digitsValue]

/-- Reading the digits of a number gives the number. -/
theorem digitsValue_natDigits (n : Nat) : digitsValue (natDigits n) = n := by
  fun_induction natDigits n with
  | case1 n h => simp [digitsValue, digitValue_digitChar h]
  | case2 n h ih =>
      rw [digitsValue_snoc, ih, digitValue_digitChar (Nat.mod_lt _ (by decide))]
      omega

end CausalTrace.Number
