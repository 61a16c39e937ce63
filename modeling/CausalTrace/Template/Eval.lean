import CausalTrace.Template.Expr

/-!
# Evaluation

A template is evaluated over one value per placeholder. Integers stay integers
as long as the result is one, and a result outside 64 bits is an error.
-/

namespace CausalTrace.Template

inductive EvalError where
  /-- The number of arguments is not that of the placeholders. -/
  | arity (expected found : Nat)
  | binaryKinds (op : BinaryOp) (left right : Value.Kind)
  /-- An operand of `!`, `-`, `&&` or `||`. -/
  | operandKind (symbol : String) (operand : Value.Kind)
  | divisionByZero
  | overflow
deriving DecidableEq

def EvalError.message : EvalError → String
  | .arity expected found =>
      "template expects " ++ Number.natText expected ++ " arguments, got "
        ++ Number.natText found
  | .binaryKinds op left right =>
      "cannot apply '" ++ op.symbol ++ "' to " ++ left.text ++ " and " ++ right.text
  | .operandKind symbol operand => "cannot apply '" ++ symbol ++ "' to " ++ operand.text
  | .divisionByZero => "division by zero"
  | .overflow => "integer overflow"

/-! ## Comparison -/

/-- Equality as templates see it: numbers by value, and a string equals the
number it reads as. -/
def looselyEqual (l r : Value) : Bool :=
  match l.toFloat?, r.toFloat?, l, r with
  | some a, some b, _, _ => a == b
  | none, some b, .str s, _ => Number.readFloat (Text.trimChars s.toList) |>.any (· == b)
  | some a, none, _, .str s => Number.readFloat (Text.trimChars s.toList) |>.any (· == a)
  | _, _, _, _ => l == r

/-- The order of two numbers; NaN has none. -/
def compareFloats (a b : Float) : Option Ordering :=
  if a < b then some .lt
  else if a == b then some .eq
  else if b < a then some .gt
  else none

/-- The order of two values: strings by code points, numbers by value. -/
def compareValues (l r : Value) : Option Ordering :=
  match l, r with
  | .str s, .str t => some (compare s t)
  | _, _ =>
      match l.toFloat?, r.toFloat? with
      | some a, some b => compareFloats a b
      | _, _ => none

/-! ## Arithmetic -/

/-- The operators that compute a number. -/
inductive ArithOp where
  | add
  | sub
  | mul
  | div
  | rem
deriving DecidableEq

def ArithOp.toBinary : ArithOp → BinaryOp
  | .add => .add
  | .sub => .sub
  | .mul => .mul
  | .div => .div
  | .rem => .rem

/-- An integer result, if it has 64 bits. -/
def checked (n : Int) : Except EvalError Value :=
  match Number.fit? n with
  | some i => .ok (.int i)
  | none => .error .overflow

/-- Integer arithmetic. A quotient that is not whole is a float. -/
def integerArith (op : ArithOp) (a b : Int64) : Except EvalError Value :=
  let m := a.toInt
  let n := b.toInt
  match op with
  | .add => checked (m + n)
  | .sub => checked (m - n)
  | .mul => checked (m * n)
  | .div =>
      if n = 0 then .error .divisionByZero
      else if m.tmod n = 0 then checked (m.tdiv n)
      else .ok (.float (Float.ofInt m / Float.ofInt n))
  | .rem =>
      if n = 0 then .error .divisionByZero
      else if m = Int64.minValue.toInt ∧ n = -1 then .error .overflow
      else checked (m.tmod n)

def floatArith (op : ArithOp) (a b : Float) : Except EvalError Value :=
  match op with
  | .add => .ok (.float (a + b))
  | .sub => .ok (.float (a - b))
  | .mul => .ok (.float (a * b))
  | .div => if b == 0.0 then .error .divisionByZero else .ok (.float (a / b))
  | .rem => if b == 0.0 then .error .divisionByZero else .ok (.float (Number.remainder a b))

/-- Arithmetic on two values; `+` joins texts when either side is a string. -/
def arith (op : ArithOp) (l r : Value) : Except EvalError Value :=
  match op, l, r with
  | .add, .str s, r => .ok (.str (s ++ r.text))
  | .add, l, .str t => .ok (.str (l.text ++ t))
  | op, .int a, .int b => integerArith op a b
  | op, l, r =>
      match l.toFloat?, r.toFloat? with
      | some a, some b => floatArith op a b
      | _, _ => .error (.binaryKinds op.toBinary l.kind r.kind)

/-! ## Expressions -/

/-- An order relation applied to two values that have an order. -/
def ordered (op : BinaryOp) (holds : Ordering → Bool) (l r : Value) : Except EvalError Value :=
  match compareValues l r with
  | some o => .ok (.bool (holds o))
  | none => .error (.binaryKinds op l.kind r.kind)

/-- The truth value an operator needs. -/
def truth (symbol : String) : Value → Except EvalError Bool
  | .bool b => .ok b
  | v => .error (.operandKind symbol v.kind)

/-- A binary operator on two values. The logical ones look at the right value
only if the left does not decide. -/
def applyBinary (op : BinaryOp) (l r : Value) : Except EvalError Value :=
  match op with
  | .or => do if ← truth "||" l then return .bool true else return .bool (← truth "||" r)
  | .and => do if ← truth "&&" l then return .bool (← truth "&&" r) else return .bool false
  | .eq => .ok (.bool (looselyEqual l r))
  | .ne => .ok (.bool (!looselyEqual l r))
  | .lt => ordered .lt (· == .lt) l r
  | .le => ordered .le (· != .gt) l r
  | .gt => ordered .gt (· == .gt) l r
  | .ge => ordered .ge (· != .lt) l r
  | .add => arith .add l r
  | .sub => arith .sub l r
  | .mul => arith .mul l r
  | .div => arith .div l r
  | .rem => arith .rem l r

/-- Whether the left value alone decides, and what. -/
def decided (op : BinaryOp) (l : Value) : Except EvalError (Option Value) :=
  match op with
  | .or => do if ← truth "||" l then return some (.bool true) else return none
  | .and => do if ← truth "&&" l then return none else return some (.bool false)
  | _ => .ok none

def applyUnary (op : UnaryOp) (v : Value) : Except EvalError Value :=
  match op, v with
  | .not, .bool b => .ok (.bool !b)
  | .neg, .int n => checked (-n.toInt)
  | .neg, .float x => .ok (.float x.neg)
  | op, v => .error (.operandKind op.symbol v.kind)

def Part.value (env : Nat → Value) : Part → String
  | .text s => s
  | .arg i => (env i).text

/-- The value of an expression when the placeholder at position `i` holds
`env i`. -/
def Expr.eval (env : Nat → Value) : Expr → Except EvalError Value
  | .literal v => .ok v
  | .arg i => .ok (env i).numeric
  | .interpolated ps => .ok (.str (String.join (ps.map (Part.value env))))
  | .unary op e => do applyUnary op (← e.eval env)
  | .binary op l r => do
      let a ← l.eval env
      match ← decided op a with
      | some v => return v
      | none => applyBinary op a (← r.eval env)

end CausalTrace.Template
