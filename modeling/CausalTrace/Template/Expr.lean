import CausalTrace.Value

/-!
# Template expressions

The tree a template parses to. Placeholders are numbered from the left of the
text, bare ones and those inside string literals alike.
-/

namespace CausalTrace.Template

/-- The binary operators. -/
inductive BinaryOp where
  | or
  | and
  | eq
  | ne
  | lt
  | le
  | gt
  | ge
  | add
  | sub
  | mul
  | div
  | rem
deriving DecidableEq, Repr

/-- The operators before one operand. -/
inductive UnaryOp where
  | not
  | neg
deriving DecidableEq, Repr

def BinaryOp.symbol : BinaryOp → String
  | .or => "||"
  | .and => "&&"
  | .eq => "=="
  | .ne => "!="
  | .lt => "<"
  | .le => "<="
  | .gt => ">"
  | .ge => ">="
  | .add => "+"
  | .sub => "-"
  | .mul => "*"
  | .div => "/"
  | .rem => "%"

def UnaryOp.symbol : UnaryOp → String
  | .not => "!"
  | .neg => "-"

/-- How tightly an operator binds; all group to the left. -/
def BinaryOp.level : BinaryOp → Nat
  | .or => 0
  | .and => 1
  | .eq | .ne => 2
  | .lt | .le | .gt | .ge => 3
  | .add | .sub => 4
  | .mul | .div | .rem => 5

/-- A piece of a string literal: its own text, or the text of an argument. -/
inductive Part where
  | text (s : String)
  | arg (i : Nat)
deriving DecidableEq

inductive Expr where
  | literal (v : Value)
  /-- The argument at a position. -/
  | arg (i : Nat)
  /-- A string literal around placeholders. -/
  | interpolated (parts : List Part)
  | unary (op : UnaryOp) (operand : Expr)
  | binary (op : BinaryOp) (left right : Expr)
deriving DecidableEq

/-- The argument positions of a string literal, from the left. -/
def Part.positions : List Part → List Nat
  | [] => []
  | .text _ :: ps => positions ps
  | .arg i :: ps => i :: positions ps

/-- The argument positions of an expression, from the left. -/
def Expr.positions : Expr → List Nat
  | .literal _ => []
  | .arg i => [i]
  | .interpolated ps => Part.positions ps
  | .unary _ e => e.positions
  | .binary _ l r => l.positions ++ r.positions

end CausalTrace.Template
