import CausalTrace.Template.Lexer

/-!
# From tokens to expressions

Operators bind in six levels and group to the left, a prefix operator binds
tighter than all of them. The parser reads one token after another and keeps
what it has begun on a stack: at an operator everything that binds at least as
tightly is completed first.
-/

namespace CausalTrace.Template

/-- A begun expression that waits for the operand to its right. -/
inductive Frame where
  | group
  | unary (op : UnaryOp)
  | binary (left : Expr) (op : BinaryOp)
deriving DecidableEq

/-- Completes the begun expressions that bind at least as tightly as `level`,
up to the innermost open parenthesis. -/
def settle (level : Nat) : List Frame → Expr → List Frame × Expr
  | [], e => ([], e)
  | .group :: fs, e => (.group :: fs, e)
  | .unary op :: fs, e => settle level fs (.unary op e)
  | .binary l op :: fs, e =>
      if level ≤ op.level then settle level fs (.binary op l e)
      else (.binary l op :: fs, e)

/-- The texts between the placeholders of a string literal. -/
def splitAtHoles : List Char → List (List Char)
  | [] => [[]]
  | '\x7b' :: '\x7d' :: cs => [] :: splitAtHoles cs
  | c :: cs =>
      match splitAtHoles cs with
      | [] => [[c]]
      | p :: ps => (c :: p) :: ps

/-- The parts of a string literal, its placeholders numbered from `holes`. -/
def literalParts (holes : Nat) : List (List Char) → List Part
  | [] => []
  | [p] => if p.isEmpty then [] else [.text (String.ofList p)]
  | p :: q :: ps =>
      let rest := .arg holes :: literalParts (holes + 1) (q :: ps)
      if p.isEmpty then rest else .text (String.ofList p) :: rest

/-- The expression of a string literal and the number of its placeholders. -/
def stringLiteral (holes : Nat) (s : String) : Expr × Nat :=
  match splitAtHoles s.toList with
  | p :: q :: ps => (.interpolated (literalParts holes (p :: q :: ps)), (q :: ps).length)
  | _ => (.literal (.str s), 0)

/-- The operand that one token is, with the number of its placeholders. -/
def operand? (holes : Nat) : Token → Option (Expr × Nat)
  | .hole => some (.arg holes, 1)
  | .bool b => some (.literal (.bool b), 0)
  | .null => some (.literal .null, 0)
  | .int n => some (.literal (.int n), 0)
  | .float x => some (.literal (.float x), 0)
  | .str s => some (stringLiteral holes s)
  | .op _ => none
  | .bang => none
  | .opened => none
  | .closed => none

/-- What the parser has read so far: `holes` placeholders, the begun expressions,
innermost first, and the operand just completed, if one is. -/
structure Progress where
  holes : Nat
  stack : List Frame
  operand : Option Expr
deriving DecidableEq

namespace Progress

def start : Progress := ⟨0, [], none⟩

/-- Reads a token where an operand has to start. -/
def begin (p : Progress) (t : Token) : Except ParseError Progress :=
  match operand? p.holes t with
  | some (e, n) => .ok ⟨p.holes + n, p.stack, some e⟩
  | none =>
      match t with
      | .op .sub => .ok { p with stack := .unary .neg :: p.stack }
      | .bang => .ok { p with stack := .unary .not :: p.stack }
      | .opened => .ok { p with stack := .group :: p.stack }
      | t => .error (.unexpected t)

/-- Reads a token after the operand `e`. -/
def extend (p : Progress) (e : Expr) (t : Token) : Except ParseError Progress :=
  match t with
  | .op o =>
      let (stack, left) := settle o.level p.stack e
      .ok ⟨p.holes, .binary left o :: stack, none⟩
  | t =>
      match settle 0 p.stack e, t with
      | (.group :: stack, e), .closed => .ok ⟨p.holes, stack, some e⟩
      | (.group :: _, _), t => .error (.unclosed (some t))
      | _, t => .error (.trailing t)

def step (p : Progress) (t : Token) : Except ParseError Progress :=
  match p.operand with
  | none => p.begin t
  | some e => p.extend e t

/-- The expression at the end of the tokens, and its number of placeholders. -/
def finish (p : Progress) : Except ParseError (Expr × Nat) :=
  match p.operand with
  | none => .error .incomplete
  | some e =>
      match settle 0 p.stack e with
      | ([], e) => .ok (e, p.holes)
      | _ => .error (.unclosed none)

end Progress

/-- The expression of some tokens and its number of placeholders. -/
def exprOfTokens (ts : List Token) : Except ParseError (Expr × Nat) := do
  let p ← ts.foldlM Progress.step Progress.start
  p.finish

/-- The expression of a text and its number of placeholders. The whole text is
cut into tokens before any of them is read. -/
def parseExpr (s : String) : Except ParseError (Expr × Nat) := do
  exprOfTokens (← tokens s)

end CausalTrace.Template
