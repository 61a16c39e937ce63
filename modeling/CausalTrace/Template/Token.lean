import CausalTrace.Template.Expr
import CausalTrace.Text.Quoted

/-!
# Template tokens
-/

namespace CausalTrace.Template

/-- The words of a template. A minus sign is the operator `sub` wherever it
stands. -/
inductive Token where
  | hole
  | bool (b : Bool)
  | null
  | int (n : Int64)
  | float (x : Float)
  | str (s : String)
  | op (o : BinaryOp)
  | bang
  | opened
  | closed
deriving DecidableEq

/-- The name of an operator in messages. -/
def BinaryOp.name : BinaryOp → String
  | .or => "Or"
  | .and => "And"
  | .eq => "Eq"
  | .ne => "Ne"
  | .lt => "Lt"
  | .le => "Le"
  | .gt => "Gt"
  | .ge => "Ge"
  | .add => "Plus"
  | .sub => "Minus"
  | .mul => "Star"
  | .div => "Slash"
  | .rem => "Percent"

/-- The name of a token in messages, with its contents. -/
def Token.name : Token → String
  | .hole => "Placeholder"
  | .bool true => "True"
  | .bool false => "False"
  | .null => "Null"
  | .int n => "Int(" ++ Number.intText n.toInt ++ ")"
  | .float x => "Float(" ++ Number.Notation.source.text x ++ ")"
  | .str s => "Str(" ++ Text.quoted s ++ ")"
  | .op o => o.name
  | .bang => "Bang"
  | .opened => "LParen"
  | .closed => "RParen"

/-- Why a text is no template. -/
inductive ParseError where
  /-- No token starts like this text, which stands at this byte. -/
  | unknown (offset : Nat) (found : String)
  /-- A token where an operand has to start. -/
  | unexpected (t : Token)
  /-- The end where an operand has to start. -/
  | incomplete
  /-- Something other than the closing parenthesis. -/
  | unclosed (found : Option Token)
  /-- A token after the whole expression. -/
  | trailing (t : Token)
deriving DecidableEq

def ParseError.message : ParseError → String
  | .unknown offset found =>
      "unrecognized input '" ++ found ++ "' at offset " ++ Number.natText offset
  | .unexpected t => "syntax error: unexpected " ++ t.name
  | .incomplete => "syntax error: unexpected end of expression"
  | .unclosed none => "syntax error: expected ')', found None"
  | .unclosed (some t) => "syntax error: expected ')', found Some(" ++ t.name ++ ")"
  | .trailing t => "syntax error: unexpected trailing " ++ t.name

end CausalTrace.Template
