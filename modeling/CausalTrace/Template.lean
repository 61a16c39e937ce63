import CausalTrace.Template.Parser
import CausalTrace.Template.Eval

/-!
# Templates

A template is the text of a small expression whose placeholders are filled from
the left by arguments. It is parsed once and evaluated often.
-/

namespace CausalTrace

/-- A parsed template. -/
structure Template where
  source : String
  expr : Template.Expr
  /-- The number of placeholders. -/
  arity : Nat

namespace Template

def parse (source : String) : Except ParseError Template := do
  let (expr, arity) ← parseExpr source
  return ⟨source, expr, arity⟩

/-- The value of a template on its arguments. -/
def eval (t : Template) (args : Row) : Except EvalError Value :=
  if args.length = t.arity then t.expr.eval fun i => args.getD i .null
  else .error (.arity t.arity args.length)

/-- Whether a template is true of its arguments; any other value counts as
false. -/
def test (t : Template) (args : Row) : Except EvalError Bool := do
  return (← t.eval args) == .bool true

end Template

end CausalTrace
