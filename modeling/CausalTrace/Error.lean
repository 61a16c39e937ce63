/-!
# Errors

Every failure of the planner, the runtime and the configuration has a kind and a
text that says what was wrong.
-/

namespace CausalTrace

inductive Error.Kind where
  /-- A configuration or an option that makes no sense. -/
  | config
  /-- A query text outside the grammar. -/
  | parse
  /-- A query with a wrong shape or name. -/
  | planning
  /-- A plan that reads names it never binds. -/
  | advice
  | io
  | json
  /-- A meaningful request for something that is not offered. -/
  | unsupported
deriving DecidableEq, Repr

structure Error where
  kind : Error.Kind
  detail : String
deriving DecidableEq, Repr

namespace Error

def Kind.headline : Kind → String
  | .config => "invalid configuration"
  | .parse => "parse error"
  | .planning => "planning error"
  | .advice => "invalid advice"
  | .io => "io error"
  | .json => "json error"
  | .unsupported => "unsupported"

def message (e : Error) : String := e.kind.headline ++ ": " ++ e.detail

def parse (detail : String) : Error := ⟨.parse, detail⟩

def planning (detail : String) : Error := ⟨.planning, detail⟩

def advice (detail : String) : Error := ⟨.advice, detail⟩

def unsupported (detail : String) : Error := ⟨.unsupported, detail⟩

end Error

end CausalTrace
