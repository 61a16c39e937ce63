import CausalTrace.Query.Basic
import CausalTrace.Spec.Advice

/-!
# Showing queries and plans

Both are shown as indented text, one line per thing.
-/

namespace CausalTrace

def bracketed (ss : List String) : String := "[" ++ Text.join ", " ss ++ "]"

/-- Lines set off by `depth` levels. -/
def indented (depth : Nat) (lines : List String) : List String :=
  lines.map (String.ofList (List.replicate (2 * depth) ' ') ++ ·)

def unlines (lines : List String) : String := String.join (lines.map (· ++ "\n"))

/-! ## Queries -/

namespace Query

def labels (a : Arena) (vs : List VarId) : String := bracketed (vs.map a.label)

def sourceText (s : Source) : String :=
  match s.aliasName with
  | some aliasName => aliasName ++ " in " ++ s.tracepoint.name
  | none => s.tracepoint.name

def letLines (a : Arena) (l : String × VarId) : List String :=
  match a.definition? l.2 with
  | some (.computed _ expr args) => ["  let " ++ l.1 ++ " = " ++ expr ++ " " ++ labels a args]
  | _ => []

def shapeLines (a : Arena) : Shape → List String
  | .unfinished => []
  | .select selected => ["  select " ++ labels a selected]
  | .group keys aggregates =>
      ("  groupby " ++ labels a keys) :: aggregates.map fun g =>
        "    " ++ g.how.text ++ "(" ++ (g.input.map a.label).getD "" ++ ")"
  | .filter keep => ["  filter " ++ keep.text]

/-- The lines of one stage. -/
def stageLines (a : Arena) (s : Stage) : List String :=
  [s.shape.name ++ " from " ++ sourceText s.source]
    ++ (if s.observed.isEmpty then []
      else ["  observe " ++ Text.join ", " s.observed.keys])
    ++ s.lets.flatMap (letLines a)
    ++ s.wheres.map (fun w => "  where " ++ w.expr ++ " " ++ labels a w.args)
    ++ shapeLines a s.shape
    ++ ["  outputs " ++ labels a s.outputs]

mutual

/-- The lines of a query whose root stands `depth` levels inside. -/
def explainLines (a : Arena) (depth : Nat) : Query → List String
  | .node s js => indented depth (stageLines a s) ++ joinLines a depth js

def joinLines (a : Arena) (depth : Nat) : List (String × Query) → List String
  | [] => []
  | (aliasName, q) :: js =>
      indented depth ["  join " ++ aliasName ++ ":"] ++ explainLines a (depth + 2) q
        ++ joinLines a depth js

end

/-- A query as text. -/
def explain (a : Arena) (q : Query) : String := unlines (explainLines a 0 q)

end Query

/-! ## Plans -/

def BagSpec.text : BagSpec String → String
  | .tuple vars => "tuple" ++ bracketed vars
  | .filter keep vars => keep.text ++ bracketed vars
  | .groupBy keys aggregates =>
      "groupby" ++ bracketed keys ++ " aggregate"
        ++ bracketed (aggregates.map fun a => a.how.text ++ "(" ++ a.name ++ ")")

def OutputSpec.text : OutputSpec String → String
  | .pack bagId bag => "PACK " ++ bagId.text ++ " " ++ bag.text
  | .emit outputId bag => "EMIT " ++ outputId.text ++ " " ++ bag.text

/-- The lines of one plan. -/
def AdviceSpec.lines (a : AdviceSpec String) : List String :=
  (if a.observe.isEmpty then [] else ["OBSERVE " ++ Text.join ", " a.observe])
    ++ a.unpack.map (fun u => "UNPACK " ++ u.bagId.text ++ " " ++ u.bag.text)
    ++ a.lets.map (fun l => "LET " ++ l.name ++ " = " ++ l.expr ++ " " ++ bracketed l.args)
    ++ a.wheres.map (fun w => "WHERE " ++ w.expr ++ " " ++ bracketed w.args)
    ++ [a.output.text]

def WeaveSpec.lines (w : WeaveSpec) : List String :=
  indented 1 ["Advice " ++ w.adviceId.text ++ " at " ++ w.tracepoint ++ " exports="
    ++ bracketed w.fields] ++ indented 2 w.advice.lines

/-- A compiled query as text. -/
def QueryAdvice.explain (q : QueryAdvice) : String :=
  unlines (("Query " ++ q.queryId.text) :: q.weaves.flatMap (·.lines))

end CausalTrace
