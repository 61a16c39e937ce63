import CausalTrace.Query.Resolve

/-!
# Building queries

Every step gives a new query. Conditions and lets come before the one step that
decides the shape of a stage; aggregates are added to a grouping stage, and joins
may come at any time.
-/

namespace CausalTrace.Query

/-! ## Starting -/

/-- A query whose fields go by their own names. -/
def unnamed (t : Tracepoint) : Query := .watch ⟨none, t⟩

/-- A query whose fields are addressed through an alias. -/
def named (aliasName : String) (t : Tracepoint) : Except Error Query :=
  if Name.isValid aliasName then .ok (.watch ⟨some aliasName, t⟩)
  else .error (.planning ("invalid query alias '" ++ aliasName ++ "'"))

/-! ## Checks -/

def requireUnfinished (q : Query) (step : String) : Except Error Unit :=
  match q.stage.shape with
  | .unfinished => .ok ()
  | shape => .error (.planning (step ++ " cannot follow " ++ shape.name))

def requireAvailable (q : Query) (name : String) : Except Error Unit :=
  if q.isAvailable name then .ok ()
  else .error (.planning ("variable name '" ++ name ++ "' is invalid or already in use"))

/-! ## Conditions, lets and shapes -/

def addWhere (q : Query) (expr : String) (args : List String) : Build Query := do
  q.requireUnfinished "where"
  let (q, args) ← q.inputs args
  return q.withStage fun s => { s with wheres := s.wheres ++ [⟨expr, args⟩] }

def addLet (q : Query) (name expr : String) (args : List String) : Build Query := do
  q.requireUnfinished "let"
  q.requireAvailable name
  let (q, args) ← q.inputs args
  let v ← Build.define (.computed name expr args)
  return q.withStage fun s => { s with lets := s.lets ++ [(name, v)] }

def select (q : Query) (names : List String) : Build Query := do
  q.requireUnfinished "select"
  let (q, vs) ← q.inputs names
  return q.withStage fun s =>
    { s with outputs := s.outputs.insertAll vs, shape := .select vs }

def groupBy (q : Query) (names : List String) : Build Query := do
  q.requireUnfinished "groupby"
  let (q, vs) ← q.inputs names
  return q.withStage fun s =>
    { s with outputs := s.outputs.insertAll vs, shape := .group vs [] }

/-- Adds an aggregate to a grouping stage. -/
def addAggregate (q : Query) (how : Aggregation) (input : Option VarId) : Build Query :=
  match q.stage.shape with
  | .group keys aggregates => do
      let v ← Build.define (.aggregated how input)
      return q.withStage fun s =>
        { s with
          outputs := s.outputs.insert v
          shape := .group keys (aggregates ++ [⟨v, how, input⟩]) }
  | shape => throw (.planning (how.text ++ " requires a groupby, found " ++ shape.name))

def aggregate (q : Query) (name : String) (how : Aggregation) : Build Query := do
  let (q, v) ← q.input name
  q.addAggregate how (some v)

def count (q : Query) : Build Query := q.addAggregate .count none

/-! ## Joins -/

/-- Defines a variable anew, reading the new variables in place of the old. -/
def renew (renamed : List (VarId × VarId)) (v : VarId) : Build (List (VarId × VarId)) := do
  match (← get).definition? v with
  | some d => do
      let w ← Build.define (d.mapVars fun u => (renamed.lookup u).getD u)
      return renamed ++ [(v, w)]
  | none => return renamed

/-- A copy of a query in which every variable it defines is a new one. In
ascending order a variable comes after those it reads. -/
def instantiate (q : Query) : Build Query := do
  let renamed ← (Ascending.ofList q.defines).foldlM renew []
  return q.mapVars fun u => (renamed.lookup u).getD u

/-- Turns an unfinished query into one that delivers a single row. -/
def keep (f : Filter) (q : Query) : Except Error Query :=
  match q.stage.shape with
  | .unfinished => .ok (q.withStage fun s => { s with shape := .filter f })
  | shape =>
      .error (.planning ("cannot apply " ++ f.text ++ " to a " ++ shape.name ++ " query"))

/-- What is joined for `other`: a copy if it shares variables with `q`. -/
def prepare (q other : Query) (filter : Option Filter) : Build Query := do
  let ours := q.defines
  let u ← if other.defines.any ours.contains then other.instantiate else pure other
  match filter with
  | some f => u.keep f
  | none => return u

def setJoin (q : Query) (aliasName : String) (u : Query) : Query :=
  .node q.stage (q.joins.insert aliasName u)

/-- Joins `other` as what happened before. -/
def join (q : Query) (aliasName : String) (other : Query) (filter : Option Filter) :
    Build Query := do
  q.requireAvailable aliasName
  let u ← q.prepare other filter
  return q.setJoin aliasName u

def joinTracepoint (q : Query) (aliasName : String) (t : Tracepoint) (filter : Option Filter) :
    Build Query :=
  q.join aliasName (.unnamed t) filter

/-- Joins `other` as what happened before the query joined as `via`. The alias
becomes a short name of `q`. -/
def joinVia (q : Query) (via aliasName : String) (other : Query) (filter : Option Filter) :
    Build Query := do
  q.requireAvailable aliasName
  match q.joins.find? via with
  | none => throw (.planning ("no upstream named '" ++ via ++ "' to join beneath"))
  | some existing => do
      let u ← q.prepare other filter
      let nested ← existing.join aliasName u none
      return (q.setJoin via nested).withStage fun s =>
        { s with shorts := s.shorts.insert aliasName (via ++ "." ++ aliasName) }

end CausalTrace.Query
