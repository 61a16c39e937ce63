import CausalTrace.Query.Basic

/-!
# From names to variables

A name used at a stage is a short name, a let, a field, or a path into a joined
query, in this order. What a path leads to has to be delivered by every stage on
its way, so resolving a name marks outputs and observes fields.
-/

namespace CausalTrace

/-! ## Building -/

/-- Steps that define variables and may fail. What is defined stays defined even
if a later step fails. -/
abbrev Build := ExceptT Error (StateM Arena)

namespace Build

def define (d : Definition) : Build VarId := do
  let (v, a) := (← get).define d
  set a
  return v

end Build

/-! ## Routes -/

/-- Where a name leads from a stage. -/
inductive Route where
  /-- To a let of the stage. -/
  | bound (v : VarId)
  /-- To a field of the watched tracepoint. -/
  | exported (field : String)
  /-- Into the query joined as `alias`, by the rest of the path. -/
  | joined (aliasName rest : String)
  | unknown (name : String)
deriving DecidableEq

namespace Stage

/-- Where a name leads without a hop. -/
def direct? (s : Stage) (name : String) : Option Route :=
  match s.let? name with
  | some v => some (.bound v)
  | none => (s.source.field? name).map .exported

/-- Where a name leads that uses no short name. -/
def plainRoute (s : Stage) (name : String) : Route :=
  match s.direct? name, Name.hop name with
  | some r, _ => r
  | none, some (aliasName, rest) => .joined aliasName rest
  | none, none => .unknown name

/-- Where a name leads. A short name stands for a path that starts with the alias
of a join, which is no short name, so one look is enough. -/
def route (s : Stage) (name : String) : Route :=
  match s.shorts.find? name with
  | some path => s.plainRoute path
  | none =>
      match s.direct? name, Name.hop name with
      | some r, _ => r
      | none, none => .unknown name
      | none, some (first, rest) =>
          match s.shorts.find? first with
          | some path => s.plainRoute (path ++ "." ++ rest)
          | none => .joined first rest

/-- The variable of a field, observed from now on. -/
def observe (s : Stage) (field : String) : Build (Stage × VarId) :=
  match s.observed.find? field with
  | some v => return (s, v)
  | none => do
      let v ← Build.define (.observed (s.source.aliasName.getD "") field)
      return ({ s with observed := s.observed.insert field v }, v)

end Stage

/-! ## Resolving -/

def unknownVariable (name : String) : Error :=
  .planning ("could not resolve variable '" ++ name ++ "'")

namespace Query

/-- Resolves a name for the stage that joins `q`, given how `q` resolves names for
itself. A selecting stage delivers what it selects; a grouping stage delivers its
keys and, by their own names, its aggregates. -/
def deliver (q : Query) (input : String → Build (Query × VarId)) (name : String) :
    Build (Query × VarId) :=
  match q.stage.shape with
  | .group keys aggregates =>
      match Name.aggregate? name with
      | some (how, operand) => do
          let (q, operand) ← match operand with
            | some operand => do
                let (q, v) ← input operand
                pure (q, some v)
            | none => pure (q, none)
          match aggregates.find? fun a => a.how == how && a.input == operand with
          | some a => return (q.withStage (·.deliverAlso a.var), a.var)
          | none =>
              throw (.planning ("'" ++ name ++ "' is not aggregated by the upstream query"))
      | none => do
          let (q, v) ← input name
          if keys.contains v then return (q.withStage (·.deliverAlso v), v)
          else throw (.planning ("'" ++ name ++ "' is not a group key of the upstream query"))
  | .select selected => do
      let (q, v) ← input name
      if selected.contains v then return (q.withStage (·.deliverAlso v), v)
      else throw (.planning ("'" ++ name ++ "' is not selected by the upstream query"))
  | .unfinished => do
      let (q, v) ← input name
      return (q.withStage (·.deliverAlso v), v)
  | .filter _ => do
      let (q, v) ← input name
      return (q.withStage (·.deliverAlso v), v)

mutual

/-- Resolves a name to a variable that the stage of `q` can read. -/
def input (name : String) : Query → Build (Query × VarId)
  | .node s js =>
      match s.route name with
      | .bound v => return (.node s js, v)
      | .exported field => do
          let (s, v) ← s.observe field
          return (.node s js, v)
      | .joined aliasName rest => do
          let (js, v) ← inputFrom aliasName rest js
          return (.node s js, v)
      | .unknown name => throw (unknownVariable name)

/-- Resolves the rest of a path in the query joined as `alias`. -/
def inputFrom (aliasName rest : String) :
    List (String × Query) → Build (List (String × Query) × VarId)
  | [] => throw (unknownVariable (aliasName ++ "." ++ rest))
  | (a, q) :: js =>
      if a = aliasName then do
        let (q, v) ← q.deliver (fun name => q.input name) rest
        return ((a, q) :: js, v)
      else do
        let (js, v) ← inputFrom aliasName rest js
        return ((a, q) :: js, v)

end

/-- Resolves a name for the stage that joins `q`. -/
def output (q : Query) (name : String) : Build (Query × VarId) :=
  q.deliver (fun name => q.input name) name

/-- Resolves names one after another. -/
def inputs (q : Query) : List String → Build (Query × List VarId)
  | [] => return (q, [])
  | name :: names => do
      let (q, v) ← q.input name
      let (q, vs) ← q.inputs names
      return (q, v :: vs)

end Query

end CausalTrace
