import CausalTrace.Query.Name
import CausalTrace.Query.Tracepoint
import CausalTrace.Query.Variable
import CausalTrace.Table

/-!
# Queries

A query is a tree of stages. A stage watches one tracepoint, computes variables
and tests conditions there, and joins what other stages saw before: every joined
stage happened before the one that joins it.
-/

namespace CausalTrace

/-! ## Stages -/

/-- The tracepoint a stage watches. With an alias its fields are addressed as
`alias.field`, otherwise by their own names. -/
structure Source where
  aliasName : Option String
  tracepoint : Tracepoint
deriving DecidableEq, Repr

namespace Source

/-- The field that a name of the query addresses. -/
def field? (s : Source) (name : String) : Option String :=
  match s.aliasName with
  | some aliasName => do
      let (left, right) ← Name.hop name
      if left = aliasName ∧ s.tracepoint.exports.contains right then some right else none
  | none => if s.tracepoint.exports.contains name then some name else none

/-- The field that a name is taken to address, exported or not. -/
def fieldOf (s : Source) (name : String) : String :=
  match s.aliasName, Name.hop name with
  | some _, some (_, right) => right
  | _, _ => name

/-- The name of a field in the query. -/
def nameOf (s : Source) (field : String) : String :=
  match s.aliasName with
  | some aliasName => aliasName ++ "." ++ field
  | none => field

/-- Whether a declaration of this name leaves the fields in sight. -/
def leavesFree (s : Source) (name : String) : Bool :=
  match s.aliasName with
  | some aliasName => name != aliasName
  | none => !s.tracepoint.exports.contains name

end Source

/-- A template that has to be true of its arguments. -/
structure Condition where
  expr : String
  args : List VarId
deriving DecidableEq, Repr

/-- One aggregate of a grouping stage. Downstream stages see `var`; `input` is
what this stage aggregates. -/
structure Aggregate where
  var : VarId
  how : Aggregation
  input : Option VarId
deriving DecidableEq, Repr

/-- What a stage does with the rows that pass its conditions. -/
inductive Shape where
  /-- Nothing is decided yet. -/
  | unfinished
  | select (selected : List VarId)
  | group (keys : List VarId) (aggregates : List Aggregate)
  /-- Keeps one row for the stage that joins it. -/
  | filter (keep : Filter)
deriving DecidableEq, Repr

namespace Shape

def name : Shape → String
  | .unfinished => "Partial"
  | .select _ => "Select"
  | .group _ _ => "GroupBy"
  | .filter _ => "Filter"

/-- The variables a shape reads. -/
def reads : Shape → List VarId
  | .unfinished => []
  | .select selected => selected
  | .group keys aggregates => keys ++ aggregates.filterMap (·.input)
  | .filter _ => []

/-- The variables a shape defines. -/
def defines : Shape → List VarId
  | .group _ aggregates => aggregates.map (·.var)
  | .unfinished => []
  | .select _ => []
  | .filter _ => []

def mapVars (f : VarId → VarId) : Shape → Shape
  | .unfinished => .unfinished
  | .select selected => .select (selected.map f)
  | .group keys aggregates =>
      .group (keys.map f) (aggregates.map fun a => ⟨f a.var, a.how, a.input.map f⟩)
  | .filter keep => .filter keep

end Shape

structure Stage where
  source : Source
  /-- The observed variable of each field in use. -/
  observed : Table String VarId
  /-- Paths that go by a short name. -/
  shorts : Table String String
  /-- Computed variables in order of construction. -/
  lets : List (String × VarId)
  wheres : List Condition
  /-- What the stage delivers to the one that joins it, or as results. -/
  outputs : Ascending VarId
  shape : Shape
deriving DecidableEq, Repr

namespace Stage

/-- A stage that only watches. -/
def watch (source : Source) : Stage := ⟨source, [], [], [], [], [], .unfinished⟩

def let? (s : Stage) (name : String) : Option VarId := s.lets.lookup name

/-- The variables a stage defines itself. -/
def defines (s : Stage) : List VarId :=
  s.observed.values ++ s.lets.map (·.2) ++ s.shape.defines

/-- The variables a stage reads or has to deliver. -/
def needs (a : Arena) (s : Stage) : List VarId :=
  s.outputs ++ s.lets.flatMap (fun l => a.reads l.2) ++ s.wheres.flatMap (·.args)
    ++ s.shape.reads

def mapVars (f : VarId → VarId) (s : Stage) : Stage where
  source := s.source
  observed := s.observed.mapValues f
  shorts := s.shorts
  lets := s.lets.map fun l => (l.1, f l.2)
  wheres := s.wheres.map fun w => ⟨w.expr, w.args.map f⟩
  outputs := .ofList (s.outputs.map f)
  shape := s.shape.mapVars f

def deliverAlso (s : Stage) (v : VarId) : Stage := { s with outputs := s.outputs.insert v }

end Stage

/-! ## Trees -/

/-- A stage with the queries it joins, by ascending alias. -/
inductive Query where
  | node (stage : Stage) (joins : List (String × Query))

namespace Query

mutual

/-- Whether two queries are the same can be decided. -/
def decEq : (q r : Query) → Decidable (q = r)
  | .node s js, .node t ks =>
      have := decEqJoins js ks
      decidable_of_iff (s = t ∧ js = ks)
        ⟨fun h => by rw [h.1, h.2], fun h => by cases h; exact ⟨rfl, rfl⟩⟩

def decEqJoins : (js ks : List (String × Query)) → Decidable (js = ks)
  | [], [] => isTrue rfl
  | [], _ :: _ => isFalse nofun
  | _ :: _, [] => isFalse nofun
  | (a, q) :: js, (b, r) :: ks =>
      have := decEq q r
      have := decEqJoins js ks
      decidable_of_iff (a = b ∧ q = r ∧ js = ks)
        ⟨fun h => by rw [h.1, h.2.1, h.2.2], fun h => by cases h; exact ⟨rfl, rfl, rfl⟩⟩

end

instance : DecidableEq Query := decEq

def stage : Query → Stage
  | .node s _ => s

def joins : Query → Table String Query
  | .node _ js => js

def withStage (f : Stage → Stage) : Query → Query
  | .node s js => .node (f s) js

def watch (source : Source) : Query := .node (.watch source) []

mutual

/-- The variables defined anywhere in a query. -/
def defines : Query → List VarId
  | .node s js => s.defines ++ joinsDefine js

def joinsDefine : List (String × Query) → List VarId
  | [] => []
  | (_, q) :: js => q.defines ++ joinsDefine js

end

mutual

def mapVars (f : VarId → VarId) : Query → Query
  | .node s js => .node (s.mapVars f) (mapJoins f js)

def mapJoins (f : VarId → VarId) : List (String × Query) → List (String × Query)
  | [] => []
  | (a, q) :: js => (a, q.mapVars f) :: mapJoins f js

end

/-- Whether a new variable or alias may have this name. -/
def isAvailable (q : Query) (name : String) : Bool :=
  Name.isValid name && (q.stage.let? name).isNone && !q.joins.contains name
    && !q.stage.shorts.contains name && q.stage.source.leavesFree name

end Query

end CausalTrace
