import CausalTrace.Engine

/-!
# Interpreting queries

What a query means, read off its tree without plans, names or bags. A stage sees
bindings of variables: the observed fields, beside one binding from each joined
stage. Bindings that get a value for every let and pass the conditions arrive at
the stage, and the stage delivers them according to its shape.

The passes of a request are listed with the latest first, so what arrived before
a pass is what arrives over the tail of the list.
-/

namespace CausalTrace

/-! ## Bindings -/

/-- The values of some variables. -/
abbrev Binding := VarId → Option Value

namespace Binding

def empty : Binding := fun _ => none

/-- The value of a variable; an unbound one is null. -/
def get (env : Binding) (v : VarId) : Value := (env v).getD .null

def row (env : Binding) (vs : List VarId) : Row := vs.map env.get

def set (env : Binding) (v : VarId) (x : Value) : Binding :=
  fun u => if u = v then some x else env u

/-- Two bindings side by side; of a variable that both bind the first value counts. -/
def beside (env other : Binding) : Binding := fun v => (env v).or (other v)

/-- The columns of a row under the names of variables. -/
def ofRow (vs : List VarId) (r : Row) : Binding := fun v => (vs.zip r).lookup v

end Binding

/-- All ways to take one binding from each list; the first list varies fastest. -/
def meetings : List (List Binding) → List Binding
  | [] => [.empty]
  | envs :: others => (meetings others).flatMap fun right => envs.map (·.beside right)

/-! ## Templates over bindings -/

/-- The value of the template that a text spells, if it spells one and has a value. -/
def Template.value? (expr : String) (args : Row) : Option Value :=
  match Template.parse expr with
  | .ok t => (t.eval args).toOption
  | .error _ => none

/-- The value of a computed variable. -/
def Arena.evaluate? (a : Arena) (env : Binding) (v : VarId) : Option Value :=
  match a.definition? v with
  | some (.computed _ expr args) => Template.value? expr (env.row args)
  | _ => none

/-- The binding with the value of one more let. -/
def Binding.compute (a : Arena) (env : Binding) (v : VarId) : Option Binding :=
  (a.evaluate? env v).map (env.set v)

def Condition.holds (env : Binding) (w : Condition) : Bool :=
  Template.value? w.expr (env.row w.args) == some (.bool true)

/-! ## Passes -/

/-- A request passes a tracepoint. -/
structure Pass where
  surroundings : Surroundings
  tracepoint : String
  fields : Table String Value

/-- The value of a field: the given one, else a supplied one, else null. -/
def Pass.value (p : Pass) (field : String) : Value :=
  ((p.fields.find? field).or (p.surroundings.supply? field)).getD .null

/-! ## Stages -/

/-- What an aggregate takes from a binding. A count takes nothing. -/
def Aggregate.operandIn (env : Binding) (g : Aggregate) : Value :=
  match g.how, g.input with
  | .count, _ => .null
  | _, some v => env.get v
  | _, none => .null

/-- What a group takes from a binding: its keys, then the operands. -/
def groupingRow (keys : List VarId) (gs : List Aggregate) (env : Binding) : Row :=
  env.row keys ++ gs.map (·.operandIn env)

/-- One row per group, in the order in which the keys first came up. -/
def groupedRows (keys : List VarId) (gs : List Aggregate) (envs : List Binding) : List Row :=
  ((Groups.empty keys.length (gs.map (·.how))).observeAll
    (envs.map (groupingRow keys gs))).1.rows

namespace Stage

def observedOn (s : Stage) (p : Pass) : Binding :=
  .ofRow s.observed.values (s.observed.keys.map p.value)

/-- Evaluates the lets, in ascending order a let after those it reads, and then
tests the conditions. -/
def arrive (a : Arena) (s : Stage) (env : Binding) : Option Binding := do
  let env ← (Ascending.ofList (s.lets.map (·.2))).foldlM (Binding.compute a) env
  if s.wheres.all (·.holds env) then some env else none

/-- What a stage gives to the one that joins it, of all that arrived. -/
def delivered (s : Stage) (envs : List Binding) : List Binding :=
  match s.shape with
  | .unfinished => envs
  | .select _ => envs
  | .filter .first => envs.head?.toList
  | .filter .mostRecent => envs.getLast?.toList
  | .group keys gs =>
      let keys := s.packedKeys keys gs
      let gs := s.packedAggregates gs
      (groupedRows keys gs envs).map (.ofRow (keys ++ gs.map (·.var)))

/-- What arrives in one pass, given what the joined stages deliver after it. -/
def arrivalsIn (a : Arena) (s : Stage) (joined : List (List Binding)) (p : Pass) :
    List Binding :=
  if p.tracepoint = s.source.tracepoint.name then
    (meetings joined).filterMap fun env => s.arrive a ((s.observedOn p).beside env)
  else []

/-- All that arrives over some passes, in order of arrival. -/
def arrivals (a : Arena) (s : Stage) (joined : List Pass → List (List Binding)) :
    List Pass → List Binding
  | [] => []
  | p :: past => s.arrivals a joined past ++ s.arrivalsIn a (joined (p :: past)) p

/-- The row that a root stage makes of a binding. -/
def resultRow (s : Stage) (env : Binding) : Row :=
  match s.shape with
  | .unfinished => env.row s.outputs
  | .select selected => env.row selected
  | .filter _ => env.row s.outputs
  | .group keys gs => groupingRow keys gs env

end Stage

/-! ## Trees -/

namespace Query

mutual

/-- All that arrives at the stage of a query over some passes. -/
def arrivals (a : Arena) : Query → List Pass → List Binding
  | .node s js => s.arrivals a (joinsDeliver a js)

/-- What each joined stage delivers after some passes. -/
def joinsDeliver (a : Arena) : List (String × Query) → List Pass → List (List Binding)
  | [], _ => []
  | (_, u) :: js, passes =>
      u.stage.delivered (u.arrivals a passes) :: joinsDeliver a js passes

end

/-- The rows that a query results in over some passes. -/
def results (a : Arena) (q : Query) (passes : List Pass) : List Row :=
  (q.arrivals a passes).map q.stage.resultRow

end Query

end CausalTrace
