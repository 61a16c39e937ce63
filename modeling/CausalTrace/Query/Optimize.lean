import CausalTrace.Query.Basic

/-!
# Moving work to where its inputs are observed

Optimizing brings computation close to the places that observe its inputs. A let or
a condition moves into a joined stage that delivers everything it reads. A
grouping stage has its joined stages aggregate first and combines their partial
results. What nobody reads any more is no longer delivered.

Every step keeps the tree of joins. Variables keep their identity where they move;
partial results and products of counts are new variables.
-/

namespace CausalTrace

/-- Which kinds of work move. -/
structure Moves where
  lets : Bool
  wheres : Bool
  aggregates : Bool
deriving DecidableEq, Repr

def Moves.all : Moves := ⟨true, true, true⟩

/-- Steps that define variables and cannot fail. -/
abbrev Defining := StateM Arena

def Defining.define (d : Definition) : Defining VarId := do
  let (v, a) := (← get).define d
  set a
  return v

namespace Query

/-- Changes the query joined under an alias. -/
def updateJoin (aliasName : String) (f : Query → Query) : Query → Query
  | .node s js => .node s (js.map fun j => if j.1 = aliasName then (j.1, f j.2) else j)

/-! ## Lets -/

/-- Whether a stage delivers all variables that a let reads, and may compute. -/
def takesLet (u : Query) (args : List VarId) : Bool :=
  match u.stage.shape with
  | .unfinished => args.all u.stage.outputs.contains
  | .select _ => args.all u.stage.outputs.contains
  | .group _ _ => false
  | .filter _ => false

/-- The first joined stage that takes a let of this name. -/
def letTarget? (a : Arena) (js : List (String × Query)) (l : String × VarId) : Option String :=
  if (a.reads l.2).isEmpty then none
  else (js.find? fun j => (j.2.stage.let? l.1).isNone && j.2.takesLet (a.reads l.2)).map (·.1)

/-- The first let that some joined stage takes, and the alias of that stage. -/
def movableLet? (a : Arena) (q : Query) : Option ((String × VarId) × String) :=
  q.stage.lets.findSome? fun l => (letTarget? a q.joins l).map (l, ·)

/-- Moves a let into the stage joined under an alias, which delivers it if it is
still read here. -/
def moveLet (a : Arena) (q : Query) (l : String × VarId) (aliasName : String) : Query :=
  let q := q.withStage fun s => { s with lets := s.lets.filter (·.1 ≠ l.1) }
  let needed := (q.stage.needs a).contains l.2
  q.updateJoin aliasName fun u => u.withStage fun s =>
    { s with
      lets := s.lets ++ [l]
      outputs := if needed then s.outputs.insert l.2 else s.outputs }

/-- Moves one let, and says into which stage. -/
def pushOneLet (a : Arena) (q : Query) : Option (String × Query) :=
  (q.movableLet? a).map fun (l, aliasName) => (aliasName, q.moveLet a l aliasName)

/-! ## Conditions -/

/-- Whether a stage delivers all variables that a condition reads. A grouping
stage takes conditions on its keys, since its aggregates exist only afterwards. -/
def takesWhere (u : Query) (args : List VarId) : Bool :=
  match u.stage.shape with
  | .unfinished => args.all u.stage.outputs.contains
  | .select _ => args.all u.stage.outputs.contains
  | .group keys _ => args.all keys.contains
  | .filter _ => false

/-- The first joined stage that takes a condition. -/
def whereTarget? (js : List (String × Query)) (w : Condition) : Option String :=
  if w.args.isEmpty then none else (js.find? fun j => j.2.takesWhere w.args).map (·.1)

/-- The first condition that some joined stage takes, with the alias of that stage
and the conditions left. -/
def movableWhere? (js : List (String × Query)) :
    List Condition → Option (Condition × String × List Condition)
  | [] => none
  | w :: ws =>
      match whereTarget? js w with
      | some aliasName => some (w, aliasName, ws)
      | none => (movableWhere? js ws).map fun (v, aliasName, vs) => (v, aliasName, w :: vs)

/-- Moves one condition, and says into which stage. -/
def pushOneWhere (q : Query) : Option (String × Query) :=
  (movableWhere? q.joins q.stage.wheres).map fun (w, aliasName, ws) =>
    (aliasName, (q.withStage fun s => { s with wheres := ws }).updateJoin aliasName fun u =>
      u.withStage fun s => { s with wheres := s.wheres ++ [w] })

/-- Repeats a step while it applies, at most `n` times, and collects the aliases
of the stages it reached. -/
def exhaust (step : Query → Option (String × Query)) :
    Nat → Query → Ascending String → Query × Ascending String
  | 0, q, reached => (q, reached)
  | n + 1, q, reached =>
      match step q with
      | some (aliasName, q) => exhaust step n q (reached.insert aliasName)
      | none => (q, reached)

/-- Moves lets, then conditions, until none can move. Each step takes one away, so
their number bounds the steps. -/
def pushDown (m : Moves) (a : Arena) (q : Query) : Query × Ascending String :=
  let (q, reached) :=
    if m.lets then exhaust (pushOneLet a) q.stage.lets.length q [] else (q, [])
  if m.wheres then exhaust pushOneWhere q.stage.wheres.length q reached else (q, reached)

/-! ## Aggregates -/

/-- The aggregates of a grouping stage while one joined stage takes its share. -/
structure Sharing where
  /-- What the joined stage delivers. -/
  outputs : Ascending VarId
  /-- What the joined stage aggregates. -/
  partials : List Aggregate
  /-- What is left to aggregate here. -/
  combined : List Aggregate

/-- Splits an aggregate of a delivered variable: the joined stage aggregates it,
and the partial results are combined here. -/
def shareOne (kept delivered : List VarId) (s : Sharing) (g : Aggregate) : Defining Sharing :=
  match g.input with
  | some v =>
      if delivered.contains v then do
        let w ← Defining.define (.aggregated g.how (some v))
        let outputs := s.outputs.insert w
        return ⟨if kept.contains v then outputs else outputs.filter (· ≠ v),
          s.partials ++ [⟨w, g.how, some v⟩],
          s.combined ++ [⟨g.var, g.how.combiner, some w⟩]⟩
      else return { s with combined := s.combined ++ [g] }
  | none => return { s with combined := s.combined ++ [g] }

/-- What a grouping stage reads besides its keys and its operands. -/
def residue (a : Arena) (s : Stage) : List VarId :=
  s.lets.flatMap (fun l => a.reads l.2) ++ s.wheres.flatMap (·.args)

/-- Whether a joined stage can aggregate its share: it must not keep one row or
group already, and the results must not be read here. -/
def takesShare (residual : List VarId) (gs : List Aggregate) (u : Query) : Bool :=
  match u.stage.shape with
  | .group _ _ => false
  | .filter _ => false
  | .unfinished => free u
  | .select _ => free u
where
  free (u : Query) : Bool :=
    gs.all fun g => !(g.input.any u.stage.outputs.contains && residual.contains g.var)

/-- The joined stage with its share of the aggregates, and what is left of them. -/
def share (keys residual : List VarId) (gs : List Aggregate) (u : Query) :
    Defining (Query × List Aggregate) := do
  let delivered := u.stage.outputs
  let s ← gs.foldlM (shareOne (residual ++ keys) delivered) ⟨delivered, [], []⟩
  let u := u.withStage fun t =>
    { t with outputs := s.outputs, shape := .group (keys.filter delivered.contains) s.partials }
  return (u, s.combined)

/-- Goes through the joined stages; gives those that took a share, by alias, and
what is left of the aggregates. -/
def shareAll (keys residual : List VarId) (gs : List Aggregate) :
    List (String × Query) → Defining (List (String × Query) × List Aggregate)
  | [] => return ([], gs)
  | (aliasName, u) :: js =>
      if takesShare residual gs u then do
        let (u, gs) ← share keys residual gs u
        let (shared, gs) ← shareAll keys residual gs js
        return ((aliasName, u) :: shared, gs)
      else shareAll keys residual gs js

/-- Has a joined stage count its rows. -/
def countRows : String × Query → Defining ((String × Query) × VarId)
  | (aliasName, u) => do
      let v ← Defining.define (.aggregated .count none)
      let u := u.withStage fun s =>
        { s with
          outputs := s.outputs.insert v
          shape := match s.shape with
            | .group keys gs => .group keys (gs ++ [⟨v, .count, none⟩])
            | shape => shape }
      return ((aliasName, u), v)

/-- The first of `base`, `base_1`, `base_2`, … that may name a new variable. Each
of them can be taken only by a let, a join, a short name or a field. -/
def freshName (q : Query) (base : String) : String :=
  let s := q.stage
  let taken := s.lets.length + q.joins.length + s.shorts.length
    + s.source.tracepoint.exports.length + 1
  let candidates := base :: (List.range taken).map fun n =>
    base ++ "_" ++ Number.natText (n + 1)
  (candidates.find? q.isAvailable).getD base

/-- A template that multiplies `n` counts. -/
def productExpr (n : Nat) : String := "1" ++ String.join (List.replicate n "*\x7b\x7d")

/-- Turns a count of rows into the sum of products of the counts of the joined
stages. -/
def countOne (q : Query) (shared : List (String × Query)) (g : Aggregate) :
    Defining (Query × List (String × Query) × Aggregate) :=
  match g.how, g.input with
  | .count, none => do
      let counted ← shared.mapM countRows
      let counts := counted.map (·.2)
      let name := q.freshName "counts"
      let product ← Defining.define (.computed name (productExpr counts.length) counts)
      let q := q.withStage fun s => { s with lets := s.lets ++ [(name, product)] }
      return (q, counted.map (·.1), ⟨g.var, .sum, some product⟩)
  | _, _ => return (q, shared, g)

def countAll (q : Query) (shared : List (String × Query)) :
    List Aggregate → Defining (Query × List (String × Query) × List Aggregate)
  | [] => return (q, shared, [])
  | g :: gs => do
      let (q, shared, g) ← countOne q shared g
      let (q, shared, gs) ← countAll q shared gs
      return (q, shared, g :: gs)

/-- Has the joined stages of a grouping stage aggregate first; what they have
become is optimized by `again`. -/
def pushAggregates (again : Query → Defining Query) (q : Query) : Defining Query :=
  match q.stage.shape with
  | .group keys gs => do
      let residual := residue (← get) q.stage
      let (shared, gs) ← shareAll keys residual gs q.joins
      let (q, shared, gs) ←
        if shared.isEmpty then pure (q, shared, gs) else countAll q shared gs
      let q := q.withStage fun s => { s with shape := .group keys gs }
      shared.foldlM (fun q (aliasName, u) => do
        let u ← again u
        return q.updateJoin aliasName fun _ => u) q
  | .unfinished => return q
  | .select _ => return q
  | .filter _ => return q

/-! ## Outputs nobody reads -/

mutual

/-- Leaves out the outputs that are not `needed`; if there are any, the stages
joined below may owe less as well. -/
def pruneTo (a : Arena) (needed : List VarId) : Query → Query
  | .node s js =>
      if s.outputs.all needed.contains then .node s js
      else
        let s := { s with outputs := s.outputs.filter needed.contains }
        .node s (pruneJoins a (s.needs a) js)

def pruneJoins (a : Arena) (needed : List VarId) : List (String × Query) → List (String × Query)
  | [] => []
  | (aliasName, u) :: js => (aliasName, u.pruneTo a needed) :: pruneJoins a needed js

end

/-- Leaves out the outputs of joined stages that nobody reads. -/
def prune (a : Arena) : Query → Query
  | .node s js => .node s (pruneJoins a (s.needs a) js)

/-! ## All moves -/

mutual

/-- The number of stages on the longest path. -/
def depth : Query → Nat
  | .node _ js => joinsDepth js + 1

def joinsDepth : List (String × Query) → Nat
  | [] => 0
  | (_, q) :: js => max q.depth (joinsDepth js)

end

/-- Optimizes a query of at most `n` levels: the joined queries first, then lets
and conditions move into them, those they moved into once more, and then the
aggregates. -/
def optimizeWithin (m : Moves) : Nat → Query → Defining Query
  | 0, q => return q
  | n + 1, .node s js => do
      let js ← js.mapM fun (aliasName, u) => do return (aliasName, ← optimizeWithin m n u)
      let (q, reached) := pushDown m (← get) (.node s js)
      let q ← reached.foldlM (fun q aliasName => do
        match q.joins.find? aliasName with
        | some u => do
            let u ← optimizeWithin m n u
            return q.updateJoin aliasName fun _ => u
        | none => return q) q
      let q ← if m.aggregates then pushAggregates (optimizeWithin m n) q else pure q
      return q.prune (← get)

/-- The query with all work of the chosen kinds moved. -/
def optimize (m : Moves) (q : Query) : Defining Query := optimizeWithin m q.depth q

end Query

end CausalTrace
