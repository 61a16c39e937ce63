import CausalTrace.Query.Basic
import CausalTrace.Spec.Advice

/-!
# From queries to plans

Every stage becomes the plan of one place, the joined stages first. A joined
stage packs its rows into a bag named after its plan, and the stage that joins it
unpacks that bag; the root emits. Plans are compiled over variables, and then
every variable of a plan gets a name of its own.
-/

namespace CausalTrace

/-! ## Names within a plan -/

namespace BagSpec

/-- The columns in the order in which they get their names. -/
def mentions {ν : Type} : BagSpec ν → List ν
  | .tuple vars => vars
  | .filter _ vars => vars
  | .groupBy keys aggregates => aggregates.map (·.name) ++ keys

end BagSpec

namespace AdviceSpec

variable {ν μ : Type}

/-- All names of a plan in the order in which they are first given. -/
def mentions (p : AdviceSpec ν) : List ν :=
  p.observe ++ p.unpack.flatMap (·.bag.mentions)
    ++ p.lets.flatMap (fun l => l.name :: l.args)
    ++ p.wheres.flatMap (·.args)
    ++ p.output.bag.mentions

def rename (f : ν → μ) (p : AdviceSpec ν) : AdviceSpec μ where
  observe := p.observe.map f
  unpack := p.unpack.map fun u => ⟨u.bagId, u.bag.rename f⟩
  lets := p.lets.map fun l => ⟨f l.name, l.expr, l.args.map f⟩
  wheres := p.wheres.map fun w => ⟨w.expr, w.args.map f⟩
  output := match p.output with
    | .pack bagId bag => .pack bagId (bag.rename f)
    | .emit outputId bag => .emit outputId (bag.rename f)

end AdviceSpec

/-- The elements of a list without repetitions, by first occurrence. -/
def firstMentions {ν : Type} [DecidableEq ν] (vs : List ν) : List ν :=
  vs.foldl (fun seen v => if seen.contains v then seen else seen ++ [v]) []

/-- The name of a variable in a plan: its number among the variables mentioned,
which makes it unique, and its label. -/
def nameIn (a : Arena) (mentioned : List VarId) (v : VarId) : String :=
  Number.natText (mentioned.idxOf v) ++ "." ++ a.label v

/-! ## Bags of a stage -/

namespace Stage

/-- The keys of the bag a grouping stage packs: its own, then whatever else it
delivers. -/
def packedKeys (s : Stage) (keys : List VarId) (gs : List Aggregate) : List VarId :=
  keys ++ s.outputs.filter fun v => !keys.contains v && !gs.any (·.var == v)

/-- The aggregates a grouping stage packs: those it delivers. -/
def packedAggregates (s : Stage) (gs : List Aggregate) : List Aggregate :=
  gs.filter fun g => s.outputs.contains g.var

/-- The bag of a stage over the variables that unpacking it binds. -/
def unpackedBag (s : Stage) : BagSpec VarId :=
  match s.shape with
  | .unfinished => .tuple s.outputs
  | .select _ => .tuple s.outputs
  | .filter keep => .filter keep s.outputs
  | .group keys gs =>
      .groupBy (s.packedKeys keys gs) ((s.packedAggregates gs).map fun g => ⟨g.var, g.how⟩)

/-- The variable that fills the column of an aggregate. A count reads none. -/
def operand (g : Aggregate) : VarId :=
  match g.how, g.input with
  | .count, _ => g.var
  | _, none => g.var
  | _, some v => v

/-- The bag of a stage over the variables that packing it reads. -/
def packedBag (s : Stage) : BagSpec VarId :=
  match s.shape with
  | .unfinished => .tuple s.outputs
  | .select _ => .tuple s.outputs
  | .filter keep => .filter keep s.outputs
  | .group keys gs =>
      .groupBy (s.packedKeys keys gs) ((s.packedAggregates gs).map fun g => ⟨operand g, g.how⟩)

/-- The rows a root stage emits, over the variables they are read from. -/
def emittedBag (s : Stage) : BagSpec VarId :=
  match s.shape with
  | .unfinished => .tuple s.outputs
  | .select selected => .tuple selected
  | .filter keep => .filter keep s.outputs
  | .group keys gs => .groupBy keys (gs.map fun g => ⟨operand g, g.how⟩)

end Stage

/-- The names that have to be bound where a bag is filled; a count needs none. -/
def BagSpec.reads {ν : Type} : BagSpec ν → List ν
  | .tuple vars => vars
  | .filter _ vars => vars
  | .groupBy keys aggregates =>
      keys ++ (aggregates.filter (·.how != .count)).map (·.name)

/-! ## Lets in order -/

/-- The first element with a property, and the others. -/
def pickFirst {α : Type} (p : α → Bool) : List α → Option (α × List α)
  | [] => none
  | x :: xs => if p x then some (x, xs) else (pickFirst p xs).map fun (y, ys) => (y, x :: ys)

theorem length_of_pickFirst {α : Type} {p : α → Bool} {xs ys : List α} {y : α}
    (h : pickFirst p xs = some (y, ys)) : xs.length = ys.length + 1 := by
  induction xs generalizing ys with
  | nil => simp [pickFirst] at h
  | cons x xs ih =>
      unfold pickFirst at h
      split at h
      · cases h; rfl
      · cases hp : pickFirst p xs with
        | none => rw [hp] at h; cases h
        | some r =>
            rw [hp] at h
            cases h
            simp [ih hp]

/-- What is wrong with a let whose arguments are never bound. -/
def stuckLet (a : Arena) (place : String) (bound : List VarId) (v : VarId) : Error :=
  let missing := ((a.reads v).find? fun u => !bound.contains u).map a.label
  .planning ("let " ++ a.label v ++ " at " ++ place ++ " reads unresolved variable "
    ++ missing.getD "")

/-- The lets in an order in which every argument is bound before it is read:
always the first that is ready. -/
def orderLets (a : Arena) (place : String) (bound pending : List VarId) :
    Except Error (List (LetSpec VarId)) :=
  match pending with
  | [] => .ok []
  | stuck :: others =>
      match _picked : pickFirst (fun v => (a.reads v).all bound.contains) (stuck :: others) with
      | none => .error (stuckLet a place bound stuck)
      | some (v, rest) =>
          match a.definition? v with
          | some (.computed _ expr args) => do
              let ls ← orderLets a place (v :: bound) rest
              return ⟨v, expr, args⟩ :: ls
          | _ => .error (.planning (a.label v ++ " is constructed but is not a let"))
termination_by pending.length
decreasing_by
  have := length_of_pickFirst _picked
  simp only [List.length_cons] at this ⊢
  omega

/-! ## Stages -/

/-- Fails at the first variable that is read but not bound. -/
def requireBound (a : Arena) (reader place : String) (bound vs : List VarId) :
    Except Error Unit :=
  match vs.find? fun v => !bound.contains v with
  | some v =>
      .error (.planning (reader ++ " at " ++ place ++ " reads unresolved variable " ++ a.label v))
  | none => .ok ()

/-- The plan of one stage, given what it unpacks. -/
def planStage (a : Arena) (s : Stage) (unpack : List (UnpackSpec VarId)) (packAs : BagId)
    (pack : Bool) : Except Error (AdviceSpec VarId) := do
  let place := s.source.tracepoint.name
  let observe := s.observed.values
  let lets ← orderLets a place (observe ++ unpack.flatMap (·.bag.names)) (s.lets.map (·.2))
  let bound := observe ++ unpack.flatMap (·.bag.names) ++ s.lets.map (·.2)
  s.wheres.forM fun w => requireBound a ("where '" ++ w.expr ++ "'") place bound w.args
  let wheres := s.wheres.map fun w => ⟨w.expr, w.args⟩
  if pack then
    requireBound a "pack" place bound s.packedBag.reads
    return ⟨observe, unpack, lets, wheres, .pack packAs s.packedBag⟩
  else
    requireBound a "emit" place bound s.emittedBag.reads
    match s.shape with
    | .filter keep =>
        throw (.unsupported ("a " ++ keep.text ++ " filter stage cannot emit results"))
    | _ => return ⟨observe, unpack, lets, wheres, .emit packAs.query s.emittedBag⟩

/-- The weaves of one query: those of the joined queries, then that of its stage. -/
structure Compiled where
  joined : List WeaveSpec
  own : WeaveSpec

def Compiled.weaves (c : Compiled) : List WeaveSpec := c.joined ++ [c.own]

namespace Query

mutual

/-- Compiles a query whose weaves are numbered from `start`. -/
def compileFrom (a : Arena) (id : QueryId) (pack : Bool) (start : Nat) :
    Query → Except Error Compiled
  | .node s js => do
      let (joined, unpack) ← compileJoins a id start js
      let own : BagId := ⟨id, start + joined.length⟩
      let plan ← planStage a s unpack own pack
      return ⟨joined, ⟨own, s.source.tracepoint.name, s.observed.keys,
        plan.rename (nameIn a (firstMentions plan.mentions))⟩⟩

/-- Compiles joined queries; gives their weaves, and the bags to unpack. -/
def compileJoins (a : Arena) (id : QueryId) (start : Nat) :
    List (String × Query) → Except Error (List WeaveSpec × List (UnpackSpec VarId))
  | [] => .ok ([], [])
  | (_, u) :: js => do
      let c ← compileFrom a id true start u
      let (weaves, unpack) ← compileJoins a id (start + c.weaves.length) js
      return (c.weaves ++ weaves, ⟨c.own.adviceId, u.stage.unpackedBag⟩ :: unpack)

end

/-- Compiles a query under a number. -/
def compile (a : Arena) (id : QueryId) (q : Query) : Except Error QueryAdvice := do
  return ⟨id, (← q.compileFrom a id false 0).weaves⟩

end Query

/-- Hands out query numbers in order, from one. -/
structure Numbering where
  next : Nat
deriving DecidableEq, Repr

def Numbering.start : Numbering := ⟨1⟩

/-- The next query number; it is used up whatever becomes of the query. -/
def Numbering.take (n : Numbering) : QueryId × Numbering := (⟨n.next⟩, ⟨n.next + 1⟩)

end CausalTrace
