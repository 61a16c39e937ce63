import CausalTrace.Spec.Id
import CausalTrace.Spec.Kind

/-!
# Execution plans

What a query compiles to: for each place it watches, a flat plan that observes
fields, takes rows out of bags, computes, tests, and packs or emits what is left.
Plans are written over any kind of names `ν`: variables while a query is compiled,
plain texts once it is.
-/

namespace CausalTrace

variable {ν μ : Type}

/-- One aggregate of a bag. The name is that of the operand where rows go in, and
that of the result where they come out. -/
structure AggregateSpec (ν : Type) where
  name : ν
  how : Aggregation
deriving DecidableEq, Repr

/-- How a bag keeps rows, and what their columns are. -/
inductive BagSpec (ν : Type) where
  /-- All rows. -/
  | tuple (vars : List ν)
  /-- One row. -/
  | filter (keep : Filter) (vars : List ν)
  /-- One row per key. -/
  | groupBy (keys : List ν) (aggregates : List (AggregateSpec ν))
deriving DecidableEq, Repr

namespace BagSpec

/-- The columns in row order: keys come before aggregates. -/
def names : BagSpec ν → List ν
  | .tuple vars => vars
  | .filter _ vars => vars
  | .groupBy keys aggregates => keys ++ aggregates.map (·.name)

/-- The number of columns. -/
def arity (b : BagSpec ν) : Nat := b.names.length

def rename (f : ν → μ) : BagSpec ν → BagSpec μ
  | .tuple vars => .tuple (vars.map f)
  | .filter keep vars => .filter keep (vars.map f)
  | .groupBy keys aggregates =>
      .groupBy (keys.map f) (aggregates.map fun a => ⟨f a.name, a.how⟩)

end BagSpec

/-- A name computed from others by a template. -/
structure LetSpec (ν : Type) where
  name : ν
  expr : String
  args : List ν
deriving DecidableEq, Repr

/-- A template that has to be true. -/
structure WhereSpec (ν : Type) where
  expr : String
  args : List ν
deriving DecidableEq, Repr

/-- The rows of a bag taken out under these names. -/
structure UnpackSpec (ν : Type) where
  bagId : BagId
  bag : BagSpec ν
deriving DecidableEq, Repr

/-- Where the surviving rows go. -/
inductive OutputSpec (ν : Type) where
  | pack (bagId : BagId) (bag : BagSpec ν)
  | emit (outputId : QueryId) (bag : BagSpec ν)
deriving DecidableEq, Repr

def OutputSpec.bag : OutputSpec ν → BagSpec ν
  | .pack _ bag => bag
  | .emit _ bag => bag

/-- The plan of one place. -/
structure AdviceSpec (ν : Type) where
  observe : List ν
  unpack : List (UnpackSpec ν)
  lets : List (LetSpec ν)
  wheres : List (WhereSpec ν)
  output : OutputSpec ν
deriving DecidableEq, Repr

/-- A plan and the place it is woven into; each field supplies the observed name
at the same position. -/
structure WeaveSpec where
  adviceId : BagId
  tracepoint : String
  fields : List String
  advice : AdviceSpec String
deriving DecidableEq, Repr

def WeaveSpec.emits (w : WeaveSpec) : Bool :=
  match w.advice.output with
  | .emit _ _ => true
  | .pack _ _ => false

/-- Everything one query compiles to, joined places first. -/
structure QueryAdvice where
  queryId : QueryId
  weaves : List WeaveSpec
deriving DecidableEq, Repr

/-- The weave that delivers the results. -/
def QueryAdvice.emitter? (q : QueryAdvice) : Option WeaveSpec := q.weaves.find? (·.emits)

end CausalTrace
