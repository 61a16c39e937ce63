import CausalTrace.Number.Numeral
import CausalTrace.Spec.Kind

/-!
# Variables

A variable is its place in the arena that holds the definitions: two lets of one
name and template are two variables. Definitions are only ever added, and read
variables that were defined before them.
-/

namespace CausalTrace

structure VarId where
  index : Nat
deriving DecidableEq, Repr, Ord

def VarId.text (v : VarId) : String := "v" ++ Number.natText v.index

/-- What a variable stands for. -/
inductive Definition where
  /-- A field of the place that a stage watches. -/
  | observed (source field : String)
  /-- A value computed from other variables by a template. -/
  | computed (name expr : String) (args : List VarId)
  /-- The result of an aggregation; a count may have no operand. -/
  | aggregated (how : Aggregation) (input : Option VarId)
deriving DecidableEq, Repr

namespace Definition

/-- The variables a definition reads. -/
def reads : Definition → List VarId
  | .observed _ _ => []
  | .computed _ _ args => args
  | .aggregated _ input => input.toList

def mapVars (f : VarId → VarId) : Definition → Definition
  | .observed source field => .observed source field
  | .computed name expr args => .computed name expr (args.map f)
  | .aggregated how input => .aggregated how (input.map f)

/-- The label of a definition over those of the variables it reads. -/
def label (labelOf : VarId → String) : Definition → String
  | .observed _ field => field
  | .computed name _ _ => name
  | .aggregated how none => how.text
  | .aggregated how (some v) => how.text ++ "(" ++ labelOf v ++ ")"

end Definition

/-- The definitions in order of their variables. -/
structure Arena where
  defs : List Definition
deriving DecidableEq, Repr

namespace Arena

def empty : Arena := ⟨[]⟩

def define (a : Arena) (d : Definition) : VarId × Arena := (⟨a.defs.length⟩, ⟨a.defs ++ [d]⟩)

def definition? (a : Arena) (v : VarId) : Option Definition := a.defs[v.index]?

/-- The variables a variable reads. -/
def reads (a : Arena) (v : VarId) : List VarId :=
  match a.definition? v with
  | some d => d.reads
  | none => []

/-- The labels of all variables, each from the labels before it. -/
def labels (a : Arena) : List String :=
  a.defs.foldl (fun ls d => ls ++ [d.label fun v => ls.getD v.index ""]) []

/-- A short name for people; different variables may share one. -/
def label (a : Arena) (v : VarId) : String := a.labels.getD v.index ""

end Arena

end CausalTrace
