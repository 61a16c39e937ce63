import CausalTrace.Baggage.Bag
import CausalTrace.Emit
import CausalTrace.Template

/-!
# Running plans

Before a plan runs, every name in it is resolved to a place in a row. One run
then combines the observed values with the rows of every unpacked bag, computes
the lets and tests the conditions row by row, and delivers what is left. A run
never fails: a row that cannot be computed is dropped.
-/

namespace CausalTrace

/-! ## Resolved plans -/

/-- A template with the places of its arguments. One that is no template at all
has no value on any row. -/
structure BoundTemplate where
  template : Except Template.ParseError Template
  args : List Nat

/-- A bag with the number of columns its rows must have. -/
structure Unpacking where
  bag : Bag
  columns : Nat

inductive Target where
  | pack (bag : Bag)
  | emit (sink : SinkRef)

/-- A plan whose names are resolved. A row holds the observed values, then the
columns of the unpacked bags, then one value for each let. -/
structure Advice where
  spec : AdviceSpec String
  unpacks : List Unpacking
  lets : List BoundTemplate
  wheres : List BoundTemplate
  /-- The places of the delivered values; a count may have none. -/
  projection : List (Option Nat)
  target : Target

namespace Advice

/-! ## Resolving -/

/-- Binds one more name to the next place. -/
def bind (bound : List String) (name : String) : Except Error (List String) :=
  if bound.contains name then .error (.advice ("'" ++ name ++ "' is bound twice"))
  else .ok (bound ++ [name])

def place (bound : List String) (reader name : String) : Except Error Nat :=
  match bound.idxOf? name with
  | some i => .ok i
  | none => .error (.advice (reader ++ " references unbound '" ++ name ++ "'"))

/-- Resolves the lets in order, each of which binds a name. -/
def bindLets (bound : List String) :
    List (LetSpec String) → Except Error (List String × List BoundTemplate)
  | [] => .ok (bound, [])
  | l :: ls => do
      let args ← l.args.mapM (place bound ("let " ++ l.name))
      let bound ← bind bound l.name
      let (bound, ts) ← bindLets bound ls
      return (bound, ⟨Template.parse l.expr, args⟩ :: ts)

def bindWhere (bound : List String) (w : WhereSpec String) : Except Error BoundTemplate := do
  return ⟨Template.parse w.expr, ← w.args.mapM (place bound ("where " ++ w.expr))⟩

/-- The places of the values a bag receives. The operand of a count need not be
bound; it is delivered as null. -/
def project (bound : List String) (reader : String) :
    BagSpec String → Except Error (List (Option Nat))
  | .tuple vars => vars.mapM fun v => do return some (← place bound reader v)
  | .filter _ vars => vars.mapM fun v => do return some (← place bound reader v)
  | .groupBy keys aggregates => do
      let ks ← keys.mapM fun v => do return some (← place bound reader v)
      let gs ← aggregates.mapM fun a =>
        match a.how with
        | .count => pure (bound.idxOf? a.name)
        | _ => do return some (← place bound reader a.name)
      return ks ++ gs

/-- Resolves a plan and makes its sink if it emits. Fails if a name is bound twice
or read without being bound, and then makes no sink. -/
def create (spec : AdviceSpec String) (sinks : Sinks) (baggageEnabled : Bool) :
    Except Error (Advice × Sinks) := do
  let bound ← spec.observe.foldlM bind []
  let bound ← (spec.unpack.flatMap (·.bag.names)).foldlM bind bound
  let unpacks := spec.unpack.map fun u =>
    ⟨Bag.create u.bagId u.bag baggageEnabled, u.bag.arity⟩
  let (bound, lets) ← bindLets bound spec.lets
  let wheres ← spec.wheres.mapM (bindWhere bound)
  match spec.output with
  | .pack bagId bag =>
      let projection ← project bound "pack" bag
      return (⟨spec, unpacks, lets, wheres, projection,
        .pack (Bag.create bagId bag baggageEnabled)⟩, sinks)
  | .emit outputId bag =>
      let projection ← project bound "emit" bag
      let (sink, sinks) := sinks.create outputId bag
      return (⟨spec, unpacks, lets, wheres, projection, .emit sink⟩, sinks)

/-! ## Running -/

/-- The fate of the rows of one run. -/
structure Stats where
  /-- Rows formed from observed and unpacked values. -/
  rowsIn : Nat
  /-- Rows without a value for a let or not passing a condition. -/
  dropped : Nat
  /-- Rows that the bag or the sink kept. -/
  rowsOut : Nat
deriving DecidableEq, Repr

/-- All ways to take one row out of each bag, side by side; the first bag varies
fastest. -/
def combinations : List (List Row) → List Row
  | [] => [[]]
  | rows :: bags => (combinations bags).flatMap fun right => rows.map (· ++ right)

/-- The first `n` values; those that are missing are null. -/
def padded (n : Nat) (r : Row) : Row := (r ++ List.replicate n Value.null).take n

end Advice

namespace BoundTemplate

/-- The value on a row, if there is one. -/
def value? (t : BoundTemplate) (row : Row) : Option Value :=
  match t.template with
  | .ok template => (template.eval (t.args.map (row.getD · Value.null))).toOption
  | .error _ => none

/-- Whether the template is true of a row. -/
def holds (t : BoundTemplate) (row : Row) : Bool := t.value? row == some (.bool true)

end BoundTemplate

namespace Advice

/-- The row with the values of the lets, if all have one. -/
def computeLets (lets : List BoundTemplate) (row : Row) : Option Row :=
  lets.foldlM (fun row t => (t.value? row).map fun v => row ++ [v]) row

/-- What a row delivers, if it gets through. -/
def deliver? (a : Advice) (row : Row) : Option Row := do
  let row ← computeLets a.lets row
  if a.wheres.all (·.holds row) then
    return a.projection.map fun p => (p.map (row.getD · Value.null)).getD .null
  else none

/-- The rows a run starts with. -/
def candidates (a : Advice) (b : Baggage) (observed : Row) : List Row :=
  let bags := a.unpacks.map fun u => (u.bag.unpack b).filter (·.length == u.columns)
  (combinations bags).map (padded a.spec.observe.length observed ++ ·)

/-- One run. `version` is that of the entry it may write. -/
def run (a : Advice) (version : UInt64) (sinks : Sinks) (b : Baggage) (observed : Row) :
    Stats × Sinks × Baggage :=
  let rows := a.candidates b observed
  let survivors := rows.filterMap a.deliver?
  let dropped := rows.length - survivors.length
  if survivors.isEmpty then (⟨rows.length, dropped, 0⟩, sinks, b)
  else
    match a.target with
    | .pack bag =>
        let (b, kept) := bag.pack version b survivors
        (⟨rows.length, dropped, kept⟩, sinks, b)
    | .emit sink =>
        let (sinks, kept) := sinks.emit sink survivors
        (⟨rows.length, dropped, kept⟩, sinks, b)

end Advice

end CausalTrace
