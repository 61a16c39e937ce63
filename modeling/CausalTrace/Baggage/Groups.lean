import CausalTrace.Spec.Kind
import CausalTrace.Value

/-!
# Groups

Rows are grouped by their first columns and the others are aggregated. A raw row
has operands there, a partial row has results of the same aggregations; partial
counts are added up. Groups stay in the order in which their keys were first seen.
-/

namespace CausalTrace

/-- The running aggregates of each key. -/
structure Groups where
  /-- The number of key columns. -/
  keys : Nat
  kinds : List Aggregation
  groups : List (Row × List Int64)
deriving DecidableEq

/-- The aggregate of two partial results; sums wrap around. -/
def Aggregation.combine (how : Aggregation) (a b : Int64) : Int64 :=
  match how with
  | .min => if a ≤ b then a else b
  | .max => if a ≤ b then b else a
  | .count => a + b
  | .sum => a + b

/-- What a column of one raw row contributes. A count is one whatever it holds. -/
def Aggregation.operand? (how : Aggregation) (v : Value) : Option Int64 :=
  match how with
  | .count => some 1
  | .sum => v.toInt64?
  | .min => v.toInt64?
  | .max => v.toInt64?

namespace Groups

def empty (keys : Nat) (kinds : List Aggregation) : Groups := ⟨keys, kinds, []⟩

/-- The contributions of the aggregated columns, if all have one. -/
def contributions? (read : Aggregation → Value → Option Int64) :
    List Aggregation → Row → Option (List Int64)
  | [], [] => some []
  | how :: kinds, v :: vs => do return (← read how v) :: (← contributions? read kinds vs)
  | _, _ => none

/-- Combines two lists of partial results column by column. -/
def combineAll : List Aggregation → List Int64 → List Int64 → List Int64
  | how :: kinds, a :: as, b :: bs => how.combine a b :: combineAll kinds as bs
  | _, as, _ => as

/-- Adds contributions to the group of a key. -/
def add (kinds : List Aggregation) (key : Row) (xs : List Int64) :
    List (Row × List Int64) → List (Row × List Int64)
  | [] => [(key, xs)]
  | (k, as) :: gs =>
      if k = key then (k, combineAll kinds as xs) :: gs else (k, as) :: add kinds key xs gs

/-- The groups with one more row, unless the row has the wrong number of columns
or a column contributes nothing. -/
def fold? (read : Aggregation → Value → Option Int64) (g : Groups) (row : Row) : Option Groups :=
  if row.length = g.keys + g.kinds.length then do
    let xs ← contributions? read g.kinds (row.drop g.keys)
    return { g with groups := add g.kinds (row.take g.keys) xs g.groups }
  else none

/-- The groups with one more raw row, if it is valid. -/
def addRaw? (g : Groups) (row : Row) : Option Groups := g.fold? Aggregation.operand? row

/-- The groups with one more partial row, if it is valid. -/
def addPartial? (g : Groups) (row : Row) : Option Groups := g.fold? (fun _ v => v.toInt64?) row

/-- Adds the valid ones of some raw rows, and says how many these are. -/
def observeAll (g : Groups) (rows : List Row) : Groups × Nat :=
  rows.foldl (fun (g, n) row =>
    match g.addRaw? row with
    | some g' => (g', n + 1)
    | none => (g, n)) (g, 0)

/-- Adds the valid ones of some partial rows. -/
def combineRows (g : Groups) (rows : List Row) : Groups :=
  rows.foldl (fun g row => (g.addPartial? row).getD g) g

/-- One partial row per group. -/
def rows (g : Groups) : List Row := g.groups.map fun (key, xs) => key ++ xs.map .int

end Groups

end CausalTrace
