import CausalTrace.Error
import CausalTrace.Text.Blank

/-!
# Aggregations and filters
-/

namespace CausalTrace

/-- How a group makes one number of many rows. -/
inductive Aggregation where
  | count
  | sum
  | min
  | max
deriving DecidableEq, Repr

namespace Aggregation

/-- The aggregation that makes one result of partial results. -/
def combiner : Aggregation → Aggregation
  | .count => .sum
  | .sum => .sum
  | .min => .min
  | .max => .max

def text : Aggregation → String
  | .count => "COUNT"
  | .sum => "SUM"
  | .min => "MIN"
  | .max => "MAX"

def all : List Aggregation := [.count, .sum, .min, .max]

/-- The aggregation of this name, in any letter case. -/
def named (s : String) : Except Error Aggregation :=
  match all.find? (·.text == Text.upper s) with
  | some a => .ok a
  | none => .error (.parse ("unknown aggregation " ++ Text.upper s))

end Aggregation

/-- Which row a bag of one row keeps. -/
inductive Filter where
  | first
  | mostRecent
deriving DecidableEq, Repr

namespace Filter

def text : Filter → String
  | .first => "FIRST"
  | .mostRecent => "MOSTRECENT"

/-- The filter of this name, in any letter case. -/
def named (s : String) : Except Error Filter :=
  match Text.upper s with
  | "FIRST" => .ok .first
  | "MOSTRECENT" => .ok .mostRecent
  | "MOST_RECENT" => .ok .mostRecent
  | name => .error (.parse ("unknown filter " ++ name))

end Filter

end CausalTrace
