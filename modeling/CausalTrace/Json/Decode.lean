import CausalTrace.Json.Number
import CausalTrace.Json.Parser

/-!
# Reading typed data out of documents

A record may be given as an object or as an array of its fields in order. Fields
nobody asked for are ignored, a field given twice is refused. A case of a sum is
its name, or an object with that name as its only key.
-/

namespace CausalTrace.Json

/-! ## Scalars -/

def bool? : Json → Option Bool
  | .bool b => some b
  | _ => none

def str? : Json → Option String
  | .str s => some s
  | _ => none

/-- What 64 bits cannot hold any more. -/
def bound64 : Nat := Number.pow2 64

/-- What 32 bits cannot hold any more. -/
def bound32 : Nat := Number.pow2 32

/-- A natural number below `bound`. -/
def nat? (bound : Nat) : Json → Option Nat
  | .number l => do
      let n ← integer? l
      if 0 ≤ n ∧ n.toNat < bound then some n.toNat else none
  | _ => none

def arr? : Json → Option (List Json)
  | .arr items => some items
  | _ => none

def list? {α : Type} (item? : Json → Option α) (j : Json) : Option (List α) := do
  (← j.arr?).mapM item?

/-! ## Records -/

/-- The value of a field that may be absent; a field given twice is refused. -/
def slot? (fields : List (String × Json)) (name : String) : Option (Option Json) :=
  match fields.filter fun f => f.1 == name with
  | [] => some none
  | [(_, j)] => some (some j)
  | _ => none

/-- The values of the named fields, in this order. -/
def record? (names : List String) : Json → Option (List (Option Json))
  | .obj fields => names.mapM (slot? fields)
  | .arr items =>
      if items.length ≤ names.length then
        some (items.map some ++ List.replicate (names.length - items.length) none)
      else none
  | _ => none

/-! ## Cases -/

/-- The name of a case and its contents, if it is given with any. -/
def case? : Json → Option (String × Option Json)
  | .str name => some (name, none)
  | .obj [(name, j)] => some (name, some j)
  | _ => none

/-- Whether the contents are those of a case that has none. -/
def isBare : Option Json → Bool
  | none => true
  | some .null => true
  | some _ => false

end CausalTrace.Json
