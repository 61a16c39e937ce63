import CausalTrace.Value
import CausalTrace.Json.Decode

/-!
# Values in documents

A value stands for itself in a document. Floats that no document can hold become
`null`, and an integer beyond 64 bits is read as a float.
-/

namespace CausalTrace.Value

def toJson : Value → Json
  | .null => .null
  | .bool b => .bool b
  | .int n => .int n.toInt
  | .float x =>
      match Number.Binary.ofFloat? x with
      | some b => .number (Number.Notation.document.literal b)
      | none => .null
  | .str s => .str s

def ofJson? : Json → Option Value
  | .null => some .null
  | .bool b => some (.bool b)
  | .number l => do
      match ← Json.numeric? l with
      | .float x => return .float x
      | .int n =>
          match Number.fit? n with
          | some i => return .int i
          | none => return .float (Float.ofInt n)
  | .str s => some (.str s)
  | .arr _ => none
  | .obj _ => none
  | .broken => none

end CausalTrace.Value
