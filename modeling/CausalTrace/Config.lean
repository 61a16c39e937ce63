import CausalTrace.Error
import CausalTrace.Json.Decode

/-!
# Configuration
-/

namespace CausalTrace

structure Config where
  /-- Optimize queries before they are compiled. -/
  optimizeQueries : Bool
  /-- Without baggage no bag keeps or gives anything. -/
  baggageEnabled : Bool
  /-- Report intervals without rows. -/
  emitIfNoResults : Bool
  /-- The length of one reporting interval. -/
  reportIntervalMs : Nat
deriving DecidableEq, Repr

namespace Config

def default : Config := ⟨true, true, false, 1000⟩

/-- The value of a field, the default one if the field is missing. -/
def fieldOr {α : Type} (default : α) (read? : Json → Option α) : Option Json → Option α
  | some j => read? j
  | none => some default

/-- The configuration in a document; missing fields keep their defaults. -/
def ofJson? (j : Json) : Option Config := do
  match ← j.record?
      ["optimize_queries", "baggage_enabled", "emit_if_no_results", "report_interval_ms"] with
  | [o, b, e, i] =>
      return ⟨← fieldOr default.optimizeQueries Json.bool? o,
        ← fieldOr default.baggageEnabled Json.bool? b,
        ← fieldOr default.emitIfNoResults Json.bool? e,
        ← fieldOr default.reportIntervalMs (Json.nat? Json.bound64) i⟩
  | _ => none

/-- The configuration in the file of this name, given its text if there is one. -/
def ofFile (path : String) (text : Option String) : Except Error Config :=
  match text with
  | none => .error ⟨.io, path⟩
  | some text =>
      match (Json.parse text).bind ofJson? with
      | some c => .ok c
      | none => .error ⟨.config, path⟩

end Config

end CausalTrace
