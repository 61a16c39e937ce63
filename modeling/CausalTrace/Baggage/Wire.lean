import CausalTrace.Baggage.Basic
import CausalTrace.Spec.Json
import CausalTrace.Value.Json

/-!
# Baggage on the wire

Baggage is sent as an array with one record per bag; a generation without entries
is left out. Whatever comes in is gathered into proper form first.
-/

namespace CausalTrace

def Row.toJson (r : Row) : Json := .arr (r.map Value.toJson)

def Row.ofJson? (j : Json) : Option Row := j.list? Value.ofJson?

namespace Entry

def toJson (e : Entry) : Json :=
  .obj [("clock", .nat e.clock), ("version", .nat e.version.toNat),
    ("rows", .arr (e.rows.map Row.toJson))]

def ofJson? (j : Json) : Option Entry := do
  match ← j.record? ["clock", "version", "rows"] with
  | [some c, some v, some rs] =>
      return ⟨← c.nat? Json.bound64, UInt64.ofNat (← v.nat? Json.bound64), ← rs.list? Row.ofJson?⟩
  | _ => none

/-- A generation that may be left out. -/
def listOfJson? : Option Json → Option (List Entry)
  | none => some []
  | some j => j.list? ofJson?

end Entry

namespace Baggage

/-- The field of one generation, if it has entries. -/
def generationJson (name : String) (es : List Entry) : List (String × Json) :=
  if es.isEmpty then [] else [(name, .arr (es.map Entry.toJson))]

def bagJson (b : Baggage) (id : BagId) : Json :=
  .obj (("bag", id.toJson) :: generationJson "active" (b.activeEntries id)
    ++ generationJson "archive" (b.archivedEntries id))

def toJson (b : Baggage) : Json := .arr (b.bagIds.map b.bagJson)

/-- The text that is sent. -/
def toWire (b : Baggage) : String := b.toJson.render

/-- One record of the wire form: a bag with its active and archived entries. -/
def bagOfJson? (j : Json) : Option (BagId × List Entry × List Entry) := do
  match ← j.record? ["bag", "active", "archive"] with
  | [some i, a, h] => return (← BagId.ofJson? i, ← Entry.listOfJson? a, ← Entry.listOfJson? h)
  | _ => none

def ofJson? (j : Json) : Option Baggage := do
  let bags ← j.list? bagOfJson?
  return gather (bags.foldl (fun g (i, a, _) => g.append i a) [])
    (bags.foldl (fun g (i, _, h) => g.append i h) [])

/-- The baggage a text spells; no text at all is empty baggage. -/
def ofWire? (s : String) : Option Baggage :=
  if s.isEmpty then some empty else (Json.parse s).bind ofJson?

end Baggage

end CausalTrace
