import CausalTrace.Baggage.Groups
import CausalTrace.Baggage.Wire
import CausalTrace.Spec.Advice
import CausalTrace.Table

/-!
# Sinks

What a query emits is gathered in a sink until it is collected. Making a new sink
for a query puts the old one out of reach: whoever still holds it emits into
nothing, and is told how many rows the sink would have kept.
-/

namespace CausalTrace

/-- The rows one query delivered in one interval. -/
structure Results where
  outputId : QueryId
  timestampMs : Nat
  intervalMs : Nat
  tuples : List Row
  groups : List Row
deriving DecidableEq

/-- The rows gathered in a sink. -/
inductive Gathered where
  /-- All rows of this many columns. -/
  | tuples (arity : Nat) (rows : List Row)
  | grouped (groups : Groups)
deriving DecidableEq

namespace Gathered

/-- What a sink for rows of this layout starts with. -/
def start {ν : Type} : BagSpec ν → Gathered
  | .tuple vars => .tuples vars.length []
  | .filter _ vars => .tuples vars.length []
  | .groupBy keys aggregates => .grouped (.empty keys.length (aggregates.map (·.how)))

/-- The same sink without rows. -/
def clear : Gathered → Gathered
  | .tuples arity _ => .tuples arity []
  | .grouped g => .grouped (.empty g.keys g.kinds)

def isEmpty : Gathered → Bool
  | .tuples _ rows => rows.isEmpty
  | .grouped g => g.groups.isEmpty

/-- Adds the valid ones of some rows, and says how many these are. -/
def add (rows : List Row) : Gathered → Gathered × Nat
  | .tuples arity before =>
      let valid := rows.filter (·.length == arity)
      (.tuples arity (before ++ valid), valid.length)
  | .grouped g =>
      let (g, kept) := g.observeAll rows
      (.grouped g, kept)

def tupleRows : Gathered → List Row
  | .tuples _ rows => rows
  | .grouped _ => []

def groupRows : Gathered → List Row
  | .tuples _ _ => []
  | .grouped g => g.rows

end Gathered

/-- What its user holds of a sink. The serial number tells it from other sinks
for the same query. -/
structure SinkRef where
  outputId : QueryId
  serial : Nat
  /-- The sink as it was made. -/
  fresh : Gathered
deriving DecidableEq

/-- The sinks within reach, by query. -/
structure Sinks where
  /-- Whether an interval without rows is reported. -/
  reportEmpty : Bool
  intervalMs : Nat
  /-- The number of sinks ever made. -/
  made : Nat
  live : Table QueryId (Nat × Gathered)
deriving DecidableEq

namespace Sinks

def start (reportEmpty : Bool) (intervalMs : Nat) : Sinks := ⟨reportEmpty, intervalMs, 0, []⟩

/-- Makes the sink of a query, in place of the one it had. -/
def create {ν : Type} (s : Sinks) (id : QueryId) (layout : BagSpec ν) : SinkRef × Sinks :=
  let fresh := Gathered.start layout
  (⟨id, s.made, fresh⟩, { s with made := s.made + 1, live := s.live.insert id (s.made, fresh) })

def destroy (s : Sinks) (id : QueryId) : Sinks := { s with live := s.live.erase id }

/-- Adds rows to the sink of a query, if it has one; the number says how many were
kept. -/
def emitTo? (s : Sinks) (id : QueryId) (rows : List Row) : Option (Sinks × Nat) :=
  (s.live.find? id).map fun (serial, g) =>
    let (g, kept) := g.add rows
    ({ s with live := s.live.insert id (serial, g) }, kept)

/-- Adds rows to a sink, if it is still within reach. -/
def emit (s : Sinks) (ref : SinkRef) (rows : List Row) : Sinks × Nat :=
  let kept := (ref.fresh.add rows).2
  match s.live.find? ref.outputId with
  | some (serial, g) =>
      if serial = ref.serial then
        ({ s with live := s.live.insert ref.outputId (serial, (g.add rows).1) }, kept)
      else (s, kept)
  | none => (s, kept)

/-- The results of all sinks, by query, and the sinks without their rows. -/
def collect (s : Sinks) (timestampMs : Nat) : List Results × Sinks :=
  (s.live.filterMap fun (id, _, g) =>
    if g.isEmpty && !s.reportEmpty then none
    else some ⟨id, timestampMs, s.intervalMs, g.tupleRows, g.groupRows⟩,
   { s with live := s.live.mapValues fun (serial, g) => (serial, g.clear) })

end Sinks

/-! ## Results in documents -/

namespace Results

/-- A field of rows, left out if there are none. -/
def rowsJson (name : String) (rows : List Row) : List (String × Json) :=
  if rows.isEmpty then [] else [(name, .arr (rows.map Row.toJson))]

def toJson (r : Results) : Json :=
  .obj ([("output_id", r.outputId.toJson), ("timestamp_ms", .nat r.timestampMs),
    ("interval_ms", .nat r.intervalMs)] ++ rowsJson "tuples" r.tuples ++ rowsJson "groups" r.groups)

def rowsOfJson? : Option Json → Option (List Row)
  | none => some []
  | some j => j.list? Row.ofJson?

def ofJson? (j : Json) : Option Results := do
  match ← j.record? ["output_id", "timestamp_ms", "interval_ms", "tuples", "groups"] with
  | [some o, some t, some i, ts, gs] =>
      return ⟨← QueryId.ofJson? o, ← t.nat? Json.bound64, ← i.nat? Json.bound64, ← rowsOfJson? ts,
        ← rowsOfJson? gs⟩
  | _ => none

end Results

end CausalTrace
