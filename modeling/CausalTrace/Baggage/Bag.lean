import CausalTrace.Baggage.Basic
import CausalTrace.Baggage.Groups
import CausalTrace.Spec.Advice

/-!
# Bags

A bag is a place in baggage together with a discipline: what a pack keeps, and
how the entries are read as rows. Rows of the wrong width are dropped.
-/

namespace CausalTrace

inductive Discipline where
  /-- All rows of this many columns. -/
  | tuples (arity : Nat)
  /-- One row of this many columns. -/
  | one (keep : Filter) (arity : Nat)
  /-- One row per key. -/
  | grouped (keys : Nat) (kinds : List Aggregation)
  /-- Nothing at all. -/
  | disabled
deriving DecidableEq

structure Bag where
  id : BagId
  discipline : Discipline
deriving DecidableEq

namespace Bag

/-- The bag a plan asks for; without baggage it keeps nothing. -/
def create {ν : Type} (id : BagId) (spec : BagSpec ν) (enabled : Bool) : Bag :=
  if enabled then
    match spec with
    | .tuple vars => ⟨id, .tuples vars.length⟩
    | .filter keep vars => ⟨id, .one keep vars.length⟩
    | .groupBy keys aggregates => ⟨id, .grouped keys.length (aggregates.map (·.how))⟩
  else ⟨id, .disabled⟩

/-! ## Reading -/

/-- The earlier of two entries, the first one if they have the same rank. -/
def earlier (a b : Entry) : Entry := if b.before a then b else a

/-- The later of two entries, the second one if they have the same rank. -/
def later (a b : Entry) : Entry := if b.before a then a else b

/-- The entry a bag of one row stands for. -/
def chosen? (keep : Filter) (arity : Nat) (es : List Entry) : Option Entry :=
  match es.filter fun e => e.rows.head?.any (·.length == arity) with
  | [] => none
  | e :: es =>
      match keep with
      | .first => some (es.foldl earlier e)
      | .mostRecent => some (es.foldl later e)

/-- The rows of all entries. -/
def allRows (es : List Entry) : List Row := es.flatMap (·.rows)

/-- The effective rows of a bag. -/
def unpack (bag : Bag) (b : Baggage) : List Row :=
  match bag.discipline with
  | .tuples arity =>
      (allRows (b.activeEntries bag.id) ++ allRows (b.archivedEntries bag.id)).filter
        (·.length == arity)
  | .one keep arity => (chosen? keep arity (b.entries bag.id)).bind (·.rows.head?) |>.toList
  | .grouped keys kinds =>
      ((Groups.empty keys kinds).combineRows (allRows (b.entries bag.id))).rows
  | .disabled => []

/-! ## Writing -/

/-- Packs rows, with the version of the entry to write; the number says how many
rows were kept. -/
def pack (bag : Bag) (version : UInt64) (b : Baggage) (rows : List Row) : Baggage × Nat :=
  match bag.discipline with
  | .tuples arity =>
      match rows.filter (·.length == arity) with
      | [] => (b, 0)
      | r :: rs => (b.push bag.id version (r :: rs), (r :: rs).length)
  | .one .first arity =>
      match chosen? .first arity (b.entries bag.id), rows.find? (·.length == arity) with
      | none, some r => (b.push bag.id version [r], 1)
      | _, _ => (b, 0)
  | .one .mostRecent arity =>
      match (rows.filter (·.length == arity)).getLast? with
      | some r => (b.supersede bag.id version [r], 1)
      | none => (b, 0)
  | .grouped keys kinds =>
      let (batch, kept) := (Groups.empty keys kinds).observeAll rows
      if batch.groups.isEmpty then (b, 0)
      else
        let merged := ((Groups.empty keys kinds).combineRows
          (allRows (b.activeEntries bag.id))).combineRows batch.rows
        (b.replaceActive bag.id version merged.rows, kept)
  | .disabled => (b, 0)

end Bag

end CausalTrace
