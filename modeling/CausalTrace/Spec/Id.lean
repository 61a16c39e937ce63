import CausalTrace.Number.Numeral

/-!
# Identifiers
-/

namespace CausalTrace

/-- The number of an installed query. Its results leave under this number too. -/
structure QueryId where
  val : Nat
deriving DecidableEq, Repr, Ord

/-- One compiled unit of a query, by its place in compilation order. The unit
that packs rows gives its name to the bag that holds them. -/
structure BagId where
  query : QueryId
  seq : Nat
deriving DecidableEq, Repr, Ord

def QueryId.text (q : QueryId) : String := Number.natText q.val

def BagId.text (b : BagId) : String := b.query.text ++ "." ++ Number.natText b.seq

end CausalTrace
