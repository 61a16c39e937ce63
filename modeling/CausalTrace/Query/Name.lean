import CausalTrace.Spec.Kind

/-!
# Names in queries

A declared name has no point and no blank. A point separates the hops of a path,
the first hop being cut off first. An aggregate is named by its kind and its
operand in parentheses.
-/

namespace CausalTrace.Name

/-- Whether a variable or an alias may be declared by this name. -/
def isValid (name : String) : Bool :=
  !name.isEmpty && !name.toList.contains '.' && !name.toList.any Text.isBlank

/-- The first hop of a path and the rest, if neither is empty. -/
def hop (name : String) : Option (String × String) :=
  (Text.cut '.' name).filter fun (l, r) => !l.isEmpty && !r.isEmpty

/-- The aggregation and the operand of an aggregate's name. Only a count may go
without an operand, and without parentheses. -/
def aggregate? (name : String) : Option (Aggregation × Option String) :=
  if Text.sameLetters name "COUNT" then some (.count, none)
  else do
    let (how, rest) ← Text.cut '(' name
    let operand := Text.trim (← Text.dropLast? ')' rest)
    let how ← (Aggregation.named (Text.trim how)).toOption
    if operand.isEmpty then
      if how = .count then some (how, none) else none
    else some (how, some operand)

end CausalTrace.Name
