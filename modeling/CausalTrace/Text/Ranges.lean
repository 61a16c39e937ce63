/-!
# Ranges of code points

A class of characters is given by the closed ranges of its code points, from the least
to the greatest.
-/

namespace CausalTrace.Text

/-- Closed ranges of code points. -/
abbrev Ranges := List (Nat × Nat)

namespace Ranges

/-- Whether a code point lies in one of the ranges. -/
def has (rs : Ranges) (n : Nat) : Bool := rs.any fun r => r.1 ≤ n && n ≤ r.2

end Ranges

end CausalTrace.Text
