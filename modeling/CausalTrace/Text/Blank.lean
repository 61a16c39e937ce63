import CausalTrace.Text.Ranges

/-!
# Blanks, pieces and words

A blank is a character of the Unicode property White_Space: 25 code points in
ten ranges. Trimming and word splitting cut at blanks; `pieces` cuts at any
class of separator and keeps the empty pieces.
-/

namespace CausalTrace.Text

/-! ## Blanks -/

/-- The blank code points. -/
def blanks : Ranges :=
  [(0x09, 0x0D), (0x20, 0x20), (0x85, 0x85), (0xA0, 0xA0), (0x1680, 0x1680),
   (0x2000, 0x200A), (0x2028, 0x2029), (0x202F, 0x202F), (0x205F, 0x205F),
   (0x3000, 0x3000)]

def isBlank (c : Char) : Bool := blanks.has c.toNat

/-! ## Trimming -/

/-- The characters without the blanks at either end. -/
def trimChars (cs : List Char) : List Char :=
  ((cs.dropWhile isBlank).reverse.dropWhile isBlank).reverse

/-- The text without the blanks at either end. -/
def trim (s : String) : String := String.ofList (trimChars s.toList)

/-! ## Cutting -/

/-- The pieces between separators, empty ones included; there is always one
piece more than there are separators. -/
def pieces (sep : Char → Bool) : List Char → List (List Char)
  | [] => [[]]
  | c :: cs =>
      if sep c then [] :: pieces sep cs
      else match pieces sep cs with
        | [] => [[c]]
        | p :: ps => (c :: p) :: ps

theorem pieces_ne_nil (sep : Char → Bool) (cs : List Char) : pieces sep cs ≠ [] := by
  cases cs with
  | nil => simp [pieces]
  | cons c cs =>
      simp only [pieces]
      split
      · simp
      · split <;> simp

/-- The maximal blank-free runs of a text, in order. -/
def words (s : String) : List String :=
  ((pieces isBlank s.toList).filter (!·.isEmpty)).map String.ofList

/-- The lines of a text with the blanks at their ends removed, blank lines left
out. -/
def lines (s : String) : List String :=
  ((pieces (· == '\n') s.toList).map trimChars).filter (!·.isEmpty) |>.map String.ofList

/-- The text before and after the first `sep`, if there is one. -/
def cutChars (sep : Char) : List Char → Option (List Char × List Char)
  | [] => none
  | c :: cs =>
      if c = sep then some ([], cs)
      else (cutChars sep cs).map fun (l, r) => (c :: l, r)

/-- The text before and after the first `sep`, if there is one. -/
def cut (sep : Char) (s : String) : Option (String × String) :=
  (cutChars sep s.toList).map fun (l, r) => (String.ofList l, String.ofList r)

/-- The text without its last character, if that is `c`. -/
def dropLast? (c : Char) (s : String) : Option String :=
  if s.toList.getLast? = some c then some (String.ofList s.toList.dropLast) else none

/-- The texts in order with `sep` between neighbours. -/
def join (sep : String) (ss : List String) : String := sep.intercalate ss

/-! ## Letter case (ASCII letters only) -/

def upper (s : String) : String := String.ofList (s.toList.map Char.toUpper)

def lower (s : String) : String := String.ofList (s.toList.map Char.toLower)

/-- Equality up to the case of ASCII letters. -/
def sameLetters (s t : String) : Bool := lower s == lower t

end CausalTrace.Text
