import CausalTrace.Number.Literal
import CausalTrace.Text.Quoted

/-!
# JSON documents

A document keeps numbers as they are written; what a number means is decided
where it is used. Objects keep the order of their fields.
-/

namespace CausalTrace

inductive Json where
  | null
  | bool (b : Bool)
  | number (l : Number.Literal)
  | str (s : String)
  | arr (items : List Json)
  | obj (fields : List (String × Json))
  /-- What a text can spell but no value has: a string with half a surrogate
  pair, or an object with such a key. It may stand where nobody looks. -/
  | broken
deriving Inhabited

namespace Json

/-! ## Building -/

def int (n : Int) : Json := .number (.ofInt n)

def nat (n : Nat) : Json := .int n

def strs (ss : List String) : Json := .arr (ss.map .str)

/-! ## Writing -/

/-- One character as it stands inside a string. -/
def stringChar (c : Char) : List Char :=
  match c with
  | '"' => ['\\', '"']
  | '\\' => ['\\', '\\']
  | '\x08' => ['\\', 'b']
  | '\x0c' => ['\\', 'f']
  | '\n' => ['\\', 'n']
  | '\r' => ['\\', 'r']
  | '\t' => ['\\', 't']
  | c =>
      if c.toNat < 0x20 then
        ['\\', 'u', '0', '0', Text.hexDigit (c.toNat / 16), Text.hexDigit (c.toNat % 16)]
      else [c]

def stringChars (s : String) : List Char := '"' :: s.toList.flatMap stringChar ++ ['"']

mutual

/-- The compact text: no blanks outside strings. -/
def chars : Json → List Char
  | .null => ['n', 'u', 'l', 'l']
  | .bool true => ['t', 'r', 'u', 'e']
  | .bool false => ['f', 'a', 'l', 's', 'e']
  | .number l => l.chars true
  | .str s => stringChars s
  | .arr items => '[' :: itemsChars items ++ [']']
  | .obj fields => '\x7b' :: fieldsChars fields ++ ['\x7d']
  | .broken => ['n', 'u', 'l', 'l']

def itemsChars : List Json → List Char
  | [] => []
  | [j] => j.chars
  | j :: k :: js => j.chars ++ ',' :: itemsChars (k :: js)

def fieldsChars : List (String × Json) → List Char
  | [] => []
  | [(n, j)] => stringChars n ++ ':' :: j.chars
  | (n, j) :: f :: fs => stringChars n ++ ':' :: j.chars ++ ',' :: fieldsChars (f :: fs)

end

/-- The compact text. -/
def render (j : Json) : String := String.ofList j.chars

/-- The start of a line `depth` levels inside. -/
def newline (depth : Nat) : List Char := '\n' :: List.replicate (2 * depth) ' '

mutual

/-- The text with one item or field a line, two blanks a level. -/
def prettyChars (depth : Nat) : Json → List Char
  | .arr (j :: js) => '[' :: prettyItems (depth + 1) (j :: js) ++ newline depth ++ [']']
  | .obj (f :: fs) => '\x7b' :: prettyFields (depth + 1) (f :: fs) ++ newline depth ++ ['\x7d']
  | .null => chars .null
  | .bool b => chars (.bool b)
  | .number l => chars (.number l)
  | .str s => chars (.str s)
  | .arr [] => ['[', ']']
  | .obj [] => ['\x7b', '\x7d']
  | .broken => chars .broken

def prettyItems (depth : Nat) : List Json → List Char
  | [] => []
  | [j] => newline depth ++ prettyChars depth j
  | j :: k :: js => newline depth ++ prettyChars depth j ++ ',' :: prettyItems depth (k :: js)

def prettyFields (depth : Nat) : List (String × Json) → List Char
  | [] => []
  | [(n, j)] => newline depth ++ stringChars n ++ ':' :: ' ' :: prettyChars depth j
  | (n, j) :: f :: fs =>
      newline depth ++ stringChars n ++ ':' :: ' ' :: prettyChars depth j
        ++ ',' :: prettyFields depth (f :: fs)

end

def pretty (j : Json) : String := String.ofList (prettyChars 0 j)

end Json

end CausalTrace
