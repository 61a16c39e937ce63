import CausalTrace.Number.Reader
import CausalTrace.Json.Basic

/-!
# JSON tokens

Like the lexer of templates, the scan walks the characters one by one and lets
those of a token already taken pass. Whatever is no token fails as a whole.
-/

namespace CausalTrace.Json

inductive Token where
  | beginArray
  | endArray
  | beginObject
  | endObject
  | comma
  | colon
  | null
  | bool (b : Bool)
  | number (l : Number.Literal)
  /-- A string; one with half a surrogate pair has no text. -/
  | str (s : Option String)
deriving DecidableEq

/-! ## Strings -/

def hexValue? (c : Char) : Option Nat :=
  if c.isDigit then some (c.toNat - 48)
  else if 'a' ≤ c ∧ c ≤ 'f' then some (c.toNat - 87)
  else if 'A' ≤ c ∧ c ≤ 'F' then some (c.toNat - 55)
  else none

/-- The code unit of four hexadecimal digits. -/
def codeUnit? (a b c d : Char) : Option Nat := do
  return ((← hexValue? a) * 16 + (← hexValue? b)) * 256 + (← hexValue? c) * 16 + (← hexValue? d)

/-- The character that a backslash and this character stand for. -/
def escaped? : Char → Option Char
  | '"' => some '"'
  | '\\' => some '\\'
  | '/' => some '/'
  | 'b' => some '\x08'
  | 'f' => some '\x0c'
  | 'n' => some '\n'
  | 'r' => some '\r'
  | 't' => some '\t'
  | _ => none

/-- The contents of a string after its opening quote, characters and surrogate
halves by code point, and the number of characters up to and including the
closing quote. -/
def stringBody : List Char → Option (List Nat × Nat)
  | [] => none
  | '"' :: _ => some ([], 1)
  | '\\' :: 'u' :: a :: b :: c :: d :: cs => do
      let u ← codeUnit? a b c d
      let (us, n) ← stringBody cs
      return (u :: us, n + 6)
  | '\\' :: c :: cs => do
      let e ← escaped? c
      let (us, n) ← stringBody cs
      return (e.toNat :: us, n + 2)
  | c :: cs =>
      if c.toNat < 0x20 ∨ c = '\\' then none
      else do
        let (us, n) ← stringBody cs
        return (c.toNat :: us, n + 1)

def isHighSurrogate (u : Nat) : Bool := 0xD800 ≤ u && u ≤ 0xDBFF

def isLowSurrogate (u : Nat) : Bool := 0xDC00 ≤ u && u ≤ 0xDFFF

/-- The characters of code points, surrogate halves joined; half a pair on its
own makes no text. -/
def assemble : List Nat → Option (List Char)
  | [] => some []
  | [u] => if isHighSurrogate u || isLowSurrogate u then none else some [Char.ofNat u]
  | u :: v :: us =>
      if isHighSurrogate u then
        if isLowSurrogate v then
          (assemble us).map (Char.ofNat (0x10000 + (u - 0xD800) * 0x400 + (v - 0xDC00)) :: ·)
        else none
      else if isLowSurrogate u then none
      else (assemble (v :: us)).map (Char.ofNat u :: ·)

/-! ## Numbers -/

/-- The number at the front of a text, without a needless leading zero, and the
text after it. -/
def numberFront? (cs : List Char) : Option (Number.Literal × List Char) :=
  let (negative, body) := match cs with
    | '-' :: rest => (true, rest)
    | rest => (false, rest)
  let (whole, rest) := Number.takeDigits body
  match whole, Number.takeFraction rest with
  | [], _ => none
  | '0' :: _ :: _, _ => none
  | _, some ([], _) => none
  | whole, some (fraction, after) =>
      match Number.takeExponent after with
      | some (e, after) => some (⟨negative, whole, fraction, some e⟩, after)
      | none => some (⟨negative, whole, fraction, none⟩, after)
  | whole, none =>
      match Number.takeExponent rest with
      | some (e, after) => some (⟨negative, whole, [], some e⟩, after)
      | none => some (⟨negative, whole, [], none⟩, rest)

/-! ## All tokens -/

/-- The token at the front of a text with its number of characters. -/
def front? : List Char → Option (Token × Nat)
  | '[' :: _ => some (.beginArray, 1)
  | ']' :: _ => some (.endArray, 1)
  | '\x7b' :: _ => some (.beginObject, 1)
  | '\x7d' :: _ => some (.endObject, 1)
  | ',' :: _ => some (.comma, 1)
  | ':' :: _ => some (.colon, 1)
  | 'n' :: 'u' :: 'l' :: 'l' :: _ => some (.null, 4)
  | 't' :: 'r' :: 'u' :: 'e' :: _ => some (.bool true, 4)
  | 'f' :: 'a' :: 'l' :: 's' :: 'e' :: _ => some (.bool false, 5)
  | '"' :: cs => (stringBody cs).map fun (us, n) =>
      (.str ((assemble us).map String.ofList), n + 1)
  | cs => (numberFront? cs).map fun (l, after) => (.number l, cs.length - after.length)

/-- The tokens of a text after `skip` of its characters. -/
def tokensFrom (skip : Nat) : List Char → Option (List Token)
  | [] => some []
  | c :: cs =>
      match skip with
      | k + 1 => tokensFrom k cs
      | 0 =>
          if c = ' ' ∨ c = '\n' ∨ c = '\t' ∨ c = '\r' then tokensFrom 0 cs
          else do
            let (t, n) ← front? (c :: cs)
            return t :: (← tokensFrom (n - 1) cs)

def tokens (s : String) : Option (List Token) := tokensFrom 0 s.toList

end CausalTrace.Json
