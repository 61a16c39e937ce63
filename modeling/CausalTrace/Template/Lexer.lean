import CausalTrace.Template.Token

/-!
# From text to tokens

At each character the longest token that starts there is taken. The scan walks
the characters one by one and lets those of a token already taken pass.
-/

namespace CausalTrace.Template

/-- What stands at the front of a text, with its number of characters. -/
inductive Front where
  | blank
  | token (t : Token) (length : Nat)
  /-- No token: this many characters are reported. -/
  | unknown (length : Nat)
deriving DecidableEq

/-! ## Numbers -/

/-- The integer or float at the front of a text that starts with a digit. -/
def numberFront (cs : List Char) : Front :=
  let (whole, rest) := Number.takeDigits cs
  let (fraction, afterFraction) := match Number.takeFraction rest with
    | some (d :: ds, after) => (d :: ds, after)
    | _ => ([], rest)
  match Number.takeExponent afterFraction with
  | some (e, after) =>
      .token (.float (Number.Literal.nearest ⟨false, whole, fraction, some e⟩))
        (cs.length - after.length)
  | none =>
      if fraction.isEmpty then
        match Number.fit? (Number.digitsValue whole) with
        | some n => .token (.int n) whole.length
        | none => .unknown whole.length
      else
        .token (.float (Number.Literal.nearest ⟨false, whole, fraction, none⟩))
          (cs.length - afterFraction.length)

/-! ## String literals -/

/-- The character that a backslash and this character stand for. -/
def unescape : Char → Char
  | 'n' => '\n'
  | 't' => '\t'
  | c => c

/-- The contents of a string literal after its opening quote, and how many
characters there are up to and including the closing quote. A literal that does
not end gives the number of its complete characters and escapes. -/
def stringBody (quote : Char) : List Char → Except Nat (List Char × Nat)
  | [] => .error 0
  | '\\' :: c :: cs =>
      if c = '\n' then .error 0
      else match stringBody quote cs with
        | .ok (s, n) => .ok (unescape c :: s, n + 2)
        | .error n => .error (n + 2)
  | c :: cs =>
      if c = quote then .ok ([], 1)
      else if c = '\\' then .error 0
      else match stringBody quote cs with
        | .ok (s, n) => .ok (c :: s, n + 1)
        | .error n => .error (n + 1)

def stringFront (quote : Char) (cs : List Char) : Front :=
  match stringBody quote cs with
  | .ok (s, n) => .token (.str (String.ofList s)) (n + 1)
  | .error n => .unknown (n + 1)

/-! ## All tokens -/

/-- The longest token at the front of a text. -/
def front : List Char → Front
  | '\x7b' :: '\x7d' :: _ => .token .hole 2
  | 't' :: 'r' :: 'u' :: 'e' :: _ => .token (.bool true) 4
  | 'f' :: 'a' :: 'l' :: 's' :: 'e' :: _ => .token (.bool false) 5
  | 'n' :: 'u' :: 'l' :: 'l' :: _ => .token .null 4
  | '|' :: '|' :: _ => .token (.op .or) 2
  | '&' :: '&' :: _ => .token (.op .and) 2
  | '=' :: '=' :: '=' :: _ => .token (.op .eq) 3
  | '=' :: '=' :: _ => .token (.op .eq) 2
  | '!' :: '=' :: '=' :: _ => .token (.op .ne) 3
  | '!' :: '=' :: _ => .token (.op .ne) 2
  | '!' :: _ => .token .bang 1
  | '<' :: '=' :: _ => .token (.op .le) 2
  | '<' :: _ => .token (.op .lt) 1
  | '>' :: '=' :: _ => .token (.op .ge) 2
  | '>' :: _ => .token (.op .gt) 1
  | '+' :: _ => .token (.op .add) 1
  | '-' :: _ => .token (.op .sub) 1
  | '*' :: _ => .token (.op .mul) 1
  | '/' :: _ => .token (.op .div) 1
  | '%' :: _ => .token (.op .rem) 1
  | '(' :: _ => .token .opened 1
  | ')' :: _ => .token .closed 1
  | '"' :: cs => stringFront '"' cs
  | '\'' :: cs => stringFront '\'' cs
  | c :: cs =>
      if c = ' ' ∨ c = '\t' ∨ c = '\r' ∨ c = '\n' then .blank
      else if c.isDigit then numberFront (c :: cs)
      else .unknown 1
  | [] => .blank

/-- The tokens of a text after `skip` of its characters, or the first text that
is none; `offset` counts the bytes before the text. -/
def tokensFrom (skip offset : Nat) : List Char → Except ParseError (List Token)
  | [] => .ok []
  | c :: cs =>
      match skip with
      | k + 1 => tokensFrom k (offset + c.utf8Size) cs
      | 0 =>
          match front (c :: cs) with
          | .blank => tokensFrom 0 (offset + c.utf8Size) cs
          | .token t n => do
              let ts ← tokensFrom (n - 1) (offset + c.utf8Size) cs
              return t :: ts
          | .unknown n => .error (.unknown offset (String.ofList ((c :: cs).take n)))

def tokens (s : String) : Except ParseError (List Token) := tokensFrom 0 0 s.toList

end CausalTrace.Template
