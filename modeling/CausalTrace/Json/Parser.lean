import CausalTrace.Json.Lexer

/-!
# From tokens to documents

The parser reads one token after another. It keeps the arrays and objects it is
inside of on a stack, with their items in reverse, and what it expects next.
-/

namespace CausalTrace.Json

/-- An open array or object. -/
inductive Frame where
  | array (before : List Json)
  /-- The fields read before, and the key whose value comes next. -/
  | object (before : List (Option String × Json)) (key : Option String)

/-- What comes next. -/
inductive Expected where
  | value
  /-- A value or the end of an array just opened. -/
  | firstItem
  | key (before : List (Option String × Json))
  /-- A key or the end of an object just opened. -/
  | firstKey
  | colon (before : List (Option String × Json)) (key : Option String)
  /-- Whatever may follow this value. -/
  | following (j : Json)

structure Progress where
  stack : List Frame
  expected : Expected

/-- The object of these fields, given in reverse. -/
def closeObject (fields : List (Option String × Json)) : Json :=
  match fields.reverse.mapM fun (k, j) => k.map (·, j) with
  | some fs => .obj fs
  | none => .broken

namespace Progress

def start : Progress := ⟨[], .value⟩

/-- Reads the token a value starts with. -/
def begin (stack : List Frame) : Token → Option Progress
  | .null => some ⟨stack, .following .null⟩
  | .bool b => some ⟨stack, .following (.bool b)⟩
  | .number l => some ⟨stack, .following (.number l)⟩
  | .str (some s) => some ⟨stack, .following (.str s)⟩
  | .str none => some ⟨stack, .following .broken⟩
  | .beginArray => some ⟨.array [] :: stack, .firstItem⟩
  | .beginObject => some ⟨stack, .firstKey⟩
  | .endArray => none
  | .endObject => none
  | .comma => none
  | .colon => none

/-- Reads the token after a value. -/
def follow (stack : List Frame) (j : Json) (t : Token) : Option Progress :=
  match stack, t with
  | .array before :: stack, .comma => some ⟨.array (j :: before) :: stack, .value⟩
  | .array before :: stack, .endArray => some ⟨stack, .following (.arr (j :: before).reverse)⟩
  | .object before k :: stack, .comma => some ⟨stack, .key ((k, j) :: before)⟩
  | .object before k :: stack, .endObject =>
      some ⟨stack, .following (closeObject ((k, j) :: before))⟩
  | _, _ => none

def step (p : Progress) (t : Token) : Option Progress :=
  match p.expected, t with
  | .value, t => begin p.stack t
  | .firstItem, .endArray =>
      match p.stack with
      | .array _ :: stack => some ⟨stack, .following (.arr [])⟩
      | _ => none
  | .firstItem, t => begin p.stack t
  | .firstKey, .endObject => some ⟨p.stack, .following (.obj [])⟩
  | .firstKey, .str k => some ⟨p.stack, .colon [] k⟩
  | .key before, .str k => some ⟨p.stack, .colon before k⟩
  | .colon before k, .colon => some ⟨.object before k :: p.stack, .value⟩
  | .following j, t => follow p.stack j t
  | _, _ => none

/-- The document, if it is complete. -/
def finish (p : Progress) : Option Json :=
  match p.stack, p.expected with
  | [], .following j => some j
  | _, _ => none

end Progress

/-- The document some tokens spell. -/
def ofTokens (ts : List Token) : Option Json := do
  let p ← ts.foldlM Progress.step Progress.start
  p.finish

/-- The document a text spells. -/
def parse (s : String) : Option Json := (tokens s).bind ofTokens

end CausalTrace.Json
