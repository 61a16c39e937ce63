import CausalTrace.Query.Build

/-!
# Queries as text

One line, one step:

```text
from x in DataNodeMetrics
join cl in FIRST(ClientProtocols) on cl -> x
where "{}"!="localhost" x.host
let kb {}/1024 x.bytes
groupby cl.procName
select cl.procName SUM(kb) COUNT
```

Keywords come in any letter case, blank lines do not count, commas may separate
names, and a template is one word.
-/

namespace CausalTrace

/-- The tracepoints and queries that texts refer to, and the variables of all
queries. -/
structure Catalog where
  tracepoints : Table String Tracepoint
  queries : Table String Query
  arena : Arena

namespace Catalog

def empty : Catalog := ⟨[], [], .empty⟩

def addTracepoint (c : Catalog) (t : Tracepoint) : Catalog :=
  { c with tracepoints := c.tracepoints.insert t.name t }

/-- Runs building steps on the variables of the catalog. -/
def build {α : Type} (c : Catalog) (steps : Build α) : Except Error α × Catalog :=
  let (r, arena) := steps.run c.arena
  (r, { c with arena })

/-- Lets later queries join this one by name. -/
def addQuery (c : Catalog) (name : String) (q : Query) : Except Error Catalog :=
  if !Name.isValid name then .error (.planning ("invalid query name '" ++ name ++ "'"))
  else if c.tracepoints.contains name then
    .error (.planning ("query name '" ++ name ++ "' conflicts with a tracepoint"))
  else .ok { c with queries := c.queries.insert name q }

end Catalog

namespace Grammar

/-- The words that lines begin with. -/
inductive Keyword where
  | start
  | join
  | condition
  | compute
  | select
  | group
deriving DecidableEq, Repr

namespace Keyword

def text : Keyword → String
  | .start => "from"
  | .join => "join"
  | .condition => "where"
  | .compute => "let"
  | .select => "select"
  | .group => "groupby"

def all : List Keyword := [.start, .join, .condition, .compute, .select, .group]

/-- The keyword of this spelling, in any letter case. -/
def named? (s : String) : Option Keyword := all.find? fun k => Text.sameLetters s k.text

end Keyword

/-- The names in some words, commas dropped. -/
def names (words : List String) : List String :=
  words.flatMap fun w =>
    ((Text.pieces (· == ',') w.toList).filter (!·.isEmpty)).map String.ofList

def tracepoint (c : Catalog) (name : String) : Except Error Tracepoint :=
  match c.tracepoints.find? name with
  | some t => .ok t
  | none => .error (.planning ("unknown tracepoint '" ++ name ++ "'"))

/-- What a join joins: a tracepoint or a query, by name. -/
def joined (c : Catalog) (name : String) : Except Error Query :=
  match c.tracepoints.find? name, c.queries.find? name with
  | some t, _ => .ok (.unnamed t)
  | none, some q => .ok q
  | none, none => .error (.planning ("unknown tracepoint or query '" ++ name ++ "'"))

/-- The filter around a name, if there is one, and the name. -/
def filtered (word : String) : Except Error (Option Filter × String) :=
  match Text.cut '(' word with
  | none => .ok (none, word)
  | some (kind, rest) =>
      match (Text.dropLast? ')' rest).filter (!·.isEmpty) with
      | none => .error (.parse ("malformed filter '" ++ word ++ "'"))
      | some inner => do return (some (← Filter.named kind), inner)

/-! ## Lines -/

/-- A line `from tracepoint` or `from alias in tracepoint`. -/
def fromLine (c : Catalog) (words : List String) : Except Error Query :=
  let first := words.headD ""
  if !Text.sameLetters first "from" then
    .error (.parse ("query must start with from, found '" ++ first ++ "'"))
  else
    let malformed : Except Error Query :=
      .error (.parse "expected 'from <tracepoint>' or 'from <alias> in <tracepoint>'")
    match words with
    | [_, name] => do return .unnamed (← tracepoint c name)
    | [_, aliasName, kw, name] =>
        if Text.sameLetters kw "in" then do Query.named aliasName (← tracepoint c name)
        else malformed
    | _ => malformed

/-- A line `join alias in source on alias -> target`. -/
def joinLine (c : Catalog) (q : Query) (words : List String) : Build Query :=
  match words with
  | [_, aliasName, kwIn, source, kwOn, ordered, arrow, target] =>
      if !(Text.sameLetters kwIn "in" && Text.sameLetters kwOn "on" && arrow == "->") then
        throw (.parse ("malformed join '" ++ Text.join " " words ++ "'"))
      else if aliasName ≠ ordered then
        throw (.parse ("join declares '" ++ aliasName ++ "' but orders '" ++ ordered ++ "'"))
      else
        match q.stage.source.aliasName with
        | none => throw (.parse "joins require 'from <alias> in <tracepoint>'")
        | some root => do
            let (filter, source) ← filtered source
            let other ← joined c source
            if target = root then q.join aliasName other filter
            else if q.joins.contains target then q.joinVia target aliasName other filter
            else
              throw (.parse ("join target '" ++ target ++ "' is neither '" ++ root
                ++ "' nor a joined alias"))
  | _ => throw (.parse "expected 'join <alias> in <source> on <alias> -> <alias>'")

/-- A line `where template args`. -/
def whereLine (q : Query) (words : List String) : Build Query :=
  match words with
  | _ :: expr :: args => q.addWhere expr (names args)
  | _ => throw (.parse "where needs an expression")

/-- A line `let name template args`. -/
def letLine (q : Query) (words : List String) : Build Query :=
  match words with
  | _ :: name :: expr :: args => q.addLet name expr (names args)
  | _ => throw (.parse "expected 'let <name> <expression> <args...>'")

/-- A line `select names`. -/
def selectLine (q : Query) (words : List String) : Build Query :=
  match names words.tail with
  | [] => throw (.parse "select lists no variables")
  | vs => q.select vs

/-- Adds the aggregate of this name. -/
def aggregateNamed (q : Query) (name : String) : Build Query :=
  match Name.aggregate? name with
  | some (.count, none) => q.count
  | some (how, some operand) => q.aggregate operand how
  | _ => throw (.parse ("'" ++ name ++ "' is neither COUNT nor AGG(variable)"))

/-- The lines `groupby names` and `select names aggregates`. -/
def groupLines (q : Query) (groupWords selectWords : List String) : Build Query := do
  let first := selectWords.headD ""
  if !Text.sameLetters first "select" then
    throw (.parse ("groupby must be followed by a select, found '" ++ first ++ "'"))
  let keys := names groupWords.tail
  let selected := names selectWords.tail
  if selected.take keys.length ≠ keys then
    throw (.parse ("select must begin with the groupby variables [" ++ Text.join ", " keys
      ++ "]"))
  match selected.drop keys.length with
  | [] => throw (.parse "a groupby select needs at least one aggregation")
  | aggregates => aggregates.foldlM aggregateNamed (← q.groupBy keys)

/-- Nothing may follow a select. -/
def finish (q : Query) : List String → Except Error Query
  | [] => .ok q
  | line :: _ => .error (.parse ("unexpected line after select: '" ++ line ++ "'"))

/-- A line `groupby names` and the lines after it. -/
def grouped (q : Query) (words : List String) : List String → Build Query
  | [] => throw (.parse "groupby must be followed by a select")
  | select :: rest => do finish (← groupLines q words (Text.words select)) rest

/-- The lines after the first. -/
def body (c : Catalog) (q : Query) : List String → Build Query
  | [] => return q
  | line :: rest => do
      let words := Text.words line
      let first := words.headD ""
      match Keyword.named? first with
      | some .start => throw (.parse "a query has exactly one from line")
      | some .join => body c (← joinLine c q words) rest
      | some .condition => body c (← whereLine q words) rest
      | some .compute => body c (← letLine q words) rest
      | some .select => do finish (← selectLine q words) rest
      | some .group => grouped q words rest
      | none => throw (.parse ("unknown keyword '" ++ Text.lower first ++ "'"))

/-- The query of a text. -/
def query (c : Catalog) (text : String) : Build Query :=
  match Text.lines text with
  | [] => throw (.parse "empty query")
  | first :: rest => do body c (← fromLine c (Text.words first)) rest

end Grammar

namespace Catalog

/-- The query of a text. -/
def parse (c : Catalog) (text : String) : Except Error Query × Catalog :=
  c.build (Grammar.query c text)

/-- The query of a text, joined by name from now on. -/
def parseNamed (c : Catalog) (name text : String) : Except Error Query × Catalog :=
  match c.parse text with
  | (.error e, c) => (.error e, c)
  | (.ok q, c) =>
      match c.addQuery name q with
      | .error e => (.error e, c)
      | .ok c => (.ok q, c)

end Catalog

end CausalTrace
