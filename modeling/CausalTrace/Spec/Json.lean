import CausalTrace.Json.Decode
import CausalTrace.Spec.Advice
import CausalTrace.Query.Tracepoint

/-!
# Plans in documents

Records are written as objects with their fields in order of declaration.
-/

namespace CausalTrace

/-! ## Identifiers -/

def QueryId.toJson (q : QueryId) : Json := .nat q.val

def QueryId.ofJson? (j : Json) : Option QueryId := (j.nat? Json.bound64).map QueryId.mk

def BagId.toJson (b : BagId) : Json := .obj [("query", b.query.toJson), ("seq", .nat b.seq)]

def BagId.ofJson? (j : Json) : Option BagId := do
  match ← j.record? ["query", "seq"] with
  | [some q, some s] => return ⟨← QueryId.ofJson? q, ← s.nat? Json.bound32⟩
  | _ => none

/-! ## Kinds -/

def Aggregation.toJson : Aggregation → Json
  | .count => .str "Count"
  | .sum => .str "Sum"
  | .min => .str "Min"
  | .max => .str "Max"

def Aggregation.ofJson? (j : Json) : Option Aggregation := do
  let (name, contents) ← j.case?
  if Json.isBare contents then
    match name with
    | "Count" => some .count
    | "Sum" => some .sum
    | "Min" => some .min
    | "Max" => some .max
    | _ => none
  else none

def Filter.toJson : Filter → Json
  | .first => .str "First"
  | .mostRecent => .str "MostRecent"

def Filter.ofJson? (j : Json) : Option Filter := do
  let (name, contents) ← j.case?
  if Json.isBare contents then
    match name with
    | "First" => some .first
    | "MostRecent" => some .mostRecent
    | _ => none
  else none

/-! ## Bags -/

def AggregateSpec.toJson (a : AggregateSpec String) : Json :=
  .obj [("name", .str a.name), ("how", a.how.toJson)]

def AggregateSpec.ofJson? (j : Json) : Option (AggregateSpec String) := do
  match ← j.record? ["name", "how"] with
  | [some n, some h] => return ⟨← n.str?, ← Aggregation.ofJson? h⟩
  | _ => none

def BagSpec.toJson : BagSpec String → Json
  | .tuple vars => .obj [("Tuple", .obj [("vars", .strs vars)])]
  | .filter keep vars =>
      .obj [("Filter", .obj [("kind", keep.toJson), ("vars", .strs vars)])]
  | .groupBy keys aggregates =>
      .obj [("GroupBy", .obj [("group_by", .strs keys),
        ("aggregates", .arr (aggregates.map AggregateSpec.toJson))])]

def BagSpec.ofJson? (j : Json) : Option (BagSpec String) := do
  match ← j.case? with
  | ("Tuple", some c) =>
      match ← c.record? ["vars"] with
      | [some vs] => return .tuple (← vs.list? Json.str?)
      | _ => none
  | ("Filter", some c) =>
      match ← c.record? ["kind", "vars"] with
      | [some k, some vs] => return .filter (← Filter.ofJson? k) (← vs.list? Json.str?)
      | _ => none
  | ("GroupBy", some c) =>
      match ← c.record? ["group_by", "aggregates"] with
      | [some ks, some as] =>
          return .groupBy (← ks.list? Json.str?) (← as.list? AggregateSpec.ofJson?)
      | _ => none
  | _ => none

/-! ## Advice -/

def LetSpec.toJson (l : LetSpec String) : Json :=
  .obj [("name", .str l.name), ("expr", .str l.expr), ("args", .strs l.args)]

def LetSpec.ofJson? (j : Json) : Option (LetSpec String) := do
  match ← j.record? ["name", "expr", "args"] with
  | [some n, some e, some as] => return ⟨← n.str?, ← e.str?, ← as.list? Json.str?⟩
  | _ => none

def WhereSpec.toJson (w : WhereSpec String) : Json :=
  .obj [("expr", .str w.expr), ("args", .strs w.args)]

def WhereSpec.ofJson? (j : Json) : Option (WhereSpec String) := do
  match ← j.record? ["expr", "args"] with
  | [some e, some as] => return ⟨← e.str?, ← as.list? Json.str?⟩
  | _ => none

def UnpackSpec.toJson (u : UnpackSpec String) : Json :=
  .obj [("bag_id", u.bagId.toJson), ("bag", u.bag.toJson)]

def UnpackSpec.ofJson? (j : Json) : Option (UnpackSpec String) := do
  match ← j.record? ["bag_id", "bag"] with
  | [some i, some b] => return ⟨← BagId.ofJson? i, ← BagSpec.ofJson? b⟩
  | _ => none

def OutputSpec.toJson : OutputSpec String → Json
  | .pack bagId bag => .obj [("Pack", .obj [("bag_id", bagId.toJson), ("bag", bag.toJson)])]
  | .emit outputId bag =>
      .obj [("Emit", .obj [("output_id", outputId.toJson), ("bag", bag.toJson)])]

def OutputSpec.ofJson? (j : Json) : Option (OutputSpec String) := do
  match ← j.case? with
  | ("Pack", some c) =>
      match ← c.record? ["bag_id", "bag"] with
      | [some i, some b] => return .pack (← BagId.ofJson? i) (← BagSpec.ofJson? b)
      | _ => none
  | ("Emit", some c) =>
      match ← c.record? ["output_id", "bag"] with
      | [some i, some b] => return .emit (← QueryId.ofJson? i) (← BagSpec.ofJson? b)
      | _ => none
  | _ => none

def AdviceSpec.toJson (a : AdviceSpec String) : Json :=
  .obj [("observe", .strs a.observe), ("unpack", .arr (a.unpack.map UnpackSpec.toJson)),
    ("lets", .arr (a.lets.map LetSpec.toJson)), ("wheres", .arr (a.wheres.map WhereSpec.toJson)),
    ("output", a.output.toJson)]

def AdviceSpec.ofJson? (j : Json) : Option (AdviceSpec String) := do
  match ← j.record? ["observe", "unpack", "lets", "wheres", "output"] with
  | [some o, some us, some ls, some ws, some out] =>
      return ⟨← o.list? Json.str?, ← us.list? UnpackSpec.ofJson?, ← ls.list? LetSpec.ofJson?,
        ← ws.list? WhereSpec.ofJson?, ← OutputSpec.ofJson? out⟩
  | _ => none

def WeaveSpec.toJson (w : WeaveSpec) : Json :=
  .obj [("advice_id", w.adviceId.toJson), ("tracepoint", .str w.tracepoint),
    ("exports", .strs w.fields), ("advice", w.advice.toJson)]

def WeaveSpec.ofJson? (j : Json) : Option WeaveSpec := do
  match ← j.record? ["advice_id", "tracepoint", "exports", "advice"] with
  | [some i, some t, some fs, some a] =>
      return ⟨← BagId.ofJson? i, ← t.str?, ← fs.list? Json.str?, ← AdviceSpec.ofJson? a⟩
  | _ => none

def QueryAdvice.toJson (q : QueryAdvice) : Json :=
  .obj [("query_id", q.queryId.toJson), ("weaves", .arr (q.weaves.map WeaveSpec.toJson))]

def QueryAdvice.ofJson? (j : Json) : Option QueryAdvice := do
  match ← j.record? ["query_id", "weaves"] with
  | [some i, some ws] => return ⟨← QueryId.ofJson? i, ← ws.list? WeaveSpec.ofJson?⟩
  | _ => none

/-! ## Tracepoints -/

def Tracepoint.toJson (t : Tracepoint) : Json :=
  .obj [("name", .str t.name), ("exports", .strs t.exports)]

def Tracepoint.ofJson? (j : Json) : Option Tracepoint := do
  match ← j.record? ["name", "exports"] with
  | [some n, some es] => return ⟨← n.str?, ← es.list? Json.str?⟩
  | _ => none

end CausalTrace
