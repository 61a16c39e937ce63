import CausalTrace.Number.Notation
import CausalTrace.Table

/-!
# Metrics

Counters, a gauge and a histogram, kept as floats and shown in the text format
that monitoring systems scrape: families by name, samples by label values.
-/

namespace CausalTrace

/-- How often observations fell at or below each bound, and their sum. -/
structure Histogram where
  /-- One count per bound, not cumulative. -/
  counts : List Nat
  total : Nat
  sum : Float
deriving DecidableEq

namespace Histogram

/-- The bounds in seconds. -/
def bounds : List Float := [0.005, 0.01, 0.025, 0.05, 0.1, 0.25, 0.5, 1, 2.5, 5, 10]

def empty : Histogram := ⟨bounds.map fun _ => 0, 0, 0.0⟩

/-- Counts an observation at the first bound that holds it. -/
def place (x : Float) : List Float → List Nat → List Nat
  | b :: bs, n :: ns => if x ≤ b then (n + 1) :: ns else n :: place x bs ns
  | _, ns => ns

/-- Adds an observation; a negative one counts as zero, as does NaN. -/
def observe (h : Histogram) (x : Float) : Histogram :=
  let x := if 0.0 < x then x else 0.0
  ⟨place x bounds h.counts, h.total + 1, h.sum + x⟩

/-- How many observations lie at or below each bound. -/
def cumulative (h : Histogram) : List Nat :=
  (h.counts.foldl (fun (ns, total) n => (ns ++ [total + n], total + n)) ([], 0)).1

end Histogram

/-- The values of the labels of a sample, in the order of the label names. -/
abbrev LabelValues := List String

/-- The samples of one family, by name. A sample keeps the label values it was
first seen with. -/
abbrev Samples (α : Type) := Table String (LabelValues × α)

namespace Samples

variable {α : Type}

/-- Changes the sample of this name; a new one starts from `empty`. -/
def update (name : String) (labels : LabelValues) (empty : α) (change : α → α)
    (s : Samples α) : Samples α :=
  let (labels, a) := (s.find? name).getD (labels, empty)
  s.insert name (labels, change a)

/-- The samples by label values. -/
def byLabels (s : Samples α) : Table LabelValues α := Table.ofList s.values

end Samples

/-- What is counted about plans and queries. The names of the labels of a family
ascend. A sample is named by the joined values of its query, advice and tracepoint, so
labels that join to one text share a sample. -/
structure Metrics where
  /-- By advice, query and tracepoint. -/
  invocations : Samples Float
  /-- By advice and query, as are the next three. -/
  rowsIn : Samples Float
  rowsDropped : Samples Float
  rowsOut : Samples Float
  time : Samples Histogram
  installed : Option Float
  /-- By query. -/
  reported : Samples Float
deriving DecidableEq

namespace Metrics

def start : Metrics := ⟨[], [], [], [], [], none, []⟩

/-- Records one run of an advice and the fate of its rows. -/
def recordAdvice (m : Metrics) (query advice tracepoint : String)
    (rowsIn dropped rowsOut : Nat) (seconds : Float) : Metrics :=
  let name := query ++ advice
  let labels := [advice, query]
  let add (n : Nat) (s : Samples Float) := s.update name labels 0.0 (· + Float.ofNat n)
  { m with
    invocations :=
      m.invocations.update (name ++ tracepoint) (labels ++ [tracepoint]) 0.0 (· + 1.0)
    rowsIn := add rowsIn m.rowsIn
    rowsDropped := add dropped m.rowsDropped
    rowsOut := add rowsOut m.rowsOut
    time := m.time.update name labels .empty (·.observe seconds) }

def setInstalled (m : Metrics) (n : Nat) : Metrics := { m with installed := some (Float.ofNat n) }

/-- Records that results of a query were collected. -/
def reportResults (m : Metrics) (query : String) : Metrics :=
  { m with reported := m.reported.update query [query] 0.0 (· + 1.0) }

/-! ## Text -/

def number (x : Float) : String := Number.Notation.plain.text x

/-- A label value between quotes. -/
def quotedLabel (s : String) : String :=
  String.ofList ('"' :: s.toList.flatMap (fun c =>
    match c with
    | '\\' => ['\\', '\\']
    | '\n' => ['\\', 'n']
    | '"' => ['\\', '"']
    | c => [c]) ++ ['"'])

/-- Labels between braces; nothing if there are none. -/
def labelText (names : List String) (values : List String) : String :=
  if names.isEmpty then ""
  else
    "\x7b" ++ String.intercalate ","
      ((names.zip values).map fun (n, v) => n ++ "=" ++ quotedLabel v) ++ "\x7d"

/-- One family of samples: its name, what it tells, its kind, and the lines. -/
def family (name help kind : String) (lines : List String) : List String :=
  if lines.isEmpty then []
  else ["# HELP " ++ name ++ " " ++ help, "# TYPE " ++ name ++ " " ++ kind] ++ lines

def counterLines (name : String) (labels : List String) (s : Samples Float) : List String :=
  s.byLabels.map fun (k, x) => name ++ labelText labels k ++ " " ++ number x

/-- The lines of one histogram; the bound is a label after all others. -/
def histogramLines (name : String) (labels : List String) (k : LabelValues) (h : Histogram) :
    List String :=
  let bucket (bound : String) (n : Nat) :=
    name ++ "_bucket" ++ labelText (labels ++ ["le"]) (k ++ [bound]) ++ " "
      ++ number (Float.ofNat n)
  ((Histogram.bounds.zip h.cumulative).map fun (b, n) => bucket (number b) n)
    ++ [bucket "+Inf" h.total,
      name ++ "_sum" ++ labelText labels k ++ " " ++ number h.sum,
      name ++ "_count" ++ labelText labels k ++ " " ++ number (Float.ofNat h.total)]

/-- All samples as lines of text. -/
def lines (m : Metrics) : List String :=
  family "ptq_advice_invocations_total" "Advice invocations per tracepoint" "counter"
    (counterLines "ptq_advice_invocations_total" ["advice_id", "query_id", "tracepoint"]
      m.invocations)
  ++ family "ptq_advice_rows_dropped_total" "Candidate rows dropped by a failed let or where"
    "counter" (counterLines "ptq_advice_rows_dropped_total" ["advice_id", "query_id"] m.rowsDropped)
  ++ family "ptq_advice_rows_in_total"
    "Candidate rows formed from observed values and unpacked bags" "counter"
    (counterLines "ptq_advice_rows_in_total" ["advice_id", "query_id"] m.rowsIn)
  ++ family "ptq_advice_rows_out_total" "Rows emitted or packed" "counter"
    (counterLines "ptq_advice_rows_out_total" ["advice_id", "query_id"] m.rowsOut)
  ++ family "ptq_advice_time_seconds" "Time spent evaluating one advice invocation" "histogram"
    (m.time.byLabels.flatMap fun (k, h) =>
      histogramLines "ptq_advice_time_seconds" ["advice_id", "query_id"] k h)
  ++ family "ptq_installed_queries" "Currently installed queries" "gauge"
    (m.installed.toList.map fun x => "ptq_installed_queries " ++ number x)
  ++ family "ptq_results_reported_total" "Result records drained from emit sinks" "counter"
    (counterLines "ptq_results_reported_total" ["query_id"] m.reported)

end Metrics

end CausalTrace
