import CausalTrace.Advice
import CausalTrace.Config
import CausalTrace.Metrics
import CausalTrace.Query.Compile
import CausalTrace.Query.Grammar
import CausalTrace.Query.Optimize

/-!
# The engine

The engine keeps the catalog, the installed queries with their plans woven into
tracepoints, the sinks and the metrics. Installing a query weaves its plans after
those already there; passing a tracepoint runs the plans woven into it, in order.
-/

namespace CausalTrace

/-- One plan of an installed query. -/
structure Woven where
  queryId : QueryId
  adviceId : BagId
  /-- The fields that supply the observed values. -/
  fields : List String
  advice : Advice

/-- What the surroundings supply while plans run. -/
structure Surroundings where
  /-- The value of a field that a tracepoint was not given. -/
  supply? : String → Option Value
  /-- The version of the entry that the plan at this position may write. -/
  version : Nat → UInt64
  /-- The seconds that the plan at this position takes. -/
  seconds : Nat → Float

structure Engine where
  config : Config
  catalog : Catalog
  numbering : Numbering
  installed : Table QueryId QueryAdvice
  /-- The plans of each tracepoint in order of installation. -/
  woven : Table String (List Woven)
  sinks : Sinks
  metrics : Metrics

namespace Engine

def start (config : Config) : Engine where
  config := config
  catalog := .empty
  numbering := .start
  installed := []
  woven := []
  sinks := .start config.emitIfNoResults config.reportIntervalMs
  metrics := .start

/-! ## Queries -/

def addTracepoint (e : Engine) (t : Tracepoint) : Engine :=
  { e with catalog := e.catalog.addTracepoint t }

/-- The query of a text, joined by name from now on. -/
def parseQuery (e : Engine) (name text : String) : Except Error Query × Engine :=
  let (r, catalog) := e.catalog.parseNamed name text
  (r, { e with catalog })

/-- Runs building steps on the variables of the catalog. -/
def buildQuery {α : Type} (e : Engine) (steps : Build α) : Except Error α × Engine :=
  let (r, catalog) := e.catalog.build steps
  (r, { e with catalog })

/-- The optimized query, if queries are to be optimized. -/
def optimize (e : Engine) (q : Query) : Query × Engine :=
  if e.config.optimizeQueries then
    let (q, arena) := (q.optimize .all).run e.catalog.arena
    (q, { e with catalog := { e.catalog with arena } })
  else (q, e)

/-- Optimizes and compiles a query under the next number. -/
def compile (e : Engine) (q : Query) : Except Error QueryAdvice × Engine :=
  let (q, e) := e.optimize q
  let (id, numbering) := e.numbering.take
  (q.compile e.catalog.arena id, { e with numbering })

/-! ## Installing -/

/-- Resolves the plans of a query one after another, with the tracepoints they go
to. -/
def resolve (enabled : Bool) (id : QueryId) :
    List WeaveSpec → Sinks → Except Error (List (String × Woven) × Sinks)
  | [], sinks => .ok ([], sinks)
  | w :: ws, sinks => do
      let (advice, sinks) ← Advice.create w.advice sinks enabled
      let (woven, sinks) ← resolve enabled id ws sinks
      return ((w.tracepoint, ⟨id, w.adviceId, w.fields, advice⟩) :: woven, sinks)

/-- Compiles a query and weaves its plans. If one of them cannot be resolved,
nothing is installed. -/
def install (e : Engine) (q : Query) : Except Error QueryId × Engine :=
  match e.compile q with
  | (.error err, e) => (.error err, e)
  | (.ok compiled, e) =>
      match resolve e.config.baggageEnabled compiled.queryId compiled.weaves e.sinks with
      | .error err => (.error err, { e with sinks := e.sinks.destroy compiled.queryId })
      | .ok (woven, sinks) =>
          let installed := e.installed.insert compiled.queryId compiled
          (.ok compiled.queryId,
            { e with
              installed
              sinks
              woven := woven.foldl (fun t (place, w) => t.append place [w]) e.woven
              metrics := e.metrics.setInstalled installed.length })

/-- Installs a query by its name in the catalog. -/
def installNamed (e : Engine) (name : String) : Except Error QueryId × Engine :=
  match e.catalog.queries.find? name with
  | some q => e.install q
  | none => (.error (.planning ("unknown query '" ++ name ++ "'")), e)

/-- The plans that are left without those of one query. -/
def unweave (id : QueryId) (woven : Table String (List Woven)) : Table String (List Woven) :=
  (woven.mapValues fun ws => ws.filter (·.queryId ≠ id)).filter (!·.2.isEmpty)

/-- Takes a query out, with its sink and what is in it; says whether there was
one. -/
def uninstall (e : Engine) (id : QueryId) : Bool × Engine :=
  if e.installed.contains id then
    let installed := e.installed.erase id
    (true,
      { e with
        installed
        woven := unweave id e.woven
        sinks := e.sinks.destroy id
        metrics := e.metrics.setInstalled installed.length })
  else (false, e)

/-! ## Running -/

/-- The values a plan observes: given fields first, then those the surroundings
supply. -/
def observed (env : Surroundings) (fields : Table String Value) (w : Woven) : Row :=
  w.fields.map fun f => ((fields.find? f).or (env.supply? f)).getD .null

/-- Runs one plan. -/
def runOne (env : Surroundings) (tracepoint : String) (fields : Table String Value)
    (state : Engine × Baggage) (step : Woven × Nat) : Engine × Baggage :=
  let (e, b) := state
  let (w, i) := step
  let (stats, sinks, b) := w.advice.run (env.version i) e.sinks b (observed env fields w)
  let metrics := e.metrics.recordAdvice w.queryId.text w.adviceId.text tracepoint
    stats.rowsIn stats.dropped stats.rowsOut (env.seconds i)
  ({ e with sinks, metrics }, b)

/-- Passes a tracepoint; the number says how many plans ran. -/
def invoke (e : Engine) (env : Surroundings) (tracepoint : String) (b : Baggage)
    (fields : Table String Value) : Nat × Engine × Baggage :=
  let woven := e.woven.listed tracepoint
  (woven.length, woven.zipIdx.foldl (runOne env tracepoint fields) (e, b))

/-- Collects the results of all queries. -/
def collect (e : Engine) (timestampMs : Nat) : List Results × Engine :=
  let (results, sinks) := e.sinks.collect timestampMs
  (results,
    { e with
      sinks
      metrics := results.foldl (fun m r => m.reportResults r.outputId.text) e.metrics })

/-- The weaves of all installed queries, by query. -/
def weaves (e : Engine) : List WeaveSpec := e.installed.values.flatMap (·.weaves)

end Engine

end CausalTrace
