import CausalTrace.Proofs.Building
import CausalTrace.Proofs.Installing

/-!
# Plans do what queries mean

The rows that an installed query hands to its sink are the results of its tree, whatever
tracepoints a request passes and in whatever order.
-/

namespace CausalTrace

namespace Engine

variable {config : Config} {e e' : Engine} {q : Query} {id : QueryId}

/-! ## What no step changes -/

theorem steps_config (p : Pass) (state : Engine × Baggage) (steps : List (Woven × Nat)) :
    (steps.foldl (step p) state).1.config = state.1.config := by
  induction steps generalizing state with
  | nil => rfl
  | cons s steps ih =>
      rw [List.foldl_cons, ih]
      rfl

theorem install_config : (e.install q).2.config = e.config := by
  have hc := compile_config (e := e) (q := q)
  rw [install]
  split
  · next h =>
      rw [h] at hc
      exact hc
  · next h =>
      rw [h] at hc
      split
      · exact hc
      · exact hc

theorem Reachable.config_eq (h : Reachable config e) : e.config = config := by
  induction h with
  | start => rfl
  | addTracepoint t _ ih => exact ih
  | parseQuery name text _ ih => exact ih
  | buildQuery steps _ ih => exact ih
  | optimize q _ ih => exact (compile_config (q := q)).trans ih
  | compile q _ ih => exact compile_config.trans ih
  | install q _ ih => exact install_config.trans ih
  | uninstall id _ ih =>
      rw [Engine.uninstall]
      split
      · exact ih
      · exact ih
  | invoke p b _ ih => rw [pass_eq, steps_config, ih]
  | collect timestampMs _ ih => exact ih

/-! ## Running an installed query -/

/-- What a query that is installed hands to its sink is what the optimized query results in,
and its sink gathers these rows. -/
theorem emissions_of_installed {P : Query → Prop} (ho : e.Orderly)
    (hbaggage : e.config.baggageEnabled = true)
    (hq : Query.Formed P (e.optimize q).2.catalog.arena (e.optimize q).1)
    (h : e.install q = (.ok id, e')) (passes : List Pass) :
    emissions id (e', .empty) passes =
      (e.optimize q).1.results (e.optimize q).2.catalog.arena passes.reverse ∧
      ((passes.foldl pass (e', .empty)).1.sinks.live.find? id).map (·.2) =
        some ((Gathered.start (e.optimize q).1.stage.emittedBag).add
          ((e.optimize q).1.results (e.optimize q).2.catalog.arena passes.reverse)).1 := by
  obtain ⟨ws, sink, hid, hfresh, hscoped, hdeployed, hserves⟩ :=
    Serves.of_install ho hbaggage hq.ordered hq.distinct h
  obtain ⟨hresults, hlast⟩ := hserves.run hq.ordered hq.distinct hscoped hid hdeployed passes
  have hnone : ∀ (a : Arena) (q : Query), q.results a [] = [] := by
    intro a q
    cases q
    rfl
  rw [List.append_nil, hnone, List.nil_append] at hresults
  refine ⟨hresults.symm, ?_⟩
  have hsink := hlast.sink
  rw [List.append_nil, hfresh] at hsink
  rw [hsink]
  rfl

/-- A query that is well-formed delivers its results, and its sink gathers them. -/
theorem emissions_of_formed {P : Query → Prop} (ho : e.Orderly)
    (hoptimize : e.config.optimizeQueries = false)
    (hbaggage : e.config.baggageEnabled = true) (hq : Query.Formed P e.catalog.arena q)
    (h : e.install q = (.ok id, e')) (passes : List Pass) :
    emissions id (e', .empty) passes = q.results e.catalog.arena passes.reverse ∧
      ((passes.foldl pass (e', .empty)).1.sinks.live.find? id).map (·.2) =
        some ((Gathered.start q.stage.emittedBag).add
          (q.results e.catalog.arena passes.reverse)).1 := by
  have hinstalled := fun hformed => emissions_of_installed (P := P) ho hbaggage hformed h passes
  rw [optimize_off hoptimize] at hinstalled
  exact hinstalled hq

/-- What an installed query hands to its sink while a request passes tracepoints is what
the query results in: the same rows in the same order. -/
theorem emissions_eq_results (hreach : Reachable config e)
    (hoptimize : config.optimizeQueries = false) (hbaggage : config.baggageEnabled = true)
    (hq : q.Built e.catalog.arena) (h : e.install q = (.ok id, e')) (passes : List Pass) :
    emissions id (e', .empty) passes = q.results e.catalog.arena passes.reverse ∧
      ((passes.foldl pass (e', .empty)).1.sinks.live.find? id).map (·.2) =
        some ((Gathered.start q.stage.emittedBag).add
          (q.results e.catalog.arena passes.reverse)).1 := by
  rw [← hreach.config_eq] at hoptimize hbaggage
  exact emissions_of_formed hreach.orderly hoptimize hbaggage hq.wellFormed h passes

/-! ## A sample -/

namespace Sample

def login : Tracepoint := ⟨"login", ["user"]⟩

def order : Tracepoint := ⟨"order", ["item"]⟩

/-- Who logged in before an order. -/
def buyers : Query :=
  .node ⟨⟨some "o", order⟩, [("item", ⟨1⟩)], [], [], [], [⟨0⟩, ⟨1⟩], .select [⟨0⟩, ⟨1⟩]⟩
    [("l", .node ⟨⟨none, login⟩, [("user", ⟨0⟩)], [], [], [], [⟨0⟩], .unfinished⟩ [])]

/-- The joins of the sample before anything is selected. -/
def joined : Query := .node (.watch ⟨some "o", order⟩) [("l", .unnamed login)]

def buyersArena : Arena := ⟨[.observed "" "user", .observed "o" "item"]⟩

theorem built_buyers : buyers.Built buyersArena := by
  have hnamed : Query.named "o" order = .ok (.watch ⟨some "o", order⟩) := rfl
  have hjoin : (Query.joinTracepoint (.watch ⟨some "o", order⟩) "l" login none).Yields .empty
      joined .empty := rfl
  have hselect : (joined.select ["l.user", "o.item"]).Yields .empty buyers buyersArena := rfl
  exact ((Query.Built.named hnamed).joinTracepoint hjoin).select hselect

/-- An engine in which the sample has been built. -/
def engine : Engine :=
  ((Engine.start ⟨false, true, false, 1000⟩).buildQuery (joined.select ["l.user", "o.item"])).2

def quiet : Surroundings := ⟨fun _ => none, fun _ => 0, fun _ => 0⟩

def passes : List Pass :=
  [⟨quiet, "login", [("user", .str "ann")]⟩, ⟨quiet, "login", [("user", .str "bob")]⟩,
    ⟨quiet, "order", [("item", .int 3)]⟩]

end Sample

open Engine.Sample in
theorem emissions_buyers :
    emissions ⟨1⟩ ((engine.install buyers).2, .empty) passes =
      [[.str "ann", .int 3], [.str "bob", .int 3]] := by
  have hreach : Reachable ⟨false, true, false, 1000⟩ engine := .buildQuery _ .start
  have harena : engine.catalog.arena = buyersArena := rfl
  have hinstall : (engine.install buyers).1 = .ok ⟨1⟩ := by decide +kernel
  obtain ⟨hrun, _⟩ := emissions_eq_results hreach rfl rfl (harena ▸ built_buyers)
    (Prod.ext hinstall rfl) passes
  rw [hrun, harena]
  decide +kernel

end Engine

end CausalTrace
