import CausalTrace.Proofs.Collecting
import CausalTrace.Proofs.SharingCounts

/-!
# Counting by products

A query that only counts may count its joined stages first and multiply what these counted. Every
step of the optimizer then keeps the counts, so the optimized query collects what the query itself
would, as long as all of it fits into 64 bits. Two things go wrong besides. A key that recurs cannot
be bound by the joined stage that counts first, and a sum is not multiplied by what was counted.
-/

namespace CausalTrace

open Weighing Defining

namespace Query

variable {a b : Arena} {m : Moves} {pack counted : Bool} {s : Stage} {js : List (String × Query)}
  {q q' : Query} {keys : List VarId} {gs : List Aggregate} {passes : List Pass}

/-- Optimizing a query that counts leads to one that finds the same counts. -/
theorem leads_recounts (n : ℕ) (hq : Sound a false pack q) (ht : Tallied a passes counted q) :
    (optimizeWithin m n q).Leads a fun q' b => Recounts a b pack counted passes q q' := by
  induction n generalizing q a pack counted with
  | zero => exact leads_pure (.refl hq ht)
  | succ n ih =>
      have hagain : Recounting passes (optimizeWithin m n) := fun _ u a hu htu => ih hu htu
      cases q with
      | node s js =>
          have hknown := hq.formed.known
          have hkeeps : Keeps (optimizeWithin m n) fun q' b =>
              Recounts a b pack counted passes (node s js) q' :=
            hagain.keeps a hknown
          have hstart : Recounts a a pack counted passes (node s js) (node s ([] ++ js)) :=
            .refl hq ht
          refine leads_phases
            (D := fun q _ b => Recounts a b pack counted passes (node s js) q)
            (R := fun q b => Recounts a b pack counted passes (node s js) q)
            (S := fun q b => Recounts a b pack counted passes (node s js) q)
            (leads_mapM_keep hkeeps hstart) (fun js' b h => ?_) (fun q' reached b h => ?_)
            (fun _ q' b h => ?_) (fun _ _ _ h => h) fun q' b h => ?_
          · exact h.trans hknown (recounts_pushDown h.sound h.tallied)
          · exact leads_foldlM_revisit_keep hkeeps (fun _ _ h => h.sound.regular) reached h
          · refine (leads_pushAggregates_recounts hagain h.sound h.tallied).mono fun _ _ h' => ?_
            exact h.trans hknown h'
          · exact h.trans hknown (recounts_prune h.sound h.tallied)

/-! ## Queries that only count -/

/-- All that the query aggregates are counts of bindings. -/
def CountsOnly (q : Query) : Prop :=
  ∀ p ∈ q.parts, ∀ g ∈ p.stage.shape.aggregates, g.how = .count ∧ g.input = none

instance : Decidable q.CountsOnly :=
  inferInstanceAs (Decidable (∀ p ∈ q.parts, ∀ g ∈ p.stage.shape.aggregates,
    g.how = .count ∧ g.input = none))

/-- Over some passes no group of the query counts too much for 64 bits, and to no flat stage
that may be counted comes too much. -/
inductive Countable (a : Arena) (passes : List Pass) : Bool → Query → Prop where
  | node {counted : Bool} {s : Stage} {js : List (String × Query)}
      (rows : counted = true → s.shape.Flat → ((Query.node s js).arrivals a passes).length < 2 ^ 63)
      (groups : ∀ keys g gs, s.shape = .group keys (g :: gs) → ∀ row,
        (((Query.node s js).arrivals a passes).filter (·.row keys = row)).length < 2 ^ 63)
      (joined : ∀ j ∈ js, Countable a passes (s.countsOn counted) j.2) :
      Countable a passes counted (.node s js)

/-- Little comes to any stage of the query. -/
theorem countable_of_arrivals (h : ∀ p ∈ q.parts, (p.arrivals a passes).length < 2 ^ 63) :
    Countable a passes counted q := by
  induction q generalizing counted with
  | node s js ih =>
      have hself := h _ (self_mem_parts _)
      refine .node (fun _ _ => hself) (fun _ _ _ _ _ => (List.length_filter_le _ _).trans_lt hself)
        fun j hj => ?_
      exact ih j hj fun p hp => h p (mem_parts_node.mpr (Or.inr ⟨j, hj, hp⟩))

/-- A query that only counts is one that counts, as long as its counts fit. -/
theorem Countable.tallied (h : Countable a passes counted q) (hcounts : q.CountsOnly)
    (hq : Sound a true pack q) : Tallied a passes counted q := by
  induction h generalizing pack with
  | @node counted s js hrows hgroups _ ih =>
      have hplain : Plain (fun _ => false) s js := ⟨hcounts _ (self_mem_parts _), fun _ _ => rfl⟩
      have hpassed : s.passed = [] := (hq.formed.lawful _ (self_mem_parts _)).passed_eq_nil
      refine .node (fun _ => false) (hplain.counts (fun j hj => ?_) fun v hv => ?_)
        ⟨hrows, fun row i => ?_⟩ fun j hj => ?_
      · exact ((hq.joined hj).formed.lawful _ (self_mem_parts _)).passed_eq_nil
      · rw [hpassed] at hv
        cases hv
      · rw [hplain.bare_eq, load_of_plain hplain]
        have hsome := i.pos
        cases hs : s.shape with
        | unfinished | select _ | filter _ =>
            rw [hs] at hsome
            exact absurd hsome (Nat.not_lt_zero _)
        | group keys gs =>
            cases gs with
            | nil =>
                rw [hs] at hsome
                exact absurd hsome (Nat.not_lt_zero _)
            | cons g gs => exact hgroups keys g gs hs row
      · exact ih j hj (fun p hp => hcounts p (mem_parts_node.mpr (Or.inr ⟨j, hj, hp⟩)))
          (hq.joined hj)

/-! ## What is gathered -/

/-- What a sink gathers of a query over some passes. -/
def gathered (a : Arena) (q : Query) (passes : List Pass) : Gathered :=
  ((Gathered.start q.stage.emittedBag).add (q.results a passes)).1

theorem gathered_of_group (hs : q.stage.shape = .group keys gs) : q.gathered a passes =
    .grouped (Groups.ofRows keys.length (gs.map (·.how)) (q.results a passes)) := by
  rw [gathered, Stage.emittedBag, hs, Gathered.start, List.map_map]
  rfl

/-- The groups of a query that counts are what arrives, collected by its keys. -/
theorem Tallied.groups (h : Tallied a passes counted q) (hq : Sound a false pack q)
    (hs : q.stage.shape = .group keys gs) {m : ℕ} (hm : gs.length = m) :
    (Groups.ofRows keys.length (gs.map (·.how)) (q.results a passes)).groups =
      (Weighing.collected (q.weighted a keys m passes)).map (Prod.map id Groups.columns) := by
  cases q with
  | node s js =>
      obtain ⟨taken, hcounts, hfits, hjoined⟩ := h
      have hgs : s.shape.aggregates = gs := by rw [stage_node] at hs; rw [hs]; rfl
      have hweighed := Tallied.weighed hcounts hfits hq hjoined
      have hresults : (Query.node s js).results a passes =
          ((Query.node s js).arrivals a passes).map (groupingRow keys gs) := by
        refine List.map_congr_left fun env _ => ?_
        rw [Stage.resultRow, hs]
      rw [hresults, Query.weighted]
      refine Groups.groups_columns (hcounts.additive hs) hm fun env henv => ?_
      rw [hweighed.arrivals] at henv
      obtain ⟨bare, hbare, rfl⟩ := List.mem_map.mp henv
      exact Stage.offered?_weights hs hm fun g hg => hweighed.weighs bare hbare g (hgs ▸ hg)

/-! ## What a query is optimized to -/

section

variable (hq : q.Built a) (hcounts : q.CountsOnly) (hrun : (q.optimize .all).run a = (q', b))

include hq hcounts hrun

theorem Built.recounts_of_run (h : Countable a passes false q) :
    Recounts a b false false passes q q' := by
  have hsound := hq.sound hq.scoped
  exact (leads_recounts q.depth hsound.loosen (h.tallied hcounts hsound)).of_run hrun

/-- What a query that only counts is optimized to has all in scope. -/
theorem Built.scoped_of_run : Sound b false false q' ∧ q'.Scoped b false := by
  have hnone : Countable a [] false q := countable_of_arrivals fun p _ => by
    cases p
    exact Nat.two_pow_pos 63
  have hrecounts := hq.recounts_of_run hcounts hrun hnone
  exact ⟨hrecounts.sound, hrecounts.tallied.scoped hrecounts.sound⟩

/-- Where no stage repeats a key, no stage binds a variable twice, before and after. -/
theorem Built.unambiguous_of_run (hkeys : ∀ p ∈ q.parts, p.stage.shape.keys.Nodup) :
    q.Unambiguous ∧ q'.Unambiguous := by
  have hsound := hq.sound hq.scoped
  obtain ⟨hsound', _⟩ := hq.scoped_of_run hcounts hrun
  have hneat : q.Neat true := fun p hp => ⟨(hq.neat p hp).outputs, fun _ => hkeys p hp⟩
  have hneat' : q'.Neat true := (leads_neat q.depth hneat).of_run hrun
  have hloose : q'.Neat false := (leads_neat q.depth hq.neat).of_run hrun
  constructor
  · exact (hsound.unambiguous_iff hq.neat).mpr fun j hj p hp =>
      hkeys p (mem_parts_of_joins ⟨j, hj, hp⟩)
  · exact (hsound'.unambiguous_iff hloose).mpr fun j hj p hp =>
      (hneat' p (mem_parts_of_joins ⟨j, hj, hp⟩)).keys rfl

end

/-- A sink gathers the same of a query that counts in another way. -/
theorem Recounts.gathered (h : Recounts a b false counted passes q q') (hq : Sound a false false q)
    (ht : Tallied a passes counted q) :
    Gathered.Alike (q.gathered a passes) (q'.gathered b passes) := by
  have hp := h.refits.grown.arena
  have hfound := h.found passes (List.suffix_refl _)
  by_cases hgroup : ∃ keys gs, q'.stage.shape = .group keys gs
  · obtain ⟨keys, gs, hs⟩ := hgroup
    obtain ⟨fs, hfs, _, hlength⟩ := h.alike.group hs
    have hbalanced :
        Balanced (q.weighted b keys gs.length passes) (q'.weighted b keys gs.length passes) := by
      refine balanced_weighted (fun v hv => ?_) (hfound.groups keys gs hs)
      rw [grouping_eq hs]
      exact List.mem_append_left _ hv
    have hgroups : (Groups.ofRows keys.length (gs.map (·.how)) (q'.results b passes)).groups =
        (Groups.ofRows keys.length (fs.map (·.how)) (q.results a passes)).groups := by
      rw [h.tallied.groups h.sound hs rfl, ht.groups hq hfs hlength, ← hbalanced.collected,
        weighted_grow hp hq.formed.known]
    rw [gathered_of_group hs, gathered_of_group hfs]
    refine ⟨?_, rfl, ?_⟩
    · rw [Gathered.isEmpty, Gathered.isEmpty, hgroups]
    · rw [Gathered.groupRows, Gathered.groupRows, Groups.rows, Groups.rows, hgroups]
  · have hno : ∀ keys gs, q'.stage.shape ≠ .group keys gs := fun keys gs hs => hgroup ⟨keys, gs, hs⟩
    have hshape := h.alike.eq_of_not_group hno
    have hrows : q'.results b passes = q.results a passes := by
      rw [results, results, ← arrivals_grow hp hq.formed.known]
      refine (map_eq_of_forall₂ ((hfound.rows hno).imp fun env env' he => ?_)).symm
      have hrow : q.stage.resultRow env = q'.stage.resultRow env := by
        rw [Stage.resultRow, Stage.resultRow, hshape, h.outputs]
      rw [hrow]
      refine Stage.resultRow_congr fun v hv => he v fun hn => hn.2 hv
    have hbag : q'.stage.emittedBag = q.stage.emittedBag := by
      rw [Stage.emittedBag, Stage.emittedBag, hshape, h.outputs]
    rw [Query.gathered, Query.gathered, hrows, hbag]
    exact ⟨rfl, rfl, rfl⟩

end Query

namespace Engine

open Query

variable {config : Config} {e e' e'' : Engine} {q q' : Query} {a b : Arena} {id id' : QueryId}
  {passes : List Pass} {timestampMs : Nat}

/-- The engine as it is, but not optimizing. -/
def plainly (e : Engine) : Engine := { e with config := { e.config with optimizeQueries := false } }

/-- A query that only counts, and repeats no key in a stage, can be installed optimized. Optimized
or not, the same is collected for it as long as its counts fit. -/
theorem collected_of_counts (hreach : Reachable config e)
    (hoptimize : config.optimizeQueries = true)
    (hbaggage : config.baggageEnabled = true) (hq : q.Built e.catalog.arena)
    (hcounts : q.CountsOnly) :
    ((∀ p ∈ q.parts, p.stage.shape.keys.Nodup) →
      ∃ id e' e'', e.plainly.install q = (.ok id, e') ∧ e.install q = (.ok id, e'')) ∧
    ∀ id id' e' e'', e.plainly.install q = (.ok id, e') → e.install q = (.ok id', e'') → id' = id ∧
      ∀ passes, Countable e.catalog.arena passes.reverse false q → ∀ timestampMs,
        collectedFor id e'' passes timestampMs = collectedFor id e' passes timestampMs := by
  rw [← hreach.config_eq] at hoptimize hbaggage
  have hsound := hq.sound hq.scoped
  obtain ⟨q', b, hrun⟩ : ∃ q' b, (q.optimize .all).run e.catalog.arena = (q', b) := ⟨_, _, rfl⟩
  obtain ⟨hsound', hscoped'⟩ := hq.scoped_of_run hcounts hrun
  have hoptimized : e.optimize q = (q', { e with catalog := { e.catalog with arena := b } }) := by
    rw [optimize, hoptimize, hrun]
    rfl
  have hformed : Formed (Lawful false) (e.optimize q).2.catalog.arena (e.optimize q).1 := by
    rw [hoptimized]
    exact hsound'.formed
  constructor
  · intro hkeys
    obtain ⟨hone, hone'⟩ := hq.unambiguous_of_run hcounts hrun hkeys
    obtain ⟨e', h⟩ :=
      (install_isOk_iff (e := e.plainly) rfl hsound.formed.ordered).mpr ⟨hq.scoped, hone⟩
    have hready : (e.optimize q).1.Scoped (e.optimize q).2.catalog.arena false ∧
        (e.optimize q).1.Unambiguous := by
      rw [hoptimized]
      exact ⟨hscoped', hone'⟩
    obtain ⟨e'', h'⟩ := (install_isOk_iff_optimized hformed.ordered).mpr hready
    exact ⟨_, e', e'', h, h'⟩
  · intro id id' e' e'' h h'
    have hid : id' = id := (install_eq_ok h').1.trans (install_eq_ok h).1.symm
    subst hid
    refine ⟨rfl, fun passes hcountable timestampMs => ?_⟩
    -- Both sinks gather what their queries find, and these find the same counts.
    have horderly : e.plainly.Orderly := hreach.orderly.of_woven_eq rfl (Nat.le_refl _)
    have hsink := (emissions_of_formed horderly rfl hbaggage hsound.formed h passes).2
    have hsink' := (emissions_of_installed hreach.orderly hbaggage hformed h' passes).2
    rw [hoptimized] at hsink'
    have hgathered := (hq.recounts_of_run hcounts hrun hcountable).gathered hsound.loosen
      (hcountable.tallied hcounts hsound)
    have hinstalled : e'.sinks = (e.plainly.install q).2.sinks := by rw [h]
    have hinstalled' : e''.sinks = (e.install q).2.sinks := by rw [h']
    have hlive : Ascending.Sorted e'.sinks.live.keys :=
      hinstalled ▸ sorted_live_install (e := e.plainly) hreach.sorted_live
    have hlive' : Ascending.Sorted e''.sinks.live.keys :=
      hinstalled' ▸ sorted_live_install hreach.sorted_live
    refine collect_alike (sorted_live_passes hlive passes)
      (sorted_live_passes hlive' passes) ?_ hsink hsink' hgathered _
    rw [reporting_passes, reporting_passes, hinstalled, hinstalled',
      reporting_install, reporting_install]
    rfl

namespace Sample

/-- How often each item was ordered, once for every login before the order. -/
def tally : Query :=
  .node ⟨⟨some "o", order⟩, [("item", ⟨0⟩)], [], [], [], [⟨0⟩, ⟨1⟩],
    .group [⟨0⟩] [⟨⟨1⟩, .count, none⟩]⟩ [("l", .unnamed login)]

def tallyArena : Arena := ⟨[.observed "o" "item", .aggregated .count none]⟩

/-- The sample joins, grouped by some names and counted. -/
def tallying (names : List String) : Build Query := do
  let q ← joined.groupBy names
  q.count

/-- An engine that optimizes, in which the sample joins have been grouped and counted. -/
def counter (names : List String) : Engine :=
  ((Engine.start .default).buildQuery (tallying names)).2

theorem reachable_counter (names : List String) : Reachable .default (counter names) :=
  .buildQuery _ .start

theorem built_joined : joined.Built .empty := by
  have hnamed : Query.named "o" order = .ok (.watch ⟨some "o", order⟩) := rfl
  have hjoin : (Query.joinTracepoint (.watch ⟨some "o", order⟩) "l" login none).Yields .empty
      joined .empty := rfl
  exact (Query.Built.named hnamed).joinTracepoint hjoin

theorem built_tally : tally.Built tallyArena := by
  have hgroup : (joined.groupBy ["o.item"]).Yields .empty
      (.node ⟨⟨some "o", order⟩, [("item", ⟨0⟩)], [], [], [], [⟨0⟩], .group [⟨0⟩] []⟩
        [("l", .unnamed login)])
      ⟨[.observed "o" "item"]⟩ := by decide +kernel
  exact (built_joined.groupBy hgroup).count rfl

/-- The logins of each user before an order, grouped by a key that recurs. -/
def recurring : Query :=
  .node ⟨⟨some "o", order⟩, [], [], [], [], [⟨0⟩, ⟨1⟩], .group [⟨0⟩, ⟨0⟩] [⟨⟨1⟩, .count, none⟩]⟩
    [("l", .node ⟨⟨none, login⟩, [("user", ⟨0⟩)], [], [], [], [⟨0⟩], .unfinished⟩ [])]

def recurringArena : Arena := ⟨[.observed "" "user", .aggregated .count none]⟩

theorem built_recurring : recurring.Built recurringArena := by
  have hgroup : (joined.groupBy ["l.user", "l.user"]).Yields .empty
      (.node ⟨⟨some "o", order⟩, [], [], [], [], [⟨0⟩], .group [⟨0⟩, ⟨0⟩] []⟩
        [("l", .node ⟨⟨none, login⟩, [("user", ⟨0⟩)], [], [], [], [⟨0⟩], .unfinished⟩ [])])
      ⟨[.observed "" "user"]⟩ := by decide +kernel
  exact (built_joined.groupBy hgroup).count rfl

def priced : Tracepoint := ⟨"order", ["item", "price"]⟩

/-- What was ordered of each item, summed up once for every login before. -/
def revenue : Query :=
  .node ⟨⟨some "o", priced⟩, [("item", ⟨0⟩), ("price", ⟨1⟩)], [], [], [], [⟨0⟩, ⟨2⟩],
    .group [⟨0⟩] [⟨⟨2⟩, .sum, some ⟨1⟩⟩]⟩ [("l", .unnamed login)]

def revenueArena : Arena :=
  ⟨[.observed "o" "item", .observed "o" "price", .aggregated .sum (some ⟨1⟩)]⟩

def summing : Build Query := do
  let q ← Query.joinTracepoint (.watch ⟨some "o", priced⟩) "l" login none
  let q ← q.groupBy ["o.item"]
  q.aggregate "o.price" .sum

/-- An engine that optimizes, in which the revenue has been built. -/
def till : Engine := ((Engine.start .default).buildQuery summing).2

theorem built_revenue : revenue.Built revenueArena := by
  have hnamed : Query.named "o" priced = .ok (.watch ⟨some "o", priced⟩) := rfl
  have hjoin : (Query.joinTracepoint (.watch ⟨some "o", priced⟩) "l" login none).Yields .empty
      (.node (.watch ⟨some "o", priced⟩) [("l", .unnamed login)]) .empty := rfl
  have hgroup : (Query.groupBy (.node (.watch ⟨some "o", priced⟩) [("l", .unnamed login)])
      ["o.item"]).Yields .empty
      (.node ⟨⟨some "o", priced⟩, [("item", ⟨0⟩)], [], [], [], [⟨0⟩], .group [⟨0⟩] []⟩
        [("l", .unnamed login)])
      ⟨[.observed "o" "item"]⟩ := by decide +kernel
  have hsum : (Query.aggregate (.node ⟨⟨some "o", priced⟩, [("item", ⟨0⟩)], [], [], [], [⟨0⟩],
      .group [⟨0⟩] []⟩ [("l", .unnamed login)]) "o.price" .sum).Yields ⟨[.observed "o" "item"]⟩
      revenue revenueArena := by decide +kernel
  exact (((Query.Built.named hnamed).joinTracepoint hjoin).groupBy hgroup).aggregate hsum

/-- Two logins, and an order at a price. -/
def sale : List Pass :=
  [⟨quiet, "login", [("user", .str "ann")]⟩, ⟨quiet, "login", [("user", .str "bob")]⟩,
    ⟨quiet, "order", [("item", .int 3), ("price", .int 5)]⟩]

end Sample

open Engine.Sample in
theorem collected_tally :
    collectedFor ⟨1⟩ ((counter ["o.item"]).install tally).2 Sample.passes 5 =
      [⟨⟨1⟩, 5, 1000, [], [[.int 3, .int 2]]⟩] := by
  have harena : (counter ["o.item"]).catalog.arena = tallyArena := by decide +kernel
  have hplain : ((counter ["o.item"]).plainly.install tally).1 = .ok ⟨1⟩ := by decide +kernel
  have hoptimized : ((counter ["o.item"]).install tally).1 = .ok ⟨1⟩ := by decide +kernel
  obtain ⟨_, hsame⟩ := collected_of_counts (reachable_counter ["o.item"]) rfl rfl
    (harena ▸ built_tally) (by decide)
  obtain ⟨_, hcollected⟩ := hsame _ _ _ _ (Prod.ext hplain rfl) (Prod.ext hoptimized rfl)
  have hfew : ∀ p ∈ tally.parts, (p.arrivals tallyArena Sample.passes.reverse).length < 2 ^ 63 := by
    decide +kernel
  rw [hcollected Sample.passes (harena ▸ countable_of_arrivals hfew) 5]
  decide +kernel

open Engine.Sample in
/-- A key that recurs stays a key of the joined stage that counts first, and is bound twice then. -/
theorem exists_counts_not_installed :
    ∃ (e e' e'' : Engine) (q : Query), Reachable .default e ∧ q.Built e.catalog.arena ∧
      q.CountsOnly ∧ e.plainly.install q = (.ok ⟨1⟩, e') ∧
      collectedFor ⟨1⟩ e' Sample.passes 5 =
        [⟨⟨1⟩, 5, 1000, [], [[.str "ann", .str "ann", .int 1], [.str "bob", .str "bob", .int 1]]⟩] ∧
      e.install q = (.error ⟨.advice, "'1.user' is bound twice"⟩, e'') := by
  have harena : (counter ["l.user", "l.user"]).catalog.arena = recurringArena := by decide +kernel
  have hplain : ((counter ["l.user", "l.user"]).plainly.install recurring).1 = .ok ⟨1⟩ := by
    decide +kernel
  have hoptimized : ((counter ["l.user", "l.user"]).install recurring).1 =
      .error ⟨.advice, "'1.user' is bound twice"⟩ := by decide +kernel
  exact ⟨_, _, _, recurring, reachable_counter _, harena ▸ built_recurring, by decide,
    Prod.ext hplain rfl, by decide +kernel, Prod.ext hoptimized rfl⟩

open Engine.Sample in
/-- Other aggregates are not multiplied. A sum that reads nothing of a joined stage takes each
of its groups for one binding once aggregates move, and for as many as it stands for otherwise. -/
theorem exists_sum_ne_of_moved :
    ∃ (e e' e'' : Engine) (q : Query), Reachable .default e ∧ q.Built e.catalog.arena ∧
      (q.optimize ⟨true, true, false⟩).run e.catalog.arena = (q, e.catalog.arena) ∧
      e.plainly.install q = (.ok ⟨1⟩, e') ∧ e.install q = (.ok ⟨1⟩, e'') ∧
      collectedFor ⟨1⟩ e' sale 5 = [⟨⟨1⟩, 5, 1000, [], [[.int 3, .int 10]]⟩] ∧
      collectedFor ⟨1⟩ e'' sale 5 = [⟨⟨1⟩, 5, 1000, [], [[.int 3, .int 5]]⟩] := by
  have harena : till.catalog.arena = revenueArena := by decide +kernel
  have hplain : (till.plainly.install revenue).1 = .ok ⟨1⟩ := by decide +kernel
  have hoptimized : (till.install revenue).1 = .ok ⟨1⟩ := by decide +kernel
  have hstays : (revenue.optimize ⟨true, true, false⟩).run revenueArena = (revenue, revenueArena) :=
    rfl
  exact ⟨till, _, _, revenue, .buildQuery _ .start, harena ▸ built_revenue, harena ▸ hstays,
    Prod.ext hplain rfl, Prod.ext hoptimized rfl, by decide +kernel, by decide +kernel⟩

end Engine

end CausalTrace
