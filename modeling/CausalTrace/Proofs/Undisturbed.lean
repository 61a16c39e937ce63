import CausalTrace.Proofs.Appending
import CausalTrace.Proofs.Instances
import CausalTrace.Proofs.Rewording
import CausalTrace.Query.Explain

/-!
# What later work leaves alone

All queries of a catalog share one arena, and whatever is done with any of them adds to it.
A query depends on the definitions of its own variables only. So it compiles to the same advice
and is shown as the same text, whatever is done after it was obtained.
-/

namespace CausalTrace

/-! ## Showing renamed queries -/

namespace Query

section

variable {a b : Arena} {f : VarId → VarId} {vs us : List VarId} {s : Stage} {q : Query}

theorem labels_map (h : Renames a b f vs) (hus : us ⊆ vs) : labels b (us.map f) = labels a us := by
  rw [labels, labels, List.map_map]
  exact congrArg bracketed (List.map_congr_left fun v hv => h.label_eq (hus hv))

theorem letLines_map (h : Renames a b f vs) {name : String} {v : VarId} (hv : v ∈ vs) :
    letLines b (name, f v) = letLines a (name, v) := by
  obtain ⟨d, hd, hd'⟩ := h.copies v hv
  rw [letLines, letLines, hd, hd']
  cases d with
  | observed source field => rfl
  | aggregated how input => rfl
  | computed lname expr args =>
      have hargs : args ⊆ vs := fun u hu => h.closed v hv u ((Arena.reads_computed hd).symm ▸ hu)
      simp only [Definition.mapVars, labels_map h hargs]

theorem shapeLines_mapVars (h : Renames a b f vs) (hs : s.Inside a vs) :
    shapeLines b (s.shape.mapVars f) = shapeLines a s.shape := by
  have hreads : s.shape.reads ⊆ vs := fun v hv => hs.refers v (.of_shape hv)
  cases hshape : s.shape with
  | unfinished => rfl
  | filter keep => rfl
  | select selected =>
      have hselected : selected ⊆ vs := by rwa [hshape] at hreads
      simp only [Shape.mapVars, shapeLines, labels_map h hselected]
  | group keys gs =>
      rw [hshape] at hreads
      obtain ⟨hkeys, hinputs⟩ := List.append_subset.mp hreads
      simp only [Shape.mapVars, shapeLines, labels_map h hkeys, List.map_map]
      congr 1
      refine List.map_congr_left fun g hg => ?_
      have hinput : (g.input.map f).map b.label = g.input.map a.label := by
        cases hi : g.input with
        | none => rfl
        | some v =>
            exact congrArg some (h.label_eq (hinputs (List.mem_filterMap.mpr ⟨g, hg, hi⟩)))
      simp only [Function.comp_apply, hinput]

/-- A renamed stage is shown as the stage is. -/
theorem stageLines_mapVars (h : Renames a b f vs) (hs : s.Inside a vs) :
    stageLines b (s.mapVars f) = stageLines a s := by
  have hlets : (s.mapVars f).lets.flatMap (letLines b) = s.lets.flatMap (letLines a) := by
    rw [Stage.mapVars, List.flatMap_map]
    refine List.flatMap_congr fun l hl => letLines_map h (hs.defines ?_)
    exact Stage.mem_defines_iff.mpr (Or.inr (Or.inl (List.mem_map_of_mem hl)))
  have hwheres :
      (s.mapVars f).wheres.map (fun w => "  where " ++ w.expr ++ " " ++ labels b w.args) =
      s.wheres.map fun w => "  where " ++ w.expr ++ " " ++ labels a w.args := by
    rw [Stage.mapVars, List.map_map]
    refine List.map_congr_left fun w hw => ?_
    rw [Function.comp_apply, labels_map h fun v hv => hs.refers v (.of_where hw hv)]
  have houtputs : labels b (s.mapVars f).outputs = labels a s.outputs := by
    rw [Stage.outputs_mapVars h hs]
    exact labels_map h hs.outputs
  have hempty : (s.mapVars f).observed.isEmpty = s.observed.isEmpty := by
    simp [Stage.mapVars, Table.mapValues]
  have hshape : (s.mapVars f).shape = s.shape.mapVars f := rfl
  rw [stageLines, stageLines, hlets, hwheres, houtputs, fields_mapStage, hempty, hshape,
    shapeLines_mapVars h hs]
  cases s.shape <;> rfl

/-- A renamed query is shown as the query is. -/
theorem explainLines_mapVars (h : Renames a b f vs) (hq : q.Inside a vs) (depth : Nat) :
    (q.mapVars f).explainLines b depth = q.explainLines a depth := by
  induction q generalizing depth with
  | node s js ih =>
      have hown : s.Inside a vs := hq _ (self_mem_parts _)
      have hjoined : ∀ j ∈ js, j.2.Inside a vs := fun j hj p hp =>
        hq p (mem_parts_node.mpr (Or.inr ⟨j, hj, hp⟩))
      have hjoins : joinLines b depth (mapJoins f js) = joinLines a depth js := by
        clear hq
        induction js with
        | nil => rfl
        | cons j js ihjs =>
            obtain ⟨hj, hjs⟩ := List.forall_mem_cons.mp hjoined
            rw [mapJoins, joinLines, joinLines, ih j List.mem_cons_self hj,
              ihjs (fun k hk => ih k (List.mem_cons_of_mem _ hk)) hjs]
      rw [mapVars, explainLines, explainLines, stageLines_mapVars h hown, hjoins]

end

/-! ## What a query depends on -/

variable {a b : Arena} {q : Query}

/-- A query is shown alike in every arena where its variables are defined alike. -/
theorem Copiable.explain_of_agrees (h : Copiable a q) (hagrees : a.Agrees b q.defines) :
    q.explain b = q.explain a := by
  have hlines := explainLines_mapVars (h.keeps hagrees) h.inside 0
  rw [h.inside.mapVars_id] at hlines
  rw [explain, explain, hlines]

end Query

/-! ## Work on a catalog -/

namespace Catalog

/-- A builder call, with what it is given. -/
inductive BuilderCall where
  | addWhere (expr : String) (args : List String)
  | addLet (name expr : String) (args : List String)
  | select (names : List String)
  | groupBy (names : List String)
  | aggregate (name : String) (how : Aggregation)
  | count
  | join (aliasName : String) (other : Query) (filter : Option Filter)
  | joinTracepoint (aliasName : String) (t : Tracepoint) (filter : Option Filter)
  | joinVia (via aliasName : String) (other : Query) (filter : Option Filter)

def BuilderCall.build (q : Query) : BuilderCall → Build Query
  | .addWhere expr args => q.addWhere expr args
  | .addLet name expr args => q.addLet name expr args
  | .select names => q.select names
  | .groupBy names => q.groupBy names
  | .aggregate name how => q.aggregate name how
  | .count => q.count
  | .join aliasName other filter => q.join aliasName other filter
  | .joinTracepoint aliasName t filter => q.joinTracepoint aliasName t filter
  | .joinVia via aliasName other filter => q.joinVia via aliasName other filter

/-- Something done with a catalog. The queries may be any, built in it or not. -/
inductive Operation where
  | define (d : Definition)
  | addTracepoint (t : Tracepoint)
  | addQuery (name : String) (q : Query)
  | parse (text : String)
  | parseNamed (name text : String)
  | call (q : Query) (k : BuilderCall)
  | optimize (m : Moves) (q : Query)

/-- The catalog after an operation, which may have failed. -/
def Operation.run (c : Catalog) : Operation → Catalog
  | .define d => { c with arena := (c.arena.define d).2 }
  | .addTracepoint t => c.addTracepoint t
  | .addQuery name q => (c.addQuery name q).toOption.getD c
  | .parse text => (c.parse text).2
  | .parseNamed name text => (c.parseNamed name text).2
  | .call q k => (c.build (k.build q)).2
  | .optimize m q => { c with arena := ((q.optimize m).run c.arena).2 }

/-- The catalog after a sequence of operations. -/
def after (c : Catalog) (ops : List Operation) : Catalog := ops.foldl Operation.run c

variable {c c' : Catalog} {q : Query} {name text : String}

theorem prefix_build {α : Type} {steps : Build α} (h : steps.Appends) :
    c.arena.defs <+: (c.build steps).2.arena.defs :=
  h c.arena

theorem BuilderCall.appends (k : BuilderCall) (q : Query) : (k.build q).Appends := by
  cases k with
  | addWhere expr args => exact q.appends_addWhere expr args
  | addLet name expr args => exact q.appends_addLet name expr args
  | select names => exact q.appends_select names
  | groupBy names => exact q.appends_groupBy names
  | aggregate name how => exact q.appends_aggregate name how
  | count => exact q.appends_addAggregate .count none
  | join aliasName other filter => exact q.appends_join other aliasName filter
  | joinTracepoint aliasName t filter => exact q.appends_join (.unnamed t) aliasName filter
  | joinVia via aliasName other filter => exact q.appends_joinVia other via aliasName filter

theorem arena_addQuery (h : c.addQuery name q = .ok c') : c'.arena = c.arena := by
  rw [addQuery] at h
  split at h
  · cases h
  · split at h
    · cases h
    · cases h
      rfl

theorem prefix_parse (c : Catalog) (text : String) : c.arena.defs <+: (c.parse text).2.arena.defs :=
  prefix_build (Grammar.appends_query c text)

theorem prefix_parseNamed (c : Catalog) (name text : String) :
    c.arena.defs <+: (c.parseNamed name text).2.arena.defs := by
  have hparse := c.prefix_parse text
  rw [parseNamed]
  split
  · next h => rwa [h] at hparse
  · next q c' h =>
      rw [h] at hparse
      split
      · exact hparse
      · next hadd => rwa [← arena_addQuery hadd] at hparse

/-- No operation edits a definition or takes one away. -/
theorem prefix_run (c : Catalog) (op : Operation) : c.arena.defs <+: (op.run c).arena.defs := by
  cases op with
  | define d => exact Arena.prefix_define
  | addTracepoint t => exact List.prefix_refl _
  | addQuery name q =>
      rw [Operation.run]
      cases hadd : c.addQuery name q with
      | error e => exact List.prefix_refl _
      | ok c' => exact (arena_addQuery hadd).symm ▸ List.prefix_refl _
  | parse text => exact c.prefix_parse text
  | parseNamed name text => exact c.prefix_parseNamed name text
  | call q k => exact prefix_build (k.appends q)
  | optimize m q => exact q.appends_optimizeWithin m q.depth c.arena

theorem prefix_after (c : Catalog) (ops : List Operation) :
    c.arena.defs <+: (c.after ops).arena.defs := by
  induction ops using List.reverseRecOn with
  | nil => exact List.prefix_refl _
  | append_singleton ops op ih =>
      rw [after, List.foldl_append]
      exact ih.trans (prefix_run _ op)

/-! ## What is parsed is built -/

/-- The arena is in order and the queries that texts refer to are built. -/
structure Stocked (c : Catalog) : Prop where
  ordered : c.arena.Ordered
  queries : ∀ j ∈ c.queries, j.2.Built c.arena

theorem Stocked.unnamed (hc : c.Stocked) (t : Tracepoint) : (Query.unnamed t).Built c.arena :=
  (Query.Built.unnamed t).extend (List.nil_prefix) hc.ordered

theorem Stocked.joined (hc : c.Stocked) (h : Grammar.joined c name = .ok q) : q.Built c.arena := by
  unfold Grammar.joined at h
  split at h
  · next t _ =>
      cases h
      exact hc.unnamed t
  · next u _ hu =>
      cases h
      exact hc.queries _ (Table.mem_of_find?_eq_some hu)
  · cases h

theorem Stocked.origin (hc : c.Stocked) {o : Script.Origin} (h : o.build c = .ok q) :
    q.Built c.arena := by
  cases o with
  | plain name =>
      obtain ⟨t, _, h⟩ := bind_eq_ok_iff.mp h
      cases h
      exact hc.unnamed t
  | aliased aliasName name =>
      obtain ⟨t, _, h⟩ := bind_eq_ok_iff.mp h
      exact (Query.Built.named h).extend List.nil_prefix hc.ordered

theorem Stocked.step (hc : c.Stocked) {a a' : Arena} {q' : Query} {step : Script.Step}
    (hp : c.arena.defs <+: a.defs) (hq : q.Built a) (h : (step.build c q).Yields a q' a') :
    c.arena.defs <+: a'.defs ∧ q'.Built a' := by
  cases step with
  | condition expr args =>
      exact ⟨hp.trans ((q.appends_addWhere expr args).of_yields h), hq.addWhere h⟩
  | compute name expr args =>
      exact ⟨hp.trans ((q.appends_addLet name expr args).of_yields h), hq.addLet h⟩
  | join aliasName filter source target =>
      simp only [Script.Step.build] at h
      split at h
      · exact absurd h Build.not_yields_throw
      · obtain ⟨other, b, hj, h⟩ := Build.yields_bind.mp h
        obtain ⟨hfound, rfl⟩ := Build.yields_liftExcept.mp hj
        have hother : other.Built a := (hc.joined hfound).extend hp hq.wellFormed.ordered
        split at h
        · exact ⟨hp.trans ((q.appends_join other aliasName filter).of_yields h), hq.join hother h⟩
        · split at h
          · exact ⟨hp.trans ((q.appends_joinVia other target aliasName filter).of_yields h),
              hq.joinVia hother h⟩
          · exact absurd h Build.not_yields_throw

theorem Stocked.steps (hc : c.Stocked) {a a' : Arena} {q' : Query} {steps : List Script.Step}
    (hp : c.arena.defs <+: a.defs) (hq : q.Built a)
    (h : (steps.foldlM (Script.Step.build c) q).Yields a q' a') : q'.Built a' := by
  induction steps generalizing q a with
  | nil =>
      obtain ⟨rfl, rfl⟩ := Build.yields_pure.mp h
      exact hq
  | cons step steps ih =>
      rw [List.foldlM_cons] at h
      obtain ⟨q₁, a₁, hstep, h⟩ := Build.yields_bind.mp h
      obtain ⟨hp₁, hq₁⟩ := hc.step hp hq hstep
      exact ih hp₁ hq₁ h

theorem built_aggregates {a a' : Arena} {q' : Query} {gs : List Script.Aggregate} (hq : q.Built a)
    (h : (gs.foldlM Script.Aggregate.build q).Yields a q' a') : q'.Built a' := by
  induction gs generalizing q a with
  | nil =>
      obtain ⟨rfl, rfl⟩ := Build.yields_pure.mp h
      exact hq
  | cons g gs ih =>
      rw [List.foldlM_cons] at h
      obtain ⟨q₁, a₁, hg, hgs⟩ := Build.yields_bind.mp h
      cases g with
      | count => exact ih (hq.count hg) hgs
      | of how operand => exact ih (hq.aggregate hg) hgs

theorem built_ending {a a' : Arena} {q' : Query} {ending : Script.Ending} (hq : q.Built a)
    (h : (ending.build q).Yields a q' a') : q'.Built a' := by
  cases ending with
  | unfinished =>
      obtain ⟨rfl, rfl⟩ := Build.yields_pure.mp h
      exact hq
  | select names => exact hq.select h
  | group keys gs =>
      obtain ⟨q₁, a₁, hgroup, h⟩ := Build.yields_bind.mp h
      exact built_aggregates (hq.groupBy hgroup) h

/-- A query that is parsed is one that builder calls lead to. -/
theorem Stocked.built_of_parse (hc : c.Stocked) (h : c.parse text = (.ok q, c')) :
    q.Built c'.arena := by
  obtain ⟨ls, s, hlaid, hs⟩ := spelled_of_parse h
  rw [parse_of_spelled hlaid hs] at h
  obtain ⟨b, hbuilt, rfl⟩ := build_eq_ok_iff.mp h
  obtain ⟨q₁, a₁, horigin, hbuilt⟩ := Build.yields_bind.mp hbuilt
  obtain ⟨hstarted, rfl⟩ := Build.yields_liftExcept.mp horigin
  obtain ⟨q₂, a₂, hsteps, hending⟩ := Build.yields_bind.mp hbuilt
  exact built_ending (hc.steps (List.prefix_refl _) (hc.origin hstarted) hsteps) hending

end Catalog

/-! ## Earlier queries -/

namespace Query

/-- Whatever is done after a query was obtained, with it or with others, whether it succeeds or
fails, it compiles under any id to the same advice or with the same error, and it is shown as
the same text: the arena gets more definitions, and of those that it has the query reads its own
only. -/
theorem undisturbed {c : Catalog} {q : Query} (h : q.Obtained c.arena) :
    (∀ ops, c.arena.defs <+: (c.after ops).arena.defs ∧
      (∀ id, q.compile (c.after ops).arena id = q.compile c.arena id) ∧
        q.explain (c.after ops).arena = q.explain c.arena) ∧
    ∀ b : Arena, (∀ v ∈ q.defines, b.definition? v = c.arena.definition? v) →
      (∀ id, q.compile b id = q.compile c.arena id) ∧ q.explain b = q.explain c.arena := by
  have hq := h.copiable
  have hreads : ∀ b : Arena, c.arena.Agrees b q.defines →
      (∀ id, q.compile b id = q.compile c.arena id) ∧ q.explain b = q.explain c.arena :=
    fun b hb => ⟨hq.compile_of_agrees hb, hq.explain_of_agrees hb⟩
  refine ⟨fun ops => ?_, hreads⟩
  have hp := c.prefix_after ops
  exact ⟨hp, hreads _ (.of_extension hp hq.sound.formed.known)⟩

namespace Sample

def totalsCatalog : Catalog :=
  ⟨[("reading", reading), ("request", request), ("session", session)],
    [("totals", totals)], totalsArena⟩

/-- The totals are optimized, joined to themselves as a copy and joined by name, two calls fail, and
a definition is added that reads what there is not. -/
def laterWork : List Catalog.Operation :=
  [.optimize .all totals, .call totals (.join "again" totals none),
    .parse "from s in session\njoin t in totals on t -> s\nselect s.user t.nosuch",
    .call totals (.select ["r.limit"]), .parseNamed "users" "from session\nselect user",
    .define (.aggregated .sum (some ⟨99⟩))]

end Sample

open Query.Sample in
theorem undisturbed_totals : totals.Obtained totalsCatalog.arena ∧
    (totalsCatalog.after laterWork).arena.defs.length = totalsCatalog.arena.defs.length + 8 ∧
      ∃ advice, totals.compile (totalsCatalog.after laterWork).arena ⟨1⟩ = .ok advice := by
  have hobtained : totals.Obtained totalsCatalog.arena := .built built_totals
  obtain ⟨advice, hadvice⟩ := exists_of_isOk compile_totals
  refine ⟨hobtained, by decide +kernel, advice, ?_⟩
  rw [((undisturbed hobtained).1 laterWork).2.1]
  exact hadvice

end Query

end CausalTrace
