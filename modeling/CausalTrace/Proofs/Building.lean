import CausalTrace.Proofs.Resolving
import CausalTrace.Query.Build

/-!
# Queries that are built

The queries that building steps lead to, in arenas that may hold the variables of other
queries as well. All of them are well-formed.
-/

namespace CausalTrace

namespace Query

/-- A query that comes from building steps. Between the steps the arena may get any
definitions of known variables. -/
inductive Built : Arena → Query → Prop where
  | unnamed (t : Tracepoint) : Built .empty (.unnamed t)
  | named {aliasName : String} {t : Tracepoint} {q : Query} :
      named aliasName t = .ok q → Built .empty q
  | grow {a : Arena} {q : Query} {d : Definition} :
      Built a q → (∀ v ∈ d.reads, a.Knows v) → Built (a.define d).2 q
  | addWhere {a a' : Arena} {q q' : Query} {expr : String} {args : List String} :
      Built a q → (q.addWhere expr args).Yields a q' a' → Built a' q'
  | addLet {a a' : Arena} {q q' : Query} {name expr : String} {args : List String} :
      Built a q → (q.addLet name expr args).Yields a q' a' → Built a' q'
  | select {a a' : Arena} {q q' : Query} {names : List String} :
      Built a q → (q.select names).Yields a q' a' → Built a' q'
  | groupBy {a a' : Arena} {q q' : Query} {names : List String} :
      Built a q → (q.groupBy names).Yields a q' a' → Built a' q'
  | aggregate {a a' : Arena} {q q' : Query} {name : String} {how : Aggregation} :
      Built a q → (q.aggregate name how).Yields a q' a' → Built a' q'
  | count {a a' : Arena} {q q' : Query} :
      Built a q → q.count.Yields a q' a' → Built a' q'
  | join {a a' : Arena} {q q' other : Query} {aliasName : String} {filter : Option Filter} :
      Built a q → Built a other → (q.join aliasName other filter).Yields a q' a' → Built a' q'
  | joinTracepoint {a a' : Arena} {q q' : Query} {aliasName : String} {t : Tracepoint}
      {filter : Option Filter} :
      Built a q → (q.joinTracepoint aliasName t filter).Yields a q' a' → Built a' q'
  | joinVia {a a' : Arena} {q q' other : Query} {via aliasName : String}
      {filter : Option Filter} :
      Built a q → Built a other → (q.joinVia via aliasName other filter).Yields a q' a' →
        Built a' q'

/-- What the first stage of a built query delivers: nothing until its shape is decided,
and then all that it selects or groups. -/
def Rooted (q : Query) : Prop :=
  match q.stage.shape with
  | .unfinished => q.stage.outputs = []
  | .select selected => q.stage.outputs = .ofList selected
  | .group keys gs => ∀ v, v ∈ q.stage.outputs ↔ v ∈ keys ∨ v ∈ gs.map (·.var)
  | .filter _ => False

variable {a a' b : Arena} {q q' u other : Query}

/-! ## Steps on one stage -/

theorem wellFormed_watch (ho : a.Ordered) (source : Source) : WellFormed a (.watch source) where
  ordered := ho
  known := List.forall_mem_nil _
  distinct := List.nodup_nil
  lawful p hp := by
    rw [watch, mem_parts_node] at hp
    rcases hp with rfl | ⟨_, h, _⟩
    · refine ⟨⟨List.Pairwise.nil, List.nodup_nil⟩, ?_⟩
      intro _ keys gs hs
      cases hs
    · cases h

theorem requireUnfinished_eq_ok {step : String} (h : q.requireUnfinished step = .ok ()) :
    q.stage.shape = .unfinished := by
  rw [requireUnfinished] at h
  split at h
  · assumption
  · cases h

theorem Rooted.outputs_eq_nil (h : q.Rooted) (hs : q.stage.shape = .unfinished) :
    q.stage.outputs = [] := by
  rw [Rooted, hs] at h
  exact h

/-- Shape and outputs decide whether a query is rooted. -/
theorem Rooted.congr (h : q.Rooted) (hs : q'.stage.shape = q.stage.shape)
    (ho : q'.stage.outputs = q.stage.outputs) : q'.Rooted := by
  rw [Rooted, hs, ho]
  exact h

theorem requireAvailable_eq_ok {name : String} (h : q.requireAvailable name = .ok ()) :
    q.stage.let? name = none ∧ name ∉ q.joins.keys := by
  rw [requireAvailable] at h
  split at h
  · next ha =>
      rw [isAvailable] at ha
      simp only [Bool.and_eq_true, Bool.not_eq_true', Option.isNone_iff_eq_none] at ha
      exact ⟨ha.1.1.1.2, Table.contains_eq_false_iff.mp ha.1.1.2⟩
  · cases h

/-- A stage changes neither its variables nor its joins. -/
theorem enlarged_withStage {f : Stage → Stage} (hd : (f q.stage).defines.Perm q.stage.defines)
    (hl : q.Lawful true → (q.withStage f).Lawful true) : Enlarged a a q (q.withStage f) := by
  cases q with
  | node s js =>
      refine Enlarged.of_stage [] (Nat.le_refl _) id ?_ List.nodup_nil (List.forall_mem_nil _) hl
      rw [List.append_nil]
      exact hd

theorem enlarged_addWhere {expr : String} {args : List String}
    (h : (q.addWhere expr args).Yields a q' a') : Enlarged a a' q q' := by
  obtain ⟨_, _, hu, h⟩ := Build.yields_bind.mp h
  obtain ⟨_, rfl⟩ := Build.yields_liftExcept.mp hu
  obtain ⟨⟨u, vs⟩, b, hi, h⟩ := Build.yields_bind.mp h
  obtain ⟨rfl, rfl⟩ := Build.yields_pure.mp h
  refine (resolved_inputs hi).1.toEnlarged.trans (enlarged_withStage (List.Perm.refl _) ?_)
  intro hl
  rw [← node_stage_joins u] at hl ⊢
  exact ⟨⟨hl.aliases, hl.names⟩, hl.groups⟩

theorem enlarged_addLet (hw : WellFormed a q) {name expr : String} {args : List String}
    (h : (q.addLet name expr args).Yields a q' a') : Enlarged a a' q q' := by
  obtain ⟨_, _, hu, h⟩ := Build.yields_bind.mp h
  obtain ⟨_, rfl⟩ := Build.yields_liftExcept.mp hu
  obtain ⟨_, _, ha, h⟩ := Build.yields_bind.mp h
  obtain ⟨hfree, rfl⟩ := Build.yields_liftExcept.mp ha
  obtain ⟨⟨u, vs⟩, b, hi, h⟩ := Build.yields_bind.mp h
  obtain ⟨v, c, hd, h⟩ := Build.yields_bind.mp h
  obtain ⟨rfl, rfl⟩ := Build.yields_define.mp hd
  obtain ⟨rfl, rfl⟩ := Build.yields_pure.mp h
  obtain ⟨hr, hm⟩ := resolved_inputs hi
  have hknown := (hw.enlarge hr.toEnlarged).known
  refine hr.toEnlarged.trans ?_
  have hnone : u.stage.let? name = none := by
    rw [Stage.let?, hr.lets]
    exact (requireAvailable_eq_ok hfree).1
  cases u with
  | node s js =>
      refine Enlarged.of_definition (fun w hmem => hknown w (hm w hmem)) ?_ ?_
      · simp only [Stage.defines, List.map_append, List.append_assoc]
        refine List.Perm.append_left _ (List.Perm.append_left _ ?_)
        exact List.perm_append_comm
      · intro hl
        refine ⟨⟨hl.aliases, ?_⟩, hl.groups⟩
        have hn : name ∉ s.lets.map (·.1) := by
          intro hmem
          obtain ⟨l, hl, hname⟩ := List.mem_map.mp hmem
          have hne := List.lookup_eq_none_iff.mp hnone l hl
          rw [hname, bne_self_eq_false] at hne
          cases hne
        simp only [stage_node, List.map_append, List.map_cons, List.map_nil]
        exact (List.perm_append_singleton _ _).nodup_iff.mpr (List.nodup_cons.mpr ⟨hn, hl.names⟩)

theorem enlarged_select {names : List String} (h : (q.select names).Yields a q' a') :
    Enlarged a a' q q' := by
  obtain ⟨_, _, hu, h⟩ := Build.yields_bind.mp h
  obtain ⟨hunfinished, rfl⟩ := Build.yields_liftExcept.mp hu
  obtain ⟨⟨u, vs⟩, b, hi, h⟩ := Build.yields_bind.mp h
  obtain ⟨rfl, rfl⟩ := Build.yields_pure.mp h
  obtain ⟨hr, _⟩ := resolved_inputs hi
  have hshape := hr.shape.trans (requireUnfinished_eq_ok hunfinished)
  refine hr.toEnlarged.trans (enlarged_withStage ?_ ?_)
  · rw [Stage.defines, Stage.defines, hshape]
    exact List.Perm.refl _
  · intro hl
    rw [← node_stage_joins u] at hl ⊢
    refine ⟨⟨hl.aliases, hl.names⟩, ?_⟩
    intro _ keys gs hs
    cases hs

theorem enlarged_groupBy {names : List String} (hrooted : q.Rooted)
    (h : (q.groupBy names).Yields a q' a') : Enlarged a a' q q' := by
  obtain ⟨_, _, hu, h⟩ := Build.yields_bind.mp h
  obtain ⟨hunfinished, rfl⟩ := Build.yields_liftExcept.mp hu
  obtain ⟨⟨u, vs⟩, b, hi, h⟩ := Build.yields_bind.mp h
  obtain ⟨rfl, rfl⟩ := Build.yields_pure.mp h
  obtain ⟨hr, _⟩ := resolved_inputs hi
  have hshape := hr.shape.trans (requireUnfinished_eq_ok hunfinished)
  refine hr.toEnlarged.trans (enlarged_withStage ?_ ?_)
  · rw [Stage.defines, Stage.defines, hshape]
    exact List.Perm.refl _
  · intro hl
    refine ⟨⟨by simpa using hl.aliases, by simpa using hl.names⟩, ?_⟩
    intro _ keys gs hs v hv
    rw [stage_withStage] at hs hv
    cases hs
    rcases Ascending.mem_insertAll.mp hv with hv | hv
    · rw [hr.outputs, hrooted.outputs_eq_nil (requireUnfinished_eq_ok hunfinished)] at hv
      cases hv
    · exact Or.inl hv

theorem enlarged_addAggregate (hw : WellFormed a q) {how : Aggregation} {input : Option VarId}
    (hi : ∀ v ∈ input, v ∈ q.defines) (h : (q.addAggregate how input).Yields a q' a') :
    Enlarged a a' q q' := by
  rw [addAggregate] at h
  split at h
  · next keys gs hs =>
      obtain ⟨v, c, hd, h⟩ := Build.yields_bind.mp h
      obtain ⟨rfl, rfl⟩ := Build.yields_define.mp hd
      obtain ⟨rfl, rfl⟩ := Build.yields_pure.mp h
      cases q with
      | node s js =>
          rw [stage_node] at hs
          refine Enlarged.of_definition (fun w hm => ?_) ?_ ?_
          · exact hw.known w (hi w (Option.mem_toList.mp hm))
          · simp only [Stage.defines, hs, Shape.defines, List.map_append, ← List.append_assoc]
            exact List.Perm.refl _
          · intro hl
            refine ⟨⟨hl.aliases, hl.names⟩, ?_⟩
            intro _ keys' gs' hs' v hv
            cases hs'
            rw [List.map_append, List.mem_append]
            rcases Ascending.mem_insert.mp hv with rfl | hv
            · exact Or.inr (Or.inr List.mem_cons_self)
            · exact (hl.groups rfl keys gs hs v hv).imp_right Or.inl
  · exact (Build.not_yields_throw h).elim

theorem enlarged_aggregate (hw : WellFormed a q) {name : String} {how : Aggregation}
    (h : (q.aggregate name how).Yields a q' a') : Enlarged a a' q q' := by
  obtain ⟨⟨u, v⟩, b, hi, h⟩ := Build.yields_bind.mp h
  obtain ⟨hr, hm⟩ := resolved_input hi
  refine hr.toEnlarged.trans (enlarged_addAggregate (hw.enlarge hr.toEnlarged) ?_ h)
  intro w hmem
  cases hmem
  exact hm

theorem enlarged_count (hw : WellFormed a q) (h : q.count.Yields a q' a') : Enlarged a a' q q' :=
  enlarged_addAggregate hw (fun v hv => (Option.not_mem_none v hv).elim) h

/-! ## Copies -/

theorem reads_mapVars (f : VarId → VarId) (d : Definition) :
    (d.mapVars f).reads = d.reads.map f := by
  cases d with
  | observed source field => rfl
  | computed name expr args => rfl
  | aggregated how input => cases input <;> rfl

/-- The new variable in place of one that has been renamed. -/
def renamedBy (renamed : List (VarId × VarId)) (v : VarId) : VarId := (renamed.lookup v).getD v

theorem mem_renamedBy {renamed : List (VarId × VarId)} {v : VarId} (hv : v ∈ renamed.map (·.1)) :
    (v, renamedBy renamed v) ∈ renamed := by
  obtain ⟨⟨u, w⟩, hu, rfl⟩ := List.mem_map.mp hv
  obtain ⟨x, hx⟩ := Option.isSome_iff_exists.mp
    (List.lookup_isSome_iff.mpr ⟨_, hu, beq_self_eq_true u⟩)
  rw [renamedBy, hx]
  exact mem_of_lookup_eq_some hx

/-- How far the copy of a query has come: the variables renamed so far, each to a new
one of its own. -/
structure Renewed (a b : Arena) (vs : List VarId) (renamed : List (VarId × VarId)) : Prop where
  ordered : b.Ordered
  grows : a.defs.length ≤ b.defs.length
  sources : renamed.map (·.1) = vs
  fresh : ∀ w ∈ renamed.map (·.2), ¬ a.Knows w ∧ b.Knows w
  distinct : (renamed.map (·.2)).Nodup

theorem Renewed.step {vs : List VarId} {v : VarId} {renamed renamed' : List (VarId × VarId)}
    (h : Renewed a b vs renamed) (hv : a.Knows v) (hr : (renew renamed v).Yields b renamed' a') :
    Renewed a a' (vs ++ [v]) renamed' := by
  obtain ⟨_, _, hg, hr⟩ := Build.yields_bind.mp hr
  obtain ⟨rfl, rfl⟩ := Build.yields_get.mp hg
  have hvb : b.Knows v := Nat.lt_of_lt_of_le hv h.grows
  split at hr
  · next d hd =>
      obtain ⟨w, c, hw, hr⟩ := Build.yields_bind.mp hr
      obtain ⟨rfl, rfl⟩ := Build.yields_define.mp hw
      obtain ⟨rfl, rfl⟩ := Build.yields_pure.mp hr
      have hgrows : (b.defs ++ [d.mapVars fun u => (renamed.lookup u).getD u]).length =
          b.defs.length + 1 := Arena.length_define
      refine ⟨h.ordered.define ?_, ?_, ?_, ?_, ?_⟩
      · intro w hw
        rw [reads_mapVars] at hw
        obtain ⟨u, hu, rfl⟩ := List.mem_map.mp hw
        cases hl : renamed.lookup u with
        | none =>
            have hreads : u ∈ b.reads v := by
              rw [Arena.reads, hd]
              exact hu
            exact Nat.lt_trans (h.ordered v u hreads) hvb
        | some x =>
            exact (h.fresh x (List.mem_map_of_mem (mem_of_lookup_eq_some hl))).2
      · rw [hgrows]
        exact Nat.le_succ_of_le h.grows
      · rw [List.map_append, h.sources]
        rfl
      · intro w hw
        rw [List.map_append, List.mem_append] at hw
        rw [Arena.Knows, Arena.Knows, hgrows]
        rcases hw with hw | hw
        · exact ⟨(h.fresh w hw).1, Nat.lt_succ_of_lt (h.fresh w hw).2⟩
        · rw [List.mem_singleton.mp hw]
          exact ⟨Nat.not_lt.mpr h.grows, Nat.lt_succ_self _⟩
      · rw [List.map_append]
        refine (List.perm_append_singleton _ _).nodup_iff.mpr (List.nodup_cons.mpr ⟨?_, h.distinct⟩)
        exact fun hm => Nat.lt_irrefl _ (h.fresh _ hm).2
  · next hd =>
      rw [Arena.definition?, List.getElem?_eq_getElem hvb] at hd
      cases hd

theorem Renewed.run {vs ws : List VarId} {renamed renamed' : List (VarId × VarId)}
    (h : Renewed a b vs renamed) (hv : ∀ v ∈ ws, a.Knows v)
    (hr : (ws.foldlM renew renamed).Yields b renamed' a') :
    Renewed a a' (vs ++ ws) renamed' := by
  induction ws generalizing vs b renamed with
  | nil =>
      obtain ⟨rfl, rfl⟩ := Build.yields_pure.mp hr
      rw [List.append_nil]
      exact h
  | cons v ws ih =>
      rw [List.foldlM_cons] at hr
      obtain ⟨next, c, hs, hr⟩ := Build.yields_bind.mp hr
      obtain ⟨hv, hvs⟩ := List.forall_mem_cons.mp hv
      have hrun := ih (h.step hv hs) hvs hr
      rw [List.append_assoc] at hrun
      exact hrun

theorem mapJoins_eq (f : VarId → VarId) (js : List (String × Query)) :
    mapJoins f js = js.map fun j => (j.1, j.2.mapVars f) := by
  induction js with
  | nil => rfl
  | cons j js ih => rw [mapJoins, ih, List.map_cons]

theorem defines_mapShape (f : VarId → VarId) (shape : Shape) :
    (shape.mapVars f).defines = shape.defines.map f := by
  cases shape <;> simp [Shape.mapVars, Shape.defines]

theorem reads_mapShape (f : VarId → VarId) (shape : Shape) :
    (shape.mapVars f).reads = shape.reads.map f := by
  cases shape <;> simp [Shape.mapVars, Shape.reads, List.map_filterMap, List.filterMap_map]

theorem defines_mapStage (f : VarId → VarId) (s : Stage) :
    (s.mapVars f).defines = s.defines.map f := by
  simp only [Stage.defines, List.map_append]
  congr 1
  · congr 1
    · simp [Stage.mapVars, Table.values, Table.mapValues]
    · simp [Stage.mapVars]
  · exact defines_mapShape f s.shape

theorem fields_mapStage (f : VarId → VarId) (s : Stage) :
    (s.mapVars f).observed.keys = s.observed.keys := by
  simp [Stage.mapVars, Table.mapValues, Table.keys]

theorem defines_mapVars (f : VarId → VarId) (q : Query) :
    (q.mapVars f).defines = q.defines.map f := by
  induction q with
  | node s js ih =>
      rw [mapVars, defines, defines, defines_mapStage, List.map_append, mapJoins_eq,
        joinsDefine_eq, joinsDefine_eq, List.flatMap_map, List.map_flatMap]
      congr 1
      exact List.flatMap_congr fun j hj => ih j hj

theorem lawful_mapVars (f : VarId → VarId) {q : Query} (h : q.Lawful true) :
    (q.mapVars f).Lawful true := by
  cases q with
  | node s js =>
      refine ⟨⟨?_, ?_⟩, ?_⟩
      · have ha := h.aliases
        simp only [mapVars, joins_node, mapJoins_eq, Table.keys, List.map_map] at ha ⊢
        exact ha
      · have hn := h.names
        simp only [mapVars, stage_node, Stage.mapVars, List.map_map] at hn ⊢
        exact hn
      · intro _ keys gs hs v hv
        rw [mapVars, stage_node] at hs hv
        obtain ⟨u, hu, rfl⟩ := List.mem_map.mp (Ascending.mem_ofList.mp hv)
        replace hs : s.shape.mapVars f = .group keys gs := hs
        cases hshape : s.shape with
        | group keys' gs' =>
            rw [hshape, Shape.mapVars] at hs
            cases hs
            refine (h.groups rfl keys' gs' hshape u hu).imp (List.mem_map_of_mem ·) fun hm => ?_
            obtain ⟨g, hg, rfl⟩ := List.mem_map.mp hm
            exact List.mem_map.mpr ⟨_, List.mem_map_of_mem hg, rfl⟩
        | unfinished => rw [hshape] at hs; cases hs
        | select selected => rw [hshape] at hs; cases hs
        | filter keep => rw [hshape] at hs; cases hs

theorem lawful_parts_mapVars (f : VarId → VarId) (h : ∀ p ∈ q.parts, p.Lawful true) :
    ∀ p ∈ (q.mapVars f).parts, p.Lawful true := by
  induction q with
  | node s js ih =>
      intro p hp
      rw [mapVars, mem_parts_node, mapJoins_eq] at hp
      rcases hp with rfl | ⟨j, hj, hp⟩
      · rw [← mapJoins_eq]
        exact lawful_mapVars f (h _ (self_mem_parts _))
      · obtain ⟨k, hk, rfl⟩ := List.mem_map.mp hj
        exact ih k hk (fun p hp => h p (mem_parts_node.mpr (Or.inr ⟨k, hk, hp⟩))) p hp

/-- A copy defines new variables only. -/
theorem wellFormed_instantiate (h : WellFormed a q) (hi : q.instantiate.Yields a q' a') :
    WellFormed a' q' ∧ a.defs.length ≤ a'.defs.length ∧ ∀ v ∈ q'.defines, ¬ a.Knows v := by
  obtain ⟨renamed, b, hr, hi⟩ := Build.yields_bind.mp hi
  obtain ⟨rfl, rfl⟩ := Build.yields_pure.mp hi
  have hstart : Renewed a a [] [] :=
    ⟨h.ordered, Nat.le_refl _, rfl, List.forall_mem_nil _, List.nodup_nil⟩
  have hrun := hstart.run (fun v hv => h.known v (Ascending.mem_ofList.mp hv)) hr
  rw [List.nil_append] at hrun
  let f : VarId → VarId := renamedBy renamed
  have hmem : ∀ v ∈ q.defines, (v, f v) ∈ renamed := fun v hv =>
    mem_renamedBy (hrun.sources ▸ Ascending.mem_ofList.mpr hv)
  have hnew : ∀ w ∈ (q.mapVars f).defines, ¬ a.Knows w ∧ b.Knows w := by
    intro w hw
    rw [defines_mapVars] at hw
    obtain ⟨v, hv, rfl⟩ := List.mem_map.mp hw
    exact hrun.fresh _ (List.mem_map_of_mem (f := (·.2)) (hmem v hv))
  refine ⟨⟨hrun.ordered, fun w hw => (hnew w hw).2, ?_, lawful_parts_mapVars f h.lawful⟩,
    hrun.grows, fun w hw => (hnew w hw).1⟩
  show (q.mapVars f).defines.Nodup
  rw [defines_mapVars]
  refine h.distinct.map_on fun u hu v hv he => ?_
  have hpair := List.inj_on_of_nodup_map hrun.distinct (hmem u hu) (hmem v hv) he
  exact congrArg (·.1) hpair

/-! ## Joins -/

theorem WellFormed.mono (h : WellFormed a q) (ho : a'.Ordered)
    (hg : a.defs.length ≤ a'.defs.length) : WellFormed a' q where
  ordered := ho
  known v hv := Nat.lt_of_lt_of_le (h.known v hv) hg
  distinct := h.distinct
  lawful := h.lawful

theorem keep_eq_ok {f : Filter} (h : q.keep f = .ok q') :
    q.stage.shape = .unfinished ∧ q' = q.withStage fun s => { s with shape := .filter f } := by
  rw [keep] at h
  split at h
  · next hs =>
      cases h
      exact ⟨hs, rfl⟩
  · cases h

theorem enlarged_keep {f : Filter} (h : q.keep f = .ok q') : Enlarged a a q q' := by
  obtain ⟨hs, rfl⟩ := keep_eq_ok h
  refine enlarged_withStage ?_ fun hl => ?_
  · rw [Stage.defines, Stage.defines, hs]
    exact List.Perm.refl _
  · refine ⟨⟨by simpa using hl.aliases, by simpa using hl.names⟩, ?_⟩
    intro _ keys gs hg
    rw [stage_withStage] at hg
    cases hg

theorem defines_keep {f : Filter} (h : q.keep f = .ok q') : q'.defines = q.defines := by
  obtain ⟨hs, rfl⟩ := keep_eq_ok h
  cases q with
  | node s js =>
      rw [stage_node] at hs
      show ({ s with shape := .filter f } : Stage).defines ++ _ = s.defines ++ _
      rw [Stage.defines, Stage.defines, hs]
      rfl

/-- What is prepared for a join shares no variable with the joining query. -/
structure Prepared (a a' : Arena) (q other u : Query) : Prop where
  grows : a.defs.length ≤ a'.defs.length
  wellFormed : WellFormed a' u
  apart : ∀ v ∈ u.defines, v ∉ q.defines
  origin : ∀ v ∈ u.defines, v ∈ other.defines ∨ ¬ a.Knows v

/-- A step goes on with a copy of a query, or with the query itself if it shares nothing. -/
theorem copy_cases {next : Query → Build Query}
    (h : (if other.defines.any q.defines.contains then other.instantiate >>= next
      else pure other >>= next).Yields a u a') :
    ∃ w b, (other.instantiate.Yields a w b ∨
        (w = other ∧ a = b ∧ ∀ v ∈ other.defines, v ∉ q.defines)) ∧ (next w).Yields b u a' := by
  split at h
  · obtain ⟨w, b, hc, h⟩ := Build.yields_bind.mp h
    exact ⟨w, b, Or.inl hc, h⟩
  · next hshared =>
      obtain ⟨w, b, hc, h⟩ := Build.yields_bind.mp h
      obtain ⟨rfl, rfl⟩ := Build.yields_pure.mp hc
      refine ⟨_, _, Or.inr ⟨rfl, rfl, fun v hv hm => hshared ?_⟩, h⟩
      exact List.any_eq_true.mpr ⟨v, hv, List.contains_iff_mem.mpr hm⟩

/-- What is prepared keeps one row if that is asked for. -/
theorem prepare_cases {filter : Option Filter} (h : (q.prepare other filter).Yields a u a') :
    ∃ w, (other.instantiate.Yields a w a' ∨
        (w = other ∧ a = a' ∧ ∀ v ∈ other.defines, v ∉ q.defines)) ∧
      (w = u ∨ ∃ f, w.keep f = .ok u) := by
  obtain ⟨w, b, hcopy, h⟩ := copy_cases h
  cases filter with
  | none =>
      obtain ⟨rfl, rfl⟩ := Build.yields_pure.mp h
      exact ⟨w, hcopy, Or.inl rfl⟩
  | some f =>
      obtain ⟨hk, rfl⟩ := Build.yields_liftExcept.mp h
      exact ⟨w, hcopy, Or.inr ⟨f, hk⟩⟩

theorem prepared_of_prepare {filter : Option Filter} (hq : WellFormed a q)
    (h : WellFormed a other) (hp : (q.prepare other filter).Yields a u a') :
    Prepared a a' q other u := by
  obtain ⟨w, hcopy, hkeep⟩ := prepare_cases hp
  have hw : Prepared a a' q other w := by
    rcases hcopy with hc | ⟨rfl, rfl, hapart⟩
    · obtain ⟨hw, hg, hnew⟩ := wellFormed_instantiate h hc
      exact ⟨hg, hw, fun v hv hm => hnew v hv (hq.known v hm), fun v hv => Or.inr (hnew v hv)⟩
    · exact ⟨Nat.le_refl _, h, hapart, fun v hv => Or.inl hv⟩
  rcases hkeep with rfl | ⟨f, hk⟩
  · exact hw
  · have hd := defines_keep hk
    exact ⟨hw.grows, hw.wellFormed.enlarge (enlarged_keep hk), hd ▸ hw.apart, hd ▸ hw.origin⟩

theorem defines_setJoin {name : String} (hn : name ∉ q.joins.keys) :
    (q.setJoin name u).defines.Perm (q.defines ++ u.defines) := by
  cases q with
  | node s js =>
      rw [setJoin, defines, defines, joinsDefine_eq, joinsDefine_eq, List.append_assoc]
      refine List.Perm.append_left _ ?_
      refine ((Table.insert_perm_cons hn).flatMap_right _).trans ?_
      exact List.perm_append_comm

theorem wellFormed_setJoin {name : String} (hq : WellFormed a q) (hu : WellFormed a u)
    (hd : ∀ v ∈ u.defines, v ∉ q.defines) (hn : name ∉ q.joins.keys) :
    WellFormed a (q.setJoin name u) := by
  have hperm := defines_setJoin (u := u) hn
  have hself := hq.lawful q (self_mem_parts q)
  refine formed_node ⟨⟨?_, hself.names⟩, hself.groups⟩ hq.ordered ?_ ?_ ?_
  · rw [joins_node, Table.keys_insert]
    exact Ascending.sorted_insert name hself.aliases
  · intro j hj
    rcases List.mem_cons.mp ((Table.insert_perm_cons hn).mem_iff.mp hj) with rfl | hj
    · exact hu
    · cases q
      exact hq.joined hj
  · intro v hv
    cases q
    exact hq.known v (mem_defines_node.mpr (Or.inl hv))
  · refine hperm.nodup_iff.mpr (List.nodup_append.mpr ⟨hq.distinct, hu.distinct, ?_⟩)
    rintro v hv w hw rfl
    exact hd v hw hv

theorem wellFormed_join {aliasName : String} {filter : Option Filter} (hq : WellFormed a q)
    (h : WellFormed a other) (hj : (q.join aliasName other filter).Yields a q' a') :
    WellFormed a' q' ∧ a.defs.length ≤ a'.defs.length ∧ ∃ u, Prepared a a' q other u ∧
      q'.defines.Perm (q.defines ++ u.defines) := by
  obtain ⟨_, _, ha, hj⟩ := Build.yields_bind.mp hj
  obtain ⟨hfree, rfl⟩ := Build.yields_liftExcept.mp ha
  obtain ⟨u, b, hp, hj⟩ := Build.yields_bind.mp hj
  obtain ⟨rfl, rfl⟩ := Build.yields_pure.mp hj
  have hprepared := prepared_of_prepare hq h hp
  have hn := (requireAvailable_eq_ok hfree).2
  exact ⟨wellFormed_setJoin (hq.mono hprepared.wellFormed.ordered hprepared.grows)
    hprepared.wellFormed hprepared.apart hn, hprepared.grows, u, hprepared, defines_setJoin hn⟩

/-- A joined query is replaced by one that defines further variables. -/
theorem wellFormed_replaceJoin {s : Stage} {before after : List (String × Query)} {name : String}
    {more : List VarId} (hw : WellFormed a (node s (before ++ (name, q) :: after)))
    (hq' : WellFormed a q') (hp : q'.defines.Perm (q.defines ++ more))
    (hd : ∀ v ∈ more, v ∉ (node s (before ++ (name, q) :: after)).defines) :
    WellFormed a (node s (before ++ (name, q') :: after)) := by
  have hself := hw.lawful _ (self_mem_parts _)
  have hperm : (node s (before ++ (name, q') :: after)).defines.Perm
      ((node s (before ++ (name, q) :: after)).defines ++ more) := by
    simp only [Query.defines, joinsDefine_eq, List.flatMap_append, List.flatMap_cons,
      List.append_assoc]
    refine List.Perm.append_left _ (List.Perm.append_left _ ?_)
    refine (hp.append_right _).trans ?_
    rw [List.append_assoc]
    exact List.perm_append_comm.append_left _
  refine formed_node ⟨⟨?_, hself.names⟩, hself.groups⟩ hw.ordered ?_ ?_ ?_
  · have ha := hself.aliases
    simp only [joins_node, Table.keys, List.map_append, List.map_cons] at ha ⊢
    exact ha
  · intro j hj
    rw [List.mem_append, List.mem_cons] at hj
    rcases hj with hj | rfl | hj
    · exact hw.joined (List.mem_append_left _ hj)
    · exact hq'
    · exact hw.joined (List.mem_append_right _ (List.mem_cons_of_mem _ hj))
  · exact fun v hv => hw.known v (mem_defines_node.mpr (Or.inl hv))
  · have hmore := (List.nodup_append.mp (hp.nodup_iff.mp hq'.distinct)).2.1
    refine hperm.nodup_iff.mpr (List.nodup_append.mpr ⟨hw.distinct, hmore, ?_⟩)
    rintro v hv w hw' rfl
    exact hd v hw' hv

theorem wellFormed_joinVia {via aliasName : String} {filter : Option Filter} (hq : WellFormed a q)
    (h : WellFormed a other) (hj : (q.joinVia via aliasName other filter).Yields a q' a') :
    WellFormed a' q' := by
  obtain ⟨_, _, ha, hj⟩ := Build.yields_bind.mp hj
  obtain ⟨_, rfl⟩ := Build.yields_liftExcept.mp ha
  split at hj
  · exact (Build.not_yields_throw hj).elim
  · next existing hf =>
      obtain ⟨u, b, hp, hj⟩ := Build.yields_bind.mp hj
      obtain ⟨nested, c, hn, hj⟩ := Build.yields_bind.mp hj
      obtain ⟨rfl, rfl⟩ := Build.yields_pure.mp hj
      have hprepared := prepared_of_prepare hq h hp
      have hqb := hq.mono hprepared.wellFormed.ordered hprepared.grows
      cases q with
      | node s js =>
          have hm : (via, existing) ∈ js := Table.mem_of_find?_eq_some hf
          obtain ⟨hnested, hgrows, w, hw, hperm⟩ :=
            wellFormed_join (hqb.joined hm) hprepared.wellFormed hn
          have hqc := hqb.mono hnested.ordered hgrows
          obtain ⟨before, after, rfl⟩ := List.append_of_mem hm
          have hinsert :=
            Table.insert_of_mem (a := nested) (hqc.lawful _ (self_mem_parts _)).aliases
          have hreplaced := wellFormed_replaceJoin hqc hnested hperm fun v hv hd => by
            rcases hw.origin v hv with hu | hu
            · exact hprepared.apart v hu hd
            · exact hu (hqb.known v hd)
          rw [setJoin, joins_node, hinsert]
          exact hreplaced.enlarge (enlarged_withStage (List.Perm.refl _) fun hl =>
            ⟨⟨hl.aliases, hl.names⟩, hl.groups⟩)

/-! ## Every built query -/

theorem rooted_addWhere {expr : String} {args : List String} (hq : q.Rooted)
    (h : (q.addWhere expr args).Yields a q' a') : q'.Rooted := by
  obtain ⟨_, _, hu, h⟩ := Build.yields_bind.mp h
  obtain ⟨_, rfl⟩ := Build.yields_liftExcept.mp hu
  obtain ⟨⟨u, vs⟩, b, hi, h⟩ := Build.yields_bind.mp h
  obtain ⟨rfl, rfl⟩ := Build.yields_pure.mp h
  have hr := (resolved_inputs hi).1
  exact hq.congr (by rw [stage_withStage, ← hr.shape]) (by rw [stage_withStage, ← hr.outputs])

theorem rooted_addLet {name expr : String} {args : List String} (hq : q.Rooted)
    (h : (q.addLet name expr args).Yields a q' a') : q'.Rooted := by
  obtain ⟨_, _, hu, h⟩ := Build.yields_bind.mp h
  obtain ⟨_, rfl⟩ := Build.yields_liftExcept.mp hu
  obtain ⟨_, _, ha, h⟩ := Build.yields_bind.mp h
  obtain ⟨_, rfl⟩ := Build.yields_liftExcept.mp ha
  obtain ⟨⟨u, vs⟩, b, hi, h⟩ := Build.yields_bind.mp h
  obtain ⟨v, c, hd, h⟩ := Build.yields_bind.mp h
  obtain ⟨rfl, rfl⟩ := Build.yields_define.mp hd
  obtain ⟨rfl, rfl⟩ := Build.yields_pure.mp h
  have hr := (resolved_inputs hi).1
  exact hq.congr (by rw [stage_withStage, ← hr.shape]) (by rw [stage_withStage, ← hr.outputs])

theorem rooted_select {names : List String} (hq : q.Rooted)
    (h : (q.select names).Yields a q' a') : q'.Rooted := by
  obtain ⟨_, _, hu, h⟩ := Build.yields_bind.mp h
  obtain ⟨hunfinished, rfl⟩ := Build.yields_liftExcept.mp hu
  obtain ⟨⟨u, vs⟩, b, hi, h⟩ := Build.yields_bind.mp h
  obtain ⟨rfl, rfl⟩ := Build.yields_pure.mp h
  have hr := (resolved_inputs hi).1
  have hnil := hq.outputs_eq_nil (requireUnfinished_eq_ok hunfinished)
  rw [Rooted, stage_withStage]
  show u.stage.outputs.insertAll vs = _
  rw [hr.outputs, hnil]
  rfl

theorem rooted_groupBy {names : List String} (hq : q.Rooted)
    (h : (q.groupBy names).Yields a q' a') : q'.Rooted := by
  obtain ⟨_, _, hu, h⟩ := Build.yields_bind.mp h
  obtain ⟨hunfinished, rfl⟩ := Build.yields_liftExcept.mp hu
  obtain ⟨⟨u, vs⟩, b, hi, h⟩ := Build.yields_bind.mp h
  obtain ⟨rfl, rfl⟩ := Build.yields_pure.mp h
  have hr := (resolved_inputs hi).1
  have hnil := hq.outputs_eq_nil (requireUnfinished_eq_ok hunfinished)
  rw [Rooted, stage_withStage]
  show ∀ v, v ∈ u.stage.outputs.insertAll vs ↔ _
  intro v
  rw [hr.outputs, hnil, Ascending.mem_insertAll]
  simp

theorem rooted_addAggregate {how : Aggregation} {input : Option VarId} (hq : q.Rooted)
    (h : (q.addAggregate how input).Yields a q' a') : q'.Rooted := by
  rw [addAggregate] at h
  split at h
  · next keys gs hs =>
      obtain ⟨v, c, hd, h⟩ := Build.yields_bind.mp h
      obtain ⟨rfl, rfl⟩ := Build.yields_define.mp hd
      obtain ⟨rfl, rfl⟩ := Build.yields_pure.mp h
      rw [Rooted, hs] at hq
      rw [Rooted, stage_withStage]
      show ∀ v, v ∈ q.stage.outputs.insert _ ↔ _
      intro v
      rw [Ascending.mem_insert, hq v, List.map_append, List.mem_append, List.map_singleton,
        List.mem_singleton]
      exact or_left_comm.trans (or_congr_right or_comm)
  · exact (Build.not_yields_throw h).elim

theorem rooted_aggregate {name : String} {how : Aggregation} (hq : q.Rooted)
    (h : (q.aggregate name how).Yields a q' a') : q'.Rooted := by
  obtain ⟨⟨u, v⟩, b, hi, h⟩ := Build.yields_bind.mp h
  have hr := (resolved_input hi).1
  exact rooted_addAggregate (hq.congr hr.shape hr.outputs) h

theorem rooted_join {aliasName : String} {filter : Option Filter} (hq : q.Rooted)
    (h : (q.join aliasName other filter).Yields a q' a') : q'.Rooted := by
  obtain ⟨_, _, _, h⟩ := Build.yields_bind.mp h
  obtain ⟨_, _, _, h⟩ := Build.yields_bind.mp h
  obtain ⟨rfl, rfl⟩ := Build.yields_pure.mp h
  exact hq.congr rfl rfl

theorem rooted_joinVia {via aliasName : String} {filter : Option Filter} (hq : q.Rooted)
    (h : (q.joinVia via aliasName other filter).Yields a q' a') : q'.Rooted := by
  obtain ⟨_, _, _, h⟩ := Build.yields_bind.mp h
  split at h
  · exact (Build.not_yields_throw h).elim
  · obtain ⟨_, _, _, h⟩ := Build.yields_bind.mp h
    obtain ⟨_, _, _, h⟩ := Build.yields_bind.mp h
    obtain ⟨rfl, rfl⟩ := Build.yields_pure.mp h
    exact hq.congr rfl rfl

theorem Built.rooted (h : Built a q) : q.Rooted := by
  induction h with
  | unnamed t => exact rfl
  | named h =>
      rw [Query.named] at h
      split at h
      · cases h
        exact rfl
      · cases h
  | grow _ _ ih => exact ih
  | addWhere _ h ih => exact rooted_addWhere ih h
  | addLet _ h ih => exact rooted_addLet ih h
  | select _ h ih => exact rooted_select ih h
  | groupBy _ h ih => exact rooted_groupBy ih h
  | aggregate _ h ih => exact rooted_aggregate ih h
  | count _ h ih => exact rooted_addAggregate ih h
  | join _ _ h ih _ => exact rooted_join ih h
  | joinTracepoint _ h ih => exact rooted_join ih h
  | joinVia _ _ h ih _ => exact rooted_joinVia ih h

theorem Built.wellFormed (h : Built a q) : WellFormed a q := by
  induction h with
  | unnamed t => exact wellFormed_watch Arena.ordered_empty _
  | named h =>
      rw [Query.named] at h
      split at h
      · cases h
        exact wellFormed_watch Arena.ordered_empty _
      · cases h
  | grow _ hd ih => exact ih.grow hd
  | addWhere _ h ih => exact ih.enlarge (enlarged_addWhere h)
  | addLet _ h ih => exact ih.enlarge (enlarged_addLet ih h)
  | select _ h ih => exact ih.enlarge (enlarged_select h)
  | groupBy hq h ih => exact ih.enlarge (enlarged_groupBy hq.rooted h)
  | aggregate _ h ih => exact ih.enlarge (enlarged_aggregate ih h)
  | count _ h ih => exact ih.enlarge (enlarged_count ih h)
  | join _ _ h ih ihother => exact (wellFormed_join ih ihother h).1
  | joinTracepoint _ h ih => exact (wellFormed_join ih (wellFormed_watch ih.ordered _) h).1
  | joinVia _ _ h ih ihother => exact wellFormed_joinVia ih ihother h

end Query

end CausalTrace
