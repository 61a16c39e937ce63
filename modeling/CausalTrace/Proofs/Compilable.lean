import CausalTrace.Proofs.Closed

/-!
# Built queries compile

Every building step leads from closed queries to a closed one: it resolves names first and
adds what reads only the variables they lead to. Copies read copies, because a definition
reads variables that were defined, and so copied, before it.
-/

namespace CausalTrace

namespace Query

variable {a a' b : Arena} {s : Stage} {js before after : List (String × Query)}
  {q q' u other : Query} {v : VarId} {pack : Bool}

/-! ## Steps on one stage -/

/-- A stage changes in a closed query and is closed again, among the variables it had. -/
theorem closed_withStage {f : Stage → Stage} (hq : q.Closed a)
    (ho : (f q.stage).observed = q.stage.observed) (hl : (f q.stage).lets = q.stage.lets)
    (hf : q.stage.Closed a q.bound → (f q.stage).Closed a q.bound) : (q.withStage f).Closed a := by
  cases q with
  | node s js =>
      obtain ⟨hown, hjoined⟩ := hq
      refine .node ?_ hjoined
      have hbound : (node (f s) js).bound = (node s js).bound := by
        rw [bound, bound, incoming, incoming, stage_node, stage_node]
        exact congrArg₂ (fun vs ls => (vs.values ++ _) ++ ls.map (·.2)) ho hl
      rw [hbound]
      exact hf hown

theorem closed_addWhere {expr : String} {args : List String} (hq : q.Closed a)
    (h : (q.addWhere expr args).Yields a q' a') : q'.Closed a' := by
  obtain ⟨_, _, hu, h⟩ := Build.yields_bind.mp h
  obtain ⟨_, rfl⟩ := Build.yields_liftExcept.mp hu
  obtain ⟨⟨u, vs⟩, b, hi, h⟩ := Build.yields_bind.mp h
  obtain ⟨rfl, rfl⟩ := Build.yields_pure.mp h
  obtain ⟨hw, hvs⟩ := widened_inputs hq hi
  refine closed_withStage hw.closed rfl rfl fun hs =>
    ⟨hs.computed, hs.lets, ?_, hs.shape, hs.outputs, hs.operands⟩
  intro w hm
  rcases List.mem_append.mp hm with hm | hm
  · exact hs.wheres w hm
  · rw [List.mem_singleton.mp hm]
    exact hvs

theorem closed_addLet {name expr : String} {args : List String} (hq : q.Closed a)
    (h : (q.addLet name expr args).Yields a q' a') : q'.Closed a' := by
  obtain ⟨_, _, hu, h⟩ := Build.yields_bind.mp h
  obtain ⟨_, rfl⟩ := Build.yields_liftExcept.mp hu
  obtain ⟨_, _, ha, h⟩ := Build.yields_bind.mp h
  obtain ⟨_, rfl⟩ := Build.yields_liftExcept.mp ha
  obtain ⟨⟨u, vs⟩, b, hi, h⟩ := Build.yields_bind.mp h
  obtain ⟨v, c, hd, h⟩ := Build.yields_bind.mp h
  obtain ⟨rfl, rfl⟩ := Build.yields_define.mp hd
  obtain ⟨rfl, rfl⟩ := Build.yields_pure.mp h
  obtain ⟨hw, hvs⟩ := widened_inputs hq hi
  have hclosed := hw.closed
  generalize hv : (⟨b.defs.length⟩ : VarId) = v
  generalize hc : (⟨b.defs ++ [.computed name expr vs]⟩ : Arena) = c
  have hp : b.defs <+: c.defs := hc ▸ List.prefix_append _ _
  have hdefinition : c.definition? v = some (.computed name expr vs) := by
    rw [← hv, ← hc]
    exact List.getElem?_concat_length
  cases u with
  | node s js =>
      obtain ⟨hown, hjoined⟩ := hclosed
      have hbound : ∀ x ∈ (node s js).bound,
          x ∈ (node { s with lets := s.lets ++ [(name, v)] } js).bound := by
        intro x hx
        refine (List.mem_append.mp hx).elim (fun hm => List.mem_append_left _ hm) fun hm => ?_
        refine List.mem_append_right _ ?_
        show x ∈ (s.lets ++ [(name, v)]).map (·.2)
        rw [List.map_append]
        exact List.mem_append_left _ hm
      have hs := hown.mono hp hbound
      have hlets : ∀ x ∈ (s.lets ++ [(name, v)]).map (·.2), x ∈ s.lets.map (·.2) ∨ x = v := by
        intro x hx
        rw [List.map_append] at hx
        exact (List.mem_append.mp hx).imp_right List.mem_singleton.mp
      refine .node ⟨fun x hx => ?_, fun x hx y hy => ?_, hs.wheres, hs.shape,
        hs.outputs, hs.operands⟩ fun j hj => (hjoined j hj).grow hp
      · rcases hlets x hx with hx | rfl
        · exact hs.computed x hx
        · exact ⟨_, _, _, hdefinition⟩
      · rcases hlets x hx with hx | rfl
        · exact hs.lets x hx y hy
        · rw [Arena.reads_computed hdefinition] at hy
          exact hbound y (hvs y hy)

/-- An unfinished stage delivers bound variables only. -/
theorem outputs_bound_of_unfinished {bound : List VarId} (hs : s.Closed a bound)
    (hshape : s.shape = .unfinished) : ∀ v ∈ s.outputs, v ∈ bound := by
  intro v hv
  refine (hs.outputs v hv).resolve_right fun hd => ?_
  rw [hshape] at hd
  exact List.not_mem_nil hd

theorem closed_select {names : List String} (hq : q.Closed a)
    (h : (q.select names).Yields a q' a') : q'.Closed a' := by
  obtain ⟨_, _, hu, h⟩ := Build.yields_bind.mp h
  obtain ⟨hunfinished, rfl⟩ := Build.yields_liftExcept.mp hu
  obtain ⟨⟨u, vs⟩, b, hi, h⟩ := Build.yields_bind.mp h
  obtain ⟨rfl, rfl⟩ := Build.yields_pure.mp h
  obtain ⟨hw, hvs⟩ := widened_inputs hq hi
  have hshape := (resolved_inputs hi).1.shape.trans (requireUnfinished_eq_ok hunfinished)
  refine closed_withStage hw.closed rfl rfl fun hs => ⟨hs.computed, hs.lets, hs.wheres, hvs,
    fun v hv => Or.inl ?_, nofun⟩
  exact (Ascending.mem_insertAll.mp hv).elim (outputs_bound_of_unfinished hs hshape v) (hvs v)

theorem closed_groupBy {names : List String} (hq : q.Closed a)
    (h : (q.groupBy names).Yields a q' a') : q'.Closed a' := by
  obtain ⟨_, _, hu, h⟩ := Build.yields_bind.mp h
  obtain ⟨hunfinished, rfl⟩ := Build.yields_liftExcept.mp hu
  obtain ⟨⟨u, vs⟩, b, hi, h⟩ := Build.yields_bind.mp h
  obtain ⟨rfl, rfl⟩ := Build.yields_pure.mp h
  obtain ⟨hw, hvs⟩ := widened_inputs hq hi
  have hshape := (resolved_inputs hi).1.shape.trans (requireUnfinished_eq_ok hunfinished)
  refine closed_withStage hw.closed rfl rfl fun hs =>
    ⟨hs.computed, hs.lets, hs.wheres, fun v hv => ?_, fun v hv => Or.inl ?_, ?_⟩
  · exact (List.mem_append.mp hv).elim (hvs v) fun hm => absurd hm List.not_mem_nil
  · exact (Ascending.mem_insertAll.mp hv).elim (outputs_bound_of_unfinished hs hshape v) (hvs v)
  · rintro _ _ ⟨⟩ g hg
    exact absurd hg List.not_mem_nil

/-- A new aggregate of a bound variable, or a count. -/
theorem closed_addAggregate {how : Aggregation} {input : Option VarId} (hq : q.Closed a)
    (hi : ∀ v ∈ input, v ∈ q.bound) (hhow : (how != .count) = true → ∃ v, input = some v)
    (h : (q.addAggregate how input).Yields a q' a') : q'.Closed a' := by
  rw [addAggregate] at h
  split at h
  · next keys gs hshape =>
      obtain ⟨v, c, hd, h⟩ := Build.yields_bind.mp h
      obtain ⟨rfl, rfl⟩ := Build.yields_define.mp hd
      obtain ⟨rfl, rfl⟩ := Build.yields_pure.mp h
      have hp : a.defs <+: (⟨a.defs ++ [.aggregated how input]⟩ : Arena).defs :=
        List.prefix_append _ _
      refine closed_withStage (hq.grow hp) rfl rfl fun hs => ⟨hs.computed, hs.lets, hs.wheres,
        fun x hx => ?_, fun x hx => ?_, ?_⟩
      · have hold := hs.shape
        rw [hshape] at hold
        simp only [Shape.reads, List.filterMap_append, List.mem_append] at hx hold
        rcases hx with hk | hg | hg
        · exact hold x (Or.inl hk)
        · exact hold x (Or.inr hg)
        · obtain ⟨g, hg, hx⟩ := List.mem_filterMap.mp hg
          rw [List.mem_singleton.mp hg] at hx
          exact hi x hx
      · have hold := hs.outputs
        rw [hshape] at hold
        show _ ∨ x ∈ (gs ++ [(_ : Aggregate)]).map (·.var)
        rw [List.map_append, List.mem_append]
        rcases Ascending.mem_insert.mp hx with rfl | hx
        · exact Or.inr (Or.inr (List.mem_singleton.mpr rfl))
        · exact (hold x hx).imp_right Or.inl
      · rintro _ _ ⟨⟩ g hg hcount
        rcases List.mem_append.mp hg with hg | hg
        · exact hs.operands keys gs hshape g hg hcount
        · rw [List.mem_singleton.mp hg] at hcount ⊢
          exact hhow hcount
  · exact (Build.not_yields_throw h).elim

theorem closed_aggregate {name : String} {how : Aggregation} (hq : q.Closed a)
    (h : (q.aggregate name how).Yields a q' a') : q'.Closed a' := by
  obtain ⟨⟨u, v⟩, b, hi, h⟩ := Build.yields_bind.mp h
  obtain ⟨hw, hv⟩ := widened_input hq hi
  refine closed_addAggregate hw.closed (fun x hx => ?_) (fun _ => ⟨v, rfl⟩) h
  cases hx
  exact hv

theorem closed_count (hq : q.Closed a) (h : q.count.Yields a q' a') : q'.Closed a' := by
  refine closed_addAggregate hq (fun v hv => (Option.not_mem_none v hv).elim) (fun hcount => ?_) h
  cases hcount

/-! ## Copies -/

theorem mapVars_congr {d : Definition} {f g : VarId → VarId} (h : ∀ v ∈ d.reads, f v = g v) :
    d.mapVars f = d.mapVars g := by
  cases d with
  | observed source field => rfl
  | computed name expr args =>
      exact congrArg (Definition.computed name expr) (List.map_congr_left h)
  | aggregated how input =>
      cases input with
      | none => rfl
      | some v =>
          exact congrArg (Definition.aggregated how ∘ some) (h v (List.mem_singleton.mpr rfl))

/-- The new variables are defined as the old ones are, over new variables. -/
structure Copied (a b : Arena) (renamed : List (VarId × VarId)) : Prop where
  arena : a.defs <+: b.defs
  copies : ∀ p ∈ renamed, ∃ d, a.definition? p.1 = some d ∧
    b.definition? p.2 = some (d.mapVars (renamedBy renamed))

/-- A later variable is not read by the earlier ones, so renamedBy it changes no copy. -/
theorem Copied.step {renamed renamed' : List (VarId × VarId)} (h : Copied a b renamed)
    (ho : a.Ordered) (hv : a.Knows v) (hless : ∀ p ∈ renamed, p.1.index < v.index)
    (hr : (renew renamed v).Yields b renamed' a') : Copied a a' renamed' ∧
      renamed'.map (·.1) = renamed.map (·.1) ++ [v] := by
  obtain ⟨_, _, hg, hr⟩ := Build.yields_bind.mp hr
  obtain ⟨rfl, rfl⟩ := Build.yields_get.mp hg
  rw [Arena.definition?_of_extension h.arena hv] at hr
  split at hr
  · next d hd =>
      obtain ⟨w, c, hw, hr⟩ := Build.yields_bind.mp hr
      obtain ⟨rfl, rfl⟩ := Build.yields_define.mp hw
      obtain ⟨rfl, rfl⟩ := Build.yields_pure.mp hr
      have hp : b.defs <+: (⟨b.defs ++ [d.mapVars (renamedBy renamed)]⟩ : Arena).defs :=
        List.prefix_append _ _
      -- Definitions of variables up to `v` read earlier ones only.
      have hsame : ∀ {x : VarId} {d' : Definition}, a.definition? x = some d' → x.index ≤ v.index →
          d'.mapVars (renamedBy (renamed ++ [(v, ⟨b.defs.length⟩)])) =
            d'.mapVars (renamedBy renamed) := by
        intro x d' hd' hle
        refine mapVars_congr fun y hy => ?_
        have hreads : y ∈ a.reads x := by
          rw [Arena.reads, hd']
          exact hy
        have hne : y ≠ v := fun he => by
          have hlt := ho x y hreads
          rw [he] at hlt
          omega
        rw [renamedBy, renamedBy, List.lookup_append]
        cases renamed.lookup y with
        | some z => rfl
        | none =>
            rw [Option.none_or, List.lookup_cons, beq_false_of_ne hne]
            rfl
      refine ⟨⟨h.arena.trans hp, fun p hm => ?_⟩, List.map_append⟩
      rcases List.mem_append.mp hm with hm | hm
      · obtain ⟨d', hd', hcopy⟩ := h.copies p hm
        refine ⟨d', hd', ?_⟩
        show (⟨b.defs ++ [d.mapVars (renamedBy renamed)]⟩ : Arena).definition? p.2 = _
        rw [Arena.definition?_of_extension hp (Arena.knows_of_definition hcopy), hcopy,
          hsame hd' (Nat.le_of_lt (hless p hm))]
      · rw [List.mem_singleton.mp hm]
        refine ⟨d, hd, ?_⟩
        rw [hsame hd (Nat.le_refl _)]
        exact List.getElem?_concat_length
  · next hd =>
      rw [Arena.definition?, List.getElem?_eq_getElem hv] at hd
      cases hd

theorem Copied.run {renamed renamed' : List (VarId × VarId)} {ws : List VarId}
    (h : Copied a b renamed) (ho : a.Ordered) (hv : ∀ v ∈ ws, a.Knows v)
    (hsorted : (renamed.map (·.1) ++ ws).Pairwise fun u v => u.index < v.index)
    (hr : (ws.foldlM renew renamed).Yields b renamed' a') :
    Copied a a' renamed' ∧ renamed'.map (·.1) = renamed.map (·.1) ++ ws := by
  induction ws generalizing b renamed with
  | nil =>
      obtain ⟨rfl, rfl⟩ := Build.yields_pure.mp hr
      exact ⟨h, (List.append_nil _).symm⟩
  | cons v ws ih =>
      rw [List.foldlM_cons] at hr
      obtain ⟨next, c, hs, hr⟩ := Build.yields_bind.mp hr
      obtain ⟨hv, hvs⟩ := List.forall_mem_cons.mp hv
      have hless : ∀ p ∈ renamed, p.1.index < v.index := fun p hm =>
        (List.pairwise_append.mp hsorted).2.2 p.1 (List.mem_map_of_mem hm) v List.mem_cons_self
      obtain ⟨hstep, hsources⟩ := h.step ho hv hless hs
      have hrun := ih hstep hvs (by rw [hsources, List.append_assoc]; exact hsorted) hr
      rw [hsources, List.append_assoc] at hrun
      exact hrun

theorem keys_mapShape (f : VarId → VarId) (shape : Shape) :
    (shape.mapVars f).keys = shape.keys.map f := by
  cases shape <;> rfl

/-- What a stage binds, its copy binds by new names. -/
theorem mem_bound_mapVars {f : VarId → VarId} (hv : v ∈ q.bound) : f v ∈ (q.mapVars f).bound := by
  cases q with
  | node s js =>
      rw [mapVars, mapJoins_eq]
      simp only [bound, incoming, stage_node, joins_node, List.mem_append, List.mem_flatMap] at hv ⊢
      rcases hv with (hv | ⟨j, hj, hv⟩) | hv
      · refine Or.inl (Or.inl ?_)
        rw [Table.values] at hv
        obtain ⟨p, hp, rfl⟩ := List.mem_map.mp hv
        exact List.mem_map.mpr ⟨_, List.mem_map_of_mem hp, rfl⟩
      · refine Or.inl (Or.inr ⟨_, List.mem_map_of_mem hj, ?_⟩)
        rw [Stage.mem_names_iff] at hv ⊢
        cases hj' : j.2 with
        | node t ks =>
            rw [hj', stage_node] at hv
            refine hv.imp (fun hk => ?_) fun ho => Ascending.mem_ofList.mpr (List.mem_map_of_mem ho)
            show f v ∈ (t.shape.mapVars f).keys
            rw [keys_mapShape]
            exact List.mem_map_of_mem hk
      · refine Or.inr ?_
        obtain ⟨l, hl, rfl⟩ := List.mem_map.mp hv
        exact List.mem_map.mpr ⟨_, List.mem_map_of_mem hl, rfl⟩

/-- A query over copied definitions is closed as the original is. -/
theorem Closed.mapVars {f : VarId → VarId} (hq : q.Closed a)
    (hf : ∀ v ∈ q.defines, ∀ d, a.definition? v = some d →
      b.definition? (f v) = some (d.mapVars f)) :
    (q.mapVars f).Closed b := by
  induction q with
  | node s js ih =>
      obtain ⟨hown, hjoined⟩ := hq
      have hbound : ∀ v ∈ (Query.node s js).bound, f v ∈ ((Query.node s js).mapVars f).bound :=
        fun v hv => mem_bound_mapVars hv
      rw [Query.mapVars] at hbound ⊢
      have hlet : ∀ v ∈ (s.mapVars f).lets.map (·.2), ∃ u ∈ s.lets.map (·.2), f u = v := by
        intro v hv
        obtain ⟨l', hl', rfl⟩ := List.mem_map.mp hv
        obtain ⟨l, hl, rfl⟩ := List.mem_map.mp hl'
        exact ⟨l.2, List.mem_map_of_mem hl, rfl⟩
      -- The definition of a let is copied with the variables it reads.
      have hcopy : ∀ u ∈ s.lets.map (·.2), ∃ name expr args,
          a.definition? u = some (.computed name expr args) ∧
            b.definition? (f u) = some (.computed name expr (args.map f)) := by
        intro u hu
        obtain ⟨name, expr, args, hd⟩ := hown.computed u hu
        refine ⟨name, expr, args, hd, hf u ?_ _ hd⟩
        exact mem_defines_node.mpr (Or.inl (Stage.mem_defines_iff.mpr (Or.inr (Or.inl hu))))
      refine .node ⟨fun v hv => ?_, fun v hv x hx => ?_, fun w' hw' v hv => ?_, fun v hv => ?_,
        fun v hv => ?_, fun keys' gs' hs' g' hg' hcount => ?_⟩ fun j' hj' => ?_
      · obtain ⟨u, hu, rfl⟩ := hlet v hv
        obtain ⟨name, expr, args, _, hd⟩ := hcopy u hu
        exact ⟨name, expr, args.map f, hd⟩
      · obtain ⟨u, hu, rfl⟩ := hlet v hv
        obtain ⟨name, expr, args, hd, hd'⟩ := hcopy u hu
        rw [Arena.reads_computed hd'] at hx
        obtain ⟨y, hy, rfl⟩ := List.mem_map.mp hx
        rw [← Arena.reads_computed hd] at hy
        exact hbound y (hown.lets u hu y hy)
      · obtain ⟨w, hw, rfl⟩ := List.mem_map.mp hw'
        obtain ⟨u, hu, rfl⟩ := List.mem_map.mp hv
        exact hbound u (hown.wheres w hw u hu)
      · replace hv : v ∈ (s.shape.mapVars f).reads := hv
        rw [reads_mapShape] at hv
        obtain ⟨u, hu, rfl⟩ := List.mem_map.mp hv
        exact hbound u (hown.shape u hu)
      · obtain ⟨u, hu, rfl⟩ := List.mem_map.mp (Ascending.mem_ofList.mp hv)
        refine (hown.outputs u hu).imp (hbound u) fun hd => ?_
        show f u ∈ (s.shape.mapVars f).defines
        rw [defines_mapShape]
        exact List.mem_map_of_mem hd
      · replace hs' : s.shape.mapVars f = .group keys' gs' := hs'
        cases hs : s.shape with
        | group keys gs =>
            rw [hs] at hs'
            cases hs'
            obtain ⟨g, hg, rfl⟩ := List.mem_map.mp hg'
            obtain ⟨v, hv⟩ := hown.operands keys gs hs g hg hcount
            exact ⟨f v, congrArg (Option.map f) hv⟩
        | unfinished | select selected | filter keep =>
            rw [hs] at hs'
            cases hs'
      · rw [mapJoins_eq] at hj'
        obtain ⟨j, hj, rfl⟩ := List.mem_map.mp hj'
        exact ih j hj (hjoined j hj) fun v hv => hf v (defines_of_joined hj hv)

/-- A copy of a closed query is closed. -/
theorem closed_instantiate (h : WellFormed a q) (hq : q.Closed a)
    (hi : q.instantiate.Yields a q' a') : a.defs <+: a'.defs ∧ q'.Closed a' := by
  obtain ⟨renamed, b, hr, hi⟩ := Build.yields_bind.mp hi
  obtain ⟨rfl, rfl⟩ := Build.yields_pure.mp hi
  have hstart : Copied a a [] := ⟨List.prefix_refl _, List.forall_mem_nil _⟩
  have hsorted : ((([] : List (VarId × VarId)).map (·.1)) ++ Ascending.ofList q.defines).Pairwise
      fun u v => u.index < v.index :=
    (Ascending.sorted_ofList q.defines).imp fun hlt => varId_lt_iff.mp hlt
  obtain ⟨hcopied, hsources⟩ := hstart.run h.ordered
    (fun v hv => h.known v (Ascending.mem_ofList.mp hv)) hsorted hr
  refine ⟨hcopied.arena, hq.mapVars fun v hv d hd => ?_⟩
  have hmem : v ∈ renamed.map (·.1) := hsources ▸ Ascending.mem_ofList.mpr hv
  obtain ⟨d', hd', hcopy⟩ := hcopied.copies _ (mem_renamedBy hmem)
  cases hd.symm.trans hd'
  exact hcopy

/-! ## Joins -/

theorem closed_keep {f : Filter} (hq : q.Closed a) (h : q.keep f = .ok q') : q'.Closed a := by
  obtain ⟨hs, rfl⟩ := keep_eq_ok h
  refine closed_withStage hq rfl rfl fun hown => ⟨hown.computed, hown.lets, hown.wheres,
    List.forall_mem_nil _, fun v hv => Or.inl (outputs_bound_of_unfinished hown hs v hv), nofun⟩

theorem closed_prepare {filter : Option Filter} (h : WellFormed a other) (ho : other.Closed a)
    (hp : (q.prepare other filter).Yields a u a') : a.defs <+: a'.defs ∧ u.Closed a' := by
  obtain ⟨w, hcopy, hkeep⟩ := prepare_cases hp
  have hw : a.defs <+: a'.defs ∧ w.Closed a' := by
    rcases hcopy with hc | ⟨rfl, rfl, _⟩
    · exact closed_instantiate h ho hc
    · exact ⟨List.prefix_refl _, ho⟩
  rcases hkeep with rfl | ⟨f, hk⟩
  · exact hw
  · exact ⟨hw.1, closed_keep hw.2 hk⟩

/-- A closed query that joins another one has more coming in. -/
theorem closed_setJoin {name : String} (hq : q.Closed a) (hu : u.Closed a)
    (hn : name ∉ q.joins.keys) : (q.setJoin name u).Closed a := by
  cases q with
  | node s js =>
      have hperm := Table.insert_perm_cons (a := u) hn
      obtain ⟨hown, hjoined⟩ := hq
      refine .node (hown.mono (List.prefix_refl _) fun v hv => ?_) fun j hj => ?_
      · refine (List.mem_append.mp hv).elim (fun hm => List.mem_append_left _ ?_)
          fun hm => List.mem_append_right _ hm
        refine (List.mem_append.mp hm).elim (fun hm => List.mem_append_left _ hm)
          fun hm => List.mem_append_right _ ?_
        obtain ⟨j, hj, hv⟩ := List.mem_flatMap.mp hm
        exact List.mem_flatMap.mpr ⟨j, hperm.mem_iff.mpr (List.mem_cons_of_mem _ hj), hv⟩
      · rcases List.mem_cons.mp (hperm.mem_iff.mp hj) with rfl | hj
        · exact hu
        · exact hjoined j hj

theorem closed_join {aliasName : String} {filter : Option Filter} (hq : q.Closed a)
    (h : WellFormed a other) (ho : other.Closed a)
    (hj : (q.join aliasName other filter).Yields a q' a') :
    a.defs <+: a'.defs ∧ q'.Closed a' ∧ q'.stage = q.stage := by
  obtain ⟨_, _, ha, hj⟩ := Build.yields_bind.mp hj
  obtain ⟨hfree, rfl⟩ := Build.yields_liftExcept.mp ha
  obtain ⟨u, b, hp, hj⟩ := Build.yields_bind.mp hj
  obtain ⟨rfl, rfl⟩ := Build.yields_pure.mp hj
  obtain ⟨harena, hu⟩ := closed_prepare h ho hp
  exact ⟨harena, closed_setJoin (hq.grow harena) hu (requireAvailable_eq_ok hfree).2, rfl⟩

theorem closed_joinVia {via aliasName : String} {filter : Option Filter} (hw : WellFormed a q)
    (hq : q.Closed a) (h : WellFormed a other) (ho : other.Closed a)
    (hj : (q.joinVia via aliasName other filter).Yields a q' a') : q'.Closed a' := by
  obtain ⟨_, _, ha, hj⟩ := Build.yields_bind.mp hj
  obtain ⟨_, rfl⟩ := Build.yields_liftExcept.mp ha
  split at hj
  · exact (Build.not_yields_throw hj).elim
  · next existing hf =>
      obtain ⟨u, b, hp, hj⟩ := Build.yields_bind.mp hj
      obtain ⟨nested, c, hn, hj⟩ := Build.yields_bind.mp hj
      obtain ⟨rfl, rfl⟩ := Build.yields_pure.mp hj
      obtain ⟨harena, hu⟩ := closed_prepare h ho hp
      have hwu := (prepared_of_prepare hw h hp).wellFormed
      have hqb := hq.grow harena
      cases q with
      | node s js =>
          have hm : (via, existing) ∈ js := Table.mem_of_find?_eq_some hf
          have hexisting : existing.Closed b := by
            obtain ⟨_, hjoined⟩ := hqb
            exact hjoined _ hm
          obtain ⟨harena', hnested, hstage⟩ := closed_join hexisting hwu hu hn
          obtain ⟨before, after, rfl⟩ := List.append_of_mem hm
          have hinsert := Table.insert_of_mem (a := nested) (hw.lawful _ (self_mem_parts _)).aliases
          have hreplaced := Widened.of_join (s := s) hqb harena' hnested fun x hx => by rwa [hstage]
          rw [setJoin, joins_node, hinsert]
          exact closed_withStage hreplaced.closed rfl rfl fun hown =>
            ⟨hown.computed, hown.lets, hown.wheres, hown.shape, hown.outputs, hown.operands⟩

/-! ## Every built query -/

theorem closed_watch (a : Arena) (source : Source) : (Query.watch source).Closed a :=
  .node ⟨List.forall_mem_nil _, List.forall_mem_nil _, List.forall_mem_nil _, List.forall_mem_nil _,
    List.forall_mem_nil _, nofun⟩ (List.forall_mem_nil _)

/-- Every query that was built is closed. -/
theorem Built.closed (h : Built a q) : q.Closed a := by
  induction h with
  | unnamed t => exact closed_watch _ _
  | named h =>
      rw [Query.named] at h
      split at h
      · cases h
        exact closed_watch _ _
      · cases h
  | grow _ _ ih => exact ih.grow (List.prefix_append _ _)
  | addWhere _ h ih => exact closed_addWhere ih h
  | addLet _ h ih => exact closed_addLet ih h
  | select _ h ih => exact closed_select ih h
  | groupBy _ h ih => exact closed_groupBy ih h
  | aggregate _ h ih => exact closed_aggregate ih h
  | count _ h ih => exact closed_count ih h
  | join _ hother h ih ihother => exact (closed_join ih hother.wellFormed ihother h).2.1
  | joinTracepoint hq h ih =>
      exact (closed_join ih (wellFormed_watch hq.wellFormed.ordered _) (closed_watch _ _) h).2.1
  | joinVia hq hother h ih ihother =>
      exact closed_joinVia hq.wellFormed ih hother.wellFormed ihother h

/-- Every query that was built is in scope. -/
theorem Built.scoped (h : Built a q) : q.Scoped a false := by
  refine h.closed.scoped fun _ keep hs => ?_
  have hrooted := h.rooted
  rw [Rooted, hs] at hrooted
  exact hrooted

end Query

end CausalTrace
