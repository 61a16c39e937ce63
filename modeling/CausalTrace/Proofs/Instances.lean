import CausalTrace.Proofs.Declaring
import CausalTrace.Proofs.Neat
import CausalTrace.Proofs.Optimizing
import CausalTrace.Proofs.Recompiling

/-!
# Instances

A query can be copied at any time, as it was built or after it was optimized. The copy has
variables of its own, refers to no others, and compiles to the very advice of the original;
where the original does not compile, the copy fails with the same error.
-/

namespace CausalTrace

namespace Query

variable {a b : Arena} {f : VarId → VarId} {vs : List VarId} {s : Stage} {q q' : Query} {v : VarId}
  {m : Moves}

/-! ## Queries that can be copied -/

/-- A query that was built, perhaps optimized, perhaps while other queries were built. -/
inductive Obtained : Arena → Query → Prop where
  | built {a : Arena} {q : Query} : q.Built a → Obtained a q
  | optimized {a b : Arena} {q q' : Query} {m : Moves} :
      Obtained a q → (q.optimize m).run a = (q', b) → Obtained b q'
  | grown {a b : Arena} {q : Query} : Obtained a q → a.defs <+: b.defs → b.Ordered → Obtained b q

/-- A sound query whose outputs are in order and which refers to its own variables only. -/
structure Copiable (a : Arena) (q : Query) : Prop where
  sound : Sound a false false q
  neat : q.Neat false
  confined : q.Confined a

/-- What the variables of a stage are defined by, the stage reads. -/
theorem LegibleAt.needs_of_defines (h : q.LegibleAt a) {w : VarId} (hw : w ∈ q.stage.defines) :
    a.reads w ⊆ q.stage.needs a := by
  rw [← Stage.map_origins] at hw
  obtain ⟨⟨o, w⟩, ho, rfl⟩ := List.mem_map.mp hw
  obtain ⟨d, hd, hdescribes⟩ := h.origins _ ho
  intro v hv
  rw [Arena.reads, hd] at hv
  rw [Stage.mem_needs_iff]
  simp only [Stage.origins, List.mem_append, List.mem_map] at ho
  rcases ho with (⟨l, hl, he⟩ | ⟨l, hl, he⟩) | ho
  · cases he
    cases hdescribes
    cases hv
  · cases he
    exact Or.inr (Or.inl ⟨l, hl, by rwa [Arena.reads, hd]⟩)
  · cases hs : q.stage.shape with
    | group keys gs =>
        rw [hs] at ho
        obtain ⟨g, hg, he⟩ := List.mem_map.mp ho
        cases he
        cases hdescribes
        refine Or.inr (Or.inr (Or.inr (List.mem_append_right _ ?_)))
        exact List.mem_filterMap.mpr ⟨g, hg, Option.mem_toList.mp hv⟩
    | unfinished | select selected | filter keep =>
        rw [hs] at ho
        cases ho

theorem Built.confined (hq : q.Built a) : q.Confined a := by
  rintro p hp v (hneeds | ⟨w, hw, hv⟩)
  · exact hq.closed.needs_defined hq.scoped p hp v hneeds
  · exact hq.closed.needs_defined hq.scoped p hp v ((hq.legible p hp).needs_of_defines hw hv)

theorem Built.copiable (hq : q.Built a) : Copiable a q :=
  ⟨(hq.sound hq.scoped).loosen, hq.neat, hq.confined⟩

theorem Copiable.optimize (h : Copiable a q) (ho : (q.optimize m).run a = (q', b)) :
    Copiable b q' := by
  obtain ⟨hsound, hfits⟩ := (leads_optimizeWithin (fun _ => rfl) q.depth h.sound).of_run ho
  exact ⟨hsound, (leads_neat q.depth h.neat).of_run ho, hfits.confined h.confined⟩

theorem Copiable.grow (h : Copiable a q) (hp : a.defs <+: b.defs) (ho : b.Ordered) : Copiable b q :=
  ⟨h.sound.grow hp ho, h.neat, h.confined.extend hp h.sound.formed.known⟩

theorem Obtained.copiable (h : Obtained a q) : Copiable a q := by
  induction h with
  | built hq => exact hq.copiable
  | optimized _ ho ih => exact ih.optimize ho
  | grown _ hp ho ih => exact ih.grow hp ho

/-! ## Renaming what can be copied -/

theorem Copiable.inside (h : Copiable a q) : q.Inside a q.defines := by
  intro p hp
  refine ⟨(h.neat p hp).outputs, fun v hv => defines_of_part hp v ?_, fun v hv =>
    defines_of_part hp v (h.confined p hp v hv)⟩
  cases p
  exact mem_defines_node.mpr (Or.inl hv)

/-- What a variable of the query is defined by is one of the query, too. -/
theorem Confined.reads_defined (h : q.Confined a) (hv : v ∈ q.defines) : a.reads v ⊆ q.defines := by
  induction q with
  | node s js ih =>
      obtain ⟨hown, hjoined⟩ := confined_node.mp h
      intro u hu
      rcases mem_defines_node.mp hv with hv | ⟨j, hj, hv⟩
      · exact hown u (Or.inr ⟨v, hv, hu⟩)
      · exact defines_of_joined hj (ih j hj (hjoined j hj) hv hu)

/-- Renaming nothing changes nothing, since the outputs are in order. -/
theorem Inside.mapVars_id (hq : q.Inside a vs) : q.mapVars id = q := by
  induction q with
  | node s js ih =>
      have hown : s.Inside a vs := hq _ (self_mem_parts _)
      have hjoins : mapJoins id js = js := by
        rw [mapJoins_eq]
        refine (List.map_congr_left fun j hj => ?_).trans (List.map_id js)
        rw [ih j hj fun p hp => hq p (mem_parts_node.mpr (Or.inr ⟨j, hj, hp⟩)), id]
      rw [mapVars, hjoins, Stage.mapVars_id hown.sorted]

theorem Copiable.renames (h : Copiable a q) (hc : Copy a b q f) : Renames a b f q.defines where
  earlier v _ u hu := h.sound.formed.ordered v u hu
  climbs := hc.climbs
  copies := hc.copies
  closed _ hv := h.confined.reads_defined hv

theorem Copiable.keeps (h : Copiable a q) (hagrees : a.Agrees b q.defines) :
    Renames a b id q.defines :=
  .of_agrees hagrees h.sound.formed.ordered h.sound.formed.known fun _ hv =>
    h.confined.reads_defined hv

/-- A query compiles alike in every arena where its variables are defined alike. -/
theorem Copiable.compile_of_agrees (h : Copiable a q)
    (hagrees : a.Agrees b q.defines) (id : QueryId) : q.compile b id = q.compile a id :=
  -- Keeping all names is a renaming.
  (congrArg (·.compile b id) h.inside.mapVars_id).symm.trans
    (compile_mapVars (h.keeps hagrees) h.inside)

theorem refersTo_of_mapVars (h : Renames a b f vs) (hs : s.Inside a vs)
    (hv : (s.mapVars f).RefersTo b v) : ∃ u, s.RefersTo a u ∧ f u = v := by
  rcases Stage.refersTo_iff.mp hv with ho | ⟨w', hw', hv⟩ | hshape | ⟨w', hw', hv⟩
  · obtain ⟨u, hu, rfl⟩ := List.mem_map.mp (Ascending.mem_ofList.mp ho)
    exact ⟨u, .of_output hu, rfl⟩
  · obtain ⟨w, hw, rfl⟩ := List.mem_map.mp hw'
    obtain ⟨u, hu, rfl⟩ := List.mem_map.mp hv
    exact ⟨u, .of_where hw hu, rfl⟩
  · replace hshape : v ∈ (s.shape.mapVars f).reads := hshape
    rw [reads_mapShape] at hshape
    obtain ⟨u, hu, rfl⟩ := List.mem_map.mp hshape
    exact ⟨u, .of_shape hu, rfl⟩
  · rw [defines_mapStage] at hw'
    obtain ⟨w, hw, rfl⟩ := List.mem_map.mp hw'
    rw [h.reads_eq (hs.defines hw)] at hv
    obtain ⟨u, hu, rfl⟩ := List.mem_map.mp hv
    exact ⟨u, Or.inr ⟨w, hw, hu⟩, rfl⟩

/-- Where a stage refers to its own query, the renamed one refers to the renamed query. -/
theorem Confined.mapVars (hconfined : q.Confined a) (h : Renames a b f vs) (hq : q.Inside a vs) :
    (q.mapVars f).Confined b := by
  induction q with
  | node s js ih =>
      obtain ⟨hown, hjoined⟩ := confined_node.mp hconfined
      rw [Query.mapVars]
      refine confined_node.mpr ⟨fun v hv => ?_, fun j' hj' => ?_⟩
      · obtain ⟨u, hu, rfl⟩ := refersTo_of_mapVars h (hq _ (self_mem_parts _)) hv
        rw [← Query.mapVars, defines_mapVars]
        exact List.mem_map_of_mem (hown u hu)
      · rw [mapJoins_eq] at hj'
        obtain ⟨j, hj, rfl⟩ := List.mem_map.mp hj'
        exact ih j hj (hjoined j hj) fun p hp => hq p (mem_parts_node.mpr (Or.inr ⟨j, hj, hp⟩))

/-! ## Copies -/

/-- A copy has new variables, refers to no others, and compiles as the original does: to the
same advice or with the same error. -/
theorem instantiate_compiles_alike (h : q.Obtained a) : ∃ q' b, q.instantiate.Yields a q' b ∧
    (∀ v ∈ q'.defines, ¬ a.Knows v ∧ b.Knows v ∧ v ∉ q.defines) ∧ q'.Confined b ∧
      ∀ id, q'.compile b id = q.compile b id ∧ q.compile b id = q.compile a id := by
  have hq := h.copiable
  obtain ⟨q', b, hyields⟩ := yields_instantiate q a
  obtain ⟨f, hcopy, rfl⟩ := exists_copy hq.sound.formed.ordered hq.sound.formed.known hyields
  have hrenames := hq.renames hcopy
  refine ⟨q.mapVars f, b, hyields, fun v hv => ?_,
    hq.confined.mapVars hrenames hq.inside, fun id => ?_⟩
  · rw [defines_mapVars] at hv
    obtain ⟨u, hu, rfl⟩ := List.mem_map.mp hv
    obtain ⟨hnew, hknown⟩ := hcopy.fresh u hu
    exact ⟨hnew, hknown, fun hold => hnew (hq.sound.formed.known _ hold)⟩
  · have hkept := hq.compile_of_agrees (.of_extension hcopy.arena hq.sound.formed.known) id
    exact ⟨(compile_mapVars hrenames hq.inside).trans hkept.symm, hkept⟩

open Query.Sample in
/-- When their aggregates have been moved the totals do not compile, and neither do copies. -/
theorem instantiate_optimized_totals :
    ((totals.optimize .all).run totalsArena).1.Obtained ((totals.optimize .all).run totalsArena).2 ∧
      ∃ q' b, ((totals.optimize .all).run totalsArena).1.instantiate.Yields
        ((totals.optimize .all).run totalsArena).2 q' b ∧ (q'.compile b ⟨1⟩).isOk = false := by
  have hobtained : ((totals.optimize .all).run totalsArena).1.Obtained
      ((totals.optimize .all).run totalsArena).2 :=
    .optimized (.built built_totals) (Prod.eta _).symm
  obtain ⟨q', b, hyields, _, _, hsame⟩ := instantiate_compiles_alike hobtained
  refine ⟨hobtained, q', b, hyields, ?_⟩
  rw [(hsame ⟨1⟩).1, (hsame ⟨1⟩).2]
  decide +kernel

end Query

end CausalTrace
