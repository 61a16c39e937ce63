import CausalTrace.Proofs.WellFormed
import CausalTrace.Proofs.Scope
import CausalTrace.Query.Optimize

/-!
# What stages are supplied with

A stage that is in scope is supplied with everything it computes with, and with what a
grouping stage only passes through. The two are kept apart here: the first survives
every rewriting of a query.
-/

namespace CausalTrace

namespace Stage

variable {a : Arena} {s : Stage} {incoming : List VarId} {pack : Bool}

theorem operand_of_none {g : Aggregate} (h : g.input = none) : operand g = g.var := by
  rw [operand]
  split
  · rfl
  · rfl
  · next hw _ =>
      rw [h] at hw
      cases hw

/-- An aggregate other than a count reads its operand. -/
theorem operand_of_input {g : Aggregate} {v : VarId} (hc : (g.how != .count) = true)
    (h : g.input = some v) : operand g = v := by
  rw [operand]
  split
  · next hcount =>
      rw [hcount] at hc
      cases hc
  · next hnone _ =>
      rw [h] at hnone
      cases hnone
  · next w hw _ =>
      rw [h] at hw
      exact (Option.some.inj hw).symm

/-- The variables that a stage computes its rows from. -/
def uses (s : Stage) (pack : Bool) : List VarId :=
  match s.shape with
  | .unfinished => s.outputs
  | .select selected => if pack then s.outputs else selected
  | .filter _ => s.outputs
  | .group keys gs =>
      keys ++ (((if pack then s.packedAggregates gs else gs).filter (·.how != .count)).map operand)

/-- The outputs of a grouping stage that are neither keys nor aggregates. -/
def passed (s : Stage) : List VarId :=
  match s.shape with
  | .group keys gs => s.outputs.filter fun v => !keys.contains v && !gs.any (·.var == v)
  | .unfinished => []
  | .select _ => []
  | .filter _ => []

/-- Everything that a stage computes with is bound there, given what comes in. -/
structure Supplied (a : Arena) (incoming : List VarId) (pack : Bool) (s : Stage) : Prop where
  computed : ∀ v ∈ s.lets.map (·.2), ∃ name expr args,
    a.definition? v = some (.computed name expr args)
  lets : ∀ v ∈ s.lets.map (·.2), ∀ u ∈ a.reads v, u ∈ incoming ++ s.lets.map (·.2)
  wheres : ∀ w ∈ s.wheres, ∀ v ∈ w.args, v ∈ incoming ++ s.lets.map (·.2)
  uses : ∀ v ∈ s.uses pack, v ∈ incoming ++ s.lets.map (·.2)
  emits : pack = false → ∀ keep, s.shape ≠ .filter keep

/-- What lets and conditions read, a stage needs. -/
theorem needs_of_residue {v : VarId} (h : v ∈ Query.residue a s) : v ∈ s.needs a := by
  rw [Query.residue, List.mem_append] at h
  simp only [needs, List.mem_append]
  rcases h with hl | hw
  · exact Or.inl (Or.inl (Or.inr hl))
  · exact Or.inl (Or.inr hw)

/-- Another stage is supplied as well: it computes some of the lets, and others that read what it
binds; it checks some of the conditions; and it still binds what these lets and conditions read. -/
theorem Supplied.rebuild {a' : Arena} {s' : Stage} {incoming' : List VarId} {pack' : Bool}
    (h : s.Supplied a incoming pack) (hp : a.defs <+: a'.defs)
    (hlets : ∀ v ∈ s'.lets.map (·.2), v ∈ s.lets.map (·.2) ∨
      (∃ name expr args, a'.definition? v = some (.computed name expr args)) ∧
        ∀ u ∈ a'.reads v, u ∈ incoming' ++ s'.lets.map (·.2))
    (hwheres : ∀ w ∈ s'.wheres, w ∈ s.wheres)
    (hresidue : ∀ v ∈ incoming ++ s.lets.map (·.2), v ∈ Query.residue a s' →
      v ∈ incoming' ++ s'.lets.map (·.2))
    (huses : ∀ v ∈ s'.uses pack', v ∈ incoming' ++ s'.lets.map (·.2))
    (hemits : pack' = false → ∀ keep, s'.shape ≠ .filter keep) :
    s'.Supplied a' incoming' pack' := by
  have hknown : ∀ v ∈ s.lets.map (·.2), a.Knows v := fun v hv => by
    obtain ⟨_, _, _, hd⟩ := h.computed v hv
    exact Arena.knows_of_definition hd
  refine ⟨fun v hv => ?_, fun v hv u hu => ?_, fun w hw v hv => ?_, huses, hemits⟩
  · rcases hlets v hv with hold | ⟨hcomputed, _⟩
    · rw [Arena.definition?_of_extension hp (hknown v hold)]
      exact h.computed v hold
    · exact hcomputed
  · rcases hlets v hv with hold | ⟨_, hreads⟩
    · rw [Arena.reads_of_extension hp (hknown v hold)] at hu
      obtain ⟨l, hl, rfl⟩ := List.mem_map.mp hv
      exact hresidue u (h.lets l.2 hold u hu)
        (List.mem_append_left _ (List.mem_flatMap.mpr ⟨l, hl, hu⟩))
    · exact hreads u hu
  · have hbound := h.wheres w (hwheres w hw) v hv
    exact hresidue v hbound (List.mem_append_right _ (List.mem_flatMap.mpr ⟨w, hw, hv⟩))

/-- What a stage computes with it needs, or aggregates itself. -/
theorem needs_of_uses {v : VarId} (h : v ∈ s.uses pack) : v ∈ s.needs a ∨ v ∈ s.shape.defines := by
  have houtputs : v ∈ s.outputs → v ∈ s.needs a := fun ho => by
    simp only [needs, List.mem_append]
    exact Or.inl (Or.inl (Or.inl ho))
  have hreads : v ∈ s.shape.reads → v ∈ s.needs a := List.mem_append_right _
  rw [uses] at h
  split at h
  · exact Or.inl (houtputs h)
  · next selected hs =>
      split at h
      · exact Or.inl (houtputs h)
      · exact Or.inl (hreads (by rw [hs]; exact h))
  · exact Or.inl (houtputs h)
  · next keys gs hs =>
      rw [hs] at hreads ⊢
      rcases List.mem_append.mp h with hk | hg
      · exact Or.inl (hreads (List.mem_append_left _ hk))
      · obtain ⟨g, hm, he⟩ := List.mem_map.mp hg
        have hmem : g ∈ gs := by
          have hm := (List.mem_filter.mp hm).1
          split at hm
          · exact (List.mem_filter.mp hm).1
          · exact hm
        have hvar : g.var ∈ (Shape.group keys gs).defines := List.mem_map_of_mem hmem
        rw [operand] at he
        split at he
        · exact Or.inr (he ▸ hvar)
        · exact Or.inr (he ▸ hvar)
        · next x hx _ =>
            refine Or.inl (hreads (List.mem_append_right _ ?_))
            exact List.mem_filterMap.mpr ⟨g, hmem, hx.trans (congrArg some he)⟩

theorem mem_owes_iff {v : VarId} :
    v ∈ s.owes pack ↔ v ∈ s.uses pack ∨ pack = true ∧ v ∈ s.passed := by
  have hnone : ¬ (pack = true ∧ v ∈ ([] : List VarId)) := fun h => List.not_mem_nil h.2
  cases hs : s.shape with
  | unfinished =>
      have ho : s.owes pack = s.outputs := by
        cases pack <;> simp [owes, packedBag, emittedBag, hs, BagSpec.reads]
      rw [ho, uses, passed, hs]
      exact (or_iff_left hnone).symm
  | select selected =>
      have ho : s.owes pack = if pack then s.outputs else selected := by
        cases pack <;> simp [owes, packedBag, emittedBag, hs, BagSpec.reads]
      rw [ho, uses, passed, hs]
      exact (or_iff_left hnone).symm
  | filter keep =>
      have ho : s.owes pack = s.outputs := by
        cases pack <;> simp [owes, packedBag, emittedBag, hs, BagSpec.reads]
      rw [ho, uses, passed, hs]
      exact (or_iff_left hnone).symm
  | group keys gs =>
      have hoperands : ∀ gs : List Aggregate,
          ((gs.map fun g => (⟨operand g, g.how⟩ : AggregateSpec VarId)).filter
            (·.how != .count)).map (·.name) = (gs.filter (·.how != .count)).map operand := by
        intro gs
        rw [List.filter_map, List.map_map]
        rfl
      cases pack with
      | true =>
          simp only [owes, packedBag, uses, passed, hs, if_true, BagSpec.reads, hoperands,
            packedKeys, List.mem_append, true_and]
          exact or_right_comm
      | false =>
          simp only [owes, emittedBag, uses, passed, hs, BagSpec.reads, hoperands]
          simp

/-- A stage is in scope if it is supplied and what it passes through is bound. -/
theorem scoped_iff : s.Scoped a incoming pack ↔ s.Supplied a incoming pack ∧
    (pack = true → ∀ v ∈ s.passed, v ∈ incoming ++ s.lets.map (·.2)) := by
  constructor
  · intro h
    refine ⟨⟨h.computed, h.lets, h.wheres, ?_, h.emits⟩, ?_⟩
    · exact fun v hv => h.delivers v (mem_owes_iff.mpr (Or.inl hv))
    · exact fun hp v hv => h.delivers v (mem_owes_iff.mpr (Or.inr ⟨hp, hv⟩))
  · rintro ⟨h, hpassed⟩
    refine ⟨h.computed, h.lets, h.wheres, fun v hv => ?_, h.emits⟩
    rcases mem_owes_iff.mp hv with hu | ⟨hp, hv⟩
    · exact h.uses v hu
    · exact hpassed hp v hv

end Stage

namespace Query

variable {a : Arena} {pack : Bool} {s : Stage} {js : List (String × Query)}

/-- What a stage in scope computes with is bound. -/
theorem Scoped.uses_bound {q : Query} (h : q.Scoped a pack) :
    ∀ v ∈ q.stage.uses pack, v ∈ q.bound := by
  obtain ⟨hown, _⟩ := h
  exact fun v hv => hown.delivers v (Stage.mem_owes_iff.mpr (Or.inl hv))

/-- Every stage of the query is supplied, and delivers what is defined in its part of
the query. -/
inductive Supplied (a : Arena) : Bool → Query → Prop where
  | node {pack : Bool} {s : Stage} {js : List (String × Query)}
      (own : s.Supplied a (Query.node s js).incoming pack)
      (delivers : pack = true → ∀ v ∈ s.unpackedBag.names, v ∈ (Query.node s js).defines)
      (joined : ∀ j ∈ js, Supplied a true j.2) : Supplied a pack (.node s js)

/-- What a supplied query binds, it defines. -/
theorem Supplied.bound_defined {q : Query} (h : q.Supplied a pack) :
    ∀ v ∈ q.bound, v ∈ q.defines := by
  obtain ⟨_, _, hjoined⟩ := h
  intro v hv
  rw [bound, incoming, List.mem_append, List.mem_append] at hv
  rcases hv with (ho | hj) | hl
  · exact mem_defines_node.mpr (Or.inl (Stage.mem_defines_iff.mpr (Or.inl ho)))
  · obtain ⟨j, hm, hn⟩ := List.mem_flatMap.mp hj
    refine mem_defines_node.mpr (Or.inr ⟨j, hm, ?_⟩)
    cases hj' : j.2 with
    | node t ks =>
        have hsupplied := hjoined j hm
        rw [hj'] at hsupplied hn
        obtain ⟨_, hdelivers, _⟩ := hsupplied
        exact hdelivers rfl v hn
  · exact mem_defines_node.mpr (Or.inl (Stage.mem_defines_iff.mpr (Or.inr (Or.inl hl))))

theorem Supplied.delivers_defined {q : Query} (h : q.Supplied a true) :
    ∀ v ∈ q.stage.unpackedBag.names, v ∈ q.defines := by
  obtain ⟨_, hdelivers, _⟩ := h
  exact hdelivers rfl

/-- Every joined grouping stage binds the variables that it only passes through. -/
def Passes (q : Query) : Prop :=
  ∀ j ∈ q.joins, ∀ p ∈ j.2.parts, ∀ v ∈ p.stage.passed, v ∈ p.bound

theorem scoped_true_iff {q : Query} : q.Scoped a true ↔
    q.Supplied a true ∧ ∀ p ∈ q.parts, ∀ v ∈ p.stage.passed, v ∈ p.bound := by
  induction q with
  | node s js ih =>
      constructor
      · rintro ⟨hown, hjoined⟩
        obtain ⟨hsupplied, hpassed⟩ := Stage.scoped_iff.mp hown
        refine ⟨.node hsupplied (fun _ => delivered_defined (.node hown hjoined))
          fun j hj => ((ih j hj).mp (hjoined j hj)).1, ?_⟩
        intro p hp
        rcases mem_parts_node.mp hp with rfl | ⟨j, hj, hp⟩
        · exact hpassed rfl
        · exact ((ih j hj).mp (hjoined j hj)).2 p hp
      · rintro ⟨⟨hsupplied, _, hjoined⟩, hpassed⟩
        refine .node (Stage.scoped_iff.mpr ⟨hsupplied, fun _ => hpassed _ (self_mem_parts _)⟩) ?_
        intro j hj
        refine (ih j hj).mpr ⟨hjoined j hj, fun p hp => hpassed p ?_⟩
        exact mem_parts_node.mpr (Or.inr ⟨j, hj, hp⟩)

/-- A query is in scope if it is supplied and passes on what is bound. -/
theorem scoped_iff_supplied {q : Query} : q.Scoped a false ↔ q.Supplied a false ∧ q.Passes := by
  cases q with
  | node s js =>
      constructor
      · rintro ⟨hown, hjoined⟩
        refine ⟨.node (Stage.scoped_iff.mp hown).1 (fun h => absurd h Bool.false_ne_true)
          fun j hj => (scoped_true_iff.mp (hjoined j hj)).1, ?_⟩
        exact fun j hj => (scoped_true_iff.mp (hjoined j hj)).2
      · rintro ⟨⟨hsupplied, _, hjoined⟩, hpasses⟩
        refine .node (Stage.scoped_iff.mpr ⟨hsupplied, fun h => absurd h Bool.false_ne_true⟩)
          fun j hj => ?_
        exact scoped_true_iff.mpr ⟨hjoined j hj, hpasses j hj⟩

end Query

end CausalTrace
