import CausalTrace.Proofs.Building
import CausalTrace.Proofs.Sound

/-!
# Closed queries

A query is closed when every stage binds what it reads: it observes it, computes it, or a
joined query delivers it. Building steps keep queries closed, so every query that was
built compiles.
-/

namespace CausalTrace

namespace Stage

variable {a a' : Arena} {s : Stage} {bound bound' incoming : List VarId} {v : VarId} {pack : Bool}

/-- Everything that a stage reads is bound there. What it delivers is bound, or an aggregate
of its own. -/
structure Closed (a : Arena) (bound : List VarId) (s : Stage) : Prop where
  computed : ∀ v ∈ s.lets.map (·.2), ∃ name expr args,
    a.definition? v = some (.computed name expr args)
  lets : ∀ v ∈ s.lets.map (·.2), ∀ u ∈ a.reads v, u ∈ bound
  wheres : ∀ w ∈ s.wheres, ∀ v ∈ w.args, v ∈ bound
  shape : ∀ v ∈ s.shape.reads, v ∈ bound
  outputs : ∀ v ∈ s.outputs, v ∈ bound ∨ v ∈ s.shape.defines
  operands : ∀ keys gs, s.shape = .group keys gs → ∀ g ∈ gs, (g.how != .count) = true →
    ∃ v, g.input = some v

theorem Closed.mono (h : s.Closed a bound) (hp : a.defs <+: a'.defs)
    (hb : ∀ v ∈ bound, v ∈ bound') : s.Closed a' bound' := by
  have hknown : ∀ v ∈ s.lets.map (·.2), a.Knows v := fun v hv => by
    obtain ⟨_, _, _, hd⟩ := h.computed v hv
    exact Arena.knows_of_definition hd
  refine ⟨fun v hv => ?_, fun v hv u hu => ?_, fun w hw v hv => hb v (h.wheres w hw v hv),
    fun v hv => hb v (h.shape v hv), fun v hv => (h.outputs v hv).imp_left (hb v), h.operands⟩
  · rw [Arena.definition?_of_extension hp (hknown v hv)]
    exact h.computed v hv
  · rw [Arena.reads_of_extension hp (hknown v hv)] at hu
    exact hb u (h.lets v hv u hu)

theorem Closed.deliverAlso (h : s.Closed a bound) (hv : v ∈ bound ∨ v ∈ s.shape.defines) :
    (s.deliverAlso v).Closed a bound := by
  refine ⟨h.computed, h.lets, h.wheres, h.shape, fun u hu => ?_, h.operands⟩
  rcases Ascending.mem_insert.mp hu with rfl | hu
  · exact hv
  · exact h.outputs u hu

/-- A closed stage is supplied with all that it computes with. -/
theorem Closed.scoped (h : s.Closed a (incoming ++ s.lets.map (·.2)))
    (hroot : pack = false → ∀ keep, s.shape ≠ .filter keep) : s.Scoped a incoming pack := by
  have houtputs : s.shape.defines = [] → ∀ v ∈ s.outputs, v ∈ incoming ++ s.lets.map (·.2) := by
    intro hnone v hv
    refine (h.outputs v hv).resolve_right fun hd => ?_
    rw [hnone] at hd
    exact List.not_mem_nil hd
  have hshape := h.shape
  refine scoped_iff.mpr ⟨⟨h.computed, h.lets, h.wheres, fun v hv => ?_, hroot⟩, fun _ v hv => ?_⟩
  · rw [uses] at hv
    split at hv
    · next hs => exact houtputs (by rw [hs]; rfl) v hv
    · next selected hs =>
        split at hv
        · exact houtputs (by rw [hs]; rfl) v hv
        · rw [hs] at hshape
          exact hshape v hv
    · next keep hs => exact houtputs (by rw [hs]; rfl) v hv
    · next keys gs hs =>
        rw [hs] at hshape
        rcases List.mem_append.mp hv with hk | hg
        · exact hshape v (List.mem_append_left _ hk)
        · obtain ⟨g, hm, rfl⟩ := List.mem_map.mp hg
          obtain ⟨hm, hcount⟩ := List.mem_filter.mp hm
          have hmem : g ∈ gs := by
            split at hm
            · exact (List.mem_filter.mp hm).1
            · exact hm
          obtain ⟨v, hinput⟩ := h.operands keys gs hs g hmem hcount
          rw [operand_of_input hcount hinput]
          exact hshape v (List.mem_append_right _ (List.mem_filterMap.mpr ⟨g, hmem, hinput⟩))
  · rw [passed] at hv
    split at hv
    · next keys gs hs =>
        obtain ⟨ho, hno⟩ := List.mem_filter.mp hv
        refine (h.outputs v ho).resolve_right fun hd => ?_
        rw [hs] at hd
        obtain ⟨g, hg, rfl⟩ := List.mem_map.mp hd
        simp only [Bool.and_eq_true, Bool.not_eq_true', List.any_eq_false, beq_iff_eq] at hno
        exact hno.2 g hg rfl
    · exact absurd hv List.not_mem_nil
    · exact absurd hv List.not_mem_nil
    · exact absurd hv List.not_mem_nil

end Stage

namespace Query

variable {a a' b : Arena} {s s' : Stage} {js before after : List (String × Query)}
  {q q' u u' other : Query} {name aliasName : String} {v : VarId} {pack : Bool}

/-- Every stage of the query is closed. -/
inductive Closed (a : Arena) : Query → Prop where
  | node {s : Stage} {js : List (String × Query)} (own : s.Closed a (Query.node s js).bound)
      (joined : ∀ j ∈ js, Closed a j.2) : Closed a (.node s js)

theorem Closed.grow (h : q.Closed a) (hp : a.defs <+: a'.defs) : q.Closed a' := by
  induction q with
  | node s js ih =>
      obtain ⟨hown, hjoined⟩ := h
      exact .node (hown.mono hp fun _ hv => hv) fun j hj => ih j hj (hjoined j hj)

/-- A closed query is in scope, unless its first stage would have to emit a single row. -/
theorem Closed.scoped (h : q.Closed a)
    (hroot : pack = false → ∀ keep, q.stage.shape ≠ .filter keep) : q.Scoped a pack := by
  induction q generalizing pack with
  | node s js ih =>
      obtain ⟨hown, hjoined⟩ := h
      exact .node (hown.scoped hroot) fun j hj =>
        ih j hj (hjoined j hj) fun hp => absurd hp.symm Bool.false_ne_true

/-! ## Resolving names -/

/-- A closed query in an arena with more definitions, which binds what another one did. -/
structure Widened (a a' : Arena) (q q' : Query) : Prop where
  arena : a.defs <+: a'.defs
  incoming : ∀ v ∈ q.incoming, v ∈ q'.incoming
  closed : q'.Closed a'

theorem Widened.bound (h : Widened a a' q q') (hr : Resolved a a' q q') :
    ∀ v ∈ q.bound, v ∈ q'.bound := by
  intro v hv
  rw [Query.bound, hr.lets]
  exact (List.mem_append.mp hv).elim (fun hm => List.mem_append_left _ (h.incoming v hm))
    fun hm => List.mem_append_right _ hm

theorem Closed.widened (h : q.Closed a) : Widened a a q q := ⟨List.prefix_refl _, fun _ hv => hv, h⟩

theorem widened_observe {field : String} (hq : (node s js).Closed a)
    (h : (s.observe field).Yields a (s', v) a') :
    Widened a a' (node s js) (node s' js) ∧ v ∈ s'.observed.values := by
  rw [Stage.observe] at h
  split at h
  · next u hf =>
      obtain ⟨he, rfl⟩ := Build.yields_pure.mp h
      cases he
      exact ⟨hq.widened, List.mem_map_of_mem (f := (·.2)) (Table.mem_of_find?_eq_some hf)⟩
  · next hf =>
      obtain ⟨u, b, hd, h⟩ := Build.yields_bind.mp h
      obtain ⟨rfl, rfl⟩ := Build.yields_define.mp hd
      obtain ⟨he, rfl⟩ := Build.yields_pure.mp h
      cases he
      have hvalues : (s.observed.insert field ⟨a.defs.length⟩).values.Perm
          (⟨a.defs.length⟩ :: s.observed.values) :=
        (Table.insert_perm_cons (Table.find?_eq_none_iff.mp hf)).map fun e : String × VarId => e.2
      have hp :
          a.defs <+: (⟨a.defs ++ [.observed (s.source.aliasName.getD "") field]⟩ : Arena).defs :=
        List.prefix_append _ _
      have hin : ∀ v ∈ (node s js).incoming,
          v ∈ (node { s with observed := s.observed.insert field ⟨a.defs.length⟩ }
            js).incoming := by
        intro v hv
        refine (List.mem_append.mp hv).elim (fun hm => List.mem_append_left _ ?_)
          fun hm => List.mem_append_right _ hm
        exact hvalues.mem_iff.mpr (List.mem_cons_of_mem _ hm)
      obtain ⟨hown, hjoined⟩ := hq
      refine ⟨⟨hp, hin, .node ?_ fun j hj => (hjoined j hj).grow hp⟩,
        hvalues.mem_iff.mpr List.mem_cons_self⟩
      have hbound : ∀ v ∈ (node s js).bound,
          v ∈ (node { s with observed := s.observed.insert field ⟨a.defs.length⟩ } js).bound :=
        fun v hv => (List.mem_append.mp hv).elim (fun hm => List.mem_append_left _ (hin v hm))
          fun hm => List.mem_append_right _ hm
      obtain ⟨hcomputed, hlets, hwheres, hshape, houtputs, hoperands⟩ := hown.mono hp hbound
      exact ⟨hcomputed, hlets, hwheres, hshape, houtputs, hoperands⟩

theorem closed_deliverAlso (h : q.Closed a) (hv : v ∈ q.bound ∨ v ∈ q.stage.shape.defines) :
    (q.withStage (·.deliverAlso v)).Closed a := by
  obtain ⟨hown, hjoined⟩ := h
  exact .node (hown.deliverAlso hv) hjoined

/-- What a query delivers after resolving and marking a variable. -/
theorem mem_names_deliverAlso (hs : u.stage.shape = q.stage.shape)
    (ho : u.stage.outputs = q.stage.outputs) :
    (∀ x ∈ q.stage.unpackedBag.names, x ∈ (u.withStage (·.deliverAlso v)).stage.unpackedBag.names) ∧
      v ∈ (u.withStage (·.deliverAlso v)).stage.unpackedBag.names := by
  simp only [stage_withStage, Stage.mem_names_iff, Stage.deliverAlso, Ascending.mem_insert, hs, ho]
  exact ⟨fun x hx => hx.imp_right Or.inr, Or.inr (Or.inl trivial)⟩

/-- A query that has delivered a name: closed, delivering what it did, and the name. -/
theorem closed_deliver (hq : q.Closed a)
    (ih : ∀ {name : String} {v : VarId} {a a' : Arena} {q' : Query}, q.Closed a →
      (q.input name).Yields a (q', v) a' → Widened a a' q q' ∧ v ∈ q'.bound)
    (h : (q.deliver (fun name => q.input name) name).Yields a (q', v) a') :
    a.defs <+: a'.defs ∧ q'.Closed a' ∧
      (∀ x ∈ q.stage.unpackedBag.names, x ∈ q'.stage.unpackedBag.names) ∧
        v ∈ q'.stage.unpackedBag.names := by
  obtain ⟨u, rfl, ⟨name, hi, _⟩ | ⟨hu, keys, gs, hs, hv⟩⟩ := deliver_cases h
  · obtain ⟨hw, hm⟩ := ih hq hi
    have hr := (resolved_input hi).1
    exact ⟨hw.arena, closed_deliverAlso hw.closed (Or.inl hm),
      mem_names_deliverAlso hr.shape hr.outputs⟩
  · have hboth : Widened a a' q u ∧ Resolved a a' q u := by
      rcases hu with ⟨rfl, rfl⟩ | ⟨name, x, hi⟩
      · exact ⟨hq.widened, .refl⟩
      · exact ⟨(ih hq hi).1, (resolved_input hi).1⟩
    obtain ⟨hw, hr⟩ := hboth
    refine ⟨hw.arena, closed_deliverAlso hw.closed (Or.inr ?_),
      mem_names_deliverAlso hr.shape hr.outputs⟩
    rw [hr.shape, hs]
    exact hv

/-- One joined query is replaced by another that delivers at least as much. -/
theorem Widened.of_join (hq : (node s (before ++ (aliasName, u) :: after)).Closed a)
    (hp : a.defs <+: a'.defs) (hu : u'.Closed a')
    (hnames : ∀ x ∈ u.stage.unpackedBag.names, x ∈ u'.stage.unpackedBag.names) :
    Widened a a' (node s (before ++ (aliasName, u) :: after))
      (node s (before ++ (aliasName, u') :: after)) := by
  have hin : ∀ v ∈ (node s (before ++ (aliasName, u) :: after)).incoming,
      v ∈ (node s (before ++ (aliasName, u') :: after)).incoming := by
    intro v hv
    simp only [Query.incoming, stage_node, joins_node, List.flatMap_append, List.flatMap_cons,
      List.mem_append] at hv ⊢
    exact hv.imp_right (Or.imp_right (Or.imp_left (hnames v)))
  obtain ⟨hown, hjoined⟩ := hq
  refine ⟨hp, hin, .node (hown.mono hp fun v hv => ?_) fun j hj => ?_⟩
  · exact (List.mem_append.mp hv).elim (fun hm => List.mem_append_left _ (hin v hm))
      fun hm => List.mem_append_right _ hm
  · rw [List.mem_append, List.mem_cons] at hj
    rcases hj with hj | rfl | hj
    · exact (hjoined j (List.mem_append_left _ hj)).grow hp
    · exact hu
    · exact (hjoined j (List.mem_append_right _ (List.mem_cons_of_mem _ hj))).grow hp

/-- Resolving a name keeps a query closed, and leads to a variable that is bound. -/
theorem widened_input (hq : q.Closed a) (h : (q.input name).Yields a (q', v) a') :
    Widened a a' q q' ∧ v ∈ q'.bound := by
  induction q generalizing name v a a' q' with
  | node s js ih =>
      rw [input] at h
      split at h
      · next u hr =>
          obtain ⟨he, rfl⟩ := Build.yields_pure.mp h
          cases he
          exact ⟨hq.widened, List.mem_append_right _ (Stage.mem_lets_of_bound hr)⟩
      · obtain ⟨⟨s', x⟩, b, ho, h⟩ := Build.yields_bind.mp h
        obtain ⟨he, rfl⟩ := Build.yields_pure.mp h
        cases he
        obtain ⟨hw, hm⟩ := widened_observe hq ho
        exact ⟨hw, List.mem_append_left _ (List.mem_append_left _ hm)⟩
      · next aliasName rest _ =>
          obtain ⟨⟨js', x⟩, b, hj, h⟩ := Build.yields_bind.mp h
          obtain ⟨he, rfl⟩ := Build.yields_pure.mp h
          cases he
          obtain ⟨before, u, u', after, rfl, rfl, hu⟩ := inputFrom_eq hj
          have hmem : (aliasName, u) ∈ before ++ (aliasName, u) :: after :=
            List.mem_append_cons_self
          have hclosed : u.Closed a := by
            obtain ⟨_, hjoined⟩ := hq
            exact hjoined _ hmem
          obtain ⟨hp, hu', hnames, hv⟩ := closed_deliver hclosed (ih _ hmem) hu
          refine ⟨.of_join hq hp hu' hnames, List.mem_append_left _ (List.mem_append_right _ ?_)⟩
          exact List.mem_flatMap.mpr ⟨(aliasName, u'), List.mem_append_cons_self, hv⟩
      · exact (Build.not_yields_throw h).elim

theorem widened_inputs {names : List String} {vs : List VarId} (hq : q.Closed a)
    (h : (q.inputs names).Yields a (q', vs) a') : Widened a a' q q' ∧ ∀ v ∈ vs, v ∈ q'.bound := by
  induction names generalizing q a vs with
  | nil =>
      obtain ⟨he, rfl⟩ := Build.yields_pure.mp h
      cases he
      exact ⟨hq.widened, List.forall_mem_nil _⟩
  | cons name names ih =>
      obtain ⟨⟨u, v⟩, b, hi, h⟩ := Build.yields_bind.mp h
      obtain ⟨⟨u', ws⟩, c, hs, h⟩ := Build.yields_bind.mp h
      obtain ⟨he, rfl⟩ := Build.yields_pure.mp h
      cases he
      obtain ⟨hw, hm⟩ := widened_input hq hi
      obtain ⟨hws, hms⟩ := ih hw.closed hs
      refine ⟨⟨hw.arena.trans hws.arena, fun x hx => hws.incoming x (hw.incoming x hx), hws.closed⟩,
        List.forall_mem_cons.mpr ⟨hws.bound (resolved_inputs hs).1 v hm, hms⟩⟩

end Query

end CausalTrace
