import CausalTrace.Proofs.Installing

/-!
# Which queries can be installed

A query can be installed if everything it reads is bound where it is read, and no stage
binds a variable twice.
-/

namespace CausalTrace

/-! ## Plans that can be resolved -/

section

variable {a : Arena} {s : Stage} {unpack : List (UnpackSpec VarId)} {own : BagId} {pack : Bool}
  {plan : AdviceSpec VarId} {sinks : Sinks} {enabled : Bool}

theorem nodup_weave_iff :
    (Query.weave a s own plan).advice.bound.Nodup ↔ plan.bound.Nodup := by
  rw [Query.weave, AdviceSpec.bound_rename]
  refine ⟨List.Nodup.of_map _, fun hn => hn.map_on fun u hu v _ h => ?_⟩
  exact nameIn_separates a plan u hu v h

theorem Plans.bound_perm {ls : List (LetSpec VarId)} (hp : Plans a s unpack own pack ls plan) :
    plan.bound.Perm (s.observed.values ++ unpack.flatMap (·.bag.names) ++ s.lets.map (·.2)) := by
  have hnames := hp.names
  rw [AdviceSpec.bound, hp.incoming_eq, hp.plan_eq]
  exact hnames.append_left _

/-- The plan of a stage can be resolved if it binds no variable twice. -/
theorem create_isOk_iff (hp : planStage a s unpack own pack = .ok plan) :
    (∃ r, Advice.create (Query.weave a s own plan).advice sinks enabled = .ok r) ↔
      (Query.weave a s own plan).advice.bound.Nodup := by
  constructor
  · rintro ⟨r, hr⟩
    exact Advice.nodup_of_create hr
  · intro hn
    obtain ⟨hscoped, ls, hplans⟩ := planStage_eq_ok hp
    exact ⟨_, hplans.create_eq hscoped (nameIn_separates a plan)
      (nodup_weave_iff.mp hn) sinks enabled⟩

theorem resolve_isOk_iff {id : QueryId} {weaves : List WeaveSpec}
    (h : ∀ w ∈ weaves, ∀ sinks, (∃ r, Advice.create w.advice sinks enabled = .ok r) ↔
      w.advice.bound.Nodup) :
    (∃ r, Engine.resolve enabled id weaves sinks = .ok r) ↔
      ∀ w ∈ weaves, w.advice.bound.Nodup := by
  induction weaves generalizing sinks with
  | nil => exact ⟨fun _ => List.forall_mem_nil _, fun _ => ⟨_, rfl⟩⟩
  | cons w weaves ih =>
      obtain ⟨hw, hws⟩ := List.forall_mem_cons.mp h
      rw [List.forall_mem_cons, ← hw sinks]
      constructor
      · rintro ⟨r, hr⟩
        obtain ⟨⟨advice, next⟩, hc, hr⟩ := bind_eq_ok_iff.mp hr
        obtain ⟨rest, hrest, _⟩ := bind_eq_ok_iff.mp hr
        exact ⟨⟨_, hc⟩, (ih hws).mp ⟨rest, hrest⟩⟩
      · rintro ⟨⟨⟨advice, next⟩, hc⟩, hn⟩
        have hnext : ∃ r, Engine.resolve enabled id weaves next = .ok r := (ih hws).mpr hn
        obtain ⟨⟨woven, last⟩, hrest⟩ := hnext
        exact ⟨_, bind_eq_ok_iff.mpr ⟨_, hc, bind_eq_ok_iff.mpr ⟨_, hrest, rfl⟩⟩⟩

end

/-! ## Queries that can be installed -/

namespace Query

variable {a : Arena} {id : QueryId} {pack : Bool} {start : Nat}

/-- No stage of the query binds a variable twice. -/
def Unambiguous (q : Query) : Prop := ∀ p ∈ q.parts, p.bound.Nodup

theorem unambiguous_node {s : Stage} {js : List (String × Query)} :
    (node s js).Unambiguous ↔ (node s js).bound.Nodup ∧ ∀ j ∈ js, j.2.Unambiguous := by
  constructor
  · intro h
    refine ⟨h _ (self_mem_parts _), fun j hj p hp => h p ?_⟩
    exact mem_parts_node.mpr (Or.inr ⟨j, hj, hp⟩)
  · rintro ⟨hown, hjoined⟩ p hp
    rcases mem_parts_node.mp hp with rfl | ⟨j, hj, hp⟩
    · exact hown
    · exact hjoined j hj p hp

theorem nodup_weaves_iff {q : Query} {c : Compiled} (h : q.compileFrom a id pack start = .ok c) :
    (∀ w ∈ c.weaves, w.advice.bound.Nodup) ↔ q.Unambiguous := by
  induction q generalizing pack start c with
  | node s js ih =>
      obtain ⟨joined, unpack, plan, hj, hp, rfl⟩ := compileFrom_node_eq_ok_iff.mp h
      obtain ⟨hscope, ls, hplans⟩ := planStage_eq_ok hp
      have hown : (weave a s ⟨id, start + joined.length⟩ plan).advice.bound.Nodup ↔
          (node s js).bound.Nodup := by
        rw [nodup_weave_iff, hplans.bound_perm.nodup_iff, names_of_compileJoins hj]
        rfl
      have hjoined : (∀ w ∈ joined, w.advice.bound.Nodup) ↔ ∀ j ∈ js, j.2.Unambiguous := by
        clear hown hscope hplans hp h
        induction js generalizing start joined unpack with
        | nil =>
            cases hj
            exact ⟨fun _ => List.forall_mem_nil _, fun _ => List.forall_mem_nil _⟩
        | cons j js ihjs =>
            obtain ⟨c, later, unpackLater, hc, hl, rfl, _⟩ := compileJoins_cons_eq_ok_iff.mp hj
            rw [List.forall_mem_append, List.forall_mem_cons, ih j List.mem_cons_self hc,
              ihjs (fun k hk => ih k (List.mem_cons_of_mem _ hk)) _ _ hl]
      rw [Compiled.weaves, List.forall_mem_append, List.forall_mem_singleton, hown, hjoined,
        unambiguous_node, and_comm]

end Query

namespace Engine

/-- Which queries can be installed once they are optimized, and under which number. -/
theorem install_isOk_iff_optimized {e : Engine} {q : Query}
    (ho : (e.optimize q).2.catalog.arena.Ordered) :
    (∃ e', e.install q = (.ok ⟨e.numbering.next⟩, e')) ↔
      (e.optimize q).1.Scoped (e.optimize q).2.catalog.arena false ∧
        (e.optimize q).1.Unambiguous := by
  constructor
  · rintro ⟨e', h⟩
    obtain ⟨_, c, ws, hcompiled, hr, _⟩ := install_eq_ok h
    refine ⟨Query.scoped_of_compileFrom hcompiled, (Query.nodup_weaves_iff hcompiled).mp ?_⟩
    refine (resolve_isOk_iff fun w hw sinks => ?_).mp ⟨_, hr⟩
    obtain ⟨s, unpack, own, pack, plan, hp, _, rfl⟩ :=
      Query.exists_plan_of_mem_weaves hcompiled w hw
    exact create_isOk_iff hp
  · rintro ⟨hscoped, hunambiguous⟩
    obtain ⟨c, hcompiled⟩ : ∃ c, (e.optimize q).1.compileFrom (e.optimize q).2.catalog.arena
        ⟨e.numbering.next⟩ false 0 = .ok c := Query.compileFrom_isOk ho hscoped
    have hcompile : (e.compile q).1 = .ok ⟨⟨e.numbering.next⟩, c.weaves⟩ := by
      rw [compile_fst, Query.compile, hcompiled]
      rfl
    obtain ⟨⟨woven, sinks⟩, hr⟩ :
        ∃ r, resolve (e.compile q).2.config.baggageEnabled ⟨e.numbering.next⟩
        c.weaves (e.compile q).2.sinks = .ok r := by
      refine (resolve_isOk_iff fun w hw sinks => ?_).mpr
        ((Query.nodup_weaves_iff hcompiled).mpr hunambiguous)
      obtain ⟨s, unpack, own, pack, plan, hp, _, rfl⟩ :=
        Query.exists_plan_of_mem_weaves hcompiled w hw
      exact create_isOk_iff hp
    rw [install]
    cases hc : e.compile q with
    | mk r e₁ =>
        rw [hc] at hcompile hr
        obtain rfl : r = .ok ⟨⟨e.numbering.next⟩, c.weaves⟩ := hcompile
        simp only
        rw [hr]
        exact ⟨_, rfl⟩

/-- Which queries can be installed, and under which number. -/
theorem install_isOk_iff {e : Engine} {q : Query} (hc : e.config.optimizeQueries = false)
    (ho : e.catalog.arena.Ordered) :
    (∃ e', e.install q = (.ok ⟨e.numbering.next⟩, e')) ↔
      q.Scoped e.catalog.arena false ∧ q.Unambiguous := by
  have hinstall := install_isOk_iff_optimized (e := e) (q := q)
  rw [optimize_off hc] at hinstall
  exact hinstall ho

end Engine

end CausalTrace
