import CausalTrace.Proofs.Stages
import Mathlib.Data.List.Nodup

/-!
# Deployed queries

A compiled query that could be resolved is a list of plans, one for each stage and
joined stages first, each of which does what its stage asks for. Nothing else about
compiling and resolving matters for what runs.
-/

namespace CausalTrace

/-! ## Numbering stages -/

namespace Query

mutual

/-- The number of stages. -/
def size : Query → Nat
  | .node _ js => joinsSize js + 1

def joinsSize : List (String × Query) → Nat
  | [] => 0
  | (_, q) :: js => q.size + joinsSize js

end

/-- The bag of a joined query whose stages are numbered from `start`: its own stage
comes last. -/
def bagOf (id : QueryId) (start : Nat) (u : Query) : BagId := ⟨id, start + joinsSize u.joins⟩

/-- The bags that a stage unpacks. -/
def bagsOf (id : QueryId) : Nat → List (String × Query) → List (UnpackSpec VarId)
  | _, [] => []
  | start, (_, u) :: js => ⟨u.bagOf id start, u.stage.unpackedBag⟩ :: bagsOf id (start + u.size) js

theorem names_bagsOf (id : QueryId) (start : Nat) (js : List (String × Query)) :
    (bagsOf id start js).flatMap (·.bag.names) = js.flatMap fun j =>
      j.2.stage.unpackedBag.names := by
  induction js generalizing start with
  | nil => rfl
  | cons j js ih => rw [bagsOf, List.flatMap_cons, List.flatMap_cons, ih]

section

variable {a : Arena} {id : QueryId} {pack : Bool} {start : Nat}

theorem size_of_compileFrom {q : Query} {c : Compiled}
    (h : q.compileFrom a id pack start = .ok c) :
    c.weaves.length = q.size ∧ c.own.adviceId = q.bagOf id start := by
  induction q generalizing pack start c with
  | node s js ih =>
      obtain ⟨joined, unpack, plan, hj, hp, rfl⟩ := compileFrom_node_eq_ok_iff.mp h
      have hlength : joined.length = joinsSize js := by
        clear hp h
        induction js generalizing start joined unpack with
        | nil =>
            cases hj
            rfl
        | cons j js ihjs =>
            obtain ⟨c, later, unpackLater, hc, hl, rfl, _⟩ := compileJoins_cons_eq_ok_iff.mp hj
            have hfirst := (ih j List.mem_cons_self hc).1
            rw [List.length_append, hfirst, joinsSize]
            rw [ihjs (fun k hk => ih k (List.mem_cons_of_mem _ hk)) _ _ hl]
      refine ⟨?_, ?_⟩
      · rw [Compiled.weaves, List.length_append, hlength, size]
        rfl
      · show (⟨id, start + joined.length⟩ : BagId) = _
        rw [hlength]
        rfl

theorem bags_of_compileJoins {js : List (String × Query)} {weaves : List WeaveSpec}
    {unpack : List (UnpackSpec VarId)} (h : compileJoins a id start js = .ok (weaves, unpack)) :
    weaves.length = joinsSize js ∧ unpack = bagsOf id start js := by
  induction js generalizing start weaves unpack with
  | nil =>
      cases h
      exact ⟨rfl, rfl⟩
  | cons j js ih =>
      obtain ⟨c, later, unpackLater, hc, hl, rfl, rfl⟩ := compileJoins_cons_eq_ok_iff.mp h
      obtain ⟨hsize, hown⟩ := size_of_compileFrom hc
      rw [hsize] at hl
      obtain ⟨hlater, rfl⟩ := ih hl
      rw [List.length_append, hsize, hlater, hown]
      exact ⟨rfl, rfl⟩

end

end Query

/-! ## Plans that do what a stage asks for -/

/-- A woven plan takes what comes in and makes of it what its stage delivers. -/
structure Woven.Realizes (a : Arena) (s : Stage) (unpack : List (UnpackSpec VarId)) (own : BagId)
    (pack : Bool) (w : Woven) : Prop where
  queryId : w.queryId = own.query
  fields : w.fields = s.observed.keys
  width : w.advice.spec.observe.length = s.observed.values.length
  unpacks : w.advice.unpacks = unpack.map fun u => ⟨Bag.create u.bagId u.bag true, u.bag.arity⟩
  nodup : (s.observed.values ++ unpack.flatMap (·.bag.names)).Nodup
  deliver : ∀ env : Binding,
    w.advice.deliver? (env.row (s.observed.values ++ unpack.flatMap (·.bag.names))) =
      (s.arrive a env).map (s.deliveredRow pack)

/-- The columns of a bag are mentioned wherever the bag is. -/
theorem BagSpec.mentions_of_names {ν : Type} {b : BagSpec ν} {x : ν} (h : x ∈ b.names) :
    x ∈ b.mentions := by
  cases b with
  | tuple vars => exact h
  | filter keep vars => exact h
  | groupBy keys aggregates =>
      rcases List.mem_append.mp h with hk | hg
      · exact List.mem_append_right _ hk
      · exact List.mem_append_left _ hg

theorem nameIn_separates (a : Arena) (p : AdviceSpec VarId) :
    ∀ u ∈ p.bound, ∀ v, nameIn a (firstMentions p.mentions) u =
      nameIn a (firstMentions p.mentions) v →
      u = v := by
  intro u hu v h
  refine nameIn_inj (mem_firstMentions.mpr ?_) h
  rw [AdviceSpec.mentions]
  simp only [List.mem_append, List.mem_flatMap]
  rcases List.mem_append.mp hu with hi | hl
  · rcases List.mem_append.mp hi with ho | hn
    · exact Or.inl (Or.inl (Or.inl (Or.inl ho)))
    · obtain ⟨w, hw, hx⟩ := List.mem_flatMap.mp hn
      exact Or.inl (Or.inl (Or.inl (Or.inr ⟨w, hw, BagSpec.mentions_of_names hx⟩)))
  · obtain ⟨l, hm, rfl⟩ := List.mem_map.mp hl
    exact Or.inl (Or.inl (Or.inr ⟨l, hm, List.mem_cons_self⟩))

section

variable {a : Arena} {s : Stage} {unpack : List (UnpackSpec VarId)} {own : BagId} {pack : Bool}
  {plan : AdviceSpec VarId} {sinks sinks' : Sinks} {advice : Advice}

/-- A plan that could be resolved does what its stage asks for. -/
theorem realizes_of_create (ho : a.Ordered) (hp : planStage a s unpack own pack = .ok plan)
    (hv : ∀ v ∈ s.shape.defines,
      v ∉ s.observed.values ++ unpack.flatMap (·.bag.names) ++ s.lets.map (·.2))
    (hc : Advice.create (Query.weave a s own plan).advice sinks true = .ok (advice, sinks')) :
    Woven.Realizes a s unpack own pack ⟨own.query, own, s.observed.keys, advice⟩ ∧
      (advice.target, sinks') = (s.output own pack).target sinks true := by
  obtain ⟨hscoped, ls, hplans⟩ := planStage_eq_ok hp
  have hincoming := hplans.incoming_eq
  have hnodup : plan.bound.Nodup := by
    have hn := Advice.nodup_of_create hc
    rw [Query.weave, AdviceSpec.bound_rename] at hn
    exact List.Nodup.of_map _ hn
  rw [Query.weave, hplans.create_eq hscoped (nameIn_separates a plan) hnodup] at hc
  cases hc
  refine ⟨⟨rfl, rfl, ?_, ?_, ?_, ?_⟩, rfl⟩
  · rw [hplans.plan_eq]
    exact List.length_map ..
  · rw [hplans.plan_eq]
    rfl
  · rw [← hincoming]
    exact (List.nodup_append.mp hnodup).1
  · intro env
    rw [← hincoming]
    refine hplans.deliver?_eq ho hscoped hnodup ?_ env
    exact fun v hd hm => hv v hd (hplans.mem_bound_iff.mp hm)

end

/-! ## All plans of a query -/

namespace Query

mutual

/-- The plans of a query whose stages are numbered from `start`, with the places they
are woven into; the last one delivers to the target. -/
def Deployed (a : Arena) (id : QueryId) (pack : Bool) (t : Target) (start : Nat) :
    Query → List (String × Woven) → Prop
  | .node s js, ws => ∃ joined w, ws = joined ++ [(s.source.tracepoint.name, w)] ∧
      JoinsDeployed a id start js joined ∧
      w.Realizes a s (bagsOf id start js) ⟨id, start + joinsSize js⟩ pack ∧ w.advice.target = t

def JoinsDeployed (a : Arena) (id : QueryId) (start : Nat) :
    List (String × Query) → List (String × Woven) → Prop
  | [], ws => ws = []
  | (_, u) :: js, ws => ∃ first later, ws = first ++ later ∧
      Deployed a id true (.pack (Bag.create (u.bagOf id start) u.stage.packedBag true)) start u
        first ∧
      JoinsDeployed a id (start + u.size) js later

end

section

variable {a : Arena} {id : QueryId} {pack : Bool} {start : Nat} {sinks sinks' : Sinks}

theorem resolve_append_eq_ok {enabled : Bool} {xs ys : List WeaveSpec}
    {ws : List (String × Woven)} (h : Engine.resolve enabled id (xs ++ ys) sinks =
      .ok (ws, sinks')) :
    ∃ first next later, Engine.resolve enabled id xs sinks = .ok (first, next) ∧
      Engine.resolve enabled id ys next = .ok (later, sinks') ∧ ws = first ++ later := by
  induction xs generalizing sinks ws with
  | nil => exact ⟨[], sinks, ws, rfl, h, rfl⟩
  | cons x xs ih =>
      rw [List.cons_append, Engine.resolve] at h
      obtain ⟨⟨advice, next⟩, hc, h⟩ := bind_eq_ok_iff.mp h
      obtain ⟨⟨rest, last⟩, hr, he⟩ := bind_eq_ok_iff.mp h
      cases he
      obtain ⟨first, middle, later, hx, hy, rfl⟩ := ih hr
      refine ⟨_ :: first, middle, later, ?_, hy, rfl⟩
      exact bind_eq_ok_iff.mpr ⟨_, hc, bind_eq_ok_iff.mpr ⟨_, hx, rfl⟩⟩

/-- What a stage of a tree aggregates is bound nowhere at the stage. -/
theorem shape_not_bound {s : Stage} {js : List (String × Query)} (hn : (node s js).defines.Nodup)
    (hq : ∀ j ∈ js, j.2.Scoped a true) : ∀ v ∈ s.shape.defines, v ∉ (node s js).bound := by
  intro v hv hb
  rw [defines, List.nodup_append] at hn
  obtain ⟨hs, _, hne⟩ := hn
  rw [Stage.defines, List.nodup_append] at hs
  obtain ⟨_, _, hne'⟩ := hs
  rcases List.mem_append.mp hb with hi | hl
  · rcases List.mem_append.mp hi with ho | hj
    · exact hne' v (List.mem_append_left _ ho) v hv rfl
    · obtain ⟨j, hm, hd⟩ := List.mem_flatMap.mp hj
      have hjoin : v ∈ joinsDefine js := by
        rw [joinsDefine_eq]
        exact List.mem_flatMap.mpr ⟨j, hm, delivered_defined (hq j hm) v hd⟩
      exact hne v (Stage.mem_defines_iff.mpr (Or.inr (Or.inr hv))) v hjoin rfl
  · exact hne' v (List.mem_append_right _ hl) v hv rfl

/-- A compiled query that could be resolved. Joined queries make no sinks. -/
theorem deployed_of_resolve {q : Query} {c : Compiled} {ws : List (String × Woven)}
    (ho : a.Ordered) (hn : q.defines.Nodup) (hc : q.compileFrom a id pack start = .ok c)
    (hr : Engine.resolve true id c.weaves sinks = .ok (ws, sinks')) :
    q.Deployed a id pack ((q.stage.output (q.bagOf id start) pack).target sinks true).1 start ws ∧
      sinks' = ((q.stage.output (q.bagOf id start) pack).target sinks true).2 := by
  induction q generalizing pack start c ws sinks sinks' with
  | node s js ih =>
      have hscoped := scoped_of_compileFrom hc
      obtain ⟨joined, unpack, plan, hj, hp, rfl⟩ := compileFrom_node_eq_ok_iff.mp hc
      obtain ⟨hlength, rfl⟩ := bags_of_compileJoins hj
      obtain ⟨first, next, later, hfirst, hlater, rfl⟩ := resolve_append_eq_ok hr
      have hjoins : JoinsDeployed a id start js first ∧ next = sinks := by
        have hnj : (joinsDefine js).Nodup := (List.nodup_append.mp hn).2.1
        clear hlater hr hp hlength hc hscoped hn
        induction js generalizing start sinks joined first with
        | nil =>
            cases hj
            cases hfirst
            exact ⟨rfl, rfl⟩
        | cons j js ihjs =>
            obtain ⟨c, later, unpackLater, hc, hl, rfl, _⟩ := compileJoins_cons_eq_ok_iff.mp hj
            obtain ⟨ws, middle, ws', hws, hws', rfl⟩ := resolve_append_eq_ok hfirst
            rw [joinsDefine, List.nodup_append] at hnj
            obtain ⟨hd, rfl⟩ := ih j List.mem_cons_self hnj.1 hc hws
            rw [(size_of_compileFrom hc).1] at hl
            rw [(bags_of_compileJoins hl).2] at hl
            obtain ⟨hds, rfl⟩ :=
              ihjs (fun k hk => ih k (List.mem_cons_of_mem _ hk)) _ hl _ hws' hnj.2.1
            exact ⟨⟨ws, ws', rfl, hd, hds⟩, rfl⟩
      obtain ⟨hdeployed, rfl⟩ := hjoins
      obtain ⟨⟨advice, last⟩, hcreate, hlast⟩ := bind_eq_ok_iff.mp hlater
      cases hlast
      have hv : ∀ v ∈ s.shape.defines, v ∉ s.observed.values ++
          (bagsOf id start js).flatMap (·.bag.names) ++ s.lets.map (·.2) := by
        rw [names_bagsOf]
        cases hscoped with
        | node _ hjoined => exact shape_not_bound hn hjoined
      obtain ⟨hreal, htarget⟩ := realizes_of_create ho hp hv hcreate
      rw [hlength] at hreal htarget
      obtain ⟨ht, hs⟩ := Prod.mk.inj htarget
      refine ⟨⟨first, ⟨id, ⟨id, start + joinsSize js⟩, s.observed.keys, advice⟩, ?_, hdeployed,
        hreal, ht⟩, hs⟩
      simp only [weave, hlength]

end

end Query

end CausalTrace
